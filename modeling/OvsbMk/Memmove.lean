import OvsbMk.ByteMemory
import OvsbMk.CopyLoops

/-!
# Moving bytes

`memcpy` and `memmove` of the library. An array does not run past the last address, so that
addresses are natural numbers. `memmove` copies in the direction in which no byte is written
before it has been read; `memcpy` does the same for all memories unless the destination begins
inside the source.
-/

namespace OvsbMk.Memmove

open ByteMemory CopyLoops

/-- `memcpy`: what it returns, and the memory. -/
def memcpy (dst src : ℕ) (n : ℤ) (m : Bytes) : ℕ×Bytes := (dst,copyUp dst src n.toNat 0 m)

/-- `memmove`: what it returns, and the memory. A loop up to `n` or down from `n-1` has no
rounds for a negative number. -/
def memmove (dst src : ℕ) (n : ℤ) (m : Bytes) : ℕ×Bytes :=
  if src>dst then (dst,copyUp dst src n.toNat 0 m)
  else if src≠dst then (dst,copyDown dst src n.toNat m)
  else (dst,m)

variable {dst src : ℕ} {n : ℤ} {m : Bytes}

/-- Whatever the overlap, the bytes are moved as if all were read before the first is written. -/
theorem memmove_eq (dst src : ℕ) (n : ℤ) (m : Bytes) :
    memmove dst src n m=(dst,moved m dst src n.toNat) := by
  rw [memmove]
  by_cases hup : src>dst
  · rw [if_pos hup,copyUp_eq_moved (Or.inl (Nat.le_of_lt hup))]
  · rw [if_neg hup]
    by_cases hdown : src≠dst
    · rw [if_pos hdown,copyDown_eq_moved (Or.inl (Nat.le_of_not_lt hup))]
    · rw [if_neg hdown,not_not.mp hdown,moved_self]

/-- Every byte of the destination holds what the byte of the source held before, and no other
byte changes. -/
theorem memmove_moves (dst src : ℕ) (n : ℤ) (m : Bytes) :
    (memmove dst src n m).1=dst ∧
      (∀ i : ℕ, i < n → (memmove dst src n m).2 (dst+i)=m (src+i)) ∧
      ∀ a : ℕ, a<dst ∨ dst+n≤a → (memmove dst src n m).2 a=m a := by
  rw [memmove_eq]
  refine ⟨rfl,fun i hi => moved_inside (by omega),fun a ha => moved_outside (by omega)⟩

/-- `memcpy` does the same as `memmove` for every memory exactly when the destination does not
begin inside the source, behind its start. -/
theorem memcpy_eq_memmove_iff (dst src : ℕ) (n : ℤ) :
    (∀ m, memcpy dst src n m=memmove dst src n m) ↔ ¬(src<dst ∧ dst<src+n) := by
  have hmoved : (∀ m, memcpy dst src n m=memmove dst src n m) ↔
      ∀ m : Bytes, copyUp dst src n.toNat 0 m=moved m dst src n.toNat := by
    apply forall_congr'
    intro m
    rw [memmove_eq,memcpy,Prod.mk.injEq]
    exact and_iff_right rfl
  have : Nontrivial UInt8 := ⟨0,1,by decide⟩
  rw [hmoved,copyUp_right_iff]
  apply not_congr
  apply and_congr_right
  intro _
  omega

example : (memmove 2 0 3 fun a => UInt8.ofNat a).2 4=2 ∧
    (memcpy 2 0 3 fun a => UInt8.ofNat a).2 4=0 := by decide

end OvsbMk.Memmove
