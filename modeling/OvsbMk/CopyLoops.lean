import Mathlib.Tactic

/-!
# Copy loops

Loops that copy cells of a memory one by one, upwards or downwards. Upwards is right when the
destination is not inside the source behind its start, and downwards when the source is not
inside the destination behind its start.
-/

namespace OvsbMk.CopyLoops

variable {α : Type*} {m : ℕ → α} {dst src n i left a : ℕ}

/-- A number of rounds that copy upwards, from an index on. -/
def copyUp (dst src : ℕ) : ℕ → ℕ → (ℕ → α) → ℕ → α
  | 0, _, m => m
  | left+1, i, m => copyUp dst src left (i+1) (Function.update m (dst+i) (m (src+i)))

/-- A number of rounds that copy downwards, to index zero. -/
def copyDown (dst src : ℕ) : ℕ → (ℕ → α) → ℕ → α
  | 0, m => m
  | i+1, m => copyDown dst src i (Function.update m (dst+i) (m (src+i)))

/-- The memory after some cells have been moved at once. -/
def moved (m : ℕ → α) (dst src n : ℕ) : ℕ → α := fun a =>
  if dst≤a ∧ a<dst+n then m (src+(a-dst)) else m a

/-- A cell that has been moved. -/
theorem moved_inside (hi : i<n) : moved m dst src n (dst+i)=m (src+i) := by
  rw [moved,if_pos (by omega),Nat.add_sub_cancel_left]

/-- Other cells stay. -/
theorem moved_outside (ha : a<dst ∨ dst+n≤a) : moved m dst src n a=m a := by
  rw [moved,if_neg (by omega)]

/-- Moving cells to where they are changes nothing. -/
theorem moved_self (m : ℕ → α) (dst n : ℕ) : moved m dst dst n=m := by
  funext a
  rw [moved]
  split
  next hin => rw [Nat.add_sub_cancel' hin.1]
  next => rfl

/-- Rounds upwards change no cell in front of those that are left. -/
theorem copyUp_front (ha : a<dst+i) : copyUp dst src left i m a=m a := by
  induction left generalizing i m with
  | zero => rfl
  | succ left ih =>
    rw [copyUp,ih (by omega),Function.update_of_ne (by omega)]

/-- What rounds upwards leave. The cells that are still to be read are not written before,
because they are behind the one that is written or, all of them, in front. -/
theorem copyUp_apply (h : dst ≤ src ∨ src+(i+left)≤dst+i) (m : ℕ → α) (a : ℕ) :
    copyUp dst src left i m a=
      if dst+i≤a ∧ a<dst+(i+left) then m (src+(a-dst)) else m a := by
  induction left generalizing i m with
  | zero => rw [copyUp,if_neg (by omega)]
  | succ left ih =>
    rw [copyUp,ih (by omega)]
    by_cases hlater : dst+(i+1)≤a ∧ a<dst+(i+1+left)
    · rw [if_pos hlater,if_pos (by omega),Function.update_of_ne (by omega)]
    · rw [if_neg hlater]
      by_cases hnow : a=dst+i
      · rw [if_pos (by omega),hnow,Function.update_self,Nat.add_sub_cancel_left]
      · rw [if_neg (by omega),Function.update_of_ne hnow]

/-- What rounds downwards leave. The cells that are still to be read are in front of the one that
is written or, all of them, behind. -/
theorem copyDown_apply (h : src≤dst ∨ dst+n≤ src) (m : ℕ → α) (a : ℕ) :
    copyDown dst src n m a=moved m dst src n a := by
  induction n generalizing m with
  | zero => rw [copyDown,moved_outside (by omega)]
  | succ n ih =>
    rw [copyDown,ih (by omega)]
    by_cases hlater : dst≤a ∧ a<dst+n
    · rw [moved,if_pos hlater,moved,if_pos (by omega),Function.update_of_ne (by omega)]
    · rw [moved,if_neg hlater]
      by_cases hnow : a=dst+n
      · rw [hnow,Function.update_self,moved_inside (Nat.lt_succ_self n)]
      · rw [Function.update_of_ne hnow,moved_outside (by omega)]

/-- A loop upwards moves the cells. -/
theorem copyUp_eq_moved (h : dst ≤ src ∨ src+n≤dst) (m : ℕ → α) :
    copyUp dst src n 0 m=moved m dst src n := by
  funext a
  rw [copyUp_apply (by omega),moved,Nat.add_zero,Nat.zero_add]

/-- A loop downwards moves the cells. -/
theorem copyDown_eq_moved (h : src≤dst ∨ dst+n≤ src) (m : ℕ → α) :
    copyDown dst src n m=moved m dst src n := funext (copyDown_apply h m)

/-- Upwards to a destination behind the start of the source, every cell is at last as the one
that it was copied from. -/
theorem copyUp_repeats (h : src<dst) {k : ℕ} (hi : i≤k) (hk : k < i+left) :
    copyUp dst src left i m (dst+k)=copyUp dst src left i m (src+k) := by
  induction left generalizing i m with
  | zero => omega
  | succ left ih =>
    rw [copyUp]
    cases Nat.eq_or_lt_of_le hi with
    | inl he =>
      rw [←he,copyUp_front (by omega),copyUp_front (by omega),Function.update_self,
        Function.update_of_ne (by omega)]
    | inr hlt => exact ih hlt (by omega)

/-- A loop upwards is right for every memory exactly when the destination is not inside the
source behind its start. -/
theorem copyUp_right_iff [Nontrivial α] :
    (∀ m : ℕ → α, copyUp dst src n 0 m=moved m dst src n) ↔ ¬(src<dst ∧ dst<src+n) := by
  constructor
  · intro h hinside
    obtain ⟨x,y,hne⟩ := exists_pair_ne α
    -- The first cell of the source arrives at the start of the destination, and from there
    -- once more at the place behind it.
    have hsecond : src+(dst-src)=dst := by omega
    have hmarked := h (Function.update (fun _ => y) src x)
    generalize hm : Function.update (fun _ => y) src x=m at hmarked
    have hrepeat : copyUp dst src n 0 m (dst+(dst-src))=copyUp dst src n 0 m dst := by
      rw [copyUp_repeats hinside.1 (Nat.zero_le _) (by omega),hsecond]
    have hstart : copyUp dst src n 0 m dst=copyUp dst src n 0 m src :=
      copyUp_repeats hinside.1 (Nat.le_refl 0) (by omega)
    have hkept : copyUp dst src n 0 m src=x := by
      have hfront : copyUp dst src n 0 m src=m src := copyUp_front hinside.1
      rw [hfront,←hm,Function.update_self]
    have hwanted : moved m dst src n (dst+(dst-src))=y := by
      rw [moved_inside (by omega),hsecond,←hm,Function.update_of_ne (Nat.ne_of_gt hinside.1)]
    rw [hstart,hkept,hmarked,hwanted] at hrepeat
    exact hne hrepeat.symm
  · intro h m
    exact copyUp_eq_moved (by omega) m

end OvsbMk.CopyLoops
