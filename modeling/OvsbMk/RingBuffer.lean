import Mathlib.Data.List.Basic
import Mathlib.Tactic.Ring
import Mathlib.Logic.Function.Basic

/-!
# Ring buffers

A buffer of a fixed size with an index to store next and one to take next. It is empty
when both are the same, so one place stays free. As a queue it is the list of what was
stored and not yet taken.
-/

namespace OvsbMk.RingBuffer

/-- A ring buffer; both indices lie inside. -/
structure Ring (α : Type) (size : ℕ) where
  /-- The places. -/
  buffer : ℕ → α
  /-- The place to store next. -/
  head : ℕ
  /-- The place to take next. -/
  tail : ℕ
  /-- The first index lies inside. -/
  head_lt : head<size
  /-- The second index lies inside. -/
  tail_lt : tail<size

variable {α : Type} {size : ℕ} {r : Ring α size} {c : α}

/-- The size is not zero. -/
theorem Ring.size_pos (r : Ring α size) : 0<size := Nat.zero_lt_of_lt r.head_lt

/-- Store an element unless the ring is full. -/
def Ring.put (c : α) (r : Ring α size) : Ring α size :=
  if (r.head+1)%size≠r.tail then
    { r with
      buffer := Function.update r.buffer r.head c
      head := (r.head+1)%size
      head_lt := Nat.mod_lt _ r.size_pos }
  else r

/-- Take the oldest element. -/
def Ring.get (r : Ring α size) : Option (α×Ring α size) :=
  if r.head≠r.tail then
    some (r.buffer r.tail,
      { r with tail := (r.tail+1)%size, tail_lt := Nat.mod_lt _ r.size_pos })
  else none

/-- Places from one index on to another one. -/
def span (size tail head : ℕ) : ℕ := if tail≤head then head-tail else head+size-tail

/-- The elements, the oldest first. -/
def Ring.queue (r : Ring α size) : List α :=
  (List.range (span size r.tail r.head)).map fun i => r.buffer ((r.tail+i)%size)

/-- An index that has gone past the end at most once. -/
theorem mod_once {x : ℕ} (h : x<2*size) : x%size=if x<size then x else x-size := by
  split
  next hlt => exact Nat.mod_eq_of_lt hlt
  next hge => rw [Nat.mod_eq_sub_mod (by omega),Nat.mod_eq_of_lt (by omega)]

variable {head tail : ℕ}

/-- One more place is taken at the head. -/
theorem span_head (hh : head<size) (ht : tail<size) (h : span size tail head+1<size) :
    span size tail ((head+1)%size)=span size tail head+1 ∧ (head+1)%size≠tail := by
  rw [mod_once (by omega)]
  rw [span] at h
  rw [span,span]
  split <;> split <;> split at h <;> (try split) <;> omega

/-- One place less is taken at the tail. -/
theorem span_tail (hh : head<size) (ht : tail<size) (h : head≠tail) :
    span size ((tail+1)%size) head+1=span size tail head := by
  rw [mod_once (by omega),span,span]
  split <;> split <;> (try split) <;> omega

/-- The place after all taken ones. -/
theorem span_last (hh : head<size) (ht : tail<size) : (tail+span size tail head)%size=head := by
  rw [mod_once (by rw [span]; split <;> omega),span]
  split <;> split <;> omega

/-- The taken places are not the head. -/
theorem span_before (hh : head<size) (ht : tail<size) {i : ℕ} (hi : i<span size tail head) :
    (tail+i)%size≠head := by
  rw [span] at hi
  rw [mod_once (by split at hi <;> omega)]
  split <;> split at hi <;> omega

/-- The length of the queue. -/
theorem Ring.length_queue : r.queue.length=span size r.tail r.head := by
  rw [queue,List.length_map,List.length_range]

/-- An element stored in a ring with room comes last. -/
theorem Ring.queue_put (h : r.queue.length+1<size) : (r.put c).queue=r.queue++[c] := by
  rw [length_queue] at h
  obtain ⟨hspan,hroom⟩ := span_head r.head_lt r.tail_lt h
  rw [put,if_pos hroom,queue,queue]
  dsimp only
  rw [hspan,List.range_succ,List.map_append,List.map_singleton,span_last r.head_lt r.tail_lt,
    Function.update_self]
  congr 1
  refine List.map_congr_left fun i hi => Function.update_of_ne ?_ _ _
  exact span_before r.head_lt r.tail_lt (List.mem_range.mp hi)

/-- Nothing is taken from an empty ring. -/
theorem Ring.get_nil (h : r.queue=[]) : r.get=none := by
  have h1 := r.head_lt
  have h2 := r.tail_lt
  have h0 : span size r.tail r.head=0 := by
    rw [← length_queue,h]
    rfl
  rw [get,if_neg]
  rw [not_not]
  rw [span] at h0
  split at h0 <;> omega

/-- The oldest element is taken. -/
theorem Ring.get_cons {rest : List α} (h : r.queue=c::rest) :
    ∃ r', r.get=some (c,r') ∧ r'.queue=rest := by
  have hcount : span size r.tail r.head=rest.length+1 := by
    rw [← length_queue,h]
    rfl
  have hne : r.head≠r.tail := by
    intro heq
    rw [span,heq,if_pos le_rfl] at hcount
    omega
  have htail := span_tail r.head_lt r.tail_lt hne
  have hsplit : r.queue=r.buffer r.tail::
      (List.range rest.length).map fun i => r.buffer ((r.tail+(i+1))%size) := by
    rw [queue,hcount,List.range_succ_eq_map,List.map_cons,List.map_map,Nat.add_zero,
      Nat.mod_eq_of_lt r.tail_lt]
    rfl
  rw [h,List.cons.injEq] at hsplit
  obtain ⟨rfl,hrest⟩ := hsplit
  refine ⟨_,by rw [get,if_pos hne],?_⟩
  rw [queue]
  dsimp only
  rw [show span size ((r.tail+1)%size) r.head=rest.length by omega]
  refine Eq.trans (List.map_congr_left fun i _ => ?_) hrest.symm
  rw [Nat.mod_add_mod,Nat.add_assoc,Nat.add_comm 1 i]

end OvsbMk.RingBuffer
