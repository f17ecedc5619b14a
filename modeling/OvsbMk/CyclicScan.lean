import Mathlib.Tactic

/-!
# Searching round a ring

A search from a place on round a ring of numbered places finds the first one with a
property. Whoever is found has passed no place with the property, so every further place
comes nearer with each search that starts where the last one ended.
-/

namespace OvsbMk.CyclicScan

variable {n c q x i : ℕ} {p : ℕ → Bool}

/-- Steps from one place on to another. -/
def ahead (n c q : ℕ) : ℕ := if c≤q then q-c else q+n-c

/-- The places from one on round the ring, and the first of them with the property. -/
def scan (n : ℕ) (p : ℕ → Bool) (c : ℕ) : Option ℕ :=
  ((List.range n).map fun i => (c+i)%n).find? p

/-- No place is further away than round the ring. -/
theorem ahead_lt (hc : c<n) (hq : q<n) : ahead n c q<n := by
  unfold ahead
  split <;> omega

/-- Another place is some steps away. -/
theorem ahead_pos (hc : c<n) (h : q≠c) : 0<ahead n c q := by
  unfold ahead
  split <;> omega

/-- The place after the steps to it. -/
theorem add_ahead (hc : c<n) (hq : q<n) : (c+ahead n c q)%n=q := by
  unfold ahead
  split
  next h => rw [Nat.add_sub_cancel' h,Nat.mod_eq_of_lt hq]
  next h =>
    rw [show c+(q+n-c)=q+n by omega,Nat.add_mod_right,Nat.mod_eq_of_lt hq]

/-- The steps to the place after some steps. -/
theorem ahead_add (hc : c<n) (hi : i<n) : ahead n c ((c+i)%n)=i := by
  by_cases h : c+i<n
  · rw [Nat.mod_eq_of_lt h,ahead,if_pos (by omega)]
    omega
  · rw [Nat.mod_eq_sub_mod (by omega),Nat.mod_eq_of_lt (by omega),ahead,if_neg (by omega)]
    omega

/-- A search finds a place with the property that is not behind another one. -/
theorem scan_first (hc : c<n) (hq : q<n) (hp : p q=true) :
    ∃ x, scan n p c=some x ∧ x<n ∧ p x=true ∧ ahead n c x≤ahead n c q := by
  have hi := ahead_lt hc hq
  have hpi : p ((c+ahead n c q)%n)=true := by rwa [add_ahead hc hq]
  cases hfind : (List.range n).find? (p ∘ fun i => (c+i)%n) with
  | none => exact absurd hpi (List.find?_eq_none.mp hfind _ (List.mem_range.mpr hi))
  | some j =>
    obtain ⟨hpj,hj,hmin⟩ := List.find?_range_eq_some.mp hfind
    rw [List.mem_range] at hj
    refine ⟨(c+j)%n,?_,Nat.mod_lt _ (by omega),hpj,?_⟩
    · rw [scan,List.find?_map,hfind]
      rfl
    · rw [ahead_add hc hj]
      by_contra hlt
      have hno := hmin _ (Nat.lt_of_not_le hlt)
      rw [Function.comp_apply,hpi] at hno
      exact Bool.false_ne_true hno

end OvsbMk.CyclicScan
