import Mathlib.Data.List.TakeWhile
import Mathlib.Tactic

/-!
# Maximal runs in a list

The places of a list where a predicate holds fall into maximal runs. One scan from left to
right finds each of them once and in order.
-/

namespace OvsbMk.MaximalRuns

variable {α : Type*} {p : α → Prop} {s t before w rest : List α} {i a k : ℕ} {c : α} {r : ℕ×ℕ}

/-- The list has an entry at a place and the predicate holds there. -/
def On (p : α → Prop) (s : List α) (k : ℕ) : Prop := ∃ c, s[k]?=some c ∧ p c

/-- A maximal run from its first place to the place behind its last one. -/
structure MaximalRun (p : α → Prop) (s : List α) (r : ℕ×ℕ) : Prop where
  /-- The run is not empty. -/
  nonempty : r.1<r.2
  /-- The predicate holds in the run. -/
  holds : ∀ k, r.1≤k → k<r.2 → On p s k
  /-- The run does not continue to the left. -/
  left : r.1=0 ∨ ¬On p s (r.1-1)
  /-- The run does not continue to the right. -/
  right : ¬On p s r.2

/-- The entries of a run. -/
def slice (s : List α) (r : ℕ×ℕ) : List α := (s.drop r.1).take (r.2-r.1)

/-- The runs that a scan finds in what is left of a list from a place on, where a run may be
open already. -/
def runsFrom (p : α → Prop) [DecidablePred p] : List α → ℕ → Option ℕ → List (ℕ×ℕ)
  | [], _, none => []
  | [], i, some a => [(a,i)]
  | c::t, i, none => if p c then runsFrom p t (i+1) (some i) else runsFrom p t (i+1) none
  | c::t, i, some a =>
    if p c then runsFrom p t (i+1) (some a) else (a,i)::runsFrom p t (i+1) none

/-- The first of the entries that are left. -/
theorem on_drop (hs : s.drop i=c::t) : On p s i ↔ p c := by
  have hget : s[i]?=some c := by
    have hfirst : (s.drop i)[0]?=s[i+0]? := List.getElem?_drop
    rw [hs,Nat.add_zero] at hfirst
    exact hfirst.symm
  rw [On,hget]
  constructor
  · intro h
    cases h with
    | intro d hd =>
      rw [Option.some.inj hd.1]
      exact hd.2
  · intro h
    exact ⟨c,rfl,h⟩

/-- Nothing is behind the end. -/
theorem not_on_length : ¬On p s s.length := by
  intro h
  cases h with
  | intro d hd =>
    rw [List.getElem?_eq_none (Nat.le_refl _)] at hd
    cases hd.1

/-- The places of a run lie in the list. -/
theorem MaximalRun.inside (h : MaximalRun p s r) : r.2 ≤ s.length := by
  by_contra hlong
  have hlast := h.holds (r.2-1) (Nat.le_sub_one_of_lt h.nonempty)
    (Nat.sub_lt (Nat.zero_lt_of_lt h.nonempty) Nat.one_pos)
  cases hlast with
  | intro d hd =>
    rw [List.getElem?_eq_none (by omega)] at hd
    cases hd.1

/-- A run that covers a place where the predicate fails ends there or starts behind it. -/
theorem MaximalRun.apart (h : MaximalRun p s r) (hk : ¬On p s k) : r.2 ≤ k ∨ k<r.1 := by
  by_contra hin
  exact hk (h.holds k (by omega) (by omega))

/-- Two runs with one first place are the same. -/
theorem MaximalRun.unique {q : ℕ×ℕ} (h : MaximalRun p s r) (hq : MaximalRun p s q)
    (hfirst : r.1=q.1) : r=q := by
  have hne := h.nonempty
  have hne' := hq.nonempty
  have hright := hq.apart h.right
  have hright' := h.apart hq.right
  exact Prod.ext hfirst (by omega)

/-- What a scan has seen when it is at a place: an open run, or the end of the last one. -/
structure Seen (p : α → Prop) (s : List α) (i : ℕ) (opened : Option ℕ) : Prop where
  /-- An open run has started. -/
  started : ∀ a, opened=some a → a < i
  /-- The predicate holds in the open run. -/
  holds : ∀ k, opened.getD i≤k → k < i → On p s k
  /-- The run that comes first does not continue to the left. -/
  left : opened.getD i=0 ∨ ¬On p s (opened.getD i-1)

/-- An open run that ends is the first one of those that are not over. -/
theorem Seen.close (h : Seen p s i (some a)) (hi : ¬On p s i) :
    MaximalRun p s r ∧ a≤r.1 ↔ r=(a,i) ∨ MaximalRun p s r ∧ i+1≤r.1 := by
  have ha := h.started a rfl
  have hrun : MaximalRun p s (a,i) := ⟨ha,h.holds,h.left,hi⟩
  constructor
  · intro hr
    have hne := hr.1.nonempty
    cases hr.1.apart hi with
    | inr hbehind => exact Or.inr ⟨hr.1,hbehind⟩
    | inl hfront =>
      -- A run that started in the middle would continue to the left.
      have hfirst : r.1=a := by
        cases hr.1.left with
        | inl hzero => omega
        | inr hleft =>
          by_contra hmiddle
          exact hleft (h.holds (r.1-1) (by change a≤_; omega) (by omega))
      exact Or.inl (hr.1.unique hrun hfirst)
  · intro hr
    cases hr with
    | inl he => exact he ▸ ⟨hrun,Nat.le_refl a⟩
    | inr hr => exact ⟨hr.1,by omega⟩

/-- No run is open at the start. -/
theorem seen_start : Seen p s 0 none :=
  ⟨fun _ h => (nomatch h),fun k _ hk => absurd hk (Nat.not_lt_zero k),Or.inl rfl⟩

/-- A run starts. -/
theorem Seen.start (h : Seen p s i none) (hi : On p s i) : Seen p s (i+1) (some i) := by
  refine ⟨fun a ha => ?_,fun k hk hlt => ?_,h.left⟩
  · rw [←Option.some.inj ha]
    exact Nat.lt_succ_self i
  · rwa [Nat.le_antisymm (Nat.le_of_lt_succ hlt) hk]

/-- A run goes on. -/
theorem Seen.extend (h : Seen p s i (some a)) (hi : On p s i) : Seen p s (i+1) (some a) := by
  refine ⟨fun b hb => Nat.lt_succ_of_lt (h.started b hb),fun k hk hlt => ?_,h.left⟩
  cases Nat.lt_succ_iff_lt_or_eq.mp hlt with
  | inl hlt => exact h.holds k hk hlt
  | inr he => rwa [he]

/-- No run is open behind a place where the predicate fails. -/
theorem seen_behind (hi : ¬On p s i) : Seen p s (i+1) none :=
  ⟨fun _ h => (nomatch h),fun _ hk hlt => absurd hlt (Nat.not_lt.mpr hk),Or.inr hi⟩

/-- The scan of what is left of a list finds the maximal runs that are not over yet. -/
theorem mem_runsFrom [DecidablePred p] {opened : Option ℕ} (hs : s.drop i=t) (hi : i ≤ s.length)
    (h : Seen p s i opened) :
    r∈runsFrom p t i opened ↔ MaximalRun p s r ∧ opened.getD i≤r.1 := by
  induction t generalizing i opened with
  | nil =>
    have hend : i=s.length := Nat.le_antisymm hi (List.drop_eq_nil_iff.mp hs)
    have hbehind : ¬(MaximalRun p s r ∧ i ≤ r.1) := by
      intro hr
      have hne := hr.1.nonempty
      have hlen := hr.1.inside
      omega
    cases opened with
    | none =>
      rw [runsFrom]
      exact ⟨fun hr => absurd hr List.not_mem_nil,fun hr => absurd hr hbehind⟩
    | some a =>
      have hstop : ¬On p s i := hend ▸ not_on_length
      have hnone : ¬(MaximalRun p s r ∧ i+1≤r.1) :=
        fun hr => hbehind ⟨hr.1,Nat.le_of_succ_le hr.2⟩
      rw [runsFrom,List.mem_singleton,Option.getD_some,h.close hstop,or_iff_left hnone]
  | cons c t ih =>
    have hon : On p s i ↔ p c := on_drop hs
    have hs' : s.drop (i+1)=t := by rw [←List.drop_drop,hs,List.drop_succ_cons,List.drop_zero]
    have hi' : i+1 ≤ s.length := by
      by_contra hlong
      rw [List.drop_eq_nil_of_le (by omega)] at hs
      cases hs
    cases opened with
    | none =>
      rw [runsFrom,Option.getD_none]
      by_cases hc : p c
      · rw [if_pos hc]
        exact ih hs' hi' (h.start (hon.mpr hc))
      · have hfail := mt hon.mp hc
        rw [if_neg hc,ih hs' hi' (seen_behind hfail),Option.getD_none]
        constructor
        · intro hr
          exact ⟨hr.1,Nat.le_of_succ_le hr.2⟩
        · intro hr
          have hne := hr.1.nonempty
          cases hr.1.apart hfail with
          | inl hfront => omega
          | inr hbehind => exact ⟨hr.1,hbehind⟩
    | some a =>
      rw [runsFrom,Option.getD_some]
      by_cases hc : p c
      · rw [if_pos hc]
        exact ih hs' hi' (h.extend (hon.mpr hc))
      · have hfail := mt hon.mp hc
        rw [if_neg hc,List.mem_cons,ih hs' hi' (seen_behind hfail),Option.getD_none,
          h.close hfail]

/-- The scan of a whole list finds its maximal runs. -/
theorem mem_runs [DecidablePred p] : r∈runsFrom p s 0 none ↔ MaximalRun p s r := by
  rw [mem_runsFrom List.drop_zero (Nat.zero_le _) seen_start]
  exact and_iff_left (Nat.zero_le _)

/-- The scan finds nothing in front of the open run or of its place. -/
theorem le_of_mem_runsFrom [DecidablePred p] {opened : Option ℕ}
    (hopen : ∀ a, opened=some a → a < i) (hr : r∈runsFrom p t i opened) :
    opened.getD i≤r.1 := by
  induction t generalizing i opened with
  | nil =>
    cases opened with
    | none => exact absurd hr List.not_mem_nil
    | some a => exact (List.mem_singleton.mp hr) ▸ Nat.le_refl a
  | cons c t ih =>
    have hnone : r∈runsFrom p t (i+1) none → i+1≤r.1 := ih fun _ h => (nomatch h)
    cases opened with
    | none =>
      have hstart : ∀ a, some i=some a → a < i+1 :=
        fun a ha => Option.some.inj ha ▸ Nat.lt_succ_self i
      rw [runsFrom] at hr
      split at hr
      next =>
        have hfirst := ih hstart hr
        exact hfirst
      next => exact Nat.le_of_succ_le (hnone hr)
    | some a =>
      have ha := hopen a rfl
      have hnext : ∀ b, some a=some b → b < i+1 := fun b hb => Nat.lt_succ_of_lt (hopen b hb)
      rw [runsFrom] at hr
      split at hr
      next =>
        have hfirst := ih hnext hr
        exact hfirst
      next =>
        cases List.mem_cons.mp hr with
        | inl he => exact he ▸ Nat.le_refl a
        | inr hr => exact (Nat.le_of_lt ha).trans (Nat.le_of_succ_le (hnone hr))

/-- The scan finds the runs in their order, with a place between two of them. -/
theorem runsFrom_sorted [DecidablePred p] (t : List α) (i : ℕ) (opened : Option ℕ) :
    (runsFrom p t i opened).Pairwise fun r q => r.2<q.1 := by
  induction t generalizing i opened with
  | nil =>
    cases opened with
    | none => exact List.Pairwise.nil
    | some a => exact List.pairwise_singleton _ _
  | cons c t ih =>
    cases opened with
    | none =>
      rw [runsFrom]
      split
      next => exact ih _ _
      next => exact ih _ _
    | some a =>
      rw [runsFrom]
      split
      next => exact ih _ _
      next =>
        rw [List.pairwise_cons]
        have hclosed : ∀ b, none=some b → b < i+1 := fun _ h => nomatch h
        exact ⟨fun q hq => le_of_mem_runsFrom hclosed hq,ih _ _⟩

/-- A list begins with entries where a predicate holds, up to its end or one where it fails. -/
theorem exists_prefix (p : α → Prop) [DecidablePred p] (t : List α) :
    ∃ w rest, t=w++rest ∧ (∀ c∈w, p c) ∧ ∀ c u, rest=c::u → ¬p c := by
  refine ⟨t.takeWhile fun c => p c,t.dropWhile fun c => p c,
    List.takeWhile_append_dropWhile.symm,fun c hc => ?_,fun c u hu => ?_⟩
  · have h := List.mem_takeWhile_imp hc
    exact of_decide_eq_true h
  · have h := List.head?_dropWhile_not (fun c => decide (p c)) t
    rw [hu] at h
    simpa using h

/-- The scan passes over entries where the predicate fails. -/
theorem runsFrom_skip [DecidablePred p] (hw : ∀ c∈w, ¬p c) :
    runsFrom p (w++rest) i none=runsFrom p rest (i+w.length) none := by
  induction w generalizing i with
  | nil => rfl
  | cons c w ih =>
    rw [List.forall_mem_cons] at hw
    rw [List.cons_append,runsFrom,if_neg hw.1,ih hw.2,List.length_cons,Nat.add_assoc,
      Nat.add_comm 1]

/-- The scan of an open run goes on over entries where the predicate holds. -/
theorem runsFrom_extend [DecidablePred p] (hw : ∀ c∈w, p c) :
    runsFrom p (w++rest) i (some a)=runsFrom p rest (i+w.length) (some a) := by
  induction w generalizing i with
  | nil => rfl
  | cons c w ih =>
    rw [List.forall_mem_cons] at hw
    rw [List.cons_append,runsFrom,if_pos hw.1,ih hw.2,List.length_cons,Nat.add_assoc,
      Nat.add_comm 1]

/-- The entries of a run that is the middle part of a list. -/
theorem slice_append : slice (before++w++rest) (before.length,before.length+w.length)=w := by
  rw [slice,List.append_assoc,List.drop_left,Nat.add_sub_cancel_left,List.take_left]

end OvsbMk.MaximalRuns
