import Mathlib.Data.List.Infix
import Mathlib.Tactic.Tauto

/-!
# Radix trees in tables

A tree of tables that is walked along a list of indices, one for each level. An entry is
absent, a leaf, or leads to a table of the next level; what an entry means depends on
the levels below it. When no table is reached in two ways, a change of one entry is seen
by the walks through it only, and a new empty table in the place of an absent entry by
none.
-/

namespace OvsbMk.RadixTree

/-- What an entry means. -/
inductive Target (α : Type) where
  /-- Nothing. -/
  | absent
  /-- A leaf. -/
  | leaf
  /-- A table of the next level. -/
  | child (a : α)

variable {α ι E : Type}

/-- The table that indices lead to, within a number of levels. -/
def reach (decode : ℕ → E → Target α) (t : α → ι → E) : ℕ → α → List ι → Option α
  | _, a, [] => some a
  | 0, _, _::_ => none
  | depth+1, a, i::rest =>
    match decode depth (t a i) with
    | .child b => reach decode t depth b rest
    | _ => none

/-- The leaf that indices lead to, and the number of levels below it. -/
def walk (decode : ℕ → E → Target α) (t : α → ι → E) : α → List ι → Option (E×ℕ)
  | _, [] => none
  | a, i::rest =>
    match decode rest.length (t a i) with
    | .absent => none
    | .leaf => some (t a i,rest.length)
    | .child b => walk decode t b rest

/-- The entry at an index of the table that indices lead to. -/
def entry (decode : ℕ → E → Target α) (t : α → ι → E) (depth : ℕ) (root : α) (p : List ι) (i : ι) :
    Option E :=
  (reach decode t depth root p).map fun a => t a i

/-- No table is reached in two ways. -/
def Unshared (decode : ℕ → E → Target α) (t : α → ι → E) (depth : ℕ) (root : α) : Prop :=
  ∀ p q a, p.length<depth → q.length<depth → reach decode t depth root p=some a →
    reach decode t depth root q=some a → p=q

variable {decode : ℕ → E → Target α} {t t' : α → ι → E} {depth : ℕ} {root a b : α} {p q rest : List ι}
  {i j : ι} {e : E}

/-- No indices lead to the root. -/
theorem reach_nil : reach decode t depth root []=some root := by
  cases depth <;> rfl

/-- A table is reached through the child at the first index. -/
theorem reach_cons_iff : reach decode t (depth+1) root (i::p)=some b ↔
    ∃ c, decode depth (t root i)=.child c ∧ reach decode t depth c p=some b := by
  rw [reach]
  constructor
  · intro h
    cases hd : decode depth (t root i) with
    | child c =>
      rw [hd] at h
      exact ⟨c,rfl,h⟩
    | absent =>
      rw [hd] at h
      cases h
    | leaf =>
      rw [hd] at h
      cases h
  · intro h
    obtain ⟨c,hd,hc⟩ := h
    rw [hd]
    exact hc

/-- Indices that lead to a table lead on from there. -/
theorem reach_append (h : reach decode t depth root p=some a) :
    reach decode t depth root (p++q)=reach decode t (depth-p.length) a q := by
  induction p generalizing depth root with
  | nil =>
    rw [reach_nil,Option.some.injEq] at h
    rw [h]
    rfl
  | cons i p ih =>
    cases depth with
    | zero => cases h
    | succ depth =>
      obtain ⟨c,hd,hc⟩ := reach_cons_iff.mp h
      rw [List.cons_append,reach,List.length_cons,Nat.add_sub_add_right,hd]
      exact ih hc

/-- Nothing is reached through what is not reached. -/
theorem reach_none (h : reach decode t depth root p=none) :
    reach decode t depth root (p++q)=none := by
  induction p generalizing depth root with
  | nil =>
    rw [reach_nil] at h
    cases h
  | cons i p ih =>
    cases depth with
    | zero => rfl
    | succ depth =>
      rw [reach] at h
      rw [List.cons_append,reach]
      cases hd : decode depth (t root i) with
      | child b =>
        rw [hd] at h
        exact ih h
      | absent => rfl
      | leaf => rfl

/-- A root without entries leads nowhere. -/
theorem reach_empty (h : ∀ i level, decode level (t root i)=.absent)
    (hp : reach decode t depth root p=some a) : p=[] := by
  cases p with
  | nil => rfl
  | cons i p =>
    cases depth with
    | zero => cases hp
    | succ depth =>
      obtain ⟨c,hd,_⟩ := reach_cons_iff.mp hp
      rw [h] at hd
      cases hd

/-- A root without entries shares no table. -/
theorem Unshared.empty (h : ∀ i level, decode level (t root i)=.absent) :
    Unshared decode t depth root :=
  fun _ _ _ _ _ hp hq => (reach_empty h hp).trans (reach_empty h hq).symm

/-- One index further. -/
theorem reach_snoc (h : reach decode t depth root p=some a) (hlt : p.length<depth) :
    reach decode t depth root (p++[i])=
      match decode (depth-p.length-1) (t a i) with
      | .child b => some b
      | _ => none := by
  rw [reach_append h]
  obtain ⟨n,hn⟩ : ∃ n, depth-p.length=n+1 := ⟨depth-p.length-1,by omega⟩
  rw [hn,reach,Nat.add_sub_cancel]
  cases decode n (t a i) with
  | child b => exact reach_nil
  | absent => rfl
  | leaf => rfl

/-- Tables are reached as before when the entries on the way are the same. -/
theorem reach_congr (h : ∀ p j r b, q=p++j::r → reach decode t depth root p=some b → t' b j=t b j) :
    reach decode t' depth root q=reach decode t depth root q := by
  induction q generalizing depth root with
  | nil => rw [reach_nil,reach_nil]
  | cons i rest ih =>
    cases depth with
    | zero => rfl
    | succ depth =>
      rw [reach,reach,h [] i rest root rfl reach_nil]
      cases hd : decode depth (t root i) with
      | child b =>
        exact ih fun p j r c hq hc =>
          h (i::p) j r c (by rw [hq]; rfl) (reach_cons_iff.mpr ⟨b,hd,hc⟩)
      | absent => rfl
      | leaf => rfl

/-- Walks go as before when the entries on the way are the same. -/
theorem walk_congr (hlen : q.length=depth)
    (h : ∀ p j r b, q=p++j::r → reach decode t depth root p=some b → t' b j=t b j) :
    walk decode t' root q=walk decode t root q := by
  induction q generalizing depth root with
  | nil => rfl
  | cons i rest ih =>
    subst hlen
    rw [walk,walk,h [] i rest root rfl reach_nil]
    cases hd : decode rest.length (t root i) with
    | child b =>
      exact ih rfl fun p j r c hq hc =>
        h (i::p) j r c (by rw [hq]; rfl) (reach_cons_iff.mpr ⟨b,hd,hc⟩)
    | absent => rfl
    | leaf => rfl

/-- A walk goes on from the table that its first indices lead to. -/
theorem walk_append (hlen : p.length+q.length=depth) (h : reach decode t depth root p=some a) :
    walk decode t root (p++q)=walk decode t a q := by
  induction p generalizing depth root with
  | nil =>
    rw [reach_nil,Option.some.injEq] at h
    rw [h]
    rfl
  | cons i p ih =>
    rw [List.length_cons] at hlen
    obtain ⟨n,rfl⟩ : ∃ n, depth=n+1 := ⟨depth-1,by omega⟩
    have hn : (p++q).length=n := by
      rw [List.length_append]
      omega
    obtain ⟨c,hd,hc⟩ := reach_cons_iff.mp h
    rw [List.cons_append,walk,hn,hd]
    exact ih (by omega) hc

/-- A walk ends at a leaf on its way. -/
theorem walk_leaf (hlen : p.length+1+rest.length=depth)
    (h : entry decode t depth root p i=some e) (hleaf : decode rest.length e=.leaf) :
    walk decode t root (p++i::rest)=some (e,rest.length) := by
  obtain ⟨a,ha,rfl⟩ := Option.map_eq_some_iff.mp h
  rw [walk_append (by rw [List.length_cons]; omega) ha,walk,hleaf]

/-- A walk ends at an absent entry on its way. -/
theorem walk_absent (hlen : p.length+1+rest.length=depth)
    (h : entry decode t depth root p i=some e) (habsent : decode rest.length e=.absent) :
    walk decode t root (p++i::rest)=none := by
  obtain ⟨a,ha,rfl⟩ := Option.map_eq_some_iff.mp h
  rw [walk_append (by rw [List.length_cons]; omega) ha,walk,habsent]

/-- A way does not go through its end. -/
theorem not_prefix_self : ¬p++[i]<+:p := by
  intro h
  have := h.length_le
  rw [List.length_append,List.length_singleton] at this
  omega

/-- A new table takes the place of an absent entry: it is reached by no way, and all its
entries are absent. -/
structure Link (decode : ℕ → E → Target α) (t : α → ι → E) (depth : ℕ) (root : α) (p : List ι)
    (a : α) (i : ι) (e : E) (b : α) : Prop where
  /-- No table is reached in two ways. -/
  unshared : Unshared decode t depth root
  /-- The table of the entry. -/
  reached : reach decode t depth root p=some a
  /-- There is a level below. -/
  below : p.length+1<depth
  /-- The entry is absent. -/
  absent : decode (depth-p.length-1) (t a i)=.absent
  /-- The new entry leads to the new table. -/
  child : decode (depth-p.length-1) e=.child b
  /-- The new table is not reached. -/
  fresh : ∀ q, q.length<depth → reach decode t depth root q≠some b
  /-- The new table is empty. -/
  empty : ∀ j, decode (depth-p.length-2) (t b j)=.absent

/-- Nothing was reached through the entry. -/
theorem Link.reach_old (h : Link decode t depth root p a i e b) :
    reach decode t depth root (p++[i])=none := by
  rw [reach_snoc h.reached (Nat.lt_of_succ_lt h.below),h.absent]

section Changes

variable [DecidableEq α]

/-- Fill a table with one entry. -/
abbrev fill (t : α → ι → E) (b : α) (z : E) : α → ι → E := Function.update t b fun _ => z

variable {g : ι → E}

/-- A table that is reached is another one than a table that is not. -/
theorem update_reached (hb : ∀ p, p.length<depth → reach decode t depth root p≠some b)
    {p : List ι} (hp : p.length<depth) {c : α} (hc : reach decode t depth root p=some c) :
    Function.update t b g c=t c := by
  apply Function.update_of_ne
  intro he
  rw [he] at hc
  exact hb p hp hc

/-- A table that is not reached does not matter. -/
theorem reach_update (hb : ∀ p, p.length<depth → reach decode t depth root p≠some b)
    (hq : q.length≤depth) :
    reach decode (Function.update t b g) depth root q=reach decode t depth root q := by
  refine reach_congr fun p j r c hsplit hc => ?_
  have hlt : p.length<depth := by
    rw [hsplit,List.length_append,List.length_cons] at hq
    omega
  exact congrFun (update_reached hb hlt hc) j

/-- A table that is not reached does not matter for walks. -/
theorem walk_update (hb : ∀ p, p.length<depth → reach decode t depth root p≠some b)
    (hq : q.length=depth) :
    walk decode (Function.update t b g) root q=walk decode t root q := by
  refine walk_congr hq fun p j r c hsplit hc => ?_
  have hlt : p.length<depth := by
    rw [hsplit,List.length_append,List.length_cons] at hq
    omega
  exact congrFun (update_reached hb hlt hc) j

/-- A table that is not reached does not matter for entries. -/
theorem entry_update (hb : ∀ p, p.length<depth → reach decode t depth root p≠some b)
    (hq : q.length<depth) :
    entry decode (Function.update t b g) depth root q j=entry decode t depth root q j := by
  rw [entry,entry,reach_update hb hq.le]
  cases hc : reach decode t depth root q with
  | none => rfl
  | some c =>
    rw [Option.map_some,Option.map_some,update_reached hb hq hc]

/-- Whatever is in a table that is not reached, no table is reached in two ways. -/
theorem Unshared.update (hu : Unshared decode t depth root)
    (hb : ∀ p, p.length<depth → reach decode t depth root p≠some b) :
    Unshared decode (Function.update t b g) depth root := by
  intro q r c hq hr hqc hrc
  rw [reach_update hb hq.le] at hqc
  rw [reach_update hb hr.le] at hrc
  exact hu q r c hq hr hqc hrc

/-- A copy of the root leads where the root leads. -/
theorem reach_copy (hb : ∀ p, p.length<depth → reach decode t depth root p≠some b)
    (hq : (i::q).length≤depth) :
    reach decode (Function.update t b (t root)) depth b (i::q)=reach decode t depth root (i::q) := by
  obtain ⟨n,rfl⟩ : ∃ n, depth=n+1 := ⟨depth-1,by rw [List.length_cons] at hq; omega⟩
  rw [reach,reach,Function.update_self]
  cases hd : decode n (t root i) with
  | absent => rfl
  | leaf => rfl
  | child c =>
    refine reach_congr fun p j r d hsplit hc => ?_
    rw [Function.update_of_ne]
    rintro rfl
    refine hb (i::p) ?_ (reach_cons_iff.mpr ⟨c,hd,hc⟩)
    rw [hsplit,List.length_cons,List.length_append,List.length_cons] at hq
    rw [List.length_cons]
    omega

/-- Walks from a copy of the root end where those from the root end. -/
theorem walk_copy (hb : ∀ p, p.length<depth → reach decode t depth root p≠some b)
    (hq : q.length=depth) :
    walk decode (Function.update t b (t root)) b q=walk decode t root q := by
  subst hq
  cases q with
  | nil => rfl
  | cons i q =>
    rw [walk,walk,Function.update_self]
    cases hd : decode q.length (t root i) with
    | absent => rfl
    | leaf => rfl
    | child c =>
      refine walk_congr rfl fun p j r d hsplit hc => ?_
      rw [Function.update_of_ne]
      rintro rfl
      refine hb (i::p) ?_ (reach_cons_iff.mpr ⟨c,hd,hc⟩)
      rw [hsplit,List.length_cons,List.length_cons,List.length_append,List.length_cons]
      omega

/-- Entries from a copy of the root are those from the root. -/
theorem entry_copy (hb : ∀ p, p.length<depth → reach decode t depth root p≠some b)
    (hq : q.length<depth) :
    entry decode (Function.update t b (t root)) depth b q j=entry decode t depth root q j := by
  cases q with
  | nil => rw [entry,entry,reach_nil,reach_nil,Option.map_some,Option.map_some,Function.update_self]
  | cons i q =>
    rw [entry,entry,reach_copy hb hq.le]
    cases hc : reach decode t depth root (i::q) with
    | none => rfl
    | some c =>
      rw [Option.map_some,Option.map_some,Function.update_of_ne]
      rintro rfl
      exact hb _ hq hc

/-- From a copy of the root no table is reached in two ways. -/
theorem Unshared.copy (hu : Unshared decode t depth root)
    (hb : ∀ p, p.length<depth → reach decode t depth root p≠some b) :
    Unshared decode (Function.update t b (t root)) depth b := by
  intro q r c hq hr hqc hrc
  cases q with
  | nil =>
    cases r with
    | nil => rfl
    | cons j r =>
      rw [reach_nil] at hqc
      rw [reach_copy hb hr.le,← hqc] at hrc
      exact (hb _ hr hrc).elim
  | cons i q =>
    rw [reach_copy hb hq.le] at hqc
    cases r with
    | nil =>
      rw [reach_nil] at hrc
      rw [← hrc] at hqc
      exact (hb _ hq hqc).elim
    | cons j r =>
      rw [reach_copy hb hr.le] at hrc
      exact hu _ _ c hq hr hqc hrc

variable [DecidableEq ι]

/-- Change an entry. -/
def set (t : α → ι → E) (a : α) (i : ι) (e : E) : α → ι → E :=
  Function.update t a (Function.update (t a) i e)

/-- The changed entry. -/
theorem set_same : set t a i e a i=e := by
  rw [set,Function.update_self,Function.update_self]

/-- Other entries stay. -/
theorem set_other (h : ¬(b=a ∧ j=i)) : set t a i e b j=t b j := by
  rw [set]
  by_cases hb : b=a
  · subst hb
    rw [Function.update_self,Function.update_of_ne fun hj => h ⟨rfl,hj⟩]
  · rw [Function.update_of_ne hb]

/-- A change of an entry is not seen on ways that do not go through it. -/
theorem set_unseen (hu : Unshared decode t depth root) (hp : reach decode t depth root p=some a)
    (hlt : p.length<depth) (hq : q.length≤depth) (hnot : ¬p++[i]<+:q) {r : List ι}
    (hsplit : q=rest++j::r) (hc : reach decode t depth root rest=some b) :
    set t a i e b j=t b j := by
  refine set_other fun h => hnot ?_
  obtain ⟨rfl,rfl⟩ := h
  have hrest : rest.length<depth := by
    rw [hsplit,List.length_append,List.length_cons] at hq
    omega
  rw [hu p rest b hlt hrest hp hc,hsplit]
  exact ⟨r,by rw [List.append_assoc]; rfl⟩

/-- Tables on other ways are reached as before. -/
theorem reach_set_other (hu : Unshared decode t depth root)
    (hp : reach decode t depth root p=some a) (hlt : p.length<depth) (hq : q.length≤depth)
    (hnot : ¬p++[i]<+:q) :
    reach decode (set t a i e) depth root q=reach decode t depth root q :=
  reach_congr fun _ _ _ _ hsplit hc => set_unseen hu hp hlt hq hnot hsplit hc

/-- Walks on other ways go as before. -/
theorem walk_set_other (hu : Unshared decode t depth root)
    (hp : reach decode t depth root p=some a) (hlt : p.length<depth) (hq : q.length=depth)
    (hnot : ¬p++[i]<+:q) : walk decode (set t a i e) root q=walk decode t root q :=
  walk_congr hq fun _ _ _ _ hsplit hc => set_unseen hu hp hlt hq.le hnot hsplit hc

/-- The table of the changed entry is reached as before. -/
theorem reach_set_self (hu : Unshared decode t depth root)
    (hp : reach decode t depth root p=some a) (hlt : p.length<depth) :
    reach decode (set t a i e) depth root p=some a :=
  (reach_set_other hu hp hlt hlt.le not_prefix_self).trans hp

/-- The changed entry. -/
theorem entry_set_same (hu : Unshared decode t depth root)
    (hp : reach decode t depth root p=some a) (hlt : p.length<depth) :
    entry decode (set t a i e) depth root p i=some e := by
  rw [entry,reach_set_self hu hp hlt,Option.map_some,set_same]

/-- Entries on other ways stay. -/
theorem entry_set_other (hu : Unshared decode t depth root)
    (hp : reach decode t depth root p=some a) (hlt : p.length<depth) (hq : q.length<depth)
    (hnot : ¬p++[i]<+:q++[j]) :
    entry decode (set t a i e) depth root q j=entry decode t depth root q j := by
  have hq' : ¬p++[i]<+:q := fun h => hnot (h.trans (List.prefix_append q [j]))
  rw [entry,entry,reach_set_other hu hp hlt hq.le hq']
  cases hc : reach decode t depth root q with
  | none => rfl
  | some c =>
    rw [Option.map_some,Option.map_some,Option.some.injEq]
    refine set_other ?_
    rintro ⟨rfl,rfl⟩
    rw [hu p q c hlt hq hp hc] at hnot
    exact hnot (List.prefix_refl _)

/-- A change of an entry to a leaf is seen below it only, where no table is left. -/
theorem reach_leaf (hu : Unshared decode t depth root) (hp : reach decode t depth root p=some a)
    (hlt : p.length<depth) (hleaf : decode (depth-p.length-1) e=.leaf) (hq : q.length≤depth)
    (h : reach decode (set t a i e) depth root q=some b) : reach decode t depth root q=some b := by
  by_cases hpre : p++[i]<+:q
  · obtain ⟨r,rfl⟩ := hpre
    have hnone : reach decode (set t a i e) depth root (p++[i])=none := by
      rw [reach_snoc (reach_set_self hu hp hlt) hlt,set_same,hleaf]
    rw [reach_none hnone] at h
    cases h
  · rwa [reach_set_other hu hp hlt hq hpre] at h

/-- After a change of an entry to a leaf no table is reached in two ways. -/
theorem Unshared.leaf (hu : Unshared decode t depth root)
    (hp : reach decode t depth root p=some a) (hlt : p.length<depth)
    (hleaf : decode (depth-p.length-1) e=.leaf) : Unshared decode (set t a i e) depth root :=
  fun q r c hq hr hqc hrc => hu q r c hq hr (reach_leaf hu hp hlt hleaf hq.le hqc)
    (reach_leaf hu hp hlt hleaf hr.le hrc)

/-- The new table is reached through the entry. -/
theorem Link.reach_new (h : Link decode t depth root p a i e b) :
    reach decode (set t a i e) depth root (p++[i])=some b := by
  have hlt : p.length<depth := Nat.lt_of_succ_lt h.below
  rw [reach_snoc (reach_set_self h.unshared h.reached hlt) hlt,set_same,h.child]

/-- Entries of the new table. -/
theorem Link.new_entry (h : Link decode t depth root p a i e b) : set t a i e b j=t b j := by
  refine set_other ?_
  rintro ⟨rfl,_⟩
  exact h.fresh p (Nat.lt_of_succ_lt h.below) h.reached

/-- Of all ways only the one to the new table is new. -/
theorem Link.reach_eq (h : Link decode t depth root p a i e b) (hq : q.length≤depth)
    (hne : q≠p++[i]) :
    reach decode (set t a i e) depth root q=reach decode t depth root q := by
  have hbelow := h.below
  by_cases hpre : p++[i]<+:q
  · obtain ⟨r,rfl⟩ := hpre
    cases r with
    | nil => exact (hne (List.append_nil _)).elim
    | cons j r =>
      rw [reach_append h.reach_new,reach_none h.reach_old,List.length_append,List.length_singleton]
      obtain ⟨n,hn⟩ : ∃ n, depth-(p.length+1)=n+1 := ⟨depth-(p.length+1)-1,by omega⟩
      rw [hn,reach,h.new_entry,show n=depth-p.length-2 by omega,h.empty]
  · exact reach_set_other h.unshared h.reached (Nat.lt_of_succ_lt h.below) hq hpre

/-- With the new table no table is reached in two ways. -/
theorem Link.unshared_set (h : Link decode t depth root p a i e b) :
    Unshared decode (set t a i e) depth root := by
  have hnew : ∀ q c, q.length<depth → reach decode (set t a i e) depth root q=some c →
      q=p++[i] ∧ c=b ∨ c≠b ∧ reach decode t depth root q=some c := by
    intro q c hq hc
    by_cases hqi : q=p++[i]
    · rw [hqi,h.reach_new,Option.some.injEq] at hc
      exact Or.inl ⟨hqi,hc.symm⟩
    · rw [h.reach_eq hq.le hqi] at hc
      refine Or.inr ⟨?_,hc⟩
      rintro rfl
      exact h.fresh q hq hc
  intro q r c hq hr hqc hrc
  rcases hnew q c hq hqc with ⟨rfl,rfl⟩ | ⟨hne,hq'⟩
  · rcases hnew r c hr hrc with ⟨rfl,_⟩ | ⟨hne,_⟩
    · rfl
    · exact (hne rfl).elim
  · rcases hnew r c hr hrc with ⟨_,rfl⟩ | ⟨_,hr'⟩
    · exact (hne rfl).elim
    · exact h.unshared q r c hq hr hq' hr'

/-- Walks do not see the new table. -/
theorem Link.walk_eq (h : Link decode t depth root p a i e b) (hq : q.length=depth) :
    walk decode (set t a i e) root q=walk decode t root q := by
  have hbelow := h.below
  by_cases hpre : p++[i]<+:q
  · obtain ⟨r,rfl⟩ := hpre
    rw [List.length_append,List.length_append,List.length_singleton] at hq
    cases r with
    | nil =>
      rw [List.length_nil] at hq
      omega
    | cons j r =>
      rw [List.length_cons] at hq
      have hold : entry decode t depth root p i=some (t a i) := by
        rw [entry,h.reached]
        rfl
      have habsent : decode (j::r).length (t a i)=.absent := by
        rw [show (j::r).length=depth-p.length-1 by rw [List.length_cons]; omega]
        exact h.absent
      rw [walk_append (by rw [List.length_append,List.length_singleton,List.length_cons]; omega)
        h.reach_new,walk,h.new_entry,show r.length=depth-p.length-2 by omega,h.empty,
        List.append_assoc]
      exact (walk_absent (by rw [List.length_cons]; omega) hold habsent).symm
  · exact walk_set_other h.unshared h.reached (Nat.lt_of_succ_lt h.below) hq hpre

/-- The new entry. -/
theorem Link.entry_new (h : Link decode t depth root p a i e b) :
    entry decode (set t a i e) depth root p i=some e :=
  entry_set_same h.unshared h.reached (Nat.lt_of_succ_lt h.below)

/-- Other entries stay. -/
theorem Link.entry_kept (h : Link decode t depth root p a i e b) (hq : q.length<depth)
    (hne : q++[j]≠p++[i]) {x : E} (hx : entry decode t depth root q j=some x) :
    entry decode (set t a i e) depth root q j=some x := by
  rw [entry_set_other h.unshared h.reached (Nat.lt_of_succ_lt h.below) hq,hx]
  intro hpre
  rcases List.prefix_concat_iff.mp hpre with heq | hpre
  · exact hne heq.symm
  · obtain ⟨r,rfl⟩ := hpre
    rw [entry,reach_none h.reach_old] at hx
    cases hx

/-- An entry is the new one, one of the new table, or was there before. -/
theorem Link.entry_cases (h : Link decode t depth root p a i e b) (hq : q.length<depth) {x : E}
    (hx : entry decode (set t a i e) depth root q j=some x) :
    x=e ∨ x=t b j ∨ entry decode t depth root q j=some x := by
  have hlt : p.length<depth := Nat.lt_of_succ_lt h.below
  by_cases hnew : q=p++[i]
  · rw [hnew,entry,h.reach_new,Option.map_some,Option.some.injEq,h.new_entry] at hx
    exact Or.inr (Or.inl hx.symm)
  · by_cases hself : q=p ∧ j=i
    · obtain ⟨rfl,rfl⟩ := hself
      rw [h.entry_new,Option.some.injEq] at hx
      exact Or.inl hx.symm
    · rw [entry,h.reach_eq hq.le hnew] at hx
      obtain ⟨c,hc,rfl⟩ := Option.map_eq_some_iff.mp hx
      refine Or.inr (Or.inr ?_)
      rw [set_other,entry,hc,Option.map_some]
      rintro ⟨rfl,rfl⟩
      exact hself ⟨h.unshared q p c hq hlt hc h.reached,rfl⟩

end Changes

end OvsbMk.RadixTree
