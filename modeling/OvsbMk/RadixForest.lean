import OvsbMk.RadixTree

/-!
# Forests of radix trees

Several roots may have entries in common, and then they share all that is below them.
When the trees meet nowhere else, a change of an entry is seen from a root in one of two
ways: the entry is its own, or it is below an entry that the root has in common with the
one the change was made from. Every other root leads where it led.
-/

namespace OvsbMk.RadixForest

open RadixTree

variable {α ι E : Type} {decode : ℕ → E → Target α} {t : α → ι → E} {depth : ℕ} {roots : List α}
  {root r r' a b c : α} {p q rest : List ι} {i j : ι} {e : E}

/-- No way leads to a root, and ways to one table begin with one entry and go on alike. -/
structure Forest (decode : ℕ → E → Target α) (t : α → ι → E) (depth : ℕ) (roots : List α) :
    Prop where
  /-- Roots are not below others. -/
  apart : ∀ r∈roots, ∀ r'∈roots, ∀ i p, (i::p).length<depth →
    reach decode t depth r (i::p)≠some r'
  /-- Trees meet below common entries only. -/
  joined : ∀ r∈roots, ∀ r'∈roots, ∀ i j p q a, (i::p).length<depth → (j::q).length<depth →
    reach decode t depth r (i::p)=some a → reach decode t depth r' (j::q)=some a →
    i=j ∧ p=q ∧ t r i=t r' j

/-- No root leads to the table. -/
def Free (decode : ℕ → E → Target α) (t : α → ι → E) (depth : ℕ) (roots : List α) (b : α) : Prop :=
  ∀ r∈roots, ∀ q, q.length<depth → reach decode t depth r q≠some b

/-- A change at the end of a way from one root is seen from another. -/
def Sees (t : α → ι → E) (root : α) (p : List ι) (r : α) : Prop :=
  match p with
  | [] => r=root
  | k::_ => t r k=t root k

/-- From a root that sees a change, the way to it is the same. -/
theorem Sees.reach_eq (h : Sees t root p r) (hq : ∃ rest, q=p++rest) (hdepth : q.length≤depth) :
    reach decode t depth r q=reach decode t depth root q := by
  obtain ⟨rest,rfl⟩ := hq
  cases p with
  | nil => rw [show r=root from h]
  | cons k p =>
    obtain ⟨n,rfl⟩ : ∃ n, depth=n+1 := ⟨depth-1,by simp at hdepth; omega⟩
    rw [List.cons_append,reach,reach,show t r k=t root k from h]

/-- A table that is free is not a root. -/
theorem Free.not_root (h : Free decode t depth roots b) (hdepth : 0<depth) (hr : r∈roots) : r≠b :=
  fun heq => h r hr [] hdepth (by rw [reach_nil,heq])

/-- With fewer roots the trees still meet below common entries only. -/
theorem Forest.subset {fewer : List α} (h : Forest decode t depth roots)
    (hsub : ∀ r∈fewer, r∈roots) : Forest decode t depth fewer :=
  ⟨fun r hr r' hr' => h.apart r (hsub r hr) r' (hsub r' hr'),
    fun r hr r' hr' => h.joined r (hsub r hr) r' (hsub r' hr')⟩

/-- From one root no table is reached in two ways. -/
theorem Forest.unshared (h : Forest decode t depth roots) (hr : r∈roots) :
    Unshared decode t depth r := by
  intro p q a hp hq hpa hqa
  cases p with
  | nil =>
    cases q with
    | nil => rfl
    | cons j q =>
      rw [reach_nil,Option.some.injEq] at hpa
      exact (h.apart r hr r hr j q hq (hpa▸hqa)).elim
  | cons i p =>
    cases q with
    | nil =>
      rw [reach_nil,Option.some.injEq] at hqa
      exact (h.apart r hr r hr i p hp (hqa▸hpa)).elim
    | cons j q =>
      obtain ⟨hij,hpq,_⟩ := h.joined r hr r hr i j p q a hp hq hpa hqa
      rw [hij,hpq]

/-- A tree without shared tables is a forest. -/
theorem Forest.single (h : Unshared decode t depth root) : Forest decode t depth [root] := by
  refine ⟨fun r hr r' hr' i p hp hc => ?_,fun r hr r' hr' i j p q a hp hq hpa hqa => ?_⟩
  · obtain rfl := List.mem_singleton.mp hr
    obtain rfl := List.mem_singleton.mp hr'
    cases h (i::p) [] r' hp (Nat.zero_lt_of_lt hp) hc reach_nil
  · obtain rfl := List.mem_singleton.mp hr
    obtain rfl := List.mem_singleton.mp hr'
    obtain ⟨rfl,rfl⟩ := List.cons.inj (h _ _ a hp hq hpa hqa)
    exact ⟨rfl,rfl,rfl⟩

/-- A root that leads to a table sees the changes of it, and leads there on the same way. -/
theorem Forest.sees (h : Forest decode t depth roots) (hroot : root∈roots) (hr : r∈roots)
    (hp : p.length<depth) (hq : q.length<depth) (hpa : reach decode t depth root p=some a)
    (hqa : reach decode t depth r q=some a) : q=p ∧ Sees t root p r := by
  cases p with
  | nil =>
    rw [reach_nil,Option.some.injEq] at hpa
    cases q with
    | nil =>
      rw [reach_nil,Option.some.injEq] at hqa
      exact ⟨rfl,hqa.trans hpa.symm⟩
    | cons j q => exact (h.apart r hr root hroot j q hq (hpa▸hqa)).elim
  | cons i p =>
    cases q with
    | nil =>
      rw [reach_nil,Option.some.injEq] at hqa
      exact (h.apart root hroot r hr i p hp (hqa▸hpa)).elim
    | cons j q =>
      obtain ⟨rfl,rfl,he⟩ := h.joined root hroot r hr i j p q a hp hq hpa hqa
      exact ⟨rfl,he.symm⟩

/-- A new table takes the place of an absent entry, and no root leads to it. -/
structure Grafts (decode : ℕ → E → Target α) (t : α → ι → E) (depth : ℕ) (roots : List α)
    (root : α) (p : List ι) (a : α) (i : ι) (e : E) (b : α) : Prop where
  /-- The trees. -/
  forest : Forest decode t depth roots
  /-- The root of the change. -/
  mem : root∈roots
  /-- The table of the entry. -/
  reached : reach decode t depth root p=some a
  /-- There is a level below. -/
  below : p.length+1<depth
  /-- The entry is absent. -/
  absent : decode (depth-p.length-1) (t a i)=.absent
  /-- The new entry leads to the new table. -/
  child : decode (depth-p.length-1) e=.child b
  /-- The new table is not reached. -/
  free : Free decode t depth roots b
  /-- The new table is empty. -/
  empty : ∀ j, decode (depth-p.length-2) (t b j)=.absent

/-- A root that sees the change gets a new table itself. -/
theorem Grafts.link (h : Grafts decode t depth roots root p a i e b) (hr : r∈roots)
    (hsees : Sees t root p r) : Link decode t depth r p a i e b where
  unshared := h.forest.unshared hr
  reached := (hsees.reach_eq ⟨[],(List.append_nil p).symm⟩ (by have := h.below; omega)).trans
      h.reached
  below := h.below
  absent := h.absent
  child := h.child
  fresh := h.free r hr
  empty := h.empty

/-- Where the tables of the trees are unchanged, everything is reached as before. -/
theorem reach_kept {t' : α → ι → E}
    (h : ∀ p c, p.length<depth → reach decode t depth r p=some c → t' c=t c)
    (hq : q.length≤depth) : reach decode t' depth r q=reach decode t depth r q := by
  refine reach_congr fun p j s c hsplit hc => congrFun (h p c ?_ hc) j
  rw [hsplit,List.length_append,List.length_cons] at hq
  omega

/-- Walks there end where they ended. -/
theorem walk_kept {t' : α → ι → E}
    (h : ∀ p c, p.length<depth → reach decode t depth r p=some c → t' c=t c)
    (hq : q.length=depth) : walk decode t' r q=walk decode t r q := by
  refine walk_congr hq fun p j s c hsplit hc => congrFun (h p c ?_ hc) j
  rw [hsplit,List.length_append,List.length_cons] at hq
  omega

/-- The trees are still a forest. -/
theorem Forest.kept {t' : α → ι → E} (h : Forest decode t depth roots) (hdepth : 0<depth)
    (hkept : ∀ r∈roots, ∀ p c, p.length<depth → reach decode t depth r p=some c → t' c=t c) :
    Forest decode t' depth roots := by
  refine ⟨fun r hr r' hr' i p hp hc => ?_,fun r hr r' hr' i j p q a hp hq hpa hqa => ?_⟩
  · rw [reach_kept (hkept r hr) hp.le] at hc
    exact h.apart r hr r' hr' i p hp hc
  · rw [reach_kept (hkept r hr) hp.le] at hpa
    rw [reach_kept (hkept r' hr') hq.le] at hqa
    rw [hkept r hr [] r hdepth reach_nil,hkept r' hr' [] r' hdepth reach_nil]
    exact h.joined r hr r' hr' i j p q a hp hq hpa hqa

section Changes

variable [DecidableEq α] {g : ι → E}

/-- A table that is free may be filled in any way. -/
theorem Forest.update (h : Forest decode t depth roots) (hfree : Free decode t depth roots b)
    (hdepth : 0<depth) : Forest decode (Function.update t b g) depth roots := by
  refine ⟨fun r hr r' hr' i p hp hreach => ?_,fun r hr r' hr' i j p q a hp hq hpa hqa => ?_⟩
  · rw [reach_update (hfree r hr) hp.le] at hreach
    exact h.apart r hr r' hr' i p hp hreach
  · rw [reach_update (hfree r hr) hp.le] at hpa
    rw [reach_update (hfree r' hr') hq.le] at hqa
    rw [Function.update_of_ne (hfree.not_root hdepth hr),
      Function.update_of_ne (hfree.not_root hdepth hr')]
    exact h.joined r hr r' hr' i j p q a hp hq hpa hqa

/-- Another table is still free. -/
theorem Free.update (h : Free decode t depth roots c) (hfree : Free decode t depth roots b) :
    Free decode (Function.update t b g) depth roots c := by
  intro r hr q hq
  rw [reach_update (hfree r hr) hq.le]
  exact h r hr q hq

/-- A copy of a root is one root more. -/
theorem Forest.copy (h : Forest decode t depth roots) (hroot : root∈roots)
    (hfree : Free decode t depth roots b) (hdepth : 0<depth) :
    Forest decode (Function.update t b (t root)) depth (b::roots) := by
  -- every way from a root, or from its copy, is one from an old root
  have hold : ∀ r∈b::roots, ∃ r₀∈roots, (∀ i p, (i::p).length<depth →
      reach decode (Function.update t b (t root)) depth r (i::p)=reach decode t depth r₀ (i::p)) ∧
      Function.update t b (t root) r=t r₀ := by
    intro r hr
    rcases List.mem_cons.mp hr with rfl | hr
    · exact ⟨root,hroot,fun i p hp => reach_copy (hfree root hroot) hp.le,Function.update_self ..⟩
    · exact ⟨r,hr,fun i p hp => reach_update (hfree r hr) hp.le,
        Function.update_of_ne (hfree.not_root hdepth hr) _ _⟩
  refine ⟨fun r hr r' hr' i p hp hreach => ?_,fun r hr r' hr' i j p q a hp hq hpa hqa => ?_⟩
  · obtain ⟨r₀,hr₀,hsame,_⟩ := hold r hr
    rw [hsame i p hp] at hreach
    rcases List.mem_cons.mp hr' with rfl | hr'
    · exact hfree r₀ hr₀ _ hp hreach
    · exact h.apart r₀ hr₀ r' hr' i p hp hreach
  · obtain ⟨r₀,hr₀,hsame,he⟩ := hold r hr
    obtain ⟨r₁,hr₁,hsame',he'⟩ := hold r' hr'
    rw [hsame i p hp] at hpa
    rw [hsame' j q hq] at hqa
    rw [he,he']
    exact h.joined r₀ hr₀ r₁ hr₁ i j p q a hp hq hpa hqa

variable [DecidableEq ι]

/-- A change of an entry is not seen on ways that do not go through it. -/
theorem Forest.set_unseen (h : Forest decode t depth roots) (hroot : root∈roots) (hr : r∈roots)
    (hp : p.length<depth) (hpa : reach decode t depth root p=some a) (hq : q.length≤depth)
    (hnot : ¬(Sees t root p r ∧ p++[i]<+:q)) {s : List ι} (hsplit : q=rest++j::s)
    (hc : reach decode t depth r rest=some c) : set t a i e c j=t c j := by
  refine set_other fun heq => hnot ?_
  obtain ⟨rfl,rfl⟩ := heq
  have hrest : rest.length<depth := by
    rw [hsplit,List.length_append,List.length_cons] at hq
    omega
  obtain ⟨rfl,hsees⟩ := h.sees hroot hr hp hrest hpa hc
  exact ⟨hsees,s,by rw [hsplit,List.append_assoc]; rfl⟩

/-- Such ways lead where they led. -/
theorem Forest.reach_unseen (h : Forest decode t depth roots) (hroot : root∈roots) (hr : r∈roots)
    (hp : p.length<depth) (hpa : reach decode t depth root p=some a) (hq : q.length≤depth)
    (hnot : ¬(Sees t root p r ∧ p++[i]<+:q)) :
    reach decode (set t a i e) depth r q=reach decode t depth r q :=
  reach_congr fun _ _ _ _ hsplit hc => h.set_unseen hroot hr hp hpa hq hnot hsplit hc

/-- Such walks end where they ended. -/
theorem Forest.walk_unseen (h : Forest decode t depth roots) (hroot : root∈roots) (hr : r∈roots)
    (hp : p.length<depth) (hpa : reach decode t depth root p=some a) (hq : q.length=depth)
    (hnot : ¬(Sees t root p r ∧ p++[i]<+:q)) :
    walk decode (set t a i e) r q=walk decode t r q :=
  walk_congr hq fun _ _ _ _ hsplit hc => h.set_unseen hroot hr hp hpa hq.le hnot hsplit hc

/-- Below a root no entry of a root changes. -/
theorem Forest.roots_below (h : Forest decode t depth roots) (hroot : root∈roots) (hr : r∈roots)
    {k : ι} (hp : (k::p).length<depth) (hpa : reach decode t depth root (k::p)=some a) :
    set t a i e r=t r := by
  funext j
  refine set_other ?_
  rintro ⟨rfl,_⟩
  exact h.apart root hroot r hr k p hp hpa

/-- A change to a leaf below the root leaves no way that was not there. -/
theorem Forest.reach_leaf (h : Forest decode t depth roots) (hroot : root∈roots) (hr : r∈roots)
    (hp : p.length<depth) (hpa : reach decode t depth root p=some a)
    (hleaf : decode (depth-p.length-1) e=.leaf) (hq : q.length≤depth)
    (hc : reach decode (set t a i e) depth r q=some c) : reach decode t depth r q=some c := by
  by_cases hsees : Sees t root p r
  · have hra : reach decode t depth r p=some a :=
      (hsees.reach_eq ⟨[],(List.append_nil p).symm⟩ hp.le).trans hpa
    exact RadixTree.reach_leaf (h.unshared hr) hra hp hleaf hq hc
  · rwa [h.reach_unseen hroot hr hp hpa hq fun hs => hsees hs.1] at hc

/-- A change to a leaf below a root keeps the forest. -/
theorem Forest.leaf (h : Forest decode t depth roots) (hroot : root∈roots) {k : ι}
    (hp : (k::p).length<depth) (hpa : reach decode t depth root (k::p)=some a)
    (hleaf : decode (depth-(k::p).length-1) e=.leaf) : Forest decode (set t a i e) depth roots := by
  refine ⟨fun r hr r' hr' j q hq hc => ?_,fun r hr r' hr' j l q s c hq hs hqc hsc => ?_⟩
  · exact h.apart r hr r' hr' j q hq (h.reach_leaf hroot hr hp hpa hleaf hq.le hc)
  · rw [h.roots_below hroot hr hp hpa,h.roots_below hroot hr' hp hpa]
    exact h.joined r hr r' hr' j l q s c hq hs (h.reach_leaf hroot hr hp hpa hleaf hq.le hqc)
      (h.reach_leaf hroot hr' hp hpa hleaf hs.le hsc)

/-- Every way was there before, or is the one to the new table. -/
theorem Grafts.reach_cases (h : Grafts decode t depth roots root p a i e b) (hr : r∈roots)
    (hq : q.length≤depth) (hc : reach decode (set t a i e) depth r q=some c) :
    reach decode t depth r q=some c ∨ Sees t root p r ∧ q=p++[i] ∧ c=b := by
  by_cases hsees : Sees t root p r
  · by_cases hqi : q=p++[i]
    · rw [hqi,(h.link hr hsees).reach_new,Option.some.injEq] at hc
      exact Or.inr ⟨hsees,hqi,hc.symm⟩
    · rw [(h.link hr hsees).reach_eq hq hqi] at hc
      exact Or.inl hc
  · rw [h.forest.reach_unseen h.mem hr (by have := h.below; omega) h.reached hq
      fun hs => hsees hs.1] at hc
    exact Or.inl hc

/-- An entry that leads on is the one that was there. -/
theorem Grafts.entry_old (h : Grafts decode t depth roots root p a i e b) (hr : r∈roots)
    (hq : (j::q).length≤depth) (hc : reach decode t depth r (j::q)=some c) :
    set t a i e r j=t r j := by
  have hbelow := h.below
  cases p with
  | cons k p => exact congrFun (h.forest.roots_below h.mem hr (by simp at hbelow ⊢; omega)
      h.reached) j
  | nil =>
    have hra := h.reached
    rw [reach_nil,Option.some.injEq] at hra
    refine set_other ?_
    rintro ⟨rfl,rfl⟩
    obtain ⟨n,rfl⟩ : ∃ n, depth=n+1 := ⟨depth-1,by simp at hbelow; omega⟩
    obtain ⟨c',hc',_⟩ := reach_cons_iff.mp hc
    have habsent := h.absent
    rw [show n+1-([] : List ι).length-1=n from rfl,hc'] at habsent
    cases habsent

/-- Roots that see a change have the entry that leads there in common afterwards. -/
theorem Grafts.entry_common (h : Grafts decode t depth roots root p a i e b) (hr : r∈roots)
    (hr' : r'∈roots) (hsees : Sees t root p r) (hsees' : Sees t root p r')
    (hq : j::q=p++[i]) : set t a i e r j=set t a i e r' j := by
  cases p with
  | nil => rw [show r=root from hsees,show r'=root from hsees']
  | cons k p =>
    have hbelow := h.below
    have hlen : (k::p).length<depth := by omega
    rw [h.forest.roots_below h.mem hr hlen h.reached,h.forest.roots_below h.mem hr' hlen h.reached]
    rw [List.cons_append,List.cons.injEq] at hq
    rw [hq.1]
    exact hsees.trans hsees'.symm

/-- With the new table the trees are a forest. -/
theorem Grafts.forest_set (h : Grafts decode t depth roots root p a i e b) :
    Forest decode (set t a i e) depth roots := by
  have hbelow := h.below
  refine ⟨fun r hr r' hr' j q hq hc => ?_,fun r hr r' hr' j l q s c hq hs hqc hsc => ?_⟩
  · rcases h.reach_cases hr hq.le hc with hc | ⟨_,_,hb⟩
    · exact h.forest.apart r hr r' hr' j q hq hc
    · exact h.free.not_root (by omega) hr' hb
  · rcases h.reach_cases hr hq.le hqc with hqc | ⟨hsees,hqi,rfl⟩
    · rcases h.reach_cases hr' hs.le hsc with hsc | ⟨_,_,rfl⟩
      · rw [h.entry_old hr hq.le hqc,h.entry_old hr' hs.le hsc]
        exact h.forest.joined r hr r' hr' j l q s c hq hs hqc hsc
      · exact (h.free r hr _ hq hqc).elim
    · rcases h.reach_cases hr' hs.le hsc with hsc | ⟨hsees',hsi,_⟩
      · exact (h.free r' hr' _ hs hsc).elim
      · obtain ⟨rfl,rfl⟩ := List.cons.injEq .. ▸ hqi.trans hsi.symm
        exact ⟨rfl,rfl,h.entry_common hr hr' hsees hsees' hqi⟩

/-- No walk sees the new table. -/
theorem Grafts.walk_eq (h : Grafts decode t depth roots root p a i e b) (hr : r∈roots)
    (hq : q.length=depth) : walk decode (set t a i e) r q=walk decode t r q := by
  by_cases hsees : Sees t root p r
  · exact (h.link hr hsees).walk_eq hq
  · exact h.forest.walk_unseen h.mem hr (by have := h.below; omega) h.reached hq fun hs => hsees
      hs.1

/-- Another table is still free. -/
theorem Grafts.free_set (h : Grafts decode t depth roots root p a i e b)
    (hfree : Free decode t depth roots c) (hne : c≠b) :
    Free decode (set t a i e) depth roots c := by
  intro r hr q hq hc
  rcases h.reach_cases hr hq.le hc with hc | ⟨_,_,hcb⟩
  · exact hfree r hr q hq hc
  · exact hne hcb

end Changes

end OvsbMk.RadixForest
