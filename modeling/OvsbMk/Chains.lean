import Mathlib.Tactic

/-!
# Chains along a successor function

A chain starts at a node and follows a successor function through nodes that
do not stop it, up to the first one that does. The list of its nodes is
determined by the start, has no repetitions, and depends on the successor of
its own nodes only. There is a chain exactly when some number of steps arrives at
a stop. A walk that makes every node it leaves lead to a stop visits the nodes
that were within reach before.
-/

namespace OvsbMk.Chains

variable {α : Type*} {next next' : α → α} {stop : α → Prop} {start finish : α} {nodes : List α}

/-- Following the successor from the start visits the nodes, none of which
stops the walk, and arrives at the finish. -/
def Path (next : α → α) (stop : α → Prop) : α → List α → α → Prop
  | start, [], finish => start=finish
  | start, x::rest, finish => start=x ∧ ¬stop x ∧ Path next stop (next x) rest finish

/-- The nodes from the start up to the first one that stops the walk. -/
def Chain (next : α → α) (stop : α → Prop) (start : α) (nodes : List α) : Prop :=
  ∃ finish, Path next stop start nodes finish ∧ stop finish

/-- An empty chain starts at a stop. -/
theorem chain_nil : Chain next stop start [] ↔ stop start := by
  constructor
  · rintro ⟨finish,rfl,h⟩
    exact h
  · intro h
    exact ⟨start,rfl,h⟩

/-- A chain with a first node starts there and goes on from its successor. -/
theorem chain_cons {x : α} {rest : List α} :
    Chain next stop start (x::rest) ↔ start=x ∧ ¬stop x ∧ Chain next stop (next x) rest := by
  constructor
  · rintro ⟨finish,⟨h1,h2,h3⟩,h⟩
    exact ⟨h1,h2,finish,h3,h⟩
  · rintro ⟨h1,h2,finish,h3,h⟩
    exact ⟨finish,⟨h1,h2,h3⟩,h⟩

/-- A chain has a first node when its start does not stop the walk. -/
theorem Chain.exists_cons (h : Chain next stop start nodes) (hs : ¬stop start) :
    ∃ rest, nodes=start::rest ∧ Chain next stop (next start) rest := by
  cases nodes with
  | nil => exact (hs (chain_nil.mp h)).elim
  | cons x rest =>
    obtain ⟨rfl,_,hrest⟩ := chain_cons.mp h
    exact ⟨rest,rfl,hrest⟩

/-- The nodes of a path do not stop the walk. -/
theorem Path.not_stop (h : Path next stop start nodes finish) {x : α} (hx : x∈nodes) :
    ¬stop x := by
  induction nodes generalizing start with
  | nil => cases hx
  | cons y rest ih =>
    rcases List.mem_cons.mp hx with rfl | hx
    · exact h.2.1
    · exact ih h.2.2 hx

/-- The nodes of a chain do not stop the walk. -/
theorem Chain.not_stop (h : Chain next stop start nodes) {x : α} (hx : x∈nodes) : ¬stop x := by
  obtain ⟨finish,hp,_⟩ := h
  exact hp.not_stop hx

/-- A path depends on the successor of its own nodes only. -/
theorem Path.congr (h : Path next stop start nodes finish) (heq : ∀ x∈nodes, next' x=next x) :
    Path next' stop start nodes finish := by
  induction nodes generalizing start with
  | nil => exact h
  | cons x rest ih =>
    refine ⟨h.1,h.2.1,?_⟩
    rw [heq x (by simp)]
    exact ih h.2.2 (fun y hy => heq y (by simp [hy]))

/-- A chain depends on the successor of its own nodes only. -/
theorem Chain.congr (h : Chain next stop start nodes) (heq : ∀ x∈nodes, next' x=next x) :
    Chain next' stop start nodes := by
  obtain ⟨finish,hp,hs⟩ := h
  exact ⟨finish,hp.congr heq,hs⟩

/-- A walk stops at the start exactly when its chain is empty. -/
theorem Chain.stop_iff (h : Chain next stop start nodes) : stop start ↔ nodes=[] := by
  cases nodes with
  | nil => exact ⟨fun _ => rfl,fun _ => chain_nil.mp h⟩
  | cons x rest =>
    obtain ⟨rfl,hs,_⟩ := chain_cons.mp h
    simp [hs]

/-- The nodes are determined by the start. -/
theorem Chain.unique {nodes' : List α} (h : Chain next stop start nodes)
    (h' : Chain next stop start nodes') : nodes=nodes' := by
  induction nodes generalizing start nodes' with
  | nil => exact (h'.stop_iff.mp (chain_nil.mp h)).symm
  | cons x rest ih =>
    obtain ⟨rfl,hs,hrest⟩ := chain_cons.mp h
    obtain ⟨rest',rfl,hrest'⟩ := h'.exists_cons hs
    rw [ih hrest hrest']

/-- The part of a chain from one of its nodes on is the chain from there. -/
theorem Chain.suffix {x : α} {before after : List α}
    (h : Chain next stop start (before++x::after)) : Chain next stop x (x::after) := by
  induction before generalizing start with
  | nil =>
    obtain ⟨rfl,_⟩ := chain_cons.mp h
    exact h
  | cons y rest ih => exact ih (chain_cons.mp h).2.2

/-- A chain does not visit a node twice. -/
theorem Chain.nodup (h : Chain next stop start nodes) : nodes.Nodup := by
  induction nodes generalizing start with
  | nil => exact List.nodup_nil
  | cons x rest ih =>
    obtain ⟨rfl,_,hrest⟩ := chain_cons.mp h
    refine List.nodup_cons.mpr ⟨fun hx => ?_,ih hrest⟩
    obtain ⟨before,after,rfl⟩ := List.append_of_mem hx
    have heq := h.unique (hrest.suffix)
    have hlen := congrArg List.length heq
    simp at hlen
    omega

/-- After as many links as a chain has entries comes its end. -/
theorem Chain.stop_iterate (h : Chain next stop start nodes) : stop (next^[nodes.length] start) := by
  induction nodes generalizing start with
  | nil => exact chain_nil.mp h
  | cons x rest ih =>
    obtain ⟨rfl,_,hrest⟩ := chain_cons.mp h
    exact ih hrest

/-- There is a chain exactly when some number of steps arrives at a stop. -/
theorem chain_iff_iterate : (∃ nodes, Chain next stop start nodes) ↔ ∃ n, stop (next^[n] start) := by
  constructor
  · rintro ⟨nodes,h⟩
    exact ⟨nodes.length,h.stop_iterate⟩
  · rintro ⟨n,h⟩
    induction n generalizing start with
    | zero => exact ⟨[],chain_nil.mpr h⟩
    | succ n ih =>
      rw [Function.iterate_succ_apply] at h
      obtain ⟨rest,hrest⟩ := ih h
      by_cases hstop : stop start
      · exact ⟨[],chain_nil.mpr hstop⟩
      · exact ⟨start::rest,chain_cons.mpr ⟨rfl,hstop,hrest⟩⟩

/-- A node is within reach: some steps lead there through nodes that do not stop
the walk. -/
def Reaches (next : α → α) (stop : α → Prop) : α → α → Prop :=
  Relation.ReflTransGen fun x y => next x=y ∧ ¬stop y

/-- Making the start lead to a stop leaves the nodes within reach from its
successor; with the start itself they are those within reach before. -/
theorem reaches_update [DecidableEq α] {zero x : α} (hzero : stop zero) :
    Reaches next stop start x ↔ x=start ∨
      ¬stop (next start) ∧ Reaches (Function.update next start zero) stop (next start) x := by
  constructor
  · intro h
    induction h with
    | refl => exact Or.inl rfl
    | tail _ hstep ih =>
      obtain ⟨rfl,hs⟩ := hstep
      rcases ih with rfl | ⟨h1,h2⟩
      · exact Or.inr ⟨hs,Relation.ReflTransGen.refl⟩
      · rename_i y _
        by_cases hy : y=start
        · subst hy
          exact Or.inr ⟨h1,Relation.ReflTransGen.refl⟩
        · exact Or.inr ⟨h1,h2.tail ⟨Function.update_of_ne hy _ _,hs⟩⟩
  · rintro (rfl | ⟨h1,h2⟩)
    · exact Relation.ReflTransGen.refl
    · refine Relation.ReflTransGen.head ⟨rfl,h1⟩ ?_
      induction h2 with
      | refl => exact Relation.ReflTransGen.refl
      | tail _ hstep ih =>
        rename_i y z _
        obtain ⟨heq,hs⟩ := hstep
        by_cases hy : y=start
        · subst hy
          rw [Function.update_self] at heq
          exact (hs (heq ▸ hzero)).elim
        · rw [Function.update_of_ne hy] at heq
          exact ih.tail ⟨heq,hs⟩

end OvsbMk.Chains
