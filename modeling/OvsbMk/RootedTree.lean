import Mathlib.Tactic

/-!
# Trees given by parents

A tree is a set of nodes with a parent function that leads each of them to the
root. A node is above those that arrive at it. Dropping a node drops all nodes
below it; a new node is put below a node of the tree.
-/

namespace OvsbMk.RootedTree

/-- A rooted tree, as a set of nodes and their parents. The root is its own
parent. -/
structure Rooted (α : Type*) where
  /-- The root. -/
  root : α
  /-- The nodes. -/
  nodes : Set α
  /-- The parent of a node. -/
  parent : α → α
  /-- The root is a node. -/
  root_mem : root∈nodes
  /-- The root is its own parent. -/
  parent_root : parent root=root
  /-- Parents are nodes. -/
  parent_mem : ∀ x∈nodes, parent x∈nodes
  /-- Every node arrives at the root. -/
  rooted : ∀ x∈nodes, ∃ n, parent^[n] x=root

variable {α : Type*} {F : Rooted α} {x y z p : α}

/-- The node is the other one or above it. -/
def Rooted.Above (F : Rooted α) (x y : α) : Prop := ∃ n, F.parent^[n] y=x

/-- A node is above itself. -/
theorem Rooted.above_refl (F : Rooted α) (x : α) : F.Above x x := ⟨0,rfl⟩

/-- What is above the parent is above the node. -/
theorem Rooted.Above.of_parent (h : F.Above x (F.parent y)) : F.Above x y := by
  obtain ⟨n,hn⟩ := h
  exact ⟨n+1,by rw [Function.iterate_succ_apply]; exact hn⟩

/-- The parent is above its node. -/
theorem Rooted.above_parent (F : Rooted α) (x : α) : F.Above (F.parent x) x :=
  (F.above_refl (F.parent x)).of_parent

/-- What is above a node is the node or above its parent. -/
theorem Rooted.above_cases (h : F.Above x y) : x=y ∨ F.Above x (F.parent y) := by
  obtain ⟨n,hn⟩ := h
  cases n with
  | zero => exact Or.inl hn.symm
  | succ n =>
    rw [Function.iterate_succ_apply] at hn
    exact Or.inr ⟨n,hn⟩

/-- Above is transitive. -/
theorem Rooted.Above.trans (h : F.Above x y) (h' : F.Above y z) : F.Above x z := by
  obtain ⟨n,hn⟩ := h
  obtain ⟨k,hk⟩ := h'
  exact ⟨n+k,by rw [Function.iterate_add_apply,hk,hn]⟩

/-- Repeated parents of the root. -/
theorem Rooted.iterate_root (F : Rooted α) (n : ℕ) : F.parent^[n] F.root=F.root :=
  Function.iterate_fixed F.parent_root n

/-- Repeated parents of a node are nodes. -/
theorem Rooted.iterate_mem (hx : x∈F.nodes) (n : ℕ) : F.parent^[n] x∈F.nodes := by
  induction n with
  | zero => exact hx
  | succ n ih =>
    rw [Function.iterate_succ_apply']
    exact F.parent_mem _ ih

/-- What is above a node is a node. -/
theorem Rooted.Above.mem (h : F.Above x y) (hy : y∈F.nodes) : x∈F.nodes := by
  obtain ⟨n,rfl⟩ := h
  exact Rooted.iterate_mem hy n

/-- Only the root is above the root. -/
theorem Rooted.above_root (h : F.Above x F.root) : x=F.root := by
  obtain ⟨n,hn⟩ := h
  rw [F.iterate_root] at hn
  exact hn.symm

/-- A node without children is above no other node. -/
theorem Rooted.above_leaf (hleaf : ∀ y∈F.nodes, y≠F.root → F.parent y≠x) (hy : y∈F.nodes)
    (h : F.Above x y) : y=x := by
  obtain ⟨n,hn⟩ := h
  induction n generalizing y with
  | zero => exact hn
  | succ n ih =>
    rw [Function.iterate_succ_apply] at hn
    have hpar := ih (F.parent_mem y hy) hn
    by_cases hroot : y=F.root
    · rw [hroot,F.parent_root] at hpar
      exact hroot.trans hpar
    · exact (hleaf y hy hroot hpar).elim

/-- A node other than the root is not above its parent. -/
theorem Rooted.not_above_parent (hx : x∈F.nodes) (hne : x≠F.root) : ¬F.Above x (F.parent x) := by
  rintro ⟨n,hn⟩
  have hcycle : F.parent^[n+1] x=x := by
    rw [Function.iterate_succ_apply]
    exact hn
  obtain ⟨k,hk⟩ := F.rooted x hx
  have hround : F.parent^[(n+1)*k] x=x := by
    rw [Function.iterate_mul]
    exact Function.iterate_fixed hcycle k
  have hle : k≤(n+1)*k := Nat.le_mul_of_pos_left k (Nat.succ_pos n)
  obtain ⟨j,hj⟩ := Nat.exists_eq_add_of_le' hle
  rw [hj,Function.iterate_add_apply,hk,F.iterate_root] at hround
  exact hne hround.symm

/-- A node other than the root is not its own parent. -/
theorem Rooted.parent_ne (hx : x∈F.nodes) (hne : x≠F.root) : F.parent x≠x := by
  intro h
  refine Rooted.not_above_parent hx hne ?_
  rw [h]
  exact F.above_refl x

/-- Properties of the root that go down from parents hold of all nodes. -/
theorem Rooted.induction {P : α → Prop} (hroot : P F.root)
    (hstep : ∀ x∈F.nodes, x≠F.root → P (F.parent x) → P x) (hx : x∈F.nodes) : P x := by
  obtain ⟨n,hn⟩ := F.rooted x hx
  induction n generalizing x with
  | zero =>
    rw [show x=F.root from hn]
    exact hroot
  | succ n ih =>
    by_cases hne : x=F.root
    · rw [hne]
      exact hroot
    · refine hstep x hx hne (ih (F.parent_mem x hx) ?_)
      rwa [Function.iterate_succ_apply] at hn

/-- A set of nodes to drop: with a node all nodes below it, and not the root. -/
structure Rooted.Lower (F : Rooted α) (s : Set α) : Prop where
  /-- The root stays. -/
  root : F.root∉s
  /-- Children of dropped nodes are dropped. -/
  below : ∀ x∈F.nodes, F.parent x∈s → x∈s

/-- The tree without some nodes. -/
def Rooted.drop (F : Rooted α) (s : Set α) (h : F.Lower s) : Rooted α where
  root := F.root
  nodes := {x | x∈F.nodes ∧ x∉s}
  parent := F.parent
  root_mem := ⟨F.root_mem,h.root⟩
  parent_root := F.parent_root
  parent_mem := fun x hx => ⟨F.parent_mem x hx.1,fun hs => hx.2 (h.below x hx.1 hs)⟩
  rooted := fun x hx => F.rooted x hx.1

/-- What is above a kept node is kept. -/
theorem Rooted.Lower.above {s : Set α} (h : F.Lower s) (hy : y∈F.nodes) (hxy : F.Above x y)
    (hx : x∈s) : y∈s := by
  obtain ⟨n,rfl⟩ := hxy
  induction n generalizing y with
  | zero => exact hx
  | succ n ih =>
    rw [Function.iterate_succ_apply] at hx
    exact h.below y hy (ih (F.parent_mem y hy) hx)

/-- A node of the tree is not the new one. -/
theorem Rooted.ne_new (hx : x∉F.nodes) (hy : y∈F.nodes) : y≠x := by
  rintro rfl
  exact hx hy

open Classical in
/-- The tree with one more node below a node of the tree. -/
noncomputable def Rooted.add (F : Rooted α) (x p : α) (hx : x∉F.nodes) (hp : p∈F.nodes) :
    Rooted α where
  root := F.root
  nodes := insert x F.nodes
  parent := Function.update F.parent x p
  root_mem := Or.inr F.root_mem
  parent_root := by
    rw [Function.update_of_ne (Rooted.ne_new hx F.root_mem)]
    exact F.parent_root
  parent_mem := by
    rintro y (rfl | hy)
    · rw [Function.update_self]
      exact Or.inr hp
    · rw [Function.update_of_ne (Rooted.ne_new hx hy)]
      exact Or.inr (F.parent_mem y hy)
  rooted := by
    have hold : ∀ n, ∀ y∈F.nodes, (Function.update F.parent x p)^[n] y=F.parent^[n] y := by
      intro n
      induction n with
      | zero => exact fun y _ => rfl
      | succ n ih =>
        intro y hy
        rw [Function.iterate_succ_apply,Function.iterate_succ_apply,
          Function.update_of_ne (Rooted.ne_new hx hy)]
        exact ih _ (F.parent_mem y hy)
    rintro y (rfl | hy)
    · obtain ⟨n,hn⟩ := F.rooted p hp
      refine ⟨n+1,?_⟩
      rw [Function.iterate_succ_apply,Function.update_self,hold n p hp,hn]
    · obtain ⟨n,hn⟩ := F.rooted y hy
      exact ⟨n,by rw [hold n y hy,hn]⟩

/-- The parent of the new node. -/
theorem Rooted.add_parent_new (hx : x∉F.nodes) (hp : p∈F.nodes) : (F.add x p hx hp).parent x=p := by
  classical
  exact Function.update_self x p F.parent

/-- The parents of the old nodes. -/
theorem Rooted.add_parent_old (hx : x∉F.nodes) (hp : p∈F.nodes) (hy : y∈F.nodes) :
    (F.add x p hx hp).parent y=F.parent y := by
  classical
  exact Function.update_of_ne (Rooted.ne_new hx hy) p F.parent

/-- Repeated parents of the old nodes. -/
theorem Rooted.add_iterate_old (hx : x∉F.nodes) (hp : p∈F.nodes) (hy : y∈F.nodes) (n : ℕ) :
    (F.add x p hx hp).parent^[n] y=F.parent^[n] y := by
  induction n generalizing y with
  | zero => rfl
  | succ n ih =>
    rw [Function.iterate_succ_apply,Function.iterate_succ_apply,Rooted.add_parent_old hx hp hy]
    exact ih (F.parent_mem y hy)

/-- What is above an old node stays so, and nothing is added. -/
theorem Rooted.above_add (hx : x∉F.nodes) (hp : p∈F.nodes) (hy : y∈F.nodes) :
    (F.add x p hx hp).Above z y ↔ F.Above z y :=
  exists_congr fun n => by rw [Rooted.add_iterate_old hx hp hy n]

/-- What is above an old node stays above it. -/
theorem Rooted.Above.add (h : F.Above z y) (hx : x∉F.nodes) (hp : p∈F.nodes) (hy : y∈F.nodes) :
    (F.add x p hx hp).Above z y := (Rooted.above_add hx hp hy).mpr h

end OvsbMk.RootedTree
