import Mathlib.Tactic

/-!
# Maps with slots in common

A space maps addresses to values, in slots. A new space has all slots of an old one in
common with it, and what is put into a slot is seen from every space that has it in
common. Slots in common stay so, and what is put into other slots is not seen.
-/

namespace OvsbMk.SharedMaps

open Classical

variable {σ κ β γ : Type} [DecidableEq σ]

/-- Spaces, what they map, and the slots that they have in common: with itself a space has
those in common that are in use. -/
structure Spaces (σ κ β γ : Type) where
  /-- The spaces that there are. -/
  live : List σ
  /-- The value at an address. -/
  look : σ → β → Option γ
  /-- The slot is in use, and one for both spaces. -/
  common : σ → σ → κ → Prop

/-- What may be done. -/
inductive Act (σ κ β γ : Type) where
  /-- A new space like an old one. -/
  | create (old new : σ)
  /-- A slot of a space comes into use. -/
  | grant (space : σ) (slot : κ)
  /-- Values are put into a slot of a space. -/
  | put (space : σ) (slot : κ) (values : β → Option γ)
  /-- A space goes. -/
  | drop (space : σ)

/-- A slot of a space comes into use, if it is not. -/
def Spaces.grant (A : Spaces σ κ β γ) (space : σ) (slot : κ) : Spaces σ κ β γ :=
  ⟨A.live,A.look,fun x y k => A.common x y k ∨ x=space ∧ y=space ∧ k=slot⟩

/-- What an act does. -/
noncomputable def Spaces.act (A : Spaces σ κ β γ) : Act σ κ β γ → Spaces σ κ β γ
  | .create old new =>
    ⟨new::A.live,fun x v => A.look (if x=new then old else x) v,
      fun x y k => A.common (if x=new then old else x) (if y=new then old else y) k⟩
  | .grant space slot => A.grant space slot
  | .put space slot values =>
    ⟨A.live,
      fun x v => if (A.grant space slot).common space x slot then (values v).or (A.look x v)
        else A.look x v,
      (A.grant space slot).common⟩
  | .drop space => ⟨A.live.filter (·≠space),A.look,A.common⟩

/-- What acts do one after the other. -/
noncomputable def Spaces.acts (A : Spaces σ κ β γ) (acts : List (Act σ κ β γ)) : Spaces σ κ β γ :=
  acts.foldl Spaces.act A

variable {A : Spaces σ κ β γ} {acts : List (Act σ κ β γ)} {x y space : σ} {k slot : κ} {v : β}

/-- An act leaves a space alone: it neither creates it anew nor drops it. -/
def Act.Spares (x : σ) : Act σ κ β γ → Prop
  | .create _ new => new≠x
  | .drop space => space≠x
  | _ => True

/-- A space that acts leave alone is still there. -/
theorem Spaces.live_acts (hacts : ∀ act∈acts, act.Spares x) (h : x∈A.live) :
    x∈(A.acts acts).live := by
  induction acts generalizing A with
  | nil => exact h
  | cons act acts ih =>
    obtain ⟨hact,hrest⟩ := List.forall_mem_cons.mp hacts
    refine ih hrest ?_
    cases act with
    | create old new => exact List.mem_cons_of_mem _ h
    | grant space slot => exact h
    | put space slot values => exact h
    | drop space => exact List.mem_filter.mpr ⟨h,decide_eq_true (Ne.symm hact)⟩

/-- Two spaces have a slot in common after an act if and only if they had it before. -/
theorem Spaces.common_act {act : Act σ κ β γ} (hne : x≠y) (hx : act.Spares x) (hy : act.Spares y) :
    (A.act act).common x y k ↔ A.common x y k := by
  have hgrant : ∀ space slot, (A.grant space slot).common x y k ↔ A.common x y k := fun space
      slot =>
    or_iff_left fun h => hne (h.1.trans h.2.1.symm)
  cases act with
  | create old new =>
    show A.common (if x=new then old else x) (if y=new then old else y) k ↔ A.common x y k
    rw [if_neg (Ne.symm hx),if_neg (Ne.symm hy)]
  | grant space slot => exact hgrant space slot
  | put space slot values => exact hgrant space slot
  | drop space => exact Iff.rfl

/-- Two spaces have a slot in common after any acts if and only if they had it before. -/
theorem Spaces.common_acts (hne : x≠y) (hacts : ∀ act∈acts, act.Spares x ∧ act.Spares y) :
    (A.acts acts).common x y k ↔ A.common x y k := by
  induction acts generalizing A with
  | nil => exact Iff.rfl
  | cons act acts ih =>
    obtain ⟨⟨hx,hy⟩,hrest⟩ := List.forall_mem_cons.mp hacts
    exact (ih hrest).trans (Spaces.common_act hne hx hy)

/-- A space sees nothing new at an address where nothing is put into a slot that it has in
common. -/
theorem Spaces.look_put {values : β → Option γ}
    (h : (A.grant space slot).common space x slot → values v=none) :
    (A.act (.put space slot values)).look x v=A.look x v := by
  change (if (A.grant space slot).common space x slot then (values v).or (A.look x v)
    else A.look x v)=A.look x v
  split
  case isTrue hcommon => rw [h hcommon,Option.none_or]
  case isFalse => rfl

end OvsbMk.SharedMaps
