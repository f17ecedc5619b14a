import Mathlib.Data.List.Induction
import Mathlib.Data.List.Nodup

/-!
# Removal by the last entry

An array whose entries have distinct keys is kept without gaps: the last entry takes the
place of the one that is removed. The order of the others survives this exactly when the
removed entry was the last one or the last but one.
-/

namespace OvsbMk.SwapRemoval

variable {α κ : Type*} [DecidableEq κ] {key : α → κ} {k : κ} {l pre post : List α} {x : α}

/-- The first entry with a key is overwritten with the last entry, and the array is one
entry shorter. -/
def removeSwapping (key : α → κ) (k : κ) (l : List α) : List α :=
  match l.findIdx? (fun x => decide (key x=k)),l.getLast? with
  | some i,some z => (l.set i z).dropLast
  | _,_ => l

/-- The entry with the key is one of the last two. -/
def NearEnd (key : α → κ) (k : κ) (l : List α) : Prop := k∈(l.map key).reverse.take 2

instance (key : α → κ) (k : κ) (l : List α) : Decidable (NearEnd key k l) :=
  inferInstanceAs (Decidable (_∈_))

/-- The entries other than that with the key. -/
def without (key : α → κ) (k : κ) (l : List α) : List α := l.filter (fun x => decide (key x≠k))

/-- An array without the key stays as it is. -/
theorem removeSwapping_of_notMem (hk : k∉l.map key) : removeSwapping key k l=l := by
  have hnone : l.findIdx? (fun x => decide (key x=k))=none := by
    rw [List.findIdx?_eq_none_iff]
    intro x hx
    exact decide_eq_false fun he => hk (List.mem_map.mpr ⟨x,hx,he⟩)
  rw [removeSwapping,hnone]

/-- The place of the first entry with a key. -/
theorem findIdx_split (hpre : k∉pre.map key) (hx : key x=k) :
    (pre++x::post).findIdx? (fun x => decide (key x=k))=some pre.length := by
  have hnone : pre.findIdx? (fun x => decide (key x=k))=none := by
    rw [List.findIdx?_eq_none_iff]
    intro y hy
    exact decide_eq_false fun he => hpre (List.mem_map.mpr ⟨y,hy,he⟩)
  rw [List.findIdx?_append,hnone,List.findIdx?_cons]
  simp [hx]

/-- The last entry is removed as such. -/
theorem removeSwapping_last (hpre : k∉pre.map key) (hx : key x=k) :
    removeSwapping key k (pre++[x])=pre := by
  rw [removeSwapping,findIdx_split hpre hx,List.getLast?_concat]
  simp

/-- Another entry gives its place to the last one. -/
theorem removeSwapping_inner {mid : List α} {z : α} (hpre : k∉pre.map key) (hx : key x=k) :
    removeSwapping key k (pre++x::(mid++[z]))=pre++z::mid := by
  have hlast : (pre++x::(mid++[z])).getLast?=some z := by
    rw [←List.cons_append,←List.append_assoc,List.getLast?_concat]
  have hset : (pre++x::(mid++[z])).set pre.length z=pre++z::(mid++[z]) := by
    rw [List.set_append_right _ _ (Nat.le_refl pre.length),Nat.sub_self,List.set_cons_zero]
  rw [removeSwapping,findIdx_split hpre hx,hlast]
  simp only [hset]
  rw [←List.cons_append,←List.append_assoc,List.dropLast_concat]

/-- What is left without an entry. -/
theorem without_split (hnodup : ((pre++x::post).map key).Nodup) (hx : key x=k) :
    without key k (pre++x::post)=pre++post := by
  rw [List.map_append,List.map_cons,List.nodup_append,List.nodup_cons] at hnodup
  have hpre : ∀ y∈pre, key y≠k := fun y hy he =>
    hnodup.2.2 _ (List.mem_map_of_mem hy) _ List.mem_cons_self (he.trans hx.symm)
  have hpost : ∀ y∈post, key y≠k := fun y hy he =>
    hnodup.2.1.1 (List.mem_map.mpr ⟨y,hy,he.trans hx.symm⟩)
  rw [without,List.filter_append,List.filter_cons_of_neg (by simpa using hx),
    List.filter_eq_self.mpr fun y hy => decide_eq_true (hpre y hy),
    List.filter_eq_self.mpr fun y hy => decide_eq_true (hpost y hy)]

omit [DecidableEq κ] in
/-- The array in front of an entry and behind it. -/
theorem exists_split (hk : k∈l.map key) : ∃ pre x post, l=pre++x::post ∧ key x=k := by
  obtain ⟨x,hx,he⟩ := List.mem_map.mp hk
  obtain ⟨pre,post,hl⟩ := List.append_of_mem hx
  exact ⟨pre,x,post,hl,he⟩

omit [DecidableEq κ] in
/-- One of the last two entries has at most one entry behind it. -/
theorem nearEnd_split (hnodup : ((pre++x::post).map key).Nodup) (hx : key x=k) :
    NearEnd key k (pre++x::post) ↔ post.length≤1 := by
  rw [List.map_append,List.map_cons,List.nodup_append,List.nodup_cons] at hnodup
  have hpost : k∉post.map key := hx ▸ hnodup.2.1.1
  rw [NearEnd,List.map_append,List.map_cons,List.reverse_append,List.reverse_cons,
    List.append_assoc,List.singleton_append,hx]
  constructor
  · intro hmem
    by_contra hlong
    have hlen : 2≤(post.map key).reverse.length := by
      rw [List.length_reverse,List.length_map]
      exact Nat.lt_of_not_le hlong
    rw [List.take_append_of_le_length hlen] at hmem
    exact hpost (List.mem_reverse.mp (List.mem_of_mem_take hmem))
  · intro hshort
    rw [List.mem_take_iff_getElem]
    have hlt : post.length < min 2 ((post.map key).reverse++k::(pre.map key).reverse).length := by
      simp only [List.length_append,List.length_reverse,List.length_map,List.length_cons]
      omega
    exact ⟨post.length,hlt,by simp⟩

/-- The order of the other entries survives exactly when the entry is one of the last two:
an entry that moves in front of others was not in front of them. -/
theorem removeSwapping_eq_without_iff (hnodup : (l.map key).Nodup) (hk : k∈l.map key) :
    removeSwapping key k l=without key k l ↔ NearEnd key k l := by
  obtain ⟨pre,x,post,rfl,hx⟩ := exists_split hk
  rw [without_split hnodup hx,nearEnd_split hnodup hx]
  rw [List.map_append,List.map_cons,List.nodup_append,List.nodup_cons] at hnodup
  have hpre : k∉pre.map key := fun hmem => hnodup.2.2 _ hmem _ List.mem_cons_self hx.symm
  cases post using List.reverseRec with
  | nil =>
    rw [removeSwapping_last hpre hx,List.append_nil]
    simp
  | append_singleton mid z =>
    rw [removeSwapping_inner hpre hx,List.append_cancel_left_eq]
    cases mid with
    | nil => simp
    | cons m mid =>
      have hz : z∉m::mid := fun hmem => by
        have hpost := hnodup.2.1.2
        rw [List.map_append,List.nodup_append] at hpost
        exact hpost.2.2 _ (List.mem_map_of_mem hmem) _ (by simp) rfl
      have hne : z≠m := fun he => hz (he ▸ List.mem_cons_self)
      simp [hne]

/-- The keys of what is left are distinct. -/
theorem nodup_removeSwapping (hnodup : (l.map key).Nodup) (k : κ) :
    ((removeSwapping key k l).map key).Nodup := by
  by_cases hk : k∈l.map key
  · obtain ⟨pre,x,post,rfl,hx⟩ := exists_split hk
    rw [List.map_append,List.map_cons,List.nodup_append,List.nodup_cons] at hnodup
    have hpre : k∉pre.map key := fun hmem => hnodup.2.2 _ hmem _ List.mem_cons_self hx.symm
    cases post using List.reverseRec with
    | nil =>
      rw [removeSwapping_last hpre hx]
      exact hnodup.1
    | append_singleton mid z =>
      rw [removeSwapping_inner hpre hx,List.map_append,List.nodup_append]
      have hpost := hnodup.2.1.2
      have hperm : (z::mid).Perm (mid++[z]) := (List.perm_append_singleton z mid).symm
      refine ⟨hnodup.1,(hperm.map key).nodup_iff.mpr hpost,fun a ha b hb => ?_⟩
      exact hnodup.2.2 a ha b (List.mem_cons_of_mem _ ((hperm.map key).mem_iff.mp hb))
  · rw [removeSwapping_of_notMem hk]
    exact hnodup

/-- Without one entry, another one is no further from the end. -/
theorem NearEnd.without {k' : κ} (hnear : NearEnd key k l) (hk : k∈l.map key)
    (hnodup : (l.map key).Nodup) (hne : k≠k') : NearEnd key k (without key k' l) := by
  obtain ⟨pre,x,post,rfl,hx⟩ := exists_split hk
  rw [nearEnd_split hnodup hx] at hnear
  have hsub : ((SwapRemoval.without key k' (pre++x::post)).map key).Nodup :=
    hnodup.sublist (List.filter_sublist.map key)
  have hsplit : SwapRemoval.without key k' (pre++x::post)=
      SwapRemoval.without key k' pre++x::SwapRemoval.without key k' post := by
    simp [SwapRemoval.without,hx,hne]
  rw [hsplit] at hsub ⊢
  rw [nearEnd_split hsub hx]
  exact Nat.le_trans (List.length_filter_le _ _) hnear

/-- Entries with other keys stay. -/
theorem mem_without {k' : κ} : k∈(without key k' l).map key ↔ k∈l.map key ∧ k≠k' := by
  simp only [without,List.mem_map,List.mem_filter,decide_eq_true_eq]
  constructor
  · rintro ⟨x,⟨hx,hne⟩,rfl⟩
    exact ⟨⟨x,hx,rfl⟩,hne⟩
  · rintro ⟨⟨x,hx,rfl⟩,hne⟩
    exact ⟨x,⟨hx,hne⟩,rfl⟩

end OvsbMk.SwapRemoval
