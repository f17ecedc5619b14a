import OvsbMk.BuddyFreeLists
import OvsbMk.DyadicTiling

/-!
# The buddy invariant and the steps that keep it

Live blocks are what the owners know: the head frame, order and user flag of
every block handed out and not yet given back. The invariant says that live
blocks, the blocks on the free lists and at most one block in the hands of
the allocator tile the heap, that tags tell them apart, and that no two free
buddies are left unmerged. Every elementary change of `buddy_alloc` and
`buddy_free` moves one block between these holders.
-/

namespace OvsbMk.BuddyInvariant

open ByteMemory IntrusiveList KernelMemory BuddyFreeLists DyadicTiling

/-- Order and user flag of every live block, by head frame. -/
abbrev LiveMap := ℕ → Option (ℕ × Bool)

/-- Who holds a block. -/
inductive Holder where
  /-- A free list. -/
  | free
  /-- An owner. -/
  | live (user : Bool)
  /-- The allocator, between two list operations. -/
  | held
  deriving DecidableEq

/-- The blocks of each holder, by head frame and order. -/
def blocks (free : ℕ → List ℕ) (live : LiveMap) (held : Option (ℕ × ℕ)) :
    Holder → ℕ → ℕ → Prop
  | .free, i, k => i∈free k
  | .live user, i, k => live i=some (k,user)
  | .held, i, k => held=some (i,k)

/-- The tag of a live block's head. -/
def liveTag (order : ℕ) (user : Bool) : ℕ := 128+(if user then 64 else 0)+order

/-- The allocator's data is consistent with the live blocks, with the given
free lists and with at most one block held by the running operation. -/
structure Sound (L : Layout) (m : Bytes) (free : ℕ → List ℕ) (live : LiveMap)
    (held : Option (ℕ × ℕ)) : Prop where
  /-- The free lists are intact in memory. -/
  lists : FreeLists L m free
  /-- Every frame lies in exactly one block. -/
  tiling : Tiling maxOrder (blocks free live held)
  /-- The head of a free block records its order. -/
  freeTag : ∀ {i k}, i∈free k → frameTag L m i=k
  /-- The head of a live block records its order and flags. -/
  liveHead : ∀ {i k user}, live i=some (k,user) → frameTag L m i=liveTag k user
  /-- No other frame looks live. -/
  otherTag : ∀ {i}, i<frameCount → live i=none → frameTag L m i<frameAlloc
  /-- Free buddies are merged. -/
  coalesced : ∀ i k, k < maxOrder → i∈free k → buddy i k∉free k

variable {L : Layout} {m m' : Bytes} {free : ℕ → List ℕ} {live : LiveMap}
  {held : Option (ℕ × ℕ)} {i k o : ℕ} {user : Bool}

/-- The frame count is the size of the largest block. -/
theorem two_pow_maxOrder : 2^maxOrder=frameCount := rfl

/-- Live blocks are frames of the heap. -/
theorem Sound.live_lt (h : Sound L m free live held) (hl : live i=some (k,user)) :
    i<frameCount :=
  h.tiling.inside (c:=.live user) (k:=k) hl

/-- Live blocks have an order in range. -/
theorem Sound.live_order (h : Sound L m free live held) (hl : live i=some (k,user)) :
    k ≤ maxOrder :=
  h.tiling.order_le (c:=.live user) (i:=i) hl

/-- The held block is a frame of the heap. -/
theorem Sound.held_lt (h : Sound L m free live (some (i,k))) : i<frameCount :=
  h.tiling.inside (c:=.held) (k:=k) rfl

/-- A frame with a live block is on no free list. -/
theorem Sound.live_not_free (h : Sound L m free live held) (hl : live i=some (k,user)) (o : ℕ) :
    i∉free o := by
  intro hf
  have := (h.tiling.head_unique (c:=.live user) (d:=.free) hl hf).1
  cases this

/-- The head of the held block is on no free list. -/
theorem Sound.held_not_free (h : Sound L m free live (some (i,k))) (o : ℕ) : i∉free o := by
  intro hf
  have := (h.tiling.head_unique (c:=.held) (d:=.free) (k:=k) rfl hf).1
  cases this

/-- The head of the held block is not the head of a live block. -/
theorem Sound.held_not_live (h : Sound L m free live (some (i,k))) : live i=none := by
  cases hl : live i with
  | none => rfl
  | some b =>
    have := (h.tiling.head_unique (c:=.held) (d:=.live b.2) (k:=k) (l:=b.1) rfl hl).1
    cases this

/-- A free frame is not the head of a live block. -/
theorem Sound.free_not_live (h : Sound L m free live held) (hi : i∈free o) : live i=none := by
  cases hl : live i with
  | none => rfl
  | some b => exact (h.live_not_free (k:=b.1) hl o hi).elim

/-- Taking a free block off its list puts it in the allocator's hands. -/
theorem Sound.take (h : Sound L m free live none) (hi : i∈free o) :
    Sound L (listRemove m (areaHead L o) (frameToAddr i))
      (Function.update free o ((free o).erase i)) live (some (i,o)) := by
  have hnd := h.lists.nodup o
  have htag : ∀ {j}, j<frameCount →
      frameTag L (listRemove m (areaHead L o) (frameToAddr i)) j=frameTag L m j :=
    fun hj => frameTag_listRemove h.lists hi hj
  refine ⟨h.lists.remove hi,?_,?_,?_,?_,?_⟩
  · refine h.tiling.recolour (c:=.free) (e:=.held) (i:=i) (k:=o) hi ?_
    intro d j l
    cases d with
    | free => simp [blocks,mem_update_erase hnd]
    | live v => simp [blocks]
    | held => simp [blocks,eq_comm]
  · intro j l hj
    obtain ⟨hj,_⟩ := (mem_update_erase hnd).mp hj
    rw [htag (h.lists.inside hj),h.freeTag hj]
  · intro j l v hl
    rw [htag (h.live_lt hl),h.liveHead hl]
  · intro j hj hl
    rw [htag hj]
    exact h.otherTag hj hl
  · intro j l hl hj hb
    exact h.coalesced j l hl ((mem_update_erase hnd).mp hj).1 ((mem_update_erase hnd).mp hb).1

/-- Splitting the held block lists its upper half. -/
theorem Sound.split (h : Sound L m free live (some (i,o+1))) :
    Sound L (listAdd (setFrame L m (buddy i o) o) (areaHead L o) (frameToAddr (buddy i o)))
      (Function.update free o (buddy i o::free o)) live (some (i,o)) := by
  have hheld : blocks free live (some (i,o+1)) .held i (o+1) := rfl
  have hle : o+1 ≤ maxOrder := h.tiling.order_le hheld
  have hal : 2^(o+1)∣i := h.tiling.aligned hheld
  have hak : 2^o∣i := (pow_dvd_pow 2 (Nat.le_succ o)).trans hal
  have hb : buddy i o<frameCount := buddy_lt hak hle h.held_lt
  have hin : Covers i (o+1) (buddy i o) := by
    rw [buddy_of_aligned_succ hal,Covers,pow_succ]
    have := Nat.two_pow_pos o
    omega
  have hnoHead : ∀ {c j l}, blocks free live (some (i,o+1)) c j l → j=buddy i o → False := by
    intro c j l hblock hj
    have hu := h.tiling.unique hheld hblock hin (hj ▸ covers_head j l)
    have := Nat.two_pow_pos o
    rw [buddy_of_aligned_succ hal] at hj
    omega
  have hnew : ∀ k, buddy i o∉free k := fun k hk => hnoHead (c:=.free) hk rfl
  have hnoLive : live (buddy i o)=none := by
    cases hl : live (buddy i o) with
    | none => rfl
    | some b => exact (hnoHead (c:=.live b.2) (l:=b.1) hl rfl).elim
  have hlists : FreeLists L (setFrame L m (buddy i o) o) free := h.lists.setFrame hb
  have htagSame : frameTag L (listAdd (setFrame L m (buddy i o) o) (areaHead L o)
      (frameToAddr (buddy i o))) (buddy i o)=o := by
    rw [frameTag_listAdd hlists (by omega) hb hb,frameTag_setFrame_same]
    exact Nat.mod_eq_of_lt (by simp only [maxOrder] at hle; omega)
  have htag : ∀ {j}, j<frameCount → j≠buddy i o → frameTag L (listAdd (setFrame L m (buddy i o) o)
      (areaHead L o) (frameToAddr (buddy i o))) j=frameTag L m j := by
    intro j hj hne
    rw [frameTag_listAdd hlists (by omega) hb hj,frameTag_setFrame_other hne]
  refine ⟨hlists.add (by omega) hb hnew,?_,?_,?_,?_,?_⟩
  · refine h.tiling.split (e:=.held) (f:=.free) hheld ?_
    intro d j l
    cases d with
    | free => simp [blocks,mem_update_cons]
    | live v => simp [blocks]
    | held => simp [blocks,eq_comm]
  · intro j l hj
    rcases mem_update_cons.mp hj with hj | ⟨rfl,rfl⟩
    · rw [htag (h.lists.inside hj) (fun he => hnew l (he ▸ hj)),h.freeTag hj]
    · exact htagSame
  · intro j l v hl
    rw [htag (h.live_lt hl) (fun he => by rw [he,hnoLive] at hl; cases hl),h.liveHead hl]
  · intro j hj hl
    by_cases he : j=buddy i o
    · rw [he,htagSame]
      simp only [maxOrder,frameAlloc] at hle ⊢
      omega
    · rw [htag hj he]
      exact h.otherTag hj hl
  · intro j l hl hj hb'
    rcases mem_update_cons.mp hj with hj | ⟨hji,hlo⟩ <;>
      rcases mem_update_cons.mp hb' with hb' | ⟨he,hlo'⟩
    · exact h.coalesced j l hl hj hb'
    · have hji : j=i := by
        have := congrArg (fun x => buddy x o) he
        rw [hlo',buddy_buddy,buddy_buddy] at this
        exact this
      exact h.held_not_free l (hji ▸ hj)
    · rw [hji,hlo,buddy_buddy] at hb'
      exact h.held_not_free o hb'
    · rw [hji,hlo,buddy_buddy,buddy_of_aligned_succ hal] at he
      have := Nat.two_pow_pos o
      omega

/-- Handing the held block to an owner: its tag is written, nothing else. -/
theorem Sound.grant (h : Sound L m free live (some (i,k))) (hlists : FreeLists L m' free)
    (hself : frameTag L m' i=liveTag k user)
    (hother : ∀ j, j<frameCount → j≠i → frameTag L m' j=frameTag L m j) :
    Sound L m' free (Function.update live i (some (k,user))) none := by
  have hnone := h.held_not_live
  have hupd : ∀ {j b}, Function.update live i (some (k,user)) j=some b ↔
      (j≠i ∧ live j=some b) ∨ (j=i ∧ b=(k,user)) := by
    intro j b
    by_cases hj : j=i
    · subst hj
      simp [eq_comm]
    · simp [hj]
  refine ⟨hlists,?_,?_,?_,?_,h.coalesced⟩
  · refine h.tiling.recolour (c:=.held) (e:=.live user) (i:=i) (k:=k) rfl ?_
    intro d j l
    cases d with
    | free => simp [blocks]
    | live v =>
      simp only [blocks,hupd]
      constructor
      · rintro (⟨_,hl⟩ | ⟨rfl,hb⟩)
        · exact Or.inl ⟨hl,by simp⟩
        · cases hb
          exact Or.inr ⟨rfl,rfl,rfl⟩
      · rintro (⟨hl,_⟩ | ⟨hv,rfl,rfl⟩)
        · refine Or.inl ⟨?_,hl⟩
          rintro rfl
          rw [hnone] at hl
          cases hl
        · cases hv
          exact Or.inr ⟨rfl,rfl⟩
    | held => simp [blocks,eq_comm]
  · intro j l hj
    rw [hother j (h.lists.inside hj) (fun he => h.held_not_free l (he ▸ hj)),h.freeTag hj]
  · intro j l v hl
    rcases hupd.mp hl with ⟨hne,hl⟩ | ⟨rfl,hb⟩
    · rw [hother j (h.live_lt hl) hne,h.liveHead hl]
    · cases hb
      exact hself
  · intro j hj hl
    by_cases hne : j=i
    · subst hne
      simp at hl
    · rw [Function.update_of_ne hne] at hl
      rw [hother j hj hne]
      exact h.otherTag hj hl

/-- Taking a live block back from its owner clears its tag to the order. -/
theorem Sound.release (h : Sound L m free live none) (hl : live i=some (k,user)) :
    Sound L (setFrame L m i k) free (Function.update live i none) (some (i,k)) ∧
      frameTag L (setFrame L m i k) i=k := by
  have hi := h.live_lt hl
  have hk := h.live_order hl
  have hself : frameTag L (setFrame L m i k) i=k := by
    rw [frameTag_setFrame_same]
    exact Nat.mod_eq_of_lt (by simp only [maxOrder] at hk; omega)
  have hupd : ∀ {j b}, Function.update live i none j=some b ↔ j≠i ∧ live j=some b := by
    intro j b
    by_cases hj : j=i
    · subst hj
      simp
    · simp [hj]
  refine ⟨⟨h.lists.setFrame hi,?_,?_,?_,?_,h.coalesced⟩,hself⟩
  · refine h.tiling.recolour (c:=.live user) (e:=.held) (i:=i) (k:=k) hl ?_
    intro d j l
    cases d with
    | free => simp [blocks]
    | live v =>
      simp only [blocks,hupd]
      constructor
      · rintro ⟨hne,hj⟩
        exact Or.inl ⟨hj,fun he => hne he.2.1⟩
      · rintro (⟨hj,hne⟩ | ⟨hc,_⟩)
        · refine ⟨?_,hj⟩
          rintro rfl
          rw [hl] at hj
          cases hj
          exact hne ⟨rfl,rfl,rfl⟩
        · cases hc
    | held => simp [blocks,eq_comm]
  · intro j l hj
    have hne : j≠i := by
      rintro rfl
      exact h.live_not_free hl l hj
    rw [frameTag_setFrame_other hne,h.freeTag hj]
  · intro j l v hj
    obtain ⟨hne,hj⟩ := hupd.mp hj
    rw [frameTag_setFrame_other hne,h.liveHead hj]
  · intro j hj hnone
    by_cases hne : j=i
    · rw [hne,hself]
      simp only [maxOrder,frameAlloc] at hk ⊢
      omega
    · rw [Function.update_of_ne hne] at hnone
      rw [frameTag_setFrame_other hne]
      exact h.otherTag hj hnone

/-- The merge test reads the order of a free block and refuses a live one. -/
theorem tag_mask {l : ℕ} (hl : l ≤ maxOrder) (user : Bool) :
    l&&&(frameAlloc|||frameOrder)=l ∧ liveTag l user&&&(frameAlloc|||frameOrder)=128+l := by
  simp only [maxOrder] at hl
  cases user <;> interval_cases l <;> decide

/-- The buddy of the held block passes the merge test exactly when it is free
with the same order: it is always a block head, so its tag is current. -/
theorem Sound.mergeTest_iff (h : Sound L m free live (some (i,k))) (hk : k < maxOrder) :
    frameTag L m (buddy i k)&&&(frameAlloc|||frameOrder)=k ↔ buddy i k∈free k := by
  obtain ⟨c,l,hlk,hb⟩ := h.tiling.buddy_head (c:=.held) (i:=i) (k:=k) rfl hk
  have hl := h.tiling.order_le hb
  cases c with
  | free =>
    rw [h.freeTag hb,(tag_mask hl false).1]
    constructor
    · rintro rfl
      exact hb
    · intro hf
      exact h.lists.unique hb hf
  | live v =>
    rw [h.liveHead hb,(tag_mask hl v).2]
    constructor
    · intro he
      simp only [maxOrder] at hk
      omega
    · intro hf
      exact (h.live_not_free hb k hf).elim
  | held =>
    have ha : 2^k∣i := h.tiling.aligned (c:=.held) (i:=i) (k:=k) rfl
    have he : i=buddy i k := by
      simp only [blocks,Option.some.injEq,Prod.mk.injEq] at hb
      exact hb.1
    have := Nat.two_pow_pos k
    rcases buddy_cases ha with ⟨_,h1⟩ | ⟨_,h1⟩ <;> omega

/-- Merging the held block with its free buddy. -/
theorem Sound.merge (h : Sound L m free live (some (i,k))) (hk : k < maxOrder)
    (hb : buddy i k∈free k) :
    Sound L (setFrame L (listRemove m (areaHead L k) (frameToAddr (buddy i k)))
        (min i (buddy i k)) (k+1))
      (Function.update free k ((free k).erase (buddy i k))) live
      (some (min i (buddy i k),k+1)) ∧
    frameTag L (setFrame L (listRemove m (areaHead L k) (frameToAddr (buddy i k)))
        (min i (buddy i k)) (k+1)) (min i (buddy i k))=k+1 := by
  have hnd := h.lists.nodup k
  have hmin : min i (buddy i k)<frameCount := lt_of_le_of_lt (Nat.min_le_left _ _) h.held_lt
  have hhead : min i (buddy i k)=i ∨ min i (buddy i k)=buddy i k := by omega
  have hnoLive : live (min i (buddy i k))=none := by
    rcases hhead with he | he <;> rw [he]
    · exact h.held_not_live
    · exact h.free_not_live hb
  have hself : frameTag L (setFrame L (listRemove m (areaHead L k) (frameToAddr (buddy i k)))
      (min i (buddy i k)) (k+1)) (min i (buddy i k))=k+1 := by
    rw [frameTag_setFrame_same]
    exact Nat.mod_eq_of_lt (by simp only [maxOrder] at hk; omega)
  have htag : ∀ {j}, j<frameCount → j≠min i (buddy i k) →
      frameTag L (setFrame L (listRemove m (areaHead L k) (frameToAddr (buddy i k)))
        (min i (buddy i k)) (k+1)) j=frameTag L m j := by
    intro j hj hne
    rw [frameTag_setFrame_other hne,frameTag_listRemove h.lists hb hj]
  have hkeep : ∀ {j l}, j∈Function.update free k ((free k).erase (buddy i k)) l →
      j∈free l ∧ j≠min i (buddy i k) := by
    intro j l hj
    obtain ⟨hj,hne⟩ := (mem_update_erase hnd).mp hj
    refine ⟨hj,?_⟩
    rintro rfl
    rcases hhead with he | he <;> rw [he] at hj
    · exact h.held_not_free l hj
    · exact hne ⟨he,h.lists.unique hj hb⟩
  refine ⟨⟨(h.lists.remove hb).setFrame hmin,?_,?_,?_,?_,?_⟩,hself⟩
  · refine h.tiling.merge (c:=.held) (e:=.free) (f:=.held) (i:=i) (k:=k) rfl hb hk ?_
    intro d j l
    cases d with
    | free => simp [blocks,mem_update_erase hnd]
    | live v => simp [blocks]
    | held => simp [blocks,eq_comm]
  · intro j l hj
    obtain ⟨hj,hne⟩ := hkeep hj
    rw [htag (h.lists.inside hj) hne,h.freeTag hj]
  · intro j l v hl
    rw [htag (h.live_lt hl) (fun he => by rw [he,hnoLive] at hl; cases hl),h.liveHead hl]
  · intro j hj hl
    by_cases hne : j=min i (buddy i k)
    · rw [hne,hself]
      simp only [maxOrder,frameAlloc] at hk ⊢
      omega
    · rw [htag hj hne]
      exact h.otherTag hj hl
  · intro j l hl hj hb'
    exact h.coalesced j l hl (hkeep hj).1 (hkeep hb').1

/-- Putting the held block on its list, once its buddy is not free. -/
theorem Sound.give (h : Sound L m free live (some (i,k))) (htag : frameTag L m i=k)
    (hb : k < maxOrder → buddy i k∉free k) :
    Sound L (listAdd m (areaHead L k) (frameToAddr i))
      (Function.update free k (i::free k)) live none := by
  have hk : k ≤ maxOrder := h.tiling.order_le (c:=.held) (i:=i) (k:=k) rfl
  have ha : 2^k∣i := h.tiling.aligned (c:=.held) (i:=i) (k:=k) rfl
  have hkeep : ∀ {j}, j<frameCount →
      frameTag L (listAdd m (areaHead L k) (frameToAddr i)) j=frameTag L m j :=
    fun hj => frameTag_listAdd h.lists hk h.held_lt hj
  refine ⟨h.lists.add hk h.held_lt h.held_not_free,?_,?_,?_,?_,?_⟩
  · refine h.tiling.recolour (c:=.held) (e:=.free) (i:=i) (k:=k) rfl ?_
    intro d j l
    cases d with
    | free => simp [blocks,mem_update_cons]
    | live v => simp [blocks]
    | held => simp [blocks,eq_comm]
  · intro j l hj
    rcases mem_update_cons.mp hj with hj | ⟨rfl,rfl⟩
    · rw [hkeep (h.lists.inside hj),h.freeTag hj]
    · rw [hkeep h.held_lt,htag]
  · intro j l v hl
    rw [hkeep (h.live_lt hl),h.liveHead hl]
  · intro j hj hl
    rw [hkeep hj]
    exact h.otherTag hj hl
  · intro j l hl hj hb'
    rcases mem_update_cons.mp hj with hj | ⟨hji,hlk⟩ <;>
      rcases mem_update_cons.mp hb' with hb' | ⟨he,hlk'⟩
    · exact h.coalesced j l hl hj hb'
    · refine hb (hlk' ▸ hl) ?_
      have := congrArg (fun x => buddy x k) he
      rw [hlk',buddy_buddy] at this
      rw [← this]
      exact hlk' ▸ hj
    · rw [hji,hlk] at hb'
      exact hb (hlk ▸ hl) hb'
    · rw [hji,hlk] at he
      have := Nat.two_pow_pos k
      rcases buddy_cases ha with ⟨_,h1⟩ | ⟨_,h1⟩ <;> omega

/-- The invariant survives every change outside the allocator's own data. -/
theorem Sound.transport (h : Sound L m free live held)
    (hframe : ∀ a, FrameByte L a → m' a=m a) (hhead : ∀ a, HeadByte L a → m' a=m a)
    (hcell : ∀ o i, i∈free o → ∀ a, CellByte i a → m' a=m a) : Sound L m' free live held := by
  have htag : ∀ {j}, j<frameCount → frameTag L m' j=frameTag L m j :=
    fun hj => frameTag_congr (hframe _ (frameByte_tag hj))
  refine ⟨h.lists.transport hhead hcell,h.tiling,?_,?_,?_,h.coalesced⟩
  · intro j l hj
    rw [htag (h.lists.inside hj),h.freeTag hj]
  · intro j l v hl
    rw [htag (h.live_lt hl),h.liveHead hl]
  · intro j hj hl
    rw [htag hj]
    exact h.otherTag hj hl

end OvsbMk.BuddyInvariant
