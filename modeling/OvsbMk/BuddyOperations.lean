import OvsbMk.BuddyInvariant

/-!
# What the buddy operations do

One specification for each function of the buddy allocator, over any memory
that satisfies the invariant: which block moves between the free lists and
its owner, and which bytes may change. Later modules use these statements
only and do not unfold the loops again.
-/

namespace OvsbMk.BuddyOperations

open ByteMemory IntrusiveList KernelMemory BuddyFreeLists DyadicTiling BuddyInvariant

variable {L : Layout} {m : Bytes} {free : ℕ → List ℕ} {live : LiveMap}
  {i k o : ℕ} {user : Bool}

/-- A list is empty exactly when its head word is null. -/
theorem head_zero_iff (h : FreeLists L m free) (ho : o ≤ maxOrder) :
    load64 m (areaHead L o)=0 ↔ free o=[] := by
  rw [h.head_eq ho]
  cases hf : free o with
  | nil => simp
  | cons j rest =>
    simp only [List.map_cons,List.headD_cons,frameToAddr_eq]
    constructor
    · intro h0
      omega
    · intro h0
      cases h0

/-- The search stops at the first non-empty list, or all lists are empty. -/
theorem foundOrder_cases (h : FreeLists L m free) (count : ℕ) (hc : o+count=maxOrder+1) :
    (foundOrder L m count o=none ∧ ∀ j, o≤j → free j=[]) ∨
      ∃ f, foundOrder L m count o=some f ∧ o≤f ∧ f ≤ maxOrder ∧ free f≠[] := by
  induction count generalizing o with
  | zero =>
    left
    refine ⟨rfl,fun j hj => ?_⟩
    apply List.eq_nil_iff_forall_not_mem.mpr
    intro x hx
    have := h.order_le hx
    omega
  | succ count ih =>
    have ho : o ≤ maxOrder := by omega
    by_cases h0 : load64 m (areaHead L o)=0
    · have he := (head_zero_iff h ho).mp h0
      simp only [foundOrder,h0,ne_eq,not_true_eq_false,if_false]
      rcases ih (o:=o+1) (by omega) with ⟨hn,hall⟩ | ⟨f,hf,hle,hmax,hne⟩
      · left
        refine ⟨hn,fun j hj => ?_⟩
        rcases Nat.eq_or_lt_of_le hj with rfl | hlt
        · exact he
        · exact hall j hlt
      · right
        exact ⟨f,hf,by omega,hmax,hne⟩
    · right
      refine ⟨o,by simp [foundOrder,h0],le_rfl,ho,?_⟩
      exact fun he => h0 ((head_zero_iff h ho).mpr he)

/-- The byte is neither a tag, a list head nor a link of the given frames. -/
structure Untouched (L : Layout) (heads : ℕ → Prop) (a : ℕ) : Prop where
  /-- Not in the frame table. -/
  tag : ¬FrameByte L a
  /-- Not a list head. -/
  head : ¬HeadByte L a
  /-- Not in a link cell. -/
  cell : ∀ j, heads j → ¬CellByte j a

/-- Fewer link cells may be touched. -/
theorem Untouched.mono {heads heads' : ℕ → Prop} {a : ℕ} (h : Untouched L heads a)
    (hsub : ∀ j, heads' j → heads j) : Untouched L heads' a :=
  ⟨h.tag,h.head,fun j hj => h.cell j (hsub j hj)⟩

/-- The frame is on some free list. -/
def Listable (free : ℕ → List ℕ) (j : ℕ) : Prop := ∃ k, j∈free k

/-- Splitting leaves the held block with the requested order and only adds
free blocks. -/
theorem splitBlock_sound (h : Sound L m free live (some (i,o))) (hk : k≤o) :
    ∃ free', Sound L (splitBlock L i k o m) free' live (some (i,k)) ∧
      (∀ l j, j∈free l → j∈free' l) ∧
      ∀ a, Untouched L (Listable free') a → splitBlock L i k o m a=m a := by
  induction o generalizing m free with
  | zero =>
    obtain rfl : k=0 := by omega
    exact ⟨free,h,fun _ _ hj => hj,fun _ _ => rfl⟩
  | succ o ih =>
    by_cases hlt : k<o+1
    · have hle : o+1 ≤ maxOrder := h.tiling.order_le (c:=.held) (i:=i) (k:=o+1) rfl
      have hal : 2^(o+1)∣i := h.tiling.aligned (c:=.held) (i:=i) (k:=o+1) rfl
      have hak : 2^o∣i := (pow_dvd_pow 2 (Nat.le_succ o)).trans hal
      have hb : buddy i o<frameCount := buddy_lt hak hle h.held_lt
      have hs := h.split
      obtain ⟨free',hs',hsub,hframe⟩ := ih hs (by omega)
      have hstep : splitBlock L i k (o+1) m=splitBlock L i k o
          (listAdd (setFrame L m (buddy i o) o) (areaHead L o) (frameToAddr (buddy i o))) := by
        rw [splitBlock,if_pos hlt,buddy,Nat.one_shiftLeft]
      have hgrow : ∀ l j, j∈free l → j∈free' l := fun l j hj =>
        hsub l j (mem_update_cons.mpr (Or.inl hj))
      have hnew : buddy i o∈free' o := hsub o _ (mem_update_cons.mpr (Or.inr ⟨rfl,rfl⟩))
      refine ⟨free',hstep ▸ hs',hgrow,?_⟩
      intro a ha
      rw [hstep,hframe a ha,listAdd_frame (h.lists.setFrame hb) (by omega) hb ha.head
        (ha.cell _ ⟨o,hnew⟩) (fun l j hj => ha.cell j ⟨l,hgrow l j hj⟩)]
      exact setFrame_frame ha.tag hb
    · obtain rfl : k=o+1 := by omega
      refine ⟨free,?_,fun _ _ hj => hj,fun a _ => ?_⟩
      · rw [splitBlock,if_neg hlt]
        exact h
      · rw [splitBlock,if_neg hlt]

/-- The tag written for a new live block. -/
theorem grant_tag (hk : k ≤ maxOrder) :
    (k|||frameAlloc)%256=liveTag k false ∧
      ((k|||frameAlloc)%256|||frameUser)%256=liveTag k true := by
  simp only [maxOrder] at hk
  interval_cases k <;> decide

/-- Result of an allocation: either no block is available and nothing
changes, or a block moves from the free lists to its new owner. -/
theorem buddyAlloc_cases (h : Sound L m free live none) (order : ℤ) (user : Bool) :
    (buddyAlloc L m order user=(0,m) ∧
      (order<0 ∨ order>maxOrder ∨ ∀ j, order.toNat≤j → free j=[])) ∨
    ∃ i m' free', 0≤order ∧ order ≤ maxOrder ∧ buddyAlloc L m order user=(frameToAddr i,m') ∧
      i<frameCount ∧ live i=none ∧ (∃ f, order.toNat≤f ∧ i∈free f) ∧
      Sound L m' free' (Function.update live i (some (order.toNat,user))) none ∧
      ∀ a, Untouched L (Listable free) a → Untouched L (Listable free') a → m' a=m a := by
  unfold buddyAlloc
  by_cases hrange : order<0 ∨ order>maxOrder
  · left
    rw [if_pos hrange]
    exact ⟨rfl,by tauto⟩
  · rw [if_neg hrange]
    rw [not_or,Int.not_lt,not_lt] at hrange
    have hk : order.toNat ≤ maxOrder := by omega
    dsimp only
    rcases foundOrder_cases h.lists (o:=order.toNat) (maxOrder+1-order.toNat) (by omega) with
      ⟨hn,hall⟩ | ⟨f,hf,hle,hmax,hne⟩
    · left
      rw [hn]
      exact ⟨rfl,Or.inr (Or.inr hall)⟩
    · right
      rw [hf]
      dsimp only
      obtain ⟨i,rest,hfree⟩ := List.exists_cons_of_ne_nil hne
      have hi : i∈free f := by simp [hfree]
      have hblock : load64 m (areaHead L f)=frameToAddr i := by
        rw [h.lists.head_eq hmax,hfree]
        rfl
      have hidx : addrToFrame (frameToAddr i)=i := addrToFrame_frameToAddr (h.lists.inside hi)
      rw [hblock,hidx]
      have htake := h.take hi
      obtain ⟨free',hsplit,hsub,hframe⟩ := splitBlock_sound htake hle
      have hheld := hsplit.held_lt
      have htags := grant_tag hk
      refine ⟨i,_,free',hrange.1,hrange.2,rfl,hheld,h.free_not_live hi,⟨f,hle,hi⟩,?_,?_⟩
      · refine hsplit.grant ?_ ?_ ?_
        · split
          · exact (hsplit.lists.setFrame hheld).setFrame hheld
          · exact hsplit.lists.setFrame hheld
        · cases user with
          | false => simp only [Bool.false_eq_true,if_false,frameTag_setFrame_same,htags.1]
          | true => simp only [if_true,frameTag_setFrame_same,htags.2]
        · intro j _ hji
          split
          · rw [frameTag_setFrame_other hji,frameTag_setFrame_other hji]
          · rw [frameTag_setFrame_other hji]
      · intro a ha ha'
        have hset : ∀ m v, setFrame L m i v a=m a := fun m v => setFrame_frame ha.tag hheld
        have hmid := listRemove_frame h.lists hi ha.head (fun l j hj => ha.cell j ⟨l,hj⟩)
        split
        · rw [hset,hset,hframe a ha',hmid]
        · rw [hset,hframe a ha',hmid]

/-- Merging keeps the invariant, ends at a block whose buddy is not free, and
only takes blocks off the free lists. -/
theorem coalesce_sound (h : Sound L m free live (some (i,k))) (htag : frameTag L m i=k)
    (count : ℕ) (hc : k+count=maxOrder) :
    ∃ i' k' m' free', coalesce L count i k m=(i',k',m') ∧
      Sound L m' free' live (some (i',k')) ∧ frameTag L m' i'=k' ∧
      (k' < maxOrder → buddy i' k'∉free' k') ∧ (∀ l j, j∈free' l → j∈free l) ∧
      (i'=i ∨ Listable free i') ∧
      ∀ a, Untouched L (Listable free) a → m' a=m a := by
  induction count generalizing i k m free with
  | zero =>
    refine ⟨i,k,m,free,rfl,h,htag,fun hlt => ?_,fun _ _ hj => hj,Or.inl rfl,fun _ _ => rfl⟩
    omega
  | succ count ih =>
    have hk : k < maxOrder := by omega
    have htest := h.mergeTest_iff hk
    have hbud : i^^^1<<<k=buddy i k := by rw [buddy,Nat.one_shiftLeft]
    by_cases hb : buddy i k∈free k
    · have hmin : (if i<buddy i k then i else buddy i k)=min i (buddy i k) := by
        split <;> omega
      obtain ⟨hm,hmtag⟩ := h.merge hk hb
      obtain ⟨i',k',m',free',hco,hs,ht,hstop,hsub,hhead,hframe⟩ := ih hm hmtag (by omega)
      have hnd := h.lists.nodup k
      have hshrink : ∀ l j, j∈Function.update free k ((free k).erase (buddy i k)) l → j∈free l :=
        fun l j hj => ((mem_update_erase hnd).mp hj).1
      refine ⟨i',k',m',free',?_,hs,ht,hstop,fun l j hj => hshrink l j (hsub l j hj),?_,?_⟩
      · rw [coalesce,hbud,if_pos (htest.mpr hb),hmin]
        exact hco
      · rcases hhead with rfl | ⟨l,hl⟩
        · rcases Nat.le_total i (buddy i k) with hle | hle
          · exact Or.inl (Nat.min_eq_left hle)
          · exact Or.inr ⟨k,by rw [Nat.min_eq_right hle]; exact hb⟩
        · exact Or.inr ⟨l,hshrink l _ hl⟩
      · intro a ha
        have hless : ∀ j, Listable (Function.update free k ((free k).erase (buddy i k))) j →
            Listable free j := by
          rintro j ⟨l,hj⟩
          exact ⟨l,hshrink l j hj⟩
        rw [hframe a (ha.mono hless),
          setFrame_frame ha.tag (lt_of_le_of_lt (Nat.min_le_left _ _) h.held_lt),
          listRemove_frame h.lists hb ha.head (fun l j hj => ha.cell j ⟨l,hj⟩)]
    · refine ⟨i,k,m,free,?_,h,htag,fun _ => hb,fun _ _ hj => hj,Or.inl rfl,fun _ _ => rfl⟩
      rw [coalesce,hbud,if_neg (fun ht => hb (htest.mp ht))]

/-- Releasing a live block moves it to the free lists; only links of free
blocks and of the released block are written. -/
theorem releaseBlock_sound (h : Sound L m free live none) (hl : live i=some (k,user)) :
    ∃ free', Sound L (releaseBlock L m i k) free' (Function.update live i none) none ∧
      (∀ j, Listable free' j → j=i ∨ Listable free j) ∧
      ∀ a, Untouched L (fun j => j=i ∨ Listable free j) a → releaseBlock L m i k a=m a := by
  have hk := h.live_order hl
  obtain ⟨hs,htag⟩ := h.release hl
  obtain ⟨i',k',m',free',hco,hs',ht',hstop,hsub,hhead,hframe⟩ :=
    coalesce_sound hs htag (maxOrder-k) (by omega)
  have hk' : k' ≤ maxOrder := hs'.tiling.order_le (c:=.held) (i:=i') (k:=k') rfl
  have heq : releaseBlock L m i k=listAdd m' (areaHead L k') (frameToAddr i') := by
    simp only [releaseBlock,hco]
  refine ⟨Function.update free' k' (i'::free' k'),heq ▸ hs'.give ht' hstop,?_,?_⟩
  · rintro j ⟨l,hj⟩
    rcases mem_update_cons.mp hj with hj | ⟨rfl,_⟩
    · exact Or.inr ⟨l,hsub l j hj⟩
    · exact hhead
  · intro a ha
    rw [heq,listAdd_frame hs'.lists hk' hs'.held_lt ha.head (ha.cell i' hhead)
      (fun l j hj => ha.cell j (Or.inr ⟨l,hsub l j hj⟩)),
      hframe a (ha.mono fun j hj => Or.inr hj)]
    exact setFrame_frame ha.tag (h.live_lt hl)

/-- The owners' view of a release by address: the block whose head is at
that address, if there is one, is live no longer. -/
def releaseAt (live : LiveMap) (addr : ℕ) : LiveMap := fun i =>
  if frameToAddr i=addr then none else live i

/-- Releasing at a frame address clears that frame's entry. -/
theorem releaseAt_frame (live : LiveMap) (i : ℕ) :
    releaseAt live (frameToAddr i)=Function.update live i none := by
  funext j
  by_cases hj : j=i
  · subst hj
    simp [releaseAt]
  · have : frameToAddr j≠frameToAddr i := by
      simp only [frameToAddr_eq]
      omega
    simp [releaseAt,this,hj]

/-- Releasing where no live block starts changes nothing. -/
theorem releaseAt_of_none {addr : ℕ} (h : ∀ i, frameToAddr i=addr → live i=none) :
    releaseAt live addr=live := by
  funext j
  unfold releaseAt
  split
  · next hj => exact (h j hj).symm
  · rfl

/-- Tag bits of a live head. -/
theorem liveTag_bits (hk : k ≤ maxOrder) (user : Bool) :
    liveTag k user&&&frameAlloc≠0 ∧ liveTag k user&&&frameOrder=k ∧
      (liveTag k user&&&(frameAlloc|||frameUser)=frameAlloc|||frameUser ↔ user=true) := by
  simp only [maxOrder] at hk
  cases user <;> interval_cases k <;> decide

/-- A tag below the allocation bit does not look live. -/
theorem lowTag_bits {t : ℕ} (h : t<frameAlloc) :
    t&&&frameAlloc=0 ∧ t&&&(frameAlloc|||frameUser)≠frameAlloc|||frameUser := by
  have h7 : t.testBit 7=false := Nat.testBit_lt_two_pow h
  constructor
  · apply Nat.eq_of_testBit_eq
    intro n
    have hb : frameAlloc=2^7 := rfl
    rw [Nat.testBit_and,hb,Nat.testBit_two_pow,Nat.zero_testBit]
    by_cases hn : 7=n
    · subst hn
      simp [h7]
    · simp [hn]
  · intro he
    have := congrArg (fun x => Nat.testBit x 7) he
    simp only [Nat.testBit_and,h7,Bool.false_and] at this
    exact absurd this (by decide)

/-- Whether a frame's head looks live is whether it is. -/
theorem allocBit_iff (h : Sound L m free live none) (hi : i<frameCount) :
    frameTag L m i&&&frameAlloc=0 ↔ live i=none := by
  cases hl : live i with
  | none => simp [(lowTag_bits (h.otherTag hi hl)).1]
  | some b =>
    have hlive : live i=some (b.1,b.2) := hl
    rw [h.liveHead hlive]
    simp [(liveTag_bits (h.live_order hlive) b.2).1]

/-- An aligned address whose frame index is in range is that frame's address. -/
theorem frameToAddr_of_aligned {addr : ℕ} (hlt : addr<2^64) (ha : addr&&&(frameSize-1)=0)
    (hi : addrToFrame addr<frameCount) : frameToAddr (addrToFrame addr)=addr := by
  have hmod : addr%4096=0 := by
    have := Nat.and_two_pow_sub_one_eq_mod addr 12
    rw [← this]
    exact ha
  simp only [frameToAddr_eq,addrToFrame,Nat.shiftRight_eq_div_pow,heapPhys,frameShift,frameCount,
    heapSize,frameSize] at *
  omega

/-- Frame addresses are aligned and inside the heap window. -/
theorem frameToAddr_range (hi : i<frameCount) :
    frameToAddr i≠0 ∧ ¬(frameToAddr i<heapPhys ∨ frameToAddr i≥heapPhys+heapSize) ∧
      frameToAddr i&&&(frameSize-1)=0 ∧ frameToAddr i<2^64 := by
  have hi' : i<16384 := hi
  have hmask : frameToAddr i&&&(frameSize-1)=frameToAddr i%2^12 :=
    Nat.and_two_pow_sub_one_eq_mod _ 12
  rw [hmask]
  simp only [frameToAddr_eq,heapPhys,heapSize]
  omega

/-- Freeing a live block by its recorded order is releasing it. -/
theorem buddyFree_live (h : Sound L m free live none) (hl : live i=some (k,user)) :
    buddyFree L m (frameToAddr i) k=releaseBlock L m i k := by
  have hi := h.live_lt hl
  have hk := h.live_order hl
  obtain ⟨h0,hr,ha,_⟩ := frameToAddr_range hi
  unfold buddyFree
  rw [if_neg (by omega),if_neg hr,if_neg (not_not.mpr ha),addrToFrame_frameToAddr hi,Int.toNat_natCast]

/-- Effect of releasing the live block at an address, when there is one. -/
def Released (L : Layout) (m : Bytes) (live : LiveMap) (addr : ℕ) (m' : Bytes) : Prop :=
  (m'=m ∧ ∀ i, frameToAddr i=addr → live i=none) ∨
    ∃ i k user, frameToAddr i=addr ∧ live i=some (k,user) ∧ m'=releaseBlock L m i k

/-- A release by address keeps the invariant and does what the owners see. -/
theorem Released.sound {addr : ℕ} {m' : Bytes} (h : Sound L m free live none)
    (hr : Released L m live addr m') :
    ∃ free', Sound L m' free' (releaseAt live addr) none ∧
      ∀ a, Untouched L (fun j => frameToAddr j=addr ∨ Listable free j) a → m' a=m a := by
  rcases hr with ⟨rfl,hnone⟩ | ⟨i,k,user,rfl,hl,rfl⟩
  · exact ⟨free,by rwa [releaseAt_of_none hnone],fun _ _ => rfl⟩
  · obtain ⟨free',hs,_,hframe⟩ := releaseBlock_sound h hl
    refine ⟨free',by rwa [releaseAt_frame],fun a ha => hframe a (ha.mono ?_)⟩
    rintro j (rfl | hj)
    · exact Or.inl rfl
    · exact Or.inr hj

/-- No frame has this address. -/
theorem no_frame_of_unaligned {addr : ℕ} (ha : addr&&&(frameSize-1)≠0) (i : ℕ) :
    frameToAddr i≠addr := by
  rintro rfl
  have hmask : frameToAddr i&&&(frameSize-1)=frameToAddr i%2^12 :=
    Nat.and_two_pow_sub_one_eq_mod _ 12
  rw [hmask,frameToAddr_eq] at ha
  omega

/-- `munmap_user` on any address releases the live block that starts there,
and does nothing when there is none. -/
theorem munmapUser_released (h : Sound L m free live none) {addr : ℕ} (hlt : addr<2^64) :
    Released L m live addr (munmapUser L m addr).2 := by
  unfold munmapUser
  by_cases h0 : addr=0
  · rw [if_pos h0]
    refine Or.inl ⟨rfl,fun i hi => ?_⟩
    rw [frameToAddr_eq] at hi
    omega
  rw [if_neg h0]
  by_cases ha : addr&&&(frameSize-1)=0
  · rw [if_neg (not_not.mpr ha)]
    by_cases hi : addrToFrame addr<frameCount
    · rw [if_neg (not_le.mpr hi)]
      have haddr := frameToAddr_of_aligned hlt ha hi
      by_cases htag : frameTag L m (addrToFrame addr)&&&frameAlloc=0
      · rw [if_pos htag]
        refine Or.inl ⟨rfl,fun i hia => ?_⟩
        have hii : i=addrToFrame addr := by
          rw [← haddr] at hia
          simp only [frameToAddr_eq] at hia
          omega
        rw [hii]
        exact (allocBit_iff h hi).mp htag
      · rw [if_neg htag]
        obtain ⟨b,hb⟩ := Option.ne_none_iff_exists'.mp (fun hn => htag ((allocBit_iff h hi).mpr hn))
        have hl : live (addrToFrame addr)=some (b.1,b.2) := hb
        refine Or.inr ⟨addrToFrame addr,b.1,b.2,haddr,hl,?_⟩
        have hfree := buddyFree_live h hl
        rw [haddr] at hfree
        rw [h.liveHead hl,(liveTag_bits (h.live_order hl) b.2).2.1]
        exact hfree
    · rw [if_pos (not_lt.mp hi)]
      refine Or.inl ⟨rfl,fun i hia => ?_⟩
      cases hl : live i with
      | none => rfl
      | some b =>
        have := h.live_lt (k:=b.1) hl
        rw [← hia,addrToFrame_frameToAddr this] at hi
        exact (hi this).elim
  · rw [if_pos ha]
    exact Or.inl ⟨rfl,fun i hi => (no_frame_of_unaligned ha i hi).elim⟩

/-- On the page path `kfree` is `munmap_user` restricted to the heap window. -/
theorem kfree_page {addr : ℕ} (hpath : load32 m (pageOf addr)≠slabMagic)
    (hin : heapPhys≤addr ∧ addr<heapPhys+heapSize) : kfree L m addr=(munmapUser L m addr).2 := by
  have h0 : addr≠0 := by
    rintro rfl
    exact absurd hin.1 (by norm_num)
  have hwin : ¬(addr<heapPhys ∨ addr≥heapPhys+heapSize) := by omega
  unfold kfree munmapUser
  rw [if_neg h0,if_neg h0,if_neg hwin,if_neg hpath]
  by_cases ha : addr&&&(frameSize-1)=0
  · rw [if_neg (not_not.mpr ha),if_neg (not_not.mpr ha)]
    by_cases hi : addrToFrame addr≥frameCount
    · rw [if_pos hi,if_pos hi]
    · rw [if_neg hi,if_neg hi]
      by_cases htag : frameTag L m (addrToFrame addr)&&&frameAlloc=0
      · rw [if_pos htag,if_pos htag]
      · rw [if_neg htag,if_neg htag]
  · rw [if_pos ha,if_pos ha]

/-- `kfree` on the page path releases the live block that starts at the
address, and does nothing when there is none. -/
theorem kfree_released (h : Sound L m free live none) {addr : ℕ} (hlt : addr<2^64)
    (hpath : heapPhys≤addr → addr<heapPhys+heapSize → load32 m (pageOf addr)≠slabMagic) :
    Released L m live addr (kfree L m addr) := by
  by_cases hin : heapPhys≤addr ∧ addr<heapPhys+heapSize
  · rw [kfree_page (hpath hin.1 hin.2) hin]
    exact munmapUser_released h hlt
  · have hout : kfree L m addr=m := by
      unfold kfree
      by_cases h0 : addr=0
      · rw [if_pos h0]
      · rw [if_neg h0,if_pos (by omega)]
    rw [hout]
    refine Or.inl ⟨rfl,fun i hia => ?_⟩
    cases hl : live i with
    | none => rfl
    | some b =>
      have := h.live_lt (k:=b.1) hl
      have hr := (frameToAddr_range this).2.1
      rw [hia] at hr
      omega

/-- The frame lies in a live block. -/
def InLive (live : LiveMap) (j : ℕ) : Prop := ∃ l k user, live l=some (k,user) ∧ Covers l k j

/-- The byte is none of the allocator's: it lies outside its tables, and
where it meets a link cell the frame is live. -/
structure Safe (L : Layout) (live : LiveMap) (a : ℕ) : Prop where
  /-- Not in the frame table. -/
  tag : ¬FrameByte L a
  /-- Not a list head. -/
  head : ¬HeadByte L a
  /-- Link cells that contain it belong to live frames. -/
  cell : ∀ j, j<frameCount → CellByte j a → InLive live j

/-- No free block covers a live frame. -/
theorem Sound.free_not_inLive {held : Option (ℕ × ℕ)} {j : ℕ} (h : Sound L m free live held)
    (hj : j∈free k) : ¬InLive live j := by
  rintro ⟨l,k',user,hl,hc⟩
  have := (h.tiling.unique (c:=.free) (d:=.live user) hj hl (covers_head j k) hc).1
  cases this

/-- Safe bytes are not touched through the free lists. -/
theorem Sound.untouched {held : Option (ℕ × ℕ)} {a : ℕ} (h : Sound L m free live held)
    (ha : Safe L live a) : Untouched L (Listable free) a :=
  ⟨ha.tag,ha.head,fun j ⟨_,hj⟩ hc =>
    Sound.free_not_inLive h hj (ha.cell j (h.lists.inside hj) hc)⟩

/-- More live blocks protect more bytes. -/
theorem Safe.mono {live' : LiveMap} {a : ℕ} (ha : Safe L live a)
    (hsub : ∀ j, InLive live j → InLive live' j) : Safe L live' a :=
  ⟨ha.tag,ha.head,fun j hj hc => hsub j (ha.cell j hj hc)⟩

/-- A new live block keeps the others. -/
theorem inLive_update {b : ℕ × Bool} (hnone : live i=none) (j : ℕ) (h : InLive live j) :
    InLive (Function.update live i (some b)) j := by
  obtain ⟨l,k,user,hl,hc⟩ := h
  refine ⟨l,k,user,?_,hc⟩
  rw [Function.update_of_ne]
  · exact hl
  · rintro rfl
    rw [hnone] at hl
    cases hl

/-- Live blocks that survive a release were live before. -/
theorem inLive_of_releaseAt {addr j : ℕ} (h : InLive (releaseAt live addr) j) : InLive live j := by
  obtain ⟨l,k,user,hl,hc⟩ := h
  refine ⟨l,k,user,?_,hc⟩
  unfold releaseAt at hl
  split at hl
  · cases hl
  · exact hl

/-- A release does not touch what stays live. -/
theorem Released.safe {addr a : ℕ} {m' : Bytes} (h : Sound L m free live none)
    (hr : Released L m live addr m') (ha : Safe L (releaseAt live addr) a) : m' a=m a := by
  rcases hr with ⟨rfl,_⟩ | ⟨i,k,user,rfl,hl,rfl⟩
  · rfl
  · obtain ⟨_,_,_,hframe⟩ := releaseBlock_sound h hl
    apply hframe
    refine ⟨ha.tag,ha.head,?_⟩
    rintro j (rfl | ⟨o,hj⟩) hc
    · obtain ⟨l,k',user',hl',hc'⟩ := ha.cell j (h.live_lt hl) hc
      rw [releaseAt_frame] at hl'
      by_cases hlj : l=j
      · subst hlj
        simp at hl'
      · rw [Function.update_of_ne hlj] at hl'
        exact hlj (h.tiling.unique (c:=.live user) (d:=.live user') hl hl'
          (covers_head j k) hc').2.1.symm
    · exact Sound.free_not_inLive h hj (inLive_of_releaseAt (ha.cell j (h.lists.inside hj) hc))

/-- The owners' view of releasing all user blocks from a frame on. -/
def dropUser (start : ℕ) (live : LiveMap) : LiveMap := fun j =>
  if start≤j ∧ (live j).any Prod.snd then none else live j

/-- Blocks left by `dropUser` were live before. -/
theorem dropUser_some {start j : ℕ} {b : ℕ × Bool} (h : dropUser start live j=some b) :
    live j=some b := by
  unfold dropUser at h
  split at h
  · cases h
  · exact h

/-- Dropping user blocks from the next frame on, when this frame has none. -/
theorem dropUser_succ {start : ℕ} (h : ∀ k, live start≠some (k,true)) :
    dropUser start live=dropUser (start+1) live := by
  funext j
  unfold dropUser
  by_cases hj : j=start
  · subst hj
    have : (live j).any Prod.snd=false := by
      cases hl : live j with
      | none => rfl
      | some b =>
        obtain ⟨k,v⟩ := b
        cases v with
        | false => rfl
        | true => exact (h k hl).elim
    simp [this]
  · have : start≤j ↔ start+1≤j := by omega
    simp [this]

/-- Releasing the block at the scan position leaves the same blocks to drop
after it, since no other head lies inside it. -/
theorem dropUser_release (h : Sound L m free live none) (hl : live i=some (k,true)) :
    dropUser i live=dropUser (i+2^k) (Function.update live i none) := by
  funext j
  unfold dropUser
  by_cases hj : j=i
  · subst hj
    simp [hl]
  · rw [Function.update_of_ne hj]
    by_cases hin : i≤j ∧ j < i+2^k
    · have hnone : live j=none := by
        cases hlj : live j with
        | none => rfl
        | some b =>
          exact (hj (h.tiling.unique (c:=.live true) (d:=.live b.2) (l:=b.1) hl hlj hin
            (covers_head j b.1)).2.1.symm).elim
      simp [hnone]
    · have : i≤j ↔ i+2^k≤j := by
        have := Nat.two_pow_pos k
        omega
      simp [this]

/-- Past the frame table there is nothing to drop. -/
theorem dropUser_done (h : Sound L m free live none) (hi : frameCount ≤ i) :
    dropUser i live=live := by
  funext j
  unfold dropUser
  by_cases hc : i≤j ∧ (live j).any Prod.snd
  · cases hl : live j with
    | none => simp [hl] at hc
    | some b =>
      have := h.live_lt (k:=b.1) hl
      omega
  · rw [if_neg hc]

/-- The test of the scan finds the heads of the live user blocks. -/
theorem userTag_iff (h : Sound L m free live none) (hi : i<frameCount) :
    frameTag L m i&&&(frameAlloc|||frameUser)=frameAlloc|||frameUser ↔
      ∃ k, live i=some (k,true) := by
  cases hl : live i with
  | none => simp [(lowTag_bits (h.otherTag hi hl)).2]
  | some b =>
    obtain ⟨k,v⟩ := b
    rw [h.liveHead hl,(liveTag_bits (h.live_order hl) v).2.2]
    simp

/-- The scan releases a live user block and goes on behind it. -/
theorem munmapAllFrom_user (h : Sound L m free live none) (hl : live i=some (k,true)) (fuel : ℕ) :
    munmapAllFrom L (fuel+1) i m=munmapAllFrom L fuel (i+2^k) (releaseBlock L m i k) := by
  have hord : frameTag L m i&&&frameOrder=k := by
    rw [h.liveHead hl,(liveTag_bits (h.live_order hl) true).2.1]
  rw [munmapAllFrom,if_pos (h.live_lt hl),if_pos ((userTag_iff h (h.live_lt hl)).mpr ⟨k,hl⟩),hord,
    ← Nat.one_shiftLeft]

/-- The scan passes a frame where no live user block starts. -/
theorem munmapAllFrom_skip (h : Sound L m free live none) (hi : i<frameCount)
    (hu : ¬∃ k, live i=some (k,true)) (fuel : ℕ) :
    munmapAllFrom L (fuel+1) i m=munmapAllFrom L fuel (i+1) m := by
  rw [munmapAllFrom,if_pos hi,if_neg fun ht => hu ((userTag_iff h hi).mp ht)]

/-- The scan of `munmap_all_user` releases exactly the live user blocks from
its position on, and touches nothing of what stays live. -/
theorem munmapAllFrom_sound (fuel : ℕ) (h : Sound L m free live none)
    (hfuel : frameCount ≤ i+fuel) :
    ∃ free', Sound L (munmapAllFrom L fuel i m) free' (dropUser i live) none ∧
      ∀ a, Safe L (dropUser i live) a → munmapAllFrom L fuel i m a=m a := by
  induction fuel generalizing i m free live with
  | zero =>
    rw [dropUser_done h (by omega)]
    exact ⟨free,h,fun _ _ => rfl⟩
  | succ fuel ih =>
    by_cases hi : i<frameCount
    · by_cases hu : ∃ k, live i=some (k,true)
      · obtain ⟨k,hl⟩ := hu
        obtain ⟨free1,hs1,_⟩ := releaseBlock_sound h hl
        have hpos := Nat.two_pow_pos k
        obtain ⟨free2,hs2,hframe2⟩ := ih (i:=i+2^k) hs1 (by omega)
        rw [munmapAllFrom_user h hl,dropUser_release h hl]
        refine ⟨free2,hs2,fun a ha => ?_⟩
        rw [hframe2 a ha]
        have hrel : Released L m live (frameToAddr i) (releaseBlock L m i k) :=
          Or.inr ⟨i,k,true,rfl,hl,rfl⟩
        refine hrel.safe h (ha.mono fun j hj => ?_)
        obtain ⟨l,k',v,hl',hc⟩ := hj
        exact ⟨l,k',v,by rw [releaseAt_frame]; exact dropUser_some hl',hc⟩
      · rw [munmapAllFrom_skip h hi hu,dropUser_succ (fun k hl => hu ⟨k,hl⟩)]
        exact ih (i:=i+1) h (by omega)
    · rw [munmapAllFrom,if_neg hi,dropUser_done h (by omega)]
      exact ⟨free,h,fun _ _ => rfl⟩

/-- An allocation does not touch what was live already. -/
theorem buddyAlloc_safe (h : Sound L m free live none) (order : ℤ) (user : Bool) {a : ℕ}
    (ha : Safe L live a) : (buddyAlloc L m order user).2 a=m a := by
  rcases buddyAlloc_cases h order user with ⟨heq,_⟩ | ⟨i,m',free',_,_,heq,_,hnone,_,hs,hframe⟩
  · rw [heq]
  · rw [heq]
    exact hframe a (Sound.untouched h ha) (Sound.untouched hs (ha.mono (inLive_update hnone)))

end OvsbMk.BuddyOperations
