import OvsbMk.SlabRuns

/-!
# `kfree` and the contents of a block

`kfree` tells slab objects from page-level blocks by the first word of the
page, and for a page-level block that word is the owner's data. Unless it is
the slab mark, the block and nothing else is released, whatever else the block
holds. When it is, the owner's data is taken for a slab header: the block is
not released unless the forged use counter happens to be one.
-/

namespace OvsbMk.KfreeContents

open ByteMemory IntrusiveList KernelMemory BuddyFreeLists DyadicTiling BuddyInvariant
  BuddyOperations SlabPages SlabInvariant SlabOperations SlabRuns
open BuddyRuns hiding State Step Reachable Consistent initial step_consistent Reachable.consistent

variable {L : Layout} {m m' : Bytes} {i k : ℕ} {user : Bool}

/-- Exactly the block is released: afterwards the same blocks and slabs are
live but this one, and only the block, the frame table, the list heads and the
links of free blocks may have changed. -/
def ReleasesExactly (L : Layout) (s : State) (i k : ℕ) (m' : Bytes) : Prop :=
  ∃ free live slabs free', Sound L s.memory free live none ∧
    Slabs L s.memory live slabs s.objects ∧ Joined s.blocks live slabs ∧
    Sound L m' free' (Function.update live i none) none ∧
    Slabs L m' (Function.update live i none) slabs s.objects ∧
    ∀ a, ¬BlockByte i k a → ¬FrameByte L a → ¬HeadByte L a →
      (∀ o j, j∈free o → ¬CellByte j a) → m' a=s.memory a

/-- The link cell of the head of a block lies in the block. -/
theorem blockByte_of_cell {a : ℕ} (h : CellByte i a) : BlockByte i k a := by
  have hpos := Nat.two_pow_pos k
  simp only [CellByte,BlockByte,frameToAddr_eq] at h ⊢
  omega

/-- The page path releases exactly the block. -/
theorem releases_of_page {s : State} (h : Consistent L s) (hb : s.blocks i=some (k,user))
    (hr : ∀ {free live slabs}, Sound L s.memory free live none → Joined s.blocks live slabs →
      Released L s.memory live (frameToAddr i) m') : ReleasesExactly L s i k m' := by
  obtain ⟨free,live,slabs,hs,h,_,hj⟩ := h
  have hrel := hr hs hj
  obtain ⟨free',hs',hframe⟩ := Released.sound hs hrel
  have hnew := hj.slab_ne hb
  have h' := Slabs.of_released h hs hrel hnew
  rw [releaseAt_frame] at hs' h'
  refine ⟨free,live,slabs,free',hs,h,hj,hs',h',?_⟩
  intro a hblock htag hhead hcell
  refine hframe a ⟨htag,hhead,?_⟩
  rintro j (haddr | ⟨o,hj⟩) hc
  · obtain rfl : j=i := by
      simp only [frameToAddr_eq] at haddr
      omega
    exact hblock (blockByte_of_cell hc)
  · exact hcell o j hj hc

/-- A block whose tag survives has not been released. -/
theorem not_releases_of_tag {s : State} (hb : s.blocks i=some (k,user))
    (htag : frameTag L m' i=frameTag L s.memory i) : ¬ReleasesExactly L s i k m' := by
  rintro ⟨free,live,slabs,free',hs,_,hj,hs',_,_⟩
  have hl := hj.live_of_block hb
  have hlow := hs'.otherTag (hs.live_lt hl) (by simp)
  rw [htag,hs.liveHead hl,liveTag] at hlow
  simp only [frameAlloc] at hlow
  omega

/-- Pushing a page on its own free list moves the upper half of the free list
word to the use counter. -/
theorem pushObject_self (m : Bytes) (s : ℕ) :
    load32 (pushObject m s s) (s+4)=(load32 m (s+20)+2^32-1)%2^32 := by
  have hword : load32 (store64 (store64 m s (load64 m (s+16))) (s+16) s) (s+4)=
      load32 m (s+20) := by
    have h1 : load32 (store64 (store64 m s (load64 m (s+16))) (s+16) s) (s+4)=
        load32 (store64 m s (load64 m (s+16))) (s+4) :=
      loadBytes_storeBytes_disjoint (by omega)
    have h2 := @loadBytes_storeBytes_inside m s (load64 m (s+16)) 4 8 4 (by norm_num)
    have h3 : load64 m (s+16)=load32 m (s+16)+256^4*load32 m (s+20) :=
      loadBytes_add m (s+16) 4 4
    have h4 := load32_lt m (s+16)
    have h5 := load32_lt m (s+20)
    rw [h1]
    refine h2.trans ?_
    rw [h3]
    omega
  simp only [pushObject]
  rw [hword,load32_store32_same (Nat.mod_lt _ (by norm_num))]

/-- With the slab mark in front and a forged use counter other than one, `kfree`
writes the first 24 bytes of the block and does not release it. -/
theorem kfree_forged {a : ℕ} (hi : i<frameCount)
    (hmark : load32 m (frameToAddr i)=slabMagic) (hcount : load32 m (frameToAddr i+20)≠1)
    (ha : a<frameToAddr i ∨ frameToAddr i+24≤a) : kfree L m (frameToAddr i) a=m a := by
  obtain ⟨hpos,hend,halign⟩ := frame_bounds hi
  obtain ⟨_,hwin,_,_⟩ := frameToAddr_range hi
  have hpage : pageOf (frameToAddr i)=frameToAddr i := pageOf_eq halign le_rfl (by omega) hend
  have hlt := load32_lt m (frameToAddr i+20)
  have hne : load32 (pushObject m (frameToAddr i) (frameToAddr i)) (frameToAddr i+4)≠0 := by
    rw [pushObject_self]
    omega
  have hfree : kfree L m (frameToAddr i)=pushObject m (frameToAddr i) (frameToAddr i) := by
    rw [kfree,if_neg (by omega),if_neg hwin,hpage,if_pos hmark,
      slabFree_eq (by omega) (by rwa [hpage]),hpage,if_neg hne]
  rw [hfree]
  exact pushObject_frame (by omega) (by omega) (by omega)

/-- `kfree` of a live block depends on the block's first word: any other word
than the slab mark releases exactly the block, and the mark does not, unless
the word after the free list pointer's lower half is one. -/
theorem kfree_releases_iff {s : State} (h : Reachable L s) (hb : s.blocks i=some (k,user)) :
    (load32 s.memory (frameToAddr i)≠slabMagic →
      ReleasesExactly L s i k (kfree L s.memory (frameToAddr i))) ∧
    (load32 s.memory (frameToAddr i+20)≠1 →
      (ReleasesExactly L s i k (kfree L s.memory (frameToAddr i)) ↔
        load32 s.memory (frameToAddr i)≠slabMagic)) := by
  have hgood : load32 s.memory (frameToAddr i)≠slabMagic →
      ReleasesExactly L s i k (kfree L s.memory (frameToAddr i)) := by
    intro hmark
    refine releases_of_page h.consistent hb fun hs hj => ?_
    obtain ⟨_,hend,halign⟩ := frame_bounds (hs.live_lt (hj.live_of_block hb))
    refine kfree_released hs (by omega) fun _ _ => ?_
    rwa [pageOf_eq halign le_rfl (by omega) hend]
  refine ⟨hgood,fun hcount => ⟨fun hrel hmark => ?_,hgood⟩⟩
  obtain ⟨free,live,slabs,hs,_,_,hj⟩ := h.consistent
  have hi := hs.live_lt (hj.live_of_block hb)
  refine not_releases_of_tag hb (frameTag_congr (kfree_forged hi hmark hcount ?_)) hrel
  have hheap := L.frames_heap
  have hi' : i<16384 := hi
  simp only [Apart,heapPhys,heapSize,frameCount,frameSize,frameToAddr_eq] at hheap ⊢
  omega

/-- Owners can store words in their blocks. -/
theorem Reachable.store {s : State} (h : Reachable L s) {addr count value : ℕ}
    (hown : ∀ a, addr≤a → a<addr+count → Owned s.blocks a) :
    Reachable L ⟨storeBytes s.memory addr count value,s.blocks,s.objects⟩ := by
  induction count with
  | zero =>
    have hsame : storeBytes s.memory addr 0 value=s.memory := by
      funext a
      exact storeBytes_outside (by omega)
    rw [hsame]
    exact h
  | succ count ih =>
    obtain ⟨m,hrun⟩ := ih fun a h1 h2 => hown a h1 (by omega)
    rw [storeBytes_succ]
    exact ⟨m,hrun.tail (Step.write _ (addr+count) _
      (Or.inr (Or.inl (hown (addr+count) (by omega) (by omega)))))⟩

/-- A fresh heap after a request of one page. -/
def onePage (L : Layout) (m : Bytes) : State :=
  ⟨(buddyAlloc L (initial L m).memory 0 false).2,
    granted (initial L m).blocks (buddyAlloc L (initial L m).memory 0 false).1 0 false,
    (initial L m).objects⟩

/-- The page is live at the start of the heap. -/
theorem onePage_block (L : Layout) (m : Bytes) : (onePage L m).blocks 0=some (0,false) := by
  have haddr : (buddyAlloc L (initial L m).memory 0 false).1=frameToAddr 0 :=
    buddyAlloc_initial L m false
  simp only [onePage]
  rw [haddr,granted,if_neg (by rw [frameToAddr_eq]; omega),
    addrToFrame_frameToAddr (by norm_num),Function.update_self]

/-- A request of 4096 bytes reaches this state. -/
theorem onePage_reachable (L : Layout) (m : Bytes) : Reachable L (onePage L m) := by
  have horder : orderFor (pagesFor 4096) 64 0=0 := by decide
  have hcall : kmalloc L (initial L m).memory 4096=
      some ((buddyAlloc L (initial L m).memory 0 false).1,
        (buddyAlloc L (initial L m).memory 0 false).2) := by
    rw [kmalloc_large (by norm_num),horder,Nat.cast_zero]
  have hstep := Step.kmallocPages (initial L m) 4096 _ _ (by norm_num) (by norm_num) hcall
  rw [horder] at hstep
  exact ⟨m,Relation.ReflTransGen.single hstep⟩

/-- The page after its owner stored a number in its first 24 bytes. -/
def filledPage (L : Layout) (m : Bytes) (value : ℕ) : State :=
  ⟨storeBytes (onePage L m).memory (frameToAddr 0) 24 value,(onePage L m).blocks,
    (onePage L m).objects⟩

/-- Filling the page is a run of ordinary owner's writes. -/
theorem filledPage_reachable (L : Layout) (m : Bytes) (value : ℕ) :
    Reachable L (filledPage L m value) := by
  refine Reachable.store (onePage_reachable L m) fun a h1 h2 => ?_
  refine ⟨0,0,false,onePage_block L m,h1,?_⟩
  simp only [frameToAddr_eq] at h2 ⊢
  omega

/-- The filled page is still the owner's. -/
theorem filledPage_block (L : Layout) (m : Bytes) (value : ℕ) :
    (filledPage L m value).blocks 0=some (0,false) := by
  simp only [filledPage]
  exact onePage_block L m

/-- The words of a filled page. -/
theorem filledPage_load (L : Layout) (m : Bytes) (value : ℕ) {offset : ℕ} (h : offset+4≤24) :
    load32 (filledPage L m value).memory (frameToAddr 0+offset)=value/256^offset%256^4 :=
  loadBytes_storeBytes_inside h

/-- A page that holds nothing but the slab mark keeps its tag. -/
theorem markedPage_kept (L : Layout) (m : Bytes) :
    frameTag L (kfree L (filledPage L m slabMagic).memory (frameToAddr 0)) 0=
      frameTag L (filledPage L m slabMagic).memory 0 := by
  refine frameTag_congr (kfree_forged (by norm_num) ?_ ?_ ?_)
  · exact @filledPage_load L m slabMagic 0 (by norm_num)
  · rw [filledPage_load L m slabMagic (by norm_num)]
    norm_num
  · have hheap := L.frames_heap
    simp only [Apart,heapPhys,heapSize,frameCount,frameSize,frameToAddr_eq] at hheap ⊢
    omega

/-- A live page that starts with the slab mark is not released by `kfree`. -/
theorem markedPage_not_released :
    Reachable sampleLayout (filledPage sampleLayout (fun _ => 0) slabMagic) ∧
      (filledPage sampleLayout (fun _ => 0) slabMagic).blocks 0=some (0,false) ∧
      ¬ReleasesExactly sampleLayout (filledPage sampleLayout (fun _ => 0) slabMagic) 0 0
        (kfree sampleLayout (filledPage sampleLayout (fun _ => 0) slabMagic).memory
          (frameToAddr 0)) :=
  ⟨filledPage_reachable sampleLayout (fun _ => 0) slabMagic,
    filledPage_block sampleLayout (fun _ => 0) slabMagic,
    not_releases_of_tag (filledPage_block sampleLayout (fun _ => 0) slabMagic)
      (markedPage_kept sampleLayout fun _ => 0)⟩

/-- A live page that starts with a zero word is released. -/
theorem zeroPage_released :
    ReleasesExactly sampleLayout (filledPage sampleLayout (fun _ => 0) 0) 0 0
      (kfree sampleLayout (filledPage sampleLayout (fun _ => 0) 0).memory (frameToAddr 0)) := by
  refine (kfree_releases_iff (filledPage_reachable sampleLayout (fun _ => 0) 0)
    (filledPage_block sampleLayout (fun _ => 0) 0)).1 ?_
  have hload := @filledPage_load sampleLayout (fun _ => 0) 0 0 (by norm_num)
  rw [Nat.add_zero] at hload
  rw [hload]
  norm_num

end OvsbMk.KfreeContents
