import OvsbMk.BuddyRuns
import OvsbMk.MachO

/-!
# Where programs are loaded

The loader puts the first segment of every program at a fixed address, and
that address lies inside the heap window of the page allocator. Loading is
therefore safe for the heap exactly when nothing is loaded.
-/

namespace OvsbMk.ImageRegion

open ByteMemory KernelMemory BuddyFreeLists DyadicTiling BuddyInvariant BuddyRuns MachO

variable {L : Layout} {s : State}

/-- The written addresses meet no free block, and no live block but the
loader's own. -/
def ImageApart (L : Layout) (s : State) (own : ℕ → Prop) (written : List ℕ) : Prop :=
  ∀ a∈written,
    (∀ i k user, s.live i=some (k,user) → ¬own i → ¬BlockByte i k a) ∧
    ∀ free, Partition L s free → ∀ i k, i∈free k → ¬BlockByte i k a

/-- Frame of a heap address. -/
theorem frame_of_heap {a : ℕ} (h : heapPhys≤a ∧ a<heapPhys+heapSize) :
    ∃ j, j<frameCount ∧ frameToAddr j≤a ∧ a<frameToAddr j+4096 := by
  refine ⟨(a-heapPhys)/4096,?_,?_,?_⟩
  · simp only [heapPhys,heapSize,frameCount,frameSize] at h ⊢
    omega
  · simp only [frameToAddr_eq,heapPhys,heapSize] at h ⊢
    omega
  · simp only [frameToAddr_eq,heapPhys,heapSize] at h ⊢
    omega

/-- A byte of a covered frame is a byte of the block. -/
theorem blockByte_of_covers {i k j a : ℕ} (hc : Covers i k j) (h1 : frameToAddr j≤a)
    (h2 : a<frameToAddr j+4096) : BlockByte i k a := by
  obtain ⟨hc1,hc2⟩ := hc
  simp only [BlockByte,frameToAddr_eq] at h1 h2 ⊢
  omega

/-- Blocks lie inside the heap. -/
theorem blockByte_heap {free : ℕ → List ℕ} {c : Holder} {i k a : ℕ} (hp : Partition L s free)
    (hb : blocks free s.live none c i k) (ha : BlockByte i k a) :
    heapPhys≤a ∧ a<heapPhys+heapSize := by
  have hend : i+2^k≤16384 := (hp.inside c i k hb).2
  simp only [BlockByte,frameToAddr_eq] at ha
  simp only [heapPhys,heapSize]
  omega

/-- A byte belongs to one block only. -/
theorem block_unique {free : ℕ → List ℕ} {c d : Holder} {i k i' k' a : ℕ}
    (hp : Partition L s free) (hb : blocks free s.live none c i k)
    (hb' : blocks free s.live none d i' k') (ha : BlockByte i k a) (ha' : BlockByte i' k' a) :
    c=d ∧ i=i' := by
  obtain ⟨j,hj,h1,h2⟩ := frame_of_heap (blockByte_heap hp hb ha)
  have hcover : ∀ {i k}, BlockByte i k a → Covers i k j := by
    intro i k hbyte
    simp only [BlockByte,frameToAddr_eq] at hbyte h1 h2
    exact ⟨by omega,by omega⟩
  obtain ⟨b,_,huniq⟩ := hp.partition j hj
  have heq := (huniq (c,i,k) ⟨hb,hcover ha⟩).trans (huniq (d,i',k') ⟨hb',hcover ha'⟩).symm
  cases heq
  exact ⟨rfl,rfl⟩

/-- Writes are apart from other blocks exactly when all heap bytes among them
belong to the loader's own blocks. -/
theorem imageApart_iff {free : ℕ → List ℕ} (hp : Partition L s free) (own : ℕ → Prop)
    (written : List ℕ) :
    ImageApart L s own written ↔
      ∀ a∈written, heapPhys≤a → a<heapPhys+heapSize →
        ∃ i k user, s.live i=some (k,user) ∧ own i ∧ BlockByte i k a := by
  constructor
  · intro h a ha h1 h2
    obtain ⟨hlive,hfree⟩ := h a ha
    obtain ⟨j,hj,hj1,hj2⟩ := frame_of_heap ⟨h1,h2⟩
    obtain ⟨⟨c,i,k⟩,⟨hb,hc⟩,_⟩ := hp.partition j hj
    have hbyte := blockByte_of_covers hc hj1 hj2
    cases c with
    | free => exact (hfree free hp i k hb hbyte).elim
    | live user =>
      by_contra hnone
      exact hlive i k user hb (fun how => hnone ⟨i,k,user,hb,how,hbyte⟩) hbyte
    | held => cases hb
  · intro h a ha
    refine ⟨?_,?_⟩
    · intro i k user hl hown hbyte
      obtain ⟨h1,h2⟩ := blockByte_heap hp (c:=.live user) hl hbyte
      obtain ⟨i',k',user',hl',how,hbyte'⟩ := h a ha h1 h2
      obtain ⟨_,rfl⟩ := block_unique hp (c:=.live user) (d:=.live user') hl hl' hbyte hbyte'
      exact hown how
    · intro free' hp' i k hi hbyte
      obtain ⟨h1,h2⟩ := blockByte_heap hp' (c:=.free) hi hbyte
      obtain ⟨i',k',user',hl',_,hbyte'⟩ := h a ha h1 h2
      have heq := (block_unique hp' (c:=.free) (d:=.live user') hi hl' hbyte hbyte').1
      cases heq

/-- With file bytes to load, the slide address is written; it lies in the heap,
so some block of another owner or free block is hit. -/
theorem not_imageApart {free : ℕ → List ℕ} {data : ℕ} {own : ℕ → Prop} (hp : Partition L s free)
    (hown : ∀ i k user, s.live i=some (k,user) → own i → ¬BlockByte i k slide)
    (hcontents : HasContents s.memory data) :
    ¬ImageApart L s own (machOLoad s.memory data).written := by
  rw [imageApart_iff hp own]
  intro hall
  obtain ⟨i,k,user,hl,how,hbyte⟩ := hall slide ((machOLoad_written s.memory data).1 hcontents)
    (by norm_num) (by norm_num)
  exact hown i k user hl how hbyte

/-- Loading a program leaves other owners' blocks and the free blocks alone when
the file has no segment with file bytes, and only then, unless the loader itself
owns the block at the slide address. -/
theorem load_apart_iff (h : Reachable L s) (data : ℕ) (own : ℕ → Prop) :
    (¬HasContents s.memory data → ImageApart L s own (machOLoad s.memory data).written) ∧
    ((∀ i k user, s.live i=some (k,user) → own i → ¬BlockByte i k slide) →
      (ImageApart L s own (machOLoad s.memory data).written ↔ ¬HasContents s.memory data)) := by
  obtain ⟨free,hs⟩ := h.consistent
  have hnone : ¬HasContents s.memory data →
      ImageApart L s own (machOLoad s.memory data).written := by
    intro hcontents a ha
    rw [(machOLoad_written s.memory data).2 hcontents] at ha
    cases ha
  exact ⟨hnone,fun hown => ⟨fun hapart hcontents =>
    not_imageApart (partition_of_sound hs) hown hcontents hapart,hnone⟩⟩

/-- In every reachable state, a packed program with any code at all is taken and
loaded over a block that is not the loader's. -/
theorem packed_hit {m : Bytes} {data entryOffset : ℕ} {code : List UInt8} {own : ℕ → Prop}
    (h : Reachable L s) (hmem : s.memory=placed m data (pack code entryOffset))
    (hpos : 0<code.length) (hentry : entryOffset<2^64-slide)
    (hdata : data+(128+code.length) ≤ slide)
    (hown : ∀ i k user, s.live i=some (k,user) → own i → ¬BlockByte i k slide) :
    (machOLoad s.memory data).entry≠0 ∧
      ¬ImageApart L s own (machOLoad s.memory data).written := by
  have hpack := @machOLoad_pack m data entryOffset code hpos
    (by simp only [slide] at hdata ⊢; omega) (by omega) (hdata.trans (by norm_num)) (Or.inl hdata)
  rw [← hmem] at hpack
  obtain ⟨free,hs⟩ := h.consistent
  refine ⟨?_,not_imageApart (partition_of_sound hs) hown hpack.1⟩
  rw [hpack.2]
  simp only [slide] at hentry ⊢
  omega

/-- A fresh heap after a request of one page for the file buffer. -/
def bufferPage (L : Layout) (m : Bytes) : State :=
  ⟨(buddyAlloc L (initial L m).memory 0 false).2,
    granted (initial L m).live (buddyAlloc L (initial L m).memory 0 false).1 0 false⟩

/-- The buffer is the first frame of the heap. -/
theorem bufferPage_live (L : Layout) (m : Bytes) :
    (bufferPage L m).live=Function.update (fun _ : ℕ => none) 0 (some (0,false)) := by
  have haddr : (buddyAlloc L (initial L m).memory 0 false).1=frameToAddr 0 :=
    buddyAlloc_initial L m false
  simp only [bufferPage]
  rw [haddr,granted,if_neg (by rw [frameToAddr_eq]; omega),
    addrToFrame_frameToAddr (by norm_num)]
  rfl

/-- A request of 2097 bytes reaches this state. -/
theorem bufferPage_reachable (L : Layout) (m : Bytes) : Reachable L (bufferPage L m) := by
  have horder : orderFor (pagesFor 2097) 64 0=0 := by decide
  have hcall : kmalloc L (initial L m).memory 2097=
      some ((buddyAlloc L (initial L m).memory 0 false).1,
        (buddyAlloc L (initial L m).memory 0 false).2) := by
    rw [kmalloc_large (by norm_num),horder,Nat.cast_zero]
  have hstep := Step.kmalloc (initial L m) 2097 _ _ (by norm_num) (by norm_num) hcall
  rw [horder] at hstep
  exact ⟨m,Relation.ReflTransGen.single hstep⟩

/-- Owners can fill their blocks byte by byte. -/
theorem Reachable.placed (h : Reachable L s) {data : ℕ} {file : List UInt8}
    (hown : ∀ a, data≤a → a<data+file.length → Owned s.live a) :
    Reachable L ⟨placed s.memory data file,s.live⟩ := by
  induction file using List.reverseRecOn with
  | nil =>
    have hsame : MachO.placed s.memory data []=s.memory := by
      funext a
      rw [MachO.placed,if_neg (by simp only [List.length_nil]; omega)]
    rw [hsame]
    exact h
  | append_singleton file b ih =>
    obtain ⟨m,hrun⟩ := ih fun a h1 h2 => hown a h1 (by rw [List.length_append]; omega)
    have hlast := hown (data+file.length) (by omega)
      (by rw [List.length_append,List.length_singleton]; omega)
    have hnext : MachO.placed s.memory data (file++[b])=
        Function.update (MachO.placed s.memory data file) (data+file.length) b := by
      funext a
      by_cases ha : a=data+file.length
      · subst ha
        rw [Function.update_self,MachO.placed,if_pos (by simp),List.getD_append_right _ _ _ _ (by omega)]
        simp
      · rw [Function.update_of_ne ha,MachO.placed,MachO.placed,List.length_append,
          List.length_singleton]
        by_cases hin : data≤a ∧ a<data+file.length
        · rw [if_pos hin,if_pos (by omega),List.getD_append _ _ _ _ (by omega)]
        · rw [if_neg hin,if_neg (by omega)]
    rw [hnext]
    exact ⟨m,hrun.tail (Step.write _ _ _ (Or.inl hlast))⟩

/-- The code of a small program. -/
def sampleCode : List UInt8 := List.replicate 1968 0x90

/-- The buffer page with a packed program in it. -/
def loadedPage (L : Layout) (m : Bytes) (code : List UInt8) : State :=
  ⟨placed (bufferPage L m).memory (frameToAddr 0) (pack code 0),(bufferPage L m).live⟩

/-- Reading the file into the buffer is a run of owner's writes. -/
theorem loadedPage_reachable (L : Layout) (m : Bytes) {code : List UInt8}
    (hcode : code.length=1968) : Reachable L (loadedPage L m code) := by
  refine Reachable.placed (bufferPage_reachable L m) fun a h1 h2 => ?_
  refine ⟨0,0,false,by rw [bufferPage_live,Function.update_self],h1,?_⟩
  rw [pack_length,hcode] at h2
  simp only [frameToAddr_eq] at h2 ⊢
  omega

/-- The buffer does not reach the slide address. -/
theorem loadedPage_buffer (L : Layout) (m : Bytes) (code : List UInt8) :
    ∀ i k user, (loadedPage L m code).live i=some (k,user) → i=0 → ¬BlockByte i k slide := by
  rintro i k user hl rfl hbyte
  simp only [loadedPage] at hl
  rw [bufferPage_live,Function.update_self] at hl
  cases hl
  simp only [BlockByte,frameToAddr_eq,slide] at hbyte
  omega

/-- A packed program of 1968 bytes, read into a page of the heap, is loaded over
a free part of the heap. -/
theorem packed_program_overlaps :
    ∃ s, Reachable sampleLayout s ∧
      s.memory=placed (bufferPage sampleLayout fun _ => 0).memory (frameToAddr 0)
        (pack sampleCode 0) ∧
      (machOLoad s.memory (frameToAddr 0)).entry≠0 ∧
      ¬ImageApart sampleLayout s (fun i => i=0) (machOLoad s.memory (frameToAddr 0)).written := by
  have hlen : sampleCode.length=1968 := List.length_replicate
  have hreach := loadedPage_reachable sampleLayout (fun _ => 0) hlen
  have hbuffer := loadedPage_buffer sampleLayout (fun _ => 0) sampleCode
  have hmem : (loadedPage sampleLayout (fun _ => 0) sampleCode).memory=
      placed (bufferPage sampleLayout fun _ => 0).memory (frameToAddr 0) (pack sampleCode 0) := by
    simp only [loadedPage]
  exact ⟨_,hreach,hmem,packed_hit hreach hmem (by omega) (by norm_num)
    (by rw [hlen,frameToAddr_eq]; norm_num) hbuffer⟩

/-- In the sample state no block of the loader is in the way, so the condition is
exact there. -/
theorem sampleState_apart_iff :
    ImageApart sampleLayout sampleState (fun _ => False)
        (machOLoad sampleState.memory (frameToAddr 0)).written ↔
      ¬HasContents sampleState.memory (frameToAddr 0) :=
  (load_apart_iff sampleState_reachable (frameToAddr 0) (fun _ => False)).2 fun _ _ _ _ how _ => how

end OvsbMk.ImageRegion
