import OvsbMk.KernelMemory
import Mathlib.Data.Nat.Bitwise

/-!
# Free lists of the buddy allocator in memory

The fifteen lists are described by the frame indices they hold, in order.
Adding and removing a block and writing a frame tag are the only primitive
changes the allocator makes; each is shown to do to the described lists what
its name says, and to touch nothing but list heads, links of listed blocks
and the one tag.
-/

namespace OvsbMk.BuddyFreeLists

open ByteMemory IntrusiveList KernelMemory

variable {L : Layout} {m m' : Bytes} {free : ℕ → List ℕ} {o i : ℕ}

/-- The address of a frame, in linear form. -/
theorem frameToAddr_eq (idx : ℕ) : frameToAddr idx=0x900000+4096*idx := by
  simp only [frameToAddr,Nat.shiftLeft_eq,heapPhys,frameShift]
  omega

/-- The frame index is recovered from a frame address. -/
theorem addrToFrame_frameToAddr {idx : ℕ} (h : idx<frameCount) :
    addrToFrame (frameToAddr idx)=idx := by
  have h' : idx<16384 := h
  simp only [frameToAddr_eq,addrToFrame,Nat.shiftRight_eq_div_pow,heapPhys,frameShift]
  omega

/-- Frame tags are bytes. -/
theorem frameTag_lt (L : Layout) (m : Bytes) (idx : ℕ) : frameTag L m idx<256 :=
  loadBytes_lt m _ 1

/-- A written tag is read back, cut to a byte. -/
theorem frameTag_setFrame_same {value : ℕ} :
    frameTag L (setFrame L m i value) i=value%256 := by
  have h := @loadBytes_storeBytes_same m (L.frames+i) value 1
  rw [pow_one] at h
  exact h

/-- Writing one tag leaves the others alone. -/
theorem frameTag_setFrame_other {j value : ℕ} (h : j≠i) :
    frameTag L (setFrame L m i value) j=frameTag L m j :=
  loadBytes_storeBytes_disjoint (by omega)

/-- A tag depends on its own byte. -/
theorem frameTag_congr (h : m' (L.frames+i)=m (L.frames+i)) :
    frameTag L m' i=frameTag L m i := by
  apply loadBytes_congr
  intro a h1 h2
  obtain rfl : a=L.frames+i := by omega
  exact h

/-- The byte belongs to the frame table. -/
def FrameByte (L : Layout) (a : ℕ) : Prop := L.frames≤a ∧ a<L.frames+frameCount

/-- The byte is part of a list head. -/
def HeadByte (L : Layout) (a : ℕ) : Prop := L.freeArea≤a ∧ a<L.freeArea+8*(maxOrder+1)

/-- The byte is part of the link cell of a frame. -/
def CellByte (idx a : ℕ) : Prop := frameToAddr idx≤a ∧ a<frameToAddr idx+16

/-- The fifteen lists hold exactly the described frames, none of them twice. -/
structure FreeLists (L : Layout) (m : Bytes) (free : ℕ → List ℕ) : Prop where
  /-- The memory holds each list. -/
  listed : ∀ o, o ≤ maxOrder → Listed freeBlockLinks m (areaHead L o) ((free o).map frameToAddr)
  /-- Listed frames are frames of the heap. -/
  inside : ∀ {o i}, i∈free o → i<frameCount
  /-- There are no lists past the largest order. -/
  order_le : ∀ {o i}, i∈free o → o ≤ maxOrder
  /-- No frame is on two lists. -/
  unique : ∀ {o o' i}, i∈free o → i∈free o' → o=o'

/-- Cells of different frames are disjoint. -/
theorem cell_apart {x y : ℕ} (h : x≠y) :
    Apart (frameToAddr x) freeBlockLinks.span (frameToAddr y) freeBlockLinks.span := by
  simp only [Apart,frameToAddr_eq,freeBlockLinks]
  omega

/-- Cells of heap frames do not meet the list heads. -/
theorem cell_head_apart (L : Layout) (hi : i<frameCount) (ho : o ≤ maxOrder) :
    Apart (frameToAddr i) freeBlockLinks.span (areaHead L o) 8 := by
  have h := L.freeArea_heap
  have hi' : i<16384 := hi
  simp only [Apart,frameToAddr_eq,freeBlockLinks,areaHead,heapPhys,heapSize,maxOrder] at *
  omega

/-- Different list heads are different words. -/
theorem head_apart (L : Layout) {o' : ℕ} (h : o≠o') : Apart (areaHead L o) 8 (areaHead L o') 8 := by
  simp only [Apart,areaHead]
  omega

/-- A list head consists of head bytes. -/
theorem headByte_of_area {a : ℕ} (ho : o ≤ maxOrder) (h1 : areaHead L o≤a)
    (h2 : a<areaHead L o+8) : HeadByte L a := by
  simp only [HeadByte,areaHead,maxOrder] at *
  omega

/-- Link cells of heap frames hold no tag and no list head. -/
theorem cellByte_heap (L : Layout) {a : ℕ} (hi : i<frameCount) (ha : CellByte i a) :
    ¬FrameByte L a ∧ ¬HeadByte L a := by
  have h1 := L.frames_heap
  have h2 := L.freeArea_heap
  have hi' : i<16384 := hi
  simp only [Apart,CellByte,FrameByte,HeadByte,frameToAddr_eq,heapPhys,heapSize,frameCount,
    frameSize,maxOrder] at *
  omega

/-- The frame table holds no list head. -/
theorem frameByte_headByte (L : Layout) {a : ℕ} (h : FrameByte L a) : ¬HeadByte L a := by
  have h1 := L.frames_freeArea
  simp only [Apart,FrameByte,HeadByte,heapSize,frameCount,frameSize,maxOrder] at *
  omega

/-- Listed frames are distinct. -/
theorem FreeLists.nodup (h : FreeLists L m free) (o : ℕ) : (free o).Nodup := by
  rcases Nat.lt_or_ge maxOrder o with ho | ho
  · have he : free o=[] := by
      apply List.eq_nil_iff_forall_not_mem.mpr
      intro i hi
      have := h.order_le hi
      omega
    simp [he]
  · exact (h.listed o ho).nodup.of_map _

/-- The lists survive every change outside list heads and link cells. -/
theorem FreeLists.transport (h : FreeLists L m free)
    (hhead : ∀ a, HeadByte L a → m' a=m a)
    (hcell : ∀ o i, i∈free o → ∀ a, CellByte i a → m' a=m a) : FreeLists L m' free := by
  refine ⟨fun o ho => (h.listed o ho).transport ?_ ?_,h.inside,h.order_le,h.unique⟩
  · intro a h1 h2
    exact hhead a (headByte_of_area ho h1 h2)
  · intro x hx a h1 h2
    obtain ⟨i,hi,rfl⟩ := List.mem_map.mp hx
    exact hcell o i hi a ⟨h1,h2⟩

/-- Writing a tag keeps the lists. -/
theorem FreeLists.setFrame {value : ℕ} (h : FreeLists L m free) (hi : i<frameCount) :
    FreeLists L (setFrame L m i value) free := by
  have hout : ∀ a, ¬FrameByte L a → KernelMemory.setFrame L m i value a=m a := by
    intro a ha
    apply storeBytes_outside
    simp only [FrameByte] at ha
    omega
  apply h.transport
  · intro a ha
    exact hout a fun hf => frameByte_headByte L hf ha
  · intro o j hj a ha
    exact hout a (cellByte_heap L (h.inside hj) ha).1

/-- Writing a tag changes one byte of the frame table. -/
theorem setFrame_frame {value a : ℕ} (h : ¬FrameByte L a) (hi : i<frameCount) :
    setFrame L m i value a=m a := by
  apply storeBytes_outside
  simp only [FrameByte] at h
  omega

/-- Membership after a frame was put in front of one list. -/
theorem mem_update_cons {k j : ℕ} :
    j∈Function.update free o (i::free o) k ↔ j∈free k ∨ (j=i ∧ k=o) := by
  by_cases hk : k=o
  · subst hk
    simp [or_comm]
  · simp [hk]

/-- Membership after a frame was taken off one list. -/
theorem mem_update_erase {k j : ℕ} (hnd : (free o).Nodup) :
    j∈Function.update free o ((free o).erase i) k ↔ j∈free k ∧ ¬(j=i ∧ k=o) := by
  by_cases hk : k=o
  · subst hk
    simp [hnd.mem_erase_iff,and_comm]
  · simp [hk]

/-- The source's insertion is the generic one. -/
theorem listAdd_eq (m : Bytes) (head blk : ℕ) :
    listAdd m head blk=pushFront freeBlockLinks m head blk := rfl

/-- The source's removal is the generic one. -/
theorem listRemove_eq (m : Bytes) (head blk : ℕ) :
    listRemove m head blk=unlink freeBlockLinks m head blk := rfl

/-- Insertion touches list heads, the new cell and cells of listed frames. -/
theorem listAdd_frame {a : ℕ} (h : FreeLists L m free) (ho : o ≤ maxOrder) (hi : i<frameCount)
    (hhead : ¬HeadByte L a) (hnew : ¬CellByte i a)
    (hcell : ∀ o j, j∈free o → ¬CellByte j a) :
    listAdd m (areaHead L o) (frameToAddr i) a=m a := by
  rw [listAdd_eq]
  refine pushFront_frame (h.listed o ho) (cell_head_apart L hi ho) ?_ ?_ ?_
  · by_contra hc
    exact hhead (headByte_of_area ho (by omega) (by omega))
  · by_contra hc
    refine hnew ⟨by omega,?_⟩
    have : freeBlockLinks.span=16 := rfl
    omega
  · intro x hx
    obtain ⟨j,hj,rfl⟩ := List.mem_map.mp hx
    by_contra hc
    refine hcell o j hj ⟨by omega,?_⟩
    have : freeBlockLinks.span=16 := rfl
    omega

/-- Insertion puts the frame in front of its list and keeps the others. -/
theorem FreeLists.add (h : FreeLists L m free) (ho : o ≤ maxOrder) (hi : i<frameCount)
    (hnew : ∀ k, i∉free k) :
    FreeLists L (listAdd m (areaHead L o) (frameToAddr i))
      (Function.update free o (i::free o)) := by
  have hne : ∀ k j, j∈free k → j≠i := fun k j hj he => hnew k (he ▸ hj)
  refine ⟨?_,?_,?_,?_⟩
  · intro k hk
    by_cases hko : k=o
    · subst hko
      rw [Function.update_self,List.map_cons,listAdd_eq]
      refine listed_pushFront (h.listed k hk) ?_ ?_ ?_ (cell_head_apart L hi hk)
      · rw [frameToAddr_eq]
        omega
      · have hi' : i<16384 := hi
        rw [frameToAddr_eq]
        omega
      · intro x hx
        obtain ⟨j,hj,rfl⟩ := List.mem_map.mp hx
        exact cell_apart (hne k j hj).symm
    · rw [Function.update_of_ne hko]
      have hap := cell_head_apart L hi ho
      refine (h.listed k hk).transport ?_ ?_
      · intro a h1 h2
        rw [listAdd_eq]
        have hheads := head_apart L hko
        simp only [Apart] at hheads hap
        refine pushFront_frame (h.listed o ho) hap (by omega) ?_ ?_
        · have := cell_head_apart L hi hk
          simp only [Apart] at this
          omega
        · intro x hx
          obtain ⟨j,hj,rfl⟩ := List.mem_map.mp hx
          have := cell_head_apart L (h.inside hj) hk
          simp only [Apart] at this
          omega
      · intro x hx a h1 h2
        obtain ⟨j,hj,rfl⟩ := List.mem_map.mp hx
        have hcell : CellByte j a := ⟨h1,h2⟩
        rw [listAdd_eq]
        refine pushFront_frame (h.listed o ho) hap ?_ ?_ ?_
        · have := cell_head_apart L (h.inside hj) ho
          simp only [Apart] at this
          omega
        · have := cell_apart (hne k j hj)
          simp only [Apart] at this
          omega
        · intro y hy
          obtain ⟨j',hj',rfl⟩ := List.mem_map.mp hy
          have hjj : j≠j' := by
            rintro rfl
            exact hko (h.unique hj hj')
          have := cell_apart hjj
          simp only [Apart] at this
          omega
  · intro k j hj
    rcases mem_update_cons.mp hj with hj | ⟨rfl,_⟩
    · exact h.inside hj
    · exact hi
  · intro k j hj
    rcases mem_update_cons.mp hj with hj | ⟨_,rfl⟩
    · exact h.order_le hj
    · exact ho
  · intro k k' j hj hj'
    rcases mem_update_cons.mp hj with hj | ⟨he,hk⟩ <;>
      rcases mem_update_cons.mp hj' with hj' | ⟨he',hk'⟩
    · exact h.unique hj hj'
    · exact (hnew k (he' ▸ hj)).elim
    · exact (hnew k' (he ▸ hj')).elim
    · exact hk.trans hk'.symm

/-- Removal touches list heads and cells of listed frames. -/
theorem listRemove_frame {a : ℕ} (h : FreeLists L m free) (hi : i∈free o)
    (hhead : ¬HeadByte L a) (hcell : ∀ o j, j∈free o → ¬CellByte j a) :
    listRemove m (areaHead L o) (frameToAddr i) a=m a := by
  have ho := h.order_le hi
  have hspan : freeBlockLinks.span=16 := rfl
  rw [listRemove_eq]
  refine unlink_map_frame (h.listed o ho) hi ?_ fun j hj => ?_
  · by_contra hc
    exact hhead (headByte_of_area ho (by omega) (by omega))
  · by_contra hc
    exact hcell o j hj ⟨by omega,by omega⟩

/-- Removal takes the frame off its list and keeps the others. -/
theorem FreeLists.remove (h : FreeLists L m free) (hi : i∈free o) :
    FreeLists L (listRemove m (areaHead L o) (frameToAddr i))
      (Function.update free o ((free o).erase i)) := by
  have ho := h.order_le hi
  have hmem : ∀ {k j}, j∈Function.update free o ((free o).erase i) k → j∈free k :=
    fun hj => ((mem_update_erase (h.nodup o)).mp hj).1
  refine ⟨?_,fun hj => h.inside (hmem hj),fun hj => h.order_le (hmem hj),
    fun hj hj' => h.unique (hmem hj) (hmem hj')⟩
  intro k hk
  rw [listRemove_eq]
  by_cases hko : k=o
  · subst hko
    rw [Function.update_self]
    exact listed_unlink_map (h.listed k hk) hi
  · rw [Function.update_of_ne hko]
    refine (h.listed k hk).transport ?_ ?_
    · intro a h1 h2
      refine unlink_map_frame (h.listed o ho) hi ?_ fun j hj => ?_
      · have := head_apart L hko
        simp only [Apart] at this
        omega
      · have := cell_head_apart L (h.inside hj) hk
        simp only [Apart] at this
        omega
    · intro x hx a h1 h2
      obtain ⟨j,hj,rfl⟩ := List.mem_map.mp hx
      refine unlink_map_frame (h.listed o ho) hi ?_ fun j' hj' => ?_
      · have := cell_head_apart L (h.inside hj) ho
        simp only [Apart] at this
        omega
      · have hjj : j≠j' := by
          rintro rfl
          exact hko (h.unique hj hj')
        have := cell_apart hjj
        simp only [Apart] at this
        omega

/-- Tags are not part of any link cell or list head. -/
theorem frameByte_tag (h : i<frameCount) : FrameByte L (L.frames+i) := by
  simp only [FrameByte]
  omega

/-- Insertion keeps all tags. -/
theorem frameTag_listAdd {j : ℕ} (h : FreeLists L m free) (ho : o ≤ maxOrder) (hi : i<frameCount)
    (hj : j<frameCount) :
    frameTag L (listAdd m (areaHead L o) (frameToAddr i)) j=frameTag L m j := by
  have hf := frameByte_tag (L:=L) hj
  exact frameTag_congr (listAdd_frame h ho hi (frameByte_headByte L hf)
    (fun hc => (cellByte_heap L hi hc).1 hf)
    (fun _ _ hmem hc => (cellByte_heap L (h.inside hmem) hc).1 hf))

/-- Removal keeps all tags. -/
theorem frameTag_listRemove {j : ℕ} (h : FreeLists L m free) (hi : i∈free o)
    (hj : j<frameCount) :
    frameTag L (listRemove m (areaHead L o) (frameToAddr i)) j=frameTag L m j := by
  have hf := frameByte_tag (L:=L) hj
  exact frameTag_congr (listRemove_frame h hi (frameByte_headByte L hf)
    (fun _ _ hmem hc => (cellByte_heap L (h.inside hmem) hc).1 hf))

/-- The head word of a list names its first frame, or is null. -/
theorem FreeLists.head_eq (h : FreeLists L m free) (ho : o ≤ maxOrder) :
    load64 m (areaHead L o)=((free o).map frameToAddr).headD 0 :=
  (h.listed o ho).head_eq

end OvsbMk.BuddyFreeLists
