import OvsbMk.BuddyOperations

/-!
# Runs of the page allocator

The allocator together with what its owners hold: a state is the memory and
the map of live blocks, and a step is one call of an allocation or release
entry point, or one byte written by an owner. The buddy invariant holds after
`memory_init` and is kept by every step, so it holds in every reachable
state. From it follow the partition of the heap into blocks and the exact
condition under which an allocation fails.
-/

namespace OvsbMk.BuddyRuns

open ByteMemory IntrusiveList KernelMemory BuddyFreeLists DyadicTiling BuddyInvariant
  BuddyOperations

variable {L : Layout} {m m' : Bytes} {free : ℕ → List ℕ} {live : LiveMap} {i k : ℕ}

/-- The byte belongs to a cache record. -/
def CacheByte (L : Layout) (a : ℕ) : Prop :=
  L.kmallocCaches≤a ∧ a<L.kmallocCaches+cacheCount*cacheRecord

/-- Setting up a cache writes its own record only. -/
theorem initCache_frame {a : ℕ} (hi : i<cacheCount) (ha : ¬CacheByte L a) :
    initCache L m i a=m a := by
  have hi' : i<8 := hi
  simp only [CacheByte,cacheCount,cacheRecord] at ha
  simp only [initCache,cacheAddr,store32,store64,cacheRecord]
  rw [storeBytes_outside (by omega),storeBytes_outside (by omega),storeBytes_outside (by omega)]

/-- Setting up the caches writes cache records only. -/
theorem initCaches_frame {a : ℕ} (ha : ¬CacheByte L a) :
    (List.range cacheCount).foldl (initCache L) m a=m a :=
  foldl_range_keep (P:=fun m' => m' a=m a) rfl
    (fun _ _ hi h => (initCache_frame hi ha).trans h)

/-- Cache records hold no tag, no list head and no heap byte. -/
theorem not_cacheByte {a : ℕ} (h : FrameByte L a ∨ HeadByte L a ∨
    heapPhys≤a ∧ a<heapPhys+heapSize) : ¬CacheByte L a := by
  have h1 := L.frames_caches
  have h2 := L.freeArea_caches
  have h3 := L.caches_heap
  simp only [Apart,FrameByte,HeadByte,CacheByte,heapPhys,heapSize,frameCount,frameSize,
    maxOrder,cacheCount,cacheRecord] at *
  omega

/-- A list head is left alone by writes of 8 bytes outside the head table. -/
theorem head_store_heap {o addr value : ℕ} (ho : o ≤ maxOrder) (h1 : heapPhys≤addr)
    (h2 : addr+8≤heapPhys+heapSize) :
    load64 (store64 m addr value) (areaHead L o)=load64 m (areaHead L o) := by
  apply load64_store64_disjoint
  have h := L.freeArea_heap
  simp only [Apart,areaHead,heapPhys,heapSize,maxOrder] at *
  omega

/-- A list head is left alone by tag writes. -/
theorem head_setFrame {o value : ℕ} (ho : o ≤ maxOrder) (hi : i<frameCount) :
    load64 (setFrame L m i value) (areaHead L o)=load64 m (areaHead L o) := by
  apply load64_congr
  intro a h1 h2
  exact setFrame_frame (fun hf => frameByte_headByte L hf (headByte_of_area ho h1 h2)) hi

/-- After initialisation only the largest order has a block. -/
theorem memoryInit_head {o : ℕ} (ho : o ≤ maxOrder) :
    load64 (memoryInit L m) (areaHead L o)=if o=maxOrder then heapPhys else 0 := by
  unfold memoryInit
  dsimp only
  rw [load64_congr (fun a h1 h2 => initCaches_frame (not_cacheByte
    (Or.inr (Or.inl (headByte_of_area ho h1 h2)))))]
  rw [head_setFrame ho (by norm_num)]
  by_cases htop : o=maxOrder
  · subst htop
    rw [if_pos rfl,load64_store64_same (by norm_num)]
  · rw [if_neg htop,load64_store64_disjoint (by simp only [areaHead]; omega),
      head_store_heap ho (by norm_num) (by norm_num),
      head_store_heap ho (by norm_num) (by norm_num)]
    refine foldl_range_keep (P:=fun m => load64 m (areaHead L o)=0) ?_
      (fun _ _ hi h => (head_setFrame ho hi).trans h)
    refine foldl_range_establish (P:=fun m => load64 m (areaHead L o)=0) (j:=o)
      (by omega) (fun _ => load64_store64_same (by norm_num)) ?_
    intro m' i _ h
    by_cases hio : i=o
    · subst hio
      exact load64_store64_same (by norm_num)
    · exact (load64_store64_disjoint (by simp only [areaHead]; omega)).trans h

/-- After initialisation the first frame records the largest order and every
other tag is zero. -/
theorem memoryInit_tag (hi : i<frameCount) :
    frameTag L (memoryInit L m) i=if i=0 then maxOrder else 0 := by
  have hf : FrameByte L (L.frames+i) := frameByte_tag hi
  unfold memoryInit
  dsimp only
  rw [frameTag_congr (initCaches_frame (not_cacheByte (Or.inl hf)))]
  by_cases h0 : i=0
  · subst h0
    rw [frameTag_setFrame_same]
    rfl
  · rw [if_neg h0,frameTag_setFrame_other h0]
    have hhead := frameByte_headByte L hf
    have hheap := L.frames_heap
    have hi' : i<16384 := hi
    simp only [HeadByte,Apart,heapPhys,heapSize,frameCount,frameSize,maxOrder] at hhead hheap
    have hout : ∀ m : Bytes, ∀ addr value, (addr=heapPhys ∨ addr=heapPhys+8 ∨
        addr=areaHead L maxOrder) →
        frameTag L (store64 m addr value) i=frameTag L m i := by
      intro m addr value ha
      refine frameTag_congr (store64_outside ?_)
      simp only [areaHead,heapPhys,maxOrder] at ha
      omega
    rw [hout _ _ _ (Or.inr (Or.inr rfl)),hout _ _ _ (Or.inr (Or.inl rfl)),
      hout _ _ _ (Or.inl rfl)]
    refine foldl_range_establish (P:=fun m => frameTag L m i=0) hi
      (fun _ => frameTag_setFrame_same) ?_
    intro m' j _ h
    by_cases hij : i=j
    · subst hij
      exact frameTag_setFrame_same
    · exact (frameTag_setFrame_other hij).trans h

/-- After initialisation the links of the first frame are null. -/
theorem memoryInit_cell {addr : ℕ} (h : addr=heapPhys ∨ addr=heapPhys+8) :
    load64 (memoryInit L m) addr=0 := by
  have hheads := L.freeArea_heap
  have hframes := L.frames_heap
  simp only [Apart,heapPhys,heapSize,frameCount,frameSize,maxOrder] at hheads hframes h
  unfold memoryInit
  dsimp only
  rw [load64_congr (fun a h1 h2 => initCaches_frame (not_cacheByte (Or.inr (Or.inr ⟨?_,?_⟩)))),
    load64_congr (fun a h1 h2 => setFrame_frame ?_ (by norm_num)),
    load64_store64_disjoint (by simp only [areaHead,maxOrder]; omega)]
  · rcases h with rfl | rfl
    · rw [load64_store64_disjoint (by norm_num),load64_store64_same (by norm_num)]
    · rw [load64_store64_same (by norm_num)]
  · simp only [FrameByte,frameCount,heapSize,frameSize]
    omega
  · simp only [heapPhys]
    omega
  · simp only [heapPhys,heapSize]
    omega

/-- The free lists after initialisation. -/
def initialFree (o : ℕ) : List ℕ := if o=maxOrder then [0] else []

/-- The only free block after initialisation is the whole heap. -/
theorem mem_initialFree {o : ℕ} : i∈initialFree o ↔ o=maxOrder ∧ i=0 := by
  unfold initialFree
  by_cases ho : o=maxOrder
  · simp [ho]
  · simp [ho]

/-- The whole heap is one block. -/
theorem initial_tiling : Tiling maxOrder (blocks initialFree (fun _ => none) none) := by
  have hfree : ∀ {c i k}, blocks initialFree (fun _ => none) none c i k →
      c=.free ∧ i=0 ∧ k=maxOrder := by
    intro c i k h
    cases c with
    | free =>
      obtain ⟨hk,hi⟩ := mem_initialFree.mp h
      exact ⟨rfl,hi,hk⟩
    | live user => cases h
    | held => cases h
  refine ⟨?_,?_,?_,?_,?_⟩
  · intro c i k h
    exact (hfree h).2.2.le
  · intro c i k h
    rw [(hfree h).2.1]
    exact dvd_zero _
  · intro c i k h
    rw [(hfree h).2.1]
    exact Nat.two_pow_pos _
  · intro p hp
    exact ⟨.free,0,maxOrder,by simp [blocks,initialFree],Nat.zero_le p,by rwa [Nat.zero_add]⟩
  · intro c i k c' j l p h h' _ _
    obtain ⟨rfl,rfl,rfl⟩ := hfree h
    obtain ⟨rfl,rfl,rfl⟩ := hfree h'
    exact ⟨rfl,rfl,rfl⟩

/-- Initialisation establishes the invariant, with no live block. -/
theorem memoryInit_sound (L : Layout) (m : Bytes) :
    Sound L (memoryInit L m) initialFree (fun _ => none) none := by
  refine ⟨⟨?_,?_,?_,?_⟩,initial_tiling,?_,?_,?_,?_⟩
  · intro o ho
    have hhead := memoryInit_head (L:=L) (m:=m) ho
    unfold initialFree
    by_cases htop : o=maxOrder
    · subst htop
      rw [if_pos rfl] at hhead ⊢
      have hz : frameToAddr 0=heapPhys := rfl
      refine ⟨?_,?_,?_,?_,?_⟩
      · have h0 := memoryInit_cell (L:=L) (m:=m) (Or.inl rfl)
        have h8 := memoryInit_cell (L:=L) (m:=m) (Or.inr rfl)
        refine ⟨?_,fun _ => ?_,?_,fun h => (h rfl).elim,trivial⟩
        · rw [successor,if_pos rfl,hz]
          exact hhead
        · rw [hz]
          exact h8
        · rw [successor,if_neg (by rw [hz]; norm_num),hz]
          exact h0
      · simp [hz]
      · simp [hz,heapPhys]
      · simp
      · intro x hx
        obtain rfl : x=frameToAddr 0 := by simpa using hx
        exact cell_head_apart L (by norm_num) ho
    · rw [if_neg htop] at hhead ⊢
      exact listed_nil_iff.mpr hhead
  · intro o i h
    rw [(mem_initialFree.mp h).2]
    norm_num
  · intro o i h
    exact (mem_initialFree.mp h).1.le
  · intro o o' i h h'
    rw [(mem_initialFree.mp h).1,(mem_initialFree.mp h').1]
  · intro i k h
    obtain ⟨rfl,rfl⟩ := mem_initialFree.mp h
    exact memoryInit_tag (by norm_num)
  · intro i k user h
    cases h
  · intro i hi _
    rw [memoryInit_tag hi]
    split <;> norm_num
  · intro i k hk h
    have := (mem_initialFree.mp h).1
    omega

/-- The allocator's memory and the blocks its owners hold. -/
structure State where
  /-- All memory, the allocator's data included. -/
  memory : Bytes
  /-- The live blocks. -/
  live : LiveMap

/-- The owners' view of an allocation: a null pointer is no block. -/
def granted (live : LiveMap) (addr order : ℕ) (user : Bool) : LiveMap :=
  if addr=0 then live else Function.update live (addrToFrame addr) (some (order,user))

/-- The byte belongs to the block. -/
def BlockByte (i k a : ℕ) : Prop := frameToAddr i≤a ∧ a<frameToAddr (i+2^k)

/-- The byte lies inside a live block. -/
def Owned (live : LiveMap) (a : ℕ) : Prop := ∃ i k user, live i=some (k,user) ∧ BlockByte i k a

/-- The byte lies outside the heap, the frame table and the list heads. -/
def Foreign (L : Layout) (a : ℕ) : Prop :=
  ¬FrameByte L a ∧ ¬HeadByte L a ∧ ¬(heapPhys≤a ∧ a<heapPhys+heapSize)

/-- One call of a page-level entry point, or one byte written by an owner. -/
inductive Step (L : Layout) : State → State → Prop
  /-- A direct page allocation: slab pages and page-table pages are of this kind. -/
  | buddyAlloc (s : State) (order : ℤ) (user : Bool) :
    Step L s ⟨(buddyAlloc L s.memory order user).2,
      granted s.live (buddyAlloc L s.memory order user).1 order.toNat user⟩
  /-- A kernel allocation large enough for whole pages. -/
  | kmalloc (s : State) (size p : ℕ) (m : Bytes) (hlarge : 2048 ≤ size) (hsize : size<2^64)
    (hcall : kmalloc L s.memory size=some (p,m)) :
    Step L s ⟨m,granted s.live p (orderFor (pagesFor size) 64 0) false⟩
  /-- A user mapping of any length. -/
  | mmapUser (s : State) (length : ℕ) (hlength : length<2^64) :
    Step L s ⟨(mmapUser L s.memory length).2,granted s.live (mmapUser L s.memory length).1
      (orderFor (if pagesFor length=0 then 1 else pagesFor length) 64 0) true⟩
  /-- The page path of `kfree`, at any address. -/
  | kfree (s : State) (addr : ℕ) (haddr : addr<2^64)
    (hpath : heapPhys≤addr → addr<heapPhys+heapSize → load32 s.memory (pageOf addr)≠slabMagic) :
    Step L s ⟨kfree L s.memory addr,releaseAt s.live addr⟩
  /-- Unmapping at any address. -/
  | munmapUser (s : State) (addr : ℕ) (haddr : addr<2^64) :
    Step L s ⟨(munmapUser L s.memory addr).2,releaseAt s.live addr⟩
  /-- Unmapping everything allocated for users. -/
  | munmapAllUser (s : State) : Step L s ⟨munmapAllUser L s.memory,dropUser 0 s.live⟩
  /-- Releasing a live page. -/
  | pageFree (s : State) (i : ℕ) (user : Bool) (hlive : s.live i=some (0,user)) :
    Step L s ⟨pageFree L s.memory (frameToAddr i),releaseAt s.live (frameToAddr i)⟩
  /-- An owner writes a byte of its block, or of memory the allocator does not manage. -/
  | write (s : State) (a : ℕ) (value : UInt8) (howner : Owned s.live a ∨ Foreign L a) :
    Step L s ⟨Function.update s.memory a value,s.live⟩

/-- The state right after initialisation, over any memory contents. -/
def initial (L : Layout) (m : Bytes) : State := ⟨memoryInit L m,fun _ => none⟩

/-- The states of all finite runs. -/
def Reachable (L : Layout) (s : State) : Prop :=
  ∃ m, Relation.ReflTransGen (Step L) (initial L m) s

/-- The invariant of a state. -/
def Consistent (L : Layout) (s : State) : Prop := ∃ free, Sound L s.memory free s.live none

/-- An allocation keeps the invariant. -/
theorem buddyAlloc_consistent (h : Sound L m free live none) (order : ℤ) (user : Bool) :
    Consistent L ⟨(buddyAlloc L m order user).2,
      granted live (buddyAlloc L m order user).1 order.toNat user⟩ := by
  rcases buddyAlloc_cases h order user with ⟨heq,_⟩ | ⟨i,m',free',_,_,heq,hi,_,_,hs,_⟩
  · rw [heq]
    exact ⟨free,h⟩
  · rw [heq]
    refine ⟨free',?_⟩
    have hne : frameToAddr i≠0 := by
      rw [frameToAddr_eq]
      omega
    simp only [granted]
    rw [if_neg hne,addrToFrame_frameToAddr hi]
    exact hs

/-- A release by address keeps the invariant. -/
theorem released_consistent {addr : ℕ} (h : Sound L m free live none)
    (hr : Released L m live addr m') : Consistent L ⟨m',releaseAt live addr⟩ := by
  obtain ⟨free',hs,_⟩ := Released.sound h hr
  generalize releaseAt live addr=live' at hs ⊢
  exact ⟨free',hs⟩

/-- A page-sized `kmalloc` is an allocation of the fitting order. -/
theorem kmalloc_large {size : ℕ} (h : 2048 ≤ size) :
    kmalloc L m size=some (buddyAlloc L m (orderFor (pagesFor size) 64 0) false) := by
  unfold kmalloc
  rw [if_neg (by omega)]
  dsimp only
  rw [if_neg (by omega : ¬size<16),if_pos h]

/-- Live blocks lie inside the heap. -/
theorem owned_heap {a : ℕ} (hs : Sound L m free live none) (h : Owned live a) :
    heapPhys≤a ∧ a<heapPhys+heapSize := by
  obtain ⟨i,k,user,hl,h1,h2⟩ := h
  have hend : i+2^k≤16384 :=
    block_le (hs.tiling.aligned (c:=.live user) hl) (hs.live_order hl) (hs.live_lt hl)
  simp only [frameToAddr_eq,heapPhys,heapSize] at h1 h2 ⊢
  omega

/-- Owners and foreign code write safe bytes. -/
theorem safe_of_write {a : ℕ} (hs : Sound L m free live none)
    (h : Owned live a ∨ Foreign L a) : Safe L live a := by
  rcases h with h | ⟨htag,hhead,hout⟩
  · obtain ⟨hlow,hhigh⟩ := owned_heap hs h
    obtain ⟨i,k,user,hl,h1,h2⟩ := h
    have hcell : ∀ j, CellByte j a → Covers i k j := by
      intro j hc
      simp only [CellByte,frameToAddr_eq] at hc h1 h2
      exact ⟨by omega,by omega⟩
    have hf := L.frames_heap
    have hh := L.freeArea_heap
    simp only [Apart,heapPhys,heapSize,frameCount,frameSize,maxOrder] at hf hh hlow hhigh
    refine ⟨?_,?_,fun j _ hc => ⟨i,k,user,hl,hcell j hc⟩⟩
    · simp only [FrameByte,frameCount,heapSize,frameSize]
      omega
    · simp only [HeadByte,maxOrder]
      omega
  · refine ⟨htag,hhead,fun j hj hc => (hout ?_).elim⟩
    have hj' : j<16384 := hj
    simp only [CellByte,frameToAddr_eq,heapPhys,heapSize] at hc ⊢
    omega

/-- The invariant survives every change to bytes that owners and foreign code
may write. -/
theorem sound_of_writes (hs : Sound L m free live none)
    (h : ∀ a, ¬(Owned live a ∨ Foreign L a) → m' a=m a) : Sound L m' free live none := by
  refine hs.transport ?_ ?_ ?_
  · intro a ha
    exact h a fun how => (safe_of_write hs how).tag ha
  · intro a ha
    exact h a fun how => (safe_of_write hs how).head ha
  · intro o j hj a ha
    refine h a fun how => ?_
    exact Sound.free_not_inLive hs hj ((safe_of_write hs how).cell j (hs.lists.inside hj) ha)

/-- Every step keeps the invariant. -/
theorem step_consistent {s s' : State} (h : Consistent L s) (hstep : Step L s s') :
    Consistent L s' := by
  obtain ⟨free,hs⟩ := h
  cases hstep with
  | buddyAlloc order user => exact buddyAlloc_consistent hs order user
  | kmalloc size p m hlarge hsize hcall =>
    rw [kmalloc_large hlarge] at hcall
    obtain ⟨rfl,rfl⟩ := Prod.mk.inj (Option.some.inj hcall)
    exact buddyAlloc_consistent hs _ false
  | mmapUser length hlength => exact buddyAlloc_consistent hs _ true
  | kfree addr haddr hpath => exact released_consistent hs (kfree_released hs haddr hpath)
  | munmapUser addr haddr => exact released_consistent hs (munmapUser_released hs haddr)
  | munmapAllUser =>
    rw [munmapAllUser]
    obtain ⟨free',hs',_⟩ := munmapAllFrom_sound frameCount (i:=0) hs (by omega)
    exact ⟨free',hs'⟩
  | pageFree i user hlive =>
    refine released_consistent hs (Or.inr ⟨i,0,user,rfl,hlive,?_⟩)
    exact buddyFree_live hs hlive
  | write a value howner =>
    refine ⟨free,sound_of_writes hs fun b hb => Function.update_of_ne ?_ _ _⟩
    rintro rfl
    exact hb howner

/-- Every reachable state is consistent. -/
theorem Reachable.consistent {s : State} (h : Reachable L s) : Consistent L s := by
  obtain ⟨m,hrun⟩ := h
  induction hrun with
  | refl => exact ⟨initialFree,memoryInit_sound L m⟩
  | tail _ hstep ih => exact step_consistent ih hstep

/-- What the owners and the free lists of a state share out: the blocks
partition the heap and the frame table describes them. -/
structure Partition (L : Layout) (s : State) (free : ℕ → List ℕ) : Prop where
  /-- Each list is intact in memory, in both directions. -/
  listed : ∀ o, o ≤ maxOrder →
    Listed freeBlockLinks s.memory (areaHead L o) ((free o).map frameToAddr)
  /-- No block is on its list twice. -/
  nodup : ∀ o, (free o).Nodup
  /-- No block is on two lists. -/
  single : ∀ o o' i, i∈free o → i∈free o' → o=o'
  /-- Every frame lies in exactly one block, free or live. -/
  partition : ∀ j, j<frameCount →
    ∃! b : Holder × ℕ × ℕ, blocks free s.live none b.1 b.2.1 b.2.2 ∧ Covers b.2.1 b.2.2 j
  /-- Blocks lie inside the heap. -/
  inside : ∀ c i o, blocks free s.live none c i o → o ≤ maxOrder ∧ i+2^o≤frameCount
  /-- Blocks are naturally aligned. -/
  aligned : ∀ c i o, blocks free s.live none c i o → 2^o∣i
  /-- The allocation bit marks exactly the heads of live blocks. -/
  allocBit : ∀ i, i<frameCount → (frameTag L s.memory i&&&frameAlloc≠0 ↔ ∃ b, s.live i=some b)
  /-- The head of a live block records the block's order. -/
  order : ∀ i o user, s.live i=some (o,user) → frameTag L s.memory i&&&frameOrder=o

/-- The invariant gives the partition. -/
theorem partition_of_sound {s : State} (hs : Sound L s.memory free s.live none) :
    Partition L s free := by
  refine ⟨hs.lists.listed,hs.lists.nodup,?_,?_,?_,?_,?_,?_⟩
  · intro o o' i hi hi'
    exact hs.lists.unique hi hi'
  · intro j hj
    obtain ⟨c,i,o,hb,hc⟩ := hs.tiling.cover (p:=j) hj
    refine ⟨(c,i,o),⟨hb,hc⟩,?_⟩
    rintro ⟨c',i',o'⟩ ⟨hb',hc'⟩
    obtain ⟨rfl,rfl,rfl⟩ := hs.tiling.unique hb hb' hc hc'
    rfl
  · intro c i o hb
    have ho := hs.tiling.order_le hb
    exact ⟨ho,block_le (hs.tiling.aligned hb) ho (hs.tiling.inside hb)⟩
  · intro c i o hb
    exact hs.tiling.aligned hb
  · intro i hi
    rw [ne_eq,allocBit_iff hs hi,← ne_eq,Option.ne_none_iff_exists']
  · intro i o user hl
    rw [hs.liveHead hl,(liveTag_bits (hs.live_order hl) user).2.1]

/-- The partition invariant of the buddy allocator, in every reachable state. -/
theorem reachable_partition {s : State} (h : Reachable L s) : ∃ free, Partition L s free := by
  obtain ⟨free,hs⟩ := h.consistent
  exact ⟨free,partition_of_sound hs⟩

/-- One possible placement of the static variables. -/
def sampleLayout : Layout where
  frames := 0x110000
  freeArea := 0x120000
  kmallocCaches := 0x121000
  caches_pos := by norm_num
  caches_bound := by norm_num
  frames_heap := by norm_num [Apart]
  freeArea_heap := by norm_num [Apart]
  caches_heap := by norm_num [Apart]
  frames_freeArea := by norm_num [Apart]
  frames_caches := by norm_num [Apart]
  freeArea_caches := by norm_num [Apart]

/-- A user block of eight frames taken from a fresh heap. -/
def sampleState : State :=
  ⟨(buddyAlloc sampleLayout (memoryInit sampleLayout fun _ => 0) 3 true).2,
    granted (fun _ => none) (buddyAlloc sampleLayout (memoryInit sampleLayout fun _ => 0) 3 true).1
      3 true⟩

/-- The sample state is reached by one allocation. -/
theorem sampleState_reachable : Reachable sampleLayout sampleState :=
  ⟨fun _ => 0,Relation.ReflTransGen.single (Step.buddyAlloc (initial sampleLayout fun _ => 0) 3 true)⟩

/-- The partition of the sample state. -/
theorem sampleState_partition : ∃ free, Partition sampleLayout sampleState free :=
  reachable_partition sampleState_reachable

/-- The first block taken from a fresh heap is its first frame. -/
theorem buddyAlloc_initial (L : Layout) (m : Bytes) (user : Bool) :
    (buddyAlloc L (memoryInit L m) 0 user).1=frameToAddr 0 := by
  rcases buddyAlloc_cases (memoryInit_sound L m) 0 user with
    ⟨_,hneg | hbig | hnil⟩ | ⟨i,_,_,_,_,heq,_,_,⟨f,_,hi⟩,_⟩
  · omega
  · simp only [maxOrder] at hbig
    omega
  · have := hnil maxOrder (Nat.zero_le _)
    simp [initialFree] at this
  · rw [heq,(mem_initialFree.mp hi).2]

/-- A naturally aligned run of frames of the heap outside all live blocks. -/
def FreeRun (live : LiveMap) (order j : ℕ) : Prop :=
  2^order∣j ∧ j+2^order≤frameCount ∧ ∀ p, Covers j order p → ¬InLive live p

/-- Frames outside live blocks lie in blocks on the free lists. -/
theorem free_of_not_inLive {p : ℕ} (hs : Sound L m free live none) (hp : p<frameCount)
    (hout : ¬InLive live p) : ∃ i o, i∈free o ∧ Covers i o p := by
  obtain ⟨c,i,o,hb,hc⟩ := hs.tiling.cover (p:=p) hp
  cases c with
  | free => exact ⟨i,o,hb,hc⟩
  | live user => exact (hout ⟨i,o,user,hb,hc⟩).elim
  | held => cases hb

/-- A listed block of at least the order contains a free run. -/
theorem freeRun_of_mem {f : ℕ} (hs : Sound L m free live none) (hi : i∈free f) (hk : k≤f) :
    FreeRun live k i := by
  have hb : blocks free live none .free i f := hi
  have hal := hs.tiling.aligned hb
  have hend : i+2^f≤frameCount := block_le hal (hs.tiling.order_le hb) (hs.tiling.inside hb)
  have hpow : 2^k≤2^f := Nat.pow_le_pow_right (by norm_num) hk
  refine ⟨(pow_dvd_pow 2 hk).trans hal,by omega,?_⟩
  rintro p ⟨hp1,hp2⟩ ⟨l,k',user,hl,hc⟩
  have := (hs.tiling.unique (c:=.free) (d:=.live user) hi hl ⟨hp1,by omega⟩ hc).1
  cases this

/-- A free run of an order lies in a listed block of at least that order. -/
theorem FreeRun.mem {j : ℕ} (hs : Sound L m free live none) (hk : k ≤ maxOrder)
    (h : FreeRun live k j) : ∃ i f, k≤f ∧ i∈free f := by
  obtain ⟨hal,hend,hout⟩ := h
  have hpos := Nat.two_pow_pos k
  obtain ⟨i,f,hkf,hb,_⟩ := hs.tiling.run_in_block (c:=.free) hs.coalesced hk hal
    (show j<frameCount by omega)
    (fun p hp => free_of_not_inLive hs (by have := hp.2; omega) (hout p hp))
  exact ⟨i,f,hkf,hb⟩

/-- Where an allocation finds no listed block, no run of the order is free. -/
theorem not_freeRun (hs : Sound L m free live none) {order : ℤ} (h0 : 0≤order)
    (hmax : order ≤ maxOrder)
    (hwhy : order<0 ∨ order>maxOrder ∨ ∀ j, order.toNat≤j → free j=[]) :
    ¬∃ j, FreeRun live order.toNat j := by
  rintro ⟨j,hj⟩
  obtain ⟨i,f,hkf,hi⟩ := FreeRun.mem hs (by omega) hj
  rcases hwhy with hneg | hbig | hnil
  · omega
  · omega
  · rw [hnil f hkf] at hi
    cases hi

/-- Allocation fails exactly when no aligned run of the order is free; with no
live block the whole heap can be had again. -/
theorem buddyAlloc_null_iff {s : State} (h : Reachable L s) (order : ℤ) (user : Bool)
    (h0 : 0≤order) (hmax : order ≤ maxOrder) :
    ((buddyAlloc L s.memory order user).1=0 ↔ ¬∃ j, FreeRun s.live order.toNat j) ∧
      ((∀ i, s.live i=none) → (buddyAlloc L s.memory maxOrder user).1≠0) := by
  have key : ∀ (order : ℤ), 0≤order → order ≤ maxOrder →
      ((buddyAlloc L s.memory order user).1=0 ↔ ¬∃ j, FreeRun s.live order.toNat j) := by
    intro order h0 hmax
    obtain ⟨free,hs⟩ := h.consistent
    rcases buddyAlloc_cases hs order user with ⟨heq,hwhy⟩ | ⟨i,m',free',_,_,heq,_,_,⟨f,hf,hi⟩,_⟩
    · rw [heq]
      exact ⟨fun _ => not_freeRun hs h0 hmax hwhy,fun _ => rfl⟩
    · rw [heq]
      refine ⟨fun hzero => ?_,fun hnone => (hnone ⟨i,freeRun_of_mem hs hi hf⟩).elim⟩
      have hne : frameToAddr i≠0 := by
        rw [frameToAddr_eq]
        omega
      exact (hne hzero).elim
  refine ⟨key order h0 hmax,fun hnone hzero => ?_⟩
  refine (key maxOrder (by norm_num) le_rfl).mp hzero ⟨0,dvd_zero _,?_,?_⟩
  · rw [Int.toNat_natCast,Nat.zero_add]
    exact two_pow_maxOrder.le
  · rintro p _ ⟨l,k',v,hl,_⟩
    rw [hnone l] at hl
    cases hl

/-- In the sample state the condition decides an allocation of two frames. -/
theorem sampleState_null_iff :
    (buddyAlloc sampleLayout sampleState.memory 1 false).1=0 ↔
      ¬∃ j, FreeRun sampleState.live 1 j :=
  (buddyAlloc_null_iff sampleState_reachable 1 false (by norm_num) (by norm_num)).1

end OvsbMk.BuddyRuns
