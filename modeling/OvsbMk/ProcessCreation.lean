import OvsbMk.BuddyRuns
import OvsbMk.ContextSwitch
import OvsbMk.ProcessCalls

/-!
# Failed process creation

`process_create_user` and `proc_spawn` over the process table and the page
allocator together. The first one takes its slot before it asks for a kernel
stack and does not give the slot back when there is no stack; the second one
asks first and returns what it was granted. Which of the two leaves a trace of
a failure is decided for every table and every consistent allocator.
-/

namespace OvsbMk.ProcessCreation

open ByteMemory IntrusiveList KernelMemory BuddyFreeLists DyadicTiling BuddyInvariant
  BuddyOperations BuddyRuns Processes ProcessCalls

/-- The process table and the page allocator. What `context_switch` saved of a
process is its kernel stack pointer. -/
structure Kernel where
  /-- The process table. -/
  table : Table ℕ
  /-- Memory and live blocks. -/
  heap : State

variable {L : Layout} {m m' : Bytes} {free : ℕ → List ℕ} {live : LiveMap} {k : Kernel}

/-- Copy a number of words into a fresh page table. -/
def copyEntries (m : Bytes) (newPml4 current count : ℕ) : Bytes :=
  (List.range count).foldl (fun m i => store64 m (newPml4+8*i) (load64 m (current+8*i))) m

/-- `pml4_create`: a page with a copy of the current page table. -/
def pml4Create (L : Layout) (s : State) (current : ℕ) : ℕ×State :=
  let r := buddyAlloc L s.memory 0 false
  if r.1=0 then (0,⟨r.2,s.live⟩)
  else (r.1,⟨copyEntries r.2 r.1 current 512,granted s.live r.1 0 false⟩)

/-- `kmalloc(STACK_SIZE)` with the block that its caller holds afterwards. -/
def kmallocStack (L : Layout) (s : State) : Option (ℕ×State) :=
  (kmalloc L s.memory stackSize).map fun r =>
    (r.1,⟨r.2,granted s.live r.1 (orderFor (pagesFor stackSize) 64 0) false⟩)

/-- `mmap_user` for a kernel stack. -/
def mmapStack (L : Layout) (s : State) : ℕ×State :=
  let r := mmapUser L s.memory stackSize
  (r.1,⟨r.2,granted s.live r.1 (orderFor (pagesFor stackSize) 64 0) true⟩)

/-- `munmap_user` of a kernel stack. -/
def munmapStack (L : Layout) (s : State) (kstack : ℕ) : State :=
  ⟨(munmapUser L s.memory kstack).2,releaseAt s.live kstack⟩

/-- The frame that `setup_user_stack` builds. -/
def createdFrame (entry userStack userStackSize : ℕ) : List ℕ :=
  [0x23,(userStack+userStackSize)%2^64,0x202,0x1B,entry]++List.replicate 16 0

/-- The frame that `proc_spawn` builds. -/
def spawnedFrame (entry userStackTop : ℕ) : List ℕ :=
  [0x23,userStackTop,0x202,0x1B,entry]++List.replicate 14 0

/-- Push a frame on a new kernel stack. -/
def pushFrame (s : State) (kstack : ℕ) (frame : List ℕ) : ℕ×State :=
  let r := ContextSwitch.pushWords s.memory (kstack+stackSize) frame
  (r.2,⟨r.1,s.live⟩)

/-- `process_create_user`. No result means that `kmalloc` does not return. -/
def processCreateUser (L : Layout) (k : Kernel) (current entry userStack userStackSize : ℕ) :
    Option (ℤ×Kernel) :=
  match allocPcb k.table with
  | none => some (-1,k)
  | some (_,t1) =>
    (kmallocStack L k.heap).map fun r =>
      if r.1=0 then (-1,⟨t1,r.2⟩) else
        let p := pushFrame r.2 r.1 (createdFrame entry userStack userStackSize)
        let c := Processes.processCreateUser k.table (some r.1) current p.1
        (c.1,⟨c.2,p.2⟩)

/-- `proc_spawn`. -/
def procSpawn (L : Layout) (k : Kernel) (current entry userStackTop : ℕ) : ℤ×Kernel :=
  match findEmpty k.table with
  | none => (-1,k)
  | some slot =>
    let r := mmapStack L k.heap
    if r.1=0 then (-1,⟨k.table,r.2⟩) else
      let q := pml4Create L r.2 current
      if q.1=0 then (-1,⟨k.table,munmapStack L q.2 r.1⟩) else
        let p := pushFrame q.2 r.1 (spawnedFrame entry userStackTop)
        (k.table.nextPid,⟨putProcess k.table slot r.1 q.1 p.1,p.2⟩)

/-- Nothing of the table that decides about slots and numbers has changed, and
the same blocks are live. -/
structure NoTrace (k k' : Kernel) : Prop where
  /-- Same control blocks. -/
  pcbs : k'.table.pcbs=k.table.pcbs
  /-- Same number of slots handed out. -/
  pcbCount : k'.table.pcbCount=k.table.pcbCount
  /-- Same next number. -/
  nextPid : k'.table.nextPid=k.table.nextPid
  /-- Same live blocks. -/
  live : k'.heap.live=k.heap.live

/-- Nothing happened. -/
theorem NoTrace.refl (k : Kernel) : NoTrace k k := ⟨rfl,rfl,rfl,rfl⟩

/-- A kernel stack is a block of order one. -/
theorem orderFor_stack : orderFor (pagesFor stackSize) 64 0=1 := by decide

/-- Addresses of frames are not null. -/
theorem frameToAddr_ne_zero (i : ℕ) : frameToAddr i≠0 := by
  rw [frameToAddr_eq]
  omega

/-- An allocation of a fitting order fails and changes nothing because no run of the
order is free, or takes a free run. -/
theorem buddyAlloc_outcome (hs : Sound L m free live none) (order : ℤ) (h0 : 0≤order)
    (hmax : order ≤ maxOrder) (user : Bool) :
    ((¬∃ j, FreeRun live order.toNat j) ∧ buddyAlloc L m order user=(0,m)) ∨
    (∃ j, FreeRun live order.toNat j) ∧ ∃ i m' free', i<frameCount ∧ live i=none ∧
      buddyAlloc L m order user=(frameToAddr i,m') ∧
      granted live (frameToAddr i) order.toNat user=
        Function.update live i (some (order.toNat,user)) ∧
      Sound L m' free' (Function.update live i (some (order.toNat,user))) none := by
  rcases buddyAlloc_cases hs order user with ⟨heq,hwhy⟩ |
    ⟨i,m',free',_,_,heq,hi,hnone,⟨f,hf,hmem⟩,hs',_⟩
  · exact .inl ⟨not_freeRun hs h0 hmax hwhy,heq⟩
  · refine .inr ⟨⟨i,freeRun_of_mem hs hmem hf⟩,i,m',free',hi,hnone,heq,?_,hs'⟩
    rw [granted,if_neg (frameToAddr_ne_zero i),addrToFrame_frameToAddr hi]

/-- Bytes outside the copied entries keep their values. -/
theorem copyEntries_outside {newPml4 current count a : ℕ}
    (h : a<newPml4 ∨ newPml4+8*count≤a) : copyEntries m newPml4 current count a=m a := by
  refine foldl_range_keep (P:=fun m' => m' a=m a) rfl fun m' i hi hm => ?_
  rw [store64_outside (by omega),hm]

/-- Writes inside one live block keep the invariant. -/
theorem sound_of_block {i o : ℕ} {user : Bool} (hs : Sound L m free live none)
    (hlive : live i=some (o,user))
    (h : ∀ a, a<frameToAddr i ∨ frameToAddr (i+2^o)≤a → m' a=m a) : Sound L m' free live none := by
  refine sound_of_writes hs fun a ha => h a ?_
  by_contra hin
  rw [not_or,not_lt,not_le] at hin
  exact ha (.inl ⟨i,o,user,hlive,hin⟩)

/-- Copying a page table into a live page keeps the invariant. -/
theorem copyEntries_sound {i current count : ℕ} {user : Bool} (hs : Sound L m free live none)
    (hlive : live i=some (0,user)) (hcount : count≤512) :
    Sound L (copyEntries m (frameToAddr i) current count) free live none := by
  refine sound_of_block hs hlive fun a ha => copyEntries_outside ?_
  simp only [frameToAddr_eq] at ha ⊢
  omega

/-- Pushing a frame on a live kernel stack keeps the invariant. -/
theorem pushFrame_sound {i : ℕ} {user : Bool} {s : State} {frame : List ℕ}
    (hs : Sound L s.memory free s.live none) (hlive : s.live i=some (1,user))
    (hroom : frame.length≤1024) :
    Sound L (pushFrame s (frameToAddr i) frame).2.memory free s.live none := by
  refine sound_of_block hs hlive fun a ha => ContextSwitch.pushWords_outside ?_ ?_
  · simp only [stackSize]
    omega
  · simp only [frameToAddr_eq,stackSize] at ha ⊢
    omega

/-- A fresh page table: none without a free page, else a new live page. -/
theorem pml4Create_outcome {s : State} (hs : Sound L s.memory free s.live none) (current : ℕ) :
    pml4Create L s current=(0,s) ∨ ∃ i m' free', s.live i=none ∧
      pml4Create L s current=
        (frameToAddr i,⟨m',Function.update s.live i (some (0,false))⟩) ∧
      Sound L m' free' (Function.update s.live i (some (0,false))) none := by
  rw [pml4Create]
  rcases buddyAlloc_outcome hs 0 le_rfl (by norm_num) false with
    ⟨_,heq⟩ | ⟨_,i,m',free',_,hnone,heq,hgrant,hs'⟩
  · rw [heq]
    exact .inl rfl
  · rw [heq]
    dsimp only
    rw [if_neg (frameToAddr_ne_zero i)]
    rw [Int.toNat_zero] at hgrant hs'
    rw [hgrant]
    exact .inr ⟨i,_,free',hnone,rfl,copyEntries_sound hs' (Function.update_self _ _ _) le_rfl⟩

/-- A block of two pages from the page allocator, as both creators obtain it. -/
def grantStack (L : Layout) (s : State) (user : Bool) : ℕ×State :=
  let r := buddyAlloc L s.memory 1 user
  (r.1,⟨r.2,granted s.live r.1 1 user⟩)

/-- The kernel allocation is a block of two pages; it always returns. -/
theorem kmallocStack_eq (L : Layout) (s : State) :
    kmallocStack L s=some (grantStack L s false) := by
  rw [kmallocStack,kmalloc_large (by norm_num),orderFor_stack,grantStack]
  rfl

/-- The user mapping is a block of two pages. -/
theorem mmapStack_eq (L : Layout) (s : State) : mmapStack L s=grantStack L s true := by
  have hpages : pagesFor stackSize=2 := by decide
  have horder : orderFor 2 64 0=1 := by decide
  rw [mmapStack,mmapUser,hpages,grantStack]
  simp only [OfNat.ofNat_ne_zero,if_false,horder,Nat.cast_one]

/-- A block of two pages: none without a free run, else a new live block. -/
theorem grantStack_outcome {s : State} (hs : Sound L s.memory free s.live none) (user : Bool) :
    ((¬∃ j, FreeRun s.live 1 j) ∧ grantStack L s user=(0,s)) ∨
    (∃ j, FreeRun s.live 1 j) ∧ ∃ i m' free', s.live i=none ∧
      grantStack L s user=(frameToAddr i,⟨m',Function.update s.live i (some (1,user))⟩) ∧
      i<frameCount ∧ Sound L m' free' (Function.update s.live i (some (1,user))) none := by
  rw [grantStack]
  rcases buddyAlloc_outcome hs 1 (by norm_num) (by norm_num) user with
    ⟨hrun,heq⟩ | ⟨hrun,i,m',free',hi,hnone,heq,hgrant,hs'⟩
  · rw [heq]
    exact .inl ⟨hrun,rfl⟩
  · rw [heq]
    dsimp only
    rw [Int.toNat_one] at hgrant hs' hrun
    rw [hgrant]
    exact .inr ⟨hrun,i,m',free',hnone,rfl,hi,hs'⟩

/-- `process_create_user` fails without a slot, loses a slot without memory, or
creates the process. -/
theorem processCreateUser_outcome (h : Consistent L k.heap)
    (current entry userStack userStackSize : ℕ) :
    ∃ r, processCreateUser L k current entry userStack userStackSize=some r ∧
      Consistent L r.2.heap ∧
      (maxProc≤k.table.pcbCount ∧ r=(-1,k) ∨
       k.table.pcbCount < maxProc ∧ (¬∃ j, FreeRun k.heap.live 1 j) ∧
         r=(-1,⟨{ k.table with pcbCount := k.table.pcbCount+1 },k.heap⟩) ∨
       k.table.pcbCount < maxProc ∧ (∃ j, FreeRun k.heap.live 1 j) ∧ r.1=k.table.nextPid) := by
  rw [processCreateUser,allocPcb]
  by_cases hslot : maxProc≤k.table.pcbCount
  · rw [if_pos hslot]
    exact ⟨_,rfl,h,.inl ⟨hslot,rfl⟩⟩
  · rw [if_neg hslot]
    dsimp only
    rw [kmallocStack_eq,Option.map_some]
    refine ⟨_,rfl,?_⟩
    obtain ⟨free,hs⟩ := h
    rcases grantStack_outcome hs false with ⟨hrun,heq⟩ | ⟨hrun,i,m',free',_,heq,_,hs'⟩
    · rw [heq]
      exact ⟨⟨free,hs⟩,.inr (.inl ⟨by omega,hrun,rfl⟩)⟩
    · rw [heq]
      dsimp only
      rw [if_neg (frameToAddr_ne_zero i)]
      refine ⟨⟨free',?_⟩,.inr (.inr ⟨by omega,hrun,?_⟩)⟩
      · exact pushFrame_sound (s:=⟨m',_⟩) hs' (Function.update_self _ _ _)
          (by simp [createdFrame])
      · rw [Processes.processCreateUser,allocPcb,if_neg hslot]

/-- What is live after a kernel stack has been given back. -/
theorem munmapStack_live (s : State) (kstack : ℕ) :
    (munmapStack L s kstack).live=releaseAt s.live kstack := by
  rw [munmapStack]

/-- Giving back a kernel stack keeps the allocator consistent. -/
theorem munmapStack_consistent {s : State} (hs : Sound L s.memory free s.live none) {i : ℕ}
    (hi : i<16384) : Consistent L (munmapStack L s (frameToAddr i)) := by
  have haddr : frameToAddr i<2^64 := by
    rw [frameToAddr_eq]
    omega
  have hreleased := released_consistent hs (munmapUser_released hs haddr)
  rw [munmapStack]
  exact hreleased

/-- `proc_spawn` fails with the table as it was and the blocks returned, or creates
the process. -/
theorem procSpawn_outcome (h : Consistent L k.heap) (current entry userStackTop : ℕ) :
    Consistent L (procSpawn L k current entry userStackTop).2.heap ∧
      (NoTrace k (procSpawn L k current entry userStackTop).2 ∨
        (procSpawn L k current entry userStackTop).1=k.table.nextPid) := by
  rw [procSpawn]
  cases findEmpty k.table with
  | none => exact ⟨h,.inl (.refl k)⟩
  | some slot =>
    dsimp only
    rw [mmapStack_eq]
    obtain ⟨free,hs⟩ := h
    rcases grantStack_outcome hs true with ⟨_,heq⟩ | ⟨_,i,m1,free1,hnone,heq,hi,hs1⟩
    · rw [heq]
      exact ⟨⟨free,hs⟩,.inl (.refl k)⟩
    · rw [heq]
      dsimp only
      rw [if_neg (frameToAddr_ne_zero i)]
      rcases pml4Create_outcome (s:=⟨m1,Function.update k.heap.live i (some (1,true))⟩)
        hs1 current with hq | ⟨j,m2,free2,hj,hq,hs2⟩
      · -- No page for the table: the kernel stack goes back to where it came from.
        rw [hq,if_pos rfl]
        have hback : releaseAt (Function.update k.heap.live i (some (1,true))) (frameToAddr i)=
            k.heap.live := by
          rw [releaseAt_frame,Function.update_idem,Function.update_eq_self_iff]
          exact hnone.symm
        refine ⟨munmapStack_consistent hs1 hi,.inl ⟨rfl,rfl,rfl,?_⟩⟩
        exact (munmapStack_live _ _).trans hback
      · rw [hq]
        dsimp only
        rw [if_neg (frameToAddr_ne_zero j)]
        have hij : i≠j := by
          rintro rfl
          have htaken : (some (1,true) : Option (ℕ×Bool))=none :=
            (Function.update_self i (some (1,true)) k.heap.live).symm.trans hj
          cases htaken
        have hown : Function.update (Function.update k.heap.live i (some (1,true))) j
            (some (0,false)) i=some (1,true) :=
          (Function.update_of_ne hij _ _).trans (Function.update_self _ _ _)
        exact ⟨⟨free2,pushFrame_sound (s:=⟨m2,_⟩) hs2 hown (by simp [spawnedFrame])⟩,.inr rfl⟩

/-- Both creators leave no trace of a failure, and `kmalloc` returns. -/
def FailuresLeaveNoTrace (L : Layout) (k : Kernel)
    (current entry userStack userStackSize userStackTop : ℕ) : Prop :=
  (∃ r, processCreateUser L k current entry userStack userStackSize=some r ∧
    (r.1=-1 → NoTrace k r.2)) ∧
  ((procSpawn L k current entry userStackTop).1=-1 →
    NoTrace k (procSpawn L k current entry userStackTop).2)

/-- For every table whose next number is not the error code and every consistent
allocator, failures leave no trace exactly when `process_create_user` has no slot to
take or gets its kernel stack. -/
theorem failuresLeaveNoTrace_iff (h : Consistent L k.heap) (hpid : k.table.nextPid≠-1)
    (current entry userStack userStackSize userStackTop : ℕ) :
    FailuresLeaveNoTrace L k current entry userStack userStackSize userStackTop ↔
      maxProc≤k.table.pcbCount ∨ ∃ j, FreeRun k.heap.live 1 j := by
  obtain ⟨r,hr,_,hcases⟩ :=
    processCreateUser_outcome h current entry userStack userStackSize
  have hspawn : (procSpawn L k current entry userStackTop).1=-1 →
      NoTrace k (procSpawn L k current entry userStackTop).2 := by
    intro hfail
    rcases (procSpawn_outcome h current entry userStackTop).2 with htrace | hcreated
    · exact htrace
    · exact (hpid (hcreated.symm.trans hfail)).elim
  constructor
  · rintro ⟨⟨r',hr',htrace⟩,_⟩
    obtain rfl : r=r' := Option.some.inj (hr.symm.trans hr')
    rcases hcases with ⟨hslot,_⟩ | ⟨_,_,rfl⟩ | ⟨_,hrun,_⟩
    · exact .inl hslot
    · exact absurd (htrace rfl).pcbCount (Nat.succ_ne_self _)
    · exact .inr hrun
  · intro hcond
    refine ⟨⟨r,hr,fun hfail => ?_⟩,hspawn⟩
    rcases hcases with ⟨_,rfl⟩ | ⟨hslot,hrun,_⟩ | ⟨_,_,hcreated⟩
    · exact .refl k
    · exact (hcond.elim (fun hfull => absurd hfull (by omega)) hrun).elim
    · exact (hpid (hcreated.symm.trans hfail)).elim

/-- A heap that one allocation of all its frames has used up. -/
def fullHeap : State :=
  ⟨(buddyAlloc sampleLayout (memoryInit sampleLayout fun _ => 0) maxOrder false).2,
    granted (fun _ => none)
      (buddyAlloc sampleLayout (memoryInit sampleLayout fun _ => 0) maxOrder false).1
      maxOrder false⟩

/-- The full heap is consistent and has no free pair of frames. -/
theorem fullHeap_spec : Consistent sampleLayout fullHeap ∧ ¬∃ j, FreeRun fullHeap.live 1 j := by
  have hs := memoryInit_sound sampleLayout fun _ => 0
  rcases buddyAlloc_outcome hs maxOrder (by norm_num) le_rfl false with
    ⟨hrun,_⟩ | ⟨_,i,m',free',hi,_,heq,hgrant,hs'⟩
  · refine (hrun ⟨0,dvd_zero _,?_,?_⟩).elim
    · rw [Int.toNat_natCast,Nat.zero_add]
      exact two_pow_maxOrder.le
    · rintro p _ ⟨l,o,user,hl,_⟩
      cases hl
  · rw [Int.toNat_natCast] at hgrant hs'
    have hlive : fullHeap.live=Function.update (fun _ => none) i (some (maxOrder,false)) := by
      rw [fullHeap,heq]
      dsimp only
      rw [hgrant]
    have hown : fullHeap.live i=some (maxOrder,false) := by
      rw [hlive,Function.update_self]
    refine ⟨⟨free',?_⟩,?_⟩
    · rw [hlive,fullHeap,heq]
      exact hs'
    · rintro ⟨j,_,hend,hout⟩
      have hfit : i+2^14≤16384 := block_le (hs'.tiling.aligned (c:=.live false)
        (Function.update_self _ _ _)) le_rfl hi
      have hend' : j+2^1≤16384 := hend
      refine hout j ⟨le_rfl,by omega⟩ ⟨i,maxOrder,false,hown,?_⟩
      exact ⟨by omega,by simp only [maxOrder]; omega⟩

/-- The process table after boot, over a full heap. -/
def fullKernel : Kernel := ⟨processInit (some 0x900000) 0x1000 0,fullHeap⟩

/-- Nothing but the idle process has been created. -/
theorem fullKernel_table : fullKernel.table.nextPid=1 ∧ fullKernel.table.pcbCount=1 :=
  ⟨rfl,rfl⟩

/-- On a full heap with 63 unused slots the condition decides. -/
theorem fullKernel_iff : FailuresLeaveNoTrace sampleLayout fullKernel 0x1000 0x200000 0x300000 4096
    0x301000 ↔ maxProc≤fullKernel.table.pcbCount ∨ ∃ j, FreeRun fullKernel.heap.live 1 j := by
  refine failuresLeaveNoTrace_iff (k:=fullKernel) fullHeap_spec.1 ?_ _ _ _ _ _
  rw [fullKernel_table.1]
  norm_num

/-- On a full heap `process_create_user` fails and one of the 64 slots is lost. -/
theorem fullKernel_loses_slot : ∃ k', processCreateUser sampleLayout fullKernel 0x1000 0x200000
      0x300000 4096=some (-1,k') ∧ fullKernel.table.pcbCount=1 ∧ k'.table.pcbCount=2 ∧
    ¬FailuresLeaveNoTrace sampleLayout fullKernel 0x1000 0x200000 0x300000 4096 0x301000 := by
  have hone := fullKernel_table.2
  obtain ⟨r,hr,_,hcases⟩ :=
    processCreateUser_outcome (k:=fullKernel) fullHeap_spec.1 0x1000 0x200000 0x300000 4096
  rcases hcases with ⟨hslot,_⟩ | ⟨_,_,rfl⟩ | ⟨_,hrun,_⟩
  · rw [hone] at hslot
    exact absurd hslot (by decide)
  · refine ⟨_,hr,hone,congrArg Nat.succ hone,?_⟩
    rintro ⟨⟨r',hr',htrace⟩,_⟩
    obtain rfl := Option.some.inj (hr.symm.trans hr')
    exact absurd (htrace rfl).pcbCount (Nat.succ_ne_self _)
  · exact (fullHeap_spec.2 hrun).elim

end OvsbMk.ProcessCreation
