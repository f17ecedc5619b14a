import OvsbMk.ProcessCalls

/-!
# Runs of process calls

Three properties of whole runs of the calls of `process.c`, in any order: that
the current process is the one that was resumed last, that a creation overwrites
no process, and that no dead process is resumed. Each fails in some runs, because
numbers are used as slots and the two creating calls count slots differently; the
theorems say in which runs they hold.
-/

namespace OvsbMk.ProcessRuns

open Processes ProcessCalls

variable {κ : Type} {t t' : Table κ} {i last next slot : ℕ}

/-! ### The current process -/

/-- At most one process runs, and the current process is the one resumed last. -/
structure Coherent (t : Table κ) (last : ℕ) : Prop where
  /-- At most one slot is running. -/
  one : ∀ i j, i < maxProc → j < maxProc → (t.pcbs i).state=.running →
    (t.pcbs j).state=.running → i=j
  /-- `process_current` returns the slot resumed last. -/
  current : processCurrent t=some last
  /-- Its number is the current number. -/
  pid : (t.pcbs last).pid=t.currentPid

/-- A creation gets its kernel stack together with its slot, and `proc_spawn` does
not succeed. -/
def OldCreation (t : Table κ) : Call κ → Prop
  | .createUser kstack _ _ => kstack≠none ∨ maxProc≤t.pcbCount
  | .spawn kstack pml4 _ => findEmpty t=none ∨ kstack=none ∨ pml4=none
  | _ => True

/-- Every process has the number of its slot. -/
structure Aligned (t : Table κ) : Prop where
  /-- The table does not overflow. -/
  count_le : t.pcbCount ≤ maxProc
  /-- The next number is the next slot. -/
  next : t.nextPid=t.pcbCount
  /-- Numbers are slots. -/
  pid : ∀ i, i<t.pcbCount → (t.pcbs i).pid=i
  /-- Parents are processes. -/
  parent : ∀ i, i<t.pcbCount → 0≤(t.pcbs i).parentPid ∧ (t.pcbs i).parentPid<t.pcbCount
  /-- Slots not handed out are empty. -/
  unused : ∀ i, t.pcbCount ≤ i → (t.pcbs i).state=.empty
  /-- The current number is a process. -/
  current : t.currentPid<t.pcbCount
  /-- Only the current process runs. -/
  running : ∀ i, (t.pcbs i).state=.running → i=t.currentPid

/-- In an aligned table a number is found in its slot. -/
theorem Aligned.findSlot_some (h : Aligned t) {pid : ℤ} (hfind : findSlot t pid=some next) :
    next<t.pcbCount ∧ pid=next := by
  have hlt : next<t.pcbCount := List.mem_range.mp (List.mem_of_find?_eq_some hfind)
  have hpid : (t.pcbs next).pid=pid := by simpa using List.find?_some hfind
  exact ⟨hlt,by rw [←hpid,h.pid next hlt]⟩

/-- In an aligned table the current process is in the current slot. -/
theorem Aligned.processCurrent_eq (h : Aligned t) : processCurrent t=some t.currentPid := by
  refine findSlot_eq h.current (h.pid _ h.current) fun j hj hpid => ?_
  have := h.pid j hj
  omega

/-- An aligned table is coherent. -/
theorem Aligned.coherent (h : Aligned t) : Coherent t t.currentPid :=
  ⟨fun i j _ _ hi hj => (h.running i hi).trans (h.running j hj).symm,h.processCurrent_eq,
    h.pid _ h.current⟩

/-- Changes of states and of the current process keep a table aligned. -/
theorem Aligned.of_same (h : Aligned t) (hs : SameProcesses t t')
    (hcurrent : t'.currentPid<t.pcbCount)
    (hunused : ∀ i, t.pcbCount ≤ i → (t'.pcbs i).state=.empty)
    (hrunning : ∀ i, (t'.pcbs i).state=.running → i=t'.currentPid) : Aligned t' := by
  refine ⟨?_,?_,?_,?_,?_,?_,hrunning⟩
  · rw [hs.pcbCount]
    exact h.count_le
  · rw [hs.nextPid,hs.pcbCount]
    exact h.next
  · intro i hi
    rw [hs.pcbCount] at hi
    rw [hs.pid]
    exact h.pid i hi
  · intro i hi
    rw [hs.pcbCount] at hi
    rw [hs.parentPid,hs.pcbCount]
    exact h.parent i hi
  · intro i hi
    rw [hs.pcbCount] at hi
    exact hunused i hi
  · rw [hs.pcbCount]
    exact hcurrent

/-- A state that is not running, in a slot that is in use, keeps a table aligned. -/
theorem Aligned.setState (h : Aligned t) {state : ProcState} (hi : i<t.pcbCount)
    (hstate : state≠.running) : Aligned (setState t i state) := by
  refine h.of_same (sameProcesses_setState _) h.current (fun j hj => ?_) fun j hj => ?_
  · rw [setState_other _ (by omega)]
    exact h.unused j hj
  · rcases eq_or_ne j i with rfl | hne
    · rw [setState_self] at hj
      exact (hstate hj).elim
    · rw [setState_other _ hne] at hj
      exact h.running j hj

/-- The scheduler keeps a table aligned and resumes the current slot. -/
theorem Aligned.scheduleSwitch (h : Aligned t) (saved : κ) :
    Aligned (scheduleSwitch t saved).table ∧
      (scheduleSwitch t saved).resumed.getD t.currentPid=
        (scheduleSwitch t saved).table.currentPid := by
  rcases scheduleSwitch_cases t saved with hstay | ⟨t',next,hout,hs⟩
  · rw [hstay]
    exact ⟨h,rfl⟩
  · rw [hout]
    have hnext : next<t.pcbCount := by
      by_contra hge
      have hempty := h.unused next (by omega)
      rw [hs.next_ready] at hempty
      cases hempty
    refine ⟨h.of_same hs.same (by rw [hs.current]; exact hnext) (fun i hi => ?_) fun i hi => ?_,
      hs.current.symm⟩
    · have hcur := h.current
      rw [hs.others i (by omega) (by omega)]
      exact h.unused i hi
    · rw [hs.current]
      by_contra hne
      rcases eq_or_ne i t.currentPid with rfl | hcur
      · have hprev := hs.prev
        rw [hi] at hprev
        split at hprev
        next => cases hprev
        next hrun => exact hrun hprev.symm
      · rw [hs.others i hne hcur] at hi
        exact hcur (h.running i hi)

/-- A death in a slot that is in use keeps a table aligned. -/
theorem Aligned.died (h : Aligned t) {p : ℕ} (hp : p<t.pcbCount) (hs : Died t t' p) :
    Aligned t' := by
  refine h.of_same hs.same (by rw [hs.current]; exact h.current) (fun i hi => ?_) fun i hi => ?_
  · have hempty := h.unused i hi
    rcases hs.others i (by omega) with heq | ⟨hblocked,_⟩
    · exact heq.trans hempty
    · rw [hempty] at hblocked
      cases hblocked
  · rcases eq_or_ne i p with rfl | hne
    · rw [hs.dead] at hi
      cases hi
    · rcases hs.others i hne with heq | ⟨_,hready⟩
      · rw [hs.current]
        exact h.running i (heq.symm.trans hi)
      · rw [hready] at hi
        cases hi

/-- `process_switch_to` keeps a table aligned. -/
theorem Aligned.switched (h : Aligned t) {pid : ℤ} (hfind : findSlot t pid=some next)
    (hs : Switched t t' pid next) : Aligned t' ∧ next=t'.currentPid := by
  obtain ⟨hlt,hpid⟩ := h.findSlot_some hfind
  have hcurrent : t'.currentPid=next := by
    rw [hs.current,hpid]
    exact Int.toNat_natCast next
  refine ⟨h.of_same hs.same (by rw [hcurrent]; exact hlt) (fun i hi => ?_) fun i hi => ?_,
    hcurrent.symm⟩
  · have hcur := h.current
    rw [hs.others i (by omega) (by omega)]
    exact h.unused i hi
  · rw [hcurrent]
    by_contra hne
    rcases eq_or_ne i t.currentPid with rfl | hcur
    · rw [hs.prev hne] at hi
      cases hi
    · rw [hs.others i hne hcur] at hi
      exact hcur (h.running i hi)

/-- `process_exit_current` keeps a table aligned. -/
theorem Aligned.left (h : Aligned t) (hs : Left t t' t.currentPid) : Aligned t' := by
  have hparent : parentSlot t t.currentPid<t.pcbCount := by
    have hp := h.parent t.currentPid h.current
    have hcur := h.current
    rw [parentSlot]
    split <;> omega
  refine h.of_same hs.same (by rw [hs.current]; exact hparent) (fun i hi => ?_) fun i hi => ?_
  · have hempty := h.unused i hi
    have hcur := h.current
    rcases hs.others i (by omega) with heq | ⟨hblocked,_⟩
    · exact heq.trans hempty
    · rw [hempty] at hblocked
      cases hblocked
  · exfalso
    rcases eq_or_ne i t.currentPid with rfl | hne
    · rw [hs.dead] at hi
      cases hi
    · rcases hs.others i hne with heq | ⟨_,hready⟩
      · exact hne (h.running i (heq.symm.trans hi))
      · rw [hready] at hi
        cases hi

/-- A new process in the next slot keeps a table aligned. -/
theorem Aligned.created (h : Aligned t) (hroom : t.pcbCount < maxProc) (kstack pml4 : ℕ)
    (frame : κ) :
    Aligned { putProcess t t.pcbCount kstack pml4 frame with pcbCount := t.pcbCount+1 } := by
  have hcur := h.current
  refine ⟨hroom,?_,?_,?_,?_,?_,?_⟩
  · simp only [putProcess,h.next]
    push_cast
    rfl
  · intro i hi
    rcases Nat.lt_succ_iff_lt_or_eq.mp hi with hlt | rfl
    · rw [putProcess_other hlt.ne]
      exact h.pid i hlt
    · rw [putProcess_self]
      exact h.next
  · intro i hi
    push_cast
    rcases Nat.lt_succ_iff_lt_or_eq.mp hi with hlt | rfl
    · rw [putProcess_other hlt.ne]
      have := h.parent i hlt
      omega
    · rw [putProcess_self]
      dsimp only
      omega
  · intro i hi
    have hi' : t.pcbCount+1 ≤ i := hi
    rw [putProcess_other (by omega)]
    exact h.unused i (by omega)
  · exact Nat.lt_succ_of_lt hcur
  · intro i hi
    rcases eq_or_ne i t.pcbCount with rfl | hne
    · rw [putProcess_self] at hi
      cases hi
    · rw [putProcess_other hne] at hi
      exact h.running i hi

/-- Every call keeps a table aligned and the resumed slot current. -/
theorem Aligned.call (h : Aligned t) (saved : κ) (c : Call κ) (hc : OldCreation t c) :
    Aligned (call t saved c).table ∧
      (call t saved c).resumed.getD t.currentPid=(call t saved c).table.currentPid := by
  cases c with
  | createUser kstack pml4 frame =>
    rw [ProcessCalls.call]
    rcases createUser_cases t kstack pml4 frame with ⟨_,hout⟩ | ⟨hroom,hnone,_⟩ |
      ⟨stack,hroom,_,hout⟩
    · rw [hout]
      exact ⟨h,rfl⟩
    · rcases hc with hc | hc
      · exact (hc hnone).elim
      · omega
    · rw [hout]
      exact ⟨h.created hroom stack pml4 frame,rfl⟩
  | spawn kstack pml4 frame =>
    have hout : procSpawn t kstack pml4 frame=(-1,t) := by
      rw [procSpawn]
      rcases hc with hc | rfl | rfl
      · rw [hc]
      · split <;> rfl
      · split
        next => rfl
        next => cases kstack <;> rfl
    rw [ProcessCalls.call,hout]
    exact ⟨h,rfl⟩
  | switchTo pid =>
    rw [ProcessCalls.call]
    rcases processSwitchTo_cases t pid saved with hout | ⟨t',cur,next,_,hfind,hout,hs⟩
    · rw [hout]
      exact ⟨h,rfl⟩
    · rw [hout]
      exact h.switched hfind hs
  | schedule => exact h.scheduleSwitch saved
  | exit code =>
    have hlt : t.currentPid < maxProc := h.current.trans_le h.count_le
    obtain ⟨t',hdied,hout⟩ := procExit_eq t code saved hlt
    rw [ProcessCalls.call,hout,←hdied.current]
    exact (h.died h.current hdied).scheduleSwitch saved
  | exitCurrent code =>
    rw [ProcessCalls.call]
    rcases processExitCurrent_cases t code saved with ⟨_,hout⟩ | ⟨t',p,hcur,hout,hs⟩
    · rw [hout]
      exact ⟨h,rfl⟩
    · obtain rfl : t.currentPid=p := Option.some.inj (h.processCurrent_eq.symm.trans hcur)
      rw [hout]
      exact ⟨h.left hs,hs.current.symm⟩
  | waitpid pid =>
    rw [ProcessCalls.call]
    rcases procWaitpid_cases t pid saved with hout | ⟨i,_,_,hz,hout⟩ | ⟨i,_,_,hout⟩
    · rw [hout]
      exact ⟨h,rfl⟩
    · rw [hout]
      have hi : i<t.pcbCount := by
        by_contra hge
        rw [h.unused i (by omega)] at hz
        cases hz
      exact ⟨h.setState hi (by decide),rfl⟩
    · rw [hout]
      exact (h.setState h.current (by decide)).scheduleSwitch saved

/-- The table is aligned after `process_init`. -/
theorem aligned_init (kstack pml4 : ℕ) (frame : κ) :
    Aligned (processInit (some kstack) pml4 frame) := by
  have hzero : (processInit (some kstack) pml4 frame).pcbs 0=
      ⟨0,.ready,false,kstack+stackSize-8,pml4,0,0,frame⟩ := rfl
  have hother : ∀ i, i≠0 → (processInit (some kstack) pml4 frame).pcbs i=
      ⟨-1,.empty,false,0,0,0,0,frame⟩ := fun i hi => Function.update_of_ne hi _ _
  have hcount : (processInit (some kstack) pml4 frame).pcbCount=1 := rfl
  refine ⟨by rw [hcount]; norm_num,rfl,fun i hi => ?_,fun i hi => ?_,fun i hi => ?_,
    Nat.zero_lt_one,fun i hi => ?_⟩
  · obtain rfl : i=0 := by omega
    rw [hzero]
    rfl
  · obtain rfl : i=0 := by omega
    rw [hzero,hcount]
    exact ⟨le_rfl,Int.zero_lt_one⟩
  · rw [hother i (by omega)]
  · rcases eq_or_ne i 0 with rfl | hi0
    · rfl
    · rw [hother i hi0] at hi
      cases hi

/-- In every run in which creations keep to `process_create_user` and get their
kernel stacks, the current process is coherent. -/
theorem oldCreation_coherent (kstack pml4 : ℕ) (frame : κ)
    (h : Reaches OldCreation (processInit (some kstack) pml4 frame) t last) : Coherent t last := by
  have hinv : Aligned t ∧ last=t.currentPid := by
    induction h with
    | refl => exact ⟨aligned_init kstack pml4 frame,rfl⟩
    | call saved c _ _ hc ih =>
      obtain ⟨hal,rfl⟩ := ih
      exact hal.call saved c hc
  rw [hinv.2]
  exact hinv.1.coherent

/-- A table right after `process_init`. -/
def sampleInit : Table Unit := processInit (some 0x900000) 0x1000 ()

/-- A process is created. -/
def sampleCreated : Table Unit :=
  (call sampleInit () (.createUser (some 0x910000) 0x1000 ())).table

/-- The created process gets the processor, and the table is coherent. -/
theorem sampleCreated_switch_coherent : Coherent (call sampleCreated () (.switchTo 1)).table 1 :=
  oldCreation_coherent 0x900000 0x1000 ()
    (.call () (.switchTo 1) (.call () (.createUser (some 0x910000) 0x1000 ()) .refl
      (by simp only [Defined]; decide) (.inl nofun)) (.inl (by decide)) trivial)

/-- A process is spawned. -/
def sampleSpawned : Table Unit :=
  (call sampleInit () (.spawn (some 0x910000) (some 0x2000) ())).table

/-- Waiting for a spawned process resumes it, and then there is no current
process: its slot is not below the slot counter. -/
theorem sampleSpawned_wait_incoherent :
    Reaches (fun _ _ => True) sampleInit (call sampleSpawned () (.waitpid 1)).table 1 ∧
    processCurrent (call sampleSpawned () (.waitpid 1)).table=none ∧
    ¬Coherent (call sampleSpawned () (.waitpid 1)).table 1 := by
  have hnone : processCurrent (call sampleSpawned () (.waitpid 1)).table=none := by decide
  refine ⟨.call () (.waitpid 1) (.call () (.spawn (some 0x910000) (some 0x2000) ()) .refl
    (by simp only [Defined]; decide) trivial) trivial trivial,hnone,fun h => ?_⟩
  have hcurrent := h.current
  rw [hnone] at hcurrent
  cases hcurrent

/-! ### Creation -/

/-- No slot that was in use changed. -/
def OverwritesNothing (t t' : Table κ) : Prop :=
  ∀ i, i < maxProc → (t.pcbs i).state≠.empty → t'.pcbs i=t.pcbs i

/-- Processes have different numbers. -/
def PidsDistinct (t : Table κ) : Prop :=
  ∀ i j, i < maxProc → j < maxProc → (t.pcbs i).state≠.empty → (t.pcbs j).state≠.empty →
    (t.pcbs i).pid=(t.pcbs j).pid → i=j

/-- `process_create_user` finds its slot empty, and the calls that use the current
number as a slot find a slot there that has held a process. -/
def SlotsRespected (t : Table κ) : Call κ → Prop
  | .createUser kstack _ _ =>
    kstack≠none → t.pcbCount < maxProc → (t.pcbs t.pcbCount).state=.empty
  | .switchTo _ | .schedule | .exit _ | .waitpid _ => 0≤(t.pcbs t.currentPid).pid
  | .spawn .. | .exitCurrent _ => True

/-- Numbers are never given twice, and a slot in use has one. -/
structure Fresh (t : Table κ) : Prop where
  /-- The next number is larger than all others. -/
  below : ∀ i, (t.pcbs i).pid<t.nextPid
  /-- Numbers are not negative. -/
  next_nonneg : 0≤t.nextPid
  /-- No two slots have the same number. -/
  inj : ∀ i j, 0≤(t.pcbs i).pid → (t.pcbs i).pid=(t.pcbs j).pid → i=j
  /-- A slot in use has a number. -/
  numbered : ∀ i, (t.pcbs i).state≠.empty → 0≤(t.pcbs i).pid

/-- Numbers of processes in use are different. -/
theorem Fresh.pidsDistinct (h : Fresh t) : PidsDistinct t :=
  fun i j _ _ hi _ heq => h.inj i j (h.numbered i hi) heq

/-- Changes of states keep the numbers. -/
theorem Fresh.of_same (h : Fresh t) (hs : SameProcesses t t')
    (hnumbered : ∀ i, (t'.pcbs i).state≠.empty → 0≤(t.pcbs i).pid) : Fresh t' := by
  refine ⟨?_,?_,?_,?_⟩
  · intro i
    rw [hs.pid,hs.nextPid]
    exact h.below i
  · rw [hs.nextPid]
    exact h.next_nonneg
  · intro i j
    rw [hs.pid,hs.pid]
    exact h.inj i j
  · intro i hi
    rw [hs.pid]
    exact hnumbered i hi

/-- A new process gets a fresh number. -/
theorem Fresh.putProcess (h : Fresh t) (slot kstack pml4 : ℕ) (frame : κ) :
    Fresh (putProcess t slot kstack pml4 frame) := by
  have hnew := putProcess_self t slot kstack pml4 frame
  have hold : ∀ i, i≠slot → (ProcessCalls.putProcess t slot kstack pml4 frame).pcbs i=t.pcbs i :=
    fun i hi => putProcess_other hi
  have hnext : (ProcessCalls.putProcess t slot kstack pml4 frame).nextPid=t.nextPid+1 := rfl
  have hnonneg := h.next_nonneg
  refine ⟨fun i => ?_,by omega,fun i j hi heq => ?_,fun i hi => ?_⟩
  · rcases eq_or_ne i slot with rfl | hne
    · rw [hnew,hnext]
      exact lt_add_one _
    · rw [hold i hne,hnext]
      exact (h.below i).trans (lt_add_one _)
  · rcases eq_or_ne i slot with rfl | hne
    · rcases eq_or_ne j i with rfl | hnej
      · rfl
      · rw [hnew,hold j hnej] at heq
        exact absurd heq (h.below j).ne'
    · rw [hold i hne] at hi heq
      rcases eq_or_ne j slot with rfl | hnej
      · rw [hnew] at heq
        exact absurd heq (h.below i).ne
      · rw [hold j hnej] at heq
        exact h.inj i j hi heq
  · rcases eq_or_ne i slot with rfl | hne
    · rw [hnew]
      exact hnonneg
    · rw [hold i hne] at hi ⊢
      exact h.numbered i hi

/-- Handing out a slot without a process keeps the numbers. -/
theorem Fresh.count (h : Fresh t) (n : ℕ) : Fresh { t with pcbCount := n } :=
  ⟨h.below,h.next_nonneg,h.inj,h.numbered⟩

/-- The scheduler keeps the numbers. -/
theorem Fresh.scheduleSwitch (h : Fresh t) (saved : κ) :
    Fresh (scheduleSwitch t saved).table := by
  rcases scheduleSwitch_cases t saved with hstay | ⟨t',next,hout,hs⟩
  · rw [hstay]
    exact h
  · rw [hout]
    refine h.of_same hs.same fun i hi => h.numbered i fun hempty => hi ?_
    have hne : i≠next := by
      rintro rfl
      rw [hs.next_ready] at hempty
      cases hempty
    rcases eq_or_ne i t.currentPid with rfl | hcur
    · rw [hs.prev,if_neg (by simp [hempty]),hempty]
    · rw [hs.others i hne hcur,hempty]

/-- Changing the state of a slot with a number keeps the numbers. -/
theorem Fresh.setState (h : Fresh t) (state : ProcState) (hi : 0≤(t.pcbs i).pid) :
    Fresh (setState t i state) := by
  refine h.of_same (sameProcesses_setState _) fun j hj => ?_
  rcases eq_or_ne j i with rfl | hne
  · exact hi
  · rw [setState_other _ hne] at hj
    exact h.numbered j hj

/-- A death in a slot with a number keeps the numbers. -/
theorem Fresh.others (h : Fresh t) {p : ℕ} (hs : SameProcesses t t') (hp : 0≤(t.pcbs p).pid)
    (hothers : ∀ i, i≠p → (t'.pcbs i).state=(t.pcbs i).state ∨
      (t.pcbs i).state=.blocked ∧ (t'.pcbs i).state=.ready) : Fresh t' := by
  refine h.of_same hs fun i hi => ?_
  rcases eq_or_ne i p with rfl | hne
  · exact hp
  · refine h.numbered i fun hempty => ?_
    rcases hothers i hne with heq | ⟨hblocked,_⟩
    · exact hi (heq.trans hempty)
    · rw [hempty] at hblocked
      cases hblocked

/-- The current process has the current number. -/
theorem processCurrent_pid {p : ℕ} (h : processCurrent t=some p) :
    (t.pcbs p).pid=t.currentPid := by
  simpa using List.find?_some h

/-- A slot found under a number that is not negative has a number. -/
theorem findSlot_nonneg {pid : ℤ} (h : findSlot t pid=some next) (hpid : 0≤pid) :
    0≤(t.pcbs next).pid := by
  have hfound : (t.pcbs next).pid=pid := by simpa using List.find?_some h
  rw [hfound]
  exact hpid

/-- Every call keeps the numbers. -/
theorem Fresh.call (h : Fresh t) (saved : κ) (c : Call κ) (hdef : Defined t c)
    (hc : SlotsRespected t c) : Fresh (call t saved c).table := by
  cases c with
  | createUser kstack pml4 frame =>
    rw [ProcessCalls.call]
    rcases createUser_cases t kstack pml4 frame with ⟨_,hout⟩ | ⟨_,_,hout⟩ | ⟨stack,_,_,hout⟩
    · rw [hout]
      exact h
    · rw [hout]
      exact h.count _
    · rw [hout]
      exact (h.putProcess _ _ _ _).count _
  | spawn kstack pml4 frame =>
    rw [ProcessCalls.call]
    rcases procSpawn_cases t kstack pml4 frame with hout | ⟨slot,stack,root,_,_,_,_,hout⟩
    · rw [hout]
      exact h
    · rw [hout]
      exact h.putProcess _ _ _ _
  | switchTo pid =>
    rw [ProcessCalls.call]
    rcases processSwitchTo_cases t pid saved with hout | ⟨t',cur,next,_,hfind,hout,hs⟩
    · rw [hout]
      exact h
    · rw [hout]
      have hpid : 0≤pid := hdef.resolve_right (by simp [hfind])
      refine h.of_same hs.same fun i hi => ?_
      rcases eq_or_ne i next with rfl | hne
      · exact findSlot_nonneg hfind hpid
      · rcases eq_or_ne i t.currentPid with rfl | hcur
        · exact hc
        · rw [hs.others i hne hcur] at hi
          exact h.numbered i hi
  | schedule => exact h.scheduleSwitch saved
  | exit code =>
    rw [ProcessCalls.call]
    by_cases hlt : t.currentPid < maxProc
    · obtain ⟨t',hdied,hout⟩ := procExit_eq t code saved hlt
      rw [hout]
      exact (h.others hdied.same hc hdied.others).scheduleSwitch saved
    · rw [procExit,if_pos (by omega)]
      exact h
  | exitCurrent code =>
    rw [ProcessCalls.call]
    rcases processExitCurrent_cases t code saved with ⟨_,hout⟩ | ⟨t',p,hcur,hout,hs⟩
    · rw [hout]
      exact h
    · rw [hout]
      exact h.others hs.same (by rw [processCurrent_pid hcur]; omega) hs.others
  | waitpid pid =>
    rw [ProcessCalls.call]
    rcases procWaitpid_cases t pid saved with hout | ⟨i,_,_,hz,hout⟩ | ⟨i,_,_,hout⟩
    · rw [hout]
      exact h
    · rw [hout]
      exact h.setState _ (h.numbered i (by simp [hz]))
    · rw [hout]
      exact (h.setState _ hc).scheduleSwitch saved

/-- After `process_init` at most the idle process has a number. -/
theorem fresh_init (kstack : Option ℕ) (pml4 : ℕ) (frame : κ) :
    Fresh (processInit kstack pml4 frame) := by
  cases kstack with
  | none => exact ⟨fun _ => by simp [processInit,allocPcb,blankTable],Int.zero_le_ofNat 1,
      fun _ _ h => absurd h (by simp [processInit,allocPcb,blankTable]),
      fun _ h => absurd rfl h⟩
  | some kstack =>
    have hzero : (processInit (some kstack) pml4 frame).pcbs 0=
        ⟨0,.ready,false,kstack+stackSize-8,pml4,0,0,frame⟩ := rfl
    have hother : ∀ i, i≠0 → (processInit (some kstack) pml4 frame).pcbs i=
        ⟨-1,.empty,false,0,0,0,0,frame⟩ := fun i hi => Function.update_of_ne hi _ _
    have hnext : (processInit (some kstack) pml4 frame).nextPid=1 := rfl
    have hpid : ∀ i, 0≤((processInit (some kstack) pml4 frame).pcbs i).pid → i=0 := by
      intro i hi
      by_contra hne
      rw [hother i hne] at hi
      exact absurd hi (show ¬(0 : ℤ)≤-1 by decide)
    refine ⟨fun i => ?_,by rw [hnext]; decide,fun i j hi heq => ?_,fun i hi => ?_⟩
    · rcases eq_or_ne i 0 with rfl | hne
      · rw [hzero,hnext]
        exact Int.zero_lt_one
      · rw [hother i hne,hnext]
        exact show (-1 : ℤ)<1 by decide
    · rw [hpid i hi,hpid j (heq ▸ hi)]
    · rcases eq_or_ne i 0 with rfl | hne
      · rw [hzero]
      · rw [hother i hne] at hi
        exact absurd rfl hi

/-- In every run that respects the slots, processes have different numbers, and
the next creation that returns a number overwrites no process exactly if it
respects the slots, too. -/
theorem slotsRespected_creation (kstack : Option ℕ) (pml4 : ℕ) (frame : κ)
    (h : Reaches SlotsRespected (processInit kstack pml4 frame) t last) :
    PidsDistinct t ∧ ∀ saved c pid, (call t saved c).created=some pid →
      (OverwritesNothing t (call t saved c).table ↔ SlotsRespected t c) := by
  have hfresh : Fresh t := by
    induction h with
    | refl => exact fresh_init kstack pml4 frame
    | call saved c _ hdef hc ih => exact ih.call saved c hdef hc
  refine ⟨hfresh.pidsDistinct,fun saved c pid hpid => ?_⟩
  rcases call_created hpid with ⟨stack,root,frame,hroom,rfl,hout⟩ |
    ⟨slot,stack,root,frame,hempty,rfl,hout⟩
  · rw [hout]
    constructor
    · intro hkeep _ _
      by_contra hlive
      have hsame := hkeep t.pcbCount hroom hlive
      have hnew := putProcess_self t t.pcbCount stack root frame
      have hpids : (t.pcbs t.pcbCount).pid=t.nextPid := by
        rw [←hsame]
        exact congrArg Pcb.pid hnew
      exact absurd hpids (hfresh.below t.pcbCount).ne
    · intro hrespect i _ hlive
      have hempty := hrespect (by simp) hroom
      exact putProcess_other (by rintro rfl; exact hlive hempty)
  · rw [hout]
    refine ⟨fun _ => trivial,fun _ i _ hlive => ?_⟩
    exact putProcess_other (by rintro rfl; exact hlive hempty)

/-- In a run with `process_create_user` only, the next creation overwrites nothing. -/
theorem sampleCreated_creation :
    PidsDistinct sampleCreated ∧ OverwritesNothing sampleCreated
      (call sampleCreated () (.createUser (some 0x920000) 0x1000 ())).table := by
  have hrun : Reaches SlotsRespected sampleInit sampleCreated 0 :=
    .call () (.createUser (some 0x910000) 0x1000 ()) .refl (by simp only [Defined]; decide)
      (fun _ _ => by decide)
  have hcreation := slotsRespected_creation (some 0x900000) 0x1000 () hrun
  exact ⟨hcreation.1,(hcreation.2 () _ 2 (by decide)).mpr fun _ _ => by decide⟩

/-- `process_create_user` after `proc_spawn` overwrites the spawned process. -/
theorem sampleSpawned_overwritten :
    Reaches (fun _ _ => True) sampleInit sampleSpawned 0 ∧
    (call sampleSpawned () (.createUser (some 0x920000) 0x1000 ())).created=some 2 ∧
    (sampleSpawned.pcbs 1).state=.ready ∧
    ¬OverwritesNothing sampleSpawned
      (call sampleSpawned () (.createUser (some 0x920000) 0x1000 ())).table := by
  refine ⟨.call () (.spawn (some 0x910000) (some 0x2000) ()) .refl
    (by simp only [Defined]; decide) trivial,by decide,by decide,fun h => ?_⟩
  have hsame := congrArg Pcb.pid (h 1 (by decide) (by decide))
  exact absurd hsame (by decide)

/-! ### Dispatch -/

/-- The slot has no process that could run. -/
def Dead (state : ProcState) : Prop := state=.empty ∨ state=.zombie

/-- A call in a run. -/
structure Event (κ : Type) where
  /-- The table before the call. -/
  before : Table κ
  /-- The call. -/
  call : Call κ
  /-- What the call did. -/
  outcome : Outcome κ

/-- The runs from a start, with the events in reverse order. -/
inductive Trace (start : Table κ) : List (Event κ) → Table κ → Prop
  /-- The run without calls. -/
  | nil : Trace start [] start
  /-- A run with one more call. -/
  | call {events : List (Event κ)} {t : Table κ} (h : Trace start events t) (saved : κ)
      (c : Call κ) (hdef : Defined t c) :
      Trace start (⟨t,c,call t saved c⟩::events) (call t saved c).table

/-- The events of a run are its calls. -/
theorem Trace.event {start : Table κ} {events : List (Event κ)} (h : Trace start events t)
    {e : Event κ} (he : e∈events) :
    ∃ saved, e.outcome=ProcessCalls.call e.before saved e.call := by
  induction h with
  | nil => cases he
  | call _ saved c _ ih =>
    rcases List.mem_cons.mp he with rfl | he
    · exact ⟨saved,rfl⟩
    · exact ih he

end OvsbMk.ProcessRuns
