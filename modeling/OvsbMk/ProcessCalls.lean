import OvsbMk.Processes

/-!
# The calls that create, switch and end processes

The entry points of `process.c` as functions on the process table. A call that
reaches `context_switch` also tells the slot it resumes; what the switch saves
in the old slot is a parameter. The number of the current process is used as a
number by some of these functions and as a slot by others, exactly as in the
source.
-/

namespace OvsbMk.ProcessCalls

open Processes

variable {κ : Type} {t t' t'' : Table κ} {i j slot : ℕ}

/-- The table after a call and the slot resumed by its context switch. -/
structure Outcome (κ : Type) where
  /-- The process table. -/
  table : Table κ
  /-- Number returned by a creating call. -/
  created : Option ℤ
  /-- Slot that the context switch resumes. -/
  resumed : Option ℕ

/-- The first empty slot. -/
def findEmpty (t : Table κ) : Option ℕ :=
  (List.range maxProc).find? fun i => (t.pcbs i).state=.empty

/-- The first slot of the whole table with a number. -/
def findAny (t : Table κ) (pid : ℤ) : Option ℕ :=
  (List.range maxProc).find? fun i => (t.pcbs i).pid=pid

/-- Put a new user process in a slot. -/
def putProcess (t : Table κ) (slot kstack pml4 : ℕ) (frame : κ) : Table κ :=
  { t with
    nextPid := t.nextPid+1
    pcbs := Function.update t.pcbs slot
      ⟨t.nextPid,.ready,true,kstack+stackSize,pml4,t.currentPid,0,frame⟩ }

/-- Create a process in the first empty slot; the slot counter stays. -/
def procSpawn (t : Table κ) (kstack pml4 : Option ℕ) (frame : κ) : ℤ×Table κ :=
  match findEmpty t with
  | none => (-1,t)
  | some slot =>
    match kstack,pml4 with
    | some kstack,some pml4 => (t.nextPid,putProcess t slot kstack pml4 frame)
    | _,_ => (-1,t)

/-- The scheduler with its context switch. -/
def scheduleSwitch (t : Table κ) (saved : κ) : Outcome κ :=
  match schedule t with
  | none => ⟨t,none,none⟩
  | some r => ⟨setContext r.2.2 r.1 saved,none,some r.2.1⟩

/-- Switch to a process by number. The old process is looked up by number and
marked ready by slot. -/
def processSwitchTo (t : Table κ) (pid : ℤ) (saved : κ) : Outcome κ :=
  match processCurrent t,findSlot t pid with
  | some cur,some next =>
    let t1 := setState t t.currentPid .ready
    let t2 := setState { t1 with currentPid := pid.toNat } next .running
    ⟨setContext t2 cur saved,none,some next⟩
  | _,_ => ⟨t,none,none⟩

/-- End the current process and return to its parent. -/
def processExitCurrent (t : Table κ) (code : ℤ) (saved : κ) : Outcome κ :=
  match processCurrent t with
  | none => ⟨t,none,none⟩
  | some p =>
    let t1 := setState (setExitCode t p code) p .zombie
    let t2 := procWakeParent t1 (t1.pcbs p).pid
    let parent := parentSlot t2 p
    let t3 := { readyParent t2 parent with currentPid := parent }
    ⟨setContext t3 p saved,none,some parent⟩

/-- End the process in the current slot and schedule. -/
def procExit (t : Table κ) (code : ℤ) (saved : κ) : Outcome κ :=
  if maxProc≤t.currentPid then ⟨t,none,none⟩ else
    let t1 := setState (setExitCode t t.currentPid code) t.currentPid .zombie
    scheduleSwitch (procWakeParent t1 (t1.pcbs t.currentPid).pid) saved

/-- One round of `proc_waitpid`: reap a dead process, or block and schedule. -/
def procWaitpid (t : Table κ) (pid : ℤ) (saved : κ) : Outcome κ :=
  match findAny t pid with
  | none => ⟨t,none,none⟩
  | some i =>
    if (t.pcbs i).state=.zombie then ⟨setState t i .empty,none,none⟩
    else scheduleSwitch (setState t t.currentPid .blocked) saved

/-- The calls. What the memory allocators answer is part of a creating call. -/
inductive Call (κ : Type)
  /-- `process_create_user`. -/
  | createUser (kstack : Option ℕ) (pml4 : ℕ) (frame : κ)
  /-- `proc_spawn`. -/
  | spawn (kstack pml4 : Option ℕ) (frame : κ)
  /-- `process_switch_to`. -/
  | switchTo (pid : ℤ)
  /-- `schedule`, from a timer tick or a yield. -/
  | schedule
  /-- `proc_exit`. -/
  | exit (code : ℤ)
  /-- `process_exit_current`. -/
  | exitCurrent (code : ℤ)
  /-- One round of `proc_waitpid`. -/
  | waitpid (pid : ℤ)

/-- The result of a creating call. -/
def created (r : ℤ×Table κ) : Outcome κ := ⟨r.2,if r.1<0 then none else some r.1,none⟩

/-- The effect of a call. -/
def call (t : Table κ) (saved : κ) : Call κ → Outcome κ
  | .createUser kstack pml4 frame => created (processCreateUser t kstack pml4 frame)
  | .spawn kstack pml4 frame => created (procSpawn t kstack pml4 frame)
  | .switchTo pid => processSwitchTo t pid saved
  | .schedule => scheduleSwitch t saved
  | .exit code => procExit t code saved
  | .exitCurrent code => processExitCurrent t code saved
  | .waitpid pid => procWaitpid t pid saved

/-- The calls with a defined meaning: a creation must not overflow `next_pid`, and
a negative number is only looked up in vain. -/
def Defined (t : Table κ) : Call κ → Prop
  | .createUser .. | .spawn .. => t.nextPid<2^31-1
  | .switchTo pid => 0≤pid ∨ findSlot t pid=none
  | _ => True

/-- The tables of the runs from a start whose calls all satisfy a condition, each
with the slot resumed last. -/
inductive Reaches (allowed : Table κ → Call κ → Prop) (start : Table κ) : Table κ → ℕ → Prop
  /-- The run without calls; the boot code stands for slot 0. -/
  | refl : Reaches allowed start start 0
  /-- A run with one more call. -/
  | call {t : Table κ} {last : ℕ} (saved : κ) (c : Call κ) (h : Reaches allowed start t last)
      (hdef : Defined t c) (hc : allowed t c) :
      Reaches allowed start (call t saved c).table ((call t saved c).resumed.getD last)

/-! ### What the building blocks do -/

/-- Some blocked processes became ready and nothing else changed. -/
structure Woken (t t' : Table κ) : Prop where
  /-- The processes are the same. -/
  same : SameProcesses t t'
  /-- The current number is the same. -/
  current : t'.currentPid=t.currentPid
  /-- Only blocked processes change their state. -/
  states : ∀ i, (t'.pcbs i).state=(t.pcbs i).state ∨
    (t.pcbs i).state=.blocked ∧ (t'.pcbs i).state=.ready

/-- Nobody was woken. -/
theorem Woken.refl (t : Table κ) : Woken t t := ⟨.refl t,rfl,fun _ => .inl rfl⟩

/-- Waking one blocked process. -/
theorem woken_setState (h : (t.pcbs i).state=.blocked) : Woken t (setState t i .ready) := by
  refine ⟨sameProcesses_setState _,rfl,fun j => ?_⟩
  rcases eq_or_ne j i with rfl | hj
  · exact .inr ⟨h,setState_self _⟩
  · exact .inl (congrArg Pcb.state (setState_other _ hj))

/-- Waking twice. -/
theorem Woken.trans (h : Woken t t') (h' : Woken t' t'') : Woken t t'' := by
  refine ⟨h.same.trans h'.same,h'.current.trans h.current,fun i => ?_⟩
  rcases h.states i with h1 | ⟨h1,h2⟩
  · rw [←h1]
    exact h'.states i
  · rcases h'.states i with h3 | ⟨h3,_⟩
    · exact .inr ⟨h1,h3.trans h2⟩
    · rw [h2] at h3
      cases h3

/-- Waking changes no slot that is not blocked. -/
theorem Woken.state_eq (h : Woken t t') (hi : (t.pcbs i).state≠.blocked) :
    (t'.pcbs i).state=(t.pcbs i).state := by
  rcases h.states i with h | ⟨h,_⟩
  · exact h
  · exact (hi h).elim

/-- A slot that is not ready afterwards did not change. -/
theorem Woken.state_of_ne_ready (h : Woken t t') (hi : (t'.pcbs i).state≠.ready) :
    (t'.pcbs i).state=(t.pcbs i).state := by
  rcases h.states i with h | ⟨_,h⟩
  · exact h
  · exact (hi h).elim

/-- `proc_wake_parent` wakes. -/
theorem woken_procWakeParent (t : Table κ) (pid : ℤ) : Woken t (procWakeParent t pid) := by
  rw [procWakeParent]
  split
  next i hfind =>
    have hpred := List.find?_some hfind
    simp only [Bool.and_eq_true,decide_eq_true_eq] at hpred
    exact woken_setState hpred.1
  next => exact .refl t

/-- Making the parent ready wakes. -/
theorem woken_readyParent (t : Table κ) (parent : ℕ) : Woken t (readyParent t parent) := by
  rw [readyParent]
  split
  next h =>
    rcases h with h | h
    · exact woken_setState h
    · refine ⟨sameProcesses_setState _,rfl,fun j => .inl ?_⟩
      rcases eq_or_ne j parent with rfl | hj
      · rw [setState_self,h]
      · exact congrArg Pcb.state (setState_other _ hj)
  next => exact .refl t

/-- The scheduler's choice is the current slot or a ready one. -/
theorem findNextReady_cases (t : Table κ) : findNextReady t=t.currentPid ∨
    findNextReady t < maxProc ∧ (t.pcbs (findNextReady t)).state=.ready := by
  rw [findNextReady]
  cases hfind : ((List.range maxProc).map fun i => (t.currentPid+i)%maxProc).find?
      fun i => (t.pcbs i).state=.ready with
  | none => exact .inl rfl
  | some k =>
    obtain ⟨r,_,rfl⟩ := List.mem_map.mp (List.mem_of_find?_eq_some hfind)
    exact .inr ⟨Nat.mod_lt _ (by norm_num),by simpa using List.find?_some hfind⟩

/-- What a context switch of the scheduler changes. -/
structure Scheduled (t t' : Table κ) (next : ℕ) : Prop where
  /-- The processes are the same. -/
  same : SameProcesses t t'
  /-- The next slot is in the table. -/
  next_lt : next < maxProc
  /-- It is another slot. -/
  next_ne : next≠t.currentPid
  /-- It was ready. -/
  next_ready : (t.pcbs next).state=.ready
  /-- It is current. -/
  current : t'.currentPid=next
  /-- It runs. -/
  next_running : (t'.pcbs next).state=.running
  /-- The old slot does not run any more. -/
  prev : (t'.pcbs t.currentPid).state=
    if (t.pcbs t.currentPid).state=.running then .ready else (t.pcbs t.currentPid).state
  /-- The other states are the same. -/
  others : ∀ i, i≠next → i≠t.currentPid → (t'.pcbs i).state=(t.pcbs i).state

/-- The scheduler stays or switches. -/
theorem scheduleSwitch_cases (t : Table κ) (saved : κ) :
    scheduleSwitch t saved=⟨t,none,none⟩ ∨ ∃ t' next,
      scheduleSwitch t saved=⟨t',none,some next⟩ ∧ Scheduled t t' next := by
  by_cases hstay : findNextReady t=t.currentPid
  · left
    rw [scheduleSwitch,schedule,if_pos hstay]
  · right
    obtain ⟨hlt,hready⟩ := (findNextReady_cases t).resolve_left hstay
    rw [scheduleSwitch,schedule,if_neg hstay]
    refine ⟨_,_,rfl,?_⟩
    by_cases hrun : (t.pcbs t.currentPid).state=.running
    · rw [if_pos hrun]
      refine ⟨((sameProcesses_setState _).trans ((sameProcesses_setState _).trans
        (sameProcesses_current _ _))).trans (sameProcesses_setContext _),hlt,hstay,hready,rfl,
        ?_,?_,?_⟩
      · rw [setContext_state]
        exact setState_self _
      · rw [setContext_state,if_pos hrun]
        exact (congrArg Pcb.state (setState_other _ (Ne.symm hstay))).trans (setState_self _)
      · intro i h1 h2
        rw [setContext_state]
        exact congrArg Pcb.state ((setState_other _ h1).trans (setState_other _ h2))
    · rw [if_neg hrun]
      refine ⟨((sameProcesses_setState _).trans (sameProcesses_current _ _)).trans
        (sameProcesses_setContext _),hlt,hstay,hready,rfl,?_,?_,?_⟩
      · rw [setContext_state]
        exact setState_self _
      · rw [setContext_state,if_neg hrun]
        exact congrArg Pcb.state (setState_other _ (Ne.symm hstay))
      · intro i h1 _
        rw [setContext_state]
        exact congrArg Pcb.state (setState_other _ h1)

/-- A process died and some blocked processes became ready. -/
structure Died (t t' : Table κ) (p : ℕ) : Prop where
  /-- The processes are the same. -/
  same : SameProcesses t t'
  /-- The current number is the same. -/
  current : t'.currentPid=t.currentPid
  /-- The process is dead. -/
  dead : (t'.pcbs p).state=.zombie
  /-- The others change only by being woken. -/
  others : ∀ i, i≠p → (t'.pcbs i).state=(t.pcbs i).state ∨
    (t.pcbs i).state=.blocked ∧ (t'.pcbs i).state=.ready

/-- Recording the exit code, dying and waking the parent. -/
theorem died_wake (t : Table κ) (p : ℕ) (code pid : ℤ) :
    Died t (procWakeParent (setState (setExitCode t p code) p .zombie) pid) p := by
  have hwoken := woken_procWakeParent (setState (setExitCode t p code) p .zombie) pid
  have hself : ((setState (setExitCode t p code) p .zombie).pcbs p).state=.zombie :=
    setState_self _
  refine ⟨((sameProcesses_setExitCode _).trans (sameProcesses_setState _)).trans hwoken.same,
    hwoken.current,(hwoken.state_eq (by simp [hself])).trans hself,fun i hi => ?_⟩
  have hother : ((setState (setExitCode t p code) p .zombie).pcbs i).state=(t.pcbs i).state :=
    (congrArg Pcb.state (setState_other _ hi)).trans (setExitCode_state _)
  rw [←hother]
  exact hwoken.states i

/-- What a switch by number changes. -/
structure Switched (t t' : Table κ) (pid : ℤ) (next : ℕ) : Prop where
  /-- The processes are the same. -/
  same : SameProcesses t t'
  /-- The number is current. -/
  current : t'.currentPid=pid.toNat
  /-- The process runs. -/
  next_running : (t'.pcbs next).state=.running
  /-- The slot numbered by the old current process is ready. -/
  prev : t.currentPid≠next → (t'.pcbs t.currentPid).state=.ready
  /-- The other states are the same. -/
  others : ∀ i, i≠next → i≠t.currentPid → (t'.pcbs i).state=(t.pcbs i).state

/-- `process_switch_to` returns at once or switches. -/
theorem processSwitchTo_cases (t : Table κ) (pid : ℤ) (saved : κ) :
    processSwitchTo t pid saved=⟨t,none,none⟩ ∨ ∃ t' cur next,
      processCurrent t=some cur ∧ findSlot t pid=some next ∧
      processSwitchTo t pid saved=⟨t',none,some next⟩ ∧ Switched t t' pid next := by
  rw [processSwitchTo]
  cases hcur : processCurrent t with
  | none => exact .inl rfl
  | some cur =>
    cases hnext : findSlot t pid with
    | none => exact .inl rfl
    | some next =>
      refine .inr ⟨_,cur,next,rfl,rfl,rfl,?_⟩
      refine ⟨(((sameProcesses_setState _).trans (sameProcesses_current _ _)).trans
        (sameProcesses_setState _)).trans (sameProcesses_setContext _),rfl,?_,?_,?_⟩
      · rw [setContext_state]
        exact setState_self _
      · intro hne
        rw [setContext_state]
        exact (congrArg Pcb.state (setState_other _ hne)).trans (setState_self _)
      · intro i h1 h2
        rw [setContext_state]
        exact congrArg Pcb.state ((setState_other _ h1).trans (setState_other _ h2))

/-- The parent's slot depends on the processes only. -/
theorem parentSlot_same (h : SameProcesses t t') (p : ℕ) :
    parentSlot t' p=parentSlot t p := by
  rw [parentSlot,parentSlot,h.parentPid]

/-- The parent's slot is in the table. -/
theorem parentSlot_lt (t : Table κ) (p : ℕ) : parentSlot t p < maxProc := by
  rw [parentSlot]
  split
  · norm_num
  · omega

/-- What the end of the current process changes. -/
structure Left (t t' : Table κ) (p : ℕ) : Prop where
  /-- The processes are the same. -/
  same : SameProcesses t t'
  /-- The parent's slot is current. -/
  current : t'.currentPid=parentSlot t p
  /-- The process is dead. -/
  dead : (t'.pcbs p).state=.zombie
  /-- The others change only by being woken. -/
  others : ∀ i, i≠p → (t'.pcbs i).state=(t.pcbs i).state ∨
    (t.pcbs i).state=.blocked ∧ (t'.pcbs i).state=.ready

/-- `process_exit_current` returns at once or resumes the parent's slot. -/
theorem processExitCurrent_cases (t : Table κ) (code : ℤ) (saved : κ) :
    processCurrent t=none ∧ processExitCurrent t code saved=⟨t,none,none⟩ ∨ ∃ t' p,
      processCurrent t=some p ∧
      processExitCurrent t code saved=⟨t',none,some (parentSlot t p)⟩ ∧ Left t t' p := by
  rw [processExitCurrent]
  cases hcur : processCurrent t with
  | none => exact .inl ⟨rfl,rfl⟩
  | some p =>
    dsimp only
    generalize ((setState (setExitCode t p code) p .zombie).pcbs p).pid=pid
    have hdied := died_wake t p code pid
    rw [parentSlot_same hdied.same p]
    have hwoken := woken_readyParent
      (procWakeParent (setState (setExitCode t p code) p .zombie) pid) (parentSlot t p)
    refine .inr ⟨_,p,rfl,rfl,?_⟩
    refine ⟨((hdied.same.trans hwoken.same).trans (sameProcesses_current _ _)).trans
      (sameProcesses_setContext _),rfl,?_,fun i hi => ?_⟩
    · rw [setContext_state]
      exact (hwoken.state_eq (by simp [hdied.dead])).trans hdied.dead
    · rw [setContext_state]
      rcases hdied.others i hi with h1 | ⟨h1,h2⟩
      · rw [←h1]
        exact hwoken.states i
      · exact .inr ⟨h1,(hwoken.state_eq (by simp [h2])).trans h2⟩

/-- `proc_exit` in a slot of the table dies and schedules. -/
theorem procExit_eq (t : Table κ) (code : ℤ) (saved : κ) (h : t.currentPid < maxProc) :
    ∃ t', Died t t' t.currentPid ∧ procExit t code saved=scheduleSwitch t' saved := by
  rw [procExit,if_neg (by omega)]
  exact ⟨_,died_wake t t.currentPid code _,rfl⟩

/-- One round of `proc_waitpid` finds nothing, reaps, or blocks and schedules. -/
theorem procWaitpid_cases (t : Table κ) (pid : ℤ) (saved : κ) :
    procWaitpid t pid saved=⟨t,none,none⟩ ∨
    (∃ i, i < maxProc ∧ (t.pcbs i).pid=pid ∧ (t.pcbs i).state=.zombie ∧
      procWaitpid t pid saved=⟨setState t i .empty,none,none⟩) ∨
    (∃ i, findAny t pid=some i ∧ (t.pcbs i).state≠.zombie ∧
      procWaitpid t pid saved=scheduleSwitch (setState t t.currentPid .blocked) saved) := by
  rw [procWaitpid]
  cases hfind : findAny t pid with
  | none => exact .inl rfl
  | some i =>
    have hpid : (t.pcbs i).pid=pid := by simpa using List.find?_some hfind
    have hlt : i < maxProc := List.mem_range.mp (List.mem_of_find?_eq_some hfind)
    by_cases hz : (t.pcbs i).state=.zombie
    · exact .inr (.inl ⟨i,hlt,hpid,hz,if_pos hz⟩)
    · exact .inr (.inr ⟨i,rfl,hz,if_neg hz⟩)

/-- `process_create_user` finds no slot, loses one, or fills the next one. -/
theorem createUser_cases (t : Table κ) (kstack : Option ℕ) (pml4 : ℕ) (frame : κ) :
    maxProc≤t.pcbCount ∧ processCreateUser t kstack pml4 frame=(-1,t) ∨
    t.pcbCount < maxProc ∧ kstack=none ∧
      processCreateUser t kstack pml4 frame=(-1,{ t with pcbCount := t.pcbCount+1 }) ∨
    ∃ stack, t.pcbCount < maxProc ∧ kstack=some stack ∧ processCreateUser t kstack pml4 frame=
      (t.nextPid,{ putProcess t t.pcbCount stack pml4 frame with pcbCount := t.pcbCount+1 }) := by
  rw [processCreateUser,allocPcb]
  by_cases hroom : maxProc≤t.pcbCount
  · exact .inl ⟨hroom,by rw [if_pos hroom]⟩
  · rw [if_neg hroom]
    cases kstack with
    | none => exact .inr (.inl ⟨by omega,rfl,rfl⟩)
    | some stack => exact .inr (.inr ⟨stack,by omega,rfl,rfl⟩)

/-- `proc_spawn` fails or fills an empty slot. -/
theorem procSpawn_cases (t : Table κ) (kstack pml4 : Option ℕ) (frame : κ) :
    procSpawn t kstack pml4 frame=(-1,t) ∨ ∃ slot stack root, slot < maxProc ∧
      (t.pcbs slot).state=.empty ∧ kstack=some stack ∧ pml4=some root ∧
      procSpawn t kstack pml4 frame=(t.nextPid,putProcess t slot stack root frame) := by
  rw [procSpawn]
  cases hfind : findEmpty t with
  | none => exact .inl rfl
  | some slot =>
    have hempty : (t.pcbs slot).state=.empty := by simpa using List.find?_some hfind
    have hlt : slot < maxProc := List.mem_range.mp (List.mem_of_find?_eq_some hfind)
    cases kstack with
    | none => exact .inl rfl
    | some stack =>
      cases pml4 with
      | none => exact .inl rfl
      | some root => exact .inr ⟨slot,stack,root,hlt,hempty,rfl,rfl,rfl⟩

/-- The slot of a new process. -/
theorem putProcess_self (t : Table κ) (slot kstack pml4 : ℕ) (frame : κ) :
    (putProcess t slot kstack pml4 frame).pcbs slot=
      ⟨t.nextPid,.ready,true,kstack+stackSize,pml4,t.currentPid,0,frame⟩ :=
  Function.update_self ..

/-- A new process leaves the other slots alone. -/
theorem putProcess_other {kstack pml4 : ℕ} {frame : κ} (h : i≠slot) :
    (putProcess t slot kstack pml4 frame).pcbs i=t.pcbs i :=
  Function.update_of_ne h _ _

/-- The scheduler creates nothing. -/
theorem scheduleSwitch_created (t : Table κ) (saved : κ) :
    (scheduleSwitch t saved).created=none := by
  rcases scheduleSwitch_cases t saved with hout | ⟨t',next,hout,_⟩ <;> rw [hout]

/-- A call that returns a number filled a slot: the next one, or an empty one. -/
theorem call_created {saved : κ} {c : Call κ} {pid : ℤ} (h : (call t saved c).created=some pid) :
    (∃ stack root frame, t.pcbCount < maxProc ∧ c=.createUser (some stack) root frame ∧
      (call t saved c).table=
        { putProcess t t.pcbCount stack root frame with pcbCount := t.pcbCount+1 }) ∨
    ∃ slot stack root frame, (t.pcbs slot).state=.empty ∧ c=.spawn (some stack) (some root) frame ∧
      (call t saved c).table=putProcess t slot stack root frame := by
  cases c with
  | createUser kstack root frame =>
    rw [call] at h ⊢
    rcases createUser_cases t kstack root frame with ⟨_,hout⟩ | ⟨_,_,hout⟩ | ⟨stack,hroom,rfl,hout⟩
    · rw [hout] at h
      cases h
    · rw [hout] at h
      cases h
    · exact .inl ⟨stack,root,frame,hroom,rfl,by rw [hout]; rfl⟩
  | spawn kstack root frame =>
    rw [call] at h ⊢
    rcases procSpawn_cases t kstack root frame with hout | ⟨slot,stack,root,_,hempty,rfl,rfl,hout⟩
    · rw [hout] at h
      cases h
    · exact .inr ⟨slot,stack,root,frame,hempty,rfl,by rw [hout]; rfl⟩
  | switchTo pid =>
    rw [call] at h
    rcases processSwitchTo_cases t pid saved with hout | ⟨t',cur,next,_,_,hout,_⟩ <;>
    · rw [hout] at h
      cases h
  | schedule =>
    rw [call,scheduleSwitch_created] at h
    cases h
  | exit code =>
    rw [call,procExit] at h
    split at h
    next => cases h
    next =>
      rw [scheduleSwitch_created] at h
      cases h
  | exitCurrent code =>
    rw [call] at h
    rcases processExitCurrent_cases t code saved with ⟨_,hout⟩ | ⟨t',p,_,hout,_⟩ <;>
    · rw [hout] at h
      cases h
  | waitpid pid =>
    rw [call] at h
    rcases procWaitpid_cases t pid saved with hout | ⟨i,_,_,_,hout⟩ | ⟨i,_,_,hout⟩
    · rw [hout] at h
      cases h
    · rw [hout] at h
      cases h
    · rw [hout,scheduleSwitch_created] at h
      cases h

end OvsbMk.ProcessCalls
