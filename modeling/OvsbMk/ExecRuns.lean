import OvsbMk.Processes

/-!
# Running programs from the shell

The shell's commands `run` and `exec` create a process, switch to it and take
the return of `process_switch_to` for the end of the program; `exec` then frees
the program's user stack. A timer tick can come between any two statements and
calls the scheduler. The model follows the processor: the flow of control that
has it, and the flow saved in each slot.

Nothing is assumed about what a user process does once it has been dispatched:
it may halt, be interrupted or call `exit`. As long as no tick takes the
processor from a process that has not exited, every freed stack belongs to a
dead process.
-/

namespace OvsbMk.ExecRuns

open Processes

/-- The two commands that start a program. -/
inductive Command
  /-- The built-in program, on a static stack. -/
  | run
  /-- A program from the disk, on a stack that is freed afterwards. -/
  | exec
  deriving DecidableEq,Repr

/-- What a command knows of the process it created. -/
structure Call where
  /-- The command. -/
  command : Command
  /-- Slot of the process. -/
  slot : ℕ
  /-- Number of the process. -/
  pid : ℕ
  deriving DecidableEq,Repr

/-- The writing statements of `process_switch_to`; `context_switch` is one for
saving and one for restoring. -/
inductive SwitchStage
  /-- The old process becomes ready. -/
  | markReady
  /-- The current number changes. -/
  | setCurrent
  /-- The new process becomes running. -/
  | markRunning
  /-- The old context is saved. -/
  | save
  /-- The new context is restored. -/
  | load
  deriving DecidableEq,Repr

/-- The writing statements of `process_exit_current`. -/
inductive ExitStage
  /-- The exit code is recorded. -/
  | record
  /-- The process becomes a zombie. -/
  | die
  /-- A waiting parent is woken. -/
  | wake
  /-- The parent's slot becomes ready. -/
  | readyParent (parent : ℕ)
  /-- The current number changes to the parent's slot. -/
  | setCurrent (parent : ℕ)
  /-- The context is saved. -/
  | save (parent : ℕ)
  /-- The parent's context is restored. -/
  | load (parent : ℕ)
  deriving DecidableEq,Repr

/-- A flow of control. -/
inductive Flow
  /-- The idle loop. -/
  | idle
  /-- The shell between two commands. -/
  | prompt
  /-- The shell in a command, at the call of `process_switch_to`. -/
  | switchTo (call : Call)
  /-- The shell inside `process_switch_to`, with the two slots found. -/
  | switching (call : Call) (cur next : ℕ) (stage : SwitchStage)
  /-- The shell after `process_switch_to` returned. -/
  | returned (call : Call)
  /-- A user process. -/
  | user
  /-- A process inside `process_exit_current`, with its slot and exit code. -/
  | exiting (p : ℕ) (code : ℤ) (stage : ExitStage)
  /-- A process that halts for ever after a failed exit. -/
  | halted
  deriving DecidableEq,Repr

/-- The process table, the flow that has the processor, and the slots of the
processes whose user stacks have been freed. -/
structure State where
  /-- The process table. -/
  table : Table Flow
  /-- The running flow. -/
  flow : Flow
  /-- Slots whose user stack has been freed. -/
  freed : ℕ → Bool

/-- The flow a slot resumes: user processes go back to their program, others
return from `context_switch`. -/
def resume (p : Pcb Flow) : Flow := if p.isUser then .user else p.context

/-- The kernel right after `process_init`, with the shell at its prompt. -/
def boot (kstack pml4 : ℕ) : State :=
  ⟨processInit (some kstack) pml4 .idle,.prompt,fun _ => false⟩

/-- A timer tick: the scheduler may switch from the running flow to another. -/
def timerTick (s : State) : State :=
  match schedule s.table with
  | none => s
  | some (prev,next,t) =>
    { s with table := setContext t prev s.flow,flow := resume (t.pcbs next) }

/-- A command creates its process; without one it gives up. -/
def startCommand (s : State) (command : Command) (kstack : Option ℕ) (pml4 : ℕ) : State :=
  let (pid,t) := processCreateUser s.table kstack pml4 .user
  if pid<0 then { s with table := t }
  else { s with table := t,flow := .switchTo ⟨command,s.table.pcbCount,pid.toNat⟩ }

/-- One statement of `process_switch_to`. -/
def switchStep (s : State) (call : Call) (cur next : ℕ) : SwitchStage → State
  | .markReady => { s with
      table := setState s.table s.table.currentPid .ready,
      flow := .switching call cur next .setCurrent }
  | .setCurrent => { s with
      table := { s.table with currentPid := call.pid },
      flow := .switching call cur next .markRunning }
  | .markRunning => { s with
      table := setState s.table next .running,
      flow := .switching call cur next .save }
  | .save => { s with
      table := setContext s.table cur (.returned call),
      flow := .switching call cur next .load }
  | .load => { s with flow := resume (s.table.pcbs next) }

/-- One statement of `process_exit_current`. -/
def exitStep (s : State) (p : ℕ) (code : ℤ) : ExitStage → State
  | .record => { s with table := setExitCode s.table p code,flow := .exiting p code .die }
  | .die => { s with table := setState s.table p .zombie,flow := .exiting p code .wake }
  | .wake => { s with
      table := procWakeParent s.table (s.table.pcbs p).pid,
      flow := .exiting p code (.readyParent (parentSlot s.table p)) }
  | .readyParent parent => { s with
      table := readyParent s.table parent,
      flow := .exiting p code (.setCurrent parent) }
  | .setCurrent parent => { s with
      table := { s.table with currentPid := parent },
      flow := .exiting p code (.save parent) }
  | .save parent => { s with
      table := setContext s.table p .halted,
      flow := .exiting p code (.load parent) }
  | .load parent => { s with flow := resume (s.table.pcbs parent) }

/-- The next statement of the running flow. -/
def advance (s : State) : State :=
  match s.flow with
  | .switchTo call =>
    match processCurrent s.table,findSlot s.table call.pid with
    | some cur,some next => { s with flow := .switching call cur next .markReady }
    | _,_ => { s with flow := .returned call }
  | .switching call cur next stage => switchStep s call cur next stage
  | .returned call =>
    { s with
      flow := .prompt,
      freed := if call.command=.exec then Function.update s.freed call.slot true else s.freed }
  | .exiting p code stage => exitStep s p code stage
  | .idle | .prompt | .user | .halted => s

/-- A user process calls `exit`. -/
def callExit (s : State) (code : ℤ) : State :=
  match processCurrent s.table with
  | none => { s with flow := .halted }
  | some p => { s with flow := .exiting p code .record }

/-- What can happen next. -/
inductive Action
  /-- A timer tick. -/
  | tick
  /-- The running flow goes on. -/
  | advance
  /-- The shell takes a command; `kmalloc` answers for the kernel stack. -/
  | command (command : Command) (kstack : Option ℕ) (pml4 : ℕ)
  /-- A user process calls `exit`. -/
  | exit (code : ℤ)

/-- The state after an action, if the running flow can take it. -/
def step (s : State) : Action → Option State
  | .tick => some (timerTick s)
  | .advance => some (advance s)
  | .command command kstack pml4 =>
    if s.flow=.prompt then some (startCommand s command kstack pml4) else none
  | .exit code => if s.flow=.user then some (callExit s code) else none

/-- A tick that leaves the processor with the current process, or finds it dead;
every other action. -/
def Undisturbed (s : State) : Action → Prop
  | .tick => findNextReady s.table=s.table.currentPid ∨
      ∃ p, processCurrent s.table=some p ∧ (s.table.pcbs p).state=.zombie
  | _ => True

/-- The states of the runs from boot whose actions all satisfy a condition. -/
inductive Reaches (allowed : State → Action → Prop) : State → Prop
  /-- The run without actions. -/
  | boot (kstack pml4 : ℕ) : Reaches allowed (boot kstack pml4)
  /-- A run with one more action. -/
  | step {s s' : State} (a : Action) (h : Reaches allowed s) (ha : allowed s a)
    (hs : step s a=some s') : Reaches allowed s'

/-- No stack of a process that could still run has been freed, and at the moment
a stack is about to be freed its process is dead. -/
def StacksSafe (s : State) : Prop :=
  (∀ i, s.freed i=true → (s.table.pcbs i).state=.zombie) ∧
    ∀ call, s.flow=.returned call → (s.table.pcbs call.slot).state=.zombie

variable {t t' : Table Flow} {s s' : State} {i : ℕ} {call : Call}

/-- What holds of the processes in the table, whatever their states: the idle
process, user processes with the idle process as parent, and slots lost for
lack of memory; numbers are never given twice and never exceed the slots. -/
structure Settled (t : Table Flow) : Prop where
  /-- The idle process has a slot. -/
  count_pos : 0<t.pcbCount
  /-- The table does not overflow. -/
  count_le : t.pcbCount ≤ maxProc
  /-- User processes have positive numbers. -/
  next_pos : 0<t.nextPid
  /-- There are at least as many slots as numbers. -/
  next_le : t.nextPid≤t.pcbCount
  /-- The idle process has number zero. -/
  idlePid : (t.pcbs 0).pid=0
  /-- The idle process stands for the shell, which is kernel code. -/
  idleKernel : (t.pcbs 0).isUser=false
  /-- The other slots. -/
  used : ∀ i, 0 < i → i<t.pcbCount → (t.pcbs i).pid=-1 ∨
    0<(t.pcbs i).pid ∧ (t.pcbs i).pid<t.nextPid ∧ (t.pcbs i).isUser=true ∧
      (t.pcbs i).parentPid=0
  /-- Slots not handed out have no number. -/
  unused : ∀ i, t.pcbCount ≤ i → (t.pcbs i).pid=-1
  /-- Numbers are unique. -/
  unique : ∀ i j, i<t.pcbCount → j<t.pcbCount → 0≤(t.pcbs i).pid →
    (t.pcbs i).pid=(t.pcbs j).pid → i=j

/-- The command's process is in its slot. -/
def Created (t : Table Flow) (call : Call) : Prop :=
  0<call.slot ∧ call.slot<t.pcbCount ∧ (t.pcbs call.slot).pid=call.pid

/-- The shell's slot is ready or running. -/
def Up (t : Table Flow) : Prop := (t.pcbs 0).state=.ready ∨ (t.pcbs 0).state=.running

/-- No slot but the shell's and possibly one more holds a process that could run. -/
def Quiet (t : Table Flow) (slot : ℕ) : Prop :=
  ∀ i, 0 < i → i≠slot → (t.pcbs i).state=.empty ∨ (t.pcbs i).state=.zombie

/-- The shell waits in its slot for the return of `process_switch_to`. -/
def Parked (t : Table Flow) (call : Call) : Prop :=
  (t.pcbs 0).state=.ready ∧ (t.pcbs 0).context=.returned call ∧ Quiet t call.slot

/-- What holds while the shell is inside `process_switch_to`. -/
def SwitchInv (t : Table Flow) (call : Call) : SwitchStage → Prop
  | .markReady => t.currentPid=0 ∧ Up t ∧ (t.pcbs call.slot).state=.ready
  | .setCurrent => t.currentPid=0 ∧ (t.pcbs 0).state=.ready ∧ (t.pcbs call.slot).state=.ready
  | .markRunning =>
    t.currentPid=call.pid ∧ (t.pcbs 0).state=.ready ∧ (t.pcbs call.slot).state=.ready
  | .save => t.currentPid=call.pid ∧ (t.pcbs 0).state=.ready ∧ (t.pcbs call.slot).state=.running
  | .load =>
    t.currentPid=call.pid ∧ (t.pcbs 0).state=.ready ∧ (t.pcbs call.slot).state=.running ∧
      (t.pcbs 0).context=.returned call

/-- What holds while a process is inside `process_exit_current`. -/
def ExitInv (t : Table Flow) (call : Call) : ExitStage → Prop
  | .record | .die => t.currentPid=call.pid ∧ (t.pcbs call.slot).state=.running
  | .wake => t.currentPid=call.pid ∧ (t.pcbs call.slot).state=.zombie
  | .readyParent parent | .setCurrent parent =>
    t.currentPid=call.pid ∧ (t.pcbs call.slot).state=.zombie ∧ parent=0
  | .save parent | .load parent =>
    t.currentPid=0 ∧ (t.pcbs call.slot).state=.zombie ∧ parent=0

/-- What holds while a flow has the processor. -/
def FlowInv (t : Table Flow) : Flow → Prop
  | .prompt => t.currentPid=0 ∧ Up t ∧ Quiet t 0
  | .switchTo call => Created t call ∧ Quiet t call.slot ∧ t.currentPid=0 ∧ Up t ∧
      (t.pcbs call.slot).state=.ready
  | .switching call cur next stage => Created t call ∧ Quiet t call.slot ∧ cur=0 ∧
      next=call.slot ∧ SwitchInv t call stage
  | .returned call => Created t call ∧ Quiet t call.slot ∧ t.currentPid=0 ∧ Up t ∧
      (t.pcbs call.slot).state=.zombie
  | .user => ∃ call, Created t call ∧ Parked t call ∧ t.currentPid=call.pid ∧
      (t.pcbs call.slot).state=.running
  | .exiting p _ stage => ∃ call, Created t call ∧ Parked t call ∧ p=call.slot ∧
      ExitInv t call stage
  | .idle | .halted => False

/-- The invariant of undisturbed runs. -/
structure Inv (s : State) : Prop where
  /-- The processes of the table. -/
  settled : Settled s.table
  /-- The running flow. -/
  flow : FlowInv s.table s.flow
  /-- Freed stacks belong to dead processes. -/
  freed : ∀ i, s.freed i=true → i<s.table.pcbCount ∧ (s.table.pcbs i).state=.zombie

/-- The processes of the table do not depend on their states. -/
theorem Settled.of_same (h : Settled t) (hs : SameProcesses t t') : Settled t' := by
  refine ⟨?_,?_,?_,?_,?_,?_,?_,?_,?_⟩
  · rw [hs.pcbCount]
    exact h.count_pos
  · rw [hs.pcbCount]
    exact h.count_le
  · rw [hs.nextPid]
    exact h.next_pos
  · rw [hs.nextPid,hs.pcbCount]
    exact h.next_le
  · rw [hs.pid]
    exact h.idlePid
  · rw [hs.isUser]
    exact h.idleKernel
  · intro i hi hlt
    rw [hs.pcbCount] at hlt
    rw [hs.pid,hs.isUser,hs.parentPid,hs.nextPid]
    exact h.used i hi hlt
  · intro i hi
    rw [hs.pcbCount] at hi
    rw [hs.pid]
    exact h.unused i hi
  · intro i j hi hj hpos heq
    rw [hs.pcbCount] at hi hj
    rw [hs.pid] at hpos
    rw [hs.pid,hs.pid] at heq
    exact h.unique i j hi hj hpos heq

/-- The command's process stays. -/
theorem Created.of_same (h : Created t call) (hs : SameProcesses t t') : Created t' call :=
  ⟨h.1,hs.pcbCount ▸ h.2.1,(hs.pid call.slot).trans h.2.2⟩

/-- With number zero the shell is the current process. -/
theorem Settled.current_shell (h : Settled t) (hcur : t.currentPid=0) :
    processCurrent t=some 0 := by
  rw [processCurrent,hcur]
  refine findSlot_eq h.count_pos h.idlePid fun j hj hpid => ?_
  exact (h.unique 0 j h.count_pos hj h.idlePid.ge (h.idlePid.trans hpid.symm)).symm

/-- The command's process is found under its number. -/
theorem Settled.find_call (h : Settled t) (hc : Created t call) :
    findSlot t call.pid=some call.slot := by
  obtain ⟨_,hlt,hpid⟩ := hc
  refine findSlot_eq hlt hpid fun j hj hj' => ?_
  exact (h.unique call.slot j hlt hj (by omega) (hpid.trans hj'.symm)).symm

/-- The command's process is an ordinary child of the shell. -/
theorem Settled.call_used (h : Settled t) (hc : Created t call) :
    0<call.pid ∧ call.pid < maxProc ∧ (t.pcbs call.slot).isUser=true ∧
      (t.pcbs call.slot).parentPid=0 := by
  obtain ⟨hpos,hlt,hpid⟩ := hc
  have hnext := h.next_le
  have hcount := h.count_le
  rcases h.used call.slot hpos hlt with hnone | ⟨h1,h2,h3,h4⟩
  · omega
  · exact ⟨by omega,by omega,h3,h4⟩

/-- Changing the state of the shell's slot or of the one excepted slot keeps the
others quiet. -/
theorem Quiet.setState {slot : ℕ} (h : Quiet t slot) (state : ProcState) (hi : i=0 ∨ i=slot) :
    Quiet (setState t i state) slot := by
  intro j hpos hj
  rw [setState_other state (by omega)]
  exact h j hpos hj

/-- Saving a context keeps the other slots quiet. -/
theorem Quiet.setContext {slot : ℕ} (h : Quiet t slot) (context : Flow) :
    Quiet (setContext t i context) slot := by
  intro j hpos hj
  rw [setContext_state]
  exact h j hpos hj

/-- Zombies stay zombies when the state of a slot that is none changes. -/
theorem zombie_setState {j : ℕ} (state : ProcState) (hi : (t.pcbs i).state≠.zombie)
    (h : (t.pcbs j).state=.zombie) : ((setState t i state).pcbs j).state=.zombie := by
  rw [setState_other state (by rintro rfl; exact hi h)]
  exact h

/-- The shell's slot is no zombie. -/
theorem Up.ne_zombie (h : Up t) : (t.pcbs 0).state≠.zombie := by
  rcases h with h | h <;> simp [h]

/-- Each statement of `process_switch_to` keeps the invariant. -/
theorem switchStep_inv {cur next : ℕ} {stage : SwitchStage} (h : Inv s)
    (hflow : s.flow=.switching call cur next stage) : Inv (switchStep s call cur next stage) := by
  obtain ⟨hset,hf,hfreed⟩ := h
  rw [hflow] at hf
  obtain ⟨hc,hq,rfl,rfl,hstage⟩ := hf
  have hslot : call.slot≠0 := hc.1.ne'
  cases stage with
  | markReady =>
    obtain ⟨hcur,hup,hready⟩ := hstage
    have hsame := sameProcesses_setState (t:=s.table) (i:=0) .ready
    rw [switchStep,hcur]
    refine ⟨hset.of_same hsame,⟨hc.of_same hsame,hq.setState _ (Or.inl rfl),rfl,rfl,hcur,
      setState_self _,?_⟩,fun i hi => (hfreed i hi).imp_right (zombie_setState _ hup.ne_zombie)⟩
    rw [setState_other _ hslot]
    exact hready
  | setCurrent =>
    obtain ⟨_,hzero,hready⟩ := hstage
    exact ⟨hset.of_same (sameProcesses_current _ _),
      ⟨hc,hq,rfl,rfl,rfl,hzero,hready⟩,hfreed⟩
  | markRunning =>
    obtain ⟨hcur,hzero,hready⟩ := hstage
    have hsame := sameProcesses_setState (t:=s.table) (i:=call.slot) .running
    refine ⟨hset.of_same hsame,⟨hc.of_same hsame,hq.setState _ (Or.inr rfl),rfl,rfl,hcur,?_,
      setState_self _⟩,fun i hi =>
        (hfreed i hi).imp_right (zombie_setState _ (by simp [hready]))⟩
    rw [switchStep,setState_other _ hslot.symm]
    exact hzero
  | save =>
    obtain ⟨hcur,hzero,hrun⟩ := hstage
    have hsame := sameProcesses_setContext (t:=s.table) (i:=0) (.returned call)
    refine ⟨hset.of_same hsame,⟨hc.of_same hsame,hq.setContext _,rfl,rfl,hcur,?_,?_,?_⟩,
      fun i hi => ?_⟩
    · exact (setContext_state _).trans hzero
    · exact (setContext_state _).trans hrun
    · rw [switchStep,setContext_pcbs,if_pos rfl]
    · exact (hfreed i hi).imp_right (setContext_state _).trans
  | load =>
    obtain ⟨hcur,hzero,hrun,hctx⟩ := hstage
    have huser : resume (s.table.pcbs call.slot)=.user := by
      rw [resume,if_pos (hset.call_used hc).2.2.1]
    rw [switchStep,huser]
    exact ⟨hset,⟨call,hc,⟨hzero,hctx,hq⟩,hcur,hrun⟩,hfreed⟩

/-- While the shell is parked, changes that keep all states and the shell's
context keep it parked. -/
theorem Parked.congr (h : Parked t call)
    (hstate : ∀ i, i≠call.slot → (t'.pcbs i).state=(t.pcbs i).state)
    (hctx : (t'.pcbs 0).context=(t.pcbs 0).context) (hslot : call.slot≠0) : Parked t' call := by
  obtain ⟨h0,hc,hq⟩ := h
  refine ⟨(hstate 0 hslot.symm).trans h0,hctx.trans hc,fun i hpos hi => ?_⟩
  rw [hstate i hi]
  exact hq i hpos hi

/-- Each statement of `process_exit_current` keeps the invariant. -/
theorem exitStep_inv {p : ℕ} {code : ℤ} {stage : ExitStage} (h : Inv s)
    (hflow : s.flow=.exiting p code stage) : Inv (exitStep s p code stage) := by
  obtain ⟨hset,hf,hfreed⟩ := h
  rw [hflow] at hf
  obtain ⟨call,hc,hpark,rfl,hstage⟩ := hf
  have hslot : call.slot≠0 := hc.1.ne'
  cases stage with
  | record =>
    obtain ⟨hcur,hrun⟩ := hstage
    have hsame := sameProcesses_setExitCode (t:=s.table) (i:=call.slot) code
    exact ⟨hset.of_same hsame,⟨call,hc.of_same hsame,
      hpark.congr (fun _ _ => setExitCode_state _) (setExitCode_context _) hslot,rfl,hcur,
      (setExitCode_state _).trans hrun⟩,fun i hi =>
        (hfreed i hi).imp_right (setExitCode_state _).trans⟩
  | die =>
    obtain ⟨hcur,hrun⟩ := hstage
    have hsame := sameProcesses_setState (t:=s.table) (i:=call.slot) .zombie
    refine ⟨hset.of_same hsame,⟨call,hc.of_same hsame,
      hpark.congr (fun i hi => ?_) (setState_context _) hslot,rfl,hcur,setState_self _⟩,
      fun i hi => (hfreed i hi).imp_right (zombie_setState _ (by simp [hrun]))⟩
    rw [exitStep,setState_other _ hi]
  | wake =>
    obtain ⟨hcur,hdead⟩ := hstage
    have hnone : ∀ i, (s.table.pcbs i).state≠.blocked := by
      intro i
      rcases Nat.eq_zero_or_pos i with rfl | hpos
      · simp [hpark.1]
      · rcases eq_or_ne i call.slot with rfl | hi
        · simp [hdead]
        · rcases hpark.2.2 i hpos hi with h | h <;> simp [h]
    have hparent : parentSlot s.table call.slot=0 := by
      rw [parentSlot,(hset.call_used hc).2.2.2]
      rfl
    rw [exitStep,procWakeParent_none hnone,hparent]
    exact ⟨hset,⟨call,hc,hpark,rfl,hcur,hdead,rfl⟩,hfreed⟩
  | readyParent parent =>
    obtain ⟨hcur,hdead,rfl⟩ := hstage
    have hready : readyParent s.table 0=setState s.table 0 .ready := if_pos (Or.inr hpark.1)
    have hstate : ∀ i, ((setState s.table 0 .ready).pcbs i).state=(s.table.pcbs i).state := by
      intro i
      rcases eq_or_ne i 0 with rfl | hi
      · rw [setState_self,hpark.1]
      · rw [setState_other _ hi]
    have hsame := sameProcesses_setState (t:=s.table) (i:=0) .ready
    rw [exitStep,hready]
    exact ⟨hset.of_same hsame,⟨call,hc.of_same hsame,
      hpark.congr (fun i _ => hstate i) (setState_context _) hslot,rfl,hcur,
      (hstate _).trans hdead,rfl⟩,fun i hi => (hfreed i hi).imp_right (hstate i).trans⟩
  | setCurrent parent =>
    obtain ⟨_,hdead,rfl⟩ := hstage
    exact ⟨hset.of_same (sameProcesses_current _ _),
      ⟨call,hc,hpark,rfl,rfl,hdead,rfl⟩,hfreed⟩
  | save parent =>
    obtain ⟨hcur,hdead,rfl⟩ := hstage
    have hsame := sameProcesses_setContext (t:=s.table) (i:=call.slot) .halted
    refine ⟨hset.of_same hsame,⟨call,hc.of_same hsame,
      hpark.congr (fun _ _ => setContext_state _) ?_ hslot,rfl,hcur,
      (setContext_state _).trans hdead,rfl⟩,fun i hi =>
        (hfreed i hi).imp_right (setContext_state _).trans⟩
    rw [exitStep,setContext_pcbs,if_neg hslot.symm]
  | load parent =>
    obtain ⟨hcur,hdead,rfl⟩ := hstage
    have hback : resume (s.table.pcbs 0)=.returned call := by
      rw [resume,hset.idleKernel,if_neg (by decide),hpark.2.1]
    rw [exitStep,hback]
    exact ⟨hset,⟨hc,hpark.2.2,hcur,Or.inl hpark.1,hdead⟩,hfreed⟩

/-- The call of `exit` keeps the invariant. -/
theorem callExit_inv {code : ℤ} (h : Inv s) (hflow : s.flow=.user) : Inv (callExit s code) := by
  obtain ⟨hset,hf,hfreed⟩ := h
  rw [hflow] at hf
  obtain ⟨call,hc,hpark,hcur,hrun⟩ := hf
  have hfind : processCurrent s.table=some call.slot := by
    rw [processCurrent,hcur]
    exact hset.find_call hc
  rw [callExit,hfind]
  exact ⟨hset,⟨call,hc,hpark,rfl,hcur,hrun⟩,hfreed⟩

/-- A slot lost for lack of memory. -/
theorem Settled.lost (h : Settled t) (hroom : t.pcbCount < maxProc) :
    Settled { t with pcbCount := t.pcbCount+1 } := by
  have hnone := h.unused t.pcbCount le_rfl
  refine ⟨Nat.succ_pos _,hroom,h.next_pos,?_,h.idlePid,h.idleKernel,?_,?_,?_⟩
  · have := h.next_le
    push_cast
    omega
  · intro i hi hlt
    rcases Nat.lt_succ_iff_lt_or_eq.mp hlt with hlt | rfl
    · exact h.used i hi hlt
    · exact Or.inl hnone
  · intro i hi
    exact h.unused i (by have : t.pcbCount+1 ≤ i := hi; omega)
  · intro i j hi hj hpos heq
    rcases Nat.lt_succ_iff_lt_or_eq.mp hi with hi | rfl
    · rcases Nat.lt_succ_iff_lt_or_eq.mp hj with hj | rfl
      · exact h.unique i j hi hj hpos heq
      · have heq' : (t.pcbs i).pid=(t.pcbs t.pcbCount).pid := heq
        have hpos' : 0≤(t.pcbs i).pid := hpos
        omega
    · have hpos' : 0≤(t.pcbs t.pcbCount).pid := hpos
      omega

/-- The table with one more process in the next slot. -/
def withProcess (t : Table Flow) (kstack pml4 : ℕ) : Table Flow :=
  { t with
    pcbCount := t.pcbCount+1,
    nextPid := t.nextPid+1,
    pcbs := Function.update t.pcbs t.pcbCount
      ⟨t.nextPid,.ready,true,kstack+stackSize,pml4,t.currentPid,0,.user⟩ }

/-- A new child of the shell. -/
theorem Settled.created (h : Settled t) (hroom : t.pcbCount < maxProc) (hcur : t.currentPid=0)
    (kstack pml4 : ℕ) : Settled (withProcess t kstack pml4) := by
  have hpos := h.count_pos
  have hnext := h.next_pos
  have hold : ∀ i, i≠t.pcbCount → (withProcess t kstack pml4).pcbs i=t.pcbs i :=
    fun i hi => Function.update_of_ne hi _ _
  have hnew : (withProcess t kstack pml4).pcbs t.pcbCount=
      ⟨t.nextPid,.ready,true,kstack+stackSize,pml4,t.currentPid,0,.user⟩ :=
    Function.update_self ..
  have hbelow : ∀ i, i<t.pcbCount → (t.pcbs i).pid<t.nextPid := by
    intro i hi
    rcases Nat.eq_zero_or_pos i with rfl | hi'
    · rw [h.idlePid]
      exact hnext
    · rcases h.used i hi' hi with hnone | ⟨_,hlt,_,_⟩
      · omega
      · exact hlt
  refine ⟨Nat.succ_pos _,hroom,by simp only [withProcess]; omega,?_,?_,?_,?_,?_,?_⟩
  · have := h.next_le
    simp only [withProcess]
    push_cast
    omega
  · rw [hold 0 hpos.ne]
    exact h.idlePid
  · rw [hold 0 hpos.ne]
    exact h.idleKernel
  · intro i hi hlt
    rcases Nat.lt_succ_iff_lt_or_eq.mp hlt with hlt | rfl
    · rw [hold i hlt.ne]
      rcases h.used i hi hlt with hnone | ⟨h1,h2,h3,h4⟩
      · exact Or.inl hnone
      · exact Or.inr ⟨h1,h2.trans (lt_add_one _),h3,h4⟩
    · rw [hnew]
      exact Or.inr ⟨hnext,lt_add_one _,rfl,by rw [hcur]; rfl⟩
  · intro i hi
    have hi' : t.pcbCount+1 ≤ i := hi
    rw [hold i (by omega)]
    exact h.unused i (by omega)
  · intro i j hi hj hnum heq
    rcases Nat.lt_succ_iff_lt_or_eq.mp hi with hi | rfl
    · rw [hold i hi.ne] at hnum heq
      rcases Nat.lt_succ_iff_lt_or_eq.mp hj with hj | rfl
      · rw [hold j hj.ne] at heq
        exact h.unique i j hi hj hnum heq
      · rw [hnew] at heq
        exact ((hbelow i hi).ne heq).elim
    · rw [hnew] at heq
      rcases Nat.lt_succ_iff_lt_or_eq.mp hj with hj | rfl
      · rw [hold j hj.ne] at heq
        exact ((hbelow j hj).ne heq.symm).elim
      · rfl

/-- Starting a command keeps the invariant. -/
theorem startCommand_inv {command : Command} {kstack : Option ℕ} {pml4 : ℕ} (h : Inv s)
    (hflow : s.flow=.prompt) : Inv (startCommand s command kstack pml4) := by
  obtain ⟨hset,hf,hfreed⟩ := h
  have hf' := hf
  rw [hflow] at hf
  obtain ⟨hcur,hup,hq⟩ := hf
  rw [startCommand,processCreateUser,allocPcb]
  by_cases hroom : maxProc ≤ s.table.pcbCount
  · rw [if_pos hroom]
    exact ⟨hset,hf',hfreed⟩
  · rw [if_neg hroom]
    have hroom' : s.table.pcbCount < maxProc := by omega
    cases kstack with
    | none => exact ⟨hset.lost hroom',by rw [hflow]; exact ⟨hcur,hup,hq⟩,
        fun i hi => (hfreed i hi).imp_left Nat.lt_succ_of_lt⟩
    | some kstack =>
      have hnext := hset.next_pos
      have hpos := hset.count_pos
      have hold : ∀ i, i≠s.table.pcbCount →
          (withProcess s.table kstack pml4).pcbs i=s.table.pcbs i :=
        fun i hi => Function.update_of_ne hi _ _
      have hnew : (withProcess s.table kstack pml4).pcbs s.table.pcbCount=
          ⟨s.table.nextPid,.ready,true,kstack+stackSize,pml4,s.table.currentPid,0,.user⟩ :=
        Function.update_self ..
      dsimp only
      rw [if_neg (by omega)]
      refine ⟨hset.created hroom' hcur kstack pml4,⟨⟨hpos,Nat.lt_succ_self _,?_⟩,?_,hcur,?_,?_⟩,?_⟩
      · change ((withProcess s.table kstack pml4).pcbs s.table.pcbCount).pid=_
        rw [hnew]
        exact (Int.toNat_of_nonneg hnext.le).symm
      · intro i hi hne
        change ((withProcess s.table kstack pml4).pcbs i).state=_ ∨
          ((withProcess s.table kstack pml4).pcbs i).state=_
        rw [hold i hne]
        exact hq i hi hi.ne'
      · change ((withProcess s.table kstack pml4).pcbs 0).state=_ ∨
          ((withProcess s.table kstack pml4).pcbs 0).state=_
        rw [hold 0 hpos.ne]
        exact hup
      · change ((withProcess s.table kstack pml4).pcbs s.table.pcbCount).state=_
        rw [hnew]
      · intro i hi
        obtain ⟨hlt,hdead⟩ := hfreed i hi
        refine ⟨Nat.lt_succ_of_lt hlt,?_⟩
        change ((withProcess s.table kstack pml4).pcbs i).state=_
        rw [hold i hlt.ne]
        exact hdead

/-- The current process is alive, or it is a dead child for which the shell waits. -/
theorem FlowInv.current (hset : Settled t) {flow : Flow} (h : FlowInv t flow) :
    (∃ p, processCurrent t=some p ∧ (t.pcbs p).state≠.zombie) ∨
      ∃ call, Created t call ∧ Parked t call ∧ t.currentPid=call.pid ∧
        (t.pcbs call.slot).state=.zombie := by
  have hshell : t.currentPid=0 → Up t →
      ∃ p, processCurrent t=some p ∧ (t.pcbs p).state≠.zombie :=
    fun hcur hup => ⟨0,hset.current_shell hcur,hup.ne_zombie⟩
  have hchild : ∀ call, Created t call → t.currentPid=call.pid →
      (t.pcbs call.slot).state≠.zombie →
      ∃ p, processCurrent t=some p ∧ (t.pcbs p).state≠.zombie := by
    intro call hc hcur hstate
    refine ⟨call.slot,?_,hstate⟩
    rw [processCurrent,hcur]
    exact hset.find_call hc
  cases flow with
  | idle => exact h.elim
  | halted => exact h.elim
  | prompt => exact Or.inl (hshell h.1 h.2.1)
  | switchTo call => exact Or.inl (hshell h.2.2.1 h.2.2.2.1)
  | returned call => exact Or.inl (hshell h.2.2.1 h.2.2.2.1)
  | switching call cur next stage =>
    obtain ⟨hc,_,_,_,hstage⟩ := h
    refine Or.inl ?_
    cases stage with
    | markReady => exact hshell hstage.1 hstage.2.1
    | setCurrent => exact hshell hstage.1 (Or.inl hstage.2.1)
    | markRunning => exact hchild call hc hstage.1 (by simp [hstage.2.2])
    | save => exact hchild call hc hstage.1 (by simp [hstage.2.2])
    | load => exact hchild call hc hstage.1 (by simp [hstage.2.2.1])
  | user =>
    obtain ⟨call,hc,_,hcur,hrun⟩ := h
    exact Or.inl (hchild call hc hcur (by simp [hrun]))
  | exiting p code stage =>
    obtain ⟨call,hc,hpark,_,hstage⟩ := h
    cases stage with
    | record => exact Or.inl (hchild call hc hstage.1 (by simp [hstage.2]))
    | die => exact Or.inl (hchild call hc hstage.1 (by simp [hstage.2]))
    | wake => exact Or.inr ⟨call,hc,hpark,hstage.1,hstage.2⟩
    | readyParent parent => exact Or.inr ⟨call,hc,hpark,hstage.1,hstage.2.1⟩
    | setCurrent parent => exact Or.inr ⟨call,hc,hpark,hstage.1,hstage.2.1⟩
    | save parent => exact Or.inl (hshell hstage.1 (Or.inl hpark.1))
    | load parent => exact Or.inl (hshell hstage.1 (Or.inl hpark.1))

/-- From a dead child the scheduler goes back to the shell. -/
theorem schedule_dead (hset : Settled t) (hc : Created t call) (hpark : Parked t call)
    (hcur : t.currentPid=call.pid) (hdead : (t.pcbs call.slot).state=.zombie) :
    schedule t=some (call.pid,0,{ setState t 0 .running with currentPid := 0 }) := by
  obtain ⟨hpos,hlt,_,_⟩ := hset.call_used hc
  have hquiet : ∀ i, 0 < i → (t.pcbs i).state=.empty ∨ (t.pcbs i).state=.zombie := by
    intro i hi
    rcases eq_or_ne i call.slot with rfl | hne
    · exact Or.inr hdead
    · exact hpark.2.2 i hi hne
  have hnext : findNextReady t=0 := by
    refine findNextReady_single (by norm_num) hpark.1 fun j _ hj => ?_
    by_contra hne
    rcases hquiet j (Nat.pos_of_ne_zero hne) with h | h <;> simp [h] at hj
  have hprev : (t.pcbs call.pid).state≠.running := by
    rcases hquiet call.pid hpos with h | h <;> simp [h]
  rw [schedule,hnext,hcur]
  dsimp only
  rw [if_neg hpos.ne,if_neg hprev]

/-- A tick that does not take the processor from a live process keeps the
invariant. -/
theorem timerTick_inv (h : Inv s) (hquiet : Undisturbed s .tick) : Inv (timerTick s) := by
  obtain ⟨hset,hf,hfreed⟩ := h
  rcases FlowInv.current hset hf with ⟨p,hp,halive⟩ | ⟨call,hc,hpark,hcur,hdead⟩
  · have hstay : schedule s.table=none := by
      rcases hquiet with hsame | ⟨q,hq,hzombie⟩
      · rw [schedule,hsame]
        exact if_pos rfl
      · obtain rfl : p=q := Option.some.inj (hp.symm.trans hq)
        exact (halive hzombie).elim
    rw [timerTick,hstay]
    exact ⟨hset,hf,hfreed⟩
  · have hpid := (hset.call_used hc).1
    have hslot : call.slot≠0 := hc.1.ne'
    have hback : resume ((setState s.table 0 .running).pcbs 0)=.returned call := by
      rw [resume,(sameProcesses_setState _).isUser,hset.idleKernel,if_neg (by decide),
        setState_context,hpark.2.1]
    rw [timerTick,schedule_dead hset hc hpark hcur hdead]
    dsimp only
    rw [hback]
    have hsame : SameProcesses s.table
        (setContext { setState s.table 0 .running with currentPid := 0 } call.pid s.flow) :=
      ((sameProcesses_setState (i:=0) .running).trans (sameProcesses_current _ 0)).trans
        (sameProcesses_setContext _)
    have hstate : ∀ i, i≠0 →
        ((setContext { setState s.table 0 .running with currentPid := 0 } call.pid s.flow).pcbs
          i).state=(s.table.pcbs i).state := by
      intro i hi
      rw [setContext_state]
      exact congrArg Pcb.state (setState_other _ hi)
    refine ⟨hset.of_same hsame,⟨hc.of_same hsame,fun i hi hne => ?_,rfl,Or.inr ?_,?_⟩,
      fun i hi => ?_⟩
    · rw [hstate i hi.ne']
      exact hpark.2.2 i hi hne
    · rw [setContext_state]
      exact setState_self _
    · exact (hstate _ hslot).trans hdead
    · obtain ⟨hlt,hzombie⟩ := hfreed i hi
      refine ⟨hlt,(hstate i ?_).trans hzombie⟩
      rintro rfl
      simp [hpark.1] at hzombie

/-- The next statement of the running flow keeps the invariant. -/
theorem advance_inv (h : Inv s) : Inv (advance s) := by
  have hall := h
  obtain ⟨hset,hf,hfreed⟩ := h
  rcases hflow : s.flow with _ | _ | call | ⟨call,cur,next,stage⟩ | call | _ | ⟨p,code,stage⟩ | _
  · rw [advance,hflow]
    exact hall
  · rw [advance,hflow]
    exact hall
  · rw [hflow] at hf
    obtain ⟨hc,hq,hcur,hup,hready⟩ := hf
    rw [advance,hflow]
    dsimp only
    rw [hset.current_shell hcur,hset.find_call hc]
    exact ⟨hset,⟨hc,hq,rfl,rfl,hcur,hup,hready⟩,hfreed⟩
  · rw [advance,hflow]
    exact switchStep_inv hall hflow
  · rw [hflow] at hf
    obtain ⟨hc,hq,hcur,hup,hdead⟩ := hf
    rw [advance,hflow]
    refine ⟨hset,⟨hcur,hup,fun i hi _ => ?_⟩,fun i hi => ?_⟩
    · rcases eq_or_ne i call.slot with rfl | hne
      · exact Or.inr hdead
      · exact hq i hi hne
    · dsimp only at hi
      rcases eq_or_ne i call.slot with rfl | hne
      · exact ⟨hc.2.1,hdead⟩
      · refine hfreed i ?_
        split at hi
        · rwa [Function.update_of_ne hne] at hi
        · exact hi
  · rw [advance,hflow]
    exact hall
  · rw [advance,hflow]
    exact exitStep_inv hall hflow
  · rw [advance,hflow]
    exact hall

/-- The invariant holds after boot. -/
theorem boot_inv (kstack pml4 : ℕ) : Inv (boot kstack pml4) := by
  have hzero : (boot kstack pml4).table.pcbs 0=⟨0,.ready,false,kstack+stackSize-8,pml4,0,0,.idle⟩ :=
    rfl
  have hother : ∀ i, i≠0 → (boot kstack pml4).table.pcbs i=⟨-1,.empty,false,0,0,0,0,.idle⟩ :=
    fun i hi => Function.update_of_ne hi _ _
  have hcount : (boot kstack pml4).table.pcbCount=1 := rfl
  refine ⟨⟨by rw [hcount]; norm_num,by rw [hcount]; norm_num,?_,?_,?_,?_,?_,?_,?_⟩,?_,?_⟩
  · exact Int.zero_lt_one
  · exact le_rfl
  · rw [hzero]
  · rw [hzero]
  · intro i hi hlt
    omega
  · intro i hi
    rw [hother i (by omega)]
  · intro i j hi hj _ _
    omega
  · refine ⟨rfl,Or.inl (by rw [hzero]),fun i hi _ => Or.inl ?_⟩
    rw [hother i hi.ne']
  · intro i hi
    cases hi

/-- Every undisturbed action keeps the invariant. -/
theorem step_inv {a : Action} (h : Inv s) (ha : Undisturbed s a) (hs : step s a=some s') :
    Inv s' := by
  cases a with
  | tick =>
    obtain rfl := Option.some.inj hs
    exact timerTick_inv h ha
  | advance =>
    obtain rfl := Option.some.inj hs
    exact advance_inv h
  | command command kstack pml4 =>
    rw [step] at hs
    split at hs
    next hflow =>
      obtain rfl := Option.some.inj hs
      exact startCommand_inv h hflow
    next => cases hs
  | exit code =>
    rw [step] at hs
    split at hs
    next hflow =>
      obtain rfl := Option.some.inj hs
      exact callExit_inv h hflow
    next => cases hs

/-- The invariant holds in every undisturbed run. -/
theorem Reaches.inv (h : Reaches Undisturbed s) : Inv s := by
  induction h with
  | boot kstack pml4 => exact boot_inv kstack pml4
  | step a _ ha hs ih => exact step_inv ih ha hs

/-- In every run in which no tick takes the processor from a live process, user
stacks are freed only after their processes died. -/
theorem undisturbed_stacksSafe (h : Reaches Undisturbed s) : StacksSafe s := by
  obtain ⟨_,hf,hfreed⟩ := h.inv
  refine ⟨fun i hi => (hfreed i hi).2,fun call hflow => ?_⟩
  rw [hflow] at hf
  exact hf.2.2.2.2

/-- A list of actions from a state. -/
def run (s : State) (actions : List Action) : Option State := actions.foldlM step s

/-- The states of lists of allowed actions are reached. -/
theorem reaches_run {allowed : State → Action → Prop} {actions : List Action}
    (h : Reaches allowed s) (hall : ∀ a∈actions, ∀ s, allowed s a)
    (hrun : run s actions=some s') : Reaches allowed s' := by
  induction actions generalizing s with
  | nil =>
    obtain rfl := Option.some.inj hrun
    exact h
  | cons a actions ih =>
    rw [run,List.foldlM_cons] at hrun
    obtain ⟨s1,hs1,hrest⟩ := Option.bind_eq_some_iff.mp hrun
    exact ih (h.step a (hall a (by simp) s) hs1) (fun b hb => hall b (by simp [hb])) hrest

/-- A program is started and a tick comes inside `context_switch`, right after the
shell's context was saved; the shell goes on and frees the stack. -/
def earlyTick : List Action :=
  [.command .exec (some 0x900000) 0x1000,.advance,.advance,.advance,.advance,.advance,.tick,
    .advance]

/-- A program is started, exits, and the shell frees its stack. -/
def quietExec : List Action :=
  [.command .exec (some 0x900000) 0x1000,.advance,.advance,.advance,.advance,.advance,.advance,
    .exit 0,.advance,.advance,.advance,.advance,.advance,.advance,.advance,.advance]

/-- One early tick makes the shell free the stack of a process that is ready. -/
theorem earlyTick_frees_live_stack :
    ∃ s, run (boot 0x902000 0x1000) earlyTick=some s ∧ Reaches (fun _ _ => True) s ∧
      s.freed 1=true ∧ (s.table.pcbs 1).state=.ready ∧ ¬StacksSafe s := by
  obtain ⟨s,hs⟩ : ∃ s, run (boot 0x902000 0x1000) earlyTick=some s := ⟨_,rfl⟩
  have hcheck : (run (boot 0x902000 0x1000) earlyTick).map
      (fun s => (s.freed 1,(s.table.pcbs 1).state))=some (true,.ready) := by decide
  rw [hs] at hcheck
  obtain ⟨hfreed,hstate⟩ := Prod.mk.inj (Option.some.inj hcheck)
  refine ⟨s,hs,reaches_run (Reaches.boot _ _) (fun _ _ _ => trivial) hs,hfreed,hstate,
    fun hsafe => ?_⟩
  have hzombie := hsafe.1 1 hfreed
  rw [hstate] at hzombie
  cases hzombie

/-- A program that exits before the next tick has its stack freed safely. -/
theorem quietExec_stacksSafe :
    ∃ s, run (boot 0x902000 0x1000) quietExec=some s ∧ s.freed 1=true ∧ StacksSafe s := by
  obtain ⟨s,hs⟩ : ∃ s, run (boot 0x902000 0x1000) quietExec=some s := ⟨_,rfl⟩
  have hcheck : (run (boot 0x902000 0x1000) quietExec).map (fun s => s.freed 1)=some true := by
    decide
  rw [hs] at hcheck
  refine ⟨s,hs,Option.some.inj hcheck,undisturbed_stacksSafe
    (reaches_run (Reaches.boot _ _) (fun a ha s => ?_) hs)⟩
  cases a with
  | tick => simp [quietExec] at ha
  | advance => trivial
  | command command kstack pml4 => trivial
  | exit code => trivial

end OvsbMk.ExecRuns
