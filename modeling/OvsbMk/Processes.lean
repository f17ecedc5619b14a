import Mathlib.Data.Int.Basic
import Mathlib.Data.List.Basic
import Mathlib.Logic.Function.Basic
import Mathlib.Tactic.Linarith

/-!
# The process table

Translation of the table functions of `process.c`. What a context switch saves
and resumes is a parameter, so that the table can be used with any model of the
kernel stacks. Process names and the two heap bounds are never read and are
left out.
-/

namespace OvsbMk.Processes

/-- Number of slots of the process table. -/
abbrev maxProc : ℕ := 64

/-- Bytes of a kernel stack. -/
abbrev stackSize : ℕ := 8192

/-- The states of a process. -/
inductive ProcState
  /-- The slot has no process. -/
  | empty
  /-- The process can be resumed. -/
  | ready
  /-- The process has the processor. -/
  | running
  /-- The process waits for a child. -/
  | blocked
  /-- The process has exited. -/
  | zombie
  deriving DecidableEq,Repr

/-- A process control block. -/
structure Pcb (κ : Type) where
  /-- Process number, or minus one. -/
  pid : ℤ
  /-- State of the process. -/
  state : ProcState
  /-- The process is resumed through a user frame. -/
  isUser : Bool
  /-- Top of the kernel stack. -/
  rsp0 : ℕ
  /-- Page table of the process. -/
  pml4 : ℕ
  /-- Number of the process that was current at its creation. -/
  parentPid : ℤ
  /-- Exit code. -/
  exitCode : ℤ
  /-- What `context_switch` saved, or the frame built at creation. -/
  context : κ

/-- The process table and the static variables around it. No function makes
`current_pid` negative. -/
structure Table (κ : Type) where
  /-- The control blocks; only the first 64 exist. -/
  pcbs : ℕ → Pcb κ
  /-- Number of the current process. -/
  currentPid : ℕ
  /-- Slots handed out so far. -/
  pcbCount : ℕ
  /-- Number of the next process. -/
  nextPid : ℤ

variable {κ : Type} {t : Table κ} {i j : ℕ}

/-- Change the state of a slot. -/
def setState (t : Table κ) (i : ℕ) (state : ProcState) : Table κ :=
  { t with pcbs := Function.update t.pcbs i { t.pcbs i with state := state } }

/-- Save a context in a slot. -/
def setContext (t : Table κ) (i : ℕ) (context : κ) : Table κ :=
  { t with pcbs := Function.update t.pcbs i { t.pcbs i with context := context } }

/-- Record the exit code of a slot. -/
def setExitCode (t : Table κ) (i : ℕ) (code : ℤ) : Table κ :=
  { t with pcbs := Function.update t.pcbs i { t.pcbs i with exitCode := code } }

/-- The next slot. Slots are never given back here. -/
def allocPcb (t : Table κ) : Option (ℕ×Table κ) :=
  if maxProc≤t.pcbCount then none else some (t.pcbCount,{ t with pcbCount := t.pcbCount+1 })

/-- The first slot in use with a process number. -/
def findSlot (t : Table κ) (pid : ℤ) : Option ℕ :=
  (List.range t.pcbCount).find? fun i => (t.pcbs i).pid=pid

/-- Slot of the current process. -/
def processCurrent (t : Table κ) : Option ℕ := findSlot t t.currentPid

/-- The blank table of `process_init`. -/
def blankTable (frame : κ) : Table κ :=
  ⟨fun _ => ⟨-1,.empty,false,0,0,0,0,frame⟩,0,0,1⟩

/-- Set up the table with the idle process, if there is memory for its stack. -/
def processInit (kstack : Option ℕ) (pml4 : ℕ) (frame : κ) : Table κ :=
  match allocPcb (blankTable frame),kstack with
  | some (slot,t),some kstack =>
    { t with
      pcbs := Function.update t.pcbs slot
        ⟨0,.ready,false,kstack+stackSize-8,pml4,0,0,frame⟩ }
  | some (_,t),none => t
  | none,_ => blankTable frame

/-- Create a user process. A slot whose kernel stack could not be had stays
taken. -/
def processCreateUser (t : Table κ) (kstack : Option ℕ) (pml4 : ℕ) (frame : κ) : ℤ×Table κ :=
  match allocPcb t with
  | none => (-1,t)
  | some (slot,t1) =>
    match kstack with
    | none => (-1,t1)
    | some kstack =>
      (t1.nextPid,{ t1 with
        nextPid := t1.nextPid+1,
        pcbs := Function.update t1.pcbs slot
          ⟨t1.nextPid,.ready,true,kstack+stackSize,pml4,t1.currentPid,0,frame⟩ })

/-- The first ready slot, searched round the table from the current process on,
itself included; the current process if there is none. -/
def findNextReady (t : Table κ) : ℕ :=
  (((List.range maxProc).map fun i => (t.currentPid+i)%maxProc).find?
    fun i => (t.pcbs i).state=.ready).getD t.currentPid

/-- The table after the scheduler chose another slot, with the two slots of the
context switch. The current number is used as a slot here. -/
def schedule (t : Table κ) : Option (ℕ×ℕ×Table κ) :=
  let next := findNextReady t
  if next=t.currentPid then none else
    let prev := t.currentPid
    let t1 := if (t.pcbs prev).state=.running then setState t prev .ready else t
    some (prev,next,{ setState t1 next .running with currentPid := next })

/-- Wake the first blocked process that is the parent of the child. -/
def procWakeParent (t : Table κ) (childPid : ℤ) : Table κ :=
  match (List.range maxProc).find? fun i => decide ((t.pcbs i).state=.blocked) &&
      (List.range maxProc).any fun j =>
        decide ((t.pcbs j).pid=childPid ∧ (t.pcbs j).parentPid=(t.pcbs i).pid) with
  | some i => setState t i .ready
  | none => t

/-- The slot an exiting process returns to: its parent's number, used as a slot. -/
def parentSlot (t : Table κ) (p : ℕ) : ℕ :=
  let parent := (t.pcbs p).parentPid
  if parent<0 ∨ (maxProc : ℤ)≤parent then 0 else parent.toNat

/-- A waiting parent becomes ready. -/
def readyParent (t : Table κ) (parent : ℕ) : Table κ :=
  if (t.pcbs parent).state=.blocked ∨ (t.pcbs parent).state=.ready then setState t parent .ready
  else t

/-- Slots after a change of state. -/
theorem setState_pcbs (state : ProcState) :
    (setState t i state).pcbs j=if j=i then { t.pcbs j with state := state } else t.pcbs j := by
  by_cases h : j=i
  · subst h
    simp [setState]
  · simp [setState,h]

/-- Slots after a context was saved. -/
theorem setContext_pcbs (context : κ) :
    (setContext t i context).pcbs j=
      if j=i then { t.pcbs j with context := context } else t.pcbs j := by
  by_cases h : j=i
  · subst h
    simp [setContext]
  · simp [setContext,h]

/-- Slots after an exit code was recorded. -/
theorem setExitCode_pcbs (code : ℤ) :
    (setExitCode t i code).pcbs j=
      if j=i then { t.pcbs j with exitCode := code } else t.pcbs j := by
  by_cases h : j=i
  · subst h
    simp [setExitCode]
  · simp [setExitCode,h]

/-- The new state of the slot. -/
theorem setState_self (state : ProcState) : ((setState t i state).pcbs i).state=state := by
  rw [setState_pcbs,if_pos rfl]

/-- The states of other slots. -/
theorem setState_other (state : ProcState) (h : j≠i) :
    (setState t i state).pcbs j=t.pcbs j := by
  rw [setState_pcbs,if_neg h]

/-- A change of state keeps the contexts. -/
@[simp] theorem setState_context (state : ProcState) :
    ((setState t i state).pcbs j).context=(t.pcbs j).context := by
  rw [setState_pcbs]
  split <;> rfl

/-- Saving a context keeps the states. -/
@[simp] theorem setContext_state (context : κ) :
    ((setContext t i context).pcbs j).state=(t.pcbs j).state := by
  rw [setContext_pcbs]
  split <;> rfl

/-- Recording an exit code keeps the states. -/
@[simp] theorem setExitCode_state (code : ℤ) :
    ((setExitCode t i code).pcbs j).state=(t.pcbs j).state := by
  rw [setExitCode_pcbs]
  split <;> rfl

/-- Recording an exit code keeps the contexts. -/
@[simp] theorem setExitCode_context (code : ℤ) :
    ((setExitCode t i code).pcbs j).context=(t.pcbs j).context := by
  rw [setExitCode_pcbs]
  split <;> rfl

/-- The fields of a table that never change once a process is there. -/
structure SameProcesses (t t' : Table κ) : Prop where
  /-- Same process numbers. -/
  pid : ∀ j, (t'.pcbs j).pid=(t.pcbs j).pid
  /-- Same kinds of process. -/
  isUser : ∀ j, (t'.pcbs j).isUser=(t.pcbs j).isUser
  /-- Same parents. -/
  parentPid : ∀ j, (t'.pcbs j).parentPid=(t.pcbs j).parentPid
  /-- Same number of slots handed out. -/
  pcbCount : t'.pcbCount=t.pcbCount
  /-- Same next number. -/
  nextPid : t'.nextPid=t.nextPid

/-- Nothing happened. -/
theorem SameProcesses.refl (t : Table κ) : SameProcesses t t :=
  ⟨fun _ => rfl,fun _ => rfl,fun _ => rfl,rfl,rfl⟩

/-- One change after the other. -/
theorem SameProcesses.trans {t t' t'' : Table κ} (h : SameProcesses t t')
    (h' : SameProcesses t' t'') : SameProcesses t t'' :=
  ⟨fun j => (h'.pid j).trans (h.pid j),fun j => (h'.isUser j).trans (h.isUser j),
    fun j => (h'.parentPid j).trans (h.parentPid j),h'.pcbCount.trans h.pcbCount,
    h'.nextPid.trans h.nextPid⟩

/-- Changing a state keeps the processes. -/
theorem sameProcesses_setState (state : ProcState) : SameProcesses t (setState t i state) := by
  refine ⟨fun j => ?_,fun j => ?_,fun j => ?_,rfl,rfl⟩ <;>
  · rw [setState_pcbs]
    split <;> rfl

/-- Saving a context keeps the processes. -/
theorem sameProcesses_setContext (context : κ) : SameProcesses t (setContext t i context) := by
  refine ⟨fun j => ?_,fun j => ?_,fun j => ?_,rfl,rfl⟩ <;>
  · rw [setContext_pcbs]
    split <;> rfl

/-- Recording an exit code keeps the processes. -/
theorem sameProcesses_setExitCode (code : ℤ) : SameProcesses t (setExitCode t i code) := by
  refine ⟨fun j => ?_,fun j => ?_,fun j => ?_,rfl,rfl⟩ <;>
  · rw [setExitCode_pcbs]
    split <;> rfl

/-- Changing the current number keeps the processes. -/
theorem sameProcesses_current (t : Table κ) (pid : ℕ) :
    SameProcesses t { t with currentPid := pid } :=
  ⟨fun _ => rfl,fun _ => rfl,fun _ => rfl,rfl,rfl⟩

/-- What the search for a process number finds. -/
theorem findSlot_eq {pid : ℤ} (hi : i<t.pcbCount) (hpid : (t.pcbs i).pid=pid)
    (huniq : ∀ j, j<t.pcbCount → (t.pcbs j).pid=pid → j=i) : findSlot t pid=some i := by
  have hsome : (findSlot t pid).isSome := by
    rw [findSlot,List.find?_isSome]
    exact ⟨i,List.mem_range.mpr hi,by simpa using hpid⟩
  obtain ⟨j,hj⟩ := Option.isSome_iff_exists.mp hsome
  have hfound : (t.pcbs j).pid=pid := by simpa using List.find?_some hj
  have hlt : j<t.pcbCount := List.mem_range.mp (List.mem_of_find?_eq_some hj)
  rw [hj,huniq j hlt hfound]

/-- With a single ready slot the scheduler picks it. -/
theorem findNextReady_single (hi : i < maxProc) (hready : (t.pcbs i).state=.ready)
    (huniq : ∀ j, j < maxProc → (t.pcbs j).state=.ready → j=i) : findNextReady t=i := by
  have hsome : (((List.range maxProc).map fun i => (t.currentPid+i)%maxProc).find?
      fun i => (t.pcbs i).state=.ready).isSome := by
    rw [List.find?_isSome]
    refine ⟨i,List.mem_map.mpr ⟨(i+maxProc-t.currentPid%maxProc)%maxProc,?_,?_⟩,by simpa using hready⟩
    · exact List.mem_range.mpr (Nat.mod_lt _ (by norm_num))
    · simp only [maxProc] at hi ⊢
      omega
  obtain ⟨j,hj⟩ := Option.isSome_iff_exists.mp hsome
  have hfound : (t.pcbs j).state=.ready := by simpa using List.find?_some hj
  obtain ⟨r,_,rfl⟩ := List.mem_map.mp (List.mem_of_find?_eq_some hj)
  rw [findNextReady,hj,Option.getD_some]
  exact huniq _ (Nat.mod_lt _ (by norm_num)) hfound

/-- With no blocked process nobody is woken. -/
theorem procWakeParent_none {childPid : ℤ} (h : ∀ i, (t.pcbs i).state≠.blocked) :
    procWakeParent t childPid=t := by
  rw [procWakeParent,List.find?_eq_none.mpr]
  intro i _
  simp [h i]

end OvsbMk.Processes
