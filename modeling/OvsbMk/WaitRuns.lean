import OvsbMk.ProcessRuns

/-!
# Waiting for a child

`proc_waitpid` and `proc_exit` statement by statement, with a timer tick between
any two statements. Every slot has an activity; the one of the current slot goes
on. A parent looks at its child, marks itself blocked and schedules; a dying child
marks itself dead, wakes a parent that is already blocked and schedules. A tick
between the look and the mark can lose the wakeup; the theorem says that nothing
else can.
-/

namespace OvsbMk.WaitRuns

open Processes ProcessCalls ProcessRuns

/-- What a process is doing. -/
inductive Activity
  /-- It runs outside the two functions. -/
  | program
  /-- At the head of the loop of `proc_waitpid`. -/
  | check (child : ℤ)
  /-- It has seen that the child is not dead. -/
  | checked (child : ℤ)
  /-- It has marked itself blocked. -/
  | blocking (child : ℤ)
  /-- It has marked itself dead. -/
  | dying
  /-- It has called `proc_wake_parent`. -/
  | woke
  /-- It halts for ever. -/
  | halted
  deriving DecidableEq,Repr

/-- The process table and the activities of the slots. -/
structure State where
  /-- The process table. -/
  table : Table Unit
  /-- What the process in each slot is doing. -/
  activity : ℕ → Activity

/-- The activity that has the processor. -/
def State.current (s : State) : Activity := s.activity s.table.currentPid

/-- The running process goes on to another activity. -/
def goOn (s : State) (next : Activity) : State :=
  { s with activity := Function.update s.activity s.table.currentPid next }

/-- The scheduler. -/
def reschedule (s : State) : State := { s with table := (scheduleSwitch s.table ()).table }

/-- The next statement of the running process. -/
def advance (s : State) : State :=
  match s.current with
  | .check child =>
    match findAny s.table child with
    | none => goOn s .program
    | some i =>
      if (s.table.pcbs i).state=.zombie then
        { goOn s .program with table := setState s.table i .empty }
      else goOn s (.checked child)
  | .checked child =>
    { goOn s (.blocking child) with table := setState s.table s.table.currentPid .blocked }
  | .blocking child => reschedule (goOn s (.check child))
  | .dying =>
    { goOn s .woke with
      table := procWakeParent s.table (s.table.pcbs s.table.currentPid).pid }
  | .woke => reschedule (goOn s .halted)
  | .program | .halted => s

/-- The running process calls `proc_exit`, which marks it dead. -/
def callExit (s : State) (code : ℤ) : State :=
  { goOn s .dying with
    table := setState (setExitCode s.table s.table.currentPid code) s.table.currentPid .zombie }

/-- A creation that returned a number puts a fresh process in its slot. -/
def afterCreation (s : State) (slot : ℕ) (r : ℤ×Table Unit) : State :=
  ⟨r.2,if r.1<0 then s.activity else Function.update s.activity slot .program⟩

/-- What can happen next. -/
inductive Action
  /-- A timer tick. -/
  | tick
  /-- The running process goes on. -/
  | advance
  /-- The running process calls `proc_waitpid`. -/
  | wait (child : ℤ)
  /-- The running process calls `proc_exit`. -/
  | exit (code : ℤ)
  /-- The running process calls `process_create_user`. -/
  | createUser (kstack : Option ℕ) (pml4 : ℕ)
  /-- The running process calls `proc_spawn`. -/
  | spawn (kstack pml4 : Option ℕ)

/-- The state after an action, if the running process can take it. -/
def step (s : State) : Action → Option State
  | .tick => some (reschedule s)
  | .advance => some (advance s)
  | .wait child => if s.current=.program then some (goOn s (.check child)) else none
  | .exit code => if s.current=.program then some (callExit s code) else none
  | .createUser kstack pml4 =>
    if s.current=.program ∧ s.table.nextPid<2^31-1 then
      some (afterCreation s s.table.pcbCount (processCreateUser s.table kstack pml4 ()))
    else none
  | .spawn kstack pml4 =>
    if s.current=.program ∧ s.table.nextPid<2^31-1 then
      some (afterCreation s ((findEmpty s.table).getD 0) (procSpawn s.table kstack pml4 ()))
    else none

/-- The kernel right after `process_init`. -/
def boot (kstack pml4 : ℕ) : State :=
  ⟨processInit (some kstack) pml4 (),fun _ => .program⟩

/-- The states of the runs from boot whose actions all satisfy a condition. -/
inductive Reaches (allowed : State → Action → Prop) : State → Prop
  /-- The run without actions. -/
  | boot (kstack pml4 : ℕ) : Reaches allowed (boot kstack pml4)
  /-- A run with one more action. -/
  | step {s s' : State} (a : Action) (h : Reaches allowed s) (ha : allowed s a)
    (hs : step s a=some s') : Reaches allowed s'

/-- The process is inside `proc_waitpid` for a child. -/
def Waits (a : Activity) (child : ℤ) : Prop := a=.check child ∨ a=.checked child ∨ a=.blocking child

/-- The process has called `proc_wake_parent`. -/
def Notified (a : Activity) : Prop := a=.woke ∨ a=.halted

/-- A process is blocked waiting for a dead child that has already woken its
parent. -/
def LostWakeup (s : State) : Prop :=
  ∃ p c, p < maxProc ∧ c < maxProc ∧ Waits (s.activity p) (s.table.pcbs c).pid ∧
    (s.table.pcbs p).state=.blocked ∧ (s.table.pcbs c).state=.zombie ∧ Notified (s.activity c)

/-- No tick takes the processor between the look at the child and the mark, and
`proc_waitpid` is called by the process that the child's control block names as
its parent. -/
def Careful (s : State) : Action → Prop
  | .tick => (∀ child, s.current≠.checked child) ∨ findNextReady s.table=s.table.currentPid
  | .wait child => 0≤child ∧ ∃ c, c < maxProc ∧ (s.table.pcbs c).pid=child ∧
      (s.table.pcbs c).parentPid=(s.table.pcbs s.table.currentPid).pid
  | _ => True

variable {s s' : State} {p c i : ℕ} {child : ℤ}

/-- What holds of a process that waits. -/
structure Waiter (s : State) (p : ℕ) (child : ℤ) : Prop where
  /-- It is in the table. -/
  lt : p < maxProc
  /-- The child has a number. -/
  nonneg : 0≤child
  /-- The number has been given. -/
  given : child<s.table.nextPid
  /-- The child's parent is the waiting process. -/
  parent : ∀ c, (s.table.pcbs c).pid=child → (s.table.pcbs c).parentPid=(s.table.pcbs p).pid

/-- The child is in the table and is not dead. -/
def ChildAlive (t : Table Unit) (child : ℤ) : Prop :=
  (∃ c, c < maxProc ∧ (t.pcbs c).pid=child) ∧
    ∀ c, (t.pcbs c).pid=child → (t.pcbs c).state≠.zombie

/-- The invariant of careful runs. -/
structure Inv (s : State) : Prop where
  /-- Numbers are unique. -/
  fresh : Fresh s.table
  /-- The current slot is in the table. -/
  current_lt : s.table.currentPid < maxProc
  /-- The current slot has a number. -/
  current_pid : 0≤(s.table.pcbs s.table.currentPid).pid
  /-- Waiting processes wait for their children. -/
  waiter : ∀ p child, Waits (s.activity p) child → Waiter s p child
  /-- Only the current process is between look and mark, and its child is not dead. -/
  checked : ∀ p child, s.activity p=.checked child → p=s.table.currentPid ∧ ChildAlive s.table child
  /-- A current process that is blocked waits for a child that is not dead. -/
  stuck : (s.table.pcbs s.table.currentPid).state=.blocked →
    ∃ child, Waits s.current child ∧ ChildAlive s.table child
  /-- No wakeup is lost. -/
  kept : ∀ p c, Waits (s.activity p) (s.table.pcbs c).pid → (s.table.pcbs p).state=.blocked →
    (s.table.pcbs c).state=.zombie → ¬Notified (s.activity c)

/-- In a careful state no wakeup is lost. -/
theorem Inv.not_lostWakeup (h : Inv s) : ¬LostWakeup s := by
  rintro ⟨p,c,_,_,hwaits,hblocked,hdead,hnotified⟩
  exact h.kept p c hwaits hblocked hdead hnotified

/-- A process waits for one child. -/
theorem Waits.unique {a : Activity} {child' : ℤ} (h : Waits a child) (h' : Waits a child') :
    child=child' := by
  rcases h with rfl | rfl | rfl <;> rcases h' with h | h | h <;> cases h <;> rfl

/-- A process that has returned to its program or is past it does not wait. -/
theorem not_waits {a : Activity} (h : a=.program ∨ a=.dying ∨ a=.woke ∨ a=.halted) :
    ¬Waits a child := by
  rcases h with rfl | rfl | rfl | rfl <;> rintro (h | h | h) <;> cases h

/-- A process that waits has not woken its parent. -/
theorem Waits.not_notified {a : Activity} (h : Waits a child) : ¬Notified a := by
  rcases h with rfl | rfl | rfl <;> rintro (h | h) <;> cases h

/-- A process that runs its program or is dying has not woken its parent. -/
theorem not_notified {a : Activity} (h : a=.program ∨ a=.dying) : ¬Notified a := by
  rcases h with rfl | rfl <;> rintro (h | h) <;> cases h

/-- Waiting processes in a table with the same processes. -/
theorem Waiter.of_same {t : Table Unit} {a : ℕ → Activity} (h : Waiter s p child)
    (hs : SameProcesses s.table t) : Waiter ⟨t,a⟩ p child := by
  refine ⟨h.lt,h.nonneg,?_,fun c hc => ?_⟩
  · change child<t.nextPid
    rw [hs.nextPid]
    exact h.given
  · change (t.pcbs c).parentPid=(t.pcbs p).pid
    change (t.pcbs c).pid=child at hc
    rw [hs.pid] at hc
    rw [hs.parentPid,hs.pid]
    exact h.parent c hc

/-- A current process that does not wait is not blocked. -/
theorem Inv.not_blocked (h : Inv s) (hcurrent : ∀ child, ¬Waits s.current child) :
    (s.table.pcbs s.table.currentPid).state≠.blocked := by
  intro hblocked
  obtain ⟨child,hwaits,_⟩ := h.stuck hblocked
  exact hcurrent child hwaits

/-- If the current process is not between look and mark, no process is. -/
theorem Inv.not_checked (h : Inv s) (hcurrent : ∀ child, s.current≠.checked child) :
    s.activity p≠.checked child := by
  intro hp
  obtain ⟨rfl,_⟩ := h.checked p child hp
  exact hcurrent child hp

/-- What a statement of the running process may change: its activity, and states
such that no other process becomes blocked or dead. -/
structure Moves (s : State) (t : Table Unit) (next : Activity) : Prop where
  /-- The processes are the same. -/
  same : SameProcesses s.table t
  /-- The current process is the same. -/
  current : t.currentPid=s.table.currentPid
  /-- No other slot comes into use. -/
  used : ∀ i, i≠s.table.currentPid → (t.pcbs i).state≠.empty → (s.table.pcbs i).state≠.empty
  /-- No other process becomes blocked. -/
  blocked : ∀ i, i≠s.table.currentPid → (t.pcbs i).state=.blocked → (s.table.pcbs i).state=.blocked
  /-- No other process dies. -/
  zombie : ∀ i, i≠s.table.currentPid → (t.pcbs i).state=.zombie → (s.table.pcbs i).state=.zombie
  /-- The process waits for a child of its own only. -/
  waiter : ∀ child, Waits next child → Waiter s s.table.currentPid child
  /-- It has looked at a child that is not dead. -/
  checked : ∀ child, next=.checked child → ChildAlive t child
  /-- If it is blocked it waits for a child that is not dead. -/
  stuck : (t.pcbs s.table.currentPid).state=.blocked → ∃ child, Waits next child ∧ ChildAlive t child
  /-- If it is dead and has woken its parent, no process is blocked waiting for it. -/
  notified : Notified next → (t.pcbs s.table.currentPid).state=.zombie →
    ∀ p, p≠s.table.currentPid → Waits (s.activity p) (s.table.pcbs s.table.currentPid).pid →
      (t.pcbs p).state≠.blocked

/-- The state after a statement of the running process. -/
def moveTo (s : State) (t : Table Unit) (next : Activity) : State :=
  ⟨t,Function.update s.activity s.table.currentPid next⟩

/-- A statement of the running process keeps the invariant. -/
theorem Inv.moveTo {t : Table Unit} {a : Activity} (h : Inv s) (hm : Moves s t a) :
    Inv (moveTo s t a) := by
  have hself : (WaitRuns.moveTo s t a).activity s.table.currentPid=a :=
    Function.update_self ..
  have hother : ∀ p, p≠s.table.currentPid →
      (WaitRuns.moveTo s t a).activity p=s.activity p := fun p hp =>
    Function.update_of_ne hp _ _
  have htable : (WaitRuns.moveTo s t a).table=t := rfl
  refine ⟨?_,?_,?_,fun p child hp => ?_,fun p child hp => ?_,fun hblocked => ?_,
    fun p c hp hblocked hdead hn => ?_⟩
  · refine h.fresh.of_same hm.same fun i hi => ?_
    rcases eq_or_ne i s.table.currentPid with rfl | hne
    · exact h.current_pid
    · exact h.fresh.numbered i (hm.used i hne hi)
  · rw [htable,hm.current]
    exact h.current_lt
  · rw [htable,hm.current,hm.same.pid]
    exact h.current_pid
  · rcases eq_or_ne p s.table.currentPid with rfl | hne
    · rw [hself] at hp
      exact (hm.waiter child hp).of_same hm.same
    · rw [hother p hne] at hp
      exact (h.waiter p child hp).of_same hm.same
  · rcases eq_or_ne p s.table.currentPid with rfl | hne
    · rw [hself] at hp
      exact ⟨hm.current.symm,hm.checked child hp⟩
    · rw [hother p hne] at hp
      exact (hne (h.checked p child hp).1).elim
  · rw [htable,hm.current] at hblocked
    rw [State.current,htable,hm.current,hself]
    exact hm.stuck hblocked
  · rw [htable] at hp hblocked hdead
    rw [hm.same.pid] at hp
    rcases eq_or_ne p s.table.currentPid with rfl | hne
    · rw [hself] at hp
      obtain ⟨child,hchild,_,halive⟩ := hm.stuck hblocked
      exact halive c ((hm.same.pid c).trans (hp.unique hchild)) hdead
    · rw [hother p hne] at hp
      rcases eq_or_ne c s.table.currentPid with rfl | hnec
      · rw [hself] at hn
        exact hm.notified hn hdead p hne hp hblocked
      · rw [hother c hnec] at hn
        exact h.kept p c hp (hm.blocked p hne hblocked) (hm.zombie c hnec hdead) hn

/-- A change of activity alone. -/
theorem Inv.moves_activity (h : Inv s) {next : Activity}
    (hwaiter : ∀ child, Waits next child → Waiter s s.table.currentPid child)
    (hchecked : ∀ child, next=.checked child → ChildAlive s.table child)
    (hstuck : (s.table.pcbs s.table.currentPid).state=.blocked →
      ∃ child, Waits next child ∧ ChildAlive s.table child)
    (hnotified : Notified next → Notified s.current) : Moves s s.table next :=
  ⟨.refl _,rfl,fun _ _ hi => hi,fun _ _ hi => hi,fun _ _ hi => hi,hwaiter,hchecked,hstuck,
    fun hn hdead p _ hp hblocked => h.kept p _ hp hblocked hdead (hnotified hn)⟩

/-- The scheduler makes no process blocked or dead. -/
theorem scheduled_state {t t' : Table Unit} {next : ℕ} {state : ProcState}
    (hs : Scheduled t t' next) (hready : state≠.ready) (hrunning : state≠.running)
    (hi : (t'.pcbs i).state=state) : (t.pcbs i).state=state := by
  rcases eq_or_ne i next with rfl | hnext
  · rw [hs.next_running] at hi
    exact (hrunning hi.symm).elim
  · rcases eq_or_ne i t.currentPid with rfl | hcur
    · have hprev := hs.prev
      rw [hi] at hprev
      split at hprev
      next => exact (hready hprev).elim
      next => exact hprev.symm
    · rw [←hs.others i hnext hcur]
      exact hi

/-- The scheduler keeps the invariant unless it takes the processor between look
and mark. -/
theorem Inv.reschedule (h : Inv s)
    (hcareful : (∀ child, s.current≠.checked child) ∨ findNextReady s.table=s.table.currentPid) :
    Inv (reschedule s) := by
  rw [WaitRuns.reschedule]
  rcases scheduleSwitch_cases s.table () with hstay | ⟨t',next,hout,hs⟩
  · rw [hstay]
    exact h
  · have hcurrent : ∀ child, s.current≠.checked child := by
      refine hcareful.resolve_right fun hsame => ?_
      rw [scheduleSwitch,schedule,if_pos hsame] at hout
      cases congrArg Outcome.resumed hout
    have hfresh := h.fresh.scheduleSwitch ()
    rw [hout] at hfresh ⊢
    refine ⟨hfresh,?_,?_,fun p child hp => (h.waiter p child hp).of_same hs.same,
      fun p child hp => (h.not_checked hcurrent hp).elim,?_,?_⟩
    · change t'.currentPid < maxProc
      rw [hs.current]
      exact hs.next_lt
    · change 0≤(t'.pcbs t'.currentPid).pid
      rw [hs.same.pid,hs.current]
      exact h.fresh.numbered next (by simp [hs.next_ready])
    · intro hblocked
      change (t'.pcbs t'.currentPid).state=.blocked at hblocked
      rw [hs.current,hs.next_running] at hblocked
      cases hblocked
    · intro p c hp hblocked hdead hn
      change Waits (s.activity p) (t'.pcbs c).pid at hp
      rw [hs.same.pid] at hp
      exact h.kept p c hp (scheduled_state hs (by decide) (by decide) hblocked)
        (scheduled_state hs (by decide) (by decide) hdead) hn

/-- Going on and scheduling keeps the invariant. -/
theorem Inv.goOn_reschedule (h : Inv s) {next : Activity}
    (hwaits : ∀ child, Waits next child ↔ Waits s.current child)
    (hnext : ∀ child, next≠.checked child) (hnotified : Notified next → Notified s.current) :
    Inv (WaitRuns.reschedule (goOn s next)) := by
  have hmoves : Moves s s.table next := by
    refine h.moves_activity (fun child hw => ?_) (fun child hc => (hnext child hc).elim)
      (fun hblocked => ?_) hnotified
    · exact h.waiter _ child ((hwaits child).mp hw)
    · obtain ⟨child,hw,halive⟩ := h.stuck hblocked
      exact ⟨child,(hwaits child).mpr hw,halive⟩
  have hinv : Inv (goOn s next) := h.moveTo hmoves
  have hself : (goOn s next).current=next := Function.update_self ..
  exact hinv.reschedule (.inl fun child hc => hnext child (hself.symm.trans hc))

/-- Changing the state of the current slot changes no other state. -/
theorem setState_state_other {t : Table Unit} {state : ProcState} (h : i≠p) :
    ((setState t p state).pcbs i).state=(t.pcbs i).state :=
  congrArg Pcb.state (setState_other _ h)

/-- Dying keeps the invariant. -/
theorem Inv.callExit (h : Inv s) (code : ℤ) : Inv (callExit s code) := by
  have hstate : ∀ i, i≠s.table.currentPid → ((setState (setExitCode s.table s.table.currentPid
      code) s.table.currentPid .zombie).pcbs i).state=(s.table.pcbs i).state := fun i hi =>
    (setState_state_other hi).trans (setExitCode_state _)
  refine h.moveTo (a:=.dying) ⟨(sameProcesses_setExitCode _).trans (sameProcesses_setState _),
    rfl,fun i hi => ?_,fun i hi => ?_,fun i hi => ?_,?_,?_,?_,?_⟩
  · rw [hstate i hi]
    exact id
  · rw [hstate i hi]
    exact id
  · rw [hstate i hi]
    exact id
  · exact fun child hw => (not_waits (.inr (.inl rfl)) hw).elim
  · exact fun child hc => by cases hc
  · intro hblocked
    rw [setState_self] at hblocked
    cases hblocked
  · exact fun hn => (not_notified (.inr rfl) hn).elim

/-- The look at the child keeps the invariant. -/
theorem Inv.check (h : Inv s) (hcurrent : s.current=.check child) : Inv (advance s) := by
  have hwaits : Waits s.current child := .inl hcurrent
  have hwaiter := h.waiter _ child hwaits
  rw [advance,hcurrent]
  dsimp only
  cases hfind : findAny s.table child with
  | none =>
    have hnone : ∀ c, c < maxProc → (s.table.pcbs c).pid≠child := by
      intro c hc
      have := List.find?_eq_none.mp hfind c (List.mem_range.mpr hc)
      simpa using this
    refine h.moveTo (a:=.program) (h.moves_activity ?_ ?_ (fun hblocked => ?_) ?_)
    · exact fun child hw => (not_waits (.inl rfl) hw).elim
    · exact fun child hc => by cases hc
    · obtain ⟨child',hw,⟨c,hc,hpid⟩,_⟩ := h.stuck hblocked
      exact (hnone c hc (hpid.trans (hw.unique hwaits))).elim
    · exact fun hn => (not_notified (.inl rfl) hn).elim
  | some i =>
    have hpid : (s.table.pcbs i).pid=child := by simpa using List.find?_some hfind
    have hi : i < maxProc := List.mem_range.mp (List.mem_of_find?_eq_some hfind)
    dsimp only
    by_cases hz : (s.table.pcbs i).state=.zombie
    · rw [if_pos hz]
      have hstate : ∀ j, ((setState s.table i .empty).pcbs j).state≠.empty →
          ((setState s.table i .empty).pcbs j).state=(s.table.pcbs j).state := by
        intro j hj
        refine setState_state_other fun hji => hj ?_
        rw [hji]
        exact setState_self _
      refine h.moveTo (a:=.program) ⟨sameProcesses_setState _,rfl,fun j _ hj => ?_,
        fun j _ hj => ?_,fun j _ hj => ?_,?_,?_,fun hblocked => ?_,?_⟩
      · rwa [hstate j hj] at hj
      · rwa [hstate j (by simp [hj])] at hj
      · rwa [hstate j (by simp [hj])] at hj
      · exact fun child hw => (not_waits (.inl rfl) hw).elim
      · exact fun child hc => by cases hc
      · rw [hstate _ (by simp [hblocked])] at hblocked
        obtain ⟨child',hw,_,halive⟩ := h.stuck hblocked
        exact (halive i (hpid.trans (hwaits.unique hw)) hz).elim
      · exact fun hn => (not_notified (.inl rfl) hn).elim
    · rw [if_neg hz]
      have halive : ChildAlive s.table child := by
        refine ⟨⟨i,hi,hpid⟩,fun c hc => ?_⟩
        have hic : i=c := h.fresh.inj i c (by rw [hpid]; exact hwaiter.nonneg) (hpid.trans hc.symm)
        rw [←hic]
        exact hz
      refine h.moveTo (a:=.checked child) (h.moves_activity ?_ ?_ ?_ ?_)
      · intro child' hw
        obtain rfl : child=child' := Waits.unique (.inr (.inl rfl)) hw
        exact hwaiter
      · intro child' hc
        obtain rfl : child=child' := Activity.checked.inj hc
        exact halive
      · exact fun _ => ⟨child,.inr (.inl rfl),halive⟩
      · exact fun hn => (Waits.not_notified (.inr (.inl rfl)) hn).elim

/-- The mark keeps the invariant. -/
theorem Inv.mark (h : Inv s) (hcurrent : s.current=.checked child) : Inv (advance s) := by
  have hwaiter := h.waiter _ child (.inr (.inl hcurrent))
  obtain ⟨_,⟨c,hc,hpid⟩,halive⟩ := h.checked _ child hcurrent
  have halive' : ChildAlive (setState s.table s.table.currentPid .blocked) child := by
    refine ⟨⟨c,hc,((sameProcesses_setState _).pid c).trans hpid⟩,fun j hj => ?_⟩
    rw [(sameProcesses_setState _).pid] at hj
    rcases eq_or_ne j s.table.currentPid with rfl | hne
    · rw [setState_self]
      decide
    · rw [setState_state_other hne]
      exact halive j hj
  rw [advance,hcurrent]
  refine h.moveTo (a:=.blocking child) ⟨sameProcesses_setState _,rfl,fun i hi => ?_,
    fun i hi => ?_,fun i hi => ?_,fun child' hw => ?_,fun child' hc => (by cases hc),
    fun _ => ⟨child,.inr (.inr rfl),halive'⟩,fun hn => ?_⟩
  · rw [setState_state_other hi]
    exact id
  · rw [setState_state_other hi]
    exact id
  · rw [setState_state_other hi]
    exact id
  · obtain rfl : child=child' := Waits.unique (.inr (.inr rfl)) hw
    exact hwaiter
  · exact (Waits.not_notified (.inr (.inr rfl)) hn).elim

/-- `proc_wake_parent` makes the parent ready if it is blocked. -/
theorem procWakeParent_ready {t : Table Unit} (hfresh : Fresh t) (hp : p < maxProc)
    (hc : c < maxProc) (hpid : 0≤(t.pcbs c).pid) (hparent : (t.pcbs c).parentPid=(t.pcbs p).pid)
    (hblocked : (t.pcbs p).state=.blocked) :
    ((procWakeParent t (t.pcbs c).pid).pcbs p).state=.ready := by
  have hnumber : 0≤(t.pcbs p).pid := hfresh.numbered p (by simp [hblocked])
  rw [procWakeParent]
  split
  next i hfind =>
    have hpred := List.find?_some hfind
    simp only [Bool.and_eq_true,decide_eq_true_eq,List.any_eq_true] at hpred
    obtain ⟨_,j,_,hj,hji⟩ := hpred
    have hcj : c=j := hfresh.inj c j hpid hj.symm
    have hip : p=i := hfresh.inj p i hnumber (by rw [←hparent,hcj,hji])
    rw [hip]
    exact setState_self _
  next hnone =>
    have hnot := List.find?_eq_none.mp hnone p (List.mem_range.mpr hp)
    simp only [Bool.and_eq_true,decide_eq_true_eq,List.any_eq_true,not_and,not_exists] at hnot
    exact (hnot hblocked c (List.mem_range.mpr hc) rfl hparent).elim

/-- Waking the parent keeps the invariant. -/
theorem Inv.wake (h : Inv s) (hcurrent : s.current=.dying) : Inv (advance s) := by
  have hwoken := woken_procWakeParent s.table (s.table.pcbs s.table.currentPid).pid
  have hstate : ∀ i, ((procWakeParent s.table (s.table.pcbs s.table.currentPid).pid).pcbs
      i).state≠.ready → ((procWakeParent s.table (s.table.pcbs s.table.currentPid).pid).pcbs
      i).state=(s.table.pcbs i).state := fun i hi => hwoken.state_of_ne_ready hi
  have hnot := h.not_blocked fun child => not_waits (.inr (.inl hcurrent))
  rw [advance,hcurrent]
  refine h.moveTo (a:=.woke) ⟨hwoken.same,hwoken.current,fun i _ hi => ?_,fun i _ hi => ?_,
    fun i _ hi => ?_,fun child hw => (not_waits (.inr (.inr (.inl rfl))) hw).elim,
    fun child hc => (by cases hc),fun hblocked => ?_,fun _ _ p _ hw hblocked => ?_⟩
  · intro hempty
    rw [hwoken.state_eq (by simp [hempty])] at hi
    exact hi hempty
  · rwa [hstate i (by simp [hi])] at hi
  · rwa [hstate i (by simp [hi])] at hi
  · rw [hstate _ (by simp [hblocked])] at hblocked
    exact (hnot hblocked).elim
  · have hwaiter := h.waiter p _ hw
    have hbefore : (s.table.pcbs p).state=.blocked := by
      rwa [hstate p (by simp [hblocked])] at hblocked
    rw [procWakeParent_ready h.fresh hwaiter.lt h.current_lt h.current_pid
      (hwaiter.parent _ rfl) hbefore] at hblocked
    cases hblocked

/-- Calling `proc_waitpid` for a child of one's own keeps the invariant. -/
theorem Inv.wait (h : Inv s) (hcurrent : s.current=.program) (hcareful : Careful s (.wait child)) :
    Inv (goOn s (.check child)) := by
  obtain ⟨hnonneg,c,_,hpid,hparent⟩ := hcareful
  have hnot := h.not_blocked fun child => not_waits (.inl hcurrent)
  refine h.moveTo (a:=.check child) (h.moves_activity (fun child' hw => ?_)
    (fun child' hc => by cases hc) (fun hblocked => (hnot hblocked).elim)
    fun hn => (Waits.not_notified (.inl rfl) hn).elim)
  obtain rfl : child=child' := Waits.unique (.inl rfl) hw
  refine ⟨h.current_lt,hnonneg,?_,fun j hj => ?_⟩
  · rw [←hpid]
    exact h.fresh.below c
  · obtain rfl : c=j := h.fresh.inj c j (by rw [hpid]; exact hnonneg) (hpid.trans hj.symm)
    exact hparent

/-- The number of slots handed out does not matter. -/
theorem Inv.count (h : Inv s) (n : ℕ) : Inv ⟨{ s.table with pcbCount := n },s.activity⟩ :=
  ⟨h.fresh.count n,h.current_lt,h.current_pid,fun p child hp =>
    ⟨(h.waiter p child hp).lt,(h.waiter p child hp).nonneg,(h.waiter p child hp).given,
      (h.waiter p child hp).parent⟩,h.checked,h.stuck,h.kept⟩

/-- A new process in any slot keeps the invariant. -/
theorem Inv.putProcess (h : Inv s) (hcurrent : s.current=.program) (slot kstack pml4 : ℕ) :
    Inv ⟨putProcess s.table slot kstack pml4 (),Function.update s.activity slot .program⟩ := by
  have hnew := putProcess_self s.table slot kstack pml4 ()
  have hold : ∀ i, i≠slot →
      (ProcessCalls.putProcess s.table slot kstack pml4 ()).pcbs i=s.table.pcbs i :=
    fun i hi => putProcess_other hi
  have hcur : (ProcessCalls.putProcess s.table slot kstack pml4 ()).currentPid=s.table.currentPid :=
    rfl
  have hnext : (ProcessCalls.putProcess s.table slot kstack pml4 ()).nextPid=s.table.nextPid+1 :=
    rfl
  have hfresh := h.fresh.putProcess slot kstack pml4 ()
  have hnot := h.not_blocked fun child => not_waits (.inl hcurrent)
  have hactivity : ∀ i a, Function.update s.activity slot .program i=a → a≠.program →
      i≠slot ∧ s.activity i=a := by
    intro i a hi ha
    have hne : i≠slot := by
      rintro rfl
      rw [Function.update_self] at hi
      exact ha hi.symm
    rw [Function.update_of_ne hne] at hi
    exact ⟨hne,hi⟩
  have hwaits : ∀ i child, Waits (Function.update s.activity slot .program i) child →
      i≠slot ∧ Waits (s.activity i) child := by
    intro i child hw
    obtain ⟨hne,hi⟩ := hactivity i _ rfl fun hprogram => not_waits (.inl hprogram) hw
    rw [←hi] at hw
    exact ⟨hne,hw⟩
  generalize ProcessCalls.putProcess s.table slot kstack pml4 ()=t at *
  refine ⟨hfresh,?_,?_,fun p child hp => ?_,fun p child hp => ?_,fun hblocked => ?_,
    fun p c hp hblocked hdead hn => ?_⟩
  · exact hcur ▸ h.current_lt
  · change 0≤(t.pcbs t.currentPid).pid
    rw [hcur]
    rcases eq_or_ne s.table.currentPid slot with heq | hne
    · rw [heq,hnew]
      exact h.fresh.next_nonneg
    · rw [hold _ hne]
      exact h.current_pid
  · obtain ⟨hne,hp⟩ := hwaits p child hp
    have hwaiter := h.waiter p child hp
    refine ⟨hwaiter.lt,hwaiter.nonneg,?_,fun c hc => ?_⟩
    · change child<t.nextPid
      rw [hnext]
      exact hwaiter.given.trans (lt_add_one _)
    · change (t.pcbs c).parentPid=(t.pcbs p).pid
      change (t.pcbs c).pid=child at hc
      rcases eq_or_ne c slot with rfl | hnec
      · rw [hnew] at hc
        exact absurd hc hwaiter.given.ne'
      · rw [hold c hnec] at hc ⊢
        rw [hold p hne]
        exact hwaiter.parent c hc
  · obtain ⟨_,hp⟩ := hactivity p _ hp (by simp)
    exact (h.not_checked (by simp [hcurrent]) hp).elim
  · change (t.pcbs t.currentPid).state=.blocked at hblocked
    rw [hcur] at hblocked
    rcases eq_or_ne s.table.currentPid slot with heq | hne
    · rw [heq,hnew] at hblocked
      cases hblocked
    · rw [hold _ hne] at hblocked
      exact (hnot hblocked).elim
  · change (t.pcbs p).state=.blocked at hblocked
    change (t.pcbs c).state=.zombie at hdead
    change Waits _ (t.pcbs c).pid at hp
    obtain ⟨hne,hp⟩ := hwaits p _ hp
    have hnec : c≠slot := by
      rintro rfl
      rw [hnew] at hdead
      cases hdead
    rw [hold c hnec] at hp hdead
    rw [hold p hne] at hblocked
    change Notified (Function.update s.activity slot .program c) at hn
    rw [Function.update_of_ne hnec] at hn
    exact h.kept p c hp hblocked hdead hn

/-- A creation that returned no number changes no activity. -/
theorem afterCreation_failed (s : State) (slot : ℕ) (t : Table Unit) :
    afterCreation s slot (-1,t)=⟨t,s.activity⟩ := by
  rw [afterCreation]
  exact congrArg (State.mk t) (if_pos (show (-1 : ℤ)<0 by decide))

/-- A creation that returned a number starts a program in its slot. -/
theorem afterCreation_created (s : State) (slot : ℕ) (t : Table Unit) {pid : ℤ} (h : 0≤pid) :
    afterCreation s slot (pid,t)=⟨t,Function.update s.activity slot .program⟩ := by
  rw [afterCreation,if_neg (by simpa using h)]

/-- `process_create_user` keeps the invariant. -/
theorem Inv.createUser (h : Inv s) (hcurrent : s.current=.program) (kstack : Option ℕ) (pml4 : ℕ) :
    Inv (afterCreation s s.table.pcbCount (processCreateUser s.table kstack pml4 ())) := by
  rcases createUser_cases s.table kstack pml4 () with ⟨_,hout⟩ | ⟨_,_,hout⟩ | ⟨stack,_,_,hout⟩
  · rw [hout,afterCreation_failed]
    exact h
  · rw [hout,afterCreation_failed]
    exact h.count _
  · rw [hout,afterCreation_created s _ _ h.fresh.next_nonneg]
    exact (h.putProcess hcurrent s.table.pcbCount stack pml4).count _

/-- `proc_spawn` keeps the invariant. -/
theorem Inv.spawn (h : Inv s) (hcurrent : s.current=.program) (kstack pml4 : Option ℕ) :
    Inv (afterCreation s ((findEmpty s.table).getD 0) (procSpawn s.table kstack pml4 ())) := by
  rw [procSpawn]
  cases hfind : findEmpty s.table with
  | none =>
    dsimp only
    rw [afterCreation_failed]
    exact h
  | some slot =>
    cases kstack with
    | none =>
      dsimp only
      rw [afterCreation_failed]
      exact h
    | some stack =>
      cases pml4 with
      | none =>
        dsimp only
        rw [afterCreation_failed]
        exact h
      | some root =>
        dsimp only
        rw [afterCreation_created s _ _ h.fresh.next_nonneg,Option.getD_some]
        exact h.putProcess hcurrent slot stack root

/-- The next statement of the running process keeps the invariant. -/
theorem Inv.advance (h : Inv s) : Inv (advance s) := by
  rcases hcurrent : s.current with _ | child | child | child | _ | _ | _
  · rw [WaitRuns.advance,hcurrent]
    exact h
  · exact h.check hcurrent
  · exact h.mark hcurrent
  · rw [WaitRuns.advance,hcurrent]
    refine h.goOn_reschedule (fun child' => ?_) (fun _ => nofun) fun hn => ?_
    · rw [hcurrent]
      constructor
      · intro hw
        obtain rfl : child=child' := Waits.unique (.inl rfl) hw
        exact .inr (.inr rfl)
      · intro hw
        obtain rfl : child=child' := Waits.unique (.inr (.inr rfl)) hw
        exact .inl rfl
    · exact (Waits.not_notified (.inl rfl) hn).elim
  · exact h.wake hcurrent
  · rw [WaitRuns.advance,hcurrent]
    refine h.goOn_reschedule (fun child => ?_) (fun _ => nofun) fun _ => .inl hcurrent
    exact iff_of_false (not_waits (.inr (.inr (.inr rfl)))) (not_waits (.inr (.inr (.inl hcurrent))))
  · rw [WaitRuns.advance,hcurrent]
    exact h

/-- Every careful action keeps the invariant. -/
theorem step_inv {a : Action} (h : Inv s) (ha : Careful s a) (hs : step s a=some s') : Inv s' := by
  cases a with
  | tick =>
    obtain rfl := Option.some.inj hs
    exact h.reschedule ha
  | advance =>
    obtain rfl := Option.some.inj hs
    exact h.advance
  | wait child =>
    rw [step] at hs
    split at hs
    next hcurrent =>
      obtain rfl := Option.some.inj hs
      exact h.wait hcurrent ha
    next => cases hs
  | exit code =>
    rw [step] at hs
    split at hs
    next =>
      obtain rfl := Option.some.inj hs
      exact h.callExit code
    next => cases hs
  | createUser kstack pml4 =>
    rw [step] at hs
    split at hs
    next hcurrent =>
      obtain rfl := Option.some.inj hs
      exact h.createUser hcurrent.1 kstack pml4
    next => cases hs
  | spawn kstack pml4 =>
    rw [step] at hs
    split at hs
    next hcurrent =>
      obtain rfl := Option.some.inj hs
      exact h.spawn hcurrent.1 kstack pml4
    next => cases hs

/-- The invariant holds after boot. -/
theorem boot_inv (kstack pml4 : ℕ) : Inv (boot kstack pml4) := by
  refine ⟨fresh_init (some kstack) pml4 (),show 0<64 by decide,le_rfl,fun p child hp => ?_,
    fun p child hp => ?_,fun hblocked => ?_,fun p c hp => ?_⟩
  · exact (not_waits (.inl rfl) hp).elim
  · cases hp
  · cases hblocked
  · exact (not_waits (.inl rfl) hp).elim

/-- In every careful run no wakeup is lost. -/
theorem careful_keeps_wakeups (h : Reaches Careful s) : ¬LostWakeup s := by
  have hinv : Inv s := by
    induction h with
    | boot kstack pml4 => exact boot_inv kstack pml4
    | step a _ ha hs ih => exact step_inv ih ha hs
  exact hinv.not_lostWakeup

/-- A list of actions from a state. -/
def run (s : State) (actions : List Action) : Option State := actions.foldlM step s

/-- The state of a list of actions is reached. -/
theorem reaches_run {actions : List Action} (h : Reaches (fun _ _ => True) s)
    (hrun : run s actions=some s') : Reaches (fun _ _ => True) s' := by
  induction actions generalizing s with
  | nil =>
    obtain rfl := Option.some.inj hrun
    exact h
  | cons a actions ih =>
    rw [run,List.foldlM_cons] at hrun
    obtain ⟨s1,hs1,hrest⟩ := Option.bind_eq_some_iff.mp hrun
    exact ih (h.step a trivial hs1) hrest

/-- The boot code spawns a process and waits for it; the process spawns a child,
looks at it and loses the processor to it; the child ends; the process goes on and
blocks. -/
def unluckyTick : List Action :=
  [.spawn (some 0x910000) (some 0x2000),.wait 1,.advance,.advance,.advance,
    .spawn (some 0x920000) (some 0x3000),.wait 2,.advance,.tick,.exit 0,.advance,.advance,.advance]

/-- One tick between look and mark blocks a parent for ever. -/
theorem unluckyTick_loses_wakeup :
    ∃ s, run (boot 0x900000 0x1000) unluckyTick=some s ∧ Reaches (fun _ _ => True) s ∧
      (s.table.pcbs 2).parentPid=(s.table.pcbs 1).pid ∧ LostWakeup s := by
  obtain ⟨s,hs⟩ : ∃ s, run (boot 0x900000 0x1000) unluckyTick=some s := ⟨_,rfl⟩
  have hactivity : (run (boot 0x900000 0x1000) unluckyTick).map (fun s =>
      (s.activity 1,s.activity 2))=some (.blocking 2,.halted) := by decide
  have hstate : (run (boot 0x900000 0x1000) unluckyTick).map (fun s =>
      ((s.table.pcbs 1).state,(s.table.pcbs 2).state))=some (.blocked,.zombie) := by decide
  have hpid : (run (boot 0x900000 0x1000) unluckyTick).map (fun s =>
      ((s.table.pcbs 1).pid,(s.table.pcbs 2).pid,(s.table.pcbs 2).parentPid))=some (1,2,1) := by
    decide
  rw [hs] at hactivity hstate hpid
  simp only [Option.map_some,Option.some.injEq,Prod.mk.injEq] at hactivity hstate hpid
  refine ⟨s,hs,reaches_run (.boot _ _) hs,hpid.2.2.trans hpid.1.symm,1,2,by decide,by decide,?_,
    hstate.1,hstate.2,.inr hactivity.2⟩
  rw [hactivity.1,hpid.2.1]
  exact .inr (.inr rfl)

/-- A spawned process that its parent waits for is not lost. -/
theorem spawnWait_keeps_wakeups :
    ∃ s, step (boot 0x900000 0x1000) (.spawn (some 0x910000) (some 0x2000))=some s ∧
      ∃ s', step s (.wait 1)=some s' ∧ ¬LostWakeup s' := by
  obtain ⟨s,hs⟩ : ∃ s, step (boot 0x900000 0x1000) (.spawn (some 0x910000) (some 0x2000))=some s :=
    ⟨_,rfl⟩
  have hcheck : (step (boot 0x900000 0x1000) (.spawn (some 0x910000) (some 0x2000))).map (fun s =>
      (s.current,s.table.currentPid,(s.table.pcbs 1).pid,(s.table.pcbs 1).parentPid,
        (s.table.pcbs 0).pid))=some (.program,0,1,0,0) := by decide
  rw [hs] at hcheck
  simp only [Option.map_some,Option.some.injEq,Prod.mk.injEq] at hcheck
  obtain ⟨h1,h2,h3,h4,h5⟩ := hcheck
  have hwait : step s (.wait 1)=some (goOn s (.check 1)) := if_pos h1
  refine ⟨s,hs,_,hwait,careful_keeps_wakeups
    (((Reaches.boot 0x900000 0x1000).step _ trivial hs).step (.wait 1) ?_ hwait)⟩
  exact ⟨by decide,1,by decide,h3,by rw [h4,h2,h5]⟩

end OvsbMk.WaitRuns
