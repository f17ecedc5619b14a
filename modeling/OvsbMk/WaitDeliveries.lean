import OvsbMk.WaitRuns

/-!
# What waiting delivers

Runs of `proc_spawn`, `proc_exit` and `proc_waitpid` with ticks in between, and
with a history of the exits and of the exit codes that `proc_waitpid` has
returned. Every process that is gone has been delivered exactly once, with the
code of its exit. A slot keeps its number after the process is gone, though, so
that waiting for a number that no process has fails at once only if no slot
carries it.
-/

namespace OvsbMk.WaitDeliveries

open Processes ProcessCalls ProcessRuns WaitRuns

/-- A run up to now. -/
structure History where
  /-- The kernel. -/
  state : State
  /-- Numbers and codes of the calls of `proc_exit`, the latest first. -/
  exits : List (ℤ×ℤ)
  /-- Numbers and codes that `proc_waitpid` has returned, the latest first. -/
  delivered : List (ℤ×ℤ)

/-- What `proc_waitpid` returns after its first look at the table, with the table it
leaves; nothing if it blocks. -/
def lookAnswer (t : Table Unit) (pid : ℤ) : Option (ℤ×Table Unit) :=
  match findAny t pid with
  | none => some (-1,t)
  | some i => if (t.pcbs i).state=.zombie then some (pid,setState t i .empty) else none

/-- The exit that an action is. -/
def exitOf (s : State) : Action → List (ℤ×ℤ)
  | .exit code => [((s.table.pcbs s.table.currentPid).pid,code)]
  | _ => []

/-- The exit code that a statement of `proc_waitpid` returns. -/
def deliveryOf (s : State) : Action → List (ℤ×ℤ)
  | .advance =>
    match s.current with
    | .check child =>
      match findAny s.table child with
      | some i =>
        if (s.table.pcbs i).state=.zombie then [(child,(s.table.pcbs i).exitCode)] else []
      | none => []
    | _ => []
  | _ => []

/-- One more action. -/
def next (h : History) (a : Action) : Option History :=
  (step h.state a).map fun s =>
    ⟨s,exitOf h.state a++h.exits,deliveryOf h.state a++h.delivered⟩

/-- The runs of spawns, exits, waits and ticks. -/
inductive Reaches : History → Prop
  /-- Right after boot. -/
  | boot (kstack pml4 : ℕ) : Reaches ⟨boot kstack pml4,[],[]⟩
  /-- A run with one more action. -/
  | step {h h' : History} (a : Action) (hr : Reaches h)
    (hspawn : ∀ kstack pml4, a≠.createUser kstack pml4) (hn : next h a=some h') : Reaches h'

/-- No process, dead ones that have not been reaped included, has the number. -/
def NoProcess (t : Table Unit) (pid : ℤ) : Prop :=
  ∀ i, i < maxProc → (t.pcbs i).pid=pid → (t.pcbs i).state=.empty

/-- The entries of a process. -/
def entries (l : List (ℤ×ℤ)) (pid : ℤ) : List (ℤ×ℤ) := l.filter fun e => e.1=pid

/-- The exit code of each process is delivered once. -/
structure DeliveredOnce (h : History) : Prop where
  /-- What is gone was delivered exactly once, with the code of its only exit. -/
  once : ∀ pid, 0≤pid → pid<h.state.table.nextPid → NoProcess h.state.table pid →
    ∃ code, entries h.exits pid=[(pid,code)] ∧ entries h.delivered pid=[(pid,code)]
  /-- What is still there was not delivered. -/
  notYet : ∀ pid, ¬NoProcess h.state.table pid → entries h.delivered pid=[]
  /-- What was never issued was not delivered. -/
  never : ∀ pid, pid<0 ∨ h.state.table.nextPid≤pid → entries h.delivered pid=[]

/-- The process has called `proc_exit`. -/
def Gone (a : Activity) : Prop := a=.dying ∨ a=.woke ∨ a=.halted

/-- The history of a number agrees with the table. -/
inductive Booked (h : History) (pid : ℤ) : Prop
  /-- A process that has not exited. -/
  | alive (i : ℕ) (hi : i < maxProc) (hpid : (h.state.table.pcbs i).pid=pid)
    (hstate : ¬Dead (h.state.table.pcbs i).state) (hexits : entries h.exits pid=[])
    (hdelivered : entries h.delivered pid=[])
  /-- A process that has exited. -/
  | dead (i : ℕ) (hi : i < maxProc) (hpid : (h.state.table.pcbs i).pid=pid)
    (hstate : (h.state.table.pcbs i).state=.zombie)
    (hexits : entries h.exits pid=[(pid,(h.state.table.pcbs i).exitCode)])
    (hdelivered : entries h.delivered pid=[])
  /-- A process that has been reaped. -/
  | reaped (code : ℤ) (hgone : NoProcess h.state.table pid)
    (hexits : entries h.exits pid=[(pid,code)])
    (hdelivered : entries h.delivered pid=[(pid,code)])

/-- The invariant of the runs. -/
structure Inv (h : History) : Prop where
  /-- Numbers are unique. -/
  fresh : Fresh h.state.table
  /-- The current slot is in the table. -/
  current_lt : h.state.table.currentPid < maxProc
  /-- The current slot is in use. -/
  current_used : (h.state.table.pcbs h.state.table.currentPid).state≠.empty
  /-- A dead process has called `proc_exit`. -/
  gone : ∀ i, (h.state.table.pcbs i).state=.zombie → Gone (h.state.activity i)
  /-- Every issued number is booked. -/
  booked : ∀ pid, 0≤pid → pid<h.state.table.nextPid → Booked h pid
  /-- Nothing is known of other numbers. -/
  unissued : ∀ pid, pid<0 ∨ h.state.table.nextPid≤pid →
    entries h.exits pid=[] ∧ entries h.delivered pid=[]

/-- The same processes are alive, dead and reaped. -/
structure SameLives (t t' : Table Unit) : Prop where
  /-- Same numbers. -/
  same : SameProcesses t t'
  /-- Same exit codes. -/
  exitCode : ∀ i, (t'.pcbs i).exitCode=(t.pcbs i).exitCode
  /-- Same slots without a process. -/
  empty : ∀ i, (t'.pcbs i).state=.empty ↔ (t.pcbs i).state=.empty
  /-- Same dead processes. -/
  zombie : ∀ i, (t'.pcbs i).state=.zombie ↔ (t.pcbs i).state=.zombie

variable {h h' : History} {t t' t'' : Table Unit} {i : ℕ} {pid : ℤ}

/-- Nothing happened. -/
theorem SameLives.refl (t : Table Unit) : SameLives t t :=
  ⟨.refl t,fun _ => rfl,fun _ => .rfl,fun _ => .rfl⟩

/-- One change after the other. -/
theorem SameLives.trans (hs : SameLives t t') (hs' : SameLives t' t'') : SameLives t t'' :=
  ⟨hs.same.trans hs'.same,fun i => (hs'.exitCode i).trans (hs.exitCode i),
    fun i => (hs'.empty i).trans (hs.empty i),fun i => (hs'.zombie i).trans (hs.zombie i)⟩

/-- A live process in another live state. -/
theorem sameLives_setState {state : ProcState} (hi : ¬Dead (t.pcbs i).state) (hs : ¬Dead state) :
    SameLives t (setState t i state) := by
  rw [Dead,not_or] at hi hs
  refine ⟨sameProcesses_setState _,fun j => ?_,fun j => ?_,fun j => ?_⟩ <;>
  · rw [setState_pcbs]
    split
    next hj =>
      subst hj
      simp [hi.1,hi.2,hs.1,hs.2]
    next => simp

/-- Saving a context. -/
theorem sameLives_setContext : SameLives t (setContext t i ()) := by
  refine ⟨sameProcesses_setContext _,fun j => ?_,fun j => ?_,fun j => ?_⟩ <;>
  · rw [setContext_pcbs]
    split <;> simp

/-- Another current process. -/
theorem sameLives_current (t : Table Unit) (n : ℕ) : SameLives t { t with currentPid := n } :=
  ⟨sameProcesses_current t n,fun _ => rfl,fun _ => .rfl,fun _ => .rfl⟩

/-- Waking a parent. -/
theorem sameLives_procWakeParent (t : Table Unit) (pid : ℤ) :
    SameLives t (procWakeParent t pid) := by
  rw [procWakeParent]
  split
  next i hfind =>
    have hpred := List.find?_some hfind
    simp only [Bool.and_eq_true,decide_eq_true_eq] at hpred
    exact sameLives_setState (by simp [hpred.1,Dead]) (by simp [Dead])
  next => exact .refl t

/-- The scheduler. -/
theorem sameLives_scheduleSwitch (t : Table Unit) : SameLives t (scheduleSwitch t ()).table := by
  rw [scheduleSwitch,schedule]
  by_cases hstay : findNextReady t=t.currentPid
  · rw [if_pos hstay]
    exact .refl t
  · obtain ⟨_,hready⟩ := (findNextReady_cases t).resolve_left hstay
    rw [if_neg hstay]
    dsimp only
    have hprev : SameLives t (if (t.pcbs t.currentPid).state=.running then
        setState t t.currentPid .ready else t) := by
      split
      next hrun => exact sameLives_setState (by simp [hrun,Dead]) (by simp [Dead])
      next => exact .refl t
    have hnext : ¬Dead ((if (t.pcbs t.currentPid).state=.running then
        setState t t.currentPid .ready else t).pcbs (findNextReady t)).state := by
      rw [Dead,hprev.empty,hprev.zombie,hready]
      simp
    exact ((hprev.trans (sameLives_setState hnext (by simp [Dead]))).trans
      (sameLives_current _ _)).trans sameLives_setContext

/-- The invariant gives the deliveries. -/
theorem Inv.deliveredOnce (h0 : Inv h) : DeliveredOnce h := by
  have hthere : ∀ {i pid}, i < maxProc → (h.state.table.pcbs i).pid=pid →
      (h.state.table.pcbs i).state≠.empty → ¬NoProcess h.state.table pid :=
    fun hi hpid hstate hnone => hstate (hnone _ hi hpid)
  refine ⟨fun pid hnonneg hissued hnone => ?_,fun pid hsome => ?_,fun pid hout => ?_⟩
  · cases h0.booked pid hnonneg hissued with
    | alive i hi hpid hstate => exact (hthere hi hpid (fun he => hstate (.inl he)) hnone).elim
    | dead i hi hpid hstate => exact (hthere hi hpid (by simp [hstate]) hnone).elim
    | reaped code hgone hexits hdelivered => exact ⟨code,hexits,hdelivered⟩
  · by_cases hissued : 0≤pid ∧ pid<h.state.table.nextPid
    · cases h0.booked pid hissued.1 hissued.2 with
      | alive i hi hpid hstate hexits hdelivered => exact hdelivered
      | dead i hi hpid hstate hexits hdelivered => exact hdelivered
      | reaped code hgone => exact (hsome hgone).elim
    · exact (h0.unissued pid (by omega)).2
  · exact (h0.unissued pid hout).2

/-- Changes that leave the same processes alive and dead keep the invariant. -/
theorem Inv.of_sameLives (h0 : Inv h) {t : Table Unit} (hs : SameLives h.state.table t)
    (hlt : t.currentPid < maxProc) (hused : (t.pcbs t.currentPid).state≠.empty) :
    Inv ⟨⟨t,h.state.activity⟩,h.exits,h.delivered⟩ := by
  refine ⟨h0.fresh.of_same hs.same fun i hi => ?_,hlt,hused,fun i hi => ?_,
    fun pid hnonneg hissued => ?_,fun pid hout => ?_⟩
  · exact h0.fresh.numbered i fun he => hi ((hs.empty i).mpr he)
  · exact h0.gone i ((hs.zombie i).mp hi)
  · replace hissued : pid<t.nextPid := hissued
    rw [hs.same.nextPid] at hissued
    cases h0.booked pid hnonneg hissued with
    | alive i hi hpid hstate hexits hdelivered =>
      refine .alive i hi ((hs.same.pid i).trans hpid) ?_ hexits hdelivered
      rw [Dead] at hstate ⊢
      exact fun hd => hstate (hd.imp (hs.empty i).mp (hs.zombie i).mp)
    | dead i hi hpid hstate hexits hdelivered =>
      refine .dead i hi ((hs.same.pid i).trans hpid) ((hs.zombie i).mpr hstate) ?_ hdelivered
      change entries h.exits pid=[(pid,(t.pcbs i).exitCode)]
      rw [hs.exitCode]
      exact hexits
    | reaped code hgone hexits hdelivered =>
      refine .reaped code (fun i hi hpid => ?_) hexits hdelivered
      exact (hs.empty i).mpr (hgone i hi ((hs.same.pid i).symm.trans hpid))
  · refine h0.unissued pid (hout.imp_right fun hle => ?_)
    replace hle : t.nextPid≤pid := hle
    rwa [hs.same.nextPid] at hle

/-- The scheduler keeps the invariant. -/
theorem Inv.reschedule (h0 : Inv h) : Inv ⟨reschedule h.state,h.exits,h.delivered⟩ := by
  have hs := sameLives_scheduleSwitch h.state.table
  rw [WaitRuns.reschedule]
  rcases scheduleSwitch_cases h.state.table () with hstay | ⟨t',next,hout,hsched⟩
  · rw [hstay]
    exact h0
  · rw [hout] at hs ⊢
    refine h0.of_sameLives hs ?_ ?_
    · rw [hsched.current]
      exact hsched.next_lt
    · rw [hsched.current,hsched.next_running]
      decide

/-- Going on to an activity keeps the invariant; a process that has called `proc_exit`
does not come back. -/
theorem Inv.goOn (h0 : Inv h) {a : Activity} (ha : Gone h.state.current → Gone a) :
    Inv ⟨goOn h.state a,h.exits,h.delivered⟩ := by
  refine ⟨h0.fresh,h0.current_lt,h0.current_used,fun i hi => ?_,fun pid h1 h2 => ?_,h0.unissued⟩
  · have hgone := h0.gone i hi
    change Gone (Function.update h.state.activity h.state.table.currentPid a i)
    rcases eq_or_ne i h.state.table.currentPid with rfl | hne
    · rw [Function.update_self]
      exact ha hgone
    · rw [Function.update_of_ne hne]
      exact hgone
  · cases h0.booked pid h1 h2 with
    | alive i hi hpid hstate hexits hdelivered => exact .alive i hi hpid hstate hexits hdelivered
    | dead i hi hpid hstate hexits hdelivered => exact .dead i hi hpid hstate hexits hdelivered
    | reaped code hgone hexits hdelivered => exact .reaped code hgone hexits hdelivered

/-- One more entry. -/
theorem entries_cons (e : ℤ×ℤ) (l : List (ℤ×ℤ)) (pid : ℤ) :
    entries (e::l) pid=if e.1=pid then e::entries l pid else entries l pid := by
  simp [entries,List.filter_cons]

/-- In a slot that is in use the number decides which process it is. -/
theorem Inv.booked_slot (h0 : Inv h) (hused : (h.state.table.pcbs i).state≠.empty) :
    0≤(h.state.table.pcbs i).pid ∧ Booked h (h.state.table.pcbs i).pid ∧
      ∀ j, (h.state.table.pcbs j).pid=(h.state.table.pcbs i).pid → j=i := by
  have hnonneg := h0.fresh.numbered i hused
  refine ⟨hnonneg,h0.booked _ hnonneg (h0.fresh.below i),fun j hj => ?_⟩
  exact (h0.fresh.inj i j hnonneg hj.symm).symm

/-- A dead process is booked as such. -/
theorem Inv.dead_entries (h0 : Inv h) (hi : i < maxProc)
    (hz : (h.state.table.pcbs i).state=.zombie) :
    entries h.exits (h.state.table.pcbs i).pid=
        [((h.state.table.pcbs i).pid,(h.state.table.pcbs i).exitCode)] ∧
      entries h.delivered (h.state.table.pcbs i).pid=[] := by
  obtain ⟨_,hbooked,huniq⟩ :=
    h0.booked_slot (by simp [hz] : (h.state.table.pcbs i).state≠.empty)
  cases hbooked with
  | alive j hj hpid hstate =>
    rw [huniq j hpid] at hstate
    exact (hstate (.inr hz)).elim
  | dead j hj hpid hstate hexits hdelivered =>
    rw [huniq j hpid] at hexits
    exact ⟨hexits,hdelivered⟩
  | reaped code hgone =>
    have hempty := hgone i hi rfl
    rw [hz] at hempty
    cases hempty

/-- A live process is booked as such. -/
theorem Inv.alive_entries (h0 : Inv h) (hi : i < maxProc)
    (halive : ¬Dead (h.state.table.pcbs i).state) :
    entries h.exits (h.state.table.pcbs i).pid=[] ∧
      entries h.delivered (h.state.table.pcbs i).pid=[] := by
  rw [Dead,not_or] at halive
  obtain ⟨_,hbooked,huniq⟩ := h0.booked_slot halive.1
  cases hbooked with
  | alive j hj hpid hstate hexits hdelivered => exact ⟨hexits,hdelivered⟩
  | dead j hj hpid hstate =>
    rw [huniq j hpid] at hstate
    exact (halive.2 hstate).elim
  | reaped code hgone => exact (halive.1 (hgone i hi rfl)).elim

/-- What happens to the process of one slot leaves the books of the others. -/
theorem Booked.of_other {h h' : History} (hb : Booked h pid)
    (hi : (h.state.table.pcbs i).pid≠pid)
    (htable : ∀ j, j≠i → h'.state.table.pcbs j=h.state.table.pcbs j)
    (hself : (h'.state.table.pcbs i).pid=(h.state.table.pcbs i).pid)
    (hexits : entries h'.exits pid=entries h.exits pid)
    (hdelivered : entries h'.delivered pid=entries h.delivered pid) : Booked h' pid := by
  have hne : ∀ {j}, (h.state.table.pcbs j).pid=pid → j≠i := by
    rintro j hj rfl
    exact hi hj
  cases hb with
  | alive j hj hpid hstate he hd =>
    have hsame := htable j (hne hpid)
    rw [←hsame] at hpid hstate
    exact .alive j hj hpid hstate (hexits.trans he) (hdelivered.trans hd)
  | dead j hj hpid hstate he hd =>
    have hsame := htable j (hne hpid)
    rw [←hsame] at hpid hstate he
    exact .dead j hj hpid hstate (hexits.trans he) (hdelivered.trans hd)
  | reaped code hgone he hd =>
    refine .reaped code (fun j hj hpid => ?_) (hexits.trans he) (hdelivered.trans hd)
    have hji : j≠i := by
      rintro rfl
      exact hi (hself.symm.trans hpid)
    rw [htable j hji] at hpid ⊢
    exact hgone j hj hpid

/-- Reaping a dead process keeps the invariant: its code is delivered. -/
theorem Inv.reap (h0 : Inv h) (hi : i < maxProc) (hz : (h.state.table.pcbs i).state=.zombie)
    (hcurrent : ¬Gone h.state.current) :
    Inv ⟨{ WaitRuns.goOn h.state .program with table := setState h.state.table i .empty },h.exits,
      ((h.state.table.pcbs i).pid,(h.state.table.pcbs i).exitCode)::h.delivered⟩ := by
  have hic : i≠h.state.table.currentPid := by
    rintro rfl
    exact hcurrent (h0.gone _ hz)
  obtain ⟨hnonneg,_,huniq⟩ := h0.booked_slot (by simp [hz] : (h.state.table.pcbs i).state≠.empty)
  obtain ⟨hexits,hdelivered⟩ := h0.dead_entries hi hz
  have hcons : ∀ pid, (h.state.table.pcbs i).pid≠pid → entries
      (((h.state.table.pcbs i).pid,(h.state.table.pcbs i).exitCode)::h.delivered) pid=
        entries h.delivered pid := by
    intro pid hpid
    rw [entries_cons,if_neg hpid]
  refine ⟨h0.fresh.setState _ hnonneg,h0.current_lt,?_,fun j hj => ?_,fun pid h1 h2 => ?_,
    fun pid hout => ?_⟩
  · change ((setState h.state.table i .empty).pcbs h.state.table.currentPid).state≠.empty
    rw [setState_other _ hic.symm]
    exact h0.current_used
  · change ((setState h.state.table i .empty).pcbs j).state=.zombie at hj
    have hji : j≠i := by
      rintro rfl
      rw [setState_self] at hj
      cases hj
    rw [setState_other _ hji] at hj
    have hgone := h0.gone j hj
    have hjc : j≠h.state.table.currentPid := by
      rintro rfl
      exact hcurrent hgone
    change Gone (Function.update h.state.activity h.state.table.currentPid .program j)
    rwa [Function.update_of_ne hjc]
  · by_cases hpid : (h.state.table.pcbs i).pid=pid
    · subst hpid
      refine .reaped (h.state.table.pcbs i).exitCode (fun j _ hj => ?_) hexits ?_
      · change ((setState h.state.table i .empty).pcbs j).pid=_ at hj
        rw [(sameProcesses_setState _).pid] at hj
        rw [huniq j hj]
        exact setState_self _
      · change entries (_::h.delivered) _=_
        rw [entries_cons,if_pos rfl,hdelivered]
    · exact (h0.booked pid h1 h2).of_other hpid (fun j hj => setState_other _ hj)
        ((sameProcesses_setState _).pid i) rfl (hcons pid hpid)
  · obtain ⟨h1,h2⟩ := h0.unissued pid hout
    refine ⟨h1,(hcons pid ?_).trans h2⟩
    have hbelow := h0.fresh.below i
    rintro rfl
    rcases hout with hneg | hnext
    · omega
    · exact absurd hbelow (not_lt.mpr hnext)

/-- Calling `proc_exit` keeps the invariant: the process and its code are booked. -/
theorem Inv.callExit (h0 : Inv h) (hcurrent : h.state.current=.program) (code : ℤ) :
    Inv ⟨WaitRuns.callExit h.state code,
      ((h.state.table.pcbs h.state.table.currentPid).pid,code)::h.exits,h.delivered⟩ := by
  have halive : ¬Dead (h.state.table.pcbs h.state.table.currentPid).state := by
    rintro (he | hz)
    · exact h0.current_used he
    · rcases h0.gone _ hz with hg | hg | hg <;>
      · rw [State.current] at hcurrent
        rw [hcurrent] at hg
        cases hg
  obtain ⟨hnonneg,_,huniq⟩ := h0.booked_slot h0.current_used
  obtain ⟨hexits,hdelivered⟩ := h0.alive_entries h0.current_lt halive
  have htable : ∀ j, j≠h.state.table.currentPid →
      (WaitRuns.callExit h.state code).table.pcbs j=h.state.table.pcbs j := by
    intro j hj
    unfold WaitRuns.callExit
    exact (setState_other _ hj).trans ((setExitCode_pcbs code).trans (if_neg hj))
  have hself : (WaitRuns.callExit h.state code).table.pcbs h.state.table.currentPid=
      { h.state.table.pcbs h.state.table.currentPid with exitCode := code, state := .zombie } := by
    unfold WaitRuns.callExit
    exact (setState_pcbs _).trans ((if_pos rfl).trans (by rw [setExitCode_pcbs,if_pos rfl]))
  have hsame : SameProcesses h.state.table (WaitRuns.callExit h.state code).table :=
    (sameProcesses_setExitCode _).trans (sameProcesses_setState _)
  have hcons : ∀ pid, (h.state.table.pcbs h.state.table.currentPid).pid≠pid → entries
      (((h.state.table.pcbs h.state.table.currentPid).pid,code)::h.exits) pid=
        entries h.exits pid := by
    intro pid hpid
    rw [entries_cons,if_neg hpid]
  refine ⟨?_,h0.current_lt,?_,fun j hj => ?_,fun pid h1 h2 => ?_,fun pid hout => ?_⟩
  · refine h0.fresh.of_same hsame fun j hj => ?_
    rcases eq_or_ne j h.state.table.currentPid with rfl | hne
    · exact hnonneg
    · rw [htable j hne] at hj
      exact h0.fresh.numbered j hj
  · change ((WaitRuns.callExit h.state code).table.pcbs h.state.table.currentPid).state≠.empty
    rw [hself]
    simp
  · change Gone (Function.update h.state.activity h.state.table.currentPid .dying j)
    rcases eq_or_ne j h.state.table.currentPid with rfl | hne
    · rw [Function.update_self]
      exact .inl rfl
    · change ((WaitRuns.callExit h.state code).table.pcbs j).state=.zombie at hj
      rw [htable j hne] at hj
      rw [Function.update_of_ne hne]
      exact h0.gone j hj
  · by_cases hpid : (h.state.table.pcbs h.state.table.currentPid).pid=pid
    · subst hpid
      refine .dead h.state.table.currentPid h0.current_lt ?_ ?_ ?_ hdelivered
      · change ((WaitRuns.callExit h.state code).table.pcbs h.state.table.currentPid).pid=_
        rw [hself]
      · change ((WaitRuns.callExit h.state code).table.pcbs h.state.table.currentPid).state=_
        rw [hself]
      · change entries (_::h.exits) _=
          [(_,((WaitRuns.callExit h.state code).table.pcbs h.state.table.currentPid).exitCode)]
        rw [entries_cons,if_pos rfl,hexits,hself]
    · exact (h0.booked pid h1 h2).of_other hpid htable (hsame.pid _) (hcons pid hpid) rfl
  · obtain ⟨h1,h2⟩ := h0.unissued pid hout
    refine ⟨(hcons pid ?_).trans h1,h2⟩
    have hbelow := h0.fresh.below h.state.table.currentPid
    rintro rfl
    rcases hout with hneg | hnext
    · omega
    · exact absurd hbelow (not_lt.mpr hnext)

/-- A new process in an empty slot keeps the invariant. -/
theorem Inv.putProcess (h0 : Inv h) (hi : i < maxProc)
    (hempty : (h.state.table.pcbs i).state=.empty) (kstack pml4 : ℕ) :
    Inv ⟨⟨putProcess h.state.table i kstack pml4 (),Function.update h.state.activity i .program⟩,
      h.exits,h.delivered⟩ := by
  have hnew := putProcess_self h.state.table i kstack pml4 ()
  have hold : ∀ j, j≠i →
      (ProcessCalls.putProcess h.state.table i kstack pml4 ()).pcbs j=h.state.table.pcbs j :=
    fun j hj => putProcess_other hj
  have hnext : (ProcessCalls.putProcess h.state.table i kstack pml4 ()).nextPid=
      h.state.table.nextPid+1 := rfl
  have hcur : (ProcessCalls.putProcess h.state.table i kstack pml4 ()).currentPid=
      h.state.table.currentPid := rfl
  have hfresh := h0.fresh.putProcess i kstack pml4 ()
  have hic : h.state.table.currentPid≠i := by
    rintro rfl
    exact h0.current_used hempty
  have hlive : ∀ j, (h.state.table.pcbs j).state≠.empty → j≠i := by
    rintro j hj rfl
    exact hj hempty
  generalize ProcessCalls.putProcess h.state.table i kstack pml4 ()=t at *
  refine ⟨hfresh,?_,?_,fun j hj => ?_,fun pid h1 h2 => ?_,fun pid hout => ?_⟩
  · exact hcur ▸ h0.current_lt
  · change (t.pcbs t.currentPid).state≠.empty
    rw [hcur,hold _ hic]
    exact h0.current_used
  · change (t.pcbs j).state=.zombie at hj
    have hji : j≠i := by
      rintro rfl
      rw [hnew] at hj
      cases hj
    rw [hold j hji] at hj
    change Gone (Function.update h.state.activity i .program j)
    rw [Function.update_of_ne hji]
    exact h0.gone j hj
  · change pid<t.nextPid at h2
    rw [hnext] at h2
    rcases (Int.lt_add_one_iff.mp h2).lt_or_eq with hlt | rfl
    · cases h0.booked pid h1 hlt with
      | alive j hj hpid hstate hexits hdelivered =>
        have hsame := hold j (hlive j fun he => hstate (.inl he))
        rw [←hsame] at hpid hstate
        exact .alive j hj hpid hstate hexits hdelivered
      | dead j hj hpid hstate hexits hdelivered =>
        have hsame := hold j (hlive j (by simp [hstate]))
        rw [←hsame] at hpid hstate hexits
        exact .dead j hj hpid hstate hexits hdelivered
      | reaped code hgone hexits hdelivered =>
        refine .reaped code (fun j hj hpid => ?_) hexits hdelivered
        change (t.pcbs j).pid=pid at hpid
        change (t.pcbs j).state=.empty
        have hji : j≠i := by
          rintro rfl
          rw [hnew] at hpid
          exact hlt.ne' hpid
        rw [hold j hji] at hpid ⊢
        exact hgone j hj hpid
    · obtain ⟨hexits,hdelivered⟩ := h0.unissued _ (.inr le_rfl)
      refine .alive i hi (by rw [hnew]) ?_ hexits hdelivered
      change ¬Dead (t.pcbs i).state
      rw [hnew]
      simp [Dead]
  · refine h0.unissued pid (hout.imp_right fun hle => ?_)
    change t.nextPid≤pid at hle
    rw [hnext] at hle
    omega

/-- `proc_spawn` keeps the invariant. -/
theorem Inv.spawn (h0 : Inv h) (kstack pml4 : Option ℕ) :
    Inv ⟨afterCreation h.state ((findEmpty h.state.table).getD 0)
      (procSpawn h.state.table kstack pml4 ()),h.exits,h.delivered⟩ := by
  rw [procSpawn]
  cases hfind : findEmpty h.state.table with
  | none =>
    dsimp only
    rw [afterCreation_failed]
    exact h0
  | some slot =>
    have hempty : (h.state.table.pcbs slot).state=.empty := by
      simpa using List.find?_some hfind
    have hlt : slot < maxProc := List.mem_range.mp (List.mem_of_find?_eq_some hfind)
    cases kstack with
    | none =>
      dsimp only
      rw [afterCreation_failed]
      exact h0
    | some stack =>
      cases pml4 with
      | none =>
        dsimp only
        rw [afterCreation_failed]
        exact h0
      | some root =>
        dsimp only
        rw [afterCreation_created h.state _ _ h0.fresh.next_nonneg,Option.getD_some]
        exact h0.putProcess hlt hempty stack root

/-- The look of `proc_waitpid` keeps the invariant. -/
theorem Inv.look (h0 : Inv h) {child : ℤ} (hcurrent : h.state.current=.check child) :
    Inv ⟨advance h.state,h.exits,deliveryOf h.state .advance++h.delivered⟩ := by
  have hnot : ¬Gone h.state.current := by
    rw [hcurrent]
    rintro (hg | hg | hg) <;> cases hg
  rw [deliveryOf,advance,hcurrent]
  dsimp only
  cases hfind : findAny h.state.table child with
  | none => exact h0.goOn fun hg => (hnot hg).elim
  | some i =>
    have hpid : (h.state.table.pcbs i).pid=child := by simpa using List.find?_some hfind
    have hi : i < maxProc := List.mem_range.mp (List.mem_of_find?_eq_some hfind)
    dsimp only
    by_cases hz : (h.state.table.pcbs i).state=.zombie
    · rw [if_pos hz,if_pos hz,←hpid]
      exact h0.reap hi hz hnot
    · rw [if_neg hz,if_neg hz]
      exact h0.goOn fun hg => (hnot hg).elim

/-- The mark of `proc_waitpid` keeps the invariant. -/
theorem Inv.mark (h0 : Inv h) {child : ℤ} (hcurrent : h.state.current=.checked child) :
    Inv ⟨advance h.state,h.exits,h.delivered⟩ := by
  have hnot : ¬Gone h.state.current := by
    rw [hcurrent]
    rintro (hg | hg | hg) <;> cases hg
  have halive : ¬Dead (h.state.table.pcbs h.state.table.currentPid).state := by
    rintro (he | hz)
    · exact h0.current_used he
    · exact hnot (h0.gone _ hz)
  rw [advance,hcurrent]
  refine (h0.goOn (a:=.blocking child) fun hg => (hnot hg).elim).of_sameLives
    (sameLives_setState halive (by simp [Dead])) h0.current_lt ?_
  change ((setState h.state.table h.state.table.currentPid .blocked).pcbs
    h.state.table.currentPid).state≠.empty
  rw [setState_self]
  decide

/-- The next statement of the running process keeps the invariant. -/
theorem Inv.advance (h0 : Inv h) :
    Inv ⟨advance h.state,h.exits,deliveryOf h.state .advance++h.delivered⟩ := by
  rcases hcurrent : h.state.current with _ | child | child | child | _ | _ | _
  · rw [deliveryOf,WaitRuns.advance,hcurrent]
    exact h0
  · exact h0.look hcurrent
  · rw [deliveryOf,hcurrent]
    exact h0.mark hcurrent
  · rw [deliveryOf,WaitRuns.advance,hcurrent]
    refine (h0.goOn (a:=.check child) fun hg => ?_).reschedule
    rw [hcurrent] at hg
    rcases hg with hg | hg | hg <;> cases hg
  · rw [deliveryOf,WaitRuns.advance,hcurrent]
    have hs := sameLives_procWakeParent h.state.table
      (h.state.table.pcbs h.state.table.currentPid).pid
    have hwoken := woken_procWakeParent h.state.table
      (h.state.table.pcbs h.state.table.currentPid).pid
    refine (h0.goOn (a:=.woke) fun _ => .inr (.inl rfl)).of_sameLives hs ?_ ?_
    · rw [hwoken.current]
      exact h0.current_lt
    · rw [hwoken.current,ne_eq,hs.empty]
      exact h0.current_used
  · rw [deliveryOf,WaitRuns.advance,hcurrent]
    exact (h0.goOn (a:=.halted) fun _ => .inr (.inr rfl)).reschedule
  · rw [deliveryOf,WaitRuns.advance,hcurrent]
    exact h0

/-- Every action but `process_create_user` keeps the invariant. -/
theorem next_inv {a : Action} (h0 : Inv h) (hspawn : ∀ kstack pml4, a≠.createUser kstack pml4)
    (hn : next h a=some h') : Inv h' := by
  obtain ⟨s,hs,rfl⟩ := Option.map_eq_some_iff.mp hn
  cases a with
  | tick =>
    obtain rfl := Option.some.inj hs
    exact h0.reschedule
  | advance =>
    obtain rfl := Option.some.inj hs
    exact h0.advance
  | wait child =>
    rw [step] at hs
    split at hs
    next hcurrent =>
      obtain rfl := Option.some.inj hs
      refine h0.goOn fun hg => ?_
      rw [hcurrent] at hg
      rcases hg with hg | hg | hg <;> cases hg
    next => cases hs
  | exit code =>
    rw [step] at hs
    split at hs
    next hcurrent =>
      obtain rfl := Option.some.inj hs
      exact h0.callExit hcurrent code
    next => cases hs
  | createUser kstack pml4 => exact (hspawn kstack pml4 rfl).elim
  | spawn kstack pml4 =>
    rw [step] at hs
    split at hs
    next =>
      obtain rfl := Option.some.inj hs
      exact h0.spawn kstack pml4
    next => cases hs

/-- The invariant holds after boot. -/
theorem boot_history (kstack pml4 : ℕ) : Inv ⟨boot kstack pml4,[],[]⟩ := by
  refine ⟨fresh_init (some kstack) pml4 (),show 0<64 by decide,?_,fun i hi => ?_,
    fun pid h1 h2 => ?_,fun pid _ => ⟨rfl,rfl⟩⟩
  · change ((processInit (some kstack) pml4 ()).pcbs 0).state≠.empty
    simp [processInit,allocPcb,blankTable]
  · change ((processInit (some kstack) pml4 ()).pcbs i).state=.zombie at hi
    by_cases h0 : i=0
    · subst h0
      simp [processInit,allocPcb,blankTable] at hi
    · simp [processInit,allocPcb,blankTable,h0] at hi
  · change pid<1 at h2
    obtain rfl : pid=0 := by omega
    refine .alive 0 (by decide) ?_ ?_ rfl rfl
    · change ((processInit (some kstack) pml4 ()).pcbs 0).pid=0
      simp [processInit,allocPcb,blankTable]
    · change ¬Dead ((processInit (some kstack) pml4 ()).pcbs 0).state
      simp [processInit,allocPcb,blankTable,Dead]

/-- Every run keeps the invariant. -/
theorem Reaches.inv (hr : Reaches h) : Inv h := by
  induction hr with
  | boot kstack pml4 => exact boot_history kstack pml4
  | step a _ hspawn hn ih => exact next_inv ih hspawn hn

/-- Waiting for a number that no process has fails at once, and every exit code was
delivered once. -/
def WaitsWell (h : History) (pid : ℤ) : Prop :=
  lookAnswer h.state.table pid=some (-1,h.state.table) ∧ DeliveredOnce h

/-- In every run, for every number that no process has, waiting fails at once and
changes nothing exactly when no slot carries the number; and whatever was waited for
before, each exit code was delivered once. -/
theorem waitsWell_iff (hr : Reaches h) {pid : ℤ} (hnone : NoProcess h.state.table pid) :
    WaitsWell h pid ↔ ∀ i, i < maxProc → (h.state.table.pcbs i).pid≠pid := by
  have honce := hr.inv.deliveredOnce
  rw [WaitsWell,lookAnswer]
  cases hfind : findAny h.state.table pid with
  | none =>
    refine iff_of_true ⟨rfl,honce⟩ fun i hi => ?_
    have := List.find?_eq_none.mp hfind i (List.mem_range.mpr hi)
    simpa using this
  | some i =>
    have hpid : (h.state.table.pcbs i).pid=pid := by simpa using List.find?_some hfind
    have hi : i < maxProc := List.mem_range.mp (List.mem_of_find?_eq_some hfind)
    refine iff_of_false ?_ fun hall => hall i hi hpid
    rintro ⟨hlook,_⟩
    dsimp only at hlook
    rw [if_neg (by rw [hnone i hi hpid]; decide)] at hlook
    cases hlook

/-- The look of the running process is the one that the answer is about. -/
theorem advance_look {s : State} (hcurrent : s.current=.check pid) :
    advance s=(lookAnswer s.table pid).elim (goOn s (.checked pid))
      fun r => { goOn s .program with table := r.2 } := by
  rw [advance,hcurrent,lookAnswer]
  dsimp only
  cases findAny s.table pid with
  | none => rfl
  | some i =>
    dsimp only
    split <;> rfl

/-- Nobody has the number seven after boot. -/
theorem boot_waitsWell : NoProcess (boot 0x900000 0x1000).table 7 ∧
    (WaitsWell ⟨boot 0x900000 0x1000,[],[]⟩ 7 ↔
      ∀ i, i < maxProc → ((boot 0x900000 0x1000).table.pcbs i).pid≠7) := by
  have hnone : NoProcess (boot 0x900000 0x1000).table 7 := by
    rw [NoProcess]
    decide
  exact ⟨hnone,waitsWell_iff (.boot 0x900000 0x1000) hnone⟩

/-- A list of actions from a history. -/
def runHistory (h : History) (actions : List Action) : Option History := actions.foldlM next h

/-- The history of a list of actions is reached. -/
theorem reaches_runHistory {actions : List Action} (hr : Reaches h)
    (hspawn : ∀ a∈actions, ∀ kstack pml4, a≠.createUser kstack pml4)
    (hrun : runHistory h actions=some h') : Reaches h' := by
  induction actions generalizing h with
  | nil =>
    obtain rfl := Option.some.inj hrun
    exact hr
  | cons a actions ih =>
    rw [runHistory,List.foldlM_cons] at hrun
    obtain ⟨h1,hh1,hrest⟩ := Option.bind_eq_some_iff.mp hrun
    exact ih (hr.step a (hspawn a (by simp)) hh1) (fun b hb => hspawn b (by simp [hb])) hrest

/-- The boot code spawns a process and waits for it; the process exits with code
seven and is reaped. -/
def reapedOnce : List Action :=
  [.spawn (some 0x910000) (some 0x2000),.wait 1,.advance,.advance,.advance,.exit 7,.advance,
    .advance,.advance]

/-- Waiting again for a process that has been reaped does not fail: its slot still
has its number, and the caller blocks. -/
theorem reapedOnce_blocks : ∃ h, runHistory ⟨boot 0x900000 0x1000,[],[]⟩ reapedOnce=some h ∧
    Reaches h ∧ entries h.delivered 1=[(1,7)] ∧ NoProcess h.state.table 1 ∧
    lookAnswer h.state.table 1=none ∧ ¬WaitsWell h 1 := by
  obtain ⟨h,hh⟩ : ∃ h, runHistory ⟨boot 0x900000 0x1000,[],[]⟩ reapedOnce=some h := ⟨_,rfl⟩
  have hdelivered : (runHistory ⟨boot 0x900000 0x1000,[],[]⟩ reapedOnce).map
      (fun h => h.delivered)=some [(1,7)] := by decide
  have hslots : (runHistory ⟨boot 0x900000 0x1000,[],[]⟩ reapedOnce).map (fun h =>
      ((List.range maxProc).find? fun i => decide ((h.state.table.pcbs i).pid=1 ∧
        (h.state.table.pcbs i).state≠.empty)))=some none := by decide
  have hanswer : (runHistory ⟨boot 0x900000 0x1000,[],[]⟩ reapedOnce).map (fun h =>
      (lookAnswer h.state.table 1).isNone)=some true := by decide
  rw [hh] at hdelivered hslots hanswer
  simp only [Option.map_some,Option.some.injEq] at hdelivered hslots hanswer
  have hlook : lookAnswer h.state.table 1=none := Option.isNone_iff_eq_none.mp hanswer
  have hspawn : ∀ a∈reapedOnce, ∀ kstack pml4, a≠.createUser kstack pml4 := by
    rintro a ha kstack pml4 rfl
    simp [reapedOnce] at ha
  refine ⟨h,hh,reaches_runHistory (.boot _ _) hspawn hh,by rw [hdelivered]; rfl,
    fun i hi hpid => ?_,hlook,fun hw => ?_⟩
  · have := List.find?_eq_none.mp hslots i (List.mem_range.mpr hi)
    simpa [hpid] using this
  · have hfails := hw.1
    rw [hlook] at hfails
    cases hfails

end OvsbMk.WaitDeliveries
