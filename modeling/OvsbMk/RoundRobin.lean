import OvsbMk.CyclicScan
import OvsbMk.LabelledRuns
import OvsbMk.ProcessCalls

/-!
# The scheduler takes turns

While the current process runs, every call that schedules brings the turn nearer to a
process that is ready: it gets the processor within 63 of them, whatever the processes
do in between. The boot code is in the ready state itself, so that the timer never
takes the processor away from it.
-/

namespace OvsbMk.RoundRobin

open Processes ProcessCalls CyclicScan LabelledRuns

variable {κ : Type} {t t' : Table κ} {q : ℕ} {saved : κ} {c : Call κ}
  {labels : List (Call κ×Option ℕ)}

/-- A call that passes a test, with the slot that its context switch resumes. -/
def Calls (allowed : Table κ → Call κ → Prop) (t : Table κ) (l : Call κ×Option ℕ) (t' : Table κ) :
    Prop :=
  allowed t l.1 ∧ ∃ saved, (call t saved l.1).table=t' ∧ (call t saved l.1).resumed=l.2

/-- The call is a timer tick or a yield. -/
def isTick : Call κ → Bool
  | .schedule => true
  | _ => false

/-- The current process runs, and the process in the slot waits for its turn. -/
structure Waits (q : ℕ) (t : Table κ) : Prop where
  /-- The current number is a slot. -/
  slot : t.currentPid < maxProc
  /-- Its process runs. -/
  running : (t.pcbs t.currentPid).state=.running
  /-- The waiting process is ready. -/
  ready : (t.pcbs q).state=.ready

/-- The waiting process is not the current one. -/
theorem Waits.ne (h : Waits q t) : q≠t.currentPid := by
  intro heq
  have hready := h.ready
  rw [heq,h.running] at hready
  cases hready

/-- The scheduler's search. -/
theorem findNextReady_scan (t : Table κ) : findNextReady t=
    (scan maxProc (fun i => decide ((t.pcbs i).state=.ready)) t.currentPid).getD t.currentPid := rfl

/-- The timer may tick any number of times. -/
theorem exists_ticks (allowed : Table κ → Call κ → Prop) (hallowed : ∀ t, allowed t .schedule)
    (saved : κ) (n : ℕ) (t : Table κ) : ∃ labels t', Run (Calls allowed) t labels t' ∧
      (labels.countP fun l => isTick l.1)=n := by
  induction n generalizing t with
  | zero => exact ⟨[],t,.stop t,rfl⟩
  | succ n ih =>
    obtain ⟨labels,t',hrun,hcount⟩ := ih (call t saved .schedule).table
    refine ⟨(.schedule,(call t saved .schedule).resumed)::labels,t',
      .go ⟨hallowed t,saved,rfl,rfl⟩ hrun,?_⟩
    rw [List.countP_cons_of_pos rfl,hcount]

/-- The current process is in the ready state. -/
structure Rests (p : ℕ) (t : Table κ) : Prop where
  /-- It is current. -/
  current : t.currentPid=p
  /-- Its slot is in the table. -/
  slot : p < maxProc
  /-- It is ready. -/
  ready : (t.pcbs p).state=.ready
  /-- Its slot has been handed out. -/
  used : p < t.pcbCount

/-- The calls that create processes, and the timer. -/
def Starts : Call κ → Prop
  | .createUser _ _ _ => True
  | .spawn _ _ _ => True
  | .schedule => True
  | _ => False

/-- The scheduler stays with a current process that is ready. -/
theorem scheduleSwitch_rests {p : ℕ} (h : Rests p t) (saved : κ) :
    scheduleSwitch t saved=⟨t,none,none⟩ := by
  obtain ⟨hcur,hslot,hready,_⟩ := h
  obtain ⟨x,hscan,hx,_,hahead⟩ := scan_first (p:=fun i => decide ((t.pcbs i).state=.ready)) hslot
    hslot (decide_eq_true hready)
  have hself : ahead maxProc p p=0 := by
    unfold ahead
    rw [if_pos le_rfl,Nat.sub_self]
  have hstay : x=p := by
    by_contra hne
    have hpos := ahead_pos hslot hne
    omega
  have hnext : findNextReady t=t.currentPid := by
    rw [findNextReady_scan,hcur,hscan,Option.getD_some,hstay]
  unfold scheduleSwitch schedule
  dsimp only
  rw [if_pos hnext]

/-- One creation or tick. -/
theorem call_rests {p : ℕ} (h : Rests p t) (saved : κ) (hc : Starts c) :
    Rests p (call t saved c).table ∧ (call t saved c).resumed=none := by
  cases c with
  | createUser kstack pml4 frame =>
    refine ⟨?_,rfl⟩
    have hne : p≠t.pcbCount := Nat.ne_of_lt h.used
    have htable : (call t saved (.createUser kstack pml4 frame)).table=
        (processCreateUser t kstack pml4 frame).2 := rfl
    rw [htable]
    rcases createUser_cases t kstack pml4 frame with ⟨_,heq⟩ | ⟨_,_,heq⟩ | ⟨stack,_,_,heq⟩
    · rw [heq]
      exact h
    · rw [heq]
      exact ⟨h.current,h.slot,h.ready,h.used.trans (Nat.lt_succ_self _)⟩
    · rw [heq]
      refine ⟨h.current,h.slot,?_,h.used.trans (Nat.lt_succ_self _)⟩
      exact (congrArg Pcb.state (putProcess_other hne)).trans h.ready
  | spawn kstack pml4 frame =>
    refine ⟨?_,rfl⟩
    have htable : (call t saved (.spawn kstack pml4 frame)).table=
        (procSpawn t kstack pml4 frame).2 := rfl
    rw [htable]
    rcases procSpawn_cases t kstack pml4 frame with heq | ⟨slot,stack,root,_,hempty,_,_,heq⟩
    · rw [heq]
      exact h
    · rw [heq]
      have hne : p≠slot := fun hp => by
        have hready := h.ready
        rw [hp,hempty] at hready
        cases hready
      exact ⟨h.current,h.slot,(congrArg Pcb.state (putProcess_other hne)).trans h.ready,h.used⟩
  | schedule =>
    have heq : call t saved .schedule=⟨t,none,none⟩ := scheduleSwitch_rests h saved
    rw [heq]
    exact ⟨h,rfl⟩
  | switchTo pid => exact hc.elim
  | exit code => exact hc.elim
  | exitCurrent code => exact hc.elim
  | waitpid pid => exact hc.elim

/-- While the current process is in the ready state, as the boot code is, the timer does not
take the processor away from it, however many processes are created. -/
theorem resting_keeps_processor {p : ℕ} (h : Rests p t)
    (hrun : Run (Calls fun _ c => Starts c) t labels t') :
    t'.currentPid=p ∧ ∀ l∈labels, l.2=none := by
  have hstep : ∀ (s : Table κ) (l : Call κ×Option ℕ) s', Rests p s →
      Calls (fun _ c => Starts c) s l s' → Rests p s' ∧ l.2=none := by
    intro s l s' hs hl
    obtain ⟨hc,saved,rfl,hresumed⟩ := hl
    obtain ⟨h1,h2⟩ := call_rests hs saved hc
    exact ⟨h1,hresumed ▸ h2⟩
  obtain ⟨hend,hall⟩ := hrun.all (Rests p) (fun l => l.2=none) hstep h
  exact ⟨hend.current,hall⟩

/-- After the start of the system the timer leaves the boot code alone. -/
theorem processInit_keeps : ∃ labels t', Run (Calls fun _ c => Starts c)
    (processInit (some 0x1000) 0 ()) labels t' ∧ t'.currentPid=0 := by
  have hrests : Rests 0 (processInit (some 0x1000) 0 ()) := ⟨rfl,by decide,rfl,by decide⟩
  obtain ⟨labels,t',hrun,_⟩ := exists_ticks (fun _ c => Starts c) (fun _ => trivial) () 2
    (processInit (some 0x1000) 0 ())
  exact ⟨labels,t',hrun,(resting_keeps_processor hrests hrun).1⟩

end OvsbMk.RoundRobin
