import OvsbMk.TuiWindows

/-!
# Closing a window

The window that is closed gives its place in the array to the last window. In a session that
closes windows only while they are among the two topmost ones, a window that has been closed
leaves no trace: the others are stacked as if it had never been opened.
-/

namespace OvsbMk.TuiStacking

open Numerals SwapRemoval TuiWindows

/-- The close takes away the window and keeps the order of the others. -/
def KeepsOrder (p : ℕ) (t : Tui) : Prop :=
  (tuiWinClose p t).windows=without Prod.fst p t.windows

/-- The window is one of the two topmost. -/
def NearTop (p : ℕ) (t : Tui) : Prop := NearEnd Prod.fst p t.windows

instance (p : ℕ) (t : Tui) : Decidable (NearTop p t) :=
  inferInstanceAs (Decidable (NearEnd _ _ _))

/-- The window that an operation is about. -/
def target : Op → ℕ
  | .new p _ _ _ _ _ _ => p
  | .close p => p
  | .draw p _ => p

/-- The operations of a session in which a window is never opened. -/
def never (p : ℕ) (ops : List Op) : List Op := ops.filter fun op => decide (target op≠p)

/-- An operation closes a window only while it is one of the two topmost. -/
def ClosesAtTop (t : Tui) : Op → Prop
  | .close p => p∈t.open → NearTop p t
  | _ => True

instance (t : Tui) : (op : Op) → Decidable (ClosesAtTop t op)
  | .new _ _ _ _ _ _ _ => isTrue trivial
  | .close p => inferInstanceAs (Decidable (p∈t.open → NearTop p t))
  | .draw _ _ => isTrue trivial

/-- All operations of a session do. -/
def AllAtTop (t : Tui) : List Op → Prop
  | [] => True
  | op::ops => ClosesAtTop t op ∧ AllAtTop (step t op) ops

/-- A session is decided operation by operation. -/
def decideAllAtTop (t : Tui) : (ops : List Op) → Decidable (AllAtTop t ops)
  | [] => isTrue trivial
  | op::ops =>
    have : Decidable (AllAtTop (step t op) ops) := decideAllAtTop (step t op) ops
    inferInstanceAs (Decidable (_ ∧ _))

instance (t : Tui) (ops : List Op) : Decidable (AllAtTop t ops) := decideAllAtTop t ops

variable {p q : ℕ} {t t' : Tui} {op : Op} {ops : List Op}

/-- The array after `tui_win_new`. -/
theorem tuiWinNew_windows (p : ℕ) (memory : Bool) (x y w h : ℤ) (flags : ℕ) (t : Tui) :
    (tuiWinNew p memory x y w h flags t).windows=
      if hnew : (1≤w ∧ 1≤h ∧ memory) ∧ p∉t.open then
        t.windows++[(p,winNew x y w h flags hnew.1.1 hnew.1.2.1)]
      else t.windows := by
  rw [tuiWinNew]
  by_cases hnew : 1≤w ∧ 1≤h ∧ memory ∧ p∉t.open
  · rw [dif_pos hnew,dif_pos ⟨⟨hnew.1,hnew.2.1,hnew.2.2.1⟩,hnew.2.2.2⟩]
  · rw [dif_neg hnew,dif_neg fun h => hnew ⟨h.1.1,h.1.2.1,h.1.2.2,h.2⟩]

/-- The close keeps the order exactly for the two topmost windows. -/
theorem keepsOrder_iff (hopen : p∈t.open) : KeepsOrder p t ↔ NearTop p t :=
  removeSwapping_eq_without_iff t.distinct hopen

/-- Without the same window twice. -/
theorem without_twice (p : ℕ) (l : List Placed) :
    without Prod.fst p (without Prod.fst p l)=without Prod.fst p l :=
  List.filter_eq_self.mpr fun _ hx => (List.mem_filter.mp hx).2

/-- The order in which two windows are left out does not matter. -/
theorem without_comm (p q : ℕ) (l : List Placed) :
    without Prod.fst p (without Prod.fst q l)=without Prod.fst q (without Prod.fst p l) :=
  List.filter_comm _ _ _

/-- A window that is not open is not missed. -/
theorem without_of_closed (hopen : p∉t.open) : without Prod.fst p t.windows=t.windows :=
  List.filter_eq_self.mpr fun _ hx => decide_eq_true fun he =>
    hopen (he ▸ List.mem_map_of_mem hx)

/-- What is drawn into a window is not seen without it. -/
theorem without_drawn_self (p : ℕ) (op : WindowOp) (l : List Placed) :
    without Prod.fst p (drawn p op l)=without Prod.fst p l := by
  induction l with
  | nil => rfl
  | cons x l ih =>
    simp only [without,drawn,List.map_cons] at ih ⊢
    by_cases hx : x.1=p
    · rw [if_pos hx,List.filter_cons_of_neg (by simpa using hx),
        List.filter_cons_of_neg (by simpa using hx),ih]
    · rw [if_neg hx,List.filter_cons_of_pos (by simpa using hx),
        List.filter_cons_of_pos (by simpa using hx),ih]

/-- What is drawn into another window is drawn without the window as well. -/
theorem without_drawn (p q : ℕ) (op : WindowOp) (l : List Placed) :
    without Prod.fst p (drawn q op l)=drawn q op (without Prod.fst p l) := by
  rw [without,without,drawn,drawn,List.filter_map]
  congr 1
  apply List.filter_congr
  intro x _
  simp only [Function.comp_apply]
  split <;> rfl

/-- After a close at the top the other windows are stacked as before. -/
theorem close_windows (htop : p∈t.open → NearTop p t) :
    (tuiWinClose p t).windows=without Prod.fst p t.windows := by
  by_cases hopen : p∈t.open
  · exact (keepsOrder_iff hopen).mpr (htop hopen)
  · rw [without_of_closed hopen]
    exact removeSwapping_of_notMem hopen

/-- An operation on a window is not seen without it. -/
theorem step_self (htop : ClosesAtTop t op) (hop : target op=p) :
    without Prod.fst p (step t op).windows=without Prod.fst p t.windows := by
  cases op with
  | new q memory x y w h flags =>
    subst hop
    rw [step,tuiWinNew_windows]
    split
    next => simp [without,target]
    next => rfl
  | close q =>
    subst hop
    rw [step,close_windows htop,target,without_twice]
  | draw q op =>
    subst hop
    exact without_drawn_self q op t.windows

/-- An operation on another window keeps the two sessions together. -/
theorem step_other (hsame : t'.windows=without Prod.fst p t.windows) (htop : ClosesAtTop t op)
    (hop : target op≠p) : (step t' op).windows=without Prod.fst p (step t op).windows := by
  have hmem : target op∈t'.open ↔ target op∈t.open := by
    rw [Tui.open,hsame,mem_without]
    exact and_iff_left hop
  cases op with
  | new q memory x y w h flags =>
    rw [step,step,tuiWinNew_windows,tuiWinNew_windows]
    by_cases hnew : (1≤w ∧ 1≤h ∧ memory) ∧ q∉t.open
    · have hnew' : (1≤w ∧ 1≤h ∧ memory) ∧ q∉t'.open := ⟨hnew.1,fun h => hnew.2 (hmem.mp h)⟩
      rw [dif_pos hnew,dif_pos hnew',hsame]
      rw [target] at hop
      simp [without,hop]
    · have hnew' : ¬((1≤w ∧ 1≤h ∧ memory) ∧ q∉t'.open) := fun h' =>
        hnew ⟨h'.1,fun h => h'.2 (hmem.mpr h)⟩
      rw [dif_neg hnew,dif_neg hnew',hsame]
  | close q =>
    have htop' : q∈t'.open → NearTop q t' := by
      intro hopen
      have hopen' : q∈t.open := hmem.mp hopen
      rw [NearTop,hsame]
      exact NearEnd.without (htop hopen') hopen' t.distinct hop
    rw [step,step,close_windows htop,close_windows htop',hsame,without_comm]
  | draw q op =>
    have hdrawn := without_drawn p q op t.windows
    rw [←hsame] at hdrawn
    exact hdrawn.symm

/-- The session in which the window is never opened has the other windows. -/
theorem run_never (hsame : t'.windows=without Prod.fst p t.windows) (htop : AllAtTop t ops) :
    (run t' (never p ops)).windows=without Prod.fst p (run t ops).windows := by
  induction ops generalizing t t' with
  | nil => exact hsame
  | cons op ops ih =>
    obtain ⟨hfirst,hrest⟩ := htop
    change (run t' (never p (op::ops))).windows=
      without Prod.fst p (run (step t op) ops).windows
    rw [never]
    by_cases hop : target op=p
    · rw [List.filter_cons_of_neg (by simpa using hop)]
      exact ih (hsame.trans (step_self hfirst hop).symm) hrest
    · rw [List.filter_cons_of_pos (by simpa using hop),run,List.foldl_cons]
      exact ih (step_other hsame hfirst hop) hrest

/-- A close takes away the window and keeps the order of the others, and so the composite,
in which later windows are over earlier ones, is that of a session without the window,
exactly when the window is one of the two topmost. -/
theorem close_keeps_order (t : Tui) (p : ℕ) :
    (p∈t.open → (KeepsOrder p t ↔ NearTop p t)) ∧
      (p∉t.open → ∀ ops, AllAtTop t ops → p∉(run t ops).open →
        (run t ops).windows=(run t (never p ops)).windows ∧
          (composite (run t ops)).composite=(composite (run t (never p ops))).composite) ∧
      ∀ r k, r<screenH → k<screenW →
        (composite t).composite (r*screenW+k)=topmost t.windows r k := by
  refine ⟨keepsOrder_iff,fun hstart ops htop hend => ?_,
    fun r k hr hk => painted_apply hr hk t.windows⟩
  have hwindows : (run t ops).windows=(run t (never p ops)).windows := by
    rw [run_never (without_of_closed hstart).symm htop,without_of_closed hend]
  exact ⟨hwindows,congrArg painted hwindows⟩

/-- Three windows of one cell, the last with a letter; the second is closed. -/
def secondClosed : List Op :=
  [.new 1 true 0 0 1 1 0,.new 2 true 0 0 1 1 0,.new 3 true 0 0 1 1 0,
    .draw 3 (.addch (ascii 'X')),.close 2]

/-- A session that closes a window under the topmost one. -/
theorem secondClosed_keeps :
    (run tuiInit secondClosed).windows=(run tuiInit (never 2 secondClosed)).windows ∧
      KeepsOrder 2 (run tuiInit (secondClosed.take 4)) := by
  have hsession := (close_keeps_order tuiInit 2).2.1 (by decide) secondClosed (by decide)
    (by decide)
  have hclose := (close_keeps_order (run tuiInit (secondClosed.take 4)) 2).1 (by decide)
  exact ⟨hsession.1,hclose.mpr (by decide)⟩

/-- The same with the first window closed. -/
def firstClosed : List Op :=
  [.new 1 true 0 0 1 1 0,.new 2 true 0 0 1 1 0,.new 3 true 0 0 1 1 0,
    .draw 3 (.addch (ascii 'X')),.close 1]

/-- The letter of the topmost window disappears under the window that was below it. -/
theorem firstClosed_covered :
    ¬KeepsOrder 1 (run tuiInit (firstClosed.take 4)) ∧
      (composite (run tuiInit firstClosed)).composite 0=blankCell ∧
        (composite (run tuiInit (never 1 firstClosed))).composite 0=
          ⟨ascii 'X',mkAttr 15 0⟩ := by
  have hcell : ∀ t : Tui, (composite t).composite 0=topmost t.windows 0 0 := fun t =>
    painted_apply (r:=0) (k:=0) (by decide) (by decide) t.windows
  rw [keepsOrder_iff (by decide),hcell,hcell]
  decide

end OvsbMk.TuiStacking
