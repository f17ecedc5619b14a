import OvsbMk.Formatting
import OvsbMk.StridedRows
import OvsbMk.SwapRemoval

/-!
# Windows of the text interface

The windows of `tui.c`, what is written into them, and the composite of 80 by 25 cells
into which they are painted one over the other. The array of the windows is their stacking
order. Closing a window keeps that order exactly when it was one of the two topmost.
-/

namespace OvsbMk.TuiWindows

open Numerals SwapRemoval
open Formatting (CString)

/-- Columns of the screen. -/
abbrev screenW : ℕ := 80

/-- Rows of the screen. -/
abbrev screenH : ℕ := 25

/-- A cell of characters. -/
structure Cell where
  /-- The character. -/
  ch : UInt8
  /-- The colours. -/
  attr : UInt8
  deriving DecidableEq

/-- The attribute of two colours, given by their low bytes. -/
def mkAttr (fg bg : UInt8) : UInt8 := bg<<<4|||fg

/-- The cell that the composite is filled with. -/
def blankCell : Cell := ⟨ascii ' ',mkAttr 15 0⟩

/-- A window. -/
structure Window where
  /-- Column of the left edge. -/
  x : ℤ
  /-- Row of the upper edge. -/
  y : ℤ
  /-- Width. -/
  w : ℕ
  /-- Height. -/
  h : ℕ
  /-- Column of the cursor. -/
  cx : ℕ
  /-- Row of the cursor. -/
  cy : ℕ
  /-- Writing goes on in the last row. -/
  scrollOk : Bool
  /-- Colour of the characters. -/
  fg : UInt8
  /-- Colour behind them. -/
  bg : UInt8
  /-- The cells, row after row. -/
  buf : ℕ → Cell
  /-- There is a column. -/
  w_pos : 0<w
  /-- There is a row. -/
  h_pos : 0<h

/-- The blank cell of a window. -/
def Window.blank (w : Window) : Cell := ⟨ascii ' ',mkAttr w.fg w.bg⟩

/-- The window that `tui_win_new` sets up. -/
def winNew (x y w h : ℤ) (flags : ℕ) (hw : 1≤w) (hh : 1≤h) : Window :=
  { x := x, y := y, w := w.toNat, h := h.toNat, cx := 0, cy := 0
    scrollOk := flags.testBit 2, fg := 15, bg := 0, buf := fun _ => blankCell
    w_pos := by omega, h_pos := by omega }

/-- `tui_win_move`. -/
def winMove (x y : ℤ) (w : Window) : Window := { w with x := x, y := y }

/-- `tui_win_resize`, when there is memory or not. -/
def winResize (memory : Bool) (nw nh : ℤ) (w : Window) : Window :=
  if h : 1≤nw ∧ 1≤nh ∧ memory then
    { w with
      w := nw.toNat, h := nh.toNat, cx := 0, cy := 0, buf := fun _ => w.blank
      w_pos := by omega, h_pos := by omega }
  else w

/-- `tui_win_gotoxy`. -/
def winGotoxy (y x : ℤ) (w : Window) : Window :=
  { w with
    cx := if x<0 then 0 else if (w.w : ℤ)≤x then w.w-1 else x.toNat
    cy := if y<0 then 0 else if (w.h : ℤ)≤y then w.h-1 else y.toNat }

/-- `tui_win_addch_attr`. -/
def winAddchAttr (ch fg bg : UInt8) (w : Window) : Window :=
  if w.w ≤ w.cx ∨ w.h ≤ w.cy then w
  else { w with
    buf := Function.update w.buf (w.cy*w.w+w.cx) ⟨ch,mkAttr fg bg⟩, cx := w.cx+1 }

/-- `tui_win_addch`. -/
def winAddch (ch : UInt8) (w : Window) : Window := winAddchAttr ch w.fg w.bg w

/-- The loop of `tui_win_addstr`. -/
def addstrLoop : List UInt8 → Window → Window
  | [], w => w
  | c::s, w =>
    if c=ascii '\n' then
      let w := { w with cx := 0, cy := w.cy+1 }
      addstrLoop s (if w.h ≤ w.cy ∧ w.scrollOk then { w with cy := w.h-1 } else w)
    else
      let w := if w.w ≤ w.cx then { w with cx := 0, cy := w.cy+1 } else w
      if w.h ≤ w.cy then
        if w.scrollOk then addstrLoop s (winAddch c { w with cy := w.h-1 }) else w
      else addstrLoop s (winAddch c w)

/-- `tui_win_addstr`. -/
def winAddstr (s : CString) (w : Window) : Window := addstrLoop s.chars w

/-- `tui_win_color`. -/
def winColor (fg bg : UInt8) (w : Window) : Window := { w with fg := fg&&&15, bg := bg&&&15 }

/-- `tui_win_clear`. -/
def winClear (w : Window) : Window := { w with buf := fun _ => w.blank, cx := 0, cy := 0 }

/-- `w->buf[i].ch = c;`. -/
def setCh (c : UInt8) (buf : ℕ → Cell) (i : ℕ) : ℕ → Cell :=
  Function.update buf i { buf i with ch := c }

/-- `tui_win_box`. A title that is null is as an empty one. -/
def winBox (title : CString) (w : Window) : Window :=
  if w.w<3 ∨ w.h<3 then w
  else
    let columns := List.range' 1 (w.w-2)
    let rows := List.range' 1 (w.h-2)
    let bottom := (w.h-1)*w.w
    let buf := setCh (ascii '+') w.buf 0
    let buf := columns.foldl (setCh (ascii '-')) buf
    let buf := setCh (ascii '+') buf (w.w-1)
    let buf := setCh (ascii '+') buf bottom
    let buf := (columns.map (bottom+·)).foldl (setCh (ascii '-')) buf
    let buf := setCh (ascii '+') buf (bottom+w.w-1)
    let buf := rows.foldl
      (fun b y => setCh (ascii '|') (setCh (ascii '|') b (y*w.w)) (y*w.w+w.w-1)) buf
    let inner := rows.flatMap fun y => columns.map (y*w.w+·)
    let buf := inner.foldl (fun b i => Function.update b i w.blank) buf
    let sl := min title.chars.length (w.w-3)
    { w with
      buf := (title.chars.take sl).zipIdx.foldl (fun b p => setCh p.1 b (2+p.2)) buf }

/-- What is done to a window while it is open. -/
inductive WindowOp where
  /-- `tui_win_move`. -/
  | move (x y : ℤ)
  /-- `tui_win_resize`. -/
  | resize (memory : Bool) (nw nh : ℤ)
  /-- `tui_win_gotoxy`. -/
  | gotoxy (y x : ℤ)
  /-- `tui_win_addch`. -/
  | addch (ch : UInt8)
  /-- `tui_win_addch_attr`. -/
  | addchAttr (ch fg bg : UInt8)
  /-- `tui_win_addstr`. -/
  | addstr (s : CString)
  /-- `tui_win_color`. -/
  | color (fg bg : UInt8)
  /-- `tui_win_clear`. -/
  | clear
  /-- `tui_win_box`. -/
  | box (title : CString)

/-- The window after an operation. -/
def WindowOp.apply : WindowOp → Window → Window
  | .move x y => winMove x y
  | .resize memory nw nh => winResize memory nw nh
  | .gotoxy y x => winGotoxy y x
  | .addch ch => winAddch ch
  | .addchAttr ch fg bg => winAddchAttr ch fg bg
  | .addstr s => winAddstr s
  | .color fg bg => winColor fg bg
  | .clear => winClear
  | .box title => winBox title

/-- A window and its address. -/
abbrev Placed : Type := ℕ×Window

/-- The interface. -/
structure Tui where
  /-- The array of the windows. -/
  windows : List Placed
  /-- The composite, row after row. -/
  composite : ℕ → Cell
  /-- What the terminal is believed to show. -/
  phys : ℕ → Cell
  /-- No window is twice in the array. -/
  distinct : (windows.map Prod.fst).Nodup

/-- The addresses of the open windows. -/
def Tui.open (t : Tui) : List ℕ := t.windows.map Prod.fst

/-- `tui_win_new`, when there is memory or not. The new window gets an address that none of
the open windows has. -/
def tuiWinNew (p : ℕ) (memory : Bool) (x y w h : ℤ) (flags : ℕ) (t : Tui) : Tui :=
  if hnew : 1≤w ∧ 1≤h ∧ memory ∧ p∉t.open then
    { t with
      windows := t.windows++[(p,winNew x y w h flags hnew.1 hnew.2.1)]
      distinct := by
        rw [List.map_append,List.nodup_append]
        refine ⟨t.distinct,List.nodup_singleton _,fun a ha b hb he => ?_⟩
        rw [List.map_singleton,List.mem_singleton] at hb
        rw [he,hb] at ha
        exact hnew.2.2.2 ha }
  else t

/-- `tui_win_close`: `t->windows[i] = t->windows[--t->nwindows];`. -/
def tuiWinClose (p : ℕ) (t : Tui) : Tui :=
  { t with
    windows := removeSwapping Prod.fst p t.windows
    distinct := nodup_removeSwapping t.distinct p }

/-- The windows after an operation on one of them. -/
def drawn (p : ℕ) (op : WindowOp) (windows : List Placed) : List Placed :=
  windows.map fun q => if q.1=p then (q.1,op.apply q.2) else q

/-- An operation on a window leaves the addresses. -/
theorem drawn_fst (p : ℕ) (op : WindowOp) (windows : List Placed) :
    (drawn p op windows).map Prod.fst=windows.map Prod.fst := by
  rw [drawn,List.map_map]
  apply List.map_congr_left
  intro q _
  simp only [Function.comp_apply]
  split <;> rfl

/-- An operation on a window that is open. -/
def tuiDraw (p : ℕ) (op : WindowOp) (t : Tui) : Tui :=
  { t with
    windows := drawn p op t.windows
    distinct := (drawn_fst p op t.windows).symm ▸ t.distinct }

/-- The inner loop of `composite`, over the columns of a row of a window. -/
def paintRow (w : Window) (row : ℕ) (composite : ℕ → Cell) : ℕ → Cell :=
  (List.range w.w).foldl (fun c (col : ℕ) =>
    let sx := w.x+col
    if sx<0 ∨ screenW ≤ sx then c
    else Function.update c ((w.y+row)*screenW+sx).toNat (w.buf (row*w.w+col))) composite

/-- The loop of `composite` over the rows of a window. -/
def paintWindow (composite : ℕ → Cell) (w : Window) : ℕ → Cell :=
  (List.range w.h).foldl (fun c (row : ℕ) =>
    let sy := w.y+row
    if sy<0 ∨ screenH ≤ sy then c else paintRow w row c) composite

/-- What `composite` leaves in the composite. -/
def painted (windows : List Placed) : ℕ → Cell :=
  (windows.map Prod.snd).foldl paintWindow fun _ => blankCell

/-- `composite`. -/
def composite (t : Tui) : Tui := { t with composite := painted t.windows }

/-- What `tui_init` sets up. The shadow differs from the composite in the first cell. -/
def tuiInit : Tui :=
  { windows := [], composite := fun _ => blankCell, phys := setCh 0 (fun _ => blankCell) 0
    distinct := List.nodup_nil }

/-- What happens to the windows. -/
inductive Op where
  /-- `tui_win_new`. -/
  | new (p : ℕ) (memory : Bool) (x y w h : ℤ) (flags : ℕ)
  /-- `tui_win_close`. -/
  | close (p : ℕ)
  /-- Another operation on a window. -/
  | draw (p : ℕ) (op : WindowOp)

/-- The interface after an operation. -/
def step (t : Tui) : Op → Tui
  | .new p memory x y w h flags => tuiWinNew p memory x y w h flags t
  | .close p => tuiWinClose p t
  | .draw p op => tuiDraw p op t

/-- Operations, one after the other. -/
def run (t : Tui) (ops : List Op) : Tui := ops.foldl step t

/-- The cell of a window at a place of the screen. -/
def Window.cellAt (w : Window) (r k : ℕ) : Option Cell :=
  if w.y≤r ∧ r<w.y+w.h ∧ w.x≤k ∧ k<w.x+w.w then
    some (w.buf ((r-w.y).toNat*w.w+(k-w.x).toNat))
  else none

/-- The topmost cell at a place of the screen. -/
def topmost (windows : List Placed) (r k : ℕ) : Cell :=
  ((windows.map Prod.snd).reverse.findSome? fun w => w.cellAt r k).getD blankCell

variable {w : Window} {r k : ℕ}

/-- The cells of a row of the composite after some columns of a row of a window. -/
theorem paintColumns_apply (hk : k<screenW) {row s : ℕ} (hs : w.y+row=s) (c : ℕ → Cell)
    (n : ℕ) :
    (List.range n).foldl (fun c (col : ℕ) =>
      if w.x+col<0 ∨ screenW≤w.x+col then c
      else Function.update c ((w.y+row)*screenW+(w.x+col)).toNat (w.buf (row*w.w+col))) c
        (r*screenW+k)=
      if s=r ∧ w.x≤k ∧ k<w.x+n then w.buf (row*w.w+(k-w.x).toNat) else c (r*screenW+k) := by
  have hwidth : screenW=80 := rfl
  induction n with
  | zero =>
    rw [if_neg (by omega)]
    rfl
  | succ n ih =>
    rw [List.range_succ,List.foldl_concat]
    by_cases hout : w.x+(n : ℤ)<0 ∨ (screenW : ℤ)≤w.x+n
    · have hsame : (s=r ∧ w.x≤k ∧ k<w.x+(n+1 : ℕ)) ↔ s=r ∧ w.x≤k ∧ k<w.x+n := by omega
      rw [if_pos hout,ih]
      simp only [hsame]
    · rw [if_neg hout]
      by_cases hhere : s=r ∧ k=w.x+n
      · have hat : ((w.y+row)*screenW+(w.x+n)).toNat=r*screenW+k := by
          rw [hs,hwidth]
          omega
        have hcol : (k-w.x).toNat=n := by omega
        rw [hat,Function.update_self,if_pos (by omega),hcol]
      · have hne : r*screenW+k≠((w.y+row)*screenW+(w.x+n)).toNat := by
          rw [hs,hwidth]
          omega
        have hsame : (s=r ∧ w.x≤k ∧ k<w.x+(n+1 : ℕ)) ↔ s=r ∧ w.x≤k ∧ k<w.x+n := by omega
        rw [Function.update_of_ne hne,ih]
        simp only [hsame]

/-- A window is painted over what is there. -/
theorem paintWindow_apply (hr : r<screenH) (hk : k<screenW) (c : ℕ → Cell) (w : Window) :
    paintWindow c w (r*screenW+k)=(w.cellAt r k).getD (c (r*screenW+k)) := by
  have hheight : screenH=25 := rfl
  have hrows : ∀ n : ℕ, (List.range n).foldl (fun c (row : ℕ) =>
      if w.y+row<0 ∨ screenH≤w.y+row then c else paintRow w row c) c (r*screenW+k)=
      if w.y≤r ∧ r<w.y+n ∧ w.x≤k ∧ k<w.x+w.w then
        w.buf ((r-w.y).toNat*w.w+(k-w.x).toNat)
      else c (r*screenW+k) := by
    intro n
    induction n with
    | zero =>
      rw [if_neg (by omega)]
      rfl
    | succ n ih =>
      rw [List.range_succ,List.foldl_concat]
      by_cases hout : w.y+(n : ℤ)<0 ∨ (screenH : ℤ)≤w.y+n
      · have hsame : (w.y≤r ∧ r<w.y+(n+1 : ℕ) ∧ w.x≤k ∧ k<w.x+w.w) ↔
            w.y≤r ∧ r<w.y+n ∧ w.x≤k ∧ k<w.x+w.w := by omega
        rw [if_pos hout,ih]
        simp only [hsame]
      · obtain ⟨s,hs⟩ : ∃ s : ℕ, w.y+n=s := ⟨(w.y+n).toNat,by omega⟩
        rw [if_neg hout,paintRow]
        refine (paintColumns_apply hk hs _ w.w).trans ?_
        by_cases hhere : s=r ∧ w.x≤k ∧ k<w.x+w.w
        · have hrow : (r-w.y).toNat=n := by omega
          rw [if_pos hhere,if_pos (by omega),hrow]
        · have hsame : (w.y≤r ∧ r<w.y+(n+1 : ℕ) ∧ w.x≤k ∧ k<w.x+w.w) ↔
              w.y≤r ∧ r<w.y+n ∧ w.x≤k ∧ k<w.x+w.w := by omega
          rw [if_neg hhere,ih]
          simp only [hsame]
  rw [paintWindow,Window.cellAt]
  refine (hrows w.h).trans ?_
  split <;> rfl

/-- The composite shows the topmost cells: later windows are painted over earlier ones. -/
theorem painted_apply (hr : r<screenH) (hk : k<screenW) (windows : List Placed) :
    painted windows (r*screenW+k)=topmost windows r k := by
  rw [painted,topmost]
  induction windows.map Prod.snd using List.reverseRecOn with
  | nil => rfl
  | append_singleton ws w ih =>
    rw [List.foldl_concat,paintWindow_apply hr hk,ih,List.reverse_append]
    cases hcell : w.cellAt r k <;> simp [hcell]

end OvsbMk.TuiWindows
