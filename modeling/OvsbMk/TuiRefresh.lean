import OvsbMk.AnsiTerminal
import OvsbMk.TuiWindows

/-!
# Refreshing the screen of the text interface

`tui_refresh` of `tui.c` sends the rows of the composite that differ from the shadow, each up
to its last character that is not a blank, and erases the rest of the row with the colour
that the terminal happens to have. The shadow takes over the whole row. The terminal shows
the composite in every run whose rows have behind their last character the colour that the
terminal erases with, and no character that it does not print.
-/

namespace OvsbMk.TuiRefresh

open AnsiTerminal Numerals TuiWindows

/-- The terminal that the interface is made for. -/
abbrev Screen : Type := Terminal screenH screenW

/-- `fmt_int`. -/
def fmtInt (n : ℤ) : List UInt8 :=
  (if n<0 then [ascii '-'] else [])++(doLoop 10 12 n.natAbs).reverse.map digitByte

/-- `ansi_goto`. -/
def ansiGoto (y x : ℤ) : List UInt8 :=
  [0x1B,ascii '[']++fmtInt (y+1)++[ascii ';']++fmtInt (x+1)++[ascii 'H']

/-- The bytes that erase the rest of a row. -/
def eraseRest : List UInt8 := [0x1B,ascii '[',ascii 'K']

/-- The bytes that `tui_init` sends. -/
def initBytes : List UInt8 :=
  [0x1B,ascii '[',ascii '?',ascii '2',ascii '5',ascii 'l',0x1B,ascii '[',ascii '2',ascii 'J']

/-- The colour of the character of a cell. -/
def cellFg (c : Cell) : ℕ := (c.attr&&&0x0F).toNat

/-- The colour behind it. -/
def cellBg (c : Cell) : ℕ := (c.attr>>>4&&&0x0F).toNat

/-- The parameter for the colour of a character. -/
def ansiFg (fg : ℕ) : ℕ := if fg&&&8≠0 then 90+(fg&&&7) else 30+fg

/-- The parameter for the colour behind it. -/
def ansiBg (bg : ℕ) : ℕ := if bg&&&8≠0 then 100+(bg&&&7) else 40+bg

/-- The bytes that choose two colours. -/
def colourBytes (fg bg : ℕ) : List UInt8 :=
  [0x1B,ascii '[']++fmtInt (ansiFg fg)++[ascii ';']++fmtInt (ansiBg bg)++[ascii 'm']

/-- The byte that is sent for a character, which is a signed number. -/
def sentByte (ch : UInt8) : UInt8 := if ch.toInt8<0x20 ∧ ch≠ascii '\t' then ascii ' ' else ch

/-- A round of the loop that sends cells: the bytes so far, and the colours that were chosen
last. -/
def sendCell (st : List UInt8×Option (ℕ×ℕ)) (c : Cell) : List UInt8×Option (ℕ×ℕ) :=
  let colours := if st.2=some (cellFg c,cellBg c) then [] else colourBytes (cellFg c) (cellBg c)
  (st.1++colours++[sentByte c.ch],some (cellFg c,cellBg c))

/-- The loop that sends the first cells of a row. -/
def sendCells (cr : ℕ → Cell) (n : ℕ) : List UInt8×Option (ℕ×ℕ) :=
  (List.range n).foldl (fun st c => sendCell st (cr c)) ([],none)

/-- The loop that looks for the last character that is not a blank. -/
def lastInk (cr : ℕ → Cell) : ℕ → Option ℕ
  | 0 => none
  | c+1 => if (cr c).ch≠ascii ' ' then some c else lastInk cr c

/-- The bytes that are sent for a row. -/
def refreshRow (row : ℕ) (cr : ℕ → Cell) : List UInt8 :=
  ansiGoto row 0++match lastInk cr screenW with
    | none => eraseRest
    | some last => (sendCells cr (last+1)).1++if last<screenW-1 then eraseRest else []

/-- The cells of a row. -/
def rowOf (cells : ℕ → Cell) (row : ℕ) : ℕ → Cell := fun c => cells (row*screenW+c)

/-- The row differs from the shadow. -/
def Changed (composite phys : ℕ → Cell) (row : ℕ) : Prop :=
  ∃ c<screenW, rowOf composite row c≠rowOf phys row c

instance (composite phys : ℕ → Cell) (row : ℕ) : Decidable (Changed composite phys row) :=
  inferInstanceAs (Decidable (∃ c<screenW, _))

/-- `memcpy(pr, cr, t->w*sizeof(cell_t))`. -/
def copyRow (composite phys : ℕ → Cell) (row : ℕ) : ℕ → Cell := fun i =>
  if row*screenW ≤ i ∧ i<row*screenW+screenW then composite i else phys i

/-- The loop of `tui_refresh` over rows: the bytes that are sent, and the shadow. -/
def refreshRows (composite : ℕ → Cell) : List ℕ → (ℕ → Cell) → List UInt8×(ℕ → Cell)
  | [], phys => ([],phys)
  | row::rows, phys =>
    if Changed composite phys row then
      let rest := refreshRows composite rows (copyRow composite phys row)
      (refreshRow row (rowOf composite row)++rest.1,rest.2)
    else refreshRows composite rows phys

/-- The body of `tui_refresh`, over some rows. -/
def refreshOver (rows : List ℕ) (t : Tui) : List UInt8×Tui :=
  let t := composite t
  let sent := refreshRows t.composite rows t.phys
  (sent.1,{ t with phys := sent.2 })

/-- `tui_refresh`. -/
def tuiRefresh (t : Tui) : List UInt8×Tui := refreshOver (List.range screenH) t

/-- The interface and the terminal. -/
structure Session where
  /-- The interface. -/
  tui : Tui
  /-- The terminal. -/
  screen : Screen

/-- What the program does. -/
inductive Event where
  /-- An operation on a window. -/
  | window (op : Op)
  /-- `tui_refresh`. -/
  | refresh

/-- The interface after some bytes have been sent to the terminal. -/
def Session.send (s : Session) (sent : List UInt8×Tui) : Session :=
  ⟨sent.2,s.screen.feedAll sent.1⟩

/-- The session after an event. -/
def act (s : Session) : Event → Session
  | .window op => { s with tui := step s.tui op }
  | .refresh => s.send (tuiRefresh s.tui)

/-- The session after events. -/
def perform (s : Session) (events : List Event) : Session := events.foldl act s

/-- The session after `tui_init`. -/
def start (screen : Screen) : Session := ⟨tuiInit,screen.feedAll initBytes⟩

/-- What is seen of a character. -/
def visible (ch : UInt8) : UInt8 := if ch<0x20 ∨ ch=0x7F then ascii ' ' else ch

/-- The terminal shows cells. -/
def Shows (screen : Screen) (cells : ℕ → Cell) : Prop :=
  ∀ r<screenH, ∀ k<screenW, (screen.cells r k).ch=visible (cells (r*screenW+k)).ch ∧
    (screen.cells r k).bg=cellBg (cells (r*screenW+k))

/-- The terminal shows the composite. -/
def ShowsComposite (s : Session) : Prop := Shows s.screen s.tui.composite

/-- A character that the terminal prints, or a control character that is sent as a blank. -/
def Plain (c : Cell) : Prop := c.ch<0x7F ∧ c.ch≠ascii '\t'

instance (c : Cell) : Decidable (Plain c) := inferInstanceAs (Decidable (_ ∧ _))

/-- The colour that the terminal has after a row. -/
def penAfter (pen : ℕ) (cr : ℕ → Cell) : ℕ :=
  match lastInk cr screenW with
  | none => pen
  | some last => cellBg (cr last)

/-- The row has plain characters, and behind the last one that is not a blank the colour with
which the terminal erases. -/
def RowSendable (pen : ℕ) (cr : ℕ → Cell) : Prop :=
  (∀ c<screenW, Plain (cr c)) ∧
    ∀ c<screenW, (∀ last∈lastInk cr screenW, last<c) → cellBg (cr c)=penAfter pen cr

instance (pen : ℕ) (cr : ℕ → Cell) : Decidable (RowSendable pen cr) :=
  inferInstanceAs (Decidable (_ ∧ _))

/-- The rows that differ from the shadow are sendable. -/
def RowsSendable (composite phys : ℕ → Cell) : List ℕ → ℕ → Prop
  | [], _ => True
  | row::rows, pen =>
    (Changed composite phys row → RowSendable pen (rowOf composite row)) ∧
      RowsSendable composite phys rows
        (if Changed composite phys row then penAfter pen (rowOf composite row) else pen)

/-- What a refresh would paint is sendable, from the colour that the terminal has. -/
def Sendable (s : Session) : Event → Prop
  | .window _ => True
  | .refresh => RowsSendable (painted s.tui.windows) s.tui.phys (List.range screenH) s.screen.bg

/-- All refreshes are sendable. -/
def AllSendable (s : Session) : List Event → Prop
  | [] => True
  | event::events => Sendable s event ∧ AllSendable (act s event) events

/-- Rows are decided one by one. -/
def decideRowsSendable (composite phys : ℕ → Cell) :
    (rows : List ℕ) → (pen : ℕ) → Decidable (RowsSendable composite phys rows pen)
  | [], _ => isTrue trivial
  | row::rows, pen =>
    have : Decidable (RowsSendable composite phys rows
        (if Changed composite phys row then penAfter pen (rowOf composite row) else pen)) :=
      decideRowsSendable composite phys rows _
    inferInstanceAs (Decidable (_ ∧ _))

instance (s : Session) : (event : Event) → Decidable (Sendable s event)
  | .window _ => isTrue trivial
  | .refresh => decideRowsSendable _ _ _ _

/-- Events are decided one by one. -/
def decideAllSendable (s : Session) : (events : List Event) → Decidable (AllSendable s events)
  | [] => isTrue trivial
  | event::events =>
    have : Decidable (AllSendable (act s event) events) := decideAllSendable (act s event) events
    inferInstanceAs (Decidable (_ ∧ _))

instance (s : Session) (events : List Event) : Decidable (AllSendable s events) :=
  decideAllSendable s events

variable {screen : Screen} {cr : ℕ → Cell} {row r k n : ℕ}

/-- The numeral of a number with few digits. -/
theorem fmtInt_eq {v : ℕ} (hv : v<10^12) : fmtInt v=numeral 10 v := by
  rw [fmtInt,if_neg (by omega),Int.natAbs_natCast,doLoop_eq (by decide) (by decide) hv,
    List.reverse_reverse,numeral,List.nil_append]

/-- The bytes that place the cursor. -/
theorem ansiGoto_eq (hr : row<screenH) :
    ansiGoto row 0=Terminal.twoParams (row+1) 1 (ascii 'H') := by
  have hheight : screenH=25 := rfl
  have hrow : fmtInt ((row : ℤ)+1)=numeral 10 (row+1) := fmtInt_eq (v:=row+1) (by omega)
  have hcol : fmtInt (0+1)=numeral 10 1 := fmtInt_eq (v:=1) (by decide)
  rw [ansiGoto,hrow,hcol]
  rfl

/-- A colour is one of sixteen. -/
theorem cellFg_lt (c : Cell) : cellFg c<16 := by
  rw [cellFg,UInt8.toNat_and]
  exact Nat.lt_succ_of_le Nat.and_le_right

/-- So is the other one. -/
theorem cellBg_lt (c : Cell) : cellBg c<16 := by
  rw [cellBg,UInt8.toNat_and]
  exact Nat.lt_succ_of_le Nat.and_le_right

/-- The bytes that choose two colours. -/
theorem colourBytes_eq {fg bg : ℕ} (hf : fg<16) (hb : bg<16) : colourBytes fg bg=
    Terminal.twoParams (Terminal.fgCode fg) (Terminal.bgCode bg) (ascii 'm') := by
  have hfg : ∀ c<16, ansiFg c=Terminal.fgCode c ∧ Terminal.fgCode c<10^12 := by decide
  have hbg : ∀ c<16, ansiBg c=Terminal.bgCode c ∧ Terminal.bgCode c<10^12 := by decide
  rw [colourBytes,(hfg fg hf).1,(hbg bg hb).1,fmtInt_eq (hfg fg hf).2,fmtInt_eq (hbg bg hb).2]
  rfl

/-- A plain character is sent as it is seen, and the terminal prints it. -/
theorem sentByte_plain {c : Cell} (hplain : Plain c) :
    sentByte c.ch=visible c.ch ∧ 0x20 ≤ sentByte c.ch ∧ sentByte c.ch≠0x7F := by
  have hall : ∀ v<0x7F, UInt8.ofNat v≠ascii '\t' →
      sentByte (UInt8.ofNat v)=visible (UInt8.ofNat v) ∧ 0x20 ≤ sentByte (UInt8.ofNat v) ∧
        sentByte (UInt8.ofNat v)≠0x7F := by decide
  have hch : UInt8.ofNat c.ch.toNat=c.ch := UInt8.ofNat_toNat
  have hbyte := hall c.ch.toNat (UInt8.lt_iff_toNat_lt.mp hplain.1)
  rw [hch] at hbyte
  exact hbyte hplain.2

/-- What a cell looks like on the terminal. -/
def glyph (c : Cell) : Glyph := ⟨visible c.ch,cellFg c,cellBg c⟩

/-- The terminal after the first cells of the row in which the cursor is. -/
def afterCells (cr : ℕ → Cell) (n : ℕ) (screen : Screen) : Screen :=
  { screen with
    cells := fun r k => if r=screen.row ∧ k<n then glyph (cr k) else screen.cells r k
    col := n
    fg := if n=0 then screen.fg else cellFg (cr (n-1))
    bg := if n=0 then screen.bg else cellBg (cr (n-1)) }

/-- The colours that were chosen last are those of the last cell. -/
theorem sendCells_colours (cr : ℕ → Cell) (n : ℕ) :
    (sendCells cr n).2=if n=0 then none else some (cellFg (cr (n-1)),cellBg (cr (n-1))) := by
  cases n with
  | zero => rfl
  | succ n =>
    rw [sendCells,List.range_succ,List.foldl_concat]
    rfl

/-- One more cell in the colours of its attribute. -/
theorem feed_cell (hparser : screen.parser=.ground) (hn : n<screenW) (hplain : Plain (cr n)) :
    ((afterCells cr n screen).coloured (cellFg (cr n)) (cellBg (cr n))).feed
      (sentByte (cr n).ch)=afterCells cr (n+1) screen := by
  have hsent := sentByte_plain hplain
  have hcells : (fun r k => if r=screen.row ∧ k=n then glyph (cr n)
      else if r=screen.row ∧ k<n then glyph (cr k) else screen.cells r k)=
      fun r k => if r=screen.row ∧ k<n+1 then glyph (cr k) else screen.cells r k := by
    funext r k
    by_cases hhere : r=screen.row ∧ k=n
    · rw [if_pos hhere,if_pos ⟨hhere.1,by omega⟩,hhere.2]
    · have hsame : (r=screen.row ∧ k<n+1) ↔ r=screen.row ∧ k<n := by omega
      rw [if_neg hhere]
      simp only [hsame]
  refine (Terminal.feed_print (t:=(afterCells cr n screen).coloured (cellFg (cr n))
    (cellBg (cr n))) hparser hn hsent.2.1 hsent.2.2).trans ?_
  rw [hsent.1]
  exact congrArg (fun cells => ({ screen with
    cells := cells, col := n+1, fg := cellFg (cr n), bg := cellBg (cr n) } : Screen)) hcells

/-- The cells that are sent are those that the terminal shows. -/
theorem feedAll_sendCells (hparser : screen.parser=.ground) (hcol : screen.col=0)
    (hn : n ≤ screenW) (hplain : ∀ c<n, Plain (cr c)) :
    screen.feedAll (sendCells cr n).1=afterCells cr n screen := by
  induction n with
  | zero =>
    rw [afterCells]
    cases screen
    cases hcol
    simp [sendCells,Terminal.feedAll]
  | succ n ih =>
    have hsplit : (sendCells cr (n+1)).1=(sendCells cr n).1++
        (if (sendCells cr n).2=some (cellFg (cr n),cellBg (cr n)) then []
          else colourBytes (cellFg (cr n)) (cellBg (cr n)))++[sentByte (cr n).ch] := by
      rw [sendCells,List.range_succ,List.foldl_concat]
      rfl
    have hcolours : (afterCells cr n screen).feedAll
        (if (sendCells cr n).2=some (cellFg (cr n),cellBg (cr n)) then []
          else colourBytes (cellFg (cr n)) (cellBg (cr n)))=
        (afterCells cr n screen).coloured (cellFg (cr n)) (cellBg (cr n)) := by
      split
      next hsame =>
        rw [sendCells_colours] at hsame
        by_cases hzero : n=0
        · rw [if_pos hzero] at hsame
          cases hsame
        · rw [if_neg hzero,Option.some.injEq,Prod.mk.injEq] at hsame
          rw [←hsame.1,←hsame.2,afterCells,if_neg hzero,if_neg hzero]
          rfl
      next =>
        rw [colourBytes_eq (cellFg_lt _) (cellBg_lt _)]
        exact Terminal.feedAll_colours (t:=afterCells cr n screen) hparser (cellFg_lt _)
          (cellBg_lt _)
    rw [hsplit,Terminal.feedAll_append,Terminal.feedAll_append,
      ih (by omega) fun c hc => hplain c (by omega),hcolours]
    exact feed_cell hparser hn (hplain n n.lt_succ_self)

/-- A row without a last character is blank. -/
theorem lastInk_none (hlast : lastInk cr n=none) : ∀ c<n, (cr c).ch=ascii ' ' := by
  induction n with
  | zero => exact fun c hc => absurd hc c.not_lt_zero
  | succ n ih =>
    rw [lastInk] at hlast
    by_cases hblank : (cr n).ch=ascii ' '
    · rw [if_neg (not_not.mpr hblank)] at hlast
      intro c hc
      by_cases hc' : c=n
      · exact hc' ▸ hblank
      · exact ih hlast c (by omega)
    · rw [if_pos hblank] at hlast
      cases hlast

/-- Behind its last character a row is blank. -/
theorem lastInk_some {last : ℕ} (hlast : lastInk cr n=some last) :
    last<n ∧ ∀ c<n, last<c → (cr c).ch=ascii ' ' := by
  induction n with
  | zero => cases hlast
  | succ n ih =>
    rw [lastInk] at hlast
    by_cases hblank : (cr n).ch=ascii ' '
    · rw [if_neg (not_not.mpr hblank)] at hlast
      have hrest := ih hlast
      refine ⟨by omega,fun c hc hlt => ?_⟩
      by_cases hc' : c=n
      · exact hc' ▸ hblank
      · exact hrest.2 c (by omega) hlt
    · rw [if_pos hblank,Option.some.injEq] at hlast
      exact ⟨by omega,fun c hc hlt => by omega⟩

/-- A row of the terminal shows cells, and the other rows are as before. -/
structure RowShown (row : ℕ) (cr : ℕ → Cell) (screen s : Screen) : Prop where
  /-- No control sequence has begun. -/
  parser : s.parser=.ground
  /-- The colour that the terminal erases with. -/
  pen : s.bg=penAfter screen.bg cr
  /-- The other rows. -/
  frame : ∀ r k, r≠row → s.cells r k=screen.cells r k
  /-- The row. -/
  shown : ∀ k<screenW, (s.cells row k).ch=visible (cr k).ch ∧ (s.cells row k).bg=cellBg (cr k)

/-- The terminal with the cursor at the beginning of a row. -/
def atRow (row : ℕ) (screen : Screen) : Screen := { screen with row := row, col := 0 }

/-- The cursor is placed at the beginning of a row. -/
theorem feedAll_ansiGoto (hparser : screen.parser=.ground) (hr : row<screenH) :
    screen.feedAll (ansiGoto row 0)=atRow row screen := by
  have hheight : screenH=25 := rfl
  have hmin : min (row+1-1) (screenH-1)=row := by omega
  rw [ansiGoto_eq hr,Terminal.feedAll_place hparser,Terminal.place,hmin]
  rfl

/-- A blank is seen as such. -/
theorem visible_blank : visible (ascii ' ')=ascii ' ' := by decide

/-- A blank row is erased. -/
theorem blankRow_shown (hparser : screen.parser=.ground) (hlast : lastInk cr screenW=none)
    (hrow : RowSendable screen.bg cr) :
    RowShown row cr screen ((atRow row screen).feedAll eraseRest) := by
  have hpen : penAfter screen.bg cr=screen.bg := by rw [penAfter,hlast]
  have herase : (atRow row screen).feedAll eraseRest=(atRow row screen).eraseLine :=
    Terminal.feedAll_eraseLine hparser
  rw [herase]
  refine ⟨hparser,hpen.symm,fun r k hne => if_neg fun h => hne h.1,fun k hk => ?_⟩
  have hbg := hrow.2 k hk fun last h => by rw [hlast] at h; cases h
  have hcell : (atRow row screen).eraseLine.cells row k=⟨ascii ' ',screen.fg,screen.bg⟩ :=
    if_pos ⟨rfl,by simp [atRow]⟩
  rw [lastInk_none hlast k hk,visible_blank,hbg,hpen,hcell]
  exact ⟨rfl,rfl⟩

/-- The other rows are sent, and the blanks behind them erased. -/
theorem inkRow_shown {last : ℕ} (hparser : screen.parser=.ground)
    (hlast : lastInk cr screenW=some last) (hrow : RowSendable screen.bg cr) :
    RowShown row cr screen ((atRow row screen).feedAll
      ((sendCells cr (last+1)).1++if last<screenW-1 then eraseRest else [])) := by
  have hwidth : screenW=80 := rfl
  have hink := lastInk_some hlast
  have hpen : penAfter screen.bg cr=cellBg (cr last) := by rw [penAfter,hlast]
  have hrest : ∀ k<screenW, last<k → (cr k).ch=ascii ' ' ∧ cellBg (cr k)=cellBg (cr last) := by
    intro k hk hlt
    refine ⟨hink.2 k hk hlt,hpen ▸ hrow.2 k hk fun last' h => ?_⟩
    rw [hlast,Option.mem_some_iff] at h
    exact h ▸ hlt
  have hsent : (atRow row screen).feedAll (sendCells cr (last+1)).1=
      afterCells cr (last+1) (atRow row screen) :=
    feedAll_sendCells hparser rfl hink.1 fun c hc => hrow.1 c (Nat.lt_of_lt_of_le hc hink.1)
  have hcell : ∀ k≤last, (afterCells cr (last+1) (atRow row screen)).cells row k=
      glyph (cr k) := fun k hk => if_pos ⟨rfl,Nat.lt_succ_of_le hk⟩
  rw [Terminal.feedAll_append,hsent]
  by_cases hfull : last<screenW-1
  · have herase : (afterCells cr (last+1) (atRow row screen)).feedAll eraseRest=
        (afterCells cr (last+1) (atRow row screen)).eraseLine :=
      Terminal.feedAll_eraseLine hparser
    have hmin : min (last+1) (screenW-1)=last+1 := by omega
    rw [if_pos hfull,herase]
    refine ⟨hparser,hpen.symm,fun r k hne => ?_,fun k hk => ?_⟩
    · exact (if_neg fun h => hne h.1).trans (if_neg fun h => hne h.1)
    · by_cases hbehind : last<k
      · have hblank : (afterCells cr (last+1) (atRow row screen)).eraseLine.cells row k=
            ⟨ascii ' ',cellFg (cr last),cellBg (cr last)⟩ := if_pos ⟨rfl,hmin.le.trans hbehind⟩
        rw [hblank,(hrest k hk hbehind).1,(hrest k hk hbehind).2,visible_blank]
        exact ⟨rfl,rfl⟩
      · have hkeep : (afterCells cr (last+1) (atRow row screen)).eraseLine.cells row k=
            glyph (cr k) := by
          refine (if_neg fun h => ?_).trans (hcell k (by omega))
          have hle : min (last+1) (screenW-1)≤k := h.2
          omega
        rw [hkeep]
        exact ⟨rfl,rfl⟩
  · rw [if_neg hfull]
    refine ⟨hparser,hpen.symm,fun r k hne => if_neg fun h => hne h.1,fun k hk => ?_⟩
    change ((afterCells cr (last+1) (atRow row screen)).cells row k).ch=_ ∧
      ((afterCells cr (last+1) (atRow row screen)).cells row k).bg=_
    rw [hcell k (by omega)]
    exact ⟨rfl,rfl⟩

/-- The bytes of a sendable row show it. -/
theorem refreshRow_shown (hparser : screen.parser=.ground) (hr : row<screenH)
    (hrow : RowSendable screen.bg cr) :
    RowShown row cr screen (screen.feedAll (refreshRow row cr)) := by
  rw [refreshRow,Terminal.feedAll_append,feedAll_ansiGoto hparser hr]
  split
  next hlast => exact blankRow_shown hparser hlast hrow
  next last hlast => exact inkRow_shown hparser hlast hrow

variable {cells phys : ℕ → Cell} {rows : List ℕ} {pen : ℕ} {s : Session} {event : Event}
  {events : List Event}

/-- The row that is copied into the shadow, and another one. -/
theorem rowOf_copyRow (cells phys : ℕ → Cell) (row r : ℕ) {k : ℕ} (hk : k<screenW) :
    rowOf (copyRow cells phys row) r k=if r=row then rowOf cells r k else rowOf phys r k := by
  have hwidth : screenW=80 := rfl
  rw [rowOf,rowOf,rowOf,copyRow]
  by_cases hr : r=row
  · have hin : row*screenW ≤ r*screenW+k ∧ r*screenW+k<row*screenW+screenW := by
      rw [hr]
      omega
    rw [if_pos hr,if_pos hin]
  · have hout : ¬(row*screenW ≤ r*screenW+k ∧ r*screenW+k<row*screenW+screenW) := by
      rw [hwidth]
      omega
    rw [if_neg hr,if_neg hout]

/-- Copying a row does not change whether another one differs. -/
theorem changed_copyRow (cells phys : ℕ → Cell) (hr : r≠row) :
    Changed cells (copyRow cells phys row) r ↔ Changed cells phys r := by
  apply exists_congr
  intro c
  apply and_congr_right
  intro hc
  rw [rowOf_copyRow cells phys row r hc,if_neg hr]

/-- Copying a row does not matter to others. -/
theorem rowsSendable_copyRow (hrow : row∉rows) :
    RowsSendable cells (copyRow cells phys row) rows pen ↔ RowsSendable cells phys rows pen := by
  induction rows generalizing pen with
  | nil => exact Iff.rfl
  | cons r rows ih =>
    rw [List.mem_cons,not_or] at hrow
    have hsame := changed_copyRow cells phys (Ne.symm hrow.1)
    rw [RowsSendable,RowsSendable]
    simp only [hsame,ih hrow.2]

/-- A terminal that shows the shadow shows the row as well after it has been sent. -/
theorem RowShown.shows {screen' : Screen} (h : RowShown row (rowOf cells row) screen screen')
    (hshows : Shows screen phys) : Shows screen' (copyRow cells phys row) := by
  intro r hr k hk
  change (screen'.cells r k).ch=visible (rowOf (copyRow cells phys row) r k).ch ∧
    (screen'.cells r k).bg=cellBg (rowOf (copyRow cells phys row) r k)
  rw [rowOf_copyRow cells phys row r hk]
  by_cases hrow : r=row
  · rw [if_pos hrow,hrow]
    exact h.shown k hk
  · rw [if_neg hrow,h.frame r k hrow]
    exact hshows r hr k hk

/-- The rows that are sent, and the others, are those of the shadow afterwards. -/
theorem refreshRows_shows (hparser : screen.parser=.ground) (hshows : Shows screen phys)
    (hrows : ∀ row∈rows, row<screenH) (hnodup : rows.Nodup)
    (hsend : RowsSendable cells phys rows screen.bg) :
    (screen.feedAll (refreshRows cells rows phys).1).parser=.ground ∧
      Shows (screen.feedAll (refreshRows cells rows phys).1) (refreshRows cells rows phys).2 ∧
        ∀ r, ∀ k<screenW, rowOf (refreshRows cells rows phys).2 r k=
          if r∈rows then rowOf cells r k else rowOf phys r k := by
  induction rows generalizing screen phys with
  | nil => exact ⟨hparser,hshows,fun r k _ => (if_neg List.not_mem_nil).symm⟩
  | cons row rows ih =>
    rw [List.nodup_cons] at hnodup
    have hrest : ∀ r∈rows, r<screenH := fun r hr => hrows r (List.mem_cons_of_mem row hr)
    rw [RowsSendable] at hsend
    rw [refreshRows]
    by_cases hchanged : Changed cells phys row
    · rw [if_pos hchanged] at hsend ⊢
      have hrow := refreshRow_shown hparser (hrows row List.mem_cons_self) (hsend.1 hchanged)
      have hnext := ih hrow.parser (hrow.shows hshows) hrest hnodup.2
        (hrow.pen ▸ (rowsSendable_copyRow hnodup.1).mpr hsend.2)
      simp only [Terminal.feedAll_append]
      refine ⟨hnext.1,hnext.2.1,fun r k hk => ?_⟩
      rw [hnext.2.2 r k hk,rowOf_copyRow cells phys row r hk]
      by_cases hr : r=row
      · subst hr
        simp
      · simp [hr]
    · rw [if_neg hchanged] at hsend ⊢
      have hnext := ih hparser hshows hrest hnodup.2 hsend.2
      refine ⟨hnext.1,hnext.2.1,fun r k hk => ?_⟩
      rw [hnext.2.2 r k hk]
      by_cases hr : r=row
      · have hsame : rowOf cells r k=rowOf phys r k := by
          by_contra hne
          exact hchanged ⟨k,hk,hr ▸ hne⟩
        subst hr
        simp [hsame]
      · simp [hr]

/-- No control sequence has begun, and the terminal shows the shadow. -/
structure Inv (s : Session) : Prop where
  /-- Between sequences. -/
  parser : s.screen.parser=.ground
  /-- The shadow is right. -/
  shadow : Shows s.screen s.tui.phys

/-- When sendable rows have been sent, the terminal shows the shadow, and the composite in
these rows. -/
theorem refreshOver_shows (h : Inv s) (rows : List ℕ)
    (hrows : ∀ row∈rows, row<screenH) (hnodup : rows.Nodup)
    (hsend : RowsSendable (painted s.tui.windows) s.tui.phys rows s.screen.bg) :
    Inv (s.send (refreshOver rows s.tui)) ∧ ∀ row∈rows, ∀ k<screenW,
      rowOf (s.send (refreshOver rows s.tui)).tui.phys row k=
        rowOf (s.send (refreshOver rows s.tui)).tui.composite row k := by
  have hall := refreshRows_shows h.parser h.shadow hrows hnodup hsend
  exact ⟨⟨hall.1,hall.2.1⟩,fun row hrow k hk => (hall.2.2 row k hk).trans (if_pos hrow)⟩

/-- A sendable refresh makes the terminal show the composite. -/
theorem refresh_shows (h : Inv s) (hsend : Sendable s .refresh) :
    Inv (act s .refresh) ∧ ShowsComposite (act s .refresh) := by
  have hall := refreshOver_shows h (List.range screenH)
    (fun row hrow => List.mem_range.mp hrow) List.nodup_range hsend
  rw [act,tuiRefresh]
  generalize s.send (refreshOver (List.range screenH) s.tui)=s' at hall
  refine ⟨hall.1,fun r hr k hk => ?_⟩
  have hshown := hall.1.shadow r hr k hk
  have hcell := hall.2 r (List.mem_range.mpr hr) k hk
  rw [rowOf,rowOf] at hcell
  rw [hcell] at hshown
  exact hshown

/-- An operation on a window leaves the shadow. -/
theorem step_phys (t : Tui) (op : Op) : (step t op).phys=t.phys := by
  cases op with
  | new p memory x y w h flags =>
    rw [step,tuiWinNew]
    split <;> rfl
  | close p => rfl
  | draw p op => rfl

/-- The shadow stays right. -/
theorem Inv.act (h : Inv s) (hsend : Sendable s event) : Inv (TuiRefresh.act s event) := by
  cases event with
  | window op => exact ⟨h.parser,(step_phys s.tui op).symm ▸ h.shadow⟩
  | refresh => exact (refresh_shows h hsend).1

/-- It does so in a run. -/
theorem Inv.stays (h : Inv s) (hsend : AllSendable s events) : Inv (perform s events) := by
  induction events generalizing s with
  | nil => exact h
  | cons event events ih =>
    rw [AllSendable] at hsend
    exact ih (h.act hsend.1) hsend.2

/-- A run is sendable when its parts are. -/
theorem allSendable_append (s : Session) (xs ys : List Event) :
    AllSendable s (xs++ys) ↔ AllSendable s xs ∧ AllSendable (perform s xs) ys := by
  induction xs generalizing s with
  | nil => exact (true_and _).symm ▸ Iff.rfl
  | cons event xs ih =>
    rw [List.cons_append,AllSendable,AllSendable,ih,and_assoc]
    exact Iff.rfl

/-- The terminal after `tui_init`. -/
theorem inv_start (hparser : screen.parser=.ground) (hblack : screen.bg=0) :
    Inv (start screen) := by
  have hinit : screen.feedAll initBytes=screen.eraseScreen := by
    cases screen
    cases hparser
    rfl
  refine ⟨?_,fun r hr k hk => ?_⟩
  · change (screen.feedAll initBytes).parser=_
    rw [hinit]
    exact hparser
  · change ((screen.feedAll initBytes).cells r k).ch=_ ∧ ((screen.feedAll initBytes).cells r k).bg=_
    have hcell : rowOf tuiInit.phys r k=if r*screenW+k=0 then { blankCell with ch := 0 }
        else blankCell := by
      change setCh 0 (fun _ => blankCell) 0 (r*screenW+k)=_
      rw [setCh,Function.update_apply]
    change _=visible (rowOf tuiInit.phys r k).ch ∧ _=cellBg (rowOf tuiInit.phys r k)
    rw [hinit,hcell]
    have hfirst : visible 0=ascii ' ' ∧ visible blankCell.ch=ascii ' ' ∧
        cellBg { blankCell with ch := 0 }=0 ∧ cellBg blankCell=0 := by decide
    split
    next => exact ⟨hfirst.1.symm,hblack.trans hfirst.2.2.1.symm⟩
    next => exact ⟨hfirst.2.1.symm,hblack.trans hfirst.2.2.2.symm⟩

/-- After every refresh the terminal shows the character and the colour behind it of every
cell of the composite, in every run whose refreshes are sendable. -/
theorem refresh_equals_redraw (screen : Screen) (hparser : screen.parser=.ground)
    (hblack : screen.bg=0) (events : List Event)
    (hsend : AllSendable (start screen) (events++[.refresh])) :
    ShowsComposite (perform (start screen) (events++[.refresh])) := by
  rw [allSendable_append,AllSendable] at hsend
  have hinv := (inv_start hparser hblack).stays hsend.1
  rw [perform,List.foldl_concat]
  exact (refresh_shows hinv hsend.2.1).2

/-- A terminal that has just been switched on. -/
def freshScreen : Screen := ⟨fun _ _ => ⟨ascii ' ',7,0⟩,0,0,7,0,.ground⟩

/-- A window with two letters of different colours, the second sent by a second refresh. -/
def lettered : List Event :=
  [.window (.new 1 true 3 2 2 1 0),.window (.draw 1 (.addch (ascii 'A'))),.refresh,
    .window (.draw 1 (.color 12 0)),.window (.draw 1 (.addch (ascii 'B')))]

/-- The letters are shown. -/
theorem lettered_shown :
    ShowsComposite (perform (start freshScreen) (lettered++[.refresh])) :=
  refresh_equals_redraw freshScreen rfl rfl lettered (by decide +kernel)

/-- A blue window without letters. -/
def blueWindow : List Event :=
  [.window (.new 1 true 0 0 1 1 0),.window (.draw 1 (.color 15 4)),.window (.draw 1 .clear),
    .refresh]

/-- A blue window without letters stays black, also when the screen is refreshed again. -/
theorem blueWindow_black :
    ¬ShowsComposite (perform (start freshScreen) blueWindow) ∧
      ¬ShowsComposite (perform (start freshScreen) (blueWindow++[.refresh])) := by
  have hnot : ∀ s : Session, (s.screen.cells 0 0).bg≠cellBg (s.tui.composite 0) →
      ¬ShowsComposite s := fun s hne hshows => hne (hshows 0 (by decide) 0 (by decide)).2
  exact ⟨hnot _ (by decide +kernel),hnot _ (by decide +kernel)⟩

end OvsbMk.TuiRefresh
