import Mathlib.Tactic

/-!
# The kernel console

The console keeps a store of rows of characters and a cursor that may rest behind the
last column. A terminal without a store is a list of lines; the console shows the last
lines of it, however the characters come in.
-/

namespace OvsbMk.Console

/-- Columns of the console. -/
abbrev consoleCols : ℕ := 80

/-- Rows that are shown. -/
abbrev consoleRows : ℕ := 45

/-- Rows of the store. -/
abbrev scrollbackRows : ℕ := 200

/-- The character of an empty cell. -/
abbrev blank : UInt8 := 0x20

/-- Contents of the store, row after row. -/
abbrev Cells := ℕ → UInt8

/-- Place of a cell in the store. The column behind the last is the first of the next
row. -/
def cell (row col : ℕ) : ℕ := consoleCols*row+col

/-- The state of the console. -/
structure State where
  /-- The rows. -/
  scrollback : Cells
  /-- Row of the cursor. -/
  cursorRow : ℕ
  /-- Column of the cursor. -/
  cursorCol : ℕ
  /-- First row that is shown. -/
  scrollStart : ℕ

/-- Blank cells of a row, from its first column on. -/
def blankRow (cells : Cells) (row : ℕ) : ℕ → Cells
  | 0 => cells
  | col+1 => Function.update (blankRow cells row col) (cell row col) blank

/-- Blank rows of the store. -/
def blankRows (cells : Cells) : ℕ → Cells
  | 0 => cells
  | row+1 => blankRow (blankRows cells row) row consoleCols

/-- Copy cells of the next row into a row. -/
def copyRow (cells : Cells) (row : ℕ) : ℕ → Cells
  | 0 => cells
  | col+1 =>
    let done := copyRow cells row col
    Function.update done (cell row col) (done (cell (row+1) col))

/-- Move rows of the store up. -/
def copyRows (cells : Cells) : ℕ → Cells
  | 0 => cells
  | row+1 => copyRow (copyRows cells row) row consoleCols

/-- Start with an empty screen. -/
def consoleInit (s : State) : State where
  scrollback := blankRows s.scrollback scrollbackRows
  cursorRow := 0
  cursorCol := 0
  scrollStart := 0

/-- Go to the next row, which moves the rows up at the last. -/
def newline (s : State) : State :=
  if consoleRows ≤ s.cursorRow+1 then
    { scrollback := blankRow (copyRows s.scrollback (scrollbackRows-1)) (scrollbackRows-1) consoleCols
      cursorRow := consoleRows-1
      cursorCol := 0
      scrollStart := 0 }
  else { s with cursorCol := 0, cursorRow := s.cursorRow+1 }

/-- Row of the store that is shown in a row. -/
def absRow (s : State) (row : ℕ) : ℕ := s.scrollStart+row

/-- Write the cell of the store at the cursor. -/
def putCell (s : State) (c : UInt8) : State :=
  { s with scrollback := Function.update s.scrollback (cell (absRow s s.cursorRow) s.cursorCol) c }

/-- Value of a character, which has a sign. -/
def charValue (c : UInt8) : ℤ := if c<0x80 then c.toNat else c.toNat-256

/-- One character. -/
def consolePutchar (s : State) (c : UInt8) : State :=
  if c=0x0A then newline (putCell s blank)
  else if c=0x08 then
    if 0<s.cursorCol then putCell { s with cursorCol := s.cursorCol-1 } blank else s
  else if charValue blank≤charValue c then
    let s := if consoleCols ≤ s.cursorCol then newline s else s
    let s := putCell s c
    { s with cursorCol := s.cursorCol+1 }
  else s

/-- The characters of a string, up to its end mark. -/
def consoleWrite (s : State) : List UInt8 → State
  | [] => s
  | c::rest => if c=0 then s else consoleWrite (consolePutchar s c) rest

/-- A line of the terminal. -/
structure Line where
  /-- Its characters. -/
  chars : List UInt8
  /-- A line is not longer than a row. -/
  short : chars.length≤consoleCols

/-- The line without characters. -/
def Line.empty : Line := ⟨[],by simp⟩

/-- The line of one character. -/
def Line.single (c : UInt8) : Line := ⟨[c],by simp⟩

/-- A line without its last character. -/
def Line.dropLast (line : Line) : Line :=
  ⟨line.chars.dropLast,by have h := line.short; simp only [List.length_dropLast]; omega⟩

/-- A terminal: the lines above the last, and the last. -/
structure Terminal where
  /-- The lines that are done. -/
  above : List Line
  /-- The line that is written. -/
  last : Line

/-- All lines of a terminal. -/
def Terminal.lines (t : Terminal) : List Line := t.above++[t.last]

/-- A terminal without characters. -/
def Terminal.start : Terminal := ⟨[],Line.empty⟩

/-- Append a character to the last line, or start a line with it. -/
def Terminal.print (t : Terminal) (c : UInt8) : Terminal :=
  if h : t.last.chars.length<consoleCols then
    { t with last := ⟨t.last.chars++[c],by simp only [List.length_append,List.length_singleton]; omega⟩ }
  else ⟨t.above++[t.last],Line.single c⟩

/-- One byte for the terminal. -/
def Terminal.step (t : Terminal) (c : UInt8) : Terminal :=
  if 0x20 ≤ c ∧ c ≤ 0x7F then t.print c
  else if c=0x0A then ⟨t.above++[t.last],Line.empty⟩
  else if c=0x08 then { t with last := t.last.dropLast }
  else t

/-- The lines that fit on the screen. -/
def Terminal.shown (t : Terminal) : List Line := t.lines.drop (t.lines.length-consoleRows)

/-- What a list of lines has at a row and a column; blank where it has nothing. -/
def charAt (lines : List Line) (row col : ℕ) : UInt8 :=
  ((lines.map Line.chars).getD row []).getD col blank

/-- The console shows a terminal. -/
structure Shows (s : State) (t : Terminal) : Prop where
  /-- The rows are the last lines with blanks behind them, then blank. -/
  cells : ∀ row col, row<scrollbackRows → col<consoleCols →
    s.scrollback (cell row col)=charAt t.shown row col
  /-- The cursor is in the row of the last line. -/
  row : s.cursorRow+1=t.shown.length
  /-- The cursor is behind the last character. -/
  col : s.cursorCol=t.last.chars.length
  /-- The first row is shown first. -/
  start : s.scrollStart=0

/-- Blanking a row writes its cells only. -/
theorem blankRow_apply (cells : Cells) (row count i : ℕ) : blankRow cells row count i=
    if cell row 0 ≤ i ∧ i<cell row count then blank else cells i := by
  induction count with
  | zero => rw [if_neg (by omega)]; rfl
  | succ count ih =>
    rw [blankRow,Function.update_apply,ih]
    split_ifs <;> simp only [cell] at * <;> first | rfl | omega

/-- Blanking rows from the first on. -/
theorem blankRows_apply (cells : Cells) (count i : ℕ) : blankRows cells count i=
    if i<cell count 0 then blank else cells i := by
  induction count with
  | zero => rw [if_neg (by simp only [cell]; omega)]; rfl
  | succ count ih =>
    rw [blankRows,blankRow_apply,ih]
    split_ifs <;> simp only [cell,consoleCols] at * <;> first | rfl | omega

/-- Copying into a row takes the cells of the next. -/
theorem copyRow_apply (cells : Cells) (row : ℕ) {count : ℕ} (h : count≤consoleCols) (i : ℕ) :
    copyRow cells row count i=
      if cell row 0 ≤ i ∧ i<cell row count then cells (i+consoleCols) else cells i := by
  induction count generalizing i with
  | zero => rw [if_neg (by omega)]; rfl
  | succ count ih =>
    have hc : count≤consoleCols := by omega
    have hnext : cell (row+1) count=cell row count+consoleCols := by simp only [cell,consoleCols]; omega
    rw [copyRow,Function.update_apply,ih hc,ih hc]
    by_cases he : i=cell row count
    · rw [if_pos he,he,hnext,if_neg (by omega),if_pos (by simp only [cell]; omega)]
    · rw [if_neg he]
      split_ifs <;> simp only [cell] at * <;> first | rfl | omega

/-- Moving the rows up takes the cells of the next rows as they were. -/
theorem copyRows_apply (cells : Cells) (count i : ℕ) : copyRows cells count i=
    if i<cell count 0 then cells (i+consoleCols) else cells i := by
  induction count generalizing i with
  | zero => rw [if_neg (by simp only [cell]; omega)]; rfl
  | succ count ih =>
    rw [copyRows,copyRow_apply _ _ le_rfl,ih,ih]
    split_ifs <;> simp only [cell,consoleCols] at * <;> first | rfl | omega

/-- Two cells of the store are one only at one row and column. -/
theorem cell_inj {row col row' col' : ℕ} (h : col<consoleCols) (h' : col'<consoleCols)
    (he : cell row col=cell row' col') : row=row' ∧ col=col' := by
  simp only [cell,consoleCols] at *
  omega

/-- The characters of a line of the terminal, none where there is no line. -/
def Terminal.lineAt (t : Terminal) (k : ℕ) : List UInt8 := (t.lines.map Line.chars).getD k []

/-- A line above the last. -/
theorem Terminal.lineAt_above (t : Terminal) {k : ℕ} (h : k<t.above.length) :
    t.lineAt k=(t.above.map Line.chars).getD k [] := by
  have hl : k<(t.above.map Line.chars).length := by rwa [List.length_map]
  simp only [Terminal.lineAt,Terminal.lines,List.map_append,List.getD_eq_getElem?_getD,
    List.getElem?_append_left hl]

/-- The last line. -/
theorem Terminal.lineAt_last (t : Terminal) : t.lineAt t.above.length=t.last.chars := by
  simp [Terminal.lineAt,Terminal.lines]

/-- There is no line below the last. -/
theorem Terminal.lineAt_below (t : Terminal) {k : ℕ} (h : t.above.length<k) : t.lineAt k=[] := by
  have hl : (t.lines.map Line.chars).length≤k := by
    simp only [Terminal.lines,List.length_map,List.length_append,List.length_singleton]
    omega
  simp only [Terminal.lineAt,List.getD_eq_getElem?_getD,List.getElem?_eq_none hl,Option.getD_none]

/-- The lines of a terminal that got a line more. -/
theorem Terminal.lineAt_push (t : Terminal) (line : Line) (k : ℕ) :
    Terminal.lineAt ⟨t.above++[t.last],line⟩ k=
      if k=t.above.length+1 then line.chars else t.lineAt k := by
  split_ifs with h
  · have hl := Terminal.lineAt_last ⟨t.above++[t.last],line⟩
    simp only [List.length_append,List.length_singleton] at hl
    rw [h,hl]
  · rcases Nat.lt_or_ge k (t.above.length+1) with hk | hk
    · rw [Terminal.lineAt_above _ (by simpa using hk)]
      rfl
    · rw [Terminal.lineAt_below _ (by simp only [List.length_append,List.length_singleton]; omega),
        t.lineAt_below (by omega)]

/-- The lines of a terminal whose last line is another. -/
theorem Terminal.lineAt_replace (t : Terminal) (line : Line) (k : ℕ) :
    Terminal.lineAt { t with last := line } k=
      if k=t.above.length then line.chars else t.lineAt k := by
  split_ifs with h
  · rw [h]
    exact Terminal.lineAt_last { t with last := line }
  · rcases Nat.lt_or_gt_of_ne h with hk | hk
    · exact (Terminal.lineAt_above { t with last := line } hk).trans (t.lineAt_above hk).symm
    · exact (Terminal.lineAt_below { t with last := line } hk).trans (t.lineAt_below hk).symm

/-- What is shown at a place of the screen. -/
theorem charAt_shown (t : Terminal) (row col : ℕ) :
    charAt t.shown row col=(t.lineAt (t.above.length+1-consoleRows+row)).getD col blank := by
  simp only [charAt,Terminal.shown,Terminal.lineAt,Terminal.lines,List.map_drop,List.length_append,
    List.length_singleton,List.getD_eq_getElem?_getD,List.getElem?_drop]

/-- The number of lines that are shown. -/
theorem shown_length (t : Terminal) : t.shown.length=min (t.above.length+1) consoleRows := by
  simp only [Terminal.shown,Terminal.lines,List.length_drop,List.length_append,List.length_singleton]
  omega

/-- The cursor of a console that shows a terminal. -/
theorem Shows.cursor {s : State} {t : Terminal} (h : Shows s t) :
    s.cursorRow<consoleRows ∧ s.cursorCol≤consoleCols ∧
      t.above.length+1-consoleRows+s.cursorRow=t.above.length := by
  have hrow := h.row
  have hcol := h.col
  have hshort := t.last.short
  rw [shown_length] at hrow
  omega

/-- A cell that the cursor is on is written, and no other. -/
theorem putCell_apply {s : State} {t : Terminal} (h : Shows s t) (hroom : s.cursorCol<consoleCols)
    (c : UInt8) {row col : ℕ} (hcol : col<consoleCols) :
    (putCell s c).scrollback (cell row col)=
      if row=s.cursorRow ∧ col=s.cursorCol then c else s.scrollback (cell row col) := by
  simp only [putCell,absRow,h.start,Function.update_apply,Nat.zero_add]
  by_cases hp : row=s.cursorRow ∧ col=s.cursorCol
  · rw [if_pos hp,if_pos (by rw [hp.1,hp.2])]
  · rw [if_neg hp,if_neg fun he => hp (cell_inj hcol hroom he)]

/-- A blank at the cursor changes nothing: behind the last character there is one already,
also when the cursor is behind the last column. -/
theorem Shows.put_blank {s : State} {t : Terminal} (h : Shows s t) : Shows (putCell s blank) t := by
  obtain ⟨hrow,hcol,habove⟩ := h.cursor
  refine ⟨fun row col hr hc => ?_,h.row,h.col,h.start⟩
  by_cases hroom : s.cursorCol<consoleCols
  · rw [putCell_apply h hroom blank hc]
    by_cases hp : row=s.cursorRow ∧ col=s.cursorCol
    · rw [if_pos hp,charAt_shown,hp.1,hp.2,habove,t.lineAt_last,h.col,
        List.getD_eq_getElem?_getD,List.getElem?_eq_none le_rfl,Option.getD_none]
    · rw [if_neg hp]
      exact h.cells row col hr hc
  · have hcell : cell s.cursorRow s.cursorCol=cell (s.cursorRow+1) 0 := by
      simp only [cell,consoleCols] at *
      omega
    simp only [putCell,absRow,h.start,Nat.zero_add,hcell,Function.update_apply]
    split_ifs with he
    · obtain ⟨hr',-⟩ := cell_inj hc (by decide) he
      rw [charAt_shown,t.lineAt_below (by omega),List.getD_nil]
    · exact h.cells row col hr hc

/-- A new line moves the lines of the screen up when there is no row for it. -/
theorem Shows.newline {s : State} {t : Terminal} (h : Shows s t) :
    Shows (newline s) ⟨t.above++[t.last],Line.empty⟩ := by
  obtain ⟨hrow,hcol,habove⟩ := h.cursor
  have hlines : ∀ row, Terminal.lineAt ⟨t.above++[t.last],Line.empty⟩ row=t.lineAt row := by
    intro row
    rw [t.lineAt_push]
    split_ifs with hr
    · rw [hr,t.lineAt_below (Nat.lt_succ_self _)]
      rfl
    · rfl
  have hcount : (t.above++[t.last]).length=t.above.length+1 := by simp
  have hlen := shown_length ⟨t.above++[t.last],Line.empty⟩
  have hlen' := shown_length t
  have hrow' := h.row
  by_cases hfull : consoleRows ≤ s.cursorRow+1
  · have hfirst : t.above.length+1+1-consoleRows=t.above.length+1-consoleRows+1 := by omega
    refine ⟨fun row col hr hc => ?_,?_,?_,?_⟩
    · simp only [charAt_shown,hcount,hlines,hfirst,Console.newline,if_pos hfull,blankRow_apply,
        copyRows_apply]
      by_cases hlast : row+1<scrollbackRows
      · have hnext : cell row col+consoleCols=cell (row+1) col := by
          simp only [cell,consoleCols]
          omega
        rw [if_neg (by simp only [cell,scrollbackRows,consoleCols] at *; omega),
          if_pos (by simp only [cell,scrollbackRows,consoleCols] at *; omega),hnext,
          h.cells (row+1) col hlast hc,charAt_shown]
        congr 2
        omega
      · rw [if_pos (by simp only [cell,scrollbackRows,consoleCols] at *; omega),
          t.lineAt_below (by simp only [scrollbackRows,consoleRows] at *; omega),List.getD_nil]
    · rw [hlen]
      simp only [Console.newline,if_pos hfull,hcount]
      omega
    · simp [Console.newline,if_pos hfull,Line.empty]
    · simp [Console.newline,if_pos hfull]
  · have hfirst : t.above.length+1+1-consoleRows=t.above.length+1-consoleRows := by omega
    refine ⟨fun row col hr hc => ?_,?_,?_,?_⟩
    · simp only [charAt_shown,hcount,hlines,hfirst,Console.newline,if_neg hfull]
      rw [h.cells row col hr hc,charAt_shown]
    · rw [hlen]
      simp only [Console.newline,if_neg hfull,hcount]
      omega
    · simp [Console.newline,if_neg hfull,Line.empty]
    · simp only [Console.newline,if_neg hfull]
      exact h.start

/-- A terminal whose last line is full prints on a new one. -/
theorem Terminal.print_full {t : Terminal} (h : consoleCols≤t.last.chars.length) (c : UInt8) :
    t.print c=Terminal.print ⟨t.above++[t.last],Line.empty⟩ c := by
  have hroom : (Line.empty).chars.length<consoleCols := by decide
  rw [Terminal.print,Terminal.print,dif_neg (by omega),dif_pos hroom]
  rfl

/-- A character goes to the end of a line that has room. -/
theorem Shows.print {s : State} {t : Terminal} (h : Shows s t) (hroom : s.cursorCol<consoleCols)
    (c : UInt8) :
    Shows { putCell s c with cursorCol := s.cursorCol+1 } (t.print c) := by
  obtain ⟨hrow,-,habove⟩ := h.cursor
  have hcol := h.col
  rw [Terminal.print,dif_pos (by omega)]
  refine ⟨fun row col hr hc => ?_,h.row.trans ?_,?_,h.start⟩
  · refine (putCell_apply h hroom c hc).trans ?_
    rw [charAt_shown,t.lineAt_replace]
    dsimp only
    have hcell := h.cells row col hr hc
    rw [charAt_shown] at hcell
    by_cases hlast : row=s.cursorRow
    · have hline : t.above.length+1-consoleRows+row=t.above.length := by omega
      rw [hline,t.lineAt_last] at hcell
      simp only [if_pos hline]
      by_cases he : col=s.cursorCol
      · rw [if_pos ⟨hlast,he⟩,he,hcol,List.getD_eq_getElem?_getD,List.getElem?_concat_length,
          Option.getD_some]
      · rw [if_neg fun hp => he hp.2,hcell]
        simp only [List.getD_eq_getElem?_getD,List.getElem?_append,List.getElem?_singleton]
        split_ifs with hin hz
        · rfl
        · omega
        · rw [List.getElem?_eq_none (by omega)]
    · rw [if_neg fun hp => hlast hp.1,if_neg (by omega)]
      exact hcell
  · simp only [shown_length]
  · simp [hcol]

/-- The last character of a line is taken back. -/
theorem Shows.backspace {s : State} {t : Terminal} (h : Shows s t) (hsome : 0<s.cursorCol) :
    Shows (putCell { s with cursorCol := s.cursorCol-1 } blank) { t with last := t.last.dropLast } := by
  obtain ⟨hrow,hle,habove⟩ := h.cursor
  have hcol := h.col
  have hroom : s.cursorCol-1<consoleCols := by omega
  refine ⟨fun row col hr hc => ?_,h.row.trans ?_,?_,h.start⟩
  · rw [charAt_shown,t.lineAt_replace]
    have hcell := h.cells row col hr hc
    rw [charAt_shown] at hcell
    simp only [putCell,absRow,h.start,Function.update_apply,Nat.zero_add]
    by_cases hp : cell row col=cell s.cursorRow (s.cursorCol-1)
    · obtain ⟨hr',hc'⟩ := cell_inj hc hroom hp
      rw [if_pos hp,if_pos (by omega),List.getD_eq_getElem?_getD,List.getElem?_eq_none,Option.getD_none]
      simp only [Line.dropLast,List.length_dropLast]
      omega
    · rw [if_neg hp,hcell]
      by_cases hlast : row=s.cursorRow
      · have hne : col≠s.cursorCol-1 := fun he => hp (by rw [hlast,he])
        rw [if_pos (by omega),hlast,habove,t.lineAt_last]
        simp only [Line.dropLast,List.getD_eq_getElem?_getD,List.dropLast_eq_take,List.getElem?_take]
        split_ifs with hin
        · rfl
        · rw [List.getElem?_eq_none (by omega)]
      · rw [if_neg (by omega)]
  · simp only [shown_length]
  · simp only [putCell,Line.dropLast,List.length_dropLast]
    omega

/-- Backspace in a line without characters changes nothing. -/
theorem Shows.backspace_empty {s : State} {t : Terminal} (h : Shows s t) (hnone : s.cursorCol=0) :
    Shows s { t with last := t.last.dropLast } := by
  have hlast : t.last.dropLast=t.last := by
    have hnil : t.last.chars=[] := List.length_eq_zero_iff.mp (by have hcol := h.col; omega)
    simp only [Line.dropLast,hnil,List.dropLast_nil]
    exact Line.mk.injEq _ _ _ _ ▸ hnil.symm
  rw [hlast]
  exact h

/-- The printable characters are those of no sign from the blank on. -/
theorem charValue_printable (c : UInt8) : charValue blank≤charValue c ↔ 0x20 ≤ c ∧ c ≤ 0x7F := by
  have hc := c.toNat_lt
  simp only [charValue,blank,UInt8.le_iff_toNat_le,UInt8.lt_iff_toNat_lt]
  split_ifs with h <;> simp at * <;> omega

/-- The console stays with the terminal at every byte. -/
theorem Shows.step {s : State} {t : Terminal} (h : Shows s t) (c : UInt8) :
    Shows (consolePutchar s c) (t.step c) := by
  have hcol := h.col
  simp only [consolePutchar,Terminal.step,charValue_printable]
  by_cases hline : c=0x0A
  · subst hline
    exact h.put_blank.newline
  · rw [if_neg hline]
    by_cases hback : c=0x08
    · subst hback
      by_cases hsome : 0<s.cursorCol
      · rw [if_pos rfl,if_pos hsome]
        exact h.backspace hsome
      · rw [if_pos rfl,if_neg hsome]
        exact h.backspace_empty (by omega)
    · rw [if_neg hback,if_neg hline,if_neg hback]
      by_cases hprint : 0x20 ≤ c ∧ c ≤ 0x7F
      · rw [if_pos hprint,if_pos hprint]
        by_cases hfull : consoleCols ≤ s.cursorCol
        · rw [if_pos hfull,Terminal.print_full (by omega)]
          have hnew := h.newline
          have hempty : (Line.empty).chars.length<consoleCols := by decide
          exact hnew.print (hnew.col ▸ hempty) c
        · rw [if_neg hfull]
          exact h.print (by omega) c
      · rw [if_neg hprint,if_neg hprint]
        exact h

/-- An empty screen shows a terminal without characters. -/
theorem consoleInit_shows (s : State) : Shows (consoleInit s) Terminal.start := by
  refine ⟨fun row col hr hc => ?_,rfl,rfl,rfl⟩
  have hblank : ∀ k, Terminal.start.lineAt k=[] := by
    intro k
    cases k <;> rfl
  simp only [consoleInit,blankRows_apply,charAt_shown,hblank,List.getD_nil]
  rw [if_pos (by simp only [cell,scrollbackRows,consoleCols] at *; omega)]

/-- After every sequence of bytes the console shows the terminal that got them. -/
theorem consolePutchar_shows (s : State) (bytes : List UInt8) :
    Shows (bytes.foldl consolePutchar (consoleInit s)) (bytes.foldl Terminal.step Terminal.start) := by
  suffices h : ∀ (bytes : List UInt8) {s : State} {t : Terminal}, Shows s t →
      Shows (bytes.foldl consolePutchar s) (bytes.foldl Terminal.step t) from
    h bytes (consoleInit_shows s)
  intro bytes
  induction bytes with
  | nil => exact fun h => h
  | cons c rest ih => exact fun h => ih (h.step c)

/-- A string is written up to its end mark. -/
theorem consoleWrite_eq (s : State) (chars : List UInt8) :
    consoleWrite s chars=(chars.takeWhile (·≠0)).foldl consolePutchar s := by
  induction chars generalizing s with
  | nil => rfl
  | cons c rest ih =>
    by_cases hc : c=0
    · simp [consoleWrite,hc]
    · simp [consoleWrite,hc,ih]

end OvsbMk.Console
