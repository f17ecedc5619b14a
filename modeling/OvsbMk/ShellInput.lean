import OvsbMk.Console
import OvsbMk.Numerals
import OvsbMk.Traces

/-!
# The command line of the shell

`shell_input` edits a command by position while the console edits the screen by column.
The screen is kept apart from the console's store here, since the console draws only the
row of the cursor when a character does not fit in the last row. A description of the
editing alone, with the place of the cursor, says which keys lose the command on the
screen.
-/

namespace OvsbMk.ShellInput

open Console Numerals

/-- Bytes of the command buffer. -/
abbrev maxCmd : ℕ := 256

/-- What `prompt` writes. -/
def prompt : List UInt8 := ['o','v','s','b','>',' '].map ascii

/-- The console and what it has drawn. -/
structure Display where
  /-- The console. -/
  console : State
  /-- The characters on the screen, row after row. -/
  screen : Cells

/-- The loop of `render_row` over the columns. -/
def drawRow (s : State) (screen : Cells) (row : ℕ) : ℕ → Cells
  | 0 => screen
  | col+1 => Function.update (drawRow s screen row col) (cell row col)
      (s.scrollback (cell (absRow s row) col))

/-- `render_row`. -/
def renderRow (s : State) (screen : Cells) (row : ℕ) : Cells :=
  if scrollbackRows ≤ absRow s row then screen else drawRow s screen row consoleCols

/-- `render_all`, up to a row. -/
def renderRows (s : State) (screen : Cells) : ℕ → Cells
  | 0 => screen
  | row+1 => renderRow s (renderRows s screen row) row

/-- `console_putchar` with what it draws. -/
def putchar (d : Display) (c : UInt8) : Display where
  console := consolePutchar d.console c
  screen :=
    let s := consolePutchar d.console c
    if c=0x0A then renderRows s d.screen consoleRows
    else if c=0x08 then
      if 0<d.console.cursorCol then renderRow s d.screen s.cursorRow else d.screen
    else if charValue blank≤charValue c then renderRow s d.screen s.cursorRow
    else d.screen

/-- `console_write` with what it draws. -/
def write (d : Display) : List UInt8 → Display
  | [] => d
  | c::rest => if c=0 then d else write (putchar d c) rest

/-- The shell. -/
structure Shell where
  /-- The console and the screen. -/
  display : Display
  /-- `cmd_buf`. -/
  cmdBuf : ℕ → UInt8
  /-- `cmd_pos`. -/
  cmdPos : ℕ

/-- `shell_input`. What a command does is a parameter. -/
def shellInput (execute : Shell → Shell) (sh : Shell) (c : UInt8) : Shell :=
  if c=0x0A then
    let sh := { sh with cmdBuf := Function.update sh.cmdBuf sh.cmdPos 0
                        display := write sh.display [0x0A] }
    let sh := { execute sh with cmdPos := 0 }
    { sh with display := write sh.display prompt }
  else if c=0x08 then
    if 0<sh.cmdPos then
      { sh with cmdPos := sh.cmdPos-1, display := write sh.display [0x08,0x20,0x08] }
    else sh
  else if sh.cmdPos < maxCmd-1 then
    { cmdBuf := Function.update sh.cmdBuf sh.cmdPos c
      cmdPos := sh.cmdPos+1
      display := putchar sh.display c }
  else sh

/-- The shell behind a prompt: the console has been started with an empty screen, some
bytes have been printed, and then the prompt. -/
def afterPrompt (s : State) (before : List UInt8) (cmdBuf : ℕ → UInt8) : Shell where
  display := write (before.foldl putchar ⟨consoleInit s,fun _ => blank⟩) prompt
  cmdBuf := cmdBuf
  cmdPos := 0

/-- The place of the cursor on the screen. -/
def cursorCell (d : Display) : ℕ := cell d.console.cursorRow d.console.cursorCol

/-- The text on the screen from a place up to the cursor, row after row. -/
def textFrom (place : ℕ) (d : Display) : List UInt8 :=
  (List.range (cursorCell d-place)).map fun i => d.screen (place+i)

/-- `cmd_buf[0..cmd_pos)`. -/
def pending (sh : Shell) : List UInt8 := (List.range sh.cmdPos).map sh.cmdBuf

/-- The keys: printable characters and backspaces. -/
def IsKey (c : UInt8) : Prop := c=0x08 ∨ (0x20 ≤ c ∧ c ≤ 0x7E)

/-- After the keys and before each of them, the text behind the prompt is the pending
command. -/
def ScreenFollows (execute : Shell → Shell) (sh : Shell) (keys : List UInt8) : Prop :=
  ∀ pre post, keys=pre++post →
    textFrom (cursorCell sh.display) (pre.foldl (shellInput execute) sh).display=
      pending (pre.foldl (shellInput execute) sh)

/-! ### The editing by itself -/

/-- A command that is edited, and the row and the column of the cursor. -/
structure Edit where
  /-- The command. -/
  command : List UInt8
  /-- Row of the cursor. -/
  row : ℕ
  /-- Column of the cursor. -/
  col : ℕ

/-- One key. -/
def Edit.key (e : Edit) (c : UInt8) : Edit :=
  if c=0x08 then
    if e.command=[] then e else ⟨e.command.dropLast,e.row,e.col-1⟩
  else if e.command.length < maxCmd-1 then
    if e.col<consoleCols then ⟨e.command++[c],e.row,e.col+1⟩
    else ⟨e.command++[c],min (e.row+1) (consoleRows-1),1⟩
  else e

/-- The key loses the command on the screen: a backspace in the first column that takes
back a character of the row above, or a character that goes into a new row when there is
none. -/
def Edit.Lost (e : Edit) (c : UInt8) : Prop :=
  if c=0x08 then e.command≠[] ∧ e.col=0
  else e.command.length < maxCmd-1 ∧ e.col=consoleCols ∧ e.row+1=consoleRows

/-- The editing that begins at the cursor. -/
def Edit.start (d : Display) : Edit := ⟨[],d.console.cursorRow,d.console.cursorCol⟩

/-- No key loses the command. -/
def NoneLost (e : Edit) (keys : List UInt8) : Prop :=
  ∀ pre c post, keys=pre++c::post → ¬(pre.foldl Edit.key e).Lost c

variable {execute : Shell → Shell} {d d' : Display} {sh : Shell} {e : Edit} {text : List UInt8}
  {place row col k : ℕ} {c : UInt8}

/-- The cursor is at a row and a column of the screen, and the first row is shown
first. -/
structure At (d : Display) (row col : ℕ) : Prop where
  /-- The row. -/
  cursorRow : d.console.cursorRow=row
  /-- The column. -/
  cursorCol : d.console.cursorCol=col
  /-- The first row is shown first. -/
  start : d.console.scrollStart=0
  /-- The row is on the screen. -/
  onScreen : row<consoleRows
  /-- The cursor is at most behind the last column. -/
  within : col≤consoleCols

/-- Both the store and the screen have a text from a place on. -/
def Reads (d : Display) (place : ℕ) (text : List UInt8) : Prop :=
  ∀ i c, text[i]?=some c → d.console.scrollback (place+i)=c ∧ d.screen (place+i)=c

/-- One cell of the store has been written, and one row has been drawn. -/
def Put (d d' : Display) (row k : ℕ) (c : UInt8) : Prop :=
  d'.console.scrollback=Function.update d.console.scrollback k c ∧
    d'.screen=renderRow d'.console d.screen row

/-- Drawing a row takes the cells of the store. -/
theorem renderRow_apply {s : State} (hstart : s.scrollStart=0) (hrow : row<consoleRows)
    (screen : Cells) (i : ℕ) : renderRow s screen row i=
      if cell row 0 ≤ i ∧ i<cell row consoleCols then s.scrollback i else screen i := by
  have habs : absRow s row=row := by rw [absRow,hstart,Nat.zero_add]
  have hdraw : ∀ count, drawRow s screen row count i=
      if cell row 0 ≤ i ∧ i<cell row count then s.scrollback i else screen i := by
    intro count
    induction count with
    | zero => rw [if_neg (by omega)]; rfl
    | succ count ih =>
      rw [drawRow,Function.update_apply,ih,habs]
      split_ifs <;> simp only [cell] at * <;> first | rfl | omega | simp only [*]
  have hlt : ¬scrollbackRows ≤ row := not_le.mpr (hrow.trans (by norm_num))
  rw [renderRow,habs,if_neg hlt,hdraw]

/-- A character that is printed is neither a line feed nor a backspace. -/
theorem ne_of_printed (hc : 0x20 ≤ c ∧ c ≤ 0x7F) : c≠0x0A ∧ c≠0x08 := by
  refine ⟨?_,?_⟩
  · rintro rfl
    exact absurd hc.1 (by decide)
  · rintro rfl
    exact absurd hc.1 (by decide)

/-- A key other than backspace is printed. -/
theorem IsKey.printed (h : IsKey c) (hback : c≠0x08) : 0x20 ≤ c ∧ c ≤ 0x7F :=
  ⟨(h.resolve_left hback).1,UInt8.le_trans (h.resolve_left hback).2 (by decide)⟩

/-- A key is no line feed. -/
theorem IsKey.ne_feed (h : IsKey c) : c≠0x0A := by
  by_cases hback : c=0x08
  · rw [hback]
    decide
  · exact (ne_of_printed (h.printed hback)).1

/-- A character in front of the end of a row. -/
theorem putchar_char (h : At d row col) (hroom : col<consoleCols) (hc : 0x20 ≤ c ∧ c ≤ 0x7F) :
    At (putchar d c) row (col+1) ∧ Put d (putchar d c) row (cell row col) c := by
  obtain ⟨hfeed,hback⟩ := ne_of_printed hc
  have hprint := (charValue_printable c).mpr hc
  have hnot : ¬consoleCols ≤ d.console.cursorCol := by rw [h.cursorCol]; omega
  have hstep : consolePutchar d.console c=
      { putCell d.console c with cursorCol := d.console.cursorCol+1 } := by
    rw [consolePutchar,if_neg hfeed,if_neg hback,if_pos hprint,if_neg hnot]
    rfl
  have hrow : (consolePutchar d.console c).cursorRow=row := by
    rw [hstep]
    exact h.cursorRow
  refine ⟨⟨hrow,?_,?_,h.onScreen,hroom⟩,?_,?_⟩
  · simp only [putchar,hstep,h.cursorCol]
  · simp only [putchar,hstep,putCell,h.start]
  · simp only [putchar,hstep,putCell,absRow,h.start,h.cursorRow,h.cursorCol,Nat.zero_add]
  · simp only [putchar,if_neg hfeed,if_neg hback,if_pos hprint,hrow]

/-- A character behind the end of a row comes after a new line. -/
theorem putchar_full (h : At d row consoleCols) (hc : 0x20 ≤ c ∧ c ≤ 0x7F) :
    putchar d c=putchar ⟨newline d.console,d.screen⟩ c := by
  obtain ⟨hfeed,hback⟩ := ne_of_printed hc
  have hprint := (charValue_printable c).mpr hc
  have hzero : (newline d.console).cursorCol=0 := by
    rw [newline]
    split <;> rfl
  have hstep : consolePutchar d.console c=consolePutchar (newline d.console) c := by
    simp only [consolePutchar,if_neg hfeed,if_neg hback,if_pos hprint,h.cursorCol,hzero]
    rfl
  simp only [putchar,if_neg hfeed,if_neg hback,if_pos hprint,hstep]

/-- A backspace behind the first column. -/
theorem putchar_back (h : At d row (col+1)) :
    At (putchar d 0x08) row col ∧ Put d (putchar d 0x08) row (cell row col) blank := by
  have hwithin := h.within
  have hsome : 0<d.console.cursorCol := by rw [h.cursorCol]; omega
  have hstep : consolePutchar d.console 0x08=
      putCell { d.console with cursorCol := d.console.cursorCol-1 } blank := by
    rw [consolePutchar,if_neg (by decide),if_pos rfl,if_pos hsome]
  have hrow : (consolePutchar d.console 0x08).cursorRow=row := by
    rw [hstep]
    exact h.cursorRow
  refine ⟨⟨hrow,?_,?_,h.onScreen,by omega⟩,?_,?_⟩
  · simp only [putchar,hstep,putCell,h.cursorCol,Nat.add_sub_cancel]
  · simp only [putchar,hstep,putCell,h.start]
  · simp only [putchar,hstep,putCell,absRow,h.start,h.cursorRow,h.cursorCol,Nat.zero_add,
      Nat.add_sub_cancel]
  · rw [putchar,if_neg (by decide),if_pos rfl,if_pos hsome,hrow]

/-- A backspace in the first column does nothing. -/
theorem putchar_back_first (h : At d row 0) : putchar d 0x08=d := by
  have hnone : ¬0<d.console.cursorCol := by rw [h.cursorCol]; omega
  rw [putchar,consolePutchar,if_neg (by decide),if_pos rfl,if_neg hnone]
  simp only [if_neg hnone]
  rfl

/-- Cells in front of the one that is written keep the text. -/
theorem Reads.put (h : Reads d place text) (hput : Put d d' row k c) (hat : At d' row col)
    (hk : place+text.length≤k) : Reads d' place text := by
  intro i x hx
  obtain ⟨hlt,-⟩ := List.getElem?_eq_some_iff.mp hx
  obtain ⟨hstore,hscreen⟩ := h i x hx
  have hnew : d'.console.scrollback (place+i)=x := by
    rw [hput.1,Function.update_of_ne (by omega),hstore]
  refine ⟨hnew,?_⟩
  rw [hput.2,renderRow_apply hat.start hat.onScreen]
  split
  next => exact hnew
  next => exact hscreen

/-- A character that is written behind the text belongs to it. -/
theorem Reads.put_next (h : Reads d place text) (hput : Put d d' row k c) (hat : At d' row col)
    (hk : place+text.length=k) (hlow : cell row 0 ≤ k) (hhigh : k<cell row consoleCols) :
    Reads d' place (text++[c]) := by
  intro i x hx
  by_cases hi : i<text.length
  · rw [List.getElem?_append_left hi] at hx
    exact h.put hput hat hk.le i x hx
  · rw [List.getElem?_append_right (by omega)] at hx
    obtain ⟨hlt,hval⟩ := List.getElem?_eq_some_iff.mp hx
    rw [List.length_singleton] at hlt
    have hplace : place+i=k := by omega
    have hnew : d'.console.scrollback k=c := by rw [hput.1,Function.update_self]
    rw [List.getElem_singleton] at hval
    rw [hplace,hput.2,renderRow_apply hat.start hat.onScreen,if_pos ⟨hlow,hhigh⟩,hnew]
    exact ⟨hval,hval⟩

/-- What the shell writes to take back a character. -/
theorem write_erase (d : Display) :
    write d [0x08,0x20,0x08]=putchar (putchar (putchar d 0x08) 0x20) 0x08 := rfl

/-- Taking back a character that is not in the first column: the text in front of it
stays. -/
theorem erase_char (h : At d row (col+1)) (hreads : Reads d place text)
    (hplace : place+text.length=cell row col) :
    At (write d [0x08,0x20,0x08]) row col ∧ Reads (write d [0x08,0x20,0x08]) place text := by
  have hwithin := h.within
  obtain ⟨hat1,hput1⟩ := putchar_back h
  obtain ⟨hat2,hput2⟩ := putchar_char hat1 (by omega) (by decide : (0x20 : UInt8) ≤ 0x20 ∧ _)
  obtain ⟨hat3,hput3⟩ := putchar_back hat2
  rw [write_erase]
  exact ⟨hat3,((hreads.put hput1 hat1 hplace.le).put hput2 hat2 hplace.le).put hput3 hat3 hplace.le⟩

/-- In the first column the cursor stays. -/
theorem erase_first (h : At d row 0) : At (write d [0x08,0x20,0x08]) row 0 := by
  obtain ⟨hat,-⟩ := putchar_char h (by norm_num) (by decide : (0x20 : UInt8) ≤ 0x20 ∧ _)
  rw [write_erase,putchar_back_first h]
  exact (putchar_back hat).1

/-- A new line on the screen. -/
theorem At.newline (h : At d row consoleCols) (hrow : row+1<consoleRows) :
    newline d.console={ d.console with cursorCol := 0, cursorRow := row+1 } := by
  rw [Console.newline,h.cursorRow,if_neg (not_le.mpr hrow)]

/-- A character in a new row. -/
theorem putchar_wrap (h : At d row consoleCols) (hrow : row+1<consoleRows)
    (hc : 0x20 ≤ c ∧ c ≤ 0x7F) :
    At (putchar d c) (row+1) 1 ∧ Put d (putchar d c) (row+1) (cell row consoleCols) c := by
  have hnext : At ⟨newline d.console,d.screen⟩ (row+1) 0 := by
    rw [h.newline hrow]
    exact ⟨rfl,rfl,h.start,hrow,Nat.zero_le _⟩
  obtain ⟨hat,hput⟩ := putchar_char hnext (by norm_num) hc
  have hcell : cell (row+1) 0=cell row consoleCols := by
    simp only [cell,consoleCols]
    omega
  rw [putchar_full h hc]
  refine ⟨hat,?_,hput.2⟩
  rw [←hcell,hput.1]
  dsimp only
  rw [h.newline hrow]

/-- A character in a new row when there is none: the cursor comes into the second column
of the last row. -/
theorem putchar_bottom (h : At d row consoleCols) (hrow : row+1=consoleRows)
    (hc : 0x20 ≤ c ∧ c ≤ 0x7F) : At (putchar d c) row 1 := by
  have hline : newline d.console={ newline d.console with
      cursorRow := row, cursorCol := 0, scrollStart := 0 } := by
    rw [newline,h.cursorRow,if_pos hrow.ge]
    dsimp only
    rw [←hrow,Nat.add_sub_cancel]
  have hnext : At ⟨newline d.console,d.screen⟩ row 0 := by
    rw [hline]
    exact ⟨rfl,rfl,rfl,h.onScreen,Nat.zero_le _⟩
  rw [putchar_full h hc]
  exact (putchar_char hnext (by norm_num) hc).1

/-- The shell is where the editing by itself is, and the screen has the command from a
place on. -/
structure Follows (place : ℕ) (sh : Shell) (e : Edit) : Prop where
  /-- The cursor. -/
  cursor : At sh.display e.row e.col
  /-- The length of the command. -/
  pos : sh.cmdPos=e.command.length
  /-- The command in the buffer. -/
  buf : ∀ i c, e.command[i]?=some c → sh.cmdBuf i=c
  /-- The command ends at the cursor. -/
  ends : place+e.command.length=cell e.row e.col
  /-- The command on the screen. -/
  reads : Reads sh.display place e.command

/-- Then the text behind the place is the pending command. -/
theorem Follows.text_eq (h : Follows place sh e) : textFrom place sh.display=pending sh := by
  have hlen : cursorCell sh.display-place=e.command.length := by
    rw [cursorCell,h.cursor.cursorRow,h.cursor.cursorCol,←h.ends,Nat.add_sub_cancel_left]
  rw [textFrom,pending,hlen,h.pos]
  refine List.map_congr_left fun i hi => ?_
  have hget := List.getElem?_eq_getElem (List.mem_range.mp hi)
  rw [(h.reads i _ hget).2,h.buf i _ hget]

/-- A key that loses nothing is followed. -/
theorem Follows.step (h : Follows place sh e) (hkey : IsKey c) (hlost : ¬e.Lost c) :
    Follows place (shellInput execute sh c) (e.key c) := by
  have hfeed := hkey.ne_feed
  obtain ⟨hcursor,hpos,hbuf,hends,hreads⟩ := h
  have hwithin := hcursor.within
  rw [shellInput,if_neg hfeed,Edit.key]
  rw [Edit.Lost] at hlost
  by_cases hback : c=0x08
  · rw [if_pos hback] at hlost
    rw [if_pos hback,if_pos hback]
    by_cases hnil : e.command=[]
    · rw [if_neg (by rw [hpos,hnil]; decide),if_pos hnil]
      exact ⟨hcursor,hpos,hbuf,hends,hreads⟩
    · have hlen := List.length_pos_of_ne_nil hnil
      obtain ⟨col,hcol⟩ := Nat.exists_eq_succ_of_ne_zero fun h0 => hlost ⟨hnil,h0⟩
      have hdrop : ∀ (i : ℕ) (x : UInt8), e.command.dropLast[i]?=some x → e.command[i]?=some x := by
        intro i x hx
        rw [List.dropLast_eq_take,List.getElem?_take] at hx
        split at hx
        next => exact hx
        next => cases hx
      have hplace : place+e.command.dropLast.length=cell e.row col := by
        rw [List.length_dropLast]
        rw [hcol] at hends
        simp only [cell] at hends ⊢
        omega
      rw [if_pos (by omega),if_neg hnil]
      rw [hcol] at hcursor
      have hfront : Reads sh.display place e.command.dropLast :=
        fun i x hx => hreads i x (hdrop i x hx)
      obtain ⟨hat,htext⟩ := erase_char hcursor hfront hplace
      refine ⟨?_,?_,fun i x hx => hbuf i x (hdrop i x hx),?_,htext⟩
      · rw [hcol]
        exact hat
      · rw [List.length_dropLast,hpos]
      · rw [hcol]
        exact hplace
  · have hprint := hkey.printed hback
    rw [if_neg hback] at hlost
    rw [if_neg hback,if_neg hback]
    by_cases hfull : e.command.length < maxCmd-1
    · have hlen : (e.command++[c]).length=e.command.length+1 := by simp
      have hbuf' : ∀ (i : ℕ) (x : UInt8), (e.command++[c])[i]?=some x →
          Function.update sh.cmdBuf sh.cmdPos c i=x := by
        intro i x hx
        by_cases hi : i<e.command.length
        · rw [List.getElem?_append_left hi] at hx
          rw [Function.update_of_ne (by omega)]
          exact hbuf i x hx
        · rw [List.getElem?_append_right (by omega)] at hx
          obtain ⟨hlt,hval⟩ := List.getElem?_eq_some_iff.mp hx
          rw [List.length_singleton] at hlt
          rw [List.getElem_singleton] at hval
          rw [show i=sh.cmdPos by omega,Function.update_self,hval]
      rw [if_pos (by rw [hpos]; exact hfull),if_pos hfull]
      by_cases hroom : e.col<consoleCols
      · obtain ⟨hat,hput⟩ := putchar_char hcursor hroom hprint
        rw [if_pos hroom]
        refine ⟨hat,by rw [hlen,hpos],hbuf',?_,hreads.put_next hput hat hends ?_ ?_⟩
        · rw [hlen]
          simp only [cell] at hends ⊢
          omega
        · simp only [cell]
          omega
        · simp only [cell]
          omega
      · have hcol : e.col=consoleCols := by omega
        have hrow : e.row+1<consoleRows :=
          lt_of_le_of_ne hcursor.onScreen fun he => hlost ⟨hfull,hcol,he⟩
        rw [hcol] at hcursor hends
        obtain ⟨hat,hput⟩ := putchar_wrap hcursor hrow hprint
        have hmin : min (e.row+1) (consoleRows-1)=e.row+1 := min_eq_left (by omega)
        rw [if_neg hroom,hmin]
        refine ⟨hat,by rw [hlen,hpos],hbuf',?_,hreads.put_next hput hat hends ?_ ?_⟩
        · rw [hlen]
          simp only [cell,consoleCols] at hends ⊢
          omega
        · simp only [cell,consoleCols]
          omega
        · simp only [cell,consoleCols]
          omega
    · rw [if_neg (by rw [hpos]; exact hfull),if_neg hfull]
      exact ⟨hcursor,hpos,hbuf,hends,hreads⟩

/-- After a key that loses the command, the text behind the place has another length. -/
theorem Follows.lost (h : Follows place sh e) (hkey : IsKey c) (hlost : e.Lost c) :
    textFrom place (shellInput execute sh c).display≠pending (shellInput execute sh c) := by
  have hfeed := hkey.ne_feed
  have hpos := h.pos
  have hends := h.ends
  have hcursor := h.cursor
  intro heq
  have hlen := congrArg List.length heq
  rw [textFrom,pending,List.length_map,List.length_map,List.length_range,List.length_range,
    shellInput,if_neg hfeed] at hlen
  rw [Edit.Lost] at hlost
  by_cases hback : c=0x08
  · rw [if_pos hback] at hlost hlen
    have hsome := List.length_pos_of_ne_nil hlost.1
    rw [hlost.2] at hcursor hends
    have hat := erase_first hcursor
    rw [if_pos (by omega),cursorCell,hat.cursorRow,hat.cursorCol] at hlen
    dsimp only at hlen
    omega
  · rw [if_neg hback] at hlost hlen
    rw [hlost.2.1] at hcursor hends
    have hat := putchar_bottom hcursor hlost.2.2 (hkey.printed hback)
    rw [if_pos (by rw [hpos]; exact hlost.1),cursorCell,hat.cursorRow,hat.cursorCol,hpos] at hlen
    simp only [cell,consoleCols] at hends hlen
    omega

/-- From a shell that is followed on, the text is the pending command all the way exactly
when no key loses the command. The induction is on the keys. -/
theorem Follows.run (h : Follows place sh e) (keys : List UInt8) (hkeys : ∀ c∈keys, IsKey c) :
    (∀ pre post, keys=pre++post →
      textFrom place (pre.foldl (shellInput execute) sh).display=
        pending (pre.foldl (shellInput execute) sh)) ↔
      Traces.Always Edit.key (fun e c => ¬e.Lost c) e keys := by
  induction keys generalizing sh e with
  | nil =>
    refine iff_of_true (fun pre post heq => ?_) trivial
    obtain ⟨rfl,-⟩ := List.append_eq_nil_iff.mp heq.symm
    exact h.text_eq
  | cons c rest ih =>
    have hkey := hkeys c List.mem_cons_self
    by_cases hlost : e.Lost c
    · refine iff_of_false (fun hall => ?_) fun hall => hall.1 hlost
      exact h.lost hkey hlost (hall [c] rest rfl)
    · rw [Traces.Always,and_iff_right hlost,
        ←ih (h.step hkey hlost) fun x hx => hkeys x (List.mem_cons_of_mem _ hx)]
      constructor
      · exact fun hall pre post heq => hall (c::pre) post (by rw [heq,List.cons_append])
      · intro hall pre post heq
        cases pre with
        | nil => exact h.text_eq
        | cons x pre =>
          obtain ⟨rfl,htail⟩ := List.cons.inj heq
          exact hall pre post htail

/-- The console of a display that writes a string. -/
theorem write_console (d : Display) (chars : List UInt8) :
    (write d chars).console=consoleWrite d.console chars := by
  induction chars generalizing d with
  | nil => rfl
  | cons c rest ih =>
    rw [write,consoleWrite]
    split
    next => rfl
    next => exact ih _

/-- The console of a display that gets bytes. -/
theorem foldl_putchar_console (d : Display) (bytes : List UInt8) :
    (bytes.foldl putchar d).console=bytes.foldl consolePutchar d.console := by
  induction bytes generalizing d with
  | nil => rfl
  | cons c rest ih => exact ih (putchar d c)

/-- An empty command is followed from the cursor on. -/
theorem start_follows (hpos : sh.cmdPos=0) (hat : At sh.display row col) :
    Follows (cursorCell sh.display) sh (Edit.start sh.display) := by
  have hcursor : At sh.display sh.display.console.cursorRow sh.display.console.cursorCol := by
    rw [hat.cursorRow,hat.cursorCol]
    exact hat
  refine ⟨hcursor,hpos,fun i c hc => ?_,rfl,fun i c hc => ?_⟩
  · rw [Edit.start,List.getElem?_nil] at hc
    cases hc
  · rw [Edit.start,List.getElem?_nil] at hc
    cases hc

/-- Behind a prompt an empty command is followed from the cursor on. -/
theorem afterPrompt_follows (s : State) (before : List UInt8) (cmdBuf : ℕ → UInt8) :
    Follows (cursorCell (afterPrompt s before cmdBuf).display) (afterPrompt s before cmdBuf)
      (Edit.start (afterPrompt s before cmdBuf).display) := by
  have hconsole : (afterPrompt s before cmdBuf).display.console=
      (before++prompt).foldl consolePutchar (consoleInit s) := by
    have hplain : prompt.takeWhile (·≠0)=prompt := by decide
    rw [afterPrompt,write_console,consoleWrite_eq,foldl_putchar_console,hplain,List.foldl_append]
  have hshows := consolePutchar_shows s (before++prompt)
  obtain ⟨hrow,hcol,-⟩ := hshows.cursor
  have hstart := hshows.start
  rw [←hconsole] at hrow hcol hstart
  exact start_follows rfl ⟨rfl,rfl,hstart,hrow,hcol⟩

/-- For every console, whatever has been printed before the prompt, and for every sequence
of printable characters and backspaces, the screen shows the pending command behind the
prompt all the way exactly when no key loses it. -/
theorem screenFollows_iff (execute : Shell → Shell) (s : State) (before : List UInt8)
    (cmdBuf : ℕ → UInt8) (keys : List UInt8) (hkeys : ∀ c∈keys, IsKey c) :
    ScreenFollows execute (afterPrompt s before cmdBuf) keys ↔
      NoneLost (Edit.start (afterPrompt s before cmdBuf).display) keys := by
  rw [ScreenFollows,(afterPrompt_follows s before cmdBuf).run keys hkeys,Traces.always_iff,NoneLost]

/-- Where the screen shows the command, the cursor is as far behind the prompt as the
command is long. -/
theorem ScreenFollows.cursor {keys : List UInt8} (h : ScreenFollows execute sh keys) :
    cursorCell (keys.foldl (shellInput execute) sh).display-cursorCell sh.display=
      (keys.foldl (shellInput execute) sh).cmdPos := by
  have hlen := congrArg List.length (h keys [] (List.append_nil keys).symm)
  rwa [textFrom,pending,List.length_map,List.length_map,List.length_range,List.length_range] at hlen

/-- A console that has been switched on. -/
def powerOn : State := ⟨fun _ => 0,0,0,0⟩

/-- One character too many for the row of the prompt, and two backspaces. -/
def wrapped : List UInt8 := List.replicate 75 (ascii 'a')++[0x08,0x08]

/-- The condition decides about the keys. -/
theorem wrapped_iff :
    ScreenFollows id (afterPrompt powerOn [] fun _ => 0) wrapped ↔
      NoneLost (Edit.start (afterPrompt powerOn [] fun _ => 0).display) wrapped :=
  screenFollows_iff id powerOn [] (fun _ => 0) wrapped (by unfold IsKey; decide +kernel)

/-- After the second backspace the row of the prompt still shows 74 characters, but 73 are
pending. In the last row the 75 characters without backspaces do: the row of the prompt is
not drawn again. -/
theorem wrapped_lost :
    ¬ScreenFollows id (afterPrompt powerOn [] fun _ => 0) wrapped ∧
    ¬ScreenFollows id (afterPrompt powerOn (List.replicate 44 0x0A) fun _ => 0)
      (List.replicate 75 (ascii 'a')) :=
  ⟨fun h => absurd h.cursor (by decide +kernel),fun h => absurd h.cursor (by decide +kernel)⟩

end OvsbMk.ShellInput
