import OvsbMk.Console
import OvsbMk.Traces

/-!
# Accesses to the console's store

The places of the store that the console reads and writes at each byte, in the order of
the source. The cursor may rest behind the last column, and a line feed blanks the place
at the cursor without a look at the column. The theorem says which byte strings keep all
accesses in the store.
-/

namespace OvsbMk.ConsoleGrid

open Console

/-- A place of the store as the source names it, by row and column. -/
abbrev Place := ℕ×ℕ

/-- The place has a cell. -/
def InGrid (p : Place) : Prop := p.1<scrollbackRows ∧ p.2<consoleCols

/-- The places of a row. -/
def rowPlaces (row : ℕ) : List Place := (List.range consoleCols).map fun col => (row,col)

/-- Accesses of `newline`: the loop that moves the rows up, and the loop that blanks the
last one. -/
def newlineAccesses (s : State) : List Place :=
  if consoleRows ≤ s.cursorRow+1 then
    ((List.range (scrollbackRows-1)).flatMap fun row =>
      (List.range consoleCols).flatMap fun col => [(row+1,col),(row,col)])++
        rowPlaces (scrollbackRows-1)
  else []

/-- Accesses of `render_row`. -/
def renderRowAccesses (s : State) (row : ℕ) : List Place :=
  if scrollbackRows ≤ absRow s row then [] else rowPlaces (absRow s row)

/-- Accesses of `render_all`. -/
def renderAllAccesses (s : State) : List Place :=
  (List.range consoleRows).flatMap (renderRowAccesses s)

/-- The place at the cursor. -/
def cursorPlace (s : State) : Place := (absRow s s.cursorRow,s.cursorCol)

/-- Accesses of `console_putchar`. -/
def putcharAccesses (s : State) (c : UInt8) : List Place :=
  if c=0x0A then
    cursorPlace s::newlineAccesses (putCell s blank)++renderAllAccesses (newline (putCell s blank))
  else if c=0x08 then
    if 0<s.cursorCol then
      let s := { s with cursorCol := s.cursorCol-1 }
      cursorPlace s::renderRowAccesses (putCell s blank) s.cursorRow
    else []
  else if charValue blank≤charValue c then
    let moved := if consoleCols ≤ s.cursorCol then newlineAccesses s else []
    let s := if consoleCols ≤ s.cursorCol then newline s else s
    moved++cursorPlace s::renderRowAccesses (putCell s c) s.cursorRow
  else []

/-- Accesses at a string of bytes. -/
def accesses (s : State) : List UInt8 → List Place
  | [] => []
  | c::rest => putcharAccesses s c++accesses (consolePutchar s c) rest

/-- All accesses after the start are in the store. -/
def StaysInGrid (s : State) (bytes : List UInt8) : Prop :=
  ∀ p∈accesses (consoleInit s) bytes, InGrid p

/-- No line feed comes while the last line of the terminal is full. -/
def NoFeedWhenFull (bytes : List UInt8) : Prop :=
  ∀ pre post, bytes=pre++0x0A::post →
    (pre.foldl Terminal.step Terminal.start).last.chars.length≠consoleCols

variable {s : State} {t : Terminal} {c : UInt8} {i : ℕ} {p : Place}

/-- The places of a row are in the store. -/
theorem rowPlaces_inGrid {row : ℕ} (hrow : row<scrollbackRows) (h : p∈rowPlaces row) :
    InGrid p := by
  obtain ⟨col,hcol,rfl⟩ := List.mem_map.mp h
  exact ⟨hrow,List.mem_range.mp hcol⟩

/-- Moving the rows up stays in the store. -/
theorem newlineAccesses_inGrid (h : p∈newlineAccesses s) : InGrid p := by
  rw [newlineAccesses] at h
  split at h
  next =>
    rcases List.mem_append.mp h with h | h
    · obtain ⟨row,hrow,h⟩ := List.mem_flatMap.mp h
      obtain ⟨col,hcol,h⟩ := List.mem_flatMap.mp h
      rw [List.mem_range] at hrow hcol
      rcases List.mem_pair.mp h with rfl | rfl
      · exact ⟨Nat.add_lt_of_lt_sub hrow,hcol⟩
      · exact ⟨hrow.trans (by norm_num),hcol⟩
    · exact rowPlaces_inGrid (by norm_num) h
  next => cases h

/-- Showing a row stays in the store. -/
theorem renderRowAccesses_inGrid {row : ℕ} (h : p∈renderRowAccesses s row) : InGrid p := by
  rw [renderRowAccesses] at h
  split at h
  next => cases h
  next hrow => exact rowPlaces_inGrid (not_le.mp hrow) h

/-- Showing all rows stays in the store. -/
theorem renderAllAccesses_inGrid (h : p∈renderAllAccesses s) : InGrid p := by
  obtain ⟨row,-,h⟩ := List.mem_flatMap.mp h
  exact renderRowAccesses_inGrid h

/-- The place at the cursor is in the store if the cursor is not behind the last
column. -/
theorem cursorPlace_inGrid (h : Shows s t) : InGrid (cursorPlace s) ↔ s.cursorCol<consoleCols := by
  have hrow := h.cursor.1
  have hstart := h.start
  refine and_iff_right ?_
  change s.scrollStart+s.cursorRow<scrollbackRows
  rw [hstart,Nat.zero_add]
  exact hrow.trans (by norm_num)

/-- Accesses at one byte leave the store only for a line feed behind the last column. -/
theorem putcharAccesses_inGrid (h : Shows s t) (c : UInt8) :
    (∀ p∈putcharAccesses s c, InGrid p) ↔ ¬(c=0x0A ∧ t.last.chars.length=consoleCols) := by
  have hcol := h.col
  have hle := h.cursor.2.1
  rw [putcharAccesses]
  by_cases hline : c=0x0A
  · rw [if_pos hline]
    constructor
    · rintro hall ⟨-,hfull⟩
      have hcursor := (cursorPlace_inGrid h).mp (hall _ (by simp))
      omega
    · intro hnot p hp
      rw [List.cons_append] at hp
      rcases List.mem_cons.mp hp with rfl | hp
      · refine (cursorPlace_inGrid h).mpr (lt_of_le_of_ne hle fun he => hnot ⟨hline,?_⟩)
        rw [←hcol,he]
      · rcases List.mem_append.mp hp with hp | hp
        · exact newlineAccesses_inGrid hp
        · exact renderAllAccesses_inGrid hp
  · rw [if_neg hline]
    refine iff_of_true ?_ fun hc => hline hc.1
    by_cases hback : c=0x08
    · rw [if_pos hback]
      by_cases hsome : 0<s.cursorCol
      · rw [if_pos hsome]
        intro p hp
        rcases List.mem_cons.mp hp with rfl | hp
        · exact (cursorPlace_inGrid (h.backspace hsome)).mpr (by dsimp only [putCell]; omega)
        · exact renderRowAccesses_inGrid hp
      · rw [if_neg hsome]
        exact List.forall_mem_nil _
    · rw [if_neg hback]
      by_cases hprint : charValue blank≤charValue c
      · rw [if_pos hprint]
        intro p hp
        rcases List.mem_append.mp hp with hp | hp
        · split at hp
          next => exact newlineAccesses_inGrid hp
          next => cases hp
        · rcases List.mem_cons.mp hp with rfl | hp
          · by_cases hfull : consoleCols ≤ s.cursorCol
            · rw [if_pos hfull]
              have hcursor := h.newline
              refine (cursorPlace_inGrid hcursor).mpr ?_
              rw [hcursor.col]
              exact Nat.zero_lt_succ _
            · rw [if_neg hfull]
              exact (cursorPlace_inGrid h).mpr (not_le.mp hfull)
          · exact renderRowAccesses_inGrid hp
      · rw [if_neg hprint]
        exact List.forall_mem_nil _

/-- Accesses at a string, from any console that shows a terminal. The induction is on the
string. -/
theorem accesses_inGrid (h : Shows s t) (bytes : List UInt8) :
    (∀ p∈accesses s bytes, InGrid p) ↔ Traces.Always Terminal.step
      (fun t c => ¬(c=0x0A ∧ t.last.chars.length=consoleCols)) t bytes := by
  induction bytes generalizing s t with
  | nil => exact iff_of_true (List.forall_mem_nil _) trivial
  | cons c rest ih =>
    rw [accesses,List.forall_mem_append,putcharAccesses_inGrid h,ih (h.step c),Traces.Always]

/-- For every string of bytes, all accesses after the start are in the store exactly when
no line feed comes while the last line of the terminal is full. -/
theorem staysInGrid_iff (s : State) (bytes : List UInt8) :
    StaysInGrid s bytes ↔ NoFeedWhenFull bytes := by
  rw [StaysInGrid,accesses_inGrid (consoleInit_shows s),Traces.always_iff]
  constructor
  · exact fun h pre post heq hfull => h pre 0x0A post heq ⟨rfl,hfull⟩
  · rintro h pre c post heq ⟨rfl,hfull⟩
    exact h pre post heq hfull

/-- A cell that `newline` changes is one of its accesses. -/
theorem newline_changes (h : (newline s).scrollback i≠s.scrollback i) :
    ∃ p∈newlineAccesses s, i=cell p.1 p.2 := by
  rw [newline] at h
  rw [newlineAccesses]
  split at h
  next hscroll =>
    rw [if_pos hscroll]
    have hlt : i<cell scrollbackRows 0 := by
      by_contra hge
      have hblank : ¬(cell (scrollbackRows-1) 0 ≤ i ∧ i<cell (scrollbackRows-1) consoleCols) := by
        simp only [cell,scrollbackRows,consoleCols] at hge ⊢
        omega
      have hmove : ¬i<cell (scrollbackRows-1) 0 := by
        simp only [cell,scrollbackRows,consoleCols] at hge ⊢
        omega
      dsimp only at h
      rw [blankRow_apply,copyRows_apply,if_neg hblank,if_neg hmove] at h
      exact h rfl
    have hcell : i=cell (i/consoleCols) (i%consoleCols) := by
      rw [cell,Nat.div_add_mod]
    have hmod := Nat.mod_lt i (by norm_num : 0<consoleCols)
    refine ⟨(i/consoleCols,i%consoleCols),?_,hcell⟩
    simp only [cell,scrollbackRows,consoleCols] at hlt
    by_cases hlast : i/consoleCols=scrollbackRows-1
    · rw [hlast]
      exact List.mem_append_right _ (List.mem_map.mpr ⟨_,List.mem_range.mpr hmod,rfl⟩)
    · refine List.mem_append_left _ (List.mem_flatMap.mpr ⟨i/consoleCols,?_,?_⟩)
      · rw [List.mem_range]
        simp only [scrollbackRows,consoleCols] at hlast ⊢
        omega
      · exact List.mem_flatMap.mpr ⟨_,List.mem_range.mpr hmod,by simp⟩
  next => exact (h rfl).elim

/-- A cell that is written at the cursor is the place there. -/
theorem putCell_changes (h : (putCell s c).scrollback i≠s.scrollback i) :
    i=cell (cursorPlace s).1 (cursorPlace s).2 := by
  by_contra hne
  exact h (Function.update_of_ne hne _ _)

/-- A cell that changes at a byte is one of the accesses at that byte. -/
theorem consolePutchar_changes (h : (consolePutchar s c).scrollback i≠s.scrollback i) :
    ∃ p∈putcharAccesses s c, i=cell p.1 p.2 := by
  rw [consolePutchar] at h
  rw [putcharAccesses]
  split at h
  next hline =>
    rw [if_pos hline]
    by_cases hput : (putCell s blank).scrollback i=s.scrollback i
    · rw [←hput] at h
      obtain ⟨p,hp,hcell⟩ := newline_changes h
      exact ⟨p,by simp [hp],hcell⟩
    · exact ⟨_,by simp,putCell_changes hput⟩
  next hline =>
    rw [if_neg hline]
    split at h
    next hback =>
      rw [if_pos hback]
      split at h
      next hsome =>
        rw [if_pos hsome]
        exact ⟨_,List.mem_cons_self,putCell_changes h⟩
      next => exact (h rfl).elim
    next hback =>
      rw [if_neg hback]
      split at h
      next hprint =>
        rw [if_pos hprint]
        dsimp only at h ⊢
        by_cases hput : (if consoleCols ≤ s.cursorCol then newline s else s).scrollback i=
            s.scrollback i
        · rw [←hput] at h
          exact ⟨_,by simp,putCell_changes h⟩
        · by_cases hfull : consoleCols ≤ s.cursorCol
          · rw [if_pos hfull] at hput
            obtain ⟨p,hp,hcell⟩ := newline_changes hput
            exact ⟨p,by simp [hfull,hp],hcell⟩
          · rw [if_neg hfull] at hput
            exact (hput rfl).elim
      next => exact (h rfl).elim

/-- Accesses at two strings one after the other. -/
theorem accesses_append (s : State) (xs ys : List UInt8) :
    accesses s (xs++ys)=accesses s xs++accesses (xs.foldl consolePutchar s) ys := by
  induction xs generalizing s with
  | nil => rfl
  | cons c xs ih => rw [List.cons_append,accesses,accesses,ih,List.append_assoc,List.foldl_cons]

/-- A line of 80 characters. -/
def fullLine : List UInt8 := List.replicate 80 0x78

/-- A line feed behind a full line: the first row is accessed at column 80. -/
theorem fullLine_leaves (s : State) : (0,80)∈accesses (consoleInit s) (fullLine++[0x0A]) := by
  have hshows := consolePutchar_shows s fullLine
  have hlast : (fullLine.foldl Terminal.step Terminal.start).last.chars.length=80 := by
    decide +kernel
  have hrows : (fullLine.foldl Terminal.step Terminal.start).shown.length=1 := by decide +kernel
  have hrow := hshows.row
  have hcol := hshows.col
  have hplace : cursorPlace (fullLine.foldl consolePutchar (consoleInit s))=(0,80) := by
    rw [cursorPlace,absRow,hshows.start,hcol,hlast]
    rw [hrows] at hrow
    rw [Nat.add_right_cancel hrow]
  rw [accesses_append,accesses,putcharAccesses,if_pos rfl,hplace]
  simp

/-- The console at power-on. -/
def powerOn : State := ⟨fun _ => 0,0,0,0⟩

/-- After a full line and a line feed not all accesses are in the store. -/
theorem fullLine_not_inGrid : ¬StaysInGrid powerOn (fullLine++[0x0A]) :=
  fun h => absurd (h _ (fullLine_leaves powerOn)).2 (by decide)

end OvsbMk.ConsoleGrid
