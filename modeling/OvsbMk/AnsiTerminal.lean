import OvsbMk.Numerals

/-!
# A terminal with escape sequences

A screen of cells with a cursor and two current colours, driven by bytes: characters, the
tabulator, and the control sequences that move the cursor, choose colours and erase. A
character in the last column leaves the cursor behind it, and the next one wraps. Other
control codes have no effect here.
-/

namespace OvsbMk.AnsiTerminal

open Numerals

/-- The byte that begins a control sequence. -/
def esc : UInt8 := 0x1B

/-- What a cell shows. -/
structure Glyph where
  /-- The character. -/
  ch : UInt8
  /-- Its colour, of sixteen. -/
  fg : ℕ
  /-- The colour behind it. -/
  bg : ℕ

/-- What has been read of a control sequence. -/
inductive Parser where
  /-- Nothing. -/
  | ground
  /-- Its first byte. -/
  | escape
  /-- The introducer, a question mark or not, whole parameters and the one that goes on. -/
  | csi (asked : Bool) (params : List ℕ) (last : ℕ)

/-- A terminal. -/
structure Terminal (rows cols : ℕ) where
  /-- The cells, by row and column. -/
  cells : ℕ → ℕ → Glyph
  /-- Row of the cursor. -/
  row : ℕ
  /-- Column of the cursor. -/
  col : ℕ
  /-- The colour of characters to come. -/
  fg : ℕ
  /-- The colour behind them. -/
  bg : ℕ
  /-- The control sequence that has begun. -/
  parser : Parser

variable {rows cols : ℕ}

namespace Terminal

/-- An erased cell has the current colours. -/
def erased (t : Terminal rows cols) : Glyph := ⟨ascii ' ',t.fg,t.bg⟩

/-- The row below, after all rows have moved up when there is none. -/
def wrap (t : Terminal rows cols) : Terminal rows cols :=
  if t.row+1<rows then { t with row := t.row+1, col := 0 }
  else { t with
    col := 0
    cells := fun r c => if r+1<rows then t.cells (r+1) c else t.erased }

/-- A character at the cursor. -/
def put (b : UInt8) (t : Terminal rows cols) : Terminal rows cols :=
  let t := if cols ≤ t.col then t.wrap else t
  { t with
    cells := fun r c => if r=t.row ∧ c=t.col then ⟨b,t.fg,t.bg⟩ else t.cells r c
    col := t.col+1 }

/-- The next column that is a multiple of eight, or the last one. -/
def tab (t : Terminal rows cols) : Terminal rows cols :=
  { t with col := min (t.col/8*8+8) (cols-1) }

/-- A colour is chosen. -/
def sgr (t : Terminal rows cols) (p : ℕ) : Terminal rows cols :=
  if p=0 then { t with fg := 7, bg := 0 }
  else if 30≤p ∧ p≤37 then { t with fg := p-30 }
  else if p=39 then { t with fg := 7 }
  else if 40≤p ∧ p≤47 then { t with bg := p-40 }
  else if p=49 then { t with bg := 0 }
  else if 90≤p ∧ p≤97 then { t with fg := p-90+8 }
  else if 100≤p ∧ p≤107 then { t with bg := p-100+8 }
  else t

/-- The cursor is placed. Rows and columns are counted from one. -/
def place (r c : ℕ) (t : Terminal rows cols) : Terminal rows cols :=
  { t with row := min (r-1) (rows-1), col := min (c-1) (cols-1) }

/-- The row is erased from the cursor on. -/
def eraseLine (t : Terminal rows cols) : Terminal rows cols :=
  { t with
    cells := fun r c => if r=t.row ∧ min t.col (cols-1)≤c then t.erased else t.cells r c }

/-- The screen is erased. -/
def eraseScreen (t : Terminal rows cols) : Terminal rows cols :=
  { t with cells := fun _ _ => t.erased }

/-- A control sequence that is whole. -/
def execute (params : List ℕ) (final : UInt8) (t : Terminal rows cols) : Terminal rows cols :=
  if final=ascii 'H' then t.place (params.getD 0 0) (params.getD 1 0)
  else if final=ascii 'K' ∧ params=[0] then t.eraseLine
  else if final=ascii 'J' ∧ params=[2] then t.eraseScreen
  else if final=ascii 'm' then params.foldl sgr t
  else t

/-- A byte within a control sequence. -/
def feedCsi (asked : Bool) (params : List ℕ) (last : ℕ) (b : UInt8) (t : Terminal rows cols) :
    Terminal rows cols :=
  if ascii '0'≤b ∧ b≤ascii '9' then
    { t with parser := .csi asked params (last*10+(b.toNat-48)) }
  else if b=ascii ';' then { t with parser := .csi asked (params++[last]) 0 }
  else if b=ascii '?' then { t with parser := .csi true params last }
  else if asked then { t with parser := .ground }
  else { execute (params++[last]) b t with parser := .ground }

/-- A byte. -/
def feed (t : Terminal rows cols) (b : UInt8) : Terminal rows cols :=
  match t.parser with
  | .ground =>
    if b=esc then { t with parser := .escape }
    else if b=ascii '\t' then t.tab
    else if b<0x20 ∨ b=0x7F then t
    else t.put b
  | .escape =>
    if b=ascii '[' then { t with parser := .csi false [] 0 } else { t with parser := .ground }
  | .csi asked params last => feedCsi asked params last b t

/-- Bytes, one after the other. -/
def feedAll (bytes : List UInt8) (t : Terminal rows cols) : Terminal rows cols :=
  bytes.foldl feed t

variable {t : Terminal rows cols}

/-- One run of bytes after the other. -/
theorem feedAll_append (xs ys : List UInt8) (t : Terminal rows cols) :
    feedAll (xs++ys) t=feedAll ys (feedAll xs t) := List.foldl_append

/-- A byte and then the others. -/
theorem feedAll_cons (b : UInt8) (xs : List UInt8) (t : Terminal rows cols) :
    feedAll (b::xs) t=feedAll xs (feed t b) := rfl

/-- The terminal within a control sequence. -/
def within (params : List ℕ) (last : ℕ) (t : Terminal rows cols) : Terminal rows cols :=
  { t with parser := .csi false params last }

/-- A digit within a control sequence. -/
theorem feed_digit (params : List ℕ) (last : ℕ) (t : Terminal rows cols) {d : ℕ} (hd : d<10) :
    feed (t.within params last) (digitByte d)=t.within params (last*10+d) := by
  have hbyte : ascii '0'≤digitByte d ∧ digitByte d≤ascii '9' ∧ (digitByte d).toNat-48=d := by
    revert d
    decide
  change feedCsi false params last (digitByte d) (t.within params last)=_
  rw [feedCsi,if_pos ⟨hbyte.1,hbyte.2.1⟩,hbyte.2.2]
  rfl

/-- Digits within a control sequence. -/
theorem feedAll_digits (params : List ℕ) (last : ℕ) (t : Terminal rows cols) {ds : List ℕ}
    (hds : ∀ d∈ds, d<10) : feedAll (ds.map digitByte) (t.within params last)=
      t.within params (ds.foldl (fun a d => a*10+d) last) := by
  induction ds generalizing last with
  | nil => rfl
  | cons d ds ih =>
    rw [List.map_cons,feedAll_cons,feed_digit params last t (hds d List.mem_cons_self)]
    exact ih (last*10+d) fun d hd => hds d (List.mem_cons_of_mem _ hd)

/-- A parameter. -/
theorem feedAll_numeral (params : List ℕ) (n : ℕ) (t : Terminal rows cols) :
    feedAll (numeral 10 n) (t.within params 0)=t.within params n := by
  have hdigits := feedAll_digits params 0 t fun d (hd : d∈digits 10 n) =>
    lt_of_mem_digits (by decide) hd
  rw [foldl_digits] at hdigits
  exact hdigits

/-- A control sequence with two parameters. -/
def twoParams (a b : ℕ) (final : UInt8) : List UInt8 :=
  [esc,ascii '[']++numeral 10 a++[ascii ';']++numeral 10 b++[final]

/-- A control sequence with two parameters is read as a whole. -/
theorem feedAll_twoParams (hparser : t.parser=.ground) (a b : ℕ) (final : UInt8) :
    feedAll (twoParams a b final) t=feed (t.within [a] b) final := by
  have hopen : feedAll [esc,ascii '['] t=t.within [] 0 := by
    rw [feedAll_cons,feed,hparser]
    rfl
  have hsep : feedAll [ascii ';'] (t.within [] a)=t.within [a] 0 := rfl
  rw [twoParams,feedAll_append,feedAll_append,feedAll_append,feedAll_append,hopen,
    feedAll_numeral,hsep,feedAll_numeral]
  rfl

/-- The cursor is placed. -/
theorem feedAll_place (hparser : t.parser=.ground) (r c : ℕ) :
    feedAll (twoParams r c (ascii 'H')) t=t.place r c := by
  rw [feedAll_twoParams hparser]
  cases t
  cases hparser
  rfl

/-- The parameter that chooses a colour for characters. -/
def fgCode (c : ℕ) : ℕ := if c<8 then 30+c else 90+(c-8)

/-- The parameter that chooses a colour behind them. -/
def bgCode (c : ℕ) : ℕ := if c<8 then 40+c else 100+(c-8)

/-- A colour for characters is chosen. -/
theorem sgr_fgCode (t : Terminal rows cols) {c : ℕ} (hc : c<16) :
    t.sgr (fgCode c)={ t with fg := c } := by
  rw [sgr,fgCode]
  by_cases hlow : c<8
  · rw [if_pos hlow,if_neg (by omega),if_pos (by omega),Nat.add_sub_cancel_left]
  · rw [if_neg hlow,if_neg (by omega),if_neg (by omega),if_neg (by omega),if_neg (by omega),
      if_neg (by omega),if_pos (by omega)]
    congr 1
    omega

/-- A colour behind them is chosen. -/
theorem sgr_bgCode (t : Terminal rows cols) {c : ℕ} (hc : c<16) :
    t.sgr (bgCode c)={ t with bg := c } := by
  rw [sgr,bgCode]
  by_cases hlow : c<8
  · rw [if_pos hlow,if_neg (by omega),if_neg (by omega),if_neg (by omega),if_pos (by omega),
      Nat.add_sub_cancel_left]
  · rw [if_neg hlow,if_neg (by omega),if_neg (by omega),if_neg (by omega),if_neg (by omega),
      if_neg (by omega),if_neg (by omega),if_pos (by omega)]
    congr 1
    omega

/-- The terminal with other colours. -/
def coloured (f b : ℕ) (t : Terminal rows cols) : Terminal rows cols := { t with fg := f, bg := b }

/-- Both colours are chosen. -/
theorem feedAll_colours (hparser : t.parser=.ground) {f b : ℕ} (hf : f<16) (hb : b<16) :
    feedAll (twoParams (fgCode f) (bgCode b) (ascii 'm')) t=t.coloured f b := by
  rw [feedAll_twoParams hparser]
  change ({ (((t.within [fgCode f] (bgCode b)).sgr (fgCode f)).sgr (bgCode b)) with
    parser := .ground } : Terminal rows cols)=_
  rw [sgr_fgCode _ hf,sgr_bgCode _ hb]
  cases t
  cases hparser
  rfl

/-- The control sequence that erases the row. -/
def eraseLineBytes : List UInt8 := [esc,ascii '[',ascii 'K']

/-- The row is erased. -/
theorem feedAll_eraseLine (hparser : t.parser=.ground) :
    feedAll eraseLineBytes t=t.eraseLine := by
  cases t
  cases hparser
  rfl

/-- A character that can be printed is put at the cursor. -/
theorem feed_print (hparser : t.parser=.ground) (hcol : t.col<cols) {b : UInt8}
    (hlow : 0x20≤b) (hhigh : b≠0x7F) :
    feed t b={ t with
      cells := fun r c => if r=t.row ∧ c=t.col then ⟨b,t.fg,t.bg⟩ else t.cells r c
      col := t.col+1 } := by
  have hesc : b≠esc := fun h => absurd (h ▸ hlow) (by decide)
  have htab : b≠ascii '\t' := fun h => absurd (h ▸ hlow) (by decide)
  have hprint : ¬(b<0x20 ∨ b=0x7F) := by
    rw [not_or,UInt8.not_lt]
    exact ⟨hlow,hhigh⟩
  rw [feed,hparser]
  simp only [if_neg hesc,if_neg htab,if_neg hprint]
  rw [put,if_neg (Nat.not_le.mpr hcol),hparser]

end Terminal

end OvsbMk.AnsiTerminal
