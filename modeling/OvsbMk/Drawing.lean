import OvsbMk.Console
import OvsbMk.StridedRows
import OvsbMk.WindowManager

/-!
# Drawing on the framebuffer

The words that the drawing primitives of the kernel write, for every geometry that the
boot loader can report. Pixels and rectangles are clipped, the loop that fills the screen
writes eight words at a time, and the character cells of the console are not clipped at
all. The theorem says which geometries keep all words on the screen and make filling the
screen the same as drawing the largest rectangle.
-/

namespace OvsbMk.Drawing

open Console StridedRows
open Framebuffer (Geometry)
open WindowManager (cInt cUnsigned lineWords)

/-- A word that is written: its index from the start of the target, and the value. -/
abbrev Write := ℕ×UInt32

/-- What `kmain` accepts, with lines that have room for their pixels. -/
structure Accepted (fb : Geometry) : Prop where
  /-- There is a framebuffer. -/
  addr : fb.addr≠0
  /-- A pixel is a word. -/
  bpp : fb.bpp=32
  /-- A line has room for its pixels. -/
  pitch : 4*fb.width.toNat≤fb.pitch.toNat

/-- `vesa_draw_pixel`. -/
def vesaDrawPixel (fb : Geometry) (x y : ℤ) (color : UInt32) : List Write :=
  if x<0 ∨ y<0 ∨ fb.width.toNat≤cUnsigned x ∨ fb.height.toNat≤cUnsigned y then []
  else [(cUnsigned (y*lineWords fb+x),color)]

/-- `vesa_fill_screen`: line after line, eight words at a time. -/
def vesaFillScreen (fb : Geometry) (color : UInt32) : List Write :=
  (List.range fb.height.toNat).flatMap fun y =>
    (List.range ((fb.width.toNat+7)/8)).flatMap fun step =>
      (List.range 8).map fun k => (y*lineWords fb%2^32+(8*step+k),color)

/-- `vesa_draw_rect`. -/
def vesaDrawRect (fb : Geometry) (x y w h : ℤ) (color : UInt32) : List Write :=
  if w≤0 ∨ h≤0 then []
  else
    let x0 := if x<0 then 0 else x
    let y0 := if y<0 then 0 else y
    let x1 := cInt (x+w)
    let y1 := cInt (y+h)
    let x1 := if cInt fb.width.toNat<x1 then cInt fb.width.toNat else x1
    let y1 := if cInt fb.height.toNat<y1 then cInt fb.height.toNat else y1
    (List.range (y1-y0).toNat).flatMap fun (py : ℕ) =>
      (List.range (x1-x0).toNat).map fun (px : ℕ) =>
        (cUnsigned ((y0+py)*lineWords fb+(x0+px)),color)

/-- The colour of a pixel of a character cell, from the rows of the font. -/
def cellColor (font : ℕ → ℕ → UInt8) (c : UInt8) (fg bg : UInt32) (r cl : ℕ) : UInt32 :=
  if 32 ≤ charValue c ∧ charValue c ≤ 126 ∧ (font (c.toNat-32) (r/2)).toNat.testBit cl then fg
  else bg

/-- `vesa_draw_cell`. -/
def vesaDrawCell (fb : Geometry) (font : ℕ → ℕ → UInt8) (x y : ℤ) (c : UInt8) (fg bg : UInt32) :
    List Write :=
  (List.range 16).flatMap fun (r : ℕ) => (List.range 8).map fun cl =>
    (cUnsigned ((y+r)*lineWords fb+x)+cl,cellColor font c fg bg r cl)

/-- `render_row`. -/
def renderRow (fb : Geometry) (font : ℕ → ℕ → UInt8) (fg bg : UInt32) (s : State) (r : ℕ) :
    List Write :=
  if scrollbackRows ≤ absRow s r then []
  else (List.range consoleCols).flatMap fun (c : ℕ) =>
    vesaDrawCell fb font (c*8) (r*16) (s.scrollback (cell (absRow s r) c)) fg bg

/-- `render_all`. -/
def renderAll (fb : Geometry) (font : ℕ → ℕ → UInt8) (fg bg : UInt32) (s : State) : List Write :=
  (List.range consoleRows).flatMap (renderRow fb font fg bg s)

/-- What `console_putchar` draws. -/
def putcharDraws (fb : Geometry) (font : ℕ → ℕ → UInt8) (fg bg : UInt32) (s : State) (c : UInt8) :
    List Write :=
  let s' := consolePutchar s c
  if c=0x0A then renderAll fb font fg bg s'
  else if c=0x08 then
    if 0<s.cursorCol then renderRow fb font fg bg s' s'.cursorRow else []
  else if charValue blank≤charValue c then renderRow fb font fg bg s' s'.cursorRow
  else []

/-- What the console draws at a string of bytes. -/
def consoleDraws (fb : Geometry) (font : ℕ → ℕ → UInt8) (fg bg : UInt32) (s : State) :
    List UInt8 → List Write
  | [] => []
  | c::rest => putcharDraws fb font fg bg s c++consoleDraws fb font fg bg (consolePutchar s c) rest

/-- The index is that of a word of the screen. -/
def OnScreen (fb : Geometry) (i : ℕ) : Prop :=
  OnGrid (lineWords fb) fb.width.toNat fb.height.toNat i

/-- For all arguments, and for all that the console prints after its start, only words of
the screen are written, and filling the screen has the effect of drawing the largest
rectangle. -/
def DrawsOnScreen (fb : Geometry) (font : ℕ → ℕ → UInt8) : Prop :=
  (∀ (x y : Int32) (color : UInt32), ∀ wr∈vesaDrawPixel fb x.toInt y.toInt color,
    OnScreen fb wr.1) ∧
  (∀ (x y w h : Int32) (color : UInt32),
    ∀ wr∈vesaDrawRect fb x.toInt y.toInt w.toInt h.toInt color, OnScreen fb wr.1) ∧
  (∀ color, ∀ wr∈vesaFillScreen fb color, OnScreen fb wr.1) ∧
  (∀ s bytes fg bg, ∀ wr∈consoleDraws fb font fg bg (consoleInit s) bytes, OnScreen fb wr.1) ∧
  ∀ color buf, applyWrites buf (vesaFillScreen fb color)=
    applyWrites buf (vesaDrawRect fb 0 0 (cInt fb.width.toNat) (cInt fb.height.toNat) color)

/-- The character cells of the console: 80 cells of 8 words in each of 720 lines. -/
def ConsoleFits (fb : Geometry) : Prop :=
  ∀ y c k, y<16*consoleRows → c<consoleCols → k<8 → OnScreen fb ((y*lineWords fb+8*c)%2^32+k)

/-- The geometry suits the primitives. -/
structure Suits (fb : Geometry) : Prop where
  /-- The loop that fills a line ends with it. -/
  words : fb.width.toNat%8=0
  /-- The number of lines is an `int`. -/
  lines : fb.height.toNat<2^31
  /-- Indices of words are computed in 32 bits. -/
  rows : (fb.height.toNat-1)*lineWords fb+fb.width.toNat≤2^32 ∨ lineWords fb∣2^32
  /-- The console has its place. -/
  console : ConsoleFits fb

variable {fb : Geometry} {font : ℕ → ℕ → UInt8} {fg bg color : UInt32} {s : State} {wr : Write}
  {x y w h : ℤ} {row : ℕ}

/-- A line of the framebuffer has room for its pixels, and its words can be counted. -/
theorem Accepted.line (hacc : Accepted fb) :
    fb.width.toNat≤lineWords fb ∧ lineWords fb<2^30 := by
  have hpitch := hacc.pitch
  have hlt := fb.pitch.toNat_lt
  rw [lineWords]
  omega

/-- An index that is computed in 32 bits. -/
theorem cUnsigned_natCast (n : ℕ) : cUnsigned n=n%2^32 := by
  rw [cUnsigned]
  omega

/-- The value of an unsigned word as an `int` is not larger. -/
theorem cInt_le (n : ℕ) : cInt n≤n := by
  have hlt := WindowManager.cInt_lt n
  by_cases hn : n<2^31
  · rw [WindowManager.cInt_of_lt hn]
  · omega

/-- The word of a pixel. -/
def pixelWord (fb : Geometry) (x y : ℕ) : ℕ := (y*lineWords fb+x)%2^32

/-- A clipped pixel is one of the screen. -/
theorem mem_vesaDrawPixel {x y : Int32} (h : wr∈vesaDrawPixel fb x.toInt y.toInt color) :
    ∃ px<fb.width.toNat, ∃ py<fb.height.toNat, wr.1=pixelWord fb px py := by
  have hx := x.toInt_lt
  have hy := y.toInt_lt
  rw [vesaDrawPixel] at h
  split at h
  next => cases h
  next hin =>
    simp only [not_or,not_lt,not_le] at hin
    obtain ⟨hx0,hy0,hxw,hyh⟩ := hin
    obtain ⟨px,hpx⟩ := Int.eq_ofNat_of_zero_le hx0
    obtain ⟨py,hpy⟩ := Int.eq_ofNat_of_zero_le hy0
    rw [List.mem_singleton] at h
    rw [hpx,WindowManager.cUnsigned_of_lt (by omega)] at hxw
    rw [hpy,WindowManager.cUnsigned_of_lt (by omega)] at hyh
    refine ⟨px,hxw,py,hyh,?_⟩
    rw [h,hpx,hpy,pixelWord,←cUnsigned_natCast]
    push_cast
    rfl

/-- A clipped rectangle consists of pixels of the screen. -/
theorem mem_vesaDrawRect (hmem : wr∈vesaDrawRect fb x y w h color) : wr.2=color ∧
    ∃ px<fb.width.toNat, ∃ py<fb.height.toNat, wr.1=pixelWord fb px py := by
  have hwidth := cInt_le fb.width.toNat
  have hheight := cInt_le fb.height.toNat
  rw [vesaDrawRect] at hmem
  split at hmem
  next => cases hmem
  next =>
    dsimp only at hmem
    obtain ⟨py,hpy,hmem⟩ := List.mem_flatMap.mp hmem
    obtain ⟨px,hpx,rfl⟩ := List.mem_map.mp hmem
    rw [List.mem_range] at hpx hpy
    have hlow : ∀ a : ℤ, 0 ≤ if a<0 then 0 else a := fun a => by split <;> omega
    have hclip : ∀ a b : ℤ, (if a<b then a else b)≤a := fun a b => by split <;> omega
    have hx1 := (hclip (cInt fb.width.toNat) (cInt (x+w))).trans hwidth
    have hy1 := (hclip (cInt fb.height.toNat) (cInt (y+h))).trans hheight
    obtain ⟨x0,hx0⟩ := Int.eq_ofNat_of_zero_le (hlow x)
    obtain ⟨y0,hy0⟩ := Int.eq_ofNat_of_zero_le (hlow y)
    rw [hx0] at hpx
    rw [hy0] at hpy
    rw [hx0,hy0]
    refine ⟨rfl,x0+px,by omega,y0+py,by omega,?_⟩
    rw [pixelWord,←cUnsigned_natCast]
    push_cast
    rfl

/-- The largest rectangle consists of all pixels of the screen, if its lines can be
counted. -/
theorem mem_largestRect (hacc : Accepted fb) :
    wr∈vesaDrawRect fb 0 0 (cInt fb.width.toNat) (cInt fb.height.toNat) color ↔
      wr.2=color ∧ fb.height.toNat<2^31 ∧
        ∃ px<fb.width.toNat, ∃ py<fb.height.toNat, wr.1=pixelWord fb px py := by
  have hline := hacc.line
  have hwidth := WindowManager.cInt_of_lt (show fb.width.toNat<2^31 by omega)
  constructor
  · intro h
    obtain ⟨hcolor,hpixel⟩ := mem_vesaDrawRect h
    refine ⟨hcolor,by_contra fun hlarge => ?_,hpixel⟩
    have hneg := WindowManager.cInt_neg (not_lt.mp hlarge) fb.height.toNat_lt
    rw [vesaDrawRect,if_pos (.inr hneg.le)] at h
    cases h
  · rintro ⟨hcolor,hlines,px,hpx,py,hpy,hword⟩
    have hheight := WindowManager.cInt_of_lt hlines
    rw [vesaDrawRect,hwidth,hheight,if_neg (by omega)]
    simp only [lt_irrefl,if_false,Int.zero_add,hwidth,hheight,Int.sub_zero,Int.toNat_natCast]
    refine List.mem_flatMap.mpr ⟨py,List.mem_range.mpr hpy,?_⟩
    refine List.mem_map.mpr ⟨px,List.mem_range.mpr hpx,Prod.ext ?_ hcolor.symm⟩
    rw [hword,pixelWord,←cUnsigned_natCast]
    push_cast
    rfl

/-- Filling the screen goes over whole groups of eight words of each line. -/
theorem mem_vesaFillScreen : wr∈vesaFillScreen fb color ↔ wr.2=color ∧
    ∃ py<fb.height.toNat, ∃ px<8*((fb.width.toNat+7)/8), wr.1=py*lineWords fb%2^32+px := by
  constructor
  · intro h
    obtain ⟨py,hpy,h⟩ := List.mem_flatMap.mp h
    obtain ⟨step,hstep,h⟩ := List.mem_flatMap.mp h
    obtain ⟨k,hk,rfl⟩ := List.mem_map.mp h
    rw [List.mem_range] at hpy hstep hk
    exact ⟨rfl,py,hpy,8*step+k,by omega,rfl⟩
  · rintro ⟨hcolor,py,hpy,px,hpx,hword⟩
    refine List.mem_flatMap.mpr ⟨py,List.mem_range.mpr hpy,?_⟩
    refine List.mem_flatMap.mpr ⟨px/8,List.mem_range.mpr (by omega),?_⟩
    refine List.mem_map.mpr ⟨px%8,List.mem_range.mpr (by omega),Prod.ext ?_ hcolor.symm⟩
    rw [hword,Nat.div_add_mod]

/-- A word of a character cell of the console. -/
def IsCellWord (fb : Geometry) (i : ℕ) : Prop :=
  ∃ y c k, y<16*consoleRows ∧ c<consoleCols ∧ k<8 ∧ i=(y*lineWords fb+8*c)%2^32+k

/-- The words of a character cell. -/
theorem mem_vesaDrawCell (font : ℕ → ℕ → UInt8) (fg bg : UInt32) (x y : ℕ) (c : UInt8) (i : ℕ) :
    (∃ wr∈vesaDrawCell fb font x y c fg bg, wr.1=i) ↔
      ∃ r k, r<16 ∧ k<8 ∧ i=((y+r)*lineWords fb+x)%2^32+k := by
  constructor
  · rintro ⟨wr,h,rfl⟩
    obtain ⟨r,hr,h⟩ := List.mem_flatMap.mp h
    obtain ⟨k,hk,rfl⟩ := List.mem_map.mp h
    refine ⟨r,k,List.mem_range.mp hr,List.mem_range.mp hk,?_⟩
    rw [←cUnsigned_natCast]
    push_cast
    rfl
  · rintro ⟨r,k,hr,hk,rfl⟩
    refine ⟨_,List.mem_flatMap.mpr ⟨r,List.mem_range.mpr hr,
      List.mem_map.mpr ⟨k,List.mem_range.mpr hk,rfl⟩⟩,?_⟩
    rw [←cUnsigned_natCast]
    push_cast
    rfl

/-- Every row of the console consists of words of its cells. -/
theorem renderRow_isCellWord (hrow : row<consoleRows) (h : wr∈renderRow fb font fg bg s row) :
    IsCellWord fb wr.1 := by
  rw [renderRow] at h
  split at h
  next => cases h
  next =>
    obtain ⟨c,hc,h⟩ := List.mem_flatMap.mp h
    rw [List.mem_range] at hc
    obtain ⟨r,k,hr,hk,hword⟩ := (mem_vesaDrawCell font fg bg (c*8) (row*16) _ wr.1).mp
      ⟨wr,by push_cast; exact h,rfl⟩
    refine ⟨row*16+r,c,k,by simp only [consoleRows] at *; omega,hc,hk,?_⟩
    rw [hword,Nat.mul_comm 8 c]

/-- All rows of the console have the words of all cells. -/
theorem mem_renderAll (font : ℕ → ℕ → UInt8) (fg bg : UInt32) (hstart : s.scrollStart=0) {i : ℕ}
    (h : IsCellWord fb i) : ∃ wr∈renderAll fb font fg bg s, wr.1=i := by
  obtain ⟨y,c,k,hy,hc,hk,hword⟩ := h
  have hrow : y/16<consoleRows := Nat.div_lt_of_lt_mul hy
  have hshown : ¬scrollbackRows ≤ absRow s (y/16) := by
    rw [absRow,hstart,Nat.zero_add,not_le]
    exact hrow.trans (by norm_num)
  have hcell : i=((y/16*16+y%16)*lineWords fb+c*8)%2^32+k := by
    rw [hword,Nat.div_add_mod',Nat.mul_comm c]
  obtain ⟨wr,hwr,hi⟩ := (mem_vesaDrawCell font fg bg (c*8) (y/16*16)
    (s.scrollback (cell (absRow s (y/16)) c)) i).mpr ⟨y%16,k,Nat.mod_lt _ (by norm_num),hk,hcell⟩
  refine ⟨wr,List.mem_flatMap.mpr ⟨y/16,List.mem_range.mpr hrow,?_⟩,hi⟩
  rw [renderRow,if_neg hshown]
  refine List.mem_flatMap.mpr ⟨c,List.mem_range.mpr hc,?_⟩
  push_cast at hwr ⊢
  exact hwr

/-- At each byte the console draws words of its cells. -/
theorem putcharDraws_isCellWord {t : Terminal} (h : Shows s t) (c : UInt8)
    (hwr : wr∈putcharDraws fb font fg bg s c) : IsCellWord fb wr.1 := by
  have hrow := (h.step c).cursor.1
  rw [putcharDraws] at hwr
  split at hwr
  next =>
    obtain ⟨r,hr,hwr⟩ := List.mem_flatMap.mp hwr
    exact renderRow_isCellWord (List.mem_range.mp hr) hwr
  next =>
    split at hwr
    next =>
      split at hwr
      next => exact renderRow_isCellWord hrow hwr
      next => cases hwr
    next =>
      split at hwr
      next => exact renderRow_isCellWord hrow hwr
      next => cases hwr

/-- In every run the console draws words of its cells. -/
theorem consoleDraws_isCellWord {t : Terminal} (h : Shows s t) (bytes : List UInt8)
    (hwr : wr∈consoleDraws fb font fg bg s bytes) : IsCellWord fb wr.1 := by
  induction bytes generalizing s t with
  | nil => cases hwr
  | cons c rest ih =>
    rcases List.mem_append.mp hwr with hwr | hwr
    · exact putcharDraws_isCellWord h c hwr
    · exact ih (h.step c) hwr

/-- What the console draws is on the screen in every run exactly when its cells are. -/
theorem consoleDraws_iff : (∀ s bytes fg bg,
    ∀ wr∈consoleDraws fb font fg bg (consoleInit s) bytes, OnScreen fb wr.1) ↔ ConsoleFits fb := by
  constructor
  · intro h y c k hy hc hk
    have hstart := ((consoleInit_shows ⟨fun _ => 0,0,0,0⟩).step 0x0A).start
    obtain ⟨wr,hwr,hi⟩ := mem_renderAll font 0 0 hstart
      ⟨y,c,k,hy,hc,hk,rfl⟩
    rw [←hi]
    exact h ⟨fun _ => 0,0,0,0⟩ [0x0A] 0 0 wr (List.mem_append_left _ hwr)
  · intro h s bytes fg bg wr hwr
    obtain ⟨y,c,k,hy,hc,hk,hword⟩ := consoleDraws_isCellWord (consoleInit_shows s) bytes hwr
    rw [hword]
    exact h y c k hy hc hk

/-- The two ways of filling the screen have the same effect exactly when they write the
same words. -/
theorem effects_iff (hacc : Accepted fb) : (∀ color buf, applyWrites buf (vesaFillScreen fb color)=
    applyWrites buf (vesaDrawRect fb 0 0 (cInt fb.width.toNat) (cInt fb.height.toNat) color)) ↔
    ∀ i, (∃ py<fb.height.toNat, ∃ px<8*((fb.width.toNat+7)/8), i=py*lineWords fb%2^32+px) ↔
      fb.height.toNat<2^31 ∧
        ∃ px<fb.width.toNat, ∃ py<fb.height.toNat, i=pixelWord fb px py := by
  have hsame : ∀ color other : UInt32, other≠color →
      ((∀ buf, applyWrites buf (vesaFillScreen fb color)=
        applyWrites buf (vesaDrawRect fb 0 0 (cInt fb.width.toNat) (cInt fb.height.toNat) color)) ↔
      ∀ i, (∃ py<fb.height.toNat, ∃ px<8*((fb.width.toNat+7)/8), i=py*lineWords fb%2^32+px) ↔
        fb.height.toNat<2^31 ∧
          ∃ px<fb.width.toNat, ∃ py<fb.height.toNat, i=pixelWord fb px py) := by
    intro color other hne
    rw [applyWrites_eq_iff hne (fun wr h => (mem_vesaFillScreen.mp h).1)
      fun wr h => (mem_vesaDrawRect h).1]
    refine forall_congr' fun i => iff_congr ?_ ?_
    · rw [List.mem_map]
      constructor
      · rintro ⟨wr,hwr,rfl⟩
        exact (mem_vesaFillScreen.mp hwr).2
      · exact fun h => ⟨(i,color),mem_vesaFillScreen.mpr ⟨rfl,h⟩,rfl⟩
    · rw [List.mem_map]
      constructor
      · rintro ⟨wr,hwr,rfl⟩
        exact ((mem_largestRect hacc).mp hwr).2
      · exact fun h => ⟨(i,color),(mem_largestRect hacc).mpr ⟨rfl,h⟩,rfl⟩
  constructor
  · exact fun h => (hsame 0 1 (by decide)).mp (h 0)
  · intro h color
    refine (hsame color (color+1) fun heq => ?_).mpr h
    exact absurd heq (by simp)

/-- Filling and drawing the largest rectangle write the same words exactly when lines are
whole groups of eight words, their number is an `int`, and none crosses the last index. -/
theorem sameWords_iff (hwidth : 0<fb.width.toNat) (hheight : 0<fb.height.toNat) :
    (∀ i, (∃ py<fb.height.toNat, ∃ px<8*((fb.width.toNat+7)/8), i=py*lineWords fb%2^32+px) ↔
      fb.height.toNat<2^31 ∧
        ∃ px<fb.width.toNat, ∃ py<fb.height.toNat, i=pixelWord fb px py) ↔
    fb.width.toNat%8=0 ∧ fb.height.toNat<2^31 ∧
      ∀ py<fb.height.toNat, py*lineWords fb%2^32+fb.width.toNat≤2^32 := by
  constructor
  · intro h
    -- The last word of the line that begins last is drawn by some pixel, too.
    obtain ⟨last,hlast,hmax⟩ := Finset.exists_max_image (Finset.range fb.height.toNat)
      (fun py => py*lineWords fb%2^32) ⟨0,Finset.mem_range.mpr hheight⟩
    rw [Finset.mem_range] at hlast
    obtain ⟨hlines,px,hpx,py,hpy,hword⟩ := (h _).mp
      ⟨last,hlast,8*((fb.width.toNat+7)/8)-1,by omega,rfl⟩
    have hle := hmax py (Finset.mem_range.mpr hpy)
    have hmod : pixelWord fb px py≤py*lineWords fb%2^32+px := by
      rw [pixelWord,Nat.add_mod]
      exact (Nat.mod_le _ _).trans (Nat.add_le_add_left (Nat.mod_le _ _) _)
    refine ⟨by omega,hlines,fun line hline => ?_⟩
    obtain ⟨-,px,-,py,-,hword⟩ := (h _).mp ⟨line,hline,fb.width.toNat-1,by omega,rfl⟩
    have hlt := Nat.mod_lt (py*lineWords fb+px) (by norm_num : 0<2^32)
    rw [pixelWord] at hword
    omega
  · rintro ⟨hwords,hlines,hrows⟩ i
    have hgroups : 8*((fb.width.toNat+7)/8)=fb.width.toNat := by omega
    have hword : ∀ px<fb.width.toNat, ∀ py<fb.height.toNat,
        pixelWord fb px py=py*lineWords fb%2^32+px := by
      intro px hpx py hpy
      have hrow := hrows py hpy
      rw [pixelWord,Nat.add_mod,Nat.mod_eq_of_lt (a:=px) (by omega),Nat.mod_eq_of_lt (by omega)]
    rw [hgroups,and_iff_right hlines]
    constructor
    · rintro ⟨py,hpy,px,hpx,rfl⟩
      exact ⟨px,hpx,py,hpy,(hword px hpx py hpy).symm⟩
    · rintro ⟨px,hpx,py,hpy,rfl⟩
      exact ⟨py,hpy,px,hpx,hword px hpx py hpy⟩

/-- For every accepted geometry, drawing stays on the screen and filling the screen is
drawing the largest rectangle exactly when the geometry suits the primitives. -/
theorem drawsOnScreen_iff (hacc : Accepted fb) (font : ℕ → ℕ → UInt8) :
    DrawsOnScreen fb font ↔ Suits fb := by
  obtain ⟨hline,hlt⟩ := hacc.line
  rw [DrawsOnScreen,consoleDraws_iff,effects_iff hacc]
  constructor
  · rintro ⟨-,-,hfill,hconsole,hsame⟩
    obtain ⟨x,y,hx,hy,-⟩ := hconsole 0 0 0 (by norm_num) (by norm_num) (by norm_num)
    obtain ⟨hwords,hlines,hends⟩ := (sameWords_iff (by omega) (by omega)).mp hsame
    have hkeeps : KeepsRows (2^32) (lineWords fb) fb.width.toNat fb.height.toNat := by
      refine fun py hpy => ⟨hends py hpy,fun px hpx => ?_⟩
      have hword := hfill 0 (py*lineWords fb%2^32+px,0)
        (mem_vesaFillScreen.mpr ⟨rfl,py,hpy,px,by omega,rfl⟩)
      exact ((onGrid_iff hline).mp hword).1
    exact ⟨hwords,hlines,hkeeps.end_or_dvd (by omega) hline (by omega),hconsole⟩
  · rintro ⟨hwords,hlines,hrows,hconsole⟩
    obtain ⟨x,y,hx,hy,-⟩ := hconsole 0 0 0 (by norm_num) (by norm_num) (by norm_num)
    have hkeeps : KeepsRows (2^32) (lineWords fb) fb.width.toNat fb.height.toNat :=
      hrows.elim (keepsRows_of_le hline) (keepsRows_of_dvd (by norm_num) hline)
    have hword : ∀ px<fb.width.toNat, ∀ py<fb.height.toNat,
        OnScreen fb (py*lineWords fb%2^32+px) := fun px hpx py hpy =>
      (onGrid_iff hline).mpr ⟨(hkeeps py hpy).2 px hpx,wrapped_row hline hpx hpy⟩
    have hsame := (sameWords_iff (by omega) (by omega)).mpr
      ⟨hwords,hlines,fun py hpy => (hkeeps py hpy).1⟩
    have hpixel : ∀ px<fb.width.toNat, ∀ py<fb.height.toNat, OnScreen fb (pixelWord fb px py) := by
      intro px hpx py hpy
      obtain ⟨py',hpy',px',hpx',heq⟩ := (hsame _).mpr ⟨hlines,px,hpx,py,hpy,rfl⟩
      rw [heq]
      exact hword px' (by omega) py' hpy'
    refine ⟨fun x y color wr hwr => ?_,fun x y w h color wr hwr => ?_,fun color wr hwr => ?_,
      hconsole,hsame⟩
    · obtain ⟨px,hpx,py,hpy,heq⟩ := mem_vesaDrawPixel hwr
      exact heq ▸ hpixel px hpx py hpy
    · obtain ⟨-,px,hpx,py,hpy,heq⟩ := mem_vesaDrawRect hwr
      exact heq ▸ hpixel px hpx py hpy
    · obtain ⟨-,py,hpy,px,hpx,heq⟩ := mem_vesaFillScreen.mp hwr
      exact heq ▸ hword px (by omega) py hpy

/-- Where the lines of the console do not reach the last index, the console has its place
on a screen of 640 columns and 720 lines, or on narrower lines without gaps that are
as many words in all. -/
theorem consoleFits_iff (hacc : Accepted fb) (hsmall : 719*lineWords fb+640≤2^32) :
    ConsoleFits fb ↔ (640≤fb.width.toNat ∧ 720≤fb.height.toNat) ∨
      (fb.width.toNat=lineWords fb ∧ 719*lineWords fb+640≤fb.height.toNat*lineWords fb) := by
  obtain ⟨hline,-⟩ := hacc.line
  have hword : ∀ y c k, y<720 → c<80 → k<8 →
      (y*lineWords fb+8*c)%2^32+k=y*lineWords fb+(8*c+k) := by
    intro y c k hy hc hk
    have hle : y*lineWords fb≤719*lineWords fb := Nat.mul_le_mul_right _ (by omega)
    rw [Nat.mod_eq_of_lt (by omega),Nat.add_assoc]
  constructor
  · intro h
    have hplace : ∀ y px, y<720 → px<640 → OnScreen fb (y*lineWords fb+px) := by
      intro y px hy hpx
      have hcell := h y (px/8) (px%8) hy (Nat.div_lt_of_lt_mul hpx) (Nat.mod_lt _ (by norm_num))
      rwa [hword y _ _ hy (Nat.div_lt_of_lt_mul hpx) (Nat.mod_lt _ (by norm_num)),
        Nat.div_add_mod] at hcell
    obtain ⟨x,y,hx,hy,-⟩ := hplace 0 0 (by norm_num) (by norm_num)
    by_cases hwide : 640≤lineWords fb
    · left
      have hcol := ((onGrid_iff hline).mp (hplace 0 639 (by norm_num) (by norm_num))).1
      have hrow := ((onGrid_iff hline).mp (hplace 719 0 (by norm_num) (by norm_num))).2
      rw [Nat.zero_mul,Nat.zero_add,Nat.mod_eq_of_lt (by omega)] at hcol
      rw [Nat.add_zero,Nat.mul_div_cancel _ (by omega)] at hrow
      exact ⟨hcol,hrow⟩
    · right
      have hcol := ((onGrid_iff hline).mp
        (hplace 0 (lineWords fb-1) (by norm_num) (by omega))).1
      have hrow := ((onGrid_iff hline).mp (hplace 719 639 (by norm_num) (by norm_num))).2
      rw [Nat.zero_mul,Nat.zero_add,Nat.mod_eq_of_lt (by omega)] at hcol
      rw [Nat.div_lt_iff_lt_mul (by omega)] at hrow
      exact ⟨by omega,hrow⟩
  · intro h y c k hy hc hk
    rw [hword y c k hy hc hk]
    rcases h with ⟨hwidth,hheight⟩ | ⟨hwidth,hend⟩
    · exact ⟨8*c+k,y,by simp only [consoleCols] at hc; omega,hy.trans_le hheight,rfl⟩
    · have hle : y*lineWords fb≤719*lineWords fb :=
        Nat.mul_le_mul_right _ (by simp only [consoleRows] at hy; omega)
      have hpos : 0<lineWords fb := by
        refine Nat.pos_of_ne_zero fun h0 => ?_
        rw [h0] at hend
        omega
      refine (onGrid_iff hline).mpr ⟨?_,(Nat.div_lt_iff_lt_mul hpos).mpr ?_⟩
      · rw [hwidth]
        exact Nat.mod_lt _ hpos
      · simp only [consoleCols] at hc
        omega

/-- A font without dots. -/
def emptyFont : ℕ → ℕ → UInt8 := fun _ _ => 0

/-- A screen of 1366 columns and 768 lines without gaps. -/
def wideScreen : Geometry := ⟨0xFD000000,5464,1366,768,32⟩

/-- A screen of 800 columns and 600 lines without gaps. -/
def smallScreen : Geometry := ⟨0xFD000000,3200,800,600,32⟩

/-- The wide screen is accepted. -/
theorem wideScreen_accepted : Accepted wideScreen := ⟨by decide,rfl,by decide⟩

/-- The condition decides about the wide screen. -/
theorem wideScreen_iff : DrawsOnScreen wideScreen emptyFont ↔ Suits wideScreen :=
  drawsOnScreen_iff wideScreen_accepted emptyFont

/-- Filling the wide screen writes two words behind its last line, and the console writes
behind the last line of the small screen. -/
theorem wideScreen_leaves : Accepted wideScreen ∧ ¬DrawsOnScreen wideScreen emptyFont ∧
    Accepted smallScreen ∧ ¬DrawsOnScreen smallScreen emptyFont := by
  have hlines : ∀ {stride h i : ℕ}, OnGrid stride stride h i → i<h*stride := by
    rintro stride h i ⟨x,y,hx,hy,rfl⟩
    have hle : (y+1)*stride≤h*stride := Nat.mul_le_mul_right stride hy
    rw [Nat.add_mul,Nat.one_mul] at hle
    omega
  refine ⟨wideScreen_accepted,fun h => ?_,⟨by decide,rfl,by decide⟩,fun h => ?_⟩
  · have hword : (767*1366+1367,0)∈vesaFillScreen wideScreen 0 :=
      mem_vesaFillScreen.mpr ⟨rfl,767,by decide,1367,by decide,by decide⟩
    exact absurd (hlines (h.2.2.1 0 _ hword)) (by decide)
  · have hcell := consoleDraws_iff.mp h.2.2.2.1 704 0 0 (by decide) (by decide) (by decide)
    exact absurd (hlines hcell) (by decide)

end OvsbMk.Drawing
