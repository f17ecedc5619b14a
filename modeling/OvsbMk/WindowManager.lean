import OvsbMk.AllocationSizes
import OvsbMk.Framebuffer

/-!
# The back buffer of the window manager

Pixels are drawn into a back buffer and copied to the framebuffer. The drawing library
finds a pixel with the stride of the framebuffer, the window manager with the width of the
screen, and the buffer is allocated for the width.
-/

namespace OvsbMk.WindowManager

open ByteMemory KernelMemory
open Framebuffer (Geometry)

/-- The colour of the back buffer at the start. -/
abbrev background : UInt32 := 0xFF1A1A2E

/-- Value of an `int`; where the source overflows, it wraps around. -/
def cInt (n : ℤ) : ℤ := n.bmod (2^32)

/-- Value of an unsigned word. -/
def cUnsigned (n : ℤ) : ℕ := (n%2^32).toNat

/-- The window manager. -/
structure Wm where
  /-- Address of the back buffer. -/
  backbuf : ℕ
  /-- Words from the start of the back buffer on. -/
  pixels : ℕ → UInt32
  /-- Address of the framebuffer. -/
  framebuf : ℕ
  /-- Words from the start of the framebuffer on. -/
  screen : ℤ → UInt32
  /-- Pixels of a line. -/
  scrW : ℤ
  /-- Lines. -/
  scrH : ℤ
  /-- Words of a line of the framebuffer. -/
  stride : ℤ

/-- Fill words with the background. -/
def fillPixels (pixels : ℕ → UInt32) : ℕ → ℕ → UInt32
  | 0 => pixels
  | i+1 => Function.update (fillPixels pixels i) i background

/-- Words that the start fills. -/
def fillCount (w h : ℤ) : ℕ := (cInt (w*h)).toNat

/-- Bytes that the start allocates. -/
def bufferSize (w h : ℤ) : ℕ := (w*h*4%2^64).toNat

/-- Start with a back buffer, when there is memory for one. -/
def wmInit (L : Layout) (m : Bytes) (pixels : ℕ → UInt32) (screen : ℤ → UInt32) (fb : ℕ)
    (w h st : ℤ) : Option Wm :=
  (kmalloc L m (bufferSize w h)).map fun r =>
    { backbuf := r.1
      pixels := if r.1=0 then pixels else fillPixels pixels (fillCount w h)
      framebuf := fb
      screen := screen
      scrW := w
      scrH := h
      stride := st }

/-- The word of the back buffer that a drawn pixel goes to, if any. -/
def drawIndex (wm : Wm) (x y : ℤ) : Option ℕ :=
  if wm.backbuf=0 then none
  else if x<0 ∨ y<0 ∨ wm.scrW≤x ∨ wm.scrH≤y then none
  else some (cUnsigned (y*wm.stride+x))

/-- A call to draw a pixel. -/
structure Draw where
  /-- The column. -/
  x : ℤ
  /-- The line. -/
  y : ℤ
  /-- The colour. -/
  color : UInt32

/-- Draw a pixel. -/
def owtDrawPixel (wm : Wm) (d : Draw) : Wm :=
  match drawIndex wm d.x d.y with
  | none => wm
  | some i => { wm with pixels := Function.update wm.pixels i d.color }

/-- The word of the back buffer that is shown at a place. -/
def readIndex (wm : Wm) (x y : ℤ) : ℕ := cUnsigned (y*wm.scrW+x)

/-- Copy pixels of a line. -/
def flushLine (wm : Wm) (y : ℕ) (screen : ℤ → UInt32) : ℕ → ℤ → UInt32
  | 0 => screen
  | x+1 => Function.update (flushLine wm y screen x) (cInt (y*wm.stride+x)) (wm.pixels (readIndex wm x y))

/-- Copy lines. -/
def flushLines (wm : Wm) (screen : ℤ → UInt32) : ℕ → ℤ → UInt32
  | 0 => screen
  | y+1 => flushLine wm y (flushLines wm screen y) wm.scrW.toNat

/-- Copy the back buffer to the framebuffer. -/
def wmFlush (wm : Wm) : Wm :=
  if wm.backbuf=0 ∨ wm.framebuf=0 then wm
  else { wm with screen := flushLines wm wm.screen wm.scrH.toNat }

/-- Words of a line of the framebuffer. -/
def lineWords (fb : Geometry) : ℕ := fb.pitch.toNat/4

/-- The window manager as the kernel starts it. -/
def kmainWm (L : Layout) (m : Bytes) (pixels : ℕ → UInt32) (screen : ℤ → UInt32) (fb : Geometry) :
    Option Wm :=
  wmInit L m pixels screen fb.addr.toNat (cInt fb.width.toNat) (cInt fb.height.toNat)
    (cInt (lineWords fb))

/-- The colour last drawn at a place. -/
def lastDrawn (draws : List Draw) (x y : ℕ) : UInt32 :=
  draws.foldl (fun c d => if (x : ℤ)=d.x ∧ (y : ℤ)=d.y then d.color else c) background

/-- A word of the back buffer that the start, a call to draw, or the copying accesses. -/
inductive Accessed (wm : Wm) (draws : List Draw) (i : ℕ) : Prop
  /-- Filled at the start. -/
  | fill (hbuf : wm.backbuf≠0) (hi : i<fillCount wm.scrW wm.scrH)
  /-- Drawn. -/
  | draw (d : Draw) (hd : d∈draws) (hi : drawIndex wm d.x d.y=some i)
  /-- Shown. -/
  | flush (x y : ℕ) (hbuf : wm.backbuf≠0) (hfb : wm.framebuf≠0) (hx : x<wm.scrW) (hy : y<wm.scrH)
    (hi : readIndex wm x y=i)

/-- What is drawn is what is shown, and all accesses stay inside the back buffer. -/
def ShowsDrawn (fb : Geometry) (wm : Wm) : Prop :=
  ∀ draws : List Draw,
    (∀ i, Accessed wm draws i → i<fb.width.toNat*fb.height.toNat) ∧
    ∀ x y : ℕ, x<fb.width.toNat → y<fb.height.toNat →
      (wmFlush (draws.foldl owtDrawPixel wm)).screen (y*lineWords fb+x)=lastDrawn draws x y

variable {L : Layout} {m m' : Bytes} {pixels : ℕ → UInt32} {screen : ℤ → UInt32} {fb : Geometry}
  {wm : Wm} {w h st : ℕ}

/-- Small values stay what they are. -/
theorem cInt_of_lt {n : ℕ} (hn : n<2^31) : cInt n=n :=
  Int.bmod_eq_of_le (by omega) (by omega)

/-- All values are below the bound of the type. -/
theorem cInt_lt (n : ℤ) : cInt n<2^31 := by
  have hlt := Int.bmod_lt (x:=n) (m:=2^32) (by norm_num)
  simp only [cInt]
  omega

/-- Values above the bound of the type become negative. -/
theorem cInt_neg {n : ℕ} (h1 : 2^31≤n) (h2 : n<2^32) : cInt n<0 := by
  have hmod : (n : ℤ)%(2^32 : ℕ)=n := Int.emod_eq_of_lt (by omega) (by omega)
  rw [cInt,Int.bmod_def,hmod]
  split_ifs <;> omega

/-- Small values stay what they are. -/
theorem cUnsigned_of_lt {n : ℕ} (hn : n<2^32) : cUnsigned n=n := by
  simp only [cUnsigned]
  omega

/-- Filling writes the first words. -/
theorem fillPixels_apply (pixels : ℕ → UInt32) (count i : ℕ) :
    fillPixels pixels count i=if i<count then background else pixels i := by
  induction count with
  | zero => rfl
  | succ count ih =>
    rw [fillPixels,Function.update_apply,ih]
    split_ifs <;> first | rfl | omega

/-- Places of the screen lie inside it. -/
theorem place_lt {x y : ℕ} (hx : x<w) (hy : y<h) : y*w+x<w*h :=
  calc y*w+x<y*w+w := by omega
    _=w*(y+1) := by ring
    _≤w*h := Nat.mul_le_mul_left w hy

/-- Places of the screen are apart. -/
theorem place_inj {x y x' y' : ℕ} (hx : x<st) (hx' : x'<st) (he : y*st+x=y'*st+x') :
    x=x' ∧ y=y' := by
  have hpos : 0<st := by omega
  have hmod := congrArg (·%st) he
  have hdiv := congrArg (·/st) he
  simp only [Nat.mul_add_mod',Nat.mod_eq_of_lt hx,Nat.mod_eq_of_lt hx'] at hmod
  simp only [Nat.add_div_of_dvd_right (Dvd.intro_left _ rfl),Nat.mul_div_cancel _ hpos,
    Nat.div_eq_of_lt hx,Nat.div_eq_of_lt hx',Nat.add_zero] at hdiv
  exact ⟨hmod,hdiv⟩

/-- Copying a line writes its pixels. -/
theorem flushLine_in (y : ℕ) (screen : ℤ → UInt32) {count x : ℕ}
    (hidx : ∀ x, x<count → cInt (y*wm.stride+x)=y*wm.stride+x) (hx : x<count) :
    flushLine wm y screen count (y*wm.stride+x)=wm.pixels (readIndex wm x y) := by
  induction count with
  | zero => omega
  | succ count ih =>
    rw [flushLine,Function.update_apply,hidx count (by omega)]
    by_cases he : x=count
    · rw [he,if_pos rfl]
    · rw [if_neg (by omega)]
      exact ih (fun x hx => hidx x (by omega)) (by omega)

/-- Copying a line writes nothing else. -/
theorem flushLine_out (y : ℕ) (screen : ℤ → UInt32) {count : ℕ} {z : ℤ}
    (hz : ∀ x, x<count → cInt (y*wm.stride+(x : ℕ))≠z) : flushLine wm y screen count z=screen z := by
  induction count with
  | zero => rfl
  | succ count ih =>
    rw [flushLine,Function.update_apply,if_neg fun he => hz count (by omega) he.symm]
    exact ih fun x hx => hz x (by omega)

/-- Words that no line can reach are not written. -/
theorem flushLines_high (screen : ℤ → UInt32) (rows : ℕ) {z : ℤ} (hz : 2^31≤z) :
    flushLines wm screen rows z=screen z := by
  induction rows with
  | zero => rfl
  | succ rows ih =>
    rw [flushLines,flushLine_out _ _ fun x _ => ?_]
    · exact ih
    · have hlt := cInt_lt (rows*wm.stride+(x : ℕ))
      omega

/-- Copying writes every pixel of the screen. -/
theorem flushLines_in (screen : ℤ → UInt32) {rows x y : ℕ} (hw : wm.scrW=w) (hst : wm.stride=st)
    (hle : w ≤ st) (hidx : ∀ x y, x<w → y<rows → y*st+x<2^31) (hx : x<w) (hy : y<rows) :
    flushLines wm screen rows (y*st+x)=wm.pixels (readIndex wm x y) := by
  have hplace : ∀ {x y : ℕ}, x<w → y<rows → cInt (y*wm.stride+x)=(y*st+x : ℕ) := by
    intro x y hx hy
    rw [hst,← cInt_of_lt (hidx x y hx hy)]
    push_cast
    rfl
  induction rows with
  | zero => omega
  | succ rows ih =>
    rw [flushLines,hw,Int.toNat_natCast]
    by_cases he : y=rows
    · subst he
      rw [← hst]
      refine flushLine_in y _ (fun x hx => ?_) hx
      rw [hplace hx (by omega),hst]
      push_cast
      rfl
    · rw [flushLine_out _ _ fun x' hx' => ?_]
      · exact ih (fun x y hx hy => hidx x y hx (by omega)) (by omega) fun hx hy => hplace hx (by omega)
      · rw [hplace hx' (by omega)]
        intro heq
        have hnat : rows*st+x'=y*st+x := by exact_mod_cast heq
        exact he (place_inj (by omega) (by omega) hnat).2.symm

/-- Drawing changes pixels only. -/
theorem owtDrawPixel_fields (wm : Wm) (d : Draw) :
    owtDrawPixel wm d={ wm with pixels := (owtDrawPixel wm d).pixels } := by
  rw [owtDrawPixel]
  cases drawIndex wm d.x d.y <;> rfl

/-- Drawing any number of pixels changes pixels only. -/
theorem draws_fields (wm : Wm) (draws : List Draw) :
    draws.foldl owtDrawPixel wm={ wm with pixels := (draws.foldl owtDrawPixel wm).pixels } := by
  induction draws generalizing wm with
  | nil => rfl
  | cons d draws ih =>
    have hd := owtDrawPixel_fields wm d
    rw [List.foldl_cons,ih]
    rw [hd]

/-- Where a drawn pixel goes when the lines of the back buffer are as long as the screen
is wide, or there is one line only. -/
theorem drawIndex_eq (hbuf : wm.backbuf≠0) (hw : wm.scrW=w) (hh : wm.scrH=h) (hst : wm.stride=st)
    (hline : st=w ∨ h=1) (hsmall : w*h<2^32) (x y : ℤ) :
    (∃ x' y' : ℕ, x=x' ∧ y=y' ∧ x'<w ∧ y'<h ∧ drawIndex wm x y=some (y'*w+x')) ∨
      (∀ x' y' : ℕ, x'<w → y'<h → ¬((x' : ℤ)=x ∧ (y' : ℤ)=y)) ∧ drawIndex wm x y=none := by
  rw [drawIndex,if_neg hbuf,hw,hh,hst]
  by_cases hout : x<0 ∨ y<0 ∨ w≤x ∨ h≤y
  · refine Or.inr ⟨fun x' y' hx' hy' he => ?_,if_pos hout⟩
    omega
  · rw [not_or,not_or,not_or] at hout
    obtain ⟨x',rfl⟩ := Int.eq_ofNat_of_zero_le (a:=x) (by omega)
    obtain ⟨y',rfl⟩ := Int.eq_ofNat_of_zero_le (a:=y) (by omega)
    have hx' : x'<w := by omega
    have hy' : y'<h := by omega
    refine Or.inl ⟨x',y',rfl,rfl,hx',hy',?_⟩
    have hlt := place_lt hx' hy'
    have hplace : y'*st+x'=y'*w+x' := by
      rcases hline with rfl | rfl
      · rfl
      · obtain rfl : y'=0 := by omega
        simp
    rw [if_neg (by omega),← hplace,← cUnsigned_of_lt (n:=y'*st+x') (by omega)]
    push_cast
    rfl

/-- The back buffer holds the colours last drawn. -/
theorem draws_pixels (hbuf : wm.backbuf≠0) (hw : wm.scrW=w) (hh : wm.scrH=h) (hst : wm.stride=st)
    (hline : st=w ∨ h=1) (hsmall : w*h<2^32) {x y : ℕ} (hx : x<w) (hy : y<h) (draws : List Draw) :
    (draws.foldl owtDrawPixel wm).pixels (y*w+x)=
      draws.foldl (fun c d => if (x : ℤ)=d.x ∧ (y : ℤ)=d.y then d.color else c)
        (wm.pixels (y*w+x)) := by
  induction draws generalizing wm with
  | nil => rfl
  | cons d draws ih =>
    have hd := owtDrawPixel_fields wm d
    have hpix : (owtDrawPixel wm d).pixels (y*w+x)=
        if (x : ℤ)=d.x ∧ (y : ℤ)=d.y then d.color else wm.pixels (y*w+x) := by
      rw [owtDrawPixel]
      rcases drawIndex_eq hbuf hw hh hst hline hsmall d.x d.y with
        ⟨x',y',hx',hy',hxw,_,hi⟩ | ⟨hout,hi⟩
      · rw [hi]
        simp only [Function.update_apply,hx',hy']
        by_cases he : (x : ℤ)=x' ∧ (y : ℤ)=y'
        · rw [if_pos he,if_pos (by rw [Int.ofNat_inj.mp he.1,Int.ofNat_inj.mp he.2])]
        · rw [if_neg he,if_neg fun heq => he ?_]
          obtain ⟨h1,h2⟩ := place_inj hx hxw heq
          exact ⟨congrArg _ h1,congrArg _ h2⟩
      · rw [hi,if_neg (hout x y hx hy)]
    rw [List.foldl_cons,List.foldl_cons,ih (by rw [hd]; exact hbuf) (by rw [hd]; exact hw)
      (by rw [hd]; exact hh) (by rw [hd]; exact hst),hpix]

/-- A request that kernel memory serves fits into the heap. -/
theorem kmalloc_le {size p : ℕ} (hsize : size≤2^64-4096) (hcall : kmalloc L m size=some (p,m'))
    (hp : p≠0) : size≤heapSize := by
  rcases Nat.lt_or_ge size 2048 with hsmall | hlarge
  · exact (le_of_lt hsmall).trans (by norm_num)
  · rw [BuddyRuns.kmalloc_large hlarge] at hcall
    have hp' : (buddyAlloc L m (orderFor (pagesFor size) 64 0) false).1≠0 := by
      rw [Option.some.inj hcall]
      exact hp
    have ho := AllocationSizes.buddyAlloc_order hp'
    have hle := AllocationSizes.orderFor_size hsize ho
    have hpow : 2^orderFor (pagesFor size) 64 0≤2^14 := Nat.pow_le_pow_right (by norm_num) ho
    simp only [frameSize,heapSize] at hle ⊢
    omega

/-- The window manager after the start. -/
structure Started (L : Layout) (m : Bytes) (fb : Geometry) (wm : Wm) : Prop where
  /-- The framebuffer is at its address. -/
  framebuf : wm.framebuf=fb.addr.toNat
  /-- The width, as a value with a sign. -/
  scrW : wm.scrW=cInt fb.width.toNat
  /-- The height, as a value with a sign. -/
  scrH : wm.scrH=cInt fb.height.toNat
  /-- The stride is that of the framebuffer. -/
  stride : wm.stride=lineWords fb
  /-- The back buffer is what kernel memory has given. -/
  backbuf : ∃ m', kmalloc L m (bufferSize wm.scrW wm.scrH)=some (wm.backbuf,m')
  /-- It holds the background. -/
  filled : wm.backbuf≠0 → ∀ i, i<fillCount wm.scrW wm.scrH → wm.pixels i=background

/-- What the kernel starts. -/
theorem kmainWm_started (h : kmainWm L m pixels screen fb=some wm) : Started L m fb wm := by
  rw [kmainWm,wmInit] at h
  obtain ⟨⟨p,m'⟩,hk,hwm⟩ := Option.map_eq_some_iff.mp h
  subst hwm
  have hstride : cInt (lineWords fb)=lineWords fb := by
    have hpitch := fb.pitch.toNat_lt
    exact cInt_of_lt (by simp only [lineWords]; omega)
  constructor <;> dsimp only
  · exact hstride
  · exact ⟨m',hk⟩
  · intro hp i hi
    rw [if_neg hp,fillPixels_apply,if_pos hi]

/-- A screen that the back buffer holds. -/
theorem Started.small (h : Started L m fb wm) (hbuf : wm.backbuf≠0)
    (hpitch : fb.width.toNat≤lineWords fb) (hheight : fb.height.toNat<2^31) :
    wm.scrW=fb.width.toNat ∧ wm.scrH=fb.height.toNat ∧
      fb.width.toNat*fb.height.toNat≤2^24 ∧
      fillCount wm.scrW wm.scrH=fb.width.toNat*fb.height.toNat := by
  have hp := fb.pitch.toNat_lt
  have hwidth : fb.width.toNat<2^30 := by
    simp only [lineWords] at hpitch
    omega
  have hw : wm.scrW=fb.width.toNat := h.scrW.trans (cInt_of_lt (by omega))
  have hh : wm.scrH=fb.height.toNat := h.scrH.trans (cInt_of_lt hheight)
  have hmul : fb.width.toNat*fb.height.toNat≤2^30*2^31 :=
    Nat.mul_le_mul hwidth.le hheight.le
  have hsize : bufferSize wm.scrW wm.scrH=fb.width.toNat*fb.height.toNat*4 := by
    rw [bufferSize,hw,hh]
    omega
  obtain ⟨m',hcall⟩ := h.backbuf
  rw [hsize] at hcall
  have hle := kmalloc_le (by omega) hcall hbuf
  simp only [heapSize] at hle
  have hsmall : fb.width.toNat*fb.height.toNat≤2^24 := by omega
  refine ⟨hw,hh,hsmall,?_⟩
  rw [fillCount,hw,hh,← Nat.cast_mul,cInt_of_lt (by omega),Int.toNat_natCast]

/-- Every colour has another. -/
theorem exists_other (c : UInt32) : ∃ d : UInt32, d≠c := by
  by_cases h : c=0
  · exact ⟨1,by rw [h]; decide⟩
  · exact ⟨0,fun he => h he.symm⟩

/-- Copying shows the words of the back buffer. -/
theorem wmFlush_shown (hbuf : wm.backbuf≠0) (hfb : wm.framebuf≠0) (hw : wm.scrW=w) (hh : wm.scrH=h)
    (hst : wm.stride=st) (hle : w ≤ st) (hidx : ∀ x y, x<w → y<h → y*st+x<2^31) {x y : ℕ} (hx : x<w)
    (hy : y<h) : (wmFlush wm).screen (y*st+x)=wm.pixels (readIndex wm x y) := by
  rw [wmFlush,if_neg (not_or.mpr ⟨hbuf,hfb⟩),hh,Int.toNat_natCast]
  exact flushLines_in _ hw hst hle hidx hx hy

/-- One drawn pixel is the last drawn at its place. -/
theorem lastDrawn_single (x y : ℕ) (c : UInt32) : lastDrawn [⟨x,y,c⟩] x y=c := by
  simp [lastDrawn]

/-- Pixels of a screen that is never copied are not shown. -/
theorem not_shown {z x y : ℕ} (hx : x<fb.width.toNat) (hy : y<fb.height.toNat)
    (hz : y*lineWords fb+x=z)
    (h : ∀ draws : List Draw, (wmFlush (draws.foldl owtDrawPixel wm)).screen z=wm.screen z) :
    ¬ShowsDrawn fb wm := by
  intro hshows
  obtain ⟨c,hc⟩ := exists_other (wm.screen z)
  have hshown := (hshows [⟨x,y,c⟩]).2 x y hx hy
  have hplace : (y : ℤ)*lineWords fb+x=z := by exact_mod_cast hz
  rw [hplace,h,lastDrawn_single] at hshown
  exact hc hshown.symm

/-- Without a back buffer nothing is shown. -/
theorem not_shown_null (hx : 0<fb.width.toNat) (hy : 0<fb.height.toNat) (hbuf : wm.backbuf=0) :
    ¬ShowsDrawn fb wm := by
  refine not_shown (z:=0) hx hy (by simp) fun draws => ?_
  rw [draws_fields,wmFlush,if_pos (Or.inl hbuf)]

/-- With a height that has become negative nothing is shown. -/
theorem not_shown_tall (h : Started L m fb wm) (hx : 0<fb.width.toNat)
    (hy : 2^31≤fb.height.toNat) : ¬ShowsDrawn fb wm := by
  have hneg : wm.scrH.toNat=0 := by
    have hlt := cInt_neg hy fb.height.toNat_lt
    rw [h.scrH]
    omega
  refine not_shown (z:=0) (x:=0) (y:=0) hx (by omega) (by simp) fun draws => ?_
  rw [draws_fields,wmFlush]
  simp only [hneg]
  split_ifs <;> rfl

/-- When the lines of the framebuffer are longer than the screen is wide, the first pixel of
the second line is not shown where it is drawn. -/
theorem not_shown_stride (h : Started L m fb wm) (haddr : fb.addr≠0) (hbuf : wm.backbuf≠0)
    (hpitch : fb.width.toNat<lineWords fb) (hw0 : 0<fb.width.toNat) (hh1 : 1<fb.height.toNat)
    (hheight : fb.height.toNat<2^31) : ¬ShowsDrawn fb wm := by
  obtain ⟨hw,hh,hsmall,hcount⟩ := h.small hbuf hpitch.le hheight
  by_cases hfar : ∃ x y, x<fb.width.toNat ∧ y<fb.height.toNat ∧ 2^31≤y*lineWords fb+x
  · obtain ⟨x,y,hx,hy,hz⟩ := hfar
    refine not_shown hx hy rfl fun draws => ?_
    rw [draws_fields,wmFlush]
    split_ifs
    · rfl
    · exact flushLines_high _ _ (by exact_mod_cast hz)
  · intro hshows
    obtain ⟨c,hc⟩ := exists_other background
    have hshown := (hshows [⟨(0 : ℕ),(1 : ℕ),c⟩]).2 0 1 hw0 hh1
    have hfb : wm.framebuf≠0 := by
      rw [h.framebuf]
      exact fun he => haddr (UInt64.toNat_inj.mp he)
    have hnear : ∀ x y, x<fb.width.toNat → y<fb.height.toNat → y*lineWords fb+x<2^31 :=
      fun x y hx hy => Nat.lt_of_not_le fun hz => hfar ⟨x,y,hx,hy,hz⟩
    have hwords : lineWords fb<2^31 := by
      have hone := hnear 0 1 hw0 hh1
      omega
    have hrow : fb.width.toNat<fb.width.toNat*fb.height.toNat := by
      have hmul : fb.width.toNat*2≤fb.width.toNat*fb.height.toNat := Nat.mul_le_mul_left _ hh1
      omega
    have hread : readIndex wm (0 : ℕ) (1 : ℕ)=fb.width.toNat := by
      rw [readIndex,hw,Nat.cast_one,one_mul,Nat.cast_zero,add_zero]
      exact cUnsigned_of_lt (by omega)
    have hdraw : drawIndex wm (0 : ℕ) (1 : ℕ)=some (lineWords fb) := by
      rw [drawIndex,if_neg hbuf,hw,hh,if_neg (by omega),h.stride,Nat.cast_one,one_mul,Nat.cast_zero,
        add_zero,cUnsigned_of_lt (by omega)]
    rw [lastDrawn_single,List.foldl_cons,List.foldl_nil,owtDrawPixel,hdraw] at hshown
    have hflush : (wmFlush { wm with pixels := Function.update wm.pixels (lineWords fb) c }).screen
        ((1 : ℕ)*lineWords fb+(0 : ℕ))=Function.update wm.pixels (lineWords fb) c (readIndex wm (0 : ℕ) (1 : ℕ)) := by
      refine wmFlush_shown ?_ ?_ ?_ ?_ ?_ hpitch.le hnear hw0 hh1
      · exact hbuf
      · exact hfb
      · exact hw
      · exact hh
      · exact h.stride
    rw [hread,Function.update_of_ne (by omega),
      h.filled hbuf fb.width.toNat (by rw [hcount]; exact hrow)] at hflush
    exact hc (hshown.symm.trans hflush)

/-- What is drawn is shown when the lines of the back buffer and of the framebuffer are
equally long. -/
theorem shown (h : Started L m fb wm) (haddr : fb.addr≠0) (hbuf : wm.backbuf≠0)
    (hpitch : fb.width.toNat≤lineWords fb) (hheight : fb.height.toNat<2^31)
    (hline : lineWords fb=fb.width.toNat ∨ fb.height.toNat=1) : ShowsDrawn fb wm := by
  obtain ⟨hw,hh,hsmall,hcount⟩ := h.small hbuf hpitch hheight
  have hfb : wm.framebuf≠0 := by
    rw [h.framebuf]
    exact fun he => haddr (UInt64.toNat_inj.mp he)
  have hplace : ∀ {x y : ℕ}, x<fb.width.toNat → y<fb.height.toNat →
      y*lineWords fb+x=y*fb.width.toNat+x := by
    intro x y hx hy
    rcases hline with he | he
    · rw [he]
    · obtain rfl : y=0 := by omega
      simp
  have hread : ∀ {x y : ℕ}, x<fb.width.toNat → y<fb.height.toNat →
      readIndex wm x y=y*fb.width.toNat+x := by
    intro x y hx hy
    have hlt := place_lt hx hy
    rw [readIndex,hw]
    exact_mod_cast cUnsigned_of_lt (n:=y*fb.width.toNat+x) (by omega)
  refine fun draws => ⟨fun i hi => ?_,fun x y hx hy => ?_⟩
  · cases hi with
    | fill _ hi => rwa [hcount] at hi
    | draw d _ hi =>
      rcases drawIndex_eq hbuf hw hh h.stride hline (by omega) d.x d.y with
        ⟨x',y',_,_,hx',hy',heq⟩ | ⟨_,hnone⟩
      · rw [heq] at hi
        obtain rfl := Option.some.inj hi
        exact place_lt hx' hy'
      · rw [hnone] at hi
        cases hi
    | flush x y _ _ hx hy hi =>
      rw [hw] at hx
      rw [hh] at hy
      rw [← hi,hread (by omega) (by omega)]
      exact place_lt (by omega) (by omega)
  · have hnear : ∀ x y, x<fb.width.toNat → y<fb.height.toNat → y*lineWords fb+x<2^31 := by
      intro x y hx hy
      have hlt := place_lt hx hy
      rw [hplace hx hy]
      omega
    have hlt := place_lt hx hy
    have hshown := draws_pixels hbuf hw hh h.stride hline (by omega) hx hy draws
    rw [h.filled hbuf _ (by rw [hcount]; exact hlt)] at hshown
    have hfields := draws_fields wm draws
    refine (wmFlush_shown ((congrArg Wm.backbuf hfields).trans_ne hbuf)
      ((congrArg Wm.framebuf hfields).trans_ne hfb) ((congrArg Wm.scrW hfields).trans hw)
      ((congrArg Wm.scrH hfields).trans hh) ((congrArg Wm.stride hfields).trans h.stride) hpitch hnear
      hx hy).trans ?_
    have hsame : readIndex (draws.foldl owtDrawPixel wm) x y=readIndex wm x y := by
      rw [hfields]
      rfl
    rw [hsame,hread hx hy]
    exact hshown

/-- A screen without pixels shows all of them. -/
theorem shown_empty (hnone : wm.scrW=0 ∨ wm.scrH=0) (h : fb.width.toNat=0 ∨ fb.height.toNat=0) :
    ShowsDrawn fb wm := by
  refine fun draws => ⟨fun i hi => ?_,fun x y hx hy => by omega⟩
  cases hi with
  | fill _ hi =>
    have hcount : fillCount wm.scrW wm.scrH=0 := by
      rcases hnone with he | he <;> rw [he] <;> simp [fillCount,cInt]
    omega
  | draw d _ hi =>
    rw [drawIndex] at hi
    split_ifs at hi
    omega
  | flush x y _ _ hx hy _ => omega

/-- Kernel memory has a back buffer for the screen. -/
def HasBuffer (L : Layout) (m : Bytes) (fb : Geometry) : Prop :=
  ∃ p m', kmalloc L m (fb.width.toNat*fb.height.toNat*4)=some (p,m') ∧ p≠0

/-- For which framebuffers what is drawn is what is shown. -/
theorem showsDrawn_iff (h : kmainWm L m pixels screen fb=some wm) (haddr : fb.addr≠0)
    (hpitch : fb.width.toNat≤fb.pitch.toNat/4) :
    ShowsDrawn fb wm ↔ fb.width=0 ∨ fb.height=0 ∨
      HasBuffer L m fb ∧ fb.height.toNat<2^31 ∧
        (fb.pitch.toNat/4=fb.width.toNat ∨ fb.height=1) := by
  have hs := kmainWm_started h
  have hbuffer : fb.height.toNat<2^31 → (HasBuffer L m fb ↔ wm.backbuf≠0) := by
    intro hheight
    obtain ⟨m',hcall⟩ := hs.backbuf
    have hp := fb.pitch.toNat_lt
    have hmul : fb.width.toNat*fb.height.toNat≤2^30*2^31 :=
      Nat.mul_le_mul (by omega) hheight.le
    have hsize : bufferSize wm.scrW wm.scrH=fb.width.toNat*fb.height.toNat*4 := by
      rw [bufferSize,hs.scrW,hs.scrH,cInt_of_lt (by omega),cInt_of_lt hheight]
      omega
    rw [hsize] at hcall
    constructor
    · rintro ⟨p,m'',hcall',hne⟩
      obtain ⟨rfl,-⟩ := Prod.mk.inj (Option.some.inj (hcall'.symm.trans hcall))
      exact hne
    · exact fun hne => ⟨_,m',hcall,hne⟩
  have hword : fb.height=1 ↔ fb.height.toNat=1 := ⟨fun he => by rw [he]; rfl,fun he => UInt32.toNat_inj.mp he⟩
  by_cases hw0 : fb.width=0
  · have hzero : wm.scrW=0 := by
      rw [hs.scrW,hw0]
      exact cInt_of_lt (n:=0) (by norm_num)
    exact iff_of_true (shown_empty (Or.inl hzero) (Or.inl (by rw [hw0]; rfl))) (Or.inl hw0)
  by_cases hh0 : fb.height=0
  · have hzero : wm.scrH=0 := by
      rw [hs.scrH,hh0]
      exact cInt_of_lt (n:=0) (by norm_num)
    exact iff_of_true (shown_empty (Or.inr hzero) (Or.inr (by rw [hh0]; rfl))) (Or.inr (Or.inl hh0))
  have hwpos : 0<fb.width.toNat := Nat.pos_of_ne_zero fun he => hw0 (UInt32.toNat_inj.mp he)
  have hhpos : 0<fb.height.toNat := Nat.pos_of_ne_zero fun he => hh0 (UInt32.toNat_inj.mp he)
  constructor
  · intro hshows
    have hheight : fb.height.toNat<2^31 := by
      by_contra htall
      exact not_shown_tall hs hwpos (by omega) hshows
    have hbuf : wm.backbuf≠0 := fun hnull => not_shown_null hwpos hhpos hnull hshows
    refine Or.inr (Or.inr ⟨(hbuffer hheight).mpr hbuf,hheight,?_⟩)
    by_contra hline
    rw [hword,not_or] at hline
    exact not_shown_stride hs haddr hbuf (Nat.lt_of_le_of_ne hpitch fun he => hline.1 he.symm) hwpos
      (by omega) hheight hshows
  · rintro (hzero | hzero | ⟨hbuf,hheight,hline⟩)
    · exact (hw0 hzero).elim
    · exact (hh0 hzero).elim
    · exact shown hs haddr ((hbuffer hheight).mp hbuf) hpitch hheight (by rwa [hword] at hline)

/-- A framebuffer of two lines whose lines are longer than the screen is wide. -/
def paddedFb : Geometry := ⟨0xFD000000,2048,256,2,32⟩

/-- The framebuffer that the kernel falls back on. -/
def fallbackFb : Geometry := ⟨0xFD000000,5120,1280,720,32⟩

/-- The window manager on a fresh heap. -/
def freshWm (fb : Geometry) : Option Wm :=
  kmainWm BuddyRuns.sampleLayout (memoryInit BuddyRuns.sampleLayout fun _ => 0) (fun _ => 0)
    (fun _ => 0) fb

/-- A fresh heap has a back buffer of 2048 bytes or more, up to its size. -/
theorem freshWm_some (size : ℕ) (hlarge : 2048 ≤ size) (hheap : size≤heapSize) :
    ∃ p m', kmalloc BuddyRuns.sampleLayout (memoryInit BuddyRuns.sampleLayout fun _ => 0) size=
      some (p,m') ∧ p≠0 := by
  refine ⟨_,_,BuddyRuns.kmalloc_large hlarge,?_⟩
  refine AllocationSizes.buddyAlloc_fresh _ _ (AllocationSizes.orderFor_heap ?_ (Or.inl hheap)) false
  simp only [heapSize] at hheap
  omega

/-- The padded framebuffer does not show what is drawn. -/
theorem paddedFb_not_shown : ∃ wm, freshWm paddedFb=some wm ∧ ¬ShowsDrawn paddedFb wm := by
  obtain ⟨p,m',hcall,hp⟩ := freshWm_some 2048 le_rfl (by norm_num)
  have hsize : bufferSize (cInt paddedFb.width.toNat) (cInt paddedFb.height.toNat)=2048 := by decide
  have hwm : ∃ wm, freshWm paddedFb=some wm ∧ wm.backbuf=p := by
    rw [freshWm,kmainWm,wmInit,hsize,hcall]
    exact ⟨_,rfl,rfl⟩
  obtain ⟨wm,hwm,hbuf⟩ := hwm
  exact ⟨wm,hwm,not_shown_stride (kmainWm_started hwm) (by decide) (by rw [hbuf]; exact hp) (by decide)
    (by decide) (by decide) (by decide)⟩

/-- The framebuffer that the kernel falls back on shows what is drawn. -/
theorem fallbackFb_shown : ∃ wm, freshWm fallbackFb=some wm ∧ ShowsDrawn fallbackFb wm := by
  obtain ⟨p,m',hcall,hp⟩ := freshWm_some 3686400 (by norm_num) (by norm_num)
  have hsize : bufferSize (cInt fallbackFb.width.toNat) (cInt fallbackFb.height.toNat)=3686400 := by
    decide
  have hwm : ∃ wm, freshWm fallbackFb=some wm := by
    rw [freshWm,kmainWm,wmInit,hsize,hcall]
    exact ⟨_,rfl⟩
  obtain ⟨wm,hwm⟩ := hwm
  exact ⟨wm,hwm,(showsDrawn_iff hwm (by decide) (by decide)).mpr
    (Or.inr (Or.inr ⟨⟨p,m',hcall,hp⟩,by decide,Or.inl (by decide)⟩))⟩

end OvsbMk.WindowManager
