import Mathlib.Data.List.Basic
import OvsbMk.Descriptors
import OvsbMk.Numerals
import OvsbMk.Traces

/-!
# Formatting into a buffer

`vsnprintf` of the library, byte by byte over the format, against the unbounded
expansion of the format. Space is tested once for each item of the format, and some
items store two bytes after one test; a percent sign at the end of the format lets the
scan step over the terminator. The theorem says exactly which formats and sizes make
these two slips harmless.
-/

namespace OvsbMk.Formatting

open Fat32 Numerals

/-- The characters of a string in memory, without the terminator. -/
structure CString where
  /-- The characters. -/
  chars : List UInt8
  /-- The terminator is not one of them. -/
  nonzero : 0∉chars

/-- The variable arguments of a call: the words of the argument area, and the strings
that words point to. -/
structure Varargs where
  /-- The words. -/
  words : ℕ → UInt64
  /-- The string at an address other than null. -/
  text : UInt64 → CString

/-- An argument read as an `int`. -/
def intOf (w : UInt64) : ℤ := toInt w.toNat

/-- An argument read as a `long`. -/
def longOf (w : UInt64) : ℤ := if w.toNat<2^63 then w.toNat else w.toNat-2^64

/-- An argument read as an `unsigned` or an `unsigned long`. -/
def unsignedOf (long : Bool) (w : UInt64) : ℕ := if long then w.toNat else w.toNat%2^32

/-- The text that stands for a null string. -/
def nullText : List UInt8 := ['(','n','u','l','l',')'].map ascii

/-- Where the scan of the format is. -/
inductive Scan
  /-- At the head of the loop. -/
  | text
  /-- Behind a percent sign, and behind an `l` or not. -/
  | spec (long : Bool)

/-- What a call leaves and returns. -/
inductive Outcome
  /-- The bytes stored from the start of the buffer on, and the result. -/
  | done (stored : List UInt8) (ret : ℕ)
  /-- The scan has passed the terminator of the format. -/
  | overrun
  deriving DecidableEq

/-- `buf[p] = 0; return p;` after the bytes stored so far. -/
def finish (buf : List UInt8) : Outcome := .done (buf++[0]) buf.length

/-- The loops `while (… && p < n-1) buf[p++] = …;`. -/
def fill (n : ℕ) (buf bytes : List UInt8) : List UInt8 := buf++bytes.take (n-1-buf.length)

/-- The digits that a conversion has collected in its array, from the last one on. -/
def collected (base v : ℕ) : List UInt8 := (doLoop base 24 v).reverse.map digitByte

/-- The branches of `switch (*f)` for characters other than the terminator: the number
of arguments read and the bytes stored afterwards. -/
def convert (n : ℕ) (ap : Varargs) (long : Bool) (c : UInt8) (a : ℕ) (buf : List UInt8) :
    ℕ×List UInt8 :=
  if c=ascii 'd' then
    let v := if long then longOf (ap.words a) else intOf (ap.words a)
    let buf := if v<0 then buf++[ascii '-'] else buf
    let v := if v<0 then -v else v
    (a+1,fill n buf (collected 10 (v%2^64).toNat))
  else if c=ascii 'u' then (a+1,fill n buf (collected 10 (unsignedOf long (ap.words a))))
  else if c=ascii 'x' ∨ c=ascii 'X' then
    (a+1,fill n buf (collected 16 (unsignedOf long (ap.words a))))
  else if c=ascii 's' then
    let s := if ap.words a=0 then nullText else (ap.text (ap.words a)).chars
    (a+1,fill n buf s)
  else if c=ascii 'c' then (a+1,buf++[(ap.words a).toUInt8])
  else if c=ascii '%' then (a,buf++[ascii '%'])
  else (a,buf++[ascii '%']++[c])

/-- The loop of `vsnprintf`. With the terminator in `switch (*f)` the loop's `f++`
steps over it. -/
def vsnprintfLoop (n : ℕ) (ap : Varargs) : Scan → List UInt8 → ℕ → List UInt8 → Outcome
  | .text, [], _, buf => finish buf
  | .text, c::f, a, buf =>
    if buf.length<n-1 then
      if c=ascii '%' then vsnprintfLoop n ap (.spec false) f a buf
      else vsnprintfLoop n ap .text f a (buf++[c])
    else finish buf
  | .spec _, [], _, _ => .overrun
  | .spec long, c::f, a, buf =>
    if c=ascii 'l' then vsnprintfLoop n ap (.spec true) f a buf
    else
      let r := convert n ap long c a buf
      vsnprintfLoop n ap .text f r.1 r.2

/-- `vsnprintf` with a buffer. -/
def vsnprintf (n : ℤ) (fmt : CString) (ap : Varargs) : Outcome :=
  if n≤0 then .done [] 0 else vsnprintfLoop n.toNat ap .text fmt.chars 0 []

/-- `sprintf`. -/
def sprintf (fmt : CString) (ap : Varargs) : Outcome := vsnprintf 4096 fmt ap

/-! ### The unbounded expansion -/

/-- The items of a format. -/
inductive Item
  /-- A character that stands for itself. -/
  | char (c : UInt8)
  /-- A conversion. -/
  | conv (long : Bool) (c : UInt8)
  /-- A percent sign without a conversion character. -/
  | lone

/-- The items that a format consists of. -/
def items : Scan → List UInt8 → List Item
  | .text, [] => []
  | .text, c::f => if c=ascii '%' then items (.spec false) f else .char c::items .text f
  | .spec _, [] => [.lone]
  | .spec long, c::f => if c=ascii 'l' then items (.spec true) f else .conv long c::items .text f

/-- The known conversion characters. -/
def Known (c : UInt8) : Prop :=
  c=ascii 'd' ∨ c=ascii 'u' ∨ c=ascii 'x' ∨ c=ascii 'X' ∨ c=ascii 's' ∨ c=ascii 'c' ∨ c=ascii '%'

/-- The text that a conversion stands for. -/
def conversionText (ap : Varargs) (long : Bool) (c : UInt8) (a : ℕ) : List UInt8 :=
  if c=ascii 'd' then decimal (if long then longOf (ap.words a) else intOf (ap.words a))
  else if c=ascii 'u' then numeral 10 (unsignedOf long (ap.words a))
  else if c=ascii 'x' ∨ c=ascii 'X' then numeral 16 (unsignedOf long (ap.words a))
  else if c=ascii 's' then if ap.words a=0 then nullText else (ap.text (ap.words a)).chars
  else if c=ascii 'c' then [(ap.words a).toUInt8]
  else if c=ascii '%' then [ascii '%']
  else [ascii '%',c]

/-- The text that an item stands for. -/
def Item.text (ap : Varargs) (a : ℕ) : Item → List UInt8
  | .char c => [c]
  | .conv long c => conversionText ap long c a
  | .lone => [ascii '%']

/-- The number of arguments that an item reads. -/
def Item.arity : Item → ℕ
  | .conv _ c =>
    if c=ascii 'd' ∨ c=ascii 'u' ∨ c=ascii 'x' ∨ c=ascii 'X' ∨ c=ascii 's' ∨ c=ascii 'c' then 1
    else 0
  | _ => 0

/-- A property of all items from an argument on. -/
def Along (P : ℕ → Item → Prop) : ℕ → List Item → Prop :=
  Traces.Always (fun a it => a+it.arity) P

/-- The expansion of some items from an argument on. -/
def expand (ap : Varargs) : ℕ → List Item → List UInt8
  | _, [] => []
  | a, it::rest => it.text ap a++expand ap (a+it.arity) rest

/-- The expansion of a format. -/
def expansion (fmt : CString) (ap : Varargs) : List UInt8 := expand ap 0 (items .text fmt.chars)

/-- An item that begins at a position with room does no harm: it is not a lone percent
sign, and not an unknown conversion with room for one byte. -/
def Item.Harmless (n k : ℕ) : Item → Prop
  | .char _ => True
  | .conv _ c => Known c ∨ k+2≠n
  | .lone => False

/-- The items that begin while there is room do no harm. -/
def HarmlessWithin (n : ℕ) (fmt : CString) (ap : Varargs) : Prop :=
  ∀ pre it post, items .text fmt.chars=pre++it::post → (expand ap 0 pre).length+1<n →
    it.Harmless n (expand ap 0 pre).length

/-- The call reads the format up to its terminator, stores into the buffer only, leaves
the first bytes of the expansion with a terminator there, and returns their number. -/
def RespectsBuffer (n : ℤ) (fmt : CString) (ap : Varargs) : Prop :=
  ∃ stored, vsnprintf n fmt ap=.done stored ((expansion fmt ap).take (n.toNat-1)).length ∧
    stored.length≤n.toNat ∧ stored=(expansion fmt ap).take (n.toNat-1)++[0]

variable {n k a : ℕ} {c : UInt8} {long : Bool} {ap : Varargs} {buf f : List UInt8}
  {P : ℕ → Item → Prop}

/-- The number of an argument behind some items. -/
theorem foldl_arity (pre : List Item) (a : ℕ) :
    pre.foldl (fun a it => a+it.arity) a=a+(pre.map Item.arity).sum := by
  induction pre generalizing a with
  | nil => rfl
  | cons it pre ih => rw [List.foldl_cons,ih,List.map_cons,List.sum_cons,Nat.add_assoc]

/-- The property of each item with the arguments of the items before it. -/
theorem along_iff (its : List Item) (a : ℕ) : Along P a its ↔
    ∀ pre it post, its=pre++it::post → P (a+(pre.map Item.arity).sum) it := by
  rw [Along,Traces.always_iff]
  simp only [foldl_arity]

/-- Behind an `l` a long conversion or a lone percent sign comes. -/
theorem items_long_not {Q : Item → Prop} (hconv : ∀ c, ¬Q (.conv true c)) (hlone : ¬Q .lone)
    (f : List UInt8) : ¬∀ it∈items (.spec true) f, Q it := by
  induction f with
  | nil => exact fun h => hlone (h .lone (List.mem_singleton_self _))
  | cons c f ih =>
    rw [items]
    split
    next => exact ih
    next => exact fun h => hconv c (h _ List.mem_cons_self)

/-- A word read as a signed number is one of 64 bits. -/
theorem argument_natAbs (long : Bool) (w : UInt64) :
    (if long then longOf w else intOf w).natAbs<2^64 := by
  have hint := Descriptors.toInt_range w.toNat
  have hword := w.toNat_lt
  cases long with
  | false =>
    change (intOf w).natAbs<2^64
    rw [intOf]
    omega
  | true =>
    change (longOf w).natAbs<2^64
    rw [longOf]
    split <;> omega

/-- A word read as an unsigned number is one of 64 bits. -/
theorem unsignedOf_lt (long : Bool) (w : UInt64) : unsignedOf long w<2^64 := by
  have hword := w.toNat_lt
  cases long with
  | false => exact (Nat.mod_lt _ (by norm_num)).trans (by norm_num)
  | true => exact hword

/-- The array has room for the digits of every number. -/
theorem collected_eq {base v : ℕ} (hbase : 10≤base) (hv : v<2^64) :
    collected base v=numeral base v := by
  have hpow : 10^24≤base^24 := Nat.pow_le_pow_left hbase 24
  rw [collected,doLoop_eq (by omega) (by norm_num) (by omega),List.reverse_reverse,numeral]

/-- A character and what fits behind it. -/
theorem fill_cons (h : buf.length+1<n) (c : UInt8) (bytes : List UInt8) :
    fill n (buf++[c]) bytes=fill n buf (c::bytes) := by
  have hroom : n-1-buf.length=n-1-(buf++[c]).length+1 := by
    rw [List.length_append,List.length_singleton]
    omega
  rw [fill,fill,hroom,List.take_succ_cons,List.append_assoc,List.singleton_append]

/-- One character where there is room for one. -/
theorem fill_singleton (h : buf.length+1<n) (c : UInt8) : fill n buf [c]=buf++[c] := by
  rw [fill,List.take_of_length_le]
  rw [List.length_singleton]
  omega

/-- The branch for signed numbers stores what fits of the decimal numeral. -/
theorem fill_decimal (h : buf.length+1<n) {v : ℤ} (hv : v.natAbs<2^64) :
    fill n (if v<0 then buf++[ascii '-'] else buf)
        (collected 10 ((if v<0 then -v else v)%2^64).toNat)=fill n buf (decimal v) := by
  have habs : ((if v<0 then -v else v)%2^64).toNat=v.natAbs := by
    split <;> omega
  rw [habs,collected_eq le_rfl hv,decimal]
  split
  next => exact fill_cons h _ _
  next => rfl

/-- The conversions that read an argument. -/
theorem arity_reads (h : c=ascii 'd' ∨ c=ascii 'u' ∨ (c=ascii 'x' ∨ c=ascii 'X') ∨ c=ascii 's' ∨
    c=ascii 'c') : (Item.conv long c).arity=1 := by
  rw [Item.arity,if_pos (by tauto)]

/-- A conversion that does no harm stores what fits of its text. -/
theorem convert_eq (h : buf.length+1<n) (hc : Known c ∨ buf.length+2≠n) :
    convert n ap long c a buf=
      (a+(Item.conv long c).arity,fill n buf ((Item.conv long c).text ap a)) := by
  have hdigits := collected_eq (le_refl 10) (unsignedOf_lt long (ap.words a))
  have hhex := collected_eq (by norm_num : 10≤16) (unsignedOf_lt long (ap.words a))
  simp only [convert,Item.text,conversionText,hdigits,hhex]
  by_cases hd : c=ascii 'd'
  · simp only [if_pos hd,arity_reads (.inl hd)]
    rw [fill_decimal h (argument_natAbs _ _)]
  by_cases hu : c=ascii 'u'
  · simp only [if_neg hd,if_pos hu,arity_reads (.inr (.inl hu))]
  by_cases hx : c=ascii 'x' ∨ c=ascii 'X'
  · simp only [if_neg hd,if_neg hu,if_pos hx,arity_reads (.inr (.inr (.inl hx)))]
  by_cases hs : c=ascii 's'
  · simp only [if_neg hd,if_neg hu,if_neg hx,if_pos hs,arity_reads (.inr (.inr (.inr (.inl hs))))]
  by_cases hch : c=ascii 'c'
  · simp only [if_neg hd,if_neg hu,if_neg hx,if_neg hs,if_pos hch,
      arity_reads (.inr (.inr (.inr (.inr hch))))]
    rw [fill_singleton h]
  have harity : (Item.conv long c).arity=0 := by
    rw [Item.arity,if_neg (by tauto)]
  simp only [if_neg hd,if_neg hu,if_neg hx,if_neg hs,if_neg hch,harity,Nat.add_zero]
  by_cases hp : c=ascii '%'
  · simp only [if_pos hp]
    rw [fill_singleton h]
  · have hroom : buf.length+2≠n := hc.resolve_left (by rw [Known]; tauto)
    simp only [if_neg hp]
    rw [←fill_cons h,fill_singleton (by rw [List.length_append,List.length_singleton]; omega)]

/-- An unknown conversion stores two bytes. -/
theorem convert_unknown (hc : ¬Known c) :
    convert n ap long c a buf=(a,buf++[ascii '%']++[c]) := by
  simp only [Known,not_or] at hc
  obtain ⟨hd,hu,hx,hX,hs,hch,hp⟩ := hc
  have hhex : ¬(c=ascii 'x' ∨ c=ascii 'X') := not_or.mpr ⟨hx,hX⟩
  simp only [convert,if_neg hd,if_neg hu,if_neg hhex,if_neg hs,if_neg hch,if_neg hp]

/-- Without room the loop ends. -/
theorem vsnprintfLoop_full (h : n≤buf.length+1) :
    vsnprintfLoop n ap .text f a buf=finish buf := by
  cases f with
  | nil => rfl
  | cons c f => rw [vsnprintfLoop,if_neg (by omega)]

/-- The items from a position and an argument on that begin while there is room do no
harm. -/
def Harmless (n : ℕ) (ap : Varargs) : ℕ → ℕ → List Item → Prop
  | _, _, [] => True
  | k, a, it::rest =>
    k+1<n → it.Harmless n k ∧ Harmless n ap (k+(it.text ap a).length) (a+it.arity) rest

/-- The items do no harm one by one. -/
theorem harmless_iff (its : List Item) (k a : ℕ) : Harmless n ap k a its ↔
    ∀ pre it post, its=pre++it::post → k+(expand ap a pre).length+1<n →
      it.Harmless n (k+(expand ap a pre).length) := by
  induction its generalizing k a with
  | nil => exact iff_of_true trivial fun pre it post h => by simp at h
  | cons x rest ih =>
    rw [Harmless]
    constructor
    · rintro h pre it post heq hroom
      cases pre with
      | nil =>
        obtain ⟨rfl,-⟩ := List.cons.inj heq
        exact (h hroom).1
      | cons y pre =>
        obtain ⟨rfl,htail⟩ := List.cons.inj heq
        rw [expand,List.length_append,←Nat.add_assoc] at hroom ⊢
        exact (ih _ _).mp (h (by omega)).2 pre it post htail hroom
    · intro h hroom
      refine ⟨h [] x rest rfl hroom,(ih _ _).mpr fun pre it post heq hpost => ?_⟩
      have hx := h (x::pre) it post (by rw [heq,List.cons_append])
      rw [expand,List.length_append,←Nat.add_assoc] at hx
      exact hx hpost

/-- The format is overrun or the terminator lies outside the buffer. -/
def Outcome.Bad (n : ℕ) : Outcome → Prop
  | .done stored _ => n<stored.length
  | .overrun => True

/-- Behind the room nothing does harm. -/
theorem harmless_full (h : n≤k+1) (its : List Item) : Harmless n ap k a its := by
  cases its with
  | nil => trivial
  | cons it rest => exact fun hroom => absurd hroom (by omega)

/-- Filling up twice. -/
theorem fill_append (buf xs ys : List UInt8) : fill n (fill n buf xs) ys=fill n buf (xs++ys) := by
  have hroom : n-1-(buf++xs.take (n-1-buf.length)).length=n-1-buf.length-xs.length := by
    rw [List.length_append,List.length_take]
    omega
  rw [fill,fill,fill,hroom,List.append_assoc,List.take_append]

/-- Nothing fits where there is no room. -/
theorem fill_full (h : n≤buf.length+1) (xs : List UInt8) : fill n buf xs=buf := by
  have hroom : n-1-buf.length=0 := by omega
  rw [fill,hroom,List.take_zero,List.append_nil]

/-- Everything fits where there is room. -/
theorem fill_fits {xs : List UInt8} (h : buf.length+xs.length+1≤n) : fill n buf xs=buf++xs := by
  rw [fill,List.take_of_length_le (by omega)]

/-- The loop from any point: either the items ahead do no harm and the buffer is filled
up with their expansion, or one of them does and the call goes wrong. The induction is
on the rest of the format. -/
theorem vsnprintfLoop_spec (m : Scan) (f : List UInt8) (a : ℕ) (buf : List UInt8)
    (hbuf : buf.length+1≤n) (hspec : m≠.text → buf.length+1<n) :
    (Harmless n ap buf.length a (items m f) ∧
      vsnprintfLoop n ap m f a buf=finish (fill n buf (expand ap a (items m f)))) ∨
    (¬Harmless n ap buf.length a (items m f) ∧ (vsnprintfLoop n ap m f a buf).Bad n) := by
  induction f generalizing m a buf with
  | nil =>
    cases m with
    | text =>
      refine .inl ⟨trivial,?_⟩
      rw [vsnprintfLoop,items,expand,fill,List.take_nil,List.append_nil]
    | spec long => exact .inr ⟨fun h => (h (hspec (by simp))).1,trivial⟩
  | cons c f ih =>
    cases m with
    | text =>
      by_cases hroom : buf.length+1<n
      · rw [vsnprintfLoop,if_pos (by omega),items]
        by_cases hp : c=ascii '%'
        · rw [if_pos hp,if_pos hp]
          exact ih (.spec false) a buf hbuf fun _ => hroom
        · rw [if_neg hp,if_neg hp]
          have hlen : (buf++[c]).length=buf.length+1 := by simp
          have hnext := ih .text a (buf++[c]) (by omega) (by simp)
          rw [hlen,fill_cons hroom] at hnext
          refine hnext.imp (fun h => ⟨fun _ => ⟨trivial,h.1⟩,h.2⟩) fun h => ⟨fun hh => ?_,h.2⟩
          exact h.1 (hh hroom).2
      · refine .inl ⟨harmless_full (by omega) _,?_⟩
        rw [vsnprintfLoop_full (by omega),fill_full (by omega)]
    | spec long =>
      have hroom := hspec (by simp)
      rw [vsnprintfLoop,items]
      by_cases hl : c=ascii 'l'
      · rw [if_pos hl,if_pos hl]
        exact ih (.spec true) a buf hbuf fun _ => hroom
      · rw [if_neg hl,if_neg hl]
        dsimp only
        by_cases hc : Known c ∨ buf.length+2≠n
        · rw [convert_eq hroom hc,expand,←fill_append]
          by_cases hfits : buf.length+((Item.conv long c).text ap a).length+1≤n
          · have hlen : (fill n buf ((Item.conv long c).text ap a)).length=
                buf.length+((Item.conv long c).text ap a).length := by
              rw [fill_fits hfits,List.length_append]
            have hnext := ih .text (a+(Item.conv long c).arity)
              (fill n buf ((Item.conv long c).text ap a)) (by omega) (by simp)
            rw [hlen] at hnext
            refine hnext.imp (fun h => ⟨fun _ => ⟨hc,h.1⟩,h.2⟩) fun h => ⟨fun hh => ?_,h.2⟩
            exact h.1 (hh hroom).2
          · have hlen : n≤(fill n buf ((Item.conv long c).text ap a)).length+1 := by
              rw [fill,List.length_append,List.length_take]
              omega
            refine .inl ⟨fun _ => ⟨hc,harmless_full (by omega) _⟩,?_⟩
            rw [vsnprintfLoop_full hlen,fill_full hlen]
        · rw [not_or,not_ne_iff] at hc
          have hlen : (buf++[ascii '%']++[c]).length=n := by
            simp only [List.length_append,List.length_singleton]
            omega
          refine .inr ⟨fun h => ?_,?_⟩
          · exact (h hroom).1.elim hc.1 fun hne => hne hc.2
          · rw [convert_unknown hc.1]
            dsimp only
            rw [vsnprintfLoop_full (by omega),finish,Outcome.Bad,List.length_append,hlen]
            exact Nat.lt_succ_self n

/-- The whole call. -/
theorem vsnprintf_cases {n : ℤ} (hn : 1 ≤ n) (fmt : CString) (ap : Varargs) :
    (HarmlessWithin n.toNat fmt ap ∧
      vsnprintf n fmt ap=finish ((expansion fmt ap).take (n.toNat-1))) ∨
    (¬HarmlessWithin n.toNat fmt ap ∧ (vsnprintf n fmt ap).Bad n.toNat) := by
  have hspec := @vsnprintfLoop_spec n.toNat ap .text fmt.chars 0 []
    (by rw [List.length_nil]; omega) (by simp)
  have hharmless := @harmless_iff n.toNat ap (items .text fmt.chars) 0 0
  have hfill : fill n.toNat [] (expansion fmt ap)=(expansion fmt ap).take (n.toNat-1) := by
    rw [fill,List.nil_append,List.length_nil,Nat.sub_zero]
  simp only [Nat.zero_add] at hharmless
  rw [List.length_nil,hharmless,←expansion,hfill] at hspec
  rw [vsnprintf,if_neg (by omega)]
  exact hspec

/-- For every size, format and argument list, `vsnprintf` keeps to its buffer and its
format and leaves the first bytes of the expansion exactly when no lone percent sign
begins while there is room, and no unknown conversion begins where there is room for one
byte only. -/
theorem respectsBuffer_iff {n : ℤ} (hn : 1 ≤ n) (fmt : CString) (ap : Varargs) :
    RespectsBuffer n fmt ap ↔ HarmlessWithin n.toNat fmt ap := by
  rw [RespectsBuffer]
  rcases vsnprintf_cases hn fmt ap with ⟨hok,hdone⟩ | ⟨hnot,hbad⟩
  · refine iff_of_true ⟨_,hdone,?_,rfl⟩ hok
    rw [List.length_append,List.length_take,List.length_singleton]
    omega
  · refine iff_of_false ?_ hnot
    rintro ⟨stored,hdone,hle,_⟩
    rw [hdone] at hbad
    exact absurd hle (not_le.mpr hbad)

/-- A string of printable characters. -/
def CString.ofChars (cs : List Char) (h : 0∉cs.map ascii := by decide) : CString :=
  ⟨cs.map ascii,h⟩

/-- Arguments that are all zero. -/
def noArguments : Varargs := ⟨fun _ => 0,fun _ => .ofChars []⟩

/-- A format with an unknown conversion behind two characters. -/
def unknownFormat : CString := .ofChars ['a','b','%','q']

/-- With room for three characters and a terminator the condition decides. -/
theorem unknownFormat_iff :
    RespectsBuffer 4 unknownFormat noArguments ↔ HarmlessWithin 4 unknownFormat noArguments :=
  respectsBuffer_iff (by norm_num) unknownFormat noArguments

/-- In a buffer of four bytes the unknown conversion begins where there is room for one
byte: the terminator is stored behind the buffer, and the result is four. -/
theorem unknownFormat_overflows :
    vsnprintf 4 unknownFormat noArguments=.done (unknownFormat.chars++[0]) 4 ∧
      ¬RespectsBuffer 4 unknownFormat noArguments := by
  have hdone : vsnprintf 4 unknownFormat noArguments=.done (unknownFormat.chars++[0]) 4 := by
    decide
  refine ⟨hdone,?_⟩
  rintro ⟨stored,heq,hle,_⟩
  rw [hdone] at heq
  obtain rfl := (Outcome.done.inj heq).1
  exact absurd hle (by decide)

/-- A percent sign at the end lets the scan pass the terminator. -/
example : vsnprintf 100 (.ofChars ['5','0','%']) noArguments=.overrun := by decide

end OvsbMk.Formatting
