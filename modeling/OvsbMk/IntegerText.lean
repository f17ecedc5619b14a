import OvsbMk.Formatting

/-!
# Integers as text

`atoi` and `itoa` of the library, in the arithmetic of 32-bit numbers that wrap. Every number
survives its own text, the least one by several overflows that cancel, and the text is the one
that `vsnprintf` gives.
-/

namespace OvsbMk.IntegerText

open Formatting Numerals

/-- `while (*s == ' ') s++;`. -/
def skipBlanks : List UInt8 → List UInt8
  | [] => []
  | c::s => if c=ascii ' ' then skipBlanks s else c::s

/-- The loop of `atoi` over digits. -/
def digitsLoop : List UInt8 → Int32 → Int32
  | [], n => n
  | c::s, n =>
    if ascii '0'≤c ∧ c≤ascii '9' then digitsLoop s (n*10+Int32.ofNat (c.toNat-48)) else n

/-- `atoi`. -/
def atoi (s : List UInt8) : Int32 :=
  match skipBlanks s with
  | [] => 1*digitsLoop [] 0
  | c::s =>
    if c=ascii '-' then -1*digitsLoop s 0
    else if c=ascii '+' then 1*digitsLoop s 0
    else 1*digitsLoop (c::s) 0

/-- The variable `u` of `itoa`. -/
def magnitude (n : Int32) : UInt32 := (if n<0 then -n else n).toUInt32

/-- The bytes that `itoa` writes, in their order. The array for the digits has room for
twelve. -/
def itoa (n : Int32) : List UInt8 :=
  (if n<0 then [ascii '-'] else [])++
    (doLoop 10 12 (magnitude n).toNat).reverse.map digitByte++[0]

/-- The format `%d`. -/
def percentD : CString := ⟨[ascii '%',ascii 'd'],by decide⟩

variable {v : Int32} {ds : List ℕ} {c : UInt8} {s : List UInt8}

/-- A negative number is one below zero. -/
theorem neg_iff (v : Int32) : v<0 ↔ v.toInt<0 := Int32.lt_iff_toInt_lt

/-- The magnitude of the least number is right as well: its negation wraps to itself, which is
its magnitude without a sign. -/
theorem magnitude_toNat (v : Int32) : (magnitude v).toNat=v.toInt.natAbs := by
  have hvalue : v.toInt=if 2*v.toUInt32.toNat<2^32 then (v.toUInt32.toNat : ℤ)
      else v.toUInt32.toNat-(2^32 : ℕ) := v.toBitVec.toInt_eq_toNat_cond
  have hlt := v.toUInt32.toNat_lt
  have hsize : UInt32.size=2^32 := rfl
  rw [magnitude]
  by_cases hneg : v<0
  · have hbelow := (neg_iff v).mp hneg
    rw [if_pos hneg,Int32.toUInt32_neg,UInt32.toNat_neg]
    split at hvalue
    next => omega
    next =>
      rw [Nat.mod_eq_of_lt (by omega)]
      omega
  · have habove := mt (neg_iff v).mpr hneg
    rw [if_neg hneg]
    split at hvalue <;> omega

/-- `itoa` writes the decimal numeral and a terminator. -/
theorem itoa_eq (v : Int32) : itoa v=decimal v.toInt++[0] := by
  have hroom : v.toInt.natAbs<10^12 := by
    have hlt := (magnitude v).toNat_lt
    rw [magnitude_toNat] at hlt
    omega
  rw [itoa,magnitude_toNat,doLoop_eq (by decide) (by decide) hroom,List.reverse_reverse,decimal]
  by_cases hneg : v<0
  · rw [if_pos hneg,if_pos ((neg_iff v).mp hneg)]
    rfl
  · rw [if_neg hneg,if_neg (mt (neg_iff v).mpr hneg)]
    rfl

/-- The loop reads the digits, from any number on, in arithmetic that wraps. -/
theorem digitsLoop_digits (hds : ∀ d∈ds, d<10) (n : ℕ) :
    digitsLoop (ds.map digitByte++[0]) (Int32.ofNat n)=
      Int32.ofNat (ds.foldl (fun a d => a*10+d) n) := by
  induction ds generalizing n with
  | nil => rfl
  | cons d ds ih =>
    rw [List.forall_mem_cons] at hds
    have hbyte : ascii '0'≤digitByte d ∧ digitByte d≤ascii '9' ∧ (digitByte d).toNat-48=d := by
      have hall : ∀ d<10, ascii '0'≤digitByte d ∧ digitByte d≤ascii '9' ∧
          (digitByte d).toNat-48=d := by decide
      exact hall d hds.1
    have hnext : Int32.ofNat n*10+Int32.ofNat d=Int32.ofNat (n*10+d) := by
      rw [Int32.ofNat_add,Int32.ofNat_mul]
      rfl
    rw [List.map_cons,List.cons_append,digitsLoop,if_pos ⟨hbyte.1,hbyte.2.1⟩,hbyte.2.2,hnext]
    exact ih hds.2 (n*10+d)

/-- The loop reads a numeral. -/
theorem digitsLoop_numeral (n : ℕ) : digitsLoop (numeral 10 n++[0]) 0=Int32.ofNat n := by
  have hdigits := digitsLoop_digits
    (fun d (hd : d∈digits 10 n) => lt_of_mem_digits (by decide) hd) 0
  rw [foldl_digits] at hdigits
  exact hdigits

/-- A numeral begins with a digit, which is neither a blank nor a sign. -/
theorem numeral_head (n : ℕ) : ∃ c s, numeral 10 n=c::s ∧
    c≠ascii ' ' ∧ c≠ascii '-' ∧ c≠ascii '+' := by
  have hall : ∀ d<10, digitByte d≠ascii ' ' ∧ digitByte d≠ascii '-' ∧ digitByte d≠ascii '+' := by
    decide
  cases hdigits : digits 10 n with
  | nil =>
    have hne := numeral_ne_nil 10 n
    rw [numeral,hdigits] at hne
    exact absurd rfl hne
  | cons d ds =>
    have hmem : d∈digits 10 n := hdigits ▸ List.mem_cons_self
    have hd : d<10 := lt_of_mem_digits (by decide) hmem
    exact ⟨digitByte d,ds.map digitByte,by rw [numeral,hdigits,List.map_cons],hall d hd⟩

/-- `atoi` reads the decimal numeral of a number. -/
theorem atoi_decimal (z : ℤ) : atoi (decimal z++[0])=Int32.ofInt z := by
  have hnumeral := digitsLoop_numeral z.natAbs
  rw [decimal]
  by_cases hneg : z<0
  · have hz : z=-(z.natAbs : ℤ) := by omega
    have hskip : skipBlanks (ascii '-'::numeral 10 z.natAbs++[0])=
        ascii '-'::(numeral 10 z.natAbs++[0]) := if_neg (by decide)
    rw [if_pos hneg,atoi,hskip]
    simp only [if_true]
    rw [hnumeral,Int32.neg_mul,Int32.one_mul]
    conv_rhs => rw [hz,Int32.ofInt_neg,Int32.ofInt_eq_ofNat]
  · have hz : z=(z.natAbs : ℤ) := by omega
    obtain ⟨c,s,hcs,hblank,hminus,hplus⟩ := numeral_head z.natAbs
    rw [if_neg hneg,hcs] 
    rw [hcs] at hnumeral
    have hskip : skipBlanks (c::s++[0])=c::(s++[0]) := if_neg hblank
    rw [atoi,hskip]
    simp only [if_neg hminus,if_neg hplus]
    rw [←List.cons_append,hnumeral,Int32.one_mul]
    conv_rhs => rw [hz,Int32.ofInt_eq_ofNat]

/-- The numeral of a number below a power has at most so many digits. -/
theorem numeral_length {n k : ℕ} (hk : 0<k) (hn : n<10^k) : (numeral 10 n).length≤k := by
  rw [numeral,List.length_map,digits]
  split
  next => exact hk
  next =>
    rw [List.length_reverse]
    exact (Nat.digits_length_le_iff (by decide) n).mpr hn

/-- The text has at most eleven characters. -/
theorem decimal_length (v : Int32) : (decimal v.toInt).length≤11 := by
  have hlt := (magnitude v).toNat_lt
  rw [magnitude_toNat] at hlt
  have hlen := numeral_length (n:=v.toInt.natAbs) (k:=10) (by decide) (by omega)
  rw [decimal]
  split
  next => exact Nat.succ_le_succ hlen
  next => exact hlen.trans (by decide)

/-- With room for the text, `vsnprintf` stores it. -/
theorem vsnprintf_percentD {n : ℤ} {ap : Varargs} {z : ℤ} (harg : intOf (ap.words 0)=z)
    (hroom : (decimal z).length+1≤n) :
    vsnprintf n percentD ap=.done (decimal z++[0]) (decimal z).length := by
  have hne : decimal z≠[] := by
    rw [decimal]
    split
    next => exact List.cons_ne_nil _ _
    next => exact numeral_ne_nil 10 _
  have hpos := List.length_pos_iff.mpr hne
  have hconvert : convert n.toNat ap false (ascii 'd') 0 []=
      (0+(Item.conv false (ascii 'd')).arity,
        fill n.toNat [] ((Item.conv false (ascii 'd')).text ap 0)) :=
    convert_eq (show 0+1<n.toNat by omega) (.inl (.inl rfl))
  have htext : (Item.conv false (ascii 'd')).text ap 0=decimal z := by
    rw [←harg]
    rfl
  have hfill : fill n.toNat [] (decimal z)=decimal z := by
    rw [fill,List.nil_append,List.take_of_length_le]
    rw [List.length_nil]
    omega
  rw [htext,hfill] at hconvert
  have hscan : vsnprintfLoop n.toNat ap .text percentD.chars 0 []=
      vsnprintfLoop n.toNat ap (.spec false) [ascii 'd'] 0 [] := if_pos (by
    rw [List.length_nil]
    omega)
  have hspec : vsnprintfLoop n.toNat ap (.spec false) [ascii 'd'] 0 []=
      vsnprintfLoop n.toNat ap .text [] 1 (decimal z) := by
    have hnot : ascii 'd'≠ascii 'l' := by decide
    refine (if_neg hnot).trans ?_
    simp only [hconvert]
    rfl
  rw [vsnprintf,if_neg (by omega),hscan,hspec]
  rfl

/-- Every number survives its own text, which takes at most twelve bytes and is the one that
`vsnprintf` gives. -/
theorem integer_text_round_trip (v : Int32) : atoi (itoa v)=v ∧ (itoa v).length≤12 ∧
    ∀ (n : ℤ) (ap : Varargs), intOf (ap.words 0)=v.toInt → (itoa v).length≤n →
      vsnprintf n percentD ap=.done (itoa v) ((itoa v).length-1) := by
  have hlen : (itoa v).length=(decimal v.toInt).length+1 := by
    rw [itoa_eq,List.length_append,List.length_singleton]
  refine ⟨?_,hlen ▸ Nat.succ_le_succ (decimal_length v),fun n ap harg hroom => ?_⟩
  · rw [itoa_eq,atoi_decimal,Int32.ofInt_toInt]
  · rw [hlen,Nat.add_sub_cancel,itoa_eq]
    rw [hlen] at hroom
    exact vsnprintf_percentD harg (by exact_mod_cast hroom)

/-- Arguments that begin with the least number. -/
def leastArgument : Varargs := ⟨fun _ => 0x80000000,fun _ => percentD⟩

/-- The text of the least number. -/
theorem least_text : atoi (itoa (-2147483648))=-2147483648 ∧
    vsnprintf 12 percentD leastArgument=.done (itoa (-2147483648)) 11 := by
  have htheorem := integer_text_round_trip (-2147483648)
  exact ⟨htheorem.1,htheorem.2.2 12 leastArgument (by decide) (by decide)⟩

end OvsbMk.IntegerText
