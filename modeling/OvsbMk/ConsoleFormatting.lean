import Mathlib.Data.List.TakeWhile
import OvsbMk.Formatting

/-!
# Formatted output of the kernel

`console_printf` collects its output in a buffer of 256 bytes and looks at the length
only behind a conversion. Literal characters are not counted at all, and a string is
copied whole. The theorem says for which formats and arguments the buffer is large
enough and the right text is printed. A string at the null address is read like any
other, since the kernel's memory is mapped there.
-/

namespace OvsbMk.ConsoleFormatting

open Numerals Formatting

/-- Bytes of the buffer. -/
abbrev bufSize : ℕ := 256

/-- Length from which on the loop stops behind a conversion. -/
abbrev stopLength : ℕ := 250

/-- The digits that a conversion has collected in its array, from the last one on: `0`
for zero, and those of a positive number. -/
def collectedDigits (base : ℕ) (v : ℤ) : List UInt8 :=
  ((if v=0 then [0] else [])++whileLoop base 16 v.toNat).reverse.map digitByte

/-- The branches of `switch (*p)`. -/
def convert (ap : Varargs) (c : UInt8) (a : ℕ) (buf : List UInt8) : ℕ×List UInt8 :=
  if c=ascii 's' then (a+1,buf++(ap.text (ap.words a)).chars)
  else if c=ascii 'd' then
    let v := intOf (ap.words a)
    let buf := if v<0 then buf++[ascii '-'] else buf
    let v := if v<0 then Descriptors.wrapInt (-v) else v
    (a+1,buf++collectedDigits 10 v)
  else if c=ascii 'x' ∨ c=ascii 'X' then
    (a+1,buf++[ascii '0',ascii 'x']++collectedDigits 16 (unsignedOf false (ap.words a)))
  else (a,buf)

/-- What `console_write` prints of stored bytes: those before the first terminator. -/
def printed (buf : List UInt8) : List UInt8 := buf.takeWhile fun c => c≠0

/-- The item is a character or one of the conversions `%s`, `%d` and `%x`. -/
def PlainItem : Item → Prop
  | .char _ => True
  | .conv long c => long=false ∧ (c=ascii 's' ∨ c=ascii 'd' ∨ c=ascii 'x')
  | .lone => False

/-- The format consists of such items. -/
def Plain (fmt : CString) : Prop := ∀ it∈items .text fmt.chars, PlainItem it

/-- The text that an item stands for. -/
def itemText (ap : Varargs) (a : ℕ) : Item → List UInt8
  | .char c => [c]
  | .conv _ c =>
    if c=ascii 's' then (ap.text (ap.words a)).chars
    else if c=ascii 'd' then decimal (intOf (ap.words a))
    else [ascii '0',ascii 'x']++numeral 16 (unsignedOf false (ap.words a))
  | .lone => []

/-- The item is a `%d` for the smallest `int`. -/
def Smallest (ap : Varargs) (a : ℕ) (it : Item) : Prop :=
  it=.conv false (ascii 'd') ∧ intOf (ap.words a)= -2^31

instance (ap : Varargs) (a : ℕ) (it : Item) : Decidable (Smallest ap a it) :=
  match it with
  | .conv long c => decidable_of_iff (long=false ∧ c=ascii 'd' ∧ intOf (ap.words a)= -2^31)
    (by simp [Smallest,and_assoc])
  | .char _ => isFalse fun h => Item.noConfusion h.1
  | .lone => isFalse fun h => Item.noConfusion h.1

/-- The bytes that the branches store for an item: of the smallest `int` only the
sign. -/
def storedText (ap : Varargs) (a : ℕ) (it : Item) : List UInt8 :=
  if Smallest ap a it then [ascii '-'] else itemText ap a it

/-- Texts of items one after the other. -/
def joined (text : ℕ → Item → List UInt8) : ℕ → List Item → List UInt8
  | _, [] => []
  | a, it::rest => text a it++joined text (a+it.arity) rest

/-- The item is a conversion. -/
def IsConversion : Item → Prop
  | .conv _ _ => True
  | _ => False

variable {ap : Varargs} {fmt : CString} {base k a : ℕ} {c : UInt8} {it : Item}
  {its : List Item} {buf f : List UInt8}

/-- The array has room for the digits of every number. -/
theorem collectedDigits_eq (hbase : 10≤base) {v : ℕ} (hv : v<2^32) :
    collectedDigits base v=numeral base v := by
  have hpow : 10^16≤base^16 := Nat.pow_le_pow_left hbase 16
  rw [collectedDigits,Int.toNat_natCast,whileLoop_eq (by omega) (by omega),numeral,digits]
  by_cases h0 : v=0
  · subst h0
    simp
  · rw [if_neg h0,if_neg (by exact_mod_cast h0),List.nil_append]

/-- The branch for `%d` stores the decimal numeral, except for the smallest `int`. -/
theorem collectedDigits_decimal {v : ℤ} (hlow : -2^31<v) (hhigh : v<2^31) :
    (if v<0 then buf++[ascii '-'] else buf)++
      collectedDigits 10 (if v<0 then Descriptors.wrapInt (-v) else v)=buf++decimal v := by
  by_cases hneg : v<0
  · rw [if_pos hneg,if_pos hneg,Descriptors.wrapInt_of_range (by omega) (by omega),decimal,
      if_pos hneg,List.append_assoc,List.singleton_append]
    have habs : -v=(v.natAbs : ℤ) := by omega
    rw [habs,collectedDigits_eq le_rfl (by omega)]
  · rw [if_neg hneg,if_neg hneg,decimal,if_neg hneg]
    have habs : v=(v.natAbs : ℤ) := by omega
    rw [habs,collectedDigits_eq le_rfl (by omega),Int.natAbs_natCast]

/-- A plain conversion stores its text. -/
theorem convert_eq (h : PlainItem (.conv false c)) : convert ap c a buf=
    (a+(Item.conv false c).arity,buf++storedText ap a (.conv false c)) := by
  have hrange := Descriptors.toInt_range (ap.words a).toNat
  have hhex : unsignedOf false (ap.words a)<2^32 := Nat.mod_lt _ (by norm_num)
  rcases h.2 with rfl | rfl | rfl
  · have hnot : ¬Smallest ap a (.conv false (ascii 's')) := by
      simp +decide [Smallest]
    rw [storedText,if_neg hnot]
    rfl
  · by_cases hs : Smallest ap a (.conv false (ascii 'd'))
    · rw [storedText,if_pos hs]
      simp +decide [convert,hs.2,Item.arity]
    · have hne : intOf (ap.words a)≠ -2^31 := fun h0 => hs ⟨rfl,h0⟩
      rw [intOf] at hne
      rw [storedText,if_neg hs]
      have hdec := @collectedDigits_decimal buf (intOf (ap.words a))
        (by rw [intOf]; omega) (by rw [intOf]; omega)
      simp +decide only [convert,if_true,if_false,hdec,itemText,Item.arity]
  · have hnot : ¬Smallest ap a (.conv false (ascii 'x')) := by
      simp +decide [Smallest]
    rw [storedText,if_neg hnot]
    simp +decide only [convert,if_true,if_false,collectedDigits_eq (by norm_num : 10≤16) hhex,
      List.append_assoc,itemText,Item.arity]

/-- The items from a position and an argument on fit, as far as the loop reaches
them. -/
def Fits (ap : Varargs) : ℕ → ℕ → List Item → Prop
  | _, _, [] => True
  | k, a, it::rest =>
    k+(storedText ap a it).length<bufSize ∧
      ((IsConversion it → k+(storedText ap a it).length<stopLength) →
        Fits ap (k+(storedText ap a it).length) (a+it.arity) rest)

end OvsbMk.ConsoleFormatting
