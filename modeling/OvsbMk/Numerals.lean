import Mathlib.Data.Nat.Digits.Defs

/-!
# Numerals

The two loops with which programs write numbers, digit by digit from the least
significant one, and the numerals that the digits make up when they are read from
the other end.
-/

namespace OvsbMk.Numerals

/-- The byte of a character. -/
def ascii (c : Char) : UInt8 := c.toUInt8

/-- The byte of a digit. -/
def digitByte (d : ℕ) : UInt8 := if d<10 then UInt8.ofNat (48+d) else UInt8.ofNat (87+d)

/-- The loop `do { store v % base; v /= base; } while (v);` with room for a number of
digits, the least significant digit first. -/
def doLoop (base : ℕ) : ℕ → ℕ → List ℕ
  | 0, _ => []
  | room+1, v => v%base::(if v/base=0 then [] else doLoop base room (v/base))

/-- The loop `while (v > 0) { store v % base; v /= base; }`, likewise. -/
def whileLoop (base : ℕ) : ℕ → ℕ → List ℕ
  | 0, _ => []
  | room+1, v => if 0<v then v%base::whileLoop base room (v/base) else []

/-- The digits of a number, the most significant one first; zero has one digit. -/
def digits (base v : ℕ) : List ℕ := if v=0 then [0] else (Nat.digits base v).reverse

/-- The numeral of a number. -/
def numeral (base v : ℕ) : List UInt8 := (digits base v).map digitByte

/-- The decimal numeral of an integer. -/
def decimal (v : ℤ) : List UInt8 :=
  if v<0 then ascii '-'::numeral 10 v.natAbs else numeral 10 v.natAbs

variable {base room v : ℕ}

/-- With enough room the second loop stores all digits. -/
theorem whileLoop_eq (hbase : 1<base) (hroom : v<base^room) :
    whileLoop base room v=Nat.digits base v := by
  induction room generalizing v with
  | zero =>
    obtain rfl : v=0 := by simpa using hroom
    rw [whileLoop,Nat.digits_zero]
  | succ room ih =>
    rw [whileLoop]
    rcases Nat.eq_zero_or_pos v with rfl | hpos
    · simp
    · rw [if_pos hpos,Nat.digits_def' hbase hpos,ih]
      rw [pow_succ'] at hroom
      exact Nat.div_lt_of_lt_mul hroom

/-- With enough room the first loop stores all digits, and one for zero. -/
theorem doLoop_eq (hbase : 1<base) (hpos : 0<room) (hroom : v<base^room) :
    doLoop base room v=(digits base v).reverse := by
  obtain ⟨room,rfl⟩ := Nat.exists_eq_succ_of_ne_zero hpos.ne'
  have hdiv : v/base<base^room := by
    rw [pow_succ'] at hroom
    exact Nat.div_lt_of_lt_mul hroom
  have hrest : ∀ {room v}, v<base^room → v≠0 → doLoop base room v=Nat.digits base v := by
    intro room
    induction room with
    | zero => exact fun {v} hlt hne => (hne (by simpa using hlt)).elim
    | succ room ih =>
      intro v hlt hne
      rw [doLoop,Nat.digits_def' hbase (Nat.pos_of_ne_zero hne)]
      by_cases h0 : v/base=0
      · rw [if_pos h0,h0,Nat.digits_zero]
      · rw [if_neg h0,ih _ h0]
        rw [pow_succ'] at hlt
        exact Nat.div_lt_of_lt_mul hlt
  rw [digits]
  by_cases hzero : v=0
  · subst hzero
    simp [doLoop]
  · rw [if_neg hzero,List.reverse_reverse,hrest hroom hzero]

/-- Reading the digits from the most significant one on gives the number. -/
theorem foldl_digits (base v : ℕ) :
    (digits base v).foldl (fun a d => a*base+d) 0=v := by
  rw [digits]
  split
  next h => simp [h]
  next h =>
    have hvalue := Nat.ofDigits_digits base v
    rw [Nat.ofDigits_eq_foldr] at hvalue
    rw [List.foldl_reverse]
    simpa [Nat.add_comm,Nat.mul_comm] using hvalue

/-- A digit is less than the base. -/
theorem lt_of_mem_digits (hbase : 1<base) {d : ℕ} (hd : d∈digits base v) : d<base := by
  rw [digits] at hd
  split at hd
  next => simp only [List.mem_singleton] at hd; omega
  next => exact Nat.digits_lt_base hbase (List.mem_reverse.mp hd)

/-- A numeral is not empty. -/
theorem numeral_ne_nil (base v : ℕ) : numeral base v≠[] := by
  rw [numeral,digits]
  split
  next => simp
  next h => simpa using Nat.digits_ne_nil_iff_ne_zero.mpr h

end OvsbMk.Numerals
