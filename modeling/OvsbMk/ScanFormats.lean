import OvsbMk.IntegerText

/-!
# Scanning with a format

`sscanf` of the library, byte by byte over the format, against `vsnprintf`. What was written with
a format is read back with the same format when nothing behind a number continues it and every
blank of the format comes before a number: `sscanf` skips blanks of the format without a look at
the text, and it is only a number that skips blanks of the text.
-/

namespace OvsbMk.ScanFormats

open Formatting Numerals
open IntegerText (skipBlanks)

/-- What a conversion has stored. -/
inductive Stored where
  /-- A number. -/
  | int (v : Int32)
  /-- A character. -/
  | char (c : UInt8)
  deriving DecidableEq

/-- How a call ends. -/
inductive Scanned where
  /-- It returns the number of conversions, and has stored this. -/
  | done (m : ℕ) (stored : List Stored)
  /-- It reads past the terminator of the text or of the format. -/
  | overrun
  deriving DecidableEq

/-- The loop `while(*s>='0'&&*s<='9')`, with what is left of the text. -/
def digitsLoop : List UInt8 → Int32 → Option (Int32×List UInt8)
  | [], _ => none
  | c::s, n =>
    if ascii '0'≤c ∧ c≤ascii '9' then digitsLoop s (n*10+Int32.ofNat (c.toNat-48))
    else some (n,c::s)

/-- The branch `case 'd'`. -/
def scanInt (s : List UInt8) : Option (Int32×List UInt8) :=
  match skipBlanks s with
  | [] => none
  | c::s =>
    if c=ascii '-' then (digitsLoop s 0).map fun r => (-1*r.1,r.2)
    else if c=ascii '+' then (digitsLoop s 0).map fun r => (1*r.1,r.2)
    else (digitsLoop (c::s) 0).map fun r => (1*r.1,r.2)

/-- The loop of `sscanf` over the format, on a text with its terminator. -/
def sscanfLoop : List UInt8 → List UInt8 → ℕ → List Stored → Scanned
  | [], _, m, stored => .done m stored
  | c::f, s, m, stored =>
    if c=ascii ' ' then sscanfLoop f s m stored
    else if c≠ascii '%' then
      match s with
      | [] => .overrun
      | x::s => if x=c then sscanfLoop f s m stored else .done m stored
    else
      match f with
      | [] => .overrun
      | d::f =>
        if d=ascii 'd' then
          match scanInt s with
          | none => .overrun
          | some (v,s) => sscanfLoop f s (m+1) (stored++[.int v])
        else if d=ascii 'c' then
          match s with
          | [] => .overrun
          | x::s => sscanfLoop f s (m+1) (stored++[.char x])
        else sscanfLoop f s m stored

/-- `sscanf`. -/
def sscanf (s : List UInt8) (fmt : CString) : Scanned := sscanfLoop fmt.chars s 0 []

/-- A text goes on with a digit. -/
def StartsDigit : List UInt8 → Prop
  | [] => False
  | c::_ => ascii '0'≤c ∧ c≤ascii '9'

instance : (s : List UInt8) → Decidable (StartsDigit s)
  | [] => inferInstanceAs (Decidable False)
  | _::_ => inferInstanceAs (Decidable (_ ∧ _))

/-- A number or another blank comes next, or nothing. -/
def NumberNext : List Item → Prop
  | [] => True
  | .char c::_ => c=ascii ' '
  | .conv _ c::_ => c=ascii 'd'
  | .lone::_ => False

instance : (its : List Item) → Decidable (NumberNext its)
  | [] => isTrue trivial
  | .char _::_ => inferInstanceAs (Decidable (_=_))
  | .conv _ _::_ => inferInstanceAs (Decidable (_=_))
  | .lone::_ => isFalse id

/-- The items can be read back: blanks come before numbers, and what comes behind a number does
not go on with a digit. -/
def Readable (ap : Varargs) : ℕ → List Item → Prop
  | _, [] => True
  | a, .char c::rest => (c=ascii ' ' → NumberNext rest) ∧ Readable ap a rest
  | a, .conv long c::rest => long=false ∧
      (c=ascii 'd' ∧ ¬StartsDigit (expand ap (a+1) rest) ∨ c=ascii 'c') ∧ Readable ap (a+1) rest
  | _, .lone::_ => False

/-- The arguments that the items read. -/
def arguments (ap : Varargs) : ℕ → List Item → List Stored
  | _, [] => []
  | a, .conv _ c::rest =>
    (if c=ascii 'd' then .int (Int32.ofInt (intOf (ap.words a))) else .char (ap.words a).toUInt8)::
      arguments ap (a+1) rest
  | a, _::rest => arguments ap a rest

variable {ap : Varargs} {s t f : List UInt8} {ds : List ℕ} {c : UInt8}
  {a k m : ℕ} {stored : List Stored}

/-- Blanks are skipped up to another character. -/
theorem skipBlanks_blanks (k : ℕ) (hc : c≠ascii ' ') :
    skipBlanks (List.replicate k (ascii ' ')++c::s)=c::s := by
  induction k with
  | zero => exact if_neg hc
  | succ k ih => exact (if_pos rfl).trans ih

/-- The loop reads the digits, from any number on, and stops behind them. -/
theorem digitsLoop_digits (hds : ∀ d∈ds, d<10) (hrest : ¬StartsDigit (c::s)) (n : ℕ) :
    digitsLoop (ds.map digitByte++c::s) (Int32.ofNat n)=
      some (Int32.ofNat (ds.foldl (fun a d => a*10+d) n),c::s) := by
  induction ds generalizing n with
  | nil => exact if_neg hrest
  | cons d ds ih =>
    rw [List.forall_mem_cons] at hds
    have hbyte : ascii '0'≤digitByte d ∧ digitByte d≤ascii '9' ∧ (digitByte d).toNat-48=d := by
      have hall : ∀ d<10, ascii '0'≤digitByte d ∧ digitByte d≤ascii '9' ∧
          (digitByte d).toNat-48=d := by decide
      exact hall d hds.1
    have hnext : Int32.ofNat n*10+Int32.ofNat d=Int32.ofNat (n*10+d) := by
      rw [Int32.ofNat_add,Int32.ofNat_mul]
      rfl
    rw [List.map_cons,List.cons_append,digitsLoop,if_pos ⟨hbyte.1,hbyte.2.1⟩,hbyte.2.2,hnext]
    exact ih hds.2 (n*10+d)

/-- The loop reads a numeral. -/
theorem digitsLoop_numeral (hrest : ¬StartsDigit (c::s)) (n : ℕ) :
    digitsLoop (numeral 10 n++c::s) 0=some (Int32.ofNat n,c::s) := by
  have hdigits := digitsLoop_digits
    (fun d (hd : d∈digits 10 n) => lt_of_mem_digits (by decide) hd) hrest 0
  rw [foldl_digits] at hdigits
  exact hdigits

/-- Behind blanks a number is read, the least one by overflows that cancel, and what comes
behind it is left. -/
theorem scanInt_decimal (k : ℕ) (z : ℤ) (hne : t≠[]) (hrest : ¬StartsDigit t) :
    scanInt (List.replicate k (ascii ' ')++(decimal z++t))=some (Int32.ofInt z,t) := by
  obtain ⟨c,s,rfl⟩ := List.exists_cons_of_ne_nil hne
  have hnumeral := digitsLoop_numeral hrest z.natAbs
  rw [decimal]
  by_cases hneg : z<0
  · have hz : z=-(z.natAbs : ℤ) := by omega
    rw [if_pos hneg,scanInt,List.cons_append,skipBlanks_blanks k (by decide)]
    simp only [if_true]
    rw [hnumeral,Option.map_some,Int32.neg_mul,Int32.one_mul]
    conv_rhs => rw [hz,Int32.ofInt_neg,Int32.ofInt_eq_ofNat]
  · have hz : z=(z.natAbs : ℤ) := by omega
    obtain ⟨x,t,hxt,hblank,hminus,hplus⟩ := IntegerText.numeral_head z.natAbs
    rw [hxt,List.cons_append] at hnumeral
    rw [if_neg hneg,hxt,scanInt,List.cons_append,skipBlanks_blanks k hblank]
    simp only [if_neg hminus,if_neg hplus]
    rw [hnumeral,Option.map_some,Int32.one_mul]
    conv_rhs => rw [hz,Int32.ofInt_eq_ofNat]

/-- Behind an `l` nothing is readable. -/
theorem not_readable_long (f : List UInt8) : ¬Readable ap a (items (.spec true) f) := by
  induction f with
  | nil => exact id
  | cons c f ih =>
    unfold items
    split
    · exact ih
    · exact fun h => Bool.false_ne_true h.1.symm

/-- The terminator is not a digit. -/
theorem not_startsDigit_end (h : ¬StartsDigit s) : ¬StartsDigit (s++0::t) := by
  cases s with
  | nil => exact fun h => absurd h.1 (by decide)
  | cons c s => exact h

/-- A blank of the format is passed without a look at the text. -/
theorem sscanfLoop_blank : sscanfLoop (ascii ' '::f) s m stored=sscanfLoop f s m stored := by
  rw [sscanfLoop.eq_def]
  exact if_pos rfl

/-- Another character is compared. -/
theorem sscanfLoop_char (hblank : c≠ascii ' ') (hpercent : c≠ascii '%') :
    sscanfLoop (c::f) (c::s) m stored=sscanfLoop f s m stored := by
  rw [sscanfLoop.eq_def]
  dsimp only
  rw [if_neg hblank,if_pos hpercent]
  exact if_pos rfl

/-- A number is read behind blanks. -/
theorem sscanfLoop_int (f : List UInt8) (m : ℕ) (stored : List Stored) (k : ℕ) (z : ℤ)
    (hne : t≠[]) (hrest : ¬StartsDigit t) :
    sscanfLoop (ascii '%'::ascii 'd'::f) (List.replicate k (ascii ' ')++(decimal z++t)) m stored=
      sscanfLoop f t (m+1) (stored++[.int (Int32.ofInt z)]) := by
  rw [sscanfLoop.eq_def]
  dsimp only
  rw [if_neg (by decide),if_neg (not_not_intro rfl),if_pos rfl,scanInt_decimal k z hne hrest]

/-- A character is read as it is. -/
theorem sscanfLoop_byte : sscanfLoop (ascii '%'::ascii 'c'::f) (c::s) m stored=
    sscanfLoop f s (m+1) (stored++[.char c]) := by
  rw [sscanfLoop.eq_def]
  dsimp only
  rw [if_neg (by decide),if_neg (not_not_intro rfl),if_neg (by decide),if_pos rfl]

/-- The loop from any point of the format: the rest of the text is read back. Blanks that the
format had in front of a number are still there. The induction is on the length of the format. -/
theorem sscanfLoop_expand (f : List UInt8) (a k m : ℕ) (stored : List Stored)
    (hk : k=0 ∨ NumberNext (items .text f)) (h : Readable ap a (items .text f)) :
    sscanfLoop f (List.replicate k (ascii ' ')++(expand ap a (items .text f)++0::t)) m stored=
      .done (m+(arguments ap a (items .text f)).length)
        (stored++arguments ap a (items .text f)) := by
  induction hn : f.length using Nat.strong_induction_on generalizing f a k m stored with
  | _ n ih =>
    cases f with
    | nil =>
      change Scanned.done m stored=.done (m+0) (stored++[])
      rw [Nat.add_zero,List.append_nil]
    | cons c f =>
      have hlt : f.length<n := by
        rw [← hn,List.length_cons]
        omega
      by_cases hpercent : c=ascii '%'
      · subst hpercent
        cases f with
        | nil => exact h.elim
        | cons d f =>
          have hlt' : f.length<n := (Nat.lt_succ_self _).trans hlt
          have hitems : items .text (ascii '%'::d::f)=
            if d=ascii 'l' then items (.spec true) f else .conv false d::items .text f := rfl
          rw [hitems] at h hk ⊢
          by_cases hlong : d=ascii 'l'
          · rw [if_pos hlong] at h
            exact (not_readable_long f h).elim
          rw [if_neg hlong] at h hk ⊢
          obtain ⟨-,⟨rfl,hdigit⟩ | rfl,hrest⟩ := h
          · -- a number, which skips the blanks that are there
            have hnext := ih f.length hlt' f (a+1) 0 (m+1)
              (stored++[.int (Int32.ofInt (intOf (ap.words a)))]) (Or.inl rfl) hrest rfl
            have hnumber := sscanfLoop_int f m stored k (intOf (ap.words a))
              (List.append_ne_nil_of_right_ne_nil _ (List.cons_ne_nil 0 t))
              (not_startsDigit_end (t:=t) hdigit)
            rw [expand,List.append_assoc]
            refine hnumber.trans (hnext.trans ?_)
            rw [arguments,if_pos rfl,List.length_cons,List.append_assoc,Nat.add_assoc,
              Nat.add_comm 1]
            rfl
          · -- a character; there are no blanks in front of it
            obtain rfl : k=0 := hk.resolve_right (show ¬ascii 'c'=ascii 'd' by decide)
            have hnext := ih f.length hlt' f (a+1) 0 (m+1) (stored++[.char (ap.words a).toUInt8])
              (Or.inl rfl) hrest rfl
            rw [expand,List.append_assoc]
            refine sscanfLoop_byte.trans (hnext.trans ?_)
            rw [arguments,if_neg (by decide),List.length_cons,List.append_assoc,Nat.add_assoc,
              Nat.add_comm 1]
            rfl
      · have hitems : items .text (c::f)=.char c::items .text f := if_neg hpercent
        rw [hitems] at h hk ⊢
        by_cases hblank : c=ascii ' '
        · -- the blank stays in the text until a number comes
          subst hblank
          have hnext := ih f.length hlt f a (k+1) m stored (Or.inr (h.1 rfl)) h.2 rfl
          rw [List.replicate_succ',List.append_assoc] at hnext
          exact sscanfLoop_blank.trans hnext
        · obtain rfl : k=0 := hk.resolve_right hblank
          exact (sscanfLoop_char hblank hpercent).trans
            (ih f.length hlt f a 0 m stored (Or.inl rfl) h.2 rfl)

/-- `sscanf` reads back what was written with the same format, whatever comes behind it in
memory. -/
theorem sscanf_expansion (fmt : CString) (h : Readable ap 0 (items .text fmt.chars)) :
    sscanf (expansion fmt ap++0::t) fmt=
      .done (arguments ap 0 (items .text fmt.chars)).length
        (arguments ap 0 (items .text fmt.chars)) := by
  have hall := sscanfLoop_expand (t:=t) fmt.chars 0 0 0 [] (Or.inl rfl) h
  rw [Nat.zero_add] at hall
  exact hall

/-- Items that can be read back do no harm when they are written. -/
theorem readable_harmless (its : List Item) (a n k : ℕ) (h : Readable ap a its) :
    Harmless n ap k a its := by
  induction its generalizing a k with
  | nil => exact trivial
  | cons it rest ih =>
    cases it with
    | char c => exact fun _ => ⟨trivial,ih a _ h.2⟩
    | conv long c =>
      obtain ⟨-,hc,hrest⟩ := h
      have hknown : Known c ∧ (Item.conv long c).arity=1 := by
        rcases hc with ⟨rfl,-⟩ | rfl
        · exact ⟨Or.inl rfl,arity_reads (Or.inl rfl)⟩
        · exact ⟨Or.inr (Or.inr (Or.inr (Or.inr (Or.inr (Or.inl rfl))))),
            arity_reads (Or.inr (Or.inr (Or.inr (Or.inr rfl))))⟩
      refine fun _ => ⟨Or.inl hknown.1,?_⟩
      rw [hknown.2]
      exact ih (a+1) _ hrest
    | lone => exact h.elim

/-- What `vsnprintf` writes with room for all of it, `sscanf` reads back with the same format:
as many conversions as there are arguments, and the arguments. -/
theorem sscanf_vsnprintf {n : ℤ} (fmt : CString) (ap : Varargs)
    (hroom : (expansion fmt ap).length<n) (h : Readable ap 0 (items .text fmt.chars)) :
    ∃ text, vsnprintf n fmt ap=.done text (expansion fmt ap).length ∧
      sscanf text fmt=.done (arguments ap 0 (items .text fmt.chars)).length
        (arguments ap 0 (items .text fmt.chars)) := by
  have hn : 1 ≤ n := by omega
  have hharmless : HarmlessWithin n.toNat fmt ap := by
    have hall := readable_harmless _ 0 n.toNat 0 h
    rw [harmless_iff] at hall
    intro pre it post hsplit hpre
    have hit := hall pre it post hsplit (by omega)
    rwa [Nat.zero_add] at hit
  have hwrite := ((vsnprintf_cases hn fmt ap).resolve_right fun hbad => hbad.1 hharmless).2
  have htake : (expansion fmt ap).take (n.toNat-1)=expansion fmt ap :=
    List.take_of_length_le (by omega)
  rw [htake] at hwrite
  exact ⟨_,hwrite,sscanf_expansion fmt h⟩

/-- The format `a%d %d%c`. -/
def letterFormat : CString := .ofChars ['a','%','d',' ','%','d','%','c']

/-- Arguments that begin with the least number. -/
def letterArguments : Varargs :=
  ⟨fun i => if i=0 then 0x80000000 else if i=1 then 7 else 65,fun _ => letterFormat⟩

/-- It is read back behind the blank, and the letter behind the other number. -/
theorem letterFormat_read : ∃ text, vsnprintf 64 letterFormat letterArguments=
      .done text (expansion letterFormat letterArguments).length ∧
    sscanf text letterFormat=.done 3 [.int (-2147483648),.int 7,.char 65] :=
  sscanf_vsnprintf letterFormat letterArguments (by decide +kernel)
    ⟨fun h => absurd h (by decide),rfl,Or.inl ⟨rfl,by decide⟩,⟨fun _ => rfl,rfl,
      Or.inl ⟨rfl,by decide⟩,rfl,Or.inr rfl,trivial⟩⟩

end OvsbMk.ScanFormats
