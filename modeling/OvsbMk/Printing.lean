import OvsbMk.Formatting

/-!
# Printing

`printf` and `fprintf` of the library, which interpret formats on their own, against
`vsnprintf`. Neither of them looks whether a string is null, and the loop that collects
the digits in `fprintf` has the end test of the loop that prints them. The theorem says
for which calls the three agree.
-/

namespace OvsbMk.Printing

open Numerals Formatting

/-- The loop over the format that `printf` and `fprintf` share. A conversion gives the
number of arguments read and the bytes written so far; nothing if it has no defined
result. -/
def scanLoop (conversion : UInt8 → ℕ → List UInt8 → Option (ℕ×List UInt8)) :
    Scan → List UInt8 → ℕ → List UInt8 → Option (List UInt8)
  | .text, [], _, out => some out
  | .text, c::f, a, out =>
    if c=ascii '%' then scanLoop conversion (.spec false) f a out
    else scanLoop conversion .text f a (out++[c])
  | .spec _, [], _, _ => none
  | .spec _, c::f, a, out =>
    (conversion c a out).bind fun r => scanLoop conversion .text f r.1 r.2

/-- `_pd`. -/
def pd (v : ℕ) : List UInt8 := (doLoop 10 20 v).reverse.map digitByte

/-- `_ph`. -/
def ph (v : ℕ) : List UInt8 := (doLoop 16 20 v).reverse.map digitByte

/-- The branches of `switch (*p)` in `printf`. A string at the null address cannot be
read. -/
def printfConversion (ap : Varargs) (c : UInt8) (a : ℕ) (out : List UInt8) :
    Option (ℕ×List UInt8) :=
  if c=ascii 'd' then
    let v := intOf (ap.words a)
    let out := if v<0 then out++[ascii '-'] else out
    let v := if v<0 then -v else v
    some (a+1,out++pd (v%2^32).toNat)
  else if c=ascii 'u' then some (a+1,out++pd (unsignedOf false (ap.words a)))
  else if c=ascii 'x' ∨ c=ascii 'X' then some (a+1,out++ph (unsignedOf false (ap.words a)))
  else if c=ascii 's' then
    if ap.words a=0 then none else some (a+1,out++(ap.text (ap.words a)).chars)
  else if c=ascii 'c' then some (a+1,out++[(ap.words a).toUInt8])
  else if c=ascii '%' then some (a,out++[ascii '%'])
  else some (a,out)

/-- `printf`: the bytes written to the standard output. -/
def printf (fmt : CString) (ap : Varargs) : Option (List UInt8) :=
  scanLoop (printfConversion ap) .text fmt.chars 0 []

/-- The loop `do { *q++ = '0' + u % 10; u /= 10; } while (q > b);` of `fprintf`, for at
most the given number of rounds. -/
def fprintfDigits : ℕ → ℕ → List ℕ → Option (List ℕ)
  | 0, _, _ => none
  | rounds+1, u, stored =>
    if 0<(stored++[u%10]).length then fprintfDigits rounds (u/10) (stored++[u%10])
    else some (stored++[u%10])

/-- The branches of `switch (*p)` in `fprintf`. -/
def fprintfConversion (rounds : ℕ) (ap : Varargs) (c : UInt8) (a : ℕ) (out : List UInt8) :
    Option (ℕ×List UInt8) :=
  if c=ascii 'd' then
    let v := intOf (ap.words a)
    let out := if v<0 then out++[ascii '-'] else out
    let v := if v<0 then -v else v
    (fprintfDigits rounds (v%2^32).toNat []).map fun ds => (a+1,out++ds.reverse.map digitByte)
  else if c=ascii 's' then
    if ap.words a=0 then none else some (a+1,out++(ap.text (ap.words a)).chars)
  else if c=ascii 'c' then some (a+1,out++[(ap.words a).toUInt8])
  else if c=ascii '%' then some (a,out++[ascii '%'])
  else some (a,out)

/-- `fprintf`: the bytes written to the file, if the loops end within a number of
rounds. -/
def fprintf (rounds : ℕ) (fmt : CString) (ap : Varargs) : Option (List UInt8) :=
  scanLoop (fprintfConversion rounds ap) .text fmt.chars 0 []

/-- The item is a character or one of the conversions `%d`, `%s`, `%c` and `%%`. -/
def PlainItem : Item → Prop
  | .char _ => True
  | .conv long c => long=false ∧ (c=ascii 'd' ∨ c=ascii 's' ∨ c=ascii 'c' ∨ c=ascii '%')
  | .lone => False

/-- The format consists of such items. -/
def Plain (fmt : CString) : Prop := ∀ it∈items .text fmt.chars, PlainItem it

/-- `printf` and `fprintf` return and write what `vsnprintf` stores when there is room
enough. -/
def FormattersAgree (fmt : CString) (ap : Varargs) : Prop :=
  ∃ out, (∃ room : ℤ, ∀ n, room≤n → vsnprintf n fmt ap=.done (out++[0]) out.length) ∧
    printf fmt ap=some out ∧ ∃ rounds, fprintf rounds fmt ap=some out

/-- The item is a string conversion whose argument is null. -/
def NullString (ap : Varargs) (a : ℕ) (it : Item) : Prop :=
  it=.conv false (ascii 's') ∧ ap.words a=0

/-- The item can be printed: it is no number, and no null string. -/
def Printable (ap : Varargs) (a : ℕ) (it : Item) : Prop :=
  it≠.conv false (ascii 'd') ∧ ¬NullString ap a it

variable {fmt : CString} {ap : Varargs} {c : UInt8} {a : ℕ} {out f : List UInt8}
  {P : ℕ → Item → Prop}

/-- The loop over a plain format: with conversions that have a defined result on some
items only, and store the items' texts there, the loop has one exactly when all items
are of that kind, and then writes the expansion. -/
theorem scanLoop_spec {conversion : UInt8 → ℕ → List UInt8 → Option (ℕ×List UInt8)}
    (hgood : ∀ c a out, PlainItem (.conv false c) → P a (.conv false c) →
      conversion c a out=
        some (a+(Item.conv false c).arity,out++(Item.conv false c).text ap a))
    (hbad : ∀ c a out, PlainItem (.conv false c) → ¬P a (.conv false c) → conversion c a out=none)
    (hchar : ∀ a c, P a (.char c)) (m : Scan) (hm : m=.text ∨ m=.spec false) (f : List UInt8)
    (a : ℕ) (out : List UInt8) (hplain : ∀ it∈items m f, PlainItem it) :
    (Along P a (items m f) ∧
      scanLoop conversion m f a out=some (out++expand ap a (items m f))) ∨
    (¬Along P a (items m f) ∧ scanLoop conversion m f a out=none) := by
  induction f generalizing m a out with
  | nil =>
    cases m with
    | text =>
      refine .inl ⟨trivial,?_⟩
      rw [scanLoop,items,expand,List.append_nil]
    | spec long => exact (hplain .lone (List.mem_singleton_self _)).elim
  | cons c f ih =>
    cases m with
    | text =>
      rw [items] at hplain ⊢
      rw [scanLoop]
      by_cases hp : c=ascii '%'
      · rw [if_pos hp] at hplain ⊢
        rw [if_pos hp]
        exact ih (.spec false) (.inr rfl) a out hplain
      · rw [if_neg hp] at hplain ⊢
        rw [if_neg hp]
        have hnext := ih .text (.inl rfl) a (out++[c]) fun it hit =>
          hplain it (List.mem_cons_of_mem _ hit)
        rw [List.append_assoc,List.singleton_append] at hnext
        refine hnext.imp (fun h => ⟨⟨hchar a c,h.1⟩,h.2⟩) fun h => ⟨fun hh => h.1 hh.2,h.2⟩
    | spec long =>
      obtain rfl : long=false := Scan.spec.inj (hm.resolve_left (by simp))
      rw [items] at hplain ⊢
      rw [scanLoop]
      by_cases hl : c=ascii 'l'
      · rw [if_pos hl] at hplain
        exact (items_long_not (fun _ h => Bool.noConfusion h.1) id f hplain).elim
      · rw [if_neg hl] at hplain ⊢
        have hitem := hplain _ List.mem_cons_self
        by_cases hP : P a (.conv false c)
        · rw [hgood c a out hitem hP,Option.bind_some]
          have hnext := ih .text (.inl rfl) (a+(Item.conv false c).arity)
            (out++(Item.conv false c).text ap a) fun it hit =>
              hplain it (List.mem_cons_of_mem _ hit)
          rw [List.append_assoc] at hnext
          refine hnext.imp (fun h => ⟨⟨hP,h.1⟩,h.2⟩) fun h => ⟨fun hh => h.1 hh.2,h.2⟩
        · rw [hbad c a out hitem hP,Option.bind_none]
          exact .inr ⟨fun h => hP h.1,rfl⟩

/-- An `int` is small. -/
theorem intOf_natAbs (w : UInt64) : (intOf w).natAbs≤2^31 := by
  have hint := Descriptors.toInt_range w.toNat
  rw [intOf]
  omega

/-- The array of `_pd` has room for the digits of every number. -/
theorem pd_eq {v : ℕ} (hv : v<2^64) : pd v=numeral 10 v := by
  rw [pd,doLoop_eq (by norm_num) (by norm_num) (by omega),List.reverse_reverse,numeral]

/-- The branch of `printf` for signed numbers writes the decimal numeral. -/
theorem pd_decimal (w : UInt64) :
    (if intOf w<0 then out++[ascii '-'] else out)++
      pd ((if intOf w<0 then -intOf w else intOf w)%2^32).toNat=out++decimal (intOf w) := by
  have hsmall := intOf_natAbs w
  have habs : ((if intOf w<0 then -intOf w else intOf w)%2^32).toNat=(intOf w).natAbs := by
    split <;> omega
  rw [habs,pd_eq (by omega),decimal]
  split
  next => rw [List.append_assoc,List.singleton_append]
  next => rfl

/-- Plain conversions of `printf` write their texts, unless a string is null. -/
theorem printfConversion_good (hplain : PlainItem (.conv false c))
    (h : ¬NullString ap a (.conv false c)) : printfConversion ap c a out=
      some (a+(Item.conv false c).arity,out++(Item.conv false c).text ap a) := by
  rcases hplain.2 with rfl | rfl | rfl | rfl
  · simp only [printfConversion,if_true,Item.arity,true_or,Item.text,conversionText,pd_decimal,
      Bool.false_eq_true,if_false]
  · have hword : ap.words a≠0 := fun h0 => h ⟨rfl,h0⟩
    simp +decide [printfConversion,Item.arity,Item.text,conversionText,hword]
  · simp +decide [printfConversion,Item.arity,Item.text,conversionText]
  · simp +decide [printfConversion,Item.arity,Item.text,conversionText]

/-- A null string has no defined result in `printf`. -/
theorem printfConversion_bad (h : NullString ap a (.conv false c)) :
    printfConversion ap c a out=none := by
  obtain ⟨hc,hword⟩ := h
  obtain rfl := (Item.conv.inj hc).2
  simp +decide [printfConversion,hword]

/-- The loop that collects the digits in `fprintf` never ends. -/
theorem fprintfDigits_none (rounds u : ℕ) (stored : List ℕ) :
    fprintfDigits rounds u stored=none := by
  induction rounds generalizing u stored with
  | zero => rfl
  | succ rounds ih =>
    rw [fprintfDigits,if_pos (by simp)]
    exact ih _ _

/-- Plain conversions of `fprintf` other than numbers and null strings write their
texts. -/
theorem fprintfConversion_good {rounds : ℕ} (hplain : PlainItem (.conv false c))
    (h : Printable ap a (.conv false c)) : fprintfConversion rounds ap c a out=
      some (a+(Item.conv false c).arity,out++(Item.conv false c).text ap a) := by
  rcases hplain.2 with rfl | rfl | rfl | rfl
  · exact (h.1 rfl).elim
  · have hword : ap.words a≠0 := fun h0 => h.2 ⟨rfl,h0⟩
    simp +decide [fprintfConversion,Item.arity,Item.text,conversionText,hword]
  · simp +decide [fprintfConversion,Item.arity,Item.text,conversionText]
  · simp +decide [fprintfConversion,Item.arity,Item.text,conversionText]

/-- Numbers and null strings have no defined result in `fprintf`. -/
theorem fprintfConversion_bad {rounds : ℕ} (h : ¬Printable ap a (.conv false c)) :
    fprintfConversion rounds ap c a out=none := by
  rw [Printable,not_and_or,not_ne_iff,not_not] at h
  rcases h with hc | ⟨hc,hword⟩
  · obtain rfl := (Item.conv.inj hc).2
    rw [fprintfConversion,if_pos rfl]
    dsimp only
    rw [fprintfDigits_none,Option.map_none]
  · obtain rfl := (Item.conv.inj hc).2
    simp +decide [fprintfConversion,hword]

/-- `printf` on a plain format. -/
theorem printf_cases (hplain : Plain fmt) :
    (Along (fun a it => ¬NullString ap a it) 0 (items .text fmt.chars) ∧
      printf fmt ap=some (expansion fmt ap)) ∨
    (¬Along (fun a it => ¬NullString ap a it) 0 (items .text fmt.chars) ∧ printf fmt ap=none) :=
  scanLoop_spec (P:=fun a it => ¬NullString ap a it)
    (fun _ _ _ h1 h2 => printfConversion_good h1 h2)
    (fun _ _ _ _ h => printfConversion_bad (not_not.mp h))
    (fun _ _ h => Item.noConfusion h.1) .text (.inl rfl) fmt.chars 0 [] hplain

/-- `fprintf` on a plain format, for any number of rounds. -/
theorem fprintf_cases (hplain : Plain fmt) (rounds : ℕ) :
    (Along (Printable ap) 0 (items .text fmt.chars) ∧
      fprintf rounds fmt ap=some (expansion fmt ap)) ∨
    (¬Along (Printable ap) 0 (items .text fmt.chars) ∧ fprintf rounds fmt ap=none) :=
  scanLoop_spec (fun _ _ _ h1 h2 => fprintfConversion_good h1 h2)
    (fun _ _ _ _ h => fprintfConversion_bad h)
    (fun _ _ => ⟨by simp,fun h => Item.noConfusion h.1⟩) .text (.inl rfl) fmt.chars 0 [] hplain

/-- With enough room `vsnprintf` stores the expansion of a plain format. -/
theorem vsnprintf_plain (hplain : Plain fmt) {n : ℤ} (hn : ((expansion fmt ap).length : ℤ)<n) :
    vsnprintf n fmt ap=.done (expansion fmt ap++[0]) (expansion fmt ap).length := by
  have hharmless : HarmlessWithin n.toNat fmt ap := by
    intro pre it post heq _
    have hit := hplain it (by rw [heq]; simp)
    cases it with
    | char c => trivial
    | conv long c =>
      left
      rw [Known]
      rcases hit.2 with h | h | h | h <;> simp [h]
    | lone => exact hit
  obtain ⟨_,hdone⟩ := (vsnprintf_cases (by omega) fmt ap).resolve_right fun h => h.1 hharmless
  rw [hdone,List.take_of_length_le (by omega),finish]

/-- For every plain format and all arguments, the three formatters agree exactly when
the format has no `%d` and no `%s` is given a null pointer. -/
theorem formattersAgree_iff (hplain : Plain fmt) (ap : Varargs) : FormattersAgree fmt ap ↔
    ∀ pre it post, items .text fmt.chars=pre++it::post →
      Printable ap (pre.map Item.arity).sum it := by
  have halong := along_iff (P:=Printable ap) (items .text fmt.chars) 0
  simp only [Nat.zero_add] at halong
  rw [←halong]
  constructor
  · rintro ⟨out,_,_,rounds,hout⟩
    rcases fprintf_cases hplain rounds with ⟨h,_⟩ | ⟨_,hnone⟩
    · exact h
    · rw [hnone] at hout
      cases hout
  · intro h
    have hnull : Along (fun a it => ¬NullString ap a it) 0 (items .text fmt.chars) :=
      h.imp fun _ _ hp => hp.2
    refine ⟨expansion fmt ap,⟨(expansion fmt ap).length+1,fun n hn => ?_⟩,?_,0,?_⟩
    · exact vsnprintf_plain hplain (by omega)
    · exact ((printf_cases hplain).resolve_right fun hn => hn.1 hnull).2
    · exact ((fprintf_cases hplain 0).resolve_right fun hn => hn.1 h).2

/-- A format with a number. -/
def numberFormat : CString := .ofChars ['n','=','%','d']

/-- A format with a string. -/
def stringFormat : CString := .ofChars ['<','%','s','>']

/-- The items of the format with a number. -/
theorem numberFormat_items : items .text numberFormat.chars=
    [.char (ascii 'n'),.char (ascii '='),.conv false (ascii 'd')] := rfl

/-- The format with a string is plain. -/
theorem stringFormat_plain : Plain stringFormat := by
  have hitems : items .text stringFormat.chars=
      [.char (ascii '<'),.conv false (ascii 's'),.char (ascii '>')] := rfl
  rw [Plain,hitems]
  simp [PlainItem]

/-- The condition decides about a null string. -/
theorem stringFormat_iff : FormattersAgree stringFormat noArguments ↔
    ∀ pre it post, items .text stringFormat.chars=pre++it::post →
      Printable noArguments (pre.map Item.arity).sum it :=
  formattersAgree_iff stringFormat_plain noArguments

/-- Printing a number: `printf` writes it, and `fprintf` never ends. Printing a null
string: `vsnprintf` has a text for it, and `printf` reads at the null address. -/
theorem numberFormat_differs : printf numberFormat noArguments=some (['n','=','0'].map ascii) ∧
    (∀ rounds, fprintf rounds numberFormat noArguments=none) ∧
    ¬FormattersAgree numberFormat noArguments ∧
    vsnprintf 100 stringFormat noArguments=
      .done (ascii '<'::nullText++[ascii '>',0]) 8 ∧
    printf stringFormat noArguments=none := by
  have hplain : Plain numberFormat := by
    rw [Plain,numberFormat_items]
    simp [PlainItem]
  have hnever : ∀ rounds, fprintf rounds numberFormat noArguments=none := by
    intro rounds
    refine ((@fprintf_cases numberFormat noArguments hplain rounds).resolve_left fun h => ?_).2
    rw [numberFormat_items] at h
    exact h.1.2.2.1.1 rfl
  refine ⟨by decide,hnever,?_,by decide,by decide⟩
  rintro ⟨out,_,_,rounds,hout⟩
  rw [hnever rounds] at hout
  cases hout

end OvsbMk.Printing
