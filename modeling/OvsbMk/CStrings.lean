import Mathlib.Tactic

/-!
# Strings in memory

Strings of bytes other than zero with a terminator behind them, at an address of a memory,
and rows of equal size that hold one string each.
-/

namespace OvsbMk.CStrings

/-- A string with its terminator is in memory from an address on. -/
def StringAt (mem : ℕ → UInt8) : ℕ → List UInt8 → Prop
  | a, [] => mem a=0
  | a, c::s => mem a=c ∧ c≠0 ∧ StringAt mem (a+1) s

/-- What is read from an address on until the terminator, within some room. -/
def textAt (mem : ℕ → UInt8) : ℕ → ℕ → List UInt8
  | _, 0 => []
  | a, room+1 => if mem a=0 then [] else mem a::textAt mem (a+1) room

/-- The first rows of a size hold strings, and the last byte of each row is zero. -/
structure Rows (count size : ℕ) (mem : ℕ → UInt8) (strings : List (List UInt8)) : Prop where
  /-- There are enough rows. -/
  enough : strings.length≤count
  /-- A string and its terminator fit into a row. -/
  fits : ∀ s∈strings, s.length<size
  /-- The strings. -/
  here : ∀ i s, strings[i]?=some s → StringAt mem (i*size) s
  /-- The last bytes. -/
  ends : ∀ i<count, mem (i*size+(size-1))=0

variable {mem mem' : ℕ → UInt8} {a room count size i : ℕ} {s t : List UInt8} {c : UInt8}
  {strings : List (List UInt8)}

/-- A string is determined by its bytes, of which none is zero, and the terminator. -/
theorem stringAt_iff :
    StringAt mem a s ↔ 0∉s ∧ ∀ i ≤ s.length, mem (a+i)=s.getD i 0 := by
  induction s generalizing a with
  | nil =>
    refine ⟨fun h => ⟨List.not_mem_nil,fun i hi => ?_⟩,fun h => h.2 0 (Nat.le_refl 0)⟩
    rw [Nat.le_zero.mp hi]
    exact h
  | cons c s ih =>
    have hnext : ∀ i, mem (a+1+i)=mem (a+(i+1)) := fun i => by rw [Nat.add_assoc,Nat.add_comm 1]
    rw [StringAt,ih,List.mem_cons,not_or]
    constructor
    · rintro ⟨hc,hne,hzero,hbytes⟩
      refine ⟨⟨hne.symm,hzero⟩,fun i hi => ?_⟩
      cases i with
      | zero => exact hc
      | succ i => exact (hnext i).symm.trans (hbytes i (Nat.le_of_succ_le_succ hi))
    · rintro ⟨⟨hne,hzero⟩,hbytes⟩
      refine ⟨hbytes 0 (Nat.zero_le _),Ne.symm hne,hzero,fun i hi => ?_⟩
      exact (hnext i).trans (hbytes (i+1) (Nat.succ_le_succ hi))

/-- The terminator. -/
theorem StringAt.terminated (h : StringAt mem a s) : mem (a+s.length)=0 := by
  rw [(stringAt_iff.mp h).2 s.length (Nat.le_refl _),List.getD_eq_getElem?_getD,
    List.getElem?_eq_none (Nat.le_refl _)]
  rfl

/-- A string depends on its bytes and the terminator only. -/
theorem StringAt.congr (h : StringAt mem a s) (hsame : ∀ i ≤ s.length, mem' (a+i)=mem (a+i)) :
    StringAt mem' a s := by
  rw [stringAt_iff] at h ⊢
  exact ⟨h.1,fun i hi => (hsame i hi).trans (h.2 i hi)⟩

/-- The end of a string is a string. -/
theorem StringAt.right (h : StringAt mem a (s++t)) : StringAt mem (a+s.length) t := by
  induction s generalizing a with
  | nil => exact h
  | cons c s ih =>
    rw [List.length_cons,Nat.add_comm s.length,←Nat.add_assoc]
    exact ih h.2.2

/-- A terminator in a string cuts it. -/
theorem StringAt.cut (h : StringAt mem a (s++t)) (hsame : ∀ i<s.length, mem' (a+i)=mem (a+i))
    (hend : mem' (a+s.length)=0) : StringAt mem' a s := by
  rw [stringAt_iff] at h ⊢
  constructor
  · exact fun hzero => h.1 (List.mem_append_left t hzero)
  · intro i hi
    cases Nat.lt_or_eq_of_le hi with
    | inl hlt =>
      have hle : i ≤ (s++t).length := by
        rw [List.length_append]
        omega
      rw [hsame i hlt,h.2 i hle,List.getD_eq_getElem?_getD,List.getElem?_append_left hlt,
        List.getD_eq_getElem?_getD]
    | inr he =>
      rw [he,hend,List.getD_eq_getElem?_getD,List.getElem?_eq_none (Nat.le_refl _)]
      rfl

/-- A string without its last character. -/
theorem StringAt.dropLast (h : StringAt mem a s)
    (hsame : ∀ i<s.length-1, mem' (a+i)=mem (a+i)) (hend : mem' (a+(s.length-1))=0) :
    StringAt mem' a s.dropLast := by
  cases s with
  | nil => exact hend
  | cons c s =>
    have hne : c::s≠[] := List.cons_ne_nil c s
    rw [←List.dropLast_append_getLast hne] at h
    rw [←List.length_dropLast] at hsame hend
    exact h.cut hsame hend

/-- A string with one more character. -/
theorem StringAt.snoc (h : StringAt mem a s) (hsame : ∀ i<s.length, mem' (a+i)=mem (a+i))
    (hc : c≠0) (hlast : mem' (a+s.length)=c) (hend : mem' (a+(s.length+1))=0) :
    StringAt mem' a (s++[c]) := by
  induction s generalizing a with
  | nil => exact ⟨hlast,hc,hend⟩
  | cons x s ih =>
    have hnext : ∀ i, a+1+i=a+(i+1) := fun i => by omega
    refine ⟨(hsame 0 (Nat.succ_pos _)).trans h.1,h.2.1,ih h.2.2 ?_ ?_ ?_⟩
    · intro i hi
      rw [hnext]
      exact hsame (i+1) (Nat.succ_lt_succ hi)
    · rw [hnext]
      exact hlast
    · rw [hnext]
      exact hend

/-- At most one string is at an address. -/
theorem StringAt.unique (hs : StringAt mem a s) (ht : StringAt mem a t) : s=t := by
  induction s generalizing a t with
  | nil =>
    cases t with
    | nil => rfl
    | cons d t => exact absurd (ht.1.symm.trans hs) ht.2.1
  | cons c s ih =>
    cases t with
    | nil => exact absurd (hs.1.symm.trans ht) hs.2.1
    | cons d t => rw [hs.1.symm.trans ht.1,ih hs.2.2 ht.2.2]

/-- A string that fits is read as it is. -/
theorem StringAt.text (h : StringAt mem a s) (hroom : s.length<room) : textAt mem a room=s := by
  induction s generalizing a room with
  | nil =>
    cases room with
    | zero => exact absurd hroom (Nat.not_lt_zero _)
    | succ room => exact if_pos h
  | cons c s ih =>
    cases room with
    | zero => exact absurd hroom (Nat.not_lt_zero _)
    | succ room =>
      rw [textAt,h.1,if_neg h.2.1,ih h.2.2 (Nat.lt_of_succ_lt_succ hroom)]

/-- A string in a row is read as it is. -/
theorem Rows.text (h : Rows count size mem strings) (hs : strings[i]?=some s) :
    textAt mem (i*size) size=s :=
  (h.here i s hs).text (h.fits s (List.mem_of_getElem? hs))

/-- A list with an entry stored at a place, or behind the last one. -/
def put (i : ℕ) (s : List UInt8) (strings : List (List UInt8)) : List (List UInt8) :=
  strings.take i++s::strings.drop (i+1)

/-- The entries after a store. -/
theorem getElem_put (hi : i ≤ strings.length) (k : ℕ) :
    (put i s strings)[k]?=if k=i then some s else strings[k]? := by
  have hlen : (strings.take i).length=i := by rw [List.length_take,Nat.min_eq_left hi]
  rw [put,List.getElem?_append,hlen]
  by_cases hlt : k < i
  · rw [if_pos hlt,if_neg (by omega),List.getElem?_take,if_pos hlt]
  · rw [if_neg hlt]
    by_cases he : k=i
    · simp [he]
    · obtain ⟨d,hd⟩ : ∃ d, k-i=d+1 := ⟨k-i-1,by omega⟩
      rw [if_neg he,hd,List.getElem?_cons_succ,List.getElem?_drop]
      congr 1
      omega

/-- The number of entries after a store. -/
theorem length_put (hi : i ≤ strings.length) :
    (put i s strings).length=max (i+1) strings.length := by
  rw [put,List.length_append,List.length_cons,List.length_take,List.length_drop]
  omega

/-- A store behind the last entry. -/
theorem put_length (s : List UInt8) (strings : List (List UInt8)) :
    put strings.length s strings=strings++[s] := by
  rw [put,List.take_length,List.drop_eq_nil_of_le (Nat.le_succ _)]

/-- Places of another row are in front of a row or behind it. -/
theorem row_apart {k x : ℕ} (hki : k≠i) (hx : x<size) :
    k*size+x < i*size ∨ i*size+size ≤ k*size+x := by
  cases Nat.lt_or_gt_of_ne hki with
  | inl hlt =>
    have hmul : (k+1)*size ≤ i*size := Nat.mul_le_mul_right size hlt
    rw [Nat.add_mul] at hmul
    omega
  | inr hgt =>
    have hmul : (i+1)*size≤k*size := Nat.mul_le_mul_right size hgt
    rw [Nat.add_mul] at hmul
    omega

/-- A row takes a string and the others stay. -/
theorem Rows.store (h : Rows count size mem strings) (hi : i ≤ strings.length) (hcount : i<count)
    (hfit : s.length<size) (hstr : StringAt mem' (i*size) s) (hend : mem' (i*size+(size-1))=0)
    (hsame : ∀ k x, k≠i → x<size → mem' (k*size+x)=mem (k*size+x)) :
    Rows count size mem' (put i s strings) := by
  refine ⟨?_,fun t ht => ?_,fun k t hk => ?_,fun k hk => ?_⟩
  · rw [length_put hi]
    exact max_le hcount h.enough
  · obtain ⟨k,hk⟩ := List.mem_iff_getElem?.mp ht
    rw [getElem_put hi] at hk
    split at hk
    next => rwa [←Option.some.inj hk]
    next => exact h.fits t (List.mem_of_getElem? hk)
  · rw [getElem_put hi] at hk
    split at hk
    next hki => rwa [hki,←Option.some.inj hk]
    next hki =>
      have hlen := h.fits t (List.mem_of_getElem? hk)
      exact (h.here k t hk).congr fun x hx => hsame k x hki (by omega)
  · by_cases hki : k=i
    · rwa [hki]
    · rw [hsame k (size-1) hki (by omega)]
      exact h.ends k hk

/-- The last row is given up. -/
theorem Rows.dropLast (h : Rows count size mem strings) :
    Rows count size mem strings.dropLast := by
  refine ⟨?_,fun t ht => h.fits t (List.mem_of_mem_dropLast ht),fun i t ht => ?_,h.ends⟩
  · rw [List.length_dropLast]
    exact (Nat.sub_le _ _).trans h.enough
  · rw [List.getElem?_dropLast] at ht
    split at ht
    next => exact h.here i t ht
    next => cases ht

end OvsbMk.CStrings
