import OvsbMk.CStrings
import OvsbMk.Formatting

/-!
# Environment and aliases

The two tables of `env.c` with the string functions of `utils.c`. Names and values are copied
into rows of fixed sizes, while names are looked up by comparing them as a whole. The tables
are finite maps exactly as long as no name is cut when it is stored.
-/

namespace OvsbMk.EnvTables

open CStrings
open Formatting (CString)

/-- Rows of a table, `ENV_MAX` and `ALIAS_MAX`. -/
abbrev tableMax : ℕ := 32

/-- Bytes of the name of a variable. -/
abbrev envNameSize : ℕ := 32

/-- Bytes of the name of an alias. -/
abbrev aliasNameSize : ℕ := 64

/-- Bytes of a value. -/
abbrev valSize : ℕ := 256

/-- A `char` is a signed number. -/
def signed (b : UInt8) : ℤ := b.toInt8.toInt

/-- `strcmp` of a string in memory and another one. -/
def strcmp (mem : ℕ → UInt8) : ℕ → List UInt8 → ℤ
  | a, [] => signed (mem a)
  | a, c::b => if mem a≠0 ∧ mem a=c then strcmp mem (a+1) b else signed (mem a)-signed c

/-- The second loop of `strncpy`. -/
def padZeros (mem : ℕ → UInt8) : ℕ → ℕ → ℕ → UInt8
  | _, 0 => mem
  | d, n+1 => padZeros (Function.update mem d 0) (d+1) n

/-- `strncpy`. Behind the terminator the second loop goes on. -/
def strncpy (mem : ℕ → UInt8) : ℕ → List UInt8 → ℕ → ℕ → UInt8
  | _, _, 0 => mem
  | d, [], n+1 => padZeros (Function.update mem d 0) (d+1) n
  | d, c::s, n+1 => strncpy (Function.update mem d c) (d+1) s n

/-- `strcpy` within a memory. It has no result when there is no terminator in so many bytes. -/
def strcpy : ℕ → (ℕ → UInt8) → ℕ → ℕ → Option (ℕ → UInt8)
  | 0, _, _, _ => none
  | room+1, mem, d, s =>
    if mem s=0 then some (Function.update mem d 0)
    else strcpy room (Function.update mem d (mem s)) (d+1) (s+1)

/-- A table: names, values and the number of rows in use. -/
structure Table where
  /-- The rows of the names. -/
  names : ℕ → UInt8
  /-- The rows of the values. -/
  vals : ℕ → UInt8
  /-- Rows in use. -/
  count : ℕ

/-- The loop that looks for a name. -/
def tableFind (size : ℕ) (t : Table) (name : List UInt8) : Option ℕ :=
  (List.range t.count).find? fun i => decide (strcmp t.names (i*size) name=0)

/-- The value of a name: the address of its row. -/
def tableGet (size : ℕ) (t : Table) (name : CString) : Option ℕ :=
  (tableFind size t name.chars).map (·*valSize)

/-- A name is bound to a value. -/
def tableSet (size : ℕ) (name val : CString) (t : Table) : Table :=
  match tableFind size t name.chars with
  | some i => { t with vals := strncpy t.vals (i*valSize) val.chars (valSize-1) }
  | none =>
    if t.count < tableMax then
      { names := strncpy t.names (t.count*size) name.chars (size-1)
        vals := strncpy t.vals (t.count*valSize) val.chars (valSize-1)
        count := t.count+1 }
    else t

/-- `env_get`. -/
def envGet (t : Table) (name : CString) : Option ℕ := tableGet envNameSize t name

/-- `env_set`. -/
def envSet (name val : CString) (t : Table) : Table := tableSet envNameSize name val t

/-- `alias_get`. -/
def aliasGet (t : Table) (name : CString) : Option ℕ := tableGet aliasNameSize t name

/-- `alias_set`. -/
def aliasSet (name val : CString) (t : Table) : Table := tableSet aliasNameSize name val t

/-- The loop of `alias_unset` that moves rows up, for a number of rows from one on. -/
def moveUp : ℕ → ℕ → Table → Option Table
  | 0, _, t => some t
  | n+1, j, t =>
    match strcpy aliasNameSize t.names (j*aliasNameSize) ((j+1)*aliasNameSize),
      strcpy valSize t.vals (j*valSize) ((j+1)*valSize) with
    | some names,some vals => moveUp n (j+1) { t with names := names, vals := vals }
    | _,_ => none

/-- `alias_unset`. -/
def aliasUnset (name : CString) (t : Table) : Option (Bool×Table) :=
  match tableFind aliasNameSize t name.chars with
  | none => some (false,t)
  | some i =>
    (moveUp (t.count-1-i) i t).map fun t => (true,{ t with count := t.count-1 })

/-- A table as it is at first. -/
def emptyTable : Table := ⟨fun _ => 0,fun _ => 0,0⟩

/-- Both tables. -/
structure Tables where
  /-- The environment. -/
  env : Table
  /-- The aliases. -/
  aliases : Table

/-- The calls that change the tables. -/
inductive Op where
  /-- `env_set`. -/
  | envSet (name val : CString)
  /-- `alias_set`. -/
  | aliasSet (name val : CString)
  /-- `alias_unset`. -/
  | aliasUnset (name : CString)

/-- A call: its result, if it has one, and the tables afterwards. -/
def step (s : Tables) : Op → Option (Option Bool×Tables)
  | .envSet name val => some (none,{ s with env := envSet name val s.env })
  | .aliasSet name val => some (none,{ s with aliases := aliasSet name val s.aliases })
  | .aliasUnset name =>
    (aliasUnset name s.aliases).map fun r => (some r.1,{ s with aliases := r.2 })

/-! ### Finite maps -/

/-- A map from names to values. -/
abbrev Bindings : Type := List UInt8 → Option (List UInt8)

/-- At most so many names are bound as a table has rows. -/
def Bindings.Bounded (m : Bindings) : Prop :=
  ∃ names : List (List UInt8), names.length≤tableMax ∧ ∀ n, m n≠none → n∈names

/-- What the tables stand for. -/
structure Maps where
  /-- The environment. -/
  env : Bindings
  /-- The aliases. -/
  aliases : Bindings

/-- The value of the last `set`, cut to 255 characters. -/
def Bindings.set (m : Bindings) (name val : CString) : Bindings :=
  Function.update m name.chars (some (val.chars.take 255))

/-- The maps after a call. -/
def mapsStep (m : Maps) : Op → Maps
  | .envSet name val => { m with env := m.env.set name val }
  | .aliasSet name val => { m with aliases := m.aliases.set name val }
  | .aliasUnset name => { m with aliases := Function.update m.aliases name.chars none }

/-- The result of a call: `alias_unset` tells whether the name was bound. -/
def mapsResult (m : Maps) : Op → Option Bool
  | .aliasUnset name => some (m.aliases name.chars).isSome
  | _ => none

/-- A lookup gives the value of the map, and no name occupies two rows. -/
structure Represents (size : ℕ) (t : Table) (m : Bindings) : Prop where
  /-- Lookups. -/
  get : ∀ name : CString,
    (tableGet size t name).map (fun a => textAt t.vals a valSize)=m name.chars
  /-- Rows. -/
  once : ∀ i j, i < t.count → j < t.count →
    textAt t.names (i*size) size=textAt t.names (j*size) size → i=j

/-- Both tables represent the maps. -/
def Agrees (s : Tables) (m : Maps) : Prop :=
  Represents envNameSize s.env m.env ∧ Represents aliasNameSize s.aliases m.aliases

/-- The tables represent the maps before and after every call, and calls return what the maps
tell. -/
def Correct (s : Tables) (m : Maps) : List Op → Prop
  | [] => Agrees s m
  | op::ops => Agrees s m ∧
    ∃ s', step s op=some (mapsResult m op,s') ∧ Correct s' (mapsStep m op) ops

/-- At most as many names are bound at a time as the tables have rows. -/
def AlwaysBounded (m : Maps) : List Op → Prop
  | [] => m.env.Bounded ∧ m.aliases.Bounded
  | op::ops => (m.env.Bounded ∧ m.aliases.Bounded) ∧ AlwaysBounded (mapsStep m op) ops

/-- A name that is bound is not cut when it is stored. -/
def Fits : Op → Prop
  | .envSet name _ => name.chars.length≤31
  | .aliasSet name _ => name.chars.length≤63
  | .aliasUnset _ => True

variable {mem mem' : ℕ → UInt8} {a d n room i j size count : ℕ} {name text : List UInt8}
  {strings : List (List UInt8)}

/-! ### Strings -/

/-- Different bytes are different numbers. -/
theorem signed_sub_eq_zero {x y : UInt8} : signed x-signed y=0 ↔ x=y := by
  rw [sub_eq_zero,signed,signed,Int8.toInt_inj]
  refine ⟨fun h => ?_,congrArg _⟩
  have hback := congrArg Int8.toUInt8 h
  rwa [UInt8.toUInt8_toInt8,UInt8.toUInt8_toInt8] at hback

/-- The terminator is the byte that is the number zero. -/
theorem signed_eq_zero {x : UInt8} : signed x=0 ↔ x=0 := by
  rw [←signed_sub_eq_zero (x:=x) (y:=0)]
  change _ ↔ signed x-0=0
  rw [sub_zero]

/-- Strings are equal when `strcmp` says so. -/
theorem strcmp_iff (h : StringAt mem a text) (hname : 0∉name) :
    strcmp mem a name=0 ↔ text=name := by
  induction name generalizing a text with
  | nil =>
    rw [strcmp,signed_eq_zero]
    cases text with
    | nil => exact ⟨fun _ => rfl,fun _ => h⟩
    | cons c text => exact ⟨fun h0 => absurd (h.1.symm.trans h0) h.2.1,fun he => by cases he⟩
  | cons c name ih =>
    rw [List.mem_cons,not_or] at hname
    rw [strcmp]
    cases text with
    | nil =>
      have hzero : mem a=0 := h
      rw [if_neg fun hand => hand.1 hzero,signed_sub_eq_zero,hzero]
      exact ⟨fun h0 => absurd h0 hname.1,fun he => by cases he⟩
    | cons b text =>
      by_cases hsame : b=c
      · rw [if_pos ⟨h.1 ▸ h.2.1,h.1.trans hsame⟩,ih h.2.2 hname.2,hsame]
        simp
      · rw [if_neg fun hand => hsame (h.1.symm.trans hand.2),signed_sub_eq_zero,h.1]
        exact ⟨fun h0 => absurd h0 hsame,fun he => absurd (List.cons.inj he).1 hsame⟩

/-- What the padding leaves. -/
theorem padZeros_apply (mem : ℕ → UInt8) (d n a : ℕ) :
    padZeros mem d n a=if d≤a ∧ a<d+n then 0 else mem a := by
  induction n generalizing mem d with
  | zero => rw [padZeros,if_neg (by omega)]
  | succ n ih =>
    rw [padZeros,ih,Function.update_apply]
    by_cases hrest : d+1≤a ∧ a<d+1+n
    · rw [if_pos hrest,if_pos (by omega)]
    · rw [if_neg hrest]
      by_cases hfirst : a=d
      · rw [if_pos hfirst,if_pos (by omega)]
      · rw [if_neg hfirst,if_neg (by omega)]

/-- What `strncpy` leaves. -/
theorem strncpy_apply (mem : ℕ → UInt8) (d : ℕ) (text : List UInt8) (n a : ℕ) :
    strncpy mem d text n a=if d≤a ∧ a<d+n then text.getD (a-d) 0 else mem a := by
  induction n generalizing mem d text with
  | zero =>
    rw [if_neg (by omega)]
    cases text <;> rfl
  | succ n ih =>
    cases text with
    | nil =>
      rw [strncpy]
      refine (padZeros_apply mem d (n+1) a).trans ?_
      split <;> rfl
    | cons c text =>
      rw [strncpy,ih,Function.update_apply]
      by_cases hrest : d+1≤a ∧ a<d+1+n
      · have hindex : a-d=a-(d+1)+1 := by omega
        rw [if_pos hrest,if_pos (by omega),hindex]
        rfl
      · rw [if_neg hrest]
        by_cases hfirst : a=d
        · rw [if_pos hfirst,if_pos (by omega),hfirst,Nat.sub_self]
          rfl
        · rw [if_neg hfirst,if_neg (by omega)]

/-- In front of a zero `strncpy` leaves the string, cut to its length. -/
theorem strncpy_stringAt (hzero : 0∉text) (hend : mem (d+n)=0) :
    StringAt (strncpy mem d text n) d (text.take n) := by
  rw [stringAt_iff]
  refine ⟨fun h => hzero (List.mem_of_mem_take h),fun k hk => ?_⟩
  rw [List.length_take] at hk
  simp only [strncpy_apply,List.getD_eq_getElem?_getD,List.getElem?_take]
  by_cases hlt : k<n
  · rw [if_pos (by omega),if_pos hlt,Nat.add_sub_cancel_left]
  · have he : k=n := by omega
    rw [if_neg (by omega),if_neg hlt,he]
    exact hend

/-- `strcpy` to a place in front of the string, and what it leaves elsewhere. -/
theorem strcpy_spec {src : ℕ} (h : StringAt mem src text) (hroom : text.length<room)
    (hplace : d+text.length<src) : ∃ mem', strcpy room mem d src=some mem' ∧
      StringAt mem' d text ∧ ∀ a, (a<d ∨ d+text.length<a) → mem' a=mem a := by
  induction text generalizing mem d src room with
  | nil =>
    obtain ⟨room,rfl⟩ := Nat.exists_eq_succ_of_ne_zero (Nat.ne_of_gt hroom)
    refine ⟨Function.update mem d 0,if_pos h,Function.update_self d 0 mem,fun a ha => ?_⟩
    rw [List.length_nil] at ha
    exact Function.update_of_ne (by omega) 0 mem
  | cons c text ih =>
    rw [List.length_cons] at hroom hplace
    obtain ⟨room,rfl⟩ := Nat.exists_eq_succ_of_ne_zero (show room≠0 by omega)
    have hrest : StringAt (Function.update mem d c) (src+1) text :=
      h.2.2.congr fun k _ => Function.update_of_ne (by omega) c mem
    obtain ⟨mem',hcopy,hstr,hsame⟩ := ih (d:=d+1) hrest (Nat.lt_of_succ_lt_succ hroom) (by omega)
    have hfirst : mem' d=c := (hsame d (by omega)).trans (Function.update_self d c mem)
    refine ⟨mem',?_,⟨hfirst,h.2.1,hstr⟩,fun a ha => ?_⟩
    · rw [strcpy,h.1,if_neg h.2.1]
      exact hcopy
    · rw [List.length_cons] at ha
      rw [hsame a (by omega),Function.update_of_ne (by omega)]

/-- A row takes a string of any length, cut to the size of the row. -/
theorem rows_strncpy (h : Rows count size mem strings) (hi : i ≤ strings.length)
    (hcount : i<count) (hsize : 0<size) (hzero : 0∉text) :
    Rows count size (strncpy mem (i*size) text (size-1)) (put i (text.take (size-1)) strings) := by
  have hlen : (text.take (size-1)).length<size := by
    rw [List.length_take]
    omega
  refine h.store hi hcount hlen (strncpy_stringAt hzero (h.ends i hcount)) ?_ fun k x hki hx => ?_
  · rw [strncpy_apply,if_neg (by omega)]
    exact h.ends i hcount
  · have hapart := row_apart hki hx
    rw [strncpy_apply,if_neg (by omega)]

/-- A row takes the string of the next row. -/
theorem rows_strcpy (h : Rows count size mem strings) (hnext : strings[j+1]?=some text) :
    ∃ mem', strcpy size mem (j*size) ((j+1)*size)=some mem' ∧
      Rows count size mem' (put j text strings) := by
  have hfit := h.fits text (List.mem_of_getElem? hnext)
  have hlt : j+1<strings.length := (List.getElem?_eq_some_iff.mp hnext).1
  have hrow : (j+1)*size=j*size+size := by rw [Nat.add_mul,Nat.one_mul]
  obtain ⟨mem',hcopy,hstr,hsame⟩ := strcpy_spec (h.here (j+1) text hnext) hfit
    (d:=j*size) (by omega)
  have hcount : j<count := by
    have henough := h.enough
    omega
  refine ⟨mem',hcopy,h.store (by omega) hcount hfit hstr ?_ fun k x hkj hx => hsame _ ?_⟩
  · by_cases hfull : text.length=size-1
    · rw [←hfull]
      exact hstr.terminated
    · rw [hsame _ (by omega)]
      exact h.ends j hcount
  · have hapart := row_apart hkj hx
    omega

/-! ### Tables -/

/-- The rows in use hold these names and values. -/
structure Holds (size : ℕ) (t : Table) (keys values : List (List UInt8)) : Prop where
  /-- The names. -/
  names : Rows tableMax size t.names keys
  /-- The values. -/
  vals : Rows tableMax valSize t.vals values
  /-- Rows in use. -/
  count : t.count=keys.length
  /-- A value for each name. -/
  length : values.length=keys.length

/-- A map has exactly these bindings. -/
structure Binds (m : Bindings) (keys values : List (List UInt8)) : Prop where
  /-- No name is there twice. -/
  nodup : keys.Nodup
  /-- The values of the names. -/
  bound : ∀ (i : ℕ) k v, keys[i]?=some k → values[i]?=some v → m k=some v
  /-- Other names have none. -/
  free : ∀ n, n∉keys → m n=none

variable {t : Table} {m : Bindings} {keys values : List (List UInt8)} {key value : CString}

/-- The comparison in row `i`. -/
theorem Holds.compare (h : Holds size t keys values) (hzero : 0∉name) (hi : i < t.count) :
    strcmp t.names (i*size) name=0 ↔ keys[i]?=some name := by
  rw [h.count] at hi
  have hkey : keys[i]?=some keys[i] := List.getElem?_eq_getElem hi
  rw [strcmp_iff (h.names.here i _ hkey) hzero,hkey,Option.some.injEq]

/-- A name is not found when no row holds it. -/
theorem Holds.find_none (h : Holds size t keys values) (hzero : 0∉name) :
    tableFind size t name=none ↔ name∉keys := by
  rw [tableFind,List.find?_eq_none]
  constructor
  · intro hnone hmem
    obtain ⟨i,hi⟩ := List.mem_iff_getElem?.mp hmem
    have hlt : i < t.count := h.count ▸ (List.getElem?_eq_some_iff.mp hi).1
    exact hnone i (List.mem_range.mpr hlt) (decide_eq_true ((h.compare hzero hlt).mpr hi))
  · intro hmem i hi hfound
    have hlt := List.mem_range.mp hi
    exact hmem (List.mem_of_getElem? ((h.compare hzero hlt).mp (of_decide_eq_true hfound)))

/-- The row in which a name is found holds it. -/
theorem Holds.find_some (h : Holds size t keys values) (hzero : 0∉name)
    (hfind : tableFind size t name=some i) : keys[i]?=some name := by
  have hmem := List.mem_of_find?_eq_some hfind
  have hfound := List.find?_some hfind
  exact (h.compare hzero (List.mem_range.mp hmem)).mp (of_decide_eq_true hfound)

/-- The value in a row that is in use. -/
theorem Holds.value_some (h : Holds size t keys values) (hkey : keys[i]?=some name) :
    ∃ v, values[i]?=some v := by
  have hlt := (List.getElem?_eq_some_iff.mp hkey).1
  exact ⟨_,List.getElem?_eq_getElem (h.length ▸ hlt)⟩

/-- A table that holds the bindings of a map represents it. -/
theorem Holds.represents (h : Holds size t keys values) (hb : Binds m keys values) :
    Represents size t m := by
  refine ⟨fun key => ?_,fun i j hi hj htext => ?_⟩
  · rw [tableGet]
    cases hfind : tableFind size t key.chars with
    | none => exact (hb.free _ ((h.find_none key.nonzero).mp hfind)).symm
    | some i =>
      have hkey := h.find_some key.nonzero hfind
      obtain ⟨v,hv⟩ := h.value_some hkey
      rw [hb.bound i _ v hkey hv]
      exact congrArg some (h.vals.text hv)
  · rw [h.count] at hi hj
    rw [h.names.text (List.getElem?_eq_getElem hi),h.names.text (List.getElem?_eq_getElem hj)]
      at htext
    exact (List.Nodup.getElem_inj_iff hb.nodup).mp htext

/-- A value takes the place of another one. -/
theorem Holds.overwrite (h : Holds size t keys values) (hkey : keys[i]?=some name)
    (hzero : 0∉text) : Holds size { t with vals := strncpy t.vals (i*valSize) text (valSize-1) }
      keys (put i (text.take (valSize-1)) values) := by
  have hlt := (List.getElem?_eq_some_iff.mp hkey).1
  have hi : i ≤ values.length := h.length ▸ hlt.le
  have hcount : i < tableMax := Nat.lt_of_lt_of_le hlt h.names.enough
  refine ⟨h.names,rows_strncpy h.vals hi hcount (by decide) hzero,h.count,?_⟩
  rw [length_put hi,h.length]
  exact Nat.max_eq_right hlt

/-- A row behind the last one takes a name and a value. -/
theorem Holds.append (h : Holds size t keys values) (hsize : 0<size) (hcount : t.count < tableMax)
    (hname : 0∉name) (hzero : 0∉text) : Holds size
      { names := strncpy t.names (t.count*size) name (size-1)
        vals := strncpy t.vals (t.count*valSize) text (valSize-1)
        count := t.count+1 }
      (keys++[name.take (size-1)]) (values++[text.take (valSize-1)]) := by
  have hkeys := rows_strncpy h.names (Nat.le_of_eq h.count) hcount hsize hname
  have hvals := rows_strncpy h.vals (Nat.le_of_eq (h.count.trans h.length.symm)) hcount
    (by decide) hzero
  rw [h.count,put_length] at hkeys
  rw [h.count,←h.length,put_length,h.length] at hvals
  rw [h.count]
  refine ⟨hkeys,hvals,?_,?_⟩
  · rw [List.length_append,List.length_singleton]
  · rw [List.length_append,List.length_append,h.length]
    rfl

/-- A value is replaced in the map as well. -/
theorem Binds.overwrite (hb : Binds m keys values) (hlength : values.length=keys.length)
    (hkey : keys[i]?=some key.chars) :
    Binds (m.set key value) keys (put i (value.chars.take 255) values) := by
  have hlt := (List.getElem?_eq_some_iff.mp hkey).1
  refine ⟨hb.nodup,fun k n v hk hv => ?_,fun n hn => ?_⟩
  · rw [getElem_put (hlength ▸ hlt.le)] at hv
    rw [Bindings.set,Function.update_apply]
    by_cases hki : k=i
    · rw [if_pos hki] at hv
      rw [hki,hkey,Option.some.injEq] at hk
      rw [if_pos hk.symm,hv]
    · rw [if_neg hki] at hv
      have hne : n≠key.chars := fun he =>
        hki ((List.getElem?_inj (List.getElem?_eq_some_iff.mp hk).1 hb.nodup).mp
          (hk.trans (he ▸ hkey.symm)))
      rw [if_neg hne]
      exact hb.bound k n v hk hv
  · have hne : n≠key.chars := fun he => hn (he ▸ List.mem_of_getElem? hkey)
    rw [Bindings.set,Function.update_of_ne hne]
    exact hb.free n hn

/-- A name is bound in the map as well. -/
theorem Binds.append (hb : Binds m keys values) (value : CString)
    (hlength : values.length=keys.length) (hkey : key.chars∉keys) :
    Binds (m.set key value) (keys++[key.chars]) (values++[value.chars.take 255]) := by
  refine ⟨?_,fun k n v hk hv => ?_,fun n hn => ?_⟩
  · rw [List.nodup_append]
    refine ⟨hb.nodup,List.nodup_singleton _,fun a ha b hb he => ?_⟩
    rw [List.mem_singleton] at hb
    exact hkey (hb ▸ he ▸ ha)
  · rw [List.getElem?_append] at hk hv
    rw [hlength] at hv
    rw [Bindings.set,Function.update_apply]
    by_cases hlt : k<keys.length
    · rw [if_pos hlt] at hk hv
      have hne : n≠key.chars := fun he => hkey (he ▸ List.mem_of_getElem? hk)
      rw [if_neg hne]
      exact hb.bound k n v hk hv
    · rw [if_neg hlt] at hk hv
      have hlast : k-keys.length=0 := by
        have hsome := (List.getElem?_eq_some_iff.mp hk).1
        rw [List.length_singleton] at hsome
        omega
      rw [hlast] at hk hv
      rw [if_pos (Option.some.inj hk).symm]
      exact hv
  · rw [List.mem_append,List.mem_singleton,not_or] at hn
    rw [Bindings.set,Function.update_of_ne hn.2]
    exact hb.free n hn.1

/-- A map with the names of a full table has no room for another one. -/
theorem Binds.length_lt (hb : Binds m keys values) (hlength : values.length=keys.length)
    (hkey : key.chars∉keys) (hbound : (m.set key value).Bounded) : keys.length < tableMax := by
  obtain ⟨names,hnames,hall⟩ := hbound
  have hnext := hb.append value hlength hkey
  have hsub : keys++[key.chars]⊆names := by
    intro n hn
    obtain ⟨k,hk⟩ := List.mem_iff_getElem?.mp hn
    have hlt := (List.getElem?_eq_some_iff.mp hk).1
    have hv : k<(values++[value.chars.take 255]).length := by
      rw [List.length_append,List.length_singleton] at hlt ⊢
      omega
    refine hall n ?_
    rw [hnext.bound k n _ hk (List.getElem?_eq_getElem hv)]
    exact Option.some_ne_none _
  have hle := (List.Nodup.subperm hnext.nodup hsub).length_le
  rw [List.length_append,List.length_singleton] at hle
  omega

/-- Binding a name that is not cut. -/
theorem Holds.set (h : Holds size t keys values) (hb : Binds m keys values) (hsize : 0<size)
    (hbound : (m.set key value).Bounded) (hfits : key.chars.length ≤ size-1) :
    ∃ keys' values', Holds size (tableSet size key value t) keys' values' ∧
      Binds (m.set key value) keys' values' := by
  rw [tableSet]
  cases hfind : tableFind size t key.chars with
  | some i =>
    have hkey := h.find_some key.nonzero hfind
    exact ⟨keys,_,h.overwrite hkey value.nonzero,hb.overwrite h.length hkey⟩
  | none =>
    have hkey := (h.find_none key.nonzero).mp hfind
    have hlt : t.count < tableMax := h.count ▸ hb.length_lt h.length hkey hbound
    have hwhole : key.chars.take (size-1)=key.chars := List.take_of_length_le hfits
    have happend := h.append hsize hlt key.nonzero value.nonzero
    rw [hwhole] at happend
    simp only [if_pos hlt]
    exact ⟨_,_,happend,hb.append value h.length hkey⟩

/-- A name that was cut is not found. -/
theorem Holds.set_long (h : Holds size t keys values) (value : CString) (hsize : 0<size)
    (hlong : ¬key.chars.length ≤ size-1) :
    tableGet size (tableSet size key value t) key=none := by
  have hnot : ∀ {t' : Table} {keys' values' : List (List UInt8)}, Holds size t' keys' values' →
      tableFind size t' key.chars=none := by
    intro t' keys' values' h'
    rw [h'.find_none key.nonzero]
    intro hmem
    have hlen := h'.names.fits _ hmem
    omega
  rw [tableGet,Option.map_eq_none_iff,tableSet,hnot h]
  by_cases hlt : t.count < tableMax
  · simp only [if_pos hlt]
    exact hnot (h.append hsize hlt key.nonzero value.nonzero)
  · simp only [if_neg hlt]
    exact hnot h

/-! ### Removal -/

/-- Rows that have moved up. -/
def movedUp : ℕ → ℕ → List (List UInt8) → List (List UInt8)
  | 0, _, strings => strings
  | n+1, j, strings => movedUp n (j+1) (put j (strings.getD (j+1) []) strings)

/-- What has moved up. -/
theorem getElem_movedUp (hn : j+n<strings.length) (k : ℕ) :
    (movedUp n j strings)[k]?=if j ≤ k ∧ k<j+n then strings[k+1]? else strings[k]? := by
  induction n generalizing j strings with
  | zero => rw [movedUp,if_neg (by omega)]
  | succ n ih =>
    have hj : j ≤ strings.length := by omega
    have hlen : (put j (strings.getD (j+1) []) strings).length=strings.length := by
      rw [length_put hj]
      omega
    rw [movedUp,ih (by omega),getElem_put hj,getElem_put hj,List.getD_eq_getElem?_getD]
    by_cases hkj : k=j
    · have hsome : strings[j+1]?=some strings[j+1] := List.getElem?_eq_getElem (by omega)
      rw [if_neg (by omega),if_pos hkj,if_pos (by omega),hkj,hsome]
      rfl
    · by_cases hin : j+1≤k ∧ k<j+1+n
      · rw [if_pos hin,if_neg (by omega),if_pos (by omega)]
      · rw [if_neg hin,if_neg hkj,if_neg (by omega)]

/-- All rows behind one have moved up: it is erased when the last row is given up. -/
theorem movedUp_dropLast (hi : i < strings.length) :
    (movedUp (strings.length-1-i) i strings).dropLast=strings.eraseIdx i := by
  have hlen : ∀ n j (l : List (List UInt8)), j+n<l.length → (movedUp n j l).length=l.length := by
    intro n
    induction n with
    | zero => exact fun j l _ => rfl
    | succ n ih =>
      intro j l hl
      have hput : (put j (l.getD (j+1) []) l).length=l.length := by
        rw [length_put (by omega)]
        omega
      rw [movedUp,ih (j+1) _ (by omega),hput]
  apply List.ext_getElem?
  intro k
  rw [List.getElem?_dropLast,hlen _ _ _ (by omega),getElem_movedUp (by omega),
    List.getElem?_eraseIdx]
  by_cases hlt : k<strings.length-1
  · rw [if_pos hlt]
    by_cases hk : k < i
    · rw [if_neg (by omega),if_pos hk]
    · rw [if_pos (by omega),if_neg hk]
  · rw [if_neg hlt,if_neg (by omega)]
    exact (List.getElem?_eq_none (by omega)).symm

/-- The loop of `alias_unset` stays within the rows and moves them up. -/
theorem moveUp_spec (hnames : Rows tableMax aliasNameSize t.names keys)
    (hvals : Rows tableMax valSize t.vals values) (hlength : values.length=keys.length)
    (hn : j+n<keys.length) : ∃ t', moveUp n j t=some t' ∧ t'.count=t.count ∧
      Rows tableMax aliasNameSize t'.names (movedUp n j keys) ∧
        Rows tableMax valSize t'.vals (movedUp n j values) := by
  induction n generalizing j t keys values with
  | zero => exact ⟨t,rfl,rfl,hnames,hvals⟩
  | succ n ih =>
    have hkey : keys[j+1]?=some (keys.getD (j+1) []) := by
      rw [List.getD_eq_getElem?_getD,List.getElem?_eq_getElem (by omega)]
      rfl
    have hvalue : values[j+1]?=some (values.getD (j+1) []) := by
      rw [List.getD_eq_getElem?_getD,List.getElem?_eq_getElem (by omega)]
      rfl
    obtain ⟨names,hcopy,hrows⟩ := rows_strcpy hnames hkey
    obtain ⟨vals,hcopy',hrows'⟩ := rows_strcpy hvals hvalue
    have hlen : ∀ l : List (List UInt8), l.length=keys.length →
        (put j (l.getD (j+1) []) l).length=keys.length := by
      intro l hl
      rw [length_put (by omega),hl]
      omega
    have hnext := ih (t:={ t with names := names, vals := vals }) (j:=j+1) hrows hrows'
      ((hlen values hlength).trans (hlen keys rfl).symm) (by rw [hlen keys rfl]; omega)
    rw [moveUp,hcopy,hcopy']
    exact hnext

/-- A binding is taken out of the map as well. -/
theorem Binds.erase (hb : Binds m keys values) (hkey : keys[i]?=some name) :
    Binds (Function.update m name none) (keys.eraseIdx i) (values.eraseIdx i) := by
  have hother : ∀ (k : ℕ) n, keys[k]?=some n → k≠i → n≠name := by
    intro k n hk hki he
    exact hki ((List.getElem?_inj (List.getElem?_eq_some_iff.mp hk).1 hb.nodup).mp
      (hk.trans (he ▸ hkey.symm)))
  refine ⟨hb.nodup.sublist (List.eraseIdx_sublist keys i),fun k n v hk hv => ?_,fun n hn => ?_⟩
  · rw [List.getElem?_eraseIdx] at hk hv
    by_cases hlt : k < i
    · rw [if_pos hlt] at hk hv
      rw [Function.update_of_ne (hother k n hk (by omega))]
      exact hb.bound k n v hk hv
    · rw [if_neg hlt] at hk hv
      rw [Function.update_of_ne (hother (k+1) n hk (by omega))]
      exact hb.bound (k+1) n v hk hv
  · rw [Function.update_apply]
    split
    next => rfl
    next hne =>
      refine hb.free n fun hmem => hn ?_
      obtain ⟨k,hk⟩ := List.mem_iff_getElem?.mp hmem
      rw [List.mem_eraseIdx_iff_getElem?]
      refine ⟨k,fun hki => hne ?_,hk⟩
      rw [hki,hkey,Option.some.injEq] at hk
      exact hk.symm

/-- `alias_unset` ends within the rows, tells whether the name was bound, and takes out its
binding. -/
theorem Holds.unset (h : Holds aliasNameSize t keys values) (hb : Binds m keys values)
    (key : CString) : ∃ t' keys' values', aliasUnset key t=some ((m key.chars).isSome,t') ∧
      Holds aliasNameSize t' keys' values' ∧
        Binds (Function.update m key.chars none) keys' values' := by
  rw [aliasUnset]
  cases hfind : tableFind aliasNameSize t key.chars with
  | none =>
    have hkey := (h.find_none key.nonzero).mp hfind
    have hfree := hb.free _ hkey
    have hsame : Function.update m key.chars none=m := by
      rw [←hfree]
      exact Function.update_eq_self _ m
    rw [hsame,hfree]
    exact ⟨t,keys,values,rfl,h,hb⟩
  | some i =>
    have hkey := h.find_some key.nonzero hfind
    have hlt := (List.getElem?_eq_some_iff.mp hkey).1
    obtain ⟨v,hv⟩ := h.value_some hkey
    obtain ⟨t',hmove,hcount,hnames,hvals⟩ := moveUp_spec (n:=keys.length-1-i) (j:=i) h.names h.vals
      h.length (by omega)
    simp only [hb.bound i _ v hkey hv,h.count,hmove]
    refine ⟨_,keys.eraseIdx i,values.eraseIdx i,rfl,⟨?_,?_,?_,?_⟩,hb.erase hkey⟩
    · rw [←movedUp_dropLast hlt]
      exact hnames.dropLast
    · rw [←movedUp_dropLast (h.length ▸ hlt),h.length]
      exact hvals.dropLast
    · rw [List.length_eraseIdx_of_lt hlt,←h.count,←hcount]
    · rw [List.length_eraseIdx_of_lt hlt,List.length_eraseIdx_of_lt (h.length ▸ hlt),h.length]

/-! ### Runs -/

/-- A table holds the bindings of a map. -/
def Kept (size : ℕ) (t : Table) (m : Bindings) : Prop :=
  ∃ keys values, Holds size t keys values ∧ Binds m keys values

/-- Both tables do. -/
def BothKept (s : Tables) (m : Maps) : Prop :=
  Kept envNameSize s.env m.env ∧ Kept aliasNameSize s.aliases m.aliases

variable {s : Tables} {maps : Maps} {op : Op} {ops : List Op}

/-- Tables that hold the bindings represent the maps. -/
theorem BothKept.agrees (h : BothKept s maps) : Agrees s maps := by
  obtain ⟨⟨_,_,he,hbe⟩,⟨_,_,ha,hba⟩⟩ := h
  exact ⟨he.represents hbe,ha.represents hba⟩

/-- A call that does not cut a name is right. -/
theorem BothKept.step (h : BothKept s maps) (hfits : Fits op)
    (hbound : (mapsStep maps op).env.Bounded ∧ (mapsStep maps op).aliases.Bounded) :
    ∃ s', EnvTables.step s op=some (mapsResult maps op,s') ∧
      BothKept s' (mapsStep maps op) := by
  obtain ⟨henv,haliases⟩ := h
  cases op with
  | envSet key value =>
    obtain ⟨keys,values,he,hbe⟩ := henv
    exact ⟨_,rfl,he.set hbe (by decide) hbound.1 hfits,haliases⟩
  | aliasSet key value =>
    obtain ⟨keys,values,ha,hba⟩ := haliases
    exact ⟨_,rfl,henv,ha.set hba (by decide) hbound.2 hfits⟩
  | aliasUnset key =>
    obtain ⟨keys,values,ha,hba⟩ := haliases
    obtain ⟨t',keys',values',hunset,hkept⟩ := ha.unset hba key
    refine ⟨{ s with aliases := t' },?_,henv,keys',values',hkept⟩
    rw [EnvTables.step,hunset]
    rfl

/-- A table in which a name has been cut does not represent the map with that name. -/
theorem Holds.not_represents (h : Holds size t keys values) (value : CString) (hsize : 0<size)
    (hlong : ¬key.chars.length ≤ size-1) (m : Bindings) :
    ¬Represents size (tableSet size key value t) (m.set key value) := by
  intro hrepresents
  have hget := hrepresents.get key
  have hvalue : m.set key value key.chars=some (value.chars.take 255) :=
    Function.update_self ..
  rw [h.set_long value hsize hlong,hvalue] at hget
  cases hget

/-- After a call that cuts a name a lookup is wrong. -/
theorem BothKept.not_agrees (h : BothKept s maps) (hlong : ¬Fits op) {s' : Tables}
    {r : Option Bool} (hstep : EnvTables.step s op=some (r,s')) :
    ¬Agrees s' (mapsStep maps op) := by
  obtain ⟨⟨_,_,he,_⟩,⟨_,_,ha,_⟩⟩ := h
  intro hagrees
  cases op with
  | envSet key value =>
    cases hstep
    exact he.not_represents value (by decide) hlong maps.env hagrees.1
  | aliasSet key value =>
    cases hstep
    exact ha.not_represents value (by decide) hlong maps.aliases hagrees.2
  | aliasUnset key => exact hlong trivial

/-- The bound holds at first. -/
theorem AlwaysBounded.first (h : AlwaysBounded maps ops) :
    maps.env.Bounded ∧ maps.aliases.Bounded := by
  cases ops with
  | nil => exact h
  | cons op ops => exact h.1

/-- A correct run agrees at first. -/
theorem Correct.first (h : Correct s maps ops) : Agrees s maps := by
  cases ops with
  | nil => exact h
  | cons op ops => exact h.1

/-- A run is correct exactly when no name is cut. -/
theorem BothKept.correct_iff (h : BothKept s maps) (hbound : AlwaysBounded maps ops) :
    Correct s maps ops ↔ ∀ op∈ops, Fits op := by
  induction ops generalizing s maps with
  | nil => exact ⟨fun _ op hop => absurd hop List.not_mem_nil,fun _ => h.agrees⟩
  | cons op ops ih =>
    rw [Correct,List.forall_mem_cons]
    constructor
    · rintro ⟨_,s',hstep,hrest⟩
      have hfits : Fits op := by
        by_contra hlong
        exact h.not_agrees hlong hstep hrest.first
      obtain ⟨s'',hstep',hkept⟩ := h.step hfits hbound.2.first
      rw [hstep,Option.some.injEq,Prod.mk.injEq] at hstep'
      exact ⟨hfits,(ih (hstep'.2 ▸ hkept) hbound.2).mp hrest⟩
    · rintro ⟨hfits,hrest⟩
      obtain ⟨s',hstep,hkept⟩ := h.step hfits hbound.2.first
      exact ⟨h.agrees,s',hstep,(ih hkept hbound.2).mpr hrest⟩

/-- The tables as they are at first. -/
def emptyTables : Tables := ⟨emptyTable,emptyTable⟩

/-- No name is bound. -/
def emptyMaps : Maps := ⟨fun _ => none,fun _ => none⟩

/-- A table without rows in use. -/
theorem kept_empty (size : ℕ) : Kept size emptyTable fun _ => none := by
  have hnone : ∀ (i : ℕ) (l : List UInt8), ([] : List (List UInt8))[i]?≠some l := by simp
  have hrows : ∀ width, Rows tableMax width (fun _ => 0) [] := fun width =>
    ⟨Nat.zero_le _,fun _ h => absurd h List.not_mem_nil,fun i text h => absurd h (hnone i text),
      fun _ _ => rfl⟩
  exact ⟨[],[],⟨hrows size,hrows valSize,rfl,rfl⟩,List.nodup_nil,
    fun i k _ h => absurd h (hnone i k),fun _ _ => rfl⟩

/-- In every run in which the bound of the tables is kept, lookups and results are those of
finite maps, and no name occupies two rows, exactly when no name is cut. -/
theorem tables_are_maps_iff (ops : List Op) (hbound : AlwaysBounded emptyMaps ops) :
    Correct emptyTables emptyMaps ops ↔ ∀ op∈ops, Fits op :=
  BothKept.correct_iff ⟨kept_empty _,kept_empty _⟩ hbound

/-- A name that is bound after a store is the one of the store, or was bound before. -/
theorem Bindings.set_ne_none {n : List UInt8} (h : m.set key value n≠none) :
    n=key.chars ∨ m n≠none := by
  by_cases he : n=key.chars
  · exact Or.inl he
  · rw [Bindings.set,Function.update_of_ne he] at h
    exact Or.inr h

/-- A name that is bound after another one is taken out was bound before. -/
theorem Bindings.unset_ne_none {n name : List UInt8} (h : Function.update m name none n≠none) :
    m n≠none := by
  by_cases he : n=name
  · rw [he,Function.update_self] at h
    exact absurd rfl h
  · rwa [Function.update_of_ne he] at h

/-- The names that are bound stay among some names. -/
theorem alwaysBounded_of_names (names : List (List UInt8)) (hlength : names.length≤tableMax)
    (hmaps : ∀ n, maps.env n≠none ∨ maps.aliases n≠none → n∈names)
    (hops : ∀ op∈ops, match op with
      | .envSet key _ => key.chars∈names
      | .aliasSet key _ => key.chars∈names
      | .aliasUnset _ => True) : AlwaysBounded maps ops := by
  have hfirst : maps.env.Bounded ∧ maps.aliases.Bounded :=
    ⟨⟨names,hlength,fun n hn => hmaps n (.inl hn)⟩,⟨names,hlength,fun n hn => hmaps n (.inr hn)⟩⟩
  induction ops generalizing maps with
  | nil => exact hfirst
  | cons op ops ih =>
    rw [List.forall_mem_cons] at hops
    have hnext : ∀ n, (mapsStep maps op).env n≠none ∨ (mapsStep maps op).aliases n≠none →
        n∈names := by
      intro n hn
      cases op with
      | envSet key value =>
        cases hn with
        | inl h =>
          cases Bindings.set_ne_none h with
          | inl he => exact he ▸ hops.1
          | inr h => exact hmaps n (Or.inl h)
        | inr h => exact hmaps n (Or.inr h)
      | aliasSet key value =>
        cases hn with
        | inl h => exact hmaps n (Or.inl h)
        | inr h =>
          cases Bindings.set_ne_none h with
          | inl he => exact he ▸ hops.1
          | inr h => exact hmaps n (Or.inr h)
      | aliasUnset key =>
        cases hn with
        | inl h => exact hmaps n (Or.inl h)
        | inr h => exact hmaps n (Or.inr (Bindings.unset_ne_none h))
    exact ⟨hfirst,ih hnext hops.2 ⟨⟨names,hlength,fun n hn => hnext n (.inl hn)⟩,
      ⟨names,hlength,fun n hn => hnext n (.inr hn)⟩⟩⟩

/-- The name `ll`. -/
def nameLl : CString := ⟨[0x6C,0x6C],by decide⟩

/-- The name `la`. -/
def nameLa : CString := ⟨[0x6C,0x61],by decide⟩

/-- The value `ls`. -/
def valueLs : CString := ⟨[0x6C,0x73],by decide⟩

/-- Two aliases, the first of which is unset and looked for again. -/
def shortNames : List Op :=
  [.aliasSet nameLl valueLs,.aliasSet nameLa valueLs,.aliasUnset nameLl,.aliasUnset nameLl]

/-- Short names are never cut. -/
theorem shortNames_correct : Correct emptyTables emptyMaps shortNames := by
  refine (tables_are_maps_iff shortNames (alwaysBounded_of_names
    [nameLl.chars,nameLa.chars] (by decide) (fun n hn => ?_) ?_)).mpr ?_
  · exact absurd rfl (hn.elim id id)
  · simp [shortNames]
  · simp [shortNames,Fits,nameLl,nameLa]

/-- A name of 32 characters. -/
def longName : CString := ⟨List.replicate 32 0x61,by decide⟩

/-- A name of 32 characters is not found after it has been set, and occupies a second row when
it is set again. -/
theorem longName_cut :
    envGet (envSet longName valueLs emptyTable) longName=none ∧
      (envSet longName valueLs (envSet longName valueLs emptyTable)).count=2 ∧
        AlwaysBounded emptyMaps [.envSet longName valueLs,.envSet longName valueLs] ∧
          ¬Correct emptyTables emptyMaps [.envSet longName valueLs,.envSet longName valueLs] := by
  have hbound : AlwaysBounded emptyMaps [.envSet longName valueLs,.envSet longName valueLs] := by
    refine alwaysBounded_of_names [longName.chars] (by decide) (fun n hn => ?_) (by simp)
    exact absurd rfl (hn.elim id id)
  obtain ⟨keys,values,hholds,_⟩ := kept_empty envNameSize
  refine ⟨hholds.set_long valueLs (by decide) (by decide),by decide +kernel,hbound,
    fun hcorrect => ?_⟩
  have hkept : BothKept emptyTables emptyMaps := ⟨kept_empty _,kept_empty _⟩
  have hfits : longName.chars.length≤31 :=
    (hkept.correct_iff hbound).mp hcorrect _ List.mem_cons_self
  exact absurd hfits (by decide)

end OvsbMk.EnvTables
