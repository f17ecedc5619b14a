import OvsbMk.CStrings
import OvsbMk.Formatting

/-!
# The text box

The text box of `owt_textbox.c`, with every access to its buffer checked against the bounds of
the array. Keys shift the buffer in one direction or the other. The string in the buffer is
the one that simple editing of a list of characters gives, and no access fails.
-/

namespace OvsbMk.TextBox

open CStrings Numerals
open Formatting (CString)

/-- Bytes of the buffer. -/
abbrev bufferSize : ℕ := 256

/-- A text box. -/
structure OwtTextbox where
  /-- The buffer. -/
  buffer : ℕ → UInt8
  /-- Index of the cursor. -/
  cursorPos : ℤ
  /-- Characters up to which keys are taken. -/
  maxLength : ℤ

/-- `buffer[i]`, if it is within the array. -/
def load (buffer : ℕ → UInt8) (i : ℤ) : Option UInt8 :=
  if 0 ≤ i ∧ i < bufferSize then some (buffer i.toNat) else none

/-- `buffer[i] = c`, if it is within the array. -/
def store (buffer : ℕ → UInt8) (i : ℤ) (c : UInt8) : Option (ℕ → UInt8) :=
  if 0 ≤ i ∧ i < bufferSize then some (Function.update buffer i.toNat c) else none

/-- What `owt_textbox_create` makes of the widget that it gets. -/
def owtTextboxCreate (buffer : ℕ → UInt8) : OwtTextbox :=
  { buffer := Function.update buffer 0 0, cursorPos := 0, maxLength := 30 }

/-- The loop of `owt_textbox_set_text`: the index and the buffer at its end. -/
def copyText : List UInt8 → ℤ → (ℕ → UInt8) → Option (ℤ×(ℕ → UInt8))
  | [], i, buffer => some (i,buffer)
  | c::text, i, buffer =>
    if i<255 then (store buffer i c).bind fun buffer => copyText text (i+1) buffer
    else some (i,buffer)

/-- `owt_textbox_set_text`. -/
def owtTextboxSetText (text : CString) (tb : OwtTextbox) : Option OwtTextbox :=
  (copyText text.chars 0 tb.buffer).bind fun r =>
    (store r.2 r.1 0).map fun buffer => { tb with buffer := buffer, cursorPos := r.1 }

/-- A number of rounds of `for (…; i++) tb->buffer[i-1] = tb->buffer[i];`. -/
def shiftLeft : ℕ → ℤ → (ℕ → UInt8) → Option (ℕ → UInt8)
  | 0, _, buffer => some buffer
  | n+1, i, buffer =>
    (load buffer i).bind fun c => (store buffer (i-1) c).bind fun buffer =>
      shiftLeft n (i+1) buffer

/-- A number of rounds of `for (…; i--) tb->buffer[i] = tb->buffer[i-1];`. -/
def shiftRight : ℕ → ℤ → (ℕ → UInt8) → Option (ℕ → UInt8)
  | 0, _, buffer => some buffer
  | n+1, i, buffer =>
    (load buffer (i-1)).bind fun c => (store buffer i c).bind fun buffer =>
      shiftRight n (i-1) buffer

/-- `while (tb->buffer[len]) len++;` for so many rounds at most. -/
def lengthLoop (buffer : ℕ → UInt8) : ℕ → ℤ → Option ℤ
  | 0, _ => none
  | n+1, len =>
    (load buffer len).bind fun c => if c=0 then some len else lengthLoop buffer n (len+1)

/-- `owt_textbox_key`. The callback for the end of a line is null after the creation. -/
def owtTextboxKey (key : UInt8) (tb : OwtTextbox) : Option OwtTextbox :=
  if key=8 then
    if 0<tb.cursorPos then
      (shiftLeft (bufferSize-tb.cursorPos).toNat tb.cursorPos tb.buffer).map fun buffer =>
        { tb with buffer := buffer, cursorPos := tb.cursorPos-1 }
    else some tb
  else if key=ascii '\n' then some tb
  else if 0x20≤key.toInt8 then
    (lengthLoop tb.buffer (bufferSize+1) 0).bind fun len =>
      if len<tb.maxLength then
        (shiftRight (len+1-tb.cursorPos).toNat (len+1) tb.buffer).bind fun buffer =>
          (store buffer tb.cursorPos key).map fun buffer =>
            { tb with buffer := buffer, cursorPos := tb.cursorPos+1 }
      else some tb
  else some tb

/-- The calls on a text box. -/
inductive Call where
  /-- `owt_textbox_set_text`. -/
  | setText (text : CString)
  /-- `owt_textbox_key`. -/
  | key (key : UInt8)

/-- The text box after a call, if no access is out of bounds. -/
def step (tb : OwtTextbox) : Call → Option OwtTextbox
  | .setText text => owtTextboxSetText text tb
  | .key key => owtTextboxKey key tb

/-- The text box after calls. -/
def run : List Call → OwtTextbox → Option OwtTextbox
  | [], tb => some tb
  | call::calls, tb => (step tb call).bind (run calls)

/-- The string after a call, by editing a list of characters. -/
def edit (maxLength : ℤ) (s : List UInt8) : Call → List UInt8
  | .setText text => text.chars.take 255
  | .key key =>
    if key=8 then s.dropLast
    else if 0x20≤key.toInt8 ∧ s.length < maxLength then s++[key]
    else s

/-- The buffer holds the string, terminated within the array, and the cursor is at its end. -/
structure Shows (tb : OwtTextbox) (s : List UInt8) : Prop where
  /-- The string. -/
  text : StringAt tb.buffer 0 s
  /-- Its length. -/
  length : s.length≤255
  /-- The cursor. -/
  cursor : tb.cursorPos=s.length

variable {buffer buffer' : ℕ → UInt8} {tb : OwtTextbox} {s : List UInt8} {n i : ℕ} {c : UInt8}

/-- An access within the array. -/
theorem load_some (buffer : ℕ → UInt8) (hi : i < bufferSize) : load buffer i=some (buffer i) := by
  rw [load,if_pos ⟨Int.natCast_nonneg i,by omega⟩,Int.toNat_natCast]

/-- A store within the array. -/
theorem store_some (buffer : ℕ → UInt8) (c : UInt8) (hi : i < bufferSize) :
    store buffer i c=some (Function.update buffer i c) := by
  rw [store,if_pos ⟨Int.natCast_nonneg i,by omega⟩,Int.toNat_natCast]

/-- A text is copied up to index 255, and what is in front of it stays. -/
theorem copyText_spec (text : List UInt8) (hi : i ≤ 255) (buffer : ℕ → UInt8) :
    ∃ len buffer', len=(text.take (255-i)).length ∧
      copyText text i buffer=some (((i+len : ℕ) : ℤ),buffer') ∧
        (∀ k, k < i → buffer' k=buffer k) ∧ ∀ k<len, buffer' (i+k)=text.getD k 0 := by
  induction text generalizing i buffer with
  | nil => exact ⟨0,buffer,by simp,rfl,fun k _ => rfl,fun k hk => absurd hk k.not_lt_zero⟩
  | cons c text ih =>
    by_cases hlt : i < 255
    · have hstore := store_some buffer c (i:=i) (hlt.trans (by decide))
      obtain ⟨len,buffer',hlen,hcopy,hfront,hbytes⟩ := ih (i:=i+1) hlt (Function.update buffer i c)
      have htake : 255-i=255-(i+1)+1 := by omega
      have hsum : i+(len+1)=i+1+len := by omega
      refine ⟨len+1,buffer',?_,?_,fun k hk => ?_,fun k hk => ?_⟩
      · rw [htake,List.take_succ_cons,List.length_cons,hlen]
      · rw [copyText,if_pos (by omega),hstore,Option.bind_some,hsum]
        exact hcopy
      · rw [hfront k (by omega),Function.update_of_ne (by omega)]
      · cases k with
        | zero => exact (hfront i (by omega)).trans (Function.update_self i c buffer)
        | succ k =>
          have hbyte := hbytes k (by omega)
          rw [Nat.add_assoc,Nat.add_comm 1] at hbyte
          exact hbyte
    · have hend : 255-i=0 := by omega
      refine ⟨0,buffer,?_,?_,fun k _ => rfl,fun k hk => absurd hk k.not_lt_zero⟩
      · rw [hend,List.take_zero,List.length_nil]
      · rw [copyText,if_neg (by omega)]
        rfl

/-- Setting the text makes the box show it, cut to 255 characters. -/
theorem setText_shows (text : CString) (tb : OwtTextbox) :
    ∃ tb', owtTextboxSetText text tb=some tb' ∧ tb'.maxLength=tb.maxLength ∧
      Shows tb' (text.chars.take 255) := by
  obtain ⟨len,buffer,hlen,hcopy,-,hbytes⟩ := copyText_spec text.chars (Nat.zero_le 255) tb.buffer
  rw [Nat.zero_add] at hcopy
  rw [Nat.sub_zero] at hlen
  have hle : len≤255 := by
    rw [hlen,List.length_take]
    exact Nat.min_le_left ..
  have hstore := store_some buffer 0 (Nat.lt_succ_of_le hle)
  refine ⟨{ tb with buffer := Function.update buffer len 0, cursorPos := len },?_,rfl,
    ⟨?_,hlen ▸ hle,congrArg Nat.cast hlen⟩⟩
  · have hzero : copyText text.chars 0 tb.buffer=some ((len : ℤ),buffer) := hcopy
    rw [owtTextboxSetText,hzero,Option.bind_some,hstore]
    rfl
  · rw [stringAt_iff,←hlen]
    refine ⟨fun h => text.nonzero (List.mem_of_mem_take h),fun k hk => ?_⟩
    rw [Nat.zero_add]
    change Function.update buffer len 0 k=_
    by_cases hlast : k=len
    · rw [hlast,Function.update_self,List.getD_eq_getElem?_getD,
        List.getElem?_eq_none (Nat.le_of_eq hlen.symm)]
      rfl
    · have hbyte := hbytes k (by omega)
      rw [Nat.zero_add] at hbyte
      rw [Function.update_of_ne hlast,hbyte,List.getD_eq_getElem?_getD,
        List.getD_eq_getElem?_getD,List.getElem?_take,if_pos (by omega)]

/-- What the loop towards the front leaves. -/
theorem shiftLeft_spec (hi : 1 ≤ i) (hn : i+n ≤ bufferSize) (buffer : ℕ → UInt8) :
    ∃ buffer', shiftLeft n i buffer=some buffer' ∧
      ∀ k, buffer' k=if i ≤ k+1 ∧ k+1 < i+n then buffer (k+1) else buffer k := by
  induction n generalizing i buffer with
  | zero => exact ⟨buffer,rfl,fun k => (if_neg (by omega)).symm⟩
  | succ n ih =>
    have hload := load_some buffer (i:=i) (by omega)
    have hstore := store_some buffer (buffer i) (i:=i-1) (by omega)
    obtain ⟨buffer',hshift,hbytes⟩ := ih (i:=i+1) (by omega) (by omega)
      (Function.update buffer (i-1) (buffer i))
    have hprev : (i : ℤ)-1=((i-1 : ℕ) : ℤ) := by omega
    refine ⟨buffer',?_,fun k => ?_⟩
    · rw [shiftLeft,hload,Option.bind_some,hprev,hstore,Option.bind_some]
      exact hshift
    · rw [hbytes]
      by_cases hin : i+1≤k+1 ∧ k+1 < i+1+n
      · rw [if_pos hin,if_pos (by omega),Function.update_of_ne (by omega)]
      · rw [if_neg hin,Function.update_apply]
        by_cases hfirst : k=i-1
        · have hnext : k+1=i := by omega
          rw [if_pos hfirst,if_pos (by omega),hnext]
        · rw [if_neg hfirst,if_neg (by omega)]

/-- The length of the string is found within the array. -/
theorem lengthLoop_spec (h : StringAt buffer i s) (hlength : i+s.length < bufferSize)
    (hroom : s.length<n) : lengthLoop buffer n i=some ((i+s.length : ℕ) : ℤ) := by
  induction s generalizing i n with
  | nil =>
    obtain ⟨n,rfl⟩ := Nat.exists_eq_succ_of_ne_zero (Nat.ne_of_gt hroom)
    have hload := load_some buffer (i:=i) hlength
    have hend : buffer i=0 := h
    rw [lengthLoop,hload,Option.bind_some,if_pos hend]
    rfl
  | cons c s ih =>
    rw [List.length_cons] at hlength hroom
    obtain ⟨n,rfl⟩ := Nat.exists_eq_succ_of_ne_zero (Nat.ne_of_gt (Nat.zero_lt_of_lt hroom))
    have hnonzero : buffer i≠0 := h.1 ▸ h.2.1
    have hrest := ih (i:=i+1) h.2.2 (by omega) (Nat.lt_of_succ_lt_succ hroom)
    have hsum : i+(s.length+1)=i+1+s.length := by omega
    rw [lengthLoop,load_some buffer (by omega),Option.bind_some,if_neg hnonzero,
      List.length_cons,hsum]
    exact hrest

/-- Backspace drops the last character. -/
theorem backspace_shows (h : Shows tb s) : ∃ tb', owtTextboxKey 8 tb=some tb' ∧
    tb'.maxLength=tb.maxLength ∧ Shows tb' s.dropLast := by
  have hsize : bufferSize=256 := rfl
  have hlength := h.length
  rw [owtTextboxKey,if_pos rfl,h.cursor]
  cases Nat.eq_zero_or_pos s.length with
  | inl hempty =>
    have hnil : s=[] := List.length_eq_zero_iff.mp hempty
    subst hnil
    exact ⟨tb,rfl,rfl,h⟩
  | inr hpos =>
    have hrounds : ((bufferSize : ℤ)-(s.length : ℤ)).toNat=256-s.length := by omega
    obtain ⟨buffer',hshift,hbytes⟩ := shiftLeft_spec (n:=256-s.length) hpos (by omega) tb.buffer
    rw [if_pos (by omega),hrounds,hshift]
    refine ⟨{ tb with buffer := buffer', cursorPos := (s.length : ℤ)-1 },rfl,rfl,?_,?_,?_⟩
    · apply h.text.dropLast
      · intro k hk
        rw [Nat.zero_add]
        exact (hbytes k).trans (if_neg (by omega))
      · have hend := h.text.terminated
        have hnext : s.length-1+1=s.length := Nat.sub_add_cancel hpos
        rw [Nat.zero_add] at hend
        rw [Nat.zero_add]
        refine (hbytes _).trans ?_
        rw [if_pos (by omega),hnext,hend]
    · rw [List.length_dropLast]
      omega
    · rw [List.length_dropLast]
      exact (Nat.cast_pred hpos).symm

/-- A character is appended as long as there is room. -/
theorem append_shows (h : Shows tb s) (hmax : tb.maxLength≤255) {key : UInt8}
    (hkey : 0x20≤key.toInt8) : ∃ tb', owtTextboxKey key tb=some tb' ∧
      tb'.maxLength=tb.maxLength ∧ Shows tb' (if s.length<tb.maxLength then s++[key] else s) := by
  have hsize : bufferSize=256 := rfl
  have hlength := h.length
  have hback : key≠8 := fun he => absurd hkey (by rw [he]; decide)
  have hline : key≠ascii '\n' := fun he => absurd hkey (by rw [he]; decide)
  have hzero : key≠0 := fun he => absurd hkey (by rw [he]; decide)
  have hlen : lengthLoop tb.buffer (bufferSize+1) 0=some (s.length : ℤ) := by
    have hloop := lengthLoop_spec (n:=bufferSize+1) h.text (by omega) (by omega)
    rwa [Nat.zero_add] at hloop
  rw [owtTextboxKey,if_neg hback,if_neg hline,if_pos hkey,hlen,Option.bind_some]
  by_cases hroom : (s.length : ℤ)<tb.maxLength
  · have hrounds : ((s.length : ℤ)+1-tb.cursorPos).toNat=1 := by
      rw [h.cursor]
      omega
    have hload := load_some tb.buffer (i:=s.length) (by omega)
    have hstore := store_some tb.buffer (tb.buffer s.length) (i:=s.length+1)
      (by omega)
    have hstore' := store_some
      (Function.update tb.buffer (s.length+1) (tb.buffer s.length)) key (i:=s.length) (by omega)
    have hprev : (s.length : ℤ)+1-1=s.length := by omega
    have hnext : (s.length : ℤ)+1=((s.length+1 : ℕ) : ℤ) := rfl
    rw [if_pos hroom,if_pos hroom,hrounds,shiftRight,hprev,hload,Option.bind_some,hnext,hstore,
      Option.bind_some,shiftRight,Option.bind_some,h.cursor,hstore']
    refine ⟨_,rfl,rfl,?_,?_,?_⟩
    · apply h.text.snoc
      · intro k hk
        rw [Nat.zero_add]
        exact (Function.update_of_ne hk.ne _ _).trans (Function.update_of_ne (by omega) _ _)
      · exact hzero
      · rw [Nat.zero_add]
        exact Function.update_self _ _ _
      · have hend := h.text.terminated
        rw [Nat.zero_add] at hend
        rw [Nat.zero_add]
        refine (Function.update_of_ne (Nat.succ_ne_self _) _ _).trans ?_
        rw [Function.update_self,hend]
    · rw [List.length_append,List.length_singleton]
      omega
    · rw [List.length_append,List.length_singleton]
      rfl
  · rw [if_neg hroom,if_neg hroom]
    exact ⟨tb,rfl,rfl,h⟩

/-- A call edits the string, and no access is out of bounds. -/
theorem Shows.step (h : Shows tb s) (hmax : tb.maxLength≤255) (call : Call) :
    ∃ tb', TextBox.step tb call=some tb' ∧ tb'.maxLength=tb.maxLength ∧
      Shows tb' (edit tb.maxLength s call) := by
  cases call with
  | setText text => exact setText_shows text tb
  | key key =>
    by_cases hback : key=8
    · subst hback
      exact backspace_shows h
    · rw [TextBox.step,edit,if_neg hback]
      by_cases hkey : 0x20≤key.toInt8
      · obtain ⟨tb',hcall,hlength,hshows⟩ := append_shows h hmax hkey
        refine ⟨tb',hcall,hlength,?_⟩
        simpa only [hkey,true_and] using hshows
      · have hkept : owtTextboxKey key tb=some tb := by
          rw [owtTextboxKey,if_neg hback,if_neg hkey,ite_self]
        rw [if_neg fun hand => hkey hand.1]
        exact ⟨tb,hkept,rfl,h⟩

/-- Calls edit the string one after the other. -/
theorem Shows.run (h : Shows tb s) (hmax : tb.maxLength≤255) (calls : List Call) :
    ∃ tb', TextBox.run calls tb=some tb' ∧
      Shows tb' (calls.foldl (edit tb.maxLength) s) := by
  induction calls generalizing tb s with
  | nil => exact ⟨tb,rfl,h⟩
  | cons call calls ih =>
    obtain ⟨tb1,hcall,hlength,hshows⟩ := h.step hmax call
    obtain ⟨tb2,hrest,hend⟩ := ih hshows (hlength ▸ hmax)
    rw [hlength] at hend
    refine ⟨tb2,?_,hend⟩
    rw [TextBox.run,hcall]
    exact hrest

/-- A text box that has been created is empty. -/
theorem created_shows (buffer : ℕ → UInt8) : Shows (owtTextboxCreate buffer) [] :=
  ⟨Function.update_self 0 0 buffer,Nat.zero_le _,rfl⟩

/-- Whatever calls are made on a text box, no index is out of bounds, the buffer holds a
terminated string of at most 255 characters with the cursor at its end, and the string is that
of the editing of lists. -/
theorem textbox_refines_editing (buffer : ℕ → UInt8) (calls : List Call) :
    ∃ tb, run calls (owtTextboxCreate buffer)=some tb ∧ Shows tb (calls.foldl (edit 30) []) :=
  (created_shows buffer).run (show (30 : ℤ)≤255 by decide) calls

end OvsbMk.TextBox
