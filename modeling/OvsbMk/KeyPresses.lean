import OvsbMk.KeyInput

/-!
# Key presses through the escape encoding

The driver's table and the terminal library's table were written apart. The library gives
back the keys of the driver, one by one, except for the Escape key, whose byte starts
every sequence, two arrow keys, and the last function keys.
-/

namespace OvsbMk.KeyPresses

open RingBuffer KeyInput

/-- A key as it is pressed. -/
inductive Key where
  /-- A key with a character. -/
  | char (c : UInt8)
  /-- A key of the table of extended keys. -/
  | extended (sc : UInt8)
  deriving DecidableEq

/-- The sequence of an extended key. -/
def sequenceOf (sc : UInt8) : List UInt8 :=
  match ext.find? fun e => e.1==sc with
  | some e => e.2
  | none => []

/-- The bytes of a key. -/
def Key.bytes : Key → List UInt8
  | .char c => [c]
  | .extended sc => sequenceOf sc

/-- The codes the terminal library names for the extended keys. -/
def tuiKeys : List (UInt8×ℕ) :=
  [(0x48,300),(0x50,301),(0x4B,302),(0x4D,303),(0x47,304),(0x4F,305),(0x49,306),(0x51,307),
    (0x52,308),(0x53,309),(0x3B,310),(0x3C,311),(0x3D,312),(0x3E,313),(0x3F,314),(0x40,315),
    (0x41,316),(0x42,317),(0x43,318),(0x44,319),(0x57,320),(0x58,321)]

/-- The code of a key. -/
def Key.code : Key → ℕ
  | .char c => c.toNat
  | .extended sc =>
    match tuiKeys.find? fun e => e.1==sc with
    | some e => e.2
    | none => 0

/-- The key that a scancode presses, if any. -/
def pressed (mods : Modifiers) (sc : UInt8) : Option Key :=
  if sc=0xE0 ∨ sc=0xE1 then none
  else if mods.extFlag then
    if sc∈ext.map Prod.fst then some (.extended sc) else if sc=0x35 then some (.char 0x2F) else none
  else if sc∈([0x2A,0x36,0xAA,0xB6,0x1D,0x9D,0x38,0xB8] : List UInt8) ∨ 0x80 ≤ sc then none
  else if sc.toNat<normSize ∧ character mods sc≠0 then some (.char (character mods sc))
  else none

/-- The held keys after a scancode. -/
def nextModifiers (mods : Modifiers) (sc : UInt8) : Modifiers :=
  if sc=0xE0 ∨ sc=0xE1 then { mods with extFlag := true }
  else if mods.extFlag then
    if sc∈ext.map Prod.fst then { mods with extFlag := false }
    else if sc=0x1D then { mods with extFlag := false, ctrlPressed := true }
    else if sc=0x9D then { mods with extFlag := false, ctrlPressed := false }
    else if sc=0x38 then { mods with extFlag := false, shiftPressed := 2 }
    else if sc=0xB8 then { mods with extFlag := false, shiftPressed := 0 }
    else { mods with extFlag := false }
  else if sc=0x2A ∨ sc=0x36 then { mods with shiftPressed := 1 }
  else if sc=0xAA ∨ sc=0xB6 then { mods with shiftPressed := 0 }
  else if sc=0x1D then { mods with ctrlPressed := true }
  else if sc=0x9D then { mods with ctrlPressed := false }
  else if sc=0x38 then { mods with shiftPressed := 1 }
  else if sc=0xB8 then { mods with shiftPressed := 0 }
  else mods

/-- The bytes of what a scancode presses. -/
def pressedBytes (key : Option Key) : List UInt8 := (key.map Key.bytes).getD []

variable {k k' : Keyboard} {sc c : UInt8} {mods : Modifiers} {key : Key}

/-- A sequence for which there is room comes last in the buffer. -/
theorem kbufPutSeq_eq {seq : List UInt8} (h : k.ring.queue.length+seq.length<kbBufferSize) :
    (kbufPutSeq seq k).ring.queue=k.ring.queue++seq ∧ (kbufPutSeq seq k).mods=k.mods := by
  induction seq generalizing k with
  | nil => exact ⟨(List.append_nil _).symm,rfl⟩
  | cons c rest ih =>
    rw [List.length_cons] at h
    have hput : (kbufPut c k).ring.queue=k.ring.queue++[c] := Ring.queue_put (by omega)
    obtain ⟨h1,h2⟩ := @ih (kbufPut c k) (by
      rw [hput,List.length_append,List.length_singleton]
      omega)
    rw [kbufPutSeq]
    refine ⟨?_,h2⟩
    rw [h1,hput,List.append_assoc]
    rfl

/-- The ring after a sequence depends on the ring before it only. -/
theorem kbufPutSeq_ring (hring : k.ring=k'.ring) (seq : List UInt8) :
    (kbufPutSeq seq k).ring=(kbufPutSeq seq k').ring := by
  induction seq generalizing k k' with
  | nil => exact hring
  | cons c rest ih => exact ih (congrArg (Ring.put c) hring)

/-- A scancode of the table is found there. -/
theorem find_ext : (∃ e, (ext.find? fun e => e.1==sc)=some e ∧ sc∈ext.map Prod.fst ∧
      sequenceOf sc=e.2) ∨
    (ext.find? fun e => e.1==sc)=none ∧ sc∉ext.map Prod.fst := by
  cases hfind : ext.find? fun e => e.1==sc with
  | none =>
    refine Or.inr ⟨rfl,fun hmem => ?_⟩
    obtain ⟨e,he,rfl⟩ := List.mem_map.mp hmem
    have := List.find?_eq_none.mp hfind e he
    simp at this
  | some e =>
    have heq : e.1=sc := by simpa using List.find?_some hfind
    refine Or.inl ⟨e,rfl,?_,by rw [sequenceOf,hfind]⟩
    rw [← heq]
    exact List.mem_map_of_mem (List.mem_of_find?_eq_some hfind)

/-- Nothing is pressed. -/
theorem pressedBytes_none : pressedBytes none=[] := rfl

/-- A key is pressed. -/
theorem pressedBytes_some : pressedBytes (some key)=key.bytes := rfl

/-- A sequence that is put keeps the held keys. -/
theorem kbufPutSeq_mods (seq : List UInt8) (k : Keyboard) : (kbufPutSeq seq k).mods=k.mods := by
  induction seq generalizing k with
  | nil => rfl
  | cons c rest ih => exact ih (kbufPut c k)

/-- An extended scancode puts the bytes of what it presses. -/
theorem handleExtended_ring (h0 : sc≠0xE0) (h1 : sc≠0xE1) (hext : mods.extFlag=true)
    (hmods : k.mods={ mods with extFlag := false }) :
    (handleExtended sc k).2.ring=(kbufPutSeq (pressedBytes (pressed mods sc)) k).ring ∧
      (handleExtended sc k).2.mods=nextModifiers mods sc := by
  have hnot : ¬(sc=0xE0 ∨ sc=0xE1) := fun hor => hor.elim h0 h1
  rw [pressed,if_neg hnot,if_pos hext,nextModifiers,if_neg hnot,if_pos hext,handleExtended]
  rcases @find_ext sc with ⟨e,hfind,hmem,hseq⟩ | ⟨hfind,hmem⟩
  · rw [if_pos hmem,pressedBytes_some,Key.bytes,hseq,hfind,if_pos hmem]
    exact ⟨rfl,(kbufPutSeq_mods e.2 k).trans hmods⟩
  · rw [if_neg hmem,hfind,if_neg hmem]
    by_cases h35 : sc=0x35
    · subst h35
      exact ⟨rfl,(kbufPutSeq_mods [0x2F] k).trans hmods⟩
    · have hnone : (if sc=0x35 then some (Key.char 0x2F) else none)=none := if_neg h35
      dsimp only
      rw [hnone,pressedBytes_none,if_neg h35]
      split
      · exact ⟨rfl,by rw [hmods]⟩
      split
      · exact ⟨rfl,by rw [hmods]⟩
      split
      · exact ⟨rfl,by rw [hmods]⟩
      split
      · exact ⟨rfl,by rw [hmods]⟩
      · exact ⟨rfl,hmods⟩

/-- A scancode puts the bytes of what it presses, and sets the held keys. -/
theorem processScancode_ring (sc : UInt8) (k : Keyboard) :
    (processScancode sc k).2.ring=(kbufPutSeq (pressedBytes (pressed k.mods sc)) k).ring ∧
      (processScancode sc k).2.mods=nextModifiers k.mods sc := by
  by_cases h0 : sc=0xE0
  · subst h0
    exact ⟨rfl,rfl⟩
  by_cases h1 : sc=0xE1
  · subst h1
    exact ⟨rfl,rfl⟩
  rw [processScancode,if_neg h0,if_neg h1]
  by_cases hext : k.mods.extFlag=true
  · rw [if_pos hext]
    have hring := handleExtended_ring (k:={ k with mods := { k.mods with extFlag := false } })
      h0 h1 hext rfl
    have hsame : (kbufPutSeq (pressedBytes (pressed k.mods sc))
        { k with mods := { k.mods with extFlag := false } }).ring=
        (kbufPutSeq (pressedBytes (pressed k.mods sc)) k).ring := by
      apply kbufPutSeq_ring
      rfl
    exact ⟨hring.1.trans hsame,hring.2⟩
  have hnot : ¬(sc=0xE0 ∨ sc=0xE1) := fun hor => hor.elim h0 h1
  rw [pressed,if_neg hnot,if_neg hext,nextModifiers,if_neg hnot,if_neg hext,if_neg hext]
  by_cases hheld : sc∈([0x2A,0x36,0xAA,0xB6,0x1D,0x9D,0x38,0xB8] : List UInt8) ∨ 0x80 ≤ sc
  · rw [if_pos hheld,pressedBytes_none]
    split
    · exact ⟨rfl,rfl⟩
    split
    · exact ⟨rfl,rfl⟩
    split
    · exact ⟨rfl,rfl⟩
    split
    · exact ⟨rfl,rfl⟩
    split
    · exact ⟨rfl,rfl⟩
    split
    · exact ⟨rfl,rfl⟩
    split
    · split
      · exact ⟨rfl,rfl⟩
      · exact ⟨rfl,rfl⟩
    next hlow =>
      exfalso
      simp only [List.mem_cons,List.not_mem_nil,or_false] at hheld
      tauto
  · rw [if_neg hheld]
    simp only [List.mem_cons,List.not_mem_nil,or_false,not_or] at hheld
    obtain ⟨⟨h2,h3,h4,h5,h6,h7,h8,h9⟩,h10⟩ := hheld
    simp only [h2,h3,h4,h5,h6,h7,h8,h9,or_self,if_false,if_neg h10]
    split
    · exact ⟨rfl,rfl⟩
    · exact ⟨rfl,rfl⟩

/-- A scancode puts the bytes of what it presses into the buffer. -/
theorem processScancode_eq (h : k.ring.queue.length+(pressedBytes (pressed k.mods sc)).length<
    kbBufferSize) :
    (processScancode sc k).2.ring.queue=k.ring.queue++pressedBytes (pressed k.mods sc) ∧
      (processScancode sc k).2.mods=nextModifiers k.mods sc := by
  obtain ⟨hring,hmods⟩ := processScancode_ring sc k
  rw [hring]
  exact ⟨(kbufPutSeq_eq h).1,hmods⟩

/-- The rest of an escape sequence, from a list of bytes. -/
def escapeQueue : ℕ → List UInt8 → List UInt8 → Option (List UInt8)×List UInt8
  | 0, seq, queue => (some seq,queue)
  | _+1, _, [] => (none,[])
  | rounds+1, seq, c::queue =>
    if 0x40≤c ∧ c≤0x7E then (some (seq++[c]),queue) else escapeQueue rounds (seq++[c]) queue

/-- The key code of an escape sequence, or that of the Escape key. -/
def escapeCode (seq : Option (List UInt8)) : ℕ := (seq.map sequenceCode).getD 27

/-- The key code after an escape character, from a list of bytes. -/
def parseQueue : List UInt8 → Option (ℕ×List UInt8)
  | [] => none
  | c::queue =>
    if c≠0x5B ∧ c≠0x4F then some (27,queue)
    else some (escapeCode (escapeQueue 5 [0x1B,c] queue).1,(escapeQueue 5 [0x1B,c] queue).2)

/-- A key code from a list of bytes. -/
def getchQueue : List UInt8 → Option (ℕ×List UInt8)
  | [] => none
  | c::queue => if c≠0x1B then some (c.toNat,queue) else parseQueue queue

/-- Nothing is read from an empty buffer. -/
theorem getchar_nil (h : k.ring.queue=[]) : getchar k=none := by
  rw [getchar,keyboardRead,Ring.get_nil h]

/-- The oldest byte is read. -/
theorem getchar_cons {queue : List UInt8} (h : k.ring.queue=c::queue) :
    ∃ k', getchar k=some (c,k') ∧ k'.ring.queue=queue ∧ k'.mods=k.mods := by
  obtain ⟨ring,hget,hqueue⟩ := Ring.get_cons h
  rw [getchar,keyboardRead,hget]
  exact ⟨_,rfl,hqueue,rfl⟩

/-- The loop reads as from a list. -/
theorem escapeLoop_eq (rounds : ℕ) (seq : List UInt8) (k : Keyboard) :
    (escapeLoop rounds seq k).1=(escapeQueue rounds seq k.ring.queue).1 ∧
      (escapeLoop rounds seq k).2.ring.queue=(escapeQueue rounds seq k.ring.queue).2 ∧
      (escapeLoop rounds seq k).2.mods=k.mods := by
  induction rounds generalizing seq k with
  | zero => exact ⟨rfl,rfl,rfl⟩
  | succ rounds ih =>
    cases hqueue : k.ring.queue with
    | nil =>
      rw [escapeLoop,getchar_nil hqueue]
      exact ⟨rfl,hqueue,rfl⟩
    | cons c queue =>
      obtain ⟨k',hget,hrest,hmods⟩ := getchar_cons hqueue
      rw [escapeLoop,hget,escapeQueue]
      dsimp only
      split
      · exact ⟨rfl,hrest,hmods⟩
      · obtain ⟨h1,h2,h3⟩ := ih (seq++[c]) k'
        rw [hrest] at h1 h2
        exact ⟨h1,h2,h3.trans hmods⟩

/-- Reading a key code waits as it does from a list. -/
theorem tuiGetch_none (h : getchQueue k.ring.queue=none) : tuiGetch k=none := by
  cases hqueue : k.ring.queue with
  | nil => rw [tuiGetch,getchar_nil hqueue]
  | cons c queue =>
    obtain ⟨k1,hget,hrest,_⟩ := getchar_cons hqueue
    rw [hqueue,getchQueue] at h
    by_cases hesc : c≠0x1B
    · rw [if_pos hesc] at h
      cases h
    rw [if_neg hesc] at h
    rw [tuiGetch,hget]
    dsimp only
    rw [if_neg hesc,tuiParseEscape]
    cases queue with
    | nil => rw [getchar_nil hrest]
    | cons x queue =>
      rw [parseQueue] at h
      split at h
      · cases h
      · cases h

/-- Reading a key code reads as from a list. -/
theorem tuiGetch_some {code : ℕ} {queue : List UInt8}
    (h : getchQueue k.ring.queue=some (code,queue)) :
    ∃ k', tuiGetch k=some (code,k') ∧ k'.ring.queue=queue ∧ k'.mods=k.mods := by
  cases hqueue : k.ring.queue with
  | nil =>
    rw [hqueue] at h
    cases h
  | cons c rest =>
    obtain ⟨k1,hget,hrest,hmods⟩ := getchar_cons hqueue
    rw [hqueue,getchQueue] at h
    rw [tuiGetch,hget]
    dsimp only
    by_cases hesc : c≠0x1B
    · rw [if_pos hesc,Option.some.injEq,Prod.mk.injEq] at h
      obtain ⟨rfl,rfl⟩ := h
      rw [if_pos hesc]
      exact ⟨k1,rfl,hrest,hmods⟩
    rw [if_neg hesc] at h ⊢
    rw [tuiParseEscape]
    cases rest with
    | nil => cases h
    | cons x rest =>
      obtain ⟨k2,hget2,hrest2,hmods2⟩ := getchar_cons hrest
      rw [parseQueue] at h
      rw [hget2]
      dsimp only
      by_cases hother : x≠0x5B ∧ x≠0x4F
      · rw [if_pos hother,Option.some.injEq,Prod.mk.injEq] at h
        obtain ⟨rfl,rfl⟩ := h
        rw [if_pos hother]
        exact ⟨k2,rfl,hrest2,hmods2.trans hmods⟩
      · rw [if_neg hother,Option.some.injEq,Prod.mk.injEq] at h
        obtain ⟨rfl,rfl⟩ := h
        rw [if_neg hother]
        obtain ⟨h1,h2,h3⟩ := escapeLoop_eq 5 [0x1B,x] k2
        rw [hrest2] at h1 h2
        generalize escapeLoop 5 [0x1B,x] k2=result at *
        obtain ⟨_ | seq,k3⟩ := result
        · dsimp only at h1
          rw [← h1]
          exact ⟨k3,rfl,h2,h3.trans (hmods2.trans hmods)⟩
        · dsimp only at h1
          rw [← h1]
          exact ⟨k3,rfl,h2,h3.trans (hmods2.trans hmods)⟩

/-- Keys that do not survive: Escape, Left, Right, F10, F11 and F12. -/
def undecodable : List Key :=
  [.char 0x1B,.extended 0x4B,.extended 0x4D,.extended 0x44,.extended 0x57,.extended 0x58]

/-- Keys that the driver can put into the buffer. -/
def Key.Valid : Key → Prop
  | .char _ => True
  | .extended sc => sc∈ext.map Prod.fst

/-- What a scancode presses is a key of the driver. -/
theorem pressed_valid (h : pressed mods sc=some key) : key.Valid := by
  rw [pressed] at h
  split at h
  · cases h
  split at h
  · split at h
    next hmem =>
      rw [Option.some.injEq] at h
      subst h
      exact hmem
    · split at h
      · rw [Option.some.injEq] at h
        subst h
        trivial
      · cases h
  split at h
  · cases h
  split at h
  · rw [Option.some.injEq] at h
    subst h
    trivial
  · cases h

/-- The loop consumes bytes only. -/
theorem escapeQueue_length (rounds : ℕ) (seq queue : List UInt8) :
    (escapeQueue rounds seq queue).2.length≤queue.length := by
  induction rounds generalizing seq queue with
  | zero => exact le_rfl
  | succ rounds ih =>
    cases queue with
    | nil => exact le_rfl
    | cons c queue =>
      rw [escapeQueue,List.length_cons]
      split
      · exact Nat.le_succ _
      · exact (ih _ _).trans (Nat.le_succ _)

/-- A sequence of the table is read as a whole. -/
theorem getchQueue_ext {e : UInt8×List UInt8} (he : e∈ext) (rest : List UInt8) :
    getchQueue (e.2++rest)=some (sequenceCode e.2,rest) := by
  simp only [ext,List.mem_cons,List.not_mem_nil,or_false] at he
  rcases he with rfl | rfl | rfl | rfl | rfl | rfl | rfl | rfl | rfl | rfl | rfl | rfl | rfl | rfl |
    rfl | rfl | rfl | rfl | rfl | rfl | rfl | rfl
  all_goals rfl

/-- The library's code for a sequence of the table is the one of the key, but for the
keys that do not survive. -/
theorem sequenceCode_ext : ∀ e∈ext, sequenceOf e.1=e.2 ∧
    (sequenceCode e.2=(Key.extended e.1).code ↔ Key.extended e.1∉undecodable) := by
  decide

/-- A key is read back with its code, and its bytes are what is consumed, if and only if
it survives. -/
theorem getchQueue_key (hkey : key.Valid) (rest : List UInt8) :
    getchQueue (key.bytes++rest)=some (key.code,rest) ↔ key∉undecodable := by
  cases key with
  | char c =>
    rw [Key.bytes,Key.code,List.singleton_append,getchQueue]
    by_cases hesc : c=0x1B
    · subst hesc
      refine iff_of_false ?_ (by decide)
      rw [if_neg (by decide)]
      cases rest with
      | nil => simp [parseQueue]
      | cons x rest =>
        rw [parseQueue]
        intro h
        split at h
        · have := congrArg List.length (Prod.mk.inj (Option.some.inj h)).2
          rw [List.length_cons] at this
          omega
        · have h1 := congrArg List.length (Prod.mk.inj (Option.some.inj h)).2
          have h2 := escapeQueue_length 5 [0x1B,x] rest
          rw [List.length_cons] at h1
          omega
    · rw [if_pos hesc]
      exact iff_of_true rfl (by simp [undecodable,hesc])
  | extended sc =>
    obtain ⟨e,he,rfl⟩ := List.mem_map.mp (show sc∈ext.map Prod.fst from hkey)
    obtain ⟨hseq,hiff⟩ := sequenceCode_ext e he
    rw [Key.bytes,hseq,getchQueue_ext he,← hiff,Option.some.injEq,Prod.mk.injEq]
    exact ⟨fun h => h.1,fun h => ⟨h,rfl⟩⟩

/-- What happens: the keyboard sends a scancode, or a program reads a key code. -/
inductive Event where
  /-- A scancode arrives. -/
  | scancode (sc : UInt8)
  /-- A call that reads a key code returns. -/
  | getch

/-- The buffer has room for all that is pressed. -/
def NeverFull : List Event → Keyboard → Prop
  | [], _ => True
  | .scancode sc::events, k =>
    k.ring.queue.length+(pressedBytes (pressed k.mods sc)).length<kbBufferSize ∧
      NeverFull events (processScancode sc k).2
  | .getch::events, k =>
    match tuiGetch k with
    | none => True
    | some (_,k) => NeverFull events k

/-- Each call returns the code of the key that is next among those pressed, and consumes
exactly its bytes. A call before which nothing was pressed does not return. -/
def Survives : List Key → List Event → Keyboard → Prop
  | _, [], _ => True
  | keys, .scancode sc::events, k =>
    Survives (keys++(pressed k.mods sc).toList) events (processScancode sc k).2
  | [], .getch::_, _ => True
  | key::keys, .getch::events, k =>
    ∃ k', tuiGetch k=some (key.code,k') ∧ k.ring.queue=key.bytes++k'.ring.queue ∧
      Survives keys events k'

/-- The keys that calls are about, in order. -/
def keysRead : List Key → List Event → Modifiers → List Key
  | _, [], _ => []
  | keys, .scancode sc::events, mods =>
    keysRead (keys++(pressed mods sc).toList) events (nextModifiers mods sc)
  | [], .getch::_, _ => []
  | key::keys, .getch::events, mods => key::keysRead keys events mods

/-- The bytes of keys one after the other. -/
def allBytes (keys : List Key) : List UInt8 := (keys.map Key.bytes).flatten

/-- The bytes of a scancode's key come last. -/
theorem allBytes_pressed (keys : List Key) (key : Option Key) :
    allBytes (keys++key.toList)=allBytes keys++pressedBytes key := by
  cases key with
  | none => rw [Option.toList_none,List.append_nil,pressedBytes_none,List.append_nil]
  | some key =>
    rw [allBytes,Option.toList_some,List.map_append,List.flatten_append,List.map_singleton,
      List.flatten_singleton,pressedBytes_some]
    rfl

/-- A call that returns reads as from a list. -/
theorem getchQueue_of_tuiGetch {code : ℕ} {k' : Keyboard} (h : tuiGetch k=some (code,k')) :
    getchQueue k.ring.queue=some (code,k'.ring.queue) ∧ k'.mods=k.mods := by
  cases hqueue : getchQueue k.ring.queue with
  | none =>
    rw [tuiGetch_none hqueue] at h
    cases h
  | some result =>
    obtain ⟨k1,hget,hrest,hmods⟩ := tuiGetch_some hqueue
    rw [h,Option.some.injEq,Prod.mk.injEq] at hget
    rw [hget.1,hget.2,hrest]
    exact ⟨rfl,hmods⟩

/-- With the pressed keys in the buffer, calls survive if and only if their keys do. -/
theorem survives_iff_of_queue {keys : List Key} {events : List Event}
    (hqueue : k.ring.queue=allBytes keys) (hvalid : ∀ key∈keys, key.Valid)
    (hroom : NeverFull events k) :
    Survives keys events k ↔ ∀ key∈keysRead keys events k.mods, key∉undecodable := by
  induction events generalizing keys k with
  | nil => exact iff_of_true trivial fun key hkey => by cases hkey
  | cons event events ih =>
    cases event with
    | scancode sc =>
      obtain ⟨hnow,hlater⟩ := hroom
      obtain ⟨hput,hmods⟩ := processScancode_eq hnow
      rw [Survives,keysRead,← hmods]
      refine ih ?_ (fun key hkey => ?_) hlater
      · rw [hput,hqueue,allBytes_pressed]
      · rcases List.mem_append.mp hkey with hkey | hkey
        · exact hvalid key hkey
        · exact pressed_valid (Option.mem_toList.mp hkey)
    | getch =>
      cases keys with
      | nil => exact iff_of_true trivial fun key hkey => by cases hkey
      | cons key keys =>
        have hsplit : k.ring.queue=key.bytes++allBytes keys := by
          rw [hqueue]
          rfl
        have hdecode := getchQueue_key (hvalid key List.mem_cons_self) (allBytes keys)
        have hvalid' : ∀ key∈keys, key.Valid := fun key hkey =>
          hvalid key (List.mem_cons_of_mem _ hkey)
        rw [← hsplit] at hdecode
        rw [Survives,keysRead,List.forall_mem_cons]
        constructor
        · rintro ⟨k',hget,hbytes,hrest⟩
          have hrestq : k'.ring.queue=allBytes keys :=
            List.append_cancel_left (hbytes.symm.trans hsplit)
          obtain ⟨hcode,hmods⟩ := getchQueue_of_tuiGetch hget
          rw [hrestq] at hcode
          rw [NeverFull,hget] at hroom
          refine ⟨hdecode.mp hcode,?_⟩
          rw [← hmods]
          exact (ih hrestq hvalid' hroom).mp hrest
        · rintro ⟨hkey,hkeys⟩
          obtain ⟨k',hget,hrestq,hmods⟩ := tuiGetch_some (hdecode.mpr hkey)
          rw [NeverFull,hget] at hroom
          rw [← hmods] at hkeys
          exact ⟨k',hget,by rw [hrestq]; exact hsplit,
            (ih hrestq hvalid' hroom).mpr hkeys⟩

/-- From an empty buffer that never fills, each call returns the code of its key and
consumes exactly its bytes if and only if none of the keys is Escape, Left, Right, F10,
F11 or F12. -/
theorem survives_iff {events : List Event} (hempty : k.ring.queue=[]) (hroom : NeverFull events k) :
    Survives [] events k ↔ ∀ key∈keysRead [] events k.mods, key∉undecodable :=
  survives_iff_of_queue hempty (fun key hkey => by cases hkey) hroom

/-- A keyboard on which nothing was pressed. -/
def idle : Keyboard :=
  ⟨⟨fun _ => 0,0,0,by norm_num,by norm_num⟩,⟨0,false,false⟩,0,0⟩

/-- The key `a` and the Up key, and two calls. -/
def plainEvents : List Event := [.scancode 0x1E,.scancode 0xE0,.scancode 0x48,.getch,.getch]

/-- The key `a` and the Up key survive. -/
theorem plainEvents_survive : Survives [] plainEvents idle := by
  refine (survives_iff (k := idle) (by decide) ?_).mpr (by decide)
  refine ⟨by decide,by decide,by decide,?_⟩
  simp only [NeverFull]
  split
  · trivial
  · split
    · trivial
    · trivial

/-- The Left key is read as the Right key, and the Escape key swallows the key that
follows. -/
theorem left_and_escape_not_survive :
    ¬Survives [] [.scancode 0xE0,.scancode 0x4B,.getch] idle ∧
      ¬Survives [] [.scancode 0x01,.scancode 0x1E,.getch,.getch] idle := by
  constructor
  · rintro ⟨k',hget,_⟩
    have hcode : (tuiGetch (processScancode 0x4B (processScancode 0xE0 idle).2).2).map Prod.fst=
        some 303 := by decide
    rw [hget,Option.map_some] at hcode
    cases hcode
  · rintro ⟨k',hget,hbytes,_⟩
    have hrest : (tuiGetch (processScancode 0x1E (processScancode 0x01 idle).2).2).map
        (fun r => r.2.ring.queue)=some [] := by decide
    rw [hget,Option.map_some,Option.some.injEq] at hrest
    have hlen := congrArg List.length hbytes
    rw [hrest] at hlen
    revert hlen
    decide

end OvsbMk.KeyPresses
