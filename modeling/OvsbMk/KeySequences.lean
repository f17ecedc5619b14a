import Mathlib.Data.List.TakeDrop
import OvsbMk.KeyPresses
import OvsbMk.KeyQueue
import OvsbMk.Traces

/-!
# Escape sequences in the keyboard queue

A sequence is put byte by byte into a buffer that refuses single bytes when it is full. The
bytes handed out consist of pieces, one for each key that was pressed. A piece is whole or
empty unless the buffer had room for a part of the sequence only.
-/

namespace OvsbMk.KeySequences

open RingBuffer KeyInput KeyPresses KeyQueue

/-- Ticks until a key that is held repeats. -/
abbrev repeatDelay : UInt64 := 80

/-- Ticks between two repetitions. -/
abbrev repeatRate : UInt64 := 8

/-- The driver with the times of the last press and the last repetition. -/
structure Driver where
  /-- The buffer and the held keys. -/
  keyboard : Keyboard
  /-- Time of the last press. -/
  pressTick : UInt64
  /-- Time of the last repetition. -/
  lastRepeatTick : UInt64

/-- The scancode reaches the last branch of `process_scancode` and has a character. -/
def IsMake (mods : Modifiers) (sc : UInt8) : Prop :=
  sc≠0xE0 ∧ sc≠0xE1 ∧ mods.extFlag=false ∧
    sc∉([0x2A,0x36,0xAA,0xB6,0x1D,0x9D,0x38,0xB8] : List UInt8) ∧ ¬0x80 ≤ sc ∧
    sc.toNat<normSize ∧ character mods sc≠0

instance (mods : Modifiers) (sc : UInt8) : Decidable (IsMake mods sc) :=
  inferInstanceAs (Decidable (_ ∧ _))

/-- The keyboard interrupt at a time. -/
def keyboardHandler (ticks : UInt64) (sc : UInt8) (d : Driver) : Driver :=
  { keyboard := (processScancode sc d.keyboard).2
    pressTick := if IsMake d.keyboard.mods sc then ticks else d.pressTick
    lastRepeatTick := if IsMake d.keyboard.mods sc then ticks else d.lastRepeatTick }

/-- One round of the loop of `keyboard_read` at a time: the byte that it returns, if any. -/
def readRound (ticks : UInt64) (d : Driver) : Option UInt8×Driver :=
  match keyboardRead d.keyboard with
  | some (c,k) => (some c,{ d with keyboard := k })
  | none =>
    if d.keyboard.lastMakeSc≠0 ∧ d.keyboard.lastRepeatChar≠0 ∧
        repeatDelay<ticks-d.pressTick ∧ repeatRate≤ticks-d.lastRepeatTick then
      (some d.keyboard.lastRepeatChar,{ d with lastRepeatTick := ticks })
    else (none,d)

/-- What the buffer took of a key. -/
structure Piece where
  /-- The key. -/
  key : Key
  /-- The bytes. -/
  bytes : List UInt8

/-- A piece is whole or empty. -/
def Piece.Unbroken (p : Piece) : Prop := p.bytes=[] ∨ p.bytes=p.key.bytes

/-- The driver and what has happened. -/
structure Session where
  /-- The driver. -/
  driver : Driver
  /-- What the buffer took of the keys that were pressed. -/
  pieces : List Piece
  /-- Bytes that were handed out. -/
  returned : List UInt8

/-- What happens next, and at what time. -/
inductive Event where
  /-- The keyboard interrupt. -/
  | scancode (ticks : UInt64) (sc : UInt8)
  /-- A round of the loop of a reader. -/
  | round (ticks : UInt64)

/-- The queue of the session. -/
def Session.queue (s : Session) : List UInt8 := s.driver.keyboard.ring.queue

/-- The piece of a key that is pressed: the bytes that are new in the buffer. -/
def pieceOf (before after : List UInt8) (key : Key) : Piece := ⟨key,after.drop before.length⟩

/-- An event. -/
def step (s : Session) : Event → Session
  | .scancode ticks sc =>
    let d := keyboardHandler ticks sc s.driver
    { s with
      driver := d
      pieces := s.pieces++((pressed s.driver.keyboard.mods sc).map
        (pieceOf s.queue d.keyboard.ring.queue)).toList }
  | .round ticks =>
    { s with
      driver := (readRound ticks s.driver).2
      returned := s.returned++(readRound ticks s.driver).1.toList }

/-- Events, one after the other. -/
def run (s : Session) (events : List Event) : Session := events.foldl step s

/-- The bytes of some pieces. -/
def joined (pieces : List Piece) : List UInt8 := (pieces.map Piece.bytes).flatten

/-- The bytes that are handed out when the reader goes on until the buffer is empty. -/
def drained (s : Session) : List UInt8 :=
  (run s (List.replicate s.queue.length (.round 0))).returned

/-- The bytes handed out are those of the keys that were pressed, of each key all of them or
none. -/
def HandsOutWhole (s : Session) : Prop :=
  drained s=joined s.pieces ∧ ∀ p∈s.pieces, p.Unbroken

/-- A scancode finds the buffer full, or with room for all bytes of the key it presses. -/
def Fits (s : Session) : Event → Prop
  | .scancode _ sc => s.queue.length=255 ∨
    s.queue.length+(pressedBytes (pressed s.driver.keyboard.mods sc)).length≤255
  | .round _ => True

instance (s : Session) : (event : Event) → Decidable (Fits s event)
  | .scancode _ _ => inferInstanceAs (Decidable (_ ∨ _))
  | .round _ => isTrue trivial

/-- Nothing is in the buffer, pressed or handed out. -/
def Starts (s : Session) : Prop :=
  s.queue=[] ∧ s.driver.keyboard.lastMakeSc=0 ∧ s.pieces=[] ∧ s.returned=[]

variable {s : Session} {k : Keyboard} {sc : UInt8} {key : Key}

/-- A sequence is taken as far as there is room. -/
theorem kbufPutSeq_queue (seq : List UInt8) (k : Keyboard) :
    (kbufPutSeq seq k).ring.queue=k.ring.queue++seq.take (255-k.ring.queue.length) := by
  induction seq generalizing k with
  | nil => simp [kbufPutSeq]
  | cons c rest ih =>
    rw [kbufPutSeq,ih]
    by_cases hacc : Accepts k
    · have hroom := accepts_iff.mp hacc
      have hleft : 255-k.ring.queue.length=255-(k.ring.queue.length+1)+1 := by omega
      rw [kbufPut_accepted hacc,List.length_append,List.length_singleton,hleft,
        List.take_succ_cons,List.append_assoc,List.singleton_append]
    · have hfull : 255-k.ring.queue.length=0 := by
        rw [accepts_iff] at hacc
        omega
      rw [kbufPut_refused hacc,hfull,List.take_zero,List.take_zero]

/-- The buffer takes the bytes that a scancode presses as far as there is room. -/
theorem processScancode_queue (sc : UInt8) (k : Keyboard) :
    (processScancode sc k).2.ring.queue=k.ring.queue++
      (pressedBytes (pressed k.mods sc)).take (255-k.ring.queue.length) := by
  rw [(processScancode_ring sc k).1,kbufPutSeq_queue]

/-- Every key has a byte. -/
theorem key_bytes_ne_nil (hkey : key.Valid) : key.bytes≠[] := by
  cases key with
  | char c => simp [Key.bytes]
  | extended sc =>
    have hall : ∀ e∈ext, e.2≠[] := by decide
    rw [Key.bytes,sequenceOf]
    cases hfind : ext.find? fun e => e.1==sc with
    | some e => exact hall e (List.mem_of_find?_eq_some hfind)
    | none =>
      obtain ⟨e,he,hsc⟩ := List.mem_map.mp hkey
      exact absurd (beq_iff_eq.mpr hsc) (List.find?_eq_none.mp hfind e he)

/-- The piece of a key that is pressed is what fits of its bytes. -/
theorem pieceOf_eq (h : pressed k.mods sc=some key) :
    pieceOf k.ring.queue (processScancode sc k).2.ring.queue key=
      ⟨key,key.bytes.take (255-k.ring.queue.length)⟩ := by
  rw [pieceOf,processScancode_queue,h,pressedBytes_some,List.drop_left]

/-- A piece is whole or empty if and only if there was room for all of it or for none. -/
theorem unbroken_iff (hkey : key.Valid) {n : ℕ} (hn : n≤255) :
    (⟨key,key.bytes.take (255-n)⟩ : Piece).Unbroken ↔ n=255 ∨ n+key.bytes.length≤255 := by
  have hpos := List.length_pos_iff.mpr (key_bytes_ne_nil hkey)
  unfold Piece.Unbroken
  dsimp only
  rw [List.take_eq_self_iff,List.take_eq_nil_iff]
  constructor
  · intro h
    cases h with
    | inl h =>
      cases h with
      | inl h => omega
      | inr h => exact absurd h (key_bytes_ne_nil hkey)
    | inr h => omega
  · intro h
    omega

/-- Putting a sequence does not set the repeated key. -/
theorem kbufPutSeq_lastMakeSc (seq : List UInt8) (k : Keyboard) :
    (kbufPutSeq seq k).lastMakeSc=k.lastMakeSc := by
  induction seq generalizing k with
  | nil => rfl
  | cons c rest ih => exact ih (kbufPut c k)

/-- Nor does an extended scancode. -/
theorem handleExtended_lastMakeSc (sc : UInt8) (k : Keyboard) :
    (handleExtended sc k).2.lastMakeSc=k.lastMakeSc := by
  unfold handleExtended
  split
  · exact kbufPutSeq_lastMakeSc _ k
  · split
    · rfl
    split
    · rfl
    split
    · rfl
    split
    · rfl
    split <;> rfl

/-- The repeated key is as before, or there is none, or a key is pressed. -/
def RepeatOf (k : Keyboard) (sc : UInt8) (r : ℤ×Keyboard) : Prop :=
  r.2.lastMakeSc=k.lastMakeSc ∨ r.2.lastMakeSc=0 ∨ ∃ key, pressed k.mods sc=some key

/-- A scancode sets the repeated key only when it presses one. -/
theorem processScancode_repeatOf (sc : UInt8) (k : Keyboard) :
    RepeatOf k sc (processScancode sc k) := by
  by_cases h0 : sc=0xE0
  · subst h0
    exact .inl rfl
  by_cases h1 : sc=0xE1
  · subst h1
    exact .inl rfl
  rw [processScancode,if_neg h0,if_neg h1]
  by_cases hext : k.mods.extFlag=true
  · rw [if_pos hext]
    exact .inl (handleExtended_lastMakeSc sc _)
  rw [if_neg hext]
  split
  · exact .inl rfl
  split
  · exact .inl rfl
  split
  · exact .inl rfl
  split
  · exact .inl rfl
  split
  · exact .inl rfl
  split
  · exact .inl rfl
  split
  · split
    · exact .inr (.inl rfl)
    · exact .inl rfl
  split
  next hchar =>
    refine .inr (.inr ⟨.char (character k.mods sc),?_⟩)
    have hnot : ¬(sc=0xE0 ∨ sc=0xE1) := fun hor => hor.elim h0 h1
    have hheld : ¬(sc∈([0x2A,0x36,0xAA,0xB6,0x1D,0x9D,0x38,0xB8] : List UInt8) ∨ 0x80 ≤ sc) := by
      simp only [List.mem_cons,List.not_mem_nil,or_false]
      tauto
    rw [pressed,if_neg hnot,if_neg hext,if_neg hheld,if_pos hchar]
  · exact .inl rfl

/-- Invariant: the pieces make up what was handed out and what is in the buffer, and no key
repeats while the buffer is empty. -/
structure Inv (s : Session) : Prop where
  /-- The pieces in their order. -/
  bytes : s.returned++s.queue=joined s.pieces
  /-- There is a repeated key only with a byte in the buffer. -/
  quiet : s.driver.keyboard.lastMakeSc=0 ∨ s.queue≠[]

/-- The pieces with one more. -/
theorem joined_snoc (pieces : List Piece) (p : Piece) :
    joined (pieces++[p])=joined pieces++p.bytes := by
  simp [joined]

/-- The interrupt keeps the invariant. -/
theorem Inv.scancode (h : Inv s) (ticks : UInt64) (sc : UInt8) :
    Inv (step s (.scancode ticks sc)) := by
  have hqueue := processScancode_queue sc s.driver.keyboard
  have hbytes := h.bytes
  unfold Session.queue at hbytes
  constructor
  · cases hkey : pressed s.driver.keyboard.mods sc with
    | none =>
      rw [hkey,pressedBytes_none,List.take_nil,List.append_nil] at hqueue
      simp only [step,Session.queue,keyboardHandler,hkey,Option.map_none,Option.toList_none,
        List.append_nil,hqueue]
      exact hbytes
    | some key =>
      have hpiece := pieceOf_eq hkey
      rw [hkey,pressedBytes_some] at hqueue
      simp only [step,Session.queue,keyboardHandler,hkey,Option.map_some,Option.toList_some,
        joined_snoc,hpiece]
      rw [hqueue,←List.append_assoc,hbytes]
  · change (processScancode sc s.driver.keyboard).2.lastMakeSc=0 ∨
      (processScancode sc s.driver.keyboard).2.ring.queue≠[]
    rw [hqueue]
    cases processScancode_repeatOf sc s.driver.keyboard with
    | inl hsame =>
      rw [hsame]
      cases h.quiet with
      | inl hzero => exact .inl hzero
      | inr hne => exact .inr (List.append_ne_nil_of_left_ne_nil hne _)
    | inr hor =>
      cases hor with
      | inl hzero => exact .inl hzero
      | inr hkey =>
        obtain ⟨key,hkey⟩ := hkey
        refine .inr fun hnil => ?_
        rw [hkey,pressedBytes_some,List.append_eq_nil_iff,List.take_eq_nil_iff] at hnil
        have hne := key_bytes_ne_nil (pressed_valid hkey)
        rw [hnil.1,List.length_nil] at hnil
        simp [hne] at hnil

/-- Without a byte nothing is read. -/
theorem keyboardRead_nil (h : k.ring.queue=[]) : keyboardRead k=none := by
  rw [keyboardRead,Ring.get_nil h]

/-- The oldest byte is read, and no key repeats. -/
theorem keyboardRead_cons {c : UInt8} {rest : List UInt8} (h : k.ring.queue=c::rest) :
    ∃ k', keyboardRead k=some (c,k') ∧ k'.ring.queue=rest ∧ k'.lastMakeSc=0 := by
  obtain ⟨ring,hget,hrest⟩ := Ring.get_cons h
  rw [keyboardRead,hget]
  exact ⟨_,rfl,hrest,rfl⟩

/-- A round hands out the oldest byte. -/
theorem round_cons {c : UInt8} {rest : List UInt8} (h : s.queue=c::rest) (ticks : UInt64) :
    (step s (.round ticks)).returned=s.returned++[c] ∧ (step s (.round ticks)).queue=rest ∧
      (step s (.round ticks)).driver.keyboard.lastMakeSc=0 := by
  obtain ⟨k,hread,hrest,hzero⟩ := keyboardRead_cons h
  have hround : readRound ticks s.driver=(some c,{ s.driver with keyboard := k }) := by
    rw [readRound,hread]
  simp only [step,Session.queue,hround,Option.toList_some]
  exact ⟨trivial,hrest,hzero⟩

/-- A round finds nothing, and no key repeats. -/
theorem round_nil (h : s.queue=[]) (hzero : s.driver.keyboard.lastMakeSc=0) (ticks : UInt64) :
    step s (.round ticks)=s := by
  have hround : readRound ticks s.driver=(none,s.driver) := by
    rw [readRound,keyboardRead_nil h]
    dsimp only
    rw [if_neg (fun hand => hand.1 hzero)]
  simp only [step,hround,Option.toList_none,List.append_nil]

/-- A round keeps the invariant. -/
theorem Inv.round (h : Inv s) (ticks : UInt64) : Inv (step s (.round ticks)) := by
  cases hqueue : s.queue with
  | nil =>
    have hzero := h.quiet.resolve_right (fun hne => hne hqueue)
    rw [round_nil hqueue hzero]
    exact h
  | cons c rest =>
    have hround := round_cons hqueue ticks
    refine ⟨?_,.inl hround.2.2⟩
    rw [hround.1,hround.2.1,List.append_assoc,List.singleton_append,←hqueue]
    exact h.bytes

/-- Reading on hands out what is in the buffer. -/
theorem drained_eq (s : Session) : drained s=s.returned++s.queue := by
  unfold drained
  generalize hqueue : s.queue=queue
  induction queue generalizing s with
  | nil => exact (List.append_nil _).symm
  | cons c rest ih =>
    have hround := round_cons hqueue 0
    have hrest := ih _ hround.2.1
    rw [hround.1,List.append_assoc,List.singleton_append] at hrest
    exact hrest

/-- Every event keeps the invariant. -/
theorem Inv.step (h : Inv s) (event : Event) : Inv (step s event) := by
  cases event with
  | scancode ticks sc => exact h.scancode ticks sc
  | round ticks => exact h.round ticks

/-- All pieces are unbroken after an event if and only if they were before it, and the event
fits. -/
theorem step_unbroken (s : Session) (event : Event) :
    (∀ p∈(step s event).pieces, p.Unbroken) ↔ (∀ p∈s.pieces, p.Unbroken) ∧ Fits s event := by
  cases event with
  | round ticks => exact (and_iff_left trivial).symm
  | scancode ticks sc =>
    cases hkey : pressed s.driver.keyboard.mods sc with
    | none =>
      have hfits : Fits s (.scancode ticks sc) := by
        rw [Fits,hkey,pressedBytes_none]
        exact .inr (queue_le _)
      simp only [step,hkey,Option.map_none,Option.toList_none,List.append_nil]
      exact (and_iff_left hfits).symm
    | some key =>
      have hone := unbroken_iff (pressed_valid hkey) (queue_le s.driver.keyboard.ring)
      have hpiece := pieceOf_eq hkey
      simp only [step,keyboardHandler,Session.queue,hkey,Option.map_some,Option.toList_some,hpiece,
        Fits,pressedBytes_some]
      rw [←hone,List.forall_mem_append,List.forall_mem_singleton]

/-- All pieces are unbroken after a run if and only if they were before it, and every event
fits. -/
theorem run_unbroken (events : List Event) (s : Session) :
    (∀ p∈(run s events).pieces, p.Unbroken) ↔
      (∀ p∈s.pieces, p.Unbroken) ∧ Traces.Always step Fits s events := by
  induction events generalizing s with
  | nil => exact (and_iff_left trivial).symm
  | cons event events ih =>
    have hcons := ih (step s event)
    rw [step_unbroken,and_assoc] at hcons
    exact hcons

/-- Every run keeps the invariant. -/
theorem Inv.stays (h : Inv s) (events : List Event) : Inv (run s events) := by
  induction events generalizing s with
  | nil => exact h
  | cons event events ih => exact ih (h.step event)

/-- The invariant holds at the start. -/
theorem Starts.inv (h : Starts s) : Inv s := by
  refine ⟨?_,.inl h.2.1⟩
  rw [h.1,h.2.2.1,h.2.2.2]
  rfl

/-- In every run the keys are handed out whole or not at all if and only if each scancode
finds the buffer full or with room for all bytes of its key. -/
theorem handsOutWhole_iff (hs : Starts s) (events : List Event) :
    HandsOutWhole (run s events) ↔ Traces.Always step Fits s events := by
  have hinv := hs.inv.stays events
  have hnone : ∀ p∈s.pieces, p.Unbroken := by
    rw [hs.2.2.1]
    exact fun p hp => absurd hp List.not_mem_nil
  unfold HandsOutWhole
  rw [drained_eq,and_iff_right hinv.bytes,run_unbroken,and_iff_right hnone]

/-- The driver at boot. -/
def boot : Session := ⟨⟨KeyQueue.boot.keyboard,0,0⟩,[],[]⟩

/-- The Up key is handed out whole. -/
theorem boot_up_whole : HandsOutWhole (run boot [.scancode 0 0xE0,.scancode 0 0x48]) :=
  (handsOutWhole_iff (s:=boot) ⟨rfl,rfl,rfl,rfl⟩ _).mpr ⟨by decide,by decide,trivial⟩

/-- The key `a` is pressed a number of times, and then the Up key. -/
def burst (n : ℕ) : List Event :=
  List.replicate n (.scancode 0 0x1E)++[.scancode 0 0xE0,.scancode 0 0x48]

/-- The key `a` takes one byte of the buffer each time. -/
theorem presses_queue (hmods : s.driver.keyboard.mods=⟨0,false,false⟩) (n : ℕ)
    (hroom : s.queue.length+n≤255) :
    (run s (List.replicate n (.scancode 0 0x1E))).queue.length=s.queue.length+n ∧
      (run s (List.replicate n (.scancode 0 0x1E))).driver.keyboard.mods=⟨0,false,false⟩ := by
  induction n generalizing s with
  | zero => exact ⟨rfl,hmods⟩
  | succ n ih =>
    have hkey : pressed s.driver.keyboard.mods 0x1E=some (.char 97) := by
      rw [hmods]
      rfl
    have hlen : (step s (.scancode 0 0x1E)).queue.length=s.queue.length+1 := by
      have hqueue := congrArg List.length (processScancode_queue 0x1E s.driver.keyboard)
      rw [hkey,pressedBytes_some,Key.bytes,List.length_append,List.length_take,
        List.length_singleton] at hqueue
      unfold Session.queue at hroom ⊢
      simp only [step,keyboardHandler]
      omega
    have hheld : (step s (.scancode 0 0x1E)).driver.keyboard.mods=⟨0,false,false⟩ := by
      simp only [step,keyboardHandler]
      rw [(processScancode_ring 0x1E s.driver.keyboard).2,hmods]
      rfl
    have hrest := ih hheld (by omega)
    rw [hlen] at hrest
    exact ⟨hrest.1.trans (by omega),hrest.2⟩

/-- The last piece of a burst is what fits of the Up key. -/
theorem burst_pieces {n : ℕ} (hn : n≤255) : (run boot (burst n)).pieces.getLast?=
    some ⟨.extended 0x48,[0x1B,0x5B,0x41].take (255-n)⟩ := by
  have hboot : boot.queue.length=0 := rfl
  obtain ⟨hqueue,hmods⟩ := presses_queue (s:=boot) rfl n (by omega)
  have hsplit : run boot (burst n)=step (step (run boot (List.replicate n (.scancode 0 0x1E)))
      (.scancode 0 0xE0)) (.scancode 0 0x48) := by
    rw [run,burst,List.foldl_append]
    rfl
  generalize run boot (List.replicate n (.scancode 0 0x1E))=t at hqueue hmods hsplit
  have hkept : (step t (.scancode 0 0xE0)).queue=t.queue := rfl
  have hext : (step t (.scancode 0 0xE0)).driver.keyboard.mods=⟨0,false,true⟩ := by
    simp only [step,keyboardHandler]
    rw [(processScancode_ring 0xE0 t.driver.keyboard).2,hmods]
    rfl
  have hkey : pressed (step t (.scancode 0 0xE0)).driver.keyboard.mods 0x48=
      some (.extended 0x48) := by
    rw [hext]
    rfl
  have hpiece := pieceOf_eq hkey
  rw [←Session.queue,hkept,hqueue,hboot,Nat.zero_add] at hpiece
  rw [hsplit,step]
  simp only [keyboardHandler,hkey,Option.map_some,Option.toList_some,List.getLast?_concat,
    Option.some.injEq]
  exact hpiece

/-- With two places left the Up key is cut: its last byte is lost. -/
theorem burst_cut : (run boot (burst 253)).pieces.getLast?=some ⟨.extended 0x48,[0x1B,0x5B]⟩ ∧
    ¬HandsOutWhole (run boot (burst 253)) := by
  have hlast := burst_pieces (n:=253) (by decide)
  refine ⟨hlast,fun hwhole => ?_⟩
  have hcut := hwhole.2 _ (List.mem_of_getLast? hlast)
  unfold Piece.Unbroken at hcut
  revert hcut
  decide

end OvsbMk.KeySequences
