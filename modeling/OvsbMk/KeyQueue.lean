import OvsbMk.KeyInput

/-!
# The keyboard queue under interrupts

The keyboard interrupt stores bytes while a reader takes them. The interrupt comes between
any two accesses of the reader to the variables of the driver; itself it is not
interrupted. The bytes that calls return are those that were accepted, in their order.
-/

namespace OvsbMk.KeyQueue

open RingBuffer KeyInput

/-- Where the call of `keyboard_read` is, with what it has loaded. -/
inductive Reader where
  /-- There is no call. -/
  | idle
  /-- At `kb_head != kb_tail`. -/
  | test
  /-- `kb_head` is loaded. -/
  | compare (head : ℕ)
  /-- At `kb_buffer[kb_tail]`. -/
  | byte
  /-- `kb_tail` is loaded. -/
  | load (tail : ℕ)
  /-- The byte is loaded. -/
  | next (c : UInt8)
  /-- The next value of `kb_tail` is computed. -/
  | store (c : UInt8) (tail : Fin kbBufferSize)
  /-- `kb_tail` is stored. -/
  | leave (c : UInt8)
  /-- The buffer was found empty: the repeated key is looked at next. -/
  | waits

/-- The driver, its reader, and what has happened. -/
structure Session where
  /-- The driver. -/
  keyboard : Keyboard
  /-- The reader. -/
  reader : Reader
  /-- Control and C were read. -/
  sigintPending : Bool
  /-- Bytes that the buffer has accepted. -/
  accepted : List UInt8
  /-- Bytes that calls have returned. -/
  returned : List UInt8

/-- The test of `kbuf_put`. -/
def Accepts (k : Keyboard) : Prop := (k.ring.head+1)%kbBufferSize≠k.ring.tail

instance (k : Keyboard) : Decidable (Accepts k) := inferInstanceAs (Decidable (_≠_))

/-- What happens next. -/
inductive Event where
  /-- The keyboard interrupt stores a byte. -/
  | put (c : UInt8)
  /-- The reader makes one access; without a call it starts one if `keyboard_avail` is 1. -/
  | access

/-- `keyboard_avail`. -/
def keyboardAvail (k : Keyboard) : ℤ := if k.ring.head≠k.ring.tail then 1 else 0

/-- Store `kb_tail`. -/
def setTail (tail : Fin kbBufferSize) (k : Keyboard) : Keyboard :=
  { k with ring := { k.ring with tail := tail, tail_lt := tail.isLt } }

/-- One access of the reader. -/
def Session.access (s : Session) : Session :=
  match s.reader with
  | .idle => if keyboardAvail s.keyboard=1 then { s with reader := .test } else s
  | .test => { s with reader := .compare s.keyboard.ring.head }
  | .compare head => { s with reader := if head≠s.keyboard.ring.tail then .byte else .waits }
  | .byte => { s with reader := .load s.keyboard.ring.tail }
  | .load tail => { s with reader := .next (s.keyboard.ring.buffer tail) }
  | .next c =>
    { s with reader := .store c ⟨(s.keyboard.ring.tail+1)%kbBufferSize,Nat.mod_lt _ (by decide)⟩ }
  | .store c tail => { s with keyboard := setTail tail s.keyboard, reader := .leave c }
  | .leave c =>
    { s with
      keyboard := { s.keyboard with lastMakeSc := 0, lastRepeatChar := 0 }
      sigintPending := s.sigintPending || c==3
      reader := .idle
      returned := s.returned++[c] }
  | .waits => s

/-- The interrupt stores a byte. -/
def Session.put (c : UInt8) (s : Session) : Session :=
  { s with
    keyboard := kbufPut c s.keyboard
    accepted := if Accepts s.keyboard then s.accepted++[c] else s.accepted }

/-- An event. -/
def step (s : Session) : Event → Session
  | .put c => s.put c
  | .access => s.access

/-- Events, one after the other. -/
def run (s : Session) (events : List Event) : Session := events.foldl step s

/-- The byte that a call has taken out of the buffer and not yet returned. -/
def Reader.inHand : Reader → List UInt8
  | .leave c => [c]
  | _ => []

/-- Bytes that calls have taken out of the buffer. -/
def Session.taken (s : Session) : List UInt8 := s.returned++s.reader.inHand

/-- Nothing was stored or read, and the buffer is empty. -/
def Starts (s : Session) : Prop :=
  s.keyboard.ring.head=s.keyboard.ring.tail ∧ s.reader=.idle ∧ s.accepted=[] ∧ s.returned=[]

/-- What the reader has loaded is still so. -/
def Reader.Current (r : Ring UInt8 kbBufferSize) : Reader → Prop
  | .idle => True
  | .test => r.head≠r.tail
  | .compare head => head≠r.tail ∧ r.head≠r.tail
  | .byte => r.head≠r.tail
  | .load tail => tail=r.tail ∧ r.head≠r.tail
  | .next c => c=r.buffer r.tail ∧ r.head≠r.tail
  | .store c tail => c=r.buffer r.tail ∧ tail=(r.tail+1)%kbBufferSize ∧ r.head≠r.tail
  | .leave _ => True
  | .waits => False

/-- Invariant: what was accepted is what was taken and what is in the buffer. -/
structure Inv (s : Session) : Prop where
  /-- The bytes, in their order. -/
  bytes : s.accepted=s.taken++s.keyboard.ring.queue
  /-- What the reader has loaded is still so. -/
  current : s.reader.Current s.keyboard.ring

variable {s : Session} {c : UInt8} {r : Ring UInt8 kbBufferSize}

/-- The buffer accepts a byte if and only if it does not hold 255. -/
theorem accepts_iff {k : Keyboard} : Accepts k ↔ k.ring.queue.length<255 := by
  have hh := k.ring.head_lt
  have ht := k.ring.tail_lt
  have hsize : kbBufferSize=256 := rfl
  unfold Accepts
  rw [Ring.length_queue,mod_once (by omega),span]
  split <;> split <;> omega

/-- The buffer never holds more. -/
theorem queue_le (r : Ring UInt8 kbBufferSize) : r.queue.length≤255 := by
  have hh := r.head_lt
  have ht := r.tail_lt
  have hsize : kbBufferSize=256 := rfl
  rw [Ring.length_queue,span]
  split <;> omega

/-- The queue is empty if and only if the indices are the same. -/
theorem queue_eq_nil_iff : r.queue=[] ↔ r.head=r.tail := by
  have hh := r.head_lt
  have ht := r.tail_lt
  rw [←List.length_eq_zero_iff,Ring.length_queue,span]
  split <;> omega

/-- A byte that is not accepted changes nothing. -/
theorem kbufPut_refused {k : Keyboard} (h : ¬Accepts k) : kbufPut c k=k := by
  unfold Accepts at h
  rw [kbufPut,Ring.put,if_neg h]

/-- A byte that is accepted comes last. -/
theorem kbufPut_accepted {k : Keyboard} (h : Accepts k) :
    (kbufPut c k).ring.queue=k.ring.queue++[c] := by
  have hroom : k.ring.queue.length+1<256 := by
    have hlen := accepts_iff.mp h
    omega
  exact Ring.queue_put hroom

/-- A byte is refused if and only if storing it changes nothing. -/
theorem kbufPut_eq_iff {k : Keyboard} : kbufPut c k=k ↔ ¬Accepts k := by
  constructor
  · intro heq hacc
    have hq := kbufPut_accepted (c:=c) hacc
    rw [heq] at hq
    simp at hq
  · exact kbufPut_refused

/-- Storing a byte keeps what the reader has loaded: it moves neither `kb_tail` nor a
byte that is in the buffer. -/
theorem Current.put {reader : Reader} (h : reader.Current r) : reader.Current (r.put c) := by
  by_cases hroom : (r.head+1)%kbBufferSize≠r.tail
  · have hhead : (r.put c).head=(r.head+1)%kbBufferSize := by rw [Ring.put,if_pos hroom]
    have htail : (r.put c).tail=r.tail := by rw [Ring.put,if_pos hroom]
    have hbuffer : r.head≠r.tail → (r.put c).buffer r.tail=r.buffer r.tail := by
      intro hne
      rw [Ring.put,if_pos hroom]
      exact Function.update_of_ne hne.symm _ _
    cases reader with
    | idle => trivial
    | leave => trivial
    | waits => exact h
    | test =>
      simp only [Reader.Current,hhead,htail]
      exact hroom
    | byte =>
      simp only [Reader.Current,hhead,htail]
      exact hroom
    | compare head =>
      simp only [Reader.Current,hhead,htail] at h ⊢
      exact ⟨h.1,hroom⟩
    | load tail =>
      simp only [Reader.Current,hhead,htail] at h ⊢
      exact ⟨h.1,hroom⟩
    | next b =>
      simp only [Reader.Current,hhead,htail] at h ⊢
      exact ⟨h.1.trans (hbuffer h.2).symm,hroom⟩
    | store b tail =>
      simp only [Reader.Current,hhead,htail] at h ⊢
      exact ⟨h.1.trans (hbuffer h.2.2).symm,h.2.1,hroom⟩
  · rw [Ring.put,if_neg hroom]
    exact h

/-- An interrupt keeps the invariant. -/
theorem Inv.put (h : Inv s) (c : UInt8) : Inv (s.put c) := by
  refine ⟨?_,Current.put h.current⟩
  unfold Session.put Session.taken
  dsimp only
  by_cases hacc : Accepts s.keyboard
  · rw [if_pos hacc,kbufPut_accepted hacc,h.bytes,Session.taken,List.append_assoc]
  · rw [if_neg hacc,kbufPut_refused hacc]
    exact h.bytes

/-- The oldest byte, and the queue after it. -/
theorem queue_cons (hne : r.head≠r.tail) (tail : Fin kbBufferSize)
    (htail : (tail : ℕ)=(r.tail+1)%kbBufferSize) :
    r.queue=r.buffer r.tail::({ r with tail := tail, tail_lt := tail.isLt } : Ring _ _).queue := by
  cases hq : r.queue with
  | nil => exact absurd (queue_eq_nil_iff.mp hq) hne
  | cons b rest =>
    obtain ⟨r',hget,hrest⟩ := Ring.get_cons hq
    rw [Ring.get,if_pos hne,Option.some.injEq,Prod.mk.injEq] at hget
    rw [←hget.1,←hrest,←hget.2]
    simp only [htail]

/-- An access keeps the invariant. -/
theorem Inv.access (h : Inv s) : Inv s.access := by
  have hbytes := h.bytes
  have hcur := h.current
  unfold Session.taken at hbytes
  unfold Session.access
  cases hreader : s.reader with
  | idle =>
    dsimp only
    split
    next havail =>
      rw [hreader] at hbytes
      refine ⟨hbytes,?_⟩
      unfold keyboardAvail at havail
      split at havail
      next hne => exact hne
      next => simp at havail
    next => exact h
  | test =>
    rw [hreader] at hbytes hcur
    exact ⟨hbytes,hcur,hcur⟩
  | compare head =>
    rw [hreader] at hbytes hcur
    dsimp only
    rw [if_pos hcur.1]
    exact ⟨hbytes,hcur.2⟩
  | byte =>
    rw [hreader] at hbytes hcur
    exact ⟨hbytes,rfl,hcur⟩
  | load tail =>
    rw [hreader] at hbytes hcur
    exact ⟨hbytes,congrArg s.keyboard.ring.buffer hcur.1,hcur.2⟩
  | next c =>
    rw [hreader] at hbytes hcur
    exact ⟨hbytes,hcur.1,rfl,hcur.2⟩
  | store c tail =>
    rw [hreader] at hbytes hcur
    refine ⟨?_,trivial⟩
    -- the byte goes from the buffer into the hand
    rw [hbytes,queue_cons hcur.2.2 tail hcur.2.1,←hcur.1]
    simp [Session.taken,Reader.inHand,setTail]
  | leave c =>
    rw [hreader] at hbytes
    refine ⟨?_,trivial⟩
    simpa [Session.taken,Reader.inHand] using hbytes
  | waits =>
    rw [hreader] at hcur
    exact hcur.elim

/-- Every event keeps the invariant. -/
theorem Inv.step (h : Inv s) (event : Event) : Inv (step s event) := by
  cases event with
  | put c => exact h.put c
  | access => exact h.access

/-- Every run keeps the invariant. -/
theorem Inv.stays (h : Inv s) (events : List Event) : Inv (run s events) := by
  induction events generalizing s with
  | nil => exact h
  | cons event events ih => exact ih (h.step event)

/-- The invariant holds at the start. -/
theorem Starts.inv (h : Starts s) : Inv s := by
  refine ⟨?_,?_⟩
  · rw [Session.taken,h.2.1,h.2.2.1,h.2.2.2,queue_eq_nil_iff.mpr h.1]
    rfl
  · rw [h.2.1]
    trivial

/-- Accesses that are left until the buffer is empty and no call is running, at most. -/
def Session.left (s : Session) : ℕ :=
  8*s.keyboard.ring.queue.length+
  match s.reader with
  | .idle => 7
  | .test => 6
  | .compare _ => 5
  | .byte => 4
  | .load _ => 3
  | .next _ => 2
  | .store _ _ => 1
  | .leave _ => 8
  | .waits => 0

/-- An access brings the reader on, until the buffer is empty. -/
theorem access_left (h : Inv s) (hmore : 7<s.left) : s.access.left<s.left := by
  have hcur := h.current
  unfold Session.left at hmore ⊢
  unfold Session.access
  cases hreader : s.reader with
  | idle =>
    rw [hreader] at hmore
    have hne : s.keyboard.ring.head≠s.keyboard.ring.tail := by
      intro heq
      rw [queue_eq_nil_iff.mpr heq] at hmore
      simp at hmore
    have havail : keyboardAvail s.keyboard=1 := if_pos hne
    simp only [if_pos havail]
    omega
  | compare head =>
    rw [hreader] at hcur
    simp only [if_pos hcur.1]
    omega
  | store c tail =>
    rw [hreader] at hcur
    have hq := congrArg List.length (queue_cons hcur.2.2 tail hcur.2.1)
    rw [List.length_cons] at hq
    simp only [setTail]
    omega
  | waits =>
    rw [hreader] at hcur
    exact hcur.elim
  | test | byte | load | next | leave =>
    dsimp only
    omega

/-- Without interrupts the reader returns all that was accepted. -/
theorem Inv.drains (h : Inv s) :
    ∃ n, (run s (List.replicate n .access)).returned=s.accepted := by
  induction hleft : s.left using Nat.strong_induction_on generalizing s with
  | _ left ih =>
    by_cases hmore : 7<s.left
    · obtain ⟨n,hn⟩ := ih s.access.left (hleft ▸ access_left h hmore) h.access rfl
      have hacc : s.access.accepted=s.accepted := by
        unfold Session.access
        split <;> (try split) <;> rfl
      exact ⟨n+1,hn.trans hacc⟩
    · refine ⟨0,?_⟩
      have hbytes := h.bytes
      have hcur := h.current
      unfold Session.left at hmore
      have hq : s.keyboard.ring.queue=[] := List.length_eq_zero_iff.mp (by omega)
      unfold Session.taken at hbytes
      rw [hq,List.append_nil] at hbytes
      cases hreader : s.reader with
      | leave c =>
        rw [hreader] at hmore
        simp at hmore
      | _ =>
        rw [hreader,Reader.inHand,List.append_nil] at hbytes
        · exact hbytes.symm
        all_goals simp

/-- The queue loses and repeats nothing. In every run the indices stay inside the buffer, a
call that was started while the buffer was not empty does not wait, what calls have
returned is the beginning of what was accepted, the rest is returned when the reader goes
on, and a byte is refused if and only if 255 accepted bytes have not been taken. -/
theorem keyboardQueue_fifo (hs : Starts s) (events : List Event) :
    (run s events).keyboard.ring.head≤255 ∧ (run s events).keyboard.ring.tail≤255 ∧
    (run s events).reader≠.waits ∧
    (run s events).returned<+:(run s events).accepted ∧
    (∃ n, (run (run s events) (List.replicate n .access)).returned=(run s events).accepted) ∧
    ∀ c, kbufPut c (run s events).keyboard=(run s events).keyboard ↔
      (run s events).accepted.length=(run s events).taken.length+255 := by
  have hinv := hs.inv.stays events
  generalize run s events=t at hinv ⊢
  have hbytes := hinv.bytes
  have hle := queue_le t.keyboard.ring
  refine ⟨Nat.le_of_lt_succ t.keyboard.ring.head_lt,Nat.le_of_lt_succ t.keyboard.ring.tail_lt,
    ?_,?_,hinv.drains,fun c => ?_⟩
  · intro hwaits
    have hcur := hinv.current
    rw [hwaits] at hcur
    exact hcur
  · rw [hbytes,Session.taken,List.append_assoc]
    exact List.prefix_append _ _
  · rw [kbufPut_eq_iff,accepts_iff,hbytes,List.length_append]
    omega

/-- The driver at boot. -/
def boot : Session :=
  ⟨⟨⟨fun _ => 0,0,0,by decide,by decide⟩,⟨0,false,false⟩,0,0⟩,.idle,false,[],[]⟩

/-- The interrupt comes between the load of a byte and the store of `kb_tail`. -/
theorem boot_fifo : (run boot [.put 97,.access,.access,.access,.access,.access,.put 98]).returned<+:
    (run boot [.put 97,.access,.access,.access,.access,.access,.put 98]).accepted :=
  (keyboardQueue_fifo (s:=boot) ⟨rfl,rfl,rfl,rfl⟩ _).2.2.2.1

end OvsbMk.KeyQueue
