import OvsbMk.RingBuffer
import Mathlib.Tactic.NormNum

/-!
# Keyboard and key codes

The keyboard driver turns scancodes into bytes of a ring buffer: a character, or for an
extended key an escape sequence from a table. The terminal library reads the bytes back
and turns them into key codes, with a table of its own.
-/

namespace OvsbMk.KeyInput

open RingBuffer

/-- Size of the ring buffer. -/
abbrev kbBufferSize : ℕ := 256

/-- Keys that are held, and whether the next scancode is an extended one. -/
structure Modifiers where
  /-- Shift; two for the right Alt key. -/
  shiftPressed : ℕ
  /-- Control. -/
  ctrlPressed : Bool
  /-- The next scancode is an extended one. -/
  extFlag : Bool

/-- State of the driver. -/
structure Keyboard where
  /-- The ring buffer. -/
  ring : Ring UInt8 kbBufferSize
  /-- Keys that are held. -/
  mods : Modifiers
  /-- Scancode of the key that may repeat. -/
  lastMakeSc : UInt8
  /-- Its character. -/
  lastRepeatChar : UInt8

/-- Characters without Shift, up to the last one that is not zero. -/
def normChars : List UInt8 :=
  [0,27,49,50,51,52,53,54,55,56,57,48,45,61,8,9,113,119,101,114,116,121,117,105,111,112,91,93,
    10,0,97,115,100,102,103,104,106,107,108,59,39,96,0,92,122,120,99,118,98,110,109,44,46,47,0,
    42,0,32]

/-- Characters with Shift, up to the last one that is not zero. -/
def shfChars : List UInt8 :=
  [0,27,33,64,35,36,37,94,38,42,40,41,95,43,8,9,81,87,69,82,84,89,85,73,79,80,123,125,10,0,65,
    83,68,70,71,72,74,75,76,58,34,126,0,124,90,88,67,86,66,78,77,60,62,63,0,42,0,32]

/-- Entries of both tables; those that are not listed are zero. -/
abbrev normSize : ℕ := 121

/-- The table of extended keys: scancodes and sequences. -/
def ext : List (UInt8×List UInt8) :=
  [(0x48,[0x1B,0x5B,0x41]),(0x50,[0x1B,0x5B,0x42]),(0x4B,[0x1B,0x5B,0x44]),
    (0x4D,[0x1B,0x5B,0x43]),(0x47,[0x1B,0x5B,0x48]),(0x4F,[0x1B,0x5B,0x46]),
    (0x49,[0x1B,0x5B,0x35,0x7E]),(0x51,[0x1B,0x5B,0x36,0x7E]),(0x52,[0x1B,0x5B,0x32,0x7E]),
    (0x53,[0x1B,0x5B,0x33,0x7E]),(0x3B,[0x1B,0x4F,0x50]),(0x3C,[0x1B,0x4F,0x51]),
    (0x3D,[0x1B,0x4F,0x52]),(0x3E,[0x1B,0x4F,0x53]),(0x3F,[0x1B,0x5B,0x31,0x35,0x7E]),
    (0x40,[0x1B,0x5B,0x31,0x37,0x7E]),(0x41,[0x1B,0x5B,0x31,0x38,0x7E]),
    (0x42,[0x1B,0x5B,0x31,0x39,0x7E]),(0x43,[0x1B,0x5B,0x32,0x30,0x7E]),
    (0x44,[0x1B,0x5B,0x32,0x31,0x7E]),(0x57,[0x1B,0x5B,0x32,0x33,0x7E]),
    (0x58,[0x1B,0x5B,0x32,0x34,0x7E])]

/-- Put a byte into the ring buffer unless it is full. -/
def kbufPut (c : UInt8) (k : Keyboard) : Keyboard := { k with ring := k.ring.put c }

/-- Put a sequence into the ring buffer. -/
def kbufPutSeq : List UInt8 → Keyboard → Keyboard
  | [], k => k
  | c::rest, k => kbufPutSeq rest (kbufPut c k)

/-- The character of a scancode. -/
def scancodeToAscii (mods : Modifiers) (sc : UInt8) : UInt8 :=
  if normSize ≤ sc.toNat then 0
  else if mods.shiftPressed≠0 then shfChars.getD sc.toNat 0
  else normChars.getD sc.toNat 0

/-- The character of a scancode with Control. -/
def character (mods : Modifiers) (sc : UInt8) : UInt8 :=
  let c := scancodeToAscii mods sc
  let c := if mods.ctrlPressed ∧ 97≤c ∧ c≤122 then c-97+1 else c
  if mods.ctrlPressed ∧ 65≤c ∧ c≤90 then c-65+1 else c

/-- An extended scancode. -/
def handleExtended (sc : UInt8) (k : Keyboard) : ℤ×Keyboard :=
  match ext.find? fun e => e.1==sc with
  | some e => (1,kbufPutSeq e.2 k)
  | none =>
    if sc=0x1D then (1,{ k with mods := { k.mods with ctrlPressed := true } })
    else if sc=0x9D then (1,{ k with mods := { k.mods with ctrlPressed := false } })
    else if sc=0x38 then (1,{ k with mods := { k.mods with shiftPressed := 2 } })
    else if sc=0xB8 then (1,{ k with mods := { k.mods with shiftPressed := 0 } })
    else if sc=0x35 then (1,kbufPut 0x2F k)
    else (0,k)

/-- A scancode. -/
def processScancode (sc : UInt8) (k : Keyboard) : ℤ×Keyboard :=
  if sc=0xE0 then (1,{ k with mods := { k.mods with extFlag := true } })
  else if sc=0xE1 then (1,{ k with mods := { k.mods with extFlag := true } })
  else if k.mods.extFlag then
    handleExtended sc { k with mods := { k.mods with extFlag := false } }
  else if sc=0x2A ∨ sc=0x36 then (1,{ k with mods := { k.mods with shiftPressed := 1 } })
  else if sc=0xAA ∨ sc=0xB6 then (1,{ k with mods := { k.mods with shiftPressed := 0 } })
  else if sc=0x1D then (1,{ k with mods := { k.mods with ctrlPressed := true } })
  else if sc=0x9D then (1,{ k with mods := { k.mods with ctrlPressed := false } })
  else if sc=0x38 then (1,{ k with mods := { k.mods with shiftPressed := 1 } })
  else if sc=0xB8 then (1,{ k with mods := { k.mods with shiftPressed := 0 } })
  else if 0x80 ≤ sc then
    if sc-0x80=k.lastMakeSc then (1,{ k with lastMakeSc := 0, lastRepeatChar := 0 }) else (1,k)
  else if sc.toNat<normSize ∧ character k.mods sc≠0 then
    (1,{ kbufPut (character k.mods sc) k with
      lastMakeSc := sc, lastRepeatChar := character k.mods sc })
  else (0,k)

/-- Take a byte; without one the caller goes on waiting. -/
def keyboardRead (k : Keyboard) : Option (UInt8×Keyboard) :=
  match k.ring.get with
  | none => none
  | some (c,ring) => some (c,{ k with ring := ring, lastMakeSc := 0, lastRepeatChar := 0 })

/-- Read one character: the system call waits until there is one. -/
def getchar (k : Keyboard) : Option (UInt8×Keyboard) := keyboardRead k

/-- The rest of an escape sequence, up to its last character or seven in all; none if
the input ends before. -/
def escapeLoop : ℕ → List UInt8 → Keyboard → Option (List UInt8)×Keyboard
  | 0, seq, k => (some seq,k)
  | rounds+1, seq, k =>
    match getchar k with
    | none => (none,k)
    | some (c,k) =>
      if 0x40≤c ∧ c≤0x7E then (some (seq++[c]),k) else escapeLoop rounds (seq++[c]) k

/-- The key code of an escape sequence. -/
def sequenceCode (seq : List UInt8) : ℕ :=
  let at_ := fun i => seq.getD i 0
  if seq.length=3 ∧ at_ 1=0x5B ∧ 0x41≤at_ 2 ∧ at_ 2≤0x44 then 300+((at_ 2).toNat-0x41)
  else if seq.length=3 ∧ at_ 1=0x5B ∧ at_ 2=0x48 then 304
  else if seq.length=3 ∧ at_ 1=0x5B ∧ at_ 2=0x46 then 305
  else if seq.length=3 ∧ at_ 1=0x4F ∧ 0x41≤at_ 2 ∧ at_ 2≤0x44 then 300+((at_ 2).toNat-0x41)
  else if seq.length=3 ∧ at_ 1=0x4F ∧ at_ 2=0x48 then 304
  else if seq.length=3 ∧ at_ 1=0x4F ∧ at_ 2=0x46 then 305
  else if seq.length=3 ∧ at_ 1=0x4F ∧ 0x50≤at_ 2 ∧ at_ 2≤0x53 then 310+((at_ 2).toNat-0x50)
  else if 4 ≤ seq.length ∧ at_ 1=0x5B ∧ at_ 2=0x32 ∧ at_ 3=0x7E then 308
  else if 4 ≤ seq.length ∧ at_ 1=0x5B ∧ at_ 2=0x33 ∧ at_ 3=0x7E then 309
  else if 4 ≤ seq.length ∧ at_ 1=0x5B ∧ at_ 2=0x35 ∧ at_ 3=0x7E then 306
  else if 4 ≤ seq.length ∧ at_ 1=0x5B ∧ at_ 2=0x36 ∧ at_ 3=0x7E then 307
  else if 5 ≤ seq.length ∧ at_ 1=0x5B ∧ at_ 2=0x31 ∧ at_ 3=0x35 ∧ at_ 4=0x7E then 314
  else if 5 ≤ seq.length ∧ at_ 1=0x5B ∧ at_ 2=0x31 ∧ at_ 3=0x37 ∧ at_ 4=0x7E then 315
  else if 5 ≤ seq.length ∧ at_ 1=0x5B ∧ at_ 2=0x31 ∧ at_ 3=0x38 ∧ at_ 4=0x7E then 316
  else if 5 ≤ seq.length ∧ at_ 1=0x5B ∧ at_ 2=0x31 ∧ at_ 3=0x39 ∧ at_ 4=0x7E then 317
  else if 5 ≤ seq.length ∧ at_ 1=0x5B ∧ at_ 2=0x32 ∧ at_ 3=0x30 ∧ at_ 4=0x7E then 318
  else 27

/-- The key code after an escape character. -/
def tuiParseEscape (k : Keyboard) : Option (ℕ×Keyboard) :=
  match getchar k with
  | none => none
  | some (c,k) =>
    if c≠0x5B ∧ c≠0x4F then some (27,k)
    else
      match escapeLoop 5 [0x1B,c] k with
      | (none,k) => some (27,k)
      | (some seq,k) => some (sequenceCode seq,k)

/-- Read a key code; none while it waits for more input. -/
def tuiGetch (k : Keyboard) : Option (ℕ×Keyboard) :=
  match getchar k with
  | none => none
  | some (c,k) => if c≠0x1B then some (c.toNat,k) else tuiParseEscape k

end OvsbMk.KeyInput
