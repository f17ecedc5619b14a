import OvsbMk.LabelledRuns

/-!
# The mouse driver

Bytes of the device make up packets of three, and callers ask for the position or for the motion
since they last asked. Whatever is asked between the bytes, all motion is reported, once, modulo
the size of an `int`.
-/

namespace OvsbMk.Mouse

open LabelledRuns

/-- What the bytes of the device change. -/
structure Device where
  /-- `mouse_x`. -/
  x : Int32
  /-- `mouse_y`. -/
  y : Int32
  /-- `mouse_buttons`. -/
  buttons : UInt8
  /-- `mouse_cycle`. -/
  cycle : Fin 3
  /-- `mouse_packet`. -/
  packet : Fin 3 → UInt8

/-- The driver. -/
structure Driver where
  /-- The position, the buttons and the packet. -/
  device : Device
  /-- `last_reported_x`. -/
  lastReportedX : Int32
  /-- `last_reported_y`. -/
  lastReportedY : Int32

/-- A byte of a packet with the bit of its sign. -/
def signed (d flags bit : UInt8) : Int32 :=
  if flags&&&bit≠0 then Int32.ofNat d.toNat-256 else Int32.ofNat d.toNat

/-- `mouse_process_byte`. -/
def mouseProcessByte (d : UInt8) (m : Device) : Device :=
  match m.cycle with
  | 0 =>
    if d&&&0x08=0 then m else { m with packet := Function.update m.packet 0 d, cycle := 1 }
  | 1 => { m with packet := Function.update m.packet 1 d, cycle := 2 }
  | 2 =>
    let packet := Function.update m.packet 2 d
    let dx := signed (packet 1) (packet 0) 0x10
    let dy := signed (packet 2) (packet 0) 0x20
    { x := if dx≠0 ∨ dy≠0 then m.x+dx else m.x
      y := if dx≠0 ∨ dy≠0 then m.y-dy else m.y
      buttons := packet 0&&&0x07
      cycle := 0
      packet := packet }

/-- The calls. -/
inductive Call where
  /-- `mouse_process_byte`. -/
  | processByte (d : UInt8)
  /-- `mouse_get_x`. -/
  | getX
  /-- `mouse_get_y`. -/
  | getY
  /-- `mouse_get_buttons`. -/
  | getButtons
  /-- `mouse_get_dx`. -/
  | getDx
  /-- `mouse_get_dy`. -/
  | getDy
  /-- `mouse_has_moved`. -/
  | hasMoved
  deriving DecidableEq

/-- What a call returns and leaves. -/
def Call.perform (m : Driver) : Call → Int32×Driver
  | .processByte d => (0,{ m with device := mouseProcessByte d m.device })
  | .getX => (m.device.x,m)
  | .getY => (m.device.y,m)
  | .getButtons => (Int32.ofNat m.device.buttons.toNat,m)
  | .getDx => (m.device.x-m.lastReportedX,{ m with lastReportedX := m.device.x })
  | .getDy => (m.device.y-m.lastReportedY,{ m with lastReportedY := m.device.y })
  | .hasMoved =>
    (if m.device.x≠m.lastReportedX ∨ m.device.y≠m.lastReportedY then 1 else 0,m)

/-- A call with what it returns. -/
def Performs (m : Driver) (l : Call×Int32) (m' : Driver) : Prop := l.1.perform m=(l.2,m')

/-- The byte that a call brings. -/
def Call.byte : Call → List UInt8
  | .processByte d => [d]
  | _ => []

/-- The bytes of a run. -/
def bytes (labels : List (Call×Int32)) : List UInt8 := labels.flatMap fun l => l.1.byte

/-- What the calls of a kind have returned, added up. -/
def returned (c : Call) (labels : List (Call×Int32)) : Int32 :=
  ((labels.filter fun l => l.1=c).map Prod.snd).sum

/-- A motion as the device reports it: two signed numbers of nine bits, three buttons and two
bits for overflow. -/
structure Motion where
  /-- To the right. -/
  dx : ℤ
  /-- Upwards. -/
  dy : ℤ
  /-- The buttons. -/
  buttons : Fin 8
  /-- The overflow bits. -/
  overflow : Fin 4
  /-- The first number has nine bits. -/
  dx_range : -256≤dx ∧ dx<256
  /-- The second number has nine bits. -/
  dy_range : -256≤dy ∧ dy<256

/-- A first byte, from the buttons, the overflow bits and the two signs. -/
def flagByte (buttons : Fin 8) (overflow : Fin 4) (left down : Bool) : UInt8 :=
  UInt8.ofNat (buttons+8+(if left then 16 else 0)+(if down then 32 else 0)+64*overflow)

/-- The first byte of a motion. -/
def Motion.flags (v : Motion) : UInt8 :=
  flagByte v.buttons v.overflow (decide (v.dx<0)) (decide (v.dy<0))

/-- What the device sends. -/
inductive Sent where
  /-- A byte that cannot be the first one of a packet. -/
  | noise (d : UInt8) (clear : d&&&0x08=0)
  /-- A packet. -/
  | motion (v : Motion)

/-- The bytes that are sent. -/
def Sent.bytes : Sent → List UInt8
  | .noise d _ => [d]
  | .motion v => [v.flags,UInt8.ofNat (v.dx%256).toNat,UInt8.ofNat (v.dy%256).toNat]

/-- How far to the right. -/
def Sent.dx : Sent → ℤ
  | .noise _ _ => 0
  | .motion v => v.dx

/-- How far upwards. -/
def Sent.dy : Sent → ℤ
  | .noise _ _ => 0
  | .motion v => v.dy

/-- The buttons after something was sent. -/
def Sent.buttons (before : UInt8) : Sent → UInt8
  | .noise _ _ => before
  | .motion v => UInt8.ofNat v.buttons

variable {m m' : Driver} {e : Device} {l : Call×Int32} {labels : List (Call×Int32)} {s : Sent}

/-- Some bytes, one after the other. -/
def feed (bytes : List UInt8) (e : Device) : Device :=
  bytes.foldl (fun e d => mouseProcessByte d e) e

/-- The driver at the start. -/
def started : Driver := ⟨⟨512,384,0,0,fun _ => 0⟩,512,384⟩

end OvsbMk.Mouse
