import OvsbMk.KeySequences
import OvsbMk.ShellCommands

/-!
# From keys to commands

Keyboard interrupts put the bytes of keys into the buffer, at any time, and the main loop of the
kernel takes one byte a round and gives it to the shell. While there is room for every key that
is pressed, the commands that are executed depend on the scancodes only, not on their times. What
commands do is a parameter; none of them reads keys.
-/

namespace OvsbMk.KeyboardShell

open RingBuffer KeyInput KeyPresses KeyQueue KeySequences ShellInput ShellCommands

/-- The keyboard driver, the shell and the commands that were executed. -/
structure Machine where
  /-- The driver. -/
  driver : Driver
  /-- The shell. -/
  shell : Shell
  /-- The commands. -/
  executed : List Command

/-- What happens next, and at what time. -/
inductive Event where
  /-- The keyboard interrupt. -/
  | interrupt (ticks : UInt64) (sc : UInt8)
  /-- A round of the main loop of `kmain`. -/
  | round (ticks : UInt64)

variable (effect : Shell → Shell)

/-- A round of the main loop. -/
def mainRound (ticks : UInt64) (m : Machine) : Machine :=
  if keyboardAvail m.driver.keyboard=1 then
    match readRound ticks m.driver with
    | (some key,d) => ⟨d,shellInput effect m.shell key,m.executed++session effect m.shell [key]⟩
    | (none,d) => { m with driver := d }
  else m

/-- An event. -/
def step (m : Machine) : Event → Machine
  | .interrupt ticks sc => { m with driver := keyboardHandler ticks sc m.driver }
  | .round ticks => mainRound effect ticks m

/-- Events, one after the other. -/
def run (m : Machine) (events : List Event) : Machine := events.foldl (step effect) m

/-- The bytes in the buffer. -/
def Machine.queue (m : Machine) : List UInt8 := m.driver.keyboard.ring.queue

/-- A scancode finds room for all bytes of the key it presses. -/
def Room (m : Machine) : Event → Prop
  | .interrupt _ sc =>
    m.queue.length+(pressedBytes (pressed m.driver.keyboard.mods sc)).length≤255
  | .round _ => True

instance (m : Machine) : (event : Event) → Decidable (Room m event)
  | .interrupt _ _ => inferInstanceAs (Decidable (_≤_))
  | .round _ => isTrue trivial

/-- The bytes of the keys that some scancodes press. -/
def typed : Modifiers → List Event → List UInt8
  | _, [] => []
  | mods, .interrupt _ sc::events =>
    pressedBytes (pressed mods sc)++typed (nextModifiers mods sc) events
  | mods, .round _::events => typed mods events

variable {effect} {m : Machine} {k : Keyboard} {c : UInt8} {rest keys more : List UInt8}
  {events : List Event}

/-- The machine at boot. -/
def boot : Machine := ⟨KeySequences.boot.driver,afterPrompt powerOn [] fun _ => 0,[]⟩

end OvsbMk.KeyboardShell
