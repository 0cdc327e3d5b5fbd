import FlowTyping.Text.Basic

/-!
# Control sequences

A terminal reads control sequences between the characters it shows: they begin with an escape or with one
of the controls above ASCII, and end at a byte that depends on their kind. The machine follows a text byte
by byte and tells what becomes of each.

* `State.step` is one step.
* `strip` is a text without its control sequences; single controls stay.
-/

namespace FlowTyping.Terminal

open FlowTyping.Text (Bytes)

/-- Where in a text the machine is. -/
inductive State where
  /-- Between sequences. -/
  | ground
  /-- Inside a character of which this many bytes are to come. -/
  | character (left : Nat)
  /-- After an escape. -/
  | escape
  | escapeMore
  /-- In a control sequence and its parameters. -/
  | control
  | controlMore
  /-- At the front of a string for the device. -/
  | device
  | deviceParams
  | deviceMore
  /-- In the string itself. -/
  | deviceString
  /-- In a command for the operating system. -/
  | command
  /-- In a string of another kind. -/
  | message
  deriving DecidableEq, Repr

/-- What becomes of a byte. -/
inductive Fate where
  /-- It is part of a sequence. -/
  | dropped
  /-- It is a control or part of a character. -/
  | kept
  /-- It is an ASCII character. -/
  | shown
  deriving DecidableEq, Repr

namespace State

/-- Number of bytes of a character after its first one; none of those that start no character. -/
def following (b : UInt8) : Option Nat :=
  if 0xc2 ≤ b && b ≤ 0xdf then some 1
  else if 0xe0 ≤ b && b ≤ 0xef then some 2
  else if 0xf0 ≤ b && b ≤ 0xf4 then some 3
  else none

/-- Whether a byte is a control of ASCII other than the three that end sequences. -/
def isControl (b : UInt8) : Bool := b < 0x20 && b ≠ 0x18 && b ≠ 0x1a && b ≠ 0x1b

/-- The step for bytes that mean the same everywhere. -/
def anywhere (b : UInt8) : State × Fate :=
  match following b with
  | some n => (.character n, .kept)
  | none =>
    if b = 0x1b then (.escape, .dropped)
    else if b = 0x90 then (.device, .dropped)
    else if b = 0x9b then (.control, .dropped)
    else if b = 0x9d then (.command, .dropped)
    else if b = 0x98 || b = 0x9e || b = 0x9f then (.message, .dropped)
    else if b = 0x18 || b = 0x1a || (0x80 ≤ b && b ≤ 0x9f) then (.ground, .kept)
    else (.ground, .dropped)

/-- The step after an escape. -/
def afterEscape (b : UInt8) : State × Fate :=
  if isControl b then (.escape, .kept)
  else if b = 0x7f then (.escape, .dropped)
  else if b < 0x20 || 0x80 ≤ b then anywhere b
  else if b < 0x30 then (.escapeMore, .dropped)
  else if b = 0x50 then (.device, .dropped)
  else if b = 0x5b then (.control, .dropped)
  else if b = 0x5d then (.command, .dropped)
  else if b = 0x58 || b = 0x5e || b = 0x5f then (.message, .dropped)
  else (.ground, .dropped)

/-- The step in a sequence that ends at a letter: `more` is the state after a blank or a mark, `param` the
state after a digit. Controls in between count. -/
def inSequence (here more param : State) (b : UInt8) : State × Fate :=
  if isControl b then (here, .kept)
  else if b = 0x7f then (here, .dropped)
  else if b < 0x20 || 0x80 ≤ b then anywhere b
  else if b < 0x30 then (more, .dropped)
  else if b < 0x40 then (param, .dropped)
  else (.ground, .dropped)

/-- The step at the front of a string for the device, in which controls do not count. -/
def inDevice (here more param : State) (b : UInt8) : State × Fate :=
  if isControl b || b = 0x7f then (here, .dropped)
  else if b < 0x20 || 0x80 ≤ b then anywhere b
  else if b < 0x30 then (more, .dropped)
  else if b < 0x40 then (param, .dropped)
  else (.deviceString, .dropped)

/-- The step in a string. -/
def inString (here : State) (b : UInt8) : State × Fate :=
  if b = 0x1b then (.escape, .dropped)
  else if b = 0x18 || b = 0x1a || b = 0x9c then (.ground, .dropped)
  else (here, .dropped)

/-- One step: the next state, and what becomes of the byte. -/
def step : State → UInt8 → State × Fate
  | .ground, b =>
    if isControl b || b = 0x7f then (.ground, .kept)
    else if 0x20 ≤ b && b < 0x7f then (.ground, .shown)
    else anywhere b
  | .character left, _ => (if left ≤ 1 then .ground else .character (left - 1), .kept)
  | .escape, b => afterEscape b
  | .escapeMore, b => inSequence .escapeMore .escapeMore .ground b
  | .control, b => inSequence .control .controlMore .control b
  | .controlMore, b => inSequence .controlMore .controlMore .ground b
  | .device, b =>
    if (0x08 ≤ b && b ≤ 0x0d) || b = 0x1b then (.deviceString, .dropped)
    else inDevice .device .deviceMore .deviceParams b
  | .deviceParams, b => inDevice .deviceParams .deviceMore .deviceParams b
  | .deviceMore, b => inDevice .deviceMore .deviceMore .deviceString b
  | .deviceString, b => inString .deviceString b
  | .command, b => if b = 0x07 then (.ground, .dropped) else inString .command b
  | .message, b => if b < 0x80 || b = 0x9c then inString .message b else anywhere b

end State

/-- A text without its control sequences. -/
def strip (t : Text) : Text :=
  let (kept, _) := t.bytes.foldl
    (fun ((kept, s) : ByteArray × State) b =>
      let (s, fate) := s.step b
      (if fate = .dropped then kept else kept.push b, s))
    (ByteArray.empty, .ground)
  ⟨kept⟩

end FlowTyping.Terminal
