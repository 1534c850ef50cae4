import TemplateKit.Failure

/-!
# Growing buffers

A buffer holds a text and has room for more. When the room does not suffice it is doubled until it
does, unless the buffer is of a fixed size: then the text is refused.
-/

namespace TemplateKit

/-- A buffer of fixed size has no room for what is written. -/
inductive BufferFault where
  | full (room : Nat)

namespace BufferFault

def message : BufferFault → Bytes
  | full room => "Length exceeds fixed size " ++ Numeral.ofNat room

def failure (e : BufferFault) : Failure := .raise .assertion e.message

end BufferFault

/-- A text that grows at its end. Its room is kept apart from it, since a fixed one can be full. -/
structure Buffer where
  content : Bytes
  /-- How much fits, none before anything was written. -/
  room : Option Nat
  isFixed : Bool
deriving DecidableEq, Repr

namespace Buffer

def empty : Buffer := ⟨[], none, false⟩

def fixed (room : Nat) : Buffer := ⟨[], some room, true⟩

def text? (b : Buffer) : Option Bytes := b.room.map fun _ => b.content

def firstRoom (size : Nat) : Nat := if size * 10 > 256 then size * 10 else 256

/-- The first doubling of `room` above `needed`; `fuel` bounds their number. -/
def doubled (needed : Nat) : (fuel room : Nat) → Nat
  | 0, room => room
  | fuel + 1, room => if needed ≥ room * 2 then doubled needed fuel (room * 2) else room * 2

/-- Makes room for `size` more bytes and the end mark behind them. -/
def reserve (b : Buffer) (size : Nat) : Except BufferFault Buffer :=
  match b.room with
  | none => .ok { b with room := some (firstRoom size) }
  | some room =>
    let needed := b.content.length + size
    if needed < room then .ok b
    else if b.isFixed then .error (.full room)
    else .ok { b with room := some (doubled needed needed room) }

/-- Adds `s` when there is room for `size` bytes; a refusal leaves the buffer alone. -/
def extend (b : Buffer) (s : Bytes) (size : Nat) : Buffer × Except BufferFault Unit :=
  match b.reserve size with
  | .ok b => ({ b with content := b.content ++ s }, .ok ())
  | .error e => (b, .error e)

def append (b : Buffer) (s : Bytes) : Buffer × Except BufferFault Unit := b.extend s s.length

def appendRaw (b : Buffer) (s : Bytes) : Buffer × Except BufferFault Unit :=
  b.extend s (s.length + 1)

def push (b : Buffer) (c : UInt8) : Buffer × Except BufferFault Unit := b.extend [c] 1

def set (b : Buffer) (s : Bytes) : Buffer × Except BufferFault Unit :=
  { b with content := [] }.append s

/-- What one read takes from the input: a line, or as much of it as `size` bytes can hold. -/
def nextChunk : (size : Nat) → Bytes → Bytes × Bytes
  | 0, s => ([], s)
  | _ + 1, [] => ([], [])
  | size + 1, b :: s =>
    if b == 10 then ([b], s)
    else
      let (chunk, rest) := nextChunk size s
      (b :: chunk, rest)

def lineRoom (b : Buffer) : Nat := b.content.length + 256

/-- Reads to the end of a line. The text of the buffer ends at a zero byte whenever it is looked at,
so what was read behind one is lost. -/
def readChunks : (fuel : Nat) → Buffer → Bytes → Buffer × Bytes × Except BufferFault Unit
  | 0, b, input => (b, input, .ok ())
  | fuel + 1, b, input =>
    if input.isEmpty then (b, input, .ok ())
    else
      let (chunk, rest) := nextChunk (b.room.getD 0 - b.content.length - 1) input
      let b := { b with content := Bytes.untilNul (b.content ++ chunk) }
      if b.content.getLast? = some 10 then (b, rest, .ok ())
      else
        match b.reserve b.lineRoom with
        | .ok b => readChunks fuel b rest
        | .error e => (b, rest, .error e)

/-- Appends one line of the input, with its end; the input that is left comes back. -/
def readLine (b : Buffer) (input : Bytes) : Buffer × Bytes × Except BufferFault Unit :=
  match b.reserve b.lineRoom with
  | .ok b => readChunks (input.length + 1) b input
  | .error e => (b, input, .error e)

end Buffer

end TemplateKit
