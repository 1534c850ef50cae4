import TemplateKit.Failure

/-!
# Lines of the body of a request

The body arrives in pieces. A line ends with its line end, or where the buffer or a piece ends
before one is seen; a line that a piece has begun behind a line end is completed from the next piece
only.
-/

namespace TemplateKit

/-- What the client sends behind the headers, and how much of it one read can give (zero: any
amount). -/
structure Input where
  rest : Bytes
  most : Nat
deriving DecidableEq, Repr

/-- The next bytes, as many as one reading gives; none for a negative size. -/
def Input.read? (i : Input) (size : Int) : Option (Bytes × Input) :=
  if size < 0 then none
  else
    let n := if i.most = 0 then size.toNat else min i.most size.toNat
    some (i.rest.take n, { i with rest := i.rest.drop n })

/-- Why the body of a request could not be read. -/
inductive RequestFault where
  | shortInput (got : Nat) (expected : Int)
  | unreadable
  | cancelled
  | noContentType
  | unknownEncoding
  | incompleteHandler
deriving DecidableEq, Repr

namespace RequestFault

/-- The kind of failure that a fault is. -/
def kind : RequestFault → Kind
  | shortInput _ _ | unreadable => .io
  | cancelled => .uploadCancelled
  | noContentType | unknownEncoding | incompleteHandler => .assertion

/-- The text of the fault. -/
def message : RequestFault → Bytes
  | shortInput got expected =>
    "Short read on CGI POST input (" ++ Numeral.ofNat got ++ " < " ++ Numeral.ofInt expected ++ ")"
  | unreadable => "POST Read Error: [0] Success"
  | cancelled => "Upload Cancelled"
  | noContentType => "No content type header?"
  | unknownEncoding => "form-data encoding is not supported"
  | incompleteHandler => "method and type must not be NULL to register cb"

def failure (f : RequestFault) : Failure := .raise f.kind f.message

end RequestFault

/-- A body that is read line by line, with the last line that was read. -/
structure LineReader where
  input : Input
  /-- What was read behind the last line end; absent if the last line had none. -/
  pending : Option Bytes
  last : Bytes
  returned : Bool
  expected : Int
  count : Int
  /-- Is reading given up, with so much read out of so much expected? -/
  cancels : Int → Int → Bool

namespace LineReader

/-- Steps of reading; a fault keeps what was read before. -/
abbrev Action := ExceptT RequestFault (StateM LineReader)

def room : Nat := 4096

/-- The first line with its end, and what follows it. -/
def cutLine? : Bytes → Option (Bytes × Bytes)
  | [] => none
  | b :: s => if b == 10 then some ([b], s)
      else (cutLine? s).map fun (line, rest) => (b :: line, rest)

/-- How much is asked for next, when `kept` bytes are in the buffer. -/
def sizeToRead (r : LineReader) (kept : Nat) : Int :=
  let free : Int := room - kept
  if r.expected ≠ 0 ∧ free > r.expected - r.count then r.expected - r.count else free

/-- The next line; nothing at the end of the body, where an unfinished line is lost. -/
def next : Action (Option Bytes) := do
  let r ← get
  if r.returned then
    set { r with returned := false }
    return some r.last
  match r.pending.bind cutLine? with
  | some (line, rest) =>
    set { r with pending := some rest, last := line }
    return some line
  | none =>
    let kept := r.pending.getD []
    match r.input.read? (r.sizeToRead kept.length) with
    | none => throw .unreadable
    | some (piece, input) =>
      if piece.isEmpty then return none
      let r := { r with input, count := r.count + piece.length }
      set r
      if r.cancels r.count r.expected then throw .cancelled
      let held := kept ++ piece
      match cutLine? held with
      | some (line, rest) =>
        set { r with pending := some rest, last := line }
        return some line
      | none =>
        set { r with pending := none, last := held }
        return some held

def giveBack : Action Unit := modify fun r => { r with returned := true }

/-- Begins to count what is read out of what is expected. -/
def start (expected : Int) : Action Unit := do
  modify fun r => { r with expected, count := 0 }
  let r ← get
  if r.cancels r.count r.expected then throw .cancelled

def bound (r : LineReader) : Nat := r.input.rest.length + (r.pending.getD []).length + 2

end LineReader

end TemplateKit
