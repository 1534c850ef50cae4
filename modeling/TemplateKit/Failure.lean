import TemplateKit.Bytes.Numeral

/-!
# Failures

A failure has a kind, a message and the notes that callers add on the way out. Messages and notes
are limited to 255 bytes, so that a failure never grows with the input that caused it.
-/

namespace TemplateKit

/-- The kinds of failure. `passed` is the kind of a note, `other` a number that no kind has. -/
inductive Kind where
  | passed
  | assertion
  | notFound
  | duplicate
  | memory
  | parse
  | range
  | system
  | io
  | lock
  | database
  | alreadyExists
  | maxRecursion
  | finished
  | uploadCancelled
  | notHandled
  | other (code : Int)
deriving DecidableEq, Repr

namespace Kind

/-- The kinds that always exist, in the order of their numbers, from one. -/
def standard : List Kind :=
  [.passed, .assertion, .notFound, .duplicate, .memory, .parse, .range, .system, .io, .lock,
    .database, .alreadyExists, .maxRecursion]

def ofRequests : List Kind := [.finished, .uploadCancelled, .notHandled]

/-- The name of the kind in messages. -/
def name : Kind → Bytes
  | passed => "InternalPass"
  | assertion => "AssertError"
  | notFound => "NotFoundError"
  | duplicate => "DuplicateError"
  | memory => "MemoryError"
  | parse => "ParseError"
  | range => "RangeError"
  | system => "SystemError"
  | io => "IOError"
  | lock => "LockError"
  | database => "DBError"
  | alreadyExists => "ExistsError"
  | maxRecursion => "MaxRecursionError"
  | finished => "CGIFinished"
  | uploadCancelled => "CGIUploadCancelled"
  | notHandled => "CGIParseNotHandled"
  | other code => if code = 0 then "Unknown Error" else "Error " ++ Numeral.ofInt code

def ofCode (code : Int) : Kind :=
  if code ≤ 0 then .other code else standard[(code - 1).toNat]?.getD (.other code)

/-- The name that a kind is shown by: a negative number borrows one, counted from the end. -/
def shownName : Kind → Bytes
  | other code =>
    let place := code - 1 + standard.length
    if code < 0 ∧ 0 ≤ place then (standard[place.toNat]?.getD (.other code)).name
    else (Kind.other code).name
  | kind => kind.name

def success : Kind := .other 0

def ofName? (text : Bytes) : Option Kind := (standard ++ ofRequests).find? (·.name == text)

end Kind

def Failure.limit : Nat := 255

/-- What went wrong, with what the callers on the way had to say about it. -/
structure Failure where
  kind : Kind
  message : Bytes
  /-- What callers added, the last one first; an empty note only passes the failure on. -/
  notes : List Bytes
deriving DecidableEq, Repr

namespace Failure

def raise (kind : Kind) (message : Bytes) : Failure := ⟨kind, message.take limit, []⟩

def note (f : Failure) (text : Bytes) : Failure :=
  { f with notes := text.take limit :: f.notes }

def context (f : Failure) : List Bytes := f.notes.filter (!·.isEmpty)

/-- Kind and message in one line; a mere note has none. -/
def summary? (f : Failure) : Option Bytes :=
  if f.kind = .passed then none else some (f.kind.shownName ++ ": " ++ f.message)

def isA (f : Failure) (kind : Kind) : Bool :=
  f.kind == kind || (kind == .passed && !f.notes.isEmpty)

/-- Does an outcome match a kind? Every outcome matches success. -/
def matchesKind (f : Option Failure) (kind : Kind) : Bool := f.any (·.isA kind) || kind == .success

def handle (f : Option Failure) (kind : Kind) : Bool × Option Failure :=
  (matchesKind f kind, if f.any (·.isA kind) then none else f)

end Failure

/-- What the file system refuses. -/
inductive SystemFault where
  | noSuchFile
  | fileExists
  | notDirectory
  | isDirectory
  | invalidArgument
  | nameTooLong
  | notEmpty
deriving DecidableEq, Repr

namespace SystemFault

/-- The number of the fault. -/
def code : SystemFault → Nat
  | noSuchFile => 2
  | fileExists => 17
  | notDirectory => 20
  | isDirectory => 21
  | invalidArgument => 22
  | nameTooLong => 36
  | notEmpty => 39

/-- What the system says about the fault. -/
def text : SystemFault → Bytes
  | noSuchFile => "No such file or directory"
  | fileExists => "File exists"
  | notDirectory => "Not a directory"
  | isDirectory => "Is a directory"
  | invalidArgument => "Invalid argument"
  | nameTooLong => "File name too long"
  | notEmpty => "Directory not empty"

end SystemFault

def Failure.raiseSystem (kind : Kind) (message : Bytes) (cause : SystemFault) : Failure :=
  raise kind (message.take limit ++ ": [" ++ Numeral.ofNat cause.code ++ "] " ++ cause.text)

/-- What stands in a message for a text that is absent. -/
def orNull (text : Option Bytes) : Bytes := text.getD "(null)"

end TemplateKit
