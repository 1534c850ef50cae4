import TemplateKit.Bytes.Basic

/-!
# Wildcard patterns

A pattern is a list of parts. A question mark stands for any byte, a star for any text, a bracketed
list for one of its members, a backslash for the byte behind it, and any other byte for itself.

## Implementation notes

A pattern is cut into parts first, and a comparison goes through the parts. Its verdict tells a text
that is used up from one that differs, so that a star does not try every place behind it.
-/

namespace TemplateKit

/-- The bytes from one to another, in the order that a comparison uses. -/
structure GlobRange where
  low : UInt8
  high : UInt8
deriving DecidableEq, Repr

/-- One part of a pattern. -/
inductive GlobPart where
  | byte (b : UInt8)
  | any
  | star
  | oneOf (negated : Bool) (members : List GlobRange)
deriving DecidableEq, Repr

namespace Glob

/-- The members of a list up to the closing bracket, and what follows it. `last` is the byte that a
range would start with. -/
def members : (last : UInt8) → Bytes → List GlobRange × Bytes
  | _, [] => ([], [])
  | last, [b] => if b == ']' then ([], []) else ([⟨if b == '-' then last else b, b⟩], [])
  | last, b :: c :: rest =>
    if b == ']' then ([], c :: rest)
    else if b == '-' && c != ']' then
      let (ms, rest) := members c rest
      (⟨last, c⟩ :: ms, rest)
    else
      let (ms, rest) := members b (c :: rest)
      (⟨b, b⟩ :: ms, rest)

/-- The list behind an opening bracket, and what follows it. A bracket or a minus sign that comes
first is a member. -/
def list (s : Bytes) : GlobPart × Bytes :=
  let negated := s.head? = some '^'.toUInt8
  let s := if negated then s.drop 1 else s
  match s with
  | b :: rest =>
    if b == ']' || b == '-' then
      let (ms, rest) := members b rest
      (.oneOf negated (⟨b, b⟩ :: ms), rest)
    else
      let (ms, rest) := members '[' s
      (.oneOf negated ms, rest)
  | [] => (.oneOf negated [], [])

/-- The parts of a pattern. A backslash at the end stands for a zero byte, which no text has. The
fuel is the length of the pattern, since a list in brackets takes up more than one byte. -/
def parts : (fuel : Nat) → Bytes → List GlobPart
  | 0, _ => []
  | _ + 1, [] => []
  | fuel + 1, b :: s =>
    if b == '\\' then .byte (s.headD 0) :: parts fuel (s.drop 1)
    else if b == '?' then .any :: parts fuel s
    else if b == '*' then .star :: parts fuel s
    else if b == '[' then
      let (part, rest) := list s
      part :: parts fuel rest
    else .byte b :: parts fuel s

def parse (s : Bytes) : List GlobPart := parts (s.length + 1) s

/-- What bytes are compared by: the signed value, or without regard to case the upper case value,
with the highest byte below all others. -/
def key (ignoreCase : Bool) (b : UInt8) : Int :=
  if ignoreCase then (if b == 255 then -1 else (Ascii.toUpper b).toNat)
  else if b < 128 then b.toNat else b.toNat - 256

/-- Does a part match one byte? -/
def matchesByte (ignoreCase : Bool) (b : UInt8) : GlobPart → Bool
  | .byte c => key ignoreCase b == key ignoreCase c
  | .any | .star => true
  | .oneOf negated ms =>
    (ms.any fun m => key ignoreCase m.low ≤ key ignoreCase b &&
      key ignoreCase b ≤ key ignoreCase m.high) !=
      negated

/-- The end of a comparison. Without the third one every star would be tried at every place. -/
inductive Verdict where
  | matched
  | failed
  /-- The text is used up too early, so that no shorter rest of it can match either. -/
  | short
deriving DecidableEq, Repr

/-- The first verdict on the text and its suffixes that is not a failure; at the end the text is
short. -/
def firstVerdict (test : Bytes → Verdict) : Bytes → Verdict
  | [] => .short
  | b :: s =>
    match test (b :: s) with
    | .failed => firstVerdict test s
    | v => v

/-- Matches a text against parts. Only the last star that was reached is tried again, which is
enough: what stands before it has been matched as early as possible. -/
def verdict (ignoreCase : Bool) : List GlobPart → Bytes → Verdict
  | [], [] => .matched
  | [], _ :: _ => .failed
  | .star :: ps, s => if ps.all (· == .star) then .matched
      else firstVerdict (verdict ignoreCase ps) s
  | _ :: _, [] => .short
  | p :: ps, b :: s => if matchesByte ignoreCase b p then verdict ignoreCase ps s else .failed

def isMatch (ignoreCase : Bool) (pattern text : Bytes) : Bool :=
  verdict ignoreCase (parse pattern) text == .matched

end Glob

end TemplateKit
