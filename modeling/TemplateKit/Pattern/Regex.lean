import TemplateKit.Bytes.Basic

/-!
# Regular expressions

Extended regular expressions over bytes, with groups that can be referred back to. A constraint asks
something of the place between two bytes at which it stands.
-/

namespace TemplateKit

/-- The bytes in some ranges, or all others. -/
structure ByteSet where
  negated : Bool
  ranges : List (UInt8 × UInt8)
deriving DecidableEq, Repr

namespace ByteSet

def contains (s : ByteSet) (b : UInt8) : Bool :=
  (s.ranges.any fun (lo, hi) => lo ≤ b && b ≤ hi) != s.negated

def single (b : UInt8) : ByteSet := ⟨false, [(b, b)]⟩

def nonzero : ByteSet := ⟨true, [(0, 0)]⟩

end ByteSet

/-- What is known about one side of a place. -/
structure PlaceContext where
  word : Bool := false
  newline : Bool := false
  begins : Bool := false
  ends : Bool := false
deriving DecidableEq, Repr

/-- What is asked of the two sides of a place. -/
structure PlaceConstraint where
  afterWord : Bool := false
  afterOther : Bool := false
  afterNewline : Bool := false
  atStart : Bool := false
  beforeWord : Bool := false
  beforeOther : Bool := false
  beforeNewline : Bool := false
  atEnd : Bool := false
deriving DecidableEq, Repr

namespace PlaceConstraint

/-- What one or the other constraint asks for. -/
def union (c d : PlaceConstraint) : PlaceConstraint where
  afterWord := c.afterWord || d.afterWord
  afterOther := c.afterOther || d.afterOther
  afterNewline := c.afterNewline || d.afterNewline
  atStart := c.atStart || d.atStart
  beforeWord := c.beforeWord || d.beforeWord
  beforeOther := c.beforeOther || d.beforeOther
  beforeNewline := c.beforeNewline || d.beforeNewline
  atEnd := c.atEnd || d.atEnd

/-- Does it hold with that in front of the place? -/
def allowsAfter (c : PlaceConstraint) (front : PlaceContext) : Bool :=
  (!c.afterWord || front.word) && (!c.afterOther || !front.word) &&
  (!c.afterNewline || front.newline) &&
    (!c.atStart || front.begins)

/-- Does it hold with that behind the place? -/
def allowsBefore (c : PlaceConstraint) (behind : PlaceContext) : Bool :=
  (!c.beforeWord || behind.word) && (!c.beforeOther || !behind.word) &&
  (!c.beforeNewline || behind.newline) &&
    (!c.atEnd || behind.ends)

def lineStart : PlaceConstraint := { afterNewline := true }

def lineEnd : PlaceConstraint := { beforeNewline := true }

def textStart : PlaceConstraint := { atStart := true }

def textEnd : PlaceConstraint := { atEnd := true }

def wordStart : PlaceConstraint := { afterOther := true, beforeWord := true }

def wordEnd : PlaceConstraint := { afterWord := true, beforeOther := true }

def insideWord : PlaceConstraint := { afterWord := true, beforeWord := true }

def outsideWord : PlaceConstraint := { afterOther := true, beforeOther := true }

end PlaceConstraint

/-- Expressions as they are read, with repetitions that were not written out. -/
inductive Regex where
  | empty
  | bytes (set : ByteSet)
  | anchor (constraint : PlaceConstraint)
  | seq (a b : Regex)
  | alt (a b : Regex)
  | star (r : Regex)
  | again (r : Regex)
  | copies (n : Nat) (r : Regex)
  | upTo (n : Nat) (r : Regex)
  | group (n : Nat) (r : Regex)
  /-- What a group matched. -/
  | same (n : Nat)
deriving DecidableEq, Repr

namespace Regex

def isEmpty : Regex → Bool
  | empty => true
  | _ => false

def append (a b : Regex) : Regex :=
  if a.isEmpty then b else if b.isEmpty then a else .seq a b

def appendPairs : List Regex → List Regex
  | a :: b :: more => a.append b :: appendPairs more
  | more => more

/-- Expressions one behind the other; `fuel` bounds the rounds, each of which halves their number.
-/
def concatWith : (fuel : Nat) → List Regex → Regex
  | _, [] => .empty
  | _, [r] => r
  | 0, r :: _ => r
  | fuel + 1, parts => concatWith fuel (appendPairs parts)

def concat (parts : List Regex) : Regex := concatWith parts.length parts

/-- Between `least` and `most` times, where no `most` is no bound. -/
def times (r : Regex) (least : Nat) (most : Option Nat) : Regex :=
  if r.isEmpty then .empty
  else
    let needed := if least = 0 then .empty else if least = 1 then r else .copies least r
    let more := if least = 0 then r else .again r
    match most with
    | none => needed.append (.star more)
    | some most => if most ≤ least then needed else needed.append (.upTo (most - least) more)

def isWord (b : UInt8) : Bool := Ascii.isAlnum b || b == '_'

end Regex

namespace PlaceContext

def beside (b : UInt8) : PlaceContext := { word := Regex.isWord b }

def taken (b : UInt8) : PlaceContext := { word := Regex.isWord b, newline := b == 10 }

def textStart : PlaceContext := { newline := true, begins := true }

def textEnd : PlaceContext := { newline := true, ends := true }

end PlaceContext

end TemplateKit
