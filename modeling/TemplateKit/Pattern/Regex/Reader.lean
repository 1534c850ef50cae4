import TemplateKit.Pattern.Regex

/-!
# Reading regular expressions

Letter case is ignored: the expression and the text are both taken in upper case. Only a byte behind
a backslash keeps its case.
-/

namespace TemplateKit.Regex

def mostTimes : Nat := 32767

/-- The named classes of bytes; those of one letter case hold all letters. -/
def classes : List (Bytes × List (UInt8 × UInt8)) :=
  [("alpha", [(65, 90), (97, 122)]), ("upper", [(65, 90), (97, 122)]),
    ("lower", [(65, 90), (97, 122)]), ("digit", [(48, 57)]),
    ("alnum", [(48, 57), (65, 90), (97, 122)]), ("space", [(9, 13), (32, 32)]),
    ("blank", [(9, 9), (32, 32)]), ("punct", [(33, 47), (58, 64), (91, 96), (123, 126)]),
    ("print", [(32, 126)]), ("graph", [(33, 126)]), ("cntrl", [(0, 31), (127, 127)]),
    ("xdigit", [(48, 57), (65, 70), (97, 102)])]

def wordRanges : List (UInt8 × UInt8) := [(48, 57), (65, 90), (95, 95), (97, 122)]

def spaceRanges : List (UInt8 × UInt8) := [(9, 13), (32, 32)]

/-! ## Brackets -/

def longestName : Nat := 31

/-- A name up to a mark and a closing bracket, and what follows. -/
def bracketName? (mark : UInt8) (s : Bytes) : Option (Bytes × Bytes) := do
  let k ← Bytes.find? [mark, ']'.toUInt8] s
  if longestName < k then none else some (s.take k, s.drop (k + 2))

/-- One member of a bracket: a byte that can start a range, or the ranges of a class. -/
inductive Member where
  | byte (b : UInt8)
  | ranges (rs : List (UInt8 × UInt8))

/-- One member of a list in brackets: a class, a name or a byte. -/
def member? : Bytes → Option (Member × Bytes)
  | [] => none
  | 91 :: 58 :: s => do
    let (name, rest) ← bracketName? ':' s
    let (_, rs) ← classes.find? (·.1 == name)
    some (.ranges rs, rest)
  | 91 :: 61 :: s => do
    let (name, rest) ← bracketName? '=' s
    match name with
    | [b] => some (.ranges [(Ascii.toUpper b, Ascii.toUpper b)], rest)
    | _ => none
  | 91 :: 46 :: s => do
    let (name, rest) ← bracketName? '.' s
    match name with
    | [b] => some (.byte (Ascii.toUpper b), rest)
    | _ => none
  | b :: s => some (.byte (Ascii.toUpper b), s)

/-- Does a dash here stand between other members, and not in front of the end? -/
def startsWithInnerDash (s : Bytes) : Bool :=
  s.head? = some '-'.toUInt8 && s[1]? != some ']'.toUInt8

/-- The members of a bracket up to its end, behind those that were read, and what follows. A dash
that is neither first nor last is between the ends of a range. -/
def members? : (fuel : Nat) → (isFirst : Bool) → List (UInt8 × UInt8) → Bytes →
    Option (List (UInt8 × UInt8) × Bytes)
  | 0, _, _, _ => none
  | fuel + 1, isFirst, found, s =>
    if !isFirst && s.head? = some ']'.toUInt8 then some (found, s.drop 1)
    else if !isFirst && startsWithInnerDash s then none
    else
      match member? s with
      | none => none
      | some (.ranges rs, rest) => members? fuel false (rs ++ found) rest
      | some (.byte b, rest) =>
        if startsWithInnerDash rest then
          match member? (rest.drop 1) with
          | some (.byte c, rest) => if c < b then none
              else members? fuel false ((b, c) :: found) rest
          | _ => none
        else members? fuel false ((b, b) :: found) rest

/-- A bracket, from behind its opening; `fuel` bounds its members. -/
def bracket? (fuel : Nat) (s : Bytes) : Option (Regex × Bytes) := do
  let negated := s.head? = some '^'.toUInt8
  let s := if negated then s.drop 1 else s
  let (rs, rest) ← members? fuel true [] s
  some (.bytes ⟨negated, rs⟩, rest)

/-! ## Repetitions -/

/-- A number of times up to a comma or a brace, which may have no digits; anything else is an error.
-/
def count? (sofar : Option Nat) : Bytes → Option (Option Nat × Bytes)
  | 125 :: s => some (sofar, 125 :: s)
  | 44 :: s | 92 :: 44 :: s => some (sofar, 44 :: s)
  | 92 :: 48 :: s => count? (some (min (mostTimes + 1) (sofar.getD 0 * 10))) s
  | b :: s =>
    if Ascii.isDigit b then count? (some (min (mostTimes + 1) (sofar.getD 0 * 10 + (b.toNat - 48))))
      s else none
  | [] => none

/-- How often something is repeated, with what follows; a missing lower bound is zero. -/
def bounds? (s : Bytes) : Option (Nat × Option Nat × Bytes) := do
  match ← count? none s with
  | (low, 44 :: rest) =>
    match ← count? none rest with
    | (high, 125 :: rest) =>
      let least := low.getD 0
      if high.any (· < least) || mostTimes < high.getD least then none else some (least, high, rest)
    | _ => none
  | (some n, rest) => if mostTimes < n then none else some (n, some n, rest.drop 1)
  | (none, _) => none

/-- Applies the repetitions behind an expression. -/
def repeats? : (fuel : Nat) → Regex → Bytes → Option (Regex × Bytes)
  | 0, r, s => some (r, s)
  | fuel + 1, r, s =>
    match s with
    | 42 :: s => repeats? fuel (r.times 0 none) s
    | 43 :: s => repeats? fuel (r.times 1 none) s
    | 63 :: s => repeats? fuel (r.times 0 (some 1)) s
    | 123 :: s =>
      match bounds? s with
      | some (least, most, rest) => repeats? fuel (r.times least most) rest
      | none => none
    | s => some (r, s)

/-! ## Expressions -/

/-- What is known about the groups of an expression while it is read. -/
structure Groups where
  opened : Nat := 0
  /-- Those that are closed and can be referred to. -/
  complete : List Nat := []
  referred : List Nat := []
deriving DecidableEq, Repr

namespace Groups

def most : Nat := 9

def refer (gs : Groups) (n : Nat) : Groups :=
  if gs.referred.elem n then gs else { gs with referred := n :: gs.referred }

def completeAll (gs : Groups) (numbers : List Nat) : Groups :=
  { gs with complete := (gs.complete ++ numbers.filter (· ≤ most)).eraseDups }

end Groups

/-- A group that is being read, or the whole expression. -/
structure Draft where
  number : Nat := 0
  before : List Nat := []
  /-- The groups that its earlier branches completed; they cannot be referred to in another branch.
  -/
  inBranches : List Nat := []
  branches : Option Regex := none
  parts : List Regex := []
deriving DecidableEq, Repr

namespace Draft

def add (d : Draft) (r : Regex) : Draft := if r.isEmpty then d else { d with parts := r :: d.parts }

/-- The expression of what was read, as far as it goes. -/
def finish (d : Draft) : Regex :=
  let branch := concat d.parts.reverse
  match d.branches with
  | none => branch
  | some r => .alt r branch

end Draft

/-- What a backslash and a byte stand for. A constraint cannot be repeated. -/
def escaped (b : UInt8) : Regex :=
  match b with
  | 60 => .anchor .wordStart
  | 62 => .anchor .wordEnd
  | 98 => .alt (.anchor .wordStart) (.anchor .wordEnd)
  | 66 => .alt (.anchor .insideWord) (.anchor .outsideWord)
  | 96 => .anchor .textStart
  | 39 => .anchor .textEnd
  | 119 => .bytes ⟨false, wordRanges⟩
  | 87 => .bytes ⟨true, wordRanges⟩
  | 115 => .bytes ⟨false, spaceRanges⟩
  | 83 => .bytes ⟨true, spaceRanges⟩
  | b => .bytes (.single b)

def isRepeatable : Regex → Bool
  | .bytes _ | .group _ _ | .same _ => true
  | _ => false

/-- A single element that is no group, and what follows it. -/
def element? (fuel : Nat) (gs : Groups) : Bytes → Option (Regex × Groups × Bytes)
  | [] | [92] | 42 :: _ | 43 :: _ | 63 :: _ | 123 :: _ => none
  | 94 :: s => some (.anchor .lineStart, gs, s)
  | 36 :: s => some (.anchor .lineEnd, gs, s)
  | 46 :: s => some (.bytes .nonzero, gs, s)
  | 91 :: s => (bracket? fuel s).map fun (r, s) => (r, gs, s)
  | 92 :: b :: s =>
    if '1' ≤ b && b ≤ '9' then
      let n := b.toNat - 48
      if gs.complete.elem n then some (.same n, gs.refer n, s) else none
    else some (escaped b, gs, s)
  | b :: s => some (.bytes (.single (Ascii.toUpper b)), gs, s)

/-- Reads on in the innermost of some nested drafts; `fuel` bounds the steps. -/
def readOn? : (fuel : Nat) → (outer : List Draft) → Draft → Groups → Bytes → Option (Regex × Groups)
  | 0, _, _, _, _ => none
  | fuel + 1, outer, d, gs, s =>
    match s, outer with
    | [], [] => some (d.finish, gs)
    | [], _ :: _ => none
    | 124 :: s, outer =>
      let done := (gs.completeAll d.inBranches).complete
      readOn? fuel outer { d with inBranches := done, branches := some d.finish, parts := [] }
        { gs with complete := d.before } s
    | 40 :: s, outer =>
      let n := gs.opened + 1
      readOn? fuel (d :: outer) { number := n, before := gs.complete } { gs with opened := n } s
    | 41 :: s, parent :: outer =>
      match repeats? fuel (.group d.number d.finish) s with
      | some (r, s) =>
        readOn? fuel outer (parent.add r) (gs.completeAll (d.number :: d.inBranches)) s
      | none => none
    | s, outer =>
      match element? (fuel + 1) gs s with
      | some (r, gs, s) =>
        if isRepeatable r then
          match repeats? fuel r s with
          | some (r, s) => readOn? fuel outer (d.add r) gs s
          | none => none
        else readOn? fuel outer (d.add r) gs s
      | none => none

def parse? (s : Bytes) : Option (Regex × Groups) := readOn? (s.length + 1) [] {} {} s

end TemplateKit.Regex
