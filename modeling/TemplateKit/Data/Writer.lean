import TemplateKit.Bytes.Quoted
import TemplateKit.Data.Node
import TemplateKit.Random

/-!
# Writing trees as text

A node with a value is one line, `name = value` or `name : target`; a value with line breaks follows
its name up to a terminator line that the value itself does not contain. Children come after their
parent, under dotted names or in braces, plain or indented.
-/

namespace TemplateKit

/-- How a tree is written: full names, or blocks without or with indentation. -/
inductive Layout where
  | dotted
  | compact
  | pretty
deriving DecidableEq, Repr

namespace Layout

def deepest : Nat := 127

def indent (layout : Layout) (level : Nat) : Bytes :=
  if layout = .pretty then List.replicate (2 * min level deepest) 32 else []

end Layout

namespace Attribute

/-- An attribute; the value 1 is left out. -/
def write (a : Attribute) : Bytes :=
  match a.value with
  | none => a.key
  | some v => if v == "1" then a.key else a.key ++ "=" ++ Quoted.encode v

def writeList : List Attribute → Bytes
  | [] => []
  | attrs => " [" ++ Bytes.join ", " (attrs.map write) ++ "] "

end Attribute

/-- A terminator of multi-line values, without the newlines around it. -/
abbrev Terminator := Bytes

namespace Terminator

def initial : Terminator := "EOM"

def newline : UInt8 := 10

/-- Would a reader find the terminator inside the value, or at its end? -/
def clashes (t : Terminator) (value : Bytes) : Bool :=
  let line := newline :: t
  Bytes.contains (line ++ [newline]) value ||
    (t.length + 2 < value.length && value.drop (value.length - line.length) == line)

def draw (r : Random) : Terminator × Random :=
  let (extra, r) := r.below 5
  Random.letters Random.capital (2 + extra).toNat r

/-- Draws until a terminator is free of clashes; `fuel` bounds the number of draws. -/
def choose (value : Bytes) : (fuel : Nat) → Terminator → Random → Terminator × Random
  | 0, t, r => (t, r)
  | fuel + 1, t, r =>
    if clashes t value then
      let (t, r) := draw r
      choose value fuel t r
    else (t, r)

def draws : Nat := 0x100000000

end Terminator

namespace Node

/-- The value of a node behind its name, with the terminator that its level goes on with. -/
def writeValue (value : Bytes) (isLink : Bool) (t : Terminator) (r : Random) :
    Bytes × Terminator × Random :=
  let newline := Terminator.newline
  if value.elem newline then
    let (t, r) := t.choose value Terminator.draws r
    let gap := if value.getLast? = some newline then [] else [newline]
    (" << " ++ t ++ newline :: value ++ gap ++ t ++ [newline], t, r)
  else (ascii (if isLink then " : " else " = ") ++ value ++ [newline], t, r)

/-- The line of a node, none without a value. -/
def writeLine (lead : Bytes) (n : Node) (t : Terminator) (r : Random) :
    Bytes × Terminator × Random :=
  match n.value with
  | none => ([], t, r)
  | some value =>
    let (text, t, r) := writeValue value n.isLink t r
    (lead ++ Attribute.writeList n.attributes ++ text, t, r)

/-- The name with those above it in front. -/
def fullName (path : Option Bytes) (name : Bytes) : Bytes :=
  match path with
  | some p => p ++ dot :: name
  | none => name

mutual

/-- Writes what is below a node; `path` leads the names in dotted layout. -/
def writeBelow (layout : Layout) (level : Nat) (path : Option Bytes) (n : Node) (r : Random) :
    Bytes × Random :=
  match n with
  | ⟨_, _, _, _, children⟩ => writeAll layout level path children Terminator.initial r

/-- The lines of nodes and of what is below them. -/
def writeAll (layout : Layout) (level : Nat) (path : Option Bytes) (ns : List Node) (t : Terminator)
    (r : Random) : Bytes × Random :=
  match ns with
  | [] => ([], r)
  | n :: rest =>
    let indent := layout.indent level
    let full := fullName path n.name
    let dotted := layout = .dotted
    let (line, t, r) := n.writeLine (if dotted then full else indent ++ n.name) t r
    let (below, r) :=
      if n.children.isEmpty then ([], r)
      else if dotted then writeBelow layout (level + 1) (some full) n r
      else
        let (text, r) := writeBelow layout (level + 1) (some n.name) n r
        (indent ++ n.name ++ " \x7b\n" ++ text ++ indent ++ "\x7d\n", r)
    let (more, r) := writeAll layout level path rest t r
    (line ++ below ++ more, r)

end

def write (layout : Layout) (path : Option Bytes) (n : Node) (r : Random) : Bytes × Random :=
  writeBelow layout 0 path n r

end Node

end TemplateKit
