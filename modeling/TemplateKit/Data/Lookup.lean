import TemplateKit.Data.Node

/-!
# Finding nodes by name

A name is followed component by component. Every link on the way, the last one included, is resolved
from the root by the name that it holds. Resolution of nested links is bounded by the number of
links, which is enough unless they form a cycle; a cycle resolves to nothing.
-/

namespace TemplateKit

/-- A node and where it stands. -/
structure Located where
  address : Address
  node : Node

namespace Node

/-- Follows the components one by one; a link is replaced by what it leads to. -/
def walk (follow : Bytes → Option Located) : Located → List Bytes → Option Located
  | here, [] => some here
  | here, c :: rest =>
    match here.node.child? c with
    | none => none
    | some child =>
      if child.isLink then
        match follow child.target with
        | none => none
        | some there => walk follow there rest
      else walk follow ⟨here.address ++ [c], child⟩ rest

/-- The node that a name stands for from the root. The fuel counts the links in a row. -/
def resolve (root : Node) : (fuel : Nat) → Bytes → Option Located
  | 0, _ => none
  | fuel + 1, name =>
    match components name with
    | [] => some ⟨[], root⟩
    | c :: rest =>
      if root.isLink then
        (resolve root fuel root.target).bind fun there => walk (resolve root fuel) there (c :: rest)
      else walk (resolve root fuel) ⟨[], root⟩ (c :: rest)

/-- The node that a name leads to from the node at `start`. The empty name leads to that node
itself, even if it is a link. -/
def locate? (root : Node) (start : Address) (name : Bytes) : Option Located :=
  (root.get? start).bind fun n =>
    let follow := resolve root (root.linkCount + 1)
    match components name with
    | [] => some ⟨start, n⟩
    | c :: rest =>
      if n.isLink then (follow n.target).bind fun there => walk follow there (c :: rest)
      else walk follow ⟨start, n⟩ (c :: rest)

def find? (root : Node) (name : Bytes) : Option Node := (root.locate? [] name).map (·.node)

def valueAt? (root : Node) (start : Address) (name : Bytes) : Option Bytes :=
  (root.locate? start name).bind (·.node.value)

def value? (root : Node) (name : Bytes) : Option Bytes := root.valueAt? [] name

/-- The integer that a name has; the default stands for a missing value and for one without digits.
-/
def intAt (root : Node) (start : Address) (name : Bytes) (default : Int32) : Int32 :=
  match root.valueAt? start name with
  | none => default
  | some text => ((Numeral.read? false text).map (·.1.toInt32)).getD default

def int (root : Node) (name : Bytes) (default : Int32) : Int32 := root.intAt [] name default

def longestLinkChain : Nat := 100

/-- The value of a node; a link has the value of the node that it leads to. -/
def linkedValue (root : Node) : (hops : Nat) → Node → Option Bytes
  | 0, n => n.value
  | hops + 1, n =>
    if n.isLink then
      match root.locate? [] n.target with
      | some there => linkedValue root hops there.node
      | none => none
    else n.value

def valueOf (root n : Node) : Option Bytes := root.linkedValue longestLinkChain n

/-- Where the children of the node at an address are: at the node itself, or where its link leads.
-/
def childrenOf (root : Node) (here : Located) : Option Located :=
  if here.node.isLink then root.locate? [] here.node.target else some here

/-- The address of the child at a place, counted from zero; a link has those of its target. -/
def nthChild? (root : Node) (start : Address) (k : Nat) : Option Address := do
  let n ← root.get? start
  let there ← root.childrenOf ⟨start, n⟩
  let child ← there.node.children[k]?
  pure (there.address ++ [child.name])

/-- The node that stands behind another one in its level. -/
def next? (root : Node) (start : Address) : Option Node := do
  let name ← start.getLast?
  let parent ← root.get? start.dropLast
  (parent.children.dropWhile (·.name != name))[1]?

end Node

end TemplateKit
