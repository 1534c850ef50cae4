import TemplateKit.Failure

/-!
# Data trees

A node has a value, attributes and ordered children with distinct names. A link is a node whose
value is the name of another place in the tree. An address lists the names that lead from the root
to a node.
-/

namespace TemplateKit

/-- A key with a value beside a node; none is not the same as an empty value. -/
structure Attribute where
  key : Bytes
  value : Option Bytes
deriving DecidableEq, Repr

/-- The root is the node with the empty name; every other name is non-empty and has no dot. -/
structure Node where
  name : Bytes
  value : Option Bytes
  isLink : Bool
  attributes : List Attribute
  children : List Node
deriving Repr

/-- The names of the nodes on the way from the root, the root without. -/
abbrev Address := List Bytes

def Address.nowhere : Address := [[]]

namespace Attribute

/-- Gives the attribute with this key its new value. -/
def replace (a : Attribute) (old : List Attribute) : List Attribute :=
  match old with
  | [] => []
  | b :: rest => if b.key == a.key then ⟨b.key, a.value⟩ :: rest else b :: replace a rest

def hasKey (attrs : List Attribute) (key : Bytes) : Bool := attrs.any (·.key == key)

def put (old : List Attribute) (a : Attribute) : List Attribute :=
  if hasKey old a.key then a.replace old else old ++ [a]

/-- Adds new attributes to old ones. When the first new key is unknown it is the only one added. -/
def merge (old new : List Attribute) : List Attribute :=
  match old, new with
  | [], new => new
  | old, [] => old
  | old, a :: more => if hasKey old a.key then (a :: more).foldl put old else old ++ [a]

def set (attrs : List Attribute) (key : Bytes) : Option Bytes → List Attribute
  | some value => put attrs ⟨key, some value⟩
  | none => attrs.eraseP (·.key == key)

end Attribute

namespace Node

def empty (name : Bytes) : Node := ⟨name, none, false, [], []⟩

def root : Node := empty []

def name? (n : Node) : Option Bytes := if n.name.isEmpty then none else some n.name

def child? (n : Node) (name : Bytes) : Option Node := n.children.find? (·.name == name)

def get? : Node → Address → Option Node
  | n, [] => some n
  | n, c :: rest => (n.child? c).bind (·.get? rest)

/-- Changes the first child with a name. -/
def modifyChild (n : Node) (name : Bytes) (f : Node → Node) : Node :=
  { n with children := go n.children }
where
  go : List Node → List Node
    | [] => []
    | c :: rest => if c.name == name then f c :: rest else c :: go rest

def modify : Node → Address → (Node → Node) → Node
  | n, [], f => f n
  | n, c :: rest, f => n.modifyChild c (·.modify rest f)

def append (n child : Node) : Node := { n with children := n.children ++ [child] }

def eraseChild (n : Node) (name : Bytes) : Node :=
  { n with children := n.children.eraseP (·.name == name) }

/-- Where the link at `n` points; a link without a value points to the root. -/
def target (n : Node) : Bytes := n.value.getD []

mutual

def linkCount (n : Node) : Nat :=
  match n with
  | ⟨_, _, isLink, _, children⟩ => (if isLink then 1 else 0) + linkCounts children

/-- The links in trees. -/
def linkCounts (ns : List Node) : Nat :=
  match ns with
  | [] => 0
  | n :: rest => n.linkCount + linkCounts rest

end

mutual

/-- How long the targets of all links of a tree are together, with a mark for each. -/
def linkText (n : Node) : Nat :=
  match n with
  | ⟨_, value, isLink, _, children⟩ =>
    (if isLink then (value.getD []).length + 1 else 0) + linkTexts children

/-- How long the targets of all links of trees are together. -/
def linkTexts (ns : List Node) : Nat :=
  match ns with
  | [] => 0
  | n :: rest => n.linkText + linkTexts rest

end

end Node

def dot : UInt8 := '.'

def components (name : Bytes) : List Bytes :=
  if name.isEmpty then [] else name.splitByte dot

end TemplateKit
