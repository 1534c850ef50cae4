import TemplateKit.Data.Lookup

/-!
# Changing trees

Setting a name creates the nodes on its way, each after its siblings. A link in the middle of a name
sends the assignment to the place that it names; a link at the end is overwritten. A name with an
empty component is refused, but the nodes in front of that component stay.
-/

namespace TemplateKit

/-- Why a tree could not be changed. -/
inductive DataFault where
  | missingNode (name : Option Bytes)
  | emptyComponent (name : Bytes)
  | attributeOfMissingNode
  | missingSource (name : Option Bytes)
  | noEquals (text : Bytes)
deriving DecidableEq

namespace DataFault

def kind : DataFault → Kind
  | missingSource _ => .notFound
  | _ => .assertion

/-- The text of the fault. -/
def message : DataFault → Bytes
  | missingNode name => "Unable to set " ++ orNull name ++ " on NULL hdf"
  | emptyComponent name => "Unable to set Empty component " ++ name
  | attributeOfMissingNode => "Unable to set attribute on non-existent node"
  | missingSource name => "Unable to find " ++ orNull name
  | noEquals text => "No equals found: " ++ text

def failure (f : DataFault) : Failure := .raise f.kind f.message

end DataFault

/-- Changes a tree below a node that may be missing. -/
def orMissing {τ α : Type} (root : τ) (start : Option Address) (name : Option Bytes)
    (change : Address → Bytes → τ × Except DataFault α) : τ × Except DataFault α :=
  match start with
  | some start => change start (name.getD [])
  | none => (root, .error (.missingNode name))

/-- What a node is given. Attributes are merged with those it has. -/
structure Assignment where
  value : Option Bytes
  isLink : Bool := false
  attributes : List Attribute := []

/-- How an assignment below a node ended, with the node as it is then. -/
inductive Placement where
  | done (node : Node) (address : Address)
  | refused (node : Node)
  /-- A link is in the way: the whole name is to be set from the root instead. -/
  | redirected (name : Bytes)

namespace Placement

/-- The same end, seen from the parent of the node. -/
def under (c : Bytes) (embed : Node → Node) : Placement → Placement
  | done node address => done (embed node) (c :: address)
  | refused node => refused (embed node)
  | redirected name => redirected name

end Placement

namespace Node

/-- The node with what is assigned. Its children stay. -/
def assign (n : Node) (a : Assignment) : Node :=
  { n with
    value := a.value
    isLink := a.isLink
    attributes := Attribute.merge n.attributes a.attributes }

/-- Assigns to the node that the components lead to and makes those that are missing, each behind
the children that are there. A link on the way redirects. -/
def put (a : Assignment) : List Bytes → Node → Placement
  | [], n => .done (n.assign a) []
  | c :: rest, n =>
    if c.isEmpty then .refused n
    else
      match n.child? c with
      | some child =>
        if child.isLink && !rest.isEmpty then
          .redirected (child.target ++ dot :: Bytes.join [dot] rest)
        else (put a rest child).under c fun new => n.modifyChild c fun _ => new
      | none => (put a rest (empty c)).under c n.append

/-- Assigns to a name below the node at `start`; `fuel` bounds how often a link redirects. -/
def assignFrom (root : Node) (a : Assignment) :
    (fuel : Nat) → (start : Address) → (name : Bytes) → Node × Except DataFault Address
  | 0, _, name => (root, .error (.missingNode (some name)))
  | fuel + 1, start, name =>
    match root.get? start with
    | none => (root, .error (.missingNode (some name)))
    | some n =>
      let path := components name
      if path.head? = some [] then (root, .error (.emptyComponent name))
      else if n.isLink && !path.isEmpty then assignFrom root a fuel [] (n.target ++ dot :: name)
      else
        match put a path n with
        | .done new address => (root.modify start fun _ => new, .ok (start ++ address))
        | .refused new => (root.modify start fun _ => new, .error (.emptyComponent name))
        | .redirected name => assignFrom root a fuel [] name

def assignAt (root : Node) (start : Address) (name : Bytes) (a : Assignment) :
    Node × Except DataFault Address :=
  root.assignFrom a (Nat.pow 2 (name.length + root.linkText + 1)) start name

def assignTo (root : Node) (start : Option Address) (name : Option Bytes) (a : Assignment) :
    Node × Except DataFault Address :=
  orMissing root start name fun start name => root.assignAt start name a

def set (root : Node) (name : Bytes) (value : Option Bytes) : Node × Except DataFault Address :=
  root.assignAt [] name { value }

/-- Assigns one after the other, up to the first that fails. -/
def assignAll (start : Option Address) : List (Bytes × Bytes) → Node → Node × Except DataFault Unit
  | [], root => (root, .ok ())
  | (name, value) :: more, root =>
    match root.assignTo start (some name) { value := some value } with
    | (root, .ok _) => assignAll start more root
    | (root, .error e) => (root, .error e)

def assignEach (start : Option Address) (settings : List (Bytes × Bytes)) (root : Node) : Node :=
  settings.foldl (fun root p => (root.assignTo start (some p.1) { value := some p.2 }).1) root

/-- The address of a node, which is made without a value if it is missing. -/
def ensureAt (root : Node) (start : Address) (name : Bytes) : Node × Except DataFault Address :=
  match root.locate? start name with
  | some there => (root, .ok there.address)
  | none => root.assignAt start name { value := none }

/-- Opens the node with a name for more to be set below it: a node that exists keeps its value and
gets the attributes, and a missing one is made without a value. -/
def openAt (root : Node) (start : Address) (name : Bytes) (attributes : List Attribute) :
    Node × Except DataFault Address :=
  match root.locate? start name with
  | some there =>
    (root.modify there.address (·.assign { value := there.node.value, attributes }),
      .ok there.address)
  | none => root.assignAt start name { value := none, attributes }

/-- Sets or removes an attribute of a node that is there. -/
def setAttributeAt (root : Node) (start : Address) (name key : Bytes) (value : Option Bytes) :
    Node × Except DataFault Unit :=
  match root.locate? start name with
  | none => (root, .error .attributeOfMissingNode)
  | some there =>
    (root.modify there.address fun n =>
      { n with attributes := Attribute.set n.attributes key value }, .ok ())

/-- Removes the node that the components lead to, with all below it. Links are not followed. -/
def remove : List Bytes → Node → Node
  | [], n => n
  | [c], n => n.eraseChild c
  | c :: rest, n => n.modifyChild c (remove rest)

def removeAt (root : Node) (start : Address) (name : Bytes) : Node :=
  root.modify start (remove (name.splitByte dot))

end Node

end TemplateKit
