import TemplateKit.Container.HashTable
import TemplateKit.Data.Tree

/-!
# Trees with an index for each level

Large levels are not searched from the front. Every node remembers the child that was set last, with
the one in front of it, and its last child; a level that has grown wide keeps a table of its names.
A child is referred to by a handle, which no other child of the same node ever has. Assignment tries
what was remembered, then the table, then a search; reading tries the table, then a search; removal
only searches.

## Implementation notes

Handles stand for references from the index to children. The children themselves are a list, as in
a tree without an index, and `plain` forgets the rest.
-/

namespace TemplateKit

/-- What a child is referred to by: numbers in the order in which a node got its children. -/
abbrev Handle := Nat

/-- What a node remembers about its children. -/
structure LevelIndex where
  next : Handle
  last : Option Handle
  /-- The child that was found last, and the one that stood in front of it. -/
  recent : Option Handle
  beforeRecent : Option Handle
  table : Option (HashTable Bytes Handle)

def LevelIndex.empty : LevelIndex := ⟨0, none, none, none, none⟩

/-- A node with its handle in the parent and the index of its own children. -/
structure IndexedNode where
  handle : Handle
  name : Bytes
  value : Option Bytes
  isLink : Bool
  attributes : List Attribute
  children : List IndexedNode
  index : LevelIndex

namespace IndexedNode

def fresh (handle : Handle) (name : Bytes) : IndexedNode :=
  ⟨handle, name, none, false, [], [], .empty⟩

def root : IndexedNode := fresh 0 []

mutual

/-- The tree without handles and indices. -/
def plain (n : IndexedNode) : Node :=
  match n with
  | ⟨_, name, value, isLink, attributes, children, _⟩ =>
    ⟨name, value, isLink, attributes, plains children⟩

/-- The nodes of one level without handles and indices. -/
def plains (ns : List IndexedNode) : List Node :=
  match ns with
  | [] => []
  | n :: rest => n.plain :: plains rest

end

def scan (n : IndexedNode) (name : Bytes) : Option IndexedNode := n.children.find? (·.name == name)

def deref (n : IndexedNode) (h : Handle) : Option IndexedNode := n.children.find? (·.handle == h)

/-- Puts another node in the place of the child with a handle. -/
def update (n : IndexedNode) (h : Handle) (new : IndexedNode) : IndexedNode :=
  { n with children := go n.children }
where
  go : List IndexedNode → List IndexedNode
    | [] => []
    | c :: rest => if c.handle == h then new :: rest else c :: go rest

def after (h : Handle) : List IndexedNode → Option Handle
  | [] => none
  | c :: rest => if c.handle == h then rest.head?.map (·.handle) else after h rest

def upTo (h : Handle) : List IndexedNode → List IndexedNode
  | [] => []
  | c :: rest => if c.handle == h then [c] else c :: upTo h rest

/-- What a search for a name ends with: the child, if there is one, and the last child passed
before. -/
structure Finding where
  found : Option Handle
  before : Option Handle

/-- Searches from the front; `before` stands in front of the first child. -/
def search (name : Bytes) : (before : Option Handle) → List IndexedNode → Finding
  | before, [] => ⟨none, before⟩
  | before, c :: rest =>
    if c.name == name then ⟨some c.handle, before⟩ else search name (some c.handle) rest

/-- The handle of a child, from the table where there is one. -/
def lookup (n : IndexedNode) (name : Bytes) : Option Handle :=
  match n.index.table with
  | some table => table.lookup name
  | none => (search name none n.children).found

/-- The remembered child, if it still stands behind the same one and has this name. -/
def remembered? (n : IndexedNode) (name : Bytes) : Option Handle :=
  match n.index.recent with
  | none => none
  | some h =>
    let stands := match n.index.beforeRecent with
      | none => n.children.head?.map (·.handle) == some h
      | some before => after before n.children == some h
    if stands && (n.deref h).any (·.name == name) then some h else none

/-- Where the table is used, the place for a new child is behind the last one. -/
def seek (n : IndexedNode) (name : Bytes) : Finding :=
  match n.index.table with
  | some table => ⟨table.lookup name, n.index.last⟩
  | none => search name none n.children

/-- The child that an assignment finds under a name, and the node with what it remembers then. -/
def lookupToSet (n : IndexedNode) (name : Bytes) : Finding × IndexedNode :=
  match n.remembered? name with
  | some h => (⟨some h, none⟩, n)
  | none =>
    let finding := n.seek name
    match finding.found with
    | some h => (finding,
        { n with index := { n.index with recent := some h, beforeRecent := finding.before } })
    | none => (finding, n)

/-- A level gets a table when a child is added behind more children than this. -/
def widest : Nat := 10

def tableOf (children : List IndexedNode) : HashTable Bytes Handle :=
  children.foldl (fun table c => table.insert c.name c.handle) (.empty .text)

/-- Adds a child behind `before`. Children that stood behind it are gone; a level that is wide
already gets its table now. -/
def attach (n : IndexedNode) (before : Option Handle) (child : IndexedNode) : IndexedNode :=
  let front := match before with
    | some h => upTo h n.children
    | none => []
  let children := front ++ [child]
  let table := match n.index.table with
    | some table => some (table.insert child.name child.handle)
    | none => if n.children.length > widest then some (tableOf children) else none
  let index := { n.index with next := n.index.next + 1, last := some child.handle, table }
  { n with children, index }

/-- The node with what is assigned. Its children and their index stay. -/
def assign (n : IndexedNode) (a : Assignment) : IndexedNode :=
  { n with
    value := a.value
    isLink := a.isLink
    attributes := Attribute.merge n.attributes a.attributes }

/-- How an assignment ended. The node comes back beside it, since it may remember something. -/
inductive Outcome where
  | done (address : Address)
  | refused
  | redirected (name : Bytes)

/-- The same end, seen from the parent of the node. -/
def Outcome.under (c : Bytes) : Outcome → Outcome
  | done address => done (c :: address)
  | refused => refused
  | redirected name => redirected name

def target (n : IndexedNode) : Bytes := n.value.getD []

/-- Assigns to the node that the components lead to. The nodes on the way remember the child that
was taken, even if the assignment is refused or redirected after it. -/
def put (a : Assignment) : List Bytes → IndexedNode → IndexedNode × Outcome
  | [], n => (n.assign a, .done [])
  | c :: rest, n =>
    if c.isEmpty then (n, .refused)
    else
      match n.lookupToSet c with
      | (⟨some h, _⟩, n) =>
        match n.deref h with
        | none => (n, .refused)
        | some child =>
          if child.isLink && !rest.isEmpty then
            (n, .redirected (child.target ++ dot :: Bytes.join [dot] rest))
          else
            let (child, outcome) := put a rest child
            (n.update h child, outcome.under c)
      | (⟨none, before⟩, n) =>
        let (child, outcome) := put a rest (fresh n.index.next c)
        (n.attach before child, outcome.under c)

def get? : IndexedNode → Address → Option IndexedNode
  | n, [] => some n
  | n, c :: rest => (n.scan c).bind (·.get? rest)

/-- Changes the node at an address, if it is there. -/
def modify : IndexedNode → Address → (IndexedNode → IndexedNode) → IndexedNode
  | n, [], f => f n
  | n, c :: rest, f =>
    match n.scan c with
    | some child => n.update child.handle (child.modify rest f)
    | none => n

/-- Assigns from a node, again from the root after every link. The fuel counts the links. -/
def assignFrom (a : Assignment) : (fuel : Nat) → (root : IndexedNode) → (start : Address) →
    (name : Bytes) →
      IndexedNode × Except DataFault Address
  | 0, root, _, name => (root, .error (.missingNode (some name)))
  | fuel + 1, root, start, name =>
    match root.get? start with
    | none => (root, .error (.missingNode (some name)))
    | some n =>
      let path := components name
      if path.head? = some [] then (root, .error (.emptyComponent name))
      else if n.isLink && !path.isEmpty then assignFrom a fuel root [] (n.target ++ dot :: name)
      else
        let (new, outcome) := put a path n
        let root := root.modify start fun _ => new
        match outcome with
        | .done address => (root, .ok (start ++ address))
        | .refused => (root, .error (.emptyComponent name))
        | .redirected name => assignFrom a fuel root [] name

def assignAt (root : IndexedNode) (start : Address) (name : Bytes) (a : Assignment) :
    IndexedNode × Except DataFault Address :=
  assignFrom a (Nat.pow 2 (name.length + root.plain.linkText + 1)) root start name

/-- A node and where it stands. -/
structure Located where
  address : Address
  node : IndexedNode

/-- Follows the components one by one; a link is replaced by what it leads to. -/
def walk (follow : Bytes → Option Located) : Located → List Bytes → Option Located
  | here, [] => some here
  | here, c :: rest =>
    match (here.node.lookup c).bind here.node.deref with
    | none => none
    | some child =>
      if child.isLink then
        match follow child.target with
        | none => none
        | some there => walk follow there rest
      else walk follow ⟨here.address ++ [c], child⟩ rest

/-- Follows one or more components; nothing is looked up below a node without children. -/
def descend (follow : Bytes → Option Located) (here : Located) (path : List Bytes) :
    Option Located :=
  if here.node.children.isEmpty then none else walk follow here path

/-- The node that a name stands for from the root. The fuel counts the links in a row. -/
def resolve (root : IndexedNode) : (fuel : Nat) → Bytes → Option Located
  | 0, _ => none
  | fuel + 1, name =>
    match components name with
    | [] => some ⟨[], root⟩
    | c :: rest =>
      if root.isLink then
        (resolve root fuel root.target).bind fun there =>
          descend (resolve root fuel) there (c :: rest)
      else descend (resolve root fuel) ⟨[], root⟩ (c :: rest)

/-- The node that a name stands for from another one. -/
def locate? (root : IndexedNode) (start : Address) (name : Bytes) : Option Located :=
  (root.get? start).bind fun n =>
    let follow := resolve root (root.plain.linkCount + 1)
    match components name with
    | [] => some ⟨start, n⟩
    | c :: rest =>
      if n.isLink then (follow n.target).bind fun there => descend follow there (c :: rest)
      else descend follow ⟨start, n⟩ (c :: rest)

def valueAt? (root : IndexedNode) (start : Address) (name : Bytes) : Option Bytes :=
  (root.locate? start name).bind (·.node.value)

def value? (root : IndexedNode) (name : Bytes) : Option Bytes := root.valueAt? [] name

/-- The address of a node, which is made without a value if it is missing. -/
def ensureAt (root : IndexedNode) (start : Address) (name : Bytes) :
    IndexedNode × Except DataFault Address :=
  match root.locate? start name with
  | some there => (root, .ok there.address)
  | none => root.assignAt start name { value := none }

/-- The address of a node that a block is opened for; it keeps its value and gets attributes. -/
def openAt (root : IndexedNode) (start : Address) (name : Bytes) (attributes : List Attribute) :
    IndexedNode × Except DataFault Address :=
  match root.locate? start name with
  | some there =>
    (root.modify there.address (·.assign { value := there.node.value, attributes }),
      .ok there.address)
  | none => root.assignAt start name { value := none, attributes }

/-- Sets or removes an attribute of a node that is there. -/
def setAttributeAt (root : IndexedNode) (start : Address) (name key : Bytes)
    (value : Option Bytes) :
    IndexedNode × Except DataFault Unit :=
  match root.locate? start name with
  | none => (root, .error .attributeOfMissingNode)
  | some there =>
    (root.modify there.address fun n =>
      { n with attributes := Attribute.set n.attributes key value }, .ok ())

/-- Removes a child. What was remembered is forgotten, and the child in front becomes the last one
where the last one was removed. -/
def detach (n : IndexedNode) (name : Bytes) : IndexedNode :=
  let finding := search name none n.children
  match finding.found with
  | none => n
  | some h =>
    { n with
      children := n.children.eraseP (·.handle == h)
      index :=
        { n.index with
          last := if finding.before.isSome && n.index.last == some h then finding.before
            else n.index.last
          recent := none
          beforeRecent := none
          table := n.index.table.map fun table => (table.remove name).2 } }

/-- Removes the node that the components lead to. Links are not followed. -/
def remove : List Bytes → IndexedNode → IndexedNode
  | [], n => n
  | [c], n => n.detach c
  | c :: rest, n =>
    match n.scan c with
    | some child => n.update child.handle (remove rest child)
    | none => n

def removeAt (root : IndexedNode) (start : Address) (name : Bytes) : IndexedNode :=
  root.modify start (remove (name.splitByte dot))

/-- Sorts the children of a node. The last one is remembered anew, the others are not. -/
def sortWith (root : IndexedNode) (start : Address) (le : Node → Node → Bool) : IndexedNode :=
  root.modify start fun n =>
    if n.children.isEmpty then n
    else
      let children := n.children.mergeSort fun a b => le a.plain b.plain
      { n with children, index := { n.index with last := children.getLast?.map (·.handle) } }

instance : DataTree IndexedNode where
  empty := root
  plain := plain
  valueAt? := valueAt?
  assignAt := assignAt
  ensureAt := ensureAt
  openAt := openAt
  setAttributeAt := setAttributeAt
  removeAt := removeAt
  sortWith := sortWith

end IndexedNode

end TemplateKit
