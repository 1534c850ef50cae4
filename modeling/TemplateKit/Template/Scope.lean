import TemplateKit.Data.Assign

/-!
# Scopes

While a template runs, names are looked up first among the local variables, the innermost first,
then in the data tree and then in a second, global tree. A local variable stands for a node or holds
a text or a number. One that stands for a node that does not exist yet remembers the name of that
node and how many variables were visible where the name was written.

A name is matched to a local variable by its first component only.
-/

namespace TemplateKit

/-- Whether a value was escaped before, or only a part of it. -/
inductive Trust where
  | untrusted
  | trusted
  | mixed
deriving DecidableEq, Repr

namespace Trust

def attributeKey : Bytes := "escape_status"

/-- The trust as it is stored beside a node. -/
def word : Trust → Bytes
  | untrusted => "untrusted"
  | trusted => "trusted"
  | mixed => "mixed"

def ofWord (w : Option Bytes) : Trust :=
  if w = some (ascii "trusted") then trusted else if w = some (ascii "mixed") then mixed
  else untrusted

/-- The trust in two values that are put together. -/
def join : Trust → Trust → Trust
  | trusted, trusted => trusted
  | mixed, mixed => mixed
  | trusted, _ | _, trusted => mixed
  | _, _ => untrusted

end Trust

/-- The trees in which names are looked up. -/
inductive Tree where
  | data
  | globals
deriving DecidableEq, Repr

/-- A node by its tree and address. -/
structure Place where
  tree : Tree
  address : Address
deriving DecidableEq, Repr

/-- What a local variable stands for. -/
inductive Binding where
  /-- A node, or the name it will have and the number of variables visible to that name. -/
  | node (place : Option Place) (name : Bytes) (visible : Nat)
  /-- A text; one that was assigned is given up when a loop goes on. -/
  | text (value : Option Bytes) (trust : Trust) (assigned : Bool)
  | number (n : Int64)

/-- A local variable, and whether it is in the first or last round of its loop. -/
structure Local where
  name : Bytes
  binding : Binding
  isFirst : Bool
  isLast : Bool

/-- What names can refer to while a template runs. The innermost variable comes first. -/
structure Scope where
  data : Node
  globals : Option Node
  locals : List Local
  /-- Whether values keep the trust in them; it is read back only when this is one. -/
  tracking : Int32

def firstComponent (name : Bytes) : Bytes := name.takeWhile (· != dot)

def afterFirst? (name : Bytes) : Option Bytes := (name.cutAt (· == dot)).2

namespace Scope

def tree? (s : Scope) : Tree → Option Node
  | .data => some s.data
  | .globals => s.globals

/-- Replaces one of the trees. -/
def setTree (s : Scope) (t : Tree) (n : Node) : Scope :=
  match t with
  | .data => { s with data := n }
  | .globals => { s with globals := some n }

/-- The position of the variable that a name refers to, among the `visible` outermost ones. -/
def position? (s : Scope) (visible : Nat) (name : Bytes) : Option Nat :=
  let hidden := s.locals.length - visible
  ((s.locals.drop hidden).findIdx? fun l => firstComponent l.name == firstComponent name).map
    (· + hidden)

def local? (s : Scope) (name : Bytes) : Option Local :=
  (s.position? s.locals.length name).bind (s.locals[·]?)

def bindingAt? (s : Scope) (position : Nat) : Option Binding :=
  (s.locals[position]?).map Local.binding

def rebind (s : Scope) (position : Nat) (b : Binding) : Scope :=
  { s with locals := s.locals.modify position fun l => { l with binding := b } }

/-- The node with a name below a node, made if `create` says so. -/
def below (create : Bool) (s : Scope) (p : Place) (name : Bytes) :
    Scope × Except DataFault (Option Place) :=
  match s.tree? p.tree with
  | none => (s, .ok none)
  | some root =>
    if create then
      match root.ensureAt p.address name with
      | (root, .ok address) => (s.setTree p.tree root, .ok (some ⟨p.tree, address⟩))
      | (root, .error e) => (s.setTree p.tree root, .error e)
    else (s, .ok ((root.locate? p.address name).map fun there => ⟨p.tree, there.address⟩))

/-- The node that a name stands for in the trees; only the data tree is extended. -/
def inTrees (create : Bool) (s : Scope) (name : Bytes) : Scope × Except DataFault (Option Place) :=
  match s.data.locate? [] name with
  | some there => (s, .ok (some ⟨.data, there.address⟩))
  | none =>
    if create then s.below true ⟨.data, []⟩ name
    else (s, .ok ((s.globals.bind (·.locate? [] name)).map fun there => ⟨.globals, there.address⟩))

/-- The node that a name refers to when the `visible` outermost variables can be seen. Variables
that had no node and find one keep it. -/
def reach (create : Bool) : (fuel : Nat) → Scope → (visible : Nat) → Bytes →
    Scope × Except DataFault (Option Place)
  | 0, s, _, _ => (s, .ok none)
  | fuel + 1, s, visible, name =>
    if name.isEmpty then (s, .ok none)
    else
      match s.position? visible name with
      | none => s.inTrees create name
      | some k =>
        match s.bindingAt? k with
        | some (.node place target seen) =>
          let (s, found) :=
            match place with
            | some p => (s, Except.ok (some p))
            | none =>
              match reach create fuel s seen target with
              | (s, .ok p) => (s.rebind k (.node p target seen), .ok p)
              | (s, .error e) => (s, .error e)
          match found, afterFirst? name with
          | .error e, _ => (s, .error e)
          | .ok none, _ => (s, .ok none)
          | .ok (some p), none => (s, .ok (some p))
          | .ok (some p), some rest => s.below create p rest
        | _ => s.inTrees create name

/-- The node that a name refers to, if it is there. -/
def findPlace (name : Bytes) : StateM Scope (Option Place) := fun s =>
  match s.reach false (s.locals.length + 1) s.locals.length name with
  | (s, .ok p) => (p, s)
  | (s, .error _) => (none, s)

/-- The node at a place, with the root of its tree. -/
def at? (s : Scope) (p : Place) : Option (Node × Node) := do
  let root ← s.tree? p.tree
  let n ← root.get? p.address
  pure (root, n)

/-- The trust that is stored beside a node, if trust is tracked. -/
def trustIn (s : Scope) (n : Node) : Trust :=
  if s.tracking = 1 then
    match n.attributes.find? (·.key == Trust.attributeKey) with
    | some a => .ofWord a.value
    | none => .untrusted
  else .untrusted

/-- The value of the node at a place, through links, and the trust in it. -/
def valueAt (s : Scope) (p : Option Place) : Option Bytes × Trust :=
  match p.bind s.at? with
  | some (root, n) => (root.valueOf n, s.trustIn n)
  | none => (none, .untrusted)

def valueInTrees (s : Scope) (name : Bytes) : Option Bytes × Trust :=
  let (value, trust) := s.valueAt ((s.data.locate? [] name).map fun there => ⟨.data, there.address⟩)
  (value.or (s.globals.bind (·.value? name)), trust)

/-- The value that a name has, and the trust in it. -/
def value (name : Bytes) : StateM Scope (Option Bytes × Trust) := do
  let s ← get
  match s.position? s.locals.length name with
  | none => return s.valueInTrees name
  | some k =>
    match s.bindingAt? k with
    | some (.text v trust _) => return (v, trust)
    | some (.number n) => return (some (Numeral.ofInt n.toInt), .trusted)
    | some (.node place target seen) =>
      let (s, place) :=
        match place with
        | some p => (s, some p)
        | none =>
          match s.reach false (s.locals.length + 1) seen target with
          | (s, .ok p) => (s.rebind k (.node p target seen), p)
          | (s, .error _) => (s, none)
      set s
      match afterFirst? name with
      | none => return s.valueAt place
      | some rest =>
        match place.map fun p => s.below false p rest with
        | some (_, .ok p) => return s.valueAt p
        | _ => return (none, .untrusted)
    | none => return s.valueInTrees name

/-- The low 32 bits of the integer that a name has, zero without one. -/
def int (name : Bytes) : StateM Scope Int64 := do
  let (v, _) ← value name
  return (v.map fun t => (Numeral.toInt32 t).toInt64).getD 0

/-- Assigns to a node. Its trust is stored before it is known whether the assignment is refused. -/
def assignPlace (s : Scope) (p : Place) (name : Bytes) (owner : Option Bytes) (v : Option Bytes)
    (trust : Trust) : Scope × Except Failure Unit :=
  match s.tree? p.tree with
  | none => (s, .ok ())
  | some root =>
    let root := if s.tracking = 0 then root
      else (root.setAttributeAt p.address [] Trust.attributeKey (some trust.word)).1
    let s := s.setTree p.tree root
    if p.tree = .globals then
      (s, .error (.raise .assertion ("Trying to set sub element '" ++ name ++
        "' of local variable '" ++ orNull owner ++ "' which is in global hdf.")))
    else
      match root.assignAt p.address [] { value := v } with
      | (root, .ok _) => (s.setTree p.tree root, .ok ())
      | (root, .error e) => (s.setTree p.tree root, .error e.failure)

/-- Gives a name a value. A name below a text or a number, or an empty one, is left alone. -/
def assign (s : Scope) (name : Bytes) (v : Option Bytes) (trust : Trust) :
    Scope × Except Failure Unit :=
  let toNode (owner : Option Bytes) : Scope × Except Failure Unit :=
    match s.reach true (s.locals.length + 1) s.locals.length name with
    | (s, .error e) => (s, .error e.failure)
    | (s, .ok none) =>
      (s, .error (.raise .memory ("Unable to allocate memory to create node " ++ name)))
    | (s, .ok (some p)) => s.assignPlace p name owner v trust
  if name.isEmpty then (s, .ok ())
  else
    match s.position? s.locals.length name with
    | none => toNode none
    | some k =>
      match s.locals[k]? with
      | some ⟨owner, .node _ _ _, _, _⟩ => toNode (some owner)
      | _ =>
        if (afterFirst? name).isSome then (s, .ok ())
        else (s.rebind k (.text (some (v.getD [])) trust v.isSome), .ok ())

end Scope

end TemplateKit
