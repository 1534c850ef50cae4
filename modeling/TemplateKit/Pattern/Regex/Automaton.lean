import TemplateKit.Pattern.Regex.Reader

/-!
# The automaton of a regular expression

An expression becomes a table of nodes. A node takes in a byte or what a group matched and goes on
to the next node, or it leads to one or two nodes without taking in anything. Nodes are numbered in
the order of the expression, where a choice comes behind what it chooses from.

A constraint is asked of the place at which the next byte is taken in. So what can be reached behind
a constraint without taking in anything is copied, and the copies carry the constraint. A constraint
in front of a node that is a copy already, also one that a repetition has made, asks nothing.
-/

namespace TemplateKit.Regex

/-! ## Groups -/

/-- The groups that stand for others, and the groups that are referred to. -/
structure GroupUse where
  standIns : List (Nat × Nat)
  referred : List Nat

namespace GroupUse

def resolve (u : GroupUse) (n : Nat) : Nat := ((u.standIns.find? (·.1 == n)).map (·.2)).getD n

def absorb (u : GroupUse) (outer inner : Nat) : GroupUse :=
  ⟨(inner, u.resolve outer) :: u.standIns.filter (·.1 != inner), u.referred.filter (· != inner)⟩

def refer (u : GroupUse) (n : Nat) : GroupUse :=
  if u.referred.elem n then u else { u with referred := n :: u.referred }

end GroupUse

/-- Takes a group that holds nothing but a group for both of them. -/
def mergeGroups : Regex → StateM GroupUse Regex
  | .group n (.group m r) => do
    modify (·.absorb n m)
    return .group n (← mergeGroups r)
  | .group n r => return .group n (← mergeGroups r)
  | .same n => do
    let k := (← get).resolve n
    modify (·.refer k)
    return .same k
  | .seq a b => return .seq (← mergeGroups a) (← mergeGroups b)
  | .alt a b => return .alt (← mergeGroups a) (← mergeGroups b)
  | .star r => return .star (← mergeGroups r)
  | .again r => return .again (← mergeGroups r)
  | .copies n r => return .copies n (← mergeGroups r)
  | .upTo n r => return .upTo n (← mergeGroups r)
  | r => return r

/-- Leaves out the groups that nothing refers to, unless they are empty. -/
def dropGroups (referred : List Nat) : Regex → Regex
  | .group n r => if r.isEmpty || referred.elem n then .group n (dropGroups referred r)
      else dropGroups referred r
  | .seq a b => .seq (dropGroups referred a) (dropGroups referred b)
  | .alt a b => .alt (dropGroups referred a) (dropGroups referred b)
  | .star r => .star (dropGroups referred r)
  | .again r => .again (dropGroups referred r)
  | .copies n r => .copies n (dropGroups referred r)
  | .upTo n r => .upTo n (dropGroups referred r)
  | r => r

/-! ## Nodes -/

/-- What a node takes from the text. -/
inductive NodeKind where
  | bytes (set : ByteSet)
  | same (group : Nat)
  | opening (group : Nat)
  | closing (group : Nat)
  | fork
  /-- A match can end here. -/
  | stop
deriving DecidableEq, Repr

/-- A node with where it leads. One that was copied has a constraint from the way to it. -/
structure Node where
  kind : NodeKind
  next : Nat := 0
  branches : List Nat := []
  constraint : PlaceConstraint := {}
  copied : Bool := false
  /-- The node that this one was copied from behind a constraint. -/
  copyOf : Option Nat := none
deriving DecidableEq, Repr

instance : Inhabited Node := ⟨{ kind := .stop }⟩

namespace Node

/-- Is the node passed without a byte? -/
def isSilent (n : Node) : Bool :=
  match n.kind with
  | .opening _ | .closing _ | .fork => true
  | _ => false

/-- Does the node ask for what a group matched? -/
def isSame (n : Node) : Bool :=
  match n.kind with
  | .same _ => true
  | _ => false

def isStop (n : Node) : Bool := n.kind == .stop

/-- Does the node take in a byte, with that said about the place in front of it? -/
def takes (n : Node) (b : UInt8) (behind : PlaceContext) : Bool :=
  match n.kind with
  | .bytes set => set.contains b && n.constraint.allowsBefore behind
  | _ => false

def choose (a b : Nat) (copied : Bool) : Node :=
  { kind := .fork, branches := if a = b then [a] else if a < b then [a, b] else [b, a], copied }

end Node

/-- The number of nodes that an expression is made of. -/
def size : Regex → Nat
  | .empty => 0
  | .bytes _ | .anchor _ | .same _ => 1
  | .seq a b => a.size + b.size
  | .alt a b => a.size + b.size + 1
  | .star r => r.size + 1
  | .again r => r.size
  | .copies n r => n * r.size
  | .upTo n r => n * (r.size + 1)
  | .group _ r => r.size + 2

/-- The node at which an expression is entered, if its nodes are numbered from `base` and it leads
to `next`. -/
def entry (base next : Nat) : Regex → Nat
  | .empty => next
  | .bytes _ | .anchor _ | .same _ | .group _ _ => base
  | .seq a b => entry base (entry (base + a.size) next b) a
  | .alt a b => base + a.size + b.size
  | .star r => base + r.size
  | .again r | .copies _ r => entry base next r
  | .upTo n r => base + n * (r.size + 1) - 1

/-- Puts the nodes of an expression behind others; `copied` tells whether the expression is a copy.
-/
def emit : Regex → (copied : Bool) → (base next : Nat) → Array Node → Array Node
  | .empty, _, _, _, out => out
  | .bytes set, copied, _, next, out => out.push { kind := .bytes set, next, copied }
  | .anchor constraint, copied, _, next,
      out => out.push { kind := .fork, branches := [next], constraint, copied }
  | .same n, copied, _, next, out => out.push { kind := .same n, next, branches := [next], copied }
  | .seq a b, copied, base, next, out =>
    let middle := base + a.size
    emit b copied middle next (emit a copied base (entry middle next b) out)
  | .alt a b, copied, base, next, out =>
    let middle := base + a.size
    (emit b copied middle next (emit a copied base next out)).push
      (.choose (entry base next a) (entry middle next b) copied)
  | .star r, copied, base, next, out =>
    let here := base + r.size
    (emit r copied base here out).push (.choose (entry base here r) next copied)
  | .again r, _, base, next, out => emit r true base next out
  | .copies n r, copied, base, next, out =>
    let width := r.size
    n.fold (fun i _ out =>
      let here := base + i * width
      emit r (copied || i != 0) here (if i + 1 < n then entry (here + width) next r else next) out)
        out
  | .upTo n r, copied, base, next, out =>
    let width := r.size + 1
    n.fold (fun i _ out =>
      let here := base + i * width
      let next := if i + 1 < n then entry (here + width) next r else next
      let inner := if i = 0 then entry here next r else here - 1
      (emit r (copied || i != 0) here next out).push (.choose inner next copied)) out
  | .group n r, copied, base, next, out =>
    let last := base + 1 + r.size
    let out := out.push { kind := .opening n, branches := [entry (base + 1) last r] }
    (emit r copied (base + 1) last out).push { kind := .closing n, branches := [next] }

/-! ## Copies behind constraints -/

/-- A copy of a node that is passed only where the constraint holds as well. -/
def addCopy (nodes : Array Node) (n : Nat) (c : PlaceConstraint) : Nat × Array Node :=
  let node := nodes.getD n default
  (nodes.size, nodes.push
    { kind := node.kind, constraint := c.union node.constraint, copied := true, copyOf := some n })

/-- The last copy of a node that carries a constraint, among the copies at the end of the first
`count` nodes. -/
def findCopy (nodes : Array Node) (n : Nat) (c : PlaceConstraint) : (count : Nat) → Option Nat
  | 0 => none
  | count + 1 =>
    let node := nodes.getD count default
    match node.copyOf with
    | none => none
    | some k => if k == n && node.constraint == c then some count else findCopy nodes n c count

def setBranches (nodes : Array Node) (n : Nat) (branches : List Nat) : Array Node :=
  nodes.modify n fun node => { node with branches }

def setNext (nodes : Array Node) (n next : Nat) : Array Node :=
  nodes.modify n fun node => { node with next }

/-- Gives the copy of a node its branches: copies of those of the node itself, and so on until
something is taken in. `root` is the constraint that all this is behind. -/
def copyBehind (root : Nat) : (fuel : Nat) → (node copy : Nat) → PlaceConstraint →
    Array Node → Array Node
  | 0, _, _, _, nodes => nodes
  | fuel + 1, n, copy, c, nodes =>
    let node := nodes.getD n default
    if node.isSame then
      let (k, nodes) := addCopy nodes node.next c
      copyBehind root fuel node.next k c (setBranches (setNext nodes copy node.next) copy [k])
    else
      match node.branches with
      | [] => setNext nodes copy node.next
      | [d] =>
        if n = root ∧ copy ≠ n then setBranches nodes copy [d]
        else
          let c := c.union node.constraint
          let (k, nodes) := addCopy nodes d c
          copyBehind root fuel d k c (setBranches nodes copy [k])
      | d :: e :: _ =>
        let (k, nodes) :=
          match findCopy nodes d c nodes.size with
          | some k => (k, nodes)
          | none =>
            let (k, nodes) := addCopy nodes d c
            (k, copyBehind root fuel d k c nodes)
        let (l, nodes) := addCopy nodes e c
        copyBehind root fuel e l c (setBranches nodes copy [k, l])

/-- Does a constraint lead to something that is no copy yet? -/
def wantsCopies (nodes : Array Node) (node : Node) : Bool :=
  node.constraint != {} &&
    match node.branches with
    | [] => false
    | d :: _ => !(nodes.getD d default).copied

def copyFuel (nodes : Array Node) : Nat := 16 * (nodes.size + 1) * (nodes.size + 1)

/-- Goes through what can be reached from some nodes without taking in anything, the first branches
first, and makes the copies that are wanted. -/
def copyReached : (fuel : Nat) → (todo : List Nat) → (seen : Array Bool) → Array Node →
    Array Bool × Array Node
  | 0, _, seen, nodes => (seen, nodes)
  | _, [], seen, nodes => (seen, nodes)
  | fuel + 1, n :: todo, seen, nodes =>
    -- Copies are numbered behind the nodes that can be seen.
    if seen.getD n true then copyReached fuel todo seen nodes
    else
      let seen := seen.setIfInBounds n true
      let node := nodes.getD n default
      if wantsCopies nodes node then
        copyReached fuel todo seen (copyBehind n (copyFuel nodes) n n node.constraint nodes)
      else copyReached fuel (if node.isSilent then node.branches ++ todo else todo) seen nodes

def copyAll (nodes : Array Node) : Array Node :=
  (nodes.size.fold (fun n _ (seen, nodes) => copyReached (4 * seen.size + 4) [n] seen nodes)
    (Array.replicate nodes.size false, nodes)).2

/-! ## The whole table -/

/-- The nodes of an expression and where it starts. -/
structure Automaton where
  nodes : Array Node
  start : Nat
  referred : List Nat
  /-- Did the expression refer to a group? It may do so in a part that cannot match anything. -/
  hasReferences : Bool
deriving DecidableEq, Repr

/-- The automaton of an expression. Groups that nothing refers to leave no nodes behind. -/
def automaton (r : Regex) (groups : Groups) : Automaton :=
  let (r, use) := (mergeGroups r).run ⟨[], groups.referred⟩
  let r := dropGroups use.referred r
  let last := r.size
  { nodes := copyAll ((emit r false 0 last #[]).push { kind := .stop }), start := entry 0 last r,
    referred := use.referred,
    hasReferences := !groups.referred.isEmpty }

namespace Automaton

def node (a : Automaton) (n : Nat) : Node := a.nodes.getD n default

/-- Marks all nodes that can be reached from some nodes without taking in anything, and puts them in
front of those that were found. -/
def reachOnto (a : Automaton) : (fuel : Nat) → (todo : List Nat) → (seen : Array Bool) →
    (found : List Nat) → List Nat
  | 0, _, _, found => found
  | _, [], _, found => found
  | fuel + 1, n :: todo, seen, found =>
    if seen.getD n true then reachOnto a fuel todo seen found
    else
      let node := a.node n
      reachOnto a fuel (if node.isSilent then node.branches ++ todo
        else todo) (seen.setIfInBounds n true) (n :: found)

/-- The nodes that can be reached from some nodes without taking in anything, in no order. -/
def reach (a : Automaton) (nodes : List Nat) : List Nat :=
  match nodes with
  | [] => []
  | nodes => reachOnto a (3 * a.nodes.size + nodes.length + 1) nodes
      (Array.replicate a.nodes.size false) []

end Automaton

end TemplateKit.Regex
