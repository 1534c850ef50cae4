import TemplateKit.Pattern.Regex.Automaton

/-!
# Following matches with references

To find out what a reference can stand for, all places of a match are kept with the nodes that it
reaches there. A group is opened where a node that opens it is reached. It can have matched the text
from there to a place at which its closing can be reached without passing an earlier closing, if the
reference can be reached from there without passing an opening. Of several closings at a place only
the first one is looked at.

This finds more than what can be matched: that everything fits together is not checked here.
-/

namespace TemplateKit.Regex

/-- Nodes by rising number. -/
abbrev NodeSet := List Nat

namespace NodeSet

def add (n : Nat) : NodeSet → NodeSet
  | [] => [n]
  | m :: s => if n < m then n :: m :: s else if n = m then m :: s else m :: add n s

def join (s t : NodeSet) : NodeSet := (List.merge s t fun a b => a ≤ b).eraseReps

end NodeSet

/-- An automaton with what can be reached from and to its nodes without taking in anything, at work
on a text from some place on. -/
structure Matcher where
  automaton : Automaton
  targets : Array NodeSet
  sources : Array NodeSet
  text : Array UInt8
  origin : Nat

/-- The nodes at one place: those that were reached, and those that the next byte is tried on. -/
structure Stage where
  reached : NodeSet := []
  nodes : NodeSet := []
deriving DecidableEq, Repr

instance : Inhabited Stage := ⟨{}⟩

namespace Stage

def isNone (s : Stage) : Bool := s.reached.isEmpty

def free (nodes : NodeSet) : Stage := ⟨nodes, nodes⟩

end Stage

namespace Matcher

/-- A matcher that knows where every node leads without a byte, and what leads there. -/
def ofAutomaton (a : Automaton) (text : Array UInt8) : Matcher :=
  let count := a.nodes.size
  let targets := Array.ofFn fun n : Fin count => (a.reach [n.val]).mergeSort fun k l => k ≤ l
  let sources := count.fold (fun n _ sources =>
    (targets.getD n []).foldl (fun sources k => sources.modify k (n :: ·)) sources)
    (Array.replicate count [])
  { automaton := a, targets, sources := sources.map List.reverse, text, origin := 0 }

def node (m : Matcher) (n : Nat) : Node := m.automaton.node n

def reached (m : Matcher) (n : Nat) : NodeSet := m.targets.getD n []

def length (m : Matcher) : Nat := m.text.size - m.origin

def byte (m : Matcher) (place : Nat) : UInt8 := m.text.getD (m.origin + place) 0

def front (m : Matcher) (place : Nat) : PlaceContext :=
  if m.origin + place = 0 then .textStart else .beside (m.text.getD (m.origin + place - 1) 0)

def behind (m : Matcher) (place : Nat) : PlaceContext :=
  if place = m.length then .textEnd else .beside (m.byte place)

def stage (m : Matcher) (front : PlaceContext) (nodes : NodeSet) : Stage :=
  ⟨nodes, nodes.filter fun n => (m.node n).constraint.allowsAfter front⟩

def takes (m : Matcher) (n place : Nat) : Bool := (m.node n).takes (m.byte place) (m.behind place)

def branch (m : Matcher) (n : Nat) : Nat := (m.node n).branches.headD 0

def isOpening (m : Matcher) (group n : Nat) : Bool := (m.node n).kind == .opening group

def isClosing (m : Matcher) (group n : Nat) : Bool := (m.node n).kind == .closing group

end Matcher

/-! ## Routes -/

/-- What was reached from a node, at its own place and from there on. -/
structure Route where
  start : Nat
  stages : Array Stage := #[]
  /-- Where to go on; zero before the first step. -/
  next : Nat := 0
deriving DecidableEq, Repr

namespace Route

def stage (r : Route) (place : Nat) : Stage :=
  if place < r.start then {} else r.stages.getD (place - r.start) {}

/-- Keeps a stage of the route, with empty ones up to it where there were none. -/
def put (r : Route) (place : Nat) (s : Stage) : Route :=
  let k := place - r.start
  let stages := r.stages ++ Array.replicate (k + 1 - r.stages.size) default
  { r with stages := stages.setIfInBounds k s }

end Route

/-- What a reference stands for at a place: the text between two places. -/
structure Referral where
  node : Nat
  place : Nat
  first : Nat
  last : Nat
deriving DecidableEq, Repr

/-- What a route does not pass: closings of a group, which it reaches, or openings, which it does
not reach. -/
structure Barrier where
  group : Nat
  closing : Bool

namespace Matcher

def stops (m : Matcher) (b : Barrier) (n : Nat) : Bool :=
  if b.closing then m.isClosing b.group n else m.isOpening b.group n

/-- Adds what is reached from a node without taking in anything, up to a barrier. -/
def reachUpTo (m : Matcher) (b : Barrier) : (fuel : Nat) → (found : NodeSet) → (n : Nat) → NodeSet
  | 0, found, _ => found
  | fuel + 1, found, n =>
    if found.elem n then found
    else if m.stops b n then if b.closing then NodeSet.add n found else found
    else
      let found := NodeSet.add n found
      match (m.node n).branches with
      | [] => found
      | [d] => reachUpTo m b fuel found d
      | d :: e :: _ => reachUpTo m b fuel (reachUpTo m b fuel found e) d

/-- The nodes that are reached without a byte, up to the barrier. -/
def spread (m : Matcher) (b : Barrier) (nodes : NodeSet) : NodeSet :=
  nodes.foldl (fun found n =>
    if (m.reached n).any (m.stops b) then m.reachUpTo b (m.automaton.nodes.size + 1) found n
    else NodeSet.join found (m.reached n)) []

/-- Follows the references at a place whose referrals are known. One to nothing leads to more nodes
at the place, and then all referrals count again. -/
def followKnown (m : Matcher) (b : Barrier) (place : Nat) (known : List Referral) :
    (fuel : Nat) → (todo : List Referral) → NodeSet → Route → NodeSet × Route
  | 0, _, nodes, route => (nodes, route)
  | _, [], nodes, route => (nodes, route)
  | fuel + 1, r :: todo, nodes, route =>
    if nodes.elem r.node then
      let goal := place + (r.last - r.first)
      if goal = place then
        let next := m.branch r.node
        if nodes.elem next then followKnown m b place known fuel todo nodes route
        else followKnown m b place known fuel known (NodeSet.join nodes (m.spread b [next])) route
      else
        let next := (m.node r.node).next
        let there := (route.stage goal).nodes
        if there.elem next then followKnown m b place known fuel todo nodes route
        else followKnown m b place known fuel todo nodes
          (route.put goal (.free (NodeSet.add next there)))
    else followKnown m b place known fuel todo nodes route

/-- The nodes that are reached through what is known to hold at a place. -/
def follow (m : Matcher) (b : Barrier) (referrals : Array Referral) (place : Nat) (nodes : NodeSet)
    (route : Route) :
    NodeSet × Route :=
  let known := (referrals.filter (·.place == place)).toList
  m.followKnown b place known ((known.length + 1) * (m.automaton.nodes.size + 2)) known nodes route

/-- Goes on with a route, until `goal` or until nothing is reached for longer than any reference is.
-/
def advance (m : Matcher) (b : Barrier) (referrals : Array Referral) (longest goal : Nat) :
    (fuel place misses : Nat) → Stage → Route → Route
  | 0, place, _, _, route => { route with next := place }
  | fuel + 1, place, misses, here, route =>
    if place < goal && misses ≤ longest then
      let moved := here.nodes.filterMap fun n => if m.takes n place then some (m.node n).next
        else none
      let nodes := moved.foldl (fun s n => NodeSet.add n s) (route.stage (place + 1)).nodes
      let place := place + 1
      let (nodes, route) :=
        if nodes.isEmpty then (nodes, route)
        else m.follow b referrals place (m.spread b nodes) route
      let there := m.stage (m.front place) nodes
      advance m b referrals longest goal fuel place (if there.isNone then misses + 1 else 0) there
        (route.put place there)
    else { route with next := place }

/-- Can a node at a place be reached on the route from a node? The route is given back, as far as it
went. -/
def arrives (m : Matcher) (b : Barrier) (referrals : Array Referral)
    (longest origin goalNode goal : Nat) (route : Route) : Route × Bool :=
  let place := if route.next = 0 then route.start else route.next
  let refresh (nodes : NodeSet) : Stage × Route :=
    let (nodes, route) := if nodes.isEmpty then (nodes, route)
      else m.follow b referrals place nodes route
    let here := m.stage (m.front place) nodes
    (here, route.put place here)
  let (here, route) :=
    if place = route.start then refresh (m.spread b [origin])
    else
      let here := route.stage place
      if here.reached.any fun n => (m.node n).isSame then refresh here.nodes else (here, route)
  let route := m.advance b referrals longest goal (goal + 1 - place) place 0 here route
  (route, (route.stage goal).nodes.elem goalNode)

end Matcher

/-! ## The trace of a match -/

/-- Where a group can close, and the route from there to references. -/
structure Closing where
  node : Nat
  place : Nat
  route : Route
deriving DecidableEq, Repr

/-- Where a group opens, and the route from there to its closings. -/
structure Opening where
  node : Nat
  place : Nat
  route : Route
  closings : Array Closing := #[]
deriving DecidableEq, Repr

/-- The trace of all matches that begin at one place. -/
structure Trace where
  log : Array Stage := #[]
  top : Nat := 0
  openings : Array Opening := #[]
  referrals : Array Referral := #[]
  longest : Nat := 0
deriving DecidableEq, Repr

namespace Trace

def stage (t : Trace) (place : Nat) : Stage := t.log.getD place {}

def put (t : Trace) (place : Nat) (s : Stage) : Trace :=
  { t with log := (t.log ++ Array.replicate (place + 1 - t.log.size)
    default).setIfInBounds place s }

/-- Remembers the openings of groups that something refers to. -/
def openAll (t : Trace) (m : Matcher) (place : Nat) (nodes : NodeSet) : Trace :=
  nodes.foldl (fun t n =>
    match (m.node n).kind with
    | .opening g =>
      if m.automaton.referred.elem g then
        { t with openings := t.openings.push { node := n, place, route := { start := place } } }
      else t
    | _ => t) t

/-- Keeps a referral, and how far the longest of them goes. -/
def refer (t : Trace) (r : Referral) : Trace :=
  let size := r.last - r.first
  { t with
    referrals := t.referrals.push r
    longest := max t.longest size
    top := max t.top (r.place + size) }

/-- Notes that a reference stands for what is between an opening and a closing, if it can be reached
from there. -/
def tryClosing (t : Trace) (m : Matcher) (group node place k j : Nat) : Trace :=
  match t.openings[k]? with
  | none => t
  | some o =>
    match o.closings[j]? with
    | none => t
    | some c =>
      let (route, found) := m.arrives ⟨group, false⟩ t.referrals t.longest c.node node place c.route
      let o := { o with closings := o.closings.setIfInBounds j { c with route } }
      let t := { t with openings := t.openings.setIfInBounds k o }
      if found then t.refer ⟨node, place, o.place, c.place⟩ else t

/-- Tries the closings that are known, of which `first` is the last one that was tried. The text of
the group and the text at the reference are compared piece by piece, from one closing to the next
one. Gives the last closing, unless the texts differ in front of it. -/
def tryKnown (m : Matcher) (group node place k : Nat) :
    (closings : List Nat) → (first : Nat) → Trace → Trace × Option Nat
  | [], first, t => (t, some first)
  | j :: more, first, t =>
    match (t.openings[k]?).bind fun o => (o.closings[j]?).map fun c => (o.place, c.place) with
    | none => (t, none)
    | some (opened, closed) =>
      let size := closed - first
      let there := place + (first - opened)
      if there + size ≤ m.length &&
          (List.range size).all fun i => m.byte (there + i) == m.byte (first + i) then
        tryKnown m group node place k more closed (t.tryClosing m group node place k j)
      else (t, none)

/-- Tries the places where a group that was opened may be closed, one after the other. -/
def tryNew (m : Matcher) (group node place k : Nat) : (fuel closed : Nat) → Trace → Trace
  | 0, _, t => t
  | fuel + 1, closed, t =>
    match t.openings[k]? with
    | none => t
    | some o =>
      let size := closed - o.place
      if place < closed then t
      else if 0 < size && (m.length ≤ place + size - 1 ||
        m.byte (place + size - 1) != m.byte (closed - 1)) then t
      else
        match (t.stage closed).nodes.find? (m.isClosing group) with
        | none => tryNew m group node place k fuel (closed + 1) t
        | some c =>
          let (route, found) :=
            m.arrives ⟨group, true⟩ t.referrals t.longest o.node c closed o.route
          let o := { o with route }
          if found then
            let o := { o with closings := o.closings.push ⟨c, closed, { start := closed }⟩ }
            let t := { t with openings := t.openings.setIfInBounds k o }
            tryNew m group node place k fuel (closed + 1)
              (t.tryClosing m group node place k (o.closings.size - 1))
          else tryNew m group node place k fuel
            (closed + 1) { t with openings := t.openings.setIfInBounds k o }

/-- Finds out what a reference at a place can stand for, unless that is known. -/
def resolve (t : Trace) (m : Matcher) (group node place : Nat) : Trace :=
  if t.referrals.any fun r => r.node == node && r.place == place then t
  else
    t.openings.size.fold (fun k _ t =>
      match t.openings[k]? with
      | none => t
      | some o =>
        if m.isOpening group o.node then
          let (t, agreed) := tryKnown m group node place k (List.range o.closings.size) o.place t
          match agreed with
          | none => t
          | some last =>
            let first := if o.closings.isEmpty then last else last + 1
            tryNew m group node place k (place + 2 - first) first t
        else t) t

/-- Follows the referrals of a reference from number `i` on; `deeper` follows the references behind
one that stands for nothing. -/
def followReferrals (deeper : Trace → NodeSet → Trace) (m : Matcher) (node place : Nat) :
    (fuel i : Nat) → Trace → Trace
  | 0, _, t => t
  | fuel + 1, i, t =>
    match t.referrals[i]? with
    | none => t
    | some r =>
      if r.node == node && r.place == place then
        let goal := place + (r.last - r.first)
        let targets := m.reached (if goal = place then m.branch node else (m.node node).next)
        let before := (t.stage place).nodes.length
        let t := t.put goal (m.stage (m.front goal) (NodeSet.join (t.stage goal).reached targets))
        let t := if goal = place && before < (t.stage place).nodes.length then
            deeper (t.openAll m place targets) targets
          else t
        followReferrals deeper m node place fuel (i + 1) t
      else followReferrals deeper m node place fuel (i + 1) t

def referralFuel (m : Matcher) : Nat :=
  (m.length + 2) * (m.length + 2) * (m.automaton.nodes.size + 2) * (m.automaton.nodes.size + 2)

/-- Follows the references among some nodes at a place; `fuel` bounds how many references to nothing
follow each other. -/
def followAll (m : Matcher) (place : Nat) : (fuel : Nat) → Trace → NodeSet → Trace
  | 0, t, _ => t
  | fuel + 1, t, nodes =>
    nodes.foldl (fun t n =>
      match (m.node n).kind with
      | .same g =>
        if (m.node n).constraint.allowsBefore (m.behind place) then
          let known := t.referrals.size
          let t := t.resolve m g n place
          followReferrals (followAll m place fuel) m n place (referralFuel m) known t
        else t
      | _ => t) t

/-- Enters a stage at a place, together with what references have brought there. -/
def enter (t : Trace) (m : Matcher) (place : Nat) (s : Stage) : Trace :=
  let logged := t.stage place
  let s := if logged.isNone then s else m.stage
    (m.front place) (NodeSet.join s.reached logged.reached)
  let t := { t with top := max t.top place }.put place s
  if s.isNone then t
  else followAll m place (m.automaton.nodes.size + 1) (t.openAll m place s.nodes) s.nodes

/-- The stage behind one byte. -/
def step (m : Matcher) (s : Stage) (b : UInt8) : Stage :=
  let moved := s.nodes.filterMap fun n =>
    let node := m.node n
    if node.takes b (.taken b) then some node.next else none
  m.stage (.taken b) (moved.foldl (fun found n => NodeSet.join found (m.reached n)) [])

def stopAt? (t : Trace) (m : Matcher) (place : Nat) : Option Nat :=
  (t.stage place).nodes.find? fun n => (m.node n).isStop && (m.node n).constraint.allowsBefore
    (m.behind place)

/-- Runs through the text behind a place. Where nothing is reached, it goes on with what references
have brought to a later place. Gives the last place at which a match can end. -/
def runFrom (m : Matcher) : (fuel place : Nat) → (ends : Option Nat) → Trace → Trace × Option Nat
  | 0, _, ends, t => (t, ends)
  | fuel + 1, place, ends, t =>
    if m.length ≤ place then (t, ends)
    else
      let s := t.stage place
      if s.isNone && t.top ≤ place then (t, ends)
      else
        let next := if s.isNone then {} else step m s (m.byte place)
        let t := t.enter m (place + 1) next
        runFrom m fuel (place + 1) (if (t.stopAt? m (place + 1)).isSome then some (place +
          1) else ends) t

/-- Adds what is behind the references among the first nodes that can stand for nothing; `fuel`
bounds the steps. -/
def extendStart (m : Matcher) : (fuel i : Nat) → NodeSet → NodeSet
  | 0, _, nodes => nodes
  | fuel + 1, i, nodes =>
    match nodes[i]? with
    | none => nodes
    | some n =>
      match (m.node n).kind with
      | .same g =>
        let next := m.branch n
        if nodes.any (m.isClosing g) && !nodes.elem next then
          extendStart m fuel 1 (NodeSet.join nodes (m.reached next))
        else extendStart m fuel (i + 1) nodes
      | _ => extendStart m fuel (i + 1) nodes

/-- The trace of all matches from the beginning of a matcher on, and the last place at which one can
end. -/
def run (m : Matcher) (starts : NodeSet) : Trace × Option Nat :=
  let s := m.stage (m.front 0) starts
  let t := { log := #[s] : Trace }
  let t := if s.isNone then t
    else followAll m 0 (m.automaton.nodes.size + 1) (t.openAll m 0 s.nodes) s.nodes
  let ends := s.nodes.any fun n => (m.node n).isStop &&
    (m.node n).constraint.allowsBefore (m.behind 0)
  runFrom m (m.length + 1) 0 (if ends then some 0 else none) t

end Trace

end TemplateKit.Regex
