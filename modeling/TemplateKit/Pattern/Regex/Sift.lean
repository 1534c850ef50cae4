import TemplateKit.Pattern.Regex.Scan
import TemplateKit.Pattern.Regex.Trace

/-!
# Sifting a trace

A trace is gone through backwards from the end of a match, and of all nodes those are kept from
which the end can be reached. A reference is kept only if the end can be reached under its referral:
the group it refers to then begins and ends where the referral says. To see that, what is in front
of the reference is sifted once more with the referral as a limit.

References to nothing can lead to each other in a circle. A question that comes up again while it is
being answered has no answer, and then there is no match.
-/

namespace TemplateKit.Regex

/-- What is left of the nodes at every place, going back from where a match ends. -/
structure Sieve where
  kept : Array NodeSet
  underLimit : Array NodeSet
  /-- Referrals to nothing, by number, behind which no border of a group was found. -/
  barren : List (Nat × Nat)

/-- A node at a place that is to be reached from the front. -/
structure SiftGoal where
  node : Nat
  place : Nat
  /-- The numbers of the referrals that hold. -/
  limits : NodeSet
deriving DecidableEq, Repr

/-- Steps of the sieve; nothing comes out when it is too deep. -/
abbrev Sifting := StateT Sieve Option

namespace Sieve

def clear (s : Sieve) (place : Nat) : Sieve :=
  { s with kept := Array.replicate (place + 1) [], underLimit := Array.replicate (place + 1) [] }

def keep (place : Nat) (nodes : NodeSet) : Sifting Unit :=
  modify fun s => { s with kept := s.kept.setIfInBounds place nodes }

def keptAt (place : Nat) : Sifting NodeSet := do return (← get).kept.getD place []

def dropBelow (place : Nat) : Sifting Unit :=
  modify fun s => { s with kept := place.fold (fun i _ kept => kept.setIfInBounds i []) s.kept }

/-- Takes over what is kept up to a place as kept under a limit. -/
def shareUpTo (place : Nat) : Sifting Unit :=
  modify fun s =>
    { s with underLimit := (place + 1).fold (fun i _ shared =>
        shared.setIfInBounds i (NodeSet.join (shared.getD i []) (s.kept.getD i []))) s.underLimit }

end Sieve

namespace Trace

variable (t : Trace) (m : Matcher)

def referralsAt (place : Nat) : List (Nat × Referral) :=
  ((List.range t.referrals.size).filterMap fun i => (t.referrals[i]?).map fun r => (i, r)).filter
    (·.2.place == place)

/-! ## Limits -/

/-- On which side of a border of a group a node is, when the group begins or ends at its place: in
front of the group, in it or behind it. Openings and closings that can be reached decide, also
behind references to nothing; `fuel` bounds how many of those follow each other. -/
def borderSide (atFirst atLast : Bool) (group : Nat) (here : List (Nat × Referral)) :
    (fuel n : Nat) → Sifting Int
  | 0, _ => failure
  | fuel + 1, n => do
    let side ← (m.reached n).findSomeM? fun k =>
      match (m.node k).kind with
      | .same _ => here.findSomeM? fun (i, r) => do
        if r.node != k || r.first != r.last || (← get).barren.elem (i, group) then return none
        let next := m.branch k
        if next = n then return some (if atFirst then -1 else 0)
        let side ← borderSide atFirst atLast group here fuel next
        if side = -1 || (side = 0 && atLast) then return some side
        modify fun s => { s with barren := (i, group) :: s.barren }
        return none
      | .opening g => return if atFirst && g == group then some (-1) else none
      | .closing g => return if atLast && g == group then some 0 else none
      | _ => return none
    return side.getD (if atLast then 1 else 0)

/-- Whether a node at a place is in front of the group of a referral (-1), in it (0) or behind it
(1). -/
def sideOf (r : Referral) (group n place : Nat) : Sifting Int :=
  if place < r.first then return -1
  else if r.last < place then return 1
  else if place = r.first || place = r.last then
    borderSide m (place = r.first) (place =
      r.last) group (t.referralsAt place) (m.automaton.nodes.size + 1) n
  else return 0

/-- The group of a node, zero for nodes that have none. -/
def groupOf (n : Nat) : Nat :=
  match (m.node n).kind with
  | .same g | .opening g | .closing g => g
  | _ => 0

/-- Does a step between two nodes cross the border of a group whose borders are limited? -/
def crosses (limits : NodeSet) (a aPlace b bPlace : Nat) : Sifting Bool :=
  limits.anyM fun i => do
    match t.referrals[i]? with
    | none => return false
    | some r =>
      let group := groupOf m r.node
      let aSide ← t.sideOf m r group a aPlace
      let bSide ← t.sideOf m r group b bPlace
      return aSide != bSide

/-- Takes away a node and all nodes that can go nowhere else than to it. -/
def removeSources (candidates : NodeSet) (n : Nat) (nodes : NodeSet) : NodeSet :=
  let sources := m.sources.getD n []
  let leadsElsewhere (k : Nat) : Bool :=
    k != n && (m.node k).isSilent && (m.node k).branches.any fun d => !sources.elem d &&
    nodes.elem d
  let spared := (sources.filter leadsElsewhere).flatMap fun k =>
    (m.sources.getD k []).filter candidates.elem
  nodes.filter fun k => !(sources.elem k && !spared.elem k)

/-- Removes, from number `i` on, the nodes that neither lead to a closing nor follow it. -/
def removeBeside (candidates : NodeSet) (closing : Nat) : (fuel i : Nat) → NodeSet → NodeSet
  | 0, _, nodes => nodes
  | fuel + 1, i, nodes =>
    match nodes[i]? with
    | none => nodes
    | some n =>
      if (m.sources.getD n []).elem closing || (m.reached n).elem closing then
        removeBeside candidates closing fuel (i + 1) nodes
      else removeBeside candidates closing fuel i (removeSources m candidates n nodes)

/-- Takes out the borders of a group and what leads only to them. -/
def removeBorders (candidates : NodeSet) (group : Nat) : (fuel i : Nat) → NodeSet → NodeSet
  | 0, _, nodes => nodes
  | fuel + 1, i, nodes =>
    match nodes[i]? with
    | none => nodes
    | some n =>
      removeBorders candidates group fuel (i + 1)
        (if m.isOpening group n || m.isClosing group n then removeSources m candidates n nodes
          else nodes)

/-- Removes what a limit excludes at a place behind the beginning of its group and up to its
reference: where the group ends, its openings and what is beside the closing, elsewhere all its
borders. -/
def limitBy (candidates : NodeSet) (place : Nat) (nodes : NodeSet) (r : Referral) : NodeSet :=
  if place ≤ r.first || r.place < place then nodes
  else
    let group := groupOf m r.node
    let fuel := 2 * nodes.length + 2
    if r.last = place then
      let opening := (nodes.filter (m.isOpening group)).getLast?
      let closing := (nodes.filter (m.isClosing group)).getLast?
      let nodes := match opening with
        | some n => removeSources m candidates n nodes
        | none => nodes
      match closing with
      | some n => removeBeside m candidates n fuel 0 nodes
      | none => nodes
    else removeBorders m candidates group fuel 0 nodes

/-! ## Going backwards -/

/-- The nodes at a place that lead by a byte to nodes that are kept behind it. -/
def sources (goal : SiftGoal) (place : Nat) : Sifting NodeSet := do
  let behind ← Sieve.keptAt (place + 1)
  (t.stage place).nodes.filterM fun n => do
    let next := (m.node n).next
    if m.takes n place && behind.elem next then
      return !(← t.crosses m goal.limits next (place + 1) n place)
    else return false

/-- Sifts what is in front of a place for each reference there that leads to a node that is kept;
`sift` sifts for a goal. -/
def siftReferences (sift : SiftGoal → Sifting Unit) (goal : SiftGoal) (place : Nat) :
    Sifting Unit :=
  let here := t.referralsAt place
  (t.stage place).nodes.forM fun n =>
    if (n = goal.node && place = goal.place) || !(m.node n).isSame then return
    else here.forM fun (i, r) => do
      if r.node != n then return
      let size := r.last - r.first
      let next := if size = 0 then m.branch n else (m.node n).next
      if goal.place < place + size || !(← Sieve.keptAt (place + size)).elem next then return
      if ← t.crosses m goal.limits n place next (place + size) then return
      let before ← Sieve.keptAt place
      sift ⟨n, place, NodeSet.add i goal.limits⟩
      Sieve.shareUpTo place
      Sieve.keep place before

/-- Keeps some nodes at a place, and those that lead to them there. -/
def keepAt (sift : SiftGoal → Sifting Unit) (goal : SiftGoal) (place : Nat) (nodes : NodeSet) :
    Sifting Unit := do
  let s := t.stage place
  let nodes :=
    if nodes.isEmpty || s.isNone then nodes
    else
      let leading := s.nodes.filter fun n => nodes.any fun k => (m.sources.getD k []).elem n
      goal.limits.foldl (fun nodes i =>
        match t.referrals[i]? with
        | some r => limitBy m s.nodes place nodes r
        | none => nodes) (NodeSet.join nodes leading)
  Sieve.keep place nodes
  if !s.isNone then t.siftReferences m sift goal place

/-- Goes back from a place. Where nothing was kept for longer than any reference is, nothing is kept
in front. -/
def siftBelow (sift : SiftGoal → Sifting Unit) (goal : SiftGoal) :
    (place misses : Nat) → Sifting Unit
  | 0, _ => return
  | place + 1, misses => do
    let misses := if (← Sieve.keptAt (place + 1)).isEmpty then misses + 1 else 0
    if t.longest < misses then Sieve.dropBelow (place + 1)
    else
      t.keepAt m sift goal place (← t.sources m goal place)
      siftBelow sift goal place misses

def deepest : Nat := 1000

/-- Sifts for a goal; `pending` are the goals that this one came up for, each with the number of
barren referrals that were known then. -/
def siftFor : (fuel : Nat) → (pending : List (SiftGoal × Nat)) → SiftGoal → Sifting Unit
  | 0, _, _ => failure
  | fuel + 1, pending, goal => do
    let barren := (← get).barren.length
    if pending.elem (goal, barren) then failure
    let sift := siftFor fuel ((goal, barren) :: pending)
    t.keepAt m sift goal goal.place [goal.node]
    t.siftBelow m sift goal goal.place 0

/-- Is a node at a place reached from where the match starts? -/
def isReachable (n place : Nat) : Sifting Bool := do
  modify (·.clear place)
  t.siftFor m deepest [] ⟨n, place, []⟩
  let s ← get
  return !(s.kept.getD 0 []).isEmpty || !(s.underLimit.getD 0 []).isEmpty

/-- Can a match end at a place? -/
def endsAt (place : Nat) : Sifting Bool :=
  if (t.stage place).reached.any fun n => (m.node n).isStop then
    t.isReachable m ((t.stopAt? m place).getD 0) place
  else return false

def endsBy : (place : Nat) → Sifting Bool
  | 0 => t.endsAt m 0
  | place + 1 => do if ← t.endsAt m (place + 1) then return true else endsBy place

end Trace

/-- Does the text match from the place where the matcher stands? -/
def Matcher.matchesHere (m : Matcher) (starts : NodeSet) : Bool :=
  match Trace.run m starts with
  | (_, none) => false
  | (t, some last) => ((t.endsBy m last).run' ⟨#[], #[], []⟩).getD false

def Matcher.matchesFrom (starts : NodeSet) : (fuel : Nat) → Matcher → Bool
  | 0, _ => false
  | fuel + 1, m => m.matchesHere starts || matchesFrom starts fuel { m with origin := m.origin + 1 }

/-- Is there a match of a pattern in a text, whatever the letter case? A pattern that is not well
formed matches nothing. -/
def search (pattern text : Bytes) : Bool :=
  match parse? pattern with
  | none => false
  | some (r, groups) =>
    let a := automaton r groups
    let text := Bytes.upper text
    if a.hasReferences then
      let m := Matcher.ofAutomaton a text.toArray
      let count := a.nodes.size
      Matcher.matchesFrom (Trace.extendStart m ((count + 1) * (count + 2)) 0 (m.reached a.start))
        (text.length + 1) m
    else a.scan (a.reach [a.start]) [] .textStart text

end TemplateKit.Regex
