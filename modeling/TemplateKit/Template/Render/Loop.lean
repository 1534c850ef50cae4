import TemplateKit.Template.Render.Basic

/-!
# Loops over numbers

The bounds and the step are 32-bit integers. All loops of a rendering together may go round only so
often.
-/

namespace TemplateKit.Render

def maxInt32 : Int := 0x7FFFFFFF

def minInt32 : Int := -0x80000000

/-- How often a loop goes round; not at all if the count does not fit into 32 bits. -/
def roundsOf (start stop step : Int32) : Int :=
  if step = 0 ∨ (step < 0 ∧ start < stop) ∨ (0 < step ∧ stop < start) then 0
  else
    let distance := stop.toInt - start.toInt
    let rounds := distance.tdiv step.toInt + 1
    if distance < minInt32 ∨ maxInt32 < distance ∨ maxInt32 < rounds then 0 else rounds

/-- The start, the end and the step that one, two or three numbers give. -/
def bounds : List Int32 → Int32 × Int32 × Int32
  | [stop] => (0, stop, 1)
  | [start, stop] => (start, stop, 1)
  | start :: stop :: step :: _ => (start, stop, step)
  | [] => (0, 0, 0)

/-- Adds to the rounds of all loops, which are limited together and before they are made. -/
def countRounds (rounds : Int) : Render Unit := do
  let total := rounds + (← get).rounds
  let limit := (← read).loopLimit
  if maxInt32 < total then
    fails (.raise .range "Total loop iterations exceeded INT_MAX, render terminated.")
  else if limit.toInt < total then
    fails (.raise .range ("Total loop iterations (" ++ Numeral.ofInt total ++
      ") exceeded MAX_TOTAL_LOOP_ITERATIONS (" ++ Numeral.ofInt limit.toInt ++
      "), render terminated."))
  else modify fun st => { st with rounds := total }

/-- The loop variable at the start of a round. Once it was given a text it stays one, and an
assigned text is gone. -/
def nextRound (n : Int64) (isFirst isLast : Bool) (l : Local) : Local :=
  { l with
    isFirst
    isLast
    binding :=
      match l.binding with
      | .text v _ assigned => .text (if assigned then none else v) .trusted false
      | _ => .number n }

/-- The rounds of a loop over numbers. -/
def numbers (action : Render Unit) (step : Int64) :
    (left : Nat) → (isFirst : Bool) → Int64 → Render Unit
  | 0, _, _ => pure ()
  | left + 1, isFirst, n => do
    modifyLocal (nextRound n isFirst (left == 0))
    action
    numbers action step left false (n + step)

/-- A loop over numbers. Its rounds are known before the first one. -/
def loop (x : Bytes) (range : List Int32) (action : Render Unit) : Render Unit := do
  let (start, stop, step) := bounds range
  let rounds := roundsOf start stop step
  countRounds rounds
  if 0 < rounds then
    withLocals [⟨x, .number start.toInt64, true, false⟩]
      (numbers action step.toInt64 rounds.toNat true start.toInt64)

def childLimit : Nat := 0x100000000

/-- The rounds of a loop over children, which are looked up anew in every round. -/
def children (action : Render Unit) (p : Place) : (fuel : Nat) → (k : Nat) → Render Unit
  | 0, _ => pure ()
  | fuel + 1, k => do
    match ← child? p k with
    | none => pure ()
    | some c =>
      modifyLocal fun l => { l with isFirst := k == 0, binding := .node (some c) [] 0 }
      action
      children action p fuel (k + 1)

/-- A loop over the children of a node, none without a node. -/
def each (x : Bytes) (v : Value) (action : Render Unit) : Render Unit := do
  match ← placeOf v with
  | none => pure ()
  | some p =>
    match ← container p with
    | none => pure ()
    | some p => withLocals [⟨x, .node none [] 0, true, false⟩] (children action p childLimit 0)

/-- Renders with a variable that stands for a node, not at all without one. -/
def withAs (x : Bytes) (v : Value) (action : Render Unit) : Render Unit := do
  match ← placeOf v with
  | none => pure ()
  | some p => withLocals [⟨x, .node (some p) [] 0, false, false⟩] action

end TemplateKit.Render
