import TemplateKit.Failure

/-!
# Sequences

A sequence is a list whose items are known by their place. A negative place counts from the end. A
place that does not exist is a fault that names the operation.
-/

namespace TemplateKit

/-- What was tried, for the message of a fault. -/
inductive SequenceAction where
  | pop
  | insert
  | delete
  | get
  | set
deriving DecidableEq, Repr

/-- The name of the action in messages. -/
def SequenceAction.name : SequenceAction → Bytes
  | pop => "uListPop"
  | insert => "uListInsert"
  | delete => "uListDelete"
  | get => "uListGet"
  | set => "uListSet"

/-- Why an action on a sequence failed. The place is the one after counting from the end. -/
inductive SequenceFault where
  | empty
  | pastEnd (action : SequenceAction) (place : Int) (size : Nat)
  | pastBeginning (action : SequenceAction) (place : Int)
deriving DecidableEq, Repr

namespace SequenceFault

/-- The text of the fault. -/
def message : SequenceFault → Bytes
  | empty => SequenceAction.pop.name ++ ": empty list"
  | pastEnd action place size =>
    action.name ++ ": past end (" ++ Numeral.ofInt place ++ " > " ++ Numeral.ofNat size ++ ")"
  | pastBeginning action place =>
    action.name ++ ": past beginning (" ++ Numeral.ofInt place ++ " < 0)"

def failure (e : SequenceFault) : Failure := .raise .range e.message

end SequenceFault

/-- A sequence is its items in order. -/
abbrev Sequence (α : Type) := List α

namespace Sequence

variable {α : Type}

/-- The place of an item; negative places count from the end. -/
def resolve (items : Sequence α) (action : SequenceAction) (place : Int) :
    Except SequenceFault Nat :=
  let place := if place < 0 then items.length + place else place
  if place ≥ items.length then .error (.pastEnd action place items.length)
  else if place < 0 then .error (.pastBeginning action place)
  else .ok place.toNat

/-- The item at a place that was resolved. -/
def item (items : Sequence α) (place : Nat) : Except SequenceFault α :=
  match items[place]? with
  | some a => .ok a
  | none => .error .empty

/-- The last item and the sequence without it. -/
def pop (items : Sequence α) : Except SequenceFault (α × Sequence α) :=
  match items.getLast? with
  | some a => .ok (a, items.dropLast)
  | none => .error .empty

/-- Puts an item in front of the one at a place; there is no place behind the last item. -/
def insert (items : Sequence α) (place : Int) (a : α) : Except SequenceFault (Sequence α) := do
  let k ← resolve items .insert place
  pure (items.take k ++ a :: items.drop k)

def delete (items : Sequence α) (place : Int) : Except SequenceFault (α × Sequence α) := do
  let k ← resolve items .delete place
  pure (← item items k, items.eraseIdx k)

def get (items : Sequence α) (place : Int) : Except SequenceFault α := do
  item items (← resolve items .get place)

/-- Puts an item at a place. Here negative places do not count from the end. -/
def set (items : Sequence α) (place : Int) (a : α) : Except SequenceFault (Sequence α) :=
  if place ≥ items.length then .error (.pastEnd .set place items.length)
  else if place < 0 then .error (.pastBeginning .set place)
  else .ok (List.set items place.toNat a)

/-- Halves the places from `low` to below `high` until the key is met; `fuel` bounds the halvings.
-/
def searchFrom (compare : α → α → Ordering) (key : α) (items : Array α) :
    (fuel low high : Nat) → Option α
  | 0, _, _ => none
  | fuel + 1, low, high =>
    if low < high then
      let mid := (low + high) / 2
      match items[mid]? with
      | none => none
      | some a =>
        match compare key a with
        | .lt => searchFrom compare key items fuel low mid
        | .gt => searchFrom compare key items fuel (mid + 1) high
        | .eq => some a
    else none

/-- Binary search, which finds an item that is there if the items are in order. -/
def search (items : Sequence α) (compare : α → α → Ordering) (key : α) : Option α :=
  searchFrom compare key items.toArray (items.length + 1) 0 items.length

end Sequence

end TemplateKit
