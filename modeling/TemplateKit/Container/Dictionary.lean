import TemplateKit.Checksum
import TemplateKit.Container.SkipList

/-!
# Dictionaries

Values are kept under texts, by a hash of 16 bits; the values whose texts share a hash are in one
group. Two texts are the same, or differ in letter case only if the dictionary ignores it; the hash
does not ignore it.
-/

namespace TemplateKit

/-- Why an entry was not made: nothing could make it, or what makes it failed. -/
inductive DictionaryFault where
  | cannotCreate
  | refused (f : Failure)

namespace DictionaryFault

def failure : DictionaryFault → Failure
  | cannotCreate => .raise .assertion "value or new are NULL"
  | refused f => f

end DictionaryFault

/-- How a value is given: as it is, or by what makes a new one and what changes one that is there.
-/
inductive Entrant (α : Type) where
  | value (a : α)
  | made (create : Option (Except Failure α)) (update : Option (α → Except Failure α))

namespace Entrant

variable {α : Type}

/-- The value for a key that is not there yet. -/
def create : Entrant α → Except DictionaryFault α
  | .value a => .ok a
  | .made (some r) _ => r.mapError .refused
  | .made none _ => .error .cannotCreate

/-- The value for a key that is there; without an update a new one is made. -/
def replace (e : Entrant α) (old : α) : Except DictionaryFault α :=
  match e with
  | .value a => .ok a
  | .made _ (some update) => (update old).mapError .refused
  | .made _ none => e.create

end Entrant

/-- Entries in groups of equal hashes. What is in a group is told apart by its key. -/
structure Dictionary (α : Type) where
  caseMatters : Bool
  groups : SkipList (List (Bytes × α))

namespace Dictionary

variable {α : Type}

/-- A new dictionary, whose groups are kept in a skip list with the given root and number of levels.
-/
def create (caseMatters : Bool) (root : Int := 2) (maxLevel : Nat := 10) :
    Except SkipFault (Dictionary α) := do
  pure ⟨caseMatters, ← SkipList.create root maxLevel⟩

def same (d : Dictionary α) (a b : Bytes) : Bool :=
  if d.caseMatters then a == b else Bytes.equalsNoCase a b

/-- The hash of a text, which is never a key that is reserved. -/
def hash (id : Bytes) : UInt32 :=
  let h := Checksum.textHash id % 65536
  if SkipList.isReserved h then 1 else h

def group (d : Dictionary α) (id : Bytes) : Option (List (Bytes × α)) := d.groups.search (hash id)

def setGroup (d : Dictionary α) (id : Bytes) (items : List (Bytes × α)) : Dictionary α :=
  { d with groups := d.groups.setValue (hash id) items }

def search (d : Dictionary α) (id : Bytes) : Option α :=
  (d.group id).bind fun items => (items.find? (d.same ·.1 id)).map (·.2)

/-- The list with a new value in the first entry that is the same; its key stays. -/
def replaceFirst (same : Bytes → Bool) (value : α) : List (Bytes × α) → List (Bytes × α)
  | [] => []
  | item :: more => if same item.1 then (item.1, value) :: more
      else item :: replaceFirst same value more

/-- Changes a group: an item that is there, or one more in front. -/
def changeGroup (d : Dictionary α) (id : Bytes) (e : Entrant α) (items : List (Bytes × α)) :
    Except DictionaryFault (List (Bytes × α)) :=
  match items.find? (d.same ·.1 id) with
  | some item => do pure (replaceFirst (d.same · id) (← e.replace item.2) items)
  | none => do pure ((id, ← e.create) :: items)

/-- Sets or changes a value. When a group cannot be changed, creating the value is tried before the
change is tried once more, and the failure of the former comes first. How high a new group is to
stand comes from `draw`. -/
def modifyBy (draw : Random → Nat × Random) (d : Dictionary α) (id : Bytes) (e : Entrant α) :
    Except DictionaryFault (Dictionary α) :=
  match d.group id with
  | some items =>
    match d.changeGroup id e items with
    | .ok items => .ok (d.setGroup id items)
    | .error _ => do
      let _ ← e.create
      pure (d.setGroup id (← d.changeGroup id e items))
  | none => do
    let value ← e.create
    let groups ← (SkipList.insertBy draw d.groups (hash id) (some [(id, value)]) false).mapError
        (.refused ·.failure)
    pure { d with groups }

def modify (d : Dictionary α) (id : Bytes) (e : Entrant α) :
    Except DictionaryFault (Dictionary α) :=
  d.modifyBy (SkipList.drawLevel d.groups.root d.groups.maxLevel) id e

def setBy (draw : Random → Nat × Random) (d : Dictionary α) (id : Bytes) (a : α) :
    Except DictionaryFault (Dictionary α) :=
  d.modifyBy draw id (.value a)

def set (d : Dictionary α) (id : Bytes) (a : α) : Except DictionaryFault (Dictionary α) :=
  d.modify id (.value a)

/-- Removes a value and tells whether there was one. A group that becomes empty stays. -/
def remove (d : Dictionary α) (id : Bytes) : Bool × Dictionary α :=
  match d.group id with
  | none => (false, d)
  | some items => (items.any (d.same ·.1 id), d.setGroup id (items.eraseP (d.same ·.1 id)))

/-- Removes every item that `dead` tells, and then the groups that are empty. -/
def cleanUp (d : Dictionary α) (dead : Bytes → α → Bool) : Dictionary α :=
  d.groups.toList.foldl (fun d t =>
    let items := t.value.filter fun item => !dead item.1 item.2
    let groups := d.groups.setValue t.key items
    { d with groups := if items.isEmpty then groups.delete t.key else groups }) d

/-- The item of a group behind the one that is the same text as `id`; nothing tells that `id` is not
there. -/
def behind (d : Dictionary α) (id : Bytes) : List (Bytes × α) → Option (Option (Bytes × α))
  | [] => none
  | item :: more => if d.same item.1 id then some more.head? else d.behind id more

/-- The first item, or the one behind an item. An empty group ends the dictionary. -/
def next? (d : Dictionary α) : Option Bytes → Option (Bytes × α)
  | none => (d.groups.next? 0).bind (·.value.head?)
  | some id =>
    let group? := match d.group id with
      | some items => some (hash id, items)
      | none => (d.groups.next? (hash id)).map fun (t : SkipItem _) => (t.key, t.value)
    group?.bind fun (key, items) =>
      match d.behind id items with
      | none => none
      | some (some item) => some item
      | some none => (d.groups.next? key).bind (·.value.head?)

/-- The entries behind a key, one step at a time, as many as the fuel allows. -/
def listFrom (d : Dictionary α) : (fuel : Nat) → Option Bytes → List (Bytes × α)
  | 0, _ => []
  | fuel + 1, id =>
    match d.next? id with
    | some item => item :: d.listFrom fuel (some item.1)
    | none => []

def toList (d : Dictionary α) : List (Bytes × α) :=
  d.listFrom ((d.groups.toList.map (·.value.length)).foldl (· + ·) 0) none

end Dictionary

end TemplateKit
