import TemplateKit.Failure
import TemplateKit.Random

/-!
# Skip lists

A skip list keeps its items in the order of their keys. All of them stand on the lowest level and
some of them on levels above it; on every level, links lead from one item to the next that stands
there. A search goes along the highest level in use and then on from where it came to on each level
below. How high an item stands is drawn at random and changes only how long a search takes.
-/

namespace TemplateKit

/-- Why a list was not made or an entry not put in. -/
inductive SkipFault where
  | noLevels
  | missingValue
  | reservedKey
  | duplicate (key : UInt32)
deriving DecidableEq, Repr

namespace SkipFault

def kind : SkipFault → Kind
  | duplicate _ => .duplicate
  | _ => .assertion

/-- The text of the fault. -/
def message : SkipFault → Bytes
  | noLevels => "maxLevel must be greater than 0"
  | missingValue => "value must be non-zero"
  | reservedKey => "key must not be 0 or -1"
  | duplicate key => "key " ++ Numeral.ofNat key.toNat ++ " exists in skiplist"

def failure (e : SkipFault) : Failure := .raise e.kind e.message

end SkipFault

/-- Where a link leads: to the item in a slot, or to the end of its level. -/
abbrev SkipLink := Option Nat

/-- An entry with its links to the next entry on every level it stands on. -/
structure SkipItem (α : Type) where
  key : UInt32
  value : α
  /-- One link for each level on which the item stands, the lowest level first. -/
  links : List SkipLink
deriving Repr

/-- Where links are followed from: the head, which stands on all levels, or an item. -/
inductive SkipPlace where
  | head
  | item (slot : Nat)
deriving DecidableEq, Repr

/-- A list of entries by rising key, with shortcuts on higher levels. -/
structure SkipList (α : Type) where
  /-- No item stands on a higher level. -/
  maxLevel : Nat
  /-- One draw in so many takes an item a level higher. -/
  root : Nat
  /-- The highest level that was ever drawn; a new item stands at most one higher. -/
  top : Nat
  /-- Where a search starts: the highest level in use, zero without items. -/
  start : Nat
  random : Random
  head : List SkipLink
  /-- The items, in slots that do not tell their order. A slot that became free is used again. -/
  slots : List (Option (SkipItem α))

namespace SkipList

variable {α : Type}

def levelLimit : Nat := 20

/-- An empty list. The root is brought between 2 and 4, the levels below the limit. -/
def create (root : Int) (maxLevel : Nat) : Except SkipFault (SkipList α) :=
  if maxLevel = 0 then .error .noLevels
  else
    let maxLevel := min maxLevel (levelLimit - 1)
    .ok ⟨maxLevel, (max 2 (min 4 root)).toNat, 0, 0, .seed 1,
      List.replicate (maxLevel + 1) none, []⟩

def item? (l : SkipList α) (slot : Nat) : Option (SkipItem α) := l.slots[slot]?.join

def isReserved (key : UInt32) : Bool := key == 0 || key == 0xFFFFFFFF

/-- The key of the item in a slot. A slot without one is like the end: no key is above it. -/
def keyOf (l : SkipList α) (slot : Nat) : UInt32 := ((l.item? slot).map (·.key)).getD 0xFFFFFFFF

def linksOf (l : SkipList α) : SkipPlace → List SkipLink
  | .head => l.head
  | .item slot => ((l.item? slot).map (·.links)).getD []

def next (l : SkipList α) (level : Nat) (place : SkipPlace) : SkipLink :=
  (l.linksOf place)[level]?.join

/-- Changes the link of one place on one level. -/
def setNext (l : SkipList α) (level : Nat) (place : SkipPlace) (link : SkipLink) : SkipList α :=
  match place with
  | .head => { l with head := l.head.set level link }
  | .item slot =>
    { l with slots := l.slots.modify slot (·.map fun t =>
      { t with links := t.links.set level link }) }

/-- Walks along a level to the last place that is before a key; `fuel` bounds the steps. -/
def walk (l : SkipList α) (level : Nat) (key : UInt32) : (fuel : Nat) → SkipPlace → SkipPlace
  | 0, place => place
  | fuel + 1, place =>
    match l.next level place with
    | none => place
    | some slot => if l.keyOf slot < key then walk l level key fuel (.item slot) else place

def before (l : SkipList α) (level : Nat) (key : UInt32) (place : SkipPlace) : SkipPlace :=
  l.walk level key l.slots.length place

/-- The last places before a key, by levels: the walk along each one starts from the place that was
found above it. -/
def descend (l : SkipList α) (key : UInt32) : (level : Nat) → SkipPlace → List SkipPlace
  | 0, place => [l.before 0 key place]
  | level + 1, place =>
    let place := l.before (level + 1) key place
    l.descend key level place ++ [place]

def trail (l : SkipList α) (key : UInt32) : List SkipPlace := l.descend key l.start .head

/-- The place of a trail on a level. Above the start of the search it is the head. -/
def placeOn (trail : List SkipPlace) (level : Nat) : SkipPlace := trail[level]?.getD .head

def seek (l : SkipList α) (key : UInt32) : SkipLink := l.next 0 (placeOn (l.trail key) 0)

def slot? (l : SkipList α) (key : UInt32) : Option Nat := (l.seek key).filter (l.keyOf · == key)

/-- The end has the highest of all keys, and no value. -/
def search (l : SkipList α) (key : UInt32) : Option α := ((l.slot? key).bind l.item?).map (·.value)

/-- The item behind a key, whether or not the key itself is in the list. -/
def next? (l : SkipList α) (key : UInt32) : Option (SkipItem α) :=
  match l.slot? key with
  | some slot => (l.next 0 (.item slot)).bind l.item?
  | none => (l.seek key).bind l.item?

/-- Draws until one fails; each that does not takes the item a level higher, up to `room`. -/
def drawLevel (root : Nat) : (room : Nat) → Random → Nat × Random
  | 0, r => (0, r.step)
  | room + 1, r =>
    let r := r.step
    if r.state * root < Random.modulus then
      let (level, r) := drawLevel root room r
      (level + 1, r)
    else (0, r)

/-- Raises the start of a search while there are items above it; `room` bounds the steps. -/
def raiseStart (l : SkipList α) : (room start : Nat) → Nat
  | 0, start => start
  | room + 1, start => if (l.next (start + 1) .head).isSome then l.raiseStart room (start + 1)
      else start

def lowerStart (l : SkipList α) : (start : Nat) → Nat
  | 0 => 0
  | start + 1 => if (l.next (start + 1) .head).isSome then start + 1 else l.lowerStart start

def freeSlot (l : SkipList α) : Nat := l.slots.findIdx (·.isNone)

def occupy (l : SkipList α) (slot : Nat) (t : SkipItem α) : SkipList α :=
  { l with slots := if slot < l.slots.length then l.slots.set slot (some t)
    else l.slots ++ [some t] }

def free (l : SkipList α) (slot : Nat) : SkipList α := { l with slots := l.slots.set slot none }

/-- Puts the item of a slot between the last place before its key and what follows there. -/
def linkOn (key : UInt32) (trail : List SkipPlace) (slot : Nat) (l : SkipList α) (level : Nat) :
    SkipList α :=
  let place := l.before level key (placeOn trail level)
  (l.setNext level (.item slot) (l.next level place)).setNext level place (some slot)

def unlinkOn (key : UInt32) (trail : List SkipPlace) (slot : Nat) (l : SkipList α) (level : Nat) :
    SkipList α :=
  l.setNext level (l.before level key (placeOn trail level)) (l.next level (.item slot))

/-- Puts a new item on the lowest `levels` levels, behind the places of the search for its key. -/
def insertOn (l : SkipList α) (key : UInt32) (value : α) (levels : Nat) : SkipList α :=
  let slot := l.freeSlot
  (List.range levels).foldl (linkOn key (l.trail key) slot)
    (l.occupy slot ⟨key, value, List.replicate levels none⟩)

/-- Puts in an item whose level was drawn; the list rises by one level at most. -/
def insertDrawn (l : SkipList α) (key : UInt32) (value : α) (drawn : Nat) : SkipList α :=
  let top := if l.top < drawn && l.top < l.maxLevel then l.top + 1 else l.top
  let l := { l with top }.insertOn key value (min drawn top + 1)
  { l with start := l.raiseStart (top - l.start) l.start }

/-- Changes the value of a key that is there. -/
def setValue (l : SkipList α) (key : UInt32) (value : α) : SkipList α :=
  match l.slot? key with
  | some slot => { l with slots := l.slots.modify slot (·.map fun t => { t with value }) }
  | none => l

/-- Puts a value under a key; `update` allows to replace one that is there. How high a new item is
to stand comes from `draw`. -/
def insertBy (draw : Random → Nat × Random) (l : SkipList α) (key : UInt32) (value : Option α)
    (update : Bool) :
    Except SkipFault (SkipList α) :=
  match value with
  | none => .error .missingValue
  | some value =>
    if isReserved key then .error .reservedKey
    else if (l.slot? key).isSome then
      if update then .ok (l.setValue key value) else .error (.duplicate key)
    else
      let (drawn, random) := draw l.random
      .ok ({ l with random }.insertDrawn key value drawn)

def insert (l : SkipList α) (key : UInt32) (value : Option α) (update : Bool) :
    Except SkipFault (SkipList α) :=
  insertBy (drawLevel l.root l.maxLevel) l key value update

/-- Takes an item out of every level it stands on, from the highest, and frees its slot. -/
def delete (l : SkipList α) (key : UInt32) : SkipList α :=
  match l.slot? key with
  | none => l
  | some slot =>
    let levels := (l.linksOf (.item slot)).length
    let l := ((List.range levels).reverse.foldl (unlinkOn key (l.trail key) slot) l).free slot
    { l with start := l.lowerStart l.start }

/-- All items, each found behind the key of the one before; `fuel` bounds their number. -/
def listFrom (l : SkipList α) : (fuel : Nat) → (key : UInt32) → List (SkipItem α)
  | 0, _ => []
  | fuel + 1, key =>
    match l.next? key with
    | some t => t :: l.listFrom fuel t.key
    | none => []

def toList (l : SkipList α) : List (SkipItem α) := l.listFrom l.slots.length 0

end SkipList

end TemplateKit
