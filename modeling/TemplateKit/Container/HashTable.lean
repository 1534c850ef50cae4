import TemplateKit.Checksum
import TemplateKit.Failure

/-!
# Hash tables

Entries are kept in buckets by the low bits of their hash. The table doubles its buckets as soon as
there were as many insertions, less removals, as there are buckets; replacing a value counts as an
insertion. Both numbers have 32 bits, so a table of 2^31 buckets cannot be doubled: the insertion
that would need it fails.
-/

namespace TemplateKit

/-- How keys are hashed and compared. -/
structure Keying (κ : Type) where
  hash : κ → UInt32
  same : κ → κ → Bool

namespace Keying

def text : Keying Bytes := ⟨Checksum.crc, (· == ·)⟩

def integer : Keying Int := ⟨fun n => UInt32.ofNat (n % 0x100000000).toNat, (· == ·)⟩

end Keying

/-- A value under its key, whose hash is kept for the doublings to come. -/
structure HashEntry (κ ν : Type) where
  hash : UInt32
  key : κ
  value : ν

/-- A table: entries in buckets, each bucket in the order of insertion up to the last doubling. -/
structure HashTable (κ ν : Type) where
  keying : Keying κ
  buckets : Array (List (HashEntry κ ν))
  /-- Insertions less removals. -/
  counter : UInt32

namespace HashTable

variable {κ ν : Type}

def empty (keying : Keying κ) : HashTable κ ν := ⟨keying, Array.replicate 256 [], 0⟩

def count (t : HashTable κ ν) : Nat := t.counter.toNat

def size (t : HashTable κ ν) : Nat := t.buckets.size

/-- The bucket of a hash: as many of its bits as tell the buckets apart. -/
def slot (t : HashTable κ ν) (hash : UInt32) : Nat := hash.toNat &&& (t.size - 1)

def bucketOf (t : HashTable κ ν) (key : κ) : Nat := t.slot (t.keying.hash key)

def bucket (t : HashTable κ ν) (key : κ) : List (HashEntry κ ν) :=
  t.buckets.getD (t.bucketOf key) []

def setBucket (t : HashTable κ ν) (key : κ) (entries : List (HashEntry κ ν)) : HashTable κ ν :=
  { t with buckets := t.buckets.setIfInBounds (t.bucketOf key) entries }

/-- The value under a key: that of the first entry of its bucket with the same key. -/
def lookup (t : HashTable κ ν) (key : κ) : Option ν :=
  ((t.bucket key).find? fun e => t.keying.same e.key key).map (·.value)

def hasKey (t : HashTable κ ν) (key : κ) : Bool := (t.lookup key).isSome

/-- Goes along a bucket. Entries that do not stay are taken out, and each is put in front of those
that were taken out before. -/
def divide (stays : HashEntry κ ν → Bool) :
    (entries moved : List (HashEntry κ ν)) → List (HashEntry κ ν) × List (HashEntry κ ν)
  | [], moved => ([], moved)
  | e :: more, moved =>
    if stays e then
      let (kept, moved) := divide stays more moved
      (e :: kept, moved)
    else divide stays more (e :: moved)

/-- Twice as many buckets. By one more bit of its hash an entry stays or moves up by the former
size. -/
def double (t : HashTable κ ν) : HashTable κ ν :=
  let mask := 2 * t.size - 1
  let divided := t.buckets.mapIdx fun k entries =>
    divide (fun e => (e.hash.toNat &&& mask) == k) entries []
  { t with buckets := divided.map (·.1) ++ divided.map (·.2) }

/-- A bucket with a new entry at its end, or with the value of the entry that has the key replaced.
-/
def putEntry (same : κ → Bool) (new : HashEntry κ ν) : List (HashEntry κ ν) → List (HashEntry κ ν)
  | [] => [new]
  | e :: more => if same e.key then { e with value := new.value } :: more
      else e :: putEntry same new more

/-- Puts a value under a key, and counts this as an insertion. -/
def store (t : HashTable κ ν) (key : κ) (value : ν) : HashTable κ ν :=
  let entries := putEntry (t.keying.same · key) ⟨t.keying.hash key, key, value⟩ (t.bucket key)
  { t.setBucket key entries with counter := t.counter + 1 }

/-- Doubles a table that has counted as many insertions as it has buckets, if the number of buckets
has room for it. -/
def grow (t : HashTable κ ν) : Except Failure (HashTable κ ν) :=
  if t.size > t.count then .ok t
  else if 2 * t.size < 0x100000000 then .ok t.double
  else .error (.raise .memory "Unable to allocate memory to resize NE_HASH")

def insert? (t : HashTable κ ν) (key : κ) (value : ν) : Except Failure (HashTable κ ν) :=
  (t.store key value).grow

/-- An insertion by one who does not look at its failure. -/
def insert (t : HashTable κ ν) (key : κ) (value : ν) : HashTable κ ν :=
  ((t.insert? key value).toOption).getD (t.store key value)

def eraseEntry (same : κ → Bool) : List (HashEntry κ ν) → List (HashEntry κ ν)
  | [] => []
  | e :: more => if same e.key then more else e :: eraseEntry same more

/-- Takes out the entry of a key. Only a removal of what is there is counted. -/
def remove (t : HashTable κ ν) (key : κ) : Option ν × HashTable κ ν :=
  match t.lookup key with
  | none => (none, t)
  | some value =>
    (some value, { t.setBucket key (eraseEntry (t.keying.same · key) (t.bucket key)) with
      counter := t.counter - 1 })

/-- The first entry of the next `room` buckets. -/
def firstWithin (t : HashTable κ ν) : (room i : Nat) → Option (HashEntry κ ν)
  | 0, _ => none
  | room + 1, i =>
    match t.buckets.getD i [] with
    | e :: _ => some e
    | [] => t.firstWithin room (i + 1)

def firstFrom (t : HashTable κ ν) (i : Nat) : Option (HashEntry κ ν) := t.firstWithin (t.size - i) i

/-- The first entry, or the one behind that of a key. A key that is not there is taken to stand in
front of its bucket. -/
def next? (t : HashTable κ ν) : Option κ → Option (HashEntry κ ν)
  | none => t.firstFrom 0
  | some key =>
    match (t.bucket key).dropWhile fun e => !t.keying.same e.key key with
    | [] => t.firstFrom (t.bucketOf key)
    | [e] => t.firstFrom (t.slot e.hash + 1)
    | _ :: e :: _ => some e

/-- A walk from behind a key, of so many steps at most. -/
def listFrom (t : HashTable κ ν) : (fuel : Nat) → Option κ → List (HashEntry κ ν)
  | 0, _ => []
  | fuel + 1, key =>
    match t.next? key with
    | some e => e :: t.listFrom fuel (some e.key)
    | none => []

def entryCount (t : HashTable κ ν) : Nat := t.buckets.foldl (fun n entries => n + entries.length) 0

def toList (t : HashTable κ ν) : List (HashEntry κ ν) := t.listFrom t.entryCount none

def values (t : HashTable κ ν) : List ν := t.toList.map (·.value)

end HashTable

end TemplateKit
