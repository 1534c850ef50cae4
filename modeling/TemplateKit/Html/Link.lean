import TemplateKit.Bytes.Basic

/-!
# Links in plain text

A URL starts with a known scheme or with `www.` and runs up to a blank or one of a few other bytes.
A mail address is a local part, an at sign and a domain with an inner dot. The first link is the one
that starts first, and it is as long as it can be.
-/

namespace TemplateKit

/-- What is made a link. -/
inductive LinkKind where
  | url
  | mail
deriving DecidableEq, Repr

/-- A link and where in the text it stands. -/
structure Link where
  kind : LinkKind
  start : Nat
  stop : Nat
deriving DecidableEq, Repr

namespace Link

def schemes : List Bytes := ["http:", "https:", "ftp:", "mailto:"]

def host : Bytes := "www."

def inUrl (b : UInt8) : Bool := !Ascii.isSpace b && b != '>' && b != '"'

def inHostUrl (b : UInt8) : Bool := inUrl b && b != ';'

def inHostName (b : UInt8) : Bool := Ascii.isAlnum b || (ascii "-.\\").elem b

/-- How long the URL at the front of a text is: with a scheme, or a host by its name. -/
def urlLength? (s : Bytes) : Option Nat :=
  match schemes.find? (Bytes.startsWithNoCase · s) with
  | some scheme => some (scheme.length + ((s.drop scheme.length).takeWhile inUrl).length)
  | none =>
    let rest := s.drop host.length
    if Bytes.startsWithNoCase host s && rest.head?.any inHostName then
      some (host.length + (rest.takeWhile inHostUrl).length)
    else none

def inLocal (b : UInt8) : Bool :=
  !(ascii "][@:;<>\\\"()").elem b && !Ascii.isSpace b && !Ascii.isControl b

def inLabel (b : UInt8) : Bool := Ascii.isAlnum b || b == '-' || b == '+'

def inDomain (b : UInt8) : Bool := inLabel b || b == '.' || b == '\\'

/-- The length of a domain at the front of a text: a label, a dot, and at least two more bytes of
which the last is in a label. -/
def domainLength? (s : Bytes) : Option Nat :=
  let name := ((s.takeWhile inDomain).reverse.dropWhile (!inLabel ·)).reverse
  let first := (name.takeWhile inLabel).length
  if 0 < first ∧ first + 3 ≤ name.length ∧ name[first]? =
    some '.'.toUInt8 then some name.length else none

/-- How long the address at the front of a text is. -/
def mailLength? (s : Bytes) : Option Nat :=
  let user := s.takeWhile inLocal
  match s.drop user.length with
  | b :: rest =>
    if b == '@' && !user.isEmpty then (domainLength? rest).map (user.length + 1 + ·) else none
  | [] => none

def length? : LinkKind → Bytes → Option Nat
  | .url => urlLength?
  | .mail => mailLength?

/-- Where the first link of a kind starts and stops. -/
def find? (kind : LinkKind) : Bytes → Option (Nat × Nat)
  | [] => none
  | b :: s =>
    match length? kind (b :: s) with
    | some n => some (0, n)
    | none => (find? kind s).map fun (start, stop) => (start + 1, stop + 1)

def earlier : Option Link → Option Link → Option Link
  | some u, some m => if u.start ≤ m.start then some u else some m
  | u, m => u.or m

section Search

variable (search : LinkKind → Bytes → Option (Nat × Nat))

def next? (kind : LinkKind) (s : Bytes) (offset : Nat) : Option Link :=
  (search kind (s.drop offset)).map fun range => ⟨kind, offset + range.1, offset + range.2⟩

/-- The first link of a kind from an offset on, if the one known before has been passed. -/
def refresh (kind : LinkKind) (s : Bytes) (offset : Nat) (known : Option Link) : Option Link :=
  match known with
  | none => none
  | some l => if l.start < offset then next? search kind s offset else some l

/-- The links of a text in order, given the next URL and the next mail address. The byte behind a
link is in no other link. -/
def collect (s : Bytes) : (fuel : Nat) → (url mail : Option Link) → List Link
  | 0, _, _ => []
  | fuel + 1, url, mail =>
    match earlier url mail with
    | none => []
    | some l =>
      let offset := l.stop + 1
      if offset < s.length then
        l :: collect s fuel (refresh search .url s offset url) (refresh search .mail s offset mail)
      else [l]

def all (s : Bytes) : List Link :=
  collect search s (s.length + 1) (next? search .url s 0) (next? search .mail s 0)

end Search

end Link

end TemplateKit
