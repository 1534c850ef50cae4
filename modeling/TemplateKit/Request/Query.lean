import TemplateKit.Bytes.Numeral
import TemplateKit.Escape.Url

/-!
# Query strings

A query string is a list of names and values with equals signs between them and ampersands around
them.
-/

namespace TemplateKit

/-- A field of a query; whether it was empty is told from its encoded form. -/
structure QueryItem where
  name : Bytes
  value : Bytes
  isEmpty : Bool
deriving DecidableEq, Repr

namespace QueryItem

/-- A name that the data tree can hold: a missing one is numbered, and a leading dot is replaced. -/
def nameOf (number : Nat) : Bytes → Bytes
  | [] => '_'.toUInt8 :: Numeral.ofNat number
  | b :: s => (if b == '.' then '_' else b) :: s

/-- One field of a query, where one without a name is numbered. -/
def parse (number : Nat) (s : Bytes) : QueryItem :=
  let (name, value) := s.cutAt (· == '=')
  let value := value.getD []
  ⟨(Url.unescape (nameOf number name)).untilNul, (Url.unescape value).untilNul, value.isEmpty⟩

/-- The items of the pieces; those without a name are numbered from `number` on. -/
def parseAll : (number : Nat) → List Bytes → List QueryItem
  | _, [] => []
  | number, s :: more =>
    parse number s :: parseAll (if s.head? = some '='.toUInt8 then number + 1 else number) more

end QueryItem

def QueryItem.ofString (query : Bytes) : List QueryItem :=
  parseAll 0 ((query.splitByte '&').filter fun s => !s.isEmpty)

end TemplateKit
