import TemplateKit.Data.Lookup

/-!
# Sorting children

The children of one node are put into another order; nothing else changes. Equal keys are told apart
by name, so every order is total.
-/

namespace TemplateKit

/-- The orders that children can be sorted by. -/
inductive NodeOrder where
  | name
  | nameReversed
  | value
  | number
deriving DecidableEq, Repr

namespace NodeOrder

/-- Compares two nodes; equal values are ordered by the names. -/
def compare (root : Node) (o : NodeOrder) (a b : Node) : Ordering :=
  let value (n : Node) := (root.valueOf n).getD []
  match o with
  | name => Bytes.compare a.name b.name
  | nameReversed => Bytes.compare b.name a.name
  | NodeOrder.value => (Bytes.compare (value a) (value b)).then (Bytes.compare a.name b.name)
  | number =>
    (Ord.compare (Numeral.toInt32 (value a)).toInt (Numeral.toInt32 (value b)).toInt).then
      (Bytes.compare a.name b.name)

end NodeOrder

namespace Node

def sortWith (root : Node) (start : Address) (le : Node → Node → Bool) : Node :=
  root.modify start fun n => { n with children := n.children.mergeSort le }

end Node

end TemplateKit
