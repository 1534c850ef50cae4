import TemplateKit.Failure

/-!
# Splitting

A text is cut at the occurrences of a separator, found from the left and not overlapping, at most a
given number of times. The last piece is what is left.
-/

namespace TemplateKit

/-- A text cannot be split at the empty text. -/
inductive SplitFault where
  | emptySeparator

namespace SplitFault

def message : SplitFault → Bytes
  | emptySeparator => "separator must be at least one character"

def failure (e : SplitFault) : Failure := .raise .assertion e.message

end SplitFault

namespace Bytes

/-- The pieces of `s`, cut `cuts` times at most; `fuel` bounds the pieces as well. -/
def piecesOf (sep : Bytes) : (fuel cuts : Nat) → Bytes → List Bytes
  | 0, _, s => [s]
  | _, 0, s => [s]
  | fuel + 1, cuts + 1, s =>
    match find? sep s with
    | some at' => s.take at' :: piecesOf sep fuel cuts (s.drop (at' + sep.length))
    | none => [s]

def splitOn (sep : Bytes) (cuts : Nat) (s : Bytes) : Except SplitFault (List Bytes) :=
  if sep.isEmpty then .error .emptySeparator else .ok (piecesOf sep s.length cuts s)

end Bytes

end TemplateKit
