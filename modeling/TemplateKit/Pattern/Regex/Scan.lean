import TemplateKit.Pattern.Regex.Automaton

/-!
# Searching without references

All matches are followed at once, through all places of the text in turn; at every place new ones
begin.
-/

namespace TemplateKit.Regex

namespace Automaton

def behind : Bytes → PlaceContext
  | [] => .textEnd
  | b :: _ => .beside b

def allowed (a : Automaton) (front : PlaceContext) (nodes : List Nat) : List Nat :=
  nodes.filter fun n => (a.node n).constraint.allowsAfter front

/-- Where a byte leads from some nodes. -/
def take (a : Automaton) (b : UInt8) (nodes : List Nat) : List Nat :=
  nodes.filterMap fun n =>
    let node := a.node n
    if node.takes b (.taken b) then some node.next else none

/-- Is there a match in the rest of a text, where `active` nodes are reached by matches that began
before, and `starts` can be reached at the beginning of one? -/
def scan (a : Automaton) (starts : List Nat) :
    (active : List Nat) → (front : PlaceContext) → Bytes → Bool
  | active, front, s =>
    let here := a.allowed front starts ++ active
    if here.any fun n => (a.node n).isStop &&
      (a.node n).constraint.allowsBefore (behind s) then true
    else
      match s with
      | [] => false
      | b :: s => scan a starts (a.allowed (.taken b) (a.reach (a.take b here))) (.beside b) s

end Automaton

end TemplateKit.Regex
