import TemplateKit.Template.Item

/-!
# Listing templates

The listing of a template has a line for each item, with its command and arguments, and shows the
two lists of items inside of it further to the right. A content type that has been in effect is
listed without the blanks behind it.
-/

namespace TemplateKit

namespace Expr

/-- A value that is written in the template is listed; anything else is not. -/
def listed : Expr → Bytes
  | number n _ => Numeral.ofInt n.toInt
  | text s | name s | numberName s => s
  | _ => orNull none

end Expr

namespace Item

def longestPiece : Nat := 4095

def blank : UInt8 := 32

/-- The arguments of an action in a listing. -/
def listedArguments (inEffect : List Nat) : Action → List Bytes
  | .literal _ | .define _ => []
  | .name s | .evar s | .escape s _ => [s ++ [blank]]
  | .contentType n s _ => [(if inEffect.elem n then s.stripRight else s) ++ [blank]]
  | .var _ arg | .lvar arg | .branch _ arg | .includeLater arg | .alt arg =>
    [arg.expr.listed ++ [blank]]
  | .each x arg | .withAs x arg => [x ++ [blank], arg.expr.listed]
  | .set target value => [target.expr.listed ++ [blank], value.expr.listed]
  | .call callee args => (callee ++ [blank]) :: args.map (·.listed ++ [blank])
  | .loop x range => (x ++ [blank]) :: range.map (·.listed ++ [blank])

def indented (depth : Nat) (s : Bytes) : Bytes :=
  (List.replicate depth blank ++ blank :: s).take longestPiece

mutual

/-- The listing of an item and of what is below it. -/
def list (inEffect : List Nat) (depth : Nat) (i : Item) : Bytes :=
  match i with
  | ⟨_, action, body, otherwise⟩ =>
    indented depth (action.word ++ [blank]) ++
      (listedArguments inEffect action).flatMap (·.take longestPiece) ++ "\n" ++
      (if body.isEmpty then [] else indented depth "Case 0\n" ++
        listAll inEffect (depth + 1) body) ++
      (if otherwise.isEmpty then [] else indented depth "Case 1\n" ++
        listAll inEffect (depth + 1) otherwise)

/-- The listing of items at one depth. -/
def listAll (inEffect : List Nat) (depth : Nat) (is : List Item) : Bytes :=
  match is with
  | [] => []
  | i :: rest => i.list inEffect depth ++ listAll inEffect depth rest

end

end Item

end TemplateKit
