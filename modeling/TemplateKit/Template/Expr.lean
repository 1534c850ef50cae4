import TemplateKit.Template.Function

/-!
# Expressions of templates
-/

namespace TemplateKit

/-- What stands in front of one operand. -/
inductive UnaryOp where
  | not
  | present
deriving DecidableEq, Repr

/-- What stands between two operands. -/
inductive BinaryOp where
  | or
  | and
  | eq
  | ne
  | gt
  | ge
  | lt
  | le
  | add
  | sub
  | mul
  | div
  | mod
deriving DecidableEq, Repr

/-- Expressions as they are read. Parentheses are kept, since listings show them. -/
inductive Expr where
  | text (s : Bytes)
  | number (n : Int64) (written : Bytes)
  | name (s : Bytes)
  | numberName (s : Bytes)
  | unary (op : UnaryOp) (e : Expr)
  | paren (e : Expr)
  | binary (op : BinaryOp) (a b : Expr)
  | index (a b : Expr)
  | member (a b : Expr)
  /-- A list; its value is that of the last element. -/
  | comma (last before : Expr)
  | call (f : Function) (args : List Expr)

namespace Expr

def elements : Expr → List Expr
  | comma last before => elements before ++ [last]
  | e => [e]

mutual

/-- Does an expression call a function that escapes by itself? -/
def callsEscaper (e : Expr) : Bool :=
  match e with
  | unary _ e | paren e => callsEscaper e
  | binary _ a b | index a b | member a b | comma a b => callsEscaper a || callsEscaper b
  | call f args => f.escaping || anyCallsEscaper args
  | _ => false

/-- Does one of the expressions call a function that escapes by itself? -/
def anyCallsEscaper (es : List Expr) : Bool :=
  match es with
  | [] => false
  | e :: rest => callsEscaper e || anyCallsEscaper rest

end

end Expr

end TemplateKit
