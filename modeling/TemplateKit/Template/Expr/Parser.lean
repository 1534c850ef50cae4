import TemplateKit.Template.Token

/-!
# Reading expressions

Operators are looked for from the loosest binding to the tightest, and each from the right, so that
operators of one rank group to the left. Bracketed parts are passed over as wholes.

While reading, every operand that is used up is marked by the offset where it ends; these marks
matter to the counting of lines.
-/

namespace TemplateKit

namespace Op

def ranks : List (List Op) :=
  [[.comma], [.or], [.and], [.eq, .ne], [.gt, .ge, .lt, .le], [.add, .sub], [.mul, .div, .mod],
    [.not, .present], [.leftBracket, .dot, .leftParen]]

def isLeading (o : Op) : Bool := o = .not || o = .present || o = .leftParen

def isAssignable (o : Op) : Bool := o = .dot || o = .leftBracket

/-- The operation of a sign, if it is one that combines values. -/
def binary? : Op → Option BinaryOp
  | .or => some .or
  | .and => some .and
  | .eq => some .eq
  | .ne => some .ne
  | .gt => some .gt
  | .ge => some .ge
  | .lt => some .lt
  | .le => some .le
  | .add => some .add
  | .sub => some .sub
  | .mul => some .mul
  | .div => some .div
  | .mod => some .mod
  | _ => none

end Op

/-- Where an expression is taken apart: what is in front of the operator, and what is behind it. -/
structure Split where
  left : List Token
  op : Op
  right : List Token

namespace Split

/-- Passes over a bracketed part from its right end. `before` holds the tokens to the left in
reverse, `behind` those to the right; the result is what is around the opening token. -/
def passOver (opening closing : Op) : (depth : Nat) → (before behind : List Token) →
    Option (List Token × List Token)
  | _, [], _ => none
  | depth, t :: before, behind =>
    if t = .op closing then passOver opening closing (depth + 1) before (t :: behind)
    else if t = .op opening then
      if depth ≤ 1 then some (before, behind)
      else passOver opening closing (depth - 1) before (t :: behind)
    else passOver opening closing depth before (t :: behind)

/-- The last sign of a rank outside of parentheses and brackets, going back through the tokens. -/
def find (rank : List Op) (assignable : Bool) :
    (fuel : Nat) → (before behind : List Token) → Except ExprFault (Option Split)
  | 0, _, _ => .ok none
  | _ + 1, [], _ => .ok none
  | fuel + 1, t :: before, behind =>
    let consider (before : List Token) (o : Op) (behind : List Token) :
        Except ExprFault (Option Split) :=
      if assignable && !o.isAssignable then .error (.notAssignable o.text)
      else if rank.elem o && (!o.isLeading || before.isEmpty) then
        .ok (some ⟨before.reverse, o, behind⟩)
      else find rank assignable fuel before (.op o :: behind)
    match t with
    | .operand _ _ _ => find rank assignable fuel before (t :: behind)
    | .op .rightParen =>
      match passOver .leftParen .rightParen 1 before (t :: behind) with
      | none => .error .missingLeftParen
      | some (before, behind) => consider before .leftParen behind
    | .op .rightBracket =>
      match passOver .leftBracket .rightBracket 1 before (t :: behind) with
      | none => .error .missingLeftBracket
      | some ([], _) => .ok none
      | some (before, behind) => consider before .leftBracket behind
    | .op o => consider before o behind

/-- Where an expression is split: at the lowest rank that it has a sign of. -/
def first (ts : List Token) (assignable : Bool) : List (List Op) → Except ExprFault (Option Split)
  | [] => .ok none
  | rank :: more => do
    match ← find rank assignable (ts.length + 1) ts.reverse [] with
    | some s => pure (some s)
    | none => first ts assignable more

end Split

namespace Expr

/-- Reading keeps the offsets at which operands end, also when it fails. -/
abbrev Reader := ExceptT ExprFault (StateM (List Nat))

def Reader.mark (offset : Nat) : Reader Unit := modify (offset :: ·)

/-- An operand alone. -/
def ofOperand (kind : Operand) (s : Bytes) : Expr :=
  match kind with
  | .text => text s
  | .number => number (Numeral.toInt64Announced s) s
  | .name => name s
  | .numberName => numberName s

def upTo (o : Op) (ts : List Token) : Option (List Token) :=
  if ts.getLast? = some (.op o) then some ts.dropLast else none

/-- Reads an expression by splitting it where it binds least. -/
def read (fs : List Function) : (fuel : Nat) → (assignable : Bool) → List Token → Reader Expr
  | 0, _, _ => throw .empty
  | _ + 1, _, [] => throw .empty
  | _ + 1, _, [.op o] => throw (.notOperand o)
  | _ + 1, _, [.operand kind s stop] => do
    Reader.mark stop
    return ofOperand kind s
  | fuel + 1, assignable, ts => do
    match ← Split.first ts assignable Op.ranks with
    | some ⟨left, o, right⟩ =>
      match o with
      | .not => return unary .not (← read fs fuel assignable right)
      | .present => return unary .present (← read fs fuel assignable right)
      | .leftParen =>
        match upTo .rightParen right with
        | none => throw .missingRightParen
        | some inner => return paren (← read fs fuel assignable inner)
      | .comma =>
        let last ← read fs fuel assignable right
        return comma last (← read fs fuel assignable left)
      | .leftBracket =>
        match upTo .rightBracket right with
        | none => throw .missingRightBracket
        | some inner =>
          let b ← read fs fuel false inner
          return index (← read fs fuel assignable left) b
      | .dot =>
        let b ← read fs fuel assignable right
        return member (← read fs fuel assignable left) b
      | o =>
        let b ← read fs fuel assignable right
        let a ← read fs fuel assignable left
        match o.binary? with
        | some op => return binary op a b
        | none => throw (.malformed ts)
    | none =>
      match ts with
      | .operand .name f stop :: .op .leftParen :: more =>
        match upTo .rightParen more with
        | none => throw (.malformed ts)
        | some inner =>
          Reader.mark stop
          match Function.find? fs f with
          | none => throw (.unknownFunction f)
          | some g =>
            let args ← if inner.isEmpty then pure [] else elements <$> read fs fuel assignable inner
            if args.length = g.arity then return call g args
            else throw (.argumentCount f g.arity args.length)
      | _ => throw (.malformed ts)

/-- Reads an expression; one to assign to is limited to names, members and indices. -/
def parse (fs : List Function) (assignable : Bool) (s : Bytes) : Reader Expr := do
  let ts ← Token.scan s
  read fs (ts.length + 1) assignable ts

end Expr

end TemplateKit
