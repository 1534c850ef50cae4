import TemplateKit.Checksum
import TemplateKit.Template.Expr
import TemplateKit.Template.Value

/-!
# Evaluating expressions

Every part of an expression is evaluated. Two values are joined as numbers if the operator needs
numbers or one of them is one, and as texts otherwise. Arithmetic is that of 64 bits, and a result
that does not fit is an error.
-/

namespace TemplateKit

/-- An operation whose result leaves the range of numbers. -/
structure Overflow where
  a : Int64
  op : BinaryOp
  b : Int64

namespace Overflow

/-- The operation in messages. -/
def sign : BinaryOp → Bytes
  | .add => "+"
  | .sub => "-"
  | .mul => "*"
  | .div => "/"
  | _ => "%"

def failure (o : Overflow) : Failure :=
  .raise .range (Numeral.ofInt o.a.toInt ++ " " ++ sign o.op ++ " " ++
    Numeral.ofInt o.b.toInt ++ " overflows")

end Overflow

/-- Evaluation changes the scope only in what local variables remember. -/
abbrev Eval := ExceptT Overflow (StateM Scope)

namespace BinaryOp

def quotientByZero : Int64 := 4294967295

def needsNumbers : BinaryOp → Bool
  | sub | mul | div | mod | gt | ge | lt | le => true
  | _ => false

def sumLeaves (a b : Int64) : Bool :=
  (0 < b && Int64.maxValue - b < a) || (b < 0 && a < Int64.minValue - b)

def differenceLeaves (a b : Int64) : Bool :=
  (0 < b && a < Int64.minValue + b) || (b < 0 && Int64.maxValue + b < a)

/-- Does a product leave the range of numbers? It is told without multiplying. -/
def productLeaves (a b : Int64) : Bool :=
  if 0 < a then if 0 < b then Int64.maxValue / b < a else b < Int64.minValue / a
  else if 0 < b then a < Int64.minValue / b
  else a != 0 && b < Int64.maxValue / a

def quotientLeaves (a b : Int64) : Bool := a == Int64.minValue && b == -1

/-- A result, unless it leaves the range; that is known before it is computed. -/
def guarded (op : BinaryOp) (a b : Int64) (leaves : Bool) (n : Int64) : Except Overflow Int64 :=
  if leaves then .error ⟨a, op, b⟩ else .ok n

/-- An operation on numbers. -/
def onNumbers (op : BinaryOp) (a b : Int64) : Except Overflow Int64 :=
  let holds (p : Bool) : Except Overflow Int64 := .ok (if p then 1 else 0)
  match op with
  | or => holds (a != 0 || b != 0)
  | and => holds (a != 0 && b != 0)
  | eq => holds (a == b)
  | ne => holds (a != b)
  | gt => holds (b < a)
  | ge => holds (b ≤ a)
  | lt => holds (a < b)
  | le => holds (a ≤ b)
  | add => guarded op a b (sumLeaves a b) (a + b)
  | sub => guarded op a b (differenceLeaves a b) (a - b)
  | mul => guarded op a b (productLeaves a b) (a * b)
  | div => if b = 0 then .ok quotientByZero else guarded op a b (quotientLeaves a b) (a / b)
  | mod => if b = 0 then .ok 0 else guarded op a b (quotientLeaves a b) (a % b)

/-- Texts are compared or put together; an absent one adds nothing. -/
def onTexts (op : BinaryOp) (a b : Option Bytes × Trust) : Value :=
  match op with
  | eq => .ofBool (a.1 == b.1)
  | ne => .ofBool (a.1 != b.1)
  | _ =>
    match a, b with
    | (none, _), (s, trust) => .text s trust
    | (some s, trust), (none, _) => .text (some s) trust
    | (some s, t), (some s', t') => .text (some (s ++ s')) (t.join t')

end BinaryOp

/-- The part of a text between two offsets; negative ones count from the end, where a start that
does so makes a zero mean the end. -/
def Bytes.slice (s : Bytes) (start stop : Int) : Bytes :=
  let len : Int := s.length
  let stop := if start < 0 ∧ stop = 0 then len else stop
  let fromEnd (k : Int) : Int := min len (max 0 (if k < 0 then k + len else k))
  let start := (fromEnd start).toNat
  let stop := (fromEnd stop).toNat
  (s.take stop).drop start

namespace Builtin

/-- The node that a value names, with the root of its tree. -/
def nodeOf (v : Value) : StateM Scope (Option (Node × Node)) := do
  match v with
  | .name s =>
    let place ← Scope.findPlace s
    return place.bind (← get).at?
  | _ => return none

/-- The local variable that a value names; one with a dot names none. -/
def localOf (v : Value) : StateM Scope (Option Local) := do
  match v with
  | .name s => if s.elem dot then return none else return (← get).local? s
  | _ => return none

def count (n : Nat) : Value := .number (Int64.ofInt n) none

def childCount (root n : Node) : Nat :=
  ((root.childrenOf ⟨[], n⟩).map (·.node.children.length)).getD 0

def properText (v : Value) : StateM Scope (Option Bytes) := do
  if v.isNumeric then return none else return (← v.asText).1

/-- Is the variable the last of its sequence? One that stands for a node is if the node has no
sibling behind it. -/
def isLast (l : Local) : StateM Scope Bool := do
  match l.isLast, l.binding with
  | true, _ => return true
  | false, .node place _ _ =>
    let s ← get
    let next := do
      let p ← place
      let root ← s.tree? p.tree
      root.next? p.address
    return next.isNone
  | false, _ => return false

/-- What a function that needs the scope gives for its arguments. -/
def apply (b : Builtin) (args : List Value) : StateM Scope Value := do
  match b, args with
  | subcount, [v] =>
    match ← nodeOf v with
    | some (root, n) => return count (childCount root n)
    | none => return count 0
  | name, [v] =>
    match v with
    | .text s _ => return .text s .untrusted
    | v =>
      match ← nodeOf v with
      | some (_, n) => return .text n.name? .untrusted
      | none => return .text (some []) .untrusted
  | first, [v] => return .ofBool ((← localOf v).any (·.isFirst))
  | last, [v] =>
    match ← localOf v with
    | some l => return .ofBool (← isLast l)
    | none => return .ofBool false
  | abs, [v] =>
    let n := (← v.asNumber).toInt32
    return .number (if n < 0 then -n else n).toInt64 none
  | max, [v, w] =>
    let n ← v.asNumber
    let m ← w.asNumber
    return .number (if m < n then n else m) none
  | min, [v, w] =>
    let n ← v.asNumber
    let m ← w.asNumber
    return .number (if n < m then n else m) none
  | find, [v, w] =>
    let s ← v.asWritten
    let p ← w.asWritten
    return .number (Int64.ofInt
      (((s.bind fun s => p.bind fun p => Bytes.find? p s).map Int.ofNat).getD (-1))) none
  | slice, [v, w, x] =>
    let s ← v.asWritten
    let start ← w.asNumber
    let stop ← x.asNumber
    return .text (some ((s.map fun s => Bytes.slice s start.toInt stop.toInt).getD [])) .untrusted
  | length, [v] => return count (((← properText v).map List.length).getD 0)
  | crc, [v] =>
    let sum := (← properText v).map fun s => (Checksum.crc s).toInt32.toInt64
    return .number (sum.getD 0) none
  | lower, [v] => return .text (some (((← v.asWritten).map Bytes.lower).getD [])) .untrusted
  | _, _ => return .number 0 none

end Builtin

/-- A filter leaves numbers as they are. -/
def FunctionBody.apply (body : FunctionBody) (args : List Value) : StateM Scope Value := do
  match body, args with
  | builtin b, args => b.apply args
  | filter f, [v] =>
    if v.isNumeric then return v else return .text ((← v.asText).1.map f) .untrusted
  | textAndNumber f _, [v, w] =>
    let s ← v.asWritten
    let n ← w.asNumber
    return .text (some (f (s.getD []) n)) .untrusted
  | _, _ => return .number 0 none

namespace Function

/-- The result of an escaping function is trusted. -/
def apply (f : Function) (args : List Value) : StateM Scope Value := do
  match f.escaping, ← f.body.apply args with
  | true, .text s _ => return .text s .trusted
  | _, v => return v

end Function

namespace Expr

/-- The name of a member; without a key there is no name. -/
def memberName (a : Value) (key : Option Bytes) : Value :=
  match key with
  | none | some [] => .name []
  | some key => .name (orNull a.shown ++ dot :: key)

/-- What a bracket holds selects a member by its value. -/
def select (a b : Value) : StateM Scope Value := do
  match b with
  | .number _ _ | .numberName _ =>
    return .name (orNull a.shown ++ dot :: Numeral.ofInt (← b.asNumber).toInt)
  | b => return memberName a (← b.asText).1

mutual

/-- The value of an expression. A list is evaluated from its last element. -/
def eval (e : Expr) : Eval Value :=
  match e with
  | text s => pure (.text (some s) .trusted)
  | number n written => pure (.number n (some written))
  | name s => pure (.name s)
  | numberName s => pure (.numberName s)
  | paren e => e.eval
  | unary op e => do
    let v ← e.eval
    match op, v with
    | .not, v => return .ofBool ((← v.asTruth) == 0)
    | .present, .name s | .present, .numberName s => return .ofBool (← Scope.value s).1.isSome
    | .present, _ => return .ofBool true
  | comma last before => do
    let v ← last.eval
    let _ ← before.eval
    return v
  | index a b => do
    let v ← a.eval
    let w ← b.eval
    select v w
  | member a b => do
    let v ← a.eval
    let w ← b.eval
    match w with
    | .name s | .numberName s => return .name (orNull v.shown ++ dot :: s)
    | w => select v w
  | binary op a b => do
    let v ← a.eval
    let w ← b.eval
    match op with
    | .and | .or =>
      let n ← v.asTruth
      let m ← w.asTruth
      return .number (← op.onNumbers n m) none
    | op =>
      if op.needsNumbers || v.isNumeric || w.isNumeric then do
        let n ← v.asNumber
        let m ← w.asNumber
        return .number (← op.onNumbers n m) none
      else
        let s ← v.asText
        let t ← w.asText
        return op.onTexts s t
  | call f args => do
    let vs ← evalAll args
    f.apply vs

/-- The values of expressions, one after the other. -/
def evalAll (es : List Expr) : Eval (List Value) :=
  match es with
  | [] => pure []
  | e :: rest => do
    let v ← e.eval
    return v :: (← evalAll rest)

end

end Expr

end TemplateKit
