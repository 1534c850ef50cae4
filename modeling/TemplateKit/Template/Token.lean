import TemplateKit.Template.Expr

/-!
# Tokens of expressions

An expression text is cut into operators and operands. A sign right behind an operator belongs to a
number. Operands know where they end in the text.
-/

namespace TemplateKit

/-- The signs of expressions. -/
inductive Op where
  | le
  | ge
  | eq
  | ne
  | or
  | and
  | not
  | present
  | lt
  | gt
  | add
  | sub
  | mul
  | div
  | mod
  | leftParen
  | rightParen
  | leftBracket
  | rightBracket
  | dot
  | comma
deriving DecidableEq, Repr

/-- What an operand is, told from its beginning. -/
inductive Operand where
  | text
  | number
  | name
  | numberName
deriving DecidableEq, Repr

/-- A sign, or an operand with the place behind it. -/
inductive Token where
  | op (o : Op)
  | operand (kind : Operand) (text : Bytes) (stop : Nat)
deriving DecidableEq, Repr

namespace Op

/-- The signs as they are written, longer ones before their beginnings. -/
def written : List (Bytes × Op) :=
  [("<=", .le), (">=", .ge), ("==", .eq), ("!=", .ne), ("||", .or),
    ("&&", .and), ("!", .not), ("?", .present), ("<", .lt), (">", .gt),
    ("+", .add), ("-", .sub), ("*", .mul), ("/", .div), ("%", .mod),
    ("(", .leftParen), (")", .rightParen), ("[", .leftBracket),
    ("]", .rightBracket), (".", .dot), (",", .comma)]

def text (o : Op) : Bytes := ((written.find? (·.2 = o)).map (·.1)).getD []

def scan? (s : Bytes) : Option (Op × Bytes) :=
  written.findSome? fun (w, o) => (Bytes.dropPrefix? w s).map fun rest => (o, rest)

end Op

/-- Why an expression cannot be read. -/
inductive ExprFault where
  | missingAfterHash (rest : Bytes)
  | missingAfterDollar (rest : Bytes)
  | missingName (rest : Bytes)
  | unclosedText (rest : Bytes)
  | tooManyTokens (text : Bytes)
  | empty
  | notOperand (o : Op)
  | missingLeftParen
  | missingRightParen
  | missingLeftBracket
  | missingRightBracket
  | notAssignable (what : Bytes)
  | unknownFunction (name : Bytes)
  | argumentCount (name : Bytes) (expected got : Nat)
  | malformed (tokens : List Token)

namespace Token

def limit : Nat := 256

/-- The kind of an operand in listings. -/
def operandLetter : Operand → Bytes
  | .text => "s"
  | .number => "n"
  | .name => "v"
  | .numberName => "vn"

def letter : Token → Bytes
  | op o => o.text
  | operand kind _ _ => operandLetter kind

/-- The tokens in messages, cut off at a limit. -/
def showAll (ts : List Token) : Bytes :=
  let piece (t : Token) (k : Nat) : Bytes :=
    (if k = 0 then [] else ascii "  ") ++ Numeral.ofNat k ++ ascii ":" ++ t.letter ++
      match t with
      | op _ => []
      | operand _ text _ => ascii ":'" ++ text ++ ascii "'"
  ((ts.zipIdx).flatMap fun (t, k) => piece t k).take 255

def endsName (b : UInt8) : Bool := (ascii "\"?<>=!#-+|&,)*/%[]( \t\r\n").elem b

/-- A text up to the quote that ends it. -/
def scanText (quote : UInt8) (s : Bytes) : Except ExprFault (Operand × Bytes × Bytes) :=
  match s.cutAt (· == quote) with
  | (text, some rest) => .ok (.text, text, rest)
  | (_, none) => .error (.unclosedText s)

/-- A name up to the byte that ends it; one must follow unless the text is over. -/
def scanName (kind : Operand) (fault : ExprFault) (s : Bytes) :
    Except ExprFault (Operand × Bytes × Bytes) :=
  let name := s.takeWhile (!endsName ·)
  if name.isEmpty && !s.isEmpty then .error fault else .ok (kind, name, s.drop name.length)

/-- The operand at the front of a text. -/
def scanOperand (s : Bytes) : Except ExprFault (Operand × Bytes × Bytes) :=
  match s with
  | 35 :: s =>
    match Numeral.read? true s with
    | some (_, rest) => .ok (.number, s.take (s.length - rest.length), rest)
    | none => scanName .numberName (.missingAfterHash s) s
  | 34 :: s => scanText 34 s
  | 39 :: s => scanText 39 s
  | 36 :: s => scanName .name (.missingAfterDollar s) s
  | s =>
    let name := s.takeWhile (!endsName ·)
    match Numeral.read? true s with
    | some (_, rest) =>
      let size := s.length - rest.length
      if name.length = s.length ∨ name.length ≤ size then .ok (.number, s.take size, rest)
      else scanName .name (.missingName s) s
    | none => scanName .name (.missingName s) s

/-- Does the token let a sign belong to a number that follows? Closing ones leave that as it was. -/
def afterOperator (before : Bool) : Token → Bool
  | op .rightParen | op .rightBracket => before
  | op _ => true
  | operand _ _ _ => false

/-- The token at the front of a text. Behind a sign, plus and minus belong to a number. -/
def scanOne (size : Nat) (afterOp : Bool) (s : Bytes) : Except ExprFault (Token × Bytes) :=
  let sign := s.head? = some '+'.toUInt8 || s.head? = some '-'.toUInt8
  match (if afterOp && sign then none else Op.scan? s) with
  | some (o, rest) => .ok (.op o, rest)
  | none => do
    let (kind, text, rest) ← scanOperand s
    let closing := if kind = .text then 1 else 0
    pure (.operand kind text (size - rest.length - closing), rest)

/-- The tokens of a text, up to a limit. -/
def scanAll (whole : Bytes) : (fuel count : Nat) → (afterOp : Bool) → Bytes →
    Except ExprFault (List Token)
  | 0, _, _, _ => .ok []
  | fuel + 1, count, afterOp, s =>
    let s := s.stripLeft
    if s.isEmpty then .ok []
    else do
      let (t, rest) ← scanOne whole.length afterOp s
      if count + 1 ≥ limit then .error (.tooManyTokens whole)
      else return t :: (← scanAll whole fuel (count + 1) (t.afterOperator afterOp) rest)

def scan (s : Bytes) : Except ExprFault (List Token) := scanAll s (s.length + 1) 0 true s

end Token

namespace ExprFault

/-- The text of the fault. -/
def message : ExprFault → Bytes
  | missingAfterHash rest => "Missing varname/number after #: " ++ rest
  | missingAfterDollar rest => "Missing varname after $: " ++ rest
  | missingName rest => "Var arg specified with no varname: " ++ rest
  | unclosedText rest => "Missing end of string: " ++ rest
  | tooManyTokens text =>
    "Expression exceeds maximum number of tokens of " ++ Numeral.ofNat Token.limit ++ ": " ++ text
  | empty => "Bad Expression"
  | notOperand o => "Terminal token is not an argument, type is " ++ o.text
  | missingLeftParen => "Missing left parenthesis in expression"
  | missingRightParen => "Missing right parenthesis in expression"
  | missingLeftBracket => "Missing left bracket in expression"
  | missingRightBracket => "Missing right bracket in expression"
  | notAssignable what => "Invalid op '" ++ what ++ "' in lvalue"
  | unknownFunction name => "Unknown function " ++ name ++ " called"
  | argumentCount name expected got =>
    "Incorrect number of arguments in call to " ++ name ++ ", expected " ++
      Numeral.ofNat expected ++ ", got " ++ Numeral.ofNat got
  | malformed tokens => "Bad Expression:" ++ Token.showAll tokens

end ExprFault

end TemplateKit
