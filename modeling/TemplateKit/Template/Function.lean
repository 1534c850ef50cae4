import TemplateKit.Failure

/-!
# Functions of templates

A function has a name, a number of arguments and a body. The body is one of the built-in ones, a
filter of texts, or a function of a text and a number that the host supplies. An escaping function
marks its result as safe to write.
-/

namespace TemplateKit

/-- What the built-in functions compute. -/
inductive Builtin where
  | subcount
  | name
  | first
  | last
  | abs
  | max
  | min
  | find
  | slice
  | length
  | crc
  | lower
deriving DecidableEq, Repr

/-- What a function computes. A function of the host's own has a key, as functions of texts and
numbers cannot be compared: two of them are the same function if they have the same key. -/
inductive FunctionBody where
  | builtin (b : Builtin)
  | filter (apply : Bytes → Bytes)
  | textAndNumber (apply : Bytes → Int64 → Bytes) (key : Nat := 0)

namespace FunctionBody

/-- Registration tells bodies apart by what evaluates them. One evaluator serves all filters, and
every function of the host's own is its own evaluator. -/
def sameEvaluator : FunctionBody → FunctionBody → Bool
  | builtin a, builtin b => a == b
  | filter _, filter _ => true
  | textAndNumber _ key, textAndNumber _ key' => key == key'
  | _, _ => false

end FunctionBody

/-- A function under its name. The number of arguments is checked where a call is parsed. -/
structure Function where
  name : Bytes
  arity : Nat
  escaping : Bool
  body : FunctionBody

namespace Function

/-- The functions that every template has, the latest first. -/
def builtins : List Function :=
  [ (ascii "len", 1, .subcount), (ascii "subcount", 1, .subcount), (ascii "name", 1, .name),
    (ascii "first", 1, .first), (ascii "last", 1, .last), (ascii "abs", 1, .abs),
    (ascii "max", 2, .max), (ascii "min", 2, .min), (ascii "string.find", 2, .find),
    (ascii "string.slice", 3, .slice), (ascii "string.length", 1, .length),
    (ascii "string.crc", 1, .crc), (ascii "string.tolower", 1, Builtin.lower) ].reverse.map
    fun (name, arity, b) => ⟨name, arity, false, .builtin b⟩

/-- The function that a name calls: the one registered last. -/
def find? (fs : List Function) (name : Bytes) : Option Function := fs.find? (·.name == name)

/-- Adds a function, unless its name already belongs to one with another evaluator. -/
def register (fs : List Function) (f : Function) : Except Failure (List Function) :=
  if fs.any fun g => g.name == f.name && !g.body.sameEvaluator f.body then
    .error (.raise .duplicate ("Attempt to register duplicate function " ++ f.name))
  else .ok (f :: fs)

/-- Adds functions one after the other, up to the first that is refused. -/
def registerAll (fs : List Function) : List Function → Except Failure (List Function)
  | [] => .ok fs
  | f :: more => do registerAll (← register fs f) more

end Function

end TemplateKit
