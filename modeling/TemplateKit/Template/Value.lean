import TemplateKit.Template.Scope

/-!
# Values of expressions

An expression has a text, a number or a name for its value. A name is looked up only when its value
is asked for, so that it can also be assigned to. Every value can be read as a text, a number or a
truth value.
-/

namespace TemplateKit

/-- What an expression gives. Names are looked up only when their value is needed. -/
inductive Value where
  | text (s : Option Bytes) (trust : Trust)
  /-- A number; one that was written in the template keeps the way it was written. -/
  | number (n : Int64) (written : Option Bytes)
  | name (s : Bytes)
  | numberName (s : Bytes)

namespace Value

/-- The value as it stands, without looking up a name. -/
def shown : Value → Option Bytes
  | text s _ => s
  | number _ written => written
  | name s | numberName s => some s

def isNumeric : Value → Bool
  | number _ _ | numberName _ => true
  | _ => false

def ofBool (b : Bool) : Value := number (if b then 1 else 0) none

/-- The text of a value; numbers have none. -/
def asText : Value → StateM Scope (Option Bytes × Trust)
  | text s trust => pure (s, trust)
  | name s => Scope.value s
  | _ => pure (none, .untrusted)

/-- The number of a value. -/
def asNumber : Value → StateM Scope Int64
  | text s _ => pure ((s.map Numeral.toInt64Announced).getD 0)
  | number n _ => pure n
  | name s | numberName s => Scope.int s

/-- A text is true when it is there and not empty, unless it is a numeral, which is taken as a
number. -/
def truthOfText (s : Option Bytes) : Int64 :=
  match s with
  | none | some [] => 0
  | some s =>
    match Numeral.read? true s with
    | some (n, []) => n
    | _ => 1

/-- The number that a condition looks at: a text is true unless it reads as zero or is empty. -/
def asTruth : Value → StateM Scope Int64
  | text s _ => pure (truthOfText s)
  | name s => do return truthOfText (← Scope.value s).1
  | number n _ => pure n
  | numberName s => Scope.int s

/-- The text that functions work on; numbers are written out. -/
def asWritten : Value → StateM Scope (Option Bytes)
  | text s _ => pure s
  | name s => do return (← Scope.value s).1
  | v => do return some (Numeral.ofInt (← v.asNumber).toInt)

end Value

end TemplateKit
