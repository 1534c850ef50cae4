import TemplateKit.Escape.Mode
import TemplateKit.Template.Command
import TemplateKit.Template.Expr

/-!
# Items of templates

A template is a list of items: pieces of text and commands. An item may hold two lists of items, its
body and what is rendered otherwise.
-/

namespace TemplateKit

/-- What is known about the place of a command. -/
structure Mark where
  /-- Was the command marked as one that must not fail quietly? -/
  required : Bool := false
  escape : EscapeMode := .undefined
  autoEscape : Bool := false
  /-- The file, for notes about escaping. -/
  logName : Option Bytes := none
  line : Int := 0
  column : Nat := 0
  file : Option Bytes := none

/-- An expression, and how it was written where messages show that. -/
structure Argument where
  expr : Expr
  source : Option Bytes

/-- A macro by its name and the names of its parameters. -/
structure Signature where
  name : Bytes
  params : List Bytes
deriving DecidableEq, Repr

/-- What an item of a template does, with what was read for it. -/
inductive Action where
  | literal (text : Option Bytes)
  | name (s : Bytes)
  | var (raw : Bool) (arg : Argument)
  | evar (name : Bytes)
  | lvar (arg : Argument)
  | branch (word : Command) (arg : Argument)
  | each (x : Bytes) (arg : Argument)
  | withAs (x : Bytes) (arg : Argument)
  | includeLater (arg : Argument)
  | define (signature : Signature)
  | call (callee : Bytes) (args : List Expr)
  | set (target value : Argument)
  | loop (x : Bytes) (range : List Expr)
  | alt (arg : Argument)
  | escape (mode : Bytes) (source : Option Bytes)
  /-- The content types of a template are numbered in order. -/
  | contentType (number : Nat) (type : Bytes) (source : Option Bytes)

namespace Action

/-- The command that an action came from; texts come from none. -/
def command? : Action → Option Command
  | literal _ => none
  | name _ => some .name
  | var raw _ => some (if raw then .uvar else .var)
  | evar _ => some .evar
  | lvar _ => some .lvar
  | branch word _ => some word
  | each _ _ => some .each
  | withAs _ _ => some .withAs
  | includeLater _ => some .includeLater
  | define _ => some .define
  | call _ _ => some .call
  | set _ _ => some .set
  | loop _ _ => some .loop
  | alt _ => some .alt
  | escape _ _ => some .escape
  | contentType _ _ _ => some .contentType

def code (a : Action) : Nat := (a.command?.map Command.code).getD 0

def word (a : Action) : Bytes := (a.command?.map Command.word).getD "literal"

/-- The texts of the first and second argument, where they are kept. -/
def sources : Action → Option Bytes × Option Bytes
  | var _ arg | lvar arg | branch _ arg | includeLater arg | alt arg => (arg.source, none)
  | each _ arg | withAs _ arg => (none, arg.source)
  | set target value => (target.source, value.source)
  | escape _ source | contentType _ _ source => (source, none)
  | _ => (none, none)

end Action

/-- An action with what it governs: the body and what stands for otherwise. -/
structure Item where
  mark : Mark
  action : Action
  body : List Item
  otherwise : List Item

/-- A macro that can be called. -/
structure Macro where
  signature : Signature
  body : List Item

namespace Item

mutual

/-- The macros that an item defines, at any depth. -/
def macros (i : Item) : List Macro :=
  match i with
  | ⟨_, action, body, otherwise⟩ =>
    (match action with
      | .define signature => [⟨signature, body⟩]
      | _ => []) ++ macrosOf body ++ macrosOf otherwise

/-- The macros that items define, the first one first. -/
def macrosOf (is : List Item) : List Macro :=
  match is with
  | [] => []
  | i :: rest => i.macros ++ macrosOf rest

end

end Item

end TemplateKit
