import TemplateKit.Template.Builder
import TemplateKit.Template.Eval
import TemplateKit.Template.Expr.Parser
import TemplateKit.Template.Reading
import TemplateKit.Template.SyntaxFault

/-!
# The state of a template parser

Reading a template can stop with a failure, or because templates are nested too deeply to go on.
What was read up to there is kept.
-/

namespace TemplateKit

/-- Why a run ends early: with a failure, or because it is nested deeper than the fuel allows. -/
inductive Stop where
  | failure (f : Failure)
  | exhausted

/-- Are values escaped by their place, and is that noted? -/
structure AutoSettings where
  enabled : Bool := false
  logs : Bool := false

/-- What stays the same while a template is read. -/
structure ParserSettings where
  functions : List Function
  source : Source
  tag : Bytes
  audits : Bool
  marksFiles : Bool
  auto : AutoSettings

namespace ParserSettings

def keepsSources (settings : ParserSettings) : Bool :=
  settings.audits || (settings.auto.enabled && settings.auto.logs)

end ParserSettings

/-- What changes while a template is read. -/
structure ParseState where
  builder : Builder
  whereabouts : Whereabouts := {}
  position : Position := {}
  macros : List Signature := []
  depth : Nat := 0
  /-- The messages of the faults that an audit passes over. -/
  passedOver : List Bytes := []
  logName : Option Bytes := none
  scope : Scope

/-- Steps of reading a template. A stop keeps what was read before. -/
abbrev Parse := ReaderT ParserSettings (ExceptT Stop (StateM ParseState))

def deepestNesting : Nat := 50

namespace Parse

def fails {α : Type} (f : Failure) : Parse α := throw (.failure f)

def describe (offset : Nat) : Parse Bytes := do
  return (← get).whereabouts.describe (← read).source offset

def here : Parse Bytes := do describe (← get).whereabouts.reading.offset

def faultAt {α : Type} (offset : Nat) (fault : SyntaxFault) : Parse α := do
  fails (.raise .parse (fault.message (← describe offset)))

def fault {α : Type} (fault : SyntaxFault) : Parse α := do
  fails (.raise .parse (fault.message (← here)))

def build (f : Builder → Builder) : Parse Unit := modify fun s => { s with builder := f s.builder }

def setReading (r : Reading) : Parse Unit :=
  modify fun s => { s with whereabouts := { s.whereabouts with reading := r } }

def use (base : Nat) (part : Bytes) (places : List Nat) : Parse Unit := do
  setReading ((← get).whereabouts.reading.use base part places)

/-- Evaluates with the variables of the reader; overflow is a failure. -/
def eval {α : Type} (e : Eval α) : Parse α := do
  let s ← get
  let (result, scope) := e.run s.scope
  set { s with scope }
  match result with
  | .ok a => pure a
  | .error overflow => fails overflow.failure

/-- Undoes the change of the text being read when an action fails. -/
def orRestore {α : Type} (r : Reading) (action : Parse α) : Parse α :=
  tryCatch action fun stop => do
    setReading r
    throw stop

/-- The mark of a new item; in an audit it tells where the item is. -/
def newMark (required : Bool) (escape : EscapeMode) (autoEscape : Bool) : Parse Mark := do
  let s ← get
  let mark : Mark := { required, escape, autoEscape, logName := s.logName }
  if (← read).audits then
    let r := s.whereabouts.reading
    if r.offset < s.position.offset then return { mark with line := -1, column := r.offset }
    else
      match r.text with
      | none =>
        set { s with position := { s.position with
          line := max 1 s.position.line, column := max 1 s.position.column } }
        return { mark with line := -1, file := s.whereabouts.context }
      | some text =>
        let p := s.position.advance r text
        set { s with position := p }
        return { mark with line := p.line, column := p.column, file := s.whereabouts.context }
  else return mark

def valueMark (required : Bool) : Parse Mark := do
  newMark required (← get).builder.escape (← read).auto.enabled

def add (mark : Mark) (action : Action) : Parse Unit := build (·.add mark action)

def openBlock (block : Block) (mark : Mark) (action : Action) : Parse Unit := do
  let location := (← get).whereabouts.reading.offset
  build (·.openBlock block location mark action)

def literal (text : Bytes) : Parse Unit := do
  add (← newMark false .undefined (← read).auto.enabled) (.literal (some text))

/-- Reads an expression that stands at the offset `base`. The places where its words end are used
up; they are returned too. -/
def expression (assignable : Bool) (base : Nat) (s : Bytes) : Parse (Expr × List Nat) := do
  let (result, ends) := (Expr.parse (← read).functions assignable s).run.run []
  use base s ends
  match result with
  | .ok e => return (e, ends)
  | .error f => fault (.expression f)

def argument (assignable : Bool) (base : Nat) (s : Bytes) : Parse Argument := do
  let (e, _) ← expression assignable base s
  return ⟨e, if (← read).keepsSources then some s else none⟩

end Parse

end TemplateKit
