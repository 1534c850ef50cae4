import TemplateKit.Escape.Auto
import TemplateKit.Template.Configuration

/-!
# The state of rendering

Rendering writes pieces of text and can change the data tree. What was written before a failure
stays written.
-/

namespace TemplateKit

/-- What stays the same while a template is rendered. -/
structure RenderSettings where
  parser : ParserSettings
  macros : List Macro
  loopLimit : Int32
  whereabouts : Whereabouts
  logName : Option Bytes

/-- What changes while a template is rendered. The texts are kept in reverse. -/
structure RenderState where
  scope : Scope
  written : List Bytes
  escaper : AutoEscaper
  rounds : Int
  depth : Nat
  whenUndefined : EscapeMode
  contentTypes : List Nat

/-- Steps of rendering. A stop keeps what was written before. -/
abbrev Render := ReaderT RenderSettings (ExceptT Stop (StateM RenderState))

namespace Render

def fails {α : Type} (f : Failure) : Render α := throw (.failure f)

def write (s : Bytes) : Render Unit := modify fun st => { st with written := s :: st.written }

/-- Evaluates with the variables of the template; overflow is a failure. -/
def eval {α : Type} (e : Eval α) : Render α := do
  let s ← get
  let (result, scope) := e.run s.scope
  set { s with scope }
  match result with
  | .ok a => pure a
  | .error overflow => fails overflow.failure

/-- Adds a note to failures. -/
def noting {α : Type} (text : Bytes) (action : Render α) : Render α :=
  tryCatch action fun
    | .failure f => fails (f.note text)
    | .exhausted => throw .exhausted

/-- Runs an action between two changes of the state. The second is told the state from before the
first, and it is made after a failure too. -/
def between {α : Type} (enter : RenderState → RenderState)
    (leave : RenderState → RenderState → RenderState)
    (action : Render α) : Render α := fun settings outer =>
  let (result, st) := action settings (enter outer)
  (result, leave outer st)

def withLocals {α : Type} (ls : List Local) : Render α → Render α :=
  between (fun st => { st with scope := { st.scope with locals := ls ++ st.scope.locals } })
    fun _ st => { st with scope := { st.scope with locals := st.scope.locals.drop ls.length } }

def modifyLocal (f : Local → Local) : Render Unit :=
  modify fun st => { st with scope := { st.scope with locals := st.scope.locals.modify 0 f } }

/-- Runs an action one level deeper. A failure leaves the level as it is. -/
def deeper {α : Type} (text : Bytes) (action : Render α) : Render α := do
  if (← get).depth ≥ deepestNesting then
    fails ((Failure.raise .maxRecursion "Stack depth too large.").note text)
  else
    modify fun st => { st with depth := st.depth + 1 }
    let a ← action
    modify fun st => { st with depth := st.depth - 1 }
    return a

def logHeading (mark : Mark) : Render Bytes := do
  let name := if (← read).parser.auto.logs then mark.logName else none
  return "[" ++ name.getD "error" ++ "] Auto Escaping encountered the following error"

/-- Writes a value as it is, which the parser of the page has to see as well. -/
def writeValue (mark : Mark) (name : Option Bytes) (s : Bytes) : Render Unit := do
  write s
  if (← read).parser.auto.enabled then
    match (← get).escaper.parseValue s with
    | .ok () => pure ()
    | .error e =>
      fails (e.failure.note ((← logHeading mark) ++ " while parsing variable " ++ name.getD []))

/-- Writes a text of the template, once the parser of the page has seen it. -/
def writeLiteral (mark : Mark) (s : Bytes) : Render Unit := do
  if mark.autoEscape then
    match (← get).escaper.parseLiteral s with
    | .ok () => pure ()
    | .error e => fails (e.failure.note ((← logHeading mark) ++ " while parsing a literal"))
  write s

/-- Writes a value escaped as the item, the macro call around it or the markup asks. -/
def writeEscaped (mark : Mark) (name : Option Bytes) (s : Bytes) (trust : Trust) : Render Unit := do
  let st ← get
  let mode := if mark.escape = .undefined then st.whenUndefined else mark.escape
  let trusted := st.scope.tracking != 0 && trust = .trusted
  if !trusted && mode = .undefined && mark.autoEscape then
    match st.escaper.escape s with
    | .ok e => writeValue mark name e.text
    | .error e => fails e.failure
  else
    match (if mode = .undefined then EscapeMode.none else mode).escape s with
    | .ok s => writeValue mark name s
    | .error e => fails e

/-- Writes the value of an argument. Nothing is escaped if the argument calls an escaping function,
and numbers never are. What goes wrong while a text is written is passed over. -/
def writeArgument (mark : Mark) (arg : Argument) (v : Value) : Render Unit := do
  if v.isNumeric then writeValue mark arg.source (Numeral.ofInt (← eval v.asNumber).toInt)
  else
    match ← eval v.asText with
    | (none, _) => pure ()
    | (some s, trust) =>
      tryCatch
        (if arg.expr.callsEscaper then writeValue mark arg.source s
          else writeEscaped mark arg.source s trust)
        fun _ => pure ()

/-- Is the value true? Only the low 32 bits of a number count. -/
def isTrue (v : Value) : Render Bool := do return (← eval v.asTruth).toInt32 != 0

/-- The node that a value names. -/
def placeOf (v : Value) : Render (Option Place) := do
  match v with
  | .name s => eval (Scope.findPlace s)
  | _ => return none

/-- The node that has the children: what it leads to in the place of a link. -/
def container (p : Place) : Render (Option Place) := do
  let s := (← get).scope
  return do
    let (root, n) ← s.at? p
    let there ← root.childrenOf ⟨p.address, n⟩
    pure ⟨p.tree, there.address⟩

/-- The child at a place, counted from zero. -/
def child? (p : Place) (k : Nat) : Render (Option Place) := do
  let s := (← get).scope
  return do
    let (_, n) ← s.at? p
    let c ← n.children[k]?
    pure ⟨p.tree, p.address ++ [c.name]⟩

/-- Assigns a value to what another one names; a number is left alone. -/
def assign (target value : Value) : Render Unit := do
  match target with
  | .number _ _ => pure ()
  | target =>
    let (v, trust) ← if value.isNumeric then
        pure (some (Numeral.ofInt (← eval value.asNumber).toInt), Trust.trusted)
      else eval value.asText
    match target.shown with
    | none => fails (.raise .assertion
        ("lvalue is NULL/empty in attempt to evaluate set to '" ++ v.getD [] ++ "'"))
    | some name =>
      let st ← get
      let (scope, result) := st.scope.assign name v trust
      set { st with scope }
      match result with
      | .ok () => pure ()
      | .error f => fails f

/-- What a parameter stands for. A text or a number in a local variable is copied. -/
def bindParameter (v : Value) : Render Binding := do
  match v with
  | .text s trust => return .text s trust false
  | .number n _ => return .number n
  | .name s | .numberName s =>
    match (← get).scope.local? s with
    | some ⟨_, .text v trust _, _, _⟩ => return .text v trust false
    | some ⟨_, .number n, _, _⟩ => return .number n
    | _ =>
      let visible := (← get).scope.locals.length
      return .node (← eval (Scope.findPlace s)) s visible

end Render

end TemplateKit
