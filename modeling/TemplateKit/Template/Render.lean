import TemplateKit.Template.Parser
import TemplateKit.Template.Render.Loop

/-!
# Rendering templates

Items are rendered in order. Some commands read another template while they are rendered; it sees
the same data and local variables, but has macros of its own and may not use loops that go round.
`fuel` bounds how deeply items are nested.
-/

namespace TemplateKit.Render

/-- The state in which a template within a template is read. -/
def parseState (mark : Mark) : Render ParseState := do
  let st ← get
  match Configuration.escapeMode st.scope.data with
  | .error f => fails f
  | .ok mode =>
    let builder := Builder.start (if mark.escape = .undefined then mode else mark.escape)
    return { builder, scope := st.scope, depth := st.depth, logName := (← read).logName }

/-- Reads a template in the middle of rendering: what went wrong, if anything, and the state of its
reader. -/
def parse (action : Parse Unit) (start : ParseState) : Render (Except Stop Unit × ParseState) := do
  let settings := (← read).parser
  let data := start.scope.data
  let settings := { settings with
    tag := Configuration.tag data
    marksFiles := Configuration.marksFiles data }
  let (result, s) := action.run settings start
  modify fun st => { st with scope := s.scope }
  return (result, s)

/-- Renders a template within a template. It has macros, a loop count and a type of its own, and the
outer ones are there again behind it. -/
def template (items : List Item → Render Unit) (s : ParseState) : Render Unit :=
  let is := s.builder.template
  between
    (fun st =>
      { st with rounds := 0, depth := s.depth, whenUndefined := .undefined, contentTypes := [] })
    (fun outer st =>
      { st with
        rounds := outer.rounds
        depth := outer.depth
        whenUndefined := outer.whenUndefined
        contentTypes := outer.contentTypes })
    (withReader
      (fun settings => { settings with
        macros := Item.macrosOf is, loopLimit := 0, whereabouts := s.whereabouts,
          logName := s.logName })
      (items is))

/-- Reads a text as a template and renders it in its place. -/
def lvar (fuel : Nat) (items : List Item → Render Unit) (mark : Mark) (v : Value) (s : Bytes) :
    Render Unit := do
  let start ← parseState mark
  let logName := if (← read).parser.auto.logs then v.shown else start.logName
  match ← parse (Parse.text fuel s) { start with logName } with
  | (.error stop, _) => throw stop
  | (.ok (), after) => template items { after with logName := start.logName }

/-- Reads a file as a template and renders it. If the file is not required and something could not
be found, what was read is rendered all the same. -/
def includeLater (fuel : Nat) (items : List Item → Render Unit) (mark : Mark) (path : Bytes) :
    Render Unit := do
  let settings ← read
  let note (what : Bytes) : Bytes :=
    settings.whereabouts.here settings.parser.source ++ " failed to include '" ++
    path ++ "'" ++ what
  deeper (note ".") do
    let (result, after) ← parse (Parse.file (Parse.text fuel) (some path)) (← parseState mark)
    match result with
    | .error (.failure f) =>
      if !mark.required && f.isA .notFound then pure () else fails (f.note (note " while parsing."))
    | .error .exhausted => throw .exhausted
    | .ok () => pure ()
    noting (note " while rendering.") (template items after)

/-- Calls a macro. Its parameters are evaluated where it is called. -/
def call (items : List Item → Render Unit) (mark : Mark) (callee : Bytes) (args : List Expr) :
    Render Unit :=
  between
    (fun st => { st with whenUndefined := if mark.escape = .undefined then st.whenUndefined
      else mark.escape })
    (fun outer st => { st with whenUndefined := outer.whenUndefined }) do
    match (← read).macros.find? (·.signature.name == callee) with
    | none => pure ()
    | some m =>
      let bind (x : Bytes) (e : Expr) : Render Local := do
        return ⟨x, ← bindParameter (← eval e.eval), false, false⟩
      let ls ← (m.signature.params.zip args).mapM fun (x, e) => bind x e
      let note := ascii "execution of macro '" ++ callee ++ "' failed."
      withLocals ls (deeper note (noting note (items m.body)))

/-- Renders one item; `items` renders what is below it. -/
def action (fuel : Nat) (items : List Item → Render Unit) (i : Item) : Render Unit := do
  match i.action with
  | .literal none => pure ()
  | .literal (some s) => writeLiteral i.mark s
  | .name s =>
    match ← eval (Builtin.nodeOf (.name s)) with
    | some (_, n) =>
      match n.name? with
      | some name => writeEscaped i.mark (some s) name .untrusted
      | none => pure ()
    | none => pure ()
  | .var _ arg => writeArgument i.mark arg (← eval arg.expr.eval)
  | .evar _ => pure ()
  | .lvar arg =>
    let v ← eval arg.expr.eval
    if v.isNumeric then writeValue i.mark arg.source (Numeral.ofInt (← eval v.asNumber).toInt)
    else
      match (← eval v.asText).1 with
      | some s => lvar fuel items i.mark v s
      | none => pure ()
  | .includeLater arg =>
    let v ← eval arg.expr.eval
    if v.isNumeric then writeValue i.mark arg.source (Numeral.ofInt (← eval v.asNumber).toInt)
    else
      match (← eval v.asText).1 with
      | some path => includeLater fuel items i.mark path
      | none => pure ()
  | .branch _ arg =>
    if ← isTrue (← eval arg.expr.eval) then items i.body else items i.otherwise
  | .each x arg => each x (← eval arg.expr.eval) (items i.body)
  | .withAs x arg => withAs x (← eval arg.expr.eval) (items i.body)
  | .define _ => pure ()
  | .call callee args => call items i.mark callee args
  | .set target value =>
    let t ← eval target.expr.eval
    let v ← eval value.expr.eval
    assign t v
  | .loop x range =>
    let ns ← range.mapM fun e => do return (← eval (← eval e.eval).asNumber).toInt32
    loop x ns (items i.body)
  | .alt arg =>
    let v ← eval arg.expr.eval
    if ← isTrue v then writeArgument i.mark arg v else items i.body
  | .escape _ _ => items i.body
  | .contentType n type _ =>
    if (← read).parser.auto.enabled then
      modify fun st => { st with contentTypes := n :: st.contentTypes }
      match (← get).escaper.setContentType type.strip with
      | .ok (escaper, _) => modify fun st => { st with escaper }
      | .error e => fails e.failure

def item : (fuel : Nat) → Item → Render Unit
  | 0, _ => throw .exhausted
  | fuel + 1, i => action fuel (fun is => is.forM (item fuel)) i

def items (fuel : Nat) (is : List Item) : Render Unit := is.forM (item fuel)

end TemplateKit.Render
