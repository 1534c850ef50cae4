import TemplateKit.Template.Dump
import TemplateKit.Template.Render

/-!
# Working with templates

A session holds a data tree and the template read so far. Texts and files are added to the template,
and it can be rendered any number of times; rendering may change the data.
-/

namespace TemplateKit

/-- A parser with its functions and settings, the data and what was read so far. -/
structure Session where
  source : Source
  functions : List Function
  tag : Bytes
  audits : Bool
  marksFiles : Bool
  debugTemplate : Bytes
  /-- How values are escaped by their place; it is settled when the first text is read. -/
  auto : Option AutoSettings
  reader : ParseState
  escaper : AutoEscaper
  contentTypes : List Nat := []

namespace Session

def nestingLimit : Nat := 100000

/-- A parser with the built-in functions; the data choose its settings. -/
def create (data : Node) (source : Source) (place : MarkupPlace) : Except Failure Session := do
  let mode ← Configuration.escapeMode data
  return {
    source
    functions := Function.builtins
    tag := Configuration.tag data
    audits := Configuration.audits data
    marksFiles := Configuration.marksFiles data
    debugTemplate := Configuration.debugTemplate data
    auto := none
    reader := { builder := .start mode, scope := ⟨data, none, [], 0⟩ }
    escaper := ⟨place, false⟩ }

def data (s : Session) : Node := s.reader.scope.data

def setData (s : Session) (data : Node) : Session :=
  { s with reader := { s.reader with scope := { s.reader.scope with data } } }

def globals (s : Session) : Option Node := s.reader.scope.globals

def setGlobals (s : Session) (globals : Option Node) : Session :=
  { s with reader := { s.reader with scope := { s.reader.scope with globals } } }

def register (s : Session) (f : Function) : Except Failure Session := do
  return { s with functions := ← Function.register s.functions f }

def registerAll (s : Session) (fs : List Function) : Except Failure Session := do
  return { s with functions := ← Function.registerAll s.functions fs }

/-- Settles how values are escaped, once. -/
def settle (s : Session) : Session :=
  match s.auto with
  | some _ => s
  | none =>
    let scope := { s.reader.scope with tracking := Configuration.tracking s.data }
    { s with auto := some (Configuration.auto s.data), reader := { s.reader with scope } }

def settings (s : Session) : ParserSettings :=
  ⟨s.functions, s.source, s.tag, s.audits, s.marksFiles, s.auto.getD {}⟩

/-- Reads something; what was read before a failure stays. -/
def parse (s : Session) (action : Parse Unit) : Session × Except Stop Unit :=
  let s := s.settle
  let (result, reader) := action.run s.settings s.reader
  ({ s with reader }, result)

/-- Reads a text, which must not have a zero byte in it. -/
def parseText (s : Session) (text : Bytes) (length : Nat) : Session × Except Stop Unit :=
  s.parse <|
    if text.untilNul.length = length then Parse.text nestingLimit text
    else Parse.fails (.raise .parse
      "String either contained embedded null bytes or it was not null-terminated")

/-- The file that ends a template that marks its files; it is always read from disk. -/
def debugText (s : Session) : Except Failure (Bytes × Bytes) :=
  let disk := match s.source with
    | .disk files => files
    | .table _ => .ofFiles []
  Parse.load (.disk disk) s.reader.scope s.debugTemplate

/-- Reads a file, between marks if the settings ask for them. -/
def parseFile (s : Session) (path : Option Bytes) : Session × Except Stop Unit :=
  s.parse do
    if s.marksFiles then Parse.literal "<div>\n"
    Parse.file (Parse.text nestingLimit) path
    if s.marksFiles then
      match s.debugText with
      | .error f => Parse.fails f
      | .ok (_, text) => Parse.literal text
      Parse.literal "</div>\n"

def items (s : Session) : List Item := s.reader.builder.template

/-- Renders what was read, with the text written up to a stop. Variables keep what they found. -/
def render (s : Session) : Session × Bytes × Except Stop Unit :=
  let is := s.items
  let settings : RenderSettings :=
    ⟨s.settings, Item.macrosOf is, Configuration.loopLimit s.data, s.reader.whereabouts,
      s.reader.logName⟩
  let start : RenderState := ⟨s.reader.scope, [], s.escaper, 0, s.reader.depth, .undefined,
    s.contentTypes⟩
  let (result, st) := (Render.items nestingLimit is).run settings start
  ({ s with
      reader := { s.reader with scope := st.scope, depth := st.depth }
      escaper := st.escaper
      contentTypes := st.contentTypes.eraseDups },
    st.written.reverse.flatten, result)

def list (s : Session) : Bytes := Item.listAll s.contentTypes 0 s.items

end Session

end TemplateKit
