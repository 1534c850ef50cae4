import TemplateKit.Template.Parser.Directive

/-!
# Reading templates

A template is read from left to right: a piece of text, then a command, and so on. Some commands
read another text in between. `fuel` bounds how deeply texts are nested.

## Implementation notes

Commands are given the reader of texts as an argument. The recursion is then on `fuel` alone, and
what holds of all commands for any reader is proved before that recursion is looked at.
-/

namespace TemplateKit.Parse

def closing : Bytes := "?>"

def opening : Bytes := "<?"

/-- What follows the opening of a command: the tag, in either case, and a blank. -/
def opens? (tag : Bytes) (s : Bytes) : Option Bytes :=
  match s with
  | 60 :: 63 :: rest =>
    if Bytes.startsWithNoCase tag rest then
      match rest.drop tag.length with
      | b :: rest => if (ascii " \n\t\r").elem b then some rest else none
      | [] => none
    else none
  | _ => none

/-- The text before the first command, and what is behind its opening. -/
def nextCommand? (tag : Bytes) : Bytes → Option (Bytes × Bytes)
  | [] => none
  | b :: s =>
    match opens? tag (b :: s) with
    | some rest => some ([], rest)
    | none => (nextCommand? tag s).map fun (before, rest) => (b :: before, rest)

/-- Loads a template. A path is searched with the load paths of the data tree and then of the global
one. -/
def load (source : Source) (scope : Scope) (path : Bytes) : Except Failure (Bytes × Bytes) :=
  match source.load scope.data [] path, source, scope.globals with
  | .error f, .disk _, some globals =>
    if f.isA .notFound && path.head? != some FileSystem.slash then source.load globals [] path
    else .error f
  | result, _, _ => result

/-- Reads a file with the reader for texts. What was read before is gone back to only if all goes
well. -/
def file (text : Bytes → Parse Unit) (path : Option Bytes) : Parse Unit := do
  let settings ← read
  match path with
  | none => fails (.raise .assertion "path is NULL")
  | some path =>
    let before ← get
    match load settings.source before.scope path with
    | .error f => fails f
    | .ok (path, content) =>
      modify fun s =>
        { s with whereabouts := { s.whereabouts with context := some path, inFile := true } }
      if settings.marksFiles then literal ("<!--csdta_of @," ++ path ++ ascii "-->\n")
      if settings.auto.logs then modify fun s => { s with logName := some path }
      let position := (← get).position
      if settings.audits then modify fun s => { s with position := {} }
      text content
      if settings.audits then modify fun s => { s with position }
      modify fun s => { s with
        logName := before.logName
        whereabouts := { s.whereabouts with
          context := before.whereabouts.context, inFile := before.whereabouts.inFile } }
      if settings.marksFiles then literal "<!--csdta_cf @-->\n"

/-- Adds to failures where and what was to be included. -/
def noting (path : Option Bytes) (what : Bytes) (action : Parse Unit) : Parse Unit :=
  tryCatch action fun
    | .failure f => do
      fails (f.note ((← here) ++ " failed to include '" ++ orNull path ++ "'" ++ what))
    | .exhausted => throw .exhausted

def deeper : Parse Unit := do
  if (← get).depth ≥ deepestNesting then fails (.raise .maxRecursion "Stack depth too large.")
  else modify fun s => { s with depth := s.depth + 1 }

/-- Includes a file. If it is not required, a missing file is passed over, and so is whatever else
could not be found while it was read. -/
def includeNow (text : Bytes → Parse Unit) (t : Directive.Tail) : Parse Unit := do
  let (e, _) ← expression false t.base t.text
  let v ← eval e.eval
  let path ← eval (Builtin.properText v)
  if path.isNone && !t.required then return
  else
    tryCatch
      (do
        noting path "." deeper
        noting path " and parse it." (file text path)
        modify fun s => { s with depth := s.depth - 1 })
      fun
        | .failure f => if !t.required && f.isA .notFound then pure () else fails f
        | .exhausted => throw .exhausted

/-- Reads the value of a name as a part of the template. Places in messages are those in the value
until it is read. -/
def evar (text : Bytes → Parse Unit) (t : Directive.Tail) : Parse Unit := do
  let mark ← newMark t.required .undefined false
  let name ← Directive.plainName t
  let before ← get
  let value := (before.scope.data.value? name).or (before.scope.globals.bind (·.value? name))
  if t.required && value.isNone then
    fails (.raise .notFound ((← here) ++ " Unable to evar empty variable " ++ name))
  else
    add mark (.evar name)
    let back : Parse Unit := modify fun s => { s with whereabouts := { s.whereabouts with
      context := before.whereabouts.context, inFile := before.whereabouts.inFile } }
    modify fun s =>
      { s with whereabouts := { s.whereabouts with context := some name, inFile := false } }
    match value with
    | none => pure ()
    | some value =>
      tryCatch (text value) fun stop => do
        back
        throw stop
    back

/-- Reads what follows the word of a command. -/
def command (text : Bytes → Parse Unit) (c : Command) (t : Directive.Tail) : Parse Unit :=
  match c with
  | .name => Directive.name t
  | .var => Directive.var t
  | .uvar => Directive.uvar t
  | .evar => evar text t
  | .lvar => Directive.lvar t
  | .branch => Directive.branch t
  | .otherwise => Directive.otherwise
  | .elseif => Directive.nextBranch .elseif t
  | .elif => Directive.nextBranch .elif t
  | .each => Directive.eachOrWith .each .each .each t
  | .withAs => Directive.eachOrWith .withAs .withAs .withAs t
  | .includeNow => includeNow text t
  | .includeLater => Directive.includeLater t
  | .define => Directive.define t
  | .call => Directive.call t
  | .set => Directive.set t
  | .loop => Directive.loop t
  | .alt => Directive.alt t
  | .escape => Directive.escape t
  | .contentType => Directive.contentType t
  | .endBranch | .endEach | .endWith | .endDefine | .endLoop | .endAlt | .endEscape =>
    build (·.close)

/-- The argument of a command. `rest` follows the command and `offset` is where it stands. When
nothing follows the word of the command, the argument is what follows the command, with the last
byte of its closing. -/
def tail (offset : Nat) (rest : Bytes) : Bytes → Directive.Tail
  | [] => ⟨false, offset - 1, '>'.toUInt8 :: rest⟩
  | b :: arg => ⟨b == '!', offset - closing.length - arg.length, arg⟩

/-- Reads what is between the opening and the closing of a command. `before` is what was read when
the text began. -/
def inside (text : Bytes → Parse Unit) (before : Reading) (word rest : Bytes) : Parse Unit := do
  if word.head? = some '#'.toUInt8 then pure ()
  else
    match Command.read? word with
    | none => fault (.unknownCommand word)
    | some (c, arg) =>
      let s ← get
      if c.allowedIn s.builder.block then
        orRestore before (command text c (tail s.whereabouts.reading.offset rest arg))
      else fault (.notAllowed c s.builder.block)

/-- Reads texts and commands in turn up to the end. -/
def pieces (text : Bytes → Parse Unit) (before : Reading) : (fuel : Nat) → Bytes → Parse Unit
  | 0, _ => pure ()
  | fuel + 1, s => do
    let tag := (← read).tag
    match nextCommand? tag s with
    | none => literal s
    | some (front, behind) =>
      literal front
      let r := (← get).whereabouts.reading
      let start := r.offset + front.length
      let word := behind.stripLeft
      match Bytes.find? closing word with
      | none => faultAt start (.missingEnd front)
      | some k =>
        let blanks := (behind.takeWhile Ascii.isSpace).length
        let rest := word.drop (k + closing.length)
        let word := word.take k
        if Bytes.contains opening word then faultAt start (.missingEnd word)
        else
          setReading { r with offset := start + opening.length + tag.length + 1 + blanks + k +
            closing.length }
          inside text before word rest
          let r := (← get).whereabouts.reading
          pieces text before fuel <|
            match r.stop with
            | some stop => rest.take (stop - r.offset)
            | none => rest

/-- Reads a text. Blocks that it leaves open are a fault; it may close blocks that were open before.
After a fault the blocks stay open in the state, which shows how far reading came: a reader that
failed is not used again. -/
def text : (fuel : Nat) → Bytes → Parse Unit
  | 0, _ => throw .exhausted
  | fuel + 1, s => do
    let before ← get
    setReading { text := some s }
    pieces (text fuel) before.whereabouts.reading (s.length + 1) s
    let frames := (← get).builder.frames
    match frames with
    | f :: _ =>
      if frames.length > before.builder.frames.length then
        faultAt f.location (.unterminated f.block)
      else setReading before.whereabouts.reading
    | [] => setReading before.whereabouts.reading

end TemplateKit.Parse
