import TemplateKit.Request.Basic

/-!
# The body of a request

The body is offered to the handlers in turn. Then, whatever they did, a form is stored below
`Query`, and the body of a request to put something is kept as a file.
-/

namespace TemplateKit.Request

/-- Adds a handler for bodies; those that were added later come first. -/
def register (r : Request) (method contentType : Option Bytes)
    (run : Bytes → Option Bytes → Node → Node × Except Failure Unit) :
    Except RequestFault Request :=
  match method, contentType with
  | some method, some contentType =>
    .ok { r with handlers := ⟨method, contentType, run⟩ :: r.handlers }
  | _, _ => .error .incompleteHandler

/-- Runs every handler that accepts the request; one that does not handle it is passed over. -/
def runHandlers (method : Bytes) (type : Option Bytes) : List Handler → Handling Unit
  | [] => return
  | h :: more => do
    if h.accepts method type then
      let r ← get
      let (data, result) := h.run method type r.data
      set { r with data }
      match result with
      | .ok () => runHandlers method type more
      | .error f => if f.isA .notHandled then runHandlers method type more else throw f
    else runHandlers method type more

/-- The next bytes of the body, as many as there are. -/
def take (size : Nat) : Handling Bytes := do
  let r ← get
  let input := r.lines.input
  set { r with lines := { r.lines with input := { input with rest := input.rest.drop size } } }
  return input.rest.take size

def lengthName : Bytes := "CGI.ContentLength"

/-- The length of the body, if one was announced. -/
def announcedLength (r : Request) : Option Nat :=
  (r.data.value? lengthName).bind fun text =>
    let n := (Numeral.toInt32 text).toInt
    if n > 0 then some n.toNat else none

/-- Reads a form of the announced length; a shorter body is a fault. -/
def storeForm : Handling Unit := do
  match announcedLength (← get) with
  | none => return
  | some size =>
    let body ← take size
    if body.length = size then storeQuery body
    else throw (RequestFault.shortInput body.length size).failure

/-- Reads from the body line by line. -/
def reading {α : Type} (action : LineReader.Action α) : Handling α := do
  let r ← get
  let (result, lines) := action.run r.lines
  set { r with lines }
  match result with
  | .ok a => return a
  | .error e => throw e.failure

/-- Reads a part up to the boundary behind it, and tells whether it is the last one. A file is there
as soon as its headers are read: it stays empty if the form breaks off in it. -/
def readPart (boundary : Option Bytes) : Handling (Part × Bool) := do
  let (header, ended) ← reading do Multipart.readHeaders (← get).bound {}
  if header.filename.isSome then modify fun r => { r with files := r.files ++ [[]] }
  let (lines, ended) ←
    if ended then pure ([], true) else reading do Multipart.readLines boundary (← get).bound
  return (⟨header, lines⟩, ended)

/-- Stores a part of a form. A field that is there already becomes a list. -/
def storePart (p : Part) : Handling Unit := do
  let name := orNull p.header.name
  match p.header.filename with
  | some filename =>
    modify fun r => { r with files := r.files.dropLast ++ [p.content] }
    storing (·.set (fieldName name) (some filename))
    match p.header.type with
    | some type => storing (·.set (fieldName (name ++ ".Type")) (some type))
    | none => pure ()
    let count := (← get).files.length
    storing (·.set (fieldName (name ++ ".FileHandle")) (some (Numeral.ofNat count)))
  | none =>
    if (← get).ignoresEmpty && p.value.isEmpty then return
    collect (fieldName name) p.value.untilNul
    storing (·.set (fieldName name) (some p.value.untilNul))

/-- Reads and stores parts up to the last one; `fuel` bounds their number. -/
def storeParts (boundary : Option Bytes) : (fuel : Nat) → Handling Unit
  | 0 => return
  | fuel + 1 => do
    let (part, ended) ← readPart boundary
    storePart part
    if ended then return else storeParts boundary fuel

/-- Reads a body in parts, of which what stands before the first boundary is skipped. -/
def storeMultipart : Handling Unit := do
  let r ← get
  match r.data.value? contentTypeName with
  | none => throw RequestFault.noContentType.failure
  | some type =>
    let boundary := ContentType.attributeOf? "boundary" type
    reading (LineReader.start (r.data.int lengthName (-1)).toInt)
    let (_, ended) ← reading do Multipart.readLines boundary (← get).bound
    if ended then return
    storeParts boundary (← get).lines.bound

/-- Keeps the body as a file, with its path and type. -/
def storePut (type : Option Bytes) : Handling Unit := do
  let place := (← get).files.length
  modify fun r => { r with files := r.files ++ [[]] }
  match announcedLength (← get) with
  | none => return
  | some size =>
    let body ← take size
    modify fun r => { r with files := r.files.set place body }
    match (← get).data.value? "CGI.PathInfo" with
    | some path => storing (·.set "PUT" (some path))
    | none => pure ()
    match type with
    | some type => storing (·.set "PUT.Type" (some type))
    | none => pure ()
    storing (·.set "PUT.FileHandle" (some (Numeral.ofNat (place + 1))))

def formType : Bytes := "application/x-www-form-urlencoded"

def isForm (type : Bytes) : Bool := type == formType || Bytes.startsWith (formType ++ ";") type

def isMultipart (type : Bytes) : Bool := Bytes.startsWith "multipart/form-data" type

/-- Reads the body of a request, by its method and type. -/
def parseBody : Handling Unit := do
  let r ← get
  let method := (r.data.value? "CGI.RequestMethod").getD "GET"
  let type := r.data.value? (contentTypeName ++ ".Type")
  runHandlers method type r.handlers
  if method == "POST" then
    match type with
    | none => return
    | some type =>
      if isForm type then storeForm
      else if isMultipart type then storeMultipart
      else return
  else if method == "PUT" then storePut type
  else return

end TemplateKit.Request
