import TemplateKit.Container.Sequence
import TemplateKit.Data.Assign
import TemplateKit.Random
import TemplateKit.Request.Cookie
import TemplateKit.Request.Header
import TemplateKit.Request.Multipart
import TemplateKit.Request.Query

/-!
# Requests

A request is set up from its environment: what the server says goes below `CGI` in the data tree,
headers go below `HTTP`, cookies below `Cookie` and the items of the query string below `Query`.
Nothing else in the tree is touched.
-/

namespace TemplateKit

/-- What is done with the body of requests of a method and a content type; `*` stands for any. -/
structure Handler where
  method : Bytes
  contentType : Bytes
  run : (method : Bytes) → (type : Option Bytes) → Node → Node × Except Failure Unit

namespace Handler

def any : Bytes := "*"

def accepts (h : Handler) (method : Bytes) (type : Option Bytes) : Bool :=
  (h.method == any || Bytes.equalsNoCase h.method method) &&
    (h.contentType == any || type.any (Bytes.equalsNoCase h.contentType))

end Handler

/-- A request with the data that are collected from it and the reply as far as it was written. -/
structure Request where
  data : Node
  environment : Environment
  /-- Are the fields of a form without a value left out? -/
  ignoresEmpty : Bool
  lines : LineReader
  /-- What is still to be read of the files that came with the request. -/
  files : List Bytes := []
  handlers : List Handler := []
  output : Bytes := []
  random : Random := .seed 1
  elapsed : Nat := 0

namespace Request

/-- Steps in the handling of a request; a failure keeps what was done before. -/
abbrev Handling := ExceptT Failure (StateM Request)

/-- Changes the data. A fault stops the handling, but what was changed before stays. -/
def storing {α : Type} (change : Node → Node × Except DataFault α) : Handling Unit := do
  let r ← get
  let (data, result) := change r.data
  set { r with data }
  match result with
  | .ok _ => return
  | .error e => throw e.failure

def nameRoom : Nat := 255

def contentTypeName : Bytes := "CGI.ContentType"

/-- Stores the type of the body and its attributes. -/
def storeContentType : Handling Unit := do
  match (← get).data.value? contentTypeName with
  | none => return
  | some type =>
    let settings := (ContentType.parts type).map fun (name, value) =>
      ((contentTypeName ++ dot :: name).take nameRoom, value)
    storing (Node.assignAll (some []) settings)

def cookieName : Bytes := "Cookie"

/-- Stores the cookies one by one; those whose name is refused are left out. -/
def storeCookies : Handling Unit := do
  match (← get).data.value? "HTTP.Cookie" with
  | none => return
  | some header =>
    storing (·.set cookieName (some header))
    modify fun r =>
      { r with data := Node.assignEach ((r.data.locate? [] cookieName).map
        (·.address)) (Cookie.parse header) r.data }

def fieldName (name : Bytes) : Bytes := ("Query." ++ name).take nameRoom

/-- When a name has a value already, makes it a list to which the new value is added. -/
def collect (name value : Bytes) : Handling Unit := do
  let data := (← get).data
  match data.locate? [] name with
  | none => return
  | some there =>
    match (data.childrenOf there).map (·.node.children) with
    | none | some [] =>
      storing (·.assignTo (some there.address) (some "0") { value := data.valueOf there.node })
      storing (·.assignTo (some there.address) (some "1") { value := some value })
    | some children =>
      storing (·.assignTo (some there.address) (some (Numeral.ofNat children.length))
        { value := some value })

/-- Stores an item of a query; a name that the tree refuses is passed over. -/
def storeItem (i : QueryItem) : Handling Unit := do
  if (← get).ignoresEmpty && i.isEmpty then return
  let name := fieldName i.name
  collect name i.value
  modify fun r => { r with data := (r.data.set name (some i.value)).1 }

def storeQuery (query : Bytes) : Handling Unit := (QueryItem.ofString query.untilNul).forM storeItem

/-- Stores what is known of a request before its body is read. -/
def setUp : Handling Unit := do
  let e := (← get).environment
  storing (Node.assignAll (some []) e.serverValues)
  storing (Node.assignAll (some []) (Header.settings e))
  storeContentType
  storeCookies
  match (← get).data.value? "CGI.QueryString" with
  | some query => storeQuery query
  | none => return

/-- The number of a file, by the name of its field; without a name, of the file that is the whole
body. -/
def fileNumber? (r : Request) (name : Bytes) : Option Int32 :=
  let handle := if name.isEmpty then ascii "PUT.FileHandle"
    else (ascii "Query." ++ name ++ ascii ".FileHandle").take nameRoom
  let n := r.data.int handle (-1)
  if n = -1 then none else some n

/-- The file that came under a name, which can be taken once. -/
def takeFile? (r : Request) (name : Bytes) : Request × Option Bytes :=
  match (r.fileNumber? name).bind fun n => (Sequence.resolve r.files .get
    (n - 1).toInt).toOption with
  | none => (r, none)
  | some place => ({ r with files := r.files.set place [] }, r.files[place]?)

end Request

end TemplateKit
