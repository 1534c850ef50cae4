import TemplateKit.Data.Writer
import TemplateKit.Html.Whitespace
import TemplateKit.Request.Body
import TemplateKit.Template.Filters
import TemplateKit.Template.Session

/-!
# Replies

A reply is headers and a page. The headers come from the data tree below `cgiout`, and a page of
HTML loses the blanks that do not show. Whoever knows the password of the debugger sees the
environment and the data as well.
-/

namespace TemplateKit.Request

/-- Steps in the making of a reply; a stop keeps what was done before. -/
abbrev Replying := ExceptT Stop (StateM Request)

def write (text : Bytes) : StateM Request Unit :=
  modify fun r => { r with output := r.output ++ text }

def line (text : Bytes) : Bytes := text ++ "\r\n"

def isSet (r : Request) (name : String) : Bool := r.data.int (ascii name) 0 != 0

/-- Did the client give the password that is stored under a name? -/
def knowsPassword (r : Request) (name : String) : Bool :=
  r.isSet "Config.DebugEnabled" &&
    match r.data.value? "Query.debug", r.data.value? (ascii name) with
    | some given, some password => given == password
    | _, _ => false

def htmlType : Bytes := "text/html"

def noCacheHeaders : Bytes :=
  line "Pragma: no-cache" ++ line "Expires: Mon, 01 Jan 1990 00:00:00 GMT" ++
    line "Cache-control: no-cache, must-revalidate, no-cache=\"Set-Cookie\", private"

/-- A header, nothing without a value. -/
def headerOf (name : String) (value : Option Bytes) : Bytes :=
  match value with
  | some value => line (ascii name ++ ": " ++ value)
  | none => []

/-- The headers that are stored whole, one under each name. -/
def otherHeaders (data : Node) : Bytes :=
  match data.locate? [] "cgiout.other" with
  | none => []
  | some there =>
    (((data.childrenOf there).map (·.node.children)).getD []).flatMap fun c =>
      line (orNull (data.valueOf c))

/-- The last header, with the empty line behind it. -/
def contentTypeHeader (type : Bytes) (charset : Option Bytes) : Bytes :=
  line ("Content-Type: " ++ type ++
    (match charset with
      | some charset => "; charset=" ++ charset
      | none => [])) ++ line []

/-- All headers of a reply, as the data have them. -/
def headers (r : Request) : Bytes :=
  (if r.isSet "Config.NoCache" then noCacheHeaders else []) ++
    match r.data.locate? [] "cgiout" with
    | none => contentTypeHeader htmlType none
    | some there =>
      let value (name : String) := r.data.valueAt? there.address (ascii name)
      headerOf "Status" (value "Status") ++ headerOf "Location" (value "Location") ++
      otherHeaders r.data ++
        contentTypeHeader ((value "ContentType").getD htmlType) (value "charset")

def forgetCookies : StateM Request Unit :=
  modify fun r => { r with data := (r.data.removeAt [] "Cookie").removeAt [] "HTTP.Cookie" }

/-- The data as a text. -/
def dump (path : Option Bytes) : StateM Request Bytes := do
  let r ← get
  let (text, random) := r.data.write .dotted path r.random
  set { r with random }
  return text

/-- What the debugger shows behind a page. Cookies are removed before. -/
def debugText : StateM Request Bytes := do
  let listing := (← get).environment.flatMap fun (name, value) => name ++ ascii " = " ++ value ++
    ascii "<br>"
  forgetCookies
  return ascii "<hr>" ++ listing ++ ascii "<pre>" ++ (← dump none)

/-- The time that the page took, in a comment. -/
def footer (r : Request) : Bytes :=
  "\n<!-- " ++ Numeral.ofNat (r.elapsed / 1000) ++ ascii "." ++
  Numeral.padded 3 (r.elapsed % 1000) ++
    ":0 -->\n"

/-- Writes the headers and a page. -/
def page (text : Bytes) : StateM Request Unit := do
  let r ← get
  let debugged := r.knowsPassword "Config.DebugPassword"
  let level := (r.data.int "Config.WhiteSpaceStrip" 1).toInt
  let isHtml := Bytes.equalsNoCase ((r.data.value? "cgiout.ContentType").getD htmlType) htmlType
  write r.headers
  if isHtml then
    let text := if r.data.int "Config.TimeFooter" 1 = 0 then text else text ++ r.footer
    write (if level = 0 then text else Html.squeezeBlanks level text)
    if debugged then write (← debugText)
  else write text

/-- The parser for the pages of a request: it knows the filters. -/
def session (r : Request) (source : Source) (place : MarkupPlace) : Except Stop Session := do
  let s ← (Session.create r.data source place).mapError .failure
  (s.registerAll Function.filters).mapError .failure

/-- Works with a parser on the data of the request, which keeps what becomes of them. -/
def withSession {α : Type} (source : Source) (place : MarkupPlace)
    (action : Session → Session × Except Stop α) :
    Replying α := do
  let r ← get
  match r.session source place with
  | .error e => throw e
  | .ok s =>
    let (s, result) := action s
    set { r with data := s.data }
    match result with
    | .ok a => return a
    | .error e => throw e

/-- Renders what was parsed; the text is kept when rendering stops. -/
def rendered (s : Session) : Session × Except Stop (Bytes × Option Stop) :=
  match s.render with
  | (s, text, .ok ()) => (s, .ok (text, none))
  | (s, text, .error e) => (s, .ok (text, some e))

/-- Parses a text and writes what it renders, also when the rendering stops on the way. -/
def template (source : Source) (place : MarkupPlace) (text : Bytes) : Replying Unit := do
  let (text, stop) ← withSession source place fun s =>
    match s.parseText text text.length with
    | (s, .ok ()) => rendered s
    | (s, .error e) => (s, .error e)
  write text
  match stop with
  | some e => throw e
  | none => return

/-- Replies with the page that a template file renders to. Whoever knows the password for it sees
the data and the template instead. -/
def display (source : Source) (place : MarkupPlace) (path : Option Bytes) : Replying Unit := do
  let dumps := (← get).knowsPassword "Config.DumpPassword"
  let text ← withSession source place fun s =>
    match s.parseFile path with
    | (s, .error e) => (s, .error e)
    | (s, .ok ()) =>
      if dumps then (s, .ok s.list)
      else
        match s.render with
        | (s, text, .ok ()) => (s, .ok text)
        | (s, _, .error e) => (s, .error e)
  if dumps then
    write "Content-Type: text/plain\n\n"
    forgetCookies
    write ((← dump (some [])) ++ text)
  else page text

def errorPage (text : Bytes) : Bytes :=
  "Status: 500\nContent-Type: text/html\n\n<html><body>\nAn error occured:<pre>" ++ text ++
    "</pre></body></html>\n"

/-- Where this server is reached: the host that the client named, or else the name that the server
goes by. -/
def here (r : Request) : Bytes :=
  let secure := (r.data.value? (ascii "CGI.HTTPS")) == some (ascii "on")
  let host := ((r.data.value? (ascii "HTTP.Host")).or (r.data.value? (ascii "CGI.ServerName"))).getD
    (ascii "localhost")
  let listens := (r.data.int (ascii "CGI.ServerPort") 80).toInt
  (if secure then ascii "https" else ascii "http") ++ ascii "://" ++ host ++
    (if host.elem ':'.toUInt8 || listens = (if secure then 443 else 80) then []
      else ascii ":" ++ Numeral.ofInt listens)

/-- The reply that leads elsewhere. -/
def redirection (location : Bytes) : Bytes :=
  line "Status: 302" ++ line "Content-Type: text/html" ++ line "Pragma: no-cache" ++
    line "Expires: Fri, 01 Jan 1999 00:00:00 GMT" ++
    line "Cache-control: no-cache, no-cache=\"Set-Cookie\", private" ++
    line ("Location: " ++ location) ++ line [] ++
    "Redirect page<br><br>\nThere is nothing to see here, please move along..."

/-- The domain for cookies of a host, among those that the data allow. -/
def cookieAuthority (r : Request) (host : Option Bytes) : Option Bytes := do
  let host ← host.or (r.data.value? "HTTP.Host")
  let there ← r.data.locate? [] "CookieAuthority"
  let children ← r.data.childrenOf there
  Cookie.authority? host (children.node.children.filterMap r.data.valueOf)

end TemplateKit.Request
