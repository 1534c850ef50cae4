import TemplateKit.Template.Parser.Basic

/-!
# What the data tree says about the working of templates
-/

namespace TemplateKit.Configuration

def tag (data : Node) : Bytes := (data.value? "Config.TagStart").getD "cs"

def isOn (data : Node) (name : Bytes) : Bool := data.int name 0 != 0

def marksFiles (data : Node) : Bool := isOn data "Config.CsTemplateDebug"

def audits (data : Node) : Bool := isOn data "Config.EnableAuditMode"

def debugTemplate (data : Node) : Bytes :=
  (data.value? "Config.CsDebugJsTemplate").getD "dbcstempl.js"

/-- The mode that the data ask for. -/
def escapeMode (data : Node) : Except Failure EscapeMode :=
  let name := (data.value? "Config.VarEscapeMode").getD "undef"
  match EscapeMode.named.find? (·.1 == name) with
  | some (_, mode) => .ok mode
  | none => .error (.raise .range
      ("Invalid HDF value for Config.VarEscapeMode (none,html,js,url): " ++ name))

def auto (data : Node) : AutoSettings :=
  if isOn data "Config.AutoEscape" then ⟨true, isOn data "Config.LogAutoEscape"⟩
  else ⟨false, false⟩

def tracking (data : Node) : Int32 :=
  if isOn data "Config.AutoEscape" then data.int "Config.PropagateEscapeStatus" 0 else 0

def loopLimit (data : Node) : Int32 := data.int "Config.MaxLoopIterations" 40000000

end TemplateKit.Configuration
