import TemplateKit.Template.Parser.Basic

/-!
# Reading commands

Each command has its own form of argument. An argument is given by its text and the offset at which
it stands. Where a message shows an argument, it shows it up to the first byte that is used up.
-/

namespace TemplateKit.Directive

/-- What follows the word of a command, and where it starts. -/
structure Tail where
  required : Bool
  base : Nat
  text : Bytes

def trailing (s : Bytes) : List Nat :=
  let kept := s.stripRight.length
  (List.range (s.length - kept)).map (kept + ·)

/-- The text as messages show it, cut at the first place that was used up. -/
def shown (s : Bytes) (used : List Nat) : Bytes :=
  match used.min? with
  | some k => s.take k
  | none => s

def notInName (b : UInt8) : Bool := (ascii "#\" <>").elem b

/-- The name that a command is followed by. -/
def plainName (t : Tail) : Parse Bytes := do
  Parse.use t.base t.text (trailing t.text)
  let name := t.text.strip
  match List.find? notInName name with
  | some b => Parse.fault (.badName name b)
  | none => return name

def name (t : Tail) : Parse Unit := do
  let mark ← Parse.valueMark t.required
  Parse.add mark (.name (← plainName t))

def var (t : Tail) : Parse Unit := do
  let mark ← Parse.valueMark t.required
  Parse.add mark (.var false (← Parse.argument false t.base t.text))

def uvar (t : Tail) : Parse Unit := do
  let mark ← Parse.newMark t.required .none false
  Parse.add mark (.var true (← Parse.argument false t.base t.text))

def lvar (t : Tail) : Parse Unit := do
  let mark ← Parse.newMark t.required (← get).builder.escape false
  Parse.add mark (.lvar (← Parse.argument false t.base t.text))

def includeLater (t : Tail) : Parse Unit := do
  let mark ← Parse.newMark t.required (← get).builder.escape false
  Parse.add mark (.includeLater (← Parse.argument false t.base t.text))

def alt (t : Tail) : Parse Unit := do
  let mark ← Parse.valueMark t.required
  Parse.openBlock .alt mark (.alt (← Parse.argument false t.base t.text))

def branch (t : Tail) : Parse Unit := do
  let mark ← Parse.newMark false .undefined false
  Parse.openBlock .branch mark (.branch .branch (← Parse.argument false t.base t.text))

/-- Another condition in the same block. -/
def nextBranch (word : Command) (t : Tail) : Parse Unit := do
  let mark ← Parse.newMark false .undefined false
  let arg ← Parse.argument false t.base t.text
  Parse.build (·.divide mark (.branch word arg))

def otherwise : Parse Unit := do
  let location := (← get).whereabouts.reading.offset
  Parse.build (·.turn location)

/-- A literal text as the only argument, its text if that is kept, and where it ends. -/
def textArgument (fault : Bytes → SyntaxFault) (t : Tail) : Parse (Bytes × Option Bytes × Nat) := do
  let (e, ends) ← Parse.expression false t.base t.text
  match e with
  | .text s => return (s, if (← read).keepsSources then some t.text else none, ends.headD 0)
  | _ => Parse.fault (fault (shown t.text ends))

/-- Opens a block with another escape mode, whose name has to be a text. -/
def escape (t : Tail) : Parse Unit := do
  let mark ← Parse.newMark t.required .undefined false
  let (s, source, stop) ← textArgument .badEscape t
  let kept := s.stripRight
  Parse.use t.base t.text ((List.range (s.length - kept.length)).map (stop - s.length +
    kept.length + ·))
  let word := kept.stripLeft
  match EscapeMode.named.find? fun (w, _) => Bytes.startsWithNoCase w word with
  | none => Parse.fault (.badEscape word)
  | some (_, mode) =>
    Parse.build (·.changeEscape mode)
    Parse.openBlock .escape mark (.escape kept source)

/-- Changes the type of the page from here on. -/
def contentType (t : Tail) : Parse Unit := do
  let mark ← Parse.newMark t.required .undefined false
  let (s, source, _) ← textArgument .badContentType t
  Parse.build (·.addContentType mark s source)

/-- A variable in front of an equals sign: the variable, what stands behind the sign, and what a
message shows of the argument. `first` is how the directive is called when there is no sign at all.
-/
def variableAndRest (directive first : Bytes) (t : Tail) : Parse (Bytes × Nat × Bytes × Bytes) := do
  Parse.use t.base t.text (trailing t.text)
  let text := t.text.stripRight
  let lead := text.length - text.stripLeft.length
  let whole := text.stripLeft
  let x := whole.takeWhile fun b => !Ascii.isSpace b && b != '='
  let shown := text.take (lead + x.length)
  match whole.drop x.length with
  | [] => Parse.fault (.missingEquals first text)
  | b :: behind =>
    Parse.use t.base t.text [lead + x.length]
    let rest := if b == '=' then some behind else (Bytes.cutAt (· == '=') behind).2
    match rest with
    | none => Parse.fault (.missingEquals directive shown)
    | some rest =>
      if x.isEmpty then Parse.fault (.missingVariable directive shown)
      else
        let rest := Bytes.stripLeft rest
        return (x, t.base + text.length - rest.length, rest, shown)

/-- Opens a block in which a variable stands for nodes. -/
def eachOrWith (command : Command) (block : Block) (action : Bytes → Argument → Action) (t : Tail) :
    Parse Unit := do
  let mark ← Parse.newMark t.required .undefined false
  let (x, base, rest, shown) ← variableAndRest command.word (command.word ++ "s") t
  if rest.isEmpty then Parse.fault (.missingOperand command.word shown)
  else Parse.openBlock block mark (action x (← Parse.argument false base rest))

/-- The expressions between commas; a comma may also stand at the end. -/
def range : (fuel base : Nat) → Bytes → Parse (List Expr)
  | 0, _, _ => return []
  | _ + 1, _, [] => return []
  | fuel + 1, base, s => do
    let (front, back) := s.cutAt (· == ',')
    if back.isSome then Parse.use base s [front.length]
    let (e, _) ← Parse.expression false base front
    match back with
    | none => return [e]
    | some back => return e :: (← range fuel (base + front.length + 1) back)

/-- Opens a block that goes through numbers, with one to three of them as its range. -/
def loop (t : Tail) : Parse Unit := do
  let mark ← Parse.newMark t.required .undefined false
  let (x, base, rest, shown) ← variableAndRest Command.loop.word Command.loop.word t
  if rest.isEmpty then Parse.fault (.missingRange shown)
  else
    let es ← range (rest.length + 1) base rest
    if es.length > 3 then Parse.fault (.loopArguments es.length shown)
    else Parse.openBlock .loop mark (.loop x es)

/-- Reads an assignment, split at the first equals sign. -/
def set (t : Tail) : Parse Unit := do
  let mark ← Parse.newMark false .undefined false
  match t.text.cutAt (· == '=') with
  | (_, none) => Parse.fault (.assignmentWithoutEquals t.text)
  | (target, some value) =>
    Parse.use t.base t.text [target.length]
    let target' ← Parse.argument true t.base target
    let value' ← Parse.argument false (t.base + target.length + 1) value
    Parse.add mark (.set target' value')

def longestMacroName : Nat := 255

/-- The name of a macro, cut off at the limit, and what follows the parenthesis. -/
def macroName? (s : Bytes) : Option (Bytes × Bytes) :=
  let name := (s.takeWhile fun b => !(ascii " #(").elem b).take longestMacroName
  match Bytes.stripLeft (s.drop name.length) with
  | 40 :: rest => some (name, rest)
  | _ => none

/-- The names of parameters, up to a closing parenthesis. `t` has the whole argument and `used`
the places in it that are used up. A list that starts with nothing is empty. -/
def params (t : Tail) : (fuel : Nat) → (used : List Nat) → (known : List Bytes) → Bytes →
    Parse (List Bytes)
  | 0, _, known, _ => return known.reverse
  | _ + 1, _, known, [] => return known.reverse
  | fuel + 1, used, known, s => do
    let s := s.stripLeft
    let start := t.text.length - s.length
    match s.findByte? (fun b => b == ',' || b == ')') with
    | none => Parse.fault (.defWithoutRightParen (shown t.text used))
    | some k =>
      let piece := s.take k
      let x := piece.takeWhile fun b => !(ascii " \t\r\n").elem b
      let cut := if x.length < piece.length then [start + x.length] else []
      let used := (start + k) :: cut ++ used
      Parse.use t.base t.text ((start + k) :: cut)
      match List.find? Token.endsName x with
      | some b => Parse.fault (.badParameter (shown t.text used) b)
      | none =>
        if x.isEmpty then
          if known.isEmpty then return []
          else Parse.fault (.emptyParameter (shown t.text used))
        else if s[k]? == some ')'.toUInt8 then return (x :: known).reverse
        else params t fuel used (x :: known) (s.drop (k + 1))

/-- Opens a macro, which is known by its name from its own body on. -/
def define (t : Tail) : Parse Unit := do
  Parse.build (·.changeEscape .undefined)
  let mark ← Parse.newMark false .undefined false
  match macroName? t.text with
  | none => Parse.fault (.defWithoutLeftParen t.text)
  | some (name, rest) =>
    if (← get).macros.any (·.name == name) then Parse.fault (.duplicateMacro t.text)
    else
      let signature : Signature := ⟨name, ← params t (rest.length + 1) [] [] rest⟩
      modify fun s => { s with macros := signature :: s.macros }
      Parse.openBlock .define mark (.define signature)

def lastIndex? (b : UInt8) (s : Bytes) : Option Nat :=
  (Bytes.findByte? (· == b) s.reverse).map fun k => s.length - 1 - k

/-- A call of a macro. An audit passes over calls of macros that do not exist. -/
def call (t : Tail) : Parse Unit := do
  let mark ← Parse.newMark false (← get).builder.escape false
  match macroName? t.text with
  | none => Parse.fault (.callWithoutLeftParen t.text)
  | some (name, rest) =>
    match (← get).macros.find? (·.name == name) with
    | none =>
      if (← read).audits then
        let message := (SyntaxFault.undefinedMacro t.text).message (← Parse.here)
        modify fun s => { s with passedOver := s.passedOver ++ [message.take Failure.limit] }
      else Parse.fault (.undefinedMacro t.text)
    | some signature =>
      match lastIndex? ')' rest with
      | none => Parse.fault (.callWithoutRightParen t.text)
      | some k =>
        let start := t.text.length - rest.length
        Parse.use t.base t.text [start + k]
        let inner := rest.take k
        let s := Bytes.stripLeft inner
        let offset := start + k - s.length
        let (args, ends) ← if s.isEmpty then pure ([], []) else do
          let (e, ends) ← Parse.expression false (t.base + offset) s
          pure (e.elements, ends.map (offset + ·))
        if args.length = signature.params.length then Parse.add mark (.call name args)
        else Parse.fault (.macroArguments signature.params.length args.length name
          (shown t.text ((start + k) :: ends)))

end TemplateKit.Directive
