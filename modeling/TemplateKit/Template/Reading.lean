import TemplateKit.Storage.Source

/-!
# Where the reading of a template is

Messages tell the file and the line that the reader has come to. In a file the line is found by
reading the file again; in any other text the newlines that are left are counted, since the reader
uses up those that end a word.
-/

namespace TemplateKit

/-- The text that is read now and where in it the reader is. -/
structure Reading where
  text : Option Bytes := none
  offset : Nat := 0
  /-- The offsets of the newlines that are used up. -/
  usedLines : List Nat := []
  /-- Where the text ends for the reader, if that is before its end. -/
  stop : Option Nat := none

namespace Reading

def newline : UInt8 := '\n'

/-- Uses up bytes of `part`, which stands at the offset `base`. The text ends for the reader at the
first of them that it has not passed. -/
def use (r : Reading) (base : Nat) (part : Bytes) (places : List Nat) : Reading :=
  let lines := (places.filter fun k => part[k]? == some newline).map (base + ·)
  let ahead := (places.map (base + ·)).filter (r.offset ≤ ·)
  { r with
    usedLines := (lines.filter (!r.usedLines.elem ·)).eraseDups ++ r.usedLines
    stop := (ahead ++ r.stop.toList).min? }

def line (r : Reading) (text : Bytes) (offset : Nat) : Nat :=
  1 + (text.take offset).count newline - (r.usedLines.filter (· < offset)).length

end Reading

/-- Where something is, counted in lines and columns from one; zero stands for not counted yet. -/
structure Position where
  line : Nat := 0
  column : Nat := 0
  offset : Nat := 0

namespace Position

/-- The position behind a text. Newlines that were used up do not start a line. -/
def pass (used : List Nat) : Position → Bytes → Position
  | p, [] => p
  | p, b :: rest =>
    let p := if b == Reading.newline && !used.elem p.offset then ⟨p.line + 1, 1, p.offset + 1⟩
      else ⟨p.line, p.column + 1, p.offset + 1⟩
    pass used p rest

def advance (p : Position) (r : Reading) (text : Bytes) : Position :=
  pass r.usedLines ⟨max 1 p.line, max 1 p.column, p.offset⟩
    ((text.drop p.offset).take (r.offset - p.offset))

end Position

/-- The reader's place, and the name of the file or value that the text came from. -/
structure Whereabouts where
  reading : Reading := {}
  context : Option Bytes := none
  inFile : Bool := false

namespace Whereabouts

def piece : Nat := 255

def room : Nat := 255

/-- The lines of a file up to an offset, read in pieces; a zero byte hides the rest of a piece. -/
def linesThrough : (fuel : Nat) → (left : Nat) → Bytes → Nat
  | 0, _, _ => 0
  | fuel + 1, left, content =>
    if content.isEmpty then 0
    else
      let line := content.takeWhile (· != Reading.newline)
      let chunk := content.take (min piece (line.length + 1))
      let seen := Bytes.untilNul chunk
      let here := if seen.elem Reading.newline then 1 else 0
      if left < seen.length then here
      else here + linesThrough fuel (left - seen.length) (content.drop chunk.length)

/-- The text of a file; texts that stand for files are not looked at. -/
def fileContent? (source : Source) (path : Bytes) : Option Bytes :=
  match source with
  | .disk files => (files.load path).toOption
  | .table _ => none

/-- A place as messages name it, by file and line where the file can be read. -/
def describe (w : Whereabouts) (source : Source) (offset : Nat) : Bytes :=
  let inBrackets (s : Bytes) : Bytes := ("[" ++ s ++ "]").take room
  match w.inFile, w.context, w.reading.text with
  | true, some path, _ =>
    match fileContent? source path with
    | some content =>
      inBrackets (path ++ ":" ++ Numeral.ofNat (linesThrough (content.length + 1) offset content))
    | none => inBrackets ("-E- " ++ path ++ ":" ++ Numeral.ofNat offset)
  | _, context, some text =>
    inBrackets (context.getD "lineno" ++ ":~" ++ Numeral.ofNat (w.reading.line text offset))
  | _, context, none => inBrackets (context.getD "offset" ++ ":" ++ Numeral.ofNat offset)

def here (w : Whereabouts) (source : Source) : Bytes := w.describe source w.reading.offset

end Whereabouts

end TemplateKit
