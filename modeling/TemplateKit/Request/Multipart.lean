import TemplateKit.Request.ContentType
import TemplateKit.Request.Lines

/-!
# Forms in parts

The parts of a form stand between boundary lines. A part has headers, an empty line and a content; a
header is continued by lines that start with a blank. A part with a file name is a file.
-/

namespace TemplateKit

/-- What the headers of a part say about it. -/
structure PartHeader where
  name : Option Bytes := none
  filename : Option Bytes := none
  type : Option Bytes := none
deriving DecidableEq, Repr

/-- A part of a body with its lines, line ends included. -/
structure Part where
  header : PartHeader
  lines : List Bytes
deriving DecidableEq, Repr

namespace Part

/-- The line without its end. -/
def chop (line : Bytes) : Bytes :=
  match line.reverse with
  | 10 :: 13 :: s => s.reverse
  | 10 :: s => s.reverse
  | _ => line

/-- The content of a file: the line end in front of the boundary belongs to the boundary. -/
def content (p : Part) : Bytes :=
  match p.lines.getLast? with
  | some line => p.lines.dropLast.flatten ++ chop line
  | none => []

def value (p : Part) : Bytes := Bytes.stripRight p.lines.flatten

end Part

/-- What a line says about the boundary between parts. -/
inductive BoundaryMark where
  | absent
  | between
  | final
deriving DecidableEq, Repr

namespace Multipart

open LineReader (Action)

def dashes : Bytes := "--"

/-- A boundary line has its line end; two more dashes make it the last one. -/
def markOf (boundary : Option Bytes) (line : Bytes) : BoundaryMark :=
  match boundary with
  | none => .absent
  | some b =>
    if line.getLast? = some 10 then
      let text := Part.chop line
      if text == dashes ++ b then .between
      else if text == dashes ++ b ++ dashes then .final
      else .absent
    else .absent

/-- Adds the lines that continue a header; tells whether the body ended. -/
def continueHeader : (fuel : Nat) → Bytes → Action (Bytes × Bool)
  | 0, text => pure (text, true)
  | fuel + 1, text => do
    match ← LineReader.next with
    | none => return (text, true)
    | some line =>
      if line.head? = some 32 ∨ line.head? = some 9 then
        continueHeader fuel (text ++ 32 :: Bytes.strip line)
      else
        LineReader.giveBack
        return (text, false)

/-- A header with the lines that continue it; also whether the input has ended. -/
def readHeader : Action (Bytes × Bool) := do
  match ← LineReader.next with
  | none => return ([], true)
  | some line =>
    if line.head?.any Ascii.isSpace then return ([], false)
    else continueHeader ((← get).bound) (Bytes.stripRight line)

def encodings : List Bytes := ["7bit", "8bit", "binary"]

/-- What a header says about a part; a later header of a kind replaces an earlier one. -/
def takeHeader (h : PartHeader) (text : Bytes) : Except RequestFault PartHeader :=
  match text.untilNul.cutAt (· == ':') with
  | (_, none) => .ok h
  | (key, some value) =>
    if Bytes.equalsNoCase key "content-disposition" then
      .ok { h with
        name := ContentType.attributeOf? "name" value
        filename := ContentType.attributeOf? "filename" value }
    else if Bytes.equalsNoCase key "content-type" then
      .ok { h with type := ContentType.firstWord? value }
    else if Bytes.equalsNoCase key "content-encoding" then
      match ContentType.firstWord? value with
      | some e => if encodings.elem e then .ok h else .error .unknownEncoding
      | none => .ok h
    else .ok h

/-- The headers up to an empty line. -/
def readHeaders : (fuel : Nat) → PartHeader → Action (PartHeader × Bool)
  | 0, h => pure (h, true)
  | fuel + 1, h => do
    let (text, ended) ← readHeader
    if ended then return (h, true)
    if text.untilNul.isEmpty then return (h, false)
    match takeHeader h text with
    | .ok h => readHeaders fuel h
    | .error e => throw e

/-- The lines up to a boundary, and whether it is the final one or the end of the input. -/
def readLines (boundary : Option Bytes) : (fuel : Nat) → Action (List Bytes × Bool)
  | 0 => pure ([], true)
  | fuel + 1 => do
    match ← LineReader.next with
    | none => return ([], true)
    | some line =>
      match markOf boundary line with
      | .between => return ([], false)
      | .final => return ([], true)
      | .absent =>
        let (lines, ended) ← readLines boundary fuel
        return (line :: lines, ended)

end Multipart

end TemplateKit
