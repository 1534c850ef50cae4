import TemplateKit.Bytes.Basic

/-!
# White space of pages

Runs of blanks are cut to one blank, blank lines and blanks at the end of lines are dropped. Tags,
and whatever is preformatted, stay as they are. At a level above one, blanks at the start of a line
are runs too.
-/

namespace TemplateKit.Html

/-- Text areas and preformatted text, by the start of the opening tag and the whole closing one. -/
def verbatim : List (Bytes × Bytes) :=
  [("textarea", "</textarea>"), ("pre", "</pre>")]

/-- How much of a text there is up to the end of the first `stop`, in any letter case; `seen` is
what is in front, backwards and in small letters. -/
def through? (stop seen : Bytes) : Bytes → Option Nat
  | [] => none
  | b :: s =>
    if Bytes.startsWith stop.reverse (Ascii.toLower b :: seen) then some 1
    else (through? stop (Ascii.toLower b :: seen) s).map (· + 1)

/-- What closes the tag or the preformatted text behind a `<`. -/
def closing (s : Bytes) : Bytes :=
  match verbatim.find? fun (start, _) => Bytes.startsWithNoCase start s with
  | some (_, stop) => stop
  | none => ">"

/-- How much of the text behind a `<` is copied; all of it if it is not closed. -/
def tagLength (s : Bytes) : Nat := (through? (closing s) [] s).getD s.length

/-- The state of squeezing: was the last byte a blank, and was there anything else in this line? -/
structure Squeeze where
  kept : Bytes
  inBlank : Bool
  seen : Bool

/-- One more byte. Blanks before a line end go, and of blanks in a row the first one stays. -/
def squeezeByte (eager : Bool) (st : Squeeze) (b : UInt8) : Squeeze :=
  if b == '\n' then ⟨b :: st.kept.dropWhile Ascii.isSpace, eager, eager⟩
  else if st.seen && Ascii.isSpace b then
    if st.inBlank then st else ⟨b :: st.kept, true, true⟩
  else ⟨b :: st.kept, false, true⟩

/-- The first `copied` bytes are copied. -/
def squeeze (eager : Bool) : Squeeze → (copied : Nat) → Bytes → Bytes
  | st, _, [] => st.kept.reverse
  | st, copied + 1, b :: s => squeeze eager ⟨b :: st.kept, false, true⟩ copied s
  | st, 0, b :: s =>
    if b == '<' then squeeze eager ⟨b :: st.kept, false, true⟩ (tagLength s) s
    else squeeze eager (squeezeByte eager st b) 0 s

def squeezeBlanks (level : Int) (s : Bytes) : Bytes :=
  let eager : Bool := level > 1
  squeeze eager ⟨[], s.head?.any Ascii.isSpace, eager⟩ 0 s

end TemplateKit.Html
