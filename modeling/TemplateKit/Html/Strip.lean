import TemplateKit.Html.Entity

/-!
# Text of a page

Tags are dropped and entities replaced by what they stand for.
-/

namespace TemplateKit.Html

def longestEntity : Nat := 9

/-- What is left of a page without tags; `fuel` bounds its length. An entity that is too long is
text, and one that the page breaks off is dropped. A zero byte ends the name of an entity. -/
def textOf : (fuel : Nat) → Bytes → Bytes
  | 0, _ => []
  | _ + 1, [] => []
  | fuel + 1, b :: s =>
    if b == '&'.toUInt8 then
      match Bytes.cutAt (· == ';'.toUInt8) (s.take (longestEntity + 1)) with
      | (name, some _) => Entity.expand (Bytes.lower (Bytes.untilNul name)) ++
          textOf fuel (s.drop (name.length + 1))
      | (_, none) => if s.length > longestEntity then b :: textOf fuel s else []
    else if b == '<'.toUInt8 then textOf fuel ((s.dropWhile (· != '>'.toUInt8)).drop 1)
    else b :: textOf fuel s

def strip (s : Bytes) : Bytes := (textOf (s.length + 1) s).untilNul

end TemplateKit.Html
