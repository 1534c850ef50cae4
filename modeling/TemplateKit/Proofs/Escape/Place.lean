import Mathlib.Data.List.Basic
import TemplateKit.Escape.Auto

/-!
# Values stay in their places

An attribute value without quotes ends at a blank, so whatever is written there has none, whichever
of the escapers for attributes has written it. In the text of a page, automatic escaping writes what
escaping for HTML writes, but for carriage returns.

## Entities

Escaped text is made of entities and of bytes that are no ampersand. So it can be decoded, and
decoding gives back the text that was escaped, less the bytes that escaping drops.
-/

namespace TemplateKit

open List

/-- A character with its entity, given by what stands behind the ampersand. -/
structure CharEntity where
  char : UInt8
  name : Bytes
deriving DecidableEq

namespace CharEntity

variable {e : CharEntity}

def text (e : CharEntity) : Bytes := '&' :: e.name

/-- The entities of escaped text. -/
def known : List CharEntity :=
  [⟨'&', "amp;"⟩, ⟨'<', "lt;"⟩, ⟨'>', "gt;"⟩, ⟨'"', "quot;"⟩, ⟨'\'', "#39;"⟩, ⟨'=', "#61;"⟩]

/-- Puts characters in the place of entities. The first `skip` bytes belong to an entity that was
read already. -/
def decodeFrom : (skip : Nat) → Bytes → Bytes
  | _, [] => []
  | skip + 1, _ :: s => decodeFrom skip s
  | 0, b :: s =>
    if b = '&' then
      match known.find? fun e => e.name.isPrefixOf s with
      | some e => e.char :: decodeFrom e.name.length s
      | none => b :: decodeFrom 0 s
    else b :: decodeFrom 0 s

/-- What a reader of the page sees in place of its entities. -/
def decode (s : Bytes) : Bytes := decodeFrom 0 s

theorem decodeFrom_length (front s : Bytes) : decodeFrom front.length (front ++ s) = decode s := by
  induction front with
  | nil => rfl
  | cons b front ih => exact ih

theorem decode_cons {b} (hb : b ≠ '&'.toUInt8) (s : Bytes) : decode (b :: s) = b :: decode s := by
  rw [decode, decodeFrom, if_neg hb]
  rfl

/-- No name of an entity starts with another one, so an entity is found whatever follows it. -/
theorem find?_name (he : e ∈ known) (s : Bytes) :
    (known.find? fun d => d.name.isPrefixOf (e.name ++ s)) = some e := by
  simp only [known, mem_cons, not_mem_nil, or_false] at he
  rcases he with rfl | rfl | rfl | rfl | rfl | rfl <;> rfl

theorem decode_text (he : e ∈ known) (s : Bytes) : decode (e.text ++ s) = e.char :: decode s := by
  simp only [decode, text, cons_append, decodeFrom, if_true, find?_name he, decodeFrom_length]

theorem ampersand_not_mem_name (he : e ∈ known) : '&'.toUInt8 ∉ e.name := by
  revert e
  decide

theorem exists_entity {b} (hb : b ∈ ascii "&<>\"'=") :
    ∃ e ∈ known, e.char = b ∧ Auto.entity b = e.text := by
  have hc : known.map (·.char) = "&<>\"'=" := by decide
  have hen : ∀ e ∈ known, Auto.entity e.char = e.text := by decide
  rw [← hc] at hb
  obtain ⟨e, he, rfl⟩ := mem_map.mp hb
  exact ⟨e, he, rfl, hen e he⟩

/-- Does every ampersand of a text start an entity? -/
def Spelled (t : Bytes) : Prop :=
  ∀ front back, t = front ++ '&'.toUInt8 :: back → ∃ e ∈ known, e.text <+: '&'.toUInt8 :: back

theorem spelled_of_not_mem {t} (h : '&'.toUInt8 ∉ t) : Spelled t := by
  rintro front back rfl
  exact absurd (by simp) h

theorem spelled_text (he : e ∈ known) : Spelled e.text := by
  intro front back heq
  rcases front with _ | ⟨b, front⟩
  · exact ⟨e, he, heq ▸ prefix_rfl⟩
  · rw [text, cons_append, cons.injEq] at heq
    exact absurd (heq.2 ▸ by simp) (ampersand_not_mem_name he)

theorem Spelled.append {s t} (hs : Spelled s) (ht : Spelled t) : Spelled (s ++ t) := by
  intro front back heq
  rcases append_eq_append_iff.mp heq with ⟨more, rfl, hb⟩ | ⟨more, rfl, hb⟩
  · exact ht more back hb
  · cases more with
    | nil => exact ht [] back hb.symm
    | cons b more =>
      obtain ⟨rfl, rfl⟩ := cons.inj hb
      obtain ⟨e, he, hp⟩ := hs front more rfl
      exact ⟨e, he, hp.trans (prefix_append _ t)⟩

theorem Spelled.flatMap {write : UInt8 → Bytes} {s : Bytes} (h : ∀ b ∈ s, Spelled (write b)) :
    Spelled (s.flatMap write) := by
  induction s with
  | nil => exact spelled_of_not_mem not_mem_nil
  | cons b s ih => exact (h b mem_cons_self).append (ih fun c hc => h c (mem_cons_of_mem b hc))

/-- How a byte is written: dropped, as itself or, if it is special, as its entity. -/
inductive Written (special : Bytes) (keep : UInt8 → Bool) (b : UInt8) : Bytes → Prop
  | dropped (h : keep b = false) : Written special keep b []
  | plain (h : keep b = true) (hb : b ∉ special) : Written special keep b [b]
  | entity {e : CharEntity} (h : keep b = true) (he : e ∈ known) (hb : e.char = b) :
      Written special keep b e.text

theorem decode_flatMap {special keep write}
    (h : ∀ b, Written special keep b (write b)) (hamp : '&'.toUInt8 ∈ special) (s : Bytes) :
    decode (s.flatMap write) = s.filter keep := by
  induction s with
  | nil => rfl
  | cons b s ih =>
    rw [flatMap_cons]
    generalize hw : write b = piece
    cases hw ▸ h b with
    | dropped hk => rw [filter_cons_of_neg (by simp [hk]), nil_append, ih]
    | plain hk hb => rw [filter_cons_of_pos hk, singleton_append,
        decode_cons (fun heq => hb (by rwa [heq])), ih]
    | entity hk he hb => rw [filter_cons_of_pos hk, decode_text he, hb, ih]

end CharEntity

open CharEntity

namespace Html

theorem escapeByte_eq (b : UInt8) :
    escapeByte b = if b ∈ ascii "&<>\"'" then Auto.entity b else if b = 13 then [] else [b] := by
  have hl : "&<>\"'" = ['&'.toUInt8, '<', '>', '"', '\''.toUInt8] := rfl
  simp only [escapeByte, Auto.entity]
  grind

theorem written_escapeByte (b : UInt8) : Written "&<>\"'" (· != 13) b (escapeByte b) := by
  rw [escapeByte_eq]
  split
  · next hb =>
    obtain ⟨e, he, hc, ht⟩ := exists_entity (show b ∈ ascii "&<>\"'=" from mem_append_left "=" hb)
    have hk : (b != 13) = true := by
      rw [bne_iff_ne]
      rintro rfl
      exact absurd hb (by decide)
    rw [ht]
    exact .entity hk he hc
  · next hb =>
    split
    · next hcr => exact .dropped (by simp [hcr])
    · next hcr => exact .plain (by simpa using hcr) hb

end Html

/-! ## Attribute values -/

open List Ascii CharEntity Auto Html
variable {b : UInt8}

/-- Bytes that mean nothing in an attribute value without quotes. -/
def Inert (b : UInt8) : Prop := isSpace b = false ∧ isControl b = false ∧ b ∉ ascii "<>\"'="

/-- A text that cannot leave an attribute value without quotes. -/
structure Confined (t : Bytes) : Prop where
  inert : ∀ b ∈ t, Inert b
  spelled : Spelled t

/-- Inert bytes that start no entity. -/
def isPlain (b : UInt8) : Bool := !isSpace b && !isControl b && !(ascii "&<>\"'=").elem b

theorem isPlain_iff : isPlain b = true ↔ Inert b ∧ b ≠ '&'.toUInt8 := by
  simp only [isPlain, Inert, show "&<>\"'=" = '&'.toUInt8 :: "<>\"'=" from rfl]
  simp [and_assoc, and_comm]

theorem isPlain_of_lt (h : 32 < b) (hd : b ≠ 127) (hl : b ∉ ascii "&<>\"'=") :
    isPlain b = true := by
  have hb : isSpace b = false := by grind [isSpace]
  have hc : isControl b = false := by grind [isControl]
  simp [isPlain, hb, hc, hl]

theorem isPlain_of_isAlnum (h : isAlnum b = true) : isPlain b = true := by
  have hl : ascii "&<>\"'=" = [38, 60, 62, 34, 39, 61] := by decide
  simp only [isAlnum, isAlpha, isUpper, isLower, isDigit] at h
  refine isPlain_of_lt (by grind) (by grind) ?_
  grind

theorem isPlain_of_ge (h : b ≥ 128) : isPlain b = true := by
  have hl : ascii "&<>\"'=" = [38, 60, 62, 34, 39, 61] := by decide
  refine isPlain_of_lt (by grind) (by grind) ?_
  grind

namespace Confined

theorem of_plain {t} (h : t.all isPlain = true) : Confined t := by
  simp only [all_eq_true, isPlain_iff] at h
  exact ⟨fun b hb => (h b hb).1, spelled_of_not_mem fun hamp => (h _ hamp).2 rfl⟩

theorem flatMap {write : UInt8 → Bytes} {s : Bytes} (h : ∀ b ∈ s, Confined (write b)) :
    Confined (s.flatMap write) := by
  refine ⟨fun c hc => ?_, .flatMap fun b hb => (h b hb).spelled⟩
  obtain ⟨b, hb, hcb⟩ := mem_flatMap.mp hc
  exact (h b hb).inert c hcb

theorem entity {e} (he : e ∈ known) : Confined e.text := by
  have hn : ∀ e ∈ known, e.name.all isPlain = true := by decide
  refine ⟨forall_mem_cons.mpr ⟨?_, (of_plain (hn e he)).inert⟩, spelled_text he⟩
  exact ⟨by decide, by decide, by decide⟩

end Confined

namespace Auto

variable {s : Bytes}

/-- What is left of a value in an attribute without quotes. -/
def keptUnquoted (b : UInt8) : Bool := !(isSpace b || (b != 0 && isControl b))

def writeUnquoted (b : UInt8) : Bytes := if keptUnquoted b then if b ∈ ascii "&<>\"'=" then entity b
    else [b] else []

theorem htmlUnquoted_text (s : Bytes) : (htmlUnquoted s).text = s.flatMap writeUnquoted := by
  refine flatMap_congr fun b _ => ?_
  rw [writeUnquoted, keptUnquoted]
  beta_reduce
  cases isSpace b || (b != 0 && isControl b) <;> simp

theorem written_unquoted (b : UInt8) : Written "&<>\"'=" keptUnquoted b (writeUnquoted b) := by
  rw [writeUnquoted]
  split
  · next hk =>
    split
    · next hb =>
      obtain ⟨e, he, hc, ht⟩ := exists_entity hb
      rw [ht]
      exact .entity hk he hc
    · next hb => exact .plain hk hb
  · next hk => exact .dropped (by simpa using hk)

theorem confined_htmlUnquoted (hs : 0 ∉ s) : Confined (htmlUnquoted s).text := by
  rw [htmlUnquoted_text]
  refine .flatMap fun b hb => ?_
  have hz : b ≠ 0 := fun h => hs (h ▸ hb)
  generalize hw : writeUnquoted b = piece
  cases hw ▸ written_unquoted b with
  | dropped => exact .of_plain rfl
  | entity _ he _ => exact .entity he
  | plain hk hp =>
    refine .of_plain ?_
    simpa [isPlain, hp, keptUnquoted, hz] using hk

theorem confined_url (hs : 0 ∉ s) : Confined (url false s).text := by
  rw [url]
  split
  · exact confined_htmlUnquoted hs
  · exact .of_plain (by decide)

theorem confined_hexPair (b : UInt8) : Confined ("\\x" ++ hexPair b) := by
  have hd : ∀ d < 16, isPlain (hexDigit d) = true := by decide
  have hb := b.toNat_lt
  refine .of_plain ?_
  simp only [hexPair, all_append, all_cons, hd _ (show b.toNat / 16 < 16 by omega),
    hd _ (show b.toNat % 16 < 16 by omega)]
  decide

theorem confined_script (s : Bytes) : Confined (script false s).text := by
  have hall : ascii "&<>\"'=" ⊆ ascii "&<>\"'/\\;= " := by decide
  refine .flatMap fun b _ => ?_
  rw [if_neg Bool.false_ne_true]
  split
  · exact confined_hexPair b
  · next hp =>
    simp only [Bool.or_eq_true, elem_iff, not_or] at hp
    obtain ⟨hl, hc⟩ := hp
    have hs : b ≠ 32 := fun h => hl (h ▸ by decide)
    refine .of_plain (all_eq_true.mpr (forall_mem_singleton.mpr (isPlain_of_lt ?_ ?_ ?_)))
    · grind [isControl]
    · grind [isControl]
    · exact fun h => hl (hall h)

theorem confined_style (s : Bytes) : Confined (style false s).text := by
  refine .of_plain (all_eq_true.mpr fun b hb => ?_)
  have hl : (ascii "_.,!#%-").all isPlain = true := by decide
  have ha := (mem_filter.mp hb).2
  simp only [Bool.and_false, Bool.or_false, Bool.or_eq_true, decide_eq_true_eq, elem_iff] at ha
  rcases ha with (hal | hmem) | hge
  · exact isPlain_of_isAlnum hal
  · exact all_eq_true.mp hl b hmem
  · exact isPlain_of_ge hge

theorem isPlain_of_isNumberByte {b} (h : isNumber.isNumberByte b = true) : isPlain b = true := by
  have hl : (ascii "+-.eE").all isPlain = true := by decide
  rw [isNumber.isNumberByte, Bool.or_eq_true, elem_iff] at h
  rcases h with hd | hmem
  · exact isPlain_of_isAlnum (by simp [isAlnum, hd])
  · exact all_eq_true.mp hl b hmem

theorem all_isPlain_of_isNumber (h : isNumber s = true) : s.all isPlain = true := by
  have hn : ∀ t : Bytes, t.all isNumber.isNumberByte = true → t.all isPlain = true :=
    fun t ht => all_eq_true.mpr fun b hb => isPlain_of_isNumberByte (all_eq_true.mp ht b hb)
  simp only [isNumber, Bool.or_eq_true, beq_iff_eq] at h
  rcases h with (rfl | rfl) | h
  · decide
  · decide
  · split at h
    · next x d digits =>
      split at h
      · next hx =>
        have hp : isPlain x = true := by rcases hx with rfl | rfl <;> decide
        have hd : (d :: digits).all isPlain = true :=
          all_eq_true.mpr fun b hb => isPlain_of_isAlnum (by
            grind [isHexDigit, isAlnum, isAlpha, isUpper, isLower, all_eq_true.mp h b hb])
        rw [all_cons, all_cons, hd, hp]
        decide
      · exact hn _ h
    · exact hn s h

theorem confined_number (s : Bytes) : Confined (number s).text := by
  rw [number]
  split
  · next hn => exact .of_plain (all_isPlain_of_isNumber hn)
  · exact .of_plain (by decide)

/-- A carriage return becomes a blank that does not break; every other byte is written as escaping
for HTML does. -/
theorem html_text (s : Bytes) : (html s).text = s.flatMap fun b => if b = 13 then ascii "&nbsp;"
    else escapeByte b := by
  refine flatMap_congr fun b _ => ?_
  split_ifs with hl hcr hcr
  · exact hcr ▸ rfl
  · have hmem : b ∈ ascii "&<>\"'" := by
      rw [elem_iff, show ascii "&<>\"'\r" = ascii "&<>\"'" ++ [13] from rfl, mem_append,
        mem_singleton] at hl
      exact hl.resolve_right hcr
    rw [escapeByte_eq, if_pos hmem]
  · exact absurd (hcr ▸ by decide) hl
  · have hmem : b ∉ ascii "&<>\"'" := fun h => hl (elem_iff.mpr (mem_append_left [13] h))
    rw [escapeByte_eq, if_neg hmem, if_neg hcr]

theorem length_html (s : Bytes) : (html s).text.length = (escape s).length + 6 * s.count 13 := by
  rw [html_text, escape]
  induction s with
  | nil => rfl
  | cons b s ih =>
    rw [flatMap_cons, flatMap_cons, length_append, length_append]
    by_cases hcr : b = 13
    · subst hcr
      rw [count_cons_self, if_pos rfl, show escapeByte 13 = [] from rfl,
        show (ascii "&nbsp;").length = 6 from rfl, length_nil]
      omega
    · rw [count_cons_of_ne hcr, if_neg hcr]
      omega

theorem html_eq_iff (s : Bytes) : (html s).text = escape s ↔ 13 ∉ s := by
  constructor
  · intro heq
    have hl := length_html s
    rw [heq] at hl
    exact count_eq_zero.mp (by omega)
  · intro hcr
    rw [html_text]
    refine flatMap_congr fun b hb => if_neg ?_
    rintro rfl
    exact hcr hb

end Auto

namespace AutoEscaper

/-- A value in an attribute without quotes is escaped so that it cannot end there, whatever kind of
attribute it is. -/
theorem escape_confined (c : AutoEscaper) (s : Bytes) (hs : 0 ∉ s) (hstate : c.place.state = .value)
    (hquoted : c.place.attributeQuoted = false)
    (htype : c.place.attributeType = 1 ∨ c.place.attributeType = 2 ∨ c.place.attributeType = 3 ∨
      c.place.attributeType = 4) : ∃ e, c.escape s = .ok e ∧ Confined e.text := by
  rcases htype with htype | htype | htype | htype
  · refine ⟨htmlUnquoted s, ?_, confined_htmlUnquoted hs⟩
    simp [escape, hstate, htype, hquoted, attributeValue]
  · by_cases hindex : c.place.valueIndex = 0
    · refine ⟨url false s, ?_, confined_url hs⟩
      simp [escape, hstate, htype, hquoted, hindex]
    · refine ⟨htmlUnquoted s, ?_, confined_htmlUnquoted hs⟩
      simp [escape, hstate, htype, hquoted, hindex, attributeValue]
  · cases hscript : c.place.scriptQuoted with
    | true =>
      refine ⟨script false s, ?_, confined_script s⟩
      simp [escape, hstate, htype, hquoted, hscript]
    | false =>
      refine ⟨number s, ?_, confined_number s⟩
      simp [escape, hstate, htype, hscript]
  · refine ⟨style false s, ?_, confined_style s⟩
    simp [escape, hstate, htype, hquoted]

/-- A script string that tries to close the tag and to add an attribute. -/
theorem escape_confined_script : let c : AutoEscaper :=
  ⟨⟨.value, 3, false, 7, true, true, false, none⟩, false⟩
    let s := ascii "' onload=\"&\t>"
    0 ∉ s ∧ ∃ e, c.escape s = .ok e ∧ Confined e.text := by
  intro c s
  have hs : 0 ∉ s := by decide
  exact ⟨hs, escape_confined c s hs rfl rfl (by decide)⟩

/-- In the text of a page, automatic escaping and escaping for HTML agree on the texts without
carriage returns. -/
theorem escape_page_text (c : AutoEscaper) (s : Bytes) (hstate : c.place.state = .text)
    (hscript : c.place.inScript = false)
    (htag : c.place.tag ≠ some (ascii "style")) : ∃ e, c.escape s = .ok e ∧
      e.text = (s.flatMap fun b => if b = 13 then ascii "&nbsp;" else escapeByte b) ∧
        (e.text = Html.escape s ↔ 13 ∉ s) := by
  refine ⟨html s, ?_, html_text s, html_eq_iff s⟩
  simp [escape, hstate, hscript, htag]

theorem escape_page_text_lines : let c : AutoEscaper :=
  ⟨⟨.text, 0, false, 0, false, false, false, none⟩, false⟩
    ∃ e, c.escape (ascii "a<b\r\n&'") = .ok e ∧ e.text = ascii "a&lt;b&nbsp;\n&amp;&#39;" := by
  intro c
  obtain ⟨e, he, htext, -⟩ := escape_page_text c (ascii "a<b\r\n&'") rfl rfl nofun
  exact ⟨e, he, htext⟩

/-- A carriage return is where the two differ. -/
theorem escape_page_text_return : let c : AutoEscaper :=
  ⟨⟨.text, 0, false, 0, false, false, false, none⟩, false⟩
    c.escape (ascii "\r") = .ok ⟨ascii "&nbsp;", true⟩ ∧ Html.escape (ascii "\r") = [] := ⟨rfl, rfl⟩

end AutoEscaper

end TemplateKit
