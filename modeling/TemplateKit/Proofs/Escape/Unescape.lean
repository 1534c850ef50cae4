import Mathlib.Data.List.Forall2
import TemplateKit.Escape.Auto
import TemplateKit.Escape.Script
import TemplateKit.Proofs.Bytes.Basic

/-!
# Escaped texts are read back

What is escaped with a mark, or for the query part of a URL, is unescaped to the same bytes. No
reserved byte is left in a query part, apart from the two that mark an escape and a blank.
-/

namespace TemplateKit

open List Ascii

theorem hexPair_read (b : UInt8) :
    ∃ h l, hexPair b = [h, l] ∧ isHexDigit h = true ∧ isHexDigit l = true ∧
      Marked.hexByte h l = b := by
  have hr := forall_byte (p := fun b => (hexPair b).all isHexDigit &&
    Marked.hexByte (hexDigit (b.toNat / 16)) (hexDigit (b.toNat % 16)) == b) (by decide +kernel) b
  simp only [hexPair, all_cons, all_nil, Bool.and_eq_true, beq_iff_eq] at hr
  exact ⟨_, _, rfl, hr.1.1, hr.1.2.1, hr.2⟩

namespace Marked

variable {mark : UInt8}

theorem unescape_unmarked {b} (hb : isMark mark b = false) (s : Bytes) :
    unescape mark (b :: s) = b :: unescape mark s := by
  match s with
  | [] => rfl
  | [h] => rfl
  | h :: l :: s => simp [unescape, hb]

theorem unescape_hexPair (hm : mark < 128) (b : UInt8) (s : Bytes) :
    unescape mark (mark :: hexPair b ++ s) = b :: unescape mark s := by
  obtain ⟨h, l, hp, hh, hl, hb⟩ := hexPair_read b
  rw [hp]
  simp [unescape, isMark, hm, hh, hl, hb]

/-- Unescaping with the same mark gives back every text, also if the mark or a listed byte is a
digit. -/
theorem unescape_escape_marked (hmark : mark < 128) (listed s : Bytes) :
    unescape mark (escape mark listed s) = s := by
  induction s with
  | nil => rfl
  | cons b s ih =>
    rw [escape, flatMap_cons]
    split
    · rw [unescape_hexPair hmark]
      exact congrArg _ ih
    · next hb =>
      rw [singleton_append, unescape_unmarked (by simp_all [isEscaped])]
      exact congrArg _ ih

/-- The sign is a letter that can be a digit as well. -/
theorem unescape_escape_marked_digit :
    unescape 65 (escape 65 (ascii "41") [65, 52, 49, 0]) = [65, 52, 49, 0] :=
  unescape_escape_marked (by decide) _ _

end Marked

namespace Url

theorem unescape_cons {b} (hpl : b ≠ '+'.toUInt8) (hp : b ≠ '%'.toUInt8) (s : Bytes) :
    unescape (b :: s) = b :: unescape s := by
  match s with
  | [] => simp [unescape, hpl]
  | [h] => simp [unescape, hpl]
  | h :: l :: s => simp [unescape, hpl, hp]

/-- The three ways in which a byte of a query part is written. -/
inductive Rule.Writes (rule : Rule) : UInt8 → Bytes → Prop
  | plain {b} (hprint : isPrint b = true) (hreserved : b ∉ queryReserved) : Writes rule b [b]
  | percent {b h l} (hh : isHexDigit h = true) (hl : isHexDigit l =
      true) (hb : Marked.hexByte h l = b) :
    Writes rule b ['%'.toUInt8, h, l]
  | plus (hplus : rule.spaceAsPlus = true) : Writes rule 32 ['+'.toUInt8]

/-- The rules by which parts of a query are escaped. -/
def queryRules : List Rule := [query, queryStrict]

variable {rule : Rule}

theorem writes_escapeByte (hr : rule ∈ queryRules) (other : Bytes) (b : UInt8) :
    rule.Writes b (rule.escapeByte other b) := by
  have hq : rule.reserved = queryReserved ∧ rule.escapesUnprintable = true := by
    simp only [queryRules, mem_cons, not_mem_nil, or_false] at hr
    rcases hr with rfl | rfl <;> exact ⟨rfl, rfl⟩
  rw [Rule.escapeByte, hq.1, hq.2]
  split
  · next hp =>
    simp only [Bool.and_eq_true, beq_iff_eq] at hp
    rw [hp.1.2]
    exact .plus hp.1.1
  · split
    · obtain ⟨h, l, hpa, hh, hl, hb⟩ := hexPair_read b
      rw [percent, hpa]
      exact .percent hh hl hb
    · next hb =>
      simp only [elem_eq_mem, Bool.true_and, Bool.or_eq_true, decide_eq_true_eq, Bool.not_eq_true',
        not_or] at hb
      exact .plain (by simpa using hb.1.2) hb.1.1

theorem Rule.Writes.unescape {b w} (h : rule.Writes b w) (rest : Bytes) :
    unescape (w ++ rest) = b :: unescape rest := by
  cases h with
  | plain _ hr =>
    have hne : ∀ c ∈ queryReserved, b ≠ c := fun c hc => (ne_of_mem_of_not_mem hc hr).symm
    exact unescape_cons (hne _ (by decide)) (hne _ (by decide)) rest
  | percent hh hl hb =>
    rw [cons_append, cons_append, cons_append, Url.unescape, hh, hl, hb]
    rfl
  | plus =>
    match rest with
    | [] | [_] | _ :: _ :: _ => rfl

theorem unescape_escape (hr : rule ∈ queryRules) (other s : Bytes) :
    unescape (rule.escape other s) = s := by
  induction s with
  | nil => rfl
  | cons b s ih =>
    calc
      _ = b :: unescape (rule.escape other s) := (writes_escapeByte hr other b).unescape _
      _ = b :: s := by rw [ih]

/-- Every byte of an escaped query part is printable and not reserved, or it belongs to an escape or
is a plus sign that stands for a blank, and unescaping undoes all of it. -/
theorem escaped_query_readable (hrule : rule ∈ queryRules) (other s : Bytes) :
    (∃ pieces, rule.escape other s = pieces.flatten ∧ Forall₂ rule.Writes s pieces) ∧
      unescape (rule.escape other s) = s := by
  refine ⟨⟨s.map (rule.escapeByte other), rfl, ?_⟩, unescape_escape hrule other s⟩
  rw [forall₂_map_right_iff, forall₂_same]
  exact fun b _ => writes_escapeByte hrule other b

theorem escaped_query_readable_digits :
    unescape (queryStrict.escape (ascii "2B+") (ascii "2 +B")) = ascii "2 +B" :=
  (escaped_query_readable (by simp [queryRules]) _ _).2

theorem query_mem : query ∈ queryRules := mem_cons_self

/-- A byte that marks nothing and is no digit is in an escaped text only if it stands for itself
there. -/
theorem mem_of_mem_escape {c s} (h : c ∈ query.escape [] s) (hpl : c ≠ '+')
    (hpe : c ≠ '%') (hd : isHexDigit c = false) : c ∈ s ∧ c ∉ queryReserved ∧ isPrint c = true := by
  obtain ⟨b, hb, hc⟩ := mem_flatMap.mp h
  have hw := writes_escapeByte query_mem [] b
  generalize query.escapeByte [] b = w at hc hw
  cases hw with
  | plain hp hr =>
    obtain rfl := mem_singleton.mp hc
    exact ⟨hb, hr, hp⟩
  | percent hh hl => grind
  | plus => exact absurd (mem_singleton.mp hc) hpl

theorem escape_ne_nil {s} (h : s ≠ []) : query.escape [] s ≠ [] := by
  intro hnil
  have hs := unescape_escape query_mem [] s
  rw [hnil] at hs
  exact h hs.symm

end Url

end TemplateKit

/-!
The escapers for script strings write each byte in a way that can be told apart from what follows
it. Reading the escapes from left to right gives the text back, and nothing in it can end the string
or act on the markup around it.
-/

namespace TemplateKit.Script

open List Ascii Marked

/-- The letters of the short escapes and what they stand for. -/
def shorts : List (UInt8 × UInt8) :=
  [('b', 8), ('t', 9), ('n', 10), ('f', 12), ('r', 13), ('"', '"'), ('/', '/'), ('\\', '\\')]

/-- Two hexadecimal digits as the code of an ASCII character. -/
def code? (h l : UInt8) : Option UInt8 :=
  if isHexDigit h && isHexDigit l && hexByte h l < 128 then some (hexByte h l) else none

/-- Reads the escapes of a string literal; JSON has no `\x`. A backslash that starts none of them is
refused, as is a character that is not ASCII. -/
def decode (isJson : Bool) : Bytes → Option Bytes
  | 92 :: 117 :: 48 :: 48 :: h :: l :: s => (code? h l).bind fun b => (decode isJson s).map (b :: ·)
  | 92 :: 120 :: h :: l :: s => if isJson then none
      else (code? h l).bind fun b => (decode isJson s).map (b :: ·)
  | 92 :: c :: s => (shorts.lookup c).bind fun b => (decode isJson s).map (b :: ·)
  | b :: s => if b = 92 then none else (decode isJson s).map (b :: ·)
  | [] => some []

/-- Bytes that neither end a string nor act on markup. -/
def isInert (b : UInt8) : Bool := 32 ≤ b && !(ascii "<>&\"'").elem b

/-- Is every byte inert? Where quotes may be marked, a double quote behind a backslash counts as
well; `last` is the byte in front. -/
def isClosed (marked : Bool) : (last : UInt8) → Bytes → Bool
  | _, [] => true
  | last, b :: s => (isInert b || (marked && b == '"' && last == 92)) && isClosed marked b s

/-- Is a text one of the ways to write a byte? -/
def spells (isJson : Bool) (b : UInt8) : Bytes → Bool
  | [c] => c == b && c != 92
  | [92, c] => shorts.lookup c == some b
  | [92, 120, h, l] => !isJson && code? h l == some b
  | [92, 117, 48, 48, h, l] => code? h l == some b
  | _ => false

/-- A text that can be read as a given one and is closed. -/
structure Lossless (isJson marked : Bool) (s t : Bytes) : Prop where
  decodes : decode isJson t = some s
  closed : isClosed marked 0 t = true

variable {isJson marked : Bool} {b : UInt8} {t : Bytes}

/-- Whatever follows it, a way to write a byte is read as that byte. -/
theorem decode_of_spells (h : spells isJson b t = true) (rest : Bytes) :
    decode isJson (t ++ rest) = (decode isJson rest).map (b :: ·) := by
  unfold spells at h
  split at h
  · next c =>
    simp only [Bool.and_eq_true, beq_iff_eq, bne_iff_ne] at h
    obtain ⟨rfl, hc⟩ := h
    rw [singleton_append, decode.eq_def]
    split <;> simp_all
  · next c =>
    rw [beq_iff_eq] at h
    have hc : c ≠ 117 ∧ c ≠ 120 := by constructor <;> (rintro rfl; cases h)
    simp [decode, hc, h]
  · simp only [Bool.and_eq_true, Bool.not_eq_true', beq_iff_eq] at h
    simp [decode, h]
  · rw [beq_iff_eq] at h
    simp [decode, h]
  · cases h

theorem isClosed_of_zero (h : isClosed marked 0 t = true) (last : UInt8) :
    isClosed marked last t = true := by
  cases t with
  | nil => rfl
  | cons b t =>
    rw [isClosed, Bool.and_eq_true] at h ⊢
    have hb : isInert b = true := by simpa using h.1
    exact ⟨by rw [hb, Bool.true_or], h.2⟩

theorem isClosed_append {last : UInt8} {u : Bytes} (h : isClosed marked last t = true)
    (hu : isClosed marked 0 u = true) :
    isClosed marked last (t ++ u) = true := by
  induction t generalizing last with
  | nil => exact isClosed_of_zero hu last
  | cons b t ih =>
    rw [isClosed, Bool.and_eq_true] at h
    rw [cons_append, isClosed, h.1, Bool.true_and, ih h.2]

theorem Lossless.flatMap {write : UInt8 → Bytes}
    (h : ∀ n < 256, (spells isJson (UInt8.ofNat n) (write (UInt8.ofNat n)) &&
      isClosed marked 0 (write (UInt8.ofNat n))) = true) (s : Bytes) :
      Lossless isJson marked s (s.flatMap write) := by
  induction s with
  | nil => exact ⟨rfl, rfl⟩
  | cons b s ih =>
    have hb := forall_byte (p := fun b => spells isJson b (write b) &&
      isClosed marked 0 (write b)) h b
    rw [Bool.and_eq_true] at hb
    rw [flatMap_cons]
    refine ⟨?_, isClosed_append hb.2 ih.closed⟩
    rw [decode_of_spells hb.1, ih.decodes, Option.map_some]

/-- The texts that the escapers for script strings write are closed and are read as what was
escaped. -/
theorem escapers_lossless (s : Bytes) : Lossless false false s (escape s) ∧
    Lossless true false s (escapeJson s) ∧
    (∀ quoted, Lossless false false s (Auto.script quoted s).text) ∧
    Lossless true true s (Auto.json s).text := by
  refine ⟨.flatMap (by decide +kernel) s, .flatMap (by decide +kernel) s, fun quoted => ?_,
    .flatMap (by decide +kernel) s⟩
  cases quoted with
  | false => exact .flatMap (by decide +kernel) s
  | true => exact .flatMap (by decide +kernel) s

end TemplateKit.Script
