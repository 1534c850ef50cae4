import TemplateKit.Proofs.Data.Line
import TemplateKit.Proofs.Escape.Place

/-!
# Checked URLs keep a safe scheme

The scheme of a URL is checked before the URL is escaped, and escaping drops bytes. What is dropped
is no slash, no question mark and no part of a safe scheme, so whoever decodes the entities finds a
URL that passes the check too.
-/

namespace TemplateKit

open List Ascii CharEntity Auto Bytes

namespace Bytes

theorem length_lower (s : Bytes) : (lower s).length = s.length := length_map _

theorem startsWithNoCase_iff {p s} (hp : lower p = p) :
    startsWithNoCase p s = true ↔ ∃ front rest, s = front ++ rest ∧ lower front = p := by
  rw [startsWithNoCase, startsWith_iff, hp]
  constructor
  · intro h
    refine ⟨s.take p.length, s.drop p.length, (take_append_drop _ _).symm,
      (h.eq_of_length_le ?_).symm⟩
    rw [length_lower]
    exact length_take_le _ _
  · rintro ⟨front, rest, rfl, rfl⟩
    exact ⟨[], by rw [append_nil, length_lower, take_left]⟩

end Bytes

namespace Url

/-- A URL without a scheme: no colon stands in front of the first slash or question mark. -/
def Relative (s : Bytes) : Prop :=
  ∀ front back, s = front ++ ':'.toUInt8 :: back → '/'.toUInt8 ∈ front ∨ '?'.toUInt8 ∈ front

/-- A URL that starts, behind blanks, with a safe scheme in any letter case. -/
def SafelySchemed (s : Bytes) : Prop :=
  ∃ blanks scheme rest, s = blanks ++ (scheme ++ rest) ∧ (∀ b ∈ blanks, isSpace b = true) ∧
    lower scheme ∈ safeSchemes

theorem relative_iff (s : Bytes) : Relative s ↔
    ':'.toUInt8 ∉ s.takeWhile fun b => b != '/'.toUInt8 && b != '?'.toUInt8 := by
  let inside (b : UInt8) : Bool := b != '/'.toUInt8 && b != '?'.toUInt8
  constructor
  · intro h hmem
    obtain ⟨front, back, hsp⟩ := append_of_mem hmem
    have hi : ∀ b ∈ front, inside b = true :=
      fun b hb => mem_takeWhile_imp (p := inside) (hsp ▸ mem_append_left _ hb)
    have hs := takeWhile_append_dropWhile (p := inside) (l := s)
    rw [hsp, append_assoc] at hs
    rcases h front _ hs.symm with hsl | hq
    · exact absurd (hi _ hsl) (by decide)
    · exact absurd (hi _ hq) (by decide)
  · rintro h front back rfl
    by_contra hn
    have hi : ∀ b ∈ front, inside b = true := by
      intro b hb
      have hsl : b ≠ '/'.toUInt8 := fun heq => hn (.inl (heq ▸ hb))
      have hq : b ≠ '?'.toUInt8 := fun heq => hn (.inr (heq ▸ hb))
      exact Bool.and_eq_true_iff.mpr ⟨bne_iff_ne.mpr hsl, bne_iff_ne.mpr hq⟩
    rw [takeWhile_append_of_pos hi, takeWhile_cons_of_pos (by decide)] at h
    exact h (by simp)

/-- The bytes of a safe scheme are no blanks and no control characters, in either case. -/
theorem printable_scheme {scheme} (h : lower scheme ∈ safeSchemes) :
    ∀ b ∈ scheme, isSpace b = false ∧ isControl b = false := by
  have hl : safeSchemes.all (·.all fun b => !isSpace b && !isControl b) = true := by decide
  intro b hb
  have hp := all_eq_true.mp (all_eq_true.mp hl _ h) _ (mem_map_of_mem hb)
  grind [toLower, isUpper, isSpace, isControl]

theorem isSafe_iff (s : Bytes) : isSafe s = true ↔ Relative s ∨ SafelySchemed s := by
  have hl : ∀ p ∈ safeSchemes, lower p = p := by decide
  rw [isSafe, Bool.or_eq_true, relative_iff, Bool.not_eq_true', ← Bool.not_eq_true, elem_iff,
    any_eq_true]
  refine or_congr_right ⟨?_, ?_⟩
  · rintro ⟨p, hp, hst⟩
    obtain ⟨scheme, rest, hs, rfl⟩ := (startsWithNoCase_iff (hl p hp)).mp hst
    refine ⟨s.takeWhile isSpace, scheme, rest, ?_, ?_, hp⟩
    · rw [← hs, stripLeft, takeWhile_append_dropWhile]
    · exact fun b hb => mem_takeWhile_imp hb
  · rintro ⟨blanks, scheme, rest, rfl, hbl, hsc⟩
    refine ⟨_, hsc, (startsWithNoCase_iff (hl _ hsc)).mpr ⟨scheme, rest, ?_, rfl⟩⟩
    rw [stripLeft_append hbl]
    cases scheme with
    | nil => exact absurd hsc (by decide)
    | cons b scheme => exact stripLeft_cons (printable_scheme hsc b mem_cons_self).1 _

theorem isSafe_filter {keep} (hke : ∀ b, keep b = false → isSpace b = true ∨ isControl b = true)
    {s} (h : isSafe s = true) : isSafe (s.filter keep) = true := by
  have hk : ∀ b, isSpace b = false → isControl b = false → keep b = true := by
    intro b hsp hc
    cases hb : keep b with
    | true => rfl
    | false => simpa [hsp, hc] using hke b hb
  rw [isSafe_iff] at h ⊢
  refine h.imp (fun h => ?_) ?_
  · intro front back heq
    obtain ⟨front', back', rfl, rfl, hba⟩ := filter_eq_append_iff.mp heq
    obtain ⟨before, after, rfl, hbe, -, -⟩ := filter_eq_cons_iff.mp hba
    have hmem : ∀ b, keep b = true → b ∈ front' ++ before → b ∈ front'.filter keep := by
      intro b hb hmem
      rcases mem_append.mp hmem with hmem | hmem
      · exact mem_filter.mpr ⟨hmem, hb⟩
      · exact absurd hb (hbe b hmem)
    exact (h (front' ++ before) after (by rw [append_assoc])).imp (hmem _ (hk _ rfl rfl))
      (hmem _ (hk _ rfl rfl))
  · rintro ⟨blanks, scheme, rest, rfl, hbl, hs⟩
    refine ⟨blanks.filter keep, scheme, rest.filter keep, ?_,
      fun b hb => hbl b (mem_of_mem_filter hb), hs⟩
    have hsa : scheme.filter keep = scheme := filter_eq_self.mpr fun b hb =>
      hk b (printable_scheme hs b hb).1 (printable_scheme hs b hb).2
    rw [filter_append, filter_append, hsa]

/-- What is decoded from a checked URL passes the check, whether it was replaced or escaped. -/
theorem isSafe_decode {special keep write}
    (hw : ∀ b, Written special keep b (write b)) (hamp : '&'.toUInt8 ∈ special)
    (hk : ∀ b, keep b = false → isSpace b = true ∨ isControl b = true) (s : Bytes) :
    isSafe (decode (if isSafe s then s.flatMap write else "#")) = true := by
  split
  · next hs =>
    rw [decode_flatMap hw hamp]
    exact isSafe_filter hk hs
  · decide

/-- A URL that has been checked and escaped has, once its entities are decoded, no scheme or a safe
one. -/
theorem safe_of_validated (s : Bytes) (c : AutoEscaper) (hstate : c.place.state = .value)
    (htype : c.place.attributeType = 2) (hquoted : c.place.attributeQuoted = false)
    (hindex : c.place.valueIndex = 0) :
    (∃ e, c.escape s = .ok e ∧ isSafe (decode e.text) = true ∧
      (Relative (decode e.text) ∨ SafelySchemed (decode e.text))) ∧
    isSafe (decode (validateHtml s)) = true ∧
      (Relative (decode (validateHtml s)) ∨ SafelySchemed (decode (validateHtml s))) := by
  have hauto : isSafe (decode (url false s).text) = true := by
    have htext : (url false s).text = if isSafe s then s.flatMap writeUnquoted else ascii "#" := by
      rw [url, ← htmlUnquoted_text]
      split <;> rfl
    rw [htext]
    refine isSafe_decode written_unquoted (by decide) (fun b hb => ?_) s
    grind [keptUnquoted]
  have hhtml : isSafe (decode (validateHtml s)) = true := by
    refine isSafe_decode Html.written_escapeByte (by decide) (fun b hb => ?_) s
    obtain rfl : b = 13 := by simpa using hb
    exact .inl rfl
  refine ⟨⟨url false s, ?_, hauto, (isSafe_iff _).mp hauto⟩, hhtml, (isSafe_iff _).mp hhtml⟩
  simp [AutoEscaper.escape, hstate, htype, hquoted, hindex]

/-- A scheme with a control character inside of it, which browsers pass over, is not let through. -/
theorem safe_of_validated_hidden_scheme :
    let c : AutoEscaper := ⟨⟨.value, 2, false, 0, false, false, false, none⟩, false⟩
    ∃ e, c.escape (ascii "java\tscript:a") = .ok e ∧ isSafe (decode e.text) = true := by
  intro c
  obtain ⟨⟨e, he, hsafe, -⟩, -⟩ := safe_of_validated (ascii "java\tscript:a") c rfl rfl rfl rfl
  exact ⟨e, he, hsafe⟩

end Url

end TemplateKit
