import Mathlib.Computability.Language
import TemplateKit.Pattern.Glob
import TemplateKit.Proofs.Bytes.Basic

/-!
# The language of a wildcard pattern

A pattern that is written as it should be has parts, and each part has a language; that of the
pattern is their product. The matcher tries only its last star again and gives up as soon as the
text is used up. It decides the language all the same: what is too short for the rest of a pattern
has no end that is long enough.
-/

namespace TemplateKit

open List Ascii

/-- The bytes from one to another, in the order of signed bytes. -/
def GlobRange.Has (r : GlobRange) (b : UInt8) : Prop :=
  r.low.toInt8 ≤ b.toInt8 ∧ b.toInt8 ≤ r.high.toInt8

/-- The texts that one part matches. -/
def GlobPart.language : GlobPart → Language UInt8
  | .byte b => {[b]}
  | .any => {t | ∃ b, t = [b]}
  | .star => ⊤
  | .oneOf negated ms => {t | ∃ b, t = [b] ∧ ((∃ m ∈ ms, m.Has b) ↔ negated = false)}

namespace Glob

/-! ## How patterns are written -/

/-- The text of a list behind its first member `last`, up to the closing bracket. A minus sign makes
a range with the byte in front of it, unless it comes last. -/
inductive Listed : (last : UInt8) → Bytes → List GlobRange → Prop
  | nil {last} : Listed last [] []
  | range {last c s ms} (hc : c ≠ ']'.toUInt8) : Listed c s ms →
      Listed last ('-'.toUInt8 :: c :: s) (⟨last, c⟩ :: ms)
  | byte {last b s ms} (hb : b ≠ ']'.toUInt8) (hlast : b = '-'.toUInt8 → s = []) :
    Listed b s ms → Listed last (b :: s) (⟨b, b⟩ :: ms)

def caret (negated : Bool) : Bytes := if negated then ['^'.toUInt8] else []

/-- Patterns in which each list is closed and each backslash has a byte behind it, with their parts.
The first byte of a list is a member whatever it is; only a `^` in front of it negates the list. -/
inductive Written : Bytes → List GlobPart → Prop
  | nil : Written [] []
  | byte {b s ps} (hb : b ∉ ['\\'.toUInt8, '?'.toUInt8, '*'.toUInt8, '['.toUInt8]) :
    Written s ps → Written (b :: s) (.byte b :: ps)
  | escaped {b s ps} : Written s ps → Written ('\\'.toUInt8 :: b :: s) (.byte b :: ps)
  | any {s ps} : Written s ps → Written ('?'.toUInt8 :: s) (.any :: ps)
  | star {s ps} : Written s ps → Written ('*'.toUInt8 :: s) (.star :: ps)
  | oneOf {negated b l s ms ps} (hb : negated = true ∨ b ≠ '^'.toUInt8) (hl : Listed b l ms) :
      Written s ps →
    Written ('['.toUInt8 :: (caret negated ++ b :: (l ++ ']'.toUInt8 :: s)))
      (.oneOf negated (⟨b, b⟩ :: ms) :: ps)

theorem members_listed {last l ms} (h : Listed last l ms) (s : Bytes) :
    members last (l ++ ']'.toUInt8 :: s) = (ms, s) := by
  induction h with
  | nil => cases s <;> simp [members]
  | range hc _ ih => simp [members, hc, ih, show '-'.toUInt8 ≠ ']'.toUInt8 by decide]
  | @byte last b l ms hb hl _ ih =>
    cases l with
    | nil => simp_all [members]
    | cons c l =>
      have hd : b ≠ '-'.toUInt8 := fun h => cons_ne_nil _ _ (hl h)
      rw [cons_append] at ih
      simp [members, hb, hd, ih]

theorem list_written {b l ms} {negated : Bool} (hb : negated = true ∨ b ≠ '^'.toUInt8)
    (h : Listed b l ms) (s : Bytes) :
    list (caret negated ++ b :: (l ++ ']'.toUInt8 :: s)) = (.oneOf negated (⟨b, b⟩ :: ms), s) := by
  cases hf : (b == ']'.toUInt8 || b == '-'.toUInt8) with
  | false =>
    obtain ⟨hc, hd⟩ := Bool.or_eq_false_iff.mp hf
    have hm : members '[' (b :: (l ++ ']'.toUInt8 :: s)) = (⟨b, b⟩ :: ms, s) :=
      members_listed (.byte (beq_eq_false_iff_ne.mp hc) (fun h =>
        absurd h (beq_eq_false_iff_ne.mp hd)) h) s
    cases negated <;> simp_all [list, caret]
  | true => cases negated <;> simp_all [list, caret, members_listed h]

theorem parts_written {p ps fuel} (h : Written p ps) (hf : p.length < fuel) :
    parts fuel p = ps := by
  induction fuel generalizing p ps with
  | zero => cases hf
  | succ fuel ih =>
    cases h with
    | nil => rfl
    | byte hb h =>
      simp only [mem_cons, not_mem_nil, or_false, not_or] at hb
      simp [parts, hb, ih h (Nat.lt_of_succ_lt_succ hf)]
    | escaped h => exact congrArg _ (ih h (by grind))
    | any h => exact congrArg _ (ih h (by grind))
    | star h => exact congrArg _ (ih h (by grind))
    | @oneOf _ _ _ s _ _ hb hl h =>
      have hs : s.length < fuel := by grind
      rw [parts, if_neg (by decide), if_neg (by decide), if_neg (by decide), if_pos (by decide),
        list_written hb hl]
      exact congrArg _ (ih h hs)

theorem parse_written {p ps} (h : Written p ps) : parse p = ps :=
  parts_written h (Nat.lt_succ_self _)

/-! ## The language of parts -/

variable {part : GlobPart} {ps : List GlobPart} {b : UInt8} {t : Bytes}

/-- The texts that a pattern matches: those of its parts in a row. -/
def language (ps : List GlobPart) : Language UInt8 := (ps.map GlobPart.language).prod

theorem key_eq (b : UInt8) : key false b = b.toInt8.toInt := by
  simpa using forall_byte (p := fun b => key false b == b.toInt8.toInt) (by decide +kernel) b

theorem mem_partLanguage (hp : part ≠ .star) :
    t ∈ part.language ↔ ∃ b, t = [b] ∧ matchesByte false b part = true := by
  cases part with
  | star => exact absurd rfl hp
  | byte c =>
    have hinj : ∀ b : UInt8, b.toInt8 = c.toInt8 ↔
        b = c := fun b => ⟨congrArg Int8.toUInt8, congrArg _⟩
    change t = [c] ↔ _
    simp [matchesByte, key_eq, Int8.toInt_inj, hinj]
  | any => exact exists_congr fun b => (and_iff_left rfl).symm
  | oneOf negated ms =>
    refine exists_congr fun b => and_congr_right fun _ => ?_
    simp only [matchesByte, key_eq, GlobRange.Has, Int8.le_iff_toInt_le]
    cases negated <;> simp

theorem mem_language_nil : t ∈ language [] ↔ t = [] := Language.mem_one t

theorem mem_language_star : t ∈ language (.star :: ps) ↔ ∃ u, u <:+ t ∧ u ∈ language ps := by
  rw [language, map_cons, prod_cons, Language.mem_mul]
  constructor
  · rintro ⟨a, -, u, hu, rfl⟩
    exact ⟨u, suffix_append a u, hu⟩
  · rintro ⟨u, ⟨a, rfl⟩, hu⟩
    exact ⟨a, trivial, u, hu, rfl⟩

theorem mem_language_cons (hp : part ≠ .star) :
    t ∈ language (part :: ps) ↔ ∃ b u, t = b :: u ∧ matchesByte false b part = true ∧
      u ∈ language ps := by
  simp only [language, map_cons, prod_cons, Language.mem_mul, mem_partLanguage hp]
  constructor
  · rintro ⟨_, ⟨b, rfl, hb⟩, u, hu, rfl⟩
    exact ⟨b, u, rfl, hb, hu⟩
  · rintro ⟨b, u, rfl, hb, hu⟩
    exact ⟨[b], ⟨b, rfl, hb⟩, u, hu, rfl⟩

/-! ## Verdicts -/

/-- What a verdict says. A text that is too short has no end that fits. -/
def Verdict.Says (ps : List GlobPart) (t : Bytes) : Verdict → Prop
  | .matched => t ∈ language ps
  | .failed => t ∉ language ps
  | .short => ∀ u, u <:+ t → u ∉ language ps

theorem nil_mem_language : [] ∈ language ps ↔ ps.all (· == .star) = true := by
  induction ps with
  | nil => simp [mem_language_nil]
  | cons p ps ih =>
    by_cases hp : p = .star
    · simp [hp, mem_language_star, ih]
    · simp [hp, mem_language_cons hp]

/-- A star goes on behind a byte at which the rest of the pattern does not fit. -/
theorem Verdict.Says.later {v : Verdict} (h : v.Says (.star :: ps) t) (hb : b :: t ∉ language ps) :
    v.Says (.star :: ps) (b :: t) := by
  have hl : b :: t ∈ language (.star :: ps) ↔ t ∈ language (.star :: ps) := by
    simp only [mem_language_star, suffix_cons_iff, or_and_right, exists_or, exists_eq_left,
      hb, false_or]
  cases v with
  | matched => exact hl.mpr h
  | failed => exact mt hl.mp h
  | short =>
    intro u hu
    rcases suffix_cons_iff.mp hu with rfl | hu
    · exact mt hl.mp (h t suffix_rfl)
    · exact h u hu

theorem firstVerdict_says (hps : [] ∉ language ps) {test : Bytes → Verdict}
    (ht : ∀ t, (test t).Says ps t) (t : Bytes) : (firstVerdict test t).Says (.star :: ps) t := by
  induction t with
  | nil => simpa [firstVerdict, Verdict.Says, mem_language_star] using hps
  | cons b t ih =>
    have hh := ht (b :: t)
    rw [firstVerdict]
    cases hve : test (b :: t) with
    | matched =>
      rw [hve] at hh
      exact mem_language_star.mpr ⟨_, suffix_rfl, hh⟩
    | short =>
      rw [hve] at hh
      intro u hu hmem
      obtain ⟨v, hv, hmem⟩ := mem_language_star.mp hmem
      exact hh v (hv.trans hu) hmem
    | failed =>
      rw [hve] at hh
      exact ih.later hh

theorem verdict_nil (hp : part ≠ .star) (c : Bool) : verdict c (part :: ps) [] = .short := by
  cases part <;> first | rfl | exact absurd rfl hp

theorem verdict_cons (hp : part ≠ .star) (c : Bool) :
    verdict c (part :: ps) (b :: t) = if matchesByte c b part then verdict c ps t else .failed := by
  cases part <;> first | rfl | exact absurd rfl hp

theorem verdict_says (ps : List GlobPart) (t : Bytes) : (verdict false ps t).Says ps t := by
  induction ps generalizing t with
  | nil => cases t <;> simp [verdict, Verdict.Says, mem_language_nil]
  | cons p ps ih =>
    by_cases hp : p = .star
    · subst hp
      rw [verdict]
      split
      · next hall => exact mem_language_star.mpr ⟨[], nil_suffix, nil_mem_language.mpr hall⟩
      · next hall => exact firstVerdict_says (mt nil_mem_language.mp hall) ih t
    · cases t with
      | nil => simp [verdict_nil hp, Verdict.Says, mem_language_cons hp]
      | cons b t =>
        rw [verdict_cons hp]
        split
        · next hb =>
          have hr := ih t
          cases hve : verdict false ps t <;> rw [hve] at hr
          · exact (mem_language_cons hp).mpr ⟨b, t, rfl, hb, hr⟩
          · simpa [Verdict.Says, mem_language_cons hp, hb] using hr
          · intro u hu hmem
            obtain ⟨d, v, rfl, -, hv⟩ := (mem_language_cons hp).mp hmem
            rcases suffix_cons_iff.mp hu with heq | hu
            · exact hr v ((cons.inj heq).2 ▸ suffix_rfl) hv
            · exact hr v ((suffix_cons d v).trans hu) hv
        · next hb => simp [Verdict.Says, mem_language_cons hp, hb]

/-- A pattern matches exactly the texts of its language. -/
theorem isMatch_iff_mem_language {p ps} (h : Written p ps) (t : Bytes) :
    isMatch false p t = true ↔ t ∈ language ps := by
  rw [isMatch, parse_written h, beq_iff_eq]
  have hv := verdict_says ps t
  constructor
  · intro hmatched
    rwa [hmatched] at hv
  · intro hmem
    cases hverdict : verdict false ps t with
    | matched => rfl
    | failed =>
      rw [hverdict] at hv
      exact absurd hmem hv
    | short =>
      rw [hverdict] at hv
      exact absurd hmem (hv t suffix_rfl)

/-- The rest of the pattern `*a[^-b]\*` does not fit behind the first `a` of a text, but behind the
second. -/
theorem isMatch_iff_mem_language_second :
    (['a', 'b', 'a', 'c', '*'] : Bytes) ∈ language [.star, .byte 'a',
      .oneOf true [⟨'-', '-'⟩, ⟨'b', 'b'⟩], .byte '*'] :=
  (isMatch_iff_mem_language (p := ['*', 'a', '[', '^', '-', 'b', ']', '\\', '*'])
    (.star (.byte (by decide)
    (@Written.oneOf true _ _ _ _ _ (.inl rfl) (.byte (by decide) (by decide) .nil)
      (.escaped .nil)))) _).mp
    (by decide +kernel)

/-! ## Letters of either case -/

end Glob

def GlobRange.upper (r : GlobRange) : GlobRange := ⟨toUpper r.low, toUpper r.high⟩

/-- The part in upper case. -/
def GlobPart.upper : GlobPart → GlobPart
  | .byte b => .byte (toUpper b)
  | .any => .any
  | .star => .star
  | .oneOf negated ms => .oneOf negated (ms.map GlobRange.upper)

/-- The bytes that come last where case is ignored and first where it is not. -/
def Glob.isHigh (b : UInt8) : Bool := 128 ≤ b && b < 255

/-- Whether a byte is in a range, with or without regard to case. -/
def GlobRange.has (ignoreCase : Bool) (b : UInt8) (r : GlobRange) : Bool :=
  Glob.key ignoreCase r.low ≤ Glob.key ignoreCase b &&
  Glob.key ignoreCase b ≤ Glob.key ignoreCase r.high

def GlobPart.ranges : GlobPart → List GlobRange
  | .oneOf _ ms => ms
  | _ => []

namespace Glob

theorem toUpper_eq {b c : UInt8} (hc : isAlpha c = false) : toUpper b = c ↔ b = c := by
  have hb : toUpper b = b ∨ isAlpha (toUpper b) = true := by
    simpa using forall_byte (p := fun b => toUpper b == b ||
      isAlpha (toUpper b)) (by decide +kernel) b
  rcases hb with hb | hb
  · rw [hb]
  · constructor
    · rintro rfl
      simp_all
    · rintro rfl
      rw [toUpper, isLower]
      simp_all [isAlpha, isLower]

theorem Listed.upper {last l ms} (h : Listed last l ms) :
    Listed (toUpper last) (Bytes.upper l) (ms.map GlobRange.upper) := by
  induction h with
  | nil => exact .nil
  | range hc _ ih => exact .range (mt (toUpper_eq (by decide)).mp hc) ih
  | byte hb hl _ ih =>
    refine .byte (mt (toUpper_eq (by decide)).mp hb) (fun h => ?_) ih
    rw [hl ((toUpper_eq (by decide)).mp h)]
    rfl

theorem Written.upper {p ps} (h : Written p ps) :
    Written (Bytes.upper p) (ps.map GlobPart.upper) := by
  induction h with
  | nil => exact .nil
  | byte hb _ ih =>
    refine .byte ?_ ih
    simpa (disch := decide) [toUpper_eq] using hb
  | escaped _ ih => exact .escaped ih
  | any _ ih => exact .any ih
  | star _ ih => exact .star ih
  | @oneOf negated b l s ms ps hb hl _ ih =>
    have hli : Bytes.upper (l ++ ']'.toUInt8 :: s) =
        Bytes.upper l ++ ']'.toUInt8 :: Bytes.upper s := map_append
    have hnew := Written.oneOf (hb.imp_right (mt (toUpper_eq (by decide)).mp)) hl.upper ih
    rw [← hli] at hnew
    cases negated <;> exact hnew

/-- Without regard to case, bytes are compared by their value in upper case. -/
theorem key_true (b : UInt8) : key true b = if (toUpper b).toNat = 255 then -1
    else ((toUpper b).toNat : Int) := by
  simpa using forall_byte (p := fun b => key true b == if (toUpper b).toNat =
    255 then -1 else ((toUpper b).toNat : Int)) (by decide +kernel) b

theorem key_false (b : UInt8) : key false b = if b.toNat < 128 then (b.toNat : Int)
    else b.toNat - 256 := rfl

theorem has_upper {m : GlobRange} (h : isHigh m.low = isHigh m.high) (b : UInt8) :
    m.has true b = m.upper.has false (toUpper b) := by
  have hs : ∀ c, isHigh c = isHigh (toUpper c) := by
    intro c
    simpa using forall_byte (p := fun c => isHigh c == isHigh (toUpper c)) (by decide +kernel) c
  rw [hs, hs m.high] at h
  have hlow := (toUpper m.low).toNat_lt
  have hb := (toUpper b).toNat_lt
  have hh := (toUpper m.high).toNat_lt
  rw [Bool.eq_iff_iff]
  simp only [GlobRange.has, key_true, key_false, GlobRange.upper, Bool.and_eq_true,
    decide_eq_true_eq]
  grind [isHigh, UInt8.le_iff_toNat_le, UInt8.lt_iff_toNat_lt]

theorem matchesByte_upper (h : ∀ m ∈ part.ranges, isHigh m.low = isHigh m.high) (b : UInt8) :
    matchesByte true b part = matchesByte false (toUpper b) part.upper := by
  cases part with
  | byte c =>
    -- One byte is a range from itself to itself.
    have hb := Bool.eq_iff_iff.mp (has_upper (m := ⟨c, c⟩) rfl b)
    simp only [GlobRange.has, Bool.and_eq_true, decide_eq_true_eq] at hb
    rw [GlobPart.upper, matchesByte, matchesByte, Bool.eq_iff_iff, beq_iff_eq, beq_iff_eq]
    exact eq_comm.trans ((le_antisymm_iff.trans hb).trans (le_antisymm_iff.symm.trans eq_comm))
  | any | star => rfl
  | oneOf negated ms =>
    have hany : ms.any (·.has true b) = (ms.map GlobRange.upper).any (·.has false (toUpper b)) := by
      rw [Bool.eq_iff_iff, any_map, any_eq_true, any_eq_true]
      exact exists_congr fun m => and_congr_right fun hm => has_upper (h m hm) b ▸ Iff.rfl
    exact congrArg (· != negated) hany

theorem firstVerdict_upper {test test' : Bytes → Verdict} (h : ∀ t, test t = test' (Bytes.upper t))
    (t : Bytes) :
    firstVerdict test t = firstVerdict test' (Bytes.upper t) := by
  induction t with
  | nil => rfl
  | cons b t ih =>
    rw [firstVerdict, h, ih]
    rfl

theorem verdict_upper {ps} (h : ∀ p ∈ ps, ∀ m ∈ p.ranges, isHigh m.low = isHigh m.high)
    (t : Bytes) :
    verdict true ps t = verdict false (ps.map GlobPart.upper) (Bytes.upper t) := by
  induction ps generalizing t with
  | nil => cases t <;> rfl
  | cons p ps ih =>
    have hr := ih (forall_mem_cons.mp h).2
    by_cases hp : p = .star
    · subst hp
      have hall : ps.all (· == .star) = (ps.map GlobPart.upper).all (· == .star) := by
        rw [all_map]
        exact congrArg ps.all (funext fun p => by cases p <;> rfl)
      rw [verdict, hall, firstVerdict_upper hr]
      rfl
    · have hp' : p.upper ≠ .star := by cases p <;> simp_all [GlobPart.upper]
      cases t with
      | nil => rw [verdict_nil hp, map_cons, Bytes.upper, map_nil, verdict_nil hp']
      | cons b t =>
        rw [verdict_cons hp, hr, matchesByte_upper (forall_mem_cons.mp h).1]
        exact (verdict_cons hp' _).symm

/-- Without regard to case a pattern matches as if all letters were capitals, if each range has both
ends or none among the bytes from 128 to 254. -/
theorem isMatch_ignoring_case {p ps} (h : Written p ps)
    (hr : ∀ p ∈ ps, ∀ m ∈ p.ranges, isHigh m.low = isHigh m.high) (t : Bytes) :
    isMatch true p t = isMatch false (Bytes.upper p) (Bytes.upper t) := by
  rw [isMatch, isMatch, parse_written h, parse_written h.upper, verdict_upper hr]

/-- A range of letters, and a byte behind it that is none. -/
theorem isMatch_ignoring_case_letters : isMatch true ['[', 'a', '-', 'd', ']', '*'] ['C', 233] =
    isMatch false ['[', 'A', '-', 'D', ']', '*'] ['C', 233] :=
  isMatch_ignoring_case (@Written.oneOf false _ _ _ _ _ (.inr (by decide)) (.range (by decide) .nil)
    (.star .nil)) (by decide) _

/-- The range from `a` to a byte above 127 has `z` only where case is ignored. -/
theorem isMatch_ignoring_case_mixed :
    Written ['[', 'a', '-', 233, ']'] [.oneOf false [⟨'a', 'a'⟩, ⟨'a', 233⟩]] ∧
    isMatch true ['[', 'a', '-', 233, ']'] ['z'] ≠
      isMatch false (Bytes.upper ['[', 'a', '-', 233, ']']) (Bytes.upper ['z']) :=
  ⟨@Written.oneOf false _ _ _ _ _ (.inr (by decide)) (.range (by decide) .nil) .nil,
    by decide +kernel⟩

end Glob

end TemplateKit
