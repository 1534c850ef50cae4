import Mathlib.Data.List.Basic
import TemplateKit.Date.Header
import TemplateKit.Proofs.Bytes.Basic

/-!
# Dates in headers are compared in time

A date is read back from each of the forms that it has in headers. So the answer whether a date of
modification is not after it does not depend on the form, and it is the answer that the order of
time gives.
-/

namespace TemplateKit

open List Ascii Bytes Numeral Calendar HeaderDate

namespace Numeral

variable {s : Bytes} {n : Nat}

/-- A numeral that is filled up with zeros is read as its number. -/
theorem read?_padded (width n : Nat) (hs : ∀ acc, readDigits 10 acc s = (acc, s)) :
    read? false (padded width n ++ s) = some (clamp n, s) := by
  have hf : ∀ d < 10, isSpace (hexDigit d) = false ∧ hexDigit d ≠ 45 ∧ hexDigit d ≠ 43 := by decide
  have hr : readDigits 10 0 (padded width n ++ s) = (n, s) := by
    rw [padded, append_assoc]
    induction width - (ofNat n).length with
    | zero => exact (readDigits_ofNat n s).trans (hs n)
    | succ k ih => exact ih
  obtain ⟨d, more, hd, heq⟩ : ∃ d more, d < 10 ∧ padded width n = hexDigit d :: more := by
    rw [padded]
    cases width - (ofNat n).length with
    | zero =>
      obtain ⟨d, more, hd, -, heq⟩ := ofNat_head n
      exact ⟨d, more, hd, heq⟩
    | succ k => exact ⟨0, _, by decide, rfl⟩
  obtain ⟨hb, hm, hp⟩ := hf d hd
  rw [heq, cons_append] at hr ⊢
  simp [read?_of_unsigned false hb hm hp, digits?, startsWithDigit,
    digitValue?_hexDigit d hd, hd, hr]

theorem toInt32_clamp (hn : n < 10000) : (clamp n).toInt32.toInt = n := by
  rw [clamp_of_lt (by omega), Int64.toInt32_ofNat', Int32.toInt_ofNat_of_lt (by omega)]

end Numeral

namespace DateTime

/-- Do the fields of a date and a time of day exist? A minute may end with a second too many. -/
structure InRange (lastSecond : Int) (d : DateTime) : Prop where
  month_nonneg : 0 ≤ d.month
  month_lt : d.month < 12
  day_pos : 1 ≤ d.day
  day_le : d.day ≤ (monthLengths (d.year + 1900)).getD d.month.toNat 0
  hour_nonneg : 0 ≤ d.hour
  hour_lt : d.hour < 24
  minute_nonneg : 0 ≤ d.minute
  minute_lt : d.minute < 60
  second_nonneg : 0 ≤ d.second
  second_le : d.second ≤ lastSecond

def monthName (t : DateTime) : Bytes := monthNames.getD t.month.toNat []

def time (t : DateTime) (rest : Bytes) : Bytes :=
  padded 2 t.hour.toNat ++ ':'.toUInt8 ::
  (padded 2 t.minute.toNat ++ ':'.toUInt8 :: (padded 2 t.second.toNat ++ rest))

/-- As in `Sun, 06 Nov 1994 08:49:37 GMT`. -/
def dayFirst (t : DateTime) (weekday : Bytes) : Bytes :=
  weekday ++ 32 :: (padded 2 t.day.toNat ++ 32 ::
    (t.monthName ++ 32 :: (padded 4 (t.year + 1900).toNat ++
    32 :: t.time " GMT")))

/-- As in `Sunday, 06-Nov-94 08:49:37 GMT`. -/
def dashed (t : DateTime) (weekday : Bytes) : Bytes :=
  weekday ++ 32 :: (padded 2 t.day.toNat ++ '-'.toUInt8 :: (t.monthName ++ '-'.toUInt8 ::
    (padded 2 (t.year % 100).toNat ++ 32 :: t.time " GMT")))

/-- As in `Sun Nov  6 08:49:37 1994`. -/
def monthFirst (t : DateTime) (weekday rest : Bytes) : Bytes :=
  weekday ++ 32 :: (t.monthName ++ 32 ::
    ((if t.day < 10 then [32] else []) ++ (padded 1 t.day.toNat ++
    32 :: t.time (32 :: (padded 4 (t.year + 1900).toNat ++ rest)))))

/-- The forms that a date has in headers behind a name of the day; the last one may end a line. -/
def written (t : DateTime) (weekday : Bytes) : List Bytes :=
  [t.dayFirst weekday, t.dashed weekday, t.monthFirst weekday [], t.monthFirst weekday "\n"]

/-- What is to be read from them. -/
def header (t : DateTime) : HeaderDate :=
  ⟨t.year + 1900, t.month, t.day, t.hour, t.minute, t.second⟩

/-- The days of a year in front of a month. -/
def daysBefore (year : Int) (k : Nat) : Int := ((monthLengths year).take k).foldl (· + ·) 0

/-- No month is longer than what it adds to the days in front of a later one. -/
theorem month_facts (year : Int) : ∀ k < 12, (monthLengths year).getD k 0 ≤ 31 ∧
    0 ≤ daysBefore year k ∧
    ∀ j < 13, k < j → daysBefore year k + (monthLengths year).getD k 0 ≤ daysBefore year j := by
  simp only [daysBefore, monthLengths]
  cases isLeap year <;> decide

namespace InRange

variable {d t : DateTime} {j k : Int}

theorem month_toNat (hd : d.InRange k) : d.month.toNat < 12 := by
  have hm := hd.month_lt
  omega

theorem day_le_31 (hd : d.InRange k) : d.day ≤ 31 :=
  Int.le_trans hd.day_le (month_facts _ _ hd.month_toNat).1

/-- The name of a month has three letters that tell it. -/
theorem monthName (hd : d.InRange k) : monthOf d.monthName = d.month ∧
    (∀ b ∈ d.monthName, isAlpha b = true ∧ isSpace b = false) ∧ d.monthName.length = 3 := by
  have hall : ∀ k < 12, monthOf (monthNames.getD k []) = k ∧
      (∀ b ∈ monthNames.getD k [], isAlpha b = true ∧ isSpace b = false) ∧
      (monthNames.getD k []).length = 3 := by decide +kernel
  have hname := hall _ hd.month_toNat
  rwa [Int.toNat_of_nonneg hd.month_nonneg] at hname

end InRange

end DateTime

namespace HeaderDate

variable {n : Int} {s rest w : Bytes} {t : DateTime}

theorem readNumber_padded (width : Nat) (h : 0 ≤ n ∧ n < 10000)
    (hs : ∀ acc, readDigits 10 acc s = (acc, s)) :
    readNumber (some (padded width n.toNat ++ s)) = (n, some s) := by
  obtain ⟨k, rfl⟩ := Int.eq_ofNat_of_zero_le h.1
  simp only [readNumber, Option.bind_some, Int.toNat_natCast, read?_padded width k hs,
    toInt32_clamp (n := k) (by omega)]

/-- A word ends in front of a blank. -/
theorem readWord_word {limit : Nat} (hw : s ≠ []) (hs : ∀ b ∈ s, isSpace b = false)
    (hl : s.length ≤ limit) :
    readWord limit (some (s ++ 32 :: rest)) = (s, some (32 :: rest)) := by
  obtain ⟨b, more, rfl⟩ := exists_cons_of_ne_nil hw
  have hstrip : stripLeft (b :: more ++ 32 :: rest) = b :: more ++ 32 :: rest :=
    stripLeft_cons (hs b mem_cons_self) _
  have hword : ((b :: more ++ 32 :: rest).take limit).takeWhile (!isSpace ·) = b :: more := by
    rw [take_append, take_of_length_le hl, takeWhile_append_of_pos (by simpa using hs)]
    cases limit - (b :: more).length with
    | zero => simp
    | succ k => simp [isSpace]
  rw [readWord, Option.getD_some, hstrip]
  simp only [hword]
  simp

/-- Two digits of a number. -/
theorem padded_two (h : 0 ≤ n ∧ n < 100) : (toInt32 (padded 2 n.toNat)).toInt = n ∧
    ∃ x y, padded 2 n.toNat = [x, y] ∧ isSpace x = false ∧ isAlpha x = false ∧
      isSpace y = false := by
  have hall : ∀ k < 100, (toInt32 (padded 2 k)).toInt = k ∧
      padded 2 k = [hexDigit (k / 10), hexDigit (k % 10)] := by
    decide +kernel
  have hdigit : ∀ d < 10, isSpace (hexDigit d) = false ∧ isAlpha (hexDigit d) = false := by decide
  obtain ⟨k, rfl⟩ := Int.eq_ofNat_of_zero_le h.1
  obtain ⟨hread, hpair⟩ := hall k (by omega)
  have hx := hdigit (k / 10) (by omega)
  exact ⟨hread, _, _, hpair, hx.1, hx.2, (hdigit (k % 10) (by omega)).1⟩

/-- The text of a date starts behind the first blank. -/
theorem parse?_blank (hw : 32 ∉ w) {b : UInt8} (hb : isSpace b = false) :
    parse? (w ++ 32 :: b :: rest) = some (if isAlpha b then readMonthFirst (b :: rest)
      else if rest[1]? = some '-'.toUInt8 then readDashed (b :: rest)
      else readDayFirst (b :: rest)) := by
  have hcut : stripLeft ((w ++ 32 :: b :: rest).dropWhile (· != 32)) = b :: rest := by
    rw [dropWhile_ne hw]
    exact stripLeft_cons hb rest
  simp only [parse?, hcut]

/-- A blank ends a numeral and is skipped in front of one. -/
theorem readNumber_blank (s : Bytes) :
    (∀ acc, readDigits 10 acc (32 :: s) = (acc, 32 :: s)) ∧
    readNumber (some (32 :: s)) = readNumber (some s) :=
  ⟨fun _ => rfl, rfl⟩

variable (hw : 32 ∉ w) (ht : t.InRange 59) (hy : 70 ≤ t.year ∧ t.year < 170)

include ht

theorem day_bounds : 0 ≤ t.day ∧ t.day < 100 := by
  have hd := ht.day_pos
  have hl := ht.day_le_31
  omega

theorem readTime_time (hs : ∀ acc, readDigits 10 acc s = (acc, s)) :
    readTime (some (32 :: t.time s)) = ((t.hour, t.minute, t.second), some s) := by
  have hh := ht.hour_lt
  have hm := ht.minute_lt
  have hl := ht.second_le
  have hcolon : ∀ u, readColon (some (':'.toUInt8 :: u)) = some u := fun _ => rfl
  have hhour := fun u => readNumber_padded 2 (s := ':'.toUInt8 :: u) ⟨ht.hour_nonneg, by omega⟩
    fun _ => rfl
  have hminute := fun u => readNumber_padded 2 (s := ':'.toUInt8 :: u) ⟨ht.minute_nonneg, by omega⟩
    fun _ => rfl
  have hsecond := readNumber_padded 2 ⟨ht.second_nonneg, by omega⟩ hs
  simp only [readTime, DateTime.time, readNumber_blank, hhour, hminute, hsecond, hcolon]

theorem readWord_monthName {limit : Nat} (hl : 3 ≤ limit) :
    readWord limit (some (t.monthName ++ 32 :: rest)) = (t.monthName, some (32 :: rest)) := by
  obtain ⟨-, hletter, hthree⟩ := ht.monthName
  exact readWord_word (ne_nil_of_length_pos (by omega)) (fun b hb => (hletter b hb).2) (by omega)

include hw hy

theorem parse?_dayFirst : parse? (t.dayFirst w) = some t.header := by
  have hd := day_bounds ht
  obtain ⟨-, x, y, hxy, hx, ha, -⟩ := padded_two hd
  have hday := fun u => readNumber_padded 2 (show 0 ≤ t.day ∧
    t.day < 10000 by omega) (readNumber_blank u).1
  have hyear := fun u => readNumber_padded 4 (show 0 ≤ t.year + 1900 ∧
    t.year + 1900 < 10000 by omega) (readNumber_blank u).1
  have hword : ∀ k u, 3 ≤ k → readWord k (some (32 :: (t.monthName ++ 32 :: u))) =
      (t.monthName, some (32 :: u)) :=
    fun k u hk => readWord_monthName ht hk
  have hparse : ∀ u, parse? (w ++ 32 :: (padded 2 t.day.toNat ++ 32 :: u)) =
      some (readDayFirst (padded 2 t.day.toNat ++ 32 :: u)) := by
    intro u
    simp only [hxy, cons_append, nil_append, parse?_blank hw hx, ha]
    rfl
  rw [DateTime.dayFirst, hparse]
  simp only [readDayFirst, hday]
  rw [hword _ _ (by simp only [length_append, length_cons, ht.monthName.2.2]; omega)]
  simp only [readNumber_blank, hyear, readTime_time ht (s := " GMT") fun _ => rfl, ht.monthName.1]
  rfl

theorem parse?_dashed : parse? (t.dashed w) = some t.header := by
  obtain ⟨hmonth, hletter, hthree⟩ := ht.monthName
  obtain ⟨a, b, c, hname⟩ := length_eq_three.mp hthree
  obtain ⟨hday, x, y, hxy, hx, ha, hy'⟩ := padded_two (day_bounds ht)
  obtain ⟨hyear, p, q, hpq, hp, -, hq⟩ :=
    padded_two (show 0 ≤ t.year % 100 ∧ t.year % 100 < 100 by omega)
  have hdash : isSpace '-'.toUInt8 = false := rfl
  -- the first word is the date, with its fields at fixed places
  have hword : ∀ u k, 9 ≤ k →
      readWord k (some ([x, y] ++ '-'.toUInt8 ::
        ([a, b, c] ++ '-'.toUInt8 :: ([p, q] ++ 32 :: u)))) =
        ([x, y, '-'.toUInt8, a, b, c, '-'.toUInt8, p, q], some (32 :: u)) := by
    intro u k hk
    exact readWord_word (s := [x, y, '-'.toUInt8, a, b, c, '-'.toUInt8, p, q]) (cons_ne_nil _ _) (by
      simp_all) hk
  have hparse : ∀ u, parse? (w ++ 32 :: ([x, y] ++ '-'.toUInt8 :: u)) =
      some (readDashed ([x, y] ++ '-'.toUInt8 :: u)) := by
    intro u
    simp [parse?_blank hw hx, ha]
  have hfull : fullYear (t.year % 100) = t.year + 1900 := by
    rw [fullYear]
    split <;> omega
  rw [hxy] at hday
  rw [hpq] at hyear
  rw [DateTime.dashed, hxy, hname, hpq, hparse, readDashed, hword _ _ (by simp)]
  simp only [readTime_time ht (s := " GMT") fun _ => rfl]
  simp [hday, hyear, hfull, ← hname, hmonth, DateTime.header]

theorem parse?_monthFirst (hs : ∀ acc, readDigits 10 acc s = (acc, s)) :
    parse? (t.monthFirst w s) = some t.header := by
  have hd := day_bounds ht
  obtain ⟨hmonth, hletter, hthree⟩ := ht.monthName
  have hday : ∀ u,
      readNumber
        (some (32 :: ((if t.day < 10 then [32] else []) ++ (padded 1 t.day.toNat ++ 32 :: u)))) =
      (t.day, some (32 :: u)) := by
    intro u
    have hn := readNumber_padded 1 (show 0 ≤ t.day ∧ t.day < 10000 by omega) (readNumber_blank u).1
    split <;> exact hn
  have hyear := readNumber_padded 4 (show 0 ≤ t.year + 1900 ∧ t.year + 1900 < 10000 by omega) hs
  have hparse : ∀ u, parse? (w ++ 32 :: (t.monthName ++ u)) =
      some (readMonthFirst (t.monthName ++ u)) := by
    intro u
    obtain ⟨a, b, c, hname⟩ := length_eq_three.mp hthree
    have ha := hletter a (by simp [hname])
    rw [hname, cons_append, parse?_blank hw ha.2, if_pos ha.1]
  rw [DateTime.monthFirst, hparse, readMonthFirst, readWord_monthName ht (by decide)]
  simp only [hday, readTime_time ht (readNumber_blank _).1, readNumber_blank, hyear, hmonth]
  rfl

/-- A date is read back from each form. -/
theorem parse?_written (hs : s ∈ t.written w) : parse? s = some t.header := by
  simp only [DateTime.written, mem_cons, not_mem_nil, or_false] at hs
  rcases hs with rfl | rfl | rfl | rfl
  · exact parse?_dayFirst hw ht hy
  · exact parse?_dashed hw ht hy
  · exact parse?_monthFirst hw ht hy fun _ => rfl
  · exact parse?_monthFirst hw ht hy fun _ => rfl

end HeaderDate

namespace DateTime

variable {d t : DateTime}

theorem firstDay_succ (y : Int) : firstDay (y + 1) = firstDay y + daysBefore y 12 := by
  have hyear : daysBefore y 12 = if isLeap y then 366 else 365 := by
    simp only [daysBefore, monthLengths]
    cases isLeap y <;> decide
  have hleap : isLeap y = true ↔ y % 4 = 0 ∧ (y % 100 ≠ 0 ∨ y % 400 = 0) := by simp [isLeap]
  simp only [hyear, hleap, firstDay]
  split <;> omega

theorem dayNumber_eq {k : Int} (hd : d.InRange k) : dayNumber (d.year + 1900) d.month d.day =
    firstDay (d.year + 1900) + daysBefore (d.year + 1900) d.month.toNat + (d.day - 1) := by
  have hz : d.month / 12 = 0 := Int.ediv_eq_zero_of_lt hd.month_nonneg hd.month_lt
  have hm : d.month % 12 = d.month := Int.emod_eq_of_lt hd.month_nonneg hd.month_lt
  rw [dayNumber, hz, hm, Int.add_zero]
  rfl

/-- A later date has a higher number. -/
theorem dayNumber_lt {j k : Int} (hd : d.InRange j) (ht : t.InRange k)
    (h : d.year < t.year ∨ d.year = t.year ∧
    (d.month < t.month ∨ d.month = t.month ∧ d.day < t.day)) :
    dayNumber (d.year + 1900) d.month d.day <
      dayNumber (t.year + 1900) t.month t.day := by
  have hday := hd.day_le
  have hpos := ht.day_pos
  have hlt := ht.month_toNat
  obtain ⟨-, -, hafter⟩ := month_facts (d.year + 1900) _ hd.month_toNat
  rw [dayNumber_eq hd, dayNumber_eq ht]
  rcases h with hy | ⟨hy, hm | ⟨hm, hlt⟩⟩
  · have hend := hafter 12 (by omega) hd.month_toNat
    have hother := (month_facts (t.year + 1900) _ hlt).2.1
    have hsucc := firstDay_succ (d.year + 1900)
    have hmono : firstDay (d.year + 1900 + 1) ≤ firstDay (t.year + 1900) := by
      simp only [firstDay]
      omega
    omega
  · have hfront := hd.month_nonneg
    have hend := hafter t.month.toNat (by omega) (by omega)
    rw [← hy]
    omega
  · rw [← hy, ← hm]
    omega

/-- The order of the fields is the order of time. -/
theorem notAfterFields_iff_shown (hd : d.InRange 60) (ht : t.InRange 59) :
    notAfterFields d.fields t.fields = true ↔ d.shown ≤ t.shown := by
  have hbefore := dayNumber_lt hd ht
  have hafter := dayNumber_lt ht hd
  have hshown : ∀ d : DateTime, d.shown =
      (dayNumber (d.year + 1900) d.month d.day - epoch) * 86400 +
    d.hour * 3600 + d.minute * 60 + d.second := fun _ => rfl
  have hsame : d.year = t.year → d.month = t.month → d.day = t.day →
      dayNumber (d.year + 1900) d.month d.day =
      dayNumber (t.year + 1900) t.month t.day := by
    intro hy hm hday
    rw [hy, hm, hday]
  obtain ⟨-, -, -, -, hh, hhl, hm, hml, hs, hsl⟩ := hd
  obtain ⟨-, -, -, -, hh', hhl', hm', hml', hs', hsl'⟩ := ht
  simp only [hshown, fields, notAfterFields]
  repeat' split
  all_goals
    simp only [decide_eq_true_iff, true_iff]
    omega

/-- A date of modification is not after a date of a header in any of its forms if it is not after it
in time. -/
theorem notAfter_written (d t : DateTime) (hd : d.InRange 60) (ht : t.InRange 59)
    (hfirst : 1970 ≤ t.year + 1900)
    (hlast : t.year + 1900 ≤ 2069) (weekday header : Bytes) (hw : 32 ∉ weekday)
    (hheader : header ∈ t.written weekday) :
    d.notAfter header = true ↔ d.shown ≤ t.shown := by
  rw [notAfter, parse?_written hw ht ⟨by omega, by omega⟩ hheader]
  exact notAfterFields_iff_shown hd ht

/-- The last second of a leap day, and a modification a second later. -/
theorem notAfter_written_leap :
    notAfter ⟨100, 2, 1, 0, 0, 0, 3, 60, 0⟩ (ascii "Tuesday, 29-Feb-00 23:59:59 GMT") = false ∧
      notAfter ⟨100, 1, 29, 23, 59, 59, 2, 59, 0⟩ (ascii "Tue Feb 29 23:59:59 2000\n") = true := by
  have ht : InRange 59 ⟨100, 1, 29, 23, 59, 59, 2, 59, 0⟩ := by constructor <;> decide
  have hlater := notAfter_written ⟨100, 2, 1, 0, 0, 0, 3, 60,
    0⟩ _ (by constructor <;> decide) ht (by decide)
    (by decide) (ascii "Tuesday,") (ascii "Tuesday, 29-Feb-00 23:59:59 GMT") (by decide)
    (by decide +kernel)
  have hsame := notAfter_written ⟨100, 1, 29, 23, 59, 59, 2, 59,
    0⟩ _ (by constructor <;> decide) ht (by decide)
    (by decide) (ascii "Tue") (ascii "Tue Feb 29 23:59:59 2000\n") (by decide) (by decide +kernel)
  exact ⟨Bool.eq_false_iff.mpr fun h => absurd (hlater.mp h) (by decide), hsame.mpr (Int.le_refl _)⟩

end DateTime

end TemplateKit
