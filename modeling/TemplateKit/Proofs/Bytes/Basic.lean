import Mathlib.Data.List.TakeWhile
import TemplateKit.Bytes.Numeral

/-!
# Cutting texts

What the functions that cut a text find, in terms of the bytes that its parts have.
-/

namespace TemplateKit

/-- What holds of the bytes with the first 256 numbers holds of all. -/
theorem forall_byte {p : UInt8 → Bool} (h : ∀ n < 256, p (UInt8.ofNat n) = true) (b : UInt8) :
    p b = true := by
  have hb := h b.toNat b.toNat_lt
  rwa [UInt8.ofNat_toNat] at hb

theorem byte_imp {p q : UInt8 → Bool} {b : UInt8}
    (h : ∀ n < 256, (!p (UInt8.ofNat n) || q (UInt8.ofNat n)) = true)
    (hb : p b = true) : q b = true := by
  simpa [hb] using forall_byte (p := fun b => !p b || q b) h b

namespace Bytes

variable {s : Bytes}

theorem untilNul_of_not_mem (h : 0 ∉ s) : s.untilNul = s := by
  rw [untilNul, List.takeWhile_eq_self_iff]
  intro b hb
  have hne : b ≠ 0 := fun hz => h (hz ▸ hb)
  simpa using hne

theorem cutAt_of_not_mem {b} (h : b ∉ s) : cutAt (· == b) s = (s, none) := by
  induction s with
  | nil => rfl
  | cons c s ih =>
    obtain ⟨hc, hs⟩ := List.ne_and_not_mem_of_not_mem_cons h
    rw [cutAt, if_neg (by simpa using hc.symm), ih hs]

theorem cutAt_byte {b} (h : b ∉ s) (t : Bytes) : cutAt (· == b) (s ++ b :: t) = (s, some t) := by
  induction s with
  | nil => simp [cutAt]
  | cons c s ih =>
    have hc : ¬ c = b := fun hcb => h (hcb ▸ List.mem_cons_self)
    rw [List.cons_append, cutAt, ih fun hmem => h (List.mem_cons_of_mem c hmem)]
    simp [hc]

theorem eq_append_of_dropPrefix? {p rest} (h : dropPrefix? p s = some rest) : s = p ++ rest := by
  fun_induction dropPrefix? p s with
  | case1 s => exact Option.some.inj h
  | case2 => cases h
  | case3 a p b s heq ih => rw [ih h, beq_iff_eq.mp heq, List.cons_append]
  | case4 => cases h

theorem dropPrefix?_append (p s : Bytes) : dropPrefix? p (p ++ s) = some s := by
  induction p with
  | nil => rfl
  | cons b p ih => simp [dropPrefix?, ih]

theorem startsWith_iff {p} : startsWith p s = true ↔ p <+: s := by
  rw [startsWith, Option.isSome_iff_exists]
  constructor
  · rintro ⟨rest, hr⟩
    exact ⟨rest, (eq_append_of_dropPrefix? hr).symm⟩
  · rintro ⟨rest, rfl⟩
    exact ⟨rest, dropPrefix?_append p rest⟩

theorem dropWhile_ne {c} (h : c ∉ s) (t : Bytes) : (s ++ c :: t).dropWhile (· != c) = c :: t := by
  rw [List.dropWhile_append_of_pos fun b hb => bne_iff_ne.mpr (ne_of_mem_of_not_mem hb h)]
  simp

theorem length_cutAt (p : UInt8 → Bool) (s : Bytes) :
    (s.cutAt p).1.length + ((s.cutAt p).2.elim 0 fun back => back.length + 1) = s.length := by
  induction s with
  | nil => rfl
  | cons b s ih =>
    unfold cutAt
    split
    · simp
    · simp only [List.length_cons]
      omega

section Strip

open List Ascii
variable {s : Bytes} {b : UInt8}

theorem stripLeft_append {blanks} (h : ∀ b ∈ blanks, isSpace b = true) :
    stripLeft (blanks ++ s) = stripLeft s := by
  rw [stripLeft, stripLeft, dropWhile_append_of_pos h]

theorem stripLeft_cons (h : isSpace b = false) (s : Bytes) : stripLeft (b :: s) = b :: s := by
  rw [stripLeft, dropWhile_cons_of_neg (by simp [h])]

theorem stripLeft_final (s : Bytes) : stripLeft s <:+ s := dropWhile_suffix _

theorem stripRight_initial (s : Bytes) : stripRight s <+: s := by
  rw [← reverse_suffix, stripRight, reverse_reverse]
  exact dropWhile_suffix _

theorem stripRight_concat (h : isSpace b = false) (s : Bytes) :
    stripRight (s ++ [b]) = s ++ [b] := by
  simp [stripRight, h]

theorem strip_eq_self (h : strip s = s) : stripLeft s = s ∧ stripRight s = s := by
  have hle := stripLeft_final (stripRight s)
  have hr := stripRight_initial s
  rw [← strip, h] at hle
  have hl : (stripRight s).length = s.length := Nat.le_antisymm hr.length_le hle.length_le
  have hs : stripRight s = s := hr.eq_of_length hl
  rw [strip, hs] at h
  exact ⟨h, hs⟩

theorem stripRight_concat_space (h : isSpace b = true) (s : Bytes) :
    stripRight (s ++ [b]) = stripRight s := by
  simp [stripRight, h]

theorem stripRight_append_of_ne (hs : s.stripRight = s) (hne : s ≠ []) (t : Bytes) :
    (t ++ s).stripRight = t ++ s := by
  obtain ⟨front, last, rfl⟩ := (eq_nil_or_concat s).resolve_left hne
  have hla : isSpace last = false := by
    rw [← Bool.not_eq_true]
    intro hsp
    have hl := (stripRight_initial front).length_le
    rw [concat_eq_append, stripRight_concat_space hsp] at hs
    rw [hs, length_append, length_singleton] at hl
    omega
  rw [concat_eq_append, ← append_assoc, stripRight_concat hla]

theorem strip_of_no_space (h : ∀ b ∈ s, isSpace b = false) : strip s = s := by
  have hr : stripRight s = s := by
    rcases eq_nil_or_concat s with rfl | ⟨front, b, rfl⟩
    · rfl
    · rw [concat_eq_append]
      exact stripRight_concat (h b (by simp)) front
  rw [strip, hr]
  cases s with
  | nil => rfl
  | cons b s => exact stripLeft_cons (h b mem_cons_self) s

theorem strip_blank_cons (s : Bytes) : strip (32 :: s) = strip s := by
  rw [strip, stripRight, reverse_cons, dropWhile_append]
  split
  · next hb => simp [strip, stripRight, List.isEmpty_iff.mp hb, show isSpace 32 = true from rfl]
  · rw [reverse_append]
    rfl

end Strip

theorem not_mem_join {c sep pieces} (hsep : c ∉ sep) (h : ∀ s ∈ pieces, c ∉ s) :
    c ∉ join sep pieces := by
  induction pieces with
  | nil => exact List.not_mem_nil
  | cons s more ih =>
    obtain ⟨hs, hm⟩ := List.forall_mem_cons.mp h
    cases more with
    | nil => exact hs
    | cons t more => simp [join, hs, hsep, ih hm]

end Bytes

end TemplateKit

/-!
## Decimal numerals

What is written in base ten is read back, also where the numeral itself tells the base: a numeral
without leading zeros announces base ten, apart from zero, whose value is the same in every base.
-/

namespace TemplateKit.Numeral

open List Ascii

variable {b : UInt8} {n : Nat} {s : Bytes}

theorem digitValue?_hexDigit : ∀ d < 10, digitValue? (hexDigit d) = some d := by decide

theorem isDigit_hexDigit : ∀ d < 10, isDigit (hexDigit d) = true := by decide

/-- Only the decimal digits have values below ten. -/
theorem ten_le_digitValue {v} (hb : isDigit b = false) (h : digitValue? b = some v) : 10 ≤ v := by
  have hall := byte_imp (p := fun b => !isDigit b) (q := fun b => (digitValue? b).all (10 ≤ ·)) (by
    decide +kernel) (by simpa using hb)
  simpa [h] using hall

/-- Induction over the digits of a number, from the first one on. -/
theorem digit_induction {P : Nat → Prop} (one : ∀ n < 10, P n)
    (more : ∀ n, 10 ≤ n → P (n / 10) → P n) (n : Nat) : P n := by
  induction n using Nat.strongRecOn with
  | ind n ih =>
    by_cases hn : n < 10
    · exact one n hn
    · exact more n (by omega) (ih (n / 10) (by omega))

theorem digitsOnto_eq (n : Nat) {fuel} (h : n < fuel) (tail : Bytes) :
    digitsOnto fuel n tail = ofNat n ++ tail := by
  induction n using digit_induction generalizing fuel tail with
  | one n hn =>
    obtain _ | fuel := fuel
    · omega
    simp [ofNat, digitsOnto, hn]
  | more n hn ih =>
    obtain _ | fuel := fuel
    · omega
    simp only [ofNat, digitsOnto, Nat.not_lt.mpr hn]
    rw [ih (by omega), ih (by omega)]
    simp

theorem ofNat_of_ge (h : 10 ≤ n) : ofNat n = ofNat (n / 10) ++ [hexDigit (n % 10)] := by
  rw [← digitsOnto_eq (n / 10) (by omega : n / 10 < n), ofNat, digitsOnto]
  simp [Nat.not_lt.mpr h]

theorem ofNat_of_lt (h : n < 10) : ofNat n = [hexDigit n] := by
  simp [ofNat, digitsOnto, h, Nat.mod_eq_of_lt h]

/-- A numeral starts with a digit, which is not zero unless the number is. -/
theorem ofNat_head (n : Nat) : ∃ d more, d < 10 ∧ (d = 0 → n = 0) ∧
    ofNat n = hexDigit d :: more := by
  induction n using digit_induction with
  | one n hn => exact ⟨n, [], hn, id, ofNat_of_lt hn⟩
  | more n hn ih =>
    obtain ⟨d, more, hd, hz, heq⟩ := ih
    refine ⟨d, more ++ [hexDigit (n % 10)], hd, ?_, ?_⟩
    · omega
    · rw [ofNat_of_ge hn, heq, cons_append]

theorem isDigit_of_mem_ofNat (n : Nat) (h : b ∈ ofNat n) : isDigit b = true := by
  induction n using digit_induction with
  | one n hn =>
    rw [ofNat_of_lt hn, mem_singleton] at h
    rw [h]
    exact isDigit_hexDigit n hn
  | more n hn ih =>
    rw [ofNat_of_ge hn, mem_append, mem_singleton] at h
    rcases h with h | h
    · exact ih h
    · rw [h]
      exact isDigit_hexDigit (n % 10) (Nat.mod_lt n (by decide))

theorem readDigits_hexDigit {d base} (hd : d < 10) (hb : d < base) (acc : Nat) (s : Bytes) :
    readDigits base acc (hexDigit d :: s) = readDigits base (acc * base + d) s := by
  simp [readDigits, digitValue?_hexDigit d hd, hb]

theorem readDigits_ofNat (n : Nat) (s : Bytes) :
    readDigits 10 0 (ofNat n ++ s) = readDigits 10 n s := by
  induction n using digit_induction generalizing s with
  | one n hn => rw [ofNat_of_lt hn, singleton_append, readDigits_hexDigit hn hn, Nat.zero_add]
  | more n hn ih =>
    have hl : n % 10 < 10 := Nat.mod_lt n (by decide)
    rw [ofNat_of_ge hn, append_assoc, singleton_append, ih, readDigits_hexDigit hl hl, Nat.mul_comm,
      Nat.div_add_mod]

theorem ofNat_injective : Function.Injective ofNat := by
  intro n m h
  have hr : ∀ k, (readDigits 10 0 (ofNat k)).1 = k := by
    intro k
    have hk := readDigits_ofNat k []
    rw [append_nil] at hk
    rw [hk]
    rfl
  rw [← hr n, h, hr m]

/-- What stands behind a numeral: nothing, or a blank. -/
def Ended (s : Bytes) : Prop := s = [] ∨ ∃ t, s = 32 :: t

theorem Ended.readDigits (h : Ended s) (base acc : Nat) : readDigits base acc s = (acc, s) := by
  rcases h with rfl | ⟨t, rfl⟩ <;> rfl

/-- Only zero starts with the digit that announces another base. -/
theorem announcedBase_ofNat (hs : Ended s) :
    announcedBase (ofNat n ++ s) = (if n = 0 then 8 else 10, ofNat n ++ s) := by
  by_cases hn : n = 0
  · subst hn
    rcases hs with rfl | ⟨t, rfl⟩ <;> rfl
  · obtain ⟨d, more, hd, hz, heq⟩ := ofNat_head n
    have hne : hexDigit d ≠ 48 :=
      fun h => hn (hz ((by decide : ∀ d < 10, hexDigit d = 48 → d = 0) d hd h))
    rw [heq, if_neg hn]
    unfold announcedBase
    split
    · next hb => exact absurd (List.cons.inj hb).1 hne
    · next hb => exact absurd (List.cons.inj hb).1 hne
    · rfl

/-- What is read behind the sign. -/
def digits? (announced negative : Bool) (s : Bytes) : Option (Int64 × Bytes) :=
  let (base, t) := if announced then announcedBase s else (10, s)
  if startsWithDigit base t then
    let (n, rest) := readDigits base 0 t
    some (clamp (if negative then -(n : Int) else n), rest)
  else none

/-- Without blanks and without a sign in front, an integer is its digits. -/
theorem read?_of_unsigned (announced : Bool) (hb : isSpace b = false) (hm : b ≠ 45) (hp : b ≠ 43) :
    read? announced (b :: s) = digits? announced false (b :: s) := by
  have hs : Bytes.stripLeft (b :: s) = b :: s := by
    rw [Bytes.stripLeft, dropWhile_cons, hb]
    rfl
  simp [read?, digits?, hs, hm, hp]

theorem startsWithDigit_ofNat {base} (hb : n = 0 ∧ base = 8 ∨ base = 10) (s : Bytes) :
    startsWithDigit base (ofNat n ++ s) = true := by
  obtain ⟨d, more, hd, -, heq⟩ := ofNat_head n
  rcases hb with ⟨rfl, rfl⟩ | rfl
  · rfl
  · rw [heq]
    simp [startsWithDigit, digitValue?_hexDigit d hd, hd]

theorem digits?_ofNat (announced negative : Bool) (n : Nat) (hs : Ended s) :
    digits? announced negative (ofNat n ++ s) =
    some (clamp (if negative then -(n : Int) else n), s) := by
  obtain ⟨base, hba, hb⟩ : ∃ base,
      (if announced then announcedBase (ofNat n ++ s) else (10, ofNat n ++ s)) =
      (base, ofNat n ++ s) ∧ (n = 0 ∧ base = 8 ∨ base = 10) := by
    cases announced with
    | false => exact ⟨10, rfl, .inr rfl⟩
    | true =>
      refine ⟨if n = 0 then 8 else 10, announcedBase_ofNat hs, ?_⟩
      split
      · next hn => exact .inl ⟨hn, rfl⟩
      · exact .inr rfl
  have hd : readDigits base 0 (ofNat n ++ s) = (n, s) := by
    rcases hb with ⟨rfl, rfl⟩ | rfl
    · exact hs.readDigits 8 _
    · rw [readDigits_ofNat]
      exact hs.readDigits 10 n
  simp only [digits?, hba, startsWithDigit_ofNat hb, hd, if_true]

theorem read?_ofNat (announced : Bool) (n : Nat) (hs : Ended s) :
    read? announced (ofNat n ++ s) = some (clamp n, s) := by
  have hf : ∀ d < 10, isSpace (hexDigit d) = false ∧ hexDigit d ≠ 45 ∧ hexDigit d ≠ 43 := by decide
  obtain ⟨d, more, hd, -, heq⟩ := ofNat_head n
  obtain ⟨hb, hm, hp⟩ := hf d hd
  have hr := read?_of_unsigned announced (s := more ++ s) hb hm hp
  rw [← cons_append, ← heq] at hr
  exact hr.trans (digits?_ofNat announced false n hs)

theorem clamp_of_lt (h : n < 9223372036854775808) : clamp n = Int64.ofNat n := by
  have hmin : min maxInt64 (n : Int) = n := by
    simp only [maxInt64]
    omega
  rw [clamp, hmin]
  rfl

end TemplateKit.Numeral
