import Mathlib.Data.Nat.Bitwise
import TemplateKit.Checksum

/-!
# The checksum bit by bit

The table holds what eight shifts of a register do to its low byte. Shifting is linear over
exclusive or and loses nothing, so the checksum by the table is the one by shifts, it is linear up
to a constant, and every bit counts.
-/

namespace TemplateKit.Checksum

open List

/-- One shift of the register: a one that falls out of it brings the polynomial in. -/
def shift (c : UInt32) : UInt32 := (c >>> 1) ^^^ if c &&& 1 = 0 then 0 else 0xEDB88320

def enter (c : UInt32) (b : UInt8) : UInt32 := shift^[8] (c ^^^ b.toUInt32)

/-- The checksum bit by bit, without a table. -/
def bitwise (s : Bytes) : UInt32 := ~~~(s.foldl enter 0xFFFFFFFF)

/-- The text with one of its bits changed; bits count from the lowest one of the first byte. -/
def flipBit (n : Nat) (s : Bytes) : Bytes := s.modify (n / 8) (· ^^^ (1 <<< (n % 8).toUInt8))

section Shift

variable {c : UInt32}

theorem low_bit (c : UInt32) : c &&& 1 = 0 ↔ c.toNat % 2 = 0 := by
  rw [← UInt32.toNat_inj, UInt32.toNat_and, UInt32.toNat_one, Nat.and_one_is_mod, UInt32.toNat_zero]

theorem shift_xor (c d : UInt32) : shift (c ^^^ d) = shift c ^^^ shift d := by
  have hlow : (c ^^^ d).toNat % 2 = (c.toNat % 2 + d.toNat % 2) % 2 := by
    rw [UInt32.toNat_xor, Nat.xor_mod_two_eq, Nat.add_mod]
  have hpoly : (if (c ^^^ d) &&& 1 = 0 then 0 else (0xEDB88320 : UInt32)) =
      (if c &&& 1 = 0 then 0 else 0xEDB88320) ^^^ if d &&& 1 = 0 then 0 else 0xEDB88320 := by
    simp only [low_bit, hlow]
    rcases Nat.mod_two_eq_zero_or_one c.toNat with hc | hc <;>
      rcases Nat.mod_two_eq_zero_or_one d.toNat with hd | hd <;> simp [hc, hd]
  rw [shift, hpoly, UInt32.shiftRight_xor, shift, shift]
  ac_rfl

theorem iterate_shift_xor (k : Nat) (c d : UInt32) :
    shift^[k] (c ^^^ d) = shift^[k] c ^^^ shift^[k] d := by
  induction k generalizing c d with
  | zero => rfl
  | succ k ih => exact (congrArg shift^[k] (shift_xor c d)).trans (ih (shift c) (shift d))

/-- Only zero is shifted to zero: the polynomial has the highest bit, which a shift leaves free. -/
theorem shift_eq_zero (h : shift c = 0) : c = 0 := by
  have hhalf : (c >>> 1).toNat = c.toNat / 2 := Nat.shiftRight_eq_div_pow c.toNat 1
  have hlt := c.toNat_lt
  rw [shift, UInt32.xor_eq_zero_iff] at h
  split at h
  · next he =>
    rw [low_bit] at he
    rw [h, UInt32.toNat_zero] at hhalf
    exact UInt32.toNat_inj.mp (by rw [UInt32.toNat_zero]; omega)
  · have hpoly : (0xEDB88320 : UInt32).toNat = 0xEDB88320 := rfl
    rw [h] at hhalf
    omega

theorem iterate_shift_injective (k : Nat) : Function.Injective shift^[k] := by
  apply Function.Injective.iterate
  intro c d h
  rw [← UInt32.xor_eq_zero_iff] at h ⊢
  exact shift_eq_zero ((shift_xor c d).trans h)

/-- While only zeros fall out nothing comes in. -/
theorem toNat_iterate_shift {k : Nat} (h : ∀ i < k, c.toNat.testBit i = false) :
    (shift^[k] c).toNat = c.toNat >>> k := by
  induction k generalizing c with
  | zero => rfl
  | succ k ih =>
    have hlow : c &&& 1 = 0 := by
      have hz := h 0 k.succ_pos
      rw [Nat.testBit_zero, decide_eq_false_iff_not] at hz
      exact (low_bit c).mpr (by omega)
    have hs : (shift c).toNat = c.toNat >>> 1 := by
      rw [shift, if_pos hlow, UInt32.xor_zero]
      rfl
    rw [Function.iterate_succ_apply, ih, hs, ← Nat.shiftRight_add, Nat.add_comm]
    intro i hi
    rw [hs, Nat.testBit_shiftRight]
    exact h (1 + i) (by omega)

theorem shiftRight_of_lt (h : c.toNat < 256) : c >>> 8 = 0 := by
  have hs : (c >>> 8).toNat = c.toNat / 256 := Nat.shiftRight_eq_div_pow c.toNat 8
  exact UInt32.toNat_inj.mp (by rw [hs, UInt32.toNat_zero]; omega)

theorem getD_table : ∀ n < 256, table.getD n 0 = shift^[8] (UInt32.ofNat n) := by
  decide +kernel

/-- A step by the table: the low byte of the register goes through the table, the rest only moves
down. -/
theorem step_eq_enter (c : UInt32) (b : UInt8) : step c b = enter c b := by
  rw [step, enter]
  generalize hx : c ^^^ b.toUInt32 = x
  have hlow : (x &&& 0xFF).toNat < 256 := by
    rw [UInt32.toNat_and]
    exact Nat.lt_of_le_of_lt Nat.and_le_right (by decide)
  have hclear : ∀ i < 8, (x ^^^ (x &&& 0xFF)).toNat.testBit i = false := by
    intro i hi
    have hmask : ∀ i < 8, (0xFF : UInt32).toNat.testBit i = true := by decide
    rw [UInt32.toNat_xor, UInt32.toNat_and, Nat.testBit_xor, Nat.testBit_and, hmask i hi,
      Bool.and_true, Bool.xor_self]
  have hhigh : shift^[8] (x ^^^ (x &&& 0xFF)) = c >>> 8 := by
    have hd : shift^[8] (x ^^^ (x &&& 0xFF)) = (x ^^^ (x &&& 0xFF)) >>> 8 :=
      UInt32.toNat_inj.mp (toNat_iterate_shift hclear)
    have hb : b.toUInt32 >>> 8 = 0 := shiftRight_of_lt (by simpa using b.toNat_lt)
    rw [hd, UInt32.shiftRight_xor, shiftRight_of_lt hlow, UInt32.xor_zero, ← hx,
      UInt32.shiftRight_xor, hb, UInt32.xor_zero]
  have hsplit : x = (x ^^^ (x &&& 0xFF)) ^^^ (x &&& 0xFF) := by
    rw [UInt32.xor_assoc, UInt32.xor_self, UInt32.xor_zero]
  rw [getD_table _ hlow, UInt32.ofNat_toNat, ← hhigh, ← iterate_shift_xor, ← hsplit]

theorem enter_xor (c d : UInt32) (a b : UInt8) :
    enter (c ^^^ d) (a ^^^ b) = enter c a ^^^ enter d b := by
  rw [enter, enter, enter, ← iterate_shift_xor, UInt8.toUInt32_xor]
  congr 1
  ac_rfl

end Shift

theorem foldl_enter_zipWith {s t : Bytes} (h : t.length = s.length) (c d : UInt32) :
    (zipWith (· ^^^ ·) s t).foldl enter (c ^^^ d) = s.foldl enter c ^^^ t.foldl enter d := by
  induction s generalizing t c d with
  | nil => rw [length_eq_zero_iff.mp h]; rfl
  | cons a s ih =>
    obtain ⟨b, t, rfl⟩ := exists_cons_of_length_eq_add_one h
    rw [zipWith_cons_cons, foldl_cons, enter_xor]
    exact ih (by simpa using h) (enter c a) (enter d b)

theorem zipWith_zeros (s : Bytes) : zipWith (· ^^^ ·) s (replicate s.length 0) = s := by
  induction s with
  | nil => rfl
  | cons b s ih => rw [length_cons, replicate_succ, zipWith_cons_cons, ih, UInt8.xor_zero]

/-- What is read later does not make up for different registers. -/
theorem foldl_enter_injective (s : Bytes) : Function.Injective fun c => s.foldl enter c := by
  induction s with
  | nil => exact Function.injective_id
  | cons b s ih => exact fun c d h => (UInt32.xor_left_inj _).mp (iterate_shift_injective 8 (ih h))

theorem foldl_enter_modify {f : UInt8 → UInt8} (hf : ∀ b, f b ≠ b) {s : Bytes} {k : Nat}
    (hk : k < s.length) (c : UInt32) : (s.modify k f).foldl enter c ≠ s.foldl enter c := by
  induction s generalizing k c with
  | nil => cases hk
  | cons b s ih =>
    cases k with
    | zero =>
      intro h
      have he : c ^^^ (f b).toUInt32 = c ^^^ b.toUInt32 :=
        iterate_shift_injective 8 (foldl_enter_injective s h)
      exact hf b (UInt8.toUInt32_inj.mp ((UInt32.xor_right_inj c).mp he))
    | succ k => exact ih (Nat.lt_of_succ_lt_succ hk) (enter c b)

theorem flipped_ne (n : Nat) (b : UInt8) : b ^^^ (1 <<< (n % 8).toUInt8) ≠ b := by
  have hbit : ∀ k < 8, (1 : UInt8) <<< k.toUInt8 ≠ 0 := by decide
  intro h
  rw [← UInt8.xor_eq_zero_iff, UInt8.xor_comm b, UInt8.xor_assoc, UInt8.xor_self,
    UInt8.xor_zero] at h
  exact hbit (n % 8) (Nat.mod_lt n (by decide)) h

theorem crc_eq_bitwise (s : Bytes) : crc s = bitwise s := by
  rw [crc, bitwise, funext₂ step_eq_enter]

/-- The checksum by the table is the one bit by bit. It is linear up to the checksum of zeros, and
each bit of a text counts. -/
theorem crc_bitwise (s : Bytes) : crc s = bitwise s ∧
    (∀ t : Bytes, t.length = s.length →
      crc (zipWith (· ^^^ ·) s t) = crc s ^^^ crc t ^^^ crc (replicate s.length 0)) ∧
    ∀ n < 8 * s.length, crc (flipBit n s) ≠ crc s := by
  simp only [crc_eq_bitwise, bitwise]
  refine ⟨trivial, fun t ht => ?_, fun n hn h => ?_⟩
  · have hsum := foldl_enter_zipWith ht 0xFFFFFFFF 0xFFFFFFFF
    -- what the register holds at the start goes the way it goes through zeros
    have hzero := foldl_enter_zipWith (length_replicate (a := 0)) 0 0xFFFFFFFF
      (s := zipWith (· ^^^ ·) s t)
    have hlen : (zipWith (· ^^^ ·) s t).length = s.length := by simp [ht]
    rw [UInt32.xor_self] at hsum
    rw [zipWith_zeros, UInt32.zero_xor, hsum, hlen] at hzero
    simp only [hzero, UInt32.not_xor, UInt32.xor_not, UInt32.not_not]
  · exact foldl_enter_modify (flipped_ne n) (by omega) _ (UInt32.not_inj.mp h)

theorem crc_bitwise_digits : crc (ascii "123456789") = 0xCBF43926 ∧
    crc (ascii "BAR") = crc (ascii "bar") ^^^ crc [32, 32, 32] ^^^ crc [0, 0, 0] ∧
    crc (flipBit 71 (ascii "123456789")) ≠ crc (ascii "123456789") := by
  have hcheck : bitwise (ascii "123456789") = 0xCBF43926 := by decide +kernel
  exact ⟨(crc_bitwise _).1.trans hcheck, (crc_bitwise (ascii "bar")).2.1 [32, 32, 32] rfl,
    (crc_bitwise (ascii "123456789")).2.2 71 (by decide)⟩

end TemplateKit.Checksum
