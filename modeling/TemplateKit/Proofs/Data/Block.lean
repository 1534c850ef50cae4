import Mathlib.Data.List.Basic
import TemplateKit.Proofs.Data.Line

/-!
# Multi-line values and their terminators

A reader takes a multi-line value in pieces, a line or what of it fits into a buffer, and the first
piece that starts with the terminator and a blank ends it. So a value that ends in a newline is read
back exactly where none of its own pieces does that. Terminators are short and consist of capital
letters.
-/

namespace TemplateKit

open List PieceBuffer Terminator Ascii Random

theorem takeLine_append (room : Nat) (s : Bytes) :
    (takeLine room s).1 ++ (takeLine room s).2 = s := by
  induction room generalizing s with
  | zero => rfl
  | succ room ih =>
    cases s with
    | nil => rfl
    | cons b s =>
      rw [takeLine]
      split
      · next hb => simp_all
      · simp [ih]

theorem takeLine_length_le (room : Nat) (s : Bytes) : (takeLine room s).1.length ≤ room := by
  induction room generalizing s with
  | zero => simp [takeLine]
  | succ room ih =>
    cases s with
    | nil => simp [takeLine]
    | cons b s =>
      rw [takeLine]
      split
      · simp
      · simpa using ih s

theorem takeLine_ne_nil {room} (hr : 0 < room) {s} (hs : s ≠ []) : (takeLine room s).1 ≠ [] := by
  obtain _ | room := room
  · omega
  obtain ⟨b, s, rfl⟩ := exists_cons_of_ne_nil hs
  rw [takeLine]
  split <;> simp

def WholeLines (s : Bytes) : Prop := s = [] ∨ s.getLast? = some 10

theorem WholeLines.append {s t} (hs : WholeLines s) (ht : WholeLines t) : WholeLines (s ++ t) := by
  rcases ht with rfl | ht
  · rwa [append_nil]
  · right
    rw [getLast?_append, ht, Option.some_or]

theorem WholeLines.tail {b s} (h : WholeLines (b :: s)) : WholeLines s := by
  cases s with
  | nil => exact .inl rfl
  | cons c s =>
    rcases h with h | h
    · contradiction
    · exact .inr (by rwa [getLast?_cons_cons] at h)

/-- What stands behind whole lines does not change how they are cut. -/
theorem takeLine_wholeLines (room : Nat) {s} (hs : WholeLines s) (hne : s ≠ []) (more : Bytes) :
    takeLine room (s ++ more) = ((takeLine room s).1, (takeLine room s).2 ++ more) ∧
      WholeLines (takeLine room s).2 := by
  induction room generalizing s with
  | zero => exact ⟨rfl, hs⟩
  | succ room ih =>
    obtain ⟨b, s, rfl⟩ := exists_cons_of_ne_nil hne
    rw [cons_append, takeLine, takeLine]
    by_cases hb : b = 10
    · simpa [hb] using hs.tail
    · have hs' : s ≠ [] := by
        rintro rfl
        rcases hs with hs | hs
        · contradiction
        · exact hb (by simpa using hs)
      obtain ⟨heq, hr⟩ := ih hs.tail hs'
      simpa [hb, heq] using hr

theorem takeLine_line {room t} (ht : (10 : UInt8) ∉ t) (hr : t.length < room)
    (more : Bytes) : takeLine room (t ++ 10 :: more) = (t ++ [10], more) := by
  induction t generalizing room with
  | nil =>
    obtain _ | room := room
    · omega
    rfl
  | cons b t ih =>
    obtain _ | room := room
    · omega
    have hb : b ≠ 10 := fun h => ht (h ▸ mem_cons_self)
    rw [cons_append, takeLine, ih (fun h => ht (mem_cons_of_mem b h)) (by simpa using hr)]
    simp [hb]

/-- The pieces that a reader cuts a value into. -/
def pieces (terminator : Nat) : (fuel : Nat) → PieceBuffer → Bytes → List Bytes
  | 0, _, _ => []
  | fuel + 1, buffer, s =>
    let (piece, rest) := takeLine buffer.room s
    if piece.isEmpty then [] else piece ::
      pieces terminator fuel (buffer.add piece.length terminator) rest

/-- Does a reader end the value at one of its own pieces? -/
def Terminator.cuts (t : Terminator) (value : Bytes) : Bool :=
  (pieces t.length value.length .empty value).any (endsValue t)

def PieceBuffer.HasRoom (b : PieceBuffer) (terminator : Nat) : Prop := terminator < b.room

theorem PieceBuffer.HasRoom.add {b : PieceBuffer} {terminator piece : Nat}
    (h : b.HasRoom terminator)
    (ht : terminator < growth) (hp : piece ≤ b.room) :
    (b.add piece terminator).HasRoom terminator := by
  simp only [HasRoom, room, PieceBuffer.add] at *
  split <;> omega

theorem endsValue_self (t : Bytes) : endsValue t (t ++ [10]) = true := by
  rw [endsValue, Bytes.dropPrefix?_append]
  rfl

section Block

variable {t : Bytes} {b : PieceBuffer} {v : Bytes}

theorem pieces_nil (f : Nat) (b : PieceBuffer) (terminator : Nat) :
    pieces terminator f b [] = [] := by
  cases f with
  | zero => rfl
  | succ f => cases h : b.room <;> simp [pieces, takeLine, h]

/-- Reading a block from anywhere in its middle: the rest of the value is read back if none of its
pieces ends it, and something shorter is read otherwise. -/
theorem readPieces_block (ht : (10 : UInt8) ∉ t) (hs : t.length < growth)
    (hb : b.HasRoom t.length) (hv : WholeLines v) {f g} (hf : v.length ≤ f) (hg : v.length < g)
    (more : Bytes) :
    if (pieces t.length f b v).any (endsValue t) then
      (readPieces t g b (v ++ (t ++ 10 :: more))).1.length < v.length
    else ∃ count, readPieces t g b (v ++ (t ++ 10 :: more)) = (v, count, more) := by
  induction g generalizing b v f with
  | zero => omega
  | succ g ih =>
    by_cases hne : v = []
    · subst hne
      rw [pieces_nil]
      exact ⟨1, by simp [readPieces, takeLine_line ht hb more, endsValue_self]⟩
    · obtain ⟨f, rfl⟩ := Nat.exists_eq_succ_of_ne_zero
        (Nat.ne_of_gt (Nat.lt_of_lt_of_le (length_pos_of_ne_nil hne) hf))
      -- one piece of the value is read as it is cut, whatever follows the value
      obtain ⟨hcut, hw⟩ := takeLine_wholeLines b.room hv hne (t ++ 10 :: more)
      have hp := takeLine_ne_nil (Nat.zero_lt_of_lt hb) hne
      have hsp := congrArg List.length (takeLine_append b.room v)
      have hpos := length_pos_of_ne_nil hp
      rw [length_append] at hsp
      have hn := ih (hb.add hs (takeLine_length_le b.room v)) hw (f := f) (by omega) (by omega)
      simp only [pieces, readPieces, hcut, List.isEmpty_iff, if_neg hp, any_cons]
      cases hend : endsValue t (takeLine b.room v).1 with
      | true => simpa using length_pos_of_ne_nil hne
      | false =>
        simp only [Bool.false_or, Bool.false_eq_true, if_false]
        split
        · next hcut =>
          rw [if_pos hcut] at hn
          rw [length_append]
          omega
        · next hcut =>
          rw [if_neg hcut] at hn
          obtain ⟨count, heq⟩ := hn
          exact ⟨count + 1, by rw [heq, takeLine_append]⟩

theorem hasRoom_empty (hs : t.length + 1 < growth) : empty.HasRoom t.length := by
  simp only [PieceBuffer.HasRoom, room, empty] at *
  omega

theorem readPieces_of_not_cuts (ht : (10 : UInt8) ∉ t) (hs : t.length + 1 < growth)
    (hv : v.getLast? = some 10) (hcut : cuts t v = false) {fuel} (hf : v.length < fuel)
    (more : Bytes) : ∃ count, readPieces t fuel .empty (v ++ (t ++ 10 :: more)) =
      (v, count, more) := by
  have hb := readPieces_block ht (by omega) (hasRoom_empty hs) (.inr hv) (Nat.le_refl _) hf more
  rw [cuts] at hcut
  rwa [hcut] at hb

/-- A value that ends in a newline is read back up to the terminator behind it exactly if none of
its pieces is taken for the terminator. -/
theorem readPieces_eq_iff (ht : (10 : UInt8) ∉ t) (hs : t.length + 1 < growth)
    (hv : v.getLast? = some 10) {fuel} (hf : v.length < fuel) (more : Bytes) :
    (readPieces t fuel .empty (v ++ (t ++ 10 :: more))).1 = v ↔ cuts t v = false := by
  constructor
  · intro heq
    have hb := readPieces_block ht (by omega) (hasRoom_empty hs) (.inr hv) (Nat.le_refl _) hf more
    cases hcut : cuts t v with
    | false => rfl
    | true =>
      rw [cuts] at hcut
      rw [hcut, if_pos rfl, heq] at hb
      omega
  · intro hcut
    obtain ⟨count, heq⟩ := readPieces_of_not_cuts ht hs hv hcut hf more
    rw [heq]

end Block

namespace Random

theorem roundTo53_of_lt {n} (h : n < 0x20000000000000) : roundTo53 n = n := by
  have hlog : Nat.log2 n - 52 = 0 := by
    by_cases hn : n = 0
    · rw [hn]
      decide
    · have hlt : Nat.log2 n < 53 := (Nat.log2_lt hn).mpr (Nat.lt_of_lt_of_le h (by decide))
      omega
  simp [roundTo53, hlog, Nat.mod_one]

theorem below_lt (r : Random) {bound} (hpos : 0 < bound) (hs : bound ≤ 32) :
    ∃ k : Nat, k < bound ∧ (r.below bound).1 = k := by
  have hp : r.step.state * bound < modulus * bound :=
    Nat.mul_lt_mul_of_pos_right (Nat.mod_lt _ (by decide)) hpos
  have hr : roundTo53 (r.step.state * bound) = r.step.state * bound := by
    refine roundTo53_of_lt (Nat.lt_of_lt_of_le hp ?_)
    calc modulus * bound ≤ modulus * 32 := Nat.mul_le_mul_left _ hs
      _ = 0x20000000000000 := by decide
  refine ⟨r.step.state * bound / modulus, Nat.div_lt_of_lt_mul hp, ?_⟩
  have hn : ¬(bound : Int) < 0 := by omega
  simp only [below, hn, if_false, Int.natAbs_natCast, hr]

theorem capital_isUpper (r : Random) : isUpper (capital r).1 = true := by
  obtain ⟨k, hk, heq⟩ := r.below_lt (by decide : 0 < 26) (by decide)
  have hc : (capital r).1 = (65 + k).toUInt8 := by
    change (65 + (r.below (26 : Nat)).1).toNat.toUInt8 = _
    rw [heq]
    rfl
  have hu : ∀ k < 26, isUpper (65 + k).toUInt8 = true := by decide
  rw [hc]
  exact hu k hk

theorem letters_spec {letter : Random → UInt8 × Random} {p : UInt8 → Bool}
    (hp : ∀ r, p (letter r).1 = true) (n : Nat) (r : Random) :
    (letters letter n r).1.length = n ∧ ∀ b ∈ (letters letter n r).1, p b = true := by
  induction n generalizing r with
  | zero => simp [letters]
  | succ n ih => simpa [letters, hp r] using ih (letter r).2

end Random

namespace Terminator

/-- What terminators look like: a few capital letters. -/
structure Proper (t : Terminator) : Prop where
  ne_nil : t ≠ []
  short : t.length ≤ 6
  capitals : ∀ b ∈ t, isUpper b = true

theorem proper_initial : Proper initial :=
  ⟨by decide, by decide, all_eq_true.mp (show initial.all isUpper = true by decide)⟩

theorem proper_draw (r : Random) : Proper (draw r).1 := by
  obtain ⟨k, hk, heq⟩ := r.below_lt (by decide : 0 < 5) (by decide)
  have hd : (draw r).1 = (letters capital (2 + k) (r.below (5 : Nat)).2).1 := by
    change (letters capital (2 + (r.below (5 : Nat)).1).toNat (r.below (5 : Nat)).2).1 = _
    rw [heq]
    rfl
  obtain ⟨hl, hc⟩ := letters_spec capital_isUpper (2 + k) (r.below (5 : Nat)).2
  rw [hd]
  refine ⟨fun h => ?_, by omega, hc⟩
  rw [h, length_nil] at hl
  omega

theorem proper_choose (value : Bytes) (fuel : Nat) {t : Terminator} (ht : t.Proper) (r : Random) :
    Proper (t.choose value fuel r).1 := by
  induction fuel generalizing t r with
  | zero => exact ht
  | succ fuel ih =>
    rw [choose]
    split
    · exact ih (proper_draw r) _
    · exact ht

namespace Proper

variable {t : Terminator}

theorem isSpace (ht : t.Proper) {b} (hb : b ∈ t) : isSpace b = false := by
  have hu := ht.capitals b hb
  grind [isUpper, isSpace]

theorem newline_not_mem (ht : t.Proper) : (10 : UInt8) ∉ t :=
  fun h => absurd (ht.isSpace h) (by decide)

end Proper

end Terminator

end TemplateKit
