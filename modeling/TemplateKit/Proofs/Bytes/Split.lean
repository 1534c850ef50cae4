import Mathlib.Data.List.Infix
import TemplateKit.Bytes.Split
import TemplateKit.Proofs.Bytes.Basic

/-!
# The pieces of a split text

Every cut is made where the separator first stands, and the next search begins behind it. So the
pieces joined again are the text, there is one more of them than cuts, and only the last one may
hold the separator.
-/

namespace TemplateKit.Bytes

open List

variable {sep s : Bytes}

/-- How often `sep` stands in a text, counted from the left without overlaps. The first `skip` bytes
belong to a place that was counted before. -/
def places (sep : Bytes) : (skip : Nat) → Bytes → Nat
  | _, [] => 0
  | skip + 1, _ :: s => places sep skip s
  | 0, b :: s => if sep <+: b :: s then places sep (sep.length - 1) s + 1 else places sep 0 s

theorem places_skip (sep : Bytes) (n : Nat) (s : Bytes) :
    places sep n s = places sep 0 (s.drop n) := by
  induction n generalizing s with
  | zero => rfl
  | succ n ih =>
    cases s with
    | nil => rfl
    | cons b s => exact ih s

theorem places_of_find?_none (h : find? sep s = none) : places sep 0 s = 0 := by
  induction s with
  | nil => rfl
  | cons b s ih =>
    unfold find? at h
    split at h
    · cases h
    · next hb =>
      rw [places, if_neg (startsWith_iff.not.mp hb)]
      exact ih (Option.map_eq_none_iff.mp h)

/-- The place found is the first one: the text in front of it does not hold the separator, and the
count goes on behind it. -/
theorem find?_first {k : Nat} (hsep : sep ≠ []) (h : find? sep s = some k) :
    s.take k ++ sep ++ s.drop (k + sep.length) = s ∧ ¬ sep <:+: s.take k ∧
      places sep 0 s = places sep 0 (s.drop (k + sep.length)) + 1 := by
  induction s generalizing k with
  | nil => simp [find?, hsep] at h
  | cons b s ih =>
    unfold find? at h
    split at h
    · next hb =>
      obtain rfl : 0 = k := Option.some.inj h
      have hp := startsWith_iff.mp hb
      obtain ⟨n, hn⟩ := Nat.exists_eq_add_one_of_ne_zero (mt length_eq_zero_iff.mp hsep)
      refine ⟨?_, ?_, ?_⟩
      · rw [take_zero, nil_append, Nat.zero_add]
        exact prefix_iff_eq_append.mp hp
      · simpa using hsep
      · rw [places, if_pos hp, places_skip, Nat.zero_add, hn, drop_succ_cons, Nat.add_sub_cancel]
    · next hb =>
      obtain ⟨j, hj, rfl⟩ := Option.map_eq_some_iff.mp h
      have hp := startsWith_iff.not.mp hb
      obtain ⟨hs, hno, hpl⟩ := ih hj
      rw [Nat.add_right_comm, take_succ_cons, drop_succ_cons]
      refine ⟨congrArg (b :: ·) hs, fun hin => ?_, by rw [places, if_neg hp, hpl]⟩
      rcases infix_cons_iff.mp hin with hb | ht
      · exact hp (hb.trans (List.take_prefix (j + 1) (b :: s)))
      · exact hno ht

/-- The pieces that `n` cuts make of a text. -/
structure Pieces (sep : Bytes) (n : Nat) (s : Bytes) (ps : List Bytes) : Prop where
  length : ps.length = n + 1
  joined : sep.intercalate ps = s
  clean : ∀ p ∈ ps.dropLast, ¬ sep <:+: p

theorem Pieces.whole (s : Bytes) : Pieces sep 0 s [s] := ⟨rfl, by simp, by simp⟩

theorem Pieces.cons {p n ps} (hp : ¬ sep <:+: p) (h : Pieces sep n s ps) :
    Pieces sep (n + 1) (p ++ sep ++ s) (p :: ps) := by
  have hne : ps ≠ [] := ne_nil_of_length_eq_add_one h.length
  refine ⟨by rw [length_cons, h.length], by rw [intercalate_cons_of_ne_nil hne, h.joined], ?_⟩
  rw [dropLast_cons_of_ne_nil hne]
  exact forall_mem_cons.mpr ⟨hp, h.clean⟩

/-- As many pieces as the text has bytes are enough: each cut takes the separator out of it. -/
theorem pieces_piecesOf (hsep : sep ≠ []) {fuel : Nat} (hf : s.length ≤ fuel) (cuts : Nat) :
    Pieces sep (min cuts (places sep 0 s)) s (piecesOf sep fuel cuts s) := by
  induction fuel generalizing s cuts with
  | zero =>
    rw [length_eq_zero_iff.mp (Nat.le_zero.mp hf), places, Nat.min_zero]
    exact .whole []
  | succ fuel ih =>
    cases cuts with
    | zero =>
      rw [Nat.zero_min]
      exact .whole s
    | succ cuts =>
      unfold piecesOf
      cases h : find? sep s with
      | none =>
        rw [places_of_find?_none h]
        exact .whole s
      | some k =>
        obtain ⟨hs, hno, hpl⟩ := find?_first hsep h
        have hlt : (s.drop (k + sep.length)).length ≤ fuel := by
          have hpos := length_pos_of_ne_nil hsep
          rw [length_drop]
          omega
        have hcut := (ih hlt cuts).cons hno
        rwa [hs, ← Nat.add_min_add_right, ← hpl] at hcut

/-- As many cuts are made as are asked for and as there are places for, the pieces with the
separator between them are the text, and all but the last are without the separator. -/
theorem splitOn_pieces (hsep : sep ≠ []) (cuts : Nat) (s : Bytes) :
    ∃ ps, splitOn sep cuts s = .ok ps ∧ ps.length = min cuts (places sep 0 s) + 1 ∧
      sep.intercalate ps = s ∧
      ∀ p ∈ ps.dropLast, ¬ sep <:+: p := by
  obtain ⟨hlength, hjoined, hclean⟩ := pieces_piecesOf hsep (Nat.le_refl s.length) cuts
  refine ⟨_, ?_, hlength, hjoined, hclean⟩
  rw [splitOn, if_neg (by simpa using hsep)]

/-- Places that overlap are not cut twice. -/
theorem splitOn_overlapping :
    ∃ ps, splitOn (ascii "aa") 2 (ascii "aaabaaaa") = .ok ps ∧ ps.length = 3 ∧
      (ascii "aa").intercalate ps = ascii "aaabaaaa" ∧ ∀ p ∈ ps.dropLast, ¬ ascii "aa" <:+: p :=
  splitOn_pieces (by decide) 2 (ascii "aaabaaaa")

end TemplateKit.Bytes
