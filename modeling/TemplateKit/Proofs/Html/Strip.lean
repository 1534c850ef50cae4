import TemplateKit.Html.Strip
import TemplateKit.Proofs.Bytes.Basic
import TemplateKit.Proofs.Escape.Place

/-!
# Stripping pages

A page of plain bytes, entities and tags shows the bytes and what the entities stand for. Escaped
text shows what was escaped, less the carriage returns. In text that was not escaped an ampersand is
read as the start of an entity.
-/

namespace TemplateKit.Html

open List CharEntity

theorem textOf_entity {e : CharEntity} (he : e ∈ known) (fuel : Nat) (s : Bytes) :
    textOf (fuel + 1) (e.text ++ s) = e.char :: textOf fuel s := by
  simp only [known, mem_cons, not_mem_nil, or_false] at he
  rcases he with rfl | rfl | rfl | rfl | rfl | rfl <;> rfl

/-- What is read as one: an entity, which shows its character, or a tag, which shows nothing. -/
inductive Mark : Bytes → Bytes → Prop
  | entity {e : CharEntity} (he : e ∈ known) : Mark e.text [e.char]
  | tag {m : Bytes} (hm : ∀ b ∈ m, b ≠ '>' ∧ b ≠ '\n') : Mark ('<'.toUInt8 :: m ++ ['>'.toUInt8]) []

theorem Mark.ends {m c : Bytes} (h : Mark m c) :
    ∃ front b, m = front ++ [b] ∧ Ascii.isSpace b = false := by
  cases h with
  | entity he =>
    have hl : ∀ e ∈ known, e.text = e.text.dropLast ++ [';'.toUInt8] := by decide
    exact ⟨_, _, hl _ he, by decide⟩
  | tag => exact ⟨_, _, rfl, by decide⟩

theorem Mark.line {m c : Bytes} (h : Mark m c) : '\n'.toUInt8 ∉ m := by
  cases h with
  | @entity e he => exact (show ∀ e ∈ known, '\n'.toUInt8 ∉ e.text by decide) e he
  | tag hm => simpa using ⟨by decide, fun h => (hm _ h).2 rfl, by decide⟩

/-- What a page shows. -/
inductive Shows : Bytes → Bytes → Prop
  | nil : Shows [] []
  | byte {b p t} (hb : b ∉ ascii "&<") : Shows p t → Shows (b :: p) (b :: t)
  | mark {m c p t} (hm : Mark m c) : Shows p t → Shows (m ++ p) (c ++ t)

namespace Shows

variable {p q t u : Bytes}

theorem textOf (h : Shows p t) {fuel : Nat} (hf : p.length < fuel) : textOf fuel p = t := by
  induction h generalizing fuel with
  | nil => cases fuel <;> rfl
  | @byte b p t hb _ ih =>
    obtain _ | fuel := fuel
    · omega
    have hamp : b ≠ '&' := fun h => hb (h ▸ by decide)
    have htag : b ≠ '<' := fun h => hb (h ▸ by decide)
    simp [Html.textOf, hamp, htag, ih (Nat.lt_of_succ_lt_succ hf)]
  | @mark m c p t hm _ ih =>
    obtain _ | fuel := fuel
    · omega
    cases hm with
    | entity he => rw [textOf_entity he, ih (by simp [text] at hf; omega), singleton_append]
    | @tag m hm =>
      rw [append_assoc, cons_append, singleton_append, Html.textOf, if_neg (by decide),
        if_pos (beq_self_eq_true _), Bytes.dropWhile_ne fun h => (hm _ h).1 rfl]
      exact ih (by simp at hf; omega)

theorem append (hp : Shows p t) (hq : Shows q u) : Shows (p ++ q) (t ++ u) := by
  induction hp with
  | nil => exact hq
  | byte hb _ ih => exact .byte hb ih
  | mark hm _ ih =>
    rw [append_assoc, append_assoc]
    exact .mark hm ih

theorem escape (s : Bytes) : Shows (escape s) (s.filter (· != 13)) := by
  induction s with
  | nil => exact .nil
  | cons b s ih =>
    rw [Html.escape, flatMap_cons, filter_cons]
    generalize hp : escapeByte b = piece
    cases hp ▸ written_escapeByte b with
    | dropped hk =>
      rw [if_neg (by simp [hk])]
      exact ih
    | plain hk hb =>
      rw [if_pos hk]
      exact .byte (fun hmem => hb (mem_of_mem_take (i := 2) hmem)) ih
    | entity hk he hb =>
      rw [if_pos hk, ← hb]
      exact .mark (.entity he) ih

end Shows

/-- Stripping undoes escaping, except that carriage returns are lost. -/
theorem strip_escape {s : Bytes} (h : 0 ∉ s) : strip (escape s) = s.filter (· != 13) := by
  rw [strip, (Shows.escape s).textOf (Nat.lt_succ_self _)]
  exact Bytes.untilNul_of_not_mem fun hmem => h (mem_of_mem_filter hmem)

/-- A text that is full of what looks like entities and tags. -/
theorem strip_escape_crowded : strip (escape (ascii "&&amp;<\r\n<b>'\"'&lt;\r&#39")) =
    ascii "&&amp;<\n<b>'\"'&lt;&#39" :=
  strip_escape (by decide)

/-! ## Ampersands in plain text -/

theorem length_expand (name : Bytes) :
    (Entity.expand (Bytes.lower (Bytes.untilNul name))).length ≤ name.length + 1 := by
  have hl : (Bytes.lower (Bytes.untilNul name)).length ≤ name.length := by
    rw [Bytes.lower, length_map]
    exact (takeWhile_sublist _).length_le
  unfold Entity.expand
  split
  · simp
  · split
    · next h =>
      rw [beq_iff_eq.mp h] at hl
      exact Nat.le_trans (by decide) (Nat.succ_le_succ hl)
    · simp

/-- Up to a semicolon that is near enough an ampersand starts an entity. Else it is text, unless the
text is too short. -/
theorem textOf_ampersand (fuel : Nat) (s : Bytes) :
    (∃ name rest, s = name ++ ';'.toUInt8 :: rest ∧ ';'.toUInt8 ∈ s.take (longestEntity + 1) ∧
      textOf (fuel + 1) ('&'.toUInt8 :: s) =
        Entity.expand (Bytes.lower (Bytes.untilNul name)) ++ textOf fuel rest) ∨
    ';'.toUInt8 ∉ s.take (longestEntity + 1) ∧ textOf (fuel + 1) ('&'.toUInt8 :: s) =
      if s.length > longestEntity then '&'.toUInt8 :: textOf fuel s else [] := by
  rw [textOf, if_pos (beq_self_eq_true _)]
  by_cases hmem : ';'.toUInt8 ∈ s.take (longestEntity + 1)
  · obtain ⟨name, rest, ht, hn⟩ := eq_append_cons_of_mem hmem
    have hs : s = name ++ ';'.toUInt8 :: (rest ++ s.drop (longestEntity + 1)) := by
      rw [← cons_append, ← append_assoc, ← ht, take_append_drop]
    have hr : s.drop (name.length + 1) = rest ++ s.drop (longestEntity + 1) := by
      conv_lhs => rw [hs, drop_append, drop_eq_nil_of_le (by omega), Nat.add_sub_cancel_left]
      rfl
    refine .inl ⟨name, _, hs, hmem, ?_⟩
    rw [ht, Bytes.cutAt_byte hn]
    dsimp only
    rw [hr]
  · rw [Bytes.cutAt_of_not_mem hmem]
    exact .inr ⟨hmem, rfl⟩

theorem length_textOf (fuel : Nat) (s : Bytes) : (textOf fuel s).length ≤ s.length := by
  induction fuel generalizing s with
  | zero => simp [textOf]
  | succ fuel ih =>
    cases s with
    | nil => simp [textOf]
    | cons b s =>
      by_cases hamp : b = '&'.toUInt8
      · subst hamp
        rcases textOf_ampersand fuel s with ⟨name, rest, rfl, -, h⟩ | ⟨-, h⟩ <;> rw [h]
        · have hr := ih rest
          have hn := length_expand name
          rw [length_append, length_cons, length_append, length_cons]
          omega
        · split <;> grind
      · rw [textOf, if_neg (by simpa using hamp)]
        split
        · refine (ih _).trans ?_
          have hd := length_dropWhile_le (· != '>'.toUInt8) s
          rw [length_drop, length_cons]
          omega
        · exact Nat.succ_le_succ (ih s)

/-- An ampersand with at least ten bytes behind it, of which the first ten are no semicolons. -/
def Bare (behind : Bytes) : Prop := ';'.toUInt8 ∉ behind.take (longestEntity + 1) ∧
    longestEntity < behind.length

theorem textOf_eq_self_iff {s : Bytes} (htag : '<'.toUInt8 ∉ s) {fuel : Nat}
    (hf : s.length < fuel) :
    textOf fuel s = s ↔ ∀ behind, '&'.toUInt8 :: behind <:+ s → Bare behind := by
  induction s generalizing fuel with
  | nil => cases fuel <;> simp [textOf]
  | cons b s ih =>
    obtain _ | fuel := fuel
    · omega
    obtain ⟨hb, htag⟩ := ne_and_not_mem_of_not_mem_cons htag
    have hbe : (∀ behind, '&'.toUInt8 :: behind <:+ b :: s → Bare behind) ↔
        (b = '&'.toUInt8 → Bare s) ∧ textOf fuel s = s := by
      simp only [suffix_cons_iff]
      grind
    rw [hbe]
    by_cases hamp : b = '&'.toUInt8
    · subst hamp
      rcases textOf_ampersand fuel s with ⟨name, rest, hs, hmem, h⟩ | ⟨hmem, h⟩ <;> rw [h]
      · refine ⟨fun heq => ?_, fun hba => absurd hmem (hba.1 rfl).1⟩
        have hl := congrArg length heq
        have hn := length_expand name
        have hr := length_textOf fuel rest
        rw [hs, length_append, length_cons, length_append, length_cons] at hl
        omega
      · split
        · next hlo => simp [Bare, hmem, hlo]
        · next hsh => simp [Bare, hsh]
    · rw [textOf, if_neg (by simpa using hamp), if_neg (by simpa using hb.symm)]
      simp [hamp]

/-- A text without tags is kept exactly if each ampersand has enough behind it and no semicolon near
it. -/
theorem strip_eq_self_iff {s : Bytes} (hnul : 0 ∉ s) (htag : '<'.toUInt8 ∉ s) :
    strip s = s ↔ ∀ behind, '&'.toUInt8 :: behind <:+ s → Bare behind := by
  rw [← textOf_eq_self_iff htag (Nat.lt_succ_self _), strip]
  constructor
  · intro h
    have hinitial : (textOf (s.length + 1) s).untilNul <+: textOf (s.length + 1) s :=
      takeWhile_prefix _
    rw [h] at hinitial
    exact (hinitial.eq_of_length_le (length_textOf _ s)).symm
  · intro h
    rw [h, Bytes.untilNul_of_not_mem hnul]

/-- The last ampersand has just enough behind it. -/
theorem strip_eq_self_iff_twice :
    strip (ascii "a && b & and so on") = ascii "a && b & and so on" ∧
    Bare (ascii " and so on") := by
  have hstrip : strip (ascii "a && b & and so on") = ascii "a && b & and so on" := by decide
  exact ⟨hstrip, (strip_eq_self_iff (by decide) (by decide)).mp hstrip _ (by decide)⟩

/-- An ampersand with fewer bytes behind it is dropped with them. -/
theorem strip_drops_end : strip (ascii "a & b") = ascii "a " := by decide

end TemplateKit.Html
