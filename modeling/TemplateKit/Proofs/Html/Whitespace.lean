import Mathlib.Data.List.DropRight
import TemplateKit.Html.Whitespace
import TemplateKit.Proofs.Bytes.Basic

/-!
# What squeezing blanks keeps

A page is read as bytes, tags and blocks of preformatted text. Squeezing takes a tag or a block as a
whole, and what it takes back at the end of a line never reaches into one, because each ends with a
`>`. It takes nothing but blanks, and reading what it has written leads to the state in which it was
written.
-/

namespace TemplateKit

open List Ascii Bytes

namespace Bytes

theorem startsWithNoCase_iff_lower {p s : Bytes} :
    startsWithNoCase p s = true ↔ lower p <+: lower s := by
  rw [startsWithNoCase, startsWith_iff, lower, lower, map_take, prefix_take_iff, length_map]
  exact and_iff_left le_rfl

theorem prefix_before {a b d : Bytes} {c : UInt8} (hc : c ∉ a) : a <+: b ++ c :: d ↔ a <+: b := by
  induction b generalizing a with
  | nil => cases a <;> grind
  | cons x b ih => cases a <;> simp_all

end Bytes

namespace Html

/-- The text without its blanks. -/
def visible (s : Bytes) : Bytes := s.filter (!isSpace ·)

theorem visible_append (s t : Bytes) : visible (s ++ t) = visible s ++ visible t := filter_append ..

/-! ## Tags and blocks -/

section Closing

variable {stop seen s t : Bytes} {n : Nat}

theorem closing_ends (s : Bytes) : ∃ c, (closing s).reverse = '>'.toUInt8 :: c := by
  rw [closing]
  split
  · next hf =>
    have hmem := mem_of_find?_eq_some hf
    simp only [verbatim, mem_cons, not_mem_nil, or_false] at hmem
    rcases hmem with ⟨-, rfl⟩ | ⟨-, rfl⟩ <;> exact ⟨_, rfl⟩
  · exact ⟨_, rfl⟩

/-- A text is closed with a `>`, whatever comes behind that. -/
theorem through?_eq_some {c} (hs : stop.reverse = '>'.toUInt8 :: c)
    (h : through? stop seen s = some n) :
    ∃ front rest, s = front ++ '>'.toUInt8 :: rest ∧ n = front.length + 1 ∧
      ∀ u, through? stop seen (front ++ '>'.toUInt8 :: u) = some n := by
  induction s generalizing seen n with
  | nil => cases h
  | cons b s ih =>
    rw [through?] at h
    split at h
    · next hf =>
      have hb : b = '>' := by
        have hfi := startsWith_iff.mp hf
        rw [hs, cons_prefix_cons] at hfi
        simpa using byte_imp (p := ('>' == toLower ·)) (q := (· == '>')) (by
          decide +kernel) (beq_iff_eq.mpr hfi.1)
      cases h
      exact ⟨[], s, congrArg (· :: s) hb, rfl,
        fun u => by rw [nil_append, through?, ← hb, if_pos hf]⟩
    · next hf =>
      obtain ⟨m, hm, rfl⟩ := Option.map_eq_some_iff.mp h
      obtain ⟨front, rest, rfl, rfl, hc⟩ := ih hm
      exact ⟨b :: front, rest, rfl, rfl, fun u => by rw [cons_append, through?, if_neg hf, hc]; rfl⟩

/-- No name of a block has a `>`, so what is behind the first one does not matter. -/
theorem closing_before (front u v : Bytes) :
    closing (front ++ '>'.toUInt8 :: u) = closing (front ++ '>'.toUInt8 :: v) := by
  have hl : ∀ w, lower (front ++ '>'.toUInt8 :: w) = lower front ++ '>'.toUInt8 :: lower w :=
    fun w => map_append
  have hn : ∀ p : Bytes, '>'.toUInt8 ∉ lower p →
      startsWithNoCase p (front ++ '>'.toUInt8 :: u) =
      startsWithNoCase p (front ++ '>'.toUInt8 :: v) := by
    intro p hp
    rw [Bool.eq_iff_iff, startsWithNoCase_iff_lower, startsWithNoCase_iff_lower, hl, hl,
      prefix_before hp, prefix_before hp]
  simp only [closing, verbatim, find?_cons, find?_nil, hn (ascii "textarea") (by decide),
    hn (ascii "pre") (by decide)]

/-- A tag or a block, without the `<` in front: it is closed at its end and not before. -/
def Markup (t : Bytes) : Prop := (∃ front, t = front ++ ['>'.toUInt8]) ∧
    ∀ u, tagLength (t ++ u) = t.length

theorem markup_of_closed (h : through? (closing s) [] s = some n) :
    ∃ t rest, s = t ++ rest ∧ n = t.length ∧ Markup t := by
  obtain ⟨c, hc⟩ := closing_ends s
  obtain ⟨front, rest, rfl, rfl, hcl⟩ := through?_eq_some hc h
  have hl : front.length + 1 = (front ++ ['>'.toUInt8]).length := by
    rw [length_append, length_singleton]
  refine ⟨front ++ ['>'.toUInt8], rest,
    by rw [append_assoc, singleton_append], hl, ⟨front, rfl⟩, fun u => ?_⟩
  rw [append_assoc, singleton_append, tagLength, closing_before front u rest, hcl,
    Option.getD_some, hl]

end Closing

/-- Texts piece by piece: bytes, tags and blocks. Only a text that is not `whole` may end inside
one. -/
inductive Pieces (whole : Bool) : Bytes → Prop
  | nil : Pieces whole []
  | byte {b s} (hb : b ≠ '<'.toUInt8) : Pieces whole s → Pieces whole (b :: s)
  | markup {t s} (ht : Markup t) : Pieces whole s → Pieces whole ('<'.toUInt8 :: (t ++ s))
  | unclosed {s} (hw : whole = false) (hs : through? (closing s) [] s = none) :
      Pieces whole ('<'.toUInt8 :: s)

theorem pieces (s : Bytes) : Pieces false s := by
  induction hn : s.length using Nat.strong_induction_on generalizing s with
  | h n ih =>
  cases s with
  | nil => exact .nil
  | cons b s =>
    rw [length_cons] at hn
    by_cases hb : b = '<'.toUInt8
    · subst hb
      cases hc : through? (closing s) [] s with
      | none => exact .unclosed rfl hc
      | some k =>
        obtain ⟨t, rest, rfl, -, ht⟩ := markup_of_closed hc
        rw [length_append] at hn
        exact .markup ht (ih _ (by omega) rest rfl)
    · exact .byte hb (ih _ (by omega) s rfl)

/-! ## Rounds of squeezing -/

section Rounds

variable {eager : Bool} {st : Squeeze} {s t : Bytes} {b : UInt8}

theorem squeeze_byte (hb : b ≠ '<'.toUInt8) :
    squeeze eager st 0 (b :: s) = squeeze eager (squeezeByte eager st b) 0 s := by
  rw [squeeze, if_neg (by simpa using hb)]

def Squeeze.copy (st : Squeeze) (t : Bytes) : Squeeze := ⟨t.reverse ++ st.kept, false, true⟩

theorem squeeze_copied (t : Bytes) (st : Squeeze) (s : Bytes) :
    squeeze eager (st.copy [b]) t.length (t ++ s) = squeeze eager (st.copy (b :: t)) 0 s := by
  induction t generalizing st b with
  | nil => rfl
  | cons c t ih =>
    have := ih (b := c) (st.copy [b])
    simpa [Squeeze.copy, squeeze] using this

theorem squeeze_markup (ht : Markup t) (st : Squeeze) (s : Bytes) :
    squeeze eager st 0 ('<'.toUInt8 :: (t ++ s)) =
    squeeze eager (st.copy ('<'.toUInt8 :: t)) 0 s := by
  rw [squeeze, ht.2]
  exact squeeze_copied t st s

theorem squeeze_unclosed (hs : through? (closing s) [] s = none) (st : Squeeze) :
    squeeze eager st 0 ('<'.toUInt8 :: s) = st.kept.reverse ++ '<'.toUInt8 :: s := by
  rw [squeeze, tagLength, hs]
  have hc : squeeze eager _ _ (s ++ []) = _ := squeeze_copied (b := '<'.toUInt8) s st []
  rw [append_nil] at hc
  exact hc.trans (by simp [squeeze, Squeeze.copy])

/-- A byte is kept, or it is a blank and skipped, or it ends a line and the blanks in front of it
are taken back. -/
theorem squeezeByte_cases (eager : Bool) (st : Squeeze) (b : UInt8) :
    (∃ f g, squeezeByte eager st b = ⟨b :: st.kept, f, g⟩) ∨
    (isSpace b = true ∧ squeezeByte eager st b = st) ∨
      b = '\n'.toUInt8 ∧ squeezeByte eager st b =
      ⟨b :: st.kept.dropWhile isSpace, eager, eager⟩ := by
  unfold squeezeByte
  split
  · next hb => exact .inr (.inr ⟨beq_iff_eq.mp hb, rfl⟩)
  · split
    · next hbl =>
      split
      · exact .inr (.inl ⟨(Bool.and_eq_true_iff.mp hbl).2, rfl⟩)
      · exact .inl ⟨true, true, rfl⟩
    · exact .inl ⟨false, true, rfl⟩

theorem visible_dropBlanks (k : Bytes) :
    visible (k.dropWhile isSpace).reverse = visible k.reverse := by
  induction k with
  | nil => rfl
  | cons b k ih =>
    rw [dropWhile_cons]
    split
    · next hb =>
      rw [ih]
      simp [visible, hb]
    · rfl

def Thins (s t : Bytes) : Prop := t <+ s ∧ visible t = visible s

theorem thins_squeezeByte (s : Bytes) :
    Thins (st.kept.reverse ++ b :: s) ((squeezeByte eager st b).kept.reverse ++ s) := by
  rcases squeezeByte_cases eager st b with ⟨f, g, h⟩ | ⟨hb, h⟩ | ⟨-, h⟩ <;> rw [h]
  · rw [reverse_cons, append_assoc]
    exact ⟨.refl _, rfl⟩
  · exact ⟨(Sublist.refl _).append (sublist_cons_self b s), by simp [visible, hb]⟩
  · rw [reverse_cons, append_assoc, singleton_append]
    refine ⟨(dropWhile_sublist _).reverse.append (.refl _), ?_⟩
    rw [visible_append, visible_dropBlanks, ← visible_append]

theorem thins_squeeze (st : Squeeze) (s : Bytes) :
    Thins (st.kept.reverse ++ s) (squeeze eager st 0 s) := by
  induction pieces s generalizing st with
  | nil =>
    rw [append_nil]
    exact ⟨.refl _, rfl⟩
  | byte hb _ ih =>
    rw [squeeze_byte hb]
    exact ⟨(ih _).1.trans (thins_squeezeByte _).1, (ih _).2.trans (thins_squeezeByte _).2⟩
  | markup ht _ ih =>
    rw [squeeze_markup ht]
    simpa [Squeeze.copy] using ih (st.copy ('<' :: _))
  | unclosed _ hs =>
    rw [squeeze_unclosed hs]
    exact ⟨.refl _, rfl⟩

/-- What is in front of a byte that is no blank is not touched any more. -/
theorem squeeze_onto {c} (hc : isSpace c = false) (base k s : Bytes) (f g : Bool) :
    squeeze eager ⟨k ++ c :: base, f, g⟩ 0 s =
    (c :: base).reverse ++ squeeze eager ⟨k, f, g⟩ 0 s := by
  induction pieces s generalizing k f g with
  | nil => simp [squeeze]
  | @byte b s hb _ ih =>
    have hd : (k ++ c :: base).dropWhile isSpace = k.dropWhile isSpace ++ c :: base := by
      rw [dropWhile_append]
      split <;> simp_all
    rw [squeeze_byte hb, squeeze_byte hb, squeezeByte, squeezeByte, hd, ← cons_append]
    split
    · exact ih ..
    · split
      · split
        · exact ih k ..
        · exact ih (b :: k) ..
      · exact ih (b :: k) ..
  | markup ht _ ih => rw [squeeze_markup ht, squeeze_markup ht, Squeeze.copy,
      Squeeze.copy, ← append_assoc, ih]
  | unclosed _ hs => simp [squeeze_unclosed hs]

theorem squeeze_behind (ht : Markup t) (st : Squeeze) (s : Bytes) :
    squeeze eager st 0 ('<'.toUInt8 :: (t ++ s)) =
    st.kept.reverse ++ '<'.toUInt8 :: t ++ squeeze eager ⟨[], false, true⟩ 0 s := by
  obtain ⟨front, rfl⟩ := ht.1
  rw [squeeze_markup ht, Squeeze.copy, ← cons_append, reverse_concat,
    cons_append, ← nil_append (_ :: _), squeeze_onto (by decide)]
  simp

/-- Whatever was written so far is written again, with the same state behind it. -/
def Replays (eager : Bool) (st : Squeeze) : Prop :=
  ∀ s, squeeze eager ⟨[], eager, eager⟩ 0 (st.kept.reverse ++ s) = squeeze eager st 0 s

/-- That holds also of what is left if the blanks at the end are taken back. -/
def Settled (eager : Bool) (st : Squeeze) : Prop :=
  Replays eager st ∧ ∃ st', st'.kept = st.kept.dropWhile isSpace ∧ Replays eager st'

theorem Replays.keep {st' : Squeeze} (h : Replays eager st) (hb : b ≠ '<'.toUInt8)
    (hst : squeezeByte eager st b = st') (hk : st'.kept = b :: st.kept) : Replays eager st' := by
  intro s
  rw [hk, reverse_cons, append_assoc, singleton_append, h, squeeze_byte hb, hst]

theorem Settled.byte (h : Settled eager st) (hb : b ≠ '<'.toUInt8) :
    Settled eager (squeezeByte eager st b) := by
  obtain ⟨hr, st', hst', hr'⟩ := h
  rcases squeezeByte_cases eager st b with ⟨f, g, hk⟩ | ⟨-, hsk⟩ | ⟨rfl, hl⟩
  · have hnew := hr.keep hb hk rfl
    rw [hk]
    refine ⟨hnew, ?_⟩
    by_cases hs : isSpace b = true
    · exact ⟨st', by rw [hst', dropWhile_cons_of_pos hs], hr'⟩
    · exact ⟨_, (dropWhile_cons_of_neg hs).symm, hnew⟩
  · rw [hsk]
    exact ⟨hr, st', hst', hr'⟩
  · have hke : st'.kept.dropWhile isSpace = st'.kept := by rw [hst', dropWhile_idempotent]
    rw [hl, ← hst']
    refine ⟨hr'.keep hb ?_ rfl, st', ?_, hr'⟩
    · rw [squeezeByte, if_pos (beq_self_eq_true _), hke]
    · rw [dropWhile_cons_of_pos (by decide), hke]

theorem Settled.copy (h : Settled eager st) (ht : Markup t) :
    Settled eager (st.copy ('<'.toUInt8 :: t)) := by
  have hnew : Replays eager (st.copy ('<'.toUInt8 :: t)) := by
    intro s
    rw [← squeeze_markup ht, ← h.1, Squeeze.copy]
    simp
  obtain ⟨front, rfl⟩ := ht.1
  refine ⟨hnew, _, ?_, hnew⟩
  rw [Squeeze.copy, ← cons_append, reverse_concat, cons_append, dropWhile_cons_of_neg (by decide)]

theorem squeeze_again (h : Settled eager st) (s : Bytes) :
    squeeze eager ⟨[], eager, eager⟩ 0 (squeeze eager st 0 s) = squeeze eager st 0 s := by
  induction pieces s generalizing st with
  | nil =>
    have := h.1 []
    rwa [append_nil] at this
  | byte hb _ ih =>
    rw [squeeze_byte hb]
    exact ih (h.byte hb)
  | markup ht _ ih =>
    rw [squeeze_markup ht]
    exact ih (h.copy ht)
  | unclosed _ hs => rw [squeeze_unclosed hs, h.1, squeeze_unclosed hs]

/-- A part of a page stays as it is, and so does what can be seen in front of it and behind it. -/
def Stays (out p m q : Bytes) : Prop :=
  ∃ p' q', out = p' ++ m ++ q' ∧ visible p' = visible p ∧ visible q' = visible q

theorem Stays.front {out p p' m q : Bytes} (h : Stays out p m q) (hp : visible p = visible p') :
    Stays out p' m q := by
  obtain ⟨a, b, hout, ha, hb⟩ := h
  exact ⟨a, b, hout, ha.trans hp, hb⟩

theorem stays_markup (ht : Markup t) {p} (hp : Pieces true p) (st : Squeeze) (q : Bytes) :
    Stays (squeeze eager st 0 (p ++ '<'.toUInt8 :: t ++ q)) (st.kept.reverse ++ p)
      ('<'.toUInt8 :: t) q := by
  induction hp generalizing st with
  | nil => exact ⟨_, _, squeeze_behind ht st q, by rw [append_nil], (thins_squeeze _ q).2⟩
  | byte hb _ ih =>
    rw [cons_append, cons_append, squeeze_byte hb]
    exact (ih _).front (thins_squeezeByte _).2
  | markup hu _ ih =>
    rw [cons_append, cons_append, append_assoc, append_assoc, squeeze_markup hu, ← append_assoc]
    exact (ih _).front (by simp [Squeeze.copy])
  | unclosed hw => cases hw

/-- A text that ends with a byte has all of another one that ends with it and does not have it
before, or ends before that. -/
theorem before_or_covers {c : UInt8} {r m p q : Bytes} (hm : c ∉ m)
    (h : r ++ c :: s = p ++ m ++ c :: q) :
    (∃ a, p = r ++ c :: a ∧ s = a ++ m ++ c :: q) ∨ ∃ a, r ++ [c] = p ++ m ++ c :: a ∧
      q = a ++ s := by
  induction r generalizing p m with
  | nil => cases p <;> cases m <;> simp_all
  | cons f r ih =>
    cases p with
    | cons x p =>
      obtain ⟨rfl, hr⟩ := cons.inj h
      rcases ih hm hr with ⟨a, rfl, hs⟩ | ⟨a, ha, hq⟩
      · exact .inl ⟨a, rfl, hs⟩
      · exact .inr ⟨a, congrArg (f :: ·) ha, hq⟩
    | nil =>
      cases m with
      | nil => exact .inr ⟨r ++ [c], by simp_all, by simp_all⟩
      | cons x m =>
        obtain ⟨rfl, hr⟩ := cons.inj h
        rcases ih (p := []) (fun hc => hm (mem_cons_of_mem _ hc)) hr with ⟨a, ha, -⟩ | ⟨a, ha, hq⟩
        · simp at ha
        · exact .inr ⟨a, congrArg (f :: ·) ha, hq⟩

/-- A tag stays also inside another tag or a block, which ends not before the tag does. -/
theorem stays_tag {m : Bytes} (hm : '>'.toUInt8 ∉ m) {p q : Bytes}
    (hs : s = p ++ ('<'.toUInt8 :: m ++ ['>'.toUInt8]) ++ q) (st : Squeeze) :
    Stays (squeeze eager st 0 s) (st.kept.reverse ++ p) ('<'.toUInt8 :: m ++ ['>'.toUInt8]) q := by
  induction pieces s generalizing p st with
  | nil => simp at hs
  | byte hb _ ih =>
    cases p with
    | nil => exact absurd (cons.inj hs).1 hb
    | cons c p =>
      obtain ⟨rfl, hr⟩ := cons.inj hs
      rw [squeeze_byte hb]
      exact (ih hr _).front (thins_squeezeByte _).2
  | @markup u s hu _ ih =>
    obtain ⟨front, rfl⟩ := hu.1
    have htag : '>'.toUInt8 ∉ '<'.toUInt8 :: m := not_mem_cons_of_ne_of_not_mem (by decide) hm
    rcases before_or_covers (r := '<' :: front) htag (by simpa using hs) with ⟨a, rfl,
      ha⟩ | ⟨a, ha, rfl⟩
    · rw [squeeze_markup hu]
      refine (ih (p := a) (by simpa using ha) _).front ?_
      simp [Squeeze.copy]
    · refine ⟨st.kept.reverse ++ p, a ++ squeeze eager ⟨[], false, true⟩ 0 s, ?_, rfl, ?_⟩
      · rw [squeeze_behind hu, ← cons_append, ha]
        simp
      · rw [visible_append, (thins_squeeze _ s).2, ← visible_append]
        rfl
  | unclosed _ h =>
    rw [squeeze_unclosed h, hs]
    exact ⟨st.kept.reverse ++ p, q, by simp, rfl, rfl⟩

end Rounds

/-- At the start of a page it makes no difference whether there is a blank, because a line starts
there. -/
theorem squeezeBlanks_eq (level : Int) (s : Bytes) :
    squeezeBlanks level s = squeeze (level > 1) ⟨[], level > 1, level > 1⟩ 0 s := by
  rw [squeezeBlanks]
  cases s with
  | nil => rfl
  | cons b s => cases decide (level > 1) <;> cases hb : isSpace b <;> simp [squeeze,
      squeezeByte, hb]

/-- The text behind a `<` from the name of a block to the end of its closing tag. -/
def Block (t : Bytes) : Prop :=
  ∃ name stop, (name, stop) ∈ verbatim ∧ startsWithNoCase name t = true ∧
    through? stop [] t = some t.length

theorem Block.markup {t : Bytes} (h : Block t) : Markup t := by
  obtain ⟨name, stop, hmem, hn, hs⟩ := h
  have hc : closing t = stop := by
    simp only [verbatim, mem_cons, not_mem_nil, or_false] at hmem
    rcases hmem with ⟨rfl, rfl⟩ | ⟨rfl, rfl⟩
    · simp [closing, verbatim, hn]
    · have ho : startsWithNoCase (ascii "textarea") t = false := by
        rw [← Bool.not_eq_true, startsWithNoCase_iff_lower]
        rw [startsWithNoCase_iff_lower] at hn
        exact fun ha => absurd (prefix_of_prefix_length_le hn ha (by decide)) (by decide)
      simp [closing, verbatim, ho, hn]
  obtain ⟨u, rest, rfl, hl, hu⟩ := markup_of_closed (hc ▸ hs)
  rw [length_append] at hl
  rwa [length_eq_zero_iff.mp (by omega : rest.length = 0), append_nil]

/-- Squeezing makes a page no longer, keeps all that can be seen in its order, keeps every tag and
every block that does not begin inside another one, and changes nothing more the second time. -/
theorem squeezeBlanks_safe (level : Int) (s : Bytes) :
    (squeezeBlanks level s).length ≤ s.length ∧ visible (squeezeBlanks level s) = visible s ∧
    (∀ p t q, s = p ++ ('<'.toUInt8 :: t ++ ['>'.toUInt8]) ++ q → '>'.toUInt8 ∉ t →
      Stays (squeezeBlanks level s) p ('<'.toUInt8 :: t ++ ['>'.toUInt8]) q) ∧
    (∀ p t q, s = p ++ '<'.toUInt8 :: t ++ q → Pieces true p → Block t →
      Stays (squeezeBlanks level s) p ('<'.toUInt8 :: t) q) ∧
    squeezeBlanks level (squeezeBlanks level s) = squeezeBlanks level s := by
  simp only [squeezeBlanks_eq]
  refine ⟨(thins_squeeze _ s).1.length_le, (thins_squeeze _ s).2,
    fun p t q hs ht => stays_tag ht hs _, ?_, squeeze_again ⟨fun s => rfl, _, rfl, fun s => rfl⟩ s⟩
  rintro p t q rfl hp ht
  exact stays_markup ht.markup hp _ q

/-- A block that begins inside a tag is squeezed behind the end of that tag. -/
theorem squeezeBlanks_block_in_tag : Block (ascii "pre>x  y</pre>") ∧
    squeezeBlanks 1 (ascii "<a <pre>x  y</pre>") = ascii "<a <pre>x y</pre>" :=
  ⟨⟨ascii "pre", ascii "</pre>", by decide +kernel⟩, by decide +kernel⟩

end Html

end TemplateKit
