import Mathlib.Data.List.Infix
import TemplateKit.Proofs.Template.Readers

/-!
# The outline of a text

A text that is read falls into commands, each with the text in front of it, and what is behind the
last command. This can be told without carrying the commands out. A text that is followed by another
one keeps its commands, unless the two grow together where they meet. In the end, a text may not
leave blocks open.
-/

namespace TemplateKit

open List Bytes

theorem isA_notFound (f : Failure) : f.isA .notFound = (f.kind == .notFound) := by
  simp [Failure.isA]

namespace Parse

variable {r : ParserSettings}

/-- The commands that a text opens, whatever follows their words. -/
def commandsIn (tag s : Bytes) : List Command :=
  s.tails.flatMap fun u =>
    match opens? tag u with
    | some v => (v.stripLeft.inits.filterMap Command.read?).map (·.1)
    | none => []

/-- A part of a text that starts at its front or behind the closing of a command. -/
def Begins (whole s : Bytes) : Prop :=
  ∃ before after, whole = before ++ s ++ after ∧ (before = [] ∨ closing <:+ before)

/-- A part of a text that is outside of all commands. -/
def LiteralIn (tag whole s : Bytes) : Prop := Begins whole s ∧ nextCommand? tag s = none

theorem prefix_drop_of_find? {p s k} (h : Bytes.find? p s = some k) : p <+: s.drop k := by
  induction s generalizing k with
  | nil =>
    rw [Bytes.find?] at h
    split at h
    · next he => simp [List.isEmpty_iff.mp he]
    · cases h
  | cons b s ih =>
    rw [Bytes.find?] at h
    split at h
    · next hs =>
      cases h
      exact startsWith_iff.mp hs
    · rw [Option.map_eq_some_iff] at h
      obtain ⟨j, hj, rfl⟩ := h
      exact ih hj

/-- A command is opened by two marks, the tag in upper or lower case and a blank. -/
theorem opens?_eq_some_iff {tag u v} : opens? tag u = some v ↔
    ∃ w b, u = 60 :: 63 :: (w ++ b :: v) ∧
    w.length = tag.length ∧ startsWithNoCase tag w = true ∧ (ascii " \n\t\r").elem b = true := by
  constructor
  · intro h
    unfold opens? at h
    split at h
    · next rest =>
      split at h
      · next hs =>
        split at h
        · next b more hd =>
          split at h
          · next hb =>
            cases h
            have hlen := congrArg List.length hd
            rw [length_drop, length_cons] at hlen
            refine ⟨rest.take tag.length, b,
              by rw [← hd, take_append_drop], by rw [length_take]; omega, ?_, hb⟩
            rwa [startsWithNoCase, take_take, Nat.min_self]
          · cases h
        · cases h
      · cases h
    · cases h
  · rintro ⟨w, b, rfl, hl, hs, hb⟩
    have hst : startsWithNoCase tag (w ++ b :: v) = true := by
      rw [startsWithNoCase, ← hl, take_left]
      rwa [startsWithNoCase, take_of_length_le (Nat.le_of_eq hl)] at hs
    have hd : (w ++ b :: v).drop tag.length = b :: v := by rw [← hl, drop_left]
    simp only [opens?, hst, if_true, hd, hb]

theorem suffix_of_opens? {tag u v} (h : opens? tag u = some v) : v <:+ u := by
  obtain ⟨w, b, rfl, -⟩ := opens?_eq_some_iff.mp h
  exact ⟨60 :: 63 :: (w ++ [b]), by simp⟩

theorem opens?_append {tag u v} (h : opens? tag u = some v) (t : Bytes) :
    opens? tag (u ++ t) = some (v ++ t) := by
  obtain ⟨w, b, rfl, hw⟩ := opens?_eq_some_iff.mp h
  exact opens?_eq_some_iff.mpr ⟨w, b, by simp, hw⟩

theorem nextCommand?_eq {tag s front behind} (h : nextCommand? tag s = some (front, behind)) :
    (∃ u, s = front ++ u ∧ opens? tag u = some behind) ∧ nextCommand? tag front = none := by
  induction s generalizing front with
  | nil => cases h
  | cons c s ih =>
    rw [nextCommand?] at h
    split at h
    · next rest ho =>
      cases h
      exact ⟨⟨c :: s, rfl, ho⟩, rfl⟩
    · next hn =>
      rw [Option.map_eq_some_iff] at h
      obtain ⟨⟨before, rest⟩, hne, heq⟩ := h
      cases heq
      obtain ⟨⟨u, rfl, hu⟩, hf⟩ := ih hne
      refine ⟨⟨u, rfl, hu⟩, ?_⟩
      have hc : opens? tag (c :: before) = none := by
        rw [Option.eq_none_iff_forall_ne_some]
        intro v hv
        have := opens?_append hv u
        rw [cons_append, hn] at this
        cases this
      rw [nextCommand?, hc, hf]
      rfl

theorem mem_commandsIn {tag whole u v w arg c} (hu : u <:+: whole) (ho : opens? tag u = some v)
    (hw : w <+: v.stripLeft) (hr : Command.read? w = some (c, arg)) : c ∈ commandsIn tag whole := by
  obtain ⟨before, after, rfl⟩ := hu
  refine mem_flatMap.mpr ⟨u ++ after, (mem_tails _ _).mpr ⟨before, by simp⟩, ?_⟩
  rw [opens?_append ho after]
  refine mem_map.mpr ⟨(c, arg), mem_filterMap.mpr ⟨w, (mem_inits _ _).mpr ?_, hr⟩, rfl⟩
  refine hw.trans ?_
  by_cases hb : v.stripLeft = []
  · simp [hb]
  · have hs : (v ++ after).stripLeft = v.stripLeft ++ after := by
      rw [stripLeft, dropWhile_append, if_neg]
      · rfl
      · rw [List.isEmpty_iff]
        exact hb
    rw [hs]
    exact prefix_append _ _

namespace Begins

variable {whole s : Bytes}

theorem all : Begins whole whole := ⟨[], [], by simp, .inl rfl⟩

theorem isInfix (h : Begins whole s) : s <:+: whole := by
  obtain ⟨before, after, rfl, -⟩ := h
  exact ⟨before, after, rfl⟩

theorem cut {t} (h : Begins whole s) (ht : t <+: s) : Begins whole t := by
  obtain ⟨before, after, rfl, hb⟩ := h
  obtain ⟨rest, rfl⟩ := ht
  exact ⟨before, rest ++ after, by simp, hb⟩

theorem behind {word k} (h : Begins whole s) (hw : word <:+ s)
    (hk : find? closing word = some k) : Begins whole (word.drop (k + closing.length)) := by
  obtain ⟨before, after, rfl, -⟩ := h
  obtain ⟨front, rfl⟩ := hw
  obtain ⟨rest, hr⟩ := prefix_drop_of_find? hk
  have hd : word.drop (k + closing.length) = rest := by rw [← drop_drop, ← hr, drop_left]
  refine ⟨before ++ front ++ word.take k ++ closing, after, ?_, .inr (suffix_append _ _)⟩
  rw [hd]
  simp only [append_assoc]
  rw [← append_assoc closing rest after, hr, ← append_assoc (word.take k), take_append_drop]

end Begins

/-- The state in which the reading of a text begins. -/
def begun (s : ParseState) (t : Bytes) : ParseState :=
  { s with whereabouts := { s.whereabouts with reading := { text := some t } } }

/-- The end of a text that was begun in the state `s`. -/
def conclude (s : ParseState) : Parse Unit := do
  let frames := (← get).builder.frames
  match frames with
  | f :: _ =>
    if frames.length > s.builder.frames.length then faultAt f.location (.unterminated f.block)
    else setReading s.whereabouts.reading
  | [] => setReading s.whereabouts.reading

theorem text_eq (m : Nat) (t : Bytes) (s : ParseState) : Parse.text (m + 1) t r s = ((do
        pieces (Parse.text m) s.whereabouts.reading (t.length + 1) t
        conclude s) : Parse Unit) r (begun s t) := rfl

/-- A text may not leave more blocks open than there were. -/
theorem conclude_run (s t : ParseState) :
    (t.builder.frames.length ≤ s.builder.frames.length ∧ conclude s r t =
      (.ok (), { t with whereabouts := { t.whereabouts with reading := s.whereabouts.reading } })) ∨
    (s.builder.frames.length < t.builder.frames.length ∧
      ∃ f, conclude s r t = (.error (.failure f), t) ∧ f.kind = .parse) := by
  unfold conclude
  rw [Program.get_bind]
  cases t.builder.frames with
  | nil => exact .inl ⟨Nat.zero_le _, rfl⟩
  | cons f frames =>
    by_cases hm : (f :: frames).length > s.builder.frames.length
    · simp only [hm]
      exact .inr ⟨trivial, _, rfl, rfl⟩
    · simp only [hm]
      exact .inl ⟨Nat.not_lt.mp hm, rfl⟩

theorem conclude_of_le {s t} (h : t.builder.frames.length ≤ s.builder.frames.length) :
    conclude s r t = (.ok (),
      { t with whereabouts := { t.whereabouts with reading := s.whereabouts.reading } }) := by
  rcases conclude_run (r := r) s t with ⟨-, hrun⟩ | ⟨hm, -⟩
  · exact hrun
  · exact absurd h (Nat.not_le.mpr hm)

theorem conclude_of_lt {s t} (h : s.builder.frames.length < t.builder.frames.length) :
    ∃ f, conclude s r t = (.error (.failure f), t) ∧ f.kind = .parse := by
  rcases conclude_run (r := r) s t with ⟨hle, -⟩ | ⟨-, hs⟩
  · exact absurd h (Nat.not_lt.mpr hle)
  · exact hs

theorem le_of_conclude {s t t'} (h : conclude s r t = (.ok (), t')) :
    t.builder.frames.length ≤ s.builder.frames.length ∧
      t' = { t with whereabouts := { t.whereabouts with reading := s.whereabouts.reading } } := by
  rcases conclude_run (r := r) s t with ⟨hle, hrun⟩ | ⟨-, f, hrun, -⟩
  · rw [hrun] at h
    cases h
    exact ⟨hle, rfl⟩
  · rw [hrun] at h
    cases h

theorem conclude_frames (s t : ParseState) :
    (conclude s r t).2.builder.frames = t.builder.frames := by
  rcases conclude_run (r := r) s t with ⟨-, hrun⟩ | ⟨-, f, hrun, -⟩ <;> rw [hrun]

end Parse

/-! ## Stretches -/

open Parse (nextCommand? opens? opening closing)

open List Option Bytes Ascii

/-- A text up to the end of its first command. -/
structure Stretch where
  /-- The text in front of the command. -/
  front : Bytes
  /-- The number of bytes from the opening of the command to its closing. -/
  size : Nat
  /-- What is between opening and closing. -/
  word : Bytes
  /-- The text behind the command. -/
  rest : Bytes

namespace Stretch

/-- The first command of a text, if it is closed. -/
def first? (tag s : Bytes) : Option Stretch :=
  (nextCommand? tag s).bind fun (front, behind) =>
    let word := behind.stripLeft
    let blanks := (behind.takeWhile isSpace).length
    (find? closing word).map fun k =>
      ⟨front, opening.length + tag.length + 1 + blanks + k + closing.length, word.take k,
        word.drop (k + closing.length)⟩

end Stretch

namespace Parse

theorem length_opens? {tag u v} (h : opens? tag u = some v) :
    u.length = opening.length + tag.length + 1 + v.length := by
  have ho : opening.length = 2 := rfl
  obtain ⟨w, b, rfl, hl, -, -⟩ := opens?_eq_some_iff.mp h
  simp only [length_cons, length_append]
  omega

/-- Whether a command is opened is told by the bytes up to the blank behind its tag. -/
theorem opens?_of_append {tag u t v} (h : opens? tag (u ++ t) = some v)
    (hl : opening.length + tag.length + 1 ≤ u.length) : opens? tag u ≠ none := by
  have ho : opening.length = 2 := rfl
  obtain ⟨w, b, heq, hw⟩ := opens?_eq_some_iff.mp h
  have hp : 60 :: 63 :: (w ++ [b]) <+: u := by
    refine prefix_of_prefix_length_le ⟨v, by simp [heq]⟩ (prefix_append u t) ?_
    simp only [length_cons, length_append, length_nil]
    omega
  obtain ⟨more, rfl⟩ := hp
  have hv : opens? tag (60 :: 63 :: (w ++ [b]) ++ more) = some more :=
    opens?_eq_some_iff.mpr ⟨w, b, by simp, hw⟩
  simp only [hv, ne_eq, reduceCtorEq, not_false_eq_true]

theorem nextCommand?_append {tag s front behind} (h : nextCommand? tag s = some (front, behind))
    (t : Bytes) :
    nextCommand? tag (s ++ t) = some (front, behind ++ t) := by
  induction s generalizing front with
  | nil => cases h
  | cons c s ih =>
    rw [cons_append, nextCommand?]
    rw [nextCommand?] at h
    cases ho : opens? tag (c :: s) with
    | some rest =>
      rw [ho] at h
      cases h
      rw [← cons_append, opens?_append ho]
    | none =>
      rw [ho] at h
      obtain ⟨⟨before, rest⟩, hn, heq⟩ := map_eq_some_iff.mp h
      cases heq
      -- a command that is opened later leaves no room for one that the added text completes
      have hc : opens? tag (c :: (s ++ t)) = none := by
        obtain ⟨⟨u, rfl, hu⟩, -⟩ := nextCommand?_eq hn
        rw [eq_none_iff_forall_ne_some]
        intro v hv
        refine opens?_of_append (u := c :: (before ++ u)) hv ?_ ho
        have hl := length_opens? hu
        simp only [length_cons, length_append]
        omega
      rw [hc, ih hn]
      rfl

theorem nextCommand?_ne_none {tag u} (h : opens? tag u ≠ none) (s : Bytes) :
    nextCommand? tag (s ++ u) ≠ none := by
  induction s with
  | nil =>
    cases u with
    | nil => exact absurd rfl h
    | cons b u =>
      rw [nil_append, nextCommand?]
      cases ho : opens? tag (b :: u) with
      | none => exact absurd ho h
      | some rest => simp
  | cons b s ih =>
    rw [cons_append, nextCommand?]
    cases opens? tag (b :: (s ++ u)) with
    | none => simpa using ih
    | some rest => simp

end Parse

namespace Bytes

theorem find?_append {p s k} (h : find? p s = some k) (t : Bytes) : find? p (s ++ t) = some k := by
  induction s generalizing k with
  | nil =>
    have hp : p = [] := by
      rw [find?] at h
      split at h
      · next he => exact List.isEmpty_iff.mp he
      · cases h
    rw [hp] at h ⊢
    cases h
    cases t <;> rfl
  | cons b s ih =>
    rw [find?] at h
    rw [cons_append, find?]
    split at h
    · next hs =>
      cases h
      rw [startsWith_iff] at hs
      have hl : startsWith p (b :: (s ++ t)) = true :=
        startsWith_iff.mpr (hs.trans (prefix_append (b :: s) t))
      rw [if_pos hl]
    · next hs =>
      obtain ⟨j, hj, rfl⟩ := map_eq_some_iff.mp h
      have hle : p.length ≤ (b :: s).length := by
        have := (Parse.prefix_drop_of_find? hj).length_le
        rw [length_drop] at this
        rw [length_cons]
        omega
      rw [if_neg, ih hj]
      · rfl
      · intro hl
        rw [startsWith_iff] at hs hl
        exact hs (prefix_of_prefix_length_le hl (prefix_append (b :: s) t) hle)

theorem stripLeft_append_of_ne {s} (h : s.stripLeft ≠ []) (t : Bytes) :
    stripLeft (s ++ t) = s.stripLeft ++ t ∧ (s ++ t).takeWhile isSpace = s.takeWhile isSpace := by
  induction s with
  | nil => exact absurd rfl h
  | cons b s ih =>
    by_cases hb : isSpace b = true
    · simp only [stripLeft, dropWhile_cons, hb] at h
      obtain ⟨hd, ht⟩ := ih h
      refine ⟨?_, ?_⟩
      · simpa [stripLeft, hb] using hd
      · simp [hb, ht]
    · refine ⟨?_, ?_⟩
      · simp [stripLeft, hb]
      · simp [hb]

end Bytes

namespace Stretch

variable {tag s : Bytes} {c : Stretch}

theorem first?_eq (h : first? tag s = some c) :
    s.length = c.front.length + c.size + c.rest.length ∧ c.word.length + 2 ≤ c.size := by
  have hc : closing.length = 2 := rfl
  obtain ⟨⟨front, behind⟩, hn, hf⟩ := bind_eq_some_iff.mp h
  obtain ⟨k, hk, rfl⟩ := map_eq_some_iff.mp hf
  obtain ⟨⟨u, rfl, hu⟩, -⟩ := Parse.nextCommand?_eq hn
  have hl := Parse.length_opens? hu
  have hr := (Parse.prefix_drop_of_find? hk).length_le
  have hb : (behind.takeWhile isSpace).length + behind.stripLeft.length = behind.length := by
    rw [stripLeft, ← length_append, takeWhile_append_dropWhile]
  rw [length_drop] at hr
  simp only [length_append, length_drop, length_take]
  omega

theorem first?_append (h : first? tag s = some c) (t : Bytes) :
    first? tag (s ++ t) = some { c with rest := c.rest ++ t } := by
  obtain ⟨⟨front, behind⟩, hn, hf⟩ := bind_eq_some_iff.mp h
  obtain ⟨k, hk, rfl⟩ := map_eq_some_iff.mp hf
  have hr := (Parse.prefix_drop_of_find? hk).length_le
  have hc : closing.length = 2 := rfl
  rw [length_drop] at hr
  have hw : behind.stripLeft ≠ [] := by
    intro he
    rw [he, length_nil] at hr
    omega
  obtain ⟨hs, hb⟩ := stripLeft_append_of_ne hw t
  rw [first?, Parse.nextCommand?_append hn]
  simp only [bind_some, hs, hb, find?_append hk, map_some]
  rw [take_append_of_le_length (by omega), drop_append_of_le_length (by omega)]

end Stretch

/-- What stands in front of a text does not grow together with it: the commands are those of the
text. -/
def Clear (tag q s : Bytes) : Prop :=
  nextCommand? tag (q ++ s) = (nextCommand? tag s).map fun (front, behind) => (q ++ front, behind)

instance {tag q s : Bytes} : Decidable (Clear tag q s) := inferInstanceAs (Decidable (_ = _))

namespace Clear

variable {tag q s t : Bytes}

theorem nil (tag s : Bytes) : Clear tag [] s := by
  rw [Clear, nil_append]
  cases nextCommand? tag s with
  | none => rfl
  | some found => rfl

theorem append (h : Clear tag q (s ++ t)) (hs : Clear tag s t) : Clear tag (q ++ s) t := by
  rw [Clear] at h hs ⊢
  rw [append_assoc, h, hs]
  cases nextCommand? tag t with
  | none => rfl
  | some found => simp

theorem first? (h : Clear tag q s) :
    Stretch.first? tag (q ++ s) = (Stretch.first? tag s).map fun c =>
      { c with front := q ++ c.front } := by
  rw [Stretch.first?, Stretch.first?, h]
  cases nextCommand? tag s with
  | none => rfl
  | some found =>
    simp only [Option.bind_some, Option.map_map]
    rfl

theorem first?_command {command word} (h : Clear tag q (command ++ t))
    (hc : Stretch.first? tag command = some ⟨[], command.length, word, []⟩) :
    Stretch.first? tag (q ++ (command ++ t)) = some ⟨q, command.length, word, t⟩ := by
  rw [h.first?, Stretch.first?_append hc]
  simp

theorem front (h : Clear tag q (s ++ t)) : Clear tag q s := by
  rw [Clear] at h ⊢
  cases hs : nextCommand? tag s with
  | some found =>
    obtain ⟨front, behind⟩ := found
    obtain ⟨⟨u, rfl, hu⟩, -⟩ := Parse.nextCommand?_eq hs
    have hso : nextCommand? tag (q ++ (front ++ u)) ≠ none := by
      rw [← append_assoc]
      exact Parse.nextCommand?_ne_none (by rw [hu]; exact some_ne_none _) _
    obtain ⟨⟨front', behind'⟩, hf⟩ := ne_none_iff_exists'.mp hso
    have hl := Parse.nextCommand?_append hf t
    rw [append_assoc, h, Parse.nextCommand?_append hs] at hl
    simp only [map_some, some.injEq, Prod.mk.injEq] at hl
    rw [hf, map_some, ← hl.1, append_cancel_right hl.2]
  | none =>
    by_contra hso
    obtain ⟨⟨front', behind'⟩, hf⟩ := ne_none_iff_exists'.mp hso
    have hl := Parse.nextCommand?_append hf t
    rw [append_assoc, h] at hl
    obtain ⟨⟨front, behind⟩, hn, heq⟩ := map_eq_some_iff.mp hl
    simp only [Prod.mk.injEq] at heq
    obtain ⟨⟨u, hu, ho⟩, -⟩ := Parse.nextCommand?_eq hf
    rw [← heq.1, append_assoc, append_cancel_left_eq] at hu
    refine Parse.nextCommand?_ne_none (u := u) ?_ front (hu ▸ hs)
    rw [ho]
    exact some_ne_none _

theorem last (h : Clear tag q []) : nextCommand? tag q = none := by
  rw [Clear, append_nil] at h
  exact h

end Clear

namespace Stretch

/-- Does the command take what follows it for its argument? It reads up to the end of the text then.
-/
def readsOn (c : Stretch) : Bool :=
  match Command.read? c.word with
  | some (command, []) => !command.standsAlone
  | _ => false

end Stretch

/-- The commands of a text, and what is behind the last one. At most `n` commands are looked for. -/
def outlineWithin (tag : Bytes) : (n : Nat) → Bytes → List Stretch × Bytes
  | 0, s => ([], s)
  | n + 1, s =>
    match Stretch.first? tag s with
    | none => ([], s)
    | some c =>
      let (cs, last) := outlineWithin tag n c.rest
      (c :: cs, last)

def outline (tag s : Bytes) : List Stretch × Bytes := outlineWithin tag (s.length + 1) s

theorem outline_of_nil {tag x} (h : (outline tag x).1 = []) : (outline tag x).2 = x := by
  rw [outline, outlineWithin] at h ⊢
  cases hf : Stretch.first? tag x with
  | none => rfl
  | some c =>
    rw [hf] at h
    cases h

/-- Neither an opening nor a command of the first text goes on in the second one. -/
def Apart (tag s t : Bytes) : Prop := (∀ c ∈ (outline tag s).1, c.readsOn = false) ∧
    Clear tag (outline tag s).2 t

instance {tag s t : Bytes} : Decidable (Apart tag s t) := inferInstanceAs (Decidable (_ ∧ _))

end TemplateKit
