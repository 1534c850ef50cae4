import TemplateKit.Proofs.Template.Composition
import TemplateKit.Proofs.Template.Inclusion
import TemplateKit.Proofs.Template.Session

/-!
# Reading compositions

The text of a composition is read without a fault, and the items that it leaves are those of the
composition. What is read first is the text up to the next command; the reader then goes on with
that command. So a composition is followed up to the command behind it, and each command is told by
what it does to the open blocks.
-/

namespace TemplateKit

open Parse (nextCommand? opens? opening closing)

open Option Bytes Command Builder Ascii

open List hiding range

namespace Bytes

variable {a b : UInt8} {s t : Bytes}

theorem startsWith_pair (a b x : UInt8) (s : Bytes) :
    startsWith [a, b] (x :: s) = true ↔ a = x ∧ s.head? = some b := by
  rw [startsWith_iff]
  cases s with
  | nil => simp
  | cons y s => simp [eq_comm]

theorem contains_pair_cons (a b x : UInt8) (s : Bytes) :
    contains [a, b] (x :: s) = false ↔ ¬ (a = x ∧ s.head? = some b) ∧
    contains [a, b] s = false := by
  rw [← startsWith_pair, contains, find?, contains]
  cases startsWith [a, b] (x :: s) with
  | true => simp
  | false => simp

theorem contains_pair_append (hs : contains [a, b] s = false) (ht : contains [a, b] t = false)
    (hm : t.head? ≠ some b) :
    contains [a, b] (s ++ t) = false := by
  induction s with
  | nil => exact ht
  | cons x s ih =>
    rw [contains_pair_cons] at hs
    rw [cons_append, contains_pair_cons]
    refine ⟨?_, ih hs.2⟩
    cases s with
    | nil => exact fun h => hm h.2
    | cons y s => exact hs.1

/-- A text without a pair of bytes is what stands before the pair. -/
theorem find?_pair (hab : a ≠ b) (hs : contains [a, b] s = false) (t : Bytes) :
    find? [a, b] (s ++ a :: b :: t) = some s.length := by
  induction s with
  | nil => simp [find?, startsWith, dropPrefix?]
  | cons x s ih =>
    rw [contains_pair_cons] at hs
    have hst : ¬ startsWith [a, b] (x :: (s ++ a :: b :: t)) = true := by
      rw [startsWith_pair]
      cases s with
      | nil => exact fun h => hab (Option.some.inj h.2)
      | cons y s => exact hs.1
    rw [cons_append, find?, if_neg hst, ih hs.2]
    rfl

end Bytes

namespace Enclosed

variable {s t : Bytes} {b : UInt8}

theorem cons (hs : Enclosed s) (hb : b ≠ 60 ∧ b ≠ 63) : Enclosed (b :: s) :=
  ⟨(contains_pair_cons 60 63 b s).mpr ⟨fun h => hb.1 h.1.symm, hs.1⟩,
    (contains_pair_cons 63 62 b s).mpr ⟨fun h => hb.2 h.1.symm, hs.2⟩⟩

theorem append (hs : Enclosed s) (ht : Enclosed (b :: t)) (hb : b ≠ 63 ∧ b ≠ 62) :
    Enclosed (s ++ b :: t) :=
  ⟨contains_pair_append (a := 60) (b := 63) hs.1 ht.1 fun h => hb.1 (Option.some.inj h),
    contains_pair_append (a := 63) (b := 62) hs.2 ht.2 fun h => hb.2 (Option.some.inj h)⟩

end Enclosed

/-- What stands between the opening and the closing of a command. -/
structure Inner (w : Bytes) : Prop where
  enclosed : Enclosed w
  unspaced : ∃ b rest, w = b :: rest ∧ isSpace b = false

namespace Command

theorem inner_append (c : Command) {b t} (ht : Enclosed (b :: t)) (hb : b ≠ 63 ∧ b ≠ 62) :
    Inner (c.word ++ b :: t) := by
  have hw : Enclosed c.word ∧ ∃ b rest, c.word = b :: rest ∧ isSpace b = false := by
    cases c <;> exact ⟨by decide, _, _, rfl, rfl⟩
  obtain ⟨he, first, rest, heq, hf⟩ := hw
  refine ⟨he.append ht hb, first, rest ++ b :: t, ?_, hf⟩
  rw [heq, cons_append]

theorem inner_asking (c : Command) {arg} (harg : Enclosed arg) : Inner (c.asking arg) :=
  c.inner_append (harg.cons (by decide)) (by decide)

theorem inner_alone (c : Command) : Inner c.alone := c.inner_append (by decide) (by decide)

theorem read?_asking {c} (h : c.takesArgument = true) (arg : Bytes) :
    read? (c.asking arg) = some (c, ':'.toUInt8 :: arg) := by
  cases c with
  | otherwise | endBranch | endEach | endWith | endDefine => cases h
  | _ => rfl

theorem read?_alone (c : Command) : read? c.alone = some (c, [32]) := by
  cases c <;> rfl

end Command

namespace Literal

variable {tag : Bytes} (l : Literal tag)

theorem nextCommand?_eq_none : nextCommand? tag l.text = none := by
  by_contra hs
  obtain ⟨⟨front, behind⟩, hf⟩ := ne_none_iff_exists'.mp hs
  have hl := Parse.nextCommand?_append hf (opener tag)
  rw [l.free] at hl
  simp [opener] at hl

theorem first?_enclose {w} (hw : Inner w) (t : Bytes) :
    ∃ size, Stretch.first? tag (l.text ++ (enclose tag w ++ t)) = some ⟨l.text, size, w, t⟩ := by
  have hn : nextCommand? tag (l.text ++ (enclose tag w ++ t)) =
      some (l.text, w ++ (closing ++ t)) := by
    have hf := Parse.nextCommand?_append l.free (w ++ (closing ++ t))
    simpa [enclose] using hf
  have hfi : find? closing (w ++ (closing ++ t)) = some w.length :=
    find?_pair (a := 63) (b := 62) (by decide) hw.enclosed.2 t
  have hs : (w ++ (closing ++ t)).stripLeft = w ++ (closing ++ t) := by
    obtain ⟨b, rest, rfl, hb⟩ := hw.unspaced
    simp [stripLeft, hb]
  refine ⟨opening.length + tag.length + 1 +
    ((w ++ (closing ++ t)).takeWhile isSpace).length + w.length +
    closing.length, ?_⟩
  rw [Stretch.first?, hn, bind_some]
  dsimp only
  rw [hs, hfi, map_some, take_left, ← drop_drop, drop_left, drop_left]

end Literal

namespace Builder

variable {b b' b₁ b₂ : Builder} {f : Frame} {rest : List Frame} {is js : List Item} {mark : Mark}
  {action : Action}

/-- The next block has the mode of the block around it, even if the mode was changed before. -/
def Even (b : Builder) : Prop := b.escapeChanged = true → b.nextEscape = b.escape

/-- The items `is` were added to the innermost block. -/
structure Extends (b : Builder) (is : List Item) (b' : Builder) : Prop where
  frames : b'.frames = b.frames
  outermostEscape : b'.outermostEscape = b.outermostEscape
  /-- A change of the mode is as it was, or it was taken up. -/
  pending : b'.escapeChanged = true → b.escapeChanged = true ∧ b'.nextEscape = b.nextEscape
  items : ∃ added, b'.items = added.reverse ++ b.items ∧ Item.unplacedOf added = is

namespace Extends

theorem escape_eq (h : b.Extends is b') : b'.escape = b.escape := by
  unfold escape
  rw [h.frames, h.outermostEscape]

theorem even (h : b.Extends is b') (hb : b.Even) : b'.Even := by
  intro hchanged
  obtain ⟨hbe, hn⟩ := h.pending hchanged
  rw [hn, hb hbe, h.escape_eq]

theorem trans (h : b.Extends is b₁) (h' : b₁.Extends js b₂) : b.Extends (is ++ js) b₂ := by
  obtain ⟨added, hi, ha⟩ := h.items
  obtain ⟨added', hi', ha'⟩ := h'.items
  refine ⟨h'.frames.trans h.frames, h'.outermostEscape.trans h.outermostEscape, fun hchanged => ?_,
    added ++ added', ?_, ?_⟩
  · obtain ⟨hb, hn⟩ := h'.pending hchanged
    obtain ⟨hf, hn'⟩ := h.pending hb
    exact ⟨hf, hn.trans hn'⟩
  · rw [hi', hi, reverse_append, append_assoc]
  · rw [Item.unplacedOf_append, ha, ha']

end Extends

theorem extends_add (b : Builder) (mark : Mark) (action : Action) :
    b.Extends [⟨mark.unplaced, action, [], []⟩] (b.add mark action) :=
  ⟨rfl, rfl, fun hchanged => ⟨hchanged, rfl⟩, [⟨mark, action, [], []⟩], rfl, rfl⟩

/-- A builder that has just opened a block. -/
structure Opens (b : Builder) (f : Frame) (b' : Builder) : Prop where
  items : b'.items = []
  frames : b'.frames = f :: b.frames
  outermostEscape : b'.outermostEscape = b.outermostEscape
  unchanged : b'.escapeChanged = false

theorem Opens.escape_eq (h : b.Opens f b') : b'.escape = f.escape := by
  unfold escape
  rw [h.frames]
  rfl

theorem even_of_unchanged (h : b.escapeChanged = false) : b.Even := by
  intro hchanged
  rw [h] at hchanged
  cases hchanged

/-- The item of a block, inside of the branches before it. -/
def nested (earlier : List Branch) (inner : Item) : Item :=
  earlier.foldl (fun inner branch => ⟨branch.mark, branch.action, branch.body, [inner]⟩) inner

/-- The block `f` was closed, with `is` for what stands otherwise. -/
structure Closes (b : Builder) (f : Frame) (is : List Item) (b' : Builder) : Prop where
  frames : f :: b'.frames = b.frames
  outermostEscape : b'.outermostEscape = b.outermostEscape
  unchanged : b'.escapeChanged = false
  items : ∃ otherwise, Item.unplacedOf otherwise = is ∧
    b'.items = nested f.earlier ⟨f.latest.mark, f.latest.action, b.items.reverse,
      otherwise⟩ :: f.outer

/-- A block that was opened, filled and closed is one item. -/
theorem Opens.extends {block mode location}
    (ho : b.Opens ⟨block, mode, location, ⟨mark, action, []⟩, [], b.items⟩ b₁)
    (hb : b₁.Extends is b₂)
    (hc : b₂.Closes ⟨block, mode, location, ⟨mark, action, []⟩, [], b.items⟩ js b') :
    b.Extends [⟨mark.unplaced, action, is, js⟩] b' := by
  obtain ⟨added, ha, hu⟩ := hb.items
  obtain ⟨otherwise, hot, hi⟩ := hc.items
  have hframes := hc.frames
  rw [hb.frames, ho.frames] at hframes
  rw [ha, ho.items, append_nil, reverse_reverse] at hi
  refine ⟨(List.cons.inj hframes).2, ?_, fun hchanged => ?_,
    [⟨mark, action, added, otherwise⟩], hi, ?_⟩
  · rw [hc.outermostEscape, hb.outermostEscape, ho.outermostEscape]
  · rw [hc.unchanged] at hchanged
    cases hchanged
  · rw [Item.unplacedOf, Item.unplacedOf, Item.unplaced, hu, hot]

theorem Opens.unchanged_after (ho : b.Opens f b₁) (hbo : b₁.Extends is b₂) :
    b₂.escapeChanged = false := by
  rw [← Bool.not_eq_true]
  intro hchanged
  have hb := (hbo.pending hchanged).1
  rw [ho.unchanged] at hb
  cases hb

theorem opens_openBlock (hb : b.Even) (block : Block) (location : Nat) (mark : Mark)
    (action : Action) :
    b.Opens ⟨block, b.escape, location, ⟨mark, action, []⟩, [],
      b.items⟩ (b.openBlock block location mark action) := by
  refine ⟨rfl, ?_, rfl, rfl⟩
  unfold openBlock push
  split
  · next hchanged => rw [hb hchanged]
  · rfl

section Innermost

variable (hframes : b.frames = f :: rest) (hchanged : b.escapeChanged = false)

include hframes hchanged

theorem closes_close (hb : f.block ≠ .otherwise) : b.Closes f [] b.close := by
  unfold close
  rw [hframes]
  refine ⟨hframes.symm, rfl, hchanged, [], rfl, ?_⟩
  dsimp only
  rw [finished, if_neg hb]
  rfl

/-- What stands otherwise is a block of its own, in the mode that is around the branches. -/
theorem opens_turn (location : Nat) :
    Opens { b with frames := rest } ⟨.otherwise, escape { b with frames := rest }, location,
      { f.latest with body := b.items.reverse }, f.earlier, f.outer⟩ (b.turn location) := by
  unfold turn
  rw [hframes]
  refine ⟨rfl, ?_, rfl, rfl⟩
  dsimp only [push]
  rw [if_neg (by simp [hchanged])]

theorem closes_turn {location} (hb : (b.turn location).Extends is b₂) : b.Closes f is b₂.close := by
  have ho := opens_turn hframes hchanged location
  obtain ⟨added, ha, hun⟩ := hb.items
  have hf₂ := hb.frames.trans ho.frames
  have hou := hb.outermostEscape.trans ho.outermostEscape
  have hu := ho.unchanged_after hb
  rw [ho.items, append_nil] at ha
  unfold close
  rw [hf₂]
  refine ⟨hframes.symm, hou, hu, added, hun, ?_⟩
  dsimp only
  rw [finished, ha, reverse_reverse]
  rfl

def nextFrame (b : Builder) (f : Frame) (mark : Mark) (action : Action) : Frame :=
  { f with latest := ⟨mark, action, []⟩, earlier := { f.latest with body := b.items.reverse } ::
    f.earlier }

theorem opens_divide (mark : Mark) (action : Action) :
    Opens { b with frames := rest } (b.nextFrame f mark action) (b.divide mark action) := by
  unfold divide
  rw [hframes]
  exact ⟨rfl, rfl, rfl, hchanged⟩

theorem closes_divide
    (hb : (b.divide mark action).Extends is b₂) (hc : b₂.Closes (b.nextFrame f mark action) js b') :
    b.Closes f [⟨mark.unplaced, action, is, js⟩] b' := by
  have ho := opens_divide hframes hchanged mark action
  obtain ⟨added, ha, hu⟩ := hb.items
  obtain ⟨otherwise, hot, hi⟩ := hc.items
  have hf' := hc.frames.trans (hb.frames.trans ho.frames)
  rw [ho.items, append_nil] at ha
  rw [ha, reverse_reverse] at hi
  refine ⟨?_, ?_, hc.unchanged, [⟨mark, action, added, otherwise⟩], ?_, hi⟩
  · rw [(List.cons.inj hf').2, hframes]
  · rw [hc.outermostEscape, hb.outermostEscape, ho.outermostEscape]
  · rw [Item.unplacedOf, Item.unplacedOf, Item.unplaced, hu, hot]

end Innermost

end Builder

theorem Phrase.source_ne_nil {fs} (e : Phrase fs) : e.source ≠ [] := by
  intro hnil
  have hr := e.read
  rw [hnil] at hr
  cases hr

theorem Phrase.join_source {fs} (e e' : Phrase fs) (es : List (Phrase fs)) :
    join "," ((e :: e' :: es).map (·.source)) =
      e.source ++ ','.toUInt8 :: Bytes.join "," ((e' :: es).map (·.source)) := by
  simp [Bytes.join, ascii]

namespace Bounds

variable {fs : List Function}

theorem source_ne_nil (bounds : Bounds fs) : bounds.source ≠ [] := by
  unfold source
  cases he : bounds.exprs with
  | nil => exact absurd he bounds.nonempty
  | cons e es =>
    cases es with
    | nil => exact e.source_ne_nil
    | cons e' es => simp [Bytes.join, ascii]

theorem enclosed (bounds : Bounds fs) : Enclosed bounds.source := by
  unfold source
  induction bounds.exprs with
  | nil => exact ⟨rfl, rfl⟩
  | cons e es ih =>
    cases es with
    | nil => exact e.enclosed
    | cons e' es =>
      rw [Phrase.join_source]
      exact e.enclosed.append (ih.cons (by decide)) (by decide)

theorem length_le (bounds : Bounds fs) : bounds.exprs.length ≤ bounds.source.length + 1 := by
  unfold source
  induction bounds.exprs with
  | nil => exact Nat.zero_le _
  | cons e es ih =>
    cases es with
    | nil => exact Nat.succ_le_succ (Nat.zero_le _)
    | cons e' es =>
      rw [Phrase.join_source, length_append, length_cons, length_cons (a := ','.toUInt8)]
      omega

end Bounds

/-- What a reader notes. -/
def Notes.of (r : ParserSettings) (logName : Option Bytes) : Notes :=
  ⟨r.auto.enabled, r.keepsSources, logName⟩

namespace Parse

open Directive

variable {α β : Type} {r : ParserSettings} {m : Parse α} {f : α → Parse β} {a : α} {b : β}

/-- The program gives `a` and changes no more than how far the text is read. -/
def Tells (r : ParserSettings) (m : Parse α) (a : α) : Prop :=
  ∀ s, ∃ reading, m r s = (.ok a, { s with whereabouts := { s.whereabouts with reading } })

namespace Tells

theorem returns (a : α) : Tells r (pure a) a := fun s => ⟨s.whereabouts.reading, rfl⟩

theorem andThen (hm : Tells r m a) (hf : Tells r (f a) b) : Tells r (m >>= f) b := by
  intro s
  obtain ⟨reading, hrun⟩ := hm s
  obtain ⟨reading', hr'⟩ := hf { s with whereabouts := { s.whereabouts with reading } }
  exact ⟨reading', (Program.bind_ok hrun f).trans hr'⟩

end Tells

theorem tells_use (base : Nat) (part : Bytes) (places : List Nat) :
    Tells r (use base part places) () := fun _ => ⟨_, rfl⟩

theorem tells_expression (e : Phrase r.functions) (base : Nat) :
    Tells r (expression false base e.source) (e.expr, e.ends) := fun _ => ⟨_, expression_run e.read⟩

theorem tells_argument (e : Phrase r.functions) (base : Nat) (logName : Option Bytes) :
    Tells r (argument false base e.source) (e.argument (.of r logName)) :=
      fun s => ⟨_, argument_run s e.read⟩

theorem tells_variableAndRest (x : Bound) {behind : Bytes} (hs : behind.strip = behind)
    (hne : behind ≠ [])
    (directive first : Bytes) {t : Tail} (ht : t.text = x.name ++ (ascii " = " ++ behind)) :
    ∃ base shown, Tells r (variableAndRest directive first t) (x.name, base, behind, shown) := by
  obtain ⟨hl, hr⟩ := strip_eq_self hs
  have hk : t.text.stripRight = t.text := by
    rw [ht, ← append_assoc]
    exact stripRight_append_of_ne hr hne _
  have hw : t.text.stripLeft = t.text := by
    rw [ht]
    cases hn : x.name with
    | nil => exact absurd hn x.nonempty
    | cons b name => exact stripLeft_cons (x.plain b (hn ▸ mem_cons_self)).1 _
  have hx : t.text.takeWhile (fun b => !isSpace b && b != '=') = x.name := by
    have hst : (ascii " = " ++ behind).takeWhile (fun b => !isSpace b && b != '=') = [] := rfl
    rw [ht, takeWhile_append_of_pos, hst, append_nil]
    intro b hb
    simp [x.plain b hb]
  have hd : t.text.drop x.name.length = 32 :: (ascii "= " ++ behind) := by
    rw [ht, drop_left]
    rfl
  have hcut : (cutAt (· == '=') (ascii "= " ++ behind)).2 = some (32 :: behind) := rfl
  have hbe : stripLeft (32 :: behind) = behind := hl
  refine ⟨t.base + t.text.length - behind.length,
    t.text.take (t.text.length - t.text.length + x.name.length), .andThen (tells_use _ _ _) ?_⟩
  dsimp only
  rw [hk, hw, hx, hd]
  refine .andThen (tells_use _ _ _) ?_
  rw [if_neg (by decide), hcut]
  dsimp only
  rw [if_neg (by simpa using x.nonempty), hbe]
  exact .returns _

theorem tells_range {es : List (Phrase r.functions)} (hne : es ≠ [])
    (ha : ∀ e ∈ es, ','.toUInt8 ∉ e.source) {fuel : Nat} (hf : es.length ≤ fuel) (base : Nat) :
    Tells r (range fuel base (join "," (es.map (·.source)))) (es.map (·.expr)) := by
  induction es generalizing fuel base with
  | nil => exact absurd rfl hne
  | cons e es ih =>
    obtain ⟨fuel, rfl⟩ : ∃ k, fuel = k + 1 := ⟨fuel - 1, by rw [length_cons] at hf; omega⟩
    obtain ⟨he, hes⟩ := forall_mem_cons.mp ha
    cases es with
    | nil =>
      have hj : join "," ([e].map (·.source)) = e.source := rfl
      rw [hj, range, cutAt_of_not_mem he]
      · exact .andThen (tells_expression e base) (.returns _)
      · exact e.source_ne_nil
    | cons e' es =>
      rw [Phrase.join_source, range, cutAt_byte he]
      · refine .andThen (tells_use _ _ _) (.andThen (tells_expression e base) ?_)
        exact .andThen (ih (by simp) hes (Nat.le_of_succ_le_succ hf) _) (.returns _)
      · simp

theorem tells_textArgument {e : Phrase r.functions} {word : Bytes} (he : e.expr = .text word)
    (fault : Bytes → SyntaxFault) {t : Tail} (ht : t.text = e.source) (logName : Option Bytes) :
    Tells r (textArgument fault t) (word, (e.argument (.of r logName)).source, e.ends.headD 0) := by
  unfold textArgument
  rw [ht]
  refine .andThen (tells_expression e t.base) ?_
  rw [he]
  exact fun s => ⟨s.whereabouts.reading, rfl⟩

/-- The program changes the builder, for which it is told where the reader is, and how far the text
is read. -/
def Builds (r : ParserSettings) (g : Nat → Builder → Builder) (m : Parse Unit) : Prop :=
  ∀ s, ∃ location reading, m r s = (.ok (), { s with
    whereabouts := { s.whereabouts with reading }, builder := g location s.builder })

variable {g : Nat → Builder → Builder}

theorem Tells.builds {f} (hm : Tells r m a) (hf : Builds r g (f a)) : Builds r g (m >>= f) := by
  intro s
  obtain ⟨reading, hrun⟩ := hm s
  obtain ⟨location, reading', hr'⟩ := hf { s with whereabouts := { s.whereabouts with reading } }
  exact ⟨location, reading', (Program.bind_ok hrun f).trans hr'⟩

theorem builds_openBlock (block : Block) (mark : Mark) (action : Action) :
    Builds r (fun location b => b.openBlock block location mark action)
      (openBlock block mark action) :=
  fun s => ⟨s.whereabouts.reading.offset, s.whereabouts.reading, rfl⟩

/-- The program makes a new mark of which `unplaced` is known, and changes the builder with it. -/
def Marks (r : ParserSettings) (s : ParseState) (unplaced : Mark)
    (g : Mark → Nat → Builder → Builder) (m : Parse Unit) :
    Prop :=
  ∃ mark location s', m r s = (.ok (), s') ∧ mark.unplaced = unplaced ∧
    s'.builder = g mark location s.builder ∧
    s'.logName = s.logName

theorem marks_newMark {f g} (h : ∀ mark, Builds r (g mark) (f mark))
    (required autoEscape : Bool) (escape : EscapeMode) (s : ParseState) :
    Marks r s { required, escape, autoEscape, logName := s.logName } g
      (newMark required escape autoEscape >>= f) := by
  obtain ⟨mark, position, hm, hu⟩ := newMark_run (r := r) required autoEscape escape s
  obtain ⟨location, reading, hrun⟩ := h mark { s with position }
  exact ⟨mark, location, _, (Program.bind_ok hm f).trans hrun, hu, rfl, rfl⟩

end Parse

namespace Head

variable {fs : List Function}

def block : Head fs → Block
  | each _ _ _ => .each
  | withAs _ _ _ => .withAs
  | loop _ _ => .loop
  | alt _ => .alt
  | escape _ _ _ _ _ => .escape

/-- What is done before the block is opened. -/
def prepare (b : Builder) : Head fs → Builder
  | escape _ _ mode _ _ => b.changeEscape mode
  | _ => b

theorem enclosed (head : Head fs) : Enclosed head.argument := by
  have he : ∀ {x : Bound} {s : Bytes}, Enclosed s → Enclosed (x.name ++ (" = " ++ s)) := by
    intro x s hs
    exact x.enclosed.append (((hs.cons (by decide)).cons (by decide)).cons (by decide)) (by decide)
  cases head with
  | each x e | withAs x e => exact he e.enclosed
  | loop x bounds => exact he bounds.enclosed
  | alt e | escape e => exact e.enclosed

end Head

namespace Parse

open Directive

variable {text : Bytes → Parse Unit} {r : ParserSettings} {s : ParseState} {t : Tail}

theorem marks_eachOrWith (c : Command) (block : Block)
    (action : Bytes → Argument → Action) {x : Bound}
    {e : Phrase r.functions} (trimmed : e.Trimmed) (hr : t.required = false)
    (ht : t.text = x.name ++ (" = " ++ e.source)) (s : ParseState) :
    Marks r s (Notes.of r s.logName).mark (fun mark location b => b.openBlock block location mark
      (action x.name (e.argument (.of r s.logName)))) (eachOrWith c block action t) := by
  obtain ⟨base, shown, hre⟩ := tells_variableAndRest (r := r) x trimmed e.source_ne_nil c.word
    (c.word ++ "s") ht
  unfold eachOrWith
  rw [hr]
  refine marks_newMark (fun mark => ?_) false false .undefined s
  refine hre.builds ?_
  dsimp only
  rw [if_neg (by simpa using e.source_ne_nil)]
  exact (tells_argument e base s.logName).builds (builds_openBlock block mark _)

variable (text) in
theorem marks_head (head : Head r.functions) (hr : t.required = false)
    (hte : t.text = head.argument)
    (s : ParseState) : Marks r s (head.mark (.of r s.logName) s.builder.escape)
      (fun mark location b => (head.prepare b).openBlock head.block location
        mark (head.action (.of r s.logName)))
      (command text head.command t) := by
  cases head with
  | each x e trimmed => exact marks_eachOrWith .each .each .each trimmed hr hte s
  | withAs x e trimmed => exact marks_eachOrWith .withAs .withAs .withAs trimmed hr hte s
  | loop x bounds =>
    have ht : bounds.source.strip = bounds.source := bounds.trimmed
    obtain ⟨base, shown, hre⟩ := tells_variableAndRest (r := r) x ht bounds.source_ne_nil loop.word
      loop.word hte
    have hfew : ¬ (bounds.exprs.map (·.expr)).length > 3 := by
      rw [length_map]
      exact Nat.not_lt.mpr bounds.atMostThree
    have hrun : Head.command (.loop x bounds : Head r.functions) = .loop := rfl
    rw [hrun, command, Directive.loop, hr]
    refine marks_newMark (fun mark => ?_) false false .undefined s
    refine hre.builds ?_
    dsimp only
    rw [if_neg (by simpa using bounds.source_ne_nil)]
    refine (tells_range bounds.nonempty bounds.apart bounds.length_le base).builds ?_
    rw [if_neg hfew]
    exact builds_openBlock .loop mark _
  | alt e =>
    have hm : valueMark t.required r s = newMark false s.builder.escape r.auto.enabled r s := by
      rw [hr]
      rfl
    have ha : ∀ mark, Builds r (fun location b =>
      b.openBlock .alt location mark (.alt (e.argument (.of r s.logName))))
        (argument false t.base t.text >>= fun a => openBlock .alt mark (.alt a)) := by
      intro mark
      rw [hte]
      exact (tells_argument e t.base s.logName).builds (builds_openBlock .alt mark _)
    obtain ⟨mark, location, s', hrun, hu⟩ := marks_newMark ha false r.auto.enabled
      s.builder.escape s
    exact ⟨mark, location, s', (Program.bind_congr hm _).trans hrun, hu⟩
  | escape e word mode expr named =>
    obtain ⟨⟨w, mode⟩, hf, rfl⟩ := map_eq_some_iff.mp named
    have hrun : Head.command (.escape e word mode expr named : Head r.functions) = .escape := rfl
    rw [hrun, command, Directive.escape, hr]
    refine marks_newMark (fun mark => ?_) false false .undefined s
    refine (tells_textArgument expr _ hte s.logName).builds ?_
    dsimp only
    refine (tells_use _ _ _).builds ?_
    split
    · next hn => exact absurd (hf.symm.trans hn) (some_ne_none _)
    · next w' mode' hs =>
      cases hf.symm.trans hs
      exact fun s => ⟨s.whereabouts.reading.offset, s.whereabouts.reading, rfl⟩

variable (text) in
theorem marks_elif (e : Phrase r.functions) (ht : t.text = e.source) (s : ParseState) :
    Marks r s (Notes.of r s.logName).mark (fun mark _ b =>
      b.divide mark (.branch .elif (e.argument (.of r s.logName)))) (command text .elif t) := by
  have hd : ∀ mark a, Builds r (fun _ b => b.divide mark (.branch .elif a))
      (build (·.divide mark (.branch .elif a))) :=
    fun _ _ s => ⟨0, s.whereabouts.reading, rfl⟩
  rw [command, Directive.nextBranch, ht]
  exact marks_newMark (fun mark => (tells_argument e t.base s.logName).builds (hd mark _))
    false false .undefined s

end Parse

/-- What follows a part of a text: nothing, or a command and the text behind it. -/
inductive Sequel where
  | ended
  | command (word rest : Bytes)

namespace Sequel

def print (tag : Bytes) : Sequel → Bytes
  | ended => []
  | command word rest => enclose tag word ++ rest

def Sound : Sequel → Prop
  | ended => True
  | command word _ => Inner word

def resume (text : Bytes → Parse Unit) (before : Reading) (fuel : Nat) : Sequel → Parse Unit
  | ended => pure ()
  | command word rest => do
    Parse.inside text before word rest
    let s ← get
    Parse.pieces text before fuel (s.whereabouts.reading.left rest)

/-- A reader at an offset is behind the command, and there is enough fuel for the text behind it. -/
def Room (fuel offset : Nat) : Sequel → Prop
  | ended => True
  | command word rest => rest.length < fuel ∧ word.length + 2 ≤ offset

end Sequel

/-- A reader that has read `is` in between and has left no block open. -/
structure ParseState.Grows (s : ParseState) (is : List Item) (s' : ParseState) : Prop where
  builder : s.builder.Extends is s'.builder
  logName : s'.logName = s.logName
  stop : s'.whereabouts.reading.stop = none

theorem ParseState.Grows.trans {s s₁ s₂ : ParseState} {is js : List Item} (h : s.Grows is s₁)
    (h' : s₁.Grows js s₂) :
    s.Grows (is ++ js) s₂ := ⟨h.builder.trans h'.builder, h'.logName.trans h.logName, h'.stop⟩

namespace Parse

variable {text : Bytes → Parse Unit} {before : Reading} {r : ParserSettings} {s s' : ParseState}
  {w rest : Bytes} {fuel : Nat}

variable (text before) in
theorem pieces_literal (l : Literal r.tag) {z : Sequel} (hz : z.Sound)
    (hstop : s.whereabouts.reading.stop = none) (hfu : (l.text ++ z.print r.tag).length < fuel) :
    ∃ k s', pieces text before fuel (l.text ++ z.print r.tag) r s = z.resume text before k r s' ∧
      z.Room k s'.whereabouts.reading.offset ∧ s.Grows [l.item (.of r s.logName)] s' := by
  obtain _ | fuel := fuel
  · omega
  cases z with
  | ended =>
    obtain ⟨mark, position, hrun, hm⟩ := literal_run (r := r) l.text s
    have he := s.builder.extends_add mark (.literal (some l.text))
    rw [hm] at he
    rw [Sequel.print, append_nil, pieces_last l.nextCommand?_eq_none, hrun]
    exact ⟨0, { s with position, builder := s.builder.add mark (.literal (some l.text)) }, rfl,
      trivial, he, rfl, hstop⟩
  | command w rest =>
    obtain ⟨size, hf⟩ := l.first?_enclose hz rest
    obtain ⟨hl, hs⟩ := Stretch.first?_eq hf
    dsimp only at hl hs
    obtain ⟨v, hv, hrun⟩ :=
      piece_eq text (r := r) (c := ⟨l.text, size, w, rest⟩) hz.enclosed.1 before s
    obtain ⟨mark, hm, hb⟩ := hv.builder
    have he := s.builder.extends_add mark (.literal (some l.text))
    rw [hm, ← hb] at he
    refine ⟨fuel, v, ?_, ⟨?_, ?_⟩, he, hv.logName, ?_⟩
    · exact (congrFun (pieces_first hf) s).trans (Program.bind_congr hrun _)
    · rw [Sequel.print] at hfu
      omega
    · rw [hv.reading]
      dsimp only
      omega
    · rw [hv.reading]
      exact hstop

section Commands

variable {arg : Bytes} {c : Command}

/-- A command with an argument that opens a block: the mode in the block, by that around it, and the
mark and the action of its item. -/
structure OpensBlock (text : Bytes → Parse Unit) (r : ParserSettings) (c : Command) (arg : Bytes)
    (block : Block)
    (mode : EscapeMode → EscapeMode) (mark : Notes → EscapeMode → Mark)
    (action : Notes → Action) : Prop where
  asks : c.takesArgument = true ∧ c ≠ .evar ∧ c ≠ .includeNow
  anywhere : ∀ around, c.allowedIn around = true
  enclosed : Enclosed arg
  run : ∀ s (t : Directive.Tail), t.required = false → t.text = arg → ∃ g,
    Marks r s (mark (.of r s.logName) s.builder.escape) g (command text c t) ∧
      ∀ mark location, s.builder.Even → s.builder.Opens ⟨block, mode s.builder.escape, location,
        ⟨mark, action (.of r s.logName), []⟩, [], s.builder.items⟩ (g mark location s.builder)

variable (text) in
theorem opensBlock_head (head : Head r.functions) :
    OpensBlock text r head.command head.argument head.block (fun outer => head.mode outer)
      (fun n outer => head.mark n outer) (fun n => head.action n) where
  asks := by cases head <;> exact ⟨rfl, noConfusion, noConfusion⟩
  anywhere around := by cases head <;> rfl
  enclosed := head.enclosed
  run s t hrequired htext := by
    refine ⟨_, marks_head text head hrequired htext s, fun mark location he => ?_⟩
    cases head with
    | escape => exact ⟨rfl, rfl, rfl, rfl⟩
    | _ => exact opens_openBlock he _ location mark _

variable (text) in
theorem opensBlock_branch (e : Phrase r.functions) :
    OpensBlock text r .branch e.source .branch (fun outer => outer) (fun n _ => n.mark)
      (fun n => .branch .branch (e.argument n)) where
  asks := ⟨rfl, noConfusion, noConfusion⟩
  anywhere _ := rfl
  enclosed := e.enclosed
  run s t _ htext := by
    rw [command, Directive.branch, htext]
    exact ⟨_, marks_newMark (fun mark => (tells_argument e t.base s.logName).builds
      (builds_openBlock .branch mark _))
      false false .undefined s, fun mark location he => opens_openBlock he .branch location mark _⟩

/-- A command that may stand here is carried out, and then the text behind it is read, if all of
that is left. -/
theorem resume_run (hr : read? w = some (c, arg)) (ha : c.allowedIn s.builder.block = true)
    (hrun : command text c (tail s.whereabouts.reading.offset rest arg) r s = (.ok (), s'))
    (hl : s'.whereabouts.reading.stop = none) :
    (Sequel.command w rest).resume text before fuel r s = pieces text before fuel rest r s' := by
  have hi : inside text before w rest r s = (.ok (), s') :=
    (inside_eq hr ha before rest).trans (Program.catch_ok hrun _)
  rw [Sequel.resume, Program.bind_ok hi, Program.get_bind, Reading.left, hl]

variable (hstop : s.whereabouts.reading.stop = none)

include hstop

variable (before) in
/-- A command with an argument is carried out with the argument. It leaves all that follows, like
any command whose argument is behind the reader. -/
theorem resume_asking (hc : c.takesArgument = true) (ha : c.allowedIn s.builder.block = true)
    (he : c ≠ .evar)
    (hf : c ≠ .includeNow)
    (hr : (Sequel.command (c.asking arg) rest).Room fuel s.whereabouts.reading.offset) {unplaced g}
    (hm : Marks r s unplaced g
      (command text c (tail s.whereabouts.reading.offset rest (':'.toUInt8 :: arg)))) :
    ∃ mark location s', (Sequel.command (c.asking arg) rest).resume text before fuel r s =
        pieces text before fuel rest r s' ∧ mark.unplaced = unplaced ∧
        s'.builder = g mark location s.builder ∧
      s'.logName = s.logName ∧ s'.whereabouts.reading.stop = none := by
  obtain ⟨mark, location, s', hrun, hma, hb, hlog⟩ := hm
  have hl : (':'.toUInt8 :: arg).length ≤ (c.asking arg).length := by
    rw [asking, length_append]
    exact Nat.le_add_left _ _
  have hse := like_self hstop
  have ht := @tail_like True _ _ _ _ rest rest hl hr.2 hr.2 fun hnil =>
    absurd hnil (cons_ne_nil _ _)
  have hli := @beside_command _ r _ _ _ (@lawful_footing ⟨[], s.logName⟩ Eq True _ _ _) kept_alike
    text text c _ _
    trivial he hf (.inr ht) s s ⟨⟨hse.builder, ha⟩, hse⟩
  rw [hrun] at hli
  cases hli with
  | ok hs =>
    obtain ⟨left, hle, -, hn⟩ := (ParseState.Like.reading hs.2.2).stop
    rw [hn trivial] at hle
    exact ⟨mark, location, s', resume_run (read?_asking hc arg) ha hrun hle, hma, hb, hlog, hle⟩

variable (text before rest fuel) in
theorem resume_otherwise (hb : s.builder.block = .branch) :
    ∃ location s', (Sequel.command otherwise.alone rest).resume text before fuel r s =
        pieces text before fuel rest r s' ∧ s'.builder = s.builder.turn location ∧
      s'.logName = s.logName ∧ s'.whereabouts.reading.stop = none := by
  have ha : otherwise.allowedIn s.builder.block = true := by
    rw [hb]
    rfl
  exact ⟨_, _, resume_run (read?_alone .otherwise) ha rfl hstop, rfl, rfl, hstop⟩

variable (text before rest fuel) in
theorem resume_close (hc : ∀ t, command text c t = build (·.close))
    (ha : c.allowedIn s.builder.block = true) :
    ∃ s', (Sequel.command c.alone rest).resume text before fuel r s =
      pieces text before fuel rest r s' ∧
      s'.builder = s.builder.close ∧ s'.logName = s.logName ∧
      s'.whereabouts.reading.stop = none := by
  have hrun : ∀ t, command text c t r s = (.ok (), { s with builder := s.builder.close }) := by
    intro t
    rw [hc]
    rfl
  exact ⟨_, resume_run (read?_alone c) ha (hrun _) hstop, rfl, rfl, hstop⟩

end Commands

end Parse

end TemplateKit
