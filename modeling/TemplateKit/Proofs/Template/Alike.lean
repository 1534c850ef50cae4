import TemplateKit.Proofs.Template.Readers
import TemplateKit.Proofs.Template.Render

/-!
# Templates that are alike

Two templates are alike if they differ only in the pieces that their literal text is cut into, in
items that write nothing, and in where their items were found. What is left of a template without
these differences is its core. The steps of a builder keep templates alike, also when one of two
builders stands on items of its own.
-/

namespace TemplateKit

open List

def Mark.core (m : Mark) : Mark :=
  { required := m.required, escape := m.escape, autoEscape := m.autoEscape }

/-- Marks that differ only in the place they name. -/
structure Mark.Alike (m m' : Mark) : Prop where
  required : m.required = m'.required
  escape : m.escape = m'.escape
  autoEscape : m.autoEscape = m'.autoEscape

theorem Mark.Alike.refl (m : Mark) : m.Alike m := ⟨rfl, rfl, rfl⟩

theorem Mark.alike_core (m : Mark) : m.Alike m.core := ⟨rfl, rfl, rfl⟩

theorem Mark.alike_unplaced (m : Mark) : m.Alike m.unplaced := ⟨rfl, rfl, rfl⟩

namespace Item

def byte (b : UInt8) : Item := ⟨{}, .literal (some [b]), [], []⟩

/-- What is left of an item, if it is known what is left of the items inside of it. Nothing is left
of an item that writes nothing, and literal text is cut into bytes. -/
def reduced (mark : Mark) (action : Action) (body otherwise : List Item) : List Item :=
  let kept : List Item := [⟨mark.core, action, body, otherwise⟩]
  if body.isEmpty && otherwise.isEmpty then
    match action with
    | .literal none | .evar _ => []
    | .literal (some s) => if mark.autoEscape then kept else s.map byte
    | _ => kept
  else kept

mutual

def core (i : Item) : List Item :=
  match i with
  | ⟨mark, action, body, otherwise⟩ => reduced mark action (coreOf body) (coreOf otherwise)

def coreOf (is : List Item) : List Item :=
  match is with
  | [] => []
  | i :: rest => i.core ++ coreOf rest

end

theorem coreOf_append (is js : List Item) : coreOf (is ++ js) = coreOf is ++ coreOf js := by
  induction is with
  | nil => rfl
  | cons i is ih => rw [cons_append, coreOf, coreOf, ih, append_assoc]

theorem coreOf_singleton (i : Item) : coreOf [i] = i.core := by rw [coreOf, coreOf, append_nil]

/-- An item writes nothing, or is literal text that is cut into bytes, or stays one item. -/
theorem core_cases (i : Item) :
    (i.core = [] ∧ (i.action = .literal none ∨ ∃ name, i.action = .evar name)) ∨
      (∃ s, i.action = .literal (some s) ∧ i.mark.autoEscape = false ∧ i.core = s.map byte) ∨
      i.core = [⟨i.mark.core, i.action, coreOf i.body, coreOf i.otherwise⟩] := by
  obtain ⟨mark, action, body, otherwise⟩ := i
  rw [core]
  unfold reduced
  split
  · split
    · exact .inl ⟨rfl, .inl rfl⟩
    · exact .inl ⟨rfl, .inr ⟨_, rfl⟩⟩
    · next s =>
      by_cases ha : mark.autoEscape = true
      · exact .inr (.inr (if_pos ha))
      · exact .inr (.inl ⟨s, rfl, Bool.eq_false_iff.mpr ha, if_neg ha⟩)
    · exact .inr (.inr rfl)
  · exact .inr (.inr rfl)

theorem macrosOf_append (is js : List Item) : macrosOf (is ++ js) = macrosOf is ++ macrosOf js := by
  induction is with
  | nil => rfl
  | cons i is ih => rw [cons_append, macrosOf, macrosOf, ih, append_assoc]

end Item

def Macro.core (m : Macro) : Macro := ⟨m.signature, Item.coreOf m.body⟩

namespace Item

theorem macrosOf_bytes (s : Bytes) : macrosOf (s.map byte) = [] := by
  induction s with
  | nil => rfl
  | cons b s ih => exact ih

theorem macrosOf_reduced (mark : Mark) (action : Action) (body otherwise : List Item) :
    macrosOf (reduced mark action body otherwise) =
    (⟨mark, action, body, otherwise⟩ : Item).macros := by
  have hk : ∀ action, macrosOf [⟨mark.core, action, body, otherwise⟩] =
      (⟨mark, action, body, otherwise⟩ : Item).macros := by
    intro action
    rw [macrosOf, macrosOf, append_nil]
    rfl
  unfold reduced
  split
  · next he =>
    rw [Bool.and_eq_true, List.isEmpty_iff, List.isEmpty_iff] at he
    obtain ⟨rfl, rfl⟩ := he
    split
    · rfl
    · rfl
    · split
      · exact hk _
      · exact macrosOf_bytes _
    · exact hk _
  · exact hk action

theorem macrosOf_coreOf (is : List Item) : macrosOf (coreOf is) = (macrosOf is).map Macro.core := by
  have hl : ∀ is : List Item, (∀ i ∈ is, macrosOf i.core = i.macros.map Macro.core) →
      macrosOf (coreOf is) = (macrosOf is).map Macro.core := by
    intro is
    induction is with
    | nil => exact fun _ => rfl
    | cons i is ih =>
      intro h
      rw [coreOf, macrosOf_append, macrosOf, map_append, h i mem_cons_self,
        ih fun i hi => h i (mem_cons_of_mem _ hi)]
  have hit : ∀ i : Item, macrosOf i.core = i.macros.map Macro.core := by
    intro i
    induction i using nested_induction with
    | item mark action body otherwise ihbody ihother =>
      rw [core, macrosOf_reduced]
      unfold macros
      rw [hl body ihbody, hl otherwise ihother, map_append]
      cases action with
      | define signature => rfl
      | _ => rfl
  exact hl is fun i _ => hit i

/-- Items that are alike, with all that is inside of them. -/
def Alike (is is' : List Item) : Prop := coreOf is = coreOf is'

namespace Alike

variable {is is' is'' js js' : List Item}
variable {mark mark' : Mark}

theorem refl (is : List Item) : Alike is is := rfl

theorem symm (h : Alike is is') : Alike is' is := Eq.symm h

theorem trans (h : Alike is is') (h' : Alike is' is'') : Alike is is'' := Eq.trans h h'

theorem append (h : Alike is is') (h' : Alike js js') : Alike (is ++ js) (is' ++ js') := by
  unfold Alike at *
  rw [coreOf_append, coreOf_append, h, h']

theorem within {action : Action} {body body' otherwise otherwise' : List Item}
    (hm : mark.Alike mark') (hb : Alike body body') (ho : Alike otherwise otherwise') :
    Alike [⟨mark, action, body, otherwise⟩] [⟨mark', action, body', otherwise'⟩] := by
  unfold Alike at *
  rw [coreOf_singleton, coreOf_singleton, core, core, hb, ho]
  unfold reduced
  rw [Mark.core, Mark.core, hm.required, hm.escape, hm.autoEscape]

theorem cut {mark''} (h : mark.autoEscape = false) (h' : mark'.autoEscape = false)
    (h'' : mark''.autoEscape = false) (s t : Bytes) :
    Alike [⟨mark, .literal (some (s ++ t)), [], []⟩]
      [⟨mark', .literal (some s), [], []⟩, ⟨mark'', .literal (some t), [], []⟩] := by
  have hb : ∀ {m : Mark}, m.autoEscape = false →
      ∀ s, reduced m (.literal (some s)) [] [] = s.map byte :=
    fun hm s => if_neg (Bool.eq_false_iff.mp hm)
  unfold Alike
  simp only [coreOf, core, hb h, hb h', hb h'', map_append, append_nil]

theorem blank (h : mark.autoEscape = false) : Alike [⟨mark, .literal (some []), [], []⟩] [] := by
  unfold Alike
  rw [coreOf_singleton]
  exact if_neg (Bool.eq_false_iff.mp h)

theorem evar (mark : Mark) (name : Bytes) : Alike [⟨mark, .evar name, [], []⟩] [] := rfl

end Alike

end Item

/-- Branches of one action whose bodies are alike. -/
structure Branch.Alike (b b' : Branch) : Prop where
  mark : b.mark.Alike b'.mark
  action : b.action = b'.action
  body : Item.Alike b.body b'.body

/-- Open blocks that are alike, apart from the items around them. -/
structure Frame.Alike (f f' : Frame) : Prop where
  block : f.block = f'.block
  escape : f.escape = f'.escape
  latest : f.latest.Alike f'.latest
  earlier : List.Forall₂ Branch.Alike f.earlier f'.earlier

namespace Builder

variable {base : List Item} {b b' b'' : Builder} {items items' items'' : List Item}
  {frames frames' frames'' : List Frame}

/-- Items in open blocks that are alike; outside of all blocks the first list stands on the items
`base`. -/
inductive Stacked (base : List Item) : List Item → List Frame → List Item → List Frame → Prop
  | outermost {items items' : List Item} (h : Item.Alike items.reverse (base ++ items'.reverse)) :
      Stacked base items [] items' []
  | inside {items items' : List Item} {f f' : Frame} {frames frames' : List Frame}
      (h : Item.Alike items.reverse items'.reverse) (hf : f.Alike f')
      (hframes : Stacked base f.outer frames f'.outer frames') :
      Stacked base items (f :: frames) items' (f' :: frames')

/-- Builders that are alike, where the first one stands on the items `base`. -/
structure Alike (base : List Item) (b b' : Builder) : Prop where
  stacked : Stacked base b.items b.frames b'.items b'.frames
  outermost : b.outermostEscape = b'.outermostEscape
  next : b.nextEscape = b'.nextEscape
  changed : b.escapeChanged = b'.escapeChanged
  contentTypes : b.contentTypes = b'.contentTypes

section

variable (h : Stacked base items frames items' frames')

include h

theorem Stacked.outside_or_inside :
    (frames = [] ∧ frames' = [] ∧ Item.Alike items.reverse (base ++ items'.reverse)) ∨
      ∃ f rest f' rest', frames = f :: rest ∧ frames' = f' :: rest' ∧
        Item.Alike items.reverse items'.reverse ∧
        f.Alike f' ∧ Stacked base f.outer rest f'.outer rest' := by
  cases h with
  | outermost h => exact .inl ⟨rfl, rfl, h⟩
  | inside h hf hfr => exact .inr ⟨_, _, _, _, rfl, rfl, h, hf, hfr⟩

theorem Stacked.length_eq : frames.length = frames'.length := by
  induction h with
  | outermost => rfl
  | inside _ _ _ ih => simp [ih]

theorem Stacked.extend {more more'} 
    (hm : Item.Alike more.reverse more'.reverse) :
    Stacked base (more ++ items) frames (more' ++ items') frames' := by
  cases h with
  | outermost h =>
    refine .outermost ?_
    rw [reverse_append, reverse_append, ← append_assoc]
    exact h.append hm
  | inside h hf hfr =>
    refine .inside ?_ hf hfr
    rw [reverse_append, reverse_append]
    exact h.append hm

theorem Stacked.put {i i'} (hi : Item.Alike [i] [i']) :
    Stacked base (i :: items) frames (i' :: items') frames' :=
  show Stacked base ([i] ++ items) frames ([i'] ++ items') frames' from h.extend hi

theorem Stacked.recut {more more'} 
    (hm : Item.Alike more.reverse items.reverse) (hm' : Item.Alike items'.reverse more'.reverse) :
    Stacked base more frames more' frames' := by
  cases h with
  | outermost h => exact .outermost (hm.trans (h.trans (.append (.refl base) hm')))
  | inside h hf hfr => exact .inside (hm.trans (h.trans hm')) hf hfr

end

theorem frame_alike (f : Frame) : f.Alike f where
  block := rfl
  escape := rfl
  latest := ⟨.refl _, rfl, .refl _⟩
  earlier := List.forall₂_same.mpr fun _ _ => ⟨.refl _, rfl, .refl _⟩

theorem Stacked.refl (items : List Item) (frames : List Frame) :
    Stacked [] items frames items frames := by
  induction frames generalizing items with
  | nil => exact .outermost (.refl _)
  | cons f frames ih => exact .inside (.refl _) (frame_alike f) (ih f.outer)

theorem Alike.refl (b : Builder) : Alike [] b b := ⟨.refl _ _, rfl, rfl, rfl, rfl⟩

namespace Alike

variable (h : Alike base b b')

include h

variable {mark mark' : Mark}

theorem block_eq : b.block = b'.block := by
  unfold block
  rcases h.stacked.outside_or_inside with ⟨hnil, hn', -⟩ | ⟨f, rest, f', rest', hc, hc', -, hf, -⟩
  · rw [hnil, hn']
  · rw [hc, hc']
    exact hf.block

theorem escape_eq : b.escape = b'.escape := by
  unfold escape
  rcases h.stacked.outside_or_inside with ⟨hnil, hn', -⟩ | ⟨f, rest, f', rest', hc, hc', -, hf, -⟩
  · rw [hnil, hn']
    exact h.outermost
  · rw [hc, hc']
    exact hf.escape

theorem length_eq : b.frames.length = b'.frames.length := h.stacked.length_eq

theorem add (hm : mark.Alike mark') (action : Action) :
    Alike base (b.add mark action) (b'.add mark' action) :=
  { h with stacked := h.stacked.put (.within hm (.refl []) (.refl [])) }

omit h in
/-- More literal text is added to the first builder, and to the text that the second one was given
last. -/
theorem lengthen {mark'' : Mark} {b' : Builder} {s : Bytes}
    (h : Alike base b (b'.add mark' (.literal (some s)))) (hm : mark.autoEscape = false)
    (hm' : mark'.autoEscape = false) (hm'' : mark''.autoEscape = false) (t : Bytes) :
    Alike base (b.add mark (.literal (some t))) (b'.add mark'' (.literal (some (s ++ t)))) := by
  have hadd := h.stacked.put (.refl [⟨mark, .literal (some t), [], []⟩])
  refine { h with stacked := hadd.recut (.refl _) ?_ }
  simp only [Builder.add, reverse_cons, append_assoc]
  exact .append (.refl _) (Item.Alike.cut hm'' hm' hm s t).symm

theorem addBlank (hm : mark.autoEscape = false) :
    Alike base b (b'.add mark (.literal (some []))) := by
  refine { h with stacked := h.stacked.recut (.refl _) ?_ }
  have ha := Item.Alike.append (.refl b'.items.reverse) (Item.Alike.blank hm).symm
  rw [append_nil] at ha
  rw [Builder.add, reverse_cons]
  exact ha

/-- An item that only notes that a value was read makes no difference. -/
theorem addEvar (mark : Mark) (name : Bytes) : Alike base (b.add mark (.evar name)) b' := by
  have ha := Item.Alike.append (.refl b.items.reverse) (Item.Alike.evar mark name)
  rw [append_nil] at ha
  refine { h with stacked := h.stacked.recut ?_ (.refl _) }
  rw [Builder.add, reverse_cons]
  exact ha

theorem addContentType (hm : mark.Alike mark') (type : Bytes) (source : Option Bytes) :
    Alike base (b.addContentType mark type source) (b'.addContentType mark' type source) := by
  have hadd := h.add hm (.contentType b.contentTypes type source)
  unfold Builder.addContentType
  rw [← h.contentTypes]
  exact { hadd with contentTypes := rfl }

theorem changeEscape (m : EscapeMode) : Alike base (b.changeEscape m) (b'.changeEscape m) :=
  { h with next := rfl, changed := rfl }

theorem push {block location location' latest latest' earlier earlier' outer outer'}
    (hl : latest.Alike latest') (he : List.Forall₂ Branch.Alike earlier earlier')
    (ho : Stacked base outer b.frames outer' b'.frames) :
    Alike base (b.push block location latest earlier outer)
      (b'.push block location' latest' earlier' outer') := by
  refine { h with stacked := .inside (.refl _) ⟨rfl, ?_, hl, he⟩ ho, changed := rfl }
  simp only [h.changed, h.next, h.escape_eq]

theorem openBlock (hm : mark.Alike mark') (block : Block) (location location' : Nat)
    (action : Action) :
    Alike base (b.openBlock block location mark action)
      (b'.openBlock block location' mark' action) :=
  h.push ⟨hm, rfl, .refl _⟩ .nil h.stacked

theorem divide (hm : mark.Alike mark') (action : Action) :
    Alike base (b.divide mark action) (b'.divide mark' action) := by
  unfold Builder.divide
  rcases h.stacked.outside_or_inside with ⟨hnil, hn', -⟩ | ⟨f, rest, f', rest',
    hc, hc', hi, hf, hfr⟩
  · rw [hnil, hn']
    exact h
  · rw [hc, hc']
    have hfi : Branch.Alike { f.latest with body :=
      b.items.reverse } { f'.latest with body := b'.items.reverse } :=
      ⟨hf.latest.mark, hf.latest.action, hi⟩
    have hfra : Frame.Alike
        { f with latest := ⟨mark,
          action, []⟩, earlier := { f.latest with body := b.items.reverse } :: f.earlier }
        { f' with latest := ⟨mark',
          action, []⟩, earlier := { f'.latest with body := b'.items.reverse } :: f'.earlier } :=
      ⟨hf.block, hf.escape, ⟨hm, rfl, .refl _⟩, .cons hfi hf.earlier⟩
    exact { h with stacked := .inside (.refl _) hfra hfr }

theorem turn (location location' : Nat) : Alike base (b.turn location) (b'.turn location') := by
  unfold Builder.turn
  rcases h.stacked.outside_or_inside with ⟨hnil, hn', -⟩ | ⟨f, rest, f', rest', hc,
    hc', hi, hf, hfr⟩
  · rw [hnil, hn']
    exact h
  · rw [hc, hc']
    have ho : Alike base { b with items := f.outer, frames := rest }
        { b' with items := f'.outer, frames := rest' } :=
      { h with stacked := hfr }
    exact ho.push ⟨hf.latest.mark, hf.latest.action, hi⟩ hf.earlier hfr

end Alike

theorem finished_alike {f f'} (hf : f.Alike f') (hit : Item.Alike items.reverse items'.reverse) :
    Item.Alike [finished f items] [finished f' items'] := by
  refine rel_foldl (P := fun i i' => Item.Alike [i] [i']) (fun i i' hi b b' hb => ?_) ?_ hf.earlier
  · dsimp only
    rw [hb.action]
    exact .within hb.mark hb.body hi
  · rw [hf.block, hf.latest.action]
    split
    · exact .within hf.latest.mark hf.latest.body hit
    · exact .within hf.latest.mark hit (.refl [])

theorem Alike.close (h : Alike base b b') : Alike base b.close b'.close := by
  unfold Builder.close
  rcases h.stacked.outside_or_inside with ⟨hnil, hn', -⟩ | ⟨f, rest, f', rest', hco, hc',
    hi, hf, hfr⟩
  · rw [hnil, hn']
    exact h
  · rw [hco, hc']
    have hc : Stacked base (finished f b.items :: f.outer) rest (finished f' b'.items ::
        f'.outer) rest' :=
      hfr.put (finished_alike hf hi)
    exact { h with stacked := hc }

theorem Alike.template (h : Alike base b b') : Item.Alike b.template (base ++ b'.template) := by
  have hc : ∀ {items frames items' frames'}, Stacked base items frames items' frames' →
      Item.Alike (frames.foldl (fun items f => finished f items :: f.outer) items).reverse
        (base ++ (frames'.foldl (fun items f => finished f items :: f.outer) items').reverse) := by
    intro items frames
    induction frames generalizing items with
    | nil =>
      intro items' frames' h
      cases h with
      | outermost h => exact h
    | cons f frames ih =>
      intro items' frames' h
      cases h with
      | inside hi hf hfr =>
        rw [foldl_cons, foldl_cons]
        apply ih
        exact hfr.put (finished_alike hf hi)
  exact hc h.stacked

end Builder

end TemplateKit
