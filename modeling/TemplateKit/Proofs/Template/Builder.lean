import Mathlib.Data.List.Basic
import TemplateKit.Template.Builder

/-!
# Rules for templates under construction

A rule says what may stand in a context, and which context is inside of it. Each step of a builder
keeps a rule, so that a template that was built by it follows it.
-/

namespace TemplateKit

open List

/-- What may stand in a context of the kind `C`. -/
structure Rule (C : Type) where
  fits : C → Mark → Action → Prop
  inside : C → Action → C
  /-- The escape modes of open blocks with a context inside of them. -/
  mode : C → EscapeMode → Prop

variable {C : Type} {rule : Rule C} {c : C}

/-- The items that follow a rule in a context, with all that is inside of them. -/
inductive Item.Follows (rule : Rule C) : C → Item → Prop
  | mk {c : C} {mark : Mark} {action : Action} {body otherwise : List Item}
      (fits : rule.fits c mark action)
      (inside : ∀ i ∈ body, Item.Follows rule (rule.inside c action) i)
      (other : ∀ i ∈ otherwise, Item.Follows rule c i) :
      Item.Follows rule c ⟨mark, action, body, otherwise⟩

/-- A branch that follows a rule, with all that is inside of it. -/
structure Branch.Follows (rule : Rule C) (c : C) (b : Branch) : Prop where
  fits : rule.fits c b.mark b.action
  inside : ∀ i ∈ b.body, i.Follows rule (rule.inside c b.action)

/-- An open block that stands in a context. -/
structure Frame.Follows (rule : Rule C) (c : C) (f : Frame) : Prop where
  latest : f.latest.Follows rule c
  earlier : ∀ b ∈ f.earlier, b.Follows rule c
  outer : ∀ i ∈ f.outer, i.Follows rule c
  mode : rule.mode (rule.inside c f.latest.action) f.escape
  /-- What stands otherwise has the context of the block. -/
  divided : f.block = .branch ∨ f.block = .otherwise → rule.inside c f.latest.action = c

namespace Builder

variable {b : Builder} {f : Frame} {frames : List Frame} {mark : Mark} {action : Action}
  {location : Nat}

def contextIn (rule : Rule C) (c : C) : List Frame → C
  | [] => c
  | f :: frames => rule.inside (contextIn rule c frames) f.latest.action

/-- Each open block follows the rule where it stands. -/
inductive Nested (rule : Rule C) (c : C) : List Frame → Prop
  | nil : Nested rule c []
  | cons {f : Frame} {frames : List Frame} (head : f.Follows rule (contextIn rule c frames))
      (tail : Nested rule c frames) :
      Nested rule c (f :: frames)

/-- A builder whose items and open blocks all follow a rule. -/
structure Follows (rule : Rule C) (c : C) (b : Builder) : Prop where
  frames : Nested rule c b.frames
  items : ∀ i ∈ b.items, i.Follows rule (contextIn rule c b.frames)

theorem follows_start {m} (h : rule.fits c {} (.literal none)) : (start m).Follows rule c :=
  ⟨.nil, forall_mem_singleton.mpr (.mk h (by simp) (by simp))⟩

theorem block_eq (hf : b.frames = f :: frames) : b.block = f.block := by
  rw [block, hf]
  rfl

theorem follows_finished {items} (hf : f.Follows rule c)
    (hit : ∀ i ∈ items, i.Follows rule (rule.inside c f.latest.action)) :
    (finished f items).Follows rule c := by
  refine foldlRecOn _ _ ?_ fun inner hinn b hb =>
    .mk (hf.earlier b hb).fits (hf.earlier b hb).inside (forall_mem_singleton.mpr hinn)
  have hre : ∀ i ∈ items.reverse, i.Follows rule _ := fun i hi => hit i (mem_reverse.mp hi)
  split
  · next hb => exact .mk hf.latest.fits hf.latest.inside (hf.divided (.inr hb) ▸ hre)
  · exact .mk hf.latest.fits hre (by simp)

namespace Follows

variable (h : b.Follows rule c)

include h

theorem template : ∀ i ∈ b.template, i.Follows rule c := by
  have hc : ∀ (frames : List Frame) (items : List Item), Nested rule c frames →
      (∀ i ∈ items, i.Follows rule (contextIn rule c frames)) →
      ∀ i ∈ frames.foldl (fun items f => finished f items :: f.outer) items, i.Follows rule c := by
    intro frames
    induction frames with
    | nil => exact fun items _ h => h
    | cons f frames ih =>
      intro items hn hit
      cases hn with
      | cons hfr hfra => exact ih _ hfra (forall_mem_cons.mpr ⟨follows_finished hfr hit, hfr.outer⟩)
  exact fun i hi => hc b.frames b.items h.frames h.items i (mem_reverse.mp hi)

theorem add (hfi : rule.fits (contextIn rule c b.frames) mark action) :
    (b.add mark action).Follows rule c :=
  ⟨h.frames, forall_mem_cons.mpr ⟨.mk hfi (by simp) (by simp), h.items⟩⟩

theorem addContentType {type source}
    (hfi : rule.fits (contextIn rule c b.frames) mark (.contentType b.contentTypes type source)) :
    (b.addContentType mark type source).Follows rule c := ⟨(h.add hfi).frames, (h.add hfi).items⟩

theorem openBlock {block} (hfi : rule.fits (contextIn rule c b.frames) mark action)
    (hm : rule.mode (rule.inside (contextIn rule c b.frames) action)
      (if b.escapeChanged then b.nextEscape else b.escape))
    (hd : block = .branch ∨ block = .otherwise →
      rule.inside (contextIn rule c b.frames) action = contextIn rule c b.frames) :
    (b.openBlock block location mark action).Follows rule c :=
  ⟨.cons ⟨⟨hfi, by simp⟩, by simp, h.items, hm, hd⟩ h.frames, by simp [Builder.openBlock, push]⟩

theorem innermost (hf : b.frames = f :: frames) :
    f.Follows rule (contextIn rule c frames) ∧ Nested rule c frames ∧
    { f.latest with body := b.items.reverse }.Follows rule (contextIn rule c frames) := by
  have hn := h.frames
  have hi := h.items
  rw [hf] at hn hi
  cases hn with
  | cons head tail => exact ⟨head, tail, head.latest.fits, fun i hm => hi i (mem_reverse.mp hm)⟩

theorem close : b.close.Follows rule c := by
  unfold Builder.close
  split
  · exact h
  · next f frames hf =>
    obtain ⟨hfr, hfra, -⟩ := h.innermost hf
    have hi := h.items
    rw [hf] at hi
    exact ⟨hfra, forall_mem_cons.mpr ⟨follows_finished hfr hi, hfr.outer⟩⟩

variable (hbl : b.block = .branch)

include hbl

theorem divide (hfi : ∀ c, rule.fits c mark action) (hin : ∀ c, rule.inside c action = c) :
    (b.divide mark action).Follows rule c := by
  unfold Builder.divide
  split
  · exact h
  · next f frames hf =>
    obtain ⟨hfr, hfra, hfin⟩ := h.innermost hf
    have hc := hfr.divided (.inl (block_eq hf ▸ hbl))
    refine ⟨.cons ⟨⟨hfi _, by simp⟩, forall_mem_cons.mpr ⟨hfin, hfr.earlier⟩, hfr.outer, ?_,
      fun _ => hin _⟩ hfra, by simp⟩
    rw [hin, ← hc]
    exact hfr.mode

theorem turn (hm : ∀ f frames, b.frames = f :: frames → rule.mode (contextIn rule c frames)
      (if b.escapeChanged then b.nextEscape else { b with frames }.escape)) :
      (b.turn location).Follows rule c := by
  unfold Builder.turn
  split
  · exact h
  · next f frames hf =>
    obtain ⟨hfr, hfra, hfin⟩ := h.innermost hf
    have hc := hfr.divided (.inl (block_eq hf ▸ hbl))
    exact ⟨.cons ⟨hfin, hfr.earlier, hfr.outer, hc.symm ▸ hm f frames hf, fun _ => hc⟩ hfra,
      by simp [push]⟩

end Follows

end Builder

end TemplateKit
