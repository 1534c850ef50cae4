import TemplateKit.Proofs.Template.Substitution

/-!
# Texts that can be read on their own

A text that is read in the middle of another one may end the blocks around it and open others, as
long as no more blocks are open behind it than before. If it can also be read where no block is
open, then it never looks at the blocks around it: it is read in the same way inside of any blocks,
and they are the same afterwards.
-/

namespace TemplateKit

open Parse List Builder

namespace Builder

/-- The same builder inside of other blocks. -/
def within (b : Builder) (around : List Frame) (outermost : EscapeMode) : Builder :=
  { b with frames := b.frames ++ around, outermostEscape := outermost }

/-- The same builder without the blocks around what follows. -/
def alone (b : Builder) : Builder := { b with frames := [], outermostEscape := b.escape }

/-- The second builder is the first one inside of the blocks `around`, in which it writes values in
the same way. -/
structure Within (around : List Frame) (outermost : EscapeMode) (b b' : Builder) : Prop where
  eq : b' = b.within around outermost
  mode : (around.head?.map (·.escape)).getD outermost = b.outermostEscape

theorem within_alone (b : Builder) : Within b.frames b.outermostEscape b.alone b := ⟨rfl, rfl⟩

namespace Within

variable {around : List Frame} {outermost : EscapeMode} {b b' : Builder}
  (h : Within around outermost b b')

include h

theorem escape_eq : b'.escape = b.escape := by
  obtain ⟨rfl, hm⟩ := h
  unfold escape within
  cases b.frames with
  | nil => exact hm
  | cons f rest => rfl

theorem block_eq (hopen : b.frames ≠ []) : b'.block = b.block := by
  obtain ⟨rfl, -⟩ := h
  unfold block within
  cases hf : b.frames with
  | nil => exact absurd hf hopen
  | cons f rest => rfl

theorem add (mark : Mark) (action : Action) :
    Within around outermost (b.add mark action) (b'.add mark action) := by
  obtain ⟨rfl, hm⟩ := h
  exact ⟨rfl, hm⟩

theorem changeEscape (m : EscapeMode) :
    Within around outermost (b.changeEscape m) (b'.changeEscape m) := by
  obtain ⟨rfl, hm⟩ := h
  exact ⟨rfl, hm⟩

theorem push (block : Block) (location : Nat) (latest : Branch) (earlier : List Branch)
    (outer : List Item) :
    Within around outermost (b.push block location latest earlier outer)
      (b'.push block location latest earlier outer) := by
  have he := h.escape_eq
  obtain ⟨rfl, hm⟩ := h
  refine ⟨?_, hm⟩
  unfold push
  rw [he]
  rfl

theorem openBlock (block : Block) (location : Nat) (mark : Mark) (action : Action) :
    Within around outermost (b.openBlock block location mark action)
      (b'.openBlock block location mark action) := by
  have hi : b'.items = b.items := by rw [h.eq, within]
  unfold Builder.openBlock
  rw [hi]
  exact h.push block location ⟨mark, action, []⟩ [] b.items

variable (hopen : b.frames ≠ [])

include hopen

theorem divide (mark : Mark) (action : Action) :
    Within around outermost (b.divide mark action) (b'.divide mark action) := by
  obtain ⟨rfl, hm⟩ := h
  unfold divide within
  cases hf : b.frames with
  | nil => exact absurd hf hopen
  | cons f rest => exact ⟨rfl, hm⟩

theorem turn (location : Nat) : Within around outermost (b.turn location) (b'.turn location) := by
  obtain ⟨rfl, hm⟩ := h
  unfold turn within
  cases hf : b.frames with
  | nil => exact absurd hf hopen
  | cons f rest =>
    have hr : Within around outermost { b with frames := rest }
        { b with frames := rest ++ around, outermostEscape := outermost } := ⟨rfl, hm⟩
    exact hr.push .otherwise location { f.latest with body := b.items.reverse } f.earlier f.outer

theorem close : Within around outermost b.close b'.close := by
  obtain ⟨rfl, hm⟩ := h
  unfold close within
  cases hf : b.frames with
  | nil => exact absurd hf hopen
  | cons f rest => exact ⟨rfl, hm⟩

end Within

theorem kept_within (around : List Frame) (outermost : EscapeMode) {fs} :
    Kept ⟨Eq, Eq, Within around outermost⟩ (fun _ => True) (fun _ => True) fs
      (Within around outermost) where
  within h := h
  changed h _ := h.changeEscape _
  escape_eq h := h.escape_eq
  block_eq h := h.block_eq
  add h hm _ _ := hm ▸ h.add _ _
  addContentType h hm _ _ _ := by
    obtain ⟨rfl, hmo⟩ := h
    exact hm ▸ ⟨rfl, hmo⟩
  openBlock h hm hl _ _ := hm ▸ hl ▸ h.openBlock _ _ _ _
  define h hm hl _ _ := hm ▸ hl ▸ (h.changeEscape _).openBlock _ _ _ _
  escape h hm hl _ _ _ := hm ▸ hl ▸ (h.changeEscape _).openBlock _ _ _ _
  divide h hm _ hopen _ := hm ▸ h.divide hopen _ _
  turn h hl hopen _ := hl ▸ h.turn hopen _
  close h hopen := h.close hopen
  length_le := by
    rintro b _ c _ ⟨rfl, -⟩ ⟨rfl, -⟩ hle
    rw [within, within, length_append, length_append]
    exact Nat.add_le_add_right hle _

/-- Open blocks that stand on the outer ones of `around`; some of the inner ones are gone. -/
def Rests (around frames : List Frame) : Prop :=
  ∃ gone fresh kept, around = gone ++ kept ∧ frames = fresh ++ kept

namespace Rests

variable {around frames : List Frame} {f : Frame}

theorem refl (around : List Frame) : Rests around around := ⟨[], [], around, rfl, rfl⟩

theorem cons (h : Rests around frames) (f : Frame) : Rests around (f :: frames) := by
  obtain ⟨gone, fresh, kept, rfl, rfl⟩ := h
  exact ⟨gone, f :: fresh, kept, rfl, rfl⟩

/-- The innermost block is a new one, or another one of those around is gone without it. -/
theorem tail (h : Rests around (f :: frames)) : Rests around frames := by
  obtain ⟨gone, fresh, kept, rfl, hf⟩ := h
  cases fresh with
  | nil =>
    subst hf
    exact ⟨gone ++ [f], [], frames, by simp, rfl⟩
  | cons g fresh =>
    obtain ⟨-, rfl⟩ := cons.inj hf
    exact ⟨gone, fresh, kept, rfl, rfl⟩

theorem replace (h : Rests around (f :: frames)) (g : Frame) : Rests around (g :: frames) :=
  h.tail.cons g

end Rests

theorem kept_rests (around : List Frame) {fs} :
    Kept ⟨Eq, Eq, fun b b' => b' = b ∧ Rests around b.frames⟩ (fun _ => True) (fun _ => True) fs
      (fun b b' => b' = b ∧ Rests around b.frames) where
  within h := h
  changed h _ := ⟨by rw [h.1], h.2⟩
  escape_eq h := by rw [h.1]
  block_eq h _ := by rw [h.1]
  add h hm _ _ := ⟨by rw [h.1, hm], h.2⟩
  addContentType h hm _ _ _ := ⟨by rw [h.1, hm], h.2⟩
  openBlock h hm hl _ _ := ⟨by rw [h.1, hm, hl], h.2.cons _⟩
  define h hm hl _ _ := ⟨by rw [h.1, hm, hl], h.2.cons _⟩
  escape h hm hl _ _ _ := ⟨by rw [h.1, hm, hl], h.2.cons _⟩
  divide {b _ _ _ _ _} h hm _ hopen _ := by
    refine ⟨by rw [h.1, hm], ?_⟩
    unfold divide
    cases hf : b.frames with
    | nil => exact absurd hf hopen
    | cons f rest => exact (hf ▸ h.2).replace _
  turn {b _ _ _} h hl hopen _ := by
    refine ⟨by rw [h.1, hl], ?_⟩
    unfold turn
    cases hf : b.frames with
    | nil => exact absurd hf hopen
    | cons f rest => exact (hf ▸ h.2).replace _
  close {b _} h hopen := by
    refine ⟨by rw [h.1], ?_⟩
    unfold close
    cases hf : b.frames with
    | nil => exact absurd hf hopen
    | cons f rest => exact (hf ▸ h.2).tail
  length_le h hlater hle := by
    rw [h.1, hlater.1]
    exact hle

end Builder

namespace Parse

variable {r : ParserSettings} {s s' : ParseState} {fuel : Nat} {x : Bytes}

/-- Readers at the same level, of which the first may find faults alone. -/
def faulty (R : Builder → Builder → Prop) : Pairing :=
  ⟨(· = some .parse), True, R, R, Eq, fun _ => True⟩

/-- Only faults can keep the first of two readers at the same level from what the second one does.
-/
theorem tolerant_faulty (R : Builder → Builder → Prop) : Tolerant (faulty R) where
  le h := Nat.le_of_eq h.symm
  succ h _ := congrArg (· + 1) h
  found h := by cases h
  blocks := .inl rfl
  depth := .inr fun _ _ h => h.symm
  finding := ⟨fun _ _ _ => trivial, fun _ _ _ => trivial⟩

theorem length_le_of_text (h : text fuel x r s = (.ok (), s')) :
    s'.builder.frames.length ≤ s.builder.frames.length := by
  cases fuel with
  | zero => cases h
  | succ fuel =>
    rw [text_eq] at h
    obtain ⟨_, t, -, hc⟩ := Program.bind_eq_ok h
    obtain ⟨hle, rfl⟩ := le_of_conclude hc
    exact hle

theorem rests_of_text (h : text fuel x r s = (.ok (), s')) :
    Builder.Rests s.builder.frames s'.builder.frames := by
  have hb : Both (faulty _) r (text fuel x) (text fuel x) :=
    both_text (p := faulty _) (kept_rests s.builder.frames) (readable_all r) (tolerant_faulty _)
      (.inr ⟨rfl, .inl trivial⟩) trivial
  have he := hb s s ⟨⟨rfl, .refl _⟩, .mk (b := s.builder) (d := s.depth) ⟨rfl, .refl _⟩ rfl trivial⟩
  rw [h] at he
  cases he with
  | ok h => exact h.2.1.2

/-- A text that is read in the middle of another one. It leaves the outer ones of the blocks around
it alone, and ends the inner ones or puts at most as many others in their place. If it can be read
where no block is open, it is read in the same way here, and all blocks are the same afterwards. -/
theorem blocks_text (fuel : Nat) (x : Bytes) (r : ParserSettings) (s : ParseState) :
    (∀ s', text fuel x r s = (.ok (), s') → ∃ gone fresh kept, s.builder.frames = gone ++ kept ∧
      s'.builder.frames = fresh ++ kept ∧ fresh.length ≤ gone.length) ∧
    ∀ own, text fuel x r { s with builder := s.builder.alone } = (.ok (), own) →
      own.builder.frames = [] ∧ text fuel x r s = (.ok (), { own with builder := { own.builder with
        frames := s.builder.frames, outermostEscape := s.builder.outermostEscape } }) := by
  refine ⟨fun s' hrun => ?_, fun own hown => ?_⟩
  · obtain ⟨gone, fresh, kept, hbefore, hafter⟩ := rests_of_text hrun
    refine ⟨gone, fresh, kept, hbefore, hafter, ?_⟩
    have hle := length_le_of_text hrun
    rw [hbefore, hafter, length_append, length_append] at hle
    exact Nat.le_of_add_le_add_right hle
  · have hnone : own.builder.frames = [] :=
      length_eq_zero_iff.mp (Nat.le_zero.mp (length_le_of_text hown))
    have hboth : Both (faulty _) r (text fuel x) (text fuel x) := both_text (p := faulty _)
      (kept_within s.builder.frames s.builder.outermostEscape) (readable_all r) (tolerant_faulty _)
      (.inr ⟨rfl, .inl trivial⟩) trivial
    have hends := hboth { s with builder := s.builder.alone } s
      ⟨s.builder.within_alone,
        .mk (b := s.builder) (d := s.depth) s.builder.within_alone rfl trivial⟩
    rw [hown] at hends
    obtain ⟨_, s', hrun, -, hwithin, hstate⟩ := hends.of_ok
    refine ⟨hnone, ?_⟩
    rw [hrun, hstate.rest, hwithin.eq, ← hstate.level, within, hnone, nil_append]

def insideBranch : ParseState where
  builder := (start .none).openBlock .branch 12 {} (.branch .branch ⟨.text [], none⟩)
  scope := ⟨.root, none, [], 0⟩

theorem blocks_text_of_branch : let r : ParserSettings :=
  ⟨Function.builtins, .table [], ascii "cs", false, false, {}⟩
    let x := ascii "<?cs if:1 ?>a<?cs else ?>b<?cs /if ?>c"
    ∃ own s', text 1 x r { insideBranch with builder := insideBranch.builder.alone } =
      (.ok (), own) ∧
      text 1 x r insideBranch = (.ok (), s') ∧ s'.builder.frames = insideBranch.builder.frames := by
  intro r x
  have hok : (text 1 x r { insideBranch with builder := insideBranch.builder.alone }).1.toBool =
      true := by
    decide +kernel
  generalize hrun : text 1 x r { insideBranch with builder := insideBranch.builder.alone } =
  last at hok
  obtain ⟨result, own⟩ := last
  cases result with
  | error e => cases hok
  | ok u => exact ⟨own, _, rfl, ((blocks_text 1 x r insideBranch).2 own hrun).2, rfl⟩

/-- A text that holds nothing but an `else` goes on with what stands otherwise in the block around
it. -/
theorem text_turns_block_around : let r : ParserSettings :=
  ⟨Function.builtins, .table [], ascii "cs", false, false, {}⟩
    let after := text 1 (ascii "<?cs else ?>") r insideBranch
    let s := Session.fresh .none .root (.table [(ascii "f", ascii "<?cs else ?>")])
      ⟨.text, 0, false, 0, false, false, false, none⟩
    let text := ascii "<?cs if:0 ?>a<?cs include:\"f\" ?>b<?cs /if ?>"
    after.1 = .ok () ∧ insideBranch.builder.frames.map (·.block) = [.branch] ∧
      after.2.builder.frames.map (·.block) = [.otherwise] ∧
      (s.parseText text text.length).2 = .ok () ∧ (s.parseText text text.length).1.render.2.1 =
      ascii "b" := by
  intro r after s text
  have hread : after.1.toBool = true := by decide +kernel
  have hblocks : insideBranch.builder.frames.map (·.block) = [.branch] ∧
      after.2.builder.frames.map (·.block) = [.otherwise] := by decide +kernel
  have hparse : (s.parseText text text.length).2.toBool = true := by decide +kernel
  have hrender : (s.parseText text text.length).1.render.2.1 = ascii "b" := by decide +kernel
  exact ⟨Session.eq_ok_of_toBool hread, hblocks.1, hblocks.2,
    Session.eq_ok_of_toBool hparse, hrender⟩

end Parse

end TemplateKit
