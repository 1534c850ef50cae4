import TemplateKit.Proofs.Template.Repeat

/-!
# What can be seen of a template

A template shows itself when it is rendered: by what is written, by how the rendering ends, and by
the data that are left. Two sessions whose templates are alike cannot be told apart in this way, but
for the bound on nesting. Nor can a session be told from one some levels deeper, until it comes to
the deepest level.
-/

namespace TemplateKit

/-- What can be seen of a rendering from outside. -/
structure Outcome where
  output : Bytes
  /-- How the rendering ended. A failure is told by its kind; there is none at the bound on nesting.
  -/
  result : Except (Option Kind) Unit
  /-- The data that are left. -/
  data : Node
  globals : Option Node

/-- What can be seen of the session, the output and the end of a rendering. -/
def Outcome.of (rendered : Session × Bytes × Except Stop Unit) : Outcome where
  output := rendered.2.1
  result := rendered.2.2.mapError Stop.kind?
  data := rendered.1.data
  globals := rendered.1.globals

/-- Two renderings that end in the same way, whatever they remember besides. -/
structure EndsAlike (last last' : Except Stop Unit × RenderState) : Prop where
  result : last.1.mapError Stop.kind? = last'.1.mapError Stop.kind?
  scope : last.2.scope = last'.2.scope
  output : last.2.output = last'.2.output

namespace EndsAlike

variable {last last' last'' : Except Stop Unit × RenderState}

theorem refl (last : Except Stop Unit × RenderState) : EndsAlike last last := ⟨rfl, rfl, rfl⟩

theorem trans (h : EndsAlike last last') (h' : EndsAlike last' last'') : EndsAlike last last'' :=
  ⟨h.result.trans h'.result, h.scope.trans h'.scope, h.output.trans h'.output⟩

theorem symm (h : EndsAlike last last') : EndsAlike last' last :=
  ⟨h.result.symm, h.scope.symm, h.output.symm⟩

theorem of_agrees {L D e k k' r r' m m' st st'} (h : Render.Agrees L D e k k' r r' m m')
    (hD : D k k')
    (hst : st.Like (Depths k k') e st')
    (hl : ∀ x, (m r st).1.mapError Stop.kind? = .error x → ¬L x) :
    EndsAlike (m r st) (m' r' st') ∧ (m r st).2.Like D e (m' r' st').2 := by
  have he := h st st' hst
  generalize m r st = last at he hl
  generalize m' r' st' = last' at he
  cases he with
  | ok h =>
    refine ⟨⟨rfl, h.2.scope, h.2.output⟩, h.2.relax ?_⟩
    rintro n n' ⟨rfl, rfl⟩
    exact hD
  | error h => exact ⟨⟨congrArg Except.error h.1, h.2.scope, h.2.output⟩, h.2⟩
  | limit h => exact absurd h (hl _ rfl)

end EndsAlike

/-- Something that can be done with a template after it was read. -/
inductive Use
  | setData (data : Node)
  | setGlobals (globals : Option Node)
  | render

namespace Session

/-- What can be seen when a session is rendered. -/
def outcome (s : Session) : Outcome := .of s.render

theorem outcome_eq_of_endsAlike {s s' : Session} {last last' : Except Stop Unit × RenderState}
    (h : EndsAlike last last') :
    Outcome.of (s.rendered last) = Outcome.of (s'.rendered last') := by
  have ho : (s.rendered last).2.1 = (s'.rendered last').2.1 := h.output
  have hr : (s.rendered last).2.2.mapError Stop.kind? =
      (s'.rendered last').2.2.mapError Stop.kind? := h.result
  have hd : (s.rendered last).1.data = (s'.rendered last').1.data := congrArg Scope.data h.scope
  have hg : (s.rendered last).1.globals = (s'.rendered last').1.globals :=
    congrArg Scope.globals h.scope
  rw [Outcome.of, Outcome.of, ho, hr, hd, hg]

/-- The outcomes of all renderings, when one thing after the other is done with a template. -/
def outcomes (s : Session) : List Use → List Outcome
  | [] => []
  | .setData data :: us => (s.setData data).outcomes us
  | .setGlobals globals :: us => (s.setGlobals globals).outcomes us
  | .render :: us => s.outcome :: s.render.1.outcomes us

/-- Sessions with templates that are alike and with the same data. -/
structure Alike (s s' : Session) : Prop where
  settings : s.settings = s'.settings
  items : Item.Alike s.items s'.items
  scope : s.reader.scope = s'.reader.scope
  depth : s.reader.depth = s'.reader.depth
  logName : s.reader.logName = s'.reader.logName
  escaper : s.escaper = s'.escaper

namespace Alike

variable {s s' : Session}

theorem setData (h : s.Alike s') (data : Node) : (s.setData data).Alike (s'.setData data) :=
  { h with scope := by rw [Session.setData, Session.setData, h.scope] }

theorem setGlobals (h : s.Alike s') (globals : Option Node) :
    (s.setGlobals globals).Alike (s'.setGlobals globals) :=
  { h with scope := by rw [Session.setGlobals, Session.setGlobals, h.scope] }

/-- A template is rendered as one that is alike, where that may be nested one level more deeply. -/
theorem items_agree (h : s.Alike s') (hs : s.outcome.result ≠ .error none) :
    let last := Render.items nestingLimit s.items s.renderSettings s.renderStart
    let last' := Render.items (nestingLimit + 1) s'.items s'.renderSettings s'.renderStart
    EndsAlike last last' ∧ last.2.Like Eq none last'.2 := by
  have hm : s.renderSettings.macros.map Macro.core = s'.renderSettings.macros.map Macro.core := by
    unfold renderSettings
    rw [← Item.macrosOf_coreOf, ← Item.macrosOf_coreOf, h.items]
  have hl : s.renderSettings.loopLimit = s'.renderSettings.loopLimit :=
    congrArg (fun scope : Scope => Configuration.loopLimit scope.data) h.scope
  have hst : s.renderStart.Like (Depths s.reader.depth s.reader.depth) none s'.renderStart :=
    ⟨h.scope, rfl, h.escaper, fun _ hx => (Option.not_mem_none _ hx).elim, rfl, rfl, rfl,
      h.depth.symm⟩
  have ha := Render.agrees_alike h.items h.settings hm hl h.logName (fun _ => rfl) nestingLimit
    (k := s.reader.depth)
  refine EndsAlike.of_agrees ha rfl hst ?_
  rintro x hx rfl
  exact hs hx

theorem refl (s : Session) : s.Alike s := ⟨rfl, .refl _, rfl, rfl, rfl, rfl⟩

theorem trans {s''} (h : s.Alike s') (h' : s'.Alike s'') : s.Alike s'' where
  settings := h.settings.trans h'.settings
  items := h.items.trans h'.items
  scope := h.scope.trans h'.scope
  depth := h.depth.trans h'.depth
  logName := h.logName.trans h'.logName
  escaper := h.escaper.trans h'.escaper

theorem render (h : s.Alike s') (hs : s.outcome.result ≠ .error none)
    (hs' : s'.outcome.result ≠ .error none) :
    s.outcome = s'.outcome ∧ s.render.1.Alike s'.render.1 := by
  -- both are rendered as the second one with one level more
  obtain ⟨he, hl⟩ := h.items_agree hs
  obtain ⟨he', hl'⟩ := (Alike.refl s').items_agree hs'
  exact ⟨outcome_eq_of_endsAlike (he.trans he'.symm), { h with
    scope := hl.scope.trans hl'.scope.symm
    depth := hl.depth.trans hl'.depth.symm
    escaper := hl.escaper.trans hl'.escaper.symm }⟩

theorem outcomes_eq (h : s.Alike s') (us : List Use)
    (hs : ∀ o ∈ s.outcomes us, o.result ≠ .error none)
    (hs' : ∀ o ∈ s'.outcomes us, o.result ≠ .error none) : s.outcomes us = s'.outcomes us := by
  induction us generalizing s s' with
  | nil => rfl
  | cons u us ih =>
    cases u with
    | setData data => exact ih (h.setData data) hs hs'
    | setGlobals globals => exact ih (h.setGlobals globals) hs hs'
    | render =>
      obtain ⟨hf, hr⟩ := List.forall_mem_cons.mp hs
      obtain ⟨hf', hr'⟩ := List.forall_mem_cons.mp hs'
      obtain ⟨heq, ha⟩ := h.render hf hf'
      rw [outcomes, outcomes, heq, ih ha hr hr']

end Alike

section Lowered

variable {s s' : Session} {j : Nat}

def lowered (s : Session) (j : Nat) : Session :=
  { s with reader := { s.reader with depth := s.reader.depth + j } }

/-- A template that is rendered some levels deeper shows the same, unless it comes to the deepest
level. -/
theorem outcome_lowered (s : Session) (j : Nat) :
    (s.lowered j).outcome.result = .error (some .maxRecursion) ∨
      (s.lowered j).outcome = s.outcome ∧ (s.lowered j).render.1.Alike (s.render.1.lowered j) := by
  have hs : (s.lowered j).renderStart.Like (Depths (s.reader.depth + j) s.reader.depth) none
      s.renderStart :=
    ⟨rfl, rfl, rfl, fun _ hx => (Option.not_mem_none _ hx).elim, rfl, rfl, rfl, rfl⟩
  have hsa : Render.RendersAlike (· = some .maxRecursion) j none Eq (Render.items nestingLimit)
      (Render.items nestingLimit) :=
    Render.rendersAlike_same (L := (· = some .maxRecursion)) ⟨nofun, .inl rfl⟩ (.inl rfl)
  have ha := hsa _ _ (.same s.renderSettings) (fun _ => rfl) s.reader.depth s.items _ rfl
  by_cases hl : (s.lowered j).outcome.result = .error (some .maxRecursion)
  · exact .inl hl
  · obtain ⟨he, hli⟩ := EndsAlike.of_agrees ha (.add j _) hs (by rintro x hx rfl; exact hl hx)
    exact .inr ⟨outcome_eq_of_endsAlike he, rfl, .refl _, hli.scope, hli.depth, rfl, hli.escaper⟩

/-- A session that is like another one some levels deeper shows the same, whatever is done with it,
unless it comes to the deepest level. -/
theorem Alike.outcomes_lowered (h : s'.Alike (s.lowered j)) (us : List Use)
    (hs' : ∀ o ∈ s'.outcomes us, o.result ≠ .error none ∧ o.result ≠ .error (some .maxRecursion))
    (hs : ∀ o ∈ s.outcomes us, o.result ≠ .error none) : s'.outcomes us = s.outcomes us := by
  induction us generalizing s s' with
  | nil => rfl
  | cons u us ih =>
    cases u with
    | setData data => exact ih (h.setData data) hs' hs
    | setGlobals globals => exact ih (h.setGlobals globals) hs' hs
    | render =>
      obtain ⟨⟨hf', hle⟩, hr'⟩ := List.forall_mem_cons.mp hs'
      obtain ⟨hf, hr⟩ := List.forall_mem_cons.mp hs
      have hb : (s.lowered j).outcome.result ≠ .error none := by
        rcases outcome_lowered s j with hl | ⟨heq, -⟩
        · rw [hl]
          simp
        · rw [heq]
          exact hf
      obtain ⟨heq, ha⟩ := h.render hf' hb
      rcases outcome_lowered s j with hl | ⟨heq', ha'⟩
      · rw [heq] at hle
        exact absurd hl hle
      · rw [outcomes, outcomes, heq, heq', ih (ha.trans ha') hr' hr]

end Lowered

end Session

end TemplateKit
