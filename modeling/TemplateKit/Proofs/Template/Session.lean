import TemplateKit.Proofs.Template.Beside
import TemplateKit.Proofs.Template.Render
import TemplateKit.Template.Session

/-!
# Reading and rendering in a session

What reading and rendering do to a session, in terms of the programs that they run.
-/

namespace TemplateKit.Session

open Configuration Parse

@[simp]
theorem settle_functions (s : Session) : s.settle.functions = s.functions := by
  unfold settle
  split <;> rfl

@[simp]
theorem settle_tag (s : Session) : s.settle.tag = s.tag := by
  unfold settle
  split <;> rfl

theorem settle_source (s : Session) : s.settle.source = s.source := by
  unfold settle
  split <;> rfl

@[simp]
theorem settle_builder (s : Session) : s.settle.reader.builder = s.reader.builder := by
  unfold settle
  split <;> rfl

theorem eq_ok_of_toBool {result : Except Stop Unit} (h : result.toBool = true) :
    result = .ok () := by
  cases result with
  | ok _ => rfl
  | error e => cases h

/-- The session with an empty template and the escape mode `mode`. -/
def fresh (mode : EscapeMode) (data : Node) (source : Source) (place : MarkupPlace) : Session where
  source := source
  functions := Function.builtins
  tag := Configuration.tag data
  audits := Configuration.audits data
  marksFiles := Configuration.marksFiles data
  debugTemplate := Configuration.debugTemplate data
  auto := none
  reader := { builder := .start mode, scope := ⟨data, none, [], 0⟩ }
  escaper := ⟨place, false⟩

theorem create_eq {data mode} (h : Configuration.escapeMode data = .ok mode) (source : Source)
    (place : MarkupPlace) : create data source place = .ok (fresh mode data source place) := by
  rw [create, h]
  rfl

theorem eq_fresh_of_create {data source place s} (h : create data source place = .ok s) :
    ∃ mode, escapeMode data = .ok mode ∧ s = fresh mode data source place := by
  cases hm : escapeMode data with
  | error f =>
    rw [create, hm] at h
    cases h
  | ok mode =>
    rw [create_eq hm] at h
    exact ⟨mode, rfl, (Except.ok.inj h).symm⟩

theorem eq_of_register {s s' : Session} {f : Function} (h : s.register f = .ok s') :
    ∃ functions, s' = { s with functions } := by
  unfold register at h
  cases hfs : Function.register s.functions f with
  | error x =>
    rw [hfs] at h
    cases h
  | ok fs =>
    rw [hfs] at h
    exact ⟨fs, (Except.ok.inj h).symm⟩

theorem parse_eq (s : Session) (action : Parse Unit) :
    s.parse action = ({ s.settle with reader := (action s.settle.settings s.settle.reader).2 },
      (action s.settle.settings s.settle.reader).1) := rfl

variable {s : Session} {I : Scope → Prop}

/-- What reading a text keeps is kept in a session. -/
theorem parseText_reads (s : Session) (x : Bytes) (length : Nat) :
    ∃ action, s.parseText x length = s.parse action ∧
    ∀ p r, Both p r (text nestingLimit x) (text nestingLimit x) → Both p r action action := by
  refine ⟨_, rfl, fun p r h => ?_⟩
  split
  · exact h
  · exact beside_fails

theorem parseFile_reads (s : Session) (path : Option Bytes) :
    ∃ action, s.parseFile path = s.parse action ∧
    ∀ p r, (∀ x, Both p r (literal x) (literal x)) →
      Both p r (file (text nestingLimit) path) (file (text nestingLimit) path) →
      Both p r action action := by
  refine ⟨_, rfl, fun p r hl h => .optionally (hl _) (.next h fun _ => ?_)⟩
  split
  · cases s.debugText with
    | error f => exact beside_fails
    | ok found => exact .next (hl _) fun _ => hl _
  · exact .returns rfl

theorem parseText_spares (hI : Scope.KeptByFinding I) {text length} (hs : I s.settle.reader.scope) :
    I (s.parseText text length).1.reader.scope := by
  obtain ⟨action, heq, hb⟩ := s.parseText_reads text length
  rw [heq]
  exact Parse.Spares.scope (hb _ _ (spares_text hI)) hs

theorem parseFile_spares (hI : Scope.KeptByFinding I) {path} (hs : I s.settle.reader.scope) :
    I (s.parseFile path).1.reader.scope := by
  obtain ⟨action, heq, hb⟩ := s.parseFile_reads path
  rw [heq]
  exact Parse.Spares.scope (hb _ _ (fun _ => spares_literal) (spares_file hI)) hs

def renderSettings (s : Session) : RenderSettings :=
  ⟨s.settings, Item.macrosOf s.items, loopLimit s.data, s.reader.whereabouts, s.reader.logName⟩

def renderStart (s : Session) : RenderState :=
  ⟨s.reader.scope, [], s.escaper, 0, s.reader.depth, .undefined, s.contentTypes⟩

/-- What comes out of a rendering that ended in some way. -/
def rendered (s : Session) (last : Except Stop Unit × RenderState) :
    Session × Bytes × Except Stop Unit :=
  ({ s with
      reader := { s.reader with scope := last.2.scope, depth := last.2.depth }
      escaper := last.2.escaper
      contentTypes := last.2.contentTypes.eraseDups },
    last.2.written.reverse.flatten, last.1)

/-- Renders the template with another way of rendering items. -/
def renderBy (items : List Item → Render Unit) (s : Session) : Session × Bytes × Except Stop Unit :=
  s.rendered (items s.items s.renderSettings s.renderStart)

theorem renderBy_items (s : Session) : s.renderBy (Render.items nestingLimit) = s.render := rfl

/-- Ways of rendering that agree on the items of a session give the same session and the same
output. -/
theorem renderBy_couples {I J} (items items' : List Item → Render Unit)
    (h : Couples (Render.On I) (items s.items s.renderSettings) (items' s.items s.renderSettings)
      (fun _ => Render.On J) (Render.On J)) (hs : I s.reader.scope [] .undefined) :
    s.renderBy items' = s.renderBy items ∧ ∃ written mode,
      (s.renderBy items).2.1 = written.reverse.flatten ∧
      J (s.renderBy items).1.reader.scope written mode := by
  obtain ⟨heq, he⟩ := h s.renderStart hs
  unfold renderBy
  rw [← heq]
  exact ⟨rfl, _, _, rfl, he.state⟩

end TemplateKit.Session
