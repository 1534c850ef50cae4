import TemplateKit.Proofs.Template.Equivalence
import TemplateKit.Proofs.Template.Reach
import TemplateKit.Proofs.Template.Regime
import TemplateKit.Proofs.Template.Session

/-!
# Rendering that can be repeated

A template that assigns nothing and reads no other template while it is rendered leaves the data as
they were, also where rendering fails. What else a rendering changes is undone at its end: the local
variables of blocks are gone, and a rendering that goes well comes back to the depth where it began.
So the template can be rendered again, with the same output.
-/

namespace TemplateKit

namespace Scope

theorem eq_of_fields {s t : Scope} (hd : s.data = t.data) (hg : s.globals = t.globals)
    (hl : s.locals = t.locals) (ht : s.tracking = t.tracking) : s = t := by
  cases s
  cases t
  simp_all

end Scope

namespace Render

/-- The scopes with `n` local variables and a property of the trees, also after a failure. Where the
property is a condition, nothing may be assigned. -/
def keeping (K : Scope → Prop) : Regime Nat where
  holds n s := s.locals.length = n ∧ K s
  failed n s := s.locals.length = n ∧ K s
  writes := ∀ s, K s

variable {K : Scope → Prop} (hK : ∀ s ls, K s → K { s with locals := ls })

include hK

theorem keeping_leads (n : Nat) (ls : List Local) : (keeping K).Leads ls n (ls.length + n) := by
  have hd : ∀ s, (keeping K).holds (ls.length + n) s →
      (keeping K).holds n { s with locals := s.locals.drop ls.length } := by
    intro s hs
    refine ⟨?_, hK s _ hs.2⟩
    rw [List.length_drop, hs.1, Nat.add_sub_cancel_left]
  refine ⟨fun s hs => ⟨?_, hK s _ hs.2⟩, hd, hd⟩
  rw [List.length_append, hs.1]

theorem keeping_lawful : (keeping K).Lawful := by
  have hl : ∀ (s : Scope) name v trust, (s.assign name v trust).1.locals.length = s.locals.length :=
    fun s name v trust => (s.moves_assign name v trust).length
  have hm : ∀ n k f s, (keeping K).holds n s →
      (keeping K).holds n { s with locals := s.locals.modify k f } :=
    fun n k f s hs => ⟨(List.length_modify ..).trans hs.1, hK s _ hs.2⟩
  exact {
    finding := fun n => Scope.KeptByRebinding.finding fun s k p target seen => hm n k _ s
    fails := fun _ _ hs => hs
    assign := fun hall n s name v trust hs _ => ⟨(hl s name v trust).trans hs.1, hall _⟩
    assignFails := fun hall n s name v trust hs => ⟨(hl s name v trust).trans hs.1, hall _⟩
    inside := fun n l _ => ⟨_, keeping_leads hK n [l], fun f _ => hm _ 0 f⟩ }

end Render

namespace Session

/-- The sessions that can be come to. -/
inductive Attained : Session → Prop
  | create {data : Node} {source : Source} {place : MarkupPlace} {s : Session}
      (h : create data source place = .ok s) : Attained s
  | register {s s' : Session} {f : Function} (hs : Attained s) (h : s.register f = .ok s') :
      Attained s'
  | setData {s : Session} (hs : Attained s) (data : Node) : Attained (s.setData data)
  | setGlobals {s : Session} (hs : Attained s) (globals : Option Node) :
      Attained (s.setGlobals globals)
  | parseText {s : Session} (hs : Attained s) (text : Bytes) (length : Nat) :
      Attained (s.parseText text length).1
  | parseFile {s : Session} (hs : Attained s) (path : Option Bytes) : Attained (s.parseFile path).1
  | render {s : Session} (hs : Attained s) : Attained s.render.1

variable {s : Session}

theorem settle_locals (s : Session) : s.settle.reader.scope.locals = s.reader.scope.locals := by
  unfold settle
  split <;> rfl

theorem keeps_render {K} (hK : ∀ s ls, K s → K { s with locals := ls }) (hs : K s.reader.scope)
    (hit : ∀ i ∈ s.items, (Render.keeping K).Allows i) :
    s.render.1.reader.scope.locals.length = s.reader.scope.locals.length ∧
    K s.render.1.reader.scope := by
  have hma : ∀ m ∈ s.renderSettings.macros, ∀ i ∈ m.body, (Render.keeping K).Allows i := by
    intro m hm i hi
    obtain ⟨j, hj, hmj⟩ := Item.mem_macrosOf.mp hm
    exact (hit j hj).imp_left fun h => Item.every_macros h m hmj i hi
  have hl := Render.keeping_lawful hK
  obtain ⟨-, he⟩ := Program.through (fun i hi =>
    hl.keeps_item (fun n ls => ⟨_, Render.keeping_leads hK n ls⟩) nestingLimit
    hma (hit i hi) s.renderStart.whenUndefined) s.renderStart ⟨⟨rfl, hs⟩, rfl⟩
  exact he.state.1

/-- Between readings and renderings no local variable is left. -/
theorem Attained.locals_eq_nil (h : s.Attained) : s.reader.scope.locals = [] := by
  have hf : Scope.KeptByFinding fun s => s.locals = [] := by
    apply Scope.KeptByRebinding.finding
    intro s k p target seen hs
    simp [Scope.rebind, hs]
  induction h with
  | create h =>
    obtain ⟨mode, -, rfl⟩ := eq_fresh_of_create h
    rfl
  | @register s s' f hs h ih =>
    obtain ⟨fs, rfl⟩ := eq_of_register h
    exact ih
  | setData hs data ih => exact ih
  | setGlobals hs globals ih => exact ih
  | parseText hs text length ih => exact parseText_spares hf ((settle_locals _).trans ih)
  | parseFile hs path ih => exact parseFile_spares hf ((settle_locals _).trans ih)
  | @render s hs ih =>
    have hk := keeps_render (s := s) (K := fun _ => True) (fun _ _ _ => trivial) trivial
      fun _ _ => .inr fun _ => trivial
    rw [ih] at hk
    exact List.eq_nil_of_length_eq_zero hk.1

/-- The content types that were in effect make no difference to a rendering. -/
theorem render_contentTypes (ha : s.settings.auto.enabled = false) (types : List Nat)
    (h : s.render.2.2 = .ok ()) :
    ({ s with contentTypes := types } : Session).render.2 = s.render.2 ∧
    s.render.1.escaper = s.escaper ∧
      s.render.1.reader.depth = s.reader.depth := by
  have hs : s.renderStart.Like (Depths s.reader.depth s.reader.depth) (some s.escaper)
      ({ s with contentTypes := types } : Session).renderStart :=
    ⟨rfl, rfl, rfl, by simp [renderStart], rfl, rfl, rfl, rfl⟩
  have hoff : s.renderSettings.parser.auto.enabled = true → some s.escaper = none := fun hon => by
    cases ha.symm.trans hon
  have hsa : Render.RendersAlike (fun _ => False) 0 (some s.escaper) Eq (Render.items nestingLimit)
      (Render.items nestingLimit) := Render.rendersAlike_same ⟨id, .inr rfl⟩ (.inl rfl)
  have he := hsa _ _ (.same _) hoff s.reader.depth s.items s.items rfl _ _ hs
  have hr : s.render =
      s.rendered (Render.items nestingLimit s.items s.renderSettings s.renderStart) := rfl
  have hr' : ({ s with contentTypes := types } : Session).render =
      ({ s with contentTypes := types } : Session).rendered
        (Render.items nestingLimit s.items s.renderSettings
        ({ s with contentTypes := types } : Session).renderStart) := rfl
  rw [hr] at h
  rw [hr, hr']
  generalize Render.items nestingLimit s.items s.renderSettings s.renderStart = last at h he
  obtain ⟨result, st⟩ := last
  obtain rfl : result = .ok () := h
  obtain ⟨_, st', heq, -, hl⟩ := he.of_ok
  rw [heq]
  refine ⟨Prod.ext hl.output.symm rfl, hl.kept _ rfl, hl.depth.1⟩

/-- A template that assigns nothing and reads no other template when it is rendered leaves the data
and the global tree as they were, and a rendering that goes well can be repeated with the same
output. -/
theorem render_repeatable (h : s.Attained) (hitems : Item.everyOf Action.readsOnly s.items = true)
    (hauto : s.settings.auto.enabled = false) : s.render.1.data = s.data ∧
    s.render.1.globals = s.globals ∧
      (s.render.2.2 = .ok () → s.render.1.render.2 = s.render.2) := by
  have hkept : s.render.1.reader.scope.locals.length = s.reader.scope.locals.length ∧
      s.render.1.reader.scope.data = s.data ∧ s.render.1.reader.scope.globals = s.globals ∧
      s.render.1.reader.scope.tracking = s.reader.scope.tracking :=
    keeps_render
      (K := fun t => t.data = s.data ∧ t.globals = s.globals ∧ t.tracking = s.reader.scope.tracking)
      (fun _ _ ht => ht) ⟨rfl, rfl, rfl⟩ fun i hi => .inl (Item.everyOf_iff.mp hitems i hi)
  obtain ⟨hlocals, hdata, hglobals, htracking⟩ := hkept
  refine ⟨hdata, hglobals, fun hok => ?_⟩
  have hscope : s.render.1.reader.scope = s.reader.scope := by
    have hnil := h.locals_eq_nil
    rw [hnil] at hlocals
    exact Scope.eq_of_fields hdata hglobals
      ((List.eq_nil_of_length_eq_zero hlocals).trans hnil.symm) htracking
  obtain ⟨-, hescaper, hdepth⟩ := render_contentTypes hauto [] hok
  have hsame : s.render.1 = { s with
      reader := { s.reader with scope := s.render.1.reader.scope, depth := s.render.1.reader.depth }
      escaper := s.render.1.escaper
      contentTypes := s.render.1.contentTypes } := rfl
  rw [hscope, hdepth, hescaper] at hsame
  rw [hsame]
  exact (render_contentTypes hauto _ hok).1

/-- A template with a macro and loops, over the data and the global tree. -/
theorem render_repeatable_macro :
    let data : Node := ⟨[], none, false, [],
      [⟨ascii "L", none, false, [], [⟨ascii "0", some (ascii "a"), false, [], []⟩,
      ⟨ascii "1", some (ascii "b"), false, [], []⟩]⟩]⟩
    let globals : Node := ⟨[], none, false, [], [⟨ascii "Site", some (ascii "s"), false, [], []⟩]⟩
    let place : MarkupPlace := ⟨.text, 0, false, 0, false, false, false, none⟩
    let text := ascii "<?cs def:show(x) ?>[<?cs var:x ?><?cs loop:n = 1, 2 ?><?cs var:n ?>" ++
      ascii "<?cs /loop ?>]<?cs /def ?><?cs each:i = L ?><?cs call:show(i) ?><?cs /each ?>" ++
      ascii "<?cs with:w = Site ?><?cs var:w ?><?cs /with ?>"
    ∃ s₀ s : Session, create data (.table []) place = .ok s₀ ∧
      s = ((s₀.setGlobals (some globals)).parseText text text.length).1 ∧ s.Attained ∧
      Item.everyOf Action.readsOnly s.items = true ∧ s.settings.auto.enabled = false ∧
      s.render.2.2 = .ok () ∧
      s.render.2.1 = ascii "[a12][b12]s" ∧ s.render.1.data = s.data ∧
      s.render.1.globals = s.globals ∧
      (s.render.2.2 = .ok () → s.render.1.render.2 = s.render.2) := by
  intro data globals place text
  let s₀ := fresh .undefined data (.table []) place
  let s := ((s₀.setGlobals (some globals)).parseText text text.length).1
  have hcreate : create data (.table []) place = .ok s₀ := create_eq rfl _ _
  have hattained : s.Attained := ((Attained.create hcreate).setGlobals _).parseText _ _
  have hreads : Item.everyOf Action.readsOnly s.items = true := by decide +kernel
  have hauto : s.settings.auto.enabled = false := by decide +kernel
  have hoks : s.render.2.2.toBool = true := by decide +kernel
  refine ⟨s₀, s, hcreate, rfl, hattained, hreads, hauto, eq_ok_of_toBool hoks,
    by decide +kernel, ?_⟩
  exact render_repeatable hattained hreads hauto

end Session

/-!
However the rendering of any item ends, the local variables are afterwards those that were there
before, whatever they then stand for. The mode for items that have none is what it was.
-/

namespace Scope

def names (s : Scope) : List Bytes := s.locals.map (·.name)

theorem names_modify {s : Scope} {k : Nat} {f : Local → Local} (hf : ∀ l, (f l).name = l.name) :
    ({ s with locals := s.locals.modify k f } : Scope).names = s.names := by
  unfold names
  induction s.locals generalizing k with
  | nil => cases k <;> rfl
  | cons l ls ih =>
    cases k with
    | zero => simp [hf]
    | succ k => simp [ih]

end Scope

namespace Render

def named : Regime (List Bytes) where
  holds ns s := s.names = ns
  failed ns s := s.names = ns
  writes := True

theorem named_leads (ns : List Bytes) (ls : List Local) :
    named.Leads ls ns (ls.map (·.name) ++ ns) := by
  have hl : ∀ s : Scope, s.names = ls.map (·.name) ++ ns →
      (s.locals.drop ls.length).map (·.name) = ns := by
    intro s hs
    rw [List.map_drop, ← Scope.names, hs, ← List.length_map (·.name), List.drop_left]
  exact ⟨fun s hs => List.map_append.trans (congrArg _ hs), hl, hl⟩

theorem named_lawful : named.Lawful where
  finding ns := by
    refine Scope.KeptByRebinding.finding fun s k p target seen hs => Eq.trans ?_ hs
    exact Scope.names_modify fun _ => rfl
  fails _ _ hs := hs
  assign _ ns s name v trust hs _ := (s.moves_assign name v trust).names.trans hs
  assignFails _ ns s name v trust hs := (s.moves_assign name v trust).names.trans hs
  inside ns l _ := by
    refine ⟨_, named_leads ns _, fun f hf s hs => Eq.trans ?_ hs⟩
    exact Scope.names_modify fun _ => by cases hf <;> rfl

/-- Every item leaves the variables and the mode as it found them, in whatever state it is rendered
and however that ends, at every depth of blocks, macros and templates inside of it. -/
theorem item_restores_scope (fuel : Nat) (i : Item) (r : RenderSettings) (st : RenderState) :
    (item fuel i r st).2.scope.names = st.scope.names ∧ (item fuel i r st).2.whenUndefined =
    st.whenUndefined := by
  obtain ⟨-, hends⟩ := named_lawful.keeps_item (fun ns ls => ⟨_, named_leads ns ls⟩) fuel (x := i)
    (fun _ _ _ _ => .inr trivial) (.inr trivial) st.whenUndefined st ⟨rfl, rfl⟩
  exact hends.state

end Render

end TemplateKit
