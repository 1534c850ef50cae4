import TemplateKit.Proofs.Data.LinkChain
import TemplateKit.Proofs.Template.Settling

/-!
# Recursion is bounded

Macros may call themselves, and files may include themselves when they are read and when they are
rendered. All the same a session with steady templates reads and renders to an end: there are never
more macro calls and late inclusions around each other than levels, and one more is a failure. An
item that is rendered without a failure leaves the level as it was.
-/

namespace TemplateKit

open Render Parse Action

namespace Render

variable {r : RenderSettings} {st st' : RenderState} {fuel : Nat} {i : Item}
  {items : List Item → Render Unit} {mark : Mark}

theorem depth_item (h : item fuel i r st = (.ok (), st')) : st'.depth = st.depth := by
  have hi : Agrees (fun _ => False) Eq none st.depth st.depth r r (items fuel [i])
      (items fuel [i]) :=
    rendersAlike_same (j := 0) ⟨id, .inr rfl⟩ (.inl rfl) r r (.same r) (fun _ => rfl)
      st.depth [i] [i] rfl
  have hrun : items fuel [i] r st = (.ok (), st') := (Program.bind_ok h _).trans rfl
  have he := hi st st ⟨rfl, rfl, rfl, fun _ hx => (Option.not_mem_none _ hx).elim, rfl,
    rfl, rfl, rfl⟩
  rw [hrun] at he
  cases he with
  | ok h => exact h.2.depth.1

/-- The variables of a call; arguments are evaluated from the first one on. -/
def parameters (params : List Bytes) (args : List Expr) : Render (List Local) :=
  (params.zip args).mapM fun p => parameter p.1 p.2

theorem depth_parameters {params args ls}
    (h : parameters params args r st = (.ok ls, st')) : st'.depth = st.depth := by
  have hs : Settles st.scope.data st.scope.globals st.depth r Any fun _ => parameters params args :=
    (settles_uniform {}).maps fun p => (settles_uniform {}).parameter p.1 p.2
  obtain ⟨n, last, hl, hrun⟩ := hs st ⟨rfl, rfl, rfl⟩
  have he := hrun ⟨n, n, deepestNesting, fun _ => pure ()⟩ ⟨Nat.le_refl n, Nat.le_refl n,
    Nat.le_add_left _ _⟩
  dsimp only at he
  rw [← he, h] at hl
  exact hl.2.depth

/-- A macro call at the deepest level fails once its parameters have values. -/
theorem call_at_deepest (hde : deepestNesting ≤ st.depth) {callee args m}
    (hfi : r.macros.find? (·.signature.name == callee) = some m) {ls}
    (hp : parameters m.signature.params args r
      { st with whenUndefined := modeOf mark st.whenUndefined } =
      (.ok ls, st')) :
    ∃ f t, call items mark callee args r st = (.error (.failure f), t) ∧
      f.kind = .maxRecursion := by
  have hl : deepestNesting ≤ st'.depth := (depth_parameters hp).symm ▸ hde
  have hb : ∀ text (body : Render Unit), ∃ f t, withLocals ls (deeper text body) r st' =
      (.error (.failure f), t) ∧
      f.kind = .maxRecursion := by
    intro text body
    have hin : deepestNesting ≤
        { st' with scope := { st'.scope with locals := ls ++
          st'.scope.locals } : RenderState }.depth := hl
    have hd := deeper_at_deepest (r := r) hin text body
    exact ⟨_, _, by simp only [withLocals, between, hd]; rfl, rfl⟩
  obtain ⟨f, t, hf, hk⟩ := hb ("execution of macro '" ++ callee ++ "' failed.")
    (noting ("execution of macro '" ++ callee ++ "' failed.") (items m.body))
  refine ⟨f, { t with whenUndefined := st.whenUndefined }, ?_, hk⟩
  have hi : (do
      let ls ← parameters m.signature.params args
      let note := ascii "execution of macro '" ++ callee ++ "' failed."
      withLocals ls (deeper note (noting note (items m.body))) : Render Unit) r
        { st with whenUndefined := modeOf mark st.whenUndefined } = (.error (.failure f), t) :=
    (Program.bind_ok hp _).trans hf
  rw [call_eq, callBy, between]
  rw [Program.read_bind, hfi]
  exact congrArg (fun last : Except Stop Unit × RenderState =>
    (last.1, { last.2 with whenUndefined := st.whenUndefined }))
    hi

end Render

namespace Session

/-- The sessions that can be come to with steady templates and files. -/
inductive Made : Session → Prop
  | create {data : Node} {source : Source} {place : MarkupPlace} {s : Session}
      (h : create data source place = .ok s) (hsource : source.Steady s.tag) : Made s
  | register {s s' : Session} {f : Function} (hs : Made s) (h : s.register f = .ok s') : Made s'
  | setData {s : Session} (hs : Made s) (data : Node) : Made (s.setData data)
  | setGlobals {s : Session} (hs : Made s) (globals : Option Node) : Made (s.setGlobals globals)
  | parseText {s : Session} (hs : Made s) {text : Bytes} (htext : SteadyText s.tag text)
      (length : Nat) :
      Made (s.parseText text length).1
  | parseFile {s : Session} (hs : Made s) (path : Option Bytes) : Made (s.parseFile path).1
  | render {s : Session} (hs : Made s) : Made s.render.1

variable {s : Session} {text : Bytes}

/-- Reads and builds steadily, from any level on. -/
def Reads (s : Session) (action : Parse Unit) : Prop :=
  Parse.Unstopped (·.Every isSteady) 0 s.settle.settings action

theorem parse_ends {action} (h : s.Reads action) (hs : s.reader.builder.Every isSteady) :
    (s.parse action).2 ≠ .error .exhausted ∧ (s.parse action).1.reader.builder.Every isSteady := by
  rw [← s.settle_builder] at hs
  obtain ⟨he, hr, -⟩ := h.ends hs (Nat.zero_le _)
  exact ⟨he, hr⟩

section

variable (h : s.source.Steady s.tag)

include h

theorem steady_settings : s.settle.settings.source.Steady s.settle.settings.tag := by
  unfold settings
  rw [s.settle_source, s.settle_tag]
  exact h

theorem reads_text (ht : SteadyText s.tag text) {fuel}
    (hf : deepestNesting < fuel) : s.Reads (Parse.text fuel text) := by
  have hr : SteadyText s.settle.settings.tag text := by
    unfold settings
    rw [s.settle_tag]
    exact ht
  exact unstopped_text (steady_settings h) hf hr

theorem parseText_ends (hs : s.reader.builder.Every isSteady)
    (ht : SteadyText s.tag text) (length : Nat) : (s.parseText text length).2 ≠ .error .exhausted ∧
      (s.parseText text length).1.reader.builder.Every isSteady := by
  obtain ⟨action, heq, hb⟩ := s.parseText_reads text length
  rw [heq]
  exact parse_ends (hb _ _ (reads_text h ht (by decide))) hs

/-- Texts need not be nested more deeply than there are levels. -/
theorem text_eq_of_lt (hs : s.reader.builder.Every isSteady)
    (ht : SteadyText s.tag text) {fuel} (hf : deepestNesting < fuel) :
    Parse.text fuel text s.settle.settings s.settle.reader =
      Parse.text (deepestNesting + 1) text s.settle.settings s.settle.reader := by
  rw [← s.settle_builder] at hs
  have he := (reads_text h ht (Nat.lt_succ_self _)).ends hs (Nat.zero_le _)
  exact Parse.continues_of_both (Parse.limited_text Parse.limited_none (.inr ⟨rfl, hf⟩) text) _ he.1

theorem parseFile_ends (hs : s.reader.builder.Every isSteady) (path : Option Bytes) :
    (s.parseFile path).2 ≠ .error .exhausted ∧
    (s.parseFile path).1.reader.builder.Every isSteady := by
  have hl : ∀ text, s.Reads (literal text) := fun _ => beside_literal
    (Pairing.lawful (unstopped _ 0) _) (Builder.kept_every fun _ => isSteady_iff.mpr) trivial
  obtain ⟨action, heq, hb⟩ := s.parseFile_reads path
  rw [heq]
  exact parse_ends (hb _ _ hl (unstopped_file (steady_settings h) (by decide) path)) hs

end

theorem Made.steady (hs : s.Made) : s.source.Steady s.tag ∧ s.reader.builder.Every isSteady := by
  induction hs with
  | create h hso =>
    obtain ⟨mode, -, rfl⟩ := eq_fresh_of_create h
    exact ⟨hso, .start rfl mode⟩
  | @register s s' f hs h ih =>
    obtain ⟨fs, rfl⟩ := eq_of_register h
    exact ih
  | setData hs data ih => exact ih
  | setGlobals hs globals ih => exact ih
  | @parseText s text hs ht length ih =>
    refine ⟨?_, (parseText_ends ih.1 ih.2 ht length).2⟩
    exact steady_settings ih.1
  | @parseFile s hs path ih =>
    refine ⟨?_, (parseFile_ends ih.1 ih.2 path).2⟩
    exact steady_settings ih.1
  | render hs ih => exact ih

/-- The rendering of a session ends by itself. -/
theorem render_settles (hs : s.reader.builder.Every isSteady)
    (hf : s.source.Steady (Configuration.tag s.data)) : ∃ n last, last.2.2 ≠ .error .exhausted ∧
      ∀ x : Render.Limits, x.Allows n s.reader.depth → s.renderBy x.items = last := by
  have hi := hs.template
  have hse : Render.SteadySettings s.data s.renderSettings := ⟨macrosOf_steady hi, hf⟩
  obtain ⟨n, last, hl, hrun⟩ := settles_items hse hi s.renderStart
    ⟨rfl, rfl, rfl⟩
  refine ⟨n, s.rendered last, ?_, fun x hx => congrArg s.rendered (hrun x hx)⟩
  obtain ⟨result, st⟩ := last
  cases result with
  | ok _ => rintro ⟨⟩
  | error e => exact fun he => hl (Except.error.inj he)

/-- A session with steady templates and files, over trees whose links form no cycle. Reading ends,
and rendering does: from some bounds on nothing depends on them, nor on what would be rendered
inside of more than 50 macro calls and late inclusions. At the fiftieth level there is no further
one. Every item that is rendered without a failure leaves the level as it was. Finding a name ends
as well: a larger bound on nested links finds nothing else. -/
theorem recursion_bounded (hs : s.Made) (hfiles : s.source.Steady (Configuration.tag s.data))
    (hdata : s.data.Acyclic) (hglobals : ∀ g ∈ s.globals, g.Acyclic) :
    (∀ text, SteadyText s.tag text → (∀ length, (s.parseText text length).2 ≠ .error .exhausted) ∧
      ∀ fuel, 50 < fuel → Parse.text fuel text s.settle.settings s.settle.reader =
        Parse.text nestingLimit text s.settle.settings s.settle.reader) ∧
    (∀ path, (s.parseFile path).2 ≠ .error .exhausted) ∧ (∃ n last, last.2.2 ≠ .error .exhausted ∧
      (∀ x : Render.Limits, n ≤ x.fuel → n ≤ x.width → 50 ≤ s.reader.depth + x.levels →
        s.renderBy x.items = last) ∧
      (n ≤ nestingLimit → n ≤ childLimit → s.render = last)) ∧
    (∀ (r : RenderSettings) (st : RenderState) items mark, 50 ≤ st.depth →
      (∀ fuel path, ∃ f, includeLater fuel items mark path r st = (.error (.failure f), st) ∧
        f.kind = .maxRecursion) ∧ ∀ callee args m ls st',
          r.macros.find? (·.signature.name == callee) = some m →
        parameters m.signature.params args r
          { st with whenUndefined := modeOf mark st.whenUndefined } = (.ok ls, st') →
        ∃ f t, call items mark callee args r st = (.error (.failure f), t) ∧
          f.kind = .maxRecursion) ∧
    (∀ fuel i r st st', item fuel i r st = (.ok (), st') → st'.depth = st.depth) ∧
    (∀ tree, tree = s.data ∨ tree ∈ s.globals → ∀ fuel name, tree.linkCount < fuel →
      tree.resolve fuel name = tree.resolve (tree.linkCount + 1) name) := by
  obtain ⟨hsource, hbuilder⟩ := hs.steady
  refine ⟨fun text htext => ⟨fun length => (parseText_ends hsource hbuilder htext length).1,
    fun fuel hfuel => ?_⟩,
    fun path => (parseFile_ends hsource hbuilder path).1, ?_,
      fun r st items mark hdepth => ⟨fun fuel path => ?_, ?_⟩,
    fun fuel i r st st' => depth_item, ?_⟩
  · exact (text_eq_of_lt hsource hbuilder htext hfuel).trans
      (text_eq_of_lt hsource hbuilder htext (show 50 < nestingLimit by decide)).symm
  · obtain ⟨n, last, hends, hrun⟩ := render_settles hbuilder hfiles
    refine ⟨n, last, hends, fun x hfuel hwidth hlevels => hrun x ⟨hfuel, hwidth, hlevels⟩,
      fun hfuel hwidth => ?_⟩
    let x : Render.Limits := ⟨nestingLimit, childLimit, nestingLimit, fun _ => pure ()⟩
    have hitems : x.items = Render.items nestingLimit := by
      funext is
      exact congrArg is.forM (itemWithin_eq _ (Nat.le_refl nestingLimit))
    rw [← s.renderBy_items, ← hitems]
    exact hrun x ⟨hfuel, hwidth, le_trans (by decide) (Nat.le_add_left nestingLimit s.reader.depth)⟩
  · exact ⟨_, deeper_at_deepest hdepth _ _, rfl⟩
  · exact fun callee args m ls st' hfind hparams => call_at_deepest hdepth hfind hparams
  · rintro tree (rfl | htree) fuel name hfuel
    · exact hdata.resolve_eq hfuel name
    · exact (hglobals tree htree).resolve_eq hfuel name

theorem source_parseText (s : Session) (text : Bytes) (length : Nat) :
    (s.parseText text length).1.source = s.source :=
  s.settle_source

theorem over_parseText (s : Session) (text : Bytes) (length : Nat) :
    Render.Over s.data s.globals (s.parseText text length).1.reader.scope := by
  refine parseText_spares (finding_over s.data s.globals) ?_
  unfold settle
  split <;> exact ⟨rfl, rfl⟩

def linkedTree : Node :=
  { Node.root with
    children := [⟨"A", some "1", false, [], []⟩, ⟨"L", some "A", true, [], []⟩] }

theorem linkedTree_acyclic : linkedTree.Acyclic := by
  have hta : linkedTree.linkTargets = [ascii "A"] := rfl
  refine Node.acyclic_of_direct fun t ht u hn => ?_
  rw [hta, List.mem_singleton] at ht
  subst ht
  cases hn with
  | root hs hli => cases hli
  | behind hli hl h => cases hli
  | plain hli h =>
    cases h with
    | link hf hli =>
      cases hf
      cases hli
    | behind hf hli hl h =>
      cases hf
      cases hli
    | plain hf hli h => cases h

/-- A macro that calls itself, and a file that includes itself. -/
theorem recursion_bounded_of_endless_recursion :
    let place : MarkupPlace := ⟨.text, 0, false, 0, false, false, false, none⟩
    let source := Source.table [(ascii "f", ascii "<?cs linclude:\"f\" ?>")]
    let text := ascii "<?cs def:m(x) ?><?cs call:m(x) ?><?cs /def ?>" ++
      ascii "<?cs if:L ?><?cs call:m(L) ?><?cs else ?><?cs linclude:\"f\" ?><?cs /if ?>"
    ∃ s₀ s, create linkedTree source place = .ok s₀ ∧ s = (s₀.parseText text text.length).1 ∧
      (s.Made ∧ s.source.Steady (Configuration.tag s.data) ∧ s.data.Acyclic ∧ ∀ g ∈ s.globals,
        g.Acyclic) ∧
      ∃ n last, last.2.2 ≠ .error .exhausted ∧ ∀ x : Render.Limits, n ≤ x.fuel → n ≤ x.width →
        50 ≤ s.reader.depth + x.levels → s.renderBy x.items = last := by
  intro place source text
  have hsource : source.Steady (Configuration.tag linkedTree) :=
    Source.steady_table (List.forall_mem_singleton.mpr (by decide +kernel))
  have hcreate : create linkedTree source place = .ok (fresh .undefined linkedTree source place) :=
    create_eq rfl source place
  have htext : SteadyText (fresh .undefined linkedTree source place).tag text := by decide +kernel
  generalize hs : ((fresh .undefined linkedTree source place).parseText text text.length).1 = s
  have hmade : s.Made := hs ▸ .parseText (.create hcreate hsource) htext text.length
  obtain ⟨htree, hnone⟩ : Render.Over linkedTree none s.reader.scope :=
    hs ▸ over_parseText _ text text.length
  have hsame : s.source = source := hs ▸ source_parseText _ text text.length
  have hfiles : s.source.Steady (Configuration.tag s.data) := by
    rw [data, htree, hsame]
    exact hsource
  have hdata : s.data.Acyclic := by
    rw [data, htree]
    exact linkedTree_acyclic
  have hglobals : ∀ g ∈ s.globals, g.Acyclic := by
    rw [globals, hnone]
    exact fun g hg => (Option.not_mem_none g hg).elim
  obtain ⟨-, -, ⟨n, last, hends, hrun, -⟩, -⟩ := recursion_bounded hmade hfiles hdata hglobals
  exact ⟨_, s, hcreate, hs.symm, ⟨hmade, hfiles, hdata, hglobals⟩, n, last, hends, hrun⟩

end Session

end TemplateKit
