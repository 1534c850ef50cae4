import TemplateKit.Proofs.Template.Reference

/-!
# Macro calls

A rendering is monitored: each macro call is kept with its parameters while its body is rendered,
and before each item all of these calls are looked at. An alarm for a parameter that does not stand
for its node by reference never goes off, in whatever state a template is rendered.
-/

namespace TemplateKit

open Program Scope Render List

namespace Render

variable {free : Prop} {calls : List MacroCall} {r : RenderSettings} {mark : Mark} {callee : Bytes}
  {args : List Expr}

section Regime

/-- The scopes with the variables that a block began with, among them the parameters of some calls.
-/
def referring (free : Prop) (calls : List MacroCall) :
    Regime { ls₀ : List Local // ∀ f ∈ calls, f.In ls₀ } where
  holds ls₀ s := s.Referring free ls₀.1
  failed _ _ := True
  writes := True

theorem referring_lawful (free : Prop) (calls : List MacroCall) :
    (referring free calls).Lawful where
  finding i := finding_of_near (fun _ hs => hs.nested) fun _ _ hs => hs.near
  fails _ _ _ := trivial
  assign _ i s name v trust hs hok :=
    hs.moves (s.moves_assign name v trust) fun hf => (hs.plain hf).assign hs.nested hok
  assignFails _ _ _ _ _ _ _ := trivial
  inside i l hl := by
    refine ⟨⟨[l] ++ i.1, fun f hf => (i.2 f hf).append [l]⟩,
      ⟨fun s hs => ?_, fun s => Scope.Referring.leave [l],
      fun _ _ => trivial⟩, fun f hf s hs => Scope.Referring.modify hs fun l' hl' => ?_⟩
    · -- the variable of a block has no name behind it
      apply Scope.Referring.enter hs
      rw [forall_mem_singleton]
      cases hl with
      | each | withAs => exact ⟨Nat.zero_le _, fun _ ht => absurd rfl ht⟩
      | loop => exact ⟨Nat.zero_le _, fun _ => trivial⟩
    · cases hf with
      | each x c k =>
        refine ⟨⟨?_, fun ho => absurd rfl (ho none [] 0)⟩, rfl, fun names ht => absurd rfl ht⟩
        rintro place target n ⟨⟩
        exact ⟨some c, rfl, fun hfi => nomatch hfi rfl⟩
      | loop x n m isFirst isLast =>
        have ho := hl'.other (by simp)
        obtain ⟨name, binding, isFirst', isLast'⟩ := l'
        cases binding with
        | node p target n => exact absurd rfl (ho p target n)
        | text | number => exact ⟨⟨by simp, by simp [nextRound]⟩, rfl, fun _ => trivial⟩

end Regime

section Binding

variable {s₁ s : Scope} {ls₀ : List Local}

/-- What is bound to a parameter from a scope: all of its variables can be seen, and the node is
what the name stands for there. -/
structure Passed (free : Prop) (s₁ : Scope) (b : Binding) : Prop where
  sees : ∀ first target n, b = .node first target n → n = s₁.locals.length
  fits : free → b.Fits s₁.named

/-- Between the parameters of a call names stand for what they stood for at the call. -/
structure Between (free : Prop) (ls₀ : List Local) (s₁ s : Scope) : Prop where
  referring : s.Referring free ls₀
  named : s.named = s₁.named

theorem Between.finding : Scope.KeptByFinding (Between free ls₀ s₁) := by
  refine finding_of_near (fun s hs => hs.referring.nested) fun s s' hs hn =>
    ⟨hs.referring.near hn, ?_⟩
  exact (funext₂ (hn.named hs.referring.nested)).trans hs.named

theorem passed_other {b} (h : ∀ p target n, b ≠ .node p target n) : Passed free s₁ b := by
  refine ⟨fun first target n hb => absurd hb (h first target n), fun _ => ?_⟩
  cases b with
  | node p target n => exact absurd rfl (h p target n)
  | text | number => trivial

theorem Between.passed (h : Between free ls₀ s₁ s) (hs₁ : s₁.locals.length = ls₀.length)
    (target : Bytes) :
    Passed free s₁ (.node (findPlace target s).1 target s.locals.length) := by
  have hl : s.locals.length = s₁.locals.length := h.referring.length.trans hs₁.symm
  constructor
  · rintro first target n ⟨⟩
    exact hl
  · intro _ _
    rw [findPlace_named h.referring.nested, h.named]
    exact .refl _

/-- The states on the way from the call in the scope `s₁`, with the mode `u` for items that have
none. -/
def betweenIn (free : Prop) (ls₀ : List Local) (s₁ : Scope) (u : EscapeMode) : Invariant :=
  fun s _ mode => Between free ls₀ s₁ s ∧ mode = u

theorem after_parameter_between (hs₁ : s₁.locals.length = ls₀.length) (u : EscapeMode) (x : Bytes)
    (e : Expr) :
    Gives (fun l => l.isFirst = false ∧
      Passed free s₁ l.binding) (betweenIn free ls₀ s₁ u) (fun _ _ _ => True) r
      (parameter x e) := by
  have hst : Stable (betweenIn free ls₀ s₁ u) := fun _ _ => Between.finding.and _
  have he : Keeps (betweenIn free ls₀ s₁ u) (fun _ _ _ => True) r (eval e.eval) :=
    after_eval fun w mode => ((hst w mode).eval e).conseq (fun _ hs => hs) (fun _ _ hs => hs)
      fun _ _ => trivial
  refine andThen he fun v => ?_
  have hb : Gives (Passed free s₁) (betweenIn free ls₀ s₁ u) (fun _ _ _ => True) r
      (bindParameter v) := by
    apply after_bindParameter hst
    · intro s trust _
      exact passed_other (by simp)
    · intro n
      exact passed_other (by simp)
    · intro s w u _ l _ t trust assigned _
      exact passed_other (by simp)
    · intro s w u hs target
      exact hs.1.passed hs₁ target
  exact andThen hb fun b => returns fun _ hs => ⟨⟨rfl, hs.1⟩, hs.2⟩

theorem Between.enter {ls} (h : Between free ls₀ s₁ s) (hs₁ : s₁.locals.length = ls₀.length)
    (hls : ∀ l ∈ ls, l.isFirst = false ∧ Passed free s₁ l.binding) :
    ({ s with locals := ls ++ s.locals } : Scope).Referring free (ls ++ ls₀) := by
  have hle : s.locals.length = s₁.locals.length := h.referring.length.trans hs₁.symm
  apply h.referring.enter
  intro l hl
  obtain ⟨-, hp⟩ := hls l hl
  constructor
  · cases hb : l.binding with
    | node first target n => exact Nat.le_of_eq ((hp.sees first target n hb).trans hle.symm)
    | text | number => exact Nat.zero_le _
  · rw [h.named]
    exact hp.fits

end Binding

/-- A call is kept with its parameters while its body is rendered. -/
theorem couple_callBy {items body} (i : { ls₀ : List Local // ∀ f ∈ calls, f.In ls₀ })
    (hbo : ∀ ls, ∀ hls : ∀ f ∈ ⟨i.1.length, ls⟩ :: calls, f.In (ls ++ i.1), ∀ is,
      (referring free (⟨i.1.length, ls⟩ :: calls)).Couple ⟨ls ++ i.1,
        hls⟩ r (items is) (body ls is)) :
    (referring free calls).Couple i r (call items mark callee args)
    (callBy body mark callee args) := by
  rintro mode st ⟨hst, hm⟩
  have hs₁ : st.scope.locals.length = i.1.length := Scope.Referring.length hst
  refine couples_callBy (G := fun s _ u => s = st.scope ∧ u = mode)
    (J := betweenIn free i.1 st.scope (modeOf mark mode))
    (H := (referring free calls).on i (modeOf mark mode))
    (D := fun _ _ _ => True) (B := fun l => l.isFirst = false ∧
      Passed free st.scope l.binding) ?_ ?_ ?_ ?_ ?_ ?_ st ⟨rfl, hm⟩
  · rintro s w u ⟨rfl, rfl⟩
    exact ⟨⟨hst, rfl⟩, rfl⟩
  · intro s w u hs
    exact ⟨hs.1.referring, hs.2⟩
  · intro s₀ w₀ u s w u' hs₀ hs
    exact ⟨hs.1, hs₀.2⟩
  · intro s₀ w₀ u s w u' hs₀ _
    exact ⟨trivial, hs₀.2⟩
  · intro x e _
    exact after_parameter_between hs₁ _ x e
  · intro ls hls
    have hin : ∀ f ∈ ⟨i.1.length, ls⟩ :: calls, f.In (ls ++ i.1) := by
      intro f hf
      rcases mem_cons.mp hf with rfl | hf
      · refine ⟨⟨[], i.1, rfl, rfl⟩, fun l hl => ⟨(hls l hl).1, fun first target n hb => ?_⟩⟩
        exact ((hls l hl).2.sees first target n hb).trans hs₁
      · exact (i.2 f hf).append ls
    refine ⟨_, _, ⟨fun s w u hs => ⟨hs.1.enter hs₁ hls, hs.2⟩, fun s w u hs => ⟨?_, hs.2⟩,
      fun _ _ _ _ => trivial⟩,
      fun _ _ _ hs => ⟨trivial, hs.2⟩, fun m _ => hbo ls hin m.body (modeOf mark mode)⟩
    exact Scope.Referring.leave ls hs.1

/-- Renders one item while macro calls are monitored: the alarm goes off where an item is rendered
in a scope in which not all of the calls around it are as `P` says. -/
def monitored (P : List MacroCall → Scope → Prop) [∀ calls s, Decidable (P calls s)]
    (alarm : Stop) :
    (fuel : Nat) → List MacroCall → Item → Render Unit
  | 0, _, _ => throw .exhausted
  | fuel + 1, calls, x => do
    let s := (← get).scope
    if P calls s then
      match x.action with
      | .call callee args =>
        callBy (fun ls is => is.forM (monitored P alarm fuel (⟨s.locals.length, ls⟩ :: calls)))
          x.mark callee args
      | _ => action fuel (fun is => is.forM (monitored P alarm fuel calls)) x
    else throw alarm

section Monitoring

variable {P : List MacroCall → Scope → Prop} [∀ calls s, Decidable (P calls s)] {alarm : Stop}
  {fuel : Nat} {x : Item} {st : RenderState} (hP : P calls st.scope)

include hP

theorem monitored_call (hx : x.action = .call callee args) :
    monitored P alarm (fuel + 1) calls x r st =
    callBy (fun ls is => is.forM (monitored P alarm fuel (⟨st.scope.locals.length, ls⟩ :: calls)))
      x.mark callee args
      r st := by
  obtain ⟨mark, act, body, otherwise⟩ := x
  obtain rfl : act = .call callee args := hx
  have hu : monitored P alarm (fuel + 1) calls ⟨mark, .call callee args, body, otherwise⟩ r st =
      (if P calls st.scope then callBy (fun ls is => is.forM (monitored P alarm fuel
        (⟨st.scope.locals.length, ls⟩ :: calls))) mark callee args else throw alarm) r st := rfl
  rw [hu, if_pos hP]

theorem monitored_other (hx : ∀ callee args, x.action ≠ .call callee args) :
    monitored P alarm (fuel + 1) calls x r st =
      action fuel (fun is => is.forM (monitored P alarm fuel calls)) x r st := by
  obtain ⟨mark, act, body, otherwise⟩ := x
  have hu : monitored P alarm (fuel + 1) calls ⟨mark, act, body, otherwise⟩ r st =
      (if P calls st.scope then action fuel (fun is => is.forM (monitored P alarm fuel calls))
        ⟨mark, act, body, otherwise⟩ else throw alarm) r st := by
    cases act with
    | call callee args => exact absurd rfl (hx callee args)
    | _ => rfl
  rw [hu, if_pos hP]

end Monitoring

theorem couple_monitored [∀ calls s, Decidable (MacroCall.AllHold free calls s)] (alarm : Stop)
    (fuel : Nat) (i : { ls₀ : List Local // ∀ f ∈ calls, f.In ls₀ }) (x : Item) :
    (referring free calls).Couple i r (item fuel x)
    (monitored (MacroCall.AllHold free) alarm fuel calls x) := by
  induction fuel generalizing r calls x with
  | zero => exact fun _ => stops fun _ hs => ⟨trivial, hs.2⟩
  | succ fuel ih =>
    rintro mode st ⟨hst, hm⟩
    have hh : MacroCall.AllHold free calls st.scope :=
      ⟨Scope.Referring.nested hst, fun f hf => (i.2 f hf).holds hst⟩
    by_cases hc : ∃ callee args, x.action = .call callee args
    · obtain ⟨callee, args, hx⟩ := hc
      have hl : st.scope.locals.length = i.1.length := Scope.Referring.length hst
      have hi : item (fuel + 1) x = call (fun is => is.forM (item fuel)) x.mark callee args := by
        obtain ⟨mark, act, body, otherwise⟩ := x
        obtain rfl : act = .call callee args := hx
        rfl
      rw [monitored_call hh hx, hi, hl]
      refine couple_callBy i ?_ mode st ⟨hst, hm⟩
      intro ls hls is mode
      exact through fun y _ => ih ⟨ls ++ i.1, hls⟩ y mode
    · rw [monitored_other hh fun callee args hx => hc ⟨callee, args, hx⟩]
      refine Regime.couple_action (referring_lawful free calls) (fun _ _ _ _ => .inr trivial)
        (.inr trivial) ?_ ?_ mode st
        ⟨hst, hm⟩
      · intro r j is _ _ mode
        exact through fun y _ => ih j y mode
      · intro callee args hx
        exact absurd ⟨callee, args, hx⟩ hc

/-- The parameter that is given by a name: it gets the node that the name refers to at the call, if
there is one. -/
theorem parameter_name {x e v target st st'}
    (he : eval e.eval r st = (.ok v, st')) (hv : v = .name target ∨ v = .numberName target)
    (hlo : ∀ l, st'.scope.local? target = some l → ∃ place name n, l.binding = .node place name n) :
    parameter x e r st =
    (.ok ⟨x, .node (findPlace target st'.scope).1 target st'.scope.locals.length, false, false⟩,
        { st' with scope := (findPlace target st'.scope).2 }) := by
  have hbi : bindParameter v r st' =
      (.ok (.node (findPlace target st'.scope).1 target st'.scope.locals.length),
        { st' with scope := (findPlace target st'.scope).2 }) := by
    have hn : bindParameter (.name target) r st' =
        (.ok (.node (findPlace target st'.scope).1 target st'.scope.locals.length),
          { st' with scope := (findPlace target st'.scope).2 }) := by
      rw [bindParameter, Program.get_bind]
      cases hl : st'.scope.local? target with
      | none => rfl
      | some l =>
        obtain ⟨place, name, n, hb⟩ := hlo l hl
        obtain ⟨_, binding, _, _⟩ := l
        obtain rfl : binding = .node place name n := hb
        rfl
    rcases hv with rfl | rfl <;> exact hn
  have hp : parameter x e r st = (eval e.eval r >>= fun v => bindParameter v r >>= fun b =>
      (pure ⟨x, b, false, false⟩ : ExceptT Stop (StateM RenderState) Local)) st := rfl
  rw [hp, bind_of_ok he, bind_of_ok hbi]
  rfl

theorem items_keep_node {fuel is st st' k n p target}
    (hn : st.scope.Nested) (hi : items fuel is r st = (.ok (), st')) (ht : target ≠ [])
    (hb : st.scope.bindingAt? k = some (.node (some p) target n)) :
    st'.scope.bindingAt? k = some (.node (some p) target n) := by
  classical
  have hs : st.scope.Referring False st.scope.locals :=
    ⟨hn, False.elim, forall₂_same.mpr fun l _ => .refl l⟩
  have hrun : (referring False []).Couple ⟨st.scope.locals, by simp⟩ r (items fuel is)
      (is.forM (monitored (MacroCall.AllHold False) .exhausted fuel [])) :=
    fun mode => through fun x _ => couple_monitored .exhausted fuel _ x mode
  obtain ⟨-, he⟩ := hrun st.whenUndefined st ⟨hs, rfl⟩
  rw [hi] at he
  have hend : st'.scope.Referring False st.scope.locals := he.1
  obtain ⟨l, hl, hbi⟩ := Option.map_eq_some_iff.mp hb
  obtain ⟨hk, rfl⟩ := List.getElem?_eq_some_iff.mp hl
  have hk' : k < st'.scope.locals.length := Nat.lt_of_lt_of_eq hk hend.length.symm
  have hf := (forall₂_iff_get.mp hend.follows).2 _ hk hk'
  obtain ⟨place, hp, hke⟩ := hf.node (some p) target n hbi
  obtain rfl := (hke fun hnil => absurd hnil ht).1 p rfl
  rw [bindingAt?, getElem?_eq_getElem hk']
  exact congrArg some hp

end Render

namespace Session

/-- Parameters of macros are references in the scope of the caller. A parameter that is given by a
name gets the node that the name refers to at the call. At every point of every rendering, in
whatever calls of macros, it stands for that node or, if there was none, for what its name refers to
among the variables of the caller, until a use has found or made a node, which it keeps. If the data
has no links, that is always what the name refers to there. -/
theorem render_by_reference {s : Session} (h : s.Attained)
    [∀ calls t, Decidable (MacroCall.AllHold s.data.LinkFree calls t)] (alarm : Stop) :
    s.renderBy (fun is =>
      is.forM (monitored (MacroCall.AllHold s.data.LinkFree) alarm nestingLimit [])) =
        s.render ∧ (∀ (x : Bytes) (e : Expr) r st v st' target, eval e.eval r st = (.ok v, st') →
        v = .name target ∨ v = .numberName target →
        (∀ l, st'.scope.local? target = some l → ∃ place name n, l.binding = .node place name n) →
        parameter x e r st =
          (.ok ⟨x, .node (Scope.findPlace target st'.scope).1 target st'.scope.locals.length,
            false, false⟩,
            { st' with scope := (Scope.findPlace target st'.scope).2 })) ∧
      ∀ fuel is r st st', st.scope.Nested → Render.items fuel is r st = (.ok (), st') →
        ∀ k p target n, target ≠ [] → st.scope.bindingAt? k = some (.node (some p) target n) →
          st'.scope.bindingAt? k = some (.node (some p) target n) := by
  refine ⟨?_, fun x e r st v st' target => parameter_name,
    fun fuel is r st st' hnested hitems k p target n =>
    items_keep_node hnested hitems⟩
  have hlocals := h.locals_eq_nil
  have hstart : s.reader.scope.Referring s.data.LinkFree [] := by
    refine ⟨?_, fun hfree => ⟨hfree, ?_⟩, ?_⟩
    · rw [Scope.Nested, hlocals]
      trivial
    · rw [hlocals]
      exact fun l hl => absurd hl List.not_mem_nil
    · rw [hlocals]
      exact .nil
  have hrun : Couples (Render.On fun t _ _ => t.Referring s.data.LinkFree [])
      (Render.items nestingLimit s.items s.renderSettings)
      (s.items.forM (monitored (MacroCall.AllHold s.data.LinkFree) alarm nestingLimit [])
        s.renderSettings)
      (fun _ => Render.On fun _ _ _ => True) (Render.On fun _ _ _ => True) := by
    have hcouple : (referring s.data.LinkFree []).Couple ⟨[], by simp⟩ s.renderSettings
        (Render.items nestingLimit s.items)
        (s.items.forM (monitored (MacroCall.AllHold s.data.LinkFree) alarm nestingLimit [])) :=
      fun mode => through fun x _ => couple_monitored alarm nestingLimit _ x mode
    exact fun st hst => (hcouple st.whenUndefined).conseq (fun _ hs => hs) (fun _ _ _ => trivial)
      (fun _ _ => trivial) st
      ⟨hst, rfl⟩
  exact (renderBy_couples _ (fun is =>
    is.forM (monitored (MacroCall.AllHold s.data.LinkFree) alarm nestingLimit []))
    hrun hstart).1

/-- Two macros with the names of their parameters the other way round. -/
theorem render_by_reference_swapped :
    let data : Node := ⟨[], none, false, [], [⟨ascii "B", some (ascii "b"), false, [], []⟩]⟩
    let text := ascii "<?cs def:g(x, y) ?><?cs set:x = '1' ?><?cs set:y = '2' ?><?cs /def ?>" ++
      ascii "<?cs def:f(x, y) ?><?cs call:g(y, x) ?>[<?cs var:x ?>][<?cs var:y ?>]<?cs /def ?>" ++
      ascii "<?cs call:f(A, B) ?>[<?cs var:A ?>][<?cs var:B ?>]"
    ∃ s₀ s : Session, create data (.table []) ⟨.text, 0, false, 0, false, false, false, none⟩ =
      .ok s₀ ∧
      s = (s₀.parseText text text.length).1 ∧ s.Attained ∧ s.render.2.1 = ascii "[2][1][2][1]" ∧
      let _ : ∀ calls t, Decidable (MacroCall.AllHold s.data.LinkFree calls t) :=
        fun _ _ => Classical.propDecidable _
      s.renderBy (fun is =>
        is.forM (monitored (MacroCall.AllHold s.data.LinkFree) .exhausted nestingLimit [])) =
        s.render ∧
      parameter (ascii "x") (.name (ascii "A")) s.renderSettings s.renderStart =
        (.ok ⟨ascii "x", .node (Scope.findPlace (ascii "A") s.reader.scope).1 (ascii "A")
          s.reader.scope.locals.length,
            false, false⟩,
          { s.renderStart with scope := (Scope.findPlace (ascii "A") s.reader.scope).2 }) := by
  intro data text
  let s₀ := fresh .undefined data (.table []) ⟨.text, 0, false, 0, false, false, false, none⟩
  have hcreate : create data (.table []) ⟨.text, 0, false, 0, false, false, false, none⟩ = .ok s₀ :=
    create_eq rfl _ _
  have hattained : (s₀.parseText text text.length).1.Attained :=
    (Attained.create hcreate).parseText _ _
  refine ⟨s₀, _, hcreate, rfl, hattained, by decide +kernel, ?_⟩
  generalize (s₀.parseText text text.length).1 = s at hattained
  intro _
  obtain ⟨hmonitored, hparameter, -⟩ := render_by_reference hattained .exhausted
  refine ⟨hmonitored, hparameter _ _ _ s.renderStart _ s.renderStart _ rfl (.inl rfl)
    fun l hl => ?_⟩
  simp [Scope.local?, Scope.position?, renderStart, hattained.locals_eq_nil] at hl

/-- A parameter keeps the node that it found through a link, also when the link is gone. -/
theorem render_parameter_beyond_link :
    let data : Node := ⟨[], none, false, [],
      [⟨ascii "T", none, false, [], [⟨ascii "b", some (ascii "0"), false, [], []⟩]⟩,
      ⟨ascii "P", none, false, [], [⟨ascii "L", some (ascii "T"), true, [], []⟩]⟩]⟩
    let text :=
      ascii
        "<?cs def:f(x) ?><?cs set:x = '1' ?><?cs each:l = P ?><?cs set:l = 'Z' ?><?cs /each ?>" ++
      ascii "[<?cs var:x ?>][<?cs var:P.L.a ?>]<?cs /def ?><?cs call:f(P.L.a) ?>"
    ∃ s₀ s : Session, create data (.table []) ⟨.text, 0, false, 0, false, false, false, none⟩ =
      .ok s₀ ∧
      s = (s₀.parseText text text.length).1 ∧ s.render.2.1 = ascii "[1][]" := by
  intro data text
  let s₀ := fresh .undefined data (.table []) ⟨.text, 0, false, 0, false, false, false, none⟩
  exact ⟨s₀, _, create_eq rfl _ _, rfl, by decide +kernel⟩

end Session

end TemplateKit
