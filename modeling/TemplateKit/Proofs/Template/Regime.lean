import TemplateKit.Proofs.Template.Beside
import TemplateKit.Proofs.Template.Render

/-!
# Regimes

A regime is what holds of the scope all through a rendering, at every depth of nested blocks. It is
enough to know that it is kept by looking up names, by assignments, by what a block does to its
variable and by macro calls; then it is kept by every item, also by those that read another
template. So is the mode for items that have none.
-/

namespace TemplateKit

open Program

/-- Does an item neither assign nor read another template when it is rendered? -/
def Action.readsOnly : Action → Bool
  | set _ _ | lvar _ | includeLater _ => false
  | _ => true

namespace Item

mutual

/-- Is the command of an item, and of all that is inside of it, among `q`? -/
def every (q : Action → Bool) (i : Item) : Bool :=
  match i with
  | ⟨_, action, body, otherwise⟩ => q action && everyOf q body && everyOf q otherwise

/-- Do all actions of the items have a property, at any depth? -/
def everyOf (q : Action → Bool) (is : List Item) : Bool :=
  match is with
  | [] => true
  | i :: rest => i.every q && everyOf q rest

end

variable {q : Action → Bool}

theorem everyOf_iff {is} : everyOf q is = true ↔ ∀ i ∈ is, i.every q = true := by
  induction is with
  | nil => simp [everyOf]
  | cons i is ih => simp [everyOf, ih]

theorem every_iff {i : Item} : i.every q = true ↔
    q i.action = true ∧ (∀ j ∈ i.body, j.every q = true) ∧ ∀ j ∈ i.otherwise, j.every q = true := by
  obtain ⟨mark, action, body, otherwise⟩ := i
  rw [every, Bool.and_eq_true, Bool.and_eq_true, everyOf_iff, everyOf_iff, and_assoc]

theorem every_macros {i : Item} (h : i.every q = true) :
    ∀ callee ∈ i.macros, ∀ j ∈ callee.body, j.every q = true :=
  forall_macros (fun _ h => (every_iff.mp h).2) h

end Item

namespace Render

/-- What holds of the scope at each depth, while all goes well and after a failure. -/
structure Regime (ι : Type) where
  holds : ι → Scope → Prop
  failed : ι → Scope → Prop
  /-- Whether items may assign or read another template. -/
  writes : Prop

namespace Regime

variable {ι : Type} {R : Regime ι} {i : ι} {r : RenderSettings} {mark : Mark} {fuel : Nat}
  {items items' : List Item → Render Unit} {u : EscapeMode}

def on (R : Regime ι) (i : ι) (u : EscapeMode) : Invariant := fun s _ mode => R.holds i s ∧ mode = u

/-- What holds after a failure. -/
def after (R : Regime ι) (i : ι) (u : EscapeMode) : Invariant :=
  fun s _ mode => R.failed i s ∧ mode = u

/-- Two programs that do the same, and keep the regime in every mode. -/
abbrev Couple {α : Type} (R : Regime ι) (i : ι) (r : RenderSettings) (m m' : Render α) : Prop :=
  ∀ u, Coupled (R.on i u) (R.after i u) r m m'

/-- A program that keeps the regime in every mode. -/
abbrev Keeps {α : Type} (R : Regime ι) (i : ι) (r : RenderSettings) (m : Render α) : Prop :=
  R.Couple i r m m

/-- More local variables lead from one depth to another. -/
structure Leads (R : Regime ι) (ls : List Local) (i j : ι) : Prop where
  enter : ∀ s, R.holds i s → R.holds j { s with locals := ls ++ s.locals }
  leave : ∀ s, R.holds j s → R.holds i { s with locals := s.locals.drop ls.length }
  stop : ∀ s, R.failed j s → R.failed i { s with locals := s.locals.drop ls.length }

theorem Leads.encloses {ls j} (h : R.Leads ls i j) :
    Encloses ls (R.on i u) (R.on j u) (R.after i u) (R.after j u) where
  enter s _ _ hs := ⟨h.enter s hs.1, hs.2⟩
  leave s _ _ hs := ⟨h.leave s hs.1, hs.2⟩
  stop s _ _ hs := ⟨h.stop s hs.1, hs.2⟩

/-- What makes every item keep to a regime, macro calls apart. -/
structure Lawful (R : Regime ι) : Prop where
  finding : ∀ i, Scope.KeptByFinding (R.holds i)
  fails : ∀ i s, R.holds i s → R.failed i s
  assign : R.writes → ∀ i s name v trust, R.holds i s → (s.assign name v trust).2 = .ok () →
    R.holds i (s.assign name v trust).1
  assignFails : R.writes → ∀ i s name v trust, R.holds i s → R.failed i (s.assign name v trust).1
  inside : ∀ i l, Opens l → ∃ j, R.Leads [l] i j ∧ ∀ f, Renews l f → ∀ s, R.holds j s →
    R.holds j { s with locals := s.locals.modify 0 f }

/-- The items that keep to a regime. -/
def Allows (R : Regime ι) (x : Item) : Prop := x.every Action.readsOnly = true ∨ R.writes

variable (hR : R.Lawful)

include hR

theorem Lawful.stable : Stable (R.on i u) := fun _ _ => (hR.finding i).and _

theorem Lawful.stops (s : Scope) (w : List Bytes) (mode : EscapeMode) (hs : R.on i u s w mode) :
    R.after i u s w mode :=
  ⟨hR.fails i s hs.1, hs.2⟩

theorem keeps_eval (e : Expr) : R.Keeps i r (eval e.eval) :=
  fun _ => after_eval fun w mode =>
    ((hR.stable w mode).eval e).conseq (fun _ hs => hs)
    (fun _ _ hs => hs) fun s => hR.stops s w mode

section Reading

theorem after_parseState :
    Gives (R.holds i ·.scope) (R.on i u) (R.after i u) r (parseState mark) := by
  refine looks fun st hst => ?_
  cases Configuration.escapeMode st.scope.data with
  | error f =>
    apply stops
    rintro _ rfl
    exact hR.stops _ _ _ hst
  | ok mode =>
    refine reads (returns ?_)
    rintro _ rfl
    exact ⟨hst.1, hst⟩

omit hR in
theorem after_parse {action} (ha : ∀ settings, Parse.Spares (R.holds i) settings action)
    {start} (hst : R.holds i start.scope) :
    Render.Keeps (R.on i u) (R.after i u) r (parse action start) := by
  apply reads
  refine andThen (Q := fun _ => On (R.on i u)) (changes fun _ hs => ⟨?_, hs.2⟩) fun _ => stays
  exact (ha _).scope hst

variable (hitems : ∀ r is, R.Couple i r (items is) (items' is))

include hitems

omit hR in
theorem couple_template (s : ParseState) : R.Couple i r (template items s) (template items' s) := by
  intro u
  unfold template
  refine couples_between (J := On (R.on i .undefined)) ?_ ?_ ?_ (hitems _ _ .undefined)
  · exact fun st hst => ⟨hst.1, rfl⟩
  · exact fun st st' hst hst' => ⟨hst'.1, hst.2⟩
  · exact fun st st' hst hst' => ⟨hst'.1, hst.2⟩

theorem couple_lvar (v : Value) (s : Bytes) :
    R.Couple i r (lvar fuel items mark v s) (lvar fuel items' mark v s) := by
  intro u
  refine andThen (after_parseState hR) fun start => Couples.given fun hst => reads ?_
  refine andThen (after_parse (fun _ => Parse.spares_text (hR.finding i)) hst) fun result => ?_
  obtain ⟨x, after⟩ := result
  cases x with
  | error stop => exact Program.stops fun _ hs => hR.stops _ _ _ hs
  | ok _ => exact couple_template hitems _ u

theorem couple_includeLater (path : Bytes) :
    R.Couple i r (includeLater fuel items mark path) (includeLater fuel items' mark path) := by
  intro u
  apply couples_deeper hR.stops
  refine andThen (after_parseState hR) fun start => Couples.given fun hst => ?_
  refine andThen (after_parse (fun _ => Parse.spares_file (hR.finding i)) hst) fun result => ?_
  obtain ⟨x, after⟩ := result
  have hr : ∀ text, R.Couple i r (noting text (template items after))
      (noting text (template items' after)) :=
    fun text u => couples_noting (couple_template hitems after u)
  cases x with
  | ok _ => exact hr _ u
  | error stop =>
    cases stop with
    | exhausted =>
      exact andThen (Q := fun _ => On (R.on i u)) (Program.stops fun _ hs => hR.stops _ _ _ hs)
        fun _ => hr _ u
    | failure f =>
      dsimp only
      split
      · exact hr _ u
      · exact andThen (Q := fun _ => On (R.on i u)) (after_fails hR.stops) fun _ => hr _ u

end Reading

/-- One item keeps to a regime if what is inside of it does; a macro call is looked at apart. -/
theorem couple_action (hm : ∀ m ∈ r.macros, ∀ x ∈ m.body, R.Allows x) {x} (hx : R.Allows x)
    (hitems : ∀ r j is, (∀ m ∈ r.macros, ∀ x ∈ m.body, R.Allows x) → (∀ x ∈ is, R.Allows x) →
      R.Couple j r (items is) (items' is)) (hc : ∀ callee args, x.action = .call callee args →
      R.Couple i r (call items x.mark callee args) (call items' x.mark callee args)) :
    R.Couple i r (action fuel items x) (action fuel items' x) := by
  have hwr : x.action.readsOnly = false → R.writes := by
    intro ha
    refine hx.resolve_left fun h => ?_
    rw [(Item.every_iff.mp h).1] at ha
    cases ha
  have hi : ∀ j, R.Couple j r (items x.body) (items' x.body) :=
    fun j => hitems r j _ hm fun y hy => hx.imp_left fun h => (Item.every_iff.mp h).2.1 y hy
  have ho : R.Couple i r (items x.otherwise) (items' x.otherwise) :=
    hitems r i _ hm fun y hy => hx.imp_left fun h => (Item.every_iff.mp h).2.2 y hy
  -- A template that is read while another is rendered may hold any item.
  have ht : R.writes → ∀ r is, R.Couple i r (items is) (items' is) :=
    fun hw r is => hitems r i is (fun _ _ _ _ => .inr hw) fun _ _ => .inr hw
  have hla : ∀ {mark arg} {f f' : Value → Bytes → Render Unit},
      (∀ v s, R.Couple i r (f v s) (f' v s)) →
      R.Couple i r (later mark arg f) (later mark arg f') := by
    intro mark arg f f' hf u
    refine andThen (keeps_eval hR _ u) fun v => ?_
    split
    · exact andThen (hR.stable.number v) fun _ => after_writeValue (fun _ _ _ hs => hs) hR.stops
    · refine andThen (hR.stable.text v) fun text => ?_
      cases text.1 with
      | none => exact stays
      | some s => exact hf v s u
  exact fun u => Sustains.coupled (V := fun _ => True) {
    stable := hR.stable
    stops := hR.stops
    value := fun e _ => (keeps_eval hR e u).post fun _ _ hs => ⟨trivial, hs⟩
    literal := fun _ _ => after_writeLiteral (fun _ _ _ hs => hs) hR.stops
    name := fun _ _ _ => after_writeEscaped (fun _ _ _ _ hs _ => hs) hR.stops hR.stops
    argument := fun _ v _ => after_writeArgument hR.stable (fun _ _ _ _ hs => hs)
      (fun _ _ _ _ _ hs => hs) (fun _ _ _ _ _ hs _ => hs) hR.stops v
    assign := by
      intro target value hset t v _
      have hw : R.writes := hwr (by rw [hset]; rfl)
      exact after_assign (T := fun _ _ => True) hR.stable hR.stops (fun _ => trivial)
        (fun _ => (hR.stable.text v).post fun _ _ hs => ⟨trivial, hs⟩)
        (fun name v trust s _ _ _ hs hok => ⟨hR.assign hw i s name v trust hs.1 hok, hs.2⟩)
        fun name v trust s _ _ _ hs => ⟨hR.assignFails hw i s name v trust hs.1, hs.2⟩
    deep := by
      intro hd
      obtain ⟨mark, act, body, otherwise⟩ := x
      cases act with
      | lvar arg => exact hla (couple_lvar hR (ht (hwr rfl))) u
      | includeLater arg => exact hla (fun _ => couple_includeLater hR (ht (hwr rfl))) u
      | call callee args => exact hc callee args rfl u
      | _ => cases hd
    body := hi i u
    otherwise := ho u
    inside := by
      intro l hl
      obtain ⟨j, hle, hr⟩ := hR.inside i l hl
      exact ⟨_, _, hle.encloses, hi j u, fun f hf s _ _ hs => ⟨hr f hf s hs.1, hs.2⟩⟩ }

omit hR

/-- Where all variables lead from one depth to another, every item keeps to the regime. -/
theorem Lawful.keeps_item (hR : R.Lawful) (hl : ∀ i ls, ∃ j, R.Leads ls i j) (fuel : Nat) {x}
    (hma : ∀ m ∈ r.macros, ∀ x ∈ m.body, R.Allows x)
    (hx : R.Allows x) : R.Keeps i r (Render.item fuel x) := by
  induction fuel generalizing r i x with
  | zero => exact fun _ => Program.stops fun _ hs => hR.stops _ _ _ hs
  | succ fuel ih =>
    have hitems : ∀ r j is, (∀ m ∈ r.macros, ∀ x ∈ m.body, R.Allows x) → (∀ x ∈ is, R.Allows x) →
        R.Keeps j r (Render.items fuel is) :=
      fun _ _ _ hma his _ => through fun x hx => ih hma (his x hx) _
    refine couple_action hR hma hx hitems fun callee args _ u => ?_
    rw [call_eq]
    refine couples_callBy (J := R.on i (modeOf x.mark u)) (B := fun _ => True)
      (D := R.after i (modeOf x.mark u)) ?_
      (fun _ _ _ hs => hs) ?_ ?_ ?_ ?_
    · intro s w mode hs
      exact ⟨hs.1, by rw [hs.2]⟩
    · intro s₀ w₀ mode₀ s w mode hs₀ hs
      exact ⟨hs.1, hs₀.2⟩
    · intro s₀ w₀ mode₀ s w mode hs₀ hs
      exact ⟨hs.1, hs₀.2⟩
    · intro y e _
      exact after_parameter hR.stable (keeps_eval hR e _)
    · intro ls _
      obtain ⟨j, hj⟩ := hl i ls
      exact ⟨_, _, hj.encloses, hR.stops, fun m hm => hitems r j _ hma (hma m hm) _⟩

end Regime

end Render

end TemplateKit
