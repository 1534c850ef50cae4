import TemplateKit.Proofs.Template.Alike

/-!
# Programs in several forms

A rendering is compared with another one, with itself under other bounds, or looked at alone. In
each case there is a property of the forms that a program takes. If the steps have it from which
items are rendered, then each item has it that goes no level deeper, as soon as what is inside of
the item has it.
-/

namespace TemplateKit

open Program Render

/-- States that look the same to what is rendered. -/
structure RenderState.Same (st st' : RenderState) : Prop where
  scope : st.scope = st'.scope
  escaper : st.escaper = st'.escaper
  rounds : st.rounds = st'.rounds
  mode : st.whenUndefined = st'.whenUndefined

namespace Render

variable {ι : Type} {p : ParserSettings} {c : Mark} {r : ι → RenderSettings} {mark : ι → Mark}
  {S : (α : Type) → (ι → Render α) → Prop}

/-- A property of the forms of a program that writing has. The forms differ in settings and marks
that writing does not depend on. -/
structure Writing (p : ParserSettings) (c : Mark) (r : ι → RenderSettings) (mark : ι → Mark)
    (S : (α : Type) → (ι → Render α) → Prop) : Prop where
  parser : ∀ i, (r i).parser = p
  marks : ∀ i, (mark i).Alike c
  returns {α} {a : α} : S α fun _ => pure a
  fails {α f} : S α fun _ => fails f
  /-- The heading of a note is only worded in another way. -/
  noted {α} {f : Bytes → Failure} (h : ∀ s s', (f s).kind = (f s').kind) :
    S α fun i => logHeading (mark i) >>= fun s => Render.fails (f s)
  andThen {α β m} {f : ι → α → Render β} (hm : S α m) (hf : ∀ a, S β fun i => f i a) :
  S β fun i => m i >>= f i
  looks {α} {f : ι → RenderState → Render α} (h : ∀ st, S α fun i => f i st)
    (hf : ∀ i st st', st.Same st' → f i st = f i st') : S α fun i => get >>= f i
  reads {α} {f : ι → RenderSettings → Render α} (h : S α fun i => f i (r i)) :
  S α fun i => read >>= f i
  write s : S Unit fun _ => write s

namespace Writing

variable (h : Writing p c r mark S)

include h

theorem writeValue (name : Option Bytes) (s : Bytes) : S _ fun i => writeValue (mark i) name s := by
  refine h.andThen (h.write s) fun _ => h.reads ?_
  simp only [h.parser]
  cases p.auto.enabled with
  | false => exact h.returns
  | true =>
    refine h.looks (fun st => ?_) fun _ _ _ hst => by rw [hst.escaper]
    cases st.escaper.parseValue s with
    | ok _ => exact h.returns
    | error e => exact h.noted fun _ _ => rfl

theorem writeLiteral (s : Bytes) : S _ fun i => writeLiteral (mark i) s := by
  unfold Render.writeLiteral
  simp only [(h.marks _).autoEscape]
  cases c.autoEscape with
  | false => exact h.write s
  | true =>
    refine h.looks (fun st => ?_) fun _ _ _ hst => by rw [hst.escaper]
    cases st.escaper.parseLiteral s with
    | ok _ => exact h.write s
    | error e => exact h.noted fun _ _ => rfl

theorem writeEscaped (name : Option Bytes) (s : Bytes) (trust : Trust) :
    S _ fun i => writeEscaped (mark i) name s trust := by
  refine h.looks (fun st => ?_) fun _ _ _ hst => by rw [hst.scope, hst.escaper, hst.mode]
  simp only [(h.marks _).escape, (h.marks _).autoEscape]
  generalize (if c.escape = .undefined then st.whenUndefined else c.escape) = mode
  by_cases hau : (!(st.scope.tracking != 0 && decide (trust = .trusted)) &&
    decide (mode = .undefined) &&
      c.autoEscape) = true
  · simp only [if_pos hau]
    cases st.escaper.escape s with
    | ok e => exact h.writeValue name e.text
    | error e => exact h.fails
  · simp only [if_neg hau]
    cases (if mode = .undefined then .none else mode).escape s with
    | ok t => exact h.writeValue name t
    | error e => exact h.fails

end Writing

/-- The same for all that rendering does in the items that go no level deeper, apart from counting
the rounds of loops and from assigning. -/
structure Uniform (p : ParserSettings) (c : Mark) (r : ι → RenderSettings) (mark : ι → Mark)
    (S : (α : Type) → (ι → Render α) → Prop) : Prop extends Writing p c r mark S where
  evaluates {α} {e : Eval α} (h : ∀ I, Scope.KeptByFinding I →
    After I e (fun _ => I) fun _ => True) :
    S α fun _ => eval e
  modifies f : S Unit fun _ => modifyLocal f
  encloses {m} (ls : List Local) (h : S Unit m) : S Unit fun i => withLocals ls (m i)
  /-- What goes wrong in writing alone may be passed over. -/
  passes {m} (h : ∀ T, Writing p c r mark T → T Unit m) :
  S Unit fun i => tryCatch (m i) fun _ => pure ()
  types n : S Unit fun _ => modify fun st => { st with contentTypes := n :: st.contentTypes }
  escapes (hauto : p.auto.enabled = true) escaper :
  S Unit fun _ => modify fun st => { st with escaper }

/-- A loop over children that comes to `width` of them at most. -/
def eachUpTo (width : Nat) (x : Bytes) (v : Value) (action : Render Unit) : Render Unit := do
  match ← placeOf v with
  | none => pure ()
  | some p =>
    match ← container p with
    | none => pure ()
    | some p => withLocals [⟨x, .node none [] 0, true, false⟩] (children action p width 0)

/-- Renders one item. `here` renders what is inside of it, and `below` what a macro or a file has in
it. -/
def actionWithin (width fuel : Nat) (here below : List Item → Render Unit) (i : Item) :
    Render Unit :=
  match i.action with
  | .each x arg => do eachUpTo width x (← eval arg.expr.eval) (here i.body)
  | .call _ _ | .includeLater _ => action fuel below i
  | _ => action fuel here i

theorem actionWithin_childLimit (fuel : Nat) (items : List Item → Render Unit) :
    actionWithin childLimit fuel items items = action fuel items := by
  funext i
  obtain ⟨mark, action, body, otherwise⟩ := i
  cases action <;> rfl

namespace Uniform

variable (h : Uniform p c r mark S)

include h

theorem expr (e : Expr) : S _ fun _ => eval e.eval :=
  h.evaluates fun _ hI => (hI.eval e).conseq (fun _ hs => hs) (fun _ _ hs => hs) fun _ _ => trivial

theorem finds {α} {x : StateM Scope α} (hx : ∀ I, Scope.KeptByFinding I → Yields I x fun _ => I) :
    S _ fun _ => eval (liftM x) := h.evaluates fun I hI => .lifts (hx I hI)

theorem text (v : Value) : S _ fun _ => eval v.asText := h.finds fun _ hI => hI.text v

theorem number (v : Value) : S _ fun _ => eval v.asNumber := h.finds fun _ hI => hI.number v

theorem isTrue (v : Value) : S _ fun _ => isTrue v :=
  h.andThen (h.finds fun _ hI => hI.truth v) fun _ => h.returns

theorem placeOf (v : Value) : S _ fun _ => placeOf v := by
  unfold Render.placeOf
  cases v with
  | name s => exact h.finds fun _ hI => hI.findPlace s
  | text | number | numberName => exact h.returns

theorem maps {α β} {xs : List α} {f : α → Render β} (hf : ∀ x, S _ fun _ => f x) :
    S _ fun _ => xs.mapM f := by
  induction xs with
  | nil => exact h.returns
  | cons x xs ih =>
    simp only [List.mapM_cons]
    exact h.andThen (hf x) fun _ => h.andThen ih fun _ => h.returns

theorem parameter (x : Bytes) (arg : Expr) : S _ fun _ => parameter x arg := by
  have hn : ∀ s, S Binding fun _ => do
      let visible := (← get).scope.locals.length
      return .node (← eval (Scope.findPlace s)) s visible := fun s =>
    h.looks (fun _ => h.andThen (h.finds fun _ hI => hI.findPlace s) fun _ => h.returns)
      fun _ _ _ hst => by rw [hst.scope]
  have hna : ∀ s, S _ fun _ => bindParameter (.name s) := by
    intro s
    refine h.looks (fun st => ?_) fun _ _ _ hst => by rw [hst.scope]
    rcases st.scope.local? s with _ | ⟨name, binding, isFirst, isLast⟩
    · exact hn s
    · cases binding with
      | node place target seen => exact hn s
      | text | number => exact h.returns
  refine h.andThen (h.expr arg) fun v => h.andThen ?_ fun _ => h.returns
  cases v with
  | text | number => exact h.returns
  | name s | numberName s => exact hna s

theorem writeArgument (arg : Argument) (v : Value) : S _ fun i => writeArgument (mark i) arg v := by
  unfold Render.writeArgument
  cases v.isNumeric with
  | true => exact h.andThen (h.number v) fun n => h.writeValue _ _
  | false =>
    refine h.andThen (h.text v) fun text => ?_
    obtain ⟨_ | s, trust⟩ := text
    · exact h.returns
    · refine h.passes fun T hT => ?_
      cases arg.expr.callsEscaper with
      | true => exact hT.writeValue _ s
      | false => exact hT.writeEscaped _ s trust

theorem later {f : ι → Value → Bytes → Render Unit} (hf : ∀ v s, S _ fun i => f i v s)
    (arg : Argument) :
    S _ fun i => later (mark i) arg (f i) := by
  refine h.andThen (h.expr _) fun v => ?_
  cases v.isNumeric with
  | true => exact h.andThen (h.number v) fun n => h.writeValue _ _
  | false =>
    refine h.andThen (h.text v) fun text => ?_
    obtain ⟨_ | s, trust⟩ := text
    · exact h.returns
    · exact hf v s

section Loops

variable {a : ι → Render Unit} (ha : S _ a)

include ha

theorem children (place : Place) (fuel n : Nat) : S _ fun i => children (a i) place fuel n := by
  induction fuel generalizing n with
  | zero => exact h.returns
  | succ fuel ih =>
    refine h.andThen (h.looks (fun _ => h.returns) fun _ _ _ hst => by rw [hst.scope]) fun c => ?_
    cases c with
    | none => exact h.returns
    | some c => exact h.andThen (h.modifies _) fun _ => h.andThen ha fun _ => ih (n + 1)

theorem numbers (step : Int64) (left : Nat) (isFirst : Bool) (n : Int64) :
    S _ fun i => numbers (a i) step left isFirst n := by
  induction left generalizing isFirst n with
  | zero => exact h.returns
  | succ left ih => exact h.andThen (h.modifies _) fun _ => h.andThen ha fun _ => ih false (n +
      step)

theorem loop (hc : ∀ n, S _ fun _ => countRounds n) (x : Bytes) (ns : List Int32) :
    S _ fun i => loop x ns (a i) := by
  unfold Render.loop
  obtain ⟨start, stop, step⟩ := bounds ns
  refine h.andThen (hc _) fun _ => ?_
  by_cases hr : 0 < roundsOf start stop step
  · simp only [if_pos hr]
    exact h.encloses _ (h.numbers ha _ _ _ _)
  · simp only [if_neg hr]
    exact h.returns

end Loops

theorem assign (hs : ∀ target v trust, S _ fun _ => store target v trust) (target value : Value) :
    S _ fun _ => assign target value := by
  have has : ∀ target, S Unit fun _ => (if value.isNumeric then do
        let n ← eval value.asNumber
        store target (some (Numeral.ofInt n.toInt)) .trusted
      else do
        let v ← eval value.asText
        store target v.1 v.2) := by
    intro target
    split
    · exact h.andThen (h.number value) fun _ => hs _ _ _
    · exact h.andThen (h.text value) fun _ => hs _ _ _
  cases target with
  | number n written => exact h.returns
  | text s trust => exact has (.text s trust)
  | name s => exact has (.name s)
  | numberName s => exact has (.numberName s)

theorem shallow (width fuel : ι → Nat) (here below : ι → List Item → Render Unit) {action : Action}
    (body otherwise : ι → List Item) (hs : action.shallow = true)
    (hb : S _ fun i => here i (body i)) (ho : S _ fun i => here i (otherwise i))
    (hc : ∀ place, S _ fun i => Render.children (here i (body i)) place (width i) 0)
    (has : (∃ target value, action = .set target value) →
      ∀ target v trust, S _ fun _ => store target v trust)
    (hco : (∃ x range, action = .loop x range) → ∀ n, S _ fun _ => countRounds n) :
    S _ fun i => actionWithin (width i) (fuel i) (here i) (below i) ⟨mark i, action, body i,
      otherwise i⟩ := by
  cases action with
  | literal text =>
    cases text with
    | none => exact h.returns
    | some s => exact h.writeLiteral s
  | name s =>
    refine h.andThen (h.finds fun _ hI => hI.nodeOf (.name s)) fun found => ?_
    rcases found with _ | ⟨root, n⟩
    · exact h.returns
    · dsimp only
      cases n.name? with
      | none => exact h.returns
      | some name => exact h.writeEscaped _ _ _
  | var raw arg => exact h.andThen (h.expr _) fun v => h.writeArgument arg v
  | evar | define => exact h.returns
  | lvar | includeLater | call => cases hs
  | branch word arg =>
    refine h.andThen (h.expr _) fun v => h.andThen (h.isTrue v) fun taken => ?_
    cases taken with
    | true => exact hb
    | false => exact ho
  | each x arg =>
    refine h.andThen (h.expr _) fun v => h.andThen (h.placeOf v) fun place => ?_
    cases place with
    | none => exact h.returns
    | some place =>
      refine h.andThen (h.looks (fun _ => h.returns) fun _ _ _ hst => by rw [hst.scope])
        fun within => ?_
      cases within with
      | none => exact h.returns
      | some place => exact h.encloses _ (hc place)
  | withAs x arg =>
    refine h.andThen (h.expr _) fun v => h.andThen (h.placeOf v) fun place => ?_
    cases place with
    | none => exact h.returns
    | some place => exact h.encloses _ hb
  | set target value =>
    refine h.andThen (h.expr _) fun t => h.andThen (h.expr _) fun v => ?_
    exact h.assign (has ⟨target, value, rfl⟩) t v
  | loop x range =>
    refine h.andThen (h.maps fun bound => ?_) fun ns => h.loop hb (hco ⟨x, range, rfl⟩) x ns
    exact h.andThen (h.expr bound) fun v => h.andThen (h.number v) fun _ => h.returns
  | alt arg =>
    refine h.andThen (h.expr _) fun v => h.andThen (h.isTrue v) fun taken => ?_
    cases taken with
    | true => exact h.writeArgument arg v
    | false => exact hb
  | escape mode source => exact hb
  | contentType n type source =>
    refine h.reads ?_
    simp only [h.parser]
    by_cases hau : p.auto.enabled = true
    · simp only [if_pos hau]
      refine h.andThen (h.types n) fun _ => h.looks (fun st => ?_) fun _ _ _ hst => by
        rw [hst.escaper]
      rcases st.escaper.setContentType type.strip with e | ⟨escaper, previous⟩
      · exact h.fails
      · exact h.escapes hau escaper
    · simp only [if_neg hau]
      exact h.returns

end Uniform

end Render

end TemplateKit
