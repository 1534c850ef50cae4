import TemplateKit.Proofs.Template.Eval
import TemplateKit.Template.Render

/-!
# Rules for rendering

What holds while a template is rendered is stated of the scope, of what is written and of the mode
for items that have none. There is one rule for each way in which items are rendered inside of
others; it compares two ways of rendering what is inside.
-/

namespace TemplateKit

open Program List

namespace Item

/-- Induction over an item with all that is inside of it. -/
theorem nested_induction {P : Item → Prop}
    (item : ∀ mark action body otherwise, (∀ i ∈ body, P i) → (∀ i ∈ otherwise, P i) →
      P ⟨mark, action, body, otherwise⟩)
    (i : Item) : P i :=
  @Item.rec P (fun is => ∀ i ∈ is, P i) item (fun _ h => nomatch h)
    (fun _ _ hi his => forall_mem_cons.mpr ⟨hi, his⟩) i

theorem mem_macrosOf {is callee} : callee ∈ macrosOf is ↔ ∃ i ∈ is, callee ∈ i.macros := by
  induction is with
  | nil => simp [macrosOf]
  | cons i is ih => simp [macrosOf, ih]

theorem mem_macros {i : Item} {callee : Macro} (h : callee ∈ i.macros) :
    (∃ signature, i.action = .define signature ∧ callee = ⟨signature, i.body⟩) ∨
      (∃ j ∈ i.body, callee ∈ j.macros) ∨ ∃ j ∈ i.otherwise, callee ∈ j.macros := by
  obtain ⟨mark, action, body, otherwise⟩ := i
  unfold macros at h
  rw [mem_append, mem_append, mem_macrosOf, mem_macrosOf, or_assoc] at h
  refine h.imp_left fun hown => ?_
  cases action with
  | define signature => exact ⟨signature, rfl, mem_singleton.mp hown⟩
  | _ => cases hown

/-- What holds of an item with all that is inside of it holds of the bodies of the macros that it
defines. -/
theorem forall_macros {P : Item → Prop}
    (hP : ∀ i, P i → (∀ j ∈ i.body, P j) ∧ ∀ j ∈ i.otherwise, P j) {i : Item} (h : P i) :
    ∀ callee ∈ i.macros, ∀ j ∈ callee.body, P j := by
  induction i using nested_induction with
  | item mark action body otherwise ihbody ihother =>
    obtain ⟨hb, ho⟩ := hP _ h
    intro callee hc
    rcases mem_macros hc with ⟨signature, -, rfl⟩ | ⟨i, hi, hc⟩ | ⟨i, hi, hc⟩
    · exact hb
    · exact ihbody i hi (hb i hi) callee hc
    · exact ihother i hi (ho i hi) callee hc

end Item

namespace Action

/-- Does an item render neither a macro nor what it reads while it is rendered? -/
def shallow : Action → Bool
  | lvar _ | includeLater _ | call _ _ => false
  | _ => true

/-- The expressions that an item evaluates for itself. -/
def evaluated : Action → List Expr
  | var _ arg | lvar arg | includeLater arg | branch _ arg | each _ arg | withAs _ arg | alt arg =>
    [arg.expr]
  | set target value => [target.expr, value.expr]
  | loop _ range => range
  | _ => []

/-- The argument whose value an item shows. -/
def shown? : Action → Option Argument
  | var _ arg | alt arg => some arg
  | _ => none

end Action

namespace Render

variable {r : RenderSettings} {α : Type}
variable {st : RenderState} {p : Place} {x : Bytes} {v : Value}

/-- A property of the scope, of what is written and of the mode for items that have none. -/
abbrev Invariant := Scope → List Bytes → EscapeMode → Prop

abbrev Invariant.Entails (I E : Invariant) : Prop := ∀ s w u, I s w u → E s w u

def On (I : Invariant) (st : RenderState) : Prop := I st.scope st.written st.whenUndefined

variable {G H I J E F : Invariant} {m m' : Render α} {action action' : Render Unit}
  {Q : α → RenderState → Prop}

/-- A program keeps `I`, with `E` after a failure. -/
abbrev Keeps (I E : Invariant) (r : RenderSettings) (m : Render α) : Prop :=
  After (On I) (m r) (fun _ => On I) (On E)

/-- A program gives a result with the property `B` and keeps `I`. -/
abbrev Gives (B : α → Prop) (I E : Invariant) (r : RenderSettings) (m : Render α) : Prop :=
  After (On I) (m r) (fun a st => B a ∧ On I st) (On E)

theorem after_fails {f} (h : I.Entails E) : After (On I) ((fails f : Render α) r) Q (On E) :=
  stops fun _ hs => h _ _ _ hs

theorem after_write {s} (h : ∀ sc w u, I sc w u → J sc (s :: w) u) :
    After (On I) (write s r) (fun _ => On J) (On E) :=
  changes fun _ hs => h _ _ _ hs

theorem eval_apply {x : Eval α} {result : Except Overflow α} {s : Scope}
    (h : x st.scope = (result, s)) :
    Render.eval x r st = (result.mapError fun o => .failure o.failure, { st with scope := s }) := by
  have hrun : x.run st.scope = (result, s) := h
  unfold Render.eval
  rw [Program.get_bind, hrun]
  cases result <;> rfl

theorem after_eval {e : Eval α} {Q : α → Invariant}
    (h : ∀ w u, After (fun s => I s w u) e (fun a s => Q a s w u) (fun s => E s w u)) :
    After (On I) (eval e r) (fun a => On (Q a)) (On E) := by
  refine looks fun st hst => ?_
  have he : Ends (fun a s => Q a s st.written st.whenUndefined) (fun s =>
    E s st.written st.whenUndefined)
      (e.run st.scope) := (h st.written st.whenUndefined st.scope hst).2
  generalize e.run st.scope = last at he
  obtain ⟨result, scope⟩ := last
  refine andThen (Q := fun _ st' => st' = { st with scope }) (sets fun _ _ => rfl) fun _ => ?_
  cases result with
  | ok a =>
    apply returns
    rintro _ rfl
    exact he
  | error overflow =>
    apply stops
    rintro _ rfl
    exact he

theorem after_lookup {x : StateM Scope α} {Q : α → Invariant}
    (h : ∀ w u, Yields (fun s => I s w u) x (fun a s => Q a s w u)) :
    After (On I) (eval (liftM x) r) (fun a => On (Q a)) (On E) :=
  after_eval fun w u => .lifts (h w u)

def Stable (I : Invariant) : Prop := ∀ w u, Scope.KeptByFinding fun s => I s w u

namespace Stable

variable (hI : Stable I) (v : Value)

include hI

theorem text : Keeps I E r (eval v.asText) := after_lookup fun w u => (hI w u).text v

theorem number : Keeps I E r (eval v.asNumber) := after_lookup fun w u => (hI w u).number v

theorem truth : Keeps I E r (isTrue v) :=
  andThen (after_lookup fun w u => (hI w u).truth v) fun _ => stays

theorem placeOf : Keeps I E r (Render.placeOf v) := by
  unfold Render.placeOf
  cases v with
  | name s => exact after_lookup fun w u => (hI w u).findPlace s
  | text | number | numberName => exact stays

end Stable

section Writing

variable {mark : Mark} {name : Option Bytes} {s : Bytes} {trust : Trust}

theorem after_writeValue (h : ∀ sc w u, I sc w u → J sc (s :: w) u) (hE : J.Entails E) :
    After (On I) (writeValue mark name s r) (fun _ => On J) (On E) := by
  refine andThen (after_write h) fun _ => reads ?_
  split
  · refine peeks fun st _ => ?_
    cases st.escaper.parseValue s with
    | ok _ => exact stays
    | error e => exact andThen (Q := fun _ => On J) (fun _ hs => ⟨rfl, hs⟩) fun _ => after_fails hE
  · exact stays

theorem after_writeLiteral (h : ∀ sc w u, I sc w u → I sc (s :: w) u) (hE : I.Entails E) :
    Keeps I E r (writeLiteral mark s) := by
  unfold writeLiteral
  split
  · refine peeks fun st _ => ?_
    cases st.escaper.parseLiteral s with
    | ok _ => exact after_write h
    | error e =>
      refine andThen (Q := fun _ => On I) (fun _ hs => ⟨rfl, hs⟩) fun _ => ?_
      exact andThen (Q := fun _ => On I) (after_fails hE) fun _ => after_write h
  · exact after_write h

/-- The mode in which the values of an item are escaped. -/
def modeOf (mark : Mark) (u : EscapeMode) : EscapeMode :=
  if mark.escape = .undefined then u else mark.escape

/-- What is written for a value; without a mode it can be any text. -/
def Shows (mark : Mark) (u : EscapeMode) (s t : Bytes) : Prop :=
  modeOf mark u = .undefined ∨ (modeOf mark u).escape s = .ok t

theorem after_writeEscaped (h : ∀ sc w u t, I sc w u → Shows mark u s t → J sc (t :: w) u)
    (hE : I.Entails E) (hE' : J.Entails E) :
    After (On I) (writeEscaped mark name s trust r) (fun _ => On J) (On E) := by
  refine looks fun st hst => ?_
  have hsh : ∀ t, Shows mark st.whenUndefined s t →
      After (· = st) (writeValue mark name t r) (fun _ => On J) (On E) := by
    intro t ht
    have hat : On (fun sc w u => I sc w u ∧ Shows mark u s t) st := ⟨hst, ht⟩
    exact Couples.pre (after_writeValue (fun sc w u hs => h sc w u t hs.1 hs.2) hE')
      fun _ hs => hs ▸ hat
  have hf : ∀ f, After (· = st) ((fails f : Render Unit) r) (fun _ => On J) (On E) :=
    fun f => Couples.pre (after_fails hE) fun _ hs => hs ▸ hst
  rw [← modeOf]
  by_cases ha : (!(st.scope.tracking != 0 && decide (trust = .trusted)) &&
      decide (modeOf mark st.whenUndefined = .undefined) && mark.autoEscape) = true
  · rw [if_pos ha]
    have hm : modeOf mark st.whenUndefined = .undefined := by
      simp only [Bool.and_eq_true, decide_eq_true_eq] at ha
      exact ha.1.2
    cases st.escaper.escape s with
    | ok e => exact hsh _ (.inl hm)
    | error e => exact hf _
  · rw [if_neg ha]
    by_cases hm : modeOf mark st.whenUndefined = .undefined
    · cases (if modeOf mark st.whenUndefined =
        .undefined then .none else modeOf mark st.whenUndefined).escape s with
      | ok t => exact hsh _ (.inl hm)
      | error e => exact hf _
    · rw [if_neg hm]
      cases ht : (modeOf mark st.whenUndefined).escape s with
      | ok t => exact hsh _ (.inr ht)
      | error e => exact hf _

/-- What goes wrong while a text is written is passed over, so that it is the property itself that
holds then. -/
theorem after_writeArgument {arg} (hI : Stable I)
    (hn : ∀ sc w u (n : Int64), I sc w u → I sc (Numeral.ofInt n.toInt :: w) u)
    (hraw : arg.expr.callsEscaper = true → ∀ sc w u s, I sc w u → I sc (s :: w) u)
    (he : ∀ sc w u s t, I sc w u → Shows mark u s t → I sc (t :: w) u) (hE : I.Entails E)
    (v : Value) : Keeps I E r (writeArgument mark arg v) := by
  unfold writeArgument
  split
  · exact andThen (hI.number v) fun n => after_writeValue (fun sc w u => hn sc w u n) hE
  · refine andThen (hI.text v) fun text => ?_
    obtain ⟨s, trust⟩ := text
    cases s with
    | none => exact stays
    | some s =>
      refine Couples.catching (?_ : Couples _ _ _ _ (On I)) fun _ => stays
      split
      · next hc => exact after_writeValue (fun sc w u => hraw hc sc w u s) fun _ _ _ hs => hs
      · exact after_writeEscaped (fun sc w u t => he sc w u s t) (fun _ _ _ hs => hs)
          fun _ _ _ hs => hs

end Writing

/-- The end of an assignment, when the value is known. -/
def store (target : Value) (v : Option Bytes) (trust : Trust) : Render Unit := do
  match target.shown with
  | none => fails (.raise .assertion
      ("lvalue is NULL/empty in attempt to evaluate set to '" ++ v.getD [] ++ "'"))
  | some name =>
    let st ← get
    let (scope, result) := st.scope.assign name v trust
    set { st with scope }
    match result with
    | .ok () => pure ()
    | .error f => fails f

theorem after_store {target v trust} (hE : I.Entails E)
    (ha : ∀ name s w u, I s w u → (s.assign name v trust).2 = .ok () →
      I (s.assign name v trust).1 w u)
    (hf : ∀ name s w u, I s w u → E (s.assign name v trust).1 w u) :
    Keeps I E r (store target v trust) := by
  unfold store
  cases target.shown with
  | none => exact after_fails hE
  | some name =>
    refine looks fun st hst => ?_
    have hok := ha name _ _ _ hst
    have hfa := hf name _ _ _ hst
    generalize st.scope.assign name v trust = last at hok hfa
    obtain ⟨scope, result⟩ := last
    refine andThen (Q := fun _ st' => st' = { st with scope }) (sets fun _ _ => rfl) fun _ => ?_
    cases result with
    | ok _ =>
      apply returns
      rintro _ rfl
      exact hok rfl
    | error f =>
      apply stops
      rintro _ rfl
      exact hfa

/-- What is assigned has the property `T`; an assignment that fails may have changed the scope all
the same. -/
theorem after_assign {target value : Value} {T : Option Bytes → Trust → Prop} (hI : Stable I)
    (hE : I.Entails E) (hn : ∀ n : Int64, T (some (Numeral.ofInt n.toInt)) .trusted)
    (ht : value.isNumeric = false → Gives (fun p => T p.1 p.2) I E r (eval value.asText))
    (has : ∀ name v trust s w u, T v trust → I s w u → (s.assign name v trust).2 = .ok () →
      I (s.assign name v trust).1 w u)
    (hf : ∀ name v trust s w u, T v trust → I s w u → E (s.assign name v trust).1 w u) :
    Keeps I E r (assign target value) := by
  have hsto : ∀ target v trust, T v trust → Keeps I E r (store target v trust) :=
    fun target v trust hT => after_store hE (fun name s w u => has name v trust s w u hT)
      fun name s w u => hf name v trust s w u hT
  have ha : ∀ target, After (On I) ((if value.isNumeric then do
        let n ← eval value.asNumber
        store target (some (Numeral.ofInt n.toInt)) .trusted
      else do
        let p ← eval value.asText
        store target p.1 p.2 : Render Unit) r) (fun _ => On I) (On E) := by
    intro target
    split
    · exact andThen (hI.number value) fun n => hsto _ _ _ (hn n)
    · next hv =>
      refine andThen (ht (Bool.eq_false_iff.mpr hv)) fun p st hst => ?_
      exact hsto _ _ _ hst.1 st hst.2
  cases target with
  | number n written => exact stays
  | text s trust => exact ha (.text s trust)
  | name s => exact ha (.name s)
  | numberName s => exact ha (.numberName s)

/-- Two programs do the same and keep `I`, with `E` after a failure. -/
abbrev Coupled (I E : Invariant) (r : RenderSettings) (m m' : Render α) : Prop :=
  Couples (On I) (m r) (m' r) (fun _ => On I) (On E)

theorem couples_noting {text E P}
    (h : Couples P (m r) (m' r) Q E) : Couples P (noting text m r) (noting text m' r) Q E := by
  refine Couples.catching h fun stop => ?_
  cases stop with
  | failure | exhausted => exact stops fun _ hs => hs

/-- At the deepest level nothing more is read, and the failure says so. -/
theorem deeper_at_deepest (h : deepestNesting ≤ st.depth) (text : Bytes) (m : Render α) :
    deeper text m r st =
      (.error (.failure ((Failure.raise .maxRecursion "Stack depth too large.").note text)),
        st) := by
  unfold deeper
  rw [Program.get_bind, if_pos h]
  rfl

theorem deeper_above (h : st.depth < deepestNesting) (text : Bytes) (m : Render α) :
    deeper text m r st = (do
      let a ← m
      modify fun st => { st with depth := st.depth - 1 }
      return a : Render α) r { st with depth := st.depth + 1 } := by
  unfold deeper
  rw [Program.get_bind, if_neg (Nat.not_le.mpr h)]
  rfl

theorem couples_deeper {text} (hE : I.Entails E) (h : Coupled I E r action action') :
    Coupled I E r (deeper text action) (deeper text action') := by
  refine peeks fun s _ => ?_
  split
  · exact after_fails hE
  · refine andThen (changes (R := fun _ => On I) fun _ hs => hs) fun _ => ?_
    refine andThen h fun _ => ?_
    exact andThen (changes (R := fun _ => On I) fun _ hs => hs) fun _ => stays

/-- What holds around and inside of more local variables: `I` before and `H` after, `J` inside, and
`E` and `F` after a failure. -/
structure Brackets (ls : List Local) (I J H E F : Invariant) : Prop where
  enter : ∀ s w u, I s w u → J { s with locals := ls ++ s.locals } w u
  leave : ∀ s w u, J s w u → H { s with locals := s.locals.drop ls.length } w u
  stop : ∀ s w u, F s w u → E { s with locals := s.locals.drop ls.length } w u

/-- Local variables behind which everything is as it was before them. -/
abbrev Encloses (ls : List Local) (I J E F : Invariant) : Prop := Brackets ls I J I E F

/-- What is done between two changes of the state, the second of which is made after a failure too.
-/
theorem couples_between {enter leave P J H Q F E} (he : ∀ st, P st → J (enter st))
    (hl : ∀ st st', P st → H st' → Q (leave st st'))
    (hs : ∀ st st', P st → F st' → E (leave st st'))
    (h : Couples J (action r) (action' r) (fun _ => H) F) :
    Couples P (between enter leave action r) (between enter leave action' r) (fun _ => Q) E := by
  intro st hst
  obtain ⟨heq, hen⟩ := h (enter st) (he st hst)
  constructor
  · simp only [between, heq]
  · unfold between
    generalize action r (enter st) = last at hen
    obtain ⟨result, st'⟩ := last
    cases result with
    | ok a => exact hl st st' hst hen
    | error e => exact hs st st' hst hen

theorem couples_withLocals {ls} (hls : Brackets ls I J H E F)
    (h : Coupled J F r action action') :
    Couples (On I) (withLocals ls action r) (withLocals ls action' r) (fun _ => On H) (On E) :=
  couples_between (fun _ hst => hls.enter _ _ _ hst) (fun _ _ _ hst' => hls.leave _ _ _ hst')
    (fun _ _ _ hst' => hls.stop _ _ _ hst') h

theorem after_modifyLocal {f} (h : ∀ s w u, I s w u →
    J { s with locals := s.locals.modify 0 f } w u) :
    After (On I) (modifyLocal f r) (fun _ => On J) (On E) :=
  changes fun _ hs => h _ _ _ hs

theorem after_child? {k} : Keeps I E r (child? p k) := fun _ hs => ⟨rfl, hs⟩

theorem after_container : Keeps I E r (container p) := fun _ hs => ⟨rfl, hs⟩

/-- The variables with which blocks begin. -/
inductive Opens : Local → Prop
  | each x : Opens ⟨x, .node none [] 0, true, false⟩
  | withAs x p : Opens ⟨x, .node (some p) [] 0, false, false⟩
  | loop x n : Opens ⟨x, .number n, true, false⟩

/-- What a round does to the variable with which the block began. -/
inductive Renews : Local → (Local → Local) → Prop
  | each x c (k : Nat) : Renews ⟨x, .node none [] 0, true, false⟩
      fun l => { l with isFirst := k == 0, binding := .node (some c) [] 0 }
  | loop x n m isFirst isLast : Renews ⟨x, .number n, true, false⟩ (nextRound m isFirst isLast)

/-- What holds around the body of a block that begins with the variable `l`, where two programs do
the same. -/
def Surrounds (r : RenderSettings) (I E : Invariant) (l : Local) (m m' : Render Unit) : Prop :=
  ∃ J F, Encloses [l] I J E F ∧ Coupled J F r m m' ∧
    ∀ f, Renews l f → ∀ s w u, J s w u → J { s with locals := s.locals.modify 0 f } w u

/-- The rounds of a loop over children; what holds between them is kept by the start of a round and
by the round. -/
theorem couples_children (hr : ∀ f, Renews ⟨x, .node none [] 0, true, false⟩ f → ∀ s w u, I s w u →
      I { s with locals := s.locals.modify 0 f } w u) (h : Coupled I E r action action')
        (fuel k : Nat) :
    Coupled I E r (children action p fuel k) (children action' p fuel k) := by
  induction fuel generalizing k with
  | zero => exact stays
  | succ fuel ih =>
    refine andThen after_child? fun c => ?_
    cases c with
    | none => exact stays
    | some c =>
      refine andThen (after_modifyLocal (hr _ (.each x c k))) fun _ => ?_
      exact andThen h fun _ => ih (k + 1)

theorem couples_numbers {step start} (hr : ∀ f, Renews ⟨x, .number start, true, false⟩ f →
    ∀ s w u, I s w u →
      I { s with locals := s.locals.modify 0 f } w u) (h : Coupled I E r action action')
        (left : Nat) (isFirst : Bool) (n : Int64) :
    Coupled I E r (numbers action step left isFirst n) (numbers action' step left isFirst n) := by
  induction left generalizing isFirst n with
  | zero => exact stays
  | succ left ih =>
    refine andThen (after_modifyLocal (hr _ (.loop x start n isFirst _))) fun _ => ?_
    exact andThen h fun _ => ih false (n + step)

theorem after_countRounds {rounds} (hE : I.Entails E) : Keeps I E r (countRounds rounds) := by
  refine looks fun s hs => reads ?_
  refine Couples.pre (P := On I) ?_ fun s' hs' => hs' ▸ hs
  split
  · exact after_fails hE
  · split
    · exact after_fails hE
    · exact changes fun _ hs => hs

theorem couples_loop {ns} (hE : I.Entails E)
    (h : ∀ n, Surrounds r I E ⟨x, .number n, true, false⟩ action action') :
    Coupled I E r (loop x ns action) (loop x ns action') := by
  unfold loop
  obtain ⟨start, stop, step⟩ := bounds ns
  refine andThen (after_countRounds hE) fun _ => ?_
  split
  · obtain ⟨J, F, he, ha, hr⟩ := h start.toInt64
    exact couples_withLocals he (couples_numbers hr ha _ _ _)
  · exact stays

theorem couples_each (hI : Stable I)
    (h : Surrounds r I E ⟨x, .node none [] 0, true, false⟩ action action') :
    Coupled I E r (each x v action) (each x v action') := by
  obtain ⟨J, F, he, ha, hr⟩ := h
  refine andThen (hI.placeOf v) fun place => ?_
  cases place with
  | none => exact stays
  | some p =>
    refine andThen after_container fun within => ?_
    cases within with
    | none => exact stays
    | some p => exact couples_withLocals he (couples_children hr ha _ _)

/-- The variable that a call gives a parameter. -/
def parameter (x : Bytes) (e : Expr) : Render Local := do
  return ⟨x, ← bindParameter (← eval e.eval), false, false⟩

theorem after_bindParameter {B : Binding → Prop} (hI : Stable I)
    (ht : ∀ s trust, v = .text s trust → B (.text s trust false)) (hn : ∀ n, B (.number n))
    (hc : ∀ s w u, I s w u → ∀ l ∈ s.locals, ∀ t trust assigned,
      l.binding = .text t trust assigned → B (.text t trust false))
    (hno : ∀ s w u, I s w u → ∀ target,
      B (.node (Scope.findPlace target s).1 target s.locals.length)) :
    Gives B I E r (bindParameter v) := by
  have hna : ∀ s, Gives B I E r (bindParameter (.name s)) := by
    intro s
    refine peeks fun st hst => ?_
    have hb : Gives B I E r do
        let visible := (← get).scope.locals.length
        return .node (← eval (Scope.findPlace s)) s visible := by
      refine looks fun st hst => ?_
      have hf : After (· = st) (eval (Scope.findPlace s) r)
          (fun p st' => p = (Scope.findPlace s st.scope).1 ∧ On I st') (On E) := by
        rintro _ rfl
        exact ⟨rfl, rfl, (hI _ _).findPlace s _ hst⟩
      refine andThen hf fun p => Couples.given fun hp => ?_
      subst hp
      exact returns fun _ hs => ⟨hno _ _ _ hst s, hs⟩
    cases hl : st.scope.local? s with
    | none => exact hb
    | some l =>
      obtain ⟨position, -, hpo⟩ := Option.bind_eq_some_iff.mp hl
      have hmem : l ∈ st.scope.locals := mem_of_getElem? hpo
      obtain ⟨name, binding, isFirst, isLast⟩ := l
      cases binding with
      | node p target seen => exact hb
      | text t trust assigned => exact returns fun _ hs =>
        ⟨hc _ _ _ hst _ hmem t trust assigned rfl, hs⟩
      | number n => exact returns fun _ hs => ⟨hn n, hs⟩
  cases v with
  | text s trust => exact returns fun _ hs => ⟨ht s trust rfl, hs⟩
  | number n written => exact returns fun _ hs => ⟨hn n, hs⟩
  | name s | numberName s => exact hna s

theorem after_parameter (hI : Stable I) {x : Bytes} {e : Expr} (he : Keeps I E r (eval e.eval)) :
    Gives (fun _ => True) I E r (parameter x e) := by
  refine andThen he fun v => ?_
  have hb : Gives (fun _ => True) I E r (bindParameter v) :=
    after_bindParameter hI (fun _ _ _ => trivial) (fun _ => trivial)
      (fun _ _ _ _ _ _ _ _ _ _ => trivial)
      fun _ _ _ _ _ => trivial
  exact andThen hb fun _ => stays

/-- A macro call that tells its parameters to `body`. -/
def callBy (body : List Local → List Item → Render Unit) (mark : Mark) (callee : Bytes)
    (args : List Expr) :
    Render Unit :=
  between (fun st => { st with whenUndefined := modeOf mark st.whenUndefined })
    (fun outer st => { st with whenUndefined := outer.whenUndefined }) do
    match (← read).macros.find? (·.signature.name == callee) with
    | none => pure ()
    | some m =>
      let ls ← (m.signature.params.zip args).mapM fun (x, e) => parameter x e
      let note := ascii "execution of macro '" ++ callee ++ "' failed."
      withLocals ls (deeper note (noting note (body ls m.body)))

theorem call_eq (items : List Item → Render Unit) (mark : Mark) (callee : Bytes)
    (args : List Expr) :
    call items mark callee args = callBy (fun _ => items) mark callee args := rfl

/-- A macro call from the states of `G`. Between its parameters `J` holds, and `H` behind its body.
The mode for items that have none is that of the call, and it is put back. -/
theorem couples_callBy {mark : Mark} {callee : Bytes} {args : List Expr}
    {body body' : List Local → List Item → Render Unit}
    {B : Local → Prop} {D : Invariant} (he : ∀ s w u, G s w u → J s w (modeOf mark u))
    (hpa : J.Entails H) (hl : ∀ s₀ w₀ u s w u', G s₀ w₀ u → H s w u' → I s w u)
    (hf : ∀ s₀ w₀ u s w u', G s₀ w₀ u → D s w u' → E s w u)
    (hp : ∀ x, ∀ e ∈ args, Gives B J D r (parameter x e))
    (hbo : ∀ ls : List Local, (∀ l ∈ ls, B l) → ∃ K F, Brackets ls J K H D F ∧ K.Entails F ∧
      ∀ m ∈ r.macros, Coupled K F r (body ls m.body) (body' ls m.body)) :
    Couples (On G) (callBy body mark callee args r) (callBy body' mark callee args r) (fun _ =>
      On I) (On E) := by
  refine couples_between (J := On J) (H := On H) (F := On D) (fun st hst => he _ _ _ hst)
    (fun st st' hst hst' => hl _ _ _ _ _ _ hst hst')
    (fun st st' hst hst' => hf _ _ _ _ _ _ hst hst') (reads ?_)
  cases hfi : r.macros.find? (·.signature.name == callee) with
  | none => exact returns fun _ hs => hpa _ _ _ hs
  | some m =>
    have hmem : m ∈ r.macros := mem_of_find?_eq_some hfi
    refine andThen (maps fun xe hxe => hp xe.1 xe.2 (of_mem_zip hxe).2) fun ls => ?_
    intro st hst
    obtain ⟨K, F, hb, hF, hi⟩ := hbo ls hst.1
    exact couples_withLocals hb (couples_deeper hF (couples_noting (hi m hmem))) st hst.2

section Items

variable {fuel : Nat} {items items' : List Item → Render Unit} {x : Item}

/-- An item that renders another text: a number is written as it is, and a text is left to `f`. -/
def later (mark : Mark) (arg : Argument) (f : Value → Bytes → Render Unit) : Render Unit := do
  let v ← eval arg.expr.eval
  if v.isNumeric then writeValue mark arg.source (Numeral.ofInt (← eval v.asNumber).toInt)
  else
    match (← eval v.asText).1 with
    | some s => f v s
    | none => pure ()

/-- What makes an item keep `I`, with `E` after a failure. The values of its arguments have the
property `V`. -/
structure Sustains (r : RenderSettings) (fuel : Nat) (items items' : List Item → Render Unit)
    (V : Value → Prop) (I E : Invariant) (x : Item) : Prop where
  stable : Stable I
  stops : I.Entails E
  value : ∀ e ∈ x.action.evaluated, Gives V I E r (eval e.eval)
  literal : ∀ s, x.action = .literal (some s) → Keeps I E r (writeLiteral x.mark s)
  name : ∀ s name, x.action = .name s → Keeps I E r (writeEscaped x.mark (some s) name .untrusted)
  argument : ∀ arg v, x.action.shown? = some arg → Keeps I E r (writeArgument x.mark arg v)
  assign : ∀ target value, x.action = .set target value → ∀ t v, V v → Keeps I E r (assign t v)
  /-- What renders another template or a macro is looked at apart. -/
  deep : x.action.shallow = false → Coupled I
    E r (Render.action fuel items x) (Render.action fuel items' x)
  body : Coupled I E r (items x.body) (items' x.body)
  otherwise : Coupled I E r (items x.otherwise) (items' x.otherwise)
  inside : ∀ l, Opens l → Surrounds r I E l (items x.body) (items' x.body)

theorem Sustains.coupled {V} (h : Sustains r fuel items items' V I E x) :
    Coupled I E r (Render.action fuel items x) (Render.action fuel items' x) := by
  have hI := h.stable
  have hd : Keeps I E r (pure ()) := stays
  have hva := h.value
  obtain ⟨mark, act, body, otherwise⟩ := x
  cases act with
  | literal text =>
    cases text with
    | none => exact hd
    | some s => exact h.literal s rfl
  | name s =>
    refine andThen (after_lookup fun w u => (hI w u).nodeOf _) fun found => ?_
    cases found with
    | none => exact hd
    | some found =>
      obtain ⟨root, n⟩ := found
      dsimp only
      cases n.name? with
      | none => exact hd
      | some name => exact h.name s name rfl
  | var raw arg =>
    exact andThen (hva _ mem_cons_self) fun v => Couples.given fun _ => h.argument arg v rfl
  | evar name => exact hd
  | lvar | includeLater => exact h.deep rfl
  | branch word arg =>
    refine andThen (hva _ mem_cons_self) fun v => Couples.given fun _ =>
      andThen (hI.truth v) fun holds => ?_
    cases holds with
    | true => exact h.body
    | false => exact h.otherwise
  | each y arg =>
    exact andThen (hva _ mem_cons_self) fun v => Couples.given fun _ =>
      couples_each hI (h.inside _ (.each y))
  | withAs y arg =>
    refine andThen (hva _ mem_cons_self) fun v => Couples.given fun _ => ?_
    refine andThen (hI.placeOf v) fun place => ?_
    cases place with
    | none => exact hd
    | some p =>
      obtain ⟨J, F, hen, hb, -⟩ := h.inside _ (.withAs y p)
      exact couples_withLocals hen hb
  | define signature => exact hd
  | call callee args => exact h.deep rfl
  | set target value =>
    refine andThen (hva _ mem_cons_self) fun t => Couples.given fun _ => ?_
    exact andThen (hva _ (mem_cons_of_mem _ mem_cons_self)) fun v => Couples.given fun hv =>
      h.assign _ _ rfl t v hv
  | loop y range =>
    have hr : ∀ e ∈ range,
        Gives (fun _ => True) I E r do return (← eval (← eval e.eval).asNumber).toInt32 := by
      intro e he
      refine andThen (hva e he) fun v => Couples.given fun _ => andThen (hI.number v) fun n => ?_
      exact returns fun _ hs => ⟨trivial, hs⟩
    exact andThen (maps hr) fun ns => Couples.given fun _ => couples_loop h.stops fun n =>
      h.inside _ (.loop y n)
  | alt arg =>
    refine andThen (hva _ mem_cons_self) fun v => Couples.given fun _ =>
      andThen (hI.truth v) fun holds => ?_
    cases holds with
    | true => exact h.argument arg v rfl
    | false => exact h.body
  | escape mode source => exact h.body
  | contentType number type source =>
    refine reads ?_
    split
    · refine andThen (Q := fun _ => On I) (changes fun _ hs => hs) fun _ => ?_
      refine peeks fun st _ => ?_
      cases st.escaper.setContentType type.strip with
      | ok escaper => exact changes fun _ hs => hs
      | error e => exact after_fails h.stops
    · exact hd

end Items

end Render

end TemplateKit
