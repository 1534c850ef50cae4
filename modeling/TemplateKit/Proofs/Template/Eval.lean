import TemplateKit.Proofs.Template.Scope
import TemplateKit.Template.Eval

/-!
# What evaluating keeps

A property of the scope that looking up names keeps is kept by evaluating. What expressions add is
told by a second property, of texts and the trust in them: if it holds of the values of names, of
the constants and of the results of escaping functions that a template has, then it holds of every
text that an expression gives.
-/

namespace TemplateKit

open Expr Builtin

namespace Scope

namespace KeptByFinding

variable {I : Scope → Prop} (hI : KeptByFinding I)

include hI

theorem text (v : Value) : Yields I v.asText (fun _ s => I s) := by
  cases v with
  | name s => exact hI.lookup s
  | text | number | numberName => exact .stays

theorem number (v : Value) : Yields I v.asNumber (fun _ s => I s) := by
  cases v with
  | name s | numberName s => exact hI.int s
  | text | number => exact .stays

theorem truth (v : Value) : Yields I v.asTruth (fun _ s => I s) := by
  cases v with
  | name s => exact .andThen (hI.lookup s) fun _ => .stays
  | numberName s => exact hI.int s
  | text | number => exact .stays

theorem written (v : Value) : Yields I v.asWritten (fun _ s => I s) := by
  cases v with
  | name s => exact .andThen (hI.lookup s) fun _ => .stays
  | text s trust => exact .stays
  | number | numberName => exact .andThen (hI.number _) fun _ => .stays

theorem nodeOf (v : Value) : Yields I (nodeOf v) (fun _ s => I s) := by
  unfold Builtin.nodeOf
  cases v with
  | name s => exact .andThen (hI.findPlace s) fun _ => .looks fun _ hs => hs
  | text | number | numberName => exact .stays

omit hI in
theorem localOf (v : Value) : Yields I (localOf v) (fun _ s => I s) := by
  unfold Builtin.localOf
  cases v with
  | name s =>
    dsimp only
    split
    · exact .stays
    · exact .looks fun _ hs => hs
  | text | number | numberName => exact .stays

theorem properText (v : Value) : Yields I (properText v) (fun _ s => I s) := by
  unfold Builtin.properText
  split
  · exact .stays
  · exact .andThen (hI.text v) fun _ => .stays

omit hI in
theorem isLast (l : Local) : Yields I (isLast l) (fun _ s => I s) := by
  unfold Builtin.isLast
  split
  · exact .stays
  · exact .looks fun _ hs => hs
  · exact .stays

end KeptByFinding

end Scope

/-- A text and the trust in it have a property. -/
def Value.Warranted (W : Option Bytes × Trust → Prop) : Value → Prop
  | text s trust => W (s, trust)
  | _ => True

section Functions

variable {I : Scope → Prop} {W : Option Bytes × Trust → Prop} (hI : Scope.KeptByFinding I)
  (huntrusted : ∀ v, W (v, .untrusted))

include hI huntrusted

/-- No text that a built-in function makes is trusted. -/
theorem Builtin.apply_yields (b : Builtin) (args : List Value) :
    Yields I (b.apply args) (fun v s => v.Warranted W ∧ I s) := by
  unfold apply
  split
  · next v =>
    refine .andThen (hI.nodeOf v) fun found => ?_
    cases found with
    | none | some => exact .gives trivial
  · next v =>
    cases v with
    | text t trust => exact .gives (huntrusted t)
    | _ =>
      refine .andThen (hI.nodeOf _) fun found => ?_
      cases found with
      | none | some => exact .gives (huntrusted _)
  · next v => exact .andThen (Scope.KeptByFinding.localOf v) fun _ => .gives trivial
  · next v =>
    refine .andThen (Scope.KeptByFinding.localOf v) fun found => ?_
    cases found with
    | none => exact .gives trivial
    | some l => exact .andThen (Scope.KeptByFinding.isLast l) fun _ => .gives trivial
  · next v => exact .andThen (hI.number v) fun _ => .gives trivial
  · next v w => exact .andThen (hI.number v) fun _ => .andThen (hI.number w) fun _ => .gives trivial
  · next v w => exact .andThen (hI.number v) fun _ => .andThen (hI.number w) fun _ => .gives trivial
  · next v w =>
      exact .andThen (hI.written v) fun _ => .andThen (hI.written w) fun _ => .gives trivial
  · next v w x =>
    refine .andThen (hI.written v) fun _ => .andThen (hI.number w) fun _ => ?_
    exact .andThen (hI.number x) fun _ => .gives (huntrusted _)
  · next v => exact .andThen (hI.properText v) fun _ => .gives trivial
  · next v => exact .andThen (hI.properText v) fun _ => .gives trivial
  · next v => exact .andThen (hI.written v) fun _ => .gives (huntrusted _)
  · exact .gives trivial

theorem FunctionBody.apply_yields (body : FunctionBody) (args : List Value) :
    Yields I (body.apply args) (fun v s => v.Warranted W ∧ I s) := by
  unfold FunctionBody.apply
  split
  · exact Builtin.apply_yields hI huntrusted _ _
  · next f v =>
    split
    · next hn =>
      intro s hs
      cases v with
      | text t trust => cases hn
      | _ => trivial
    · exact .andThen (hI.text v) fun _ => .gives (huntrusted _)
  · next f v w =>
    refine .andThen (hI.written v) fun _ => .andThen (hI.number w) fun _ => ?_
    exact .gives (huntrusted _)
  · exact .gives trivial

end Functions

namespace Expr

/-- Induction over an expression with the arguments of its calls. -/
theorem call_induction {P : Expr → Prop} (text : ∀ s, P (.text s))
    (number : ∀ n written, P (.number n written))
    (name : ∀ s, P (.name s)) (numberName : ∀ s, P (.numberName s))
    (unary : ∀ op e, P e → P (.unary op e))
    (paren : ∀ e, P e → P (.paren e)) (binary : ∀ op a b, P a → P b → P (.binary op a b))
    (index : ∀ a b, P a → P b → P (.index a b)) (member : ∀ a b, P a → P b → P (.member a b))
    (comma : ∀ last before, P last → P before → P (.comma last before))
    (call : ∀ f args, (∀ e ∈ args, P e) → P (.call f args)) (e : Expr) : P e :=
  @Expr.rec P (fun es => ∀ e ∈ es, P e) text number name numberName unary paren binary index
    member comma call
    (fun _ h => nomatch h) (fun _ _ he hes => List.forall_mem_cons.mpr ⟨he, hes⟩) e

mutual

/-- Are the constants of an expression among `C`, and the escaping functions that it calls among
`F`? -/
def within (C : Bytes → Bool) (F : Function → Bool) (e : Expr) : Bool :=
  match e with
  | text s => C s
  | unary _ e | paren e => e.within C F
  | binary _ a b | index a b | member a b | comma a b => a.within C F && b.within C F
  | call f args => (!f.escaping || F f) && allWithin C F args
  | _ => true

def allWithin (C : Bytes → Bool) (F : Function → Bool) (es : List Expr) : Bool :=
  match es with
  | [] => true
  | e :: rest => e.within C F && allWithin C F rest

end

theorem allWithin_iff {C F es} : allWithin C F es = true ↔ ∀ e ∈ es, e.within C F = true := by
  induction es with
  | nil => simp [allWithin]
  | cons e es ih => simp [allWithin, ih]

end Expr

/-- A property of scopes that evaluating keeps, with a property that the texts of expressions then
have. -/
structure Warrant (C : Bytes → Bool) (F : Function → Bool) (I : Scope → Prop)
    (W : Option Bytes × Trust → Prop) :
    Prop where
  finding : Scope.KeptByFinding I
  value : ∀ name, Yields I (Scope.value name) (fun p s => W p ∧ I s)
  untrusted : ∀ v, W (v, .untrusted)
  constant : ∀ s, C s = true → W (some s, .trusted)
  result : ∀ f args sc s trust, f.escaping = true → F f = true →
    (f.body.apply args sc).1 = .text s trust →
    W (s, .trusted)
  join : ∀ s t s' t', W (some s, t) → W (some s', t') → W (some (s ++ s'), t.join t')

namespace Warrant

variable {C : Bytes → Bool} {F : Function → Bool} {I : Scope → Prop}
  {W : Option Bytes × Trust → Prop}

/-- A program keeps the property of the scope, and what it gives has that of texts. -/
abbrev Sound (I : Scope → Prop) (W : Option Bytes × Trust → Prop) (m : Eval Value) : Prop :=
  After I m (fun v s => v.Warranted W ∧ I s) I

theorem evalAll {es} (h : ∀ e ∈ es, Sound I W e.eval) :
    After I (evalAll es) (fun _ s => I s) I := by
  induction es with
  | nil => exact .stays
  | cons e es ih =>
    rw [List.forall_mem_cons] at h
    rw [Expr.evalAll]
    refine .andThen h.1 fun v => .given fun _ => .andThen (ih h.2) fun vs => ?_
    exact .stays

theorem operands {a b} {f : Value → Value → Eval Value}
    (ha : within C F a = true → Sound I W a.eval)
    (hb : within C F b = true → Sound I W b.eval) (h : (a.within C F && b.within C F) = true)
    (hf : ∀ v w, v.Warranted W → w.Warranted W → Sound I W (f v w)) :
    Sound I W (do f (← a.eval) (← b.eval)) := by
  rw [Bool.and_eq_true] at h
  exact .andThen (ha h.1) fun v => .given fun hv => .andThen (hb h.2) fun w => .given fun hw =>
    hf v w hv hw

variable (hI : Warrant C F I W)

include hI

theorem text {v : Value} (hv : v.Warranted W) : Yields I v.asText (fun p s => W p ∧ I s) := by
  cases v with
  | name s => exact hI.value s
  | text s trust => exact .gives hv
  | number | numberName => exact .gives (hI.untrusted none)

/-- The result of an escaping function is trusted, and no other text that a function makes. -/
theorem apply {f} (hf : (!f.escaping || F f) = true) (args : List Value) :
    Yields I (f.apply args) (fun v s => v.Warranted W ∧ I s) := by
  have hb : Yields I (f.body.apply args)
      (fun v s => (∃ sc, (f.body.apply args sc).1 = v) ∧ v.Warranted W ∧ I s) := fun s hs =>
    ⟨⟨s, rfl⟩, FunctionBody.apply_yields hI.finding hI.untrusted f.body args s hs⟩
  refine Yields.andThen hb fun v => .given fun hm => ?_
  obtain ⟨sc, hm⟩ := hm
  cases he : f.escaping with
  | false => exact .stays
  | true =>
    cases v with
    | text t trust =>
      have hF : F f = true := by simpa [he] using hf
      exact fun s hs => ⟨hI.result f args sc t trust he hF hm, hs.2⟩
    | _ => exact .stays

theorem onTexts (op : BinaryOp) {p q} (hp : W p) (hq : W q) : (op.onTexts p q).Warranted W := by
  unfold BinaryOp.onTexts
  split
  · trivial
  · trivial
  · split
    · exact hq
    · exact hp
    · exact hI.join _ _ _ _ hp hq

theorem select (v w : Value) : Yields I (select v w) (fun v s => v.Warranted W ∧ I s) := by
  have hn : ∀ key, (memberName v key).Warranted W := by
    intro key
    unfold memberName
    split <;> trivial
  unfold Expr.select
  split
  · exact .andThen (hI.finding.number _) fun _ => .gives trivial
  · exact .andThen (hI.finding.number _) fun _ => .gives trivial
  · exact .andThen (hI.finding.text _) fun _ => .gives (hn _)

/-- Evaluating keeps the property of the scope, and the texts of expressions have theirs. -/
theorem eval (e : Expr) (he : e.within C F = true) : Sound I W e.eval := by
  have ht : ∀ v : Value, After I (liftM v.asTruth : Eval Int64) (fun _ s => I s) I :=
    fun v => .lifts (hI.finding.truth v)
  have hn : ∀ v : Value, After I (liftM v.asNumber : Eval Int64) (fun _ s => I s) I :=
    fun v => .lifts (hI.finding.number v)
  have hva : ∀ name, After I (liftM (Scope.value name) : Eval _) (fun _ s => I s) I :=
    fun name => .lifts (hI.finding.lookup name)
  have hc : ∀ (op : BinaryOp) n m, Sound I W (do return .number (← op.onNumbers n m) none) :=
    fun op n m => .andThen (.finds (fun _ _ _ hs => hs) fun _ hs => hs) fun _ => .gives trivial
  induction e using call_induction with
  | text t =>
    rw [Expr.eval]
    exact .gives (hI.constant t he)
  | number | name | numberName =>
    rw [Expr.eval]
    exact .gives trivial
  | paren e ih =>
    rw [Expr.eval]
    exact ih he
  | unary op e ih =>
    rw [Expr.eval]
    refine .andThen (ih he) fun v => .given fun hv => ?_
    split
    · exact .andThen (ht _) fun _ => .gives trivial
    · exact .andThen (hva _) fun _ => .gives trivial
    · exact .andThen (hva _) fun _ => .gives trivial
    · exact .gives trivial
  | comma last before ihlast ihbefore =>
    rw [Expr.eval]
    exact operands ihlast ihbefore he fun v _ hv _ => .gives hv
  | index a b iha ihb =>
    rw [Expr.eval]
    exact operands iha ihb he fun v w _ _ => .lifts (hI.select v w)
  | member a b iha ihb =>
    rw [Expr.eval]
    refine operands iha ihb he fun v w _ _ => ?_
    split
    · exact .gives trivial
    · exact .gives trivial
    · exact .lifts (hI.select v _)
  | binary op a b iha ihb =>
    rw [Expr.eval]
    refine operands iha ihb he fun v w hv hw => ?_
    split
    · exact .andThen (ht v) fun _ => .andThen (ht w) fun _ => hc _ _ _
    · exact .andThen (ht v) fun _ => .andThen (ht w) fun _ => hc _ _ _
    · split
      · exact .andThen (hn v) fun _ => .andThen (hn w) fun _ => hc _ _ _
      · refine .andThen (.lifts (hI.text hv)) fun p => .given fun hp => ?_
        refine .andThen (.lifts (hI.text hw)) fun q => .given fun hq => ?_
        exact .gives (hI.onTexts op hp hq)
  | call f args ih =>
    rw [within, Bool.and_eq_true, allWithin_iff] at he
    rw [Expr.eval]
    refine .andThen (evalAll fun e hmem => ih e hmem (he.2 e hmem)) fun vs => ?_
    exact .lifts (hI.apply he.1 vs)

end Warrant

theorem Expr.within_all (e : Expr) : e.within (fun _ => true) (fun _ => true) = true := by
  induction e using call_induction with
  | text | number | name | numberName => rfl
  | unary op e ih | paren e ih => exact ih
  | binary _ a b iha ihb | index a b iha ihb | member a b iha ihb | comma a b iha ihb =>
    simp [within, iha, ihb]
  | call f args ih =>
    have ha := allWithin_iff.mpr ih
    simp [within, ha]

theorem Scope.KeptByFinding.eval {I} (hI : KeptByFinding I) (e : Expr) :
    After I e.eval (fun _ s => I s) I := by
  have hw : Warrant (fun _ => true) (fun _ => true) I (fun _ => True) :=
    { finding := hI
      value := fun name s hs => ⟨trivial, hI.lookup name s hs⟩
      untrusted := fun _ => trivial
      constant := fun _ _ => trivial
      result := fun _ _ _ _ _ _ _ _ => trivial
      join := fun _ _ _ _ _ _ => trivial }
  exact (hw.eval e e.within_all).post fun _ _ hs => hs.2

end TemplateKit
