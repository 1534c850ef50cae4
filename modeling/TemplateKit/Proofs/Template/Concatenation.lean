import TemplateKit.Proofs.Template.Agreement
import TemplateKit.Proofs.Template.Escaping

/-!
# Escaping calls in concatenations

An expression that puts texts together is evaluated operand by operand. Whether its value is escaped
when it is written is decided once for the whole expression: a call of an escaping function in one
operand leaves the texts of all of them as they are.
-/

namespace TemplateKit

open Program List Value Expr Html

/-- The texts of values, one after the other, with the trust in them. -/
def Value.texts : List Value → StateM Scope (List (Option Bytes × Trust))
  | [] => pure []
  | v :: vs => do
    let p ← v.asText
    return p :: (← texts vs)

def Value.ofText (p : Option Bytes × Trust) : Value := .text p.1 p.2

def Value.joined (ps : List (Option Bytes × Trust)) : Bytes := ps.flatMap fun p => p.1.getD []

theorem Value.texts_ofText (ps : List (Option Bytes × Trust)) (s : Scope) :
    texts (ps.map ofText) s = (ps, s) := by
  induction ps with
  | nil => rfl
  | cons p ps ih =>
    have hs : texts ((p :: ps).map ofText) s =
        (p :: (texts (ps.map ofText) s).1, (texts (ps.map ofText) s).2) := rfl
    rw [hs, ih]

namespace Expr

/-- The operands of a sum, from left to right, through parentheses. -/
def operands : Expr → List Expr
  | paren e => e.operands
  | binary .add a b => a.operands ++ b.operands
  | e => [e]

mutual

/-- Is the value of the expression a text or a name, whatever the data are? -/
def givesText (e : Expr) : Bool :=
  match e with
  | text _ | name _ | index _ _ | member _ _ => true
  | number _ _ | numberName _ | unary _ _ => false
  | paren e => e.givesText
  | binary op a b => op == .add && a.givesText && b.givesText
  | comma last _ => last.givesText
  | call f args =>
    match f.body with
    | .filter _ => args.length == 1 && allGiveText args
    | .textAndNumber _ _ => args.length == 2
    | .builtin .name | .builtin .lower => args.length == 1
    | .builtin .slice => args.length == 3
    | .builtin _ => false

def allGiveText (es : List Expr) : Bool :=
  match es with
  | [] => true
  | e :: rest => e.givesText && allGiveText rest

end

/-- Is the operand a constant or the result of an escaping function? -/
def isGuarded : Expr → Bool
  | text _ => true
  | call f _ => f.escaping
  | _ => false

theorem callsEscaper_eq_any (e : Expr) : e.callsEscaper = e.operands.any callsEscaper := by
  induction e using operands.induct with
  | case1 e ih => rw [callsEscaper, operands, ih]
  | case2 a b iha ihb => rw [callsEscaper, operands, any_append, iha, ihb]
  | case3 e hp hadd => rw [operands.eq_3 e hp hadd, any_cons, any_nil, Bool.or_false]

theorem allGiveText_iff {es} : allGiveText es = true ↔ ∀ e ∈ es, e.givesText = true := by
  induction es with
  | nil => simp [allGiveText]
  | cons e es ih => simp [allGiveText, ih]

end Expr

def Value.IsText (v : Value) : Prop := ∃ t trust, v = .text t trust

theorem FunctionBody.apply_isText {f args} (h : (call f args).givesText = true)
    {vs} (hvs : List.Forall₂ (fun e v => e.givesText = true → v.isNumeric = false) args vs) :
    Yields (fun _ => True) (f.body.apply vs) (fun v _ => v.IsText) := by
  have hl : ∀ {n}, (args.length == n) = true → vs.length = n :=
    fun h => hvs.length_eq.symm.trans (beq_iff_eq.mp h)
  rw [givesText] at h
  split at h
  · next g hg =>
    rw [Bool.and_eq_true, beq_iff_eq, allGiveText_iff] at h
    obtain ⟨hone, ht⟩ := h
    obtain ⟨e, rfl⟩ := length_eq_one_iff.mp hone
    cases hvs with
    | cons hv hnil =>
      cases hnil
      have hn := hv (ht e mem_cons_self)
      rw [hg, FunctionBody.apply, if_neg (by rw [hn]; exact Bool.false_ne_true)]
      exact fun _ _ => ⟨_, _, rfl⟩
  · next g hg =>
    obtain ⟨v, w, rfl⟩ := length_eq_two.mp (hl h)
    rw [hg]
    exact fun _ _ => ⟨_, _, rfl⟩
  · next hg =>
    obtain ⟨v, rfl⟩ := length_eq_one_iff.mp (hl h)
    rw [hg]
    cases v with
    | text t trust => exact fun _ _ => ⟨_, _, rfl⟩
    | _ =>
      refine Yields.andThen (Q := fun _ _ => True) (fun _ _ => trivial) fun found => ?_
      cases found <;> exact fun _ _ => ⟨_, _, rfl⟩
  · next hg =>
    obtain ⟨v, rfl⟩ := length_eq_one_iff.mp (hl h)
    rw [hg]
    exact fun _ _ => ⟨_, _, rfl⟩
  · next hg =>
    obtain ⟨u, v, w, rfl⟩ := length_eq_three.mp (hl h)
    rw [hg]
    exact fun _ _ => ⟨_, _, rfl⟩
  · cases h

theorem Function.apply_isText {f args} (h : (call f args).givesText = true)
    {vs} (hvs : List.Forall₂ (fun e v => e.givesText = true → v.isNumeric = false) args vs) :
    Yields (fun _ => True) (f.apply vs) (fun v _ => v.IsText) := by
  refine Yields.andThen (FunctionBody.apply_isText h hvs) fun v => ?_
  rintro s ⟨t, trust, rfl⟩
  cases f.escaping with
  | true => exact ⟨t, .trusted, rfl⟩
  | false => exact ⟨t, trust, rfl⟩

namespace Expr

variable {s s' : Scope} {v : Value} {e : Expr}

theorem eval_bind {α β : Type} {m : Eval α} {f : α → Eval β} {b : β}
    (h : (m >>= f) s = (.ok b, s')) :
    ∃ a t, m s = (.ok a, t) ∧ f a t = (.ok b, s') := by
  rw [bind_apply] at h
  generalize m s = last at h
  obtain ⟨result, t⟩ := last
  cases result with
  | ok a => exact ⟨a, t, rfl, h⟩
  | error e => cases h

theorem lift_ok {α : Type} {m : StateM Scope α} {a : α} (h : (liftM m : Eval α) s = (.ok a, s')) :
    m s = (a, s') := by
  have hrun : (Except.ok (m s).1, (m s).2) = ((.ok a, s') : Except Overflow α × Scope) := h
  cases hrun
  rfl

theorem select_isName (a b : Value) (s : Scope) : ∃ x, (select a b s).1 = .name x := by
  have hn : ∀ key, ∃ x, memberName a key = .name x := by
    intro key
    unfold memberName
    split <;> exact ⟨_, rfl⟩
  cases b with
  | number | numberName => exact ⟨_, rfl⟩
  | text | name => exact hn _

theorem onTexts_isText (a b : Option Bytes × Trust) :
    ∃ t trust, BinaryOp.add.onTexts a b = .text t trust ∧
      t.getD [] = a.1.getD [] ++ b.1.getD [] := by
  obtain ⟨a, ta⟩ := a
  obtain ⟨b, tb⟩ := b
  cases a with
  | none => exact ⟨_, _, rfl, rfl⟩
  | some a =>
    cases b with
    | none => exact ⟨_, _, rfl, (append_nil a).symm⟩
    | some b => exact ⟨_, _, rfl, rfl⟩

theorem eval_add {a b s₁ s₂ w} (ha : a.eval s = (.ok v, s₁))
    (hb : b.eval s₁ = (.ok w, s₂)) (hv : v.isNumeric = false) (hw : w.isNumeric = false) :
    (binary .add a b).eval s =
    (.ok (BinaryOp.add.onTexts (v.asText s₂).1 (w.asText (v.asText s₂).2).1),
      (w.asText (v.asText s₂).2).2) := by
  rw [eval, bind_of_ok ha, bind_of_ok hb]
  rw [hv, hw]
  rfl

theorem evalAll_forall₂ {P es vs}
    (hP : ∀ e ∈ es, ∀ v t t', e.eval t = (.ok v, t') → P e v) (h : evalAll es s = (.ok vs, s')) :
    List.Forall₂ P es vs := by
  induction es generalizing s vs with
  | nil =>
    cases h
    exact .nil
  | cons e es ih =>
    rw [forall_mem_cons] at hP
    obtain ⟨v, s₁, he, hr⟩ := eval_bind h
    obtain ⟨ws, s₂, hes, hend⟩ := eval_bind hr
    cases hend
    exact .cons (hP.1 v s s₁ he) (ih hP.2 hes)

theorem eval_call {f args} (h : (call f args).givesText = true)
    (har : ∀ e ∈ args, ∀ v t t', e.eval t = (.ok v, t') → e.givesText = true → v.isNumeric = false)
    (hrun : (call f args).eval s = (.ok v, s')) : ∃ vs s₁ t trust, v = .text t trust ∧
      (f.apply vs s₁).1 = v := by
  obtain ⟨vs, s₁, hvs, hend⟩ := eval_bind hrun
  obtain ⟨t, trust, ha⟩ := Function.apply_isText h (evalAll_forall₂ har hvs) s₁ trivial
  rw [lift_ok hend] at ha
  exact ⟨vs, s₁, t, trust, ha, by rw [lift_ok hend]⟩

theorem eval_isText (h : e.givesText = true) (hrun : e.eval s = (.ok v, s')) :
    v.isNumeric = false := by
  have hs : ∀ {v₁ v₂ v : Value} {s s' : Scope}, (liftM (select v₁ v₂) : Eval Value) s =
      (.ok v, s') →
      v.isNumeric = false := by
    intro v₁ v₂ v s s' hend
    obtain ⟨x, hx⟩ := select_isName v₁ v₂ s
    rw [lift_ok hend] at hx
    cases hx
    rfl
  induction e using call_induction generalizing s s' v with rw [eval] at hrun
  | text t | name t =>
    cases hrun
    rfl
  | number | numberName | unary => cases h
  | paren e ih => exact ih h hrun
  | comma last before ihlast ihbefore =>
    obtain ⟨w, s₁, hl, hr⟩ := eval_bind hrun
    obtain ⟨_, s₂, -, hend⟩ := eval_bind hr
    cases hend
    exact ihlast h hl
  | index a b =>
    obtain ⟨v₁, s₁, -, hr⟩ := eval_bind hrun
    obtain ⟨v₂, s₂, -, hend⟩ := eval_bind hr
    exact hs hend
  | member a b =>
    obtain ⟨v₁, s₁, -, hr⟩ := eval_bind hrun
    obtain ⟨v₂, s₂, -, hend⟩ := eval_bind hr
    cases v₂ with
    | name | numberName =>
      cases hend
      rfl
    | text | number => exact hs hend
  | binary op a b iha ihb =>
    rw [givesText, Bool.and_eq_true, Bool.and_eq_true, beq_iff_eq] at h
    obtain ⟨⟨rfl, ha⟩, hb⟩ := h
    obtain ⟨v₁, s₁, ha', hr⟩ := eval_bind hrun
    obtain ⟨v₂, s₂, hb', -⟩ := eval_bind hr
    obtain ⟨t, trust, ht, -⟩ := onTexts_isText (v₁.asText s₂).1 (v₂.asText (v₁.asText s₂).2).1
    have hadd := eval_add ha' hb' (iha ha ha') (ihb hb hb')
    rw [eval, hrun, ht] at hadd
    cases hadd
    rfl
  | call f args ih =>
    obtain ⟨-, -, t, trust, rfl, -⟩ := eval_call h (fun e he v t t' hrun hg => ih e he hg hrun) hrun
    rfl

/-- The values of the operands. Those of a concatenation are read as texts when all of them are
known. -/
def operandValues : Expr → Eval (List Value)
  | paren e => e.operandValues
  | binary .add a b => do
    let vs ← a.operandValues
    let ws ← b.operandValues
    let ps ← texts vs
    let qs ← texts ws
    return (ps ++ qs).map ofText
  | e => do return [← e.eval]

/-- The texts of the operands, with the trust in them. -/
def operandTexts (e : Expr) : Eval (List (Option Bytes × Trust)) := do
  let vs ← e.operandValues
  texts vs

/-- The values of operands stand for the value of the whole: they are one value, or texts that are
put together. -/
inductive StandFor : List Value → Value → Prop
  | alone (v : Value) : StandFor [v] v
  | together {ps : List (Option Bytes × Trust)} {t : Option Bytes} {trust : Trust} (h : t.getD [] =
      joined ps) :
      StandFor (ps.map ofText) (.text t trust)

theorem StandFor.texts {vs} (h : StandFor vs v) (s : Scope) :
    ∃ ps, texts vs s = (ps, (v.asText s).2) ∧ (v.asText s).1.1.getD [] = joined ps := by
  cases h with
  | alone => exact ⟨[(v.asText s).1], rfl, (append_nil _).symm⟩
  | @together ps t trust h => exact ⟨ps, texts_ofText ps s, h⟩

theorem eval_operands (h : ∀ o ∈ e.operands, o.givesText = true) (s : Scope) :
    (∃ overflow s', e.operandValues s = (.error overflow, s') ∧ e.eval s = (.error overflow, s')) ∨
      ∃ vs v s', e.operandValues s = (.ok vs, s') ∧ e.eval s = (.ok v, s') ∧ v.isNumeric = false ∧
        StandFor vs v ∧
        (1 < e.operands.length → ∃ t trust, v = .text t trust) := by
  induction e using operands.induct generalizing s with
  | case1 e ih => exact ih h s
  | case2 a b iha ihb =>
    rw [operands, forall_mem_append] at h
    rcases iha h.1 s with ⟨overflow, s', hva, he⟩ | ⟨vs, v, s₁, hvs, hv, hte, hst, -⟩
    · refine .inl ⟨overflow, s', ?_, ?_⟩
      · rw [operandValues, bind_apply, hva]
      · rw [eval, bind_apply, he]
    · rcases ihb h.2 s₁ with ⟨overflow, s', hva, he⟩ | ⟨ws, w, s₂, hws, hw, ht', hs', -⟩
      · refine .inl ⟨overflow, s', ?_, ?_⟩
        · rw [operandValues, bind_of_ok hvs, bind_apply, hva]
        · rw [eval, bind_of_ok hv, bind_apply, he]
      · obtain ⟨ps, hps, hj⟩ := hst.texts s₂
        obtain ⟨qs, hqs, hj'⟩ := hs'.texts (v.asText s₂).2
        obtain ⟨t, trust, hadd, ht⟩ := onTexts_isText (v.asText s₂).1 (w.asText (v.asText s₂).2).1
        have hva : (binary .add a b).operandValues s =
            (.ok ((ps ++ qs).map ofText), (w.asText (v.asText s₂).2).2) := by
          rw [operandValues, bind_of_ok hvs, bind_of_ok hws]
          have hr : ((do
              let ps ← texts vs
              let qs ← texts ws
              return (ps ++ qs).map ofText) : Eval (List Value)) s₂ =
              (.ok (((texts vs s₂).1 ++ (texts ws (texts vs s₂).2).1).map ofText),
                (texts ws (texts vs s₂).2).2) := rfl
          rw [hr, hps, hqs]
        refine .inr ⟨_, _, _, hva, eval_add hv hw hte ht', ?_, ?_, fun _ => ⟨t, trust, hadd⟩⟩
        · rw [hadd]
          rfl
        · rw [hadd]
          refine .together ?_
          rw [ht, hj, hj', joined, joined, joined, flatMap_append]
  | case3 e hp hadd =>
    have hs := operands.eq_3 e hp hadd
    rw [hs] at h ⊢
    rw [operandValues.eq_3 e hp hadd, bind_apply]
    cases he : e.eval s with
    | mk result s' =>
      cases result with
      | error overflow => exact .inl ⟨overflow, s', rfl, rfl⟩
      | ok v =>
        have hte := eval_isText (h e mem_cons_self) he
        exact .inr ⟨[v], v, s', rfl, rfl, hte, .alone v, fun hm => absurd hm (Nat.lt_irrefl 1)⟩

/-- The value of a concatenation is the text that its operands are put together to. -/
theorem eval_operandTexts (hjo : 1 < e.operands.length) (hte : ∀ o ∈ e.operands, o.givesText = true)
    (s : Scope) :
    (∀ overflow s', e.operandTexts s = (.error overflow, s') → e.eval s = (.error overflow, s')) ∧
      ∀ ps s', e.operandTexts s = (.ok ps, s') →
        ∃ t trust, e.eval s = (.ok (.text t trust), s') ∧ t.getD [] = joined ps := by
  rcases eval_operands hte s with ⟨o, s₁, hva, he⟩ | ⟨vs, v, s₁, hva, he, -, hs, hv⟩
  · have ht : e.operandTexts s = (.error o, s₁) := by rw [operandTexts, bind_apply, hva]
    rw [ht, he]
    refine ⟨fun overflow s' h => ?_, fun ps s' h => ?_⟩
    · cases h
      rfl
    · cases h
  · obtain ⟨t, trust, rfl⟩ := hv hjo
    obtain ⟨qs, hqs, hj⟩ := hs.texts s₁
    have ht : e.operandTexts s = (.ok qs, s₁) := by
      have hr : (liftM (texts vs) : Eval (List (Option Bytes × Trust))) s₁ =
          (.ok (texts vs s₁).1, (texts vs s₁).2) := rfl
      rw [operandTexts, bind_of_ok hva, hr, hqs]
      rfl
    rw [ht, he]
    refine ⟨fun overflow s' h => ?_, fun ps s' h => ?_⟩
    · cases h
    · cases h
      exact ⟨t, trust, rfl, hj⟩

/-- What an operand supplies when it is evaluated and read as a text in scopes of `I`. -/
def Supplies (I : Scope → Prop) (o : Expr) (p : Option Bytes × Trust) : Prop :=
  ∃ v t t' u, I t ∧ I u ∧ o.eval t = (.ok v, t') ∧ (v.asText u).1 = p

section Supplies

variable {I : Scope → Prop} (hI : Scope.KeptByFinding I)

include hI

variable {s : Scope}

theorem supplies_texts {os vs}
    (h : List.Forall₂ (fun o v => ∀ u, I u → Supplies I o (v.asText u).1) os vs) (hs : I s) :
    List.Forall₂ (Supplies I) os (texts vs s).1 ∧ I (texts vs s).2 := by
  induction h generalizing s with
  | nil => exact ⟨.nil, hs⟩
  | @cons o v os vs hv _ ih =>
    obtain ⟨hr, hend⟩ := ih (hI.text v s hs)
    exact ⟨.cons (hv s hs) hr, hend⟩

theorem supplies_operandValues {e : Expr} {s' : Scope} {vs : List Value} (hs : I s)
    (h : e.operandValues s = (.ok vs, s')) :
    List.Forall₂ (fun o v => ∀ u, I u → Supplies I o (v.asText u).1) e.operands vs ∧ I s' := by
  induction e using operands.induct generalizing s s' vs with
  | case1 e ih => exact ih hs h
  | case2 a b iha ihb =>
    obtain ⟨vs₁, s₁, ha, hr⟩ := eval_bind h
    obtain ⟨vs₂, s₂, hb, hend⟩ := eval_bind hr
    obtain ⟨hvs₁, hs₁⟩ := iha hs ha
    obtain ⟨hvs₂, hs₂⟩ := ihb hs₁ hb
    obtain ⟨hps, hs₃⟩ := supplies_texts hI hvs₁ hs₂
    obtain ⟨hqs, hs₄⟩ := supplies_texts hI hvs₂ hs₃
    have hrun : (Except.ok vs, s') =
        (Except.ok (((texts vs₁ s₂).1 ++ (texts vs₂ (texts vs₁ s₂).2).1).map
        ofText), (texts vs₂ (texts vs₁ s₂).2).2) := hend.symm
    cases hrun
    rw [List.forall₂_map_right_iff]
    exact ⟨(rel_append hps hqs).imp fun _ _ hp _ _ => hp, hs₄⟩
  | case3 e hpa hadd =>
    rw [operandValues.eq_3 e hpa hadd] at h
    obtain ⟨v, s₁, he, hend⟩ := eval_bind h
    have hk := (hI.eval e s hs).2
    rw [he] at hk
    cases hend
    rw [operands.eq_3 e hpa hadd]
    exact ⟨.cons (fun u hu => ⟨v, s, _, u, hs, hu, he, rfl⟩) .nil, hk⟩

theorem supplies_operandTexts {e : Expr} {s' : Scope} {ps : List (Option Bytes × Trust)} (hs : I s)
    (h : e.operandTexts s = (.ok ps, s')) : List.Forall₂ (Supplies I) e.operands ps := by
  obtain ⟨vs, s₁, hvs, hend⟩ := eval_bind h
  obtain ⟨hv, hs₁⟩ := supplies_operandValues hI hs hvs
  have hps := (supplies_texts hI hv hs₁).1
  rwa [lift_ok hend] at hps

end Supplies

theorem mem_of_forall₂ {R : Expr → Option Bytes × Trust → Prop} {os : List Expr}
    {ps : List (Option Bytes × Trust)}
    (h : List.Forall₂ R os ps) {p : Option Bytes × Trust} (hp : p ∈ ps) : ∃ o ∈ os, R o p := by
  obtain ⟨k, hk, rfl⟩ := mem_iff_getElem.mp hp
  obtain ⟨hl, hrel⟩ := List.forall₂_iff_get.mp h
  exact ⟨_, get_mem os ⟨k, hl ▸ hk⟩, hrel k _ hk⟩

/-- The texts that need no more escaping next to the operands `os`: constants, what an escaping
function made of its arguments, and what is escaped as it is written. -/
inductive Treated (os : List Expr) : Bytes → Prop
  | constant {s : Bytes} (h : .text s ∈ os) : Treated os s
  | supplied {f : Function} {args : List Expr} {vs : List Value} {scope : Scope} {t : Option Bytes}
      {trust : Trust}
      (h : .call f args ∈ os) (hf : f.escaping = true)
      (ht : (f.apply vs scope).1 = .text t trust) : Treated os (t.getD [])
  | escaped (s : Bytes) : Treated os (escape s)

theorem Supplies.treated {I o p} (h : Supplies I o p)
    {os} (ho : o ∈ os) (hg : o.isGuarded = true)
    (ht : o.givesText = true) : Treated os (p.1.getD []) := by
  obtain ⟨v, t, t', u, -, -, he, hp⟩ := h
  cases o with
  | text s =>
    cases he
    subst hp
    exact .constant ho
  | call f args =>
    obtain ⟨vs, s₁, x, trust, rfl, ha⟩ :=
      eval_call ht (fun e _ v t t' hrun hgi => eval_isText hgi hrun) he
    subst hp
    exact .supplied ho hg ha
  | _ => cases hg

/-- What is written for a text of an expression where values are escaped for HTML. -/
def treatment (e : Expr) (s : Bytes) : Bytes := if e.callsEscaper then s else escape s

/-- What an operand supplies is treated, if none of them calls an escaping function or all of them
are constants and calls of such functions. -/
theorem Supplies.treatment {e : Expr} {P} {o : Expr} {p : Option Bytes × Trust}
    (h : Supplies P o p) (ho : o ∈ e.operands)
    (hguarded : (∀ o ∈ e.operands, o.callsEscaper = false) ∨ ∀ o ∈ e.operands, o.isGuarded = true)
    (htext : o.givesText = true) : Treated e.operands (e.treatment (p.1.getD [])) := by
  unfold Expr.treatment
  rcases hguarded with hnone | hall
  · have hno : e.callsEscaper = false := by
      rw [e.callsEscaper_eq_any, any_eq_false]
      exact fun o ho => Bool.eq_false_iff.mp (hnone o ho)
    rw [hno]
    exact .escaped _
  · split
    · exact h.treated ho (hall o ho) htext
    · exact .escaped _

theorem treatment_joined (e : Expr) (ps : List (Option Bytes × Trust)) :
    e.treatment (joined ps) = ps.flatMap fun p => e.treatment (p.1.getD []) := by
  unfold treatment joined
  split
  · rfl
  · rw [escape, flatMap_assoc]
    rfl

end Expr

namespace Render

variable {r : RenderSettings} {st : RenderState} {mark : Mark} {arg : Argument}

/-- Where values are escaped for HTML, a text is written as the whole argument asks. -/
theorem writeArgument_html (st : RenderState) (arg : Argument) (ha : r.parser.auto.enabled = false)
    (hm : modeOf mark st.whenUndefined = .html) (t : Option Bytes) (trust : Trust) :
    ∃ written, writeArgument mark arg (.text t trust) r st = (.ok (), { st with written }) ∧
      RenderState.output { st with written } = st.output ++ arg.expr.treatment (t.getD []) := by
  cases t with
  | none =>
    refine ⟨st.written, rfl, ?_⟩
    have hem : arg.expr.treatment [] = [] := arg.expr.treatment_joined []
    rw [Option.getD_none, hem, append_nil]
  | some s =>
    have hv : ∀ s, writeValue mark arg.source s r st =
        (.ok (), { st with written := s :: st.written }) := by
      intro s
      refine (bind_ok (m := write s) rfl _).trans ?_
      rw [Program.read_bind, ha]
      rfl
    have he : writeEscaped mark arg.source s trust r st =
        (.ok (), { st with written := escape s :: st.written }) := by
      unfold writeEscaped
      rw [Program.get_bind, ← modeOf, hm]
      simp only [reduceCtorEq, decide_false, Bool.and_false]
      exact hv _
    have hw : (if arg.expr.callsEscaper then writeValue mark arg.source s
        else writeEscaped mark arg.source s trust) r st =
          (.ok (), { st with written := arg.expr.treatment s :: st.written }) := by
      unfold treatment
      split
      · exact hv s
      · exact he
    have hrun : writeArgument mark arg (.text (some s) trust) r st = (tryCatch
        (if arg.expr.callsEscaper then writeValue mark arg.source s
          else writeEscaped mark arg.source s trust)
        fun _ => pure () : Render Unit) r st := rfl
    exact ⟨_, hrun.trans (catch_ok hw _), output_write st _⟩

/-- The text that an argument of `alt` has to hold in order to be written. -/
def holds (s : Bytes) : Bool := (truthOfText (some s)).toInt32 != 0

theorem isTrue_text (t : Option Bytes) (trust : Trust) (st : RenderState) :
    isTrue (.text t trust) r st = (.ok (holds (t.getD [])), st) := by
  cases t <;> rfl

/-- Where values are escaped for HTML, the value of a concatenation is written operand by operand.
The text of each is escaped if no operand calls an escaping function, and otherwise no text is. So
all that is written was escaped, or is a constant, if no operand calls an escaping function or if
all operands are constants and calls of such functions. -/
theorem written_operands (hauto : r.parser.auto.enabled = false)
    (hmode : modeOf mark st.whenUndefined = .html)
    (hjoin : 1 < arg.expr.operands.length)
    (htext : ∀ o ∈ arg.expr.operands, o.givesText = true) {i : Item}
    (hmark : i.mark = mark) (haction : (∃ raw, i.action = .var raw arg) ∨ i.action = .alt arg)
    (fuel : Nat)
    (items : List Item → Render Unit) :
    (∀ overflow s, arg.expr.operandTexts st.scope = (.error overflow, s) →
      action fuel items i r st = (.error (.failure overflow.failure), { st with scope := s })) ∧
    ∀ ps s, arg.expr.operandTexts st.scope = (.ok ps, s) →
      List.Forall₂ (Expr.Supplies fun t => t.data = st.scope.data ∧
        t.globals = st.scope.globals) arg.expr.operands ps ∧
      ((∃ raw, i.action = .var raw arg) ∨ holds (joined ps) = true →
        ∃ written, action fuel items i r st = (.ok (), { st with scope := s, written }) ∧
          RenderState.output { st with scope := s, written } = st.output ++ ps.flatMap fun p =>
            if arg.expr.operands.any callsEscaper then p.1.getD [] else escape (p.1.getD [])) ∧
      (i.action = .alt arg → holds (joined ps) = false →
        action fuel items i r st = items i.body r { st with scope := s }) ∧
      ((∀ o ∈ arg.expr.operands, o.callsEscaper = false) ∨
        (∀ o ∈ arg.expr.operands, o.isGuarded = true) →
        ∀ p ∈ ps, Expr.Treated arg.expr.operands
          (if arg.expr.operands.any callsEscaper then p.1.getD [] else escape (p.1.getD []))) := by
  have hfinding : Scope.KeptByFinding fun t => t.data = st.scope.data ∧
      t.globals = st.scope.globals :=
    Scope.KeptByRebinding.finding fun _ _ _ _ _ hs => hs
  have htreatment : ∀ t, (if arg.expr.operands.any callsEscaper then t else escape t) =
      arg.expr.treatment t := by
    intro t
    rw [treatment, arg.expr.callsEscaper_eq_any]
  simp only [htreatment]
  obtain ⟨mark', act, body, otherwise⟩ := i
  obtain rfl : mark' = mark := hmark
  obtain ⟨hfails, hgives⟩ := eval_operandTexts hjoin htext st.scope
  refine ⟨fun overflow s hrun => ?_, fun ps s hrun => ?_⟩
  · have heval := eval_apply (r := r) (hfails overflow s hrun)
    rcases haction with ⟨raw, rfl⟩ | rfl <;> exact bind_error heval _
  · obtain ⟨t, trust, hvalue, hjoined⟩ := hgives ps s hrun
    have heval := eval_apply (r := r) hvalue
    obtain ⟨written, hwrite, houtput⟩ :=
      writeArgument_html { st with scope := s } arg hauto hmode t trust
    have hsupplied := supplies_operandTexts hfinding ⟨rfl, rfl⟩ hrun
    rw [hjoined, treatment_joined] at houtput
    have hvar : ∀ raw, action fuel items ⟨mark', .var raw arg, body, otherwise⟩ r st =
        (.ok (), { st with scope := s, written }) := fun raw => (bind_ok heval _).trans hwrite
    have halt : action fuel items ⟨mark', .alt arg, body, otherwise⟩ r st =
        (if holds (joined ps) then writeArgument mark' arg (.text t trust) else items body) r
          { st with scope := s } := by
      refine (bind_ok heval _).trans ((bind_ok (isTrue_text t trust _) _).trans ?_)
      rw [hjoined]
    refine ⟨hsupplied, fun hwritten => ⟨written, ?_, houtput⟩, fun hact hfalse => ?_,
      fun hguarded p hp => ?_⟩
    · rcases haction with ⟨raw, rfl⟩ | rfl
      · exact hvar raw
      · have htrue : holds (joined ps) = true :=
          hwritten.resolve_left fun ⟨raw, hvar⟩ => Action.noConfusion hvar
        rw [halt, if_pos htrue]
        exact hwrite
    · obtain rfl : act = .alt arg := hact
      rw [halt, hfalse]
      rfl
    · obtain ⟨o, ho, hp⟩ := mem_of_forall₂ hsupplied hp
      exact hp.treatment ho hguarded (htext o ho)

theorem written_operands_guarded :
    let data : Node := ⟨[], none, false, [],
      [⟨ascii "Config", none, false, [], [⟨ascii "VarEscapeMode", some (ascii "html"),
      false, [], []⟩]⟩, ⟨ascii "A", some (ascii "<a>"), false, [], []⟩]⟩
    let place : MarkupPlace := ⟨.text, 0, false, 0, false, false, false, none⟩
    let escape : Function := ⟨ascii "html_escape", 1, true, .filter escape⟩
    let arg : Argument :=
      ⟨.binary .add (.text (ascii "<i>")) (.call escape [.name (ascii "A")]), none⟩
    ∃ s : Session, Session.create data (.table []) place = .ok s ∧
      s.renderSettings.parser.auto.enabled = false ∧
      modeOf { escape := s.reader.builder.escape } s.renderStart.whenUndefined = .html ∧
      1 < arg.expr.operands.length ∧
      (∀ o ∈ arg.expr.operands, o.givesText = true) ∧
      (∀ o ∈ arg.expr.operands, o.isGuarded = true) ∧
      ∃ written, action 0 (items 0) ⟨{ escape := s.reader.builder.escape }, .var false arg, [],
        []⟩ s.renderSettings s.renderStart =
          (.ok (), { s.renderStart with written }) ∧
        RenderState.output { s.renderStart with written } = ascii "<i>&lt;a&gt;" := by
  intro data place escape arg
  let s := Session.fresh .html data (.table []) place
  have hcreate : Session.create data (.table []) place = .ok s := Session.create_eq rfl _ _
  have hauto : s.renderSettings.parser.auto.enabled = false := by decide +kernel
  have hmode : modeOf { escape := s.reader.builder.escape } s.renderStart.whenUndefined =
      .html := by decide +kernel
  have hjoin : 1 < arg.expr.operands.length := by decide +kernel
  have htext : ∀ o ∈ arg.expr.operands, o.givesText = true := by
    simp [arg, operands, givesText, allGiveText, escape]
  have hguarded : ∀ o ∈ arg.expr.operands, o.isGuarded = true := by
    simp [arg, operands, isGuarded, escape]
  refine ⟨s, hcreate, hauto, hmode, hjoin, htext, hguarded, ?_⟩
  obtain ⟨-, hgives⟩ :=
    written_operands (i := ⟨{ escape := s.reader.builder.escape }, .var false arg, [],
      []⟩) hauto hmode
    hjoin htext rfl (.inl ⟨false, rfl⟩) 0 (items 0)
  obtain ⟨-, hwritten, -, -⟩ :=
    hgives [(some (ascii "<i>"), .trusted), (some (ascii "&lt;a&gt;"), .trusted)] _ rfl
  obtain ⟨written, hrun, houtput⟩ := hwritten (.inl ⟨false, rfl⟩)
  exact ⟨written, hrun, houtput.trans (by decide +kernel)⟩

end Render

namespace Session

/-- A variable next to the result of an escaping function is written as it is. -/
theorem render_raw_beside_escaped :
    let data : Node := ⟨[], none, false, [],
      [⟨ascii "Config", none, false, [], [⟨ascii "VarEscapeMode", some (ascii "html"),
      false, [], []⟩]⟩, ⟨ascii "A", some (ascii "<a>"), false, [], []⟩,
        ⟨ascii "B", some (ascii "<b>"), false, [], []⟩]⟩
    let text :=
      ascii
        "<?cs var:html_escape(A) + B ?>|<?cs alt:B + html_escape(A) ?><?cs /alt ?>|<?cs var:B ?>"
    ∃ s₀ s₁ s₂ : Session, create data (.table []) ⟨.text, 0, false, 0, false, false, false, none⟩ =
      .ok s₀ ∧
      s₀.registerAll [⟨ascii "html_escape", 1, true, .filter escape⟩] = .ok s₁ ∧
      s₁.load? [text] = some s₂ ∧
      s₂.settings.auto.enabled = false ∧ s₂.render.2.1 =
      ascii "&lt;a&gt;<b>|<b>&lt;a&gt;|&lt;b&gt;" := by
  intro data text
  let f : Function := ⟨ascii "html_escape", 1, true, .filter escape⟩
  let s₀ := fresh .html data (.table []) ⟨.text, 0, false, 0, false, false, false, none⟩
  let s₁ : Session := { s₀ with functions := f :: Function.builtins }
  have hregister : s₀.registerAll [f] = .ok s₁ := rfl
  have houtput : (s₁.load? [text]).map (fun s => (s.settings.auto.enabled, s.render.2.1)) =
      some (false, ascii "&lt;a&gt;<b>|<b>&lt;a&gt;|&lt;b&gt;") := by decide +kernel
  obtain ⟨s₂, hload, hrender⟩ := Option.map_eq_some_iff.mp houtput
  exact ⟨s₀, s₁, s₂, create_eq rfl _ _, hregister, hload, congrArg Prod.fst hrender,
    congrArg Prod.snd hrender⟩

end Session

end TemplateKit
