import TemplateKit.Template.Filters

/-!
# Registering functions

A name is refused if it belongs to a function with another evaluator. So all functions that were
ever registered under one name have one evaluator, and the last of them is called. A function of the
host's own is refused a name that another one has. All filters of texts share an evaluator: a filter
takes the place of another one.
-/

namespace TemplateKit

open List

/-- What evaluates a body: a built-in function, the one evaluator of all filters, or a function of
the host's own. -/
inductive Evaluator where
  | builtin (b : Builtin)
  | filters
  | host (key : Nat)
deriving DecidableEq

def FunctionBody.evaluator : FunctionBody → Evaluator
  | builtin b => .builtin b
  | filter _ => .filters
  | textAndNumber _ key => .host key

theorem FunctionBody.sameEvaluator_iff (a b : FunctionBody) :
    a.sameEvaluator b = true ↔ a.evaluator = b.evaluator := by
  cases a <;> cases b <;> simp [sameEvaluator, evaluator]

namespace Function

variable {fs : List Function} {f : Function}

/-- The functions after an attempt to register one; an attempt that fails changes nothing. -/
def attempt (fs : List Function) (f : Function) : List Function := (register fs f).toOption.getD fs

/-- The functions of a template after some attempts. -/
def afterAttempts (history : List Function) : List Function := history.foldl attempt builtins

/-- Functions that share a name share an evaluator. -/
def Coherent (fs : List Function) : Prop :=
  ∀ f ∈ fs, ∀ g ∈ fs, f.name = g.name → f.body.evaluator = g.body.evaluator

theorem register_cases (fs : List Function) (f : Function) :
    (∃ g ∈ fs, g.name = f.name ∧ g.body.evaluator ≠ f.body.evaluator ∧
      register fs f =
      .error (.raise .duplicate ("Attempt to register duplicate function " ++ f.name)) ∧
      attempt fs f = fs) ∨
    (∀ g ∈ fs, g.name = f.name → g.body.evaluator = f.body.evaluator) ∧
    register fs f = .ok (f :: fs) ∧
      attempt fs f = f :: fs := by
  unfold attempt register
  split
  · next h =>
    obtain ⟨g, hg, hc⟩ := any_eq_true.mp h
    rw [Bool.and_eq_true, beq_iff_eq, Bool.not_eq_true', ← Bool.not_eq_true,
      FunctionBody.sameEvaluator_iff] at hc
    exact .inl ⟨g, hg, hc.1, hc.2, rfl, rfl⟩
  · next h => exact .inr ⟨by simpa [FunctionBody.sameEvaluator_iff] using h, rfl, rfl⟩

theorem Coherent.attempt (h : Coherent fs) (f : Function) : Coherent (attempt fs f) := by
  rcases register_cases fs f with ⟨_, _, _, _, _, hs⟩ | ⟨hs, _, ha⟩
  · rwa [hs]
  · rw [ha]
    simp only [Coherent, forall_mem_cons]
    exact ⟨⟨fun _ => trivial, fun g hg hn => (hs g hg hn.symm).symm⟩, fun g hg => ⟨hs g hg, h g hg⟩⟩

theorem coherent_afterAttempts (history : List Function) : Coherent (afterAttempts history) := by
  have hb : Coherent builtins := by unfold Coherent; decide
  unfold afterAttempts
  generalize builtins = fs at hb
  induction history generalizing fs with
  | nil => exact hb
  | cons f history ih => exact ih _ (hb.attempt f)

/-- After any attempts: a function whose name belongs to one with another evaluator is refused and
nothing changes. Any other one is registered; its name then calls it, and the other names call what
they called. -/
theorem register_after (history : List Function) (f : Function) :
    ((∃ g, find? (afterAttempts history) f.name = some g ∧ g.body.sameEvaluator f.body = false) →
      register (afterAttempts history) f =
        .error (.raise .duplicate (ascii "Attempt to register duplicate function " ++ f.name)) ∧
      afterAttempts (history ++ [f]) = afterAttempts history) ∧
    ((∀ g, find? (afterAttempts history) f.name = some g → g.body.sameEvaluator f.body = true) →
      register (afterAttempts history) f = .ok (afterAttempts (history ++ [f])) ∧
      find? (afterAttempts (history ++ [f])) f.name = some f ∧
      ∀ name ≠ f.name, find? (afterAttempts (history ++ [f])) name =
        find? (afterAttempts history) name) := by
  have hafter : afterAttempts (history ++ [f]) = attempt (afterAttempts history) f := foldl_append
  have hcoherent := coherent_afterAttempts history
  simp only [← Bool.not_eq_true, FunctionBody.sameEvaluator_iff]
  generalize afterAttempts history = fs at hafter hcoherent
  rcases register_cases fs f with ⟨g, hg, hname, hother, hrun, hsame⟩ | ⟨hsame, hrun, hadded⟩
  · refine ⟨fun _ => ⟨hrun, hafter.trans hsame⟩, fun hall => ?_⟩
    cases hfound : find? fs f.name with
    | none => simpa [hname] using find?_eq_none.mp hfound g hg
    | some d =>
      have hd : d.name = f.name := by simpa using find?_some hfound
      exact absurd ((hcoherent g hg d (mem_of_find?_eq_some hfound) (hname.trans hd.symm)).trans
        (hall d hfound)) hother
  · rw [hafter, hadded]
    refine ⟨?_, fun _ => ⟨hrun, by simp [find?], fun name hne => by simp [find?, hne.symm]⟩⟩
    rintro ⟨g, hg, hother⟩
    exact absurd (hsame g (mem_of_find?_eq_some hg) (by simpa using find?_some hg)) hother

/-- A filter takes the name of another one. -/
theorem register_other_filter : ∃ escape : Bytes → Bytes,
    find? (afterAttempts filters) (ascii "url_escape") =
    some (filter (ascii "url_escape") true escape) ∧
    escape (ascii "A b") ≠ Bytes.lower (ascii "A b") ∧
    register (afterAttempts filters) (filter (ascii "url_escape") false Bytes.lower) =
      .ok (filter (ascii "url_escape") false Bytes.lower :: afterAttempts filters) :=
  ⟨_, rfl, by decide, rfl⟩

end Function

end TemplateKit
