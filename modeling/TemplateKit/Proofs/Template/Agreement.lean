import TemplateKit.Proofs.Template.Beside
import TemplateKit.Proofs.Template.Uniform

/-!
# Renderings that agree

Two renderings agree if they write the same text, leave the same scope and end in the same way, up
to the wording of failures. There is one rule for each way in which items are rendered; it allows
for settings that differ in what only messages tell, for different depths, and for a limit that only
the first rendering comes to. Templates that are alike are rendered in this way.
-/

namespace TemplateKit

open Program

def RenderState.output (st : RenderState) : Bytes := st.written.reverse.flatten

/-- States that differ at most in what rendering does not depend on. The depths are related by `D`,
and the escaper is `e` if that is given. -/
structure RenderState.Like (D : Nat → Nat → Prop) (e : Option AutoEscaper) (st st' : RenderState) :
    Prop where
  scope : st.scope = st'.scope
  output : st.output = st'.output
  escaper : st.escaper = st'.escaper
  kept : ∀ x ∈ e, st.escaper = x
  rounds : st.rounds = st'.rounds
  mode : st.whenUndefined = st'.whenUndefined
  depth : D st.depth st'.depth

namespace RenderState.Like

variable {D D' : Nat → Nat → Prop} {e : Option AutoEscaper} {st st' : RenderState}

theorem relax (h : st.Like D e st') (hD : ∀ m m', D m m' → D' m m') : st.Like D' e st' :=
  { h with depth := hD _ _ h.depth }

theorem symm (h : st.Like D e st') : st'.Like (fun m m' => D m' m) e st where
  scope := h.scope.symm
  output := h.output.symm
  escaper := h.escaper.symm
  kept := fun x hx => h.escaper.symm.trans (h.kept x hx)
  rounds := h.rounds.symm
  mode := h.mode.symm
  depth := h.depth

end RenderState.Like

def Depths (k k' : Nat) (m m' : Nat) : Prop := m = k ∧ m' = k'

namespace Render

/-- From states at the depths `k` and `k'` two programs have the same result at the same depths, or
fail in the same way at depths related by `D`. The first one may also stop at a limit, which is a
kind of failure in `L`. -/
def Agrees {α : Type} (L : Option Kind → Prop) (D : Nat → Nat → Prop) (e : Option AutoEscaper)
    (k k' : Nat) (r r' : RenderSettings) (m m' : Render α) : Prop :=
  Simulates (fun stop => L stop.kind?) (RenderState.Like (Depths k k') e) (m r) (m' r')
    (fun a st a' st' => a = a' ∧ st.Like (Depths k k') e st')
    (fun x st x' st' => x.kind? = x'.kind? ∧ st.Like D e st')

variable {α β : Type} {L : Option Kind → Prop} {D : Nat → Nat → Prop} {e : Option AutoEscaper}
  {k k' : Nat} {r r' : RenderSettings}

namespace Agrees

theorem returns {a : α} : Agrees L D e k k' r r' (pure a) (pure a) :=
  bothReturn fun _ _ h => ⟨rfl, h⟩

theorem stops {x x'} (hD : D k k') (h : x.kind? = x'.kind?) :
    Agrees L D e k k' r r' (throw x : Render α) (throw x') := by
  apply bothStop
  intro st st' hst
  refine ⟨h, hst.relax ?_⟩
  rintro m m' ⟨rfl, rfl⟩
  exact hD

theorem fails {f f'} (hD : D k k') (h : f.kind = f'.kind) :
    Agrees L D e k k' r r' (Render.fails f : Render α) (Render.fails f') :=
      stops hD (congrArg some h)

theorem andThen {m m' : Render α} {f f' : α → Render β} (hm : Agrees L D e k k' r r' m m')
    (hf : ∀ a, Agrees L D e k k' r r' (f a) (f' a)) :
    Agrees L D e k k' r r' (m >>= f) (m' >>= f') := by
  refine bothThen hm fun a a' => Simulates.given fun ha => ?_
  rw [← ha]
  exact hf a

theorem looks {f f' : RenderState → Render β}
    (h : ∀ st st', st.Like (Depths k k') e st' → Agrees L D e k k' r r' (f st) (f' st')) :
    Agrees L D e k k' r r' (get >>= f) (get >>= f') := by
  apply bothLook
  intro st st' hst
  apply (h st st' hst).pre
  rintro _ _ ⟨rfl, rfl⟩
  exact hst

theorem reads {f f' : RenderSettings → Render β} (h : Agrees L D e k k' r r' (f r) (f' r')) :
    Agrees L D e k k' r r' (read >>= f) (read >>= f') := bothRead h

theorem changes {f f'} (h : ∀ st st', st.Like (Depths k k') e st' →
    (f st).Like (Depths k k') e (f' st')) :
    Agrees L D e k k' r r' (modify f) (modify f') :=
  bothChange fun st st' hst => ⟨rfl, h st st' hst⟩

theorem symm {m m' : Render α} (h : Agrees (fun _ => False) Eq e k k r r' m m') :
    Agrees L Eq e k k r' r m' m := by
  intro st st' hst
  have hb : st'.Like (Depths k k) e st := hst.symm.relax fun _ _ h => ⟨h.2, h.1⟩
  have he := h st' st hb
  generalize m r st' = last at he
  generalize m' r' st = last' at he
  cases he with
  | ok h => exact .ok ⟨h.1.symm, h.2.symm.relax fun _ _ h => ⟨h.2, h.1⟩⟩
  | error h => exact .error ⟨h.1.symm, h.2.symm.relax fun _ _ h => h.symm⟩
  | limit h => exact h.elim

theorem weaken {m m' : Render α} (h : Agrees (fun _ => False) D e k k' r r' m m') :
    Agrees L D e k k' r r' m m' :=
  h.conseq (fun _ h => h.elim) (fun _ _ h => h) (fun _ _ _ _ h => h) fun _ _ _ _ h => h

end Agrees

section Basics

variable (hD : D k k')

include hD

theorem agrees_eval (x : Eval α) : Agrees L D e k k' r r' (eval x) (eval x) := by
  apply bothLook
  intro st st' hst
  rw [← hst.scope]
  generalize x.run st.scope = last
  obtain ⟨result, scope⟩ := last
  have hset : RenderState.Like (Depths k k') e { st with scope } { st' with scope } :=
    { hst with scope := rfl }
  rintro _ _ ⟨rfl, rfl⟩
  cases result with
  | ok a => exact .ok ⟨rfl, hset⟩
  | error overflow => exact .error ⟨rfl, hset.relax fun _ _ h => h.1 ▸ h.2 ▸ hD⟩

theorem agrees_store (target : Value) (v : Option Bytes) (trust : Trust) :
    Agrees L D e k k' r r' (store target v trust) (store target v trust) := by
  unfold store
  cases target.shown with
  | none => exact .fails hD rfl
  | some name =>
    apply bothLook
    intro st st' hst
    rw [← hst.scope]
    generalize st.scope.assign name v trust = last
    obtain ⟨scope, result⟩ := last
    have hset : RenderState.Like (Depths k k') e { st with scope } { st' with scope } :=
      { hst with scope := rfl }
    rintro _ _ ⟨rfl, rfl⟩
    cases result with
    | ok _ => exact .ok ⟨rfl, hset⟩
    | error f => exact .error ⟨rfl, hset.relax fun _ _ h => h.1 ▸ h.2 ▸ hD⟩

end Basics

theorem output_write (st : RenderState) (s : Bytes) :
    RenderState.output { st with written := s :: st.written } =
    st.output ++ s := by
  simp [RenderState.output]

theorem agrees_write (s : Bytes) : Agrees L D e k k' r r' (write s) (write s) := by
  apply Agrees.changes
  intro st st' hst
  refine { hst with output := ?_ }
  rw [output_write, output_write, hst.output]

theorem agrees_between {d d' : Nat} {D' : Nat → Nat → Prop} {action action' : Render Unit}
    {enter enter' : RenderState → RenderState}
    {leave leave' : RenderState → RenderState → RenderState}
    (he : ∀ st st', st.Like (Depths k k') e st' → (enter st).Like (Depths d d') e (enter' st'))
    (hl : ∀ st st' t t', st.Like (Depths k k') e st' → t.Like (Depths d d') e t' →
      (leave st t).Like (Depths k k') e (leave' st' t'))
    (hs : ∀ st st' t t', st.Like (Depths k k') e st' → t.Like D' e t' →
      (leave st t).Like D e (leave' st' t'))
    (h : Agrees L D' e d d' r r' action action') :
    Agrees L D e k k' r r' (between enter leave action) (between enter' leave' action') := by
  intro st st' hst
  have hen := h (enter st) (enter' st') (he st st' hst)
  unfold between
  generalize action r (enter st) = last at hen
  generalize action' r' (enter' st') = last' at hen
  cases hen with
  | ok hQ => exact .ok ⟨hQ.1, hl _ _ _ _ hst hQ.2⟩
  | error hE => exact .error ⟨hE.1, hs _ _ _ _ hst hE.2⟩
  | limit hL => exact .limit hL

section Blocks

variable {action action' : Render Unit} (h : Agrees L D e k k' r r' action action')

include h

theorem agrees_withLocals (ls : List Local) :
    Agrees L D e k k' r r' (withLocals ls action) (withLocals ls action') :=
  agrees_between (fun _ _ hst => { hst with scope := by rw [hst.scope] })
    (fun _ _ _ _ _ hst => { hst with scope := by rw [hst.scope] })
    (fun _ _ _ _ _ hst => { hst with scope := by rw [hst.scope] }) h

omit h in
theorem agrees_countRounds (hl : r.loopLimit = r'.loopLimit) (hD : D k k') (rounds : Int) :
    Agrees L D e k k' r r' (countRounds rounds) (countRounds rounds) := by
  refine .looks fun st st' hst => .reads ?_
  rw [← hst.rounds, hl]
  dsimp only
  split
  · exact .fails hD rfl
  · split
    · exact .fails hD rfl
    · exact .changes fun _ _ hst => { hst with rounds := rfl }

theorem agrees_noting (text text' : Bytes) :
    Agrees L D e k k' r r' (noting text action) (noting text' action') := by
  refine bothCatch h (fun x x' => ?_) ?_
  · intro st st' hst
    cases x with
    | failure f =>
      cases x' with
      | failure f' => exact .error hst
      | exhausted => cases hst.1
    | exhausted =>
      cases x' with
      | failure f' => cases hst.1
      | exhausted => exact .error hst
  · intro x st hl
    cases x with
    | failure | exhausted => exact ⟨_, _, rfl, hl⟩

end Blocks

def either {α : Type} (a b : α) : Bool → α
  | false => a
  | true => b

namespace Agrees

variable {mark mark' : Mark} (hparser : r.parser = r'.parser) (hmark : mark.Alike mark')
  (hD : D k k')

include hparser hmark hD

theorem writing : Writing r'.parser mark' (either r r') (either mark mark')
    fun _ m => Agrees L D e k k' r r' (m false) (m true) where
  parser := Bool.forall_bool.mpr ⟨hparser, rfl⟩
  marks := Bool.forall_bool.mpr ⟨hmark, .refl _⟩
  returns := returns
  fails := fails hD rfl
  noted h := fun st st' hst => (fails hD (h _ _) : Agrees L D e k k' r r' _ _) st st' hst
  andThen := andThen
  looks h hf := looks fun st st' hst => by
    rw [← hf true st st' { hst with }]
    exact h st
  reads := reads
  write := agrees_write

/-- What goes wrong while a text is written is passed over; the depths are as they were then. -/
theorem uniform (ha : r'.parser.auto.enabled = true → e = none) :
    Uniform r'.parser mark' (either r r') (either mark mark')
      fun _ m => Agrees L D e k k' r r' (m false) (m true) where
  toWriting := writing hparser hmark hD
  evaluates _ := agrees_eval hD _
  modifies _ := changes fun _ _ hst => { hst with scope := by rw [hst.scope] }
  encloses ls h := agrees_withLocals h ls
  passes h := bothCatch (h _ (writing (L := fun _ => False) hparser hmark ⟨rfl, rfl⟩))
    (fun _ _ => bothReturn fun _ _ h => ⟨rfl, h.2⟩) fun _ _ h => h.elim
  types _ := changes fun _ _ hst => { hst with }
  escapes hon _ := changes fun _ _ hst => { hst with escaper := rfl, kept := by simp [ha hon] }

end Agrees

/-- The first of two programs that are deeper than before may come to the deepest level alone. -/
theorem agrees_deeper {j : Nat} (hL : Parse.Limited L j) {action action' : Render Unit}
    (h : Agrees L (Below j) e (k + 1 + j) (k + 1) r r' action action') (text text' : Bytes) :
    Agrees L (Below j) e (k + j) k r r' (deeper text action) (deeper text' action') := by
  have hdo : ∀ {st st' : RenderState}, st.Like (Depths (k + j) k) e st' → RenderState.Like
      (Depths (k + 1 + j) (k + 1)) e { st with depth := st.depth + 1 }
      { st' with depth := st'.depth + 1 } := by
    intro st st' hst
    refine { hst with depth := ⟨?_, congrArg (· + 1) hst.depth.2⟩ }
    rw [hst.depth.1, Nat.add_right_comm]
  have hup : ∀ {st st' : RenderState}, st.Like (Depths (k + 1 + j) (k + 1)) e st' → RenderState.Like
      (Depths (k + j) k) e { st with depth := st.depth - 1 }
      { st' with depth := st'.depth - 1 } := by
    intro st st' hst
    refine { hst with depth := ⟨?_, congrArg (· - 1) hst.depth.2⟩ }
    rw [hst.depth.1, Nat.add_right_comm, Nat.add_sub_cancel]
  refine .looks fun st st' hst => ?_
  rw [hst.depth.1, hst.depth.2]
  by_cases hd : k ≥ deepestNesting
  · rw [if_pos hd, if_pos (Nat.le_add_right_of_le hd)]
    exact .fails rfl rfl
  · rw [if_neg hd]
    by_cases hd' : k + j ≥ deepestNesting
    · rw [if_pos hd']
      rcases hL.depth with hl | rfl
      · exact firstStops hl
      · exact absurd hd' hd
    · rw [if_neg hd']
      refine bothThen (Q := fun _ st _ st' => st.Like (Depths (k + 1 + j) (k + 1)) e st')
        (bothChange fun _ _ => hdo) fun _ _ => ?_
      refine bothThen h fun a a' => Simulates.given fun ha => ?_
      refine bothThen (Q := fun _ st _ st' => st.Like (Depths (k + j) k) e st')
        (bothChange fun _ _ => hup) fun _ _ => ?_
      exact bothReturn fun _ _ hst => ⟨ha, hst⟩

end Render

end TemplateKit
