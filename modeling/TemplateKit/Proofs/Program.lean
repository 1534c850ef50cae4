import Mathlib.Data.List.Basic

/-!
# Runs of programs

A program changes a state and can stop early. `Couples` compares two programs: from every state with
a property they end in the same way, and then other properties hold, of the result and the state or,
where they stopped, of the state alone. With one program in both places this is what holds after it.
Programs that also read settings are compared under the same settings.
-/

namespace TemplateKit

open List

variable {ρ ε σ α β : Type}

/-- What holds after a program that never stops early. -/
def Yields (P : σ → Prop) (m : StateM σ α) (Q : α → σ → Prop) : Prop := ∀ s, P s → Q (m s).1 (m s).2

namespace Yields

variable {P : σ → Prop} {m : StateM σ α} {Q : α → σ → Prop}

theorem stays {a : α} : Yields P (pure a) (fun _ => P) := fun _ hs => hs

theorem gives {a} {B : α → Prop} (h : B a) : Yields P (pure a) (fun a s => B a ∧ P s) :=
  fun _ hs => ⟨h, hs⟩

theorem andThen {f : α → StateM σ β} {R : β → σ → Prop} (hm : Yields P m Q)
    (hf : ∀ a, Yields (Q a) (f a) R) :
    Yields P (m >>= f) R := fun s hs => hf (m s).1 (m s).2 (hm s hs)

theorem looks {f : σ → StateM σ β} {R : β → σ → Prop} (h : ∀ s, P s → R (f s s).1 (f s s).2) :
    Yields P (get >>= f) R := h

theorem given {p : Prop} (h : p → Yields P m Q) : Yields (fun s => p ∧ P s) m Q :=
  fun s hs => h hs.1 s hs.2

end Yields

def Ends (Q : α → σ → Prop) (E : σ → Prop) : Except ε α × σ → Prop
  | (.ok a, s) => Q a s
  | (.error _, s) => E s

theorem Ends.state {P : σ → Prop} {last : Except ε α × σ} (h : Ends (fun _ => P) P last) :
    P last.2 := by
  obtain ⟨x, s⟩ := last
  cases x <;> exact h

/-- From the states of `P` two programs end in the same way, with `Q` or, if they stop, with `E`. -/
def Couples (P : σ → Prop) (m m' : ExceptT ε (StateM σ) α) (Q : α → σ → Prop) (E : σ → Prop) :
    Prop :=
  ∀ s, P s → m s = m' s ∧ Ends Q E (m s)

/-- From the states of `P` a program ends with `Q` or, if it stops, with `E`. -/
abbrev After (P : σ → Prop) (m : ExceptT ε (StateM σ) α) (Q : α → σ → Prop) (E : σ → Prop) : Prop :=
  Couples P m m Q E

theorem bind_apply (m : ExceptT ε (StateM σ) α) (f : α → ExceptT ε (StateM σ) β) (s : σ) :
    (m >>= f) s = match m s with
      | (.ok a, s') => f a s'
      | (.error e, s') => (.error e, s') := by
  have hu : (m >>= f) s = ExceptT.bindCont f (m s).1 (m s).2 := rfl
  rw [hu]
  cases m s with
  | mk x s' => cases x <;> rfl

theorem bind_of_ok {m s s' a} (h : m s = (.ok a, s')) (f : α → ExceptT ε (StateM σ) β) :
    (m >>= f) s = f a s' := by
  rw [bind_apply, h]

theorem get_apply (s : σ) : (get : ExceptT ε (StateM σ) σ) s = (.ok s, s) := rfl

theorem bind_fst_of_error {m s e} (h : (m s).1 = .error e)
    (f : α → ExceptT ε (StateM σ) β) : ((m >>= f) s).1 = .error e := by
  have hm : m s = (.error e, (m s).2) := Prod.ext h rfl
  rw [bind_apply, hm]

theorem tryCatch_apply (m : ExceptT ε (StateM σ) α) (h : ε → ExceptT ε (StateM σ) α) (s : σ) :
    (tryCatch m h : ExceptT ε (StateM σ) α) s = match m s with
      | (.ok a, s') => (.ok a, s')
      | (.error e, s') => h e s' := by
  have hu : (tryCatch m h : ExceptT ε (StateM σ) α) s = (match (m s).1 with
        | .ok a => (pure (Except.ok a) : StateM σ (Except ε α))
        | .error e => h e) (m s).2 := rfl
  rw [hu]
  cases m s with
  | mk x s' => cases x <;> rfl

namespace Couples

variable {P P' : σ → Prop} {m m' : ExceptT ε (StateM σ) α} {Q Q' : α → σ → Prop} {E E' : σ → Prop}

theorem conseq (h : Couples P m m' Q E) (hP : ∀ s, P' s → P s) (hQ : ∀ a s, Q a s → Q' a s)
    (hE : ∀ s, E s → E' s) : Couples P' m m' Q' E' := by
  intro s hs
  obtain ⟨heq, he⟩ := h s (hP s hs)
  refine ⟨heq, ?_⟩
  generalize m s = last at he
  obtain ⟨x, s'⟩ := last
  cases x with
  | ok a => exact hQ a s' he
  | error e => exact hE s' he

theorem pre (h : Couples P m m' Q E) (hP : ∀ s, P' s → P s) : Couples P' m m' Q E :=
  h.conseq hP (fun _ _ hQ => hQ) fun _ hE => hE

theorem post (h : Couples P m m' Q E) (hQ : ∀ a s, Q a s → Q' a s) : Couples P m m' Q' E :=
  h.conseq (fun _ hP => hP) hQ fun _ hE => hE

theorem given {p : Prop} (h : p → Couples P m m' Q E) : Couples (fun s => p ∧ P s) m m' Q E :=
  fun s hs => h hs.1 s hs.2

theorem returns {a} (h : ∀ s, P s → Q a s) : After P (pure a : ExceptT ε (StateM σ) α) Q E :=
  fun s hs => ⟨rfl, h s hs⟩

theorem stays {a} : After P (pure a : ExceptT ε (StateM σ) α) (fun _ => P) E :=
  returns fun _ hs => hs

theorem gives {a} {B : α → Prop} (h : B a) :
    After P (pure a : ExceptT ε (StateM σ) α) (fun a s => B a ∧ P s) E :=
  returns fun _ hs => ⟨h, hs⟩

theorem stops {e} (h : ∀ s, P s → E s) : After P (throw e : ExceptT ε (StateM σ) α) Q E :=
  fun s hs => ⟨rfl, h s hs⟩

theorem lifts {x} (h : Yields P x Q) : After P (liftM x : ExceptT ε (StateM σ) α) Q E :=
  fun s hs => ⟨rfl, h s hs⟩

theorem finds {x : Except ε α} (h : ∀ a s, x = .ok a → P s → Q a s) (hE : ∀ s, P s → E s) :
    After P (liftM x : ExceptT ε (StateM σ) α) Q E := by
  intro s hs
  cases x with
  | ok a => exact ⟨rfl, h a s rfl hs⟩
  | error e => exact ⟨rfl, hE s hs⟩

theorem andThen {f f' : α → ExceptT ε (StateM σ) β} {R : β → σ → Prop} (hm : Couples P m m' Q E)
    (hf : ∀ a, Couples (Q a) (f a) (f' a) R E) : Couples P (m >>= f) (m' >>= f') R E := by
  intro s hs
  obtain ⟨heq, he⟩ := hm s hs
  rw [bind_apply, bind_apply, ← heq]
  generalize m s = last at he
  obtain ⟨x, s'⟩ := last
  cases x with
  | ok a => exact hf a s' he
  | error e => exact ⟨rfl, he⟩

theorem catching {h h'} (hm : Couples P m m' Q E')
    (hh : ∀ e, Couples E' (h e) (h' e) Q E) : Couples P (tryCatch m h) (tryCatch m' h') Q E := by
  intro s hs
  obtain ⟨heq, he⟩ := hm s hs
  rw [tryCatch_apply, tryCatch_apply, ← heq]
  generalize m s = last at he
  obtain ⟨x, s'⟩ := last
  cases x with
  | ok a => exact ⟨rfl, he⟩
  | error e => exact hh e s' he

theorem looks {f f' : σ → ExceptT ε (StateM σ) β} {R : β → σ → Prop}
    (h : ∀ s, P s → Couples (· = s) (f s) (f' s) R E) :
    Couples P (get >>= f) (get >>= f') R E := by
  intro s hs
  exact h s hs s rfl

theorem sets {s' R} (h : ∀ s, P s → R ⟨⟩ s') :
    After P (set s' : ExceptT ε (StateM σ) PUnit) R E := fun s hs => ⟨rfl, h s hs⟩

theorem changes {f R} (h : ∀ s, P s → R ⟨⟩ (f s)) :
    After P (modify f : ExceptT ε (StateM σ) PUnit) R E := fun s hs => ⟨rfl, h s hs⟩

theorem through {xs : List α} {f f' : α → ExceptT ε (StateM σ) PUnit}
    (h : ∀ x ∈ xs, Couples P (f x) (f' x) (fun _ => P) E) :
    Couples P (xs.forM f) (xs.forM f') (fun _ => P) E := by
  induction xs with
  | nil => exact stays
  | cons x xs ih =>
    exact andThen (h x mem_cons_self) fun _ => ih fun x hx => h x (mem_cons_of_mem _ hx)

end Couples

/-- A program that also reads settings. -/
abbrev Program (ρ ε σ α : Type) := ReaderT ρ (ExceptT ε (StateM σ)) α

namespace Program

variable {r : ρ} {P : σ → Prop} {m m' : Program ρ ε σ α} {Q : α → σ → Prop} {E F : σ → Prop}
  {R : β → σ → Prop}

theorem get_bind (f : σ → Program ρ ε σ β) (r : ρ) (s : σ) : (get >>= f) r s = f s r s := rfl

theorem modify_bind (g : σ → σ) (f : Unit → Program ρ ε σ β) (r : ρ) (s : σ) :
    (modify g >>= f) r s = f () r (g s) := rfl

theorem read_bind (f : ρ → Program ρ ε σ β) (r : ρ) : (read >>= f) r = f r r := rfl

theorem returns {a} (h : ∀ s, P s → Q a s) : After P ((pure a : Program ρ ε σ α) r) Q E :=
  Couples.returns h

theorem stays {a} : After P ((pure a : Program ρ ε σ α) r) (fun _ => P) E := Couples.stays

theorem stops {e} (h : ∀ s, P s → E s) : After P ((throw e : Program ρ ε σ α) r) Q E :=
  Couples.stops h

theorem andThen {f f' : α → Program ρ ε σ β} (hm : Couples P (m r) (m' r) Q E)
    (hf : ∀ a, Couples (Q a) (f a r) (f' a r) R E) : Couples P ((m >>= f) r) ((m' >>= f') r) R E :=
  Couples.andThen hm hf

/-- What follows knows the state that was looked at. -/
theorem looks {f f' : σ → Program ρ ε σ β} (h : ∀ s, P s → Couples (· = s) (f s r) (f' s r) R E) :
    Couples P ((get >>= f) r) ((get >>= f') r) R E := Couples.looks h

/-- What holds of the state that was looked at still holds when the rest begins. -/
theorem peeks {f f' : σ → Program ρ ε σ β} (h : ∀ s, P s → Couples P (f s r) (f' s r) R E) :
    Couples P ((get >>= f) r) ((get >>= f') r) R E :=
      looks fun s hs => (h s hs).pre fun _ hs' => hs' ▸ hs

theorem reads {f f' : ρ → Program ρ ε σ β} (h : Couples P (f r r) (f' r r) R E) :
    Couples P ((read >>= f) r) ((read >>= f') r) R E := by
  intro s hs
  exact h s hs

theorem sets {s' R} (h : ∀ s, P s → R ⟨⟩ s') : After P ((set s' : Program ρ ε σ PUnit) r) R E :=
  Couples.sets h

theorem changes {f R} (h : ∀ s, P s → R ⟨⟩ (f s)) :
    After P ((modify f : Program ρ ε σ PUnit) r) R E := Couples.changes h

theorem through {xs : List α} {f f' : α → Program ρ ε σ PUnit}
    (h : ∀ x ∈ xs, Couples P (f x r) (f' x r) (fun _ => P) E) :
    Couples P (xs.forM f r) (xs.forM f' r) (fun _ => P) E := by
  induction xs with
  | nil => exact stays
  | cons x xs ih =>
    exact andThen (h x mem_cons_self) fun _ => ih fun x hx => h x (mem_cons_of_mem _ hx)

theorem maps {xs : List α} {f : α → Program ρ ε σ β} {B : β → Prop}
    (h : ∀ x ∈ xs, After P (f x r) (fun b s => B b ∧ P s) E) :
    After P (xs.mapM f r) (fun bs s => (∀ b ∈ bs, B b) ∧ P s) E := by
  induction xs with
  | nil => exact returns fun _ hP => ⟨by simp, hP⟩
  | cons x xs ih =>
    rw [mapM_cons]
    refine andThen (h x mem_cons_self) fun b => Couples.given fun hb => ?_
    refine andThen (ih fun x hx => h x (mem_cons_of_mem _ hx)) fun bs => Couples.given fun hbs => ?_
    exact returns fun _ hP => ⟨forall_mem_cons.mpr ⟨hb, hbs⟩, hP⟩

end Program

/-!
## Two runs side by side

Two programs run from two states that are related, and their ends are related again: a result goes
with a result and a stop with a stop. The first run may also stop at a limit that the second does
not have; nothing is said of the second one then. Settings may differ too.
-/

variable {ρ ε σ α β : Type}

/-- Two ends that go together, unless the first is a stop at a limit `L`. -/
inductive Tracks (L : ε → Prop) (Q : α → σ → α → σ → Prop) (E : ε → σ → ε → σ → Prop) :
    Except ε α × σ → Except ε α × σ → Prop
  | ok {a a' : α} {s s' : σ} (h : Q a s a' s') : Tracks L Q E (.ok a, s) (.ok a', s')
  | error {e e' : ε} {s s' : σ} (h : E e s e' s') : Tracks L Q E (.error e, s) (.error e', s')
  | limit {e : ε} {s : σ} {last : Except ε α × σ} (h : L e) : Tracks L Q E (.error e, s) last

namespace Tracks

variable {L L' : ε → Prop} {Q Q' : α → σ → α → σ → Prop} {E E' : ε → σ → ε → σ → Prop}
  {last last' last'' : Except ε α × σ}

theorem imp (h : Tracks L Q E last last') (hL : ∀ e, L e → L' e)
    (hQ : ∀ a s a' s', Q a s a' s' → Q' a s a' s')
    (hE : ∀ e s e' s', E e s e' s' → E' e s e' s') : Tracks L' Q' E' last last' := by
  cases h with
  | ok h => exact .ok (hQ _ _ _ _ h)
  | error h => exact .error (hE _ _ _ _ h)
  | limit h => exact .limit (hL _ h)

/-- Three runs side by side; where the second stops at its limit, the first stopped at its own. -/
theorem trans {R F} (h : Tracks L Q E last last')
    (h' : Tracks L' Q' E' last' last'') (hL : ∀ e s e' s', E e s e' s' → L' e' → L e)
    (hQ : ∀ a s a' s' a'' s'', Q a s a' s' → Q' a' s' a'' s'' → R a s a'' s'')
    (hE : ∀ e s e' s' e'' s'', E e s e' s' → E' e' s' e'' s'' → F e s e'' s'') :
    Tracks L R F last last'' := by
  cases h with
  | ok h =>
    cases h' with
    | ok h' => exact .ok (hQ _ _ _ _ _ _ h h')
  | error h =>
    cases h' with
    | error h' => exact .error (hE _ _ _ _ _ _ h h')
    | limit h' => exact .limit (hL _ _ _ _ h h')
  | limit h => exact .limit h

theorem of_ok {a s} (h : Tracks L Q E (.ok a, s) last') :
    ∃ a' s', last' = (.ok a', s') ∧ Q a s a' s' := by
  cases h with
  | ok h => exact ⟨_, _, rfl, h⟩

end Tracks

/-- From states related by `P` the second program ends as the first one does. -/
def Simulates (L : ε → Prop) (P : σ → σ → Prop) (m m' : ExceptT ε (StateM σ) α)
    (Q : α → σ → α → σ → Prop) (E : ε → σ → ε → σ → Prop) : Prop :=
  ∀ s s', P s s' → Tracks L Q E (m s) (m' s')

namespace Simulates

variable {L L' : ε → Prop} {O P : σ → σ → Prop} {Q Q' : α → σ → α → σ → Prop}
  {E E' : ε → σ → ε → σ → Prop} {m m' : ExceptT ε (StateM σ) α}

theorem conseq (h : Simulates L P m m' Q E) (hL : ∀ e, L e → L' e) (hP : ∀ s s', O s s' → P s s')
    (hQ : ∀ a s a' s', Q a s a' s' → Q' a s a' s') (hE : ∀ e s e' s', E e s e' s' → E' e s e' s') :
    Simulates L' O m m' Q' E' := fun s s' hs => (h s s' (hP s s' hs)).imp hL hQ hE

theorem pre (h : Simulates L P m m' Q E) (hP : ∀ s s', O s s' → P s s') : Simulates L O m m' Q E :=
  h.conseq (fun _ h => h) hP (fun _ _ _ _ h => h) fun _ _ _ _ h => h

theorem andThen {f f' : α → ExceptT ε (StateM σ) β} {R : β → σ → β → σ → Prop}
    (hm : Simulates L P m m' Q E)
    (hf : ∀ a a', Simulates L (fun s s' => Q a s a' s') (f a) (f' a') R E) :
    Simulates L P (m >>= f) (m' >>= f') R E := by
  intro s s' hs
  have he := hm s s' hs
  rw [bind_apply, bind_apply]
  generalize m s = last at he
  generalize m' s' = last' at he
  cases he with
  | ok h => exact hf _ _ _ _ h
  | error h => exact .error h
  | limit h => exact .limit h

theorem given {p : Prop} (h : p → Simulates L P m m' Q E) :
    Simulates L (fun s s' => p ∧ P s s') m m' Q E :=
  fun s s' hs => h hs.1 s s' hs.2

end Simulates

namespace Program

variable {r r' : ρ} {K L : ε → Prop} {P : σ → σ → Prop} {Q : α → σ → α → σ → Prop}
  {R : β → σ → β → σ → Prop} {E F : ε → σ → ε → σ → Prop}

variable {m m' : Program ρ ε σ α} {s s' : σ} {a : α} {e : ε} {f : α → Program ρ ε σ β}

theorem bind_ok (h : m r s = (.ok a, s')) (f : α → Program ρ ε σ β) : (m >>= f) r s = f a r s' := by
  have hb : (m >>= f) r s = (m r >>= fun a => f a r) s := rfl
  rw [hb, bind_apply, h]

theorem bind_error (h : m r s = (.error e, s')) (f : α → Program ρ ε σ β) :
    (m >>= f) r s = (.error e, s') := by
  have hb : (m >>= f) r s = (m r >>= fun a => f a r) s := rfl
  rw [hb, bind_apply, h]

theorem bind_eq_ok {b} (h : (m >>= f) r s = (.ok b, s')) :
    ∃ a t, m r s = (.ok a, t) ∧ f a r t = (.ok b, s') := by
  cases hrun : m r s with
  | mk result t =>
    cases result with
    | ok a =>
      rw [bind_ok hrun] at h
      exact ⟨a, t, rfl, h⟩
    | error e =>
      rw [bind_error hrun] at h
      cases h

theorem bind_congr {t} (h : m r s = m' r t) (f : α → Program ρ ε σ β) :
    (m >>= f) r s = (m' >>= f) r t := by
  have hb : ∀ (m : Program ρ ε σ α) s, (m >>= f) r s = (m r >>= fun a => f a r) s := fun _ _ => rfl
  rw [hb, hb, bind_apply, bind_apply, h]

theorem catch_ok (hm : m r s = (.ok a, s')) (h : ε → Program ρ ε σ α) :
    (tryCatch m h : Program ρ ε σ α) r s = (.ok a, s') := by
  have hc : (tryCatch m h : Program ρ ε σ α) r s =
      (tryCatch (m r) fun e => h e r : ExceptT ε (StateM σ) α) s := rfl
  rw [hc, tryCatch_apply, hm]

theorem catch_error (hm : m r s = (.error e, s')) (h : ε → Program ρ ε σ α) :
    (tryCatch m h : Program ρ ε σ α) r s = h e r s' := by
  have hc : (tryCatch m h : Program ρ ε σ α) r s =
      (tryCatch (m r) fun e => h e r : ExceptT ε (StateM σ) α) s := rfl
  rw [hc, tryCatch_apply, hm]

theorem bothReturn {a'} (h : ∀ s s', P s s' → Q a s a' s') :
    Simulates L P ((pure a : Program ρ ε σ α) r) ((pure a' : Program ρ ε σ α) r') Q E :=
  fun s s' hs => .ok (h s s' hs)

theorem bothStop {e'} (h : ∀ s s', P s s' → E e s e' s') :
    Simulates L P ((throw e : Program ρ ε σ α) r) ((throw e' : Program ρ ε σ α) r') Q E :=
  fun s s' hs => .error (h s s' hs)

theorem firstStops (h : L e) : Simulates L P ((throw e : Program ρ ε σ α) r) (m' r') Q E :=
  fun _ _ _ => .limit h

theorem bothThen {f' : α → Program ρ ε σ β} (hm : Simulates L P (m r) (m' r') Q E)
    (hf : ∀ a a', Simulates L (fun s s' => Q a s a' s') (f a r) (f' a' r') R E) :
    Simulates L P ((m >>= f) r) ((m' >>= f') r') R E := Simulates.andThen hm hf

/-- A limit that the first program meets is still one after it was caught. -/
theorem bothCatch {h h'} (hm : Simulates K P (m r) (m' r') Q F)
    (hh : ∀ e e', Simulates L (fun s s' => F e s e' s') (h e r) (h' e' r') Q E)
    (hL : ∀ e s, K e → ∃ e₁ s₁, h e r s = (.error e₁, s₁) ∧ L e₁) :
    Simulates L P ((tryCatch m h : Program ρ ε σ α) r)
      ((tryCatch m' h' : Program ρ ε σ α) r') Q E := by
  intro s s' hs
  have he := hm s s' hs
  generalize hr : m r s = last at he
  generalize hr' : m' r' s' = last' at he
  cases he with
  | ok h =>
    rw [catch_ok hr, catch_ok hr']
    exact .ok h
  | error h =>
    rw [catch_error hr, catch_error hr']
    exact hh _ _ _ _ h
  | limit h =>
    obtain ⟨e₁, s₁, hc, hl⟩ := hL _ _ h
    rw [catch_error hr, hc]
    exact .limit hl

theorem bothLook {f f' : σ → Program ρ ε σ β}
    (h : ∀ s s', P s s' → Simulates L (fun t t' => t = s ∧ t' = s') (f s r) (f' s' r') R E) :
    Simulates L P ((get >>= f) r) ((get >>= f') r') R E := by
  intro s s' hs
  exact h s s' hs s s' ⟨rfl, rfl⟩

theorem bothRead {f f' : ρ → Program ρ ε σ β} (h : Simulates L P (f r r) (f' r' r') R E) :
    Simulates L P ((read >>= f) r) ((read >>= f') r') R E := h

theorem bothChange {f f' R} (h : ∀ s s', P s s' → R ⟨⟩ (f s) ⟨⟩ (f' s')) :
    Simulates L P ((modify f : Program ρ ε σ PUnit) r) ((modify f' : Program ρ ε σ PUnit) r') R E :=
  fun s s' hs => .ok (h s s' hs)

/-- What follows knows the end of the second program. -/
theorem tracks_bind {f' : α → Program ρ ε σ β} (hm : Tracks L Q E (m r s) (m' r' s'))
    (hf : ∀ a t a' t', m' r' s' = (.ok a', t') → Q a t a' t' →
      Tracks L R E (f a r t) (f' a' r' t')) : Tracks L R E ((m >>= f) r s) ((m' >>= f') r' s') := by
  cases hrun : m r s with
  | mk result t =>
    cases hr' : m' r' s' with
    | mk result' t' =>
      rw [hrun, hr'] at hm
      cases hm with
      | ok h =>
        rw [bind_ok hrun, bind_ok hr']
        exact hf _ _ _ _ hr' h
      | error h =>
        rw [bind_error hrun, bind_error hr']
        exact .error h
      | limit h =>
        rw [bind_error hrun]
        exact .limit h

end Program

end TemplateKit
