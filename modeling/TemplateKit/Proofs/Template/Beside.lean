import TemplateKit.Proofs.Template.Eval
import TemplateKit.Proofs.Template.Outline

/-!
# Two readers that differ in what they build

Two readers go through the same text, and only their builders and levels differ. Builders come into
what is read by the escape mode of an item, by whether a command may stand where it does, and by
whether a text leaves blocks open. A relation between builders that respects these is kept by every
text, as long as the first reader finds no fault and does not go too deep. Where texts are nested by
inclusion only, the deepest level keeps both from the bound on nesting.
-/

namespace TemplateKit

open Program Directive List

/-- The kind of failure that a stop tells; the bound on nesting is none. -/
def Stop.kind? : Stop → Option Kind
  | failure f => some f.kind
  | exhausted => none

/-- How two readers of the same text may differ. -/
structure Pairing where
  /-- The kinds of failures at which the first one may stop alone. -/
  alone : Option Kind → Prop
  /-- May both come to the bound on nesting? -/
  atBound : Prop
  built : Builder → Builder → Prop
  /-- What is left of it in the middle of a command. -/
  loose : Builder → Builder → Prop
  level : Nat → Nat → Prop
  /-- What holds of the scope that they share. -/
  scope : Scope → Prop

namespace Pairing

variable {p : Pairing} {s s' : ParseState}

/-- States that differ only in their builders and levels. -/
inductive State (p : Pairing) : ParseState → ParseState → Prop
  | mk {s : ParseState} {b : Builder} {d : Nat} (hb : p.loose s.builder b) (hd : p.level s.depth d)
      (hI : p.scope s.scope) :
      State p s { s with builder := b, depth := d }

theorem State.loose (h : p.State s s') : p.loose s.builder s'.builder := by
  obtain ⟨h, -, -⟩ := h
  exact h

theorem State.level (h : p.State s s') : p.level s.depth s'.depth := by
  obtain ⟨-, h, -⟩ := h
  exact h

theorem State.scope (h : p.State s s') : p.scope s.scope := by
  obtain ⟨-, -, h⟩ := h
  exact h

theorem State.rest (h : p.State s s') :
    s' = { s with builder := s'.builder, depth := s'.depth } := by
  obtain ⟨-, -, -⟩ := h
  rfl

/-- Levels that are one below related ones. -/
def Lower (D : Nat → Nat → Prop) (k k' : Nat) : Prop :=
  ∃ n n', k = n + 1 ∧ k' = n' + 1 ∧ n < deepestNesting ∧ D n n'

def lower (p : Pairing) : Pairing := { p with level := Lower p.level }

def terms (p : Pairing) : Terms where
  mark := Eq
  place := Eq
  built := p.loose
  alone e := p.alone e.kind?
  part _ := Eq
  state := p.State
  -- what could not be found may be passed over, and nothing stops in the middle of a command for
  -- that reason
  stopped e s e' s' := (e = e' ∧ (e = .exhausted → p.atBound)) ∧
    (e.kind? = some .notFound → p.built s.builder s'.builder) ∧ p.State s s'

variable (p : Pairing) {s s' : ParseState}

theorem lawful (r : ParserSettings) : p.terms.Lawful r where
  fault h f := by
    obtain ⟨hb, hd, hI⟩ := h
    exact ⟨⟨rfl, by rintro ⟨⟩⟩, by rintro ⟨⟩, hb, hd, hI⟩
  builder {s _ b _} h hb := by
    obtain ⟨-, hd, hI⟩ := h
    exact .mk (s := { s with builder := b }) hb hd hI
  place h := by
    obtain ⟨-, -, -⟩ := h
    rfl
  within h _ := congrArg (· + _) h
  use {s _ _ b _ places} h hp x _ := by
    obtain ⟨hb, hd, hI⟩ := h
    obtain rfl := hp
    exact .mk (s := { s with
      whereabouts := { s.whereabouts with reading := s.whereabouts.reading.use b x places } }) hb hd
        hI
  newMark {s _ t t' m m' required autoEscape escape} h hm hm' := by
    obtain ⟨hb, hd, hI⟩ := h
    -- a new mark depends neither on the builder nor on the level
    revert hm hm'
    unfold Parse.newMark
    rw [Program.get_bind, Program.get_bind]
    dsimp only
    rw [Program.read_bind, Program.read_bind]
    split
    · split
      · rintro ⟨⟩ ⟨⟩
        exact ⟨rfl, .mk hb hd hI⟩
      · cases s.whereabouts.reading.text with
        | none | some =>
          rintro ⟨⟩ ⟨⟩
          exact ⟨rfl, .mk (s := { s with position := _ }) hb hd hI⟩
    · rintro ⟨⟩ ⟨⟩
      exact ⟨rfl, .mk hb hd hI⟩
  macros_eq h := by
    obtain ⟨-, -, -⟩ := h
    rfl
  define {s _} h ms := by
    obtain ⟨hb, hd, hI⟩ := h
    exact .mk (s := { s with macros := ms }) hb hd hI
  note {s _} h f := by
    obtain ⟨hb, hd, hI⟩ := h
    exact .mk (s := { s with passedOver := s.passedOver ++ [f (s.whereabouts.here r.source)] }) hb
      hd hI

end Pairing

namespace Parse

variable {α β : Type} {p : Pairing} {P S : Builder → Builder → Prop} {Q : α → α → Prop}
  {r : ParserSettings}

/-- Two programs that keep the relation between the builders of readers that differ as `p` allows.
-/
def Both (p : Pairing) (r : ParserSettings) (m m' : Parse α) : Prop :=
  Beside p.terms p.built p.built Eq r m m'

theorem beside_stops {e} (he : e = .exhausted → p.atBound)
    (hP : ∀ b b', P b b' → e.kind? = some .notFound → p.built b b') :
    Beside p.terms P S Q r (throw e) (throw e) :=
      bothStop fun _ _ hs => ⟨⟨rfl, he⟩, hP _ _ hs.1, hs.2⟩

theorem beside_fails {f} : Beside p.terms p.built S Q r (fails f) (fails f) :=
  beside_stops (by rintro ⟨⟩) fun _ _ h _ => h

theorem beside_faultAt {offset f} :
    Beside p.terms P S Q r (faultAt offset f) (faultAt offset f) := by
  rintro s _ ⟨-, hb, hd, hI⟩
  exact .error ⟨⟨rfl, by rintro ⟨⟩⟩, by rintro ⟨⟩, hb, hd, hI⟩

/-- A change that concerns neither builders nor levels nor the scope. -/
theorem beside_change {f} (h : ∀ s b d, f { s with builder := b, depth := d } =
    { f s with builder := b, depth := d })
    (hs : ∀ s, (f s).scope = s.scope) : Beside p.terms P P Eq r (modify f) (modify f) := by
  have hbu : ∀ s, (f s).builder = s.builder :=
    fun s => (congrArg ParseState.builder (h s s.builder s.depth) :)
  have hde : ∀ s, (f s).depth = s.depth :=
    fun s => (congrArg ParseState.depth (h s s.builder s.depth) :)
  refine .changes (fun s s' hb => by rwa [hbu, hbu]) ?_
  rintro s _ @⟨b, d, hb, hd, hI⟩
  rw [h s b d]
  exact ⟨(hbu s).symm ▸ hb, (hde s).symm ▸ hd, (hs s).symm ▸ hI⟩

theorem beside_setReading {reading} :
    Beside p.terms P P Eq r (setReading reading) (setReading reading) :=
  beside_change (fun _ _ _ => rfl) fun _ => rfl

theorem beside_eval {e : Eval α} (he : After p.scope e (fun _ s => p.scope s) p.scope) :
    Beside p.terms P P Eq r (eval e) (eval e) := by
  apply bothLook
  rintro s _ ⟨hP, hb, hd, hI⟩
  have hs : p.scope (e.run s.scope).2 := (he s.scope hI).2.state
  generalize e.run s.scope = last at hs
  obtain ⟨result, scope⟩ := last
  have hset := Pairing.State.mk (s := { s with scope }) hb hd hs
  rintro _ _ ⟨rfl, rfl⟩
  cases result with
  | ok a => exact .ok ⟨rfl, hP, hset⟩
  | error overflow => exact .error ⟨⟨rfl, by rintro ⟨⟩⟩, by rintro ⟨⟩, hset⟩

/-- A limit may not be passed over. -/
theorem Beside.catching {m m' h} (hm : Beside p.terms P S Q r m m')
    (hh : ∀ e, (e = .exhausted → p.atBound) →
      Beside p.terms (fun b b' => e.kind? = some .notFound → p.built b b') S Q r (h e) (h e))
    (hl : ∀ e s, p.alone e.kind? → ∃ e₁ s₁, h e r s = (.error e₁, s₁) ∧ p.alone e₁.kind?) :
    Beside p.terms P S Q r (tryCatch m h) (tryCatch m' h) := by
  refine bothCatch hm (fun e e' => Simulates.given fun he => ?_) hl
  rw [← he.1]
  exact hh e he.2

/-- The texts `X` hold the commands `K` and the literal texts `L` only, and so do the texts that are
read in the middle of them. -/
structure Readable (K : Command → Prop) (L X : Bytes → Prop) (r : ParserSettings) : Prop where
  commands {x : Bytes} {c : Command} (h : X x) (hc : c ∈ commandsIn r.tag x) : K c
  literal {x s : Bytes} (h : X x) (hs : LiteralIn r.tag x s) : L s
  /-- Files may be marked. -/
  marker (hK : K .includeNow) (s : Bytes) : L s
  file {scope : Scope} {path found content : Bytes} (hK : K .includeNow)
    (h : load r.source scope path = .ok (found, content)) : X content
  value (hK : K .evar) (x : Bytes) : X x

theorem readable_all (r : ParserSettings) :
    Readable (fun _ => True) (fun _ => True) (fun _ => True) r :=
  ⟨fun _ _ => trivial, fun _ _ => trivial, fun _ _ => trivial, fun _ _ => trivial,
    fun _ _ => trivial⟩

/-- How the levels of two readers may be related: the first is not above the second, and both can go
down together. -/
structure Levels (D : Nat → Nat → Prop) : Prop where
  le {k k' : Nat} (h : D k k') : k' ≤ k
  succ {k k' : Nat} (h : D k k') (hk : k < deepestNesting) : D (k + 1) (k' + 1)

theorem Levels.of_lower {D} (hD : Levels D) {k k'} (h : Pairing.Lower D k k') : D k k' := by
  obtain ⟨n, n', rfl, rfl, hn, h⟩ := h
  exact hD.succ h hn

theorem Levels.lower {D} (hD : Levels D) : Levels (Pairing.Lower D) where
  le h := hD.le (hD.of_lower h)
  succ h hk := ⟨_, _, rfl, rfl, hk, hD.of_lower h⟩

/-- Limits that make up for what the relations between builders and levels leave open. A reader of
the first kind may find a fault in the blocks, or go too deep, where the second does not. -/
structure Tolerant (p : Pairing) : Prop extends Levels p.level where
  found : ¬p.alone (some .notFound)
  blocks : p.alone (some .parse) ∨ ∀ b b', p.built b b' → b' = b
  depth : p.alone (some .maxRecursion) ∨ ∀ k k', p.level k k' → k' = k
  finding : Scope.KeptByFinding p.scope

theorem Tolerant.lower (hL : Tolerant p) : Tolerant p.lower :=
  { hL with
    toLevels := hL.toLevels.lower
    depth := hL.depth.imp id fun h k k' hk => h k k' (hL.of_lower hk) }

section Texts

variable {K : Command → Prop} {L X : Bytes → Prop} {text text' : Bytes → Parse Unit}
  {t : Directive.Tail}

/-- A note on a failure changes neither its kind nor the states. -/
theorem simulates_noting {P Q m m' path what}
    (hm : Simulates p.terms.alone P (m r) (m' r) Q p.terms.stopped) :
    Simulates p.terms.alone P (noting path what m r) (noting path what m' r) Q p.terms.stopped := by
  refine bothCatch hm (fun e e' => ?_) fun e s he => ?_
  · rintro s _ ⟨⟨rfl, hbo⟩, hf, hb, hd, hI⟩
    cases e with
    | failure f => exact .error ⟨⟨rfl, by rintro ⟨⟩⟩, hf, hb, hd, hI⟩
    | exhausted => exact .error ⟨⟨rfl, hbo⟩, hf, hb, hd, hI⟩
  · cases e <;> exact ⟨_, _, rfl, he⟩

theorem beside_orRestore {m m' : Parse Unit} {before : Reading}
    (hm : Beside p.terms P S Eq r m m') :
    Beside p.terms P S Eq r (orRestore before m) (orRestore before m') :=
  hm.catching (fun _ hb => beside_setReading.next fun _ => beside_stops hb fun _ _ h => h)
    fun e _ he => ⟨e, _, rfl, he⟩

theorem lowers_deeper (hL : Tolerant p) :
    Simulates p.terms.alone (p.terms.Holds p.built) (deeper r) (deeper r)
    (fun _ s _ s' => p.lower.terms.Holds p.built s s') p.terms.stopped := by
  refine bothLook ?_
  rintro s _ ⟨hR, hb, hd, hI⟩
  dsimp only
  by_cases hde : s.depth ≥ deepestNesting
  · rw [if_pos hde]
    rcases hL.depth with hl | heq
    · exact fun _ _ _ => .limit hl
    · rw [if_pos (heq _ _ hd ▸ hde)]
      rintro _ _ ⟨rfl, rfl⟩
      exact .error ⟨⟨rfl, by rintro ⟨⟩⟩, by rintro ⟨⟩, hb, hd, hI⟩
  · have hd' := hL.le hd
    rw [if_neg hde, if_neg (by omega)]
    refine bothChange ?_
    rintro t _ ⟨rfl, rfl⟩
    exact ⟨hR, .mk (s := { t with depth := t.depth + 1 }) hb ⟨_, _, rfl, rfl,
      Nat.lt_of_not_le hde, hd⟩ hI⟩

variable (hR : Builder.Kept p.terms.toLikeness K L r.functions p.built) (hX : Readable K L X r)

include hR hX

theorem both_file (h : ∀ x, X x → Both p r (text x) (text' x)) (hK : K .includeNow)
    (path : Option Bytes) :
    Both p r (file text path) (file text' path) := by
  have hm : ∀ s, Both p r (literal s) (literal s) :=
    fun s => beside_literal (p.lawful r) hR (hX.marker hK s)
  refine .reads ?_
  cases path with
  | none => exact beside_fails
  | some path =>
    refine .looks fun s s' _ hs => ?_
    obtain ⟨-, -, -⟩ := hs
    rcases hl : load r.source s.scope path with f | ⟨path, content⟩
    · exact beside_fails
    · refine .next (beside_change (fun _ _ _ => rfl) fun _ => rfl) fun _ => ?_
      refine .optionally (hm _) (.optionally (beside_change (fun _ _ _ => rfl) fun _ => rfl) ?_)
      refine .looks fun t t' _ ht => ?_
      obtain ⟨-, -, -⟩ := ht
      refine .optionally (beside_change (fun _ _ _ => rfl) fun _ => rfl) ?_
      refine .next (h content (hX.file hK hl)) fun _ => ?_
      refine .optionally (beside_change (fun _ _ _ => rfl) fun _ => rfl) ?_
      refine .next (beside_change (fun _ _ _ => rfl) fun _ => rfl) fun _ => ?_
      split
      · exact hm _
      · exact .returns rfl

/-- Only what could not be found is passed over, so a fault is not. -/
theorem both_includeNow (hL : Tolerant p) (h : ∀ x, X x → Both p.lower r (text x) (text' x))
    (hK : K .includeNow) :
    Both p r (includeNow text t) (includeNow text' t) := by
  refine .andThen (beside_expression (p.lawful r) rfl (Nat.le_refl _)) fun y y' hy => ?_
  obtain ⟨rfl, -⟩ := hy
  refine .next (beside_eval (hL.finding.eval _)) fun v => ?_
  refine .next (beside_eval (.lifts (hL.finding.properText v))) fun path => ?_
  split
  · exact .returns rfl
  · have hfi : Both p.lower r (noting path " and parse it." (file text path))
        (noting path " and parse it." (file text' path)) :=
      simulates_noting (both_file (p := p.lower) hR hX h hK path)
    refine Beside.catching ?_ (fun e hbo => ?_) fun e s he => ?_
    · refine bothThen (simulates_noting (lowers_deeper hL)) fun _ _ => ?_
      refine bothThen (hfi.conseq (fun _ h => h) (fun _ _ h => h) (fun _ _ _ _ h => h.2) ?_)
        fun _ _ => ?_
      · rintro e s e' _ ⟨he, hf, hb, hd, hI⟩
        exact ⟨he, hf, hb, hL.of_lower hd, hI⟩
      · refine bothChange ?_
        rintro s _ ⟨hb, hb', ⟨n, n', hn, rfl, -, hD⟩, hI⟩
        refine ⟨rfl, hb, .mk (s := { s with depth := s.depth - 1 }) hb' ?_ hI⟩
        rw [hn]
        exact hD
    · cases e with
      | failure f =>
        dsimp only
        split
        · next hf =>
          rw [Bool.and_eq_true, isA_notFound, beq_iff_eq] at hf
          exact Beside.pre (.returns rfl) fun _ _ h => h (congrArg some hf.2)
        · exact beside_stops hbo fun _ _ h => h
      | exhausted => exact beside_stops hbo fun _ _ h => h
    · cases e with
      | failure f =>
        have hk : f.isA .notFound = false := by
          rw [isA_notFound, beq_eq_false_iff_ne]
          rintro hf
          exact hL.found (hf ▸ he)
        refine ⟨.failure f, s, ?_, he⟩
        dsimp only
        rw [hk, Bool.and_false]
        rfl
      | exhausted => exact ⟨_, _, rfl, he⟩

theorem both_evar (h : ∀ x, X x → Both p r (text x) (text' x)) (hK : K .evar) :
    Both p r (evar text t) (evar text' t) := by
  refine .andThen (beside_newMark (p.lawful r)) fun m m' hm => ?_
  obtain ⟨rfl, -⟩ := hm
  refine .next (beside_plainName (p.lawful r) rfl) fun name => .looks fun s s' _ hs => ?_
  obtain ⟨-, -, -⟩ := hs
  have hba : ∀ {P}, Beside p.terms P P Eq r
      (modify fun s' => { s' with whereabouts := { s'.whereabouts with
      context := s.whereabouts.context, inFile := s.whereabouts.inFile } })
        (modify fun s' => { s' with
        whereabouts := { s'.whereabouts with context := s.whereabouts.context, inFile :=
          s.whereabouts.inFile } }) :=
    beside_change (fun _ _ _ => rfl) fun _ => rfl
  dsimp only
  generalize (s.scope.data.value? name).or _ = value
  split
  · rintro s _ ⟨h, hb, hd, hI⟩
    exact .error ⟨⟨rfl, by rintro ⟨⟩⟩, fun _ => h, hb, hd, hI⟩
  · refine .next (beside_add (p.lawful r) hR (fun _ _ h => ⟨h, trivial⟩) rfl
      (Action.of_command hK rfl)) fun _ => ?_
    refine .next (beside_change (fun _ _ _ => rfl) fun _ => rfl) fun _ => ?_
    cases value with
    | none => exact hba
    | some value =>
      refine .next (.catching (h value (hX.value hK value)) (fun e hbo => hba.next fun _ =>
        beside_stops hbo fun _ _ h => h) ?_)
        fun _ => hba
      exact fun e _ he => ⟨e, _, rfl, he⟩

variable (hL : Tolerant p) (hinclude : K .includeNow → ∀ x, X x → Both p.lower r (text x) (text' x))
  (hvalue : K .evar → ∀ x, X x → Both p r (text x) (text' x))

include hL hinclude hvalue

theorem both_inside (before : Reading) {word} (rest : Bytes)
    (hw : ∀ c arg, Command.read? word = some (c, arg) → K c) :
    Both p r (inside text before word rest) (inside text' before word rest) := by
  unfold inside
  split
  · exact .returns rfl
  · rcases hr : Command.read? word with _ | ⟨c, arg⟩
    · exact beside_fault (p.lawful r)
    · have hK : K c := hw c arg hr
      refine .looksInto fun s s' hb hs => ?_
      obtain @⟨b, d, -, -, -⟩ := hs
      by_cases ha : c.allowedIn s.builder.block = true
      · have ha' : c.allowedIn b.block = true := by
          by_cases ho : c.allowedIn .outermost = true
          · cases c <;> first | rfl | cases ho
          · rw [hR.block_eq hb (Builder.frames_ne_nil fun hn => ho (hn ▸ ha))]
            exact ha
        rw [if_pos ha, if_pos ha']
        refine beside_orRestore (Beside.pre (P := fun b b' => p.built b b' ∧
          c.allowedIn b.block = true) ?_
          fun _ _ hb => ⟨hb.1, hb.2 ▸ ha⟩)
        by_cases he : c = .evar
        · subst he
          exact Beside.pre (both_evar hR hX (hvalue hK) hK) fun _ _ hb => hb.1
        · by_cases hf : c = .includeNow
          · subst hf
            exact Beside.pre (both_includeNow hR hX hL (hinclude hK) hK) fun _ _ hb => hb.1
          · exact beside_command (p.lawful r) hR hK he hf (.inr ⟨rfl, rfl, rfl⟩)
      · rw [if_neg ha]
        rcases hL.blocks with hl | heq
        · exact fun _ _ _ => .limit hl
        · obtain rfl := heq _ _ hb
          rw [if_neg ha]
          exact beside_fault (p.lawful r)

theorem both_pieces (before : Reading) (fuel : Nat) {whole x} (hw : X whole) (hx : Begins whole x) :
    Both p r (pieces text before fuel x) (pieces text' before fuel x) := by
  have hl : ∀ {s}, LiteralIn r.tag whole s → Both p r (literal s) (literal s) :=
    fun hs => beside_literal (p.lawful r) hR (hX.literal hw hs)
  induction fuel generalizing x with
  | zero => exact .returns rfl
  | succ fuel ih =>
    refine .reads ?_
    dsimp only
    rcases hn : nextCommand? r.tag x with _ | ⟨front, behind⟩
    · exact hl ⟨hx, hn⟩
    · obtain ⟨⟨u, rfl, ho⟩, hf⟩ := nextCommand?_eq hn
      have hu : u <:+: whole := (suffix_append front u).isInfix.trans hx.isInfix
      have hwo : behind.stripLeft <:+ front ++ u :=
        (dropWhile_suffix _).trans ((suffix_of_opens? ho).trans (suffix_append front u))
      refine .next (hl ⟨hx.cut (prefix_append front u), hf⟩) fun _ => .looks fun s s' _ hs => ?_
      obtain ⟨-, -, -⟩ := hs
      rcases hk : Bytes.find? closing behind.stripLeft with _ | k
      · exact beside_faultAt
      · dsimp only
        split
        · exact beside_faultAt
        · refine .next beside_setReading fun _ => ?_
          refine .next (both_inside hR hX hL hinclude hvalue _ _ fun c arg hr => ?_) fun _ => ?_
          · exact hX.commands hw (mem_commandsIn hu ho (List.take_prefix k _) hr)
          · refine .looks fun s s' _ hs => ?_
            obtain ⟨-, -, -⟩ := hs
            refine ih ?_
            split
            · exact (hx.behind hwo hk).cut (List.take_prefix _ _)
            · exact hx.behind hwo hk

end Texts

section Text

variable {K : Command → Prop} {L X : Bytes → Prop}
  (hR : Builder.Kept p.terms.toLikeness K L r.functions p.built)

include hR

theorem both_conclude (hL : Tolerant p) {s s'} (hs : p.terms.Holds p.built s s') :
    Both p r (conclude s) (conclude s') := by
  obtain ⟨hb, -, -, -⟩ := hs
  rcases hL.blocks with hl | heq
  · rintro t _ ⟨hR', hc, hd, hI⟩
    by_cases hle : t.builder.frames.length ≤ s.builder.frames.length
    · rw [conclude_of_le hle, conclude_of_le (hR.length_le hb hR' hle)]
      exact .ok ⟨rfl, hR', .mk (s := { t with whereabouts := _ }) hc hd hI⟩
    · obtain ⟨f, hrun, hf⟩ := conclude_of_lt (r := r) (Nat.lt_of_not_le hle)
      rw [hrun]
      exact .limit (show p.alone (some f.kind) from hf ▸ hl)
  · refine .looks fun t t' hc ht => ?_
    rw [heq _ _ hb, heq _ _ hc]
    dsimp only
    split
    · split
      · exact beside_faultAt
      · exact beside_setReading
    · exact beside_setReading

/-- Texts can be nested this deeply: the first reader may come to the bound alone, or the bounds are
the same and the readers may come to them, or texts are included only, and the deepest level comes
first. -/
def Suffices (p : Pairing) (K : Command → Prop) (fuel fuel' : Nat) : Prop :=
  p.alone none ∧ fuel ≤ fuel' ∨ fuel = fuel' ∧ (p.atBound ∨
    ¬K .evar ∧ ∀ k k', p.level k k' → deepestNesting < k + fuel ∧ (fuel = 0 → k ≤ deepestNesting))

theorem both_text (hX : Readable K L X r) (hL : Tolerant p) {fuel fuel'}
    (hfu : Suffices p K fuel fuel')
    {x} (hx : X x) : Both p r (Parse.text fuel x) (Parse.text fuel' x) := by
  induction fuel generalizing x p fuel' with
  | zero =>
    rcases hfu with hf | ⟨rfl, hbo | ⟨-, hde⟩⟩
    · exact firstStops hf.1
    · exact beside_stops (fun _ => hbo) fun _ _ h _ => h
    · rintro s _ ⟨-, -, hd, -⟩
      obtain ⟨hlt, hle⟩ := hde _ _ hd
      exact absurd (hle rfl) (Nat.not_le.mpr hlt)
  | succ fuel ih =>
    obtain ⟨fuel', rfl⟩ : ∃ n, fuel' = n + 1 :=
      ⟨fuel' - 1, by have := hfu.elim And.right fun h => Nat.le_of_eq h.1; omega⟩
    have hinclude : K .includeNow → ∀ x, X x →
        Both p.lower r (Parse.text fuel x) (Parse.text fuel' x) := by
      refine fun _ x hx => ih (p := p.lower) hR hL.lower ?_ hx
      refine hfu.imp (fun h => ⟨h.1, Nat.le_of_succ_le_succ h.2⟩) fun h =>
        ⟨Nat.succ.inj h.1, h.2.imp id fun h => ⟨h.1, ?_⟩⟩
      rintro _ _ ⟨n, n', rfl, rfl, hn, hd⟩
      have hlt := (h.2 n n' hd).1
      exact ⟨by omega, fun _ => hn⟩
    have hvalue : K .evar → ∀ x, X x → Both p r (Parse.text fuel x) (Parse.text fuel' x) := by
      refine fun hK x hx => ih hR hL ?_ hx
      exact hfu.imp (fun h => ⟨h.1, Nat.le_of_succ_le_succ h.2⟩) fun h =>
        ⟨Nat.succ.inj h.1, .inl (h.2.resolve_right fun h => h.1 hK)⟩
    refine .looks fun s s' hb hs => ?_
    have hend := both_conclude hR hL ⟨hb, hs⟩
    obtain @⟨b, d, -, -, -⟩ := hs
    exact .next beside_setReading fun _ => .next (both_pieces hR hX hL hinclude hvalue _ _ hx .all)
      fun _ => hend

end Text

end Parse

/-!
## Reading leaves the scope

While a template is read, names are looked up and nothing is assigned. A property of the scope that
looking up keeps is therefore kept by reading, whether or not it fails. A larger bound on nesting
changes nothing about a reading that stays within the smaller one.
-/

open Builder Parse

theorem Builder.kept_eq {fs} :
    Kept ⟨Eq, Eq, fun b b' => b' = b⟩ (fun _ => True) (fun _ => True) fs (fun b b' => b' = b) where
  within h := h
  changed h _ := by rw [h]
  escape_eq h := by rw [h]
  block_eq h _ := by rw [h]
  add h hm _ _ := by rw [h, hm]
  addContentType h hm _ _ _ := by rw [h, hm]
  openBlock h hm hl _ _ := by rw [h, hm, hl]
  define h hm hl _ _ := by rw [h, hm, hl]
  escape h hm hl _ _ _ := by rw [h, hm, hl]
  divide h hm _ _ _ := by rw [h, hm]
  turn h hl _ _ := by rw [h, hl]
  close h _ := by rw [h]
  length_le h hlater hle := by
    rw [h, hlater]
    exact hle

def Below (j n n' : Nat) : Prop := n = n' + j

theorem Below.add (j n : Nat) : Below j (n + j) n := rfl

/-- A single reader, with a property of the scope. -/
def Pairing.single (I : Scope → Prop) : Pairing :=
  ⟨fun _ => False, True, fun b b' => b' = b, fun b b' => b' = b, fun k k' => k' = k, I⟩

namespace Parse

variable {α : Type} {I : Scope → Prop} {r : ParserSettings}

/-- The programs that keep a property of the scope. -/
def Spares (I : Scope → Prop) (r : ParserSettings) (m : Parse α) : Prop := Both (.single I) r m m

theorem Spares.scope {m : Parse α} (h : Spares I r m) {s : ParseState} (hs : I s.scope) :
    I (m r s).2.scope := by
  have he := h s s ⟨rfl, .mk (b := s.builder) (d := s.depth) rfl rfl hs⟩
  generalize m r s = last at he
  cases he with
  | ok h => exact h.2.2.scope
  | error h => exact h.2.2.scope
  | limit h => exact h.elim

theorem spares_literal {s} : Spares I r (literal s) :=
  beside_literal (Pairing.lawful (.single I) r) kept_eq trivial

section Scope

variable (hI : Scope.KeptByFinding I)

include hI

theorem tolerant_scope : Tolerant (.single I) where
  le h := Nat.le_of_eq h
  succ h _ := congrArg (· + 1) h
  found h := h
  blocks := .inr fun _ _ h => h
  depth := .inr fun _ _ h => h
  finding := hI

theorem spares_text {fuel s} : Spares I r (text fuel s) :=
  both_text (p := .single I) kept_eq (readable_all r) (tolerant_scope hI)
    (.inr ⟨rfl, .inl trivial⟩) trivial

theorem spares_file {fuel path} : Spares I r (file (text fuel) path) :=
  both_file (p := .single I) kept_eq (readable_all r) (fun _ _ => spares_text hI) trivial path

theorem spares_inside {fuel before word rest} :
    Spares I r (inside (text fuel) before word rest) := by
  have hl : ∀ x, Both (Pairing.single I).lower r (text fuel x) (text fuel x) :=
    fun x => both_text (p := (Pairing.single I).lower) kept_eq (readable_all r)
      (tolerant_scope hI).lower
      (.inr ⟨rfl, .inl trivial⟩) trivial
  exact both_inside (p := .single I) kept_eq (readable_all r) (tolerant_scope hI)
    (fun _ x _ => hl x) (fun _ _ _ => spares_text hI) before rest fun _ _ _ => trivial

end Scope

variable {fuel fuel' j : Nat} {L : Option Kind → Prop}

/-- The kinds of failure `L` that only the first of two programs may come to, where it is `j` levels
below the second. -/
structure Limited (L : Option Kind → Prop) (j : Nat) : Prop where
  found : ¬L (some .notFound)
  depth : L (some .maxRecursion) ∨ j = 0

/-- Two readers of which the first is some levels below the second. -/
def limited (L : Option Kind → Prop) (j : Nat) : Pairing :=
  ⟨L, True, fun b b' => b' = b, fun b b' => b' = b, Below j, fun _ => True⟩

theorem tolerant_limited (hL : Limited L j) : Tolerant (limited L j) where
  le h := Nat.le.intro h.symm
  succ h _ := by
    simp only [limited, Below] at *
    omega
  found := hL.found
  blocks := .inr fun _ _ h => h
  depth := hL.depth.imp_right fun hj k k' h => by
    subst hj
    exact h.symm
  finding := ⟨fun _ _ _ => trivial, fun _ _ _ => trivial⟩

section Limits

variable (hL : Limited L j) (hfuel : fuel = fuel' ∨ L none ∧ fuel ≤ fuel')

include hL hfuel

theorem limited_text (s : Bytes) : Both (limited L j) r (text fuel s) (text fuel' s) :=
  both_text (p := limited L j) kept_eq (readable_all r) (tolerant_limited hL)
    (hfuel.symm.imp_right fun h => ⟨h, .inl trivial⟩) trivial

theorem limited_file (path : Option Bytes) :
    Both (limited L j) r (file (text fuel) path) (file (text fuel') path) :=
  both_file (p := limited L j) kept_eq (readable_all r) (fun s _ => limited_text hL hfuel s)
    trivial path

end Limits

/-- The second program does what the first does, unless the first comes to the bound on nesting. -/
def Continues (r : ParserSettings) (m m' : Parse Unit) : Prop :=
  ∀ s, (m r s).1 ≠ .error .exhausted → m' r s = m r s

theorem continues_of_both {m m'} (h : Both (limited (· = none) 0) r m m') : Continues r m m' := by
  intro s hm
  have he := h s s ⟨rfl, .mk (b := s.builder) (d := s.depth) rfl rfl trivial⟩
  generalize m r s = last at he hm
  generalize m' r s = last' at he
  cases he with
  | ok h =>
    obtain ⟨rfl, -, rfl, rfl, -⟩ := h
    rfl
  | error h =>
    obtain ⟨⟨rfl, -⟩, -, rfl, rfl, -⟩ := h
    rfl
  | @limit e s' last h =>
    cases e with
    | failure f => cases h
    | exhausted => exact absurd rfl hm

theorem limited_none : Limited (· = none) 0 := ⟨nofun, .inr rfl⟩

end Parse

end TemplateKit
