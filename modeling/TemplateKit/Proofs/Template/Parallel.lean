import TemplateKit.Proofs.Template.Alike
import TemplateKit.Proofs.Template.Beside

/-!
# Reading in parallel

The same commands are read in two states: the text may stand at another offset, the first builder
may stand on items of its own, and the first reader may be a number of levels deeper, so that it can
come to a limit that the second one does not come to. Otherwise both end in the same way, with
builders that are alike. Messages may differ, and so may the places that items tell.
-/

namespace TemplateKit

open Program List

/-- A stop at the bound on nesting or at the deepest level. -/
def Stop.IsLimit (e : Stop) : Prop := e = .exhausted ∨ e.kind? = some .maxRecursion

theorem Stop.IsLimit.congr {e e' : Stop} (h : e.IsLimit) (hk : e.kind? = e'.kind?) :
    e'.IsLimit := by
  rcases h with rfl | h
  · cases e' with
    | failure f => cases hk
    | exhausted => exact .inl rfl
  · exact .inr (hk.symm.trans h)

/-- Readers at two offsets that have the same amount of text left; all of it, if `w` holds. -/
structure Reading.Like (w : Prop) (o o' : Nat) (r r' : Reading) : Prop where
  offset : r.offset = o
  offset' : r'.offset = o'
  stop : ∃ left : Option Nat, r.stop = left.map (o + ·) ∧ r'.stop = left.map (o' + ·) ∧
    (w → left = none)

/-- What two readers stand on: the items that only the first builder has, and the name for notes
about escaping. -/
structure Footing where
  items : List Item
  logName : Option Bytes

/-- States that are alike up to what the readers have come to. Their levels are related by `D`. -/
structure ParseState.Rough (base : Footing) (D : Nat → Nat → Prop) (s s' : ParseState) : Prop where
  builder : Builder.Alike base.items s.builder s'.builder
  macros : s.macros = s'.macros
  scope : s.scope = s'.scope
  logName : s.logName = base.logName
  logName' : s'.logName = base.logName
  depth : D s.depth s'.depth

/-- States that are alike. -/
structure ParseState.Like (base : Footing) (D : Nat → Nat → Prop) (w : Prop) (o o' : Nat)
    (s s' : ParseState) : Prop extends
    ParseState.Rough base D s s' where
  reading : s.whereabouts.reading.Like w o o' s'.whereabouts.reading

namespace Reading

theorem min?_map_add (n : Nat) (xs : List Nat) : (xs.map (n + ·)).min? = xs.min?.map (n + ·) := by
  cases xs with
  | nil => rfl
  | cons x xs =>
    rw [map_cons, min?_cons', foldl_map, foldl_hom (n + ·) fun _ _ => Nat.add_min_add_left ..]
    rfl

/-- How far the places of a part at the offset `b` are ahead of a reader at the offset `o`. -/
def ahead (b o : Nat) (places : List Nat) : List Nat := (places.filter (o ≤ b + ·)).map (b + · - o)

theorem filter_eq_ahead (b o : Nat) (places : List Nat) :
    (places.map (b + ·)).filter (o ≤ ·) = (ahead b o places).map (o + ·) := by
  unfold ahead
  induction places with
  | nil => rfl
  | cons k places ih =>
    by_cases hk : o ≤ b + k
    · simp only [map_cons, filter_cons, hk, decide_true, if_true, ih]
      rw [Nat.add_sub_cancel' hk]
    · simp [hk, ih]

theorem ahead_shift {b b' o o'} (h : b + o' = b' + o) (places : List Nat) :
    ahead b o places = ahead b' o' places := by
  have hle : ∀ k, (o ≤ b + k) ↔ (o' ≤ b' + k) := by omega
  have hsub : ∀ k, b + k - o = b' + k - o' := by omega
  unfold ahead
  simp only [hle, hsub]

/-- What is used up leaves the same amount of text to both readers; what is behind them leaves all
of it. -/
theorem Like.use {w : Prop} {o o' b b' : Nat} {p p' : Reading} (h : p.Like w o o' p')
    (hb : b + o' = b' + o) (part : Bytes) {places : List Nat} (hp : w → ∀ k ∈ places, b + k < o) :
    (p.use b part places).Like w o o' (p'.use b' part places) := by
  obtain ⟨left, hs, hs', hw⟩ := h.stop
  refine ⟨h.offset, h.offset', (ahead b o places ++ left.toList).min?, ?_, ?_, fun hwr => ?_⟩
  · have htoList : (left.map (o + ·)).toList = left.toList.map (o + ·) := by cases left <;> rfl
    simp only [Reading.use, h.offset, hs, filter_eq_ahead, htoList, ← map_append, min?_map_add]
  · have htoList : (left.map (o' + ·)).toList = left.toList.map (o' + ·) := by cases left <;> rfl
    simp only [Reading.use, h.offset', hs', filter_eq_ahead, htoList, ← map_append,
      min?_map_add, ← ahead_shift hb]
  · have hn : ahead b o places = [] := by
      unfold ahead
      rw [filter_eq_nil_iff.mpr, map_nil]
      intro k hk
      simpa using hp hwr k hk
    rw [hn, hw hwr]
    rfl

end Reading

/-- A part of `n` bytes is as far from both readers; it is behind them, if `w` holds. -/
def AsFar (w : Prop) (o o' n b b' : Nat) : Prop := b + o' = b' + o ∧ (w → b + n < o)

/-- How two readers stop: in the same way and, unless the text was at fault, with the readers where
they were. -/
def Undone (base : Footing) (D : Nat → Nat → Prop) (w : Prop) (o o' : Nat) (e : Stop)
    (s : ParseState) (e' : Stop) (s' : ParseState) : Prop :=
  e.kind? = e'.kind? ∧ s.Rough base D s' ∧
    (e.kind? ≠ some .parse → s.whereabouts.reading.Like w o o' s'.whereabouts.reading)

/-- The terms on which two readers are alike that stand on the same footing, at the offsets `o` and
`o'`. -/
def Footing.terms (base : Footing) (D : Nat → Nat → Prop) (w : Prop) (o o' : Nat) : Terms where
  mark := Mark.Alike
  place _ _ := True
  built := Builder.Alike base.items
  alone := Stop.IsLimit
  part := AsFar w o o'
  state := ParseState.Like base D w o o'
  stopped := Undone base D w o o'

namespace ParseState.Like

variable {base : Footing} {D : Nat → Nat → Prop} {w : Prop} {o o' : Nat} {s s' : ParseState}
  (h : s.Like base D w o o' s')

include h

theorem holds : (base.terms D w o o').Holds (Builder.Alike base.items) s s' := ⟨h.builder, h⟩

theorem undone {e e' : Stop} (he : e.kind? = e'.kind?) : Undone base D w o o' e s e' s' :=
  ⟨he, h.toRough, fun _ => h.reading⟩

end ParseState.Like

namespace Parse

variable {α : Type} {base : Footing} {D : Nat → Nat → Prop} {w : Prop} {o o' : Nat}
  {r : ParserSettings}

theorem lawful_footing : (base.terms D w o o').Lawful r where
  fault h _ := h.undone rfl
  builder h hb := { h with builder := hb }
  place _ := trivial
  within h hle := by
    obtain ⟨hba, hbe⟩ := h
    refine ⟨by omega, fun hw => ?_⟩
    have := hbe hw
    omega
  use h hp x hle := by
    refine { h with reading := h.reading.use hp.1 x fun hw k hk => ?_ }
    have := hp.2 hw
    have := hle k hk
    omega
  newMark {s s' t t' m m' required autoEscape escape} h hm hm' := by
    obtain ⟨_, position, hrun, hma⟩ := newMark_run (r := r) required autoEscape escape s
    obtain ⟨_, position', hr', hma'⟩ := newMark_run (r := r) required autoEscape escape s'
    rw [hm] at hrun
    rw [hm'] at hr'
    cases hrun
    cases hr'
    have ha := hma ▸ m.alike_unplaced
    have ha' := hma' ▸ m'.alike_unplaced
    exact ⟨⟨ha.required.trans ha'.required.symm, ha.escape.trans ha'.escape.symm,
      ha.autoEscape.trans ha'.autoEscape.symm⟩, { h with }⟩
  macros_eq h := h.macros.symm
  define h ms := { h with macros := rfl }
  note h f := { h with }

theorem kept_alike :
    Builder.Kept (base.terms D w o o').toLikeness (fun _ => True) (fun _ => True) r.functions
    (Builder.Alike base.items) where
  within h := h
  changed h m := h.changeEscape m
  escape_eq h := h.escape_eq.symm
  block_eq h _ := h.block_eq.symm
  add h hm _ _ := h.add hm _
  addContentType h hm _ _ _ := h.addContentType hm _ _
  openBlock h hm _ _ _ := h.openBlock hm _ _ _ _
  define h hm _ _ _ := (h.changeEscape _).openBlock hm _ _ _ _
  escape h hm _ _ _ _ := (h.changeEscape _).openBlock hm _ _ _ _
  divide h hm _ _ _ := h.divide hm _
  turn h _ _ _ := h.turn _ _
  close h _ := h.close
  length_le h hlater hle := by rwa [← h.length_eq, ← hlater.length_eq]

/-- Two programs that end in the same way from states that are alike. -/
def Parallel (base : Footing) (D : Nat → Nat → Prop) (w : Prop) (o o' : Nat) (r : ParserSettings)
    (m m' : Parse α) : Prop :=
  Beside (base.terms D w o o') (Builder.Alike base.items) (Builder.Alike base.items) Eq r m m'

theorem parallel_literal (text : Bytes) : Parallel base D w o o' r (literal text) (literal text) :=
  beside_literal lawful_footing kept_alike trivial

theorem parallel_fails {f f'} (h : f.kind = f'.kind) :
    Parallel (α := α) base D w o o' r (fails f) (fails f') :=
  bothStop fun _ _ hs => hs.2.undone (congrArg some h)

theorem parallel_changes {f f'} (h : ∀ s s', s.Like base D w o o' s' →
    (f s).Like base D w o o' (f' s')) :
    Parallel base D w o o' r (modify f) (modify f') :=
  bothChange fun s s' hs => ⟨rfl, (h s s' hs.2).holds⟩

theorem parallel_eval (e : Eval α) : Parallel base D w o o' r (eval e) (eval e) := by
  apply bothLook
  rintro s s' ⟨-, hs⟩
  have hsc : s.scope = s'.scope := hs.scope
  rw [← hsc]
  generalize e.run s.scope = last
  obtain ⟨result, scope⟩ := last
  have hset : ParseState.Like base D w o o' { s with scope } { s' with scope } :=
    { hs with scope := rfl }
  rintro _ _ ⟨rfl, rfl⟩
  cases result with
  | ok a => exact .ok ⟨rfl, hset.holds⟩
  | error overflow => exact .error (hset.undone rfl)

end Parse

/-!
## Texts

Commands that read another text come back to where they were, unless that text is at fault. So a
text is read in the same way in states that are alike, from whatever offset and level, as long as
the first reader does not come to a limit.
-/

open Program List
variable {w : Prop} {o o' : Nat}

namespace Parse

variable {base : Footing} {D : Nat → Nat → Prop} {w : Prop} {o o' : Nat} {r : ParserSettings}

theorem literal_run (text : Bytes) (s : ParseState) :
    ∃ mark position, literal text r s =
      (.ok (), { s with position, builder := s.builder.add mark (.literal (some text)) }) ∧
      mark.unplaced = { autoEscape := r.auto.enabled, logName := s.logName } := by
  obtain ⟨mark, position, hrun, hm⟩ := newMark_run (r := r) false r.auto.enabled .undefined s
  exact ⟨mark, position, bind_ok hrun _, hm⟩

section Texts

variable {text text' : Bytes → Parse Unit} (hauto : r.auto = {})
  (h : ∀ s, Parallel base D w o o' r (text s) (text' s))

include hauto h

theorem parallel_file (path : Option Bytes) :
    Parallel base D w o o' r (file text path) (file text' path) := by
  refine .reads ?_
  cases path with
  | none => exact parallel_fails rfl
  | some path =>
    refine .looks fun s s' _ (hs : ParseState.Like base D w o o' s s') => ?_
    rw [← hs.scope, hs.logName, hs.logName', hauto]
    cases load r.source s.scope path with
    | error f => exact parallel_fails rfl
    | ok found =>
      obtain ⟨path, content⟩ := found
      refine .next (parallel_changes fun _ _ hs => { hs with }) fun _ =>
        .optionally (parallel_literal _) ?_
      refine .looks fun _ _ _ _ =>
        .optionally (parallel_changes fun _ _ hs => { hs with }) (.next (h content) fun _ => ?_)
      refine .optionally (parallel_changes fun _ _ hs => { hs with }) ?_
      refine .next (parallel_changes fun _ _ hs => { hs with logName := rfl, logName' := rfl })
        fun _ => ?_
      split
      · exact parallel_literal _
      · exact .returns rfl

end Texts

/-- A handler does not go on behind a limit if it passes on what comes from there. -/
theorem limit_again {h : Stop → Parse Unit} (hf : ∀ f s, f.kind = .maxRecursion →
      ∃ f' s', h (.failure f) r s = (.error (.failure f'), s') ∧ f'.kind = .maxRecursion)
    (hex : ∀ s, ∃ s', h .exhausted r s = (.error .exhausted, s')) (e : Stop) (s : ParseState)
    (he : e.IsLimit) :
    ∃ e' s', h e r s = (.error e', s') ∧ e'.IsLimit := by
  cases e with
  | failure f =>
    have hk : f.kind = .maxRecursion := by
      rcases he with he | he
      · cases he
      · exact Option.some.inj he
    obtain ⟨f', s', hrun, hf'⟩ := hf f s hk
    exact ⟨_, s', hrun, .inr (congrArg some hf')⟩
  | exhausted =>
    obtain ⟨s', hrun⟩ := hex s
    exact ⟨_, s', hrun, .inl rfl⟩

theorem simulates_noted {P Q m m'} (path : Option Bytes) (what : Bytes)
    (h : Simulates Stop.IsLimit P (m r) (m' r) Q (Undone base D w o o')) :
    Simulates Stop.IsLimit P (noting path what m r) (noting path what m' r) Q
      (Undone base D w o o') := by
  refine bothCatch h (fun e e' => ?_) ?_
  · intro s s' hs
    obtain ⟨hk, hr⟩ := hs
    cases e with
    | failure f =>
      cases e' with
      | failure f' => exact .error ⟨hk, hr⟩
      | exhausted => cases hk
    | exhausted =>
      cases e' with
      | failure f' => cases hk
      | exhausted => exact .error ⟨rfl, hr⟩
  · exact limit_again (fun f s hf => ⟨_, _, rfl, hf⟩) fun s => ⟨s, rfl⟩

/-- Where the second reader is not below the first, it is not the first to come to the deepest
level. -/
theorem simulates_deeper (hD : Levels D) :
    Simulates Stop.IsLimit ((base.terms D w o o').Holds (Builder.Alike base.items))
      (deeper r) (deeper r)
      (fun _ s _ s' => (base.terms (Pairing.Lower D) w o o').Holds (Builder.Alike base.items) s s')
      (Undone base D w o o') := by
  apply bothLook
  rintro s s' ⟨-, hs⟩
  have hle := hD.le hs.depth
  by_cases hd : s.depth ≥ deepestNesting
  · rw [if_pos hd]
    exact firstStops (.inr rfl)
  · rw [if_neg hd, if_neg (by omega)]
    refine bothChange ?_
    rintro _ _ ⟨rfl, rfl⟩
    exact ParseState.Like.holds { hs with depth := ⟨_, _, rfl, rfl, Nat.lt_of_not_le hd, hs.depth⟩ }

/-- A change of the state that is made when a program stops. -/
theorem simulates_undoing {α : Type} {P Q E F m m' f f'}
    (h : Simulates Stop.IsLimit P (m r) (m' r) Q F)
    (hf : ∀ e s e' s', F e s e' s' → E e (f s) e' (f' s')) :
    Simulates Stop.IsLimit P
      ((tryCatch m fun stop => do
        modify f
        throw stop : Parse α) r)
      ((tryCatch m' fun stop => do
        modify f'
        throw stop : Parse α) r) Q E := by
  refine bothCatch (F := F) (K := Stop.IsLimit) h (fun e e' s s' hs => .error (hf e s e' s' hs)) ?_
  intro e s hl
  exact ⟨e, f s, rfl, hl⟩

section Commands

variable {text text' : Bytes → Parse Unit} {c : Command} {t t' : Directive.Tail}

theorem parallel_includeNow (hauto : r.auto = {}) (hD : Levels D)
    (h : ∀ s, Parallel base (Pairing.Lower D) w o o' r (text s) (text' s))
    (ht : t.Like (AsFar w o o') t') :
    Parallel base D w o o' r (includeNow text t) (includeNow text' t') := by
  obtain ⟨q, b, x⟩ := t
  obtain ⟨rfl, rfl, hp⟩ := ht
  refine .andThen (beside_expression lawful_footing hp (Nat.le_refl _)) fun y y' hy => ?_
  obtain ⟨rfl, -⟩ := hy
  refine .next (parallel_eval _) fun v => .next (parallel_eval _) fun path => ?_
  split
  · exact .returns rfl
  · refine bothCatch (F := Undone base D w o o') (K := Stop.IsLimit) ?_ (fun e e' => ?_) ?_
    · refine bothThen (simulates_noted path _ (simulates_deeper hD)) fun _ _ => ?_
      refine bothThen ((simulates_noted path _ (parallel_file hauto h path)).conseq (fun _ h => h)
        (fun _ _ h => h) (fun _ _ _ _ h => h.2.2) ?_) fun _ _ => ?_
      · rintro _ _ _ _ ⟨hki, hro, hr⟩
        exact ⟨hki, { hro with depth := hD.of_lower hro.depth }, hr⟩
      · refine bothChange fun s s' (hs : ParseState.Like base (Pairing.Lower D) w o o' s s') =>
          ⟨rfl, ParseState.Like.holds ?_⟩
        obtain ⟨n, n', hn, hn', -, hl⟩ := hs.depth
        exact { hs with depth := by simpa [hn, hn'] using hl }
    · rintro s s' ⟨hki, hro, hr⟩
      cases e with
      | failure f =>
        cases e' with
        | failure f' =>
          have hk : f.kind = f'.kind := Option.some.inj hki
          dsimp only
          rw [isA_notFound, isA_notFound, ← hk]
          split
          · next hfo =>
            have hnot : Stop.kind? (.failure f) ≠ some .parse := by
              intro hpa
              rw [Option.some.inj hpa] at hfo
              simp at hfo
            exact .ok ⟨rfl, ParseState.Like.holds { hro with reading := hr hnot }⟩
          · exact .error ⟨hki, hro, hr⟩
        | exhausted => cases hki
      | exhausted =>
        cases e' with
        | failure f' => cases hki
        | exhausted => exact .error ⟨rfl, hro, hr⟩
    · refine limit_again (fun f s hf => ⟨f, s, ?_, hf⟩) fun s => ⟨s, rfl⟩
      dsimp only
      rw [isA_notFound, hf, if_neg (by simp)]
      rfl

theorem parallel_evar (h : ∀ s, Parallel base D w o o' r (text s) (text' s))
    (ht : t.Like (AsFar w o o') t') :
    Parallel base D w o o' r (evar text t) (evar text' t') := by
  obtain ⟨q, b, x⟩ := t
  obtain ⟨rfl, rfl, hp⟩ := ht
  refine .andThen (beside_newMark lawful_footing) fun mark mark' hm => ?_
  refine .next (beside_plainName lawful_footing hp) fun name => .looks fun s s' _ hs => ?_
  have hsc : s.scope = s'.scope := hs.scope
  dsimp only
  rw [← hsc]
  split
  · exact fun _ _ hs => .error (hs.2.undone rfl)
  · refine .next (beside_add lawful_footing kept_alike (fun _ _ h => ⟨h, trivial⟩) hm.1 fun _ _ =>
      trivial) fun _ => ?_
    refine .next (parallel_changes fun _ _ hs => { hs with }) fun _ => ?_
    split
    · exact parallel_changes fun _ _ hs => { hs with }
    · next value _ =>
      refine .next (simulates_undoing (h value) fun _ _ _ _ hs => ⟨hs.1, { hs.2.1 with }, hs.2.2⟩)
        fun _ => ?_
      exact parallel_changes fun _ _ hs => { hs with }

theorem parallel_command (hauto : r.auto = {}) (hD : Levels D)
    (h : ∀ D, Levels D → ∀ w o o' s, Parallel base D w o o' r (text s) (text' s))
    (ht : c.standsAlone = true ∨ t.Like (AsFar w o o') t') :
    Beside (base.terms D w o o') (fun b b' => b.Alike base.items b' ∧ c.allowedIn b.block = true)
      (Builder.Alike base.items) Eq r (command text c t) (command text' c t') := by
  by_cases he : c = .evar
  · subst he
    exact (parallel_evar (h D hD w o o') (ht.resolve_left (by rintro ⟨⟩))).pre fun _ _ hb => hb.1
  · by_cases hf : c = .includeNow
    · subst hf
      exact (parallel_includeNow hauto hD (h _ hD.lower w o o')
        (ht.resolve_left (by rintro ⟨⟩))).pre fun _ _ hb => hb.1
    · exact beside_command lawful_footing kept_alike trivial he hf ht

end Commands

/-- How two readings of a text stop inside of a command: the readers are then put back to where they
were before the text, unless it was at fault. -/
def PutBack (base : Footing) (D : Nat → Nat → Prop) (before before' : Reading) (e : Stop)
    (s : ParseState) (e' : Stop) (s' : ParseState) : Prop :=
  e.kind? = e'.kind? ∧ s.Rough base D s' ∧
    (e.kind? ≠ some .parse → s.whereabouts.reading = before ∧ s'.whereabouts.reading = before')

theorem length_command_read? {s arg c} (h : Command.read? s = some (c, arg)) :
    arg.length ≤ s.length := by
  obtain ⟨⟨c', word⟩, -, hf⟩ := exists_of_findSome?_eq_some h
  dsimp only at hf
  split at hf
  · cases hf
    exact (drop_suffix _ _).length_le
  · cases hf

/-- The arguments of a command are alike if they are behind both readers, or if the same text
follows both. -/
theorem tail_like {n arg rest rest'} (harg : arg.length ≤ n) (ho : n + 2 ≤ o) (ho' : n + 2 ≤ o')
    (hb : arg = [] → rest = rest' ∧ ¬ w) :
    (tail o rest arg).Like (AsFar w o o') (tail o' rest' arg) := by
  have hc : closing.length = 2 := rfl
  cases arg with
  | nil =>
    obtain ⟨rfl, hw⟩ := hb rfl
    refine ⟨rfl, rfl, ?_, fun h => absurd h hw⟩
    dsimp only [tail]
    omega
  | cons b arg =>
    rw [length_cons] at harg
    refine ⟨rfl, rfl, ?_, fun _ => ?_⟩
    · dsimp only [tail]
      omega
    · dsimp only [tail]
      omega

section Pieces

variable {text text' : Bytes → Parse Unit} (hauto : r.auto = {}) (hD : Levels D)
  (h : ∀ D, Levels D → ∀ w o o' s, Parallel base D w o o' r (text s) (text' s))
  {before before' : Reading}

include hauto hD h

theorem simulates_inside {word rest rest'} (ho : word.length + 2 ≤ o) (ho' : word.length + 2 ≤ o')
    (hb : ∀ c, Command.read? word = some (c, []) → c.standsAlone = true ∨ rest = rest' ∧ ¬ w) :
    Simulates Stop.IsLimit (ParseState.Like base D w o o') (inside text before word rest r)
      (inside text' before' word rest' r) (fun _ s _ s' => s.Like base D w o o' s')
      (PutBack base D before before') := by
  unfold inside
  split
  · exact bothReturn fun _ _ hs => hs
  · cases hr : Command.read? word with
    | none => exact fun _ _ hs => .error ⟨rfl, hs.toRough, fun hp => absurd rfl hp⟩
    | some found =>
      obtain ⟨c, arg⟩ := found
      refine bothLook fun s s' hs => ?_
      rw [hs.builder.block_eq, hs.reading.offset, hs.reading.offset']
      have hl : c.standsAlone = true ∨
          (tail o rest arg).Like (AsFar w o o') (tail o' rest' arg) := by
        by_cases ha : c.standsAlone = true
        · exact .inl ha
        · refine .inr (tail_like (length_command_read? hr) ho ho' fun harg => ?_)
          rw [harg] at hr
          exact (hb c hr).resolve_left ha
      split
      · next hal =>
        have hc := (parallel_command hauto hD h hl).conseq (fun _ h => h) (O := fun t t' => t =
          s ∧ t' = s')
          (by rintro _ _ ⟨rfl, rfl⟩; exact ⟨⟨hs.builder, hs.builder.block_eq ▸ hal⟩, hs⟩)
          (fun _ _ _ _ h => h.2.2)
          fun _ _ _ _ h => h
        exact simulates_undoing hc fun _ _ _ _ hst => ⟨hst.1, { hst.2.1 with }, fun _ => ⟨rfl, rfl⟩⟩
      · rintro _ _ ⟨rfl, rfl⟩
        exact .error ⟨rfl, hs.toRough, fun hp => absurd rfl hp⟩

end Pieces

end Parse

/-- What a reader has left of a text that follows. -/
def Reading.left (p : Reading) (rest : Bytes) : Bytes :=
  match p.stop with
  | some stop => rest.take (stop - p.offset)
  | none => rest

/-- Readers that go on by the same number of bytes, or by any number where the whole text is left to
them. -/
theorem Reading.Like.advance {p p' : Reading} (h : p.Like w o o' p') {k k' : Nat}
    (hr : ∀ stop, p.stop = some stop → k = k' ∧ o + k ≤ stop) :
    Reading.Like w (o + k) (o' + k') { p with offset := o + k } { p' with offset := o' + k' } := by
  obtain ⟨left, hs, hs', hw⟩ := h.stop
  cases left with
  | none => exact ⟨rfl, rfl, none, hs, hs', hw⟩
  | some n =>
    obtain ⟨rfl, hle⟩ := hr (o + n) hs
    refine ⟨rfl, rfl, some (n - k), ?_, ?_, fun hwh => absurd (hw hwh) (by simp)⟩
    · rw [hs, Option.map_some, Option.map_some, Option.some.injEq]
      omega
    · rw [hs', Option.map_some, Option.map_some, Option.some.injEq]
      omega

theorem Reading.Like.left {p p' : Reading} (h : p.Like w o o' p') (rest : Bytes) :
    p'.left rest = p.left rest ∧ (∀ stop, p.stop = some stop → o + (p.left rest).length ≤ stop) ∧
      (w → p.left rest = rest) := by
  obtain ⟨left, hs, hs', hw⟩ := h.stop
  unfold Reading.left
  rw [hs, hs', h.offset, h.offset']
  cases left with
  | none =>
    refine ⟨rfl, fun stop hso => ?_, fun _ => rfl⟩
    cases hso
  | some n =>
    simp only [Option.map_some, Nat.add_sub_cancel_left, Option.some.injEq]
    refine ⟨trivial, ?_, fun hwh => absurd (hw hwh) (Option.some_ne_none n)⟩
    rintro _ rfl
    exact Nat.add_le_add_left (length_take_le _ _) o

def ParseState.adding (s : ParseState) (text : Bytes) : ParseState :=
  { s with builder := s.builder.add {} (.literal (some text)) }

theorem ParseState.Like.addBlank {base : Footing} {D : Nat → Nat → Prop} {s s' : ParseState}
    (h : s.Like base D w o o' s') : s.Like base D w o o' (s'.adding []) :=
  { h with builder := h.builder.addBlank rfl }

namespace Parse

variable {base : Footing} {D : Nat → Nat → Prop} {w : Prop} {o o' : Nat} {r : ParserSettings}
  {text text' : Bytes → Parse Unit} {before before' : Reading}

variable {fuel : Nat} {s : Bytes}

/-- Reads one command with the text in front of it. -/
def piece (text : Bytes → Parse Unit) (before : Reading) (c : Stretch) : Parse Unit := do
  literal c.front
  let p := (← get).whereabouts.reading
  if Bytes.contains opening c.word then faultAt (p.offset + c.front.length) (.missingEnd c.word)
  else
    setReading { p with offset := p.offset + c.front.length + c.size }
    inside text before c.word c.rest

theorem pieces_first {c} (h : Stretch.first? r.tag s = some c) :
    pieces text before (fuel + 1) s r = ((do
        piece text before c
        let s ← get
        pieces text before fuel (s.whereabouts.reading.left c.rest)) : Parse Unit) r := by
  obtain ⟨⟨front, behind⟩, hn, hf⟩ := Option.bind_eq_some_iff.mp h
  obtain ⟨k, hk, rfl⟩ := Option.map_eq_some_iff.mp hf
  generalize hgo : pieces text before fuel = go
  rw [pieces, hgo, Program.read_bind, hn]
  simp only [piece, bind_assoc]
  rw [hk]
  dsimp only
  split
  · rfl
  · simp only [Nat.add_assoc]
    rfl

theorem pieces_last (h : nextCommand? r.tag s = none) :
    pieces text before (fuel + 1) s r = literal s r := by
  rw [pieces, Program.read_bind, h]

theorem simulates_literal (hauto : r.auto = {}) (q front : Bytes) (P : Reading → Prop)
    (E : Stop → ParseState → Stop → ParseState → Prop) :
    Simulates Stop.IsLimit (fun s s' => s.Like base D w o o' (s'.adding q) ∧
      P s.whereabouts.reading) (literal front r)
      (literal (q ++ front) r) (fun _ s _ s' => s.Like base D w o o' s' ∧
        P s.whereabouts.reading) E := by
  rintro s s' ⟨hs, hP⟩
  obtain ⟨mark, position, hrun, hm⟩ := literal_run (r := r) front s
  obtain ⟨mark', position', hr', hm'⟩ := literal_run (r := r) (q ++ front) s'
  rw [hrun, hr']
  refine .ok ⟨{ hs with builder := ?_ }, hP⟩
  rw [hauto] at hm hm'
  have hp : mark.autoEscape = false := congrArg Mark.autoEscape hm
  have hp' : mark'.autoEscape = false := congrArg Mark.autoEscape hm'
  exact hs.builder.lengthen hp rfl hp' front

section Pieces

variable (hauto : r.auto = {}) (hD : Levels D)
  (h : ∀ D, Levels D → ∀ w o o' s, Parallel base D w o o' r (text s) (text' s))

include hauto hD h

theorem simulates_piece (o o' : Nat) (c c' : Stretch) {q} (hf : c'.front = q ++ c.front)
    (hsi : c'.size = c.size) (hw : c'.word = c.word) (hro : c.word.length + 2 ≤ c.size)
    (hre : c.readsOn = true → c.rest = c'.rest ∧ ¬ w) : Simulates Stop.IsLimit
      (fun s s' => s.Like base D w o o' (s'.adding q) ∧
        ∀ stop, s.whereabouts.reading.stop = some stop →
          q = [] ∧ o + c.front.length + c.size ≤ stop)
      (piece text before c r) (piece text' before' c' r)
      (fun _ s _ s' => s.Like base D w (o + c.front.length + c.size) (o' +
        c'.front.length + c.size) s')
      (PutBack base D before before') := by
  unfold piece
  rw [hf, hsi, hw]
  refine bothThen (simulates_literal hauto q c.front
    (fun p => ∀ stop, p.stop = some stop → q = [] ∧ o + c.front.length + c.size ≤ stop) _)
      fun _ _ => ?_
  refine bothLook fun s s' hs => ?_
  obtain ⟨hs, hst⟩ := hs
  split
  · rintro _ _ ⟨rfl, rfl⟩
    exact .error ⟨rfl, hs.toRough, fun hp => absurd rfl hp⟩
  · have hr : Reading.Like w (o + c.front.length + c.size) (o' + (q ++ c.front).length + c.size)
        { s.whereabouts.reading with offset := s.whereabouts.reading.offset +
          c.front.length + c.size }
        { s'.whereabouts.reading with offset := s'.whereabouts.reading.offset +
          (q ++ c.front).length + c.size } := by
      rw [hs.reading.offset, hs.reading.offset', Nat.add_assoc o, Nat.add_assoc o']
      refine hs.reading.advance fun stop hso => ?_
      obtain ⟨rfl, hle⟩ := hst stop hso
      exact ⟨rfl, by omega⟩
    refine bothThen (Q := fun _ s _ s' =>
      s.Like base D w (o + c.front.length + c.size) (o' + (q ++ c.front).length + c.size) s') ?_
        fun _ _ => ?_
    · refine bothChange ?_
      rintro _ _ ⟨rfl, rfl⟩
      exact { hs with reading := hr }
    · refine simulates_inside hauto hD h (by omega) (by omega) fun command hrea => ?_
      by_cases ha : command.standsAlone = true
      · exact .inl ha
      · refine .inr (hre ?_)
        simp [Stretch.readsOn, hrea, ha]

theorem simulates_pieces {fuel fuel' q t} (hq : Clear r.tag q t) (hf : t.length < fuel)
    (hf' : (q ++ t).length < fuel') :
    Simulates Stop.IsLimit (fun s s' => s.Like base D False o o' (s'.adding q) ∧
        ∀ stop, s.whereabouts.reading.stop = some stop → q = [] ∧ o + t.length ≤ stop)
      (pieces text before fuel t r) (pieces text' before' fuel' (q ++ t) r)
      (fun _ s _ s' => s.Rough base D s') (PutBack base D before before') := by
  induction fuel generalizing fuel' q t o o' with
  | zero => omega
  | succ fuel ih =>
    obtain ⟨fuel', rfl⟩ : ∃ n, fuel' = n + 1 := ⟨fuel' - 1, by omega⟩
    have hn := hq
    rw [Clear] at hn
    cases hco : nextCommand? r.tag t with
    | none =>
      rw [hco] at hn
      rw [pieces_last hco, pieces_last hn]
      refine (simulates_literal hauto q t (fun p => ∀ stop, p.stop = some stop → q = [] ∧
        o + t.length ≤ stop) _).conseq (fun _ h => h) (fun _ _ h => h) ?_ fun _ _ _ _ h => h
      exact fun _ _ _ _ hs => hs.1.toRough
    | some found =>
      obtain ⟨front, behind⟩ := found
      cases hcl : Bytes.find? closing behind.stripLeft with
      | none =>
        simp only [hco, Option.map_some] at hn
        rw [pieces, pieces, Program.read_bind, Program.read_bind, hco, hn]
        simp only [hcl]
        refine bothThen (simulates_literal hauto q front
          (fun p => ∀ stop, p.stop = some stop → q = [] ∧ o + t.length ≤ stop) _) fun _ _ => ?_
        exact fun _ _ hs => .error ⟨rfl, hs.1.toRough, fun hp => absurd rfl hp⟩
      | some k =>
        obtain ⟨c, hc⟩ : ∃ c, Stretch.first? r.tag t = some c := by
          rw [Stretch.first?, hco]
          simp only [Option.bind_some, hcl]
          exact ⟨_, rfl⟩
        have hc' := hq.first?
        rw [hc] at hc'
        obtain ⟨hl, hr⟩ := Stretch.first?_eq hc
        rw [pieces_first hc, pieces_first hc']
        refine bothThen (Simulates.pre (simulates_piece (w := False) hauto hD h o o' c
          { c with front := q ++ c.front } rfl rfl rfl hr fun _ => ⟨rfl, id⟩) ?_) fun _ _ => ?_
        · rintro s s' ⟨hs, hst⟩
          refine ⟨hs, fun stop hso => ?_⟩
          obtain ⟨he, hle⟩ := hst stop hso
          exact ⟨he, by omega⟩
        · refine bothLook fun s s' hs => ?_
          obtain ⟨hlef, hst, -⟩ := hs.reading.left c.rest
          rw [hlef]
          have hsh : (s.whereabouts.reading.left c.rest).length ≤ c.rest.length := by
            unfold Reading.left
            split
            · exact length_take_le' _ _
            · exact Nat.le_refl _
          rw [length_append] at hf'
          rintro _ _ ⟨rfl, rfl⟩
          exact ih (.nil _ _) (by omega) (by rw [nil_append]; omega) _ _
            ⟨hs.addBlank, fun stop hso => ⟨rfl, hst stop hso⟩⟩

end Pieces

/-- More fuel changes nothing in what a reader does with a text. -/
theorem parallel_text (hauto : r.auto = {}) {n n'} (hn : n ≤ n') (D : Nat → Nat → Prop)
    (hD : Levels D)
    (w : Prop) (o o' : Nat) (s : Bytes) :
    Parallel base D w o o' r (Parse.text n s) (Parse.text n' s) := by
  induction n generalizing n' D w o o' s with
  | zero => exact firstStops (.inl rfl)
  | succ n ih =>
    obtain ⟨n', rfl⟩ : ∃ k, n' = k + 1 := ⟨n' - 1, by omega⟩
    rintro start start' ⟨-, hs⟩
    rw [text_eq, text_eq]
    have hne : ∀ D, Levels D → ∀ w o o' s,
        Parallel base D w o o' r (Parse.text n s) (Parse.text n' s) :=
      fun D hD w o o' s => ih (by omega) D hD w o o' s
    refine bothThen (Q := fun _ s _ s' => s.Rough base D s') (P := fun t t' => t = begun start s ∧
      t' = begun start' s) ?_
      (fun _ _ => ?_) _ _ ⟨rfl, rfl⟩
    · have hb : (begun start s).Like base D False 0 0 (begun start' s) :=
        { hs with reading := ⟨rfl, rfl, none, rfl, rfl, fun _ => rfl⟩ }
      rintro _ _ ⟨rfl, rfl⟩
      refine Tracks.imp (simulates_pieces hauto hD hne (.nil r.tag s) (Nat.lt_succ_self _)
        (Nat.lt_succ_self _) _ _
        ⟨hb.addBlank, by rintro _ ⟨⟩⟩) (fun _ h => h) (fun _ _ _ _ h => h) ?_
      rintro e t e' t' ⟨hk, hro, hba⟩
      refine ⟨hk, hro, fun hp => ?_⟩
      obtain ⟨hr, hr'⟩ := hba hp
      rw [hr, hr']
      exact hs.reading
    · intro t t' ht
      have hop := ht.builder.length_eq
      have ho := hs.builder.length_eq
      rcases conclude_run (r := r) start t with ⟨hle, hrun⟩ | ⟨hm, f, hrun, hf⟩
      · rw [hrun, conclude_of_le (by omega)]
        exact .ok ⟨rfl, ParseState.Like.holds { ht with reading := hs.reading }⟩
      · obtain ⟨f', hru', hf'⟩ := conclude_of_lt (r := r) (s := start') (t := t') (by omega)
        rw [hrun, hru']
        exact .error ⟨congrArg some (hf.trans hf'.symm), ht, fun hp => absurd (congrArg some hf) hp⟩

end Parse

end TemplateKit
