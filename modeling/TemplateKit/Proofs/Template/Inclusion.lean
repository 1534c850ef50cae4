import TemplateKit.Proofs.Template.Passage

/-!
# Including is putting in

A command that includes a text does what the text does in its place, if the text leaves no more
blocks open than it found and nothing grows together where the texts meet.
-/

namespace TemplateKit

open Program List Directive Bytes Option Builtin Command

theorem Eval.lift_run {α : Type} {e : StateM Scope α} {scope scope' : Scope} {a : α}
    (h : e scope = (a, scope')) :
    (liftM e : Eval α).run scope = (.ok a, scope') := by
  have hl : (liftM e : Eval α).run scope = (.ok (e scope).1, (e scope).2) := rfl
  rw [hl, h]

namespace Parse

variable {α β : Type} {base : Footing} {D : Nat → Nat → Prop} {w : Prop} {o o' : Nat}
  {r : ParserSettings}

/-- A program that comes to an end with `Q` or stops at a limit. -/
def Reaches (r : ParserSettings) (m : Parse α) (s : ParseState) (Q : α → ParseState → Prop) :
    Prop :=
  (∃ a s', m r s = (.ok a, s') ∧ Q a s') ∨ ∃ e s', m r s = (.error e, s') ∧ e.IsLimit

namespace Reaches

variable {m : Parse α} {f : α → Parse β} {s s' : ParseState} {a : α} {Q : α → ParseState → Prop}
  {R : β → ParseState → Prop}

theorem andThen (hm : Reaches r m s Q) (hf : ∀ a s', Q a s' → Reaches r (f a) s' R) :
    Reaches r (m >>= f) s R := by
  rcases hm with ⟨a, s', hrun, hQ⟩ | ⟨e, s', hrun, hl⟩
  · unfold Reaches
    rw [bind_ok hrun]
    exact hf a s' hQ
  · exact .inr ⟨e, s', bind_error hrun f, hl⟩

theorem after (hrun : m r s = (.ok a, s')) (hf : Reaches r (f a) s' R) :
    Reaches r (m >>= f) s R := by
  unfold Reaches
  rw [bind_ok hrun]
  exact hf

theorem of_eq {m' t} (h : m r s = m' r t) (hm : Reaches r m' t Q) : Reaches r m s Q := by
  unfold Reaches
  rw [h]
  exact hm

theorem post {Q'} (h : Reaches r m s Q) (hQ : ∀ a s', Q a s' → Q' a s') : Reaches r m s Q' := by
  rcases h with ⟨a, s', hrun, hs'⟩ | hl
  · exact .inl ⟨a, s', hrun, hQ a s' hs'⟩
  · exact .inr hl

/-- The second of two programs has a result, so the first one has, unless it stops at a limit. -/
theorem of_tracks {m' : Parse α} {Q : α → ParseState → α → ParseState → Prop}
    {E : Stop → ParseState → Stop → ParseState → Prop} {t : ParseState}
    (h : Tracks Stop.IsLimit Q E (m r s) (m' r t))
    (hrun : m' r t = (.ok a, s')) : Reaches r m s fun a₁ s₁ => Q a₁ s₁ a s' := by
  unfold Reaches
  rw [hrun] at h
  generalize m r s = last at h
  cases h with
  | ok h => exact .inl ⟨_, _, rfl, h⟩
  | limit h => exact .inr ⟨_, _, rfl, h⟩

end Reaches

/-- A text is read as its commands are carried out elsewhere, if they leave no more blocks open than
there were. -/
theorem text_reaches (hauto : r.auto = {}) (hD : Levels D) {n n'} (hn : n ≤ n' + 1) {x q}
    (hr : ∀ c ∈ (outline r.tag x).1, c.readsOn = false)
    (hla : nextCommand? r.tag (outline r.tag x).2 = none)
    {before' s s' s''} (hs : s.Rough base D (s'.adding q))
    (hsto : s'.whereabouts.reading.stop = none)
    (hrun : carry (Parse.text n') before' (prepend q (outline r.tag x).1) r s' = (.ok (), s''))
    (ho : s''.builder.frames.length ≤ s'.builder.frames.length) :
    Reaches r (Parse.text n x) s fun _ s₁ =>
      s₁.Rough base D (s''.adding (pending q (outline r.tag x).1 ++ (outline r.tag x).2)) ∧
        s₁.whereabouts.reading = s.whereabouts.reading := by
  cases n with
  | zero => exact .inr ⟨_, _, rfl, .inl rfl⟩
  | succ n =>
    have hst : (begun s x).Like base D True 0 s'.whereabouts.reading.offset (s'.adding q) :=
      { hs with reading := ⟨rfl, rfl, none, rfl, hsto, fun _ => rfl⟩ }
    obtain ⟨k, hk, heq⟩ := pieces_front hauto s.whereabouts.reading n (t := []) hr
      (Nat.lt_succ_self _) (s := begun s x) rfl
    rw [append_nil, append_nil] at heq
    obtain _ | k := k
    · omega
    refine .of_eq (text_eq n x s)
      (.andThen (Q := fun _ t => t.Rough base D (s''.adding (pending q (outline r.tag x).1 ++
      (outline r.tag x).2))) (.of_eq heq (.andThen (.of_tracks (simulates_carry hauto
      (Nat.le_of_succ_le_succ hn) _ _ hD (settled_outline hr) _ _ q _ s' hst) hrun) ?_))
        fun _ t ht => ?_)
    · rintro _ t ⟨j, j', ht⟩
      refine .of_eq (congrFun (pieces_last hla) t) ?_
      obtain ⟨mark, position, hl, hm⟩ := literal_run (r := r) (outline r.tag x).2 t
      rw [hauto] at hm
      have hp : mark.autoEscape = false := congrArg Mark.autoEscape hm
      exact .inl ⟨_, _, hl, { ht with builder := ht.builder.lengthen hp rfl rfl _ }⟩
    · have hle : t.builder.frames.length ≤ s.builder.frames.length := by
        rw [ht.builder.length_eq, hs.builder.length_eq]
        exact ho
      exact .inl ⟨_, _, conclude_of_le hle, { ht with }, rfl⟩

end Parse

/-- States that only messages can tell apart. -/
structure ParseState.Same (s s' : ParseState) : Prop where
  builder : s'.builder = s.builder
  macros : s'.macros = s.macros
  scope : s'.scope = s.scope
  logName : s'.logName = s.logName
  depth : s'.depth = s.depth
  reading : s'.whereabouts.reading = s.whereabouts.reading

theorem ParseState.Same.rough {base : Footing} {D : Nat → Nat → Prop} {s s' t : ParseState}
    (h : s.Same s') (hs : s.Rough base D t) : s'.Rough base D t :=
  ⟨h.builder ▸ hs.builder, h.macros.trans hs.macros, h.scope.trans hs.scope,
    h.logName.trans hs.logName, hs.logName',
    h.depth ▸ hs.depth⟩

/-- The state when a part of the text was used up to some places. -/
def ParseState.spent (s : ParseState) (base : Nat) (part : Bytes) (places : List Nat) :
    ParseState :=
  { s with whereabouts :=
    { s.whereabouts with reading := s.whereabouts.reading.use base part places } }

/-- What a command includes: a file, or the value of a variable. -/
inductive Included where
  | file (path : Bytes) (required : Bool)
  | value (text : Bytes)
deriving DecidableEq

/-- The text that is included, if it can be found. -/
def Included.text? (source : Source) (scope : Scope) : Included → Option Bytes
  | file path _ => (Parse.load source scope path).toOption.map (·.2)
  | value text => some text

/-- It is read, or it may be missing and something could not be found. -/
def Included.Passes (i : Included) (result : Except Stop Unit) : Prop :=
  result = .ok () ∨ ∃ path f, i = .file path false ∧ result = .error (.failure f) ∧
    f.kind = .notFound

theorem Stop.IsLimit.not_passes {e : Stop} (h : e.IsLimit) (i : Included) :
    ¬i.Passes (.error e) := by
  rintro (hok | ⟨_, f, -, ⟨⟩, hm⟩)
  · cases hok
  · rcases h with h | h
    · cases h
    · cases hm.symm.trans (Option.some.inj h)

namespace Parse

variable {α : Type} {r : ParserSettings} {text : Bytes → Parse Unit} {s : ParseState} {x : Bytes}
  {Q : ParseState → Prop}
variable {path arg word : Bytes} {b m : Nat} {e : Expr} {ends : List Nat} {t : Directive.Tail}
  {scope : Scope}

/-- Reading a file is reading its content, where files are neither marked nor noted. -/
theorem file_reaches (hmarks : r.marksFiles = false) (hauto : r.auto = {}) {context}
    (hl : load r.source s.scope path = .ok (context, x))
    (ht : ∀ s₁, s.Same s₁ → Reaches r (text x) s₁ fun _ s₂ => Q s₂) :
    Reaches r (file text (some path)) s fun _ s₃ => ∃ s₂, Q s₂ ∧
      ParseState.Same { s₂ with logName := s.logName } s₃ := by
  refine .after (a := r) rfl (.after (a := s) rfl ?_)
  rw [hl]
  refine .after (a := ()) rfl ?_
  simp only [hmarks, hauto]
  refine .after rfl ?_
  by_cases hau : r.audits = true
  · simp only [hau]
    refine .after (a := ()) rfl (.andThen (ht _ ⟨rfl, rfl, rfl, rfl, rfl, rfl⟩) fun _ s₂ hs₂ => ?_)
    exact .after (a := ()) rfl (.inl ⟨(), _, rfl, s₂, hs₂, ⟨rfl, rfl, rfl, rfl, rfl, rfl⟩⟩)
  · simp only [hau]
    refine .andThen (ht _ ⟨rfl, rfl, rfl, rfl, rfl, rfl⟩) fun _ s₂ hs₂ => ?_
    exact .inl ⟨(), _, rfl, s₂, hs₂, ⟨rfl, rfl, rfl, rfl, rfl, rfl⟩⟩

theorem expression_run {assignable
    t} (h : (Expr.parse r.functions assignable t).run.run [] = (.ok e, ends)) :
    expression assignable b t r s = (.ok (e, ends), s.spent b t ends) := by
  unfold expression
  rw [Program.read_bind, h]
  rfl

theorem argument_run {t} (s : ParseState)
    (h : (Expr.parse r.functions false t).run.run [] = (.ok e, ends)) :
    argument false b t r s = (.ok ⟨e, if r.keepsSources then some t else none⟩, s.spent b t ends) :=
  (bind_ok (expression_run h) _).trans rfl

theorem eval_run {e : Eval α} {a : α} (h : e.run s.scope = (.ok a, s.scope)) :
    eval e r s = (.ok a, s) := by
  unfold eval
  rw [Program.get_bind, h]
  rfl

/-- The text `x` is the value of an argument, which is read up to the places `ends`. -/
def HasText (r : ParserSettings) (scope : Scope) (arg x : Bytes) (ends : List Nat) : Prop :=
  ∃ e v, (Expr.parse r.functions false arg).run.run [] = (.ok e, ends) ∧
    e.eval.run scope = (.ok v, scope) ∧
    properText v scope = (some x, scope)

theorem HasText.le (h : HasText r scope arg x ends) : ∀ k ∈ ends, k ≤ arg.length := by
  obtain ⟨_, _, hp, -⟩ := h
  exact places_le hp

/-- Reads the file for a command that includes it. -/
def includePath (text : Bytes → Parse Unit) (required : Bool) (path : Bytes) : Parse Unit :=
  tryCatch
    (do
      noting (some path) "." deeper
      noting (some path) " and parse it." (file text (some path))
      modify fun s => { s with depth := s.depth - 1 })
    fun
      | .failure f => if !required && f.isA .notFound then pure () else fails f
      | .exhausted => throw .exhausted

theorem includeNow_eq (h : HasText r s.scope t.text path ends) :
    includeNow text t r s = includePath text t.required path r (s.spent t.base t.text ends) := by
  obtain ⟨e, v, hpa, hva, hpat⟩ := h
  have hv : eval e.eval r (s.spent t.base t.text ends) = _ := eval_run hva
  have hp : eval (liftM (properText v) : Eval (Option Bytes)) r (s.spent t.base t.text ends) = _ :=
    eval_run (Eval.lift_run hpat)
  refine (bind_ok (expression_run hpa) _).trans ((bind_ok hv _).trans ((bind_ok hp _).trans ?_))
  rfl

theorem noting_error {m e s'} (h : m r s = (.error e, s')) (path : Option Bytes) (what : Bytes) :
    ∃ e', noting path what m r s = (.error e', s') ∧ e.kind? = e'.kind? := by
  cases e <;> exact ⟨_, catch_error h _, rfl⟩

theorem includePath_run (text : Bytes → Parse Unit) (required : Bool) (path : Bytes)
    (s : ParseState) :
    (∃ e, includePath text required path r s = (.error e, s) ∧ e.IsLimit) ∨
      ∃ result s₁, file text (some path) r { s with depth := s.depth + 1 } = (result, s₁) ∧
        ((Included.file path required).Passes result ∧ includePath text required path r s =
            (.ok (), { s₁ with depth := s₁.depth - if result.toBool then 1 else 0 }) ∨
          ¬(Included.file path required).Passes result ∧
            ∃ e e', result = .error e ∧ includePath text required path r s = (.error e', s₁) ∧
              e.kind? = e'.kind?) := by
  by_cases hde : s.depth ≥ deepestNesting
  · have hd : deeper r s =
        (.error (.failure (.raise .maxRecursion "Stack depth too large.")), s) := by
      unfold deeper
      rw [Program.get_bind, if_pos hde]
      rfl
    obtain ⟨_ | _, hn, hk⟩ := noting_error hd (some path) "."
    · next f =>
      have hf : .maxRecursion = f.kind := some.inj hk
      refine .inl ⟨.failure f, (catch_error (bind_error hn _) _).trans ?_, .inr hk.symm⟩
      dsimp only
      rw [isA_notFound, ← hf, if_neg (by simp)]
      rfl
    · cases hk
  · have hd : noting (some path) "." deeper r s = (.ok (), { s with depth := s.depth + 1 }) := by
      refine catch_ok ?_ _
      unfold deeper
      rw [Program.get_bind, if_neg hde]
      rfl
    have hs := bind_ok hd fun _ : Unit =>
      noting (some path) " and parse it." (file text (some path)) >>= fun _ : Unit =>
        (modify fun s => { s with depth := s.depth - 1 } : Parse Unit)
    cases hfi : file text (some path) r { s with depth := s.depth + 1 } with
    | mk result s₁ =>
      refine .inr ⟨result, s₁, rfl, ?_⟩
      cases result with
      | ok _ => exact .inl ⟨.inl rfl, catch_ok (hs.trans (bind_ok (catch_ok hfi _) _)) _⟩
      | error e =>
        obtain ⟨e', hn, hk⟩ := noting_error hfi (some path) " and parse it."
        have hc := fun h => catch_error (hs.trans (bind_error hn _)) h
        rcases e with f | _ <;> rcases e' with f' | _
        · have hf : f.kind = f'.kind := some.inj hk
          by_cases hp : required = false ∧ f.kind = .notFound
          · obtain ⟨rfl, hm⟩ := hp
            refine .inl ⟨.inr ⟨path, f, rfl, rfl, hm⟩, (hc _).trans ?_⟩
            dsimp only
            rw [isA_notFound, ← hf, if_pos (by simp [hm])]
            rfl
          · refine .inr ⟨?_, _, .failure f', rfl, (hc _).trans ?_, hk⟩
            · rintro (hok | ⟨_, _, ⟨⟩, ⟨⟩, hm⟩)
              · cases hok
              · exact hp ⟨rfl, hm⟩
            · dsimp only
              rw [isA_notFound, ← hf, if_neg (by simpa using hp)]
              rfl
        · cases hk
        · cases hk
        · refine .inr ⟨?_, _, .exhausted, rfl, hc _, rfl⟩
          rintro (hok | ⟨_, _, -, hfa, -⟩)
          · cases hok
          · cases hfa

theorem plainName_run (hn : List.find? notInName t.text.strip = none) (s : ParseState) :
    plainName t r s = (.ok t.text.strip, s.spent t.base t.text (trailing t.text)) := by
  unfold plainName
  dsimp only
  rw [hn]
  rfl

theorem evar_run (text : Bytes → Parse Unit) (hn : List.find? notInName t.text.strip = none)
    (hv : (s.scope.data.value? t.text.strip).or (s.scope.globals.bind (·.value? t.text.strip)) =
      some x) :
    ∃ mark s₀, ParseState.Same { s.spent t.base t.text (trailing t.text) with
        builder := s.builder.add mark (.evar t.text.strip) } s₀ ∧
      ∀ result s₁, text x r s₀ = (result, s₁) → ∃ s₂, evar text t r s = (result, s₂) ∧
        s₁.Same s₂ := by
  obtain ⟨mark, position, hm, -⟩ := newMark_run (r := r) t.required false .undefined s
  refine ⟨mark, { s.spent t.base t.text (trailing t.text) with
    position, builder := s.builder.add mark (.evar t.text.strip)
    whereabouts := { s.whereabouts with
      reading := s.whereabouts.reading.use
        t.base t.text (trailing t.text), context := some t.text.strip, inFile := false } },
    ⟨rfl, rfl, rfl, rfl, rfl, rfl⟩, fun result s₁ ht => ?_⟩
  have hs : evar text t r s = _ :=
    (bind_ok hm _).trans ((bind_ok (plainName_run hn _) _).trans (Program.get_bind _ _ _))
  generalize hf : Option.or _ _ = found at hs
  obtain rfl : found = some x := hf.symm.trans hv
  rw [if_neg (by simp)] at hs
  have he := hs.trans ((modify_bind _ _ _ _).trans (modify_bind _ _ _ _))
  cases result with
  | ok _ => exact ⟨_, he.trans (bind_ok (catch_ok ht _) _), ⟨rfl, rfl, rfl, rfl, rfl, rfl⟩⟩
  | error e =>
    refine ⟨_, he.trans (bind_error (Eq.trans (catch_error ht _) (modify_bind _ _ _ _)) _), ?_⟩
    exact ⟨rfl, rfl, rfl, rfl, rfl, rfl⟩

/-- The text that an argument has for its value. -/
def argumentText? (r : ParserSettings) (scope : Scope) (arg : Bytes) : Option Bytes :=
  match (Expr.parse r.functions false arg).run.run [] with
  | (.ok e, _) =>
    match (do properText (← e.eval) : Eval (Option Bytes)).run scope with
    | (.ok text, _) => text
    | _ => none
  | _ => none

theorem keptByFinding_eq (hlocals : scope.locals = []) : Scope.KeptByFinding (· = scope) := by
  apply Scope.KeptByRebinding.finding
  rintro _ k p target seen rfl
  unfold Scope.rebind
  rw [hlocals, modify_nil, ← hlocals]

theorem eval_keeps (hlocals : scope.locals = []) (e : Expr) {x}
    (h : ((do properText (← e.eval) : Eval (Option Bytes)).run scope).1 = .ok (some x)) :
    ∃ v, e.eval.run scope = (.ok v, scope) ∧ properText v scope = (some x, scope) := by
  have hf := keptByFinding_eq hlocals
  have hk := (hf.eval e scope rfl).2
  have hb : (do properText (← e.eval) : Eval (Option Bytes)).run scope =
      (e.eval >>= fun v => (liftM (properText v) : Eval (Option Bytes))) scope := rfl
  rw [hb, bind_apply] at h
  cases hrun : e.eval scope with
  | mk result scope' =>
    rw [hrun] at h hk
    cases result with
    | error overflow => cases h
    | ok v =>
      obtain rfl : scope' = scope := hk
      exact ⟨v, hrun, Prod.ext (Except.ok.inj h) (hf.properText v scope' rfl)⟩

theorem argumentText?_eq_some (hlocals : scope.locals = []) {text}
    (h : argumentText? r scope arg = some text) :
    ∃ ends, HasText r scope arg text ends := by
  unfold argumentText? at h
  split at h
  · next e ends hp =>
    split at h
    · next found _ hf =>
      obtain ⟨v, hv, ht⟩ := eval_keeps hlocals e (x := text) (by rw [hf, h])
      exact ⟨ends, e, v, hp, hv, ht⟩
    · cases h
  · cases h

/-- What a command includes when it is read. -/
def included? (r : ParserSettings) (scope : Scope) (word : Bytes) : Option Included :=
  match read? word with
  | some (.includeNow, b :: arg) => (argumentText? r scope arg).map fun path =>
    .file path (b == '!')
  | some (.evar, _ :: arg) =>
    match List.find? notInName (strip arg) with
    | none => ((scope.data.value? (strip arg)).or (scope.globals.bind (·.value? (strip arg)))).map
        .value
    | some _ => none
  | _ => none

/-- What is known of a command that includes something. -/
theorem included?_cases (hlocals : scope.locals = []) {i} (h : included? r scope word = some i) :
    (∃ b arg path ends, read? word = some (.includeNow, b :: arg) ∧ i = .file path (b == '!') ∧
      HasText r scope arg path ends) ∨
    ∃ b arg x, read? word = some (.evar, b :: arg) ∧ i = .value x ∧
      List.find? notInName (strip arg) = none ∧
      (scope.data.value? (strip arg)).or (scope.globals.bind (·.value? (strip arg))) = some x := by
  unfold included? at h
  split at h
  · next b arg hr =>
    obtain ⟨path, ht, rfl⟩ := map_eq_some_iff.mp h
    obtain ⟨ends, har⟩ := argumentText?_eq_some hlocals ht
    exact .inl ⟨b, arg, path, ends, hr, rfl, har⟩
  · next b arg hr =>
    split at h
    · next hn =>
      obtain ⟨x, hv, rfl⟩ := map_eq_some_iff.mp h
      exact .inr ⟨b, arg, x, hr, rfl, hn, hv⟩
    · cases h
  · cases h

theorem load_of_text? {source required}
    (h : (Included.file path required).text? source scope = some x) :
    ∃ context, load source scope path = .ok (context, x) := by
  obtain ⟨⟨context, content⟩, hl, rfl⟩ := map_eq_some_iff.mp h
  refine ⟨context, ?_⟩
  cases hf : load source scope path with
  | ok found =>
    rw [hf] at hl
    cases hl
    rfl
  | error f =>
    rw [hf] at hl
    cases hl

/-- Where the argument of a command is used, all that follows the command is left. -/
theorem stop_spent {c b} (hr : read? word = some (c, b :: arg))
    (hro : word.length + 2 ≤ s.whereabouts.reading.offset) (hs : s.whereabouts.reading.stop = none)
    {places} (hp : ∀ k ∈ places, k ≤ arg.length) (rest : Bytes) :
    (s.spent (tail s.whereabouts.reading.offset rest (b :: arg)).base arg
      places).whereabouts.reading.stop = none := by
  have harg := length_command_read? hr
  have hc : closing.length = 2 := rfl
  rw [length_cons] at harg
  have hl : s.whereabouts.reading.Like True _ _ s.whereabouts.reading :=
    ⟨rfl, rfl, none, hs, hs, fun _ => rfl⟩
  have hu : ∀ k ∈ places, (tail s.whereabouts.reading.offset rest (b :: arg)).base + k <
      s.whereabouts.reading.offset := by
    intro k hk
    have hle := hp k hk
    dsimp only [tail]
    omega
  obtain ⟨left, hlef, -, hn⟩ := (hl.use rfl arg fun _ => hu).stop
  rw [ParseState.spent, hlef, hn trivial]
  rfl

theorem levels_add (d : Nat) : Levels fun k k' => k = k' + d where
  le h := by omega
  succ h _ := by omega

theorem inside_eq {c} (hr : read? word = some (c, arg))
    (hal : c.allowedIn s.builder.block = true) (before : Reading) (rest : Bytes) :
    inside text before word rest r s =
      orRestore before (command text c (tail s.whereabouts.reading.offset rest arg)) r s := by
  have hc : word.head? ≠ some '#'.toUInt8 := by
    intro hh
    cases word with
    | nil => cases hh
    | cons b word =>
      obtain rfl : b = '#' := some.inj hh
      cases hr
  unfold inside
  rw [if_neg hc, hr]
  dsimp only
  rw [Program.get_bind, if_pos hal]

theorem inside_reaches {P c}
    (hr : read? word = some (c, arg)) (hal : c.allowedIn s.builder.block = true)
    {rest} (h : Reaches r (command text c (tail s.whereabouts.reading.offset rest arg)) s P)
    (before : Reading) : Reaches r (inside text before word rest) s P := by
  refine .of_eq (inside_eq hr hal before rest) ?_
  rcases h with ⟨a, s', hrun, hQ⟩ | ⟨e, s', hrun, hl⟩
  · exact .inl ⟨a, s', catch_ok hrun _, hQ⟩
  · exact .inr ⟨e, _, catch_error hrun _, hl⟩

section Included

variable {base : Footing} {t t' : ParseState} {word : Bytes} {i : Included}

/-- A command that includes a text comes back with what the text has built. -/
theorem included_reaches (hmarks : r.marksFiles = false) (hauto : r.auto = {})
    (hlocals : s.scope.locals = [])
    (hincluded : included? r s.scope word = some i) (hx : i.text? r.source s.scope = some x)
    (hro : word.length + 2 ≤ s.whereabouts.reading.offset)
    (hst : s.whereabouts.reading.stop = none) (hs : s.Rough base Eq t)
    (ht : ∀ d s₁, s₁.Rough base (fun k k' => k = k' + d) t → Reaches r (text x) s₁ fun _ s₂ =>
      s₂.Rough base (fun k k' => k = k' + d) t' ∧ s₂.whereabouts.reading = s₁.whereabouts.reading)
    (before : Reading) (rest : Bytes) : Reaches r (inside text before word rest) s fun _ s₃ =>
      s₃.Rough base Eq t' ∧ s₃.whereabouts.reading.stop = none := by
  rcases included?_cases hlocals hincluded with ⟨b, arg, path, ends, hre, rfl, hpa⟩ |
    ⟨b, arg, _, hre, rfl, hn, hv⟩
  · obtain ⟨context, hlo⟩ := load_of_text? hx
    refine inside_reaches hre rfl (.of_eq (includeNow_eq hpa) ?_) before
    rcases includePath_run text _ path (s.spent _ _ _) with ⟨e, hen, hl⟩ | ⟨result, s₁, hf, hen⟩
    · exact .inr ⟨e, _, hen, hl⟩
    have hr₁ := file_reaches hmarks hauto hlo
      (s := { s.spent (tail s.whereabouts.reading.offset rest (b :: arg)).base arg
        ends with depth := s.depth + 1 })
      (Q := fun s₂ => s₂.Rough base (fun k k' => k = k' + 1) t' ∧
        s₂.whereabouts.reading.stop = none) fun s₁ hsa =>
        show Reaches r (text _) s₁ _ by
        refine (ht 1 s₁ (hsa.rough { hs with depth := congrArg (· + 1) hs.depth })).post
          fun _ s₂ hs₂ => ⟨hs₂.1, ?_⟩
        rw [hs₂.2, hsa.reading]
        exact stop_spent hre hro hst hpa.le rest
    rcases hr₁ with ⟨_, s₃, hok, s₂, ⟨hs₂, hst₂⟩, hsa⟩ | ⟨e, _, he, hl⟩
    · cases hf.symm.trans hok
      rcases hen with ⟨-, hen⟩ | ⟨hp, -⟩
      · have hr := hsa.rough (D := fun k k' => k = k' + 1) { hs₂ with logName := hs.logName }
        refine .inl ⟨(), _, hen, { hr with depth := congrArg (· - 1) hr.depth }, ?_⟩
        exact (congrArg Reading.stop hsa.reading).trans hst₂
      · exact absurd (.inl rfl) hp
    · cases hf.symm.trans he
      rcases hen with ⟨hp, -⟩ | ⟨-, _, e', ⟨⟩, hen, hk⟩
      · exact absurd hp (hl.not_passes _)
      · exact .inr ⟨e', _, hen, hl.congr hk⟩
  · cases hx
    refine inside_reaches hre rfl ?_ before
    obtain ⟨mark, s₁, hsa, hen⟩ :=
      evar_run (t := tail s.whereabouts.reading.offset rest (b :: arg)) text hn hv
    rcases ht 0 s₁ (hsa.rough { hs with builder := hs.builder.addEvar mark _ }) with
      ⟨_, s₂, hok, hs₂, hreading⟩ | ⟨e, _, he, hl⟩
    · obtain ⟨s₃, hrun, hs'⟩ := hen _ _ hok
      refine .inl ⟨(), s₃, hrun, hs'.rough hs₂, ?_⟩
      rw [hs'.reading, hreading, hsa.reading]
      exact stop_spent hre hro hst (fun _ => mem_trailing) rest
    · obtain ⟨s₃, hrun, -⟩ := hen _ _ he
      exact .inr ⟨e, s₃, hrun, hl⟩

end Included

theorem begun_like (s : ParseState) (t t' : Bytes) :
    (begun s t).Like ⟨[], s.logName⟩ Eq True 0 0 (begun s t') :=
  { builder := .refl _, macros := rfl, scope := rfl, logName := rfl, logName' := rfl, depth := rfl
    reading := ⟨rfl, rfl, none, rfl, rfl, fun _ => rfl⟩ }

/-- The commands of a text are carried out in the same way at the front of two texts. -/
theorem simulates_carry_begun (hauto : r.auto = {}) (before before' : Reading) {a : Bytes}
    (ha : ∀ c ∈ (outline r.tag a).1, c.readsOn = false) (s : ParseState) (t t' : Bytes) :
    Tracks Stop.IsLimit (fun _ u _ u' => ∃ k k', u.Like ⟨[], s.logName⟩ Eq True k k' (u'.adding []))
      (PutBack ⟨[], s.logName⟩ Eq before before')
      (carry (Parse.text m) before (outline r.tag a).1 r (begun s t))
      (carry (Parse.text m) before' (outline r.tag a).1 r (begun s t')) := by
  have hc := simulates_carry hauto (Nat.le_refl m) before before' levels_eq
    (settled_outline ha) 0 0 [] _ _
    (begun_like s t t').addBlank
  rwa [prepend_nil, pending_nil] at hc

theorem settled_prepend {q cs} (h : Settled cs) : Settled (prepend q cs) := by
  cases cs with
  | nil => exact h
  | cons c cs =>
    obtain ⟨hc, hcs⟩ := forall_mem_cons.mp h
    exact forall_mem_cons.mpr ⟨hc, hcs⟩

theorem open_after (hauto : r.auto = {}) {a x whole} (ha : Apart r.tag a x) (hx : Apart r.tag x [])
    {before u u'}
    (hu : carry (Parse.text m) before (outline r.tag a).1 r (begun s whole) = (.ok (), u))
    (hu' : carry (Parse.text m) before (prepend (outline r.tag a).2 (outline r.tag x).1) r u =
      (.ok (), u')) :
    (Parse.text (m + 1) (a ++ x) r s).2.builder.frames.length = u'.builder.frames.length := by
  rw [← append_nil x] at ha
  obtain ⟨k, hk, heq⟩ :=
    pieces_two hauto s.whereabouts.reading m ha hx (Nat.lt_succ_self _) (s := begun s (a ++ x)) rfl
  rw [append_nil, append_nil] at heq
  obtain _ | k := k
  · omega
  have hf := simulates_carry_begun (m := m) hauto before s.whereabouts.reading ha.1 s whole (a ++ x)
  rw [hu] at hf
  obtain ⟨_, v, hv, j, j', hli⟩ := hf.of_ok
  have hs := simulates_carry hauto (Nat.le_refl m) before s.whereabouts.reading levels_eq
    (settled_prepend (q := (outline r.tag a).2) (settled_outline hx.1)) j j' [] _ _ hli
  rw [hu', prepend_nil] at hs
  obtain ⟨_, v', hv', _, _, hl'⟩ := hs.of_ok
  have hla := (clear_pending ha hx).last
  obtain ⟨mark, position, hl, -⟩ := literal_run (r := r)
    (pending (outline r.tag a).2 (outline r.tag x).1 ++ (outline r.tag x).2) v'
  have hp : pieces (Parse.text m) s.whereabouts.reading ((a ++ x).length + 1) (a ++ x) r
      (begun s (a ++ x)) = _ :=
    heq.trans ((bind_ok hv _).trans
      ((bind_ok hv' _).trans ((congrFun (pieces_last hla) v').trans hl)))
  rw [text_eq, bind_ok hp, conclude_frames]
  exact hl'.builder.length_eq.symm

theorem spares_carry {I} (hI : Scope.KeptByFinding I) (before : Reading)
    (cs : List Stretch) : Spares I r (carry (Parse.text m) before cs) := by
  induction cs with
  | nil => exact .returns rfl
  | cons c cs ih =>
    refine .next (.next spares_literal fun _ => .looks fun s s' _ hs => ?_) fun _ => ih
    obtain ⟨-, -, -⟩ := hs
    split
    · exact beside_faultAt
    · exact .next beside_setReading fun _ => spares_inside hI

/-- A state between the text in front of a command and the command. -/
structure Entered (r : ParserSettings) (s : ParseState) (c : Stretch) (v : ParseState) : Prop where
  builder : ∃ mark : Mark, mark.unplaced = { autoEscape := r.auto.enabled, logName := s.logName } ∧
    v.builder = s.builder.add mark (.literal (some c.front))
  macros : v.macros = s.macros
  scope : v.scope = s.scope
  logName : v.logName = s.logName
  depth : v.depth = s.depth
  reading : v.whereabouts.reading =
    { s.whereabouts.reading with offset := s.whereabouts.reading.offset + c.front.length + c.size }

variable (text) in
theorem piece_eq {c} (hword : Bytes.contains opening c.word = false) (before : Reading)
    (s : ParseState) :
    ∃ v, Entered r s c v ∧ piece text before c r s = inside text before c.word c.rest r v := by
  obtain ⟨mark, position, hl, hm⟩ := literal_run (r := r) c.front s
  refine ⟨{ s with
    position
    builder := s.builder.add mark (.literal (some c.front))
    whereabouts := { s.whereabouts with reading := { s.whereabouts.reading with
      offset := s.whereabouts.reading.offset + c.front.length + c.size } } },
    ⟨⟨mark, hm, rfl⟩, rfl, rfl, rfl, rfl, rfl⟩, ?_⟩
  unfold piece
  rw [bind_ok hl, Program.get_bind]
  rw [if_neg (by simp [hword])]
  rfl

section Text

variable {m d : Nat} {a b command word : Bytes} (hauto : r.auto = {})
  (hlocals : s.scope.locals = [])

/-- What two readers have come to where a command stands in the place of a text, behind the text
`a`: the first is between the text in front of the command and what stands inside of it, the second
is behind the commands of `a`. -/
structure AtCommand (r : ParserSettings) (m : Nat) (s : ParseState) (a whole word : Bytes)
    (v u : ParseState) : Prop where
  carried : carry (Parse.text m) s.whereabouts.reading (outline r.tag a).1 r (begun s whole) =
  (.ok (), u)
  rough : v.Rough ⟨[], s.logName⟩ Eq (u.adding (outline r.tag a).2)
  scope : v.scope = s.scope
  size : word.length + 2 ≤ v.whereabouts.reading.offset
  stop : v.whereabouts.reading.stop = none
  stop' : u.whereabouts.reading.stop = none

variable (hcommand : Stretch.first? r.tag command = some ⟨[], command.length, word, []⟩)
  (hword : contains opening word = false) (ha : Apart r.tag a (x ++ b)) (hx : Apart r.tag x b)
  (hcommands : Apart r.tag a (command ++ b))

include hauto hlocals hcommand hword ha hx hcommands

/-- A command does in the place of a text what the commands of the text do, and goes `d` levels
down. Then the same holds of the texts around. -/
theorem text_instead
    (hinside : ∀ v u, AtCommand r m s a (a ++ (x ++ b)) word v u → ∃ u',
      carry (Parse.text m) s.whereabouts.reading (prepend (outline r.tag a).2 (outline r.tag x).1) r
        u = (.ok (), u') ∧
        Reaches r (inside (Parse.text m) s.whereabouts.reading word b) v fun _ v' =>
          v'.Rough ⟨[], s.logName⟩ (Below d)
            (u'.adding (pending (outline r.tag a).2 (outline r.tag x).1 ++ (outline r.tag x).2)) ∧
            v'.whereabouts.reading.stop = none) :
    Tracks Stop.IsLimit (fun _ t _ t' => t.Rough ⟨[], s.logName⟩ (Below d) t') (fun e _ e' _ =>
      e.kind? = e'.kind?)
      (Parse.text (m + 1) (a ++ (command ++ b)) r s) (Parse.text (m + 1) (a ++ (x ++ b)) r s) := by
  obtain ⟨j, hj, heq⟩ := pieces_front hauto s.whereabouts.reading m hcommands.1 (Nat.lt_succ_self _)
    (s := begun s (a ++ (command ++ b))) rfl
  obtain ⟨j', hj', heq'⟩ := pieces_two hauto s.whereabouts.reading m ha hx (Nat.lt_succ_self _)
    (s := begun s (a ++ (x ++ b))) rfl
  obtain _ | j := j
  · omega
  rw [text_eq, text_eq]
  refine tracks_bind (Q := fun _ t _ t' => t.Rough ⟨[], s.logName⟩ (Below d) t') ?_
    fun _ t _ t' _ ht => ?_
  · rw [heq, heq']
    refine tracks_bind
      ((simulates_carry_begun hauto s.whereabouts.reading s.whereabouts.reading ha.1 s
      (a ++ (command ++ b)) (a ++ (x ++ b))).imp (fun _ h => h) (fun _ _ _ _ h => h)
        fun _ _ _ _ h => h.1) ?_
    rintro _ t _ u hu ⟨i, i', hlik⟩
    have hs : u.scope = s.scope := by
      have hk := (spares_carry (r := r) (keptByFinding_eq hlocals) (m := m) s.whereabouts.reading
        (outline r.tag a).1).scope (s := begun s (a ++ (x ++ b))) rfl
      rwa [hu] at hk
    obtain ⟨left, hst, hst', hn⟩ := hlik.reading.stop
    rw [hn trivial] at hst hst'
    obtain ⟨v, hv, hpi⟩ :=
      piece_eq (Parse.text m) (r := r) (c := ⟨(outline r.tag a).2, command.length, word, b⟩) hword
      s.whereabouts.reading t
    obtain ⟨mark, hm, hb⟩ := hv.builder
    rw [hauto] at hm
    have hp : mark.autoEscape = false := congrArg Mark.autoEscape hm
    have hl := (Stretch.first?_eq hcommand).2
    dsimp only at hl
    obtain ⟨u', hu', hre⟩ := hinside v u
      { carried := hu
        rough :=
          { builder := hb ▸ hlik.builder.lengthen hp rfl rfl _
            macros := hv.macros.trans hlik.macros
            scope := hv.scope.trans hlik.scope
            logName := hv.logName.trans hlik.logName
            logName' := hlik.logName'
            depth := hv.depth.trans hlik.depth }
        scope := hv.scope.trans (hlik.scope.trans hs)
        size := by
          rw [hv.reading]
          exact le_trans hl (Nat.le_add_left ..)
        stop := by rw [hv.reading]; exact hst
        stop' := hst' }
    have hstop := stop_carry (s := u) hauto (settled_prepend (settled_outline hx.1)) hst' hu'
    rw [pieces_first (hcommands.2.first?_command hcommand), bind_ok hu', bind_congr hpi]
    rcases hre with ⟨_, v', hrun, hv', hsv⟩ | ⟨e, v', hrun, hli⟩
    · have hle : v'.whereabouts.reading.left b = b := by rw [Reading.left, hsv]
      rw [bind_ok hrun, Program.get_bind, hle]
      -- what is behind the text is read with the same states, but for the literal that is not yet
      -- added
      refine Tracks.imp (simulates_pieces hauto (levels_add d) (parallel_text hauto (Nat.le_refl m))
        (clear_pending ha hx) ?_
        hj' v' u' ⟨{ hv' with reading := ⟨rfl, rfl, none, hsv, hstop, fun _ => rfl⟩ }, ?_⟩)
          (fun _ h => h)
        (fun _ _ _ _ h => h) fun _ _ _ _ h => h.1
      · rw [length_append, length_append] at hj
        omega
      · intro stop hso
        rw [hsv] at hso
        cases hso
    · rw [bind_error hrun]
      exact .limit hli
  · have hl := ht.builder.length_eq
    by_cases hle : t.builder.frames.length ≤ s.builder.frames.length
    · rw [conclude_of_le hle, conclude_of_le (hl ▸ hle)]
      exact .ok { ht with }
    · have hm := Nat.lt_of_not_le hle
      obtain ⟨e, hrun, he⟩ := conclude_of_lt (r := r) hm
      obtain ⟨e', hr', he'⟩ := conclude_of_lt (r := r) (hl ▸ hm)
      rw [hrun, hr']
      exact .error (congrArg some (he.trans he'.symm))

/-- Reading a command that includes a text comes to what reading the text in its place comes to, if
the text leaves no more blocks open than were open in front of it. -/
theorem text_included (hmarks : r.marksFiles = false) {i : Included}
    (hincluded : included? r s.scope word = some i) (hi : i.text? r.source s.scope = some x) {n}
    (ho : (Parse.text n (a ++ x) r s).2.builder.frames.length ≤
      (Parse.text n a r s).2.builder.frames.length)
    {s'} (hrun : Parse.text n (a ++ (x ++ b)) r s = (.ok (), s')) :
    Reaches r (Parse.text n (a ++ (command ++ b))) s fun _ s₁ =>
      s₁.Rough ⟨[], s.logName⟩ Eq s' := by
  cases n with
  | zero => cases hrun
  | succ m =>
    refine .of_tracks (text_instead (d := 0) hauto hlocals hcommand hword ha hx hcommands
      fun v u hv => ?_) hrun
    obtain ⟨k, -, heq⟩ := pieces_two hauto s.whereabouts.reading m ha hx (Nat.lt_succ_self _)
      (s := begun s (a ++ (x ++ b))) rfl
    rw [text_eq] at hrun
    obtain ⟨_, u₃, hp, -⟩ := bind_eq_ok hrun
    rw [heq, bind_ok hv.carried] at hp
    obtain ⟨_, u', hu', -⟩ := bind_eq_ok hp
    have hb : u'.builder.frames.length ≤ u.builder.frames.length := by
      have hn : Apart r.tag [] [] := ⟨fun _ hc => absurd hc not_mem_nil, .nil _ _⟩
      have hf := open_after hauto (x := []) ⟨ha.1, Clear.front (s := []) ha.2⟩ hn hv.carried rfl
      have hw := open_after hauto ⟨ha.1, ha.2.front⟩ ⟨hx.1,
        Clear.front (s := []) hx.2⟩ hv.carried hu'
      rw [append_nil] at hf
      rwa [hf, hw] at ho
    have hla : nextCommand? r.tag (outline r.tag x).2 = none := (Clear.front (s := []) hx.2).last
    rw [← hv.scope] at hlocals hincluded hi
    exact ⟨u', hu', included_reaches hmarks hauto hlocals hincluded hi hv.size hv.stop hv.rough
      (fun d s₁ hs₁ =>
      text_reaches hauto (levels_add d) (Nat.le_succ m) hx.1 hla hs₁ hv.stop' hu' hb) _ b⟩

end Text

end Parse

end TemplateKit
