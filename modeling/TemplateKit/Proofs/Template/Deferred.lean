import TemplateKit.Proofs.Template.Inclusion

/-!
# Reading that is put off

A template whose only command includes something reads the same as a template of its own reads,
whether the command does this when it is read or when it is rendered.
-/

namespace TemplateKit

open Program

namespace Included

/-- Reads what is included, with the reader for texts. -/
def read (text : Bytes → Parse Unit) : Included → Parse Unit
  | file path _ => Parse.file text (some path)
  | value x => text x

/-- How many levels of nesting it takes to include it. -/
def depth : Included → Nat
  | file _ _ => 1
  | value _ => 0

end Included

/-- An item that includes something when it is rendered. -/
def Included.Deferred (scope : Scope) (i : Included) (mark : Mark) (action : Action) : Prop :=
  ∃ arg v x, arg.expr.eval.run scope = (.ok v, scope) ∧
    Builtin.properText v scope = (some x, scope) ∧
    (action = .includeLater arg ∧ i = .file x mark.required ∨ action = .lvar arg ∧ i = .value x)

/-- A state in which what is included is read as a template of its own. -/
structure ParseState.Separate (s : ParseState) (i : Included) (mode : EscapeMode)
    (start : ParseState) : Prop where
  builder : start.builder = .start mode
  macros : start.macros = s.macros
  scope : start.scope = s.scope
  depth : start.depth = s.depth + i.depth
  logName : start.logName = s.logName
  stop : start.whereabouts.reading.stop = none

namespace Parse

variable {r : ParserSettings} {text : Bytes → Parse Unit} {s s' : ParseState} {word : Bytes}
  {i : Included}
variable {before : Reading} {m : Nat} {l l' : Bytes} {mode : EscapeMode}

theorem command_ok {rest arg c} (hr : Command.read? word = some (c, arg))
    (ha : c.allowedIn s.builder.block = true)
    (hrun : inside text before word rest r s = (.ok (), s')) :
    command text c (tail s.whereabouts.reading.offset rest arg) r s = (.ok (), s') := by
  rw [inside_eq hr ha] at hrun
  cases hc : command text c (tail s.whereabouts.reading.offset rest arg) r s with
  | mk result t =>
    cases result with
    | ok _ => exact (catch_ok hc _).symm.trans hrun
    | error e => cases (catch_error hc _).symm.trans hrun

theorem passes_of_parallel {base o o' last} {m m' : Parse Unit}
    (h : Parallel base Eq True o o' r m m')
    (hl : s.Like base Eq True o o' s') (hm : m r s = last)
    (hp : i.Passes last.1) : i.Passes (m' r s').1 ∧
      Builder.Alike base.items last.2.builder (m' r s').2.builder ∧
      last.2.whereabouts.reading.stop = none := by
  have hs : ∀ {s s' : ParseState}, s.whereabouts.reading.Like True o o' s'.whereabouts.reading →
      s.whereabouts.reading.stop = none := by
    intro s s' hl
    obtain ⟨left, hle, -, hn⟩ := hl.stop
    rw [hle, hn trivial]
    rfl
  have he := h s s' hl.holds
  rw [hm] at he
  generalize m' r s' = last' at he
  cases he with
  | ok h => exact ⟨.inl rfl, h.2.1, hs h.2.2.reading⟩
  | @error e e' s s' h =>
    obtain ⟨hk, hro, hr⟩ := h
    rcases hp with hok | ⟨path, f, rfl, hf, hnotFound⟩
    · cases hok
    · obtain rfl : e = .failure f := Except.error.inj hf
      cases e' with
      | exhausted => cases hk
      | failure f' =>
        have hsa : f.kind = f'.kind := Option.some.inj hk
        have ho : (Stop.failure f).kind? ≠ some .parse := by
          intro hpa
          cases hnotFound.symm.trans (Option.some.inj hpa)
        exact ⟨.inr ⟨path, f', rfl, rfl, hsa.symm.trans hnotFound⟩, hro.builder, hs (hr ho)⟩
  | limit h => exact absurd hp (h.not_passes i)

/-- What a command has included without a failure is read as well in the state `start`. -/
theorem included_ok {base start} (ha : r.auto = {})
    (hs : s.Rough base (fun k k' => k + i.depth = k') start)
    (hr : start.whereabouts.reading.stop = none) (hst : s.whereabouts.reading.stop = none)
    (hl : s.scope.locals = []) (hi : included? r s.scope word = some i)
    (hro : word.length + 2 ≤ s.whereabouts.reading.offset) {rest}
    (hrun : inside (Parse.text m) before word rest r s = (.ok (), s')) :
    i.Passes (i.read (Parse.text m) r start).1 ∧
      Builder.Alike base.items s'.builder (i.read (Parse.text m) r start).2.builder ∧
      s'.whereabouts.reading.stop = none := by
  have hn : ∀ o o' x, Parallel base Eq True o o' r (Parse.text m x) (Parse.text m x) :=
    fun o o' x => parallel_text ha (Nat.le_refl m) Eq levels_eq True o o' x
  rcases included?_cases hl hi with ⟨b, arg, path, ends, hre, rfl, hpa⟩ |
    ⟨b, arg, x, hre, rfl, hname, hvalue⟩
  · have hr₁ := (includeNow_eq hpa).symm.trans (command_ok hre rfl hrun)
    rcases includePath_run (Parse.text m) _ path (s.spent _ _ _) with
      ⟨e, he, -⟩ | ⟨result, s₁, hf, ⟨hp, he⟩ | ⟨-, e, e', -, he, -⟩⟩
    · cases he.symm.trans hr₁
    · cases he.symm.trans hr₁
      have hu := stop_spent hre hro hst hpa.le rest
      have hli : ParseState.Like base Eq True _ _ { s.spent _ _ _ with depth := s.depth +
        1 } start :=
        { hs with reading := ⟨rfl, rfl, none, hu, hr, fun _ => rfl⟩ }
      exact passes_of_parallel (parallel_file ha (hn _ _) (some path)) hli hf hp
    · cases he.symm.trans hr₁
  · obtain ⟨mark, s₀, hsa, he⟩ :=
      evar_run (t := tail s.whereabouts.reading.offset rest (b :: arg)) (Parse.text m) hname hvalue
    cases ht : Parse.text m x r s₀ with
    | mk result s₁ =>
      obtain ⟨s₂, hev, hs'⟩ := he _ _ ht
      cases hev.symm.trans (command_ok hre rfl hrun)
      have hu : s₀.whereabouts.reading.stop = none :=
        hsa.reading ▸ stop_spent hre hro hst (fun _ => mem_trailing) rest
      rw [hs'.builder, hs'.reading]
      exact passes_of_parallel (hn _ _ x)
        { hsa.rough { hs with builder := hs.builder.addEvar mark _ } with
          reading := ⟨rfl, rfl, none, hu, hr, fun _ => rfl⟩ } ht (.inl rfl)

/-- A command with `word` inside is the only one between two texts. -/
structure Sole (tag l command l' word : Bytes) : Prop where
  first : Stretch.first? tag command = some ⟨[], command.length, word, []⟩
  clean : Bytes.contains opening word = false
  before : Clear tag l (command ++ l')
  behind : nextCommand? tag l' = none

theorem Sole.entered {command v} (h : Sole r.tag l command l' word)
    (hv : Entered r (begun s (l ++ (command ++ l'))) ⟨l, command.length, word, l'⟩ v) :
    word.length + 2 ≤ v.whereabouts.reading.offset ∧ v.whereabouts.reading.stop = none := by
  rw [hv.reading]
  exact ⟨le_trans (Stretch.first?_eq h.first).2 (Nat.le_add_left ..), rfl⟩

theorem text_sole {command} (h : Sole r.tag l command l' word) (s : ParseState) :
    ∃ v k, Entered r (begun s (l ++ (command ++ l'))) ⟨l, command.length, word, l'⟩ v ∧
      Parse.text (m + 1) (l ++ (command ++ l')) r s = ((do
        inside (Parse.text m) s.whereabouts.reading word l'
        let t ← get
        pieces (Parse.text m) s.whereabouts.reading (k + 1) (t.whereabouts.reading.left l')
        conclude s) : Parse Unit) r v := by
  have hs := (Stretch.first?_eq h.first).2
  have hf := h.before.first?_command h.first
  obtain ⟨v, hv, heq⟩ := piece_eq (Parse.text m) (r := r) (c := ⟨l, command.length, word, l'⟩)
    h.clean s.whereabouts.reading (begun s (l ++ (command ++ l')))
  obtain ⟨k, hk⟩ : ∃ k, (l ++ (command ++ l')).length = k + 1 := by
    refine ⟨(l ++ (command ++ l')).length - 1, ?_⟩
    simp only [List.length_append] at hs ⊢
    omega
  refine ⟨v, k, hv, ?_⟩
  have hp : pieces (Parse.text m) s.whereabouts.reading (k + 1 + 1) (l ++ (command ++ l')) r
      (begun s (l ++ (command ++ l'))) = _ := congrFun (pieces_first hf) _
  rw [text_eq, hk]
  refine (bind_congr hp _).trans ?_
  rw [bind_assoc]
  exact (bind_congr heq _).trans (by simp only [bind_assoc])

theorem behind_eq {k} (hl' : nextCommand? r.tag l' = none) {u}
    (hs : u.whereabouts.reading.stop = none) (s : ParseState) : ((do
      let t ← get
      pieces text before (k + 1) (t.whereabouts.reading.left l')
      conclude s) : Parse Unit) r u = ((do
        literal l'
        conclude s) : Parse Unit) r u := by
  have hl : u.whereabouts.reading.left l' = l' := by rw [Reading.left, hs]
  rw [Program.get_bind, hl]
  exact bind_congr (congrFun (pieces_last hl') u) _

theorem template_add {b : Builder} (h : b.frames = []) (mark : Mark) (action : Action) :
    (b.add mark action).template = b.template ++ [⟨mark, action, [], []⟩] := by
  simp [Builder.template, Builder.add, h]

/-- A template whose only command includes something is made of what is read of that in a template
of its own. -/
theorem text_included_alone (hau : r.auto = {}) {command : Bytes}
    (hso : Sole r.tag l command l' word) (he : s.builder = .start mode)
    (hlo : s.scope.locals = []) (hi : included? r s.scope word = some i)
    (hrun : Parse.text (m + 1) (l ++ (command ++ l')) r s = (.ok (), s')) {start : ParseState}
    (hs : s.Separate i mode start) : i.Passes (i.read (Parse.text m) r start).1 ∧
      ∃ mark mark' : Mark, mark.autoEscape = false ∧ mark'.autoEscape = false ∧
        Item.Alike s'.builder.template (⟨mark, .literal (some l), [], []⟩ ::
          ((i.read (Parse.text m) r start).2.builder.template ++
            [⟨mark', .literal (some l'), [], []⟩])) := by
  obtain ⟨v, k, hv, heq⟩ := text_sole (m := m) hso s
  obtain ⟨mark, hm, hb⟩ := hv.builder
  rw [hau] at hm
  rw [heq] at hrun
  obtain ⟨_, u, hin, hre⟩ := bind_eq_ok hrun
  have hr : v.Rough ⟨[⟨mark, .literal (some l), [], []⟩], s.logName⟩ (fun k k' => k + i.depth =
      k') start := by
    refine ⟨?_, hv.macros.trans hs.macros.symm, hv.scope.trans hs.scope.symm,
      hv.logName, hs.logName, (congrArg (· + i.depth) hv.depth).trans hs.depth.symm⟩
    have hfi : v.builder = (Builder.start mode).add mark (.literal (some l)) := he ▸ hb
    rw [hfi, hs.builder]
    exact ⟨.outermost (by simp [Item.Alike, Builder.start, Builder.add, Item.coreOf, Item.core,
      Item.reduced]), rfl, rfl, rfl, rfl⟩
  obtain ⟨hro, hst⟩ := hso.entered hv
  have hsc : v.scope = s.scope := hv.scope
  obtain ⟨hp, ha, hs'⟩ := included_ok hau hr hs.stop hst (hsc ▸ hlo)
    (hsc ▸ hi) hro hin
  refine ⟨hp, mark, ?_⟩
  rw [behind_eq hso.behind hs'] at hre
  obtain ⟨mark', position, hl, hm'⟩ := literal_run (r := r) l' u
  rw [hau] at hm'
  rw [bind_ok hl] at hre
  obtain ⟨hc, rfl⟩ := le_of_conclude hre
  have hf : u.builder.frames = [] := by
    rw [he] at hc
    exact List.eq_nil_of_length_eq_zero (Nat.le_zero.mp hc)
  refine ⟨mark', congrArg Mark.autoEscape hm, congrArg Mark.autoEscape hm', ?_⟩
  rw [template_add hf]
  exact ha.template.append (.refl _)

/-- What a command includes when it is rendered. -/
def includedLater? (r : ParserSettings) (scope : Scope) (word : Bytes) : Option Included :=
  match Command.read? word with
  | some (.includeLater, b :: arg) => (argumentText? r scope arg).map fun path =>
    .file path (b == '!')
  | some (.lvar, _ :: arg) => (argumentText? r scope arg).map .value
  | _ => none

theorem includedLater?_cases {scope} (h : includedLater? r scope word = some i) :
    ∃ c b arg x, Command.read? word = some (c, b :: arg) ∧ argumentText? r scope arg = some x ∧
      (c = .includeLater ∧ i = .file x (b == '!') ∨ c = .lvar ∧ i = .value x) := by
  unfold includedLater? at h
  split at h
  · next b arg hr =>
    obtain ⟨x, ht, rfl⟩ := Option.map_eq_some_iff.mp h
    exact ⟨_, b, arg, x, hr, ht, .inl ⟨rfl, rfl⟩⟩
  · next b arg hr =>
    obtain ⟨x, ht, rfl⟩ := Option.map_eq_some_iff.mp h
    exact ⟨_, b, arg, x, hr, ht, .inr ⟨rfl, rfl⟩⟩
  · cases h

variable (text) in
theorem later_run (hl : s.scope.locals = []) (hla : includedLater? r s.scope word = some i)
    (hro : word.length + 2 ≤ s.whereabouts.reading.offset) (hs : s.whereabouts.reading.stop = none)
    (before : Reading) (rest : Bytes) :
    ∃ mark action u, inside text before word rest r s = (.ok (), u) ∧
      u.builder = s.builder.add mark action ∧
      mark.escape = s.builder.escape ∧ i.Deferred s.scope mark action ∧ u.scope = s.scope ∧
      u.depth = s.depth ∧
      u.logName = s.logName ∧ u.whereabouts.reading.stop = none := by
  obtain ⟨c, b, arg, x, hre, ht, hc⟩ := includedLater?_cases hla
  obtain ⟨ends, e, v, hp, hv, hx⟩ := argumentText?_eq_some hl ht
  have hus := stop_spent hre hro hs (places_le hp) rest
  let t := tail s.whereabouts.reading.offset rest (b :: arg)
  obtain ⟨mark, position, hm, hu⟩ := newMark_run (r := r) t.required false s.builder.escape s
  have hr : mark.required = t.required := congrArg Mark.required hu
  have he : mark.escape = s.builder.escape := congrArg Mark.escape hu
  have ha := argument_run (b := t.base) { s with position } hp
  rcases hc with ⟨rfl, rfl⟩ | ⟨rfl, rfl⟩
  · have hrun : Directive.includeLater t r s = _ :=
      (bind_ok (m := get) rfl _).trans ((bind_ok hm _).trans ((bind_ok ha _).trans rfl))
    refine ⟨mark, .includeLater _, _, (inside_eq hre rfl before rest).trans (catch_ok hrun _), rfl,
      he, ⟨_, v, x, hv, hx, .inl ⟨rfl, ?_⟩⟩, rfl, rfl, rfl, hus⟩
    rw [hr]
    rfl
  · have hrun : Directive.lvar t r s = _ :=
      (bind_ok (m := get) rfl _).trans ((bind_ok hm _).trans ((bind_ok ha _).trans rfl))
    exact ⟨mark, .lvar _, _, (inside_eq hre rfl before rest).trans (catch_ok hrun _), rfl,
      he, ⟨_, v, x, hv, hx, .inr ⟨rfl, rfl⟩⟩, rfl, rfl, rfl, hus⟩

theorem text_later (ha : r.auto = {}) {command} (hso : Sole r.tag l command l' word)
    (hem : s.builder = .start mode) (hlo : s.scope.locals = [])
    (hla : includedLater? r s.scope word = some i) :
    ∃ s' mark action, ∃ first last : Mark, Parse.text (m + 1) (l ++ (command ++ l')) r s =
      (.ok (), s') ∧
      s'.builder.template = [⟨{}, .literal none, [], []⟩, ⟨first, .literal (some l), [], []⟩,
        ⟨mark, action, [], []⟩,
        ⟨last, .literal (some l'), [], []⟩] ∧ first.autoEscape = false ∧ last.autoEscape = false ∧
          mark.escape = mode ∧
      i.Deferred s.scope mark action ∧ s'.scope = s.scope ∧ s'.depth = s.depth ∧
      s'.logName = s.logName := by
  obtain ⟨v, k, hv, heq⟩ := text_sole (m := m) hso s
  obtain ⟨first, hf, hb⟩ := hv.builder
  have hbe : (begun s (l ++ (command ++ l'))).builder = .start mode := hem
  rw [hbe] at hb
  obtain ⟨hr, hst⟩ := hso.entered hv
  have hs : v.scope = s.scope := hv.scope
  obtain ⟨mark, action, u, hi, hadd, he, hd, hu, hud, hul, hs'⟩ :=
    later_run (Parse.text m) (hs ▸ hlo) (hs ▸ hla) hr hst s.whereabouts.reading l'
  obtain ⟨last, position, hl, hlas⟩ := literal_run (r := r) l' u
  rw [ha] at hf hlas
  rw [hb] at hadd he
  rw [bind_ok hi, behind_eq hso.behind hs', bind_ok hl] at heq
  refine ⟨_, mark, action, first, last, heq.trans (conclude_of_le ?_), ?_,
    congrArg Mark.autoEscape hf,
    congrArg Mark.autoEscape hlas, he, hs ▸ hd, hu.trans hs, hud.trans hv.depth,
      hul.trans hv.logName⟩
  · rw [hadd, hem]
    exact Nat.le_refl _
  · rw [hadd]
    rfl

end Parse

end TemplateKit
