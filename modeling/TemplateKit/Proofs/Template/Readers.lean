import TemplateKit.Proofs.Template.Places
import TemplateKit.Template.Parser

/-!
# Two readers at the same command

Two readers come to the same command in states that go together. What that means is left open: their
builders, offsets and marks may be related in many ways, and the first one may stop where the second
does not. A few laws are enough to take both through every command that does not read another text,
as long as the builders stay related. A property of a single reader is a relation between a reader
and itself.
-/

namespace TemplateKit

open Program Directive Bytes Option

open List hiding range

/-- A mark without the place in the text that it tells. -/
def Mark.unplaced (m : Mark) : Mark := { m with line := 0, column := 0, file := none }

namespace Action

/-- Actions of some commands; pieces of text belong to none. -/
def Of (K : Command → Prop) (a : Action) : Prop := ∀ c, a.command? = some c → K c

theorem of_command {K : Command → Prop} {a : Action} {c : Command} (hK : K c)
    (ha : a.command? = some c) : a.Of K := by
  intro c' hc'
  rw [ha] at hc'
  cases hc'
  exact hK

/-- What is known of an action that is built where the mode `m` is in force and stays so: literal
texts are among `L`, and what writes a value notes the mode. -/
def Noted (L : Bytes → Prop) (fs : List Function) (m : EscapeMode) (mark : Mark) : Action → Prop
  | literal text => ∀ s ∈ text, L s
  | name _ | call _ _ | lvar _ | includeLater _ => mark.escape = m
  | var false arg | alt arg => mark.escape = m ∧ arg.expr.Calm fs
  | define _ | escape _ _ => False
  | _ => True

end Action

/-- The mode that a word names. -/
def EscapeMode.ofWord? (word : Bytes) : Option EscapeMode :=
  (named.find? fun (w, _) => startsWithNoCase w word.stripLeft).map (·.2)

/-- The commands that do not read an argument. -/
def Command.standsAlone : Command → Bool
  | otherwise | endBranch | endEach | endWith | endDefine | endLoop | endAlt | endEscape => true
  | _ => false

/-- How what two readers build goes together: the marks, the offsets of blocks, and the builders
themselves, also where the readers stop. -/
structure Likeness where
  mark : Mark → Mark → Prop
  place : Nat → Nat → Prop
  built : Builder → Builder → Prop

/-- On which terms two readers go together. -/
structure Terms extends Likeness where
  /-- The stops that the first reader may come to alone. -/
  alone : Stop → Prop
  /-- A part of some length that stands at an offset for each of them. -/
  part : Nat → Nat → Nat → Prop
  state : ParseState → ParseState → Prop
  /-- How both stop, and in which states. -/
  stopped : Stop → ParseState → Stop → ParseState → Prop

namespace Terms

variable (T : Terms)

/-- What reading an argument asks of the terms. -/
structure Lawful (r : ParserSettings) : Prop where
  fault {s s' : ParseState} (h : T.state s s') (f : SyntaxFault) :
    T.stopped (.failure (.raise .parse (f.message (s.whereabouts.here r.source)))) s
      (.failure (.raise .parse (f.message (s'.whereabouts.here r.source)))) s'
  builder {s s' : ParseState} {b b' : Builder} (h : T.state s s') (hb : T.built b b') :
    T.state { s with builder := b } { s' with builder := b' }
  place {s s' : ParseState} (h : T.state s s') :
  T.place s.whereabouts.reading.offset s'.whereabouts.reading.offset
  within {n k j b b' : Nat} (h : T.part n b b') (hle : j + k ≤ n) : T.part k (b + j) (b' + j)
  use {s s' : ParseState} {n b b' : Nat} {places : List Nat} (h : T.state s s')
    (hp : T.part n b b') (x : Bytes) (hle : ∀ k ∈ places, k ≤ n) :
    T.state { s with whereabouts :=
      { s.whereabouts with reading := s.whereabouts.reading.use b x places } }
      { s' with whereabouts :=
        { s'.whereabouts with reading := s'.whereabouts.reading.use b' x places } }
  newMark {s s' t t' : ParseState} {m m' : Mark} {required autoEscape : Bool} {escape : EscapeMode}
    (h : T.state s s') (hm : Parse.newMark required escape autoEscape r s = (.ok m, t))
    (hm' : Parse.newMark required escape autoEscape r s' = (.ok m', t')) : T.mark m m' ∧
    T.state t t'
  macros_eq {s s' : ParseState} (h : T.state s s') : s'.macros = s.macros
  define {s s' : ParseState} (h : T.state s s') (ms : List Signature) :
    T.state { s with macros := ms } { s' with macros := ms }
  note {s s' : ParseState} (h : T.state s s') (f : Bytes → Bytes) :
    T.state { s with passedOver := s.passedOver ++ [f (s.whereabouts.here r.source)] }
      { s' with passedOver := s'.passedOver ++ [f (s'.whereabouts.here r.source)] }

/-- States that go together, with builders that are also related by `P`. -/
def Holds (P : Builder → Builder → Prop) (s s' : ParseState) : Prop :=
  P s.builder s'.builder ∧ T.state s s'

end Terms

/-- A relation between builders that is kept when the commands `K` and the literal texts `L` build.
-/
structure Builder.Kept (M : Likeness) (K : Command → Prop) (L : Bytes → Prop) (fs : List Function)
    (R : Builder → Builder → Prop) : Prop where
  within {b b' : Builder} (h : R b b') : M.built b b'
  changed {b b' : Builder} (h : R b b') (m : EscapeMode) :
  M.built (b.changeEscape m) (b'.changeEscape m)
  escape_eq {b b' : Builder} (h : R b b') : b'.escape = b.escape
  block_eq {b b' : Builder} (h : R b b') (hopen : b.frames ≠ []) : b'.block = b.block
  add {b b' : Builder} {mark mark' : Mark} {action : Action} (h : R b b') (hm : M.mark mark mark')
    (ha : action.Of K)
    (hn : action.Noted L fs b.escape mark) : R (b.add mark action) (b'.add mark' action)
  addContentType {b b' : Builder} {mark mark' : Mark} (h : R b b') (hm : M.mark mark mark')
    (hK : K .contentType)
    (type : Bytes) (source : Option Bytes) :
    R (b.addContentType mark type source) (b'.addContentType mark' type source)
  openBlock {b b' : Builder} {block : Block} {l l' : Nat} {mark mark' : Mark} {action : Action}
    (h : R b b')
    (hm : M.mark mark mark') (hl : M.place l l') (ha : action.Of K)
    (hn : action.Noted L fs b.escape mark) :
    R (b.openBlock block l mark action) (b'.openBlock block l' mark' action)
  define {b b' : Builder} {l l' : Nat} {mark mark' : Mark} (h : R b b') (hm : M.mark mark mark')
    (hl : M.place l l') (hK : K .define) (signature : Signature) :
    R ((b.changeEscape .undefined).openBlock .define l mark (.define signature))
      ((b'.changeEscape .undefined).openBlock .define l' mark' (.define signature))
  escape {b b' : Builder} {l l' : Nat} {mark mark' : Mark} {m : EscapeMode} {s : Bytes} (h : R b b')
    (hm : M.mark mark mark') (hl : M.place l l') (hK : K .escape)
    (hs : EscapeMode.ofWord? s = some m) (source : Option Bytes) :
    R ((b.changeEscape m).openBlock .escape l mark (.escape s source))
      ((b'.changeEscape m).openBlock .escape l' mark' (.escape s source))
  divide {b b' : Builder} {mark mark' : Mark} {word : Command} {arg : Argument} (h : R b b')
    (hm : M.mark mark mark') (hK : K word) (hopen : b.frames ≠ []) (hblock : b.block = .branch) :
    R (b.divide mark (.branch word arg)) (b'.divide mark' (.branch word arg))
  turn {b b' : Builder} {l l' : Nat} (h : R b b') (hl : M.place l l') (hopen : b.frames ≠ [])
    (hblock : b.block = .branch) :
    R (b.turn l) (b'.turn l')
  close {b b' : Builder} (h : R b b') (hopen : b.frames ≠ []) : R b.close b'.close
  length_le {b b' c c' : Builder} (h : R b b') (hlater : R c c') (hle : c.frames.length ≤
    b.frames.length) :
    c'.frames.length ≤ b'.frames.length

theorem Builder.frames_ne_nil {b : Builder} (h : b.block ≠ .outermost) : b.frames ≠ [] := by
  intro hn
  unfold Builder.block at h
  rw [hn] at h
  exact h rfl

/-- Arguments with the same text, which stands at offsets that go together. -/
structure Directive.Tail.Like (part : Nat → Nat → Nat → Prop) (t t' : Tail) : Prop where
  required : t.required = t'.required
  text : t.text = t'.text
  base : part t.text.length t.base t'.base

namespace Parse

variable {α β : Type} {T : Terms} {P S : Builder → Builder → Prop} {Q : α → α → Prop}
  {U : β → β → Prop} {r : ParserSettings}

variable {s : Bytes}

/-- A new mark tells its place, and otherwise what it was made for. -/
theorem newMark_run (required autoEscape : Bool) (escape : EscapeMode) (s : ParseState) :
    ∃ mark position, newMark required escape autoEscape r s = (.ok mark, { s with position }) ∧
      mark.unplaced = { required, escape, autoEscape, logName := s.logName } := by
  unfold newMark
  rw [Program.get_bind]
  dsimp only
  rw [Program.read_bind]
  split
  · split
    · exact ⟨_, s.position, rfl, rfl⟩
    · cases s.whereabouts.reading.text with
      | none | some => exact ⟨_, _, rfl, rfl⟩
  · exact ⟨_, s.position, rfl, rfl⟩

/-- Two programs take builders that are related by `P` to ones that are related by `S`, with results
related by `Q`. -/
def Beside (T : Terms) (P S : Builder → Builder → Prop) (Q : α → α → Prop) (r : ParserSettings)
    (m m' : Parse α) : Prop :=
  Simulates T.alone (T.Holds P) (m r) (m' r) (fun a s a' s' => Q a a' ∧ T.Holds S s s') T.stopped

namespace Beside

variable {V : Builder → Builder → Prop} {m m' : Parse α}

theorem returns {a a'} (h : Q a a') : Beside T P P Q r (pure a) (pure a') :=
  bothReturn fun _ _ hs => ⟨h, hs⟩

theorem andThen {f f'} (hm : Beside T P V Q r m m')
    (hf : ∀ a a', Q a a' → Beside T V S U r (f a) (f' a')) :
    Beside T P S U r (m >>= f) (m' >>= f') :=
  bothThen hm fun a a' => Simulates.given fun ha => hf a a' ha

theorem next {f f'} (hm : Beside T P V Eq r m m')
    (hf : ∀ a, Beside T V S U r (f a) (f' a)) : Beside T P S U r (m >>= f) (m' >>= f') :=
  hm.andThen fun a _ ha => ha ▸ hf a

theorem pre (hm : Beside T P S Q r m m') (h : ∀ b b', V b b' → P b b') :
    Beside T V S Q r m m' := Simulates.pre hm fun _ _ hs => ⟨h _ _ hs.1, hs.2⟩

theorem looksInto {f f'} (h : ∀ s s', P s.builder s'.builder → T.state s s' →
      Beside T (fun b b' => P b b' ∧ b = s.builder) S U r (f s) (f' s')) :
    Beside T P S U r (get >>= f) (get >>= f') := by
  apply bothLook
  rintro s s' ⟨hb, hs⟩
  apply Simulates.pre (h s s' hb hs)
  rintro _ _ ⟨rfl, rfl⟩
  exact ⟨⟨hb, rfl⟩, hs⟩

theorem looks {f f'} (h : ∀ s s', P s.builder s'.builder → T.state s s' →
      Beside T P S U r (f s) (f' s')) : Beside T P S U r (get >>= f) (get >>= f') :=
  looksInto fun s s' hb hs => (h s s' hb hs).pre fun _ _ hb => hb.1

theorem reads {f f'} (h : Beside T P S U r (f r) (f' r)) :
    Beside T P S U r (read >>= f) (read >>= f') := bothRead h

/-- A step that is left out under a condition, with what follows. -/
theorem optionally {c : Prop} [Decidable c] {m m' : Parse PUnit} {f f' : PUnit → Parse β}
    (hm : Beside T P P Eq r m m') (hf : Beside T P S U r (f ⟨⟩) (f' ⟨⟩)) :
    Beside T P S U r (if c then m >>= f else f ⟨⟩) (if c then m' >>= f' else f' ⟨⟩) := by
  split
  · exact hm.next fun _ => hf
  · exact hf

theorem changes {f f'} (hb : ∀ s s', P s.builder s'.builder → P (f s).builder (f' s').builder)
    (h : ∀ s s', T.state s s' → T.state (f s) (f' s')) : Beside T P P Eq r (modify f) (modify f') :=
  bothChange fun s s' hs => ⟨rfl, hb s s' hs.1, h s s' hs.2⟩

end Beside

theorem places_le
    {assignable result ends}
    (h : (Expr.parse r.functions assignable s).run.run [] = (result, ends)) :
    ∀ k ∈ ends, k ≤ s.length := by
  have he := Expr.placed_parse r.functions assignable s
  rw [h] at he
  cases result with
  | ok e => exact he.2
  | error f => exact he

section Arguments

variable (hT : T.Lawful r)

include hT

variable {required assignable : Bool}

theorem beside_fault {f} : Beside T P S Q r (fault f) (fault f) :=
  fun _ _ hs => .error (hT.fault hs.2 f)

theorem beside_build {f f'} (h : ∀ b b', P b b' → S (f b) (f' b'))
    (hS : ∀ b b', S b b' → T.built b b') : Beside T P S Eq r (build f) (build f') :=
  bothChange fun _ _ hs => ⟨rfl, h _ _ hs.1, hT.builder hs.2 (hS _ _ (h _ _ hs.1))⟩

theorem beside_newMark {autoEscape escape} :
    Beside T P P (fun m m' => T.mark m m' ∧ m.escape = escape) r
      (newMark required escape autoEscape)
      (newMark required escape autoEscape) := by
  intro s s' hs
  obtain ⟨m, position, hrun, hm⟩ := newMark_run (r := r) required autoEscape escape s
  obtain ⟨m', position', hr', -⟩ := newMark_run (r := r) required autoEscape escape s'
  obtain ⟨hma, hst⟩ := hT.newMark hs.2 hrun hr'
  rw [hrun, hr']
  exact .ok ⟨⟨hma, congrArg Mark.escape hm⟩, hs.1, hst⟩

/-- What follows knows that the mark notes the mode that is in force. -/
theorem beside_markInMode {a : Bool} {f f' : Mark → Parse β}
    (he : ∀ b b', P b b' → b'.escape = b.escape)
    (h : ∀ m m' e, T.mark m m' → m.escape = e →
      Beside T (fun b b' => P b b' ∧ b.escape = e) S U r (f m) (f' m')) :
    Beside T P S U r (do f (← newMark required (← get).builder.escape a))
      (do f' (← newMark required (← get).builder.escape a)) := by
  refine .looksInto fun s s' hb _ => ?_
  rw [he _ _ hb]
  refine .andThen (beside_newMark hT) fun m m' hm =>
    (h m m' _ hm.1 hm.2).pre fun b b' hb => ⟨hb.1, ?_⟩
  rw [hb.2]

variable {n b b' : Nat} {x : Bytes} (hp : T.part n b b')

include hp

theorem beside_use {places} (hle : ∀ k ∈ places, k ≤ n) :
    Beside T P P Eq r (use b x places) (use b' x places) :=
  fun _ _ hs => .ok ⟨rfl, hs.1, hT.use hs.2 hp x hle⟩

theorem beside_use_one {k} (hle : k ≤ n) : Beside T P P Eq r (use b x [k]) (use b' x [k]) :=
  beside_use hT hp fun _ hk => mem_singleton.mp hk ▸ hle

/-- A literal text that is an expression is within its text. -/
theorem beside_expression (hx : x.length ≤ n) :
    Beside T P P (fun y y' => y = y' ∧ (∀ k ∈ y.2, k ≤ x.length) ∧
      (∀ t, y.1 = .text t → t.length ≤ x.length) ∧
      y.1.Calm r.functions) r (expression assignable b x) (expression assignable b' x) := by
  have hpla := Expr.placed_parse r.functions assignable x
  have hpl : ∀ k ∈ ((Expr.parse r.functions assignable x).run.run []).2, k ≤ x.length :=
    places_le rfl
  refine .reads ?_
  generalize (Expr.parse r.functions assignable x).run.run [] = last at hpla hpl
  obtain ⟨result, ends⟩ := last
  refine .next (beside_use hT hp fun k hk => Nat.le_trans (hpl k hk) hx) fun _ => ?_
  cases result with
  | ok e => exact .returns ⟨rfl, hpl, hpla.1⟩
  | error f => exact beside_fault hT

theorem beside_argument (hx : x.length ≤ n) :
    Beside T P P (fun a a' => a = a' ∧ a.expr.Calm r.functions) r (argument assignable b x)
      (argument assignable b' x) := by
  refine .andThen (beside_expression hT hp hx) fun y y' hy => .reads (.returns ?_)
  obtain ⟨rfl, -, -, hc⟩ := hy
  exact ⟨rfl, hc⟩

theorem beside_anyArgument {f f'} (hx : x.length ≤ n) (h : ∀ a, Beside T P S U r (f a) (f' a)) :
    Beside T P S U r (argument assignable b x >>= f) (argument assignable b' x >>= f') :=
  .andThen (beside_argument hT hp hx) fun a _ ha => ha.1 ▸ h a

theorem beside_range (fuel : Nat) (hx : x.length ≤ n) :
    Beside T P P Eq r (range fuel b x) (range fuel b' x) := by
  induction fuel generalizing b b' x n with
  | zero => exact .returns rfl
  | succ fuel ih =>
    cases x with
    | nil => exact .returns rfl
    | cons c x =>
      rw [range, range]
      · have hcut := length_cutAt (· == ',') (c :: x)
        generalize cutAt (· == ',') (c :: x) = cut at hcut
        obtain ⟨front, back⟩ := cut
        cases back with
        | none =>
          simp only [elim_none] at hcut
          refine .andThen (beside_expression hT hp (by omega)) fun y y' hy => .returns ?_
          rw [hy.1]
        | some back =>
          simp only [elim_some] at hcut
          refine .next (beside_use_one hT hp (by omega)) fun _ => ?_
          refine .andThen (beside_expression hT hp (by omega)) fun y y' hy => ?_
          have hb : T.part back.length (b +
              (front.length + 1)) (b' + (front.length + 1)) := hT.within hp (by omega)
          refine .next (ih hb (Nat.le_refl _)) fun es => .returns ?_
          rw [hy.1]
      · rintro ⟨⟩
      · rintro ⟨⟩

end Arguments

section Tails

variable (hT : T.Lawful r) {q : Bool} {b b' : Nat} {x : Bytes} (hp : T.part x.length b b')

theorem mem_trailing {s k} (h : k ∈ trailing s) : k ≤ s.length := by
  obtain ⟨i, hi, rfl⟩ := mem_map.mp h
  rw [mem_range] at hi
  omega

include hT hp

theorem beside_plainName : Beside T P P Eq r (plainName ⟨q, b, x⟩) (plainName ⟨q, b', x⟩) := by
  refine .next (beside_use hT hp fun k => mem_trailing) fun _ => ?_
  dsimp only
  split
  · exact beside_fault hT
  · exact .returns rfl

theorem beside_textArgument {f} :
    Beside T P P (fun y y' => y = y' ∧ y.1.length ≤ x.length ∧
      y.2.2 ≤ x.length) r (textArgument f ⟨q, b, x⟩) (textArgument f ⟨q, b', x⟩) := by
  refine .andThen (beside_expression hT hp (Nat.le_refl _)) fun y y' hy => ?_
  obtain ⟨rfl, he, ht, -⟩ := hy
  obtain ⟨e, ends⟩ := y
  have hh : ends.headD 0 ≤ x.length := by
    cases ends with
    | nil => exact Nat.zero_le _
    | cons k ends => exact he k mem_cons_self
  cases e with
  | text s => exact .reads (.returns ⟨rfl, ht s rfl, hh⟩)
  | _ => exact beside_fault hT

theorem beside_variableAndRest {directive first} :
    Beside T P P (fun y y' => y.1 = y'.1 ∧ T.part y.2.2.1.length y.2.1 y'.2.1 ∧ y.2.2 = y'.2.2) r
      (variableAndRest directive first ⟨q, b, x⟩) (variableAndRest directive first ⟨q, b', x⟩) := by
  have ht := (stripRight_initial x).length_le
  have hw := length_stripLeft_le x.stripRight
  refine .next (beside_use hT hp fun k => mem_trailing) fun _ => ?_
  dsimp only
  generalize x.stripRight = text at ht hw
  generalize text.stripLeft = whole at hw
  generalize hn : List.takeWhile (fun b => !Ascii.isSpace b && b != '=') whole = name
  have hl : name.length ≤ whole.length := hn ▸ (List.takeWhile_prefix _).length_le
  have hd : (whole.drop name.length).length ≤ whole.length := (drop_suffix _ _).length_le
  generalize whole.drop name.length = back at hd
  cases back with
  | nil => exact beside_fault hT
  | cons c behind =>
    refine .next (beside_use_one hT hp (by omega)) fun _ => ?_
    have ha : ∀ rest, (if c == '=' then some behind else (cutAt (· == '=') behind).2) = some rest →
        rest.length ≤ behind.length := by
      intro rest hr
      have hcut := length_cutAt (· == '=') behind
      split at hr
      · cases hr
        exact Nat.le_refl _
      · rw [hr] at hcut
        simp only [elim_some] at hcut
        omega
    generalize (if c == '=' then some behind else (cutAt (· == '=') behind).2) = found at ha
    cases found with
    | none => exact beside_fault hT
    | some rest =>
      dsimp only
      split
      · exact beside_fault hT
      · have hr := Nat.le_trans (length_stripLeft_le rest) (ha rest rfl)
        rw [length_cons] at hd
        refine .returns ⟨rfl, ?_, rfl⟩
        dsimp only
        rw [Nat.add_sub_assoc (by omega), Nat.add_sub_assoc (by omega)]
        exact hT.within hp (by omega)

theorem beside_params (fuel : Nat) (used : List Nat) (known : List Bytes) {s}
    (hs : s.length ≤ x.length) :
    Beside T P P Eq r (params ⟨q, b, x⟩ fuel used known s)
      (params ⟨q, b', x⟩ fuel used known s) := by
  induction fuel generalizing used known s with
  | zero => exact .returns rfl
  | succ fuel ih =>
    cases s with
    | nil => exact .returns rfl
    | cons c s =>
      rw [params, params]
      · have hst := Nat.le_trans (length_stripLeft_le (c :: s)) hs
        generalize stripLeft (c :: s) = s at hst
        cases hf : s.findByte? (fun b => b == ',' || b == ')') with
        | none => exact beside_fault hT
        | some k =>
          dsimp only
          have hk := findByte?_lt hf
          generalize hn : (s.take k).takeWhile (fun b => !(ascii " \t\r\n").elem b) = name
          have hl : name.length ≤ (s.take k).length := hn ▸ (List.takeWhile_prefix _).length_le
          rw [length_take] at hl
          refine .next (beside_use hT hp fun j hj => ?_) fun _ => ?_
          · rcases mem_cons.mp hj with rfl | hj
            · omega
            · split at hj
              · rw [mem_singleton] at hj
                omega
              · cases hj
          · cases List.find? Token.endsName name with
            | some b => exact beside_fault hT
            | none =>
              dsimp only
              split
              · split
                · exact .returns rfl
                · exact beside_fault hT
              · split
                · exact .returns rfl
                · exact ih _ _ (Nat.le_trans (drop_suffix _ _).length_le hst)
      · rintro ⟨⟩
      · rintro ⟨⟩

end Tails

theorem length_macroName? {name rest} (h : macroName? s = some (name, rest)) :
    rest.length < s.length := by
  unfold macroName? at h
  dsimp only at h
  generalize ((s.takeWhile fun b => !(ascii " #(").elem b).take longestMacroName) = front at h
  have hs := length_stripLeft_le (s.drop front.length)
  have hd : (s.drop front.length).length ≤ s.length := (drop_suffix _ _).length_le
  split at h
  · next heq =>
    cases h
    rw [heq, length_cons] at hs
    omega
  · cases h

theorem lastIndex?_lt {b k} (h : lastIndex? b s = some k) : k < s.length := by
  obtain ⟨j, hj, rfl⟩ := map_eq_some_iff.mp h
  have hlt := findByte?_lt hj
  rw [length_reverse] at hlt
  omega

section Commands

variable {K : Command → Prop} {L : Bytes → Prop} {R : Builder → Builder →
  Prop} {mark mark' : Mark} {action : Action}
  (hT : T.Lawful r) (hR : Builder.Kept T.toLikeness K L r.functions R)

include hT hR

variable {block : Block}

theorem beside_add (hP : ∀ b b', P b b' → R b b' ∧ action.Noted L r.functions b.escape mark)
    (hm : T.mark mark mark')
    (ha : action.Of K) : Beside T P R Eq r (add mark action) (add mark' action) :=
  beside_build hT (fun b b' h => hR.add (hP b b' h).1 hm ha (hP b b' h).2) fun _ _ => hR.within

theorem beside_literal {s} (hs : L s) : Beside T R R Eq r (literal s) (literal s) := by
  refine .reads (.andThen (beside_newMark hT) fun m m' hm => ?_)
  refine beside_add hT hR (fun b b' h => ⟨h, ?_⟩) hm.1 (by rintro _ ⟨⟩)
  rintro _ ⟨⟩
  exact hs

/-- Changing the mode, with what can then be said of the builders. -/
theorem beside_changeEscape (mode : EscapeMode) :
    Beside T R (fun b b' => ∃ c c', R c c' ∧ b = c.changeEscape mode ∧
      b' = c'.changeEscape mode) Eq r
      (build (·.changeEscape mode)) (build (·.changeEscape mode)) := by
  refine beside_build hT (fun b b' h => ⟨b, b', h, rfl, rfl⟩) ?_
  rintro _ _ ⟨b, b', h, rfl, rfl⟩
  exact hR.changed h mode

theorem beside_open
    (h : ∀ b b' l l', P b b' → T.place l l' →
      R (b.openBlock block l mark action) (b'.openBlock block l' mark' action)) :
    Beside T P R Eq r (openBlock block mark action) (openBlock block mark' action) :=
  .looks fun _ _ _ hs => beside_build hT (fun b b' hb => h b b' _ _ hb (hT.place hs))
    fun _ _ => hR.within

theorem beside_openBlock (hP : ∀ b b', P b b' → R b b' ∧ action.Noted L r.functions b.escape mark)
    (hm : T.mark mark mark') (ha : action.Of K) :
    Beside T P R Eq r (openBlock block mark action) (openBlock block mark' action) :=
  beside_open hT hR fun b b' _ _ h hl => hR.openBlock (hP b b' h).1 hm hl ha (hP b b' h).2

variable {q : Bool} {b b' : Nat} {x : Bytes} (hp : T.part x.length b b')

include hp

theorem beside_escape (hK : K .escape) :
    Beside T R R Eq r (escape ⟨q, b, x⟩) (escape ⟨q, b', x⟩) := by
  refine .andThen (beside_newMark hT) fun m m' hm =>
    .andThen (beside_textArgument hT hp) fun y y' hy => ?_
  obtain ⟨rfl, hle, hs⟩ := hy
  obtain ⟨s, source, stop⟩ := y
  dsimp only at hle hs ⊢
  refine .next (beside_use hT hp fun k hk => ?_) fun _ => ?_
  · obtain ⟨i, hi, rfl⟩ := mem_map.mp hk
    rw [mem_range] at hi
    omega
  · split
    · exact beside_fault hT
    · next mode hmo =>
      refine .next (beside_changeEscape hT hR mode) fun _ => beside_open hT hR ?_
      rintro _ _ l l' ⟨b, b', h, rfl, rfl⟩ hl
      exact hR.escape h hm.1 hl hK (congrArg (Option.map Prod.snd) hmo) _

/-- A macro leaves the mode open, which is arranged before its parameters are read. -/
theorem beside_define (hK : K .define) : Beside T R R
    Eq r (define ⟨q, b, x⟩) (define ⟨q, b', x⟩) := by
  refine .next (beside_changeEscape hT hR _) fun _ => .andThen (beside_newMark hT) fun m m' hm => ?_
  rcases hn : macroName? x with _ | ⟨name, rest⟩
  · exact beside_fault hT
  · refine .looks fun s s' _ hs => ?_
    rw [hT.macros_eq hs]
    split
    · exact beside_fault hT
    · refine .next (beside_params hT hp _ _ _ (Nat.le_of_lt (length_macroName? hn))) fun ps => ?_
      refine .next (.changes (fun _ _ hb => hb) fun s s' hs => ?_) fun _ => beside_open hT hR ?_
      · rw [hT.macros_eq hs]
        exact hT.define hs _
      · rintro _ _ l l' ⟨b, b', h, rfl, rfl⟩ hl
        exact hR.define h hm.1 hl hK _

/-- A call of an unknown macro is only noted, in an audit. -/
theorem beside_call (hK : K .call) : Beside T R R Eq r (call ⟨q, b, x⟩) (call ⟨q, b', x⟩) := by
  refine beside_markInMode hT (fun _ _ => hR.escape_eq) fun m m' e hm hmo => ?_
  rcases hn : macroName? x with _ | ⟨name, rest⟩
  · exact beside_fault hT
  · have hr := length_macroName? hn
    refine .looks fun s s' _ hs => ?_
    rw [hT.macros_eq hs]
    dsimp only
    rcases List.find? _ s.macros with _ | signature
    · refine .reads ?_
      split
      · rintro t t' ⟨ht, hst⟩
        exact .ok ⟨rfl, ht.1, hT.note hst fun here =>
          ((SyntaxFault.undefinedMacro x).message here).take Failure.limit⟩
      · exact beside_fault hT
    · rcases hl : lastIndex? ')' rest with _ | k
      · exact beside_fault hT
      · have hk := lastIndex?_lt hl
        have hi := Nat.le_trans (length_stripLeft_le (rest.take k)) (length_take_le _ _)
        have hadd : ∀ (args : List Expr) (ends : List Nat),
            Beside T (fun b b' => R b b' ∧ b.escape = e) R Eq r
            (if args.length = signature.params.length then add m (.call name args)
              else fault (.macroArguments signature.params.length args.length name (shown x ends)))
            (if args.length = signature.params.length then add m' (.call name args)
              else fault (.macroArguments signature.params.length args.length name
                (shown x ends))) := by
          intro args ends
          split
          · exact beside_add hT hR (fun b b' h => ⟨h.1, hmo.trans h.2.symm⟩) hm
              (Action.of_command hK rfl)
          · exact beside_fault hT
        refine .next (beside_use_one hT hp (by omega)) fun _ => ?_
        generalize stripLeft (rest.take k) = inner at hi
        split
        · exact hadd _ _
        · refine .andThen (beside_expression hT (hT.within hp (k := inner.length) (by omega))
            (Nat.le_refl _)) fun y y' hy => ?_
          rw [← hy.1]
          exact hadd _ _

theorem beside_eachOrWith {c action}
    (ha : ∀ y a, (action y a).Of K) (hn : ∀ y a m mark, (action y a).Noted L r.functions m mark) :
    Beside T R R Eq r (eachOrWith c block action ⟨q, b, x⟩)
      (eachOrWith c block action ⟨q, b', x⟩) := by
  refine .andThen (beside_newMark hT) fun m m' hm =>
    .andThen (beside_variableAndRest hT hp) fun y y' hy => ?_
  obtain ⟨y, i, rest, shown⟩ := y
  obtain ⟨_, i', _, _⟩ := y'
  obtain ⟨rfl, hpa, ⟨⟩⟩ := hy
  dsimp only
  split
  · exact beside_fault hT
  · refine beside_anyArgument hT hpa (Nat.le_refl _) fun a => ?_
    exact beside_openBlock hT hR (fun _ _ h => ⟨h, hn _ _ _ _⟩) hm.1 (ha _ _)

theorem beside_loop (hK : K .loop) : Beside T R R Eq r (loop ⟨q, b, x⟩) (loop ⟨q, b', x⟩) := by
  refine .andThen (beside_newMark hT) fun m m' hm =>
    .andThen (beside_variableAndRest hT hp) fun y y' hy => ?_
  obtain ⟨y, i, rest, shown⟩ := y
  obtain ⟨_, i', _, _⟩ := y'
  obtain ⟨rfl, hpa, ⟨⟩⟩ := hy
  dsimp only
  split
  · exact beside_fault hT
  · refine .next (beside_range hT hpa _ (Nat.le_refl _)) fun es => ?_
    split
    · exact beside_fault hT
    · exact beside_openBlock hT hR (fun _ _ h => ⟨h, trivial⟩) hm.1 (Action.of_command hK rfl)

theorem beside_set (hK : K .set) :
    Beside T R R Eq r (Directive.set ⟨q, b, x⟩) (Directive.set ⟨q, b', x⟩) := by
  refine .andThen (beside_newMark hT) fun m m' hm => ?_
  have hcut := length_cutAt (· == '=') x
  generalize x.cutAt (· == '=') = cut at hcut
  obtain ⟨target, _ | value⟩ := cut
  · exact beside_fault hT
  · simp only [elim_some] at hcut
    refine .next (beside_use_one hT hp (by omega)) fun _ =>
      beside_anyArgument hT hp (by omega) fun _ => ?_
    have hv : T.part value.length (b + (target.length + 1)) (b' + (target.length + 1)) :=
      hT.within hp (by omega)
    refine beside_anyArgument hT hv (Nat.le_refl _) fun _ => ?_
    exact beside_add hT hR (fun _ _ h => ⟨h, trivial⟩) hm.1 (Action.of_command hK rfl)

theorem beside_nextBranch {word} (hK : K word) :
    Beside T (fun b b' => R b b' ∧ b.block =
      .branch) R Eq r (nextBranch word ⟨q, b, x⟩) (nextBranch word ⟨q, b', x⟩) := by
  refine .andThen (beside_newMark hT) fun m m' hm =>
    beside_anyArgument hT hp (Nat.le_refl _) fun a => ?_
  refine beside_build hT (fun b b' h => hR.divide h.1 hm.1 hK (Builder.frames_ne_nil ?_) h.2)
    fun _ _ => hR.within
  rw [h.2]
  rintro ⟨⟩

omit hp in
/-- A command that does not read another text is carried out in the same way by both readers, where
it may stand. -/
theorem beside_command {text text' c t t'} (hK : K c) (hv : c ≠ .evar)
    (hfi : c ≠ .includeNow) (ht : c.standsAlone = true ∨ t.Like T.part t') :
    Beside T (fun b b' => R b b' ∧ c.allowedIn b.block =
      true) R Eq r (command text c t) (command text' c t') := by
  have hof : ∀ {a : Action}, a.command? = some c → a.Of K := Action.of_command hK
  have htu : (∀ b : Builder, c.allowedIn b.block = true → b.block = .branch) →
      Beside T (fun b b' => R b b' ∧ c.allowedIn b.block = true) R Eq r otherwise otherwise := by
    refine fun hbr => .looks fun _ _ _ hs => ?_
    refine beside_build hT (fun b b' h => ?_) fun _ _ => hR.within
    have hbl := hbr b h.2
    refine hR.turn h.1 (hT.place hs) (Builder.frames_ne_nil ?_) hbl
    rw [hbl]
    rintro ⟨⟩
  have hcl : c.allowedIn .outermost = false →
      Beside T (fun b b' => R b b' ∧ c.allowedIn b.block =
        true) R Eq r (build (·.close)) (build (·.close)) := by
    refine fun ho => beside_build hT (fun b b' h => hR.close h.1 (Builder.frames_ne_nil ?_))
      fun _ _ => hR.within
    intro hn
    rw [hn, ho] at h
    cases h.2
  cases hc : c.standsAlone with
  | true =>
    cases c with
    | otherwise => exact htu fun b h => by simpa [Command.allowedIn] using h
    | endBranch | endEach | endWith | endDefine | endLoop | endAlt | endEscape => exact hcl rfl
    | _ => cases hc
  | false =>
    obtain ⟨q, b, x⟩ := t
    obtain ⟨_, b', _⟩ := t'
    obtain ⟨rfl, rfl, hp⟩ := ht.resolve_left (by rw [hc]; exact Bool.false_ne_true)
    have han : ∀ {m m' : Parse Unit}, Beside T R R Eq r m m' →
        Beside T (fun b b' => R b b' ∧ c.allowedIn b.block = true) R Eq r m m' :=
          fun h => h.pre fun _ _ hb => hb.1
    have hbr : (∀ b : Builder, c.allowedIn b.block = true → b.block = .branch) →
        Beside T (fun b b' => R b b' ∧ c.allowedIn b.block =
          true) R Eq r (nextBranch c ⟨q, b, x⟩) (nextBranch c ⟨q, b', x⟩) :=
      fun h => (beside_nextBranch hT hR hp hK).pre fun b b' hb => ⟨hb.1, h b hb.2⟩
    have harg : ∀ {P : Builder → Builder → Prop} {f f' : Argument → Parse Unit},
        (∀ a, a.expr.Calm r.functions → Beside T P R Eq r (f a) (f' a)) →
        Beside T P R Eq r (argument false b x >>= f) (argument false b' x >>= f') :=
      fun hf => .andThen (beside_argument hT hp (Nat.le_refl _)) fun a _ ha => ha.1 ▸ hf a ha.2
    cases c with
    | evar => exact absurd rfl hv
    | includeNow => exact absurd rfl hfi
    | elseif | elif => exact hbr fun b h => by simpa [Command.allowedIn] using h
    | otherwise | endBranch | endEach | endWith | endDefine | endLoop | endAlt | endEscape =>
      cases hc
    | name =>
      refine han (beside_markInMode (a := r.auto.enabled) hT (fun _ _ => hR.escape_eq)
        fun m m' e hm hmo => ?_)
      refine .next (beside_plainName hT hp) fun _ => ?_
      exact beside_add hT hR (fun _ _ h => ⟨h.1, hmo.trans h.2.symm⟩) hm (hof rfl)
    | var =>
      refine han (beside_markInMode (a := r.auto.enabled) hT (fun _ _ => hR.escape_eq)
        fun m m' e hm hmo => ?_)
      exact harg fun _ ha => beside_add hT hR (fun _ _ h => ⟨h.1, hmo.trans h.2.symm, ha⟩)
        hm (hof rfl)
    | uvar =>
      refine han (.andThen (beside_newMark hT) fun m m' hm => harg fun _ _ => ?_)
      exact beside_add hT hR (fun _ _ h => ⟨h, trivial⟩) hm.1 (hof rfl)
    | lvar | includeLater =>
      refine han (beside_markInMode hT (fun _ _ => hR.escape_eq) fun m m' e hm hmo => ?_)
      exact harg fun _ _ => beside_add hT hR (fun _ _ h => ⟨h.1, hmo.trans h.2.symm⟩) hm (hof rfl)
    | branch =>
      refine han (.andThen (beside_newMark hT) fun m m' hm => harg fun _ _ => ?_)
      exact beside_openBlock hT hR (fun _ _ h => ⟨h, trivial⟩) hm.1 (hof rfl)
    | each | withAs => exact han (beside_eachOrWith hT hR hp (fun _ _ => hof rfl)
        fun _ _ _ _ => trivial)
    | define => exact han (beside_define hT hR hp hK)
    | call => exact han (beside_call hT hR hp hK)
    | set => exact han (beside_set hT hR hp hK)
    | loop => exact han (beside_loop hT hR hp hK)
    | alt =>
      refine han (beside_markInMode (a := r.auto.enabled) hT (fun _ _ => hR.escape_eq)
        fun m m' e hm hmo => ?_)
      exact harg fun _ ha => beside_openBlock hT hR (fun _ _ h => ⟨h.1, hmo.trans h.2.symm, ha⟩)
        hm (hof rfl)
    | escape => exact han (beside_escape hT hR hp hK)
    | contentType =>
      refine han (.andThen (beside_newMark hT) fun m m' hm =>
        .andThen (beside_textArgument hT hp) fun y y' hy => ?_)
      rw [← hy.1]
      exact beside_build hT (fun _ _ h => hR.addContentType h hm.1 hK _ _) fun _ _ => hR.within

end Commands

end Parse

end TemplateKit
