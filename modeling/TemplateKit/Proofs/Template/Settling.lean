import TemplateKit.Proofs.Template.Builder
import TemplateKit.Proofs.Template.Outcome

/-!
# Renderings that end by themselves

Rendering is defined with bounds: on how deeply items are nested, and on the children that a loop
comes to. Macro calls and late inclusions are kept from nesting without end by the deepest level.
For a steady template there are bounds from which on nothing depends on them, nor on what would be
rendered inside of more macro calls and inclusions than there are levels.

## Steady templates

A template is steady if it neither assigns nor reads a value as a template. It can define and call
macros and include files, which may do so in turn. Reading a steady text ends before the bound on
nesting, because it nests texts by inclusion only; what was read is steady again, and the level is
at least the one before.
-/

namespace TemplateKit

open List Action Parse Item

/-- Does a command neither assign nor read a value as a template? -/
def Command.isSteady : Command → Bool
  | set | lvar | evar => false
  | _ => true

def Action.isSteady (a : Action) : Bool := a.command?.all Command.isSteady

theorem Action.isSteady_iff {a : Action} : a.isSteady = true ↔ a.Of fun c => c.isSteady = true := by
  unfold isSteady Of
  cases a.command? <;> simp

/-- No command of the text assigns or reads a value as a template. -/
def SteadyText (tag text : Bytes) : Prop := ∀ c ∈ commandsIn tag text, c.isSteady = true

instance (tag text : Bytes) : Decidable (SteadyText tag text) :=
  inferInstanceAs (Decidable (∀ c ∈ commandsIn tag text, c.isSteady = true))

/-- The files are steady when they are read with a tag. -/
def Source.Steady (tag : Bytes) (source : Source) : Prop :=
  ∀ scope path found content, Parse.load source scope path = .ok (found, content) →
    SteadyText tag content

theorem Source.steady_table {tag texts}
    (h : ∀ p ∈ texts, SteadyText tag p.2.untilNul) : (Source.table texts).Steady tag := by
  intro scope path found content hl
  have ht : Source.load (.table texts) scope.data [] path = .ok (found, content) := by
    unfold Parse.load at hl
    split at hl
    · next hd _ => cases hd
    · exact hl
  unfold Source.load at ht
  dsimp only at ht
  cases hf : texts.find? (·.1 == path) with
  | none =>
    rw [hf] at ht
    cases ht
  | some p =>
    rw [hf] at ht
    cases ht
    exact h p (mem_of_find?_eq_some hf)

/-- Actions are among `q`, wherever they stand. -/
def Rule.among (q : Action → Bool) : Rule Unit :=
  ⟨fun _ _ a => q a = true, fun c _ => c, fun _ _ => True⟩

theorem Item.Follows.every {q : Action → Bool} {u : Unit} {i : Item} (h : i.Follows (.among q) u) :
    i.every q = true := by
  induction h with
  | mk fits _ _ ihin ihot => exact every_iff.mpr ⟨fits, ihin, ihot⟩

namespace Builder

variable {q : Action → Bool} {b : Builder}

/-- All that was built so far is among `q`. -/
def Every (q : Action → Bool) (b : Builder) : Prop := b.Follows (.among q) ()

theorem Every.start (hq : q (.literal none) = true) (m : EscapeMode) : (Builder.start m).Every q :=
  follows_start hq

theorem Every.template (h : b.Every q) : ∀ i ∈ b.template, i.every q = true :=
  fun i hi => (Follows.template h i hi).every

theorem Every.changeEscape (h : b.Every q) (m : EscapeMode) : (b.changeEscape m).Every q :=
  ⟨h.frames, h.items⟩

theorem Every.openBlock (h : b.Every q) {mark action} (ha : q action = true) (block : Block)
    (location : Nat) :
    (b.openBlock block location mark action).Every q :=
  Follows.openBlock h ha trivial fun _ => rfl

theorem kept_every {K} (hq : ∀ a : Action, a.Of K → q a = true) {fs} :
    Kept ⟨Eq, Eq, fun b b' => b' = b ∧ b.Every q⟩ K (fun _ => True) fs (fun b b' => b' = b ∧
      b.Every q) where
  within h := h
  changed h _ := ⟨by rw [h.1], h.2.changeEscape _⟩
  escape_eq h := by rw [h.1]
  block_eq h _ := by rw [h.1]
  add h hm ha _ := ⟨by rw [h.1, hm], Follows.add h.2 (hq _ ha)⟩
  addContentType h hm hK _ _ :=
    ⟨by rw [h.1, hm], Follows.addContentType h.2 (hq _ (of_command hK rfl))⟩
  openBlock h hm hl ha _ := ⟨by rw [h.1, hm, hl], h.2.openBlock (hq _ ha) _ _⟩
  define h hm hl hK _ :=
    ⟨by rw [h.1, hm, hl], (h.2.changeEscape _).openBlock (hq _ (of_command hK rfl)) _ _⟩
  escape h hm hl hK _ _ :=
    ⟨by rw [h.1, hm, hl], (h.2.changeEscape _).openBlock (hq _ (of_command hK rfl)) _ _⟩
  divide h hm hK _ hb :=
    ⟨by rw [h.1, hm], Follows.divide h.2 hb (fun _ => hq _ (of_command hK rfl)) fun _ => rfl⟩
  turn h hl _ hb := ⟨by rw [h.1, hl], Follows.turn h.2 hb fun _ _ _ => trivial⟩
  close h _ := ⟨by rw [h.1], Follows.close h.2⟩
  length_le h hlater hle := by
    rw [h.1, hlater.1]
    exact hle

end Builder

namespace Parse

variable {r : ParserSettings} {s : ParseState} {fuel : Nat} {x : Bytes} {d : Nat}

/-- A single reader that does not come to the bound on nesting, nor up from a level. -/
def unstopped (P : Builder → Prop) (d : Nat) : Pairing :=
  ⟨fun _ => False, False, fun b b' => b' = b ∧ P b, fun b b' => b' = b ∧ P b, fun k k' => k' = k ∧
    d ≤ k, fun _ => True⟩

/-- A reader that is never stopped by the bound on nesting, and keeps a property of the builder. -/
def Unstopped (P : Builder → Prop) (d : Nat) (r : ParserSettings) (m : Parse Unit) : Prop :=
  Both (unstopped P d) r m m

theorem tolerant_unstopped (P : Builder → Prop) (d : Nat) : Tolerant (unstopped P d) where
  le h := Nat.le_of_eq h.1
  succ h _ := ⟨congrArg (· + 1) h.1, Nat.le_succ_of_le h.2⟩
  found h := h
  blocks := .inr fun _ _ h => h.1
  depth := .inr fun _ _ h => h.1
  finding := ⟨fun _ _ _ => trivial, fun _ _ _ => trivial⟩

/-- The state of a single reader, whether or not it had to stop. -/
theorem Unstopped.ends {P m} (h : Unstopped P d r m) (hs : P s.builder)
    (hd : d ≤ s.depth) : (m r s).1 ≠ .error .exhausted ∧ P (m r s).2.builder ∧
    d ≤ (m r s).2.depth := by
  have hen := h s s ⟨⟨rfl, hs⟩, .mk (b := s.builder) (d := s.depth) ⟨rfl, hs⟩ ⟨rfl, hd⟩ trivial⟩
  generalize m r s = last at hen
  cases hen with
  | ok h => exact ⟨by rintro ⟨⟩, h.2.1.2, h.2.2.level.2⟩
  | error h => exact ⟨fun he => h.1.2 (Except.error.inj he), h.2.2.loose.2, h.2.2.level.2⟩
  | limit h => exact h.elim

variable (hr : r.source.Steady r.tag)

include hr

theorem readable_steady :
    Readable (fun c => c.isSteady = true) (fun _ => True) (SteadyText r.tag) r where
  commands h := h _
  literal _ _ := trivial
  marker _ _ := trivial
  file _ h := hr _ _ _ _ h
  value h := by cases h

theorem unstopped_text (hf : deepestNesting < fuel) (hx : SteadyText r.tag x) :
    Unstopped (·.Every isSteady) d r (text fuel x) := by
  refine both_text (p := unstopped _ d) (Builder.kept_every fun _ => isSteady_iff.mpr)
    (readable_steady hr)
    (tolerant_unstopped _ d)
    (.inr ⟨rfl, .inr ⟨by rintro ⟨⟩, fun k k' _ => ⟨by omega, by omega⟩⟩⟩) hx

theorem unstopped_file (hf : deepestNesting < fuel) (path : Option Bytes) :
    Unstopped (·.Every isSteady) d r (file (text fuel) path) :=
  both_file (p := unstopped _ d) (Builder.kept_every fun _ => isSteady_iff.mpr) (readable_steady hr)
    (fun _ hx => unstopped_text hr hf hx) rfl path

end Parse

end TemplateKit

/-! ## Bounds from which on nothing depends on them -/

namespace TemplateKit.Render

open Program Configuration Parse Action Render Item

/-- Bounds on a rendering: on how deeply items are nested, on the children that a loop comes to, and
on the macro calls and late inclusions around each other. What is inside of more of them is left to
`beyond`. -/
structure Limits where
  fuel : Nat
  width : Nat
  levels : Nat
  beyond : List Item → Render Unit

def itemWithin (width : Nat) (beyond : List Item → Render Unit) :
    (fuel levels : Nat) → Item → Render Unit
  | 0, _ => fun _ => throw .exhausted
  | fuel + 1, 0 => actionWithin width fuel (fun is =>
    is.forM (itemWithin width beyond fuel 0)) beyond
  | fuel + 1, levels + 1 => actionWithin width fuel (fun is =>
    is.forM (itemWithin width beyond fuel (levels + 1)))
      fun is => is.forM (itemWithin width beyond fuel levels)

namespace Limits

/-- Renders items within limits. -/
def items (x : Limits) (is : List Item) : Render Unit :=
  is.forM (itemWithin x.width x.beyond x.fuel x.levels)

/-- Renders what a macro or a file has in it. -/
def below (x : Limits) (is : List Item) : Render Unit :=
  match x.levels with
  | 0 => x.beyond is
  | levels + 1 => { x with levels }.items is

/-- Bounds that are at least `n`, with levels enough for what is at the level `k`. -/
structure Allows (x : Limits) (n k : Nat) : Prop where
  fuel : n ≤ x.fuel
  width : n ≤ x.width
  levels : deepestNesting ≤ k + x.levels

variable {x : Limits} {n n' k k' : Nat}

theorem Allows.mono (h : x.Allows n k) (hn : n' ≤ n) (hk : k ≤ k') : x.Allows n' k' where
  fuel := hn.trans h.fuel
  width := hn.trans h.width
  levels := h.levels.trans (Nat.add_le_add_right hk _)

theorem itemWithin_succ (x : Limits) :
    itemWithin x.width x.beyond (x.fuel + 1) x.levels =
    actionWithin x.width x.fuel x.items x.below := by
  obtain ⟨fuel, width, levels, beyond⟩ := x
  cases levels <;> rfl

end Limits

/-- With as many levels as items can be nested, rendering within bounds is rendering. -/
theorem itemWithin_eq (beyond : List Item → Render Unit) {fuel levels} (h : fuel ≤ levels) :
    itemWithin childLimit beyond fuel levels = item fuel := by
  induction fuel generalizing levels with
  | zero => cases levels <;> rfl
  | succ fuel ih =>
    obtain _ | levels := levels
    · omega
    unfold itemWithin
    rw [ih (show fuel ≤ levels + 1 by omega), ih (show fuel ≤ levels by omega),
      actionWithin_childLimit]
    rfl

/-- A state with the trees `d` and `g` at the level `k`. -/
structure Stands (d : Node) (g : Option Node) (k : Nat) (st : RenderState) : Prop where
  data : st.scope.data = d
  globals : st.scope.globals = g
  depth : st.depth = k

/-- An end that is not due to a bound; a result has the property `Q`. -/
def Settled {α : Type} (P : RenderState → Prop) (Q : α → Prop) : Except Stop α × RenderState → Prop
  | (.ok a, st) => Q a ∧ P st
  | (.error e, _) => e ≠ .exhausted

/-- From each state with the trees `d` and `g` at the level `k` a program ends in the same way for
all bounds that are large enough. -/
def Settles {α : Type} (d : Node) (g : Option Node) (k : Nat) (r : RenderSettings) (Q : α → Prop)
    (m : Limits → Render α) : Prop :=
  ∀ st, Stands d g k st → ∃ n last, Settled (Stands d g k) Q last ∧ ∀ x : Limits, x.Allows n k →
    m x r st = last

variable {α β : Type} {d : Node} {g : Option Node} {k : Nat} {r : RenderSettings} {Q : α → Prop}
  {R : β → Prop}

def Any {α : Type} (_ : α) : Prop := True

namespace Settles

variable {m : Limits → Render α}

theorem of_run {m} (h : ∀ st, Stands d g k st → Settled (Stands d g k) Q (m r st)) :
    Settles d g k r Q fun _ => m := fun st hst => ⟨0, _, h st hst, fun _ _ => rfl⟩

theorem returns {a : α} (h : Q a) : Settles d g k r Q fun _ => pure a :=
  of_run fun _ hst => ⟨h, hst⟩

theorem fails {f} : Settles d g k r Q fun _ => fails f := of_run fun _ _ => by rintro ⟨⟩

theorem changes {f} (h : ∀ st, Stands d g k st → Stands d g k (f st)) :
    Settles d g k r Any fun _ => modify f := of_run fun st hst => ⟨trivial, h st hst⟩

theorem andThen {f : Limits → α → Render β} (hm : Settles d g k r Q m)
    (hf : ∀ a, Q a → Settles d g k r R fun x => f x a) :
    Settles d g k r R fun x => m x >>= f x := by
  intro st hst
  obtain ⟨n, ⟨result, t⟩, hl, hm⟩ := hm st hst
  cases result with
  | error e => exact ⟨n, (.error e, t), hl, fun x hx => bind_error (hm x hx) _⟩
  | ok a =>
    obtain ⟨n', last', hl', hf⟩ := hf a hl.1 t hl.2
    refine ⟨max n n', last', hl', fun x hx => ?_⟩
    have hfi := hm x (hx.mono (Nat.le_max_left n n') (Nat.le_refl k))
    have hs := hf x (hx.mono (Nat.le_max_right n n') (Nat.le_refl k))
    exact (bind_ok hfi _).trans hs

theorem looks {f : Limits → RenderState → Render β}
    (h : ∀ st, Stands d g k st → Settles d g k r R fun x => f x st) :
    Settles d g k r R fun x => get >>= f x :=
  fun st hst => h st hst st hst

theorem reads {f : Limits → RenderSettings → Render β} (h : Settles d g k r R fun x => f x r) :
    Settles d g k r R fun x => read >>= f x := h

theorem through {f : Limits → Item → Render Unit} {is : List Item}
    (h : ∀ i ∈ is, Settles d g k r Any fun x => f x i) :
    Settles d g k r Any fun x => is.forM (f x) := by
  induction is with
  | nil => exact returns trivial
  | cons i is ih =>
    obtain ⟨hi, his⟩ := List.forall_mem_cons.mp h
    exact andThen hi fun _ _ => ih his

theorem noting (hm : Settles d g k r Q m) (text : Bytes) :
    Settles d g k r Q fun x => noting text (m x) := by
  intro st hst
  obtain ⟨n, ⟨result, t⟩, hl, hm⟩ := hm st hst
  cases result with
  | ok a => exact ⟨n, (.ok a, t), hl, fun x hx => catch_ok (hm x hx) _⟩
  | error e =>
    cases e with
    | exhausted => exact absurd rfl hl
    | failure f =>
      refine ⟨n, (.error (.failure (f.note text)), t), ?_, fun x hx => catch_error (hm x hx) _⟩
      rintro ⟨⟩

theorem between {k' enter leave}
    (hm : Settles d g k' r Q m) (hk : k ≤ k')
    (he : ∀ st, Stands d g k st → Stands d g k' (enter st))
    (hl : ∀ st st', Stands d g k st → Stands d g k' st' → Stands d g k (leave st st')) :
    Settles d g k r Q fun x => between enter leave (m x) := by
  intro st hst
  obtain ⟨n, ⟨result, t⟩, hla, hm⟩ := hm (enter st) (he st hst)
  refine ⟨n, (result, leave st t), ?_, fun x hx => ?_⟩
  · cases result with
    | ok a => exact ⟨hla.1, hl st t hst hla.2⟩
    | error e => exact hla
  · simp only [Render.between, hm x (hx.mono (Nat.le_refl n) hk)]

theorem withLocals (hm : Settles d g k r Q m) (ls : List Local) :
    Settles d g k r Q fun x => withLocals ls (m x) := by
  refine hm.between (Nat.le_refl k) ?_ ?_
  · exact fun _ hst => { hst with }
  · exact fun _ _ _ hst => { hst with }

end Settles

section Evaluation

def Over (d : Node) (g : Option Node) (s : Scope) : Prop := s.data = d ∧ s.globals = g

theorem finding_over (d : Node) (g : Option Node) : Scope.KeptByFinding (Over d g) :=
  Scope.KeptByRebinding.finding fun _ _ _ _ _ hs => hs

theorem settles_eval {e : Eval α} (h : After (Over d g) e (fun _ => Over d g) fun _ => True) :
    Settles d g k r Any fun _ => eval e := by
  refine .of_run fun st hst => ?_
  have he := (h st.scope ⟨hst.data, hst.globals⟩).2
  generalize hrun : e st.scope = last at he
  obtain ⟨result, s⟩ := last
  rw [eval_apply hrun]
  cases result with
  | ok a => exact ⟨trivial, he.1, he.2, hst.depth⟩
  | error o => rintro ⟨⟩

end Evaluation

/-- A program that only writes, and in the same way for all bounds. -/
def Writes (r : RenderSettings) (m : Limits → Render α) : Prop :=
  ∀ st, ∃ x w, x ≠ .error .exhausted ∧ ∀ limits, m limits r st = (x, { st with written := w })

theorem Writes.andThen {m} {f : Limits → α → Render β} (hm : Writes r m)
    (hf : ∀ a, Writes r fun limits => f limits a) :
    Writes r fun limits => m limits >>= f limits := by
  intro st
  obtain ⟨x, w, hx, hrun⟩ := hm st
  cases x with
  | ok a =>
    obtain ⟨y, w', hy, hr'⟩ := hf a { st with written := w }
    exact ⟨y, w', hy, fun limits => (bind_ok (hrun limits) _).trans (hr' limits)⟩
  | error e =>
    refine ⟨.error e, w, fun he => hx ?_, fun limits => bind_error (hrun limits) _⟩
    cases he
    rfl

theorem Writes.catching {m} (hm : Writes r m) :
    Settles d g k r Any fun limits => tryCatch (m limits) fun _ => pure () := by
  intro st hst
  obtain ⟨x, w, -, hrun⟩ := hm st
  refine ⟨0, (.ok (), { st with written := w }), ⟨trivial, hst.data, hst.globals, hst.depth⟩,
    fun limits _ => ?_⟩
  cases x with
  | ok _ => exact catch_ok (hrun limits) _
  | error e => exact catch_error (hrun limits) _

theorem writes_writing (r : RenderSettings) (mark : Mark) :
    Writing r.parser mark (fun _ => r) (fun _ => mark) fun _ => Writes r where
  parser _ := rfl
  marks _ := .refl mark
  returns {_ a} := fun st => ⟨.ok a, st.written, by rintro ⟨⟩, fun _ => rfl⟩
  fails {_ f} := fun st => ⟨.error (.failure f), st.written, by rintro ⟨⟩, fun _ => rfl⟩
  noted _ := fun st => ⟨.error (.failure _), st.written, by rintro ⟨⟩, fun _ => rfl⟩
  andThen := .andThen
  looks h _ := fun st => h st st
  reads h := h
  write s := fun st => ⟨.ok (), s :: st.written, by rintro ⟨⟩, fun _ => rfl⟩

theorem settles_uniform (mark : Mark) :
    Uniform r.parser mark (fun _ => r) (fun _ => mark) fun _ => Settles d g k r Any where
  parser _ := rfl
  marks _ := .refl mark
  returns := .returns trivial
  fails := .fails
  noted _ := .of_run fun _ _ => by rintro ⟨⟩
  andThen hm hf := hm.andThen fun a _ => hf a
  looks h _ := .looks fun st _ => h st
  reads := .reads
  write _ := .changes fun _ hst => { hst with }
  evaluates h := settles_eval (h _ (finding_over d g))
  modifies _ := .changes fun _ hst => { hst with }
  encloses ls h := h.withLocals ls
  passes h := (h _ (writes_writing r mark)).catching
  types _ := .changes fun _ hst => { hst with }
  escapes _ _ := .changes fun _ hst => { hst with }

section Loops

variable {action : Limits → Render Unit}

/-- The children of a node of the trees `d` and `g`. -/
def childrenAt (d : Node) (g : Option Node) (p : Place) : List Node :=
  (((⟨d, g, [], 0⟩ : Scope).at? p).map (·.2.children)).getD []

theorem child?_run {st} (hst : Stands d g k st) (p : Place) (j : Nat) :
    child? p j r st = (.ok ((childrenAt d g p)[j]?.map fun c => ⟨p.tree, p.address ++ [c.name]⟩),
      st) := by
  have hat : st.scope.at? p = (⟨d, g, [], 0⟩ : Scope).at? p := by
    obtain ⟨tree, address⟩ := p
    unfold Scope.at? Scope.tree?
    cases tree with
    | data => rw [hst.data]
    | globals => rw [hst.globals]
  have hrun : child? p j r st = (.ok (do
      let found ← st.scope.at? p
      let c ← found.2.children[j]?
      pure ⟨p.tree, p.address ++ [c.name]⟩), st) := rfl
  rw [hrun, hat, childrenAt]
  rcases (⟨d, g, [], 0⟩ : Scope).at? p with _ | ⟨root, n⟩
  · rfl
  · cases hc : n.children[j]? <;> simp [hc]

/-- One round: the variable is set to the child, and the body is rendered. -/
def childRound (action : Render Unit) (p : Place) (j : Nat) (c : Node) : Render Unit := do
  modifyLocal fun l =>
    { l with isFirst := j == 0, binding := .node (some ⟨p.tree, p.address ++ [c.name]⟩) [] 0 }
  action

section Children

variable {st : RenderState} {p : Place} {j : Nat} (hst : Stands d g k st)

include hst

theorem children_of_some {c} (h : (childrenAt d g p)[j]? = some c) (action : Render Unit)
    (width : Nat) :
    children action p (width + 1) j r st = (childRound action p j c >>=
      fun _ => children action p width (j + 1)) r st := by
  have hc := child?_run (r := r) hst p j
  rw [h] at hc
  exact (bind_ok hc _).trans rfl

end Children

/-- The loop ends with the children, which rendering leaves as they are. -/
theorem settles_children (h : Settles d g k r Any action) (p : Place) (j : Nat) (st : RenderState)
    (hst : Stands d g k st) : ∃ n last, Settled (Stands d g k) Any last ∧
      ∀ (x : Limits) width, x.Allows n k → n ≤ width →
        children (action x) p width j r st = last := by
  induction hleft : (childrenAt d g p).length - j generalizing j st with
  | zero =>
    have hn : (childrenAt d g p)[j]? = none := List.getElem?_eq_none (by omega)
    refine ⟨1, (.ok (), st), ⟨trivial, hst⟩, fun x width _ hw => ?_⟩
    obtain _ | width := width
    · omega
    have hch := child?_run (r := r) hst p j
    rw [hn] at hch
    exact bind_ok hch _
  | succ left ih =>
    obtain ⟨c, hc⟩ : ∃ c, (childrenAt d g p)[j]? = some c := ⟨_,
      List.getElem?_eq_getElem (by omega)⟩
    have hr : Settles d g k r Any fun x => childRound (action x) p j c :=
      .andThen ((settles_uniform {}).modifies _) fun _ _ => h
    obtain ⟨n, ⟨result, t⟩, hl, hrun⟩ := hr st hst
    cases result with
    | error e =>
      refine ⟨n + 1, (.error e, t), hl, fun x width hx hw => ?_⟩
      obtain _ | width := width
      · omega
      rw [children_of_some hst hc]
      exact bind_error (hrun x (hx.mono (Nat.le_succ n) (Nat.le_refl k))) _
    | ok _ =>
      obtain ⟨n', last', hl', hre⟩ := ih (j + 1) t hl.2 (by omega)
      refine ⟨n + n' + 1, last', hl', fun x width hx hw => ?_⟩
      obtain _ | width := width
      · omega
      rw [children_of_some hst hc, bind_ok (hrun x (hx.mono (by omega) (Nat.le_refl k)))]
      exact hre x width (hx.mono (by omega) (Nat.le_refl k)) (by omega)

theorem settles_countRounds (rounds : Int) : Settles d g k r Any fun _ => countRounds rounds := by
  refine .looks fun st _ => .reads ?_
  dsimp only
  split
  · exact .fails
  · split
    · exact .fails
    · exact .changes fun _ hst => { hst with }

end Loops

section Levels

/-- One level deeper there is one level less to go. -/
theorem settles_deeper {m : Limits → Render α} (text : Bytes)
    (h : k < deepestNesting → Settles d g (k + 1) r Q fun x =>
      m { x with levels := x.levels + 1 }) :
    Settles d g k r Q fun x => deeper text (m x) := by
  intro st hst
  by_cases hk : k < deepestNesting
  · have hd : st.depth < deepestNesting := hst.depth ▸ hk
    obtain ⟨n, ⟨result, t⟩, hla, hrun⟩ :=
      h hk { st with depth := st.depth + 1 } ⟨hst.data, hst.globals, congrArg (· + 1) hst.depth⟩
    have hl : ∀ x : Limits, x.Allows n k → m x r { st with depth := st.depth + 1 } =
        (result, t) := by
      rintro ⟨fuel, width, levels, beyond⟩ ⟨hf, hw, hle⟩
      dsimp only at hf hw hle
      obtain _ | levels := levels
      · omega
      exact hrun ⟨fuel, width, levels, beyond⟩ ⟨hf, hw, by dsimp only; omega⟩
    cases result with
    | ok a =>
      refine ⟨n, (.ok a, { t with depth := t.depth - 1 }), ⟨hla.1, hla.2.data, hla.2.globals, ?_⟩,
        fun x hx => ?_⟩
      · rw [hla.2.depth, Nat.add_sub_cancel]
      · exact (deeper_above hd text (m x)).trans ((bind_ok (hl x hx) _).trans rfl)
    | error e =>
      refine ⟨n, (.error e, t), hla, fun x hx => ?_⟩
      exact (deeper_above hd text (m x)).trans (bind_error (hl x hx) _)
  · have hd : deepestNesting ≤ st.depth := hst.depth ▸ Nat.not_lt.mp hk
    exact ⟨0, _, by rintro ⟨⟩, fun x _ => deeper_at_deepest hd text (m x)⟩

theorem settles_call (h : ∀ m ∈ r.macros, k < deepestNesting →
    Settles d g (k + 1) r Any fun x => x.items m.body)
    (mark : Mark) (callee : Bytes) (args : List Expr) :
    Settles d g k r Any fun x => call x.below mark callee args := by
  refine .between (.reads ?_) (Nat.le_refl k) ?_ ?_
  · cases hf : r.macros.find? (·.signature.name == callee) with
    | none => exact .returns trivial
    | some m =>
      have hb := h m (List.mem_of_find?_eq_some hf)
      have hr := settles_uniform (d := d) (g := g) (k := k) (r := r) mark
      refine .andThen (hr.maps fun xe => hr.parameter xe.1 xe.2) fun ls _ => ?_
      exact (settles_deeper _ fun hk => (hb hk).noting _).withLocals ls
  · exact fun _ hst => { hst with }
  · exact fun _ _ _ hst => { hst with }

/-- The settings under which steady templates are rendered over the tree `d`. -/
structure SteadySettings (d : Node) (r : RenderSettings) : Prop where
  macros : ∀ m ∈ r.macros, ∀ i ∈ m.body, i.every isSteady = true
  files : r.parser.source.Steady (tag d)

theorem macrosOf_steady {is} (h : ∀ i ∈ is, i.every isSteady = true) :
    ∀ m ∈ macrosOf is, ∀ i ∈ m.body, i.every isSteady = true := by
  intro m hm
  obtain ⟨i, hi, hmi⟩ := mem_macrosOf.mp hm
  exact every_macros (h i hi) m hmi

theorem settles_parseState (mark : Mark) : Settles d g k r
    (fun start => Over d g start.scope ∧ start.builder.Every isSteady ∧ start.depth = k)
    fun _ => parseState mark := by
  refine .looks fun st hst => ?_
  cases escapeMode st.scope.data with
  | error f => exact .fails
  | ok mode => exact .reads (.returns ⟨⟨hst.data, hst.globals⟩, .start rfl _, hst.depth⟩)

/-- Reading a file needs texts to be nested no more deeply than there are levels. -/
theorem settles_parse (hr : r.parser.source.Steady (tag d)) {start}
    (hs : Over d g start.scope) (hb : start.builder.Every isSteady) (path : Bytes) :
    Settles d g k r (fun p => p.1 ≠ .error .exhausted ∧ p.2.builder.Every isSteady ∧
      start.depth ≤ p.2.depth)
      fun x => parse (file (text x.fuel) (some path)) start := by
  intro st hst
  let settings : ParserSettings := { r.parser with
    tag := tag start.scope.data
    marksFiles := marksFiles start.scope.data }
  have hste : settings.source.Steady settings.tag := by
    have htag : settings.tag = tag d := congrArg tag hs.1
    rw [htag]
    exact hr
  obtain ⟨he, hre, hd⟩ := (unstopped_file (d := start.depth) hste (Nat.lt_succ_self deepestNesting)
    (some path)).ends (s := start) hb (Nat.le_refl _)
  have hsp : Parse.Spares (Over d g) settings (file (text (deepestNesting + 1)) (some path)) :=
    spares_file (finding_over d g)
  have hs' := hsp.scope hs
  generalize hl : file (text (deepestNesting + 1)) (some path) settings start = last
    at he hre hd hs'
  obtain ⟨result, s⟩ := last
  refine ⟨deepestNesting + 1, (.ok (result, s), { st with scope := s.scope }),
    ⟨⟨he, hre, hd⟩, hs'.1, hs'.2, hst.depth⟩, fun x hx => ?_⟩
  have hf := continues_of_both (r := settings)
    (limited_file limited_none (.inr ⟨rfl, hx.fuel⟩) (some path)) start (hl ▸ he)
  have hrun : parse (file (text x.fuel) (some path)) start r st =
      (.ok (file (text x.fuel) (some path) settings start), { st with
        scope := (file (text x.fuel) (some path) settings start).2.scope }) := rfl
  rw [hf, hl] at hrun
  exact hrun

theorem settles_template {s} (hk : k ≤ s.depth)
    (h : Settles d g s.depth (nestedSettings s r) Any fun x => x.items s.builder.template) :
    Settles d g k r Any fun x => template x.items s := by
  have hi : Settles d g s.depth r Any fun x =>
    withReader (nestedSettings s) (x.items s.builder.template) := h
  unfold template
  refine hi.between hk ?_ ?_
  · exact fun _ hst => ⟨hst.data, hst.globals, rfl⟩
  · exact fun _ _ hst hst' => ⟨hst'.data, hst'.globals, hst.depth⟩

/-- Above the deepest level, steady items settle at every level below `k`. -/
def SettlesBelow (d : Node) (g : Option Node) (k : Nat) : Prop :=
  k < deepestNesting → ∀ r', SteadySettings d r' → ∀ k', k < k' →
    ∀ is, (∀ i ∈ is, i.every isSteady = true) →
    Settles d g k' r' Any fun x => x.items is

theorem settles_includeLater (hr : SteadySettings d r) (h : SettlesBelow d g k) (mark : Mark)
    (path : Bytes) :
    Settles d g k r Any fun x => includeLater x.fuel x.below mark path := by
  refine .reads (settles_deeper _ fun hk => ?_)
  refine .andThen (settles_parseState mark) fun start hs => ?_
  obtain ⟨hsc, hb, hd⟩ := hs
  refine .andThen (settles_parse hr.files hsc hb path) fun p hp => ?_
  obtain ⟨result, after⟩ := p
  obtain ⟨he, hre, hl⟩ := hp
  have hn : SteadySettings d (nestedSettings after r) := ⟨macrosOf_steady hre.template, hr.files⟩
  have ha : k + 1 ≤ after.depth := by
    rw [hd] at hl
    exact hl
  have ht : ∀ text, Settles d g (k + 1) r Any fun x => noting text (template x.items after) :=
    fun text => (settles_template ha (h hk _ hn _ ha _ hre.template)).noting text
  cases result with
  | ok _ => exact ht _
  | error stop =>
    cases stop with
    | exhausted => exact absurd rfl he
    | failure f =>
      dsimp only
      split
      · exact ht _
      · exact .andThen (Q := Any) .fails fun _ _ => ht _

end Levels

section Items

theorem settles_succ {i}
    (h : Settles d g k r Any fun x => actionWithin x.width x.fuel x.items x.below i) :
    Settles d g k r Any fun x => itemWithin x.width x.beyond x.fuel x.levels i := by
  intro st hst
  obtain ⟨n, last, hla, hrun⟩ := h st hst
  refine ⟨n + 1, last, hla, ?_⟩
  rintro ⟨fuel, width, levels, beyond⟩ ⟨hf, hw, hl⟩
  dsimp only at hf hw hl
  obtain _ | fuel := fuel
  · omega
  have hs := Limits.itemWithin_succ ⟨fuel, width, levels, beyond⟩
  dsimp only at hs ⊢
  rw [hs]
  exact hrun ⟨fuel, width, levels, beyond⟩ ⟨Nat.le_of_succ_le_succ hf, (Nat.le_succ n).trans hw, hl⟩

/-- An item settles if what is inside of it does, and what macros and files have in them one level
deeper. -/
theorem settles_actionWithin (hr : SteadySettings d r) (h : SettlesBelow d g k) {i}
    (hi : i.action.isSteady = true)
    (hb : Settles d g k r Any fun x => x.items i.body)
    (ho : Settles d g k r Any fun x => x.items i.otherwise) :
    Settles d g k r Any fun x => actionWithin x.width x.fuel x.items x.below i := by
  obtain ⟨mark, action, body, otherwise⟩ := i
  have hru := settles_uniform (d := d) (g := g) (k := k) (r := r) mark
  by_cases hs : action.shallow = true
  · refine hru.shallow (·.width) (·.fuel) (·.items) (·.below) (fun _ => body) (fun _ =>
      otherwise) hs hb ho
      (fun p st hst => ?_) ?_ fun _ => settles_countRounds
    · obtain ⟨n, last, hl, hrun⟩ := settles_children hb p 0 st hst
      exact ⟨n, last, hl, fun x hx => hrun x x.width hx hx.width⟩
    · rintro ⟨target, value, rfl⟩
      cases hi
  · cases action with
    | lvar arg => cases hi
    | includeLater arg =>
      exact hru.later (f := fun x _ => includeLater x.fuel x.below mark) (fun _ =>
        settles_includeLater hr h mark) arg
    | call callee args =>
      refine settles_call (fun m hm hk => ?_) mark callee args
      exact h hk r hr (k + 1) (Nat.lt_succ_self k) m.body (hr.macros m hm)
    | _ => exact absurd rfl hs

/-- Rendering steady items ends by itself. The outer induction is on the levels that are left, the
inner one on the items. -/
theorem settles_items (hr : SteadySettings d r) {is} (his : ∀ i ∈ is, i.every isSteady = true) :
    Settles d g k r Any fun x => x.items is := by
  induction hleft : deepestNesting - k using Nat.strong_induction_on generalizing k r is with
  | _ left ih =>
    have hb : SettlesBelow d g k :=
      fun hd r' hr' k' hk is his => ih (deepestNesting - k') (by omega) hr' his rfl
    have hit : ∀ i : Item, i.every isSteady = true →
        Settles d g k r Any fun x => itemWithin x.width x.beyond x.fuel x.levels i := by
      intro i
      induction i using nested_induction with
      | item mark action body otherwise ihbody ihother =>
        intro hi
        obtain ⟨ha, hbo, ho⟩ := every_iff.mp hi
        apply settles_succ
        apply settles_actionWithin hr hb ha
        · exact .through fun i hi => ihbody i hi (hbo i hi)
        · exact .through fun i hi => ihother i hi (ho i hi)
    exact .through fun i hi => hit i (his i hi)

end Items

end TemplateKit.Render
