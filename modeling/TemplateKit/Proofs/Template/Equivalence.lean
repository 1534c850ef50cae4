import TemplateKit.Proofs.Template.Agreement

/-!
# Templates that are alike are rendered alike

Rendering agrees with rendering the core of a template, and so do the renderings of two templates
with the same core. Only the bound on nesting can tell them apart, because an item that writes
nothing may be nested more deeply than any other.
-/

namespace TemplateKit

open Program Configuration Item Render List Parse

/-- Settings with which renderings agree. The bodies of macros are related by `B`. -/
structure RenderSettings.Like (B : List Item → List Item → Prop) (r r' : RenderSettings) :
    Prop where
  parser : r.parser = r'.parser
  macros : List.Forall₂ (fun m m' => m.signature = m'.signature ∧
    B m.body m'.body) r.macros r'.macros
  loopLimit : r.loopLimit = r'.loopLimit
  logName : r.logName = r'.logName

theorem RenderSettings.Like.same (r : RenderSettings) : r.Like Eq r :=
  ⟨rfl, forall₂_same.mpr fun _ _ => ⟨rfl, rfl⟩, rfl, rfl⟩

namespace Render

variable {α : Type} {L : Option Kind → Prop} {D : Nat → Nat → Prop} {e : Option AutoEscaper}
  {j k k' : Nat} {r r' : RenderSettings}
  {B : List Item → List Item → Prop} {items items' : List Item → Render Unit} {mark mark' : Mark}

variable {fuel : Nat} {i : Item}

/-- Two ways of rendering that agree on items related by `B`, the first one `j` levels below the
second. -/
def RendersAlike (L : Option Kind → Prop) (j : Nat) (e : Option AutoEscaper)
    (B : List Item → List Item → Prop) (items items' : List Item → Render Unit) : Prop :=
  ∀ r r', r.Like B r' → (r.parser.auto.enabled = true → e = none) → ∀ k is is', B is is' →
    Agrees L (Below j) e (k + j) k r r' (items is) (items' is')

/-- Reading in the middle of rendering starts at the level at which it is. -/
theorem simulates_parseState (hlog : r.logName = r'.logName) (hmark : mark.Alike mark') :
    Simulates (fun stop => L stop.kind?) (RenderState.Like (Depths (k + j) k) e) (parseState mark r)
      (parseState mark' r')
      (fun a st a' st' => (a.depth = k + j ∧ a' = { a with depth := k }) ∧
        st.Like (Depths (k + j) k) e st')
      (fun x st x' st' => x.kind? = x'.kind? ∧ st.Like (Below j) e st') := by
  refine bothLook fun st st' hst => ?_
  rw [← hst.scope, hst.depth.1, hst.depth.2, hmark.escape]
  have hend : st.Like (Below j) e st' :=
    hst.relax fun _ _ h => h.1.trans (congrArg (· + j) h.2.symm)
  cases escapeMode st.scope.data with
  | error f =>
    apply bothStop
    rintro _ _ ⟨rfl, rfl⟩
    exact ⟨rfl, hend⟩
  | ok mode =>
    refine bothRead (bothReturn ?_)
    rintro _ _ ⟨rfl, rfl⟩
    exact ⟨⟨rfl, by rw [hlog]⟩, hst⟩

theorem agrees_parse {m m' : Parse Unit} {p : ParseState}
    {f f' : Except Stop Unit × ParseState → Render α} (hparser : r.parser = r'.parser)
    (hm : ∀ settings, Parse.Both (limited L j) settings m m') (hp : p.depth = k + j)
    (hf : ∀ x (s : ParseState) d, s.depth = d + j →
      Agrees L (Below j) e (k + j) k r r' (f (x, s)) (f' (x, { s with depth := d })))
    (hsto : ∀ x s st, L x.kind? → ∃ x₁ st₁, f (.error x, s) r st = (.error x₁, st₁) ∧ L x₁.kind?) :
    Agrees L (Below j) e (k + j) k r r' (parse m p >>= f)
      (parse m' { p with depth := k } >>= f') := by
  intro st st' hst
  let settings : ParserSettings := { r.parser with
    tag := tag p.scope.data
    marksFiles := marksFiles p.scope.data }
  have hrun : (parse m p >>= f) r st =
      f (m settings p) r { st with scope := (m settings p).2.scope } := rfl
  have hr' : (parse m' { p with depth := k } >>= f') r' st' =
      f' (m' settings { p with depth := k }) r'
      { st' with scope := (m' settings { p with depth := k }).2.scope } := by
    have hse : ({ r'.parser with
        tag := tag p.scope.data
        marksFiles := marksFiles p.scope.data } : ParserSettings) = settings := by rw [← hparser]
    rw [← hse]
    rfl
  have he := hm settings p { p with depth := k } ⟨rfl, .mk (b := p.builder) (d := k) rfl hp trivial⟩
  rw [hrun, hr']
  generalize m settings p = last at he
  generalize m' settings { p with depth := k } = last' at he
  have hn : ∀ x (s s' : ParseState), (limited L j).State s s' →
      Tracks (fun stop => L stop.kind?) (fun a st a' st' => a = a' ∧
        st.Like (Depths (k + j) k) e st')
        (fun x st x' st' => x.kind? = x'.kind? ∧ st.Like (Below j) e st')
        (f (x, s) r { st with scope := s.scope })
        (f' (x, s') r' { st' with scope := s'.scope }) := by
    rintro x s _ ⟨rfl, hd, -⟩
    exact hf x s _ hd _ _ { hst with scope := rfl }
  cases he with
  | ok h =>
    obtain ⟨rfl, -, hs⟩ := h
    exact hn _ _ _ hs
  | error h =>
    obtain ⟨⟨rfl, -⟩, -, hs⟩ := h
    exact hn _ _ _ hs
  | limit h =>
    obtain ⟨x₁, st₁, hl, hk⟩ := hsto _ _ _ h
    rw [hl]
    exact .limit hk

/-- The settings for what was read in the middle of rendering. -/
def nestedSettings (s : ParseState) (r : RenderSettings) : RenderSettings :=
  { r with
    macros := macrosOf s.builder.template
    loopLimit := 0
    whereabouts := s.whereabouts
    logName := s.logName }

/-- The state in which a template that was read in the middle of rendering starts. -/
def nestedStart (s : ParseState) (st : RenderState) : RenderState :=
  { st with rounds := 0, depth := s.depth, whenUndefined := .undefined, contentTypes := [] }

section Deep

variable (hitems : RendersAlike L j e B items items') (hB : ∀ is, B is is) (hr : r.Like B r')
  (hauto : r.parser.auto.enabled = true → e = none)

include hitems hB hr hauto

/-- What was read in the middle of rendering has macros of its own and no rounds to share with the
loops around it. -/
theorem agrees_template (s : ParseState) {d} (hd : s.depth = d + j) :
    Agrees L (Below j) e (k + j) k r
      r' (template items s) (template items' { s with depth := d }) := by
  have hm : (nestedSettings s r).Like B (nestedSettings s r') :=
    ⟨hr.parser, forall₂_same.mpr fun m _ => ⟨rfl, hB _⟩, rfl, rfl⟩
  have hi : Agrees L (Below j) e (d + j) d r r'
      (withReader (nestedSettings s) (items s.builder.template))
      (withReader (nestedSettings s) (items' s.builder.template)) :=
    hitems _ _ hm hauto d _ _ (hB _)
  unfold template
  refine agrees_between ?_ ?_ ?_ hi
  · exact fun _ _ hst => { hst with rounds := rfl, mode := rfl, depth := ⟨hd, rfl⟩ }
  · exact fun _ _ _ _ hst ht =>
      { ht with rounds := hst.rounds, mode := hst.mode, depth := hst.depth }
  · exact fun _ _ _ _ hst ht => { ht with
      rounds := hst.rounds, mode := hst.mode,
        depth := hst.depth.1.trans (congrArg (· + j) hst.depth.2.symm) }

variable {fuel fuel' : Nat} (hL : Parse.Limited L j) (hfuel : fuel = fuel' ∨ L none ∧ fuel ≤ fuel')
  (hmark : mark.Alike mark')

include hL hfuel hmark

theorem agrees_lvar (v : Value) (s : Bytes) :
    Agrees L (Below j) e (k + j) k r r' (lvar fuel items mark v s)
      (lvar fuel' items' mark' v s) := by
  refine bothThen (simulates_parseState hr.logName hmark) fun start start' =>
    Simulates.given fun hs => Agrees.reads ?_
  obtain ⟨hde, rfl⟩ := hs
  rw [hr.parser]
  refine agrees_parse (p := { start with logName := _ }) hr.parser (fun _ =>
    limited_text hL hfuel s) hde
    (fun x after d hd => ?_) fun x _ _ hx => ⟨x, _, rfl, hx⟩
  cases x with
  | ok _ => exact agrees_template hitems hB hr hauto { after with logName := start.logName } hd
  | error stop => exact .stops rfl rfl

theorem agrees_includeLater (path : Bytes) :
    Agrees L (Below j) e (k + j) k r r' (includeLater fuel items mark path)
      (includeLater fuel' items' mark' path) := by
  refine .reads (agrees_deeper hL ?_ _ _)
  refine bothThen (simulates_parseState hr.logName hmark) fun start start' =>
    Simulates.given fun hs => ?_
  obtain ⟨hde, rfl⟩ := hs
  refine agrees_parse hr.parser (fun _ => limited_file hL hfuel (some path)) hde
    (fun x after d hd => ?_) ?_
  · have ht : ∀ text text',
        Agrees L (Below j) e (k + 1 + j) (k + 1) r r' (noting text (template items after))
        (noting text' (template items' { after with depth := d })) :=
      fun _ _ => agrees_noting (agrees_template hitems hB hr hauto after hd) _ _
    cases x with
    | ok _ => exact ht _ _
    | error stop =>
      cases stop with
      | exhausted => exact .stops rfl rfl
      | failure f =>
        dsimp only
        rw [hmark.required]
        split
        · exact ht _ _
        · exact .andThen (.fails rfl rfl) fun _ => ht _ _
  · intro x s st hx
    cases x with
    | exhausted => exact ⟨_, _, rfl, hx⟩
    | failure f =>
      -- A failure that is passed over is none of the limits.
      have hk : f.isA .notFound = false := by
        rw [isA_notFound, beq_eq_false_iff_ne]
        intro hf
        exact hL.found (hf ▸ hx)
      dsimp only
      rw [hk, Bool.and_false]
      exact ⟨_, _, rfl, hx⟩

end Deep

theorem find?_forall₂ {R : Macro → Macro → Prop} {ms ms' : List Macro} (h : List.Forall₂ R ms ms')
    (hR : ∀ m m', R m m' → m.signature = m'.signature) (name : Bytes) :
    (ms.find? (·.signature.name == name) = none ∧ ms'.find? (·.signature.name == name) = none) ∨
      ∃ m m', ms.find? (·.signature.name == name) = some m ∧ ms'.find? (·.signature.name == name) =
        some m' ∧ R m m' := by
  induction h with
  | nil => exact .inl ⟨rfl, rfl⟩
  | @cons m m' ms ms' hm _ ih =>
    by_cases hn : (m.signature.name == name) = true
    · have hn' : (m'.signature.name == name) = true := hR m m' hm ▸ hn
      exact .inr ⟨m, m', find?_cons_of_pos hn, find?_cons_of_pos hn', hm⟩
    · have hn' : ¬(m'.signature.name == name) = true := hR m m' hm ▸ hn
      simp only [find?_cons, Bool.eq_false_iff.mpr hn, Bool.eq_false_iff.mpr hn']
      exact ih

theorem agrees_call (hL : Parse.Limited L j) (hitems : RendersAlike L j e B items items')
    (hr : r.Like B r')
    (hauto : r.parser.auto.enabled = true → e = none) (hmark : mark.Alike mark') (callee : Bytes)
    (args : List Expr) :
    Agrees L (Below j) e (k + j) k r r' (call items mark callee args)
      (call items' mark' callee args) := by
  have hmo : ∀ u, modeOf mark u = modeOf mark' u := fun u => by rw [modeOf, modeOf, hmark.escape]
  refine agrees_between (fun _ _ hst =>
    { hst with mode := (hmo _).trans (congrArg (modeOf mark') hst.mode) })
    (fun _ _ _ _ hst ht => { ht with mode := hst.mode })
    (fun _ _ _ _ hst ht => { ht with mode := hst.mode }) (.reads ?_)
  rcases find?_forall₂ hr.macros (fun _ _ h => h.1) callee with ⟨hn, hn'⟩ | ⟨m, m', hs, hs', hm⟩
  · rw [hn, hn']
    exact .returns
  · rw [hs, hs']
    dsimp only
    rw [hm.1]
    have hru := Agrees.uniform (L := L) (D := Below j) (e := e) hr.parser hmark (.add j k)
      (hr.parser ▸ hauto)
    refine .andThen (hru.maps fun xe => hru.parameter xe.1 xe.2) fun ls => ?_
    refine agrees_withLocals (agrees_deeper hL (agrees_noting ?_ _ _) _ _) ls
    exact hitems r r' hr hauto (k + 1) _ _ hm.2

section Items

variable {i i' : Item} (hparser : r.parser = r'.parser)
  (hauto : r.parser.auto.enabled = true → e = none)
  (hmark : i.mark.Alike i'.mark) (haction : i.action = i'.action)

include hparser hauto hmark haction

/-- Items that go no level deeper agree at any two depths. -/
theorem agrees_shallow {fuel fuel'} (hs : i.action.shallow = true)
    (hl : (∃ x range, i.action = .loop x range) → r.loopLimit = r'.loopLimit) (hD : D k k')
    (hb : Agrees L D e k k' r r' (items i.body) (items' i'.body))
    (ho : Agrees L D e k k' r r' (items i.otherwise) (items' i'.otherwise)) :
    Agrees L D e k k' r r' (action fuel items i) (action fuel' items' i') := by
  obtain ⟨mark, action, body, otherwise⟩ := i
  obtain ⟨mark', action', body', otherwise'⟩ := i'
  obtain rfl : action = action' := haction
  have hru := Agrees.uniform (L := L) (e := e) hparser hmark hD (hparser ▸ hauto)
  rw [← actionWithin_childLimit, ← actionWithin_childLimit]
  exact hru.shallow (fun _ => childLimit) (either fuel fuel') (either items items')
    (either items items') (either body body') (either otherwise otherwise') hs hb ho
    (fun place => hru.children (a := fun b => either items items' b (either body body' b))
      hb place _ _)
    (fun _ => agrees_store hD) fun hlo => agrees_countRounds (hl hlo) hD

/-- Items with the same command agree if what is inside of them does. -/
theorem agrees_action {fuel fuel'} (hL : Parse.Limited L j)
    (hfuel : fuel = fuel' ∨ L none ∧ fuel ≤ fuel')
    (hitems : RendersAlike L j e B items items') (hB : ∀ is, B is is) (hr : r.Like B r')
    (hb : B i.body i'.body) (ho : B i.otherwise i'.otherwise) :
    Agrees L (Below j) e (k + j) k r r' (action fuel items i) (action fuel' items' i') := by
  by_cases hs : i.action.shallow = true
  · exact agrees_shallow hparser hauto hmark haction hs (fun _ => hr.loopLimit) rfl
      (hitems r r' hr hauto k _ _ hb) (hitems r r' hr hauto k _ _ ho)
  · obtain ⟨mark, action, body, otherwise⟩ := i
    obtain ⟨mark', action', body', otherwise'⟩ := i'
    obtain rfl : action = action' := haction
    have hru := Agrees.uniform (L := L) (D := Below j) (e := e) hparser hmark (.add j k)
      (hparser ▸ hauto)
    cases action with
    | lvar arg =>
      exact hru.later (f := either (lvar fuel items mark) (lvar fuel' items' mark'))
        (fun v s => agrees_lvar hitems hB hr hauto hL hfuel hmark v s) arg
    | includeLater arg =>
      exact hru.later (f := either (fun _ => includeLater fuel items mark) fun _ =>
        includeLater fuel' items' mark')
        (fun _ s => agrees_includeLater hitems hB hr hauto hL hfuel hmark s) arg
    | call callee args => exact agrees_call hL hitems hr hauto hmark callee args
    | _ => exact absurd rfl hs

end Items

theorem Agrees.through {is : List Item} {f f' : Item → Render Unit}
    (h : ∀ i ∈ is, Agrees L D e k k' r r' (f i) (f' i)) :
    Agrees L D e k k' r r' (is.forM f) (is.forM f') := by
  induction is with
  | nil => exact .returns
  | cons i is ih =>
    exact .andThen (h i mem_cons_self) fun _ => ih fun i hi => h i (mem_cons_of_mem _ hi)

/-- The same items are rendered alike with a larger bound on nesting, and some levels deeper. -/
theorem rendersAlike_same (hL : Parse.Limited L j) {fuel'}
    (hfuel : fuel = fuel' ∨ L none ∧ fuel ≤ fuel') :
    RendersAlike L j e Eq (Render.items fuel) (Render.items fuel') := by
  induction fuel generalizing fuel' with
  | zero =>
    rintro r r' - - k is _ rfl
    refine .through fun i _ => ?_
    rcases hfuel with rfl | ⟨hp, -⟩
    · exact .stops rfl rfl
    · exact firstStops hp
  | succ fuel ih =>
    obtain ⟨fuel', rfl⟩ : ∃ n, fuel' = n + 1 := ⟨fuel' - 1, by omega⟩
    have hi : fuel = fuel' ∨ L none ∧ fuel ≤ fuel' := hfuel.imp (by omega) fun h => ⟨h.1, by omega⟩
    rintro r r' hr hauto k is _ rfl
    refine .through fun i _ => ?_
    exact agrees_action hr.parser hauto (.refl _) rfl hL hi (ih hi) (fun _ => rfl) hr rfl rfl

theorem agrees_bytes (fuel : Nat) (s : Bytes) :
    Agrees (fun _ => False) Eq e k k r r' (Render.items (fuel + 1) (s.map byte)) (write s) := by
  have hw : ∀ (s : Bytes) (st : RenderState), Render.items (fuel + 1) (s.map byte) r st =
      (.ok (), { st with written := (s.map ([·])).reverse ++ st.written }) := by
    intro s
    induction s with
    | nil => exact fun _ => rfl
    | cons b s ih =>
      intro st
      have hs : items (fuel + 1) ((b :: s).map byte) r st =
          items (fuel + 1) (s.map byte) r { st with written := [b] :: st.written } := rfl
      rw [hs, ih]
      simp
  intro st st' hst
  rw [hw]
  refine .ok ⟨rfl, { hst with output := ?_ }⟩
  rw [output_write, ← hst.output]
  simp [RenderState.output, ← flatMap_def]

theorem item_inert (h : i.action = .literal none ∨ ∃ name, i.action = .evar name) (fuel : Nat) :
    item (fuel + 1) i = pure () := by
  obtain ⟨mark, action, body, otherwise⟩ := i
  rcases h with h | ⟨name, h⟩
  · obtain rfl : action = _ := h
    rfl
  · obtain rfl : action = _ := h
    rfl

theorem item_literal {s} (h : i.action = .literal (some s))
    (hauto : i.mark.autoEscape = false) (fuel : Nat) : item (fuel + 1) i = write s := by
  obtain ⟨mark, action, body, otherwise⟩ := i
  obtain rfl : action = _ := h
  exact if_neg (Bool.eq_false_iff.mp hauto)

theorem items_append (fuel : Nat) (is js : List Item) : Render.items fuel (is ++ js) = (do
    Render.items fuel is
    Render.items fuel js) := forM_append

theorem items_singleton (fuel : Nat) (i : Item) : Render.items fuel [i] = Render.item fuel i := by
  have hnil : items fuel [i] = (do
      item fuel i
      pure ()) := rfl
  rw [hnil, bind_pure_unit]

/-- What is left of an item in a core. -/
def kept (i : Item) : Item := ⟨i.mark.core, i.action, coreOf i.body, coreOf i.otherwise⟩

theorem rendersAlike_core (fuel : Nat) :
    RendersAlike (· = none) 0 e (fun is is' => is = is' ∨
      coreOf is = is') (Render.items fuel) (Render.items fuel) := by
  induction fuel with
  | zero =>
    rintro r r' - - k is is' hB
    cases is with
    | nil =>
      obtain rfl : [] = is' := hB.elim id id
      exact .returns
    | cons i is => exact fun _ _ _ => .limit rfl
  | succ fuel ih =>
    rintro r r' hr hauto k is is' (rfl | rfl)
    · refine .through fun i _ => ?_
      exact agrees_action hr.parser hauto (.refl _) rfl limited_none (.inl rfl) ih (fun _ =>
        .inl rfl) hr (.inl rfl) (.inl rfl)
    · induction is with
      | nil => exact .returns
      | cons i is ihis =>
        rw [coreOf, items_append]
        have hmark : i.mark.Alike (kept i).mark := i.mark.alike_core
        refine .andThen ?_ fun _ => ihis
        -- the core of an item is rendered as the item
        rcases core_cases i with ⟨hc, hi⟩ | ⟨s, haction, hp, hc⟩ | hc
        · rw [hc, item_inert hi]
          exact .returns
        · rw [hc, item_literal haction hp]
          exact (agrees_bytes fuel s).symm
        · rw [hc, items_singleton]
          exact agrees_action hr.parser hauto hmark rfl limited_none (.inl rfl) ih (fun _ =>
            .inl rfl) hr (.inr rfl) (.inr rfl)

/-- Items are rendered as their cores, with one more level in case that one writes nothing. -/
theorem agrees_of_cores (is : List Item)
    (h : ∀ i, Agrees (· = none) Eq e k k r r' (item fuel (kept i)) (item (fuel + 1) i)) :
    Agrees (· = none) Eq e k k r r' (Render.items fuel (coreOf is))
      (Render.items (fuel + 1) is) := by
  induction is with
  | nil => exact .returns
  | cons i is ih =>
    rw [coreOf, items_append]
    refine .andThen ?_ fun _ => ih
    rcases core_cases i with ⟨hc, hi⟩ | ⟨s, haction, hp, hc⟩ | hc
    · rw [hc, item_inert hi]
      exact .returns
    · rw [hc, item_literal haction hp]
      cases fuel with
      | zero =>
        cases s with
        | nil => exact (agrees_bytes 0 []).weaken
        | cons b s => exact fun _ _ _ => .limit rfl
      | succ fuel => exact (agrees_bytes fuel s).weaken
    · rw [hc, items_singleton]
      exact h i

theorem rendersAlike_of_core (fuel : Nat) :
    RendersAlike (· = none) 0 e (fun is is' => is = is' ∨ is = coreOf is') (Render.items fuel)
      (Render.items (fuel + 1)) := by
  induction fuel with
  | zero =>
    rintro r r' - - k is is' (rfl | rfl)
    · exact .through fun i _ => firstStops rfl
    · exact agrees_of_cores is' fun i => firstStops rfl
  | succ fuel ih =>
    have hfuel : fuel = fuel + 1 ∨ (none : Option Kind) = none ∧ fuel ≤ fuel + 1 :=
      .inr ⟨rfl, fuel.le_succ⟩
    rintro r r' hr hauto k is is' (rfl | rfl)
    · refine .through fun i _ => ?_
      exact agrees_action hr.parser hauto (.refl _) rfl limited_none hfuel ih (fun _ => .inl rfl) hr
        (.inl rfl) (.inl rfl)
    · refine agrees_of_cores is' fun i => ?_
      have hmark : (kept i).mark.Alike i.mark := ⟨rfl, rfl, rfl⟩
      exact agrees_action hr.parser hauto hmark rfl limited_none hfuel ih (fun _ => .inl rfl) hr
        (.inr rfl) (.inr rfl)

/-- Items that are alike agree, where the second ones may be nested one level more deeply. -/
theorem agrees_alike {is is'} (h : Item.Alike is is') (hparser : r.parser = r'.parser)
    (hm : r.macros.map Macro.core = r'.macros.map Macro.core) (hl : r.loopLimit = r'.loopLimit)
    (hlog : r.logName = r'.logName) (hauto : r.parser.auto.enabled = true → e = none) (fuel : Nat) :
    Agrees (· = none) Eq e k k r r' (Render.items fuel is) (Render.items (fuel + 1) is') := by
  let between : RenderSettings := { r with macros := r.macros.map Macro.core }
  have hr : r.Like (fun is is' => is = is' ∨ coreOf is = is') between := by
    refine ⟨rfl, ?_, rfl, rfl⟩
    rw [forall₂_map_right_iff]
    exact forall₂_same.mpr fun m _ => ⟨rfl, .inr rfl⟩
  have hr' : between.Like (fun is is' => is = is' ∨ is = coreOf is') r' := by
    refine ⟨hparser, ?_, hl, hlog⟩
    change List.Forall₂ _ (r.macros.map Macro.core) _
    rw [hm, forall₂_map_left_iff]
    exact forall₂_same.mpr fun m _ => ⟨rfl, .inr rfl⟩
  intro st st' hst
  have hs : st.Like (Depths k k) e st :=
    ⟨rfl, rfl, rfl, hst.kept, rfl, rfl, hst.depth.1, hst.depth.1⟩
  have hc := rendersAlike_core fuel r between hr hauto k is (coreOf is) (.inr rfl) st st hs
  have hb := rendersAlike_of_core fuel between r' hr' hauto k (coreOf is) is' (.inr h) st st' hst
  refine hc.trans hb ?_ ?_ ?_
  · exact fun _ _ _ _ h hl => h.1.trans hl
  · rintro _ t _ t' _ t'' ⟨-, ht⟩ ⟨-, ht'⟩
    exact ⟨rfl, ht.scope.trans ht'.scope, ht.output.trans ht'.output,
      ht.escaper.trans ht'.escaper, ht.kept,
      ht.rounds.trans ht'.rounds, ht.mode.trans ht'.mode, ht.depth.1, ht'.depth.2⟩
  · rintro x t x' t' x'' t'' ⟨hk, ht⟩ ⟨hk', ht'⟩
    exact ⟨hk.trans hk', ht.scope.trans ht'.scope, ht.output.trans ht'.output,
      ht.escaper.trans ht'.escaper, ht.kept,
      ht.rounds.trans ht'.rounds, ht.mode.trans ht'.mode, ht.depth.trans ht'.depth⟩

end Render

end TemplateKit
