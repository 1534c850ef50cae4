import TemplateKit.Proofs.Template.Blocks
import TemplateKit.Proofs.Template.Builder

/-!
# The structure of a template

The text of a composition is read without a fault, and what is read is nested as the composition is.
It is rendered as the composition, for all data.
-/

namespace TemplateKit

open Builder Parse List

variable {text : Bytes → Parse Unit} {before : Reading} {r : ParserSettings}

/-- Reading the text of a composition up to the command behind it leaves the items of the
composition. -/
def Composition.Reads (text : Bytes → Parse Unit) (before : Reading) (r : ParserSettings)
    (c : Composition r.tag r.functions) : Prop :=
  ∀ (s : ParseState) (z : Sequel) (fuel : Nat), s.whereabouts.reading.stop = none →
    s.builder.Even → z.Sound →
    (c.print ++ z.print r.tag).length < fuel →
    ∃ k s', Parse.pieces text before fuel (c.print ++ z.print r.tag) r s =
      z.resume text before k r s' ∧
      z.Room k s'.whereabouts.reading.offset ∧
      s.Grows (c.items (.of r s.logName) s.builder.escape) s'

/-- Reading what closes a block: the block `f` with `is` for what stands otherwise. The mode in a
branch is that around it. -/
def ClosesBlock (text : Bytes → Parse Unit) (before : Reading) (r : ParserSettings) (block : Block)
    (is : Notes → EscapeMode → List Item) (z : Bytes → Sequel) : Prop :=
  ∀ (s : ParseState) (f : Frame) (frames : List Frame) (rest : Bytes) (fuel : Nat),
    s.whereabouts.reading.stop = none →
    s.builder.frames = f :: frames → f.block = block →
    (block = .branch → f.escape = escape { s.builder with frames }) →
    s.builder.escapeChanged = false → (z rest).Room fuel s.whereabouts.reading.offset →
    ∃ k s', (z rest).resume text before fuel r s = Parse.pieces text before k rest r s' ∧
      rest.length < k ∧
      s.builder.Closes f (is (.of r s.logName) f.escape) s'.builder ∧ s'.logName = s.logName ∧
      s'.whereabouts.reading.stop = none

theorem closesBlock_alone {c block} (hcl : ∀ t, command text c t = build (·.close))
    (ha : c.allowedIn block = true) (hbl : block ≠ .otherwise) :
    ClosesBlock text before r block (fun _ _ => []) (.command c.alone) := by
  rintro s f frames rest fuel hs hf rfl - hch hr
  rw [← block_eq hf] at ha
  obtain ⟨s', hrun, hb, hlog, hs'⟩ := resume_close text before rest fuel hs hcl ha
  have hc := closes_close hf hch hbl
  rw [← hb] at hc
  exact ⟨fuel, s', hrun, hr.1, hc, hlog, hs'⟩

namespace Alternatives

variable {tag : Bytes} {fs : List Function}

/-- The parts of a branch behind its first one, with the text behind the branch. -/
def sequel (rest : Bytes) : Alternatives tag fs → Sequel
  | closed => .command Command.endBranch.alone rest
  | otherwise body => .command Command.otherwise.alone (body.print ++
      (enclose tag Command.endBranch.alone ++ rest))
  | elif condition body more => .command (Command.elif.asking condition.source) (body.print ++
      (more.print ++ rest))

theorem print_sequel (a : Alternatives tag fs) (rest : Bytes) :
    (a.sequel rest).print tag = a.print ++ rest := by
  cases a with
  | closed => rfl
  | otherwise | elif => simp only [sequel, Sequel.print, print, append_assoc]

theorem sound_sequel (a : Alternatives tag fs) (rest : Bytes) : (a.sequel rest).Sound := by
  cases a with
  | closed => exact Command.inner_alone .endBranch
  | otherwise body => exact Command.inner_alone .otherwise
  | elif condition body more => exact Command.inner_asking .elif condition.enclosed

/-- Reading the other parts of a branch closes it, with these parts inside. -/
def Reads (text : Bytes → Parse Unit) (before : Reading) (r : ParserSettings)
    (a : Alternatives r.tag r.functions) : Prop :=
  ClosesBlock text before r .branch (fun n mode => a.items n mode) (fun rest => a.sequel rest)

end Alternatives

namespace Composition

variable {body rest : Composition r.tag r.functions}

theorem reads_opened (l : Literal r.tag) {c : Command} {arg : Bytes} {block : Block}
    {mode : EscapeMode → EscapeMode} {mark : Notes → EscapeMode → Mark} {action : Notes → Action}
    {is : Notes → EscapeMode → List Item} {closer : Bytes → Sequel}
    (hb : Parse.OpensBlock text r c arg block mode mark action)
    (hmo : block = .branch → mode = id) (hbo : body.Reads text before r)
    (hcl : ClosesBlock text before r block is closer) (hs : ∀ rest, (closer rest).Sound)
    (hr : rest.Reads text before r) {s : ParseState} {z : Sequel} {fuel : Nat}
    (hst : s.whereabouts.reading.stop = none) (hev : s.builder.Even) (hz : z.Sound) {whole : Bytes}
    (hw : whole = l.text ++ (enclose r.tag (c.asking arg) ++
      (body.print ++ (closer (rest.print ++ z.print r.tag)).print r.tag)))
    (hf : whole.length < fuel) : ∃ k s', Parse.pieces text before fuel whole r s =
      z.resume text before k r s' ∧
      z.Room k s'.whereabouts.reading.offset ∧
      s.Grows (l.item (.of r s.logName) :: ⟨mark (.of r s.logName) s.builder.escape,
        action (.of r s.logName),
        body.items (.of r s.logName) (mode s.builder.escape),
          is (.of r s.logName) (mode s.builder.escape)⟩ ::
          rest.items (.of r s.logName) s.builder.escape) s' := by
  subst hw
  -- the command that closes the block, and the one that opens it
  let z₂ : Sequel := closer (rest.print ++ z.print r.tag)
  let z₁ : Sequel := .command (c.asking arg) (body.print ++ z₂.print r.tag)
  obtain ⟨k₁, s₁, hru₁, hr₁, hs₁⟩ :=
    pieces_literal text before l (z := z₁) (Command.inner_asking _ hb.enclosed) hst hf
  obtain ⟨g, hm, hop⟩ :=
    hb.run s₁ (tail s₁.whereabouts.reading.offset _ (':'.toUInt8 :: arg)) rfl rfl
  obtain ⟨asks, heva, hfi⟩ := hb.asks
  obtain ⟨marked, location, s₂, hr₂, hma, hb₂, hl₂, hs₂⟩ :=
    resume_asking before hs₁.stop asks (hb.anywhere _) heva hfi hr₁ hm
  have ho := hop marked location (hs₁.builder.even hev)
  rw [← hb₂] at ho
  obtain ⟨k₃, s₃, hru₃, hr₃, hs₃⟩ := hbo s₂ z₂ k₁ hs₂ (even_of_unchanged ho.unchanged) (hs _) hr₁.1
  -- the mode in a branch is that around it
  have hm₃ : block = .branch → mode s₁.builder.escape =
      escape { s₃.builder with frames := s₁.builder.frames } := by
    intro hbr
    rw [hmo hbr]
    dsimp only
    rw [hs₃.builder.outermostEscape, ho.outermostEscape]
    rfl
  obtain ⟨k₄, s₄, hru₄, hr₄, hc, hl₄, hs₄⟩ := hcl s₃ _ _ (rest.print ++ z.print r.tag) k₃ hs₃.stop
    (hs₃.builder.frames.trans ho.frames) rfl hm₃ (ho.unchanged_after hs₃.builder) hr₃
  obtain ⟨k, s', hrun, hro, hs'⟩ := hr s₄ z k₄ hs₄ (even_of_unchanged hc.unchanged) hz hr₄
  have hg := hs₁.trans ⟨ho.extends hs₃.builder hc, hl₄.trans (hs₃.logName.trans hl₂), hs₄⟩
  have hlog := hg.logName
  have he := hg.builder.escape_eq
  have hi := hg.trans hs'
  rw [hlog, he, hma, ho.escape_eq, hs₃.logName, hl₂, hs₁.logName, hs₁.builder.escape_eq] at hi
  exact ⟨k, s', hru₁.trans (hr₂.trans (hru₃.trans (hru₄.trans hrun))), hro, hi⟩

theorem reads_block (l : Literal r.tag) {head} (hbo : body.Reads text before r)
    (hr : rest.Reads text before r) : Reads text before r (.block l head body rest) := by
  intro s z fuel hs he hz hf
  have hc : ClosesBlock text before r head.block (fun _ _ => []) (.command head.ending.alone) := by
    apply closesBlock_alone
    · intro t
      cases head <;> rfl
    · cases head <;> rfl
    · cases head <;> exact Block.noConfusion
  apply reads_opened l (opensBlock_head text head) _ hbo hc (fun _ =>
    Command.inner_alone _) hr hs he
    hz _ hf
  · intro hb
    cases head <;> cases hb
  · simp [print, Sequel.print]

end Composition

namespace Alternatives

theorem reads_otherwise {body} (hbo : body.Reads text before r) :
    Reads text before r (.otherwise body) := by
  intro s f frames rest fuel hs hf hbl hm hc hr
  have hm := hm rfl
  let z : Sequel := .command Command.endBranch.alone rest
  obtain ⟨location, s₁, hr₁, hb₁, hl₁, hs₁⟩ :=
    resume_otherwise text before (body.print ++ z.print r.tag) fuel hs
    ((block_eq hf).trans hbl)
  have ho := opens_turn hf hc location
  rw [← hb₁] at ho
  obtain ⟨k, s₂, hru₂, hr₂, hs₂⟩ :=
    hbo s₁ z fuel hs₁ (even_of_unchanged ho.unchanged) (Command.inner_alone _) hr.1
  have ha : Command.endBranch.allowedIn s₂.builder.block = true := by
    rw [block_eq (hs₂.builder.frames.trans ho.frames)]
    rfl
  obtain ⟨s', hrun, hb, hlog, hs'⟩ := resume_close text before rest k hs₂.stop (fun _ => rfl) ha
  have he : s₁.builder.escape = f.escape := ho.escape_eq.trans hm.symm
  have ht := hs₂.builder
  rw [he, hl₁, hb₁] at ht
  have hcl := closes_turn hf hc ht
  rw [← hb] at hcl
  exact ⟨k, s', hr₁.trans (hru₂.trans hrun), hr₂.1, hcl, hlog.trans (hs₂.logName.trans hl₁), hs'⟩

theorem reads_elif {condition body more} (hbo : body.Reads text before r)
    (hmo : more.Reads text before r) :
    Reads text before r (.elif condition body more) := by
  intro s f frames rest fuel hst hf hb hm hc hr
  have hm := hm rfl
  let z : Sequel := more.sequel rest
  have hs : sequel rest (.elif condition body more) =
      .command (Command.elif.asking condition.source) (body.print ++ z.print r.tag) := by
    rw [more.print_sequel, sequel]
  dsimp only at hr ⊢
  rw [hs] at hr ⊢
  have ha : Command.elif.allowedIn s.builder.block = true := by
    rw [block_eq hf, hb]
    rfl
  obtain ⟨mark, -, s₁, hr₁, hma, hb₁, hl₁, hs₁⟩ := resume_asking before hst rfl ha
    Command.noConfusion Command.noConfusion hr (marks_elif text condition rfl s)
  have ho := opens_divide hf hc mark (.branch .elif (condition.argument (.of r s.logName)))
  rw [← hb₁] at ho
  obtain ⟨k₂, s₂, hru₂, hr₂, hs₂⟩ :=
    hbo s₁ z fuel hs₁ (even_of_unchanged ho.unchanged) (more.sound_sequel rest) hr.1
  have hm₂ : f.escape = escape { s₂.builder with frames } := by
    rw [hm]
    unfold escape
    rw [hs₂.builder.outermostEscape, ho.outermostEscape]
  obtain ⟨k, s', hrun, hr', hclo, hlog, hs'⟩ := hmo s₂ _ frames rest k₂ hs₂.stop
    (hs₂.builder.frames.trans ho.frames) hb (fun _ => hm₂) (ho.unchanged_after hs₂.builder) hr₂
  have he : s₁.builder.escape = f.escape := ho.escape_eq
  have hd := hs₂.builder
  rw [he, hb₁] at hd
  have hcl := closes_divide hf hc hd hclo
  rw [hma, hs₂.logName, hl₁] at hcl
  exact ⟨k, s', hr₁.trans (hru₂.trans hrun), hr', hcl, hlog.trans (hs₂.logName.trans hl₁), hs'⟩

end Alternatives

theorem Composition.reads (text : Bytes → Parse Unit) (before : Reading)
    (c : Composition r.tag r.functions) :
    c.Reads text before r := by
  refine @Composition.rec r.tag r.functions (fun c => c.Reads text before r) (fun a =>
    a.Reads text before r)
    (fun l _ _ _ hs _ hz hf => pieces_literal text before l hz hs hf) ?block ?branch
      (closesBlock_alone (fun _ => rfl) rfl Block.noConfusion) ?otherwise ?elif c
  case block =>
    intro l head body rest hb hr
    exact reads_block l hb hr
  case branch =>
    intro l condition body more rest hb hm hr s z fuel hs he hz hf
    apply reads_opened l (opensBlock_branch text condition) (fun _ => rfl) hb hm more.sound_sequel
      hr hs he hz _ hf
    simp [print, more.print_sequel]
  case otherwise =>
    intro body hb
    exact Alternatives.reads_otherwise hb
  case elif =>
    intro condition body more hb hm
    exact Alternatives.reads_elif hb hm

/-- A text that is a composition is read to its end, and the items of the composition are added. -/
theorem Parse.text_composition (m : Nat) {tag fs} (htag : r.tag = tag) (hfs : r.functions = fs)
    (c : Composition tag fs) {s} (he : s.builder.Even) : ∃ s', Parse.text (m + 1) c.print r s =
      (.ok (), s') ∧
      s.builder.Extends (c.items (.of r s.logName) s.builder.escape) s'.builder := by
  subst htag hfs
  obtain ⟨k, s₁, hrun, -, hs₁⟩ :=
    c.reads (Parse.text m) s.whereabouts.reading (begun s c.print) .ended (c.print.length + 1) rfl
    he trivial (by rw [Sequel.print, append_nil]; exact Nat.lt_succ_self _)
  rw [Sequel.print, append_nil] at hrun
  have hf : s₁.builder.frames = s.builder.frames := hs₁.builder.frames
  refine ⟨{ s₁ with whereabouts := { s₁.whereabouts with reading := s.whereabouts.reading } }, ?_,
    hs₁.builder⟩
  rw [text_eq]
  refine (Program.bind_congr hrun _).trans (conclude_of_le ?_)
  rw [hf]

/-- A literal text that is written is written as it is. -/
theorem Literal.written_eq {tag : Bytes} {l : Literal tag} {n : Notes} {settings : RenderSettings}
    {st st' : RenderState}
    (h : l.render n settings st = (.ok (), st')) : st'.written = l.text :: st.written := by
  unfold Literal.render Render.writeLiteral at h
  split at h
  · obtain ⟨_, _, hget, h⟩ := Program.bind_eq_ok h
    cases hget
    cases hp : st.escaper.parseLiteral l.text with
    | ok =>
      rw [hp] at h
      cases h
      rfl
    | error e =>
      rw [hp] at h
      cases h
  · cases h
    rfl

namespace Session

variable {s : Session} {mode : EscapeMode}

theorem settle_logName (s : Session) : s.settle.reader.logName = s.reader.logName := by
  unfold settle
  split <;> rfl

theorem composition_read (hem : s.reader.builder = .start mode) (c : Composition s.tag s.functions)
    (hnul : 0 ∉ c.print) :
    let parsed := s.parseText c.print c.print.length
    let n := Notes.of parsed.1.settings s.reader.logName
    parsed.2 = .ok () ∧ Item.unplacedOf parsed.1.items =
    ⟨{}, .literal none, [], []⟩ :: c.items n mode ∧
      ∀ fuel, c.height ≤ fuel → Render.items fuel parsed.1.items = c.render n mode := by
  intro parsed n
  have hp : parsed =
      ({ s.settle with reader := (text nestingLimit c.print s.settle.settings s.settle.reader).2 },
      (text nestingLimit c.print s.settle.settings s.settle.reader).1) := by
    have hl : c.print.untilNul.length = c.print.length := by rw [Bytes.untilNul_of_not_mem hnul]
    exact congrArg s.parse (if_pos hl)
  have hb : s.settle.reader.builder = .start mode := (settle_builder s).trans hem
  have hev : s.settle.reader.builder.Even := by
    rw [hb]
    exact fun _ => rfl
  obtain ⟨reader, hrun, he⟩ :=
    text_composition (r := s.settle.settings) (nestingLimit - 1) (settle_tag s)
    (settle_functions s) c hev
  have hli : nestingLimit - 1 + 1 = nestingLimit := rfl
  rw [hli] at hrun
  rw [hrun] at hp
  rw [hb] at he
  obtain ⟨added, hi, ha⟩ := he.items
  have hf : reader.builder.frames = [] := he.frames
  have ht : parsed.1.items = ⟨{}, .literal none, [], []⟩ :: added := by
    rw [hp, Session.items, Builder.template, hf, hi]
    simp [Builder.start]
  have hn : n = .of s.settle.settings s.settle.reader.logName := by
    rw [settle_logName]
    rfl
  have hr : Item.unplacedOf added = c.items n mode := by
    rw [hn]
    exact ha
  refine ⟨by rw [hp], by rw [ht, Item.unplacedOf, hr]; rfl, fun fuel hfu => ?_⟩
  rw [ht, Render.items_cons, c.items_eq mode fuel added hfu hr]
  obtain ⟨fuel, rfl⟩ : ∃ k, fuel = k + 1 := ⟨fuel - 1, by have := c.height_pos; omega⟩
  rfl

/-- The text of a composition is read without a fault, and the items are nested as its blocks are.
Whatever the data are, rendering them is rendering the composition: of the parts of a branch the
first one whose condition is true, once, and then what follows the branch. A literal text is written
as it is. -/
theorem parseText_composition (hempty : s.reader.builder = .start mode)
    (c : Composition s.tag s.functions) (hnul : 0 ∉ c.print) :
    let parsed := s.parseText c.print c.print.length
    let n := Notes.of parsed.1.settings s.reader.logName
    parsed.2 = .ok () ∧ Item.unplacedOf parsed.1.items =
    ⟨{}, .literal none, [], []⟩ :: c.items n mode ∧
      (∀ t : Session, t.items = parsed.1.items → ∀ fuel, c.height ≤ fuel →
        t.renderBy (Render.items fuel) = t.renderBy fun _ => c.render n mode) ∧
      (∀ t : Session, t.items = parsed.1.items → c.height ≤ nestingLimit →
        t.render = t.renderBy fun _ => c.render n mode) ∧
      ∀ (l : Literal s.tag) settings st st', l.render n settings st = (.ok (), st') →
        st'.written = l.text :: st.written := by
  intro parsed n
  obtain ⟨hok, hitems, hsame⟩ := composition_read hempty c hnul
  have hrender : ∀ t : Session, t.items = parsed.1.items → ∀ fuel, c.height ≤ fuel →
      t.renderBy (Render.items fuel) = t.renderBy fun _ => c.render n mode := by
    intro t ht fuel hfuel
    rw [renderBy, renderBy, ht, hsame fuel hfuel]
  refine ⟨hok, hitems, hrender, fun t ht hheight => ?_, fun l settings st st' hwritten => ?_⟩
  · exact hrender t ht nestingLimit hheight
  · exact l.written_eq hwritten

/-- A list is gone through, and each time another part of the branch is rendered. -/
theorem parseText_composition_elif :
    let data : Node := ⟨[], none, false, [],
      [⟨ascii "L", none, false, [], [⟨ascii "0", some (ascii "1"), false, [], []⟩,
      ⟨ascii "1", some (ascii "2"), false, [], []⟩, ⟨ascii "2", some (ascii "3"), false, [], []⟩]⟩]⟩
    let place : MarkupPlace := ⟨.text, 0, false, 0, false, false, false, none⟩
    let s := fresh .undefined data (.table []) place
    ∃ c : Composition s.tag s.functions, c.print =
        ascii "a<?cs each:x = L?>[<?cs if:x==#1?>one<?cs elif:x==#2?>two" ++
        ascii "<?cs else ?>many<?cs /if ?>]<?cs /each ?>b" ∧
      s.reader.builder = .start .undefined ∧ 0 ∉ c.print ∧
      (s.parseText c.print c.print.length).2 = .ok () ∧
      (s.parseText c.print c.print.length).1.render.2.1 = ascii "a[one][two][many]b" ∧
      (s.parseText c.print c.print.length).1.render =
      (s.parseText c.print c.print.length).1.renderBy fun _ =>
          c.render (.of (s.parseText c.print c.print.length).1.settings s.reader.logName)
            .undefined := by
  intro data place s
  let text (t : Bytes) (h : Parse.nextCommand? s.tag (t ++ opener s.tag) = some (t, [])) :
      Literal s.tag := ⟨t, h⟩
  let one : Phrase s.functions :=
    ⟨ascii "x==#1", .binary .eq (.name (ascii "x")) (.number 1 (ascii "1")), _, rfl, by decide⟩
  let two : Phrase s.functions :=
    ⟨ascii "x==#2", .binary .eq (.name (ascii "x")) (.number 2 (ascii "2")), _, rfl, by decide⟩
  let list : Phrase s.functions := ⟨ascii "L", .name (ascii "L"), _, rfl, by decide⟩
  let x : Bound :=
    ⟨ascii "x", by decide, (forall_mem_singleton (a := 120)).mpr (by decide), by decide⟩
  let choice : Composition s.tag s.functions :=
    .branch (text (ascii "[") (by decide)) one (.text (text (ascii "one") (by decide)))
      (.elif two (.text (text (ascii "two") (by decide)))
        (.otherwise (.text (text (ascii "many") (by decide)))))
      (.text (text (ascii "]") (by decide)))
  let c : Composition s.tag s.functions :=
    .block (text (ascii "a") (by decide)) (.each x list rfl) choice
      (.text (text (ascii "b") (by decide)))
  have hprint : c.print =
      ascii "a<?cs each:x = L?>[<?cs if:x==#1?>one<?cs elif:x==#2?>two" ++
      ascii "<?cs else ?>many<?cs /if ?>]<?cs /each ?>b" := by
    decide +kernel
  have hnul : 0 ∉ c.print := by
    rw [hprint]
    decide
  have houtput : (s.parseText c.print c.print.length).1.render.2.1 =
      ascii "a[one][two][many]b" := by
    rw [hprint]
    decide +kernel
  obtain ⟨hok, -, -, hrender, -⟩ := parseText_composition (s := s) rfl c hnul
  exact ⟨c, hprint, rfl, hnul, hok, houtput, hrender _ rfl (by decide)⟩

/-- A range of one to three texts that are read as expressions and have no comma inside is read
without a fault, behind a text and with any texts and blocks in the loop and behind it. The loop has
the values of these expressions for its bounds. -/
theorem parseText_range (hempty : s.reader.builder = .start mode)
    (front : Literal s.tag) (x : Bound)
    (b : Bounds s.functions) (body rest : Composition s.tag s.functions)
    (hnul : 0 ∉ (Composition.block front (.loop x b) body rest).print) :
    let c := Composition.block front (.loop x b) body rest
    let parsed := s.parseText c.print c.print.length
    let n := Notes.of parsed.1.settings s.reader.logName
    parsed.2 = .ok () ∧ ∀ fuel, c.height ≤ fuel → Render.items fuel parsed.1.items = (do
      front.render n
      (do
        let ns ← (b.exprs.map (·.expr)).mapM
            fun e => do return (← Render.eval (← Render.eval e.eval).asNumber).toInt32
        Render.loop x.name ns (body.render n mode))
      rest.render n mode) := by
  obtain ⟨hok, -, hrender⟩ := composition_read hempty _ hnul
  exact ⟨hok, hrender⟩

/-- A loop whose range is computed. -/
theorem parseText_range_sum :
    let s := fresh .undefined .root (.table []) ⟨.text, 0, false, 0, false, false, false, none⟩
    let text := ascii "<?cs loop:i = #1+#1,#3?>.<?cs /loop ?>"
    0 ∉ text ∧ (s.parseText text text.length).2 = .ok () := by
  intro s text
  let sum : Phrase s.functions := ⟨ascii "#1+#1", _, _, rfl, by decide⟩
  let three : Phrase s.functions := ⟨ascii "#3", _, _, rfl, by decide⟩
  let none : Literal s.tag := ⟨[], by decide⟩
  let dot : Literal s.tag := ⟨ascii ".", by decide⟩
  have hnul : 0 ∉ text := by decide
  have hread := parseText_range (s := s) (rfl : s.reader.builder = .start .undefined) none
    ⟨ascii "i", by decide, (forall_mem_singleton (a := 105)).mpr (by decide), by decide⟩
    ⟨[sum, three], by simp, by decide, by decide, by decide⟩ (.text dot) (.text none) hnul
  exact ⟨hnul, hread.1⟩

/-- A range is cut at the commas of an expression too. -/
theorem parse_range_comma :
    let s := fresh .undefined .root (.table []) ⟨.text, 0, false, 0, false, false, false, none⟩
    let text := ascii "<?cs loop:i = max(1,2), 3 ?><?cs var:i ?>,<?cs /loop ?>"
    ((Expr.parse s.functions false (ascii "max(1,2)")).run.run []).1.toBool = true ∧
      (s.parseText text text.length).2.toBool = false := by
  decide +kernel

end Session

end TemplateKit
