import TemplateKit.Proofs.Template.Builder
import TemplateKit.Proofs.Template.Session

/-!
# Escape modes are lexical

The mode in force is that of the innermost block for escaping within the innermost macro around;
inside of a macro it is left open at first, and outside of macros it is that of the template at
first. What writes values notes the mode that is in force where it stands, whatever other blocks are
around it or were closed before. A mode is set for the next block only in the middle of a command,
which a reader does not go on from if it stops there.
-/

namespace TemplateKit

open List Parse

/-- The escape mode inside of an item that stands where `m` is in force. -/
def Action.bodyMode (m : EscapeMode) : Action → EscapeMode
  | define _ => .undefined
  | escape word _ => (EscapeMode.ofWord? word).getD m
  | _ => m

/-- The rule that items fit the mode that is in force where they stand. -/
def Rule.modes (F : EscapeMode → Mark → Action → Prop) : Rule EscapeMode := ⟨F, Action.bodyMode, Eq⟩

namespace Builder

variable {F : EscapeMode → Mark → Action → Prop} {m : EscapeMode} {b : Builder} {K : Command → Prop}
  {L : Bytes → Prop} {fs : List Function}

/-- A builder of a template with the mode `m`. A mode is set for the next block only before the
first one. -/
structure Marked (F : EscapeMode → Mark → Action → Prop) (m : EscapeMode) (b : Builder) : Prop
    extends b.Follows (.modes F) m where
  outermost : b.outermostEscape = m
  changed : b.escapeChanged = true → b.frames = [] ∧ b.nextEscape = m

/-- Open blocks know the mode that is in force. -/
theorem Nested.escape_eq {frames} (h : Nested (.modes F) m frames) :
    (frames.head?.map (·.escape)).getD m = contextIn (.modes F) m frames := by
  cases h with
  | nil => rfl
  | cons head tail => exact head.mode.symm

namespace Marked

theorem start (h : F m {} (.literal none)) : (Builder.start m).Marked F m :=
  ⟨follows_start h, rfl, fun _ => ⟨rfl, rfl⟩⟩

variable (h : b.Marked F m)

include h

theorem escape_eq : b.escape = contextIn (.modes F) m b.frames := by
  rw [← h.frames.escape_eq, escape, h.outermost]

theorem next_eq : (if b.escapeChanged then b.nextEscape else b.escape) = b.escape := by
  split
  · next hc =>
    obtain ⟨hfr, hn⟩ := h.changed hc
    rw [h.escape_eq, hfr, hn]
    rfl
  · rfl

theorem unchanged (hf : b.frames ≠ []) : b.escapeChanged = false :=
  Bool.eq_false_iff.mpr fun hc => hf (h.changed hc).1

theorem add {mark action} (hfi : F b.escape mark action) : (b.add mark action).Marked F m :=
  ⟨h.toFollows.add (h.escape_eq ▸ hfi), h.outermost, h.changed⟩

theorem openBlock {block location mark action} (next : EscapeMode) (changed : Bool)
    (hfi : F b.escape mark action)
    (hm : (if changed then next else b.escape) = action.bodyMode b.escape)
    (hd : block = .branch ∨ block = .otherwise → action.bodyMode b.escape = b.escape) :
    ({ b with nextEscape := next, escapeChanged := changed }.openBlock block location mark
      action).Marked F m := by
  have hc := h.escape_eq
  refine ⟨Follows.openBlock (b := { b with nextEscape := next, escapeChanged := changed })
    ⟨h.frames, h.items⟩
    (hc ▸ hfi) ?_ (hc ▸ hd), h.outermost, by simp [Builder.openBlock, push]⟩
  change action.bodyMode (contextIn _ m b.frames) = if changed then next else b.escape
  rw [← hc, hm]

end Marked

theorem bodyMode_of_noted {a : Action} {m' mark} (h : a.Noted L fs m' mark) : a.bodyMode m = m := by
  cases a with
  | define | escape => exact h.elim
  | _ => rfl

/-- Reading keeps to the modes if what commands note is enough for `F`. -/
theorem kept_marked (hF : ∀ {a mark m}, a.Of K → a.Noted L fs m mark → F m mark a)
    (hdefine : ∀ m mark signature, F m mark (.define signature))
    (hescape : K .escape → ∀ {word mode}, EscapeMode.ofWord? word = some mode →
      ∀ m mark source, F m mark (.escape word source)) :
    Kept ⟨Eq, Eq, fun _ _ => True⟩ K L fs (fun b b' => b' = b ∧ b.Marked F m) where
  within _ := trivial
  changed _ _ := trivial
  escape_eq h := by rw [h.1]
  block_eq h _ := by rw [h.1]
  add h hm ha hn := ⟨by rw [h.1, hm], h.2.add (hF ha hn)⟩
  addContentType h hm hK _ _ :=
    ⟨by rw [h.1, hm], h.2.addContentType (hF (Action.of_command hK rfl)
      trivial), h.2.outermost, h.2.changed⟩
  openBlock h hm hl ha hn := by
    refine ⟨by rw [h.1, hm, hl], h.2.openBlock _ _ (hF ha hn) ?_ fun _ => bodyMode_of_noted hn⟩
    rw [h.2.next_eq, bodyMode_of_noted hn]
  define h hm hl _ _ :=
    ⟨by rw [h.1, hm, hl], h.2.openBlock .undefined true (hdefine ..) rfl (by simp)⟩
  escape h hm hl hK hs _ := by
    refine ⟨by rw [h.1, hm, hl], h.2.openBlock _ true (hescape hK hs ..) ?_ (by simp)⟩
    rw [Action.bodyMode, hs]
    rfl
  divide h hm hK hopen hb := by
    obtain ⟨f, frames, hf⟩ := exists_cons_of_ne_nil hopen
    refine ⟨by rw [h.1, hm], h.2.toFollows.divide hb (fun _ =>
      hF (Action.of_command hK rfl) trivial) fun _ => rfl, ?_, ?_⟩
    · rw [divide, hf]
      exact h.2.outermost
    · rw [divide, hf]
      exact fun hc => absurd (h.2.changed hc).1 hopen
  turn h hl hopen hb := by
    obtain ⟨f, frames, hf⟩ := exists_cons_of_ne_nil hopen
    refine ⟨by rw [h.1, hl], h.2.toFollows.turn hb fun f frames hf => ?_, ?_, ?_⟩
    · obtain ⟨-, hn, -⟩ := h.2.toFollows.innermost hf
      rw [h.2.unchanged hopen, escape, h.2.outermost]
      exact hn.escape_eq.symm
    · rw [turn, hf]
      exact h.2.outermost
    · rw [turn, hf]
      rintro ⟨⟩
  close h hopen := by
    obtain ⟨f, frames, hf⟩ := exists_cons_of_ne_nil hopen
    refine ⟨by rw [h.1], h.2.toFollows.close, ?_, ?_⟩
    · rw [close, hf]
      exact h.2.outermost
    · rw [close, hf]
      exact fun hc => absurd (h.2.changed hc).1 hopen
  length_le h hlater hle := by
    rw [h.1, hlater.1]
    exact hle

end Builder

namespace Parse

variable {F : EscapeMode → Mark → Action → Prop} {m : EscapeMode} {K : Command → Prop}
  {L X : Bytes → Prop} {r : ParserSettings}

/-- A single reader; nothing is asked of what it has built in the middle of a command. -/
def marking (F : EscapeMode → Mark → Action → Prop) (m : EscapeMode) : Pairing :=
  ⟨fun _ => False, True, fun b b' => b' = b ∧ b.Marked F m, fun _ _ => True, fun k k' => k' = k,
    fun _ => True⟩

/-- A program that builds and keeps to the modes. -/
def Keeps (F : EscapeMode → Mark → Action → Prop) (m : EscapeMode) (r : ParserSettings)
    (action : Parse Unit) : Prop :=
  Both (marking F m) r action action

theorem tolerant_marking : Tolerant (marking F m) where
  le h := Nat.le_of_eq h
  succ h _ := congrArg (· + 1) h
  found h := h
  blocks := .inr fun _ _ h => h.1
  depth := .inr fun _ _ h => h
  finding := ⟨fun _ _ _ => trivial, fun _ _ _ => trivial⟩

theorem Keeps.ends {action s s'} (h : Keeps F m r action) (hs : s.builder.Marked F m)
    (hrun : action r s = (.ok (), s')) : s'.builder.Marked F m := by
  have he := h s s ⟨⟨rfl, hs⟩, .mk (b := s.builder) (d := s.depth) trivial rfl trivial⟩
  rw [hrun] at he
  cases he with
  | ok h => exact h.2.1.2

end Parse

/-- Does an action write a value, or render what may do so, in a mode that it notes? -/
def Action.notesMode : Action → Bool
  | var raw _ => !raw
  | name _ | alt _ | call _ _ | lvar _ | includeLater _ => true
  | _ => false

/-- The mode in force where the actions `around`, the innermost first, are around. -/
inductive EscapeMode.InForce (outermost : EscapeMode) : List Action → EscapeMode → Prop
  | outermost : InForce outermost [] outermost
  | define (signature : Signature) (around : List Action) :
      InForce outermost (.define signature :: around) .undefined
  | escape {word : Bytes} {m : EscapeMode} (h : ofWord? word =
      some m) (source : Option Bytes) (around : List Action) :
      InForce outermost (.escape word source :: around) m
  | other {a : Action} {around : List Action} {m : EscapeMode} (hdefine : ∀ signature,
      a ≠ .define signature)
      (hescape : ∀ word source, a ≠ .escape word source) (h : InForce outermost around m) :
      InForce outermost (a :: around) m

/-- The items of a template, with the actions around them, the innermost first. -/
inductive Item.Within (items : List Item) : List Action → Item → Prop
  | top {i : Item} (h : i ∈ items) : Within items [] i
  | body {i j : Item} {around : List Action} (hi : Within items around i) (h : j ∈ i.body) :
      Within items (i.action :: around) j
  | otherwise {i j : Item} {around : List Action} (hi : Within items around i) (h : j ∈
      i.otherwise) :
      Within items around j

/-- What notes a mode notes the one in force, and blocks for escaping name a mode. -/
def Action.Notes (m : EscapeMode) (mark : Mark) (a : Action) : Prop :=
  (a.notesMode = true → mark.escape = m) ∧ ∀ word source, a = .escape word source →
    ∃ m, EscapeMode.ofWord? word = some m

theorem Action.Noted.notes {L fs m mark} {a : Action} (h : a.Noted L fs m mark) :
    a.Notes m mark := by
  constructor
  · intro hn
    cases a with
    | var raw arg =>
      cases raw with
      | false => exact h.1
      | true => cases hn
    | alt arg => exact h.1
    | name | call | lvar | includeLater => exact h
    | _ => cases hn
  · rintro word source rfl
    exact h.elim

theorem EscapeMode.InForce.inside {outermost m around mark} (h : InForce outermost around m)
    {a : Action} (ha : a.Notes m mark) : InForce outermost (a :: around) (a.bodyMode m) := by
  cases a with
  | define signature => exact .define signature around
  | escape word source =>
    obtain ⟨m', hm'⟩ := ha.2 word source rfl
    rw [Action.bodyMode, hm']
    exact .escape hm' source around
  | _ => exact .other (by rintro _ ⟨⟩) (by rintro _ _ ⟨⟩) h

theorem Item.Within.inForce {items m around} {i : Item} (hi : i.Within items around)
    (h : ∀ i ∈ items, i.Follows (.modes Action.Notes) m) :
    ∃ m', EscapeMode.InForce m around m' ∧ i.Follows (.modes Action.Notes) m' := by
  induction hi with
  | top hi => exact ⟨m, .outermost, h _ hi⟩
  | body hi hj ih =>
    obtain ⟨m', hm', hf⟩ := ih
    cases hf with
    | mk fits inside other => exact ⟨_, hm'.inside fits, inside _ hj⟩
  | otherwise hi hj ih =>
    obtain ⟨m', hm', hf⟩ := ih
    cases hf with
    | mk fits inside other => exact ⟨m', hm', other _ hj⟩

namespace Session

open Configuration

/-- The sessions with a template that has the mode `mode`, if all its texts and files could be read.
-/
inductive Loaded (mode : EscapeMode) : Session → Prop
  | create {data : Node} {source : Source} {place : MarkupPlace} {s : Session}
      (hmode : escapeMode data = .ok mode) (h : create data source place = .ok s) : Loaded mode s
  | register {s s' : Session} {f : Function} (hs : Loaded mode s) (h : s.register f = .ok s') :
      Loaded mode s'
  | setData {s : Session} (hs : Loaded mode s) (data : Node) : Loaded mode (s.setData data)
  | setGlobals {s : Session} (hs : Loaded mode s) (globals : Option Node) :
      Loaded mode (s.setGlobals globals)
  | parseText {s : Session} (hs : Loaded mode s) {text : Bytes} {length : Nat}
      (h : (s.parseText text length).2 = .ok ()) : Loaded mode (s.parseText text length).1
  | parseFile {s : Session} (hs : Loaded mode s) {path : Option Bytes}
      (h : (s.parseFile path).2 = .ok ()) :
      Loaded mode (s.parseFile path).1
  | render {s : Session} (hs : Loaded mode s) : Loaded mode s.render.1

variable {F : EscapeMode → Mark → Action → Prop} {m mode : EscapeMode} {s : Session}

theorem marked_parse {action} (hk : Parse.Keeps F m s.settle.settings action)
    (hs : s.reader.builder.Marked F m)
    (h : (s.parse action).2 = .ok ()) : (s.parse action).1.reader.builder.Marked F m :=
  hk.ends (s.settle_builder.symm ▸ hs) (Prod.ext h rfl)

theorem Loaded.marked (h : Loaded mode s) : s.reader.builder.Marked Action.Notes mode := by
  have hkept : ∀ {fs}, Builder.Kept (marking Action.Notes mode).terms.toLikeness (fun _ => True)
      (fun _ => True) fs
      (fun b b' => b' = b ∧ b.Marked Action.Notes mode) := by
    intro fs
    refine Builder.kept_marked (fun _ hn => hn.notes) (fun _ _ _ =>
      ⟨by rintro ⟨⟩, by rintro _ _ ⟨⟩⟩) ?_
    rintro - word mode hw m mark source
    refine ⟨by rintro ⟨⟩, ?_⟩
    rintro _ _ ⟨⟩
    exact ⟨mode, hw⟩
  have htext : ∀ r x, Keeps Action.Notes mode r (text nestingLimit x) := fun r x =>
    both_text (p := marking _ mode) hkept (readable_all r) tolerant_marking
      (.inr ⟨rfl, .inl trivial⟩) trivial
  induction h with
  | create hmode h =>
    rw [create_eq hmode] at h
    cases h
    exact .start ⟨by rintro ⟨⟩, by rintro _ _ ⟨⟩⟩
  | register hs h ih =>
    obtain ⟨fs, rfl⟩ := eq_of_register h
    exact ih
  | setData hs data ih => exact ih
  | setGlobals hs globals ih => exact ih
  | @parseText s hs text length h ih =>
    obtain ⟨action, heq, hb⟩ := s.parseText_reads text length
    rw [heq] at h ⊢
    exact marked_parse (hb _ _ (htext _ _)) ih h
  | @parseFile s hs path h ih =>
    obtain ⟨action, heq, hb⟩ := s.parseFile_reads path
    rw [heq] at h ⊢
    refine marked_parse (hb _ _ (fun _ => ?_) ?_) ih h
    · exact beside_literal (Pairing.lawful (marking _ mode) _) hkept trivial
    · exact both_file (p := marking _ mode) hkept (readable_all _) (fun x _ => htext _ x)
        trivial path
  | render hs ih => exact ih

/-- In a template that could be read, whatever notes a mode notes the one in force where it stands:
that of the innermost block for escaping within the innermost macro around, an open one where a
macro has no such block, and the mode of the template outside of all macros and blocks for escaping.
-/
theorem escape_lexical (h : Loaded mode s) {around : List Action} {i : Item}
    (hi : i.Within s.items around)
    (hnotes : i.action.notesMode = true) : EscapeMode.InForce mode around i.mark.escape := by
  obtain ⟨m, hm, hfollows⟩ := hi.inForce h.marked.template
  cases hfollows with
  | mk fits inside other => exact fits.1 hnotes ▸ hm

/-- A macro takes no mode from the block that it is written in. -/
theorem escape_lexical_of_macro :
    let text := ascii "<?cs escape:\"js\" ?><?cs def:f(x) ?><?cs if:x ?><?cs var:x ?>" ++
      ascii "<?cs /if ?><?cs /def ?><?cs var:a ?><?cs /escape ?>"
    ∃ (s : Session) (i j : Item) (around around' : List Action),
      create .root (.table []) ⟨.text, 0, false, 0, false, false, false, none⟩ = .ok s ∧
      (s.parseText text text.length).2 = .ok () ∧
      i.Within (s.parseText text text.length).1.items around ∧
      i.mark.escape = .undefined ∧ EscapeMode.InForce .undefined around .undefined ∧
      j.Within (s.parseText text text.length).1.items around' ∧ j.mark.escape = .script ∧
      EscapeMode.InForce .undefined around' .script := by
  intro text
  let s := fresh .undefined .root (.table []) ⟨.text, 0, false, 0, false, false, false, none⟩
  have hcreate : create .root (.table []) ⟨.text, 0, false, 0, false, false, false, none⟩ = .ok s :=
    create_eq rfl ..
  have hread : (s.parseText text text.length).2.toBool = true := by decide +kernel
  have hloaded := (Loaded.create rfl hcreate).parseText (eq_ok_of_toBool hread)
  have hitems : ((s.parseText text text.length).1.items[2]?.bind fun block =>
      (block.body[1]?.bind fun f => f.body[1]?.bind (·.body[1]?)).bind fun i =>
        block.body[3]?.map fun j =>
        ((i.action.notesMode, i.mark.escape), j.action.notesMode, j.mark.escape)) =
      some ((true, .undefined), true, .script) := by
    decide +kernel
  simp only [Option.bind_eq_some_iff, Option.map_eq_some_iff, Prod.mk.injEq] at hitems
  obtain ⟨block, hblock, i, ⟨f, hf, branch, hbranch, hi⟩, j, hj, ⟨hni, hei⟩, hnj, hej⟩ := hitems
  have hwithin := Item.Within.top (mem_of_getElem? hblock)
  have hi := ((hwithin.body (mem_of_getElem? hf)).body (mem_of_getElem? hbranch)).body
    (mem_of_getElem? hi)
  have hj := hwithin.body (mem_of_getElem? hj)
  exact ⟨s, i, j, _, _, hcreate, eq_ok_of_toBool hread, hi, hei,
    hei ▸ escape_lexical hloaded hi hni, hj, hej, hej ▸ escape_lexical hloaded hj hnj⟩

end Session

end TemplateKit
