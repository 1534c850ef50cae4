import TemplateKit.Proofs.Template.Deferred
import TemplateKit.Proofs.Template.Substitution

/-!
# Including late

A command that includes a file or the value of a variable when the template is rendered does what
the command does that includes it when the template is read, for all that neither calls macros nor
includes late itself. There is one difference: what is included late must not have loops that go
round.
-/

namespace TemplateKit

open Program Option Render Configuration Parse Item Action List

def Action.isLoop : Action → Bool
  | loop _ _ => true
  | _ => false

namespace Item

theorem everyOf_append {q} (is js : List Item) :
    everyOf q (is ++ js) = (everyOf q is && everyOf q js) := by
  induction is with
  | nil => rfl
  | cons i is ih => rw [cons_append, everyOf, everyOf, ih, Bool.and_assoc]

/-- A property that literal text and notes on values have is told by the core. -/
theorem everyOf_coreOf {q} (hl : ∀ s, q (.literal s) = true) (hev : ∀ name, q (.evar name) = true)
    (is : List Item) : everyOf q (coreOf is) = everyOf q is := by
  have hb : ∀ s : Bytes, everyOf q (s.map byte) = true := by
    intro s
    rw [everyOf_iff]
    intro i hi
    obtain ⟨b, -, rfl⟩ := mem_map.mp hi
    exact every_iff.mpr ⟨hl _, fun _ hj => absurd hj not_mem_nil, fun _ hj => absurd hj not_mem_nil⟩
  have hli : ∀ is : List Item, (∀ i ∈ is, everyOf q i.core = i.every q) →
      everyOf q (coreOf is) = everyOf q is := by
    intro is
    induction is with
    | nil => exact fun _ => rfl
    | cons i is ih =>
      intro h
      rw [coreOf, everyOf_append, everyOf, h i mem_cons_self,
        ih fun i hi => h i (mem_cons_of_mem _ hi)]
  have hit : ∀ i : Item, everyOf q i.core = i.every q := by
    intro i
    induction i using nested_induction with
    | item mark action body otherwise ihbody ihother =>
      have hk : everyOf q [⟨mark.core, action, coreOf body, coreOf otherwise⟩] =
          every q ⟨mark, action, body, otherwise⟩ := by
        rw [everyOf, everyOf, every, every, hli body ihbody, hli otherwise ihother, Bool.and_true]
      rw [core]
      unfold reduced
      split
      · next he =>
        rw [Bool.and_eq_true, List.isEmpty_iff, List.isEmpty_iff] at he
        have hin : every q ⟨mark, action, body, otherwise⟩ = q action := by
          rw [every, ← hli body ihbody, ← hli otherwise ihother, he.1, he.2, everyOf, Bool.and_true,
            Bool.and_true]
        split
        · exact (hin.trans (hl _)).symm
        · exact (hin.trans (hev _)).symm
        · split
          · exact hk
          · exact (hb _).trans (hin.trans (hl _)).symm
        · exact hk
      · exact hk
  exact hli is fun i _ => hit i

end Item

theorem Parse.text_scope {r m s} (hl : s.scope.locals = []) (x : Bytes) :
    (text m x r s).2.scope = s.scope := by
  have hs : Spares (· = s.scope) r (text m x) := spares_text (keptByFinding_eq hl)
  exact hs.scope rfl

theorem Included.read_scope {i : Included} {r : ParserSettings} {m : Nat} {s : ParseState}
    (hl : s.scope.locals = []) :
    (i.read (text m) r s).2.scope = s.scope := by
  cases i with
  | value x => exact text_scope hl x
  | file path required =>
    have hs : Parse.Spares (· = s.scope) r (Parse.file (Parse.text m) (some path)) :=
      spares_file (keptByFinding_eq hl)
    exact hs.scope rfl

namespace Render

variable {L : Option Kind → Prop} {D : Nat → Nat → Prop} {e : Option AutoEscaper} {k k' : Nat}
  {r r' : RenderSettings}

/-- Items that go no level deeper agree at any two depths, and with any two limits if there are no
loops. -/
theorem agrees_shallowOf {fuel is} (hp : r.parser = r'.parser)
    (hau : r.parser.auto.enabled = true → e = none) (hD : D k k') (hs : everyOf shallow is = true)
    (hli : r.loopLimit = r'.loopLimit ∨ everyOf (fun a => !a.isLoop) is = true) :
    Agrees L D e k k' r r' (items fuel is) (items fuel is) := by
  induction fuel generalizing is with
  | zero => exact .through fun _ _ => .stops hD rfl
  | succ fuel ih =>
    refine .through fun i hi => ?_
    obtain ⟨ha, hbo, ho⟩ := every_iff.mp (everyOf_iff.mp hs i hi)
    have hl : r.loopLimit = r'.loopLimit ∨ i.action.isLoop = false ∧
        everyOf (fun a => !a.isLoop) i.body = true ∧
        everyOf (fun a => !a.isLoop) i.otherwise = true := by
      refine hli.imp_right fun h => ?_
      obtain ⟨hf, hin, hb⟩ := every_iff.mp (everyOf_iff.mp h i hi)
      exact ⟨by simpa using hf, everyOf_iff.mpr hin, everyOf_iff.mpr hb⟩
    refine agrees_shallow hp hau (.refl _) rfl ha ?_ hD ?_ ?_
    · rintro ⟨x, range, hlo⟩
      refine hl.resolve_right fun h => ?_
      rw [hlo] at h
      cases h.1
    · exact ih (everyOf_iff.mpr hbo) (hl.imp_right fun h => h.2.1)
    · exact ih (everyOf_iff.mpr ho) (hl.imp_right fun h => h.2.2)

variable {m : Render Unit} {st : RenderState} {last : Except Stop Unit × RenderState}

theorem endsAlike_shallow {fuel is} (hp : r.parser = r'.parser)
    (hs : everyOf shallow is = true)
    (hl : r.loopLimit = r'.loopLimit ∨ everyOf (fun a => !a.isLoop) is = true) {st st'}
    (hst : st.Like (fun _ _ => True) none st') :
    EndsAlike (items fuel is r st) (items fuel is r' st') :=
  (EndsAlike.of_agrees (L := fun _ => False)
    (agrees_shallowOf (D := fun _ _ => True) hp (fun _ => rfl) trivial hs hl) trivial
    { hst with depth := ⟨rfl, rfl⟩ } fun _ _ => id).1

theorem endsAlike_noting (h : EndsAlike (m r st) last) (text : Bytes) :
    EndsAlike (noting text m r st) last := by
  have hc : EndsAlike (noting text m r st) (m r st) := by
    cases hrun : m r st with
    | mk result t =>
      cases result with
      | ok _ =>
        have hn : noting text m r st = (.ok (), t) := catch_ok hrun _
        rw [hn]
        exact .refl _
      | error stop =>
        cases stop with
        | exhausted =>
          have hn : noting text m r st = (.error .exhausted, t) := catch_error hrun _
          rw [hn]
          exact .refl _
        | failure f =>
          have hn : noting text m r st = (.error (.failure (f.note text)), t) := catch_error hrun _
          rw [hn]
          exact ⟨rfl, rfl, rfl⟩
  exact hc.trans h

theorem endsAlike_deeper (hd : st.depth < deepestNesting)
    (h : EndsAlike (m r { st with depth := st.depth + 1 }) last)
    (text : Bytes) : EndsAlike (deeper text m r st) last := by
  rw [deeper_above hd]
  refine EndsAlike.trans ?_ h
  cases hrun : m r { st with depth := st.depth + 1 } with
  | mk result t =>
    cases result with
    | ok _ =>
      -- what is changed afterwards cannot be seen
      rw [bind_ok hrun]
      exact ⟨rfl, rfl, rfl⟩
    | error stop =>
      rw [bind_error hrun]
      exact .refl _

/-- What was read in the middle of rendering is rendered with settings of its own. -/
theorem endsAlike_template {items s}
    (h : EndsAlike (items s.builder.template (nestedSettings s r) (nestedStart s st)) last) :
    EndsAlike (template items s r st) last := by
  refine EndsAlike.trans ?_ h
  exact ⟨rfl, rfl, rfl⟩

theorem properText_eq_some {v scope x} (h : Builtin.properText v scope = (some x, scope)) :
    v.isNumeric = false ∧ ∃ trust, v.asText scope = ((some x, trust), scope) := by
  unfold Builtin.properText at h
  split at h
  · cases h
  · next hn =>
    refine ⟨Bool.eq_false_iff.mpr hn, (v.asText scope).1.2, ?_⟩
    have hf : (v.asText scope).1.1 = some x := congrArg Prod.fst h
    have hs : (v.asText scope).2 = scope := congrArg Prod.snd h
    exact Prod.ext (Prod.ext hf rfl) hs

section Deferred

variable {fuel : Nat} {items : List Item → Render Unit} {mark : Mark} {mode : EscapeMode}
variable {after : ParseState}

/-- The state in which something is read while a template is rendered at the depth `depth`. -/
def separate (r : RenderSettings) (st : RenderState) (mode : EscapeMode) (depth : Nat) :
    ParseState :=
  { builder := .start mode, scope := st.scope, depth, logName := r.logName }

theorem parseState_run (hmode : escapeMode st.scope.data = .ok mode) (hmark : mark.escape = mode) :
    parseState mark r st = (.ok (separate r st mode st.depth), st) := by
  unfold parseState
  rw [Program.get_bind, hmode, hmark]
  dsimp only
  rw [ite_self]
  rfl

/-- The settings of a template are those that the data ask for. -/
structure Configured (r : RenderSettings) (data : Node) : Prop where
  tag : r.parser.tag = tag data
  marksFiles : r.parser.marksFiles = marksFiles data

theorem parse_run (st : RenderState) {start} (hr : Configured r start.scope.data)
    (action : Parse Unit) :
    parse action start r st = (.ok (action r.parser start),
      { st with scope := (action r.parser start).2.scope }) := by
  have hs : ({ r.parser with
      tag := tag start.scope.data
      marksFiles := marksFiles start.scope.data } : ParserSettings) = r.parser := by
    rw [← hr.tag, ← hr.marksFiles]
  have hrun : parse action start r st = (.ok (action { r.parser with
      tag := tag start.scope.data
      marksFiles := marksFiles start.scope.data } start), { st with scope := (action { r.parser with
        tag := tag start.scope.data
        marksFiles := marksFiles start.scope.data } start).2.scope }) := rfl
  rw [hrun, hs]

variable (hmode : escapeMode st.scope.data = .ok mode) (hmark : mark.escape = mode)
  (hr : Configured r st.scope.data) (hscope : after.scope = st.scope)
  (h : ∀ s : ParseState, s.builder = after.builder →
    EndsAlike (items s.builder.template (nestedSettings s r) (nestedStart s st)) last)

include hmode hmark hr hscope h

theorem endsAlike_lvar (ha : r.parser.auto = {}) {v x}
    (ht : text fuel x r.parser (separate r st mode st.depth) = (.ok (), after)) :
    EndsAlike (lvar fuel items mark v x r st) last := by
  have hl : (if r.parser.auto.logs then v.shown else (separate r st mode st.depth).logName) =
      r.logName := by
    rw [ha]
    rfl
  have hp : parse (text fuel x) (separate r st mode st.depth) r st = _ := parse_run st hr _
  rw [ht] at hp
  rw [hscope] at hp
  have hrun : lvar fuel items mark v x r st =
      template items { after with logName := r.logName } r st := by
    refine (bind_ok (parseState_run hmode hmark) _).trans ((bind_ok (m := read) rfl _).trans ?_)
    rw [hl]
    exact (bind_ok hp _).trans rfl
  rw [hrun]
  exact endsAlike_template (h _ rfl)

theorem endsAlike_includeLater (hd : st.depth < deepestNesting) {path result}
    (hf : file (text fuel) (some path) r.parser (separate r st mode (st.depth + 1)) =
      (result, after))
    (hpa : (Included.file path mark.required).Passes result) :
    EndsAlike (includeLater fuel items mark path r st) last := by
  have hp : parse (file (text fuel) (some path)) (separate r st mode (st.depth + 1)) r
      { st with depth := st.depth + 1 } = _ := parse_run _ hr _
  rw [hf] at hp
  rw [hscope] at hp
  refine endsAlike_deeper hd ?_ _
  have hs : parseState mark r { st with depth := st.depth + 1 } =
    (.ok (separate r st mode (st.depth + 1)), { st with depth := st.depth + 1 }) :=
      parseState_run hmode hmark
  rw [bind_ok hs, bind_ok hp]
  have hre : ∀ note,
      EndsAlike (noting note (template items after) r { st with depth := st.depth + 1 }) last :=
    endsAlike_noting (endsAlike_template (h after rfl))
  rcases hpa with rfl | ⟨path', f, hi, rfl, hk⟩
  · exact hre _
  · obtain ⟨rfl, hreq⟩ := Included.file.inj hi
    dsimp only
    rw [hreq, isA_notFound, hk]
    exact hre _

variable (st) in
/-- An item that includes something when it is rendered reads that as a template of its own, and
renders it. -/
theorem endsAlike_deferred (ha : r.parser.auto = {}) (hd : st.depth < deepestNesting)
    {i : Included} {action : Action} (hi : i.Deferred st.scope mark action)
    {result : Except Stop Unit}
    (hre : i.read (text fuel) r.parser (separate r st mode (st.depth + i.depth)) = (result, after))
    (hp : i.Passes result) :
    EndsAlike (Render.action fuel items ⟨mark, action, [], []⟩ r st) last := by
  obtain ⟨arg, v, x, hv, hx, hi⟩ := hi
  obtain ⟨hn, trust, ht⟩ := properText_eq_some hx
  have hva : eval arg.expr.eval r st = (.ok v, st) := eval_apply hv
  have hs : eval (liftM v.asText : Eval (Option Bytes × Trust)) r st = (.ok (some x, trust), st) :=
    eval_apply (Eval.lift_run ht)
  rcases hi with ⟨rfl, rfl⟩ | ⟨rfl, rfl⟩
  · have hrun : action fuel items ⟨mark, .includeLater arg, [], []⟩ r st =
        includeLater fuel items mark x r st := by
      refine (bind_ok hva _).trans ?_
      rw [hn]
      exact bind_ok hs _
    rw [hrun]
    exact endsAlike_includeLater hmode hmark hr hscope h hd hre hp
  · have hrun : action fuel items ⟨mark, .lvar arg, [], []⟩ r st =
        lvar fuel items mark v x r st := by
      refine (bind_ok hva _).trans ?_
      rw [hn]
      exact bind_ok hs _
    rw [hrun]
    rcases hp with rfl | ⟨path, f, hf, -⟩
    · exact endsAlike_lvar hmode hmark hr hscope h ha hre
    · cases hf

end Deferred

section Around

variable {first last : Mark} {l l' : Bytes}

theorem endsAlike_write {m m' st st'} (h : EndsAlike (m r st) (m' r' st')) (x : Bytes) :
    EndsAlike ((m >>= fun _ => write x) r st) ((m' >>= fun _ => write x) r' st') := by
  cases hm : m r st with
  | mk result t =>
    cases hm' : m' r' st' with
    | mk result' t' =>
      rw [hm, hm'] at h
      cases result with
      | ok _ =>
        cases result' with
        | error _ => cases h.result
        | ok _ =>
          rw [bind_ok hm, bind_ok hm']
          refine ⟨rfl, h.scope, ?_⟩
          change (RenderState.output { t with written := x :: t.written }) =
            RenderState.output { t' with written := x :: t'.written }
          rw [output_write, output_write]
          exact congrArg (· ++ x) h.output
      | error _ =>
        cases result' with
        | ok _ => cases h.result
        | error _ =>
          rw [bind_error hm, bind_error hm']
          exact h

theorem items_around (hf : first.autoEscape = false) (hl : last.autoEscape = false) (fuel : Nat)
    (is : List Item) (r : RenderSettings) (st : RenderState) :
    items (fuel + 1) (⟨first, .literal (some l), [], []⟩ ::
      (is ++ [⟨last, .literal (some l'), [], []⟩])) r st =
      (items (fuel + 1) is >>= fun _ => write l') r { st with written := l :: st.written } := by
  have hc : items (fuel + 1) (⟨first, .literal (some l), [], []⟩ ::
      (is ++ [⟨last, .literal (some l'), [], []⟩])) =
      (item (fuel + 1) ⟨first, .literal (some l), [], []⟩ >>= fun _ =>
        items (fuel + 1) (is ++ [⟨last, .literal (some l'), [], []⟩])) := rfl
  rw [hc, item_literal rfl hf, items_append, items_singleton, item_literal rfl hl]
  rfl

/-- A text, an item that includes something when it is rendered and a text are rendered as the texts
with what is included between them, whose loops must not go round. -/
theorem endsAlike_late {fuel : Nat} {mark first' last' : Mark} {mode : EscapeMode}
    (hmode : escapeMode st.scope.data = .ok mode) (hmark : mark.escape = mode)
    (hr : Configured r st.scope.data) (ha : r.parser.auto = {}) (hde : st.depth < deepestNesting)
    {i : Included}
    {action : Action} (hi : i.Deferred st.scope mark action) {result : Except Stop Unit}
    {after : ParseState}
    (hre : i.read (text (fuel + 1)) r.parser (separate r st mode (st.depth + i.depth)) =
      (result, after))
    (hp : i.Passes result) (hscope : after.scope = st.scope)
    (hsh : everyOf shallow after.builder.template = true) (hf : first.autoEscape = false)
    (hla : last.autoEscape = false) (hf' : first'.autoEscape = false)
    (hl' : last'.autoEscape = false)
    (hpa : r.parser = r'.parser) (hl : r'.loopLimit = 0) {st' : RenderState}
    (hst : ({ st with rounds := 0, whenUndefined := .undefined } : RenderState).Like (fun _ _ =>
      True) none st') :
    EndsAlike (items (fuel + 2) [⟨{}, .literal none, [], []⟩, ⟨first, .literal (some l), [], []⟩,
        ⟨mark, action, [], []⟩, ⟨last, .literal (some l'), [], []⟩] r st)
      (items (fuel + 1) (⟨first', .literal (some l), [], []⟩ :: (after.builder.template ++
        [⟨last', .literal (some l'), [], []⟩])) r' st') := by
  have hd :
      EndsAlike (items (fuel + 2) [⟨mark, action, [], []⟩] r { st with written := l :: st.written })
      (items (fuel + 1) after.builder.template r' { st' with written := l :: st'.written }) := by
    rw [items_singleton]
    refine endsAlike_deferred { st with written := l :: st.written } hmode hmark hr hscope
      (fun s hs => ?_) ha hde hi
      hre hp
    rw [hs]
    refine endsAlike_shallow ?_ hsh (.inl hl.symm) ?_
    · exact hpa
    · refine { hst with output := ?_, depth := trivial }
      rw [output_write, ← hst.output]
      exact output_write st l
  have hsk : items (fuel + 2) [⟨{}, .literal none, [], []⟩, ⟨first, .literal (some l), [], []⟩,
        ⟨mark, action, [], []⟩, ⟨last, .literal (some l'), [], []⟩] r st =
      items (fuel + 2) (⟨first, .literal (some l), [], []⟩ :: ([⟨mark, action, [], []⟩] ++
        [⟨last, .literal (some l'), [], []⟩])) r st := rfl
  rw [hsk, items_around hf hla, items_around hf' hl']
  exact endsAlike_write hd l'

end Around

end Render

namespace Session

variable {s : Session}

/-- A session in which nothing was read yet. -/
inductive Prepared : Session → Prop
  | create {data : Node} {source : Source} {place : MarkupPlace} {s : Session}
      (h : create data source place = .ok s) : Prepared s
  | register {s s' : Session} {f : Function} (hs : Prepared s) (h : s.register f = .ok s') :
      Prepared s'
  | setGlobals {s : Session} (hs : Prepared s) (globals : Option Node) :
      Prepared (s.setGlobals globals)

/-- A session with an empty template and the settings that its data ask for. -/
structure Blank (s : Session) (mode : EscapeMode) : Prop where
  escapeMode : escapeMode s.data = .ok mode
  tag : s.tag = Configuration.tag s.data
  marksFiles : s.marksFiles = Configuration.marksFiles s.data
  reader : s.reader = { builder := .start mode, scope := s.reader.scope }

theorem Prepared.attained (h : s.Prepared) : s.Attained := by
  induction h with
  | create h => exact .create h
  | register _ h ih => exact .register ih h
  | setGlobals _ globals ih => exact .setGlobals ih globals

theorem Prepared.blank (h : s.Prepared) : ∃ mode, s.Blank mode := by
  induction h with
  | create h =>
    obtain ⟨mode, hmode, rfl⟩ := eq_fresh_of_create h
    exact ⟨mode, hmode, rfl, rfl, rfl⟩
  | @register s s' f _ h ih =>
    obtain ⟨mode, hs⟩ := ih
    obtain ⟨fs, rfl⟩ := eq_of_register h
    exact ⟨mode, { hs with }⟩
  | setGlobals _ globals ih =>
    obtain ⟨mode, hs⟩ := ih
    refine ⟨mode, { hs with reader := ?_ }⟩
    rw [Session.setGlobals, hs.reader]

theorem Blank.settle {mode} (h : s.Blank mode) : s.settle.Blank mode := by
  unfold Session.settle
  split
  · exact h
  · refine { h with reader := ?_ }
    rw [h.reader]

/-- What a command includes when it is rendered. -/
def includesLater? (s : Session) (command : Bytes) : Option Included :=
  (s.soleCommand? command).bind (includedLater? s.settle.settings s.settle.reader.scope)

/-- What can be seen of the template, if loops may go round no more than `limit` times. -/
def outcomeWithin (s : Session) (limit : Int32) : Outcome :=
  .of (s.rendered (Render.items nestingLimit s.items { s.renderSettings with loopLimit := limit }
    s.renderStart))

theorem outcomeWithin_eq (hs : everyOf shallow s.items = true)
    (hl : everyOf (fun a => !a.isLoop) s.items = true)
    (limit : Int32) : s.outcomeWithin limit = s.outcome := by
  have he : EndsAlike (Render.items nestingLimit s.items
      { s.renderSettings with loopLimit := limit } s.renderStart)
      (Render.items nestingLimit s.items s.renderSettings s.renderStart) := by
    refine endsAlike_shallow ?_ hs (.inr hl) ?_
    · rfl
    · exact ⟨rfl, rfl, rfl, fun _ hx => (not_mem_none _ hx).elim, rfl, rfl, trivial⟩
  exact outcome_eq_of_endsAlike he

/-- A template is rendered as one that is alike and is nested one level less deeply. -/
theorem outcome_eq_outcomeWithin {e : Session} {limit : Int32} {is : List Item}
    (hal : Item.Alike is e.items)
    (h : EndsAlike (Render.items nestingLimit s.items s.renderSettings s.renderStart)
      (Render.items (nestingLimit - 1) is { e.renderSettings with loopLimit := limit }
        e.renderStart))
    (hl : s.outcome.result ≠ .error none) : s.outcome = e.outcomeWithin limit := by
  have hs : e.renderStart.Like (Depths e.reader.depth e.reader.depth) none e.renderStart :=
    ⟨rfl, rfl, rfl, fun _ hx => (not_mem_none _ hx).elim, rfl, rfl, rfl, rfl⟩
  have ha := agrees_alike (r := { e.renderSettings with loopLimit := limit }) hal rfl rfl rfl rfl
    (fun _ => rfl) (nestingLimit - 1) (k := e.reader.depth)
  refine outcome_eq_of_endsAlike (h.trans (EndsAlike.of_agrees ha rfl hs ?_).1)
  rintro x hx rfl
  exact hl (h.result.trans hx)

/-- Templates with one command are read that includes the same when it is read and when it is
rendered. -/
theorem Blank.outcome_eq {mode} (hs : s.Blank mode) (hau : s.settings.auto = {})
    (hl : s.reader.scope.locals = []) {l l' early late word word' i}
    (hea : Parse.Sole s.tag l early l' word)
    (hi : Parse.included? s.settings s.reader.scope word = some i)
    (hla : Parse.Sole s.tag l late l' word')
    (hi' : includedLater? s.settings s.reader.scope word' = some i)
    {e} (hre : text nestingLimit (l ++ (early ++ l')) s.settings s.reader = (.ok (), e))
    (hsh : everyOf shallow e.builder.template = true) :
    ∃ t, text nestingLimit (l ++ (late ++ l')) s.settings s.reader = (.ok (), t) ∧
      (({ s with reader := t } : Session).outcome.result ≠ .error none →
        ({ s with reader := t } : Session).outcome =
          ({ s with reader := e } : Session).outcomeWithin 0) := by
  have he : s.reader.builder = .start mode := by rw [hs.reader]
  obtain ⟨t, mark, action, first, last, hpa, ht, hf, hlas, hes, hd, hscope, hde, hlog⟩ :=
    text_later (m := nestingLimit - 1) hau hla he hl hi'
  refine ⟨t, hpa, fun hli => ?_⟩
  let late : Session := { s with reader := t }
  let start := separate late.renderSettings late.renderStart mode (t.depth + i.depth)
  have hst : s.reader.Separate i mode start := by
    refine ⟨rfl, ?_, hscope, congrArg (· + i.depth) hde, hlog, rfl⟩
    rw [hs.reader]
    rfl
  obtain ⟨hp, first', last', hf', hl', ha⟩ :=
    text_included_alone (m := nestingLimit - 1) hau hea he hl hi hre hst
  cases hin : i.read (text (nestingLimit - 1)) s.settings start with
  | mk result after =>
    rw [hin] at hp ha
    have hk : after.scope = t.scope := by
      have hsp := Included.read_scope (i := i) (r := s.settings) (m := nestingLimit - 1)
        (s := start) ((congrArg Scope.locals hscope).trans hl)
      rw [hin] at hsp
      exact hsp
    have hins : everyOf shallow after.builder.template = true := by
      rw [← everyOf_coreOf (fun _ => rfl) fun _ => rfl, ha,
        everyOf_coreOf (fun _ => rfl) fun _ => rfl,
        everyOf, everyOf_append, Bool.and_eq_true, Bool.and_eq_true] at hsh
      exact hsh.2.1
    have hmode : Configuration.escapeMode t.scope.data = .ok mode := hscope ▸ hs.escapeMode
    have hc : Render.Configured late.renderSettings t.scope.data := by
      rw [hscope]
      exact ⟨hs.tag, hs.marksFiles⟩
    have hd' : i.Deferred t.scope mark action := hscope ▸ hd
    have hro : t.depth < deepestNesting := by
      rw [hde, hs.reader]
      exact Nat.zero_lt_succ 49
    have heq : t.scope = e.scope := by
      have hsp : (text nestingLimit (l ++ (early ++ l')) s.settings s.reader).2.scope =
          s.reader.scope :=
        text_scope hl _
      rw [hre] at hsp
      exact hscope.trans hsp.symm
    refine outcome_eq_outcomeWithin (s := late) (e := { s with reader := e }) ha.symm ?_ hli
    have hit : late.items = _ := ht
    rw [hit]
    refine endsAlike_late hmode hes hc hau hro hd' hin hp hk
      hins hf hlas hf' hl' ?_ ?_ ?_
    · rfl
    · rfl
    · exact ⟨heq, rfl, rfl, fun _ hx => (not_mem_none _ hx).elim, rfl, rfl, trivial⟩

/-- A command that includes something when it is rendered does what the command does that includes
it when it is read and whose loops must not go round. -/
theorem outcome_late (hs : s.Prepared) (hauto : s.settle.settings.auto.enabled = false)
    {l l' early late : Bytes}
    {i : Included} {n n' : Nat} (hearly : s.includes? early = some i)
    (hlate : s.includesLater? late = some i)
    (hl : Clear s.tag l (early ++ l')) (hl' : Clear s.tag l (late ++ l'))
    (hlast : nextCommand? s.tag l' = none) (hread : (s.parseText (l ++ (early ++ l')) n).2 = .ok ())
    (hshallow : everyOf shallow (s.parseText (l ++ (early ++ l')) n).1.items = true)
    (hlength : (l ++ (late ++ l')).untilNul.length = n')
    (hlimit : (s.parseText (l ++ (late ++ l')) n').1.outcome.result ≠ .error none) :
    (s.parseText (l ++ (late ++ l')) n').2 = .ok () ∧
      (s.parseText (l ++ (late ++ l')) n').1.outcome =
      (s.parseText (l ++ (early ++ l')) n).1.outcomeWithin 0 ∧
      (everyOf (fun a => !a.isLoop) (s.parseText (l ++ (early ++ l')) n).1.items = true →
        (s.parseText (l ++ (late ++ l')) n').1.outcome =
          (s.parseText (l ++ (early ++ l')) n).1.outcome) := by
  obtain ⟨word, hword, hi⟩ := bind_eq_some_iff.mp hearly
  obtain ⟨hfirst, hclean⟩ := soleCommand?_eq_some hword
  obtain ⟨word', hword', hi'⟩ := bind_eq_some_iff.mp hlate
  obtain ⟨hfirst', hclean'⟩ := soleCommand?_eq_some hword'
  obtain ⟨mode, hblank⟩ := hs.blank
  have hlocals : s.settle.reader.scope.locals = [] :=
    (settle_locals s).trans hs.attained.locals_eq_nil
  have hannounced := length_of_parseText hread
  rw [parseText_eq hlength, parse_eq] at hlimit ⊢
  rw [parseText_eq hannounced, parse_eq] at hread hshallow ⊢
  rw [← settle_tag s] at hfirst hfirst' hl hl' hlast
  obtain ⟨t, ht, houtcome⟩ := hblank.settle.outcome_eq (hs.attained.auto_off hauto) hlocals ⟨hfirst,
    hclean, hl, hlast⟩ hi
    ⟨hfirst', hclean', hl', hlast⟩ hi' (Prod.ext hread rfl) hshallow
  rw [ht] at hlimit ⊢
  exact ⟨rfl, houtcome hlimit, fun hloops =>
    (houtcome hlimit).trans (outcomeWithin_eq hshallow hloops 0)⟩

/-- A file with a loop that assigns, included while reading and while rendering. -/
theorem outcome_late_of_each :
    let data : Node := ⟨[], none, false, [],
      [⟨ascii "L", none, false, [], [⟨ascii "0", some (ascii "p"), false, [], []⟩,
      ⟨ascii "1", some (ascii "q"), false, [], []⟩]⟩]⟩
    let place : MarkupPlace := ⟨.text, 0, false, 0, false, false, false, none⟩
    let x := ascii "b<?cs each:i = L ?>[<?cs var:i ?><?cs set:Last = i ?>]<?cs /each ?>"
    let early := ascii "a<?cs include:\"f\" ?>c"
    let late := ascii "a<?cs linclude:\"f\" ?>c"
    ∃ s : Session, create data (.table [(ascii "f", x)]) place = .ok s ∧ s.Prepared ∧
      s.settle.settings.auto.enabled = false ∧ s.includes? (ascii "<?cs include:\"f\" ?>") =
      some (.file (ascii "f") false) ∧
      s.includesLater? (ascii "<?cs linclude:\"f\" ?>") = some (.file (ascii "f") false) ∧
      (s.parseText early early.length).2 = .ok () ∧
      everyOf shallow (s.parseText early early.length).1.items = true ∧
      (s.parseText late late.length).2 = .ok () ∧ (s.parseText late late.length).1.outcome.output =
      ascii "ab[p][q]c" ∧
      (s.parseText late late.length).1.outcome = (s.parseText early early.length).1.outcome := by
  intro data place x early late
  let s := fresh .undefined data (.table [(ascii "f", x)]) place
  let now := ascii "<?cs include:\"f\" ?>"
  let later := ascii "<?cs linclude:\"f\" ?>"
  have hcreate : create data (.table [(ascii "f", x)]) place = .ok s := create_eq rfl _ _
  have hsettings : s.settle.settings.auto.enabled = false ∧
      s.includes? now = some (.file (ascii "f") false) ∧
      s.includesLater? later = some (.file (ascii "f") false) ∧
      Clear s.tag (ascii "a") (now ++ ascii "c") ∧
      Clear s.tag (ascii "a") (later ++ ascii "c") ∧ nextCommand? s.tag (ascii "c") = none ∧
      late.untilNul.length = late.length := by decide +kernel
  have hruns : (s.parseText early early.length).2.toBool = true ∧
      everyOf shallow (s.parseText early early.length).1.items = true ∧
      everyOf (fun a => !a.isLoop) (s.parseText early early.length).1.items = true ∧
      (s.parseText late late.length).1.outcome.result.toBool = true ∧
      (s.parseText late late.length).1.outcome.output = ascii "ab[p][q]c" := by decide +kernel
  obtain ⟨hauto, hearly, hlate, hl, hl', hlast, hlength⟩ := hsettings
  obtain ⟨hread, hshallow, hloops, hlimit, houtput⟩ := hruns
  obtain ⟨hok, -, hequal⟩ :=
    outcome_late (.create hcreate) hauto hearly hlate hl hl' hlast (eq_ok_of_toBool hread) hshallow
    hlength (ne_of_toBool hlimit)
  exact ⟨s, hcreate, .create hcreate, hauto, hearly, hlate, eq_ok_of_toBool hread, hshallow, hok,
    houtput, hequal hloops⟩

/-- A loop that goes round in a file that is included late does not do what it does in a file that
is included early. -/
theorem outcome_late_ne_of_loop : let place : MarkupPlace :=
  ⟨.text, 0, false, 0, false, false, false, none⟩
    let early := ascii "<?cs include:\"f\" ?>"
    let late := ascii "<?cs linclude:\"f\" ?>"
    ∃ s : Session, create .root (.table [(ascii "f", ascii "<?cs loop:i = 1, 3 ?>x<?cs /loop ?>")])
      place = .ok s ∧
      s.settle.settings.auto.enabled = false ∧ s.includes? early = some (.file (ascii "f") false) ∧
      s.includesLater? late = some (.file (ascii "f") false) ∧
      (s.parseText early early.length).2.toBool = true ∧
      everyOf shallow (s.parseText early early.length).1.items = true ∧
      (s.parseText late late.length).2.toBool = true ∧
      (s.parseText early early.length).1.outcome.result = .ok () ∧
      (s.parseText early early.length).1.outcome.output = ascii "xxx" ∧
      (s.parseText late late.length).1.outcome.result = .error (some .range) ∧
      (s.parseText late late.length).1.outcome.output = [] := by
  intro place early late
  refine ⟨fresh .undefined .root _ place, create_eq rfl _ _, ?_⟩
  decide +kernel

end Session

end TemplateKit
