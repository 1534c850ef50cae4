import TemplateKit.Proofs.Template.Modes

/-!
# Escaping for HTML is complete

Where values are escaped for HTML and no command or function says otherwise, every piece of the
output is a piece of template text, a numeral or an escaped value. Inside of a macro the mode is
left open when the template is read and is that of the call when it is rendered, so that the
invariant joins the two: an item and the state it is rendered in give the mode for HTML together.
-/

namespace TemplateKit

open Program Configuration Numeral Html Parse List

namespace Html

/-- The characters that can start or end markup. -/
def markup : Bytes := "<>\"'"

theorem markup_eq : markup = [60, 62, 34, 39] := by decide +kernel

theorem escapeByte_inert (b : UInt8) : ∀ c ∈ escapeByte b, c ∉ markup := by
  have he : ∀ entity ∈ [ascii "&amp;", ascii "&lt;", ascii "&gt;", ascii "&quot;", ascii "&#39;"],
      ∀ c ∈ entity, c ∉ markup := by decide +kernel
  have hp : b ≠ 60 → b ≠ 62 → b ≠ 34 → b ≠ 39 → ∀ c ∈ [b], c ∉ markup := by
    intro h₁ h₂ h₃ h₄
    simp [markup_eq, h₁, h₂, h₃, h₄]
  unfold escapeByte
  split_ifs with hamp hlt hgt hq ha hcr
  · exact he _ (by simp)
  · exact he _ (by simp)
  · exact he _ (by simp)
  · exact he _ (by simp)
  · exact he _ (by simp)
  · simp
  · exact hp (mt beq_iff_eq.mpr hlt) (mt beq_iff_eq.mpr hgt) (mt beq_iff_eq.mpr hq)
      (mt beq_iff_eq.mpr ha)

theorem escape_inert (s : Bytes) : ∀ c ∈ escape s, c ∉ markup := by
  intro c hc
  obtain ⟨b, -, hcb⟩ := mem_flatMap.mp hc
  exact escapeByte_inert b c hcb

end Html

theorem Numeral.ofInt_inert (n : Int) : ∀ c ∈ ofInt n, c ∉ markup := by
  have hn : ∀ c ∈ markup, Ascii.isDigit c = false := by simp [markup_eq, Ascii.isDigit]
  have hd : ∀ k, ∀ c ∈ ofNat k, c ∉ markup := by
    intro k c hc hm
    have hdi := isDigit_of_mem_ofNat k hc
    rw [hn c hm] at hdi
    cases hdi
  cases n with
  | ofNat k => exact hd k
  | negSucc k => exact forall_mem_cons.mpr ⟨by decide +kernel, hd (k + 1)⟩

/-- The actions that write template text `L`, or values in the mode in force that no function has
escaped. -/
def Action.Fits (L : Bytes → Prop) (m : EscapeMode) (mark : Mark) : Action → Prop
  | literal text => ∀ s ∈ text, L s
  | name _ | call _ _ => mark.escape = m
  | var _ arg | alt arg => mark.escape = m ∧ arg.expr.callsEscaper = false
  | branch _ _ | each _ _ | withAs _ _ | define _ | set _ _ | loop _ _ => True
  | evar _ | lvar _ | includeLater _ | escape _ _ | contentType _ _ _ => False

/-- The items that fit where a mode is in force, with all that is inside of them. -/
def Item.Marked (L : Bytes → Prop) (m : EscapeMode) (i : Item) : Prop :=
  i.Follows (.modes (Action.Fits L)) m

/-- A piece of output: template text `L`, a numeral or an escaped value. -/
inductive Piece (L : Bytes → Prop) : Bytes → Prop
  | literal {s : Bytes} (h : L s) : Piece L s
  | numeral (n : Int64) : Piece L (ofInt n.toInt)
  | escaped (v : Bytes) : Piece L (escape v)

namespace Render

def Pieced (L : Bytes → Prop) : Invariant := fun _ w _ => ∀ p ∈ w, Piece L p

/-- The same while items that have no mode are rendered in the mode `m`. -/
def PiecedIn (L : Bytes → Prop) (m : EscapeMode) : Invariant :=
  fun _ w u => (∀ p ∈ w, Piece L p) ∧ u = m

section

variable {L : Bytes → Prop} {m u : EscapeMode} {r : RenderSettings}

theorem PiecedIn.pieced (s : Scope) (w : List Bytes) (u' : EscapeMode) (h : PiecedIn L u s w u') :
    Pieced L s w u' := h.1

theorem PiecedIn.write {s} (hs : Piece L s) (sc : Scope) (w : List Bytes) (u' : EscapeMode)
    (h : PiecedIn L u sc w u') : PiecedIn L u sc (s :: w) u' := ⟨forall_mem_cons.mpr ⟨hs, h.1⟩, h.2⟩

theorem stable_piecedIn : Stable (PiecedIn L u) :=
  fun _ _ => Scope.KeptByRebinding.finding fun _ _ _ _ _ hs => hs

theorem encloses_piecedIn (ls : List Local) :
    Encloses ls (PiecedIn L u) (PiecedIn L u) (Pieced L) (Pieced L) where
  enter _ _ _ h := h
  leave _ _ _ h := h
  stop _ _ _ h := h

theorem after_eval_piecedIn {α : Type} {e : Eval α} :
    Keeps (PiecedIn L u) (Pieced L) r (eval e) := by
  refine after_eval fun w u' s hs => ⟨rfl, ?_⟩
  obtain ⟨result, s'⟩ := e s
  cases result with
  | ok a => exact hs
  | error overflow => exact hs.1

/-- An item is rendered in pieces if its mode is that for HTML, or is left open and is that for HTML
now. -/
theorem sustains_piecedIn (hm : ∀ m ∈ r.macros, ∀ i ∈ m.body, i.Marked L .undefined) {items fuel}
    (hit : ∀ m u is, (∀ i ∈ is, Item.Marked L m i) → (if m = .undefined then u else m) = .html →
      Coupled (PiecedIn L u) (Pieced L) r (items is) (items is))
    {i} (hi : i.Marked L m) (hin : ∀ j ∈ i.body, j.Marked L m)
    (hmo : (if m = .undefined then u else m) = .html) :
    Sustains r fuel items items (fun _ => True) (PiecedIn L u) (Pieced L) i := by
  have hsh : i.mark.escape = m → ∀ sc w u' s t, PiecedIn L u sc w u' → Shows i.mark u' s t →
      PiecedIn L u sc (t :: w) u' := by
    intro he sc w u' s t hw hsho
    have hh : modeOf i.mark u' = .html := by rw [modeOf, he, hw.2, hmo]
    rw [Shows, hh] at hsho
    rcases hsho with h | h
    · cases h
    · cases h
      exact PiecedIn.write (.escaped s) sc w u' hw
  obtain ⟨hf, -, ho⟩ := hi
  rename_i mark act body otherwise
  exact {
    stable := stable_piecedIn
    stops := PiecedIn.pieced
    value := fun _ _ => after_eval_piecedIn.post fun _ _ hs => ⟨trivial, hs⟩
    literal := by
      rintro s rfl
      exact after_writeLiteral (PiecedIn.write (.literal (hf s rfl))) PiecedIn.pieced
    name := by
      rintro s name rfl
      exact after_writeEscaped (fun sc w u' => hsh hf sc w u' name) PiecedIn.pieced PiecedIn.pieced
    argument := by
      intro arg v harg
      have hp : mark.escape = m ∧ arg.expr.callsEscaper = false := by
        cases act <;> cases harg
        · exact hf
        · exact hf
      refine after_writeArgument stable_piecedIn (fun sc w u' n =>
        PiecedIn.write (.numeral n) sc w u') (fun hca => ?_) (hsh hp.1) PiecedIn.pieced v
      cases hp.2.symm.trans hca
    assign := fun _ _ _ t v _ => after_assign (T := fun _ _ => True) stable_piecedIn PiecedIn.pieced
      (fun _ => trivial)
      (fun _ => (stable_piecedIn.text v).post fun _ _ hs => ⟨trivial, hs⟩)
      (fun _ _ _ _ _ _ _ hw _ => hw)
      fun _ _ _ _ _ _ _ hw => hw.1
    deep := by
      intro hd
      cases act with
      | call callee args =>
        have hcal : ∀ u', modeOf mark u' = if m = .undefined then u' else m := by
          intro u'
          rw [modeOf, show mark.escape = m from hf]
        refine couples_callBy (J := PiecedIn L .html) (B := fun _ => True) (fun s w u' hw =>
          ⟨hw.1, ?_⟩) (fun _ _ _ hw => hw)
          (fun _ _ _ _ _ _ hw₀ hw => ⟨hw.1, hw₀.2⟩) (fun _ _ _ _ _ _ _ hw => hw)
          (fun _ _ _ => after_parameter stable_piecedIn after_eval_piecedIn) fun ls _ => ?_
        · rw [hcal, hw.2, hmo]
        · refine ⟨PiecedIn L .html, Pieced L, encloses_piecedIn ls, PiecedIn.pieced,
            fun callee hc => ?_⟩
          exact hit .undefined .html _ (hm callee hc) rfl
      | lvar | includeLater => cases hf
      | _ => cases hd
    body := hit m u _ hin hmo
    otherwise := hit m u _ ho hmo
    inside := fun _ _ => ⟨_, _, encloses_piecedIn _, hit m u _ hin hmo, fun _ _ _ _ _ h => h⟩ }

theorem after_item (hm : ∀ m ∈ r.macros, ∀ i ∈ m.body, i.Marked L .undefined) (fuel : Nat) {i}
    (hi : i.Marked L m) (hmo : (if m = .undefined then u else m) = .html) :
    Keeps (PiecedIn L u) (Pieced L) r (item fuel i) := by
  induction fuel generalizing m u i with
  | zero => exact stops fun _ hs => hs.1
  | succ fuel ih =>
    have hit : ∀ m u is, (∀ i ∈ is, Item.Marked L m i) → (if m = .undefined then u else m) = .html →
        Coupled (PiecedIn L u) (Pieced L) r (items fuel is) (items fuel is) :=
      fun m u is his hmo => through fun i hi => ih (his i hi) hmo
    by_cases hb : i.action.bodyMode m = m
    · refine (sustains_piecedIn hm hit hi (fun j hj => ?_) hmo).coupled
      cases hi with
      | mk _ hin _ => exact hb ▸ hin j hj
    · obtain ⟨mark, act, body, otherwise⟩ := i
      cases act with
      | define signature => exact stays
      | escape =>
        cases hi with
        | mk hf _ _ => cases hf
      | _ => exact absurd rfl hb

end

end Render

namespace Item

theorem Marked.macros {L : Bytes → Prop} {m : EscapeMode} {i : Item} (h : i.Marked L m) :
    ∀ callee ∈ i.macros, ∀ j ∈ callee.body, j.Marked L .undefined := by
  induction h with
  | mk fits inside other ihinside ihother =>
    intro callee hc
    rcases mem_macros hc with ⟨signature, rfl, rfl⟩ | ⟨i, hi, hc⟩ | ⟨i, hi, hc⟩
    · exact inside
    · exact ihinside i hi callee hc
    · exact ihother i hi callee hc

end Item

/-- The commands that neither change the escape mode nor read texts from elsewhere. -/
def Command.isPlain : Command → Bool
  | uvar | evar | lvar | includeNow | includeLater | escape | contentType => false
  | _ => true

section Reading

variable {L : Bytes → Prop} {m : EscapeMode} {fs : List Function}

theorem Action.fits_of_noted (hfs : ∀ f ∈ fs, f.escaping = false) {mark : Mark} {a : Action}
    (ha : a.Of fun c => c.isPlain = true) (hn : a.Noted L fs m mark) : a.Fits L m mark := by
  cases a with
  | literal | name | call => exact hn
  | var raw arg =>
    cases raw with
    | false => exact ⟨hn.1, hn.2 hfs⟩
    | true => cases ha _ rfl
  | alt arg => exact ⟨hn.1, hn.2 hfs⟩
  | branch | each | withAs | set | loop => trivial
  | define | escape => exact hn.elim
  | evar | lvar | includeLater | contentType => cases ha _ rfl

theorem Parse.keeps_text {r : ParserSettings} (hfs : ∀ f ∈ r.functions, f.escaping = false) {x}
    (hL : ∀ s, LiteralIn r.tag x s → L s) (hp : ∀ c ∈ commandsIn r.tag x, c.isPlain = true) {fuel} :
    Keeps (Action.Fits L) m r (text fuel x) := by
  have hr : Readable (fun c => c.isPlain = true) L (· = x) r :=
    { commands := fun h hc => hp _ (h ▸ hc)
      literal := fun h hs => hL _ (h ▸ hs)
      marker := fun hK => by cases hK
      file := fun hK => by cases hK
      value := fun hK => by cases hK }
  have hkept := Builder.kept_marked (F := Action.Fits L) (m := m) (fun ha hn =>
    Action.fits_of_noted hfs ha hn) (fun _ _ _ => trivial) (by rintro ⟨⟩)
  exact both_text (p := marking _ m) hkept hr tolerant_marking (.inr ⟨rfl, .inl trivial⟩) rfl

end Reading

namespace Session

variable {s s' : Session}

/-- A session that reads texts one after the other, if all goes well. -/
def load? (s : Session) : List Bytes → Option Session
  | [] => some s
  | text :: more =>
    match s.parseText text text.length with
    | (s, .ok _) => s.load? more
    | (_, .error _) => none

variable {L : Bytes → Prop} {m : EscapeMode}

theorem marked_load? {texts} (hfs : ∀ f ∈ s.functions, f.escaping = false)
    (hL : ∀ t ∈ texts, ∀ p, Parse.LiteralIn s.tag t p → L p)
    (hp : ∀ t ∈ texts, ∀ c ∈ commandsIn s.tag t, c.isPlain = true)
    (hs : s.reader.builder.Marked (Action.Fits L) m) (h : s.load? texts = some s') :
    s'.reader.builder.Marked (Action.Fits L) m := by
  induction texts generalizing s with
  | nil =>
    cases h
    exact hs
  | cons text texts ih =>
    rw [forall_mem_cons] at hL hp
    rw [load?] at h
    obtain ⟨action, heq, hb⟩ := s.parseText_reads text text.length
    have hk : Parse.Keeps (Action.Fits L) m s.settle.settings action := by
      refine hb _ _ (keeps_text ?_ ?_ ?_)
      · simpa [settings] using hfs
      · simpa [settings] using hL.1
      · simpa [settings] using hp.1
    split at h
    · next s₁ _ hpa =>
      rw [heq] at hpa
      have hm := marked_parse hk hs (congrArg Prod.snd hpa)
      obtain rfl : (s.parse action).1 = s₁ := congrArg Prod.fst hpa
      refine ih ?_ ?_ ?_ hm h
      · exact (settle_functions s).symm ▸ hfs
      · exact (settle_tag s).symm ▸ hL.2
      · exact (settle_tag s).symm ▸ hp.2
    · cases h

theorem not_escaping_of_registerAll {fs more fs'} (h : Function.registerAll fs more = .ok fs')
    (hfs : ∀ f ∈ fs, f.escaping = false) (hm : ∀ f ∈ more, f.escaping = false) : ∀ f ∈ fs',
    f.escaping = false := by
  induction more generalizing fs with
  | nil =>
    cases h
    exact hfs
  | cons f more ih =>
    rw [forall_mem_cons] at hm
    rw [Function.registerAll, Function.register] at h
    split at h
    · cases h
    · exact ih h (forall_mem_cons.mpr ⟨hm.1, hfs⟩) hm.2

theorem escapeMode_html {data} (h : data.value? (ascii "Config.VarEscapeMode") =
    some (ascii "html")) :
    escapeMode data = .ok .html := by
  have hn : EscapeMode.named.find? (·.1 == ascii "html") = some (ascii "html", .html) := by
    decide +kernel
  simp only [escapeMode, h, Option.getD_some, hn]

theorem registerAll_eq {fs} (h : s.registerAll fs = .ok s') :
    Function.registerAll s.functions fs = .ok s'.functions ∧ s'.reader = s.reader := by
  unfold registerAll at h
  cases hfs : Function.registerAll s.functions fs with
  | error f =>
    rw [hfs] at h
    cases h
  | ok functions =>
    rw [hfs] at h
    cases h
    exact ⟨rfl, rfl⟩

/-- What is rendered consists of pieces if the items of the template have the mode for HTML. -/
theorem render_pieces (h : ∀ i ∈ s.items, i.Marked L .html) :
    ∃ pieces : List Bytes, s.render.2.1 = pieces.flatten ∧ ∀ p ∈ pieces, Piece L p := by
  have hma : ∀ m ∈ Item.macrosOf s.items, ∀ i ∈ m.body, i.Marked L .undefined := by
    intro m hm
    obtain ⟨i, hi, hmi⟩ := Item.mem_macrosOf.mp hm
    exact (h i hi).macros m hmi
  have hrun : After (Render.On (Render.PiecedIn L .undefined))
      (Render.items nestingLimit s.items s.renderSettings)
      (fun _ => Render.On (Render.PiecedIn L .undefined)) (Render.On (Render.Pieced L)) :=
    through fun i hi => Render.after_item hma nestingLimit (h i hi) rfl
  have hw : After (Render.On (Render.PiecedIn L .undefined))
      (Render.items nestingLimit s.items s.renderSettings)
      (fun _ => Render.On (Render.Pieced L)) (Render.On (Render.Pieced L)) :=
        hrun.post fun _ _ hs => hs.1
  obtain ⟨-, written, mode, ho, hpi⟩ := renderBy_couples _ _ hw ⟨by simp, rfl⟩
  refine ⟨written.reverse, ho, fun p hp => ?_⟩
  rw [mem_reverse] at hp
  exact hpi p hp

/-- Where the data ask for escaping for HTML, no function escapes and the texts hold only plain
commands, all that is rendered consists of template text outside of commands, numerals and escaped
values, whatever data, global tree and settings the session has by then; only the template text
holds markup. -/
theorem render_html_pieces {data : Node} {source : Source} {place : MarkupPlace}
    {fs : List Function} {texts : List Bytes}
    {s₀ s₁ s₂ : Session} (hmode : data.value? (ascii "Config.VarEscapeMode") = some (ascii "html"))
    (hcreate : create data source place = .ok s₀) (hregister : s₀.registerAll fs = .ok s₁)
    (hfs : ∀ f ∈ fs, f.escaping = false)
    (hplain : ∀ t ∈ texts, ∀ c ∈ commandsIn s₁.tag t, c.isPlain = true)
    (hload : s₁.load? texts = some s₂)
    (s : Session) (hs : s.items = s₂.items) : ∃ pieces : List Bytes, s.render.2.1 = pieces.flatten ∧
      ∀ p ∈ pieces,
      (∃ t ∈ texts, Parse.LiteralIn s₁.tag t p) ∨
        ((∃ n : Int64, p = ofInt n.toInt) ∨ ∃ v, p = escape v) ∧ ∀ c ∈ p, c ∉ markup := by
  obtain ⟨hfunctions, hbuilder⟩ : s₀.functions = Function.builtins ∧
      s₀.reader.builder = .start .html := by
    rw [create, escapeMode_html hmode] at hcreate
    cases hcreate
    exact ⟨rfl, rfl⟩
  obtain ⟨hregistered, hreader⟩ := registerAll_eq hregister
  have hnone : ∀ f ∈ s₁.functions, f.escaping = false := by
    refine not_escaping_of_registerAll hregistered ?_ hfs
    rw [hfunctions]
    simp [Function.builtins]
  have hmarked : s₂.reader.builder.Marked (Action.Fits fun p => ∃ t ∈ texts,
      Parse.LiteralIn s₁.tag t p) .html := by
    refine marked_load? hnone (fun t ht p hp => ⟨t, ht, hp⟩) hplain ?_ hload
    rw [hreader, hbuilder]
    exact .start (by rintro _ ⟨⟩)
  have hitems : ∀ i ∈ s.items, i.Marked (fun p => ∃ t ∈ texts,
      Parse.LiteralIn s₁.tag t p) .html := by
    rw [hs]
    exact hmarked.template
  obtain ⟨pieces, houtput, hpieces⟩ := render_pieces hitems
  refine ⟨pieces, houtput, fun p hp => ?_⟩
  cases hpieces p hp with
  | literal h => exact .inl h
  | numeral n => exact .inr ⟨.inl ⟨n, rfl⟩, ofInt_inert n.toInt⟩
  | escaped v => exact .inr ⟨.inr ⟨v, rfl⟩, escape_inert v⟩

/-- A macro whose values are escaped. -/
theorem render_html_pieces_macro :
    let data : Node := ⟨[], none, false, [],
      [⟨ascii "Config", none, false, [], [⟨ascii "VarEscapeMode", some (ascii "html"),
      false, [], []⟩]⟩, ⟨ascii "Name", some (ascii "<a>'"), false, [], []⟩]⟩
    let texts :=
      [ascii "<?cs def:show(x) ?><i><?cs var:x ?></i><?cs /def ?><b><?cs call:show(Name) ?></b>"]
    ∃ s₀ s₁ s₂ : Session, create data (.table []) ⟨.text, 0, false, 0, false, false, false, none⟩ =
      .ok s₀ ∧
      s₀.registerAll [⟨ascii "strip", 1, false, .filter Bytes.strip⟩] = .ok s₁ ∧
      s₁.load? texts = some s₂ ∧
      s₂.render.2.1 = ascii "<b><i>&lt;a&gt;&#39;</i></b>" ∧
      ∃ pieces : List Bytes, s₂.render.2.1 = pieces.flatten ∧
        ∀ p ∈ pieces, (∃ t ∈ texts, Parse.LiteralIn s₁.tag t p) ∨
          ((∃ n : Int64, p = ofInt n.toInt) ∨ ∃ v, p = escape v) ∧ ∀ c ∈ p, c ∉ markup := by
  intro data texts
  let f : Function := ⟨ascii "strip", 1, false, .filter Bytes.strip⟩
  let s₀ : Session := fresh .html data (.table []) ⟨.text, 0, false, 0, false, false, false, none⟩
  let s₁ : Session := { s₀ with functions := f :: Function.builtins }
  have hmode : data.value? (ascii "Config.VarEscapeMode") = some (ascii "html") := by decide +kernel
  have hcreate : create data (.table []) ⟨.text, 0, false, 0, false, false, false, none⟩ = .ok s₀ :=
    create_eq (escapeMode_html hmode) ..
  have hregister : s₀.registerAll [f] = .ok s₁ := rfl
  have hplain : (texts.all fun t => (commandsIn s₁.tag t).all Command.isPlain) = true := by
    decide +kernel
  have houtput : (s₁.load? texts).map (fun s => s.render.2.1) =
      some (ascii "<b><i>&lt;a&gt;&#39;</i></b>") := by
    decide +kernel
  obtain ⟨s₂, hload, hrender⟩ := Option.map_eq_some_iff.mp houtput
  refine ⟨s₀, s₁, s₂, hcreate, hregister, hload, hrender, ?_⟩
  refine render_html_pieces hmode hcreate hregister (by simp [f]) ?_ hload s₂ rfl
  simpa only [all_eq_true] using hplain

end Session

end TemplateKit
