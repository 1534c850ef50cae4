import TemplateKit.Proofs.Template.Inclusion
import TemplateKit.Proofs.Template.Outcome

/-!
# Including in a session

A template in which a command includes a text cannot be told from the template with the text in the
place of the command, whether the command includes a file or the value of a variable.
-/

namespace TemplateKit.Session

variable {s : Session}

theorem Attained.auto_eq (h : s.Attained) :
    s.auto = none ∨ ∃ data, s.auto = some (Configuration.auto data) := by
  have hse : ∀ s : Session, (s.auto = none ∨ ∃ data, s.auto = some (Configuration.auto data)) →
      s.settle.auto = none ∨ ∃ data, s.settle.auto = some (Configuration.auto data) := by
    intro s hs
    unfold settle
    split
    · exact hs
    · exact .inr ⟨_, rfl⟩
  induction h with
  | create h =>
    obtain ⟨mode, -, rfl⟩ := eq_fresh_of_create h
    exact .inl rfl
  | @register s s' f hs h ih =>
    obtain ⟨fs, rfl⟩ := eq_of_register h
    exact ih
  | setData hs data ih => exact ih
  | setGlobals hs globals ih => exact ih
  | parseText hs text length ih => exact hse _ ih
  | parseFile hs path ih => exact hse _ ih
  | render hs ih => exact ih

/-- Files are noted only where values are escaped by their place. -/
theorem Attained.auto_off (h : s.Attained) (hoff : s.settle.settings.auto.enabled = false) :
    s.settle.settings.auto = {} := by
  have hd : ∀ data, (Configuration.auto data).enabled = false → Configuration.auto data = {} := by
    intro data
    unfold Configuration.auto
    split
    · intro hon
      cases hon
    · exact fun _ => rfl
  have hs : ∃ data, s.settle.auto = some (Configuration.auto data) := by
    unfold settle
    rcases h.auto_eq with hn | ⟨data, hso⟩
    · rw [hn]
      exact ⟨_, rfl⟩
    · rw [hso]
      exact ⟨data, hso⟩
  obtain ⟨data, ha⟩ := hs
  unfold settings at hoff ⊢
  rw [ha] at hoff ⊢
  exact hd data hoff

theorem settle_marksFiles (s : Session) : s.settle.marksFiles = s.marksFiles := by
  unfold settle
  split <;> rfl

/-- What stands inside a command, if a text is nothing but one command. -/
def soleCommand? (s : Session) (text : Bytes) : Option Bytes :=
  match Stretch.first? s.tag text with
  | some ⟨[], _, word, []⟩ => if Bytes.contains Parse.opening word then none else some word
  | _ => none

theorem soleCommand?_eq_some {text word} (h : s.soleCommand? text = some word) :
    Stretch.first? s.tag text = some ⟨[], text.length, word, []⟩ ∧
    Bytes.contains Parse.opening word = false := by
  unfold soleCommand? at h
  split at h
  · next size word hf =>
    split at h
    · cases h
    · next hc =>
      cases h
      have hl := (Stretch.first?_eq hf).1
      simp only [List.length_nil, Nat.zero_add] at hl
      exact ⟨hl ▸ hf, Bool.eq_false_iff.mpr hc⟩
  · cases h

/-- What a command includes when it is read. -/
def includes? (s : Session) (command : Bytes) : Option Included :=
  (s.soleCommand? command).bind (Parse.included? s.settle.settings s.settle.reader.scope)

/-- The text that a command stands for, if it includes one that is there. -/
def included? (s : Session) (command : Bytes) : Option Bytes :=
  (s.includes? command).bind (·.text? s.source s.settle.reader.scope)

/-- The number of blocks that are open behind a text. -/
def openBehind (s : Session) (text : Bytes) : Nat :=
  (Parse.text nestingLimit text s.settle.settings s.settle.reader).2.builder.frames.length

theorem alike_of_rough {reader reader' logName}
    (h : reader.Rough ⟨[], logName⟩ Eq reader') :
    ({ s with reader } : Session).Alike { s with reader := reader' } :=
  { h with
    settings := rfl
    items := h.builder.template
    logName := h.logName.trans h.logName'.symm
    escaper := rfl }

theorem parseText_eq {text n} (h : text.untilNul.length = n) :
    s.parseText text n = s.parse (Parse.text nestingLimit text) := by
  unfold parseText
  rw [if_pos h]

theorem length_of_parseText {text n} (h : (s.parseText text n).2 = .ok ()) :
    text.untilNul.length = n := by
  by_contra hne
  unfold parseText at h
  rw [if_neg hne] at h
  cases h

theorem ne_of_toBool {result : Except (Option Kind) Unit} {e : Option Kind}
    (h : result.toBool = true) :
    result ≠ .error e := by
  rintro rfl
  cases h

/-- A command that includes a text can be put in the place of the text: the template is read, and
nothing that is done with it tells it from the template with the text. -/
theorem outcomes_included (hs : s.Attained) (hmarks : s.marksFiles = false)
    (hauto : s.settle.settings.auto.enabled = false) {a x b command : Bytes} {n n' : Nat}
    (hincluded : s.included? command = some x) (ha : Apart s.tag a (x ++ b)) (hx : Apart s.tag x b)
    (hcommand : Apart s.tag a (command ++ b)) (hopen : s.openBehind (a ++ x) ≤ s.openBehind a)
    (hread : (s.parseText (a ++ (x ++ b)) n).2 = .ok ())
    (hlength : (a ++ (command ++ b)).untilNul.length = n')
    (hlimit : ∀ e, (s.parseText (a ++ (command ++ b)) n').2 = .error e → ¬e.IsLimit) :
    (s.parseText (a ++ (command ++ b)) n').2 = .ok () ∧
      ∀ us, (∀ o ∈ (s.parseText (a ++ (x ++ b)) n).1.outcomes us, o.result ≠ .error none) →
        (∀ o ∈ (s.parseText (a ++ (command ++ b)) n').1.outcomes us, o.result ≠ .error none) →
        (s.parseText (a ++ (command ++ b)) n').1.outcomes us =
        (s.parseText (a ++ (x ++ b)) n).1.outcomes us := by
  obtain ⟨i, hincludes, htext⟩ := Option.bind_eq_some_iff.mp hincluded
  obtain ⟨word, hword, hi⟩ := Option.bind_eq_some_iff.mp hincludes
  obtain ⟨hfirst, hclean⟩ := soleCommand?_eq_some hword
  rw [← settle_source s] at htext
  have hlocals : s.settle.reader.scope.locals = [] := (settle_locals s).trans hs.locals_eq_nil
  have htag : s.settle.settings.tag = s.tag := settle_tag s
  have hmarks' : s.settle.settings.marksFiles = false := (settle_marksFiles s).trans hmarks
  have hannounced := length_of_parseText hread
  rw [parseText_eq hannounced, parse_eq] at hread ⊢
  rw [parseText_eq hlength, parse_eq] at hlimit ⊢
  rw [← htag] at hfirst ha hx hcommand
  have hreaches := Parse.text_included (hs.auto_off hauto) hlocals hfirst hclean ha hx hcommand
    hmarks' hi htext hopen
    (Prod.ext hread rfl)
  rcases hreaches with ⟨_, reader, hrun, halike⟩ | ⟨e, reader, hrun, hstop⟩
  · rw [hrun]
    exact ⟨rfl, fun us htext hinclude => (alike_of_rough halike).outcomes_eq us hinclude htext⟩
  · rw [hrun] at hlimit
    exact absurd hstop (hlimit e rfl)

/-- A file that is included inside of a block. -/
theorem outcomes_included_inside_branch :
    let data : Node := ⟨[], none, false, [],
      [⟨ascii "L", none, false, [], [⟨ascii "0", some (ascii "p"), false, [], []⟩,
      ⟨ascii "1", some (ascii "q"), false, [], []⟩]⟩]⟩
    let place : MarkupPlace := ⟨.text, 0, false, 0, false, false, false, none⟩
    let a := ascii "<?cs if:1 ?>a"
    let x := ascii "b<?cs each:i = L ?>[<?cs var:i ?><?cs set:Last = i ?>]<?cs /each ?>"
    let b := ascii "c<?cs /if ?><?cs var:Last ?>"
    let command := ascii "<?cs include:\"f\" ?>"
    let text := a ++ (x ++ b)
    let short := a ++ (command ++ b)
    ∃ s : Session, create data (.table [(ascii "f", x)]) place = .ok s ∧ s.Attained ∧
      s.marksFiles = false ∧
      s.settle.settings.auto.enabled = false ∧ s.included? command = some x ∧
      Apart s.tag a (x ++ b) ∧ Apart s.tag x b ∧
      Apart s.tag a (command ++ b) ∧ s.openBehind (a ++ x) ≤ s.openBehind a ∧
      (s.parseText text text.length).2 = .ok () ∧ (s.parseText short short.length).2 = .ok () ∧
      (s.parseText text text.length).1.outcome.output = ascii "ab[p][q]cq" ∧
      (s.parseText short short.length).1.outcomes [.render, .setData .root, .render] =
        (s.parseText text text.length).1.outcomes [.render, .setData .root, .render] := by
  intro data place a x b command text short
  let s := fresh .undefined data (.table [(ascii "f", x)]) place
  have hcreate : create data (.table [(ascii "f", x)]) place = .ok s := create_eq rfl _ _
  have hsettings : s.marksFiles = false ∧ s.settle.settings.auto.enabled = false ∧
      s.included? command = some x ∧
      short.untilNul.length = short.length := by decide +kernel
  have happart : Apart s.tag a (x ++ b) ∧ Apart s.tag x b ∧ Apart s.tag a (command ++ b) ∧
      s.openBehind (a ++ x) ≤ s.openBehind a := by decide +kernel
  have hruns : (s.parseText text text.length).2.toBool = true ∧
      (s.parseText short short.length).2.toBool = true ∧
      (∀ o ∈ (s.parseText text text.length).1.outcomes [.render, .setData .root, .render],
        o.result.toBool = true) ∧
      (∀ o ∈ (s.parseText short short.length).1.outcomes [.render, .setData .root, .render],
        o.result.toBool = true) ∧
      (s.parseText text text.length).1.outcome.output = ascii "ab[p][q]cq" := by decide +kernel
  obtain ⟨hmarks, hauto, hincluded, hlength⟩ := hsettings
  obtain ⟨ha, hx, hcommand, hopen⟩ := happart
  obtain ⟨hread, hread', htext, hshort, houtput⟩ := hruns
  have hlimit : ∀ e, (s.parseText short short.length).2 = .error e → ¬e.IsLimit := by
    intro e he
    cases (eq_ok_of_toBool hread').symm.trans he
  obtain ⟨hok, hequal⟩ :=
    outcomes_included (.create hcreate) hmarks hauto hincluded ha hx hcommand hopen
    (eq_ok_of_toBool hread) hlength hlimit
  exact ⟨s, hcreate, .create hcreate, hmarks, hauto, hincluded, ha, hx, hcommand, hopen,
    eq_ok_of_toBool hread, hok, houtput,
    hequal _ (fun o ho => ne_of_toBool (htext o ho)) fun o ho => ne_of_toBool (hshort o ho)⟩

end TemplateKit.Session
