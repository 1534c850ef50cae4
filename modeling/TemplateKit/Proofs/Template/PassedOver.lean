import TemplateKit.Proofs.Template.Substitution

/-!
# Including files that are missing

A command that includes a file which need not be there is passed over when the file is missing. It
adds nothing to the template, but the level to which it has gone down is not given back. So a text
into which such commands are put is read as it was, and what follows is some levels deeper: the
template shows the same, unless it comes to the deepest level.
-/

namespace TemplateKit

open Program

namespace Parse

variable {r : ParserSettings} {text : Bytes → Parse Unit} {s : ParseState} {path : Bytes}
  {f : Failure}

theorem file_missing (text : Bytes → Parse Unit) (hload : load r.source s.scope path = .error f) :
    file text (some path) r s = (.error (.failure f), s) := by
  unfold file
  rw [read_bind]
  dsimp only
  rw [get_bind, hload]
  rfl

theorem includeNow_missing {t ends} (ho : t.required = false)
    (hpa : HasText r s.scope t.text path ends)
    (hload : load r.source s.scope path = .error f) (hmissing : f.isA .notFound = true) :
    Reaches r (includeNow text t) s fun _ s' => s' =
    { s.spent t.base t.text ends with depth := s.depth + 1 } := by
  refine .of_eq (includeNow_eq hpa) ?_
  rcases includePath_run text t.required path (s.spent _ _ _) with ⟨e, he,
    hl⟩ | ⟨result, s₁, hf, he⟩
  · exact .inr ⟨e, _, he, hl⟩
  cases hf.symm.trans (file_missing text hload)
  rcases he with ⟨-, he⟩ | ⟨hp, -⟩
  · exact .inl ⟨(), _, he, rfl⟩
  · rw [isA_notFound, beq_iff_eq] at hmissing
    exact absurd (.inr ⟨path, f, by rw [ho], rfl, hmissing⟩) hp

/-- A text with a command that is passed over is read as the text without it, one level deeper
behind the command. -/
theorem text_passed {a b command word : Bytes} (hauto : r.auto = {}) (hlocals : s.scope.locals = [])
    (hcommand : Stretch.first? r.tag command = some ⟨[], command.length, word, []⟩)
    (hword : Bytes.contains opening word = false)
    (hincluded : included? r s.scope word = some (.file path false))
    (hload : load r.source s.scope path = .error f) (hmissing : f.isA .notFound = true)
    (ha : Apart r.tag a b) (hcommands : Apart r.tag a (command ++ b)) (n : Nat) :
    Tracks Stop.IsLimit (fun _ t _ t' => t.Rough ⟨[], s.logName⟩ (Below 1) t') (fun e _ e' _ =>
      e.kind? = e'.kind?) (Parse.text n (a ++ (command ++ b)) r s) (Parse.text n (a ++ b) r s) := by
  cases n with
  | zero => exact .limit (.inl rfl)
  | succ m =>
    -- the command does what a text without commands does
    refine text_instead (x := []) hauto hlocals hcommand hword ha ⟨by
      rintro _ ⟨⟩, .nil _ _⟩ hcommands
      fun v u hv => ⟨u, rfl, ?_⟩
    rw [← hv.scope] at hlocals hincluded hload
    rcases included?_cases hlocals hincluded with ⟨c, arg, _, ends, hr, hf, hp⟩ | ⟨_, _,
      _, _, hf, _⟩
    · obtain ⟨rfl, ho⟩ := Included.file.inj hf
      refine inside_reaches hr rfl ((includeNow_missing ho.symm hp hload hmissing).post ?_) _
      rintro _ _ rfl
      have hl : v.Rough ⟨[], s.logName⟩ Eq (u.adding (pending (outline r.tag a).2 [] ++ [])) := by
        rw [List.append_nil]
        exact hv.rough
      exact ⟨{ hl with depth := congrArg (· + 1) hl.depth }, stop_spent hr hv.size hv.stop hp.le b⟩
    · cases hf

end Parse

namespace Session

variable {s : Session}

/-- Does a command include a file that need not be there and is missing? -/
def passesOver (s : Session) (command : Bytes) : Bool :=
  match s.includes? command with
  | some (.file path false) =>
    match Parse.load s.source s.settle.reader.scope path with
    | .error f => f.isA .notFound
    | .ok _ => false
  | _ => false

theorem of_passesOver {command} (h : s.passesOver command = true) :
    ∃ word path f, s.soleCommand? command = some word ∧
      Parse.included? s.settle.settings s.settle.reader.scope word = some (.file path false) ∧
      Parse.load s.source s.settle.reader.scope path = .error f ∧ f.isA .notFound = true := by
  unfold passesOver at h
  split at h
  · next path hi =>
    split at h
    · next f hload =>
      obtain ⟨word, hword, hincluded⟩ := Option.bind_eq_some_iff.mp hi
      exact ⟨word, path, f, hword, hincluded, hload, h⟩
    · cases h
  · cases h

/-- The second text is the first one with `k` commands put in between its commands, all of which are
passed over. -/
inductive Inserted (s : Session) : Nat → Bytes → Bytes → Prop
  | refl (text : Bytes) : Inserted s 0 text text
  | insert {k : Nat} {text a b command : Bytes} (h : Inserted s k text (a ++ b))
      (hcommand : s.passesOver command = true)
      (hapart : Apart s.tag a b) (hcommands : Apart s.tag a (command ++ b)) :
      Inserted s (k + 1) text (a ++ (command ++ b))

/-- States of readers of which the first is `k` levels deeper, with templates that are alike. -/
structure Deepened (k : Nat) (reader reader' : ParseState) : Prop where
  items : Item.Alike reader.builder.template reader'.builder.template
  scope : reader.scope = reader'.scope
  logName : reader.logName = reader'.logName
  depth : reader.depth = reader'.depth + k

theorem Inserted.tracks (hs : s.Attained) (hauto : s.settle.settings.auto.enabled = false)
    {k text text'} (h : s.Inserted k text text') (n : Nat) :
    Tracks Stop.IsLimit (fun _ t _ t' => Deepened k t t') (fun e _ e' _ => e.kind? = e'.kind?)
      (Parse.text n text' s.settle.settings s.settle.reader)
      (Parse.text n text s.settle.settings s.settle.reader) := by
  induction h with
  | refl text =>
    generalize Parse.text n text s.settle.settings s.settle.reader = last
    obtain ⟨result, t⟩ := last
    cases result with
    | ok _ => exact .ok ⟨.refl _, rfl, rfl, rfl⟩
    | error e => exact .error rfl
  | @insert k a b command text h hcommand hap hcommands ih =>
    obtain ⟨word, path, f, hword, hincluded, hload, hmissing⟩ := of_passesOver hcommand
    obtain ⟨hf, hc⟩ := soleCommand?_eq_some hword
    have hlocals : s.settle.reader.scope.locals = [] := (settle_locals s).trans hs.locals_eq_nil
    rw [← settle_source s] at hload
    rw [← settle_tag s] at hf hap hcommands
    have hst := Parse.text_passed (hs.auto_off hauto) hlocals hf hc hincluded hload hmissing
      hap hcommands n
    refine hst.trans ih ?_ ?_ ?_
    · exact fun e _ e' _ hk hl => hl.congr hk.symm
    · rintro _ t _ t' _ t'' hr hd
      refine ⟨hr.builder.template.trans hd.items, hr.scope.trans hd.scope,
        (hr.logName.trans hr.logName'.symm).trans hd.logName, ?_⟩
      rw [hr.depth, hd.depth, Nat.add_assoc]
    · exact fun _ _ _ _ _ _ hk hk' => hk.trans hk'

/-- Commands that include missing files can be put in between the commands of a text. If the text
can be read, then so can the new one, or its reader comes to the deepest level, to which each of the
commands goes one level down. What is done with the template afterwards cannot tell it from the
other one, unless it comes to the deepest level. -/
theorem outcomes_inserted (hs : s.Attained) (hauto : s.settle.settings.auto.enabled = false)
    {k n n' : Nat}
    {text text' : Bytes} (h : s.Inserted k text text') (hread : (s.parseText text n).2 = .ok ())
    (hlength : text'.untilNul.length = n') :
    (∃ e, (s.parseText text' n').2 = .error e ∧ e.IsLimit) ∨
      (s.parseText text' n').2 = .ok () ∧
        (s.parseText text' n').1.reader.depth = (s.parseText text n).1.reader.depth + k ∧
        ∀ us, (∀ o ∈ (s.parseText text n).1.outcomes us, o.result ≠ .error none) →
          (∀ o ∈ (s.parseText text' n').1.outcomes us, o.result ≠ .error none ∧
            o.result ≠ .error (some .maxRecursion)) →
          (s.parseText text' n').1.outcomes us = (s.parseText text n).1.outcomes us := by
  have hends := h.tracks hs hauto nestingLimit
  have hannounced := length_of_parseText hread
  rw [parseText_eq hannounced, parse_eq] at hread ⊢
  rw [parseText_eq hlength, parse_eq]
  generalize Parse.text nestingLimit text s.settle.settings s.settle.reader = last at hends hread
  generalize Parse.text nestingLimit text' s.settle.settings s.settle.reader = last' at hends
  cases hends with
  | ok hdeepened =>
    refine .inr ⟨rfl, hdeepened.depth, fun us htext htext' => ?_⟩
    refine Alike.outcomes_lowered (j := k) ?_ us htext' htext
    exact ⟨rfl, hdeepened.items, hdeepened.scope, hdeepened.depth, hdeepened.logName, rfl⟩
  | error => cases hread
  | limit hlimit => exact .inl ⟨_, rfl, hlimit⟩

theorem outcomes_inserted_around_macro : let place : MarkupPlace :=
  ⟨.text, 0, false, 0, false, false, false, none⟩
    let command := ascii "<?cs include:\"none\" ?>"
    let a := ascii "<?cs def:m(x) ?>[<?cs var:x ?>]<?cs /def ?>"
    let b := ascii "<?cs call:m(\"p\") ?>"
    let text := a ++ b
    let text' := [] ++ (command ++ (a ++ (command ++ b)))
    ∃ s : Session, create .root (.table []) place = .ok s ∧ s.Attained ∧
      s.settle.settings.auto.enabled = false ∧
      s.Inserted 2 text text' ∧ (s.parseText text text.length).2 = .ok () ∧
      (s.parseText text' text'.length).2 = .ok () ∧
      (s.parseText text' text'.length).1.reader.depth =
      (s.parseText text text.length).1.reader.depth + 2 ∧
      (s.parseText text text.length).1.outcome.output = ascii "[p]" ∧
      (s.parseText text' text'.length).1.outcomes [.render, .setData .root, .render] =
        (s.parseText text text.length).1.outcomes [.render, .setData .root, .render] := by
  intro place command a b text text'
  let s := fresh .undefined .root (.table []) place
  have hcreate : create .root (.table []) place = .ok s := create_eq rfl _ _
  have hauto : s.settle.settings.auto.enabled = false := by decide +kernel
  have hcommand : s.passesOver command = true := by decide +kernel
  have hapart : Apart s.tag a b ∧ Apart s.tag a (command ++ b) ∧
      Apart s.tag [] (a ++ (command ++ b)) ∧
      Apart s.tag [] (command ++ (a ++ (command ++ b))) := by decide +kernel
  have hinserted : s.Inserted 2 text text' :=
    .insert (a := []) (b := a ++ (command ++ b))
      (.insert (a := a) (b := b) (.refl text) hcommand hapart.1 hapart.2.1)
      hcommand hapart.2.2.1 hapart.2.2.2
  have hruns : (s.parseText text text.length).2.toBool = true ∧
      (s.parseText text' text'.length).2.toBool = true ∧
      text'.untilNul.length = text'.length ∧ (s.parseText text text.length).1.outcome.output =
      ascii "[p]" ∧
      (∀ o ∈ (s.parseText text text.length).1.outcomes [.render, .setData .root, .render],
        o.result.toBool = true) ∧
      (∀ o ∈ (s.parseText text' text'.length).1.outcomes [.render, .setData .root, .render],
        o.result.toBool = true) := by
    decide +kernel
  obtain ⟨hread, hread', hlength, houtput, hoks, hoks'⟩ := hruns
  rcases outcomes_inserted (.create hcreate) hauto hinserted (eq_ok_of_toBool hread) hlength with
    ⟨e, he, -⟩ | ⟨hok, hdepth, hequal⟩
  · cases (eq_ok_of_toBool hread').symm.trans he
  · exact ⟨s, hcreate, .create hcreate, hauto, hinserted, eq_ok_of_toBool hread, hok,
      hdepth, houtput,
      hequal _ (fun o ho => ne_of_toBool (hoks o ho)) fun o ho =>
        ⟨ne_of_toBool (hoks' o ho), ne_of_toBool (hoks' o ho)⟩⟩

/-- Fifty of the commands leave no level for a macro that is called behind them, and a text with one
more cannot be read. -/
theorem parse_inserted_too_deep :
    let s := fresh .undefined .root (.table []) ⟨.text, 0, false, 0, false, false, false, none⟩
    let command := ascii "<?cs include:\"none\" ?>"
    let called := ascii "<?cs def:m() ?>p<?cs /def ?>"
    let behind := ascii "<?cs call:m() ?>"
    let text := called ++ behind
    let late := called ++ (List.replicate 50 command).flatten ++ behind
    let long := (List.replicate 51 command).flatten
    s.passesOver command = true ∧ (s.parseText text text.length).1.outcome.output = ascii "p" ∧
      (s.parseText late late.length).2 = .ok () ∧
      (s.parseText late late.length).1.outcome.result = .error (some .maxRecursion) ∧
      (s.parseText long long.length).2.mapError Stop.kind? = .error (some .maxRecursion) := by
  intro s command called behind text late long
  have hpassed : s.passesOver command = true ∧ (s.parseText text text.length).1.outcome.output =
      ascii "p" := by
    decide +kernel
  have hlate : (s.parseText late late.length).2.toBool = true := by decide +kernel
  have hstops : (s.parseText late late.length).1.outcome.result = .error (some .maxRecursion) ∧
      (s.parseText long long.length).2.mapError Stop.kind? = .error (some .maxRecursion) := by
        decide +kernel
  exact ⟨hpassed.1, hpassed.2, eq_ok_of_toBool hlate, hstops⟩

end Session

end TemplateKit
