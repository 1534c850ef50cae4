import TemplateKit.Proofs.Data.Outside
import TemplateKit.Proofs.Data.Reading

/-!
# Multi-line values among other entries

A multi-line value is an assignment of its lines, and the entries behind its terminator are read as
if they stood alone, unless the reader takes a piece of a long line for the terminator.
-/

namespace TemplateKit

open List DataTree Terminator Ascii

variable {τ : Type} [DataTree τ]

/-- Two readings leave the same tree, and both fail or neither does. -/
def SameEnd (x y : τ × Except Failure Unit) : Prop := x.1 = y.1 ∧ (x.2 = .ok () ↔ y.2 = .ok ())

omit [DataTree τ] in
theorem SameEnd.failed (root : τ) (f f' : Failure) : SameEnd (root, .error f) (root, .error f') :=
  ⟨rfl, nofun, nofun⟩

/-- Two lines end alike if they differ in numbers of lines only. What is left to read has a bound.
-/
inductive LineEnd.Alike (bound : Nat) : LineEnd τ → LineEnd τ → Prop
  | next {blocks : List Address} {root : τ} {text : Bytes} (h : text.length ≤ bound)
      (line line' : Nat) :
    Alike bound (.next blocks ⟨root, text, line⟩) (.next blocks ⟨root, text, line'⟩)
  | fault (root : τ) (f f' : Failure) : Alike bound (.fault root f) (.fault root f')

theorem readPieces_length_le (t : Bytes) (fuel : Nat) (b : PieceBuffer) (s : Bytes) :
    (readPieces t fuel b s).2.2.length ≤ s.length := by
  induction fuel generalizing b s with
  | zero => exact Nat.le_refl _
  | succ fuel ih =>
    have hs := congrArg List.length (takeLine_append b.room s)
    rw [length_append] at hs
    simp only [readPieces]
    split
    · exact Nat.le_refl _
    · split
      · exact Nat.le_of_add_left_le (Nat.le_of_eq hs)
      · exact Nat.le_trans (ih _ _) (Nat.le_of_add_left_le (Nat.le_of_eq hs))

theorem assignLine_alike (p : ReadPlace) (name : Bytes) (a : Assignment) (root : τ) {text bound}
    (h : text.length ≤ bound) (k k' : Nat) :
    (assignLine p name a ⟨root, text, k⟩).Alike bound (assignLine p name a ⟨root, text, k'⟩) := by
  simp only [assignLine]
  split
  · exact .fault ..
  · exact .next h k k'

/-- Two ways to include a file end alike, where this mode follows the line at all. -/
def LoadsAlike (mode : Inclusion) (load load' : τ → Address → Bytes → τ × Except Failure Unit) :
    Prop :=
  ∀ level, mode = .followed level → level < Inclusion.deepest →
    ∀ root here file, SameEnd (load root here file) (load' root here file)

variable {load load' : τ → Address → Bytes → τ × Except Failure Unit} {mode : Inclusion}

theorem applyLine_alike (hlo : LoadsAlike mode load load') (p : ReadPlace)
    (line : DataLine) (root : τ) (text : Bytes) (k k' : Nat) :
    (applyLine load mode p line ⟨root, text, k⟩).Alike text.length
      (applyLine load' mode p line ⟨root, text, k'⟩) := by
  cases line with
  | blank | closing => exact .next (Nat.le_refl _) k k'
  | inclusion file =>
    cases mode with
    | followed level =>
      simp only [applyLine]
      split
      · next hl =>
        have hs := hlo level rfl hl root p.here file
        generalize load root p.here file = x at hs ⊢
        generalize load' root p.here file = y at hs ⊢
        obtain ⟨m, ends⟩ := x
        obtain ⟨m', ends'⟩ := y
        obtain ⟨rfl, hok⟩ : m = m' ∧ _ := hs
        rcases ends with f | ⟨⟩ <;> rcases ends' with f' | ⟨⟩
        · exact .fault ..
        · cases hok.mpr rfl
        · cases hok.mp rfl
        · exact .next (Nat.le_refl _) k k'
      · exact .fault ..
    | forbidden | ignored => exact .fault ..
  | garbageAfterClosing shown | malformedAttributes shown | noTerminator shown | unreadable shown =>
    exact .fault ..
  | assignment name _ _ | copy name _ _ | link name _ _ =>
    exact assignLine_alike p name _ root (Nat.le_refl _) k k'
  | opening name attributes =>
    simp only [applyLine]
    split
    · exact .fault ..
    · exact .next (Nat.le_refl _) k k'
  | multiLine name attributes terminator =>
    simp only [applyLine]
    exact assignLine_alike p name _ root (readPieces_length_le _ _ _ _) _ _

/-- How a text is read does not depend on the lines counted before it, nor on the bound on their
number. -/
theorem readLines_alike (hl : LoadsAlike mode load load') (path : Bytes)
    {fuel fuel'} (blocks : List Address) (root : τ) {text} (hf : text.length < fuel)
    (hf' : text.length < fuel') (k k' : Nat) :
    SameEnd (readLines load mode path fuel blocks ⟨root, text, k⟩)
      (readLines load' mode path fuel' blocks ⟨root, text, k'⟩) := by
  induction fuel generalizing fuel' blocks root text k k' with
  | zero => omega
  | succ fuel ih =>
    obtain ⟨fuel', rfl⟩ := Nat.exists_add_one_eq.mpr (Nat.zero_lt_of_lt hf')
    cases blocks with
    | nil => exact ⟨rfl, Iff.rfl⟩
    | cons here outer =>
      rw [readLines, readLines]
      by_cases he : text.isEmpty
      · simp only [he]
        exact ⟨rfl, Iff.rfl⟩
      · simp only [he]
        have hcut := Bytes.length_cutAt (· == 10) text
        have hr : ((text.cutAt (· == 10)).2.getD []).length < text.length := by
          have hpos := length_pos_of_ne_nil (mt List.isEmpty_iff.mpr he)
          cases hb : (text.cutAt (· == 10)).2 with
          | none => exact hpos
          | some back =>
            rw [hb, Option.elim_some] at hcut
            rw [Option.getD_some]
            omega
        have ha := applyLine_alike hl ⟨path, here,
          outer⟩ (.read mode.counts (text.cutAt (· == 10)).1) root
          ((text.cutAt (· == 10)).2.getD []) (k + 1) (k' + 1)
        generalize applyLine load mode _ _ ⟨root, _, k + 1⟩ = x at ha ⊢
        generalize applyLine load' mode _ _ ⟨root, _, k' + 1⟩ = y at ha ⊢
        cases ha with
        | next ht line line' => exact ih _ _ (by omega) (by omega) _ _
        | fault => exact .failed ..

/-- An assignment, and what is read if it succeeds. -/
def assignThenRead (ignoreIncludes : Bool) (root : τ) (start : Address) (name value rest : Bytes) :
    τ × Except Failure Unit :=
  match assignAt root start name { value := some value } with
  | (root, .error e) => (root, .error e.failure)
  | (root, .ok _) => readText ignoreIncludes root start rest

def joinLines (lines : List Bytes) : Bytes := lines.flatMap (· ++ [10])

theorem wholeLines_joinLines (lines : List Bytes) : WholeLines (joinLines lines) := by
  induction lines with
  | nil => exact .inl rfl
  | cons line lines ih => exact WholeLines.append (.inr (by simp)) ih

/-- A multi-line value as it stands in a text: the line with its name, its lines and the terminator.
-/
def multiLineText (name terminator : Bytes) (lines : List Bytes) : Bytes :=
  name ++ (ascii " << " ++ terminator) ++ 10 :: (joinLines lines ++ (terminator ++ [10]))

/-- A terminator that can be told from what follows it. -/
structure IsTerminator (t : Bytes) : Prop where
  ne_nil : t ≠ []
  letters : ∀ b ∈ t, isAlpha b = true
  short : t.length ≤ 30

namespace IsTerminator

variable {t : Bytes}

theorem isSpace (h : IsTerminator t) {b} (hb : b ∈ t) : isSpace b = false := by
  have ha := h.letters b hb
  grind [isAlpha, isUpper, isLower, isSpace]

theorem newline_not_mem (h : IsTerminator t) : (10 : UInt8) ∉ t :=
  fun hmem => absurd (h.isSpace hmem) (by decide)

end IsTerminator

/-- Whatever is read as the value of a multi-line entry is assigned, and reading goes on behind it.
-/
theorem readText_multiLineText {name t} (hn : DataLine.NameText name) (ht : IsTerminator t)
    (lines : List Bytes) (rest : Bytes) (ignoreIncludes : Bool) (root : τ) (start : Address) :
    ∃ value more, SameEnd (readText ignoreIncludes root start (multiLineText name t lines ++ rest))
      (assignThenRead ignoreIncludes root start name value more) ∧
    if cuts t (joinLines lines) then value.length < (joinLines lines).length
    else value = joinLines lines ∧ more = rest := by
  obtain ⟨behind, hbe⟩ : ∃ s, s = joinLines lines ++ (t ++ 10 :: rest) := ⟨_, rfl⟩
  have hte : multiLineText name t lines ++ rest =
      ([] ++ (name ++ (ascii " << " ++ t))) ++ 10 :: behind := by
    simp [multiLineText, hbe]
  have hm : (10 : UInt8) ∉ ascii " << " ++ t := by
    rw [mem_append, not_or]
    exact ⟨by decide, ht.newline_not_mem⟩
  have hl : (10 : UInt8) ∉ [] ++ (name ++ (ascii " << " ++ t)) :=
    newline_not_mem_line blank_nil hn (forall_mem_nil Attribute.Writable) hm
  have hst : Bytes.strip t = t := Bytes.strip_of_no_space fun _ => ht.isSpace
  have hr : ∀ includes, DataLine.read includes ([] ++ (name ++ (ascii " << " ++ t))) =
      .multiLine name [] t :=
    fun _ => DataLine.read_multiLine _ blank_nil.isSpace hn (forall_mem_nil _) ht.ne_nil hst
  have hs : t.length + 1 < PieceBuffer.growth :=
    Nat.lt_of_le_of_lt (Nat.succ_le_succ ht.short) (by decide)
  have hf : (joinLines lines).length < behind.length + 1 := by
    rw [hbe, length_append]
    omega
  have hb := readPieces_block ht.newline_not_mem (Nat.lt_of_succ_lt hs) (hasRoom_empty hs)
    (wholeLines_joinLines lines) (Nat.le_refl _) hf rest
  rw [← hbe] at hb
  refine ⟨(readPieces t (behind.length + 1) .empty behind).1,
    (readPieces t (behind.length + 1) .empty behind).2.2, ?_, ?_⟩
  · rw [hte, readText, readLines, if_neg (by simp)]
    simp only [Bytes.cutAt_byte hl, hr, Option.getD_some, applyLine, assignLine, assignThenRead]
    rcases assignAt root start name _ with ⟨m, e | address⟩
    · exact .failed ..
    · have hre := readPieces_length_le t (behind.length + 1) .empty behind
      refine readLines_alike (fun _ _ _ _ _ _ => ⟨rfl, Iff.rfl⟩) _ [start] m
        (Nat.lt_of_le_of_lt hre ?_) (Nat.lt_succ_self _) _ 0
      rw [length_append, length_cons]
      omega
  · rw [cuts]
    split
    · next hcut => rwa [if_pos hcut] at hb
    · next hcut =>
      rw [if_neg hcut] at hb
      obtain ⟨count, heq⟩ := hb
      rw [heq]
      exact ⟨rfl, rfl⟩

theorem infix_of_mem_pieces {terminator fuel b s piece} (h : piece ∈ pieces terminator fuel b s) :
    piece <:+: s := by
  induction fuel generalizing b s with
  | zero => cases h
  | succ fuel ih =>
    have hs := takeLine_append b.room s
    simp only [pieces] at h
    split at h
    · cases h
    · rcases mem_cons.mp h with rfl | h
      · exact ⟨[], _, hs⟩
      · exact (ih h).trans ⟨_, [], by rw [append_nil, hs]⟩

theorem cuts_eq_false {t v} (h : ∀ b, isSpace b = true → ¬t ++ [b] <:+: v) : cuts t v = false := by
  rw [cuts, any_eq_false]
  intro piece hp he
  obtain ⟨b, hb, hs⟩ := (Option.any_eq_true ..).mp he
  obtain ⟨rest, hr, hh⟩ := Option.bind_eq_some_iff.mp hb
  obtain ⟨more, rfl⟩ := head?_eq_some_iff.mp hh
  refine h b hs (IsInfix.trans ⟨[], more, ?_⟩ (infix_of_mem_pieces hp))
  rw [Bytes.eq_append_of_dropPrefix? hr, nil_append, append_assoc, singleton_append]

/-- A multi-line value assigns its lines, and the entries behind it are read as if they stood alone,
where the reader takes no piece of a line for the terminator. Otherwise less is assigned. In a tree
without links a name without empty components then has the lines as its value. -/
theorem readText_multiLine (name t : Bytes) (hname : DataLine.NameText name) (ht : IsTerminator t)
    (lines : List Bytes) (rest : Bytes) (ignoreIncludes : Bool) (root : τ) (start : Address) :
    (cuts t (joinLines lines) = false →
      SameEnd (readText ignoreIncludes root start (multiLineText name t lines ++ rest))
        (assignThenRead ignoreIncludes root start name (joinLines lines) rest)) ∧
    (cuts t (joinLines lines) = true → ∃ value more, value.length < (joinLines lines).length ∧
      SameEnd (readText ignoreIncludes root start (multiLineText name t lines ++ rest))
        (assignThenRead ignoreIncludes root start name value more)) ∧
    ((∀ b, isSpace b = true → ¬t ++ [b] <:+: joinLines lines) → cuts t (joinLines lines) = false) ∧
    ∀ n : Node, n.LinkFree → [] ∉ components name → ∃ m : Node,
      assignThenRead ignoreIncludes n [] name (joinLines lines) rest =
      readText ignoreIncludes m [] rest ∧
        ∀ q, m.value? q = if q = name then some (joinLines lines) else n.value? q := by
  obtain ⟨value, more, hread, hvalue⟩ :=
    readText_multiLineText hname ht lines rest ignoreIncludes root start
  refine ⟨fun hcut => ?_, fun hcut => ?_, cuts_eq_false, fun n hn hcomponents => ?_⟩
  · rw [hcut, if_neg Bool.false_ne_true] at hvalue
    rwa [hvalue.1, hvalue.2] at hread
  · rw [hcut, if_pos rfl] at hvalue
    exact ⟨value, more, hvalue, hread⟩
  · refine ⟨(n.set name (some (joinLines lines))).1, ?_, Node.value?_set hn hcomponents _⟩
    have hassign := Node.assignAt_accepted hn (show n.get? [] =
      some n from rfl) hcomponents { value := some (joinLines lines) }
    simp only [assignThenRead, assignAt, Node.set, hassign]

/-- A line with the terminator in its middle is a line like any other. -/
theorem readText_multiLine_terminator_inside : let lines := [ascii "a EOM b", ascii ""]
    DataLine.NameText (ascii "n") ∧ IsTerminator (ascii "EOM") ∧
      SameEnd (readText false Node.root [] (multiLineText (ascii "n") (ascii "EOM") lines ++
        ascii "m = 1\n"))
        (assignThenRead false Node.root [] (ascii "n") (joinLines lines) (ascii "m = 1\n")) := by
  intro lines
  have hname : DataLine.NameText (ascii "n") := ⟨by decide, all_eq_true.mp (by decide)⟩
  have ht : IsTerminator (ascii "EOM") := ⟨by decide, all_eq_true.mp (by decide), by decide⟩
  exact ⟨hname, ht, (readText_multiLine _ _ hname ht lines _ false Node.root []).1 (by
    decide +kernel)⟩

/-- A line goes over the end of the buffer, and what is read next starts with the terminator and a
blank: the line does not start with the terminator, but it ends the value. -/
theorem readText_multiLine_long_line : let line := replicate 127 97 ++ ascii "EOM b"
    ¬ascii "EOM" <+: line ∧
    ¬SameEnd (readText false Node.root [] (multiLineText (ascii "n") (ascii "EOM") [line]))
        (assignThenRead false Node.root [] (ascii "n") (joinLines [line]) []) := by
  intro line
  refine ⟨by decide, fun hsame => ?_⟩
  have hread :
      (readText false Node.root [] (multiLineText (ascii "n") (ascii "EOM") [line])).2.isOk =
      false := by
    decide +kernel
  have hassign : (assignThenRead false Node.root [] (ascii "n") (joinLines [line]) []).2.isOk =
      true := by
    decide +kernel
  have hok : ∀ x : Except Failure Unit, x.isOk = true ↔ x = .ok () := by
    rintro (_ | _) <;> simp [Except.isOk, Except.toBool]
  rw [hok, ← hsame.2, ← hok, hread] at hassign
  cases hassign

end TemplateKit
