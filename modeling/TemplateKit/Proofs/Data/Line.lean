import TemplateKit.Data.Reader
import TemplateKit.Data.Writer
import TemplateKit.Proofs.Bytes.Basic

/-!
# One line written and read

A name of letters, digits and underscores, or several of them with dots between, is read back from
the front of a line with the attributes in brackets behind it, and what follows tells what the line
is for.

## Attributes

A value of an attribute is quoted, and unquoting is the inverse of quoting on all texts. So
attributes in brackets are read back one after the other, apart from those with the value `1`: that
is not written, and a key alone is read as one with an empty value.
-/

namespace TemplateKit

open List Ascii Bytes Numeral Quoted

namespace Quoted

theorem octalByte_octal (b : UInt8) : (octal b).takeWhile isDigit = octal b ∧
    octalByte (octal b) = b := by
  have hall := forall_byte (p := fun b => (octal b).takeWhile isDigit == octal b &&
    octalByte (octal b) == b) (by decide +kernel) b
  simpa using hall

theorem encodeByte_spec (b : UInt8) : encodeByte b ≠ [] ∧ (10 : UInt8) ∉ encodeByte b := by
  have hall := forall_byte (p := fun b => !(encodeByte b).isEmpty &&
    !(encodeByte b).elem 10) (by decide +kernel) b
  simpa using hall

theorem decode_encodeByte (fuel : Nat) (b : UInt8) (t : Bytes) :
    decode (fuel + 1) (encodeByte b ++ t) = (decode fuel t).map fun p => (b :: p.1, p.2) := by
  have hm : backslash ≠ quote := by decide
  have he : ∀ c : UInt8, isDigit c = false → decode (fuel + 1) (backslash :: c :: t) =
      (decode fuel t).map fun p => ((if c == 'n' then 10 else if c == 't' then 9
        else if c == 'r' then 13 else c) :: p.1, p.2) := by
    intro c hc
    simp [decode, hm, hc]
  rw [encodeByte]
  split
  · next h =>
    rw [beq_iff_eq.mp h]
    exact he 110 rfl
  split
  · next h =>
    rw [beq_iff_eq.mp h]
    exact he 116 rfl
  split
  · next h =>
    rw [beq_iff_eq.mp h]
    exact he 114 rfl
  split
  · next h =>
    rcases Bool.or_eq_true_iff.mp h with h | h <;> rw [beq_iff_eq.mp h]
    · exact he quote rfl
    · exact he backslash rfl
  next hs =>
  split
  · have hne : (b == quote) = false ∧ (b == backslash) = false := by simpa using hs
    simp [decode, hne]
  · obtain ⟨hd, hb⟩ := octalByte_octal b
    have ht : (octal b ++ t).take 3 = octal b := take_left' rfl
    have hdr : (octal b ++ t).drop (octal b).length = t := drop_left' rfl
    have hso : (octal b).isEmpty = false := rfl
    rw [cons_append]
    generalize octal b ++ t = s at ht hdr
    rw [← ht] at hd hdr hso hb
    cases s with
    | nil => cases hso
    | cons d s => simp only [decode, beq_iff_eq, hm, if_true, if_false, hd, hso, hdr, hb,
        Bool.false_eq_true]

theorem decode_encode (s rest : Bytes) {fuel} (h : s.length < fuel) :
    decode fuel (s.flatMap encodeByte ++ quote :: rest) = some (s, rest) := by
  induction s generalizing fuel with
  | nil =>
    obtain _ | fuel := fuel
    · omega
    simp [decode]
  | cons b s ih =>
    obtain _ | fuel := fuel
    · omega
    rw [flatMap_cons, append_assoc, decode_encodeByte, ih (Nat.lt_of_succ_lt_succ h)]
    rfl

theorem length_le_flatMap (s : Bytes) : s.length ≤ (s.flatMap encodeByte).length := by
  induction s with
  | nil => exact Nat.le_refl _
  | cons b s ih =>
    have hb : 0 < (encodeByte b).length := length_pos_iff.mpr (encodeByte_spec b).1
    rw [flatMap_cons, length_append, length_cons]
    omega

end Quoted

namespace Attribute

variable {a : Attribute} {attrs : List Attribute} {fuel : Nat}

/-- What is read where an attribute was written. The value `1` is left out where it is written, and
an attribute without a value is read as one with an empty value. -/
def reread (a : Attribute) : Attribute :=
  ⟨a.key, some (a.value.elim [] fun v => if v == "1" then [] else v)⟩

theorem reread_eq_self_iff : a.reread = a ↔ a.value ≠ none ∧ a.value ≠ some (ascii "1") := by
  obtain ⟨key, value⟩ := a
  cases value with
  | none => simp [reread]
  | some v =>
    by_cases hv : v = "1"
    · subst hv
      simp [reread, ascii]
    · simp [reread, hv]

/-- A key of letters and digits, and a value without a zero byte. -/
structure Writable (a : Attribute) : Prop where
  key : a.key ≠ [] ∧ ∀ b ∈ a.key, isAlnum b = true
  value : ∀ v, a.value = some v → (0 : UInt8) ∉ v

theorem Writable.reread (h : a.Writable) : a.reread.Writable := by
  refine ⟨h.key, ?_⟩
  rintro _ ⟨⟩
  cases hv : a.value with
  | none => exact not_mem_nil
  | some v =>
    rw [Option.elim_some]
    split
    · exact not_mem_nil
    · exact h.value v hv

/-- What an attribute is written with behind its key. -/
def mark (a : Attribute) : Bytes := a.value.elim [] fun v => if v == "1" then []
    else '='.toUInt8 :: encode v

theorem write_eq (a : Attribute) : a.write = a.key ++ a.mark := by
  rw [write, mark]
  cases a.value with
  | none => simp
  | some v =>
    simp only [Option.elim_some]
    split
    · simp
    · simp [ascii]

/-- What stands behind an attribute: a comma or the closing bracket. -/
def Ends (b : UInt8) : Prop := b = ',' ∨ b = ']'

theorem Ends.spec {b} (h : Ends b) : isSpace b = false ∧ isAlnum b = false ∧ b ≠ '=' := by
  rcases h with rfl | rfl <;> decide

theorem readValue_mark (ha : a.Writable) {b} (hb : Ends b) (t : Bytes) :
    (a.mark ++ b :: t).dropWhile isAlnum = a.mark ++ b :: t ∧
    stripLeft (a.mark ++ b :: t) = a.mark ++ b :: t ∧
      readList.readValue (a.mark ++ b :: t) = a.reread.value.map (·, b :: t) := by
  obtain ⟨hs, hal, he⟩ := hb.spec
  have hba : readList.readValue (b :: t) = some ([], b :: t) := by simp [readList.readValue, he]
  rw [mark, reread]
  cases hv : a.value with
  | none => simpa [hal, stripLeft_cons hs] using hba
  | some v =>
    simp only [Option.elim_some]
    split
    · simpa [hal, stripLeft_cons hs] using hba
    · have hf : v.length < (encode v ++ b :: t).length := by
        have hl := length_le_flatMap v
        simp only [encode, length_append, length_cons]
        omega
      have hd := decode_encode v (b :: t) hf
      have ht : (encode v ++ b :: t).tail = v.flatMap encodeByte ++ quote :: b :: t := by
        simp [encode]
      have hst : stripLeft (encode v ++ b :: t) = encode v ++ b :: t := rfl
      have hh : (encode v ++ b :: t).head? = some quote := rfl
      refine ⟨rfl, rfl, ?_⟩
      simp only [readList.readValue, cons_append, head?_cons, tail_cons, hst, hh, ht, hd, if_true,
        Option.map_some, untilNul_of_not_mem (ha.value v hv)]

theorem readList_write (ha : a.Writable) {b} (hb : Ends b) (t : Bytes) :
    readList (fuel + 1) (a.write ++ b :: t) =
      (readList fuel (if b = ',' then stripLeft t else b :: t)).map fun p =>
        (a.reread :: p.1, p.2) := by
  obtain ⟨hd, hst, hv⟩ := readValue_mark ha hb t
  obtain ⟨c, key, hkey⟩ := exists_cons_of_ne_nil ha.key.1
  have ht : (a.key ++ (a.mark ++ b :: t)).takeWhile isAlnum = a.key := by
    have hn : (a.mark ++ b :: t).takeWhile isAlnum = [] := by
      have hs := takeWhile_append_dropWhile (p := isAlnum) (l := a.mark ++ b :: t)
      rw [hd] at hs
      exact append_left_eq_self.mp hs
    rw [takeWhile_append_of_pos ha.key.2, hn, append_nil]
  have hr : (a.key ++ (a.mark ++ b :: t)).dropWhile isAlnum = a.mark ++ b :: t := by
    rw [dropWhile_append_of_pos ha.key.2, hd]
  have ho : (c == ']') = false := by
    have hc := ha.key.2 c (by rw [hkey]; exact mem_cons_self)
    rw [beq_eq_false_iff_ne]
    rintro rfl
    exact absurd hc (by decide)
  have hend : stripLeft (b :: t) = b :: t := stripLeft_cons hb.spec.1 t
  rw [write_eq, append_assoc]
  rw [hkey] at ht hr ⊢
  rw [cons_append] at ht hr ⊢
  simp only [readList, ho, ht, hr, hst, hv]
  simp [reread, hend, hkey]

theorem stripLeft_write (ha : a.Writable) (t : Bytes) :
    stripLeft (a.write ++ t) = a.write ++ t := by
  obtain ⟨c, key, hkey⟩ := exists_cons_of_ne_nil ha.key.1
  have hc := ha.key.2 c (by rw [hkey]; exact mem_cons_self)
  have hs : isSpace c = false := by grind [isAlnum, isAlpha, isUpper, isLower, isDigit, isSpace]
  rw [write_eq, hkey]
  exact stripLeft_cons hs _

theorem readList_join (h : ∀ a ∈ attrs, a.Writable) (hf : attrs.length < fuel) (rest : Bytes) :
    readList fuel (join ", " (attrs.map write) ++ ']'.toUInt8 :: rest) =
    some (attrs.map reread, rest) := by
  induction attrs generalizing fuel with
  | nil =>
    obtain _ | fuel := fuel
    · omega
    simp [join, readList]
  | cons a attrs ih =>
    obtain _ | fuel := fuel
    · omega
    have ha := h a mem_cons_self
    have hm := ih (fun b hb => h b (mem_cons_of_mem a hb)) (Nat.lt_of_succ_lt_succ hf)
    cases attrs with
    | nil =>
      rw [map_cons, map_nil, join, readList_write ha (.inr rfl), if_neg (by decide)]
      exact congrArg _ hm
    | cons b attrs =>
      have hj : join ", " ((a :: b :: attrs).map write) =
          a.write ++ ','.toUInt8 :: 32 :: join ", " ((b :: attrs).map write) := by
        simp only [map_cons, join, append_assoc]
        rfl
      obtain ⟨t, ht⟩ : ∃ t, join ", " ((b :: attrs).map write) = b.write ++ t := by
        cases attrs with
        | nil => exact ⟨[], (append_nil _).symm⟩
        | cons c attrs => exact ⟨_, append_assoc _ _ _⟩
      have hs : ∀ u : Bytes, stripLeft (32 :: (b.write ++ t ++ u)) =
          b.write ++ t ++ u := fun u => by
        rw [append_assoc]
        exact stripLeft_write (h b (mem_cons_of_mem a mem_cons_self)) (t ++ u)
      rw [hj, append_assoc, cons_append, cons_append, readList_write ha (.inl rfl), if_pos rfl]
      rw [ht] at hm ⊢
      rw [hs, hm]
      rfl

theorem newline_not_mem_write (ha : a.Writable) : (10 : UInt8) ∉ a.write := by
  have hkey : (10 : UInt8) ∉ a.key := fun h => absurd (ha.key.2 10 h) (by decide)
  have hq : ∀ v, (10 : UInt8) ∉ '='.toUInt8 :: encode v := by
    intro v hmem
    have hf : (10 : UInt8) ∈ v.flatMap encodeByte := by
      have he : (10 : UInt8) ≠ '=' := by decide
      have hqu : (10 : UInt8) ≠ quote := by decide
      simpa [encode, he, hqu] using hmem
    obtain ⟨b, -, hb⟩ := mem_flatMap.mp hf
    exact (encodeByte_spec b).2 hb
  rw [write_eq, mem_append, not_or, mark]
  refine ⟨hkey, ?_⟩
  cases a.value with
  | none => exact not_mem_nil
  | some v =>
    rw [Option.elim_some]
    split
    · exact not_mem_nil
    · exact hq v

/-- What is written of attributes is not shorter than their list. -/
theorem length_le_join_write (h : ∀ a ∈ attrs, a.Writable) :
    attrs.length ≤ (join ", " (attrs.map write)).length := by
  induction attrs with
  | nil => exact Nat.le_refl _
  | cons a attrs ih =>
    obtain ⟨ha, hm⟩ := forall_mem_cons.mp h
    have hl := ih hm
    have hpos : 0 < a.write.length := by
      rw [write_eq, length_append]
      exact Nat.add_pos_left (length_pos_iff.mpr ha.key.1) _
    cases attrs with
    | nil => exact hpos
    | cons b attrs =>
      simp only [map_cons, join, length_append, length_cons] at hl ⊢
      omega

theorem newline_not_mem_writeList (h : ∀ a ∈ attrs, a.Writable) :
    (10 : UInt8) ∉ writeList attrs := by
  cases attrs with
  | nil => exact not_mem_nil
  | cons a attrs =>
    have ho : (10 : UInt8) ∉ ascii " [" := by decide
    have hc : (10 : UInt8) ∉ ascii "] " := by decide
    rw [writeList, mem_append, mem_append, not_or, not_or]
    · refine ⟨⟨ho, not_mem_join (by decide) ?_⟩, hc⟩
      exact forall_mem_map.mpr fun a ha => newline_not_mem_write (h a ha)
    · exact cons_ne_nil a attrs

end Attribute

end TemplateKit

/-! ## Lines -/

namespace TemplateKit.DataLine

open List Ascii Bytes Attribute

theorem isSpace_of_isNameByte {b} (h : isNameByte b = true) : isSpace b = false := by
  have hu : '_'.toUInt8 = 95 := rfl
  have hdot : '.'.toUInt8 = 46 := rfl
  grind [isNameByte, isAlnum, isAlpha, isUpper, isLower, isDigit, isSpace, dot]

/-- A name that can be written in front of a value. -/
def NameText (name : Bytes) : Prop := name ≠ [] ∧ ∀ b ∈ name, isNameByte b = true

section Read

variable (includes : Bool) {blanks name : Bytes} {attrs : List Attribute}

theorem read_ofName (hblanks : ∀ b ∈ blanks, isSpace b = true) (hname : NameText name) {text}
    (hst : stripLeft text = text) :
    ∃ lead line, read includes (blanks ++ (name ++ 32 :: text)) = ofName lead name line text := by
  obtain ⟨hne, hall⟩ := hname
  obtain ⟨b, tail, rfl⟩ := exists_cons_of_ne_nil hne
  have hb := hall b mem_cons_self
  let line := blanks ++ (b :: tail ++ 32 :: text)
  have hs : stripLeft line = b :: (tail ++ 32 :: text) := by
    rw [stripLeft_append hblanks]
    exact stripLeft_cons (isSpace_of_isNameByte hb) _
  have ht : (b :: (tail ++ 32 :: text)).takeWhile isNameByte = b :: tail := by
    rw [← cons_append, takeWhile_append_of_pos hall, takeWhile_cons_of_neg (by decide), append_nil]
  have hd : stripLeft ((b :: (tail ++ 32 :: text)).dropWhile isNameByte) = text := by
    rw [← cons_append, dropWhile_append_of_pos hall]
    exact hst
  refine ⟨line.take (line.length - (b :: (tail ++ 32 :: text)).length), line, ?_⟩
  change read includes line = _
  simp only [read, hs]
  split
  · contradiction
  · next h =>
    obtain ⟨rfl, -⟩ := List.cons.inj h
    exact absurd hb (by decide)
  · next h =>
    obtain ⟨rfl, -⟩ := List.cons.inj h
    exact absurd hb (by decide)
  · rw [ht, hd]

/-- Behind a name, attributes and a blank a line goes on with what tells its purpose. -/
theorem read_name (hblanks : ∀ b ∈ blanks, isSpace b = true) (hname : NameText name)
    (hattrs : ∀ a ∈ attrs, a.Writable) {c} (hc : isSpace c = false ∧ c ≠ 91) (rest : Bytes) :
    ∃ lead shown, read includes (blanks ++ (name ++ (writeList attrs ++ 32 :: c :: rest))) =
      ofRest lead name (attrs.map reread) shown (c :: rest) := by
  have hs : stripLeft (c :: rest) = c :: rest := stripLeft_cons hc.1 rest
  cases attrs with
  | nil =>
    obtain ⟨lead, line, hr⟩ := read_ofName includes hblanks hname hs
    refine ⟨lead, line, hr.trans ?_⟩
    rw [ofName]
    · rfl
    · exact fun more h => hc.2 (List.cons.inj h).1
  | cons a attrs =>
    let inner := join ", " ((a :: attrs).map write) ++ ']'.toUInt8 :: 32 :: 32 :: c :: rest
    have ht : writeList (a :: attrs) ++ 32 :: c :: rest = 32 :: 91 :: inner := by
      rw [writeList, append_assoc]
      · rfl
      · exact cons_ne_nil a attrs
    have hl : (a :: attrs).length < inner.length + 1 := by
      have hj := length_le_join_write hattrs
      simp only [inner, length_append]
      omega
    obtain ⟨lead, line, hr⟩ :=
      read_ofName includes hblanks hname (show stripLeft (91 :: inner) = 91 :: inner from rfl)
    refine ⟨lead, lead ++ name, ?_⟩
    rw [ht, hr]
    simp only [ofName, inner, readList_join hattrs hl]
    exact congrArg (ofRest lead name _ _) hs

section Purpose

variable (hblanks : ∀ b ∈ blanks, isSpace b = true) (hname : NameText name)
  (hattrs : ∀ a ∈ attrs, a.Writable)

include hblanks hname hattrs

theorem read_assignment (value : Bytes) :
    read includes (blanks ++ (name ++ (writeList attrs ++ (" = " ++ value)))) =
      .assignment name (attrs.map reread) (strip value) := by
  obtain ⟨lead, shown, h⟩ :=
    read_name includes hblanks hname hattrs (c := 61) (by decide) (32 :: value)
  refine h.trans ?_
  change DataLine.assignment name _ (strip (32 :: value)) = _
  rw [strip_blank_cons]

theorem read_link (target : Bytes) :
    read includes (blanks ++ (name ++ (writeList attrs ++ (" : " ++ target)))) =
      .link name (attrs.map reread) (strip target) := by
  obtain ⟨lead, shown, h⟩ :=
    read_name includes hblanks hname hattrs (c := 58) (by decide) (32 :: target)
  refine h.trans ?_
  change DataLine.link name _ (strip (32 :: target)) = _
  rw [strip_blank_cons]

theorem read_multiLine {terminator} (hne : terminator ≠ []) (hs : strip terminator = terminator) :
    read includes (blanks ++ (name ++ (writeList attrs ++ (" << " ++ terminator)))) =
      .multiLine name (attrs.map reread) terminator := by
  obtain ⟨lead, shown, h⟩ :=
    read_name includes hblanks hname hattrs (c := 60) (by decide) (60 :: 32 :: terminator)
  refine h.trans ?_
  simp only [ofRest, strip_blank_cons, hs]
  simp [hne]

end Purpose

theorem read_opening (hblanks : ∀ b ∈ blanks, isSpace b = true) (hname : NameText name) :
    read includes (blanks ++ (name ++ " \x7b")) = .opening name [] := by
  obtain ⟨lead, shown, h⟩ :=
    read_name includes hblanks hname (forall_mem_nil Attribute.Writable) (c := 123) (by decide) []
  exact h

theorem read_closing (hblanks : ∀ b ∈ blanks, isSpace b = true) :
    read includes (blanks ++ "\x7d") = .closing := by
  have hs : stripLeft (blanks ++ "\x7d") = [125] := stripLeft_append hblanks
  simp only [read, hs]
  rfl

end Read

end TemplateKit.DataLine
