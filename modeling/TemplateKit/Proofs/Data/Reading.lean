import TemplateKit.Proofs.Data.Block
import TemplateKit.Proofs.Data.Placement

/-!
# Reading text piece by piece

A text is read from one state of the open blocks and the tree to another, whatever follows it. Such
texts can be put one behind the other, and each kind of line that is written is one of them.
-/

namespace TemplateKit

open List DataTree Terminator Attribute Bytes

/-- The open blocks, the innermost first, and the tree so far. -/
abbrev Progress := List Address × Node

section Reading

variable (load : Node → Address → Bytes → Node × Except Failure Unit) (mode : Inclusion)
  (path : Bytes)

/-- Reading a text leads from one state to another and goes on with what follows the text. -/
def Reads (text : Bytes) (before after : Progress) : Prop :=
  ∀ rest line fuel, (text ++ rest).length < fuel → ∃ line' fuel', rest.length < fuel' ∧
    readLines load mode path fuel before.1 ⟨before.2, text ++ rest, line⟩ =
      readLines load mode path fuel' after.1 ⟨after.2, rest, line'⟩

variable {load mode path}

namespace Reads

theorem nil (p : Progress) : Reads load mode path [] p p :=
  fun _ line fuel hf => ⟨line, fuel, hf, rfl⟩

theorem append {front back p q s} (hf : Reads load mode path front p q)
    (hb : Reads load mode path back q s) : Reads load mode path (front ++ back) p s := by
  intro rest line fuel hfu
  rw [append_assoc] at hfu ⊢
  obtain ⟨line₁, fuel₁, hf₁, h₁⟩ := hf (back ++ rest) line fuel hfu
  obtain ⟨line₂, fuel₂, hf₂, h₂⟩ := hb rest line₁ fuel₁ hf₁
  exact ⟨line₂, fuel₂, hf₂, h₁.trans h₂⟩

theorem complete {text a b n m} (h : Reads load mode path text ([a], n) ([b], m)) :
    readLines load mode path (text.length + 1) [a] ⟨n, text, 0⟩ = (m, .ok ()) := by
  obtain ⟨line, fuel, hf, heq⟩ := h [] 0 (text.length + 1) (by simp)
  obtain _ | fuel := fuel
  · omega
  rw [append_nil] at heq
  exact heq

end Reads

/-- A line, and what it takes from the lines behind it. -/
theorem Reads.step {line more here outer blocks n m} (hl : (10 : UInt8) ∉ line)
    (h : ∀ rest k, ∃ k', applyLine load mode ⟨path, here, outer⟩ (.read mode.counts line)
      ⟨n, more ++ rest, k⟩ = .next blocks ⟨m, rest, k'⟩) :
    Reads load mode path (line ++ 10 :: more) (here :: outer, n) (blocks, m) := by
  intro rest k fuel hf
  obtain _ | fuel := fuel
  · omega
  obtain ⟨k', hk⟩ := h rest (k + 1)
  refine ⟨k', fuel, ?_, ?_⟩
  · simp only [length_append, length_cons] at hf
    omega
  · rw [readLines]
    simp [cutAt_byte hl, hk]

def OneLine (v : Bytes) : Prop := (10 : UInt8) ∉ v ∧ strip v = v

/-- What a line can hold: a single line, or, but not as the target of a link, whole lines. -/
def Storable (v : Bytes) (isLink : Bool) : Prop :=
  OneLine v ∨ (isLink = false ∧ v.getLast? = some 10)

instance (v : Bytes) : Decidable (OneLine v) := inferInstanceAs (Decidable (_ ∧ _))

instance (v : Bytes) (isLink : Bool) : Decidable (Storable v isLink) :=
  inferInstanceAs (Decidable (_ ∨ _))

/-- Several lines with an end to the last one too. -/
def completed (v : Bytes) : Bytes := if v.getLast? = some 10 then v else v ++ [10]

/-- The value that is read where a value was written: a single line without the blanks around it, or
whole lines. -/
def reread (v : Bytes) : Bytes := if v.elem 10 then completed v else strip v

theorem completed_eq_self {v} (h : v.getLast? = some 10) : completed v = v := if_pos h

theorem getLast?_completed (v : Bytes) : (completed v).getLast? = some 10 := by
  rw [completed]
  split
  · assumption
  · simp

theorem reread_subset (v : Bytes) : reread v ⊆ v := by
  intro b hb
  rw [reread] at hb
  split at hb
  · next hl =>
    rw [completed] at hb
    split at hb
    · exact hb
    · rcases mem_append.mp hb with hb | hb
      · exact hb
      · exact mem_singleton.mp hb ▸ elem_iff.mp hl
  · exact (stripRight_initial v).subset ((stripLeft_final _).subset hb)

theorem reread_of_storable {v isLink} (h : Storable v isLink) : reread v = v := by
  rcases h with ⟨hli, hs⟩ | ⟨-, hl⟩
  · simpa [reread, hli] using hs
  · simp [reread, mem_of_getLast? hl, completed_eq_self hl]

section Lines

variable {blanks name v : Bytes} {isLink : Bool} {attrs : List Attribute} {t : Terminator}
  {r : Random} {here : Address} {outer : List Address} {n m : Node}

/-- What stands in front of the name on a line. -/
def Blank (blanks : Bytes) : Prop := ∀ b ∈ blanks, b = 32

theorem blank_nil : Blank [] := forall_mem_nil _

theorem Blank.isSpace (h : Blank blanks) : ∀ b ∈ blanks, Ascii.isSpace b = true := by
  intro b hb
  rw [h b hb]
  rfl

theorem newline_not_mem_line (hblanks : Blank blanks) (hname : DataLine.NameText name)
    (hattrs : ∀ a ∈ attrs, a.Writable) {rest} (hr : (10 : UInt8) ∉ rest) :
    (10 : UInt8) ∉ blanks ++ (name ++ (writeList attrs ++ rest)) := by
  simp only [mem_append, not_or]
  exact ⟨fun h => absurd (hblanks 10 h) (by decide), fun h => absurd (hname.2 10 h) (by decide),
    newline_not_mem_writeList hattrs, hr⟩

theorem assignLine_ok {address a} (h : n.assignAt here name a = (m, .ok address))
    (text : Bytes) (k : Nat) :
    assignLine ⟨path, here, outer⟩ name a ⟨n, text, k⟩ = .next (here :: outer) ⟨m, text, k⟩ := by
  simp only [assignLine, assignAt, h]
  rfl

section Value

variable (hblanks : Blank blanks) (hname : DataLine.NameText name)
  (hattrs : ∀ a ∈ attrs, a.Writable)

include hblanks hname hattrs

theorem Reads.oneLine (hv : (10 : UInt8) ∉ v) {address}
    (ha : n.assignAt here name ⟨some (strip v), isLink, attrs.map Attribute.reread⟩ =
      (m, .ok address)) :
    Reads load mode path (blanks ++ name ++ writeList attrs ++ (Node.writeValue v isLink t r).1)
      (here :: outer, n) (here :: outer, m) := by
  let mark := ascii (if isLink then " : " else " = ")
  have hm : (10 : UInt8) ∉ mark ++ v := by
    rw [mem_append, not_or]
    exact ⟨by cases isLink <;> decide, hv⟩
  have ht : blanks ++ name ++ writeList attrs ++ (Node.writeValue v isLink t r).1 =
      (blanks ++ (name ++ (writeList attrs ++ (mark ++ v)))) ++ 10 :: [] := by
    simp [Node.writeValue, newline, hv, mark]
  rw [ht]
  refine .step (newline_not_mem_line hblanks hname hattrs hm) fun rest k => ⟨k, ?_⟩
  cases isLink with
  | true =>
    rw [show mark = " : " from rfl, DataLine.read_link _ hblanks.isSpace hname hattrs]
    exact assignLine_ok ha rest k
  | false =>
    rw [show mark = " = " from rfl, DataLine.read_assignment _ hblanks.isSpace hname hattrs]
    exact assignLine_ok ha rest k

theorem Reads.block (hv : (10 : UInt8) ∈ v) (ht : t.Proper)
    (hcut : (t.choose v draws r).1.cuts (completed v) = false) {address}
    (ha : n.assignAt here name ⟨some (completed v), false, attrs.map Attribute.reread⟩ =
      (m, .ok address)) :
    Reads load mode path (blanks ++ name ++ writeList attrs ++ (Node.writeValue v false t r).1)
      (here :: outer, n) (here :: outer, m) := by
  have hc := proper_choose v draws ht r
  have hs : (t.choose v draws r).1.length + 1 < PieceBuffer.growth :=
    Nat.lt_of_le_of_lt (Nat.succ_le_succ hc.short) (by decide)
  have hte : blanks ++ name ++ writeList attrs ++ (Node.writeValue v false t r).1 =
      (blanks ++ (name ++ (writeList attrs ++ (ascii " << " ++ (t.choose v draws r).1)))) ++
        10 :: (completed v ++ ((t.choose v draws r).1 ++ [10])) := by
    by_cases hl : v.getLast? = some 10 <;> simp [Node.writeValue, newline, hv, hl, completed]
  have hw := getLast?_completed v
  rw [hte]
  generalize (t.choose v draws r).1 = chosen at *
  generalize completed v = v at *
  have hm : (10 : UInt8) ∉ ascii " << " ++ chosen := by
    rw [mem_append, not_or]
    exact ⟨by decide, hc.newline_not_mem⟩
  refine .step (newline_not_mem_line hblanks hname hattrs hm) fun rest k => ?_
  have hr : v ++ (chosen ++ [10]) ++ rest = v ++ (chosen ++ 10 :: rest) := by simp
  obtain ⟨count, hp⟩ := readPieces_of_not_cuts hc.newline_not_mem hs hw hcut
    (Nat.lt_succ_of_le (show v.length ≤ (v ++ (chosen ++ 10 :: rest)).length by simp)) rest
  refine ⟨k + count, ?_⟩
  rw [DataLine.read_multiLine _ hblanks.isSpace hname hattrs hc.ne_nil
    (Bytes.strip_of_no_space fun _ => hc.isSpace), hr]
  simp only [applyLine, hp]
  exact assignLine_ok ha rest (k + count)

/-- A line with a value, and the lines of the value where it has several, does the assignment of
what is read. -/
theorem Reads.value (hl : isLink = true → (10 : UInt8) ∉ v) (ht : t.Proper)
    (hcut : (10 : UInt8) ∈ v → (t.choose v draws r).1.cuts (completed v) = false) {address}
    (ha : n.assignAt here name ⟨some (reread v), isLink, attrs.map Attribute.reread⟩ =
      (m, .ok address)) :
    Reads load mode path (blanks ++ name ++ writeList attrs ++ (Node.writeValue v isLink t r).1)
      (here :: outer, n) (here :: outer, m) := by
  by_cases hv : (10 : UInt8) ∈ v
  · obtain rfl : isLink = false := Bool.eq_false_iff.mpr fun h => hl h hv
    rw [reread, if_pos (elem_iff.mpr hv)] at ha
    exact .block hblanks hname hattrs hv ht (hcut hv) ha
  · rw [reread, if_neg (mt elem_iff.mp hv)] at ha
    exact .oneLine hblanks hname hattrs hv ha

end Value

theorem Reads.opening (hblanks : Blank blanks) (hname : DataLine.NameText name) {address}
    (ho : n.openAt here name [] = (m, .ok address)) :
    Reads load mode path (blanks ++ name ++ ascii " \x7b\n") (here :: outer,
      n) (address :: here :: outer, m) := by
  have ht : blanks ++ name ++ ascii " \x7b\n" =
      (blanks ++ (name ++ ascii " \x7b")) ++ 10 :: [] := by
    simp only [append_assoc]
    rfl
  rw [ht]
  refine .step (newline_not_mem_line hblanks hname (forall_mem_nil Attribute.Writable) (by decide))
    fun rest k => ⟨k, ?_⟩
  rw [DataLine.read_opening _ hblanks.isSpace hname]
  simp only [applyLine, openAt, ho]
  rfl

theorem Reads.closing (hblanks : Blank blanks) :
    Reads load mode path (blanks ++ ascii "\x7d\n") (here :: outer, n) (outer, n) := by
  have hl : (10 : UInt8) ∉ blanks ++ ascii "\x7d" := by
    rw [mem_append, not_or]
    exact ⟨fun h => absurd (hblanks 10 h) (by decide), by decide⟩
  have ht : blanks ++ ascii "\x7d\n" = (blanks ++ ascii "\x7d") ++ 10 :: [] := by
    rw [append_assoc]
    rfl
  rw [ht]
  refine .step hl fun rest k => ⟨k, ?_⟩
  rw [DataLine.read_closing _ hblanks.isSpace]
  rfl

end Lines

end Reading

end TemplateKit
