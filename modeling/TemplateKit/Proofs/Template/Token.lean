import Mathlib.Data.List.Forall2
import TemplateKit.Proofs.Bytes.Basic
import TemplateKit.Template.Token

/-!
# Spelled tokens are scanned

Tokens that are written with a blank between each two are scanned as those tokens, as long as no
sign stands where it would belong to a number. What differs is only where the operands end.
-/

namespace TemplateKit.Token

open Numeral (Ended)

open Ascii Bytes

open Numeral

open List

variable {t : Token} {rest : Bytes} {afterOp : Bool} {ts : List Token}

def placeless : Token → Token
  | op o => op o
  | operand kind text _ => operand kind text 0

/-- The bytes that a name between blanks can start with. -/
def startsWord (b : UInt8) : Bool :=
  !endsName b && !isSpace b && !isDigit b && !(ascii ".'$").elem b

/-- Is the text, between blanks, taken for one name? -/
def isWord : Bytes → Bool
  | [] => false
  | b :: s => startsWord b && s.all (!endsName ·)

/-- Letters, digits, underscores and dots, with a letter in front. -/
def isVariable : Bytes → Bool
  | [] => false
  | b :: s => isAlpha b && s.all fun c => isAlnum c || c == 95 || c == 46

/-- The ways to write a token. A text is quoted by either quote, if it does not contain that one. -/
inductive Spelling : Token → Bytes → Prop
  | op (o : Op) : Spelling (.op o) o.text
  | text {quote : UInt8} {s : Bytes} {stop : Nat} (hquote : quote = 34 ∨
      quote = 39) (hs : quote ∉ s) :
      Spelling (.operand .text s stop) (quote :: s ++ [quote])
  | number {s : Bytes} {stop : Nat} : Spelling (.operand .number s stop) s
  | name {s : Bytes} {stop : Nat} : Spelling (.operand .name s stop) s

/-- Is the operand written as one of its kind? Numbers are decimal, without leading zeros. -/
def Scannable : Token → Prop
  | operand .number s _ => ∃ n, s = ofNat n
  | operand .name s _ => isWord s = true
  | _ => True

section Words

variable {b c : UInt8} {s w rest : Bytes}

theorem ne_of_startsWord (hb : startsWord b = true) (hc : startsWord c = false) : b ≠ c := by
  rintro rfl
  rw [hb] at hc
  cases hc

theorem startsWord_facts (hb : startsWord b = true) :
    endsName b = false ∧ isSpace b = false ∧ isDigit b = false := by
  simp only [startsWord, Bool.and_eq_true, Bool.not_eq_true'] at hb
  exact ⟨hb.1.1.1, hb.1.1.2, hb.1.2⟩

theorem endsName_of_alnum (h : (isAlnum b || b == 95 || b == 46) = true) : endsName b = false := by
  simpa using byte_imp (p := fun b => isAlnum b || b == 95 ||
    b == 46) (q := (!endsName ·)) (by decide +kernel) h

theorem isWord_of_isVariable (h : isVariable s = true) : isWord s = true := by
  cases s with
  | nil => cases h
  | cons b s =>
    simp only [isVariable, Bool.and_eq_true, all_eq_true] at h
    simp only [isWord, Bool.and_eq_true, all_eq_true]
    refine ⟨byte_imp (by decide +kernel) h.1, ?_⟩
    intro c hc
    simp [endsName_of_alnum (h.2 c hc)]

theorem takeWhile_endsName (hw : ∀ c ∈ w, endsName c = false) (hr : Ended rest) :
    (w ++ rest).takeWhile (!endsName ·) = w := by
  have hre : rest.takeWhile (!endsName ·) = [] := by rcases hr with rfl | ⟨t, rfl⟩ <;> rfl
  rw [takeWhile_append_of_pos, hre, append_nil]
  intro c hc
  simp [hw c hc]

end Words

section Operands

variable {b quote : UInt8} {s w rest : Bytes}

def startsOperand (b : UInt8) : Bool := startsWord b || isDigit b || b == 34 || b == 39

theorem scan?_of_startsOperand (h : startsOperand b = true) : Op.scan? (b :: s) = none := by
  have hall : Op.written.all (fun p => p.1.head?.any (!startsOperand ·)) = true := by decide
  rw [Op.scan?, findSome?_eq_none_iff]
  rintro ⟨word, o⟩ hmem
  have hh := all_eq_true.mp hall _ hmem
  cases word with
  | nil => cases hh
  | cons a more =>
    have hne : a ≠ b := by
      rintro rfl
      simp [h] at hh
    simp [Bytes.dropPrefix?, hne]

theorem scanOperand_text (hq : quote = 34 ∨ quote = 39) (hs : quote ∉ s) :
    scanOperand (quote :: s ++ [quote] ++ rest) = .ok (.text, s, rest) := by
  have hcut : scanText quote (s ++ quote :: rest) = .ok (.text, s, rest) := by
    rw [scanText, cutAt_byte hs]
  have hsp : quote :: s ++ [quote] ++ rest = quote :: (s ++ quote :: rest) := by simp
  rw [hsp]
  rcases hq with rfl | rfl <;> exact hcut

/-- An operand without a mark in front is a number if a numeral reaches as far as a name would, and
a name otherwise. -/
theorem scanOperand_unmarked (hb : b ∉ [35, 34, 39, 36]) :
    scanOperand (b :: s) = match read? true (b :: s) with
      | some (_, rest) =>
        let size := (b :: s).length - rest.length
        let name := (b :: s).takeWhile (!endsName ·)
        if name.length = (b :: s).length ∨ name.length ≤ size then
          .ok (.number, (b :: s).take size, rest)
        else scanName .name (.missingName (b :: s)) (b :: s)
      | none => scanName .name (.missingName (b :: s)) (b :: s) := by
  unfold scanOperand
  split
  · next h => exact absurd ((List.cons.inj h).1 ▸ hb) (by decide)
  · next h => exact absurd ((List.cons.inj h).1 ▸ hb) (by decide)
  · next h => exact absurd ((List.cons.inj h).1 ▸ hb) (by decide)
  · next h => exact absurd ((List.cons.inj h).1 ▸ hb) (by decide)
  · rfl

theorem unmarked_of_startsWord (hb : startsWord b = true) : b ∉ [35, 34, 39, 36] := by
  simpa using byte_imp (q := fun b => !([35, 34, 39, 36] : Bytes).elem b) (by decide +kernel) hb

theorem scanOperand_number (n : Nat) (hr : Ended rest) :
    scanOperand (ofNat n ++ rest) = .ok (.number, ofNat n, rest) := by
  have hn : (ofNat n ++ rest).takeWhile (!endsName ·) = ofNat n :=
    takeWhile_endsName (fun c hc => endsName_of_alnum (by
      simp [isAlnum, isDigit_of_mem_ofNat n hc])) hr
  have hre := read?_ofNat true n hr
  have hsi : (ofNat n ++ rest).length - rest.length = (ofNat n).length := by simp
  obtain ⟨d, more, hd, -, heq⟩ := ofNat_head n
  have hu : ∀ d < 10, hexDigit d ∉ [35, 34, 39, 36] := by decide
  have hsc := scanOperand_unmarked (s := more ++ rest) (hu d hd)
  rw [← cons_append, ← heq, hre] at hsc
  simp only [hn, hsi, Nat.le_refl, or_true, take_left] at hsc
  exact hsc

theorem read?_of_startsWord (hb : startsWord b = true) : read? true (b :: s) = none := by
  obtain ⟨-, hsp, hd⟩ := startsWord_facts hb
  have hba : announcedBase (b :: s) = (10, b :: s) := by
    have h48 : b ≠ 48 := ne_of_startsWord hb (by decide)
    unfold announcedBase
    split
    · next h => exact absurd (List.cons.inj h).1 h48
    · next h => exact absurd (List.cons.inj h).1 h48
    · rfl
  have hst : startsWithDigit 10 (b :: s) = false := by
    rw [startsWithDigit, Option.any_eq_false]
    intro v hv
    have := ten_le_digitValue hd hv
    simp only [decide_eq_false_iff_not]
    omega
  rw [read?_of_unsigned true hsp (ne_of_startsWord hb (by decide))
    (ne_of_startsWord hb (by decide))]
  simp [digits?, hba, hst]

theorem scanOperand_name (hw : isWord w = true) (hr : Ended rest) :
    scanOperand (w ++ rest) = .ok (.name, w, rest) := by
  cases w with
  | nil => cases hw
  | cons b s =>
    simp only [isWord, Bool.and_eq_true, all_eq_true, Bool.not_eq_true'] at hw
    obtain ⟨hb, hs⟩ := hw
    have hwo : ∀ c ∈ b :: s, endsName c = false := by
      intro c hc
      rcases mem_cons.mp hc with rfl | hc
      · exact (startsWord_facts hb).1
      · exact hs c hc
    rw [cons_append, scanOperand_unmarked (unmarked_of_startsWord hb), read?_of_startsWord hb]
    rw [← cons_append, scanName, takeWhile_endsName hwo hr, drop_left]
    rfl

theorem scanOne_operand (size : Nat) (afterOp : Bool) {kind text}
    (hb : startsOperand b = true) (h : scanOperand (b :: s) = .ok (kind, text, rest)) :
    ∃ stop, scanOne size afterOp (b :: s) = .ok (operand kind text stop, rest) := by
  simp [scanOne, scan?_of_startsOperand hb, h]

end Operands

/-- The operators that are also signs. -/
def isSign : Token → Bool
  | op .add | op .sub => true
  | _ => false

theorem scan?_text (o : Op) (hr : Ended rest) : Op.scan? (o.text ++ rest) = some (o, rest) := by
  rcases hr with rfl | ⟨t, rfl⟩ <;> cases o <;> rfl

theorem scanOne_op (size : Nat) {o} (hsi : afterOp = true → isSign (op o) = false)
    (hr : Ended rest) : scanOne size afterOp (o.text ++ rest) = .ok (op o, rest) := by
  have hh : (decide ((o.text ++ rest).head? = some '+'.toUInt8) ||
      decide ((o.text ++ rest).head? = some '-'.toUInt8)) = isSign (op o) := by
    cases o <;> rfl
  have hf : (afterOp && isSign (op o)) = false := by
    cases afterOp with
    | false => rfl
    | true => exact hsi rfl
  simp only [scanOne, hh, hf, scan?_text o hr]
  rfl

/-- No word of a spelled token starts with a blank, and scanning takes that word off. -/
theorem scanOne_spelling {w} (h : Spelling t w) (ht : t.Scannable) (size : Nat)
    (hsi : afterOp = true → t.isSign = false)
    (hr : Ended rest) : (∃ b s, w = b :: s ∧ isSpace b = false) ∧
      ∃ t', t'.placeless = t.placeless ∧ scanOne size afterOp (w ++ rest) = .ok (t', rest) := by
  cases h with
  | op o =>
    refine ⟨?_, .op o, rfl, scanOne_op size hsi hr⟩
    cases o <;> exact ⟨_, _, rfl, rfl⟩
  | @text quote s stop hq hs =>
    have hb : startsOperand quote = true ∧ isSpace quote = false := by
      rcases hq with rfl | rfl <;> decide
    have hsc : scanOperand (quote :: s ++ [quote] ++ rest) = .ok (.text, s, rest) :=
      scanOperand_text hq hs
    obtain ⟨stop', hone⟩ := scanOne_operand size afterOp hb.1 hsc
    exact ⟨⟨quote, s ++ [quote], rfl, hb.2⟩, .operand .text s stop', rfl, hone⟩
  | number =>
    obtain ⟨n, rfl⟩ := ht
    obtain ⟨d, more, hd, -, heq⟩ := ofNat_head n
    have hdi := isDigit_hexDigit d hd
    have hsp : ∀ d < 10, isSpace (hexDigit d) = false := by decide
    have hsc := scanOperand_number n hr
    rw [heq] at hsc ⊢
    obtain ⟨stop', hone⟩ := scanOne_operand size afterOp (by simp [startsOperand, hdi]) hsc
    exact ⟨⟨_, more, rfl, hsp d hd⟩, .operand .number _ stop', rfl, hone⟩
  | name =>
    have hs : isWord w = true := ht
    have hsc := scanOperand_name hs hr
    cases w with
    | nil => cases hs
    | cons b s =>
      have hb : startsWord b = true := by
        simp only [isWord, Bool.and_eq_true] at hs
        exact hs.1
      obtain ⟨stop', hone⟩ := scanOne_operand size afterOp (by simp [startsOperand, hb]) hsc
      exact ⟨⟨b, s, rfl, (startsWord_facts hb).2.1⟩, .operand .name _ stop', rfl, hone⟩

/-- No sign stands right behind an operator, which would make it part of a number. -/
def Signed : (afterOp : Bool) → List Token → Prop
  | _, [] => True
  | afterOp, t :: ts => (afterOp = true → t.isSign = false) ∧ Signed (t.afterOperator afterOp) ts

theorem afterOperator_placeless (t : Token) (before : Bool) :
    t.placeless.afterOperator before = t.afterOperator before := by
  cases t <;> rfl

theorem signed_append {us} : Signed afterOp (ts ++ us) ↔
      Signed afterOp ts ∧
      Signed (ts.foldl (fun before t => t.afterOperator before) afterOp) us := by
  induction ts generalizing afterOp with
  | nil => simp [Signed]
  | cons t ts ih => simp [Signed, ih, and_assoc]

theorem join_cons (w : Bytes) (ws : List Bytes) :
    ∃ rest, join [32] (w :: ws) = w ++ rest ∧ Ended rest ∧
      rest.stripLeft = (join [32] ws).stripLeft := by
  cases ws with
  | nil => exact ⟨[], by simp [join], .inl rfl, rfl⟩
  | cons v ws => exact ⟨32 :: join [32] (v :: ws), by simp [join], .inr ⟨_, rfl⟩, rfl⟩

theorem length_le_join (ws : List Bytes) : ws.length ≤ (join [32] ws).length + 1 := by
  induction ws with
  | nil => simp
  | cons w ws ih =>
    cases ws with
    | nil => simp
    | cons v ws =>
      simp only [join, length_append, length_cons] at ih ⊢
      omega

theorem scanAll_next {whole s rest : Bytes} {fuel count : Nat} (hs : s.stripLeft ≠ [])
    (hone : scanOne whole.length afterOp s.stripLeft = .ok (t, rest)) :
    scanAll whole (fuel + 1) count afterOp s = if count + 1 ≥ limit then
      .error (.tooManyTokens whole)
      else (t :: ·) <$> scanAll whole fuel (count + 1) (t.afterOperator afterOp) rest := by
  rw [scanAll]
  rw [if_neg (by simpa using hs), hone]
  rfl

/-- The words are taken off one by one; `s` is what is left, up to the blanks in front. -/
theorem scanAll_words (whole : Bytes) {ws} (hw : List.Forall₂ Spelling ts ws)
    (ht : ∀ t ∈ ts, t.Scannable) {fuel count} (hfu : ts.length ≤ fuel)
    (hc : count + ts.length < limit) (hs : Signed afterOp ts) {s}
    (hst : s.stripLeft = (join [32] ws).stripLeft) :
    ∃ ts', ts'.map placeless = ts.map placeless ∧ scanAll whole fuel count afterOp s = .ok ts' := by
  induction hw generalizing fuel count afterOp s with
  | nil =>
    refine ⟨[], rfl, ?_⟩
    cases fuel with
    | zero => rfl
    | succ fuel =>
      rw [scanAll, hst]
      rfl
  | @cons t w ts ws hsp hm ih =>
    obtain ⟨fuel, rfl⟩ : ∃ k, fuel = k + 1 := ⟨fuel - 1, by simp only [length_cons] at hfu; omega⟩
    obtain ⟨rest, hj, he, hr⟩ := join_cons w ws
    obtain ⟨⟨b, more, hh, hb⟩, t', ht', hone⟩ :=
      scanOne_spelling hsp (ht t mem_cons_self) whole.length hs.1
        he
    have ha : t'.afterOperator afterOp = t.afterOperator afterOp := by
      rw [← afterOperator_placeless t', ht', afterOperator_placeless]
    simp only [length_cons] at hfu hc
    obtain ⟨ts', hts', hall⟩ : ∃ ts', ts'.map placeless = ts.map placeless ∧
        scanAll whole fuel (count + 1) (t.afterOperator afterOp) rest = .ok ts' :=
      ih (fun t h => ht t (mem_cons_of_mem _ h)) (by omega) (by omega) hs.2 hr
    refine ⟨t' :: ts', by rw [map_cons, map_cons, ht', hts'], ?_⟩
    have hf : s.stripLeft = w ++ rest := by
      rw [hst, hj, hh, cons_append, stripLeft, dropWhile_cons, hb]
      rfl
    have hne : s.stripLeft ≠ [] := by
      rw [hf, hh]
      exact cons_ne_nil _ _
    rw [← hf] at hone
    rw [scanAll_next hne hone, if_neg (by omega), ha, hall]
    rfl

/-- Tokens spelled with a blank between each two are scanned, as long as there are not too many. -/
theorem scan_words {ws} (hw : List.Forall₂ Spelling ts ws) (ht : ∀ t ∈ ts, t.Scannable)
    (hs : Signed true ts) (hl : ts.length < limit) :
    ∃ ts', ts'.map placeless = ts.map placeless ∧ scan (join [32] ws) = .ok ts' := by
  have hf : ts.length ≤ (join [32] ws).length + 1 := by
    rw [hw.length_eq]
    exact length_le_join ws
  exact scanAll_words _ hw ht hf (by omega) hs rfl

end TemplateKit.Token
