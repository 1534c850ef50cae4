import Mathlib.Data.List.Basic
import TemplateKit.Template.Expr.Parser

/-!
# Where expressions are taken apart

A span is a list of tokens whose brackets match. Looking for an operator from the right, a span is
passed over if its operators outside of brackets bind more tightly than the rank that is looked for.
So the operator that is found is the last one of the loosest rank.
-/

namespace TemplateKit

open List

namespace Op

/-- The place of an operator among the ranks; the larger, the tighter it binds. -/
def rank (o : Op) : Nat := ranks.findIdx (·.elem o)

def isBracket : Op → Bool
  | leftParen | rightParen | leftBracket | rightBracket => true
  | _ => false

end Op

/-- Tokens whose brackets match; the operators outside of them bind at least as tightly as a rank.
Square brackets stand behind something. -/
inductive Span : (r : Nat) → List Token → Prop
  | nil {r : Nat} : Span r []
  | operand {r : Nat} {ts : List Token} {kind : Operand} {s : Bytes} {stop : Nat} (h : Span r ts) :
      Span r (ts ++ [.operand kind s stop])
  | op {r : Nat} {ts : List Token} {o : Op} (h : Span r ts) (hr : r ≤ o.rank)
      (ho : o.isBracket = false) :
      Span r (ts ++ [.op o])
  | paren {r : Nat} {ts inner : List Token} (h : Span r ts) (hr : r ≤ Op.rank .leftParen)
      (hinner : Span 0 inner) : Span r (ts ++ .op .leftParen :: (inner ++ [.op .rightParen]))
  | bracket {r : Nat} {ts inner : List Token} (h : Span r ts) (hr : r ≤ Op.rank .leftBracket)
      (hts : ts ≠ [])
      (hinner : Span 0 inner) : Span r (ts ++ .op .leftBracket :: (inner ++ [.op .rightBracket]))

namespace Span

variable {r : Nat} {ts us : List Token}

theorem mono {r'} (h : Span r ts) (hr : r' ≤ r) : Span r' ts := by
  induction h with
  | nil => exact nil
  | operand _ ih => exact (ih hr).operand
  | op _ hra ho ih => exact (ih hr).op (Nat.le_trans hr hra) ho
  | paren _ hra hi ih _ => exact (ih hr).paren (Nat.le_trans hr hra) hi
  | bracket _ hra hts hi ih _ => exact (ih hr).bracket (Nat.le_trans hr hra) hts hi

theorem zero (h : Span r ts) : Span 0 ts := h.mono (Nat.zero_le r)

theorem single {o : Op} (hr : r ≤ o.rank) (ho : o.isBracket = false) : Span r [.op o] :=
  nil.op hr ho

theorem append (h : Span r ts) (hu : Span r us) : Span r (ts ++ us) := by
  induction hu with
  | nil =>
    rw [append_nil]
    exact h
  | operand _ ih =>
    rw [← append_assoc]
    exact (ih h).operand
  | op _ hr ho ih =>
    rw [← append_assoc]
    exact (ih h).op hr ho
  | paren _ hr hi ih _ =>
    rw [← append_assoc]
    exact (ih h).paren hr hi
  | bracket _ hr hts hi ih _ =>
    rw [← append_assoc]
    exact (ih h).bracket hr (append_ne_nil_of_right_ne_nil _ hts) hi

end Span

namespace Split

def Passes (opening closing : Op) (ts : List Token) : Prop :=
  ∀ (depth : Nat) (before behind : List Token), 1 ≤ depth →
    passOver opening closing depth (ts.reverse ++ before) behind =
    passOver opening closing depth before (ts ++ behind)

namespace Passes

variable {opening closing : Op} {ts us : List Token}

theorem append (h : Passes opening closing ts) (hu : Passes opening closing us) :
    Passes opening closing (ts ++ us) := by
  intro depth before behind hd
  rw [reverse_append, append_assoc, hu _ _ _ hd, h _ _ _ hd, append_assoc]

theorem single {t} (hc : t ≠ .op closing) (ho : t ≠ .op opening) : Passes opening closing [t] := by
  intro depth before behind _
  rw [reverse_singleton, singleton_append, passOver, if_neg hc, if_neg ho, singleton_append]

theorem group (hne : opening ≠ closing) (h : Passes opening closing ts) :
    Passes opening closing (.op opening :: (ts ++ [.op closing])) := by
  intro depth before behind hd
  have ho : Token.op opening ≠ .op closing := fun h => hne (Token.op.inj h)
  have hr : (Token.op opening :: (ts ++ [.op closing])).reverse ++ before =
      .op closing :: (ts.reverse ++ .op opening :: before) := by
    simp
  rw [hr, passOver, if_pos rfl, h _ _ _ (by omega), passOver, if_neg ho, if_pos rfl,
    if_neg (by omega)]
  simp

/-- Brackets of another kind are tokens like any. -/
theorem enclosed {o c} (ho : o ≠ opening ∧ o ≠ closing) (hc : c ≠ opening ∧ c ≠ closing)
    (h : Passes opening closing ts) : Passes opening closing (.op o :: (ts ++ [.op c])) := by
  have hop : ∀ {o : Op}, o ≠ opening ∧ o ≠ closing → Passes opening closing [.op o] := fun ho =>
    single (fun heq => ho.2 (Token.op.inj heq)) fun heq => ho.1 (Token.op.inj heq)
  exact (hop ho).append (h.append (hop hc))

end Passes

def Brackets (opening closing : Op) : Prop :=
  opening = .leftParen ∧ closing = .rightParen ∨ opening = .leftBracket ∧ closing = .rightBracket

theorem passes_of_span {opening closing r ts} (h : Span r ts)
    (hb : Brackets opening closing) : Passes opening closing ts := by
  induction h with
  | nil =>
    intro depth before behind _
    rfl
  | operand _ ih => exact ih.append (.single Token.noConfusion Token.noConfusion)
  | op _ hr ho ih =>
    refine ih.append (.single ?_ ?_)
    · rintro ⟨⟩
      rcases hb with ⟨-, rfl⟩ | ⟨-, rfl⟩ <;> cases ho
    · rintro ⟨⟩
      rcases hb with ⟨rfl, -⟩ | ⟨rfl, -⟩ <;> cases ho
  | paren _ _ _ ih ihInner =>
    refine ih.append ?_
    rcases hb with ⟨rfl, rfl⟩ | ⟨rfl, rfl⟩
    · exact ihInner.group (by decide)
    · exact ihInner.enclosed (by decide) (by decide)
  | bracket _ _ _ _ ih ihInner =>
    refine ih.append ?_
    rcases hb with ⟨rfl, rfl⟩ | ⟨rfl, rfl⟩
    · exact ihInner.enclosed (by decide) (by decide)
    · exact ihInner.group (by decide)

/-- From the right end of a group, its inside is passed over up to the opening bracket. -/
theorem passOver_span {opening closing r ts before behind} (h : Span r ts)
    (hb : Brackets opening closing) :
    passOver opening closing 1 (ts.reverse ++ .op opening :: before) behind =
    some (before, ts ++ behind) := by
  have hne : Token.op opening ≠ .op closing := by rcases hb with ⟨rfl, rfl⟩ | ⟨rfl, rfl⟩ <;> decide
  rw [passes_of_span h hb _ _ _ (Nat.le_refl 1), passOver, if_neg hne, if_pos rfl,
    if_pos (Nat.le_refl 1)]

/-- What is done at an operator: it is where to split, or the search goes on to the left of it. -/
def consider (rank : List Op) (fuel : Nat) (before : List Token) (o : Op) (behind : List Token) :
    Except ExprFault (Option Split) :=
  if rank.elem o && (!o.isLeading || before.isEmpty) then .ok (some ⟨before.reverse, o, behind⟩)
  else find rank false fuel before (.op o :: behind)

/-- An operator and what belongs to it on its right, up to its closing bracket if it has one: one
step takes the search to the left of both. -/
def Opens (before : List Token) (o : Op) (inside : List Token) : Prop :=
  ∀ rank fuel behind, find rank false (fuel + 1) ((.op o :: inside).reverse ++ before) behind =
    consider rank fuel before o (inside ++ behind)

section Opens

variable {before inner : List Token}

theorem opens_op {o} (ho : o.isBracket = false) : Opens before o [] := by
  intro rank fuel behind
  cases o with
  | leftParen | rightParen | leftBracket | rightBracket => cases ho
  | _ => rfl

theorem reverse_group (o c : Op) :
    (Token.op o :: (inner ++ [.op c])).reverse ++ before =
    .op c :: (inner.reverse ++ .op o :: before) := by
  simp

theorem opens_paren {r} (hi : Span r inner) :
    Opens before .leftParen (inner ++ [.op .rightParen]) := by
  intro rank fuel behind
  rw [reverse_group, find, passOver_span hi (.inl ⟨rfl, rfl⟩), append_assoc]
  rfl

theorem opens_bracket {r} (hi : Span r inner) (hb : before ≠ []) :
    Opens before .leftBracket (inner ++ [.op .rightBracket]) := by
  intro rank fuel behind
  obtain ⟨t, before, rfl⟩ := exists_cons_of_ne_nil hb
  rw [reverse_group, find, passOver_span hi (.inr ⟨rfl, rfl⟩), append_assoc]
  rfl

end Opens

/-- What looking for an operator of one rank comes to, however far it has to go. -/
def Finds (rank : List Op) (before behind : List Token) (result : Option Split) : Prop :=
  ∀ fuel, before.length < fuel → find rank false fuel before behind = .ok result

/-- An operator that is not taken: it has another rank, or it would have to stand at the front. -/
def Skips (rank : List Op) (before : List Token) (o : Op) : Prop :=
  rank.elem o = false ∨ o.isLeading = true ∧ before ≠ []

theorem Skips.behind {rank : List Op} {before ts : List Token} {o : Op} (h : Skips rank before o) :
    Skips rank (ts.reverse ++ before) o := by
  rcases h with hr | ⟨hl, hb⟩
  · exact .inl hr
  · exact .inr ⟨hl, append_ne_nil_of_right_ne_nil _ hb⟩

namespace Finds

variable {rank : List Op} {before behind inside : List Token} {o : Op} {result : Option Split}

theorem nil : Finds rank [] behind none := by
  intro fuel hf
  obtain _ | fuel := fuel
  · omega
  rfl

theorem operand {kind s stop} (h : Finds rank before (.operand kind s stop :: behind) result) :
    Finds rank (.operand kind s stop :: before) behind result := by
  intro fuel hf
  obtain _ | fuel := fuel
  · omega
  exact h fuel (Nat.lt_of_succ_lt_succ hf)

theorem take (h : Opens before o inside) (hr : rank.elem o = true)
    (hl : o.isLeading = false ∨ before = []) :
    Finds rank ((.op o :: inside).reverse ++ before) behind
      (some ⟨before.reverse, o, inside ++ behind⟩) := by
  intro fuel hf
  obtain _ | fuel := fuel
  · omega
  rw [h, consider]
  rcases hl with hl | rfl
  · rw [hr, hl]
    rfl
  · rw [hr, isEmpty_nil, Bool.or_true]
    rfl

theorem skip (h : Opens before o inside) (hs : Skips rank before o)
    (hm : Finds rank before (.op o :: (inside ++ behind)) result) :
    Finds rank ((.op o :: inside).reverse ++ before) behind result := by
  intro fuel hf
  obtain _ | fuel := fuel
  · omega
  rw [h, consider, if_neg]
  · simp only [length_append, length_reverse, length_cons] at hf
    exact hm fuel (by omega)
  · rcases hs with hs | ⟨hl, hb⟩
    · rw [hs, Bool.false_and]
      decide
    · simp [hl, hb]

/-- A span without an operator to take is passed over. -/
theorem span {r ts} (h : Span r ts) (hs : ∀ o : Op, r ≤ o.rank → Skips rank before o)
    (hm : Finds rank before (ts ++ behind) result) :
    Finds rank (ts.reverse ++ before) behind result := by
  induction h generalizing behind with
  | nil => exact hm
  | operand _ ih =>
    rw [append_assoc] at hm
    rw [reverse_concat]
    exact operand (ih hs hm)
  | @op r ts o _ hr ho ih =>
    rw [append_assoc] at hm
    rw [reverse_append]
    exact skip (opens_op ho) (hs o hr).behind (ih hs hm)
  | paren _ hr hi ih _ =>
    rw [append_assoc] at hm
    rw [reverse_append, append_assoc]
    exact skip (opens_paren hi) (hs _ hr).behind (ih hs hm)
  | bracket _ hr hts hi ih _ =>
    rw [append_assoc] at hm
    rw [reverse_append, append_assoc]
    have hb : ∀ {ts : List Token}, ts ≠ [] → ts.reverse ++ before ≠ [] := by
      intro ts hts
      simp [hts]
    exact skip (opens_bracket hi (hb hts)) (hs _ hr).behind (ih hs hm)

end Finds

section First

variable {ts left inside : List Token} {o : Op} {r : Nat}

theorem first_append {skipped more} (h : ∀ q ∈ skipped, Finds q ts.reverse [] none) :
    first ts false (skipped ++ more) = first ts false more := by
  induction skipped with
  | nil => rfl
  | cons q skipped ih =>
    rw [cons_append, first, h q mem_cons_self _ (by simp)]
    exact ih fun q hq => h q (mem_cons_of_mem _ hq)

/-- The ranks looser than all operators of a span are tried in vain. -/
theorem first_span (h : Span r ts) :
    first ts false Op.ranks = first ts false (Op.ranks.drop r) := by
  have hs : ∀ q ∈ Op.ranks.take r, Finds q ts.reverse [] none := by
    intro q hq
    obtain ⟨i, hi, rfl⟩ := mem_take_iff_getElem.mp hq
    rw [← append_nil ts.reverse]
    exact Finds.span h (fun o ho => .inl (not_of_lt_findIdx (show i < o.rank by omega))) .nil
  conv => lhs; rw [← take_append_drop r Op.ranks]
  exact first_append hs

/-- Tokens are split at the last operator of the loosest rank that there is. Behind it only tighter
operators follow, or operators that would have to stand at the front. -/
theorem first_eq {behind} (ho : o.rank < Op.ranks.length) (hop : Opens left.reverse o inside)
    (hl : o.isLeading = false ∨ left = []) (hs : Span o.rank (left ++ .op o :: (inside ++ behind)))
    (hb : Span r behind) (ht : ∀ o' : Op, r ≤ o'.rank → o.rank < o'.rank ∨ o'.isLeading = true) :
    first (left ++ .op o :: (inside ++ behind)) false Op.ranks =
    .ok (some ⟨left, o, inside ++ behind⟩) := by
  have hd := drop_eq_getElem_cons ho
  have hq : Op.ranks[o.rank].elem o = true := findIdx_getElem (w := ho)
  generalize hrank : Op.ranks[o.rank] = q at hd hq
  have hsk : ∀ o' : Op, r ≤ o'.rank → Skips q ((.op o :: inside).reverse ++ left.reverse) o' := by
    intro o' ho'
    rcases ht o' ho' with hlt | hl
    · exact .inl (hrank ▸ not_of_lt_findIdx hlt)
    · exact .inr ⟨hl, by simp⟩
  have hl' : o.isLeading = false ∨ left.reverse = [] := by simpa using hl
  have hf : Finds q (behind.reverse ++ ((.op o :: inside).reverse ++ left.reverse)) []
      (some ⟨left.reverse.reverse, o, inside ++ (behind ++ [])⟩) :=
    Finds.span hb hsk (Finds.take hop hq hl')
  have hr : (left ++ .op o :: (inside ++ behind)).reverse =
      behind.reverse ++ ((.op o :: inside).reverse ++ left.reverse) := by
    simp
  rw [← hr, reverse_reverse, append_nil] at hf
  rw [first_span hs, hd]
  rw [first, hf _ (by rw [length_reverse]; exact Nat.lt_succ_self _)]
  rfl

theorem first_between {right} (ho : o.rank < Op.ranks.length) (hl : o.isLeading = false)
    (hb : o.isBracket = false) (hle : Span o.rank left) (hr : Span (o.rank + 1) right) :
    first (left ++ .op o :: right) false Op.ranks = .ok (some ⟨left, o, right⟩) := by
  have hs : Span o.rank (left ++ .op o :: right) :=
    hle.append ((Span.single (Nat.le_refl _) hb).append (hr.mono (Nat.le_succ _)))
  exact first_eq ho (opens_op hb) (.inl hl) hs hr fun o' ho' => .inl ho'

theorem first_group (ho : o.rank < Op.ranks.length) (hl : o.isLeading = false ∨ left = [])
    (hop : Opens left.reverse o inside) (hs : Span o.rank (left ++ .op o :: inside)) :
    first (left ++ .op o :: inside) false Op.ranks = .ok (some ⟨left, o, inside⟩) := by
  have hnil : Span (o.rank + 1) [] := Span.nil
  rw [← append_nil inside] at hs
  have hf := first_eq ho hop hl hs hnil fun o' ho' => .inl ho'
  rwa [append_nil] at hf

/-- Tokens that are one bracketed part with a token in front are not split. -/
theorem first_call {kind s stop} (hi : Span 0 inside) :
    first (.operand kind s stop :: .op .leftParen :: (inside ++ [.op .rightParen])) false Op.ranks =
    .ok none := by
  have ho : Span (Op.rank .leftParen) [.operand kind s stop] := Span.nil.operand
  have hs := ho.paren (Nat.le_refl _) hi
  have hl : ∀ q ∈ Op.ranks.drop (Op.rank .leftParen),
      Finds q ([Token.operand kind s stop] ++ Token.op .leftParen ::
        (inside ++ [Token.op .rightParen])).reverse []
        none := by
    intro q _
    rw [reverse_append]
    exact Finds.skip (opens_paren hi) (.inr ⟨rfl, by simp⟩) (Finds.operand .nil)
  rw [← singleton_append, first_span hs, ← append_nil (List.drop _ _), first_append hl]
  rfl

end First

end Split

end TemplateKit
