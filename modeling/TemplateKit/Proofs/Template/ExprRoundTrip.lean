import TemplateKit.Proofs.Template.Places
import TemplateKit.Proofs.Template.Split

/-!
# Expressions written and read back

An expression is written with parentheses only where the ranks of its operators, and their grouping
to the left, ask for them. Reading the text gives the expression back, apart from the nodes for the
parentheses.
-/

namespace TemplateKit

open List Token Split

namespace UnaryOp

def op : UnaryOp → Op
  | not => .not
  | present => .present

theorem op_facts (o : UnaryOp) : o.op.rank = Op.rank .not ∧ o.op.isLeading = true ∧
    o.op.isBracket = false := by
  cases o <;> decide

end UnaryOp

namespace BinaryOp

def op : BinaryOp → Op
  | or => .or
  | and => .and
  | eq => .eq
  | ne => .ne
  | gt => .gt
  | ge => .ge
  | lt => .lt
  | le => .le
  | add => .add
  | sub => .sub
  | mul => .mul
  | div => .div
  | mod => .mod

theorem op_facts (o : BinaryOp) :
    1 ≤ o.op.rank ∧ o.op.rank < Op.rank .not ∧ o.op.isLeading = false ∧ o.op.isBracket = false := by
  cases o <;> decide

end BinaryOp

namespace Expr

/-- How tightly an expression holds together: the rank of its outermost operator. -/
def rank : Expr → Nat
  | unary o _ => o.op.rank
  | binary o _ _ => o.op.rank
  | comma _ _ => Op.rank .comma
  | _ => Op.rank .leftParen

def parenthesized (ts : List Token) : List Token := .op .leftParen :: (ts ++ [.op .rightParen])

mutual

/-- The tokens of an expression. The left operand of an operator may have the rank of the operator,
the right one has to be tighter. -/
def tokens : Expr → List Token
  | text s => [.operand .text s 0]
  | number _ s => [.operand .number s 0]
  | name s => [.operand .name s 0]
  | numberName s => [.operand .numberName s 0]
  | unary o e => .op o.op :: if e.rank < o.op.rank then parenthesized e.tokens else e.tokens
  | paren e => parenthesized e.tokens
  | binary o a b =>
    (if a.rank < o.op.rank then parenthesized a.tokens else a.tokens) ++
      .op o.op :: if b.rank ≤ o.op.rank then parenthesized b.tokens else b.tokens
  | index a b => a.tokens ++ .op .leftBracket :: (b.tokens ++ [.op .rightBracket])
  | member a b => a.tokens ++ .op .dot :: b.tokens
  | comma last before => before.tokens ++ .op .comma :: last.tokens
  | call f args => .operand .name f.name 0 :: parenthesized (followers args).tail

def followers : List Expr → List Token
  | [] => []
  | e :: more => .op .comma :: (e.tokens ++ followers more)

end

mutual

/-- The expression without its nodes for parentheses. -/
def unparen : Expr → Expr
  | unary o e => unary o e.unparen
  | paren e => e.unparen
  | binary o a b => binary o a.unparen b.unparen
  | index a b => index a.unparen b.unparen
  | member a b => member a.unparen b.unparen
  | comma last before => comma last.unparen before.unparen
  | call f args => call f (unparenAll args)
  | e => e

def unparenAll : List Expr → List Expr
  | [] => []
  | e :: more => e.unparen :: unparenAll more

end

/-- Can an index follow? -/
def isPlace : Expr → Bool
  | name _ | index _ _ => true
  | _ => false

/-- The expressions that are written: of texts, decimal numbers, variables, operators, indices of
variables, and calls of known functions with as many arguments as they take. -/
inductive Plain (fs : List Function) : Expr → Prop
  | text (s : Bytes) : Plain fs (text s)
  | number {n : Nat} (hn : n < 9223372036854775808) :
      Plain fs (number (Int64.ofNat n) (Numeral.ofNat n))
  | name {s : Bytes} (hs : isVariable s = true) : Plain fs (name s)
  | unary (o : UnaryOp) {e : Expr} (he : Plain fs e) : Plain fs (unary o e)
  | binary (o : BinaryOp) {a b : Expr} (ha : Plain fs a) (hb : Plain fs b) : Plain fs (binary o a b)
  | index {a b : Expr} (hplace : a.isPlace = true) (ha : Plain fs a) (hb : Plain fs b) :
      Plain fs (index a b)
  | call {f : Function} {args : List Expr} (hf : Function.find? fs f.name = some f)
      (hname : isWord f.name = true) (harity : args.length = f.arity) (hne : args ≠ [])
      (hargs : ∀ e ∈ args, Plain fs e) : Plain fs (call f args)

section Tokens

variable {fs : List Function} {e : Expr} {args : List Expr}

theorem one_le_rank (h : Plain fs e) : 1 ≤ e.rank := by
  have hnot : 1 ≤ Op.rank .not := by decide
  have hp : 1 ≤ Op.rank .leftParen := by decide
  cases h with
  | unary o _ =>
    rw [rank, o.op_facts.1]
    exact hnot
  | binary o _ _ => exact o.op_facts.1
  | _ => exact hp

theorem rank_of_isPlace (h : e.isPlace = true) : e.rank = Op.rank .leftBracket := by
  cases e with
  | name | index => rfl
  | _ => cases h

theorem span_parenthesized {r ts} (hr : r ≤ Op.rank .leftParen) (h : Span 0 ts) :
    Span r (parenthesized ts) := Span.nil.paren hr h

theorem span_operand {r} {p : Prop} [Decidable p] (hr : r ≤ Op.rank .leftParen)
    (hp : ¬ p → r ≤ e.rank)
    (h : Span e.rank e.tokens) : Span r (if p then parenthesized e.tokens else e.tokens) := by
  split
  · exact span_parenthesized hr h.zero
  · next hnot => exact h.mono (hp hnot)

theorem span_followers (h : ∀ e ∈ args, Span 0 e.tokens) : Span 0 (followers args) := by
  induction args with
  | nil => exact Span.nil
  | cons e args ih =>
    have hm := ih fun e he => h e (mem_cons_of_mem _ he)
    exact (Span.single (Nat.zero_le _) rfl).append ((h e mem_cons_self).append hm)

/-- The operators of an expression outside of brackets bind at least as tightly as its outermost
one. -/
theorem span_tokens (h : Plain fs e) : Span e.rank e.tokens ∧ e.tokens ≠ [] := by
  induction h with
  | text s => exact ⟨Span.nil.operand, cons_ne_nil _ _⟩
  | number _ => exact ⟨Span.nil.operand, cons_ne_nil _ _⟩
  | name _ => exact ⟨Span.nil.operand, cons_ne_nil _ _⟩
  | @unary o e _ ih =>
    obtain ⟨hnot, -, hb⟩ := o.op_facts
    have hop : Span o.op.rank [.op o.op] := .single (Nat.le_refl _) hb
    have hr : o.op.rank ≤ Op.rank .leftParen := hnot ▸ by decide
    exact ⟨hop.append (span_operand hr (by omega) ih.1), cons_ne_nil _ _⟩
  | @binary o a b _ _ iha ihb =>
    obtain ⟨-, hlt, -, hb⟩ := o.op_facts
    have hop : Span o.op.rank [.op o.op] := .single (Nat.le_refl _) hb
    have hr : o.op.rank ≤ Op.rank .leftParen := Nat.le_trans (Nat.le_of_lt hlt) (by decide)
    rw [tokens]
    constructor
    · exact (span_operand hr (by omega) iha.1).append
        (hop.append (span_operand hr (by omega) ihb.1))
    · simp
  | @index a b hp _ _ iha ihb =>
    rw [tokens]
    constructor
    · exact (rank_of_isPlace hp ▸ iha.1).bracket (Nat.le_refl _) iha.2 ihb.1.zero
    · simp
  | @call f args _ _ _ hne _ ih =>
    obtain ⟨e, more, rfl⟩ := exists_cons_of_ne_nil hne
    have hm : Span 0 (followers more) :=
      span_followers fun e he => (ih e (mem_cons_of_mem _ he)).1.zero
    have ha : Span 0 (followers (e :: more)).tail := by exact (ih e mem_cons_self).1.zero.append hm
    have hn : Span (Op.rank .leftParen) [.operand .name f.name 0] := Span.nil.operand
    exact ⟨hn.append (span_parenthesized (Nat.le_refl _) ha), cons_ne_nil _ _⟩

end Tokens

/-- Tokens that are scanned back wherever they stand: each is, no sign of theirs belongs to a
number, and neither does a sign behind them. -/
structure Legible (ts : List Token) : Prop where
  scannable : ∀ t ∈ ts, t.Scannable
  signed : ∀ afterOp, Token.Signed afterOp ts
  settled : ∀ afterOp, ts.foldl (fun before t => t.afterOperator before) afterOp = false

namespace Legible

variable {ts us : List Token} {o : Op}

theorem operand {kind s} (h : (operand kind s 0).Scannable) : Legible [.operand kind s 0] where
  scannable := by
    intro t ht
    rw [mem_singleton.mp ht]
    exact h
  signed afterOp := ⟨fun _ => rfl, trivial⟩
  settled afterOp := rfl

theorem leading (ho : isSign (.op o) = false) (h : Legible ts) : Legible (.op o :: ts) where
  scannable := by
    intro t ht
    rcases mem_cons.mp ht with rfl | ht
    · trivial
    · exact h.scannable t ht
  signed afterOp := ⟨fun _ => ho, h.signed _⟩
  settled afterOp := h.settled _

/-- Behind tokens that are settled every operator is scanned as one. -/
theorem join (h : Legible ts) (hu : Legible us) : Legible (ts ++ .op o :: us) where
  scannable := by
    intro t ht
    rcases mem_append.mp ht with ht | ht
    · exact h.scannable t ht
    · rcases mem_cons.mp ht with rfl | ht
      · trivial
      · exact hu.scannable t ht
  signed afterOp := by
    rw [signed_append, h.settled]
    refine ⟨h.signed afterOp, ?_, hu.signed _⟩
    intro hf
    cases hf
  settled afterOp := by
    rw [foldl_append]
    exact hu.settled _

theorem closing (ho : o = .rightParen ∨ o = .rightBracket) (h : Legible ts) :
    Legible (ts ++ [.op o]) where
  scannable := by
    intro t ht
    rcases mem_append.mp ht with ht | ht
    · exact h.scannable t ht
    · rw [mem_singleton.mp ht]
      trivial
  signed afterOp := by
    rw [signed_append, h.settled]
    refine ⟨h.signed afterOp, ?_, trivial⟩
    intro hf
    cases hf
  settled afterOp := by
    rw [foldl_append, h.settled]
    rcases ho with rfl | rfl <;> rfl

theorem ite {p : Prop} [Decidable p] (h : Legible ts) :
    Legible (if p then Expr.parenthesized ts else ts) := by
  split
  · exact (h.closing (.inl rfl)).leading rfl
  · exact h

theorem followers {args} (h : Legible ts) (ha : ∀ e ∈ args, Legible e.tokens) :
    Legible (ts ++ followers args) := by
  induction args generalizing ts with
  | nil =>
    rw [Expr.followers, append_nil]
    exact h
  | cons e args ih =>
    have hm : Legible (ts ++ .op .comma :: e.tokens) := h.join (ha e mem_cons_self)
    have := ih hm fun e he => ha e (mem_cons_of_mem _ he)
    rw [append_assoc] at this
    rw [Expr.followers]
    exact this

end Legible

theorem legible_tokens {fs e} (h : Plain fs e) : Legible e.tokens := by
  induction h with
  | text s => exact .operand trivial
  | @number n _ => exact .operand ⟨n, rfl⟩
  | name hs => exact .operand (isWord_of_isVariable hs)
  | unary o _ ih => exact ih.ite.leading (by cases o <;> rfl)
  | binary o _ _ iha ihb => exact iha.ite.join ihb.ite
  | index _ _ _ iha ihb => exact iha.join (ihb.closing (.inr rfl))
  | @call f args _ hn _ hne _ ih =>
    obtain ⟨e, more, rfl⟩ := exists_cons_of_ne_nil hne
    have ha : Legible (e.tokens ++ followers more) :=
      (ih e mem_cons_self).followers fun e he => ih e (mem_cons_of_mem _ he)
    have hf : Legible [.operand .name f.name 0] := .operand hn
    exact hf.join (ha.closing (.inl rfl))

/-- Reading succeeds with an expression, whatever was marked before. -/
def Reads (fs : List Function) (ts : List Token) (e : Expr) : Prop :=
  ∀ fuel, ts.length < fuel → ∀ marks, ∃ marks', (read fs fuel false ts).run.run marks =
    (.ok e, marks')

namespace Reader

variable {α β : Type}

theorem run_bind_ok {x : Reader α} {f : α → Reader β} {a : α} {marks marks' : List Nat}
    (h : x.run.run marks = (.ok a, marks')) : (x >>= f).run.run marks = (f a).run.run marks' := by
  rw [ExceptT.run_bind, StateT.run_bind, h]
  rfl

end Reader

theorem upTo_append (o : Op) (ts : List Token) : upTo o (ts ++ [.op o]) = some ts := by
  simp [upTo]

theorem exists_two {ts : List Token} (h : 2 ≤ ts.length) : ∃ t t' more, ts = t :: t' :: more := by
  match ts, h with
  | t :: t' :: more, _ => exact ⟨t, t', more, rfl⟩

namespace Reads

variable {fs : List Function} {ts left right : List Token} {a b e : Expr}

theorem of_succ (h : ∀ fuel, ts.length ≤ fuel → ∀ marks, ∃ marks',
    (read fs (fuel + 1) false ts).run.run marks = (.ok e, marks')) :
    Reads fs ts e := by
  intro fuel hf
  obtain _ | fuel := fuel
  · omega
  exact h fuel (Nat.le_of_lt_succ hf)

theorem operand {kind s stop} : Reads fs [.operand kind s stop] (ofOperand kind s) :=
  of_succ fun _ _ marks => ⟨stop :: marks, rfl⟩

theorem length_pos (h : Reads fs ts e) : 0 < ts.length := by
  rw [length_pos_iff]
  rintro rfl
  obtain ⟨marks, h⟩ := h 1 (by simp) []
  cases h

theorem of_single {f : Expr → Expr} (hlen : right.length < ts.length)
    (hr : ∀ fuel, read fs (fuel + 1) false ts = (return f (← read fs fuel false right)))
    (h : Reads fs right e) : Reads fs ts (f e) := by
  refine of_succ fun fuel hf marks => ?_
  obtain ⟨marks', hm⟩ := h fuel (by omega) marks
  refine ⟨marks', ?_⟩
  rw [hr, Reader.run_bind_ok hm]
  rfl

/-- The right part is read before the left one. -/
theorem of_pair {f : Expr → Expr → Expr} (hl : left.length < ts.length)
    (hr : right.length < ts.length) (hre : ∀ fuel, read fs (fuel + 1) false ts = (do
      let b ← read fs fuel false right
      return f (← read fs fuel false left) b))
    (ha : Reads fs left a) (hb : Reads fs right b) : Reads fs ts (f a b) := by
  refine of_succ fun fuel hf marks => ?_
  obtain ⟨marks₁, hm₁⟩ := hb fuel (by omega) marks
  obtain ⟨marks₂, hm₂⟩ := ha fuel (by omega) marks₁
  refine ⟨marks₂, ?_⟩
  rw [hre, Reader.run_bind_ok hm₁, Reader.run_bind_ok hm₂]
  rfl

theorem of_between {o : Op} {f : Expr → Expr → Expr}
    (hr : 2 ≤ (left ++ .op o :: right).length → ∀ fuel,
      read fs (fuel + 1) false (left ++ .op o :: right) = (do
        let b ← read fs fuel false right
        return f (← read fs fuel false left) b))
    (ha : Reads fs left a) (hb : Reads fs right b) : Reads fs (left ++ .op o :: right) (f a b) := by
  have hlen : (left ++ .op o :: right).length = left.length + right.length + 1 := by
    simp only [length_append, length_cons]
    omega
  have := ha.length_pos
  exact of_pair (by omega) (by omega) (hr (by omega)) ha hb

theorem unary (o : UnaryOp) (hs : Span (Op.rank .not) ts) (h : Reads fs ts e) :
    Reads fs (.op o.op :: ts) (unary o e) := by
  obtain ⟨hnot, hl, hb⟩ := o.op_facts
  have hop : Span o.op.rank [.op o.op] := .single (Nat.le_refl _) hb
  -- an operator behind this one is tighter, or would have to stand where this one is
  have ht : ∀ o' : Op, Op.rank .not ≤ o'.rank → o.op.rank < o'.rank ∨ o'.isLeading = true := by
    rw [hnot]
    intro o'
    cases o' <;> decide
  have hf : first (.op o.op :: ts) false Op.ranks = .ok (some ⟨[], o.op, ts⟩) :=
    first_eq (by rw [hnot]; decide) (opens_op hb) (.inr rfl) (hop.append (hnot ▸ hs)) hs ht
  refine of_single (by simp) (fun fuel => ?_) h
  obtain ⟨t, more, rfl⟩ := exists_cons_of_length_pos h.length_pos
  rw [read.eq_def]
  simp only [hf, Reader.lift_ok_bind]
  cases o <;> rfl

theorem paren (hs : Span 0 ts) (h : Reads fs ts e) : Reads fs (parenthesized ts) (paren e) := by
  have hf : first (parenthesized ts) false Op.ranks =
      .ok (some ⟨[], .leftParen, ts ++ [.op .rightParen]⟩) :=
    first_group (by decide) (.inr rfl) (opens_paren hs) (span_parenthesized (Nat.le_refl _) hs)
  have hlen : ts.length + 2 = (parenthesized ts).length := by simp [parenthesized]
  refine of_single (by omega) (fun fuel => ?_) h
  obtain ⟨t, t', more, heq⟩ := exists_two (hlen ▸ Nat.le_add_left 2 _)
  rw [heq] at hf ⊢
  rw [read.eq_def]
  simp only [hf, Reader.lift_ok_bind, upTo_append]

theorem binary (o : BinaryOp) (hl : Span o.op.rank left) (hr : Span (o.op.rank + 1) right)
    (ha : Reads fs left a) (hb : Reads fs right b) :
    Reads fs (left ++ .op o.op :: right) (binary o a b) := by
  obtain ⟨-, hlt, hle, hbr⟩ := o.op_facts
  have hra : o.op.rank < Op.ranks.length := Nat.lt_trans hlt (by decide)
  have hf := first_between hra hle hbr hl hr
  refine of_between (fun hlen fuel => ?_) ha hb
  obtain ⟨t, t', more, heq⟩ := exists_two hlen
  rw [heq] at hf ⊢
  rw [read.eq_def]
  simp only [hf]
  cases o <;> rfl

theorem comma (hl : Span 0 left) (hr : Span 1 right) (ha : Reads fs left a)
    (hb : Reads fs right b) :
    Reads fs (left ++ .op .comma :: right) (comma b a) := by
  have hf : first (left ++ .op .comma :: right) false Op.ranks = .ok (some ⟨left, .comma, right⟩) :=
    first_between (by decide) rfl rfl hl hr
  refine of_between (f := fun a b => Expr.comma b a) (fun hlen fuel => ?_) ha hb
  obtain ⟨t, t', more, heq⟩ := exists_two hlen
  rw [heq] at hf ⊢
  rw [read.eq_def]
  simp only [hf, Reader.lift_ok_bind]

theorem index (hl : Span (Op.rank .leftBracket) left) (hr : Span 0 right) (ha : Reads fs left a)
    (hb : Reads fs right b) :
    Reads fs (left ++ .op .leftBracket :: (right ++ [.op .rightBracket])) (index a b) := by
  have := ha.length_pos
  have hne : left ≠ [] := length_pos_iff.mp ha.length_pos
  have hf : first (left ++ .op .leftBracket :: (right ++ [.op .rightBracket])) false Op.ranks =
      .ok (some ⟨left, .leftBracket, right ++ [.op .rightBracket]⟩) :=
    first_group (by decide) (.inl rfl) (opens_bracket hr (by simpa using hne))
      (hl.bracket (Nat.le_refl _) hne hr)
  have hlen : (left ++ op .leftBracket :: (right ++ [op .rightBracket])).length =
      left.length + right.length + 2 := by
    simp only [length_append, length_cons, length_nil]
    omega
  refine of_pair (by omega) (by omega) (fun fuel => ?_) ha hb
  obtain ⟨t, t', more, heq⟩ := exists_two (hlen ▸ Nat.le_add_left 2 _)
  rw [heq] at hf ⊢
  rw [read.eq_def]
  simp only [hf, Reader.lift_ok_bind, upTo_append]

theorem call {f : Bytes} {stop : Nat} {g : Function} (hf : Function.find? fs f = some g)
    (hsp : Span 0 ts) (h : Reads fs ts e) (ha : e.elements.length = g.arity) :
    Reads fs (.operand .name f stop :: parenthesized ts) (call g e.elements) := by
  refine of_succ fun fuel hfu marks => ?_
  have hs : ts.length < fuel := by
    simp only [parenthesized, length_cons, length_append] at hfu
    omega
  obtain ⟨marks', hr⟩ := h fuel hs (stop :: marks)
  have hm : (Reader.mark stop).run.run marks = (.ok (), stop :: marks) := rfl
  have har : (elements <$> read fs fuel false ts).run.run (stop :: marks) =
      (.ok e.elements, marks') := by
    rw [map_eq_pure_bind, Reader.run_bind_ok hr]
    rfl
  refine ⟨marks', ?_⟩
  rw [read.eq_def]
  simp only [parenthesized, first_call hsp, Reader.lift_ok_bind, upTo_append, hf]
  rw [Reader.run_bind_ok hm, if_neg (by simpa using length_pos_iff.mp h.length_pos),
    Reader.run_bind_ok har, if_pos ha]
  rfl

end Reads

/-- The tokens are read as an expression, up to parentheses. -/
def ReadBack (fs : List Function) (ts : List Token) (e : Expr) : Prop :=
  ∃ e', Reads fs ts e' ∧ e'.unparen = e

namespace ReadBack

variable {fs : List Function} {ts left right : List Token} {a b e : Expr}

theorem ite {p : Prop} [Decidable p] (hs : Span 0 ts) (h : ReadBack fs ts e) :
    ReadBack fs (if p then Expr.parenthesized ts else ts) e := by
  split
  · obtain ⟨e', hr, he'⟩ := h
    exact ⟨e'.paren, hr.paren hs, he'⟩
  · exact h

theorem unary (o : UnaryOp) (hs : Span (Op.rank .not) ts) (h : ReadBack fs ts e) :
    ReadBack fs (.op o.op :: ts) (unary o e) := by
  obtain ⟨e', hr, rfl⟩ := h
  exact ⟨e'.unary o, hr.unary o hs, rfl⟩

theorem binary (o : BinaryOp) (hl : Span o.op.rank left) (hr : Span (o.op.rank + 1) right)
    (ha : ReadBack fs left a) (hb : ReadBack fs right b) :
    ReadBack fs (left ++ .op o.op :: right) (binary o a b) := by
  obtain ⟨a', hreadA, rfl⟩ := ha
  obtain ⟨b', hreadB, rfl⟩ := hb
  exact ⟨Expr.binary o a' b', .binary o hl hr hreadA hreadB, rfl⟩

theorem index (hl : Span (Op.rank .leftBracket) left) (hr : Span 0 right) (ha : ReadBack fs left a)
    (hb : ReadBack fs right b) :
    ReadBack fs (left ++ .op .leftBracket :: (right ++ [.op .rightBracket])) (index a b) := by
  obtain ⟨a', hreadA, rfl⟩ := ha
  obtain ⟨b', hreadB, rfl⟩ := hb
  exact ⟨Expr.index a' b', hreadA.index hl hr hreadB, rfl⟩

/-- Arguments behind the first ones: the list grows by one at a time. -/
theorem followers {args} (ha : ∀ e ∈ args, Span 1 e.tokens ∧ ReadBack fs e.tokens e)
    {front} (hs : Span 0 front) (hf : Reads fs front a) :
    ∃ x es, Reads fs (front ++ followers args) x ∧ x.elements = a.elements ++ es ∧
      unparenAll es = args := by
  induction args generalizing front a with
  | nil =>
    rw [Expr.followers, append_nil]
    exact ⟨a, [], hf, by simp, rfl⟩
  | cons e args ih =>
    obtain ⟨hspanE, e', hr, he'⟩ := ha e mem_cons_self
    have hc : Span 0 [.op .comma] := .single (Nat.zero_le _) rfl
    obtain ⟨x, es, hx, hel, hes⟩ := ih (fun e he => ha e (mem_cons_of_mem _ he))
      (hs.append (hc.append hspanE.zero)) (hf.comma hs hspanE hr)
    refine ⟨x, e' :: es, ?_, ?_, ?_⟩
    · rw [Expr.followers]
      simpa using hx
    · simpa [elements] using hel
    · rw [unparenAll, he', hes]

theorem length_unparenAll (es : List Expr) : (unparenAll es).length = es.length := by
  induction es with
  | nil => rfl
  | cons e es ih => rw [unparenAll, length_cons, length_cons, ih]

/-- An expression that is a list is one without its parentheses, too. -/
theorem elements_of_plain (h : Plain fs e.unparen) : e.elements = [e] := by
  cases e with
  | comma last before => cases h
  | _ => rfl

theorem call {f : Function} {args : List Expr} (hf : Function.find? fs f.name = some f)
    (ha : args.length = f.arity) (hne : args ≠ [])
    (har : ∀ e ∈ args, Plain fs e ∧ Span 1 e.tokens ∧ ReadBack fs e.tokens e) :
    ReadBack fs (call f args).tokens (call f args) := by
  obtain ⟨e, more, rfl⟩ := exists_cons_of_ne_nil hne
  obtain ⟨hp, hspanE, e', hre, rfl⟩ := har e mem_cons_self
  have hr : ∀ e ∈ more, Span 1 e.tokens ∧ ReadBack fs e.tokens e := fun e he =>
    (har e (mem_cons_of_mem _ he)).2
  have hspanRest : Span 0 (Expr.followers more) := span_followers fun e he => (hr e he).1.zero
  obtain ⟨x, es, hx, hel, rfl⟩ := followers hr hspanE.zero hre
  rw [elements_of_plain hp] at hel
  have hc : x.elements.length = f.arity := by
    rw [hel, ← ha]
    simp [length_unparenAll]
  refine ⟨Expr.call f x.elements, hx.call hf (hspanE.zero.append hspanRest) hc, ?_⟩
  rw [hel, unparen]
  rfl

end ReadBack

theorem readBack_tokens {fs e} (h : Plain fs e) : ReadBack fs e.tokens e := by
  induction h with
  | text s => exact ⟨_, .operand, rfl⟩
  | @number n hn =>
    refine ⟨_, .operand, ?_⟩
    have hr := Numeral.read?_ofNat true n (.inl rfl)
    rw [append_nil] at hr
    simp [ofOperand, unparen, Numeral.toInt64Announced, hr, Numeral.clamp_of_lt hn]
  | name _ => exact ⟨_, .operand, rfl⟩
  | @unary o e he ih =>
    have hs := (span_tokens he).1
    rw [tokens, o.op_facts.1]
    exact (ih.ite hs.zero).unary o (span_operand (by decide) (by omega) hs)
  | @binary o a b ha hb iha ihb =>
    have hspanA := (span_tokens ha).1
    have hspanB := (span_tokens hb).1
    have hra : o.op.rank + 1 ≤ Op.rank .leftParen := Nat.le_trans o.op_facts.2.1 (by decide)
    exact .binary o (span_operand (by omega) (by omega) hspanA) (span_operand hra (by omega) hspanB)
      (iha.ite hspanA.zero) (ihb.ite hspanB.zero)
  | @index a b hp ha hb iha ihb =>
    have hspanA := (span_tokens ha).1
    rw [rank_of_isPlace hp] at hspanA
    exact iha.index hspanA (span_tokens hb).1.zero ihb
  | @call f args hf _ har hne harg ih =>
    refine .call hf har hne fun e he => ?_
    exact ⟨harg e he, (span_tokens (harg e he)).1.mono (one_le_rank (harg e he)), ih e he⟩

/-- Reading inverts writing. An expression is spelled with a blank between each two tokens and
parentheses only where its ranks need them; if it has fewer tokens than an expression may have, its
text is read as the expression itself, up to nodes for parentheses. -/
theorem parse_spelled_tokens {fs : List Function} {e : Expr} (h : Plain fs e) {ws : List Bytes}
    (hw : List.Forall₂ Token.Spelling e.tokens ws) (hl : e.tokens.length < limit)
    (marks : List Nat) :
    ∃ e' marks', (parse fs false (Bytes.join [32] ws)).run.run marks = (.ok e', marks') ∧
      e'.unparen = e := by
  have hlegible := legible_tokens h
  obtain ⟨ts, hts, hscan⟩ := scan_words hw hlegible.scannable (hlegible.signed true) hl
  have hlength : e.tokens.length = ts.length := by rw [← length_map, ← hts, length_map]
  obtain ⟨e', hread, he'⟩ := readBack_tokens h
  obtain ⟨marks₁, hmarks⟩ := hread (ts.length + 1) (hlength ▸ Nat.lt_succ_self _) []
  have hsame := read_congr fs (ts.length + 1) false hts marks []
  rw [show read fs (ts.length + 1) false e.tokens [] = (.ok e', marks₁) from hmarks] at hsame
  rw [parse, hscan, Reader.lift_ok_bind]
  cases hrun : read fs (ts.length + 1) false ts marks with
  | mk result marks' =>
    rw [hrun] at hsame
    cases result with
    | ok x => exact ⟨x, marks', hrun, Option.some.inj hsame ▸ he'⟩
    | error f => cases hsame

/-- An index, a call, and an operand that needs parentheses. -/
theorem parse_spelled_tokens_nested : ∃ e' marks', (parse Function.builtins false
        (ascii "! a.b [ i - 1 ] && max ( 7 , 2 * ( x + 'k' ) ) > 0")).run.run [] =
        (.ok e', marks') ∧ e'.unparen =
        binary .and (unary .not
          (index (name (ascii "a.b")) (binary .sub (name (ascii "i")) (number 1 (ascii "1")))))
          (binary .gt (call ⟨ascii "max", 2, false, .builtin .max⟩ [number 7 (ascii "7"),
                binary .mul (number 2 (ascii "2"))
                  (binary .add (name (ascii "x")) (text (ascii "k")))])
            (number 0 (ascii "0"))) := by
  have htext : ascii "! a.b [ i - 1 ] && max ( 7 , 2 * ( x + 'k' ) ) > 0" =
      Bytes.join [32] [ascii "!", ascii "a.b", ascii "[", ascii "i", ascii "-", ascii "1",
        ascii "]", ascii "&&",
        ascii "max", ascii "(", ascii "7", ascii ",", ascii "2", ascii "*", ascii "(",
          ascii "x", ascii "+",
        ascii "'k'", ascii ")", ascii ")", ascii ">", ascii "0"] := by decide +kernel
  rw [htext]
  have hnumber : ∀ n < 10, Plain Function.builtins (number (Int64.ofNat n) (Numeral.ofNat n)) :=
    fun n hn =>
    .number (Nat.lt_trans hn (by decide))
  refine parse_spelled_tokens ?_ ?_ (by decide) []
  · refine .binary .and
      (.unary .not (.index rfl (.name (by decide)) (.binary .sub (.name (by decide)) ?_)))
      (.binary .gt (.call rfl (by decide) rfl (by simp) ?_) ?_)
    · exact hnumber 1 (by decide)
    · intro e he
      simp only [mem_cons, not_mem_nil, or_false] at he
      rcases he with rfl | rfl
      · exact hnumber 7 (by decide)
      · exact .binary .mul (hnumber 2 (by decide)) (.binary .add (.name (by decide)) (.text _))
    · exact hnumber 0 (by decide)
  · have hquoted : ∀ {stop}, Token.Spelling (.operand .text (ascii "k") stop) (ascii "'k'") :=
      .text (.inr rfl) (by decide)
    exact .cons (.op .not) <| .cons .name <| .cons (.op .leftBracket) <| .cons .name <|
      .cons (.op .sub) <|
      .cons .number <| .cons (.op .rightBracket) <| .cons (.op .and) <| .cons .name <|
      .cons (.op .leftParen) <|
      .cons .number <| .cons (.op .comma) <| .cons .number <| .cons (.op .mul) <|
      .cons (.op .leftParen) <|
      .cons .name <| .cons (.op .add) <| .cons hquoted <| .cons (.op .rightParen) <|
      .cons (.op .rightParen) <|
      .cons (.op .gt) <| .cons .number .nil

end Expr

end TemplateKit
