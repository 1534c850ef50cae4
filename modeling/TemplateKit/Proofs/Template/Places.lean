import TemplateKit.Proofs.Data.Line
import TemplateKit.Proofs.Program
import TemplateKit.Proofs.Template.Token
import TemplateKit.Template.Expr.Parser

/-!
# Where the words of an expression end

The places that reading an expression marks are within its text, and so is a literal text that it
consists of.
-/

namespace TemplateKit

open List Option Token

namespace Bytes

theorem length_stripLeft_le (s : Bytes) : s.stripLeft.length ≤ s.length :=
  (stripLeft_final s).length_le

theorem findByte?_lt {p : UInt8 → Bool} {s : Bytes} {k : Nat} (h : s.findByte? p = some k) :
    k < s.length := by
  induction s generalizing k with
  | nil => cases h
  | cons b s ih =>
    unfold findByte? at h
    split at h
    · cases h
      exact Nat.zero_lt_succ _
    · obtain ⟨j, hj, rfl⟩ := map_eq_some_iff.mp h
      exact Nat.succ_lt_succ (ih hj)

end Bytes

namespace Numeral

theorem length_readDigits (base acc : Nat) (s : Bytes) :
    (readDigits base acc s).2.length ≤ s.length := by
  fun_induction readDigits base acc s with
  | case1 acc => exact Nat.le_refl _
  | case2 acc b s d _ _ ih => exact Nat.le_succ_of_le ih
  | case3 => exact Nat.le_refl _
  | case4 => exact Nat.le_refl _

theorem length_readDigits_lt {base s} (h : startsWithDigit base s = true) (acc : Nat) :
    (readDigits base acc s).2.length < s.length := by
  cases s with
  | nil => cases h
  | cons b s =>
    obtain ⟨d, hd, hlt⟩ := (Option.any_eq_true _ _).mp h
    rw [readDigits, hd]
    dsimp only
    rw [if_pos (of_decide_eq_true hlt)]
    exact Nat.lt_succ_of_le (length_readDigits _ _ _)

theorem length_announcedBase (s : Bytes) : (announcedBase s).2.length ≤ s.length := by
  unfold announcedBase
  split
  · split
    · exact Nat.le_succ_of_le (Nat.le_succ _)
    · exact Nat.le_refl _
  · exact Nat.le_refl _
  · exact Nat.le_refl _

theorem length_read? {announced s rest n} (h : read? announced s = some (n, rest)) :
    rest.length < s.length := by
  have hb : ∀ s : Bytes, (if announced then announcedBase s else (10, s)).2.length ≤ s.length := by
    intro s
    split
    · exact length_announcedBase s
    · exact Nat.le_refl _
  unfold read? at h
  rw [ite_none_right_eq_some] at h
  obtain ⟨-, rfl⟩ := Prod.mk.inj (some.inj h.2)
  refine Nat.lt_of_lt_of_le (length_readDigits_lt h.1 _)
    (Nat.le_trans (hb _) (Nat.le_trans ?_ (Bytes.length_stripLeft_le s)))
  split
  · next hs => exact hs ▸ Nat.le_succ _
  · next hs => exact hs ▸ Nat.le_succ _
  · exact Nat.le_refl _

end Numeral

namespace Token

/-- A token that ends at one of some places, at which a literal text may end too. -/
def Within (B : Nat → Prop) : Token → Prop
  | op _ => True
  | operand kind text stop => B stop ∧ (kind = .text → B text.length)

theorem within_true (t : Token) : t.Within fun _ => True := by
  cases t with
  | op o => trivial
  | operand kind text stop => exact ⟨trivial, fun _ => trivial⟩

variable {size : Nat} {s text rest : Bytes} {kind : Operand}

theorem length_scanText {quote} (h : scanText quote s = .ok (kind, text, rest)) :
    text.length ≤ s.length ∧ rest.length ≤ s.length := by
  have hl := Bytes.length_cutAt (· == quote) s
  unfold scanText at h
  split at h
  · next front back hcut =>
    cases h
    simp only [hcut, elim_some] at hl
    omega
  · cases h

theorem length_scanName {kind' fault} (h : scanName kind' fault s = .ok (kind, text, rest)) :
    text.length ≤ s.length ∧ rest.length ≤ s.length ∧ (s ≠ [] → rest.length < s.length) := by
  unfold scanName at h
  dsimp only at h
  split at h
  · cases h
  · next hn =>
    cases h
    have hle : (s.takeWhile (!endsName ·)).length ≤ s.length := (List.takeWhile_prefix _).length_le
    refine ⟨hle, by simp, fun hs => ?_⟩
    have hpos : 0 < (s.takeWhile (!endsName ·)).length := by
      rw [length_pos_iff]
      intro he
      rw [he, isEmpty_eq_false_iff.mpr hs] at hn
      exact hn rfl
    rw [length_drop]
    omega

theorem length_scanOperand (hs : s ≠ []) (h : scanOperand s = .ok (kind, text, rest)) :
    text.length ≤ s.length ∧ rest.length < s.length := by
  have hl : ∀ {b : UInt8} {s : Bytes}, text.length ≤ s.length → rest.length ≤ s.length →
      text.length ≤ (b :: s).length ∧ rest.length < (b :: s).length :=
    fun h h' => ⟨Nat.le_succ_of_le h, Nat.lt_succ_of_le h'⟩
  have ht : ∀ (s : Bytes) k, (s.take k).length ≤ s.length :=
    fun s k => by rw [length_take]; exact Nat.min_le_right _ _
  unfold scanOperand at h
  split at h
  · split at h
    · next rest' hr =>
      cases h
      exact hl (ht _ _) (Nat.le_of_lt (Numeral.length_read? hr))
    · exact hl (length_scanName h).1 (length_scanName h).2.1
  · exact hl (length_scanText h).1 (length_scanText h).2
  · exact hl (length_scanText h).1 (length_scanText h).2
  · exact hl (length_scanName h).1 (length_scanName h).2.1
  · have hn : ∀ {fault}, scanName .name fault s = .ok (kind, text, rest) →
        text.length ≤ s.length ∧ rest.length < s.length :=
      fun h => ⟨(length_scanName h).1, (length_scanName h).2.2 hs⟩
    dsimp only at h
    split at h
    · next rest' hr =>
      split at h
      · cases h
        exact ⟨ht _ _, Numeral.length_read? hr⟩
      · exact hn h
    · exact hn h

theorem within_scanOne {afterOp t} (hne : s ≠ []) (h : scanOne size afterOp s = .ok (t, rest)) :
    (s.length ≤ size → t.Within (· ≤ size)) ∧ rest.length < s.length := by
  unfold scanOne at h
  dsimp only at h
  split at h
  · next o rest' hop =>
    cases h
    split at hop
    · cases hop
    · obtain ⟨⟨w, o⟩, hmem, hfo⟩ := exists_of_findSome?_eq_some hop
      obtain ⟨_, hd, heq⟩ := map_eq_some_iff.mp hfo
      cases heq
      have hw : Op.written.all (0 < ·.1.length) = true := by decide
      have hpos : 0 < w.length := of_decide_eq_true (all_eq_true.mp hw _ hmem)
      refine ⟨fun _ => trivial, ?_⟩
      rw [Bytes.eq_append_of_dropPrefix? hd, length_append]
      omega
  · cases ho : scanOperand s with
    | error f =>
      rw [ho] at h
      cases h
    | ok found =>
      obtain ⟨ht, hr⟩ := length_scanOperand hne ho
      rw [ho] at h
      cases h
      exact ⟨fun hs => ⟨by omega, fun _ => Nat.le_trans ht hs⟩, hr⟩

theorem within_scanAll {whole fuel count afterOp ts}
    (hs : s.length ≤ whole.length) (h : scanAll whole fuel count afterOp s = .ok ts) :
    ∀ t ∈ ts, t.Within (· ≤ whole.length) := by
  induction fuel generalizing count afterOp s ts with
  | zero =>
    cases h
    simp
  | succ fuel ih =>
    by_cases he : s.stripLeft = []
    · rw [scanAll, he] at h
      cases h
      simp
    · have hst : s.stripLeft.length ≤ whole.length := Nat.le_trans (Bytes.length_stripLeft_le s) hs
      cases hone : scanOne whole.length afterOp s.stripLeft with
      | error f =>
        rw [scanAll] at h
        rw [if_neg (by simpa using he), hone] at h
        cases h
      | ok found =>
        obtain ⟨t, rest⟩ := found
        obtain ⟨ht, hr⟩ := within_scanOne he hone
        rw [scanAll_next he hone] at h
        split at h
        · cases h
        · cases hm : scanAll whole fuel (count + 1) (t.afterOperator afterOp) rest with
          | error f =>
            rw [hm] at h
            cases h
          | ok more =>
            rw [hm] at h
            cases h
            exact forall_mem_cons.mpr ⟨ht hst, ih (by omega) hm⟩

/-- A change of tokens that spares the operators. -/
def SparesOps (f : Token → Token) : Prop := ∀ t o, f t = .op o ↔ t = .op o

theorem sparesOps_placeless : SparesOps placeless := by
  intro t o
  cases t <;> simp [placeless]

end Token

namespace Split

def map (f : Token → Token) (s : Split) : Split := ⟨s.left.map f, s.op, s.right.map f⟩

variable {f : Token → Token} (hf : Token.SparesOps f)

include hf

theorem passOver_map (opening closing : Op) (depth : Nat) (before behind : List Token) :
    passOver opening closing depth (before.map f) (behind.map f) =
      (passOver opening closing depth before behind).map (Prod.map (List.map f) (List.map f)) := by
  induction before generalizing depth behind with
  | nil => rfl
  | cons t before ih =>
    rw [map_cons, passOver, passOver]
    simp only [hf t]
    split_ifs
    · exact ih _ (t :: behind)
    · rfl
    · exact ih _ (t :: behind)
    · exact ih _ (t :: behind)

theorem find_map (rank : List Op) (assignable : Bool) (fuel : Nat) (before behind : List Token) :
    find rank assignable fuel (before.map f) (behind.map f) =
      (find rank assignable fuel before behind).map (Option.map (map f)) := by
  induction fuel generalizing before behind with
  | zero => rfl
  | succ fuel ih =>
    have hop : ∀ o, f (.op o) = .op o := fun o => (hf _ o).mpr rfl
    have hc : ∀ (before : List Token) (o : Op) (behind : List Token),
        (if assignable && !o.isAssignable then .error (.notAssignable o.text)
          else if rank.elem o && (!o.isLeading || (before.map f).isEmpty) then
            .ok (some ⟨(before.map f).reverse, o, behind.map f⟩)
          else find rank assignable fuel (before.map f) (.op o :: behind.map f)) =
        Except.map (Option.map (map f)) (if assignable &&
          !o.isAssignable then .error (.notAssignable o.text)
          else if rank.elem o && (!o.isLeading || before.isEmpty) then
            .ok (some ⟨before.reverse, o, behind⟩)
          else find rank assignable fuel before (.op o :: behind)) := by
      intro before o behind
      have hm := ih before (.op o :: behind)
      rw [map_cons, hop] at hm
      rw [isEmpty_map, ← map_reverse, hm]
      split_ifs <;> rfl
    cases before with
    | nil => rfl
    | cons t before =>
      have hp := fun opening closing => passOver_map hf opening closing 1 before (t :: behind)
      rw [map_cons] at hp ⊢
      cases t with
      | operand kind s stop =>
        cases hft : f (.operand kind s stop) with
        | op o => cases (hf _ o).mp hft
        | operand kind' s' stop' =>
          rw [find, ← hft]
          exact ih _ (.operand kind s stop :: behind)
      | op o =>
        rw [hop] at hp ⊢
        cases o with
        | rightParen =>
          rw [find, find, hp]
          cases passOver .leftParen .rightParen 1 before (.op .rightParen :: behind) with
          | none => rfl
          | some around => exact hc _ _ _
        | rightBracket =>
          rw [find, find, hp]
          rcases passOver .leftBracket .rightBracket 1 before (.op .rightBracket ::
            behind) with _ | ⟨_ | ⟨t, left⟩, right⟩
          · rfl
          · rfl
          · exact hc (t :: left) _ _
        | _ => exact hc _ _ _

theorem first_map (ts : List Token) (assignable : Bool) (ranks : List (List Op)) :
    first (ts.map f) assignable ranks = (first ts assignable ranks).map (Option.map (map f)) := by
  induction ranks with
  | nil => rfl
  | cons rank more ih =>
    have hfi := find_map hf rank assignable (ts.length + 1) ts.reverse []
    rw [map_nil] at hfi
    rw [first, first, length_map, ← map_reverse, hfi]
    cases find rank assignable (ts.length + 1) ts.reverse [] with
    | error e => rfl
    | ok found =>
      cases found with
      | none => exact ih
      | some s => rfl

omit hf

/-- The parts of a split hold only tokens of the whole, apart from operators. -/
theorem first_all {P : Token → Prop} (hop : ∀ o, P (.op o)) {ts assignable ranks s}
    (h : first ts assignable ranks = .ok (some s)) (hts : ∀ t ∈ ts, P t) :
    (∀ t ∈ s.left, P t) ∧ ∀ t ∈ s.right, P t := by
  classical
  -- two changes that differ only on other tokens do the same to the whole, and so to the parts
  let f (k : Nat) (t : Token) : Token := if P t then t else .operand .text [] k
  have hsp : ∀ k, Token.SparesOps (f k) := by
    intro k t o
    by_cases ht : P t
    · rw [show f k t = t from if_pos ht]
    · rw [show f k t = _ from if_neg ht]
      exact ⟨Token.noConfusion, fun h => absurd (h ▸ hop o) ht⟩
  have hsa : ∀ {us : List Token}, us.map (f 0) = us.map (f 1) ↔ ∀ t ∈ us, P t := by
    refine map_inj_left.trans (forall₂_congr fun t _ => ?_)
    by_cases ht : P t <;> simp [f, ht]
  have hm := fun k => first_map (hsp k) ts assignable ranks
  rw [h] at hm
  have hs : s.map (f 0) = s.map (f 1) :=
    Option.some.inj (Except.ok.inj ((hm 0).symm.trans (hsa.mpr hts ▸ hm 1)))
  exact ⟨hsa.mp (congrArg left hs), hsa.mp (congrArg right hs)⟩

end Split

namespace Expr

variable {B : Nat → Prop} {fs : List Function}

/-- Where no function escapes, the expression calls none that does. -/
def Calm (fs : List Function) (e : Expr) : Prop :=
  (∀ f ∈ fs, f.escaping = false) → e.callsEscaper = false

theorem anyCallsEscaper_append (es es' : List Expr) :
    anyCallsEscaper (es ++ es') = (anyCallsEscaper es || anyCallsEscaper es') := by
  induction es with
  | nil => rfl
  | cons e es ih => simp [anyCallsEscaper, ih, Bool.or_assoc]

theorem anyCallsEscaper_elements (e : Expr) : anyCallsEscaper e.elements = e.callsEscaper := by
  fun_induction elements e with
  | case1 last before ih => simp [anyCallsEscaper_append, ih, anyCallsEscaper, callsEscaper,
      Bool.or_comm]
  | case2 e h => simp [anyCallsEscaper]

/-- Two readers that come to the same expression, or both to none. The marks of the first one are
among some places, at which a literal text that it comes to ends too. -/
def SameTree (fs : List Function) (B : Nat → Prop) (m m' : Reader Expr) : Prop :=
  Simulates (fun _ => False) (fun marks _ => ∀ k ∈ marks, B k) m m'
    (fun e marks e' _ => (e' = e ∧ (∀ s, e = .text s → B s.length) ∧ e.Calm fs) ∧ ∀ k ∈ marks, B k)
    (fun _ marks _ _ => ∀ k ∈ marks, B k)

namespace SameTree

variable {m m' : Reader Expr}

theorem stops {e e'} : SameTree fs B (throw e) (throw e') := fun _ _ h => .error h

theorem mark {stop stop'} (hs : B stop) (h : SameTree fs B m m') :
    SameTree fs B (do Reader.mark stop; m) (do Reader.mark stop'; m') :=
  .andThen (Q := fun _ marks _ _ => ∀ k ∈ marks, B k)
    (fun _ _ hm => .ok (forall_mem_cons.mpr ⟨hs, hm⟩)) fun _ _ => h

theorem map {f : Expr → Expr} (h : SameTree fs B m m') (ht : ∀ e s, f e ≠ .text s)
    (hc : ∀ e, e.callsEscaper = false → (f e).callsEscaper = false) :
    SameTree fs B (do return f (← m)) (do return f (← m')) := by
  refine .andThen h fun e e' => .given ?_
  rintro ⟨rfl, -, he⟩
  exact fun _ _ hm => .ok ⟨⟨rfl, fun s hs => absurd hs (ht _ s), fun hfs => hc _ (he hfs)⟩, hm⟩

theorem map₂ {l l' : Reader Expr} {f : Expr → Expr → Expr} (h : SameTree fs B m m')
    (hl : SameTree fs B l l') (ht : ∀ b a s, f b a ≠ .text s)
    (hc : ∀ b a, b.callsEscaper = false → a.callsEscaper = false → (f b a).callsEscaper = false) :
    SameTree fs B (do
      let b ← m
      return f b (← l)) (do
      let b ← m'
      return f b (← l')) := by
  refine .andThen h fun b b' => .given ?_
  rintro ⟨rfl, -, hb⟩
  refine .andThen hl fun a a' => .given ?_
  rintro ⟨rfl, -, ha⟩
  exact fun _ _ hm => .ok ⟨⟨rfl, fun s hs => absurd hs (ht _ _ s),
    fun hfs => hc _ _ (hb hfs) (ha hfs)⟩, hm⟩

theorem arguments {f g} (h : SameTree fs B m m') (hg : Function.find? fs f = some g)
    (empty : Bool) : SameTree fs B (do
      let args ← if empty then pure [] else elements <$> m
      if args.length = g.arity then return call g args
      else throw (.argumentCount f g.arity args.length)) (do
      let args ← if empty then pure [] else elements <$> m'
      if args.length = g.arity then return call g args
      else throw (.argumentCount f g.arity args.length)) := by
  have hd : ∀ {args : List Expr}, ((∀ f ∈ fs, f.escaping = false) → anyCallsEscaper args = false) →
      SameTree fs B (if args.length = g.arity then pure (call g args)
        else throw (.argumentCount f g.arity args.length))
        (if args.length = g.arity then pure (call g args)
          else throw (.argumentCount f g.arity args.length)) := by
    intro args ha
    split
    · refine fun _ _ hm => .ok ⟨⟨rfl, by rintro s ⟨⟩, fun hfs => ?_⟩, hm⟩
      rw [callsEscaper, hfs g (mem_of_find?_eq_some hg), ha hfs]
      rfl
    · exact stops
  split
  · exact hd fun _ => rfl
  · simp only [bind_map_left]
    refine .andThen h fun e e' => .given ?_
    rintro ⟨rfl, -, he⟩
    exact hd fun hfs => (anyCallsEscaper_elements _).trans (he hfs)

end SameTree

theorem Reader.lift_ok_bind {α β : Type} (a : α) (f : α → Reader β) :
    ((liftM (Except.ok a : Except ExprFault α) : Reader α) >>= f) = f a := rfl

theorem mem_of_upTo {o ts inner} (h : upTo o ts = some inner) : ∀ t ∈ inner, t ∈ ts := by
  unfold upTo at h
  split at h
  · cases h
    exact fun t ht => (List.dropLast_prefix ts).subset ht
  · cases h

theorem upTo_placeless (o : Op) (ts : List Token) :
    upTo o (ts.map placeless) = (upTo o ts).map (List.map placeless) := by
  have hl : (ts.map placeless).getLast? = some (.op o) ↔
      ts.getLast? = some (.op o) := by simp [sparesOps_placeless _ o]
  unfold upTo
  simp only [hl, ← map_dropLast]
  split <;> rfl

/-- Tokens are read without regard to the places where they end. -/
theorem sameTree_read (fs : List Function) (fuel : Nat) (assignable : Bool) {ts us}
    (hts : ∀ t ∈ ts, t.Within B) (hus : ts.map placeless = us) :
    SameTree fs B (read fs fuel assignable ts) (read fs fuel assignable us) := by
  induction fuel generalizing assignable ts us with
  | zero => exact .stops
  | succ fuel ih =>
    rcases ts with _ | ⟨t, _ | ⟨t', more⟩⟩
    · exact hus ▸ .stops
    · cases t with
      | op o => exact hus ▸ .stops
      | operand kind s stop =>
        obtain ⟨hs, hte⟩ : B stop ∧ (kind = .text → B s.length) := hts _ mem_cons_self
        refine hus ▸ .mark hs fun _ _ hm =>
          .ok ⟨⟨rfl, fun u hu => ?_, fun _ => by cases kind <;> rfl⟩, hm⟩
        cases kind with
        | text =>
          cases hu
          exact hte rfl
        | _ => cases hu
    · have hfi := Split.first_map sparesOps_placeless (t :: t' :: more) assignable Op.ranks
      rw [hus] at hfi
      obtain ⟨u, u', more', rfl⟩ : ∃ u u' more', us = u :: u' :: more' := ⟨_, _, _, hus.symm⟩
      rw [read.eq_def, read.eq_def]
      simp only []
      rw [hfi]
      cases hfo : Split.first (t :: t' :: more) assignable Op.ranks with
      | error f => exact .stops
      | ok found =>
        simp only [Except.map, Reader.lift_ok_bind]
        have hi : ∀ {o inner assignable} {us : List Token}, (∀ t ∈ us, t.Within B) →
            upTo o us = some inner →
            SameTree fs B (read fs fuel assignable inner)
              (read fs fuel assignable (inner.map placeless)) :=
          fun hus hup => ih _ (fun t ht => hus t (mem_of_upTo hup t ht)) rfl
        rcases found with _ | ⟨left, o, right⟩
        · cases hus
          rcases t with o | ⟨kind, f, stop⟩
          · exact .stops
          obtain ⟨hs, -⟩ : B stop ∧ _ := hts _ mem_cons_self
          cases kind with
          | name =>
            rcases t' with o | ⟨kind, s, stop'⟩
            · cases o with
              | leftParen =>
                dsimp only [placeless]
                rw [upTo_placeless]
                cases hup : upTo .rightParen more with
                | none => exact .stops
                | some inner =>
                  refine .mark hs ?_
                  rw [isEmpty_map]
                  cases hg : Function.find? fs f with
                  | none => exact .stops
                  | some g =>
                    exact (hi (fun t ht => hts t (by simp [ht])) hup).arguments hg inner.isEmpty
              | _ => exact .stops
            · exact .stops
          | _ => exact .stops
        · obtain ⟨hl, hr⟩ := Split.first_all (fun _ => trivial) hfo hts
          have hl := fun assignable => ih assignable hl rfl
          cases o with
          | not | present =>
            exact (ih _ hr rfl).map (fun e s => by simp) fun e he => by
              simpa [callsEscaper] using he
          | leftParen =>
            dsimp only [Option.map, Split.map]
            rw [upTo_placeless]
            cases hup : upTo .rightParen right with
            | none => exact .stops
            | some inner =>
              exact (hi hr hup).map (fun e s => by simp) fun e he => by
                simpa [callsEscaper] using he
          | leftBracket =>
            dsimp only [Option.map, Split.map]
            rw [upTo_placeless]
            cases hup : upTo .rightBracket right with
            | none => exact .stops
            | some inner =>
              exact (hi hr hup).map₂ (hl _) (fun b a s => by simp) fun b a hb ha => by
                simp [callsEscaper, hb, ha]
          | rightParen | rightBracket =>
            refine .andThen (ih _ hr rfl) fun _ _ => .given fun _ => ?_
            exact .andThen (hl _) fun _ _ => .given fun _ => SameTree.stops
          | _ =>
            exact (ih _ hr rfl).map₂ (hl _) (fun b a s => by simp) fun b a hb ha => by
              simp [callsEscaper, hb, ha]

theorem read_congr (fs : List Function) (fuel : Nat) (assignable : Bool) {ts us : List Token}
    (h : ts.map placeless = us.map placeless) (marks marks' : List Nat) :
    (read fs fuel assignable ts marks).1.toOption =
    (read fs fuel assignable us marks').1.toOption := by
  have hs : ∀ (ts : List Token) marks,
      (read fs fuel assignable ts marks).1.toOption =
      (read fs fuel assignable (ts.map placeless) []).1.toOption := by
    intro ts marks
    have hw : ∀ t ∈ ts, t.Within fun _ => True := fun t _ => t.within_true
    have hr := sameTree_read fs fuel assignable hw rfl marks [] fun _ _ => trivial
    generalize read fs fuel assignable ts marks = last at hr
    generalize read fs fuel assignable (ts.map placeless) [] = last' at hr
    cases hr with
    | ok h => rw [h.1.1]
    | error _ => rfl
    | limit h => exact h.elim
  rw [hs ts, hs us, h]

/-- Reading an expression marks only places of its text. -/
theorem placed_parse (fs : List Function) (assignable : Bool) (s : Bytes) :
    Ends (fun e marks => ((∀ t, e = .text t → t.length ≤ s.length) ∧ e.Calm fs) ∧ ∀ k ∈ marks,
      k ≤ s.length)
      (fun marks => ∀ k ∈ marks, k ≤ s.length) ((parse fs assignable s).run.run []) := by
  cases hs : scan s with
  | error f =>
    rw [parse, hs]
    exact forall_mem_nil _
  | ok ts =>
    have hr := sameTree_read fs (ts.length + 1) assignable (within_scanAll (Nat.le_refl _) hs) rfl
      [] [] (forall_mem_nil _)
    rw [parse, hs]
    change Ends _ _ (read fs (ts.length + 1) assignable ts [])
    generalize read fs (ts.length + 1) assignable ts [] = last at hr
    generalize read fs (ts.length + 1) assignable (ts.map placeless) [] = last' at hr
    cases hr with
    | ok h => exact ⟨h.1.2, h.2⟩
    | error h => exact h
    | limit h => exact h.elim

end Expr

end TemplateKit
