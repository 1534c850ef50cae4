import TemplateKit.Proofs.Template.Outcome

/-!
# Branches and loops

## Conditions

A condition is decided by one number, which its value is taken for. A branch looks at the low 32
bits of that number only, and a negation at all of it. So a condition and its negation are never
both true, and they are both false if the number is a multiple of 2³² other than zero.
-/

namespace TemplateKit

namespace Render

variable {e : Expr} {v : Value} {s : Scope} {r : RenderSettings} {st : RenderState}

/-- From the state `st` every branch with the condition `e` goes on, in the state `st'`, with its
body if `holds`, and with what stands otherwise if not. -/
def Decides (e : Expr) (r : RenderSettings) (st : RenderState) (holds : Bool) (st' : RenderState) :
    Prop :=
  ∀ fuel mark word source body otherwise,
    item (fuel + 1) ⟨mark, .branch word ⟨e, source⟩, body, otherwise⟩ r st =
    items fuel (if holds then body else otherwise) r st'

theorem choose_apply (h : e.eval st.scope = (.ok v, s)) (yes : Value → Render Unit)
    (no : Render Unit) : (do
      let v ← eval e.eval
      if ← isTrue v then yes v else no : Render Unit) r st =
      (if (v.asTruth s).1.toInt32 != 0 then yes v
        else no) r { st with scope := (v.asTruth s).2 } := by
  refine (Program.bind_ok (eval_apply h) _).trans ?_
  have ht : isTrue v r { st with scope := s } =
      (.ok ((v.asTruth s).1.toInt32 != 0), { st with scope := (v.asTruth s).2 }) := rfl
  exact Program.bind_ok ht _

theorem decides_of_eval (h : e.eval st.scope = (.ok v, s)) :
    Decides e r st ((v.asTruth s).1.toInt32 != 0) { st with scope := (v.asTruth s).2 } := by
  intro fuel mark word source body otherwise
  refine (choose_apply h (fun _ => items fuel body) (items fuel otherwise)).trans ?_
  split <;> rfl

theorem eval_not (h : e.eval st.scope = (.ok v, s)) :
    (Expr.unary .not (.paren e)).eval st.scope =
    (.ok (.ofBool ((v.asTruth s).1 == 0)), (v.asTruth s).2) := by
  have hp : (Expr.paren e).eval st.scope = (.ok v, s) := by rw [Expr.eval, h]
  rw [Expr.eval, bind_of_ok hp]
  rfl

theorem toInt32_eq_zero (n : Int64) : n.toInt32 = 0 ↔ (0x100000000 : Int) ∣ n.toInt := by
  rw [← Int32.toInt_inj, Int64.toInt_toInt32]
  exact Int.dvd_iff_bmod_eq_zero.symm

/-- Where an expression has a value, the branches on it and on its negation are decided by one
number. They are not taken both, and one of them is taken exactly if that number is zero or has low
bits. What has an alternative is written exactly where the branch is taken. -/
theorem condition_excludes_negation (h : e.eval st.scope = (.ok v, s)) :
    ∃ n after yes no, v.asTruth s = (n, after.scope) ∧
      Decides e r st yes after ∧ Decides (.unary .not (.paren e)) r st no after ∧
      (∀ fuel mark source body otherwise,
        item (fuel + 1) ⟨mark, .alt ⟨e, source⟩, body, otherwise⟩ r st =
        (if yes then writeArgument mark ⟨e, source⟩ v else items fuel body) r after) ∧
      (yes = true ↔ ¬(0x100000000 : Int) ∣ n.toInt) ∧ (no = true ↔ n = 0) ∧ (yes && no) = false ∧
      ((yes || no) = true ↔ n = 0 ∨ ¬(0x100000000 : Int) ∣ n.toInt) := by
  have hyes := decides_of_eval (r := r) h
  have hno := decides_of_eval (r := r) (eval_not h)
  have halt : ∀ fuel mark source body otherwise,
      item (fuel + 1) ⟨mark, .alt ⟨e, source⟩, body, otherwise⟩ r st = _ :=
    fun fuel mark source body _ => choose_apply h (writeArgument mark ⟨e, source⟩) (items fuel body)
  generalize v.asTruth s = last at hyes hno halt ⊢
  obtain ⟨n, scope⟩ := last
  have hnegated : (((Value.ofBool (n == 0)).asTruth scope).1.toInt32 != 0) = (n == 0) := by
    cases n == 0 with
    | true => rfl
    | false => rfl
  rw [hnegated] at hno
  refine ⟨n, { st with scope }, _, _, rfl, hyes, hno, halt, ?_, beq_iff_eq, ?_, ?_⟩
  · rw [bne_iff_ne, ne_eq, toInt32_eq_zero]
  · by_cases hn : n = 0
    · rw [hn]
      rfl
    · rw [beq_eq_false_iff_ne.mpr hn, Bool.and_false]
  · rw [Bool.or_eq_true, bne_iff_ne, beq_iff_eq, ne_eq, toInt32_eq_zero, or_comm]

/-- A numeral with bits above the low ones too. -/
theorem condition_excludes_negation_numeral :
    let s := Session.fresh .undefined .root (.table []) ⟨.text, 0, false, 0, false, false,
      false, none⟩
    let e := Expr.text (ascii "0x100000001")
    ∃ v after, e.eval s.reader.scope = (.ok v, s.reader.scope) ∧
      (v.asTruth s.reader.scope).1 = 0x100000001 ∧
      Decides e s.renderSettings s.renderStart true after ∧
      Decides (.unary .not (.paren e)) s.renderSettings s.renderStart false after := by
  intro s e
  have hn : Value.truthOfText (some (ascii "0x100000001")) = 0x100000001 := by decide +kernel
  have heval : e.eval s.renderStart.scope =
      (.ok (.text (some (ascii "0x100000001")) .trusted), s.reader.scope) := rfl
  obtain ⟨n, after, yes, no, htruth, hyes, hno, -, hbits, hzero, -⟩ :=
    condition_excludes_negation (r := s.renderSettings) heval
  obtain rfl : n = 0x100000001 := (congrArg Prod.fst htruth).symm.trans hn
  obtain rfl : yes = true := hbits.mpr (by decide)
  obtain rfl : no = false := Bool.eq_false_iff.mpr fun h => absurd (hzero.mp h) (by decide)
  exact ⟨_, after, heval, hn, hyes, hno⟩

end Render

/-- A condition and its negation can both be false. -/
theorem Session.render_neither_branch :
    let s := fresh .undefined .root (.table []) ⟨.text, 0, false, 0, false, false, false, none⟩
    let text := ascii "<?cs if:4294967296 ?>A<?cs /if ?><?cs if:!(4294967296) ?>B<?cs /if ?>"
    (s.parseText text text.length).1.outcome.result = .ok () ∧
    (s.parseText text text.length).1.outcome.output = [] := by
  decide +kernel

end TemplateKit

/-!
## The rounds of loops

A loop over numbers goes round as often as its bounds say, whatever is rendered in it. Its variable
has the number of the round until it is assigned; from the next round on it has lost its number, and
the text too.
-/

namespace TemplateKit.Render

open Program

/-- How often a loop goes round. -/
def roundCount (range : List Int32) : Nat :=
  (roundsOf (bounds range).1 (bounds range).2.1 (bounds range).2.2).toNat

/-- The number that a loop comes to in its `k`-th round. -/
def roundNumber (range : List Int32) (k : Nat) : Int64 :=
  (bounds range).1.toInt64 + .ofNat k * (bounds range).2.2.toInt64

/-- One round of a loop. -/
def round (range : List Int32) (body : Render Unit) (k : Nat) : Render Unit := do
  modifyLocal (nextRound (roundNumber range k) (k == 0) (k + 1 == roundCount range))
  body

section Rounds

variable (range : List Int32)

theorem roundsOf_le (start stop step : Int32) : roundsOf start stop step ≤ maxInt32 := by
  unfold roundsOf
  split
  · decide
  · dsimp only
    split
    · decide
    · omega

theorem toInt_roundNumber (k : Fin (roundCount range)) :
    (roundNumber range k).toInt = (bounds range).1.toInt + k * (bounds range).2.2.toInt := by
  obtain ⟨k, hk⟩ := k
  rw [roundNumber]
  have hc := roundsOf_le (bounds range).1 (bounds range).2.1 (bounds range).2.2
  have hle : (k : Int) ≤ maxInt32 := by rw [roundCount] at hk; omega
  generalize bounds range = b
  obtain ⟨start, stop, step⟩ := b
  have hsum : start.toInt64 + .ofNat k * step.toInt64 = .ofInt (start.toInt + k * step.toInt) := by
    rw [Int64.ofInt_add, Int64.ofInt_mul,
      Int64.ofInt_eq_ofNat, ← Int32.toInt_toInt64, ← Int32.toInt_toInt64,
      Int64.ofInt_toInt, Int64.ofInt_toInt]
  have hlow := Int.mul_le_mul_of_nonneg_left step.le_toInt (Int.natCast_nonneg k)
  have hh := Int.mul_le_mul_of_nonneg_left (Int.le_of_lt step.toInt_lt) (Int.natCast_nonneg k)
  have := start.toInt_lt
  have := start.le_toInt
  rw [maxInt32] at hle
  rw [hsum, Int64.toInt_ofInt_of_le]
  · omega
  · omega

theorem numbers_eq (body : Render Unit) {k left} (h : k + left = roundCount range) :
    numbers body (bounds range).2.2.toInt64 left (k == 0) (roundNumber range k) =
      (List.range' k left).forM (round range body) := by
  induction left generalizing k with
  | zero => rfl
  | succ left ih =>
    have hn : roundNumber range k + (bounds range).2.2.toInt64 = roundNumber range (k + 1) := by
      rw [roundNumber, roundNumber, Int64.ofNat_add, Int64.add_mul, Int64.add_assoc]
      simp
    have hl : (left == 0) = (k + 1 == roundCount range) := by
      rw [Bool.eq_iff_iff, beq_iff_eq, beq_iff_eq]
      omega
    rw [numbers, hn, hl]
    exact congrArg (modifyLocal _ >>= fun _ => body >>= ·) (funext fun _ =>
      ih (k := k + 1) (by omega))

theorem loop_eq (x : Bytes) (body : Render Unit) : loop x range body = (do
    countRounds (roundsOf (bounds range).1 (bounds range).2.1 (bounds range).2.2)
    withLocals [⟨x, .number (bounds range).1.toInt64, true, false⟩]
      ((List.range (roundCount range)).forM (round range body))) := by
  have hr := numbers_eq range body (k := 0) (Nat.zero_add _)
  have hs : roundNumber range 0 = (bounds range).1.toInt64 := by simp [roundNumber]
  rw [hs] at hr
  rw [List.range_eq_range', ← hr, roundCount]
  refine bind_congr fun _ => ?_
  by_cases h : 0 < roundsOf (bounds range).1 (bounds range).2.1 (bounds range).2.2
  · exact if_pos h
  · rw [Int.toNat_of_nonpos (Int.not_lt.mp h)]
    exact if_neg h

end Rounds

/-- The state with one more local variable. -/
def inside (l : Local) (st : RenderState) : RenderState :=
  { st with scope := { st.scope with locals := l :: st.scope.locals } }

/-- A loop goes round as often as its bounds say, whatever is rendered in it. Each round begins with
the variable at the number of the round, unless the variable has become a text before: then it stays
one, and is none if it was assigned. -/
theorem loop_rounds (x : Bytes) (range : List Int32) (body : Render Unit) : loop x range body = (do
      countRounds (roundsOf (bounds range).1 (bounds range).2.1 (bounds range).2.2)
      withLocals [⟨x, .number (bounds range).1.toInt64, true, false⟩]
        ((List.range (roundCount range)).forM (round range body))) ∧
    ∀ k : Fin (roundCount range), ∃ n : Int64, n.toInt =
      (bounds range).1.toInt + k * (bounds range).2.2.toInt ∧
      ∀ r st l, ∃ l', round range body k r (inside l st) = body r (inside l' st) ∧
        l'.name = l.name ∧
        ((∀ v trust assigned, l.binding ≠ .text v trust assigned) ∧ l'.binding = .number n ∨
          ∃ v trust assigned, l.binding = .text v trust assigned ∧
            l'.binding = .text (if assigned then none else v) .trusted false) := by
  refine ⟨loop_eq range x body, fun k => ⟨_, toInt_roundNumber range k,
    fun r st l => ⟨_, rfl, rfl, ?_⟩⟩⟩
  rw [nextRound]
  cases l.binding with
  | text v trust assigned => exact .inr ⟨v, trust, assigned, rfl, rfl⟩
  | number | node => exact .inl ⟨by simp, rfl⟩

/-- A variable that was assigned has neither its number nor the text in the next round. -/
theorem render_assigned_variable :
    let s := Session.fresh .undefined .root (.table []) ⟨.text, 0, false, 0, false, false,
      false, none⟩
    let text := ascii "<?cs loop:i = 1, 3 ?><?cs var:i ?><?cs set:i = \"x\" ?><?cs /loop ?>"
    (s.parseText text text.length).1.outcome.output = ascii "1" := by
  decide +kernel

end TemplateKit.Render
