import TemplateKit.Proofs.Program
import TemplateKit.Template.Eval

/-!
# Arithmetic of templates

A sum, a difference or a product is exact or refused. Whether it leaves the 64-bit integers is found
out by comparing one operand with a bound that is itself in range, so nothing wraps around on the
way. Quotients are rounded toward zero. An absolute value is that of the low 32 bits.
-/

namespace TemplateKit.BinaryOp

open Numeral

variable {a b : Int64} {n : Int}

/-- Is an integer in the range of numbers? -/
def Fits (n : Int) : Prop := minInt64 ≤ n ∧ n ≤ maxInt64

/-- An operation has the result `n`, or is refused if that does not fit. -/
def ExactOrRefused (op : BinaryOp) (a b : Int64) (n : Int) : Prop :=
  (Fits n → ∃ m, op.onNumbers a b = .ok m ∧ m.toInt = n) ∧
  (¬Fits n → op.onNumbers a b = .error ⟨a, op, b⟩)

theorem fits_toInt (a : Int64) : Fits a.toInt := ⟨a.le_toInt, Int.le_sub_one_of_lt a.toInt_lt⟩

theorem bmod_of_fits (h : Fits n) : n.bmod 0x10000000000000000 = n := by
  obtain ⟨hlow, hh⟩ := h
  rw [minInt64] at hlow
  rw [maxInt64] at hh
  exact Int.bmod_eq_of_le (by omega) (by omega)

theorem toInt_add (h : Fits (a.toInt + b.toInt)) : (a + b).toInt = a.toInt + b.toInt :=
  (Int64.toInt_add a b).trans (bmod_of_fits h)

theorem toInt_sub (h : Fits (a.toInt - b.toInt)) : (a - b).toInt = a.toInt - b.toInt :=
  (Int64.toInt_sub a b).trans (bmod_of_fits h)

/-- The bounds that an operand is compared with are computed without leaving the range. -/
structure BoundsExact (b : Int64) : Prop where
  maxSub (h : 0 < b.toInt) : (Int64.maxValue - b).toInt = maxInt64 - b.toInt
  minSub (h : b.toInt < 0) : (Int64.minValue - b).toInt = minInt64 - b.toInt
  minAdd (h : 0 < b.toInt) : (Int64.minValue + b).toInt = minInt64 + b.toInt
  maxAdd (h : b.toInt < 0) : (Int64.maxValue + b).toInt = maxInt64 + b.toInt
  maxDiv : (Int64.maxValue / b).toInt = maxInt64.tdiv b.toInt
  minDiv (h : 0 < b.toInt) : (Int64.minValue / b).toInt = minInt64.tdiv b.toInt

theorem boundsExact (b : Int64) : BoundsExact b := by
  have hb := fits_toInt b
  have hmin : minInt64 < 0 ∧ -maxInt64 = minInt64 + 1 := by decide
  have hmaxSub := toInt_sub (a := Int64.maxValue) (b := b)
  have hminSub := toInt_sub (a := Int64.minValue) (b := b)
  have hminAdd := toInt_add (a := Int64.minValue) (b := b)
  have hmaxAdd := toInt_add (a := Int64.maxValue) (b := b)
  simp only [Int64.toInt_maxValue, Int64.toInt_minValue, maxInt64, minInt64, Fits] at *
  refine ⟨fun _ => hmaxSub (by omega), fun _ => hminSub (by omega), fun _ => hminAdd (by omega),
    fun _ => hmaxAdd (by omega), Int64.toInt_div_of_ne_left _ _ (by decide), fun h => ?_⟩
  refine Int64.toInt_div_of_ne_right _ _ ?_
  rintro rfl
  exact absurd h (by decide)

theorem sumLeaves_iff : sumLeaves a b = true ↔ ¬Fits (a.toInt + b.toInt) := by
  have ha := fits_toInt a
  have hmax := (boundsExact b).maxSub
  have hmin := (boundsExact b).minSub
  simp only [sumLeaves, Bool.or_eq_true, Bool.and_eq_true, decide_eq_true_eq, Int64.lt_iff_toInt_lt,
    Int64.toInt_zero]
  unfold Fits at ha ⊢
  omega

theorem differenceLeaves_iff : differenceLeaves a b = true ↔ ¬Fits (a.toInt - b.toInt) := by
  have ha := fits_toInt a
  have hmax := (boundsExact b).maxAdd
  have hmin := (boundsExact b).minAdd
  simp only [differenceLeaves, Bool.or_eq_true, Bool.and_eq_true, decide_eq_true_eq,
    Int64.lt_iff_toInt_lt, Int64.toInt_zero]
  unfold Fits at ha ⊢
  omega

theorem tdiv_lt_iff {m d x : Int} (hm : 0 ≤ m) (hd : 0 < d) : m.tdiv d < x ↔ m < x * d := by
  rw [Int.tdiv_eq_ediv_of_nonneg hm, Int.ediv_lt_iff_lt_mul hd]

/-- A quotient of the least number is compared as that of its opposite. -/
theorem lt_minInt64_tdiv_iff {d x : Int} (hd : 0 < d) : x < minInt64.tdiv d ↔ x * d < minInt64 := by
  have hneg : minInt64.tdiv d = -(-minInt64).tdiv d := by rw [Int.neg_tdiv, Int.neg_neg]
  have hlt := tdiv_lt_iff (m := -minInt64) (x := -x) (by decide) hd
  rw [Int.neg_mul] at hlt
  omega

theorem productLeaves_iff : productLeaves a b = true ↔ ¬Fits (a.toInt * b.toInt) := by
  have hmin : minInt64 < 0 := by decide
  have hmax : 0 < maxInt64 := by decide
  have ha := boundsExact a
  have hb := boundsExact b
  simp only [productLeaves, Fits, Int64.lt_iff_toInt_lt, Int64.toInt_zero]
  -- The product has the sign that the signs of its operands say, so that only one bound matters.
  split
  · next hpos =>
    split
    · next hp' =>
      have := Int.mul_pos hpos hp'
      rw [decide_eq_true_eq, hb.maxDiv, tdiv_lt_iff (Int.le_of_lt hmax) hp']
      omega
    · next hn' =>
      have := Int.mul_nonpos_of_nonneg_of_nonpos (Int.le_of_lt hpos) (Int.not_lt.mp hn')
      rw [decide_eq_true_eq, ha.minDiv hpos, lt_minInt64_tdiv_iff hpos, Int.mul_comm]
      omega
  · next hneg =>
    split
    · next hp' =>
      have := Int.mul_nonpos_of_nonpos_of_nonneg (Int.not_lt.mp hneg) (Int.le_of_lt hp')
      rw [decide_eq_true_eq, hb.minDiv hp', lt_minInt64_tdiv_iff hp']
      omega
    · next hn' =>
      have := Int.mul_nonneg_of_nonpos_of_nonpos (Int.not_lt.mp hneg) (Int.not_lt.mp hn')
      rw [Bool.and_eq_true, bne_iff_ne, decide_eq_true_eq, ha.maxDiv, ne_eq, ← Int64.toInt_inj,
        Int64.toInt_zero]
      by_cases hz : a.toInt = 0
      · rw [hz]
        omega
      · have hlt :=
          tdiv_lt_iff (m := maxInt64) (d := -a.toInt) (x := -b.toInt) (Int.le_of_lt hmax) (by omega)
        rw [Int.tdiv_neg, Int.neg_mul_neg, Int.mul_comm] at hlt
        omega

theorem exactOrRefused_guarded {op : BinaryOp} {leaves : Bool} {m : Int64}
    (hop : op.onNumbers a b = op.guarded a b leaves m) (hl : leaves = true ↔ ¬Fits n)
    (hm : m.toInt = n.bmod 0x10000000000000000) : op.ExactOrRefused a b n := by
  rw [ExactOrRefused, hop]
  constructor
  · intro hf
    have hs : ¬leaves = true := fun h => hl.mp h hf
    exact ⟨m, if_neg hs, hm.trans (bmod_of_fits hf)⟩
  · intro hf
    exact if_pos (hl.mpr hf)

theorem quotientLeaves_iff : quotientLeaves a b = true ↔ a.toInt = minInt64 ∧ b.toInt = -1 := by
  rw [quotientLeaves, Bool.and_eq_true, beq_iff_eq,
    beq_iff_eq, ← Int64.toInt_inj, ← Int64.toInt_inj]
  rfl

theorem toInt_div_of_stays (h : ¬quotientLeaves a b = true) :
    (a / b).toInt = a.toInt.tdiv b.toInt := by
  by_cases ha : a = Int64.minValue
  · refine Int64.toInt_div_of_ne_right _ _ fun hb => h ?_
    rw [ha, hb]
    rfl
  · exact Int64.toInt_div_of_ne_left _ _ ha

/-- Sums, differences and products are exact, or refused if they do not fit, and the bounds that
tell this are exact too. Quotients and remainders by other numbers than zero are those of division
toward zero, and are refused for the least number and minus one only, so that they give back what
was divided. What is refused is a failure of its own kind. -/
theorem arithmetic_exact_or_refused (a b : Int64) :
    ExactOrRefused add a b (a.toInt + b.toInt) ∧ ExactOrRefused sub a b (a.toInt - b.toInt) ∧
    ExactOrRefused mul a b (a.toInt * b.toInt) ∧ BoundsExact a ∧ BoundsExact b ∧
    (b ≠ 0 → ¬(a.toInt = minInt64 ∧ b.toInt = -1) → ∃ q r, div.onNumbers a b = .ok q ∧
      mod.onNumbers a b = .ok r ∧
      q.toInt = a.toInt.tdiv b.toInt ∧ r.toInt = a.toInt.tmod b.toInt) ∧
    (a.toInt = minInt64 ∧ b.toInt = -1 → div.onNumbers a b = .error ⟨a, div, b⟩ ∧
      mod.onNumbers a b = .error ⟨a, mod, b⟩) ∧
    (∀ q r, b ≠ 0 → div.onNumbers a b = .ok q → mod.onNumbers a b = .ok r →
      q.toInt * b.toInt + r.toInt = a.toInt) ∧
    (∀ op ∈ [add, sub, mul, div, mod], Overflow.failure ⟨a, op, b⟩ |>.isA .range) := by
  have hdiv : b ≠ 0 → div.onNumbers a b = div.guarded a b (quotientLeaves a b) (a / b) :=
    fun h => if_neg h
  have hmod : b ≠ 0 → mod.onNumbers a b = mod.guarded a b (quotientLeaves a b) (a % b) :=
    fun h => if_neg h
  refine ⟨exactOrRefused_guarded rfl sumLeaves_iff (Int64.toInt_add a b),
    exactOrRefused_guarded rfl differenceLeaves_iff (Int64.toInt_sub a b),
    exactOrRefused_guarded rfl productLeaves_iff (Int64.toInt_mul a b), boundsExact a,
      boundsExact b, ?_, ?_, ?_, ?_⟩
  · intro hb hstays
    have hfits := mt quotientLeaves_iff.mp hstays
    exact ⟨a / b, a % b, (hdiv hb).trans (if_neg hfits), (hmod hb).trans (if_neg hfits),
      toInt_div_of_stays hfits, Int64.toInt_mod a b⟩
  · intro h
    have hb : b ≠ 0 := by
      rintro rfl
      exact absurd h.2 (by decide)
    have hleaves := quotientLeaves_iff.mpr h
    exact ⟨(hdiv hb).trans (if_pos hleaves), (hmod hb).trans (if_pos hleaves)⟩
  · intro q r hb hq hr
    rw [hdiv hb, guarded] at hq
    rw [hmod hb, guarded] at hr
    split at hq
    · cases hq
    · next hfits =>
      cases hq
      cases (if_neg hfits).symm.trans hr
      rw [toInt_div_of_stays hfits, Int64.toInt_mod, Int.tdiv_mul_add_tmod]
  · intro op _
    rfl

end TemplateKit.BinaryOp

namespace TemplateKit.Expr

open Numeral

variable {e e' : Expr} {f : Function} {s s₁ s₂ : Scope} {x y n : Int64}

/-- In the scope `s` an expression has the number `n`, and `s'` is the scope behind it. -/
def Gives (e : Expr) (s : Scope) (n : Int64) (s' : Scope) : Prop :=
  ∃ written, e.eval s = (.ok (.number n written), s')

theorem Gives.call {args : List Expr} {b : Builtin} {vs : List Value} (hf : f.body = .builtin b)
    (har : evalAll args s = (.ok vs, s₁)) (hb : b.apply vs = pure (.number n none)) :
    (Expr.call f args).Gives s n s₁ := by
  have ha : f.apply vs = pure (.number n none) := by
    rw [Function.apply, hf, FunctionBody.apply, hb]
    cases f.escaping <;> rfl
  refine ⟨none, ?_⟩
  rw [eval, bind_of_ok har, ha]
  rfl

theorem evalAll_one (h : e.Gives s x s₁) : ∃ w, evalAll [e] s = (.ok [.number x w], s₁) := by
  obtain ⟨w, h⟩ := h
  refine ⟨w, ?_⟩
  rw [evalAll, bind_of_ok h]
  rfl

theorem evalAll_two (h : e.Gives s x s₁) (h' : e'.Gives s₁ y s₂) :
    ∃ w w', evalAll [e, e'] s = (.ok [.number x w, .number y w'], s₂) := by
  obtain ⟨w, h⟩ := h
  obtain ⟨w', h'⟩ := evalAll_one h'
  refine ⟨w, w', ?_⟩
  rw [evalAll, bind_of_ok h, bind_of_ok h']
  rfl

theorem Gives.binary {op : BinaryOp} (hop : op = .add ∨ op = .sub) (h : e.Gives s x s₁)
    (h' : e'.Gives s₁ y s₂)
    (hn : op.onNumbers x y = .ok n) : (Expr.binary op e e').Gives s n s₂ := by
  obtain ⟨w, h⟩ := h
  obtain ⟨w', h'⟩ := h'
  refine ⟨none, ?_⟩
  rw [eval, bind_of_ok h, bind_of_ok h']
  have hr : (do return .number (← op.onNumbers x y) none : Eval Value) s₂ =
      (.ok (.number n none), s₂) := by
    rw [hn]
    rfl
  rcases hop with rfl | rfl <;> exact hr

theorem Gives.opposite (h : e.Gives s x s₁) (hx : minInt64 < x.toInt) (zero : Bytes) :
    ∃ n, (Expr.binary .sub (number 0 zero) e).Gives s n s₁ ∧ n.toInt = -x.toInt := by
  have hf : BinaryOp.Fits ((0 : Int64).toInt - x.toInt) := by
    have hh := (BinaryOp.fits_toInt x).2
    simp only [BinaryOp.Fits, minInt64, maxInt64, Int64.toInt_zero] at hx hh ⊢
    omega
  have he : BinaryOp.sub.ExactOrRefused 0 x _ :=
    BinaryOp.exactOrRefused_guarded rfl BinaryOp.differenceLeaves_iff (Int64.toInt_sub 0 x)
  obtain ⟨n, hn, hneg⟩ := he.1 hf
  have hz : (number 0 zero).Gives s 0 s := ⟨some zero, rfl⟩
  exact ⟨n, hz.binary (.inr rfl) h hn, by simpa using hneg⟩

theorem toInt_abs32 (n : Int32) : (if n < 0 then -n else n).toInt64.toInt =
    (n.toInt.natAbs : Int).bmod 0x100000000 := by
  have hh := n.toInt_lt
  rw [Int32.toInt_toInt64]
  split
  · next hneg =>
    rw [Int32.lt_iff_toInt_lt] at hneg
    rw [Int32.toInt_neg, Int.ofNat_natAbs_of_nonpos (Int.le_of_lt hneg)]
  · next hpos =>
    rw [Int32.lt_iff_toInt_lt, Int32.toInt_zero, Int.not_lt] at hpos
    rw [Int.natAbs_of_nonneg hpos, Int.bmod_eq_of_le (by omega) (by omega)]

/-- The absolute value of 32 bits is that of the whole number only if the number has no more bits.
-/
theorem abs32_eq_iff (n : Int) : ((n.bmod 0x100000000).natAbs : Int).bmod 0x100000000 = n.natAbs ↔
    -0x80000000 < n ∧ n < 0x80000000 := by
  constructor
  · have hlt : ((n.bmod 0x100000000).natAbs : Int).bmod 0x100000000 < 0x80000000 :=
      Int.bmod_lt (by decide)
    omega
  · rintro ⟨hlow, hh⟩
    rw [Int.bmod_eq_of_le (n := n) (by omega) (by omega), Int.bmod_eq_of_le (by omega) (by omega)]

/-- The absolute value of a number is that of its low 32 bits. It is the larger one of the number
and its opposite exactly if the number has no more bits than that. The smaller and the larger one of
two numbers have the same sum as the two numbers. -/
theorem abs_max_min {a a' b c c' : Expr} {fabs fmax fmin : Function}
    (habs : fabs.body = .builtin .abs)
    (hmax : fmax.body = .builtin .max) (hmin : fmin.body = .builtin .min) {s₃ s₄ s₅ : Scope}
    (ha : a.Gives s x s₁) (hb : b.Gives s₁ x s₂) (hc : c.Gives s₁ y s₃) (ha' : a'.Gives s₃ x s₄)
    (hc' : c'.Gives s₄ y s₅) (zero : Bytes) :
    (∃ n, (call fabs [a]).Gives s n s₁ ∧ n.toInt =
      ((x.toInt.bmod 0x100000000).natAbs : Int).bmod 0x100000000 ∧
      (minInt64 < x.toInt → ∃ m, (call fmax [a, binary .sub (number 0 zero) b]).Gives s m s₂ ∧
        m.toInt = x.toInt.natAbs ∧
        (n = m ↔ -0x80000000 < x.toInt ∧ x.toInt < 0x80000000))) ∧
    (BinaryOp.Fits (x.toInt + y.toInt) → ∃ n,
      (binary .add (call fmin [a, c]) (call fmax [a', c'])).Gives s n s₅ ∧
      (binary .add a c).Gives s n s₃ ∧ n.toInt = x.toInt + y.toInt) := by
  constructor
  · obtain ⟨w, hargs⟩ := evalAll_one ha
    have habs32 := toInt_abs32 x.toInt32
    rw [Int64.toInt_toInt32] at habs32
    refine ⟨_, .call habs hargs rfl, habs32, fun hx => ?_⟩
    obtain ⟨m, hm, hneg⟩ := hb.opposite hx zero
    obtain ⟨w, w', hargs⟩ := evalAll_two ha hm
    have hlarger : (if m < x then x else m).toInt = x.toInt.natAbs := by
      simp only [Int64.lt_iff_toInt_lt]
      split <;> omega
    refine ⟨_, .call hmax hargs rfl, hlarger, ?_⟩
    rw [← Int64.toInt_inj, habs32, hlarger]
    exact abs32_eq_iff x.toInt
  · intro hfits
    obtain ⟨w, w', hargs⟩ := evalAll_two ha hc
    obtain ⟨v, v', hargs'⟩ := evalAll_two ha' hc'
    have hboth : (if x < y then x else y).toInt + (if y < x then x else y).toInt =
        x.toInt + y.toInt := by
      simp only [Int64.lt_iff_toInt_lt]
      split <;> split <;> omega
    have hsum : ∀ m n, BinaryOp.add.ExactOrRefused m n _ := fun m n =>
      BinaryOp.exactOrRefused_guarded rfl BinaryOp.sumLeaves_iff (Int64.toInt_add m n)
    obtain ⟨n, hn, hexact⟩ := (hsum x y).1 hfits
    obtain ⟨m, hm, hexact'⟩ := (hsum _ _).1 (hboth ▸ hfits)
    obtain rfl : m = n := Int64.toInt_inj.mp (hexact'.trans (hboth.trans hexact.symm))
    have hlow : (call fmin [a, c]).Gives s _ s₃ := .call hmin hargs rfl
    exact ⟨m, hlow.binary (.inl rfl) (.call hmax hargs' rfl) hm, ha.binary (.inl rfl) hc hn, hexact⟩

/-- The functions have their bodies where a template looks them up. -/
theorem abs_max_min_opposite : let a := binary .sub (number 3 (ascii "3")) (number 10 (ascii "10"))
    let c := number 4 (ascii "4")
    let s : Scope := ⟨.empty [], none, [], 0⟩
    ∃ fabs fmax fmin, Function.find? Function.builtins (ascii "abs") = some fabs ∧
      Function.find? Function.builtins (ascii "max") = some fmax ∧
      Function.find? Function.builtins (ascii "min") = some fmin ∧ a.Gives s (-7) s ∧
      (∃ n, (call fabs [a]).Gives s n s ∧
        (call fmax [a, binary .sub (number 0 []) a]).Gives s n s) ∧
      ∃ n, (binary .add (call fmin [a, c]) (call fmax [a, c])).Gives s n s ∧ n.toInt = -7 + 4 := by
  intro a c s
  have ha : a.Gives s (-7) s := ⟨none, rfl⟩
  have hc : c.Gives s 4 s := ⟨some (ascii "4"), rfl⟩
  obtain ⟨⟨n, habs, -, hmax⟩, hsum⟩ := abs_max_min
    (show Function.body ⟨ascii "abs", 1, false, .builtin .abs⟩ = _ from rfl)
    (show Function.body ⟨ascii "max", 2, false, .builtin .max⟩ = _ from rfl)
    (show Function.body ⟨ascii "min", 2, false, .builtin .min⟩ = _ from rfl) ha ha hc ha hc []
  obtain ⟨m, hm, -, hsame⟩ := hmax (by decide)
  obtain ⟨k, hk, -, hk'⟩ := hsum ⟨by decide, by decide⟩
  exact ⟨_, _, _, rfl, rfl, rfl, ha, ⟨n, habs, hsame.mpr (by decide) ▸ hm⟩, k, hk, hk'⟩

/-- A number of more than 32 bits. -/
theorem abs_of_long_number : let a := number 5000000000 (ascii "5000000000")
    let s : Scope := ⟨.empty [], none, [], 0⟩
    ∃ fabs fmax, Function.find? Function.builtins (ascii "abs") = some fabs ∧
      Function.find? Function.builtins (ascii "max") = some fmax ∧
      (call fabs [a]).Gives s 705032704 s ∧
      (call fmax [a, binary .sub (number 0 (ascii "0")) a]).Gives s 5000000000 s :=
  ⟨_, _, rfl, rfl, ⟨none, rfl⟩, ⟨none, rfl⟩⟩

end TemplateKit.Expr
