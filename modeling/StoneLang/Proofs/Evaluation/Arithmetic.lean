/-
  Integer arithmetic.

  PROGRAM: the evaluation of an operator and of a minus sign (`Run.evaluate`), whatever code gives the operands.

  SPEC: a sum, a difference, a product, a quotient and an opposite are the exact ones modulo 2^64, in the signed range.
  Division fails for the divisor zero alone; a quotient and a remainder give the dividend back, and the remainder is
  smaller than the divisor and on the side of the dividend.  Comparisons are those of the integers
  (`Run.integers_wrap_and_divide`).

  The least integer divided by minus one is no case of its own: its quotient wraps around, and so does the product that
  undoes it.
-/
import Mathlib.Data.Int.ModEq
import StoneLang.Eval.Evaluate
import StoneLang.Proofs.Result

namespace StoneLang

/-- The integer stands for `n` in 64 bits: it is the one in the signed range that is the same modulo 2^64. -/
def Wraps (c : Int64) (n : Int) : Prop := -2 ^ 63 ≤ c.toInt ∧ c.toInt < 2 ^ 63 ∧ c.toInt ≡ n [ZMOD 2 ^ 64]

theorem Wraps.of_bmod (h : c.toInt = n.bmod (2 ^ 64)) : Wraps c n := by
  refine ⟨c.le_toInt, c.toInt_lt, ?_⟩
  rw [h]
  exact Int.bmod_emod

/-- A quotient and a remainder give the dividend back, also where the quotient wraps around. -/
theorem quotient_mul_add_remainder (a b : Int64) : a / b * b + a % b = a := by
  refine Int64.toInt_inj.mp ?_
  calc (a / b * b + a % b).toInt
      = (a.toInt.tdiv b.toInt * b.toInt + a.toInt.tmod b.toInt).bmod (2 ^ 64) := by
        rw [Int64.toInt_add, Int64.toInt_mul, Int64.toInt_div, Int64.toInt_mod, Int.bmod_mul_bmod, Int.bmod_add_bmod]
    _ = a.toInt.bmod (2 ^ 64) := by rw [Int.tdiv_mul_add_tmod]
    _ = a.toInt := a.toInt_bmod

theorem remainder_lt (a : Int64) (hb : b ≠ 0) : (a % b).toInt.natAbs < b.toInt.natAbs := by
  have hzero : b.toInt ≠ 0 := fun h => hb (Int64.toInt_inj.mp h)
  rw [Int64.toInt_mod, Int.natAbs_tmod]
  exact Nat.mod_lt _ (Int.natAbs_pos.mpr hzero)

theorem remainder_side (a b : Int64) : (a % b).toInt = 0 ∨ (a % b).toInt.sign = a.toInt.sign := by
  rw [Int64.toInt_mod, Int.sign_tmod]
  split
  · rename_i hdvd
    exact .inl (Int.tmod_eq_zero_of_dvd hdvd)
  · exact .inr rfl

namespace Run

variable {levels : Nat} {env : Env} {m m₁ m₂ : Machine} {x y : Node} {operator : Label} {a b : Int64}

theorem evaluate_binary (hx : evaluate levels x env m = .ok u m₁) (hy : evaluate levels y env m₁ = .ok v m₂)
    (hoperator : operator.text ≠ text "=") : evaluate (levels + 1) (.binary x operator y) env m
      = ofCause (Node.binary x operator y).line (binaryOperation m₂ operator.text u v) m₂ := by
  rw [evaluate, evaluateNode, if_neg hoperator, bind_of_ok hx, bind_of_ok hy]
  rfl

section

variable (hx : evaluate levels x env m = .ok (.integer a) m₁) (hy : evaluate levels y env m₁ = .ok (.integer b) m₂)

include hx hy

theorem evaluate_integers (hoperator : operator.text = text name)
    (hname : text name ≠ text "=" ∧ text name ≠ text "==") : evaluate (levels + 1) (.binary x operator y) env m
      = ofCause (Node.binary x operator y).line (integerOperation (text name) a b) m₂ := by
  rw [evaluate_binary hx hy (hoperator ▸ hname.1), hoperator, binaryOperation, if_neg hname.2]

theorem evaluate_equal (hoperator : operator.text = text "==") :
    evaluate (levels + 1) (.binary x operator y) env m = .ok (.ofBool (a.toInt = b.toInt)) m₂ := by
  rw [evaluate_binary hx hy (hoperator ▸ by decide), hoperator, binaryOperation, if_pos rfl, Value.same]
  simp only [Int64.toInt_inj]
  rfl

theorem evaluate_quotient (hb : b ≠ 0) (hoperator : operator.text = text "/") :
    evaluate (levels + 1) (.binary x operator y) env m = .ok (.integer (a / b)) m₂ := by
  rw [evaluate_integers hx hy hoperator (by decide), show integerOperation (text "/") a b = _ from if_neg hb]
  rfl

theorem evaluate_remainder (hb : b ≠ 0) (hoperator : operator.text = text "%") :
    evaluate (levels + 1) (.binary x operator y) env m = .ok (.integer (a % b)) m₂ := by
  rw [evaluate_integers hx hy hoperator (by decide), show integerOperation (text "%") a b = _ from if_neg hb]
  rfl

theorem evaluate_division_zero (hb : b = 0) (hoperator : operator.text = text "/" ∨ operator.text = text "%") :
    ∃ e, evaluate (levels + 1) (.binary x operator y) env m = .error e m₂ ∧ e.kind = .arithmetic := by
  subst hb
  rcases hoperator with hoperator | hoperator
  · exact ⟨.atLine .divisionByZero _, evaluate_integers hx hy hoperator (by decide), rfl⟩
  · exact ⟨.atLine .moduloByZero _, evaluate_integers hx hy hoperator (by decide), rfl⟩

end

/-- Operators on integers: arithmetic is exact modulo 2^64, division fails for the divisor zero alone and is undone by
multiplication and the remainder, and comparisons are those of the integers. -/
theorem integers_wrap_and_divide (hx : evaluate levels x env m = .ok (.integer a) m₁)
    (hy : evaluate levels y env m₁ = .ok (.integer b) m₂) :
    (∀ operator : Label, let result := evaluate (levels + 1) (.binary x operator y) env m
      (operator.text = text "+" → ∃ c, result = .ok (.integer c) m₂ ∧ Wraps c (a.toInt + b.toInt)) ∧
      (operator.text = text "-" → ∃ c, result = .ok (.integer c) m₂ ∧ Wraps c (a.toInt - b.toInt)) ∧
      (operator.text = text "*" → ∃ c, result = .ok (.integer c) m₂ ∧ Wraps c (a.toInt * b.toInt)) ∧
      (b ≠ 0 → operator.text = text "/" →
        ∃ q, result = .ok (.integer q) m₂ ∧ Wraps q (a.toInt.tdiv b.toInt)) ∧
      (b ≠ 0 → operator.text = text "%" → ∃ r, result = .ok (.integer r) m₂ ∧
        r.toInt.natAbs < b.toInt.natAbs ∧ (r.toInt = 0 ∨ r.toInt.sign = a.toInt.sign)) ∧
      (b = 0 → operator.text = text "/" ∨ operator.text = text "%" →
        ∃ e, result = .error e m₂ ∧ e.kind = .arithmetic) ∧
      (operator.text = text "<" → result = .ok (.ofBool (a.toInt < b.toInt)) m₂) ∧
      (operator.text = text ">" → result = .ok (.ofBool (b.toInt < a.toInt)) m₂) ∧
      (operator.text = text "==" → result = .ok (.ofBool (a.toInt = b.toInt)) m₂)) ∧
    (∃ c, evaluate (levels + 1) (.negative x) env m = .ok (.integer c) m₁ ∧ Wraps c (-a.toInt)) ∧
    ∀ (x' y' y'' : Node) (m₃ m₄ m₅ : Machine) (divide times plus modulo : Label), b ≠ 0 →
      divide.text = text "/" → times.text = text "*" → plus.text = text "+" → modulo.text = text "%" →
      evaluate (levels + 1) y' env m₂ = .ok (.integer b) m₃ → evaluate (levels + 1) x' env m₃ = .ok (.integer a) m₄ →
      evaluate (levels + 1) y'' env m₄ = .ok (.integer b) m₅ →
      evaluate (levels + 3) (.binary (.binary (.binary x divide y) times y') plus (.binary x' modulo y'')) env m
        = .ok (.integer a) m₅ := by
  refine ⟨fun operator => ⟨?_, ?_, ?_, ?_, ?_, ?_, ?_, ?_, evaluate_equal hx hy⟩, ?_, ?_⟩
  · exact fun h => ⟨_, evaluate_integers hx hy h (by decide), .of_bmod (Int64.toInt_add a b)⟩
  · exact fun h => ⟨_, evaluate_integers hx hy h (by decide), .of_bmod (Int64.toInt_sub a b)⟩
  · exact fun h => ⟨_, evaluate_integers hx hy h (by decide), .of_bmod (Int64.toInt_mul a b)⟩
  · exact fun hb h => ⟨_, evaluate_quotient hx hy hb h, .of_bmod (Int64.toInt_div a b)⟩
  · exact fun hb h => ⟨_, evaluate_remainder hx hy hb h, remainder_lt a hb, remainder_side a b⟩
  · exact evaluate_division_zero hx hy
  · intro h
    simp only [← Int64.lt_iff_toInt_lt]
    exact evaluate_integers hx hy h (by decide)
  · intro h
    simp only [← Int64.lt_iff_toInt_lt]
    exact evaluate_integers hx hy h (by decide)
  · exact ⟨_, bind_of_ok hx, .of_bmod (Int64.toInt_neg a)⟩
  · intro x' y' y'' m₃ m₄ m₅ divide times plus modulo hb hdivide htimes hplus hmodulo hy' hx' hy''
    have hquotient := evaluate_quotient hx hy hb hdivide
    have hproduct : evaluate (levels + 2) (.binary (.binary x divide y) times y') env m = .ok (.integer (a / b * b)) m₃ :=
      evaluate_integers hquotient hy' htimes (by decide)
    have hremainder := evaluate_remainder hx' hy'' hb hmodulo
    have hsum : evaluate (levels + 3) (.binary (.binary (.binary x divide y) times y') plus (.binary x' modulo y'')) env m
        = .ok (.integer (a / b * b + a % b)) m₅ := evaluate_integers hproduct hremainder hplus (by decide)
    rw [hsum, quotient_mul_add_remainder]

/-- The least integer, divided by minus one and multiplied by it. -/
theorem least_by_minus_one :
    let m := Machine.start ⟨9, true, false, 0⟩ (.ofText []) none 0
    let least : Node := .number ⟨[], 1⟩ Int64.minValue
    let one : Node := .negative (.number ⟨[], 1⟩ 1)
    let sign (t : String) : Label := .plain ⟨text t, 1⟩
    evaluate 5 (.binary (.binary (.binary least (sign "/") one) (sign "*") one) (sign "+")
      (.binary least (sign "%") one)) [] m = .ok (.integer Int64.minValue) m := by
  intro m least one sign
  have hleast : evaluate 2 least [] m = .ok (.integer Int64.minValue) m := rfl
  have hone : evaluate 2 one [] m = .ok (.integer (-1)) m := rfl
  exact (integers_wrap_and_divide hleast hone).2.2 least one one m m m (sign "/") (sign "*") (sign "+") (sign "%")
    (by decide) rfl rfl rfl rfl rfl rfl rfl

end Run

end StoneLang
