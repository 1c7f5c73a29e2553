import Mathlib
import ProbLoop.Polynomial.Roots

/-!
# Coefficient lists as polynomials

The operations on coefficient lists are those of real polynomials. Lists that do not end in zero know the
degree and the leading coefficient, so division makes a list shorter.
-/

set_option autoImplicit false

section

open Polynomial

namespace ProbLoop

/-- The real polynomial with the given coefficients, the constant one first. -/
noncomputable def ofCoefficients (cs : List Rat) : ℝ[X] :=
  cs.foldr (fun (c : Rat) (f : ℝ[X]) => C (c : ℝ) + X * f) 0

/-- The same for coefficients in the other order. -/
noncomputable def ofReversed (cs : List Rat) : ℝ[X] := ofCoefficients cs.reverse

theorem ofCoefficients_cons (c : Rat) (cs : List Rat) :
    ofCoefficients (c :: cs) = C (c : ℝ) + X * ofCoefficients cs := rfl

theorem ofCoefficients_append (cs ds : List Rat) :
    ofCoefficients (cs ++ ds) = ofCoefficients cs + X ^ cs.length * ofCoefficients ds := by
  induction cs with
  | nil => simp [ofCoefficients]
  | cons c cs ih =>
    rw [List.cons_append, ofCoefficients_cons, ofCoefficients_cons, ih, List.length_cons, pow_succ]
    ring

theorem ofReversed_cons (c : Rat) (cs : List Rat) :
    ofReversed (c :: cs) = C (c : ℝ) * X ^ cs.length + ofReversed cs := by
  rw [ofReversed, List.reverse_cons, ofCoefficients_append, List.length_reverse, ofCoefficients_cons,
    ofReversed]
  simp only [ofCoefficients, List.foldr_nil, mul_zero, add_zero]
  ring

theorem coeff_ofCoefficients (cs : List Rat) (k : Nat) :
    (ofCoefficients cs).coeff k = ((cs[k]?.getD 0 : Rat) : ℝ) := by
  induction cs generalizing k with
  | nil => simp [ofCoefficients]
  | cons c cs ih =>
    rw [ofCoefficients_cons, coeff_add]
    cases k with
    | zero => simp
    | succ k => rw [coeff_C_succ, coeff_X_mul, ih, zero_add, List.getElem?_cons_succ]

/-- Holds of coefficients that do not end in zero. -/
def Trimmed (cs : List Rat) : Prop := cs.getLast? ≠ some 0

namespace Polynomial

theorem trim_cons (c : Rat) (cs : List Rat) :
    trim (c :: cs) = if trim cs = [] ∧ c = 0 then [] else c :: trim cs := by
  rw [trim]
  cases trim cs with
  | nil => by_cases hc : c = 0 <;> simp [hc]
  | cons d ds => simp

theorem trimmed_trim (cs : List Rat) : Trimmed (trim cs) := by
  induction cs with
  | nil => simp [trim, Trimmed]
  | cons c cs ih =>
    rw [trim_cons]
    split
    · simp [Trimmed]
    · next h =>
      unfold Trimmed at ih ⊢
      cases hts : trim cs with
      | nil =>
        have hc : c ≠ 0 := fun hc => h ⟨hts, hc⟩
        simpa using hc
      | cons d ds =>
        rw [hts] at ih
        rwa [List.getLast?_cons_cons]

theorem length_trim_le (cs : List Rat) : (trim cs).length ≤ cs.length := by
  induction cs with
  | nil => simp [trim]
  | cons c cs ih =>
    rw [trim_cons]
    split
    · simp
    · simpa using ih

theorem ofCoefficients_trim (cs : List Rat) : ofCoefficients (trim cs) = ofCoefficients cs := by
  induction cs with
  | nil => rfl
  | cons c cs ih =>
    rw [trim_cons]
    split
    · next h =>
      rw [h.1] at ih
      rw [ofCoefficients_cons, ← ih, h.2]
      simp [ofCoefficients]
    · rw [ofCoefficients_cons, ofCoefficients_cons, ih]

/-- A polynomial whose coefficients do not end in zero, as every operation returns it. -/
def Normal (p : Polynomial) : Prop := Trimmed p.coefficients

theorem normal_ofList (cs : List Rat) : (ofList cs).Normal := trimmed_trim cs

/-- The real polynomial for which a list of coefficients stands. -/
noncomputable def toReal (p : Polynomial) : ℝ[X] := ofCoefficients p.coefficients

theorem toReal_ofList (cs : List Rat) : (ofList cs).toReal = ofCoefficients cs :=
  ofCoefficients_trim cs

section Normal

variable {p q : Polynomial}

theorem Normal.leading_ne_zero (hp : p.Normal) (h : p.isZero = false) : p.leading ≠ 0 := by
  obtain ⟨cs⟩ := p
  unfold Normal Trimmed at hp
  unfold isZero at h
  unfold leading
  simp only at hp h ⊢
  cases hl : cs.getLast? with
  | none => simp [List.getLast?_eq_none_iff.mp hl] at h
  | some c =>
    rw [hl] at hp
    simpa using hp

theorem natDegree_toReal_lt (h : p.isZero = false) : p.toReal.natDegree < p.coefficients.length := by
  have hpos : 0 < p.coefficients.length := by
    rw [List.length_pos_iff]
    simpa [isZero] using h
  rw [Nat.lt_iff_le_pred hpos]
  apply natDegree_le_iff_coeff_eq_zero.mpr
  intro k hk
  rw [toReal, coeff_ofCoefficients, List.getElem?_eq_none (by omega), Option.getD_none, Rat.cast_zero]

/-- The last coefficient is the leading one. -/
theorem Normal.spec (hp : p.Normal) (h : p.isZero = false) :
    p.toReal ≠ 0 ∧ p.toReal.natDegree + 1 = p.coefficients.length ∧
      p.toReal.leadingCoeff = (p.leading : ℝ) := by
  have hlead := hp.leading_ne_zero h
  have hpos : 0 < p.coefficients.length := by
    rw [List.length_pos_iff]
    simpa [isZero] using h
  have hcoeff : p.toReal.coeff (p.coefficients.length - 1) = (p.leading : ℝ) := by
    rw [toReal, coeff_ofCoefficients, ← List.getLast?_eq_getElem?, leading]
  have hne : p.toReal.coeff (p.coefficients.length - 1) ≠ 0 := by
    rw [hcoeff]
    exact_mod_cast hlead
  have hle := le_natDegree_of_ne_zero hne
  have hlt := natDegree_toReal_lt h
  refine ⟨fun h0 => hne (by rw [h0, coeff_zero]), by omega, ?_⟩
  rw [leadingCoeff, ← hcoeff]
  congr 1
  omega

theorem toReal_of_isZero (h : p.isZero = true) : p.toReal = 0 := by
  rw [toReal, List.isEmpty_iff.mp h]
  rfl

end Normal

theorem eval_toReal (p : Polynomial) (x : Rat) : p.toReal.eval (x : ℝ) = (p.eval x : ℝ) := by
  obtain ⟨cs⟩ := p
  change (ofCoefficients cs).eval (x : ℝ) = ((cs.foldr (fun c acc => acc * x + c) 0 : Rat) : ℝ)
  induction cs with
  | nil => simp [ofCoefficients]
  | cons c cs ih =>
    rw [ofCoefficients_cons, List.foldr_cons, eval_add, eval_mul, eval_X, eval_C, ih]
    push_cast
    ring

theorem toReal_neg (p : Polynomial) : p.neg.toReal = -p.toReal := by
  rw [neg, toReal_ofList, toReal]
  induction p.coefficients with
  | nil => simp [ofCoefficients]
  | cons c cs ih =>
    rw [List.map_cons, ofCoefficients_cons, ofCoefficients_cons, ih]
    push_cast
    rw [C_neg]
    ring

theorem toReal_ofList_reverse (cs : List Rat) : (ofList cs.reverse).toReal = ofReversed cs :=
  toReal_ofList cs.reverse

theorem toReal_eq_ofReversed (p : Polynomial) : p.toReal = ofReversed p.coefficients.reverse := by
  rw [ofReversed, List.reverse_reverse, toReal]

section Division

variable {factor lead root carry : Rat} {divisor rest : List Rat}

/-- Subtracting from the front subtracts a multiple by a power. -/
theorem ofReversed_subtractFront (factor : Rat) (h : divisor.length ≤ rest.length) :
    ofReversed (subtractFront factor divisor rest) =
      ofReversed rest -
        C (factor : ℝ) * X ^ (rest.length - divisor.length) * ofReversed divisor := by
  induction divisor generalizing rest with
  | nil => simp [subtractFront, ofReversed, ofCoefficients]
  | cons d divisor ih =>
    cases rest with
    | nil => simp at h
    | cons a rest =>
      have hle : divisor.length ≤ rest.length := by simpa using h
      have hpow : (X : ℝ[X]) ^ rest.length =
          X ^ (rest.length - divisor.length) * X ^ divisor.length := by
        rw [← pow_add, Nat.sub_add_cancel hle]
      have hdiff : (a :: rest).length - (d :: divisor).length = rest.length - divisor.length := by
        simp
      rw [subtractFront, ofReversed_cons, length_subtractFront factor divisor rest hle, ih hle, hdiff,
        ofReversed_cons, ofReversed_cons, hpow]
      push_cast
      rw [C_sub, C_mul]
      ring

/-- Long division leaves the remainder of a division, which is shorter than the divisor. -/
theorem exists_reduce (hlead : lead ≠ 0) (divisor dividend : List Rat) :
    (reduce lead divisor dividend).length ≤ divisor.length ∧
      ∃ q, ofReversed dividend =
        q * ofReversed (lead :: divisor) + ofReversed (reduce lead divisor dividend) := by
  induction dividend using reduce.induct lead divisor with
  | case1 => exact ⟨by simp [reduce], 0, by simp [reduce]⟩
  | case2 a rest h =>
    rw [reduce, dif_pos h]
    exact ⟨by simpa using h, 0, by simp⟩
  | case3 a rest h _ ih =>
    have hle : divisor.length ≤ rest.length := not_lt.mp h
    obtain ⟨hlength, q, hq⟩ := ih
    rw [reduce, dif_neg h]
    refine ⟨hlength, q + C ((a / lead : Rat) : ℝ) * X ^ (rest.length - divisor.length), ?_⟩
    rw [ofReversed_subtractFront _ hle, sub_eq_iff_eq_add] at hq
    have hpow : (X : ℝ[X]) ^ rest.length =
        X ^ (rest.length - divisor.length) * X ^ divisor.length := by
      rw [← pow_add, Nat.sub_add_cancel hle]
    have ha : C (a : ℝ) = C ((a / lead : Rat) : ℝ) * C (lead : ℝ) := by
      rw [← C_mul, ← Rat.cast_mul, div_mul_cancel₀ a hlead]
    rw [ofReversed_cons, hq, ofReversed_cons, hpow, ha]
    ring

theorem quotientFrom_cons_cons (root carry c b : Rat) (rest : List Rat) :
    quotientFrom root carry (c :: b :: rest) =
      (c + carry * root) :: quotientFrom root (c + carry * root) (b :: rest) := rfl

/-- Synthetic division: the last value of the scheme is the value at the root. -/
theorem ofReversed_quotientFrom (root : Rat) (c : Rat) (rest : List Rat) (carry : Rat) :
    (quotientFrom root carry (c :: rest)).length = rest.length ∧
      ofReversed (c :: rest) + C ((carry * root : Rat) : ℝ) * X ^ rest.length =
        (X - C (root : ℝ)) * ofReversed (quotientFrom root carry (c :: rest)) +
          C (((c :: rest).foldl (fun acc c => acc * root + c) carry : Rat) : ℝ) := by
  induction rest generalizing c carry with
  | nil =>
    refine ⟨rfl, ?_⟩
    rw [ofReversed_cons, quotientFrom]
    simp only [ofReversed, ofCoefficients, List.reverse_nil, List.foldr_nil, List.length_nil, pow_zero,
      List.foldl_cons, List.foldl_nil]
    push_cast
    rw [C_add]
    ring
  | cons b rest ih =>
    obtain ⟨hlength, hih⟩ := ih b (c + carry * root)
    rw [quotientFrom_cons_cons]
    refine ⟨by rw [List.length_cons, hlength, List.length_cons], ?_⟩
    rw [ofReversed_cons c (b :: rest), ofReversed_cons (c + carry * root), hlength, List.foldl_cons,
      add_comm (carry * root) c, mul_add, add_assoc ((X - C (root : ℝ)) * _), ← hih,
      List.length_cons, pow_succ]
    push_cast
    simp only [C_add, C_mul]
    ring

end Division

section Remainder

variable {p d : Polynomial}

theorem reverse_eq_cons (h : d.isZero = false) :
    ∃ divisor, d.coefficients.reverse = d.leading :: divisor := by
  obtain ⟨cs⟩ := d
  cases hrev : cs.reverse with
  | nil =>
    rw [List.reverse_eq_nil_iff.mp hrev] at h
    simp [isZero] at h
  | cons c rest =>
    refine ⟨rest, ?_⟩
    rw [leading, List.getLast?_eq_head?_reverse, hrev]
    rfl

/-- Division with remainder. -/
theorem Normal.exists_rem (hd : d.Normal) (h : d.isZero = false) (p : Polynomial) :
    (p.rem d).Normal ∧ (p.rem d).coefficients.length < d.coefficients.length ∧
      ∃ q, p.toReal = q * d.toReal + (p.rem d).toReal := by
  obtain ⟨divisor, hdivisor⟩ := reverse_eq_cons h
  have hlead := hd.leading_ne_zero h
  obtain ⟨hlength, q, hq⟩ := exists_reduce hlead divisor p.coefficients.reverse
  have hlen : d.coefficients.length = divisor.length + 1 := by
    rw [← List.length_reverse, hdivisor, List.length_cons]
  unfold rem
  rw [hdivisor]
  refine ⟨normal_ofList _, ?_, q, ?_⟩
  · have htrim := length_trim_le (reduce d.leading divisor p.coefficients.reverse).reverse
    rw [List.length_reverse] at htrim
    change (trim _).length < _
    omega
  · rw [toReal_ofList_reverse, toReal_eq_ofReversed, toReal_eq_ofReversed d, hdivisor, hq]

/-- Dividing out a root makes a polynomial shorter. -/
theorem divideOut_spec {root : Rat} (hp : p.isZero = false) (hroot : p.eval root = 0) :
    (p.divideOut root).Normal ∧ (p.divideOut root).coefficients.length < p.coefficients.length ∧
      p.toReal = (X - C (root : ℝ)) * (p.divideOut root).toReal := by
  obtain ⟨rest, hrest⟩ := reverse_eq_cons hp
  obtain ⟨hlength, hspec⟩ := ofReversed_quotientFrom root p.leading rest 0
  have heval : (p.leading :: rest).foldl (fun acc c => acc * root + c) 0 = 0 := by
    rw [← hrest, List.foldl_reverse]
    exact hroot
  have hlen : p.coefficients.length = rest.length + 1 := by
    rw [← List.length_reverse, hrest, List.length_cons]
  unfold divideOut
  rw [hrest]
  refine ⟨normal_ofList _, ?_, ?_⟩
  · have htrim := length_trim_le (quotientFrom root 0 (p.leading :: rest)).reverse
    rw [List.length_reverse, hlength] at htrim
    change (trim _).length < _
    omega
  · rw [heval, zero_mul, Rat.cast_zero, C_0, zero_mul, add_zero, add_zero] at hspec
    rw [toReal_ofList_reverse, toReal_eq_ofReversed, hrest, hspec]

end Remainder

end Polynomial

section Operations

variable {p d : ProbLoop.Polynomial}

theorem toReal_derivative (p : ProbLoop.Polynomial) :
    p.derivative.toReal = derivative p.toReal := by
  rw [ProbLoop.Polynomial.derivative, ProbLoop.Polynomial.toReal_ofList]
  ext k
  rw [coeff_derivative, ProbLoop.Polynomial.toReal, coeff_ofCoefficients, coeff_ofCoefficients,
    List.getElem?_map, List.getElem?_tail, List.getElem?_zipIdx]
  cases p.coefficients[k + 1]? with
  | none => simp
  | some c => simp

end Operations

end ProbLoop

end
