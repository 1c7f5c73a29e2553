import Mathlib.Algebra.Order.Ring.Abs
import ProbLoop.Interval
import ProbLoop.Proofs.Power

/-!
# Powers of intervals

The power of an interval holds the power of every number in the interval, also where an even power
folds the interval at zero.
-/

set_option autoImplicit false

namespace ProbLoop

namespace Sign

theorem of_ne_negative {q : Rat} : of q ≠ negative ↔ 0 ≤ q := by
  unfold of
  by_cases hpos : 0 < q
  · simp [hpos, hpos.le]
  · by_cases hneg : q < 0
    · simp [hpos, hneg]
    · simp [hpos, hneg, not_lt.mp hneg]

end Sign

namespace Number

theorem minimum?_le {qs : List Rat} {low : Rat} (h : minimum? qs = some low) :
    ∀ q ∈ qs, low ≤ q := by
  cases qs with
  | nil => simp
  | cons q qs =>
    rw [← Option.some.inj h]
    have hfold : ∀ (l : List Rat) (a : Rat),
        l.foldl (fun a b => if b < a then b else a) a ≤ a ∧
          ∀ b ∈ l, l.foldl (fun a b => if b < a then b else a) a ≤ b := by
      intro l
      induction l with
      | nil => simp
      | cons b l ih =>
        intro a
        obtain ⟨hle, hall⟩ := ih (if b < a then b else a)
        rw [List.foldl_cons]
        by_cases hb : b < a
        · rw [if_pos hb] at hle hall ⊢
          exact ⟨hle.trans hb.le, List.forall_mem_cons.mpr ⟨hle, hall⟩⟩
        · rw [if_neg hb] at hle hall ⊢
          exact ⟨hle, List.forall_mem_cons.mpr ⟨hle.trans (not_lt.mp hb), hall⟩⟩
    exact List.forall_mem_cons.mpr (hfold qs q)

theorem le_maximum? {qs : List Rat} {high : Rat} (h : maximum? qs = some high) :
    ∀ q ∈ qs, q ≤ high := by
  cases qs with
  | nil => simp
  | cons q qs =>
    rw [← Option.some.inj h]
    have hfold : ∀ (l : List Rat) (a : Rat),
        a ≤ l.foldl (fun a b => if a < b then b else a) a ∧
          ∀ b ∈ l, b ≤ l.foldl (fun a b => if a < b then b else a) a := by
      intro l
      induction l with
      | nil => simp
      | cons b l ih =>
        intro a
        obtain ⟨hle, hall⟩ := ih (if a < b then b else a)
        rw [List.foldl_cons]
        by_cases hb : a < b
        · rw [if_pos hb] at hle hall ⊢
          exact ⟨hb.le.trans hle, List.forall_mem_cons.mpr ⟨hle, hall⟩⟩
        · rw [if_neg hb] at hle hall ⊢
          exact ⟨hle, List.forall_mem_cons.mpr ⟨(not_lt.mp hb).trans hle, hall⟩⟩
    exact List.forall_mem_cons.mpr (hfold qs q)

end Number

namespace Endpoint

variable {e f : Endpoint} {x : Rat} {k : Nat}

theorem le_max_left (h : (finite x).le e = true) : (finite x).le (e.max f) = true := by
  unfold max
  split
  · next hle =>
    cases e <;> cases f <;> simp_all [le]
    exact h.trans hle
  · exact h

theorem le_max_right (h : (finite x).le f = true) : (finite x).le (e.max f) = true := by
  unfold max
  split
  · exact h
  · next hle =>
    cases e <;> cases f <;> simp_all [le]
    exact h.trans hle.le

theorem le_pow (h : (finite x).le e = true) (hx : 0 ≤ x) :
    (finite (x ^ k)).le (e.pow k) = true := by
  cases e with
  | negInf => simp [le] at h
  | finite q =>
    have hle : x ≤ q := by simpa [le] using h
    simpa [pow, le, Number.pow_eq] using pow_le_pow_left₀ hx hle k
  | posInf =>
    by_cases hk : k = 0
    · simp [pow, le, hk]
    · simp [pow, le, hk]

theorem le_pow_odd (h : (finite x).le e = true) (hk : k % 2 = 1) :
    (finite (x ^ k)).le (e.pow k) = true := by
  cases e with
  | negInf => simp [le] at h
  | finite q =>
    have hle : x ≤ q := by simpa [le] using h
    simpa [pow, le, Number.pow_eq] using (Nat.odd_iff.mpr hk).pow_le_pow.mpr hle
  | posInf =>
    have hne : k ≠ 0 := by omega
    simp [pow, hne, le]

theorem pow_le_odd (h : e.le (finite x) = true) (hk : k % 2 = 1) :
    (e.pow k).le (finite (x ^ k)) = true := by
  cases e with
  | negInf =>
    have hne : k ≠ 0 := by omega
    simp [pow, hne, hk, le]
  | finite q =>
    have hle : q ≤ x := by simpa [le] using h
    simpa [pow, le, Number.pow_eq] using (Nat.odd_iff.mpr hk).pow_le_pow.mpr hle
  | posInf => simp [le] at h

theorem pow_le_of_nonneg (h : e.le (finite x) = true) (hs : e.sign ≠ .negative) :
    0 ≤ x ∧ (e.pow k).le (finite (x ^ k)) = true := by
  cases e with
  | negInf => simp [sign] at hs
  | finite q =>
    have hle : q ≤ x := by simpa [le] using h
    have hq : 0 ≤ q := Sign.of_ne_negative.mp hs
    exact ⟨hq.trans hle, by simpa [pow, le, Number.pow_eq] using pow_le_pow_left₀ hq hle k⟩
  | posInf => simp [le] at h

theorem le_pow_even (h : e.le (finite x) = true) (hx : x ≤ 0) (hk : k % 2 = 0) :
    (finite (x ^ k)).le (e.pow k) = true := by
  cases e with
  | negInf =>
    by_cases hzero : k = 0
    · simp [pow, le, hzero]
    · simp [pow, le, hzero, hk]
  | finite q =>
    have hle : q ≤ x := by simpa [le] using h
    have hpow := pow_le_pow_left₀ (neg_nonneg.mpr hx) (neg_le_neg hle) k
    rw [(Nat.even_iff.mpr hk).neg_pow, (Nat.even_iff.mpr hk).neg_pow] at hpow
    simpa [pow, le, Number.pow_eq] using hpow
  | posInf => simp [le] at h

theorem pow_le_even (h : (finite x).le e = true) (hs : e.sign = .negative) (hk : k % 2 = 0) :
    x ≤ 0 ∧ (e.pow k).le (finite (x ^ k)) = true := by
  cases e with
  | negInf => simp [le] at h
  | finite q =>
    have hle : x ≤ q := by simpa [le] using h
    have hq : q < 0 := by
      by_contra hq
      exact Sign.of_ne_negative.mpr (not_lt.mp hq) hs
    have hpow := pow_le_pow_left₀ (neg_nonneg.mpr hq.le) (neg_le_neg hle) k
    rw [(Nat.even_iff.mpr hk).neg_pow, (Nat.even_iff.mpr hk).neg_pow] at hpow
    exact ⟨hle.trans hq.le, by simpa [pow, le, Number.pow_eq] using hpow⟩
  | posInf => simp [sign] at hs

end Endpoint

namespace Interval

variable {i : Interval} {x : Rat}

theorem Contains.pow (h : i.Contains x) (k : Nat) : (i.pow k).Contains (x ^ k) := by
  obtain ⟨hlow, hhigh⟩ := h
  unfold Interval.pow
  simp only
  split
  · next hk =>
    split
    · next hs =>
      obtain ⟨hx, hle⟩ := Endpoint.pow_le_even hhigh hs hk
      exact ⟨hle, Endpoint.le_pow_even hlow hx hk⟩
    · split
      · have hnonneg : 0 ≤ x ^ k := (Nat.even_iff.mpr hk).pow_nonneg x
        refine ⟨by simpa [Endpoint.le] using hnonneg, ?_⟩
        rcases le_total 0 x with hx | hx
        · exact Endpoint.le_max_left (Endpoint.le_pow hhigh hx)
        · exact Endpoint.le_max_right (Endpoint.le_pow_even hlow hx hk)
      · next hs =>
        obtain ⟨hx, hle⟩ := Endpoint.pow_le_of_nonneg (k := k) hlow hs
        exact ⟨hle, Endpoint.le_pow hhigh hx⟩
  · next hk =>
    have hodd : k % 2 = 1 := by omega
    exact ⟨Endpoint.pow_le_odd hlow hodd, Endpoint.le_pow_odd hhigh hodd⟩

theorem Contains.of_finite? (h : i.Contains x) {low high : Rat}
    (hf : i.finite? = some (low, high)) : low ≤ x ∧ x ≤ high := by
  obtain ⟨l, u⟩ := i
  unfold finite? at hf
  split at hf
  · next a b ha hb =>
    obtain ⟨rfl, rfl⟩ := Prod.mk.inj (Option.some.inj hf)
    simp only at ha hb
    subst ha hb
    simpa [Contains, Endpoint.le] using h
  · simp at hf

end Interval

end ProbLoop
