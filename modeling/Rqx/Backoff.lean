import Rqx.Transport
import Mathlib.Algebra.Order.Field.Rat
import Mathlib.Tactic.Positivity
import Mathlib.Tactic.Linarith

/-! The sleep before a retry: when it is one that `Duration::from_secs_f32` takes, and when there
is none. -/

namespace Number

/-- A number that is cut off at a ceiling: when it is finite, from 0 on and below a bound. -/
theorem min_range (bound : ℚ) (x ceiling : Number) :
    (∃ q, x.min ceiling = .fin q ∧ 0 ≤ q ∧ q < bound) ↔
      ceiling.lt (.fin 0) = false ∧ x.lt (.fin 0) = false ∧
        (ceiling.lt (.fin bound) ∨ x.lt (.fin bound)) := by
  cases ceiling with
  | nan => cases x <;> simp [min,lt]
  | negInf => cases x <;> simp [min,lt]
  | posInf => cases x <;> simp [min,lt]
  | fin m =>
    cases x with
    | nan => simp [min,lt]
    | negInf => simp [min,lt]
    | posInf => simp [min,lt]
    | fin y =>
      by_cases hlt : m < y
      · simp [min,lt,hlt]
        intro hm
        constructor
        · intro hb
          exact ⟨by linarith,.inl hb⟩
        · rintro ⟨_,hb | hb⟩
          · exact hb
          · linarith
      · simp [min,lt,hlt]
        have hle := not_lt.mp hlt
        constructor
        · rintro ⟨hy,hb⟩
          exact ⟨by linarith,hy,.inr hb⟩
        · rintro ⟨hm,hy,hb⟩
          refine ⟨hy,?_⟩
          rcases hb with hb | hb <;> linarith

theorem min_le {x ceiling : Number} {q : ℚ} (hnan : ceiling ≠ .nan) (h : x.min ceiling = .fin q) :
    Number.fin q = ceiling ∨ (Number.fin q).lt ceiling := by
  cases ceiling with
  | nan => exact absurd rfl hnan
  | negInf => cases x <;> simp_all [min,lt]
  | posInf => exact .inr rfl
  | fin m =>
    cases x with
    | fin y =>
      by_cases hlt : m < y
      · simp [min,lt,hlt] at h
        exact .inl (h ▸ rfl)
      · simp [min,lt,hlt] at h
        subst h
        exact (eq_or_lt_of_le (not_lt.mp hlt)).imp (congrArg _) (by simp [lt])
    | _ => simp_all [min,lt]

/-- What is not negative comes to 0 when it, or the ceiling, is 0. -/
theorem min_zero {x ceiling : Number} (hx : x.lt (.fin 0) = false) (hc : ceiling.lt (.fin 0) = false) :
    x.min ceiling = .fin 0 ↔ ceiling = .fin 0 ∨ x ≠ .nan ∧ (Number.fin 0).lt x = false := by
  cases ceiling with
  | nan =>
    cases x with
    | fin y =>
      simp [lt] at hx
      simp [min,lt]
      exact ⟨le_of_eq,fun hy => le_antisymm hy hx⟩
    | _ => simp_all [min,lt]
  | negInf => simp [lt] at hc
  | posInf =>
    cases x with
    | fin y =>
      simp [lt] at hx
      simp [min,lt]
      exact ⟨le_of_eq,fun hy => le_antisymm hy hx⟩
    | _ => simp_all [min,lt]
  | fin m =>
    simp [lt] at hc
    cases x with
    | fin y =>
      simp [lt] at hx
      by_cases hlt : m < y
      · simp [min,lt,hlt]
        intro hy
        linarith
      · simp [min,lt,hlt]
        constructor
        · rintro rfl
          exact .inr le_rfl
        · rintro (rfl | hy) <;> linarith
    | _ => simp_all [min,lt]

/-- The larger of two numbers is below a bound if the ones among them that are numbers are. -/
theorem max_lt (a b : Number) (bound : ℚ) : (a.max b).lt (.fin bound) ↔
    (a.lt (.fin bound) ∧ (b.lt (.fin bound) ∨ b = .nan)) ∨ (a = .nan ∧ b.lt (.fin bound)) := by
  cases a with
  | fin p =>
    cases b with
    | fin q =>
      by_cases hlt : p < q
      · simp only [max,lt,hlt]
        simp
        intro hq
        linarith
      · simp only [max,lt,hlt]
        simp
        intro hp
        linarith
    | _ => simp [max,lt]
  | _ => cases b <;> simp [max,lt]

theorem lt_max (a b : Number) (q : ℚ) :
    (Number.fin q).lt (a.max b) ↔ (Number.fin q).lt a ∨ (Number.fin q).lt b := by
  cases a with
  | fin p =>
    cases b with
    | fin p' =>
      by_cases hlt : p < p'
      · simp only [max,lt,hlt]
        simp
        intro hp
        linarith
      · simp only [max,lt,hlt]
        simp
        intro hp
        linarith
    | _ => simp [max,lt]
  | _ => cases b <;> simp [max,lt]

theorem max_nan (a b : Number) : a.max b = .nan ↔ a = .nan ∧ b = .nan := by
  cases a with
  | fin p =>
    cases b with
    | fin q => by_cases hlt : p < q <;> simp [max,lt,hlt]
    | _ => simp [max,lt]
  | _ => cases b <;> simp [max,lt]

end Number

namespace Rqx
namespace Retry

variable (r : Retry) (n : ℤ) (retryAfter : Number) (jitter : ℚ)

/-- What the factor comes to at the `n`-th retry, with the jitter on it if there is any. -/
def product : Number :=
  if (Number.fin 0).lt r.backoffJitter then
    (r.backoffFactor.mul (.twoPowi (n-1).toNat)).mul
      ((Number.fin 1).add ((Number.fin jitter).mul r.backoffJitter))
  else r.backoffFactor.mul (.twoPowi (n-1).toNat)

theorem zero_mul_cases (a : Number) :
    (Number.fin 0).mul a = .fin 0 ∨ (Number.fin 0).mul a = .nan := by
  cases a <;> simp [Number.mul,Number.sign]

theorem product_zero (h : r.backoffFactor = .fin 0) :
    (Number.fin 0).lt (r.product n jitter) = false := by
  have hcases : r.product n jitter = .fin 0 ∨ r.product n jitter = .nan := by
    unfold product
    rw [h]
    rcases zero_mul_cases (.twoPowi (n-1).toNat) with hzero | hnan
    · rw [hzero]
      split
      · exact zero_mul_cases _
      · exact .inl rfl
    · rw [hnan]
      split
      · exact .inr (by simp [Number.mul,Number.sign])
      · exact .inr rfl
  rcases hcases with hzero | hnan
  · rw [hzero]
    rfl
  · rw [hnan]
    rfl

/-- The product, from 0 on where there is jitter. -/
def calculatedBackoff : Number :=
  if (Number.fin 0).lt r.backoffJitter then (r.product n jitter).max (.fin 0) else r.product n jitter

/-- The seconds before the `n`-th retry. -/
def backoff : Number := ((r.calculatedBackoff n jitter).max retryAfter).min r.backoffMax

theorem backoffTime_eq (attempt : Int32) :
    r.backoffTime attempt retryAfter jitter = r.backoff attempt.toInt retryAfter jitter := by
  unfold backoffTime backoff calculatedBackoff product
  cases (Number.fin 0).lt r.backoffJitter <;> rfl

/-- A factor that is no number, or becomes none: at the 129th retry the power of two is infinite. -/
def Spoilt : Prop := r.backoffFactor = .nan ∨ r.backoffFactor = .fin 0 ∧ 128 < n

/-- A power of two keeps the sign of a factor, and spoils zero alone. -/
theorem mul_twoPowi (m : ℕ) (a : Number) :
    ((a.mul (.twoPowi m)).lt (.fin 0) ↔ a.lt (.fin 0)) ∧
      (a.mul (.twoPowi m) = .nan ↔ a = .nan ∨ a = .fin 0 ∧ 128 ≤ m) := by
  unfold Number.twoPowi
  split
  · rename_i hm
    have hq : (0 : ℚ) < 2^m := by positivity
    have hnot : ¬(2 : ℚ)^m < 0 := not_lt.mpr hq.le
    cases a with
    | fin p =>
      simp only [Number.mul,Number.lt,decide_eq_true_eq,reduceCtorEq,false_or]
      constructor
      · constructor
        · intro h
          by_contra hp
          have := mul_nonneg (not_lt.mp hp) hq.le
          linarith
        · intro h
          exact mul_neg_of_neg_of_pos h hq
      · simp only [false_iff]
        omega
    | _ => simp [Number.mul,Number.sign,Number.lt,hq,hnot]
  · rename_i hm
    have hm : 128 ≤ m := not_lt.mp hm
    cases a with
    | fin p =>
      rcases lt_trichotomy p 0 with hp | rfl | hp
      · simp [Number.mul,Number.sign,Number.lt,hp,hp.ne]
      · simp [Number.mul,Number.sign,Number.lt,hm]
      · simp [Number.mul,Number.sign,Number.lt,hp,hp.ne',not_lt.mpr hp.le]
    | _ => simp [Number.mul,Number.sign,Number.lt]

/-- Without jitter the sign of the factor is kept; with it nothing negative is left. -/
theorem calculatedBackoff_sign :
    ((r.calculatedBackoff n jitter).lt (.fin 0) ↔
      (Number.fin 0).lt r.backoffJitter = false ∧ r.backoffFactor.lt (.fin 0)) ∧
    (r.calculatedBackoff n jitter = .nan ↔
      (Number.fin 0).lt r.backoffJitter = false ∧ r.Spoilt n) := by
  obtain ⟨hsign,hnan⟩ := mul_twoPowi (n-1).toNat r.backoffFactor
  have hlate : 128 ≤ (n-1).toNat ↔ 128 < n := by omega
  rw [hlate] at hnan
  unfold calculatedBackoff product
  cases hjitter : (Number.fin 0).lt r.backoffJitter with
  | false =>
    simp only [Bool.false_eq_true,if_false,true_and]
    exact ⟨hsign,hnan⟩
  | true =>
    simp only [if_true]
    generalize (r.backoffFactor.mul (.twoPowi (n-1).toNat)).mul
      ((Number.fin 1).add ((Number.fin jitter).mul r.backoffJitter)) = a
    constructor
    · rw [Number.max_lt]
      simp [Number.lt]
    · cases a with
      | fin q => by_cases h : q < 0 <;> simp [Number.max,Number.lt,h]
      | _ => simp [Number.max,Number.lt]

/-- The product and the header, whichever of them are numbers, are below a bound. -/
structure Below (bound : ℚ) : Prop where
  product : (r.product n jitter).lt (.fin bound) ∨ r.product n jitter = .nan
  header : retryAfter.lt (.fin bound) ∨ retryAfter = .nan
  number : (Number.fin 0).lt r.backoffJitter ∨ r.product n jitter ≠ .nan ∨ retryAfter ≠ .nan

/-- The configuration and the header leave a sleep that can be slept. -/
structure Sleepable : Prop where
  ceiling : r.backoffMax.lt (.fin 0) = false
  /-- Unless there is jitter, a negative factor or header meets one that is not. -/
  floor : (Number.fin 0).lt r.backoffJitter ∨
    ¬(r.backoffFactor.lt (.fin 0) ∧ (retryAfter.lt (.fin 0) ∨ retryAfter = .nan) ∨
      r.Spoilt n ∧ retryAfter.lt (.fin 0))
  /-- One of the limits of a sleep is below that of a `Duration`. -/
  bound : r.backoffMax.lt (.fin (2^64)) ∨ r.Below n retryAfter jitter (2^64)

theorem below_iff {bound : ℚ} (hbound : 0 < bound) :
    ((r.calculatedBackoff n jitter).max retryAfter).lt (.fin bound) ↔
      r.Below n retryAfter jitter bound := by
  rw [Number.max_lt]
  unfold calculatedBackoff
  cases hjitter : (Number.fin 0).lt r.backoffJitter with
  | true =>
    have hmax : (((r.product n jitter).max (.fin 0)).lt (.fin bound) ↔
        (r.product n jitter).lt (.fin bound) ∨ r.product n jitter = .nan) ∧
        (r.product n jitter).max (.fin 0) ≠ .nan := by
      rw [Number.max_lt]
      cases r.product n jitter with
      | fin q => by_cases h : q < 0 <;> simp [Number.max,Number.lt,h,hbound]
      | _ => simp [Number.max,Number.lt,hbound]
    simp only [if_true]
    rw [hmax.1]
    constructor
    · rintro (⟨hproduct,hheader⟩ | ⟨hnan,_⟩)
      · exact ⟨hproduct,hheader,.inl hjitter⟩
      · exact absurd hnan hmax.2
    · rintro ⟨hproduct,hheader,_⟩
      exact .inl ⟨hproduct,hheader⟩
  | false =>
    simp only [Bool.false_eq_true,if_false]
    constructor
    · rintro (⟨hproduct,hheader⟩ | ⟨hnan,hheader⟩)
      · refine ⟨.inl hproduct,hheader,.inr (.inl ?_)⟩
        rintro hnan
        simp [hnan,Number.lt] at hproduct
      · refine ⟨.inr hnan,.inl hheader,.inr (.inr ?_)⟩
        rintro rfl
        simp [Number.lt] at hheader
    · rintro ⟨hproduct | hnan,hheader,hnumber⟩
      · exact .inl ⟨hproduct,hheader⟩
      · refine .inr ⟨hnan,hheader.resolve_right ?_⟩
        simpa [hjitter,hnan] using hnumber

theorem floor_iff : ((r.calculatedBackoff n jitter).max retryAfter).lt (.fin 0) = false ↔
    (Number.fin 0).lt r.backoffJitter ∨
      ¬(r.backoffFactor.lt (.fin 0) ∧ (retryAfter.lt (.fin 0) ∨ retryAfter = .nan) ∨
        r.Spoilt n ∧ retryAfter.lt (.fin 0)) := by
  obtain ⟨hsign,hnan⟩ := r.calculatedBackoff_sign n jitter
  rw [← Bool.not_eq_true,Number.max_lt,hsign,hnan]
  cases (Number.fin 0).lt r.backoffJitter <;> simp

/-- `Duration::from_secs_f32` takes the seconds if and only if the sleep can be slept. -/
theorem sleepable_iff : (∃ q, r.backoff n retryAfter jitter = .fin q ∧ 0 ≤ q ∧ q < 2^64) ↔
    r.Sleepable n retryAfter jitter := by
  rw [backoff,Number.min_range,floor_iff,below_iff _ _ _ _ (by positivity)]
  constructor
  · rintro ⟨hceiling,hfloor,hbound⟩
    exact ⟨hceiling,hfloor,hbound⟩
  · rintro ⟨hceiling,hfloor,hbound⟩
    exact ⟨hceiling,hfloor,hbound⟩

theorem fromSecs_iff {a : Number} : (fromSecs a).isSome ↔ ∃ q, a = .fin q ∧ 0 ≤ q ∧ q < 2^64 := by
  cases a with
  | fin q => by_cases h : 0 ≤ q ∧ q < 2^64 <;> simp [fromSecs,h]
  | _ => simp [fromSecs]

/-- The ceiling is 0, or neither the product nor the header asks for a sleep. -/
def NoSleep : Prop := r.backoffMax = .fin 0 ∨
  (Number.fin 0).lt (r.product n jitter) = false ∧ (Number.fin 0).lt retryAfter = false ∧
    ((Number.fin 0).lt r.backoffJitter ∨ r.product n jitter ≠ .nan ∨ retryAfter ≠ .nan)

theorem calculatedBackoff_positive : (Number.fin 0).lt (r.calculatedBackoff n jitter) ↔
    (Number.fin 0).lt (r.product n jitter) := by
  unfold calculatedBackoff
  split
  · rw [Number.lt_max]
    simp [Number.lt]
  · rfl

theorem calculatedBackoff_nan : r.calculatedBackoff n jitter = .nan ↔
    (Number.fin 0).lt r.backoffJitter = false ∧ r.product n jitter = .nan := by
  unfold calculatedBackoff
  cases (Number.fin 0).lt r.backoffJitter with
  | true => simp [Number.max_nan]
  | false => simp

/-- A retry number, a header and a jitter that ask for no sleep get none. -/
theorem noSleep_iff (h : r.Sleepable n retryAfter jitter) :
    r.backoff n retryAfter jitter = .fin 0 ↔ r.NoSleep n retryAfter jitter := by
  rw [backoff,Number.min_zero ((floor_iff _ _ _ _).mpr h.floor) h.ceiling,NoSleep]
  refine or_congr Iff.rfl ?_
  rw [← Bool.not_eq_true,Number.lt_max,calculatedBackoff_positive,ne_eq,Number.max_nan,
    calculatedBackoff_nan]
  cases (Number.fin 0).lt r.backoffJitter with
  | true => simp
  | false =>
    simp
    tauto

/-- A sleep is a number of seconds, from 0 on, that fits a `Duration` and is within `backoff_max`,
if and only if the configuration, the number of the retry and the header allow for it. -/
theorem backoff_sleepable (r : Retry) (attempt : Int32) (currentResponse : Option Response)
    (jitter : ℚ) :
    (∃ q, r.backoffTime attempt (r.retryAfter currentResponse) jitter = .fin q ∧ 0 ≤ q ∧ q < 2^64 ∧
      (Number.fin q = r.backoffMax ∨ (Number.fin q).lt r.backoffMax)) ↔
        r.backoffMax ≠ .nan ∧ r.Sleepable attempt.toInt (r.retryAfter currentResponse) jitter := by
  rw [backoffTime_eq,← sleepable_iff]
  constructor
  · rintro ⟨q,hq,hpos,hlt,hmax⟩
    refine ⟨?_,q,hq,hpos,hlt⟩
    intro hnan
    simp [hnan,Number.lt] at hmax
  · rintro ⟨hnan,q,hq,hpos,hlt⟩
    exact ⟨q,hq,hpos,hlt,Number.min_le hnan hq⟩

/-- The 128th retry of a factor 0 can still be slept, whatever the header says. -/
example : (Retry.new none none none none none none none none none none none none).backoffTime 128
    (.fin (-5)) 0 = .fin 0 := by decide +kernel

example : (Retry.new none none none none none none none none none none none none).backoffTime 129
    (.fin (-5)) 0 = .fin (-5) := by decide +kernel

/-- Whatever the server says, every retry can be slept for. -/
structure Sound (r : Retry) : Prop where
  ceiling : r.backoffMax.lt (.fin 0) = false ∧ r.backoffMax.lt (.fin (2^64))
  /-- Only a header that is negative can make the sleep so. -/
  floor : r.respectRetryAfterHeader = false ∨ (Number.fin 0).lt r.backoffJitter ∨
    r.backoffFactor.lt (.fin 0) = false ∧ r.backoffFactor ≠ .nan ∧
      (r.backoffFactor = .fin 0 → r.total.toInt ≤ 128)

/-- A negative `backoff_max` is taken for a sleep. -/
theorem backoffTime_negative : ¬ ∀ (r : Retry) (attempt : Int32) (currentResponse : Option Response)
    (jitter : ℚ), 1 ≤ attempt.toInt → -1 ≤ jitter → jitter < 1 →
      ∃ q, r.backoffTime attempt (r.retryAfter currentResponse) jitter = .fin q ∧ 0 ≤ q ∧ q < 2^64 ∧
        (Number.fin q = r.backoffMax ∨ (Number.fin q).lt r.backoffMax) := by
  intro h
  obtain ⟨q,hq,hpos,_⟩ := h
    (Retry.new none none none none none (some (.fin (-1))) none none none none none none)
    1 none 0 (by decide) (by norm_num) (by norm_num)
  have hslept := (sleepable_iff _ _ _ _).mp ⟨q,(backoffTime_eq _ _ _ _).symm.trans hq,hpos,by tauto⟩
  exact absurd hslept.ceiling (by decide)

end Retry

namespace HttpClient

variable {ω : Type} (http : HttpClient ω) {r : Retry} (request : Request)

variable {http request}

end HttpClient
end Rqx
