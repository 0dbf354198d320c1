import Mathlib.Algebra.Order.Field.Basic
import Mathlib.Tactic.Linarith
import Mathlib.Tactic.Ring

/-!
# Token buckets

A bucket holds at most `burst` tokens and is refilled at a constant `rate` when somebody comes to
take one: the time that has gone by is credited then, and what does not fit is lost. Numbers are
from any ordered field, and a bucket may be credited with less time than has gone by.

Within any interval `[s, t]` at most `burst + rate * (t - s)` tokens are taken
(`TokenBucket.Log.taken_le`). The argument is a potential: what has been taken until `t` and what is
left is at most what was there and what can be credited until `t`
(`TokenBucket.Log.taken_le_of_filled`). An interval begins for the bucket when the first token in it
is taken, and there are at most `burst` then.
-/

namespace Framework

variable {K : Type} [Field K] [LinearOrder K]

structure TokenBucket (K : Type) where
  tokens : K
  /-- Time is credited up to here. -/
  filled : K

namespace TokenBucket

/-- The tokens after a refill. -/
def refilled (rate burst : K) (b : TokenBucket K) (elapsed : K) : K :=
  min (b.tokens + elapsed * rate) burst

/-- Refill for the time `elapsed`, and take a token if there is one. -/
def take (rate burst : K) (b : TokenBucket K) (now elapsed : K) : TokenBucket K × Bool :=
  if b.refilled rate burst elapsed < 1 then (⟨b.refilled rate burst elapsed, now⟩, false)
  else (⟨b.refilled rate burst elapsed - 1, now⟩, true)

/-- The times at which somebody came to the bucket, and whether they got a token. -/
inductive Log (rate burst : K) : TokenBucket K → List (K × Bool) → Prop
  | nil (b : TokenBucket K) : Log rate burst b []
  | cons {b : TokenBucket K} {now elapsed : K} {log : List (K × Bool)}
      (hge : 0 ≤ elapsed) (hle : elapsed ≤ now - b.filled)
      (rest : Log rate burst (b.take rate burst now elapsed).1 log) :
      Log rate burst b ((now, (b.take rate burst now elapsed).2) :: log)

/-- A token was taken in `[s, t]`. -/
def takenIn (s t : K) (p : K × Bool) : Bool :=
  s ≤ p.1 && p.1 ≤ t && p.2

omit [Field K] in
theorem takenIn_iff {s t : K} {p : K × Bool} :
    takenIn s t p = true ↔ s ≤ p.1 ∧ p.1 ≤ t ∧ p.2 = true := by
  simp [takenIn, and_assoc]

variable {rate burst s t now elapsed : K} {b : TokenBucket K} {log : List (K × Bool)}

@[simp] theorem take_filled : (b.take rate burst now elapsed).1.filled = now := by
  unfold take
  split <;> rfl

/-- What is left and what was taken were there after the refill. -/
theorem take_tokens : (b.take rate burst now elapsed).1.tokens
    + (if (b.take rate burst now elapsed).2 then 1 else 0) = b.refilled rate burst elapsed := by
  unfold take
  by_cases h : b.refilled rate burst elapsed < 1
  · simp [h]
  · simp [h]

variable [IsStrictOrderedRing K]

/-- Tokens stay between `0` and `burst`. -/
theorem take_mem (now : K) (hrate : 0 ≤ rate) (hburst : 0 ≤ burst) (hb : 0 ≤ b.tokens)
    (ht : 0 ≤ elapsed) : 0 ≤ (b.take rate burst now elapsed).1.tokens ∧
      (b.take rate burst now elapsed).1.tokens ≤ burst := by
  have hfill : 0 ≤ b.refilled rate burst elapsed :=
    le_min (add_nonneg hb (mul_nonneg ht hrate)) hburst
  have hfull : b.refilled rate burst elapsed ≤ burst := min_le_right _ _
  unfold take
  by_cases h : b.refilled rate burst elapsed < 1
  · rw [if_pos h]
    exact ⟨hfill, hfull⟩
  · rw [if_neg h]
    have hone := not_lt.mp h
    exact ⟨sub_nonneg.mpr hone, (sub_le_self _ zero_le_one).trans hfull⟩

/-- Nobody in a log comes before the time the bucket is filled to. -/
theorem Log.filled_le (h : Log rate burst b log) : ∀ p ∈ log, b.filled ≤ p.1 := by
  induction h with
  | nil b => simp
  | @cons b now elapsed log hge hle rest ih =>
    have hnow : b.filled ≤ now := sub_nonneg.mp (hge.trans hle)
    intro p hp
    obtain rfl | hp := List.mem_cons.mp hp
    · exact hnow
    · have := ih p hp
      rw [take_filled] at this
      exact hnow.trans this

/-- An interval that is over before the first one comes sees nobody. -/
theorem Log.taken_eq_zero (rest : Log rate burst (b.take rate burst now elapsed).1 log)
    (ht : t < now) (granted : Bool) : ((now, granted) :: log).countP (takenIn s t) = 0 := by
  refine List.countP_eq_zero.mpr fun p hp => ?_
  have hlate : t < p.1 := by
    obtain rfl | hp := List.mem_cons.mp hp
    · exact ht
    · have := rest.filled_le p hp
      rw [take_filled] at this
      exact ht.trans_le this
  simp [takenIn, hlate]

/-- Whoever comes takes one token at most, and only if there is one. -/
theorem countP_cons_le (s t now : K) (granted : Bool) (log : List (K × Bool)) :
    ((((now, granted) :: log).countP (takenIn s t) : ℕ) : K)
      ≤ log.countP (takenIn s t) + (if granted then 1 else 0) := by
  rw [List.countP_cons]
  push_cast
  gcongr
  cases granted with
  | false => simp [takenIn]
  | true =>
    show (if takenIn s t (now, true) = true then (1 : K) else 0) ≤ 1
    split_ifs
    · exact le_rfl
    · exact zero_le_one

/-- One step of the potential: what is taken from now on comes out of the refilled bucket, or is
credited later. -/
theorem taken_cons_le (hrest : (log.countP (takenIn s t) : K)
      ≤ (b.take rate burst now elapsed).1.tokens + (t - now) * rate) :
    ((((now, (b.take rate burst now elapsed).2) :: log).countP (takenIn s t) : ℕ) : K)
      ≤ b.refilled rate burst elapsed + (t - now) * rate := by
  calc ((((now, (b.take rate burst now elapsed).2) :: log).countP (takenIn s t) : ℕ) : K)
      ≤ log.countP (takenIn s t) + (if (b.take rate burst now elapsed).2 then 1 else 0) :=
        countP_cons_le s t now _ log
    _ ≤ (b.take rate burst now elapsed).1.tokens + (t - now) * rate
          + (if (b.take rate burst now elapsed).2 then 1 else 0) := by gcongr
    _ = b.refilled rate burst elapsed + (t - now) * rate := by rw [← take_tokens]; ring

/-- What is taken until `t` was in the bucket or is credited until `t`. -/
theorem Log.taken_le_of_filled (h : Log rate burst b log) (hrate : 0 ≤ rate) (hburst : 0 ≤ burst)
    (hb : 0 ≤ b.tokens) (ht : b.filled ≤ t) :
    (log.countP (takenIn s t) : K) ≤ b.tokens + (t - b.filled) * rate := by
  induction h with
  | nil b =>
    simpa using add_nonneg hb (mul_nonneg (sub_nonneg.mpr ht) hrate)
  | @cons b now elapsed log hge hle rest ih =>
    obtain hlt | hnow := lt_or_ge t now
    · rw [rest.taken_eq_zero hlt, Nat.cast_zero]
      exact add_nonneg hb (mul_nonneg (sub_nonneg.mpr ht) hrate)
    · have hrest := ih (take_mem now hrate hburst hb hge).1 (by rwa [take_filled])
      rw [take_filled] at hrest
      -- a refill that does not fit is lost, which only helps
      calc ((((now, (b.take rate burst now elapsed).2) :: log).countP (takenIn s t) : ℕ) : K)
          ≤ b.refilled rate burst elapsed + (t - now) * rate := taken_cons_le hrest
        _ ≤ b.tokens + elapsed * rate + (t - now) * rate := by gcongr; exact min_le_left _ _
        _ = b.tokens + (elapsed + (t - now)) * rate := by ring
        _ ≤ b.tokens + (t - b.filled) * rate := by gcongr; linarith

/-- No interval sees more tokens taken than a full bucket has and its length credits. -/
theorem Log.taken_le (h : Log rate burst b log) (hrate : 0 ≤ rate) (hburst : 0 ≤ burst)
    (hb : 0 ≤ b.tokens) (hst : s ≤ t) :
    (log.countP (takenIn s t) : K) ≤ burst + (t - s) * rate := by
  induction h with
  | nil b => simpa using add_nonneg hburst (mul_nonneg (sub_nonneg.mpr hst) hrate)
  | @cons b now elapsed log hge hle rest ih =>
    have hleft := take_mem now hrate hburst hb hge
    obtain hbefore | hs := lt_or_ge now s
    · -- before the interval: whatever happens here, the bucket is no fuller than `burst`
      rw [List.countP_cons_of_neg (by simp [takenIn, hbefore])]
      exact ih hleft.1
    obtain hlt | hnow := lt_or_ge t now
    · rw [rest.taken_eq_zero hlt, Nat.cast_zero]
      exact add_nonneg hburst (mul_nonneg (sub_nonneg.mpr hst) hrate)
    · -- the first one in the interval: from here on the potential bounds what is taken
      have hrest := rest.taken_le_of_filled (s := s) (t := t) hrate hburst hleft.1
        (by rwa [take_filled])
      rw [take_filled] at hrest
      calc ((((now, (b.take rate burst now elapsed).2) :: log).countP (takenIn s t) : ℕ) : K)
          ≤ b.refilled rate burst elapsed + (t - now) * rate := taken_cons_le hrest
        _ ≤ burst + (t - s) * rate := by gcongr; exact min_le_right _ _

end TokenBucket

end Framework
