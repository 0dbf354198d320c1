import Mathlib.Data.List.AList
import Mathlib.Data.Rat.Floor
import BoilerPulse.Framework.TokenBucket

/-!
# Gateway: the rate limiter

`RateLimiter` (`internal/gateway/ratelimit.go`), for any keys. Tokens are exact rationals where the
source has a `float64`, and an instant is a number of nanoseconds.

The buckets of different keys have nothing to do with each other: what a run of `Allow` answers for
one key is what the bucket of that key alone answers to the calls for it
(`RateLimiter.transcript_filter`). Such a bucket is a `Framework.TokenBucket`
(`Bucket.abs_allow`), whose bound is then that of the limiter.
-/

namespace BoilerPulse
namespace Gateway

open Framework

structure RateLimitOptions where
  requestsPerSecond : ℚ
  burst : ℤ

/-- `DefaultRateLimitOptions`. -/
def RateLimitOptions.default : RateLimitOptions :=
  ⟨50, 100⟩

/-- `Time.Sub`, which saturates at the ends of `Duration`. -/
def timeSub (t u : ℤ) : ℤ :=
  max (-2 ^ 63) (min (t - u) (2 ^ 63 - 1))

/-- `Duration.Seconds`. -/
def seconds (d : ℤ) : ℚ :=
  d / 10 ^ 9

structure Bucket where
  tokens : ℚ
  lastFill : ℤ
  deriving DecidableEq

/-- The tokens that `Allow` finds in the bucket of the key. -/
def Bucket.refilled (opts : RateLimitOptions) (b : Bucket) (now : ℤ) : ℚ :=
  let tokens := b.tokens + seconds (timeSub now b.lastFill) * opts.requestsPerSecond
  if tokens > opts.burst then opts.burst else tokens

/-- What `Allow` does with the bucket of the key. -/
def Bucket.allow (opts : RateLimitOptions) (b : Bucket) (now : ℤ) : Bucket × Bool :=
  let tokens := b.refilled opts now
  if tokens < 1 then (⟨tokens, now⟩, false) else (⟨tokens - 1, now⟩, true)

structure RateLimiter (κ : Type) where
  opts : RateLimitOptions
  buckets : AList fun _ : κ => Bucket

/-- A call of `Allow`, with what the clock says when it is read. -/
structure AllowCall (κ : Type) where
  key : κ
  /-- The reading for a bucket that is made by this call; it is not used by the others. -/
  created : ℤ
  now : ℤ
  created_le : created ≤ now

variable {κ : Type}

/-- `NewRateLimiter`. -/
def RateLimiter.new (opts : RateLimitOptions) : RateLimiter κ :=
  ⟨opts, ∅⟩

/-- Time does not go back from one call to the next. -/
def InTimeOrder (calls : List (AllowCall κ)) : Prop :=
  calls.Pairwise fun c d => c.now ≤ d.created

/-- The bucket that is made for a key at the first call. -/
def RateLimitOptions.full (opts : RateLimitOptions) (created : ℤ) : Bucket :=
  ⟨opts.burst, created⟩

variable [DecidableEq κ]

namespace RateLimiter

def allow (rl : RateLimiter κ) (c : AllowCall κ) : RateLimiter κ × Bool :=
  if rl.opts.requestsPerSecond ≤ 0 then (rl, true)
  else
    let b := (rl.buckets.lookup c.key).getD (rl.opts.full c.created)
    let (b, ok) := b.allow rl.opts c.now
    ({ rl with buckets := rl.buckets.insert c.key b }, ok)

/-- The limiter after some calls. -/
def after (rl : RateLimiter κ) (calls : List (AllowCall κ)) : RateLimiter κ :=
  calls.foldl (fun rl c => (rl.allow c).1) rl

/-- Each call with its answer. -/
def transcript (rl : RateLimiter κ) : List (AllowCall κ) → List (AllowCall κ × Bool)
  | [] => []
  | c :: calls => (c, (rl.allow c).2) :: (rl.allow c).1.transcript calls

/-- The answers to the calls for one key. -/
def answers (rl : RateLimiter κ) (key : κ) (calls : List (AllowCall κ)) : List Bool :=
  ((rl.transcript calls).filter fun p => p.1.key = key).map Prod.snd

/-- The number of calls for the key that are answered true within `[s, t]`, in seconds. -/
def granted (rl : RateLimiter κ) (key : κ) (s t : ℚ) (calls : List (AllowCall κ)) : ℕ :=
  (rl.transcript calls).countP fun p =>
    p.1.key = key ∧ s ≤ seconds p.1.now ∧ seconds p.1.now ≤ t ∧ p.2 = true

end RateLimiter

/-! ### One bucket alone -/

/-- What the bucket of one key answers to the calls for it; there may be none yet. -/
def bucketTranscript (opts : RateLimitOptions) :
    Option Bucket → List (AllowCall κ) → List (AllowCall κ × Bool)
  | _, [] => []
  | b, c :: calls =>
    let r := (b.getD (opts.full c.created)).allow opts c.now
    (c, r.2) :: bucketTranscript opts (some r.1) calls

theorem RateLimiter.transcript_filter (rl : RateLimiter κ) (hr : 0 < rl.opts.requestsPerSecond)
    (key : κ) (calls : List (AllowCall κ)) :
    ((rl.transcript calls).filter fun p => p.1.key = key)
      = bucketTranscript rl.opts (rl.buckets.lookup key) (calls.filter fun c => c.key = key) := by
  induction calls generalizing rl with
  | nil => rfl
  | cons c calls ih =>
    have hallow : rl.allow c = _ := if_neg (not_le.mpr hr)
    have hopts : (rl.allow c).1.opts = rl.opts := by rw [hallow]
    have hrest := ih (rl.allow c).1 (by rwa [hopts])
    rw [hopts] at hrest
    by_cases hkey : c.key = key
    · -- the call finds the bucket of the key, or makes one
      subst hkey
      rw [transcript, List.filter_cons_of_pos (by simp), List.filter_cons_of_pos (by simp), hrest,
        bucketTranscript, hallow]
      simp
    · -- a call for another key leaves this bucket as it is
      rw [transcript, List.filter_cons_of_neg (by simpa using hkey),
        List.filter_cons_of_neg (by simpa using hkey), hrest, hallow]
      simp [AList.lookup_insert_ne (Ne.symm hkey)]

theorem RateLimiter.answers_eq (rl : RateLimiter κ) (hr : 0 < rl.opts.requestsPerSecond) (key : κ)
    (calls : List (AllowCall κ)) : rl.answers key calls
      = (bucketTranscript rl.opts (rl.buckets.lookup key)
          (calls.filter fun c => c.key = key)).map Prod.snd := by
  rw [answers, rl.transcript_filter hr]

/-! ### A bucket is a token bucket -/

namespace Bucket

/-- The bucket with its time in seconds. -/
def abs (b : Bucket) : TokenBucket ℚ :=
  ⟨b.tokens, seconds b.lastFill⟩

theorem abs_allow (opts : RateLimitOptions) (b : Bucket) (now : ℤ) :
    b.abs.take opts.requestsPerSecond opts.burst (seconds now) (seconds (timeSub now b.lastFill))
      = ((b.allow opts now).1.abs, (b.allow opts now).2) := by
  have hclamp : b.abs.refilled opts.requestsPerSecond opts.burst (seconds (timeSub now b.lastFill))
      = b.refilled opts now := by
    rw [TokenBucket.refilled, Bucket.refilled, min_def, ← ite_not]
    simp [abs]
  rw [TokenBucket.take, hclamp, allow]
  split <;> rfl

@[simp] theorem allow_lastFill (opts : RateLimitOptions) (b : Bucket) (now : ℤ) :
    (b.allow opts now).1.lastFill = now := by
  unfold allow
  dsimp only
  split <;> rfl

end Bucket

theorem seconds_le_seconds {t u : ℤ} : seconds t ≤ seconds u ↔ t ≤ u := by
  rw [seconds, seconds, div_le_div_iff_of_pos_right (by norm_num), Int.cast_le]

/-- A bucket is not credited with more than the time that has gone by. -/
theorem seconds_timeSub {last now : ℤ} (h : last ≤ now) :
    0 ≤ seconds (timeSub now last) ∧ seconds (timeSub now last) ≤ seconds now - seconds last := by
  have hge : 0 ≤ timeSub now last := by unfold timeSub; omega
  have hle : timeSub now last ≤ now - last := by unfold timeSub; omega
  constructor
  · calc (0 : ℚ) = seconds 0 := by simp [seconds]
      _ ≤ seconds (timeSub now last) := seconds_le_seconds.mpr hge
  · calc seconds (timeSub now last) ≤ seconds (now - last) := seconds_le_seconds.mpr hle
      _ = seconds now - seconds last := by simp [seconds, sub_div]

/-- When a call comes and how it is answered. -/
def stamp (p : AllowCall κ × Bool) : ℚ × Bool :=
  (seconds p.1.now, p.2)

theorem Bucket.allow_tokens {opts : RateLimitOptions} {b : Bucket} {now : ℤ}
    (hr : 0 < opts.requestsPerSecond) (hb : 0 ≤ opts.burst) (htokens : 0 ≤ b.tokens)
    (hnow : b.lastFill ≤ now) :
    0 ≤ (b.allow opts now).1.tokens ∧ (b.allow opts now).1.tokens ≤ opts.burst := by
  have hmem := TokenBucket.take_mem (b := b.abs) (seconds now) hr.le (Int.cast_nonneg hb) htokens
    (seconds_timeSub hnow).1
  rwa [b.abs_allow] at hmem

omit [DecidableEq κ] in
/-- A bucket's answers are the log of a token bucket. -/
theorem Bucket.log (opts : RateLimitOptions) (b : Bucket) (calls : List (AllowCall κ))
    (horder : InTimeOrder calls) (hlast : ∀ c ∈ calls, b.lastFill ≤ c.created) :
    TokenBucket.Log opts.requestsPerSecond opts.burst b.abs
      ((bucketTranscript opts (some b) calls).map stamp) := by
  induction calls generalizing b with
  | nil => exact .nil _
  | cons c calls ih =>
    obtain ⟨hnext, horder⟩ := List.pairwise_cons.mp horder
    have hnow : b.lastFill ≤ c.now := (hlast c (by simp)).trans c.created_le
    have hrest := ih (b.allow opts c.now).1 horder (by simpa using hnext)
    have htake := b.abs_allow opts c.now
    have hcons := TokenBucket.Log.cons (seconds_timeSub hnow).1 (seconds_timeSub hnow).2
      (b := b.abs) (by rwa [htake])
    rwa [htake] at hcons

omit [DecidableEq κ] in
/-- So are the answers to the calls for a key that has no bucket yet. -/
theorem log_bucketTranscript (opts : RateLimitOptions) (calls : List (AllowCall κ))
    (horder : InTimeOrder calls) : ∃ created, TokenBucket.Log opts.requestsPerSecond opts.burst
      (opts.full created).abs ((bucketTranscript opts none calls).map stamp) := by
  cases calls with
  | nil => exact ⟨0, .nil _⟩
  | cons c calls =>
    -- the bucket is made by the first call, which reads the clock again to take its token
    refine ⟨c.created, (opts.full c.created).log opts (c :: calls) horder fun d hd => ?_⟩
    obtain rfl | hd := List.mem_cons.mp hd
    · exact le_rfl
    · exact c.created_le.trans ((List.pairwise_cons.mp horder).1 d hd)

/-! ### The limiter -/

namespace RateLimiter

theorem granted_eq (rl : RateLimiter κ) (key : κ) (s t : ℚ) (calls : List (AllowCall κ)) :
    rl.granted key s t calls
      = (((rl.transcript calls).filter fun p => p.1.key = key).map stamp).countP
          (TokenBucket.takenIn s t) := by
  rw [granted, List.countP_map, List.countP_filter]
  refine List.countP_congr fun p _ => ?_
  rw [decide_eq_true_eq, Bool.and_eq_true, Function.comp_apply, TokenBucket.takenIn_iff,
    decide_eq_true_eq, and_comm]
  rfl

/-- The tokens of every bucket are between `0` and the burst, and no bucket is filled beyond the
calls that are still to come. -/
structure Within (opts : RateLimitOptions) (rl : RateLimiter κ) (calls : List (AllowCall κ)) :
    Prop where
  opts_eq : rl.opts = opts
  tokens : ∀ key b, rl.buckets.lookup key = some b → 0 ≤ b.tokens ∧ b.tokens ≤ opts.burst
  lastFill_le : ∀ key b, rl.buckets.lookup key = some b → ∀ c ∈ calls, b.lastFill ≤ c.created

theorem Within.allow {opts : RateLimitOptions} {rl : RateLimiter κ} {c : AllowCall κ}
    {calls : List (AllowCall κ)} (h : Within opts rl (c :: calls)) (hr : 0 < opts.requestsPerSecond)
    (hb : 0 ≤ opts.burst) (horder : InTimeOrder (c :: calls)) :
    Within opts (rl.allow c).1 calls := by
  obtain ⟨rfl, htokens, hfill⟩ := h
  have hnext := (List.pairwise_cons.mp horder).1
  -- the bucket of the key may be a new one
  have hfound : ∀ b, (rl.buckets.lookup c.key).getD (rl.opts.full c.created) = b →
      0 ≤ b.tokens ∧ b.lastFill ≤ c.now := by
    rintro b rfl
    cases hlookup : rl.buckets.lookup c.key with
    | none => exact ⟨Int.cast_nonneg hb, c.created_le⟩
    | some b =>
      exact ⟨(htokens c.key b hlookup).1,
        (hfill c.key b hlookup c (by simp)).trans c.created_le⟩
  obtain ⟨hge, hnow⟩ := hfound _ rfl
  rw [RateLimiter.allow, if_neg (not_le.mpr hr)]
  refine ⟨rfl, fun key b hlookup => ?_, fun key b hlookup d hd => ?_⟩
  -- either it is the bucket that the call has written, or one that it has not touched
  all_goals
    dsimp only at hlookup
    by_cases hkey : key = c.key
  · rw [hkey, AList.lookup_insert, Option.some.injEq] at hlookup
    rw [← hlookup]
    exact Bucket.allow_tokens hr hb hge hnow
  · rw [AList.lookup_insert_ne hkey] at hlookup
    exact htokens key b hlookup
  · rw [hkey, AList.lookup_insert, Option.some.injEq] at hlookup
    rw [← hlookup, Bucket.allow_lastFill]
    exact hnext d hd
  · rw [AList.lookup_insert_ne hkey] at hlookup
    exact hfill key b hlookup d (List.mem_cons_of_mem _ hd)

/-- `Within` when all the calls are made. -/
theorem Within.after {opts : RateLimitOptions} {rl : RateLimiter κ} {calls : List (AllowCall κ)}
    (h : Within opts rl calls) (hr : 0 < opts.requestsPerSecond) (hb : 0 ≤ opts.burst)
    (horder : InTimeOrder calls) : Within opts (rl.after calls) [] := by
  induction calls generalizing rl with
  | nil => exact h
  | cons c calls ih => exact ih (h.allow hr hb horder) (List.pairwise_cons.mp horder).2

theorem within_new (opts : RateLimitOptions) (calls : List (AllowCall κ)) :
    Within opts (new opts) calls :=
  ⟨rfl, by simp [new], by simp [new]⟩

/-- However the calls for all the keys are mixed, within any `[s, t]` at most `burst + r * (t - s)`
of those for one key are let through, no bucket ever holds less than nothing or more than the
burst, and what one key is answered depends on the calls for that key alone. -/
theorem allow_bounded (opts : RateLimitOptions) (hr : 0 < opts.requestsPerSecond)
    (hb : 0 ≤ opts.burst) (calls : List (AllowCall κ)) (horder : InTimeOrder calls) :
    (∀ key s t, s ≤ t → ((new opts).granted key s t calls : ℚ)
      ≤ opts.burst + opts.requestsPerSecond * (t - s)) ∧
    (∀ n key b, ((new opts).after (calls.take n)).buckets.lookup key = some b →
      0 ≤ b.tokens ∧ b.tokens ≤ opts.burst) ∧
    ∀ key calls', ((calls' : List (AllowCall κ)).filter fun c => c.key = key)
        = (calls.filter fun c => c.key = key) →
      (new opts).answers key calls' = (new opts).answers key calls := by
  refine ⟨fun key s t hst => ?_, fun n key b hlookup => ?_, fun key calls' hsame => ?_⟩
  · have hfilter := (new opts).transcript_filter hr key calls
    obtain ⟨created, hlog⟩ := log_bucketTranscript opts (calls.filter fun c => c.key = key)
      (horder.filter _)
    rw [granted_eq, hfilter, mul_comm]
    exact hlog.taken_le hr.le (Int.cast_nonneg hb) (Int.cast_nonneg hb) hst
  · have horder' : InTimeOrder (calls.take n) := horder.sublist (calls.take_sublist n)
    exact ((within_new opts (calls.take n)).after hr hb horder').tokens key b hlookup
  · rw [answers_eq _ hr, answers_eq _ hr, hsame]

/-- One call per second and no more than two at once: the third of three calls at the same time is
refused, and a second later there is a token again. -/
theorem allow_bounded_of_four :
    let opts : RateLimitOptions := ⟨1, 2⟩
    let at' (key : ℕ) (now : ℤ) : AllowCall ℕ := ⟨key, now, now, Int.le_refl now⟩
    let calls := [at' 7 0, at' 7 0, at' 8 0, at' 7 0, at' 7 1000000000]
    (new opts).answers 7 calls = [true, true, false, true] ∧
      ((new opts).granted 7 0 1 calls : ℚ) ≤ opts.burst + opts.requestsPerSecond * (1 - 0) := by
  intro opts at' calls
  refine ⟨by decide +kernel, (allow_bounded opts (by decide +kernel) (by decide) calls ?_).1 7 0 1
    (by decide +kernel)⟩
  show calls.Pairwise fun c d => c.now ≤ d.created
  decide

/-- The default options do limit. -/
example : 0 < RateLimitOptions.default.requestsPerSecond ∧ 0 ≤ RateLimitOptions.default.burst := by
  decide +kernel

end RateLimiter

end Gateway
end BoilerPulse
