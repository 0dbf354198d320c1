import BoilerPulse.Storage.LsmInvariant
import BoilerPulse.Storage.StateMachine

/-!
# Storage: the arithmetic of TTLs

A TTL comes in as a number of seconds and becomes a `time.Duration`, an `int64` of nanoseconds
(`handlePut`, `Apply`). `Put` adds it to the clock, which is exact, and keeps the instant in the
memtable as it is; in a log record and in a table file it is an `int64` of nanoseconds again, and
`0` there means none. So there are two places where it can wrap around, and one instant that cannot
be told from no expiry.

`ExactExpiry` says that none of this happens: the entry expires at the instant it should, or not at
all, and both ways through the files give it back. `exactExpiry_iff` has the exact range.
-/

namespace BoilerPulse
namespace Storage

/-- `time.Duration(ttlSeconds) * time.Second`. -/
def ttlDuration (ttlSeconds : ℤ) : ℤ :=
  wrap64 (ttlSeconds * 10 ^ 9)

theorem wrap64_eq_self_iff {i : ℤ} : wrap64 i = i ↔ FitsInt64 i :=
  ⟨fun h => h ▸ fitsInt64_wrap64 i, wrap64_of_fits⟩

/-- The instants that survive the way through a file. -/
theorem ofUnixNano_unixNano_iff {t : ℤ} :
    ofUnixNano (unixNano (some t)) = some t ↔ t ≠ 0 ∧ FitsInt64 t := by
  constructor
  · intro h
    rw [unixNano] at h
    by_cases hne : wrap64 t ≠ 0
    · rw [ofUnixNano, if_pos hne] at h
      have hwrap : wrap64 t = t := Option.some.inj h
      exact ⟨fun hzero => hne (hwrap.trans hzero), wrap64_eq_self_iff.mp hwrap⟩
    · rw [ofUnixNano, if_neg hne] at h
      cases h
  · intro h
    exact ofUnixNano_unixNano fun x hx => Option.some.inj hx ▸ h

/-- Where a TTL in seconds ought to lead. -/
def exactExpiryOf (now ttlSeconds : ℤ) : Option ℤ :=
  if ttlSeconds = 0 then none else some (now + ttlSeconds * 10 ^ 9)

/-- **The expiry of a `Put` is exact**: in the entry that goes into the memtable, in the one that
its log record is replayed to, and in the one that is read back from a table after a flush. -/
structure ExactExpiry (now ttlSeconds : ℤ) : Prop where
  stored : ∀ seq key value consistency,
    ((Request.put now key value consistency (ttlDuration ttlSeconds)).op seq).entry.expiresAt
      = exactExpiryOf now ttlSeconds
  replayed : ∀ seq key value consistency, (recordEntry
      ((Request.put now key value consistency (ttlDuration ttlSeconds)).op seq).record).map
      Entry.expiresAt = some (exactExpiryOf now ttlSeconds)
  flushed : ∀ seq key value consistency, (toStorageEntry (toSSTableEntry key
      ((Request.put now key value consistency (ttlDuration ttlSeconds)).op seq).entry)).expiresAt
        = exactExpiryOf now ttlSeconds

/-- All three places at once. -/
theorem exactExpiry_iff_expiryOf {now ttlSeconds : ℤ} : ExactExpiry now ttlSeconds ↔
    expiryOf now (ttlDuration ttlSeconds) = exactExpiryOf now ttlSeconds ∧
      ofUnixNano (unixNano (exactExpiryOf now ttlSeconds)) = exactExpiryOf now ttlSeconds := by
  constructor
  · intro h
    have hstored : expiryOf now (ttlDuration ttlSeconds) = exactExpiryOf now ttlSeconds :=
      h.stored 0 [] [] []
    refine ⟨hstored, ?_⟩
    conv_lhs => rw [← hstored]
    exact h.flushed 0 [] [] []
  · rintro ⟨hstored, hfile⟩
    have hread : ofUnixNano (unixNano (expiryOf now (ttlDuration ttlSeconds)))
        = exactExpiryOf now ttlSeconds := by
      rw [hstored]
      exact hfile
    exact ⟨fun _ _ _ _ => hstored, fun _ _ _ _ => congrArg some hread, fun _ _ _ _ => hread⟩

/-- A TTL that wraps around does not lead where it should, whether it ends up negative, zero or
positive. -/
theorem expiryOf_ttlDuration_iff {now ttlSeconds : ℤ} (hnonneg : 0 ≤ ttlSeconds)
    (hne : ttlSeconds ≠ 0) : expiryOf now (ttlDuration ttlSeconds) = exactExpiryOf now ttlSeconds ↔
      ttlSeconds * 10 ^ 9 < 2 ^ 63 := by
  rw [exactExpiryOf, if_neg hne]
  constructor
  · intro h
    unfold expiryOf at h
    split at h
    · have hwrap : ttlDuration ttlSeconds = ttlSeconds * 10 ^ 9 :=
        add_left_cancel (Option.some.inj h)
      exact (wrap64_eq_self_iff.mp hwrap).2
    · cases h
  · intro h
    have hwrap : ttlDuration ttlSeconds = ttlSeconds * 10 ^ 9 :=
      wrap64_of_fits ⟨by omega, h⟩
    rw [hwrap, expiryOf, if_pos (by omega)]

/-- **The arithmetic is exact exactly for a TTL of `0`, and for one that is less than `2 ^ 63`
nanoseconds and leads to an instant other than `0` that fits into `int64` nanoseconds.** -/
theorem exactExpiry_iff {now ttlSeconds : ℤ} (hnonneg : 0 ≤ ttlSeconds) :
    ExactExpiry now ttlSeconds ↔
      ttlSeconds = 0 ∨ (ttlSeconds * 10 ^ 9 < 2 ^ 63 ∧ now + ttlSeconds * 10 ^ 9 ≠ 0 ∧
        FitsInt64 (now + ttlSeconds * 10 ^ 9)) := by
  rw [exactExpiry_iff_expiryOf]
  by_cases hzero : ttlSeconds = 0
  · subst hzero
    exact iff_of_true ⟨rfl, rfl⟩ (.inl rfl)
  · rw [expiryOf_ttlDuration_iff hnonneg hzero, exactExpiryOf, if_neg hzero,
      ofUnixNano_unixNano_iff, or_iff_right hzero]

/-- An hour, set half a century after the epoch. -/
theorem exactExpiry_of_an_hour : ExactExpiry 1577836800000000000 3600 :=
  (exactExpiry_iff (by decide)).mpr (.inr (by decide))

/-- **Large TTLs.** Of `9223372037` seconds the expiry is dropped, `18446744074` seconds are over
after a third of one, and `9000000000` seconds after the first days of 2020 are kept in the
memtable, but in the log and in a table file they ended before the epoch. -/
theorem large_ttls_wrap_around :
    ((Request.put 0 [97] [1] [83] (ttlDuration 9223372037)).op 1).entry.expiresAt = none ∧
      ((Request.put 0 [97] [1] [83] (ttlDuration 18446744074)).op 1).entry.expiresAt
        = some 290448384 ∧
      ((Request.put 1577836800000000000 [97] [1] [83]
        (ttlDuration 9000000000)).op 1).entry.expiresAt = some 10577836800000000000 ∧
      (recordEntry ((Request.put 1577836800000000000 [97] [1] [83]
        (ttlDuration 9000000000)).op 1).record).map Entry.expiresAt
          = some (some (-7868907273709551616)) ∧
      (toStorageEntry (toSSTableEntry [97] ((Request.put 1577836800000000000 [97] [1] [83]
        (ttlDuration 9000000000)).op 1).entry)).expiresAt = some (-7868907273709551616) ∧
      ¬ ExactExpiry 0 9223372037 ∧ ¬ ExactExpiry 0 18446744074 ∧
      ¬ ExactExpiry 1577836800000000000 9000000000 := by
  refine ⟨by decide, by decide, by decide, by decide, by decide, fun h => ?_, fun h => ?_,
    fun h => ?_⟩
  · exact absurd (h.stored 1 [97] [1] [83]) (by decide)
  · exact absurd (h.stored 1 [97] [1] [83]) (by decide)
  · exact absurd (h.flushed 1 [97] [1] [83]) (by decide)

end Storage
end BoilerPulse
