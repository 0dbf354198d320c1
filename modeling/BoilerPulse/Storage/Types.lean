import Mathlib.Algebra.Ring.Int.Defs
import Mathlib.Algebra.Ring.Nat
import Mathlib.Data.Int.Basic
import Mathlib.Order.Basic

/-!
# Storage: keys, instants and entries

What the storage engines share (`storage.go`). Go strings are byte strings, so keys and
consistency policies are lists of bytes. An instant is a number of nanoseconds since the Unix
epoch, of any size; the zero `time.Time`, which stands for *no expiry*, is `none`. Where the
source goes through `int64` — `UnixNano`, and the fields of the files — the number is wrapped
(`wrap64`).
-/

namespace BoilerPulse
namespace Storage

abbrev Bytes := List UInt8

abbrev Key := Bytes

/-! ### 64-bit numbers -/

/-- The conversion to `int64`. -/
def wrap64 (i : ℤ) : ℤ :=
  Int.bmod i (2 ^ 64)

/-- The numbers an `int64` can hold. -/
def FitsInt64 (i : ℤ) : Prop :=
  -2 ^ 63 ≤ i ∧ i < 2 ^ 63

instance FitsInt64.decidable (i : ℤ) : Decidable (FitsInt64 i) :=
  inferInstanceAs (Decidable (-2 ^ 63 ≤ i ∧ i < 2 ^ 63))

theorem fitsInt64_wrap64 (i : ℤ) : FitsInt64 (wrap64 i) := by
  unfold FitsInt64 wrap64
  rw [Int.bmod_def]
  omega

theorem wrap64_of_fits {i : ℤ} (h : FitsInt64 i) : wrap64 i = i := by
  unfold FitsInt64 at h
  unfold wrap64
  rw [Int.bmod_def]
  omega

/-- The bits of an `int64`, as `uint64(i)` gives them. -/
def toUint64 (i : ℤ) : ℕ :=
  (i % 2 ^ 64).toNat

theorem toUint64_lt (i : ℤ) : toUint64 i < 2 ^ 64 := by
  unfold toUint64
  omega

/-- `int64(uint64(i))`. -/
theorem wrap64_toUint64 {i : ℤ} (h : FitsInt64 i) : wrap64 (toUint64 i) = i := by
  unfold FitsInt64 at h
  unfold wrap64 toUint64
  rw [Int.bmod_def]
  omega

/-! ### Entries (`storage.go`) -/

/-- A stored value with its metadata. -/
structure Entry where
  value : Bytes
  consistency : Bytes
  /-- `none` means no expiry. -/
  expiresAt : Option ℤ
  tombstone : Bool
  version : ℕ
  deriving DecidableEq, Repr

/-- `Expired`: the TTL has passed; at the instant of expiry itself it has not. -/
def Entry.expired (e : Entry) (now : ℤ) : Bool :=
  match e.expiresAt with
  | none => false
  | some at_ => at_ < now

/-- The entry is not visible to a reader: `Tombstone || Expired(now)`. -/
def Entry.dead (now : ℤ) (e : Entry) : Bool :=
  e.tombstone || e.expired now

theorem Entry.dead_mono (t t' : ℤ) (e : Entry) (h : t ≤ t') (hd : e.dead t = true) :
    e.dead t' = true := by
  unfold Entry.dead Entry.expired at hd ⊢
  rw [Bool.or_eq_true] at hd ⊢
  refine hd.imp id fun hexp => ?_
  cases hx : e.expiresAt with
  | none => rw [hx] at hexp; exact hexp
  | some x =>
    rw [hx] at hexp
    simp only [decide_eq_true_eq] at hexp ⊢
    omega

/-- Without an expiry the clock does not matter. -/
theorem Entry.dead_eq_tombstone {e : Entry} (h : e.expiresAt = none) (t : ℤ) :
    e.dead t = e.tombstone := by
  simp [Entry.dead, Entry.expired, h]

/-- The entry `Delete` leaves. -/
def Entry.deleted (version : ℕ) : Entry :=
  ⟨[], [], none, true, version⟩

/-- The lengths that the files have room for: the key's in two bytes, the consistency's in one, and
that of a whole record, which has 32 bytes besides them, in four. Longer ones are written with a
length that has wrapped around, and are not read back. -/
def LengthsFit (key value consistency : Bytes) : Prop :=
  key.length < 2 ^ 16 ∧ consistency.length < 2 ^ 8 ∧
    32 + key.length + consistency.length + value.length < 2 ^ 32

instance LengthsFit.decidable (key value consistency : Bytes) :
    Decidable (LengthsFit key value consistency) :=
  inferInstanceAs (Decidable (_ ∧ _ ∧ _))

/-- A tombstone has nothing but its key. -/
theorem LengthsFit.key_alone {key value consistency : Bytes} (h : LengthsFit key value consistency) :
    LengthsFit key [] [] := by
  obtain ⟨hkey, -, -⟩ := h
  refine ⟨hkey, by decide, ?_⟩
  simp only [List.length_nil]
  omega

/-- Where a TTL leads: `now.Add(ttl)` for a positive one, no expiry otherwise. -/
def expiryOf (now ttl : ℤ) : Option ℤ :=
  if 0 < ttl then some (now + ttl) else none

/-- What the calls of an engine return instead of a result: `ErrKeyNotFound`, or an error with the
texts it was wrapped in, the outermost first. -/
inductive Error where
  | keyNotFound
  | failed (context : List String)
  deriving DecidableEq, Repr

end Storage
end BoilerPulse
