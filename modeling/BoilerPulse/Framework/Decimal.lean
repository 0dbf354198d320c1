import Mathlib.Data.Nat.Log
import Mathlib.Data.List.TakeWhile
import Mathlib.Algebra.Ring.Nat

/-!
# Digits

Numbers as ASCII digits: `fixed w n` has `w` of them, `natText n` as many as `n` needs, and
`intText` puts a sign before a negative number. `readNat` and `readInt` take a whole text that
is made of digits and give the number back, and `takeFixed` takes a fixed number of digits from
the front of a longer one. Hexadecimal digits are single ones only.
-/

namespace Framework
namespace Decimal

variable {w n : ℕ}

/-- The digit `d`, for `d < 10`. -/
def digit (d : ℕ) : UInt8 :=
  UInt8.ofNat (48 + d)

def isDigit (b : UInt8) : Bool :=
  48 ≤ b && b ≤ 57

def value (b : UInt8) : ℕ :=
  b.toNat - 48

/-- The last `w` digits of `n`. -/
def fixed : ℕ → ℕ → List UInt8
  | 0, _ => []
  | w + 1, n => fixed w (n / 10) ++ [digit (n % 10)]

def natText (n : ℕ) : List UInt8 :=
  fixed (Nat.log 10 n + 1) n

/-- `-` is byte 45. -/
def intText (i : ℤ) : List UInt8 :=
  if i < 0 then 45 :: natText i.natAbs else natText i.natAbs

def readNat (s : List UInt8) : Option ℕ :=
  if s ≠ [] ∧ s.all isDigit then some (s.foldl (fun n b => n * 10 + value b) 0) else none

def readInt (s : List UInt8) : Option ℤ :=
  match s with
  | 45 :: ds => (readNat ds).map fun n : ℕ => -(n : ℤ)
  | ds => (readNat ds).map fun n : ℕ => (n : ℤ)

/-- The number in the first `w` bytes, and what follows them. -/
def takeFixed (w : ℕ) (s : List UInt8) : Option (ℕ × List UInt8) :=
  if w ≤ s.length then (readNat (s.take w)).map fun n => (n, s.drop w) else none

theorem isDigit_digit : ∀ d < 10, isDigit (digit d) = true := by decide

theorem value_digit : ∀ d < 10, value (digit d) = d := by decide

theorem digit_eq_zero : ∀ d < 10, digit d = 48 → d = 0 := by decide

@[simp] theorem length_fixed (w n : ℕ) : (fixed w n).length = w := by
  induction w generalizing n with
  | zero => rfl
  | succ w ih => rw [fixed, List.length_append, ih, List.length_singleton]

theorem all_isDigit_fixed (w n : ℕ) : (fixed w n).all isDigit = true := by
  induction w generalizing n with
  | zero => rfl
  | succ w ih =>
    rw [fixed, List.all_append, ih, Bool.true_and, List.all_cons, List.all_nil, Bool.and_true]
    exact isDigit_digit _ (Nat.mod_lt n (by decide))

theorem ascii_of_isDigit {b : UInt8} (h : isDigit b = true) : b < 0x80 :=
  UInt8.lt_of_le_of_lt (decide_eq_true_eq.mp (Bool.and_eq_true_iff.mp h).2) (by decide)

theorem ascii_fixed : ∀ b ∈ fixed w n, b < 0x80 := fun b hb =>
  ascii_of_isDigit (List.all_eq_true.mp (all_isDigit_fixed w n) b hb)

theorem foldl_fixed (h : n < 10 ^ w) :
    (fixed w n).foldl (fun n b => n * 10 + value b) 0 = n := by
  induction w generalizing n with
  | zero => rw [fixed, List.foldl_nil]; omega
  | succ w ih =>
    have hdiv : n / 10 < 10 ^ w := by rw [Nat.pow_succ] at h; omega
    rw [fixed, List.foldl_append, ih hdiv, List.foldl_cons, List.foldl_nil,
      value_digit _ (Nat.mod_lt n (by decide))]
    omega

theorem readNat_fixed (hw : 0 < w) (h : n < 10 ^ w) : readNat (fixed w n) = some n := by
  have hne : fixed w n ≠ [] := by
    rw [← List.length_pos_iff, length_fixed]
    exact hw
  rw [readNat, if_pos ⟨hne, all_isDigit_fixed w n⟩, foldl_fixed h]

theorem takeFixed_append (hw : 0 < w) (h : n < 10 ^ w) (rest : List UInt8) :
    takeFixed w (fixed w n ++ rest) = some (n, rest) := by
  have htake : (fixed w n ++ rest).take w = fixed w n := List.take_left' (length_fixed w n)
  have hdrop : (fixed w n ++ rest).drop w = rest := List.drop_left' (length_fixed w n)
  rw [takeFixed, if_pos (by simp), htake, hdrop, readNat_fixed hw h]
  rfl

theorem lt_pow_log (n : ℕ) : n < 10 ^ (Nat.log 10 n + 1) :=
  Nat.lt_pow_succ_log_self (by decide) n

@[simp] theorem readNat_natText (n : ℕ) : readNat (natText n) = some n :=
  readNat_fixed (Nat.succ_pos _) (lt_pow_log n)

theorem all_isDigit_natText (n : ℕ) : (natText n).all isDigit = true :=
  all_isDigit_fixed _ n

/-- The first digit, and the others. -/
theorem fixed_succ (w n : ℕ) : fixed (w + 1) n = digit (n / 10 ^ w % 10) :: fixed w n := by
  induction w generalizing n with
  | zero => simp [fixed]
  | succ w ih =>
    have hlead : n / 10 / 10 ^ w = n / 10 ^ (w + 1) := by
      rw [Nat.div_div_eq_div_mul, ← Nat.pow_succ']
    rw [fixed, ih, List.cons_append, hlead]
    rfl

/-- There is a first digit, which is `0` for the number `0` only. -/
theorem natText_cases (n : ℕ) : natText n = [48] ∨
    ∃ d ds, natText n = d :: ds ∧ isDigit d = true ∧ d ≠ 48 ∧ ds.all isDigit = true := by
  rcases Nat.eq_zero_or_pos n with rfl | hn
  · exact .inl rfl
  · refine .inr ⟨_, _, fixed_succ _ n, isDigit_digit _ (Nat.mod_lt _ (by decide)), ?_,
      all_isDigit_fixed _ n⟩
    intro h0
    have hlead : n / 10 ^ Nat.log 10 n < 10 :=
      Nat.div_lt_of_lt_mul (by rw [← Nat.pow_succ]; exact lt_pow_log n)
    have hpos : 0 < n / 10 ^ Nat.log 10 n :=
      Nat.div_pos (Nat.pow_log_le_self 10 hn.ne') (Nat.pow_pos (by decide))
    have hzero := digit_eq_zero _ (Nat.mod_lt _ (by decide)) h0
    rw [Nat.mod_eq_of_lt hlead] at hzero
    exact hpos.ne' hzero

@[simp] theorem readInt_intText (i : ℤ) : readInt (intText i) = some i := by
  have hnat : ∀ n, readInt (natText n) = some (n : ℤ) := by
    intro n
    have hread := readNat_natText n
    rcases natText_cases n with h | ⟨d, ds, h, hd, -⟩
    · rw [h] at hread ⊢
      rw [readInt, hread]
      · rfl
      · simp
    · rw [h] at hread ⊢
      rw [readInt, hread]
      · rfl
      · -- a sign is not a digit
        rintro ds' ⟨⟩
        exact absurd hd (by decide)
  rw [intText]
  split
  · next hneg =>
    rw [readInt, readNat_natText, Option.map_some]
    congr 1
    omega
  · next hpos =>
    rw [hnat]
    congr 1
    omega

/-! ### Hexadecimal digits -/

/-- A digit in lower case, for `d < 16`. -/
def hexDigit (d : ℕ) : UInt8 :=
  if d < 10 then UInt8.ofNat (48 + d) else UInt8.ofNat (87 + d)

/-- A digit in upper case, for `d < 16`. -/
def upperHexDigit (d : ℕ) : UInt8 :=
  if d < 10 then UInt8.ofNat (48 + d) else UInt8.ofNat (55 + d)

/-- Upper and lower case. -/
def hexValue (c : UInt8) : Option ℕ :=
  if 48 ≤ c ∧ c ≤ 57 then some (c.toNat - 48)
  else if 97 ≤ c ∧ c ≤ 102 then some (c.toNat - 87)
  else if 65 ≤ c ∧ c ≤ 70 then some (c.toNat - 55)
  else none

theorem hexValue_hexDigit : ∀ d < 16, hexValue (hexDigit d) = some d := by decide

theorem hexValue_upperHexDigit : ∀ d < 16, hexValue (upperHexDigit d) = some d := by decide

end Decimal
end Framework
