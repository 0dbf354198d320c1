import Mathlib.Algebra.Ring.Nat
import Mathlib.Data.Char
import Mathlib.Data.Nat.Log
import Mathlib.Data.List.Lex
import Mathlib.Data.List.TakeWhile

/-!
# Storage: the names of table files

A table file is named after its number, with at least six digits (`flush.go`), and `Open` sorts the
names as strings and reads the numbers off them, six digits at most (`recovery.go`). Up to
`999999` that is the order of the numbers (`sstableFileName_lt`) and the number comes back
(`scanSeq_sstableFileName`). From `1000000` on the sixth digit is followed by another one instead of
the suffix, and nothing comes back (`scanSeq_of_seven_digits`); different numbers still have
different names (`sstableFileName_injective`).
-/

namespace BoilerPulse
namespace Storage

variable {n : ℕ}

/-- The last `w` decimal digits of `n`. -/
def decimal : ℕ → ℕ → List Char
  | 0, _ => []
  | w + 1, n => decimal w (n / 10) ++ [Nat.digitChar (n % 10)]

/-- `fmt.Sprintf("%06d.sst", seq)`: at least six digits. -/
def sstableFileName (seq : ℕ) : List Char :=
  decimal (max 6 (Nat.log 10 seq + 1)) seq ++ ['.', 's', 's', 't']

/-- `fmt.Sscanf(name, "%06d.sst", &n)`: at most six digits are read, and the rest of the format has
to follow them. -/
def scanSeq (name : List Char) : Option ℕ :=
  let digits := (name.take 6).takeWhile Char.isDigit
  if digits ≠ [] ∧ ['.', 's', 's', 't'] <+: name.drop digits.length then
    some (digits.foldl (fun n c => n * 10 + (c.toNat - '0'.toNat)) 0)
  else none

/-! ### Digits -/

@[simp] theorem length_decimal (w n : ℕ) : (decimal w n).length = w := by
  induction w generalizing n with
  | zero => rfl
  | succ w ih => rw [decimal, List.length_append, ih, List.length_singleton]

theorem isDigit_digitChar : ∀ d < 10, (Nat.digitChar d).isDigit = true := by decide

theorem toNat_digitChar : ∀ d < 10, (Nat.digitChar d).toNat - '0'.toNat = d := by decide

theorem digitChar_lt : ∀ d < 10, ∀ d' < 10, d < d' → Nat.digitChar d < Nat.digitChar d' := by decide

theorem isDigit_of_mem_decimal {w n : ℕ} {c : Char} (h : c ∈ decimal w n) : c.isDigit = true := by
  induction w generalizing n with
  | zero => cases h
  | succ w ih =>
    rcases List.mem_append.mp h with hc | hc
    · exact ih hc
    · rw [List.mem_singleton.mp hc]
      exact isDigit_digitChar _ (Nat.mod_lt n (by decide))

/-- Reading the digits back. -/
theorem foldl_decimal {w n : ℕ} (h : n < 10 ^ w) :
    (decimal w n).foldl (fun n c => n * 10 + (c.toNat - '0'.toNat)) 0 = n := by
  induction w generalizing n with
  | zero => rw [decimal, List.foldl_nil]; omega
  | succ w ih =>
    have hdiv : n / 10 < 10 ^ w := by rw [Nat.pow_succ] at h; omega
    rw [decimal, List.foldl_append, ih hdiv, List.foldl_cons, List.foldl_nil,
      toNat_digitChar _ (Nat.mod_lt n (by decide))]
    omega

/-- Lists of the same length are compared where they first differ. -/
theorem append_lt_append {a b : List Char} (hlen : a.length = b.length) (h : a < b)
    (c d : List Char) : a ++ c < b ++ d := by
  induction a generalizing b with
  | nil =>
    rw [List.length_nil, eq_comm, List.length_eq_zero_iff] at hlen
    subst hlen
    cases h
  | cons x a ih =>
    cases b with
    | nil => cases hlen
    | cons y b =>
      rw [List.cons_append, List.cons_append]
      rw [List.cons_lt_cons_iff] at h ⊢
      exact h.imp id fun ⟨hxy, hab⟩ => ⟨hxy, ih (Nat.succ.inj hlen) hab⟩

theorem append_lt_append_left (a : List Char) {c d : List Char} (h : c < d) : a ++ c < a ++ d := by
  induction a with
  | nil => exact h
  | cons x a ih =>
    rw [List.cons_append, List.cons_append, List.cons_lt_cons_iff]
    exact .inr ⟨rfl, ih⟩

theorem decimal_lt {w m n : ℕ} (hn : n < 10 ^ w) (h : m < n) : decimal w m < decimal w n := by
  induction w generalizing m n with
  | zero => exact absurd hn (by omega)
  | succ w ih =>
    have hdiv : n / 10 < 10 ^ w := by rw [Nat.pow_succ] at hn; omega
    rw [decimal, decimal]
    rcases Nat.lt_or_ge (m / 10) (n / 10) with hlt | hge
    · exact append_lt_append (by simp) (ih hdiv hlt) _ _
    · -- only the last digits differ
      have heq : m / 10 = n / 10 := Nat.le_antisymm (Nat.div_le_div_right h.le) hge
      rw [heq]
      refine append_lt_append_left _ (List.cons_lt_cons_iff.mpr (.inl ?_))
      exact digitChar_lt _ (Nat.mod_lt m (by decide)) _ (Nat.mod_lt n (by decide)) (by omega)

/-! ### Numbers of at most six digits -/

theorem sstableFileName_eq (h : n < 10 ^ 6) :
    sstableFileName n = decimal 6 n ++ ['.', 's', 's', 't'] := by
  have hlog : Nat.log 10 n + 1 ≤ 6 := by
    by_cases h0 : n = 0
    · subst h0; decide
    · exact Nat.log_lt_of_lt_pow h0 h
  rw [sstableFileName, Nat.max_eq_left hlog]

/-- Names sort like their numbers. -/
theorem sstableFileName_lt {m n : ℕ} (hn : n < 10 ^ 6) (h : m < n) :
    sstableFileName m < sstableFileName n := by
  rw [sstableFileName_eq (h.trans hn), sstableFileName_eq hn]
  exact append_lt_append (by simp) (decimal_lt hn h) _ _

/-- The number is read off the name. -/
theorem scanSeq_sstableFileName (h : n < 10 ^ 6) :
    scanSeq (sstableFileName n) = some n := by
  have hdigits : ((sstableFileName n).take 6).takeWhile Char.isDigit = decimal 6 n := by
    rw [sstableFileName_eq h, List.take_append_of_le_length (by simp),
      List.take_of_length_le (by simp), List.takeWhile_eq_self_iff]
    exact fun c hc => isDigit_of_mem_decimal hc
  have hrest : (sstableFileName n).drop (decimal 6 n).length = ['.', 's', 's', 't'] := by
    rw [sstableFileName_eq h, List.drop_left]
  have hne : decimal 6 n ≠ [] := fun hnil => by
    have := congrArg List.length hnil
    rw [length_decimal] at this
    exact absurd this (by decide)
  unfold scanSeq
  simp only [hdigits, hrest]
  rw [if_pos ⟨hne, List.prefix_refl _⟩, foldl_decimal h]

/-! ### Numbers of more than six digits -/

/-- The digits that `sstableFileName` writes are enough for the number. -/
theorem lt_pow_width (n : ℕ) : n < 10 ^ max 6 (Nat.log 10 n + 1) :=
  lt_of_lt_of_le (Nat.lt_pow_succ_log_self (by decide) n)
    (Nat.pow_le_pow_right (by decide) (le_max_right _ _))

/-- All the digits of a name. -/
theorem takeWhile_sstableFileName (n : ℕ) :
    (sstableFileName n).takeWhile Char.isDigit = decimal (max 6 (Nat.log 10 n + 1)) n := by
  rw [sstableFileName, List.takeWhile_append_of_pos fun c hc => isDigit_of_mem_decimal hc]
  exact List.append_nil _

theorem sstableFileName_injective : Function.Injective sstableFileName := by
  intro m n h
  have hdigits : decimal (max 6 (Nat.log 10 m + 1)) m = decimal (max 6 (Nat.log 10 n + 1)) n := by
    rw [← takeWhile_sstableFileName, h, takeWhile_sstableFileName]
  calc m = (decimal (max 6 (Nat.log 10 m + 1)) m).foldl
          (fun n c => n * 10 + (c.toNat - '0'.toNat)) 0 := (foldl_decimal (lt_pow_width m)).symm
    _ = (decimal (max 6 (Nat.log 10 n + 1)) n).foldl
          (fun n c => n * 10 + (c.toNat - '0'.toNat)) 0 := by rw [hdigits]
    _ = n := foldl_decimal (lt_pow_width n)

/-- No number is read off a name with more than six digits. -/
theorem scanSeq_of_seven_digits (h : 10 ^ 6 ≤ n) : scanSeq (sstableFileName n) = none := by
  have hlog : 6 ≤ Nat.log 10 n := Nat.le_log_of_pow_le (by decide) h
  -- the first seven characters of the name are digits
  obtain ⟨digits, c, rest, hlen, hname, hdigits, hc⟩ : ∃ digits c rest, digits.length = 6 ∧
      sstableFileName n = digits ++ c :: rest ∧ (∀ x ∈ digits, x.isDigit = true) ∧
      c.isDigit = true := by
    have hw : 6 < (decimal (max 6 (Nat.log 10 n + 1)) n).length := by
      rw [length_decimal]
      omega
    refine ⟨(decimal (max 6 (Nat.log 10 n + 1)) n).take 6, _,
      (decimal (max 6 (Nat.log 10 n + 1)) n).drop 7 ++ ['.', 's', 's', 't'], ?_, ?_,
      fun x hx => isDigit_of_mem_decimal (List.mem_of_mem_take hx),
      isDigit_of_mem_decimal (List.getElem_mem hw)⟩
    · rw [List.length_take]
      omega
    · rw [sstableFileName, ← List.cons_append, ← List.append_assoc, ← List.drop_eq_getElem_cons hw,
        List.take_append_drop]
  have hread : ((sstableFileName n).take 6).takeWhile Char.isDigit = digits := by
    rw [hname, List.take_append_of_le_length (by omega), List.take_of_length_le (by omega),
      List.takeWhile_eq_self_iff]
    exact hdigits
  have hrest : (sstableFileName n).drop digits.length = c :: rest := by rw [hname, List.drop_left]
  unfold scanSeq
  simp only [hread, hrest]
  refine if_neg fun hscan => ?_
  -- what follows is another digit, not the suffix
  obtain ⟨tail, htail⟩ := hscan.2
  obtain ⟨rfl, -⟩ := List.cons.inj htail
  exact absurd hc (by decide)

end Storage
end BoilerPulse
