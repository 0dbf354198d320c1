import Mathlib.Data.List.Basic
import Mathlib.Tactic.SplitIfs

/-!
# UTF-8

`runeLen` is the length of the well-formed sequence at the front of a list of bytes, with `0` for
none. `valid` says that the list is made of such sequences, and `toValid` replaces every byte at
which none starts by the encoding of U+FFFD, as encoders do that can only write text.

A list is not changed exactly if it is valid (`toValid_eq_self_iff`), and what comes out is always
valid (`valid_toValid`), so a second pass changes nothing.
-/

namespace Framework
namespace Utf8

variable {r s : List UInt8}

/-- A continuation byte. -/
def isTail (b : UInt8) : Bool :=
  0x80 ≤ b && b ≤ 0xBF

/-- The bytes that may follow a first byte: no overlong forms, no surrogates, nothing
past U+10FFFF. -/
def isSecond (a b : UInt8) : Bool :=
  (if a = 0xE0 then 0xA0 else if a = 0xF0 then 0x90 else 0x80) ≤ b &&
    b ≤ (if a = 0xED then 0x9F else if a = 0xF4 then 0x8F else 0xBF)

/-- The length of the well-formed sequence at the front; `0` if there is none. -/
def runeLen : List UInt8 → ℕ
  | [] => 0
  | a :: bs =>
    if a < 0x80 then 1
    else if 0xC2 ≤ a && a ≤ 0xDF then
      match bs with
      | b :: _ => if isSecond a b then 2 else 0
      | _ => 0
    else if 0xE0 ≤ a && a ≤ 0xEF then
      match bs with
      | b :: c :: _ => if isSecond a b && isTail c then 3 else 0
      | _ => 0
    else if 0xF0 ≤ a && a ≤ 0xF4 then
      match bs with
      | b :: c :: d :: _ => if isSecond a b && isTail c && isTail d then 4 else 0
      | _ => 0
    else 0

/-- The encoding of U+FFFD. -/
def replacement : List UInt8 :=
  [0xEF, 0xBF, 0xBD]

/-- The encoding of a code point, surrogates excepted. -/
def encodeRune (c : ℕ) : List UInt8 :=
  if c < 0x80 then [UInt8.ofNat c]
  else if c < 0x800 then [UInt8.ofNat (0xC0 + c / 64), UInt8.ofNat (0x80 + c % 64)]
  else if c < 0x10000 then
    [UInt8.ofNat (0xE0 + c / 4096), UInt8.ofNat (0x80 + c / 64 % 64), UInt8.ofNat (0x80 + c % 64)]
  else
    [UInt8.ofNat (0xF0 + c / 262144), UInt8.ofNat (0x80 + c / 4096 % 64),
      UInt8.ofNat (0x80 + c / 64 % 64), UInt8.ofNat (0x80 + c % 64)]

/-- `valid`, with the number of bytes that still belong to a sequence. -/
def validFrom : ℕ → List UInt8 → Bool
  | _, [] => true
  | k + 1, _ :: bs => validFrom k bs
  | 0, b :: bs =>
    match runeLen (b :: bs) with
    | 0 => false
    | n + 1 => validFrom n bs

def valid (s : List UInt8) : Bool :=
  validFrom 0 s

/-- `toValid`, with the number of bytes that still belong to a sequence. -/
def toValidFrom : ℕ → List UInt8 → List UInt8
  | _, [] => []
  | k + 1, b :: bs => b :: toValidFrom k bs
  | 0, b :: bs =>
    match runeLen (b :: bs) with
    | 0 => replacement ++ toValidFrom 0 bs
    | n + 1 => b :: toValidFrom n bs

/-- Replace what is not well-formed, byte by byte. -/
def toValid (s : List UInt8) : List UInt8 :=
  toValidFrom 0 s

theorem le_of_isTail {b : UInt8} (h : isTail b = true) : 0x80 ≤ b :=
  decide_eq_true_eq.mp (Bool.and_eq_true_iff.mp h).1

theorem le_of_isSecond {a b : UInt8} (h : isSecond a b = true) : 0x80 ≤ b := by
  have hlow : 0x80 ≤ (if a = 0xE0 then (0xA0 : UInt8) else if a = 0xF0 then 0x90 else 0x80) := by
    split_ifs <;> decide
  exact UInt8.le_trans hlow (decide_eq_true_eq.mp (Bool.and_eq_true_iff.mp h).1)

/-- A sequence is recognised by its own bytes. It is one byte of ASCII, or has no such byte. -/
theorem runeLen_eq_succ {n : ℕ} (h : runeLen s = n + 1) :
    ∃ b xs rest, s = b :: xs ++ rest ∧ xs.length = n ∧
      (∀ rest', runeLen (b :: xs ++ rest') = n + 1) ∧
      (n = 0 ∧ b < 0x80 ∨ 0 < n ∧ ∀ x ∈ b :: xs, 0x80 ≤ x) := by
  unfold runeLen at h
  split at h
  · cases h
  · next a bs =>
    -- by the first byte: one, two, three or four bytes
    split_ifs at h with h₁ h₂ h₃ h₄
    · obtain rfl : n = 0 := by omega
      exact ⟨a, [], bs, rfl, rfl, fun rest' => by simp [runeLen, h₁], .inl ⟨rfl, h₁⟩⟩
    · have ha : 0x80 ≤ a := UInt8.not_lt.mp h₁
      split at h
      · next b rest =>
        split_ifs at h with hb
        · obtain rfl : n = 1 := by omega
          refine ⟨a, [b], rest, rfl, rfl, fun rest' => ?_, .inr ⟨by decide, ?_⟩⟩
          · simp only [List.cons_append, List.nil_append, runeLen, if_neg h₁, if_pos h₂, if_pos hb]
          · simp [ha, le_of_isSecond hb]
      · cases h
    · have ha : 0x80 ≤ a := UInt8.not_lt.mp h₁
      split at h
      · next b c rest =>
        split_ifs at h with hb
        · obtain rfl : n = 2 := by omega
          obtain ⟨hb₁, hb₂⟩ := Bool.and_eq_true_iff.mp hb
          refine ⟨a, [b, c], rest, rfl, rfl, fun rest' => ?_, .inr ⟨by decide, ?_⟩⟩
          · simp only [List.cons_append, List.nil_append, runeLen, if_neg h₁, if_neg h₂, if_pos h₃,
              if_pos hb]
          · simp [ha, le_of_isSecond hb₁, le_of_isTail hb₂]
      · cases h
    · have ha : 0x80 ≤ a := UInt8.not_lt.mp h₁
      split at h
      · next b c d rest =>
        split_ifs at h with hb
        · obtain rfl : n = 3 := by omega
          obtain ⟨hb₁₂, hb₃⟩ := Bool.and_eq_true_iff.mp hb
          obtain ⟨hb₁, hb₂⟩ := Bool.and_eq_true_iff.mp hb₁₂
          refine ⟨a, [b, c, d], rest, rfl, rfl, fun rest' => ?_, .inr ⟨by decide, ?_⟩⟩
          · simp only [List.cons_append, List.nil_append, runeLen, if_neg h₁, if_neg h₂, if_neg h₃,
              if_pos h₄, if_pos hb]
          · simp [ha, le_of_isSecond hb₁, le_of_isTail hb₂, le_of_isTail hb₃]
      · cases h

/-- A sequence with nothing after it. -/
theorem eq_of_runeLen (hne : r ≠ []) (h : runeLen r = r.length) :
    ∃ b xs, r = b :: xs ∧ (xs.length = 0 ∧ b < 0x80 ∨ 0 < xs.length ∧ ∀ x ∈ b :: xs, 0x80 ≤ x) ∧
      ∀ rest, runeLen (b :: xs ++ rest) = r.length := by
  obtain ⟨n, hn⟩ : ∃ n, r.length = n + 1 :=
    Nat.exists_eq_add_one.mpr (List.length_pos_iff.mpr hne)
  obtain ⟨b, xs, rest, rfl, rfl, hrune, hascii⟩ := runeLen_eq_succ (h.trans hn)
  obtain rfl : rest = [] := by
    rw [List.length_append, List.length_cons] at hn
    exact List.eq_nil_of_length_eq_zero (by omega)
  exact ⟨b, xs, List.append_nil _, hascii, fun rest => by rw [hn, hrune]⟩

/-- A sequence is one whatever follows it. -/
theorem runeLen_append (hne : r ≠ []) (h : runeLen r = r.length) (rest : List UInt8)
    : runeLen (r ++ rest) = r.length := by
  obtain ⟨b, xs, heq, -, hrune⟩ := eq_of_runeLen hne h
  rw [heq, hrune, ← heq]

theorem runeLen_cases (hne : r ≠ []) (h : runeLen r = r.length) :
    (∃ b < 0x80, r = [b]) ∨ 2 ≤ r.length ∧ ∀ b ∈ r, 0x80 ≤ b := by
  obtain ⟨b, xs, rfl, hascii, -⟩ := eq_of_runeLen hne h
  rcases hascii with ⟨hnil, hb⟩ | ⟨hpos, hxs⟩
  · exact .inl ⟨b, hb, by rw [List.eq_nil_of_length_eq_zero hnil]⟩
  · exact .inr ⟨Nat.succ_le_succ hpos, hxs⟩

/-- **Induction along a text**, a sequence or a byte that belongs to none at a time. -/
@[elab_as_elim]
theorem rune_induction {P : List UInt8 → Prop} (nil : P [])
    (bad : ∀ b bs, runeLen (b :: bs) = 0 → P bs → P (b :: bs))
    (rune : ∀ r rest, r ≠ [] → runeLen r = r.length → P rest → P (r ++ rest)) (s : List UInt8) :
    P s := by
  induction hlen : s.length using Nat.strongRecOn generalizing s with
  | ind l ih =>
    cases s with
    | nil => exact nil
    | cons b bs =>
      cases hn : runeLen (b :: bs) with
      | zero => exact bad b bs hn (ih bs.length (by rw [← hlen]; simp) bs rfl)
      | succ n =>
        obtain ⟨b', xs, rest, heq, hxs, hrune, -⟩ := runeLen_eq_succ hn
        have hself : runeLen (b' :: xs) = (b' :: xs).length := by
          have := hrune []
          rwa [List.append_nil, ← hxs, ← List.length_cons] at this
        have hlt : rest.length < l := by
          rw [← hlen, heq, List.length_append, List.length_cons]
          omega
        rw [heq]
        exact rune _ rest (List.cons_ne_nil _ _) hself (ih rest.length hlt rest rfl)

/-! ### What is valid is not changed -/

theorem length_le_toValidFrom (s : List UInt8) : ∀ k, s.length ≤ (toValidFrom k s).length := by
  induction s with
  | nil => intro k; simp
  | cons b bs ih =>
    intro k
    cases k with
    | succ k => simpa [toValidFrom] using ih k
    | zero =>
      rw [toValidFrom]
      split
      · have := ih 0
        simp only [List.length_cons, List.length_append, replacement]
        omega
      · next n _ => simpa using ih n

theorem toValidFrom_of_validFrom : ∀ {k}, validFrom k s = true →
    toValidFrom k s = s := by
  induction s with
  | nil => intro k _; cases k <;> rfl
  | cons b bs ih =>
    intro k h
    cases k with
    | succ k => rw [toValidFrom, ih h]
    | zero =>
      rw [validFrom] at h
      rw [toValidFrom]
      cases hn : runeLen (b :: bs) with
      | zero => rw [hn] at h; cases h
      | succ n => rw [hn] at h; exact congrArg _ (ih h)

/-- Every replacement makes the list longer. -/
theorem length_lt_toValidFrom : ∀ {k}, validFrom k s = false →
    s.length < (toValidFrom k s).length := by
  induction s with
  | nil => intro k h; cases k <;> cases h
  | cons b bs ih =>
    intro k h
    cases k with
    | succ k => simpa [toValidFrom] using ih h
    | zero =>
      rw [validFrom] at h
      rw [toValidFrom]
      cases hn : runeLen (b :: bs) with
      | zero =>
        have := length_le_toValidFrom bs 0
        simp only [List.length_cons, List.length_append, replacement]
        omega
      | succ n => rw [hn] at h; simpa using ih h

/-- **Valid lists are the ones that are not changed.** -/
theorem toValid_eq_self_iff : toValid s = s ↔ valid s = true := by
  refine ⟨fun h => ?_, toValidFrom_of_validFrom⟩
  by_contra hne
  have hlt := length_lt_toValidFrom (Bool.not_eq_true _ ▸ hne : validFrom 0 s = false)
  rw [show toValidFrom 0 s = s from h] at hlt
  exact Nat.lt_irrefl _ hlt

/-! ### What comes out is valid -/

theorem toValidFrom_append (xs s : List UInt8) :
    toValidFrom xs.length (xs ++ s) = xs ++ toValidFrom 0 s := by
  induction xs with
  | nil => rfl
  | cons x xs ih => rw [List.length_cons, List.cons_append, toValidFrom, ih, List.cons_append]

theorem validFrom_append (xs s : List UInt8) : validFrom xs.length (xs ++ s) = validFrom 0 s := by
  induction xs with
  | nil => rfl
  | cons x xs ih => rw [List.length_cons, List.cons_append, validFrom, ih]

theorem toValid_bad {b : UInt8} {bs : List UInt8} (h : runeLen (b :: bs) = 0) :
    toValid (b :: bs) = replacement ++ toValid bs := by
  rw [toValid, toValidFrom, h]
  rfl

theorem toValid_rune (hne : r ≠ []) (h : runeLen r = r.length) (rest : List UInt8)
    : toValid (r ++ rest) = r ++ toValid rest := by
  have hlen := runeLen_append hne h rest
  obtain ⟨b, xs, rfl⟩ := List.exists_cons_of_ne_nil hne
  rw [List.cons_append] at hlen
  rw [toValid, List.cons_append, toValidFrom, hlen]
  exact congrArg _ (toValidFrom_append xs rest)

theorem valid_rune (hne : r ≠ []) (h : runeLen r = r.length) (rest : List UInt8)
    : valid (r ++ rest) = valid rest := by
  have hlen := runeLen_append hne h rest
  obtain ⟨b, xs, rfl⟩ := List.exists_cons_of_ne_nil hne
  rw [List.cons_append] at hlen
  rw [valid, List.cons_append, validFrom, hlen]
  exact validFrom_append xs rest

theorem valid_toValid (s : List UInt8) : valid (toValid s) = true := by
  induction s using rune_induction with
  | nil => rfl
  | bad b bs h ih =>
    rw [toValid_bad h, valid_rune (by simp [replacement]) rfl]
    exact ih
  | rune r rest hne h ih =>
    rw [toValid_rune hne h, valid_rune hne h]
    exact ih

/-- A second pass changes nothing. -/
theorem toValid_toValid (s : List UInt8) : toValid (toValid s) = toValid s :=
  toValid_eq_self_iff.mpr (valid_toValid s)

/-- ASCII is valid. -/
theorem valid_of_ascii (h : ∀ b ∈ s, b < 0x80) : valid s = true := by
  induction s with
  | nil => rfl
  | cons b bs ih =>
    have hb : runeLen [b] = [b].length := by simp [runeLen, h b (by simp)]
    rw [← List.singleton_append, valid_rune (by simp) hb]
    exact ih fun x hx => h x (List.mem_cons_of_mem b hx)

end Utf8
end Framework
