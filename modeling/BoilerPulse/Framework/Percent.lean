import BoilerPulse.Framework.Decimal

/-!
# Percent-encoding

`escape` writes every byte as `%XX` that is not kept, and `unescape` reads such a text, with the
rest of the bytes standing for themselves. A text that has been escaped is read back
(`unescape_escape`), whatever is kept, the percent sign excepted. A text that has not is
left alone exactly if there is no percent sign in it (`unescape_eq_self_iff`): every escape
makes it shorter.
-/

namespace Framework
namespace Percent

variable {keep : UInt8 → Bool}

open Decimal

/-- `%`. -/
def percent : UInt8 := 0x25

def escapeByte (keep : UInt8 → Bool) (b : UInt8) : List UInt8 :=
  if keep b then [b] else [percent, upperHexDigit (b.toNat / 16), upperHexDigit (b.toNat % 16)]

def escape (keep : UInt8 → Bool) (s : List UInt8) : List UInt8 :=
  s.flatMap (escapeByte keep)

/-- The bytes of an escaped text: those that are kept, and those of the escapes. -/
theorem mem_escape {b : UInt8} {s : List UInt8} (h : b ∈ escape keep s) :
    (b ∈ s ∧ keep b = true) ∨ b = percent ∨ ∃ d < 16, b = upperHexDigit d := by
  obtain ⟨c, hc, hb⟩ := List.mem_flatMap.mp h
  rw [escapeByte] at hb
  split at hb
  · next hkeep =>
    rw [List.mem_singleton.mp hb]
    exact .inl ⟨hc, hkeep⟩
  · have hlt := UInt8.toNat_lt c
    simp only [List.mem_cons, List.not_mem_nil, or_false] at hb
    rcases hb with rfl | rfl | rfl
    · exact .inr (.inl rfl)
    · exact .inr (.inr ⟨_, by omega, rfl⟩)
    · exact .inr (.inr ⟨_, Nat.mod_lt _ (by decide), rfl⟩)

def unescape : List UInt8 → Option (List UInt8)
  | [] => some []
  | b :: s =>
    if b = percent then
      match s with
      | c :: d :: s =>
        match hexValue c, hexValue d, unescape s with
        | some c, some d, some s => some (UInt8.ofNat (c * 16 + d) :: s)
        | _, _, _ => none
      | _ => none
    else (unescape s).map (b :: ·)

@[simp] theorem unescape_nil : unescape [] = some [] := rfl

theorem unescape_plain {b : UInt8} (hb : b ≠ percent) (s : List UInt8) :
    unescape (b :: s) = (unescape s).map (b :: ·) := by
  rw [unescape.eq_def]
  exact if_neg hb

/-- The cases of an escape. -/
theorem unescape_percent {s t : List UInt8} (h : unescape (percent :: s) = some t) :
    ∃ c d rest b t', s = c :: d :: rest ∧ t = b :: t' ∧ unescape rest = some t' := by
  rw [unescape.eq_def] at h
  simp only [if_true] at h
  split at h
  · next c d rest =>
    split at h
    · next hc hd hrest => exact ⟨c, d, rest, _, _, rfl, (Option.some.inj h).symm, hrest⟩
    · cases h
  · cases h

/-! ### There and back -/

theorem unescape_escapeByte (hkeep : keep percent = false) (b : UInt8) (s : List UInt8)
    : unescape (escapeByte keep b ++ s) = (unescape s).map (b :: ·) := by
  unfold escapeByte
  split
  · next hb =>
    refine unescape_plain ?_ s
    rintro rfl
    exact absurd hb (by simp [hkeep])
  · have hlt := UInt8.toNat_lt b
    have hsum : UInt8.ofNat (b.toNat / 16 * 16 + b.toNat % 16) = b := by
      rw [Nat.div_add_mod', UInt8.ofNat_toNat]
    show unescape (percent :: _ :: _ :: s) = _
    rw [unescape.eq_def]
    simp only [if_true, hexValue_upperHexDigit _ (show b.toNat / 16 < 16 by omega),
      hexValue_upperHexDigit _ (Nat.mod_lt b.toNat (by decide : 0 < 16))]
    cases unescape s <;> simp [hsum]

/-- **A text that was escaped is read back.** -/
theorem unescape_escape (hkeep : keep percent = false) (s : List UInt8) :
    unescape (escape keep s) = some s := by
  induction s with
  | nil => rfl
  | cons b s ih =>
    show unescape (escapeByte keep b ++ escape keep s) = _
    rw [unescape_escapeByte hkeep, ih]
    rfl

theorem unescape_append {p : List UInt8} (hp : ∀ b ∈ p, b ≠ percent) (s : List UInt8) :
    unescape (p ++ s) = (unescape s).map (p ++ ·) := by
  induction p with
  | nil => simp
  | cons b p ih =>
    rw [List.cons_append, unescape_plain (hp b (by simp)),
      ih fun x hx => hp x (List.mem_cons_of_mem b hx), Option.map_map]
    rfl

/-! ### What is not changed -/

/-- What comes out is shorter, unless there was nothing to read. -/
theorem unescape_shortens {s t : List UInt8} (h : unescape s = some t) :
    t.length < s.length ∨ t = s ∧ ∀ b ∈ s, b ≠ percent := by
  -- by length: an escape takes three bytes at once
  induction hlen : s.length using Nat.strongRecOn generalizing s t with
  | ind n ih =>
    subst hlen
    cases s with
    | nil => exact .inr ⟨(Option.some.inj h).symm, by simp⟩
    | cons b s =>
      by_cases hb : b = percent
      · subst hb
        obtain ⟨c, d, rest, b, t', rfl, rfl, hrest⟩ := unescape_percent h
        have hle : t'.length ≤ rest.length := by
          rcases ih rest.length (by simp only [List.length_cons]; omega) hrest rfl with h | h
          · exact h.le
          · rw [h.1]
        simp only [List.length_cons]
        omega
      · rw [unescape_plain hb] at h
        obtain ⟨t', ht', rfl⟩ := Option.map_eq_some_iff.mp h
        rcases ih s.length (Nat.lt_succ_self _) ht' rfl with h | ⟨rfl, h⟩
        · exact .inl (Nat.succ_lt_succ h)
        · refine .inr ⟨rfl, fun x hx => ?_⟩
          rcases List.mem_cons.mp hx with rfl | hx
          · exact hb
          · exact h x hx

/-- **Only texts without a percent sign stand for themselves.** -/
theorem unescape_eq_self_iff {s : List UInt8} : unescape s = some s ↔ ∀ b ∈ s, b ≠ percent := by
  refine ⟨fun h => ?_, fun h => ?_⟩
  · rcases unescape_shortens h with hlt | ⟨-, h⟩
    · exact absurd hlt (Nat.lt_irrefl _)
    · exact h
  · have happ := unescape_append h []
    rwa [List.append_nil, unescape_nil, Option.map_some, List.append_nil] at happ

end Percent
end Framework
