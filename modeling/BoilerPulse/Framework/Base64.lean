import Mathlib.Data.List.Basic

/-!
# Base64

The standard alphabet with padding. `encode` writes every three bytes as four symbols; `decode`
passes over line breaks and takes the symbols back, the padded group last. What is written is plain
ASCII (`isSymbol_of_mem_encode`), and `decode_encode` says that it is read back.
-/

namespace Framework
namespace Base64

/-- `=`. -/
def pad : UInt8 := 61

/-- The symbol of six bits. -/
def symbol (n : ℕ) : UInt8 :=
  if n < 26 then UInt8.ofNat (n + 65)
  else if n < 52 then UInt8.ofNat (n + 71)
  else if n < 62 then UInt8.ofNat (n - 4)
  else if n = 62 then 43 else 47

/-- The six bits of a symbol. -/
def sextet (c : UInt8) : Option ℕ :=
  if 65 ≤ c ∧ c ≤ 90 then some (c.toNat - 65)
  else if 97 ≤ c ∧ c ≤ 122 then some (c.toNat - 71)
  else if 48 ≤ c ∧ c ≤ 57 then some (c.toNat + 4)
  else if c = 43 then some 62
  else if c = 47 then some 63
  else none

def encode : List UInt8 → List UInt8
  | a :: b :: c :: rest =>
    symbol (a.toNat / 4) :: symbol (a.toNat % 4 * 16 + b.toNat / 16) ::
      symbol (b.toNat % 16 * 4 + c.toNat / 64) :: symbol (c.toNat % 64) :: encode rest
  | [a, b] =>
    [symbol (a.toNat / 4), symbol (a.toNat % 4 * 16 + b.toNat / 16), symbol (b.toNat % 16 * 4), pad]
  | [a] => [symbol (a.toNat / 4), symbol (a.toNat % 4 * 16), pad, pad]
  | [] => []

/-- The bytes of one, two and three groups of eight bits. -/
def byte₁ (w x : ℕ) : UInt8 := UInt8.ofNat (w * 4 + x / 16)

@[inherit_doc byte₁]
def byte₂ (x y : ℕ) : UInt8 := UInt8.ofNat (x % 16 * 16 + y / 4)

@[inherit_doc byte₁]
def byte₃ (y z : ℕ) : UInt8 := UInt8.ofNat (y % 4 * 64 + z)

def decodeGroups : List UInt8 → Option (List UInt8)
  | [] => some []
  | w :: x :: y :: z :: rest =>
    if z = pad then
      -- nothing follows the padding
      if rest ≠ [] then none
      else if y = pad then do
        let w ← sextet w
        let x ← sextet x
        some [byte₁ w x]
      else do
        let w ← sextet w
        let x ← sextet x
        let y ← sextet y
        some [byte₁ w x, byte₂ x y]
    else do
      let w ← sextet w
      let x ← sextet x
      let y ← sextet y
      let z ← sextet z
      let bytes ← decodeGroups rest
      some (byte₁ w x :: byte₂ x y :: byte₃ y z :: bytes)
  | _ => none

/-- Line breaks are passed over. -/
def decode (s : List UInt8) : Option (List UInt8) :=
  decodeGroups (s.filter fun c => c ≠ 10 ∧ c ≠ 13)

/-! ### Symbols -/

theorem sextet_symbol : ∀ n < 64, sextet (symbol n) = some n := by decide

theorem symbol_ne_pad : ∀ n < 64, symbol n ≠ pad := by decide

/-- The symbols of the alphabet, and the padding. -/
def IsSymbol (c : UInt8) : Prop :=
  c = pad ∨ ∃ n < 64, c = symbol n

theorem isSymbol_symbol {n : ℕ} (h : n < 64) : IsSymbol (symbol n) :=
  .inr ⟨n, h, rfl⟩

theorem isSymbol_pad : IsSymbol pad :=
  .inl rfl

theorem isSymbol_of_mem_encode {s : List UInt8} : ∀ c ∈ encode s, IsSymbol c := by
  have hlt : ∀ b : UInt8, b.toNat < 256 := UInt8.toNat_lt
  induction s using encode.induct with
  | case1 a b c rest ih =>
    intro x hx
    have ha := hlt a
    have hb := hlt b
    have hc := hlt c
    simp only [encode, List.mem_cons] at hx
    rcases hx with rfl | rfl | rfl | rfl | hx
    · exact isSymbol_symbol (by omega)
    · exact isSymbol_symbol (by omega)
    · exact isSymbol_symbol (by omega)
    · exact isSymbol_symbol (by omega)
    · exact ih x hx
  -- the last group may be short, and is filled up with `=`
  | case2 a b =>
    intro x hx
    have ha := hlt a
    have hb := hlt b
    simp only [encode, List.mem_cons, List.not_mem_nil, or_false] at hx
    rcases hx with rfl | rfl | rfl | rfl
    · exact isSymbol_symbol (by omega)
    · exact isSymbol_symbol (by omega)
    · exact isSymbol_symbol (by omega)
    · exact isSymbol_pad
  | case3 a =>
    intro x hx
    have ha := hlt a
    simp only [encode, List.mem_cons, List.not_mem_nil, or_false] at hx
    rcases hx with rfl | rfl | rfl | rfl
    · exact isSymbol_symbol (by omega)
    · exact isSymbol_symbol (by omega)
    · exact isSymbol_pad
    · exact isSymbol_pad
  | case4 => intro x hx; cases hx

theorem IsSymbol.not_lineBreak {c : UInt8} (h : IsSymbol c) : c ≠ 10 ∧ c ≠ 13 := by
  have hall : ∀ n < 64, symbol n ≠ 10 ∧ symbol n ≠ 13 := by decide
  rcases h with rfl | ⟨n, hn, rfl⟩
  · decide
  · exact hall n hn

theorem IsSymbol.ascii {c : UInt8} (h : IsSymbol c) : c < 0x80 := by
  have hall : ∀ n < 64, symbol n < 0x80 := by decide
  rcases h with rfl | ⟨n, hn, rfl⟩
  · decide
  · exact hall n hn

/-! ### Round trip -/

theorem byte₁_eq (a : UInt8) {y : ℕ} (hy : y < 16) :
    byte₁ (a.toNat / 4) (a.toNat % 4 * 16 + y) = a := by
  have hbits : a.toNat / 4 * 4 + (a.toNat % 4 * 16 + y) / 16 = a.toNat := by omega
  rw [byte₁, hbits, UInt8.ofNat_toNat]

theorem byte₂_eq (b : UInt8) (x : ℕ) {z : ℕ} (hz : z < 4) :
    byte₂ (x * 16 + b.toNat / 16) (b.toNat % 16 * 4 + z) = b := by
  have hb := UInt8.toNat_lt b
  have hbits : (x * 16 + b.toNat / 16) % 16 * 16 + (b.toNat % 16 * 4 + z) / 4 = b.toNat := by omega
  rw [byte₂, hbits, UInt8.ofNat_toNat]

theorem byte₃_eq (c : UInt8) (y : ℕ) : byte₃ (y * 4 + c.toNat / 64) (c.toNat % 64) = c := by
  have hc := UInt8.toNat_lt c
  have hbits : (y * 4 + c.toNat / 64) % 4 * 64 + c.toNat % 64 = c.toNat := by omega
  rw [byte₃, hbits, UInt8.ofNat_toNat]

theorem decodeGroups_encode (s : List UInt8) : decodeGroups (encode s) = some s := by
  have hlt : ∀ b : UInt8, b.toNat < 256 := UInt8.toNat_lt
  induction s using encode.induct with
  | case1 a b c rest ih =>
    have ha := hlt a
    have hb := hlt b
    have hc := hlt c
    rw [encode, decodeGroups, if_neg (symbol_ne_pad _ (by omega)), sextet_symbol _ (by omega),
      sextet_symbol _ (by omega), sextet_symbol _ (by omega), sextet_symbol _ (by omega), ih]
    show some _ = _
    rw [byte₁_eq a (by omega), byte₂_eq b _ (by omega), byte₃_eq]
  | case2 a b =>
    have ha := hlt a
    have hb := hlt b
    rw [encode, decodeGroups, if_pos rfl, if_neg (by simp), if_neg (symbol_ne_pad _ (by omega)),
      sextet_symbol _ (by omega), sextet_symbol _ (by omega), sextet_symbol _ (by omega)]
    show some _ = _
    rw [byte₁_eq a (by omega)]
    exact congrArg (fun x => some [a, x]) (byte₂_eq b _ (Nat.succ_pos 3))
  | case3 a =>
    have ha := hlt a
    rw [encode, decodeGroups, if_pos rfl, if_neg (by simp), if_pos rfl, sextet_symbol _ (by omega),
      sextet_symbol _ (by omega)]
    exact congrArg (fun x => some [x]) (byte₁_eq a (Nat.succ_pos 15))
  | case4 => rfl

theorem decode_encode (s : List UInt8) : decode (encode s) = some s := by
  have hfilter : (encode s).filter (fun c => c ≠ 10 ∧ c ≠ 13) = encode s :=
    List.filter_eq_self.mpr fun c hc =>
      decide_eq_true (isSymbol_of_mem_encode c hc).not_lineBreak
  rw [decode, hfilter, decodeGroups_encode]

end Base64
end Framework
