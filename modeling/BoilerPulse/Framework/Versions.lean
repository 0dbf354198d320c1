import Mathlib.Data.List.Induction
import BoilerPulse.Framework.Layers

/-!
# Layers and versions

The entries of a store have versions, and its layers come in an order. A store that takes the entry
of the first layer that has the key never looks at a version; whether it takes the entry with the
highest one is a matter of how the layers are ordered (`Ranked`): where two of them have the same
key, the newer layer must not have the lower version.

In ranked layers the versions that are found for a key, from the newest layer to the oldest, do not
go up (`Ranked.pairwise_found`), so the entry that comes first is one of highest version
(`Ranked.highest`). What is written on top keeps a layer newer if its versions are high enough
(`Newer.writes`).
-/

namespace Framework

variable {κ ε ν : Type} [Preorder ν] {ver : ε → ν}

/-- Where both layers have a key, the version in `bottom` is not the higher one. -/
def Newer (ver : ε → ν) (top bottom : Layer κ ε) : Prop :=
  ∀ k x y, top k = some x → bottom k = some y → ver y ≤ ver x

/-- Layers that come in the order of their versions, the oldest first. -/
def Ranked (ver : ε → ν) (ls : List (Layer κ ε)) : Prop :=
  ls.Pairwise fun older newer => Newer ver newer older

/-- What the layers have for a key, the newest first. -/
def found (ls : List (Layer κ ε)) (k : κ) : List ε :=
  ls.reverse.filterMap fun l => l k

/-- One of the entries that has the highest version, if there are any. -/
def Highest (ver : ε → ν) (chosen : Option ε) (xs : List ε) : Prop :=
  match chosen with
  | none => xs = []
  | some x => x ∈ xs ∧ ∀ y ∈ xs, ver y ≤ ver x

variable {l m a b : Layer κ ε} {ls : List (Layer κ ε)}

/-! ### Newer layers -/

theorem newer_of_empty (l : Layer κ ε) : Newer ver (fun _ => none) l :=
  nofun

theorem newer_empty (l : Layer κ ε) : Newer ver l (fun _ => none) :=
  nofun

/-- A layer is not newer than one that has all its entries. -/
theorem newer_of_below (h : Below m l) : Newer ver l m := by
  intro k x y hx hy
  rw [Option.some.inj (hx.symm.trans (h k y hy))]

theorem Newer.refl (ver : ε → ν) (l : Layer κ ε) : Newer ver l l :=
  newer_of_below (Below.refl l)

/-- Leaving out entries of the upper layer changes nothing. -/
theorem Newer.of_below (h : Newer ver l b) (hbelow : Below m l) : Newer ver m b :=
  fun k x y hx hy => h k x y (hbelow k x hx) hy

theorem Newer.overlay (ha : Newer ver a l) (hb : Newer ver b l) : Newer ver (overlay a b) l := by
  intro k x y hx hy
  obtain hx | ⟨-, hx⟩ := Option.or_eq_some_iff.mp hx
  · exact ha k x y hx hy
  · exact hb k x y hx hy

theorem newer_overlay_self (a b : Layer κ ε) : Newer ver (Framework.overlay a b) a :=
  newer_of_below fun _ _ hx => overlay_of_eq_some hx

/-- Only the versions of the layers matter. -/
theorem Newer.congr (h : Newer ver l m) (hl : ∀ k, (a k).map ver = (l k).map ver)
    (hm : ∀ k, (b k).map ver = (m k).map ver) : Newer ver a b := by
  intro k x y hx hy
  have hlk := hl k
  have hmk := hm k
  rw [hx, Option.map_some, eq_comm, Option.map_eq_some_iff] at hlk
  rw [hy, Option.map_some, eq_comm, Option.map_eq_some_iff] at hmk
  obtain ⟨x', hx', hverx⟩ := hlk
  obtain ⟨y', hy', hvery⟩ := hmk
  rw [← hverx, ← hvery]
  exact h k x' y' hx' hy'

section Writes

variable [DecidableEq κ]

theorem Newer.update (h : Newer ver l m) (k : κ) {x y : ε} (hxy : ver y ≤ ver x) :
    Newer ver (Function.update l k (some x)) (Function.update m k (some y)) := by
  intro k' x' y' hx hy
  by_cases hk : k' = k
  · subst hk
    rw [Function.update_self, Option.some.injEq] at hx hy
    rw [← hx, ← hy]
    exact hxy
  · rw [Function.update_of_ne hk] at hx hy
    exact h k' x' y' hx hy

/-- Writing entries of versions that are high enough. -/
theorem Newer.writes (h : Newer ver l m) {ws : List (κ × ε)}
    (hws : ∀ w ∈ ws, ∀ y, m w.1 = some y → ver y ≤ ver w.2) : Newer ver (writes l ws) m := by
  intro k x y hx hy
  obtain hx | hmem := eq_some_of_writes hx
  · exact h k x y hx hy
  · exact hws (k, x) hmem y hy

end Writes

/-! ### Ranked layers -/

theorem ranked_concat : Ranked ver (ls ++ [l]) ↔ Ranked ver ls ∧ ∀ m ∈ ls, Newer ver l m := by
  simp [Ranked, List.pairwise_append]

/-- A ranked stack is newer than each of its layers. -/
theorem Ranked.newer_stack (h : Ranked ver ls) (hl : l ∈ ls) : Newer ver (stack ls) l := by
  induction ls using List.reverseRecOn with
  | nil => cases hl
  | append_singleton ls top ih =>
    obtain ⟨hranked, htop⟩ := ranked_concat.mp h
    rw [stack_concat]
    obtain hl | hl := List.mem_append.mp hl
    -- where the top has no entry, the rest of the stack answers, and that is newer by induction
    · exact (htop l hl).overlay (ih hranked hl)
    · rw [List.mem_singleton.mp hl]
      exact newer_overlay_self top _

theorem stack_eq_head?_found (ls : List (Layer κ ε)) (k : κ) : stack ls k = (found ls k).head? := by
  induction ls using List.reverseRecOn with
  | nil => rfl
  | append_singleton ls top ih =>
    rw [stack_concat, found, List.reverse_append, List.reverse_singleton, List.singleton_append,
      List.filterMap_cons]
    cases htop : top k with
    | some x => rw [overlay_of_eq_some htop]; rfl
    | none => rw [overlay_of_eq_none htop]; exact ih

/-- Versions do not go up from the newest layer to the oldest. -/
theorem Ranked.pairwise_found (h : Ranked ver ls) (k : κ) :
    (found ls k).Pairwise fun x y => ver y ≤ ver x := by
  rw [found, List.pairwise_filterMap, List.pairwise_reverse]
  exact h.imp fun hnewer x hx y hy => hnewer k x y hx hy

theorem highest_head? {xs : List ε} (h : xs.Pairwise fun x y => ver y ≤ ver x) :
    Highest ver xs.head? xs := by
  cases xs with
  | nil => rfl
  | cons x xs =>
    refine ⟨List.mem_cons_self, fun y hy => ?_⟩
    obtain rfl | hy := List.mem_cons.mp hy
    · exact le_rfl
    · exact (List.pairwise_cons.mp h).1 y hy

/-- The first entry is one of highest version. -/
theorem Ranked.highest (h : Ranked ver ls) (k : κ) : Highest ver (stack ls k) (found ls k) := by
  rw [stack_eq_head?_found]
  exact highest_head? (h.pairwise_found k)

end Framework
