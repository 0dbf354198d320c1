import Mathlib.Data.Int.Order.Basic
import Mathlib.Data.List.Nodup

/-!
# Caches that forget what was used least recently

The reference model of a cache with a capacity: a list of pairs with distinct keys, the most
recently used first (`Recency`). Looking a key up or setting it moves it to the front, and setting a
new key drops the last pair if there are too many.

`RecencyCache` runs such a list through a sequence of calls and keeps account of what went in and
out. Whatever the calls are, it holds at most as many pairs as its capacity allows, and every pair
that went in is still held, was dropped, or was deleted (`RecencyCache.balanced_after`).
-/

namespace Framework

variable {κ ν : Type}

/-- Pairs with distinct keys, the most recently used first. -/
structure Recency (κ ν : Type) where
  pairs : List (κ × ν)
  nodup : (pairs.map Prod.fst).Nodup

namespace Recency

def empty : Recency κ ν :=
  ⟨[], List.nodup_nil⟩

def length (r : Recency κ ν) : ℕ :=
  r.pairs.length

/-- Without the pair that was used least recently. -/
def dropLast (r : Recency κ ν) : Recency κ ν :=
  ⟨r.pairs.dropLast, r.nodup.sublist ((List.dropLast_sublist _).map _)⟩

variable [DecidableEq κ]

/-- The value of a key. -/
def value (r : Recency κ ν) (k : κ) : Option ν :=
  (r.pairs.find? fun p => p.1 = k).map Prod.snd

/-- Without the pair of a key. -/
def without (r : Recency κ ν) (k : κ) : Recency κ ν :=
  ⟨r.pairs.filter fun p => p.1 ≠ k, r.nodup.sublist (List.filter_sublist.map _)⟩

/-- With a pair at the front. -/
def pushed (r : Recency κ ν) (k : κ) (v : ν) : Recency κ ν where
  pairs := (k, v) :: (r.without k).pairs
  nodup := by
    refine List.nodup_cons.mpr ⟨fun hk => ?_, (r.without k).nodup⟩
    obtain ⟨p, hp, hpk⟩ := List.mem_map.mp hk
    exact absurd hpk (by simpa using (List.mem_filter.mp hp).2)

/-- Move a key to the front, if it is there. -/
def touched (r : Recency κ ν) (k : κ) : Recency κ ν :=
  match r.value k with
  | some v => r.pushed k v
  | none => r

section Lemmas

variable {r : Recency κ ν} {k : κ} {v : ν}

/-- A key has at most one value. -/
theorem value_eq_some_iff : r.value k = some v ↔ (k, v) ∈ r.pairs := by
  unfold value
  have hnodup := r.nodup
  generalize r.pairs = ps at hnodup
  induction ps with
  | nil => simp
  | cons p ps ih =>
    obtain ⟨hp, hps⟩ := List.nodup_cons.mp hnodup
    by_cases hk : p.1 = k
    · rw [List.find?_cons_of_pos (by simpa using hk), Option.map_some, List.mem_cons]
      constructor
      · intro h
        cases h
        exact .inl (Prod.ext hk.symm rfl)
      · rintro (rfl | hmem)
        · rfl
        · -- the key would be there twice
          exact absurd (List.mem_map.mpr ⟨(k, v), hmem, hk.symm⟩) hp
    · rw [List.find?_cons_of_neg (by simpa using hk), List.mem_cons,
        or_iff_right fun heq => hk (by rw [← heq])]
      exact ih hps

theorem value_eq_none_iff : r.value k = none ↔ k ∉ r.pairs.map Prod.fst := by
  rw [← not_iff_not, not_not, ← Ne, Option.ne_none_iff_exists', List.mem_map]
  simp only [value_eq_some_iff]
  constructor
  · rintro ⟨v, hv⟩
    exact ⟨(k, v), hv, rfl⟩
  · rintro ⟨⟨k', v⟩, hv, rfl⟩
    exact ⟨v, hv⟩

theorem filter_ne_eq_self {ps : List (κ × ν)} (h : k ∉ ps.map Prod.fst) :
    ps.filter (fun p => p.1 ≠ k) = ps := by
  refine List.filter_eq_self.mpr fun p hp => ?_
  have hne : p.1 ≠ k := by
    intro heq
    exact h (List.mem_map.mpr ⟨p, hp, heq⟩)
  simpa using hne

/-- Nothing is taken out for a key that is not there. -/
theorem without_eq_self (h : r.value k = none) : (r.without k).pairs = r.pairs :=
  filter_ne_eq_self (value_eq_none_iff.mp h)

/-- A key that is there has one pair. -/
theorem length_without (h : r.value k = some v) : (r.without k).length + 1 = r.length := by
  have hmem := value_eq_some_iff.mp h
  have hnodup := r.nodup
  unfold length without
  dsimp only
  generalize r.pairs = ps at hmem hnodup
  induction ps with
  | nil => cases hmem
  | cons p ps ih =>
    obtain ⟨hp, hps⟩ := List.nodup_cons.mp hnodup
    rcases List.mem_cons.mp hmem with rfl | hmem
    · -- the others have other keys
      rw [List.filter_cons_of_neg (by simp), filter_ne_eq_self hp, List.length_cons]
    · have hne : p.1 ≠ k := by
        intro heq
        exact hp (List.mem_map.mpr ⟨(k, v), hmem, heq.symm⟩)
      rw [List.filter_cons_of_pos (by simpa using hne), List.length_cons, List.length_cons,
        ih hmem hps]

theorem length_touched (r : Recency κ ν) (k : κ) : (r.touched k).length = r.length := by
  unfold touched
  cases h : r.value k with
  | none => rfl
  | some v => exact length_without h

end Lemmas

end Recency

/-! ### Runs of calls -/

inductive CacheCall (κ ν : Type) where
  | get (key : κ)
  | set (key : κ) (value : ν)
  | delete (key : κ)
  deriving DecidableEq, Repr

def CacheCall.isGet : CacheCall κ ν → Bool
  | .get _ => true
  | _ => false

/-- A cache after some calls, with what it has answered, and with the number of pairs that were
inserted, dropped for lack of room, and deleted. -/
structure RecencyCache (κ ν : Type) where
  held : Recency κ ν
  answers : List (Option ν)
  inserted : ℕ
  evicted : ℕ
  removed : ℕ

namespace RecencyCache

def new : RecencyCache κ ν :=
  ⟨.empty, [], 0, 0, 0⟩

variable [DecidableEq κ]

/-- Set a key. Without capacity nothing is stored. -/
def set (capacity : ℤ) (c : RecencyCache κ ν) (k : κ) (v : ν) : RecencyCache κ ν :=
  if capacity ≤ 0 then c
  else
    let held := c.held.pushed k v
    match c.held.value k with
    | some _ => { c with held := held }
    | none =>
      if capacity < held.length then
        { c with held := held.dropLast, inserted := c.inserted + 1, evicted := c.evicted + 1 }
      else { c with held := held, inserted := c.inserted + 1 }

def delete (c : RecencyCache κ ν) (k : κ) : RecencyCache κ ν :=
  match c.held.value k with
  | some _ => { c with held := c.held.without k, removed := c.removed + 1 }
  | none => c

def step (capacity : ℤ) (c : RecencyCache κ ν) : CacheCall κ ν → RecencyCache κ ν
  | .get k => { c with held := c.held.touched k, answers := c.answers ++ [c.held.value k] }
  | .set k v => c.set capacity k v
  | .delete k => c.delete k

/-- A new cache after some calls. -/
def after (capacity : ℤ) (calls : List (CacheCall κ ν)) : RecencyCache κ ν :=
  calls.foldl (step capacity) new

/-! ### Capacity and account -/

/-- The account of the pairs, and the room there is for them. -/
structure Balanced (capacity : ℤ) (c : RecencyCache κ ν) : Prop where
  room : (c.held.length : ℤ) ≤ max capacity 0
  account : c.inserted = c.held.length + c.evicted + c.removed

section Lemmas

variable {capacity : ℤ} {c : RecencyCache κ ν}

theorem Balanced.set (h : c.Balanced capacity) (k : κ) (v : ν) :
    (c.set capacity k v).Balanced capacity := by
  have hroom := h.room
  have haccount := h.account
  unfold RecencyCache.set
  split_ifs with hcap
  · exact h
  dsimp only
  cases hk : c.held.value k with
  | some w =>
    -- the pair is replaced
    have hlen : (c.held.pushed k v).length = c.held.length := Recency.length_without hk
    exact ⟨hlen ▸ hroom, by dsimp only; rw [hlen]; exact haccount⟩
  | none =>
    have hlen : (c.held.pushed k v).length = c.held.length + 1 := by
      show ((k, v) :: (c.held.without k).pairs).length = _
      rw [Recency.without_eq_self hk]
      rfl
    have hlast : (c.held.pushed k v).dropLast.length = c.held.length := by
      show (c.held.pushed k v).pairs.dropLast.length = _
      rw [List.length_dropLast]
      exact Nat.sub_eq_of_eq_add hlen
    dsimp only
    split_ifs with hfull
    · exact ⟨by dsimp only; omega, by dsimp only; omega⟩
    · exact ⟨by dsimp only; omega, by dsimp only; omega⟩

theorem Balanced.delete (h : c.Balanced capacity) (k : κ) : (c.delete k).Balanced capacity := by
  have hroom := h.room
  have haccount := h.account
  unfold RecencyCache.delete
  cases hk : c.held.value k with
  | none => exact h
  | some v =>
    have hlen := Recency.length_without hk
    exact ⟨by dsimp only; omega, by dsimp only; omega⟩

theorem Balanced.step (h : c.Balanced capacity) (call : CacheCall κ ν) :
    (c.step capacity call).Balanced capacity := by
  cases call with
  | get k =>
    refine ⟨?_, ?_⟩
    · show ((c.held.touched k).length : ℤ) ≤ _
      rw [Recency.length_touched]
      exact h.room
    · show c.inserted = (c.held.touched k).length + c.evicted + c.removed
      rw [Recency.length_touched]
      exact h.account
  | set k v => exact h.set k v
  | delete k => exact h.delete k

theorem answers_delete (c : RecencyCache κ ν) (k : κ) : (c.delete k).answers = c.answers := by
  unfold RecencyCache.delete
  split <;> rfl

theorem balanced_after (capacity : ℤ) (calls : List (CacheCall κ ν)) :
    (after capacity calls).Balanced capacity := by
  have hnew : (new : RecencyCache κ ν).Balanced capacity := ⟨le_max_right _ _, rfl⟩
  unfold after
  generalize (new : RecencyCache κ ν) = c at hnew
  induction calls generalizing c with
  | nil => exact hnew
  | cons call calls ih => exact ih _ (hnew.step call)

end Lemmas

end RecencyCache

end Framework
