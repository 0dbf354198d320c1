import Mathlib.Data.Int.Basic
import Mathlib.Data.List.AList

/-!
# Gateway: the LRU cache

`LRU` (`internal/cache/lru.go`), for any keys and values. As in the source there is a map from keys
to list elements beside the list itself; an element is known by its number among all that were ever
pushed. What `Get` finds is `peek`, and the lemmas say how the calls change it: recency and capacity
only ever make something disappear.
-/

namespace BoilerPulse
namespace Gateway

variable {κ ν : Type}

/-- What a list element points to. -/
structure CacheEntry (κ ν : Type) where
  key : κ
  value : ν
  deriving DecidableEq, Repr

structure LRU (κ ν : Type) where
  capacity : ℤ
  items : AList fun _ : κ => ℕ
  /-- The most recently used element is at the front. -/
  order : List ℕ
  /-- Every element that was pushed so far. -/
  entries : List (CacheEntry κ ν)
  hits : ℕ
  misses : ℕ
  evictions : ℕ

namespace LRU

/-- `NewLRU`. -/
def new (capacity : ℤ) : LRU κ ν :=
  ⟨capacity, ∅, [], [], 0, 0, 0⟩

/-- `MoveToFront` of `container/list`, which ignores an element that is not in the list. -/
def moveToFront (c : LRU κ ν) (id : ℕ) : LRU κ ν :=
  if id ∈ c.order then { c with order := id :: c.order.erase id } else c

@[simp] theorem moveToFront_items (c : LRU κ ν) (id : ℕ) : (c.moveToFront id).items = c.items := by
  unfold moveToFront
  split <;> rfl

@[simp] theorem moveToFront_entries (c : LRU κ ν) (id : ℕ) :
    (c.moveToFront id).entries = c.entries := by
  unfold moveToFront
  split <;> rfl

variable [DecidableEq κ]

def get (c : LRU κ ν) (key : κ) : LRU κ ν × Option ν :=
  match c.items.lookup key with
  | none => ({ c with misses := c.misses + 1 }, none)
  | some id =>
    -- an element of `items` was pushed at some time, so its entry is there
    let c := c.moveToFront id
    ({ c with hits := c.hits + 1 }, (c.entries[id]?).map CacheEntry.value)

/-- Remove the element at the back, and its key. -/
def evict (c : LRU κ ν) : LRU κ ν :=
  match c.order.getLast? with
  | none => c
  | some oldest =>
    { c with
      order := c.order.dropLast
      items := match c.entries[oldest]? with
        | some e => c.items.erase e.key
        | none => c.items
      evictions := c.evictions + 1 }

/-- Push a new element. -/
def push (c : LRU κ ν) (key : κ) (value : ν) : LRU κ ν :=
  { c with
    order := c.entries.length :: c.order
    items := c.items.insert key c.entries.length
    entries := c.entries ++ [⟨key, value⟩] }

def set (c : LRU κ ν) (key : κ) (value : ν) : LRU κ ν :=
  -- a cache without capacity holds nothing
  if c.capacity ≤ 0 then c
  else
    match c.items.lookup key with
    | some id =>
      { c with entries := c.entries.modify id fun e => { e with value := value } }.moveToFront id
    | none =>
      let c := c.push key value
      if c.capacity < c.order.length then c.evict else c

def delete (c : LRU κ ν) (key : κ) : LRU κ ν :=
  match c.items.lookup key with
  | some id => { c with order := c.order.erase id, items := c.items.erase key }
  | none => c

/-! ### What is in the cache -/

/-- What `Get` finds. -/
def peek (c : LRU κ ν) (key : κ) : Option ν :=
  (c.items.lookup key).bind fun id => (c.entries[id]?).map CacheEntry.value

/-- The element of a key holds that key. -/
def Keyed (c : LRU κ ν) : Prop :=
  ∀ k id, c.items.lookup k = some id → ∃ v, c.entries[id]? = some ⟨k, v⟩

section Lemmas

variable {c c' : LRU κ ν} {k k' : κ} {v x : ν}

/-- Only the map and the elements matter. -/
theorem peek_congr (hitems : c'.items = c.items) (hentries : c'.entries = c.entries) :
    c'.peek = c.peek := by
  funext k
  rw [peek, hitems, hentries, peek]

theorem Keyed.congr (hc : c.Keyed) (hitems : c'.items = c.items)
    (hentries : c'.entries = c.entries) :
    c'.Keyed := by
  intro k id hk
  rw [hitems] at hk
  rw [hentries]
  exact hc k id hk

theorem keyed_new (capacity : ℤ) : (new capacity : LRU κ ν).Keyed :=
  nofun

theorem peek_new (capacity : ℤ) (k : κ) : (new capacity : LRU κ ν).peek k = none := by
  simp [peek, new]

/-! ### `Get` -/

theorem get_items (c : LRU κ ν) (k : κ) : (c.get k).1.items = c.items := by
  unfold get
  split
  · rfl
  · exact moveToFront_items c _

theorem get_entries (c : LRU κ ν) (k : κ) : (c.get k).1.entries = c.entries := by
  unfold get
  split
  · rfl
  · exact moveToFront_entries c _

@[simp] theorem get_snd (c : LRU κ ν) (k : κ) : (c.get k).2 = c.peek k := by
  unfold get peek
  cases c.items.lookup k with
  | none => rfl
  | some id => simp

@[simp] theorem peek_get (c : LRU κ ν) (k : κ) : (c.get k).1.peek = c.peek :=
  peek_congr (get_items c k) (get_entries c k)

theorem Keyed.get (hc : c.Keyed) (k : κ) : (c.get k).1.Keyed :=
  hc.congr (get_items c k) (get_entries c k)

/-! ### `Delete` -/

theorem delete_items (c : LRU κ ν) (k k' : κ) :
    (c.delete k).items.lookup k' = if k' = k then none else c.items.lookup k' := by
  unfold delete
  by_cases heq : k' = k
  · subst heq
    rw [if_pos rfl]
    split
    · exact AList.lookup_erase k' c.items
    · next hk => exact hk
  · rw [if_neg heq]
    split
    · exact AList.lookup_erase_ne heq
    · rfl

theorem delete_entries (c : LRU κ ν) (k : κ) : (c.delete k).entries = c.entries := by
  unfold delete
  split <;> rfl

theorem peek_delete (c : LRU κ ν) (k k' : κ) :
    (c.delete k).peek k' = if k' = k then none else c.peek k' := by
  rw [peek, delete_items, delete_entries]
  split
  · rfl
  · rfl

theorem Keyed.delete (hc : c.Keyed) (k : κ) : (c.delete k).Keyed := by
  intro k' id hk'
  rw [delete_items] at hk'
  rw [delete_entries]
  split at hk'
  · cases hk'
  · exact hc k' id hk'

/-! ### `Set` -/

theorem evict_entries (c : LRU κ ν) : c.evict.entries = c.entries := by
  unfold evict
  split <;> rfl

/-- Eviction only removes. -/
theorem items_of_evict {id : ℕ} (h : c.evict.items.lookup k = some id) :
    c.items.lookup k = some id := by
  unfold evict at h
  split at h
  · exact h
  · dsimp only at h
    split at h
    · next e _ =>
      by_cases heq : k = e.key
      · rw [heq, AList.lookup_erase] at h
        cases h
      · rwa [AList.lookup_erase_ne heq] at h
    · exact h

theorem Keyed.evict (hc : c.Keyed) : c.evict.Keyed := by
  intro k id hk
  rw [evict_entries]
  exact hc k id (items_of_evict hk)

theorem peek_of_evict (h : c.evict.peek k = some x) : c.peek k = some x := by
  obtain ⟨id, hid, hx⟩ := Option.bind_eq_some_iff.mp h
  rw [evict_entries] at hx
  exact Option.bind_eq_some_iff.mpr ⟨id, items_of_evict hid, hx⟩

theorem Keyed.push (hc : c.Keyed) (k : κ) (v : ν) : (c.push k v).Keyed := by
  intro k' id hk'
  by_cases heq : k' = k
  · subst heq
    have hid : c.entries.length = id := by
      simpa [LRU.push, AList.lookup_insert] using hk'
    exact ⟨v, by simp [LRU.push, ← hid]⟩
  · have hold : c.items.lookup k' = some id := by
      simpa [LRU.push, AList.lookup_insert_ne heq] using hk'
    obtain ⟨v', hv'⟩ := hc k' id hold
    refine ⟨v', ?_⟩
    obtain ⟨hlt, -⟩ := List.getElem?_eq_some_iff.mp hv'
    rw [LRU.push, List.getElem?_append_left hlt, hv']

theorem peek_push (hc : c.Keyed) (k k' : κ) (v : ν) :
    (c.push k v).peek k' = if k' = k then some v else c.peek k' := by
  by_cases heq : k' = k
  · subst heq
    simp [peek, LRU.push, AList.lookup_insert]
  · rw [if_neg heq, peek, peek, LRU.push, AList.lookup_insert_ne heq]
    cases hk' : c.items.lookup k' with
    | none => rfl
    | some id =>
      obtain ⟨v', hv'⟩ := hc k' id hk'
      obtain ⟨hlt, -⟩ := List.getElem?_eq_some_iff.mp hv'
      rw [Option.bind_some, Option.bind_some, List.getElem?_append_left hlt]

theorem Keyed.set (hc : c.Keyed) (k : κ) (v : ν) : (c.set k v).Keyed := by
  unfold LRU.set
  split
  · exact hc
  cases hk : c.items.lookup k with
  | some id =>
    intro k' id' hk'
    rw [moveToFront_items] at hk'
    obtain ⟨v', hv'⟩ := hc k' id' hk'
    rw [moveToFront_entries]
    by_cases hid : id = id'
    · exact ⟨v, by simp [hv', hid]⟩
    · exact ⟨v', by simp [hv', hid]⟩
  | none =>
    dsimp only
    split
    · exact (hc.push k v).evict
    · exact hc.push k v

/-- What is there after a `Set` was set, or was there before. -/
theorem peek_of_set (hc : c.Keyed) (h : (c.set k v).peek k' = some x) :
    (k' = k ∧ x = v) ∨ c.peek k' = some x := by
  unfold LRU.set at h
  split at h
  · exact .inr h
  cases hk : c.items.lookup k with
  | some id =>
    rw [hk] at h
    obtain ⟨id', hid', hx⟩ := Option.bind_eq_some_iff.mp h
    rw [moveToFront_items] at hid'
    rw [moveToFront_entries, List.getElem?_modify] at hx
    obtain ⟨w, hw⟩ := hc k id hk
    obtain ⟨w', hw'⟩ := hc k' id' hid'
    by_cases hid : id = id'
    · -- the element was that of `k`
      subst hid
      have hkk : k' = k := by
        rw [hw] at hw'
        exact (CacheEntry.mk.inj (Option.some.inj hw')).1.symm
      exact .inl ⟨hkk, by simpa [hw, eq_comm] using hx⟩
    · refine .inr (Option.bind_eq_some_iff.mpr ⟨id', hid', ?_⟩)
      simpa [hid] using hx
  | none =>
    rw [hk] at h
    have hpush : (c.push k v).peek k' = some x := by
      dsimp only at h
      split at h
      · exact peek_of_evict h
      · exact h
    rw [peek_push hc] at hpush
    split at hpush
    · next heq => exact .inl ⟨heq, (Option.some.inj hpush).symm⟩
    · exact .inr hpush

end Lemmas

end LRU

end Gateway
end BoilerPulse
