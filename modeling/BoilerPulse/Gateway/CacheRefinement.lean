import Mathlib.Data.List.NodupEquivFin
import BoilerPulse.Framework.Recency
import BoilerPulse.Gateway.Cache

/-!
# Gateway: the LRU cache is a recency list

`LRU` keeps a map beside a linked list. `Linked` says that the two fit together: each element of the
list is the one that the map has for its key, and each element of the map is in the list. Under
this invariant the list, read from the front, is a list of pairs with distinct keys (`LRU.pairs`),
and every call does to it what the reference model `Framework.RecencyCache` does: `Simulates` is
kept by `Get`, `Set` and `Delete`, and so holds after any sequence of calls on a new cache.

The call that could make map and list drift apart is a `Set` that evicts, as it removes another
key than its own (`Linked.evict`).
-/

namespace BoilerPulse
namespace Gateway

open Framework

variable {κ ν : Type}

namespace LRU

/-- Key and value of an element. -/
def pairOf (c : LRU κ ν) (id : ℕ) : Option (κ × ν) :=
  (c.entries[id]?).map fun e => (e.key, e.value)

/-- What the list holds, the most recently used first. -/
def pairs (c : LRU κ ν) : List (κ × ν) :=
  c.order.filterMap c.pairOf

theorem moveToFront_order (c : LRU κ ν) {id : ℕ} (hid : id ∈ c.order) :
    (c.moveToFront id).order = id :: c.order.erase id := by
  rw [moveToFront, if_pos hid]

variable [DecidableEq κ]

/-- Map and list fit together. -/
structure Linked (c : LRU κ ν) : Prop where
  keyed : c.Keyed
  nodup : c.order.Nodup
  listed : ∀ k id, c.items.lookup k = some id → id ∈ c.order
  mapped : ∀ id ∈ c.order, ∃ e, c.entries[id]? = some e ∧ c.items.lookup e.key = some id

section Lemmas

variable {c c' : LRU κ ν} {k : κ} {v : ν} {id : ℕ}

/-- The order of the list does not matter. -/
theorem Linked.perm (h : c.Linked) (hitems : c'.items = c.items) (hentries : c'.entries = c.entries)
    (horder : c'.order.Perm c.order) : c'.Linked where
  keyed := h.keyed.congr hitems hentries
  nodup := horder.nodup_iff.mpr h.nodup
  listed k id hk := horder.mem_iff.mpr (h.listed k id (hitems ▸ hk))
  mapped id hid := by
    rw [hitems, hentries]
    exact h.mapped id (horder.mem_iff.mp hid)

/-- Elements with one key are one element. -/
theorem Linked.lookup_key (h : c.Linked) (hid : id ∈ c.order) {e : CacheEntry κ ν}
    (he : c.entries[id]? = some e) : c.items.lookup e.key = some id := by
  obtain ⟨e', he', hlookup⟩ := h.mapped id hid
  obtain rfl : e' = e := Option.some.inj (he'.symm.trans he)
  exact hlookup

theorem Linked.mem_pairs_iff (h : c.Linked) : (k, v) ∈ c.pairs ↔ c.peek k = some v := by
  simp only [pairs, List.mem_filterMap, pairOf, Option.map_eq_some_iff, Prod.mk.injEq, peek,
    Option.bind_eq_some_iff]
  constructor
  · rintro ⟨id, hid, e, he, rfl, rfl⟩
    exact ⟨id, h.lookup_key hid he, e, he, rfl⟩
  · rintro ⟨id, hid, e, he, rfl⟩
    obtain ⟨w, hw⟩ := h.keyed k id hid
    obtain rfl : e = ⟨k, w⟩ := Option.some.inj (he.symm.trans hw)
    exact ⟨id, h.listed k id hid, _, he, rfl, rfl⟩

theorem Linked.nodup_pairs (h : c.Linked) : (c.pairs.map Prod.fst).Nodup := by
  rw [pairs, List.map_filterMap, List.Nodup, List.pairwise_filterMap]
  refine h.nodup.imp_of_mem fun {id id'} hid hid' hne k hk k' hk' heq => hne ?_
  obtain ⟨p, hp, rfl⟩ := Option.map_eq_some_iff.mp hk
  obtain ⟨p', hp', rfl⟩ := Option.map_eq_some_iff.mp hk'
  obtain ⟨e, he, rfl⟩ := Option.map_eq_some_iff.mp hp
  obtain ⟨e', he', rfl⟩ := Option.map_eq_some_iff.mp hp'
  have hlookup := h.lookup_key hid he
  rw [show e.key = e'.key from heq, h.lookup_key hid' he'] at hlookup
  exact (Option.some.inj hlookup).symm

theorem Linked.length_pairs (h : c.Linked) : c.pairs.length = c.order.length := by
  refine List.filterMap_length_eq_length.mpr fun id hid => ?_
  obtain ⟨e, he, -⟩ := h.mapped id hid
  rw [pairOf, he]
  rfl

/-- The cache as a recency list. -/
def Linked.recency (h : c.Linked) : Recency κ ν :=
  ⟨c.pairs, h.nodup_pairs⟩

theorem Linked.value_recency (h : c.Linked) (k : κ) : h.recency.value k = c.peek k := by
  ext v
  rw [Recency.value_eq_some_iff]
  exact h.mem_pairs_iff

/-- Map and list have the same keys. -/
theorem Linked.keys_perm (h : c.Linked) : c.items.keys.Perm (c.pairs.map Prod.fst) := by
  refine (List.perm_ext_iff_of_nodup (AList.keys_nodup _) h.nodup_pairs).mpr fun k => ?_
  rw [← AList.mem_keys, ← AList.lookup_isSome, List.mem_map]
  constructor
  · intro hk
    obtain ⟨id, hid⟩ := Option.isSome_iff_exists.mp hk
    obtain ⟨v, hv⟩ := h.keyed k id hid
    refine ⟨(k, v), h.mem_pairs_iff.mpr ?_, rfl⟩
    rw [peek, hid, Option.bind_some, hv]
    rfl
  · rintro ⟨⟨k', v⟩, hmem, rfl⟩
    obtain ⟨id, hid, -⟩ := Option.bind_eq_some_iff.mp (h.mem_pairs_iff.mp hmem)
    exact Option.isSome_iff_exists.mpr ⟨id, hid⟩

/-- The list without the element of a key. -/
theorem Linked.pairs_erase (h : c.Linked) (hk : c.items.lookup k = some id) :
    (c.order.erase id).filterMap c.pairOf = c.pairs.filter fun p => p.1 ≠ k := by
  rw [h.nodup.erase_eq_filter, List.filterMap_filter, pairs, List.filter_filterMap]
  refine List.filterMap_congr fun id' hid' => ?_
  obtain ⟨e, he, hlookup⟩ := h.mapped id' hid'
  -- in a linked cache an element and its key determine each other
  have hkey : e.key = k ↔ id' = id := by
    constructor
    · rintro rfl
      exact Option.some.inj (hlookup.symm.trans hk)
    · rintro rfl
      obtain ⟨w, hw⟩ := h.keyed k id' hk
      rw [Option.some.inj (he.symm.trans hw)]
  have hpair : c.pairOf id' = some (e.key, e.value) := by rw [pairOf, he]; rfl
  rw [hpair]
  by_cases hid : id' = id
  · have heq : e.key = k := hkey.mpr hid
    simp [hid, heq, Option.filter]
  · have hne : e.key ≠ k := fun heq => hid (hkey.mp heq)
    simp [hid, hne, Option.filter]

/-! ### `Get` -/

theorem Linked.moveToFront (h : c.Linked) (hid : id ∈ c.order) : (c.moveToFront id).Linked := by
  refine h.perm (moveToFront_items c id) (moveToFront_entries c id) ?_
  rw [moveToFront_order c hid]
  exact (List.perm_cons_erase hid).symm

theorem Linked.pairs_moveToFront (h : c.Linked) (hk : c.items.lookup k = some id)
    (hv : c.entries[id]? = some ⟨k, v⟩) :
    (c.moveToFront id).pairs = (k, v) :: c.pairs.filter fun p => p.1 ≠ k := by
  have hpair : c.pairOf id = some (k, v) := by rw [pairOf, hv]; rfl
  have hsame : (c.moveToFront id).pairOf = c.pairOf := by
    funext id'
    rw [pairOf, moveToFront_entries, pairOf]
  rw [pairs, hsame, moveToFront_order c (h.listed k id hk), List.filterMap_cons, hpair,
    ← h.pairs_erase hk]

/-- `Get` moves the key to the front. -/
theorem Linked.get (h : c.Linked) (k : κ) :
    (c.get k).1.Linked ∧ (c.get k).1.pairs = (h.recency.touched k).pairs := by
  have hvalue := h.value_recency k
  unfold LRU.get Recency.touched
  cases hk : c.items.lookup k with
  | none =>
    rw [peek, hk, Option.bind_none] at hvalue
    rw [hvalue]
    exact ⟨h.perm rfl rfl (List.Perm.refl _), rfl⟩
  | some id =>
    obtain ⟨v, hv⟩ := h.keyed k id hk
    rw [peek, hk, Option.bind_some, hv] at hvalue
    rw [hvalue]
    exact ⟨(h.moveToFront (h.listed k id hk)).perm rfl rfl (List.Perm.refl _),
      h.pairs_moveToFront hk hv⟩

/-! ### `Delete` -/

theorem Linked.delete (h : c.Linked) (k : κ) :
    (c.delete k).Linked ∧ (c.delete k).pairs = (h.recency.without k).pairs := by
  have hitems := delete_items c k
  have hentries := delete_entries c k
  cases hk : c.items.lookup k with
  | none =>
    have hsame : c.delete k = c := by rw [LRU.delete, hk]
    have hvalue : h.recency.value k = none := by
      rw [h.value_recency, peek, hk, Option.bind_none]
    rw [hsame, Recency.without_eq_self hvalue]
    exact ⟨h, rfl⟩
  | some id =>
    have horder : (c.delete k).order = c.order.erase id := by rw [LRU.delete, hk]
    refine ⟨⟨h.keyed.delete k, ?_, fun k' id' hk' => ?_, fun id' hid' => ?_⟩, ?_⟩
    · rw [horder]
      exact h.nodup.erase id
    · -- another key has another element
      rw [hitems] at hk'
      split_ifs at hk' with hne
      rw [horder, h.nodup.mem_erase_iff]
      refine ⟨fun heq => hne ?_, h.listed k' id' hk'⟩
      obtain ⟨w, hw⟩ := h.keyed k id hk
      obtain ⟨w', hw'⟩ := h.keyed k' id' hk'
      rw [heq, hw] at hw'
      exact (CacheEntry.mk.inj (Option.some.inj hw')).1.symm
    · rw [horder, h.nodup.mem_erase_iff] at hid'
      obtain ⟨e, he, hlookup⟩ := h.mapped id' hid'.2
      refine ⟨e, hentries ▸ he, ?_⟩
      rw [hitems, if_neg fun heq => ?_]
      · exact hlookup
      · rw [heq, hk] at hlookup
        exact hid'.1 (Option.some.inj hlookup).symm
    · have hsame : (c.delete k).pairOf = c.pairOf := by
        funext id'
        rw [pairOf, hentries, pairOf]
      rw [pairs, horder, hsame]
      exact h.pairs_erase hk

/-! ### `Set` -/

/-- Another value for an element. -/
theorem Linked.modify (h : c.Linked) (hk : c.items.lookup k = some id) (v : ν) :
    { c with entries := c.entries.modify id fun e => { e with value := v } }.Linked ∧
      { c with entries := c.entries.modify id fun e => { e with value := v } }.pairs.filter
        (fun p => p.1 ≠ k) = c.pairs.filter fun p => p.1 ≠ k := by
  have hlinked : { c with
      entries := c.entries.modify id fun e => { e with value := v } }.Linked := by
    refine ⟨fun k' id' hk' => ?_, h.nodup, h.listed, fun id' hid' => ?_⟩
    · obtain ⟨w, hw⟩ := h.keyed k' id' hk'
      rw [List.getElem?_modify, hw]
      by_cases hid : id = id'
      · exact ⟨v, by simp [hid]⟩
      · exact ⟨w, by simp [hid]⟩
    · obtain ⟨e, he, hlookup⟩ := h.mapped id' hid'
      rw [List.getElem?_modify, he]
      by_cases hid : id = id'
      · exact ⟨{ e with value := v }, by simp [hid], hlookup⟩
      · exact ⟨e, by simp [hid], hlookup⟩
  refine ⟨hlinked, ?_⟩
  rw [← hlinked.pairs_erase hk, ← h.pairs_erase hk]
  refine List.filterMap_congr fun id' hid' => ?_
  have hne : id ≠ id' := (h.nodup.mem_erase_iff.mp hid').1.symm
  simp [pairOf, hne]

/-- A new element at the front. -/
theorem Linked.push (h : c.Linked) (hk : c.items.lookup k = none) (v : ν) :
    (c.push k v).Linked ∧ (c.push k v).pairs = (k, v) :: c.pairs := by
  -- elements are numbered as they are made, so the new one is none of those in the list
  have hold : ∀ id ∈ c.order, id < c.entries.length := by
    intro id hid
    obtain ⟨e, he, -⟩ := h.mapped id hid
    exact (List.getElem?_eq_some_iff.mp he).1
  refine ⟨⟨h.keyed.push k v, ?_, fun k' id hk' => ?_, fun id hid => ?_⟩, ?_⟩
  · exact List.nodup_cons.mpr ⟨fun hmem => (hold _ hmem).false, h.nodup⟩
  · by_cases heq : k' = k
    · subst heq
      have hid : c.entries.length = id := by simpa [LRU.push, AList.lookup_insert] using hk'
      exact hid ▸ List.mem_cons_self
    · have hprev : c.items.lookup k' = some id := by
        simpa [LRU.push, AList.lookup_insert_ne heq] using hk'
      exact List.mem_cons_of_mem _ (h.listed k' id hprev)
  · rcases List.mem_cons.mp hid with rfl | hid
    · exact ⟨⟨k, v⟩, by simp [LRU.push], by simp [LRU.push, AList.lookup_insert]⟩
    · obtain ⟨e, he, hlookup⟩ := h.mapped id hid
      refine ⟨e, ?_, ?_⟩
      · rw [LRU.push, List.getElem?_append_left (hold id hid), he]
      · have hne : e.key ≠ k := by
          intro heq
          rw [heq, hk] at hlookup
          cases hlookup
        rw [LRU.push, AList.lookup_insert_ne hne, hlookup]
  · have hnew : (c.push k v).pairOf c.entries.length = some (k, v) := by
      simp [pairOf, LRU.push]
    have horder : (c.push k v).order = c.entries.length :: c.order := rfl
    rw [pairs, horder, List.filterMap_cons, hnew]
    refine congrArg _ (List.filterMap_congr fun id hid => ?_)
    rw [pairOf, LRU.push, List.getElem?_append_left (hold id hid), pairOf]

/-- **Eviction** takes an element out of the list and its key, which is not the one being set, out
of the map. -/
theorem Linked.evict (h : c.Linked) (hne : c.order ≠ []) :
    c.evict.Linked ∧ c.evict.pairs = c.pairs.dropLast ∧ c.evict.evictions = c.evictions + 1 := by
  obtain ⟨init, oldest, horder⟩ : ∃ init oldest, c.order = init ++ [oldest] :=
    ⟨c.order.dropLast, c.order.getLast hne, (List.dropLast_append_getLast hne).symm⟩
  have hmem : oldest ∈ c.order := by rw [horder]; simp
  obtain ⟨e, he, hlookup⟩ := h.mapped oldest hmem
  have hevict : c.evict = { c with
      order := init, items := c.items.erase e.key, evictions := c.evictions + 1 } := by
    rw [LRU.evict, horder, List.getLast?_concat]
    simp only [he, List.dropLast_concat]
  have hnodup := h.nodup
  rw [horder] at hnodup
  have hother : ∀ id ∈ init, id ≠ oldest := by
    intro id hid heq
    exact (List.nodup_append.mp hnodup).2.2 id hid oldest (by simp) heq
  have hkeyed := h.keyed.evict
  rw [hevict] at hkeyed ⊢
  refine ⟨⟨hkeyed, (List.nodup_append.mp hnodup).1, fun k id hk => ?_, fun id hid => ?_⟩, ?_, rfl⟩
  · -- the key that is gone had no other element
    by_cases hkey : k = e.key
    · rw [hkey, AList.lookup_erase] at hk
      cases hk
    · rw [AList.lookup_erase_ne hkey] at hk
      have hid := h.listed k id hk
      rw [horder, List.mem_append, List.mem_singleton] at hid
      refine hid.resolve_right fun heq => hkey ?_
      obtain ⟨w, hw⟩ := h.keyed k id hk
      rw [heq, he] at hw
      rw [Option.some.inj hw]
  · obtain ⟨e', he', hlookup'⟩ := h.mapped id (by rw [horder]; exact List.mem_append_left _ hid)
    refine ⟨e', he', ?_⟩
    rw [AList.lookup_erase_ne fun heq => hother id hid ?_]
    · exact hlookup'
    · rw [heq, hlookup] at hlookup'
      exact (Option.some.inj hlookup').symm
  · have hlast : c.pairOf oldest = some (e.key, e.value) := by rw [pairOf, he]; rfl
    show init.filterMap c.pairOf = (c.order.filterMap c.pairOf).dropLast
    rw [horder, List.filterMap_append, List.filterMap_cons, hlast, List.filterMap_nil,
      List.dropLast_concat]

end Lemmas

end LRU

/-! ### Runs of calls -/

/-- A cache with what its `Get` has answered so far. -/
structure CacheRun (κ ν : Type) where
  cache : LRU κ ν
  answers : List (Option ν)

namespace CacheRun

variable [DecidableEq κ]

def step (s : CacheRun κ ν) : CacheCall κ ν → CacheRun κ ν
  | .get k => ⟨(s.cache.get k).1, s.answers ++ [(s.cache.get k).2]⟩
  | .set k v => { s with cache := s.cache.set k v }
  | .delete k => { s with cache := s.cache.delete k }

/-- A new cache after some calls. -/
def after (capacity : ℤ) (calls : List (CacheCall κ ν)) : CacheRun κ ν :=
  calls.foldl step ⟨.new capacity, []⟩

/-- The cache does what the reference model does. -/
structure Simulates (capacity : ℤ) (s : CacheRun κ ν) (r : RecencyCache κ ν) : Prop where
  linked : s.cache.Linked
  capacity : s.cache.capacity = capacity
  pairs : s.cache.pairs = r.held.pairs
  answers : s.answers = r.answers
  evictions : s.cache.evictions = r.evicted
  /-- Every element that was ever pushed is an insertion. -/
  inserted : s.cache.entries.length = r.inserted
  counted : s.cache.hits + s.cache.misses = s.answers.length

section Simulation

variable {capacity : ℤ} {s : CacheRun κ ν} {r : RecencyCache κ ν} {k : κ} {v : ν}

theorem simulates_new (capacity : ℤ) :
    Simulates capacity (⟨.new capacity, []⟩ : CacheRun κ ν) .new where
  linked := ⟨LRU.keyed_new capacity, List.nodup_nil, nofun, nofun⟩
  capacity := rfl
  pairs := rfl
  answers := rfl
  evictions := rfl
  inserted := rfl
  counted := rfl

theorem Simulates.recency (h : Simulates capacity s r) : h.linked.recency = r.held := by
  have hpairs := h.pairs
  unfold LRU.Linked.recency
  cases hr : r.held with
  | mk ps hps =>
    rw [hr] at hpairs
    subst hpairs
    rfl

/-- The reference has a value exactly for the keys of the map. -/
theorem Simulates.value_held (h : Simulates capacity s r) (k : κ) :
    r.held.value k = s.cache.peek k := by
  rw [← h.recency, h.linked.value_recency]

theorem Simulates.get (h : Simulates capacity s r) (k : κ) :
    Simulates capacity (s.step (.get k)) (r.step capacity (.get k)) := by
  obtain ⟨hlinked, hpairs⟩ := h.linked.get k
  rw [h.recency] at hpairs
  have hcounters : (s.cache.get k).1.capacity = s.cache.capacity ∧
      (s.cache.get k).1.evictions = s.cache.evictions ∧
      (s.cache.get k).1.hits + (s.cache.get k).1.misses = s.cache.hits + s.cache.misses + 1 := by
    unfold LRU.get LRU.moveToFront
    split
    · exact ⟨rfl, rfl, rfl⟩
    · split
      · exact ⟨rfl, rfl, Nat.add_right_comm _ _ _⟩
      · exact ⟨rfl, rfl, Nat.add_right_comm _ _ _⟩
  refine ⟨hlinked, hcounters.1.trans h.capacity, hpairs, ?_, hcounters.2.1.trans h.evictions, ?_,
    ?_⟩
  · show s.answers ++ [(s.cache.get k).2] = r.answers ++ [r.held.value k]
    rw [h.answers, LRU.get_snd, h.value_held]
  · show (s.cache.get k).1.entries.length = r.inserted
    rw [LRU.get_entries, h.inserted]
  · show (s.cache.get k).1.hits + (s.cache.get k).1.misses = (s.answers ++ [_]).length
    rw [hcounters.2.2, h.counted, List.length_append, List.length_singleton]

theorem Simulates.delete (h : Simulates capacity s r) (k : κ) :
    Simulates capacity (s.step (.delete k)) (r.step capacity (.delete k)) := by
  obtain ⟨hlinked, hpairs⟩ := h.linked.delete k
  rw [h.recency] at hpairs
  have hcounters : (s.cache.delete k).capacity = s.cache.capacity ∧
      (s.cache.delete k).evictions = s.cache.evictions ∧ (s.cache.delete k).hits = s.cache.hits ∧
      (s.cache.delete k).misses = s.cache.misses := by
    unfold LRU.delete
    split <;> exact ⟨rfl, rfl, rfl, rfl⟩
  have href : (r.delete k).held.pairs = (r.held.without k).pairs ∧
      (r.delete k).evicted = r.evicted ∧ (r.delete k).inserted = r.inserted := by
    unfold RecencyCache.delete
    cases hk : r.held.value k with
    | some v => exact ⟨rfl, rfl, rfl⟩
    | none => exact ⟨(Recency.without_eq_self hk).symm, rfl, rfl⟩
  refine ⟨hlinked, hcounters.1.trans h.capacity, hpairs.trans href.1.symm, ?_, ?_, ?_, ?_⟩
  · exact h.answers.trans (RecencyCache.answers_delete r k).symm
  · exact (hcounters.2.1.trans h.evictions).trans href.2.1.symm
  · show (s.cache.delete k).entries.length = (r.delete k).inserted
    rw [LRU.delete_entries, h.inserted, href.2.2]
  · show (s.cache.delete k).hits + (s.cache.delete k).misses = s.answers.length
    rw [hcounters.2.2.1, hcounters.2.2.2, h.counted]

/-- A `Set` of a key that is there. -/
theorem Simulates.set_held (h : Simulates capacity s r) (hcap : ¬ capacity ≤ 0) {id : ℕ}
    (hk : s.cache.items.lookup k = some id) (v : ν) :
    Simulates capacity (s.step (.set k v)) (r.step capacity (.set k v)) := by
  obtain ⟨hlinked, hpairs⟩ := h.linked.modify hk v
  obtain ⟨w, hw⟩ := h.linked.keyed k id hk
  -- the entry is changed where it stands, and its element moves to the front
  have hset : s.cache.set k v = LRU.moveToFront { s.cache with
      entries := s.cache.entries.modify id fun e => { e with value := v } } id := by
    unfold LRU.set
    rw [if_neg (h.capacity.symm ▸ hcap), hk]
  have hmod : (s.cache.entries.modify id fun e => { e with value := v })[id]? = some ⟨k, v⟩ := by
    rw [List.getElem?_modify, hw]
    simp
  have href : r.set capacity k v = { r with held := r.held.pushed k v } := by
    have hvalue : r.held.value k = some w := by
      rw [h.value_held, LRU.peek, hk, Option.bind_some, hw]
      rfl
    unfold RecencyCache.set
    rw [if_neg hcap, hvalue]
  have hmoved := hlinked.pairs_moveToFront hk hmod
  have hmem := h.linked.listed k id hk
  show Simulates capacity ⟨s.cache.set k v, s.answers⟩ (r.set capacity k v)
  rw [hset, href]
  -- nothing is evicted and nothing allocated
  refine ⟨hlinked.moveToFront hmem, ?_, ?_, h.answers, ?_, ?_, ?_⟩
  · rw [LRU.moveToFront, if_pos hmem]
    exact h.capacity
  · show LRU.pairs _ = (k, v) :: (r.held.without k).pairs
    rw [hmoved, hpairs, h.pairs]
    rfl
  · rw [LRU.moveToFront, if_pos hmem]
    exact h.evictions
  · rw [LRU.moveToFront_entries]
    exact (List.length_modify ..).trans h.inserted
  · rw [LRU.moveToFront, if_pos hmem]
    exact h.counted

/-- A `Set` of a new key, which may evict another one. -/
theorem Simulates.set_new (h : Simulates capacity s r) (hcap : ¬ capacity ≤ 0)
    (hk : s.cache.items.lookup k = none) (v : ν) :
    Simulates capacity (s.step (.set k v)) (r.step capacity (.set k v)) := by
  obtain ⟨hlinked, hpairs⟩ := h.linked.push hk v
  have hvalue : r.held.value k = none := by
    rw [h.value_held, LRU.peek, hk, Option.bind_none]
  have hheld : (r.held.pushed k v).pairs = (s.cache.push k v).pairs := by
    show (k, v) :: (r.held.without k).pairs = _
    rw [Recency.without_eq_self hvalue, hpairs, h.pairs]
  have hlen : (r.held.pushed k v).length = (s.cache.push k v).order.length := by
    rw [Recency.length, hheld, hlinked.length_pairs]
  have hpushed : (s.cache.push k v).entries.length = r.inserted + 1 := by
    rw [← h.inserted]
    exact List.length_append
  show Simulates capacity ⟨s.cache.set k v, s.answers⟩ (r.set capacity k v)
  unfold LRU.set RecencyCache.set
  rw [if_neg (h.capacity.symm ▸ hcap), if_neg hcap, hk, hvalue]
  dsimp only
  rw [hlen, show (s.cache.push k v).capacity = capacity from h.capacity]
  split_ifs with hfull
  · -- the key just set is at the front, so it is another one that is dropped
    obtain ⟨hevicted, hdropped, hcount⟩ := hlinked.evict (List.cons_ne_nil _ _)
    have hcounters : (s.cache.push k v).evict.capacity = capacity ∧
        (s.cache.push k v).evict.hits = s.cache.hits ∧
        (s.cache.push k v).evict.misses = s.cache.misses := by
      unfold LRU.evict
      split <;> exact ⟨h.capacity, rfl, rfl⟩
    refine ⟨hevicted, hcounters.1, ?_, h.answers, ?_, ?_, ?_⟩
    · show _ = (r.held.pushed k v).pairs.dropLast
      rw [hheld, hdropped]
    · exact hcount.trans (congrArg (· + 1) h.evictions)
    · exact (congrArg List.length (LRU.evict_entries _)).trans hpushed
    · show (s.cache.push k v).evict.hits + (s.cache.push k v).evict.misses = s.answers.length
      rw [hcounters.2.1, hcounters.2.2, h.counted]
  · exact ⟨hlinked, h.capacity, hheld.symm, h.answers, h.evictions, hpushed, h.counted⟩

theorem Simulates.step (h : Simulates capacity s r) (call : CacheCall κ ν) :
    Simulates capacity (s.step call) (r.step capacity call) := by
  cases call with
  | get k => exact h.get k
  | delete k => exact h.delete k
  | set k v =>
    by_cases hcap : capacity ≤ 0
    · -- nothing is stored on either side
      have hset : s.cache.set k v = s.cache := by rw [LRU.set, h.capacity, if_pos hcap]
      have href : r.set capacity k v = r := by rw [RecencyCache.set, if_pos hcap]
      show Simulates capacity ⟨s.cache.set k v, s.answers⟩ (r.set capacity k v)
      rw [hset, href]
      exact h
    · cases hk : s.cache.items.lookup k with
      | some id => exact h.set_held hcap hk v
      | none => exact h.set_new hcap hk v

theorem simulates_after (capacity : ℤ) (calls : List (CacheCall κ ν)) :
    Simulates capacity (after capacity calls) (.after capacity calls) := by
  have hrun : ∀ (calls : List (CacheCall κ ν)) {s : CacheRun κ ν} {r : RecencyCache κ ν},
      Simulates capacity s r → Simulates capacity (calls.foldl CacheRun.step s)
          (calls.foldl (RecencyCache.step capacity) r) := by
    intro calls
    induction calls with
    | nil => exact fun h => h
    | cons call calls ih => exact fun h => ih (h.step call)
  exact hrun calls (simulates_new capacity)

theorem length_answers (calls : List (CacheCall κ ν)) : ∀ s : CacheRun κ ν,
    (calls.foldl CacheRun.step s).answers.length
      = s.answers.length + calls.countP CacheCall.isGet := by
  induction calls with
  | nil => exact fun s => rfl
  | cons call calls ih =>
    intro s
    rw [List.foldl_cons, ih, List.countP_cons]
    cases call with
    | get k =>
      show (s.answers ++ [_]).length + _ = s.answers.length + (_ + 1)
      rw [List.length_append, List.length_singleton, Nat.add_assoc, Nat.add_comm 1]
    | set k v => rfl
    | delete k => rfl

end Simulation

/-- **The cache is a recency list**, after any sequence of calls on a new one of any capacity. -/
structure Refines (capacity : ℤ) (calls : List (CacheCall κ ν)) : Prop where
  /-- `Get` answers as the reference does. -/
  answers : (after capacity calls).answers = (RecencyCache.after capacity calls).answers
  /-- The list holds what the reference holds, in the same order. -/
  pairs : (after capacity calls).cache.pairs = (RecencyCache.after capacity calls).held.pairs
  /-- Map and list have the same keys, each once. -/
  keys : (after capacity calls).cache.items.keys.Perm
    ((after capacity calls).cache.pairs.map Prod.fst)
  distinct : ((after capacity calls).cache.pairs.map Prod.fst).Nodup
  elements : (after capacity calls).cache.order.length = (after capacity calls).cache.pairs.length
  bounded : ((after capacity calls).cache.pairs.length : ℤ) ≤ max capacity 0
  /-- Hits and misses are the calls of `Get`. -/
  counted : (after capacity calls).cache.hits + (after capacity calls).cache.misses
    = calls.countP CacheCall.isGet
  /-- What was inserted is still held, was evicted, or was deleted. -/
  inserted : (after capacity calls).cache.entries.length
    = (RecencyCache.after capacity calls).inserted
  account : (RecencyCache.after capacity calls).inserted
    = (after capacity calls).cache.pairs.length + (after capacity calls).cache.evictions
      + (RecencyCache.after capacity calls).removed

theorem lru_refines_recency (capacity : ℤ) (calls : List (CacheCall κ ν)) :
    Refines capacity calls := by
  have h := simulates_after capacity calls
  have hbal := RecencyCache.balanced_after capacity calls
  have hlen : (after capacity calls).cache.pairs.length
      = (RecencyCache.after capacity calls).held.length := congrArg List.length h.pairs
  refine ⟨h.answers, h.pairs, h.linked.keys_perm, h.linked.nodup_pairs,
    h.linked.length_pairs.symm, hlen ▸ hbal.room, ?_, h.inserted, ?_⟩
  · rw [h.counted, after, length_answers]
    exact Nat.zero_add _
  · rw [hlen, h.evictions]
    exact hbal.account

/-- Of two keys, the one that was used last survives the third. -/
example : (after 2 [.set 1 10, .set 2 20, .get 1, .set 3 30, .get 2, .get 1, .get 3]).answers
    = [some 10, none, some 10, some 30] := by decide

end CacheRun

end Gateway
end BoilerPulse
