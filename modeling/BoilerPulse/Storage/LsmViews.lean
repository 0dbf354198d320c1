import BoilerPulse.Storage.Lsm

/-!
# Storage: what an engine and a disk hold

The memtable, a table file and the log are layers of entries in the sense of `Framework.Layers`,
and an engine is its memtable over its tables (`Engine.view`), a disk the replay of its log over
the table files (`Disk.view`). This module says so of every function that reads or writes them:
the readers answer with the live part of the view, a flush writes the memtable down as it is
(`tableLayer_flushedEntries`), and a compaction the live part of the tables
(`tableLayer_compactedEntries`).
-/

namespace BoilerPulse
namespace Storage

variable {k : Key}

open Framework

/-! ### Tables -/

/-- What a table file holds. -/
def tableLayer (t : Table) : Layer Key Entry :=
  fun k => (tableGet t k).map toStorageEntry

/-- What tables hold together, the oldest first. -/
def tablesLayer (ts : List (ℕ × Table)) : Layer Key Entry :=
  stack (ts.map fun st => tableLayer st.2)

theorem tableGet_eq_writes (t : Table) (k : Key) :
    tableGet t k = writes (fun _ => none) (t.map fun e => (e.key, e)) k := by
  rw [writes_eq_find, Option.or_none, ← List.map_reverse, List.find?_map, Option.map_map]
  change _ = ((t.reverse.find? _).map id)
  rw [Option.map_id]
  rfl

theorem tableLayer_eq_writes (t : Table) (k : Key) :
    tableLayer t k = writes (fun _ => none) (t.map fun e => (e.key, toStorageEntry e)) k := by
  rw [writes_eq_find, Option.or_none, ← List.map_reverse, List.find?_map, Option.map_map]
  rfl

theorem key_of_tableGet {t : Table} {e : TableEntry} (h : tableGet t k = some e) :
    e.key = k := by
  simpa using List.find?_some h

@[simp] theorem tablesLayer_nil : tablesLayer [] = fun _ => none := rfl

@[simp] theorem tablesLayer_concat (ts : List (ℕ × Table)) (st : ℕ × Table) :
    tablesLayer (ts ++ [st]) = overlay (tableLayer st.2) (tablesLayer ts) := by
  rw [tablesLayer, List.map_append, List.map_singleton, stack_concat]
  rfl

theorem below_tablesLayer_drop (ts : List (ℕ × Table)) (i : ℕ) :
    Below (tablesLayer (ts.drop i)) (tablesLayer ts) := by
  unfold tablesLayer
  rw [List.map_drop]
  exact below_stack_drop _ i

/-- Searching the tables from the newest to the oldest. -/
theorem findSome_tableGet (ts : List (ℕ × Table)) (k : Key) :
    ts.reverse.findSome? (fun st => tableGet st.2 k)
      = stack (ts.map fun st => tableGet st.2) k := by
  induction ts with
  | nil => rfl
  | cons st ts ih =>
    rw [List.reverse_cons, List.findSome?_append, ih, List.map_cons, stack, overlay]
    congr 1
    simp [List.findSome?_cons]
    cases tableGet st.2 k <;> rfl

theorem tablesLayer_apply (ts : List (ℕ × Table)) (k : Key) :
    tablesLayer ts k = (stack (ts.map fun st => tableGet st.2) k).map toStorageEntry := by
  induction ts with
  | nil => rfl
  | cons st ts ih =>
    change (tablesLayer ts k).or (tableLayer st.2 k)
      = ((stack (ts.map fun st => tableGet st.2) k).or (tableGet st.2 k)).map toStorageEntry
    rw [ih, tableLayer]
    cases stack (ts.map fun st => tableGet st.2) k <;> rfl

/-! ### Engines -/

/-- What an engine holds: its memtable over its tables. -/
def Engine.view (e : Engine) : Layer Key Entry :=
  overlay (layerOf e.memtable) (tablesLayer e.sstables)

theorem Engine.get_eq (e : Engine) (now : ℤ) (k : Key) : e.get now k = checked now (e.view k) := by
  unfold Engine.get Engine.lookupLocked
  rw [findSome_tableGet, ← tablesLayer_apply]
  cases hmem : e.memtable.lookup k with
  | some entry =>
    have hlayer : layerOf e.memtable k = some entry := hmem
    rw [Engine.view, overlay_of_eq_some hlayer]
  | none =>
    have hlayer : layerOf e.memtable k = none := hmem
    rw [Engine.view, overlay_of_eq_none hlayer]

/-- The entries of a table under keys with a prefix, written over what is there. -/
theorem writes_tableEntries (t : Table) (pfx : Key) (m : Layer Key Entry) :
    writes m ((t.filter fun se => pfx.isPrefixOf se.key).map fun se => (se.key, toStorageEntry se))
      = overlay (under pfx (tableLayer t)) m := by
  have hfilter : (t.filter fun se => pfx.isPrefixOf se.key).map
      (fun se => (se.key, toStorageEntry se))
      = (t.map fun se => (se.key, toStorageEntry se)).filter fun kv => pfx.isPrefixOf kv.1 := by
    rw [List.filter_map]
    rfl
  rw [writes_eq_overlay, hfilter]
  congr 1
  funext k
  rw [writes_filter, ← tableLayer_eq_writes]
  rfl

/-- The tables a scan has merged so far. -/
theorem layerOf_scanned (pfx : Key) (ts : List (ℕ × Table)) : ∀ m : EntryMap,
    layerOf (ts.foldl (fun m st => insertAll m ((st.2.filter fun se => pfx.isPrefixOf se.key).map
        fun se => (se.key, toStorageEntry se))) m)
      = overlay (under pfx (tablesLayer ts)) (layerOf m) := by
  induction ts with
  | nil =>
    intro m
    rw [tablesLayer_nil, under_empty, empty_overlay]
    rfl
  | cons st ts ih =>
    intro m
    rw [List.foldl_cons, ih, layerOf_insertAll, writes_tableEntries, ← overlay_assoc,
      ← under_overlay]
    rfl

theorem Engine.lookup_scan (e : Engine) (now : ℤ) (pfx k : Key) :
    (e.scan now pfx).lookup k = under pfx (live Entry.dead now e.view) k := by
  have hmem : writes (fun _ => none) ((pairsOf e.memtable).filter fun kv => pfx.isPrefixOf kv.1)
      = under pfx (layerOf e.memtable) := by
    rw [writes_pairsOf_filter]
    funext k
    cases hk : layerOf e.memtable k <;>
      by_cases h : pfx.isPrefixOf k = true <;> simp [under, hk, h, Option.filter]
  -- the merged map is the view, restricted to the keys with the prefix
  unfold Engine.scan
  rw [lookup_copyWhere, layerOf_insertAll, layerOf_scanned, layerOf_empty, overlay_empty,
    writes_eq_overlay, hmem, ← under_overlay]
  change Option.filter _ (under pfx e.view k) = _
  unfold under live
  split <;> rfl

/-! ### Flushed and compacted tables -/

/-- The entries that come back from a file as they are in memory: an expiry is a number of
nanoseconds other than `0` that fits in an `int64`, and the lengths are within their fields. -/
structure Entry.Storable (key : Key) (e : Entry) : Prop where
  expiry : ∀ t, e.expiresAt = some t → t ≠ 0 ∧ FitsInt64 t
  lengths : LengthsFit key e.value e.consistency

theorem ofUnixNano_unixNano {x : Option ℤ} (h : ∀ t, x = some t → t ≠ 0 ∧ FitsInt64 t) :
    ofUnixNano (unixNano x) = x := by
  cases x with
  | none => rfl
  | some t =>
    obtain ⟨hne, hfits⟩ := h t rfl
    rw [unixNano, wrap64_of_fits hfits, ofUnixNano, if_pos hne]

theorem toStorageEntry_toSSTableEntry {e : Entry} (h : e.Storable k) :
    toStorageEntry (toSSTableEntry k e) = e := by
  unfold toStorageEntry toSSTableEntry
  rw [ofUnixNano_unixNano h.expiry]

theorem fitsInt64_unixNano (x : Option ℤ) : FitsInt64 (unixNano x) := by
  cases x with
  | none => exact ⟨by decide, by decide⟩
  | some t => exact fitsInt64_wrap64 t

theorem exists_of_mem_flushedEntries {m : EntryMap} {te : TableEntry}
    (h : te ∈ Engine.flushedEntries m) : ∃ x, layerOf m te.key = some x ∧
      te = toSSTableEntry te.key x := by
  obtain ⟨k, -, hk⟩ := List.mem_filterMap.mp h
  obtain ⟨x, hx, rfl⟩ := Option.map_eq_some_iff.mp hk
  exact ⟨x, hx, rfl⟩

/-- A flush writes the memtable down as it is. -/
theorem tableLayer_flushedEntries {m : EntryMap} (h : ∀ k e, layerOf m k = some e → e.Storable k) :
    tableLayer (Engine.flushedEntries m) = layerOf m := by
  have hpairs : (Engine.flushedEntries m).map (fun se => (se.key, toStorageEntry se))
      = (m.keys.insertionSort (· ≤ ·)).filterMap fun k => (layerOf m k).map fun e => (k, e) := by
    unfold Engine.flushedEntries
    rw [List.map_filterMap]
    congr 1
    funext k
    change Option.map _ (Option.map _ (layerOf m k)) = _
    cases hk : layerOf m k with
    | none => rfl
    | some e =>
      simp only [Option.map_some, toStorageEntry_toSSTableEntry (h k e hk)]
      rfl
  funext k
  rw [tableLayer_eq_writes, hpairs, writes_copy, Option.or_none]
  split
  · rfl
  · next hk =>
    refine (Option.not_isSome_iff_eq_none.mp fun hsome => hk ?_).symm
    exact (List.perm_insertionSort (· ≤ ·) m.keys).mem_iff.mpr (mem_keys_iff.mpr hsome)

theorem dropped_eq (now : ℤ) (e : TableEntry) :
    Engine.dropped now e = (toStorageEntry e).dead now := by
  unfold Engine.dropped Entry.dead Entry.expired toStorageEntry ofUnixNano
  by_cases h : e.expiresAtUnixNano = 0 <;> simp [h]

theorem layerOf_mergeTables (ts : List (ℕ × Table)) :
    layerOf (Engine.mergeTables ts) = stack (ts.map fun st => tableGet st.2) := by
  have hfold : ∀ (ts : List (ℕ × Table)) (m : AList fun _ : Key => TableEntry),
      layerOf (ts.foldl (fun m st => insertAll m (st.2.map fun e => (e.key, e))) m)
        = overlay (stack (ts.map fun st => tableGet st.2)) (layerOf m) := by
    intro ts
    induction ts with
    | nil => intro m; exact (empty_overlay _).symm
    | cons st ts ih =>
      intro m
      rw [List.foldl_cons, ih, layerOf_insertAll, writes_eq_overlay, ← overlay_assoc, List.map_cons,
        stack]
      congr 2
      exact (funext fun k => (tableGet_eq_writes st.2 k)).symm
  rw [Engine.mergeTables, hfold, layerOf_empty, overlay_empty]

theorem key_of_mergeTables {ts : List (ℕ × Table)} {e : TableEntry}
    (h : layerOf (Engine.mergeTables ts) k = some e) : e.key = k := by
  rw [layerOf_mergeTables, ← findSome_tableGet] at h
  obtain ⟨st, -, hst⟩ := List.exists_of_findSome?_eq_some h
  exact key_of_tableGet hst

theorem mem_of_compactedEntries {now : ℤ} {ts : List (ℕ × Table)} {x : TableEntry}
    (h : x ∈ Engine.compactedEntries now ts) : ∃ st ∈ ts, x ∈ st.2 := by
  obtain ⟨k, -, hk⟩ := List.mem_filterMap.mp h
  have hlayer : layerOf (Engine.mergeTables ts) k = some x := hk
  rw [layerOf_mergeTables] at hlayer
  obtain ⟨l, hl, hx⟩ := exists_of_stack_eq_some hlayer
  obtain ⟨st, hst, rfl⟩ := List.mem_map.mp hl
  exact ⟨st, hst, List.mem_reverse.mp (List.mem_of_find?_eq_some hx)⟩

/-- A compaction writes the live part of the tables. -/
theorem tableLayer_compactedEntries (now : ℤ) (ts : List (ℕ × Table)) :
    tableLayer (Engine.compactedEntries now ts) = live Entry.dead now (tablesLayer ts) := by
  have hpairs : (Engine.compactedEntries now ts).map (fun e => (e.key, e))
      = (((Engine.mergeTables ts).keys.filter fun k =>
          ((Engine.mergeTables ts).lookup k).any fun e => !Engine.dropped now e).insertionSort
            (· ≤ ·)).filterMap
              fun k => (layerOf (Engine.mergeTables ts) k).map fun e => (k, e) := by
    unfold Engine.compactedEntries
    rw [List.map_filterMap]
    congr 1
    funext k
    change Option.map _ (layerOf (Engine.mergeTables ts) k) = _
    cases hk : layerOf (Engine.mergeTables ts) k with
    | none => rfl
    | some e => rw [Option.map_some, Option.map_some, key_of_mergeTables hk]
  funext k
  rw [tableLayer, tableGet_eq_writes, hpairs, writes_copy, Option.or_none, live, tablesLayer_apply,
    ← layerOf_mergeTables]
  -- a key is kept exactly when its entry is not dropped
  have hmem : k ∈ ((Engine.mergeTables ts).keys.filter fun k =>
      ((Engine.mergeTables ts).lookup k).any fun e => !Engine.dropped now e).insertionSort (· ≤ ·) ↔
      (layerOf (Engine.mergeTables ts) k).any (fun e => !Engine.dropped now e) = true := by
    rw [(List.perm_insertionSort (· ≤ ·) _).mem_iff, List.mem_filter, mem_keys_iff]
    refine ⟨fun h => h.2, fun h => ⟨?_, h⟩⟩
    cases hl : layerOf (Engine.mergeTables ts) k with
    | none =>
      change (layerOf (Engine.mergeTables ts) k).any _ = true at h
      rw [hl] at h
      cases h
    | some e => rfl
  cases hk : layerOf (Engine.mergeTables ts) k with
  | none => simp
  | some e =>
    rw [hk, Option.any_some] at hmem
    cases hd : Engine.dropped now e with
    | false =>
      have hlive : (toStorageEntry e).dead now = false := dropped_eq now e ▸ hd
      rw [if_pos (hmem.mpr (by rw [hd]; rfl))]
      simp [Option.filter, hlive]
    | true =>
      have hdead : (toStorageEntry e).dead now = true := dropped_eq now e ▸ hd
      rw [if_neg fun h => absurd (hmem.mp h) (by rw [hd]; decide)]
      simp [Option.filter, hdead]

end Storage
end BoilerPulse
