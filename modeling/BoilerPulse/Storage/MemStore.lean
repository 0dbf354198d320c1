import Mathlib.Data.Finmap
import BoilerPulse.Framework.Layers
import BoilerPulse.Storage.Types

/-!
# Storage: the engine in memory

`MemStore` (`memstore.go`): a map with tombstones and expiry instants. The clock is an argument of
every call. It is the engine the durable one is measured against: it has no files, so no length is
too great for it and no write fails.
-/

namespace BoilerPulse
namespace Storage

open Framework

/-- `map[string]Entry`. -/
abbrev EntryMap := AList fun _ : Key => Entry

/-- What `Scan` returns: a map, in no order. -/
abbrev ScanResult := Finmap fun _ : Key => Entry

/-- The pairs that satisfy `q`, copied into a new map. -/
def copyWhere (m : EntryMap) (q : Key × Entry → Bool) : ScanResult :=
  (insertAll ∅ ((pairsOf m).filter q)).toFinmap

/-- The lookup of `Get`: missing, deleted and expired are the same. -/
def checked (now : ℤ) (e : Option Entry) : Except Error Entry :=
  match e with
  | none => .error .keyNotFound
  | some e => if e.dead now then .error .keyNotFound else .ok e

structure MemStore where
  entries : EntryMap
  version : ℕ

namespace MemStore

/-- `NewMemStore`. -/
def new : MemStore :=
  ⟨∅, 0⟩

def get (m : MemStore) (now : ℤ) (key : Key) : Except Error Entry :=
  checked now (m.entries.lookup key)

def put (m : MemStore) (now : ℤ) (key : Key) (value consistency : Bytes) (ttl : ℤ) : MemStore where
  entries := m.entries.insert key ⟨value, consistency, expiryOf now ttl, false, m.version + 1⟩
  version := m.version + 1

def scan (m : MemStore) (now : ℤ) (pfx : Key) : ScanResult :=
  copyWhere m.entries fun kv => pfx.isPrefixOf kv.1 && !kv.2.dead now

/-- A key that a reader cannot see is not deleted again. -/
def delete (m : MemStore) (now : ℤ) (key : Key) : MemStore × Option Error :=
  match checked now (m.entries.lookup key) with
  | .error err => (m, some err)
  | .ok _ => (⟨m.entries.insert key (.deleted (m.version + 1)), m.version + 1⟩, none)

end MemStore

/-! ### What readers see -/

/-- The part of a layer under keys with a prefix. -/
def under (pfx : Key) (l : Layer Key Entry) : Layer Key Entry :=
  fun k => if pfx.isPrefixOf k then l k else none

@[simp] theorem under_empty (pfx : Key) : under pfx (fun _ => none) = fun _ => none :=
  funext fun _ => ite_self none

theorem under_overlay (pfx : Key) (a b : Layer Key Entry) :
    under pfx (overlay a b) = overlay (under pfx a) (under pfx b) := by
  funext k
  by_cases h : pfx.isPrefixOf k = true <;> simp [under, overlay, h]

theorem lookup_copyWhere (m : EntryMap) (q : Key × Entry → Bool) (k : Key) :
    (copyWhere m q).lookup k = (layerOf m k).filter fun e => q (k, e) := by
  rw [← congrFun (writes_pairsOf_filter m q) k, ← layerOf_empty, ← layerOf_insertAll]
  rfl

/-- `Get` answers with the live part of the map. -/
theorem checked_eq (now : ℤ) (l : Layer Key Entry) (k : Key) :
    checked now (l k) = match live Entry.dead now l k with
      | none => .error .keyNotFound
      | some e => .ok e := by
  unfold checked live
  cases l k with
  | none => rfl
  | some e => cases hd : e.dead now <;> simp [Option.filter, hd]

theorem error_of_checked {now : ℤ} {e : Option Entry} {err : Error}
    (h : checked now e = .error err) : err = .keyNotFound := by
  unfold checked at h
  split at h
  · exact (Except.error.inj h).symm
  · split at h
    · exact (Except.error.inj h).symm
    · cases h

theorem dead_of_checked {now : ℤ} {e : Entry} {err : Error}
    (h : checked now (some e) = .error err) : e.dead now = true := by
  by_contra hd
  rw [checked, if_neg hd] at h
  cases h

theorem MemStore.lookup_scan (m : MemStore) (now : ℤ) (pfx k : Key) :
    (m.scan now pfx).lookup k = under pfx (live Entry.dead now (layerOf m.entries)) k := by
  rw [MemStore.scan, lookup_copyWhere, under, live]
  by_cases h : pfx.isPrefixOf k = true
  · simp [h]
  · simp [h]

end Storage
end BoilerPulse
