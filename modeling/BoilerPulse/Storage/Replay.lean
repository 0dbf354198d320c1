import BoilerPulse.Storage.FailedWrites

/-!
# Storage: replay of the log into the memtable

`Open` rebuilds the memtable from the log with `applyRecordToMemtable`, which is written apart from
the `applyToMemtable` of a running engine. For the records of `Put` and `Delete` the two do the
same, to the map and to its size (`applyRecordToMemtable_records`), provided that an expiry survives
its way through the record. The size is the sum of `entrySize` over the map at all times
(`Engine.Sized`, `Store.sized_of_runs`), and what is replayed of a log that is cut off
is the longest part of it that consists of whole records.
-/

namespace BoilerPulse
namespace Storage

open Framework Prog

/-! ### The size of the memtable -/

/-- The sum of `entrySize` over a map. -/
def memtableBytes (m : EntryMap) : ℤ :=
  (m.entries.map fun s => entrySize s.1 s.2).sum

/-- What an insertion does to the sum: the old entry of the key goes, the new one comes. -/
theorem memtableBytes_insert (m : EntryMap) (key : Key) (entry : Entry) :
    memtableBytes (m.insert key entry) = (match m.lookup key with
        | some old => memtableBytes m - entrySize key old
        | none => memtableBytes m) + entrySize key entry := by
  have hcons : memtableBytes (m.insert key entry)
      = entrySize key entry + ((List.kerase key m.entries).map fun s => entrySize s.1 s.2).sum := by
    rw [memtableBytes, AList.entries_insert, List.map_cons, List.sum_cons]
  rw [hcons, add_comm]
  congr 1
  cases hold : m.lookup key with
  | none =>
    -- nothing is erased
    have hkey : key ∉ m.entries.keys := AList.lookup_eq_none.mp hold
    rw [List.kerase_of_notMem_keys hkey, memtableBytes]
  | some old =>
    have hkey : key ∈ m.entries.keys := AList.lookup_isSome.mp (by rw [hold]; rfl)
    obtain ⟨x, l₁, l₂, hl₁, hentries, herase⟩ := List.exists_of_kerase hkey
    -- the entry that is erased is the one the lookup finds
    have hx : x = old := by
      have hlookup : List.dlookup key m.entries = some old := hold
      rw [hentries, List.dlookup_append, List.dlookup_eq_none.mpr hl₁, Option.none_or,
        List.dlookup_cons_eq] at hlookup
      exact Option.some.inj hlookup
    rw [herase, memtableBytes, hentries, hx]
    simp only [List.map_append, List.map_cons, List.sum_append, List.sum_cons]
    ring

/-- The size that the engine keeps is that of its memtable. -/
def Engine.Sized (e : Engine) : Prop :=
  e.memtableSize = memtableBytes e.memtable

namespace Engine.Sized

variable {e : Engine}

theorem applyToMemtable (h : e.Sized) (key : Key) (entry : Entry) :
    (e.applyToMemtable key entry).Sized := by
  show (e.applyToMemtable key entry).memtableSize = memtableBytes (e.memtable.insert key entry)
  rw [memtableBytes_insert, ← h]
  rfl

theorem applyAll (batch : List EngineOp) : ∀ {e : Engine}, e.Sized → (e.applyAll batch).Sized := by
  induction batch with
  | nil => exact fun h => h
  | cons op batch ih => exact fun h => ih (h.applyToMemtable op.key op.entry)

theorem applyRecord (h : e.Sized) (r : Record) : (applyRecordToMemtable e r).Sized := by
  cases hr : recordEntry r with
  | none =>
    rw [applyRecordToMemtable_of_none hr]
    exact h
  | some entry =>
    rw [applyRecordToMemtable_eq hr]
    exact h.applyToMemtable r.key entry

theorem replay (wal : List Record) : ∀ {e : Engine}, e.Sized →
    (wal.foldl applyRecordToMemtable e).Sized := by
  induction wal with
  | nil => exact fun h => h
  | cons r wal ih => exact fun h => ih (h.applyRecord r)

end Engine.Sized

theorem openEngine_sized (d : Disk) (opts : Options) : (openEngine d opts).Sized :=
  Engine.Sized.replay d.wal (e := ⟨opts, ∅, 0, sortedTables d, maxSeq (sortedTables d), 0⟩) rfl

/-! ### Flushes -/

theorem Engine.Sized.of_eq {e e' : Engine} (h : e.Sized) (hmem : e'.memtable = e.memtable)
    (hsize : e'.memtableSize = e.memtableSize) : e'.Sized := by
  rw [Engine.Sized, hmem, hsize]
  exact h

theorem Engine.sized_of_empty {e : Engine} (hmem : e.memtable = ∅) (hsize : e.memtableSize = 0) :
    e.Sized := by
  rw [Engine.Sized, hmem, hsize]
  rfl

/-- Whatever fails, a batch leaves its memtable behind or an empty one. -/
theorem Engine.Sized.processBatch {fate : FileOp → Fate} {e : Engine} (h : e.Sized)
    (batch : List EngineOp) (now : ℤ) (d : Disk) :
    Safe fileSystem fate (fun r _ => r.1.Sized) (fun _ => True) (e.processBatch batch now) d := by
  unfold Engine.processBatch
  refine safe_bind (appendBatch_result _ d) fun ok d₁ _ => ?_
  cases ok with
  | false => exact safe_ret h
  | true =>
    refine (maybeFlushLocked_result _ now d₁).mono (fun r _ hr => ?_) fun _ h => h
    rcases hr.2.2 with (⟨hmem, hsize, -⟩ | ⟨-, hmem, hsize, -⟩) | ⟨-, -, hmem, hsize, -⟩
    · exact (h.applyAll batch).of_eq hmem hsize
    · exact sized_of_empty hmem hsize
    · exact sized_of_empty hmem hsize

theorem Store.step_sized {s s' : Store} {a : Store.Action} (h : s.engine.Sized)
    (hs : s.step a = some s') : s'.engine.Sized := by
  cases a with
  | batch reqs now fate opts =>
    have hnumbered : (s.engine.enqueue reqs).1.Sized := by rwa [enqueue_engine]
    obtain ⟨-, ⟨e', err, d', hrun, rfl⟩ | ⟨d', -, rfl⟩⟩ := Store.step_batch hs
    · exact (hnumbered.processBatch _ now _).of_run_some hrun
    · exact openEngine_sized _ opts
  | reopen opts =>
    cases hs
    exact openEngine_sized _ opts

/-- **The size is that of the memtable at all times**, whatever fails and wherever the process is
stopped. -/
theorem Store.sized_of_runs {opts : Options} {clock : ℤ} {s : Store}
    (h : Reaches Store.step (.new opts clock) s) : s.engine.Sized :=
  Runs.invariant (fun _ _ _ h _ hs => Store.step_sized h hs) h (openEngine_sized .empty opts)

/-- A flush fails, and the process is stopped in the next one, behind the rename. -/
theorem Store.sized_of_failed_flush : ∃ s : Store,
    Reaches Store.step (.new ⟨0, 4⟩ 0) s ∧ s.engine.memtableSize = 69 ∧ s.engine.Sized := by
  obtain ⟨s, hs, hobs⟩ := Reaches.of_exec_map (show (exec Store.step (.new ⟨0, 4⟩ 0)
      [.batch [.put 0 [97] [1] [] 0] 0 (failing (.rename 1)) ⟨0, 4⟩,
        .batch [.put 0 [98, 99] [1] [] 0] 0 (stopping .resetTruncate) ⟨0, 4⟩]).map
      (fun s => s.engine.memtableSize) = some 69 by decide +kernel)
  exact ⟨s, hs, hobs, Store.sized_of_runs hs⟩

/-! ### Replay -/

/-- Replaying the records of operations does what the operations did. -/
theorem applyRecordToMemtable_records {ops : List EngineOp} (h : ∀ op ∈ ops, op.Faithful) :
    ∀ e : Engine, (ops.map EngineOp.record).foldl applyRecordToMemtable e = e.applyAll ops := by
  induction ops with
  | nil => intro e; rfl
  | cons op ops ih =>
    intro e
    obtain ⟨hkey, hentry⟩ := h op List.mem_cons_self
    rw [List.map_cons, List.foldl_cons, applyRecordToMemtable_eq hentry, hkey]
    exact ih (fun op hop => h op (List.mem_cons_of_mem _ hop)) _

/-- **Replay returns the longest prefix of whole records, and rebuilds the memtable as it was.**
Of a byte prefix of a log the first `k` records are read, which are those whose frames end within
it. And if the records are those of calls of `Put` and `Delete` whose expiries are storable, replay
makes of any engine, such as the empty one of `Open`, the very engine that the calls make of it,
memtable and size included; the size is again that of the memtable. -/
theorem wal_replay_exact :
    (∀ (rs : List Record) (file : Bytes), (∀ r ∈ rs, r.Fits) → file <+: walCodec.frames rs →
      ∃ k ≤ rs.length,
        (∀ i < rs.length, i < k ↔ (walCodec.frames (rs.take (i + 1))).length ≤ file.length) ∧
        readAll file = rs.take k) ∧
    ∀ calls : List (ℕ × Request), (∀ c ∈ calls, c.2.StorableExpiry) → ∀ e : Engine, e.Sized →
      (calls.map fun c => (c.2.op c.1).record).foldl applyRecordToMemtable e
          = e.applyAll (calls.map fun c => c.2.op c.1) ∧
        (e.applyAll (calls.map fun c => c.2.op c.1)).Sized := by
  refine ⟨fun rs file hrs hfile => ?_, fun calls hcalls e he => ⟨?_, he.applyAll _⟩⟩
  · have hcut : file = (walCodec.frames rs).take file.length := List.prefix_iff_eq_take.mp hfile
    refine ⟨min (walCodec.whole file.length rs) rs.length, Nat.min_le_right _ _, ?_, ?_⟩
    · intro i hi
      rw [← walCodec.lt_whole_iff hi]
      omega
    · rw [← List.take_eq_take_min, ← readAll_take hrs, ← hcut]
  · have hfaith : ∀ op ∈ calls.map (fun c => c.2.op c.1), op.Faithful := by
      intro op hop
      obtain ⟨c, hc, rfl⟩ := List.mem_map.mp hop
      exact Request.op_faithful (hcalls c hc) c.1
    have := applyRecordToMemtable_records hfaith e
    rwa [List.map_map] at this

/-- A key is set for a while and deleted, and another one set. -/
def threeCalls : List (ℕ × Request) :=
  [(5, .put 3 [97] [1, 2] [83] 10), (6, .delete 4 [97]), (7, .put 5 [98] [3] [83] 0)]

/-- The log of three calls, cut off in the last frame: the first two are replayed, into the memtable
that they had left. -/
theorem wal_replay_of_torn_log :
    readAll ((walCodec.frames (threeCalls.map fun c => (c.2.op c.1).record)).take 100)
        = (threeCalls.take 2).map (fun c => (c.2.op c.1).record) ∧
      (((threeCalls.take 2).map fun c => (c.2.op c.1).record).foldl applyRecordToMemtable
        (openEngine .empty ⟨0, 4⟩)).memtable.lookup [97] = some (.deleted 6) ∧
      (((threeCalls.take 2).map fun c => (c.2.op c.1).record).foldl applyRecordToMemtable
        (openEngine .empty ⟨0, 4⟩)).Sized := by
  refine ⟨?_, rfl, ?_⟩
  · obtain ⟨k, hle, hk, hread⟩ := wal_replay_exact.1
      (threeCalls.map fun c => (c.2.op c.1).record) _ (by decide) (List.take_prefix 100 _)
    have h₁ : 1 < k := (hk 1 (by decide)).mpr (by decide +kernel)
    have h₂ : ¬ 2 < k := fun h => absurd ((hk 2 (by decide)).mp h) (by decide +kernel)
    rw [hread, show k = 2 by omega, List.map_take]
  · obtain ⟨hsame, hsized⟩ := wal_replay_exact.2 (threeCalls.take 2) (by decide)
      (openEngine .empty ⟨0, 4⟩) (openEngine_sized _ _)
    rw [hsame]
    exact hsized

end Storage
end BoilerPulse
