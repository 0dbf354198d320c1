import BoilerPulse.Framework.Versions
import BoilerPulse.Storage.SSTable
import BoilerPulse.Storage.TableOrder

/-!
# Storage: the newest entry has the highest version

No code of the engine compares versions. Lookups, scans, compactions and the replay of the log take
the entry that comes last: in the memtable, in the newest table, in the last record. That this is an
entry of highest version rests on the order in which layers come to be (`Framework.Ranked`), and on
the counter, which `Open` has to find again from what the disk still has.

The invariant is `Versioned`. On the disk, the table files are ranked and the log is newer than all
of them (`Disk.Versioned`); this has to hold wherever the process may be stopped. Of the running
engine it says that

* what it holds for a key is newer than every table file, also those that it does not list after a
  failure (`view`): so what a flush or a compaction writes may come on top (`OnTop`);
* the log is newer than the memtable (`replay`): a flush that is stopped before the log is reset
  leaves the new table under the log;
* all versions are below the counter, so the next batch is newer than everything
  (`Versioned.applied`).

No operation that fails breaks any of this. What breaks it is `Open` on a table number of seven
digits, as it takes the files in another order than they were written in
(`Store.newest_is_not_highest`).
-/

namespace BoilerPulse
namespace Storage

variable {x : Entry} {s : Store} {k : Key}

open Framework Prog

/-! ### What is found for a key -/

/-- The entries of a key: in the memtable, then from the newest table to the oldest. -/
def Engine.found (e : Engine) (k : Key) : List Entry :=
  (e.memtable.lookup k).toList
    ++ e.sstables.reverse.filterMap fun st => (tableGet st.2 k).map toStorageEntry

/-- The layers of tables, the oldest first. -/
def tableLayers (ts : List (ℕ × Table)) : List (Layer Key Entry) :=
  ts.map fun st => tableLayer st.2

def Engine.layers (e : Engine) : List (Layer Key Entry) :=
  tableLayers e.sstables ++ [layerOf e.memtable]

/-- The log on top of the table files. -/
def Disk.layers (d : Disk) : List (Layer Key Entry) :=
  tableLayers d.tables ++ [replayed d.wal]

theorem Engine.stack_layers (e : Engine) : stack e.layers = e.view :=
  stack_concat _ _

theorem Disk.stack_layers (d : Disk) : stack d.layers = d.view :=
  stack_concat _ _

theorem Engine.found_eq (e : Engine) (k : Key) : e.found k = Framework.found e.layers k := by
  rw [Engine.found, Framework.found, Engine.layers, List.reverse_append, List.reverse_singleton,
    List.singleton_append, List.filterMap_cons, tableLayers, ← List.map_reverse,
    List.filterMap_map]
  change (layerOf e.memtable k).toList ++ _ = _
  cases layerOf e.memtable k <;> rfl

/-! ### The log -/

/-- One record as a layer. -/
def Record.layer (r : Record) : Layer Key Entry :=
  fun k => if r.key = k then recordEntry r else none

/-- The entries of a key in the log, the last record first. -/
def loggedEntries (wal : List Record) (k : Key) : List Entry :=
  wal.reverse.filterMap fun r => r.layer k

theorem loggedEntries_eq (wal : List Record) (k : Key) :
    loggedEntries wal k = Framework.found (wal.map Record.layer) k := by
  rw [loggedEntries, Framework.found, ← List.map_reverse, List.filterMap_map]
  rfl

theorem version_of_recordEntry {r : Record} (h : recordEntry r = some x) :
    x.version = r.seq := by
  unfold recordEntry at h
  split at h
  · rw [← Option.some.inj h]
  · split at h
    · rw [← Option.some.inj h]
      rfl
    · cases h

/-- Replaying lays one record over the other. -/
theorem replayed_eq_stack (wal : List Record) : replayed wal = stack (wal.map Record.layer) := by
  induction wal using List.reverseRecOn with
  | nil => rfl
  | append_singleton wal r ih =>
    rw [replayed_append, List.map_append, List.map_singleton, stack_concat, ih]
    funext k
    cases hr : recordEntry r with
    -- a record of an unknown operation is passed over
    | none => simp [hr, Record.layer, overlay]
    | some x =>
      by_cases hk : r.key = k
      · simp [hr, Record.layer, overlay, hk]
      · simp [hr, Record.layer, overlay, hk, Function.update_of_ne (Ne.symm hk)]

theorem Record.version_of_layer {r : Record} (h : r.layer k = some x) :
    x.version = r.seq := by
  unfold Record.layer at h
  split at h
  · exact version_of_recordEntry h
  · cases h

/-- What replay finds comes from a record. -/
theorem exists_of_replayed {wal : List Record} (h : replayed wal k = some x) :
    ∃ r ∈ wal, x.version = r.seq := by
  rw [replayed_eq_stack] at h
  obtain ⟨l, hl, hx⟩ := exists_of_stack_eq_some h
  obtain ⟨r, hr, rfl⟩ := List.mem_map.mp hl
  exact ⟨r, hr, Record.version_of_layer hx⟩

/-- Records are ranked by their numbers. -/
theorem ranked_records {wal : List Record} (h : wal.Pairwise fun r r' => r.seq < r'.seq) :
    Ranked Entry.version (wal.map Record.layer) := by
  refine List.pairwise_map.mpr (h.imp fun hlt k x y hx hy => ?_)
  rw [Record.version_of_layer hx, Record.version_of_layer hy]
  exact hlt.le

/-! ### The invariant -/

/-- Log and table files are ranked, and all their versions are below `bound`. -/
structure Disk.Versioned (bound : ℕ) (d : Disk) : Prop where
  ranked : Ranked Entry.version d.layers
  ordered : d.tables.Pairwise fun a b => a.1 < b.1
  increasing : d.wal.Pairwise fun r r' => r.seq < r'.seq
  logged : ∀ r ∈ d.wal, r.seq < bound
  stored : ∀ st ∈ d.tables, ∀ x ∈ st.2, x.version < bound

/-- Beside that, what the engine holds is newer than every table file, and the log newer than the
memtable. -/
structure Versioned (e : Engine) (d : Disk) : Prop where
  disk : d.Versioned e.nextSeq
  listed : e.sstables.Sublist d.tables
  numbered : ∀ st ∈ d.tables, st.1 ≤ e.sstableSeq
  view : ∀ st ∈ d.tables, Newer Entry.version e.view (tableLayer st.2)
  replay : Newer Entry.version (replayed d.wal) (layerOf e.memtable)
  memtable : ∀ k x, layerOf e.memtable k = some x → x.version < e.nextSeq

theorem version_of_tableLayer {t : Table} (h : tableLayer t k = some x) :
    ∃ y ∈ t, x.version = y.version := by
  obtain ⟨y, hy, rfl⟩ := Option.map_eq_some_iff.mp h
  exact ⟨y, List.mem_reverse.mp (List.mem_of_find?_eq_some hy), rfl⟩

namespace Disk.Versioned

variable {bound bound' : ℕ} {d d' : Disk}

theorem mono (h : d.Versioned bound) (hle : bound ≤ bound') : d.Versioned bound' where
  ranked := h.ranked
  ordered := h.ordered
  increasing := h.increasing
  logged r hr := (h.logged r hr).trans_le hle
  stored st hst x hx := (h.stored st hst x hx).trans_le hle

theorem ranked_tables (h : d.Versioned bound) : Ranked Entry.version (tableLayers d.tables) :=
  (ranked_concat.mp h.ranked).1

theorem newer_log (h : d.Versioned bound) {st : ℕ × Table} (hst : st ∈ d.tables) :
    Newer Entry.version (replayed d.wal) (tableLayer st.2) :=
  (ranked_concat.mp h.ranked).2 _ (List.mem_map_of_mem hst)

theorem layer_lt (h : d.Versioned bound) {st : ℕ × Table} (hst : st ∈ d.tables) {k : Key}
    {x : Entry} (hx : tableLayer st.2 k = some x) : x.version < bound := by
  obtain ⟨y, hy, hver⟩ := version_of_tableLayer hx
  rw [hver]
  exact h.stored st hst y hy

/-- Files and log may be gone. -/
theorem sublist (h : d.Versioned bound) (hwal : d'.wal = d.wal ∨ d'.wal = [])
    (htab : d'.tables.Sublist d.tables) : d'.Versioned bound := by
  have hlog : ∀ l : Layer Key Entry, Newer Entry.version (replayed d.wal) l →
      Newer Entry.version (replayed d'.wal) l := by
    intro l hl
    obtain hw | hw := hwal
    · rwa [hw]
    · rw [hw]
      exact newer_of_empty l
  have hsub : d'.wal.Sublist d.wal := by
    obtain hw | hw := hwal
    · rw [hw]
    · rw [hw]
      exact List.nil_sublist _
  refine ⟨ranked_concat.mpr ⟨h.ranked_tables.sublist (htab.map _), fun l hl => ?_⟩,
    h.ordered.sublist htab, h.increasing.sublist hsub, fun r hr => h.logged r (hsub.subset hr),
    fun st hst => h.stored st (htab.subset hst)⟩
  obtain ⟨st, hst, rfl⟩ := List.mem_map.mp hl
  exact hlog _ (h.newer_log (htab.subset hst))

/-- A new table on top of the others. -/
theorem place (h : d.Versioned bound) {n : ℕ} {t : Table} (hwal : d'.wal = d.wal)
    (htab : d'.tables = d.tables ++ [(n, t)]) (hn : ∀ st ∈ d.tables, st.1 < n)
    (hnew : ∀ st ∈ d.tables, Newer Entry.version (tableLayer t) (tableLayer st.2))
    (hlog : Newer Entry.version (replayed d.wal) (tableLayer t))
    (ht : ∀ x ∈ t, x.version < bound) : d'.Versioned bound := by
  have hlayers : tableLayers d'.tables = tableLayers d.tables ++ [tableLayer t] := by
    rw [htab, tableLayers, List.map_append]
    rfl
  refine ⟨?_, ?_, hwal ▸ h.increasing, hwal ▸ h.logged, ?_⟩
  · -- the new table goes between the old ones and the log
    rw [layers, hlayers, hwal]
    refine ranked_concat.mpr ⟨ranked_concat.mpr ⟨h.ranked_tables, ?_⟩, ?_⟩
    · exact List.forall_mem_map.mpr hnew
    · refine List.forall_mem_append.mpr ⟨List.forall_mem_map.mpr fun st hst => h.newer_log hst, ?_⟩
      exact List.forall_mem_singleton.mpr hlog
  · rw [htab, List.pairwise_append]
    refine ⟨h.ordered, List.pairwise_singleton _ _, fun a ha b hb => ?_⟩
    rw [List.mem_singleton.mp hb]
    exact hn a ha
  · rw [htab]
    exact List.forall_mem_append.mpr ⟨h.stored, List.forall_mem_singleton.mpr ht⟩

end Disk.Versioned

/-! ### Batches -/

/-- Operations whose entries have the numbers of their records, which go up from `lo` and stay below
`hi`. -/
structure BatchNumbers (lo hi : ℕ) (batch : List EngineOp) : Prop where
  version : ∀ op ∈ batch, op.entry.version = op.record.seq
  key : ∀ op ∈ batch, op.record.key = op.key
  known : ∀ op ∈ batch, (recordEntry op.record).isSome
  ge : ∀ op ∈ batch, lo ≤ op.record.seq
  lt : ∀ op ∈ batch, op.record.seq < hi
  increasing : batch.Pairwise fun a b => a.record.seq < b.record.seq

theorem BatchNumbers.sublist {lo hi : ℕ} {batch part : List EngineOp} (h : BatchNumbers lo hi batch)
    (hsub : part.Sublist batch) : BatchNumbers lo hi part where
  version op hop := h.version op (hsub.subset hop)
  key op hop := h.key op (hsub.subset hop)
  known op hop := h.known op (hsub.subset hop)
  ge op hop := h.ge op (hsub.subset hop)
  lt op hop := h.lt op (hsub.subset hop)
  increasing := h.increasing.sublist hsub

/-- Calls are numbered as they come. -/
theorem batchNumbers_enqueue (rs : List Request) : ∀ e : Engine,
    BatchNumbers e.nextSeq (e.nextSeq + rs.length) (e.enqueue rs).2 := by
  induction rs with
  | nil => exact fun e => ⟨by simp [Engine.enqueue], by simp [Engine.enqueue],
      by simp [Engine.enqueue], by simp [Engine.enqueue], by simp [Engine.enqueue],
      List.Pairwise.nil⟩
  | cons r rs ih =>
    intro e
    have hrest := ih { e with nextSeq := e.nextSeq + 1 }
    have hseq : (r.op e.nextSeq).record.seq = e.nextSeq := by cases r <;> rfl
    rw [Engine.enqueue, List.length_cons]
    refine ⟨?_, ?_, ?_, ?_, ?_, ?_⟩
    · exact List.forall_mem_cons.mpr ⟨by cases r <;> rfl, hrest.version⟩
    · exact List.forall_mem_cons.mpr ⟨by cases r <;> rfl, hrest.key⟩
    · exact List.forall_mem_cons.mpr ⟨by cases r <;> rfl, hrest.known⟩
    · refine List.forall_mem_cons.mpr ⟨hseq.ge, fun op hop => ?_⟩
      exact (Nat.le_succ _).trans (hrest.ge op hop)
    · refine List.forall_mem_cons.mpr ⟨by omega, fun op hop => ?_⟩
      have := hrest.lt op hop
      dsimp only at this
      omega
    · refine List.pairwise_cons.mpr ⟨fun op hop => ?_, hrest.increasing⟩
      rw [hseq]
      exact hrest.ge op hop

/-- New records keep the log newer than what has lower versions. -/
theorem newer_replayed_append {wal rs : List Record} {l : Layer Key Entry} {lo : ℕ}
    (h : Newer Entry.version (replayed wal) l) (hl : ∀ k y, l k = some y → y.version < lo)
    (hrs : ∀ r ∈ rs, lo ≤ r.seq) : Newer Entry.version (replayed (wal ++ rs)) l := by
  rw [replayed_append]
  refine h.writes fun w hw y hy => ?_
  obtain ⟨r, hr, hmap⟩ := List.mem_filterMap.mp hw
  obtain ⟨x, hx, rfl⟩ := Option.map_eq_some_iff.mp hmap
  rw [version_of_recordEntry hx]
  exact (hl _ y hy).le.trans (hrs r hr)

/-- The records of a batch do to the log what the batch does to the memtable. -/
theorem newer_replayed_batch {lo hi : ℕ} {batch : List EngineOp} (hb : BatchNumbers lo hi batch) :
    ∀ {l m : Layer Key Entry}, Newer Entry.version l m → Newer Entry.version
      (writes l ((batch.map EngineOp.record).filterMap fun r =>
        (recordEntry r).map fun e => (r.key, e)))
      (writes m (batch.map EngineOp.write)) := by
  induction batch with
  | nil => exact fun h => h
  | cons op batch ih =>
    intro l m h
    obtain ⟨x, hx⟩ := Option.isSome_iff_exists.mp (hb.known op List.mem_cons_self)
    have hkey := hb.key op List.mem_cons_self
    have hver : op.entry.version ≤ x.version := by
      rw [version_of_recordEntry hx, hb.version op List.mem_cons_self]
    rw [List.map_cons, List.filterMap_cons, hx, Option.map_some, List.map_cons, writes_cons,
      writes_cons, hkey]
    exact ih (hb.sublist (List.sublist_cons_self _ _)) (h.update op.key hver)

section Batches

variable {e : Engine} {d d' : Disk} {hi : ℕ} {batch : List EngineOp}

theorem Disk.Versioned.append {lo : ℕ} (h : d.Versioned lo) (hb : BatchNumbers lo hi batch)
    (hle : lo ≤ hi) (hwal : d'.wal = d.wal ++ batch.map EngineOp.record)
    (htab : d'.tables = d.tables) : d'.Versioned hi := by
  have hge : ∀ r ∈ batch.map EngineOp.record, lo ≤ r.seq := List.forall_mem_map.mpr hb.ge
  refine ⟨?_, htab ▸ h.ordered, ?_, ?_, htab ▸ (h.mono hle).stored⟩
  · rw [layers, htab, hwal]
    refine ranked_concat.mpr ⟨h.ranked_tables, List.forall_mem_map.mpr fun st hst => ?_⟩
    exact newer_replayed_append (h.newer_log hst) (fun k y hy => h.layer_lt hst hy) hge
  · rw [hwal, List.pairwise_append]
    refine ⟨h.increasing, List.pairwise_map.mpr hb.increasing, fun r hr r' hr' => ?_⟩
    exact (h.logged r hr).trans_le (hge r' hr')
  · rw [hwal]
    exact List.forall_mem_append.mpr ⟨(h.mono hle).logged, List.forall_mem_map.mpr hb.lt⟩

/-- A batch that is in the log only, in whole or in part. -/
theorem Versioned.logged (h : Versioned e d) (hb : BatchNumbers e.nextSeq hi batch)
    (hle : e.nextSeq ≤ hi) (hwal : d'.wal = d.wal ++ batch.map EngineOp.record)
    (htab : d'.tables = d.tables) : Versioned { e with nextSeq := hi } d' where
  disk := h.disk.append hb hle hwal htab
  listed := htab ▸ h.listed
  numbered := htab ▸ h.numbered
  view := htab ▸ h.view
  replay := by
    rw [hwal]
    exact newer_replayed_append h.replay h.memtable (List.forall_mem_map.mpr hb.ge)
  memtable k x hx := (h.memtable k x hx).trans_le hle

/-- A batch that is in the log and in the memtable. -/
theorem Versioned.applied (h : Versioned e d) (hb : BatchNumbers e.nextSeq hi batch)
    (hle : e.nextSeq ≤ hi) (hwal : d'.wal = d.wal ++ batch.map EngineOp.record)
    (htab : d'.tables = d.tables) :
    Versioned (Engine.applyAll { e with nextSeq := hi } batch) d' := by
  obtain ⟨hmem, hsst, -, hseq, hnext⟩ := applyAll_spec batch { e with nextSeq := hi }
  have hwritten : ∀ w ∈ batch.map EngineOp.write, e.nextSeq ≤ w.2.version ∧ w.2.version < hi := by
    refine List.forall_mem_map.mpr fun op hop => ?_
    rw [EngineOp.write, hb.version op hop]
    exact ⟨hb.ge op hop, hb.lt op hop⟩
  refine ⟨hnext.symm ▸ h.disk.append hb hle hwal htab, ?_, ?_, fun st hst => ?_, ?_,
    fun k x hx => ?_⟩
  · rw [hsst, htab]
    exact h.listed
  · rw [hseq, htab]
    exact h.numbered
  · -- the counter was above all tables, and the batch is numbered from there
    rw [htab] at hst
    rw [Engine.view, hmem, hsst, overlay_writes]
    refine (h.view st hst).writes fun w hw y hy => ?_
    exact (h.disk.layer_lt hst hy).le.trans (hwritten w hw).1
  · rw [hwal, replayed_append, hmem]
    exact newer_replayed_batch hb h.replay
  · rw [hmem] at hx
    rw [hnext]
    obtain hx | hw := eq_some_of_writes hx
    · exact (h.memtable k x hx).trans_le hle
    · exact (hwritten (k, x) hw).2

end Batches

/-! ### Flush and compaction -/

/-- A table that may come on top of the files: it is newer than they are, and neither the engine nor
the log has anything older. -/
structure OnTop (e : Engine) (d : Disk) (t : Table) : Prop where
  newer : ∀ st ∈ d.tables, Newer Entry.version (tableLayer t) (tableLayer st.2)
  view : Newer Entry.version e.view (tableLayer t)
  log : Newer Entry.version (replayed d.wal) (tableLayer t)
  stored : ∀ x ∈ t, x.version < e.nextSeq

section Tables

variable {e : Engine} {d d' : Disk} {t : Table}

theorem below_view (e : Engine) : Below (layerOf e.memtable) e.view :=
  fun _ _ hx => overlay_of_eq_some hx

/-- A flush keeps the versions. -/
theorem version_flushed (m : EntryMap) (k : Key) :
    (tableLayer (Engine.flushedEntries m) k).map Entry.version
      = (layerOf m k).map Entry.version := by
  rw [tableLayer, tableGet_flushedEntries, Option.map_map, Option.map_map]
  rfl

theorem Versioned.onTop_flushed (h : Versioned e d) :
    OnTop e d (Engine.flushedEntries e.memtable) where
  newer st hst := ((h.view st hst).of_below (below_view e)).congr (version_flushed _) fun _ => rfl
  view := (newer_of_below (below_view e)).congr (fun _ => rfl) (version_flushed _)
  log := h.replay.congr (fun _ => rfl) (version_flushed _)
  stored x hx := by
    obtain ⟨y, hy, heq⟩ := exists_of_mem_flushedEntries hx
    rw [heq]
    exact h.memtable _ y hy

theorem Versioned.onTop_compacted (h : Versioned e d) (hmem : e.memtable = ∅) (now : ℤ) :
    OnTop e d (Engine.compactedEntries now e.sstables) := by
  have hview : e.view = tablesLayer e.sstables := by
    rw [Engine.view, hmem, layerOf_empty, empty_overlay]
  have hbelow : Below (tableLayer (Engine.compactedEntries now e.sstables)) e.view := by
    rw [tableLayer_compactedEntries, hview]
    exact fun k x hx => ((live_eq_some Entry.dead).mp hx).1
  refine ⟨fun st hst => (h.view st hst).of_below hbelow, newer_of_below hbelow, ?_, fun x hx => ?_⟩
  · -- what the merged table has comes from one of the tables, and the log is newer than that
    intro k x y hx hy
    have hfound := hbelow k y hy
    rw [hview] at hfound
    obtain ⟨l, hl, hly⟩ := exists_of_stack_eq_some hfound
    obtain ⟨st, hst, rfl⟩ := List.mem_map.mp hl
    exact h.disk.newer_log (h.listed.subset hst) k x y hx hly
  · obtain ⟨st, hst, hmem⟩ := mem_of_compactedEntries hx
    exact h.disk.stored st (h.listed.subset hst) x hmem

/-- The log may be gone. -/
theorem Versioned.reset (h : Versioned e d) (hwal : d'.wal = d.wal ∨ d'.wal = [])
    (htab : d'.tables = d.tables) : Versioned e d' where
  disk := h.disk.sublist hwal (htab ▸ List.Sublist.refl _)
  listed := htab ▸ h.listed
  numbered := htab ▸ h.numbered
  view := htab ▸ h.view
  replay := by
    obtain hw | hw := hwal
    · rw [hw]
      exact h.replay
    · rw [hw]
      exact newer_of_empty _
  memtable := h.memtable

/-- A table was written, or should have been. -/
theorem Versioned.add (h : Versioned e d) (ht : OnTop e d t) (hwal : d'.wal = d.wal)
    (htab : d'.tables = d.tables ∨ d'.tables = d.tables ++ [(e.sstableSeq + 1, t)]) :
    Versioned { e with sstableSeq := e.sstableSeq + 1 } d' := by
  obtain htab | htab := htab
  · -- the number is used up all the same
    have hsame := h.reset (.inl hwal) htab
    exact ⟨hsame.disk, hsame.listed, fun st hst => (hsame.numbered st hst).trans (Nat.le_succ _),
      hsame.view, hsame.replay, hsame.memtable⟩
  · refine ⟨h.disk.place hwal htab (fun st hst => Nat.lt_succ_of_le (h.numbered st hst)) ht.newer
      ht.log ht.stored, ?_, ?_, ?_, hwal ▸ h.replay, h.memtable⟩
    · rw [htab]
      exact h.listed.trans (List.sublist_append_left _ _)
    · rw [htab]
      refine List.forall_mem_append.mpr ⟨fun st hst => ?_, List.forall_mem_singleton.mpr le_rfl⟩
      exact (h.numbered st hst).trans (Nat.le_succ _)
    · rw [htab]
      exact List.forall_mem_append.mpr ⟨h.view, List.forall_mem_singleton.mpr ht.view⟩

/-- The memtable has become the newest table. -/
theorem Versioned.flushed (h : Versioned e d) (hwal : d'.wal = [])
    (htab : d'.tables = d.tables ++ [(e.sstableSeq + 1, Engine.flushedEntries e.memtable)]) :
    Versioned { e with
        sstableSeq := e.sstableSeq + 1
        sstables := e.sstables ++ [(e.sstableSeq + 1, Engine.flushedEntries e.memtable)]
        memtable := ∅
        memtableSize := 0 } d' := by
  have hplaced : Versioned { e with sstableSeq := e.sstableSeq + 1 }
      { d with tables := d'.tables } := h.add h.onTop_flushed rfl (.inr htab)
  have hadd : Versioned { e with sstableSeq := e.sstableSeq + 1 } d' :=
    hplaced.reset (.inr hwal) rfl
  refine ⟨hadd.disk, ?_, hadd.numbered, fun st hst => ?_, ?_, fun k x hx => ?_⟩
  · rw [htab]
    exact h.listed.append_right _
  · -- the engine finds the same versions as before, now in its newest table
    refine (hadd.view st hst).congr (fun k => ?_) fun _ => rfl
    rw [Engine.view, Engine.view, layerOf_empty, empty_overlay, tablesLayer_concat, overlay,
      overlay, Option.map_or, Option.map_or, version_flushed]
  · rw [layerOf_empty]
    exact newer_empty _
  · rw [layerOf_empty] at hx
    cases hx

/-- The merged table has taken the place of the others in the engine. -/
theorem Versioned.compacted (h : Versioned e d) (hmem : e.memtable = ∅) {now : ℤ}
    (hwal : d'.wal = d.wal) (htab : d'.tables
      = d.tables ++ [(e.sstableSeq + 1, Engine.compactedEntries now e.sstables)]) :
    Versioned { e with
        sstableSeq := e.sstableSeq + 1
        sstables := [(e.sstableSeq + 1, Engine.compactedEntries now e.sstables)] } d' := by
  have htop := h.onTop_compacted hmem now
  have hadd := h.add htop hwal (.inr htab)
  refine ⟨hadd.disk, ?_, hadd.numbered, ?_, hadd.replay, hadd.memtable⟩
  · rw [htab]
    exact List.sublist_append_right _ _
  · have hview : Engine.view { e with
          sstableSeq := e.sstableSeq + 1
          sstables := [(e.sstableSeq + 1, Engine.compactedEntries now e.sstables)] }
        = tableLayer (Engine.compactedEntries now e.sstables) := by
      rw [Engine.view, hmem, layerOf_empty, empty_overlay]
      exact empty_overlay _
    rw [hview, htab]
    exact List.forall_mem_append.mpr ⟨htop.newer, List.forall_mem_singleton.mpr (Newer.refl _ _)⟩

/-- An old table is removed. -/
theorem Versioned.removed (h : Versioned e d) {st : ℕ × Table} (hst : e.sstables = [st]) {n : ℕ}
    (hn : st.1 ≠ n) :
    Versioned e { d with tables := d.tables.filter fun f => f.1 ≠ n } := by
  have hsub : (d.tables.filter fun f => f.1 ≠ n).Sublist d.tables := List.filter_sublist
  refine ⟨h.disk.sublist (.inl rfl) hsub, ?_, fun f hf => h.numbered f (hsub.subset hf),
    fun f hf => h.view f (hsub.subset hf), h.replay, h.memtable⟩
  have hmem : st ∈ d.tables := h.listed.subset (hst ▸ List.mem_singleton_self st)
  rw [hst]
  exact List.singleton_sublist.mpr (List.mem_filter.mpr ⟨hmem, by simpa using hn⟩)

end Tables

section Steps

variable {fate : FileOp → Fate} {e : Engine} {d : Disk}

theorem compactLocked_versioned (h : Versioned e d) (hmem : e.memtable = ∅) (now : ℤ) :
    Safe fileSystem fate (fun r d' => Versioned r.1 d' ∧ r.1.nextSeq = e.nextSeq)
      (Disk.Versioned e.nextSeq) (e.compactLocked now) d := by
  have htop := h.onTop_compacted hmem now
  unfold Engine.compactLocked
  refine safe_bind ((writeAndOpenSSTable_safe e _ h.numbered).mono (fun _ _ hq => hq)
    fun d' hc => (h.add htop hc.1 hc.2).disk) ?_
  rintro ⟨e', r⟩ d' ⟨rfl, hwal, hr⟩
  cases r with
  | error err => exact safe_ret ⟨h.add htop hwal hr.2, rfl⟩
  | ok st =>
    obtain ⟨rfl, htab⟩ := hr
    have hcomp := h.compacted hmem hwal htab
    -- what is removed has a lower number than the merged table
    have hold : (Engine.removeTables e.sstables).Issues
        fun op => ∃ st ∈ e.sstables, op = .remove st.1 :=
      removeTables_issues fun st hst => ⟨st, hst, rfl⟩
    refine safe_bind ((hold.safe (I := Versioned _) ?_ hcomp).mono
      (fun _ _ hq => hq) fun d'' hd'' => hd''.disk) fun _ d'' hd'' => safe_ret ⟨hd'', rfl⟩
    rintro op d'' ⟨st, hst, rfl⟩ hd''
    have hlt : st.1 ≤ e.sstableSeq := h.numbered st (h.listed.subset hst)
    exact ⟨hd''.removed rfl (by simp only; omega), hd''⟩

theorem maybeFlushLocked_versioned (h : Versioned e d) (now : ℤ) :
    Safe fileSystem fate (fun r d' => Versioned r.1 d') (Disk.Versioned e.nextSeq)
      (e.maybeFlushLocked now) d := by
  unfold Engine.maybeFlushLocked Engine.flushLocked
  split
  · exact safe_ret h
  split
  · exact safe_ret h
  have htop := h.onTop_flushed
  refine safe_bind ((writeAndOpenSSTable_safe e _ h.numbered).mono (fun _ _ hq => hq)
    fun d' hc => (h.add htop hc.1 hc.2).disk) ?_
  rintro ⟨e', r⟩ d' ⟨rfl, hwal, hr⟩
  cases r with
  -- the file may be there although the engine does not list it
  | error err => exact safe_ret (h.add htop hwal hr.2)
  | ok st =>
    obtain ⟨rfl, htab⟩ := hr
    have hadd := h.add htop hwal (.inr htab)
    refine safe_bind (walReset_safe.mono (fun _ _ hq => hq)
      fun d'' hc => (hadd.reset hc.2 hc.1).disk) ?_
    rintro ok d'' ⟨htab', hok⟩
    cases ok with
    -- the memtable is kept, over a table with the same entries
    | false => exact safe_ret (hadd.reset hok.2 htab')
    | true =>
      have hflushed := h.flushed hok (htab'.trans htab)
      dsimp only
      split
      · refine safe_bind (compactLocked_versioned hflushed rfl now) ?_
        rintro ⟨e₃, err⟩ d₃ hd₃
        cases err <;> exact safe_ret hd₃.1
      · exact safe_ret hflushed

/-- The log has got the records of the first operations of a batch. -/
structure LogGets (batch part : List EngineOp) (d d' : Disk) : Prop where
  begins : part <+: batch
  wal : d'.wal = d.wal ++ part.map EngineOp.record
  tables : d'.tables = d.tables

theorem LogGets.nothing (batch : List EngineOp) (d : Disk) : LogGets batch [] d d :=
  ⟨List.nil_prefix, (List.append_nil _).symm, rfl⟩

theorem LogGets.cons {batch part : List EngineOp} {op : EngineOp} {d d' : Disk}
    (h : LogGets batch part { d with wal := d.wal ++ [op.record] } d') :
    LogGets (op :: batch) (op :: part) d d' where
  begins := List.cons_prefix_cons.mpr ⟨rfl, h.begins⟩
  wal := by
    rw [h.wal]
    simp
  tables := h.tables

theorem writeRecords_logs (batch : List EngineOp) : ∀ d : Disk,
    Safe fileSystem fate (fun ok d' => ∃ part, LogGets batch part d d' ∧ (ok = true → part = batch))
      (fun d' => ∃ part, LogGets batch part d d') (writeRecords (batch.map EngineOp.record)) d := by
  induction batch with
  | nil =>
    intro d
    exact safe_call (fun _ => ⟨[], .nothing _ d, fun _ => rfl⟩)
      (fun _ => ⟨[], .nothing _ d, fun _ => rfl⟩) fun _ => ⟨[], .nothing _ d⟩
  | cons op batch ih =>
    intro d
    -- the first record is written, or the process stops or fails without it
    refine safe_call (fun _ => ?_) (fun _ => ⟨[], .nothing _ d, nofun⟩) fun _ => ⟨[], .nothing _ d⟩
    refine (ih { d with wal := d.wal ++ [op.record] }).mono ?_ ?_
    · rintro ok d' ⟨part, hlog, hall⟩
      exact ⟨op :: part, hlog.cons, fun hok => by rw [hall hok]⟩
    · rintro d' ⟨part, hlog⟩
      exact ⟨op :: part, hlog.cons⟩

/-- Whatever fails, the log gets a part of the batch, and all of it if there is no error. -/
theorem appendBatch_logs (batch : List EngineOp) (d : Disk) :
    Safe fileSystem fate (fun ok d' => ∃ part, LogGets batch part d d' ∧ (ok = true → part = batch))
      (fun d' => ∃ part, LogGets batch part d d') (appendBatch (batch.map EngineOp.record)) d := by
  unfold appendBatch
  split
  · next hnil =>
    rw [List.map_eq_nil_iff] at hnil
    subst hnil
    exact safe_ret ⟨[], .nothing _ d, fun _ => rfl⟩
  · exact writeRecords_logs batch d

theorem processBatch_versioned (h : Versioned e d) {hi : ℕ} {batch : List EngineOp}
    (hb : BatchNumbers e.nextSeq hi batch) (hle : e.nextSeq ≤ hi) (now : ℤ) :
    Safe fileSystem fate (fun r d' => Versioned r.1 d') (Disk.Versioned hi)
      (Engine.processBatch { e with nextSeq := hi } batch now) d := by
  unfold Engine.processBatch
  refine safe_bind ((appendBatch_logs batch d).mono (fun _ _ hq => hq) ?_) ?_
  · rintro d' ⟨part, hlog⟩
    exact h.disk.append (hb.sublist hlog.begins.sublist) hle hlog.wal hlog.tables
  · rintro ok d' ⟨part, hlog, hall⟩
    cases ok with
    -- records of a batch that has failed stay in the log: they are newer than the memtable
    | false => exact safe_ret (h.logged (hb.sublist hlog.begins.sublist) hle hlog.wal hlog.tables)
    | true =>
      obtain rfl := hall rfl
      have hnext := (applyAll_spec part { e with nextSeq := hi }).2.2.2.2
      have hflush : Safe fileSystem fate _ _ _ d' :=
        maybeFlushLocked_versioned (h.applied hb hle hlog.wal hlog.tables) now
      rwa [hnext] at hflush

end Steps

/-! ### Recovery -/

/-- `Open` goes on after the highest version of log and tables. -/
theorem lt_nextSeq_openEngine (d : Disk) (opts : Options) :
    (∀ r ∈ d.wal, r.seq < (openEngine d opts).nextSeq) ∧
      ∀ st ∈ d.tables, ∀ x ∈ st.2, x.version < (openEngine d opts).nextSeq := by
  have hnext : ∀ n, n < (openEngine d opts).nextSeq ↔
      n ≤ maxVersion (sortedTables d) ∨ ∃ r ∈ d.wal, n ≤ r.seq := by
    intro n
    show n < d.wal.foldl (fun m r => max m r.seq) (maxVersion (sortedTables d)) + 1 ↔ _
    rw [Nat.lt_succ_iff, le_foldl_max_iff]
  refine ⟨fun r hr => (hnext _).mpr (.inr ⟨r, hr, le_rfl⟩), fun st hst x hx => ?_⟩
  refine (hnext _).mpr (.inl ?_)
  rw [maxVersion, ← List.foldl_flatMap, le_foldl_max_iff]
  have hmem : st ∈ sortedTables d := (List.perm_insertionSort _ d.tables).mem_iff.mpr hst
  exact .inr ⟨x, List.mem_flatMap.mpr ⟨st, hmem, hx⟩, le_rfl⟩

theorem openEngine_versioned {bound : ℕ} {d : Disk} (h : d.Versioned bound)
    (hsix : ∀ st ∈ d.tables, st.1 < 10 ^ 6) (opts : Options) : Versioned (openEngine d opts) d := by
  have hsorted := sortedTables_eq h.ordered hsix
  obtain ⟨hmem, hsst, hseq⟩ := replay_spec d.wal
    ⟨opts, ∅, 0, sortedTables d, maxSeq (sortedTables d), 0⟩
  have hlayer : layerOf (openEngine d opts).memtable = replayed d.wal := by
    rw [layerOf_empty] at hmem
    exact hmem
  have htables : (openEngine d opts).sstables = d.tables := hsst.trans hsorted
  have hview : (openEngine d opts).view = stack d.layers := by
    rw [Engine.view, hlayer, htables, Disk.stack_layers]
    rfl
  obtain ⟨hlogged, hstored⟩ := lt_nextSeq_openEngine d opts
  refine ⟨⟨h.ranked, h.ordered, h.increasing, hlogged, hstored⟩, htables ▸ List.Sublist.refl _,
    fun st hst => ?_, fun st hst => ?_, hlayer ▸ Newer.refl _ _, fun k x hx => ?_⟩
  · -- the numbers of the tables are read back from their names, which have six digits
    have hmax : (openEngine d opts).sstableSeq = maxSeq d.tables := by
      rw [← hsorted]
      exact hseq
    rw [hmax]
    exact le_maxSeq hsix st hst
  · rw [hview]
    exact h.ranked.newer_stack (List.mem_append_left _ (List.mem_map_of_mem hst))
  · rw [hlayer] at hx
    obtain ⟨r, hr, hver⟩ := exists_of_replayed hx
    rw [hver]
    exact hlogged r hr

/-! ### Runs -/

theorem Store.reopened_versioned {bound : ℕ} (h : s.disk.Versioned bound) (hsix : s.SixDigits)
    (opts : Options) :
    Versioned (s.reopened opts).engine (s.reopened opts).disk :=
  openEngine_versioned (d := s.disk.cleanup) (h.sublist (.inl rfl) (List.Sublist.refl _)) hsix opts

theorem Store.step_versioned {s s' : Store} {a : Store.Action} (h : Versioned s.engine s.disk)
    (hok : s.OpensSix a) (hs : s.step a = some s') : Versioned s'.engine s'.disk := by
  cases a with
  | batch reqs now fate opts =>
    have hsafe : Safe fileSystem fate _ _ _ s.disk :=
      processBatch_versioned h (batchNumbers_enqueue reqs s.engine) (Nat.le_add_right _ _) now
    rw [← enqueue_engine] at hsafe
    obtain ⟨-, ⟨e', err, d', hrun, rfl⟩ | ⟨d', hrun, rfl⟩⟩ := Store.step_batch hs
    · exact hsafe.of_run_some hrun
    · exact Store.reopened_versioned (s := ⟨_, d', _, _⟩) (hsafe.of_run_none hrun) (hok d' hrun)
        opts
  | reopen opts =>
    cases hs
    exact Store.reopened_versioned h.disk hok opts

theorem Disk.versioned_empty (bound : ℕ) : Disk.empty.Versioned bound where
  ranked := List.pairwise_singleton _ _
  ordered := List.Pairwise.nil
  increasing := List.Pairwise.nil
  logged _ hr := absurd hr List.not_mem_nil
  stored _ hst := absurd hst List.not_mem_nil

theorem Store.versioned_of_runs {opts : Options} {clock : ℤ}
    (h : Runs Store.step Store.OpensSix (.new opts clock) s) : Versioned s.engine s.disk :=
  Runs.invariant (fun _ _ _ hs hok hstep => Store.step_versioned hs hok hstep) h
    (openEngine_versioned (Disk.versioned_empty 0) (nofun) opts)

/-! ### Position and version -/

section Choices

variable {e : Engine} {d : Disk}

theorem Versioned.ranked (h : Versioned e d) : Ranked Entry.version e.layers := by
  refine ranked_concat.mpr ⟨h.disk.ranked_tables.sublist (h.listed.map _), ?_⟩
  refine List.forall_mem_map.mpr fun st hst => ?_
  exact (h.view st (h.listed.subset hst)).of_below (below_view e)

theorem Versioned.highest_view (h : Versioned e d) (k : Key) :
    Highest Entry.version (e.view k) (e.found k) := by
  rw [e.found_eq, ← e.stack_layers]
  exact h.ranked.highest k

/-- Merging the tables takes the highest version of each key. -/
theorem Versioned.highest_merged (h : Versioned e d) (k : Key) :
    Highest TableEntry.version ((Engine.mergeTables e.sstables).lookup k)
      (e.sstables.reverse.filterMap fun st => tableGet st.2 k) := by
  have hranked : Ranked TableEntry.version (e.sstables.map fun st => tableGet st.2) := by
    refine List.pairwise_map.mpr ((List.pairwise_map.mp (ranked_concat.mp h.ranked).1).imp ?_)
    intro st st' hnewer k x y hx hy
    exact hnewer k (toStorageEntry x) (toStorageEntry y) (by rw [tableLayer, hx]; rfl)
      (by rw [tableLayer, hy]; rfl)
  have hhighest := hranked.highest k
  rw [← layerOf_mergeTables, Framework.found, ← List.map_reverse, List.filterMap_map] at hhighest
  exact hhighest

theorem Disk.Versioned.highest_replayed {bound : ℕ} (h : d.Versioned bound) (opts : Options)
    (k : Key) : Highest Entry.version ((openEngine d opts).memtable.lookup k)
      (loggedEntries d.wal k) := by
  have hmem := (replay_spec d.wal ⟨opts, ∅, 0, sortedTables d, maxSeq (sortedTables d), 0⟩).1
  have hlookup : (openEngine d opts).memtable.lookup k = replayed d.wal k := by
    rw [layerOf_empty] at hmem
    exact congrFun hmem k
  rw [hlookup, replayed_eq_stack, loggedEntries_eq]
  exact (ranked_records h.increasing).highest k

end Choices

/-- The tables that are merged if a batch makes the engine flush and then compact. -/
def Store.mergedBy (s : Store) (reqs : List Request) : List (ℕ × Table) :=
  let e := (s.engine.enqueue reqs).1.applyAll (s.enqueued reqs)
  e.sstables ++ [(e.sstableSeq + 1, Engine.flushedEntries e.memtable)]

/-- Going by position takes the highest version: versions do not go up from the memtable to the
oldest table, new ones will be above all of them, and each place where the engine
takes the newest entry takes one of highest version. -/
structure Store.NewestIsHighest (s : Store) : Prop where
  nonincreasing : ∀ k, (s.engine.found k).Pairwise fun x y => y.version ≤ x.version
  memtable_lt : ∀ k x, s.engine.memtable.lookup k = some x → x.version < s.engine.nextSeq
  tables_lt : ∀ st ∈ s.engine.sstables ++ s.disk.tables, ∀ x ∈ st.2, x.version < s.engine.nextSeq
  lookup : ∀ now k, ∃ chosen, Highest Entry.version chosen (s.engine.found k) ∧
    s.engine.lookupLocked now k = checked now chosen
  scan : ∀ now pfx k, ∃ chosen, Highest Entry.version chosen (s.engine.found k) ∧
    (s.engine.scan now pfx).lookup k
      = if pfx.isPrefixOf k then chosen.filter fun x => !x.dead now else none
  compact : ∀ reqs, (∀ r ∈ reqs, r.Fits) → ∀ k, Highest TableEntry.version
    ((Engine.mergeTables (s.mergedBy reqs)).lookup k)
    ((s.mergedBy reqs).reverse.filterMap fun st => tableGet st.2 k)
  replay : ∀ opts k, Highest Entry.version ((openEngine s.disk opts).memtable.lookup k)
    (loggedEntries s.disk.wal k)

/-- In every state of a run in which the store was never opened on a table number of seven digits and
calls were within the length fields, whatever fails and wherever it is stopped, position agrees with
version. -/
theorem Store.newestIsHighest_of_runs {opts : Options} {clock : ℤ} {s : Store}
    (h : Runs Store.step (fun s a => s.OpensSix a ∧ a.Fits) (.new opts clock) s) :
    s.NewestIsHighest := by
  have hv := Store.versioned_of_runs (h.mono fun _ _ hok => hok.1)
  refine ⟨fun k => ?_, hv.memtable, ?_, fun now k => ⟨_, hv.highest_view k, ?_⟩,
    fun now pfx k => ⟨_, hv.highest_view k, ?_⟩, fun reqs _ k => ?_, fun opts k => ?_⟩
  · rw [s.engine.found_eq]
    exact hv.ranked.pairwise_found k
  · exact List.forall_mem_append.mpr
      ⟨fun st hst => hv.disk.stored st (hv.listed.subset hst), hv.disk.stored⟩
  · exact s.engine.get_eq now k
  · rw [Engine.lookup_scan]
    rfl
  · -- the next batch, and the flush that would come before the compaction
    have happlied : Versioned (Engine.applyAll { s.engine with nextSeq := _ } (s.enqueued reqs))
        { s.disk with wal := s.disk.wal ++ (s.enqueued reqs).map EngineOp.record } :=
      hv.applied (batchNumbers_enqueue reqs s.engine) (Nat.le_add_right _ _) rfl rfl
    rw [← enqueue_engine] at happlied
    have hflushed : Versioned _ ⟨[], _, []⟩ := happlied.flushed rfl rfl
    exact hflushed.highest_merged k
  · exact hv.disk.highest_replayed opts k

/-- A compaction is stopped when it has removed one of two tables: the other one is loaded again,
under the merged one. -/
theorem Store.newestIsHighest_in_compaction : ∃ s : Store,
    Runs Store.step (fun s a => s.OpensSix a ∧ a.Fits) (.new ⟨0, 1⟩ 0) s ∧
      s.engine.sstables.map Prod.fst = [2, 3] ∧
      (s.engine.found [97]).map Entry.version = [2, 2] ∧ s.NewestIsHighest := by
  obtain ⟨s₁, hs₁, hobs₁⟩ := Option.map_eq_some_iff.mp (show
    (Store.step (.new ⟨0, 1⟩ 0) (Store.putOne 1 ⟨0, 1⟩)).map (fun s => decide (∀ st ∈
      (((s.engine.enqueue [.put 0 [97] [2] [] 0]).1.processBatch
        (s.enqueued [.put 0 [97] [2] [] 0]) 0).run fileSystem (stopping (.remove 2))
          s.disk).2.tables, st.1 < 10 ^ 6)) = some true by decide +kernel)
  obtain ⟨s₂, hs₂, hobs₂⟩ := Option.map_eq_some_iff.mp (show
    ((Store.step (.new ⟨0, 1⟩ 0) (Store.putOne 1 ⟨0, 1⟩)).bind fun s =>
      s.step (.batch [.put 0 [97] [2] [] 0] 0 (stopping (.remove 2)) ⟨0, 1⟩)).map
      (fun s => (s.engine.sstables.map Prod.fst, (s.engine.found [97]).map Entry.version))
        = some ([2, 3], [2, 2]) by decide +kernel)
  rw [hs₁, Option.bind_some] at hs₂
  have hsix : s₁.OpensSix (.batch [.put 0 [97] [2] [] 0] 0 (stopping (.remove 2)) ⟨0, 1⟩) := by
    intro d' hrun
    have htables := of_decide_eq_true hobs₁
    rw [hrun] at htables
    exact htables
  have hruns : Runs Store.step (fun s a => s.OpensSix a ∧ a.Fits) (.new ⟨0, 1⟩ 0) s₂ :=
    (Runs.single ⟨Store.opensSix_putOne 1 _ _, by decide⟩ hs₁).tail _ ⟨hsix, by decide⟩ hs₂
  obtain ⟨htables, hfound⟩ := Prod.mk.inj hobs₂
  exact ⟨s₂, hruns, htables, hfound, Store.newestIsHighest_of_runs hruns⟩

/-- **The model's disk stands for its bytes.** Along every careful run of calls within the length
fields, as long as the counter has not passed 64 bits, the log and the tables are read back from
their bytes as the lists that the model keeps of them. -/
theorem Store.disk_reads_back {opts : Options} {clock : ℤ}
    (h : Runs Store.step (fun s a => s.Careful a ∧ s.OpensSix a) (.new opts clock) s)
    (hsix : s.SixDigits) (hnext : s.engine.nextSeq ≤ 2 ^ 64) :
    readAll (walCodec.frames s.disk.wal) = s.disk.wal ∧
      ∀ st ∈ s.disk.tables, ∀ file, writeSorted st.2 = some file →
        ∃ t, openTable file = .ok t ∧ (∀ key, t.get key = .ok (tableGet st.2 key)) ∧
          t.iterate = .ok st.2 := by
  have hsound : s.Sound False :=
    Store.sound_of_runs (h.mono fun _ _ hok => hok.1) (sound_new False opts clock) hsix
  have hv := (Store.versioned_of_runs (h.mono fun _ _ hok => hok.2)).disk
  exact hsound.fits.reads_back (fun r hr => (hv.logged r hr).trans_le hnext)
    fun st hst x hx => (hv.stored st hst x hx).trans_le hnext

/-- **Table number `1000000`.** It comes last in the order of the names, so it counts as the newest
though table `1` was written after it. Nothing fails, and the store is opened between
batches only. -/
theorem Store.newest_is_not_highest : ∃ s : Store,
    Runs Store.step (fun _ a => a.Unfailing) (.new ⟨0, 0⟩ 0) s ∧
      (s.engine.found [97]).map Entry.version = [500000, 500001] ∧
      s.engine.lookupLocked 0 [97] = .ok ⟨[1], [], none, false, 500000⟩ ∧
      ¬ s.NewestIsHighest := by
  obtain ⟨history, hrun⟩ := Store.reaches_seven_digits
  have hfound : ((Store.settled ⟨0, 10⟩ [singleTable 1000000 1 500000, singleTable 1 2 500001] 1
      500002 (history ++ [Request.op 500001 (.put 0 [97] [2] [] 0)])).reopened
        ⟨0, 10⟩).engine.found [97]
      = [⟨[1], [], none, false, 500000⟩, ⟨[2], [], none, false, 500001⟩] := by
    have hname : ¬sstableFileName 1000000 ≤ sstableFileName 1 := by decide +kernel
    simp [Store.settled, singleTable, Store.reopened, openEngine, sortedTables, hname, Disk.cleanup,
      Engine.found, tableGet, toStorageEntry, ofUnixNano]
  refine ⟨_, hrun, by rw [hfound]; rfl, Store.get_seven_digits _ _ _ _ _, fun h => ?_⟩
  have hpair := h.nonincreasing [97]
  rw [hfound] at hpair
  simp at hpair

end Storage
end BoilerPulse
