import BoilerPulse.Storage.LsmViews

/-!
# Storage: the invariant of the LSM engine

`Rep` relates an engine and its disk to the map `h` they stand for: both the engine's view and
what `Open` would rebuild from the disk are `h`, up to entries that nobody can see any more
(`Framework.Prunes`). `Recoverable` is what it says of the disk alone, and so what has to hold at
every point where the process may stop.

Flush and compaction keep the invariant through every failure of a file operation except one, and
so does a batch whose records have reached the log: a compaction removes the old tables, and
whatever it leaves behind comes to light again. So it must not leave any — every table file has to
be in the engine's list (`e.sstables = d.tables`) when it starts, and no removal may fail.

Each function of the engine has one lemma here, in the judgement `Prog.Safe`: it ends in `Rep`,
whatever failed, and it is in `Recoverable` whenever it may be stopped.

* A table goes to disk under a number above all others, by a rename, so it is there whole or not
  at all, and on top (`writeAndOpenSSTable_safe`, `Recoverable.add`).
* A flush resets the log only after that. In between, log and newest table say the same
  (`Rep.recoverable_flushed`).
* A compaction removes what it has merged from the oldest to the newest: what is left at any time
  is hidden by the merged table (`removeTables_safe`, `compactLocked_safe`).
* A batch is in the log before it is in the memtable, and may be there in part if the process stops
  (`appendBatch_safe`, `processBatch_safe`).

`Disk.Fits` goes along with all of this: keys, values and consistencies on disk fit the length
fields of the encodings, without which `Open` would not read back what has been written.
-/

namespace BoilerPulse
namespace Storage

open Framework Prog

/-! ### The log as a layer -/

/-- What replaying records gives. -/
def replayed (wal : List Record) : Layer Key Entry :=
  writes (fun _ => none) (wal.filterMap fun r => (recordEntry r).map fun e => (r.key, e))

/-- What `Open` rebuilds from a disk. -/
def Disk.view (d : Disk) : Layer Key Entry :=
  overlay (replayed d.wal) (tablesLayer d.tables)

@[simp] theorem replayed_nil : replayed [] = fun _ => none := rfl

/-- The log is replayed from left to right. -/
theorem replayed_append (wal rs : List Record) : replayed (wal ++ rs)
      = writes (replayed wal) (rs.filterMap fun r => (recordEntry r).map fun e => (r.key, e)) := by
  rw [replayed, List.filterMap_append, writes_append]
  rfl

/-- What an operation writes. -/
def EngineOp.write (op : EngineOp) : Key × Entry :=
  (op.key, op.entry)

/-- Replaying the record of an operation does what the operation does. -/
def EngineOp.Faithful (op : EngineOp) : Prop :=
  op.record.key = op.key ∧ recordEntry op.record = some op.entry

/-- The records that the format can hold, if it can hold their numbers. -/
def Record.Storable (r : Record) : Prop :=
  LengthsFit r.key r.value r.consistency ∧ FitsInt64 r.timestamp ∧ FitsInt64 r.expiresAtUnixNano

/-- Likewise for the entries of a table. -/
def TableEntry.Storable (x : TableEntry) : Prop :=
  LengthsFit x.key x.value x.consistency ∧ FitsInt64 x.expiresAtUnixNano

theorem Entry.Storable.tableEntry {k : Key} {x : Entry} (h : x.Storable k) :
    (toSSTableEntry k x).Storable :=
  ⟨h.lengths, fitsInt64_unixNano _⟩

/-- An operation whose entry comes back from the files as it is. -/
structure EngineOp.Storable (op : EngineOp) : Prop where
  entry : op.entry.Storable op.key
  record : op.record.Storable

theorem replayed_append_records {wal : List Record} {batch : List EngineOp}
    (h : ∀ op ∈ batch, op.Faithful) :
    replayed (wal ++ batch.map EngineOp.record)
      = writes (replayed wal) (batch.map EngineOp.write) := by
  rw [replayed_append, List.filterMap_map]
  congr 1
  rw [← List.filterMap_eq_map]
  refine List.filterMap_congr fun op hop => ?_
  obtain ⟨hkey, hentry⟩ := h op hop
  simp [Function.comp, hkey, hentry, EngineOp.write]

/-! ### The invariant -/

/-- Nothing on the disk is longer than the length fields of the files allow, so that the lists of
`Disk` are what a reader finds in the bytes (`Disk.Fits.reads_back`). -/
structure Disk.Fits (d : Disk) : Prop where
  wal : ∀ r ∈ d.wal, r.Storable
  tables : ∀ st ∈ d.tables, ∀ x ∈ st.2, x.Storable

/-- The disk stands for `h`, with table numbers up to `bound`. -/
structure Recoverable (now : ℤ) (h : Layer Key Entry) (bound : ℕ) (d : Disk) : Prop where
  view : Prunes Entry.dead now d.view h
  storable : ∀ k x, replayed d.wal k = some x → x.Storable k
  fits : d.Fits
  ordered : d.tables.Pairwise fun a b => a.1 < b.1
  numbered : ∀ st ∈ d.tables, st.1 ≤ bound

/-- The engine and its disk both stand for `h`. If `strict`, the engine knows every table file. -/
structure Rep (strict : Prop) (now : ℤ) (h : Layer Key Entry) (e : Engine) (d : Disk) : Prop where
  running : Prunes Entry.dead now e.view h
  view : Prunes Entry.dead now d.view h
  /-- The log does not have more than the memtable. -/
  replay : Below (replayed d.wal) (layerOf e.memtable)
  storable : ∀ k x, layerOf e.memtable k = some x → x.Storable k
  fits : d.Fits
  ordered : d.tables.Pairwise fun a b => a.1 < b.1
  numbered : ∀ st ∈ d.tables, st.1 ≤ e.sstableSeq
  listed : strict → e.sstables = d.tables

section Rep

variable {strict : Prop} {now now' : ℤ} {h : Layer Key Entry} {e : Engine} {d d' : Disk}

theorem Rep.recoverable (hr : Rep strict now h e d) : Recoverable now h e.sstableSeq d where
  view := hr.view
  storable k x hx := hr.storable k x (hr.replay k x hx)
  fits := hr.fits
  ordered := hr.ordered
  numbered := hr.numbered

theorem Rep.of_recoverable (hrec : Recoverable now h e.sstableSeq d)
    (hreplay : Below (replayed d.wal) (layerOf e.memtable))
    (hrun : Prunes Entry.dead now e.view h)
    (hstor : ∀ k x, layerOf e.memtable k = some x → x.Storable k)
    (hlisted : strict → e.sstables = d.tables) : Rep strict now h e d :=
  ⟨hrun, hrec.view, hreplay, hstor, hrec.fits, hrec.ordered, hrec.numbered, hlisted⟩

theorem Rep.weaken (hr : Rep True now h e d) : Rep strict now h e d :=
  { hr with listed := fun _ => hr.listed trivial }

/-- Sequence numbers do not matter. -/
theorem Rep.renumber (hr : Rep strict now h e d) (n : ℕ) :
    Rep strict now h { e with nextSeq := n } d :=
  ⟨hr.running, hr.view, hr.replay, hr.storable, hr.fits, hr.ordered, hr.numbered, hr.listed⟩

/-- What nobody can see now nobody will see later. -/
theorem Rep.mono (hr : Rep strict now h e d) (hle : now ≤ now') : Rep strict now' h e d :=
  { hr with
    running := hr.running.mono Entry.dead_mono hle
    view := hr.view.mono Entry.dead_mono hle }

theorem Recoverable.mono {bound bound' : ℕ} (hr : Recoverable now h bound d)
    (hle : bound ≤ bound') :
    Recoverable now h bound' d :=
  { hr with numbered := fun st hst => (hr.numbered st hst).trans hle }

/-- Only the log and the table files matter. -/
theorem Recoverable.congr {bound : ℕ} (hr : Recoverable now h bound d) (hwal : d'.wal = d.wal)
    (htables : d'.tables = d.tables) : Recoverable now h bound d' where
  view := by rw [Disk.view, hwal, htables]; exact hr.view
  storable := by rw [hwal]; exact hr.storable
  fits := ⟨by rw [hwal]; exact hr.fits.wal, by rw [htables]; exact hr.fits.tables⟩
  ordered := by rw [htables]; exact hr.ordered
  numbered := by rw [htables]; exact hr.numbered

end Rep

/-! ### Writing a table -/

section Files

variable {fate : FileOp → Fate} {d : Disk} {n : ℕ}

theorem placeTable_of_lt {ts : List (ℕ × Table)} (h : ∀ st ∈ ts, st.1 < n) (t : Table) :
    placeTable ts n t = ts ++ [(n, t)] := by
  rw [placeTable, List.filter_eq_self.mpr]
  intro st hst
  have := h st hst
  simpa using Nat.ne_of_lt this

/-- A table that has just been put into place is the one that is found there. -/
theorem find_placeTable (ts : List (ℕ × Table)) (n : ℕ) (t : Table) :
    (placeTable ts n t).find? (fun f => f.1 = n) = some (n, t) := by
  have hnone : (ts.filter fun f => f.1 ≠ n).find? (fun f => f.1 = n) = none := by
    rw [List.find?_eq_none]
    intro st hst
    simpa using (List.mem_filter.mp hst).2
  rw [placeTable, List.find?_append, hnone]
  simp

theorem perform_rename {d : Disk} {f : ℕ × Table} (h : d.tmp.find? (fun f => f.1 = n) = some f) :
    fileSystem.perform (.rename n) d = ({ d with
          tables := placeTable d.tables n f.2
          tmp := d.tmp.filter fun f => f.1 ≠ n }, some []) := by
  simp only [fileSystem, h]

theorem perform_openTable {d : Disk} {f : ℕ × Table}
    (h : d.tables.find? (fun f => f.1 = n) = some f) :
    fileSystem.perform (.openTable n) d = (d, some f.2) := by
  simp only [fileSystem, h, Option.map_some]

/-- Writing a table adds at most that one file; if it does not report the table, some operation
has failed. -/
theorem writeAndOpenSSTable_safe (e : Engine) (t : Table)
    (hnum : ∀ st ∈ d.tables, st.1 ≤ e.sstableSeq) :
    Safe fileSystem fate
      (fun r d' => r.1 = { e with sstableSeq := e.sstableSeq + 1 } ∧ d'.wal = d.wal ∧ match r.2 with
        | .ok st => st = (e.sstableSeq + 1, t) ∧ d'.tables = d.tables ++ [(e.sstableSeq + 1, t)]
        | .error _ => (∃ op, fate op = .failed) ∧
            (d'.tables = d.tables ∨ d'.tables = d.tables ++ [(e.sstableSeq + 1, t)]))
      (fun d' => d'.wal = d.wal ∧
        (d'.tables = d.tables ∨ d'.tables = d.tables ++ [(e.sstableSeq + 1, t)]))
      (e.writeAndOpenSSTable t) d := by
  have hplace : placeTable d.tables (e.sstableSeq + 1) t = d.tables ++ [(e.sstableSeq + 1, t)] :=
    placeTable_of_lt (fun st hst => Nat.lt_succ_of_le (hnum st hst)) t
  unfold Engine.writeAndOpenSSTable
  -- the temporary file
  refine safe_call (fun _ => ?_) (fun hf => ⟨rfl, rfl, ⟨_, hf⟩, .inl rfl⟩) fun _ => ⟨rfl, .inl rfl⟩
  -- the rename
  refine safe_call (fun _ => ?_) (fun hf => ⟨rfl, rfl, ⟨_, hf⟩, .inl rfl⟩) fun _ => ⟨rfl, .inl rfl⟩
  rw [perform_rename (find_placeTable d.tmp (e.sstableSeq + 1) t)]
  -- from here on the file is in place
  refine safe_call (fun _ => ?_) (fun hf => ⟨rfl, rfl, ⟨_, hf⟩, .inr hplace⟩)
    fun _ => ⟨rfl, .inr hplace⟩
  refine safe_call (fun _ => ?_) (fun hf => ⟨rfl, rfl, ⟨_, hf⟩, .inr hplace⟩)
    fun _ => ⟨rfl, .inr hplace⟩
  rw [perform_openTable (find_placeTable d.tables (e.sstableSeq + 1) t)]
  exact safe_ret ⟨rfl, rfl, rfl, hplace⟩

/-- A reset empties the log or leaves it. -/
theorem walReset_safe : Safe fileSystem fate
      (fun ok d' => d'.tables = d.tables ∧ if ok then d'.wal = []
        else (∃ op, fate op = .failed) ∧ (d'.wal = d.wal ∨ d'.wal = []))
      (fun d' => d'.tables = d.tables ∧ (d'.wal = d.wal ∨ d'.wal = []))
      walReset d := by
  unfold walReset
  refine safe_call (fun _ => ?_) (fun hf => ⟨rfl, ⟨_, hf⟩, .inl rfl⟩) fun _ => ⟨rfl, .inl rfl⟩
  refine safe_call (fun _ => ?_) (fun hf => ⟨rfl, ⟨_, hf⟩, .inr rfl⟩) fun _ => ⟨rfl, .inr rfl⟩
  exact safe_call (fun _ => ⟨rfl, rfl⟩) (fun hf => ⟨rfl, ⟨_, hf⟩, .inr rfl⟩)
    fun _ => ⟨rfl, .inr rfl⟩

/-- The oldest tables go first: whenever the process stops, what is left of them is a run of the
newest ones. -/
theorem removeTables_safe (hrem : ∀ n, fate (.remove n) ≠ .failed) (keep : List (ℕ × Table)) :
    ∀ (old : List (ℕ × Table)) {d : Disk}, d.tables = old ++ keep →
      (d.tables.Pairwise fun a b => a.1 < b.1) →
      Safe fileSystem fate (fun _ d' => d'.wal = d.wal ∧ d'.tables = keep)
        (fun d' => d'.wal = d.wal ∧ ∃ i, d'.tables = old.drop i ++ keep)
        (Engine.removeTables old) d := by
  intro old
  induction old with
  | nil => intro d htables _; exact safe_ret ⟨rfl, htables⟩
  | cons st old ih =>
    intro d htables hord
    have hfilter : d.tables.filter (fun f => f.1 ≠ st.1) = old ++ keep := by
      rw [htables, List.cons_append, List.pairwise_cons] at hord
      rw [htables, List.cons_append, List.filter_cons_of_neg (by simp), List.filter_eq_self.mpr]
      intro f hf
      simpa using Nat.ne_of_gt (hord.1 f hf)
    refine safe_call (fun _ => ?_) (fun hf => absurd hf (hrem st.1)) fun _ => ⟨rfl, 0, htables⟩
    have hrest := ih (d := { d with tables := d.tables.filter fun f => f.1 ≠ st.1 }) hfilter
      (hord.sublist List.filter_sublist)
    exact hrest.mono (fun _ _ hq => hq) fun d' hc => ⟨hc.1, hc.2.imp' Nat.succ fun _ hi => hi⟩

/-! Which operations the programs issue. -/

variable {P : FileOp → Prop}

theorem appendBatch_issues (hwrite : ∀ r, P (.walWrite r)) (hsync : P .walSync)
    (records : List Record) : (appendBatch records).Issues P := by
  have hrecords : ∀ records, (writeRecords records).Issues P := by
    intro records
    induction records with
    | nil => exact ⟨hsync, fun _ => trivial⟩
    | cons r records ih =>
      refine ⟨hwrite r, fun ans => ?_⟩
      cases ans with
      | none => trivial
      | some _ => exact ih
  unfold appendBatch
  split
  · trivial
  · exact hrecords records

theorem walReset_issues (htruncate : P .resetTruncate) (hseek : P .resetSeek)
    (hsync : P .resetSync) : walReset.Issues P := by
  refine ⟨htruncate, fun truncated => ?_⟩
  cases truncated with
  | none => trivial
  | some _ =>
    refine ⟨hseek, fun sought => ?_⟩
    cases sought with
    | none => trivial
    | some _ => exact ⟨hsync, fun _ => trivial⟩

theorem removeTables_issues {old : List (ℕ × Table)} (hremove : ∀ st ∈ old, P (.remove st.1)) :
    (Engine.removeTables old).Issues P := by
  induction old with
  | nil => trivial
  | cons st old ih =>
    exact ⟨hremove st List.mem_cons_self,
      fun _ => ih fun st' hst' => hremove st' (List.mem_cons_of_mem _ hst')⟩

end Files

/-! ### Compaction and flush -/

/-- What a flush leaves alone, and how many numbers it uses. -/
structure Engine.Kept (e e' : Engine) (k : ℕ) : Prop where
  opts : e'.opts = e.opts
  nextSeq : e'.nextSeq = e.nextSeq
  seq : e'.sstableSeq ≤ e.sstableSeq + k

section Steps

variable {fate : FileOp → Fate} {strict : Prop} {now : ℤ} {h : Layer Key Entry} {e : Engine}
  {d d' : Disk} {batch : List EngineOp}

/-- A table that holds nothing but right entries may be put on top of the files. -/
theorem Recoverable.add {bound n : ℕ} {t : Table} (hr : Recoverable now h bound d) (hn : bound < n)
    (hview : Prunes Entry.dead now (overlay (replayed d'.wal)
      (overlay (tableLayer t) (tablesLayer d.tables))) h)
    (hstor : ∀ k x, replayed d'.wal k = some x → x.Storable k)
    (hwal : ∀ r ∈ d'.wal, r.Storable) (ht : ∀ x ∈ t, x.Storable)
    (htables : d'.tables = d.tables ++ [(n, t)]) : Recoverable now h n d' where
  view := by rw [Disk.view, htables, tablesLayer_concat]; exact hview
  storable := hstor
  fits := by
    refine ⟨hwal, ?_⟩
    rw [htables]
    exact List.forall_mem_append.mpr ⟨hr.fits.tables, List.forall_mem_singleton.mpr ht⟩
  ordered := by
    rw [htables, List.pairwise_append]
    refine ⟨hr.ordered, List.pairwise_singleton _ _, fun a ha b hb => ?_⟩
    rw [List.mem_singleton.mp hb]
    exact (hr.numbered a ha).trans_lt hn
  numbered := by
    rw [htables]
    exact List.forall_mem_append.mpr ⟨fun st hst => (hr.numbered st hst).trans hn.le,
      List.forall_mem_singleton.mpr le_rfl⟩

/-- A compaction with an empty memtable keeps the map. What has expired by then is dropped, which no
reader can tell at `now` or later. -/
theorem compactLocked_safe (hr : Rep strict now h e d) (hmem : e.memtable = ∅)
    (hlisted : e.sstables = d.tables) (hstrict : strict → ∀ op, fate op ≠ .failed)
    (hrem : ∀ n, fate (.remove n) ≠ .failed) :
    Safe fileSystem fate (fun r d' => Rep strict now h r.1 d' ∧ e.Kept r.1 1 ∧
        (r.2 ≠ none → ∃ op, fate op = .failed))
      (Recoverable now h (e.sstableSeq + 1)) (e.compactLocked now) d := by
  have hwal : replayed d.wal = fun _ => none := by
    funext k
    cases hk : replayed d.wal k with
    | none => rfl
    | some x =>
      have := hr.replay k x hk
      rw [hmem, layerOf_empty] at this
      cases this
  have hrun : Prunes Entry.dead now (tablesLayer e.sstables) h := by
    have := hr.running
    rwa [Engine.view, hmem, layerOf_empty, empty_overlay] at this
  have hdisk : Prunes Entry.dead now (tablesLayer d.tables) h := by
    have := hr.view
    rwa [Disk.view, hwal, empty_overlay] at this
  -- once the merged table is in place, and while the old ones are there
  have hplaced : ∀ {d' : Disk}, d'.wal = d.wal → (d'.tables = d.tables ∨ d'.tables
      = d.tables ++ [(e.sstableSeq + 1, Engine.compactedEntries now e.sstables)]) →
      Recoverable now h (e.sstableSeq + 1) d' := by
    rintro d' hw (htab | htab)
    · exact (hr.recoverable.congr hw htab).mono (Nat.le_succ _)
    · refine hr.recoverable.add (Nat.lt_succ_self _) ?_ (hw ▸ hr.recoverable.storable)
        (hw ▸ hr.fits.wal) (fun x hx => ?_) htab
      swap
      · obtain ⟨st, hst, hx⟩ := mem_of_compactedEntries hx
        exact hr.fits.tables st (hlisted ▸ hst) x hx
      rw [hw, hwal, empty_overlay, tableLayer_compactedEntries]
      exact hrun.overlay_live hdisk
  unfold Engine.compactLocked
  refine safe_bind ((writeAndOpenSSTable_safe e _ hr.numbered).mono (fun _ _ hq => hq)
    fun d' hc => hplaced hc.1 hc.2) ?_
  rintro ⟨e', r⟩ d' ⟨rfl, hw, hr'⟩
  cases r with
  | error err =>
    obtain ⟨hfail, htab⟩ := hr'
    refine safe_ret ⟨Rep.of_recoverable (hplaced hw htab) ?_ hr.running hr.storable ?_,
      ⟨rfl, rfl, le_rfl⟩, fun _ => hfail⟩
    · rw [hw]; exact hr.replay
    · exact fun hs => absurd hfail.choose_spec (hstrict hs _)
  | ok st =>
    obtain ⟨rfl, htab⟩ := hr'
    have hrec := hplaced hw (.inr htab)
    -- the newest of the old tables, under the merged one
    have hleft : ∀ {d'' : Disk} (i : ℕ), d''.wal = d'.wal → d''.tables
        = e.sstables.drop i ++ [(e.sstableSeq + 1, Engine.compactedEntries now e.sstables)] →
        Recoverable now h (e.sstableSeq + 1) d'' := by
      intro d'' i hw' htab'
      have hsub : d''.tables.Sublist d'.tables := by
        rw [htab', htab, ← hlisted]
        exact (List.drop_sublist i _).append_right _
      refine ⟨?_, ?_, ⟨by rw [hw']; exact hrec.fits.wal, fun st hst =>
        hrec.fits.tables st (hsub.subset hst)⟩, hrec.ordered.sublist hsub,
        fun st hst => hrec.numbered st (hsub.subset hst)⟩
      · rw [Disk.view, hw', hw, hwal, empty_overlay, htab', tablesLayer_concat,
          tableLayer_compactedEntries]
        exact hrun.overlay_live_of_below (below_tablesLayer_drop _ i)
      · rw [hw', hw]; exact hr.recoverable.storable
    refine safe_bind ((removeTables_safe hrem _ e.sstables (by rw [htab, hlisted])
      hrec.ordered).mono (fun _ _ hq => hq)
      fun d'' hc => hleft hc.2.choose hc.1 hc.2.choose_spec) ?_
    rintro ⟨⟩ d'' ⟨hw', htab'⟩
    have hend := hleft e.sstables.length hw' (by rw [List.drop_length]; exact htab')
    refine safe_ret ⟨Rep.of_recoverable hend ?_ ?_ hr.storable fun _ => htab'.symm,
      ⟨rfl, rfl, le_rfl⟩, fun hne => absurd rfl hne⟩
    · rw [hw', hw]; exact hr.replay
    · rw [Engine.view, hmem, layerOf_empty, empty_overlay, tablesLayer, List.map_singleton, stack,
        stack, empty_overlay, tableLayer_compactedEntries, ← overlay_empty (live _ _ _)]
      exact hrun.overlay_live_of_below (below_empty _)

/-- With the flushed table in place: it has all that the log has, so the log may still be there or
not. -/
theorem Rep.recoverable_flushed (hr : Rep strict now h e d)
    (htab : d'.tables = d.tables ++ [(e.sstableSeq + 1, Engine.flushedEntries e.memtable)])
    (hw : d'.wal = d.wal ∨ d'.wal = []) : Recoverable now h (e.sstableSeq + 1) d' := by
  have hbelow : Below (replayed d'.wal) (layerOf e.memtable) := by
    rcases hw with hw | hw <;> rw [hw]
    · exact hr.replay
    · exact below_empty _
  have hlog : ∀ r ∈ d'.wal, r.Storable := by
    rcases hw with hw | hw <;> rw [hw]
    · exact hr.fits.wal
    · exact nofun
  refine hr.recoverable.add (Nat.lt_succ_self _) ?_ (fun k x hx => hr.storable k x (hbelow k x hx))
    hlog (fun x hx => ?_) htab
  swap
  · obtain ⟨y, hy, heq⟩ := exists_of_mem_flushedEntries hx
    rw [heq]
    exact (hr.storable _ y hy).tableEntry
  rw [tableLayer_flushedEntries hr.storable, hbelow.overlay_eq]
  exact Prunes.overlay_of_below hr.replay hr.running hr.view

/-- The memtable has become the newest table. -/
theorem Rep.flushed (hr : Rep strict now h e d)
    (htab : d'.tables = d.tables ++ [(e.sstableSeq + 1, Engine.flushedEntries e.memtable)])
    (hw : d'.wal = []) :
    Rep strict now h { e with
        sstableSeq := e.sstableSeq + 1
        sstables := e.sstables ++ [(e.sstableSeq + 1, Engine.flushedEntries e.memtable)]
        memtable := ∅
        memtableSize := 0 } d' := by
  refine Rep.of_recoverable (hr.recoverable_flushed htab (.inr hw)) ?_ ?_ ?_ ?_
  · rw [hw]; exact below_empty _
  · rw [Engine.view, layerOf_empty, empty_overlay, tablesLayer_concat,
      tableLayer_flushedEntries hr.storable]
    exact hr.running
  · intro k x hx
    rw [layerOf_empty] at hx
    cases hx
  · intro hs
    rw [htab, hr.listed hs]

/-- A flush keeps the map, whether its table could be written or not, whether the log could be
reset or not, and whether a compaction follows. An error means that some operation failed. -/
theorem flushLocked_safe (hr : Rep strict now h e d)
    (hcompact : e.opts.compactionThreshold < e.sstables.length + 1 → e.sstables = d.tables)
    (hstrict : strict → ∀ op, fate op ≠ .failed) (hrem : ∀ n, fate (.remove n) ≠ .failed) :
    Safe fileSystem fate (fun r d' => Rep strict now h r.1 d' ∧ e.Kept r.1 2 ∧
        (r.2 ≠ none → ∃ op, fate op = .failed))
      (Recoverable now h (e.sstableSeq + 2)) (e.flushLocked now) d := by
  unfold Engine.flushLocked
  split
  · exact safe_ret ⟨hr, ⟨rfl, rfl, Nat.le_add_right _ _⟩, fun hne => absurd rfl hne⟩
  refine safe_bind ((writeAndOpenSSTable_safe e _ hr.numbered).mono (fun _ _ hq => hq) ?_) ?_
  · -- stopped on the way: the table is not there yet, or on top of the log it was made from
    rintro d' ⟨hw, htab | htab⟩
    · exact (hr.recoverable.congr hw htab).mono (by omega)
    · exact (hr.recoverable_flushed htab (.inl hw)).mono (by omega)
  rintro ⟨e', r⟩ d' ⟨rfl, hw, hr'⟩
  cases r with
  | error err =>
    -- the engine goes on without a table that may be on disk; it shadows nothing
    obtain ⟨hfail, htab⟩ := hr'
    have hrec : Recoverable now h (e.sstableSeq + 1) d' := by
      rcases htab with htab | htab
      · exact (hr.recoverable.congr hw htab).mono (by omega)
      · exact hr.recoverable_flushed htab (.inl hw)
    refine safe_ret ⟨Rep.of_recoverable hrec ?_ hr.running hr.storable ?_, ⟨rfl, rfl, by simp⟩,
      fun _ => hfail⟩
    · rw [hw]; exact hr.replay
    · exact fun hs => absurd hfail.choose_spec (hstrict hs _)
  | ok st =>
    obtain ⟨rfl, htab⟩ := hr'
    have hwal : ∀ {d'' : Disk}, d''.wal = d'.wal ∨ d''.wal = [] → d''.wal = d.wal ∨ d''.wal = [] :=
      fun hc => hc.imp (fun hc => hc.trans hw) id
    refine safe_bind (walReset_safe.mono (fun _ _ hq => hq) fun d'' hc =>
      (hr.recoverable_flushed (hc.1.trans htab) (hwal hc.2)).mono (by omega)) ?_
    rintro ok d'' ⟨htab'', hok⟩
    cases ok with
    | false =>
      -- the engine keeps its memtable although the log may be gone: the table has it all
      obtain ⟨hfail, hw''⟩ := hok
      refine safe_ret ⟨Rep.of_recoverable (hr.recoverable_flushed (htab''.trans htab) (hwal hw''))
        ?_ hr.running hr.storable ?_, ⟨rfl, rfl, by simp⟩, fun _ => hfail⟩
      · rcases hwal hw'' with hw' | hw' <;> rw [hw']
        · exact hr.replay
        · exact below_empty _
      · exact fun hs => absurd hfail.choose_spec (hstrict hs _)
    | true =>
      have hrep := hr.flushed (htab''.trans htab) hok
      simp only
      split
      · next hthr =>
        -- the new table counts for the threshold
        rw [List.length_append, List.length_singleton, Nat.cast_add, Nat.cast_one] at hthr
        have hlisted := hcompact hthr
        refine safe_bind ((compactLocked_safe hrep rfl (by rw [htab'', htab, hlisted]) hstrict
          hrem).mono (fun _ _ hq => hq) fun d₃ hc => hc.mono (by simp)) ?_
        rintro ⟨e₃, r₃⟩ d₃ ⟨hrep₃, hkept, herr⟩
        have hseq := hkept.seq
        cases r₃ with
        | some err =>
          exact safe_ret ⟨hrep₃, ⟨hkept.opts, hkept.nextSeq, hseq⟩, fun _ => herr (by simp)⟩
        | none =>
          exact safe_ret ⟨hrep₃, ⟨hkept.opts, hkept.nextSeq, hseq⟩, fun hne => absurd rfl hne⟩
      · exact safe_ret ⟨hrep, ⟨rfl, rfl, by simp⟩, fun hne => absurd rfl hne⟩

/-- The same below the threshold, where nothing happens. -/
theorem maybeFlushLocked_safe (hr : Rep strict now h e d)
    (hcompact : e.opts.memtableFlushThresholdBytes ≤ e.memtableSize →
      e.opts.compactionThreshold < e.sstables.length + 1 → e.sstables = d.tables)
    (hstrict : strict → ∀ op, fate op ≠ .failed) (hrem : ∀ n, fate (.remove n) ≠ .failed) :
    Safe fileSystem fate (fun r d' => Rep strict now h r.1 d' ∧ e.Kept r.1 2 ∧
        (r.2 ≠ none → ∃ op, fate op = .failed))
      (Recoverable now h (e.sstableSeq + 2)) (e.maybeFlushLocked now) d := by
  unfold Engine.maybeFlushLocked
  split
  · exact safe_ret ⟨hr, ⟨rfl, rfl, Nat.le_add_right _ _⟩, fun hne => absurd rfl hne⟩
  · next hsize => exact flushLocked_safe hr (hcompact (not_lt.mp hsize)) hstrict hrem

/-! ### Batches -/

/-- The operations of a batch whose records are in the log when the process stops. -/
def written (fate : FileOp → Fate) (batch : List EngineOp) : List EngineOp :=
  batch.takeWhile fun op => fate (.walWrite op.record) ≠ .stopped

/-- If no write fails, the log grows by the whole batch, or up to the record at which the process
stops. -/
theorem writeRecords_safe (hwrite : ∀ r, fate (.walWrite r) ≠ .failed)
    (hsync : fate .walSync ≠ .failed) (batch : List EngineOp) : ∀ d : Disk,
    Safe fileSystem fate (fun ok d' => ok = true ∧ written fate batch = batch ∧
        d'.wal = d.wal ++ batch.map EngineOp.record ∧ d'.tables = d.tables)
      (fun d' => d'.wal = d.wal ++ (written fate batch).map EngineOp.record ∧ d'.tables = d.tables)
      (writeRecords (batch.map EngineOp.record)) d := by
  induction batch with
  | nil =>
    intro d
    refine safe_call (fun _ => ⟨rfl, rfl, ?_, rfl⟩) (fun hf => absurd hf hsync) fun _ => ⟨?_, rfl⟩
    · exact (List.append_nil _).symm
    · exact (List.append_nil _).symm
  | cons op batch ih =>
    intro d
    rw [List.map_cons, writeRecords]
    refine safe_call (fun hdone => ?_) (fun hf => absurd hf (hwrite _)) fun hstop => ?_
    · have hcons : written fate (op :: batch) = op :: written fate batch :=
        List.takeWhile_cons_of_pos (by simp [hdone])
      refine (ih { d with wal := d.wal ++ [op.record] }).mono ?_ ?_
      · rintro ok d' ⟨rfl, hall, hw, htab⟩
        refine ⟨rfl, by rw [hcons, hall], ?_, htab⟩
        rw [hw, List.append_assoc, List.singleton_append]
      · rintro d' ⟨hw, htab⟩
        refine ⟨?_, htab⟩
        rw [hw, hcons, List.map_cons, List.append_assoc, List.singleton_append]
    · -- stopped before this record, so nothing of the rest is in the log
      have hnil : written fate (op :: batch) = [] :=
        List.takeWhile_cons_of_neg (by simp [hstop])
      rw [hnil]
      exact ⟨(List.append_nil _).symm, rfl⟩

theorem appendBatch_safe (hwrite : ∀ r, fate (.walWrite r) ≠ .failed)
    (hsync : fate .walSync ≠ .failed) (batch : List EngineOp) (d : Disk) :
    Safe fileSystem fate (fun ok d' => ok = true ∧ written fate batch = batch ∧
        d'.wal = d.wal ++ batch.map EngineOp.record ∧ d'.tables = d.tables)
      (fun d' => d'.wal = d.wal ++ (written fate batch).map EngineOp.record ∧ d'.tables = d.tables)
      (appendBatch (batch.map EngineOp.record)) d := by
  unfold appendBatch
  split
  · next hnil =>
    rw [List.map_eq_nil_iff] at hnil
    subst hnil
    exact safe_ret ⟨rfl, rfl, (List.append_nil _).symm, rfl⟩
  · exact writeRecords_safe hwrite hsync batch d

/-- What a batch does to the process. -/
theorem applyAll_spec (batch : List EngineOp) : ∀ e : Engine,
    layerOf (e.applyAll batch).memtable = writes (layerOf e.memtable) (batch.map EngineOp.write) ∧
      (e.applyAll batch).sstables = e.sstables ∧ (e.applyAll batch).opts = e.opts ∧
      (e.applyAll batch).sstableSeq = e.sstableSeq ∧ (e.applyAll batch).nextSeq = e.nextSeq := by
  induction batch with
  | nil => intro e; exact ⟨rfl, rfl, rfl, rfl, rfl⟩
  | cons op batch ih =>
    intro e
    obtain ⟨hmem, hrest⟩ := ih (e.applyToMemtable op.key op.entry)
    refine ⟨?_, hrest⟩
    rw [List.map_cons, writes_cons, EngineOp.write, ← layerOf_insert]
    exact hmem

theorem Engine.view_applyAll (e : Engine) (batch : List EngineOp) :
    (e.applyAll batch).view = writes e.view (batch.map EngineOp.write) := by
  obtain ⟨hmem, hsst, -⟩ := applyAll_spec batch e
  rw [Engine.view, hmem, hsst, overlay_writes, Engine.view]

/-- What a map with a batch written to it holds can be stored if map and batch can. -/
theorem storable_writes {m : Layer Key Entry} (hm : ∀ k x, m k = some x → x.Storable k)
    (hstor : ∀ op ∈ batch, op.Storable) :
    ∀ k x, writes m (batch.map EngineOp.write) k = some x → x.Storable k := by
  intro k x hx
  rcases eq_some_of_writes hx with hx | hx
  · exact hm k x hx
  · obtain ⟨op, hop, heq⟩ := List.mem_map.mp hx
    obtain ⟨rfl, rfl⟩ := Prod.mk.inj heq
    exact (hstor op hop).entry

theorem Disk.Fits.append (h : d.Fits) (hstor : ∀ op ∈ batch, op.Storable)
    (hwal : d'.wal = d.wal ++ batch.map EngineOp.record) (htab : d'.tables = d.tables) :
    d'.Fits := by
  refine ⟨?_, htab ▸ h.tables⟩
  rw [hwal]
  exact List.forall_mem_append.mpr
    ⟨h.wal, List.forall_mem_map.mpr fun op hop => (hstor op hop).record⟩

/-- A batch that is in the log and in the memtable. -/
theorem Rep.applyAll (hr : Rep strict now h e d) (hfaith : ∀ op ∈ batch, op.Faithful)
    (hstor : ∀ op ∈ batch, op.Storable) (hwal : d'.wal = d.wal ++ batch.map EngineOp.record)
    (htab : d'.tables = d.tables) :
    Rep strict now (writes h (batch.map EngineOp.write)) (e.applyAll batch) d' := by
  obtain ⟨hmem, hsst, -, hseq, -⟩ := applyAll_spec batch e
  have hreplayed : replayed d'.wal = writes (replayed d.wal) (batch.map EngineOp.write) := by
    rw [hwal, replayed_append_records hfaith]
  refine ⟨?_, ?_, ?_, ?_, hr.fits.append hstor hwal htab, htab ▸ hr.ordered, ?_,
    fun hs => by rw [hsst, htab, hr.listed hs]⟩
  · rw [Engine.view, hmem, hsst, overlay_writes]
    exact hr.running.writes
  · rw [Disk.view, hreplayed, htab, overlay_writes]
    exact hr.view.writes
  · rw [hreplayed, hmem]
    exact hr.replay.writes
  · rw [hmem]
    exact storable_writes hr.storable hstor
  · rw [htab, hseq]
    exact hr.numbered

/-- A part of a batch that is in the log only. -/
theorem Recoverable.replay {bound : ℕ} (hr : Recoverable now h bound d)
    (hfaith : ∀ op ∈ batch, op.Faithful) (hstor : ∀ op ∈ batch, op.Storable)
    (hwal : d'.wal = d.wal ++ batch.map EngineOp.record) (htab : d'.tables = d.tables) :
    Recoverable now (writes h (batch.map EngineOp.write)) bound d' := by
  have hreplayed : replayed d'.wal = writes (replayed d.wal) (batch.map EngineOp.write) := by
    rw [hwal, replayed_append_records hfaith]
  refine ⟨?_, ?_, hr.fits.append hstor hwal htab, htab ▸ hr.ordered, htab ▸ hr.numbered⟩
  · rw [Disk.view, hreplayed, htab, overlay_writes]
    exact hr.view.writes
  · rw [hreplayed]
    exact storable_writes hr.storable hstor

/-- **A batch keeps the invariant**, and wherever it is stopped the disk has a part of it. -/
theorem processBatch_safe (hr : Rep strict now h e d) (hfaith : ∀ op ∈ batch, op.Faithful)
    (hstor : ∀ op ∈ batch, op.Storable) (hwrite : ∀ r, fate (.walWrite r) ≠ .failed)
    (hsync : fate .walSync ≠ .failed)
    (hcompact : e.opts.memtableFlushThresholdBytes ≤ (e.applyAll batch).memtableSize →
      e.opts.compactionThreshold < e.sstables.length + 1 → e.sstables = d.tables)
    (hstrict : strict → ∀ op, fate op ≠ .failed) (hrem : ∀ n, fate (.remove n) ≠ .failed) :
    Safe fileSystem fate
      (fun r d' => Rep strict now (writes h (batch.map EngineOp.write)) r.1 d' ∧ e.Kept r.1 2 ∧
        (r.2 ≠ none → ∃ op, fate op = .failed))
      (Recoverable now (writes h ((written fate batch).map EngineOp.write)) (e.sstableSeq + 2))
      (e.processBatch batch now) d := by
  obtain ⟨-, hsst, hopts, hseq, hnext⟩ := applyAll_spec batch e
  unfold Engine.processBatch
  refine safe_bind ((appendBatch_safe hwrite hsync batch d).mono (fun _ _ hq => hq) ?_) ?_
  · rintro d' ⟨hwal, htab⟩
    have hsub : ∀ op ∈ written fate batch, op ∈ batch := fun op hop =>
      (List.takeWhile_subset _) hop
    exact (hr.recoverable.replay (fun op hop => hfaith op (hsub op hop))
      (fun op hop => hstor op (hsub op hop)) hwal htab).mono (Nat.le_add_right _ _)
  · rintro ok d' ⟨rfl, hall, hwal, htab⟩
    have hrep := hr.applyAll hfaith hstor hwal htab
    have hflush : Safe fileSystem fate _ _ _ d' := maybeFlushLocked_safe hrep
      (by rw [hopts, hsst, htab]; exact hcompact) hstrict hrem
    rw [hall]
    refine hflush.mono ?_ fun d₁ hc => hseq ▸ hc
    rintro ⟨e₁, r₁⟩ d₁ ⟨hrep₁, hkept, herr⟩
    exact ⟨hrep₁, ⟨hkept.opts.trans hopts, hkept.nextSeq.trans hnext, hseq ▸ hkept.seq⟩, herr⟩

end Steps

/-! ### Recovery -/

section Recovery

variable {now : ℤ} {h : Layer Key Entry} {d : Disk}

/-- Up to `999999` the names sort like the numbers. -/
theorem sortedTables_eq (hord : d.tables.Pairwise fun a b => a.1 < b.1)
    (hsix : ∀ st ∈ d.tables, st.1 < 10 ^ 6) : sortedTables d = d.tables := by
  refine List.Pairwise.insertionSort_eq (hord.imp_of_mem fun _ hb hlt => ?_)
  exact le_of_lt (sstableFileName_lt (hsix _ hb) hlt)

theorem raiseSeq_eq (m : ℕ) (st : ℕ × Table) :
    raiseSeq m st = if st.1 < 10 ^ 6 then max m st.1 else m := by
  unfold raiseSeq
  split_ifs with h
  · rw [scanSeq_sstableFileName h]
  · rw [scanSeq_of_seven_digits (not_lt.mp h)]

theorem maxSeq_eq {ts : List (ℕ × Table)} (hsix : ∀ st ∈ ts, st.1 < 10 ^ 6) :
    maxSeq ts = (ts.map Prod.fst).foldl max 0 := by
  rw [maxSeq, List.foldl_map]
  refine List.foldl_ext _ _ _ fun m st hst => ?_
  rw [raiseSeq_eq, if_pos (hsix st hst)]

/-- What a running maximum is at least. -/
theorem le_foldl_max_iff {α : Type} {f : α → ℕ} {n : ℕ} (xs : List α) : ∀ {m : ℕ},
    n ≤ xs.foldl (fun m x => max m (f x)) m ↔ n ≤ m ∨ ∃ x ∈ xs, n ≤ f x := by
  induction xs with
  | nil => simp
  | cons x xs ih =>
    intro m
    rw [List.foldl_cons, ih, le_max_iff, List.exists_mem_cons_iff, or_assoc]

theorem le_maxSeq {ts : List (ℕ × Table)} (hsix : ∀ st ∈ ts, st.1 < 10 ^ 6) :
    ∀ st ∈ ts, st.1 ≤ maxSeq ts := by
  intro st hst
  rw [maxSeq_eq hsix]
  exact (le_foldl_max_iff _).mpr (.inr ⟨st.1, List.mem_map_of_mem hst, le_rfl⟩)

/-- A replayed record does what `applyToMemtable` did with its entry, the size included. -/
theorem applyRecordToMemtable_eq {r : Record} {x : Entry} (hr : recordEntry r = some x)
    (e : Engine) : applyRecordToMemtable e r = e.applyToMemtable r.key x := by
  rw [applyRecordToMemtable, hr]
  rfl

theorem applyRecordToMemtable_of_none {r : Record} (hr : recordEntry r = none) (e : Engine) :
    applyRecordToMemtable e r = e := by
  rw [applyRecordToMemtable, hr]

theorem replay_spec (wal : List Record) : ∀ e : Engine,
    layerOf (wal.foldl applyRecordToMemtable e).memtable = writes (layerOf e.memtable)
        (wal.filterMap fun r => (recordEntry r).map fun x => (r.key, x)) ∧
      (wal.foldl applyRecordToMemtable e).sstables = e.sstables ∧
      (wal.foldl applyRecordToMemtable e).sstableSeq = e.sstableSeq := by
  induction wal with
  | nil => intro e; exact ⟨rfl, rfl, rfl⟩
  | cons r wal ih =>
    intro e
    rw [List.foldl_cons, List.filterMap_cons]
    cases hr : recordEntry r with
    | none =>
      rw [applyRecordToMemtable_of_none hr]
      exact ih e
    | some x =>
      rw [applyRecordToMemtable_eq hr]
      obtain ⟨hmem, hrest⟩ := ih (e.applyToMemtable r.key x)
      refine ⟨?_, hrest⟩
      rw [hmem, Option.map_some, writes_cons, ← layerOf_insert]
      rfl

/-- **`Open` rebuilds what the disk stands for.** -/
theorem openEngine_rep {bound : ℕ} (hr : Recoverable now h bound d)
    (hsix : ∀ st ∈ d.tables, st.1 < 10 ^ 6) (opts : Options) :
    Rep True now h (openEngine d opts) d := by
  have hsorted := sortedTables_eq hr.ordered hsix
  obtain ⟨hmem, hsst, hseq⟩ := replay_spec d.wal
    ⟨opts, ∅, 0, sortedTables d, maxSeq (sortedTables d), 0⟩
  have hlayer : layerOf (openEngine d opts).memtable = replayed d.wal := by
    rw [layerOf_empty] at hmem
    exact hmem
  have htables : (openEngine d opts).sstables = d.tables := hsst.trans hsorted
  refine ⟨?_, hr.view, hlayer ▸ Below.refl _, fun k x hx => hr.storable k x (hlayer ▸ hx),
    hr.fits, hr.ordered, ?_, fun _ => htables⟩
  · rw [Engine.view, hlayer, htables]
    exact hr.view
  · have hmax : (openEngine d opts).sstableSeq = maxSeq d.tables := by
      rw [← hsorted]
      exact hseq
    rw [hmax]
    exact le_maxSeq hsix

end Recovery

/-! ### Calls -/

/-- The calls whose expiry comes back from a file as it was: it is a number of nanoseconds other
than `0` that fits in an `int64`. -/
def Request.StorableExpiry : Request → Prop
  | .put now _ _ _ ttl => ∀ t ∈ expiryOf now ttl, t ≠ 0 ∧ FitsInt64 t
  | .delete _ _ => True

instance Request.StorableExpiry.decidable : (r : Request) → Decidable r.StorableExpiry
  | .put now _ _ _ ttl =>
    inferInstanceAs (Decidable (∀ t ∈ expiryOf now ttl, t ≠ 0 ∧ FitsInt64 t))
  | .delete _ _ => inferInstanceAs (Decidable True)

/-- Key, value and consistency are within the length fields of the files. -/
def Request.Fits : Request → Prop
  | .put _ key value consistency _ => LengthsFit key value consistency
  | .delete _ key => LengthsFit key [] []

instance Request.Fits.decidable : (r : Request) → Decidable r.Fits
  | .put _ key value consistency _ =>
    inferInstanceAs (Decidable (LengthsFit key value consistency))
  | .delete _ key => inferInstanceAs (Decidable (LengthsFit key [] []))

/-- The calls whose entries come back from a file as they were. -/
def Request.Storable (r : Request) : Prop :=
  r.StorableExpiry ∧ r.Fits

instance Request.Storable.decidable (r : Request) : Decidable r.Storable :=
  inferInstanceAs (Decidable (_ ∧ _))

theorem Request.op_storable {r : Request} (h : r.Storable) (seq : ℕ) : (r.op seq).Storable := by
  obtain ⟨hexp, hfit⟩ := h
  cases r with
  | put now key value consistency ttl =>
    exact ⟨⟨fun t ht => hexp t ht, hfit⟩, hfit, fitsInt64_wrap64 _, fitsInt64_unixNano _⟩
  | delete now key =>
    exact ⟨⟨nofun, hfit⟩, hfit, fitsInt64_wrap64 _, fitsInt64_unixNano none⟩

theorem Request.op_faithful {r : Request} (h : r.StorableExpiry) (seq : ℕ) :
    (r.op seq).Faithful := by
  cases r with
  | put now key value consistency ttl =>
    refine ⟨rfl, ?_⟩
    change recordEntry ⟨seq, opSet, _, unixNano (expiryOf now ttl), _, _, _⟩ = _
    rw [recordEntry, if_pos rfl, ofUnixNano_unixNano fun t ht => h t ht]
    rfl
  | delete now key => exact ⟨rfl, rfl⟩

/-- What calls enqueue, one after the other. -/
theorem mem_enqueue {rs : List Request} : ∀ {e : Engine} {op : EngineOp}, op ∈ (e.enqueue rs).2 →
    ∃ r ∈ rs, ∃ seq, e.nextSeq ≤ seq ∧ op = r.op seq := by
  induction rs with
  | nil => intro e op h; cases h
  | cons r rs ih =>
    intro e op h
    rcases List.mem_cons.mp h with rfl | h
    · exact ⟨r, List.mem_cons_self, e.nextSeq, le_rfl, rfl⟩
    · obtain ⟨r', hr', seq, hseq, rfl⟩ := ih h
      exact ⟨r', List.mem_cons_of_mem r hr', seq, (Nat.le_succ _).trans hseq, rfl⟩

/-- Enqueuing only numbers. -/
theorem enqueue_engine (rs : List Request) : ∀ e : Engine,
    (e.enqueue rs).1 = { e with nextSeq := e.nextSeq + rs.length } := by
  induction rs with
  | nil => intro e; rfl
  | cons r rs ih =>
    intro e
    have := ih { e with nextSeq := e.nextSeq + 1 }
    rw [Engine.enqueue, this, List.length_cons]
    congr 1
    simp only
    omega

end Storage
end BoilerPulse
