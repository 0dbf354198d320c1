import BoilerPulse.Storage.LsmRuns

/-!
# Storage: writes that fail

`processBatch` has one error for all that can go wrong, and every caller of the batch gets it. If
the log cannot be written, the engine is as it was. But the memtable gets the batch before the flush
it may trigger, and the error of the flush, or of the compaction after it, goes to the same callers:
their operations have been logged and applied, and readers see them.

Which of the two it is depends on the fates of the batch's own records and of the sync behind them
(`LogFails`), and on nothing else: an operation that only a flush issues does not matter if the log
has failed, and `os.Remove` never makes an error. This is decided by `appendBatch_result`; what a
flush leaves behind is said by `maybeFlushLocked_result`, for every outcome of it.

* After a failure of the log there is one trace, the numbers that the calls have used up. Readers
  see what they saw, until a later write gets a version that is higher by the number of failed calls
  (`failed_write_traceless_iff`).
* After any other failure the whole batch is there. Readers see no trace of it only if there was
  nothing to be seen before, and nothing is now, at any of its keys (`Engine.Unseen`,
  `failed_write_traceless_iff`); and at the time of the flush and later they see exactly what a run
  in which nothing fails would show (`failed_flush_shows_batch`). At earlier readings of the clock
  that run may show less, since its compaction drops what has expired.
-/

namespace BoilerPulse
namespace Storage

open Framework Prog

/-- `AppendBatch` fails: the write of one of the records does, or the sync behind them. -/
def LogFails (fate : FileOp → Fate) (records : List Record) : Prop :=
  records ≠ [] ∧ ((∃ r ∈ records, fate (.walWrite r) = .failed) ∨ fate .walSync = .failed)

section Stages

variable {fate : FileOp → Fate} {d : Disk}

theorem writeRecords_result (records : List Record) : ∀ d : Disk, Safe fileSystem fate
      (fun ok _ => ok = false ↔
        (∃ r ∈ records, fate (.walWrite r) = .failed) ∨ fate .walSync = .failed)
      (fun _ => True) (writeRecords records) d := by
  induction records with
  | nil =>
    intro d
    refine safe_call (fun hdone => ?_) (fun hf => ?_) fun _ => trivial
    · exact safe_ret (by simp [fileSystem, hdone])
    · exact safe_ret (by simp [fileSystem, hf])
  | cons r records ih =>
    intro d
    refine safe_call (fun hdone => ?_) (fun hf => ?_) fun _ => trivial
    · refine (ih _).mono (fun ok _ hok => ?_) fun _ h => h
      rw [hok, List.exists_mem_cons_iff, hdone]
      simp
    · exact safe_ret (by simp [hf])

/-- If it comes to an end, `AppendBatch` reports an error exactly if one of its operations fails. -/
theorem appendBatch_result (records : List Record) (d : Disk) :
    Safe fileSystem fate (fun ok _ => ok = false ↔ LogFails fate records) (fun _ => True)
      (appendBatch records) d := by
  unfold appendBatch
  split
  · next hnil => exact safe_ret (by simp [LogFails, hnil])
  · next hne =>
    refine (writeRecords_result records d).mono (fun ok _ hok => ?_) fun _ h => h
    rw [hok, LogFails, and_iff_right hne]

/-- The table that is opened is the one that was written, on any disk. -/
theorem writeAndOpenSSTable_result (e : Engine) (t : Table) (d : Disk) : Safe fileSystem fate
      (fun r d' => r.1 = { e with sstableSeq := e.sstableSeq + 1 } ∧ d'.wal = d.wal ∧ match r.2 with
        | .ok st => st = (e.sstableSeq + 1, t)
        | .error _ => ∃ op, fate op = .failed)
      (fun _ => True) (e.writeAndOpenSSTable t) d := by
  unfold Engine.writeAndOpenSSTable
  refine safe_call (fun _ => ?_) (fun hf => ⟨rfl, rfl, _, hf⟩) fun _ => trivial
  refine safe_call (fun _ => ?_) (fun hf => ⟨rfl, rfl, _, hf⟩) fun _ => trivial
  rw [perform_rename (find_placeTable d.tmp (e.sstableSeq + 1) t)]
  refine safe_call (fun _ => ?_) (fun hf => ⟨rfl, rfl, _, hf⟩) fun _ => trivial
  refine safe_call (fun _ => ?_) (fun hf => ⟨rfl, rfl, _, hf⟩) fun _ => trivial
  rw [perform_openTable (find_placeTable d.tables (e.sstableSeq + 1) t)]
  exact safe_ret ⟨rfl, rfl, rfl⟩

/-- `e'` holds what `e` holds: its memtable is that of `e`, or it has become the newest table. -/
def Engine.HeldBy (e e' : Engine) : Prop :=
  (e'.memtable = e.memtable ∧ e'.memtableSize = e.memtableSize ∧ e'.sstables = e.sstables) ∨
    ∃ n, e'.memtable = ∅ ∧ e'.memtableSize = 0 ∧
      e'.sstables = e.sstables ++ [(n, Engine.flushedEntries e.memtable)]

/-- All that `e` holds has been merged into one table, without what was dead. -/
def Engine.MergedBy (now : ℤ) (e e' : Engine) : Prop :=
  ∃ n m, e'.memtable = ∅ ∧ e'.memtableSize = 0 ∧ e'.sstables = [(n, Engine.compactedEntries now
    (e.sstables ++ [(m, Engine.flushedEntries e.memtable)]))]

theorem removeTables_wal (old : List (ℕ × Table)) (d : Disk) :
    Safe fileSystem fate (fun _ d' => d'.wal = d.wal) (fun d' => d'.wal = d.wal)
      (Engine.removeTables old) d := by
  refine Issues.safe ?_ (removeTables_issues (P := fun op => ∃ n, op = .remove n)
    fun st _ => ⟨st.1, rfl⟩) rfl
  rintro _ d' ⟨n, rfl⟩ hd'
  exact ⟨hd', hd'⟩

/-- A compaction that fails leaves the tables alone. -/
theorem compactLocked_result (e : Engine) (now : ℤ) (d : Disk) : Safe fileSystem fate
      (fun r d' => (r.1.nextSeq = e.nextSeq ∧ d'.wal = d.wal ∧ r.1.memtable = e.memtable ∧
          r.1.memtableSize = e.memtableSize) ∧ match r.2 with
        | some _ => (∃ op, fate op = .failed) ∧ r.1.sstables = e.sstables
        | none => ∃ n, r.1.sstables = [(n, Engine.compactedEntries now e.sstables)])
      (fun _ => True) (e.compactLocked now) d := by
  unfold Engine.compactLocked
  refine safe_bind (writeAndOpenSSTable_result e _ d) ?_
  rintro ⟨e', r⟩ d' ⟨rfl, hwal, hr⟩
  cases r with
  | error err => exact safe_ret ⟨⟨rfl, hwal, rfl, rfl⟩, hr, rfl⟩
  | ok table =>
    obtain rfl : table = _ := hr
    -- nothing can go wrong any more: the removals ignore their errors
    exact safe_bind ((removeTables_wal _ d').mono (fun _ _ h => h) fun _ _ => trivial)
      fun _ _ hd => safe_ret ⟨⟨rfl, hd.trans hwal, rfl, rfl⟩, _, rfl⟩

/-- **Whatever becomes of a flush**, it loses nothing that can still be seen, and if it fails, it
loses nothing of the memtable and the tables at all. -/
theorem maybeFlushLocked_result (e : Engine) (now : ℤ) (d : Disk) : Safe fileSystem fate
      (fun r d' => (r.1.nextSeq = e.nextSeq ∧ (d'.wal = d.wal ∨ d'.wal = [])) ∧
        (r.2 ≠ none → (∃ op, fate op = .failed) ∧ e.HeldBy r.1) ∧
        (e.HeldBy r.1 ∨ e.MergedBy now r.1))
      (fun _ => True) (e.maybeFlushLocked now) d := by
  unfold Engine.maybeFlushLocked Engine.flushLocked
  split
  · exact safe_ret ⟨⟨rfl, .inl rfl⟩, fun hne => absurd rfl hne, .inl (.inl ⟨rfl, rfl, rfl⟩)⟩
  split
  · exact safe_ret ⟨⟨rfl, .inl rfl⟩, fun hne => absurd rfl hne, .inl (.inl ⟨rfl, rfl, rfl⟩)⟩
  refine safe_bind (writeAndOpenSSTable_result e _ d) ?_
  rintro ⟨e', r⟩ d' ⟨rfl, hwal, hr⟩
  cases r with
  | error err =>
    have hheld : e.HeldBy { e with sstableSeq := e.sstableSeq + 1 } := .inl ⟨rfl, rfl, rfl⟩
    exact safe_ret ⟨⟨rfl, .inl hwal⟩, fun _ => ⟨hr, hheld⟩, .inl hheld⟩
  | ok table =>
    obtain rfl : table = _ := hr
    refine safe_bind (walReset_safe.mono (fun _ _ h => h) fun _ _ => trivial) fun ok d'' hok => ?_
    cases ok with
    | false =>
      -- the table is there, but it is not listed, and the memtable is kept
      have hheld : e.HeldBy { e with sstableSeq := e.sstableSeq + 1 } := .inl ⟨rfl, rfl, rfl⟩
      exact safe_ret ⟨⟨rfl, hwal ▸ hok.2.2⟩, fun _ => ⟨hok.2.1, hheld⟩, .inl hheld⟩
    | true =>
      dsimp only
      split
      · refine safe_bind (compactLocked_result _ now d'') ?_
        rintro ⟨e', err⟩ d₃ ⟨⟨hseq, hlog, hmem, hsize⟩, herr⟩
        have hempty := hlog.trans hok.2
        cases err with
        | none =>
          obtain ⟨n, hsst⟩ := herr
          exact safe_ret ⟨⟨hseq, .inr hempty⟩, fun hne => absurd rfl hne,
            .inr ⟨n, _, hmem, hsize, hsst⟩⟩
        | some err =>
          have hheld : e.HeldBy e' := .inr ⟨_, hmem, hsize, herr.2⟩
          exact safe_ret ⟨⟨hseq, .inr hempty⟩, fun _ => ⟨herr.1, hheld⟩, .inl hheld⟩
      · exact safe_ret ⟨⟨rfl, .inr hok.2⟩, fun hne => absurd rfl hne,
          .inl (.inr ⟨_, rfl, rfl, rfl⟩)⟩

end Stages

section Batches

variable {fate : FileOp → Fate} {e e' : Engine} {d d' : Disk} {batch : List EngineOp} {now : ℤ}
  {err : List String}

/-- **The two ways to fail.** The log could not be written and the engine is as it was, or it could
and the engine holds the batch. -/
theorem failed_batch_cases
    (hrun : (e.processBatch batch now).run fileSystem fate d = (some (e', some err), d')) :
    (LogFails fate (batch.map EngineOp.record) → e' = e) ∧
      (¬ LogFails fate (batch.map EngineOp.record) → (e.applyAll batch).HeldBy e') := by
  have hsafe : Safe fileSystem fate
      (fun r _ => r.2 ≠ none → (LogFails fate (batch.map EngineOp.record) → r.1 = e) ∧
        (¬ LogFails fate (batch.map EngineOp.record) → (e.applyAll batch).HeldBy r.1))
      (fun _ => True) (e.processBatch batch now) d := by
    unfold Engine.processBatch
    refine safe_bind (appendBatch_result _ d) fun ok d₁ hok => ?_
    cases ok with
    | false => exact safe_ret fun _ => ⟨fun _ => rfl, fun hnot => absurd (hok.mp rfl) hnot⟩
    | true =>
      refine (maybeFlushLocked_result (e.applyAll batch) now d₁).mono (fun r _ hr hne => ?_)
        fun _ h => h
      exact ⟨fun hlog => absurd (hok.mpr hlog) (by simp), fun _ => (hr.2.1 hne).2⟩
  exact hsafe.of_run_some hrun (by simp)

/-- Readers do not tell an engine from one that holds the same. -/
theorem Engine.HeldBy.view_eq (h : e.HeldBy e')
    (hstor : ∀ k x, layerOf e.memtable k = some x → x.Storable k) : e'.view = e.view := by
  rcases h with ⟨hmem, -, hsst⟩ | ⟨n, hmem, -, hsst⟩
  · rw [Engine.view, hmem, hsst]
    rfl
  · rw [Engine.view, hmem, hsst, layerOf_empty, empty_overlay, tablesLayer_concat,
      tableLayer_flushedEntries hstor]
    rfl

/-- A merged table is missing only what was dead. -/
theorem Engine.MergedBy.prunes (h : e.MergedBy now e')
    (hstor : ∀ k x, layerOf e.memtable k = some x → x.Storable k) :
    Prunes Entry.dead now e'.view e.view := by
  obtain ⟨n, m, hmem, -, hsst⟩ := h
  have hview : e'.view = live Entry.dead now e.view := by
    rw [Engine.view, hmem, hsst, layerOf_empty, empty_overlay, tablesLayer, List.map_singleton,
      stack, stack, empty_overlay, tableLayer_compactedEntries, tablesLayer_concat,
      tableLayer_flushedEntries hstor]
    rfl
  rw [hview, ← overlay_empty (live _ _ _)]
  exact (Prunes.refl now e.view).overlay_live_of_below (below_empty _)

/-- Readers who see the same keys see the same in a scan. -/
theorem Engine.scan_eq_of_get_eq {t : ℤ} (h : ∀ k, e'.get t k = e.get t k) (pfx : Key) :
    e'.scan t pfx = e.scan t pfx := by
  have hlive : live Entry.dead t e'.view = live Entry.dead t e.view := by
    funext k
    have hk := h k
    rw [Engine.get_eq, Engine.get_eq, checked_eq, checked_eq] at hk
    cases h₁ : live Entry.dead t e'.view k <;> cases h₂ : live Entry.dead t e.view k <;>
      simp_all
  refine Finmap.ext_lookup fun k => ?_
  rw [Engine.lookup_scan, Engine.lookup_scan, hlive]

theorem storable_applyAll (hstor : ∀ k x, layerOf e.memtable k = some x → x.Storable k)
    (hbatch : ∀ op ∈ batch, op.Storable) :
    ∀ k x, layerOf (e.applyAll batch).memtable k = some x → x.Storable k := by
  rw [(applyAll_spec batch e).1]
  exact storable_writes hstor hbatch

/-- **A flush that fails shows the batch**, all of it, although every caller gets the error: from
the time of the flush on, readers see what they see after a run in which nothing fails. -/
theorem failed_flush_shows_batch
    (hrun : (e.processBatch batch now).run fileSystem fate d = (some (e', some err), d'))
    (hlog : ¬ LogFails fate (batch.map EngineOp.record))
    (hstor : ∀ k x, layerOf e.memtable k = some x → x.Storable k)
    (hbatch : ∀ op ∈ batch, op.Storable) :
    ∃ e₂ d₂, (e.processBatch batch now).run fileSystem noFault d = (some (e₂, none), d₂) ∧
      ∀ t k, now ≤ t → e'.get t k = e₂.get t k := by
  have happ := storable_applyAll hstor hbatch
  have hview := ((failed_batch_cases hrun).2 hlog).view_eq happ
  -- the run without failures
  have hsafe : Safe fileSystem noFault
      (fun r _ => r.2 = none ∧ Prunes Entry.dead now r.1.view (e.applyAll batch).view)
      (fun _ => True) (e.processBatch batch now) d := by
    unfold Engine.processBatch
    refine safe_bind (appendBatch_result _ d) fun ok d₁ hok => ?_
    cases ok with
    | false => exact absurd (hok.mp rfl) (by simp [LogFails, noFault])
    | true =>
      refine (maybeFlushLocked_result (e.applyAll batch) now d₁).mono (fun r _ hr => ⟨?_, ?_⟩)
        fun _ h => h
      · by_contra hne
        obtain ⟨⟨op, hop⟩, -⟩ := hr.2.1 hne
        cases hop
      · rcases hr.2.2 with hheld | hmerged
        · rw [hheld.view_eq happ]
          exact Prunes.refl _ _
        · exact hmerged.prunes happ
  obtain ⟨⟨e₂, err₂⟩, d₂, hrun₂⟩ :
      ∃ r d₂, (e.processBatch batch now).run fileSystem noFault d = (some r, d₂) :=
    run_ends (by simp [noFault]) _ d
  obtain ⟨rfl, hprunes⟩ := hsafe.of_run_some hrun₂
  refine ⟨e₂, d₂, hrun₂, fun t k ht => ?_⟩
  rw [Engine.get_eq, Engine.get_eq, checked_eq, checked_eq, hview,
    hprunes.live_eq Entry.dead_mono ht]

/-- **The batch leaves nothing to be seen** at the time of it: of each key that it writes, the key
is not found before, and the last operation on it is a delete or has expired. -/
def Engine.Unseen (e : Engine) (batch : List EngineOp) (now : ℤ) : Prop :=
  ∀ k, ∀ op ∈ batch.reverse.find? fun op => op.key = k,
    e.get now k = .error .keyNotFound ∧ op.entry.dead now = true

/-- Readers see the last operation of the batch on a key. -/
theorem Engine.get_applyAll (e : Engine) (batch : List EngineOp) (t : ℤ) (k : Key) :
    (e.applyAll batch).get t k = match batch.reverse.find? fun op => op.key = k with
      | none => e.get t k
      | some op => checked t (some op.entry) := by
  rw [Engine.get_eq, Engine.view_applyAll, writes_eq_find, ← List.map_reverse, List.find?_map,
    Option.map_map, Engine.get_eq]
  change checked t (Option.or ((batch.reverse.find? fun op => op.key = k).map _) _) = _
  cases batch.reverse.find? fun op => op.key = k <;> rfl

theorem eq_some_of_checked {t : ℤ} {x : Option Entry} {y : Entry} (h : checked t x = .ok y) :
    x = some y := by
  cases x with
  | none => cases h
  | some x =>
    rw [checked] at h
    split_ifs at h
    rw [Except.ok.inj h]

/-- What is not found is not found later. -/
theorem checked_later {t t' : ℤ} (ht : t ≤ t') {x : Option Entry}
    (h : checked t x = .error .keyNotFound) : checked t' x = .error .keyNotFound := by
  cases x with
  | none => rfl
  | some x =>
    cases hd : x.dead t with
    | true => exact if_pos (Entry.dead_mono t t' x ht hd)
    | false => simp [checked, hd] at h

/-- A batch with numbers above those of the engine shows, unless nothing of it is to be seen. -/
theorem Engine.get_applyAll_iff {lo : ℕ} (hold : ∀ k x, e.view k = some x → x.version < lo)
    (hnew : ∀ op ∈ batch, lo ≤ op.entry.version) :
    (∀ t, now ≤ t → ∀ k, (e.applyAll batch).get t k = e.get t k) ↔ e.Unseen batch now := by
  constructor
  · intro h k op hop
    have hk := h now le_rfl k
    rw [Engine.get_applyAll, Option.mem_def.mp hop] at hk
    have hmem : op ∈ batch := List.mem_reverse.mp (List.mem_of_find?_eq_some hop)
    cases hdead : op.entry.dead now with
    | true =>
      rw [← hk]
      exact ⟨if_pos hdead, rfl⟩
    | false =>
      -- readers got this very entry before, but its version is new
      have hget : checked now (e.view k) = .ok op.entry := by
        rw [← Engine.get_eq, ← hk]
        exact if_neg (by simp [hdead])
      exact absurd (hnew op hmem) (not_le.mpr (hold k _ (eq_some_of_checked hget)))
  · intro h t ht k
    rw [Engine.get_applyAll]
    cases hlast : batch.reverse.find? fun op => op.key = k with
    | none => rfl
    | some op =>
      -- what is not to be seen now will not be seen later
      obtain ⟨hbefore, hdead⟩ := h k op hlast
      rw [Engine.get_eq] at hbefore ⊢
      rw [checked_later ht hbefore]
      exact checked_later ht (if_pos hdead)

end Batches

/-- **A write that fails leaves no trace exactly if it is the log that has failed, or the batch has
nothing to be seen.** Calls of any number are enqueued and processed as one batch, on any engine and
any disk, and get an error. If the log has failed, the counter is all that has changed, whatever the
calls are. Otherwise readers see the engine that has applied the batch; here the entries have to be
ones that a table gives back as they were, with versions below the counter. -/
theorem failed_write_traceless_iff {fate : FileOp → Fate} {e e' : Engine} {d d' : Disk} {now : ℤ}
    {err : List String} {calls : List Request}
    (hrun : ((e.enqueue calls).1.processBatch (e.enqueue calls).2 now).run fileSystem fate d
      = (some (e', some err), d')) :
    (LogFails fate ((e.enqueue calls).2.map EngineOp.record) →
      e' = { e with nextSeq := e.nextSeq + calls.length }) ∧
    ((∀ k x, e.view k = some x → x.version < e.nextSeq) →
      (∀ k x, layerOf e.memtable k = some x → x.Storable k) → (∀ r ∈ calls, r.Storable) →
      ((∀ t, now ≤ t → (∀ k, e'.get t k = e.get t k) ∧ ∀ pfx, e'.scan t pfx = e.scan t pfx) ↔
        LogFails fate ((e.enqueue calls).2.map EngineOp.record) ∨
          e.Unseen (e.enqueue calls).2 now)) := by
  obtain ⟨hlog, hflush⟩ := failed_batch_cases hrun
  rw [enqueue_engine] at hlog hflush
  refine ⟨hlog, fun hold hstor hcalls => ?_⟩
  by_cases hfails : LogFails fate ((e.enqueue calls).2.map EngineOp.record)
  · rw [hlog hfails]
    exact ⟨fun _ => .inl hfails, fun _ _ _ => ⟨fun _ => rfl, fun _ => rfl⟩⟩
  · -- the engine shows the batch, so the question is whether the batch shows
    have hops : ∀ op ∈ (e.enqueue calls).2, op.Storable ∧ e.nextSeq ≤ op.entry.version := by
      intro op hop
      obtain ⟨r, hr, seq, hseq, rfl⟩ := mem_enqueue hop
      exact ⟨Request.op_storable (hcalls r hr) seq, by cases r <;> exact hseq⟩
    have hview := (hflush hfails).view_eq (storable_applyAll hstor fun op hop => (hops op hop).1)
    have hget : ∀ t k, e'.get t k = (e.applyAll (e.enqueue calls).2).get t k := by
      intro t k
      rw [Engine.get_eq, hview, Engine.view_applyAll, Engine.get_eq, Engine.view_applyAll]
      rfl
    rw [or_iff_right hfails,
      ← Engine.get_applyAll_iff hold fun op hop => (hops op hop).2]
    refine ⟨fun h t ht k => (hget t k).symm.trans ((h t ht).1 k), fun h t ht => ?_⟩
    have hsame : ∀ k, e'.get t k = e.get t k := fun k => (hget t k).trans (h t ht k)
    exact ⟨hsame, Engine.scan_eq_of_get_eq hsame⟩

/-- Two keys are set. -/
def twoPuts : List Request :=
  [.put 0 [97] [1] [83] 0, .put 0 [98] [2] [83] 0]

/-- A new engine has nothing that could not be stored. -/
theorem storable_new (opts : Options) (k : Key) (x : Entry)
    (hx : layerOf (openEngine .empty opts).memtable k = some x) : x.Storable k :=
  nomatch hx

/-- The flush of two keys succeeds, and the compaction that follows it fails. -/
theorem failed_compaction_shows_batch : ∃ (e' e₂ : Engine) (d' d₂ : Disk) (err : List String),
    (((openEngine .empty ⟨0, 0⟩).enqueue twoPuts).1.processBatch
        ((openEngine .empty ⟨0, 0⟩).enqueue twoPuts).2 0).run fileSystem
        (failing (.rename 2)) .empty = (some (e', some err), d') ∧
      (((openEngine .empty ⟨0, 0⟩).enqueue twoPuts).1.processBatch
        ((openEngine .empty ⟨0, 0⟩).enqueue twoPuts).2 0).run fileSystem noFault .empty
          = (some (e₂, none), d₂) ∧
      ∀ t k, 0 ≤ t → e'.get t k = e₂.get t k := by
  have hrun : (((openEngine .empty ⟨0, 0⟩).enqueue twoPuts).1.processBatch
      ((openEngine .empty ⟨0, 0⟩).enqueue twoPuts).2 0).run fileSystem
      (failing (.rename 2)) .empty = (some (_, some _), _) := rfl
  obtain ⟨e₂, d₂, hdone, hget⟩ := failed_flush_shows_batch hrun (by simp [LogFails, failing])
    (fun k x hx => storable_new ⟨0, 0⟩ k x (by rwa [enqueue_engine] at hx)) fun op hop => by
      obtain ⟨r, hr, seq, -, rfl⟩ := mem_enqueue hop
      have hstor : ∀ r ∈ twoPuts, r.Storable := by decide
      exact Request.op_storable (hstor r hr) seq
  exact ⟨_, e₂, _, d₂, _, hrun, hdone, hget⟩

/-- The sync of the log fails for two calls: both records are in the log, but of the engine only the
counter has moved. -/
theorem failed_sync_traceless : ∃ (e' : Engine) (d' : Disk),
    (((openEngine .empty ⟨0, 4⟩).enqueue twoPuts).1.processBatch
        ((openEngine .empty ⟨0, 4⟩).enqueue twoPuts).2 0).run fileSystem (failing .walSync) .empty
        = (some (e', some []), d') ∧
      d'.wal.length = 2 ∧ e' = { openEngine .empty ⟨0, 4⟩ with nextSeq := 3 } ∧
      ∀ t, 0 ≤ t → ∀ k, e'.get t k = (openEngine .empty ⟨0, 4⟩).get t k := by
  have hrun : (((openEngine .empty ⟨0, 4⟩).enqueue twoPuts).1.processBatch
      ((openEngine .empty ⟨0, 4⟩).enqueue twoPuts).2 0).run fileSystem (failing .walSync) .empty
        = (some (_, some []), _) := rfl
  obtain ⟨hcounter, hiff⟩ := failed_write_traceless_iff hrun
  have hlog : LogFails (failing .walSync)
      (((openEngine .empty ⟨0, 4⟩).enqueue twoPuts).2.map EngineOp.record) :=
    ⟨by decide, .inr rfl⟩
  exact ⟨_, _, hrun, rfl, hcounter hlog, fun t ht =>
    (((hiff nofun (storable_new ⟨0, 4⟩) (by decide)).mpr (.inl hlog)) t ht).1⟩

/-- **A `Put` whose flush fails is visible.** The rename of the table fails, the caller gets the
error, and the value is there. The same goes for the rename of a compaction, which follows the flush
if the threshold is `0`. -/
theorem failed_flush_is_visible : (∃ (e' : Engine) (d' : Disk),
      ((openEngine .empty ⟨0, 4⟩).put 0 0 [97] [1] [83] 0).run fileSystem
          (failing (.rename 1)) .empty
        = (some (e', some (.failed
            ["appending to WAL", "flushing memtable", "finalizing sstable"])), d') ∧
      (openEngine .empty ⟨0, 4⟩).get 0 [97] = .error .keyNotFound ∧
      e'.get 0 [97] = .ok ⟨[1], [83], none, false, 1⟩) ∧
    ∃ (e' : Engine) (d' : Disk), ((openEngine .empty ⟨0, 0⟩).put 0 0 [97] [1] [83] 0).run fileSystem
          (failing (.rename 2)) .empty
        = (some (e', some (.failed ["appending to WAL", "compacting", "writing compacted sstable",
            "finalizing sstable"])), d') ∧
      (openEngine .empty ⟨0, 0⟩).get 0 [97] = .error .keyNotFound ∧
      e'.get 0 [97] = .ok ⟨[1], [83], none, false, 1⟩ :=
  ⟨⟨_, _, rfl, rfl, rfl⟩, _, _, rfl, rfl, rfl⟩

end Storage
end BoilerPulse
