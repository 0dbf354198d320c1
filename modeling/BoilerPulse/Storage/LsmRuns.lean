import Mathlib.Algebra.Order.SuccPred
import Mathlib.Data.Int.SuccPred
import Mathlib.Data.Nat.Cast.Order.Ring
import BoilerPulse.Framework.Runs
import BoilerPulse.Storage.LsmInvariant

/-!
# Storage: runs of the LSM engine

A `Store` is an engine with its disk. It takes batches of calls, in which every file operation
meets a fate of its own, and it is closed and opened again; a batch that is stopped is
followed by `Open` on what the disk holds at that moment. Beside the state it carries two things
nobody reads: the latest reading of the clock, and the `history` of the operations that count — all
of a batch that came to its end, and of a batch that was stopped those whose records
had reached the log.

The invariant `Store.Sound` is that engine and disk stand for the effect of the history. It holds
along every run in which calls are storable, table numbers keep to six digits, and
compactions leave no file behind (`Store.step_sound`, `Store.sound_of_runs`).
-/

namespace BoilerPulse
namespace Storage

open Framework Prog

/-- The map that operations leave, applied in their order. -/
def effect (ops : List EngineOp) : Layer Key Entry :=
  writes (fun _ => none) (ops.map EngineOp.write)

theorem effect_append (ops ops' : List EngineOp) :
    effect (ops ++ ops') = writes (effect ops) (ops'.map EngineOp.write) := by
  rw [effect, List.map_append, writes_append]
  rfl

structure Store where
  engine : Engine
  disk : Disk
  clock : ℤ
  history : List EngineOp

/-- A store on a new directory. -/
def Store.new (opts : Options) (clock : ℤ) : Store :=
  ⟨openEngine .empty opts, .empty, clock, []⟩

inductive Store.Action where
  /-- A batch of calls. `now` is the reading of the clock by a compaction, and `opts` the options
  of the `Open` that follows if the process is stopped. -/
  | batch (reqs : List Request) (now : ℤ) (fate : FileOp → Fate) (opts : Options)
  /-- `Close` and `Open`, or a crash between two batches. -/
  | reopen (opts : Options)

/-- Open the disk again. -/
def Store.reopened (s : Store) (opts : Options) : Store :=
  { s with engine := openEngine s.disk.cleanup opts, disk := s.disk.cleanup }

/-- The operations that a batch enqueues. -/
def Store.enqueued (s : Store) (reqs : List Request) : List EngineOp :=
  (s.engine.enqueue reqs).2

/-- One action; the clock does not go backwards. -/
def Store.step (s : Store) : Store.Action → Option Store
  | .batch reqs now fate opts =>
    if now < s.clock then none
    else
      let e := (s.engine.enqueue reqs).1
      let ops := s.enqueued reqs
      match (e.processBatch ops now).run fileSystem fate s.disk with
      | (some (e', _), d') => some ⟨e', d', now, s.history ++ ops⟩
      | (none, d') => some (Store.reopened ⟨e, d', now, s.history ++ written fate ops⟩ opts)
  | .reopen opts => some (s.reopened opts)

/-! ### What a run must keep to -/

/-- Table numbers of at most six digits. -/
def Store.SixDigits (s : Store) : Prop :=
  ∀ st ∈ s.disk.tables, st.1 < 10 ^ 6

/-- The batch makes the engine flush, and the flush makes it compact. -/
def Store.Compacts (s : Store) (reqs : List Request) : Prop :=
  s.engine.opts.memtableFlushThresholdBytes
      ≤ ((s.engine.enqueue reqs).1.applyAll (s.enqueued reqs)).memtableSize ∧
    s.engine.opts.compactionThreshold < s.engine.sstables.length + 1

/-- Compactions do not start while there is a table file that the engine does not list. -/
def Store.Listed (s : Store) : Store.Action → Prop
  | .batch reqs _ _ _ => s.Compacts reqs → s.engine.sstables = s.disk.tables
  | .reopen _ => True

/-- Calls are storable, and nothing fails but operations of flush, reset and compaction that are
not the removal of an old table. -/
def Store.Action.Tolerable : Store.Action → Prop
  | .batch reqs _ fate _ =>
    (∀ r ∈ reqs, r.Storable) ∧ (∀ r, fate (.walWrite r) ≠ .failed) ∧ fate .walSync ≠ .failed ∧
      ∀ n, fate (.remove n) ≠ .failed
  | .reopen _ => True

/-- Calls are within the length fields of the files. -/
def Store.Action.Fits : Store.Action → Prop
  | .batch reqs _ _ _ => ∀ r ∈ reqs, r.Fits
  | .reopen _ => True

instance Store.Action.Fits.decidable : (a : Store.Action) → Decidable a.Fits
  | .batch reqs _ _ _ => inferInstanceAs (Decidable (∀ r ∈ reqs, r.Fits))
  | .reopen _ => inferInstanceAs (Decidable True)

/-- Calls are storable, and nothing fails at all. -/
def Store.Action.Unfailing : Store.Action → Prop
  | .batch reqs _ fate _ => (∀ r ∈ reqs, r.Storable) ∧ ∀ op, fate op ≠ .failed
  | .reopen _ => True

/-- File operations may fail, but no compaction leaves a table file behind. -/
def Store.Careful (s : Store) (a : Store.Action) : Prop :=
  a.Tolerable ∧ s.SixDigits ∧ s.Listed a

/-- The process may stop anywhere, but no file operation reports a failure. -/
def Store.CrashOnly (s : Store) (a : Store.Action) : Prop :=
  a.Unfailing ∧ s.SixDigits

instance Store.SixDigits.decidable (s : Store) : Decidable s.SixDigits :=
  inferInstanceAs (Decidable (∀ st ∈ s.disk.tables, st.1 < 10 ^ 6))

instance Store.Compacts.decidable (s : Store) (reqs : List Request) : Decidable (s.Compacts reqs) :=
  inferInstanceAs (Decidable (_ ∧ _))

instance Store.Listed.decidable (s : Store) : (a : Store.Action) → Decidable (s.Listed a)
  | .batch reqs _ _ _ =>
    inferInstanceAs (Decidable (s.Compacts reqs → s.engine.sstables = s.disk.tables))
  | .reopen _ => inferInstanceAs (Decidable True)

/-! ### The invariant along a run -/

/-- Engine and disk stand for the effect of the history. If `strict`, the engine lists every table
file. -/
def Store.Sound (strict : Prop) (s : Store) : Prop :=
  Rep strict s.clock (effect s.history) s.engine s.disk

theorem sound_new (strict : Prop) (opts : Options) (clock : ℤ) :
    (Store.new opts clock).Sound strict where
  running := Prunes.refl _ _
  view := Prunes.refl _ _
  replay := Below.refl _
  storable := nofun
  fits := ⟨nofun, nofun⟩
  ordered := List.Pairwise.nil
  numbered := nofun
  listed _ := rfl

/-- What a batch can do. -/
theorem Store.step_batch {s s' : Store} {reqs : List Request} {now : ℤ} {fate : FileOp → Fate}
    {opts : Options} (h : s.step (.batch reqs now fate opts) = some s') :
    s.clock ≤ now ∧
      ((∃ e' err d', ((s.engine.enqueue reqs).1.processBatch (s.enqueued reqs) now).run fileSystem
            fate s.disk = (some (e', err), d') ∧
          s' = ⟨e', d', now, s.history ++ s.enqueued reqs⟩) ∨
        ∃ d', ((s.engine.enqueue reqs).1.processBatch (s.enqueued reqs) now).run fileSystem
            fate s.disk = (none, d') ∧
          s' = Store.reopened ⟨(s.engine.enqueue reqs).1, d', now,
            s.history ++ written fate (s.enqueued reqs)⟩ opts) := by
  unfold Store.step at h
  simp only at h
  split at h
  · cases h
  · next hnow =>
    refine ⟨not_lt.mp hnow, ?_⟩
    split at h
    · next e' err d' hrun => exact .inl ⟨e', err, d', hrun, (Option.some.inj h).symm⟩
    · next d' hrun => exact .inr ⟨d', hrun, (Option.some.inj h).symm⟩

/-- Opening the disk again makes the engine list every file. -/
theorem Store.reopened_sound {strict : Prop} {s : Store} {bound : ℕ}
    (hr : Recoverable s.clock (effect s.history) bound s.disk) (hsix : s.SixDigits)
    (opts : Options) : (s.reopened opts).Sound strict :=
  (openEngine_rep (hr.congr rfl rfl : Recoverable _ _ bound s.disk.cleanup) hsix opts).weaken

section StepSound

variable {strict : Prop} {s s' : Store}

theorem Store.batch_sound {reqs : List Request} {now : ℤ} {fate : FileOp → Fate} {opts : Options}
    (hs : s.Sound strict) (hreqs : ∀ r ∈ reqs, r.Storable)
    (hwrite : ∀ r, fate (.walWrite r) ≠ .failed) (hsync : fate .walSync ≠ .failed)
    (hrem : ∀ n, fate (.remove n) ≠ .failed)
    (hcompact : s.Compacts reqs → s.engine.sstables = s.disk.tables)
    (hstrict : strict → ∀ op, fate op ≠ .failed)
    (hstep : s.step (.batch reqs now fate opts) = some s') (hsix : s'.SixDigits) :
    s'.Sound strict := by
  obtain ⟨hnow, hcases⟩ := Store.step_batch hstep
  have hops : ∀ op ∈ s.enqueued reqs, op.Faithful ∧ op.Storable := by
    intro op hop
    obtain ⟨r, hr, seq, -, rfl⟩ := mem_enqueue hop
    exact ⟨Request.op_faithful (hreqs r hr).1 seq, Request.op_storable (hreqs r hr) seq⟩
  have heng := enqueue_engine reqs s.engine
  have hrep : Rep strict now (effect s.history) (s.engine.enqueue reqs).1 s.disk := by
    rw [heng]
    exact (hs.mono hnow).renumber _
  have hsafe : Safe fileSystem fate _ _ _ s.disk := processBatch_safe hrep
    (fun op hop => (hops op hop).1) (fun op hop => (hops op hop).2) hwrite hsync
    (by
      have hsame := hcompact
      unfold Store.Compacts at hsame
      rw [heng] at hsame ⊢
      exact fun hflush hthr => hsame ⟨hflush, hthr⟩) hstrict hrem
  rcases hcases with ⟨e', err, d', hrun, rfl⟩ | ⟨d', hrun, rfl⟩
  · -- the batch came to its end
    have hend := (hsafe.of_run_some hrun).1
    rw [← effect_append] at hend
    exact hend
  · -- the process was stopped
    have hstop := hsafe.of_run_none hrun
    rw [← effect_append] at hstop
    exact Store.reopened_sound (s := ⟨_, d', now, _⟩) hstop hsix opts

theorem Store.reopen_sound {opts : Options} (hs : s.Sound strict) (hsix : s.SixDigits)
    (hstep : s.step (.reopen opts) = some s') : s'.Sound strict := by
  cases hstep
  exact Store.reopened_sound hs.recoverable hsix opts

/-- A careful action keeps the invariant. -/
theorem Store.step_sound {a : Store.Action} (hs : s.Sound False) (hok : s.Careful a)
    (hstep : s.step a = some s') (hsix : s'.SixDigits) : s'.Sound False := by
  have hsix₀ := hok.2.1
  cases a with
  | batch reqs now fate opts =>
    obtain ⟨⟨hreqs, hwrite, hsync, hrem⟩, -, hcompact⟩ := hok
    exact Store.batch_sound hs hreqs hwrite hsync hrem hcompact (fun hf => hf.elim) hstep hsix
  | reopen opts => exact Store.reopen_sound hs hsix₀ hstep

/-- If nothing fails, the engine lists every table file all along. -/
theorem Store.step_sound_strict {a : Store.Action} (hs : s.Sound True) (hok : s.CrashOnly a)
    (hstep : s.step a = some s') (hsix : s'.SixDigits) : s'.Sound True := by
  have hsix₀ := hok.2
  cases a with
  | batch reqs now fate opts =>
    obtain ⟨⟨hreqs, hfate⟩, -⟩ := hok
    exact Store.batch_sound hs hreqs (fun r => hfate _) (hfate _) (fun n => hfate _)
      (fun _ => hs.listed trivial) (fun _ => hfate) hstep hsix
  | reopen opts => exact Store.reopen_sound hs hsix₀ hstep

theorem Store.sound_of_runs (h : Runs Store.step Store.Careful s s') (hs : s.Sound False) :
    s'.SixDigits → s'.Sound False :=
  Runs.invariant (fun _ _ _ (ih : Store.SixDigits _ → Store.Sound False _) hok hstep hsix =>
    Store.step_sound (ih hok.2.1) hok hstep hsix) h fun _ => hs

theorem Store.sound_of_runs_strict (h : Runs Store.step Store.CrashOnly s s') (hs : s.Sound True) :
    s'.SixDigits → s'.Sound True :=
  Runs.invariant (fun _ _ _ (ih : Store.SixDigits _ → Store.Sound True _) hok hstep hsix =>
    Store.step_sound_strict (ih hok.2) hok hstep hsix) h fun _ => hs

end StepSound

/-! ### What readers see -/

section Readers

variable {strict : Prop} {now t : ℤ} {h : Layer Key Entry} {e : Engine} {d : Disk}

theorem Rep.get_eq (hr : Rep strict now h e d) (ht : now ≤ t) (k : Key) :
    e.get t k = checked t (h k) := by
  rw [Engine.get_eq, checked_eq, checked_eq, hr.running.live_eq Entry.dead_mono ht]

theorem Rep.lookup_scan (hr : Rep strict now h e d) (ht : now ≤ t) (pfx k : Key) :
    (e.scan t pfx).lookup k = under pfx (live Entry.dead t h) k := by
  rw [Engine.lookup_scan, hr.running.live_eq Entry.dead_mono ht]

end Readers

theorem written_prefix (fate : FileOp → Fate) (batch : List EngineOp) :
    written fate batch <+: batch :=
  List.takeWhile_prefix _

/-- A batch adds all its operations to the history, or those it had logged when it was stopped. -/
theorem Store.history_of_batch {s s' : Store} {reqs : List Request} {now : ℤ} {fate : FileOp → Fate}
    {opts : Options} (h : s.step (.batch reqs now fate opts) = some s') :
    ∃ ops, ops <+: s.enqueued reqs ∧ s'.history = s.history ++ ops ∧
      ((∀ op, fate op ≠ .stopped) → ops = s.enqueued reqs) := by
  obtain ⟨-, ⟨e', err, d', -, rfl⟩ | ⟨d', hrun, rfl⟩⟩ := Store.step_batch h
  · exact ⟨s.enqueued reqs, List.prefix_refl _, rfl, fun _ => rfl⟩
  · refine ⟨written fate (s.enqueued reqs), written_prefix _ _, rfl, fun hfate => ?_⟩
    obtain ⟨a, d'', hend⟩ := run_ends hfate
      ((s.engine.enqueue reqs).1.processBatch (s.enqueued reqs) now) s.disk
    rw [hrun] at hend
    exact absurd (Prod.mk.inj hend).1 (by simp)

/-! ### Crashes -/

/-- **Crash consistency.** Whatever the batches, the options and the points where the process is
stopped, what readers see is the effect of the history: of every batch that came to its
end, and of a prefix of each one that did not. -/
theorem Store.crash_consistent {opts : Options} {clock t : ℤ} {s : Store}
    (hrun : Runs Store.step Store.CrashOnly (Store.new opts clock) s) (hsix : s.SixDigits)
    (ht : s.clock ≤ t) :
    (∀ k, s.engine.get t k = checked t (effect s.history k)) ∧
      (∀ pfx k, (s.engine.scan t pfx).lookup k
        = under pfx (live Entry.dead t (effect s.history)) k) ∧
      ∀ reqs now fate opts' s', s.step (.batch reqs now fate opts') = some s' →
        ∃ ops, ops <+: s.enqueued reqs ∧ s'.history = s.history ++ ops ∧
          ((∀ op, fate op ≠ .stopped) → ops = s.enqueued reqs) := by
  have hs := Store.sound_of_runs_strict hrun (sound_new True opts clock) hsix
  exact ⟨fun k => hs.get_eq ht k, fun pfx k => hs.lookup_scan ht pfx k,
    fun reqs now fate opts' s' h => Store.history_of_batch h⟩

/-- Every operation is done. -/
def noFault : FileOp → Fate :=
  fun _ => .done

/-- One operation fails. -/
def failing (op : FileOp) : FileOp → Fate :=
  fun op' => if op' = op then .failed else .done

/-- The process is stopped before one operation. -/
def stopping (op : FileOp) : FileOp → Fate :=
  fun op' => if op' = op then .stopped else .done

/-- A list of actions that can be executed with six-digit numbers is a run. -/
theorem Store.runs_crashOnly {s s' : Store} {acts : List Store.Action}
    (hacts : ∀ a ∈ acts, a.Unfailing)
    (h : exec (guarded Store.step fun s _ => s.SixDigits) s acts = some s') :
    Runs Store.step Store.CrashOnly s s' :=
  Runs.of_guarded (Runs.of_exec_all (fun a ha _ => hacts a ha) h)

/-- A put and a delete, with a flush for each: the compaction after the second is stopped when the
first of the old tables is gone. -/
theorem Store.crash_consistent_in_compaction : ∃ s : Store,
    Runs Store.step Store.CrashOnly (Store.new ⟨0, 1⟩ 0) s ∧
      s.disk.tables.map (fun st => st.1) = [2, 3] ∧ s.history.length = 2 ∧
      ∀ k, s.engine.get 7 k = checked 7 (effect s.history k) := by
  obtain ⟨s, hs, hobs⟩ := Option.map_eq_some_iff.mp (show
    (exec (guarded Store.step fun s _ => s.SixDigits) (Store.new ⟨0, 1⟩ 0)
      [.batch [.put 0 [97] [1] [] 5] 0 noFault ⟨0, 1⟩,
        .batch [.delete 3 [97]] 6 (stopping (.remove 2)) ⟨0, 1⟩]).map
      (fun s => (s.disk.tables.map fun st => st.1, s.history.length, s.clock,
        decide s.SixDigits)) = some ([2, 3], 2, 6, true) by decide +kernel)
  simp only [Prod.mk.injEq, decide_eq_true_eq] at hobs
  obtain ⟨htables, hlen, hclock, hsix⟩ := hobs
  have hrun := Store.runs_crashOnly (by
    intro a ha
    rcases List.mem_cons.mp ha with rfl | ha
    · exact ⟨by decide, fun op => by simp [noFault]⟩
    · obtain rfl := List.mem_singleton.mp ha
      exact ⟨by decide, fun op => by unfold stopping; split <;> simp⟩) hs
  exact ⟨s, hrun, htables, hlen, (Store.crash_consistent hrun hsix (by omega)).1⟩

/-! ### Table numbers of seven digits -/

/-- A table with one value of one key. -/
def singleTable (n : ℕ) (value : UInt8) (version : ℕ) : ℕ × Table :=
  (n, [⟨[97], [value], [], 0, false, version⟩])

/-- A store with everything in its tables. -/
def Store.settled (opts : Options) (tables : List (ℕ × Table)) (seq next : ℕ)
    (history : List EngineOp) : Store :=
  ⟨⟨opts, ∅, 0, tables, seq, next⟩, ⟨[], tables, []⟩, 0, history⟩

/-- A batch that puts one value of that key. -/
def Store.putOne (value : UInt8) (opts : Options) : Store.Action :=
  .batch [.put 0 [97] [value] [] 0] 0 noFault opts

theorem flushedEntries_singleton (value : UInt8) (version : ℕ) :
    Engine.flushedEntries (AList.singleton [97] ⟨[value], [], expiryOf 0 0, false, version⟩)
      = [⟨[97], [value], [], 0, false, version⟩] := rfl

/-- With both thresholds at `0`, every put leaves one table and uses two numbers. -/
theorem Store.step_putOne (m n version : ℕ) (history : List EngineOp) :
    (Store.settled ⟨0, 0⟩ [singleTable m 1 version] m n history).step (Store.putOne 1 ⟨0, 0⟩)
      = some (Store.settled ⟨0, 0⟩ [singleTable (m + 2) 1 n] (m + 2) (n + 1)
          (history ++ [Request.op n (.put 0 [97] [1] [] 0)])) := by
  have hmerged : Engine.compactedEntries 0
      [(m, [⟨[97], [1], [], 0, false, version⟩]), (m + 1, [⟨[97], [1], [], 0, false, n⟩])]
        = [⟨[97], [1], [], 0, false, n⟩] := rfl
  have hne : ¬m + 1 + 1 = m := by omega
  simp [Store.settled, Store.putOne, singleTable, noFault, Store.step, Store.enqueued,
    Engine.enqueue, Request.op, Engine.processBatch, appendBatch, writeRecords, run_bind, run,
    fileSystem, Engine.applyAll, Engine.applyToMemtable, entrySize, Engine.maybeFlushLocked,
    Engine.flushLocked, flushedEntries_singleton, Engine.writeAndOpenSSTable, placeTable, walReset,
    Engine.compactLocked, hmerged, Engine.removeTables, hne]

/-- The number of a seven-digit name is not read: numbering starts over. -/
theorem Store.reopen_seven_digits (version seq next : ℕ) (history : List EngineOp) :
    (Store.settled ⟨0, 0⟩ [singleTable 1000000 1 version] seq next history).step (.reopen ⟨0, 10⟩)
      = some (Store.settled ⟨0, 10⟩ [singleTable 1000000 1 version] 0 (version + 1) history) := by
  have hscan : scanSeq (sstableFileName 1000000) = none := by decide +kernel
  simp [Store.settled, singleTable, Store.step, Store.reopened, openEngine, sortedTables, maxSeq,
    raiseSeq, hscan, maxVersion, Disk.cleanup]

/-- With the compaction threshold at `10`, a put adds one table as long as there are few. -/
theorem Store.step_putMore {tables : List (ℕ × Table)} {seq : ℕ} (hlen : tables.length < 10)
    (hseq : ∀ st ∈ tables, st.1 ≠ seq + 1) (value : UInt8) (next : ℕ) (history : List EngineOp) :
    (Store.settled ⟨0, 10⟩ tables seq next history).step (Store.putOne value ⟨0, 10⟩)
      = some (Store.settled ⟨0, 10⟩ (tables ++ [singleTable (seq + 1) value next]) (seq + 1)
          (next + 1) (history ++ [Request.op next (.put 0 [97] [value] [] 0)])) := by
  have hplace : ∀ t, placeTable tables (seq + 1) t = tables ++ [(seq + 1, t)] := by
    intro t
    rw [placeTable, List.filter_eq_self.mpr fun st hst => by simpa using hseq st hst]
  have htmp : ∀ n t, placeTable [] n t = [(n, t)] := fun _ _ => rfl
  have hfind : ∀ t, (tables ++ [(seq + 1, t)]).find? (fun st => st.1 = seq + 1)
      = some (seq + 1, t) := by
    intro t
    rw [← hplace]
    exact find_placeTable tables (seq + 1) t
  have hfew : ¬ 10 ≤ tables.length := hlen.not_ge
  simp [Store.settled, Store.putOne, singleTable, noFault, Store.step, Store.enqueued,
    Engine.enqueue, Request.op, Engine.processBatch, appendBatch, writeRecords, run_bind, run,
    fileSystem, Engine.applyAll, Engine.applyToMemtable, entrySize, Engine.maybeFlushLocked,
    Engine.flushLocked, flushedEntries_singleton, Engine.writeAndOpenSSTable, htmp, hplace, hfind,
    walReset, hfew, -List.find?_append]

/-- As a string the seven-digit name comes last, so its table counts as the newest. -/
theorem Store.get_seven_digits (version version' seq next : ℕ) (history : List EngineOp) :
    ((Store.settled ⟨0, 10⟩ [singleTable 1000000 1 version, singleTable 1 2 version'] seq next
      history).reopened ⟨0, 10⟩).engine.get 0 [97] = .ok ⟨[1], [], none, false, version⟩ := by
  have hname : ¬sstableFileName 1000000 ≤ sstableFileName 1 := by decide +kernel
  simp [Store.settled, singleTable, Store.reopened, openEngine, sortedTables, hname, Disk.cleanup,
    Engine.get, Engine.lookupLocked, tableGet, checked, toStorageEntry, Entry.dead, Entry.expired,
    ofUnixNano]

theorem Store.unfailing_putOne (value : UInt8) (opts : Options) :
    (Store.putOne value opts).Unfailing :=
  ⟨fun r hr => by
    obtain rfl := List.mem_singleton.mp hr
    exact ⟨nofun, by simp [Request.Fits, LengthsFit]⟩, fun op => by simp [noFault]⟩

/-- Putting a value again and again brings up any even table number. -/
theorem Store.reaches_settled {ok : Store → Store.Action → Prop}
    (hok : ∀ s, ok s (Store.putOne 1 ⟨0, 0⟩)) (j : ℕ) : ∃ history,
    Runs Store.step ok (Store.new ⟨0, 0⟩ 0)
      (Store.settled ⟨0, 0⟩ [singleTable (2 * j + 2) 1 (j + 1)] (2 * j + 2) (j + 2) history) := by
  induction j with
  | zero => exact ⟨[Request.op 1 (.put 0 [97] [1] [] 0)], Runs.single (hok _) rfl⟩
  | succ j ih =>
    obtain ⟨history, hrun⟩ := ih
    exact ⟨_, Runs.tail _ hrun (hok _) (Store.step_putOne _ _ _ _)⟩

theorem effect_snoc_self (ops : List EngineOp) (op : EngineOp) :
    effect (ops ++ [op]) op.key = some op.entry := by
  simp [effect_append, writes, EngineOp.write]

/-- Table `1000000` is there when the store is opened, and the next put gets table `1`. -/
theorem Store.reaches_seven_digits : ∃ history,
    Runs Store.step (fun _ a => a.Unfailing) (Store.new ⟨0, 0⟩ 0)
      ((Store.settled ⟨0, 10⟩ [singleTable 1000000 1 500000, singleTable 1 2 500001] 1 500002
        (history ++ [Request.op 500001 (.put 0 [97] [2] [] 0)])).reopened ⟨0, 10⟩) := by
  obtain ⟨history, hrun⟩ := Store.reaches_settled (fun _ => Store.unfailing_putOne 1 ⟨0, 0⟩) 499999
  have hopen : (Store.Action.reopen ⟨0, 10⟩).Unfailing := trivial
  have hrun₁ := hrun.tail _ hopen (Store.reopen_seven_digits _ _ _ _)
  have hrun₂ := hrun₁.tail _ (Store.unfailing_putOne 2 ⟨0, 10⟩)
    (Store.step_putMore (by decide) (by simp [singleTable]) 2 _ _)
  exact ⟨history, hrun₂.tail _ hopen rfl⟩

/-- An expiry at instant `0` is read back as none, and table number `1000000` brings an overwritten
value back: in both runs nothing fails, and the engine is opened again between batches only. -/
theorem Store.crash_inconsistent :
    (∃ s : Store, Reaches Store.step (Store.new ⟨1000, 4⟩ (-1)) s ∧ s.clock ≤ 5 ∧
      s.engine.get 5 [97] = .ok ⟨[1], [], none, false, 1⟩ ∧
      checked 5 (effect s.history [97]) = .error .keyNotFound) ∧
    ∃ s : Store, Runs Store.step (fun _ a => a.Unfailing) (Store.new ⟨0, 0⟩ 0) s ∧ s.clock ≤ 0 ∧
      s.engine.get 0 [97] = .ok ⟨[1], [], none, false, 500000⟩ ∧
      checked 0 (effect s.history [97]) = .ok ⟨[2], [], none, false, 500001⟩ := by
  refine ⟨?_, ?_⟩
  · exact ⟨_, Reaches.of_exec (show exec Store.step _
        [.batch [.put (-1) [97] [1] [] 1] (-1) noFault ⟨1000, 4⟩, .reopen ⟨1000, 4⟩]
      = some _ from rfl),
      by decide, rfl, rfl⟩
  · obtain ⟨history, hrun⟩ := Store.reaches_seven_digits
    refine ⟨_, hrun, le_refl _, Store.get_seven_digits _ _ _ _ _, ?_⟩
    have heffect := effect_snoc_self history (Request.op 500001 (.put 0 [97] [2] [] 0))
    exact (congrArg (checked 0) heffect).trans rfl

/-! ### Failures -/

/-- **The disk means what the engine means**, in every state of a run whose compactions leave no
table file behind. -/
theorem Store.reopened_same {opts : Options} {clock t : ℤ} {s : Store}
    (hrun : Runs Store.step Store.Careful (Store.new opts clock) s) (hsix : s.SixDigits)
    (ht : s.clock ≤ t) (opts' : Options) :
    (∀ k, (s.reopened opts').engine.get t k = s.engine.get t k) ∧
      ∀ pfx, (s.reopened opts').engine.scan t pfx = s.engine.scan t pfx := by
  have hs := Store.sound_of_runs hrun (sound_new False opts clock) hsix
  have hopen : (s.reopened opts').Sound False := Store.reopened_sound hs.recoverable hsix opts'
  refine ⟨fun k => ?_, fun pfx => Finmap.ext_lookup fun k => ?_⟩
  · rw [hs.get_eq ht, Rep.get_eq hopen ht]
    rfl
  · rw [hs.lookup_scan ht, Rep.lookup_scan hopen ht]
    rfl

/-- A list of actions that can be executed with care is a run. -/
theorem Store.runs_careful {s s' : Store} {acts : List Store.Action}
    (hacts : ∀ a ∈ acts, a.Tolerable)
    (h : exec (guarded Store.step fun s a => s.SixDigits ∧ s.Listed a) s acts = some s') :
    Runs Store.step Store.Careful s s' :=
  Runs.of_guarded (Runs.of_exec_all (fun a ha _ => hacts a ha) h)

theorem tolerable_failing {reqs : List Request} {now : ℤ} {opts : Options} {op : FileOp}
    (hreqs : ∀ r ∈ reqs, r.Storable) (hwrite : ∀ r, FileOp.walWrite r ≠ op)
    (hsync : FileOp.walSync ≠ op) (hrem : ∀ n, FileOp.remove n ≠ op) :
    (Store.Action.batch reqs now (failing op) opts).Tolerable := by
  refine ⟨hreqs, fun r => ?_, ?_, fun n => ?_⟩
  · simp [failing, hwrite r]
  · simp [failing, hsync]
  · simp [failing, hrem n]

/-- The rename of the first flush fails; the value is deleted, and the delete is
compacted away. -/
theorem Store.reopened_same_after_failed_rename : ∃ s : Store,
    Runs Store.step Store.Careful (Store.new ⟨0, 1⟩ 0) s ∧
      s.engine.sstables.map (fun st => st.1) = [4] ∧
      ∀ k, (s.reopened ⟨0, 1⟩).engine.get 0 k = s.engine.get 0 k := by
  obtain ⟨s, hs, hobs⟩ := Option.map_eq_some_iff.mp (show
    (exec (guarded Store.step fun s a => s.SixDigits ∧ s.Listed a) (Store.new ⟨0, 1⟩ 0)
      [.batch [.put 0 [97] [1] [] 0] 0 (failing (.rename 1)) ⟨0, 1⟩,
        .batch [.delete 0 [97]] 0 (failing (.rename 1)) ⟨0, 1⟩,
        .batch [.put 0 [98] [2] [] 0] 0 (failing (.rename 1)) ⟨0, 1⟩]).map
      (fun s => (s.engine.sstables.map fun st => st.1, s.clock, decide s.SixDigits))
        = some ([4], 0, true) by decide +kernel)
  simp only [Prod.mk.injEq, decide_eq_true_eq] at hobs
  obtain ⟨htables, hclock, hsix⟩ := hobs
  have hrun := Store.runs_careful (by
    simp only [List.forall_mem_cons, List.not_mem_nil, false_implies, implies_true, and_true]
    refine ⟨?_, ?_, ?_⟩ <;>
      exact tolerable_failing (by decide) (by simp) (by simp) (by simp)) hs
  exact ⟨s, hrun, htables, (Store.reopened_same hrun hsix (by omega) ⟨0, 1⟩).1⟩

/-- A sync of the directory that fails, or a removal that does, leaves a table file that the engine
does not know. The tombstone over it is compacted away, and `Open` finds the value. -/
theorem Store.reopened_differs : (∃ s : Store, Reaches Store.step (Store.new ⟨0, 1⟩ 0) s ∧
      s.engine.get 0 [97] = .error .keyNotFound ∧
      (s.reopened ⟨0, 1⟩).engine.get 0 [97] = .ok ⟨[1], [], none, false, 1⟩) ∧
    ∃ s : Store, Reaches Store.step (Store.new ⟨0, 1⟩ 0) s ∧
      s.engine.get 0 [97] = .error .keyNotFound ∧
      (s.reopened ⟨0, 1⟩).engine.get 0 [97] = .ok ⟨[1], [], none, false, 1⟩ := by
  refine ⟨?_, ?_⟩
  · exact ⟨_, Reaches.of_exec (show exec Store.step _
      [.batch [.put 0 [97] [1] [] 0] 0 (failing (.syncDir 1)) ⟨0, 1⟩,
        .batch [.delete 0 [97]] 0 noFault ⟨0, 1⟩,
        .batch [.put 0 [98] [2] [] 0] 0 noFault ⟨0, 1⟩] = some _ from rfl), rfl, rfl⟩
  · exact ⟨_, Reaches.of_exec (show exec Store.step _
      [.batch [.put 0 [97] [1] [] 0] 0 noFault ⟨0, 1⟩,
        .batch [.delete 0 [97]] 0 (failing (.remove 1)) ⟨0, 1⟩] = some _ from rfl), rfl, rfl⟩

end Storage
end BoilerPulse
