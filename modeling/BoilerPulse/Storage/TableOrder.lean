import BoilerPulse.Storage.LsmRuns

/-!
# Storage: the order of the tables after `Open`

There is no manifest: `loadSSTables` takes the age of a table from the order of the file names and
the number to go on with from the names themselves. `Disk.Reopens` says that this works out: the
tables come in the order in which they were written, the number is the highest one, and the next
table gets a name that is not in use. On a disk whose tables are numbered in the order in which
they were written, it works out exactly when no number has more than six digits
(`Disk.reopens_iff`).

The tables are numbered in that order along every run, whatever fails and wherever the process is
stopped, as long as they had at most six digits whenever the store was opened
(`Store.ascends_of_runs`): a table that is written gets a number above all others, and nothing
but a rename puts a table into the directory.
-/

namespace BoilerPulse
namespace Storage

open Framework Prog

/-! ### The highest number -/

/-- A seven-digit number is never the highest. -/
theorem maxSeq_lt (ts : List (ℕ × Table)) : maxSeq ts < 10 ^ 6 := by
  have hfold : ∀ (ts : List (ℕ × Table)) (m : ℕ), m < 10 ^ 6 → ts.foldl raiseSeq m < 10 ^ 6 := by
    intro ts
    induction ts with
    | nil => exact fun m hm => hm
    | cons st ts ih =>
      intro m hm
      refine ih _ ?_
      rw [raiseSeq_eq]
      split_ifs with h
      · exact max_lt hm h
      · exact hm
  exact hfold ts 0 (by decide)

/-! ### What `Open` finds -/

/-- `loadSSTables` gets order and number right: the tables come as they were written, and the next
table gets a name of its own. -/
structure Disk.Reopens (d : Disk) : Prop where
  order : sortedTables d = d.tables
  highest : maxSeq (sortedTables d) = (d.tables.map Prod.fst).foldl max 0
  fresh : ∀ st ∈ d.tables, sstableFileName st.1 ≠ sstableFileName (maxSeq (sortedTables d) + 1)

theorem Disk.reopens_iff {d : Disk} (hord : d.tables.Pairwise fun a b => a.1 < b.1) :
    d.Reopens ↔ ∀ st ∈ d.tables, st.1 < 10 ^ 6 := by
  constructor
  · intro h st hst
    calc st.1 ≤ (d.tables.map Prod.fst).foldl max 0 :=
          (le_foldl_max_iff _).mpr (.inr ⟨st.1, List.mem_map_of_mem hst, le_rfl⟩)
      _ = maxSeq (sortedTables d) := h.highest.symm
      _ < 10 ^ 6 := maxSeq_lt _
  · intro hsix
    have hsorted := sortedTables_eq hord hsix
    have hmax := maxSeq_eq hsix
    refine ⟨hsorted, hsorted ▸ hmax, fun st hst hname => ?_⟩
    have hle : st.1 ≤ maxSeq d.tables := by
      rw [hmax]
      exact (le_foldl_max_iff _).mpr (.inr ⟨st.1, List.mem_map_of_mem hst, le_rfl⟩)
    have heq := sstableFileName_injective hname
    rw [hsorted] at heq
    omega

/-! ### Numbers in the order of writing -/

/-- The tables are numbered in the order in which they were written, up to `n`. -/
structure Disk.Ascends (n : ℕ) (d : Disk) : Prop where
  ordered : d.tables.Pairwise fun a b => a.1 < b.1
  numbered : ∀ st ∈ d.tables, st.1 ≤ n

namespace Disk.Ascends

variable {m n : ℕ} {d d' : Disk}

theorem mono (h : d.Ascends m) (hle : m ≤ n) : d.Ascends n :=
  ⟨h.ordered, fun st hst => (h.numbered st hst).trans hle⟩

theorem sublist (h : d.Ascends n) (hsub : d'.tables.Sublist d.tables) : d'.Ascends n :=
  ⟨h.ordered.sublist hsub, fun st hst => h.numbered st (hsub.subset hst)⟩

theorem add (h : d.Ascends n) {t : Table} (htab : d'.tables = d.tables ++ [(n + 1, t)]) :
    d'.Ascends (n + 1) := by
  refine ⟨?_, ?_⟩
  · rw [htab, List.pairwise_append]
    refine ⟨h.ordered, List.pairwise_singleton _ _, fun a ha b hb => ?_⟩
    rw [List.mem_singleton.mp hb]
    exact Nat.lt_succ_of_le (h.numbered a ha)
  · rw [htab]
    refine List.forall_mem_append.mpr ⟨fun st hst => ?_, List.forall_mem_singleton.mpr le_rfl⟩
    exact (h.numbered st hst).trans (Nat.le_succ n)

/-- The name of the next table is not in use. -/
theorem fresh (h : d.Ascends n) :
    ∀ st ∈ d.tables, sstableFileName st.1 ≠ sstableFileName (n + 1) := by
  intro st hst hname
  have hle := h.numbered st hst
  have heq := sstableFileName_injective hname
  omega

end Disk.Ascends

/-- Everything but a rename. -/
def FileOp.NoRename (op : FileOp) : Prop :=
  ∀ n, op ≠ .rename n

section Steps

variable {fate : FileOp → Fate} {d : Disk} {n : ℕ} {e : Engine}

/-- What is not a rename adds no table, whether it is done or fails. -/
theorem ascends_of_issues {α : Type} {p : FileM α} (hp : p.Issues FileOp.NoRename)
    (h : d.Ascends n) : Safe fileSystem fate (fun _ => Disk.Ascends n) (Disk.Ascends n) p d := by
  refine hp.safe (fun op d hop hd => ?_) h
  cases op with
  | rename m => exact absurd rfl (hop m)
  | remove m => exact ⟨hd.sublist List.filter_sublist, hd⟩
  | _ => exact ⟨hd.sublist (List.Sublist.refl _), hd.sublist (List.Sublist.refl _)⟩

/-- A table that is written gets the next number. -/
theorem writeAndOpenSSTable_ascends (h : d.Ascends e.sstableSeq) (t : Table) :
    Safe fileSystem fate (fun r d' => r.1 = { e with sstableSeq := e.sstableSeq + 1 } ∧
        d'.Ascends (e.sstableSeq + 1))
      (Disk.Ascends (e.sstableSeq + 1)) (e.writeAndOpenSSTable t) d := by
  have hnext : ∀ {d' : Disk}, (d'.tables = d.tables ∨
      d'.tables = d.tables ++ [(e.sstableSeq + 1, t)]) → d'.Ascends (e.sstableSeq + 1) := by
    rintro d' (htab | htab)
    · exact (h.sublist (htab ▸ List.Sublist.refl _)).mono (Nat.le_succ _)
    · exact h.add htab
  refine (writeAndOpenSSTable_safe e t h.numbered).mono ?_ fun d' hc => hnext hc.2
  rintro ⟨e', r⟩ d' ⟨he, -, hr⟩
  cases r with
  | error err => exact ⟨he, hnext hr.2⟩
  | ok st => exact ⟨he, hnext (.inr hr.2)⟩

theorem compactLocked_ascends (h : d.Ascends e.sstableSeq) (now : ℤ) :
    Safe fileSystem fate (fun r d' => d'.Ascends r.1.sstableSeq)
      (fun d' => d'.tables.Pairwise fun a b => a.1 < b.1) (e.compactLocked now) d := by
  unfold Engine.compactLocked
  refine safe_bind ((writeAndOpenSSTable_ascends h _).mono (fun _ _ hq => hq)
    fun d' hd' => hd'.ordered) ?_
  rintro ⟨e', r⟩ d' ⟨rfl, hd'⟩
  cases r with
  | error err => exact safe_ret hd'
  | ok table =>
    have hremove : (Engine.removeTables e.sstables).Issues FileOp.NoRename :=
      removeTables_issues fun st _ => by simp [FileOp.NoRename]
    refine safe_bind ((ascends_of_issues hremove hd').mono (fun _ _ hq => hq)
      fun d' hd' => hd'.ordered) fun _ d'' hd'' => safe_ret hd''

theorem maybeFlushLocked_ascends (h : d.Ascends e.sstableSeq) (now : ℤ) :
    Safe fileSystem fate (fun r d' => d'.Ascends r.1.sstableSeq)
      (fun d' => d'.tables.Pairwise fun a b => a.1 < b.1) (e.maybeFlushLocked now) d := by
  unfold Engine.maybeFlushLocked Engine.flushLocked
  split
  · exact safe_ret h
  split
  · exact safe_ret h
  refine safe_bind ((writeAndOpenSSTable_ascends h _).mono (fun _ _ hq => hq)
    fun d' hd' => hd'.ordered) ?_
  rintro ⟨e', r⟩ d' ⟨rfl, hd'⟩
  cases r with
  | error err => exact safe_ret hd'
  | ok table =>
    have hreset : walReset.Issues FileOp.NoRename := by
      refine walReset_issues ?_ ?_ ?_ <;> simp [FileOp.NoRename]
    refine safe_bind ((ascends_of_issues hreset hd').mono (fun _ _ hq => hq)
      fun d' hd' => hd'.ordered) fun ok d'' hd'' => ?_
    cases ok with
    | false => exact safe_ret hd''
    | true =>
      dsimp only
      split
      · refine safe_bind (compactLocked_ascends hd'' now) ?_
        rintro ⟨e', err⟩ d₃ hd₃
        cases err <;> exact safe_ret hd₃
      · exact safe_ret hd''

theorem processBatch_ascends (h : d.Ascends e.sstableSeq) (batch : List EngineOp) (now : ℤ)
    : Safe fileSystem fate (fun r d' => d'.Ascends r.1.sstableSeq)
      (fun d' => d'.tables.Pairwise fun a b => a.1 < b.1) (e.processBatch batch now) d := by
  unfold Engine.processBatch
  have happend : (appendBatch (batch.map EngineOp.record)).Issues FileOp.NoRename := by
    refine appendBatch_issues (fun r => ?_) ?_ _ <;> simp [FileOp.NoRename]
  refine safe_bind ((ascends_of_issues happend h).mono (fun _ _ hq => hq)
    fun d' hd' => hd'.ordered) fun ok d' hd' => ?_
  cases ok with
  | false => exact safe_ret hd'
  | true =>
    refine maybeFlushLocked_ascends ?_ now
    rw [(applyAll_spec batch e).2.2.2.1]
    exact hd'

end Steps

/-- Whenever the store is opened, no table number has more than six digits. -/
def Store.OpensSix (s : Store) : Store.Action → Prop
  | .reopen _ => s.SixDigits
  | .batch reqs now fate _ => ∀ d',
      ((s.engine.enqueue reqs).1.processBatch (s.enqueued reqs) now).run fileSystem fate s.disk
        = (none, d') → ∀ st ∈ d'.tables, st.1 < 10 ^ 6

/-- The numbers go on after `Open`. -/
theorem Store.reopened_ascends {s : Store} (hord : s.disk.tables.Pairwise fun a b => a.1 < b.1)
    (hsix : s.SixDigits) (opts : Options) :
    (s.reopened opts).disk.Ascends (s.reopened opts).engine.sstableSeq := by
  have hseq : (s.reopened opts).engine.sstableSeq = maxSeq s.disk.tables := by
    rw [← sortedTables_eq hord hsix]
    exact (replay_spec s.disk.wal _).2.2
  refine ⟨hord, fun st hst => ?_⟩
  rw [hseq]
  exact le_maxSeq hsix st hst

theorem Store.step_ascends {s s' : Store} {a : Store.Action}
    (h : s.disk.Ascends s.engine.sstableSeq) (hok : s.OpensSix a) (hs : s.step a = some s') :
    s'.disk.Ascends s'.engine.sstableSeq := by
  cases a with
  | batch reqs now fate opts =>
    have hnumbered : s.disk.Ascends (s.engine.enqueue reqs).1.sstableSeq := by
      rw [enqueue_engine]
      exact h
    have hsafe : Safe fileSystem fate _ _ _ s.disk :=
      processBatch_ascends hnumbered (s.enqueued reqs) now
    obtain ⟨-, ⟨e', err, d', hrun, rfl⟩ | ⟨d', hrun, rfl⟩⟩ := Store.step_batch hs
    · exact hsafe.of_run_some hrun
    · exact Store.reopened_ascends (s := ⟨_, d', _, _⟩) (hsafe.of_run_none hrun) (hok d' hrun) opts
  | reopen opts =>
    cases hs
    exact Store.reopened_ascends h.ordered hok opts

theorem Store.ascends_of_runs {opts : Options} {clock : ℤ} {s : Store}
    (h : Runs Store.step Store.OpensSix (.new opts clock) s) :
    s.disk.Ascends s.engine.sstableSeq :=
  Runs.invariant (fun _ _ _ hs hok hstep => Store.step_ascends hs hok hstep) h
    ⟨List.Pairwise.nil, nofun⟩

/-- **Reopening keeps the age of the tables exactly up to number `999999`.** In every state of a run
in which the store was never opened on a seven-digit number, the tables are numbered in the
order in which they were written and the next one gets a name that is not in use. Opening the
store then finds this order, the highest number, and a fresh name, exactly if there is no
seven-digit number now. -/
theorem Store.reopens_iff_six_digits {opts : Options} {clock : ℤ} {s : Store}
    (h : Runs Store.step Store.OpensSix (.new opts clock) s) :
    (s.disk.tables.Pairwise fun a b => a.1 < b.1) ∧ (∀ st ∈ s.disk.tables,
        sstableFileName st.1 ≠ sstableFileName (s.engine.sstableSeq + 1)) ∧
      (s.disk.Reopens ↔ s.SixDigits) :=
  have hasc := Store.ascends_of_runs h
  ⟨hasc.ordered, hasc.fresh, Disk.reopens_iff hasc.ordered⟩

/-- A batch that is not stopped does not open the store. -/
theorem Store.opensSix_of_unstopped {fate : FileOp → Fate} (hfate : ∀ op, fate op ≠ .stopped)
    (s : Store) (reqs : List Request) (now : ℤ) (opts : Options) :
    s.OpensSix (.batch reqs now fate opts) := by
  intro d' hrun
  obtain ⟨r, d'', hend⟩ : ∃ r d'', ((s.engine.enqueue reqs).1.processBatch (s.enqueued reqs)
      now).run fileSystem fate s.disk = (some r, d'') := run_ends hfate _ s.disk
  rw [hend] at hrun
  exact absurd (Prod.mk.inj hrun).1 (by simp)

theorem Store.opensSix_putOne (value : UInt8) (opts : Options) (s : Store) :
    s.OpensSix (Store.putOne value opts) :=
  Store.opensSix_of_unstopped (by simp [noFault]) s _ _ _

/-- Two tables, and the store is opened again. -/
theorem Store.reopens_with_two_tables : ∃ s : Store,
    Runs Store.step Store.OpensSix (.new ⟨0, 10⟩ 0) s ∧ s.disk.tables.map Prod.fst = [1, 2] ∧
      s.disk.Reopens := by
  obtain ⟨s, hs, hobs⟩ := Option.map_eq_some_iff.mp (show
    (exec Store.step (.new ⟨0, 10⟩ 0) [Store.putOne 1 ⟨0, 10⟩, Store.putOne 2 ⟨0, 10⟩]).map
      (fun s => (s.disk.tables.map Prod.fst, decide s.SixDigits)) = some ([1, 2], true)
    by decide +kernel)
  obtain ⟨htables, hsix⟩ := Prod.mk.inj hobs
  have hrun : Runs Store.step Store.OpensSix (.new ⟨0, 10⟩ 0) s := by
    refine Runs.of_exec_all (fun a ha s => ?_) hs
    rcases List.mem_cons.mp ha with rfl | ha
    · exact Store.opensSix_putOne 1 _ s
    · rw [List.mem_singleton.mp ha]
      exact Store.opensSix_putOne 2 _ s
  exact ⟨s, hrun, htables, (Store.reopens_iff_six_digits hrun).2.2.mpr (of_decide_eq_true hsix)⟩

/-- **Table number `1000000`.** The store was opened on table `999998` and has written two more. The
third one sorts before the other two, its number is not read, and the next table takes its
name. -/
theorem Store.reopens_wrongly_on_seven_digits : ∃ s : Store,
    Runs Store.step Store.OpensSix (.new ⟨0, 0⟩ 0) s ∧
      s.disk.tables.map Prod.fst = [999998, 999999, 1000000] ∧
      (sortedTables s.disk).map Prod.fst = [1000000, 999998, 999999] ∧
      maxSeq (sortedTables s.disk) = 999999 ∧
      (∃ st ∈ s.disk.tables,
        sstableFileName st.1 = sstableFileName (maxSeq (sortedTables s.disk) + 1)) ∧
      ¬ s.disk.Reopens := by
  -- each put has used two numbers so far; now the threshold is raised, and each uses one
  obtain ⟨history, hrun⟩ := Store.reaches_settled (Store.opensSix_putOne 1 ⟨0, 0⟩) 499998
  have hopen : (Store.settled ⟨0, 0⟩ [singleTable 999998 1 499999] 999998 500000 history).step
      (.reopen ⟨0, 10⟩)
        = some (.settled ⟨0, 10⟩ [singleTable 999998 1 499999] 999998 500000 history) := by
    have hscan : scanSeq (sstableFileName 999998) = some 999998 :=
      scanSeq_sstableFileName (by decide)
    simp [Store.settled, singleTable, Store.step, Store.reopened, openEngine, sortedTables, maxSeq,
      raiseSeq, hscan, maxVersion, Disk.cleanup]
  have hsix : (Store.settled ⟨0, 0⟩ [singleTable 999998 1 499999] 999998 500000 history).OpensSix
      (.reopen ⟨0, 10⟩) := List.forall_mem_singleton.mpr (by decide)
  have hrun₁ := hrun.tail _ hsix hopen
  have hrun₂ := hrun₁.tail _ (Store.opensSix_putOne 2 ⟨0, 10⟩ _)
    (Store.step_putMore (by decide) (by simp [singleTable]) 2 _ _)
  have hrun₃ := hrun₂.tail _ (Store.opensSix_putOne 3 ⟨0, 10⟩ _)
    (Store.step_putMore (by decide) (by simp [singleTable]) 3 _ _)
  have hmax : maxSeq (sortedTables ⟨[], [singleTable 999998 1 499999, singleTable 999999 2 500000,
      singleTable 1000000 3 500001], []⟩) = 999999 := by decide +kernel
  have hsorted : (sortedTables ⟨[], [singleTable 999998 1 499999, singleTable 999999 2 500000,
      singleTable 1000000 3 500001], []⟩).map Prod.fst = [1000000, 999998, 999999] := by
    decide +kernel
  refine ⟨_, hrun₃, rfl, hsorted, hmax,
    ⟨singleTable 1000000 3 500001, List.mem_append_right _ List.mem_cons_self, ?_⟩, fun h => ?_⟩
  · exact congrArg (fun n => sstableFileName (n + 1)) hmax.symm
  · exact h.fresh (singleTable 1000000 3 500001) (List.mem_append_right _ List.mem_cons_self)
      (congrArg (fun n => sstableFileName (n + 1)) hmax.symm)

end Storage
end BoilerPulse
