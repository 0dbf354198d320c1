import BoilerPulse.Raft.Cluster
import BoilerPulse.Raft.Process
import Mathlib.Order.Lattice

/-!
# Installing a snapshot

`HandleInstallSnapshot` run to completion, without interleaving. The handler restores the
state machine and drops the whole log whenever the snapshot is past the log base,
which is safe only if the snapshot is not behind what the node has committed:
`install_keeps_committed_iff` says that the committed entries stay covered and the
state machine stays at `lastApplied` *exactly* when the snapshot is ignored or reaches
the commit index.
-/

namespace BoilerPulse
namespace Raft

variable {σ : Type}

namespace Node

variable (n : Node σ)

/-- What `HandleInstallSnapshot` leaves behind once it has restored `sm`. -/
def installed (args : InstallSnapshotArgs) (sm : σ) : Node σ :=
  { n with
    stateMachine := sm
    log := []
    storage := (n.storage.saveSnapshot args.lastIncludedIndex args.lastIncludedTerm
      args.data).discardLogThrough args.lastIncludedIndex
    logBaseIndex := args.lastIncludedIndex
    logBaseTerm := args.lastIncludedTerm
    commitIndex := max args.lastIncludedIndex n.commitIndex
    lastApplied := max args.lastIncludedIndex n.lastApplied }

/-- The part of `HandleInstallSnapshot` after its first section. -/
theorem handleInstallSnapshot_of_lt (M : StateMachine σ) {args : InstallSnapshotArgs}
    (hle : n.currentTerm ≤ args.term) (hlt : n.logBaseIndex < args.lastIncludedIndex) :
    (n.handleInstallSnapshot M args).1 = match M.restore n.stateMachine args.data with
      | none => (n.follow args.term args.leaderID).installSnapshotSave args
      | some sm => (n.follow args.term args.leaderID).installed args sm := by
  have hbase : (n.adopt args.term).logBaseIndex = n.logBaseIndex :=
    (n.adopt_sameLog args.term).base
  have hbegin : n.installSnapshotBegin args = (n.follow args.term args.leaderID, none) := by
    rw [n.installSnapshotBegin_eq hle, hbase, if_neg (not_le.mpr hlt)]
    rfl
  have hrestore : ((n.follow args.term args.leaderID).installSnapshotSave
      args).installSnapshotRestore M args = (M.restore n.stateMachine args.data).map fun sm =>
        { (n.follow args.term args.leaderID).installSnapshotSave args with stateMachine := sm } := by
    rw [← (n.follow_sameSnapshot args.term args.leaderID).stateMachine]
    rfl
  unfold handleInstallSnapshot
  rw [hbegin]
  simp only [hrestore]
  cases M.restore n.stateMachine args.data with
  | none => rfl
  | some sm =>
    -- the base has not moved since the first section, so the last one runs
    simp only [Option.map_some]
    unfold installSnapshotFinish
    rw [if_neg]
    · rfl
    · change ¬ args.lastIncludedIndex ≤ (n.adopt args.term).logBaseIndex
      rw [hbase]
      exact not_le.mpr hlt

/-- `HandleInstallSnapshot` rejects as stale, ignores a snapshot that is not past the base,
fails to restore after having saved, or installs. -/
theorem handleInstallSnapshot_cases (M : StateMachine σ) (args : InstallSnapshotArgs) :
    (args.term < n.currentTerm ∧ (n.handleInstallSnapshot M args).1 = n) ∨
    (n.currentTerm ≤ args.term ∧ args.lastIncludedIndex ≤ n.logBaseIndex ∧
      (n.handleInstallSnapshot M args).1 = n.follow args.term args.leaderID) ∨
    (n.currentTerm ≤ args.term ∧ n.logBaseIndex < args.lastIncludedIndex ∧
      M.restore n.stateMachine args.data = none ∧
      (n.handleInstallSnapshot M args).1 =
        (n.follow args.term args.leaderID).installSnapshotSave args) ∨
    (∃ sm, n.currentTerm ≤ args.term ∧ n.logBaseIndex < args.lastIncludedIndex ∧
      M.restore n.stateMachine args.data = some sm ∧
      (n.handleInstallSnapshot M args).1 =
        (n.follow args.term args.leaderID).installed args sm) := by
  by_cases hlt : args.term < n.currentTerm
  · refine Or.inl ⟨hlt, ?_⟩
    rw [handleInstallSnapshot, installSnapshotBegin, if_pos hlt]
  · right
    have hle : n.currentTerm ≤ args.term := not_lt.mp hlt
    by_cases hold : args.lastIncludedIndex ≤ n.logBaseIndex
    · refine Or.inl ⟨hle, hold, ?_⟩
      rw [handleInstallSnapshot, n.installSnapshotBegin_eq hle,
        (n.adopt_sameLog args.term).base, if_pos hold]
      rfl
    · right
      -- past the base it is saved first, and only then restored
      have heq := n.handleInstallSnapshot_of_lt M hle (not_le.mp hold)
      cases hr : M.restore n.stateMachine args.data with
      | none =>
        rw [hr] at heq
        exact Or.inl ⟨hle, not_le.mp hold, rfl, heq⟩
      | some sm =>
        rw [hr] at heq
        exact Or.inr ⟨sm, hle, not_le.mp hold, rfl, heq⟩

/-- The entry at a log index, if the log still has it. -/
def entryAt (i : ℕ) : Option LogEntry :=
  if i ≤ n.logBaseIndex then none else n.log[i - n.logBaseIndex - 1]?

/-- `n'` still covers what `n` has committed: compacted, or in the log with its entry. -/
def CoversCommitted (n' : Node σ) : Prop :=
  ∀ i ≤ n.commitIndex, i ≤ n'.logBaseIndex ∨ ∃ e, n'.entryAt i = some e ∧ n.entryAt i = some e

end Node

/-- A node that is in order with the committed commands `cmds`: its indices are, its
committed entries hold them, and its state machine has applied them up to `lastApplied`. -/
structure InOrder (M : StateMachine σ) (init : σ) (cmds : List Bytes) (n : Node σ) : Prop where
  dense : n.Dense
  base_le : n.logBaseIndex ≤ n.lastApplied
  applied_le : n.lastApplied ≤ n.commitIndex
  commit_le : n.commitIndex ≤ n.lastLogIndexLocked
  entries : ∀ i e, n.entryAt i = some e → i ≤ n.commitIndex → cmds[i - 1]? = some e.command
  state : n.stateMachine = M.effect init (cmds.take n.lastApplied)

/-- Every committed index past the base has its entry. -/
theorem InOrder.entryAt {M : StateMachine σ} {init : σ} {cmds : List Bytes} {n : Node σ}
    (h : InOrder M init cmds n) {i : ℕ} (hb : n.logBaseIndex < i) (hi : i ≤ n.commitIndex) :
    ∃ e, n.entryAt i = some e := by
  obtain ⟨e, he⟩ := h.dense.getElem?_of_le hb (hi.trans h.commit_le)
  exact ⟨e, by rw [Node.entryAt, if_neg (not_le.mpr hb)]; exact he⟩

/-- **Installing keeps committed work exactly when the snapshot is ignored or reaches the
commit index.** -/
theorem install_keeps_committed_iff (M : StateMachine σ) (init : σ) (cmds : List Bytes)
    (n : Node σ) (h : InOrder M init cmds n) (args : InstallSnapshotArgs)
    (hterm : n.currentTerm ≤ args.term)
    (hdata : M.restore n.stateMachine args.data =
      some (M.effect init (cmds.take args.lastIncludedIndex))) :
    (n.CoversCommitted (n.handleInstallSnapshot M args).1 ∧
      (n.handleInstallSnapshot M args).1.stateMachine =
        M.effect init (cmds.take (n.handleInstallSnapshot M args).1.lastApplied)) ↔
      (args.lastIncludedIndex ≤ n.logBaseIndex ∨ n.commitIndex ≤ args.lastIncludedIndex) := by
  obtain ⟨hlt, -⟩ | ⟨-, hold, heq⟩ | ⟨-, -, hr, -⟩ | ⟨sm, -, hlt, hr, heq⟩ :=
    n.handleInstallSnapshot_cases M args
  · omega
  · -- ignored: nothing the property speaks about changes
    rw [heq]
    have hsame := n.follow_sameLog args.term args.leaderID
    have hframe := n.follow_sameSnapshot args.term args.leaderID
    refine ⟨fun _ => Or.inl hold, fun _ => ⟨fun i hi => ?_, ?_⟩⟩
    · rcases Nat.lt_or_ge n.logBaseIndex i with hb | hb
      · obtain ⟨e, he⟩ := h.entryAt hb hi
        refine Or.inr ⟨e, ?_, he⟩
        rw [Node.entryAt, hsame.base, hsame.log]
        exact he
      · exact Or.inl (by rw [hsame.base]; exact hb)
    · rw [hframe.stateMachine, hframe.lastApplied]
      exact h.state
  · cases hr.symm.trans hdata
  · -- installed: the log is gone, so only the new base covers anything
    obtain rfl : sm = M.effect init (cmds.take args.lastIncludedIndex) :=
      Option.some.inj (hr.symm.trans hdata)
    rw [heq]
    have hla := (n.follow_sameSnapshot args.term args.leaderID).lastApplied
    constructor
    · rintro ⟨hcov, -⟩
      right
      rcases hcov n.commitIndex le_rfl with hle | ⟨e, he, -⟩
      · exact hle
      · unfold Node.entryAt at he
        split at he
        · cases he
        · cases he
    · intro hreach
      have hci := hreach.resolve_left (not_le.mpr hlt)
      refine ⟨fun i hi => Or.inl (hi.trans hci), ?_⟩
      change M.effect init _ = M.effect init (cmds.take (max args.lastIncludedIndex
        (n.follow args.term args.leaderID).lastApplied))
      rw [hla, max_eq_left (h.applied_le.trans hci)]

/-- A follower with three applied entries. -/
def caughtUpNode : Node Bytes where
  id := "b"
  peers := ["a", "c"]
  storage := { Storage.empty with term := 1, log := [⟨1, 1, [1]⟩, ⟨1, 2, [2]⟩, ⟨1, 3, [3]⟩] }
  stateMachine := [1, 2, 3]
  opts := ⟨2⟩
  currentTerm := 1
  votedFor := ""
  log := [⟨1, 1, [1]⟩, ⟨1, 2, [2]⟩, ⟨1, 3, [3]⟩]
  logBaseIndex := 0
  logBaseTerm := 0
  state := .follower
  commitIndex := 3
  lastApplied := 3
  leaderID := "a"
  nextIndex _ := 0
  matchIndex _ := 0

theorem caughtUpNode_inOrder : InOrder journal [] [[1], [2], [3]] caughtUpNode where
  dense := by
    intro i e he
    match i, he with
    | 0, he | 1, he | 2, he => cases he; rfl
    | i + 3, he => cases he
  base_le := by decide
  applied_le := by decide
  commit_le := by decide
  entries := by
    intro i e he hi
    match i, he with
    | 0, he => cases he
    | 1, he | 2, he | 3, he => cases he; rfl
    | i + 4, he => exact absurd hi (by simp [caughtUpNode])
  state := rfl

/-- A snapshot that reaches the commit index keeps everything. -/
theorem install_keeps_committed_of_reaching :
    caughtUpNode.CoversCommitted (caughtUpNode.handleInstallSnapshot journal
        ⟨1, "a", 3, 1, [1, 2, 3]⟩).1 ∧
      (caughtUpNode.handleInstallSnapshot journal ⟨1, "a", 3, 1, [1, 2, 3]⟩).1.stateMachine =
        journal.effect [] ([[1], [2], [3]].take
          (caughtUpNode.handleInstallSnapshot journal ⟨1, "a", 3, 1, [1, 2, 3]⟩).1.lastApplied) :=
  (install_keeps_committed_iff journal [] [[1], [2], [3]] caughtUpNode caughtUpNode_inOrder
    ⟨1, "a", 3, 1, [1, 2, 3]⟩ (by decide) rfl).mpr (Or.inr (by decide))

/-- **An older snapshot forgets committed work.** A snapshot of the first entry is past the
base and behind the commit index: the node ends with `lastApplied = 3`, no entry after
1, and a state machine that has seen entry 1 only. -/
theorem install_forgets_committed : InOrder journal [] [[1], [2], [3]] caughtUpNode ∧
      journal.restore caughtUpNode.stateMachine [1] =
        some (journal.effect [] ([[1], [2], [3]].take 1)) ∧
      ¬ caughtUpNode.CoversCommitted (caughtUpNode.handleInstallSnapshot journal
        ⟨1, "a", 1, 1, [1]⟩).1 ∧
      (caughtUpNode.handleInstallSnapshot journal ⟨1, "a", 1, 1, [1]⟩).1.lastApplied = 3 ∧
      (caughtUpNode.handleInstallSnapshot journal ⟨1, "a", 1, 1, [1]⟩).1.stateMachine ≠
        journal.effect [] ([[1], [2], [3]].take 3) := by
  refine ⟨caughtUpNode_inOrder, rfl, fun hcov => ?_, by decide, by decide⟩
  rcases hcov 3 (by decide) with hle | ⟨e, he, -⟩
  · exact absurd hle (by decide)
  · have hnone : (caughtUpNode.handleInstallSnapshot journal ⟨1, "a", 1, 1, [1]⟩).1.entryAt 3 =
        none := by decide
    cases hnone.symm.trans he

end Raft
end BoilerPulse
