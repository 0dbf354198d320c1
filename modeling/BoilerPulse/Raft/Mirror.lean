import BoilerPulse.Raft.Durable

/-!
# Memory against disk

The in-memory term, vote, log and base of a node are written to storage by separate code in
each place that changes them. `Mirrors` says that the two agree, which is what makes a
restart invisible: `NewNode` reads back what was in memory (`Mirrors.newNode`).

Calls run to completion here, one after another (`NodeCall`). They do not all keep the
mirror. `HandleInstallSnapshot` drops the whole log in memory, while `DiscardLogThrough`
keeps the stored entries after the snapshot; and it saves the snapshot before it knows
whether it can be restored. `maybeSnapshot` saves at `lastApplied`, and then clamps the base
to the end of the log. `NodeCall.Fits` is the condition under which none of this happens.
-/

namespace BoilerPulse
namespace Raft

open Framework

variable {σ : Type}

/-- The calls on a node, each run to its end. -/
inductive NodeCall where
  | handle (h : Handler)
  | installSnapshot (args : InstallSnapshotArgs)
  /-- One iteration of `applyPending` that finds an entry. -/
  | applyNext
  | maybeSnapshot

/-- Run a call. -/
def Node.call (M : StateMachine σ) (n : Node σ) : NodeCall → Option (Node σ)
  | .handle h => n.handle h
  | .installSnapshot args => some (n.handleInstallSnapshot M args).1
  | .applyNext =>
    match n.applyFetch with
    | some (n, some e) => some (n.applyEntry M e)
    | _ => none
  | .maybeSnapshot => some (n.maybeSnapshot M)

/-- Requests are as leaders send them; a snapshot that is installed reaches the end of the log
and can be restored; and what has been applied is still in the log when
`maybeSnapshot` compacts it. -/
def NodeCall.Fits (M : StateMachine σ) (n : Node σ) : NodeCall → Prop
  | .handle h => h.Fits n
  | .installSnapshot args => n.currentTerm ≤ args.term → n.logBaseIndex < args.lastIncludedIndex →
      n.lastLogIndexLocked ≤ args.lastIncludedIndex ∧ (M.restore n.stateMachine args.data).isSome
  | .applyNext => True
  | .maybeSnapshot => n.logBaseIndex < n.lastApplied → n.lastApplied ≤ n.lastLogIndexLocked

instance NodeCall.decidableFits (M : StateMachine σ) (n : Node σ) (c : NodeCall) :
    Decidable (c.Fits M n) := by
  cases c <;> unfold NodeCall.Fits <;> infer_instance

/-- **The disk mirrors the memory**: term and vote, the log, and the log base with its term. -/
structure Mirrors (n : Node σ) : Prop where
  vote : n.storage.loadTermAndVote = (n.currentTerm, n.votedFor)
  log : n.storage.loadLog = n.log
  base : n.storage.snapshotIndex = n.logBaseIndex
  baseTerm : n.storage.snapshotTerm = n.logBaseTerm

/-- What `NewNode` reads back from a mirror, if the state machine accepts the snapshot. -/
theorem Mirrors.newNode {n : Node σ} (h : Mirrors n) (M : StateMachine σ) (id : String)
    (peers : List String) (sm : σ) (opts : Options)
    (hsm : ∀ snap ∈ n.storage.loadSnapshot, (M.restore sm snap.data).isSome) :
    ∃ m, Raft.newNode M id peers n.storage sm opts = some m ∧ m.currentTerm = n.currentTerm ∧
      m.votedFor = n.votedFor ∧ m.logBaseIndex = n.logBaseIndex ∧
      m.logBaseTerm = n.logBaseTerm ∧ m.log = n.log := by
  have hsome : ∃ m, Raft.newNode M id peers n.storage sm opts = some m := by
    unfold Raft.newNode
    simp only
    split
    · exact ⟨_, rfl⟩
    · next snap hs =>
      obtain ⟨sm', hsm'⟩ := Option.isSome_iff_exists.mp (hsm snap hs)
      exact ⟨_, by rw [hsm']; rfl⟩
  obtain ⟨m, hm⟩ := hsome
  refine ⟨m, hm, ?_⟩
  obtain ⟨hterm, hvote⟩ := Prod.mk.inj h.vote
  have hbase := h.base
  have hbaseTerm := h.baseTerm
  unfold Storage.snapshotIndex at hbase
  unfold Storage.snapshotTerm at hbaseTerm
  obtain ⟨sm', i, t, hsnap, rfl⟩ := m.newNode_eq hm
  -- with or without a snapshot, the base is what the storage says
  rcases hsnap with ⟨hs, -, rfl, rfl⟩ | ⟨snap, hs, -, rfl, rfl⟩
  · rw [hs] at hbase hbaseTerm
    exact ⟨hterm, hvote, hbase, hbaseTerm, h.log⟩
  · rw [hs] at hbase hbaseTerm
    exact ⟨hterm, hvote, hbase, hbaseTerm, h.log⟩

/-! ### Term and vote -/

/-- The stored term and vote are those in memory. -/
def Persisted (n : Node σ) : Prop :=
  n.storage.loadTermAndVote = (n.currentTerm, n.votedFor)

namespace Persisted

variable {n n' : Node σ}

theorem of_sameVote (h : Persisted n) (hs : SameVote n n') : Persisted n' := by
  unfold Persisted Storage.loadTermAndVote at h ⊢
  rw [hs.storedTerm, hs.storedVote, hs.currentTerm, hs.votedFor]
  exact h

theorem becomeFollowerLocked (h : Persisted n) (t : ℕ) : Persisted (n.becomeFollowerLocked t) := by
  unfold Node.becomeFollowerLocked
  simp only
  split
  · rfl
  · exact h

theorem adopt (h : Persisted n) (t : ℕ) : Persisted (n.adopt t) := by
  unfold Node.adopt
  split
  · exact h.becomeFollowerLocked t
  · exact h

theorem follow (h : Persisted n) (t : ℕ) (l : String) : Persisted (n.follow t l) :=
  h.adopt t

/-- **Every handler** persists the term and the vote it changes. -/
theorem handle (h : Persisted n) {hd : Handler} (hn : n.handle hd = some n') : Persisted n' := by
  cases Node.handle_cases hn with
  | adopted hd t => exact h.adopt t
  | granted args => rfl
  | rejected args => exact h.follow _ _
  | accepted args hle hc =>
    exact (h.follow _ _).of_sameVote
      ((Node.appendMissing_sameVote _ _ _).trans (Node.advanceCommit_sameVote _ _))
  | campaign => rfl
  | elected hd hc => exact h
  | answered hd ha => exact (h.adopt _).of_sameVote ha.sameVote
  | propose batch => exact h.of_sameVote (Node.appendLogLocked_sameVote _ _)

end Persisted

/-! ### The log -/

/-- A mirrored node whose log is numbered from its base. -/
structure Mirrored (n : Node σ) : Prop extends Mirrors n where
  dense : n.Dense

namespace Mirrored

variable {M : StateMachine σ} {n n' : Node σ}

/-- Nothing is stored that the log does not have, so the log is backed. -/
theorem backed (h : Mirrored n) : Backed n where
  dense := h.dense
  stored := by
    intro e he
    have hlog : n.storage.log = n.log := h.log
    rw [hlog]
    exact he
  base_le := h.base.ge
  noGap := by
    rintro i hi ⟨e, he, hle⟩
    have hlog : n.storage.log = n.log := h.log
    rw [hlog] at he ⊢
    obtain ⟨j, hj⟩ := List.mem_iff_getElem?.mp he
    have hidx := h.dense j e hj
    rw [h.base] at hi
    -- the entry at a smaller position of the same log
    have hlt : i - n.logBaseIndex - 1 < n.log.length := by
      have := (List.getElem?_eq_some_iff.mp hj).1
      omega
    have hget := List.getElem?_eq_getElem hlt
    refine ⟨_, List.mem_of_getElem? hget, ?_⟩
    rw [h.dense _ _ hget]
    omega

theorem of_sameLog (h : Mirrored n) (hs : SameLog n n') (hp : Persisted n') : Mirrored n' where
  vote := hp
  log := hs.storedLog.trans (Eq.trans h.log hs.log.symm)
  base := by
    unfold Storage.snapshotIndex
    rw [hs.snapshot, hs.base]
    exact h.base
  baseTerm := by
    unfold Storage.snapshotTerm
    rw [hs.snapshot, hs.baseTerm]
    exact h.baseTerm
  dense := (h.backed.of_sameLog hs).dense

/-- Another log, in memory and on disk. -/
theorem withLog (h : Mirrored n) {l : List LogEntry} (hd : (n.withLog l).Dense) :
    Mirrored (n.withLog l) :=
  ⟨⟨h.vote, rfl, h.base, h.baseTerm⟩, hd⟩

/-- **The handlers** keep the mirror. -/
theorem handle (h : Mirrored n) {hd : Handler} (hf : hd.Fits n) (hn : n.handle hd = some n') :
    Mirrored n' := by
  have hp : Persisted n' := Persisted.handle h.vote hn
  have hd' := (h.backed.handle hf hn).dense
  rcases Node.handle_log hn with hs | ⟨args, rfl, hc, hs⟩ | ⟨batch, rfl, rfl⟩
  · exact h.of_sameLog hs hp
  · -- the append loop edits both copies of the log in the same way
    obtain ⟨hb, -⟩ := hf.bounds h.dense hc
    have hsame := n.follow_sameLog args.term args.leaderID
    have hfollow := h.of_sameLog hsame (Persisted.follow h.vote _ _)
    have heq := Node.appendMissing_eq hfollow.dense hfollow.log args.entries
      (args.prevLogIndex + 1) (by rw [hsame.base]; omega)
    rw [heq] at hs
    refine (hfollow.withLog ?_).of_sameLog hs hp
    intro i e he
    have := hd' i e (by rw [hs.log]; exact he)
    rw [hs.base] at this
    exact this
  · have heq := Node.appendLogLocked_eq h.log
      (Node.batchEntries n.currentTerm (n.lastLogIndexLocked + 1) batch)
    rw [heq] at hd' ⊢
    exact h.withLog hd'

/-- **Installing a snapshot** that reaches the end of the log. -/
theorem installSnapshot (h : Mirrored n) {args : InstallSnapshotArgs}
    (hf : (NodeCall.installSnapshot args).Fits M n) :
    Mirrored (n.handleInstallSnapshot M args).1 := by
  have hsame := n.follow_sameLog args.term args.leaderID
  have hfollow := h.of_sameLog hsame (Persisted.follow h.vote _ _)
  rcases n.handleInstallSnapshot_cases M args with
    ⟨-, heq⟩ | ⟨-, -, heq⟩ | ⟨ht, hlt, hr, -⟩ | ⟨sm, ht, hlt, hr, heq⟩
  · rw [heq]; exact h
  · rw [heq]; exact hfollow
  · -- a snapshot that cannot be restored would be on disk, with the old base in memory
    have := (hf ht hlt).2
    rw [hr] at this
    cases this
  · rw [heq]
    refine ⟨⟨hfollow.vote, ?_, rfl, rfl⟩, nofun⟩
    -- no stored entry is after the snapshot
    have hlog : (n.follow args.term args.leaderID).storage.log = n.log :=
      hsame.storedLog.trans h.log
    change (n.follow args.term args.leaderID).storage.log.filter _ = []
    rw [hlog, List.filter_eq_nil_iff]
    intro e he hgt
    obtain ⟨i, hi⟩ := List.mem_iff_getElem?.mp he
    have hidx := h.dense i e hi
    have hlen := (List.getElem?_eq_some_iff.mp hi).1
    have hlast := h.dense.lastLogIndexLocked
    have hreach := (hf ht hlt).1
    have := of_decide_eq_true hgt
    omega

/-- **Taking a snapshot** at an index the log still has. -/
theorem maybeSnapshot (h : Mirrored n) (hf : NodeCall.maybeSnapshot.Fits M n) :
    Mirrored (n.maybeSnapshot M) := by
  unfold Node.maybeSnapshot
  split
  · exact h
  · next la t hcap =>
    split
    · exact h
    · next data hdata =>
      obtain ⟨rfl, hlt⟩ : n.lastApplied = la ∧ n.logBaseIndex < n.lastApplied := by
        unfold Node.maybeSnapshotCapture at hcap
        split at hcap
        · cases hcap
        · split at hcap
          · cases hcap
          · next hlt =>
            exact ⟨(Prod.mk.inj (Option.some.inj hcap)).1, not_le.mp (not_or.mp hlt).1⟩
      -- saving leaves the log alone, and the base is not clamped
      let n₁ : Node σ := { n with storage := n.storage.saveSnapshot n.lastApplied t data }
      have hd₁ : n₁.Dense := h.dense
      have hmin : min n.lastApplied n₁.lastLogIndexLocked = n.lastApplied :=
        min_eq_left (hf hlt)
      have hdense := hd₁.discard n.lastApplied t
      have heq := (hd₁.discardLogPrefixLocked hlt : n₁.discardLogPrefixLocked n.lastApplied t = _)
      rw [hmin] at heq
      refine ⟨?_, hdense⟩
      change Mirrors (n₁.discardLogPrefixLocked n.lastApplied t)
      rw [heq]
      refine ⟨h.vote, ?_, rfl, rfl⟩
      change n.storage.log.filter _ = n.log.drop (n.lastApplied - n.logBaseIndex)
      rw [show n.storage.log = n.log from h.log, ← Node.filter_gt_of_dense h.dense,
        Nat.add_sub_cancel' hlt.le]

/-- **Every call that fits** keeps the mirror. -/
theorem call (h : Mirrored n) {c : NodeCall} (hf : c.Fits M n) (hn : n.call M c = some n') :
    Mirrored n' := by
  cases c with
  | handle hd => exact h.handle hf hn
  | installSnapshot args =>
    cases hn
    exact h.installSnapshot hf
  | applyNext =>
    unfold Node.call at hn
    simp only at hn
    split at hn
    · next n₁ e hfetch =>
      cases hn
      rcases n.applyFetch_cases hfetch with ⟨-, -, he⟩ | ⟨e, -, -, -, rfl, -⟩
      · cases he
      · exact h.of_sameLog ⟨rfl, rfl, rfl, rfl, rfl⟩ h.vote
    · cases hn
  | maybeSnapshot =>
    cases hn
    exact h.maybeSnapshot hf

end Mirrored

/-- **Memory mirrors disk.** After any sequence of calls that fit, the disk has the term, the
vote, the log and the base that are in memory, and `NewNode` on it reproduces them. -/
theorem memory_mirrors_disk (M : StateMachine σ) {n n' : Node σ} (hn : Mirrored n)
    (hrun : Runs (Node.call M) (fun n c => c.Fits M n) n n') :
    Mirrors n' ∧ ∀ (id : String) (peers : List String) (sm : σ) (opts : Options),
      (∀ snap ∈ n'.storage.loadSnapshot, (M.restore sm snap.data).isSome) →
      ∃ m, newNode M id peers n'.storage sm opts = some m ∧ m.currentTerm = n'.currentTerm ∧
        m.votedFor = n'.votedFor ∧ m.logBaseIndex = n'.logBaseIndex ∧
        m.logBaseTerm = n'.logBaseTerm ∧ m.log = n'.log := by
  have hinv : Mirrored n' := hrun.invariant (fun _ _ _ h hf hs => h.call hf hs) hn
  exact ⟨hinv.toMirrors, fun id peers sm opts hsm => hinv.toMirrors.newNode M id peers sm opts hsm⟩

/-! ### Two runs -/

theorem aheadNode_mirrored : Mirrored aheadNode :=
  ⟨⟨rfl, rfl, rfl, rfl⟩, aheadNode_backed.dense⟩

/-- A snapshot of the log and one more entry. -/
def sevenEntries : InstallSnapshotArgs :=
  ⟨2, "a", 7, 2, [1, 2, 3, 4, 5, 6, 7]⟩

/-- A vote, a compaction, a replaced suffix and a snapshot past the end of the log. -/
theorem memory_mirrors_disk_of_calls :
    ∃ n : Node Bytes, Runs (Node.call journal) (fun n c => c.Fits journal n) aheadNode n ∧
      n.logBaseIndex = 7 ∧ n.currentTerm = 2 ∧ n.votedFor = "c" ∧ Mirrors n ∧
      ∃ m, newNode journal "b" ["a", "c"] n.storage [] ⟨2⟩ = some m ∧ m.logBaseIndex = 7 := by
  have hrun : (exec (guarded (Node.call journal) fun n c => c.Fits journal n) aheadNode
      [.handle (.requestVote ⟨2, "c", 9, 2⟩), .maybeSnapshot,
        .handle (.appendEntries ⟨2, "c", 4, 1, [⟨2, 5, [50]⟩], 3⟩),
        .installSnapshot sevenEntries]).map
        (fun n => (n.logBaseIndex, n.currentTerm, n.votedFor)) = some (7, 2, "c") := by
    decide +kernel
  obtain ⟨n, hruns, hobs⟩ := Runs.of_exec_guarded_map hrun
  simp only [Prod.mk.injEq] at hobs
  obtain ⟨hmirrors, hrestart⟩ := memory_mirrors_disk journal aheadNode_mirrored hruns
  obtain ⟨m, hm, -, -, hbase, -⟩ := hrestart "b" ["a", "c"] [] ⟨2⟩ fun _ _ => rfl
  exact ⟨n, hruns, hobs.1, hobs.2.1, hobs.2.2, hmirrors, m, hm, hbase.trans hobs.1⟩

/-- **Installing a snapshot leaves entries on disk.** A snapshot of five of the six entries
empties the log in memory, and entry 6 stays on disk: a restart would bring it back. -/
theorem disk_keeps_dropped_entries : Mirrored aheadNode ∧
      (aheadNode.handleInstallSnapshot journal fiveEntries).1.log = [] ∧
      (aheadNode.handleInstallSnapshot journal fiveEntries).1.storage.loadLog = [⟨1, 6, [6]⟩] ∧
      ¬ Mirrors (aheadNode.handleInstallSnapshot journal fiveEntries).1 := by
  have hlog : (aheadNode.handleInstallSnapshot journal fiveEntries).1.log = [] := by decide
  have hstored : (aheadNode.handleInstallSnapshot journal fiveEntries).1.storage.loadLog =
      [⟨1, 6, [6]⟩] := by decide
  refine ⟨aheadNode_mirrored, hlog, hstored, fun h => ?_⟩
  have := h.log
  rw [hlog, hstored] at this
  cases this

end Raft
end BoilerPulse
