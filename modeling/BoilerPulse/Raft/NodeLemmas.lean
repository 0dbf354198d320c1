import BoilerPulse.Raft.Server
import Mathlib.Data.Nat.Basic
import Mathlib.Tactic.Common

/-!
# Raft: what the node functions do

One description per function of `Node`, so that nothing above unfolds them.

* `SameVote n n'` — `n'` has the identity, term and vote of `n`, in memory and on
  storage, and its state or the follower state. Every function except the ones
  that change term or vote on purpose satisfies it, and those are described by
  equations (`becomeFollowerLocked_of_lt`, `handleRequestVote_cases`, ...).
* `SameLog n n'` — `n'` has the log of `n`, in memory and on storage, and its base.
* `Dense n` — `log[i].Index = logBaseIndex + i + 1`, and what index arithmetic comes
  to under it.
* `splice` — what the append loop of `HandleAppendEntries` does to a log, as a
  function on lists (`appendMissing_eq`).
-/

namespace BoilerPulse
namespace Raft

variable {σ : Type}

/-! ### Identity, term and vote -/

/-- `n'` has the identity, term and vote of `n`, and has not gained a role. -/
structure SameVote (n n' : Node σ) : Prop where
  id : n'.id = n.id
  peers : n'.peers = n.peers
  opts : n'.opts = n.opts
  currentTerm : n'.currentTerm = n.currentTerm
  votedFor : n'.votedFor = n.votedFor
  storedTerm : n'.storage.term = n.storage.term
  storedVote : n'.storage.votedFor = n.storage.votedFor
  state : n'.state = n.state ∨ n'.state = .follower

namespace SameVote

variable {n n' n'' : Node σ}

theorem refl (n : Node σ) : SameVote n n :=
  ⟨rfl, rfl, rfl, rfl, rfl, rfl, rfl, Or.inl rfl⟩

theorem trans (h₁ : SameVote n n') (h₂ : SameVote n' n'') : SameVote n n'' where
  id := h₂.id.trans h₁.id
  peers := h₂.peers.trans h₁.peers
  opts := h₂.opts.trans h₁.opts
  currentTerm := h₂.currentTerm.trans h₁.currentTerm
  votedFor := h₂.votedFor.trans h₁.votedFor
  storedTerm := h₂.storedTerm.trans h₁.storedTerm
  storedVote := h₂.storedVote.trans h₁.storedVote
  state := by
    rcases h₂.state with h | h
    · rcases h₁.state with h' | h'
      · exact Or.inl (h.trans h')
      · exact Or.inr (h.trans h')
    · exact Or.inr h

end SameVote

namespace Node

variable (n : Node σ)

theorem appendLogLocked_sameVote (es : List LogEntry) : SameVote n (n.appendLogLocked es) := by
  unfold appendLogLocked
  split
  · exact SameVote.refl n
  · exact ⟨rfl, rfl, rfl, rfl, rfl, rfl, rfl, Or.inl rfl⟩

theorem truncateLogFromLocked_sameVote (i : ℕ) : SameVote n (n.truncateLogFromLocked i) := by
  unfold truncateLogFromLocked
  split
  · exact SameVote.refl n
  · exact ⟨rfl, rfl, rfl, rfl, rfl, rfl, rfl, Or.inl rfl⟩

theorem discardLogPrefixLocked_sameVote (i t : ℕ) : SameVote n (n.discardLogPrefixLocked i t) := by
  unfold discardLogPrefixLocked
  split
  · exact SameVote.refl n
  · exact ⟨rfl, rfl, rfl, rfl, rfl, rfl, rfl, Or.inl rfl⟩

theorem appendMissing_sameVote (es : List LogEntry) :
    ∀ idx, SameVote n (n.appendMissing idx es) := by
  induction es with
  | nil => exact fun _ => SameVote.refl n
  | cons e es ih =>
    intro idx
    unfold appendMissing
    split
    · split
      · -- the entry is there already: the loop goes on
        exact ih (idx + 1)
      · -- a conflict: truncate, and append the rest
        exact (n.truncateLogFromLocked_sameVote idx).trans (appendLogLocked_sameVote _ _)
    · exact n.appendLogLocked_sameVote _

theorem advanceCommit_state (k : ℕ) : (n.advanceCommit k).state = n.state := by
  unfold advanceCommit
  split <;> rfl

theorem advanceCommit_sameVote (k : ℕ) : SameVote n (n.advanceCommit k) := by
  unfold advanceCommit
  split
  · exact ⟨rfl, rfl, rfl, rfl, rfl, rfl, rfl, Or.inl rfl⟩
  · exact SameVote.refl n

/-- `maybeAdvanceCommitIndexLocked` writes the commit index only. -/
theorem advanceCommitFrom_eq (k : ℕ) :
    ∃ i, n.advanceCommitFrom k = { n with commitIndex := i } := by
  induction k with
  | zero => exact ⟨n.commitIndex, rfl⟩
  | succ k ih =>
    unfold advanceCommitFrom
    split
    · split
      · -- an entry of an earlier term is skipped, the loop goes on below it
        exact ih
      · split
        · exact ⟨k + 1, rfl⟩
        · exact ih
    · exact ⟨n.commitIndex, rfl⟩

theorem maybeAdvanceCommitIndexLocked_eq :
    ∃ i, n.maybeAdvanceCommitIndexLocked = { n with commitIndex := i } := by
  unfold maybeAdvanceCommitIndexLocked
  split
  · exact ⟨n.commitIndex, rfl⟩
  · exact n.advanceCommitFrom_eq _

theorem maybeAdvanceCommitIndexLocked_sameVote : SameVote n n.maybeAdvanceCommitIndexLocked := by
  obtain ⟨i, h⟩ := n.maybeAdvanceCommitIndexLocked_eq
  rw [h]
  exact ⟨rfl, rfl, rfl, rfl, rfl, rfl, rfl, Or.inl rfl⟩

variable {n} in
/-- Only the leader takes a batch. -/
theorem appendBatch_eq {batch : List Bytes} {n' : Node σ} (h : n.appendBatch batch = some n') :
    n.state = .leader ∧
      n' = n.appendLogLocked (batchEntries n.currentTerm (n.lastLogIndexLocked + 1) batch) := by
  unfold appendBatch at h
  split at h
  · cases h
  · next hl => exact ⟨not_not.mp hl, (Option.some.inj h).symm⟩

theorem appendBatch_sameVote {batch : List Bytes} {n' : Node σ}
    (h : n.appendBatch batch = some n') : SameVote n n' := by
  obtain ⟨-, rfl⟩ := appendBatch_eq h
  exact n.appendLogLocked_sameVote _

/-- `applyPending` is caught up, or fetches the entry after `lastApplied`. -/
theorem applyFetch_cases {n' : Node σ} {r : Option LogEntry} (h : n.applyFetch = some (n', r)) :
    (n.commitIndex ≤ n.lastApplied ∧ n' = n ∧ r = none) ∨
    (∃ e, n.lastApplied < n.commitIndex ∧ n.logBaseIndex ≤ n.lastApplied ∧
      n.log[n.lastApplied - n.logBaseIndex]? = some e ∧
      n' = { n with lastApplied := n.lastApplied + 1 } ∧ r = some e) := by
  unfold applyFetch at h
  split at h
  · next hle =>
    cases h
    exact Or.inl ⟨hle, rfl, rfl⟩
  · -- an index below the base, or past the log, would be out of range in the source
    split at h
    · cases h
    · split at h
      · cases h
      · next hlt hb _ e he =>
        cases h
        rw [show n.lastApplied + 1 - n.logBaseIndex - 1 = n.lastApplied - n.logBaseIndex by
          omega] at he
        exact Or.inr ⟨e, by omega, by omega, he, rfl, rfl⟩

theorem installSnapshotFinish_sameVote (args : InstallSnapshotArgs) :
    SameVote n (n.installSnapshotFinish args) := by
  unfold installSnapshotFinish
  split
  · exact SameVote.refl n
  · exact ⟨rfl, rfl, rfl, rfl, rfl, rfl, rfl, Or.inl rfl⟩

/-! ### Functions that change the term or the vote -/

theorem becomeFollowerLocked_of_lt {t : ℕ} (h : n.currentTerm < t) : n.becomeFollowerLocked t =
      { n with
        state := .follower, leaderID := "", currentTerm := t, votedFor := ""
        storage := n.storage.saveTermAndVote t "" } := by
  unfold becomeFollowerLocked
  simp only
  rw [if_pos h]
  rfl

theorem becomeFollowerLocked_of_le {t : ℕ} (h : t ≤ n.currentTerm) :
    n.becomeFollowerLocked t = { n with state := .follower, leaderID := "" } := by
  unfold becomeFollowerLocked
  simp only
  rw [if_neg (not_lt.mpr h)]

/-- Adopting a term at least the current one. -/
def adopt (t : ℕ) : Node σ :=
  if n.currentTerm < t then n.becomeFollowerLocked t else n

theorem adopt_currentTerm {t : ℕ} (h : n.currentTerm ≤ t) : (n.adopt t).currentTerm = t := by
  unfold adopt
  split
  · next hlt => rw [n.becomeFollowerLocked_of_lt hlt]
  · omega

/-- `HandleRequestVote` rejects as stale, or adopts the term and then grants or
refuses. -/
theorem handleRequestVote_cases (args : RequestVoteArgs) :
    (args.term < n.currentTerm ∧ n.handleRequestVote args = (n, ⟨n.currentTerm, false⟩)) ∨
    (n.currentTerm ≤ args.term ∧
      n.handleRequestVote args = (n.adopt args.term, ⟨(n.adopt args.term).currentTerm, false⟩)) ∨
    (n.currentTerm ≤ args.term ∧
      ((n.adopt args.term).votedFor = "" ∨ (n.adopt args.term).votedFor = args.candidateID) ∧
      ((n.adopt args.term).lastLogTermLocked < args.lastLogTerm ∨
        (args.lastLogTerm = (n.adopt args.term).lastLogTermLocked ∧
          (n.adopt args.term).lastLogIndexLocked ≤ args.lastLogIndex)) ∧
      n.handleRequestVote args = ({ n.adopt args.term with
            votedFor := args.candidateID
            storage := (n.adopt args.term).storage.saveTermAndVote
              (n.adopt args.term).currentTerm args.candidateID },
          ⟨(n.adopt args.term).currentTerm, true⟩)) := by
  by_cases hlt : args.term < n.currentTerm
  · exact Or.inl ⟨hlt, by rw [handleRequestVote, if_pos hlt]⟩
  · right
    have hle : n.currentTerm ≤ args.term := not_lt.mp hlt
    -- a free vote, and a log of the candidate that is at least as up to date
    by_cases hg : ((n.adopt args.term).votedFor = "" ∨
        (n.adopt args.term).votedFor = args.candidateID) ∧
      ((n.adopt args.term).lastLogTermLocked < args.lastLogTerm ∨
        (args.lastLogTerm = (n.adopt args.term).lastLogTermLocked ∧
          (n.adopt args.term).lastLogIndexLocked ≤ args.lastLogIndex))
    · refine Or.inr ⟨hle, hg.1, hg.2, ?_⟩
      rw [handleRequestVote, if_neg hlt]
      exact if_pos hg
    · refine Or.inl ⟨hle, ?_⟩
      rw [handleRequestVote, if_neg hlt]
      exact if_neg hg

/-- `followLeader` adopts the term and becomes a follower of the sender. -/
theorem followLeader_eq {t : ℕ} (h : n.currentTerm ≤ t) (l : String) :
    n.followLeader t l = { n.adopt t with state := .follower, leaderID := l } := by
  unfold followLeader adopt
  split
  · rfl
  · split
    · rw [n.becomeFollowerLocked_of_le (by omega)]
    · rfl

/-- What a reply can do to the node that campaigned in `term`. -/
theorem handleRequestVoteReply_cases (term votes : ℕ) (r : RequestVoteReply) :
    (n.currentTerm < r.term ∧
      n.handleRequestVoteReply term votes r = (n.becomeFollowerLocked r.term, votes)) ∨
    (r.term ≤ n.currentTerm ∧ n.handleRequestVoteReply term votes r = (n, votes)) ∨
    (r.term ≤ n.currentTerm ∧ n.state = .candidate ∧ n.currentTerm = term ∧ r.voteGranted = true ∧
      ((votes + 1 < n.majority ∧ n.handleRequestVoteReply term votes r = (n, votes + 1)) ∨
        (n.majority ≤ votes + 1 ∧
          n.handleRequestVoteReply term votes r = (n.becomeLeaderLocked, votes + 1)))) := by
  unfold handleRequestVoteReply
  by_cases h1 : n.currentTerm < r.term
  · exact Or.inl ⟨h1, if_pos h1⟩
  · right
    rw [if_neg h1]
    by_cases h2 : n.state ≠ .candidate ∨ n.currentTerm ≠ term
    · exact Or.inl ⟨not_lt.mp h1, if_pos h2⟩
    · rw [if_neg h2]
      push Not at h2
      by_cases h3 : r.voteGranted = true
      · rw [if_pos h3]
        refine Or.inr ⟨not_lt.mp h1, h2.1, h2.2, h3, ?_⟩
        by_cases h4 : n.majority ≤ votes + 1
        · exact Or.inr ⟨h4, if_pos h4⟩
        · exact Or.inl ⟨not_le.mp h4, if_neg h4⟩
      · exact Or.inl ⟨not_lt.mp h1, by rw [if_neg h3]⟩

theorem adopt_of_le {t : ℕ} (h : t ≤ n.currentTerm) : n.adopt t = n :=
  if_neg (not_lt.mpr h)

theorem adopt_of_lt {t : ℕ} (h : n.currentTerm < t) : n.adopt t = n.becomeFollowerLocked t :=
  if_pos h

/-- Only a node that was there already is not a follower in the adopted term. -/
theorem adopt_of_state {t : ℕ} (h : (n.adopt t).state ≠ .follower) : n.adopt t = n := by
  rcases Nat.lt_or_ge n.currentTerm t with hlt | hle
  · rw [n.adopt_of_lt hlt, n.becomeFollowerLocked_of_lt hlt] at h
    exact absurd rfl h
  · exact n.adopt_of_le hle

theorem handleAppendEntries_stale {args : AppendEntriesArgs} (h : args.term < n.currentTerm) :
    n.handleAppendEntries args = (n, ⟨n.currentTerm, false, 0⟩) :=
  if_pos h

/-- `HandleAppendEntries` adopts the term of the request and touches neither term nor
vote otherwise. -/
theorem handleAppendEntries_sameVote (args : AppendEntriesArgs) :
    SameVote (n.adopt args.term) (n.handleAppendEntries args).1 := by
  by_cases hlt : args.term < n.currentTerm
  · rw [n.handleAppendEntries_stale hlt, n.adopt_of_le (Nat.le_of_lt hlt)]
    exact SameVote.refl n
  · have hfollow : SameVote (n.adopt args.term) (n.followLeader args.term args.leaderID) := by
      rw [n.followLeader_eq (not_lt.mp hlt)]
      exact ⟨rfl, rfl, rfl, rfl, rfl, rfl, rfl, Or.inr rfl⟩
    unfold handleAppendEntries
    rw [if_neg hlt]
    simp only
    split
    · exact hfollow
    · exact hfollow.trans ((appendMissing_sameVote _ _ _).trans (advanceCommit_sameVote _ _))

/-- **What the answer of `peer` can do** to the node that gets it: make it a follower of a newer
term, move `nextIndex`, or, if it acknowledges the indices up to `m`, raise `matchIndex` and count
the replicas. -/
inductive Answered (peer : String) (term m : ℕ) (acks : Prop) : Node σ → Prop
  | newer (h : n.currentTerm < term) : Answered peer term m acks (n.becomeFollowerLocked term)
  | moved (h : term ≤ n.currentTerm) (next : String → ℕ) :
      Answered peer term m acks { n with nextIndex := next }
  | recorded (h : term ≤ n.currentTerm) (hacks : acks) (next : String → ℕ) :
      Answered peer term m acks (maybeAdvanceCommitIndexLocked { n with
          nextIndex := next
          matchIndex := Function.update n.matchIndex peer (max m (n.matchIndex peer)) })

theorem handleAppendEntriesReply_cases (peer : String) (args : AppendEntriesArgs)
    (r : AppendEntriesReply) :
    n.Answered peer r.term (args.prevLogIndex + args.entries.length)
      (n.currentTerm = args.term ∧ r.success = true) (n.handleAppendEntriesReply peer args r) := by
  unfold handleAppendEntriesReply
  split
  · next h => exact .newer h
  · next h =>
    have h := not_lt.mp h
    split
    · exact .moved h _
    · next hlead =>
      push Not at hlead
      split
      · next hs => exact .recorded h ⟨hlead.2, hs⟩ _
      · split
        · exact .moved h _
        · split
          · exact .moved h _
          · exact .moved h _

theorem handleInstallSnapshotReply_cases (peer : String) (args : InstallSnapshotArgs)
    (r : InstallSnapshotReply) :
    n.Answered peer r.term args.lastIncludedIndex (n.currentTerm = args.term)
      (n.handleInstallSnapshotReply peer args r) := by
  unfold handleInstallSnapshotReply
  split
  · next h => exact .newer h
  · next h =>
    split
    · exact .moved (not_lt.mp h) _
    · next hlead =>
      push Not at hlead
      exact .recorded (not_lt.mp h) hlead.2 _

/-- An answer makes its receiver adopt the term. -/
theorem Answered.sameVote {n n' : Node σ} {peer : String} {term m : ℕ} {acks : Prop}
    (h : n.Answered peer term m acks n') : SameVote (n.adopt term) n' := by
  cases h with
  | newer h => rw [n.adopt_of_lt h]; exact SameVote.refl _
  | moved h next =>
    rw [n.adopt_of_le h]
    exact ⟨rfl, rfl, rfl, rfl, rfl, rfl, rfl, Or.inl rfl⟩
  | recorded h hacks next =>
    rw [n.adopt_of_le h]
    refine SameVote.trans ?_ (maybeAdvanceCommitIndexLocked_sameVote _)
    exact ⟨rfl, rfl, rfl, rfl, rfl, rfl, rfl, Or.inl rfl⟩

/-- The first section of `HandleInstallSnapshot` on a request that is not stale. -/
theorem installSnapshotBegin_eq {args : InstallSnapshotArgs} (h : n.currentTerm ≤ args.term) :
    n.installSnapshotBegin args =
      ({ n.adopt args.term with state := .follower, leaderID := args.leaderID },
        if args.lastIncludedIndex ≤ (n.adopt args.term).logBaseIndex then
          some ⟨(n.adopt args.term).currentTerm⟩ else none) := by
  rw [installSnapshotBegin, if_neg (not_lt.mpr h)]
  unfold adopt
  by_cases hlt : n.currentTerm < args.term
  · simp only [if_pos hlt]
    split <;> rfl
  · simp only [if_neg hlt]
    split <;> rfl

theorem installSnapshotBegin_sameVote (args : InstallSnapshotArgs) :
    SameVote (n.adopt args.term) (n.installSnapshotBegin args).1 := by
  by_cases hlt : args.term < n.currentTerm
  · rw [installSnapshotBegin, if_pos hlt, n.adopt_of_le (Nat.le_of_lt hlt)]
    exact SameVote.refl n
  · rw [n.installSnapshotBegin_eq (not_lt.mp hlt)]
    exact ⟨rfl, rfl, rfl, rfl, rfl, rfl, rfl, Or.inr rfl⟩

/-- What `NewNode` makes of a storage. -/
theorem newNode_eq {M : StateMachine σ} {id : String} {peers : List String} {st : Storage}
    {sm : σ} {opts : Options} (h : newNode M id peers st sm opts = some n) :
    ∃ sm' i t, (st.snapshot = none ∧ sm' = sm ∧ i = 0 ∧ t = 0 ∨
        ∃ s, st.snapshot = some s ∧ M.restore sm s.data = some sm' ∧
          i = s.lastIncludedIndex ∧ t = s.lastIncludedTerm) ∧
      n = { id := id, peers := peers, storage := st, stateMachine := sm', opts := opts
            currentTerm := st.term, votedFor := st.votedFor, log := st.log
            logBaseIndex := i, logBaseTerm := t, state := .follower
            commitIndex := i, lastApplied := i
            leaderID := "", nextIndex := fun _ => 0, matchIndex := fun _ => 0 } := by
  unfold newNode Storage.loadTermAndVote Storage.loadSnapshot Storage.loadLog at h
  simp only at h
  split at h
  · next hs => exact ⟨sm, 0, 0, Or.inl ⟨hs, rfl, rfl, rfl⟩, (Option.some.inj h).symm⟩
  · next s hs =>
    obtain ⟨sm', hsm, hn⟩ := Option.map_eq_some_iff.mp h
    exact ⟨sm', s.lastIncludedIndex, s.lastIncludedTerm, Or.inr ⟨s, hs, hsm, rfl, rfl⟩, hn.symm⟩

end Node

/-! ### Functions that leave the log alone -/

/-- `n'` has the log and the base of `n`, and the same log and snapshot on storage. -/
structure SameLog (n n' : Node σ) : Prop where
  log : n'.log = n.log
  base : n'.logBaseIndex = n.logBaseIndex
  baseTerm : n'.logBaseTerm = n.logBaseTerm
  storedLog : n'.storage.log = n.storage.log
  snapshot : n'.storage.snapshot = n.storage.snapshot

namespace SameLog

variable {n n' n'' : Node σ}

theorem refl (n : Node σ) : SameLog n n :=
  ⟨rfl, rfl, rfl, rfl, rfl⟩

theorem trans (h₁ : SameLog n n') (h₂ : SameLog n' n'') : SameLog n n'' :=
  ⟨h₂.log.trans h₁.log, h₂.base.trans h₁.base, h₂.baseTerm.trans h₁.baseTerm,
    h₂.storedLog.trans h₁.storedLog, h₂.snapshot.trans h₁.snapshot⟩

theorem symm (h : SameLog n n') : SameLog n' n :=
  ⟨h.log.symm, h.base.symm, h.baseTerm.symm, h.storedLog.symm, h.snapshot.symm⟩

theorem lastLogIndexLocked (h : SameLog n n') : n'.lastLogIndexLocked = n.lastLogIndexLocked := by
  unfold Node.lastLogIndexLocked
  rw [h.log, h.base]

theorem termAtLocked (h : SameLog n n') (i : ℕ) : n'.termAtLocked i = n.termAtLocked i := by
  unfold Node.termAtLocked
  rw [h.lastLogIndexLocked, h.log, h.base, h.baseTerm]

end SameLog

namespace Node

variable (n : Node σ)

theorem becomeFollowerLocked_sameLog (t : ℕ) : SameLog n (n.becomeFollowerLocked t) := by
  unfold becomeFollowerLocked
  simp only
  split
  · exact ⟨rfl, rfl, rfl, rfl, rfl⟩
  · exact ⟨rfl, rfl, rfl, rfl, rfl⟩

theorem adopt_sameLog (t : ℕ) : SameLog n (n.adopt t) := by
  unfold adopt
  split
  · exact n.becomeFollowerLocked_sameLog t
  · exact SameLog.refl n

theorem handleRequestVote_sameLog (args : RequestVoteArgs) :
    SameLog n (n.handleRequestVote args).1 := by
  rcases n.handleRequestVote_cases args with ⟨-, h⟩ | ⟨-, h⟩ | ⟨-, -, -, h⟩
  · rw [h]; exact SameLog.refl n
  · rw [h]; exact n.adopt_sameLog _
  · rw [h]; exact (n.adopt_sameLog args.term).trans ⟨rfl, rfl, rfl, rfl, rfl⟩

theorem advanceCommit_sameLog (k : ℕ) : SameLog n (n.advanceCommit k) := by
  unfold advanceCommit
  split
  · exact ⟨rfl, rfl, rfl, rfl, rfl⟩
  · exact SameLog.refl n

theorem maybeAdvanceCommitIndexLocked_sameLog : SameLog n n.maybeAdvanceCommitIndexLocked := by
  obtain ⟨i, h⟩ := n.maybeAdvanceCommitIndexLocked_eq
  rw [h]
  exact ⟨rfl, rfl, rfl, rfl, rfl⟩

/-- An answer leaves the log alone. -/
theorem Answered.sameLog {n n' : Node σ} {peer : String} {term m : ℕ} {acks : Prop}
    (h : n.Answered peer term m acks n') : SameLog n n' := by
  cases h with
  | newer h => exact n.becomeFollowerLocked_sameLog _
  | moved h next => exact ⟨rfl, rfl, rfl, rfl, rfl⟩
  | recorded h hacks next =>
    refine SameLog.trans ?_ (maybeAdvanceCommitIndexLocked_sameLog _)
    exact ⟨rfl, rfl, rfl, rfl, rfl⟩

/-- What the leader may record about its peers: an acknowledgement raises the match index of the
peer, and nothing else does. -/
theorem Answered.matchIndex {n n' : Node σ} {peer : String} {term m : ℕ} {acks : Prop}
    (h : n.Answered peer term m acks n') (p : String) :
    n'.matchIndex p ≤ n.matchIndex p ∨
      (p = peer ∧ acks ∧ n'.matchIndex p ≤ max m (n.matchIndex p)) := by
  cases h with
  | newer h => left; unfold becomeFollowerLocked; simp only; split <;> exact le_refl _
  | moved h next => exact Or.inl le_rfl
  | recorded h hacks next =>
    obtain ⟨i, hi⟩ := maybeAdvanceCommitIndexLocked_eq { n with
      nextIndex := next
      matchIndex := Function.update n.matchIndex peer (max m (n.matchIndex peer)) }
    rw [hi]
    by_cases hp : p = peer
    · subst hp
      exact Or.inr ⟨rfl, hacks, le_of_eq (Function.update_self ..)⟩
    · exact Or.inl (le_of_eq (Function.update_of_ne hp ..))

/-- Following the sender of a current request. -/
def follow (t : ℕ) (leaderID : String) : Node σ :=
  { n.adopt t with state := .follower, leaderID := leaderID }

theorem follow_sameLog (t : ℕ) (l : String) : SameLog n (n.follow t l) :=
  (n.adopt_sameLog t).trans ⟨rfl, rfl, rfl, rfl, rfl⟩

theorem follow_commitIndex (t : ℕ) (l : String) : (n.follow t l).commitIndex = n.commitIndex := by
  unfold follow adopt becomeFollowerLocked
  split
  · simp only; split <;> rfl
  · rfl

/-- The consistency check passes exactly when the previous entry is in the log. -/
theorem checkPrevLog_eq_none_iff (i t : ℕ) : n.checkPrevLog i t = none ↔
    i = 0 ∨ (n.logBaseIndex ≤ i ∧ i ≤ n.lastLogIndexLocked ∧ n.termAtLocked i = t) := by
  unfold checkPrevLog
  by_cases h0 : 0 < i
  · rw [if_pos h0]
    by_cases h1 : i < n.logBaseIndex
    · rw [if_pos h1]; simp only [reduceCtorEq, false_iff]; omega
    · rw [if_neg h1]
      by_cases h2 : n.lastLogIndexLocked < i
      · rw [if_pos h2]; simp only [reduceCtorEq, false_iff]; omega
      · rw [if_neg h2]
        by_cases h3 : n.termAtLocked i = t
        · rw [if_neg (not_not.mpr h3)]; simp only [true_iff]; omega
        · rw [if_pos h3]; simp only [reduceCtorEq, false_iff]; omega
  · rw [if_neg h0]; simp only [true_iff]; omega

/-- The check reads the log only. -/
theorem checkPrevLog_congr {n n' : Node σ} (h : SameLog n n') (i t : ℕ) :
    n'.checkPrevLog i t = none ↔ n.checkPrevLog i t = none := by
  rw [n.checkPrevLog_eq_none_iff, n'.checkPrevLog_eq_none_iff, h.base, h.lastLogIndexLocked,
    h.termAtLocked]

/-- What `HandleAppendEntries` answers with success, read off the receiver before the call: a request
that is not stale, with an entry before its first that the log has. -/
def Accepts (args : AppendEntriesArgs) : Prop :=
  n.currentTerm ≤ args.term ∧ n.checkPrevLog args.prevLogIndex args.prevLogTerm = none

instance Accepts.decidable (args : AppendEntriesArgs) : Decidable (n.Accepts args) :=
  inferInstanceAs (Decidable (_ ∧ _))

/-- `HandleAppendEntries` rejects as stale, rejects after following the sender, or runs
the append loop and moves the commit index. -/
theorem handleAppendEntries_cases (args : AppendEntriesArgs) : (args.term < n.currentTerm ∧
      n.handleAppendEntries args = (n, ⟨n.currentTerm, false, 0⟩)) ∨
    (n.currentTerm ≤ args.term ∧ n.checkPrevLog args.prevLogIndex args.prevLogTerm ≠ none ∧
      ∃ i, n.handleAppendEntries args = (n.follow args.term args.leaderID, ⟨args.term, false, i⟩)) ∨
    (n.currentTerm ≤ args.term ∧ n.checkPrevLog args.prevLogIndex args.prevLogTerm = none ∧
      n.handleAppendEntries args =
        (((n.follow args.term args.leaderID).appendMissing (args.prevLogIndex + 1)
            args.entries).advanceCommit args.leaderCommit, ⟨args.term, true, 0⟩)) := by
  by_cases hlt : args.term < n.currentTerm
  · exact Or.inl ⟨hlt, n.handleAppendEntries_stale hlt⟩
  · right
    have hle : n.currentTerm ≤ args.term := not_lt.mp hlt
    have hsame := n.follow_sameLog args.term args.leaderID
    have hterm : (n.follow args.term args.leaderID).currentTerm = args.term :=
      n.adopt_currentTerm hle
    have hsv := ((n.follow args.term args.leaderID).appendMissing_sameVote args.entries
      (args.prevLogIndex + 1)).trans (advanceCommit_sameVote _ args.leaderCommit)
    have hfollow : n.followLeader args.term args.leaderID = n.follow args.term args.leaderID :=
      n.followLeader_eq hle args.leaderID
    -- the check reads the log only, which following the sender leaves alone
    cases hc : (n.follow args.term args.leaderID).checkPrevLog args.prevLogIndex
        args.prevLogTerm with
    | some i =>
      refine Or.inl ⟨hle, fun h => ?_, i, ?_⟩
      · cases hc.symm.trans ((checkPrevLog_congr hsame _ _).mpr h)
      · rw [handleAppendEntries, if_neg hlt, hfollow]
        simp only [hc, hterm]
    | none =>
      refine Or.inr ⟨hle, (checkPrevLog_congr hsame _ _).mp hc, ?_⟩
      rw [handleAppendEntries, if_neg hlt, hfollow]
      simp only [hc, hsv.currentTerm, hterm]

theorem accepts_iff (args : AppendEntriesArgs) :
    n.Accepts args ↔ (n.handleAppendEntries args).2.success = true := by
  obtain ⟨hlt, heq⟩ | ⟨-, hc, i, heq⟩ | ⟨hle, hc, heq⟩ := n.handleAppendEntries_cases args
  · rw [heq]; exact iff_of_false (fun h => hlt.not_ge h.1) (by simp)
  · rw [heq]; exact iff_of_false (fun h => hc h.2) (by simp)
  · rw [heq]; exact iff_of_true ⟨hle, hc⟩ rfl

/-- Who is still leader after an `AppendEntries` has refused it. -/
theorem handleAppendEntries_of_leader {args : AppendEntriesArgs}
    (h : (n.handleAppendEntries args).1.state = .leader) :
    (n.handleAppendEntries args).1 = n := by
  have hfollower : (n.follow args.term args.leaderID).state = .follower := rfl
  obtain ⟨-, heq⟩ | ⟨-, -, i, heq⟩ | ⟨-, -, heq⟩ := n.handleAppendEntries_cases args
  · rw [heq]
  · rw [heq] at h
    cases hfollower.symm.trans h
  · rw [heq] at h
    have hstate := ((appendMissing_sameVote (n.follow args.term args.leaderID) args.entries
      (args.prevLogIndex + 1)).trans (advanceCommit_sameVote _ args.leaderCommit)).state
    rw [hfollower, or_self] at hstate
    cases hstate.symm.trans h

/-! ### Index arithmetic -/

/-- `log[i].Index = logBaseIndex + i + 1`. -/
def Dense : Prop :=
  ∀ i e, n.log[i]? = some e → e.index = n.logBaseIndex + i + 1

variable {n} {idx : ℕ}

theorem Dense.lastLogIndexLocked (h : n.Dense) :
    n.lastLogIndexLocked = n.logBaseIndex + n.log.length := by
  unfold Node.lastLogIndexLocked
  cases hl : n.log.getLast? with
  | none =>
    -- an empty log ends at the base
    rw [List.getLast?_eq_none_iff.mp hl]; rfl
  | some e =>
    have hpos : 0 < n.log.length := by
      rcases Nat.eq_zero_or_pos n.log.length with h0 | h0
      · rw [List.length_eq_zero_iff.mp h0] at hl; cases hl
      · exact h0
    have he : n.log[n.log.length - 1]? = some e := by rw [← List.getLast?_eq_getElem?]; exact hl
    have := h _ e he
    simp only
    omega

/-- Inside the log `termAtLocked` reads the entry. -/
theorem Dense.termAtLocked (h : n.Dense) {e : LogEntry} (hb : n.logBaseIndex < idx)
    (he : n.log[idx - n.logBaseIndex - 1]? = some e) : n.termAtLocked idx = e.term := by
  have hi := (List.getElem?_eq_some_iff.mp he).1
  unfold Node.termAtLocked
  rw [h.lastLogIndexLocked, if_neg (by omega), if_neg (by omega), if_neg (by omega), he]

/-- An index past the base and within the log has an entry. -/
theorem Dense.getElem?_of_le (h : n.Dense) (hb : n.logBaseIndex < idx)
    (hl : idx ≤ n.lastLogIndexLocked) : ∃ e, n.log[idx - n.logBaseIndex - 1]? = some e := by
  rw [h.lastLogIndexLocked] at hl
  exact ⟨_, List.getElem?_eq_getElem (by omega)⟩

section Filter

variable {b : ℕ} {l : List LogEntry} (h : ∀ i e, l[i]? = some e → e.index = b + i + 1)
include h

theorem index_le_of_mem_take {k : ℕ} {e : LogEntry} (he : e ∈ l.take k) : e.index ≤ b + k := by
  obtain ⟨i, hi⟩ := List.mem_iff_getElem?.mp he
  have hik : i < k := by
    have := (List.getElem?_eq_some_iff.mp hi).1
    rw [List.length_take] at this
    omega
  rw [List.getElem?_take_of_lt hik] at hi
  have := h i e hi
  omega

theorem lt_index_of_mem_drop {k : ℕ} {e : LogEntry} (he : e ∈ l.drop k) : b + k < e.index := by
  obtain ⟨i, hi⟩ := List.mem_iff_getElem?.mp he
  rw [List.getElem?_drop] at hi
  have := h (k + i) e hi
  omega

/-- On a dense log, dropping the entries from an index on is taking a prefix. -/
theorem filter_lt_of_dense (k : ℕ) : (l.filter fun e => e.index < b + k + 1) = l.take k := by
  -- all of the first `k` entries pass, and none of the others
  conv_lhs => rw [← List.take_append_drop k l, List.filter_append]
  rw [List.filter_eq_self.mpr, List.filter_eq_nil_iff.mpr, List.append_nil]
  · intro e he
    have := lt_index_of_mem_drop h he
    simp only [decide_eq_true_eq]
    omega
  · intro e he
    have := index_le_of_mem_take h he
    simp only [decide_eq_true_eq]
    omega

/-- On a dense log, dropping the entries up to an index is dropping a prefix. -/
theorem filter_gt_of_dense (k : ℕ) : (l.filter fun e => b + k < e.index) = l.drop k := by
  conv_lhs => rw [← List.take_append_drop k l, List.filter_append]
  rw [List.filter_eq_nil_iff.mpr, List.nil_append, List.filter_eq_self.mpr]
  · intro e he
    have := lt_index_of_mem_drop h he
    simp only [decide_eq_true_eq]
    omega
  · intro e he
    have := index_le_of_mem_take h he
    simp only [decide_eq_true_eq]
    omega

end Filter

/-- On a dense log, discarding a prefix moves the base to the clamped index and drops
exactly the entries up to it. -/
theorem Dense.discardLogPrefixLocked (h : n.Dense) {index term : ℕ} (hb : n.logBaseIndex < index) :
    n.discardLogPrefixLocked index term = { n with
        log := n.log.drop (min index n.lastLogIndexLocked - n.logBaseIndex)
        logBaseIndex := min index n.lastLogIndexLocked
        logBaseTerm := term
        storage := n.storage.discardLogThrough (min index n.lastLogIndexLocked) } := by
  have hclamp : (if n.lastLogIndexLocked < index then n.lastLogIndexLocked else index) =
      min index n.lastLogIndexLocked := by
    split
    · rw [Nat.min_def]; split <;> omega
    · rw [Nat.min_def]; split <;> omega
  have hlast := h.lastLogIndexLocked
  have hge : n.logBaseIndex ≤ min index n.lastLogIndexLocked := by
    rw [Nat.min_def]; split <;> omega
  have hle : min index n.lastLogIndexLocked - n.logBaseIndex ≤ n.log.length := by
    have := Nat.min_le_right index n.lastLogIndexLocked
    omega
  unfold Node.discardLogPrefixLocked
  rw [if_neg (not_le.mpr hb)]
  simp only [hclamp]
  rw [if_neg (not_lt.mpr hge), Nat.min_eq_left hle]

theorem Dense.discard (h : n.Dense) (index term : ℕ) :
    (n.discardLogPrefixLocked index term).Dense := by
  by_cases hb : n.logBaseIndex < index
  · rw [h.discardLogPrefixLocked hb]
    intro i e he
    simp only [List.getElem?_drop] at he
    have := h _ e he
    have hge : n.logBaseIndex ≤ min index n.lastLogIndexLocked := by
      rw [h.lastLogIndexLocked, Nat.min_def]; split <;> omega
    simp only
    omega
  · unfold Node.discardLogPrefixLocked
    rw [if_pos (not_lt.mp hb)]
    exact h

/-! ### The append loop -/

/-- Write `es` into the log `l` from position `pos` on: keep what is there as long as
the terms agree, and replace everything from the first disagreement. -/
def splice (l : List LogEntry) : ℕ → List LogEntry → List LogEntry
  | _, [] => l
  | pos, e :: es =>
    match l[pos]? with
    | none => l ++ (e :: es)
    | some x => if x.term = e.term then splice l (pos + 1) es else l.take pos ++ (e :: es)

/-- The entries of a batch have the leader's term and consecutive indices. -/
theorem batchEntries_getElem? {t : ℕ} (cmds : List Bytes) : ∀ {k i : ℕ} {e : LogEntry},
    (batchEntries t k cmds)[i]? = some e → e.term = t ∧ e.index = k + i := by
  induction cmds with
  | nil => intro k i e h; cases h
  | cons cmd cmds ih =>
    intro k i e h
    cases i with
    | zero =>
      obtain rfl : (⟨t, k, cmd⟩ : LogEntry) = e := Option.some.inj h
      exact ⟨rfl, rfl⟩
    | succ i =>
      obtain ⟨ht, hi⟩ := ih (k := k + 1) (i := i) h
      exact ⟨ht, by omega⟩

/-- The node with another log, in memory and on storage. -/
def withLog (n : Node σ) (l : List LogEntry) : Node σ :=
  { n with log := l, storage := { n.storage with log := l } }

theorem withLog_self (hs : n.storage.log = n.log) : n.withLog n.log = n := by
  cases n with
  | mk id peers storage => cases storage; cases hs; rfl

theorem appendLogLocked_eq (hs : n.storage.log = n.log) (es : List LogEntry) :
    n.appendLogLocked es = n.withLog (n.log ++ es) := by
  unfold appendLogLocked
  split
  · next h => rw [h, List.append_nil, withLog_self hs]
  · unfold withLog Storage.appendEntries; rw [hs]

theorem truncateLogFromLocked_eq (hd : n.Dense) (hs : n.storage.log = n.log)
    (hb : n.logBaseIndex < idx) (hl : idx ≤ n.lastLogIndexLocked) :
    n.truncateLogFromLocked idx = n.withLog (n.log.take (idx - n.logBaseIndex - 1)) := by
  unfold truncateLogFromLocked
  rw [if_neg (by omega)]
  unfold withLog Storage.truncateFrom
  rw [hs, ← filter_lt_of_dense hd, show n.logBaseIndex + (idx - n.logBaseIndex - 1) + 1 = idx by
    omega]

/-- **The append loop splices.** -/
theorem appendMissing_eq (hd : n.Dense) (hs : n.storage.log = n.log) (es : List LogEntry) :
    ∀ idx, n.logBaseIndex < idx →
      n.appendMissing idx es = n.withLog (splice n.log (idx - n.logBaseIndex - 1) es) := by
  -- the loop and `splice` recurse on the entries in step; the node itself does not
  -- change until the loop ends
  induction es with
  | nil => intro idx _; exact (withLog_self hs).symm
  | cons e es ih =>
    intro idx hb
    unfold appendMissing
    by_cases hl : idx ≤ n.lastLogIndexLocked
    · obtain ⟨x, hx⟩ := hd.getElem?_of_le hb hl
      rw [if_pos hl, hd.termAtLocked hb hx]
      unfold splice
      rw [hx]
      simp only
      by_cases ht : x.term = e.term
      · rw [if_pos ht, if_pos ht, ih (idx + 1) (by omega)]
        congr 2
        omega
      · rw [if_neg ht, if_neg ht, truncateLogFromLocked_eq hd hs hb hl]
        exact appendLogLocked_eq rfl _
    · -- past the end of the log: everything left is appended
      have hnone : n.log[idx - n.logBaseIndex - 1]? = none := by
        rw [List.getElem?_eq_none_iff]
        rw [hd.lastLogIndexLocked] at hl
        omega
      rw [if_neg hl]
      unfold splice
      rw [hnone]
      exact appendLogLocked_eq hs _

end Node

/-! ### Steps of a process -/

namespace Server

variable {M : StateMachine σ} {s s' : Server σ}

/-- **Inversion of `applyStep`**, one case per atomic step of `applyLoop`. -/
inductive ApplyCase (M : StateMachine σ) (s : Server σ) : Server σ → Option LogEntry → Prop
  | caughtUp (ha : s.applier = .idle) (h : s.node.commitIndex ≤ s.node.lastApplied) :
      ApplyCase M s { s with applier := .caughtUp } none
  | fetch (e : LogEntry) (ha : s.applier = .idle) (hlt : s.node.lastApplied < s.node.commitIndex)
      (hb : s.node.logBaseIndex ≤ s.node.lastApplied)
      (he : s.node.log[s.node.lastApplied - s.node.logBaseIndex]? = some e) :
      ApplyCase M s { s with
          node := { s.node with lastApplied := s.node.lastApplied + 1 }
          applier := .applying e } none
  | apply (e : LogEntry) (ha : s.applier = .applying e) :
      ApplyCase M s { s with node := s.node.applyEntry M e, applier := .idle } (some e)
  | noSnapshot (ha : s.applier = .caughtUp) : ApplyCase M s { s with applier := .idle } none
  | capture (ha : s.applier = .caughtUp) (hoff : 0 < s.node.opts.snapshotThreshold)
      (hlt : s.node.logBaseIndex < s.node.lastApplied) :
      ApplyCase M s { s with
          applier := .snapshotting s.node.lastApplied
            (s.node.termAtLocked s.node.lastApplied) } none
  | snapshotFailed (la t : ℕ) (ha : s.applier = .snapshotting la t) :
      ApplyCase M s { s with applier := .idle } none
  | snapshot (la t : ℕ) (data : Bytes) (ha : s.applier = .snapshotting la t)
      (h : M.snapshot s.node.stateMachine = some data) :
      ApplyCase M s { s with applier := .saving la t data } none
  | save (la t : ℕ) (data : Bytes) (ha : s.applier = .saving la t data) : ApplyCase M s
        { s with
          node := { s.node with storage := s.node.storage.saveSnapshot la t data }
          applier := .discarding la t } none
  | discard (la t : ℕ) (ha : s.applier = .discarding la t) : ApplyCase M s
        { s with node := s.node.discardLogPrefixLocked la t, applier := .idle } none

theorem applyStep_inv {r : Option LogEntry} (h : s.applyStep M = some (s', r)) :
    ApplyCase M s s' r := by
  unfold applyStep at h
  split at h
  · next ha =>
    split at h
    · cases h
    · next n hf =>
      cases h
      rcases s.node.applyFetch_cases hf with ⟨hle, rfl, -⟩ | ⟨e, -, -, -, -, he⟩
      · exact .caughtUp ha hle
      · cases he
    · next n e hf =>
      cases h
      rcases s.node.applyFetch_cases hf with ⟨-, -, he⟩ | ⟨e', hlt, hb, hget, rfl, he⟩
      · cases he
      · cases he
        exact .fetch e ha hlt hb hget
  · next e ha => cases h; exact .apply e ha
  · next ha =>
    split at h
    · cases h; exact .noSnapshot ha
    · next la t hc =>
      cases h
      -- of the three reasons not to snapshot two matter later on: snapshots are
      -- off, and nothing was applied since the last one
      unfold Node.maybeSnapshotCapture at hc
      split at hc
      · cases hc
      · next hoff =>
        split at hc
        · cases hc
        · next hlt =>
          cases hc
          exact .capture ha (Int.not_le.mp hoff) (not_le.mp (not_or.mp hlt).1)
  · next la t ha =>
    split at h
    · cases h; exact .snapshotFailed la t ha
    · next data hd =>
      cases h
      exact .snapshot la t data ha hd
  · next la t data ha =>
    cases h; exact .save la t data ha
  · next la t ha => cases h; exact .discard la t ha

/-- **Inversion of `installStep`**, one case per atomic step of `HandleInstallSnapshot`. -/
inductive InstallCase (M : StateMachine σ) (s : Server σ) (i : ℕ) :
    Server σ → Option (ℕ × InstallSnapshotReply) → Prop
  | save (th : Install) (hi : s.installs[i]? = some th) (hst : th.stage = .save) : InstallCase M s i
        { s with
          node := s.node.installSnapshotSave th.args
          installs := s.installs.set i { th with stage := .restore } } none
  | restoreFailed (th : Install) (hi : s.installs[i]? = some th) (hst : th.stage = .restore)
      (h : M.restore s.node.stateMachine th.args.data = none) :
      InstallCase M s i { s with installs := s.installs.eraseIdx i } (some (th.call, ⟨th.term⟩))
  | restore (th : Install) (sm : σ) (hi : s.installs[i]? = some th) (hst : th.stage = .restore)
      (h : M.restore s.node.stateMachine th.args.data = some sm) :
      InstallCase M s i { s with
          node := { s.node with stateMachine := sm }
          installs := s.installs.set i { th with stage := .finish } } none
  | finish (th : Install) (hi : s.installs[i]? = some th) (hst : th.stage = .finish) :
      InstallCase M s i { s with
          node := s.node.installSnapshotFinish th.args
          installs := s.installs.eraseIdx i }
        (some (th.call, ⟨(s.node.installSnapshotFinish th.args).currentTerm⟩))

theorem installStep_inv {i : ℕ} {r : Option (ℕ × InstallSnapshotReply)}
    (h : s.installStep M i = some (s', r)) : InstallCase M s i s' r := by
  unfold installStep at h
  split at h
  · cases h
  · next th hi =>
    split at h
    · next hst => cases h; exact .save th hi hst
    · next hst =>
      split at h
      · next hr =>
        cases h
        exact .restoreFailed th hi hst (Option.map_eq_none_iff.mp hr)
      · next n hr =>
        cases h
        obtain ⟨sm, hsm, rfl⟩ := Option.map_eq_some_iff.mp hr
        exact .restore th sm hi hst hsm
    · next hst => cases h; exact .finish th hi hst

/-- What the goroutines of a process leave alone. -/
structure SameCounters (s s' : Server σ) : Prop where
  node : SameVote s.node s'.node
  votes : s'.votes = s.votes
  snapshotSends : s'.snapshotSends = s.snapshotSends

theorem applyStep_same {r : Option LogEntry} (h : s.applyStep M = some (s', r)) :
    SameCounters s s' := by
  cases applyStep_inv h with
  | discard la t ha => exact ⟨s.node.discardLogPrefixLocked_sameVote _ _, rfl, rfl⟩
  | _ => exact ⟨⟨rfl, rfl, rfl, rfl, rfl, rfl, rfl, Or.inl rfl⟩, rfl, rfl⟩

theorem installStep_same {i : ℕ} {r : Option (ℕ × InstallSnapshotReply)}
    (h : s.installStep M i = some (s', r)) : SameCounters s s' := by
  cases installStep_inv h with
  | finish th hi hst => exact ⟨s.node.installSnapshotFinish_sameVote _, rfl, rfl⟩
  | _ => exact ⟨⟨rfl, rfl, rfl, rfl, rfl, rfl, rfl, Or.inl rfl⟩, rfl, rfl⟩

theorem installBegin_same {k : ℕ} {args : InstallSnapshotArgs} {r : Option InstallSnapshotReply}
    (h : s.installBegin k args = (s', r)) :
    SameVote (s.node.adopt args.term) s'.node ∧ s'.votes = s.votes ∧
      s'.snapshotSends = s.snapshotSends := by
  have hn := s.node.installSnapshotBegin_sameVote args
  unfold installBegin at h
  split at h
  · next hb => obtain ⟨rfl, -⟩ := Prod.mk.inj h; rw [hb] at hn; exact ⟨hn, rfl, rfl⟩
  · next hb => obtain ⟨rfl, -⟩ := Prod.mk.inj h; rw [hb] at hn; exact ⟨hn, rfl, rfl⟩

end Server

end Raft
end BoilerPulse
