import BoilerPulse.Raft.Appending
import BoilerPulse.Raft.Applying
import BoilerPulse.Raft.Commitment
import BoilerPulse.Raft.Hosting

/-!
# The order of a node's indices

`logBaseIndex ≤ lastApplied ≤ commitIndex ≤ lastLogIndex`, over a numbered log (`Ordered`), is
what keeps the slice expressions of `applyPending` and `sendAppendEntriesTo` within the log.
Nothing in the source checks it. Each function moves one or two of the four, and three of them
can break the order:

* `HandleAppendEntries` from index 0 on a compacted log, which loses the numbering (`Appending`);
* `HandleAppendEntries` that cuts the log at or below the commit index;
* `HandleInstallSnapshot` behind the commit index, which drops the log and leaves the commit index.

`Event.Safe` excludes these, one event of a process at a time, and `Indexed.step` says that nothing
else breaks the order: neither the interleaving of `applyLoop` with the installations, nor a leader
that counts replicas. In a cluster the requests come from the logs of other nodes, so they are
numbered whenever those logs are (`IndexRel`), and `index_order` follows by the invariant rule.
-/

namespace BoilerPulse
namespace Raft

open Framework

variable {σ : Type}

/-- **The indices of a node are in order**, over a numbered log. -/
structure Ordered (n : Node σ) : Prop where
  dense : n.Dense
  base_le : n.logBaseIndex ≤ n.lastApplied
  applied_le : n.lastApplied ≤ n.commitIndex
  commit_le : n.commitIndex ≤ n.lastLogIndexLocked

/-! ### How commit indices move -/

namespace Node

theorem appendLogLocked_commitIndex (n : Node σ) (es : List LogEntry) :
    (n.appendLogLocked es).commitIndex = n.commitIndex := by
  unfold appendLogLocked
  split <;> rfl

variable {n : Node σ}

theorem advanceCommitFrom_bounds (k : ℕ) : n.commitIndex ≤ (n.advanceCommitFrom k).commitIndex ∧
      (n.advanceCommitFrom k).commitIndex ≤ max n.commitIndex k := by
  induction k with
  | zero => exact ⟨le_rfl, le_max_left _ _⟩
  | succ k ih =>
    have hstep : max n.commitIndex k ≤ max n.commitIndex (k + 1) := max_le_max le_rfl k.le_succ
    unfold advanceCommitFrom
    split
    · next hlt =>
      split
      · exact ⟨ih.1, ih.2.trans hstep⟩
      · split
        · exact ⟨hlt.le, le_max_right _ _⟩
        · exact ⟨ih.1, ih.2.trans hstep⟩
    · exact ⟨le_rfl, le_max_left _ _⟩

theorem maybeAdvanceCommitIndexLocked_bounds :
    n.commitIndex ≤ n.maybeAdvanceCommitIndexLocked.commitIndex ∧
      n.maybeAdvanceCommitIndexLocked.commitIndex ≤ max n.commitIndex n.lastLogIndexLocked := by
  unfold maybeAdvanceCommitIndexLocked
  split
  · exact ⟨le_rfl, le_max_left _ _⟩
  · exact advanceCommitFrom_bounds _

theorem appendMissing_commitIndex (es : List LogEntry) : ∀ idx,
    (n.appendMissing idx es).commitIndex = n.commitIndex := by
  induction es with
  | nil => exact fun _ => rfl
  | cons e es ih =>
    intro idx
    unfold appendMissing
    split
    · split
      · exact ih (idx + 1)
      · rw [appendLogLocked_commitIndex]
        unfold truncateLogFromLocked
        split <;> rfl
    · exact n.appendLogLocked_commitIndex _

/-- An entry that is there is within the log. -/
theorem Dense.le_lastLogIndexLocked (h : n.Dense) {i : ℕ} {e : LogEntry}
    (he : n.entryAt i = some e) : i ≤ n.lastLogIndexLocked := by
  unfold entryAt at he
  split at he
  · cases he
  · have := (List.getElem?_eq_some_iff.mp he).1
    rw [h.lastLogIndexLocked]
    omega

/-- A request is accepted only if it leaves the numbering and the committed terms alone. -/
def Admits (n : Node σ) (args : AppendEntriesArgs) : Prop :=
  n.Accepts args → n.CoveredTerms args ∧ n.AgreesCommitted args

instance Admits.decidable (n : Node σ) (args : AppendEntriesArgs) : Decidable (n.Admits args) :=
  inferInstanceAs (Decidable (_ → _))

theorem Admits.keepsLog {args : AppendEntriesArgs} (h : n.Admits args) (hd : n.Dense)
    (hes : Consecutive (args.prevLogIndex + 1) args.entries) :
    n.KeepsLog args.entries (n.handleAppendEntries args).1 := by
  have hsame := n.follow_sameLog args.term args.leaderID
  obtain ⟨-, heq⟩ | ⟨-, -, i, heq⟩ | ⟨hle, hc, -⟩ := n.handleAppendEntries_cases args
  · rw [heq]; exact .of_log_eq hd _ rfl rfl
  · rw [heq]; exact .of_log_eq hd _ hsame.base hsame.log
  · obtain ⟨hcov, hagree⟩ := h ⟨hle, hc⟩
    exact hcov.keepsLog hd hes hagree

end Node

/-! ### The functions of a node -/

namespace Ordered

variable {n n' : Node σ}

/-- A step that moves neither the log nor the applied index, and the commit index at most to the end
of the log. -/
theorem of_sameLog (h : Ordered n) (hlog : SameLog n n') (hla : n'.lastApplied = n.lastApplied)
    (hle : n.commitIndex ≤ n'.commitIndex)
    (hmax : n'.commitIndex ≤ max n.commitIndex n.lastLogIndexLocked) : Ordered n' where
  dense := by unfold Node.Dense; rw [hlog.log, hlog.base]; exact h.dense
  base_le := by rw [hlog.base, hla]; exact h.base_le
  applied_le := by rw [hla]; exact h.applied_le.trans hle
  commit_le := by
    rw [hlog.lastLogIndexLocked]
    exact hmax.trans (max_le h.commit_le le_rfl)

theorem of_same (h : Ordered n) (hlog : SameLog n n') (hla : n'.lastApplied = n.lastApplied)
    (hci : n'.commitIndex = n.commitIndex) : Ordered n' :=
  h.of_sameLog hlog hla hci.ge (hci.le.trans (le_max_left _ _))

theorem follow (h : Ordered n) (t : ℕ) (l : String) : Ordered (n.follow t l) :=
  h.of_same (n.follow_sameLog t l) (n.follow_sameSnapshot t l).lastApplied
    (n.follow_commitIndex t l)

/-- **An accepted request** that keeps the log keeps the order. -/
theorem appendEntries (h : Ordered n) {args : AppendEntriesArgs} (hadm : n.Admits args)
    (hes : Consecutive (args.prevLogIndex + 1) args.entries) :
    Ordered (n.handleAppendEntries args).1 := by
  obtain ⟨-, heq⟩ | ⟨-, -, i, heq⟩ | ⟨-, -, heq⟩ := n.handleAppendEntries_cases args
  · rw [heq]; exact h
  · rw [heq]; exact h.follow _ _
  have hkeeps := hadm.keepsLog h.dense hes
  -- the last committed entry is still there
  have hlast : n.commitIndex ≤ (n.handleAppendEntries args).1.lastLogIndexLocked := by
    rcases Nat.lt_or_ge n.logBaseIndex n.commitIndex with hb | hb
    · obtain ⟨e, he⟩ := h.dense.exists_entryAt hb h.commit_le
      exact hkeeps.dense.le_lastLogIndexLocked (hkeeps.committed _ le_rfl e he)
    · rw [hkeeps.dense.lastLogIndexLocked, hkeeps.base]
      omega
  have hla : (n.handleAppendEntries args).1.lastApplied = n.lastApplied :=
    (Node.handle_sameSnapshot (h := .appendEntries args) rfl).lastApplied
  have hci : n.commitIndex ≤ (n.handleAppendEntries args).1.commitIndex ∧
      (n.handleAppendEntries args).1.commitIndex ≤
        (n.handleAppendEntries args).1.lastLogIndexLocked := by
    rw [heq] at hlast ⊢
    have hold : ((n.follow args.term args.leaderID).appendMissing (args.prevLogIndex + 1)
        args.entries).commitIndex = n.commitIndex := by
      rw [Node.appendMissing_commitIndex, n.follow_commitIndex]
    have hlast' := (Node.advanceCommit_sameLog ((n.follow args.term args.leaderID).appendMissing
      (args.prevLogIndex + 1) args.entries) args.leaderCommit).lastLogIndexLocked
    dsimp only at hlast ⊢
    rw [hlast'] at hlast ⊢
    unfold Node.advanceCommit
    split
    · next hlt =>
      rw [hold] at hlt
      exact ⟨le_min hlt.le hlast, min_le_right _ _⟩
    · rw [hold]
      exact ⟨le_rfl, hlast⟩
  exact ⟨hkeeps.dense, by rw [hkeeps.base, hla]; exact h.base_le,
    by rw [hla]; exact h.applied_le.trans hci.1, hci.2⟩

/-- **A batch of the leader** goes behind the end of the log. -/
theorem appendBatch (h : Ordered n) {batch : List Bytes} (hn : n.appendBatch batch = some n') :
    Ordered n' := by
  obtain ⟨-, rfl⟩ := Node.appendBatch_eq hn
  have hsame := n.appendLogLocked_sameSnapshot
    (Node.batchEntries n.currentTerm (n.lastLogIndexLocked + 1) batch)
  have hdense : (n.appendLogLocked (Node.batchEntries n.currentTerm (n.lastLogIndexLocked + 1)
      batch)).Dense := by
    rw [Node.dense_iff, hsame.base, Node.appendLogLocked_log, h.dense.lastLogIndexLocked]
    refine consecutive_iff.mpr fun j e he => ?_
    rcases Nat.lt_or_ge j n.log.length with hj | hj
    · rw [List.getElem?_append_left hj] at he
      rw [h.dense j e he]
      omega
    · rw [List.getElem?_append_right hj] at he
      rw [(Node.batchEntries_getElem? batch he).2]
      omega
  have hci : (n.appendLogLocked (Node.batchEntries n.currentTerm (n.lastLogIndexLocked + 1)
      batch)).commitIndex = n.commitIndex := n.appendLogLocked_commitIndex _
  refine ⟨hdense, by rw [hsame.base, hsame.lastApplied]; exact h.base_le,
    by rw [hsame.lastApplied, hci]; exact h.applied_le, ?_⟩
  rw [hci, hdense.lastLogIndexLocked, hsame.base, Node.appendLogLocked_log, List.length_append]
  have := h.commit_le
  rw [h.dense.lastLogIndexLocked] at this
  omega

/-- **Counting replicas.** -/
theorem advance (h : Ordered n) : Ordered n.maybeAdvanceCommitIndexLocked :=
  h.of_sameLog n.maybeAdvanceCommitIndexLocked_sameLog
    n.maybeAdvanceCommitIndexLocked_sameSnapshot.lastApplied
    Node.maybeAdvanceCommitIndexLocked_bounds.1 Node.maybeAdvanceCommitIndexLocked_bounds.2

theorem becomeFollower (h : Ordered n) (t : ℕ) : Ordered (n.becomeFollowerLocked t) :=
  h.of_same (n.becomeFollowerLocked_sameLog t) (n.becomeFollowerLocked_sameSnapshot t).lastApplied
    (n.becomeFollowerLocked_commitIndex t)

/-- **An answer of a peer.** -/
theorem answered (h : Ordered n) {peer : String} {term m : ℕ} {acks : Prop}
    (hn : n.Answered peer term m acks n') : Ordered n' := by
  cases hn with
  | newer hlt => exact h.becomeFollower _
  | moved hle next => exact h.of_same ⟨rfl, rfl, rfl, rfl, rfl⟩ rfl rfl
  | recorded hle hacks next => exact advance (h.of_same ⟨rfl, rfl, rfl, rfl, rfl⟩ rfl rfl)

end Ordered

/-- A request as leaders send them, that is accepted only if it leaves the numbering and the
committed terms alone. -/
def Handler.Safe (n : Node σ) : Handler → Prop
  | .appendEntries args => n.Admits args ∧ Consecutive (args.prevLogIndex + 1) args.entries
  | _ => True

instance Handler.Safe.decidable (n : Node σ) : (h : Handler) → Decidable (h.Safe n)
  | .appendEntries args => inferInstanceAs (Decidable (n.Admits args ∧ _))
  | .requestVote _ | .campaign | .voteReply _ _ _ | .entriesReply _ _ _ | .snapshotReply _ _ _
  | .propose _ => inferInstanceAs (Decidable True)

namespace Ordered

variable {n n' : Node σ}

/-- **The handlers** keep the order. -/
theorem handle (h : Ordered n) {hd : Handler} (hsafe : hd.Safe n) (hn : n.handle hd = some n') :
    Ordered n' := by
  cases hd with
  | requestVote args =>
    have hla := (Node.handle_sameSnapshot hn).lastApplied
    cases hn
    exact h.of_same (n.handleRequestVote_sameLog args) hla (n.handleRequestVote_commitIndex args)
  | appendEntries args =>
    cases hn
    exact h.appendEntries hsafe.1 hsafe.2
  | campaign =>
    obtain rfl := Node.handle_campaign hn
    exact h.of_same ⟨rfl, rfl, rfl, rfl, rfl⟩ rfl rfl
  | voteReply term votes r =>
    have hla := (Node.handle_sameSnapshot hn).lastApplied
    rcases Node.handle_log hn with hs | ⟨args, habs, -⟩ | ⟨batch, habs, -⟩
    · cases hn
      exact h.of_same hs hla (n.handleRequestVoteReply_commitIndex term votes r).1
    · cases habs
    · cases habs
  | entriesReply peer args r =>
    cases hn
    exact h.answered (n.handleAppendEntriesReply_cases peer args r)
  | snapshotReply peer args r =>
    cases hn
    exact h.answered (n.handleInstallSnapshotReply_cases peer args r)
  | propose batch => exact h.appendBatch hn

/-- **Discarding** what has been applied. -/
theorem discard (h : Ordered n) {index : ℕ} (hle : index ≤ n.lastApplied) (term : ℕ) :
    Ordered (n.discardLogPrefixLocked index term) := by
  by_cases hb : n.logBaseIndex < index
  · have hdense := h.dense.discard index term
    have hmin : min index n.lastLogIndexLocked = index :=
      min_eq_left (hle.trans (h.applied_le.trans h.commit_le))
    have heq : n.discardLogPrefixLocked index term = _ := h.dense.discardLogPrefixLocked hb
    rw [hmin] at heq
    refine ⟨hdense, by rw [heq]; exact hle, by rw [heq]; exact h.applied_le, ?_⟩
    -- the log still ends where it did
    rw [hdense.lastLogIndexLocked, heq]
    have hlast := h.dense.lastLogIndexLocked
    have hcommit := h.commit_le
    simp only [List.length_drop]
    omega
  · unfold Node.discardLogPrefixLocked
    rw [if_pos (not_lt.mp hb)]
    exact h

/-- **Installing** a snapshot that is ignored or reaches the commit index. -/
theorem finish (h : Ordered n) {args : InstallSnapshotArgs}
    (hreach : n.logBaseIndex < args.lastIncludedIndex → n.commitIndex ≤ args.lastIncludedIndex) :
    Ordered (n.installSnapshotFinish args) := by
  unfold Node.installSnapshotFinish
  split
  · exact h
  · next hlt =>
    have hci := hreach (not_le.mp hlt)
    refine ⟨nofun, le_max_left _ _, max_le_max le_rfl h.applied_le, ?_⟩
    exact max_le le_rfl hci

/-- The entry that `applyPending` fetches next is there. -/
theorem applyFetch_ne_none (h : Ordered n) : n.applyFetch ≠ none := by
  unfold Node.applyFetch
  split
  · simp
  · next hlt =>
    have hbase := h.base_le
    have hcommit := h.commit_le
    rw [h.dense.lastLogIndexLocked] at hcommit
    rw [if_neg (by omega), List.getElem?_eq_getElem (by omega)]
    simp

end Ordered

/-! ### The steps of a process -/

/-- The indices of a process: those of its node, and the one that `maybeSnapshot` has captured. -/
structure Indexed (s : Server σ) : Prop where
  node : Ordered s.node
  captured_le : ∀ la ∈ s.applier.captured, la ≤ s.node.lastApplied

/-- The index and the term that `maybeSnapshot` has captured, while it is in progress. -/
def Applier.snapshotAt : Applier → Option (ℕ × ℕ)
  | .snapshotting la t => some (la, t)
  | .saving la t _ => some (la, t)
  | .discarding la t => some (la, t)
  | .idle | .applying _ | .caughtUp => none

theorem Applier.captured_eq (a : Applier) : a.captured = a.snapshotAt.map Prod.fst := by
  cases a <;> rfl

/-- A snapshot is installed only if it reaches the commit index. -/
def Server.InstallReaches (s : Server σ) (i : ℕ) : Prop :=
  ∀ th ∈ s.installs[i]?, th.stage = .finish → s.node.logBaseIndex < th.args.lastIncludedIndex →
    s.node.commitIndex ≤ th.args.lastIncludedIndex

instance Server.InstallReaches.decidable (s : Server σ) (i : ℕ) : Decidable (s.InstallReaches i) :=
  inferInstanceAs (Decidable (∀ th ∈ s.installs[i]?, _ → _ → _))

/-- What an event must not do to the indices. -/
def Event.Safe (s : Server σ) : Event → Prop
  | .handle h => h.Safe s.node
  | .install i => s.InstallReaches i
  | .apply | .receive _ _ => True

namespace Indexed

variable {M : StateMachine σ} {s s' : Server σ} {n : Node σ}

theorem start (h : Ordered n) : Indexed (Server.start n) :=
  ⟨h, nofun⟩

/-- Another node, that has applied no less. -/
theorem setNode (h : Indexed s) (hn : Ordered n) (hla : s.node.lastApplied ≤ n.lastApplied)
    (ha : s'.applier = s.applier) (hs : s'.node = n) :
    Indexed s' where
  node := by rw [hs]; exact hn
  captured_le la hcap := by
    rw [ha] at hcap
    rw [hs]
    exact (h.captured_le la hcap).trans hla

theorem handle (h : Indexed s) {hd : Handler} (hsafe : hd.Safe s.node)
    (hn : s.node.handle hd = some n) (ha : s'.applier = s.applier) (hs : s'.node = n) :
    Indexed s' :=
  h.setNode (h.node.handle hsafe hn) (Node.handle_sameSnapshot hn).lastApplied.ge ha hs

theorem apply (h : Indexed s) {r : Option LogEntry} (hs : s.applyStep M = some (s', r)) :
    Indexed s' := by
  have hcap := h.captured_le
  cases Server.applyStep_inv hs with
  | caughtUp ha hle | noSnapshot ha | snapshotFailed la t ha => exact ⟨h.node, nofun⟩
  | fetch e ha hlt hb he =>
    refine ⟨⟨h.node.dense, ?_, hlt, h.node.commit_le⟩, nofun⟩
    exact Nat.le_succ_of_le h.node.base_le
  | apply e ha => exact ⟨h.node.of_same ⟨rfl, rfl, rfl, rfl, rfl⟩ rfl rfl, nofun⟩
  | capture ha hoff hlt => exact ⟨h.node, fun la hla => (Option.some.inj hla).ge⟩
  | snapshot la t data ha hd =>
    rw [ha] at hcap
    exact ⟨h.node, hcap⟩
  | save la t data ha =>
    rw [ha] at hcap
    exact ⟨⟨h.node.dense, h.node.base_le, h.node.applied_le, h.node.commit_le⟩, hcap⟩
  | discard la t ha =>
    rw [ha] at hcap
    exact ⟨h.node.discard (hcap la rfl) t, nofun⟩

/-- The last step of `maybeSnapshot` moves the base to the index captured, or does nothing. -/
theorem discard_cases (h : Indexed s) {la t : ℕ} (ha : s.applier = .discarding la t) :
    s.node.discardLogPrefixLocked la t = s.node ∨
      (s.node.logBaseIndex < la ∧ s.node.discardLogPrefixLocked la t = { s.node with
          log := s.node.log.drop (la - s.node.logBaseIndex)
          logBaseIndex := la
          logBaseTerm := t
          storage := s.node.storage.discardLogThrough la }) := by
  have hle := h.captured_le la (by rw [ha]; rfl)
  by_cases hb : s.node.logBaseIndex < la
  · refine Or.inr ⟨hb, ?_⟩
    rw [h.node.dense.discardLogPrefixLocked hb,
      min_eq_left (hle.trans (h.node.applied_le.trans h.node.commit_le))]
  · exact Or.inl (if_pos (not_lt.mp hb))

theorem install (h : Indexed s) {i : ℕ} (hreach : s.InstallReaches i)
    {r : Option (ℕ × InstallSnapshotReply)} (hs : s.installStep M i = some (s', r)) :
    Indexed s' := by
  cases Server.installStep_inv hs with
  | save th hi hst =>
    exact ⟨⟨h.node.dense, h.node.base_le, h.node.applied_le, h.node.commit_le⟩, h.captured_le⟩
  | restoreFailed th hi hst hr => exact ⟨h.node, h.captured_le⟩
  | restore th sm hi hst hr =>
    exact ⟨h.node.of_same ⟨rfl, rfl, rfl, rfl, rfl⟩ rfl rfl, h.captured_le⟩
  | finish th hi hst =>
    refine h.setNode (h.node.finish (hreach th hi hst)) ?_ rfl rfl
    unfold Node.installSnapshotFinish
    split
    · exact le_rfl
    · exact le_max_right _ _

theorem receive (h : Indexed s) (call : ℕ) (args : InstallSnapshotArgs) :
    Indexed (s.installBegin call args).1 := by
  obtain ⟨n, hn, heq⟩ := s.installBegin_cases call args
  have hnode : Ordered n ∧ s.node.lastApplied ≤ n.lastApplied := by
    rcases hn with rfl | rfl
    · exact ⟨h.node, le_rfl⟩
    · exact ⟨h.node.follow _ _, (s.node.follow_sameSnapshot _ _).lastApplied.ge⟩
  rcases heq with heq | heq
  · rw [heq]; exact h.setNode hnode.1 hnode.2 rfl rfl
  · rw [heq]; exact h.setNode hnode.1 hnode.2 rfl rfl

/-- **Every safe event** keeps the indices of a process in order. -/
theorem step {e : Event} (h : Indexed s) (hsafe : e.Safe s) (hs : s.step M e = some s') :
    Indexed s' := by
  cases Server.step_cases hs with
  | handle hd n hn => exact h.handle hsafe hn rfl rfl
  | apply s₁ r hs₁ => exact h.apply hs₁
  | receive call args => exact h.receive call args
  | install i s₁ r hs₁ => exact h.install hsafe hs₁

end Indexed

/-! ### Clusters -/

namespace Node

variable {n : Node σ}

/-- The requests of a node with a numbered log are numbered. -/
theorem Dense.consecutive_send (h : n.Dense) {peer : String} {args : AppendEntriesArgs}
    (hs : n.sendAppendEntriesTo peer = some (.appendEntries args)) :
    Consecutive (args.prevLogIndex + 1) args.entries := by
  unfold sendAppendEntriesTo at hs
  split at hs
  · cases hs
  dsimp only at hs
  -- a `nextIndex` of `0` counts as `1`
  generalize hk : (if n.nextIndex peer = 0 then 1 else n.nextIndex peer) = k at hs
  have hpos : 0 < k := by
    rw [← hk]
    split <;> omega
  split at hs
  · cases hs
  · next hb =>
    obtain rfl := Outgoing.appendEntries.inj (Option.some.inj hs)
    dsimp only
    split
    · refine consecutive_iff.mpr fun j e he => ?_
      rw [List.getElem?_take] at he
      split at he
      · rw [List.getElem?_drop] at he
        rw [h _ e he]
        omega
      · cases he
    · trivial

end Node

/-- What a step of the cluster must not do to the indices. A restart finds a log on storage that
goes on from the snapshot there. -/
def IndexSafe (c : Cluster σ) : Action σ → Prop
  | .deliver k => ∀ call ∈ c.calls[k]?, ∀ args ∈ call.request.appendEntries?,
      (c.node call.peer).Admits args
  | .install v i => (c.servers v).InstallReaches i
  | .restart v _ =>
      Consecutive ((c.node v).storage.snapshotIndex + 1) (c.node v).storage.log
  | _ => True

instance IndexSafe.decidable (c : Cluster σ) : (a : Action σ) → Decidable (IndexSafe c a)
  | .deliver k => inferInstanceAs (Decidable (∀ call ∈ c.calls[k]?,
      ∀ args ∈ call.request.appendEntries?, (c.node call.peer).Admits args))
  | .install v i => inferInstanceAs (Decidable ((c.servers v).InstallReaches i))
  | .restart v _ => inferInstanceAs (Decidable (Consecutive _ (c.node v).storage.log))
  | .elect _ | .propose _ _ | .send _ _ | .sendSnapshot _ _ | .reply _ _ | .timeout _
  | .apply _ => inferInstanceAs (Decidable True)

/-- **The invariant**: the indices of all processes, and numbered requests on the network. -/
structure IndexRel (c : Cluster σ) : Prop where
  server : ∀ v, Indexed (c.servers v)
  request : ∀ call ∈ c.calls, ∀ args, call.request = .appendEntries args →
    Consecutive (args.prevLogIndex + 1) args.entries

namespace IndexRel

variable {M : StateMachine σ} {cfg : Config} {c c' : Cluster σ} {a : Action σ}

theorem initial (cfg : Config) (sm : String → σ) : IndexRel (Cluster.initial cfg sm) where
  server _ := .start ⟨nofun, le_rfl, le_rfl, le_rfl⟩
  request _ hcall := absurd hcall List.not_mem_nil

/-- The event of a safe action is safe. -/
theorem event_safe (h : IndexRel c) (hsafe : IndexSafe c a) {v : String} {e : Event}
    (he : Happens c a v e) : e.Safe (c.servers v) := by
  cases he with
  | deliverEntries k call args hk hr =>
    exact ⟨hsafe call hk args (by rw [hr]; rfl), h.request call (List.mem_of_getElem? hk) args hr⟩
  | install v i => exact hsafe
  | _ => trivial

/-- What `NewNode` reads from a storage whose log goes on from its snapshot. -/
theorem restart {v : String} {st : Storage} {sm : σ} {n : Node σ}
    (hst : Consecutive (st.snapshotIndex + 1) st.log)
    (hn : newNode M v (cfg.peers v) st sm (cfg.opts v) = some n) : Ordered n := by
  obtain ⟨sm', i, t, hi, rfl⟩ := n.newNode_eq hn
  have hindex : st.snapshotIndex = i := by
    rcases hi with ⟨hnone, -, rfl, -⟩ | ⟨s, hsome, -, rfl, -⟩
    · rw [Storage.snapshotIndex, hnone]; rfl
    · rw [Storage.snapshotIndex, hsome]; rfl
  rw [hindex] at hst
  refine ⟨Node.dense_iff.mpr hst, le_rfl, le_rfl, ?_⟩
  rw [(Node.dense_iff.mpr hst).lastLogIndexLocked]
  exact Nat.le_add_right _ _

/-- **Every safe step** keeps the invariant. -/
theorem step (h : IndexRel c) (hsafe : IndexSafe c a) (hs : c.step M cfg a = some c') :
    IndexRel c' where
  server v := by
    cases Cluster.step_server hs v with
    | idle hw =>
      exact (h.server v).setNode (h.server v).node le_rfl hw.applier hw.node
    | event e s he hs hw =>
      have hI := (h.server v).step (h.event_safe hsafe he) hs
      exact hI.setNode hI.node le_rfl hw.applier hw.node
    | restart sm n ha hn hw =>
      subst ha
      rw [hw]
      exact .start (restart hsafe hn)
  request call hcall args hr := by
    rcases Cluster.step_appendEntries hs hcall hr with ⟨call₀, h₀, hr₀⟩ | ⟨v, peer, hsend⟩
    · exact h.request call₀ h₀ args hr₀
    · exact (h.server v).node.dense.consecutive_send hsend

end IndexRel

/-- **Index order.** In every run in which no accepted `AppendEntries` reaches below the receiver's
snapshot with other terms or contradicts what the receiver has committed, and every installed
snapshot reaches the commit index: the indices of every node are in order, `applyPending` finds its
entry, and so does `sendAppendEntriesTo`. -/
theorem index_order (M : StateMachine σ) (cfg : Config) (sm : String → σ) (c : Cluster σ)
    (h : Runs (Cluster.step M cfg) IndexSafe (Cluster.initial cfg sm) c) (v : String) :
    (c.node v).logBaseIndex ≤ (c.node v).lastApplied ∧
      (c.node v).lastApplied ≤ (c.node v).commitIndex ∧
      (c.node v).commitIndex ≤ (c.node v).lastLogIndexLocked ∧
      (c.node v).applyFetch ≠ none ∧
      ∀ nextIdx, (c.node v).logBaseIndex < nextIdx → nextIdx ≤ (c.node v).lastLogIndexLocked →
        nextIdx - (c.node v).logBaseIndex - 1 < (c.node v).log.length := by
  have hrel : IndexRel c :=
    h.invariant (fun _ _ _ hI hok hs => hI.step hok hs) (IndexRel.initial cfg sm)
  have hv : Ordered (c.node v) := (hrel.server v).node
  refine ⟨hv.base_le, hv.applied_le, hv.commit_le, hv.applyFetch_ne_none, fun k hb hl => ?_⟩
  rw [hv.dense.lastLogIndexLocked] at hl
  omega

/-- Three nodes that take a snapshot after every entry. -/
def trioCompacting : Config :=
  { trio with opts := fun _ => ⟨1⟩ }

/-- The four indices of a node, from the base to the end of the log. -/
def Node.indices (n : Node σ) : List ℕ :=
  [n.logBaseIndex, n.lastApplied, n.commitIndex, n.lastLogIndexLocked]

/-- "a" compacts its only entry and brings "c", which has nothing, up to date with the snapshot. -/
theorem index_order_after_install : ∃ c : Cluster Bytes,
      Runs (Cluster.step journal trioCompacting) IndexSafe
        (Cluster.initial trioCompacting fun _ => []) c ∧
      (c.node "c").indices = [1, 1, 1, 1] ∧
      (c.node "c").logBaseIndex ≤ (c.node "c").lastApplied ∧
      (c.node "c").lastApplied ≤ (c.node "c").commitIndex ∧
      (c.node "c").commitIndex ≤ (c.node "c").lastLogIndexLocked := by
  have hrun : (exec (guarded (Cluster.step journal trioCompacting) IndexSafe)
      (Cluster.initial trioCompacting fun _ => [])
      ([.elect "a", .deliver 0, .reply 0 0, .propose "a" [[1]], .send "a" "b", .deliver 2,
        .reply 2 0] ++ List.replicate 7 (.apply "a") ++
        [.send "a" "c", .sendSnapshot "a" 0, .deliver 3, .install "c" 0, .install "c" 0,
          .install "c" 0])).map (fun c => (c.node "c").indices) = some [1, 1, 1, 1] := by
    decide +kernel
  obtain ⟨c, hc, hobs⟩ := Runs.of_exec_guarded_map hrun
  obtain ⟨h₁, h₂, h₃, -⟩ := index_order journal trioCompacting _ c hc "c"
  exact ⟨c, hc, hobs, h₁, h₂, h₃⟩

/-- A run in which a snapshot is installed behind the commit index. -/
def snapshotBehindCommit : List (Action Bytes) :=
  -- "a" is elected in term 1 by "b", and entry 1 is committed on both
  [.elect "a", .deliver 0, .reply 0 0, .propose "a" [[1]], .send "a" "b", .deliver 2, .reply 2 0,
    -- `applyPending` of "a" applies entry 1 and returns
    .apply "a", .apply "a", .apply "a",
    -- entry 2 is committed on "a" and "b"
    .propose "a" [[2]], .send "a" "b", .deliver 3, .reply 3 0,
    -- "c" takes both entries over, with commit index 2; its reply is still on its way
    .send "a" "c", .deliver 4,
    -- `maybeSnapshot` of "a" compacts entry 1
    .apply "a", .apply "a", .apply "a", .apply "a",
    -- for "a", "c" still needs entry 1, so it is sent the snapshot, and installs it
    .send "a" "c", .sendSnapshot "a" 0, .deliver 5, .install "c" 0, .install "c" 0,
    .install "c" 0]

/-- **A snapshot behind the commit index breaks the order**: "c" drops entry 2, which it knows to be
committed, its commit index 2 is past the end of its log, and the next iteration of `applyPending`
panics. -/
theorem commit_past_log : ∃ c : Cluster Bytes,
      Reaches (Cluster.step journal trioCompacting) (Cluster.initial trioCompacting fun _ => []) c ∧
      (c.node "c").logBaseIndex = 1 ∧ (c.node "c").lastApplied = 1 ∧ (c.node "c").log = [] ∧
      (c.node "c").commitIndex = 2 ∧ (c.node "c").lastLogIndexLocked = 1 ∧
      (c.servers "c").applier = .idle ∧ (c.node "c").applyFetch.isNone := by
  have hrun : (exec (Cluster.step journal trioCompacting)
      (Cluster.initial trioCompacting fun _ => []) snapshotBehindCommit).map
        (fun c => ((c.node "c").indices, (c.node "c").log, (c.servers "c").applier,
          (c.node "c").applyFetch.isNone)) =
      some ([1, 1, 2, 1], [], .idle, true) := by
    decide +kernel
  obtain ⟨c, hc, hobs⟩ := Reaches.of_exec_map hrun
  simp only [Node.indices, Prod.mk.injEq, List.cons.injEq, and_true] at hobs
  obtain ⟨⟨hbase, hla, hci, hlast⟩, hlog, hidle, hpanic⟩ := hobs
  exact ⟨c, hc, hbase, hla, hlog, hci, hlast, hidle, hpanic⟩

end Raft
end BoilerPulse
