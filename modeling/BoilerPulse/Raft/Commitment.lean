import BoilerPulse.Raft.Replication

/-!
# Commitment

What the commit indices of a cluster without snapshots mean.

* `Advanced` — how a leader comes to move its commit index: an entry of its own term
  on a majority. Such an entry is `TermLog.Committed` (`LogRel.committed`), and leader
  completeness is the abstract one, read back (`leader_completeness`).
* `CommitRel` — every commit index covers a committed prefix, and so does everything
  ever applied. It is preserved by every step except one kind: a follower that
  takes over a *capped* piece of the leader's log moves its commit index to
  `min(LeaderCommit, lastLogIndex)`, and when its log goes on past the piece, with entries the
  leader never had, those entries become committed too. `CommitCovered` excludes
  exactly the deliveries in which the commit index could leave the piece behind, and
  state machine safety holds for every run without them (`state_machine_safety`).
-/

namespace BoilerPulse
namespace Raft

open Framework
open TermLog (Committed CommittedPrefix Accepts)

variable {σ : Type} {cfg : Config}

/-! ### How commit indices move -/

/-- The commit index of a leader, right after `maybeAdvanceCommitIndexLocked` moved it. -/
structure Advanced (n : Node σ) : Prop where
  leader : n.state = .leader
  pos : 0 < n.commitIndex
  le : n.commitIndex ≤ n.lastLogIndexLocked
  term : n.termAtLocked n.commitIndex = n.currentTerm
  majority : n.majority ≤ n.replicaCount n.commitIndex

namespace Node

variable (n : Node σ)

theorem advanceCommitFrom_commitIndex (hl : n.state = .leader) (k : ℕ)
    (hk : k ≤ n.lastLogIndexLocked) :
    (n.advanceCommitFrom k).commitIndex = n.commitIndex ∨ Advanced (n.advanceCommitFrom k) := by
  -- down the loop: the first index that qualifies ends it
  induction k with
  | zero => exact Or.inl rfl
  | succ k ih =>
    unfold advanceCommitFrom
    split
    · split
      · exact ih (by omega)
      · next hterm =>
        split
        · next hmaj => exact Or.inr ⟨hl, Nat.succ_pos k, hk, not_not.mp hterm, hmaj⟩
        · exact ih (by omega)
    · exact Or.inl rfl

theorem maybeAdvanceCommitIndexLocked_commitIndex :
    n.maybeAdvanceCommitIndexLocked.commitIndex = n.commitIndex ∨
      Advanced n.maybeAdvanceCommitIndexLocked := by
  unfold maybeAdvanceCommitIndexLocked
  split
  · exact Or.inl rfl
  · next hl => exact n.advanceCommitFrom_commitIndex (not_not.mp hl) _ le_rfl

theorem becomeFollowerLocked_commitIndex (t : ℕ) :
    (n.becomeFollowerLocked t).commitIndex = n.commitIndex := by
  unfold becomeFollowerLocked
  simp only
  split <;> rfl

theorem adopt_commitIndex (t : ℕ) : (n.adopt t).commitIndex = n.commitIndex := by
  unfold adopt
  split
  · exact n.becomeFollowerLocked_commitIndex t
  · rfl

theorem Answered.commitIndex {n n' : Node σ} {peer : String} {term m : ℕ} {acks : Prop}
    (h : n.Answered peer term m acks n') : n'.commitIndex = n.commitIndex ∨ Advanced n' := by
  cases h with
  | newer h => exact Or.inl (n.becomeFollowerLocked_commitIndex _)
  | moved h next => exact Or.inl rfl
  | recorded h hacks next => exact maybeAdvanceCommitIndexLocked_commitIndex _

theorem handleRequestVote_commitIndex (args : RequestVoteArgs) :
    (n.handleRequestVote args).1.commitIndex = n.commitIndex := by
  rcases n.handleRequestVote_cases args with ⟨-, h⟩ | ⟨-, h⟩ | ⟨-, -, -, h⟩
  · rw [h]
  · rw [h]; exact n.adopt_commitIndex _
  · rw [h]; exact n.adopt_commitIndex _

theorem handleRequestVoteReply_commitIndex (term votes : ℕ) (r : RequestVoteReply) :
    (n.handleRequestVoteReply term votes r).1.commitIndex = n.commitIndex ∧
      (n.handleRequestVoteReply term votes r).1.log = n.log := by
  rcases n.handleRequestVoteReply_cases term votes r with
    ⟨-, h⟩ | ⟨-, h⟩ | ⟨-, -, -, -, ⟨-, h⟩ | ⟨-, h⟩⟩
  · rw [h]
    exact ⟨n.becomeFollowerLocked_commitIndex _, (n.becomeFollowerLocked_sameLog _).log⟩
  all_goals
    rw [h]
    exact ⟨rfl, rfl⟩

end Node

theorem Uncompacted.advanceCommit_commitIndex {n : Node σ} (h : Uncompacted n) (lc : ℕ) :
    (n.advanceCommit lc).commitIndex =
      if n.commitIndex < lc then min lc n.log.length else n.commitIndex := by
  unfold Node.advanceCommit
  split
  · rw [h.lastLogIndexLocked]
  · rfl

/-! ### Leader completeness -/

section Completeness

variable {c : Cluster σ} {x : TermLog.State String LogEntry} {v : String}

/-- **An advanced commit index is committed**: the leader and the peers counted are a
majority that has acknowledged an entry of the leader's own term. -/
theorem LogRel.committed (h : LogRel cfg c x) (hI : TermLog.Inv LogEntry.term cfg.members x)
    (hv : v ∈ cfg.ids) (ha : Advanced (c.node v)) :
    Committed LogEntry.term cfg.members x (c.node v).currentTerm ((c.node v).commitIndex - 1) := by
  have hn := h.node v hv
  have hlead := ha.leader
  have hE := h.elect.node v hv
  obtain ⟨i, hi⟩ : ∃ i, (c.node v).commitIndex = i + 1 := ⟨_, (Nat.succ_pred_eq_of_pos ha.pos).symm⟩
  have hlen := ha.le
  rw [hn.plain.lastLogIndexLocked, hi] at hlen
  have hget := List.getElem?_eq_getElem hlen
  have hterm := ha.term
  rw [hi, hn.plain.termAtLocked hget] at hterm
  rw [hi, Nat.add_sub_cancel]
  -- the term check of the loop makes the entry the leader's own
  have hown : TermLog.Own LogEntry.term x (c.node v).currentTerm i :=
    ⟨_, by rw [hn.leader hlead]; exact hget, hterm⟩
  refine ⟨hown,
    insert v ((c.node v).peers.filter fun p => i + 1 ≤ (c.node v).matchIndex p).toFinset, ?_, ?_⟩
  · -- the loop's count is the size of this set
    have hpeers := cfg.peers_nodup v hv
    refine cfg.majority_of_card hv hE.peers ?_ ?_
    · intro p hp
      rcases Finset.mem_insert.mp hp with rfl | hp
      · exact Config.mem_members.mpr hv
      · have := List.mem_of_mem_filter (List.mem_toFinset.mp hp)
        rw [hE.peers] at this
        exact Config.mem_members.mpr (cfg.mem_ids_of_peer hv this)
    · rw [Finset.card_insert_of_notMem, List.toFinset_card_of_nodup]
      · have := ha.majority
        unfold Node.replicaCount at this
        rw [List.countP_eq_length_filter, hi] at this
        omega
      · rw [hE.peers]; exact hpeers.filter _
      · intro hp
        have := List.mem_of_mem_filter (List.mem_toFinset.mp hp)
        rw [hE.peers] at this
        exact ((cfg.mem_peers v hv v).mp this).2 rfl
  · -- the leader has its own entry, and `matchIndex` is backed by acknowledgements
    intro p hp
    rcases Finset.mem_insert.mp hp with rfl | hp
    · exact hI.owner_ack _ _ i (hE.leader hlead) hown
    · have := List.of_mem_filter (List.mem_toFinset.mp hp)
      exact Nat.lt_of_succ_le ((of_decide_eq_true this).trans (hn.matched hlead p))

/-- The only way to move a leader's commit index is `maybeAdvanceCommitIndexLocked`. -/
theorem LogRel.leader_commitIndex {M : StateMachine σ} {a : Action σ} {c' : Cluster σ}
    (h : LogRel cfg c x) (hoff : cfg.SnapshotsOff) (hstep : c.step M cfg a = some c')
    (hlead : (c'.node v).state = .leader) :
    (c'.node v).commitIndex = (c.node v).commitIndex ∨ Advanced (c'.node v) := by
  -- the process that acts is `v`, or `v` is as it was
  have hset : ∀ (u : String) (s : Server σ), (v = u → s.node.state = .leader →
        s.node.commitIndex = (c.node u).commitIndex ∨ Advanced s.node) →
      ((c.setServer u s).node v).state = .leader →
      ((c.setServer u s).node v).commitIndex = (c.node v).commitIndex ∨
        Advanced ((c.setServer u s).node v) := by
    intro u s hs
    by_cases huv : v = u
    · subst huv
      simp only [Cluster.node, Cluster.setServer_self]
      exact hs rfl
    · refine fun _ => Or.inl ?_
      simp only [Cluster.node, Cluster.setServer_of_ne _ _ _ huv]
  cases Cluster.step_cases hstep with
  | elect u hu hs | planSnapshot u peer term hu hp hs | noSnapshot u k peer term hu hk hs
  | sendSnapshot u k peer term args hu hk hs => exact hset u _ (fun _ _ => Or.inl rfl) hlead
  | propose u batch n hu hn =>
    refine hset u _ (fun _ _ => Or.inl ?_) hlead
    obtain ⟨-, rfl⟩ := Node.appendBatch_eq hn
    unfold Node.appendLogLocked
    split <;> rfl
  | sendEntries u peer args hu hp hs => exact Or.inl rfl
  | deliverVote k call args hk hr =>
    exact hset _ _ (fun _ _ => Or.inl (Node.handleRequestVote_commitIndex _ args)) hlead
  | deliverEntries k call args hk hr =>
    refine hset _ _ (fun _ hl => Or.inl ?_) hlead
    dsimp only at hl ⊢
    rw [Node.handleAppendEntries_of_leader _ hl]
  | refuseSnapshot k call args s r hk hr hs | deliverSnapshot k call args s hk hr hs
  | replySnapshot k j call args r hk hw hr hj =>
    exact absurd hr ((h.call k call hk).noSnapshot args)
  | replyVote k j call args r hk hw hr hj =>
    exact hset _ _ (fun _ _ => Or.inl (Node.handleRequestVoteReply_commitIndex _ _ _ r).1) hlead
  | replyEntries k j call args r hk hw hr hj =>
    exact hset _ _ (fun _ _ => (Node.handleAppendEntriesReply_cases _ _ _ _).commitIndex) hlead
  | timeout k hk => exact Or.inl rfl
  -- `applyLoop` moves `lastApplied`, never the commit index
  | applyQuiet u s hu hs | apply u s e hu hs =>
    refine hset u s (fun hvu _ => Or.inl ?_) hlead
    have hopts := h.snapshotThreshold hoff hu
    rcases (h.server u hu).applyStep_cases (h.node u hu).plain hopts hs with
      ⟨-, e, -, -, rfl⟩ | ⟨e, -, -, rfl⟩ | ⟨-, rfl | rfl⟩ <;> rfl
  | install u i s hu hs | installDone u i s k r hu hs =>
    exact absurd hs (h.server u hu).installStep_ne
  | restart u sm n hu hn =>
    refine hset u (Server.start n) (fun _ hl => ?_) hlead
    cases ((h.node u hu).plain.newNode_eq hn).2.1.symm.trans hl

end Completeness

/-- **Leader completeness.** When a step leaves `v` leader with a moved commit index `i`,
the entry at `i` is of `v`'s own term, and every leader of a later term, at any later
moment, has exactly `v`'s entries up to `i`. -/
theorem leader_completeness (M : StateMachine σ) (cfg : Config) (hnamed : cfg.Named)
    (hoff : cfg.SnapshotsOff) (sm : String → σ) {c c₁ c₂ : Cluster σ} {a : Action σ}
    (hc : Reaches (Cluster.step M cfg) (Cluster.initial cfg sm) c)
    (hstep : c.step M cfg a = some c₁) (hc₂ : Reaches (Cluster.step M cfg) c₁ c₂)
    {v w : String} (hv : v ∈ cfg.ids) (hw : w ∈ cfg.ids)
    (hlead : (c₁.node v).state = .leader)
    (hmoved : (c₁.node v).commitIndex ≠ (c.node v).commitIndex)
    (hlead₂ : (c₂.node w).state = .leader)
    (hterm : (c₁.node v).currentTerm < (c₂.node w).currentTerm) :
    (c₁.node v).termAtLocked (c₁.node v).commitIndex = (c₁.node v).currentTerm ∧
      (c₁.node v).commitIndex ≤ (c₁.node v).log.length ∧
      (c₁.node v).commitIndex ≤ (c₂.node w).log.length ∧
      (c₂.node w).log.take (c₁.node v).commitIndex = (c₁.node v).log.take (c₁.node v).commitIndex := by
  obtain ⟨x, hx, -⟩ := (LogSim.initial cfg sm).runs hnamed hoff hc
  obtain ⟨x₁, hx₁, -⟩ := hx.step hnamed hoff hstep
  obtain ⟨x₂, hx₂, hL⟩ := hx₁.runs hnamed hoff hc₂
  have ha := (hx.1.leader_commitIndex hoff hstep hlead).resolve_left hmoved
  have hcom := hx₁.1.committed hx₁.2 hv ha
  have hlead₂' : x₂.leader (c₂.node w).currentTerm ≠ none := by
    rw [(hx₂.1.elect.node w hw).leader hlead₂]; simp
  have hpre := hx₂.2.committed_isPrefix (hL.committed hcom) hterm.le hlead₂'
  -- the committed prefix of the abstract log is the first `i` entries of `v`'s
  have hi : (c₁.node v).commitIndex - 1 + 1 = (c₁.node v).commitIndex :=
    Nat.sub_add_cancel ha.pos
  have hlen : (c₁.node v).commitIndex ≤ (c₁.node v).log.length := by
    rw [← (hx₁.1.node v hv).plain.lastLogIndexLocked]; exact ha.le
  rw [hL.upTo hcom.1.lt_length, TermLog.upTo, hi, (hx₁.1.node v hv).leader hlead,
    (hx₂.1.node w hw).leader hlead₂] at hpre
  have hlen₂ := hpre.length_le
  rw [List.length_take_of_le hlen] at hlen₂
  refine ⟨ha.term, hlen, hlen₂, ?_⟩
  rw [TermLog.take_eq_of_isPrefix hpre (by rw [List.length_take_of_le hlen]), List.take_take,
    min_self]

theorem leader_completeness_of_handover : ∃ (c c₁ c₂ : Cluster Bytes) (a : Action Bytes),
      Reaches (Cluster.step journal trio) (Cluster.initial trio fun _ => []) c ∧
      c.step journal trio a = some c₁ ∧ Reaches (Cluster.step journal trio) c₁ c₂ ∧
      (c.node "a").commitIndex = 0 ∧ (c₁.node "a").commitIndex = 1 ∧
      (c₂.node "b").state = .leader ∧ (c₁.node "a").currentTerm < (c₂.node "b").currentTerm ∧
      (c₂.node "b").log.take 1 = (c₁.node "a").log.take 1 := by
  -- "a" commits an entry that "b" has acknowledged; then "b" is elected by "c"
  have hrun : ((exec (Cluster.step journal trio) (Cluster.initial trio fun _ => [])
      [.elect "a", .deliver 0, .reply 0 0, .propose "a" [[1]], .send "a" "b", .deliver 2]).bind
      fun c => (c.step journal trio (.reply 2 0)).bind fun c₁ =>
        (exec (Cluster.step journal trio) c₁ [.elect "b", .deliver 4, .reply 4 0]).map fun c₂ =>
          ((c.node "a").commitIndex, (c₁.node "a").commitIndex, (c₁.node "a").state,
            (c₁.node "a").currentTerm, (c₂.node "b").state, (c₂.node "b").currentTerm)) =
      some (0, 1, .leader, 1, .leader, 2) := by
    decide +kernel
  obtain ⟨c, hc, hrun⟩ := Option.bind_eq_some_iff.mp hrun
  obtain ⟨c₁, hc₁, hrun⟩ := Option.bind_eq_some_iff.mp hrun
  obtain ⟨c₂, hc₂, hobs⟩ := Option.map_eq_some_iff.mp hrun
  simp only [Prod.mk.injEq] at hobs
  obtain ⟨h0, h1, hl, ht, hl₂, ht₂⟩ := hobs
  have hterm : (c₁.node "a").currentTerm < (c₂.node "b").currentTerm := by omega
  have hmoved : (c₁.node "a").commitIndex ≠ (c.node "a").commitIndex := by omega
  have hthm := leader_completeness journal trio (by decide) (by decide) _ (Reaches.of_exec hc) hc₁
    (Reaches.of_exec hc₂) (v := "a") (w := "b") (by decide) (by decide) hl hmoved hl₂ hterm
  rw [h1] at hthm
  exact ⟨c, c₁, c₂, _, Reaches.of_exec hc, hc₁, Reaches.of_exec hc₂, h0, h1, hl₂, hterm, hthm.2.2.2⟩

/-- With a node called `""`, a leader of a later term lacks a committed entry: `""` commits
its entry on itself and "c", and "b", which led the same term with another entry, is then
elected by "c". -/
theorem committed_lost_of_unnamed : ∃ (c c₁ c₂ : Cluster Bytes) (a : Action Bytes),
      Reaches (Cluster.step journal trioUnnamed) (Cluster.initial trioUnnamed fun _ => []) c ∧
      c.step journal trioUnnamed a = some c₁ ∧
      Reaches (Cluster.step journal trioUnnamed) c₁ c₂ ∧
      (c₁.node "").state = .leader ∧ (c.node "").commitIndex = 0 ∧ (c₁.node "").commitIndex = 1 ∧
      (c₂.node "b").state = .leader ∧ (c₁.node "").currentTerm < (c₂.node "b").currentTerm ∧
      (c₂.node "b").log.take 1 ≠ (c₁.node "").log.take 1 := by
  -- "c" votes for both in term 1, since a vote for `""` is not remembered
  have hrun : ((exec (Cluster.step journal trioUnnamed) (Cluster.initial trioUnnamed fun _ => [])
      [.elect "", .elect "b", .deliver 1, .reply 1 0, .deliver 3, .reply 3 0,
        .propose "" [[1]], .propose "b" [[2]], .send "" "c", .deliver 4]).bind
      fun c => (c.step journal trioUnnamed (.reply 4 0)).bind fun c₁ =>
        (exec (Cluster.step journal trioUnnamed) c₁
          [.restart "b" [], .elect "b", .deliver 6, .reply 6 0]).map fun c₂ =>
          (((c.node "").commitIndex, (c₁.node "").commitIndex),
            ((c₁.node "").state, (c₁.node "").currentTerm, (c₁.node "").log),
            ((c₂.node "b").state, (c₂.node "b").currentTerm, (c₂.node "b").log))) =
      some ((0, 1), (.leader, 1, [⟨1, 1, [1]⟩]), (.leader, 2, [⟨1, 1, [2]⟩])) := by
    decide +kernel
  obtain ⟨c, hc, hrun⟩ := Option.bind_eq_some_iff.mp hrun
  obtain ⟨c₁, hc₁, hrun⟩ := Option.bind_eq_some_iff.mp hrun
  obtain ⟨c₂, hc₂, hobs⟩ := Option.map_eq_some_iff.mp hrun
  simp only [Prod.mk.injEq] at hobs
  obtain ⟨⟨h0, h1⟩, ⟨hl, ht, hlog⟩, hl₂, ht₂, hlog₂⟩ := hobs
  exact ⟨c, c₁, c₂, _, Reaches.of_exec hc, hc₁, Reaches.of_exec hc₂, hl, h0, h1, hl₂, by omega,
    by rw [hlog, hlog₂]; decide⟩

/-! ### What is committed and applied -/

/-- A command is settled at an index once a committed prefix has it there. -/
def Settled (cfg : Config) (x : TermLog.State String LogEntry) (index : ℕ) (command : Bytes) :
    Prop :=
  ∃ t P i e, CommittedPrefix LogEntry.term cfg.members x t P ∧ P[i]? = some e ∧ index = i + 1 ∧
    command = e.command

/-- The commit index of a node covers a committed prefix. -/
structure CommitNode (cfg : Config) (x : TermLog.State String LogEntry) (n : Node σ) : Prop where
  le : n.commitIndex ≤ n.log.length
  committed : CommittedPrefix LogEntry.term cfg.members x n.currentTerm (n.log.take n.commitIndex)

/-- The commit index an `AppendEntries` carries covers a committed prefix of the log of its
term. -/
def CommitCall (cfg : Config) (x : TermLog.State String LogEntry) (call : Call) : Prop :=
  ∀ args, call.request = .appendEntries args → args.leaderCommit ≤ (x.tlog args.term).length ∧
      CommittedPrefix LogEntry.term cfg.members x args.term
        ((x.tlog args.term).take args.leaderCommit)

/-- **The invariant of commitment**, over the replication relation. -/
structure CommitRel (cfg : Config) (c : Cluster σ) (x : TermLog.State String LogEntry) : Prop where
  node : ∀ v ∈ cfg.ids, CommitNode cfg x (c.node v)
  call : ∀ (k : ℕ) call, c.calls[k]? = some call → CommitCall cfg x call
  /-- The entry a node has fetched and is about to apply. -/
  held : ∀ v ∈ cfg.ids, ∀ e, (c.servers v).applier = .applying e → Settled cfg x e.index e.command
  applied : ∀ v i cmd, (v, i, cmd) ∈ c.applied → Settled cfg x i cmd

theorem CommitRel.initial (cfg : Config) (sm : String → σ) :
    CommitRel cfg (Cluster.initial cfg sm) (TermLog.State.initial String LogEntry) where
  node := fun _ _ => ⟨le_rfl, Or.inl rfl⟩
  call := nofun
  held := nofun
  applied := nofun

/-- **Settled commands are unique**: committed prefixes are comparable. -/
theorem Settled.unique {x : TermLog.State String LogEntry}
    (hI : TermLog.Inv LogEntry.term cfg.members x) {i : ℕ} {a b : Bytes}
    (ha : Settled cfg x i a) (hb : Settled cfg x i b) : a = b := by
  obtain ⟨t, P, j, e, hP, he, hj, rfl⟩ := ha
  obtain ⟨u, Q, k, e', hQ, he', hk, rfl⟩ := hb
  obtain rfl : j = k := by omega
  -- one prefix contains the other, so both have the same entry here
  rcases hP.comparable hQ hI with hle | hle
  · rw [TermLog.getElem?_of_isPrefix hle he] at he'
    rw [Option.some.inj he']
  · rw [TermLog.getElem?_of_isPrefix hle he'] at he
    rw [Option.some.inj he]

section Preserve

variable {c c' : Cluster σ} {x x' : TermLog.State String LogEntry} {v : String} {n n' : Node σ}

theorem Settled.later {i : ℕ} {a : Bytes} (h : Settled cfg x i a) (hL : TermLog.Later x x') :
    Settled cfg x' i a := by
  obtain ⟨t, P, j, e, hP, he, hj, ha⟩ := h
  exact ⟨t, P, j, e, hP.mono hL le_rfl (List.prefix_refl _), he, hj, ha⟩

theorem CommitCall.later {call : Call} (h : CommitCall cfg x call) (hL : TermLog.Later x x') :
    CommitCall cfg x' call := by
  intro args hr
  obtain ⟨hle, hcom⟩ := h args hr
  refine ⟨hle.trans (hL.tlog _).length_le, ?_⟩
  rw [TermLog.take_eq_of_isPrefix (hL.tlog _) hle]
  exact hcom.mono hL le_rfl (List.prefix_refl _)

/-- A node that keeps its commit index and what it covers. -/
theorem CommitNode.keep (h : CommitNode cfg x n) (hL : TermLog.Later x x')
    (ht : n.currentTerm ≤ n'.currentTerm) (hci : n'.commitIndex = n.commitIndex)
    (hlog : n.log.take n.commitIndex <+: n'.log) : CommitNode cfg x' n' := by
  have hlen := hlog.length_le
  rw [List.length_take_of_le h.le] at hlen
  have htake : n'.log.take n'.commitIndex = n.log.take n.commitIndex := by
    rw [hci, TermLog.take_eq_of_isPrefix hlog (by rw [List.length_take_of_le h.le]), List.take_take,
      min_self]
  refine ⟨hci.le.trans hlen, ?_⟩
  rw [htake]
  exact h.committed.mono hL ht (List.prefix_refl _)

/-- A node whose log did not change. -/
theorem CommitNode.same (h : CommitNode cfg x n) (hL : TermLog.Later x x')
    (ht : n.currentTerm ≤ n'.currentTerm) (hci : n'.commitIndex = n.commitIndex)
    (hlog : n'.log = n.log) : CommitNode cfg x' n' :=
  h.keep hL ht hci (by rw [hlog]; exact List.take_prefix _ _)

/-- A leader that has just moved its commit index. -/
theorem LogSim.commitNode_of_advanced (h : LogSim cfg c x) (hv : v ∈ cfg.ids)
    (ha : Advanced (c.node v)) : CommitNode cfg x (c.node v) := by
  have hn := h.1.node v hv
  have hcom := h.1.committed h.2 hv ha
  refine ⟨by rw [← hn.plain.lastLogIndexLocked]; exact ha.le, Or.inr ⟨_, _, le_rfl, hcom, ?_⟩⟩
  rw [TermLog.upTo, hn.leader ha.leader, Nat.sub_add_cancel ha.pos]

/-- A step of the process `v` preserves commitment if it does so at `v`, for the calls and
for what is applied. -/
theorem CommitRel.act {s : Server σ} (h : CommitRel cfg c x) (hL : TermLog.Later x x')
    (hservers : c'.servers = Function.update c.servers v s)
    (hnode : v ∈ cfg.ids → CommitNode cfg x' s.node)
    (hcall : ∀ (k : ℕ) call, c'.calls[k]? = some call → CommitCall cfg x' call)
    (hheld : v ∈ cfg.ids → ∀ e, s.applier = .applying e → Settled cfg x' e.index e.command)
    (happlied : ∀ u i cmd, (u, i, cmd) ∈ c'.applied → Settled cfg x' i cmd) :
    CommitRel cfg c' x' where
  node := Cluster.forall_servers (P := fun _ s => CommitNode cfg x' s.node) hservers hnode
    fun u hu _ => (h.node u hu).same hL le_rfl rfl rfl
  call := hcall
  held := Cluster.forall_servers
    (P := fun _ s => ∀ e, s.applier = .applying e → Settled cfg x' e.index e.command) hservers hheld
    fun u hu _ e he => (h.held u hu e he).later hL
  applied := happlied

end Preserve

/-! ### The deliveries that are safe -/

/-- The commit index of a request that passes the consistency check stays within what the
receiver then shares with the leader: it does not reach past the entries carried, or
the receiver's log does not, or the append loop will cut the log there because an entry
conflicts. -/
def Node.CoversCommit (n : Node σ) (args : AppendEntriesArgs) : Prop :=
  args.leaderCommit ≤ args.prevLogIndex + args.entries.length ∨
  n.lastLogIndexLocked ≤ args.prevLogIndex + args.entries.length ∨
  ∃ j : Fin args.entries.length,
    n.termAtLocked (args.prevLogIndex + j + 1) ≠ (args.entries.get j).term

instance (n : Node σ) (args : AppendEntriesArgs) : Decidable (n.CoversCommit args) :=
  inferInstanceAs (Decidable (_ ∨ _ ∨ _))

/-- Every `AppendEntries` that is accepted and would move the commit index covers it. -/
def CommitCovered (c : Cluster σ) : Action σ → Prop
  | .deliver k => ∀ call ∈ c.calls[k]?, ∀ args ∈ call.request.appendEntries?,
      (c.node call.peer).currentTerm ≤ args.term →
      (c.node call.peer).checkPrevLog args.prevLogIndex args.prevLogTerm = none →
      (c.node call.peer).commitIndex < args.leaderCommit → (c.node call.peer).CoversCommit args
  | _ => True

instance (c : Cluster σ) (a : Action σ) : Decidable (CommitCovered c a) := by
  unfold CommitCovered
  cases a <;> infer_instance

section Safety

variable {c c' : Cluster σ} {x x' : TermLog.State String LogEntry} {M : StateMachine σ} {u : String}
  {s : Server σ}

/-- The index that a covered request commits is within the entries it carries. -/
theorem LogRel.covered_le (h : LogRel cfg c x) (hI : TermLog.Inv LogEntry.term cfg.members x)
    {k : ℕ} {call : Call} {args : AppendEntriesArgs} (hk : c.calls[k]? = some call)
    (hr : call.request = .appendEntries args)
    (hcheck : (c.node call.peer).checkPrevLog args.prevLogIndex args.prevLogTerm = none)
    (hcov : (c.node call.peer).CoversCommit args) :
    min args.leaderCommit
        (Node.splice (c.node call.peer).log args.prevLogIndex args.entries).length ≤
      args.prevLogIndex + args.entries.length := by
  have hn := h.node _ (h.elect.peer_mem hk)
  obtain ⟨hm, hes, hacc⟩ := h.accepts hI hk hr hcheck
  generalize Node.splice (c.node call.peer).log args.prevLogIndex args.entries = l at hacc
  rcases hacc with ⟨hpre, rfl⟩ | ⟨-, rfl⟩
  · -- the log was left as it is, and may go on past the entries carried
    rcases hcov with hc | hc | ⟨j, hne⟩
    · exact (min_le_left _ _).trans hc
    · rw [hn.plain.lastLogIndexLocked] at hc
      exact (min_le_right _ _).trans hc
    · -- everything carried was there already, so nothing conflicts
      have he := TermLog.getElem?_of_isPrefix hes (List.getElem?_eq_getElem j.isLt)
      rw [List.getElem?_drop] at he
      have hget : (c.node call.peer).log[args.prevLogIndex + j]? = some (args.entries.get j) := by
        refine TermLog.getElem?_of_isPrefix hpre ?_
        rw [List.getElem?_take_of_lt (by omega)]
        exact he
      exact absurd (hn.plain.termAtLocked hget) hne
  · rw [List.length_take]
    omega

/-- **Accepting a covered request**: the follower's commit index ends up on a committed
prefix of the leader's log. -/
theorem CommitRel.accept (h : CommitRel cfg c x) (hsim : LogSim cfg c x)
    (hL : TermLog.Later x x') {k : ℕ} {call : Call} {args : AppendEntriesArgs}
    (hk : c.calls[k]? = some call) (hr : call.request = .appendEntries args)
    (hle : (c.node call.peer).currentTerm ≤ args.term)
    (hcheck : (c.node call.peer).checkPrevLog args.prevLogIndex args.prevLogTerm = none)
    (hcov : (c.node call.peer).commitIndex < args.leaderCommit →
      (c.node call.peer).CoversCommit args) :
    CommitNode cfg x' ((c.node call.peer).handleAppendEntries args).1 := by
  obtain ⟨hR, hI⟩ := hsim
  have hp := hR.elect.peer_mem hk
  have hn := hR.node _ hp
  have hcn := h.node _ hp
  obtain ⟨hm, -, hacc⟩ := hR.accepts hI hk hr hcheck
  obtain ⟨hlc, hcom⟩ := h.call k call hk args hr
  have hleader : x.leader args.term ≠ none := by
    rw [((hR.call k call hk).entries args hr).1]; simp
  -- the node after the call, and its commit index
  have hsame := (c.node call.peer).follow_sameLog args.term args.leaderID
  have hplain := hn.plain.of_sameLog hsame
  have hindexed := hR.indexed_of_accepts hp hacc
  have hshared := hR.covered_le hI hk hr hcheck
  rw [hn.plain.handleAppendEntries_accepted hle hcheck]
  generalize hl : Node.splice (c.node call.peer).log args.prevLogIndex args.entries = l
    at hacc hindexed hshared
  have hci := (hplain.withLog hindexed).advanceCommit_commitIndex args.leaderCommit
  have hterm : (((c.node call.peer).follow args.term args.leaderID).withLog l
      |>.advanceCommit args.leaderCommit).currentTerm = args.term :=
    (Node.advanceCommit_sameVote _ _).currentTerm.trans ((c.node call.peer).adopt_currentTerm hle)
  have hlog := (Node.advanceCommit_sameLog
    (((c.node call.peer).follow args.term args.leaderID).withLog l) args.leaderCommit).log
  change _ = l at hlog
  change _ = if ((c.node call.peer).follow args.term args.leaderID).commitIndex < args.leaderCommit
    then min args.leaderCommit l.length
    else ((c.node call.peer).follow args.term args.leaderID).commitIndex at hci
  rw [Node.follow_commitIndex] at hci
  by_cases hlt : (c.node call.peer).commitIndex < args.leaderCommit
  · -- the commit index moves: it stays within the entries shared with the leader
    rw [if_pos hlt] at hci
    replace hshared := hshared (hcov hlt)
    refine ⟨by rw [hci, hlog]; exact min_le_right _ _, ?_⟩
    rw [hci, hlog, hterm]
    have hpre : l.take (min args.leaderCommit l.length) =
        (x.tlog args.term).take (min args.leaderCommit l.length) := by
      have h1 := TermLog.take_eq_of_isPrefix hacc.isPrefix
        (k := min args.leaderCommit l.length) (by rw [List.length_take_of_le hm]; exact hshared)
      rw [h1, List.take_take, min_eq_left hshared]
    rw [hpre]
    exact hcom.mono hL le_rfl (List.take_prefix_take_left (min_le_left _ _))
  · -- the commit index stays: what it covers is in the leader's log and survives the splice
    rw [if_neg hlt] at hci
    refine hcn.keep hL (by rw [hterm]; exact hle) hci ?_
    rw [hlog]
    exact hacc.keeps (hcn.committed.prefix_tlog hI hle hleader) (List.take_prefix _ _)

/-- A step that sets a process and keeps its goroutines. -/
theorem CommitRel.setServer (h : CommitRel cfg c x) (hL : TermLog.Later x x') {calls : List Call}
    (happ : s.applier = (c.servers u).applier) (hn : u ∈ cfg.ids → CommitNode cfg x' s.node)
    (hc : ∀ (k : ℕ) call, calls[k]? = some call → CommitCall cfg x' call) :
    CommitRel cfg { c.setServer u s with calls := calls } x' :=
  h.act hL rfl hn hc (fun hu e he => (h.held u hu e (happ ▸ he)).later hL)
    fun w i cmd hm => (h.applied w i cmd hm).later hL

/-- **A request**: the leader's commit index is about its own log, which is the log of its term. -/
theorem CommitRel.sendEntries (h : CommitRel cfg c x) (hR : LogRel cfg c x)
    (hL : TermLog.Later x x') {u peer : String} {args : AppendEntriesArgs} (hu : u ∈ cfg.ids)
    (hs : (c.node u).sendAppendEntriesTo peer = some (.appendEntries args)) :
    CommitRel cfg (c.addCalls [Call.new u peer (.appendEntries args)]) x' := by
  obtain ⟨hlead, args', hout, hargs, hlc, -⟩ :=
    (c.node u).sendAppendEntriesTo_sent (hR.node u hu).plain hs
  obtain rfl := Node.Outgoing.appendEntries.inj hout
  have hn := h.node u hu
  refine ⟨fun w hw => (h.node w hw).same hL le_rfl rfl rfl,
    calls_append (fun k call hk => (h.call k call hk).later hL) fun call hm args' hr => ?_,
    fun w hw e he => (h.held w hw e he).later hL, fun w i cmd hm => (h.applied w i cmd hm).later hL⟩
  obtain rfl := List.mem_singleton.mp hm
  obtain rfl := Request.appendEntries.inj hr
  have hcall : CommitCall cfg x (Call.new u peer (.appendEntries args)) := by
    intro args' hr'
    obtain rfl := Request.appendEntries.inj hr'
    rw [hargs, hlc, (hR.node u hu).leader hlead]
    exact ⟨hn.le, hn.committed⟩
  exact hcall.later hL args rfl

/-- **`applyLoop` fetches an entry**, which lies below the commit index, or does nothing to the
log. -/
theorem CommitRel.applyQuiet (h : CommitRel cfg c x) (hR : LogRel cfg c x) (hL : TermLog.Later x x')
    (hoff : cfg.SnapshotsOff) (hu : u ∈ cfg.ids) (hs : (c.servers u).applyStep M = some (s, none)) :
    CommitRel cfg (c.setServer u s) x' := by
  have hn := h.node u hu
  have hplain := (hR.node u hu).plain
  have hopts := hR.snapshotThreshold hoff hu
  refine h.act hL rfl (fun _ => ?_) (fun k call hk => (h.call k call hk).later hL)
    (fun _ e he => ?_) fun w i cmd hm => (h.applied w i cmd hm).later hL
  all_goals rcases (hR.server u hu).applyStep_cases hplain hopts hs with
      ⟨-, e', hlt, hget, rfl⟩ | ⟨e', -, hr, -⟩ | ⟨-, rfl | rfl⟩
  · exact hn.same hL le_rfl rfl rfl
  · cases hr
  · exact hn.same hL le_rfl rfl rfl
  · exact hn.same hL le_rfl rfl rfl
  · obtain rfl : e' = e := Applier.applying.inj he
    refine ⟨_, _, _, e', hn.committed.mono hL le_rfl (List.prefix_refl _), ?_,
      hplain.indexed _ _ hget, rfl⟩
    rw [List.getElem?_take_of_lt hlt]
    exact hget
  · cases hr
  · cases he
  · cases he

/-- **`applyLoop` applies an entry**, the one that it held. -/
theorem CommitRel.applyEntry (h : CommitRel cfg c x) (hR : LogRel cfg c x) (hL : TermLog.Later x x')
    (hoff : cfg.SnapshotsOff) {e : LogEntry} (hu : u ∈ cfg.ids)
    (hs : (c.servers u).applyStep M = some (s, some e)) :
    CommitRel cfg { c.setServer u s with applied := c.applied ++ [(u, e.index, e.command)] }
    x' := by
  have hn := h.node u hu
  have hopts := hR.snapshotThreshold hoff hu
  rcases (hR.server u hu).applyStep_cases (hR.node u hu).plain hopts hs with
    ⟨hr, -⟩ | ⟨e', happ, hr, rfl⟩ | ⟨hr, -⟩
  · cases hr
  · obtain rfl : e = e' := Option.some.inj hr
    refine h.act hL rfl (fun _ => hn.same hL le_rfl rfl rfl)
      (fun k call hk => (h.call k call hk).later hL) (fun _ => nofun) fun w i cmd hm => ?_
    rcases List.mem_append.mp hm with hm | hm
    · exact (h.applied w i cmd hm).later hL
    · cases List.mem_singleton.mp hm
      exact (h.held u hu e happ).later hL
  · cases hr

/-- **A restart**: the commit index is not on storage, so it starts over at zero. -/
theorem CommitRel.restart (h : CommitRel cfg c x) (hR : LogRel cfg c x) (hL : TermLog.Later x x')
    {sm : σ} {n : Node σ} (hu : u ∈ cfg.ids)
    (hn : newNode M u (cfg.peers u) (c.node u).storage sm (cfg.opts u) = some n) :
    CommitRel cfg { c.setServer u (Server.start n) with
      calls := c.calls.map fun call =>
        if call.caller = u then { call with waiting := false } else call } x' := by
  obtain ⟨-, -, hci, -, -⟩ := (hR.node u hu).plain.newNode_eq hn
  refine h.act (s := Server.start n) hL rfl (fun _ => ⟨hci ▸ Nat.zero_le _, ?_⟩)
    (calls_crash u (fun k call hk => (h.call k call hk).later hL) fun _ hc => hc) (fun _ => nofun)
    fun w i cmd hm => (h.applied w i cmd hm).later hL
  rw [show (Server.start n).node.commitIndex = 0 from hci, List.take_zero]
  exact Or.inl rfl

/-- **Commitment is preserved** by every step that `CommitCovered` allows. -/
theorem CommitRel.step {a : Action σ} (h : CommitRel cfg c x) (hsim : LogSim cfg c x)
    (hsim' : LogSim cfg c' x') (hL : TermLog.Later x x') (hoff : cfg.SnapshotsOff)
    (hcov : CommitCovered c a) (hstep : c.step M cfg a = some c') :
    CommitRel cfg c' x' := by
  have hR := hsim.1
  have hcalls : ∀ (k : ℕ) call, c.calls[k]? = some call → CommitCall cfg x' call :=
    fun k call hk => (h.call k call hk).later hL
  -- a node is never back in an earlier term
  have hset : ∀ (u : String) (s : Server σ) (calls : List Call),
      c' = { c.setServer u s with calls := calls } → s.applier = (c.servers u).applier →
      (u ∈ cfg.ids → (c.node u).currentTerm ≤ s.node.currentTerm → CommitNode cfg x' s.node) →
      (∀ (k : ℕ) call, calls[k]? = some call → CommitCall cfg x' call) → CommitRel cfg c' x' := by
    rintro u s calls rfl happ hn hc
    refine h.setServer hL happ (fun hu => hn hu ?_) hc
    have ht := hL.election.cur u
    rw [(hR.elect.node u hu).cur, (hsim'.1.elect.node u hu).cur] at ht
    change _ ≤ ((c.setServer u s).node u).currentTerm at ht
    simp only [Cluster.node, Cluster.setServer_self] at ht
    exact ht
  cases Cluster.step_cases hstep with
  | elect u hu hs =>
    refine hset u _ _ rfl rfl (fun _ ht => (h.node u hu).same hL ht rfl rfl)
      (calls_append hcalls fun call hm args hr => ?_)
    obtain ⟨p, -, rfl⟩ := List.mem_map.mp hm
    cases hr
  | propose u batch n hu hn =>
    refine hset u _ _ rfl rfl (fun _ ht => ?_) hcalls
    obtain ⟨-, rfl⟩ := Node.appendBatch_eq hn
    rw [Node.appendLogLocked_eq (hR.node u hu).plain.stored] at ht ⊢
    exact (h.node u hu).keep hL ht rfl ((List.take_prefix _ _).trans (List.prefix_append _ _))
  | sendEntries u peer args hu hp hs => exact h.sendEntries hR hL hu hs
  | planSnapshot u peer term hu hp hs =>
    obtain ⟨-, _, hout, -⟩ := (c.node u).sendAppendEntriesTo_sent (hR.node u hu).plain hs
    cases hout
  | noSnapshot u k peer term hu hk hs | sendSnapshot u k peer term args hu hk hs =>
    rw [(hR.server u hu).sends] at hk
    cases hk
  | deliverVote k call args hk hr =>
    exact hset call.peer _ _ rfl rfl
      (fun hu ht => (h.node _ hu).same hL ht (Node.handleRequestVote_commitIndex _ args)
        (Node.handleRequestVote_sameLog _ args).log) (calls_modify k hcalls fun _ _ hc => hc)
  | deliverEntries k call args hk hr =>
    refine hset call.peer _ _ rfl rfl (fun hu ht => ?_) (calls_modify k hcalls fun _ _ hc => hc)
    obtain ⟨-, heq⟩ | ⟨-, -, i, heq⟩ | ⟨hle, hcheck, -⟩ :=
      (c.node call.peer).handleAppendEntries_cases args
    · rw [heq] at ht ⊢
      exact (h.node _ hu).same hL ht rfl rfl
    · rw [heq] at ht ⊢
      exact (h.node _ hu).same hL ht (Node.follow_commitIndex _ _ _) (Node.follow_sameLog _ _ _).log
    · -- accepted: the one step that needs the guard
      exact h.accept hsim hL hk hr hle hcheck (hcov call hk args (by rw [hr]; rfl) hle hcheck)
  | refuseSnapshot k call args s r hk hr hs | deliverSnapshot k call args s hk hr hs
  | replySnapshot k j call args r hk hw hr hj =>
    exact absurd hr ((hR.call k call hk).noSnapshot args)
  | replyVote k j call args r hk hw hr hj =>
    exact hset call.caller _ _ rfl rfl
      (fun hu ht => (h.node _ hu).same hL ht (Node.handleRequestVoteReply_commitIndex _ _ _ r).1
        (Node.handleRequestVoteReply_commitIndex _ _ _ r).2)
      (calls_modify k hcalls fun _ _ hc => hc)
  | replyEntries k j call args r hk hw hr hj =>
    refine hset call.caller _ _ rfl rfl (fun hu ht => ?_) (calls_modify k hcalls fun _ _ hc => hc)
    have hanswered := (c.node call.caller).handleAppendEntriesReply_cases call.peer args r
    rcases hanswered.commitIndex with hci | ha
    · exact (h.node _ hu).same hL ht hci hanswered.sameLog.log
    · -- the leader advanced: read it off the new state
      have hnew := hsim'.commitNode_of_advanced (v := call.caller) hu
      simp only [Cluster.node, Cluster.closeCall_servers, Cluster.setNode_self] at hnew
      exact hnew ha
  | timeout k hk =>
    exact ⟨fun w hw => (h.node w hw).same hL le_rfl rfl rfl,
      calls_modify k hcalls fun _ _ hc => hc, fun w hw e he => (h.held w hw e he).later hL,
      fun w i cmd hm => (h.applied w i cmd hm).later hL⟩
  | applyQuiet u s hu hs => exact h.applyQuiet hR hL hoff hu hs
  | apply u s e hu hs => exact h.applyEntry hR hL hoff hu hs
  | install u i s hu hs | installDone u i s k r hu hs =>
    exact absurd hs (hR.server u hu).installStep_ne
  | restart u sm n hu hn => exact h.restart hR hL hu hn

/-- Commitment holds along every covered run. -/
theorem CommitRel.runs (hnamed : cfg.Named) (hoff : cfg.SnapshotsOff) (h : CommitRel cfg c x)
    (hsim : LogSim cfg c x) (hrun : Runs (Cluster.step M cfg) CommitCovered c c') :
    ∃ x', CommitRel cfg c' x' ∧ LogSim cfg c' x' := by
  induction hrun with
  | refl => exact ⟨x, h, hsim⟩
  | tail a _ hcov hstep ih =>
    obtain ⟨x₁, h₁, hsim₁⟩ := ih
    obtain ⟨x₂, hsim₂, hL⟩ := hsim₁.step hnamed hoff hstep
    exact ⟨x₂, h₁.step hsim₁ hsim₂ hL hoff hcov hstep, hsim₂⟩

end Safety

/-- **State machine safety.** In every run in which the commit index of an accepted
`AppendEntries` is covered, no two nodes apply different commands at one index. -/
theorem state_machine_safety (M : StateMachine σ) (cfg : Config) (hnamed : cfg.Named)
    (hoff : cfg.SnapshotsOff) (sm : String → σ) {c : Cluster σ}
    (hc : Runs (Cluster.step M cfg) CommitCovered (Cluster.initial cfg sm) c)
    {v w : String} {i : ℕ} {a b : Bytes} (ha : (v, i, a) ∈ c.applied)
    (hb : (w, i, b) ∈ c.applied) : a = b := by
  obtain ⟨x, h, -, hI⟩ := (CommitRel.initial cfg sm).runs hnamed hoff (LogSim.initial cfg sm) hc
  exact (h.applied v i a ha).unique hI (h.applied w i b hb)

theorem state_machine_safety_of_two_entries : ∃ c : Cluster Bytes,
      Runs (Cluster.step journal trio) CommitCovered (Cluster.initial trio fun _ => []) c ∧
      ∃ x y : Bytes, ("a", 2, x) ∈ c.applied ∧ ("b", 2, y) ∈ c.applied ∧ x = y := by
  -- "a" is elected, and two entries are replicated to "b", committed and applied by both
  have hrun : (exec (guarded (Cluster.step journal trio) CommitCovered)
      (Cluster.initial trio fun _ => [])
      (List.flatten [[.elect "a", .deliver 0, .reply 0 0, .propose "a" [[1]], .propose "a" [[2]],
        .send "a" "b", .deliver 2, .reply 2 0, .send "a" "b", .deliver 3],
        List.replicate 4 (.apply "a"), List.replicate 4 (.apply "b")])).map
        (fun c => c.applied) =
      some [("a", 1, [1]), ("a", 2, [2]), ("b", 1, [1]), ("b", 2, [2])] := by
    decide +kernel
  obtain ⟨c, hc, hobs⟩ := Reaches.of_exec_map hrun
  have hc := (Runs.of_guarded hc).mono fun _ _ h => h.2
  have ha : ("a", 2, [2]) ∈ c.applied := by rw [hobs]; decide
  have hb : ("b", 2, [2]) ∈ c.applied := by rw [hobs]; decide
  exact ⟨c, hc, _, _, ha, hb, state_machine_safety journal trio (by decide) (by decide) _ hc ha hb⟩

/-- A run in which a follower's stale suffix gets committed. -/
def staleSuffix : List (Action Bytes) :=
  -- "a" is elected in term 1 by "b"
  [.elect "a", .deliver 0, .reply 0 0,
    -- 64 entries reach "b", a 65th stays on "a"
    .propose "a" (List.replicate 64 [1]), .send "a" "b", .deliver 2, .propose "a" [[7]],
    -- "b" is elected in term 2 by "c", and appends its own 65th entry
    .elect "b", .deliver 4, .reply 4 0, .propose "b" [[9]],
    -- "b" brings "c" up to date, commits on its acknowledgement, and tells it so
    .send "b" "c", .deliver 5, .reply 5 0, .send "b" "c", .deliver 6, .reply 6 0,
    .send "b" "c", .deliver 7, .reply 7 0, .send "b" "c", .deliver 8,
    -- "c" is elected in term 3 by "b", with commit index 65
    .elect "c", .deliver 10, .reply 10 0,
    -- "a" conflicts at 65; its run of term 1 starts at 1, so "c" sends 1 to 64, the cap
    .send "c" "a", .deliver 11, .reply 11 0,
    -- "a" has all 64 already, keeps its own 65th entry, and takes 65 as commit index
    .send "c" "a", .deliver 12] ++
  List.replicate 130 (.apply "a") ++ List.replicate 130 (.apply "c")

set_option maxRecDepth 100000 in
/-- **The capped batch breaks state machine safety**: "a" and "c" apply different commands
at index 65. -/
theorem different_commands_applied :
    ∃ c : Cluster Bytes, Reaches (Cluster.step journal trio) (Cluster.initial trio fun _ => []) c ∧
      ("a", 65, [7]) ∈ c.applied ∧ ("c", 65, [9]) ∈ c.applied ∧ ([7] : Bytes) ≠ [9] := by
  have hrun : (exec (Cluster.step journal trio) (Cluster.initial trio fun _ => [])
      staleSuffix).map (fun c => c.applied.filter fun x => x.2.1 = 65) =
      some [("a", 65, [7]), ("c", 65, [9])] := by
    decide +kernel
  obtain ⟨c, hc, hobs⟩ := Reaches.of_exec_map hrun
  have hmem : ∀ x ∈ [(("a", 65, [7]) : String × ℕ × Bytes), ("c", 65, [9])], x ∈ c.applied := by
    intro x hx
    rw [← hobs] at hx
    exact List.mem_of_mem_filter hx
  exact ⟨c, hc, hmem _ (by decide), hmem _ (by decide), by decide⟩

end Raft
end BoilerPulse
