import BoilerPulse.Raft.Negotiation
import BoilerPulse.Raft.Acknowledging

/-!
# Replicating to one follower

A leader that has just been elected assumes that every follower has its whole log, and finds out
otherwise. `replicateOnce` is one run of `sendAppendEntriesTo` for a follower that answers: an
`AppendEntries` with up to `maxReplicationBatchSize` entries from `nextIndex` on, or the snapshot if
`nextIndex` is in the part of the log that is compacted.

The exchange has two phases. First `nextIndex` looks for a place where the logs agree: rejections take
it down, a follower that has compacted more than the leader assumes takes it up once, and the
snapshot makes such a place (`Syncing.search`). Then `Agreed` holds, every exchange succeeds and
takes `nextIndex` up by 64 entries (`Agreed.replicateOnce`), until the end of the log
(`Agreed.caughtUp`).

`Steady` is what each exchange leaves alone at the leader. `maybeAdvanceCommitIndexLocked` leaves
nothing behind that a majority has (`Node.Settled`).
-/

namespace BoilerPulse
namespace Raft

variable {σ : Type} {t : ℕ → ℕ} {T : ℕ}

/-- One run of `sendAppendEntriesTo` at the leader, with `sendInstallSnapshotTo` if it goes on
there: the follower answers, and the leader handles the answer. -/
def replicateOnce (M : StateMachine σ) (peer : String) (p : Node σ × Node σ) : Node σ × Node σ :=
  match p.1.sendAppendEntriesTo peer with
  | none => p
  | some (.appendEntries args) =>
    let (follower, reply) := p.2.handleAppendEntries args
    (p.1.handleAppendEntriesReply peer args reply, follower)
  | some (.installSnapshot term) =>
    match p.1.installSnapshotArgs term with
    | none => p
    | some args =>
      let (follower, reply) := p.2.handleInstallSnapshot M args
      (p.1.handleInstallSnapshotReply peer args reply, follower)

/-! ### The leader -/

namespace Node

variable {n : Node σ} {peer : String}

/-- What goes out at a `nextIndex` that is not compacted. -/
theorem sendAppendEntriesTo_eq (hl : n.state = .leader) (hd : n.Dense)
    (hb : n.logBaseIndex < n.nextIndex peer) :
    ∃ args, n.sendAppendEntriesTo peer = some (.appendEntries args) ∧
      args.term = n.currentTerm ∧ args.prevLogIndex + 1 = n.nextIndex peer ∧
      args.prevLogTerm = n.termAtLocked args.prevLogIndex ∧ args.leaderCommit = n.commitIndex ∧
      args.entries.length =
        min maxReplicationBatchSize (n.lastLogIndexLocked + 1 - n.nextIndex peer) ∧
      ∀ e ∈ args.entries, e ∈ n.log := by
  have hlast := hd.lastLogIndexLocked
  unfold sendAppendEntriesTo
  rw [if_neg (not_not.mpr hl), if_neg (Nat.ne_zero_of_lt hb)]
  dsimp only
  rw [if_neg (not_le.mpr hb)]
  refine ⟨_, rfl, rfl, Nat.sub_add_cancel (Nat.zero_lt_of_lt hb), rfl, rfl, ?_, fun e he => ?_⟩
  · dsimp only
    -- nothing is left to send at the end of the log
    split
    · rw [List.length_take, List.length_drop]
      congr 1
      omega
    · rw [List.length_nil]
      omega
  · dsimp only at he
    split at he
    · exact List.mem_of_mem_drop (List.mem_of_mem_take he)
    · cases he

/-- What is compacted goes out as the snapshot. -/
theorem sendAppendEntriesTo_snapshot (hl : n.state = .leader) (hpos : 0 < n.nextIndex peer)
    (hb : n.nextIndex peer ≤ n.logBaseIndex) :
    n.sendAppendEntriesTo peer = some (.installSnapshot n.currentTerm) := by
  unfold sendAppendEntriesTo
  rw [if_neg (not_not.mpr hl), if_neg hpos.ne']
  dsimp only
  rw [if_pos hb]

/-- The run of one term does not go below the base. -/
theorem conflictStart_base {t : ℕ} (ht : 0 < t) : ∀ {i}, n.logBaseIndex ≤ i →
    n.logBaseIndex ≤ n.conflictStart t i
  | 0, h => h
  | 1, h => h
  | i + 2, h => by
    unfold conflictStart
    split
    · next heq =>
      refine conflictStart_base ht ?_
      -- below the base the answer is term 0
      by_contra hlt
      have hzero : n.termAtLocked (i + 1) = 0 := by
        unfold termAtLocked
        rw [if_neg (by omega : ¬ i + 1 = n.logBaseIndex), if_pos (not_le.mp hlt), ite_self]
      omega
    · exact h

end Node

/-- **The leader's log has the terms `t`**, its base included. -/
theorem Writes.termAtLocked {s : Server σ} (h : Writes t T s) {i : ℕ} (hpos : 0 < i)
    (hb : s.node.logBaseIndex ≤ i) (hl : i ≤ s.node.lastLogIndexLocked) :
    s.node.termAtLocked i = t i := by
  rcases Nat.eq_or_lt_of_le hb with heq | hlt
  · rw [← heq, ← h.base (by omega), Node.termAtLocked, if_neg (by omega), if_pos rfl]
  · obtain ⟨e, he⟩ := h.indexed.node.dense.exists_entryAt hlt hl
    rw [Node.termAtLocked_of_entryAt h.indexed.node.dense he]
    exact (h.entry i e he).1

namespace Node

variable {n : Node σ}

/-- **Nothing is left to commit**: no entry of the leader's term, past the commit index, is known to
be on a majority. -/
def Settled (n : Node σ) : Prop :=
  ∀ i ≤ n.lastLogIndexLocked, n.commitIndex < i → n.termAtLocked i = n.currentTerm →
    n.replicaCount i < n.majority

/-- The loop leaves nothing behind from where it starts. -/
theorem advanceCommitFrom_settled : ∀ k, ∀ i ≤ k, (n.advanceCommitFrom k).commitIndex < i →
    n.termAtLocked i = n.currentTerm → n.replicaCount i < n.majority
  | 0, i, hi, hlt, _ => absurd hlt (by omega)
  | k + 1, i, hi, hlt, hterm => by
    unfold advanceCommitFrom at hlt
    rcases Nat.eq_or_lt_of_le hi with rfl | hi
    · -- at its own index it stops, or has looked and found no majority
      split at hlt
      · rw [if_neg (not_not.mpr hterm)] at hlt
        split at hlt
        · exact absurd hlt (lt_irrefl _)
        · next hcount => exact not_le.mp hcount
      · next hle => exact absurd hlt hle
    · have hlow := Nat.le_of_lt_succ hi
      split at hlt
      · split at hlt
        · exact advanceCommitFrom_settled k i hlow hlt hterm
        · split at hlt
          · exact absurd hlt (by dsimp only; omega)
          · exact advanceCommitFrom_settled k i hlow hlt hterm
      · next hle => exact absurd hlt (by omega)

theorem maybeAdvanceCommitIndexLocked_settled (hl : n.state = .leader) :
    n.maybeAdvanceCommitIndexLocked.Settled := by
  obtain ⟨c, hc⟩ := n.maybeAdvanceCommitIndexLocked_eq
  have hloop : n.maybeAdvanceCommitIndexLocked = n.advanceCommitFrom n.lastLogIndexLocked :=
    if_neg (not_not.mpr hl)
  intro i hi hlt hterm
  rw [hc] at hi hterm
  rw [hloop] at hlt
  rw [hc]
  show n.replicaCount i < n.majority
  exact advanceCommitFrom_settled n.lastLogIndexLocked i hi hlt hterm

end Node

/-- **A leader stays in office**, with the log it has. -/
structure Stays (n n' : Node σ) : Prop where
  log : SameLog n n'
  leads : n'.state = .leader
  term : n'.currentTerm = n.currentTerm
  peers : n'.peers = n.peers
  ordered : Ordered n → Ordered n'
  settled : n.Settled → n'.Settled

namespace Stays

theorem refl {n : Node σ} (h : n.state = .leader) : Stays n n :=
  ⟨SameLog.refl n, h, rfl, rfl, id, id⟩

theorem trans {n n' n'' : Node σ} (h₁ : Stays n n') (h₂ : Stays n' n'') : Stays n n'' :=
  ⟨h₁.log.trans h₂.log, h₂.leads, h₂.term.trans h₁.term, h₂.peers.trans h₁.peers,
    h₂.ordered ∘ h₁.ordered, h₂.settled ∘ h₁.settled⟩

end Stays

/-- **It learns something of a follower**: what it knows of the others stays as it is. -/
structure Steady (peer : String) (n n' : Node σ) : Prop extends Stays n n' where
  next : ∀ q ≠ peer, n'.nextIndex q = n.nextIndex q
  matched : ∀ q ≠ peer, n'.matchIndex q = n.matchIndex q

theorem Writes.of_stays {n n' : Node σ} (h : Writes t T (Server.start n)) (hs : Stays n n')
    : Writes t T (Server.start n') :=
  h.of_same (.start (hs.ordered h.indexed.node)) (hs.term.trans h.term) hs.log.log hs.log.base
    hs.log.baseTerm nofun

/-- What the leader records. -/
structure Records (peer : String) (n n' : Node σ) (i j : ℕ) : Prop extends Steady peer n n' where
  next_eq : n'.nextIndex peer = i
  matched_eq : n'.matchIndex peer = j

namespace Records

variable (peer : String) {n : Node σ}

/-- A handler that writes nothing but the indices of the follower and the commit index. -/
theorem of_handler (hl : n.state = .leader) (hd : Handler) (hsafe : hd.Safe n) {i j c : ℕ}
    {n' : Node σ} (hn : n.handle hd = some n')
    (heq : n' = { n with
      nextIndex := Function.update n.nextIndex peer i
      matchIndex := Function.update n.matchIndex peer j
      commitIndex := c }) (hsettled : n.Settled → n'.Settled) : Records peer n n' i j := by
  subst heq
  exact ⟨⟨⟨⟨rfl, rfl, rfl, rfl, rfl⟩, hl, rfl, rfl, fun ho => ho.handle hsafe hn, hsettled⟩,
    fun q hq => Function.update_of_ne hq .., fun q hq => Function.update_of_ne hq ..⟩,
    Function.update_self .., Function.update_self ..⟩

/-- A handler that goes on to `maybeAdvanceCommitIndexLocked`. -/
theorem of_advance (hl : n.state = .leader) (hd : Handler) (hsafe : hd.Safe n) {i j : ℕ}
    {n' : Node σ} (hn : n.handle hd = some n')
    (heq : n' = Node.maybeAdvanceCommitIndexLocked { n with
      nextIndex := Function.update n.nextIndex peer i
      matchIndex := Function.update n.matchIndex peer j }) : Records peer n n' i j := by
  obtain ⟨c, hc⟩ := Node.maybeAdvanceCommitIndexLocked_eq { n with
    nextIndex := Function.update n.nextIndex peer i
    matchIndex := Function.update n.matchIndex peer j }
  refine of_handler peer hl hd hsafe hn (heq.trans hc) fun _ => ?_
  rw [heq]
  exact Node.maybeAdvanceCommitIndexLocked_settled hl

/-- A success moves both indices to the end of what was sent. -/
theorem success (hl : n.state = .leader) {args : AppendEntriesArgs}
    (ht : args.term = n.currentTerm) :
    Records peer n (n.handleAppendEntriesReply peer args ⟨args.term, true, 0⟩)
      (args.prevLogIndex + args.entries.length + 1)
      (max (args.prevLogIndex + args.entries.length) (n.matchIndex peer)) := by
  refine of_advance peer hl (.entriesReply peer args ⟨args.term, true, 0⟩) trivial rfl ?_
  unfold Node.handleAppendEntriesReply
  rw [if_neg (by rw [ht]; exact lt_irrefl _),
    if_neg (by rw [hl, ht]; exact not_or.mpr ⟨not_not.mpr rfl, not_not.mpr rfl⟩), if_pos rfl]

/-- The answer to a snapshot moves them to its end. -/
theorem installed (hl : n.state = .leader) {args : InstallSnapshotArgs}
    (ht : args.term = n.currentTerm) :
    Records peer n (n.handleInstallSnapshotReply peer args ⟨args.term⟩)
      (max (args.lastIncludedIndex + 1) (n.nextIndex peer))
      (max args.lastIncludedIndex (n.matchIndex peer)) := by
  refine of_advance peer hl (.snapshotReply peer args ⟨args.term⟩) trivial rfl ?_
  unfold Node.handleInstallSnapshotReply
  rw [if_neg (by rw [ht]; exact lt_irrefl _),
    if_neg (by rw [hl, ht]; exact not_or.mpr ⟨not_not.mpr rfl, not_not.mpr rfl⟩)]

/-- A rejection moves `nextIndex` to its hint. -/
theorem hint (hl : n.state = .leader) {args : AppendEntriesArgs} (ht : args.term = n.currentTerm)
    {c : ℕ} (hc : 0 < c) :
    Records peer n (n.handleAppendEntriesReply peer args ⟨args.term, false, c⟩) c
      (n.matchIndex peer) := by
  have heq : n.handleAppendEntriesReply peer args ⟨args.term, false, c⟩ =
      { n with nextIndex := Function.update n.nextIndex peer c } :=
    Node.handleAppendEntriesReply_hint hl ht hc
  refine of_handler peer hl (.entriesReply peer args ⟨args.term, false, c⟩) trivial rfl
    (c := n.commitIndex) (heq.trans (by rw [Function.update_eq_self])) fun hsettled => ?_
  rw [heq]
  exact hsettled

end Records

/-! ### The follower -/

namespace Node

variable {n : Node σ} {args : AppendEntriesArgs}

/-- An accepted request is answered so, and takes the commit index along as far as the log goes. -/
theorem handleAppendEntries_accepted (hge : n.currentTerm ≤ args.term)
    (hc : n.checkPrevLog args.prevLogIndex args.prevLogTerm = none) :
    (n.handleAppendEntries args).2 = ⟨args.term, true, 0⟩ ∧
      min args.leaderCommit (n.handleAppendEntries args).1.lastLogIndexLocked ≤
        (n.handleAppendEntries args).1.commitIndex := by
  obtain ⟨hlt, -⟩ | ⟨-, hne, -⟩ | ⟨-, -, heq⟩ := n.handleAppendEntries_cases args
  · exact absurd hlt (not_lt.mpr hge)
  · exact absurd hc hne
  rw [heq]
  refine ⟨rfl, ?_⟩
  dsimp only
  rw [(advanceCommit_sameLog _ _).lastLogIndexLocked]
  unfold advanceCommit
  split
  · exact le_rfl
  · next hlt => exact (min_le_left _ _).trans (not_lt.mp hlt)

/-- A snapshot of the current term is acknowledged in any case. -/
theorem handleInstallSnapshot_reply (M : StateMachine σ) {args : InstallSnapshotArgs}
    (hge : n.currentTerm ≤ args.term) : (n.handleInstallSnapshot M args).2 = ⟨args.term⟩ := by
  have hterm : (n.adopt args.term).currentTerm = args.term := n.adopt_currentTerm hge
  unfold handleInstallSnapshot
  rw [n.installSnapshotBegin_eq hge]
  by_cases hle : args.lastIncludedIndex ≤ (n.adopt args.term).logBaseIndex
  · rw [if_pos hle, hterm]
  · rw [if_neg hle]
    dsimp only [installSnapshotRestore, installSnapshotSave]
    cases M.restore (n.adopt args.term).stateMachine args.data with
    | none => simp only [Option.map_none, hterm]
    | some sm => simp only [Option.map_some, installSnapshotFinish, if_neg hle, hterm]

end Node

theorem Node.entryAt_of_log_nil {n : Node σ} (h : n.log = []) (i : ℕ) : n.entryAt i = none := by
  unfold Node.entryAt
  rw [h, List.getElem?_nil, ite_self]

theorem Takes.of_log_nil {n : Node σ} (h : n.log = []) : Takes t n := by
  refine ⟨fun i e he => ?_, fun i e he => ?_, fun e he => ?_⟩
  · rw [h] at he
    cases he
  · rw [h] at he
    cases he
  · rw [h] at he
    cases he

/-! ### Both sides -/

/-- **A leader and a follower that answers it**, in a term `T` in which the leader's log has the
terms `t`. -/
structure Syncing (M : StateMachine σ) (t : ℕ → ℕ) (T : ℕ) (peer : String)
    (leader follower : Node σ) : Prop where
  leads : leader.state = .leader
  writes : Writes t T (Server.start leader)
  /-- The snapshot on the leader's storage is that of its base, and can be restored. -/
  snapshot : 0 < leader.logBaseIndex → ∃ data, (∀ sm, M.restore sm data ≠ none) ∧
    leader.storage.loadSnapshot = some ⟨leader.logBaseIndex, leader.logBaseTerm, data⟩
  takes : Takes t follower
  term_le : follower.currentTerm ≤ T
  same : ∀ i x y, leader.entryAt i = some x → follower.entryAt i = some y → x.term = y.term → x = y
  base_le : follower.logBaseIndex ≤ leader.lastLogIndexLocked
  base_term : 0 < follower.logBaseIndex → leader.logBaseIndex ≤ follower.logBaseIndex →
    follower.logBaseTerm = t follower.logBaseIndex
  next_pos : 0 < leader.nextIndex peer
  next_le : leader.nextIndex peer ≤ leader.lastLogIndexLocked + 1
  /-- The one request that a follower does not check is not sent to one that cannot take it. -/
  next_one : leader.nextIndex peer = 1 → follower.logBaseIndex ≤ 1
  match_le : leader.matchIndex peer ≤ leader.lastLogIndexLocked

/-- The logs agree up to `nextIndex`, and the leader knows. -/
structure Agreed (t : ℕ → ℕ) (peer : String) (leader follower : Node σ) : Prop where
  leader_base : leader.logBaseIndex < leader.nextIndex peer
  follower_base : follower.logBaseIndex < leader.nextIndex peer
  covers : Covers t follower (leader.nextIndex peer - 1)
  matched : leader.nextIndex peer - 1 ≤ leader.matchIndex peer

namespace Syncing

variable {M : StateMachine σ} {t : ℕ → ℕ} {T : ℕ} {peer : String} {L L' F F' : Node σ}

/-- The leader stays in office, and the follower changes. -/
theorem of_stays (h : Syncing M t T peer L F) (hL : Stays L L') {next matched : ℕ}
    (hnext : L'.nextIndex peer = next) (hmatched : L'.matchIndex peer = matched)
    (hF : Takes t F') (hterm : F'.currentTerm ≤ T)
    (hsame : ∀ i x y, L.entryAt i = some x → F'.entryAt i = some y → x.term = y.term → x = y)
    (hbase : F'.logBaseIndex ≤ L.lastLogIndexLocked)
    (hbt : 0 < F'.logBaseIndex → L.logBaseIndex ≤ F'.logBaseIndex →
      F'.logBaseTerm = t F'.logBaseIndex)
    (hpos : 0 < next) (hle : next ≤ L.lastLogIndexLocked + 1)
    (hone : next = 1 → F'.logBaseIndex ≤ 1) (hmatch : matched ≤ L.lastLogIndexLocked) :
    Syncing M t T peer L' F' where
  leads := hL.leads
  writes := h.writes.of_stays hL
  snapshot := by
    unfold Storage.loadSnapshot
    rw [hL.log.base, hL.log.baseTerm, hL.log.snapshot]
    exact h.snapshot
  takes := hF
  term_le := hterm
  same i x y := by
    rw [Node.entryAt_congr hL.log.log hL.log.base]
    exact hsame i x y
  base_le := by rw [hL.log.lastLogIndexLocked]; exact hbase
  base_term := by rw [hL.log.base]; exact hbt
  next_pos := by rw [hnext]; exact hpos
  next_le := by rw [hnext, hL.log.lastLogIndexLocked]; exact hle
  next_one := by rw [hnext]; exact hone
  match_le := by rw [hmatched, hL.log.lastLogIndexLocked]; exact hmatch

/-- The follower takes nothing from a request but its term. -/
theorem of_follow (h : Syncing M t T peer L F) {next matched : ℕ}
    (hL : Records peer L L' next matched) {term : ℕ} (hterm : term = T) (leaderID : String)
    (hpos : 0 < next) (hle : next ≤ L.lastLogIndexLocked + 1)
    (hone : next = 1 → F.logBaseIndex ≤ 1) (hmatch : matched ≤ L.lastLogIndexLocked) :
    Syncing M t T peer L' (F.follow term leaderID) := by
  subst hterm
  have hsame := F.follow_sameLog term leaderID
  refine h.of_stays hL.toStays hL.next_eq hL.matched_eq (h.takes.of_same hsame.log hsame.base)
    (F.adopt_currentTerm h.term_le).le ?_ ?_ ?_ hpos hle ?_ hmatch
  · intro i x y hx hy
    rw [Node.entryAt_congr hsame.log hsame.base] at hy
    exact h.same i x y hx hy
  · rw [hsame.base]; exact h.base_le
  · rw [hsame.base, hsame.baseTerm]; exact h.base_term
  · rw [hsame.base]; exact hone

theorem dense (h : Syncing M t T peer L F) : L.Dense := h.writes.indexed.node.dense

/-- What the leader sends is its own entry at that index. -/
theorem entryAt_of_mem (h : Syncing M t T peer L F) {e : LogEntry} (he : e ∈ L.log) :
    L.entryAt e.index = some e := by
  obtain ⟨j, hj⟩ := List.mem_iff_getElem?.mp he
  rw [h.dense j e hj, Node.entryAt_slot]
  exact hj

/-- The terms that the follower has where it agrees. -/
theorem termAtLocked_of_covers (h : Syncing M t T peer L F) {i : ℕ} (hpos : 0 < i)
    (hL : L.logBaseIndex ≤ i) (hF : F.logBaseIndex ≤ i) (hcov : Covers t F i) :
    i ≤ F.lastLogIndexLocked ∧ F.termAtLocked i = t i := by
  have hlast := h.takes.dense.lastLogIndexLocked
  have hreach : i ≤ F.lastLogIndexLocked := by rw [hlast]; exact hcov.reach
  refine ⟨hreach, ?_⟩
  rcases Nat.eq_or_lt_of_le hF with heq | hlt
  · rw [Node.termAtLocked, if_neg (by omega), if_pos heq.symm, h.base_term (by omega) (by omega),
      heq]
  · obtain ⟨e, he⟩ := h.takes.dense.getElem?_of_le hlt hreach
    have hat := hcov.agrees _ (by omega) e he
    rw [h.takes.dense.termAtLocked hlt he, hat]
    dsimp only
    congr 1
    omega

/-- A request from index 0 meets a snapshot of index 1 at most, which has the right term. -/
theorem coveredTerms (h : Syncing M t T peer L F) {args : AppendEntriesArgs} (hf : Fair t T args)
    (hb : L.logBaseIndex < L.nextIndex peer) (hprev : args.prevLogIndex + 1 = L.nextIndex peer) :
    F.CoveredTerms args := by
  intro h0 e he hle
  have hone := h.next_one (by omega)
  obtain ⟨j, hj⟩ := List.mem_iff_getElem?.mp he
  have hidx := consecutive_iff.mp hf.entries j e hj
  have hbase : e.index = F.logBaseIndex := by omega
  have hlast := h.takes.dense.lastLogIndexLocked
  rw [(hf.terms e he).1, hbase, Node.termAtLocked, if_neg (by omega), if_pos rfl,
    h.base_term (by omega) (by omega)]

/-- What the follower takes over is the leader's. -/
theorem same_handleAppendEntries (h : Syncing M t T peer L F) {args : AppendEntriesArgs}
    (hmem : ∀ e ∈ args.entries, e ∈ L.log) (htakes : Takes t (F.handleAppendEntries args).1)
    (i : ℕ) (x y : LogEntry) (hx : L.entryAt i = some x)
    (hy : (F.handleAppendEntries args).1.entryAt i = some y) (hxy : x.term = y.term) : x = y := by
  rcases Node.entryAt_handleAppendEntries hy with hold | hnew
  · exact h.same i x y hx hold hxy
  · have hat := h.entryAt_of_mem (hmem y hnew)
    rw [htakes.dense.index_of_entryAt hy] at hat
    exact Option.some.inj (hx.symm.trans hat)

/-- **An exchange that succeeds**: both indices go on by what was sent. -/
theorem accepted (h : Syncing M t T peer L F) (hb : L.logBaseIndex < L.nextIndex peer)
    (hc : F.checkPrevLog (L.nextIndex peer - 1) (L.termAtLocked (L.nextIndex peer - 1)) = none) :
    ∃ L' F', replicateOnce M peer (L, F) = (L', F') ∧ Steady peer L L' ∧
      Syncing M t T peer L' F' ∧ Agreed t peer L' F' ∧
      L'.nextIndex peer =
        min (L.nextIndex peer + Node.maxReplicationBatchSize) (L.lastLogIndexLocked + 1) ∧
      (L'.nextIndex peer = L.lastLogIndexLocked + 1 → L.commitIndex ≤ F'.commitIndex) := by
  obtain ⟨args, hsend, hterm, hprev, hpt, hcommit, hlen, hmem⟩ :=
    Node.sendAppendEntriesTo_eq h.leads h.dense hb
  have hfair := h.writes.send hsend
  have hge : F.currentTerm ≤ args.term := by rw [hfair.term]; exact h.term_le
  have hp : L.nextIndex peer - 1 = args.prevLogIndex := by omega
  rw [hp, ← hpt] at hc
  obtain ⟨hreply, hcommitted⟩ := Node.handleAppendEntries_accepted hge hc
  obtain ⟨htakes, -, hcovers⟩ := h.takes.deliver hfair fun _ => h.coveredTerms hfair hb hprev
  have hcovers := hcovers (by rw [hreply])
  have hrec := Records.success peer h.leads hterm
  have hbase := F.handleAppendEntries_base args
  -- the follower's snapshot ends within what is now agreed
  have hFbase : F.logBaseIndex ≤ args.prevLogIndex + args.entries.length := by
    have hbl := h.base_le
    have hbatch : Node.maxReplicationBatchSize = 64 := rfl
    rcases (F.checkPrevLog_eq_none_iff _ _).mp hc with h0 | ⟨hle, -⟩
    · have hone := h.next_one (by omega)
      omega
    · omega
  have hnext := h.next_le
  have hmatch := h.match_le
  have hreach := hcovers.reach
  rw [← htakes.dense.lastLogIndexLocked] at hreach
  have hcl := h.writes.indexed.node.commit_le
  change L.commitIndex ≤ L.lastLogIndexLocked at hcl
  refine ⟨_, (F.handleAppendEntries args).1, ?_, hrec.toSteady,
    h.of_stays hrec.toStays hrec.next_eq hrec.matched_eq htakes ?_
      (h.same_handleAppendEntries hmem htakes) ?_ ?_ ?_ ?_ ?_ ?_,
    ⟨?_, ?_, ?_, ?_⟩, ?_, fun hend => ?_⟩
  · simp only [replicateOnce, hsend, hreply]
  · rw [(F.handleAppendEntries_sameVote args).currentTerm, F.adopt_currentTerm hge, hfair.term]
  · rw [hbase]; exact h.base_le
  · rw [hbase, Node.handleAppendEntries_logBaseTerm]; exact h.base_term
  · omega
  · omega
  · rw [hbase]; omega
  · omega
  · rw [hrec.log.base, hrec.next_eq]; omega
  · rw [hbase, hrec.next_eq]; omega
  · rw [hrec.next_eq]; exact hcovers
  · rw [hrec.next_eq, hrec.matched_eq]; exact le_max_left _ _
  · rw [hrec.next_eq]; omega
  · rw [hrec.next_eq] at hend
    omega

/-- A rejection does not send the leader below the follower's snapshot. -/
theorem base_le_hint (h : Syncing M t T peer L F) {i c : ℕ} (hL : L.logBaseIndex ≤ i)
    (hl : i ≤ L.lastLogIndexLocked) (hc : F.checkPrevLog i (L.termAtLocked i) = some c) :
    F.logBaseIndex ≤ c := by
  have hlast := h.takes.dense.lastLogIndexLocked
  unfold Node.checkPrevLog at hc
  split at hc
  · next hpos =>
    split at hc
    · cases hc
      exact Nat.le_succ _
    · next hb =>
      split at hc
      · cases hc
        omega
      · next hF =>
        split at hc
        · next hne =>
          cases hc
          have hterm : L.termAtLocked i = t i := h.writes.termAtLocked hpos hL hl
          rw [hterm] at hne
          -- at its base the follower agrees, so it is one of its entries that does not
          rcases Nat.eq_or_lt_of_le (not_lt.mp hb) with heq | hlt
          · refine absurd ?_ hne
            rw [← heq]
            exact (h.termAtLocked_of_covers (by omega) (by omega) le_rfl (.of_le_base le_rfl)).2
          · obtain ⟨e, he⟩ := h.takes.dense.getElem?_of_le hlt (not_lt.mp hF)
            refine Node.conflictStart_base ?_ hlt.le
            rw [h.takes.dense.termAtLocked hlt he]
            exact h.takes.pos e (List.mem_of_getElem? he)
        · cases hc
  · cases hc

/-- **An exchange that is rejected**: `nextIndex` goes down, or up to right behind the follower's
snapshot. -/
theorem rejected (h : Syncing M t T peer L F) (hb : L.logBaseIndex < L.nextIndex peer) {c : ℕ}
    (hc : F.checkPrevLog (L.nextIndex peer - 1) (L.termAtLocked (L.nextIndex peer - 1)) = some c) :
    ∃ L' F', replicateOnce M peer (L, F) = (L', F') ∧ Steady peer L L' ∧ Syncing M t T peer L' F' ∧
      F'.logBaseIndex = F.logBaseIndex ∧ L'.nextIndex peer = c ∧ F.logBaseIndex ≤ c ∧
      (c < L.nextIndex peer ∨ L.nextIndex peer ≤ F.logBaseIndex ∧ c = F.logBaseIndex + 1) := by
  obtain ⟨args, hsend, hterm, hprev, hpt, -⟩ := Node.sendAppendEntriesTo_eq h.leads h.dense hb
  have hge : F.currentTerm ≤ args.term := by rw [hterm]; exact h.term_le.trans h.writes.term.ge
  have hnext := h.next_le
  have hbase_le := h.base_le
  have hhint := h.base_le_hint (by omega) (by omega) hc
  have hp : L.nextIndex peer - 1 = args.prevLogIndex := by omega
  rw [hp, ← hpt] at hc
  obtain ⟨hpos, hcpos, hdir⟩ := Node.checkPrevLog_hint hc
  have hrec := Records.hint peer h.leads hterm hcpos
  refine ⟨_, F.follow args.term args.leaderID, ?_, hrec.toSteady,
    h.of_follow hrec (hterm.trans h.writes.term) _ hcpos ?_ ?_ h.match_le,
    (F.follow_sameLog args.term args.leaderID).base, hrec.next_eq, hhint, ?_⟩
  · simp only [replicateOnce, hsend, Node.handleAppendEntries_rejected hge hc]
  · omega
  · omega
  · omega

/-- **The snapshot**: `nextIndex` goes to right behind the leader's base, and the follower has a
snapshot that goes as far, or farther. -/
theorem installed (h : Syncing M t T peer L F) (hb : L.nextIndex peer ≤ L.logBaseIndex) :
    ∃ L' F', replicateOnce M peer (L, F) = (L', F') ∧ Steady peer L L' ∧ Syncing M t T peer L' F' ∧
      L.logBaseIndex ≤ F'.logBaseIndex ∧ L'.nextIndex peer = L.logBaseIndex + 1 := by
  have hpos := h.next_pos
  obtain ⟨data, hrestore, hsnap⟩ := h.snapshot (by omega)
  have hsend := Node.sendAppendEntriesTo_snapshot h.leads hpos hb
  have hge : F.currentTerm ≤ L.currentTerm := h.term_le.trans h.writes.term.ge
  have hlast : L.logBaseIndex ≤ L.lastLogIndexLocked := by
    rw [h.dense.lastLogIndexLocked]; exact Nat.le_add_right _ _
  have hmatch := h.match_le
  obtain ⟨args, hargs⟩ : ∃ args : InstallSnapshotArgs, args =
      ⟨L.currentTerm, L.id, L.logBaseIndex, L.logBaseTerm, data⟩ := ⟨_, rfl⟩
  have hload : L.installSnapshotArgs L.currentTerm = some args := by
    unfold Node.installSnapshotArgs
    rw [hsnap, hargs]
    rfl
  have hterm : args.term = L.currentTerm := by rw [hargs]
  have hidx : args.lastIncludedIndex = L.logBaseIndex := by rw [hargs]
  have hrec := Records.installed peer h.leads hterm
  have hT : args.term = T := hterm.trans h.writes.term
  have hge : F.currentTerm ≤ args.term := hge.trans_eq hterm.symm
  have hreply := F.handleInstallSnapshot_reply M hge
  have hround : replicateOnce M peer (L, F) =
      (L.handleInstallSnapshotReply peer args ⟨args.term⟩, (F.handleInstallSnapshot M args).1) := by
    simp only [replicateOnce, hsend, hload, hreply]
  refine ⟨_, _, hround, hrec.toSteady, ?_⟩
  obtain ⟨hlt, -⟩ | ⟨-, hle, heq⟩ | ⟨-, -, hnone, -⟩ | ⟨sm, -, hlt, -, heq⟩ :=
    F.handleInstallSnapshot_cases M args
  · -- a message of the present term is not refused
    omega
  · -- the follower has a newer snapshot and leaves it at that
    rw [heq]
    refine ⟨h.of_follow hrec hT _ ?_ ?_ ?_ ?_, ?_, ?_⟩
    · omega
    · omega
    · omega
    · omega
    · rw [(F.follow_sameLog args.term args.leaderID).base]; omega
    · rw [hrec.next_eq]; omega
  · rw [hargs] at hnone
    -- the state machine takes what it has written itself
    exact absurd hnone (hrestore _)
  · rw [heq]
    -- the log is dropped, so the two logs agree for want of entries
    have hlog : ((F.follow args.term args.leaderID).installed args sm).log = [] := rfl
    have hbase : ((F.follow args.term args.leaderID).installed args sm).logBaseIndex =
        L.logBaseIndex := hidx
    refine ⟨h.of_stays hrec.toStays hrec.next_eq hrec.matched_eq (.of_log_nil hlog)
      ?_ ?_ ?_ ?_ ?_ ?_ ?_ ?_, ?_, ?_⟩
    · exact (F.adopt_currentTerm hge).trans_le hT.le
    · intro i x y _ hy
      rw [Node.entryAt_of_log_nil hlog] at hy
      cases hy
    · omega
    · intro _ _
      rw [hbase]
      have hbt : args.lastIncludedTerm = L.logBaseTerm := by rw [hargs]
      exact hbt.trans (h.writes.base (hpos.trans_le hb))
    · omega
    · omega
    · omega
    · omega
    · exact hbase.ge
    · rw [hrec.next_eq]; omega

/-! ### Finding a place where the logs agree -/

/-- How many exchanges it takes at most until one succeeds, that one not counted. -/
def searchCost (peer : String) (p : Node σ × Node σ) : ℕ :=
  if p.1.nextIndex peer ≤ p.1.logBaseIndex then 2
  else if p.1.nextIndex peer = p.2.logBaseIndex + 1 then 0
  else if p.1.nextIndex peer ≤ p.2.logBaseIndex then 1
  else p.1.nextIndex peer + 1

/-- Behind its snapshot the follower accepts. -/
theorem accepts_at_base (h : Syncing M t T peer L F) (hb : L.logBaseIndex < L.nextIndex peer)
    (heq : L.nextIndex peer = F.logBaseIndex + 1) :
    F.checkPrevLog (L.nextIndex peer - 1) (L.termAtLocked (L.nextIndex peer - 1)) = none := by
  rw [heq, Nat.add_sub_cancel, Node.checkPrevLog_eq_none_iff]
  rcases Nat.eq_zero_or_pos F.logBaseIndex with hzero | hpos
  · exact Or.inl hzero
  · obtain ⟨hreach, hterm⟩ :=
      h.termAtLocked_of_covers hpos (by omega) le_rfl (.of_le_base le_rfl)
    have hle : L.logBaseIndex ≤ F.logBaseIndex := by omega
    have hL : L.termAtLocked F.logBaseIndex = t F.logBaseIndex :=
      h.writes.termAtLocked hpos hle h.base_le
    exact Or.inr ⟨le_rfl, hreach, hterm.trans hL.symm⟩

/-- **One exchange** succeeds, or brings a success nearer. -/
theorem search (h : Syncing M t T peer L F) :
    ∃ L' F', replicateOnce M peer (L, F) = (L', F') ∧ Steady peer L L' ∧ Syncing M t T peer L' F' ∧
      (Agreed t peer L' F' ∨ searchCost peer (L', F') < searchCost peer (L, F)) := by
  have hpos := h.next_pos
  rcases Nat.lt_or_ge L.logBaseIndex (L.nextIndex peer) with hb | hb
  · cases hc : F.checkPrevLog (L.nextIndex peer - 1) (L.termAtLocked (L.nextIndex peer - 1)) with
    | none =>
      obtain ⟨L', F', heq, hlog, hs, ha, -⟩ := h.accepted hb hc
      exact ⟨L', F', heq, hlog, hs, Or.inl ha⟩
    | some c =>
      obtain ⟨L', F', heq, hlog, hs, hbase, hnext, hhint, hdir⟩ := h.rejected hb hc
      refine ⟨L', F', heq, hlog, hs, Or.inr ?_⟩
      -- right behind the snapshot there is no rejection
      have hne : L.nextIndex peer ≠ F.logBaseIndex + 1 := by
        intro hat
        rw [h.accepts_at_base hb hat] at hc
        cases hc
      have hcpos := hs.next_pos
      unfold searchCost
      dsimp only
      rw [hlog.log.base, hbase, hnext, if_neg (not_le.mpr hb), if_neg hne]
      split_ifs <;> omega
  · obtain ⟨L', F', heq, hlog, hs, hbase, hnext⟩ := h.installed hb
    refine ⟨L', F', heq, hlog, hs, Or.inr ?_⟩
    unfold searchCost
    dsimp only
    rw [hlog.log.base, hnext, if_pos hb, if_neg (by omega)]
    split_ifs <;> omega

end Syncing

/-! ### From there on -/

namespace Agreed

variable {M : StateMachine σ} {t : ℕ → ℕ} {T : ℕ} {peer : String} {L F : Node σ}

/-- **Where the logs agree every exchange succeeds.** -/
theorem replicateOnce (ha : Agreed t peer L F) (h : Syncing M t T peer L F) :
    ∃ L' F', Raft.replicateOnce M peer (L, F) = (L', F') ∧ Steady peer L L' ∧
      Syncing M t T peer L' F' ∧ Agreed t peer L' F' ∧
      L'.nextIndex peer =
        min (L.nextIndex peer + Node.maxReplicationBatchSize) (L.lastLogIndexLocked + 1) ∧
      (L'.nextIndex peer = L.lastLogIndexLocked + 1 → L.commitIndex ≤ F'.commitIndex) := by
  refine h.accepted ha.leader_base ((F.checkPrevLog_eq_none_iff _ _).mpr ?_)
  have hL := ha.leader_base
  have hF := ha.follower_base
  have hle := h.next_le
  rcases Nat.eq_zero_or_pos (L.nextIndex peer - 1) with hzero | hpos
  · exact Or.inl hzero
  · obtain ⟨hreach, hterm⟩ := h.termAtLocked_of_covers hpos (by omega) (by omega) ha.covers
    have hLb : L.logBaseIndex ≤ L.nextIndex peer - 1 := by omega
    have hLl : L.nextIndex peer - 1 ≤ L.lastLogIndexLocked := by omega
    have hLt : L.termAtLocked (L.nextIndex peer - 1) = t (L.nextIndex peer - 1) :=
      h.writes.termAtLocked hpos hLb hLl
    exact Or.inr ⟨by omega, hreach, hterm.trans hLt.symm⟩

end Agreed

/-- **The follower has the leader's log**, and the leader knows. -/
structure CaughtUp (peer : String) (leader follower : Node σ) : Prop where
  matched : leader.matchIndex peer = leader.lastLogIndexLocked
  reaches : leader.lastLogIndexLocked ≤ follower.lastLogIndexLocked
  entries : ∀ i x, leader.entryAt i = some x → follower.logBaseIndex < i →
    follower.entryAt i = some x

theorem Agreed.caughtUp {M : StateMachine σ} {peer : String} {L F : Node σ} (ha : Agreed t peer L F)
    (h : Syncing M t T peer L F) (hend : L.nextIndex peer = L.lastLogIndexLocked + 1)
    : CaughtUp peer L F := by
  have hcovers := ha.covers
  have hmatched := ha.matched
  rw [hend, Nat.add_sub_cancel] at hcovers hmatched
  have hreach := hcovers.reach
  rw [← h.takes.dense.lastLogIndexLocked] at hreach
  refine ⟨le_antisymm h.match_le hmatched, hreach, fun i x hx hb => ?_⟩
  have hi := h.dense.le_lastLogIndexLocked hx
  obtain ⟨e, he⟩ := h.takes.dense.exists_entryAt hb (hi.trans hreach)
  -- it has the term of the leader's entry, so it is the same
  have hL := Node.lt_of_entryAt hx
  have hterm := (h.termAtLocked_of_covers (by omega) hL.le hb.le (hcovers.mono hi)).2
  rw [Node.termAtLocked_of_entryAt h.takes.dense he] at hterm
  rw [he, h.same i x e hx he ((h.writes.entry i x hx).1.trans hterm.symm)]

end Raft
end BoilerPulse
