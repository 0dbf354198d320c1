import BoilerPulse.Raft.Syncing

/-!
# How followers catch up

`Group` is a leader with its followers, served in any order by its `replicationLoop`s. `Due` counts
the exchanges that a follower needs until it has the leader's log: those of the search for a place
where the logs agree, and one for each batch from there on. An exchange with it takes one off
(`Due.step`), the exchanges with the others do not touch it (`Due.other`), so `followers_catch_up`
holds whatever the order.

Since the leader commits what a majority has, an entry of its own term at the end of its log and a
majority that has caught up are enough to commit everything (`stable_leader_commits`).
-/

namespace BoilerPulse
namespace Raft

variable {σ : Type} {M : StateMachine σ}

/-! ### Counting down -/

/-- **At most `b` exchanges are left** until the follower has caught up. -/
inductive Due (M : StateMachine σ) (t : ℕ → ℕ) (T : ℕ) (peer : String) (b : ℕ) (L F : Node σ) : Prop
  | searching (h : Syncing M t T peer L F) (hb : Syncing.searchCost peer (L, F) +
        L.lastLogIndexLocked / Node.maxReplicationBatchSize + 2 ≤ b)
  | sending (h : Syncing M t T peer L F) (ha : Agreed t peer L F)
      (hb : (L.lastLogIndexLocked + 1 - L.nextIndex peer) / Node.maxReplicationBatchSize + 1 ≤ b)
  | done (h : Syncing M t T peer L F) (ha : Agreed t peer L F)
      (hend : L.nextIndex peer = L.lastLogIndexLocked + 1)

namespace Due

variable {M : StateMachine σ} {t : ℕ → ℕ} {T : ℕ} {peer q : String} {b : ℕ} {L L' F : Node σ}

/-- **An exchange** takes one off. -/
theorem step (hd : Due M t T peer b L F) :
    ∃ L' F', replicateOnce M peer (L, F) = (L', F') ∧ Steady peer L L' ∧
      Due M t T peer (b - 1) L' F' := by
  have hbatch : Node.maxReplicationBatchSize = 64 := rfl
  cases hd with
  | searching h hb =>
    -- a search ends in agreement, or with a lower `nextIndex`
    obtain ⟨L', F', heq, hsteady, hs, ha | hlt⟩ := h.search
    · refine ⟨L', F', heq, hsteady, .sending hs ha ?_⟩
      have hpos := hs.next_pos
      rw [hbatch] at hb ⊢
      rw [hsteady.log.lastLogIndexLocked]
      omega
    · refine ⟨L', F', heq, hsteady, .searching hs ?_⟩
      rw [hsteady.log.lastLogIndexLocked]
      omega
  | sending h ha hb =>
    obtain ⟨L', F', heq, hsteady, hs, ha', hnext, -⟩ := ha.replicateOnce h
    have hlast := hsteady.log.lastLogIndexLocked
    -- a full batch takes as many entries off as the bound allows for
    by_cases hend : L'.nextIndex peer = L'.lastLogIndexLocked + 1
    · exact ⟨L', F', heq, hsteady, .done hs ha' hend⟩
    · refine ⟨L', F', heq, hsteady, .sending hs ha' ?_⟩
      rw [hbatch] at hb ⊢
      omega
  | done h ha hend =>
    obtain ⟨L', F', heq, hsteady, hs, ha', hnext, -⟩ := ha.replicateOnce h
    have hlast := hsteady.log.lastLogIndexLocked
    exact ⟨L', F', heq, hsteady, .done hs ha' (by omega)⟩

/-- **An exchange with another follower** changes nothing for this one. -/
theorem other (hd : Due M t T peer b L F) (hq : Steady q L L') (hne : peer ≠ q) :
    Due M t T peer b L' F := by
  have hnext := hq.next peer hne
  have hmatched := hq.matched peer hne
  have hlast := hq.log.lastLogIndexLocked
  have hs (h : Syncing M t T peer L F) : Syncing M t T peer L' F :=
    h.of_stays hq.toStays hnext hmatched h.takes h.term_le h.same h.base_le h.base_term h.next_pos
      h.next_le h.next_one h.match_le
  have hagreed : Agreed t peer L F → Agreed t peer L' F := fun ha =>
    ⟨by rw [hq.log.base, hnext]; exact ha.leader_base, by rw [hnext]; exact ha.follower_base,
      by rw [hnext]; exact ha.covers, by rw [hnext, hmatched]; exact ha.matched⟩
  cases hd with
  | searching h hb =>
    refine .searching (hs h) ?_
    unfold Syncing.searchCost at hb ⊢
    dsimp only at hb ⊢
    rw [hq.log.base, hnext, hlast]
    exact hb
  | sending h ha hb => exact .sending (hs h) (hagreed ha) (by rw [hnext, hlast]; exact hb)
  | done h ha hend => exact .done (hs h) (hagreed ha) (by rw [hnext, hlast]; exact hend)

/-- When nothing is left, the follower has caught up. -/
theorem caughtUp (hd : Due M t T peer 0 L F) : CaughtUp peer L F ∧
    L.commitIndex ≤ (replicateOnce M peer (L, F)).2.commitIndex := by
  cases hd with
  | searching h hb | sending h ha hb => exact absurd hb (Nat.not_succ_le_zero _)
  | done h ha hend =>
    obtain ⟨L', F', heq, -, -, -, hnext, hcommit⟩ := ha.replicateOnce h
    refine ⟨ha.caughtUp h hend, ?_⟩
    rw [heq]
    exact hcommit (by omega)

end Due

/-! ### The whole exchange -/

/-- **A leader that has been elected, and a follower** that has not heard of it: its log and its
snapshot do not contradict those of the leader, and it may not have learned of the term. -/
structure Elected (M : StateMachine σ) (peer : String) (leader follower : Node σ) : Prop where
  leads : leader.state = .leader
  office : TakesOffice peer leader { follower with currentTerm := leader.currentTerm }
  term_le : follower.currentTerm ≤ leader.currentTerm
  same : ∀ i x y, leader.entryAt i = some x → follower.entryAt i = some y → x.term = y.term → x = y
  /-- `nextIndex` is behind the log that the leader was elected with, which has what the follower
  has compacted. -/
  base_lt : follower.logBaseIndex < leader.nextIndex peer
  next_le : leader.nextIndex peer ≤ leader.lastLogIndexLocked + 1
  base_term : 0 < follower.logBaseIndex → leader.logBaseIndex ≤ follower.logBaseIndex →
    follower.logBaseTerm = leader.termAtLocked follower.logBaseIndex
  snapshot : 0 < leader.logBaseIndex → ∃ data, (∀ sm, M.restore sm data ≠ none) ∧
    leader.storage.loadSnapshot = some ⟨leader.logBaseIndex, leader.logBaseTerm, data⟩

theorem Elected.syncing {peer : String} {L F : Node σ} (h : Elected M peer L F) :
    Syncing M (leaderTerms L { F with currentTerm := L.currentTerm }) L.currentTerm peer L F where
  leads := h.leads
  writes := h.office.writes
  snapshot := h.snapshot
  takes := h.office.takes.of_same rfl rfl
  term_le := h.term_le
  same := h.same
  base_le := Nat.le_of_lt_succ (h.base_lt.trans_le h.next_le)
  base_term hpos hle := by
    rw [h.base_term hpos hle, leaderTerms, if_neg (not_lt.mpr hle),
      if_pos (Nat.le_of_lt_succ (h.base_lt.trans_le h.next_le))]
  next_pos := Nat.zero_lt_of_lt h.base_lt
  next_le := h.next_le
  next_one hone := by
    have hlt := h.base_lt
    omega
  match_le := by rw [h.office.unmatched]; exact Nat.zero_le _

/-- How many exchanges it takes at most until a follower has caught up. -/
def catchUpBound (L : Node σ) : ℕ :=
  L.lastLogIndexLocked + L.lastLogIndexLocked / Node.maxReplicationBatchSize + 4

theorem Elected.due {peer : String} {L F : Node σ} (h : Elected M peer L F) :
    Due M (leaderTerms L { F with currentTerm := L.currentTerm }) L.currentTerm peer
      (catchUpBound L) L F := by
  refine .searching h.syncing ?_
  have hcost : Syncing.searchCost peer (L, F) ≤ L.lastLogIndexLocked + 2 := by
    have hle := h.next_le
    unfold Syncing.searchCost
    dsimp only
    split_ifs <;> omega
  unfold catchUpBound
  omega

/-! ### A leader and its followers -/

structure Group (σ : Type) where
  leader : Node σ
  follower : String → Node σ

namespace Group

/-- The `replicationLoop` of a peer is served. -/
def exchange (M : StateMachine σ) (g : Group σ) (peer : String) : Group σ :=
  let (leader, follower) := replicateOnce M peer (g.leader, g.follower peer)
  ⟨leader, Function.update g.follower peer follower⟩

/-- The peers are served one after the other. -/
def serve (M : StateMachine σ) (g : Group σ) (order : List String) : Group σ :=
  order.foldl (exchange M) g

/-- What is left to do for each of the peers. -/
structure Serving (M : StateMachine σ) (L : Node σ) (ps : List String) (b : String → ℕ)
    (g : Group σ) : Prop where
  stays : Stays L g.leader
  due : ∀ p ∈ ps, ∃ t T, Due M t T p (b p) g.leader (g.follower p)

namespace Serving

theorem start {M : StateMachine σ} {L : Node σ} {f : String → Node σ} {ps : List String}
    (hL : L.state = .leader) (hps : ∀ p ∈ ps, Elected M p L (f p)) :
    Serving M L ps (fun _ => catchUpBound L) ⟨L, f⟩ :=
  ⟨Stays.refl hL, fun q hq => ⟨_, _, (hps q hq).due⟩⟩

variable {M : StateMachine σ} {L : Node σ} {ps : List String} {b : String → ℕ} {g : Group σ}

/-- **One of them is served.** -/
theorem exchange (h : Serving M L ps b g) {q : String} (hq : q ∈ ps) :
    Serving M L ps (fun p => b p - [q].count p) (g.exchange M q) := by
  obtain ⟨t, T, hd⟩ := h.due q hq
  obtain ⟨L', F', heq, hsteady, hd'⟩ := hd.step
  have hg : g.exchange M q = ⟨L', Function.update g.follower q F'⟩ := by
    unfold Group.exchange
    rw [heq]
  rw [hg]
  refine ⟨h.stays.trans hsteady.toStays, fun p hp => ?_⟩
  by_cases hpq : p = q
  · subst hpq
    refine ⟨t, T, ?_⟩
    dsimp only
    rw [Function.update_self, List.count_singleton_self]
    exact hd'
  · obtain ⟨t', T', hd''⟩ := h.due p hp
    refine ⟨t', T', ?_⟩
    dsimp only
    rw [Function.update_of_ne hpq, List.count_singleton, if_neg (by simpa using Ne.symm hpq),
      Nat.sub_zero]
    exact hd''.other hsteady hpq

/-- **They are served in any order.** -/
theorem serve (h : Serving M L ps b g) {order : List String} (hin : ∀ q ∈ order, q ∈ ps) :
    Serving M L ps (fun p => b p - order.count p) (g.serve M order) := by
  induction order generalizing g b with
  | nil => exact h
  | cons q order ih =>
    have hrest := ih (h.exchange (hin q List.mem_cons_self)) fun p hp =>
      hin p (List.mem_cons_of_mem q hp)
    have hcount : (fun p => b p - [q].count p - order.count p) =
        fun p => b p - (q :: order).count p := by
      funext p
      rw [Nat.sub_sub, ← List.count_append]
      rfl
    rw [hcount] at hrest
    exact hrest

end Serving

end Group

/-- **Followers that answer catch up**, in whatever order the leader serves them. After as many
exchanges as the leader's log has entries, one more for each 64 of them, and four, a follower has
the leader's log, and the leader knows. -/
theorem followers_catch_up (M : StateMachine σ) (L : Node σ) (f : String → Node σ)
    (ps : List String) (hps : ∀ p ∈ ps, Elected M p L (f p)) (hL : L.state = .leader)
    (order : List String) (hin : ∀ q ∈ order, q ∈ ps) (g : Group σ)
    (hg : Group.serve M ⟨L, f⟩ order = g) :
    g.leader.state = .leader ∧ SameLog L g.leader ∧
      ∀ p ∈ ps, catchUpBound L ≤ order.count p → CaughtUp p g.leader (g.follower p) := by
  have hend := (Group.Serving.start hL hps).serve hin
  rw [hg] at hend
  refine ⟨hend.stays.leads, hend.stays.log, fun p hp hcount => ?_⟩
  obtain ⟨t, T, hd⟩ := hend.due p hp
  rw [Nat.sub_eq_zero_of_le hcount] at hd
  exact hd.caughtUp.1

/-- The leader of term 2 among five, right after its first proposal. Entry 1 is compacted. -/
def proposedLeader : Node Bytes :=
  { officeLeader with log := [⟨1, 2, [2]⟩, ⟨2, 3, [7]⟩] }

/-- A follower that has nothing, and is still in term 1. -/
def lateFollower : Node Bytes :=
  { emptyFollower with currentTerm := 1 }

theorem elected_of_late (peer : String) : Elected journal peer proposedLeader lateFollower where
  leads := rfl
  office :=
    { ordered := ⟨by decide, by decide, by decide, by decide⟩
      dense := by decide
      term := rfl
      term_pos := by decide
      leader_pos := by decide
      follower_pos := by decide
      unmatched := rfl
      matching := fun i x hx => by
        rw [Node.entryAt_of_log_nil rfl] at hx
        exact absurd hx (by simp) }
  term_le := by decide
  same i x y _ hy := by
    rw [Node.entryAt_of_log_nil rfl] at hy
    cases hy
  base_lt := Nat.zero_lt_succ 2
  next_le := (by decide : 3 ≤ proposedLeader.lastLogIndexLocked + 1)
  base_term hpos := absurd hpos (by decide)
  snapshot _ := ⟨[1], fun _ => by simp [journal], rfl⟩

/-- "b" is served seven times, in between two exchanges with "c": it gets the snapshot and the log. -/
theorem followers_catch_up_from_nothing : ∃ g : Group Bytes,
      Group.serve journal ⟨proposedLeader, fun _ => lateFollower⟩
        ("c" :: List.replicate 7 "b" ++ ["c"]) = g ∧
      (g.follower "b").logBaseIndex = 1 ∧ CaughtUp "b" g.leader (g.follower "b") := by
  refine ⟨_, rfl, by decide +kernel, ?_⟩
  exact (followers_catch_up journal proposedLeader (fun _ => lateFollower) ["b", "c"]
    (fun p _ => elected_of_late p) rfl _ (by decide) _ rfl).2.2 "b" (by decide) (by decide)

/-- What all of a list of peers have, the leader counts. -/
theorem Node.le_replicaCount {n : Node σ} {i : ℕ} {ps : List String} (hnodup : ps.Nodup)
    (hpeers : ∀ p ∈ ps, p ∈ n.peers) (hmatch : ∀ p ∈ ps, i ≤ n.matchIndex p) :
    ps.length + 1 ≤ n.replicaCount i := by
  unfold Node.replicaCount
  rw [Nat.add_comm, List.countP_eq_length_filter]
  refine Nat.add_le_add_left (List.Subperm.length_le (hnodup.subperm fun p hp => ?_)) 1
  exact List.mem_filter.mpr ⟨hpeers p hp, decide_eq_true (hmatch p hp)⟩

/-- Nothing is known of the followers yet, so there is nothing to commit. -/
theorem Node.settled_of_unmatched {n : Node σ} (hpeers : n.peers ≠ [])
    (hmatch : ∀ p ∈ n.peers, n.matchIndex p = 0) : n.Settled := by
  intro i _ hlt _
  have hcount : n.peers.countP (fun p => i ≤ n.matchIndex p) = 0 := by
    refine List.countP_eq_zero.mpr fun p hp => ?_
    rw [hmatch p hp]
    simpa using Nat.ne_zero_of_lt hlt
  have hpos := List.length_pos_iff.mpr hpeers
  unfold Node.replicaCount Node.majority
  rw [hcount]
  omega

/-- **What a majority has caught up with is committed**, if the last entry is of the leader's term. -/
theorem Group.Serving.commits {L : Node σ} {ps : List String} {b : String → ℕ} {g : Group σ}
    (h : Serving M L ps b g) (hdone : ∀ p ∈ ps, b p = 0) (hordered : Ordered L)
    (hpeers : L.peers ≠ []) (hmatch : ∀ p ∈ L.peers, L.matchIndex p = 0)
    (hterm : L.termAtLocked L.lastLogIndexLocked = L.currentTerm) (hnodup : ps.Nodup)
    (hsub : ∀ p ∈ ps, p ∈ L.peers) (hmaj : L.majority ≤ ps.length + 1) :
    g.leader.commitIndex = L.lastLogIndexLocked := by
  have hlast := h.stays.log.lastLogIndexLocked
  have hle := (h.stays.ordered hordered).commit_le
  rw [hlast] at hle
  -- otherwise the last entry would be on a majority and not committed
  by_contra hne
  have hfew := h.stays.settled (Node.settled_of_unmatched hpeers hmatch)
    L.lastLogIndexLocked hlast.ge (lt_of_le_of_ne hle hne)
    (by rw [h.stays.log.termAtLocked, h.stays.term]; exact hterm)
  have hmany : ps.length + 1 ≤ g.leader.replicaCount L.lastLogIndexLocked := by
    refine Node.le_replicaCount hnodup (by rw [h.stays.peers]; exact hsub) fun q hq => ?_
    obtain ⟨t, T, hd⟩ := h.due q hq
    rw [hdone q hq] at hd
    rw [hd.caughtUp.1.matched, hlast]
  have hsame : g.leader.majority = L.majority := by
    unfold Node.majority
    rw [h.stays.peers]
  omega

/-- **A leader that a majority answers commits everything**, as soon as it has an entry of its own
term at the end of its log; with the next exchange the followers learn of it. -/
theorem stable_leader_commits (M : StateMachine σ) (L : Node σ) (f : String → Node σ)
    (ps : List String) (hps : ∀ p ∈ ps, Elected M p L (f p)) (hL : L.state = .leader)
    (hpeers : L.peers ≠ []) (hmatch : ∀ p ∈ L.peers, L.matchIndex p = 0)
    (hterm : L.termAtLocked L.lastLogIndexLocked = L.currentTerm)
    (hnodup : ps.Nodup) (hsub : ∀ p ∈ ps, p ∈ L.peers) (hmaj : L.majority ≤ ps.length + 1)
    (order : List String) (hin : ∀ q ∈ order, q ∈ ps)
    (hcount : ∀ p ∈ ps, catchUpBound L ≤ order.count p) (g : Group σ)
    (hg : Group.serve M ⟨L, f⟩ order = g) :
    g.leader.commitIndex = L.lastLogIndexLocked ∧
      ∀ p ∈ ps, L.lastLogIndexLocked ≤ ((g.exchange M p).follower p).commitIndex := by
  have hend := (Group.Serving.start hL hps).serve hin
  rw [hg] at hend
  have hdone : ∀ p ∈ ps, catchUpBound L - order.count p = 0 :=
    fun p hp => Nat.sub_eq_zero_of_le (hcount p hp)
  -- a majority has at least one peer in it, and that one knows the log of the leader
  have hordered : Ordered L := by
    obtain ⟨p, hp⟩ : ∃ p, p ∈ ps := by
      refine List.exists_mem_of_length_pos ?_
      have hpos := List.length_pos_iff.mpr hpeers
      unfold Node.majority at hmaj
      omega
    exact (hps p hp).office.ordered
  have hcommit := hend.commits hdone hordered hpeers hmatch hterm hnodup hsub hmaj
  refine ⟨hcommit, fun p hp => ?_⟩
  -- one more exchange tells each follower
  obtain ⟨t, T, hd⟩ := hend.due p hp
  rw [hdone p hp] at hd
  have hlearns := hd.caughtUp.2
  rw [hcommit] at hlearns
  unfold Group.exchange
  dsimp only
  rw [Function.update_self]
  exact hlearns

/-- "b" and "c" are enough for a majority of five. -/
theorem stable_leader_commits_three_of_five : ∃ g : Group Bytes,
      Group.serve journal ⟨proposedLeader, fun _ => lateFollower⟩
        (List.replicate 7 "b" ++ List.replicate 7 "c") = g ∧
      g.leader.commitIndex = 3 ∧ 3 ≤ ((g.exchange journal "b").follower "b").commitIndex := by
  have h := stable_leader_commits journal proposedLeader (fun _ => lateFollower) ["b", "c"]
    (fun p _ => elected_of_late p) rfl (by decide) (by decide) (by decide) (by decide) (by decide)
    (by decide) (List.replicate 7 "b" ++ List.replicate 7 "c") (by decide) (by decide) _ rfl
  exact ⟨_, rfl, h.1, h.2 "b" (by decide)⟩

end Raft
end BoilerPulse
