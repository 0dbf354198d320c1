import BoilerPulse.Raft.Process
import Mathlib.Order.Basic
import Mathlib.Tactic.Common

/-!
# Negotiating nextIndex

A leader that does not know where a follower's log agrees with its own sends `AppendEntries` from
`nextIndex` on, and takes the `ConflictIndex` of a rejection for the next attempt. The hint is
below the index it answers if the follower's log is too short or has another term there; it is
above if the follower has compacted past it. The second kind sends the leader to the follower's
base, where its log agrees (`exchange_at_base`), so it is the last rejection, and all others go down
(`Negotiating.exchange_cases`): the exchange ends after at most `nextIndex` rejections
(`negotiation_terminates`).

Log matching is not used: it is enough that the leader has the follower's base entry, or has
compacted past it as well.
-/

namespace BoilerPulse
namespace Raft

variable {σ : Type}

/-- A rejected `AppendEntries`: the index it started at, and the hint that came back. -/
structure Rejection where
  nextIndex : ℕ
  conflictIndex : ℕ
  deriving DecidableEq

/-- What one run of `sendAppendEntriesTo` leads to. -/
inductive Exchange (σ : Type) where
  | success
  /-- The leader goes on in `sendInstallSnapshotTo`. -/
  | snapshot
  /-- The sender is not the leader, or learns that it no longer is. -/
  | deposed
  | rejected (r : Rejection) (leader follower : Node σ)

/-- One `sendAppendEntriesTo`, its request answered by the follower's `HandleAppendEntries`. -/
def exchange (peer : String) (leader follower : Node σ) : Exchange σ :=
  match leader.sendAppendEntriesTo peer with
  | none => .deposed
  | some (.installSnapshot _) => .snapshot
  | some (.appendEntries args) =>
    let (follower, reply) := follower.handleAppendEntries args
    let leader := leader.handleAppendEntriesReply peer args reply
    if reply.success then .success
    else if leader.state = .leader then
      .rejected ⟨args.prevLogIndex + 1, reply.conflictIndex⟩ leader follower
    else .deposed

/-- How a negotiation ends; `pending` when it has not yet. -/
inductive Outcome where
  | success
  | snapshot
  | deposed
  | pending
  deriving DecidableEq

/-- Exchange after exchange, at most `fuel` of them: how it ends, and the rejections on the way. -/
def negotiate (peer : String) : ℕ → Node σ → Node σ → Outcome × List Rejection
  | 0, _, _ => (.pending, [])
  | fuel + 1, leader, follower =>
    match exchange peer leader follower with
    | .success => (.success, [])
    | .snapshot => (.snapshot, [])
    | .deposed => (.deposed, [])
    | .rejected r leader follower =>
      let (outcome, rs) := negotiate peer fuel leader follower
      (outcome, r :: rs)

/-! ### The hint of a rejection -/

namespace Node

variable {n n' : Node σ}

theorem conflictStart_congr (h : SameLog n n') (t : ℕ) :
    ∀ i, n'.conflictStart t i = n.conflictStart t i
  | 0 => rfl
  | 1 => rfl
  | i + 2 => by
    unfold conflictStart
    rw [h.termAtLocked, conflictStart_congr h t (i + 1)]

theorem conflictStart_le (t : ℕ) : ∀ i, n.conflictStart t i ≤ i
  | 0 => le_rfl
  | 1 => le_rfl
  | i + 2 => by
    unfold conflictStart
    split
    · exact (conflictStart_le t (i + 1)).trans (Nat.le_succ _)
    · exact le_rfl

theorem conflictStart_pos (t : ℕ) : ∀ {i}, 0 < i → 0 < n.conflictStart t i
  | 1, _ => Nat.one_pos
  | i + 2, _ => by
    unfold conflictStart
    split
    · exact conflictStart_pos t (Nat.succ_pos i)
    · omega

theorem checkPrevLog_eq (h : SameLog n n') (i t : ℕ) :
    n'.checkPrevLog i t = n.checkPrevLog i t := by
  unfold checkPrevLog
  rw [h.base, h.lastLogIndexLocked, h.termAtLocked, conflictStart_congr h]

/-- A rejection by the consistency check carries its hint. -/
theorem handleAppendEntries_rejected {args : AppendEntriesArgs} {i : ℕ}
    (hle : n.currentTerm ≤ args.term)
    (hc : n.checkPrevLog args.prevLogIndex args.prevLogTerm = some i) :
    n.handleAppendEntries args = (n.follow args.term args.leaderID, ⟨args.term, false, i⟩) := by
  have hterm : (n.follow args.term args.leaderID).currentTerm = args.term := n.adopt_currentTerm hle
  have hfollow : n.followLeader args.term args.leaderID = n.follow args.term args.leaderID :=
    n.followLeader_eq hle args.leaderID
  -- the check is made after the sender has been followed, on the same log
  rw [← checkPrevLog_eq (n.follow_sameLog args.term args.leaderID)] at hc
  rw [handleAppendEntries, if_neg (not_lt.mpr hle), hfollow]
  simp only [hc, hterm]

/-- **The hint** is at least 1. It is at most the index that was checked, unless that index is below
the base: then it is the one after the base. -/
theorem checkPrevLog_hint {i t c : ℕ} (hc : n.checkPrevLog i t = some c) :
    0 < i ∧ 0 < c ∧ (c ≤ i ∨ i < n.logBaseIndex ∧ c = n.logBaseIndex + 1) := by
  unfold checkPrevLog at hc
  split at hc
  · next hpos =>
    refine ⟨hpos, ?_⟩
    split at hc
    · next hb =>
      cases hc
      exact ⟨Nat.succ_pos _, .inr ⟨hb, rfl⟩⟩
    · split at hc
      · next hl =>
        cases hc
        exact ⟨Nat.succ_pos _, .inl hl⟩
      · split at hc
        · cases hc
          exact ⟨conflictStart_pos _ hpos, .inl (conflictStart_le _ i)⟩
        · cases hc
  · cases hc

/-- A rejection of the current term moves `nextIndex` to the hint, and nothing else. -/
theorem handleAppendEntriesReply_hint (hl : n.state = .leader) {peer : String}
    {args : AppendEntriesArgs} (ht : args.term = n.currentTerm) {c : ℕ} (hc : 0 < c) :
    n.handleAppendEntriesReply peer args ⟨args.term, false, c⟩ =
      { n with nextIndex := Function.update n.nextIndex peer c } := by
  unfold handleAppendEntriesReply
  rw [if_neg (by rw [ht]; exact lt_irrefl _),
    if_neg (by rw [hl, ht]; exact not_or.mpr ⟨not_not.mpr rfl, not_not.mpr rfl⟩),
    if_neg (by simp), if_pos hc]

/-- The request that goes out at `nextIndex`. -/
theorem sendAppendEntriesTo_cases (hl : n.state = .leader) {peer : String}
    (hpos : 0 < n.nextIndex peer) :
    n.sendAppendEntriesTo peer = some (.installSnapshot n.currentTerm) ∨
      n.logBaseIndex < n.nextIndex peer ∧ ∃ args,
        n.sendAppendEntriesTo peer = some (.appendEntries args) ∧ args.term = n.currentTerm ∧
        args.prevLogIndex + 1 = n.nextIndex peer ∧
        args.prevLogTerm = n.termAtLocked args.prevLogIndex := by
  unfold sendAppendEntriesTo
  rw [if_neg (not_not.mpr hl), if_neg hpos.ne']
  dsimp only
  split
  · exact .inl rfl
  · next hb => exact .inr ⟨not_le.mp hb, _, rfl, rfl, Nat.sub_add_cancel hpos, rfl⟩

end Node

/-! ### One exchange -/

section Exchange

variable {peer : String} {leader follower : Node σ} {args : AppendEntriesArgs}

/-- A reply with a newer term makes the leader step down. -/
theorem exchange_stale (hs : leader.sendAppendEntriesTo peer = some (.appendEntries args))
    (ht : args.term = leader.currentTerm) (hlt : args.term < follower.currentTerm) :
    exchange peer leader follower = .deposed := by
  have hnewer : leader.currentTerm < follower.currentTerm := by rw [← ht]; exact hlt
  have hstate : (leader.handleAppendEntriesReply peer args
      ⟨follower.currentTerm, false, 0⟩).state = .follower := by
    unfold Node.handleAppendEntriesReply
    rw [if_pos hnewer, leader.becomeFollowerLocked_of_lt hnewer]
  unfold exchange
  rw [hs]
  dsimp only
  rw [follower.handleAppendEntries_stale hlt, if_neg (by simp), hstate, if_neg (by simp)]

theorem exchange_accepted (hs : leader.sendAppendEntriesTo peer = some (.appendEntries args))
    (hge : follower.currentTerm ≤ args.term)
    (hc : follower.checkPrevLog args.prevLogIndex args.prevLogTerm = none) :
    exchange peer leader follower = .success := by
  unfold exchange
  rw [hs]
  dsimp only
  obtain ⟨hlt, -⟩ | ⟨-, hne, -⟩ | ⟨-, -, heq⟩ := follower.handleAppendEntries_cases args
  · omega
  · exact absurd hc hne
  · rw [heq]
    exact if_pos rfl

theorem exchange_rejected (hl : leader.state = .leader)
    (hs : leader.sendAppendEntriesTo peer = some (.appendEntries args))
    (ht : args.term = leader.currentTerm) (hge : follower.currentTerm ≤ args.term) {c : ℕ}
    (hc : follower.checkPrevLog args.prevLogIndex args.prevLogTerm = some c) :
    exchange peer leader follower = .rejected ⟨args.prevLogIndex + 1, c⟩
      { leader with nextIndex := Function.update leader.nextIndex peer c }
      (follower.follow args.term args.leaderID) := by
  unfold exchange
  rw [hs]
  dsimp only
  rw [Node.handleAppendEntries_rejected hge hc,
    Node.handleAppendEntriesReply_hint hl ht (Node.checkPrevLog_hint hc).2.1, if_neg (by simp),
    if_pos hl]

end Exchange

/-- A leader and a follower as they may stand at the start of an exchange: the follower's base entry
is in the leader's log, with the same term, or covered by the leader's snapshot. -/
structure Negotiating (peer : String) (leader follower : Node σ) : Prop where
  leads : leader.state = .leader
  dense : follower.Dense
  base_le : follower.logBaseIndex ≤ leader.lastLogIndexLocked
  base_term : 0 < follower.logBaseIndex → leader.logBaseIndex ≤ follower.logBaseIndex →
    leader.termAtLocked follower.logBaseIndex = follower.logBaseTerm
  next_pos : 0 < leader.nextIndex peer
  next_le : leader.nextIndex peer ≤ leader.lastLogIndexLocked + 1

namespace Negotiating

variable {peer : String} {leader follower : Node σ}

/-- After a rejection both logs are as before, and `nextIndex` is within the leader's log again. -/
theorem rejected (h : Negotiating peer leader follower) (t : ℕ) (l : String) {c : ℕ} (hc : 0 < c)
    (hle : c ≤ leader.lastLogIndexLocked + 1) :
    Negotiating peer { leader with nextIndex := Function.update leader.nextIndex peer c }
      (follower.follow t l) := by
  have hsame := follower.follow_sameLog t l
  have hself : Function.update leader.nextIndex peer c peer = c := Function.update_self ..
  refine ⟨h.leads, ?_, ?_, ?_, ?_, ?_⟩
  · unfold Node.Dense
    rw [hsame.base, hsame.log]
    exact h.dense
  · rw [hsame.base]
    exact h.base_le
  · rw [hsame.base, hsame.baseTerm]
    exact h.base_term
  · exact hc.trans_eq hself.symm
  · exact hself.le.trans hle

/-- **One exchange** ends the negotiation, or its hint is positive and takes `nextIndex` down, or up
to right after the follower's base. -/
theorem exchange_cases (h : Negotiating peer leader follower) :
    exchange peer leader follower = .success ∨ exchange peer leader follower = .snapshot ∨
    (exchange peer leader follower = .deposed ∧ leader.currentTerm < follower.currentTerm) ∨
    ∃ c leader' follower',
      exchange peer leader follower = .rejected ⟨leader.nextIndex peer, c⟩ leader' follower' ∧
      0 < c ∧ Negotiating peer leader' follower' ∧ leader'.nextIndex peer = c ∧
      follower'.currentTerm ≤ leader'.currentTerm ∧
      (c < leader.nextIndex peer ∨
        0 < follower'.logBaseIndex ∧ c = follower'.logBaseIndex + 1) := by
  rcases leader.sendAppendEntriesTo_cases h.leads h.next_pos with hs | ⟨-, args, hs, ht, hp, -⟩
  · exact .inr (.inl (by unfold exchange; rw [hs]))
  rcases Nat.lt_or_ge args.term follower.currentTerm with hlt | hge
  · exact .inr (.inr (.inl ⟨exchange_stale hs ht hlt, by rw [← ht]; exact hlt⟩))
  cases hc : follower.checkPrevLog args.prevLogIndex args.prevLogTerm with
  | none => exact .inl (exchange_accepted hs hge hc)
  | some c =>
    -- a hint goes back, unless the index is one that the follower has compacted
    obtain ⟨hpos, hcpos, hdir⟩ := Node.checkPrevLog_hint hc
    have hnext := h.next_le
    have hbase := h.base_le
    have heq := exchange_rejected h.leads hs ht hge hc
    rw [hp] at heq
    refine .inr (.inr (.inr ⟨c, _, _, heq, hcpos, h.rejected _ _ hcpos (by omega),
      Function.update_self .., ((follower.adopt_currentTerm hge).trans ht).le, ?_⟩))
    rw [(follower.follow_sameLog args.term args.leaderID).base]
    omega

/-- Right after the follower's base the leader is not rejected. -/
theorem exchange_at_base (h : Negotiating peer leader follower) (hbase : 0 < follower.logBaseIndex)
    (hnext : leader.nextIndex peer = follower.logBaseIndex + 1) :
    exchange peer leader follower = .success ∨ exchange peer leader follower = .snapshot ∨
    (exchange peer leader follower = .deposed ∧ leader.currentTerm < follower.currentTerm) := by
  rcases leader.sendAppendEntriesTo_cases h.leads h.next_pos with
    hs | ⟨hlt, args, hs, ht, hp, hpt⟩
  · exact .inr (.inl (by unfold exchange; rw [hs]))
  rcases Nat.lt_or_ge args.term follower.currentTerm with hold | hge
  · exact .inr (.inr ⟨exchange_stale hs ht hold, by rw [← ht]; exact hold⟩)
  have hprev : args.prevLogIndex = follower.logBaseIndex := by omega
  have hlast := h.dense.lastLogIndexLocked
  have hterm : follower.termAtLocked follower.logBaseIndex = follower.logBaseTerm := by
    unfold Node.termAtLocked
    rw [if_neg (by omega), if_pos rfl]
  refine .inl (exchange_accepted hs hge ((follower.checkPrevLog_eq_none_iff _ _).mpr ?_))
  rw [hpt, hprev, h.base_term hbase (by omega), hterm]
  exact .inr ⟨le_rfl, by omega, rfl⟩

/-! ### The whole negotiation -/

/-- More fuel than `nextIndex` is enough. -/
theorem negotiate_ends : ∀ {fuel : ℕ} {leader follower : Node σ},
    Negotiating peer leader follower → leader.nextIndex peer < fuel →
    (negotiate peer fuel leader follower).1 ≠ .pending ∧
      ((negotiate peer fuel leader follower).1 = .deposed →
        leader.currentTerm < follower.currentTerm) := by
  intro fuel
  induction fuel with
  | zero => exact fun _ hlt => absurd hlt (Nat.not_lt_zero _)
  | succ fuel ih =>
    intro leader follower h hlt
    unfold negotiate
    rcases h.exchange_cases with heq | heq | ⟨heq, hterm⟩ | ⟨c, L, F, heq, -, hn, hc, hle, hdir⟩
    · rw [heq]; exact ⟨by simp, by simp⟩
    · rw [heq]; exact ⟨by simp, by simp⟩
    · rw [heq]; exact ⟨by simp, fun _ => hterm⟩
    rw [heq]
    dsimp only
    suffices hgo : (negotiate peer fuel L F).1 ≠ .pending ∧
        ((negotiate peer fuel L F).1 = .deposed → L.currentTerm < F.currentTerm) from
      ⟨hgo.1, fun hd => absurd (hgo.2 hd) (not_lt.mpr hle)⟩
    rcases hdir with hdown | ⟨hpos, hup⟩
    · exact ih hn (by omega)
    · -- the next exchange is the last
      obtain ⟨k, rfl⟩ : ∃ k, fuel = k + 1 := ⟨fuel - 1, by have := h.next_pos; omega⟩
      unfold negotiate
      rcases hn.exchange_at_base hpos (by omega) with heq | heq | ⟨heq, hterm⟩
      · rw [heq]; exact ⟨by simp, by simp⟩
      · rw [heq]; exact ⟨by simp, by simp⟩
      · rw [heq]; exact ⟨by simp, fun _ => hterm⟩

/-- Every hint is positive, and at most one of them does not lead down. -/
theorem negotiate_hints : ∀ {fuel : ℕ} {leader follower : Node σ},
    Negotiating peer leader follower →
    (∀ r ∈ (negotiate peer fuel leader follower).2, 1 ≤ r.conflictIndex) ∧
      (negotiate peer fuel leader follower).2.countP (fun r => r.nextIndex ≤ r.conflictIndex) ≤ 1 := by
  intro fuel
  induction fuel with
  | zero => exact fun _ => ⟨nofun, Nat.zero_le _⟩
  | succ fuel ih =>
    intro leader follower h
    unfold negotiate
    rcases h.exchange_cases with heq | heq | ⟨heq, -⟩ | ⟨c, L, F, heq, hpos, hn, hc, -, hdir⟩
    · rw [heq]; exact ⟨nofun, Nat.zero_le _⟩
    · rw [heq]; exact ⟨nofun, Nat.zero_le _⟩
    · rw [heq]; exact ⟨nofun, Nat.zero_le _⟩
    rw [heq]
    dsimp only
    refine ⟨fun r hr => ?_, ?_⟩
    · rcases List.mem_cons.mp hr with rfl | hr
      · exact hpos
      · exact (ih hn).1 r hr
    rw [List.countP_cons]
    rcases hdir with hdown | ⟨hbase, hup⟩
    · have hno : ¬ leader.nextIndex peer ≤ c := not_le.mpr hdown
      simp only [hno, decide_false, Bool.false_eq_true, if_false, Nat.add_zero]
      exact (ih hn).2
    · -- up to the base, and there the negotiation ends
      have hnil : (negotiate peer fuel L F).2 = [] := by
        cases fuel with
        | zero => rfl
        | succ fuel =>
          unfold negotiate
          rcases hn.exchange_at_base hbase (by omega) with heq | heq | ⟨heq, -⟩
          all_goals rw [heq]
      rw [hnil, List.countP_nil, Nat.zero_add]
      split <;> omega

end Negotiating

/-- **The negotiation of `nextIndex` terminates.** From every `nextIndex` within the leader's log or
right after it, the exchange ends, after at most that many rejections, with a success or with the
snapshot fallback, unless the follower is in a newer term than the leader; every rejection has
a positive hint, and all but at most one lead down. -/
theorem negotiation_terminates (leader follower : Node σ) (peer : String)
    (hlead : leader.state = .leader) (hdense : follower.Dense)
    (hbase : follower.logBaseIndex ≤ leader.lastLogIndexLocked)
    (hterm : 0 < follower.logBaseIndex → leader.logBaseIndex ≤ follower.logBaseIndex →
      leader.termAtLocked follower.logBaseIndex = follower.logBaseTerm)
    (hpos : 1 ≤ leader.nextIndex peer)
    (hle : leader.nextIndex peer ≤ leader.lastLogIndexLocked + 1) (fuel : ℕ) :
    (leader.nextIndex peer < fuel → (negotiate peer fuel leader follower).1 ≠ .pending ∧
        ((negotiate peer fuel leader follower).1 = .deposed →
          leader.currentTerm < follower.currentTerm)) ∧
      (∀ r ∈ (negotiate peer fuel leader follower).2, 1 ≤ r.conflictIndex) ∧
      (negotiate peer fuel leader follower).2.countP
        (fun r => r.nextIndex ≤ r.conflictIndex) ≤ 1 := by
  have h : Negotiating peer leader follower := ⟨hlead, hdense, hbase, hterm, hpos, hle⟩
  exact ⟨h.negotiate_ends, h.negotiate_hints⟩

/-- A leader with five entries of the terms 1, 1, 2, 2, 2, that assumes its follower "f" has them
all. -/
def negotiatingLeader : Node Bytes where
  id := "l"
  peers := ["f"]
  storage := Storage.empty
  stateMachine := []
  opts := ⟨0⟩
  currentTerm := 2
  votedFor := "l"
  log := [⟨1, 1, []⟩, ⟨1, 2, []⟩, ⟨2, 3, []⟩, ⟨2, 4, []⟩, ⟨2, 5, []⟩]
  logBaseIndex := 0
  logBaseTerm := 0
  state := .leader
  commitIndex := 2
  lastApplied := 2
  leaderID := "l"
  nextIndex _ := 6
  matchIndex _ := 0

/-- A follower that has compacted its first two entries, and has a third one of term 1. -/
def negotiatingFollower : Node Bytes :=
  { negotiatingLeader with
    id := "f"
    peers := ["l"]
    currentTerm := 1
    log := [⟨1, 3, []⟩]
    logBaseIndex := 2
    logBaseTerm := 1
    state := .follower }

/-- Three rejections: the log is too short, then its run of term 1 seems to start at 2, which leads
below the base, and then the hint is the one after the base. -/
theorem negotiation_terminates_at_base : negotiate "f" 7 negotiatingLeader negotiatingFollower =
      (.success, [⟨6, 4⟩, ⟨4, 2⟩, ⟨2, 3⟩]) ∧
    (negotiate "f" 7 negotiatingLeader negotiatingFollower).1 ≠ .pending ∧
    (∀ r ∈ (negotiate "f" 7 negotiatingLeader negotiatingFollower).2, 1 ≤ r.conflictIndex) ∧
    (negotiate "f" 7 negotiatingLeader negotiatingFollower).2.countP
      (fun r => r.nextIndex ≤ r.conflictIndex) ≤ 1 := by
  have hdense : negotiatingFollower.Dense := by
    intro i e he
    cases i with
    | zero => rw [← Option.some.inj he]; rfl
    | succ i => cases he
  obtain ⟨hends, hpos, hcount⟩ := negotiation_terminates negotiatingLeader negotiatingFollower "f"
    rfl hdense (by decide) (by decide) (by decide) (by decide) 7
  exact ⟨by decide +kernel, (hends (by decide)).1, hpos, hcount⟩

end Raft
end BoilerPulse
