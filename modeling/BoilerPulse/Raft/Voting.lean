import BoilerPulse.Framework.Runs
import BoilerPulse.Raft.Cluster
import BoilerPulse.Raft.NodeLemmas
import Mathlib.Algebra.Ring.Nat

/-!
# Votes, storage errors and crashes

`persistTermAndVoteLocked` logs an error of `SaveTermAndVote` and goes on, so a vote may be given
that is on no disk. The functions of `Node` that save a term and a vote are written out here once
more, with a flag for the fate of each save (`…With`); with every flag set they are the functions
of `Node` (`save_succeeds`).

`Voter` is one node over its whole life: messages, elections, crashes, and the list of all votes it
has ever given. What a run needs of the storage is that no crash comes while a vote is
unsaved (`Saved`); a failed save by itself does no harm, as the next one that succeeds writes the
current pair. The votes also have to be for someone: the empty string stands for no vote.

Here any message may come, so terms are counted as the source counts them, in 64 bits: one request
of term 2^64 - 1 brings the node to the last term, and the election it starts from there is in
term 0, with every vote of the higher terms forgotten. The cluster counts in `ℕ`; there a term is
only ever reached by that many elections.
-/

namespace BoilerPulse
namespace Raft

open Framework

variable {σ : Type}

/-! ### Saves that may fail -/

namespace Node

variable (n : Node σ)

/-- A failed `SaveTermAndVote` leaves the old pair on storage, and its error is only logged. -/
def persistTermAndVoteWith (ok : Bool) : Node σ :=
  if ok then n.persistTermAndVoteLocked else n

def becomeFollowerWith (ok : Bool) (term : ℕ) : Node σ :=
  let n := { n with state := .follower, leaderID := "" }
  if n.currentTerm < term then
    { n with currentTerm := term, votedFor := "" }.persistTermAndVoteWith ok
  else n

/-- `currentTerm++` on a `uint64`. -/
def startElectionWith (ok : Bool) : Node σ :=
  { n with
    state := .candidate
    currentTerm := (n.currentTerm + 1) % 2 ^ 64
    votedFor := n.id }.persistTermAndVoteWith ok

def handleRequestVoteReplyWith (ok : Bool) (term votes : ℕ) (reply : RequestVoteReply) :
    Node σ × ℕ :=
  if n.currentTerm < reply.term then (n.becomeFollowerWith ok reply.term, votes)
  else if n.state ≠ .candidate ∨ n.currentTerm ≠ term then (n, votes)
  else if reply.voteGranted then
    if n.majority ≤ votes + 1 then (n.becomeLeaderLocked, votes + 1) else (n, votes + 1)
  else (n, votes)

/-- `HandleRequestVote` saves up to twice: the term it adopts, and the vote. -/
def handleRequestVoteWith (adopted voted : Bool) (args : RequestVoteArgs) :
    Node σ × RequestVoteReply :=
  if args.term < n.currentTerm then (n, ⟨n.currentTerm, false⟩)
  else
    let n := if n.currentTerm < args.term then n.becomeFollowerWith adopted args.term else n
    let canVote : Prop := n.votedFor = "" ∨ n.votedFor = args.candidateID
    let logOK : Prop := n.lastLogTermLocked < args.lastLogTerm ∨
      (args.lastLogTerm = n.lastLogTermLocked ∧ n.lastLogIndexLocked ≤ args.lastLogIndex)
    if canVote ∧ logOK then
      ({ n with votedFor := args.candidateID }.persistTermAndVoteWith voted, ⟨n.currentTerm, true⟩)
    else (n, ⟨n.currentTerm, false⟩)

def followLeaderWith (ok : Bool) (term : ℕ) (leaderID : String) : Node σ :=
  let n :=
    if n.currentTerm < term then n.becomeFollowerWith ok term
    else if n.state = .candidate then n.becomeFollowerWith ok term
    else n
  { n with state := .follower, leaderID := leaderID }

def handleAppendEntriesWith (ok : Bool) (args : AppendEntriesArgs) : Node σ × AppendEntriesReply :=
  if args.term < n.currentTerm then (n, ⟨n.currentTerm, false, 0⟩)
  else
    let n := n.followLeaderWith ok args.term args.leaderID
    match n.checkPrevLog args.prevLogIndex args.prevLogTerm with
    | some conflictIndex => (n, ⟨n.currentTerm, false, conflictIndex⟩)
    | none =>
      let n := (n.appendMissing (args.prevLogIndex + 1) args.entries).advanceCommit args.leaderCommit
      (n, ⟨n.currentTerm, true, 0⟩)

/-- When every save succeeds, these are the functions of `Node`, up to the last term. -/
theorem save_succeeds :
    (n.currentTerm + 1 < 2 ^ 64 → n.startElectionWith true = n.startElectionLocked) ∧
      (∀ term votes r,
        n.handleRequestVoteReplyWith true term votes r = n.handleRequestVoteReply term votes r) ∧
      (∀ args, n.handleRequestVoteWith true true args = n.handleRequestVote args) ∧
      ∀ args, n.handleAppendEntriesWith true args = n.handleAppendEntries args :=
  ⟨fun h => by unfold startElectionWith; rw [Nat.mod_eq_of_lt h]; rfl, fun _ _ _ => rfl,
    fun _ => rfl, fun _ => rfl⟩

/-! ### Terms and votes in memory -/

/-- `n'` is in a newer term than `n`, or in the same one with the same vote. -/
def Adopts (n n' : Node σ) : Prop :=
  n.currentTerm < n'.currentTerm ∨ n'.currentTerm = n.currentTerm ∧ n'.votedFor = n.votedFor

theorem Adopts.of_sameVote {n n₁ n₂ : Node σ} (h : Adopts n n₁) (hs : SameVote n₁ n₂) :
    Adopts n n₂ := by
  unfold Adopts
  rw [hs.currentTerm, hs.votedFor]
  exact h

theorem persistTermAndVoteWith_eq (ok : Bool) :
    ∃ st, n.persistTermAndVoteWith ok = { n with storage := st } := by
  unfold persistTermAndVoteWith
  split
  · exact ⟨_, rfl⟩
  · exact ⟨n.storage, rfl⟩

theorem startElectionWith_eq (ok : Bool) (hterm : n.currentTerm + 1 < 2 ^ 64) :
    ∃ st, n.startElectionWith ok = { n with
      state := .candidate
      currentTerm := n.currentTerm + 1
      votedFor := n.id
      storage := st } := by
  unfold startElectionWith
  rw [Nat.mod_eq_of_lt hterm]
  exact persistTermAndVoteWith_eq _ ok

theorem becomeFollowerWith_adopts (ok : Bool) (t : ℕ) : Adopts n (n.becomeFollowerWith ok t) := by
  unfold becomeFollowerWith
  dsimp only
  split
  · next hlt =>
    obtain ⟨st, heq⟩ := persistTermAndVoteWith_eq
      { n with state := .follower, leaderID := "", currentTerm := t, votedFor := "" } ok
    rw [heq]
    exact .inl hlt
  · exact .inr ⟨rfl, rfl⟩

theorem handleRequestVoteReplyWith_adopts (ok : Bool) (term votes : ℕ) (r : RequestVoteReply) :
    Adopts n (n.handleRequestVoteReplyWith ok term votes r).1 := by
  unfold handleRequestVoteReplyWith
  split
  · exact n.becomeFollowerWith_adopts ok r.term
  · split
    · exact .inr ⟨rfl, rfl⟩
    · split
      · split
        · exact .inr ⟨rfl, rfl⟩
        · exact .inr ⟨rfl, rfl⟩
      · exact .inr ⟨rfl, rfl⟩

theorem handleAppendEntriesWith_adopts (ok : Bool) (args : AppendEntriesArgs) :
    Adopts n (n.handleAppendEntriesWith ok args).1 := by
  have hfollow : Adopts n (n.followLeaderWith ok args.term args.leaderID) := by
    unfold followLeaderWith
    dsimp only
    split
    · exact n.becomeFollowerWith_adopts ok args.term
    · split
      · exact n.becomeFollowerWith_adopts ok args.term
      · exact .inr ⟨rfl, rfl⟩
  unfold handleAppendEntriesWith
  split
  · exact .inr ⟨rfl, rfl⟩
  · dsimp only
    split
    · exact hfollow
    · exact hfollow.of_sameVote ((appendMissing_sameVote _ _ _).trans (advanceCommit_sameVote _ _))

/-- **A vote is given** in a newer term, or in the current one to a candidate that has it already or
if nobody has it. -/
theorem handleRequestVoteWith_cases (adopted voted : Bool) (args : RequestVoteArgs) :
    ((n.handleRequestVoteWith adopted voted args).2.voteGranted = false ∧
      Adopts n (n.handleRequestVoteWith adopted voted args).1) ∨
    ((n.handleRequestVoteWith adopted voted args).2 = ⟨args.term, true⟩ ∧
      (n.handleRequestVoteWith adopted voted args).1.currentTerm = args.term ∧
      (n.handleRequestVoteWith adopted voted args).1.votedFor = args.candidateID ∧
      (n.currentTerm < args.term ∨ n.currentTerm = args.term ∧
        (n.votedFor = "" ∨ n.votedFor = args.candidateID))) := by
  unfold handleRequestVoteWith
  split
  · exact .inl ⟨rfl, .inr ⟨rfl, rfl⟩⟩
  · next hge =>
    dsimp only
    have hadopt : Adopts n
        (if n.currentTerm < args.term then n.becomeFollowerWith adopted args.term else n) := by
      split
      · exact n.becomeFollowerWith_adopts adopted args.term
      · exact .inr ⟨rfl, rfl⟩
    have hterm : (if n.currentTerm < args.term then n.becomeFollowerWith adopted args.term
        else n).currentTerm = args.term := by
      split
      · next hlt =>
        unfold becomeFollowerWith
        obtain ⟨st, heq⟩ := persistTermAndVoteWith_eq
          { n with state := .follower, leaderID := "", currentTerm := args.term, votedFor := "" }
          adopted
        dsimp only
        rw [if_pos hlt, heq]
      · omega
    -- `m` is the node once it has adopted the term of the candidate
    generalize (if n.currentTerm < args.term then n.becomeFollowerWith adopted args.term
        else n) = m at hadopt hterm
    split
    · next hvote =>
      obtain ⟨st, heq⟩ := persistTermAndVoteWith_eq { m with votedFor := args.candidateID } voted
      rw [heq]
      refine .inr ⟨by rw [hterm], hterm, rfl, ?_⟩
      rcases hadopt with hlt | ⟨hsame, hv⟩
      · exact .inl (hterm ▸ hlt)
      · exact .inr ⟨hsame.symm.trans hterm, hv ▸ hvote.1⟩
    · exact .inl ⟨rfl, hadopt⟩

end Node

/-! ### A node over its whole life -/

/-- A node and every vote it has ever given, as term and candidate. No handler reads the list. -/
structure Voter (σ : Type) where
  node : Node σ
  votes : List (ℕ × String)

/-- What can happen to the term and the vote of a node; the flags are the fates of the saves. -/
inductive VoterEvent (σ : Type) where
  | requestVote (args : RequestVoteArgs) (adopted voted : Bool)
  | appendEntries (args : AppendEntriesArgs) (adopted : Bool)
  /-- The election timer fires. -/
  | elect (voted : Bool)
  | voteReply (term votes : ℕ) (reply : RequestVoteReply) (adopted : Bool)
  /-- The process dies, and a new one calls `NewNode` on what is on storage. -/
  | restart (sm : σ)

namespace Voter

def start (n : Node σ) : Voter σ where
  node := n
  votes := []

def step (M : StateMachine σ) (s : Voter σ) : VoterEvent σ → Option (Voter σ)
  | .requestVote args adopted voted =>
    let (n, reply) := s.node.handleRequestVoteWith adopted voted args
    some
      { node := n
        votes := if reply.voteGranted then s.votes ++ [(reply.term, args.candidateID)] else s.votes }
  | .appendEntries args adopted =>
    some { s with node := (s.node.handleAppendEntriesWith adopted args).1 }
  | .elect voted =>
    if s.node.state = .leader then none
    else
      let n := s.node.startElectionWith voted
      some { node := n, votes := s.votes ++ [(n.currentTerm, n.id)] }
  | .voteReply term votes reply adopted =>
    some { s with node := (s.node.handleRequestVoteReplyWith adopted term votes reply).1 }
  | .restart sm =>
    (newNode M s.node.id s.node.peers s.node.storage sm s.node.opts).map fun n =>
      { s with node := n }

/-- Every vote given is on storage, or superseded there by a newer term. -/
def Saved (s : Voter σ) : Prop :=
  ∀ v ∈ s.votes, v.1 < s.node.storage.term ∨
    v.1 = s.node.storage.term ∧ s.node.storage.votedFor = v.2

/-- No crash while a vote is unsaved, candidates with a name, and no election start in the last
term. -/
def VoteSafe (s : Voter σ) : VoterEvent σ → Prop
  | .requestVote args _ _ => args.candidateID ≠ ""
  | .elect _ => s.node.id ≠ "" ∧ s.node.currentTerm + 1 < 2 ^ 64
  | .restart _ => s.Saved
  | _ => True

instance VoteSafe.decidable (s : Voter σ) : (e : VoterEvent σ) → Decidable (s.VoteSafe e)
  | .requestVote args _ _ => inferInstanceAs (Decidable (args.candidateID ≠ ""))
  | .elect _ => inferInstanceAs (Decidable (s.node.id ≠ "" ∧ s.node.currentTerm + 1 < 2 ^ 64))
  | .restart _ => inferInstanceAs (Decidable (∀ v ∈ s.votes, v.1 < s.node.storage.term ∨
      v.1 = s.node.storage.term ∧ s.node.storage.votedFor = v.2))
  | .appendEntries _ _ | .voteReply _ _ _ _ => inferInstanceAs (Decidable True)

/-- **The invariant**: every vote is of an older term, or is the one in memory; and there is one per
term. -/
structure OneVote (s : Voter σ) : Prop where
  held : ∀ v ∈ s.votes, v.2 ≠ "" ∧
    (v.1 < s.node.currentTerm ∨ v.1 = s.node.currentTerm ∧ s.node.votedFor = v.2)
  unique : ∀ v ∈ s.votes, ∀ w ∈ s.votes, v.1 = w.1 → v.2 = w.2

namespace OneVote

variable {M : StateMachine σ} {s s' : Voter σ} {n : Node σ}

/-- No vote is given. -/
theorem adopts (h : OneVote s) (hn : s.node.Adopts n) :
    OneVote { s with node := n } where
  held v hv := by
    obtain ⟨hne, hold⟩ := h.held v hv
    refine ⟨hne, ?_⟩
    dsimp only
    rcases hn with hlt | ⟨ht, hvote⟩
    · omega
    · rw [ht, hvote]
      exact hold
  unique := h.unique

/-- A vote is given that contradicts none of the term. -/
theorem vote (h : OneVote s) {c : String} (hc : c ≠ "") (hvote : n.votedFor = c)
    (hn : s.node.currentTerm < n.currentTerm ∨ s.node.currentTerm = n.currentTerm ∧
      (s.node.votedFor = "" ∨ s.node.votedFor = c)) :
    OneVote { node := n, votes := s.votes ++ [(n.currentTerm, c)] } := by
  -- a vote of this term would be the one in memory
  have hold : ∀ v ∈ s.votes, v.1 < n.currentTerm ∨ v.1 = n.currentTerm ∧ v.2 = c := by
    intro v hv
    obtain ⟨hne, hlt | ⟨ht, hmem⟩⟩ := h.held v hv
    · exact .inl (by omega)
    · rcases hn with hnew | ⟨hsame, hno | hhas⟩
      · exact .inl (by omega)
      · exact absurd (hmem.symm.trans hno) hne
      · exact .inr ⟨ht.trans hsame, hmem.symm.trans hhas⟩
  constructor
  · intro v hv
    rcases List.mem_append.mp hv with hv | hv
    · refine ⟨(h.held v hv).1, (hold v hv).imp_right fun hcur => ⟨hcur.1, ?_⟩⟩
      exact hvote.trans hcur.2.symm
    · rw [List.mem_singleton.mp hv]
      exact ⟨hc, .inr ⟨rfl, hvote⟩⟩
  · intro v hv w hw heq
    rcases List.mem_append.mp hv with hv | hv
    · rcases List.mem_append.mp hw with hw | hw
      · exact h.unique v hv w hw heq
      · rw [List.mem_singleton.mp hw] at heq ⊢
        exact ((hold v hv).resolve_left (by dsimp only at heq; omega)).2
    · rw [List.mem_singleton.mp hv] at heq ⊢
      rcases List.mem_append.mp hw with hw | hw
      · exact ((hold w hw).resolve_left (by dsimp only at heq; omega)).2.symm
      · rw [List.mem_singleton.mp hw]

/-- A new process finds every vote on storage. -/
theorem restart (h : OneVote s) (hsaved : s.Saved) {sm : σ}
    (hn : newNode M s.node.id s.node.peers s.node.storage sm s.node.opts = some n) :
    OneVote { s with node := n } where
  held v hv := by
    obtain ⟨sm', i, t, -, rfl⟩ := n.newNode_eq hn
    exact ⟨(h.held v hv).1, hsaved v hv⟩
  unique := h.unique

theorem step {e : VoterEvent σ} (h : OneVote s) (hsafe : s.VoteSafe e)
    (hs : s.step M e = some s') : OneVote s' := by
  cases e with
  | requestVote args adopted voted =>
    unfold Voter.step at hs
    dsimp only at hs
    rcases s.node.handleRequestVoteWith_cases adopted voted args with
      ⟨hno, hadopt⟩ | ⟨hyes, hterm, hvote, hfree⟩
    · rw [hno] at hs
      cases hs
      -- no vote: the term may have gone up, which is all
      exact h.adopts hadopt
    · rw [hyes, if_pos rfl, ← hterm] at hs
      cases hs
      exact h.vote hsafe hvote (by rw [hterm]; exact hfree)
  | appendEntries args adopted =>
    cases hs
    exact h.adopts (s.node.handleAppendEntriesWith_adopts adopted args)
  | elect voted =>
    change (if s.node.state = .leader then none else some _) = some s' at hs
    split at hs
    · cases hs
    · cases hs
      -- the candidate votes for itself, in a term that is new to it
      obtain ⟨st, helect⟩ := s.node.startElectionWith_eq voted hsafe.2
      rw [helect]
      exact h.vote hsafe.1 rfl (.inl (Nat.lt_succ_self _))
  | voteReply term votes reply adopted =>
    cases hs
    exact h.adopts (s.node.handleRequestVoteReplyWith_adopts adopted term votes reply)
  | restart sm =>
    obtain ⟨n, hn, rfl⟩ := Option.map_eq_some_iff.mp hs
    exact h.restart hsafe hn

end OneVote

/-- **One vote per term**, over crashes and failing saves and for whatever messages come, in every
run in which no crash comes while a vote is unsaved, every candidate has a name and no election
starts in the last term. -/
theorem one_vote_per_term (M : StateMachine σ) (n : Node σ) {s : Voter σ}
    (h : Runs (Voter.step M) VoteSafe (Voter.start n) s) {t : ℕ} {a b : String}
    (ha : (t, a) ∈ s.votes) (hb : (t, b) ∈ s.votes) : a = b := by
  have hI : OneVote s := h.invariant (fun _ _ _ hI hok hs => hI.step hok hs) ⟨nofun, nofun⟩
  exact hI.unique _ ha _ hb rfl

/-- A node that has just started for the first time. -/
def fresh : Node Bytes :=
  (Cluster.initial trio fun _ => []).node "a"

/-- The vote for "b" is not saved, but the term adopted from "c" is, and then "a" crashes. -/
theorem one_vote_per_term_after_crash :
    ∃ s : Voter Bytes,
      Runs (Voter.step journal) VoteSafe (Voter.start fresh) s ∧
      s.votes = [(1, "b"), (2, "c"), (2, "c")] ∧
      ∀ a b, (2, a) ∈ s.votes → (2, b) ∈ s.votes → a = b := by
  have hrun : (exec (guarded (Voter.step journal) VoteSafe) (Voter.start fresh)
      [.requestVote ⟨1, "b", 0, 0⟩ true false, .requestVote ⟨2, "c", 0, 0⟩ true true, .restart [],
        .requestVote ⟨1, "a", 0, 0⟩ true true, .requestVote ⟨2, "b", 0, 0⟩ true true,
        .requestVote ⟨2, "c", 0, 0⟩ true true]).map (fun s => s.votes) =
      some [(1, "b"), (2, "c"), (2, "c")] := by
    decide +kernel
  obtain ⟨s, hs, hobs⟩ := Runs.of_exec_guarded_map hrun
  exact ⟨s, hs, hobs, fun a b ha hb => one_vote_per_term journal fresh hs ha hb⟩

/-- **A vote is forgotten.** The save of the vote for "b" fails and the vote is given all the same;
after a crash, "c" gets a vote in the same term. -/
theorem two_votes_in_one_term :
    ∃ s : Voter Bytes,
      Reaches (Voter.step journal) (Voter.start fresh) s ∧
      (1, "b") ∈ s.votes ∧ (1, "c") ∈ s.votes ∧ "b" ≠ "c" := by
  have hrun : (exec (Voter.step journal) (Voter.start fresh)
      [.requestVote ⟨1, "b", 0, 0⟩ true false, .restart [],
        .requestVote ⟨1, "c", 0, 0⟩ true true]).map (fun s => s.votes) =
      some [(1, "b"), (1, "c")] := by
    decide +kernel
  obtain ⟨s, hs, hobs⟩ := Reaches.of_exec_map hrun
  exact ⟨s, hs, by rw [hobs]; decide, by rw [hobs]; decide, by decide⟩

end Voter

end Raft
end BoilerPulse
