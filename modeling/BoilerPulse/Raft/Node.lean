import BoilerPulse.Raft.Types

/-!
# Raft: one node

`Node` and everything that runs under its mutex (`node.go`, `log.go`,
`election.go`, `replication.go`, `apply.go`). A function of the source that holds
`n.mu` from start to end is one function here; one that drops the lock in between
is cut at the unlocks, one function per locked section, and named after the
source function and the section.

Not modelled: timers, channels, the logger, and the transport handle. Slices are
lists, and an index the source would panic on is `none` where a handler's result
depends on it (`applyFetch`) and an empty or zero answer in `termAtLocked`, where
`log[i].Index = logBaseIndex + i + 1` excludes it.
-/

namespace BoilerPulse
namespace Raft

/-- One participant in a Raft cluster. -/
structure Node (σ : Type) where
  id : String
  peers : List String
  storage : Storage
  stateMachine : σ
  opts : Options
  currentTerm : ℕ
  votedFor : String
  log : List LogEntry
  logBaseIndex : ℕ
  logBaseTerm : ℕ
  state : State
  commitIndex : ℕ
  lastApplied : ℕ
  leaderID : String
  /-- A Go map; a missing key reads as `0`. -/
  nextIndex : String → ℕ
  /-- A Go map; a missing key reads as `0`. -/
  matchIndex : String → ℕ

/-- `NewNode`: recover term, vote, snapshot and log from storage. It fails when
the state machine rejects the stored snapshot. -/
def newNode {σ : Type} (M : StateMachine σ) (id : String) (peers : List String)
    (storage : Storage) (sm : σ) (opts : Options) : Option (Node σ) :=
  let (term, votedFor) := storage.loadTermAndVote
  let node (sm : σ) (lastIncludedIndex lastIncludedTerm : ℕ) : Node σ :=
    { id := id, peers := peers, storage := storage, stateMachine := sm, opts := opts
      currentTerm := term, votedFor := votedFor, log := storage.loadLog
      logBaseIndex := lastIncludedIndex, logBaseTerm := lastIncludedTerm
      state := .follower
      commitIndex := lastIncludedIndex, lastApplied := lastIncludedIndex
      leaderID := "", nextIndex := fun _ => 0, matchIndex := fun _ => 0 }
  match storage.loadSnapshot with
  | none => some (node sm 0 0)
  | some s => (M.restore sm s.data).map fun sm' => node sm' s.lastIncludedIndex s.lastIncludedTerm

namespace Node

variable {σ : Type} (n : Node σ)

/-! ### Log helpers (`log.go`) -/

def lastLogIndexLocked : ℕ :=
  match n.log.getLast? with
  | none => n.logBaseIndex
  | some e => e.index

def lastLogTermLocked : ℕ :=
  match n.log.getLast? with
  | none => n.logBaseTerm
  | some e => e.term

/-- The term of the entry at `index`, `0` if `index` is out of range. -/
def termAtLocked (index : ℕ) : ℕ :=
  if index = 0 ∨ n.lastLogIndexLocked < index then 0
  else if index = n.logBaseIndex then n.logBaseTerm
  else if index < n.logBaseIndex then 0
  else
    match n.log[index - n.logBaseIndex - 1]? with
    | some e => e.term
    | none => 0

def appendLogLocked (entries : List LogEntry) : Node σ :=
  if entries = [] then n
  else
    { n with
      log := n.log ++ entries
      storage := n.storage.appendEntries entries }

def truncateLogFromLocked (index : ℕ) : Node σ :=
  if index ≤ n.logBaseIndex ∨ n.lastLogIndexLocked < index then n
  else
    { n with
      log := n.log.take (index - n.logBaseIndex - 1)
      storage := n.storage.truncateFrom index }

def discardLogPrefixLocked (index term : ℕ) : Node σ :=
  if index ≤ n.logBaseIndex then n
  else
    let index := if n.lastLogIndexLocked < index then n.lastLogIndexLocked else index
    -- `index - n.logBaseIndex` wraps around when the clamp took it below the base
    let drop :=
      if index < n.logBaseIndex then n.log.length else min (index - n.logBaseIndex) n.log.length
    { n with
      log := n.log.drop drop
      logBaseIndex := index
      logBaseTerm := term
      storage := n.storage.discardLogThrough index }

/-! ### Term and vote (`node.go`) -/

def majority : ℕ :=
  (n.peers.length + 1) / 2 + 1

def persistTermAndVoteLocked : Node σ :=
  { n with storage := n.storage.saveTermAndVote n.currentTerm n.votedFor }

/-- Step down to follower, adopting `term` and clearing the vote if it is newer. -/
def becomeFollowerLocked (term : ℕ) : Node σ :=
  let n := { n with state := .follower, leaderID := "" }
  if n.currentTerm < term then
    { n with currentTerm := term, votedFor := "" }.persistTermAndVoteLocked
  else n

/-! ### Elections (`election.go`) -/

/-- The locked part of `startElectionLocked`; the requests it fans out carry
`requestVoteArgs` of the resulting node. -/
def startElectionLocked : Node σ :=
  { n with
    state := .candidate
    currentTerm := n.currentTerm + 1
    votedFor := n.id }.persistTermAndVoteLocked

def requestVoteArgs : RequestVoteArgs where
  term := n.currentTerm
  candidateID := n.id
  lastLogIndex := n.lastLogIndexLocked
  lastLogTerm := n.lastLogTermLocked

def becomeLeaderLocked : Node σ :=
  { n with
    state := .leader
    leaderID := n.id
    nextIndex := fun p => if p ∈ n.peers then n.lastLogIndexLocked + 1 else 0
    matchIndex := fun _ => 0 }

/-- The reply part of the goroutine `startElectionLocked` spawns per peer: `term`
and `votes` are the closure's variables, the latter shared by all goroutines of
one election. -/
def handleRequestVoteReply (term votes : ℕ) (reply : RequestVoteReply) : Node σ × ℕ :=
  if n.currentTerm < reply.term then (n.becomeFollowerLocked reply.term, votes)
  else if n.state ≠ .candidate ∨ n.currentTerm ≠ term then (n, votes)
  else if reply.voteGranted then
    if n.majority ≤ votes + 1 then (n.becomeLeaderLocked, votes + 1) else (n, votes + 1)
  else (n, votes)

def handleRequestVote (args : RequestVoteArgs) : Node σ × RequestVoteReply :=
  if args.term < n.currentTerm then (n, ⟨n.currentTerm, false⟩)
  else
    let n := if n.currentTerm < args.term then n.becomeFollowerLocked args.term else n
    let canVote : Prop := n.votedFor = "" ∨ n.votedFor = args.candidateID
    let logOK : Prop := n.lastLogTermLocked < args.lastLogTerm ∨
      (args.lastLogTerm = n.lastLogTermLocked ∧ n.lastLogIndexLocked ≤ args.lastLogIndex)
    if canVote ∧ logOK then
      ({ n with votedFor := args.candidateID }.persistTermAndVoteLocked, ⟨n.currentTerm, true⟩)
    else (n, ⟨n.currentTerm, false⟩)

/-! ### Replication (`replication.go`) -/

/-- The first index of the run of entries of term `conflictTerm` that ends at the
given index. -/
def conflictStart (conflictTerm : ℕ) : ℕ → ℕ
  | 0 => 0
  | 1 => 1
  | idx + 2 =>
    if n.termAtLocked (idx + 1) = conflictTerm then conflictStart conflictTerm (idx + 1)
    else idx + 2

/-- The consistency check of `HandleAppendEntries`: `some i` rejects with
`ConflictIndex = i`. -/
def checkPrevLog (prevLogIndex prevLogTerm : ℕ) : Option ℕ :=
  if 0 < prevLogIndex then
    if prevLogIndex < n.logBaseIndex then some (n.logBaseIndex + 1)
    else if n.lastLogIndexLocked < prevLogIndex then some (n.lastLogIndexLocked + 1)
    else if n.termAtLocked prevLogIndex ≠ prevLogTerm then
      some (n.conflictStart (n.termAtLocked prevLogIndex) prevLogIndex)
    else none
  else none

/-- The append loop of `HandleAppendEntries`, entered with the index of the first
of the remaining entries. -/
def appendMissing : Node σ → ℕ → List LogEntry → Node σ
  | n, _, [] => n
  | n, idx, e :: es =>
    if idx ≤ n.lastLogIndexLocked then
      if n.termAtLocked idx = e.term then appendMissing n (idx + 1) es
      else (n.truncateLogFromLocked idx).appendLogLocked (e :: es)
    else n.appendLogLocked (e :: es)

/-- How `HandleAppendEntries` moves the commit index. -/
def advanceCommit (leaderCommit : ℕ) : Node σ :=
  if n.commitIndex < leaderCommit then
    { n with commitIndex := min leaderCommit n.lastLogIndexLocked }
  else n

/-- Submitting to the sender of a current AppendEntries. -/
def followLeader (term : ℕ) (leaderID : String) : Node σ :=
  let n :=
    if n.currentTerm < term then n.becomeFollowerLocked term
    else if n.state = .candidate then n.becomeFollowerLocked term
    else n
  { n with state := .follower, leaderID := leaderID }

def handleAppendEntries (args : AppendEntriesArgs) : Node σ × AppendEntriesReply :=
  if args.term < n.currentTerm then (n, ⟨n.currentTerm, false, 0⟩)
  else
    let n := n.followLeader args.term args.leaderID
    match n.checkPrevLog args.prevLogIndex args.prevLogTerm with
    | some conflictIndex => (n, ⟨n.currentTerm, false, conflictIndex⟩)
    | none =>
      let n := (n.appendMissing (args.prevLogIndex + 1) args.entries).advanceCommit args.leaderCommit
      (n, ⟨n.currentTerm, true, 0⟩)

def maxReplicationBatchSize : ℕ := 64

/-- What `sendAppendEntriesTo` decides to send under the lock. -/
inductive Outgoing where
  | appendEntries (args : AppendEntriesArgs)
  /-- The peer's entries are compacted: go on in `sendInstallSnapshotTo` with this
  term. -/
  | installSnapshot (term : ℕ)

/-- The locked first section of `sendAppendEntriesTo`. -/
def sendAppendEntriesTo (peer : String) : Option Outgoing :=
  if n.state ≠ .leader then none
  else
    let nextIdx := if n.nextIndex peer = 0 then 1 else n.nextIndex peer
    if nextIdx ≤ n.logBaseIndex then some (.installSnapshot n.currentTerm)
    else
      let entries :=
        if nextIdx ≤ n.lastLogIndexLocked then
          (n.log.drop (nextIdx - n.logBaseIndex - 1)).take maxReplicationBatchSize
        else []
      some (.appendEntries
        { term := n.currentTerm
          leaderID := n.id
          prevLogIndex := nextIdx - 1
          prevLogTerm := n.termAtLocked (nextIdx - 1)
          entries := entries
          leaderCommit := n.commitIndex })

/-- How many nodes are known to hold `idx`, the leader included. -/
def replicaCount (idx : ℕ) : ℕ :=
  1 + n.peers.countP fun p => idx ≤ n.matchIndex p

/-- The loop of `maybeAdvanceCommitIndexLocked`, at index `idx`. -/
def advanceCommitFrom : ℕ → Node σ
  | 0 => n
  | idx + 1 =>
    if n.commitIndex < idx + 1 then
      if n.termAtLocked (idx + 1) ≠ n.currentTerm then advanceCommitFrom idx
      else if n.majority ≤ n.replicaCount (idx + 1) then { n with commitIndex := idx + 1 }
      else advanceCommitFrom idx
    else n

def maybeAdvanceCommitIndexLocked : Node σ :=
  if n.state ≠ .leader then n else n.advanceCommitFrom n.lastLogIndexLocked

/-- The locked second section of `sendAppendEntriesTo`: the reply to the request
`args` sent to `peer`. -/
def handleAppendEntriesReply (peer : String) (args : AppendEntriesArgs)
    (reply : AppendEntriesReply) : Node σ :=
  if n.currentTerm < reply.term then n.becomeFollowerLocked reply.term
  else if n.state ≠ .leader ∨ n.currentTerm ≠ args.term then n
  else if reply.success then
    let newMatch := args.prevLogIndex + args.entries.length
    { n with
      matchIndex :=
        Function.update n.matchIndex peer (max newMatch (n.matchIndex peer))
      nextIndex := Function.update n.nextIndex peer (newMatch + 1) }.maybeAdvanceCommitIndexLocked
  else if 0 < reply.conflictIndex then
    { n with nextIndex := Function.update n.nextIndex peer reply.conflictIndex }
  else if 1 < n.nextIndex peer then
    { n with nextIndex := Function.update n.nextIndex peer (n.nextIndex peer - 1) }
  else n

/-- The request `sendInstallSnapshotTo` builds from the stored snapshot. -/
def installSnapshotArgs (term : ℕ) : Option InstallSnapshotArgs :=
  n.storage.loadSnapshot.map fun s =>
    { term := term
      leaderID := n.id
      lastIncludedIndex := s.lastIncludedIndex
      lastIncludedTerm := s.lastIncludedTerm
      data := s.data }

/-- The locked section of `sendInstallSnapshotTo`: the reply to `args`. -/
def handleInstallSnapshotReply (peer : String) (args : InstallSnapshotArgs)
    (reply : InstallSnapshotReply) : Node σ :=
  if n.currentTerm < reply.term then n.becomeFollowerLocked reply.term
  else if n.state ≠ .leader ∨ n.currentTerm ≠ args.term then n
  else
    { n with
      nextIndex :=
        Function.update n.nextIndex peer (max (args.lastIncludedIndex + 1) (n.nextIndex peer))
      matchIndex :=
        Function.update n.matchIndex peer (max args.lastIncludedIndex (n.matchIndex peer)) }
      |>.maybeAdvanceCommitIndexLocked

/-- First locked section of `HandleInstallSnapshot`: a reply ends the call, `none`
goes on to save and restore. -/
def installSnapshotBegin (args : InstallSnapshotArgs) : Node σ × Option InstallSnapshotReply :=
  if args.term < n.currentTerm then (n, some ⟨n.currentTerm⟩)
  else
    let n := if n.currentTerm < args.term then n.becomeFollowerLocked args.term else n
    let n := { n with state := .follower, leaderID := args.leaderID }
    if args.lastIncludedIndex ≤ n.logBaseIndex then (n, some ⟨n.currentTerm⟩)
    else (n, none)

def installSnapshotSave (args : InstallSnapshotArgs) : Node σ :=
  { n with
    storage := n.storage.saveSnapshot args.lastIncludedIndex args.lastIncludedTerm args.data }

/-- The unlocked `Restore` of `HandleInstallSnapshot`; `none` when it fails. -/
def installSnapshotRestore (M : StateMachine σ) (args : InstallSnapshotArgs) : Option (Node σ) :=
  (M.restore n.stateMachine args.data).map fun sm => { n with stateMachine := sm }

/-- Last locked section of `HandleInstallSnapshot`. -/
def installSnapshotFinish (args : InstallSnapshotArgs) : Node σ :=
  if args.lastIncludedIndex ≤ n.logBaseIndex then n
  else
    { n with
      log := []
      storage := n.storage.discardLogThrough args.lastIncludedIndex
      logBaseIndex := args.lastIncludedIndex
      logBaseTerm := args.lastIncludedTerm
      commitIndex := max args.lastIncludedIndex n.commitIndex
      lastApplied := max args.lastIncludedIndex n.lastApplied }

/-- `HandleInstallSnapshot` run to completion without interleaving. -/
def handleInstallSnapshot (M : StateMachine σ) (args : InstallSnapshotArgs) :
    Node σ × InstallSnapshotReply :=
  match n.installSnapshotBegin args with
  | (n, some reply) => (n, reply)
  | (n, none) =>
    let term := n.currentTerm
    let n := n.installSnapshotSave args
    match n.installSnapshotRestore M args with
    | none => (n, ⟨term⟩)
    | some n =>
      let n := n.installSnapshotFinish args
      (n, ⟨n.currentTerm⟩)

/-! ### Proposing and applying (`apply.go`) -/

def maxAppendBatchSize : ℕ := 64

/-- The entries `appendBatch` makes of a batch of commands. -/
def batchEntries (term nextIndex : ℕ) : List Bytes → List LogEntry
  | [] => []
  | cmd :: cmds => ⟨term, nextIndex, cmd⟩ :: batchEntries term (nextIndex + 1) cmds

/-- `appendBatch`; `none` is `ErrNotLeader` for the whole batch. -/
def appendBatch (batch : List Bytes) : Option (Node σ) :=
  if n.state ≠ .leader then none
  else some (n.appendLogLocked (batchEntries n.currentTerm (n.lastLogIndexLocked + 1) batch))

/-- The locked section of one iteration of `applyPending`: the entry to apply next,
or no entry when caught up. The outer `none` is the index panic. -/
def applyFetch : Option (Node σ × Option LogEntry) :=
  if n.commitIndex ≤ n.lastApplied then some (n, none)
  else if n.lastApplied + 1 ≤ n.logBaseIndex then none
  else
    match n.log[n.lastApplied + 1 - n.logBaseIndex - 1]? with
    | none => none
    | some e => some ({ n with lastApplied := n.lastApplied + 1 }, some e)

def applyEntry (M : StateMachine σ) (e : LogEntry) : Node σ :=
  { n with stateMachine := M.apply n.stateMachine e.command }

/-- The locked first section of `maybeSnapshot`: the index and term to snapshot at,
if the log has grown enough. -/
def maybeSnapshotCapture : Option (ℕ × ℕ) :=
  if n.opts.snapshotThreshold ≤ 0 then none
  else if n.lastApplied ≤ n.logBaseIndex ∨
      (n.lastApplied - n.logBaseIndex : ℕ) < n.opts.snapshotThreshold then none
  else some (n.lastApplied, n.termAtLocked n.lastApplied)

/-- `maybeSnapshot` run to completion without interleaving. -/
def maybeSnapshot (M : StateMachine σ) : Node σ :=
  match n.maybeSnapshotCapture with
  | none => n
  | some (lastApplied, term) =>
    match M.snapshot n.stateMachine with
    | none => n
    | some data =>
      { n with storage := n.storage.saveSnapshot lastApplied term data }
        |>.discardLogPrefixLocked lastApplied term

end Node

end Raft
end BoilerPulse
