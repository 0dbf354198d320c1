import Mathlib.Data.Int.Notation
import Mathlib.Data.List.Basic

/-!
# Raft: messages, storage and state machine

The data `internal/raft` works on (`types.go`, `interfaces.go`). Terms and
indices are `uint64` in the source and natural numbers here: they are only ever
incremented, so the difference would take 2^64 elections or entries to show.
Commands and snapshot payloads are byte lists.

`Storage` is the behaviour the `Storage` interface documents, with every
operation succeeding: `truncateFrom` drops the entries with index at least the
given one, `discardLogThrough` those with index at most the given one, both read
off the entries' own `index` field. `StateMachine` is the interface of the same
name: `Snapshot` and `Restore` may fail, and the error of `Apply` is dropped by its
only caller.
-/

namespace BoilerPulse
namespace Raft

abbrev Bytes := List UInt8

/-- One of the three Raft server states. -/
inductive State where
  | follower
  | candidate
  | leader
  deriving DecidableEq, Repr

/-- One entry of the replicated log. Indices are 1-based. -/
structure LogEntry where
  term : ℕ
  index : ℕ
  command : Bytes
  deriving DecidableEq, Repr

structure RequestVoteArgs where
  term : ℕ
  candidateID : String
  lastLogIndex : ℕ
  lastLogTerm : ℕ
  deriving DecidableEq, Repr

structure RequestVoteReply where
  term : ℕ
  voteGranted : Bool
  deriving DecidableEq, Repr

structure AppendEntriesArgs where
  term : ℕ
  leaderID : String
  prevLogIndex : ℕ
  prevLogTerm : ℕ
  entries : List LogEntry
  leaderCommit : ℕ
  deriving DecidableEq, Repr

structure AppendEntriesReply where
  term : ℕ
  success : Bool
  conflictIndex : ℕ
  deriving DecidableEq, Repr

structure InstallSnapshotArgs where
  term : ℕ
  leaderID : String
  lastIncludedIndex : ℕ
  lastIncludedTerm : ℕ
  data : Bytes
  deriving DecidableEq, Repr

structure InstallSnapshotReply where
  term : ℕ
  deriving DecidableEq, Repr

/-- Of `Options` only `SnapshotThreshold` takes part in the logic; the rest is
timing. -/
structure Options where
  snapshotThreshold : ℤ
  deriving DecidableEq, Repr

/-! ### Storage -/

/-- The latest snapshot, as `SaveSnapshot` received it. -/
structure Snapshot where
  lastIncludedIndex : ℕ
  lastIncludedTerm : ℕ
  data : Bytes
  deriving DecidableEq, Repr

/-- What a `Storage` holds durably. -/
structure Storage where
  term : ℕ
  votedFor : String
  log : List LogEntry
  snapshot : Option Snapshot
  deriving DecidableEq, Repr

namespace Storage

/-- A storage nothing has been saved to. -/
def empty : Storage where
  term := 0
  votedFor := ""
  log := []
  snapshot := none

def saveTermAndVote (st : Storage) (term : ℕ) (votedFor : String) : Storage :=
  { st with term := term, votedFor := votedFor }

def loadTermAndVote (st : Storage) : ℕ × String :=
  (st.term, st.votedFor)

def appendEntries (st : Storage) (entries : List LogEntry) : Storage :=
  { st with log := st.log ++ entries }

def truncateFrom (st : Storage) (index : ℕ) : Storage :=
  { st with log := st.log.filter fun e => e.index < index }

def loadLog (st : Storage) : List LogEntry :=
  st.log

def saveSnapshot (st : Storage) (lastIncludedIndex lastIncludedTerm : ℕ) (data : Bytes) : Storage :=
  { st with snapshot := some ⟨lastIncludedIndex, lastIncludedTerm, data⟩ }

def loadSnapshot (st : Storage) : Option Snapshot :=
  st.snapshot

def discardLogThrough (st : Storage) (index : ℕ) : Storage :=
  { st with log := st.log.filter fun e => index < e.index }

/-- The index `LoadSnapshot` would report, `0` when there is no snapshot. -/
def snapshotIndex (st : Storage) : ℕ :=
  (st.snapshot.map Snapshot.lastIncludedIndex).getD 0

/-- The term `LoadSnapshot` would report, `0` when there is no snapshot. -/
def snapshotTerm (st : Storage) : ℕ :=
  (st.snapshot.map Snapshot.lastIncludedTerm).getD 0

end Storage

/-! ### State machine -/

/-- The `StateMachine` interface over a state type `σ`. -/
structure StateMachine (σ : Type) where
  apply : σ → Bytes → σ
  snapshot : σ → Option Bytes
  restore : σ → Bytes → Option σ

/-- The effect of a sequence of commands, each applied once and in order. -/
def StateMachine.effect {σ : Type} (M : StateMachine σ) (init : σ) (cmds : List Bytes) : σ :=
  cmds.foldl M.apply init

end Raft
end BoilerPulse
