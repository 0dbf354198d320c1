import BoilerPulse.Raft.Node
import Mathlib.Logic.Function.Basic

/-!
# Raft: the goroutines of one process

`Node` is what the mutex protects; `Server` adds where the goroutines stand that
work on it with the mutex released. There is one `applyLoop` (`Applier`), any
number of `HandleInstallSnapshot` calls in progress (`Install`), the vote counters
captured by the closures of `startElectionLocked`, and the `sendInstallSnapshotTo`
calls that have not loaded the snapshot yet.

Each function below is one atomic step: a section under the lock, or one call into
the state machine or the storage made between two sections.
-/

namespace BoilerPulse
namespace Raft

/-- Where `applyLoop` stands, between two of its atomic steps. -/
inductive Applier where
  /-- At the head of the loop of `applyPending`. -/
  | idle
  /-- Holding the entry it is about to pass to `StateMachine.Apply`. -/
  | applying (e : LogEntry)
  /-- Done with `applyPending`, about to enter `maybeSnapshot`. -/
  | caughtUp
  /-- About to call `StateMachine.Snapshot`. -/
  | snapshotting (lastApplied term : ℕ)
  /-- About to call `Storage.SaveSnapshot`. -/
  | saving (lastApplied term : ℕ) (data : Bytes)
  /-- About to discard the log prefix. -/
  | discarding (lastApplied term : ℕ)
  deriving DecidableEq

/-- What a `HandleInstallSnapshot` call does next. -/
inductive InstallStage where
  | save
  | restore
  | finish
  deriving DecidableEq

/-- A `HandleInstallSnapshot` call in progress. -/
structure Install where
  /-- The remote call it will answer. -/
  call : ℕ
  args : InstallSnapshotArgs
  /-- The term captured in the first section. -/
  term : ℕ
  stage : InstallStage
  deriving DecidableEq

/-- A process: the node and its goroutines. -/
structure Server (σ : Type) where
  node : Node σ
  applier : Applier
  installs : List Install
  /-- The `votes` variable of the election started in a term. -/
  votes : ℕ → ℕ
  /-- Peer and term of each `sendInstallSnapshotTo` about to load the snapshot. -/
  snapshotSends : List (String × ℕ)

namespace Server

variable {σ : Type}

/-- A process that has just called `NewNode`. -/
def start (n : Node σ) : Server σ where
  node := n
  applier := .idle
  installs := []
  votes _ := 0
  snapshotSends := []

/-- One atomic step of `applyLoop`, with the entry passed to `StateMachine.Apply` if
that is what the step does. `none` is the index panic of `applyPending`. -/
def applyStep (M : StateMachine σ) (s : Server σ) : Option (Server σ × Option LogEntry) :=
  match s.applier with
  | .idle =>
    match s.node.applyFetch with
    | none => none
    | some (n, none) => some ({ s with node := n, applier := .caughtUp }, none)
    | some (n, some e) => some ({ s with node := n, applier := .applying e }, none)
  | .applying e => some ({ s with node := s.node.applyEntry M e, applier := .idle }, some e)
  | .caughtUp =>
    match s.node.maybeSnapshotCapture with
    | none => some ({ s with applier := .idle }, none)
    | some (lastApplied, term) => some ({ s with applier := .snapshotting lastApplied term }, none)
  | .snapshotting lastApplied term =>
    match M.snapshot s.node.stateMachine with
    | none => some ({ s with applier := .idle }, none)
    | some data => some ({ s with applier := .saving lastApplied term data }, none)
  | .saving lastApplied term data =>
    some ({ s with
      node := { s.node with storage := s.node.storage.saveSnapshot lastApplied term data }
      applier := .discarding lastApplied term }, none)
  | .discarding lastApplied term =>
    some ({ s with
      node := s.node.discardLogPrefixLocked lastApplied term
      applier := .idle }, none)

/-- The first section of a `HandleInstallSnapshot` call, with its reply if the call
ends there. -/
def installBegin (call : ℕ) (args : InstallSnapshotArgs) (s : Server σ) :
    Server σ × Option InstallSnapshotReply :=
  match s.node.installSnapshotBegin args with
  | (n, some reply) => ({ s with node := n }, some reply)
  | (n, none) =>
    ({ s with node := n, installs := s.installs ++ [⟨call, args, n.currentTerm, .save⟩] }, none)

/-- The next atomic step of the `i`-th `HandleInstallSnapshot` call in progress, with
the call it answers and the reply when it ends. -/
def installStep (M : StateMachine σ) (i : ℕ) (s : Server σ) :
    Option (Server σ × Option (ℕ × InstallSnapshotReply)) :=
  match s.installs[i]? with
  | none => none
  | some th =>
    match th.stage with
    | .save =>
      some ({ s with
        node := s.node.installSnapshotSave th.args
        installs := s.installs.set i { th with stage := .restore } }, none)
    | .restore =>
      match s.node.installSnapshotRestore M th.args with
      | none => some ({ s with installs := s.installs.eraseIdx i }, some (th.call, ⟨th.term⟩))
      | some n =>
        some ({ s with node := n, installs := s.installs.set i { th with stage := .finish } }, none)
    | .finish =>
      let n := s.node.installSnapshotFinish th.args
      some ({ s with node := n, installs := s.installs.eraseIdx i },
        some (th.call, ⟨n.currentTerm⟩))

end Server

end Raft
end BoilerPulse
