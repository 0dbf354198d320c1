import BoilerPulse.Gateway.Events
import BoilerPulse.Raft.Proposals

/-!
# Gateway: a write and its attempts

`handleWrite` (`proxy.go`) sends a write to the node that it takes for the leader, and once more,
after a `refresh` (`leader.go`), if the first attempt was not delivered. At the node a handler
(`kv_handlers.go`, `events_handlers.go`) makes a command of it, and `Propose` (`apply.go`) puts that
into the channel that `appendLoop` reads.

A `System` is the gateway with the requests it handles, their attempts at the nodes, the `proposeCh`
of every node, and the cluster behind them. Every locked section and every operation on a channel is
a step of its own, so that timeouts, refreshes, elections and the writes of other clients may come
between any two of them. `System.made` records which entry was made of which attempt.
-/

namespace BoilerPulse
namespace Gateway

open Framework Storage

/-! ### What the handlers of a node propose -/

/-- The body of a PUT. -/
structure PutBody where
  value : Bytes
  consistency : Bytes
  ttlSeconds : ℤ
  deriving DecidableEq

/-- A write as a client sends it, with the key that the node finds in its path. -/
inductive ClientWrite where
  | put (key : Key) (body : Json PutBody)
  | delete (key : Key)
  | post (body : Json Event)
  deriving DecidableEq

/-- `handlePut` up to its command, or the status it answers with. -/
def putCommand (key : Key) : Json PutBody → Except ℕ Command
  | none => .error 400
  | some req =>
    if req.value = [] then .error 400
    else if req.ttlSeconds < 0 then .error 400
    else
      match Node.consistencyOf req.consistency with
      | none => .error 400
      | some consistency => .ok ⟨commandSet, key, req.value, consistency, req.ttlSeconds⟩

/-- `handleDelete`, with what its engine has under the key. -/
def deleteCommand (key : Key) : Except Error Entry → Except ℕ Command
  | .error .keyNotFound => .error 404
  | .error (.failed _) => .error 500
  | .ok _ => .ok ⟨commandDelete, key, [], [], 0⟩

/-- `handlePostEvent`, with what `generateID` and the clock return. -/
def postCommand (marshal : Event → Option Bytes) (generated : Bytes) (now : ℤ) :
    Json Event → Except ℕ Command
  | none => .error 400
  | some raw =>
    match raw.normalize generated now with
    | .error _ => .error 400
    | .ok e =>
      match e.stored marshal with
      | none => .error 500
      | some (key, stored) => .ok ⟨commandSet, key, stored.value, stored.consistency, 0⟩

/-- The status of a write that is committed and applied. -/
def ClientWrite.success : ClientWrite → ℕ
  | .put _ _ | .delete _ => 204
  | .post _ => 201

/-- What a system is made of. -/
structure Deployment (σ : Type) where
  machine : Raft.StateMachine σ
  config : Raft.Config
  /-- The nodes that the gateway is configured with. -/
  nodes : List String
  /-- `Get` of the engine below the state machine. -/
  get : σ → ℤ → Key → Except Error Entry
  /-- `json.Marshal` of an event. -/
  marshal : Event → Option Bytes
  /-- `EncodeCommand`. -/
  encode : Command → Bytes

/-- The command that a node makes of a write. -/
def ClientWrite.command {σ : Type} (d : Deployment σ) (sm : σ) (generated : Bytes) (now : ℤ) :
    ClientWrite → Except ℕ Command
  | .put key body => putCommand key body
  | .delete key => deleteCommand key (d.get sm now key)
  | .post body => postCommand d.marshal generated now body

/-! ### The attempts at a node -/

/-- Where an attempt is. -/
inductive Stage where
  /-- On its way to the node. -/
  | sent
  /-- The handler has its command, and is at `Status`. -/
  | decoded (command : Bytes)
  /-- In `Propose`, at `IsLeader`. -/
  | proposing (command : Bytes)
  /-- At the first `select` of `Propose`. -/
  | admitted (command : Bytes)
  /-- At the second one, which waits for `doneCh`. -/
  | queued
  /-- In `waitForApply`. -/
  | waiting (e : Raft.LogEntry)
  /-- The handler has answered. -/
  | answered (status : ℕ)
  /-- The request has not got to the node, or the node has died over it. -/
  | lost
  deriving DecidableEq

/-- `Propose` may still put the command into `proposeCh`. -/
def Stage.Early : Stage → Prop
  | .sent | .decoded _ | .proposing _ | .admitted _ => True
  | _ => False

/-- The handler is done with it. -/
def Stage.Over : Stage → Prop
  | .answered _ | .lost => True
  | _ => False

instance Stage.Over.decidable : (s : Stage) → Decidable s.Over
  | .answered _ | .lost => inferInstanceAs (Decidable True)
  | .sent | .decoded _ | .proposing _ | .admitted _ | .queued | .waiting _ =>
    inferInstanceAs (Decidable False)

/-- A `proxyRequest` of a write, by the request it belongs to and the node it goes to. -/
structure Attempt where
  request : ℕ
  node : String
  write : ClientWrite
  stage : Stage
  deriving DecidableEq

/-- What a crash of its node leaves of an attempt. -/
def Attempt.crash (x : Attempt) : Attempt :=
  match x.stage with
  | .sent | .answered _ => x
  | _ => { x with stage := .lost }

/-- What `appendBatch` sends to `doneCh`, if it has appended the batch. -/
def Attempt.placed (placed : List (ℕ × Raft.LogEntry)) (a : ℕ) (x : Attempt) : Attempt :=
  match x.stage, placed.lookup a with
  | .queued, some e => { x with stage := .waiting e }
  -- nobody is waiting
  | _, _ => x

/-- What `appendBatch` sends to `doneCh`, if the node does not lead. -/
def Attempt.refused (batch : List ℕ) (a : ℕ) (x : Attempt) : Attempt :=
  if x.stage = .queued ∧ a ∈ batch then { x with stage := .answered 503 } else x

/-- A `pendingPropose`, with the attempt that waits for it; `none` if it is of a client of the node
itself. -/
structure Pending where
  command : Bytes
  owner : Option ℕ
  deriving DecidableEq

def proposeChBuffer : ℕ := 1024

/-! ### The gateway -/

/-- A `refresh` in progress (`leader.go`), with the nodes that it has not polled yet. -/
structure Refresh where
  rest : List String
  bestTerm : ℕ
  bestLeaderID : String
  deriving DecidableEq

namespace Refresh

def start (nodes : List String) : Refresh :=
  ⟨nodes, 0, ""⟩

/-- `pollNode` of the next node, which may or may not answer. -/
def poll {σ : Type} (r : Refresh) (c : Raft.Cluster σ) (answers : Bool) : Option Refresh :=
  match r.rest with
  | [] => none
  | v :: rest =>
    if answers ∧ (c.node v).state = .leader ∧ r.bestTerm ≤ (c.node v).currentTerm then
      some ⟨rest, (c.node v).currentTerm, v⟩
    else some { r with rest := rest }

/-- The leader that is known after the polls. -/
def leader (r : Refresh) (leaderID : String) : String :=
  if r.bestLeaderID = "" then leaderID else r.bestLeaderID

end Refresh

/-- Where `handleWrite` is, with the first attempt once that has failed. -/
inductive Phase where
  /-- At `currentLeader`; `refreshed` if there is no refresh to come after it. -/
  | looking (first : Option ℕ) (refreshed : Bool)
  /-- In `refresh`. -/
  | refreshing (first : Option ℕ) (r : Refresh)
  /-- In `proxyRequest`. -/
  | proxying (first : Option ℕ) (attempt : ℕ)
  | done (status : ℕ)
  deriving DecidableEq

/-- A request that the gateway has accepted. -/
structure Handling where
  write : ClientWrite
  phase : Phase
  deriving DecidableEq

/-! ### The system -/

structure System (σ : Type) where
  cluster : Raft.Cluster σ
  proposeCh : String → List Pending
  leaderID : String
  /-- The refresh of `run`, if it is in one. -/
  refresh : Option Refresh
  /-- A request is known by its position, and so is an attempt. -/
  requests : List Handling
  attempts : List Attempt
  /-- The entries made of attempts so far. Nothing reads it. -/
  made : List (ℕ × Raft.LogEntry)

/-- The steps of `refresh`. -/
inductive RefreshMove where
  | start
  | poll (answers : Bool)
  | publish

/-- The steps of `handleWrite`. -/
inductive GatewayMove where
  /-- `currentLeader`, and on to `proxyRequest` if there is one. -/
  | look
  | poll (answers : Bool)
  /-- The end of `refresh`. -/
  | publish
  /-- `proxyRequest` has its answer. -/
  | receive
  /-- `proxyRequest` ends without one. -/
  | giveUp

/-- The steps of an attempt. -/
inductive NodeMove where
  /-- The handler begins, and makes its command. -/
  | arrive (generated : Bytes) (now : ℤ)
  /-- The request does not get through. -/
  | lose
  | status
  | isLeader
  /-- `proposeCh <- req`. -/
  | enqueue
  /-- The context is done, or the node is stopping. -/
  | cancel
  /-- One iteration of `waitForApply`. -/
  | poll

inductive Move (σ : Type) where
  /-- A step of the cluster other than appending proposals. -/
  | raft (a : Raft.Action σ)
  /-- `appendLoop` of `v` takes up to `k` proposals off its channel and runs `appendBatch`. -/
  | append (v : String) (k : ℕ)
  /-- A client of `v` itself gets its command into the channel. -/
  | direct (v : String) (command : Bytes)
  /-- `run` of the gateway. -/
  | background (m : RefreshMove)
  | request (w : ClientWrite)
  | gateway (i : ℕ) (m : GatewayMove)
  | node (a : ℕ) (m : NodeMove)

namespace System

variable {σ : Type}

/-- The attempts in the channel of a node. -/
def owners (s : System σ) (v : String) : List ℕ :=
  (s.proposeCh v).filterMap Pending.owner

def start (c : Raft.Cluster σ) : System σ where
  cluster := c
  proposeCh _ := []
  leaderID := ""
  refresh := none
  requests := []
  attempts := []
  made := []

/-- An attempt goes on to another stage. -/
def setStage (s : System σ) (a : ℕ) (x : Attempt) (stage : Stage) : System σ :=
  { s with attempts := s.attempts.set a { x with stage := stage } }

/-- A request goes on to another phase. -/
def setPhase (s : System σ) (i : ℕ) (h : Handling) (phase : Phase) : System σ :=
  { s with requests := s.requests.set i { h with phase := phase } }

/-! #### The nodes -/

/-- The process of `v` dies, with its channel and its handlers. -/
def crash (s : System σ) (v : String) : System σ :=
  { s with
    proposeCh := Function.update s.proposeCh v []
    attempts := s.attempts.map fun x => if x.node = v then x.crash else x }

variable (d : Deployment σ)

def stepRaft (s : System σ) : Raft.Action σ → Option (System σ)
  | .propose _ _ => none
  | .restart v sm =>
    (s.cluster.step d.machine d.config (.restart v sm)).map fun c =>
      { s.crash v with cluster := c }
  | a => (s.cluster.step d.machine d.config a).map fun c => { s with cluster := c }

/-- The attempts of a batch, each with its entry. -/
def place (batch : List Pending) (entries : List Raft.LogEntry) : List (ℕ × Raft.LogEntry) :=
  (batch.zip entries).filterMap fun x => x.1.owner.map fun a => (a, x.2)

/-- `appendLoop` drains what it finds, up to the limit. Whether it leads is decided in
`appendBatch`. -/
def append (s : System σ) (v : String) (k : ℕ) : Option (System σ) :=
  let batch := (s.proposeCh v).take k
  if batch = [] ∨ Raft.Node.maxAppendBatchSize < batch.length then none
  else
    let n := s.cluster.node v
    let commands := batch.map Pending.command
    let s := { s with proposeCh := Function.update s.proposeCh v ((s.proposeCh v).drop k) }
    match s.cluster.step d.machine d.config (.propose v commands) with
    | none =>
      some { s with
        attempts := s.attempts.mapIdx (Attempt.refused (batch.filterMap Pending.owner)) }
    | some c =>
      let placed :=
        place batch (Raft.Node.batchEntries n.currentTerm (n.lastLogIndexLocked + 1) commands)
      some { s with
        cluster := c
        attempts := s.attempts.mapIdx (Attempt.placed placed)
        made := s.made ++ placed }

/-- A proposal gets into the channel, if there is room. -/
def enqueue (s : System σ) (v : String) (p : Pending) : Option (System σ) :=
  if (s.proposeCh v).length < proposeChBuffer then
    some { s with proposeCh := Function.update s.proposeCh v (s.proposeCh v ++ [p]) }
  else none

/-- The next step of an attempt. -/
def stepNode (s : System σ) (a : ℕ) (x : Attempt) : NodeMove → Option (System σ)
  | .arrive generated now =>
    if x.stage = .sent then
      match x.write.command d (s.cluster.node x.node).stateMachine generated now with
      | .error status => some (s.setStage a x (.answered status))
      | .ok cmd => some (s.setStage a x (.decoded (d.encode cmd)))
    else none
  | .lose => if x.stage = .sent then some (s.setStage a x .lost) else none
  | .status =>
    match x.stage with
    | .decoded cmd =>
      if (s.cluster.node x.node).state = .leader then some (s.setStage a x (.proposing cmd))
      else some (s.setStage a x (.answered 503))
    | _ => none
  | .isLeader =>
    match x.stage with
    | .proposing cmd =>
      if (s.cluster.node x.node).state = .leader then some (s.setStage a x (.admitted cmd))
      else some (s.setStage a x (.answered 503))
    | _ => none
  | .enqueue =>
    match x.stage with
    | .admitted cmd => (s.setStage a x .queued).enqueue x.node ⟨cmd, some a⟩
    | _ => none
  | .cancel =>
    match x.stage with
    -- a proposal that is in the channel stays there
    | .admitted _ | .queued | .waiting _ => some (s.setStage a x (.answered 503))
    | _ => none
  | .poll =>
    match x.stage with
    | .waiting e =>
      ((s.cluster.node x.node).waitForApply e.index e.term).map fun verdict =>
        s.setStage a x (.answered (if verdict = .applied then x.write.success else 503))
    | _ => none

/-! #### The gateway -/

/-- `proxyRequest` of the request `i` to the node `v`. -/
def send (s : System σ) (i : ℕ) (h : Handling) (first : Option ℕ) (v : String) : System σ :=
  { s.setPhase i h (.proxying first s.attempts.length) with
    attempts := s.attempts ++ [⟨i, v, h.write, .sent⟩] }

/-- What follows an attempt that was not delivered: another one, if it was the first. -/
def undelivered (s : System σ) (i : ℕ) (h : Handling) (a : ℕ) : Option ℕ → System σ
  | none => s.setPhase i h (.refreshing (some a) (.start d.nodes))
  | some _ => s.setPhase i h (.done 503)

/-- The next step of `handleWrite`. -/
def stepGateway (s : System σ) (i : ℕ) (h : Handling) : GatewayMove → Option (System σ)
  | .look =>
    match h.phase with
    | .looking first refreshed =>
      if s.leaderID ≠ "" then some (s.send i h first s.leaderID)
      else if refreshed then some (s.setPhase i h (.done 503))
      else some (s.setPhase i h (.refreshing first (.start d.nodes)))
    | _ => none
  | .poll answers =>
    match h.phase with
    | .refreshing first r =>
      (r.poll s.cluster answers).map fun r => s.setPhase i h (.refreshing first r)
    | _ => none
  | .publish =>
    match h.phase with
    | .refreshing first r =>
      if r.rest = [] then
        some { s.setPhase i h (.looking first true) with leaderID := r.leader s.leaderID }
      else none
    | _ => none
  | .receive =>
    match h.phase with
    | .proxying first a =>
      match (s.attempts[a]?).map Attempt.stage with
      | some (.answered status) =>
        if status = 503 then some (s.undelivered d i h a first)
        else some (s.setPhase i h (.done status))
      | _ => none
    | _ => none
  | .giveUp =>
    match h.phase with
    | .proxying first a => some (s.undelivered d i h a first)
    | _ => none

/-- The next step of the refresh of `run`. -/
def stepBackground (s : System σ) : RefreshMove → Option (System σ)
  | .start => if s.refresh = none then some { s with refresh := some (.start d.nodes) } else none
  | .poll answers =>
    s.refresh.bind fun r => (r.poll s.cluster answers).map fun r => { s with refresh := some r }
  | .publish =>
    s.refresh.bind fun r =>
      if r.rest = [] then some { s with refresh := none, leaderID := r.leader s.leaderID } else none

def step (s : System σ) : Move σ → Option (System σ)
  | .raft a => s.stepRaft d a
  | .append v k => s.append d v k
  | .direct v command => s.enqueue v ⟨command, none⟩
  | .background m => s.stepBackground d m
  | .request w => some { s with requests := s.requests ++ [⟨w, .looking none false⟩] }
  | .gateway i m => (s.requests[i]?).bind fun h => s.stepGateway d i h m
  | .node a m => (s.attempts[a]?).bind fun x => s.stepNode d a x m

/-! #### What a write should come to -/

/-- The request that an attempt is of. -/
def requestOf (s : System σ) (a : ℕ) : Option ℕ :=
  (s.attempts[a]?).map Attempt.request

/-- The entries that were made of a request. -/
def entriesOf (s : System σ) (r : ℕ) : List Raft.LogEntry :=
  (s.made.filter fun m => s.requestOf m.1 = some r).map Prod.snd

end System

end Gateway
end BoilerPulse
