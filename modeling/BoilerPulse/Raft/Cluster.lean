import BoilerPulse.Framework.Runs
import BoilerPulse.Raft.Server
import Mathlib.Tactic.Common

/-!
# Raft: the cluster

The processes of a cluster and the remote calls between them. A call, once made,
stays in `Cluster.calls` for good: the network may run its request at the peer at
any later time and any number of times (`Action.deliver`), each run adding a reply,
and may lose it by never delivering it. What it cannot do is hand two replies to
one goroutine: the caller takes at most one reply of a call (`Action.reply`), or
gives up on it (`Action.timeout`), and a crash of the caller gives up on all of its
calls.

An action is one atomic step of one process. Timers are not modelled: an election
may start whenever `tick` would allow one, that is at any node that is not the
leader.
-/

namespace BoilerPulse
namespace Raft

inductive Request where
  | requestVote (args : RequestVoteArgs)
  | appendEntries (args : AppendEntriesArgs)
  | installSnapshot (args : InstallSnapshotArgs)
  deriving DecidableEq

/-- The arguments, if this is an `AppendEntries`. -/
def Request.appendEntries? : Request → Option AppendEntriesArgs
  | .appendEntries args => some args
  | _ => none

inductive Reply where
  | requestVote (reply : RequestVoteReply)
  | appendEntries (reply : AppendEntriesReply)
  | installSnapshot (reply : InstallSnapshotReply)
  deriving DecidableEq

/-- A remote call: the request, the replies its runs at the peer have produced, and
whether the goroutine that made it still waits. -/
structure Call where
  caller : String
  peer : String
  request : Request
  replies : List Reply
  waiting : Bool
  deriving DecidableEq

/-- A call that has just been made. -/
def Call.new (caller peer : String) (request : Request) : Call where
  caller := caller
  peer := peer
  request := request
  replies := []
  waiting := true

/-- A fixed and consistent cluster configuration without duplicates: every node lists
exactly the other nodes. -/
structure Config where
  ids : List String
  peers : String → List String
  opts : String → Options
  ids_nodup : ids.Nodup
  peers_nodup : ∀ v ∈ ids, (peers v).Nodup
  mem_peers : ∀ v ∈ ids, ∀ p, p ∈ peers v ↔ p ∈ ids ∧ p ≠ v

/-- The configuration in which every node lists the others in the order of `ids`. -/
def Config.ofIds (ids : List String) (opts : Options) (h : ids.Nodup) : Config where
  ids := ids
  peers v := ids.filter (· ≠ v)
  opts _ := opts
  ids_nodup := h
  peers_nodup := fun _ _ => h.filter _
  mem_peers := fun _ _ _ => by simp

structure Cluster (σ : Type) where
  servers : String → Server σ
  calls : List Call
  /-- Every `StateMachine.Apply` call made so far: node, log index and command. No
  node reads it. -/
  applied : List (String × ℕ × Bytes)

namespace Cluster

variable {σ : Type}

/-- The node running under the name `v`. -/
abbrev node (c : Cluster σ) (v : String) : Node σ :=
  (c.servers v).node

def setServer (c : Cluster σ) (v : String) (s : Server σ) : Cluster σ :=
  { c with servers := Function.update c.servers v s }

def setNode (c : Cluster σ) (v : String) (n : Node σ) : Cluster σ :=
  c.setServer v { c.servers v with node := n }

def addCalls (c : Cluster σ) (calls : List Call) : Cluster σ :=
  { c with calls := c.calls ++ calls }

/-- Record a reply to the `k`-th call. -/
def addReply (c : Cluster σ) (k : ℕ) (r : Reply) : Cluster σ :=
  { c with calls := c.calls.modify k fun call => { call with replies := call.replies ++ [r] } }

/-- The goroutine of the `k`-th call ends. -/
def closeCall (c : Cluster σ) (k : ℕ) : Cluster σ :=
  { c with calls := c.calls.modify k fun call => { call with waiting := false } }

/-- Every node has called `NewNode` on an empty storage. -/
def initial (cfg : Config) (sm : String → σ) : Cluster σ where
  servers v := Server.start
    { id := v, peers := cfg.peers v, storage := Storage.empty, stateMachine := sm v
      opts := cfg.opts v
      currentTerm := 0, votedFor := "", log := []
      logBaseIndex := 0, logBaseTerm := 0
      state := .follower
      commitIndex := 0, lastApplied := 0
      leaderID := "", nextIndex := fun _ => 0, matchIndex := fun _ => 0 }
  calls := []
  applied := []

section Edits

variable (c : Cluster σ) (v : String) (s : Server σ) (n : Node σ) (k : ℕ) (r : Reply)

@[simp] theorem addCalls_servers (new : List Call) : (c.addCalls new).servers = c.servers := rfl
@[simp] theorem addReply_servers : (c.addReply k r).servers = c.servers := rfl
@[simp] theorem closeCall_servers : (c.closeCall k).servers = c.servers := rfl

@[simp] theorem setServer_self : (c.setServer v s).servers v = s :=
  Function.update_self ..

@[simp] theorem setNode_self : (c.setNode v n).servers v = { c.servers v with node := n } :=
  Function.update_self ..

theorem setServer_of_ne {u : String} (h : u ≠ v) : (c.setServer v s).servers u = c.servers u :=
  Function.update_of_ne h ..

variable {c v s}

/-- After a step of `v` alone a property of all processes is checked at `v`, and framed at the
others. -/
theorem forall_servers {c' : Cluster σ} {ids : List String} {P : String → Server σ → Prop}
    (hs : c'.servers = Function.update c.servers v s) (hv : v ∈ ids → P v s)
    (hu : ∀ u ∈ ids, u ≠ v → P u (c.servers u)) : ∀ u ∈ ids, P u (c'.servers u) := by
  intro u hmem
  rw [hs]
  by_cases huv : u = v
  · subst huv
    rw [Function.update_self]
    exact hv hmem
  · rw [Function.update_of_ne huv]
    exact hu u hmem huv

end Edits

end Cluster

/-- The initial nodes are what `NewNode` makes of an empty storage. -/
theorem Cluster.initial_newNode {σ : Type} (M : StateMachine σ) (cfg : Config)
    (sm : String → σ) (v : String) :
    newNode M v (cfg.peers v) Storage.empty (sm v) (cfg.opts v) =
      some ((Cluster.initial cfg sm).node v) := rfl

/-- The atomic steps of a cluster. -/
inductive Action (σ : Type) where
  /-- The election timer of `v` fires: `startElectionLocked`. -/
  | elect (v : String)
  /-- `appendLoop` of `v` passes a batch to `appendBatch`. -/
  | propose (v : String) (batch : List Bytes)
  /-- The `replicationLoop` of `v` for `peer` runs `sendAppendEntriesTo` up to its call. -/
  | send (v peer : String)
  /-- The `k`-th pending `sendInstallSnapshotTo` of `v` loads the snapshot and calls. -/
  | sendSnapshot (v : String) (k : ℕ)
  /-- The network runs the request of the `k`-th call at its peer. -/
  | deliver (k : ℕ)
  /-- The caller of the `k`-th call receives the `j`-th reply to it. -/
  | reply (k j : ℕ)
  /-- The `k`-th call ends with an error. -/
  | timeout (k : ℕ)
  /-- `applyLoop` of `v` takes its next step. -/
  | apply (v : String)
  /-- The `i`-th `HandleInstallSnapshot` in progress at `v` takes its next step. -/
  | install (v : String) (i : ℕ)
  /-- `v` crashes and restarts from its storage, with a state machine in state `sm`. -/
  | restart (v : String) (sm : σ)

namespace Cluster

variable {σ : Type} (M : StateMachine σ) (cfg : Config) (c : Cluster σ)

def elect (v : String) : Option (Cluster σ) :=
  let s := c.servers v
  if v ∉ cfg.ids ∨ s.node.state = .leader then none
  else
    let n := s.node.startElectionLocked
    let s := { s with node := n, votes := Function.update s.votes n.currentTerm 1 }
    some ((c.setServer v s).addCalls
      (n.peers.map fun p => Call.new v p (.requestVote n.requestVoteArgs)))

def propose (v : String) (batch : List Bytes) : Option (Cluster σ) :=
  if v ∉ cfg.ids ∨ batch = [] ∨ Node.maxAppendBatchSize < batch.length then none
  else ((c.node v).appendBatch batch).map (c.setNode v)

def send (v peer : String) : Option (Cluster σ) :=
  let s := c.servers v
  if v ∉ cfg.ids ∨ peer ∉ s.node.peers then none
  else
    match s.node.sendAppendEntriesTo peer with
    | none => none
    | some (.appendEntries args) => some (c.addCalls [Call.new v peer (.appendEntries args)])
    | some (.installSnapshot term) =>
      some (c.setServer v { s with snapshotSends := s.snapshotSends ++ [(peer, term)] })

def sendSnapshot (v : String) (k : ℕ) : Option (Cluster σ) :=
  let s := c.servers v
  if v ∉ cfg.ids then none
  else
    match s.snapshotSends[k]? with
    | none => none
    | some (peer, term) =>
      let c := c.setServer v { s with snapshotSends := s.snapshotSends.eraseIdx k }
      match s.node.installSnapshotArgs term with
      | none => some c
      | some args => some (c.addCalls [Call.new v peer (.installSnapshot args)])

def deliver (k : ℕ) : Option (Cluster σ) :=
  match c.calls[k]? with
  | none => none
  | some call =>
    let s := c.servers call.peer
    match call.request with
    | .requestVote args =>
      let (n, r) := s.node.handleRequestVote args
      some ((c.setNode call.peer n).addReply k (.requestVote r))
    | .appendEntries args =>
      let (n, r) := s.node.handleAppendEntries args
      some ((c.setNode call.peer n).addReply k (.appendEntries r))
    | .installSnapshot args =>
      match s.installBegin k args with
      | (s, none) => some (c.setServer call.peer s)
      | (s, some r) => some ((c.setServer call.peer s).addReply k (.installSnapshot r))

/-- The caller's goroutine takes a reply; the two `Send`s return errors on a reply of
another kind, which the transport cannot produce. -/
def reply (k j : ℕ) : Option (Cluster σ) :=
  match c.calls[k]? with
  | none => none
  | some call =>
    let s := c.servers call.caller
    if call.waiting = false then none
    else
      match call.request, call.replies[j]? with
      | .requestVote args, some (.requestVote r) =>
        let (n, votes) := s.node.handleRequestVoteReply args.term (s.votes args.term) r
        some ((c.setServer call.caller
          { s with node := n, votes := Function.update s.votes args.term votes }).closeCall k)
      | .appendEntries args, some (.appendEntries r) =>
        some ((c.setNode call.caller (s.node.handleAppendEntriesReply call.peer args r)).closeCall k)
      | .installSnapshot args, some (.installSnapshot r) =>
        some ((c.setNode call.caller
          (s.node.handleInstallSnapshotReply call.peer args r)).closeCall k)
      | _, _ => none

def timeout (k : ℕ) : Option (Cluster σ) :=
  if k < c.calls.length then some (c.closeCall k) else none

def apply (v : String) : Option (Cluster σ) :=
  if v ∉ cfg.ids then none
  else
    match (c.servers v).applyStep M with
    | none => none
    | some (s, none) => some (c.setServer v s)
    | some (s, some e) =>
      some { c.setServer v s with applied := c.applied ++ [(v, e.index, e.command)] }

def install (v : String) (i : ℕ) : Option (Cluster σ) :=
  if v ∉ cfg.ids then none
  else
    match (c.servers v).installStep M i with
    | none => none
    | some (s, none) => some (c.setServer v s)
    | some (s, some (k, r)) => some ((c.setServer v s).addReply k (.installSnapshot r))

/-- The process dies with all its goroutines; a new one reloads the storage. -/
def restart (v : String) (sm : σ) : Option (Cluster σ) :=
  if v ∉ cfg.ids then none
  else
    (newNode M v (cfg.peers v) (c.node v).storage sm (cfg.opts v)).map fun n =>
      { c.setServer v (Server.start n) with
        calls := c.calls.map fun call =>
          if call.caller = v then { call with waiting := false } else call }

/-- One step of the cluster; `none` when the action is not enabled. -/
def step : Action σ → Option (Cluster σ)
  | .elect v => c.elect cfg v
  | .propose v batch => c.propose cfg v batch
  | .send v peer => c.send cfg v peer
  | .sendSnapshot v k => c.sendSnapshot cfg v k
  | .deliver k => c.deliver k
  | .reply k j => c.reply k j
  | .timeout k => c.timeout k
  | .apply v => c.apply M cfg v
  | .install v i => c.install M cfg v i
  | .restart v sm => c.restart M cfg v sm

/-- The cluster after `v` has started an election. -/
def campaign (v : String) : Cluster σ :=
  let n := (c.node v).startElectionLocked
  (c.setServer v { c.servers v with
      node := n
      votes := Function.update (c.servers v).votes n.currentTerm 1 }).addCalls
    (n.peers.map fun p => Call.new v p (.requestVote n.requestVoteArgs))

/-- **Inversion of a step**: everything a step can do, with its guards. -/
inductive StepCase : Action σ → Cluster σ → Prop
  | elect (v : String) (hv : v ∈ cfg.ids) (hs : (c.node v).state ≠ .leader) :
      StepCase (.elect v) (c.campaign v)
  | propose (v : String) (batch : List Bytes) (n : Node σ) (hv : v ∈ cfg.ids)
      (h : (c.node v).appendBatch batch = some n) : StepCase (.propose v batch) (c.setNode v n)
  | sendEntries (v peer : String) (args : AppendEntriesArgs) (hv : v ∈ cfg.ids)
      (hp : peer ∈ (c.node v).peers)
      (h : (c.node v).sendAppendEntriesTo peer = some (.appendEntries args)) :
      StepCase (.send v peer) (c.addCalls [Call.new v peer (.appendEntries args)])
  | planSnapshot (v peer : String) (term : ℕ) (hv : v ∈ cfg.ids) (hp : peer ∈ (c.node v).peers)
      (h : (c.node v).sendAppendEntriesTo peer = some (.installSnapshot term)) :
      StepCase (.send v peer) (c.setServer v { c.servers v with
          snapshotSends := (c.servers v).snapshotSends ++ [(peer, term)] })
  | noSnapshot (v : String) (k : ℕ) (peer : String) (term : ℕ) (hv : v ∈ cfg.ids)
      (hk : (c.servers v).snapshotSends[k]? = some (peer, term))
      (h : (c.node v).installSnapshotArgs term = none) :
      StepCase (.sendSnapshot v k) (c.setServer v { c.servers v with
          snapshotSends := (c.servers v).snapshotSends.eraseIdx k })
  | sendSnapshot (v : String) (k : ℕ) (peer : String) (term : ℕ) (args : InstallSnapshotArgs)
      (hv : v ∈ cfg.ids) (hk : (c.servers v).snapshotSends[k]? = some (peer, term))
      (h : (c.node v).installSnapshotArgs term = some args) :
      StepCase (.sendSnapshot v k) ((c.setServer v { c.servers v with
          snapshotSends := (c.servers v).snapshotSends.eraseIdx k }).addCalls
          [Call.new v peer (.installSnapshot args)])
  | deliverVote (k : ℕ) (call : Call) (args : RequestVoteArgs) (hk : c.calls[k]? = some call)
      (hr : call.request = .requestVote args) :
      StepCase (.deliver k)
        ((c.setNode call.peer ((c.node call.peer).handleRequestVote args).1).addReply k
          (.requestVote ((c.node call.peer).handleRequestVote args).2))
  | deliverEntries (k : ℕ) (call : Call) (args : AppendEntriesArgs)
      (hk : c.calls[k]? = some call) (hr : call.request = .appendEntries args) :
      StepCase (.deliver k)
        ((c.setNode call.peer ((c.node call.peer).handleAppendEntries args).1).addReply k
          (.appendEntries ((c.node call.peer).handleAppendEntries args).2))
  | refuseSnapshot (k : ℕ) (call : Call) (args : InstallSnapshotArgs) (s : Server σ)
      (r : InstallSnapshotReply) (hk : c.calls[k]? = some call)
      (hr : call.request = .installSnapshot args)
      (h : (c.servers call.peer).installBegin k args = (s, some r)) :
      StepCase (.deliver k) ((c.setServer call.peer s).addReply k (.installSnapshot r))
  | deliverSnapshot (k : ℕ) (call : Call) (args : InstallSnapshotArgs) (s : Server σ)
      (hk : c.calls[k]? = some call) (hr : call.request = .installSnapshot args)
      (h : (c.servers call.peer).installBegin k args = (s, none)) :
      StepCase (.deliver k) (c.setServer call.peer s)
  | replyVote (k j : ℕ) (call : Call) (args : RequestVoteArgs) (r : RequestVoteReply)
      (hk : c.calls[k]? = some call) (hw : call.waiting = true)
      (hr : call.request = .requestVote args) (hj : call.replies[j]? = some (.requestVote r)) :
      StepCase (.reply k j) ((c.setServer call.caller { c.servers call.caller with
            node := ((c.node call.caller).handleRequestVoteReply args.term
              ((c.servers call.caller).votes args.term) r).1
            votes := Function.update (c.servers call.caller).votes args.term
              ((c.node call.caller).handleRequestVoteReply args.term
                ((c.servers call.caller).votes args.term) r).2 }).closeCall k)
  | replyEntries (k j : ℕ) (call : Call) (args : AppendEntriesArgs) (r : AppendEntriesReply)
      (hk : c.calls[k]? = some call) (hw : call.waiting = true)
      (hr : call.request = .appendEntries args)
      (hj : call.replies[j]? = some (.appendEntries r)) :
      StepCase (.reply k j) ((c.setNode call.caller
          ((c.node call.caller).handleAppendEntriesReply call.peer args r)).closeCall k)
  | replySnapshot (k j : ℕ) (call : Call) (args : InstallSnapshotArgs) (r : InstallSnapshotReply)
      (hk : c.calls[k]? = some call) (hw : call.waiting = true)
      (hr : call.request = .installSnapshot args)
      (hj : call.replies[j]? = some (.installSnapshot r)) :
      StepCase (.reply k j) ((c.setNode call.caller
          ((c.node call.caller).handleInstallSnapshotReply call.peer args r)).closeCall k)
  | timeout (k : ℕ) (hk : k < c.calls.length) : StepCase (.timeout k) (c.closeCall k)
  | applyQuiet (v : String) (s : Server σ) (hv : v ∈ cfg.ids)
      (h : (c.servers v).applyStep M = some (s, none)) : StepCase (.apply v) (c.setServer v s)
  | apply (v : String) (s : Server σ) (e : LogEntry) (hv : v ∈ cfg.ids)
      (h : (c.servers v).applyStep M = some (s, some e)) :
      StepCase (.apply v) { c.setServer v s with applied := c.applied ++ [(v, e.index, e.command)] }
  | install (v : String) (i : ℕ) (s : Server σ) (hv : v ∈ cfg.ids)
      (h : (c.servers v).installStep M i = some (s, none)) :
      StepCase (.install v i) (c.setServer v s)
  | installDone (v : String) (i : ℕ) (s : Server σ) (k : ℕ) (r : InstallSnapshotReply)
      (hv : v ∈ cfg.ids) (h : (c.servers v).installStep M i = some (s, some (k, r))) :
      StepCase (.install v i) ((c.setServer v s).addReply k (.installSnapshot r))
  | restart (v : String) (sm : σ) (n : Node σ) (hv : v ∈ cfg.ids)
      (h : newNode M v (cfg.peers v) (c.node v).storage sm (cfg.opts v) = some n) :
      StepCase (.restart v sm) { c.setServer v (Server.start n) with
          calls := c.calls.map fun call =>
            if call.caller = v then { call with waiting := false } else call }

variable {M cfg c}

theorem step_cases {a : Action σ} {c' : Cluster σ} (h : c.step M cfg a = some c') :
    StepCase M cfg c a c' := by
  cases a with
  -- one unfolding for each action; the guards come along as hypotheses
  | elect v =>
    simp only [step, elect] at h
    split at h
    · cases h
    · next hg =>
      push Not at hg
      cases h
      exact .elect v hg.1 hg.2
  | propose v batch =>
    simp only [step, propose] at h
    split at h
    · cases h
    · next hg =>
      push Not at hg
      obtain ⟨n, hn, rfl⟩ := Option.map_eq_some_iff.mp h
      exact .propose v batch n hg.1 hn
  | send v peer =>
    simp only [step, send] at h
    split at h
    · cases h
    · next hg =>
      push Not at hg
      split at h
      · cases h
      · next args ha => cases h; exact .sendEntries v peer args hg.1 hg.2 ha
      · next term ha =>
        cases h; exact .planSnapshot v peer term hg.1 hg.2 ha
  | sendSnapshot v k =>
    simp only [step, sendSnapshot] at h
    split at h
    · cases h
    · next hg =>
      push Not at hg
      split at h
      · cases h
      · next peer term hk =>
        split at h
        · next ha => cases h; exact .noSnapshot v k peer term hg hk ha
        · next args ha =>
          cases h
          exact .sendSnapshot v k peer term args hg hk ha
  | deliver k =>
    simp only [step, deliver] at h
    split at h
    · cases h
    · next call hk =>
      split at h
      · next args hr => cases h; exact .deliverVote k call args hk hr
      · next args hr => cases h; exact .deliverEntries k call args hk hr
      · next args hr =>
        split at h
        · next s hs =>
          cases h; exact .deliverSnapshot k call args s hk hr hs
        · next s r hs =>
          cases h
          exact .refuseSnapshot k call args s r hk hr hs
  | reply k j =>
    simp only [step, reply] at h
    split at h
    · cases h
    · next call hk =>
      split at h
      · cases h
      · next hw =>
        rw [Bool.not_eq_false] at hw
        split at h
        · next args r hr hj =>
          cases h; exact .replyVote k j call args r hk hw hr hj
        · next args r hr hj =>
          cases h
          exact .replyEntries k j call args r hk hw hr hj
        · next args r hr hj =>
          cases h
          exact .replySnapshot k j call args r hk hw hr hj
        · cases h
  | timeout k =>
    simp only [step, timeout] at h
    split at h
    · next hk => cases h; exact .timeout k hk
    · cases h
  | apply v =>
    simp only [step, apply] at h
    split at h
    · cases h
    · next hg =>
      push Not at hg
      split at h
      · cases h
      · next s hs => cases h; exact .applyQuiet v s hg hs
      · next s e hs => cases h; exact .apply v s e hg hs
  | install v i =>
    simp only [step, install] at h
    split at h
    · cases h
    · next hg =>
      push Not at hg
      split at h
      · cases h
      · next s hs => cases h; exact .install v i s hg hs
      · next s k r hs => cases h; exact .installDone v i s k r hg hs
  | restart v sm =>
    simp only [step, restart] at h
    split at h
    · cases h
    · next hg =>
      push Not at hg
      obtain ⟨n, hn, rfl⟩ := Option.map_eq_some_iff.mp h
      exact .restart v sm n hg hn

end Cluster

/-! ### Small clusters to evaluate -/

/-- A state machine that keeps all it was given, and is its own snapshot. -/
def journal : StateMachine Bytes where
  apply s command := s ++ command
  snapshot s := some s
  restore _ data := some data

/-- Three nodes that take no snapshots. -/
def trio : Config :=
  Config.ofIds ["a", "b", "c"] ⟨0⟩ (by decide)

/-- Three nodes, one of which has the empty string for its id. -/
def trioUnnamed : Config :=
  Config.ofIds ["", "b", "c"] ⟨0⟩ (by decide)

end Raft
end BoilerPulse
