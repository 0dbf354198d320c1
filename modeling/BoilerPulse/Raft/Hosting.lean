import BoilerPulse.Raft.Cluster
import BoilerPulse.Raft.Process

/-!
# The processes of a cluster

A step of the cluster is an event at one of its processes (`Happens`), a restart of one, or
nothing to any of them but bookkeeping. So what every `Event` preserves of a process, and `NewNode`
establishes, every step of the cluster preserves of all its processes (`Cluster.step_server`); and
an `AppendEntries` on the network is one that `sendAppendEntriesTo` has made of some node
(`Cluster.step_appendEntries`).
-/

namespace BoilerPulse
namespace Raft

variable {σ : Type}

/-- `s'` has the node and the goroutines at work of `s`; its vote counters and its pending
`sendInstallSnapshotTo` calls may be others. -/
structure SameWork (s s' : Server σ) : Prop where
  node : s'.node = s.node
  applier : s'.applier = s.applier
  installs : s'.installs = s.installs

theorem SameWork.refl (s : Server σ) : SameWork s s :=
  ⟨rfl, rfl, rfl⟩

/-- The event that an action of the cluster is to the process it acts on. -/
inductive Happens (c : Cluster σ) : Action σ → String → Event → Prop
  | elect (v : String) : Happens c (.elect v) v (.handle .campaign)
  | propose (v : String) (batch : List Bytes) :
      Happens c (.propose v batch) v (.handle (.propose batch))
  | deliverVote (k : ℕ) (call : Call) (args : RequestVoteArgs) (hk : c.calls[k]? = some call)
      (hr : call.request = .requestVote args) :
      Happens c (.deliver k) call.peer (.handle (.requestVote args))
  | deliverEntries (k : ℕ) (call : Call) (args : AppendEntriesArgs) (hk : c.calls[k]? = some call)
      (hr : call.request = .appendEntries args) :
      Happens c (.deliver k) call.peer (.handle (.appendEntries args))
  | deliverSnapshot (k : ℕ) (call : Call) (args : InstallSnapshotArgs)
      (hk : c.calls[k]? = some call) (hr : call.request = .installSnapshot args) :
      Happens c (.deliver k) call.peer (.receive k args)
  | replyVote (k j : ℕ) (call : Call) (args : RequestVoteArgs) (votes : ℕ) (r : RequestVoteReply)
      (hk : c.calls[k]? = some call) (hr : call.request = .requestVote args)
      (hj : call.replies[j]? = some (.requestVote r)) :
      Happens c (.reply k j) call.caller (.handle (.voteReply args.term votes r))
  | replyEntries (k j : ℕ) (call : Call) (args : AppendEntriesArgs) (r : AppendEntriesReply)
      (hk : c.calls[k]? = some call) (hr : call.request = .appendEntries args)
      (hj : call.replies[j]? = some (.appendEntries r)) :
      Happens c (.reply k j) call.caller (.handle (.entriesReply call.peer args r))
  | replySnapshot (k j : ℕ) (call : Call) (args : InstallSnapshotArgs) (r : InstallSnapshotReply)
      (hk : c.calls[k]? = some call) (hr : call.request = .installSnapshot args)
      (hj : call.replies[j]? = some (.installSnapshot r)) :
      Happens c (.reply k j) call.caller (.handle (.snapshotReply call.peer args r))
  | apply (v : String) : Happens c (.apply v) v .apply
  | install (v : String) (i : ℕ) : Happens c (.install v i) v (.install i)

/-- Everything a step of the cluster can do to the process `v`. -/
inductive ServerCase (M : StateMachine σ) (cfg : Config) (c : Cluster σ) (a : Action σ)
    (v : String) (s' : Server σ) : Prop
  | idle (h : SameWork (c.servers v) s')
  | event (e : Event) (s : Server σ) (ha : Happens c a v e)
      (h : (c.servers v).step M e = some s) (hs : SameWork s s')
  | restart (sm : σ) (n : Node σ) (ha : a = .restart v sm)
      (h : newNode M v (cfg.peers v) (c.node v).storage sm (cfg.opts v) = some n)
      (hs : s' = Server.start n)

variable {M : StateMachine σ} {cfg : Config} {c c' : Cluster σ} {a : Action σ}

/-- A step that edits the process `u` only. -/
theorem ServerCase.of_update {u : String} {s : Server σ}
    (hs : c'.servers = (c.setServer u s).servers) (hu : ServerCase M cfg c a u s) (v : String) :
    ServerCase M cfg c a v (c'.servers v) := by
  rw [hs]
  by_cases hv : v = u
  · subst hv
    rw [Cluster.setServer_self]
    exact hu
  · rw [c.setServer_of_ne u s hv]
    exact .idle (SameWork.refl _)

namespace Cluster

variable {call : Call}

/-- **What a step does to the processes.** -/
theorem step_server (h : c.step M cfg a = some c') (v : String) :
    ServerCase M cfg c a v (c'.servers v) := by
  cases step_cases h with
  | elect u hu hs =>
    refine .of_update rfl ?_ v
    refine .event _ { c.servers u with node := (c.node u).startElectionLocked } (.elect u) ?_
      ⟨rfl, rfl, rfl⟩
    change Option.map _ (if (c.node u).state = .leader then none else some _) = _
    rw [if_neg hs]
    rfl
  | propose u batch n hu hn =>
    refine .of_update rfl (.event _ _ (.propose u batch) ?_ (SameWork.refl _)) v
    exact Option.map_eq_some_iff.mpr ⟨n, hn, rfl⟩
  -- sending only reads the process
  | sendEntries u peer args hu hp ha => exact .idle (SameWork.refl _)
  | planSnapshot u peer term hu hp ha | noSnapshot u k peer term hu hk ha
  | sendSnapshot u k peer term args hu hk ha =>
    refine .of_update rfl ?_ v
    exact .idle ⟨rfl, rfl, rfl⟩
  | deliverVote k call args hk hr =>
    exact .of_update rfl (.event _ _ (.deliverVote k call args hk hr) rfl (SameWork.refl _)) v
  | deliverEntries k call args hk hr =>
    exact .of_update rfl (.event _ _ (.deliverEntries k call args hk hr) rfl (SameWork.refl _)) v
  -- refused or begun, it is the first section of the same handler
  | refuseSnapshot k call args s r hk hr hb | deliverSnapshot k call args s hk hr hb =>
    refine .of_update rfl (.event _ _ (.deliverSnapshot k call args hk hr) rfl ?_) v
    rw [hb]
    exact SameWork.refl s
  | replyVote k j call args r hk hw hr hj =>
    refine .of_update rfl ?_ v
    exact .event _ _ (.replyVote k j call args _ r hk hr hj) rfl ⟨rfl, rfl, rfl⟩
  | replyEntries k j call args r hk hw hr hj =>
    exact .of_update rfl
      (.event _ _ (.replyEntries k j call args r hk hr hj) rfl (SameWork.refl _)) v
  | replySnapshot k j call args r hk hw hr hj =>
    exact .of_update rfl
      (.event _ _ (.replySnapshot k j call args r hk hr hj) rfl (SameWork.refl _)) v
  | timeout k hk => exact .idle (SameWork.refl _)
  | applyQuiet u s hu hs | apply u s e hu hs =>
    refine .of_update rfl (.event _ s (.apply u) ?_ (SameWork.refl _)) v
    exact Option.map_eq_some_iff.mpr ⟨_, hs, rfl⟩
  | install u i s hu hs | installDone u i s k r hu hs =>
    refine .of_update rfl (.event _ s (.install u i) ?_ (SameWork.refl _)) v
    exact Option.map_eq_some_iff.mpr ⟨_, hs, rfl⟩
  | restart u sm n hu hn => exact .of_update rfl (.restart sm n rfl hn rfl) v

/-! ### What is on the network -/

theorem exists_request_of_mem_modify {calls : List Call} {k : ℕ} {f : Call → Call}
    (hf : ∀ x, (f x).request = x.request) (h : call ∈ calls.modify k f) :
    ∃ call₀ ∈ calls, call₀.request = call.request := by
  obtain ⟨j, hj⟩ := List.mem_iff_getElem?.mp h
  rw [List.getElem?_modify] at hj
  obtain ⟨x, hx, heq⟩ := Option.map_eq_some_iff.mp hj
  refine ⟨x, List.mem_of_getElem? hx, ?_⟩
  rw [← heq]
  split
  · exact (hf x).symm
  · rfl

/-- **Where an `AppendEntries` comes from**: it is on the network already, or a node of the cluster
has just made it. -/
theorem step_appendEntries_mem (h : c.step M cfg a = some c') {args : AppendEntriesArgs}
    (hcall : call ∈ c'.calls) (hr : call.request = .appendEntries args) :
    (∃ call₀ ∈ c.calls, call₀.request = .appendEntries args) ∨ ∃ v ∈ cfg.ids, ∃ peer,
        (c.node v).sendAppendEntriesTo peer = some (.appendEntries args) := by
  rw [← hr]
  cases step_cases h with
  | elect u hu hs =>
    rcases List.mem_append.mp hcall with hold | hnew
    · exact .inl ⟨call, hold, rfl⟩
    · obtain ⟨p, -, rfl⟩ := List.mem_map.mp hnew
      cases hr
  | sendEntries u peer args' hu hp ha =>
    rcases List.mem_append.mp hcall with hold | hnew
    · exact .inl ⟨call, hold, rfl⟩
    · rw [List.mem_singleton.mp hnew] at hr
      obtain rfl := Request.appendEntries.inj hr
      exact .inr ⟨u, hu, peer, ha⟩
  | sendSnapshot u k peer term args' hu hk ha =>
    rcases List.mem_append.mp hcall with hold | hnew
    · exact .inl ⟨call, hold, rfl⟩
    · rw [List.mem_singleton.mp hnew] at hr
      cases hr
  -- replies and timeouts change a call, but not its request
  | deliverVote | deliverEntries | refuseSnapshot | replyVote | replyEntries | replySnapshot
  | timeout | installDone =>
    refine .inl (exists_request_of_mem_modify ?_ hcall)
    exact fun _ => rfl
  | restart u sm n hu hn =>
    obtain ⟨call₀, h₀, rfl⟩ := List.mem_map.mp hcall
    exact .inl ⟨call₀, h₀, by split <;> rfl⟩
  | propose | planSnapshot | noSnapshot | deliverSnapshot | applyQuiet | apply | install =>
    exact .inl ⟨call, hcall, rfl⟩

theorem step_appendEntries (h : c.step M cfg a = some c') {args : AppendEntriesArgs}
    (hcall : call ∈ c'.calls) (hr : call.request = .appendEntries args) :
    (∃ call₀ ∈ c.calls, call₀.request = .appendEntries args) ∨
      ∃ v peer, (c.node v).sendAppendEntriesTo peer = some (.appendEntries args) := by
  rcases step_appendEntries_mem h hcall hr with hold | ⟨v, -, hnew⟩
  · exact Or.inl hold
  · exact Or.inr ⟨v, hnew⟩

end Cluster

end Raft
end BoilerPulse
