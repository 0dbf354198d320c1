import BoilerPulse.Gateway.Attempts
import BoilerPulse.Raft.ElectionSafety

/-!
# Gateway: finding the leader

`refresh` (`internal/gateway/leader.go`) asks one node after the other who it is, and takes the last
of those that call themselves the leader in the highest term. Meanwhile the cluster goes on: a node
may win an election after it was asked, and one that was deposed may still call itself the leader.

Since a term has one leader for all time, whatever the answers and in whatever order the nodes are
configured, there is one node to be found: no two of them call themselves the leader of that term
(`refresh_finds_leader`). A poll is what `Refresh.poll` says of it (`poll_eq_considerPoll`).
-/

namespace BoilerPulse
namespace Gateway

open Framework Raft

/-! ### What a node says (`cluster_handlers.go`) -/

/-- `State.String`. -/
def roleText : Raft.State → String
  | .follower => "FOLLOWER"
  | .candidate => "CANDIDATE"
  | .leader => "LEADER"

structure ClusterNode where
  id : String
  role : String
  status : String

structure ClusterResponse where
  mode : String
  term : ℕ
  nodes : List ClusterNode

variable {σ : Type}

/-- `handleCluster`; a server on its own has no `proposer`. -/
def handleCluster (nodeID : String) : Option (Raft.Node σ) → ClusterResponse
  | none => ⟨"SINGLE_NODE", 0, [⟨nodeID, "LEADER", "HEALTHY"⟩]⟩
  | some n => ⟨"RAFT", n.currentTerm, ⟨nodeID, roleText n.state, "HEALTHY"⟩ ::
    if n.leaderID ≠ "" ∧ n.leaderID ≠ nodeID then [⟨n.leaderID, "LEADER", "UNKNOWN"⟩] else []⟩

/-! ### The gateway (`leader.go`) -/

structure GatewayNode where
  id : String
  addr : String

structure NodeStatus where
  reachable : Bool
  role : String
  term : ℕ
  deriving DecidableEq

/-- `pollNode`. No answer is any of its errors. -/
def pollNode (n : GatewayNode) : Option ClusterResponse → NodeStatus × Bool
  | none => (⟨false, "", 0⟩, false)
  | some resp =>
    match resp.nodes.find? fun node => node.id = n.id with
    | some node => (⟨true, node.role, resp.term⟩, true)
    | none => (⟨true, "", 0⟩, true)

/-- The view of a gateway. -/
structure View where
  leaderID : String
  leaderAddr : String
  nodeStatus : List (String × NodeStatus)

/-- A node, and what came back from it. -/
abbrev Poll := GatewayNode × Option ClusterResponse

/-- The body of the loop of `refresh`, on `bestTerm` and `bestLeaderID`. -/
def considerPoll (best : ℕ × String) (p : Poll) : ℕ × String :=
  let (status, ok) := pollNode p.1 p.2
  if ok ∧ status.role = "LEADER" ∧ best.1 ≤ status.term then (status.term, p.1.id) else best

def searchLeader (polls : List Poll) : ℕ × String :=
  polls.foldl considerPoll (0, "")

def addrFor (nodes : List GatewayNode) (id : String) : String :=
  ((nodes.find? fun n => n.id = id).map GatewayNode.addr).getD ""

def View.refresh (g : View) (polls : List Poll) : View :=
  let best := (searchLeader polls).2
  { leaderID := if best ≠ "" then best else g.leaderID
    leaderAddr := if best ≠ "" then addrFor (polls.map Prod.fst) best else g.leaderAddr
    nodeStatus := polls.map fun p => (p.1.id, (pollNode p.1 p.2).1) }

/-- The node was reached, and called itself the leader of the term. -/
def Poll.Claims (p : Poll) (term : ℕ) : Prop :=
  pollNode p.1 p.2 = (⟨true, "LEADER", term⟩, true)

/-- **What the loop finds**: no leader if none was claimed, and otherwise one that was claimed for
the highest term. -/
structure Highest (polls : List Poll) (best : ℕ × String) : Prop where
  found : best = (0, "") ∨ ∃ p ∈ polls, p.Claims best.1 ∧ p.1.id = best.2
  highest : ∀ p ∈ polls, ∀ t, p.Claims t → t ≤ best.1 ∧ best.2 ≠ ""

theorem Poll.claims_iff {p : Poll} {t : ℕ} : p.Claims t ↔ (pollNode p.1 p.2).2 = true ∧
    (pollNode p.1 p.2).1.role = "LEADER" ∧ (pollNode p.1 p.2).1.term = t := by
  unfold Poll.Claims pollNode
  split
  · simp
  · split <;> simp

/-- The loop takes a claim of a term that is not lower, and nothing else. -/
theorem considerPoll_cases (best : ℕ × String) (p : Poll) :
    (∃ t, p.Claims t ∧ best.1 ≤ t ∧ considerPoll best p = (t, p.1.id)) ∨
      (considerPoll best p = best ∧ ∀ t, p.Claims t → t < best.1) := by
  unfold considerPoll
  dsimp only
  split
  · next h => exact .inl ⟨_, Poll.claims_iff.mpr ⟨h.1, h.2.1, rfl⟩, h.2.2, rfl⟩
  · next h =>
    refine .inr ⟨rfl, fun t ht => ?_⟩
    obtain ⟨hok, hrole, rfl⟩ := Poll.claims_iff.mp ht
    exact not_le.mp fun hle => h ⟨hok, hrole, hle⟩

theorem highest_searchLeader {polls : List Poll} (hnamed : ∀ p ∈ polls, p.1.id ≠ "") :
    Highest polls (searchLeader polls) := by
  induction polls using List.reverseRecOn with
  | nil => exact ⟨.inl rfl, nofun⟩
  | append_singleton polls p ih =>
    have h := ih fun q hq => hnamed q (List.mem_append_left _ hq)
    have hp := hnamed p List.mem_concat_self
    rw [searchLeader, List.foldl_concat, ← searchLeader]
    rcases considerPoll_cases (searchLeader polls) p with ⟨t, ht, hle, heq⟩ | ⟨heq, hlt⟩
    · rw [heq]
      refine ⟨.inr ⟨p, List.mem_concat_self, ht, rfl⟩, fun q hq u hu => ⟨?_, hp⟩⟩
      rcases List.mem_append.mp hq with hq | hq
      · exact (h.highest q hq u hu).1.trans hle
      · rw [List.mem_singleton.mp hq] at hu
        have hterm := (Poll.claims_iff.mp hu).2.2.symm.trans (Poll.claims_iff.mp ht).2.2
        exact hterm.le
    · rw [heq]
      refine ⟨h.found.imp_right fun ⟨q, hq, hq'⟩ => ⟨q, List.mem_append_left _ hq, hq'⟩,
        fun q hq u hu => ?_⟩
      rcases List.mem_append.mp hq with hq | hq
      · exact h.highest q hq u hu
      · rw [List.mem_singleton.mp hq] at hu
        have hlt := hlt u hu
        refine ⟨hlt.le, fun hnone => ?_⟩
        -- a term above 0 was claimed by somebody with a name
        rcases h.found with h0 | ⟨q, hq, -, hid⟩
        · rw [h0] at hlt
          exact Nat.not_lt_zero _ hlt
        · exact hnamed q (List.mem_append_left _ hq) (hid.trans hnone)

/-- If a term is not claimed by two nodes, there is only one that can be found. -/
theorem Highest.unique {polls : List Poll} {b b' : ℕ × String} (h : Highest polls b)
    (h' : Highest polls b')
    (hone : ∀ p ∈ polls, ∀ q ∈ polls, ∀ t, p.Claims t → q.Claims t → p.1.id = q.1.id) :
    b = b' := by
  rcases h.found with rfl | ⟨p, hp, hclaim, hid⟩
  · rcases h'.found with rfl | ⟨q, hq, hclaim, -⟩
    · rfl
    · exact absurd rfl (h.highest q hq _ hclaim).2
  · rcases h'.found with rfl | ⟨q, hq, hclaim', hid'⟩
    · exact absurd rfl (h'.highest p hp _ hclaim).2
    · have hterm : b.1 = b'.1 :=
        le_antisymm (h'.highest p hp _ hclaim).1 (h.highest q hq _ hclaim').1
      rw [← hterm] at hclaim'
      exact Prod.ext hterm (hid.symm.trans ((hone p hp q hq _ hclaim hclaim').trans hid'))

/-! ### The cluster meanwhile -/

/-- The polls of a `refresh`, from `c` to `c'`: each node answers as it stands when it is asked, if
it answers at all. -/
inductive Polled (M : StateMachine σ) (cfg : Config) : Cluster σ → List Poll → Cluster σ → Prop
  | done {c c'} (h : Reaches (Cluster.step M cfg) c c') : Polled M cfg c [] c'
  | poll {c c₁ c'} {n : GatewayNode} {answer : Option ClusterResponse} {polls : List Poll}
      (h : Reaches (Cluster.step M cfg) c c₁) (hn : n.id ∈ cfg.ids)
      (hanswer : ∀ resp ∈ answer, resp = handleCluster n.id (some (c₁.node n.id)))
      (hrest : Polled M cfg c₁ polls c') : Polled M cfg c ((n, answer) :: polls) c'

theorem roleText_eq_leader_iff {s : Raft.State} : roleText s = "LEADER" ↔ s = .leader := by
  cases s <;> simp [roleText]

theorem pollNode_handleCluster (n : GatewayNode) (node : Raft.Node σ) :
    pollNode n (some (handleCluster n.id (some node))) =
      (⟨true, roleText node.state, node.currentTerm⟩, true) := by
  simp [pollNode, handleCluster]

/-- A poll as it is in `Attempts`, where the answer is not spelled out. -/
theorem poll_eq_considerPoll {r : Refresh} {n : GatewayNode} {rest : List String}
    (hr : r.rest = n.id :: rest) (c : Cluster σ) (answers : Bool) :
    let answer := if answers then some (handleCluster n.id (some (c.node n.id))) else none
    let best := considerPoll (r.bestTerm, r.bestLeaderID) (n, answer)
    r.poll c answers = some ⟨rest, best.1, best.2⟩ := by
  unfold Refresh.poll
  rw [hr]
  cases answers with
  | false => simp [considerPoll, pollNode]
  | true =>
    simp only [considerPoll, pollNode_handleCluster, roleText_eq_leader_iff, if_true, true_and]
    split <;> rfl

/-- A node that claims a term leads it. -/
theorem leads_of_claims {n : GatewayNode} {node : Raft.Node σ} {answer : Option ClusterResponse}
    (hanswer : ∀ resp ∈ answer, resp = handleCluster n.id (some node)) {t : ℕ}
    (h : Poll.Claims (n, answer) t) : node.state = .leader ∧ node.currentTerm = t := by
  cases answer with
  | none => cases h
  | some resp =>
    obtain rfl := hanswer resp rfl
    obtain ⟨-, hrole, hterm⟩ := Poll.claims_iff.mp h
    rw [pollNode_handleCluster] at hrole hterm
    exact ⟨roleText_eq_leader_iff.mp hrole, hterm⟩

namespace Polled

variable {M : StateMachine σ} {cfg : Config} {c c' : Cluster σ} {polls : List Poll}

theorem mem_ids (h : Polled M cfg c polls c') : ∀ p ∈ polls, p.1.id ∈ cfg.ids := by
  induction h with
  | done _ => exact nofun
  | poll _ hn _ _ ih => exact List.forall_mem_cons.mpr ⟨hn, ih⟩

theorem reaches (h : Polled M cfg c polls c') : Reaches (Cluster.step M cfg) c c' := by
  induction h with
  | done h => exact h
  | poll h _ _ _ ih => exact h.trans ih

/-- Who claims a term has led it, while the polls were made. -/
theorem led (h : Polled M cfg c polls c') : ∀ p ∈ polls, ∀ t, p.Claims t →
    ∃ c₁, Reaches (Cluster.step M cfg) c c₁ ∧ Reaches (Cluster.step M cfg) c₁ c' ∧
      (c₁.node p.1.id).state = .leader ∧ (c₁.node p.1.id).currentTerm = t := by
  induction h with
  | done _ => exact nofun
  | poll h hn hanswer hrest ih =>
    refine List.forall_mem_cons.mpr ⟨fun t ht => ?_, fun p hp t ht => ?_⟩
    · exact ⟨_, h, hrest.reaches, leads_of_claims hanswer ht⟩
    · obtain ⟨c₂, h₁, h₂, hlead⟩ := ih p hp t ht
      exact ⟨c₂, h.trans h₁, h₂, hlead⟩

/-- **One node for each term**: the claims of all polls, at their different times, are those of one
election. -/
theorem account (h : Polled M cfg c polls c') (hnamed : cfg.Named) {e : Election.State String}
    (hR : ElectRel cfg c e) (hI : Election.Inv cfg.members e) :
    ∃ e', Election.Later e e' ∧ ∀ p ∈ polls, ∀ t, p.Claims t → e'.leader t = some p.1.id := by
  induction h generalizing e with
  | done _ => exact ⟨e, .refl e, nofun⟩
  | poll h hn hanswer hrest ih =>
    obtain ⟨e₁, hR₁, hI₁, hL₁⟩ := hR.runs hI hnamed h
    obtain ⟨e', hL', hclaims⟩ := ih hR₁ hI₁
    refine ⟨e', hL₁.trans hL', List.forall_mem_cons.mpr ⟨fun t ht => ?_, hclaims⟩⟩
    obtain ⟨hlead, rfl⟩ := leads_of_claims hanswer ht
    exact hL'.leader _ _ ((hR₁.node _ hn).leader hlead)

end Polled

/-- **The gateway finds the leader.** While the cluster runs on, with elections, crashes and nodes
that do not answer: if no node calls itself a leader, `refresh` keeps the leader it has; otherwise
it finds one that led the term when it was asked, and every other node that calls itself a leader
does so for an earlier term. The order of the nodes makes no difference. -/
theorem refresh_finds_leader (M : StateMachine σ) (cfg : Config) (hnamed : cfg.Named)
    (sm : String → σ) {c c' : Cluster σ}
    (hc : Reaches (Cluster.step M cfg) (Cluster.initial cfg sm) c) {polls : List Poll}
    (h : Polled M cfg c polls c') (g : View) :
    (((g.refresh polls).leaderID = g.leaderID ∧ ∀ p ∈ polls, ∀ t, ¬ p.Claims t) ∨
      ∃ v t c₁, (g.refresh polls).leaderID = v ∧ Reaches (Cluster.step M cfg) c c₁ ∧
        Reaches (Cluster.step M cfg) c₁ c' ∧ (c₁.node v).state = .leader ∧
        (c₁.node v).currentTerm = t ∧
        ∀ p ∈ polls, ∀ u, p.Claims u → u < t ∨ (u = t ∧ p.1.id = v)) ∧
    ∀ polls' : List Poll, polls'.Perm polls →
      (g.refresh polls').leaderID = (g.refresh polls).leaderID := by
  obtain ⟨e, hR, hI, -⟩ :=
    (ElectRel.initial cfg sm).runs (Election.Inv.initial cfg.members) hnamed hc
  obtain ⟨e', -, hclaims⟩ := h.account hnamed hR hI
  -- two that claim one term are the same node, by election safety
  have hone : ∀ p ∈ polls, ∀ q ∈ polls, ∀ t, p.Claims t → q.Claims t → p.1.id = q.1.id :=
    fun p hp q hq t ht ht' =>
      Option.some.inj ((hclaims p hp t ht).symm.trans (hclaims q hq t ht'))
  have hids : ∀ p ∈ polls, p.1.id ≠ "" := fun p hp heq => hnamed (heq ▸ h.mem_ids p hp)
  have hbest := highest_searchLeader hids
  refine ⟨?_, fun polls' hperm => ?_⟩
  · rcases hbest.found with hnone | ⟨p, hp, hclaim, hid⟩
    · refine .inl ⟨?_, fun p hp t ht => ?_⟩
      · simp [View.refresh, hnone]
      · exact (hbest.highest p hp t ht).2 (by rw [hnone])
    · obtain ⟨c₁, h₁, h₂, hlead, hterm⟩ := h.led p hp _ hclaim
      refine .inr ⟨p.1.id, _, c₁, ?_, h₁, h₂, hlead, hterm, fun q hq u hu => ?_⟩
      · rw [View.refresh, hid]
        exact if_pos (hid ▸ hids p hp)
      · refine (lt_or_eq_of_le (hbest.highest q hq u hu).1).imp_right fun heq => ⟨heq, ?_⟩
        exact hone q hq p hp u hu (heq ▸ hclaim)
  · have hbest' := highest_searchLeader fun p hp => hids p (hperm.mem_iff.mp hp)
    -- the highest claim does not depend on the order
    have hsame : searchLeader polls' = searchLeader polls := by
      refine Highest.unique ⟨?_, fun p hp => ?_⟩ hbest hone
      · exact hbest'.found.imp_right fun ⟨p, hp, hp'⟩ => ⟨p, hperm.mem_iff.mp hp, hp'⟩
      · exact hbest'.highest p (hperm.mem_iff.mpr hp)
    simp only [View.refresh, hsame]

/-- "a" leads in term 1 and is asked; then "b" is elected in term 2 and asked, and "c" does not
answer. The gateway, which knew "a", finds "b". -/
theorem refresh_finds_new_leader : ∃ c c' : Cluster Bytes, ∃ polls : List Poll,
    Reaches (Cluster.step journal trio) (Cluster.initial trio fun _ => []) c ∧
    Polled journal trio c polls c' ∧ (View.refresh ⟨"a", "", []⟩ polls).leaderID = "b" ∧
    ∀ polls' : List Poll, polls'.Perm polls →
      (View.refresh ⟨"a", "", []⟩ polls').leaderID = "b" := by
  have hrun : ((exec (Cluster.step journal trio) (Cluster.initial trio fun _ => [])
      [.elect "a", .deliver 0, .reply 0 0]).bind fun c =>
        (exec (Cluster.step journal trio) c [.elect "b", .deliver 3, .reply 3 0]).map fun c' =>
          ((c.node "a").state, (c.node "a").currentTerm, (c'.node "b").state,
            (c'.node "b").currentTerm)) = some (.leader, 1, .leader, 2) := by
    decide +kernel
  obtain ⟨c, h₁, hrun⟩ := Option.bind_eq_some_iff.mp hrun
  obtain ⟨c', h₂, hobs⟩ := Option.map_eq_some_iff.mp hrun
  simp only [Prod.mk.injEq] at hobs
  obtain ⟨hla, hta, hlb, htb⟩ := hobs
  let polls : List Poll := [(⟨"a", "A"⟩, some (handleCluster "a" (some (c.node "a")))),
    (⟨"b", "B"⟩, some (handleCluster "b" (some (c'.node "b")))), (⟨"c", "C"⟩, none)]
  have hpolled : Polled journal trio c polls c' :=
    .poll (.refl c) (by decide) (fun _ h => (Option.some.inj h).symm)
      (.poll (Reaches.of_exec h₂) (by decide) (fun _ h => (Option.some.inj h).symm)
        (.poll (.refl c') (by decide) nofun (.done (.refl c'))))
  have hfound : (View.refresh ⟨"a", "", []⟩ polls).leaderID = "b" := by
    simp [polls, View.refresh, searchLeader, considerPoll, pollNode, handleCluster, hla, hta, hlb,
      htb, roleText]
  have hsame := (refresh_finds_leader journal trio (by decide) _ (Reaches.of_exec h₁) hpolled
    ⟨"a", "", []⟩).2
  exact ⟨c, c', polls, Reaches.of_exec h₁, hpolled, hfound,
    fun polls' hperm => (hsame polls' hperm).trans hfound⟩

end Gateway
end BoilerPulse
