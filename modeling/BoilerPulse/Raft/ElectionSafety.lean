import BoilerPulse.Framework.Election
import BoilerPulse.Raft.Cluster
import BoilerPulse.Raft.NodeLemmas
import Mathlib.Data.Finset.Card
import Mathlib.Data.List.Basic

/-!
# Election safety

The cluster refines the abstract election: `ElectRel` relates a cluster to an
`Election.State`, and every step of the cluster is answered by moves of the
election (`ElectRel.step`). Nothing is assumed about logs or snapshots here, so
the cluster may be compacting and installing snapshots all the while.

The relation says three things:

* `NodeElect` — a node's term and vote are the abstract ones, in memory and on
  storage, and a leader is the abstract leader of its term;
* `CallElect` — a granted vote still on its way to a candidate was really cast;
* `Counted` — the counter of a running election counts distinct nodes that voted
  for the candidate, none of which the candidate still has an open call to.

The last clause is where "one goroutine takes one reply" enters: `distinct` says a
candidate has at most one open call per peer in the term of its election.

Node ids are strings and `""` stands for "no vote" in `votedFor`, so a node whose id
is the empty string could vote twice in one term. The refinement needs the ids to
be non-empty.
-/

namespace BoilerPulse
namespace Raft

open Framework

variable {σ : Type} {cfg : Config} {P : Call → Prop}

/-! ### Configurations -/

namespace Config

variable {v : String}

/-- No node is called `""`. -/
def Named (cfg : Config) : Prop :=
  "" ∉ cfg.ids

instance (cfg : Config) : Decidable cfg.Named :=
  inferInstanceAs (Decidable ("" ∉ cfg.ids))

/-- The members as a finite set. -/
def members (cfg : Config) : Finset String :=
  cfg.ids.toFinset

theorem card_members (cfg : Config) : cfg.members.card = cfg.ids.length :=
  List.toFinset_card_of_nodup cfg.ids_nodup

theorem mem_members : v ∈ cfg.members ↔ v ∈ cfg.ids :=
  List.mem_toFinset

theorem peers_length (hv : v ∈ cfg.ids) :
    (cfg.peers v).length + 1 = cfg.ids.length := by
  have hset : (cfg.peers v).toFinset = cfg.members.erase v := by
    ext p
    rw [List.mem_toFinset, cfg.mem_peers v hv, Finset.mem_erase, mem_members, and_comm]
  have h1 := List.toFinset_card_of_nodup (cfg.peers_nodup v hv)
  rw [hset, Finset.card_erase_of_mem (mem_members.mpr hv), card_members] at h1
  have h2 := List.length_pos_of_mem hv
  omega

theorem mem_ids_of_peer {v p : String} (hv : v ∈ cfg.ids) (hp : p ∈ cfg.peers v) : p ∈ cfg.ids :=
  ((cfg.mem_peers v hv p).mp hp).1

/-- As many members as `majority` asks for are a majority. -/
theorem majority_of_card (hv : v ∈ cfg.ids) {n : Node σ} (hn : n.peers = cfg.peers v)
    {G : Finset String} (hG : G ⊆ cfg.members) (hcard : n.majority ≤ G.card)
    : Election.Majority cfg.members G := by
  refine ⟨hG, ?_⟩
  have hlen := cfg.peers_length hv
  unfold Node.majority at hcard
  rw [hn, hlen] at hcard
  rw [card_members]
  omega

end Config

/-! ### The refinement relation -/

/-- A node and its share of the abstract election. -/
structure NodeElect (cfg : Config) (e : Election.State String) (v : String) (n : Node σ) :
    Prop where
  id : n.id = v
  peers : n.peers = cfg.peers v
  opts : n.opts = cfg.opts v
  cur : e.cur v = n.currentTerm
  /-- The vote of the current term, `""` meaning none. -/
  vote : e.vote v n.currentTerm = if n.votedFor = "" then none else some n.votedFor
  storedTerm : n.storage.term = n.currentTerm
  storedVote : n.storage.votedFor = n.votedFor
  candidate : n.state = .candidate → e.leader n.currentTerm ≠ some v
  leader : n.state = .leader → e.leader n.currentTerm = some v

/-- A call and what the abstract election knows about it. -/
structure CallElect (cfg : Config) (e : Election.State String) (call : Call) : Prop where
  caller : call.caller ∈ cfg.ids
  peer : call.peer ∈ cfg.peers call.caller
  request : ∀ args, call.request = .requestVote args →
    args.candidateID = call.caller ∧ args.term ≤ e.cur call.caller
  /-- A granted vote was cast. -/
  granted : ∀ args r, call.request = .requestVote args → Reply.requestVote r ∈ call.replies →
    r.voteGranted = true → e.vote call.peer args.term = some call.caller

/-- The `k`-th call is an open request of `v` for the vote of `p` in term `t`. -/
def VoteCall (calls : List Call) (k : ℕ) (v : String) (t : ℕ) (p : String) : Prop :=
  ∃ call, calls[k]? = some call ∧ call.caller = v ∧ call.peer = p ∧ call.waiting = true ∧
    ∃ args, call.request = .requestVote args ∧ args.term = t

/-- The vote counter of `v`'s running election counts distinct voters, and none of
them can be counted again. -/
def Counted (cfg : Config) (calls : List Call) (e : Election.State String) (v : String)
    (s : Server σ) : Prop :=
  ∃ G : Finset String, v ∈ G ∧ G ⊆ cfg.members ∧ G.card = s.votes s.node.currentTerm ∧
    (∀ g ∈ G, e.vote g s.node.currentTerm = some v) ∧
    ∀ k p, VoteCall calls k v s.node.currentTerm p → p ∉ G

/-- **The refinement relation** between a cluster and the abstract election. -/
structure ElectRel (cfg : Config) (c : Cluster σ) (e : Election.State String) : Prop where
  node : ∀ v ∈ cfg.ids, NodeElect cfg e v (c.node v)
  call : ∀ (k : ℕ) call, c.calls[k]? = some call → CallElect cfg e call
  distinct : ∀ k k' v t p, VoteCall c.calls k v t p → VoteCall c.calls k' v t p → k = k'
  counted : ∀ v ∈ cfg.ids, (c.node v).state = .candidate → Counted cfg c.calls e v (c.servers v)
  sends : ∀ v ∈ cfg.ids, ∀ x ∈ (c.servers v).snapshotSends, x.1 ∈ cfg.peers v

theorem ElectRel.initial (cfg : Config) (sm : String → σ) :
    ElectRel cfg (Cluster.initial cfg sm) (Election.State.initial String) where
  node := fun v _ =>
    ⟨rfl, rfl, rfl, rfl, rfl, rfl, rfl, nofun, nofun⟩
  call := nofun
  distinct := fun k k' v t p ⟨call, h, _⟩ => absurd h (by simp [Cluster.initial])
  counted := nofun
  sends := nofun

/-! ### Edits of the call list -/

/-- Every open vote request of `calls'` is one of `calls`. -/
def CallsSub (calls calls' : List Call) : Prop :=
  ∀ k v t p, VoteCall calls' k v t p → VoteCall calls k v t p

theorem CallsSub.refl (calls : List Call) : CallsSub calls calls :=
  fun _ _ _ _ h => h

/-- Editing one call without reopening it or changing its address or request. -/
theorem CallsSub.modify (calls : List Call) (k : ℕ) {f : Call → Call}
    (hf : ∀ call, (f call).caller = call.caller ∧ (f call).peer = call.peer ∧
      (f call).request = call.request ∧ ((f call).waiting = true → call.waiting = true)) :
    CallsSub calls (calls.modify k f) := by
  rintro j v t p ⟨call', hget, hcaller, hpeer, hw, args, hreq, ht⟩
  rw [List.getElem?_modify] at hget
  obtain ⟨call, hcall, rfl⟩ := Option.map_eq_some_iff.mp hget
  refine ⟨call, hcall, ?_⟩
  split at hcaller
  · next h =>
    rw [if_pos h] at hpeer hw hreq
    obtain ⟨h1, h2, h3, h4⟩ := hf call
    exact ⟨h1 ▸ hcaller, h2 ▸ hpeer, h4 hw, args, h3 ▸ hreq, ht⟩
  · next h =>
    rw [if_neg h] at hpeer hw hreq
    exact ⟨hcaller, hpeer, hw, args, hreq, ht⟩

/-- Appending calls that are not vote requests. -/
theorem CallsSub.append (calls new : List Call)
    (hnew : ∀ call ∈ new, ∀ args, call.request ≠ .requestVote args) :
    CallsSub calls (calls ++ new) := by
  rintro k v t p ⟨call, hget, hcaller, hpeer, hw, args, hreq, ht⟩
  by_cases hk : k < calls.length
  · rw [List.getElem?_append_left hk] at hget
    exact ⟨call, hget, hcaller, hpeer, hw, args, hreq, ht⟩
  · rw [List.getElem?_append_right (by omega)] at hget
    exact absurd hreq (hnew call (List.mem_of_getElem? hget) args)

/-- A property of calls that survives an edit of one of them holds of all. -/
theorem calls_modify {calls : List Call} (k : ℕ) {f : Call → Call}
    (h : ∀ (j : ℕ) call, calls[j]? = some call → P call)
    (hf : ∀ call, calls[k]? = some call → P call → P (f call)) :
    ∀ (j : ℕ) call, (calls.modify k f)[j]? = some call → P call := by
  intro j call' hget
  rw [List.getElem?_modify] at hget
  obtain ⟨call, hcall, rfl⟩ := Option.map_eq_some_iff.mp hget
  split
  · next hk => subst hk; exact hf call hcall (h k call hcall)
  · exact h j call hcall

theorem calls_append {calls new : List Call} (h : ∀ (j : ℕ) call, calls[j]? = some call → P call)
    (hnew : ∀ call ∈ new, P call) :
    ∀ (j : ℕ) call, (calls ++ new)[j]? = some call → P call := by
  intro j call hget
  rcases List.mem_append.mp (List.mem_of_getElem? hget) with hm | hm
  · obtain ⟨i, hi⟩ := List.mem_iff_getElem?.mp hm
    exact h i call hi
  · exact hnew call hm

/-- A crash of `v` closes its calls. -/
theorem calls_crash {calls : List Call} (v : String)
    (h : ∀ (j : ℕ) call, calls[j]? = some call → P call)
    (hf : ∀ call, P call → P { call with waiting := false }) :
    ∀ (j : ℕ) call, (calls.map fun call =>
      if call.caller = v then { call with waiting := false } else call)[j]? = some call →
      P call := by
  intro j call' hget
  rw [List.getElem?_map] at hget
  obtain ⟨call, hcall, rfl⟩ := Option.map_eq_some_iff.mp hget
  split
  · exact hf call (h j call hcall)
  · exact h j call hcall

/-! ### Preservation: nodes, calls, counters -/

section Preserve

variable {e e' : Election.State String} {v : String} {n n' : Node σ} {call : Call}

theorem NodeElect.sameVote (h : NodeElect cfg e v n) (hs : SameVote n n') :
    NodeElect cfg e v n' where
  id := hs.id.trans h.id
  peers := hs.peers.trans h.peers
  opts := hs.opts.trans h.opts
  cur := h.cur.trans hs.currentTerm.symm
  vote := by rw [hs.currentTerm, hs.votedFor]; exact h.vote
  storedTerm := by rw [hs.storedTerm, hs.currentTerm]; exact h.storedTerm
  storedVote := by rw [hs.storedVote, hs.votedFor]; exact h.storedVote
  candidate := fun hc => by
    rw [hs.currentTerm]
    rcases hs.state with h' | h'
    · exact h.candidate (h'.symm.trans hc)
    · rw [h'] at hc; cases hc
  leader := fun hl => by
    rw [hs.currentTerm]
    rcases hs.state with h' | h'
    · exact h.leader (h'.symm.trans hl)
    · rw [h'] at hl; cases hl

/-- Adopting a term follows the abstract node into that term. -/
theorem NodeElect.adopt (h : NodeElect cfg e v n) (hI : Election.Inv cfg.members e) (t : ℕ) :
    NodeElect cfg (e.reach v t) v (n.adopt t) := by
  unfold Node.adopt Election.State.reach
  rw [h.cur]
  split
  · next hlt =>
    rw [n.becomeFollowerLocked_of_lt hlt]
    have hnone : e.vote v t = none := hI.vote_none (by rw [h.cur]; exact hlt)
    exact { h with
        cur := e.bump_cur_self v t
        vote := hnone.trans (if_pos rfl).symm
        storedTerm := rfl
        storedVote := rfl
        candidate := nofun
        leader := nofun }
  · exact h

/-- Starting an election follows the abstract candidate into the next term, which nobody leads. -/
theorem NodeElect.campaign (h : NodeElect cfg e v n) (hI : Election.Inv cfg.members e)
    (hv : v ≠ "") : NodeElect cfg (e.campaign v) v n.startElectionLocked where
  id := h.id
  peers := h.peers
  opts := h.opts
  cur := by
    rw [e.campaign_cur_self, h.cur]
    rfl
  vote := by
    change (e.campaign v).vote v (n.currentTerm + 1) = if n.id = "" then none else some n.id
    rw [h.id, if_neg hv, ← h.cur, e.campaign_vote_self]
  storedTerm := rfl
  storedVote := rfl
  candidate := fun _ hl => by
    have hle : n.currentTerm + 1 ≤ e.cur v := hI.leader_le _ _ hl
    have := h.cur
    omega
  leader := nofun

/-- Casting the vote of the current term. -/
theorem NodeElect.grant (h : NodeElect cfg e v n) {p : String} (hp : p ≠ "") :
    NodeElect cfg (e.grant v p) v { n with
      votedFor := p
      storage := n.storage.saveTermAndVote n.currentTerm p } :=
  { h with
    vote := by
      rw [if_neg hp, ← h.cur, e.grant_vote_self]
    storedTerm := rfl
    storedVote := rfl }

/-- `votedFor` tells the abstract vote only because no node is called `""`. -/
theorem NodeElect.vote_free (h : NodeElect cfg e v n) {p : String} (hp : p ≠ "")
    (hcan : n.votedFor = "" ∨ n.votedFor = p) :
    e.vote v n.currentTerm = none ∨ e.vote v n.currentTerm = some p := by
  rw [h.vote]
  rcases hcan with hno | hsame
  · exact Or.inl (if_pos hno)
  · rw [hsame, if_neg hp]
    exact Or.inr rfl

theorem NodeElect.elect (h : NodeElect cfg e v n) :
    NodeElect cfg (e.elect v) v n.becomeLeaderLocked :=
  { h with
    candidate := nofun
    leader := fun _ => by
      change (e.elect v).leader n.currentTerm = some v
      rw [← h.cur, e.elect_leader_self] }

theorem NodeElect.frame {u : String} (h : NodeElect cfg e u n) (hf : Election.Frame v e e')
    (hu : u ≠ v) : NodeElect cfg e' u n :=
  { h with
    cur := (hf.cur u hu).trans h.cur
    vote := (hf.vote u _ hu).trans h.vote
    candidate := fun hc hl => h.candidate hc ((hf.leader u _ hu).mp hl)
    leader := fun hl => (hf.leader u _ hu).mpr (h.leader hl) }

theorem CallElect.later (h : CallElect cfg e call) (hL : Election.Later e e') :
    CallElect cfg e' call :=
  { h with
    request := fun args hr => ⟨(h.request args hr).1, (h.request args hr).2.trans (hL.cur _)⟩
    granted := fun args r hr hm hg => hL.vote _ _ _ (h.granted args r hr hm hg) }

theorem CallElect.close (h : CallElect cfg e call) :
    CallElect cfg e { call with waiting := false } :=
  ⟨h.caller, h.peer, h.request, h.granted⟩

/-- A reply may be added to a call if a vote it grants was cast. -/
theorem CallElect.addReply (h : CallElect cfg e call) {r : Reply}
    (hr : ∀ args rv, call.request = .requestVote args → r = .requestVote rv →
      rv.voteGranted = true → e.vote call.peer args.term = some call.caller) :
    CallElect cfg e { call with replies := call.replies ++ [r] } where
  caller := h.caller
  peer := h.peer
  request := h.request
  granted := by
    intro args rv hreq hmem hg
    rcases List.mem_append.mp hmem with hm | hm
    · exact h.granted args rv hreq hm hg
    · exact hr args rv hreq (List.mem_singleton.mp hm).symm hg

/-- A counter nobody touched still counts. -/
theorem Counted.later {s s' : Server σ} {calls calls' : List Call} (h : Counted cfg calls e v s)
    (hL : Election.Later e e') (hterm : s'.node.currentTerm = s.node.currentTerm)
    (hvotes : s'.votes = s.votes)
    (hsub : ∀ k t p, VoteCall calls' k v t p → VoteCall calls k v t p) :
    Counted cfg calls' e' v s' := by
  obtain ⟨G, hvG, hG, hcard, hvote, hopen⟩ := h
  refine ⟨G, hvG, hG, ?_, ?_, ?_⟩
  · rw [hterm, hvotes]; exact hcard
  · intro g hg
    rw [hterm]
    exact hL.vote g _ v (hvote g hg)
  · intro k p hk
    rw [hterm] at hk
    exact hopen k p (hsub k _ p hk)

end Preserve

/-! ### One process acts -/

section Act

variable {c c' : Cluster σ} {e e' : Election.State String} {v : String} {s : Server σ}

/-- A step of the process `v` preserves the relation, as long as it does so at `v` itself and for the
calls, and opens no vote request of another. -/
theorem ElectRel.update (h : ElectRel cfg c e) (hf : Election.Frame v e e')
    (hL : Election.Later e e') (hservers : c'.servers = Function.update c.servers v s)
    (hnode : NodeElect cfg e' v s.node)
    (hcall : ∀ (k : ℕ) call, c'.calls[k]? = some call → CallElect cfg e' call)
    (hdistinct : ∀ k k' v t p, VoteCall c'.calls k v t p → VoteCall c'.calls k' v t p → k = k')
    (hsub : ∀ u, u ≠ v → ∀ k t p, VoteCall c'.calls k u t p → VoteCall c.calls k u t p)
    (hcounted : s.node.state = .candidate → Counted cfg c'.calls e' v s)
    (hsends : ∀ x ∈ s.snapshotSends, x.1 ∈ cfg.peers v) : ElectRel cfg c' e' where
  node := Cluster.forall_servers (P := fun u s => NodeElect cfg e' u s.node) hservers
    (fun _ => hnode) fun u hu huv => (h.node u hu).frame hf huv
  call := hcall
  distinct := hdistinct
  counted := Cluster.forall_servers
    (P := fun u s => s.node.state = .candidate → Counted cfg c'.calls e' u s) hservers
    (fun _ => hcounted) fun u hu huv hc => (h.counted u hu hc).later hL rfl rfl (hsub u huv)
  sends := Cluster.forall_servers (P := fun u s => ∀ x ∈ s.snapshotSends, x.1 ∈ cfg.peers u)
    hservers (fun _ => hsends) fun u hu _ => h.sends u hu

/-- The same for a step that opens no vote request at all. -/
theorem ElectRel.act (h : ElectRel cfg c e) (hf : Election.Frame v e e')
    (hL : Election.Later e e') (hservers : c'.servers = Function.update c.servers v s)
    (hnode : NodeElect cfg e' v s.node)
    (hcall : ∀ (k : ℕ) call, c'.calls[k]? = some call → CallElect cfg e' call)
    (hsub : CallsSub c.calls c'.calls)
    (hcounted : s.node.state = .candidate → Counted cfg c'.calls e' v s)
    (hsends : ∀ x ∈ s.snapshotSends, x.1 ∈ cfg.peers v) : ElectRel cfg c' e' :=
  h.update hf hL hservers hnode hcall
    (fun k k' u t p hk hk' => h.distinct k k' u t p (hsub k u t p hk) (hsub k' u t p hk'))
    (fun u _ k t p => hsub k u t p) hcounted hsends

/-- A step in which `v` adopts the term `t`, and touches terms, votes and roles in no
other way. -/
theorem ElectRel.reach (h : ElectRel cfg c e) (hI : Election.Inv cfg.members e)
    (hv : v ∈ cfg.ids) (t : ℕ) (hservers : c'.servers = Function.update c.servers v s)
    (hnode : SameVote ((c.node v).adopt t) s.node)
    (hvotes : s.node.state = .candidate → s.votes = (c.servers v).votes)
    (hcall : ∀ (k : ℕ) call, c'.calls[k]? = some call → CallElect cfg e call)
    (hsub : CallsSub c.calls c'.calls)
    (hsends : ∀ x ∈ s.snapshotSends, x.1 ∈ cfg.peers v) :
    ElectRel cfg c' (e.reach v t) := by
  have hL : Election.Later e (e.reach v t) := (hI.steps (e.reach_steps v t)).2
  refine h.act (Election.Frame.reach e v t) hL hservers
    (((h.node v hv).adopt hI t).sameVote hnode) (fun k call hk => (hcall k call hk).later hL) hsub
    (fun hc => ?_) hsends
  -- a candidate has not adopted a new term, so its counter goes on
  have hs : ((c.node v).adopt t).state = .candidate := by
    rcases hnode.state with hs | hs
    · exact hs.symm.trans hc
    · rw [hs] at hc; cases hc
  have heq := (c.node v).adopt_of_state (t := t) (by rw [hs]; simp)
  rw [heq] at hnode hs
  exact (h.counted v hv hs).later hL hnode.currentTerm (hvotes hc) fun k t p hk =>
    hsub k v t p hk

/-- Closing the open calls of `v`, or all of them. -/
theorem CallsSub.map_close (calls : List Call) (v : String) : CallsSub calls (calls.map fun call =>
      if call.caller = v then { call with waiting := false } else call) := by
  rintro k u t p ⟨call', hget, hcaller, hpeer, hw, args, hreq, ht⟩
  rw [List.getElem?_map] at hget
  obtain ⟨call, hcall, rfl⟩ := Option.map_eq_some_iff.mp hget
  by_cases hcv : call.caller = v
  · rw [if_pos hcv] at hw; cases hw
  · rw [if_neg hcv] at hcaller hpeer hw hreq
    exact ⟨call, hcall, hcaller, hpeer, hw, args, hreq, ht⟩

theorem CallsSub.addReply (c : Cluster σ) (k : ℕ) (r : Reply) :
    CallsSub c.calls (c.addReply k r).calls :=
  CallsSub.modify c.calls k fun _ => ⟨rfl, rfl, rfl, id⟩

theorem CallsSub.closeCall (c : Cluster σ) (k : ℕ) : CallsSub c.calls (c.closeCall k).calls :=
  CallsSub.modify c.calls k fun _ => ⟨rfl, rfl, rfl, nofun⟩

/-- A closed call is not open. -/
theorem not_voteCall_closeCall (c : Cluster σ) (k : ℕ) {v p : String} {t : ℕ} :
    ¬ VoteCall (c.closeCall k).calls k v t p := by
  rintro ⟨call, hget, -, -, hw, -⟩
  change (c.calls.modify k _)[k]? = some call at hget
  rw [List.getElem?_modify] at hget
  obtain ⟨call', -, rfl⟩ := Option.map_eq_some_iff.mp hget
  rw [if_pos rfl] at hw
  cases hw

end Act

/-! ### The moves that make leaders -/

section Moves

variable {c : Cluster σ} {e : Election.State String} {v : String} {args : RequestVoteArgs}
  {M : StateMachine σ} {call : Call} {n : Node σ} {k : ℕ}

theorem ElectRel.peer_mem (h : ElectRel cfg c e) (hk : c.calls[k]? = some call)
    : call.peer ∈ cfg.ids :=
  cfg.mem_ids_of_peer (h.call k call hk).caller (h.call k call hk).peer

/-- When `v` asks its peers for their votes in a new term, an open vote request is an old one, or one
of the new ones. -/
theorem ElectRel.voteCall_cases (h : ElectRel cfg c e) (hterm : args.term = e.cur v + 1) {k t : ℕ}
    {u p : String}
    (hcall : VoteCall (c.calls ++ (cfg.peers v).map fun p => Call.new v p (.requestVote args))
      k u t p) :
    (k < c.calls.length ∧ VoteCall c.calls k u t p ∧ t ≤ e.cur u) ∨
      (c.calls.length ≤ k ∧ u = v ∧ t = e.cur v + 1 ∧
        (cfg.peers v)[k - c.calls.length]? = some p) := by
  obtain ⟨call, hget, hcaller, hpeer, hw, args', hreq, ht⟩ := hcall
  by_cases hk : k < c.calls.length
  · rw [List.getElem?_append_left hk] at hget
    refine Or.inl ⟨hk, ⟨call, hget, hcaller, hpeer, hw, args', hreq, ht⟩, ?_⟩
    have := ((h.call k call hget).request args' hreq).2
    rwa [hcaller, ht] at this
  · rw [List.getElem?_append_right (by omega), List.getElem?_map] at hget
    obtain ⟨q, hq, rfl⟩ := Option.map_eq_some_iff.mp hget
    obtain rfl := Request.requestVote.inj hreq
    refine Or.inr ⟨by omega, hcaller.symm, ht.symm.trans hterm, ?_⟩
    obtain rfl : q = p := hpeer
    exact hq

/-- **An election starts**: the candidate votes for itself, and every vote request of
the new term is one of the calls it has just made. -/
theorem ElectRel.campaign (h : ElectRel cfg c e) (hI : Election.Inv cfg.members e)
    (hnamed : cfg.Named) (hv : v ∈ cfg.ids) :
    ElectRel cfg (c.campaign v) (e.campaign v) := by
  have hn := h.node v hv
  have hL : Election.Later e (e.campaign v) := (Election.Step.campaign v).later hI
  have hterm : (c.node v).startElectionLocked.currentTerm = e.cur v + 1 := by rw [hn.cur]; rfl
  have hcalls : (c.campaign v).calls = c.calls ++ (cfg.peers v).map fun p => Call.new v p
      (.requestVote (c.node v).startElectionLocked.requestVoteArgs) := by
    rw [← hn.peers]; rfl
  have hcases : ∀ k u t p, VoteCall (c.campaign v).calls k u t p → _ := fun k u t p hk =>
    h.voteCall_cases hterm (hcalls ▸ hk)
  refine h.update (Election.Frame.campaign e v) hL rfl (hn.campaign hI fun hv' => hnamed (hv' ▸ hv))
    ?_ ?_ ?_ (fun _ => ?_) (h.sends v hv)
  · -- calls: the new ones have no replies yet
    rw [hcalls]
    refine calls_append (fun k call hk => (h.call k call hk).later hL) ?_
    intro call hmem
    obtain ⟨p, hp, rfl⟩ := List.mem_map.mp hmem
    refine ⟨hv, hp, fun args hr => ?_, nofun⟩
    obtain rfl := Request.requestVote.inj hr
    refine ⟨hn.id, le_of_eq ?_⟩
    exact hterm.trans (Election.State.campaign_cur_self e v).symm
  · -- distinct: old and new calls differ in their term, two new ones in their peer
    intro k k' u t p hk hk'
    rcases hcases k u t p hk with ⟨-, hk, ht⟩ | ⟨hge, hu, ht, hp⟩ <;>
      rcases hcases k' u t p hk' with ⟨-, hk', ht'⟩ | ⟨hge', hu', ht', hp'⟩
    · exact h.distinct k k' u t p hk hk'
    · subst hu'; omega
    · subst hu; omega
    · have hlt := (List.getElem?_eq_some_iff.mp hp).1
      have := (List.getElem?_inj hlt (cfg.peers_nodup v hv)).mp (hp.trans hp'.symm)
      omega
  · -- only `v` asks
    intro u huv k t p hk
    rcases hcases k u t p hk with ⟨-, hk, -⟩ | ⟨-, hu', -⟩
    · exact hk
    · exact absurd hu' huv
  · -- counted: the candidate has counted its own vote, and asks only the others
    refine ⟨{v}, Finset.mem_singleton_self v,
      Finset.singleton_subset_iff.mpr (Config.mem_members.mpr hv), ?_, ?_, ?_⟩
    · dsimp only
      rw [Finset.card_singleton, Function.update_self]
    · intro g hg
      obtain rfl := Finset.mem_singleton.mp hg
      rw [hterm]
      exact e.campaign_vote_self g
    · intro k p hk
      rw [Finset.mem_singleton]
      rcases hcases k v _ p hk with ⟨-, -, ht⟩ | ⟨-, -, -, hp⟩
      · rw [hterm] at ht; omega
      · exact ((cfg.mem_peers v hv p).mp (List.mem_of_getElem? hp)).2

/-- **A vote request is handled**: the peer adopts its term, and may cast its vote. -/
theorem ElectRel.deliverVote (h : ElectRel cfg c e) (hI : Election.Inv cfg.members e)
    (hnamed : cfg.Named) (hk : c.calls[k]? = some call) (hr : call.request = .requestVote args) :
    let n := c.node call.peer
    let c' := (c.setNode call.peer (n.handleRequestVote args).1).addReply k
      (.requestVote (n.handleRequestVote args).2)
    ElectRel cfg c' (e.reach call.peer args.term) ∨ (n.currentTerm ≤ args.term ∧
        ((n.adopt args.term).lastLogTermLocked < args.lastLogTerm ∨
          (args.lastLogTerm = (n.adopt args.term).lastLogTermLocked ∧
            (n.adopt args.term).lastLogIndexLocked ≤ args.lastLogIndex)) ∧
        ((e.reach call.peer args.term).vote call.peer args.term = none ∨
          (e.reach call.peer args.term).vote call.peer args.term = some call.caller) ∧
        ElectRel cfg c' ((e.reach call.peer args.term).grant call.peer call.caller)) := by
  intro n c'
  have hp := h.peer_mem hk
  have hn := h.node _ hp
  have hcall := h.call k call hk
  -- refusing, as stale or after adopting the term, is adopting the term
  have hrefuse : SameVote (n.adopt args.term) (n.handleRequestVote args).1 →
      (n.handleRequestVote args).2.voteGranted = false →
      ElectRel cfg c' (e.reach call.peer args.term) := by
    intro hsame hno
    refine h.reach hI hp args.term rfl hsame (fun _ => rfl) ?_ (CallsSub.addReply _ k _)
      (h.sends _ hp)
    refine calls_modify k h.call fun call' _ hc' => hc'.addReply ?_
    intro _ rv _ hrv hg
    obtain rfl := Reply.requestVote.inj hrv
    rw [hno] at hg
    cases hg
  rcases n.handleRequestVote_cases args with ⟨hlt, heq⟩ | ⟨hle, heq⟩ | ⟨hle, hcan, hlog, heq⟩
  · refine Or.inl (hrefuse ?_ ?_)
    · rw [heq, n.adopt_of_le hlt.le]; exact SameVote.refl n
    · rw [heq]
  · refine Or.inl (hrefuse ?_ ?_)
    · rw [heq]; exact SameVote.refl _
    · rw [heq]
  · -- the vote is granted
    right
    obtain ⟨hcand, -⟩ := hcall.request args hr
    have hcne : call.caller ≠ "" := fun h' => hnamed (h' ▸ hcall.caller)
    have hadopt := hn.adopt hI args.term
    have hterm : (n.adopt args.term).currentTerm = args.term := n.adopt_currentTerm hle
    have hcur : (e.reach call.peer args.term).cur call.peer = args.term :=
      e.reach_cur_self (by rw [hn.cur]; exact hle)
    rw [hcand] at hcan
    have hfree := hadopt.vote_free hcne hcan
    rw [hterm] at hfree
    refine ⟨hle, hlog, hfree, ?_⟩
    have hsteps : Relation.ReflTransGen (Election.Step cfg.members) e
        ((e.reach call.peer args.term).grant call.peer call.caller) :=
      (e.reach_steps call.peer args.term).tail (.grant _ _ (by rw [hcur]; exact hfree))
    have hL := (hI.steps hsteps).2
    have hcast : ((e.reach call.peer args.term).grant call.peer call.caller).vote call.peer
        args.term = some call.caller := by
      have := (e.reach call.peer args.term).grant_vote_self call.peer call.caller
      rwa [hcur] at this
    refine h.act ((Election.Frame.reach e _ _).trans (Election.Frame.grant _ _ _)) hL rfl
      ?_ ?_ (CallsSub.addReply _ k _) (fun hc => ?_) (h.sends _ hp)
    · rw [heq, hcand]
      exact hadopt.grant hcne
    · refine calls_modify k (fun j call' hj => (h.call j call' hj).later hL) fun call' hk' hc' =>
        hc'.addReply ?_
      obtain rfl : call' = call := Option.some.inj (hk'.symm.trans hk)
      intro args' rv hreq hrv hg
      obtain rfl : args = args' := Request.requestVote.inj (hr.symm.trans hreq)
      exact hcast
    · -- a candidate that grants a vote in its own term has voted for itself: it stays
      rw [heq] at hc
      have hsame : n.adopt args.term = n :=
        n.adopt_of_state (by rw [show (n.adopt args.term).state = .candidate from hc]; simp)
      rw [hsame] at heq hc
      refine (h.counted _ hp hc).later hL ?_ rfl fun j t p hj => CallsSub.addReply _ k _ j _ t p hj
      rw [heq]

/-- **A granted vote counts once**: the call was open, so its peer has not been counted before. With
it the counted nodes are one more, and the only open call to one of them is this one. -/
theorem ElectRel.count_vote (h : ElectRel cfg c e) {r : RequestVoteReply}
    (hk : c.calls[k]? = some call) (hw : call.waiting = true)
    (hr : call.request = .requestVote args) (hj : .requestVote r ∈ call.replies)
    (hgr : r.voteGranted = true) (hcand : (c.node call.caller).state = .candidate)
    (hterm : (c.node call.caller).currentTerm = args.term) :
    ∃ G : Finset String, call.caller ∈ G ∧ G ⊆ cfg.members ∧
      G.card = (c.servers call.caller).votes args.term + 1 ∧
      (∀ g ∈ G, e.vote g args.term = some call.caller) ∧
      ∀ i p, VoteCall c.calls i call.caller args.term p → p ∈ G → i = k := by
  have hcall := h.call k call hk
  obtain ⟨G, hvG, hG, hcard, hvote, hopen⟩ := h.counted _ hcall.caller hcand
  rw [hterm] at hcard hvote hopen
  have hthis : VoteCall c.calls k call.caller args.term call.peer :=
    ⟨call, hk, rfl, rfl, hw, args, hr, rfl⟩
  -- whoever has been counted has no call open
  have hnew : call.peer ∉ G := hopen k _ hthis
  refine ⟨insert call.peer G, Finset.mem_insert_of_mem hvG,
    Finset.insert_subset (Config.mem_members.mpr (h.peer_mem hk)) hG, ?_, ?_, ?_⟩
  · rw [Finset.card_insert_of_notMem hnew, hcard]
  · intro g hg
    rcases Finset.mem_insert.mp hg with rfl | hg
    · exact hcall.granted args r hr hj hgr
    · exact hvote g hg
  · intro i p hi hp
    rcases Finset.mem_insert.mp hp with rfl | hp
    · exact h.distinct i k _ _ _ hi hthis
    · exact absurd hp (hopen i p hi)

/-- **A vote reply is taken**: the candidate adopts the reply's term, goes on, or is
elected. -/
theorem ElectRel.replyVote (h : ElectRel cfg c e) (hI : Election.Inv cfg.members e) {k j : ℕ}
    {r : RequestVoteReply} (hk : c.calls[k]? = some call) (hw : call.waiting = true)
    (hr : call.request = .requestVote args) (hj : call.replies[j]? = some (.requestVote r)) :
    let n := c.node call.caller
    let res := n.handleRequestVoteReply args.term ((c.servers call.caller).votes args.term) r
    let c' := (c.setServer call.caller { c.servers call.caller with
      node := res.1
      votes := Function.update (c.servers call.caller).votes args.term res.2 }).closeCall k
    (res.1 = n.adopt r.term ∧ ElectRel cfg c' (e.reach call.caller r.term)) ∨
      (n.state = .candidate ∧ res.1 = n.becomeLeaderLocked ∧ (∃ Q, Election.Majority cfg.members Q ∧
          ∀ v ∈ Q, e.vote v (e.cur call.caller) = some call.caller) ∧
        e.leader (e.cur call.caller) = none ∧ ElectRel cfg c' (e.elect call.caller)) := by
  intro n res c'
  have hcall := h.call k call hk
  have hv := hcall.caller
  have hn := h.node _ hv
  have hsub : CallsSub c.calls c'.calls := CallsSub.closeCall _ k
  have hcalls : ∀ e', Election.Later e e' →
      ∀ (i : ℕ) call', c'.calls[i]? = some call' → CallElect cfg e' call' := fun e' hL =>
    calls_modify k (fun i call' hi => (h.call i call' hi).later hL) fun _ _ hc => hc.close
  -- a reply that counts no vote at most makes the caller adopt its term
  have hsame : SameVote (n.adopt r.term) res.1 →
      (res.1.state = .candidate → res.2 = (c.servers call.caller).votes args.term) →
      ElectRel cfg c' (e.reach call.caller r.term) := by
    intro hs hvotes
    refine h.reach hI hv r.term rfl hs (fun hc => ?_) (hcalls e (Election.Later.refl e)) hsub
      (h.sends _ hv)
    rw [hvotes hc, Function.update_eq_self]
  rcases n.handleRequestVoteReply_cases args.term ((c.servers call.caller).votes args.term) r with
    ⟨hlt, heq⟩ | ⟨hle, heq⟩ | ⟨hle, hcand, hterm, hgr, hres⟩
  · have hres : res = (n.becomeFollowerLocked r.term, _) := heq
    rw [hres] at hsame ⊢
    rw [n.adopt_of_lt hlt] at hsame ⊢
    exact Or.inl ⟨rfl, hsame (SameVote.refl _) fun _ => rfl⟩
  · have hres : res = (n, _) := heq
    rw [hres] at hsame ⊢
    rw [n.adopt_of_le hle] at hsame ⊢
    exact Or.inl ⟨rfl, hsame (SameVote.refl _) fun _ => rfl⟩
  · obtain ⟨G, hvG, hG, hcard, hvote, hopen⟩ :=
      h.count_vote hk hw hr (List.mem_of_getElem? hj) hgr hcand hterm
    rcases hres with ⟨-, heq⟩ | ⟨hmaj, heq⟩
    · -- not enough yet: the peer joins those counted, and its call is closed
      left
      have hres : res = (n, _) := heq
      have hreach : e.reach call.caller r.term = e :=
        e.reach_of_le (by rw [hn.cur]; exact hle)
      rw [n.adopt_of_le hle, hreach, hres]
      refine ⟨rfl, ?_⟩
      refine h.act (Election.Frame.refl _ e) (Election.Later.refl e) rfl ?_
        (hcalls e (Election.Later.refl e)) hsub (fun _ => ?_) (h.sends _ hv)
      · rw [hres]
        exact hn
      · refine ⟨G, hvG, hG, ?_, ?_, ?_⟩
        all_goals
          rw [hres]
          simp only [show n.currentTerm = args.term from hterm]
        · rw [Function.update_self]; exact hcard
        · exact hvote
        · intro i p hi hmem
          obtain rfl := hopen i p (hsub i _ _ p hi) hmem
          exact not_voteCall_closeCall _ _ hi
    · -- a majority: the counted nodes are the voters of the abstract election
      right
      have hres : res = (n.becomeLeaderLocked, _) := heq
      have hcur : e.cur call.caller = args.term := hn.cur.trans hterm
      have hQ : Election.Majority cfg.members G :=
        cfg.majority_of_card hv hn.peers hG (by rw [hcard]; exact hmaj)
      have hnone : e.leader (e.cur call.caller) = none := by
        cases hl : e.leader (e.cur call.caller) with
        | none => rfl
        | some w =>
          obtain rfl := hI.leader_unique hQ (by rw [hcur]; exact hvote) hl
          rw [hn.cur] at hl
          exact absurd hl (hn.candidate hcand)
      refine ⟨hcand, by rw [hres], ⟨_, hQ, by rw [hcur]; exact hvote⟩, hnone, ?_⟩
      have hL : Election.Later e (e.elect call.caller) :=
        (Election.Step.elect call.caller _ hQ (by rw [hcur]; exact hvote) hnone).later hI
      refine h.act (Election.Frame.elect e hnone) hL rfl ?_ (hcalls _ hL) hsub
        (fun hc => ?_) (h.sends _ hv)
      · rw [hres]
        exact hn.elect
      · rw [hres] at hc
        cases hc

/-! ### All other moves

A step is an update of one process followed by an edit of the call list. -/

/-- One process adopts the term `t`. -/
theorem ElectRel.setServer (h : ElectRel cfg c e) (hI : Election.Inv cfg.members e)
    (hv : v ∈ cfg.ids) (t : ℕ) {s : Server σ} (hnode : SameVote ((c.node v).adopt t) s.node)
    (hvotes : s.node.state = .candidate → s.votes = (c.servers v).votes)
    (hsends : ∀ x ∈ s.snapshotSends, x.1 ∈ cfg.peers v) :
    ElectRel cfg (c.setServer v s) (e.reach v t) :=
  h.reach hI hv t rfl hnode hvotes h.call (CallsSub.refl _) hsends

theorem ElectRel.setServer_quiet (h : ElectRel cfg c e) (hI : Election.Inv cfg.members e)
    (hv : v ∈ cfg.ids) {s : Server σ} (hnode : SameVote (c.node v) s.node)
    (hvotes : s.node.state = .candidate → s.votes = (c.servers v).votes)
    (hsends : ∀ x ∈ s.snapshotSends, x.1 ∈ cfg.peers v) :
    ElectRel cfg (c.setServer v s) e := by
  have h' := h.setServer hI hv 0 (by rwa [Node.adopt_of_le _ (Nat.zero_le _)]) hvotes hsends
  rwa [e.reach_of_le (Nat.zero_le _)] at h'

theorem ElectRel.setNode (h : ElectRel cfg c e) (hI : Election.Inv cfg.members e) (hv : v ∈ cfg.ids)
    (t : ℕ) (hnode : SameVote ((c.node v).adopt t) n) :
    ElectRel cfg (c.setNode v n) (e.reach v t) :=
  h.setServer hI hv t hnode (fun _ => rfl) (h.sends v hv)

theorem ElectRel.setNode_quiet (h : ElectRel cfg c e) (hI : Election.Inv cfg.members e)
    (hv : v ∈ cfg.ids) (hnode : SameVote (c.node v) n) :
    ElectRel cfg (c.setNode v n) e :=
  h.setServer_quiet hI hv hnode (fun _ => rfl) (h.sends v hv)

/-- An edit of the call list and of what no node reads. -/
theorem ElectRel.editCalls {c' : Cluster σ} (h : ElectRel cfg c e) (hs : c'.servers = c.servers)
    (hcall : ∀ (k : ℕ) call, c'.calls[k]? = some call → CallElect cfg e call)
    (hsub : CallsSub c.calls c'.calls) : ElectRel cfg c' e := by
  obtain ⟨servers, calls, applied⟩ := c'
  obtain rfl : servers = c.servers := hs
  refine ⟨h.node, hcall, fun k k' v t p hk hk' =>
    h.distinct k k' v t p (hsub k v t p hk) (hsub k' v t p hk'), fun v hv hc => ?_, h.sends⟩
  exact (h.counted v hv hc).later (Election.Later.refl e) rfl rfl fun k t p hk => hsub k v t p hk

theorem ElectRel.addReply (h : ElectRel cfg c e) (k : ℕ) {r : Reply}
    (hr : ∀ rv, r ≠ .requestVote rv) : ElectRel cfg (c.addReply k r) e :=
  h.editCalls rfl
    (calls_modify k h.call fun _ _ hc => hc.addReply fun _ rv _ hrv => absurd hrv (hr rv))
    (CallsSub.addReply c k r)

theorem ElectRel.closeCall (h : ElectRel cfg c e) (k : ℕ) : ElectRel cfg (c.closeCall k) e :=
  h.editCalls rfl (calls_modify k h.call fun _ _ hc => hc.close) (CallsSub.closeCall c k)

theorem ElectRel.addCall (h : ElectRel cfg c e) {v p : String} (hv : v ∈ cfg.ids)
    (hp : p ∈ cfg.peers v) {req : Request} (hreq : ∀ args, req ≠ .requestVote args) :
    ElectRel cfg (c.addCalls [Call.new v p req]) e := by
  refine h.editCalls rfl (calls_append h.call fun call hm => ?_)
    (CallsSub.append _ _ fun call hm args => ?_)
  all_goals obtain rfl := List.mem_singleton.mp hm
  · exact ⟨hv, hp, fun args ha => absurd ha (hreq args), fun args _ ha => absurd ha (hreq args)⟩
  · exact hreq args

/-- `NewNode` reads term and vote back from the storage. -/
theorem NodeElect.newNode {n n' : Node σ} {sm : σ} (h : NodeElect cfg e v n)
    (hn : newNode M v (cfg.peers v) n.storage sm (cfg.opts v) = some n') : SameVote n n' := by
  obtain ⟨sm', i, t, -, rfl⟩ := n'.newNode_eq hn
  exact ⟨h.id.symm, h.peers.symm, h.opts.symm, h.storedTerm, h.storedVote, rfl, rfl, Or.inr rfl⟩

/-- **A restart** keeps the relation: what the new process reads from storage is what
the old one had in memory. -/
theorem ElectRel.restart (h : ElectRel cfg c e) (hI : Election.Inv cfg.members e) (hv : v ∈ cfg.ids)
    {sm : σ} (hn : newNode M v (cfg.peers v) (c.node v).storage sm (cfg.opts v) = some n) :
    ElectRel cfg { c.setServer v (Server.start n) with
      calls := c.calls.map fun call =>
        if call.caller = v then { call with waiting := false } else call } e := by
  have hfollow : n.state = .follower := by
    obtain ⟨sm', i, t, -, rfl⟩ := n.newNode_eq hn
    rfl
  have h' : ElectRel cfg (c.setServer v (Server.start n)) e :=
    h.setServer_quiet hI hv ((h.node v hv).newNode hn)
      (fun hc => nomatch hfollow.symm.trans hc) nofun
  exact h'.editCalls rfl (calls_crash v h.call fun _ hc => hc.close) (CallsSub.map_close c.calls v)

/-- **The step simulation**: every step of the cluster is answered by moves of the
abstract election. -/
theorem ElectRel.step {a : Action σ} {c' : Cluster σ} (h : ElectRel cfg c e)
    (hI : Election.Inv cfg.members e) (hnamed : cfg.Named) (hstep : c.step M cfg a = some c') :
    ∃ e', Relation.ReflTransGen (Election.Step cfg.members) e e' ∧ ElectRel cfg c' e' := by
  -- four kinds of steps move the election: a campaign, a delivered vote request, the
  -- reply to one, and whatever carries a newer term; all others are stuttering
  cases Cluster.step_cases hstep with
  | elect v hv hs => exact ⟨_, .single (.campaign v), h.campaign hI hnamed hv⟩
  | propose v batch n hv hn =>
    exact ⟨e, .refl, h.setNode_quiet hI hv ((c.node v).appendBatch_sameVote hn)⟩
  | sendEntries v peer args hv hp hs =>
    rw [(h.node v hv).peers] at hp
    exact ⟨e, .refl, h.addCall hv hp (by simp)⟩
  | planSnapshot v peer term hv hp hs =>
    rw [(h.node v hv).peers] at hp
    refine ⟨e, .refl, h.setServer_quiet hI hv (SameVote.refl _) (fun _ => rfl) fun x hx => ?_⟩
    rcases List.mem_append.mp hx with hx | hx
    · exact h.sends v hv x hx
    · rw [List.mem_singleton.mp hx]; exact hp
  | noSnapshot v k peer term hv hk hs =>
    exact ⟨e, .refl, h.setServer_quiet hI hv (SameVote.refl _) (fun _ => rfl) fun x hx =>
      h.sends v hv x (List.mem_of_mem_eraseIdx hx)⟩
  | sendSnapshot v k peer term args hv hk hs =>
    have hp := h.sends v hv _ (List.mem_of_getElem? hk)
    refine ⟨e, .refl, ElectRel.addCall ?_ hv hp (by simp)⟩
    exact h.setServer_quiet hI hv (SameVote.refl _) (fun _ => rfl) fun x hx =>
      h.sends v hv x (List.mem_of_mem_eraseIdx hx)
  | deliverVote k call args hk hr =>
    rcases h.deliverVote hI hnamed hk hr with h' | ⟨hle, -, hfree, h'⟩
    · exact ⟨_, e.reach_steps _ _, h'⟩
    · have hcur : (e.reach call.peer args.term).cur call.peer = args.term :=
        e.reach_cur_self (by rw [(h.node _ (h.peer_mem hk)).cur]; exact hle)
      exact ⟨_, (e.reach_steps _ _).tail (.grant _ _ (by rw [hcur]; exact hfree)), h'⟩
  | deliverEntries k call args hk hr =>
    exact ⟨_, e.reach_steps _ _, (h.setNode hI (h.peer_mem hk) args.term
      ((c.node call.peer).handleAppendEntries_sameVote args)).addReply k (by simp)⟩
  | refuseSnapshot k call args s r hk hr hs =>
    obtain ⟨hn, hv, hx⟩ := Server.installBegin_same hs
    exact ⟨_, e.reach_steps _ _, (h.setServer hI (h.peer_mem hk) args.term hn (fun _ => hv)
      (hx ▸ h.sends _ (h.peer_mem hk))).addReply k (by simp)⟩
  | deliverSnapshot k call args s hk hr hs =>
    obtain ⟨hn, hv, hx⟩ := Server.installBegin_same hs
    exact ⟨_, e.reach_steps _ _, h.setServer hI (h.peer_mem hk) args.term hn (fun _ => hv)
      (hx ▸ h.sends _ (h.peer_mem hk))⟩
  | replyVote k j call args r hk hw hr hj =>
    rcases h.replyVote hI hk hw hr hj with ⟨-, h'⟩ | ⟨-, -, ⟨Q, hQ, hv⟩, hnone, h'⟩
    · exact ⟨_, e.reach_steps _ _, h'⟩
    · exact ⟨_, .single (.elect _ Q hQ hv hnone), h'⟩
  | replyEntries k j call args r hk hw hr hj =>
    exact ⟨_, e.reach_steps _ _, (h.setNode hI (h.call k call hk).caller r.term
      ((c.node call.caller).handleAppendEntriesReply_cases call.peer args r).sameVote).closeCall k⟩
  | replySnapshot k j call args r hk hw hr hj =>
    exact ⟨_, e.reach_steps _ _, (h.setNode hI (h.call k call hk).caller r.term
      ((c.node call.caller).handleInstallSnapshotReply_cases call.peer args r).sameVote).closeCall k⟩
  | timeout k hk => exact ⟨e, .refl, h.closeCall k⟩
  | applyQuiet v s hv hs =>
    have hsame := Server.applyStep_same hs
    exact ⟨e, .refl, h.setServer_quiet hI hv hsame.node (fun _ => hsame.votes)
      (hsame.snapshotSends ▸ h.sends v hv)⟩
  | apply v s x hv hs =>
    have hsame := Server.applyStep_same hs
    exact ⟨e, .refl, (h.setServer_quiet hI hv hsame.node (fun _ => hsame.votes)
      (hsame.snapshotSends ▸ h.sends v hv)).editCalls rfl h.call (CallsSub.refl _)⟩
  | install v i s hv hs =>
    have hsame := Server.installStep_same hs
    exact ⟨e, .refl, h.setServer_quiet hI hv hsame.node (fun _ => hsame.votes)
      (hsame.snapshotSends ▸ h.sends v hv)⟩
  | installDone v i s k r hv hs =>
    have hsame := Server.installStep_same hs
    exact ⟨e, .refl, (h.setServer_quiet hI hv hsame.node (fun _ => hsame.votes)
      (hsame.snapshotSends ▸ h.sends v hv)).addReply k (by simp)⟩
  | restart v sm n hv hn => exact ⟨e, .refl, h.restart hI hv hn⟩

end Moves

/-! ### Election safety -/

/-- Every run is answered by a run of the abstract election. -/
theorem ElectRel.runs {M : StateMachine σ} {c c' : Cluster σ} {e : Election.State String}
    (h : ElectRel cfg c e) (hI : Election.Inv cfg.members e) (hnamed : cfg.Named)
    (hrun : Reaches (Cluster.step M cfg) c c') :
    ∃ e', ElectRel cfg c' e' ∧ Election.Inv cfg.members e' ∧ Election.Later e e' := by
  obtain ⟨e', hsteps, h', hI'⟩ := Runs.simulate (Election.Step cfg.members) (fun c e =>
    ElectRel cfg c e ∧ Election.Inv cfg.members e)
    (fun c₁ a c₂ e₁ hR _ hs => by
      obtain ⟨e₂, hsteps, hR₂⟩ := hR.1.step hR.2 hnamed hs
      exact ⟨e₂, hsteps, hR₂, (hR.2.steps hsteps).1⟩) hrun ⟨h, hI⟩
  exact ⟨e', h', hI', (hI.steps hsteps).2⟩

/-- **Election safety.** Two nodes that are leaders of one term, at any two moments of
a run, are the same node. -/
theorem election_safety (M : StateMachine σ) (cfg : Config) (hnamed : cfg.Named)
    (sm : String → σ) {c₁ c₂ : Cluster σ}
    (h₁ : Reaches (Cluster.step M cfg) (Cluster.initial cfg sm) c₁)
    (h₂ : Reaches (Cluster.step M cfg) c₁ c₂) {v w : String} (hv : v ∈ cfg.ids)
    (hw : w ∈ cfg.ids) (hlv : (c₁.node v).state = .leader) (hlw : (c₂.node w).state = .leader)
    (hterm : (c₁.node v).currentTerm = (c₂.node w).currentTerm) : v = w := by
  obtain ⟨e₁, hR₁, hI₁, -⟩ :=
    (ElectRel.initial cfg sm).runs (Election.Inv.initial cfg.members) hnamed h₁
  obtain ⟨e₂, hR₂, -, hL⟩ := hR₁.runs hI₁ hnamed h₂
  -- the abstract leader of a term never changes, so both nodes are it
  have hl₁ := hL.leader _ _ ((hR₁.node v hv).leader hlv)
  have hl₂ := (hR₂.node w hw).leader hlw
  rw [hterm, hl₂] at hl₁
  exact (Option.some.inj hl₁).symm

theorem election_safety_of_reelection : ∃ (c₁ c₂ : Cluster Bytes) (v w : String),
      Reaches (Cluster.step journal trio) (Cluster.initial trio fun _ => []) c₁ ∧
      Reaches (Cluster.step journal trio) c₁ c₂ ∧ (c₁.node v).state = .leader ∧
      (c₂.node w).state = .leader ∧ (c₁.node v).currentTerm = (c₂.node w).currentTerm ∧
      v = w := by
  -- "a" is elected, and then "b" runs a campaign of its own that has not reached "a"
  have hrun : ((exec (Cluster.step journal trio) (Cluster.initial trio fun _ => [])
      [.elect "a", .deliver 1, .reply 1 0]).bind fun c₁ =>
        (exec (Cluster.step journal trio) c₁ [.elect "b", .deliver 3]).map fun c₂ =>
          ((c₁.node "a").state, (c₁.node "a").currentTerm, (c₂.node "a").state,
            (c₂.node "a").currentTerm)) = some (.leader, 1, .leader, 1) := by
    decide +kernel
  obtain ⟨c₁, h₁, hrun⟩ := Option.bind_eq_some_iff.mp hrun
  obtain ⟨c₂, h₂, hobs⟩ := Option.map_eq_some_iff.mp hrun
  simp only [Prod.mk.injEq] at hobs
  obtain ⟨hl₁, ht₁, hl₂, ht₂⟩ := hobs
  have hr₁ := Reaches.of_exec h₁
  have hr₂ := Reaches.of_exec h₂
  exact ⟨c₁, c₂, "a", "a", hr₁, hr₂, hl₁, hl₂, ht₁.trans ht₂.symm,
    election_safety journal trio (by decide) _ hr₁ hr₂ (by decide) (by decide) hl₁ hl₂
      (ht₁.trans ht₂.symm)⟩

/-- A node called `""` breaks it: a vote for it looks like no vote, so the voter votes
again in the same term. -/
theorem two_leaders_of_unnamed : ∃ c : Cluster Bytes,
      Reaches (Cluster.step journal trioUnnamed) (Cluster.initial trioUnnamed fun _ => []) c ∧
      (c.node "").state = .leader ∧ (c.node "b").state = .leader ∧
      (c.node "").currentTerm = (c.node "b").currentTerm := by
  -- both campaign in term 1, and "c" votes for both
  have hrun : (exec (Cluster.step journal trioUnnamed) (Cluster.initial trioUnnamed fun _ => [])
      [.elect "", .elect "b", .deliver 1, .reply 1 0, .deliver 3, .reply 3 0]).map
        (fun c => ((c.node "").state, (c.node "b").state, (c.node "").currentTerm,
          (c.node "b").currentTerm)) = some (.leader, .leader, 1, 1) := by
    decide +kernel
  obtain ⟨c, hc, hobs⟩ := Reaches.of_exec_map hrun
  simp only [Prod.mk.injEq] at hobs
  exact ⟨c, hc, hobs.1, hobs.2.1, hobs.2.2.1.trans hobs.2.2.2.symm⟩

end Raft
end BoilerPulse
