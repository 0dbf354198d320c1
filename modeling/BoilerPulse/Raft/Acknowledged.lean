import BoilerPulse.Raft.Commitment
import BoilerPulse.Raft.Hosting
import BoilerPulse.Raft.Proposals

/-!
# Acknowledged writes

`Propose` answers `nil` once its node counts the entry as applied. What that is worth depends on
the role of the node at that moment. A follower may have taken over a commit index that covers
entries of its own which nobody else has (`CommitCovered`); a leader may have done so too, before
its election. But even then the index is no further than what has been committed somewhere
(`CommittedBy`), and by leader completeness a leader has everything up to there in its own log. So
an entry that a *leader* counts as applied is in the log of every leader to come
(`acknowledged_write_survives`); nothing is assumed about the deliveries.

At a node that has stepped down this is not so: at the end of `staleSuffix` (`Commitment`) the poll
of "a" for its 65th entry ends with `nil`, and the leader "c" has another entry there.
-/

namespace BoilerPulse
namespace Raft

open Framework
open TermLog (CommittedPrefix)

variable {σ : Type} {cfg : Config}

/-! ### How far an index may be -/

/-- Something of length `i` or more has been committed by the term `t`. -/
def CommittedBy (cfg : Config) (x : TermLog.State String LogEntry) (t i : ℕ) : Prop :=
  ∃ P, CommittedPrefix LogEntry.term cfg.members x t P ∧ i ≤ P.length

namespace CommittedBy

variable {x x' : TermLog.State String LogEntry} {t u i j : ℕ}

theorem zero : CommittedBy cfg x t 0 :=
  ⟨[], Or.inl rfl, Nat.le_refl 0⟩

theorem mono (h : CommittedBy cfg x t i) (hL : TermLog.Later x x') (ht : t ≤ u) (hi : j ≤ i) :
    CommittedBy cfg x' u j := by
  obtain ⟨P, hP, hle⟩ := h
  exact ⟨P, hP.mono hL ht (List.prefix_refl P), hi.trans hle⟩

/-- **It is in the log of every leader since**, the same entries for all of them. -/
theorem take_tlog (h : CommittedBy cfg x t i) (hI : TermLog.Inv LogEntry.term cfg.members x)
    (hI' : TermLog.Inv LogEntry.term cfg.members x') (hL : TermLog.Later x x') (ht : t ≤ u)
    (hlead : x.leader t ≠ none) (hlead' : x'.leader u ≠ none) :
    i ≤ (x.tlog t).length ∧ (x'.tlog u).take i = (x.tlog t).take i := by
  obtain ⟨P, hP, hle⟩ := h
  have hpre := hP.prefix_tlog hI le_rfl hlead
  have hpre' := (hP.mono hL le_rfl (List.prefix_refl P)).prefix_tlog hI' ht hlead'
  refine ⟨hle.trans hpre.length_le, ?_⟩
  calc (x'.tlog u).take i = P.take i := TermLog.take_eq_of_isPrefix hpre' hle
    _ = (x.tlog t).take i := (TermLog.take_eq_of_isPrefix hpre hle).symm

end CommittedBy

namespace Node

variable {n n' : Node σ}

/-- **How a handler moves the commit index**: it counts replicas, or follows the leader's. -/
theorem handle_commitIndex {hd : Handler} (h : n.handle hd = some n') :
    n'.commitIndex = n.commitIndex ∨ Advanced n' ∨
      ∃ args, hd = .appendEntries args ∧ n'.currentTerm = args.term ∧
        n'.commitIndex ≤ args.leaderCommit := by
  cases handle_cases h with
  | adopted hd t => exact Or.inl (n.adopt_commitIndex t)
  | granted args => exact Or.inl (n.adopt_commitIndex args.term)
  | rejected args => exact Or.inl (n.follow_commitIndex _ _)
  | accepted args hle hc =>
    have hvote := (appendMissing_sameVote (n.follow args.term args.leaderID) args.entries
      (args.prevLogIndex + 1)).trans (advanceCommit_sameVote _ args.leaderCommit)
    have hterm := hvote.currentTerm.trans (n.adopt_currentTerm hle)
    unfold advanceCommit at hterm ⊢
    split
    · next hlt =>
      rw [if_pos hlt] at hterm
      exact Or.inr (Or.inr ⟨args, rfl, hterm, min_le_left _ _⟩)
    · exact Or.inl ((appendMissing_commitIndex _ _).trans (n.follow_commitIndex _ _))
  | campaign => exact Or.inl rfl
  | elected hd hc => exact Or.inl rfl
  | answered hd ha => exact ha.commitIndex.imp_right Or.inl
  | propose batch => exact Or.inl (n.appendLogLocked_commitIndex _)

end Node

/-! ### Every index of the cluster -/

/-- **No index is beyond what is committed**: not the commit index of a node, not what it counts as
applied, and not the commit index on its way to a follower. -/
structure Warranted (cfg : Config) (c : Cluster σ) (x : TermLog.State String LogEntry) : Prop where
  commit : ∀ v ∈ cfg.ids, CommittedBy cfg x (c.node v).currentTerm (c.node v).commitIndex
  applied : ∀ v ∈ cfg.ids, CommittedBy cfg x (c.node v).currentTerm (c.node v).lastApplied
  sent : ∀ call ∈ c.calls, ∀ args, call.request = .appendEntries args →
    CommittedBy cfg x args.term args.leaderCommit

namespace Warranted

variable {M : StateMachine σ} {c c' : Cluster σ} {x x' : TermLog.State String LogEntry}
  {a : Action σ}

theorem initial (cfg : Config) (sm : String → σ) :
    Warranted cfg (Cluster.initial cfg sm) (TermLog.State.initial String LogEntry) where
  commit _ _ := .zero
  applied _ _ := .zero
  sent _ hcall := absurd hcall List.not_mem_nil

/-- The indices of one node after a step. -/
theorem step_node (h : Warranted cfg c x) (hsim : LogSim cfg c x) (hsim' : LogSim cfg c' x')
    (hL : TermLog.Later x x') (hoff : cfg.SnapshotsOff) (hstep : c.step M cfg a = some c')
    {v : String} (hv : v ∈ cfg.ids) :
    CommittedBy cfg x' (c'.node v).currentTerm (c'.node v).commitIndex ∧
      CommittedBy cfg x' (c'.node v).currentTerm (c'.node v).lastApplied := by
  have hterm : (c.node v).currentTerm ≤ (c'.node v).currentTerm := by
    have ht := hL.election.cur v
    rwa [(hsim.1.elect.node v hv).cur, (hsim'.1.elect.node v hv).cur] at ht
  -- an index that was there before is still warranted
  have hkeep : ∀ {i j}, CommittedBy cfg x (c.node v).currentTerm i → j = i →
      CommittedBy cfg x' (c'.node v).currentTerm j :=
    fun hi hj => hi.mono hL hterm hj.le
  cases Cluster.step_server hstep v with
  | idle hw =>
    have hnode : c'.node v = c.node v := hw.node
    exact ⟨hkeep (h.commit v hv) (by rw [hnode]), hkeep (h.applied v hv) (by rw [hnode])⟩
  | event e s ha he hw =>
    have hnode : c'.node v = s.node := hw.node
    cases e with
    | handle hd =>
      obtain ⟨n, hn, rfl⟩ := Option.map_eq_some_iff.mp he
      have happlied := hkeep (h.applied v hv)
        ((congrArg Node.lastApplied hnode).trans (Node.handle_sameSnapshot hn).lastApplied)
      refine ⟨?_, happlied⟩
      rcases Node.handle_commitIndex hn with hci | hadv | ⟨args, rfl, ht, hle⟩
      · exact hkeep (h.commit v hv) ((congrArg Node.commitIndex hnode).trans hci)
      · -- the leader has counted a majority
        have hcom := hsim'.commitNode_of_advanced hv (hnode ▸ hadv)
        exact ⟨_, hcom.committed, (List.length_take_of_le hcom.le).ge⟩
      · -- a follower has taken over the commit index of a request
        cases ha with
        | deliverEntries k call _ hk hr =>
          have hsent := h.sent call (List.mem_of_getElem? hk) args hr
          rw [hnode]
          exact hsent.mono hL ht.ge hle
    | apply =>
      obtain ⟨⟨s', r⟩, hs, rfl⟩ := Option.map_eq_some_iff.mp he
      have hcases := (hsim.1.server v hv).applyStep_cases (hsim.1.node v hv).plain
        (hsim.1.snapshotThreshold hoff hv) hs
      rw [hnode] at hterm hkeep ⊢
      rcases hcases with ⟨-, e, hlt, -, rfl⟩ | ⟨e, -, -, rfl⟩ | ⟨-, rfl | rfl⟩
      · exact ⟨hkeep (h.commit v hv) rfl, (h.commit v hv).mono hL hterm hlt⟩
      · exact ⟨hkeep (h.commit v hv) rfl, hkeep (h.applied v hv) rfl⟩
      · exact ⟨hkeep (h.commit v hv) rfl, hkeep (h.applied v hv) rfl⟩
      · exact ⟨hkeep (h.commit v hv) rfl, hkeep (h.applied v hv) rfl⟩
    | receive k args =>
      cases ha with
      | deliverSnapshot _ call _ hk hr =>
        exact absurd hr ((hsim.1.call k call hk).noSnapshot args)
    | install i =>
      obtain ⟨⟨s', r⟩, hs, -⟩ := Option.map_eq_some_iff.mp he
      exact absurd hs (hsim.1.server v hv).installStep_ne
  | restart sm n _ hn hs =>
    have hnode : c'.node v = n := by rw [Cluster.node, hs]; rfl
    obtain ⟨-, -, hci, hla, -⟩ := (hsim.1.node v hv).plain.newNode_eq hn
    rw [hnode, hci, hla]
    exact ⟨.zero, .zero⟩

theorem step (h : Warranted cfg c x) (hsim : LogSim cfg c x) (hsim' : LogSim cfg c' x')
    (hL : TermLog.Later x x') (hoff : cfg.SnapshotsOff) (hstep : c.step M cfg a = some c') :
    Warranted cfg c' x' where
  commit _ hv := (h.step_node hsim hsim' hL hoff hstep hv).1
  applied _ hv := (h.step_node hsim hsim' hL hoff hstep hv).2
  sent call hcall args hr := by
    rcases Cluster.step_appendEntries_mem hstep hcall hr with
      ⟨call₀, hcall₀, hr₀⟩ | ⟨u, hu, peer, hs⟩
    · exact (h.sent call₀ hcall₀ args hr₀).mono hL le_rfl le_rfl
    · -- the request carries the term and the commit index of its sender
      obtain ⟨-, args', hout, ht, hlc, -⟩ :=
        (c.node u).sendAppendEntriesTo_sent (hsim.1.node u hu).plain hs
      obtain rfl := Node.Outgoing.appendEntries.inj hout
      rw [ht, hlc]
      exact (h.commit u hu).mono hL le_rfl le_rfl

theorem runs {ok : Cluster σ → Action σ → Prop} (hnamed : cfg.Named) (hoff : cfg.SnapshotsOff)
    (h : Warranted cfg c x) (hsim : LogSim cfg c x) (hrun : Runs (Cluster.step M cfg) ok c c') :
    ∃ x', Warranted cfg c' x' ∧ LogSim cfg c' x' ∧ TermLog.Later x x' := by
  induction hrun with
  | refl => exact ⟨x, h, hsim, .refl x⟩
  | tail a _ _ hstep ih =>
    obtain ⟨x₁, h₁, hsim₁, hL₁⟩ := ih
    obtain ⟨x₂, hsim₂, hL₂⟩ := hsim₁.step hnamed hoff hstep
    exact ⟨x₂, h₁.step hsim₁ hsim₂ hL₂ hoff hstep, hsim₂, hL₁.trans hL₂⟩

end Warranted

/-! ### What a leader acknowledges -/

/-- A batch of a leader is in the log of its term. -/
theorem LogSim.tlog_of_batch {M : StateMachine σ} {c c' : Cluster σ}
    {x x' : TermLog.State String LogEntry} (hsim : LogSim cfg c x) (hsim' : LogSim cfg c' x')
    {v : String} {batch : List Bytes} (hv : v ∈ cfg.ids)
    (hstep : c.step M cfg (.propose v batch) = some c') {e : LogEntry}
    (he : e ∈ Node.batchEntries (c.node v).currentTerm ((c.node v).lastLogIndexLocked + 1) batch) :
    0 < e.index ∧ (x'.tlog e.term)[e.index - 1]? = some e := by
  cases Cluster.step_cases hstep with
  | propose _ _ n hu hn =>
    have hplain := (hsim.1.node v hv).plain
    obtain ⟨hterm, hlt, hat⟩ := Node.entryAt_of_mem_batch hplain.dense he
    obtain ⟨hlead, rfl⟩ := Node.appendBatch_eq hn
    have hnode := hsim'.1.node v hv
    simp only [Cluster.node, Cluster.setNode_self] at hnode
    have hstate : ((c.node v).appendLogLocked (Node.batchEntries (c.node v).currentTerm
        ((c.node v).lastLogIndexLocked + 1) batch)).state = .leader := by
      unfold Node.appendLogLocked
      split <;> exact hlead
    have hcur := ((c.node v).appendBatch_sameVote hn).currentTerm
    refine ⟨Nat.zero_lt_of_lt hlt, ?_⟩
    rw [Node.entryAt, hnode.plain.base, if_neg (by omega), Nat.sub_zero] at hat
    rw [hterm.trans hcur.symm, hnode.leader hstate]
    exact hat

/-- **An acknowledged write survives.** A leader appends `e`, and at some later time, when the node
is leading, `waitForApply` finds the entry applied: `Propose` returns `nil`. Then every node that
leads from then on, in a term at or above that of the acknowledgement, has `e` at its index. (A
deposed leader of an older term may still take itself for one.) Ids are not empty and snapshots are
off; nothing is assumed about the deliveries, crashes and elections before and after. -/
theorem acknowledged_write_survives (M : StateMachine σ) (cfg : Config) (hnamed : cfg.Named)
    (hoff : cfg.SnapshotsOff) (sm : String → σ) {c₀ c₁ c c' : Cluster σ} {v w : String}
    {batch : List Bytes} {e : LogEntry} (hv : v ∈ cfg.ids) (hw : w ∈ cfg.ids)
    (h₀ : Reaches (Cluster.step M cfg) (Cluster.initial cfg sm) c₀)
    (hpropose : c₀.step M cfg (.propose v batch) = some c₁)
    (he : e ∈ Node.batchEntries (c₀.node v).currentTerm ((c₀.node v).lastLogIndexLocked + 1) batch)
    (h₁ : Reaches (Cluster.step M cfg) c₁ c) (hlead : (c.node v).state = .leader)
    (hnil : (c.node v).waitForApply e.index e.term = some .applied)
    (h₂ : Reaches (Cluster.step M cfg) c c') (hlead' : (c'.node w).state = .leader)
    (hterm : (c.node v).currentTerm ≤ (c'.node w).currentTerm) :
    (c'.node w).log[e.index - 1]? = some e := by
  obtain ⟨x₀, hb₀, hsim₀, -⟩ := (Warranted.initial cfg sm).runs hnamed hoff (.initial cfg sm) h₀
  obtain ⟨x₁, hsim₁, hL₁⟩ := hsim₀.step hnamed hoff hpropose
  obtain ⟨x, hb, hsim, hL⟩ := (hb₀.step hsim₀ hsim₁ hL₁ hoff hpropose).runs hnamed hoff hsim₁ h₁
  obtain ⟨x', hsim', hL'⟩ := hsim.runs hnamed hoff h₂
  have hnode := hsim.1.node v hv
  have hleader : x.leader (c.node v).currentTerm ≠ none := by
    rw [(hsim.1.elect.node v hv).leader hlead]
    simp
  have hleader' : x'.leader (c'.node w).currentTerm ≠ none := by
    rw [(hsim'.1.elect.node w hw).leader hlead']
    simp
  -- what `v` counts as applied is in its log, and in that of `w`
  obtain ⟨hle, htake⟩ :=
    (hb.applied v hv).take_tlog hsim.2 hsim'.2 hL' hterm hleader hleader'
  rw [hnode.leader hlead] at hle htake
  rw [(hsim'.1.node w hw).leader hlead'] at htake
  obtain ⟨happlied, hat⟩ :=
    Node.waitForApply_applied (hle.trans_eq hnode.plain.lastLogIndexLocked.symm) hnil
  obtain ⟨hpos, htlog⟩ := hsim₀.tlog_of_batch hsim₁ hv hpropose he
  -- the entry of that index and term is the one that was appended
  have hlog : (c.node v).log[e.index - 1]? = some e := by
    have hlt : e.index - 1 < (c.node v).log.length := by omega
    have hget := List.getElem?_eq_getElem hlt
    have ht := hnode.plain.termAtLocked hget
    rw [Nat.sub_add_cancel hpos, hat] at ht
    have hpre := hsim.2.shape.log_consistent v
    rw [hnode.log] at hpre
    have hown := hpre _ _ hget
    rw [← ht, Nat.sub_add_cancel hpos] at hown
    have hmine : ((c.node v).log.take e.index)[e.index - 1]? = (c.node v).log[e.index - 1]? :=
      List.getElem?_take_of_lt (by omega)
    rw [hget] at hmine
    rw [hget, ← TermLog.getElem?_of_isPrefix hown hmine]
    exact TermLog.getElem?_of_isPrefix (hL.tlog e.term) htlog
  have hlt : e.index - 1 < (c.node v).lastApplied := by omega
  calc (c'.node w).log[e.index - 1]?
      = ((c'.node w).log.take (c.node v).lastApplied)[e.index - 1]? :=
        (List.getElem?_take_of_lt hlt).symm
    _ = ((c.node v).log.take (c.node v).lastApplied)[e.index - 1]? := by rw [htake]
    _ = some e := (List.getElem?_take_of_lt hlt).trans hlog

/-- "a" commits and applies its entry, and acknowledges it; then "b" is elected by "c". -/
theorem acknowledged_write_survives_handover :
    ∃ c c' : Cluster Bytes, (c.node "a").waitForApply 1 1 = some .applied ∧
      Reaches (Cluster.step journal trio) c c' ∧ (c'.node "b").state = .leader ∧
      (c'.node "b").currentTerm = 2 ∧ (c'.node "b").log[0]? = some ⟨1, 1, [1]⟩ := by
  have hrun : ((exec (Cluster.step journal trio) (Cluster.initial trio fun _ => [])
      [.elect "a", .deliver 0, .reply 0 0]).bind fun c₀ =>
        (c₀.step journal trio (.propose "a" [[1]])).bind fun c₁ =>
          (exec (Cluster.step journal trio) c₁
            [.send "a" "b", .deliver 2, .reply 2 0, .apply "a", .apply "a"]).bind fun c =>
            (exec (Cluster.step journal trio) c [.elect "b", .deliver 4, .reply 4 0]).map
              fun c' => (((c₀.node "a").currentTerm, (c₀.node "a").lastLogIndexLocked),
                ((c.node "a").state, (c.node "a").currentTerm,
                  (c.node "a").waitForApply 1 1), (c'.node "b").state,
                (c'.node "b").currentTerm)) =
      some ((1, 0), (.leader, 1, some .applied), .leader, 2) := by
    decide +kernel
  obtain ⟨c₀, hc₀, hrun⟩ := Option.bind_eq_some_iff.mp hrun
  obtain ⟨c₁, hc₁, hrun⟩ := Option.bind_eq_some_iff.mp hrun
  obtain ⟨c, hc, hrun⟩ := Option.bind_eq_some_iff.mp hrun
  obtain ⟨c', hc', hobs⟩ := Option.map_eq_some_iff.mp hrun
  simp only [Prod.mk.injEq] at hobs
  obtain ⟨⟨ht₀, hl₀⟩, ⟨hlead, ht, hnil⟩, hlead', ht'⟩ := hobs
  -- the entry of the proposal, as `appendBatch` has made it
  have he : (⟨1, 1, [1]⟩ : LogEntry) ∈ Node.batchEntries (c₀.node "a").currentTerm
      ((c₀.node "a").lastLogIndexLocked + 1) [[1]] := by
    rw [ht₀, hl₀]
    decide
  exact ⟨c, c', hnil, Reaches.of_exec hc', hlead', ht',
    acknowledged_write_survives journal trio (by decide) (by decide) (fun _ => []) (by decide)
      (by decide) (Reaches.of_exec hc₀) hc₁ he (Reaches.of_exec hc) hlead hnil
      (Reaches.of_exec hc') hlead' (by omega)⟩

end Raft
end BoilerPulse
