import BoilerPulse.Framework.TermLogSafety
import BoilerPulse.Raft.ElectionSafety

/-!
# Log replication without snapshots

The cluster with snapshotting disabled refines the abstract replication of
`TermLog`. `LogRel` extends the election relation `ElectRel` by the logs:

* `LogNode` — a node's log, in memory and on storage, is its abstract log; a
  candidate has the log it campaigns with, a leader has the log of its term, and
  its `matchIndex` is backed by acknowledgements;
* `LogCall` — a vote request describes the log its candidate campaigned with, an
  `AppendEntries` carries a piece of the log of its term, and a successful reply to
  one is an acknowledgement.

The step simulation `LogRel.step` answers every step of the cluster by the moves
that answer it in the election, now carrying logs, and by `append` and `accept`.
The heart of it is `splice_accepts`: the append loop of `HandleAppendEntries`, which
skips, truncates and appends, takes over a prefix of the sender's log.
-/

namespace BoilerPulse
namespace Raft

open Framework
open TermLog (Consistent Accepts lastTerm)

variable {σ : Type} {cfg : Config} {M : StateMachine σ}

/-! ### Nodes that never compact -/

/-- The configuration disables snapshotting on every node. -/
def Config.SnapshotsOff (cfg : Config) : Prop :=
  ∀ v ∈ cfg.ids, (cfg.opts v).snapshotThreshold ≤ 0

instance (cfg : Config) : Decidable cfg.SnapshotsOff :=
  inferInstanceAs (Decidable (∀ v ∈ cfg.ids, (cfg.opts v).snapshotThreshold ≤ 0))

/-- A node whose log is complete: nothing was ever compacted. -/
structure Uncompacted (n : Node σ) : Prop where
  base : n.logBaseIndex = 0
  baseTerm : n.logBaseTerm = 0
  snapshot : n.storage.snapshot = none
  stored : n.storage.log = n.log
  indexed : ∀ i e, n.log[i]? = some e → e.index = i + 1

namespace Uncompacted

variable {n n' : Node σ}

theorem of_sameLog (h : Uncompacted n) (hs : SameLog n n') : Uncompacted n' where
  base := hs.base.trans h.base
  baseTerm := hs.baseTerm.trans h.baseTerm
  snapshot := hs.snapshot.trans h.snapshot
  stored := by rw [hs.storedLog, hs.log]; exact h.stored
  indexed := by rw [hs.log]; exact h.indexed

theorem withLog (h : Uncompacted n) {l : List LogEntry}
    (hl : ∀ i e, l[i]? = some e → e.index = i + 1) : Uncompacted (n.withLog l) :=
  ⟨h.base, h.baseTerm, h.snapshot, rfl, hl⟩

theorem dense (h : Uncompacted n) : n.Dense := by
  intro i e he
  rw [h.base, Nat.zero_add]
  exact h.indexed i e he

theorem lastLogIndexLocked (h : Uncompacted n) : n.lastLogIndexLocked = n.log.length := by
  rw [h.dense.lastLogIndexLocked, h.base, Nat.zero_add]

theorem lastLogTermLocked (h : Uncompacted n) :
    n.lastLogTermLocked = lastTerm LogEntry.term n.log := by
  unfold Node.lastLogTermLocked lastTerm
  cases n.log.getLast? with
  | none => exact h.baseTerm
  | some e => rfl

theorem termAtLocked (h : Uncompacted n) {i : ℕ} {e : LogEntry} (he : n.log[i]? = some e) :
    n.termAtLocked (i + 1) = e.term := by
  refine h.dense.termAtLocked (by rw [h.base]; omega) ?_
  rw [h.base, Nat.sub_zero, Nat.add_sub_cancel]
  exact he

theorem termAtLocked_of_lt (h : Uncompacted n) {i : ℕ} (hi : n.log.length < i) :
    n.termAtLocked i = 0 := by
  unfold Node.termAtLocked
  rw [h.lastLogIndexLocked, if_pos (Or.inr hi)]

/-- The append loop, started right after `prev`, splices. -/
theorem appendMissing (h : Uncompacted n) (prev : ℕ) (es : List LogEntry) :
    n.appendMissing (prev + 1) es = n.withLog (Node.splice n.log prev es) := by
  rw [Node.appendMissing_eq h.dense h.stored es (prev + 1) (by rw [h.base]; omega), h.base,
    Nat.sub_zero, Nat.add_sub_cancel]

/-- A request that passes the checks splices its entries into the log, and then moves the commit
index. -/
theorem handleAppendEntries_accepted (h : Uncompacted n) {args : AppendEntriesArgs}
    (hle : n.currentTerm ≤ args.term)
    (hcheck : n.checkPrevLog args.prevLogIndex args.prevLogTerm = none) :
    n.handleAppendEntries args = (((n.follow args.term args.leaderID).withLog
        (Node.splice n.log args.prevLogIndex args.entries)).advanceCommit args.leaderCommit,
        ⟨args.term, true, 0⟩) := by
  have hsame := n.follow_sameLog args.term args.leaderID
  obtain ⟨hstale, -⟩ | ⟨-, hne, -⟩ | ⟨-, -, heq⟩ := n.handleAppendEntries_cases args
  · exact absurd hle (not_le.mpr hstale)
  · exact absurd hcheck hne
  · rw [heq, (h.of_sameLog hsame).appendMissing, hsame.log]

end Uncompacted

/-! ### What an `AppendEntries` carries -/

/-- A request carries a piece of the log `L`: the entries after position `prev`, and the
term of the entry before them. A `prev` past the end of the log is described by the
term `0`, which no entry has, and carries nothing. -/
def Sent (L : List LogEntry) (prev prevTerm : ℕ) (es : List LogEntry) : Prop :=
  (prev ≤ L.length ∧ (∀ i e, prev = i + 1 → L[i]? = some e → prevTerm = e.term) ∧
    es <+: L.drop prev) ∨
  (0 < prev ∧ prevTerm = 0 ∧ es = [])

theorem Sent.mono {L L' : List LogEntry} {prev prevTerm : ℕ} {es : List LogEntry}
    (h : Sent L prev prevTerm es) (hL : L <+: L') : Sent L' prev prevTerm es := by
  rcases h with ⟨hlen, hterm, hes⟩ | h
  · refine Or.inl ⟨hlen.trans hL.length_le, fun i e hi he => ?_, hes.trans (hL.drop prev)⟩
    have hi' : i < L.length := by omega
    have hL' := TermLog.getElem?_of_isPrefix hL (List.getElem?_eq_getElem hi')
    rw [hL'] at he
    exact hterm i e hi (by rw [List.getElem?_eq_getElem hi']; exact he)
  · exact Or.inr h

/-- **What a leader sends** is a piece of its log. -/
theorem Node.sendAppendEntriesTo_sent {n : Node σ} (hn : Uncompacted n) {peer : String}
    {out : Node.Outgoing} (h : n.sendAppendEntriesTo peer = some out) :
    n.state = .leader ∧ ∃ args, out = .appendEntries args ∧ args.term = n.currentTerm ∧
      args.leaderCommit = n.commitIndex ∧
      Sent n.log args.prevLogIndex args.prevLogTerm args.entries := by
  unfold Node.sendAppendEntriesTo at h
  split at h
  · cases h
  · next hlead =>
    have hlead : n.state = .leader := not_not.mp hlead
    simp only at h
    -- `nextIdx` is at least `1`, so nothing is ever compacted from under it
    generalize hnext : (if n.nextIndex peer = 0 then 1 else n.nextIndex peer) = next at h
    have hpos : 0 < next := by
      rw [← hnext]
      split
      · exact Nat.one_pos
      · omega
    rw [if_neg (by rw [hn.base]; omega), hn.base, hn.lastLogIndexLocked] at h
    cases h
    refine ⟨hlead, _, rfl, rfl, rfl, ?_⟩
    simp only
    rw [Nat.sub_zero]
    -- `nextIndex` may point past the log: then nothing is sent, after term `0`
    by_cases hle : next ≤ n.log.length + 1
    · refine Or.inl ⟨by omega, fun i e hi he => ?_, ?_⟩
      · rw [hi]
        exact hn.termAtLocked he
      · split
        · exact List.take_prefix _ _
        · exact List.nil_prefix
    · refine Or.inr ⟨by omega, hn.termAtLocked_of_lt (by omega), if_neg (by omega)⟩

/-! ### The append loop takes over the sender's log -/

/-- **The append loop accepts.** Two consistent logs that agree up to `prev`: splicing
a piece of `L` into `l` takes over `L` up to the end of the piece. -/
theorem splice_accepts {tlog : ℕ → List LogEntry} {L l : List LogEntry}
    (hL : Consistent LogEntry.term tlog L) (hl : Consistent LogEntry.term tlog l)
    (es : List LogEntry) : ∀ prev, prev ≤ L.length → L.take prev = l.take prev →
      prev ≤ l.length → es <+: L.drop prev →
      Accepts L (prev + es.length) l (Node.splice l prev es) := by
  -- along the recursion of `splice`: the agreed part grows by one entry at a time
  induction es with
  | nil =>
    intro prev _ hagree _ _
    refine Or.inl ⟨?_, rfl⟩
    rw [List.length_nil, Nat.add_zero, hagree]
    exact List.take_prefix _ _
  | cons e es ih =>
    intro prev hprev hagree hlen hes
    have hget : L[prev]? = some e := by
      have h0 := TermLog.getElem?_of_isPrefix (i := 0) hes (List.getElem?_cons_zero ..)
      rwa [List.getElem?_drop, Nat.add_zero] at h0
    have hcut : L.take (prev + (e :: es).length) = l.take prev ++ (e :: es) := by
      rw [List.take_add, hagree, ← List.prefix_iff_eq_take.mp hes]
    unfold Node.splice
    cases hx : l[prev]? with
    | none =>
      -- the log ends here: everything carried is new
      have hend : prev = l.length := le_antisymm hlen (List.getElem?_eq_none_iff.mp hx)
      refine Or.inr ⟨fun hp => ?_, ?_⟩
      · have := hp.length_le
        rw [hcut, List.length_append, List.length_take, List.length_cons] at this
        omega
      · rw [hcut, hend, List.take_length]
    | some x =>
      simp only
      by_cases ht : x.term = e.term
      · -- the entry is there already, and so is everything before it
        rw [if_pos ht, List.length_cons,
          show prev + (es.length + 1) = prev + 1 + es.length by omega]
        have hlt := (List.getElem?_eq_some_iff.mp hget).1
        refine ih (prev + 1) hlt (hL.matching hl hget hx ht.symm)
          (List.getElem?_eq_some_iff.mp hx).1 ?_
        obtain ⟨K, hK⟩ := hes
        refine ⟨K, ?_⟩
        rw [← List.drop_drop, ← hK]
        rfl
      · -- the entry conflicts: it and everything after it is replaced
        rw [if_neg ht]
        refine Or.inr ⟨fun hp => ?_, hcut.symm⟩
        have hx' : l[prev]? = some e := by
          refine TermLog.getElem?_of_isPrefix hp ?_
          rw [List.getElem?_take_of_lt (by rw [List.length_cons]; omega)]
          exact hget
        rw [hx] at hx'
        exact ht (congrArg LogEntry.term (Option.some.inj hx'))

/-- A request that passes the consistency check agrees with the receiver's log up to its
`prev`, if no entry has the term `0`. -/
theorem Sent.agree {n : Node σ} (hn : Uncompacted n) {tlog : ℕ → List LogEntry}
    {L : List LogEntry} (hL : Consistent LogEntry.term tlog L)
    (hl : Consistent LogEntry.term tlog n.log) (hpos : ∀ e ∈ n.log, 0 < e.term)
    {prev prevTerm : ℕ} {es : List LogEntry} (hsent : Sent L prev prevTerm es)
    (hcheck : n.checkPrevLog prev prevTerm = none) :
    prev ≤ L.length ∧ L.take prev = n.log.take prev ∧ prev ≤ n.log.length ∧ es <+: L.drop prev := by
  rw [n.checkPrevLog_eq_none_iff, hn.lastLogIndexLocked] at hcheck
  cases prev with
  | zero =>
    rcases hsent with ⟨-, -, hes⟩ | ⟨h0, -⟩
    · exact ⟨Nat.zero_le _, rfl, Nat.zero_le _, hes⟩
    · exact absurd h0 (lt_irrefl 0)
  | succ i =>
    obtain ⟨-, hi, hterm⟩ := hcheck.resolve_left (Nat.succ_ne_zero i)
    have hx := List.getElem?_eq_getElem (show i < n.log.length from hi)
    rw [hn.termAtLocked hx] at hterm
    rcases hsent with ⟨hlen, hprev, hes⟩ | ⟨-, h0, -⟩
    · have hy := List.getElem?_eq_getElem (show i < L.length from hlen)
      have heq := hprev i _ rfl hy
      exact ⟨hlen, hL.matching hl hy hx (heq.symm.trans hterm.symm), hi, hes⟩
    · -- a `prev` past the sender's log matches no entry
      have := hpos _ (List.mem_of_getElem? hx)
      omega

/-! ### The refinement relation -/

/-- A node and its share of the abstract replication. -/
structure LogNode (x : TermLog.State String LogEntry) (v : String) (n : Node σ) : Prop where
  plain : Uncompacted n
  log : x.log v = n.log
  candidate : n.state = .candidate → x.cand v n.currentTerm = some n.log
  leader : n.state = .leader → x.tlog n.currentTerm = n.log
  matched : n.state = .leader → ∀ p, n.matchIndex p ≤ x.ack p n.currentTerm

/-- A process none of whose goroutines handles a snapshot. -/
structure NoSnapshotWork (s : Server σ) : Prop where
  installs : s.installs = []
  sends : s.snapshotSends = []
  applier : s.applier = .idle ∨ (∃ e, s.applier = .applying e) ∨ s.applier = .caughtUp

theorem NoSnapshotWork.applier_ne {s : Server σ} (h : NoSnapshotWork s) {a : Applier}
    (h₁ : a ≠ .idle) (h₂ : ∀ e, a ≠ .applying e) (h₃ : a ≠ .caughtUp) : s.applier ≠ a := by
  rintro rfl
  rcases h.applier with ha | ⟨e, ha⟩ | ha
  · exact h₁ ha
  · exact h₂ e ha
  · exact h₃ ha

/-- The goroutines go on while a handler sets the node or counts a vote. -/
theorem NoSnapshotWork.set {s : Server σ} (h : NoSnapshotWork s) (n : Node σ) (votes : ℕ → ℕ) :
    NoSnapshotWork { s with node := n, votes := votes } :=
  ⟨h.installs, h.sends, h.applier⟩

theorem NoSnapshotWork.installStep_ne {s s' : Server σ} (h : NoSnapshotWork s) {i : ℕ}
    {r : Option (ℕ × InstallSnapshotReply)} :
    s.installStep M i ≠ some (s', r) := by
  unfold Server.installStep
  rw [h.installs]
  simp

/-- A call and what the abstract replication knows about it. -/
structure LogCall (x : TermLog.State String LogEntry) (call : Call) : Prop where
  /-- A vote request describes the campaign log of its caller. -/
  vote : ∀ args, call.request = .requestVote args →
    ∃ L, x.cand call.caller args.term = some L ∧ args.lastLogIndex = L.length ∧
      args.lastLogTerm = lastTerm LogEntry.term L
  /-- An `AppendEntries` is sent by the leader of its term, out of its log. -/
  entries : ∀ args, call.request = .appendEntries args → x.leader args.term = some call.caller ∧
      Sent (x.tlog args.term) args.prevLogIndex args.prevLogTerm args.entries
  /-- A successful reply acknowledges all that was carried. -/
  acked : ∀ args r, call.request = .appendEntries args → Reply.appendEntries r ∈ call.replies →
    r.success = true → args.prevLogIndex + args.entries.length ≤ x.ack call.peer args.term
  noSnapshot : ∀ args, call.request ≠ .installSnapshot args

/-- **The refinement relation** between a cluster that takes no snapshots and the abstract
replication. -/
structure LogRel (cfg : Config) (c : Cluster σ) (x : TermLog.State String LogEntry) : Prop where
  elect : ElectRel cfg c x.toState
  node : ∀ v ∈ cfg.ids, LogNode x v (c.node v)
  server : ∀ v ∈ cfg.ids, NoSnapshotWork (c.servers v)
  call : ∀ (k : ℕ) call, c.calls[k]? = some call → LogCall x call
  indexed : ∀ t i e, (x.tlog t)[i]? = some e → e.index = i + 1

theorem LogRel.initial (cfg : Config) (sm : String → σ) :
    LogRel cfg (Cluster.initial cfg sm) (TermLog.State.initial String LogEntry) where
  elect := ElectRel.initial cfg sm
  node := fun _ _ =>
    { plain := ⟨rfl, rfl, rfl, rfl, nofun⟩
      log := rfl
      candidate := nofun
      leader := nofun
      matched := fun _ _ => le_rfl }
  server := fun _ _ => ⟨rfl, rfl, Or.inl rfl⟩
  call := nofun
  indexed := nofun

/-! ### Preservation: nodes and calls -/

section Preserve

variable {x x' : TermLog.State String LogEntry} {v : String} {n n' : Node σ} {call : Call}

/-- An abstract move of another node. -/
theorem LogNode.frame {u : String} (h : LogNode x u n) (hF : TermLog.Frame v x x')
    (hL : TermLog.Later x x') (hu : u ≠ v)
    (hlead : n.state = .leader → x.leader n.currentTerm = some u) : LogNode x' u n where
  plain := h.plain
  log := (hF.log u hu).trans h.log
  candidate := fun hc => hL.cand _ _ _ (h.candidate hc)
  leader := fun hl => (hF.tlog u _ hu (hlead hl)).trans (h.leader hl)
  matched := fun hl p => (h.matched hl p).trans (hL.ack p _)

/-- A step of the node itself that keeps term and log. -/
theorem LogNode.same (h : LogNode x v n) (ht : n'.currentTerm = n.currentTerm)
    (hst : n'.state = n.state ∨ n'.state = .follower) (hs : SameLog n n')
    (hm : n'.state = .leader → n.state = .leader → ∀ p, n'.matchIndex p ≤ x.ack p n.currentTerm) :
    LogNode x v n' := by
  -- a role is kept or dropped
  have hrole : ∀ {r : State}, r ≠ .follower → n'.state = r → n.state = r := by
    intro r hr hn'
    rcases hst with h' | h'
    · exact h'.symm.trans hn'
    · exact absurd (hn'.symm.trans h') hr
  refine ⟨h.plain.of_sameLog hs, h.log.trans hs.log.symm, fun hc => ?_, fun hl => ?_, fun hl => ?_⟩
  · rw [ht, hs.log]
    exact h.candidate (hrole (by simp) hc)
  · rw [ht, hs.log]
    exact h.leader (hrole (by simp) hl)
  · rw [ht]
    exact hm hl (hrole (by simp) hl)

/-- A follower owes nothing but its log. -/
theorem LogNode.of_follower (hplain : Uncompacted n) (hlog : x.log v = n.log)
    (hst : n.state = .follower) : LogNode x v n where
  plain := hplain
  log := hlog
  candidate := fun hc => nomatch hst.symm.trans hc
  leader := fun hl => nomatch hst.symm.trans hl
  matched := fun hl => nomatch hst.symm.trans hl

theorem LogNode.adopt (h : LogNode x v n) (t : ℕ) : LogNode (x.reach v t) v (n.adopt t) := by
  rcases Nat.lt_or_ge n.currentTerm t with hlt | hle
  · rw [n.adopt_of_lt hlt]
    have hs := n.becomeFollowerLocked_sameLog t
    rw [n.becomeFollowerLocked_of_lt hlt] at hs ⊢
    exact .of_follower (h.plain.of_sameLog hs) h.log rfl
  · rw [n.adopt_of_le hle]
    exact ⟨h.plain, h.log, h.candidate, h.leader, h.matched⟩

/-- A follower takes over a log, and moves its commit index. -/
theorem LogNode.accept (h : LogNode x v n) (hst : n.state = .follower) {l : List LogEntry}
    (hindexed : ∀ i e, l[i]? = some e → e.index = i + 1) (m k : ℕ) :
    LogNode (x.accept v m l) v ((n.withLog l).advanceCommit k) := by
  have hs := (n.withLog l).advanceCommit_sameLog k
  refine .of_follower ((h.plain.withLog hindexed).of_sameLog hs) ?_ ?_
  · rw [hs.log]
    exact Function.update_self ..
  · rw [Node.advanceCommit_state]
    exact hst

theorem LogCall.later (h : LogCall x call) (hL : TermLog.Later x x') :
    LogCall x' call where
  vote := by
    intro args hr
    obtain ⟨L, hc, hi, ht⟩ := h.vote args hr
    exact ⟨L, hL.cand _ _ _ hc, hi, ht⟩
  entries := fun args hr =>
    ⟨hL.election.leader _ _ (h.entries args hr).1, (h.entries args hr).2.mono (hL.tlog _)⟩
  acked := fun args r hr hm hs => (h.acked args r hr hm hs).trans (hL.ack _ _)
  noSnapshot := h.noSnapshot

theorem LogCall.close (h : LogCall x call) :
    LogCall x { call with waiting := false } :=
  ⟨h.vote, h.entries, h.acked, h.noSnapshot⟩

theorem LogCall.addReply (h : LogCall x call) {r : Reply}
    (hr : ∀ args ra, call.request = .appendEntries args → r = .appendEntries ra →
      ra.success = true → args.prevLogIndex + args.entries.length ≤ x.ack call.peer args.term) :
    LogCall x { call with replies := call.replies ++ [r] } where
  vote := h.vote
  entries := h.entries
  acked := by
    intro args ra hreq hmem hs
    rcases List.mem_append.mp hmem with hm | hm
    · exact h.acked args ra hreq hm hs
    · exact hr args ra hreq (List.mem_singleton.mp hm).symm hs
  noSnapshot := h.noSnapshot

/-- A step of the process `v` preserves the relation if it does so in the election, at
`v` itself, and for the calls. -/
theorem LogRel.act {c c' : Cluster σ} {s : Server σ} (h : LogRel cfg c x)
    (hE : ElectRel cfg c' x'.toState) (hF : TermLog.Frame v x x') (hL : TermLog.Later x x')
    (hservers : c'.servers = Function.update c.servers v s)
    (hnode : LogNode x' v s.node) (hserver : NoSnapshotWork s)
    (hcall : ∀ (k : ℕ) call, c'.calls[k]? = some call → LogCall x' call)
    (hindexed : ∀ t i e, (x'.tlog t)[i]? = some e → e.index = i + 1) : LogRel cfg c' x' where
  elect := hE
  node := Cluster.forall_servers (P := fun u s => LogNode x' u s.node) hservers (fun _ => hnode)
    fun u hu huv => (h.node u hu).frame hF hL huv (h.elect.node u hu).leader
  server := Cluster.forall_servers (P := fun _ => NoSnapshotWork) hservers (fun _ => hserver)
    fun u hu _ => h.server u hu
  call := hcall
  indexed := hindexed

end Preserve

/-! ### The moves of the replication -/

section Moves

variable {c : Cluster σ} {x : TermLog.State String LogEntry} {v : String} {M : StateMachine σ}
  {call : Call} {args : AppendEntriesArgs} {n : Node σ} {k : ℕ}

theorem LogRel.snapshotThreshold (h : LogRel cfg c x) (hoff : cfg.SnapshotsOff) (hv : v ∈ cfg.ids)
    : (c.node v).opts.snapshotThreshold ≤ 0 := by
  rw [(h.elect.node v hv).opts]
  exact hoff v hv

/-- **An election starts**: the candidate campaigns with its log. -/
theorem LogRel.campaign (h : LogRel cfg c x) (hI : TermLog.Inv LogEntry.term cfg.members x)
    (hnamed : cfg.Named) (hv : v ∈ cfg.ids) :
    LogRel cfg (c.campaign v) (x.campaign v) := by
  have hn := h.node v hv
  have hL := TermLog.Step.later hI.shape (.campaign v)
  have hplain : Uncompacted (c.node v).startElectionLocked :=
    hn.plain.of_sameLog ⟨rfl, rfl, rfl, rfl, rfl⟩
  -- the log it campaigns with is the one it has
  have hcand : (x.campaign v).cand v (c.node v).startElectionLocked.currentTerm =
      some (c.node v).log := by
    change Election.setAt x.cand v (x.cur v + 1) (some (x.log v)) v ((c.node v).currentTerm + 1) = _
    rw [(h.elect.node v hv).cur, hn.log]
    exact Election.setAt_self _ _ _ _
  refine h.act (h.elect.campaign hI.shape.election hnamed hv) (TermLog.Frame.campaign x v) hL rfl
    ⟨hplain, hn.log, fun _ => hcand, nofun, nofun⟩ ((h.server v hv).set _ _) ?_ h.indexed
  refine calls_append (fun k call hk => (h.call k call hk).later hL) ?_
  intro call hmem
  obtain ⟨p, -, rfl⟩ := List.mem_map.mp hmem
  refine ⟨fun args hr => ?_, nofun, nofun, fun args => by simp [Call.new]⟩
  obtain rfl := Request.requestVote.inj hr
  exact ⟨_, hcand, hplain.lastLogIndexLocked, hplain.lastLogTermLocked⟩

/-- **A batch is appended**: the leader extends the log of its term. -/
theorem LogRel.propose (h : LogRel cfg c x) (hI : TermLog.Inv LogEntry.term cfg.members x)
    (hv : v ∈ cfg.ids) {batch : List Bytes} (hn : (c.node v).appendBatch batch = some n) :
    ∃ x', TermLog.Step LogEntry.term cfg.members x x' ∧ LogRel cfg (c.setNode v n) x' := by
  have hE := h.elect.setNode_quiet hI.shape.election hv ((c.node v).appendBatch_sameVote hn)
  have hold := h.node v hv
  have hcur := (h.elect.node v hv).cur
  obtain ⟨hlead, rfl⟩ := Node.appendBatch_eq hn
  generalize hes : Node.batchEntries (c.node v).currentTerm
    ((c.node v).lastLogIndexLocked + 1) batch = es at hE ⊢
  rw [Node.appendLogLocked_eq hold.plain.stored] at hE ⊢
  have hterms : ∀ e ∈ es, e.term = x.cur v := by
    intro e he
    obtain ⟨i, hi⟩ := List.mem_iff_getElem?.mp he
    rw [← hes] at hi
    exact (Node.batchEntries_getElem? batch hi).1.trans hcur.symm
  have hleader : x.leader (x.cur v) = some v := by
    rw [hcur]; exact (h.elect.node v hv).leader hlead
  have htlog : x.tlog (x.cur v) = (c.node v).log := by rw [hcur]; exact hold.leader hlead
  have hstep : TermLog.Step LogEntry.term cfg.members x (x.append v es) :=
    .append v es hleader (hold.log.trans htlog.symm) hterms
  have hL := hstep.later hI.shape
  -- the new entries continue the numbering
  have hindexed : ∀ i e, ((c.node v).log ++ es)[i]? = some e → e.index = i + 1 := by
    intro i e he
    by_cases hi : i < (c.node v).log.length
    · rw [List.getElem?_append_left hi] at he
      exact hold.plain.indexed i e he
    · rw [List.getElem?_append_right (by omega), ← hes] at he
      have := (Node.batchEntries_getElem? batch he).2
      rw [hold.plain.lastLogIndexLocked] at this
      omega
  have htlog' : (x.append v es).tlog (x.cur v) = (c.node v).log ++ es := by
    rw [← htlog]; exact Function.update_self ..
  refine ⟨_, hstep, h.act hE (TermLog.Frame.append es hleader) hL rfl ?_
    ((h.server v hv).set _ _) (fun k call hk => (h.call k call hk).later hL) ?_⟩
  · refine ⟨hold.plain.withLog hindexed, ?_, fun hc => ?_, fun _ => ?_, fun _ p => ?_⟩
    · rw [show (x.append v es).log v = x.log v ++ es from Function.update_self .., hold.log]
      rfl
    · cases hlead.symm.trans hc
    · rw [← htlog', hcur]
      rfl
    · exact (hold.matched hlead p).trans (hL.ack p _)
  · -- only the log of the leader's term was extended
    intro t
    by_cases ht : t = x.cur v
    · subst ht; rw [htlog']; exact hindexed
    · rw [show (x.append v es).tlog t = x.tlog t from Function.update_of_ne ht ..]
      exact h.indexed t

theorem LogNode.handleRequestVote (h : LogNode x v n) (args : RequestVoteArgs) :
    LogNode (x.reach v args.term) v (n.handleRequestVote args).1 := by
  have hadopt := h.adopt args.term
  rcases n.handleRequestVote_cases args with ⟨hlt, heq⟩ | ⟨-, heq⟩ | ⟨-, -, -, heq⟩
  · rw [n.adopt_of_le hlt.le] at hadopt
    rw [heq]
    exact hadopt
  · rw [heq]
    exact hadopt
  · rw [heq]
    exact hadopt.same rfl (Or.inl rfl) ⟨rfl, rfl, rfl, rfl, rfl⟩ fun _ hl => hadopt.matched hl

/-- **A vote request is handled.** A vote is granted to a log at least as up to date as
the voter's. -/
theorem LogRel.deliverVote (h : LogRel cfg c x) (hI : TermLog.Inv LogEntry.term cfg.members x)
    (hnamed : cfg.Named) {args : RequestVoteArgs} (hk : c.calls[k]? = some call)
    (hr : call.request = .requestVote args) :
    ∃ x', Relation.ReflTransGen (TermLog.Step LogEntry.term cfg.members) x x' ∧
      LogRel cfg ((c.setNode call.peer ((c.node call.peer).handleRequestVote args).1).addReply k
        (.requestVote ((c.node call.peer).handleRequestVote args).2)) x' := by
  set c' := (c.setNode call.peer ((c.node call.peer).handleRequestVote args).1).addReply k
    (.requestVote ((c.node call.peer).handleRequestVote args).2) with hc'
  have hp := h.elect.peer_mem hk
  have hnode := (h.node _ hp).handleRequestVote args
  -- whatever the election answers, logs and acknowledgements stay as they are
  have hact : ∀ {x'}, Relation.ReflTransGen (TermLog.Step LogEntry.term cfg.members) x x' →
      TermLog.Frame call.peer x x' → x'.tlog = x.tlog →
      LogNode x' call.peer ((c.node call.peer).handleRequestVote args).1 →
      ElectRel cfg c' x'.toState → LogRel cfg c' x' := by
    intro x' hsteps hF htlog hn hE
    have hL := (hI.steps hsteps).2
    refine h.act hE hF hL rfl hn ((h.server _ hp).set _ _) ?_ (htlog ▸ h.indexed)
    exact calls_modify k (fun j call' hj => (h.call j call' hj).later hL) fun call' _ hc =>
      hc.addReply nofun
  rcases h.elect.deliverVote hI.shape.election hnamed hk hr with hE | ⟨hle, hlog, hfree, hE⟩
  · exact ⟨_, x.reach_steps _ _, hact (x.reach_steps _ _) (TermLog.Frame.reach x _ _) rfl hnode hE⟩
  · obtain ⟨L, hcand, hidx, hterm⟩ := (h.call k call hk).vote args hr
    have hcur : (x.reach call.peer args.term).cur call.peer = args.term :=
      x.toState.reach_cur_self (by rw [(h.elect.node _ hp).cur]; exact hle)
    -- the handler's comparison is the abstract one
    have hadopt := ((h.node _ hp).adopt args.term).plain
    have hup : TermLog.UpToDate LogEntry.term L (x.log call.peer) := by
      rw [hadopt.lastLogTermLocked, hadopt.lastLogIndexLocked, hidx, hterm,
        ((c.node call.peer).adopt_sameLog args.term).log, ← (h.node _ hp).log] at hlog
      exact hlog
    have hsteps : Relation.ReflTransGen (TermLog.Step LogEntry.term cfg.members) x
        ((x.reach call.peer args.term).grant call.peer call.caller) := by
      refine (x.reach_steps _ _).tail (.grant _ _ L ?_ ?_ hup)
      · rw [hcur]; exact hfree
      · rw [hcur]; exact hcand
    refine ⟨_, hsteps, hact hsteps (TermLog.Frame.reach_grant x _ _ _) rfl ?_ hE⟩
    exact ⟨hnode.plain, hnode.log, hnode.candidate, hnode.leader, hnode.matched⟩

/-- The log after a request that passed the consistency check takes over the leader's. -/
theorem LogRel.accepts (h : LogRel cfg c x) (hI : TermLog.Inv LogEntry.term cfg.members x)
    (hk : c.calls[k]? = some call) (hr : call.request = .appendEntries args)
    (hcheck : (c.node call.peer).checkPrevLog args.prevLogIndex args.prevLogTerm = none) :
    args.prevLogIndex + args.entries.length ≤ (x.tlog args.term).length ∧
      args.entries <+: (x.tlog args.term).drop args.prevLogIndex ∧
      Accepts (x.tlog args.term) (args.prevLogIndex + args.entries.length) (c.node call.peer).log
        (Node.splice (c.node call.peer).log args.prevLogIndex args.entries) := by
  have hn := h.node _ (h.elect.peer_mem hk)
  have hl : Consistent LogEntry.term x.tlog (c.node call.peer).log :=
    hn.log ▸ hI.shape.log_consistent call.peer
  have hpos : ∀ e ∈ (c.node call.peer).log, 0 < e.term := by
    intro e he
    obtain ⟨i, hi⟩ := List.mem_iff_getElem?.mp he
    exact hI.shape.leader_pos _ (hI.shape.leader_of_entry hl hi)
  obtain ⟨hlen, hagree, hlen', hes⟩ := ((h.call k call hk).entries args hr).2.agree hn.plain
    (hI.shape.tlog_consistent args.term) hl hpos hcheck
  refine ⟨?_, hes, splice_accepts (hI.shape.tlog_consistent args.term) hl args.entries _ hlen
    hagree hlen' hes⟩
  have := hes.length_le
  rw [List.length_drop] at this
  omega

/-- A log that takes over part of the log of a term is numbered: it is the old one, or a
piece of the term's. -/
theorem LogRel.indexed_of_accepts (h : LogRel cfg c x) (hv : v ∈ cfg.ids) {t m : ℕ}
    {l : List LogEntry} (ha : Accepts (x.tlog t) m (c.node v).log l) :
    ∀ i e, l[i]? = some e → e.index = i + 1 := by
  rcases ha with ⟨-, rfl⟩ | ⟨-, rfl⟩
  · exact (h.node v hv).plain.indexed
  · exact fun i e he => h.indexed t i e (TermLog.getElem?_of_isPrefix (List.take_prefix _ _) he)

/-- **An `AppendEntries` is handled**: the peer adopts the term, and a request that
passes the consistency check is accepted and acknowledged. -/
theorem LogRel.deliverEntries (h : LogRel cfg c x) (hI : TermLog.Inv LogEntry.term cfg.members x)
    (hk : c.calls[k]? = some call) (hr : call.request = .appendEntries args) :
    ∃ x', Relation.ReflTransGen (TermLog.Step LogEntry.term cfg.members) x x' ∧
      LogRel cfg ((c.setNode call.peer ((c.node call.peer).handleAppendEntries args).1).addReply k
        (.appendEntries ((c.node call.peer).handleAppendEntries args).2)) x' := by
  have hp := h.elect.peer_mem hk
  have hn := h.node _ hp
  have hE := (h.elect.setNode hI.shape.election hp args.term
    ((c.node call.peer).handleAppendEntries_sameVote args)).addReply k
    (r := .appendEntries ((c.node call.peer).handleAppendEntries args).2) (by simp)
  -- the three outcomes differ in the peer's log and in what it acknowledges
  have hact : ∀ {x'}, Relation.ReflTransGen (TermLog.Step LogEntry.term cfg.members) x x' →
      x'.toState = x.toState.reach call.peer args.term → TermLog.Frame call.peer x x' →
      x'.tlog = x.tlog → LogNode x' call.peer ((c.node call.peer).handleAppendEntries args).1 →
      (((c.node call.peer).handleAppendEntries args).2.success = true →
        args.prevLogIndex + args.entries.length ≤ x'.ack call.peer args.term) →
      LogRel cfg ((c.setNode call.peer ((c.node call.peer).handleAppendEntries args).1).addReply k
        (.appendEntries ((c.node call.peer).handleAppendEntries args).2)) x' := by
    intro x' hsteps hto hF htlog hnode hack
    have hL := (hI.steps hsteps).2
    refine h.act (hto ▸ hE) hF hL rfl hnode ((h.server _ hp).set _ _) ?_ (htlog ▸ h.indexed)
    refine calls_modify k (fun j call' hj => (h.call j call' hj).later hL) fun call' hk' hc =>
      hc.addReply fun args' ra hreq hra hs => ?_
    obtain rfl : call' = call := Option.some.inj (hk'.symm.trans hk)
    obtain rfl : args = args' := Request.appendEntries.inj (hr.symm.trans hreq)
    obtain rfl := Reply.appendEntries.inj hra
    exact hack hs
  have hfollow : LogNode (x.reach call.peer args.term) call.peer
      ((c.node call.peer).follow args.term args.leaderID) :=
    (hn.adopt args.term).same rfl (Or.inr rfl) ⟨rfl, rfl, rfl, rfl, rfl⟩ nofun
  rcases (c.node call.peer).handleAppendEntries_cases args with
    ⟨hlt, heq⟩ | ⟨-, -, i, heq⟩ | ⟨hle, hcheck, -⟩
  · -- stale: nothing happens
    have hadopt := hn.adopt args.term
    rw [(c.node call.peer).adopt_of_le hlt.le] at hadopt
    refine ⟨_, x.reach_steps _ _,
      hact (x.reach_steps _ _) rfl (TermLog.Frame.reach x _ _) rfl ?_ ?_⟩
    · rw [heq]; exact hadopt
    · rw [heq]; exact nofun
  · -- rejected: the peer follows the sender and keeps its log
    refine ⟨_, x.reach_steps _ _,
      hact (x.reach_steps _ _) rfl (TermLog.Frame.reach x _ _) rfl ?_ ?_⟩
    · rw [heq]; exact hfollow
    · rw [heq]; exact nofun
  · -- accepted
    obtain ⟨hm, -, haccepts⟩ := h.accepts hI hk hr hcheck
    have hcur : (x.reach call.peer args.term).cur call.peer = args.term :=
      x.toState.reach_cur_self (by rw [(h.elect.node _ hp).cur]; exact hle)
    have hleader : x.leader args.term ≠ none := by
      rw [((h.call k call hk).entries args hr).1]; simp
    have hsteps : Relation.ReflTransGen (TermLog.Step LogEntry.term cfg.members) x
        ((x.reach call.peer args.term).accept call.peer (args.prevLogIndex + args.entries.length)
          (Node.splice (c.node call.peer).log args.prevLogIndex args.entries)) := by
      refine (x.reach_steps _ _).tail (.accept _ _ _ ?_ ?_ ?_)
      · rw [hcur]
        exact (x.toState.reach_leader call.peer args.term).symm ▸ hleader
      · rw [hcur]; exact hm
      · rw [hcur, show (x.reach call.peer args.term).log call.peer = _ from hn.log]
        exact haccepts
    refine ⟨_, hsteps, hact hsteps rfl (TermLog.Frame.reach_accept x _ _ _ _) rfl ?_ fun _ => ?_⟩
    · rw [hn.plain.handleAppendEntries_accepted hle hcheck]
      exact hfollow.accept rfl (h.indexed_of_accepts hp haccepts) _ _
    · change _ ≤ Election.setAt x.ack call.peer ((x.reach call.peer args.term).cur call.peer) _
        call.peer args.term
      rw [hcur, Election.setAt_self]
      exact le_max_right _ _

/-- **A vote reply is taken.** The new leader's log becomes the log of its term. -/
theorem LogRel.replyVote (h : LogRel cfg c x) (hI : TermLog.Inv LogEntry.term cfg.members x)
    {k j : ℕ} {args : RequestVoteArgs} {r : RequestVoteReply} (hk : c.calls[k]? = some call)
    (hw : call.waiting = true) (hr : call.request = .requestVote args)
    (hj : call.replies[j]? = some (.requestVote r)) :
    ∃ x', Relation.ReflTransGen (TermLog.Step LogEntry.term cfg.members) x x' ∧
      LogRel cfg ((c.setServer call.caller { c.servers call.caller with
        node := ((c.node call.caller).handleRequestVoteReply args.term
          ((c.servers call.caller).votes args.term) r).1
        votes := Function.update (c.servers call.caller).votes args.term
          ((c.node call.caller).handleRequestVoteReply args.term
            ((c.servers call.caller).votes args.term) r).2 }).closeCall k) x' := by
  have hv := (h.elect.call k call hk).caller
  have hn := h.node _ hv
  have hserver := fun n votes => (h.server _ hv).set n votes
  have hclose : ∀ {x'}, TermLog.Later x x' → ∀ (i : ℕ) call', (c.closeCall k).calls[i]? = some call' →
      LogCall x' call' := fun hL =>
    calls_modify k (fun i call' hi => (h.call i call' hi).later hL) fun _ _ hc => hc.close
  rcases h.elect.replyVote hI.shape.election hk hw hr hj with
    ⟨hres, hE⟩ | ⟨hcand, hres, ⟨Q, hQ, hvotes⟩, hnone, hE⟩
  · refine ⟨x.reach call.caller r.term, x.reach_steps _ _, ?_⟩
    have hL := (hI.steps (x.reach_steps call.caller r.term)).2
    refine h.act hE (TermLog.Frame.reach x _ _) hL rfl ?_ (hserver _ _) (hclose hL) h.indexed
    rw [hres]
    exact hn.adopt r.term
  · -- elected: a candidate still has the log it campaigned with
    have hcur := (h.elect.node _ hv).cur
    have hcand' : x.cand call.caller (x.cur call.caller) = some (c.node call.caller).log := by
      rw [hcur]; exact hn.candidate hcand
    have hstep : TermLog.Step LogEntry.term cfg.members x
        (x.elect call.caller (c.node call.caller).log) :=
      .elect call.caller Q _ hQ hvotes hcand' hnone
    have hL := hstep.later hI.shape
    have htlog : (x.elect call.caller (c.node call.caller).log).tlog (x.cur call.caller) =
        (c.node call.caller).log := Function.update_self ..
    refine ⟨_, .single hstep, h.act hE (TermLog.Frame.elect _ hnone) hL rfl ?_ (hserver _ _)
      (hclose hL) ?_⟩
    · rw [hres]
      refine ⟨hn.plain.of_sameLog ⟨rfl, rfl, rfl, rfl, rfl⟩, hn.log, nofun, fun _ => ?_,
        fun _ p => Nat.zero_le _⟩
      rw [hcur] at htlog
      exact htlog
    · intro t
      by_cases ht : t = x.cur call.caller
      · subst ht; rw [htlog]; exact hn.plain.indexed
      · rw [show (x.elect call.caller (c.node call.caller).log).tlog t = x.tlog t from
          Function.update_of_ne ht ..]
        exact h.indexed t

/-- **An `AppendEntries` reply is taken.** A raised `matchIndex` was acknowledged. -/
theorem LogRel.replyEntries (h : LogRel cfg c x) (hI : TermLog.Inv LogEntry.term cfg.members x)
    {k j : ℕ} {r : AppendEntriesReply} (hk : c.calls[k]? = some call)
    (hr : call.request = .appendEntries args) (hj : call.replies[j]? = some (.appendEntries r)) :
    LogRel cfg ((c.setNode call.caller
      ((c.node call.caller).handleAppendEntriesReply call.peer args r)).closeCall k)
      (x.reach call.caller r.term) := by
  have hv := (h.elect.call k call hk).caller
  have hn := h.node _ hv
  have hanswered := (c.node call.caller).handleAppendEntriesReply_cases call.peer args r
  have hE := (h.elect.setNode hI.shape.election hv r.term hanswered.sameVote).closeCall k
  have hL := (hI.steps (x.reach_steps call.caller r.term)).2
  refine h.act hE (TermLog.Frame.reach x _ _) hL rfl ?_ ((h.server _ hv).set _ _)
    (calls_modify k (fun i call' hi => (h.call i call' hi).later hL) fun _ _ hc => hc.close)
    h.indexed
  have hsv := hanswered.sameVote
  have hsl := ((c.node call.caller).adopt_sameLog r.term).symm.trans hanswered.sameLog
  refine (hn.adopt r.term).same hsv.currentTerm hsv.state hsl fun hl hl' p => ?_
  -- still the leader, so no term was adopted
  have heq := (c.node call.caller).adopt_of_state (t := r.term) (by rw [hl']; simp)
  rw [heq] at hl' ⊢
  change _ ≤ x.ack p _
  rcases hanswered.matchIndex p with hm | ⟨hp, ⟨hterm, hs⟩, hm⟩
  · exact hm.trans (hn.matched hl' p)
  · -- the reply is to a request of the current term, and was a success
    subst hp
    refine hm.trans (max_le ?_ (hn.matched hl' _))
    rw [hterm]
    exact (h.call k call hk).acked args r hr (List.mem_of_getElem? hj) hs

/-- **A step of `applyLoop`** with snapshotting disabled fetches the next committed
entry, applies the entry it holds, or finds nothing to do. -/
theorem NoSnapshotWork.applyStep_cases {s s' : Server σ} {r : Option LogEntry}
    (hs : NoSnapshotWork s) (hplain : Uncompacted s.node) (hoff : s.node.opts.snapshotThreshold ≤ 0)
    (h : s.applyStep M = some (s', r)) :
    (r = none ∧ ∃ e, s.node.lastApplied < s.node.commitIndex ∧
      s.node.log[s.node.lastApplied]? = some e ∧
      s' = { s with
        node := { s.node with lastApplied := s.node.lastApplied + 1 }, applier := .applying e }) ∨
    (∃ e, s.applier = .applying e ∧ r = some e ∧
      s' = { s with node := s.node.applyEntry M e, applier := .idle }) ∨
    (r = none ∧ (s' = { s with applier := .caughtUp } ∨ s' = { s with applier := .idle })) := by
  cases Server.applyStep_inv h with
  | caughtUp => exact Or.inr (Or.inr ⟨rfl, Or.inl rfl⟩)
  | fetch e ha hlt hb he =>
    rw [hplain.base, Nat.sub_zero] at he
    exact Or.inl ⟨rfl, e, hlt, he, rfl⟩
  | apply e ha => exact Or.inr (Or.inl ⟨e, ha, rfl, rfl⟩)
  | noSnapshot => exact Or.inr (Or.inr ⟨rfl, Or.inr rfl⟩)
  | capture ha hon => exact absurd hon (not_lt.mpr hoff)
  -- the remaining steps belong to `maybeSnapshot`
  | snapshotFailed la t ha | snapshot la t data ha | save la t data ha | discard la t ha =>
    exact absurd ha (hs.applier_ne (by simp) (by simp) (by simp))

/-- `applyLoop` touches neither logs nor calls. -/
theorem LogRel.apply (h : LogRel cfg c x) (hI : TermLog.Inv LogEntry.term cfg.members x)
    (hoff : cfg.SnapshotsOff) (hv : v ∈ cfg.ids) {s : Server σ} {r : Option LogEntry}
    (hs : (c.servers v).applyStep M = some (s, r))
    : LogRel cfg (c.setServer v s) x := by
  have hsame := Server.applyStep_same hs
  have hE := h.elect.setServer_quiet hI.shape.election hv hsame.node (fun _ => hsame.votes)
    (hsame.snapshotSends ▸ h.elect.sends v hv)
  have hn := h.node v hv
  have hw := h.server v hv
  have hopts := h.snapshotThreshold hoff hv
  refine h.act hE (TermLog.Frame.refl v x) (TermLog.Later.refl x) rfl ?_ ?_ h.call h.indexed
  all_goals rcases hw.applyStep_cases hn.plain hopts hs with
      ⟨-, e, -, -, rfl⟩ | ⟨e, -, -, rfl⟩ | ⟨-, rfl | rfl⟩
  · exact hn.same rfl (Or.inl rfl) ⟨rfl, rfl, rfl, rfl, rfl⟩ fun _ hl => hn.matched hl
  · exact hn.same rfl (Or.inl rfl) ⟨rfl, rfl, rfl, rfl, rfl⟩ fun _ hl => hn.matched hl
  · exact hn
  · exact hn
  · exact ⟨hw.installs, hw.sends, Or.inr (Or.inl ⟨e, rfl⟩)⟩
  · exact ⟨hw.installs, hw.sends, Or.inl rfl⟩
  · exact ⟨hw.installs, hw.sends, Or.inr (Or.inr rfl)⟩
  · exact ⟨hw.installs, hw.sends, Or.inl rfl⟩

/-- An edit of the call list and of what no node reads. -/
theorem LogRel.editCalls {c' : Cluster σ} (h : LogRel cfg c x) (hs : c'.servers = c.servers)
    (hE : ElectRel cfg c' x.toState)
    (hcall : ∀ (k : ℕ) call, c'.calls[k]? = some call → LogCall x call) : LogRel cfg c' x := by
  obtain ⟨servers, calls, applied⟩ := c'
  obtain rfl : servers = c.servers := hs
  exact ⟨hE, h.node, h.server, hcall, h.indexed⟩

/-- What `NewNode` makes of the storage of a node that never compacted. -/
theorem Uncompacted.newNode_eq {n n' : Node σ} (h : Uncompacted n) {sm : σ} {opts : Options}
    {peers : List String} (hn : newNode M v peers n.storage sm opts = some n') :
    n'.log = n.log ∧ n'.state = .follower ∧ n'.commitIndex = 0 ∧ n'.lastApplied = 0 ∧
      Uncompacted n' := by
  obtain ⟨sm', i, t, hsnap, rfl⟩ := n'.newNode_eq hn
  -- there is no snapshot to start from, so everything is read from the log
  rcases hsnap with ⟨-, -, rfl, rfl⟩ | ⟨s, hs, -⟩
  · exact ⟨h.stored, rfl, rfl, rfl, rfl, rfl, h.snapshot, rfl, by rw [h.stored]; exact h.indexed⟩
  · cases h.snapshot.symm.trans hs

/-- **A restart** keeps the log. -/
theorem LogRel.restart (h : LogRel cfg c x) (hI : TermLog.Inv LogEntry.term cfg.members x)
    (hv : v ∈ cfg.ids) {sm : σ}
    (hn : newNode M v (cfg.peers v) (c.node v).storage sm (cfg.opts v) = some n) :
    LogRel cfg { c.setServer v (Server.start n) with
      calls := c.calls.map fun call =>
        if call.caller = v then { call with waiting := false } else call } x := by
  have hold := h.node v hv
  obtain ⟨hlog, hstate, -, -, hplain⟩ := hold.plain.newNode_eq hn
  exact h.act (h.elect.restart hI.shape.election hv hn) (TermLog.Frame.refl v x)
    (TermLog.Later.refl x) rfl (.of_follower hplain (hold.log.trans hlog.symm) hstate)
    ⟨rfl, rfl, Or.inl rfl⟩ (calls_crash v h.call fun _ hc => hc.close) h.indexed

/-- **The step simulation**: every step of a cluster that takes no snapshots is answered
by moves of the abstract replication. -/
theorem LogRel.step {a : Action σ} {c' : Cluster σ} (h : LogRel cfg c x)
    (hI : TermLog.Inv LogEntry.term cfg.members x) (hnamed : cfg.Named) (hoff : cfg.SnapshotsOff)
    (hstep : c.step M cfg a = some c') :
    ∃ x', Relation.ReflTransGen (TermLog.Step LogEntry.term cfg.members) x x' ∧
      LogRel cfg c' x' := by
  cases Cluster.step_cases hstep with
  | elect v hv hs => exact ⟨_, .single (.campaign v), h.campaign hI hnamed hv⟩
  | propose v batch n hv hn =>
    obtain ⟨x', hx, h'⟩ := h.propose hI hv hn
    exact ⟨x', .single hx, h'⟩
  | sendEntries v peer args hv hp hs =>
    obtain ⟨hlead, args', hout, hterm, -, hsent⟩ :=
      (c.node v).sendAppendEntriesTo_sent (h.node v hv).plain hs
    obtain rfl := Node.Outgoing.appendEntries.inj hout
    rw [(h.elect.node v hv).peers] at hp
    refine ⟨x, .refl, h.editCalls rfl (h.elect.addCall hv hp (by simp))
      (calls_append h.call fun call hm => ?_)⟩
    obtain rfl := List.mem_singleton.mp hm
    refine ⟨nofun, fun args' hr => ?_, nofun, fun _ => by simp [Call.new]⟩
    obtain rfl := Request.appendEntries.inj hr
    -- the leader's log is the log of its term
    rw [hterm, (h.node v hv).leader hlead]
    exact ⟨(h.elect.node v hv).leader hlead, hsent⟩
  | planSnapshot v peer term hv hp hs =>
    obtain ⟨-, _, hout, -⟩ := (c.node v).sendAppendEntriesTo_sent (h.node v hv).plain hs
    cases hout
  -- no snapshot is ever sent, so none is delivered, answered or installed
  | noSnapshot v k peer term hv hk hs | sendSnapshot v k peer term args hv hk hs =>
    rw [(h.server v hv).sends] at hk
    cases hk
  | deliverVote k call args hk hr => exact h.deliverVote hI hnamed hk hr
  | deliverEntries k call args hk hr => exact h.deliverEntries hI hk hr
  | refuseSnapshot k call args s r hk hr hs | deliverSnapshot k call args s hk hr hs
  | replySnapshot k j call args r hk hw hr hj =>
    exact absurd hr ((h.call k call hk).noSnapshot args)
  | replyVote k j call args r hk hw hr hj => exact h.replyVote hI hk hw hr hj
  | replyEntries k j call args r hk hw hr hj =>
    exact ⟨_, x.reach_steps _ _, h.replyEntries hI hk hr hj⟩
  | timeout k hk =>
    exact ⟨x, .refl, h.editCalls rfl (h.elect.closeCall k)
      (calls_modify k h.call fun _ _ hc => hc.close)⟩
  | applyQuiet v s hv hs => exact ⟨x, .refl, h.apply hI hoff hv hs⟩
  | apply v s e hv hs =>
    have h' := h.apply hI hoff hv hs
    exact ⟨x, .refl, h'.editCalls rfl (h'.elect.editCalls rfl h.elect.call (CallsSub.refl _))
      h.call⟩
  | install v i s hv hs | installDone v i s k r hv hs =>
    exact absurd hs (h.server v hv).installStep_ne
  | restart v sm n hv hn => exact ⟨x, .refl, h.restart hI hv hn⟩

end Moves

/-! ### Runs -/

/-- The relation together with the invariant of the abstract replication. -/
def LogSim (cfg : Config) (c : Cluster σ) (x : TermLog.State String LogEntry) : Prop :=
  LogRel cfg c x ∧ TermLog.Inv LogEntry.term cfg.members x

theorem LogSim.initial (cfg : Config) (sm : String → σ) :
    LogSim cfg (Cluster.initial cfg sm) (TermLog.State.initial String LogEntry) :=
  ⟨LogRel.initial cfg sm, TermLog.Inv.initial _ _⟩

theorem LogSim.step {a : Action σ} {c c' : Cluster σ} {x : TermLog.State String LogEntry}
    (h : LogSim cfg c x) (hnamed : cfg.Named) (hoff : cfg.SnapshotsOff)
    (hstep : c.step M cfg a = some c') :
    ∃ x', LogSim cfg c' x' ∧ TermLog.Later x x' := by
  obtain ⟨x', hsteps, h'⟩ := h.1.step h.2 hnamed hoff hstep
  exact ⟨x', ⟨h', (h.2.steps hsteps).1⟩, (h.2.steps hsteps).2⟩

/-- Every run is answered by a run of the abstract replication. -/
theorem LogSim.runs {ok : Cluster σ → Action σ → Prop} {c c' : Cluster σ}
    {x : TermLog.State String LogEntry} (h : LogSim cfg c x) (hnamed : cfg.Named)
    (hoff : cfg.SnapshotsOff) (hrun : Runs (Cluster.step M cfg) ok c c') :
    ∃ x', LogSim cfg c' x' ∧ TermLog.Later x x' := by
  induction hrun with
  | refl => exact ⟨x, h, TermLog.Later.refl x⟩
  | tail a _ _ hstep ih =>
    obtain ⟨x₁, h₁, hL₁⟩ := ih
    obtain ⟨x₂, h₂, hL₂⟩ := h₁.step hnamed hoff hstep
    exact ⟨x₂, h₂, hL₁.trans hL₂⟩

/-! ### Log matching -/

/-- **Log matching.** In every reachable state, logs with an entry of one term at one
index are identical up to it; terms do not decrease along a log; and the entry at
position `i` has index `i + 1`. -/
theorem log_matching (M : StateMachine σ) (cfg : Config) (hnamed : cfg.Named)
    (hoff : cfg.SnapshotsOff) (sm : String → σ) {c : Cluster σ}
    (hc : Reaches (Cluster.step M cfg) (Cluster.initial cfg sm) c) :
    (∀ v ∈ cfg.ids, ∀ w ∈ cfg.ids, ∀ (i : ℕ) (e e' : LogEntry), (c.node v).log[i]? = some e →
      (c.node w).log[i]? = some e' → e.term = e'.term →
      (c.node v).log.take (i + 1) = (c.node w).log.take (i + 1)) ∧
    (∀ v ∈ cfg.ids, ∀ (i j : ℕ) (e e' : LogEntry), i ≤ j → (c.node v).log[i]? = some e →
      (c.node v).log[j]? = some e' → e.term ≤ e'.term) ∧
    (∀ v ∈ cfg.ids, ∀ (i : ℕ) (e : LogEntry), (c.node v).log[i]? = some e → e.index = i + 1) := by
  obtain ⟨x, ⟨hR, hI⟩, -⟩ := (LogSim.initial cfg sm).runs hnamed hoff hc
  have hcons : ∀ v ∈ cfg.ids, Consistent LogEntry.term x.tlog (c.node v).log := fun v hv =>
    (hR.node v hv).log ▸ hI.shape.log_consistent v
  refine ⟨fun v hv w hw i e e' he he' ht => (hcons v hv).matching (hcons w hw) he he' ht,
    fun v hv i j e e' hij he he' => ?_, fun v hv => (hR.node v hv).plain.indexed⟩
  exact (hcons v hv).sorted hI.shape.tlog_terms hij he he'

theorem log_matching_of_replication : ∃ c : Cluster Bytes,
      Reaches (Cluster.step journal trio) (Cluster.initial trio fun _ => []) c ∧
      (c.node "a").log.length = 2 ∧ (c.node "b").log.length = 2 ∧
      (c.node "a").log.take 2 = (c.node "b").log.take 2 := by
  -- "a" is elected, appends two entries in two batches, and "b" takes them over
  have hrun : (exec (Cluster.step journal trio) (Cluster.initial trio fun _ => [])
      [.elect "a", .deliver 0, .reply 0 0, .propose "a" [[1]], .propose "a" [[2]],
        .send "a" "b", .deliver 2, .reply 2 0]).map
        (fun c => ((c.node "a").log, (c.node "b").log)) =
      some ([⟨1, 1, [1]⟩, ⟨1, 2, [2]⟩], [⟨1, 1, [1]⟩, ⟨1, 2, [2]⟩]) := by
    decide +kernel
  obtain ⟨c, hc, hobs⟩ := Reaches.of_exec_map hrun
  simp only [Prod.mk.injEq] at hobs
  obtain ⟨ha, hb⟩ := hobs
  refine ⟨c, hc, by rw [ha]; rfl, by rw [hb]; rfl, ?_⟩
  exact (log_matching journal trio (by decide) (by decide) _ hc).1 "a" (by decide) "b" (by decide) 1
    ⟨1, 2, [2]⟩ ⟨1, 2, [2]⟩ (by rw [ha]; rfl) (by rw [hb]; rfl) rfl

/-- With a node called `""`, two leaders of one term write different entries. -/
theorem log_mismatch_of_unnamed : ∃ c : Cluster Bytes,
      Reaches (Cluster.step journal trioUnnamed) (Cluster.initial trioUnnamed fun _ => []) c ∧
      ∃ e e' : LogEntry, (c.node "").log[0]? = some e ∧ (c.node "b").log[0]? = some e' ∧
        e.term = e'.term ∧ (c.node "").log.take 1 ≠ (c.node "b").log.take 1 := by
  have hrun : (exec (Cluster.step journal trioUnnamed) (Cluster.initial trioUnnamed fun _ => [])
      [.elect "", .elect "b", .deliver 1, .reply 1 0, .deliver 3, .reply 3 0,
        .propose "" [[1]], .propose "b" [[2]]]).map
        (fun c => ((c.node "").log, (c.node "b").log)) =
      some ([⟨1, 1, [1]⟩], [⟨1, 1, [2]⟩]) := by
    decide +kernel
  obtain ⟨c, hc, hobs⟩ := Reaches.of_exec_map hrun
  simp only [Prod.mk.injEq] at hobs
  obtain ⟨ha, hb⟩ := hobs
  exact ⟨c, hc, ⟨1, 1, [1]⟩, ⟨1, 1, [2]⟩, by rw [ha]; rfl, by rw [hb]; rfl, rfl,
    by rw [ha, hb]; decide⟩

end Raft
end BoilerPulse
