import BoilerPulse.Raft.Covering

/-!
# What an acknowledgement is worth

`matchIndex[p]` is the leader's idea of how far the log of `p` agrees with its own, and
`maybeAdvanceCommitIndexLocked` counts on it. It is raised by the replies to two kinds of requests.
A successful `AppendEntries` reply says that the entries are there. An `InstallSnapshot` reply says
nothing: it has no field for success, and the follower sends it as well when `SaveSnapshot` or
`Restore` has failed (`failed_install_acknowledged`). Nor does an acknowledgement stay true: a
snapshot that is installed later drops the whole log, also what lies behind the snapshot.

Here one leader and one follower exchange messages within a term; messages are lost, delayed and
duplicated at will. What an acknowledgement should say is that the follower covers an index
(`Covering`), with the terms of the leader's log, `leaderTerms`. What has to be assumed for it is
that installations do not fail and cut nothing off (`Pair.Sound`).
-/

namespace BoilerPulse
namespace Raft

open Framework

variable {σ : Type}

/-! ### The model -/

/-- A leader, one of its followers, and everything they have sent each other. -/
structure Pair (σ : Type) where
  leader : Server σ
  follower : Server σ
  appends : List AppendEntriesArgs
  appendReplies : List (AppendEntriesArgs × AppendEntriesReply)
  snapshots : List InstallSnapshotArgs
  snapshotReplies : List (InstallSnapshotArgs × InstallSnapshotReply)

inductive PairEvent where
  /-- The leader takes a batch of proposals. -/
  | propose (batch : List Bytes)
  /-- `applyLoop` of the leader takes a step. -/
  | leaderApply
  /-- The leader handles an `AppendEntries` reply of another follower. -/
  | otherReply (peer : String) (args : AppendEntriesArgs) (reply : AppendEntriesReply)
  /-- The leader handles an `InstallSnapshot` reply of another follower. -/
  | otherSnapshotReply (peer : String) (args : InstallSnapshotArgs) (reply : InstallSnapshotReply)
  /-- The first section of `sendAppendEntriesTo`. -/
  | send
  /-- The `i`-th `sendInstallSnapshotTo` loads the snapshot and sends it. -/
  | sendSnapshot (i : ℕ)
  /-- The follower handles the `k`-th `AppendEntries`. -/
  | deliver (k : ℕ)
  /-- The leader handles the `k`-th `AppendEntries` reply. -/
  | reply (k : ℕ)
  /-- The follower starts on the `k`-th `InstallSnapshot`. -/
  | deliverSnapshot (k : ℕ)
  /-- The `i`-th `HandleInstallSnapshot` call in progress takes its next step. -/
  | install (i : ℕ)
  /-- `SaveSnapshot` or `Restore` returns an error to the `i`-th call in progress. -/
  | fail (i : ℕ)
  /-- The leader handles the `k`-th `InstallSnapshot` reply. -/
  | snapshotReply (k : ℕ)
  /-- `applyLoop` of the follower takes a step. -/
  | apply

namespace Pair

/-- The leader has just been elected: nothing has been sent yet. -/
def start (leader follower : Node σ) : Pair σ where
  leader := Server.start leader
  follower := Server.start follower
  appends := []
  appendReplies := []
  snapshots := []
  snapshotReplies := []

def setLeader (s : Pair σ) (n : Node σ) : Pair σ :=
  { s with leader := { s.leader with node := n } }

/-- One step. The replies of the others are free, but for their term: the leader stays in
office. -/
def step (M : StateMachine σ) (peer : String) (s : Pair σ) : PairEvent → Option (Pair σ)
  | .propose batch => (s.leader.node.appendBatch batch).map s.setLeader
  | .leaderApply => (s.leader.applyStep M).map fun r => { s with leader := r.1 }
  | .otherReply q args reply =>
    if q ≠ peer ∧ reply.term ≤ s.leader.node.currentTerm then
      some (s.setLeader (s.leader.node.handleAppendEntriesReply q args reply))
    else none
  | .otherSnapshotReply q args reply =>
    if q ≠ peer ∧ reply.term ≤ s.leader.node.currentTerm then
      some (s.setLeader (s.leader.node.handleInstallSnapshotReply q args reply))
    else none
  | .send =>
    match s.leader.node.sendAppendEntriesTo peer with
    | none => none
    | some (.appendEntries args) => some { s with appends := s.appends ++ [args] }
    | some (.installSnapshot term) =>
      some { s with
        leader := { s.leader with snapshotSends := s.leader.snapshotSends ++ [(peer, term)] } }
  | .sendSnapshot i =>
    s.leader.snapshotSends[i]?.map fun x =>
      { s with
        leader := { s.leader with snapshotSends := s.leader.snapshotSends.eraseIdx i }
        snapshots := s.snapshots ++ (s.leader.node.installSnapshotArgs x.2).toList }
  | .deliver k =>
    s.appends[k]?.map fun args =>
      { s with
        follower := { s.follower with node := (s.follower.node.handleAppendEntries args).1 }
        appendReplies :=
          s.appendReplies ++ [(args, (s.follower.node.handleAppendEntries args).2)] }
  | .reply k =>
    s.appendReplies[k]?.map fun a =>
      s.setLeader (s.leader.node.handleAppendEntriesReply peer a.1 a.2)
  | .deliverSnapshot k =>
    s.snapshots[k]?.map fun args =>
      { s with
        follower := (s.follower.installBegin k args).1
        snapshotReplies :=
          s.snapshotReplies ++ ((s.follower.installBegin k args).2.map fun r => (args, r)).toList }
  | .install i =>
    s.follower.installs[i]?.bind fun th =>
      (s.follower.installStep M i).map fun r =>
        { s with
          follower := r.1
          snapshotReplies := s.snapshotReplies ++ (r.2.map fun r => (th.args, r.2)).toList }
  | .fail i =>
    s.follower.installs[i]?.bind fun th =>
      if th.stage = .finish then none
      else
        some { s with
          follower := { s.follower with installs := s.follower.installs.eraseIdx i }
          snapshotReplies := s.snapshotReplies ++ [(th.args, ⟨th.term⟩)] }
  | .snapshotReply k =>
    s.snapshotReplies[k]?.map fun a =>
      s.setLeader (s.leader.node.handleInstallSnapshotReply peer a.1 a.2)
  | .apply => (s.follower.applyStep M).map fun r => { s with follower := r.1 }

end Pair

/-! ### The runs -/

/-- **The missing conditions**: an installation fails only once the follower has got past its
snapshot otherwise, and one that succeeds cuts nothing off; and an `AppendEntries` from index 0 is
accepted only if it agrees with what `termAtLocked` answers for the indices that a snapshot
covers. -/
def Pair.Sound (M : StateMachine σ) (s : Pair σ) : PairEvent → Prop
  | .deliver k => ∀ args ∈ s.appends[k]?,
      s.follower.node.Accepts args → s.follower.node.CoveredTerms args
  | .install i => ∀ th ∈ s.follower.installs[i]?,
      (th.stage = .restore → M.restore s.follower.node.stateMachine th.args.data = none →
        th.args.lastIncludedIndex ≤ s.follower.node.logBaseIndex) ∧
      (th.stage = .finish → s.follower.node.logBaseIndex < th.args.lastIncludedIndex →
        s.follower.node.lastLogIndexLocked ≤ th.args.lastIncludedIndex)
  | .fail i => ∀ th ∈ s.follower.installs[i]?,
      th.args.lastIncludedIndex ≤ s.follower.node.logBaseIndex
  | _ => True

/-- **The invariant**: every acknowledgement on its way or taken in is true. -/
structure Acked (t : ℕ → ℕ) (T : ℕ) (peer : String) (s : Pair σ) : Prop where
  leader : Writes t T s.leader
  sends : ∀ x ∈ s.leader.snapshotSends, x.2 = T
  follower : Takes t s.follower.node
  term : s.follower.node.currentTerm = T
  installs : ∀ th ∈ s.follower.installs, th.term = T
  appends : ∀ args ∈ s.appends, Fair t T args
  snapshots : ∀ args ∈ s.snapshots, args.term = T
  appendReplies : ∀ a ∈ s.appendReplies, a.2.term = T ∧ (a.2.success = true →
    Covers t s.follower.node (a.1.prevLogIndex + a.1.entries.length))
  snapshotReplies : ∀ a ∈ s.snapshotReplies, a.2.term = T ∧
    Covers t s.follower.node a.1.lastIncludedIndex
  matched : Covers t s.follower.node (s.leader.node.matchIndex peer)

namespace Acked

variable {M : StateMachine σ} {t : ℕ → ℕ} {T : ℕ} {peer : String} {s s' : Pair σ} {f : Server σ}
  {i : ℕ}

/-- The leader takes a step that leaves what it knows of the follower, or learns from a true
acknowledgement. -/
theorem setLeader (h : Acked t T peer s) {l : Server σ} (hl : Writes t T l)
    (hsends : ∀ x ∈ l.snapshotSends, x.2 = T)
    (hmatch : Covers t s.follower.node (l.node.matchIndex peer)) :
    Acked t T peer { s with leader := l } :=
  { h with leader := hl, sends := hsends, matched := hmatch }

/-- The follower takes a step that covers what it covered. -/
theorem setFollower (h : Acked t T peer s) (hf : Takes t f.node) (hterm : f.node.currentTerm = T)
    (hinst : ∀ th ∈ f.installs, th.term = T)
    (hcov : ∀ m, Covers t s.follower.node m → Covers t f.node m) :
    Acked t T peer { s with follower := f } :=
  { h with
    follower := hf
    term := hterm
    installs := hinst
    appendReplies := fun a ha => (h.appendReplies a ha).imp_right fun hc hs => hcov _ (hc hs)
    snapshotReplies := fun a ha => (h.snapshotReplies a ha).imp_right (hcov _)
    matched := hcov _ h.matched }

/-- The follower answers with nothing but the truth. -/
theorem addSnapshotReplies (h : Acked t T peer s)
    {rs : List (InstallSnapshotArgs × InstallSnapshotReply)}
    (hrs : ∀ a ∈ rs, a.2.term = T ∧ Covers t s.follower.node a.1.lastIncludedIndex) :
    Acked t T peer { s with snapshotReplies := s.snapshotReplies ++ rs } :=
  { h with snapshotReplies := List.forall_mem_append.mpr ⟨h.snapshotReplies, hrs⟩ }

/-- A reply to `AppendEntries`, of whichever follower. -/
theorem reply (h : Acked t T peer s) {q : String} {args : AppendEntriesArgs}
    {r : AppendEntriesReply} (hterm : r.term ≤ s.leader.node.currentTerm)
    (hcov : q = peer → r.success = true →
      Covers t s.follower.node (args.prevLogIndex + args.entries.length)) :
    Acked t T peer (s.setLeader (s.leader.node.handleAppendEntriesReply q args r)) := by
  have hanswered := s.leader.node.handleAppendEntriesReply_cases q args r
  have hvote := hanswered.sameVote
  rw [s.leader.node.adopt_of_le hterm] at hvote
  refine h.setLeader (h.leader.handle (.entriesReply q args r) trivial rfl hanswered.sameLog
    hvote.currentTerm) h.sends ?_
  rcases hanswered.matchIndex peer with hle | ⟨rfl, ⟨-, hs⟩, hle⟩
  · exact h.matched.mono hle
  · exact ((hcov rfl hs).max h.matched).mono hle

/-- A reply to `InstallSnapshot`, of whichever follower. -/
theorem snapshotReply (h : Acked t T peer s) {q : String} {args : InstallSnapshotArgs}
    {r : InstallSnapshotReply} (hterm : r.term ≤ s.leader.node.currentTerm)
    (hcov : q = peer → Covers t s.follower.node args.lastIncludedIndex) :
    Acked t T peer (s.setLeader (s.leader.node.handleInstallSnapshotReply q args r)) := by
  have hanswered := s.leader.node.handleInstallSnapshotReply_cases q args r
  have hvote := hanswered.sameVote
  rw [s.leader.node.adopt_of_le hterm] at hvote
  refine h.setLeader (h.leader.handle (.snapshotReply q args r) trivial rfl hanswered.sameLog
    hvote.currentTerm) h.sends ?_
  rcases hanswered.matchIndex peer with hle | ⟨rfl, -, hle⟩
  · exact h.matched.mono hle
  · exact ((hcov rfl).max h.matched).mono hle

/-- The follower starts on a snapshot, or answers that it has got past it. -/
theorem deliverSnapshot (h : Acked t T peer s) (k : ℕ) {args : InstallSnapshotArgs}
    (hargs : args.term = T) :
    Acked t T peer { s with
      follower := (s.follower.installBegin k args).1
      snapshotReplies :=
        s.snapshotReplies ++
          ((s.follower.installBegin k args).2.map fun r => (args, r)).toList } := by
  have hle : s.follower.node.currentTerm ≤ args.term := by rw [h.term, hargs]
  have hadopt : s.follower.node.adopt args.term = s.follower.node := by
    rw [hargs, ← h.term]
    exact s.follower.node.adopt_of_le le_rfl
  have hbegin := s.follower.node.installSnapshotBegin_eq hle
  rw [hadopt] at hbegin
  unfold Server.installBegin
  rw [hbegin]
  -- the node only follows; its log and its term stay
  have hkeep : ∀ installs : List Install, (∀ th ∈ installs, th.term = T) → Acked t T peer { s with
      follower := { s.follower with
        node := { s.follower.node with state := .follower, leaderID := args.leaderID }
        installs := installs } } :=
    fun _ hinst => h.setFollower (h.follower.of_same rfl rfl) h.term hinst fun _ hm =>
      hm.of_same rfl rfl
  by_cases hstale : args.lastIncludedIndex ≤ s.follower.node.logBaseIndex
  · rw [if_pos hstale]
    exact (hkeep _ h.installs).addSnapshotReplies
      (List.forall_mem_singleton.mpr ⟨h.term, .of_le_base hstale⟩)
  · rw [if_neg hstale]
    exact (hkeep _ (List.forall_mem_append.mpr ⟨h.installs,
      List.forall_mem_singleton.mpr h.term⟩)).addSnapshotReplies nofun

/-- The follower handles an `AppendEntries`. -/
theorem deliver (h : Acked t T peer s) {args : AppendEntriesArgs} (hf : Fair t T args)
    (hcov : s.follower.node.Accepts args → s.follower.node.CoveredTerms args) :
    Acked t T peer { s with
      follower := { s.follower with node := (s.follower.node.handleAppendEntries args).1 }
      appendReplies :=
        s.appendReplies ++ [(args, (s.follower.node.handleAppendEntries args).2)] } := by
  obtain ⟨htakes, hkeeps, hnew⟩ := h.follower.deliver hf hcov
  have hvote := s.follower.node.handleAppendEntries_sameVote args
  rw [hf.term, ← h.term, s.follower.node.adopt_of_le le_rfl] at hvote
  have hreply : (s.follower.node.handleAppendEntries args).2.term = T := by
    obtain ⟨hlt, -⟩ | ⟨-, -, i, heq⟩ | ⟨-, -, heq⟩ := s.follower.node.handleAppendEntries_cases args
    · rw [h.term, hf.term] at hlt
      exact absurd hlt (lt_irrefl T)
    · rw [heq]; exact hf.term
    · rw [heq]; exact hf.term
  have hnode : Acked t T peer { s with
      follower := { s.follower with node := (s.follower.node.handleAppendEntries args).1 } } :=
    h.setFollower htakes (hvote.currentTerm.trans h.term) h.installs hkeeps
  exact { hnode with
    appendReplies := List.forall_mem_append.mpr
      ⟨hnode.appendReplies, List.forall_mem_singleton.mpr ⟨hreply, hnew⟩⟩ }

/-- A `HandleInstallSnapshot` call of the follower takes a step. -/
theorem install (h : Acked t T peer s) {th : Install} (hth : s.follower.installs[i]? = some th)
    (hrestore : th.stage = .restore → M.restore s.follower.node.stateMachine th.args.data = none →
        th.args.lastIncludedIndex ≤ s.follower.node.logBaseIndex)
    (hfinish : th.stage = .finish → s.follower.node.logBaseIndex < th.args.lastIncludedIndex →
      s.follower.node.lastLogIndexLocked ≤ th.args.lastIncludedIndex)
    {r : Option (ℕ × InstallSnapshotReply)} (hs : s.follower.installStep M i = some (f, r)) :
    Acked t T peer { s with
      follower := f
      snapshotReplies := s.snapshotReplies ++ (r.map fun r => (th.args, r.2)).toList } := by
  have hterm := (Server.installStep_same hs).node.currentTerm.trans h.term
  have hthT := h.installs th (List.mem_of_getElem? hth)
  -- the calls still in progress are the old ones, one of them at another stage
  have herase : ∀ th' ∈ s.follower.installs.eraseIdx i, th'.term = T :=
    fun th' hmem => h.installs th' (List.mem_of_mem_eraseIdx hmem)
  have hset : ∀ st, ∀ th' ∈ s.follower.installs.set i { th with stage := st }, th'.term = T := by
    intro st th' hmem
    rcases List.mem_or_eq_of_mem_set hmem with hmem | rfl
    · exact h.installs th' hmem
    · exact hthT
  have hdone : ∀ rs, Takes t f.node → (∀ th' ∈ f.installs, th'.term = T) →
      (∀ m, Covers t s.follower.node m → Covers t f.node m) →
      (∀ a ∈ rs, a.2.term = T ∧ Covers t f.node a.1.lastIncludedIndex) →
      Acked t T peer { s with follower := f, snapshotReplies := s.snapshotReplies ++ rs } :=
    fun _ htakes hinst hkeeps hrs =>
      (h.setFollower htakes hterm hinst hkeeps).addSnapshotReplies hrs
  cases Server.installStep_inv hs with
  | save th' hi hst | restore th' sm hi hst hr =>
    obtain rfl := Option.some.inj (hth.symm.trans hi)
    exact hdone [] (h.follower.of_same rfl rfl) (hset _) (fun m hm => hm.of_same rfl rfl) nofun
  | restoreFailed th' hi hst hr =>
    obtain rfl := Option.some.inj (hth.symm.trans hi)
    exact hdone [_] h.follower herase (fun m hm => hm)
      (List.forall_mem_singleton.mpr ⟨hthT, .of_le_base (hrestore hst hr)⟩)
  | finish th' hi hst =>
    obtain rfl := Option.some.inj (hth.symm.trans hi)
    obtain ⟨htakes, hkeeps, hnew⟩ := h.follower.finish (hfinish hst)
    exact hdone [_] htakes herase hkeeps (List.forall_mem_singleton.mpr ⟨hterm, hnew⟩)

/-- `SaveSnapshot` or `Restore` fails in a call that is past its time. -/
theorem fail (h : Acked t T peer s) {th : Install} (hth : s.follower.installs[i]? = some th)
    (hle : th.args.lastIncludedIndex ≤ s.follower.node.logBaseIndex) :
    Acked t T peer { s with
      follower := { s.follower with installs := s.follower.installs.eraseIdx i }
      snapshotReplies := s.snapshotReplies ++ [(th.args, ⟨th.term⟩)] } := by
  have hgone : Acked t T peer { s with
      follower := { s.follower with installs := s.follower.installs.eraseIdx i } } :=
    h.setFollower h.follower h.term
      (fun th' hmem => h.installs th' (List.mem_of_mem_eraseIdx hmem)) fun m hm => hm
  exact hgone.addSnapshotReplies (List.forall_mem_singleton.mpr
    ⟨h.installs th (List.mem_of_getElem? hth), .of_le_base hle⟩)

/-- `applyLoop` of the follower takes a step. -/
theorem apply (h : Acked t T peer s) {r : Option LogEntry}
    (hs : s.follower.applyStep M = some (f, r)) : Acked t T peer { s with follower := f } := by
  have hterm := (Server.applyStep_same hs).node.currentTerm.trans h.term
  cases Server.applyStep_inv hs with
  | discard la t' ha =>
    exact h.setFollower (h.follower.discard la t') hterm h.installs
      fun m hm => hm.discard h.follower.dense la t'
  | _ =>
    exact h.setFollower (h.follower.of_same rfl rfl) hterm h.installs
      fun m hm => hm.of_same rfl rfl

/-- **A proposal** writes on the leader's log, and knows no more of the follower. -/
theorem propose (h : Acked t T peer s) {batch : List Bytes} {n : Node σ}
    (hn : s.leader.node.appendBatch batch = some n) :
    Acked t T peer { s with leader := { s.leader with node := n } } := by
  refine h.setLeader (h.leader.propose hn) h.sends ?_
  obtain ⟨-, rfl⟩ := Node.appendBatch_eq hn
  have hmatch : (s.leader.node.appendLogLocked
      (Node.batchEntries s.leader.node.currentTerm (s.leader.node.lastLogIndexLocked + 1)
        batch)).matchIndex = s.leader.node.matchIndex := by
    unfold Node.appendLogLocked
    split <;> rfl
  change Covers t s.follower.node ((Node.appendLogLocked _ _).matchIndex peer)
  rw [hmatch]
  exact h.matched

/-- **The leader's `applyLoop`** may compact its log, of which `t` remembers the terms. -/
theorem leaderApply (h : Acked t T peer s) {l : Server σ} {r : Option LogEntry}
    (hl : s.leader.applyStep M = some (l, r)) : Acked t T peer { s with leader := l } := by
  have hsame : l.snapshotSends = s.leader.snapshotSends ∧
      l.node.matchIndex = s.leader.node.matchIndex := by
    cases Server.applyStep_inv hl with
    | discard la t' ha =>
      refine ⟨rfl, ?_⟩
      change (s.leader.node.discardLogPrefixLocked la t').matchIndex = _
      unfold Node.discardLogPrefixLocked
      split <;> rfl
    | _ => exact ⟨rfl, rfl⟩
  refine h.setLeader (h.leader.apply hl) (hsame.1 ▸ h.sends) ?_
  rw [hsame.2]
  exact h.matched

/-- **A request**, or the plan to send a snapshot instead. -/
theorem send (h : Acked t T peer s) (hs : s.step M peer .send = some s') : Acked t T peer s' := by
  cases ho : s.leader.node.sendAppendEntriesTo peer with
  | none => simp only [Pair.step, ho] at hs; cases hs
  | some o =>
    cases o with
    | appendEntries args =>
      simp only [Pair.step, ho] at hs
      cases hs
      exact { h with
        appends := List.forall_mem_append.mpr
          ⟨h.appends, List.forall_mem_singleton.mpr (h.leader.send ho)⟩ }
    | installSnapshot term =>
      simp only [Pair.step, ho] at hs
      cases hs
      refine h.setLeader (h.leader.of_same ⟨h.leader.indexed.node, h.leader.indexed.captured_le⟩
        h.leader.term rfl rfl rfl h.leader.captured) (List.forall_mem_append.mpr ⟨h.sends,
          List.forall_mem_singleton.mpr ?_⟩) h.matched
      exact (Node.sendAppendEntriesTo_term ho).trans h.leader.term

/-- **A snapshot goes out** with the term of the call that sends it. -/
theorem sendSnapshot (h : Acked t T peer s) (hs : s.step M peer (.sendSnapshot i) = some s')
    : Acked t T peer s' := by
  obtain ⟨x, hi, rfl⟩ := Option.map_eq_some_iff.mp hs
  have hwrites : Writes t T { s.leader with snapshotSends := s.leader.snapshotSends.eraseIdx i } :=
    h.leader.of_same ⟨h.leader.indexed.node, h.leader.indexed.captured_le⟩ h.leader.term
      rfl rfl rfl h.leader.captured
  have hl := h.setLeader hwrites (fun y hy => h.sends y (List.mem_of_mem_eraseIdx hy)) h.matched
  refine { hl with snapshots := List.forall_mem_append.mpr ⟨h.snapshots, fun a ha => ?_⟩ }
  obtain ⟨sn, -, rfl⟩ := Option.map_eq_some_iff.mp (Option.mem_toList.mp ha)
  exact h.sends x (List.mem_of_getElem? hi)

/-- **Every sound step** keeps the acknowledgements true. -/
theorem step (h : Acked t T peer s) {e : PairEvent} (hok : s.Sound M e)
    (hs : s.step M peer e = some s') : Acked t T peer s' := by
  cases e with
  | propose batch =>
    obtain ⟨n, hn, rfl⟩ := Option.map_eq_some_iff.mp hs
    exact h.propose hn
  | leaderApply =>
    obtain ⟨⟨l, r⟩, hl, rfl⟩ := Option.map_eq_some_iff.mp hs
    exact h.leaderApply hl
  -- replies of the other peers do not move `matchIndex peer`
  | otherReply q args r =>
    change (if q ≠ peer ∧ r.term ≤ s.leader.node.currentTerm then some _ else none) = some s' at hs
    split at hs
    · next hq =>
      cases hs
      exact h.reply hq.2 fun heq => absurd heq hq.1
    · cases hs
  | otherSnapshotReply q args r =>
    change (if q ≠ peer ∧ r.term ≤ s.leader.node.currentTerm then some _ else none) = some s' at hs
    split at hs
    · next hq =>
      cases hs
      exact h.snapshotReply hq.2 fun heq => absurd heq hq.1
    · cases hs
  | send => exact h.send hs
  | sendSnapshot i => exact h.sendSnapshot hs
  -- what is in flight has been recorded as sent, so the handler lemmas apply to it
  | deliver k =>
    obtain ⟨args, hk, rfl⟩ := Option.map_eq_some_iff.mp hs
    exact h.deliver (h.appends args (List.mem_of_getElem? hk)) (hok args hk)
  | reply k =>
    obtain ⟨a, hk, rfl⟩ := Option.map_eq_some_iff.mp hs
    obtain ⟨hterm, hcov⟩ := h.appendReplies a (List.mem_of_getElem? hk)
    exact h.reply (hterm.trans h.leader.term.symm).le fun _ hsucc => hcov hsucc
  | deliverSnapshot k =>
    obtain ⟨args, hk, rfl⟩ := Option.map_eq_some_iff.mp hs
    exact h.deliverSnapshot k (h.snapshots args (List.mem_of_getElem? hk))
  | install i =>
    obtain ⟨th, hi, hs⟩ := Option.bind_eq_some_iff.mp hs
    obtain ⟨⟨f, r⟩, hf, rfl⟩ := Option.map_eq_some_iff.mp hs
    exact h.install hi (hok th hi).1 (hok th hi).2 hf
  | fail i =>
    obtain ⟨th, hi, hs⟩ := Option.bind_eq_some_iff.mp hs
    split at hs
    · cases hs
    · cases hs
      exact h.fail hi (hok th hi)
  | snapshotReply k =>
    obtain ⟨a, hk, rfl⟩ := Option.map_eq_some_iff.mp hs
    obtain ⟨hterm, hcov⟩ := h.snapshotReplies a (List.mem_of_getElem? hk)
    exact h.snapshotReply (hterm.trans h.leader.term.symm).le fun _ => hcov
  | apply =>
    obtain ⟨⟨f, r⟩, hf, rfl⟩ := Option.map_eq_some_iff.mp hs
    exact h.apply hf

end Acked

/-! ### The start of a term -/

/-- A leader and a follower when the leader takes office: no entry is of its term yet, nothing is
known of the follower, and where the two logs have the same term at an index they agree up to
there. -/
structure TakesOffice (peer : String) (leader follower : Node σ) : Prop where
  ordered : Ordered leader
  dense : follower.Dense
  term : follower.currentTerm = leader.currentTerm
  term_pos : 0 < leader.currentTerm
  leader_pos : ∀ e ∈ leader.log, 0 < e.term
  follower_pos : ∀ e ∈ follower.log, 0 < e.term ∧ e.term < leader.currentTerm
  unmatched : leader.matchIndex peer = 0
  matching : ∀ i x, follower.entryAt i = some x → leader.logBaseIndex ≤ i →
    i ≤ leader.lastLogIndexLocked → x.term = leader.termAtLocked i →
      ∀ j y, j ≤ i → leader.logBaseIndex ≤ j → follower.entryAt j = some y →
        y.term = leader.termAtLocked j

/-- The term of each index in the leader's log, now and as far as it will go. What the leader has
compacted is read off the follower. -/
def leaderTerms (leader follower : Node σ) (i : ℕ) : ℕ :=
  if i < leader.logBaseIndex then follower.termAtLocked i
  else if i ≤ leader.lastLogIndexLocked then leader.termAtLocked i
  else leader.currentTerm

namespace TakesOffice

variable {peer : String} {leader follower : Node σ}

theorem writes (h : TakesOffice peer leader follower) :
    Writes (leaderTerms leader follower) leader.currentTerm (Server.start leader) where
  indexed := .start h.ordered
  term := rfl
  term_pos := h.term_pos
  entry i e he := by
    have he : leader.entryAt i = some e := he
    have hb := Node.lt_of_entryAt he
    have hl := h.ordered.dense.le_lastLogIndexLocked he
    rw [leaderTerms, if_neg (by omega), if_pos hl, Node.termAtLocked_of_entryAt h.ordered.dense he]
    rw [Node.entryAt_of_lt hb] at he
    exact ⟨rfl, h.leader_pos e (List.mem_of_getElem? he)⟩
  base hpos := by
    change leader.logBaseTerm = leaderTerms leader follower leader.logBaseIndex
    have hpos : 0 < leader.logBaseIndex := hpos
    have hlast := h.ordered.dense.lastLogIndexLocked
    rw [leaderTerms, if_neg (lt_irrefl _), if_pos (by omega), Node.termAtLocked,
      if_neg (by omega), if_pos rfl]
  captured := nofun
  later i hi := by
    have hi : leader.lastLogIndexLocked < i := hi
    have hlast := h.ordered.dense.lastLogIndexLocked
    rw [leaderTerms, if_neg (by omega), if_neg (by omega)]

theorem takes (h : TakesOffice peer leader follower) :
    Takes (leaderTerms leader follower) follower := by
  refine ⟨h.dense, fun i x hx hxt j hj y hy => ?_, fun x hx => (h.follower_pos x hx).1⟩
  have hmem := h.follower_pos x (List.mem_of_getElem? hx)
  rw [← Node.entryAt_slot] at hx hy
  dsimp only at hxt ⊢
  by_cases hbelow : follower.logBaseIndex + j + 1 < leader.logBaseIndex
  · rw [leaderTerms, if_pos hbelow, Node.termAtLocked_of_entryAt h.dense hy]
  · by_cases hend : follower.logBaseIndex + i + 1 ≤ leader.lastLogIndexLocked
    · rw [leaderTerms, if_neg (by omega), if_pos hend] at hxt
      rw [leaderTerms, if_neg hbelow, if_pos (by omega)]
      exact h.matching _ x hx (by omega) hend hxt _ y (by omega) (by omega) hy
    · -- past the end of the leader's log, nothing of the follower has its term
      rw [leaderTerms, if_neg (by omega), if_neg hend] at hxt
      omega

theorem acked (h : TakesOffice peer leader follower) :
    Acked (leaderTerms leader follower) leader.currentTerm peer (Pair.start leader follower) where
  leader := h.writes
  sends := nofun
  follower := h.takes
  term := h.term
  installs := nofun
  appends := nofun
  snapshots := nofun
  appendReplies := nofun
  snapshotReplies := nofun
  matched := by
    change Covers _ follower (leader.matchIndex peer)
    rw [h.unmatched]
    exact .of_le_base (Nat.zero_le _)

end TakesOffice

/-- **`matchIndex` does not overstate the follower**, in every run of a term in which no
installation fails or cuts off the follower's log and no request from index 0 contradicts its
snapshot: the follower reaches the match index, and at every index up to it that it has not
compacted it holds an entry, of the term of the leader's. -/
theorem match_index_covered (M : StateMachine σ) (peer : String) (leader follower : Node σ)
    (h₀ : TakesOffice peer leader follower) (s : Pair σ)
    (h : Runs (Pair.step M peer) (Pair.Sound M) (Pair.start leader follower) s) :
    s.leader.node.matchIndex peer ≤ s.follower.node.lastLogIndexLocked ∧
      ∀ i ≤ s.leader.node.matchIndex peer, s.follower.node.logBaseIndex < i →
        ∃ e, s.follower.node.entryAt i = some e ∧
          ∀ x, s.leader.node.entryAt i = some x → e.term = x.term := by
  have hinv : Acked (leaderTerms leader follower) leader.currentTerm peer s :=
    h.invariant (fun _ _ _ hI hok hs => hI.step hok hs) h₀.acked
  have hreach := hinv.matched.reach
  refine ⟨by rw [hinv.follower.dense.lastLogIndexLocked]; exact hreach, fun i hi hb => ?_⟩
  obtain ⟨e, he⟩ := hinv.follower.dense.getElem?_of_le hb
    (by rw [hinv.follower.dense.lastLogIndexLocked]; exact hi.trans hreach)
  refine ⟨e, by rw [Node.entryAt_of_lt hb]; exact he, fun x hx => ?_⟩
  have hterm := hinv.matched.agrees _ (by omega) e he
  dsimp only at hterm
  rw [show s.follower.node.logBaseIndex + (i - s.follower.node.logBaseIndex - 1) + 1 = i by omega]
    at hterm
  exact hterm.trans (hinv.leader.entry i x hx).1.symm

/-- The leader of term 2, one of five nodes: entry 1 is compacted, entry 2 is in its log. -/
def officeLeader : Node Bytes :=
  { caughtUpNode with
    id := "a"
    peers := ["b", "c", "d", "e"]
    storage := ⟨2, "a", [⟨1, 2, [2]⟩], some ⟨1, 1, [1]⟩⟩
    stateMachine := [1]
    opts := ⟨1⟩
    currentTerm := 2
    votedFor := "a"
    log := [⟨1, 2, [2]⟩]
    logBaseIndex := 1
    logBaseTerm := 1
    state := .leader
    commitIndex := 1
    lastApplied := 1
    nextIndex := fun _ => 3 }

/-- A follower of term 2 that has nothing yet. -/
def emptyFollower : Node Bytes :=
  { caughtUpNode with
    storage := { Storage.empty with term := 2 }
    stateMachine := []
    currentTerm := 2
    log := []
    commitIndex := 0
    lastApplied := 0 }

theorem takesOffice_of_empty : TakesOffice "b" officeLeader emptyFollower where
  ordered := ⟨by decide, by decide, by decide, by decide⟩
  dense := by decide
  term := rfl
  term_pos := by decide
  leader_pos := by decide
  follower_pos := by decide
  unmatched := rfl
  matching i x hx := by
    have hnone : emptyFollower.entryAt i = none := by
      unfold Node.entryAt
      split
      · rfl
      · exact List.getElem?_nil
    rw [hnone] at hx
    cases hx

/-- The leader learns that "b" has nothing, and starts to send it the snapshot. -/
def offerSnapshot : List PairEvent :=
  [.send, .deliver 0, .reply 0, .send, .sendSnapshot 0, .deliverSnapshot 0]

instance Pair.Sound.decidable (M : StateMachine Bytes) (s : Pair Bytes) :
    (e : PairEvent) → Decidable (s.Sound M e)
  | .deliver k => inferInstanceAs (Decidable (∀ args ∈ s.appends[k]?, _ → _))
  | .install i => inferInstanceAs (Decidable (∀ th ∈ s.follower.installs[i]?,
      (_ → M.restore s.follower.node.stateMachine th.args.data = none → _) ∧ (_ → _ → _)))
  | .fail i => inferInstanceAs (Decidable (∀ th ∈ s.follower.installs[i]?, _))
  | .propose _ | .leaderApply | .otherReply _ _ _ | .otherSnapshotReply _ _ _ | .send
  | .sendSnapshot _ | .reply _ | .deliverSnapshot _ | .snapshotReply _ | .apply =>
      inferInstanceAs (Decidable True)

/-- The installation succeeds, and the rest of the log follows. -/
theorem match_index_covered_after_install : ∃ s : Pair Bytes,
      Runs (Pair.step journal "b") (Pair.Sound journal) (Pair.start officeLeader emptyFollower) s ∧
      s.leader.node.matchIndex "b" = 2 ∧ s.follower.node.log = [⟨1, 2, [2]⟩] ∧
      s.leader.node.matchIndex "b" ≤ s.follower.node.lastLogIndexLocked := by
  have hrun : (exec (guarded (Pair.step journal "b") (Pair.Sound journal))
      (Pair.start officeLeader emptyFollower)
      (offerSnapshot ++ [.install 0, .install 0, .install 0, .snapshotReply 0, .send, .deliver 1,
        .reply 1])).map (fun s => (s.leader.node.matchIndex "b", s.follower.node.log)) =
      some (2, [⟨1, 2, [2]⟩]) := by
    decide +kernel
  obtain ⟨s, hs, hobs⟩ := Runs.of_exec_guarded_map hrun
  obtain ⟨hmatch, hlog⟩ := Prod.mk.inj hobs
  exact ⟨s, hs, hmatch, hlog,
    (match_index_covered journal "b" officeLeader emptyFollower takesOffice_of_empty s hs).1⟩

/-- **A failed installation is acknowledged**: `SaveSnapshot` returns an error, the reply looks like
any other, and the leader records index 1 for a follower that has nothing. -/
theorem failed_install_acknowledged : TakesOffice "b" officeLeader emptyFollower ∧
    ∃ s : Pair Bytes, Reaches (Pair.step journal "b") (Pair.start officeLeader emptyFollower) s ∧
      s.leader.node.matchIndex "b" = 1 ∧ s.follower.node.log = [] ∧
      s.follower.node.logBaseIndex = 0 ∧ s.follower.node.lastLogIndexLocked = 0 := by
  have hrun : (exec (Pair.step journal "b") (Pair.start officeLeader emptyFollower)
      (offerSnapshot ++ [.fail 0, .snapshotReply 0])).map
        (fun s => (s.leader.node.matchIndex "b", s.follower.node.log,
          s.follower.node.logBaseIndex, s.follower.node.lastLogIndexLocked)) =
      some (1, [], 0, 0) := by
    decide +kernel
  obtain ⟨s, hs, hobs⟩ := Reaches.of_exec_map hrun
  simp only [Prod.mk.injEq] at hobs
  exact ⟨takesOffice_of_empty, s, hs, hobs⟩

end Raft
end BoilerPulse
