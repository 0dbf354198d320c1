import BoilerPulse.Raft.Proposals

/-!
# When `nil` means applied

`Propose` returns `nil` once `lastApplied` has reached the index of its entry. `applyPending` moves
`lastApplied` before it calls `StateMachine.Apply`, so a poll in between returns `nil` for a command
that the state machine has not seen (`nil_before_apply`). In the other moments the answer is right:
`Tracked` is what the node knows about an entry that is waited for, through the steps of
`applyLoop`, the handlers, and the installations that leave it alone.

`History` relates the calls made to the state machine with its state, so that the answer is one
about later reads: they see the command, or a snapshot that includes it.
-/

namespace BoilerPulse
namespace Raft

open Framework

variable {σ : Type}

/-! ### The state machine and its calls -/

/-- **The calls made so far**: they explain the state of the state machine, they are of indices that
count as applied, and what was restored was ahead of what had been applied. -/
structure History (M : StateMachine σ) (init : σ) (s : Server σ) (calls : List SmCall) : Prop where
  machine : s.node.stateMachine = calls.foldl (SmCall.perform M) init
  held_le : ∀ e ∈ s.applier.held, e.index ≤ s.node.lastApplied
  applied_le : ∀ e, .apply e ∈ calls → e.index ≤ s.node.lastApplied
  ahead : calls.Pairwise fun a b => ∀ e i data, a = .apply e → b = .restore i data → e.index ≤ i

/-- A snapshot is restored only if it has what the node has applied. -/
def Server.RestoresAhead (s : Server σ) (i : ℕ) : Prop :=
  ∀ th ∈ s.installs[i]?, th.stage = .restore → s.node.lastApplied ≤ th.args.lastIncludedIndex

instance Server.RestoresAhead.decidable (s : Server σ) (i : ℕ) : Decidable (s.RestoresAhead i) :=
  inferInstanceAs (Decidable (∀ th ∈ s.installs[i]?, _ → _))

namespace History

variable {M : StateMachine σ} {init : σ} {s s' : Server σ} {calls : List SmCall}

/-- Nothing is called, and nothing new is held. -/
theorem of_quiet (h : History M init s calls) (hsm : s'.node.stateMachine = s.node.stateMachine)
    (hla : s.node.lastApplied ≤ s'.node.lastApplied)
    (hheld : s'.applier.held = none ∨ s'.applier = s.applier) : History M init s' calls where
  machine := hsm.trans h.machine
  held_le e he := by
    rcases hheld with hnone | hsame
    · rw [hnone] at he
      cases he
    · rw [hsame] at he
      exact (h.held_le e he).trans hla
  applied_le e he := (h.applied_le e he).trans hla
  ahead := h.ahead

theorem handle (h : History M init s calls) {hd : Handler} {n : Node σ}
    (hn : s.node.handle hd = some n) : History M init { s with node := n } calls :=
  have hsame := Node.handle_sameSnapshot hn
  h.of_quiet hsame.stateMachine hsame.lastApplied.ge (Or.inr rfl)

theorem apply (h : History M init s calls) (hI : Indexed s) {r : Option LogEntry}
    (hs : s.applyStep M = some (s', r)) :
    History M init s' (calls ++ Event.smCalls s .apply) := by
  -- only one of the steps calls `Apply`
  have hquiet : s.applier.held = none → Event.smCalls s .apply = [] := by
    intro hnone
    change (s.applier.held.map SmCall.apply).toList = []
    rw [hnone]
    rfl
  cases Server.applyStep_inv hs with
  | fetch e ha hlt hb he =>
    rw [hquiet (by rw [ha]; rfl), List.append_nil]
    refine ⟨h.machine, fun x hx => ?_, fun x hx => Nat.le_succ_of_le (h.applied_le x hx), h.ahead⟩
    cases hx
    change e.index ≤ s.node.lastApplied + 1
    rw [hI.node.dense _ e he]
    omega
  | apply e ha =>
    have hcall : Event.smCalls s .apply = [.apply e] := by
      change (s.applier.held.map SmCall.apply).toList = [.apply e]
      rw [ha]
      rfl
    rw [hcall]
    refine ⟨?_, nofun, fun x hx => ?_, ?_⟩
    · rw [List.foldl_append, ← h.machine]
      rfl
    · rcases List.mem_append.mp hx with hx | hx
      · exact h.applied_le x hx
      · obtain rfl := SmCall.apply.inj (List.mem_singleton.mp hx)
        exact h.held_le x (by rw [ha]; rfl)
    · refine List.pairwise_append.mpr ⟨h.ahead, List.pairwise_singleton _ _, fun a _ b hb => ?_⟩
      obtain rfl := List.mem_singleton.mp hb
      exact nofun
  | discard la t ha =>
    rw [hquiet (by rw [ha]; rfl), List.append_nil]
    refine h.of_quiet ?_ ?_ (Or.inl rfl)
    · unfold Node.discardLogPrefixLocked
      split <;> rfl
    · unfold Node.discardLogPrefixLocked
      split <;> exact le_rfl
  | caughtUp ha hle | noSnapshot ha | capture ha hoff hlt | snapshotFailed la t ha
  | snapshot la t data ha hd | save la t data ha =>
    rw [hquiet (by rw [ha]; rfl), List.append_nil]
    exact h.of_quiet rfl le_rfl (Or.inl rfl)

theorem install (h : History M init s calls) {i : ℕ} (hahead : s.RestoresAhead i)
    {r : Option (ℕ × InstallSnapshotReply)} (hs : s.installStep M i = some (s', r)) :
    History M init s' (calls ++ Event.smCalls s (.install i)) := by
  have hquiet : ∀ th, s.installs[i]? = some th → th.stage ≠ .restore →
      Event.smCalls s (.install i) = [] := by
    intro th hi hst
    simp only [Event.smCalls, hi, if_neg hst]
  -- the call is made whether or not it succeeds
  have hrestore : ∀ th n, s.installs[i]? = some th → th.stage = .restore →
      n.stateMachine = (M.restore s.node.stateMachine th.args.data).getD s.node.stateMachine →
      n.lastApplied = s.node.lastApplied → ∀ l, History M init { s with node := n, installs := l }
          (calls ++ Event.smCalls s (.install i)) := by
    intro th n hi hst hsm hla l
    simp only [Event.smCalls, hi, if_pos hst]
    refine ⟨?_, fun e he => by rw [hla]; exact h.held_le e he, fun e he => ?_, ?_⟩
    · rw [List.foldl_append, ← h.machine]
      exact hsm
    · rw [hla]
      rcases List.mem_append.mp he with he | he
      · exact h.applied_le e he
      · cases List.mem_singleton.mp he
    · refine List.pairwise_append.mpr ⟨h.ahead, List.pairwise_singleton _ _, fun a ha b hb => ?_⟩
      rintro e j data rfl hrest
      obtain ⟨rfl, -⟩ := SmCall.restore.inj ((List.mem_singleton.mp hb).symm.trans hrest)
      exact (h.applied_le e ha).trans (hahead th hi hst)
  cases Server.installStep_inv hs with
  | save th hi hst =>
    rw [hquiet th hi (by rw [hst]; simp), List.append_nil]
    exact h.of_quiet rfl le_rfl (Or.inr rfl)
  | restoreFailed th hi hst hr => exact hrestore th s.node hi hst (by rw [hr]; rfl) rfl _
  | restore th sm hi hst hr =>
    exact hrestore th { s.node with stateMachine := sm } hi hst (by rw [hr]; rfl) rfl _
  | finish th hi hst =>
    rw [hquiet th hi (by rw [hst]; simp), List.append_nil]
    refine h.of_quiet ?_ ?_ (Or.inr rfl)
    · change (s.node.installSnapshotFinish th.args).stateMachine = s.node.stateMachine
      unfold Node.installSnapshotFinish
      split <;> rfl
    · change s.node.lastApplied ≤ (s.node.installSnapshotFinish th.args).lastApplied
      unfold Node.installSnapshotFinish
      split
      · exact le_rfl
      · exact le_max_right _ _

theorem receive (h : History M init s calls) (call : ℕ) (args : InstallSnapshotArgs) :
    History M init (s.installBegin call args).1 calls := by
  obtain ⟨n, hn, heq⟩ := s.installBegin_cases call args
  have hsame : SameSnapshot s.node n := by
    rcases hn with rfl | rfl
    · exact SameSnapshot.refl _
    · exact s.node.follow_sameSnapshot _ _
  rcases heq with heq | heq
  · rw [heq]; exact h.of_quiet hsame.stateMachine hsame.lastApplied.ge (Or.inr rfl)
  · rw [heq]; exact h.of_quiet hsame.stateMachine hsame.lastApplied.ge (Or.inr rfl)

end History

/-! ### A waiting proposal -/

/-- The term and the role of the node, seen from a waiting proposal: a candidate has left its term,
and a leader in its term has not lost its index. -/
structure Ranked (n : Node σ) (w : LogEntry) : Prop where
  term_pos : 0 < w.term
  term_le : w.term ≤ n.currentTerm
  candidate : n.state = .candidate → w.term < n.currentTerm
  leading : n.state = .leader → w.term = n.currentTerm → w.index ≤ n.lastLogIndexLocked

theorem Ranked.step {n n' : Node σ} {w : LogEntry} (h : Ranked n w) (hr : Node.RoleStep n n')
    (hlast : n'.state = .leader → w.index ≤ n.lastLogIndexLocked →
      w.index ≤ n'.lastLogIndexLocked) : Ranked n' w := by
  have hle := h.term_le
  cases hr with
  | later hterm hstate =>
    exact ⟨h.term_pos, by omega, fun _ => by omega, fun hl => absurd hl hstate⟩
  | same hterm hstate =>
    refine ⟨h.term_pos, by omega, fun hc => ?_, fun hl ht => ?_⟩
    · rw [hterm]
      rcases hstate with hs | hs | hs
      · exact h.candidate (hs.symm.trans hc)
      · cases hs.symm.trans hc
      · exact h.candidate hs
    · rw [hterm] at ht
      rcases hstate with hs | hs | hs
      · exact hlast hl (h.leading (hs.symm.trans hl) ht)
      · cases hs.symm.trans hl
      · -- a candidate that wins does so in a later term
        exact absurd ht (h.candidate hs).ne

/-- A new proposal has the term of its leader. -/
theorem Ranked.propose {n n' : Node σ} {w : LogEntry} (h : Ordered n)
    (hactive : n.state ≠ .follower → 0 < n.currentTerm) {batch : List Bytes}
    (hn : n.appendBatch batch = some n')
    (hw : w ∈ Node.batchEntries n.currentTerm (n.lastLogIndexLocked + 1) batch) :
    Ranked n' w := by
  have hlast := (h.appendBatch hn).dense
  have hsame := n.appendBatch_sameVote hn
  obtain ⟨hlead, heq⟩ := Node.appendBatch_eq hn
  obtain ⟨hterm, -, hat⟩ := Node.entryAt_of_mem_batch h.dense hw
  rw [← heq] at hat
  have hpos := hactive (by rw [hlead]; simp)
  refine ⟨hterm ▸ hpos, (hterm.trans hsame.currentTerm.symm).le, fun hc => ?_,
    fun _ _ => hlast.le_lastLogIndexLocked hat⟩
  -- a leader stays one
  rcases hsame.state with hs | hs
  · cases hc.symm.trans (hs.trans hlead)
  · cases hc.symm.trans hs

/-- **What the node knows of a waiting proposal**: what has its index and its term is the entry
itself, and it has been applied, or is just about to be, if it counts as applied. -/
structure Tracked (s : Server σ) (calls : List SmCall) (w : LogEntry) : Prop where
  same : ∀ x, s.node.entryAt w.index = some x → x.term = w.term → x = w
  applied : s.node.entryAt w.index = some w → w.index ≤ s.node.lastApplied →
    .apply w ∈ calls ∨ s.applier.held = some w
  base : w.index = s.node.logBaseIndex → w.term = s.node.logBaseTerm → .apply w ∈ calls
  captured : s.applier.snapshotAt = some (w.index, w.term) → .apply w ∈ calls

namespace Tracked

variable {M : StateMachine σ} {s s' : Server σ} {calls calls' : List SmCall} {w : LogEntry}

/-- A step that leaves the log and the applied index alone. -/
theorem of_same (h : Tracked s calls w) (hlog : s'.node.log = s.node.log)
    (hb : s'.node.logBaseIndex = s.node.logBaseIndex)
    (hbt : s'.node.logBaseTerm = s.node.logBaseTerm)
    (hla : s'.node.lastApplied = s.node.lastApplied) (hcalls : calls ⊆ calls')
    (hheld : s.applier.held = some w → .apply w ∈ calls' ∨ s'.applier.held = some w)
    (hcap : s'.applier.snapshotAt = some (w.index, w.term) → .apply w ∈ calls') :
    Tracked s' calls' w where
  same x := by
    rw [Node.entryAt_congr hlog hb]
    exact h.same x
  applied := by
    rw [Node.entryAt_congr hlog hb, hla]
    intro he hle
    rcases h.applied he hle with hdone | hw
    · exact Or.inl (hcalls hdone)
    · exact hheld hw
  base := by
    rw [hb, hbt]
    intro hi ht
    exact hcalls (h.base hi ht)
  captured := hcap

/-- **Handlers.** What they put into the log is an entry carried by an `AppendEntries`, or a
proposal of a later term or a later index. -/
theorem handle (h : Tracked s calls w) (hr : Ranked s.node w) (hI : Ordered s.node) {hd : Handler}
    (hsafe : hd.Safe s.node)
    (hcarried : ∀ args, hd = .appendEntries args → ∀ x ∈ args.entries, x.index = w.index →
      x.term = w.term → x = w) {n : Node σ} (hn : s.node.handle hd = some n) :
    Tracked { s with node := n } calls w := by
  have hsnap := Node.handle_sameSnapshot hn
  rcases Node.handle_log hn with hs | ⟨args, rfl, -, -⟩ | ⟨batch, rfl, heq⟩
  · exact h.of_same hs.log hs.base hs.baseTerm hsnap.lastApplied (fun _ hc => hc) Or.inr h.captured
  · cases hn
    have hkeeps := hsafe.1.keepsLog hI.dense hsafe.2
    refine ⟨fun x hx ht => ?_, fun he hle => ?_, fun hi ht => ?_, h.captured⟩
    · rcases Node.entryAt_handleAppendEntries hx with hold | hnew
      · exact h.same x hold ht
      · exact hcarried args rfl x hnew (hkeeps.dense.index_of_entryAt hx) ht
    · change w.index ≤ (s.node.handleAppendEntries args).1.lastApplied at hle
      rw [hsnap.lastApplied] at hle
      refine h.applied ?_ hle
      -- the index is committed, so its entry has not changed
      have hb := hkeeps.base ▸ Node.lt_of_entryAt he
      have hcommit := hle.trans hI.applied_le
      obtain ⟨x, hx⟩ := hI.dense.exists_entryAt hb (hcommit.trans hI.commit_le)
      rw [hx, ← hkeeps.committed _ hcommit x hx]
      exact he
    · exact h.base (hi.trans hsnap.base) (ht.trans Node.handleAppendEntries_logBaseTerm)
  · have hlead := (Node.appendBatch_eq hn).1
    subst heq
    refine ⟨fun x hx ht => ?_, fun he hle => ?_, fun hi ht => ?_, h.captured⟩
    · rcases Node.entryAt_appendLogLocked hx with hold | hnew
      · exact h.same x hold ht
      · obtain ⟨hterm, hlt, -⟩ := Node.entryAt_of_mem_batch hI.dense hnew
        have hidx := ((hI.appendBatch hn).dense).index_of_entryAt hx
        have := hr.leading hlead (ht.symm.trans hterm)
        omega
    · change w.index ≤ (Node.appendLogLocked _ _).lastApplied at hle
      rw [hsnap.lastApplied] at hle
      rcases Node.entryAt_appendLogLocked he with hold | hnew
      · exact h.applied hold hle
      · obtain ⟨-, hlt, -⟩ := Node.entryAt_of_mem_batch hI.dense hnew
        have := hI.applied_le
        have := hI.commit_le
        omega
    · exact h.base (hi.trans hsnap.base) (ht.trans (Node.appendLogLocked_logBaseTerm _))

/-- **The steps of `applyLoop`.** -/
theorem apply (h : Tracked s calls w) (hI : Indexed s) {r : Option LogEntry}
    (hs : s.applyStep M = some (s', r)) :
    Tracked s' (calls ++ Event.smCalls s .apply) w := by
  have hcalls : calls ⊆ calls ++ Event.smCalls s .apply := List.subset_append_left _ _
  have hcap := h.captured
  have hdone : s.applier.held = some w → .apply w ∈ calls ++ Event.smCalls s .apply :=
    fun hw => List.mem_append_right _ (Event.mem_smCalls_of_held hw)
  have hstay : ∀ {n : Node σ} {a : Applier},
      n.log = s.node.log → n.logBaseIndex = s.node.logBaseIndex →
      n.logBaseTerm = s.node.logBaseTerm → n.lastApplied = s.node.lastApplied →
      (a.snapshotAt = some (w.index, w.term) → .apply w ∈ calls) →
      Tracked { s with node := n, applier := a } (calls ++ Event.smCalls s .apply) w := by
    intro n a hlog hb hbt hla hat
    exact h.of_same hlog hb hbt hla hcalls (fun hw => Or.inl (hdone hw)) fun hcap =>
      hcalls (hat hcap)
  cases Server.applyStep_inv hs with
  | caughtUp ha hle | apply e ha | noSnapshot ha | snapshotFailed la t ha =>
    exact hstay rfl rfl rfl rfl nofun
  | fetch e ha hlt hb he =>
    refine ⟨h.same, fun hw hle => ?_, fun hi ht => hcalls (h.base hi ht), fun hat =>
      absurd hat (by simp [Applier.snapshotAt])⟩
    rcases Nat.lt_or_ge s.node.lastApplied w.index with hlt' | hle'
    · -- the entry fetched is the one waited for
      have hidx : w.index = s.node.lastApplied + 1 := le_antisymm hle hlt'
      have hw : s.node.entryAt w.index = some w := hw
      rw [hidx, Node.entryAt_succ hb, he] at hw
      exact Or.inr hw
    · exact Or.inl ((h.applied hw hle').elim (fun hc => hcalls hc) hdone)
  | capture ha hoff hlt =>
    refine hstay rfl rfl rfl rfl fun hat => ?_
    -- what is captured is the entry at `lastApplied`, which is not held any more
    obtain ⟨hidx, hterm⟩ := Prod.mk.inj (Option.some.inj hat)
    obtain ⟨e, he⟩ := hI.node.dense.exists_entryAt hlt (hI.node.applied_le.trans hI.node.commit_le)
    rw [Node.termAtLocked_of_entryAt hI.node.dense he] at hterm
    rw [hidx] at he
    obtain rfl := h.same e he hterm
    rcases h.applied he hidx.ge with hdone | hheld
    · exact hdone
    · rw [ha] at hheld
      cases hheld
  | snapshot la t data ha hd | save la t data ha =>
    rw [ha] at hcap
    exact hstay rfl rfl rfl rfl hcap
  | discard la t ha =>
    rw [ha] at hcap
    rcases hI.discard_cases ha with heq | ⟨-, heq⟩
    · rw [heq]
      exact hstay rfl rfl rfl rfl nofun
    · refine ⟨fun x hx => h.same x (hI.node.dense.entryAt_discard hx), fun hw hla => ?_,
        fun hi ht => ?_, nofun⟩
      · change w.index ≤ (s.node.discardLogPrefixLocked la t).lastApplied at hla
        rw [heq] at hla
        have happlied := h.applied (hI.node.dense.entryAt_discard hw) hla
        exact Or.inl (happlied.elim (fun hc => hcalls hc) hdone)
      · change w.index = (s.node.discardLogPrefixLocked la t).logBaseIndex at hi
        change w.term = (s.node.discardLogPrefixLocked la t).logBaseTerm at ht
        rw [heq] at hi ht
        refine hcalls (hcap ?_)
        rw [hi, ht]
        rfl

/-- **The steps of an installation.** A finished one replaces the log by a snapshot, which must not
end in an entry that is waited for. -/
theorem install (h : Tracked s calls w) {i : ℕ}
    (hend : ∀ th, s.installs[i]? = some th → th.stage = .finish →
      s.node.logBaseIndex < th.args.lastIncludedIndex →
        w.index = th.args.lastIncludedIndex → w.term ≠ th.args.lastIncludedTerm)
    {r : Option (ℕ × InstallSnapshotReply)} (hs : s.installStep M i = some (s', r)) :
    Tracked s' (calls ++ Event.smCalls s (.install i)) w := by
  have hcalls : calls ⊆ calls ++ Event.smCalls s (.install i) := List.subset_append_left _ _
  have hsame : ∀ n l, n.log = s.node.log → n.logBaseIndex = s.node.logBaseIndex →
      n.logBaseTerm = s.node.logBaseTerm → n.lastApplied = s.node.lastApplied →
      Tracked { s with node := n, installs := l } (calls ++ Event.smCalls s (.install i)) w :=
    fun n l hlog hb hbt hla => h.of_same hlog hb hbt hla hcalls Or.inr fun hat =>
      hcalls (h.captured hat)
  cases Server.installStep_inv hs with
  | save th hi hst | restoreFailed th hi hst hr | restore th sm hi hst hr =>
    exact hsame _ _ rfl rfl rfl rfl
  | finish th hi hst =>
    by_cases hlt : s.node.logBaseIndex < th.args.lastIncludedIndex
    · have heq : s.node.installSnapshotFinish th.args = _ := if_neg (not_le.mpr hlt)
      rw [heq]
      -- the log is empty, so only its base is left to look at
      have hnone : ∀ x, ¬ (if w.index ≤ th.args.lastIncludedIndex then none
          else ([] : List LogEntry)[w.index - th.args.lastIncludedIndex - 1]?) = some x := by
        intro x
        split <;> simp
      refine ⟨fun x hx => absurd hx (hnone x), fun hw => absurd hw (hnone w), fun hidx ht => ?_,
        fun hat => hcalls (h.captured hat)⟩
      exact absurd ht (hend th hi hst hlt hidx)
    · have heq : s.node.installSnapshotFinish th.args = s.node := if_pos (not_lt.mp hlt)
      rw [heq]
      exact hsame _ _ rfl rfl rfl rfl

theorem receive (h : Tracked s calls w) (call : ℕ) (args : InstallSnapshotArgs) :
    Tracked (s.installBegin call args).1 calls w := by
  obtain ⟨n, hn, heq⟩ := s.installBegin_cases call args
  have hsame : SameLog s.node n ∧ n.lastApplied = s.node.lastApplied := by
    rcases hn with rfl | rfl
    · exact ⟨SameLog.refl _, rfl⟩
    · exact ⟨s.node.follow_sameLog _ _, (s.node.follow_sameSnapshot _ _).lastApplied⟩
  obtain ⟨hlog, hla⟩ := hsame
  rcases heq with heq | heq
  · rw [heq]
    exact h.of_same hlog.log hlog.base hlog.baseTerm hla (fun _ hc => hc) Or.inr h.captured
  · rw [heq]
    exact h.of_same hlog.log hlog.base hlog.baseTerm hla (fun _ hc => hc) Or.inr h.captured

/-- **A new proposal** is at its index, which nothing has reached yet. -/
theorem propose (hI : Indexed s) {batch : List Bytes} {n : Node σ}
    (hn : s.node.appendBatch batch = some n)
    (hw : w ∈ Node.batchEntries s.node.currentTerm (s.node.lastLogIndexLocked + 1) batch)
    (calls : List SmCall) : Tracked { s with node := n } calls w := by
  obtain ⟨-, heq⟩ := Node.appendBatch_eq hn
  have hsnap := s.node.appendLogLocked_sameSnapshot
    (Node.batchEntries s.node.currentTerm (s.node.lastLogIndexLocked + 1) batch)
  rw [← heq] at hsnap
  obtain ⟨-, hlt, hat⟩ := Node.entryAt_of_mem_batch hI.node.dense hw
  rw [← heq] at hat
  have happlied := hI.node.applied_le.trans hI.node.commit_le
  refine ⟨fun x hx _ => Option.some.inj (hx.symm.trans hat), fun _ hle => ?_, fun hi _ => ?_,
    fun hcap => ?_⟩
  · change w.index ≤ n.lastApplied at hle
    rw [hsnap.lastApplied] at hle
    omega
  · change w.index = n.logBaseIndex at hi
    rw [hsnap.base] at hi
    have := hI.node.base_le
    omega
  · have hla := hI.captured_le w.index (by
      rw [Applier.captured_eq, show s.applier.snapshotAt = _ from hcap]
      rfl)
    omega

end Tracked

/-! ### The runs -/

theorem Event.exists_batch_of_mem_proposed {n : Node σ} {e : Event} {w : LogEntry}
    (hw : w ∈ e.proposed n) : ∃ batch, e = .handle (.propose batch) := by
  cases e with
  | handle hd =>
    cases hd with
    | propose batch => exact ⟨batch, rfl⟩
    | _ => cases hw
  | _ => cases hw

/-- What the rest of the system guarantees to the proposals that wait: the indices stay in order, no
`AppendEntries` carries another entry under the index and term of one of them, and no snapshot
is installed that ends in one of them, or cuts one of them off at its leader. -/
def Event.Honors (p : Proposer σ) : Event → Prop
  | .handle (.appendEntries args) =>
      Handler.Safe p.server.node (.appendEntries args) ∧
        ∀ x ∈ args.entries, ∀ w ∈ p.waiting, x.index = w.index → x.term = w.term → x = w
  | .install i => p.server.InstallReaches i ∧ p.server.RestoresAhead i ∧
      ∀ th ∈ p.server.installs[i]?, th.stage = .finish →
        p.server.node.logBaseIndex < th.args.lastIncludedIndex → ∀ w ∈ p.waiting,
          (p.server.node.state = .leader → w.index ≤ th.args.lastIncludedIndex) ∧
            (w.index = th.args.lastIncludedIndex → w.term ≠ th.args.lastIncludedTerm)
  | _ => True

theorem Event.Honors.safe {p : Proposer σ} {e : Event} (h : e.Honors p) : e.Safe p.server := by
  cases e with
  | handle hd =>
    cases hd with
    | appendEntries args => exact h.1
    | _ => trivial
  | install i => exact h.1
  | apply => trivial
  | receive call args => trivial

instance Event.Honors.decidable (p : Proposer σ) : (e : Event) → Decidable (e.Honors p)
  | .handle (.appendEntries args) => inferInstanceAs (Decidable (_ ∧ ∀ x ∈ args.entries,
      ∀ w ∈ p.waiting, x.index = w.index → x.term = w.term → x = w))
  | .install i => inferInstanceAs (Decidable (_ ∧ _ ∧ ∀ th ∈ p.server.installs[i]?, _ → _ →
      ∀ w ∈ p.waiting, _ ∧ _))
  | .handle (.requestVote _) | .handle .campaign | .handle (.voteReply _ _ _)
  | .handle (.entriesReply _ _ _) | .handle (.snapshotReply _ _ _) | .handle (.propose _)
  | .apply | .receive _ _ => inferInstanceAs (Decidable True)

/-- **The missing condition**: no proposal polls while its entry is between the two halves of an
iteration of `applyPending`. -/
def Proposer.Settled (p : Proposer σ) : ProposerEvent → Prop
  | .process e => e.Honors p
  | .poll j => ∀ w ∈ p.waiting[j]?, ∀ e ∈ p.server.applier.held, e.index ≠ w.index
  | .cancel _ => True

instance Proposer.Settled.decidable (p : Proposer σ) : (e : ProposerEvent) → Decidable (p.Settled e)
  | .process e => inferInstanceAs (Decidable (e.Honors p))
  | .poll j => inferInstanceAs (Decidable (∀ w ∈ p.waiting[j]?, ∀ e ∈ p.server.applier.held, _))
  | .cancel _ => inferInstanceAs (Decidable True)

/-- The invariant of the runs. -/
structure Waiting (M : StateMachine σ) (init : σ) (p : Proposer σ) : Prop where
  indexed : Indexed p.server
  active : p.server.node.state ≠ .follower → 0 < p.server.node.currentTerm
  history : History M init p.server p.calls
  waiting : ∀ w ∈ p.waiting, Ranked p.server.node w ∧ Tracked p.server p.calls w
  reported : ∀ r ∈ p.reports, r.verdict = .applied → .apply r.entry ∈ p.calls

namespace Waiting

variable {M : StateMachine σ} {init : σ} {p p' : Proposer σ} {s' : Server σ} {e : Event}

theorem start {n : Node σ} (h : Ordered n) (hactive : n.state ≠ .follower → 0 < n.currentTerm) :
    Waiting M n.stateMachine (Proposer.start n) where
  indexed := .start h
  active := hactive
  history := ⟨rfl, nofun, nofun, List.Pairwise.nil⟩
  waiting _ hw := absurd hw List.not_mem_nil
  reported _ hr := absurd hr List.not_mem_nil

/-- What a step of the process does to terms and roles. -/
theorem roleStep (hs : p.server.step M e = some s') :
    Node.RoleStep p.server.node s'.node := by
  cases Server.step_cases hs with
  | handle hd n hn => exact Node.handle_roleStep hn
  | apply s₁ r hs₁ => exact .of_sameVote (Server.applyStep_same hs₁).node
  | receive call args =>
    exact .of_adopt (Server.installBegin_same (r := (p.server.installBegin call args).2) rfl).1
  | install i s₁ r hs₁ => exact .of_sameVote (Server.installStep_same hs₁).node

/-- A leader does not lose the index of a waiting proposal. -/
theorem reach (h : Waiting M init p) (he : e.Honors p) (hs : p.server.step M e = some s')
    {w : LogEntry} (hw : w ∈ p.waiting) (hlead : s'.node.state = .leader)
    (hle : w.index ≤ p.server.node.lastLogIndexLocked) :
    w.index ≤ s'.node.lastLogIndexLocked := by
  have hsafe : e.Safe p.server := he.safe
  cases Server.step_cases hs with
  | handle hd n hn =>
    rcases Node.handle_log hn with hsame | ⟨args, rfl, -, -⟩ | ⟨batch, rfl, -⟩
    · exact hle.trans hsame.lastLogIndexLocked.ge
    · cases hn
      -- one that is still leading has refused the entries
      rw [Node.handleAppendEntries_of_leader _ hlead]
      exact hle
    · exact hle.trans (Node.lastLogIndexLocked_appendBatch h.indexed.node.dense hn
        (h.indexed.node.appendBatch hn).dense)
  | apply s₁ r hs₁ =>
    cases Server.applyStep_inv hs₁ with
    | discard la t ha =>
      exact hle.trans (h.indexed.node.dense.lastLogIndexLocked_discard la t).ge
    | _ => exact hle
  | receive call args =>
    obtain ⟨n, hn, heq⟩ := p.server.installBegin_cases call args
    have hlast : n.lastLogIndexLocked = p.server.node.lastLogIndexLocked := by
      rcases hn with rfl | rfl
      · rfl
      · exact (p.server.node.follow_sameLog _ _).lastLogIndexLocked
    rcases heq with heq | heq
    · rw [heq]; exact hle.trans hlast.ge
    · rw [heq]; exact hle.trans hlast.ge
  | install i s₁ r hs₁ =>
    have hstate := (Server.installStep_same hs₁).node.state
    -- an installation does not make a leader
    have hwas : p.server.node.state = .leader := by
      rcases hstate with h₁ | h₁
      · exact h₁.symm.trans hlead
      · cases h₁.symm.trans hlead
    cases Server.installStep_inv hs₁ with
    | finish th hi hst =>
      change w.index ≤ (p.server.node.installSnapshotFinish th.args).lastLogIndexLocked
      unfold Node.installSnapshotFinish
      split
      · exact hle
      · next hlt => exact (he.2.2 th hi hst (not_le.mp hlt) w hw).1 hwas
    | _ => exact hle

/-- **The process takes a step.** -/
theorem process (h : Waiting M init p) (he : e.Honors p) (hs : p.server.step M e = some s') :
    Waiting M init { p with
      server := s'
      waiting := p.waiting ++ e.proposed p.server.node
      calls := p.calls ++ e.smCalls p.server } where
  indexed := h.indexed.step he.safe hs
  active hstate := by
    have hactive := h.active
    cases roleStep hs with
    | later hterm _ => exact Nat.zero_lt_of_lt hterm
    | same hterm hrole =>
      change 0 < s'.node.currentTerm
      rw [hterm]
      rcases hrole with hr | hr | hr
      · exact hactive (by rw [← hr]; exact hstate)
      · exact absurd hr hstate
      · exact hactive (by rw [hr]; simp)
  history := by
    cases Server.step_cases hs with
    | handle hd n hn => exact (List.append_nil p.calls).symm ▸ h.history.handle hn
    | apply s₁ r hs₁ => exact h.history.apply h.indexed hs₁
    | receive call args => exact (List.append_nil p.calls).symm ▸ h.history.receive call args
    | install i s₁ r hs₁ => exact h.history.install he.2.1 hs₁
  waiting w hw := by
    rcases List.mem_append.mp hw with hold | hnew
    · obtain ⟨hr, ht⟩ := h.waiting w hold
      refine ⟨hr.step (roleStep hs) (h.reach he hs hold), ?_⟩
      cases Server.step_cases hs with
      | handle hd n hn =>
        refine (List.append_nil p.calls).symm ▸ ht.handle hr h.indexed.node he.safe ?_ hn
        rintro args rfl x hx
        exact he.2 x hx w hold
      | apply s₁ r hs₁ => exact ht.apply h.indexed hs₁
      | receive call args => exact (List.append_nil p.calls).symm ▸ ht.receive call args
      | install i s₁ r hs₁ =>
        exact ht.install (fun th hi hst hlt => (he.2.2 th hi hst hlt w hold).2) hs₁
    · -- only a batch at the leader brings new proposals
      obtain ⟨batch, rfl⟩ := Event.exists_batch_of_mem_proposed hnew
      obtain ⟨n, hn, rfl⟩ := Option.map_eq_some_iff.mp hs
      exact ⟨.propose h.indexed.node h.active hn hnew, .propose h.indexed hn hnew _⟩
  reported r hr hv := List.mem_append_left _ (h.reported r hr hv)

/-- **A proposal polls.** -/
theorem poll (h : Waiting M init p) {j : ℕ}
    (hfree : ∀ w ∈ p.waiting[j]?, ∀ e ∈ p.server.applier.held, e.index ≠ w.index)
    (hs : p.poll j = some p') : Waiting M init p' := by
  obtain ⟨w, hw, rfl | ⟨v, hv, rfl⟩⟩ := Proposer.poll_cases hs
  · exact h
  refine ⟨h.indexed, h.active, h.history, fun x hx => h.waiting x (List.mem_of_mem_eraseIdx hx),
    fun r hr hr' => ?_⟩
  rcases List.mem_append.mp hr with hr | hr
  · exact h.reported r hr hr'
  · obtain rfl := List.mem_singleton.mp hr
    obtain rfl : v = .applied := hr'
    obtain ⟨hrank, htrack⟩ := h.waiting w (List.mem_of_getElem? hw)
    have hI := h.indexed.node
    obtain ⟨hle, hterm⟩ := Node.waitForApply_applied (hI.applied_le.trans hI.commit_le) hv
    -- the term found is that of the snapshot, or that of an entry
    rcases Node.termAtLocked_cases hI.dense (hterm.symm ▸ hrank.term_pos) with
      ⟨hbase, hbt⟩ | ⟨x, hx, hxt⟩
    · exact htrack.base hbase (hterm.symm.trans hbt)
    · obtain rfl := htrack.same x hx (hxt.symm.trans hterm)
      rcases htrack.applied hx hle with hdone | hheld
      · exact hdone
      · exact absurd rfl (hfree x hw x hheld)

/-- **Every step** keeps the invariant. -/
theorem step (h : Waiting M init p) {e : ProposerEvent} (hok : p.Settled e)
    (hs : p.step M e = some p') : Waiting M init p' := by
  cases e with
  | process e =>
    obtain ⟨s', hs', rfl⟩ := Option.map_eq_some_iff.mp hs
    exact h.process hok hs'
  | poll j => exact h.poll hok hs
  | cancel j =>
    change (if j < p.waiting.length then some _ else none) = some p' at hs
    split at hs
    · cases hs
      exact ⟨h.indexed, h.active, h.history,
        fun x hx => h.waiting x (List.mem_of_mem_eraseIdx hx), h.reported⟩
    · cases hs

end Waiting

/-- The state machine has seen the command of an entry, and since then has only been replaced by
snapshots that have it. -/
def Proposer.Reflects (p : Proposer σ) (e : LogEntry) : Prop :=
  ∃ before after, p.calls = before ++ .apply e :: after ∧
    ∀ i data, SmCall.restore i data ∈ after → e.index ≤ i

/-- **`nil` means applied**, in every run in which no proposal polls while `applyPending` holds its
entry: whenever `Propose` has returned `nil`, the `Apply` of its entry has returned, and what the
state machine is now comes from that call, later ones, and snapshots that include the entry. -/
theorem propose_nil_applied (M : StateMachine σ) (n : Node σ) (hn : Ordered n)
    (hactive : n.state ≠ .follower → 0 < n.currentTerm) (p : Proposer σ)
    (h : Runs (Proposer.step M) Proposer.Settled (Proposer.start n) p) :
    (∀ r ∈ p.reports, r.verdict = .applied → p.Reflects r.entry) ∧
      p.server.node.stateMachine = p.calls.foldl (SmCall.perform M) n.stateMachine := by
  have hinv : Waiting M n.stateMachine p :=
    h.invariant (fun _ _ _ hI hok hs => hI.step hok hs) (.start hn hactive)
  refine ⟨fun r hr hv => ?_, hinv.history.machine⟩
  obtain ⟨before, after, heq⟩ := List.append_of_mem (hinv.reported r hr hv)
  refine ⟨before, after, heq, fun i data hi => ?_⟩
  have hahead := hinv.history.ahead
  rw [heq] at hahead
  have hlater := (List.pairwise_append.mp hahead).2.1
  exact List.rel_of_pairwise_cons hlater hi r.entry i data rfl rfl

/-- The node "a" of three, after `NewNode` on an empty storage. -/
def firstNode : Node Bytes :=
  (Cluster.initial trio fun _ => []).node "a"

theorem firstNode_ordered : Ordered firstNode :=
  ⟨nofun, le_rfl, le_rfl, le_rfl⟩

/-- "a" is elected, takes a proposal, and learns that "b" has it; its `applyPending` fetches the
entry. -/
def proposeAndFetch : List ProposerEvent :=
  [.process (.handle .campaign), .process (.handle (.voteReply 1 1 ⟨1, true⟩)),
    .process (.handle (.propose [[7]])),
    .process (.handle (.entriesReply "b" ⟨1, "a", 0, 0, [⟨1, 1, [7]⟩], 0⟩ ⟨1, true, 0⟩)),
    .process .apply]

/-- A poll after the `Apply`. -/
theorem propose_nil_applied_once : ∃ p : Proposer Bytes,
      Runs (Proposer.step journal) Proposer.Settled (Proposer.start firstNode) p ∧
      p.reports = [⟨⟨1, 1, [7]⟩, 0, .applied⟩] ∧ p.server.node.stateMachine = [7] ∧
      ∀ r ∈ p.reports, r.verdict = .applied → p.Reflects r.entry := by
  have hrun : (exec (guarded (Proposer.step journal) Proposer.Settled) (Proposer.start firstNode)
      (proposeAndFetch ++ [.process .apply, .poll 0])).map
        (fun p => (p.reports, p.server.node.stateMachine)) =
      some ([⟨⟨1, 1, [7]⟩, 0, .applied⟩], [7]) := by
    decide +kernel
  obtain ⟨p, hp, hobs⟩ := Runs.of_exec_guarded_map hrun
  obtain ⟨hreports, hsm⟩ := Prod.mk.inj hobs
  exact ⟨p, hp, hreports, hsm,
    (propose_nil_applied journal firstNode firstNode_ordered (fun h => absurd rfl h) p hp).1⟩

/-- **A poll before the `Apply`**: `Propose` returns `nil`, and no call into the state machine has
been made, so that a read does not see the command. -/
theorem nil_before_apply :
    ∃ p : Proposer Bytes, Reaches (Proposer.step journal) (Proposer.start firstNode) p ∧
      p.reports = [⟨⟨1, 1, [7]⟩, 0, .applied⟩] ∧ p.calls = [] ∧
      p.server.node.stateMachine = [] := by
  have hrun : (exec (Proposer.step journal) (Proposer.start firstNode)
      (proposeAndFetch ++ [.poll 0])).map
        (fun p => (p.reports, p.calls, p.server.node.stateMachine)) =
      some ([⟨⟨1, 1, [7]⟩, 0, .applied⟩], [], []) := by
    decide +kernel
  obtain ⟨p, hp, hobs⟩ := Reaches.of_exec_map hrun
  simp only [Prod.mk.injEq] at hobs
  exact ⟨p, hp, hobs⟩

end Raft
end BoilerPulse
