import BoilerPulse.Raft.Waiting

/-!
# When "overwritten" means not applied

`waitForApply` takes another term at the index of its entry for a sign that another leader has
overwritten it. While one leader is in office nothing is overwritten, so whenever it says so there,
it is wrong, and the entry has been applied: the snapshot taken after it has moved the base past its
index, and `termAtLocked` answers `0` there. A snapshot at the index itself is harmless, since
`logBaseTerm` is the term of the entry.
-/

namespace BoilerPulse
namespace Raft

open Framework

variable {σ : Type}

/-- The steps of a node that keeps its term: batches, replies of its followers, `applyLoop`, and
polls. -/
def Proposer.LeaderOnly (p : Proposer σ) : ProposerEvent → Prop
  | .process (.handle (.propose _)) => True
  | .process (.handle (.entriesReply _ _ r)) => r.term ≤ p.server.node.currentTerm
  | .process (.handle (.snapshotReply _ _ r)) => r.term ≤ p.server.node.currentTerm
  | .process .apply => True
  | .poll _ | .cancel _ => True
  | _ => False

/-- A proposal of the present term: its entry is in the log, or in a snapshot that knows its term
if it ends there, and it has been applied or is just about to be if it counts as applied. -/
structure Owned (s : Server σ) (calls : List SmCall) (w : LogEntry) : Prop where
  term : w.term = s.node.currentTerm
  pos : 0 < w.index
  le_last : w.index ≤ s.node.lastLogIndexLocked
  entry : s.node.logBaseIndex < w.index → s.node.entryAt w.index = some w
  applied : w.index ≤ s.node.lastApplied → .apply w ∈ calls ∨ s.applier.held = some w
  base : w.index = s.node.logBaseIndex → w.term = s.node.logBaseTerm
  captured : ∀ t, s.applier.snapshotAt = some (w.index, t) → w.term = t

namespace Owned

variable {M : StateMachine σ} {s s' : Server σ} {calls calls' : List SmCall} {w : LogEntry}

/-- A step that leaves the term, the log and the applied index alone. -/
theorem of_same (h : Owned s calls w) (hterm : s'.node.currentTerm = s.node.currentTerm)
    (hlog : s'.node.log = s.node.log) (hb : s'.node.logBaseIndex = s.node.logBaseIndex)
    (hbt : s'.node.logBaseTerm = s.node.logBaseTerm)
    (hla : s'.node.lastApplied = s.node.lastApplied) (hcalls : calls ⊆ calls')
    (hheld : s.applier.held = some w → .apply w ∈ calls' ∨ s'.applier.held = some w)
    (hcap : ∀ t, s'.applier.snapshotAt = some (w.index, t) → w.term = t) : Owned s' calls' w where
  term := h.term.trans hterm.symm
  pos := h.pos
  le_last := by
    have hlast : s'.node.lastLogIndexLocked = s.node.lastLogIndexLocked := by
      unfold Node.lastLogIndexLocked
      rw [hlog, hb]
    rw [hlast]
    exact h.le_last
  entry hlt := by
    rw [Node.entryAt_congr hlog hb]
    exact h.entry (hb ▸ hlt)
  applied hle := by
    rcases h.applied (hla ▸ hle) with hdone | hw
    · exact Or.inl (hcalls hdone)
    · exact hheld hw
  base hi := by
    rw [hbt]
    exact h.base (hi.trans hb)
  captured := hcap

/-- **A batch** goes behind what is there. -/
theorem appendBatch (h : Owned s calls w) (hI : Indexed s) {batch : List Bytes} {n : Node σ}
    (hn : s.node.appendBatch batch = some n) : Owned { s with node := n } calls w := by
  have hlast := Node.lastLogIndexLocked_appendBatch hI.node.dense hn (hI.node.appendBatch hn).dense
  have hterm := (s.node.appendBatch_sameVote hn).currentTerm
  obtain ⟨-, rfl⟩ := Node.appendBatch_eq hn
  have hsnap := s.node.appendLogLocked_sameSnapshot
    (Node.batchEntries s.node.currentTerm (s.node.lastLogIndexLocked + 1) batch)
  refine ⟨h.term.trans hterm.symm, h.pos, h.le_last.trans hlast, fun hlt => ?_, fun hle => ?_,
    fun hi => ?_, h.captured⟩
  · exact Node.entryAt_appendLogLocked_of_some _ (h.entry (hsnap.base ▸ hlt))
  · exact h.applied (hsnap.lastApplied ▸ hle)
  · exact (h.base (hi.trans hsnap.base)).trans (Node.appendLogLocked_logBaseTerm _).symm

/-- **A new proposal.** -/
theorem propose (hI : Indexed s) {batch : List Bytes} {n : Node σ}
    (hn : s.node.appendBatch batch = some n)
    (hw : w ∈ Node.batchEntries s.node.currentTerm (s.node.lastLogIndexLocked + 1) batch)
    (calls : List SmCall) : Owned { s with node := n } calls w := by
  have hdense := (hI.node.appendBatch hn).dense
  have hvote := (s.node.appendBatch_sameVote hn).currentTerm
  obtain ⟨-, rfl⟩ := Node.appendBatch_eq hn
  have hsnap := s.node.appendLogLocked_sameSnapshot
    (Node.batchEntries s.node.currentTerm (s.node.lastLogIndexLocked + 1) batch)
  obtain ⟨hterm, hlt, hat⟩ := Node.entryAt_of_mem_batch hI.node.dense hw
  have happlied := hI.node.applied_le.trans hI.node.commit_le
  have hbase := hI.node.base_le
  refine ⟨hterm.trans hvote.symm, by omega, hdense.le_lastLogIndexLocked hat, fun _ => hat,
    fun hle => ?_, fun hi => ?_, fun t hcap => ?_⟩
  · change w.index ≤ (Node.appendLogLocked _ _).lastApplied at hle
    rw [hsnap.lastApplied] at hle
    omega
  · change w.index = (Node.appendLogLocked _ _).logBaseIndex at hi
    rw [hsnap.base] at hi
    omega
  · have hla := hI.captured_le w.index (by
      rw [Applier.captured_eq, show s.applier.snapshotAt = _ from hcap]
      rfl)
    omega

/-- **The steps of `applyLoop`.** -/
theorem apply (h : Owned s calls w) (hI : Indexed s) {r : Option LogEntry}
    (hs : s.applyStep M = some (s', r)) : Owned s' (calls ++ Event.smCalls s .apply) w := by
  have hcalls : calls ⊆ calls ++ Event.smCalls s .apply := List.subset_append_left _ _
  have hcap := h.captured
  have hdone : s.applier.held = some w → .apply w ∈ calls ++ Event.smCalls s .apply :=
    fun hw => List.mem_append_right _ (Event.mem_smCalls_of_held hw)
  have hstay : ∀ {n : Node σ} {a : Applier},
      n.currentTerm = s.node.currentTerm → n.log = s.node.log →
      n.logBaseIndex = s.node.logBaseIndex → n.logBaseTerm = s.node.logBaseTerm →
      n.lastApplied = s.node.lastApplied →
      (∀ t, a.snapshotAt = some (w.index, t) → w.term = t) →
      Owned { s with node := n, applier := a } (calls ++ Event.smCalls s .apply) w := by
    intro n a hterm hlog hb hbt hla hat
    exact h.of_same hterm hlog hb hbt hla hcalls (fun hw => Or.inl (hdone hw)) hat
  cases Server.applyStep_inv hs with
  | caughtUp ha hle | apply e ha | noSnapshot ha | snapshotFailed la t ha =>
    exact hstay rfl rfl rfl rfl rfl nofun
  | fetch e ha hlt hb he =>
    refine ⟨h.term, h.pos, h.le_last, h.entry, fun hle => ?_, h.base, nofun⟩
    rcases Nat.lt_or_ge s.node.lastApplied w.index with hlt' | hle'
    · have hw := h.entry (hb.trans_lt hlt')
      have hidx : w.index = s.node.lastApplied + 1 := le_antisymm hle hlt'
      rw [hidx, Node.entryAt_succ hb, he] at hw
      exact Or.inr hw
    · exact Or.inl ((h.applied hle').elim (fun hc => hcalls hc) hdone)
  | capture ha hoff hlt =>
    refine hstay rfl rfl rfl rfl rfl fun t hat => ?_
    obtain ⟨hidx, hterm⟩ := Prod.mk.inj (Option.some.inj hat)
    rw [hidx] at hlt hterm
    exact (Node.termAtLocked_of_entryAt hI.node.dense (h.entry hlt)).symm.trans hterm
  | snapshot la t data ha hd | save la t data ha =>
    rw [ha] at hcap
    exact hstay rfl rfl rfl rfl rfl hcap
  | discard la t ha =>
    rw [ha] at hcap
    have hlast := hI.node.dense.lastLogIndexLocked_discard la t
    have hterm := (s.node.discardLogPrefixLocked_sameVote la t).currentTerm
    rcases hI.discard_cases ha with heq | ⟨hb, heq⟩
    · rw [heq]
      exact hstay rfl rfl rfl rfl rfl nofun
    · refine ⟨h.term.trans hterm.symm, h.pos, h.le_last.trans hlast.ge, fun hlt => ?_,
        fun hla => ?_, fun hi => ?_, nofun⟩
      · -- the entry is past the new base
        change (s.node.discardLogPrefixLocked la t).logBaseIndex < w.index at hlt
        change (s.node.discardLogPrefixLocked la t).entryAt w.index = some w
        rw [heq] at hlt ⊢
        dsimp only at hlt
        have hw := h.entry (hb.trans hlt)
        rw [Node.entryAt_of_lt (hb.trans hlt)] at hw
        rw [Node.entryAt_of_lt hlt, List.getElem?_drop, ← hw]
        congr 1
        dsimp only
        omega
      · change w.index ≤ (s.node.discardLogPrefixLocked la t).lastApplied at hla
        rw [heq] at hla
        exact Or.inl ((h.applied hla).elim (fun hc => hcalls hc) hdone)
      · -- the new base is at the entry, and has the term captured there
        change w.index = (s.node.discardLogPrefixLocked la t).logBaseIndex at hi
        change w.term = (s.node.discardLogPrefixLocked la t).logBaseTerm
        rw [heq] at hi ⊢
        dsimp only at hi ⊢
        exact hcap t (by rw [hi]; rfl)

/-- **The verdict** on a proposal of the present term is "overwritten" exactly when its index is
below the base. -/
theorem overwritten_iff (h : Owned s calls w) (hd : s.node.Dense) (hterm : 0 < s.node.currentTerm) :
    s.node.waitForApply w.index w.term = some .overwritten ↔ w.index < s.node.logBaseIndex := by
  rw [Node.waitForApply_overwritten_iff]
  have hw := h.term
  constructor
  · rintro ⟨-, hne⟩
    by_contra hge
    rcases Nat.lt_or_ge s.node.logBaseIndex w.index with hlt | hle
    · exact hne (Node.termAtLocked_of_entryAt hd (h.entry hlt))
    · -- at the base the term is that of the snapshot
      have hidx : w.index = s.node.logBaseIndex := by omega
      refine hne ?_
      rw [Node.termAtLocked, if_neg (not_or.mpr ⟨h.pos.ne', not_lt.mpr h.le_last⟩), if_pos hidx]
      exact (h.base hidx).symm
  · intro hlt
    refine ⟨h.le_last, ?_⟩
    rw [Node.termAtLocked, if_neg (not_or.mpr ⟨h.pos.ne', not_lt.mpr h.le_last⟩),
      if_neg hlt.ne, if_pos hlt]
    omega

end Owned

/-- The invariant of the runs of a leader. -/
structure Leading (p : Proposer σ) : Prop where
  indexed : Indexed p.server
  term_pos : 0 < p.server.node.currentTerm
  /-- What is held is not compacted. -/
  held : ∀ e ∈ p.server.applier.held, p.server.node.logBaseIndex < e.index
  waiting : ∀ w ∈ p.waiting, Owned p.server p.calls w
  reported : ∀ r ∈ p.reports, (r.verdict = .overwritten ↔ r.entry.index < r.base) ∧
    (r.entry.index < r.base → .apply r.entry ∈ p.calls)

namespace Leading

variable {M : StateMachine σ} {p p' : Proposer σ} {n : Node σ}

theorem start (h : Ordered n) (hterm : 0 < n.currentTerm) :
    Leading (Proposer.start n) where
  indexed := .start h
  term_pos := hterm
  held := nofun
  waiting _ hw := absurd hw List.not_mem_nil
  reported _ hr := absurd hr List.not_mem_nil

/-- **A batch.** -/
theorem propose (h : Leading p) {batch : List Bytes} (hn : p.server.node.appendBatch batch = some n)
    :
    Leading { p with
      server := { p.server with node := n }
      waiting := p.waiting ++ Event.proposed p.server.node (.handle (.propose batch))
      calls := p.calls ++ [] } where
  indexed := h.indexed.handle (show Handler.Safe _ (.propose batch) from trivial) hn rfl rfl
  term_pos := by
    change 0 < n.currentTerm
    rw [(p.server.node.appendBatch_sameVote hn).currentTerm]
    exact h.term_pos
  held e he := by
    change n.logBaseIndex < e.index
    rw [(Node.handle_sameSnapshot (h := .propose batch) hn).base]
    exact h.held e he
  waiting w hw := by
    rw [List.append_nil]
    rcases List.mem_append.mp hw with hw | hw
    · exact (h.waiting w hw).appendBatch h.indexed hn
    · exact .propose h.indexed hn hw _
  reported r hr := by rw [List.append_nil]; exact h.reported r hr

/-- **A reply of the same term.** -/
theorem reply (h : Leading p) (hd : Handler) (hsafe : hd.Safe p.server.node)
    (hn : p.server.node.handle hd = some n) (hlog : SameLog p.server.node n)
    (hterm : n.currentTerm = p.server.node.currentTerm) :
    Leading { p with
      server := { p.server with node := n }
      waiting := p.waiting ++ []
      calls := p.calls ++ [] } where
  indexed := h.indexed.handle hsafe hn rfl rfl
  term_pos := hterm ▸ h.term_pos
  held e he := by
    change n.logBaseIndex < e.index
    rw [hlog.base]
    exact h.held e he
  waiting w hw := by
    simp only [List.append_nil] at hw ⊢
    have hw := h.waiting w hw
    exact hw.of_same hterm hlog.log hlog.base hlog.baseTerm
      (Node.handle_sameSnapshot hn).lastApplied (fun _ hc => hc) Or.inr hw.captured
  reported r hr := by simp only [List.append_nil]; exact h.reported r hr

/-- **A step of `applyLoop`.** -/
theorem apply (h : Leading p) {s' : Server σ} {r : Option LogEntry}
    (hs : p.server.applyStep M = some (s', r)) :
    Leading { p with
      server := s'
      waiting := p.waiting ++ []
      calls := p.calls ++ Event.smCalls p.server .apply } where
  indexed := h.indexed.apply hs
  term_pos := by
    change 0 < s'.node.currentTerm
    rw [(Server.applyStep_same hs).node.currentTerm]
    exact h.term_pos
  held := by
    cases Server.applyStep_inv hs with
    | fetch e ha hlt hb he =>
      intro x hx
      cases hx
      change p.server.node.logBaseIndex < e.index
      rw [h.indexed.node.dense _ e he]
      omega
    | _ => exact nofun
  waiting w hw := by
    rw [List.append_nil] at hw
    exact (h.waiting w hw).apply h.indexed hs
  reported r hr := (h.reported r hr).imp_right fun hdone hlt => List.mem_append_left _ (hdone hlt)

/-- **A poll.** -/
theorem poll (h : Leading p) {j : ℕ} (hs : p.poll j = some p') : Leading p' := by
  obtain ⟨w, hw, rfl | ⟨v, hv, rfl⟩⟩ := Proposer.poll_cases hs
  · exact h
  refine ⟨h.indexed, h.term_pos, h.held, fun x hx => h.waiting x (List.mem_of_mem_eraseIdx hx),
    fun r hr => ?_⟩
  rcases List.mem_append.mp hr with hr | hr
  · exact h.reported r hr
  · obtain rfl := List.mem_singleton.mp hr
    have howned := h.waiting w (List.mem_of_getElem? hw)
    have hiff := howned.overwritten_iff h.indexed.node.dense h.term_pos
    rw [hv, Option.some.injEq] at hiff
    refine ⟨hiff, fun hlt => ?_⟩
    -- below the base everything has been applied, and nothing is held
    rcases howned.applied (hlt.le.trans h.indexed.node.base_le) with hdone | hheld
    · exact hdone
    · exact absurd (h.held w hheld) (not_lt.mpr (le_of_lt hlt))

/-- **Every step** keeps the invariant. -/
theorem step (h : Leading p) {e : ProposerEvent} (hok : p.LeaderOnly e)
    (hs : p.step M e = some p') : Leading p' := by
  cases e with
  | process e =>
    obtain ⟨s', hs', rfl⟩ := Option.map_eq_some_iff.mp hs
    cases e with
    | handle hd =>
      obtain ⟨n, hn, rfl⟩ := Option.map_eq_some_iff.mp hs'
      cases hd with
      | propose batch => exact h.propose hn
      | entriesReply peer args r =>
        -- the reply is not of a newer term, so nothing is adopted
        have hanswered := p.server.node.handleAppendEntriesReply_cases peer args r
        have hvote := hanswered.sameVote
        rw [p.server.node.adopt_of_le hok] at hvote
        cases hn
        exact h.reply (.entriesReply peer args r) trivial rfl hanswered.sameLog hvote.currentTerm
      | snapshotReply peer args r =>
        have hanswered := p.server.node.handleInstallSnapshotReply_cases peer args r
        have hvote := hanswered.sameVote
        rw [p.server.node.adopt_of_le hok] at hvote
        cases hn
        exact h.reply (.snapshotReply peer args r) trivial rfl hanswered.sameLog hvote.currentTerm
      | _ => exact hok.elim
    | apply =>
      obtain ⟨⟨s₁, r⟩, hs₁, rfl⟩ := Option.map_eq_some_iff.mp hs'
      exact h.apply hs₁
    | _ => exact hok.elim
  | poll j => exact h.poll hs
  | cancel j =>
    change (if j < p.waiting.length then some _ else none) = some p' at hs
    split at hs
    · cases hs
      exact ⟨h.indexed, h.term_pos, h.held,
        fun x hx => h.waiting x (List.mem_of_mem_eraseIdx hx), h.reported⟩
    · cases hs

end Leading

/-- **"Overwritten" means not applied, now and later, exactly in the runs of a leader in which no
proposal polls after its index has been compacted away** by a snapshot that ends past it. -/
theorem overwritten_not_applied_iff (M : StateMachine σ) (n : Node σ) (hn : Ordered n)
    (hterm : 0 < n.currentTerm) (p : Proposer σ)
    (h : Runs (Proposer.step M) Proposer.LeaderOnly (Proposer.start n) p) :
    (∀ r ∈ p.reports, r.verdict = .overwritten →
      ∀ p', Runs (Proposer.step M) Proposer.LeaderOnly p p' → .apply r.entry ∉ p'.calls) ↔
      ∀ r ∈ p.reports, r.base ≤ r.entry.index := by
  have hinv : Leading p :=
    h.invariant (fun _ _ _ hI hok hs => hI.step hok hs) (.start hn hterm)
  constructor
  · intro hnever r hr
    by_contra hlt
    obtain ⟨hiff, hdone⟩ := hinv.reported r hr
    have hlt := not_le.mp hlt
    exact hnever r hr (hiff.mpr hlt) p (.refl p) (hdone hlt)
  · intro hbase r hr hv
    exact absurd ((hinv.reported r hr).1.mp hv) (not_lt.mpr (hbase r hr))

/-- A leader of term 1 with an empty log, which takes a snapshot after every entry. -/
def newLeader : Node Bytes :=
  { firstNode with opts := ⟨1⟩, currentTerm := 1, state := .leader }

theorem newLeader_ordered : Ordered newLeader :=
  ⟨firstNode_ordered.dense, le_rfl, le_rfl, le_rfl⟩

/-- Two proposals in one batch are committed, applied, and compacted together. -/
def compactedBatch : List ProposerEvent :=
  [.process (.handle (.propose [[7], [8]])), .process (.handle
      (.entriesReply "b" ⟨1, "a", 0, 0, [⟨1, 1, [7]⟩, ⟨1, 2, [8]⟩], 0⟩ ⟨1, true, 0⟩))] ++
    List.replicate 9 (.process .apply)

instance Proposer.LeaderOnly.decidable (p : Proposer σ) :
    (e : ProposerEvent) → Decidable (p.LeaderOnly e)
  | .process (.handle (.entriesReply _ _ r)) =>
      inferInstanceAs (Decidable (r.term ≤ p.server.node.currentTerm))
  | .process (.handle (.snapshotReply _ _ r)) =>
      inferInstanceAs (Decidable (r.term ≤ p.server.node.currentTerm))
  | .process (.handle (.propose _)) | .process .apply | .poll _ | .cancel _ =>
      inferInstanceAs (Decidable True)
  | .process (.handle (.requestVote _)) | .process (.handle (.appendEntries _))
  | .process (.handle .campaign) | .process (.handle (.voteReply _ _ _))
  | .process (.receive _ _) | .process (.install _) => inferInstanceAs (Decidable False)

/-- The second of the two polls, and finds the term of its entry at the base. -/
theorem overwritten_not_applied_at_base : ∃ p : Proposer Bytes,
      Runs (Proposer.step journal) Proposer.LeaderOnly (Proposer.start newLeader) p ∧
      p.reports = [⟨⟨1, 2, [8]⟩, 2, .applied⟩] ∧
      ∀ r ∈ p.reports, r.verdict = .overwritten →
        ∀ p', Runs (Proposer.step journal) Proposer.LeaderOnly p p' → .apply r.entry ∉ p'.calls := by
  have hrun : (exec (guarded (Proposer.step journal) Proposer.LeaderOnly)
      (Proposer.start newLeader) (compactedBatch ++ [.poll 1])).map Proposer.reports =
      some [⟨⟨1, 2, [8]⟩, 2, .applied⟩] := by
    decide +kernel
  obtain ⟨p, hp, hreports⟩ := Runs.of_exec_guarded_map hrun
  refine ⟨p, hp, hreports, ?_⟩
  refine (overwritten_not_applied_iff journal newLeader newLeader_ordered Nat.one_pos p hp).mpr ?_
  rw [hreports]
  decide

/-- **An applied proposal is reported as overwritten**: the first of the two polls after the
snapshot at index 2. -/
theorem overwritten_but_applied : ∃ p : Proposer Bytes,
      Runs (Proposer.step journal) Proposer.LeaderOnly (Proposer.start newLeader) p ∧
      p.reports = [⟨⟨1, 1, [7]⟩, 2, .overwritten⟩] ∧
      p.calls = [.apply ⟨1, 1, [7]⟩, .apply ⟨1, 2, [8]⟩] := by
  have hrun : (exec (guarded (Proposer.step journal) Proposer.LeaderOnly)
      (Proposer.start newLeader) (compactedBatch ++ [.poll 0])).map
        (fun p => (p.reports, p.calls)) =
      some ([⟨⟨1, 1, [7]⟩, 2, .overwritten⟩], [.apply ⟨1, 1, [7]⟩, .apply ⟨1, 2, [8]⟩]) := by
    decide +kernel
  obtain ⟨p, hp, hobs⟩ := Runs.of_exec_guarded_map hrun
  exact ⟨p, hp, Prod.mk.inj hobs⟩

end Raft
end BoilerPulse
