import BoilerPulse.Raft.Snapshots

/-!
# The stored snapshot against the stored log

`SaveSnapshot` replaces the stored snapshot whatever its index, and two goroutines call
it without the mutex: `maybeSnapshot` and `HandleInstallSnapshot`. Their checks against the
log base were made in an earlier section, so a slow one can overwrite what a faster one
has saved after the log behind it was discarded.

`InTurn` is the condition that excludes this, on single steps: whoever saves has not been
overtaken, by a base or by a call in progress that has already saved; a saved snapshot
is not given up half way. Under it the stored index is, at every moment, the largest of
the base and the indices saved by calls in progress (`Stored`), so it never decreases,
and the stored log has no gap after it (`durable_snapshot`).
-/

namespace BoilerPulse
namespace Raft

open Framework

variable {σ : Type}

/-- Every index after the stored snapshot, up to any stored entry, has a stored entry. -/
def Storage.NoGap (st : Storage) : Prop :=
  ∀ i, st.snapshotIndex < i → (∃ e ∈ st.log, i ≤ e.index) → ∃ e ∈ st.log, e.index = i

/-! ### The log is backed by the storage -/

/-- What the node has in memory is on storage, and the storage has no gap. -/
structure Backed (n : Node σ) : Prop where
  dense : n.Dense
  stored : ∀ e ∈ n.log, e ∈ n.storage.log
  base_le : n.logBaseIndex ≤ n.storage.snapshotIndex
  noGap : n.storage.NoGap

namespace Storage

variable {st : Storage}

theorem NoGap.truncateFrom (h : st.NoGap) (index : ℕ) : (st.truncateFrom index).NoGap := by
  rintro i hi ⟨e, he, hle⟩
  obtain ⟨he, hlt⟩ := List.mem_filter.mp he
  -- the entry that filled the place is below the cut, as one after it is
  obtain ⟨e', he', rfl⟩ := h i hi ⟨e, he, hle⟩
  have := of_decide_eq_true hlt
  exact ⟨e', List.mem_filter.mpr ⟨he', decide_eq_true (by omega)⟩, rfl⟩

/-- Discarding no further than the snapshot leaves no gap. -/
theorem NoGap.discardLogThrough (h : st.NoGap) {index : ℕ} (hle : index ≤ st.snapshotIndex) :
    (st.discardLogThrough index).NoGap := by
  rintro i hi ⟨e, he, hei⟩
  obtain ⟨he, -⟩ := List.mem_filter.mp he
  obtain ⟨e', he', rfl⟩ := h i hi ⟨e, he, hei⟩
  have hi' : st.snapshotIndex < e'.index := hi
  exact ⟨e', List.mem_filter.mpr ⟨he', decide_eq_true (by omega)⟩, rfl⟩

/-- A newer snapshot leaves no gap. -/
theorem NoGap.saveSnapshot (h : st.NoGap) {index : ℕ} (hle : st.snapshotIndex ≤ index)
    (t : ℕ) (data : Bytes) : (st.saveSnapshot index t data).NoGap :=
  fun i hi he => h i (lt_of_le_of_lt hle hi) he

end Storage

namespace Backed

variable {n n' : Node σ}

theorem of_sameLog (h : Backed n) (hs : SameLog n n') : Backed n' := by
  have hsnap : n'.storage.snapshotIndex = n.storage.snapshotIndex := by
    unfold Storage.snapshotIndex
    rw [hs.snapshot]
  refine ⟨fun i e he => ?_, ?_, ?_, ?_⟩
  · rw [hs.log] at he
    rw [hs.base]
    exact h.dense i e he
  · rw [hs.log, hs.storedLog]; exact h.stored
  · rw [hs.base, hsnap]; exact h.base_le
  · unfold Storage.NoGap
    rw [hsnap, hs.storedLog]
    exact h.noGap

/-- An index in the log is on storage. -/
theorem mem_of_le (h : Backed n) {i : ℕ} (hb : n.logBaseIndex < i) (hi : i ≤ n.lastLogIndexLocked) :
    ∃ e ∈ n.storage.log, e.index = i := by
  obtain ⟨e, he⟩ := h.dense.getElem?_of_le hb hi
  refine ⟨e, h.stored e (List.mem_of_getElem? he), ?_⟩
  have := h.dense _ e he
  omega

/-- **Appending** consecutive entries after the last one. -/
theorem appendLogLocked (h : Backed n) {es : List LogEntry}
    (hes : Consecutive (n.lastLogIndexLocked + 1) es) : Backed (n.appendLogLocked es) := by
  have hidx := consecutive_iff.mp hes
  unfold Node.appendLogLocked
  split
  · exact h
  · refine ⟨fun i e he => ?_, fun e he => ?_, h.base_le, ?_⟩
    · -- the numbering goes on
      by_cases hi : i < n.log.length
      · rw [List.getElem?_append_left hi] at he
        exact h.dense i e he
      · rw [List.getElem?_append_right (by omega)] at he
        have := hidx _ e he
        rw [h.dense.lastLogIndexLocked] at this
        simp only
        omega
    · rcases List.mem_append.mp he with he | he
      · exact List.mem_append_left _ (h.stored e he)
      · exact List.mem_append_right _ he
    · -- no gap, on either side of the point where the new entries start
      rintro i hi ⟨e, he, hle⟩
      have hi' : n.storage.snapshotIndex < i := hi
      rcases List.mem_append.mp he with he | he
      · obtain ⟨e', he', hei⟩ := h.noGap i hi ⟨e, he, hle⟩
        exact ⟨e', List.mem_append_left _ he', hei⟩
      · obtain ⟨j, hj⟩ := List.mem_iff_getElem?.mp he
        have hej := hidx j e hj
        by_cases hlast : i ≤ n.lastLogIndexLocked
        · -- within the old log
          obtain ⟨e', he', hei⟩ := h.mem_of_le (lt_of_le_of_lt h.base_le hi') hlast
          exact ⟨e', List.mem_append_left _ he', hei⟩
        · -- among the new entries
          have hlt : i - n.lastLogIndexLocked - 1 < es.length := by
            have := (List.getElem?_eq_some_iff.mp hj).1
            omega
          have hget := List.getElem?_eq_getElem hlt
          refine ⟨_, List.mem_append_right _ (List.mem_of_getElem? hget), ?_⟩
          rw [hidx _ _ hget]
          omega

/-- **Truncating** within the log; what is left ends right before the index. -/
theorem truncateLogFromLocked (h : Backed n) {index : ℕ} (hb : n.logBaseIndex < index)
    (hl : index ≤ n.lastLogIndexLocked) :
    Backed (n.truncateLogFromLocked index) ∧
      (n.truncateLogFromLocked index).lastLogIndexLocked + 1 = index := by
  have hlast := h.dense.lastLogIndexLocked
  unfold Node.truncateLogFromLocked
  rw [if_neg (by omega)]
  have hdense : ({ n with
      log := n.log.take (index - n.logBaseIndex - 1)
      storage := n.storage.truncateFrom index } : Node σ).Dense := by
    intro i e he
    rw [List.getElem?_take] at he
    split at he
    · exact h.dense i e he
    · cases he
  refine ⟨⟨hdense, fun e he => ?_, h.base_le, h.noGap.truncateFrom index⟩, ?_⟩
  · -- what is kept lies before the index, so storage keeps it as well
    obtain ⟨i, hi⟩ := List.mem_iff_getElem?.mp he
    rw [List.getElem?_take] at hi
    split at hi
    · have := h.dense i e hi
      exact List.mem_filter.mpr ⟨h.stored e (List.mem_of_getElem? hi), decide_eq_true (by omega)⟩
    · cases hi
  · rw [hdense.lastLogIndexLocked]
    simp only [List.length_take]
    omega

/-- **The append loop** on consecutive entries that start within the log. -/
theorem appendMissing (h : Backed n) (es : List LogEntry) : ∀ idx, n.logBaseIndex < idx →
    idx ≤ n.lastLogIndexLocked + 1 → Consecutive idx es → Backed (n.appendMissing idx es) := by
  induction es with
  | nil => exact fun _ _ _ _ => h
  | cons e es ih =>
    intro idx hb hl hes
    unfold Node.appendMissing
    split
    · next hle =>
      split
      · exact ih (idx + 1) (by omega) (by omega) hes.2
      · -- the truncated log ends right before the entry
        obtain ⟨ht, hlast⟩ := h.truncateLogFromLocked hb hle
        exact ht.appendLogLocked (by rw [hlast]; exact hes)
    · next hgt =>
      obtain rfl : idx = n.lastLogIndexLocked + 1 := by omega
      exact h.appendLogLocked hes

/-- **The handlers** keep the log backed. -/
theorem handle (h : Backed n) {hd : Handler} (hf : hd.Fits n) (hn : n.handle hd = some n') :
    Backed n' := by
  rcases Node.handle_log hn with hs | ⟨args, rfl, hc, hs⟩ | ⟨batch, rfl, rfl⟩
  · exact h.of_sameLog hs
  · obtain ⟨hb, hl⟩ := hf.bounds h.dense hc
    have hsame := n.follow_sameLog args.term args.leaderID
    refine ((h.of_sameLog hsame).appendMissing args.entries _ ?_ ?_ hf.1).of_sameLog hs
    · rw [hsame.base]; omega
    · rw [hsame.lastLogIndexLocked]; omega
  · exact h.appendLogLocked (consecutive_batchEntries _ _ _)

/-- **Discarding a prefix** that the stored snapshot covers. -/
theorem discard (h : Backed n) {index : ℕ} (hle : index ≤ n.storage.snapshotIndex) (term : ℕ) :
    Backed (n.discardLogPrefixLocked index term) := by
  by_cases hb : n.logBaseIndex < index
  · have hd := h.dense.discard index term
    rw [h.dense.discardLogPrefixLocked hb] at hd ⊢
    have hmin : min index n.lastLogIndexLocked ≤ n.storage.snapshotIndex :=
      (min_le_left _ _).trans hle
    refine ⟨hd, fun e he => ?_, hmin, h.noGap.discardLogThrough hmin⟩
    obtain ⟨i, hi⟩ := List.mem_iff_getElem?.mp he
    have hidx := hd i e hi
    simp only at hidx
    exact List.mem_filter.mpr ⟨h.stored e (List.mem_of_mem_drop he), decide_eq_true (by omega)⟩
  · unfold Node.discardLogPrefixLocked
    rw [if_pos (not_lt.mp hb)]
    exact h

/-- **Finishing an installation** that the stored snapshot covers. -/
theorem finish (h : Backed n) {args : InstallSnapshotArgs}
    (hle : args.lastIncludedIndex ≤ n.storage.snapshotIndex) :
    Backed (n.installSnapshotFinish args) := by
  unfold Node.installSnapshotFinish
  split
  · exact h
  · exact ⟨nofun, nofun, hle, h.noGap.discardLogThrough hle⟩

end Backed

/-! ### The discipline -/

/-- The index `maybeSnapshot` has saved, while it has not discarded the log yet. -/
def Applier.saved : Applier → Option ℕ
  | .discarding la _ => some la
  | _ => none

/-- Neither the base nor a call in progress that has saved its snapshot is past `index`. -/
def Server.NotOvertaken (s : Server σ) (index : ℕ) : Prop :=
  s.node.logBaseIndex ≤ index ∧
  (∀ th ∈ s.installs, th.stage ≠ .save → th.args.lastIncludedIndex ≤ index) ∧
  ∀ la ∈ s.applier.saved, la ≤ index

instance (s : Server σ) (index : ℕ) : Decidable (s.NotOvertaken index) :=
  inferInstanceAs (Decidable (_ ∧ _ ∧ _))

/-- `applyLoop` saves a snapshot only if nothing has overtaken it, and the log still
reaches the saved index when it comes to discard the prefix. -/
def Server.ApplyInTurn (s : Server σ) : Applier → Prop
  | .saving la _ _ => s.NotOvertaken la
  | .discarding la _ => s.node.logBaseIndex < la → la ≤ s.node.lastLogIndexLocked
  | .idle => True
  | .applying _ => True
  | .caughtUp => True
  | .snapshotting _ _ => True

instance (s : Server σ) : ∀ a : Applier, Decidable (s.ApplyInTurn a)
  | .saving la _ _ => inferInstanceAs (Decidable (s.NotOvertaken la))
  | .discarding la _ =>
    inferInstanceAs (Decidable (s.node.logBaseIndex < la → la ≤ s.node.lastLogIndexLocked))
  | .idle => isTrue trivial
  | .applying _ => isTrue trivial
  | .caughtUp => isTrue trivial
  | .snapshotting _ _ => isTrue trivial

/-- `HandleInstallSnapshot` saves a snapshot only if nothing has overtaken it, and what it
has saved can be restored. -/
def Server.InstallInTurn (M : StateMachine σ) (s : Server σ) (args : InstallSnapshotArgs) :
    InstallStage → Prop
  | .save => s.NotOvertaken args.lastIncludedIndex
  | .restore => (M.restore s.node.stateMachine args.data).isSome
  | .finish => True

instance (M : StateMachine σ) (s : Server σ) (args : InstallSnapshotArgs) :
    ∀ st : InstallStage, Decidable (s.InstallInTurn M args st)
  | .save => inferInstanceAs (Decidable (s.NotOvertaken args.lastIncludedIndex))
  | .restore =>
    inferInstanceAs (Decidable ((M.restore s.node.stateMachine args.data).isSome = true))
  | .finish => isTrue trivial

/-- **The discipline** under which the stored snapshot only moves forward. -/
def InTurn (M : StateMachine σ) (s : Server σ) : Event → Prop
  | .apply => s.ApplyInTurn s.applier
  | .install i => ∀ th ∈ s.installs[i]?, s.InstallInTurn M th.args th.stage
  | .handle _ => True
  | .receive _ _ => True

instance (M : StateMachine σ) (s : Server σ) : ∀ e : Event, Decidable (InTurn M s e)
  | .apply => inferInstanceAs (Decidable (s.ApplyInTurn s.applier))
  | .install i =>
    inferInstanceAs (Decidable (∀ th ∈ s.installs[i]?, s.InstallInTurn M th.args th.stage))
  | .handle _ => isTrue trivial
  | .receive _ _ => isTrue trivial

/-- Requests arrive as leaders send them. -/
def WellSent (s : Server σ) : Event → Prop
  | .handle h => h.Fits s.node
  | _ => True

instance (s : Server σ) : ∀ e : Event, Decidable (WellSent s e)
  | .handle h => inferInstanceAs (Decidable (h.Fits s.node))
  | .apply => isTrue trivial
  | .install _ => isTrue trivial
  | .receive _ _ => isTrue trivial

/-! ### The invariant -/

/-- **The stored snapshot** is at the largest of the base and the indices saved by
the calls in progress. -/
structure Stored (s : Server σ) : Prop where
  backed : Backed s.node
  bound : s.NotOvertaken s.node.storage.snapshotIndex
  reached : s.node.storage.snapshotIndex = s.node.logBaseIndex ∨
    (∃ th ∈ s.installs, th.stage ≠ .save ∧
      th.args.lastIncludedIndex = s.node.storage.snapshotIndex) ∨
    s.applier.saved = some s.node.storage.snapshotIndex

/-- A call in progress has saved the snapshot of `args`. -/
def Server.Saved (s : Server σ) (args : InstallSnapshotArgs) : Prop :=
  ∃ th ∈ s.installs, th.stage ≠ .save ∧ th.args = args

/-- The invariant and what a step may do to the stored index. -/
def Forward (s s' : Server σ) : Prop :=
  Stored s' ∧ s.node.storage.snapshotIndex ≤ s'.node.storage.snapshotIndex

namespace Stored

variable {M : StateMachine σ} {s s' : Server σ}

theorem start {n : Node σ} (h : Backed n) (hs : n.storage.snapshotIndex = n.logBaseIndex) :
    Stored (Server.start n) where
  backed := h
  bound := ⟨h.base_le, nofun, nofun⟩
  reached := Or.inl hs

/-- The stored index is at most anything that nothing has overtaken. -/
theorem le_of_notOvertaken (h : Stored s) {index : ℕ} (hno : s.NotOvertaken index) :
    s.node.storage.snapshotIndex ≤ index := by
  rcases h.reached with hb | ⟨th, hth, hst, hle⟩ | ha
  · rw [hb]; exact hno.1
  · rw [← hle]; exact hno.2.1 th hth hst
  · exact hno.2.2 _ ha

/-- A step that keeps the base, the stored snapshot and what is saved. -/
theorem frame (h : Stored s) (hb : Backed s'.node)
    (hbase : s'.node.logBaseIndex = s.node.logBaseIndex)
    (hsnap : s'.node.storage.snapshot = s.node.storage.snapshot)
    (hsaved : s'.applier.saved = s.applier.saved)
    (hinst : ∀ args, s'.Saved args ↔ s.Saved args) : Forward s s' := by
  have hidx : s'.node.storage.snapshotIndex = s.node.storage.snapshotIndex := by
    unfold Storage.snapshotIndex
    rw [hsnap]
  refine ⟨⟨hb, ⟨?_, fun th hth hst => ?_, ?_⟩, ?_⟩, hidx.ge⟩
  · rw [hbase, hidx]; exact h.bound.1
  · obtain ⟨th', hth', hst', harg⟩ := (hinst th.args).mp ⟨th, hth, hst, rfl⟩
    rw [hidx, ← harg]
    exact h.bound.2.1 th' hth' hst'
  · rw [hsaved, hidx]; exact h.bound.2.2
  · rw [hidx, hbase, hsaved]
    rcases h.reached with hr | ⟨th, hth, hst, hr⟩ | hr
    · exact Or.inl hr
    · obtain ⟨th', hth', hst', harg⟩ := (hinst th.args).mpr ⟨th, hth, hst, rfl⟩
      exact Or.inr (Or.inl ⟨th', hth', hst', by rw [harg]; exact hr⟩)
    · exact Or.inr (Or.inr hr)

/-- Only the applier moves, between stages that have saved nothing. -/
theorem applier (h : Stored s) {a : Applier} {n : Node σ} (hs : s.applier.saved = none)
    (ha : a.saved = none) (hn : SameLog s.node n) :
    Forward s { s with node := n, applier := a } :=
  h.frame (h.backed.of_sameLog hn) hn.base hn.snapshot (ha.trans hs.symm) fun _ => Iff.rfl

/-- **Steps of `applyLoop`.** -/
theorem apply (h : Stored s) (ht : InTurn M s .apply) {r : Option LogEntry}
    (hs : s.applyStep M = some (s', r)) : Forward s s' := by
  change s.ApplyInTurn s.applier at ht
  cases Server.applyStep_inv hs with
  | caughtUp ha | noSnapshot ha | capture ha | snapshotFailed la t ha | snapshot la t data ha =>
    exact h.applier (by rw [ha]; rfl) rfl (SameLog.refl _)
  | fetch e ha | apply e ha => exact h.applier (by rw [ha]; rfl) rfl ⟨rfl, rfl, rfl, rfl, rfl⟩
  | save la t data ha =>
    rw [ha] at ht
    -- nothing has overtaken the snapshot, so the stored index moves up to it
    have hle := h.le_of_notOvertaken ht
    refine ⟨⟨⟨h.backed.dense, h.backed.stored, ht.1, h.backed.noGap.saveSnapshot hle t data⟩,
      ⟨ht.1, ht.2.1, fun la' hla' => ?_⟩, Or.inr (Or.inr rfl)⟩, hle⟩
    obtain rfl : la = la' := Option.some.inj hla'
    exact le_rfl
  | discard la t ha =>
    rw [ha] at ht
    have hla : la ≤ s.node.storage.snapshotIndex := h.bound.2.2 la (by rw [ha]; rfl)
    have hb := h.backed.discard hla t
    have hsnap : (s.node.discardLogPrefixLocked la t).storage.snapshotIndex =
        s.node.storage.snapshotIndex := by
      unfold Node.discardLogPrefixLocked
      split <;> rfl
    -- the base is now at the saved index, or was past it
    have hbase : (s.node.discardLogPrefixLocked la t).logBaseIndex =
        max s.node.logBaseIndex la := by
      by_cases hlt : s.node.logBaseIndex < la
      · rw [h.backed.dense.discardLogPrefixLocked hlt, max_eq_right hlt.le]
        exact min_eq_left (ht hlt)
      · unfold Node.discardLogPrefixLocked
        rw [if_pos (not_lt.mp hlt), max_eq_left (not_lt.mp hlt)]
    refine ⟨⟨hb, ⟨hb.base_le, fun th hth hst => ?_, nofun⟩, ?_⟩, hsnap.ge⟩
    · rw [hsnap]; exact h.bound.2.1 th hth hst
    · rw [hsnap, hbase]
      rcases h.reached with hr | hr | hr
      · exact Or.inl (by rw [max_eq_left (hla.trans hr.le)]; exact hr)
      · exact Or.inr (Or.inl hr)
      · -- it was this snapshot that reached the stored index: now the base does
        rw [ha] at hr
        obtain rfl : la = _ := Option.some.inj hr
        exact Or.inl (max_eq_right h.bound.1).symm

/-- **Steps of `HandleInstallSnapshot`.** -/
theorem install (h : Stored s) {i : ℕ} (ht : InTurn M s (.install i))
    {r : Option (ℕ × InstallSnapshotReply)} (hs : s.installStep M i = some (s', r)) :
    Forward s s' := by
  cases Server.installStep_inv hs with
  | save th hi hst =>
    -- as for `applyLoop`, and the call now counts as one that has saved
    have hno := ht th hi
    rw [hst] at hno
    have hle := h.le_of_notOvertaken hno
    refine ⟨⟨⟨h.backed.dense, h.backed.stored, hno.1, h.backed.noGap.saveSnapshot hle _ _⟩,
      ⟨hno.1, fun th' hth' hst' => ?_, hno.2.2⟩, Or.inr (Or.inl ?_)⟩, hle⟩
    · rcases List.mem_or_eq_of_mem_set hth' with hm | rfl
      · exact hno.2.1 th' hm hst'
      · exact le_rfl
    · have hlt := (List.getElem?_eq_some_iff.mp hi).1
      exact ⟨{ th with stage := .restore }, List.mem_set hlt _, by simp, rfl⟩
  | restoreFailed th hi hst hr =>
    -- excluded: the call would end with its snapshot saved and the base left behind
    have hsome := ht th hi
    rw [hst] at hsome
    simp [Server.InstallInTurn, hr] at hsome
  | restore th sm hi hst hr =>
    have hlt := (List.getElem?_eq_some_iff.mp hi).1
    refine h.frame (h.backed.of_sameLog ⟨rfl, rfl, rfl, rfl, rfl⟩) rfl rfl rfl fun args => ?_
    -- the call has saved before and after
    constructor
    · rintro ⟨th', hth', hst', harg⟩
      rcases List.mem_or_eq_of_mem_set hth' with hm | rfl
      · exact ⟨th', hm, hst', harg⟩
      · exact ⟨th, List.mem_of_getElem? hi, by simp [hst], harg⟩
    · rintro ⟨th', hth', hst', harg⟩
      by_cases heq : th' = th
      · subst heq
        exact ⟨_, List.mem_set hlt _, by simp, harg⟩
      · obtain ⟨j, hj⟩ := List.mem_iff_getElem?.mp hth'
        have hji : i ≠ j := by
          rintro rfl
          exact heq (Option.some.inj (hj.symm.trans hi))
        exact ⟨th', List.mem_iff_getElem?.mpr ⟨j, by rw [List.getElem?_set_ne hji]; exact hj⟩,
          hst', harg⟩
  | finish th hi hst =>
    have hth := List.mem_of_getElem? hi
    have hle := h.bound.2.1 th hth (by simp [hst])
    have hb := h.backed.finish hle
    have hsnap : (s.node.installSnapshotFinish th.args).storage.snapshotIndex =
        s.node.storage.snapshotIndex := by
      unfold Node.installSnapshotFinish
      split <;> rfl
    have hbase : (s.node.installSnapshotFinish th.args).logBaseIndex =
        max s.node.logBaseIndex th.args.lastIncludedIndex := by
      unfold Node.installSnapshotFinish
      split
      · next hge => exact (max_eq_left hge).symm
      · next hlt => exact (max_eq_right (not_le.mp hlt).le).symm
    refine ⟨⟨hb, ⟨hb.base_le, fun th' hth' hst' => ?_, ?_⟩, ?_⟩, hsnap.ge⟩
    · rw [hsnap]; exact h.bound.2.1 th' (List.mem_of_mem_eraseIdx hth') hst'
    · rw [hsnap]; exact h.bound.2.2
    · rw [hsnap, hbase]
      -- what reached the stored index still does, unless it was this call
      rcases h.reached with hr | ⟨th', hth', hst', hr⟩ | hr
      · exact Or.inl (by rw [max_eq_left (hle.trans hr.le)]; exact hr)
      · by_cases heq : th.args.lastIncludedIndex = s.node.storage.snapshotIndex
        · exact Or.inl (by rw [heq]; exact (max_eq_right h.bound.1).symm)
        · refine Or.inr (Or.inl ⟨th', (mem_eraseIdx_iff_of_ne hi ?_).mpr hth', hst', hr⟩)
          rintro rfl
          exact heq hr
      · exact Or.inr (Or.inr hr)

/-- **A snapshot arrives**: the new call has saved nothing. -/
theorem receive (h : Stored s) (call : ℕ) (args : InstallSnapshotArgs) :
    Forward s (s.installBegin call args).1 := by
  obtain ⟨n, hn, heq⟩ := s.installBegin_cases call args
  have hsame : SameLog s.node n := by
    rcases hn with rfl | rfl
    · exact SameLog.refl _
    · exact s.node.follow_sameLog _ _
  have hb := h.backed.of_sameLog hsame
  rcases heq with heq | heq
  · rw [heq]
    exact h.frame hb hsame.base hsame.snapshot rfl fun _ => Iff.rfl
  · rw [heq]
    refine h.frame hb hsame.base hsame.snapshot rfl fun args' => ?_
    -- the new call is at its first stage
    constructor
    · rintro ⟨th', hth', hst', harg⟩
      exact ⟨th', (mem_append_singleton_iff_of_ne (by rintro rfl; exact hst' rfl)).mp hth',
        hst', harg⟩
    · rintro ⟨th', hth', hst', harg⟩
      exact ⟨th', List.mem_append_left _ hth', hst', harg⟩

/-- **Every event in turn** keeps the invariant and moves the stored index forward. -/
theorem step {e : Event} (h : Stored s) (hw : WellSent s e) (ht : InTurn M s e)
    (hs : s.step M e = some s') : Forward s s' := by
  cases Server.step_cases hs with
  | handle hd n hn =>
    have hframe := Node.handle_sameSnapshot hn
    exact h.frame (h.backed.handle hw hn) hframe.base hframe.snapshot rfl fun _ => Iff.rfl
  | apply s₁ r hs₁ => exact h.apply ht hs₁
  | receive call args => exact h.receive call args
  | install i s₁ r hs₁ => exact h.install ht hs₁

/-- **A run in turn** keeps the invariant and moves the stored index forward. -/
theorem runs (h : Stored s)
    (hrun : Runs (Server.step M) (fun s e => WellSent s e ∧ InTurn M s e) s s') :
    Forward s s' := by
  refine hrun.invariant (fun s₁ e s₂ hf hok hs => ?_) (show Forward s s from ⟨h, le_rfl⟩)
  have hstep := hf.1.step hok.1 hok.2 hs
  exact ⟨hstep.1, hf.2.trans hstep.2⟩

end Stored

/-- **The durable snapshot never falls behind the durable log.** Along every run in turn
the stored snapshot's index does not decrease, and there is never a gap between it and
the stored log. -/
theorem durable_snapshot (M : StateMachine σ) {n : Node σ} (hn : Backed n)
    (hsnap : n.storage.snapshotIndex = n.logBaseIndex) {s₁ s₂ : Server σ}
    (hrun₁ : Runs (Server.step M) (fun s e => WellSent s e ∧ InTurn M s e) (Server.start n) s₁)
    (hrun₂ : Runs (Server.step M) (fun s e => WellSent s e ∧ InTurn M s e) s₁ s₂) :
    s₁.node.storage.snapshotIndex ≤ s₂.node.storage.snapshotIndex ∧ s₂.node.storage.NoGap := by
  have h₁ := (Stored.start hn hsnap).runs hrun₁
  have h₂ := h₁.1.runs hrun₂
  exact ⟨h₂.2, h₂.1.backed.noGap⟩

/-! ### Two runs -/

/-- A log of six entries of which three are applied. -/
def aheadNode : Node Bytes :=
  let log : List LogEntry :=
    [⟨1, 1, [1]⟩, ⟨1, 2, [2]⟩, ⟨1, 3, [3]⟩, ⟨1, 4, [4]⟩, ⟨1, 5, [5]⟩, ⟨1, 6, [6]⟩]
  { caughtUpNode with log := log, storage := { caughtUpNode.storage with log := log } }

theorem aheadNode_backed : Backed aheadNode where
  dense := by
    have h : Consecutive 1 aheadNode.log := by decide
    intro i e he
    exact (consecutive_iff.mp h i e he).trans (by simp [aheadNode, caughtUpNode]; omega)
  stored := fun e he => he
  base_le := by decide
  noGap := by
    rintro i hi ⟨e, he, hle⟩
    have hmax : ∀ e ∈ aheadNode.storage.log, e.index ≤ 6 := by decide
    have hall : ∀ j : Fin 7, 0 < j.val → ∃ e ∈ aheadNode.storage.log, e.index = j.val := by decide
    have hi6 : i < 7 := Nat.lt_succ_of_le (hle.trans (hmax e he))
    exact hall ⟨i, hi6⟩ hi

/-- A snapshot of the first five entries. -/
def fiveEntries : InstallSnapshotArgs :=
  ⟨1, "a", 5, 1, [1, 2, 3, 4, 5]⟩

/-- `maybeSnapshot` runs to its end, and then the snapshot of five entries is installed. -/
theorem durable_snapshot_of_sequence : ∃ s₁ s₂ : Server Bytes,
      Runs (Server.step journal) (fun s e => WellSent s e ∧ InTurn journal s e)
        (Server.start aheadNode) s₁ ∧
      Runs (Server.step journal) (fun s e => WellSent s e ∧ InTurn journal s e) s₁ s₂ ∧
      s₁.node.storage.snapshotIndex = 3 ∧ s₂.node.storage.snapshotIndex = 5 ∧
      (s₁.node.storage.snapshotIndex ≤ s₂.node.storage.snapshotIndex ∧ s₂.node.storage.NoGap) := by
  have hrun : ((exec (guarded (Server.step journal) fun s e => WellSent s e ∧ InTurn journal s e)
      (Server.start aheadNode) [.apply, .apply, .apply, .apply, .apply]).bind fun s₁ =>
        (exec (guarded (Server.step journal) fun s e => WellSent s e ∧ InTurn journal s e) s₁
          [.receive 0 fiveEntries, .install 0, .install 0, .install 0]).map fun s₂ =>
        (s₁.node.storage.snapshotIndex, s₂.node.storage.snapshotIndex)) = some (3, 5) := by
    decide +kernel
  obtain ⟨s₁, hs₁, hrest⟩ := Option.bind_eq_some_iff.mp hrun
  obtain ⟨s₂, hs₂, hobs⟩ := Option.map_eq_some_iff.mp hrest
  simp only [Prod.mk.injEq] at hobs
  have hrun₁ := Runs.of_exec_guarded hs₁
  have hrun₂ := Runs.of_exec_guarded hs₂
  exact ⟨s₁, s₂, hrun₁, hrun₂, hobs.1, hobs.2,
    durable_snapshot journal aheadNode_backed (by decide) hrun₁ hrun₂⟩

/-- **A slow local snapshot overwrites a newer one.** `maybeSnapshot` has taken its snapshot
of three entries when the snapshot of five is installed from start to end; then it
saves: the stored index falls from 5 to 3, entry 6 is stored, and entries 4 and 5 are
not. -/
theorem snapshot_falls_back : ∃ s₁ s₂ : Server Bytes,
      Runs (Server.step journal) WellSent (Server.start aheadNode) s₁ ∧
      s₁.step journal .apply = some s₂ ∧
      s₁.node.storage.snapshotIndex = 5 ∧ s₂.node.storage.snapshotIndex = 3 ∧
      ¬ s₂.node.storage.NoGap := by
  have hrun : ((exec (guarded (Server.step journal) WellSent) (Server.start aheadNode)
      [.apply, .apply, .apply, .receive 0 fiveEntries, .install 0, .install 0, .install 0]).bind
        fun s₁ => (s₁.step journal .apply).map fun s₂ =>
        (s₁.node.storage.snapshotIndex, s₂.node.storage.snapshotIndex, s₂.node.storage.log)) =
      some (5, 3, [⟨1, 6, [6]⟩]) := by
    decide +kernel
  obtain ⟨s₁, hs₁, hrest⟩ := Option.bind_eq_some_iff.mp hrun
  obtain ⟨s₂, hs₂, hobs⟩ := Option.map_eq_some_iff.mp hrest
  simp only [Prod.mk.injEq] at hobs
  obtain ⟨h5, h3, hlog⟩ := hobs
  refine ⟨s₁, s₂, Runs.of_exec_guarded hs₁, hs₂, h5, h3, fun hgap => ?_⟩
  have hno : ¬ ∃ e ∈ ([⟨1, 6, [6]⟩] : List LogEntry), e.index = 4 := by decide
  rw [Storage.NoGap, h3, hlog] at hgap
  exact hno (hgap 4 (by decide) ⟨_, List.mem_singleton_self _, by decide⟩)

end Raft
end BoilerPulse
