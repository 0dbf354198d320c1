import BoilerPulse.Raft.Snapshots

/-!
# AppendEntries on a compacted log

`HandleAppendEntries` on a log whose first entries are gone. Three defaults meet there:
`termAtLocked` answers `0` below the base, `truncateLogFromLocked` does nothing at or below it, and
the consistency check lets every request with `PrevLogIndex` 0 through.

Above the base the append loop is `splice`, and the facts about it are those of `splice`: it keeps
the numbering, it keeps whatever does not conflict, and it shortens the log only at a conflict.
A request from index 0 enters the loop below the base. As long as the terms it carries there are
those that `termAtLocked` makes up, the loop walks on to the base (`appendMissing_below`); at the
first other term it appends the entry, with its old index, behind the end of the log
(`not_dense_appendMissing`). So the log stays as it should be exactly in the first case
(`append_keeps_log_iff`).
-/

namespace BoilerPulse
namespace Raft

variable {σ : Type}

namespace Node

/-! ### Splicing -/

section Splice

variable {b pos : ℕ} {l es : List LogEntry}

/-- Splicing consecutive entries keeps a log numbered. -/
theorem consecutive_splice (hl : Consecutive (b + 1) l) : ∀ {pos : ℕ}, pos ≤ l.length →
    Consecutive (b + pos + 1) es → Consecutive (b + 1) (splice l pos es) := by
  induction es with
  | nil => exact fun _ _ => hl
  | cons e es ih =>
    intro pos hpos hes
    unfold splice
    cases hx : l[pos]? with
    | none =>
      -- the entries start right behind the end
      have hlen : l.length ≤ pos := List.getElem?_eq_none_iff.mp hx
      obtain rfl : pos = l.length := by omega
      refine consecutive_iff.mpr fun j x hj => ?_
      rcases Nat.lt_or_ge j l.length with hjl | hjl
      · rw [List.getElem?_append_left hjl] at hj
        exact consecutive_iff.mp hl j x hj
      · rw [List.getElem?_append_right hjl] at hj
        rw [consecutive_iff.mp hes _ x hj]
        omega
    | some x =>
      have hlt : pos < l.length := (List.getElem?_eq_some_iff.mp hx).1
      dsimp only
      split
      · exact ih (by omega) hes.2
      · refine consecutive_iff.mpr fun j y hj => ?_
        have hlen : (l.take pos).length = pos := by rw [List.length_take]; omega
        rcases Nat.lt_or_ge j pos with hjp | hjp
        · rw [List.getElem?_append_left (by omega), List.getElem?_take_of_lt hjp] at hj
          exact consecutive_iff.mp hl j y hj
        · rw [List.getElem?_append_right (by omega), hlen] at hj
          rw [consecutive_iff.mp hes _ y hj]
          omega

/-- An entry stays if nothing conflicts with it or with an entry before it. -/
theorem splice_getElem?_of_agree {i : ℕ} (hi : i < l.length) : ∀ {pos : ℕ},
    (∀ j ≤ i, ∀ x y, pos ≤ j → l[j]? = some x → es[j - pos]? = some y → x.term = y.term) →
      (splice l pos es)[i]? = l[i]? := by
  induction es with
  | nil => exact fun _ => rfl
  | cons e es ih =>
    intro pos hagree
    unfold splice
    cases hx : l[pos]? with
    | none => rw [List.getElem?_append_left hi]
    | some x =>
      have hlt : pos < l.length := (List.getElem?_eq_some_iff.mp hx).1
      dsimp only
      split
      · refine ih fun j hj x' y hpos hx' hy => hagree j hj x' y (by omega) hx' ?_
        rw [show j - pos = j - (pos + 1) + 1 by omega]
        exact hy
      · next hne =>
        rcases Nat.lt_or_ge i pos with hip | hip
        · rw [List.getElem?_append_left (by rw [List.length_take]; omega),
            List.getElem?_take_of_lt hip]
        · exact absurd (hagree pos hip x e le_rfl hx (by rw [Nat.sub_self]; rfl)) hne

/-- A log gets shorter only if some entry conflicts. -/
theorem exists_conflict_of_length_splice_lt : ∀ {pos : ℕ}, (splice l pos es).length < l.length →
    ∃ j x y, l[pos + j]? = some x ∧ es[j]? = some y ∧ x.term ≠ y.term := by
  induction es with
  | nil => exact fun h => absurd h (lt_irrefl _)
  | cons e es ih =>
    intro pos h
    unfold splice at h
    cases hx : l[pos]? with
    | none =>
      rw [hx, List.length_append] at h
      omega
    | some x =>
      rw [hx] at h
      dsimp only at h
      split at h
      · obtain ⟨j, x', y, hx', hy, hne⟩ := ih h
        exact ⟨j + 1, x', y, by rw [← hx']; congr 1; omega, hy, hne⟩
      · next hne => exact ⟨0, x, e, hx, rfl, hne⟩

end Splice

/-! ### The append loop -/

variable {n : Node σ} {i : ℕ}

theorem dense_iff : n.Dense ↔ Consecutive (n.logBaseIndex + 1) n.log := by
  rw [consecutive_iff]
  exact forall₃_congr fun i e _ => by rw [Nat.add_right_comm]

instance decidableDense (n : Node σ) : Decidable n.Dense :=
  decidable_of_iff _ dense_iff.symm

theorem appendLogLocked_log (es : List LogEntry) : (n.appendLogLocked es).log = n.log ++ es := by
  unfold appendLogLocked
  split
  · next h => rw [h, List.append_nil]
  · rfl

/-- Above the base, the loop splices the log in memory, whatever is on storage. -/
theorem appendMissing_log (hd : n.Dense) (es : List LogEntry) : ∀ idx, n.logBaseIndex < idx →
    (n.appendMissing idx es).log = splice n.log (idx - n.logBaseIndex - 1) es := by
  induction es with
  | nil => exact fun _ _ => rfl
  | cons e es ih =>
    intro idx hb
    unfold appendMissing
    by_cases hl : idx ≤ n.lastLogIndexLocked
    · obtain ⟨x, hx⟩ := hd.getElem?_of_le hb hl
      rw [if_pos hl, hd.termAtLocked hb hx]
      unfold splice
      rw [hx]
      dsimp only
      by_cases ht : x.term = e.term
      · rw [if_pos ht, if_pos ht, ih (idx + 1) (by omega)]
        congr 1
        omega
      · rw [if_neg ht, if_neg ht, appendLogLocked_log, truncateLogFromLocked, if_neg (by omega)]
    · have hnone : n.log[idx - n.logBaseIndex - 1]? = none := by
        rw [List.getElem?_eq_none_iff]
        rw [hd.lastLogIndexLocked] at hl
        omega
      rw [if_neg hl, appendLogLocked_log]
      unfold splice
      rw [hnone]

/-- Below the base the loop walks on as long as the terms are those that `termAtLocked` answers. -/
theorem appendMissing_below (hd : n.Dense) (es : List LogEntry) : ∀ idx, idx ≤ n.logBaseIndex + 1 →
    Consecutive idx es →
    (∀ e ∈ es, e.index ≤ n.logBaseIndex → e.term = n.termAtLocked e.index) →
      n.appendMissing idx es =
        n.appendMissing (n.logBaseIndex + 1) (es.drop (n.logBaseIndex + 1 - idx)) := by
  induction es with
  | nil => intro idx _ _ _; rw [List.drop_nil]; rfl
  | cons e es ih =>
    intro idx hle hes hterm
    rcases Nat.lt_or_ge n.logBaseIndex idx with hb | hb
    · obtain rfl : idx = n.logBaseIndex + 1 := by omega
      rw [Nat.sub_self, List.drop_zero]
    · -- an index that the snapshot covers
      have hlast := hd.lastLogIndexLocked
      have ht := hterm e List.mem_cons_self (by rw [hes.1]; exact hb)
      rw [hes.1] at ht
      rw [show n.logBaseIndex + 1 - idx = n.logBaseIndex + 1 - (idx + 1) + 1 by omega,
        List.drop_succ_cons, ← ih (idx + 1) (by omega) hes.2
          fun x hx => hterm x (List.mem_cons_of_mem e hx), appendMissing, if_pos (by omega),
        if_pos ht.symm]

/-- At the first other term, an entry with an old index goes behind the end of the log. -/
theorem not_dense_appendMissing (hd : n.Dense) {es : List LogEntry} : ∀ {idx : ℕ},
    Consecutive idx es → ∀ {e : LogEntry}, e ∈ es → e.index ≤ n.logBaseIndex →
      e.term ≠ n.termAtLocked e.index → ¬ (n.appendMissing idx es).Dense := by
  induction es with
  | nil => exact nofun
  | cons x es ih =>
    intro idx hes e he hb hne
    have hle : idx ≤ e.index := by
      obtain ⟨j, hj⟩ := List.mem_iff_getElem?.mp he
      have := consecutive_iff.mp hes j e hj
      omega
    have hlast := hd.lastLogIndexLocked
    unfold appendMissing
    rw [if_pos (by omega)]
    by_cases ht : n.termAtLocked idx = x.term
    · rw [if_pos ht]
      rcases List.mem_cons.mp he with rfl | he
      · exact absurd (by rw [hes.1]; exact ht.symm) hne
      · exact ih hes.2 he hb hne
    · -- the truncation does nothing, as the index is not past the base
      rw [if_neg ht, truncateLogFromLocked, if_pos (by omega)]
      intro hdense
      have hget : (n.appendLogLocked (x :: es)).log[n.log.length]? = some x := by
        rw [appendLogLocked_log, List.getElem?_append_right le_rfl, Nat.sub_self]
        rfl
      have hidx := hdense _ x hget
      rw [(n.appendLogLocked_sameSnapshot (x :: es)).base, hes.1] at hidx
      omega

/-! ### What a request should leave of the log -/

/-- The entries a request carries have the terms of those that the follower has committed, wherever
it still has them. -/
def AgreesCommitted (n : Node σ) (args : AppendEntriesArgs) : Prop :=
  ∀ e ∈ args.entries, e.index ≤ n.commitIndex → ∀ x ∈ n.entryAt e.index, x.term = e.term

instance AgreesCommitted.decidable (n : Node σ) (args : AppendEntriesArgs) :
    Decidable (n.AgreesCommitted args) :=
  inferInstanceAs (Decidable
    (∀ e ∈ args.entries, e.index ≤ n.commitIndex → ∀ x ∈ n.entryAt e.index, x.term = e.term))

/-- **What a request should leave**: a numbered log over the same base, with every committed entry
where it was, and not a shorter one unless an entry carried conflicts in term with the one at its
index. -/
structure KeepsLog (n : Node σ) (es : List LogEntry) (n' : Node σ) : Prop where
  base : n'.logBaseIndex = n.logBaseIndex
  dense : n'.Dense
  committed : ∀ i ≤ n.commitIndex, ∀ e, n.entryAt i = some e → n'.entryAt i = some e
  shortened : n'.log.length < n.log.length →
    ∃ e ∈ es, ∃ x, n.entryAt e.index = some x ∧ x.term ≠ e.term

theorem KeepsLog.of_log_eq {n' : Node σ} (hd : n.Dense) (es : List LogEntry)
    (hbase : n'.logBaseIndex = n.logBaseIndex) (hlog : n'.log = n.log) : KeepsLog n es n' where
  base := hbase
  dense := by unfold Dense; rw [hbase, hlog]; exact hd
  committed i _ e he := by unfold entryAt; rw [hbase, hlog]; exact he
  shortened h := absurd h (by rw [hlog]; exact lt_irrefl _)

/-- The entry at an index past the base. -/
theorem entryAt_of_lt (hb : n.logBaseIndex < i) :
    n.entryAt i = n.log[i - n.logBaseIndex - 1]? :=
  if_neg (not_le.mpr hb)

/-- The entry in a slot of the log. -/
theorem entryAt_slot (j : ℕ) : n.entryAt (n.logBaseIndex + j + 1) = n.log[j]? := by
  rw [entryAt_of_lt (by omega)]
  congr 1
  omega

theorem entryAt_succ (hb : n.logBaseIndex ≤ i) :
    n.entryAt (i + 1) = n.log[i - n.logBaseIndex]? := by
  rw [← entryAt_slot, Nat.add_sub_cancel' hb]

theorem lt_of_entryAt {e : LogEntry} (he : n.entryAt i = some e) : n.logBaseIndex < i := by
  by_contra hb
  rw [entryAt, if_pos (not_lt.mp hb)] at he
  cases he

theorem Dense.exists_entryAt (hd : n.Dense) (hb : n.logBaseIndex < i)
    (hl : i ≤ n.lastLogIndexLocked) : ∃ e, n.entryAt i = some e := by
  rw [entryAt_of_lt hb]
  exact hd.getElem?_of_le hb hl

/-- Splicing in entries that agree with what is committed. -/
theorem KeepsLog.of_splice {n' : Node σ} {es : List LogEntry} {idx : ℕ} (hd : n.Dense)
    (hb : n.logBaseIndex < idx) (hl : idx ≤ n.lastLogIndexLocked + 1) (hes : Consecutive idx es)
    (hagree : ∀ e ∈ es, e.index ≤ n.commitIndex → ∀ x ∈ n.entryAt e.index, x.term = e.term)
    (hbase : n'.logBaseIndex = n.logBaseIndex)
    (hlog : n'.log = splice n.log (idx - n.logBaseIndex - 1) es) : KeepsLog n es n' where
  base := hbase
  dense := by
    rw [dense_iff, hbase, hlog]
    rw [hd.lastLogIndexLocked] at hl
    refine consecutive_splice (dense_iff.mp hd) (by omega) ?_
    rw [show n.logBaseIndex + (idx - n.logBaseIndex - 1) + 1 = idx by omega]
    exact hes
  committed i hi e he := by
    unfold entryAt at he ⊢
    rw [hbase]
    split at he
    · cases he
    · next hib =>
      rw [if_neg hib, hlog, ← he]
      have hlen := (List.getElem?_eq_some_iff.mp he).1
      -- nothing carried at or below `i` conflicts, as all of that is committed
      refine splice_getElem?_of_agree hlen fun j hj x y hpos hx hy => ?_
      have hyidx := consecutive_iff.mp hes _ y hy
      refine hagree y (List.mem_of_getElem? hy) (by omega) x ?_
      rw [entryAt_of_lt (by omega), Option.mem_def, ← hx]
      congr 1
      omega
  shortened h := by
    rw [hlog] at h
    obtain ⟨j, x, y, hx, hy, hne⟩ := exists_conflict_of_length_splice_lt h
    have hyidx := consecutive_iff.mp hes _ y hy
    refine ⟨y, List.mem_of_getElem? hy, x, ?_, hne⟩
    rw [entryAt_of_lt (by omega), ← hx]
    congr 1
    omega

/-- A request from index 0 carries, at the indices that the snapshot covers, the terms that
`termAtLocked` answers there. -/
def CoveredTerms (n : Node σ) (args : AppendEntriesArgs) : Prop :=
  args.prevLogIndex = 0 →
    ∀ e ∈ args.entries, e.index ≤ n.logBaseIndex → e.term = n.termAtLocked e.index

instance CoveredTerms.decidable (n : Node σ) (args : AppendEntriesArgs) :
    Decidable (n.CoveredTerms args) :=
  inferInstanceAs (Decidable (args.prevLogIndex = 0 →
    ∀ e ∈ args.entries, e.index ≤ n.logBaseIndex → e.term = n.termAtLocked e.index))

/-! ### One request -/

section Request

variable {args : AppendEntriesArgs}

theorem follow_dense (hd : n.Dense) (t : ℕ) (l : String) : (n.follow t l).Dense := by
  unfold Dense
  rw [(n.follow_sameLog t l).base, (n.follow_sameLog t l).log]
  exact hd

theorem handleAppendEntries_base (n : Node σ) (args : AppendEntriesArgs) :
    (n.handleAppendEntries args).1.logBaseIndex = n.logBaseIndex :=
  (handle_sameSnapshot (h := .appendEntries args) rfl).base

/-- An accepted request, from within the log or with the terms that `termAtLocked` answers for what
the snapshot covers, is spliced in above the base. -/
theorem CoveredTerms.handleAppendEntries_log (hcov : n.CoveredTerms args) (hd : n.Dense)
    (hes : Consecutive (args.prevLogIndex + 1) args.entries) (hle : n.currentTerm ≤ args.term)
    (hc : n.checkPrevLog args.prevLogIndex args.prevLogTerm = none) :
    (n.handleAppendEntries args).1.log = splice n.log (args.prevLogIndex - n.logBaseIndex)
        (args.entries.drop (n.logBaseIndex - args.prevLogIndex)) := by
  have hsame := n.follow_sameLog args.term args.leaderID
  have hdf := follow_dense hd args.term args.leaderID
  obtain ⟨hlt, -⟩ | ⟨-, hc', -⟩ | ⟨-, -, heq⟩ := n.handleAppendEntries_cases args
  · omega
  · exact absurd hc hc'
  rw [heq]
  dsimp only
  rw [(advanceCommit_sameLog _ args.leaderCommit).log]
  rcases (n.checkPrevLog_eq_none_iff _ _).mp hc with h0 | ⟨hb, hl, -⟩
  · rw [h0] at hes ⊢
    -- from index 0, the loop reaches the base, and splices from there on
    have hskip := appendMissing_below hdf args.entries 1 (by omega) hes fun e he hle => by
      rw [hsame.termAtLocked]
      exact hcov h0 e he (by rw [← hsame.base]; exact hle)
    rw [hskip, appendMissing_log hdf _ _ (by omega), hsame.base, hsame.log, Nat.add_sub_cancel,
      Nat.add_sub_cancel_left, Nat.sub_self, Nat.zero_sub, Nat.sub_zero]
  · -- from an index that the log has
    rw [appendMissing_log hdf _ _ (by rw [hsame.base]; omega), hsame.base, hsame.log,
      Nat.sub_eq_zero_of_le hb, List.drop_zero]
    congr 1
    omega

/-- What is left of a request above the base is numbered from there. -/
theorem consecutive_drop {b prev : ℕ} {es : List LogEntry} (hes : Consecutive (prev + 1) es) :
    Consecutive (b + (prev - b) + 1) (es.drop (b - prev)) := by
  refine consecutive_iff.mpr fun j x hx => ?_
  rw [List.getElem?_drop] at hx
  rw [consecutive_iff.mp hes _ x hx]
  omega

/-- **A request that starts within the log**, or whose terms for what the snapshot covers are the
ones that `termAtLocked` answers, leaves the log as it should. -/
theorem CoveredTerms.keepsLog (hcov : n.CoveredTerms args) (hd : n.Dense)
    (hes : Consecutive (args.prevLogIndex + 1) args.entries) (hagree : n.AgreesCommitted args) :
    n.KeepsLog args.entries (n.handleAppendEntries args).1 := by
  have hsame := n.follow_sameLog args.term args.leaderID
  have hbase := n.handleAppendEntries_base args
  obtain ⟨-, heq⟩ | ⟨-, -, i, heq⟩ | ⟨hle, hc, -⟩ := n.handleAppendEntries_cases args
  · rw [heq]; exact .of_log_eq hd _ rfl rfl
  · rw [heq]; exact .of_log_eq hd _ hsame.base hsame.log
  have hlast := hd.lastLogIndexLocked
  have hstart : args.prevLogIndex ≤ n.lastLogIndexLocked := by
    rcases (n.checkPrevLog_eq_none_iff _ _).mp hc with h0 | ⟨-, hl, -⟩
    · omega
    · exact hl
  have hkeeps : n.KeepsLog (args.entries.drop (n.logBaseIndex - args.prevLogIndex))
      (n.handleAppendEntries args).1 := by
    refine .of_splice hd (by omega) (by omega) (consecutive_drop hes)
      (fun e he => hagree e (List.mem_of_mem_drop he)) hbase ?_
    rw [hcov.handleAppendEntries_log hd hes hle hc]
    congr 1
    omega
  exact ⟨hkeeps.base, hkeeps.dense, hkeeps.committed, fun h => by
    obtain ⟨e, he, hx⟩ := hkeeps.shortened h
    exact ⟨e, List.mem_of_mem_drop he, hx⟩⟩

/-- A request from index 0 that leaves the log numbered carries the terms that `termAtLocked`
answers. -/
theorem coveredTerms_of_dense (hd : n.Dense) (hterm : n.currentTerm ≤ args.term)
    (hes : Consecutive (args.prevLogIndex + 1) args.entries)
    (hdense : (n.handleAppendEntries args).1.Dense) : n.CoveredTerms args := by
  intro h0
  have hsame := n.follow_sameLog args.term args.leaderID
  have hbase := n.handleAppendEntries_base args
  obtain ⟨hlt, -⟩ | ⟨-, hc, -⟩ | ⟨-, -, heq⟩ := n.handleAppendEntries_cases args
  · omega
  · exact absurd ((n.checkPrevLog_eq_none_iff _ _).mpr (.inl h0)) hc
  rw [heq] at hdense hbase
  by_contra hne
  push Not at hne
  obtain ⟨e, he, hle, hne⟩ := hne
  refine not_dense_appendMissing (follow_dense hd args.term args.leaderID) hes he
    (by rw [hsame.base]; exact hle) (by rw [hsame.termAtLocked]; exact hne) fun i x hx => ?_
  rw [← (advanceCommit_sameLog _ args.leaderCommit).log] at hx
  rw [hdense i x hx, hbase, (appendMissing_sameSnapshot _ _ _).base, hsame.base]

end Request

end Node

/-- **One AppendEntries keeps the compacted log as it should be exactly when it is not from index
0, or the terms it carries for the indices that the snapshot covers are the ones that
`termAtLocked` answers**: `logBaseTerm` at the base, and `0` below it. -/
theorem append_keeps_log_iff (n : Node σ) (args : AppendEntriesArgs) (hd : n.Dense)
    (hterm : n.currentTerm ≤ args.term) (hes : Consecutive (args.prevLogIndex + 1) args.entries)
    (hagree : n.AgreesCommitted args) :
    n.KeepsLog args.entries (n.handleAppendEntries args).1 ↔ n.CoveredTerms args :=
  ⟨fun h => Node.coveredTerms_of_dense hd hterm hes h.dense, fun h => h.keepsLog hd hes hagree⟩

/-- A follower that has compacted its first two entries. -/
def compactedNode : Node Bytes :=
  { caughtUpNode with
    storage := ⟨1, "", [⟨1, 3, [3]⟩], some ⟨2, 1, [1, 2]⟩⟩
    log := [⟨1, 3, [3]⟩]
    logBaseIndex := 2
    logBaseTerm := 1 }

/-- A request that starts at the snapshot, with one entry that is there and one that is new. -/
theorem append_keeps_log_at_base :
    compactedNode.CoveredTerms ⟨1, "a", 2, 1, [⟨1, 3, [3]⟩, ⟨1, 4, [4]⟩], 3⟩ ∧
      compactedNode.KeepsLog [⟨1, 3, [3]⟩, ⟨1, 4, [4]⟩]
        (compactedNode.handleAppendEntries ⟨1, "a", 2, 1, [⟨1, 3, [3]⟩, ⟨1, 4, [4]⟩], 3⟩).1 := by
  have hcov : compactedNode.CoveredTerms ⟨1, "a", 2, 1, [⟨1, 3, [3]⟩, ⟨1, 4, [4]⟩], 3⟩ := by
    decide
  exact ⟨hcov, (append_keeps_log_iff compactedNode ⟨1, "a", 2, 1, [⟨1, 3, [3]⟩, ⟨1, 4, [4]⟩], 3⟩
    (by decide) (by decide) (by decide) (by decide)).mpr hcov⟩

/-- **A delayed request from index 0.** Its first two entries are committed and compacted at the
follower. They are appended behind the third, with their old indices, and the log now ends at
index 2, below what is committed. -/
theorem append_breaks_compacted_log : compactedNode.Dense ∧
      compactedNode.AgreesCommitted ⟨1, "a", 0, 0, [⟨1, 1, [1]⟩, ⟨1, 2, [2]⟩], 2⟩ ∧
      (compactedNode.handleAppendEntries
        ⟨1, "a", 0, 0, [⟨1, 1, [1]⟩, ⟨1, 2, [2]⟩], 2⟩).2.success = true ∧
      (compactedNode.handleAppendEntries ⟨1, "a", 0, 0, [⟨1, 1, [1]⟩, ⟨1, 2, [2]⟩], 2⟩).1.log =
        [⟨1, 3, [3]⟩, ⟨1, 1, [1]⟩, ⟨1, 2, [2]⟩] ∧
      (compactedNode.handleAppendEntries
        ⟨1, "a", 0, 0, [⟨1, 1, [1]⟩, ⟨1, 2, [2]⟩], 2⟩).1.lastLogIndexLocked = 2 ∧
      ¬ compactedNode.KeepsLog [⟨1, 1, [1]⟩, ⟨1, 2, [2]⟩] (compactedNode.handleAppendEntries
        ⟨1, "a", 0, 0, [⟨1, 1, [1]⟩, ⟨1, 2, [2]⟩], 2⟩).1 := by
  exact ⟨by decide, by decide, by decide, by decide, by decide, fun h => absurd h.dense (by decide)⟩

end Raft
end BoilerPulse
