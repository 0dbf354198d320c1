import BoilerPulse.Raft.Appending

/-!
# Single entries

What the functions that write the log do to the entry at one index (`entryAt`) and to the term that
`termAtLocked` finds there. An entry that is in the log after an `AppendEntries` was there before or
was carried; one that is there after a batch was there before or is of the batch; compaction
moves no entry.
-/

namespace BoilerPulse
namespace Raft

variable {σ : Type}

namespace Node

variable {n : Node σ} {x : LogEntry} {i : ℕ}

/-! ### Reading -/

/-- The term at an index, as far as the log knows it. -/
theorem termAtLocked_cases (hd : n.Dense) (hpos : 0 < n.termAtLocked i) :
    (i = n.logBaseIndex ∧ n.termAtLocked i = n.logBaseTerm) ∨
      ∃ e, n.entryAt i = some e ∧ n.termAtLocked i = e.term := by
  unfold termAtLocked at hpos ⊢
  split at hpos
  · exact absurd hpos (lt_irrefl 0)
  · next h₁ =>
    rw [if_neg h₁]
    split at hpos
    · next h₂ => exact Or.inl ⟨h₂, if_pos h₂⟩
    · next h₂ =>
      rw [if_neg h₂]
      split at hpos
      · exact absurd hpos (lt_irrefl 0)
      · next h₃ =>
        have hlt : n.logBaseIndex < i := by omega
        obtain ⟨e, he⟩ := hd.exists_entryAt hlt (by omega)
        refine Or.inr ⟨e, he, ?_⟩
        rw [entryAt_of_lt hlt] at he
        rw [if_neg h₃, he]

theorem termAtLocked_of_entryAt (hd : n.Dense) {e : LogEntry} (he : n.entryAt i = some e) :
    n.termAtLocked i = e.term := by
  have hb := lt_of_entryAt he
  rw [entryAt_of_lt hb] at he
  exact hd.termAtLocked hb he

/-- The entry at an index has that index. -/
theorem Dense.index_of_entryAt (hd : n.Dense) {e : LogEntry} (he : n.entryAt i = some e) :
    e.index = i := by
  have hb := lt_of_entryAt he
  rw [entryAt_of_lt hb] at he
  rw [hd _ e he]
  omega

theorem entryAt_congr {n' : Node σ} (hlog : n'.log = n.log)
    (hb : n'.logBaseIndex = n.logBaseIndex) (i : ℕ) : n'.entryAt i = n.entryAt i := by
  unfold entryAt
  rw [hlog, hb]

/-! ### Writing -/

theorem appendLogLocked_logBaseTerm (es : List LogEntry) :
    (n.appendLogLocked es).logBaseTerm = n.logBaseTerm := by
  unfold appendLogLocked
  split <;> rfl

theorem appendMissing_logBaseTerm (es : List LogEntry) : ∀ idx,
    (n.appendMissing idx es).logBaseTerm = n.logBaseTerm := by
  induction es with
  | nil => exact fun _ => rfl
  | cons e es ih =>
    intro idx
    unfold appendMissing
    split
    · split
      · exact ih (idx + 1)
      · rw [appendLogLocked_logBaseTerm]
        unfold truncateLogFromLocked
        split <;> rfl
    · exact appendLogLocked_logBaseTerm _

/-- What the append loop leaves in the log was there, or was carried. -/
theorem mem_of_appendMissing {j : ℕ} (es : List LogEntry) : ∀ idx,
    (n.appendMissing idx es).log[j]? = some x → n.log[j]? = some x ∨ x ∈ es := by
  -- appending at the end of some log
  have happend : ∀ l es : List LogEntry, (l ++ es)[j]? = some x → l[j]? = some x ∨ x ∈ es := by
    intro l es h
    rw [List.getElem?_append] at h
    split at h
    · exact Or.inl h
    · exact Or.inr (List.mem_of_getElem? h)
  induction es with
  | nil => exact fun _ h => Or.inl h
  | cons e es ih =>
    intro idx h
    unfold appendMissing at h
    split at h
    · split at h
      · exact (ih (idx + 1) h).imp_right (List.mem_cons_of_mem e)
      · rw [appendLogLocked_log] at h
        refine (happend _ _ h).imp_left fun hl => ?_
        unfold truncateLogFromLocked at hl
        split at hl
        · exact hl
        · rw [List.getElem?_take] at hl
          split at hl
          · exact hl
          · cases hl
    · rw [appendLogLocked_log] at h
      exact happend _ _ h

variable {args : AppendEntriesArgs}

/-- The entries after an `AppendEntries` were there, or were carried. -/
theorem entryAt_handleAppendEntries (h : (n.handleAppendEntries args).1.entryAt i = some x)
    :
    n.entryAt i = some x ∨ x ∈ args.entries := by
  have hsame := n.follow_sameLog args.term args.leaderID
  have hbase := n.handleAppendEntries_base args
  unfold entryAt at h ⊢
  rw [hbase] at h
  split at h
  · cases h
  · next hb =>
    rw [if_neg hb]
    obtain ⟨-, heq⟩ | ⟨-, -, j, heq⟩ | ⟨-, -, heq⟩ := n.handleAppendEntries_cases args
    · rw [heq] at h; exact Or.inl h
    · rw [heq] at h
      rw [← hsame.log]
      exact Or.inl h
    · rw [heq] at h
      dsimp only at h
      rw [(advanceCommit_sameLog _ args.leaderCommit).log] at h
      rw [← hsame.log]
      exact mem_of_appendMissing _ _ h

theorem handleAppendEntries_logBaseTerm :
    (n.handleAppendEntries args).1.logBaseTerm = n.logBaseTerm := by
  have hsame := n.follow_sameLog args.term args.leaderID
  obtain ⟨-, heq⟩ | ⟨-, -, i, heq⟩ | ⟨-, -, heq⟩ := n.handleAppendEntries_cases args
  · rw [heq]
  · rw [heq]; exact hsame.baseTerm
  · rw [heq]
    dsimp only
    rw [(advanceCommit_sameLog _ args.leaderCommit).baseTerm, appendMissing_logBaseTerm,
      hsame.baseTerm]

/-- The entries after a batch were there, or are of the batch. -/
theorem entryAt_appendLogLocked {es : List LogEntry} (h : (n.appendLogLocked es).entryAt i = some x)
    : n.entryAt i = some x ∨ x ∈ es := by
  unfold entryAt at h ⊢
  rw [(n.appendLogLocked_sameSnapshot es).base, appendLogLocked_log] at h
  split at h
  · cases h
  · next hb =>
    rw [if_neg hb]
    rw [List.getElem?_append] at h
    split at h
    · exact Or.inl h
    · exact Or.inr (List.mem_of_getElem? h)

/-- A batch is found behind what was the end of the log. -/
theorem entryAt_of_mem_batch (hd : n.Dense) {batch : List Bytes} {w : LogEntry}
    (hw : w ∈ batchEntries n.currentTerm (n.lastLogIndexLocked + 1) batch) :
    w.term = n.currentTerm ∧ n.lastLogIndexLocked < w.index ∧
      (n.appendLogLocked (batchEntries n.currentTerm (n.lastLogIndexLocked + 1) batch)).entryAt
        w.index = some w := by
  obtain ⟨j, hj⟩ := List.mem_iff_getElem?.mp hw
  obtain ⟨hterm, hidx⟩ := batchEntries_getElem? batch hj
  have hlast := hd.lastLogIndexLocked
  refine ⟨hterm, by omega, ?_⟩
  unfold entryAt
  rw [(n.appendLogLocked_sameSnapshot _).base, if_neg (by omega), appendLogLocked_log,
    List.getElem?_append_right (by omega), ← hj]
  congr 1
  omega

/-- A batch keeps the entries that are there. -/
theorem entryAt_appendLogLocked_of_some (es : List LogEntry) (h : n.entryAt i = some x)
    : (n.appendLogLocked es).entryAt i = some x := by
  unfold entryAt at h ⊢
  rw [(n.appendLogLocked_sameSnapshot es).base, appendLogLocked_log]
  split at h
  · cases h
  · next hb =>
    rw [if_neg hb, List.getElem?_append_left (List.getElem?_eq_some_iff.mp h).1]
    exact h

/-- A numbered log that got longer ends later. -/
theorem lastLogIndexLocked_appendBatch (hd : n.Dense) {batch : List Bytes} {n' : Node σ}
    (h : n.appendBatch batch = some n') (hd' : n'.Dense) :
    n.lastLogIndexLocked ≤ n'.lastLogIndexLocked := by
  rw [hd.lastLogIndexLocked, hd'.lastLogIndexLocked]
  obtain ⟨-, rfl⟩ := appendBatch_eq h
  rw [(n.appendLogLocked_sameSnapshot _).base, appendLogLocked_log, List.length_append]
  omega

/-- What is discarded is at or below the new base. -/
theorem Dense.entryAt_discard (hd : n.Dense) {index term i : ℕ}
    (h : (n.discardLogPrefixLocked index term).entryAt i = some x) : n.entryAt i = some x := by
  by_cases hb : n.logBaseIndex < index
  · rw [hd.discardLogPrefixLocked hb] at h
    have hge : n.logBaseIndex ≤ min index n.lastLogIndexLocked :=
      le_min hb.le (by rw [hd.lastLogIndexLocked]; omega)
    unfold entryAt at h ⊢
    dsimp only at h
    split at h
    · cases h
    · next hlt =>
      rw [List.getElem?_drop] at h
      rw [if_neg (by omega), ← h]
      congr 1
      omega
  · unfold Node.discardLogPrefixLocked at h
    rw [if_pos (not_lt.mp hb)] at h
    exact h

/-- The log still ends where it did. -/
theorem Dense.lastLogIndexLocked_discard (hd : n.Dense) (index term : ℕ) :
    (n.discardLogPrefixLocked index term).lastLogIndexLocked = n.lastLogIndexLocked := by
  by_cases hb : n.logBaseIndex < index
  · rw [(hd.discard index term).lastLogIndexLocked, hd.discardLogPrefixLocked hb]
    have hlast := hd.lastLogIndexLocked
    simp only [List.length_drop]
    omega
  · unfold Node.discardLogPrefixLocked
    rw [if_pos (not_lt.mp hb)]

end Node

end Raft
end BoilerPulse
