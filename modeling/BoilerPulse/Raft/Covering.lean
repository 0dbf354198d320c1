import BoilerPulse.Raft.Entries
import BoilerPulse.Raft.IndexOrder

/-!
# A follower's log against its leader's

While a leader is in office its log only grows at the end. So for the length of its term there is
one term for each index, `t : ℕ → ℕ`, whether the entry is in its log, compacted, or yet to come:

* `Writes t T` is the leader: its log, its base and the snapshot it is taking have the terms `t`,
  and so has everything it sends (`Fair`);
* `Takes t` is a follower whose log can be extended by such a leader: it satisfies log matching with
  respect to `t`;
* `Covers t n m` says that a follower reaches index `m` and has the terms `t` up to there.

Splicing in entries of the terms `t` cuts nothing off that is covered (`Takes.deliver`), and
neither does compaction (`Covers.discard`). An installed snapshot does, unless it reaches the end of
the log (`Takes.finish`).
-/

namespace BoilerPulse
namespace Raft

variable {σ : Type}

/-! ### Terms position by position -/

section Terms

variable {u : ℕ → ℕ} {l es : List LogEntry} {pos k : ℕ}

/-- The first `k` entries have the terms `u`, as far as they are there. -/
def AgreesTo (u : ℕ → ℕ) (l : List LogEntry) (k : ℕ) : Prop :=
  ∀ j < k, ∀ x, l[j]? = some x → x.term = u j

/-- Log matching: an entry of the right term stands on entries of the right terms. -/
def Matching (u : ℕ → ℕ) (l : List LogEntry) : Prop :=
  ∀ i x, l[i]? = some x → x.term = u i → AgreesTo u l i

theorem AgreesTo.succ (h : AgreesTo u l k) {x : LogEntry} (hx : l[k]? = some x)
    (ht : x.term = u k) : AgreesTo u l (k + 1) := by
  intro j hj y hy
  rcases Nat.lt_succ_iff_lt_or_eq.mp hj with hlt | rfl
  · exact h j hlt y hy
  · obtain rfl := Option.some.inj (hy.symm.trans hx)
    exact ht

/-- Agreement on the whole log is matching. -/
theorem AgreesTo.matching (h : AgreesTo u l k) (hk : l.length ≤ k) : Matching u l := by
  intro i x hx _ j hj y hy
  have := (List.getElem?_eq_some_iff.mp hx).1
  exact h j (by omega) y hy

namespace Node

theorem mem_splice {x : LogEntry} : ∀ {pos : ℕ}, x ∈ splice l pos es → x ∈ l ∨ x ∈ es := by
  induction es with
  | nil => exact fun h => Or.inl h
  | cons e es ih =>
    intro pos h
    unfold splice at h
    cases hp : l[pos]? with
    | none =>
      rw [hp] at h
      exact List.mem_append.mp h
    | some y =>
      rw [hp] at h
      dsimp only at h
      split at h
      · exact (ih h).imp_right (List.mem_cons_of_mem e)
      · exact (List.mem_append.mp h).imp_left List.mem_of_mem_take

/-- **Splicing in entries of the right terms** behind entries of the right terms: the log reaches
the last of them with the right terms, and is the old one or ends there. -/
theorem agreesTo_splice : ∀ {pos : ℕ}, pos ≤ l.length → AgreesTo u l pos →
    (∀ j y, es[j]? = some y → y.term = u (pos + j)) →
    AgreesTo u (splice l pos es) (pos + es.length) ∧ (pos + es.length ≤ (splice l pos es).length) ∧
      (splice l pos es = l ∨ (splice l pos es).length = pos + es.length) := by
  induction es with
  | nil => exact fun hpos hpre _ => ⟨hpre, hpos, Or.inl rfl⟩
  | cons e es ih =>
    intro pos hpos hpre hes
    have hcut : ∀ l' : List LogEntry, l'.length = pos → AgreesTo u l' pos →
        AgreesTo u (l' ++ e :: es) (pos + (e :: es).length) := by
      intro l' hlen hl' j hj x hx
      rcases Nat.lt_or_ge j pos with hlt | hge
      · rw [List.getElem?_append_left (by omega)] at hx
        exact hl' j hlt x hx
      · rw [List.getElem?_append_right (by omega)] at hx
        rw [hes _ x hx]
        congr 1
        omega
    unfold splice
    cases hp : l[pos]? with
    | none =>
      -- the entries start right behind the end
      have hlen : l.length = pos := le_antisymm (List.getElem?_eq_none_iff.mp hp) hpos
      dsimp only
      have hlength : (l ++ e :: es).length = pos + (e :: es).length := by
        rw [List.length_append, hlen]
      exact ⟨hcut l hlen hpre, hlength.ge, Or.inr hlength⟩
    | some x =>
      have hlt := (List.getElem?_eq_some_iff.mp hp).1
      dsimp only
      split
      · next ht =>
        have hstep := ih (Nat.succ_le_of_lt hlt)
          (hpre.succ hp (ht.trans (hes 0 e rfl))) fun j y hy => by
            rw [hes (j + 1) y hy]
            congr 1
            omega
        have hlen : pos + 1 + es.length = pos + (e :: es).length := by
          rw [List.length_cons]
          omega
        rw [hlen] at hstep
        exact hstep
      · have hlen : (l.take pos).length = pos := List.length_take_of_le hpos
        have hlength : (l.take pos ++ e :: es).length = pos + (e :: es).length := by
          rw [List.length_append, hlen]
        refine ⟨hcut _ hlen fun j hj x hx => ?_, hlength.ge, Or.inr hlength⟩
        rw [List.getElem?_take_of_lt hj] at hx
        exact hpre j hj x hx

/-- Nothing of the right terms is cut off. -/
theorem AgreesTo.splice (h : AgreesTo u l k) (hk : k ≤ l.length)
    (hes : ∀ j y, es[j]? = some y → y.term = u (pos + j)) :
    AgreesTo u (splice l pos es) k ∧ k ≤ (splice l pos es).length := by
  have hkept : ∀ i < k, (Node.splice l pos es)[i]? = l[i]? := by
    intro i hi
    refine splice_getElem?_of_agree (by omega) fun j hj x y hpos hx hy => ?_
    rw [h j (by omega) x hx, hes _ y hy]
    congr 1
    omega
  refine ⟨fun j hj x hx => h j hj x (by rw [← hkept j hj]; exact hx), ?_⟩
  rcases Nat.eq_zero_or_pos k with rfl | hpos
  · exact Nat.zero_le _
  · have hlast := hkept (k - 1) (by omega)
    rw [List.getElem?_eq_getElem (by omega : k - 1 < l.length)] at hlast
    have := (List.getElem?_eq_some_iff.mp hlast).1
    omega

end Node

end Terms

/-! ### The follower -/

/-- **`n` reaches index `m` with the terms `t`**: what it has of the entries up to there, after its
snapshot, has these terms. -/
structure Covers (t : ℕ → ℕ) (n : Node σ) (m : ℕ) : Prop where
  reach : m ≤ n.logBaseIndex + n.log.length
  agrees : AgreesTo (fun j => t (n.logBaseIndex + j + 1)) n.log (m - n.logBaseIndex)

/-- A log that an honest leader with the terms `t` can extend. -/
structure Takes (t : ℕ → ℕ) (n : Node σ) : Prop where
  dense : n.Dense
  matching : Matching (fun j => t (n.logBaseIndex + j + 1)) n.log
  pos : ∀ x ∈ n.log, 0 < x.term

/-- A request of a leader with the terms `t`. Past the end of its log, a leader sends term `0`. -/
structure Fair (t : ℕ → ℕ) (T : ℕ) (args : AppendEntriesArgs) : Prop where
  term : args.term = T
  entries : Consecutive (args.prevLogIndex + 1) args.entries
  terms : ∀ x ∈ args.entries, x.term = t x.index ∧ 0 < x.term
  prev : 0 < args.prevLogIndex → args.prevLogTerm = t args.prevLogIndex ∨ args.prevLogTerm = 0

namespace Covers

variable {t : ℕ → ℕ} {n n' : Node σ} {m : ℕ}

theorem of_same (h : Covers t n m) (hlog : n'.log = n.log)
    (hb : n'.logBaseIndex = n.logBaseIndex) : Covers t n' m := by
  refine ⟨?_, ?_⟩
  · rw [hlog, hb]; exact h.reach
  · rw [hlog, hb]; exact h.agrees

/-- What a snapshot covers is covered. -/
theorem of_le_base (h : m ≤ n.logBaseIndex) : Covers t n m :=
  ⟨by omega, fun j hj => absurd hj (by omega)⟩

theorem mono (h : Covers t n m) {m' : ℕ} (hle : m' ≤ m) : Covers t n m' :=
  ⟨hle.trans h.reach, fun j hj => h.agrees j (by omega)⟩

theorem max {m' : ℕ} (h : Covers t n m) (h' : Covers t n m') : Covers t n (max m m') := by
  rcases Nat.le_total m m' with hle | hle
  · rw [max_eq_right hle]; exact h'
  · rw [max_eq_left hle]; exact h

/-- Discarding a prefix. -/
theorem discard (h : Covers t n m) (hd : n.Dense) (index term : ℕ) :
    Covers t (n.discardLogPrefixLocked index term) m := by
  by_cases hb : n.logBaseIndex < index
  · rw [hd.discardLogPrefixLocked hb]
    have hlast := hd.lastLogIndexLocked
    have hreach := h.reach
    refine ⟨?_, fun j hj x hx => ?_⟩
    · simp only [List.length_drop]
      omega
    · dsimp only at hj hx ⊢
      rw [List.getElem?_drop] at hx
      refine (h.agrees _ (by omega) x hx).trans ?_
      dsimp only
      congr 1
      omega
  · unfold Node.discardLogPrefixLocked
    rw [if_pos (not_lt.mp hb)]
    exact h

end Covers

namespace Takes

variable {t : ℕ → ℕ} {T : ℕ} {n n' : Node σ}

theorem of_same (h : Takes t n) (hlog : n'.log = n.log)
    (hb : n'.logBaseIndex = n.logBaseIndex) : Takes t n' := by
  refine ⟨?_, ?_, ?_⟩
  · unfold Node.Dense; rw [hlog, hb]; exact h.dense
  · rw [hlog, hb]; exact h.matching
  · rw [hlog]; exact h.pos

theorem discard (h : Takes t n) (index term : ℕ) :
    Takes t (n.discardLogPrefixLocked index term) := by
  refine ⟨h.dense.discard index term, ?_, ?_⟩
  · by_cases hb : n.logBaseIndex < index
    · rw [h.dense.discardLogPrefixLocked hb]
      have hlast := h.dense.lastLogIndexLocked
      -- the position in the old log of the entry at position `j`
      have hpos : ∀ j, n.logBaseIndex + (min index n.lastLogIndexLocked - n.logBaseIndex + j) + 1 =
          min index n.lastLogIndexLocked + j + 1 := by
        intro j
        omega
      intro i x hx hxt j hj y hy
      dsimp only at hx hxt hy ⊢
      rw [List.getElem?_drop] at hx hy
      rw [← hpos] at hxt ⊢
      exact h.matching _ x hx hxt _ (by omega) y hy
    · unfold Node.discardLogPrefixLocked
      rw [if_pos (not_lt.mp hb)]
      exact h.matching
  · intro x hx
    refine h.pos x ?_
    unfold Node.discardLogPrefixLocked at hx
    split at hx
    · exact hx
    · exact List.mem_of_mem_drop hx

/-- An accepted request starts behind entries of the right terms. -/
theorem agreesTo_prev (h : Takes t n) {args : AppendEntriesArgs} (hf : Fair t T args)
    (hc : n.checkPrevLog args.prevLogIndex args.prevLogTerm = none) :
    AgreesTo (fun j => t (n.logBaseIndex + j + 1)) n.log (args.prevLogIndex - n.logBaseIndex) := by
  rcases Nat.lt_or_ge n.logBaseIndex args.prevLogIndex with hlt | hge
  · rcases (n.checkPrevLog_eq_none_iff _ _).mp hc with h0 | ⟨-, hl, hterm⟩
    · omega
    · obtain ⟨x, hx⟩ := h.dense.getElem?_of_le hlt hl
      rw [h.dense.termAtLocked hlt hx] at hterm
      have hxt : x.term = t args.prevLogIndex := by
        rcases hf.prev (by omega) with hp | hp
        · exact hterm.trans hp
        · -- no entry has term 0
          have := h.pos x (List.mem_of_getElem? hx)
          omega
      have hidx : n.logBaseIndex + (args.prevLogIndex - n.logBaseIndex - 1) + 1 =
          args.prevLogIndex := by omega
      have hu : x.term = t (n.logBaseIndex + (args.prevLogIndex - n.logBaseIndex - 1) + 1) := by
        rw [hidx]
        exact hxt
      have hsucc := (h.matching _ x hx hu).succ hx hu
      rw [Nat.sub_add_cancel (by omega)] at hsucc
      exact hsucc
  · intro j hj
    omega

/-- **A request of the leader.** Whatever was covered still is, and if the request is accepted, its
last entry is. -/
theorem deliver (h : Takes t n) {args : AppendEntriesArgs} (hf : Fair t T args)
    (hcov : n.Accepts args → n.CoveredTerms args) :
    Takes t (n.handleAppendEntries args).1 ∧
      (∀ m, Covers t n m → Covers t (n.handleAppendEntries args).1 m) ∧
      ((n.handleAppendEntries args).2.success = true →
        Covers t (n.handleAppendEntries args).1 (args.prevLogIndex + args.entries.length)) := by
  have hsame := n.follow_sameLog args.term args.leaderID
  have hbase := n.handleAppendEntries_base args
  obtain ⟨-, heq⟩ | ⟨-, -, i, heq⟩ | ⟨hle, hc, heq⟩ := n.handleAppendEntries_cases args
  · rw [heq]
    exact ⟨h, fun _ hm => hm, nofun⟩
  · rw [heq]
    exact ⟨h.of_same hsame.log hsame.base, fun _ hm => hm.of_same hsame.log hsame.base, nofun⟩
  have hcov := hcov ⟨hle, hc⟩
  have hlog := hcov.handleAppendEntries_log h.dense hf.entries hle hc
  have hlast := h.dense.lastLogIndexLocked
  have hstart : args.prevLogIndex - n.logBaseIndex ≤ n.log.length := by
    rcases (n.checkPrevLog_eq_none_iff _ _).mp hc with h0 | ⟨-, hl, -⟩
    · omega
    · omega
  have hdense : (n.handleAppendEntries args).1.Dense := by
    rw [Node.dense_iff, hbase, hlog]
    exact Node.consecutive_splice (Node.dense_iff.mp h.dense) hstart
      (Node.consecutive_drop hf.entries)
  -- what is spliced in has the terms of its positions
  have hes : ∀ j y, (args.entries.drop (n.logBaseIndex - args.prevLogIndex))[j]? = some y →
      y.term = t (n.logBaseIndex + (args.prevLogIndex - n.logBaseIndex + j) + 1) := by
    intro j y hy
    have hmem := List.mem_of_mem_drop (List.mem_of_getElem? hy)
    rw [List.getElem?_drop] at hy
    rw [(hf.terms y hmem).1, consecutive_iff.mp hf.entries _ y hy]
    congr 1
    omega
  obtain ⟨hagree, hlen, hend⟩ := Node.agreesTo_splice hstart (h.agreesTo_prev hf hc) hes
  generalize (n.handleAppendEntries args).1 = n' at hlog hdense hbase ⊢
  refine ⟨⟨hdense, ?_, ?_⟩, fun m hm => ?_, fun _ => ?_⟩
  · rw [hlog, hbase]
    rcases hend with hold | hend
    · rw [hold]; exact h.matching
    · exact hagree.matching hend.le
  · intro x hx
    rw [hlog] at hx
    rcases Node.mem_splice hx with hx | hx
    · exact h.pos x hx
    · exact (hf.terms x (List.mem_of_mem_drop hx)).2
  · have hreach := hm.reach
    obtain ⟨hagree', hlen'⟩ := Node.AgreesTo.splice hm.agrees (by omega) hes
    refine ⟨?_, ?_⟩
    · rw [hlog, hbase]; omega
    · rw [hlog, hbase]; exact hagree'
  · rw [List.length_drop] at hlen hagree
    refine ⟨?_, ?_⟩
    · rw [hlog, hbase]; omega
    · rw [hlog, hbase]
      intro j hj
      exact hagree j (by omega)

/-- **An installed snapshot** that cuts nothing off. -/
theorem finish (h : Takes t n) {args : InstallSnapshotArgs}
    (hend : n.logBaseIndex < args.lastIncludedIndex →
      n.lastLogIndexLocked ≤ args.lastIncludedIndex) :
    Takes t (n.installSnapshotFinish args) ∧
      (∀ m, Covers t n m → Covers t (n.installSnapshotFinish args) m) ∧
      Covers t (n.installSnapshotFinish args) args.lastIncludedIndex := by
  unfold Node.installSnapshotFinish
  split
  · next hle => exact ⟨h, fun _ hm => hm, .of_le_base hle⟩
  · next hlt =>
    have hend := hend (not_le.mp hlt)
    rw [h.dense.lastLogIndexLocked] at hend
    refine ⟨⟨nofun, nofun, nofun⟩, fun m hm => ?_, .of_le_base le_rfl⟩
    exact .of_le_base (hm.reach.trans hend)

end Takes

/-! ### The leader -/

/-- **The log of a leader with the terms `t`**, in office in term `T`: its entries, its base and the
snapshot it is taking have these terms, and what it will append has its own. -/
structure Writes (t : ℕ → ℕ) (T : ℕ) (s : Server σ) : Prop where
  indexed : Indexed s
  term : s.node.currentTerm = T
  term_pos : 0 < T
  entry : ∀ i e, s.node.entryAt i = some e → e.term = t i ∧ 0 < e.term
  base : 0 < s.node.logBaseIndex → s.node.logBaseTerm = t s.node.logBaseIndex
  captured : ∀ la t', s.applier.snapshotAt = some (la, t') → t' = t la
  later : ∀ i, s.node.lastLogIndexLocked < i → t i = T

namespace Node

variable {n : Node σ}

theorem sendAppendEntriesTo_term {peer : String} {term : ℕ}
    (h : n.sendAppendEntriesTo peer = some (.installSnapshot term)) : term = n.currentTerm := by
  unfold sendAppendEntriesTo at h
  split at h
  · cases h
  dsimp only at h
  generalize (if n.nextIndex peer = 0 then 1 else n.nextIndex peer) = k at h
  split at h
  · exact (Outgoing.installSnapshot.inj (Option.some.inj h)).symm
  · cases h

end Node

namespace Writes

variable {M : StateMachine σ} {t : ℕ → ℕ} {T : ℕ} {s s' : Server σ}

/-- Another node with the same log. -/
theorem of_same (h : Writes t T s) (hI : Indexed s') (hterm : s'.node.currentTerm = T)
    (hlog : s'.node.log = s.node.log) (hb : s'.node.logBaseIndex = s.node.logBaseIndex)
    (hbt : s'.node.logBaseTerm = s.node.logBaseTerm)
    (hcap : ∀ la t', s'.applier.snapshotAt = some (la, t') → t' = t la) : Writes t T s' where
  indexed := hI
  term := hterm
  term_pos := h.term_pos
  entry i e := by
    rw [Node.entryAt_congr hlog hb]
    exact h.entry i e
  base := by
    rw [hb, hbt]
    exact h.base
  captured := hcap
  later i := by
    have hlast : s'.node.lastLogIndexLocked = s.node.lastLogIndexLocked := by
      unfold Node.lastLogIndexLocked
      rw [hlog, hb]
    rw [hlast]
    exact h.later i

/-- **A reply** of the same term. -/
theorem handle (h : Writes t T s) (hd : Handler) {n : Node σ} (hsafe : hd.Safe s.node)
    (hn : s.node.handle hd = some n) (hsame : SameLog s.node n)
    (hterm : n.currentTerm = s.node.currentTerm) : Writes t T { s with node := n } :=
  h.of_same (h.indexed.handle hsafe hn rfl rfl) (hterm.trans h.term) hsame.log hsame.base
    hsame.baseTerm h.captured

/-- **A batch.** -/
theorem propose (h : Writes t T s) {batch : List Bytes} {n : Node σ}
    (hn : s.node.appendBatch batch = some n) : Writes t T { s with node := n } := by
  have hI : Indexed { s with node := n } :=
    h.indexed.handle (show Handler.Safe _ (.propose batch) from trivial) hn rfl rfl
  have hlast := Node.lastLogIndexLocked_appendBatch h.indexed.node.dense hn hI.node.dense
  have hvote := (s.node.appendBatch_sameVote hn).currentTerm
  obtain ⟨-, rfl⟩ := Node.appendBatch_eq hn
  have hsnap := s.node.appendLogLocked_sameSnapshot
    (Node.batchEntries s.node.currentTerm (s.node.lastLogIndexLocked + 1) batch)
  refine ⟨hI, hvote.trans h.term, h.term_pos, fun i e he => ?_, ?_, h.captured,
    fun i hi => h.later i (hlast.trans_lt hi)⟩
  · rcases Node.entryAt_appendLogLocked he with hold | hnew
    · exact h.entry i e hold
    · obtain ⟨hterm, hlt, -⟩ := Node.entryAt_of_mem_batch h.indexed.node.dense hnew
      rw [hI.node.dense.index_of_entryAt he] at hlt
      rw [hterm, h.term, h.later i hlt]
      exact ⟨rfl, h.term_pos⟩
  · change 0 < (Node.appendLogLocked _ _).logBaseIndex →
      (Node.appendLogLocked _ _).logBaseTerm = t (Node.appendLogLocked _ _).logBaseIndex
    rw [hsnap.base, Node.appendLogLocked_logBaseTerm]
    exact h.base

/-- **The steps of `applyLoop`.** -/
theorem apply (h : Writes t T s) {r : Option LogEntry} (hs : s.applyStep M = some (s', r)) :
    Writes t T s' := by
  have hI := h.indexed.apply hs
  have hvote := (Server.applyStep_same hs).node.currentTerm.trans h.term
  have hcap := h.captured
  cases Server.applyStep_inv hs with
  | caughtUp ha hle | fetch e ha hlt hb he | apply e ha | noSnapshot ha | snapshotFailed la t' ha =>
    exact h.of_same hI hvote rfl rfl rfl nofun
  | capture ha hoff hlt =>
    refine h.of_same hI hvote rfl rfl rfl fun la t' hat => ?_
    cases hat
    -- what is captured is the term of an entry that is still in the log
    obtain ⟨e, he⟩ := h.indexed.node.dense.exists_entryAt hlt
      (h.indexed.node.applied_le.trans h.indexed.node.commit_le)
    rw [Node.termAtLocked_of_entryAt h.indexed.node.dense he]
    exact (h.entry _ e he).1
  | snapshot la t' data ha hd | save la t' data ha =>
    rw [ha] at hcap
    exact h.of_same hI hvote rfl rfl rfl hcap
  | discard la t' ha =>
    rw [ha] at hcap
    refine ⟨hI, hvote, h.term_pos,
      fun i e he => h.entry i e (h.indexed.node.dense.entryAt_discard he), fun hpos => ?_, nofun,
      fun i hi => h.later i ?_⟩
    · change 0 < (s.node.discardLogPrefixLocked la t').logBaseIndex at hpos
      change (s.node.discardLogPrefixLocked la t').logBaseTerm =
        t (s.node.discardLogPrefixLocked la t').logBaseIndex
      rcases h.indexed.discard_cases ha with heq | ⟨-, heq⟩
      · rw [heq] at hpos ⊢
        exact h.base hpos
      · rw [heq]
        -- the new base has the term that was captured
        exact hcap la t' rfl
    · rw [← h.indexed.node.dense.lastLogIndexLocked_discard la t']
      exact hi

/-- **What the leader sends** has its terms. -/
theorem send (h : Writes t T s) {peer : String} {args : AppendEntriesArgs}
    (hs : s.node.sendAppendEntriesTo peer = some (.appendEntries args)) : Fair t T args := by
  have hes := h.indexed.node.dense.consecutive_send hs
  unfold Node.sendAppendEntriesTo at hs
  split at hs
  · cases hs
  dsimp only at hs
  generalize (if s.node.nextIndex peer = 0 then 1 else s.node.nextIndex peer) = k at hs
  split at hs
  · cases hs
  · next hb =>
    obtain rfl := Node.Outgoing.appendEntries.inj (Option.some.inj hs)
    refine ⟨h.term, hes, fun x hx => ?_, fun hpos => ?_⟩
    · -- the entries are taken from the log
      have hmem : x ∈ s.node.log := by
        dsimp only at hx
        split at hx
        · exact List.mem_of_mem_drop (List.mem_of_mem_take hx)
        · cases hx
      obtain ⟨j, hj⟩ := List.mem_iff_getElem?.mp hmem
      have hidx := h.indexed.node.dense j x hj
      refine h.entry x.index x ?_
      rw [hidx, Node.entryAt_slot]
      exact hj
    · rcases Nat.eq_zero_or_pos (s.node.termAtLocked (k - 1)) with hzero | hterm
      · exact Or.inr hzero
      · left
        rcases Node.termAtLocked_cases h.indexed.node.dense hterm with ⟨hbase, hbt⟩ | ⟨e, he, het⟩
        · dsimp only at hpos ⊢
          rw [hbt, hbase]
          exact h.base (hbase ▸ hpos)
        · exact het.trans (h.entry _ e he).1

end Writes

end Raft
end BoilerPulse
