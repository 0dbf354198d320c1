import BoilerPulse.Framework.Runs
import BoilerPulse.Raft.NodeLemmas

/-!
# One process in an arbitrary environment

`Cluster` fixes who sends what to whom. The properties of a single process — of its
memory against its disk, and of its goroutines against each other — hold whoever
is sending, so here the messages are free: a `Handler` is a call that holds the mutex from
start to end, with any arguments, and an `Event` is a handler or a step of one of the
goroutines that work with the mutex released.

`SameSnapshot` is the frame of the handlers: none of them touches the state machine,
the applied index, the log base or the stored snapshot.
-/

namespace BoilerPulse
namespace Raft

variable {σ : Type}

/-- The calls that run under the mutex as a whole. -/
inductive Handler where
  | requestVote (args : RequestVoteArgs)
  | appendEntries (args : AppendEntriesArgs)
  | campaign
  | voteReply (term votes : ℕ) (reply : RequestVoteReply)
  | entriesReply (peer : String) (args : AppendEntriesArgs) (reply : AppendEntriesReply)
  | snapshotReply (peer : String) (args : InstallSnapshotArgs) (reply : InstallSnapshotReply)
  | propose (batch : List Bytes)

/-- Run a handler; `none` when it does nothing: an election at the leader, a batch
at a node that is not. -/
def Node.handle (n : Node σ) : Handler → Option (Node σ)
  | .requestVote args => some (n.handleRequestVote args).1
  | .appendEntries args => some (n.handleAppendEntries args).1
  | .campaign => if n.state = .leader then none else some n.startElectionLocked
  | .voteReply term votes reply => some (n.handleRequestVoteReply term votes reply).1
  | .entriesReply peer args reply => some (n.handleAppendEntriesReply peer args reply)
  | .snapshotReply peer args reply => some (n.handleInstallSnapshotReply peer args reply)
  | .propose batch => n.appendBatch batch

/-- What can happen at a process. -/
inductive Event where
  | handle (h : Handler)
  /-- `applyLoop` takes its next step. -/
  | apply
  /-- A `HandleInstallSnapshot` call arrives and runs its first section. -/
  | receive (call : ℕ) (args : InstallSnapshotArgs)
  /-- The `i`-th `HandleInstallSnapshot` call in progress takes its next step. -/
  | install (i : ℕ)

/-- One step of a process. -/
def Server.step (M : StateMachine σ) (s : Server σ) : Event → Option (Server σ)
  | .handle h => (s.node.handle h).map fun n => { s with node := n }
  | .apply => (s.applyStep M).map Prod.fst
  | .receive call args => some (s.installBegin call args).1
  | .install i => (s.installStep M i).map Prod.fst

/-- **Inversion of a step** of a process. -/
inductive Server.StepCase (M : StateMachine σ) (s : Server σ) : Event → Server σ → Prop
  | handle (h : Handler) (n : Node σ) (hn : s.node.handle h = some n) :
      StepCase M s (.handle h) { s with node := n }
  | apply (s' : Server σ) (r : Option LogEntry) (hs : s.applyStep M = some (s', r)) :
      StepCase M s .apply s'
  | receive (call : ℕ) (args : InstallSnapshotArgs) :
      StepCase M s (.receive call args) (s.installBegin call args).1
  | install (i : ℕ) (s' : Server σ) (r : Option (ℕ × InstallSnapshotReply))
      (hs : s.installStep M i = some (s', r)) : StepCase M s (.install i) s'

theorem Server.step_cases {M : StateMachine σ} {s s' : Server σ} {e : Event}
    (h : s.step M e = some s') : StepCase M s e s' := by
  cases e with
  | handle hd =>
    obtain ⟨n, hn, rfl⟩ := Option.map_eq_some_iff.mp h
    exact .handle hd n hn
  | apply =>
    obtain ⟨⟨s₁, r⟩, hs, rfl⟩ := Option.map_eq_some_iff.mp h
    exact .apply s₁ r hs
  | receive call args =>
    cases h
    exact .receive call args
  | install i =>
    obtain ⟨⟨s₁, r⟩, hs, rfl⟩ := Option.map_eq_some_iff.mp h
    exact .install i s₁ r hs

/-- The first section of a `HandleInstallSnapshot` call follows the sender, unless the
request is stale, and may leave a call in progress that has saved nothing yet. -/
theorem Server.installBegin_cases (s : Server σ) (call : ℕ) (args : InstallSnapshotArgs) :
    ∃ n, (n = s.node ∨ n = s.node.follow args.term args.leaderID) ∧
      ((s.installBegin call args).1 = { s with node := n } ∨ (s.installBegin call args).1 = { s with
          node := n
          installs := s.installs ++ [⟨call, args, n.currentTerm, .save⟩] }) := by
  refine ⟨(s.node.installSnapshotBegin args).1, ?_, ?_⟩
  · -- a stale request is answered at once, any other is followed
    by_cases hlt : args.term < s.node.currentTerm
    · exact Or.inl (by rw [Node.installSnapshotBegin, if_pos hlt])
    · exact Or.inr (by rw [s.node.installSnapshotBegin_eq (not_lt.mp hlt)]; rfl)
  · unfold Server.installBegin
    split
    · next n r hb => rw [hb]; exact Or.inl rfl
    · next n hb => rw [hb]; exact Or.inr rfl

/-! ### Edits of a list of calls in progress -/

section Edits

variable {α : Type} {l : List α} {i : ℕ} {a b x : α}

theorem mem_set_iff_of_ne (hi : l[i]? = some a) (ha : x ≠ a) (hb : x ≠ b) :
    x ∈ l.set i b ↔ x ∈ l := by
  refine ⟨fun h => (List.mem_or_eq_of_mem_set h).resolve_right hb, fun h => ?_⟩
  obtain ⟨j, hj⟩ := List.mem_iff_getElem?.mp h
  have hji : i ≠ j := by
    rintro rfl
    exact ha (Option.some.inj (hj.symm.trans hi))
  exact List.mem_iff_getElem?.mpr ⟨j, by rw [List.getElem?_set_ne hji]; exact hj⟩

theorem mem_eraseIdx_iff_of_ne (hi : l[i]? = some a) (ha : x ≠ a) : x ∈ l.eraseIdx i ↔ x ∈ l := by
  refine ⟨List.mem_of_mem_eraseIdx, fun h => ?_⟩
  obtain ⟨j, hj⟩ := List.mem_iff_getElem?.mp h
  refine List.mem_eraseIdx_iff_getElem?.mpr ⟨j, ?_, hj⟩
  rintro rfl
  exact ha (Option.some.inj (hj.symm.trans hi))

theorem mem_append_singleton_iff_of_ne (hb : x ≠ b) : x ∈ l ++ [b] ↔ x ∈ l := by
  rw [List.mem_append, List.mem_singleton, or_iff_left hb]

end Edits

/-! ### The frame of the handlers -/

/-- `n'` has the state machine, the applied index, the log base and the stored snapshot
of `n`. -/
structure SameSnapshot (n n' : Node σ) : Prop where
  stateMachine : n'.stateMachine = n.stateMachine
  lastApplied : n'.lastApplied = n.lastApplied
  base : n'.logBaseIndex = n.logBaseIndex
  snapshot : n'.storage.snapshot = n.storage.snapshot

namespace SameSnapshot

variable {n n' n'' : Node σ}

theorem refl (n : Node σ) : SameSnapshot n n :=
  ⟨rfl, rfl, rfl, rfl⟩

theorem trans (h₁ : SameSnapshot n n') (h₂ : SameSnapshot n' n'') : SameSnapshot n n'' :=
  ⟨h₂.stateMachine.trans h₁.stateMachine, h₂.lastApplied.trans h₁.lastApplied,
    h₂.base.trans h₁.base, h₂.snapshot.trans h₁.snapshot⟩

end SameSnapshot

namespace Node

variable (n : Node σ)

theorem becomeFollowerLocked_sameSnapshot (t : ℕ) : SameSnapshot n (n.becomeFollowerLocked t) := by
  unfold becomeFollowerLocked
  simp only
  split
  · exact ⟨rfl, rfl, rfl, rfl⟩
  · exact ⟨rfl, rfl, rfl, rfl⟩

theorem adopt_sameSnapshot (t : ℕ) : SameSnapshot n (n.adopt t) := by
  unfold adopt
  split
  · exact n.becomeFollowerLocked_sameSnapshot t
  · exact SameSnapshot.refl n

theorem follow_sameSnapshot (t : ℕ) (l : String) : SameSnapshot n (n.follow t l) :=
  (n.adopt_sameSnapshot t).trans ⟨rfl, rfl, rfl, rfl⟩

theorem appendLogLocked_sameSnapshot (es : List LogEntry) :
    SameSnapshot n (n.appendLogLocked es) := by
  unfold appendLogLocked
  split
  · exact SameSnapshot.refl n
  · exact ⟨rfl, rfl, rfl, rfl⟩

theorem truncateLogFromLocked_sameSnapshot (i : ℕ) :
    SameSnapshot n (n.truncateLogFromLocked i) := by
  unfold truncateLogFromLocked
  split
  · exact SameSnapshot.refl n
  · exact ⟨rfl, rfl, rfl, rfl⟩

theorem appendMissing_sameSnapshot (es : List LogEntry) :
    ∀ idx, SameSnapshot n (n.appendMissing idx es) := by
  induction es with
  | nil => exact fun _ => SameSnapshot.refl n
  | cons e es ih =>
    intro idx
    unfold appendMissing
    split
    · split
      · exact ih (idx + 1)
      · exact (n.truncateLogFromLocked_sameSnapshot idx).trans (appendLogLocked_sameSnapshot _ _)
    · exact n.appendLogLocked_sameSnapshot _

theorem advanceCommit_sameSnapshot (k : ℕ) : SameSnapshot n (n.advanceCommit k) := by
  unfold advanceCommit
  split
  · exact ⟨rfl, rfl, rfl, rfl⟩
  · exact SameSnapshot.refl n

theorem maybeAdvanceCommitIndexLocked_sameSnapshot :
    SameSnapshot n n.maybeAdvanceCommitIndexLocked := by
  obtain ⟨i, h⟩ := n.maybeAdvanceCommitIndexLocked_eq
  rw [h]
  exact ⟨rfl, rfl, rfl, rfl⟩

variable {n} {n' : Node σ} {h : Handler}

theorem Answered.sameSnapshot {peer : String} {term m : ℕ} {acks : Prop}
    (h : n.Answered peer term m acks n') : SameSnapshot n n' := by
  cases h with
  | newer h => exact n.becomeFollowerLocked_sameSnapshot _
  | moved h next => exact ⟨rfl, rfl, rfl, rfl⟩
  | recorded h hacks next =>
    refine SameSnapshot.trans ?_ (maybeAdvanceCommitIndexLocked_sameSnapshot _)
    exact ⟨rfl, rfl, rfl, rfl⟩

/-- **Inversion of a handler**: every node that it can leave behind. A handler that ignores its
message has adopted an old term. -/
inductive Handled (n : Node σ) : Handler → Node σ → Prop
  | adopted (h : Handler) (t : ℕ) : Handled n h (n.adopt t)
  | granted (args : RequestVoteArgs) : Handled n (.requestVote args) { n.adopt args.term with
      votedFor := args.candidateID
      storage := (n.adopt args.term).storage.saveTermAndVote (n.adopt args.term).currentTerm
        args.candidateID }
  | rejected (args : AppendEntriesArgs) :
      Handled n (.appendEntries args) (n.follow args.term args.leaderID)
  | accepted (args : AppendEntriesArgs) (hle : n.currentTerm ≤ args.term)
      (hc : n.checkPrevLog args.prevLogIndex args.prevLogTerm = none) :
      Handled n (.appendEntries args) (((n.follow args.term args.leaderID).appendMissing
        (args.prevLogIndex + 1) args.entries).advanceCommit args.leaderCommit)
  | campaign : Handled n .campaign n.startElectionLocked
  | elected (h : Handler) (hc : n.state = .candidate) : Handled n h n.becomeLeaderLocked
  | answered (h : Handler) {n' : Node σ} {peer : String} {t m : ℕ} {acks : Prop}
      (ha : n.Answered peer t m acks n') : Handled n h n'
  | propose (batch : List Bytes) : Handled n (.propose batch)
      (n.appendLogLocked (batchEntries n.currentTerm (n.lastLogIndexLocked + 1) batch))

theorem handle_campaign (h : n.handle .campaign = some n') :
    n' = n.startElectionLocked := by
  simp only [handle] at h
  split at h
  · cases h
  · exact (Option.some.inj h).symm

theorem handle_cases (hn : n.handle h = some n') : n.Handled h n' := by
  -- to ignore a message is to adopt a term that is not newer
  have hkeep : ∀ {t}, t ≤ n.currentTerm → ∀ h, n.Handled h n := fun {t} ht h => by
    have := Handled.adopted (n := n) h t
    rwa [n.adopt_of_le ht] at this
  cases h with
  | requestVote args =>
    cases hn
    rcases n.handleRequestVote_cases args with ⟨hlt, h⟩ | ⟨-, h⟩ | ⟨-, -, -, h⟩
    · rw [h]; exact hkeep (le_of_lt hlt) _
    · rw [h]; exact .adopted _ _
    · rw [h]; exact .granted args
  | appendEntries args =>
    cases hn
    obtain ⟨hlt, h⟩ | ⟨-, -, i, h⟩ | ⟨hle, hc, h⟩ := n.handleAppendEntries_cases args
    · rw [h]; exact hkeep (le_of_lt hlt) _
    · rw [h]; exact .rejected args
    · rw [h]; exact .accepted args hle hc
  | campaign =>
    obtain rfl := handle_campaign hn
    exact .campaign
  | voteReply term votes r =>
    cases hn
    rcases n.handleRequestVoteReply_cases term votes r with
      ⟨hlt, h⟩ | ⟨hle, h⟩ | ⟨hle, hc, -, -, ⟨-, h⟩ | ⟨-, h⟩⟩
    · rw [h, ← n.adopt_of_lt hlt]; exact .adopted _ _
    · rw [h]; exact hkeep hle _
    · rw [h]; exact hkeep hle _
    · rw [h]; exact .elected _ hc
  | entriesReply peer args r =>
    cases hn
    exact .answered _ (n.handleAppendEntriesReply_cases peer args r)
  | snapshotReply peer args r =>
    cases hn
    exact .answered _ (n.handleInstallSnapshotReply_cases peer args r)
  | propose batch =>
    obtain ⟨-, rfl⟩ := appendBatch_eq hn
    exact .propose batch

/-- **The frame of the handlers.** The base and the stored snapshot are moved by `applyLoop`
and `HandleInstallSnapshot` only. -/
theorem handle_sameSnapshot (hn : n.handle h = some n') :
    SameSnapshot n n' := by
  cases handle_cases hn with
  | adopted h t => exact n.adopt_sameSnapshot t
  | granted args => exact (n.adopt_sameSnapshot args.term).trans ⟨rfl, rfl, rfl, rfl⟩
  | rejected args => exact n.follow_sameSnapshot _ _
  | accepted args hle hc =>
    exact (n.follow_sameSnapshot _ _).trans
      ((appendMissing_sameSnapshot _ _ _).trans (advanceCommit_sameSnapshot _ _))
  | campaign => exact ⟨rfl, rfl, rfl, rfl⟩
  | elected h hc => exact ⟨rfl, rfl, rfl, rfl⟩
  | answered h ha => exact ha.sameSnapshot
  | propose batch => exact n.appendLogLocked_sameSnapshot _

/-! ### What the handlers do to the log -/

/-- Only an accepted `AppendEntries` and a batch at the leader touch the log. -/
theorem handle_log (hn : n.handle h = some n') : SameLog n n' ∨
    (∃ args, h = .appendEntries args ∧ n.checkPrevLog args.prevLogIndex args.prevLogTerm = none ∧
      SameLog ((n.follow args.term args.leaderID).appendMissing (args.prevLogIndex + 1)
        args.entries) n') ∨
    (∃ batch, h = .propose batch ∧ n' = n.appendLogLocked
        (batchEntries n.currentTerm (n.lastLogIndexLocked + 1) batch)) := by
  cases handle_cases hn with
  | adopted h t => exact Or.inl (n.adopt_sameLog t)
  | granted args =>
    exact Or.inl ((n.adopt_sameLog args.term).trans ⟨rfl, rfl, rfl, rfl, rfl⟩)
  | rejected args => exact Or.inl (n.follow_sameLog _ _)
  | accepted args hle hc =>
    -- the append loop, and a commit index that leaves the log alone
    exact Or.inr (Or.inl ⟨args, rfl, hc, advanceCommit_sameLog _ _⟩)
  | campaign | elected h hc => exact Or.inl ⟨rfl, rfl, rfl, rfl, rfl⟩
  | answered h ha => exact Or.inl ha.sameLog
  | propose batch => exact Or.inr (Or.inr ⟨batch, rfl, rfl⟩)

end Node

/-- Entries with consecutive indices from `i` on. -/
def Consecutive : ℕ → List LogEntry → Prop
  | _, [] => True
  | i, e :: es => e.index = i ∧ Consecutive (i + 1) es

instance decidableConsecutive : ∀ i es, Decidable (Consecutive i es)
  | _, [] => isTrue trivial
  | i, e :: es =>
    have := decidableConsecutive (i + 1) es
    inferInstanceAs (Decidable (e.index = i ∧ Consecutive (i + 1) es))

theorem consecutive_iff {es : List LogEntry} : ∀ {i : ℕ},
    Consecutive i es ↔ ∀ j e, es[j]? = some e → e.index = i + j := by
  induction es with
  | nil => intro i; exact ⟨nofun, fun _ => trivial⟩
  | cons x es ih =>
    intro i
    refine ⟨fun h j e he => ?_, fun h => ⟨h 0 x rfl, ih.mpr fun j e he => ?_⟩⟩
    · cases j with
      | zero => cases he; exact h.1
      | succ j => rw [ih.mp h.2 j e he]; omega
    · rw [h (j + 1) e he]; omega

theorem consecutive_batchEntries (t i : ℕ) (batch : List Bytes) :
    Consecutive i (Node.batchEntries t i batch) :=
  consecutive_iff.mpr fun _ _ he => (Node.batchEntries_getElem? batch he).2

/-- A request as leaders send them: consecutive entries, and not from below the
receiver's base. (The consistency check refuses a `PrevLogIndex` below the base, except
`0`.) -/
def Handler.Fits (n : Node σ) : Handler → Prop
  | .appendEntries args => Consecutive (args.prevLogIndex + 1) args.entries ∧
      (args.prevLogIndex = 0 → n.logBaseIndex = 0)
  | _ => True

instance Handler.decidableFits (n : Node σ) (h : Handler) : Decidable (h.Fits n) := by
  unfold Handler.Fits
  cases h <;> infer_instance

/-- An accepted request that fits starts within the log. -/
theorem Handler.Fits.bounds {n : Node σ} {args : AppendEntriesArgs} (hd : n.Dense)
    (hf : (Handler.appendEntries args).Fits n)
    (hc : n.checkPrevLog args.prevLogIndex args.prevLogTerm = none) :
    n.logBaseIndex ≤ args.prevLogIndex ∧ args.prevLogIndex ≤ n.lastLogIndexLocked := by
  rw [n.checkPrevLog_eq_none_iff] at hc
  rcases hc with h0 | ⟨hb, hl, -⟩
  · -- `PrevLogIndex` 0 is not checked at all, so the base has to be 0
    have := hf.2 h0
    have := hd.lastLogIndexLocked
    omega
  · exact ⟨hb, hl⟩

end Raft
end BoilerPulse
