import BoilerPulse.Raft.Entries
import BoilerPulse.Raft.IndexOrder

/-!
# Waiting for a proposal

`Propose` hands its command to `appendLoop`, learns the index and term of its entry, and then polls
the node in `waitForApply` until the entry is applied, lost, or its context is done. The poll looks
at the log and at `lastApplied`. Neither is what it is asked about:

* `applyPending` moves `lastApplied` in one locked section and calls `StateMachine.Apply` after it,
  so for a moment an index counts as applied whose command is not;
* `termAtLocked` knows the term of an index only above the last snapshot, so an entry that has been
  compacted looks like one that was overwritten.

A `Proposer` is a process together with the proposals that wait at it, the calls it has made into
its state machine, and the polls that have ended. When its first kind of answer can be trusted
is the subject of `Waiting`, and when the second can that of `Overwritten`. `RoleStep` is what
both need to know about terms and roles.
-/

namespace BoilerPulse
namespace Raft

open Framework

variable {σ : Type}

/-! ### The model -/

/-- How `waitForApply` ends, other than with its context. -/
inductive Verdict where
  /-- `ErrNotLeader`, since the log has another term at the index. -/
  | overwritten
  /-- `nil`. -/
  | applied
  /-- `ErrNotLeader`, since the node has stepped down. -/
  | notLeader
  deriving DecidableEq

/-- One iteration of the loop of `waitForApply`; `none` waits for the next tick. -/
def Node.waitForApply (n : Node σ) (index proposedTerm : ℕ) : Option Verdict :=
  if index ≤ n.lastLogIndexLocked ∧ n.termAtLocked index ≠ proposedTerm then some .overwritten
  else if index ≤ n.lastApplied then some .applied
  else if n.state ≠ .leader then some .notLeader
  else none

/-- A call into the state machine that may change it. -/
inductive SmCall where
  | apply (e : LogEntry)
  /-- `Restore` of a snapshot, with the index that it includes. -/
  | restore (index : ℕ) (data : Bytes)
  deriving DecidableEq

/-- What a call does. A `Restore` that fails leaves the state machine as it was. -/
def SmCall.perform (M : StateMachine σ) (sm : σ) : SmCall → σ
  | .apply e => M.apply sm e.command
  | .restore _ data => (M.restore sm data).getD sm

/-- The calls that a step of a process makes. -/
def Event.smCalls (s : Server σ) : Event → List SmCall
  | .apply => (s.applier.held.map SmCall.apply).toList
  | .install i =>
    match s.installs[i]? with
    | none => []
    | some th =>
      if th.stage = .restore then [.restore th.args.lastIncludedIndex th.args.data] else []
  | .handle _ | .receive _ _ => []

/-- Whatever `applyLoop` does next, it applies what it holds. -/
theorem Event.mem_smCalls_of_held {s : Server σ} {e : LogEntry} (h : s.applier.held = some e) :
    .apply e ∈ Event.smCalls s .apply := by
  change SmCall.apply e ∈ (s.applier.held.map SmCall.apply).toList
  rw [h]
  exact List.mem_singleton.mpr rfl

/-- The entries that a step of a process makes of proposals. -/
def Event.proposed (n : Node σ) : Event → List LogEntry
  | .handle (.propose batch) => Node.batchEntries n.currentTerm (n.lastLogIndexLocked + 1) batch
  | _ => []

/-- A poll that has ended: the entry waited for, the log base it met, and its verdict. -/
structure Report where
  entry : LogEntry
  base : ℕ
  verdict : Verdict
  deriving DecidableEq

/-- A process and the proposals that wait at it. -/
structure Proposer (σ : Type) where
  server : Server σ
  /-- The entries whose `Propose` is in `waitForApply`. -/
  waiting : List LogEntry
  /-- The calls into the state machine that have returned, oldest first. -/
  calls : List SmCall
  reports : List Report

inductive ProposerEvent where
  /-- The process takes a step. -/
  | process (e : Event)
  /-- The `j`-th waiting proposal polls. -/
  | poll (j : ℕ)
  /-- The context of the `j`-th waiting proposal is done. -/
  | cancel (j : ℕ)

namespace Proposer

def start (n : Node σ) : Proposer σ where
  server := Server.start n
  waiting := []
  calls := []
  reports := []

def poll (p : Proposer σ) (j : ℕ) : Option (Proposer σ) :=
  match p.waiting[j]? with
  | none => none
  | some w =>
    match p.server.node.waitForApply w.index w.term with
    | none => some p
    | some v =>
      some { p with
        waiting := p.waiting.eraseIdx j
        reports := p.reports ++ [⟨w, p.server.node.logBaseIndex, v⟩] }

def step (M : StateMachine σ) (p : Proposer σ) : ProposerEvent → Option (Proposer σ)
  | .process e => (p.server.step M e).map fun s =>
    { p with
      server := s
      waiting := p.waiting ++ e.proposed p.server.node
      calls := p.calls ++ e.smCalls p.server }
  | .poll j => p.poll j
  | .cancel j =>
    if j < p.waiting.length then some { p with waiting := p.waiting.eraseIdx j } else none

/-- A poll either goes on, or takes its proposal off the list and reports. -/
theorem poll_cases {p p' : Proposer σ} {j : ℕ} (h : p.poll j = some p') :
    ∃ w, p.waiting[j]? = some w ∧
      (p' = p ∨ ∃ v, p.server.node.waitForApply w.index w.term = some v ∧ p' = { p with
          waiting := p.waiting.eraseIdx j
          reports := p.reports ++ [⟨w, p.server.node.logBaseIndex, v⟩] }) := by
  unfold poll at h
  split at h
  · cases h
  · next w hw =>
    refine ⟨w, hw, ?_⟩
    split at h
    · exact Or.inl (Option.some.inj h).symm
    · next v hv => exact Or.inr ⟨v, hv, (Option.some.inj h).symm⟩

end Proposer

/-! ### What a poll sees -/

namespace Node

variable {n n' : Node σ}

/-- A verdict of `nil`: the index counts as applied, and has the right term. -/
theorem waitForApply_applied {i t : ℕ} (hlast : n.lastApplied ≤ n.lastLogIndexLocked)
    (h : n.waitForApply i t = some .applied) : i ≤ n.lastApplied ∧ n.termAtLocked i = t := by
  unfold waitForApply at h
  split at h
  · cases h
  · next hne =>
    split at h
    · next hle =>
      push Not at hne
      exact ⟨hle, hne (hle.trans hlast)⟩
    · split at h
      · cases h
      · cases h

/-- The verdict "overwritten" is the first one considered. -/
theorem waitForApply_overwritten_iff {i t : ℕ} : n.waitForApply i t = some .overwritten ↔
    i ≤ n.lastLogIndexLocked ∧ n.termAtLocked i ≠ t := by
  refine ⟨fun h => ?_, fun h => if_pos h⟩
  unfold waitForApply at h
  split at h
  · next hne => exact hne
  · split at h
    · cases h
    · split at h
      · cases h
      · cases h

/-! ### What the handlers do to terms and roles -/

/-- How a handler moves the term and the role: no handler leads into a later term, and within a
term only a candidate gains a role. -/
inductive RoleStep (n n' : Node σ) : Prop
  | later (hterm : n.currentTerm < n'.currentTerm) (hstate : n'.state ≠ .leader)
  | same (hterm : n'.currentTerm = n.currentTerm)
      (hstate : n'.state = n.state ∨ n'.state = .follower ∨ n.state = .candidate)

theorem RoleStep.of_sameVote (h : SameVote n n') : RoleStep n n' :=
  .same h.currentTerm (h.state.imp_right Or.inl)

/-- Adopting a term, as every handler of a message does first. -/
theorem RoleStep.of_adopt {t : ℕ} (h : SameVote (n.adopt t) n') : RoleStep n n' := by
  by_cases hlt : n.currentTerm < t
  · have hfollower : (n.adopt t).state = .follower := by
      rw [n.adopt_of_lt hlt, n.becomeFollowerLocked_of_lt hlt]
    refine .later ?_ ?_
    · rw [h.currentTerm, n.adopt_currentTerm hlt.le]
      exact hlt
    · rcases h.state with hs | hs
      · rw [hs, hfollower]
        simp
      · rw [hs]
        simp
  · rw [n.adopt_of_le (not_lt.mp hlt)] at h
    exact .of_sameVote h

theorem handle_roleStep {hd : Handler} (hn : n.handle hd = some n') :
    RoleStep n n' := by
  have hadopt : ∀ t, RoleStep n (n.adopt t) := fun t => .of_adopt (SameVote.refl _)
  cases handle_cases hn with
  | adopted hd t => exact hadopt t
  | granted args =>
    -- granting the vote changes neither term nor role
    cases hadopt args.term with
    | later hterm hstate => exact .later hterm hstate
    | same hterm hstate => exact .same hterm hstate
  | rejected args =>
    exact .of_adopt (t := args.term) ⟨rfl, rfl, rfl, rfl, rfl, rfl, rfl, Or.inr rfl⟩
  | accepted args hle hc =>
    refine .of_adopt (t := args.term) (SameVote.trans ?_
      ((appendMissing_sameVote _ _ _).trans (advanceCommit_sameVote _ _)))
    exact ⟨rfl, rfl, rfl, rfl, rfl, rfl, rfl, Or.inr rfl⟩
  | campaign => exact .later (Nat.lt_succ_self _) nofun
  | elected hd hc => exact .same rfl (Or.inr (Or.inr hc))
  | answered hd ha => exact .of_adopt ha.sameVote
  | propose batch => exact .of_sameVote (n.appendLogLocked_sameVote _)

end Node

end Raft
end BoilerPulse
