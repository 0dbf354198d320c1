import BoilerPulse.Framework.Wakeup
import BoilerPulse.Raft.Waiting

/-!
# Waking the apply loop

`applyLoop` sleeps on `applyNotify`, a channel with one slot, and `signalApply` drops its value if the
slot is full. It is called wherever `commitIndex` is raised, except by `HandleInstallSnapshot`, which
raises `lastApplied` along with it. Between the last look at the two indices and the sleep the
loop takes a snapshot with the mutex released, so the commit index may move any number of times before
the loop is back at its channel.

A `Notified` process is a `Server` whose `applyLoop` waits for its signal; every step of it that is
not the receive itself is a step of the `Server` (`Notified.step_server`). It is an instance of
`Framework.Woken`, so no signal is lost (`apply_signal_not_lost`). What follows for the entries
is that nothing but the loop itself stands between a committed entry and the state machine:
from every state in which the indices are in order, the loop alone applies all that is committed
(`Notified.applies_backlog`), and within a number of steps that can be read off the two indices.

`Stop` is not modelled: the loop is left running.
-/

namespace BoilerPulse
namespace Raft

open Framework

variable {σ : Type}

/-! ### The model -/

/-- Whether a handler calls `signalApply`. `HandleAppendEntries` does so at its end, and
`maybeAdvanceCommitIndexLocked` where it sets `commitIndex`, which it only ever raises. -/
def Node.signalsApply (n : Node σ) : Handler → Bool
  | .appendEntries args =>
    (n.handleAppendEntries args).2.success && decide (n.commitIndex < args.leaderCommit)
  | .entriesReply peer args reply =>
    decide (n.commitIndex < (n.handleAppendEntriesReply peer args reply).commitIndex)
  | .snapshotReply peer args reply =>
    decide (n.commitIndex < (n.handleInstallSnapshotReply peer args reply).commitIndex)
  | .requestVote _ | .campaign | .voteReply _ _ _ | .propose _ => false

/-- `applyPending` has found nothing more to apply, and `maybeSnapshot` is in progress. -/
def Applier.leaving : Applier → Bool
  | .idle | .applying _ => false
  | .caughtUp | .snapshotting _ _ | .saving _ _ _ | .discarding _ _ => true

/-- A process whose `applyLoop` waits for its signal. -/
structure Notified (σ : Type) where
  server : Server σ
  /-- `applyLoop` is at its `select`. -/
  asleep : Bool
  /-- The slot of the channel is taken. -/
  applyNotify : Bool

namespace Notified

abbrev node (p : Notified σ) : Node σ :=
  p.server.node

/-- `Start` on a node that has just been made. -/
def start (n : Node σ) : Notified σ where
  server := Server.start n
  asleep := true
  applyNotify := false

def step (M : StateMachine σ) (p : Notified σ) : Event → Option (Notified σ)
  | .handle h => (p.node.handle h).map fun n =>
    { p with
      server := { p.server with node := n }
      applyNotify := p.applyNotify || p.node.signalsApply h }
  | .apply =>
    if p.asleep then
      if p.applyNotify then some { p with asleep := false, applyNotify := false } else none
    else (p.server.applyStep M).map fun r =>
      -- back at the `select` when `maybeSnapshot` has returned
      { p with server := r.1, asleep := p.server.applier.leaving && decide (r.1.applier = .idle) }
  | .receive call args => some { p with server := (p.server.installBegin call args).1 }
  | .install i => (p.server.installStep M i).map fun r => { p with server := r.1 }

/-- Let `applyLoop` take `k` steps, and no one else. -/
def applies (M : StateMachine σ) : ℕ → Notified σ → Option (Notified σ)
  | 0, p => some p
  | k + 1, p => (p.step M .apply).bind (applies M k)

/-- The commands that are committed and not applied yet, the one that is held included. -/
def backlog (p : Notified σ) : List Bytes :=
  p.server.applier.held.toList.map LogEntry.command ++
    ((p.node.log.drop (p.node.lastApplied - p.node.logBaseIndex)).take
      (p.node.commitIndex - p.node.lastApplied)).map LogEntry.command

section Steps

variable {M : StateMachine σ} {p p' : Notified σ} {e : Event}

/-- **Inversion of a step.** -/
inductive StepCase (M : StateMachine σ) (p : Notified σ) : Event → Notified σ → Prop
  | handle (h : Handler) (n : Node σ) (hn : p.node.handle h = some n) : StepCase M p (.handle h)
        { p with
          server := { p.server with node := n }
          applyNotify := p.applyNotify || p.node.signalsApply h }
  | wake (ha : p.asleep = true) (hs : p.applyNotify = true) :
      StepCase M p .apply { p with asleep := false, applyNotify := false }
  | apply (s : Server σ) (r : Option LogEntry) (ha : p.asleep = false)
      (hs : p.server.applyStep M = some (s, r)) :
      StepCase M p .apply
        { p with server := s, asleep := p.server.applier.leaving && decide (s.applier = .idle) }
  | receive (call : ℕ) (args : InstallSnapshotArgs) :
      StepCase M p (.receive call args) { p with server := (p.server.installBegin call args).1 }
  | install (i : ℕ) (s : Server σ) (r : Option (ℕ × InstallSnapshotReply))
      (hs : p.server.installStep M i = some (s, r)) :
      StepCase M p (.install i) { p with server := s }

theorem step_inv (h : p.step M e = some p') : StepCase M p e p' := by
  cases e with
  | handle hd =>
    obtain ⟨n, hn, rfl⟩ := Option.map_eq_some_iff.mp h
    exact .handle hd n hn
  | apply =>
    simp only [step] at h
    split at h
    · next ha =>
      split at h
      · next hs =>
        cases h
        exact .wake ha hs
      · cases h
    · next ha =>
      obtain ⟨⟨s, r⟩, hs, rfl⟩ := Option.map_eq_some_iff.mp h
      exact .apply s r (Bool.eq_false_of_not_eq_true ha) hs
  | receive call args =>
    cases h
    exact .receive call args
  | install i =>
    obtain ⟨⟨s, r⟩, hs, rfl⟩ := Option.map_eq_some_iff.mp h
    exact .install i s r hs

/-- Every step is the receive, which leaves the process alone, or a step of the process. -/
theorem step_server (h : p.step M e = some p') :
    p'.server = p.server ∨ p.server.step M e = some p'.server := by
  cases step_inv h with
  | handle hd n hn => exact .inr (by rw [Server.step, hn]; rfl)
  | wake ha hs => exact .inl rfl
  | apply s r ha hs | install i s r hs => exact .inr (by rw [Server.step, hs]; rfl)
  | receive call args => exact .inr rfl

/-- Safe steps keep the indices in order, as they do without the signal. -/
theorem indexed_step (hI : Indexed p.server) (hsafe : e.Safe p.server) (h : p.step M e = some p') :
    Indexed p'.server := by
  obtain heq | hs := step_server h
  · rw [heq]
    exact hI
  · exact hI.step hsafe hs

end Steps

/-! ### No signal is lost -/

/-- There is something to apply. -/
def Pending (n : Node σ) : Prop :=
  n.lastApplied < n.commitIndex

/-- The process as the state, the slot and the worker. -/
def woken (p : Notified σ) : Woken (Node σ) where
  state := p.node
  slot := p.applyNotify
  worker :=
    if p.asleep then .asleep else if p.server.applier.leaving then .leaving else .looking

end Notified

/-- A handler that raises the commit index over the applied one signals. -/
theorem Node.pending_of_handle {n n' : Node σ} {h : Handler} (hn : n.handle h = some n')
    (hp : Notified.Pending n') : Notified.Pending n ∨ n.signalsApply h = true := by
  have hla := (Node.handle_sameSnapshot hn).lastApplied
  unfold Notified.Pending at hp ⊢
  rw [hla] at hp
  suffices hcommit : n'.commitIndex ≤ n.commitIndex ∨ n.signalsApply h = true from
    hcommit.imp_left (lt_of_lt_of_le hp)
  cases h with
  | requestVote args =>
    cases hn
    exact .inl (n.handleRequestVote_commitIndex args).le
  | appendEntries args =>
    cases hn
    by_cases hs : n.signalsApply (.appendEntries args) = true
    · exact .inr hs
    · left
      have hfollow := n.follow_commitIndex args.term args.leaderID
      obtain ⟨-, heq⟩ | ⟨-, -, i, heq⟩ | ⟨-, -, heq⟩ := n.handleAppendEntries_cases args
      · rw [heq]
      · rw [heq, hfollow]
      · -- accepted and not signalled: the leader's commit index is not ahead
        have hle : ¬ n.commitIndex < args.leaderCommit := by
          intro hlt
          refine hs ?_
          rw [signalsApply, heq]
          simpa using hlt
        rw [heq]
        unfold advanceCommit
        rw [appendMissing_commitIndex, hfollow, if_neg hle, appendMissing_commitIndex, hfollow]
  | campaign =>
    obtain rfl := handle_campaign hn
    exact .inl le_rfl
  | voteReply term votes reply =>
    cases hn
    exact .inl (n.handleRequestVoteReply_commitIndex term votes reply).1.le
  | entriesReply peer args reply | snapshotReply peer args reply =>
    cases hn
    exact (Nat.lt_or_ge _ _).symm.imp_right fun hlt => decide_eq_true hlt
  | propose batch =>
    obtain ⟨-, rfl⟩ := appendBatch_eq hn
    exact .inl (n.appendLogLocked_commitIndex _).le

/-- Installing a snapshot leaves nothing to apply that was not there before. -/
theorem Node.pending_of_installSnapshotFinish {n : Node σ} {args : InstallSnapshotArgs}
    (hp : Notified.Pending (n.installSnapshotFinish args)) : Notified.Pending n := by
  unfold Node.installSnapshotFinish at hp
  split at hp
  · exact hp
  · have hp : max args.lastIncludedIndex n.lastApplied < max args.lastIncludedIndex n.commitIndex :=
      hp
    show n.lastApplied < n.commitIndex
    omega

/-- Following a sender moves neither index. -/
theorem Node.pending_of_follow {n : Node σ} {t : ℕ} {l : String}
    (hp : Notified.Pending (n.follow t l)) : Notified.Pending n := by
  unfold Notified.Pending at hp ⊢
  rwa [n.follow_commitIndex, (n.follow_sameSnapshot t l).lastApplied] at hp

namespace Notified

variable {M : StateMachine σ} {p p' : Notified σ} {e : Event} {s : Server σ}

/-- While it sleeps `applyLoop` holds nothing. -/
def Parked (p : Notified σ) : Prop :=
  p.asleep = true → p.server.applier = .idle

theorem Parked.step (hp : p.Parked) (h : p.step M e = some p') : p'.Parked := by
  intro ha
  cases step_inv h with
  | handle hd n hn => exact hp ha
  | wake hasleep hs => cases ha
  | apply s r hawake hs => exact of_decide_eq_true (Bool.and_eq_true_iff.mp ha).2
  | receive call args =>
    obtain ⟨n, -, heq | heq⟩ := p.server.installBegin_cases call args
    · rw [heq]; exact hp ha
    · rw [heq]; exact hp ha
  | install i s r hs =>
    cases Server.installStep_inv hs with
    | _ => exact hp ha

/-- A step of someone else. -/
theorem woken_post {sends : Bool} (hs : s.applier = p.server.applier)
    (h : Pending s.node → Pending p.node ∨ sends = true) :
    Woken.Step Pending p.woken (woken { p with server := s, applyNotify := p.applyNotify || sends })
    := by
  have hstep : Woken.Step Pending p.woken _ := .post s.node sends h
  unfold woken at hstep ⊢
  rwa [hs]

theorem discard_indices (n : Node σ) (i t : ℕ) :
    (n.discardLogPrefixLocked i t).lastApplied = n.lastApplied ∧
      (n.discardLogPrefixLocked i t).commitIndex = n.commitIndex := by
  unfold Node.discardLogPrefixLocked
  split
  · exact ⟨rfl, rfl⟩
  · exact ⟨rfl, rfl⟩

/-- A step of the loop, while it is awake. -/
theorem woken_apply {r : Option LogEntry} (ha : p.asleep = false)
    (hs : p.server.applyStep M = some (s, r)) :
    Woken.Step Pending p.woken (woken { p with
        server := s, asleep := p.server.applier.leaving && decide (s.applier = .idle) }) := by
  have hlooking (h : p.server.applier.leaving = false) : p.woken.worker = .looking := by
    simp [woken, ha, h]
  have hleaving (h : p.server.applier.leaving = true) : p.woken.worker = .leaving := by
    simp [woken, ha, h]
  cases Server.applyStep_inv hs with
  | caughtUp hidle hle =>
    have hstep : Woken.Step Pending p.woken _ := .leave p.node (hlooking (by rw [hidle]; rfl))
      (not_lt.mpr hle)
    simpa [woken, hidle, Applier.leaving] using hstep
  | fetch e hidle hlt hb he =>
    have hstep : Woken.Step Pending p.woken _ := .work
      { p.node with lastApplied := p.node.lastApplied + 1 } (hlooking (by rw [hidle]; rfl))
    simpa [woken, ha, hidle, Applier.leaving] using hstep
  | apply e happ =>
    have hstep : Woken.Step Pending p.woken _ := .work (p.node.applyEntry M e)
      (hlooking (by rw [happ]; rfl))
    simpa [woken, ha, happ, Applier.leaving] using hstep
  -- on the way out the loop does not look at the commit index any more
  | noSnapshot happ | snapshotFailed la t happ =>
    have hstep : Woken.Step Pending p.woken _ := .sleep p.node (hleaving (by rw [happ]; rfl)) id
    simpa [woken, happ, Applier.leaving] using hstep
  | capture happ hoff hlt | snapshot la t data happ hd =>
    have hstep : Woken.Step Pending p.woken _ := .tidy p.node (hleaving (by rw [happ]; rfl)) id
    simpa [woken, ha, happ, Applier.leaving] using hstep
  | save la t data happ =>
    have hstep : Woken.Step Pending p.woken _ := .tidy
      { p.node with storage := p.node.storage.saveSnapshot la t data }
      (hleaving (by rw [happ]; rfl)) id
    simpa [woken, ha, happ, Applier.leaving] using hstep
  | discard la t happ =>
    obtain ⟨hla, hci⟩ := discard_indices p.node la t
    have hstep : Woken.Step Pending p.woken _ := .sleep (p.node.discardLogPrefixLocked la t)
      (hleaving (by rw [happ]; rfl)) (fun hp => by unfold Pending at hp; rwa [hla, hci] at hp)
    simpa [woken, happ, Applier.leaving] using hstep

/-- **Every step** of the process is one that a woken worker allows for. -/
theorem step_woken (hpark : p.Parked) (h : p.step M e = some p') :
    Woken.Step Pending p.woken p'.woken := by
  have hquiet : p.applyNotify = (p.applyNotify || false) := (Bool.or_false _).symm
  cases step_inv h with
  | handle hd n hn => exact woken_post rfl (Node.pending_of_handle hn)
  -- it wakes up with an empty slot, and looks at the commit index next
  | wake ha hs =>
    have hstep : Woken.Step Pending p.woken _ := .wake (by simp [woken, ha]) hs
    simpa [woken, hpark ha, Applier.leaving] using hstep
  | apply s r ha hs => exact woken_apply ha hs
  | receive call args =>
    rw [hquiet]
    obtain ⟨n, hn, heq⟩ := p.server.installBegin_cases call args
    have hpend : Pending n → Pending p.node := by
      rcases hn with rfl | rfl
      · exact id
      · exact Node.pending_of_follow
    rcases heq with heq | heq
    · rw [heq]; exact woken_post rfl fun hp => .inl (hpend hp)
    · rw [heq]; exact woken_post rfl fun hp => .inl (hpend hp)
  | install i s r hs =>
    rw [hquiet]
    cases Server.installStep_inv hs with
    | finish th hi hst =>
      -- it raises the commit index without a signal, but `lastApplied` along with it
      exact woken_post rfl fun hp => .inl (Node.pending_of_installSnapshotFinish hp)
    | _ => exact woken_post rfl .inl

/-- The loop is at rest while it sleeps, and no signal is lost. -/
structure Vigilant (p : Notified σ) : Prop where
  parked : p.Parked
  attended : p.woken.Attended Pending

theorem Vigilant.start {n : Node σ} (h : n.commitIndex ≤ n.lastApplied) : (start n).Vigilant :=
  ⟨fun _ => rfl, fun hp => absurd hp (not_lt.mpr h)⟩

theorem Vigilant.step (hv : p.Vigilant) (h : p.step M e = some p') : p'.Vigilant :=
  ⟨hv.parked.step h, hv.attended.step (step_woken hv.parked h)⟩

/-- Asleep over an empty slot there is nothing to apply. -/
theorem Vigilant.commit_le (hv : p.Vigilant) (ha : p.asleep = true) (hs : p.applyNotify = false) :
    p.node.commitIndex ≤ p.node.lastApplied :=
  not_lt.mp (hv.attended.not_pending (by simp [woken, ha]) hs)

/-! ### The loop catches up -/

theorem applies_add (j k : ℕ) : ∀ p : Notified σ,
    p.applies M (j + k) = (p.applies M j).bind (applies M k) := by
  induction j with
  | zero => intro p; rw [Nat.zero_add]; rfl
  | succ j ih =>
    intro p
    rw [Nat.succ_add, applies, applies, Option.bind_assoc]
    exact congrArg _ (funext ih)

theorem applies_one : p.applies M 1 = p.step M .apply := by
  rw [applies]
  cases p.step M .apply <;> rfl

/-- What is done at the end of a round leaves all of this alone. -/
structure SameWork (p p' : Notified σ) : Prop where
  stateMachine : p'.node.stateMachine = p.node.stateMachine
  lastApplied : p'.node.lastApplied = p.node.lastApplied
  commitIndex : p'.node.commitIndex = p.node.commitIndex
  backlog : p'.backlog = p.backlog
  applyNotify : p'.applyNotify = p.applyNotify

theorem SameWork.trans {q : Notified σ} (h₁ : SameWork p p') (h₂ : SameWork p' q) : SameWork p q :=
  ⟨h₂.stateMachine.trans h₁.stateMachine, h₂.lastApplied.trans h₁.lastApplied,
    h₂.commitIndex.trans h₁.commitIndex, h₂.backlog.trans h₁.backlog,
    h₂.applyNotify.trans h₁.applyNotify⟩

/-- How many steps of `maybeSnapshot` are left. -/
def left : Applier → ℕ
  | .idle | .applying _ => 0
  | .caughtUp => 4
  | .snapshotting _ _ => 3
  | .saving _ _ _ => 2
  | .discarding _ _ => 1

/-- The steps of `maybeSnapshot` can always be taken. -/
theorem applyStep_ne_none (h : s.applier.leaving = true) : s.applyStep M ≠ none := by
  unfold Server.applyStep
  split
  · next ha => rw [ha] at h; cases h
  · next e ha => rw [ha] at h; cases h
  · split <;> simp
  · split <;> simp
  · simp
  · simp

/-- The entries above `lastApplied` stay where they are when the log is compacted. -/
theorem drop_discard (hI : Indexed s) {la t : ℕ} (ha : s.applier = .discarding la t) :
    (s.node.discardLogPrefixLocked la t).log.drop
        (s.node.lastApplied - (s.node.discardLogPrefixLocked la t).logBaseIndex) =
      s.node.log.drop (s.node.lastApplied - s.node.logBaseIndex) := by
  obtain heq | ⟨hb, heq⟩ := hI.discard_cases ha
  · rw [heq]
  · have hle := hI.captured_le la (by rw [ha]; rfl)
    rw [heq, List.drop_drop]
    dsimp only
    congr 1
    omega

theorem held_of_leaving {a : Applier} (h : a.leaving = true) : a.held = none := by
  cases a with
  | applying e => cases h
  | _ => rfl

/-- With nothing held, the backlog is what is left of the log. -/
theorem backlog_congr (hp : p.server.applier.held = none) (hp' : p'.server.applier.held = none)
    (hlog : p'.node.log.drop (p'.node.lastApplied - p'.node.logBaseIndex) =
      p.node.log.drop (p.node.lastApplied - p.node.logBaseIndex))
    (hla : p'.node.lastApplied = p.node.lastApplied)
    (hci : p'.node.commitIndex = p.node.commitIndex) : p'.backlog = p.backlog := by
  unfold backlog
  rw [hp, hp', hlog, hla, hci]

/-- **One step of `maybeSnapshot`** brings the loop nearer to its `select`. -/
theorem step_leaving (hI : Indexed p.server) (ha : p.asleep = false)
    (hl : p.server.applier.leaving = true) : ∃ p', p.step M .apply = some p' ∧
      Indexed p'.server ∧ SameWork p p' ∧
      (p'.asleep = true ∧ p'.server.applier = .idle ∨
        p'.asleep = false ∧ p'.server.applier.leaving = true ∧
          left p'.server.applier < left p.server.applier) := by
  obtain ⟨⟨s, r⟩, hs⟩ := Option.ne_none_iff_exists'.mp (applyStep_ne_none (M := M) hl)
  have hstep : p.step M .apply = some { p with
      server := s, asleep := p.server.applier.leaving && decide (s.applier = .idle) } := by
    simp only [step, ha, hs]
    rfl
  refine ⟨_, hstep, hI.apply hs, ?_⟩
  have hheld := held_of_leaving hl
  cases Server.applyStep_inv hs with
  | caughtUp happ hle | fetch e happ hlt hb he | apply e happ => rw [happ] at hl; cases hl
  | noSnapshot happ | snapshotFailed la t happ =>
    exact ⟨⟨rfl, rfl, rfl, backlog_congr hheld rfl rfl rfl rfl, rfl⟩, .inl ⟨by simp [hl], rfl⟩⟩
  | capture happ hoff hlt | snapshot la t data happ hd | save la t data happ =>
    exact ⟨⟨rfl, rfl, rfl, backlog_congr hheld rfl rfl rfl rfl, rfl⟩,
      .inr ⟨by simp, rfl, by rw [happ]; exact Nat.lt_succ_self _⟩⟩
  | discard la t happ =>
    obtain ⟨hla, hci⟩ := discard_indices p.node la t
    refine ⟨⟨?_, hla, hci, backlog_congr hheld rfl ?_ hla hci, rfl⟩, .inl ⟨by simp [hl], rfl⟩⟩
    · show (p.node.discardLogPrefixLocked la t).stateMachine = _
      unfold Node.discardLogPrefixLocked
      split <;> rfl
    · dsimp only
      rw [hla, drop_discard hI happ]

/-- **The end of a round**: within four steps the loop is at its `select`. -/
theorem applies_leaving : ∀ (k : ℕ) {p : Notified σ}, Indexed p.server → p.asleep = false →
    p.server.applier.leaving = true → left p.server.applier ≤ k →
    ∃ j ≤ k, ∃ p', p.applies M j = some p' ∧ Indexed p'.server ∧ SameWork p p' ∧
      p'.asleep = true ∧ p'.server.applier = .idle := by
  intro k
  induction k with
  | zero =>
    intro p hI ha hl hk
    cases happ : p.server.applier <;> rw [happ] at hl hk <;> simp [Applier.leaving, left] at hl hk
  | succ k ih =>
    intro p hI ha hl hk
    obtain ⟨p₁, hs, hI₁, hsame, ⟨hasleep, hidle⟩ | ⟨hawake, hl₁, hlt⟩⟩ := step_leaving (M := M) hI ha hl
    · exact ⟨1, Nat.succ_le_succ (Nat.zero_le k), p₁, applies_one.trans hs, hI₁, hsame, hasleep, hidle⟩
    · obtain ⟨j, hj, p₂, hs₂, hI₂, hsame₂, hend⟩ := ih hI₁ hawake hl₁ (by omega)
      refine ⟨j + 1, Nat.succ_le_succ hj, p₂, ?_, hI₂, hsame.trans hsame₂, hend⟩
      rw [applies, hs]
      exact hs₂

/-- An entry that is held is applied first. -/
theorem applies_held (hI : Indexed p.server) (ha : p.asleep = false) {e : LogEntry}
    (happ : p.server.applier = .applying e) :
    ∃ p', p.step M .apply = some p' ∧ Indexed p'.server ∧ p'.asleep = false ∧
      p'.server.applier = .idle ∧ p'.node.lastApplied = p.node.lastApplied ∧
      p'.node.commitIndex = p.node.commitIndex ∧
      M.effect p'.node.stateMachine p'.backlog = M.effect p.node.stateMachine p.backlog := by
  have hs : p.server.applyStep M =
      some ({ p.server with node := p.node.applyEntry M e, applier := .idle }, some e) := by
    unfold Server.applyStep
    rw [happ]
  refine ⟨{ p with server := { p.server with node := p.node.applyEntry M e, applier := .idle } },
    ?_, hI.apply hs, ha, rfl, rfl, rfl, ?_⟩
  · simp only [step, ha, hs, happ]
    rfl
  · unfold backlog
    rw [happ]
    rfl

/-- **One entry** is fetched and applied. -/
theorem applies_entry (hI : Indexed p.server) (ha : p.asleep = false)
    (hidle : p.server.applier = .idle) (hlt : p.node.lastApplied < p.node.commitIndex) :
    ∃ p', p.applies M 2 = some p' ∧ Indexed p'.server ∧ p'.asleep = false ∧
      p'.server.applier = .idle ∧ p'.node.lastApplied = p.node.lastApplied + 1 ∧
      p'.node.commitIndex = p.node.commitIndex ∧
      M.effect p'.node.stateMachine p'.backlog = M.effect p.node.stateMachine p.backlog := by
  -- the entry is there
  obtain ⟨⟨n, r⟩, hf⟩ := Option.ne_none_iff_exists'.mp hI.node.applyFetch_ne_none
  obtain ⟨hle, -⟩ | ⟨e, -, hb, he, rfl, rfl⟩ := p.node.applyFetch_cases hf
  · exact absurd hlt (not_lt.mpr hle)
  have hfetch : p.server.applyStep M = some ({ p.server with
      node := { p.node with lastApplied := p.node.lastApplied + 1 }, applier := .applying e },
      none) := by
    unfold Server.applyStep
    rw [hidle]
    dsimp only
    rw [hf]
  have hs₁ : p.step M .apply = some { p with server := { p.server with
      node := { p.node with lastApplied := p.node.lastApplied + 1 }, applier := .applying e } } := by
    simp only [step, ha, hfetch, hidle]
    rfl
  obtain ⟨p', hs₂, hI', hend⟩ := applies_held (M := M) (p := { p with server := { p.server with
    node := { p.node with lastApplied := p.node.lastApplied + 1 }, applier := .applying e } })
    (hI.apply hfetch) ha rfl
  obtain ⟨ha', hidle', hla, hci, heffect⟩ := hend
  refine ⟨p', ?_, hI', ha', hidle', hla, hci, heffect.trans ?_⟩
  · rw [applies, hs₁]
    exact applies_one.trans hs₂
  · -- the entry was the first of the backlog
    have hfirst : p.node.log.drop (p.node.lastApplied - p.node.logBaseIndex) =
        e :: p.node.log.drop (p.node.lastApplied + 1 - p.node.logBaseIndex) := by
      obtain ⟨hi, hget⟩ := List.getElem?_eq_some_iff.mp he
      rw [List.drop_eq_getElem_cons hi, hget, Nat.sub_add_comm hb]
    have hcount : p.node.commitIndex - p.node.lastApplied =
        (p.node.commitIndex - (p.node.lastApplied + 1)) + 1 := by omega
    unfold backlog
    rw [hidle, hfirst, hcount, List.take_succ_cons]
    rfl

/-- After `k` steps of the loop all that was committed is applied, each command once and in order. -/
def CatchesUp (M : StateMachine σ) (k : ℕ) (p : Notified σ) : Prop :=
  ∃ p', p.applies M k = some p' ∧ p'.server.applier.held = none ∧
    p'.node.lastApplied = p.node.commitIndex ∧
    p'.node.stateMachine = M.effect p.node.stateMachine p.backlog

/-- **A round**: everything that is committed is applied, two steps an entry. -/
theorem applies_round : ∀ (m : ℕ) {p : Notified σ}, Indexed p.server → p.asleep = false →
    p.server.applier = .idle → p.node.commitIndex - p.node.lastApplied = m →
    CatchesUp M (2 * m) p := by
  intro m
  induction m with
  | zero =>
    intro p hI ha hidle hm
    have hle : p.node.lastApplied ≤ p.node.commitIndex := hI.node.applied_le
    refine ⟨p, rfl, by rw [hidle]; rfl, by omega, ?_⟩
    unfold backlog
    rw [hidle, hm]
    rfl
  | succ m ih =>
    intro p hI ha hidle hm
    obtain ⟨p₁, hs, hI₁, ha₁, hidle₁, hla, hci, heffect⟩ :=
      applies_entry (M := M) hI ha hidle (by omega)
    obtain ⟨p₂, hs₂, hheld, hla₂, hsm⟩ := ih hI₁ ha₁ hidle₁ (by omega)
    refine ⟨p₂, ?_, hheld, hla₂.trans hci, hsm.trans heffect⟩
    rw [Nat.mul_succ, Nat.add_comm, applies_add, hs]
    exact hs₂

/-- From its `select` the loop goes through a round if there is anything to apply. -/
theorem applies_asleep (hI : Indexed p.server) (ha : p.asleep = true)
    (hidle : p.server.applier = .idle) (hslot : Pending p.node → p.applyNotify = true) :
    ∃ k ≤ 2 * (p.node.commitIndex - p.node.lastApplied) + 1, CatchesUp M k p := by
  by_cases hp : Pending p.node
  · have hwake : p.step M .apply = some { p with asleep := false, applyNotify := false } := by
      simp only [step, ha, hslot hp]
      rfl
    have hI' : Indexed (({ p with asleep := false, applyNotify := false } : Notified σ)).server := hI
    obtain ⟨p', hs, hend⟩ := applies_round (M := M) _ hI' rfl hidle rfl
    refine ⟨_, le_rfl, p', ?_, hend⟩
    rw [applies, hwake]
    exact hs
  · have hle : p.node.lastApplied ≤ p.node.commitIndex := hI.node.applied_le
    have hzero : p.node.commitIndex - p.node.lastApplied = 0 := Nat.sub_eq_zero_of_le (not_lt.mp hp)
    refine ⟨0, Nat.zero_le _, p, rfl, by rw [hidle]; rfl, by omega, ?_⟩
    unfold backlog
    rw [hidle, hzero]
    rfl

/-- **The loop catches up by itself**, wherever it stands: whatever is committed is applied before
anyone else has to do anything. -/
theorem applies_backlog (hv : p.Vigilant) (hI : Indexed p.server) :
    ∃ k ≤ 2 * (p.node.commitIndex - p.node.lastApplied) + 5, CatchesUp M k p := by
  cases ha : p.asleep with
  | true =>
    have hslot : Pending p.node → p.applyNotify = true := fun hp =>
      (hv.attended hp).resolve_right (by simp [woken, ha])
    obtain ⟨k, hk, hend⟩ := applies_asleep (M := M) hI ha (hv.parked ha) hslot
    exact ⟨k, by omega, hend⟩
  | false =>
    cases hl : p.server.applier.leaving with
    | true =>
      -- what is left of `maybeSnapshot`, and then a round
      have hslot : Pending p.node → p.applyNotify = true := fun hp =>
        (hv.attended hp).resolve_right (by simp [woken, ha, hl])
      have hleft : left p.server.applier ≤ 4 := by cases p.server.applier <;> simp [left]
      obtain ⟨j, hj, p₁, hs₁, hI₁, hsame, ha₁, hidle₁⟩ := applies_leaving (M := M) 4 hI ha hl hleft
      obtain ⟨k, hk, p', hs, hheld, hla, hsm⟩ := applies_asleep (M := M) hI₁ ha₁ hidle₁ (by
        intro hp
        unfold Pending at hp
        rw [hsame.lastApplied, hsame.commitIndex] at hp
        exact hsame.applyNotify.trans (hslot hp))
      rw [hsame.commitIndex, hsame.lastApplied] at hk
      refine ⟨j + k, by omega, p', ?_, hheld, hla.trans hsame.commitIndex, ?_⟩
      · rw [applies_add, hs₁]
        exact hs
      · rw [hsm, hsame.stateMachine, hsame.backlog]
    | false =>
      cases happ : p.server.applier with
      | idle =>
        obtain ⟨p', hs, hend⟩ := applies_round (M := M) _ hI ha happ rfl
        exact ⟨_, by omega, p', hs, hend⟩
      | applying e =>
        obtain ⟨p₁, hs₁, hI₁, ha₁, hidle₁, hla₁, hci₁, heffect⟩ := applies_held (M := M) hI ha happ
        obtain ⟨p', hs, hheld, hla, hsm⟩ := applies_round (M := M) _ hI₁ ha₁ hidle₁ rfl
        rw [hci₁, hla₁] at hs
        refine ⟨2 * (p.node.commitIndex - p.node.lastApplied) + 1, by omega, p', ?_, hheld,
          hla.trans hci₁, hsm.trans heffect⟩
        rw [applies, hs₁]
        exact hs
      | caughtUp | snapshotting la t | saving la t data | discarding la t =>
        rw [happ] at hl; cases hl

end Notified

/-- **No signal is lost.** However the goroutines of a process are interleaved, and whatever messages
it gets: when `applyLoop` is at its `select` and its channel is empty, every committed entry has
been applied. -/
theorem apply_signal_not_lost (M : StateMachine σ) {id : String} {peers : List String}
    {st : Storage} {sm : σ} {opts : Options} {n : Node σ}
    (hn : newNode M id peers st sm opts = some n) (p : Notified σ)
    (hruns : Reaches (Notified.step M) (Notified.start n) p) (ha : p.asleep = true)
    (hs : p.applyNotify = false) : p.node.commitIndex ≤ p.node.lastApplied := by
  have hstart : n.commitIndex ≤ n.lastApplied := by
    obtain ⟨sm', i, t, -, rfl⟩ := n.newNode_eq hn
    exact le_rfl
  have hv : p.Vigilant := hruns.invariant (fun _ _ _ hv _ hstep => hv.step hstep) (.start hstart)
  exact hv.commit_le ha hs

/-- A node of three is elected, commits a proposal, applies it, and goes back to sleep. -/
theorem apply_signal_not_lost_after_commit : ∃ p : Notified Bytes,
      Reaches (Notified.step journal) (Notified.start firstNode) p ∧
      p.node.commitIndex = 1 ∧ p.node.commitIndex ≤ p.node.lastApplied := by
  have hrun : (exec (Notified.step journal) (Notified.start firstNode)
      [.handle .campaign, .handle (.voteReply 1 1 ⟨1, true⟩), .handle (.propose [[7]]),
        .handle (.entriesReply "b" ⟨1, "a", 0, 0, [⟨1, 1, [7]⟩], 0⟩ ⟨1, true, 0⟩),
        .apply, .apply, .apply, .apply, .apply]).map
        (fun p => (p.asleep, p.applyNotify, p.node.commitIndex)) = some (true, false, 1) := by
    decide +kernel
  obtain ⟨p, hp, hobs⟩ := Reaches.of_exec_map hrun
  obtain ⟨ha, hs, hci⟩ : p.asleep = true ∧ p.applyNotify = false ∧ p.node.commitIndex = 1 := by
    simpa using hobs
  exact ⟨p, hp, hci,
    apply_signal_not_lost journal (Cluster.initial_newNode journal trio _ "a") p hp ha hs⟩

/-- **What is committed gets applied.** In every state of a process whose indices have been kept in
order, `applyLoop` alone brings the state machine up to the commit index: it applies the committed
entries that were not applied yet, each once and in the order of the log, in a number of steps
that depends on how many they are and on nothing else. -/
theorem committed_gets_applied (M : StateMachine σ) {id : String} {peers : List String}
    {st : Storage} {sm : σ} {opts : Options} {n : Node σ}
    (hn : newNode M id peers st sm opts = some n) (hd : n.Dense) (p : Notified σ)
    (hruns : Runs (Notified.step M) (fun p e => e.Safe p.server) (Notified.start n) p) :
    ∃ k ≤ 2 * (p.node.commitIndex - p.node.lastApplied) + 5, p.CatchesUp M k := by
  have hlast := hd.lastLogIndexLocked
  have hstart : n.commitIndex ≤ n.lastApplied ∧ Ordered n := by
    obtain ⟨sm', i, t, -, rfl⟩ := n.newNode_eq hn
    exact ⟨le_rfl, hd, le_rfl, le_rfl, by rw [hlast]; exact Nat.le_add_right _ _⟩
  have hv : p.Vigilant := hruns.invariant (fun _ _ _ hv _ hstep => hv.step hstep) (.start hstart.1)
  have hI : Indexed p.server :=
    hruns.invariant (fun _ _ _ hI hsafe hstep => Notified.indexed_step hI hsafe hstep)
      (.start hstart.2)
  exact Notified.applies_backlog hv hI

/-- Two proposals are committed and none is applied, with the signal in the channel: five steps. -/
theorem committed_gets_applied_from_sleep : ∃ p : Notified Bytes,
      Runs (Notified.step journal) (fun p e => e.Safe p.server) (Notified.start firstNode) p ∧
      p.node.stateMachine = [] ∧ p.backlog = [[7], [8]] ∧
      ∃ k ≤ 2 * (p.node.commitIndex - p.node.lastApplied) + 5, p.CatchesUp journal k := by
  have hrun : (exec (Notified.step journal) (Notified.start firstNode)
      [.handle .campaign, .handle (.voteReply 1 1 ⟨1, true⟩), .handle (.propose [[7], [8]]),
        .handle (.entriesReply "b" ⟨1, "a", 0, 0, [⟨1, 1, [7]⟩, ⟨1, 2, [8]⟩], 0⟩ ⟨1, true, 0⟩)]).map
        (fun p => (p.node.stateMachine, p.backlog)) = some ([], [[7], [8]]) := by
    decide +kernel
  obtain ⟨p, hp, hobs⟩ := Option.map_eq_some_iff.mp hrun
  obtain ⟨hsm, hbacklog⟩ := Prod.mk.inj hobs
  have hp : Runs (Notified.step journal) (fun p e => e.Safe p.server) (Notified.start firstNode) p := by
    refine Runs.of_exec_all (fun e he s => ?_) hp
    simp only [List.mem_cons, List.not_mem_nil, or_false] at he
    rcases he with rfl | rfl | rfl | rfl <;> trivial
  exact ⟨p, hp, hsm, hbacklog, committed_gets_applied journal
    (Cluster.initial_newNode journal trio _ "a") firstNode_ordered.dense p hp⟩

end Raft
end BoilerPulse
