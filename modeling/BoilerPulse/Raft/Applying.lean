import BoilerPulse.Raft.Snapshots

/-!
# Applying and installing at the same time

One `applyLoop` and any number of `HandleInstallSnapshot` calls, interleaved at the
points where the source releases the mutex. What should hold is that the state
machine has seen the committed commands `1..lastApplied`, each once and in order,
whenever no call is in progress.

It does not hold for every interleaving: an entry that was fetched before a snapshot was
restored is applied on top of it, and between a restore and the last section of the
same call `applyLoop` fetches entries the snapshot already has. `Orderly` is the
discipline that is missing, as a condition on single steps, and
`applied_exactly_once` shows that it suffices.

The invariant `Applied` is about the *level* of the state machine: the number of commands
it has seen. While an entry is held it is one less than `lastApplied`; otherwise it is
`lastApplied`, or the index of a snapshot that is restored but not yet finished.
-/

namespace BoilerPulse
namespace Raft

open Framework

variable {σ : Type} {n : Node σ}

/-! ### The premises -/

/-- The committed entries of the node hold the committed commands. -/
structure Agrees (cmds : List Bytes) (n : Node σ) : Prop where
  dense : n.Dense
  entries : ∀ i e, n.entryAt i = some e → i ≤ n.commitIndex → cmds[i - 1]? = some e.command

/-- A snapshot request carries the state after the committed commands up to its index. -/
def Correct (M : StateMachine σ) (init : σ) (cmds : List Bytes) (args : InstallSnapshotArgs) :
    Prop :=
  ∀ sm sm', M.restore sm args.data = some sm' →
    sm' = M.effect init (cmds.take args.lastIncludedIndex)

/-- What the rest of the system guarantees: no handler makes the committed entries
disagree with the committed commands, and the snapshots received are correct. -/
def Legal (M : StateMachine σ) (init : σ) (cmds : List Bytes) (s : Server σ) : Event → Prop
  | .handle h => ∀ n, s.node.handle h = some n → Agrees cmds n
  | .receive _ args => Correct M init cmds args
  | .apply => True
  | .install _ => True

/-- The entry `applyLoop` has fetched and not applied yet. -/
def Applier.held : Applier → Option LogEntry
  | .applying e => some e
  | _ => none

/-- The discipline under which applying and installing do not disturb each other: a
snapshot is restored only while no entry is held, and only if it is ahead of
everything applied or restored so far; and no entry is fetched while a restored snapshot
that is ahead of `lastApplied` has not been finished. -/
def Orderly (s : Server σ) : Event → Prop
  | .apply => s.applier = .idle → s.node.lastApplied < s.node.commitIndex →
      ∀ th ∈ s.installs, th.stage = .finish → th.args.lastIncludedIndex ≤ s.node.lastApplied
  | .install i => ∀ th ∈ s.installs[i]?, th.stage = .restore →
      s.applier.held = none ∧ s.node.lastApplied ≤ th.args.lastIncludedIndex ∧
        ∀ th' ∈ s.installs, th'.stage = .finish →
          th'.args.lastIncludedIndex ≤ th.args.lastIncludedIndex
  | .handle _ => True
  | .receive _ _ => True

instance (s : Server σ) (e : Event) : Decidable (Orderly s e) := by
  unfold Orderly
  cases e <;> infer_instance

/-! ### Agreement under the steps of the goroutines -/

namespace Agrees

variable {cmds : List Bytes} {n n' : Node σ}

theorem of_log (h : Agrees cmds n) (hlog : n'.log = n.log)
    (hb : n'.logBaseIndex = n.logBaseIndex) (hci : n'.commitIndex = n.commitIndex) :
    Agrees cmds n' where
  dense := by
    intro i e he
    rw [hlog] at he
    rw [hb]
    exact h.dense i e he
  entries := by
    intro i e he hi
    unfold Node.entryAt at he
    rw [hb, hlog] at he
    exact h.entries i e he (hci ▸ hi)

/-- The entry after `lastApplied` is the next committed command. -/
theorem fetched (h : Agrees cmds n) {e : LogEntry} (hlt : n.lastApplied < n.commitIndex)
    (hb : n.logBaseIndex ≤ n.lastApplied)
    (he : n.log[n.lastApplied - n.logBaseIndex]? = some e) :
    cmds[n.lastApplied]? = some e.command := by
  have hentry : n.entryAt (n.lastApplied + 1) = some e := by
    rw [Node.entryAt, if_neg (by omega),
      show n.lastApplied + 1 - n.logBaseIndex - 1 = n.lastApplied - n.logBaseIndex by omega]
    exact he
  exact h.entries _ e hentry hlt

theorem discard (h : Agrees cmds n) (index term : ℕ) :
    Agrees cmds (n.discardLogPrefixLocked index term) := by
  refine ⟨h.dense.discard index term, fun i e he hi => ?_⟩
  by_cases hb : n.logBaseIndex < index
  · rw [h.dense.discardLogPrefixLocked hb] at he hi
    refine h.entries i e ?_ hi
    -- an entry that survives was at the same index before
    unfold Node.entryAt at he ⊢
    have hge : n.logBaseIndex ≤ min index n.lastLogIndexLocked := by
      rw [h.dense.lastLogIndexLocked, Nat.min_def]; split <;> omega
    split at he
    · cases he
    · next hlt =>
      simp only [List.getElem?_drop] at he hlt
      rw [if_neg (by omega)]
      rwa [show min index n.lastLogIndexLocked - n.logBaseIndex +
        (i - min index n.lastLogIndexLocked - 1) = i - n.logBaseIndex - 1 by omega] at he
  · unfold Node.discardLogPrefixLocked at he hi
    rw [if_pos (not_lt.mp hb)] at he hi
    exact h.entries i e he hi

theorem finish (h : Agrees cmds n) (args : InstallSnapshotArgs) :
    Agrees cmds (n.installSnapshotFinish args) := by
  unfold Node.installSnapshotFinish
  split
  · exact h
  · -- the log is empty
    refine ⟨nofun, fun i e he => ?_⟩
    unfold Node.entryAt at he
    split at he
    · cases he
    · cases he

end Agrees

/-- Discarding a prefix leaves the base at most at the index asked for, or where it was. -/
theorem Node.Dense.discard_base (h : n.Dense) (index term : ℕ) :
    (n.discardLogPrefixLocked index term).logBaseIndex ≤ max index n.logBaseIndex := by
  by_cases hb : n.logBaseIndex < index
  · rw [h.discardLogPrefixLocked hb]
    exact (min_le_left _ _).trans (le_max_left _ _)
  · unfold Node.discardLogPrefixLocked
    rw [if_pos (not_lt.mp hb)]
    exact le_max_right _ _

/-! ### The invariant -/

/-- The index `maybeSnapshot` has captured, while it is in progress. -/
def Applier.captured : Applier → Option ℕ
  | .snapshotting la _ => some la
  | .saving la _ _ => some la
  | .discarding la _ => some la
  | _ => none

/-- The state machine has seen `L` commands: all that is applied, and every snapshot that
is restored but not finished, and it has not seen more than that. -/
structure Level (M : StateMachine σ) (init : σ) (cmds : List Bytes) (s : Server σ) (L : ℕ) :
    Prop where
  applied : s.node.lastApplied ≤ L
  restored : ∀ th ∈ s.installs, th.stage = .finish → th.args.lastIncludedIndex ≤ L
  reached : L = s.node.lastApplied ∨
    ∃ th ∈ s.installs, th.stage = .finish ∧ th.args.lastIncludedIndex = L
  state : s.node.stateMachine = M.effect init (cmds.take L)

/-- **The invariant of applying**: the level of the state machine at every moment. -/
structure Applied (M : StateMachine σ) (init : σ) (cmds : List Bytes) (s : Server σ) : Prop where
  agrees : Agrees cmds s.node
  base_le : s.node.logBaseIndex ≤ s.node.lastApplied
  captured_le : ∀ la, s.applier.captured = some la → la ≤ s.node.lastApplied
  correct : ∀ th ∈ s.installs, Correct M init cmds th.args
  /-- While an entry is held, it is the command the state machine sees next. -/
  holding : ∀ e, s.applier.held = some e → ∃ k, s.node.lastApplied = k + 1 ∧
    cmds[k]? = some e.command ∧ s.node.stateMachine = M.effect init (cmds.take k) ∧
    ∀ th ∈ s.installs, th.stage = .finish → th.args.lastIncludedIndex ≤ k
  free : s.applier.held = none → ∃ L, Level M init cmds s L

variable {M : StateMachine σ} {init : σ} {cmds : List Bytes} {s s' : Server σ}

theorem StateMachine.effect_take_succ {k : ℕ} {c : Bytes} (h : cmds[k]? = some c) :
    M.effect init (cmds.take (k + 1)) = M.apply (M.effect init (cmds.take k)) c := by
  rw [List.take_add_one, h]
  exact List.foldl_append ..

theorem Applied.start (h : InOrder M init cmds n) :
    Applied M init cmds (Server.start n) where
  agrees := ⟨h.dense, h.entries⟩
  base_le := h.base_le
  captured_le := nofun
  correct := nofun
  holding := nofun
  free := fun _ => ⟨n.lastApplied, le_rfl, nofun, Or.inl rfl, h.state⟩

/-- A step that keeps what the invariant reads, but for the log. -/
theorem Applied.frame (h : Applied M init cmds s) (ha : Agrees cmds s'.node)
    (hla : s'.node.lastApplied = s.node.lastApplied)
    (hsm : s'.node.stateMachine = s.node.stateMachine)
    (hb : s'.node.logBaseIndex ≤ s'.node.lastApplied)
    (hcap : ∀ la, s'.applier.captured = some la → la ≤ s'.node.lastApplied)
    (hheld : s'.applier.held = s.applier.held)
    (hcorrect : ∀ th ∈ s'.installs, Correct M init cmds th.args)
    (hinst : ∀ th, th.stage = .finish → (th ∈ s'.installs ↔ th ∈ s.installs)) :
    Applied M init cmds s' where
  agrees := ha
  base_le := hb
  captured_le := hcap
  correct := hcorrect
  holding := by
    intro e he
    rw [hheld] at he
    obtain ⟨k, hk, hcmd, hst, hres⟩ := h.holding e he
    exact ⟨k, hla.trans hk, hcmd, hsm.trans hst, fun th hth hf => hres th ((hinst th hf).mp hth) hf⟩
  free := by
    intro he
    rw [hheld] at he
    -- the snapshot that was restored last is still the one, as no thread has finished or gone
    obtain ⟨L, hL⟩ := h.free he
    refine ⟨L, hla.le.trans hL.applied, fun th hth hf => hL.restored th ((hinst th hf).mp hth) hf,
      ?_, hsm.trans hL.state⟩
    rcases hL.reached with hr | ⟨th, hth, hf, hr⟩
    · exact Or.inl (hr.trans hla.symm)
    · exact Or.inr ⟨th, (hinst th hf).mpr hth, hf, hr⟩

/-- **Steps of `applyLoop`** preserve the invariant. -/
theorem Applied.apply (h : Applied M init cmds s) (ho : Orderly s .apply) {r : Option LogEntry}
    (hs : s.applyStep M = some (s', r)) : Applied M init cmds s' := by
  -- between stages that hold no entry only the captured index matters
  have hsame : ∀ {a : Applier}, s.applier.held = none → a.held = none →
      (∀ la, a.captured = some la → la ≤ s.node.lastApplied) →
      Applied M init cmds { s with applier := a } := fun h0 ha hcap =>
    h.frame h.agrees rfl rfl h.base_le hcap (ha.trans h0.symm) h.correct fun _ _ => Iff.rfl
  cases Server.applyStep_inv hs with
  | caughtUp ha hle | noSnapshot ha | snapshotFailed la t ha =>
    exact hsame (by rw [ha]; rfl) rfl nofun
  | fetch e ha hlt hb he =>
    -- nothing restored is ahead, so the level is `lastApplied` and the entry is next
    obtain ⟨L, hL⟩ := h.free (by rw [ha]; rfl)
    have hres := ho ha hlt
    obtain rfl : L = s.node.lastApplied := by
      rcases hL.reached with hr | ⟨th, hth, hf, hr⟩
      · exact hr
      · exact le_antisymm (hr ▸ hres th hth hf) hL.applied
    refine ⟨h.agrees.of_log rfl rfl rfl, h.base_le.trans (Nat.le_succ _),
      nofun, h.correct, fun e' he' => ?_,
      nofun⟩
    obtain rfl : e = e' := Option.some.inj he'
    exact ⟨s.node.lastApplied, rfl, h.agrees.fetched hlt hb he, hL.state, hres⟩
  | apply e ha =>
    -- the held entry is command `k`, and the state machine has seen those before it
    obtain ⟨k, hk, hcmd, hst, hres⟩ := h.holding e (by rw [ha]; rfl)
    refine ⟨h.agrees.of_log rfl rfl rfl, h.base_le, nofun, h.correct,
      nofun,
      fun _ => ⟨k + 1, hk.le, ?_, Or.inl hk.symm, ?_⟩⟩
    · exact fun th hth hf => (hres th hth hf).trans (Nat.le_succ k)
    · rw [StateMachine.effect_take_succ hcmd, ← hst]
      rfl
  | capture ha hon hlt =>
    refine hsame (by rw [ha]; rfl) rfl fun la hla => ?_
    cases hla
    exact le_rfl
  | snapshot la t data ha hd =>
    refine hsame (by rw [ha]; rfl) rfl fun la' hla => ?_
    obtain rfl : la = la' := Option.some.inj hla
    exact h.captured_le la (by rw [ha]; rfl)
  | save la t data ha =>
    refine h.frame (h.agrees.of_log rfl rfl rfl) rfl rfl h.base_le
      (fun la' hla => ?_) (by rw [ha]; rfl) h.correct fun _ _ => Iff.rfl
    obtain rfl : la = la' := Option.some.inj hla
    exact h.captured_le la (by rw [ha]; rfl)
  | discard la t ha =>
    -- the base moves to at most the captured index, which is applied
    have hla := h.captured_le la (by rw [ha]; rfl)
    have hframe : (s.node.discardLogPrefixLocked la t).lastApplied = s.node.lastApplied ∧
        (s.node.discardLogPrefixLocked la t).stateMachine = s.node.stateMachine := by
      unfold Node.discardLogPrefixLocked
      split <;> exact ⟨rfl, rfl⟩
    refine h.frame (h.agrees.discard la t) hframe.1 hframe.2 ?_ (nofun) (by rw [ha]; rfl) h.correct
      fun _ _ => Iff.rfl
    rw [hframe.1]
    exact (h.agrees.dense.discard_base la t).trans (max_le hla h.base_le)

/-- **Steps of `HandleInstallSnapshot`** preserve the invariant. -/
theorem Applied.install (h : Applied M init cmds s) {i : ℕ} (ho : Orderly s (.install i))
    {r : Option (ℕ × InstallSnapshotReply)} (hs : s.installStep M i = some (s', r)) :
    Applied M init cmds s' := by
  -- changing the stage of one call, or removing it, keeps the snapshots correct
  have hset : ∀ {th : Install} {st : InstallStage}, s.installs[i]? = some th →
      ∀ th' ∈ s.installs.set i { th with stage := st }, Correct M init cmds th'.args := by
    intro th st hi th' hth'
    rcases List.mem_or_eq_of_mem_set hth' with hm | rfl
    · exact h.correct th' hm
    · exact h.correct th (List.mem_of_getElem? hi)
  have herase : ∀ th' ∈ s.installs.eraseIdx i, Correct M init cmds th'.args :=
    fun th' hth' => h.correct th' (List.mem_of_mem_eraseIdx hth')
  cases Server.installStep_inv hs with
  | save th hi hst =>
    refine h.frame (h.agrees.of_log rfl rfl rfl) rfl rfl h.base_le
      h.captured_le rfl (hset hi) fun th' hf => ?_
    refine mem_set_iff_of_ne hi ?_ ?_
    · rintro rfl; cases hst.symm.trans hf
    · rintro rfl; cases hf
  | restoreFailed th hi hst hr =>
    refine h.frame h.agrees rfl rfl h.base_le h.captured_le rfl herase fun th' hf => ?_
    refine mem_eraseIdx_iff_of_ne hi ?_
    rintro rfl
    cases hst.symm.trans hf
  | restore th sm hi hst hr =>
    -- the level becomes that of the snapshot, which is behind nothing
    obtain ⟨hheld, hla, hres⟩ := ho th hi hst
    refine ⟨h.agrees.of_log rfl rfl rfl, h.base_le, h.captured_le, hset hi,
      fun e he => absurd (hheld.symm.trans he) (by simp),
      fun _ => ⟨th.args.lastIncludedIndex, hla, fun th' hth' hf => ?_, Or.inr ?_,
        h.correct th (List.mem_of_getElem? hi) _ _ hr⟩⟩
    · rcases List.mem_or_eq_of_mem_set hth' with hm | rfl
      · exact hres th' hm hf
      · exact le_rfl
    · have hlt := (List.getElem?_eq_some_iff.mp hi).1
      exact ⟨{ th with stage := .finish }, List.mem_set hlt _, rfl, rfl⟩
  | finish th hi hst =>
    have hth := List.mem_of_getElem? hi
    -- also when the log base has moved past the snapshot, as what is below it is applied
    obtain ⟨hsm, hla, hb⟩ : (s.node.installSnapshotFinish th.args).stateMachine =
          s.node.stateMachine ∧
        ((s.node.installSnapshotFinish th.args).lastApplied =
          max th.args.lastIncludedIndex s.node.lastApplied) ∧
        (s.node.installSnapshotFinish th.args).logBaseIndex ≤
          (s.node.installSnapshotFinish th.args).lastApplied := by
      unfold Node.installSnapshotFinish
      split
      · next hle => exact ⟨rfl, (max_eq_right (hle.trans h.base_le)).symm, h.base_le⟩
      · exact ⟨rfl, rfl, le_max_left _ _⟩
    refine ⟨h.agrees.finish th.args, hb, fun la hcap => ?_, herase, fun e he => ?_, fun hn => ?_⟩
    · rw [hla]
      exact (h.captured_le la hcap).trans (le_max_right _ _)
    · -- while an entry is held, nothing restored is ahead of it
      obtain ⟨k, hk, hcmd, hst', hres⟩ := h.holding e he
      have hle := hres th hth hst
      refine ⟨k, ?_, hcmd, hsm.trans hst', fun th' hth' hf =>
        hres th' (List.mem_of_mem_eraseIdx hth') hf⟩
      rw [hla, hk, max_eq_right (hle.trans (Nat.le_succ k))]
    · obtain ⟨L, hL⟩ := h.free hn
      have hle := hL.restored th hth hst
      refine ⟨L, ?_, fun th' hth' hf => hL.restored th' (List.mem_of_mem_eraseIdx hth') hf, ?_,
        hsm.trans hL.state⟩
      · rw [hla]; exact max_le hle hL.applied
      · -- the level is what has been applied, this snapshot, or one still unfinished
        rcases hL.reached with hr | ⟨th', hth', hf, hr⟩
        · exact Or.inl (by rw [hla, ← hr, max_eq_right hle])
        · by_cases heq : th.args.lastIncludedIndex = L
          · exact Or.inl (by rw [hla, heq, max_eq_left hL.applied])
          · refine Or.inr ⟨th', (mem_eraseIdx_iff_of_ne hi ?_).mpr hth', hf, hr⟩
            rintro rfl
            exact heq hr

/-- **Handlers and arriving snapshots** preserve the invariant. -/
theorem Applied.handle (h : Applied M init cmds s) {hd : Handler} (hn : s.node.handle hd = some n)
    (ha : Agrees cmds n) :
    Applied M init cmds { s with node := n } := by
  have hframe := Node.handle_sameSnapshot hn
  refine h.frame ha hframe.lastApplied hframe.stateMachine ?_ ?_ rfl h.correct fun _ _ => Iff.rfl
  · rw [hframe.base, hframe.lastApplied]; exact h.base_le
  · rw [hframe.lastApplied]; exact h.captured_le

theorem Applied.receive (h : Applied M init cmds s) (call : ℕ) {args : InstallSnapshotArgs}
    (hc : Correct M init cmds args) : Applied M init cmds (s.installBegin call args).1 := by
  have hnode : ∀ n : Node σ, (n = s.node ∨ n = s.node.follow args.term args.leaderID) →
      SameSnapshot s.node n ∧ Agrees cmds n := by
    rintro n (rfl | rfl)
    · exact ⟨SameSnapshot.refl _, h.agrees⟩
    · have hs := s.node.follow_sameLog args.term args.leaderID
      exact ⟨s.node.follow_sameSnapshot _ _,
        h.agrees.of_log hs.log hs.base (s.node.follow_commitIndex _ _)⟩
  obtain ⟨n, hn, heq⟩ := s.installBegin_cases call args
  obtain ⟨hframe, hag⟩ := hnode n hn
  have hb : n.logBaseIndex ≤ n.lastApplied := by
    rw [hframe.base, hframe.lastApplied]; exact h.base_le
  have hcap : ∀ la, s.applier.captured = some la → la ≤ n.lastApplied := by
    rw [hframe.lastApplied]; exact h.captured_le
  rcases heq with heq | heq
  · rw [heq]
    exact h.frame hag hframe.lastApplied hframe.stateMachine hb hcap rfl h.correct
      fun _ _ => Iff.rfl
  · rw [heq]
    refine h.frame hag hframe.lastApplied hframe.stateMachine hb hcap rfl
      (List.forall_mem_append.mpr ⟨h.correct, List.forall_mem_singleton.mpr hc⟩) fun th hf => ?_
    -- the new call has not restored anything
    exact mem_append_singleton_iff_of_ne (by rintro rfl; exact absurd hf (by simp))

/-- **The invariant is preserved** by every legal and orderly event. -/
theorem Applied.step {e : Event} (h : Applied M init cmds s) (hl : Legal M init cmds s e)
    (ho : Orderly s e) (hs : s.step M e = some s') : Applied M init cmds s' := by
  cases Server.step_cases hs with
  | handle hd n hn => exact h.handle hn (hl n hn)
  | apply s₁ r hs₁ => exact h.apply ho hs₁
  | receive call args => exact h.receive call hl
  | install i s₁ r hs₁ => exact h.install ho hs₁

/-- **Each committed command is applied once and in order.** In every orderly run from a
node in order, whenever no snapshot is being installed and no entry is held, the state
machine has seen exactly the committed commands up to `lastApplied`. -/
theorem applied_exactly_once (M : StateMachine σ) (init : σ) (cmds : List Bytes) {n : Node σ}
    (hn : InOrder M init cmds n) {s : Server σ}
    (hrun : Runs (Server.step M) (fun s e => Legal M init cmds s e ∧ Orderly s e)
      (Server.start n) s)
    (hinstalls : s.installs = []) (hheld : s.applier.held = none) :
    s.node.stateMachine = M.effect init (cmds.take s.node.lastApplied) := by
  have hinv : Applied M init cmds s :=
    hrun.invariant (fun _ _ _ h hok hs => h.step hok.1 hok.2 hs) (Applied.start hn)
  -- with no call in progress the level is `lastApplied`
  obtain ⟨L, hL⟩ := hinv.free hheld
  rcases hL.reached with hr | ⟨th, hth, -⟩
  · rw [← hr]; exact hL.state
  · rw [hinstalls] at hth; cases hth

/-! ### Two runs -/

/-- A follower with three committed entries and nothing applied. -/
def pendingNode : Node Bytes :=
  { caughtUpNode with stateMachine := [], lastApplied := 0 }

theorem pendingNode_inOrder : InOrder journal [] [[1], [2], [3]] pendingNode :=
  { caughtUpNode_inOrder with base_le := le_rfl, applied_le := by decide, state := rfl }

/-- A snapshot of the first two entries. -/
def twoEntries : InstallSnapshotArgs :=
  ⟨1, "a", 2, 1, [1, 2]⟩

theorem twoEntries_correct : Correct journal [] [[1], [2], [3]] twoEntries := by
  intro sm sm' h
  obtain rfl : ([1, 2] : Bytes) = sm' := Option.some.inj h
  rfl

theorem applied_exactly_once_of_sequence : ∃ s : Server Bytes,
      Runs (Server.step journal) (fun s e => Legal journal [] [[1], [2], [3]] s e ∧ Orderly s e)
        (Server.start pendingNode) s ∧
      s.node.lastApplied = 2 ∧
      s.node.stateMachine = journal.effect [] ([[1], [2], [3]].take s.node.lastApplied) := by
  -- one entry is fetched and applied, and then the snapshot is installed
  have hrun : (exec (guarded (Server.step journal) Orderly) (Server.start pendingNode)
      [.apply, .apply, .receive 0 twoEntries, .install 0, .install 0, .install 0]).map
        (fun s => (s.node.lastApplied, s.installs, s.applier.held)) = some (2, [], none) := by
    decide +kernel
  obtain ⟨s, hs, hobs⟩ := Option.map_eq_some_iff.mp hrun
  simp only [Prod.mk.injEq] at hobs
  have hlegal : Runs (guarded (Server.step journal) Orderly) (Legal journal [] [[1], [2], [3]])
      (Server.start pendingNode) s := by
    refine Runs.of_exec_all (fun e he s => ?_) hs
    simp only [List.mem_cons, List.not_mem_nil, or_false] at he
    rcases he with rfl | rfl | rfl | rfl | rfl | rfl
    all_goals first | trivial | exact twoEntries_correct
  have hruns := Runs.of_guarded hlegal
  exact ⟨s, hruns, hobs.1,
    applied_exactly_once journal [] [[1], [2], [3]] pendingNode_inOrder hruns hobs.2.1 hobs.2.2⟩

/-- **An entry is applied on top of a snapshot that has it.** The first entry is fetched, the
snapshot is installed from start to end, and then the entry is applied: the state machine
has seen commands 1, 2 and 1 again, with `lastApplied = 2`. -/
theorem applied_twice : ∃ s : Server Bytes,
      Runs (Server.step journal) (Legal journal [] [[1], [2], [3]]) (Server.start pendingNode) s ∧
      s.installs = [] ∧ s.applier = .idle ∧
      s.node.stateMachine ≠ journal.effect [] ([[1], [2], [3]].take s.node.lastApplied) := by
  have hrun : (exec (Server.step journal) (Server.start pendingNode)
      [.apply, .receive 0 twoEntries, .install 0, .install 0, .install 0, .apply]).map
        (fun s => (s.installs, s.applier, s.node.stateMachine, s.node.lastApplied)) =
      some ([], .idle, [1, 2, 1], 2) := by
    decide +kernel
  obtain ⟨s, hs, hobs⟩ := Option.map_eq_some_iff.mp hrun
  simp only [Prod.mk.injEq] at hobs
  obtain ⟨hi, ha, hsm, hla⟩ := hobs
  refine ⟨s, Runs.of_exec_all (fun e he s => ?_) hs, hi, ha, by rw [hsm, hla]; decide⟩
  simp only [List.mem_cons, List.not_mem_nil, or_false] at he
  rcases he with rfl | rfl | rfl | rfl | rfl | rfl
  all_goals first | trivial | exact twoEntries_correct

end Raft
end BoilerPulse
