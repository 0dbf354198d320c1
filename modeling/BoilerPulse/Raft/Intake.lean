import BoilerPulse.Framework.Batching
import BoilerPulse.Raft.Waiting

/-!
# Proposals on their way into the log

`Propose` looks whether its node leads, sends its command on `proposeCh` and waits on a channel of
its own, `doneCh`; `appendLoop` receives up to `maxAppendBatchSize` commands at a time and gives each
its entry. Everything else a process does goes on meanwhile: it may lose and win elections, take
the entries of other leaders, apply, and install snapshots, between any two steps of a proposal.
`Intake` is that system, `Framework.Batcher` over a `Server`.

* `Intake.refines`: what `appendLoop` does to the process is what the `Server` model has as
  `.handle (.propose batch)`, with one to 64 commands at a time.
* `propose_in_order`: each call gets at most one answer, in the order of the sends, and the entries
  carry the commands of their calls to later and later positions of the log.
* `propose_answered`: as long as `appendLoop` has not returned, it can answer everything that was
  sent, with steps of its own only.
* `propose_after_stop`: it returns on `Stop` without looking into `proposeCh` again, and what is
  left there is never answered, since the second `select` of `Propose` does not watch `stopCh`.
-/

namespace BoilerPulse
namespace Raft

open Framework

variable {σ : Type}

/-! ### The model -/

/-- `pendingPropose`; the call stands for its `doneCh`. -/
abbrev PendingPropose := Batching.Request Bytes

/-- `pendingResult`: an entry, or `ErrNotLeader`. -/
inductive PendingResult where
  | appended (entry : LogEntry)
  | notLeader
  deriving DecidableEq

namespace PendingResult

def toEntry : PendingResult → Option LogEntry
  | .appended e => some e
  | .notLeader => none

end PendingResult

/-- The capacity of `proposeCh`. -/
def proposeChBuffer : ℕ := 1024

/-- `appendBatch` with what it sends on each `doneCh`. -/
def Server.appendBatch (s : Server σ) (batch : List Bytes) : Server σ × List PendingResult :=
  match s.node.appendBatch batch with
  | none => (s, batch.map fun _ => .notLeader)
  | some n =>
    ({ s with node := n },
      (Node.batchEntries s.node.currentTerm (s.node.lastLogIndexLocked + 1) batch).map .appended)

theorem Node.length_batchEntries (term i : ℕ) (batch : List Bytes) :
    (Node.batchEntries term i batch).length = batch.length := by
  induction batch generalizing i with
  | nil => rfl
  | cons cmd batch ih => exact congrArg (· + 1) (ih (i + 1))

/-- The process, seen from `Propose`. All it does apart from `appendLoop` is left to the
environment. -/
def intake (M : StateMachine σ) : Batching.Service (Server σ) Bytes PendingResult Event where
  admits s := s.node.state = .leader
  process := Server.appendBatch
  env s
    | .handle (.propose _) => none
    | e => s.step M e
  capacity := proposeChBuffer
  maxBatch := Node.maxAppendBatchSize
  length_process s batch := by
    unfold Server.appendBatch
    split
    · exact List.length_map _
    · rw [List.length_map, Node.length_batchEntries]

/-- Any number of `Propose` calls at a process. `close` is the beginning of `Stop`, and `exit` the
return of `appendLoop`; a call is `received` when it has its result from `doneCh`. -/
abbrev Intake (σ : Type) := Batcher (Server σ) Bytes PendingResult

abbrev IntakeAction := Batching.Action Bytes Event

namespace Intake

def start (n : Node σ) : Intake σ := Batcher.opened (Server.start n)

def step (M : StateMachine σ) : Intake σ → IntakeAction → Option (Intake σ) :=
  Batcher.step (intake M)

/-- The entries made of proposals so far, oldest first. -/
def appended (b : Intake σ) : List LogEntry := b.results.filterMap fun a => a.2.toEntry

end Intake

/-! ### The process below -/

/-- What `appendBatch` does to the process. -/
theorem Server.appendBatch_cases (M : StateMachine σ) (s : Server σ) (batch : List Bytes) :
    (s.node.state ≠ .leader ∧ s.appendBatch batch = (s, batch.map fun _ => .notLeader)) ∨
    ∃ n, s.node.appendBatch batch = some n ∧
      s.step M (.handle (.propose batch)) = some { s with node := n } ∧
      s.appendBatch batch = ({ s with node := n },
        (Event.proposed s.node (.handle (.propose batch))).map .appended) := by
  unfold Server.appendBatch
  cases hn : s.node.appendBatch batch with
  | none =>
    refine Or.inl ⟨fun hlead => ?_, rfl⟩
    rw [Node.appendBatch, if_neg (not_not.mpr hlead)] at hn
    cases hn
  | some n =>
    refine Or.inr ⟨n, rfl, ?_, rfl⟩
    show (s.node.handle (.propose batch)).map _ = _
    rw [show s.node.handle (.propose batch) = some n from hn]
    rfl

/-- What `appendLoop` gives to the rest of the process, one batch at a time. -/
def Event.Grouped (_ : Server σ) (e : Event) : Prop :=
  ∀ batch, e = .handle (.propose batch) → batch ≠ [] ∧ batch.length ≤ Node.maxAppendBatchSize

namespace Intake

variable {M : StateMachine σ} {b b' : Intake σ} {a : IntakeAction}

/-- Everything but `appendLoop` is an event of the process that is no proposal. -/
theorem env_inv {s s' : Server σ} {e : Event} (h : (intake M).env s e = some s') :
    s.step M e = some s' ∧ ∀ batch, e ≠ .handle (.propose batch) := by
  cases e with
  | handle hd =>
    cases hd with
    | propose batch => cases h
    | _ => exact ⟨h, fun _ => nofun⟩
  | _ => exact ⟨h, fun _ => nofun⟩

/-- **One step** is a step of the process, or none. -/
theorem step_server (hsized : b.Sized (intake M)) (hs : b.step M a = some b') :
    Runs (Server.step M) Event.Grouped b.state b'.state := by
  cases Batcher.step_inv hs with
  | flush batch hl =>
    obtain ⟨hne, hle⟩ := hsized batch hl
    rcases Server.appendBatch_cases M b.state (batch.map Batching.Request.command) with
      ⟨-, heq⟩ | ⟨n, -, hstep, heq⟩
    · show Runs _ _ _ (b.state.appendBatch _).1
      rw [heq]
      exact Runs.refl _
    · show Runs _ _ _ (b.state.appendBatch _).1
      rw [heq]
      refine Runs.single (fun cmds hcmds => ?_) hstep
      obtain rfl := Handler.propose.inj (Event.handle.inj hcmds)
      rw [List.length_map]
      exact ⟨by simpa using hne, hle⟩
  | env e s henv =>
    obtain ⟨hstep, hne⟩ := env_inv henv
    exact Runs.single (fun batch he => absurd he (hne batch)) hstep
  | _ => exact Runs.refl _

theorem sized_start (n : Node σ) : (start n).Sized (intake M) :=
  nofun

/-- **The process does not notice the calls**: whatever they do, it makes steps of its own, and
proposals reach it in batches of one to 64. -/
theorem refines {n : Node σ} (h : Reaches (step M) (start n) b) :
    b.Sized (intake M) ∧ Runs (Server.step M) Event.Grouped (Server.start n) b.state := by
  induction h with
  | refl => exact ⟨sized_start n, Runs.refl _⟩
  | tail a _ _ hs ih => exact ⟨ih.1.step hs, ih.2.trans (step_server ih.1 hs)⟩

theorem tidy {n : Node σ} {ok : Intake σ → IntakeAction → Prop}
    (h : Runs (step M) ok (start n) b) : b.Tidy :=
  h.invariant (fun _ _ _ hb _ hs => hb.step hs) (.opened _)

end Intake

/-! ### Positions -/

/-- In an earlier term, or earlier in the same one. -/
def LogEntry.Precedes (e e' : LogEntry) : Prop :=
  e.term < e'.term ∨ e.term = e'.term ∧ e.index < e'.index

/-- A batch takes consecutive positions. -/
theorem Node.batchEntries_pairwise (term i : ℕ) (batch : List Bytes) :
    (∀ e ∈ Node.batchEntries term i batch, e.term = term ∧ i ≤ e.index) ∧
      (Node.batchEntries term i batch).Pairwise LogEntry.Precedes := by
  induction batch generalizing i with
  | nil => exact ⟨nofun, List.Pairwise.nil⟩
  | cons cmd batch ih =>
    obtain ⟨hmem, hpair⟩ := ih (i + 1)
    constructor
    · intro e he
      rcases List.mem_cons.mp he with rfl | he
      · exact ⟨rfl, Nat.le_refl _⟩
      · exact ⟨(hmem e he).1, Nat.le_of_succ_le (hmem e he).2⟩
    · refine List.pairwise_cons.mpr ⟨fun e he => ?_, hpair⟩
      exact Or.inr ⟨(hmem e he).1.symm, (hmem e he).2⟩

/-- Each command of a batch goes into the entry its own call is given. -/
theorem command_of_mem_zip_batchEntries (term i : ℕ) (batch : List PendingPropose)
    {a : PendingPropose × PendingResult} {e : LogEntry}
    (ha : a ∈ batch.zip ((Node.batchEntries term i (batch.map Batching.Request.command)).map .appended))
    (he : a.2 = .appended e) : e.command = a.1.command := by
  induction batch generalizing i with
  | nil => cases ha
  | cons r batch ih =>
    rcases List.mem_cons.mp ha with rfl | ha
    · obtain rfl := PendingResult.appended.inj he
      rfl
    · exact ih (i + 1) ha

/-- The entries among the results of a batch. -/
theorem filterMap_entry_zip (batch : List PendingPropose) (es : List LogEntry)
    (hlen : es.length ≤ batch.length) :
    (batch.zip (es.map PendingResult.appended)).filterMap (fun a => a.2.toEntry) = es := by
  have hsnd : (batch.zip (es.map PendingResult.appended)).map Prod.snd = es.map .appended :=
    List.map_snd_zip (by rw [List.length_map]; exact hlen)
  calc (batch.zip (es.map PendingResult.appended)).filterMap (fun a => a.2.toEntry)
      = ((batch.zip (es.map .appended)).map Prod.snd).filterMap PendingResult.toEntry := by
        rw [List.filterMap_map]; rfl
    _ = es := by rw [hsnd, List.filterMap_map]; exact List.filterMap_some

theorem filterMap_entry_zip_notLeader (batch : List PendingPropose) (l : List Bytes) :
    (batch.zip (l.map fun _ => PendingResult.notLeader)).filterMap (fun a => a.2.toEntry) = [] := by
  refine List.filterMap_eq_nil_iff.mpr fun a ha => ?_
  obtain ⟨-, -, h⟩ := List.mem_map.mp (List.of_mem_zip ha).2
  rw [← h]
  rfl

namespace Intake

variable {M : StateMachine σ} {init : σ} {b b' : Intake σ} {a : IntakeAction}

/-- What the rest of the system guarantees to the proposals of a process, as in `Event.Honors`, for
all of them. -/
def Honors (b : Intake σ) : IntakeAction → Prop
  | .env e => e.Honors ⟨b.state, b.appended, [], []⟩
  | _ => True

instance Honors.decidable (b : Intake σ) : (a : IntakeAction) → Decidable (b.Honors a)
  | .env e => inferInstanceAs (Decidable (e.Honors _))
  | .call _ | .send _ | .refuse _ | .cancel _ | .take _ | .loop | .close | .exit =>
    inferInstanceAs (Decidable True)

/-- **The entries go to later and later positions**, and carry the commands of their calls. -/
structure Ascending (M : StateMachine σ) (init : σ) (b : Intake σ) : Prop where
  waiting : ∃ calls, Waiting M init ⟨b.state, b.appended, calls, []⟩
  ascending : b.appended.Pairwise LogEntry.Precedes
  own : ∀ a ∈ b.results, ∀ e, a.2 = .appended e → e.command = a.1.command

namespace Ascending

/-- A step that leaves the process and the results alone. -/
theorem of_same (h : Ascending M init b) (hstate : b'.state = b.state)
    (hresults : b'.results = b.results) : Ascending M init b' := by
  have happ : b'.appended = b.appended := by unfold appended; rw [hresults]
  exact ⟨by rw [hstate, happ]; exact h.waiting, by rw [happ]; exact h.ascending,
    by rw [hresults]; exact h.own⟩

theorem flush (h : Ascending M init b) (batch : List PendingPropose) :
    Ascending M init (b.flush (intake M) batch) := by
  have hzip : ∀ a ∈ batch.zip (b.state.appendBatch (batch.map Batching.Request.command)).2, ∀ e,
      a.2 = .appended e → e.command = a.1.command := by
    intro a ha e he
    rcases Server.appendBatch_cases M b.state (batch.map Batching.Request.command) with
      ⟨-, heq⟩ | ⟨n, -, -, heq⟩
    · rw [heq] at ha
      obtain ⟨-, -, hno⟩ := List.mem_map.mp (List.of_mem_zip ha).2
      rw [← hno] at he
      cases he
    · rw [heq] at ha
      exact command_of_mem_zip_batchEntries _ _ batch ha he
  have hown : ∀ a ∈ (b.flush (intake M) batch).results, ∀ e, a.2 = .appended e →
      e.command = a.1.command := fun a ha =>
    (List.mem_append.mp ha).elim (h.own a) (hzip a)
  rcases Server.appendBatch_cases M b.state (batch.map Batching.Request.command) with
    ⟨-, heq⟩ | ⟨n, hn, hstep, heq⟩
  · -- nothing is appended
    have hstate : (b.flush (intake M) batch).state = b.state := congrArg Prod.fst heq
    have happ : appended (b.flush (intake M) batch) = b.appended := by
      show (b.results ++ batch.zip (b.state.appendBatch _).2).filterMap _ = _
      rw [heq, List.filterMap_append, filterMap_entry_zip_notLeader, List.append_nil]
      rfl
    exact ⟨by rw [hstate, happ]; exact h.waiting, by rw [happ]; exact h.ascending, hown⟩
  · -- the batch goes behind the end of the log, in the term of the leader
    obtain ⟨calls, hw⟩ := h.waiting
    have hstate : (b.flush (intake M) batch).state = { b.state with node := n } :=
      congrArg Prod.fst heq
    have happ : appended (b.flush (intake M) batch) = b.appended ++
        Event.proposed b.state.node (.handle (.propose (batch.map Batching.Request.command))) := by
      show (b.results ++ batch.zip (b.state.appendBatch _).2).filterMap _ = _
      rw [heq, List.filterMap_append, filterMap_entry_zip batch _ ?_]
      · rfl
      · exact (Node.length_batchEntries _ _ _).trans_le (List.length_map _).le
    refine ⟨?_, ?_, hown⟩
    · rw [hstate, happ]
      exact ⟨_, hw.process (e := .handle (.propose _)) trivial hstep⟩
    · obtain ⟨hlead, -⟩ := Node.appendBatch_eq hn
      obtain ⟨hmem, hpair⟩ := Node.batchEntries_pairwise b.state.node.currentTerm
        (b.state.node.lastLogIndexLocked + 1) (batch.map Batching.Request.command)
      rw [happ]
      refine List.pairwise_append.mpr ⟨h.ascending, hpair, fun w hold e hnew => ?_⟩
      obtain ⟨hterm, hidx⟩ := hmem e hnew
      have hrank := (hw.waiting w hold).1
      rcases Nat.lt_or_eq_of_le hrank.term_le with hlt | heq
      · exact Or.inl (hterm.symm ▸ hlt)
      · exact Or.inr ⟨heq.trans hterm.symm, Nat.lt_of_le_of_lt (hrank.leading hlead heq) hidx⟩

/-- **Every step.** -/
theorem step (h : Ascending M init b) (hok : b.Honors a) (hs : b.step M a = some b') :
    Ascending M init b' := by
  cases Batcher.step_inv hs with
  | call | send | refuse | cancel | take | receive | drain | answer | resume | close | exit =>
    exact h.of_same rfl rfl
  | flush batch hl => exact h.flush batch
  | env e s henv =>
    obtain ⟨hstep, hne⟩ := env_inv henv
    obtain ⟨calls, hw⟩ := h.waiting
    refine ⟨⟨calls ++ e.smCalls b.state, ?_⟩, h.ascending, h.own⟩
    have hw' := hw.process (e := e) hok hstep
    have hnone : e.proposed b.state.node = [] := by
      refine List.eq_nil_iff_forall_not_mem.mpr fun w hmem => ?_
      obtain ⟨batch, rfl⟩ := Event.exists_batch_of_mem_proposed hmem
      exact hne batch rfl
    rw [hnone, List.append_nil] at hw'
    exact hw'

end Ascending

end Intake

/-! ### The theorems -/

/-- **What the calls of `Propose` can rely on.** -/
structure Intake.InOrder (b : Intake σ) : Prop where
  /-- Results are given in the order of the sends. -/
  fifo : b.results.map Prod.fst <+: b.sent
  /-- No call has two of them. -/
  once : (b.results.map fun a => a.1.caller).Nodup
  /-- A call gets the result that was made for it. -/
  received : ∀ i c x, b.callers[i]? = some c → c.phase = .received x →
    (⟨i, c.command⟩, x) ∈ b.results
  /-- The entries go to later and later positions. -/
  ascending : b.appended.Pairwise LogEntry.Precedes
  /-- An entry carries the command of its call. -/
  own : ∀ r e, (r, .appended e) ∈ b.results →
    e.command = r.command ∧ ∃ c, b.callers[r.caller]? = some c ∧ c.command = r.command
  /-- A call that was refused has nothing in the log. -/
  refused : ∀ i c, b.callers[i]? = some c → c.phase = .refused → ∀ a ∈ b.results, a.1.caller ≠ i

/-- "a" is elected, two calls begin, and the second sends first. -/
def twoCalls : List IntakeAction :=
  [.env (.handle .campaign), .env (.handle (.voteReply 1 1 ⟨1, true⟩)), .call [7], .call [8],
    .send 1, .send 0]

/-- **`appendLoop` can answer everything that was sent**, by no more than four of its own steps a
command, and whether or not the calls still wait: then each call that does can take its result. It
takes these steps as long as `Stop` has not been called; after that its `select` may return
instead (`propose_after_stop`). -/
theorem propose_answered (M : StateMachine σ) (n : Node σ) (b : Intake σ)
    (h : Reaches (Intake.step M) (Intake.start n) b) (hl : b.loop ≠ .stopped) :
    ∃ k ≤ 4 * (b.sent.length - b.answers.length) + 1, ∃ b' : Intake σ,
      Batcher.serve (intake M) k b = some b' ∧ b'.callers = b.callers ∧
      ∀ i c, b.callers[i]? = some c → c.phase = .waiting → ∃ a ∈ b'.answers, a.1 = ⟨i, c.command⟩ ∧
          b'.step M (.take i) = some (b'.setPhase i c (.received a.2)) := by
  have ht := Intake.tidy h
  obtain ⟨k, hk, b', hserve, ht', hcallers, hsent, hall⟩ := ht.serves_all (v := intake M) hl
  refine ⟨k, hk.trans ((Intake.refines h).1.backlog_le ht), b', hserve, hcallers, ?_⟩
  intro i c hi hw
  obtain ⟨r, hr, hri⟩ := ht.waiting i c hi hw
  rw [← hsent, ← hall] at hr
  obtain ⟨a, ha, rfl⟩ := List.mem_map.mp hr
  rw [← hcallers] at hi
  exact ht'.take hi hw ⟨a, ha, hri⟩

/-- Both calls are answered. -/
theorem propose_answered_two_calls :
    ∃ b : Intake Bytes, Reaches (Intake.step journal) (Intake.start firstNode) b ∧
      b.callers.map Batching.Caller.phase = [.waiting, .waiting] ∧
      ∃ k ≤ 9, ∃ b' : Intake Bytes, Batcher.serve (intake journal) k b = some b' ∧
        b'.callers = b.callers ∧ ∀ i c, b.callers[i]? = some c → c.phase = .waiting →
          ∃ a ∈ b'.answers, a.1 = ⟨i, c.command⟩ ∧
            b'.step journal (.take i) = some (b'.setPhase i c (.received a.2)) := by
  have hrun : (exec (Intake.step journal) (Intake.start firstNode) twoCalls).map
      (fun b => (b.callers.map Batching.Caller.phase, b.loop, b.sent.length, b.answers.length)) =
      some ([.waiting, .waiting], .idle, 2, 0) := by
    decide +kernel
  obtain ⟨b, hb, hobs⟩ := Reaches.of_exec_map hrun
  simp only [Prod.mk.injEq] at hobs
  obtain ⟨hphase, hloop, hsent, hans⟩ := hobs
  have hall := propose_answered journal firstNode b hb (by rw [hloop]; simp)
  rw [hsent, hans] at hall
  exact ⟨b, hb, hphase, hall⟩

/-- **After `Stop`** a command that `appendLoop` has left in `proposeCh` is never answered: its call
waits until its context is done, and these are the only calls that wait for good. -/
theorem propose_after_stop (M : StateMachine σ) (n : Node σ) (b b' : Intake σ)
    (h : Reaches (Intake.step M) (Intake.start n) b) (hl : b.loop = .stopped)
    (h' : Reaches (Intake.step M) b b') :
    b'.appended = b.appended ∧
      (∀ r ∈ b.queue, ∃ c, b'.callers[r.caller]? = some c ∧ c.command = r.command ∧
        (c.phase = .waiting ∨ c.phase = .cancelled)) ∧
      ∀ i c, b'.callers[i]? = some c → c.phase = .waiting → (∃ r ∈ b'.queue, r.caller = i) ∨
        ∃ x, b'.step M (.take i) = some (b'.setPhase i c (.received x)) := by
  have ht' := Intake.tidy (h.trans h')
  obtain ⟨hl', hq, hr⟩ := Batcher.stopped_of_runs h' hl
  refine ⟨by unfold Intake.appended; rw [hr], fun r hmem => ht'.forsaken (hq hmem), ?_⟩
  intro i c hi hw
  obtain ⟨r, hsent, hri⟩ := ht'.waiting i c hi hw
  have hresults := ht'.results_eq
  rw [ht'.sent_eq, hresults, hl', Batching.Loop.batch, Batching.Loop.rest, List.append_nil] at hsent
  rcases List.mem_append.mp hsent with hdone | hleft
  · obtain ⟨a, ha, rfl⟩ := List.mem_map.mp hdone
    obtain ⟨a', -, -, hstep⟩ := ht'.take (v := intake M) hi hw ⟨a, ha, hri⟩
    exact Or.inr ⟨a'.2, hstep⟩
  · exact Or.inl ⟨r, hleft, hri⟩

/-- `Stop` comes before `appendLoop` has received anything. -/
theorem propose_after_stop_left_behind :
    ∃ b b' : Intake Bytes, Reaches (Intake.step journal) (Intake.start firstNode) b ∧
      b.loop = .stopped ∧ b.queue = [⟨1, [8]⟩, ⟨0, [7]⟩] ∧
      b.step journal (.call [9]) = some b' ∧
      ∀ r ∈ b.queue, ∃ c, b'.callers[r.caller]? = some c ∧ c.command = r.command ∧
        (c.phase = .waiting ∨ c.phase = .cancelled) := by
  have hrun : (exec (Intake.step journal) (Intake.start firstNode)
      (twoCalls ++ [.close, .exit])).map (fun b => (b.loop, b.queue)) =
      some (.stopped, [⟨1, [8]⟩, ⟨0, [7]⟩]) := by
    decide +kernel
  obtain ⟨b, hb, hobs⟩ := Reaches.of_exec_map hrun
  obtain ⟨hloop, hqueue⟩ := Prod.mk.inj hobs
  have hcall : ∃ b', b.step journal (.call [9]) = some b' := ⟨_, rfl⟩
  obtain ⟨b', hb'⟩ := hcall
  exact ⟨b, b', hb, hloop, hqueue, hb',
    (propose_after_stop journal firstNode b b' hb hloop (Runs.single trivial hb')).2.1⟩

end Raft
end BoilerPulse
