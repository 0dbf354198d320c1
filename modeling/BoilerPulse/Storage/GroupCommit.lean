import BoilerPulse.Framework.Runs
import BoilerPulse.Storage.Lsm

/-!
# Storage: group commit

`Put`, `Delete` and `opLoop` of the LSM engine as goroutines (`engine.go`). A caller locks `e.mu`,
takes a sequence number, sends its operation on `opCh` with the lock still held, unlocks, and waits
for its result. `opLoop` receives an operation, drains what else has accumulated, appends the
records of the batch to the log, locks `e.mu`, applies the mutations and flushes if need be,
unlocks, and answers every caller of the batch. Each of these is one step, and the steps interleave
in any order.

The buffer of `opCh` has room for `opChCapacity` operations. A caller that finds it full waits with
the lock held, which is the lock `opLoop` needs to get on. With as many calls as fill the buffer and
two more nothing may move any more, and with fewer something always does.
-/

namespace BoilerPulse
namespace Storage

open Framework

namespace GroupCommit

/-- Where a call to `Put` or `Delete` is. -/
inductive Phase where
  /-- At `e.mu.Lock()`. -/
  | locking
  /-- The lock is held; for `Delete`, before the lookup. -/
  | locked
  /-- At `e.opCh <- op`, with the lock held. -/
  | sending (op : EngineOp)
  /-- At `e.mu.Unlock()`. -/
  | sent
  /-- At `<-op.resultCh`. -/
  | waiting
  | returned (result : Option Error)

structure Caller where
  request : Request
  phase : Phase

/-- An operation with the call that waits for its result. -/
structure Queued where
  caller : ℕ
  op : EngineOp

/-- Where `opLoop` is. -/
inductive Loop where
  /-- At the outer `select`. -/
  | idle
  /-- At the inner `select`. -/
  | draining (batch : List Queued)
  /-- At `AppendBatch`. -/
  | appending (batch : List Queued)
  /-- At `e.mu.Lock()`. -/
  | locking (batch : List Queued)
  | locked (batch : List Queued)
  /-- At `e.mu.Unlock()`. -/
  | applied (batch : List Queued) (err : Option (List String))
  /-- Sending the results, to those that are left. -/
  | replying (rest : List Queued) (err : Option (List String))

inductive Holder where
  | caller (i : ℕ)
  | loop
  deriving DecidableEq

end GroupCommit

open GroupCommit

/-- The engine with its goroutines. A call is known by its position among `callers`. What has been
sent, appended and applied so far is kept for the record; nobody reads it. -/
structure GroupCommit where
  callers : List Caller
  mu : Option Holder
  opCh : List Queued
  loop : Loop
  /-- What has been sent on the result channels. -/
  results : List (ℕ × Option (List String))
  engine : Engine
  disk : Disk
  clock : ℤ
  enqueued : List Queued
  appended : List Queued
  mutations : List Queued

namespace GroupCommit

/-- The capacity of `opCh`. -/
def opChCapacity : ℕ := 1024

/-- An engine that has just been opened. -/
def opened (e : Engine) (d : Disk) (clock : ℤ) : GroupCommit :=
  ⟨[], none, [], .idle, [], e, d, clock, [], [], []⟩

/-- The operations of a batch. -/
def ops (batch : List Queued) : List EngineOp :=
  batch.map Queued.op

/-- The error a caller makes of what it receives. -/
def resultOf (err : Option (List String)) : Option Error :=
  err.map fun texts => .failed ("appending to WAL" :: texts)

/-- There is a new call. -/
def begun (g : GroupCommit) (r : Request) : GroupCommit :=
  { g with callers := g.callers ++ [⟨r, .locking⟩] }

/-- A call goes on to another phase. -/
def setPhase (g : GroupCommit) (i : ℕ) (c : Caller) (phase : Phase) : GroupCommit :=
  { g with callers := g.callers.set i { c with phase := phase } }

/-- Take a sequence number. -/
def number (g : GroupCommit) (i : ℕ) (c : Caller) : GroupCommit :=
  { g.setPhase i c (.sending (c.request.op g.engine.nextSeq)) with
    engine := { g.engine with nextSeq := g.engine.nextSeq + 1 } }

/-- The next step of a call; `none` if it has to wait. -/
def stepCaller (capacity : ℕ) (g : GroupCommit) (i : ℕ) (c : Caller) : Option GroupCommit :=
  match c.phase with
  | .locking =>
    if g.mu = none then some { g.setPhase i c .locked with mu := some (.caller i) } else none
  | .locked =>
    match c.request with
    | .put _ _ _ _ _ => some (g.number i c)
    | .delete now key =>
      match g.engine.lookupLocked now key with
      -- nothing to delete: unlock and return
      | .error err => some { g.setPhase i c (.returned (some err)) with mu := none }
      | .ok _ => some (g.number i c)
  | .sending op =>
    -- the channel is full: wait, with the lock still held
    if g.opCh.length < capacity then
      some { g.setPhase i c .sent with
        opCh := g.opCh ++ [⟨i, op⟩]
        enqueued := g.enqueued ++ [⟨i, op⟩] }
    else none
  | .sent => some { g.setPhase i c .waiting with mu := none }
  | .waiting =>
    (g.results.find? fun r => r.1 = i).map fun r => g.setPhase i c (.returned (resultOf r.2))
  | .returned _ => none

/-- The next step of `opLoop`; `none` if it has to wait. A compaction reads the clock at `now`. -/
def stepLoop (g : GroupCommit) (now : ℤ) (fate : FileOp → Fate) : Option GroupCommit :=
  match g.loop with
  | .idle =>
    match g.opCh with
    | [] => none
    | q :: rest => some { g with opCh := rest, loop := .draining [q] }
  | .draining batch =>
    match g.opCh with
    -- the `default` of the inner `select`
    | [] => some { g with loop := .appending batch }
    | q :: rest => some { g with opCh := rest, loop := .draining (batch ++ [q]) }
  | .appending batch =>
    match (appendBatch ((ops batch).map EngineOp.record)).run fileSystem fate g.disk with
    | (some true, d) =>
      some { g with disk := d, loop := .locking batch, appended := g.appended ++ batch }
    -- nothing is applied, and every caller of the batch gets the error
    | (some false, d) => some { g with disk := d, loop := .replying batch (some []) }
    | (none, _) => none
  | .locking batch =>
    if g.mu = none then some { g with mu := some .loop, loop := .locked batch } else none
  | .locked batch =>
    -- the clock does not go back
    if now < g.clock then none
    else
      match ((g.engine.applyAll (ops batch)).maybeFlushLocked now).run fileSystem fate g.disk with
      | (some (e, err), d) =>
        some { g with
          engine := e
          disk := d
          clock := now
          loop := .applied batch err
          mutations := g.mutations ++ batch }
      | (none, _) => none
  | .applied batch err => some { g with mu := none, loop := .replying batch err }
  | .replying [] _ => some { g with loop := .idle }
  | .replying (q :: rest) err =>
    some { g with results := g.results ++ [(q.caller, err)], loop := .replying rest err }

inductive Action where
  /-- A new call. -/
  | start (r : Request)
  | caller (i : ℕ)
  | loop (now : ℤ) (fate : FileOp → Fate)

def step (capacity : ℕ) (g : GroupCommit) : Action → Option GroupCommit
  | .start r => some (g.begun r)
  | .caller i => (g.callers[i]?).bind fun c => g.stepCaller capacity i c
  | .loop now fate => g.stepLoop now fate

/-- What becomes of the file operations of a step. -/
def Action.fate : Action → FileOp → Fate
  | .loop _ fate => fate
  | _ => fun _ => .done

/-! ### What a step can do -/

/-- The steps of calls and of `opLoop`, with what has to be the case for each. -/
inductive Move (capacity : ℕ) (fate : FileOp → Fate) (g : GroupCommit) : GroupCommit → Prop
  | lock {i : ℕ} {c : Caller} (hi : g.callers[i]? = some c) (hphase : c.phase = .locking)
      (hmu : g.mu = none) :
      Move capacity fate g { g.setPhase i c .locked with mu := some (.caller i) }
  | number {i : ℕ} {c : Caller} (hi : g.callers[i]? = some c) (hphase : c.phase = .locked) :
      Move capacity fate g (g.number i c)
  | miss {i : ℕ} {c : Caller} (hi : g.callers[i]? = some c) (hphase : c.phase = .locked)
      (err : Error) : Move capacity fate g { g.setPhase i c (.returned (some err)) with mu := none }
  | send {i : ℕ} {c : Caller} {op : EngineOp} (hi : g.callers[i]? = some c)
      (hphase : c.phase = .sending op) (hroom : g.opCh.length < capacity) :
      Move capacity fate g { g.setPhase i c .sent with
        opCh := g.opCh ++ [⟨i, op⟩]
        enqueued := g.enqueued ++ [⟨i, op⟩] }
  | unlock {i : ℕ} {c : Caller} (hi : g.callers[i]? = some c) (hphase : c.phase = .sent) :
      Move capacity fate g { g.setPhase i c .waiting with mu := none }
  | finish {i : ℕ} {c : Caller} (hi : g.callers[i]? = some c) (hphase : c.phase = .waiting)
      (result : Option Error) (hres : i ∈ g.results.map Prod.fst) :
      Move capacity fate g (g.setPhase i c (.returned result))
  | receive {q : Queued} {rest : List Queued} (hloop : g.loop = .idle) (hch : g.opCh = q :: rest) :
      Move capacity fate g { g with opCh := rest, loop := .draining [q] }
  | drain {batch rest : List Queued} {q : Queued} (hloop : g.loop = .draining batch)
      (hch : g.opCh = q :: rest) :
      Move capacity fate g { g with opCh := rest, loop := .draining (batch ++ [q]) }
  | drained {batch : List Queued} (hloop : g.loop = .draining batch) :
      Move capacity fate g { g with loop := .appending batch }
  | append {batch : List Queued} {d : Disk} (hloop : g.loop = .appending batch)
      (hrun : (appendBatch ((ops batch).map EngineOp.record)).run fileSystem fate g.disk
        = (some true, d)) :
      Move capacity fate g
        { g with disk := d, loop := .locking batch, appended := g.appended ++ batch }
  | appendFails {batch : List Queued} (d : Disk) (hloop : g.loop = .appending batch)
      (hrun : (appendBatch ((ops batch).map EngineOp.record)).run fileSystem fate g.disk
        = (some false, d)) :
      Move capacity fate g { g with disk := d, loop := .replying batch (some []) }
  | lockLoop {batch : List Queued} (hloop : g.loop = .locking batch) (hmu : g.mu = none) :
      Move capacity fate g { g with mu := some .loop, loop := .locked batch }
  | apply {batch : List Queued} {now : ℤ} {e : Engine} {d : Disk} {err : Option (List String)}
      (hloop : g.loop = .locked batch) (hnow : g.clock ≤ now)
      (hrun : ((g.engine.applyAll (ops batch)).maybeFlushLocked now).run fileSystem fate g.disk
        = (some (e, err), d)) :
      Move capacity fate g { g with
        engine := e
        disk := d
        clock := now
        loop := .applied batch err
        mutations := g.mutations ++ batch }
  | unlockLoop {batch : List Queued} {err : Option (List String)}
      (hloop : g.loop = .applied batch err) :
      Move capacity fate g { g with mu := none, loop := .replying batch err }
  | reply {q : Queued} {rest : List Queued} {err : Option (List String)}
      (hloop : g.loop = .replying (q :: rest) err) :
      Move capacity fate g { g with
        results := g.results ++ [(q.caller, err)]
        loop := .replying rest err }
  | resume {err : Option (List String)} (hloop : g.loop = .replying [] err) :
      Move capacity fate g { g with loop := .idle }

section Inversion

variable {capacity : ℕ} {fate : FileOp → Fate} {g g' : GroupCommit}

theorem move_of_stepCaller {i : ℕ} {c : Caller} (hi : g.callers[i]? = some c)
    (h : g.stepCaller capacity i c = some g') (fate : FileOp → Fate) : Move capacity fate g g' := by
  unfold stepCaller at h
  split at h
  · next hphase =>
    split at h
    · next hmu => cases h; exact .lock hi hphase hmu
    · cases h
  · next hphase =>
    split at h
    · cases h; exact .number hi hphase
    · split at h
      · next err _ => cases h; exact .miss hi hphase err
      · cases h; exact .number hi hphase
  · next op hphase =>
    split at h
    · next hroom => cases h; exact .send hi hphase hroom
    · cases h
  · next hphase => cases h; exact .unlock hi hphase
  · next hphase =>
    obtain ⟨r, hr, rfl⟩ := Option.map_eq_some_iff.mp h
    refine .finish hi hphase _ (List.mem_map.mpr ⟨r, List.mem_of_find?_eq_some hr, ?_⟩)
    simpa using List.find?_some hr
  · cases h

theorem move_of_stepLoop {now : ℤ} {fate : FileOp → Fate} (h : g.stepLoop now fate = some g') :
    Move capacity fate g g' := by
  unfold stepLoop at h
  split at h
  · next hloop =>
    split at h
    · cases h
    · next hch => cases h; exact .receive hloop hch
  · next hloop =>
    split at h
    · cases h; exact .drained hloop
    · next hch => cases h; exact .drain hloop hch
  · next hloop =>
    split at h
    · -- the log: written, failed, or the process has stopped
      next hrun => cases h; exact .append hloop hrun
    · next d hrun => cases h; exact .appendFails d hloop hrun
    · cases h
  · next hloop =>
    split at h
    · next hmu => cases h; exact .lockLoop hloop hmu
    · cases h
  · next hloop =>
    split at h
    · cases h
    · next hnow =>
      split at h
      · next hrun => cases h; exact .apply hloop (not_lt.mp hnow) hrun
      · cases h
  · next hloop => cases h; exact .unlockLoop hloop
  · next hloop => cases h; exact .resume hloop
  · next hloop => cases h; exact .reply hloop

theorem step_cases {a : Action} (h : g.step capacity a = some g') :
    (∃ r, a = .start r ∧ g' = g.begun r) ∨ Move capacity a.fate g g' := by
  cases a with
  | start r => exact .inl ⟨r, rfl, (Option.some.inj h).symm⟩
  | caller i =>
    obtain ⟨c, hi, hc⟩ := Option.bind_eq_some_iff.mp h
    exact .inr (move_of_stepCaller hi hc _)
  | loop now fate => exact .inr (move_of_stepLoop h)

end Inversion

/-! ### The lock and the results -/

/-- Where the call `i` is. -/
def phase (g : GroupCommit) (i : ℕ) : Option Phase :=
  (g.callers[i]?).map Caller.phase

/-- The call has the lock. -/
def Phase.holds : Phase → Bool
  | .locked | .sending _ | .sent => true
  | _ => false

/-- The operation has been sent, and its result not been received. -/
def Phase.queued : Phase → Bool
  | .sent | .waiting => true
  | _ => false

/-- The operation may have been sent. -/
def Phase.past : Phase → Bool
  | .sent | .waiting | .returned _ => true
  | _ => false

def Loop.holds : Loop → Bool
  | .locked _ | .applied _ _ => true
  | _ => false

/-- The operations that `opLoop` has received and not answered. -/
def Loop.batch : Loop → List Queued
  | .idle => []
  | .draining batch | .appending batch | .locking batch | .locked batch | .applied batch _ => batch
  | .replying rest _ => rest

/-- `opLoop` has a batch that it has not applied. -/
def Loop.busy : Loop → Bool
  | .draining _ | .appending _ | .locking _ | .locked _ => true
  | _ => false

/-- The calls whose operations are with `opLoop` or in the channel. -/
def unanswered (g : GroupCommit) : List ℕ :=
  (g.loop.batch ++ g.opCh).map Queued.caller

def answered (g : GroupCommit) : List ℕ :=
  g.results.map Prod.fst

/-- The lock has the holder that thinks it has it, and every operation that was sent is on its way
or answered, once. -/
structure WellFormed (g : GroupCommit) : Prop where
  caller_holds : ∀ i, g.mu = some (.caller i) ↔ ∃ ph, g.phase i = some ph ∧ ph.holds = true
  loop_holds : g.mu = some .loop ↔ g.loop.holds = true
  nodup : (g.answered ++ g.unanswered).Nodup
  unanswered_queued : ∀ i ∈ g.unanswered, ∃ ph, g.phase i = some ph ∧ ph.queued = true
  answered_past : ∀ i ∈ g.answered, ∃ ph, g.phase i = some ph ∧ ph.past = true
  accounted : ∀ i ph, g.phase i = some ph → ph.queued = true → i ∈ g.answered ∨ i ∈ g.unanswered
  batch_ne : g.loop.busy = true → g.loop.batch ≠ []

section Phases

variable {g : GroupCommit} {i : ℕ} {c : Caller}

theorem phase_of_callers (hi : g.callers[i]? = some c) : g.phase i = some c.phase := by
  rw [phase, hi, Option.map_some]

theorem phase_setPhase (hi : g.callers[i]? = some c) (ph : Phase) (j : ℕ) :
    (g.setPhase i c ph).phase j = if j = i then some ph else g.phase j := by
  obtain ⟨hlt, -⟩ := List.getElem?_eq_some_iff.mp hi
  unfold phase setPhase
  rw [List.getElem?_set]
  by_cases h : i = j
  · subst h
    simp [hlt]
  · simp [h, Ne.symm h]

theorem phase_begun (g : GroupCommit) (r : Request) (j : ℕ) :
    (g.begun r).phase j = if j = g.callers.length then some .locking else g.phase j := by
  unfold phase begun
  by_cases h : j = g.callers.length
  · subst h
    simp
  · rw [if_neg h]
    rcases Nat.lt_or_gt_of_ne h with hlt | hgt
    · rw [List.getElem?_append_left hlt]
    · rw [List.getElem?_eq_none (by simp; omega), List.getElem?_eq_none (by omega)]

theorem phase_length (g : GroupCommit) : g.phase g.callers.length = none := by
  rw [phase, List.getElem?_eq_none le_rfl, Option.map_none]

end Phases

theorem wellFormed_opened (e : Engine) (d : Disk) (clock : ℤ) : (opened e d clock).WellFormed where
  caller_holds i := by simp [opened, phase]
  loop_holds := by simp [opened, Loop.holds]
  nodup := List.nodup_nil
  unanswered_queued := nofun
  answered_past := nofun
  accounted := nofun
  batch_ne := nofun

section Preserved

variable {capacity : ℕ} {fate : FileOp → Fate} {g g' : GroupCommit} {i : ℕ} {l : Loop}

/-- Nobody has the lock that somebody else has. -/
theorem WellFormed.eq_of_holds (hg : g.WellFormed) {i j : ℕ} {ph ph' : Phase}
    (hi : g.phase i = some ph) (hj : g.phase j = some ph') (h : ph.holds = true)
    (h' : ph'.holds = true) : i = j := by
  have := (hg.caller_holds i).mpr ⟨ph, hi, h⟩
  rw [(hg.caller_holds j).mpr ⟨ph', hj, h'⟩] at this
  simpa using this.symm

/-- A call that is in the channel or with `opLoop` has been sent. -/
theorem WellFormed.queued_of_unanswered (hg : g.WellFormed) {ph : Phase} (hi : g.phase i = some ph)
    (h : i ∈ g.unanswered) : ph.queued = true := by
  obtain ⟨ph', hi', hq⟩ := hg.unanswered_queued i h
  rw [hi] at hi'
  rwa [Option.some.inj hi']

theorem WellFormed.past_of_answered (hg : g.WellFormed) {ph : Phase} (hi : g.phase i = some ph)
    (h : i ∈ g.answered) : ph.past = true := by
  obtain ⟨ph', hi', hq⟩ := hg.answered_past i h
  rw [hi] at hi'
  rwa [Option.some.inj hi']

/-- A step of a call that does not send. -/
theorem WellFormed.of_caller (hg : g.WellFormed) {ph ph' : Phase} (hi : g.phase i = some ph)
    (hphase : ∀ j, g'.phase j = if j = i then some ph' else g.phase j) (hloop : g'.loop = g.loop)
    (hch : g'.opCh = g.opCh) (hres : g'.results = g.results)
    (hmu : ∀ j, g'.mu = some (.caller j) ↔ ∃ ph, g'.phase j = some ph ∧ ph.holds = true)
    (hmu' : g'.mu = some .loop ↔ g.loop.holds = true)
    (hqueued : ph'.queued = true → ph.queued = true) (hun : i ∈ g.unanswered → ph'.queued = true)
    (han : i ∈ g.answered → ph'.past = true) :
    g'.WellFormed := by
  have hunans : g'.unanswered = g.unanswered := by rw [unanswered, hloop, hch, unanswered]
  have hans : g'.answered = g.answered := by rw [answered, hres, answered]
  refine ⟨hmu, by rw [hloop]; exact hmu', by rw [hunans, hans]; exact hg.nodup, fun j hj => ?_,
    fun j hj => ?_, fun j ph₁ hj hq => ?_, by rw [hloop]; exact hg.batch_ne⟩
  · rw [hunans] at hj
    rw [hphase]
    split
    · next heq => exact ⟨ph', rfl, hun (heq ▸ hj)⟩
    · exact hg.unanswered_queued j hj
  · rw [hans] at hj
    rw [hphase]
    split
    · next heq => exact ⟨ph', rfl, han (heq ▸ hj)⟩
    · exact hg.answered_past j hj
  · rw [hans, hunans]
    rw [hphase] at hj
    split at hj
    · next heq =>
      cases hj
      exact heq ▸ hg.accounted i ph hi (hqueued hq)
    · exact hg.accounted j ph₁ hj hq

/-- A step of `opLoop`: operations only move on. -/
theorem WellFormed.of_loop (hg : g.WellFormed) (hcallers : g'.callers = g.callers)
    (hmu : ∀ j, g'.mu = some (.caller j) ↔ g.mu = some (.caller j))
    (hmu' : g'.mu = some .loop ↔ g'.loop.holds = true)
    (hall : g'.answered ++ g'.unanswered = g.answered ++ g.unanswered)
    (hun : ∀ i ∈ g'.unanswered, i ∈ g.unanswered)
    (hne : g'.loop.busy = true → g'.loop.batch ≠ []) : g'.WellFormed := by
  have hphase : ∀ j, g'.phase j = g.phase j := fun j => by rw [phase, hcallers, phase]
  have hmem : ∀ j, j ∈ g'.answered ∨ j ∈ g'.unanswered ↔ j ∈ g.answered ∨ j ∈ g.unanswered :=
    fun j => by rw [← List.mem_append, hall, List.mem_append]
  refine ⟨fun j => ?_, hmu', by rw [hall]; exact hg.nodup, fun j hj => ?_, fun j hj => ?_,
    fun j ph hj hq => ?_, hne⟩
  · rw [hmu, hphase]
    exact hg.caller_holds j
  · rw [hphase]
    exact hg.unanswered_queued j (hun j hj)
  · rw [hphase]
    rcases (hmem j).mp (.inl hj) with h | h
    · exact hg.answered_past j h
    · obtain ⟨ph, hph, hq⟩ := hg.unanswered_queued j h
      exact ⟨ph, hph, by cases ph <;> simp_all [Phase.queued, Phase.past]⟩
  · rw [hphase] at hj
    exact (hmem j).mpr (hg.accounted j ph hj hq)

/-- A step of `opLoop` that answers nobody. -/
theorem WellFormed.of_batch (hg : g.WellFormed) (hl : g.loop = l)
    (hcallers : g'.callers = g.callers)
    (hmu : ∀ j, g'.mu = some (.caller j) ↔ g.mu = some (.caller j))
    (hmu' : g'.mu = some .loop ↔ g'.loop.holds = true) (hres : g'.results = g.results)
    (hbatch : g'.loop.batch ++ g'.opCh = l.batch ++ g.opCh)
    (hne : g'.loop.busy = true → g'.loop.batch ≠ []) : g'.WellFormed := by
  have hun : g'.unanswered = g.unanswered := by rw [unanswered, hbatch, ← hl, unanswered]
  refine hg.of_loop hcallers hmu hmu' ?_ (fun i hi => hun ▸ hi) hne
  rw [hun, answered, hres, answered]

/-- A step of `opLoop` that leaves the lock alone as well. -/
theorem WellFormed.of_moved (hg : g.WellFormed) (hl : g.loop = l)
    (hcallers : g'.callers = g.callers) (hmu : g'.mu = g.mu) (hres : g'.results = g.results)
    (hbatch : g'.loop.batch ++ g'.opCh = l.batch ++ g.opCh) (hholds : g'.loop.holds = l.holds)
    (hne : g'.loop.busy = true → g'.loop.batch ≠ []) : g'.WellFormed := by
  refine hg.of_batch hl hcallers (fun j => by rw [hmu]) ?_ hres hbatch hne
  rw [hmu, hholds, ← hl]
  exact hg.loop_holds

theorem WellFormed.ne_nil_of_busy (hg : g.WellFormed) (hl : g.loop = l) (hbusy : l.busy = true)
    : l.batch ≠ [] := by
  subst hl
  exact hg.batch_ne hbusy

/-- The lock as the calls see it, when the call `i` goes on. -/
theorem WellFormed.holds_iff (hg : g.WellFormed) {ph' : Phase} {mu' : Option Holder}
    (hphase : ∀ j, g'.phase j = if j = i then some ph' else g.phase j)
    (hself : mu' = some (.caller i) ↔ ph'.holds = true)
    (hother : ∀ j, j ≠ i → (mu' = some (.caller j) ↔ g.mu = some (.caller j))) (j : ℕ) :
    mu' = some (.caller j) ↔ ∃ ph, g'.phase j = some ph ∧ ph.holds = true := by
  rw [hphase]
  by_cases hj : j = i
  · subst hj
    rw [if_pos rfl, hself]
    exact ⟨fun h => ⟨ph', rfl, h⟩, fun ⟨ph, hph, h⟩ => by rwa [Option.some.inj hph]⟩
  · rw [if_neg hj, hother j hj]
    exact hg.caller_holds j

/-- The step of a call that sends. -/
theorem WellFormed.of_send (hg : g.WellFormed) {op : EngineOp} (hi : g.phase i = some (.sending op))
    (hphase : ∀ j, g'.phase j = if j = i then some .sent else g.phase j) (hloop : g'.loop = g.loop)
    (hmu : g'.mu = g.mu) (hunans : g'.unanswered = g.unanswered ++ [i])
    (hres : g'.results = g.results) : g'.WellFormed := by
  have hans : g'.answered = g.answered := by rw [answered, hres, answered]
  have hnew : i ∉ g.answered ++ g.unanswered := fun h => by
    rcases List.mem_append.mp h with h | h
    · cases hg.past_of_answered hi h
    · cases hg.queued_of_unanswered hi h
  refine ⟨fun j => ?_, by rw [hloop, hmu]; exact hg.loop_holds, ?_, fun j hj => ?_, fun j hj => ?_,
    fun j ph hj hq => ?_, by rw [hloop]; exact hg.batch_ne⟩
  · exact hg.holds_iff hphase
      ⟨fun _ => rfl, fun _ => hmu.trans ((hg.caller_holds i).mpr ⟨_, hi, rfl⟩)⟩
      (fun j _ => by rw [hmu]) j
  · -- a call that is about to send has not sent before
    rw [hunans, hans, ← List.append_assoc]
    refine List.nodup_append.mpr ⟨hg.nodup, List.nodup_singleton i, fun a ha b hb heq => hnew ?_⟩
    rwa [heq, List.mem_singleton.mp hb] at ha
  · rw [hphase]
    split
    · exact ⟨.sent, rfl, rfl⟩
    · next hne =>
      rw [hunans, List.mem_append, List.mem_singleton] at hj
      exact hg.unanswered_queued j (hj.resolve_right hne)
  · rw [hphase]
    split
    · exact ⟨.sent, rfl, rfl⟩
    · exact hg.answered_past j (hans ▸ hj)
  · rw [hans, hunans, List.mem_append, List.mem_singleton]
    rw [hphase] at hj
    split at hj
    · next heq => exact .inr (.inr heq)
    · exact (hg.accounted j ph hj hq).imp id .inl

theorem WellFormed.begun (hg : g.WellFormed) (r : Request) : (g.begun r).WellFormed := by
  have hphase := phase_begun g r
  have hnone := phase_length g
  refine ⟨fun i => ?_, hg.loop_holds, hg.nodup, fun i hi => ?_, fun i hi => ?_,
    fun i ph hi hq => ?_,
    hg.batch_ne⟩
  · rw [hphase]
    have := hg.caller_holds i
    grind [Phase.holds, GroupCommit.begun]
  · rw [hphase]
    have := hg.unanswered_queued i hi
    grind
  · rw [hphase]
    have := hg.answered_past i hi
    grind
  · rw [hphase] at hi
    have := hg.accounted i
    grind [Phase.queued, answered, unanswered, GroupCommit.begun]

theorem Move.wellFormed (h : Move capacity fate g g') (hg : g.WellFormed) : g'.WellFormed := by
  cases h with
  -- the calls: before they send, they are neither in the channel nor answered
  | lock hi hph hmu =>
    have hphase := phase_setPhase hi .locked
    have hold := hph ▸ phase_of_callers hi
    refine hg.of_caller hold hphase rfl rfl rfl ?_ ?_ (by simp [Phase.queued])
      (fun h => nomatch hg.queued_of_unanswered hold h)
      fun h => nomatch hg.past_of_answered hold h
    · exact hg.holds_iff hphase (by simp [Phase.holds]) fun j hj => by simp [hmu, Ne.symm hj]
    · rw [← hg.loop_holds]
      simp [hmu]
  | @number i c hi hph =>
    have hphase := phase_setPhase hi (.sending (c.request.op g.engine.nextSeq))
    have hold := hph ▸ phase_of_callers hi
    have hmu := (hg.caller_holds i).mpr ⟨_, hold, rfl⟩
    refine hg.of_caller hold hphase rfl rfl rfl ?_ hg.loop_holds (by simp [Phase.queued])
      (fun h => nomatch hg.queued_of_unanswered hold h)
      fun h => nomatch hg.past_of_answered hold h
    exact hg.holds_iff hphase (by simp [Phase.holds, GroupCommit.number, setPhase, hmu])
      fun j hj => Iff.rfl
  | @miss i c hi hph err =>
    have hphase := phase_setPhase hi (.returned (some err))
    have hold := hph ▸ phase_of_callers hi
    have hmu := (hg.caller_holds i).mpr ⟨_, hold, rfl⟩
    refine hg.of_caller hold hphase rfl rfl rfl ?_ ?_ (by simp [Phase.queued])
      (fun h => nomatch hg.queued_of_unanswered hold h)
      fun _ => rfl
    · exact hg.holds_iff hphase (by simp [Phase.holds]) fun j hj => by simp [hmu, Ne.symm hj]
    · rw [← hg.loop_holds]
      simp [hmu]
  | send hi hph hroom =>
    exact hg.of_send (hph ▸ phase_of_callers hi) (phase_setPhase hi .sent) rfl rfl
      (by simp [unanswered, setPhase]) rfl
  | @unlock i c hi hph =>
    have hphase := phase_setPhase hi .waiting
    have hold := hph ▸ phase_of_callers hi
    have hmu := (hg.caller_holds i).mpr ⟨_, hold, rfl⟩
    refine hg.of_caller hold hphase rfl rfl rfl ?_ ?_ (fun _ => rfl) (fun _ => rfl) fun _ => rfl
    · exact hg.holds_iff hphase (by simp [Phase.holds]) fun j hj => by simp [hmu, Ne.symm hj]
    · rw [← hg.loop_holds]
      simp [hmu]
  | @finish i c hi hph result hres =>
    have hphase := phase_setPhase hi (.returned result)
    have hold := hph ▸ phase_of_callers hi
    have hmu : g.mu ≠ some (.caller i) := fun h => by
      obtain ⟨ph, hph, hholds⟩ := (hg.caller_holds i).mp h
      rw [hold] at hph
      rw [← Option.some.inj hph] at hholds
      cases hholds
    refine hg.of_caller hold hphase rfl rfl rfl ?_ hg.loop_holds (by simp [Phase.queued])
      (fun h => absurd h ((List.nodup_append.mp hg.nodup).2.2 i hres i · rfl)) fun _ => rfl
    exact hg.holds_iff hphase (by simp [Phase.holds, setPhase, hmu]) fun j hj => Iff.rfl
  -- `opLoop`: what is in the channel and in the batch together stays the same until it answers
  | receive hloop hch =>
    exact hg.of_moved hloop rfl rfl rfl (by rw [hch]; rfl) rfl fun _ => List.cons_ne_nil _ _
  | drain hloop hch =>
    exact hg.of_moved hloop rfl rfl rfl (by rw [hch]; simp [Loop.batch]) rfl (by simp [Loop.batch])
  | drained hloop | append hloop hrun =>
    have hne := hg.ne_nil_of_busy hloop rfl
    exact hg.of_moved hloop rfl rfl rfl rfl rfl fun _ => hne
  | appendFails d hloop hrun | apply hloop hnow hrun | resume hloop =>
    exact hg.of_moved hloop rfl rfl rfl rfl rfl nofun
  | lockLoop hloop hmu =>
    have hne := hg.ne_nil_of_busy hloop rfl
    exact hg.of_batch hloop rfl (fun _ => by simp [hmu]) (by simp [Loop.holds]) rfl rfl fun _ => hne
  | unlockLoop hloop =>
    have hmu : g.mu = some .loop := hg.loop_holds.mpr (by rw [hloop]; rfl)
    exact hg.of_batch hloop rfl (fun _ => by simp [hmu]) (by simp [Loop.holds]) rfl rfl nofun
  | reply hloop =>
    refine hg.of_loop rfl (fun _ => Iff.rfl) ?_ ?_ ?_ nofun
    · rw [hg.loop_holds, hloop]
      rfl
    · simp [answered, unanswered, hloop, Loop.batch]
    · intro i hi
      rw [unanswered, hloop]
      exact List.mem_cons_of_mem _ hi

/-- **The lock and the results are in order** in every state. -/
theorem wellFormed_of_runs {ok : GroupCommit → Action → Prop} (h : Runs (step capacity) ok g g')
    (hg : g.WellFormed) : g'.WellFormed :=
  h.invariant (fun _ _ _ hg _ hstep => by
    rcases step_cases hstep with ⟨r, -, rfl⟩ | hmove
    · exact hg.begun r
    · exact hmove.wellFormed hg) hg

end Preserved

/-! ### Calls in progress -/

def Phase.inProgress : Phase → Bool
  | .returned _ => false
  | _ => true

/-- The calls that have started and not returned. -/
def active (g : GroupCommit) : List ℕ :=
  (List.range g.callers.length).filter fun i => (g.phase i).any Phase.inProgress

/-- Some call is in progress, and neither a call nor `opLoop` can take a step. -/
def Stuck (capacity : ℕ) (g : GroupCommit) : Prop :=
  g.active ≠ [] ∧ (∀ i, g.step capacity (.caller i) = none) ∧
    ∀ now fate, g.step capacity (.loop now fate) = none

/-- At most `n` calls are in progress at a time. -/
def AtMost (n : ℕ) (g : GroupCommit) : Action → Prop
  | .start _ => g.active.length < n
  | _ => True

section Active

variable {capacity : ℕ} {fate : FileOp → Fate} {g g' : GroupCommit}

theorem mem_active {i : ℕ} : i ∈ g.active ↔ ∃ ph, g.phase i = some ph ∧ ph.inProgress = true := by
  rw [active, List.mem_filter, List.mem_range, Option.any_eq_true]
  refine ⟨fun h => h.2, fun h => ⟨?_, h⟩⟩
  obtain ⟨ph, hph, -⟩ := h
  obtain ⟨c, hc, -⟩ := Option.map_eq_some_iff.mp hph
  exact (List.getElem?_eq_some_iff.mp hc).1

theorem nodup_active (g : GroupCommit) : g.active.Nodup :=
  List.nodup_range.filter _

theorem length_active_le (g : GroupCommit) : g.active.length ≤ g.callers.length := by
  exact (List.length_filter_le _ _).trans (List.length_range).le

theorem active_subset_of_callers (h : g'.callers = g.callers) : g'.active ⊆ g.active := by
  unfold active phase
  rw [h]
  exact fun _ hi => hi

/-- A call that goes on was in progress before. -/
theorem active_subset_of_phase {i : ℕ} {ph ph' : Phase} (hi : g.phase i = some ph)
    (hprog : ph.inProgress = true)
    (hphase : ∀ j, g'.phase j = if j = i then some ph' else g.phase j) : g'.active ⊆ g.active := by
  intro j hj
  obtain ⟨ph₁, hph₁, h⟩ := mem_active.mp hj
  rw [hphase] at hph₁
  split at hph₁
  · next heq => exact mem_active.mpr ⟨ph, heq ▸ hi, hprog⟩
  · exact mem_active.mpr ⟨ph₁, hph₁, h⟩

/-- Only a new call adds to the calls in progress. -/
theorem Move.active_subset (h : Move capacity fate g g') : g'.active ⊆ g.active := by
  cases h with
  | lock hi hph _ | number hi hph | miss hi hph _ | send hi hph _ | unlock hi hph
  | finish hi hph _ _ =>
    exact active_subset_of_phase (phase_of_callers hi) (by rw [hph]; rfl) (phase_setPhase hi _)
  | receive _ _ | drain _ _ | drained _ | append _ _ | appendFails _ _ _ | lockLoop _ _
  | apply _ _ _ | unlockLoop _ | reply _ | resume _ => exact active_subset_of_callers rfl

theorem active_begun_subset (g : GroupCommit) (r : Request) :
    (g.begun r).active ⊆ g.callers.length :: g.active := by
  intro j hj
  obtain ⟨ph, hph, hprog⟩ := mem_active.mp hj
  rw [phase_begun] at hph
  split at hph
  · next heq => exact heq ▸ List.mem_cons_self
  · exact List.mem_cons_of_mem _ (mem_active.mpr ⟨ph, hph, hprog⟩)

theorem length_active_of_runs {n : ℕ} (h : Runs (step capacity) (AtMost n) g g')
    (hg : g.active.length ≤ n) : g'.active.length ≤ n := by
  refine h.invariant (fun g a g' (hg : g.active.length ≤ n) hok hstep => ?_) hg
  rcases step_cases hstep with ⟨r, rfl, rfl⟩ | hmove
  · have hlt : g.active.length < n := hok
    exact ((nodup_active _).subperm (active_begun_subset g r)).length_le.trans hlt
  · exact ((nodup_active _).subperm hmove.active_subset).length_le.trans hg

end Active

/-! ### Progress -/

section Progress

variable {capacity : ℕ} {g : GroupCommit} {i : ℕ}

theorem step_caller_eq (capacity : ℕ) {ph : Phase} (hi : g.phase i = some ph) :
    ∃ c : Caller, c.phase = ph ∧ g.step capacity (.caller i) = g.stepCaller capacity i c := by
  obtain ⟨c, hc, rfl⟩ := Option.map_eq_some_iff.mp hi
  exact ⟨c, rfl, by rw [step, hc, Option.bind_some]⟩

/-- A call that has the lock can go on, unless it has to wait for room in the channel. -/
theorem holder_goes_on {ph : Phase} (hi : g.phase i = some ph) (hholds : ph.holds = true)
    (hroom : g.opCh.length < capacity ∨ ∀ op, ph ≠ .sending op) :
    g.step capacity (.caller i) ≠ none := by
  obtain ⟨c, rfl, hstep⟩ := step_caller_eq capacity hi
  rw [hstep]
  unfold stepCaller
  cases hph : c.phase with
  | locked =>
    cases hreq : c.request with
    | put => simp
    | delete now key => cases hlook : g.engine.lookupLocked now key <;> simp [hlook]
  | sending op =>
    have hlt := hroom.resolve_right fun h => h op hph
    simp [hlt]
  | sent => simp
  | locking | waiting | returned => exact absurd hholds (by simp [hph, Phase.holds])

/-- `opLoop` goes on, unless there is nothing to receive or the lock is taken. -/
theorem loop_waits (h : ∀ now fate, g.step capacity (.loop now fate) = none) :
    (g.loop = .idle ∧ g.opCh = []) ∨ ∃ batch, g.loop = .locking batch ∧ g.mu ≠ none := by
  have hstep : g.stepLoop g.clock (fun _ => .done) = none := h g.clock fun _ => .done
  unfold stepLoop at hstep
  cases hloop : g.loop with
  | idle =>
    rw [hloop] at hstep
    cases hch : g.opCh with
    | nil => exact .inl ⟨rfl, rfl⟩
    | cons q rest => rw [hch] at hstep; cases hstep
  | draining batch =>
    rw [hloop] at hstep
    cases hch : g.opCh <;> rw [hch] at hstep <;> cases hstep
  | appending batch =>
    rw [hloop] at hstep
    simp only [Prog.run_eq_complete (fun _ => rfl)] at hstep
    cases hok : ((appendBatch ((ops batch).map EngineOp.record)).complete fileSystem g.disk).1 <;>
      rw [hok] at hstep <;> cases hstep
  -- the one place where it may have to wait for someone else
  | locking batch =>
    rw [hloop] at hstep
    exact .inr ⟨batch, rfl, fun hmu => by simp [hmu] at hstep⟩
  | locked batch =>
    rw [hloop] at hstep
    simp [Prog.run_eq_complete (fun _ => rfl)] at hstep
  | applied batch err => rw [hloop] at hstep; cases hstep
  | replying rest err =>
    rw [hloop] at hstep
    cases rest <;> cases hstep

/-- The calls in the channel, those with `opLoop` and one that has the lock are different. -/
theorem WellFormed.length_le_active (hg : g.WellFormed) {op : EngineOp}
    (hi : g.phase i = some (.sending op)) :
    g.loop.batch.length + g.opCh.length + 1 ≤ g.active.length := by
  have hnot : i ∉ g.unanswered := fun h =>
    nomatch hg.queued_of_unanswered hi h
  have hnodup : (i :: g.unanswered).Nodup :=
    List.nodup_cons.mpr ⟨hnot, (List.nodup_append.mp hg.nodup).2.1⟩
  have hsub : i :: g.unanswered ⊆ g.active := by
    intro j hj
    rcases List.mem_cons.mp hj with rfl | hj
    · exact mem_active.mpr ⟨_, hi, rfl⟩
    · obtain ⟨ph, hph, hq⟩ := hg.unanswered_queued j hj
      exact mem_active.mpr ⟨ph, hph, by cases ph <;> simp_all [Phase.queued, Phase.inProgress]⟩
  have hlen := (hnodup.subperm hsub).length_le
  rw [List.length_cons, unanswered, List.length_map, List.length_append] at hlen
  exact hlen

/-- **With at most as many calls as the channel has room for and one more, something moves.** -/
theorem WellFormed.not_stuck (hg : g.WellFormed) (hcap : 0 < capacity)
    (hactive : g.active.length ≤ capacity + 1) : ¬g.Stuck capacity := by
  rintro ⟨hne, hcallers, hloop⟩
  rcases loop_waits hloop with ⟨hidle, hch⟩ | ⟨batch, hlocking, hmu⟩
  · -- nobody has the lock, so the call is at `Lock`, or its result is there
    have hmu : g.mu = none := by
      cases hmu : g.mu with
      | none => rfl
      | some holder =>
        cases holder with
        | loop => exact absurd (hg.loop_holds.mp hmu) (by simp [hidle, Loop.holds])
        | caller j =>
          obtain ⟨ph, hph, hholds⟩ := (hg.caller_holds j).mp hmu
          exact absurd (hcallers j) (holder_goes_on hph hholds (.inl (by simpa [hch] using hcap)))
    obtain ⟨i, hi⟩ := List.exists_mem_of_ne_nil _ hne
    obtain ⟨ph, hph, hprog⟩ := mem_active.mp hi
    have hholds : ph.holds = false := by
      by_contra h
      rw [Bool.not_eq_false] at h
      rw [(hg.caller_holds i).mpr ⟨ph, hph, h⟩] at hmu
      cases hmu
    obtain ⟨c, rfl, hstep⟩ := step_caller_eq capacity hph
    have hnone := hcallers i
    rw [hstep, stepCaller] at hnone
    cases hcase : c.phase with
    | locking => simp [hcase, hmu] at hnone
    | waiting =>
      have hanswered : i ∈ g.answered := by
        refine (hg.accounted i _ hph (by simp [hcase, Phase.queued])).resolve_right fun h => ?_
        simp [unanswered, hidle, hch, Loop.batch] at h
      obtain ⟨r, hr, rfl⟩ := List.mem_map.mp hanswered
      simp only [hcase, Option.map_eq_none_iff, List.find?_eq_none] at hnone
      exact hnone r hr (by simp)
    | locked | sending op | sent => simp [hcase, Phase.holds] at hholds
    | returned result => simp [hcase, Phase.inProgress] at hprog
  · -- a call has the lock, and it waits for room in the channel
    obtain ⟨holder, hmu⟩ := Option.ne_none_iff_exists'.mp hmu
    cases holder with
    | loop => exact absurd (hg.loop_holds.mp hmu) (by simp [hlocking, Loop.holds])
    | caller j =>
      obtain ⟨ph, hph, hholds⟩ := (hg.caller_holds j).mp hmu
      have hstuck : ¬(g.opCh.length < capacity ∨ ∀ op, ph ≠ .sending op) := fun hroom =>
        holder_goes_on hph hholds hroom (hcallers j)
      rw [not_or, not_forall] at hstuck
      obtain ⟨hfull, op, hop⟩ := hstuck
      rw [not_not.mp hop] at hph
      have hlen := hg.length_le_active hph
      have hbatch := hg.batch_ne (by simp [hlocking, Loop.busy])
      have hpos := List.length_pos_of_ne_nil hbatch
      omega

end Progress

/-! ### A jam -/

/-- A call of `Put`, up to its wait. -/
def afterPut (g : GroupCommit) (r : Request) : GroupCommit :=
  { g with
    callers := g.callers ++ [⟨r, .waiting⟩]
    opCh := g.opCh ++ [⟨g.callers.length, r.op g.engine.nextSeq⟩]
    engine := { g.engine with nextSeq := g.engine.nextSeq + 1 }
    enqueued := g.enqueued ++ [⟨g.callers.length, r.op g.engine.nextSeq⟩] }

/-- `opLoop` is at `Lock` with a batch, `n` operations are in the channel, and every call waits for
its result. -/
structure Jammed (n : ℕ) (g : GroupCommit) : Prop where
  mu : g.mu = none
  loop : ∃ batch, g.loop = .locking batch
  results : g.results = []
  opCh : g.opCh.length = n
  callers : g.callers.length = n + 1
  waiting : ∀ c ∈ g.callers, c.phase = .waiting

section Jam

variable {capacity n N : ℕ} {g : GroupCommit}

/-- The put that jams. -/
def filler : Request := .put 0 [] [] [] 0

theorem runs_begun (hN : g.callers.length < N) (r : Request) :
    Runs (step capacity) (AtMost N) g (g.begun r) :=
  Runs.single (a := .start r) ((length_active_le g).trans_lt hN) rfl

theorem runs_afterPut (hmu : g.mu = none) (hroom : g.opCh.length < capacity)
    (hN : g.callers.length < N) :
    Runs (step capacity) (AtMost N) g (g.afterPut filler) := by
  -- lock, number, send, unlock
  have hexec : exec (step capacity) (g.begun filler)
      (List.replicate 4 (.caller g.callers.length)) = some (g.afterPut filler) := by
    simp [exec, List.replicate, step, stepCaller, begun, setPhase, number, afterPut, filler, hmu,
      hroom]
  refine (runs_begun hN filler).trans (Runs.of_exec_all (fun a ha s => ?_) hexec)
  rw [List.eq_of_mem_replicate ha]
  trivial

theorem Jammed.afterPut (hg : g.Jammed n) : (g.afterPut filler).Jammed (n + 1) where
  mu := hg.mu
  loop := hg.loop
  results := hg.results
  opCh := by simp [GroupCommit.afterPut, hg.opCh]
  callers := by simp [GroupCommit.afterPut, hg.callers]
  waiting := List.forall_mem_append.mpr ⟨hg.waiting, List.forall_mem_singleton.mpr rfl⟩

/-- The first call's operation is received while no other is there. -/
theorem jammed_zero (e : Engine) (d : Disk) (clock : ℤ) (hcap : 0 < capacity) (hN : 0 < N) :
    ∃ g, Runs (step capacity) (AtMost N) (opened e d clock) g ∧ g.Jammed 0 := by
  have hput : Runs (step capacity) (AtMost N) (opened e d clock)
      ((opened e d clock).afterPut filler) :=
    runs_afterPut rfl hcap hN
  -- receive, find the channel empty, append
  have hexec : ∃ g, exec (step capacity) ((opened e d clock).afterPut filler)
      (List.replicate 3 (.loop clock fun _ => .done)) = some g ∧ g.Jammed 0 :=
    ⟨_, rfl, ⟨rfl, ⟨_, rfl⟩, rfl, rfl, rfl, fun c hc => by rw [List.mem_singleton.mp hc]⟩⟩
  obtain ⟨g, hg, hjam⟩ := hexec
  refine ⟨g, hput.trans (Runs.of_exec_all (fun a ha s => ?_) hg), hjam⟩
  rw [List.eq_of_mem_replicate ha]
  trivial

/-- The others fill the channel. -/
theorem exists_jammed (e : Engine) (d : Disk) (clock : ℤ) (hn : n ≤ capacity) (hcap : 0 < capacity)
    (hN : n < N) : ∃ g, Runs (step capacity) (AtMost N) (opened e d clock) g ∧ g.Jammed n := by
  induction n with
  | zero => exact jammed_zero e d clock hcap hN
  | succ n ih =>
    obtain ⟨g, hrun, hjam⟩ := ih (by omega) (by omega)
    have hput : Runs (step capacity) (AtMost N) g (g.afterPut filler) :=
      runs_afterPut hjam.mu (by rw [hjam.opCh]; omega) (by rw [hjam.callers]; omega)
    exact ⟨_, hrun.trans hput, hjam.afterPut⟩

/-- **A jam with a full channel is a deadlock once one more call has the lock.** -/
theorem Jammed.exists_stuck (hg : g.Jammed capacity) (hN : capacity + 1 < N) :
    ∃ g', Runs (step capacity) (AtMost N) g g' ∧ g'.Stuck capacity := by
  have hlen : g.callers.length < N := by rw [hg.callers]; exact hN
  have hexec : ∃ g', exec (step capacity) (g.begun filler)
      (List.replicate 2 (.caller g.callers.length)) = some g' ∧ g'.opCh = g.opCh ∧
      g'.loop = g.loop ∧ g'.results = [] ∧ g'.mu = some (.caller g.callers.length) ∧
      g'.callers = g.callers ++ [⟨filler, .sending (filler.op g.engine.nextSeq)⟩] := by
    simp [exec, List.replicate, step, stepCaller, begun, setPhase, number, filler, hg.mu,
      hg.results]
  obtain ⟨g', hexec, hch, hloop, hres, hmu, hcallers⟩ := hexec
  refine ⟨g', (runs_begun hlen filler).trans (Runs.of_exec_all (fun a ha s => ?_) hexec),
    ?_, ?_, ?_⟩
  · rw [List.eq_of_mem_replicate ha]
    trivial
  · have hphase : g'.phase g.callers.length = some (.sending (filler.op g.engine.nextSeq)) := by
      rw [phase, hcallers, List.getElem?_concat_length, Option.map_some]
    exact List.ne_nil_of_mem (mem_active.mpr ⟨_, hphase, rfl⟩)
  · -- the new call finds the channel full, and the others have no result
    intro i
    rw [step, Option.bind_eq_none_iff]
    intro c hc
    rcases List.mem_append.mp (hcallers ▸ List.mem_of_getElem? hc) with hmem | hmem
    · simp [stepCaller, hg.waiting c hmem, hres]
    · rw [List.mem_singleton.mp hmem]
      simp [stepCaller, hch, hg.opCh]
  · intro now fate
    obtain ⟨batch, hbatch⟩ := hg.loop
    simp [step, stepLoop, hloop, hbatch, hmu]

end Jam

/-- **Deadlock freedom**, for a channel of any capacity: something can always move just if no more
calls are in progress at a time than fill the channel and one more. -/
theorem not_stuck_iff (e : Engine) (d : Disk) (clock : ℤ) {capacity : ℕ} (hcap : 0 < capacity)
    (N : ℕ) :
    (∀ g, Runs (step capacity) (AtMost N) (opened e d clock) g → ¬g.Stuck capacity) ↔
      N ≤ capacity + 1 := by
  constructor
  · -- one more call than that, and a jam with a full channel can be reached
    intro h
    by_contra hN
    obtain ⟨g, hrun, hjam⟩ := exists_jammed e d clock (N := N) le_rfl hcap (by omega)
    obtain ⟨g', hrun', hstuck⟩ := hjam.exists_stuck (N := N) (by omega)
    exact h g' (hrun.trans hrun') hstuck
  · intro hN g hrun
    have hactive : g.active.length ≤ N := length_active_of_runs hrun (Nat.zero_le N)
    exact (wellFormed_of_runs hrun (wellFormed_opened e d clock)).not_stuck hcap (hactive.trans hN)

/-- **Group commit never gets stuck** just if at most 1025 calls are in progress at a time. -/
theorem group_commit_never_stuck_iff (e : Engine) (d : Disk) (clock : ℤ) (N : ℕ) :
    (∀ g, Runs (step opChCapacity) (AtMost N) (opened e d clock) g → ¬g.Stuck opChCapacity) ↔
      N ≤ 1025 :=
  not_stuck_iff e d clock (by decide) N

/-- With 1026 calls on a new engine a deadlock is reached: `opLoop` is at `Lock` with the first,
1024 fill the channel, and the last waits for room with the lock held. -/
theorem group_commit_gets_stuck : ∃ g, Runs (step opChCapacity) (AtMost 1026)
        (opened (openEngine .empty ⟨4194304, 4⟩) .empty 0) g ∧
      g.Stuck opChCapacity := by
  have hpos : 0 < opChCapacity := by decide
  obtain ⟨g, hrun, hjam⟩ := exists_jammed (openEngine .empty ⟨4194304, 4⟩) .empty 0 (N := 1026)
    (le_refl opChCapacity) hpos (by decide)
  obtain ⟨g', hrun', hstuck⟩ := hjam.exists_stuck (N := 1026) (by decide)
  exact ⟨g', hrun.trans hrun', hstuck⟩

end GroupCommit
end Storage
end BoilerPulse
