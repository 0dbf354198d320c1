import BoilerPulse.Framework.Linearizable
import BoilerPulse.Storage.Contract
import BoilerPulse.Storage.GroupOrder

/-!
# Storage: what the callers of the engine see

Group commit with the calls of `Get` next to those of `Put` and `Delete`, and with the history of
all of them (`engine.go`). `Get` takes the lock for reading. Its lookup is one step, at a moment at
which no writer has the lock.

`Delete` looks the key up in what has been applied, and what it enqueues is applied behind all that
has been enqueued before. `Queue` says what the enqueued operations are worth: written one after the
other they are the calls of an engine that serves one call at a time, with the numbers that such an
engine gives, as long as every `Delete` still finds its key when its turn comes.
-/

namespace BoilerPulse
namespace Storage

open Framework

/-! ### Requests as calls -/

/-- The call of an engine that serves one call at a time. -/
def Request.call : Request → Call
  | .put now key value consistency ttl => .put now now key value consistency ttl
  | .delete now key => .delete now now key

/-- There is something to delete. -/
def Request.Found (m : Layer Key Entry) : Request → Prop
  | .put _ _ _ _ _ => True
  | .delete now key => ∃ e, checked now (m key) = .ok e

section Serve

variable {t : ℤ} {st : MemStore} {m : Model}

/-- A request that finds its key does what its operation says. -/
theorem serve_of_found (hst : memStore.Stands t st m) {r : Request} (hr : r.Found m.map) :
    (memStore.serve st r.call).2 = .wrote none ∧ memStore.Stands t (memStore.serve st r.call).1
        (m.write (r.op m.next).key (r.op m.next).entry) := by
  cases r with
  | put now key value consistency ttl =>
    obtain ⟨hres, hst'⟩ := @StorageEngine.put_spec _ memStore now t st m ttl key value consistency
      hst trivial trivial
    exact ⟨congrArg Reply.wrote hres, hst'⟩
  | delete now key =>
    obtain ⟨e, he⟩ := hr
    obtain ⟨hres, hst'⟩ := @StorageEngine.delete_spec _ memStore now t st m hst hst key
    have hdel : m.delete now key = (m.write key (.deleted m.next), none) := by
      rw [Model.delete, he]
    rw [hdel] at hres hst'
    exact ⟨congrArg Reply.wrote hres, hst'⟩

/-- A `Delete` that finds nothing changes nothing. -/
theorem serve_of_missed (hst : memStore.Stands t st m) {now : ℤ} {key : Key} {err : Error}
    (hmiss : checked now (m.map key) = .error err) :
    (memStore.serve st (.delete now now key)).2 = .wrote (some err) ∧
      memStore.Stands t (memStore.serve st (.delete now now key)).1 m := by
  obtain ⟨hres, hst'⟩ := @StorageEngine.delete_spec _ memStore now t st m hst hst key
  have hdel : m.delete now key = (m, some err) := by rw [Model.delete, hmiss]
  rw [hdel] at hres hst'
  exact ⟨congrArg Reply.wrote hres, hst'⟩

theorem serve_get (hst : memStore.Stands t st m) (now : ℤ) (key : Key) :
    memStore.serve st (.get now key) = (st, .got (checked now (m.map key))) :=
  congrArg (fun res => (st, Reply.got res)) (@StorageEngine.get_eq _ memStore now st m hst key)

end Serve

open GroupCommit

/-- The model with operations written to it. -/
def Model.writeAll (m : Model) (qs : List Queued) : Model :=
  ⟨writes m.map (entries qs), m.next + qs.length⟩

theorem Model.writeAll_cons (m : Model) (q : Queued) (qs : List Queued) :
    m.writeAll (q :: qs) = (m.write q.op.key q.op.entry).writeAll qs := by
  have hnext : m.next + (qs.length + 1) = m.next + 1 + qs.length := by omega
  exact congrArg (Model.mk _) hnext

theorem Model.writeAll_append (m : Model) (qs rs : List Queued) :
    m.writeAll (qs ++ rs) = (m.writeAll qs).writeAll rs := by
  rw [writeAll, entries_append, writes_append, List.length_append, ← Nat.add_assoc]
  rfl

namespace GroupCommit

/-! ### What a step of a call does -/

/-- The request of the call `i`. -/
def requestOf (g : GroupCommit) (i : ℕ) : Option Request :=
  (g.callers[i]?).map Caller.request

/-- The steps of a call, with what it has seen. -/
inductive CallerStep (g : GroupCommit) (i : ℕ) (c : Caller) : GroupCommit → Prop
  | lock (hphase : c.phase = .locking) :
      CallerStep g i c { g.setPhase i c .locked with mu := some (.caller i) }
  | number (hphase : c.phase = .locked) (hfound : ∀ now key, c.request = .delete now key →
        ∃ e, g.engine.lookupLocked now key = .ok e) :
      CallerStep g i c (g.number i c)
  | miss {now : ℤ} {key : Key} {err : Error} (hphase : c.phase = .locked)
      (hreq : c.request = .delete now key) (hmiss : g.engine.lookupLocked now key = .error err) :
      CallerStep g i c { g.setPhase i c (.returned (some err)) with mu := none }
  | send {op : EngineOp} (hphase : c.phase = .sending op) :
      CallerStep g i c { g.setPhase i c .sent with
        opCh := g.opCh ++ [⟨i, op⟩]
        enqueued := g.enqueued ++ [⟨i, op⟩] }
  | unlock (hphase : c.phase = .sent) : CallerStep g i c { g.setPhase i c .waiting with mu := none }
  | finish {r : ℕ × Option (List String)} (hphase : c.phase = .waiting) (hr : r ∈ g.results)
      (hi : r.1 = i) : CallerStep g i c (g.setPhase i c (.returned (resultOf r.2)))

section Inversion

variable {capacity : ℕ} {g g' : GroupCommit} {i : ℕ} {c : Caller}

theorem callerStep_of_stepCaller (h : g.stepCaller capacity i c = some g') :
    CallerStep g i c g' := by
  unfold stepCaller at h
  split at h
  · next hphase =>
    split at h
    · cases h
      exact .lock hphase
    · cases h
  · next hphase =>
    split at h
    · next hreq =>
      cases h
      exact .number hphase fun now key hdel => absurd (hreq.symm.trans hdel) (by simp)
    · next hreq =>
      split at h
      · next hmiss =>
        cases h
        -- the lookup of a `Delete` decides, before anything is numbered
        exact .miss hphase hreq hmiss
      · next e hfound =>
        cases h
        refine .number hphase fun now key hdel => ⟨e, ?_⟩
        obtain ⟨rfl, rfl⟩ := Request.delete.inj (hreq.symm.trans hdel)
        exact hfound
  · next hphase =>
    split at h
    · cases h
      exact .send hphase
    · cases h
  · next hphase =>
    cases h
    exact .unlock hphase
  · next hphase =>
    obtain ⟨r, hr, rfl⟩ := Option.map_eq_some_iff.mp h
    exact .finish hphase (List.mem_of_find?_eq_some hr) (by simpa using List.find?_some hr)
  · cases h

/-- A step of `opLoop` applies a batch, or leaves alone what callers and readers look at. -/
theorem stepLoop_cases {now : ℤ} {fate : FileOp → Fate} (h : g.stepLoop now fate = some g') :
    (g'.callers = g.callers ∧ g'.enqueued = g.enqueued ∧ g'.mutations = g.mutations ∧
      g'.engine = g.engine ∧ g'.clock = g.clock) ∨
    ∃ batch e d err, g.loop = .locked batch ∧ g.clock ≤ now ∧
      ((g.engine.applyAll (ops batch)).maybeFlushLocked now).run fileSystem fate g.disk
        = (some (e, err), d) ∧
      g' = { g with
        engine := e
        disk := d
        clock := now
        loop := .applied batch err
        mutations := g.mutations ++ batch } := by
  have hframe : ∀ {g₁ : GroupCommit}, some g₁ = some g' → g₁.callers = g.callers →
      g₁.enqueued = g.enqueued → g₁.mutations = g.mutations → g₁.engine = g.engine →
      g₁.clock = g.clock → g'.callers = g.callers ∧ g'.enqueued = g.enqueued ∧
        g'.mutations = g.mutations ∧ g'.engine = g.engine ∧ g'.clock = g.clock := by
    intro g₁ heq hcallers henq hmut heng hclock
    cases heq
    exact ⟨hcallers, henq, hmut, heng, hclock⟩
  -- all stages but one touch the loop, the channel and the log alone
  unfold stepLoop at h
  split at h
  · split at h
    · cases h
    · exact .inl (hframe h rfl rfl rfl rfl rfl)
  · split at h
    · exact .inl (hframe h rfl rfl rfl rfl rfl)
    · exact .inl (hframe h rfl rfl rfl rfl rfl)
  · split at h
    · exact .inl (hframe h rfl rfl rfl rfl rfl)
    · exact .inl (hframe h rfl rfl rfl rfl rfl)
    · cases h
  · split at h
    · exact .inl (hframe h rfl rfl rfl rfl rfl)
    · cases h
  · -- with the lock: the batch is applied, and flushed if need be
    next hloop =>
    split at h
    · cases h
    · next hnow =>
      split at h
      · next hrun =>
        cases h
        exact .inr ⟨_, _, _, _, hloop, not_lt.mp hnow, hrun, rfl⟩
      · cases h
  · exact .inl (hframe h rfl rfl rfl rfl rfl)
  · exact .inl (hframe h rfl rfl rfl rfl rfl)
  · exact .inl (hframe h rfl rfl rfl rfl rfl)

end Inversion

/-! ### The queue as calls of one engine -/

/-- The operations are those of calls, with the numbers that the model gives one after the other,
and every `Delete` finds its key in what those before it leave. -/
def Takes (requestOf : ℕ → Option Request) : Model → List Queued → Prop
  | _, [] => True
  | m, q :: qs =>
    (∃ r, requestOf q.caller = some r ∧ q.op = r.op m.next ∧ r.Found m.map) ∧
      Takes requestOf (m.write q.op.key q.op.entry) qs

section Takes

variable {f f' : ℕ → Option Request} {qs rs : List Queued}

theorem takes_append : ∀ {m : Model},
    Takes f m (qs ++ rs) ↔ Takes f m qs ∧ Takes f (m.writeAll qs) rs := by
  induction qs with
  | nil =>
    intro m
    exact ⟨fun h => ⟨trivial, h⟩, fun h => h.2⟩
  | cons q qs ih =>
    intro m
    rw [List.cons_append, Takes, ih, ← and_assoc, Model.writeAll_cons, Takes]

theorem Takes.mono (hf : ∀ i r, f i = some r → f' i = some r) : ∀ {m : Model},
    Takes f m qs → Takes f' m qs := by
  induction qs with
  | nil =>
    intro m _
    trivial
  | cons q qs ih =>
    intro m ⟨⟨r, hr, hop, hfound⟩, hrest⟩
    exact ⟨⟨r, hf _ r hr, hop, hfound⟩, ih hrest⟩

end Takes

/-- What has been enqueued and not applied. -/
def pending (g : GroupCommit) : List Queued :=
  g.loop.logged ++ g.loop.unlogged ++ g.opCh

theorem Pipeline.enqueued_eq {g : GroupCommit} {h : Layer Key Entry} {log : List Record}
    (hp : g.Pipeline h log) : g.enqueued = g.mutations ++ g.pending := by
  rw [hp.queue, hp.applied, pending, List.append_assoc, List.append_assoc, List.append_assoc]

/-- The `Delete` that is about to look its key up. -/
def deleting (g : GroupCommit) (i : ℕ) : Option (ℤ × Key) :=
  match g.callers[i]? with
  | some ⟨.delete now key, .locked⟩ => some (now, key)
  | _ => none

/-- The clock does not go back between a compaction and a lookup. -/
def InTime (g : GroupCommit) : Action → Prop
  | .caller i => ∀ x ∈ g.deleting i, g.clock ≤ x.1
  | _ => True

end GroupCommit

/-- A lookup finds the key. -/
def Engine.shows (e : Engine) (now : ℤ) (key : Key) : Bool :=
  match e.lookupLocked now key with
  | .ok _ => true
  | .error _ => false

namespace GroupCommit

/-- A `Delete` that finds its key would find it as well if all that is enqueued had been applied. -/
def StillFound (g : GroupCommit) : Action → Prop
  | .caller i => ∀ x ∈ g.deleting i, g.engine.shows x.1 x.2 = true →
      (g.engine.applyAll (ops g.pending)).shows x.1 x.2 = true
  | _ => True

instance (g : GroupCommit) : (a : Action) → Decidable (g.InTime a)
  | .caller i => inferInstanceAs (Decidable (∀ x ∈ g.deleting i, g.clock ≤ x.1))
  | .start _ | .loop _ _ => inferInstanceAs (Decidable True)

instance (g : GroupCommit) : (a : Action) → Decidable (g.StillFound a)
  | .caller i => inferInstanceAs (Decidable (∀ x ∈ g.deleting i, g.engine.shows x.1 x.2 = true →
      (g.engine.applyAll (ops g.pending)).shows x.1 x.2 = true))
  | .start _ | .loop _ _ => inferInstanceAs (Decidable True)

end GroupCommit

theorem Engine.shows_eq_true {e : Engine} {now : ℤ} {key : Key} :
    e.shows now key = true ↔ ∃ x, checked now (e.view key) = .ok x := by
  rw [← Engine.get_eq, Engine.get, shows]
  cases e.lookupLocked now key with
  | ok x => exact ⟨fun _ => ⟨x, rfl⟩, fun _ => rfl⟩
  | error err => simp

/-- What a reader finds in a pruned map is in the whole one. -/
theorem checked_of_prunes {t now : ℤ} {m h : Layer Key Entry} (hp : Prunes Entry.dead t m h)
    {key : Key} {x : Entry} (hx : checked now (m key) = .ok x) : checked now (h key) = .ok x := by
  rcases hp key with heq | ⟨hnone, -⟩
  · rw [← heq]
    exact hx
  · rw [hnone] at hx
    cases hx

namespace GroupCommit

/-- What has been enqueued are calls that `m₀` serves one after the other, the call that is about
to send is the next, and the engine has those that have been applied. -/
structure Queue (m₀ : Model) (g : GroupCommit) : Prop where
  takes : Takes g.requestOf m₀ g.enqueued
  sending : ∀ i op, g.phase i = some (.sending op) → Takes g.requestOf (m₀.writeAll g.enqueued)
    [⟨i, op⟩] ∧ g.engine.nextSeq = (m₀.writeAll g.enqueued).next + 1
  quiet : (∀ i op, g.phase i ≠ some (.sending op)) →
    g.engine.nextSeq = (m₀.writeAll g.enqueued).next
  pruned : Prunes Entry.dead g.clock g.engine.view (m₀.writeAll g.mutations).map

section Queue

variable {capacity : ℕ} {m₀ : Model} {log : List Record} {g g' : GroupCommit} {i : ℕ} {c : Caller}

theorem requestOf_of_callers (hi : g.callers[i]? = some c) : g.requestOf i = some c.request := by
  rw [requestOf, hi, Option.map_some]

theorem requestOf_setPhase (hi : g.callers[i]? = some c) (ph : Phase) (j : ℕ) :
    (g.setPhase i c ph).requestOf j = g.requestOf j := by
  obtain ⟨hlt, -⟩ := List.getElem?_eq_some_iff.mp hi
  unfold requestOf setPhase
  by_cases h : i = j
  · subst h
    rw [List.getElem?_set_self hlt, hi]
    rfl
  · rw [List.getElem?_set_ne h]

theorem requestOf_begun (g : GroupCommit) (r : Request) {j : ℕ} {r' : Request}
    (hj : g.requestOf j = some r') : (g.begun r).requestOf j = some r' := by
  obtain ⟨c, hc, rfl⟩ := Option.map_eq_some_iff.mp hj
  obtain ⟨hlt, -⟩ := List.getElem?_eq_some_iff.mp hc
  rw [requestOf, begun, List.getElem?_append_left hlt, hc, Option.map_some]

/-- A step after which the same calls are sending. -/
theorem Queue.of_frame (hq : g.Queue m₀) (hreq : ∀ j r, g.requestOf j = some r →
      g'.requestOf j = some r)
    (hsending : ∀ j op, g'.phase j = some (.sending op) ↔ g.phase j = some (.sending op))
    (henq : g'.enqueued = g.enqueued) (hseq : g'.engine.nextSeq = g.engine.nextSeq)
    (hpruned : Prunes Entry.dead g'.clock g'.engine.view (m₀.writeAll g'.mutations).map) :
    g'.Queue m₀ where
  takes := by
    rw [henq]
    exact hq.takes.mono hreq
  sending j op hj := by
    obtain ⟨htakes, hnext⟩ := hq.sending j op ((hsending j op).mp hj)
    rw [henq, hseq]
    exact ⟨htakes.mono hreq, hnext⟩
  quiet hnone := by
    rw [henq, hseq]
    exact hq.quiet fun j op hj => hnone j op ((hsending j op).mpr hj)
  pruned := hpruned

/-- A call goes from a phase other than sending to another. -/
theorem Queue.of_setPhase (hq : g.Queue m₀) (hi : g.callers[i]? = some c) {ph : Phase}
    (hold : ∀ op, c.phase ≠ .sending op) (hnew : ∀ op, ph ≠ .sending op)
    (hcallers : g'.callers = (g.setPhase i c ph).callers) (henq : g'.enqueued = g.enqueued)
    (hmut : g'.mutations = g.mutations) (heng : g'.engine = g.engine)
    (hclock : g'.clock = g.clock) : g'.Queue m₀ := by
  refine hq.of_frame (fun j r hj => ?_) (fun j op => ?_) henq (by rw [heng]) ?_
  · rw [requestOf, hcallers]
    exact (requestOf_setPhase hi ph j).trans hj
  · have hphase : g'.phase j = (g.setPhase i c ph).phase j := by rw [phase, hcallers, phase]
    rw [hphase, phase_setPhase hi]
    split
    · next heq =>
      subst heq
      rw [phase_of_callers hi]
      exact ⟨fun h => absurd (Option.some.inj h) (hnew op),
        fun h => absurd (Option.some.inj h) (hold op)⟩
    · rfl
  · rw [hclock, heng, hmut]
    exact hq.pruned

theorem Queue.begun (hq : g.Queue m₀) (r : Request) : (g.begun r).Queue m₀ := by
  refine hq.of_frame (fun j r' => requestOf_begun g r) (fun j op => ?_) rfl rfl hq.pruned
  rw [phase_begun]
  split
  · next heq =>
    subst heq
    rw [phase_length]
    simp
  · rfl

/-- What the lookup of a `Delete` has found is there when its turn comes. -/
theorem Queue.found (hq : g.Queue m₀) (hp : g.Pipeline m₀.map log) (hi : g.callers[i]? = some c)
    (hphase : c.phase = .locked) (hstill : g.StillFound (.caller i))
    (hfound : ∀ now key, c.request = .delete now key → ∃ e, g.engine.lookupLocked now key = .ok e) :
    c.request.Found (m₀.writeAll g.enqueued).map := by
  obtain ⟨request, ph⟩ := c
  obtain rfl : ph = .locked := hphase
  cases request with
  | put now key value consistency ttl => trivial
  | delete now key =>
    obtain ⟨e, he⟩ := hfound now key rfl
    have hdel : g.deleting i = some (now, key) := by rw [deleting, hi]
    have hshows : g.engine.shows now key = true := by rw [Engine.shows, he]
    obtain ⟨x, hx⟩ := Engine.shows_eq_true.mp (hstill (now, key) hdel hshows)
    have hentries : (ops g.pending).map EngineOp.write = entries g.pending := List.map_map
    rw [Engine.view_applyAll, hentries] at hx
    refine ⟨x, ?_⟩
    rw [hp.enqueued_eq, Model.writeAll_append]
    exact checked_of_prunes hq.pruned.writes hx

/-- Nobody else is sending while a call has the lock. -/
theorem not_sending_of_holds (hg : g.WellFormed) (hi : g.callers[i]? = some c)
    (hholds : c.phase.holds = true) {j : ℕ} (hne : j ≠ i) (op : EngineOp) :
    g.phase j ≠ some (.sending op) :=
  fun hj => hne (hg.eq_of_holds hj (phase_of_callers hi) rfl hholds)

theorem Queue.number (hq : g.Queue m₀) (hg : g.WellFormed) (hi : g.callers[i]? = some c)
    (hphase : c.phase = .locked) (hfound : c.request.Found (m₀.writeAll g.enqueued).map) :
    (g.number i c).Queue m₀ := by
  have hself : ∀ op, g.phase i ≠ some (.sending op) := by
    intro op hop
    rw [phase_of_callers hi, hphase] at hop
    cases hop
  -- whoever holds the lock is the only one who may send
  have hnone : ∀ j op, g.phase j ≠ some (.sending op) := by
    intro j op
    by_cases hj : j = i
    · exact hj ▸ hself op
    · exact not_sending_of_holds hg hi (by rw [hphase]; rfl) hj op
  have hseq := hq.quiet hnone
  have hreq := requestOf_setPhase hi (.sending (c.request.op g.engine.nextSeq))
  have hphases := phase_setPhase hi (.sending (c.request.op g.engine.nextSeq))
  refine ⟨hq.takes.mono fun j r hj => (hreq j).trans hj, fun j op hj => ?_, fun hnone' => ?_,
    hq.pruned⟩
  · have hj' : (g.setPhase i c (.sending (c.request.op g.engine.nextSeq))).phase j
        = some (.sending op) := hj
    rw [hphases] at hj'
    split at hj'
    · next heq =>
      subst heq
      obtain rfl := Phase.sending.inj (Option.some.inj hj')
      refine ⟨⟨⟨c.request, (hreq j).trans (requestOf_of_callers hi), ?_, hfound⟩, trivial⟩, ?_⟩
      · rw [hseq]
        rfl
      · exact congrArg (· + 1) hseq
    · exact absurd hj' (hnone j op)
  · -- now there is someone who is about to send
    refine absurd ?_ (hnone' i (c.request.op g.engine.nextSeq))
    exact (hphases i).trans (if_pos rfl)

theorem Queue.send (hq : g.Queue m₀) (hg : g.WellFormed) {op : EngineOp}
    (hi : g.callers[i]? = some c) (hphase : c.phase = .sending op) (ch : List Queued) :
    Queue m₀ { g.setPhase i c .sent with opCh := ch, enqueued := g.enqueued ++ [⟨i, op⟩] } := by
  obtain ⟨htakes, hnext⟩ := hq.sending i op (hphase ▸ phase_of_callers hi)
  have hreq := requestOf_setPhase hi .sent
  refine ⟨?_, fun j op' hj => ?_, fun _ => ?_, hq.pruned⟩
  · exact (takes_append.mpr ⟨hq.takes, htakes⟩).mono fun j r hj => (hreq j).trans hj
  · have hj' : (g.setPhase i c .sent).phase j = some (.sending op') := hj
    rw [phase_setPhase hi] at hj'
    split at hj'
    · cases hj'
    · next hne => exact absurd hj' (not_sending_of_holds hg hi (by rw [hphase]; rfl) hne op')
  · exact hnext.trans (congrArg Model.next (m₀.writeAll_append g.enqueued [⟨i, op⟩])).symm

/-- **One step keeps the queue.** -/
theorem Queue.step (hq : g.Queue m₀) (hg : g.WellFormed) (hp : g.Pipeline m₀.map log)
    (hp' : g'.Pipeline m₀.map log) {a : Action} (hfault : g.NoFault a) (hstill : g.StillFound a)
    (hstep : g.step capacity a = some g') : g'.Queue m₀ := by
  cases a with
  | start r =>
    cases hstep
    exact hq.begun r
  | caller i =>
    obtain ⟨c, hi, hc⟩ := Option.bind_eq_some_iff.mp hstep
    cases callerStep_of_stepCaller hc with
    | lock hphase | miss hphase | unlock hphase | finish hphase =>
      exact hq.of_setPhase hi (by simp [hphase]) (by simp) rfl rfl rfl rfl rfl
    | number hphase hfound =>
      exact hq.number hg hi hphase (hq.found hp hi hphase hstill hfound)
    | send hphase => exact hq.send hg hi hphase _
  | loop now fate =>
    rcases stepLoop_cases hstep with ⟨hcallers, henq, hmut, heng, hclock⟩ |
      ⟨batch, e, d, err, hloop, hnow, hrun, rfl⟩
    · refine hq.of_frame (fun j r hj => ?_) (fun j op => ?_) henq (by rw [heng]) ?_
      · rw [requestOf, hcallers]
        exact hj
      · rw [phase, hcallers, phase]
      · rw [hclock, heng, hmut]
        exact hq.pruned
    · -- the batch is applied: the engine stands for all that is logged, and that is all applied
      have hrep := hp.rep.mono hnow
      rw [hloop] at hrep
      obtain ⟨-, hseq, -⟩ := maybeFlushLocked_done hfault hrep hrun
      refine hq.of_frame (fun j r hj => hj) (fun j op => Iff.rfl) rfl ?_ ?_
      · exact hseq.trans (applyAll_spec _ _).2.2.2.2
      · have happ : g.appended = g.mutations ++ batch ++ [] := hp'.applied
        rw [List.append_nil] at happ
        have hrun' := hp'.rep.running
        rw [show _ = g.mutations ++ batch from happ] at hrun'
        exact hrun'

end Queue

end GroupCommit

/-! ### The calls of `Get`, and the history -/

/-- A call of `Put` or `Delete`, or one of `Get`, by its position among those. -/
inductive CallId where
  | write (i : ℕ)
  | read (j : ℕ)
  deriving DecidableEq

/-- What callers see. -/
abbrev CallHistory := List (CallEvent CallId Call Reply)

/-- Where a call of `Get` is. -/
inductive ReaderPhase where
  /-- At `e.mu.RLock()`. -/
  | locking
  /-- After the lookup. -/
  | found (result : Except Error Entry)
  | returned

structure Reader where
  now : ℤ
  key : Key
  phase : ReaderPhase

/-- The engine with all its callers, and what they have seen so far. -/
structure Observed where
  group : GroupCommit
  readers : List Reader
  history : CallHistory

namespace Observed

def opened (e : Engine) (d : Disk) (clock : ℤ) : Observed :=
  ⟨.opened e d clock, [], []⟩

/-- What a step of group commit from `g` to `g'` shows. -/
def eventsOf (g g' : GroupCommit) : GroupCommit.Action → CallHistory
  | .start r => [.invoke (.write g.callers.length) r.call]
  | .caller i =>
    match g'.phase i with
    | some (.returned err) => [.respond (.write i) (.wrote err)]
    | _ => []
  | .loop _ _ => []

/-- A call of `Get` goes on to another phase. -/
def setReader (s : Observed) (j : ℕ) (r : Reader) (phase : ReaderPhase) : Observed :=
  { s with readers := s.readers.set j { r with phase := phase } }

/-- The next step of a call of `Get`; `none` if it has to wait. -/
def stepReader (s : Observed) (j : ℕ) (r : Reader) : Option Observed :=
  match r.phase with
  | .locking =>
    -- the clock does not go back
    if s.group.mu = none ∧ s.group.clock ≤ r.now then
      some (s.setReader j r (.found (s.group.engine.get r.now r.key)))
    else none
  | .found result =>
    some { s.setReader j r .returned with
      history := s.history ++ [.respond (.read j) (.got result)] }
  | .returned => none

inductive Action where
  | group (a : GroupCommit.Action)
  /-- A new call of `Get`, which is going to read the clock at `now`. -/
  | startGet (now : ℤ) (key : Key)
  | reader (j : ℕ)

def step (capacity : ℕ) (s : Observed) : Action → Option Observed
  | .group a =>
    (s.group.step capacity a).map fun g =>
      { s with group := g, history := s.history ++ eventsOf s.group g a }
  | .startGet now key =>
    some { s with
      readers := s.readers ++ [⟨now, key, .locking⟩]
      history := s.history ++ [.invoke (.read s.readers.length) (.get now key)] }
  | .reader j => (s.readers[j]?).bind fun r => s.stepReader j r

/-- The clock does not go back between a compaction and the lookup of a `Delete`. -/
def InTime (s : Observed) : Action → Prop
  | .group a => s.group.InTime a
  | _ => True

/-- No file operation fails, the key, consistency, value and expiry of every new call fit the
fields of their encoding, and the clock does not go back. -/
def Regular (s : Observed) (a : Action) : Prop :=
  (∀ b, a = .group b → s.group.Faultless b) ∧ s.InTime a

/-- Every `Delete` that finds its key would find it behind all that is enqueued. -/
def StillFound (s : Observed) : Action → Prop
  | .group a => s.group.StillFound a
  | _ => True

instance (s : Observed) : (a : Action) → Decidable (s.InTime a)
  | .group a => inferInstanceAs (Decidable (s.group.InTime a))
  | .startGet _ _ | .reader _ => inferInstanceAs (Decidable True)

instance (s : Observed) : (a : Action) → Decidable (s.StillFound a)
  | .group a => inferInstanceAs (Decidable (s.group.StillFound a))
  | .startGet _ _ | .reader _ => inferInstanceAs (Decidable True)

end Observed
end Storage
end BoilerPulse
