import BoilerPulse.Storage.GroupCommit
import BoilerPulse.Storage.FailedWrites

/-!
# Storage: group commit keeps the order

When no file operation fails, group commit does what a batch for each operation would do, in the
order of the sequence numbers. Two invariants carry this. `Numbered` is about the callers: a
number is taken and its operation is sent under one lock, so what is sent is in order, and the call
that is about to send has the highest number. `Pipeline` is about `opLoop`: what has been sent is
what has been logged, then what `opLoop` has received, then the channel; the log is the end of all
records logged; and the engine with the batch that is in the log only, applied to it, stands
for all writes that have been logged.
-/

namespace BoilerPulse
namespace Storage

open Framework Prog

/-! ### Operations of calls -/

/-- The operation of a call that can be stored. -/
def EngineOp.FromCall (op : EngineOp) : Prop :=
  ∃ r : Request, r.Storable ∧ ∃ seq, op = r.op seq

theorem Request.seq_op (r : Request) (seq : ℕ) : (r.op seq).record.seq = seq := by
  cases r <;> rfl

theorem Request.version_op (r : Request) (seq : ℕ) : (r.op seq).entry.version = seq := by
  cases r <;> rfl

section FromCall

variable {op : EngineOp}

theorem EngineOp.FromCall.faithful (h : op.FromCall) : op.Faithful := by
  obtain ⟨r, hr, seq, rfl⟩ := h
  exact r.op_faithful hr.1 seq

theorem EngineOp.FromCall.storable (h : op.FromCall) : op.Storable := by
  obtain ⟨r, hr, seq, rfl⟩ := h
  exact r.op_storable hr seq

/-- The version of an entry is the number of its record. -/
theorem EngineOp.FromCall.version (h : op.FromCall) : op.entry.version = op.record.seq := by
  obtain ⟨r, -, seq, rfl⟩ := h
  rw [r.version_op, r.seq_op]

end FromCall

/-- Sequence numbers are not touched. -/
theorem applyAll_renumber (batch : List EngineOp) (n : ℕ) : ∀ e : Engine,
    { e with nextSeq := n }.applyAll batch = { e.applyAll batch with nextSeq := n } := by
  induction batch with
  | nil => intro e; rfl
  | cons op batch ih => intro e; exact ih (e.applyToMemtable op.key op.entry)

namespace GroupCommit

/-! ### The callers -/

/-- The records of operations. -/
def records (qs : List Queued) : List Record :=
  qs.map fun q => q.op.record

/-- What operations write. -/
def entries (qs : List Queued) : List (Key × Entry) :=
  qs.map fun q => q.op.write

@[simp] theorem records_append (qs rs : List Queued) :
    records (qs ++ rs) = records qs ++ records rs :=
  List.map_append

@[simp] theorem entries_append (qs rs : List Queued) :
    entries (qs ++ rs) = entries qs ++ entries rs :=
  List.map_append

/-- No file operation fails. -/
def NoFault (_ : GroupCommit) (a : Action) : Prop :=
  ∀ op, a.fate op = .done

/-- No file operation fails, and what new calls write fits the fields of its encoding. -/
def Faultless (g : GroupCommit) (a : Action) : Prop :=
  g.NoFault a ∧ ∀ r, a = .start r → r.Storable

/-- The numbers of what has been logged before (`log`) and sent so far go up, and the next ones are
higher. -/
structure Numbered (log : List Record) (g : GroupCommit) : Prop where
  requests : ∀ c ∈ g.callers, c.request.Storable
  enqueued : ∀ q ∈ g.enqueued, q.op.FromCall
  increasing : (log ++ records g.enqueued).Pairwise fun a b => a.seq < b.seq
  below : ∀ r ∈ log ++ records g.enqueued, r.seq < g.engine.nextSeq
  sending : ∀ i op, g.phase i = some (.sending op) → op.FromCall ∧
    op.record.seq < g.engine.nextSeq ∧ ∀ r ∈ log ++ records g.enqueued, r.seq < op.record.seq

section Numbered

variable {capacity : ℕ} {fate : FileOp → Fate} {g g' : GroupCommit} {log : List Record} {i : ℕ}
  {c : Caller}

theorem requests_setPhase (hn : g.Numbered log) (hi : g.callers[i]? = some c) (ph : Phase) :
    ∀ c' ∈ (g.setPhase i c ph).callers, c'.request.Storable := by
  intro c' hc'
  rcases List.mem_or_eq_of_mem_set hc' with hmem | rfl
  · exact hn.requests c' hmem
  · exact hn.requests c (List.mem_of_getElem? hi)

/-- A call goes on to anything but sending. -/
theorem Numbered.of_setPhase (hn : g.Numbered log) (hi : g.callers[i]? = some c) {ph : Phase}
    (hph : ∀ op, ph ≠ .sending op) (hcallers : g'.callers = (g.setPhase i c ph).callers)
    (henq : g'.enqueued = g.enqueued) (heng : g'.engine = g.engine) : g'.Numbered log where
  requests := hcallers ▸ requests_setPhase hn hi ph
  enqueued := henq ▸ hn.enqueued
  increasing := henq ▸ hn.increasing
  below := by rw [henq, heng]; exact hn.below
  sending j op hj := by
    rw [henq, heng]
    have hphase : g'.phase j = (g.setPhase i c ph).phase j := by rw [phase, hcallers, phase]
    rw [hphase, phase_setPhase hi] at hj
    split at hj
    · exact absurd (Option.some.inj hj) (hph op)
    · exact hn.sending j op hj

/-- A step of `opLoop`. -/
theorem Numbered.of_loop (hn : g.Numbered log) (hcallers : g'.callers = g.callers)
    (henq : g'.enqueued = g.enqueued) (hseq : g'.engine.nextSeq = g.engine.nextSeq) :
    g'.Numbered log where
  requests := hcallers ▸ hn.requests
  enqueued := henq ▸ hn.enqueued
  increasing := henq ▸ hn.increasing
  below := by rw [henq, hseq]; exact hn.below
  sending j op hj := by
    rw [henq, hseq]
    rw [phase, hcallers] at hj
    exact hn.sending j op hj

theorem Numbered.begun (hn : g.Numbered log) {r : Request} (hr : r.Storable) :
    (g.begun r).Numbered log where
  requests := List.forall_mem_append.mpr ⟨hn.requests, List.forall_mem_singleton.mpr hr⟩
  enqueued := hn.enqueued
  increasing := hn.increasing
  below := hn.below
  sending j op hj := by
    rw [phase_begun] at hj
    split at hj
    · cases hj
    · exact hn.sending j op hj

theorem Numbered.number (hn : g.Numbered log) (hi : g.callers[i]? = some c) :
    (g.number i c).Numbered log where
  requests := requests_setPhase hn hi _
  enqueued := hn.enqueued
  increasing := hn.increasing
  below r hr := (hn.below r hr).trans (Nat.lt_succ_self _)
  sending j op hj := by
    have hphase : (g.number i c).phase j = _ :=
      phase_setPhase hi (.sending (c.request.op g.engine.nextSeq)) j
    rw [hphase] at hj
    split at hj
    · -- the new number is higher than any so far
      obtain rfl := Phase.sending.inj (Option.some.inj hj)
      rw [Request.seq_op]
      exact ⟨⟨c.request, hn.requests c (List.mem_of_getElem? hi), _, rfl⟩, Nat.lt_succ_self _,
        hn.below⟩
    · obtain ⟨hcall, hlt, hall⟩ := hn.sending j op hj
      exact ⟨hcall, hlt.trans (Nat.lt_succ_self _), hall⟩

theorem Numbered.send (hn : g.Numbered log) (hg : g.WellFormed) {op : EngineOp}
    (hi : g.callers[i]? = some c) (hphase : c.phase = .sending op) (ch : List Queued) :
    Numbered log { g.setPhase i c .sent with opCh := ch, enqueued := g.enqueued ++ [⟨i, op⟩] } := by
  have hself : g.phase i = some (.sending op) := hphase ▸ phase_of_callers hi
  obtain ⟨hcall, hlt, hall⟩ := hn.sending i op hself
  have hrecords : log ++ records (g.enqueued ++ [⟨i, op⟩])
      = (log ++ records g.enqueued) ++ [op.record] := by simp [records]
  refine ⟨requests_setPhase hn hi _, List.forall_mem_append.mpr ⟨hn.enqueued,
    List.forall_mem_singleton.mpr hcall⟩, ?_, fun r hr => ?_, fun j op' hj => ?_⟩
  · change (log ++ records (g.enqueued ++ [⟨i, op⟩])).Pairwise _
    rw [hrecords, List.pairwise_append]
    exact ⟨hn.increasing, List.pairwise_singleton _ _,
      fun a ha b hb => by rw [List.mem_singleton.mp hb]; exact hall a ha⟩
  · rw [hrecords, List.mem_append, List.mem_singleton] at hr
    rcases hr with hr | rfl
    · exact hn.below r hr
    · exact hlt
  · -- nobody else has the lock, so nobody else is about to send
    have hj' : (g.setPhase i c .sent).phase j = some (.sending op') := hj
    rw [phase_setPhase hi] at hj'
    split at hj'
    · cases hj'
    · next hne => exact absurd (hg.eq_of_holds hj' hself rfl rfl) hne

end Numbered

/-! ### `opLoop` -/

/-- What `opLoop` has received and not logged. -/
def Loop.unlogged : Loop → List Queued
  | .draining batch | .appending batch => batch
  | _ => []

/-- What `opLoop` has logged and not applied. -/
def Loop.logged : Loop → List Queued
  | .locking batch | .locked batch => batch
  | _ => []

/-- What `opLoop` has logged and not answered. -/
def Loop.owed : Loop → List Queued
  | .locking batch | .locked batch | .applied batch _ => batch
  | .replying rest _ => rest
  | _ => []

/-- The error that `opLoop` is going to answer with. -/
def Loop.error : Loop → Option (List String)
  | .applied _ err | .replying _ err => err
  | _ => none

/-- Operations go through the channel, the log and the memtable in the order in which they were
sent, and `h` with the logged ones written to it is what engine and disk stand for. -/
structure Pipeline (h : Layer Key Entry) (log : List Record) (g : GroupCommit) : Prop where
  queue : g.enqueued = g.appended ++ g.loop.unlogged ++ g.opCh
  applied : g.appended = g.mutations ++ g.loop.logged
  wal : g.disk.wal <:+ log ++ records g.appended
  rep : Rep True g.clock (writes h (entries g.appended))
    (g.engine.applyAll (ops g.loop.logged)) g.disk
  answers : g.appended.map Queued.caller = g.answered ++ g.loop.owed.map Queued.caller
  succeeds : g.loop.error = none ∧ ∀ r ∈ g.results, r.2 = none

section Pipeline

variable {capacity : ℕ} {fate : FileOp → Fate} {g g' : GroupCommit} {h : Layer Key Entry}
  {log : List Record}

/-- A step of a call that does not send. -/
theorem Pipeline.of_caller (hp : g.Pipeline h log) (hch : g'.opCh = g.opCh)
    (hloop : g'.loop = g.loop)
    (hres : g'.results = g.results) (hdisk : g'.disk = g.disk) (hclock : g'.clock = g.clock)
    (henq : g'.enqueued = g.enqueued) (happ : g'.appended = g.appended)
    (hmut : g'.mutations = g.mutations)
    (heng : ∃ n, g'.engine = { g.engine with nextSeq := n }) : g'.Pipeline h log := by
  obtain ⟨n, heng⟩ := heng
  refine ⟨?_, ?_, ?_, ?_, ?_, ?_⟩
  · rw [henq, happ, hloop, hch, hp.queue]
  · rw [happ, hmut, hloop, hp.applied]
  · rw [hdisk, happ]
    exact hp.wal
  · rw [hclock, happ, heng, hloop, hdisk, applyAll_renumber]
    exact hp.rep.renumber n
  · rw [happ, hloop, answered, hres]
    exact hp.answers
  · rw [hloop, hres]
    exact hp.succeeds

/-- A step of `opLoop` that touches neither engine nor disk. -/
theorem Pipeline.of_loop (hp : g.Pipeline h log) {l : Loop} (hl : g.loop = l)
    (heng : g'.engine = g.engine)
    (hdisk : g'.disk = g.disk) (hclock : g'.clock = g.clock) (henq : g'.enqueued = g.enqueued)
    (happ : g'.appended = g.appended) (hmut : g'.mutations = g.mutations)
    (hqueue : g'.loop.unlogged ++ g'.opCh = l.unlogged ++ g.opCh)
    (hlogged : g'.loop.logged = l.logged)
    (howed : g'.answered ++ g'.loop.owed.map Queued.caller = g.answered ++ l.owed.map Queued.caller)
    (hsucc : g'.loop.error = none ∧ ∀ r ∈ g'.results, r.2 = none) : g'.Pipeline h log := by
  subst hl
  refine ⟨?_, ?_, ?_, ?_, ?_, hsucc⟩
  · rw [henq, happ, List.append_assoc, hqueue, ← List.append_assoc, hp.queue]
  · rw [happ, hmut, hlogged, hp.applied]
  · rw [hdisk, happ]
    exact hp.wal
  · rw [hclock, happ, heng, hlogged, hdisk]
    exact hp.rep
  · rw [happ, howed, hp.answers]

theorem Pipeline.fromCall (hp : g.Pipeline h log) (hn : g.Numbered log) {q : Queued}
    (hq : q ∈ g.loop.unlogged ∨ q ∈ g.appended) : q.op.FromCall := by
  refine hn.enqueued q ?_
  rw [hp.queue]
  rcases hq with hq | hq
  · exact List.mem_append_left _ (List.mem_append_right _ hq)
  · exact List.mem_append_left _ (List.mem_append_left _ hq)

/-- The batch is written to the log. -/
theorem Pipeline.append (hp : g.Pipeline h log) (hn : g.Numbered log) {batch : List Queued}
    {d : Disk} (hloop : g.loop = .appending batch)
    (hwal : d.wal = g.disk.wal ++ (ops batch).map EngineOp.record)
    (htab : d.tables = g.disk.tables) :
    Pipeline h log
      { g with disk := d, loop := .locking batch, appended := g.appended ++ batch } := by
  have hcall : ∀ op ∈ ops batch, op.FromCall := by
    intro op hop
    obtain ⟨q, hq, rfl⟩ := List.mem_map.mp hop
    exact hp.fromCall hn (.inl (by rw [hloop]; exact hq))
  have hrep : Rep True g.clock (writes h (entries g.appended)) g.engine g.disk := by
    have hrep := hp.rep
    rw [hloop] at hrep
    exact hrep
  have hrecords : (ops batch).map EngineOp.record = records batch := List.map_map
  have hentries : (ops batch).map EngineOp.write = entries batch := List.map_map
  refine ⟨?_, ?_, ?_, ?_, ?_, ?_⟩
  · rw [hp.queue, hloop]
    simp [Loop.unlogged]
  · have happ := hp.applied
    rw [hloop] at happ
    simpa [Loop.logged] using happ
  · -- the log ends with what was logged since its last reset
    change d.wal <:+ log ++ records (g.appended ++ batch)
    rw [hwal, hrecords, records_append, ← List.append_assoc]
    exact List.suffix_append_self_iff.mpr hp.wal
  · -- the log has the batch, and the memtable gets it when it is applied
    have hrep' := hrep.applyAll (fun op hop => (hcall op hop).faithful)
      (fun op hop => (hcall op hop).storable) hwal htab
    rw [← writes_append, hentries, ← entries_append] at hrep'
    exact hrep'
  · have hans := hp.answers
    rw [hloop] at hans
    rw [List.map_append, hans]
    simp [Loop.owed, answered]
  · exact ⟨rfl, hp.succeeds.2⟩

/-- The batch is applied, with the flush if there is one. -/
theorem Pipeline.apply (hp : g.Pipeline h log) {batch : List Queued} {now : ℤ} {e : Engine}
    {d : Disk} {err : Option (List String)} (hloop : g.loop = .locked batch)
    (hrep : Rep True now (writes h (entries g.appended)) e d)
    (hwal : d.wal = g.disk.wal ∨ d.wal = []) (herr : err = none) :
    Pipeline h log { g with
      engine := e
      disk := d
      clock := now
      loop := .applied batch err
      mutations := g.mutations ++ batch } := by
  refine ⟨?_, ?_, ?_, hrep, ?_, herr, hp.succeeds.2⟩
  · rw [hp.queue, hloop]
    rfl
  · rw [hp.applied, hloop]
    simp [Loop.logged]
  · rcases hwal with hwal | hwal
    · change d.wal <:+ _
      rw [hwal]
      exact hp.wal
    · change d.wal <:+ _
      rw [hwal]
      exact List.nil_suffix
  · rw [hp.answers, hloop]
    rfl

/-- What a run of `AppendBatch` without faults does. -/
theorem appendBatch_done (hfate : ∀ op, fate op = .done) {batch : List EngineOp} {d d' : Disk}
    {ok : Bool}
    (hrun : (appendBatch (batch.map EngineOp.record)).run fileSystem fate d = (some ok, d')) :
    ok = true ∧ d'.wal = d.wal ++ batch.map EngineOp.record ∧ d'.tables = d.tables := by
  have hsafe : Safe fileSystem fate _ _ _ d :=
    appendBatch_safe (fun r => by simp [hfate]) (by simp [hfate]) batch d
  obtain ⟨hok, -, hwal, htab⟩ := hsafe.of_run_some hrun
  exact ⟨hok, hwal, htab⟩

/-- What a flush without faults does. -/
theorem maybeFlushLocked_done (hfate : ∀ op, fate op = .done) {now : ℤ} {e e' : Engine}
    {d d' : Disk} {err : Option (List String)} {m : Layer Key Entry} (hrep : Rep True now m e d)
    (hrun : (e.maybeFlushLocked now).run fileSystem fate d = (some (e', err), d')) :
    Rep True now m e' d' ∧ e'.nextSeq = e.nextSeq ∧ err = none ∧
      (d'.wal = d.wal ∨ d'.wal = []) := by
  have hsafe : Safe fileSystem fate _ _ _ d := maybeFlushLocked_safe hrep
    (fun _ _ => hrep.listed trivial) (fun _ op => by simp [hfate]) fun n => by simp [hfate]
  obtain ⟨hrep', hkept, herr⟩ := hsafe.of_run_some hrun
  refine ⟨hrep', hkept.nextSeq, ?_, ?_⟩
  · by_contra hne
    obtain ⟨op, hop⟩ := herr hne
    exact absurd hop (by simp [hfate])
  · exact ((maybeFlushLocked_result e now d).of_run_some hrun).1.2

/-- **One step keeps the order.** -/
theorem Move.ordered (hmove : Move capacity fate g g') (hfate : ∀ op, fate op = .done)
    (hg : g.WellFormed) (hn : g.Numbered log) (hp : g.Pipeline h log) :
    g'.Numbered log ∧ g'.Pipeline h log := by
  cases hmove with
  | lock hi hphase hmu | miss hi hphase err | unlock hi hphase | finish hi hphase result hres =>
    exact ⟨hn.of_setPhase hi (by simp) rfl rfl rfl,
      hp.of_caller rfl rfl rfl rfl rfl rfl rfl rfl ⟨_, rfl⟩⟩
  | number hi hphase =>
    exact ⟨hn.number hi, hp.of_caller rfl rfl rfl rfl rfl rfl rfl rfl ⟨_, rfl⟩⟩
  | send hi hphase hroom =>
    -- what is sent goes to the end of the channel
    refine ⟨hn.send hg hi hphase _, ⟨?_, hp.applied, hp.wal, hp.rep, hp.answers, hp.succeeds⟩⟩
    rw [hp.queue, ← List.append_assoc]
    rfl
  | receive hloop hch =>
    exact ⟨hn.of_loop rfl rfl rfl, hp.of_loop hloop rfl rfl rfl rfl rfl rfl
      (by rw [hch]; rfl) rfl rfl ⟨rfl, hp.succeeds.2⟩⟩
  | drain hloop hch =>
    exact ⟨hn.of_loop rfl rfl rfl, hp.of_loop hloop rfl rfl rfl rfl rfl rfl
      (by rw [hch]; simp [Loop.unlogged]) rfl rfl ⟨rfl, hp.succeeds.2⟩⟩
  | drained hloop | lockLoop hloop hmu | resume hloop =>
    exact ⟨hn.of_loop rfl rfl rfl, hp.of_loop hloop rfl rfl rfl rfl rfl rfl rfl rfl rfl
      ⟨rfl, hp.succeeds.2⟩⟩
  | append hloop hrun =>
    obtain ⟨-, hwal, htab⟩ := appendBatch_done hfate hrun
    exact ⟨hn.of_loop rfl rfl rfl, hp.append hn hloop hwal htab⟩
  | appendFails d hloop hrun =>
    obtain ⟨hok, -⟩ := appendBatch_done hfate hrun
    cases hok
  | apply hloop hnow hrun =>
    have hrep := hp.rep.mono hnow
    rw [hloop] at hrep
    obtain ⟨hrep', hseq, herr, hwal⟩ := maybeFlushLocked_done hfate hrep hrun
    refine ⟨hn.of_loop rfl rfl ?_, hp.apply hloop hrep' hwal herr⟩
    exact hseq.trans (applyAll_spec _ _).2.2.2.2
  | unlockLoop hloop =>
    have herr := hp.succeeds.1
    rw [hloop] at herr
    exact ⟨hn.of_loop rfl rfl rfl, hp.of_loop hloop rfl rfl rfl rfl rfl rfl rfl rfl rfl
      ⟨herr, hp.succeeds.2⟩⟩
  | reply hloop =>
    have herr := hp.succeeds.1
    rw [hloop] at herr
    exact ⟨hn.of_loop rfl rfl rfl, hp.of_loop hloop rfl rfl rfl rfl rfl rfl rfl rfl
      (by simp [answered, Loop.owed]) ⟨herr, List.forall_mem_append.mpr ⟨hp.succeeds.2,
        List.forall_mem_singleton.mpr herr⟩⟩⟩

end Pipeline

/-! ### Whole runs -/

/-- An engine with nothing under way: it stands for `h`, and the numbers in its log go up to below
the next one. -/
structure Ready (clock : ℤ) (h : Layer Key Entry) (e : Engine) (d : Disk) : Prop where
  rep : Rep True clock h e d
  increasing : d.wal.Pairwise fun a b => a.seq < b.seq
  below : ∀ r ∈ d.wal, r.seq < e.nextSeq

/-- An engine that `Open` has built. -/
theorem ready_openEngine {clock : ℤ} {h : Layer Key Entry} {bound : ℕ} {d : Disk}
    (hrec : Recoverable clock h bound d) (hsix : ∀ st ∈ d.tables, st.1 < 10 ^ 6)
    (hinc : d.wal.Pairwise fun a b => a.seq < b.seq) (opts : Options) :
    Ready clock h (openEngine d opts) d where
  rep := openEngine_rep hrec hsix opts
  increasing := hinc
  below r hr := Nat.lt_succ_of_le ((le_foldl_max_iff d.wal).mpr (.inr ⟨r, hr, le_rfl⟩))

section Runs

variable {capacity : ℕ} {clock : ℤ} {h : Layer Key Entry} {e : Engine} {d : Disk} {g : GroupCommit}
  {log : List Record}

theorem Ready.numbered (hr : Ready clock h e d) : (opened e d clock).Numbered d.wal where
  requests := nofun
  enqueued := nofun
  increasing := by
    rw [show d.wal ++ records (opened e d clock).enqueued = d.wal from List.append_nil _]
    exact hr.increasing
  below r hr' := by
    rw [show d.wal ++ records (opened e d clock).enqueued = d.wal from List.append_nil _] at hr'
    exact hr.below r hr'
  sending := nofun

theorem Ready.pipeline (hr : Ready clock h e d) : (opened e d clock).Pipeline h d.wal where
  queue := rfl
  applied := rfl
  wal := by
    rw [show d.wal ++ records (opened e d clock).appended = d.wal from List.append_nil _]
    exact List.suffix_refl _
  rep := hr.rep
  answers := rfl
  succeeds := ⟨rfl, by simp [opened]⟩

/-- **A run keeps the order.** -/
theorem Ready.ordered (hr : Ready clock h e d)
    (hrun : Runs (step capacity) Faultless (opened e d clock) g) :
    g.WellFormed ∧ g.Numbered d.wal ∧ g.Pipeline h d.wal := by
  refine hrun.invariant (fun g a g' (hg : g.WellFormed ∧ g.Numbered d.wal ∧ g.Pipeline h d.wal) hok
    hstep => ?_) ⟨wellFormed_opened e d clock, hr.numbered, hr.pipeline⟩
  obtain ⟨hwf, hn, hp⟩ := hg
  rcases step_cases hstep with ⟨r, rfl, rfl⟩ | hmove
  · exact ⟨hwf.begun r, hn.begun (hok.2 r rfl),
      hp.of_caller rfl rfl rfl rfl rfl rfl rfl rfl ⟨_, rfl⟩⟩
  · exact ⟨hmove.wellFormed hwf, hmove.ordered hok.1 hwf hn hp⟩

/-- The numbers of all operations that were sent. -/
theorem Numbered.pairwise (hn : g.Numbered log) :
    g.enqueued.Pairwise fun a b => a.op.record.seq < b.op.record.seq := by
  have hsent := (List.pairwise_append.mp hn.increasing).2.1
  rw [records, List.pairwise_map] at hsent
  exact hsent

theorem Pipeline.wal_increasing (hp : g.Pipeline h log) (hn : g.Numbered log) :
    g.disk.wal.Pairwise fun a b => a.seq < b.seq := by
  have hinc := hn.increasing
  rw [hp.queue, List.append_assoc, records_append, ← List.append_assoc] at hinc
  exact (List.pairwise_append.mp hinc).1.sublist hp.wal.sublist

theorem Pipeline.mutations_increasing (hp : g.Pipeline h log) (hn : g.Numbered log) :
    g.mutations.Pairwise fun a b => a.op.record.seq < b.op.record.seq := by
  have hinc := hn.pairwise
  rw [hp.queue, hp.applied, List.append_assoc, List.append_assoc] at hinc
  exact (List.pairwise_append.mp hinc).1

/-- What has been sent is answered or on its way. -/
theorem Pipeline.callers_eq (hp : g.Pipeline h log) :
    g.enqueued.map Queued.caller = g.answered ++ g.unanswered := by
  rw [hp.queue, List.map_append, List.map_append, hp.answers, unanswered, List.map_append]
  cases g.loop <;> simp [Loop.owed, Loop.unlogged, Loop.batch]

/-- Every call sends one operation. -/
theorem Pipeline.callers_nodup (hp : g.Pipeline h log) (hg : g.WellFormed) :
    (g.enqueued.map Queued.caller).Nodup := by
  rw [hp.callers_eq]
  exact hg.nodup

/-- A call that has a result has its operation in the log. -/
theorem Pipeline.appended_of_result (hp : g.Pipeline h log) {r : ℕ × Option (List String)}
    (hr : r ∈ g.results) : ∃ q ∈ g.appended, q.caller = r.1 := by
  have hmem : r.1 ∈ g.appended.map Queued.caller := by
    rw [hp.answers]
    exact List.mem_append_left _ (List.mem_map_of_mem hr)
  exact List.mem_map.mp hmem

/-- The stored version of a key is that of the operation with the highest number. -/
theorem view_of_highest (hn : g.Numbered log) {q : Queued} (hq : q ∈ g.enqueued)
    (hmax : ∀ q' ∈ g.enqueued, q'.op.key = q.op.key → q'.op.record.seq ≤ q.op.record.seq) :
    writes h (entries g.enqueued) q.op.key = some q.op.entry := by
  obtain ⟨before, after, hsplit⟩ := List.append_of_mem hq
  -- what was sent after `q` has a higher number, so it is for other keys
  have hafter : ∀ w ∈ entries after, w.1 ≠ q.op.key := by
    intro w hw hkey
    obtain ⟨q', hq', rfl⟩ := List.mem_map.mp hw
    have hlt : q.op.record.seq < q'.op.record.seq := by
      have hinc := hn.pairwise
      rw [hsplit] at hinc
      exact (List.pairwise_cons.mp (List.pairwise_append.mp hinc).2.1).1 q' hq'
    have hle := hmax q' (by rw [hsplit]; simp [hq']) hkey
    omega
  rw [hsplit, entries_append, writes_append]
  exact (writes_of_forall_ne hafter).trans (Function.update_self ..)

end Runs

/-! ### One at a time -/

/-- Every operation in a batch of its own, each with the reading of the clock of its batch. -/
def processEach (e : Engine) (d : Disk) : List (ℤ × EngineOp) → Engine × Disk
  | [] => (e, d)
  | (now, op) :: rest =>
    processEach ((e.processBatch [op] now).complete fileSystem d).1.1
      ((e.processBatch [op] now).complete fileSystem d).2 rest

theorem processEach_rep {timed : List (ℤ × EngineOp)} {t : ℤ} :
    ∀ {clock : ℤ} {e : Engine} {d : Disk} {h : Layer Key Entry}, Rep True clock h e d →
      (∀ x ∈ timed, x.2.FromCall) → (clock :: timed.map Prod.fst).Pairwise (· ≤ ·) →
      (∀ x ∈ clock :: timed.map Prod.fst, x ≤ t) →
      Rep True t (writes h (timed.map fun x => x.2.write)) (processEach e d timed).1
        (processEach e d timed).2 := by
  induction timed with
  | nil =>
    intro clock e d h hr _ _ ht
    exact hr.mono (ht clock List.mem_cons_self)
  | cons x timed ih =>
    obtain ⟨now, op⟩ := x
    intro clock e d h hr hcall hclock ht
    rw [List.map_cons, List.pairwise_cons] at hclock
    have hop := hcall (now, op) List.mem_cons_self
    have hbatch : Safe fileSystem (fun _ => .done) _ _ (e.processBatch [op] now) d :=
      processBatch_safe (hr.mono (hclock.1 now List.mem_cons_self))
        (fun op' hop' => by rw [List.mem_singleton.mp hop']; exact hop.faithful)
        (fun op' hop' => by rw [List.mem_singleton.mp hop']; exact hop.storable)
        (by simp) (by simp) (fun _ _ => hr.listed trivial) (by simp) (by simp)
    obtain ⟨hrep, -, -⟩ := hbatch.of_complete
    exact ih hrep (fun x hx => hcall x (List.mem_cons_of_mem _ hx)) hclock.2
      fun x hx => ht x (List.mem_cons_of_mem _ hx)

/-- `opLoop` has nothing to do. -/
structure Settled (g : GroupCommit) : Prop where
  loop : g.loop = .idle
  opCh : g.opCh = []

/-- Group commit, started on `e` and `d` at `clock`, does what a batch for each operation does. -/
structure OneAtATime (clock : ℤ) (e : Engine) (d : Disk) (g : GroupCommit) : Prop where
  wal_increasing : g.disk.wal.Pairwise fun a b => a.seq < b.seq
  mutations_increasing : g.mutations.Pairwise fun a b => a.op.record.seq < b.op.record.seq
  /-- A call sends one operation. -/
  sent_once : (g.enqueued.map Queued.caller).Nodup
  /-- It receives one result, -/
  answered_once : g.answered.Nodup
  /-- after `AppendBatch` has written its record, -/
  logged_first : ∀ i ∈ g.answered, ∃ q ∈ g.appended, q.caller = i
  /-- and everyone does. -/
  all_answered : g.Settled → g.answered = g.enqueued.map Queued.caller
  /-- Readers see what they would see after one batch for each operation, in the order of the
  numbers, whenever the clock was read in between. -/
  same_reads : g.Settled → ∀ (timed : List (ℤ × EngineOp)) (t : ℤ),
    timed.map Prod.snd = ops g.enqueued → (clock :: timed.map Prod.fst).Pairwise (· ≤ ·) →
    (∀ now ∈ timed.map Prod.fst, now ≤ t) → g.clock ≤ t → ∀ k,
      g.engine.get t k = (processEach e d timed).1.get t k ∧
      ∀ pfx, (g.engine.scan t pfx).lookup k = ((processEach e d timed).1.scan t pfx).lookup k
  /-- The entry of a key is that of the operation with the highest number, which is its version; it
  is gone only if it is deleted or expired. -/
  highest_stored : g.Settled → ∀ q ∈ g.enqueued,
    (∀ q' ∈ g.enqueued, q'.op.key = q.op.key → q'.op.record.seq ≤ q.op.record.seq) →
    q.op.entry.version = q.op.record.seq ∧ (g.engine.view q.op.key = some q.op.entry ∨
        g.engine.view q.op.key = none ∧ q.op.entry.dead g.clock = true)

section Settled

variable {capacity : ℕ} {clock : ℤ} {h : Layer Key Entry} {e : Engine} {d : Disk} {g : GroupCommit}
  {log : List Record}

theorem Pipeline.appended_eq (hp : g.Pipeline h log) (hs : g.Settled) :
    g.appended = g.enqueued := by
  rw [hp.queue, hs.loop, hs.opCh]
  simp [Loop.unlogged]

/-- Once all is done, the engine stands for all writes. -/
theorem Pipeline.rep_of_settled (hp : g.Pipeline h log) (hs : g.Settled) :
    Rep True g.clock (writes h (entries g.enqueued)) g.engine g.disk := by
  have hrep := hp.rep
  rw [hs.loop, hp.appended_eq hs] at hrep
  exact hrep

/-- The clock does not go back. -/
theorem clock_le_of_runs {ok : GroupCommit → Action → Prop} {g₀ : GroupCommit}
    (hrun : Runs (step capacity) ok g₀ g) : g₀.clock ≤ g.clock := by
  induction hrun with
  | refl => exact le_rfl
  | tail a _ _ hstep ih =>
    rcases step_cases hstep with ⟨r, -, rfl⟩ | hmove
    · exact ih
    · cases hmove with
      | apply _ hnow _ => exact ih.trans hnow
      | _ => exact ih

/-- **Group commit equals one at a time.** -/
theorem group_commit_one_at_a_time (hready : Ready clock h e d)
    (hrun : Runs (step capacity) Faultless (opened e d clock) g) : OneAtATime clock e d g := by
  obtain ⟨hwf, hn, hp⟩ := hready.ordered hrun
  refine ⟨hp.wal_increasing hn, hp.mutations_increasing hn, hp.callers_nodup hwf,
    (List.nodup_append.mp hwf.nodup).1, fun i hi => ?_, fun hs => ?_, fun hs timed t hops htimes hle
    hclock k => ?_, fun hs q hq hmax => ?_⟩
  · obtain ⟨r, hr, rfl⟩ := List.mem_map.mp hi
    exact hp.appended_of_result hr
  · have hans := hp.answers
    rw [hs.loop, hp.appended_eq hs] at hans
    simpa [Loop.owed] using hans.symm
  · -- both engines stand for `h` with the same writes
    have hrep := hp.rep_of_settled hs
    have hcall : ∀ x ∈ timed, x.2.FromCall := by
      intro x hx
      have hmem : x.2 ∈ ops g.enqueued := hops ▸ List.mem_map_of_mem hx
      obtain ⟨q, hq, hxq⟩ := List.mem_map.mp hmem
      exact hxq ▸ hn.enqueued q hq
    have hstart : clock ≤ t := (clock_le_of_runs hrun).trans hclock
    have heach := processEach_rep hready.rep hcall htimes (List.forall_mem_cons.mpr ⟨hstart, hle⟩)
    have hsame : (timed.map fun x => x.2.write) = entries g.enqueued := by
      calc (timed.map fun x => x.2.write)
          = (timed.map Prod.snd).map EngineOp.write := by rw [List.map_map]; rfl
        _ = (ops g.enqueued).map EngineOp.write := by rw [hops]
        _ = entries g.enqueued := List.map_map
    rw [hsame] at heach
    refine ⟨?_, fun pfx => ?_⟩
    · rw [hrep.get_eq hclock, heach.get_eq le_rfl]
    · rw [hrep.lookup_scan hclock, heach.lookup_scan le_rfl]
  · refine ⟨(hn.enqueued q hq).version, ?_⟩
    have hview := view_of_highest (h := h) hn hq hmax
    rcases (hp.rep_of_settled hs).running q.op.key with heq | ⟨hnone, hdead⟩
    · exact .inl (heq.trans hview)
    · exact .inr ⟨hnone, hdead _ hview⟩

end Settled

/-- Calls that all send before `opLoop` looks, and what `opLoop` then does with one batch. -/
def inOneBatch (now : ℤ) (rs : List Request) : List Action :=
  rs.map .start ++ (List.range rs.length).flatMap (fun i => List.replicate 4 (.caller i)) ++
    List.replicate (2 * rs.length + 6) (.loop now fun _ => .done)

theorem mem_inOneBatch {now : ℤ} {rs : List Request} {a : Action} (ha : a ∈ inOneBatch now rs) :
    (∃ r ∈ rs, a = .start r) ∨ (∃ i, a = .caller i) ∨ a = .loop now fun _ => .done := by
  simp only [inOneBatch, List.mem_append, List.mem_map, List.mem_flatMap, List.mem_replicate] at ha
  rcases ha with (⟨r, hr, rfl⟩ | ⟨i, -, -, rfl⟩) | ⟨-, rfl⟩
  · exact .inl ⟨r, hr, rfl⟩
  · exact .inr (.inl ⟨i, rfl⟩)
  · exact .inr (.inr rfl)

theorem noFault_inOneBatch (now : ℤ) (rs : List Request) :
    ∀ a ∈ inOneBatch now rs, ∀ g, NoFault g a := by
  intro a ha g
  rcases mem_inOneBatch ha with ⟨r, -, rfl⟩ | ⟨i, rfl⟩ | rfl <;> exact fun _ => rfl

theorem exists_run_inOneBatch {capacity : ℕ} {g₀ : GroupCommit} {P : GroupCommit → Prop} (now : ℤ)
    (rs : List Request) (h : ∃ g, exec (step capacity) g₀ (inOneBatch now rs) = some g ∧ P g) :
    ∃ g, Runs (step capacity) NoFault g₀ g ∧ P g :=
  h.imp fun _ => And.imp_left (Runs.of_exec_all (noFault_inOneBatch now rs))

theorem faultless_inOneBatch (now : ℤ) {rs : List Request} (hrs : ∀ r ∈ rs, r.Storable) :
    ∀ a ∈ inOneBatch now rs, ∀ g, Faultless g a := by
  intro a ha g
  refine ⟨noFault_inOneBatch now rs a ha g, fun r hr => ?_⟩
  rcases mem_inOneBatch (hr ▸ ha) with ⟨r', hr', heq⟩ | ⟨i, heq⟩ | heq
  · exact Action.start.inj heq ▸ hrs r' hr'
  · cases heq
  · cases heq

/-- Two puts of one key in one batch, which is flushed. -/
theorem group_commit_one_at_a_time_two_puts :
    ∃ g, Runs (step opChCapacity) Faultless (opened (openEngine .empty ⟨0, 4⟩) .empty 0) g ∧
      g.Settled ∧ g.mutations.map (fun q => q.op.record.seq) = [1, 2] ∧ g.disk.wal = [] ∧
      OneAtATime 0 (openEngine .empty ⟨0, 4⟩) .empty g := by
  have hready : Ready 0 (fun _ => none) (openEngine .empty ⟨0, 4⟩) .empty :=
    ready_openEngine (Rep.recoverable (sound_new True ⟨0, 4⟩ 0))
      (by simp [Store.new, Disk.empty]) .nil ⟨0, 4⟩
  have hputs : ∀ r ∈ [Request.put 0 [97] [1] [] 0, .put 0 [97] [2] [] 5], r.Storable := by decide
  have hrun := Runs.of_exec_all (faultless_inOneBatch 1 hputs)
    (show exec (step opChCapacity) (opened (openEngine .empty ⟨0, 4⟩) .empty 0) _ = some _ from rfl)
  exact ⟨_, hrun, ⟨rfl, rfl⟩, rfl, rfl, group_commit_one_at_a_time hready hrun⟩

/-- Three puts that are flushed after the second if each has a batch of its own, and not at all if
they have one batch. -/
def cutPuts (now ttl : ℤ) : List Request :=
  [.put now [97] [] [] ttl, .put now [98] [1, 2, 3, 4, 5, 6, 7, 8, 9, 10] [] 0,
    .put now [98] [] [] 0]

/-- A flush changes an expiry at instant `0`, and one that is not an `int64`: the cut into batches
then shows. -/
theorem group_commit_shows_batches :
    (∃ g, Runs (step opChCapacity) NoFault (opened (openEngine .empty ⟨70, 4⟩) .empty (-1)) g ∧
      g.Settled ∧ g.callers.map Caller.request = cutPuts (-1) 1 ∧
      g.engine.get 5 [97] = .error .keyNotFound ∧
      (processEach (openEngine .empty ⟨70, 4⟩) .empty
        ((ops g.enqueued).map fun op => (-1, op))).1.get 5 [97] = .ok ⟨[], [], none, false, 1⟩) ∧
    ∃ g, Runs (step opChCapacity) NoFault (opened (openEngine .empty ⟨70, 4⟩) .empty (2 ^ 62)) g ∧
      g.Settled ∧ g.callers.map Caller.request = cutPuts (2 ^ 62) (2 ^ 62) ∧
      g.engine.get (2 ^ 62) [97] = .ok ⟨[], [], some (2 ^ 63), false, 1⟩ ∧
      (processEach (openEngine .empty ⟨70, 4⟩) .empty
        ((ops g.enqueued).map fun op => (2 ^ 62, op))).1.get (2 ^ 62) [97]
          = .error .keyNotFound := by
  refine ⟨exists_run_inOneBatch (-1) (cutPuts (-1) 1) ?_,
    exists_run_inOneBatch (2 ^ 62) (cutPuts (2 ^ 62) (2 ^ 62)) ?_⟩
  · exact ⟨_, rfl, ⟨rfl, rfl⟩, rfl, rfl, rfl⟩
  · exact ⟨_, rfl, ⟨rfl, rfl⟩, rfl, rfl, rfl⟩

end GroupCommit
end Storage
end BoilerPulse
