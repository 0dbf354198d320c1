import BoilerPulse.Storage.GroupOrder
import BoilerPulse.Storage.Replay

/-!
# Storage: sequence numbers across restarts

The counter for sequence numbers is not stored anywhere. `Open` takes the highest number it finds in
the log and in the tables, and goes on after it. A `Lifetime` is one directory through any number
of sessions, each of them group commit with its goroutines: calls come and go, batches are logged,
applied, flushed and compacted, and once every call has returned the engine may be closed and
opened again. It remembers the operations that earlier sessions have acknowledged (`past`).

Within a session the counter only goes up. So a new number is above all that were ever acknowledged
if the counter of each `Open` is, and that is the case exactly if the highest of them is still on
the disk (`Remembers`, `lt_nextSeq_openEngine_iff`). A flush moves numbers from the log to a table,
but a compaction may drop the one that matters, with a tombstone or an expired entry. This is
the only way to lose it: as long as nothing fails, the number is still there if the last operation
left an entry that can be seen (`remembers_of_live`).
-/

namespace BoilerPulse
namespace Storage

variable {d : Disk}

open Framework Prog GroupCommit

/-! ### Sessions -/

/-- The operations whose callers have been sent `nil`. -/
def GroupCommit.acknowledged (g : GroupCommit) : List EngineOp :=
  ops (g.enqueued.filter fun q => g.results.contains (q.caller, none))

/-- One directory: the session that is running, and the operations that were acknowledged before
it. -/
structure Lifetime where
  session : GroupCommit
  past : List EngineOp

namespace Lifetime

/-- The first session, on any directory. -/
def first (d : Disk) (opts : Options) (clock : ℤ) : Lifetime :=
  ⟨opened (openEngine d opts) d clock, []⟩

/-- All operations that were acknowledged so far. -/
def acknowledged (l : Lifetime) : List EngineOp :=
  l.past ++ l.session.acknowledged

/-- Every call has returned. -/
def Quiet (l : Lifetime) : Prop :=
  l.session.active = []

instance (l : Lifetime) : Decidable l.Quiet :=
  inferInstanceAs (Decidable (_ = _))

inductive Action where
  | session (a : GroupCommit.Action)
  /-- `Close` and `Open`. -/
  | reopen (opts : Options)

/-- The next session. -/
def reopened (l : Lifetime) (opts : Options) : Lifetime where
  session := opened (openEngine l.session.disk.cleanup opts) l.session.disk.cleanup l.session.clock
  past := l.acknowledged

def step (l : Lifetime) : Action → Option Lifetime
  | .session a => (l.session.step opChCapacity a).map fun g => { l with session := g }
  | .reopen opts => if l.Quiet then some (l.reopened opts) else none

theorem step_reopen {l l' : Lifetime} {opts : Options} (h : l.step (.reopen opts) = some l') :
    l.Quiet ∧ l' = l.reopened opts := by
  by_cases hq : l.Quiet
  · rw [step, if_pos hq] at h
    exact ⟨hq, (Option.some.inj h).symm⟩
  · rw [step, if_neg hq] at h
    cases h

@[simp] theorem acknowledged_reopened (l : Lifetime) (opts : Options) :
    (l.reopened opts).acknowledged = l.acknowledged :=
  List.append_nil _

end Lifetime

/-! ### What `Open` finds -/

/-- There is a number on the disk that is at least `n`. -/
def Disk.Has (d : Disk) (n : ℕ) : Prop :=
  (∃ r ∈ d.wal, n ≤ r.seq) ∨ ∃ st ∈ d.tables, ∃ x ∈ st.2, n ≤ x.version

instance (d : Disk) (n : ℕ) : Decidable (d.Has n) :=
  inferInstanceAs (Decidable (_ ∨ _))

theorem Disk.Has.mono {m n : ℕ} (h : d.Has n) (hle : m ≤ n) : d.Has m :=
  h.imp (fun ⟨r, hr, hn⟩ => ⟨r, hr, hle.trans hn⟩)
    fun ⟨st, hst, x, hx, hn⟩ => ⟨st, hst, x, hx, hle.trans hn⟩

theorem le_maxVersion_iff {n : ℕ} (hn : 0 < n) :
    n ≤ maxVersion (sortedTables d) ↔ ∃ st ∈ d.tables, ∃ x ∈ st.2, n ≤ x.version := by
  have hmem : ∀ st, st ∈ sortedTables d ↔ st ∈ d.tables :=
    fun st => (List.perm_insertionSort _ d.tables).mem_iff
  rw [maxVersion, ← List.foldl_flatMap, le_foldl_max_iff, or_iff_right (Nat.not_le_of_lt hn)]
  simp only [List.mem_flatMap, hmem]
  constructor
  · rintro ⟨x, ⟨st, hst, hx⟩, hle⟩
    exact ⟨st, hst, x, hx, hle⟩
  · rintro ⟨st, hst, x, hx, hle⟩
    exact ⟨x, ⟨st, hst, hx⟩, hle⟩

/-- The counter of an engine that `Open` has built is above `n` exactly if the disk has such a
number. -/
theorem lt_nextSeq_openEngine_iff {n : ℕ} (hn : 0 < n) {opts : Options} :
    n < (openEngine d opts).nextSeq ↔ d.Has n := by
  show n < d.wal.foldl (fun m r => max m r.seq) (maxVersion (sortedTables d)) + 1 ↔ d.Has n
  rw [Nat.lt_succ_iff, le_foldl_max_iff, le_maxVersion_iff hn, or_comm]
  rfl

namespace Lifetime

/-- The disk still has the highest number that was acknowledged. -/
def Remembers (l : Lifetime) : Prop :=
  ∀ op ∈ l.acknowledged, l.session.disk.Has op.record.seq

/-- The engine is closed only while the disk has the highest number. Calls are within the length
fields of the files, since the log is not read back behind a record that is not. -/
def RemembersWhenClosed (l : Lifetime) : Action → Prop
  | .session (.start r) => r.Fits
  | .session _ => True
  | .reopen _ => l.Remembers

instance (l : Lifetime) : Decidable l.Remembers :=
  inferInstanceAs (Decidable (∀ op ∈ l.acknowledged, _))

instance (l : Lifetime) : (a : Action) → Decidable (l.RemembersWhenClosed a)
  | .session (.start r) => inferInstanceAs (Decidable r.Fits)
  | .session (.caller _) => inferInstanceAs (Decidable True)
  | .session (.loop _ _) => inferInstanceAs (Decidable True)
  | .reopen _ => inferInstanceAs (Decidable l.Remembers)

/-! ### Numbers go up -/

/-- The numbers given so far go up from `1`, and the counter is above them. -/
structure Fresh (l : Lifetime) : Prop where
  wellFormed : l.session.WellFormed
  positive : 0 < l.session.engine.nextSeq
  versions : ∀ op ∈ l.past ++ ops l.session.enqueued,
    0 < op.record.seq ∧ op.entry.version = op.record.seq
  increasing : (l.past ++ ops l.session.enqueued).Pairwise fun a b => a.record.seq < b.record.seq
  below : ∀ op ∈ l.past ++ ops l.session.enqueued, op.record.seq < l.session.engine.nextSeq
  sending : ∀ i op, l.session.phase i = some (.sending op) →
    (0 < op.record.seq ∧ op.entry.version = op.record.seq) ∧
      op.record.seq < l.session.engine.nextSeq ∧
      ∀ x ∈ l.past ++ ops l.session.enqueued, x.record.seq < op.record.seq

/-- What was acknowledged in this session was sent in it. -/
theorem acknowledged_sublist (l : Lifetime) :
    l.acknowledged.Sublist (l.past ++ ops l.session.enqueued) :=
  (List.filter_sublist.map Queued.op).append_left l.past

namespace Fresh

variable {l : Lifetime} {g : GroupCommit} {fate : FileOp → Fate} {i : ℕ} {c : Caller}

/-- Nothing is sent, and no call gets a number. -/
theorem of_quiet (h : l.Fresh) (hwf : g.WellFormed) (henq : g.enqueued = l.session.enqueued)
    (hseq : g.engine.nextSeq = l.session.engine.nextSeq)
    (hsending : ∀ i op, g.phase i = some (.sending op) →
      l.session.phase i = some (.sending op)) : Fresh { l with session := g } where
  wellFormed := hwf
  positive := by rw [hseq]; exact h.positive
  versions := by rw [henq]; exact h.versions
  increasing := by rw [henq]; exact h.increasing
  below := by rw [henq, hseq]; exact h.below
  sending i op hi := by rw [henq, hseq]; exact h.sending i op (hsending i op hi)

/-- A call goes on to anything but sending. -/
theorem of_setPhase (h : l.Fresh) (hwf : g.WellFormed) (hi : l.session.callers[i]? = some c)
    {ph : Phase} (hph : ∀ op, ph ≠ .sending op)
    (hcallers : g.callers = (l.session.setPhase i c ph).callers)
    (henq : g.enqueued = l.session.enqueued) (heng : g.engine = l.session.engine) :
    Fresh { l with session := g } := by
  refine h.of_quiet hwf henq (by rw [heng]) fun j op hj => ?_
  have hphase : g.phase j = (l.session.setPhase i c ph).phase j := by rw [phase, hcallers, phase]
  rw [hphase, phase_setPhase hi] at hj
  split at hj
  · exact absurd (Option.some.inj hj) (hph op)
  · exact hj

/-- A step of `opLoop`. -/
theorem of_loop (h : l.Fresh) (hwf : g.WellFormed) (hcallers : g.callers = l.session.callers)
    (henq : g.enqueued = l.session.enqueued)
    (hseq : g.engine.nextSeq = l.session.engine.nextSeq) : Fresh { l with session := g } :=
  h.of_quiet hwf henq hseq fun j op hj => by
    rw [phase, hcallers] at hj
    exact hj

/-- **A call gets its number.** -/
theorem number (h : l.Fresh) (hwf : (l.session.number i c).WellFormed)
    (hi : l.session.callers[i]? = some c) : Fresh { l with session := l.session.number i c } where
  wellFormed := hwf
  positive := Nat.succ_pos _
  versions := h.versions
  increasing := h.increasing
  below op hop := (h.below op hop).trans (Nat.lt_succ_self _)
  sending j op hj := by
    have hphase : (l.session.number i c).phase j = _ :=
      phase_setPhase hi (.sending (c.request.op l.session.engine.nextSeq)) j
    rw [hphase] at hj
    split at hj
    · -- the counter is above every number so far
      obtain rfl := Phase.sending.inj (Option.some.inj hj)
      rw [Request.seq_op, Request.version_op]
      exact ⟨⟨h.positive, rfl⟩, Nat.lt_succ_self _, h.below⟩
    · obtain ⟨hversion, hlt, hall⟩ := h.sending j op hj
      exact ⟨hversion, hlt.trans (Nat.lt_succ_self _), hall⟩

/-- **An operation is sent**, by the only call that is about to send. -/
theorem send (h : l.Fresh) {op : EngineOp} (hi : l.session.callers[i]? = some c)
    (hphase : c.phase = .sending op) {g : GroupCommit} (hwf : g.WellFormed)
    (hcallers : g.callers = (l.session.setPhase i c .sent).callers)
    (henq : g.enqueued = l.session.enqueued ++ [⟨i, op⟩]) (heng : g.engine = l.session.engine) :
    Fresh { l with session := g } := by
  have hself : l.session.phase i = some (.sending op) := hphase ▸ phase_of_callers hi
  obtain ⟨hversion, hlt, hall⟩ := h.sending i op hself
  have hops : l.past ++ ops g.enqueued = (l.past ++ ops l.session.enqueued) ++ [op] := by
    rw [henq, ops, List.map_append, List.append_assoc]
    rfl
  refine ⟨hwf, heng ▸ h.positive, ?_, ?_, ?_, fun j op' hj => ?_⟩
  · show ∀ x ∈ l.past ++ ops g.enqueued, 0 < x.record.seq ∧ x.entry.version = x.record.seq
    rw [hops]
    exact List.forall_mem_append.mpr ⟨h.versions, List.forall_mem_singleton.mpr hversion⟩
  · show (l.past ++ ops g.enqueued).Pairwise _
    rw [hops, List.pairwise_append]
    refine ⟨h.increasing, List.pairwise_singleton _ _, fun a ha b hb => ?_⟩
    rw [List.mem_singleton.mp hb]
    exact hall a ha
  · show ∀ x ∈ l.past ++ ops g.enqueued, x.record.seq < g.engine.nextSeq
    rw [hops, heng]
    exact List.forall_mem_append.mpr ⟨h.below, List.forall_mem_singleton.mpr hlt⟩
  · -- nobody else has the lock, so nobody else is about to send
    have hj' : (l.session.setPhase i c .sent).phase j = some (.sending op') := by
      rw [phase, ← hcallers]
      exact hj
    rw [phase_setPhase hi] at hj'
    split at hj'
    · cases hj'
    · next hne => exact absurd (h.wellFormed.eq_of_holds hj' hself rfl rfl) hne

/-- **One step of a session** keeps the numbers going up, whatever fails. -/
theorem move (h : l.Fresh) (hmove : Move opChCapacity fate l.session g) :
    Fresh { l with session := g } := by
  have hwf := hmove.wellFormed h.wellFormed
  cases hmove with
  | lock hi _ _ | miss hi _ _ | unlock hi _ | finish hi _ _ _ =>
    exact h.of_setPhase hwf hi (by simp) rfl rfl rfl
  | number hi _ => exact h.number hwf hi
  | send hi hphase _ => exact h.send hi hphase hwf rfl rfl rfl
  | apply _ _ hrun =>
    refine h.of_loop hwf rfl rfl ?_
    exact ((maybeFlushLocked_result _ _ _).of_run_some hrun).1.1.trans (applyAll_spec _ _).2.2.2.2
  | _ => exact h.of_loop hwf rfl rfl rfl

theorem begun (h : l.Fresh) (r : Request) : Fresh { l with session := l.session.begun r } := by
  refine h.of_quiet (h.wellFormed.begun r) rfl rfl fun j op hj => ?_
  rw [phase_begun] at hj
  split at hj
  · cases hj
  · exact hj

/-- A session that has just begun. -/
theorem of_opened {e : Engine} {d : Disk} {clock : ℤ} {past : List EngineOp} (hseq : 0 < e.nextSeq)
    (hversions : ∀ op ∈ past, 0 < op.record.seq ∧ op.entry.version = op.record.seq)
    (hinc : past.Pairwise fun a b => a.record.seq < b.record.seq)
    (hbelow : ∀ op ∈ past, op.record.seq < e.nextSeq) : Fresh ⟨opened e d clock, past⟩ := by
  have hops : past ++ ops (opened e d clock).enqueued = past := List.append_nil past
  refine ⟨wellFormed_opened e d clock, hseq, ?_, ?_, ?_, fun i op hi => ?_⟩
  · rw [hops]; exact hversions
  · rw [hops]; exact hinc
  · rw [hops]; exact hbelow
  · cases hi

/-- **The counter of the next session** is above everything if the disk has the highest number. -/
theorem reopened (h : l.Fresh) (hrem : l.Remembers) (opts : Options) : (l.reopened opts).Fresh := by
  have hsub := l.acknowledged_sublist
  refine of_opened (Nat.succ_pos _) (fun op hop => h.versions op (hsub.subset hop))
    (h.increasing.sublist hsub) fun op hop => ?_
  exact (lt_nextSeq_openEngine_iff (h.versions op (hsub.subset hop)).1).mpr (hrem op hop)

theorem step {l' : Lifetime} {a : Action} (h : l.Fresh) (hok : l.RemembersWhenClosed a)
    (hs : l.step a = some l') : l'.Fresh := by
  cases a with
  | session a =>
    obtain ⟨g, hg, rfl⟩ := Option.map_eq_some_iff.mp hs
    rcases step_cases hg with ⟨r, -, rfl⟩ | hmove
    · exact h.begun r
    · exact h.move hmove
  | reopen opts =>
    obtain ⟨-, rfl⟩ := step_reopen hs
    exact h.reopened hok opts

end Fresh

theorem fresh_of_runs {d : Disk} {opts : Options} {clock : ℤ} {l : Lifetime}
    (h : Runs step RemembersWhenClosed (first d opts clock) l) : l.Fresh :=
  h.invariant (fun _ _ _ h hok hs => h.step hok hs) (Fresh.of_opened (Nat.succ_pos _)
    (nofun) .nil nofun)

/-- **Sequence numbers do not repeat as long as the disk has the highest one whenever the engine is
closed**, and only so long. Along every run from any directory, whatever fails, an operation that
has its number, which is the version of its entry, has a higher one than everything acknowledged
before, in this session or an earlier one. And when every call has returned, the counter of the next
session is above everything acknowledged exactly if the disk has the highest number. -/
theorem numbers_never_repeat_iff {d : Disk} {opts : Options} {clock : ℤ} {l : Lifetime}
    (h : Runs step RemembersWhenClosed (first d opts clock) l) :
    (∀ i op, l.session.phase i = some (.sending op) → op.entry.version = op.record.seq ∧
      ∀ x ∈ l.acknowledged, x.record.seq < op.record.seq) ∧
    ∀ opts' l', l.step (.reopen opts') = some l' →
      ((∀ x ∈ l'.acknowledged, x.record.seq < l'.session.engine.nextSeq) ↔ l.Remembers) := by
  have hfresh := fresh_of_runs h
  have hsub := l.acknowledged_sublist
  refine ⟨fun i op hi => ?_, fun opts' l' hs => ?_⟩
  · obtain ⟨⟨-, hversion⟩, -, hall⟩ := hfresh.sending i op hi
    exact ⟨hversion, fun x hx => hall x (hsub.subset hx)⟩
  · obtain ⟨-, rfl⟩ := step_reopen hs
    rw [acknowledged_reopened]
    exact forall₂_congr fun x hx =>
      lt_nextSeq_openEngine_iff (hfresh.versions x (hsub.subset hx)).1

/-- Calls that are served in one batch, and return. -/
def served (now : ℤ) (rs : List Request) : List Action :=
  (inOneBatch now rs ++ (List.range rs.length).map GroupCommit.Action.caller).map .session

/-- A call that has just got its number. -/
def numbering (r : Request) : List Action :=
  [.session (.start r), .session (.caller 0), .session (.caller 0)]

/-- A key is set and flushed, the engine is closed and opened, and the key is set again. -/
theorem numbers_go_on_after_a_put : ∃ l : Lifetime,
    Runs step RemembersWhenClosed (first .empty ⟨0, 1⟩ 0) l ∧
      l.acknowledged.map (fun op => op.record.seq) = [1] ∧
      ∃ op, l.session.phase 0 = some (.sending op) ∧ op.record.seq = 2 ∧
        ∀ x ∈ l.acknowledged, x.record.seq < op.record.seq := by
  have hrun := Runs.of_exec_guarded (show exec (guarded step RemembersWhenClosed)
      (first .empty ⟨0, 1⟩ 0) (served 0 [.put 0 [97] [1] [] 0] ++
        .reopen ⟨0, 1⟩ :: numbering (.put 0 [97] [2] [] 0)) = some _ from rfl)
  exact ⟨_, hrun, rfl, _, rfl, rfl, ((numbers_never_repeat_iff hrun).1 0 _ rfl).2⟩

/-- No file operation fails. -/
def NoFault (l : Lifetime) : Action → Prop
  | .session a => l.session.NoFault a
  | .reopen _ => True

theorem noFault_served {now : ℤ} {rs : List Request} {a : Action} (ha : a ∈ served now rs)
    (l : Lifetime) : l.NoFault a := by
  obtain ⟨a', ha', rfl⟩ := List.mem_map.mp ha
  rcases List.mem_append.mp ha' with ha' | ha'
  · exact noFault_inOneBatch _ _ a' ha' l.session
  · obtain ⟨i, -, rfl⟩ := List.mem_map.mp ha'
    exact fun _ => rfl

theorem noFault_numbering {r : Request} {a : Action} (ha : a ∈ numbering r) (l : Lifetime) :
    l.NoFault a := by
  simp only [numbering, List.mem_cons, List.not_mem_nil, or_false] at ha
  rcases ha with rfl | rfl | rfl <;> exact fun _ => rfl

/-- **A deleted key takes its number with it.** The key is set and deleted, with a flush and a
restart after each. The second flush is followed by a compaction, which drops the tombstone and
leaves an empty table, so that the next `Open` starts again at `1`. -/
theorem numbers_repeat_after_a_delete : ∃ l : Lifetime,
    Runs step NoFault (first .empty ⟨0, 1⟩ 0) l ∧
      l.acknowledged.map (fun op => op.record.seq) = [1, 2] ∧
      ∃ op, l.session.phase 0 = some (.sending op) ∧ op.record.seq = 1 ∧ op.entry.version = 1 := by
  refine ⟨_, Runs.of_exec_all (fun a ha l => ?_) (show exec step (first .empty ⟨0, 1⟩ 0)
      (served 0 [.put 0 [97] [1] [] 0] ++ .reopen ⟨0, 1⟩ :: (served 0 [.delete 0 [97]] ++
        .reopen ⟨0, 1⟩ :: numbering (.put 0 [98] [2] [] 0))) = some _ from rfl),
    rfl, _, rfl, rfl, rfl⟩
  simp only [List.mem_append, List.mem_cons] at ha
  rcases ha with ha | rfl | ha | rfl | ha
  · exact noFault_served ha l
  · trivial
  · exact noFault_served ha l
  · trivial
  · exact noFault_numbering ha l

end Lifetime

/-! ### What is lost -/

/-- The version of an entry that `Open` would rebuild is on the disk. -/
theorem Disk.has_of_view {k : Key} {x : Entry} (h : d.view k = some x) :
    d.Has x.version := by
  rw [Disk.view, overlay, Option.or_eq_some_iff] at h
  rcases h with hwal | ⟨-, htab⟩
  · -- in a record
    obtain ⟨r, hr, hrecord⟩ :=
      List.mem_filterMap.mp ((eq_some_of_writes hwal).resolve_left (by simp))
    obtain ⟨x', hx', heq⟩ := Option.map_eq_some_iff.mp hrecord
    obtain ⟨-, rfl⟩ := Prod.mk.inj heq
    refine .inl ⟨r, hr, ?_⟩
    unfold recordEntry at hx'
    split at hx'
    · exact (congrArg Entry.version (Option.some.inj hx')).ge
    · split at hx'
      · exact (congrArg Entry.version (Option.some.inj hx')).ge
      · cases hx'
  · -- in a table
    obtain ⟨l, hl, hk⟩ := exists_of_stack_eq_some htab
    obtain ⟨st, hst, rfl⟩ := List.mem_map.mp hl
    obtain ⟨te, hte, rfl⟩ := Option.map_eq_some_iff.mp hk
    exact .inr ⟨st, hst, te, List.mem_reverse.mp (List.mem_of_find?_eq_some hte), le_rfl⟩

namespace GroupCommit

variable {g : GroupCommit} {h : Layer Key Entry} {log : List Record}

/-- When every call has returned, `opLoop` has nothing left. -/
theorem WellFormed.unanswered_eq_nil (hg : g.WellFormed) (hquiet : g.active = []) :
    g.loop.batch = [] ∧ g.opCh = [] := by
  have hnone : g.unanswered = [] := by
    refine List.eq_nil_iff_forall_not_mem.mpr fun i hi => ?_
    obtain ⟨ph, hph, hqueued⟩ := hg.unanswered_queued i hi
    have hactive : i ∈ g.active := mem_active.mpr ⟨ph, hph, by cases ph <;> simp_all [Phase.queued,
      Phase.inProgress]⟩
    rw [hquiet] at hactive
    cases hactive
  exact List.append_eq_nil_iff.mp (List.map_eq_nil_iff.mp hnone)

/-- Then everything has been logged, applied and acknowledged. -/
theorem Pipeline.acknowledged_eq (hp : g.Pipeline h log) (hg : g.WellFormed)
    (hquiet : g.active = []) :
    g.appended = g.enqueued ∧ g.loop.logged = [] ∧ g.acknowledged = ops g.enqueued := by
  obtain ⟨hbatch, hch⟩ := hg.unanswered_eq_nil hquiet
  have hparts : g.loop.unlogged = [] ∧ g.loop.logged = [] ∧ g.loop.owed = [] := by
    cases hl : g.loop <;> simp_all [Loop.batch, Loop.unlogged, Loop.logged, Loop.owed]
  obtain ⟨hunlogged, hlogged, howed⟩ := hparts
  have happended : g.appended = g.enqueued := by
    rw [hp.queue, hunlogged, hch, List.append_nil, List.append_nil]
  refine ⟨happended, hlogged, ?_⟩
  rw [acknowledged, List.filter_eq_self.mpr fun q hq => ?_]
  -- a call that was answered was answered with success
  have hanswered : q.caller ∈ g.answered := by
    have hans := hp.answers
    rw [howed, List.map_nil, List.append_nil, happended] at hans
    exact hans ▸ List.mem_map_of_mem hq
  obtain ⟨r, hr, hcaller⟩ := List.mem_map.mp hanswered
  rw [List.contains_iff_mem, ← hcaller, ← hp.succeeds.2 r hr]
  exact hr

end GroupCommit

namespace Lifetime

/-- No file operation fails, calls can be stored, and table numbers have at most six digits when the
engine is closed. -/
def Healthy (l : Lifetime) : Action → Prop
  | .session a => Faultless l.session a
  | .reopen _ => ∀ st ∈ l.session.disk.tables, st.1 < 10 ^ 6

/-- The session was begun on a disk that stands for what was acknowledged before it. -/
def Grounded (l : Lifetime) : Prop :=
  ∃ e d clock, Ready clock (effect l.past) e d ∧
    Runs (GroupCommit.step opChCapacity) Faultless (opened e d clock) l.session

/-- When every call has returned, the disk stands for everything that was acknowledged. -/
theorem Grounded.rep {l : Lifetime} (h : l.Grounded) (hquiet : l.Quiet) :
    l.acknowledged = l.past ++ ops l.session.enqueued ∧
      Rep True l.session.clock (effect l.acknowledged) l.session.engine l.session.disk ∧
      l.session.disk.wal.Pairwise fun a b => a.seq < b.seq := by
  obtain ⟨e, d, clock, hready, hrun⟩ := h
  obtain ⟨hwf, hn, hp⟩ := hready.ordered hrun
  obtain ⟨happended, hlogged, hack⟩ := hp.acknowledged_eq hwf hquiet
  have hall : l.acknowledged = l.past ++ ops l.session.enqueued := by rw [acknowledged, hack]
  have hrep := hp.rep
  have hentries : entries l.session.enqueued = (ops l.session.enqueued).map EngineOp.write := by
    rw [ops, List.map_map]
    rfl
  rw [happended, hlogged, hentries, ← effect_append, ← hall] at hrep
  exact ⟨hall, hrep, hp.wal_increasing hn⟩

theorem Grounded.step {l l' : Lifetime} {a : Action} (h : l.Grounded) (hok : l.Healthy a)
    (hs : l.step a = some l') : l'.Grounded := by
  cases a with
  | session a =>
    obtain ⟨g, hg, rfl⟩ := Option.map_eq_some_iff.mp hs
    obtain ⟨e, d, clock, hready, hrun⟩ := h
    exact ⟨e, d, clock, hready, hrun.tail a hok hg⟩
  | reopen opts =>
    obtain ⟨hquiet, rfl⟩ := step_reopen hs
    obtain ⟨-, hrep, hinc⟩ := h.rep hquiet
    exact ⟨_, _, _, ready_openEngine (d := l.session.disk.cleanup)
      (hrep.recoverable.congr rfl rfl) hok hinc opts, .refl _⟩

/-- **Nothing but a dead entry is forgotten.** As long as nothing fails, the disk has the highest
number whenever the last operation that was acknowledged has left an entry that can be seen. -/
theorem remembers_of_live {opts : Options} {clock : ℤ} {l : Lifetime}
    (h : Runs step (fun l a => l.Healthy a ∧ l.RemembersWhenClosed a) (first .empty opts clock) l)
    (hquiet : l.Quiet)
    (hlive : ∀ op ∈ l.acknowledged.getLast?, op.entry.dead l.session.clock = false) :
    l.Remembers := by
  have hfresh : l.Fresh := fresh_of_runs (h.mono fun _ _ hok => hok.2)
  have hgrounded : l.Grounded := h.invariant (fun _ _ _ h hok hs => h.step hok.1 hs)
    ⟨_, _, _, ready_openEngine (Rep.recoverable (sound_new True opts clock))
      (by simp [Store.new, Disk.empty]) .nil opts, .refl _⟩
  obtain ⟨hall, hrep, -⟩ := hgrounded.rep hquiet
  rcases List.eq_nil_or_concat l.acknowledged with hnil | ⟨init, last, hlast⟩
  · intro op hop
    rw [hnil] at hop
    cases hop
  rw [List.concat_eq_append] at hlast
  -- the last operation has the highest number
  have hmax : ∀ op ∈ l.acknowledged, op.record.seq ≤ last.record.seq := by
    intro op hop
    have hinc := hfresh.increasing
    rw [← hall, hlast, List.pairwise_append] at hinc
    rw [hlast] at hop
    rcases List.mem_append.mp hop with hop | hop
    · exact (hinc.2.2 op hop last List.mem_cons_self).le
    · rw [List.mem_singleton.mp hop]
  have hview : l.session.disk.view last.key = some last.entry := by
    have heffect : effect l.acknowledged last.key = some last.entry := by
      rw [hlast]
      exact effect_snoc_self init last
    rcases hrep.view last.key with heq | ⟨-, hdead⟩
    · exact heq.trans heffect
    · have hseen := hlive last (by rw [hlast, List.getLast?_concat]; rfl)
      rw [hdead _ heffect] at hseen
      cases hseen
  have hversion : last.entry.version = last.record.seq :=
    (hfresh.versions last (by rw [← hall, hlast]; exact List.mem_concat_self)).2
  intro op hop
  exact (hversion ▸ Disk.has_of_view hview).mono (hmax op hop)

theorem healthy_served {now : ℤ} {rs : List Request} (hrs : ∀ r ∈ rs, r.Storable) :
    ∀ a ∈ served now rs, ∀ l : Lifetime, l.Healthy a ∧ l.RemembersWhenClosed a := by
  intro a ha l
  obtain ⟨a', ha', rfl⟩ := List.mem_map.mp ha
  have hhealthy : Faultless l.session a' := by
    rcases List.mem_append.mp ha' with ha' | ha'
    · exact faultless_inOneBatch _ hrs a' ha' l.session
    · obtain ⟨i, -, rfl⟩ := List.mem_map.mp ha'
      exact ⟨fun _ => rfl, nofun⟩
  refine ⟨hhealthy, ?_⟩
  cases a' with
  | start r => exact (hhealthy.2 r rfl).2
  | caller i => trivial
  | loop now fate => trivial

/-- A key is set, the engine is closed and opened, and another key is set. -/
theorem remembers_after_reopening : ∃ l : Lifetime,
    l.acknowledged.map (fun op => op.record.seq) = [1, 2] ∧ l.Remembers := by
  obtain ⟨l₁, l₂, l, h₁, hsmall, hclosed, h₂, h, hquiet, hack, hlive⟩ : ∃ l₁ l₂ l : Lifetime,
      exec step (first .empty ⟨0, 1⟩ 0) (served 0 [.put 0 [97] [1] [] 0]) = some l₁ ∧
      (∀ st ∈ l₁.session.disk.tables, st.1 < 10 ^ 6) ∧ l₁.Remembers ∧
      l₁.step (.reopen ⟨0, 1⟩) = some l₂ ∧
      exec step l₂ (served 0 [.put 0 [98] [1] [] 0]) = some l ∧ l.Quiet ∧
      l.acknowledged.map (fun op => op.record.seq) = [1, 2] ∧
      ∀ op ∈ l.acknowledged.getLast?, op.entry.dead l.session.clock = false :=
    ⟨_, _, _, rfl, by decide +kernel, by decide +kernel, rfl, rfl, by decide +kernel,
      by decide +kernel, by decide +kernel⟩
  have hrun₁ := Runs.of_exec_all (healthy_served (by decide)) h₁
  have hrun₂ := Runs.of_exec_all (healthy_served (by decide)) h
  have hok : l₁.Healthy (.reopen ⟨0, 1⟩) ∧ l₁.RemembersWhenClosed (.reopen ⟨0, 1⟩) :=
    ⟨hsmall, hclosed⟩
  exact ⟨l, hack, remembers_of_live ((hrun₁.tail _ hok h₂).trans hrun₂) hquiet hlive⟩

end Lifetime
end Storage
end BoilerPulse
