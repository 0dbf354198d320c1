import BoilerPulse.Storage.Observed

/-!
# Storage: when histories of the engine are linearizable

The history of the calls of `Get`, `Put` and `Delete` is measured against `MemStore`, which serves
one call at a time. `Get` takes effect at its lookup, and so does a `Delete` that finds nothing.
`Put` and a `Delete` that finds its key take effect when `opLoop` applies them, in the order in
which they were enqueued.

A `Delete` decides at its lookup, and what it has found may be deleted by an operation that is
enqueued and not applied. Then the key is deleted twice, and both callers are told so
(`GroupCommit.StillFound` rules that out). Otherwise every history is linearizable.
-/

namespace BoilerPulse
namespace Storage

open Framework GroupCommit

/-! ### Calls that have been sent -/

namespace GroupCommit

section Sent

variable {g : GroupCommit} {h : Layer Key Entry} {log : List Record} {i : ℕ}

/-- Whoever has a result has its operation applied. -/
theorem Pipeline.mem_mutations_of_answered (hp : g.Pipeline h log) (hi : i ∈ g.answered) :
    i ∈ g.mutations.map Queued.caller := by
  have hall := hp.answers
  rw [hp.applied, List.map_append] at hall
  have hlogged : g.loop.logged = g.loop.owed ∨ g.loop.logged = [] := by
    cases g.loop <;> simp [Loop.logged, Loop.owed]
  rcases hlogged with hlogged | hlogged
  · rw [hlogged] at hall
    exact List.append_cancel_right hall ▸ hi
  · rw [hlogged, List.map_nil, List.append_nil] at hall
    rw [hall]
    exact List.mem_append_left _ hi

/-- Whoever has sent an operation is past that point. -/
theorem Pipeline.past_of_enqueued (hp : g.Pipeline h log) (hg : g.WellFormed)
    (hi : i ∈ g.enqueued.map Queued.caller) : ∃ ph, g.phase i = some ph ∧ ph.past = true := by
  rw [hp.callers_eq] at hi
  rcases List.mem_append.mp hi with hi | hi
  · exact hg.answered_past i hi
  · obtain ⟨ph, hph, hq⟩ := hg.unanswered_queued i hi
    exact ⟨ph, hph, by cases ph <;> simp_all [Phase.queued, Phase.past]⟩

theorem Pipeline.mem_enqueued_of_mutations (hp : g.Pipeline h log)
    (hi : i ∈ g.mutations.map Queued.caller) : i ∈ g.enqueued.map Queued.caller := by
  rw [hp.enqueued_eq, List.map_append]
  exact List.mem_append_left _ hi

end Sent

end GroupCommit

/-! ### The order of the calls -/

/-- The order `L` explains the history of `s`, and leaves `MemStore` with what has been applied. -/
structure Observed.Traced (store : MemStore) (m₀ : Model) (s : Observed)
    (L : List (Served CallId Call Reply)) (st : MemStore) : Prop where
  lin : Linearization memStore.serve store s.history L st
  stands : memStore.Stands 0 st (m₀.writeAll s.group.mutations)
  begun : ∀ i r, s.group.requestOf i = some r → .invoke (.write i) r.call ∈ s.history
  reading : ∀ j r, s.readers[j]? = some r → .invoke (.read j) (.get r.now r.key) ∈ s.history
  /-- A writer in the order has been applied, or has returned without. -/
  writes : ∀ x ∈ L, ∀ i, x.id = .write i →
    i ∈ s.group.mutations.map Queued.caller ∨ ∃ res, s.group.phase i = some (.returned res)
  /-- A reader in the order has read. -/
  reads : ∀ x ∈ L, ∀ j, x.id = .read j → ∃ r, s.readers[j]? = some r ∧ r.phase ≠ .locking
  applied : ∀ i ∈ s.group.mutations.map Queued.caller, ∃ op, ⟨.write i, op, .wrote none⟩ ∈ L
  found : ∀ j r res, s.readers[j]? = some r → r.phase = .found res →
    ∃ op, ⟨.read j, op, .got res⟩ ∈ L

namespace Observed

section Steps

variable {capacity : ℕ} {store st : MemStore} {m₀ : Model} {log : List Record} {s : Observed}
  {g' : GroupCommit} {L : List (Served CallId Call Reply)} {i : ℕ} {c : Caller} {r : Reader}
  {batch : List Queued} {j : ℕ}

/-- Group commit goes on, and nobody sees anything. -/
theorem Traced.of_group (ht : s.Traced store m₀ L st)
    (hreq : ∀ i r, g'.requestOf i = some r → s.group.requestOf i = some r)
    (hmut : g'.mutations = s.group.mutations)
    (hret : ∀ i res, s.group.phase i = some (.returned res) → g'.phase i = some (.returned res)) :
    Traced store m₀ { s with group := g' } L st where
  lin := ht.lin
  stands := by
    rw [hmut]
    exact ht.stands
  begun i r hr := ht.begun i r (hreq i r hr)
  reading := ht.reading
  writes x hx i hi := by
    rw [hmut]
    rcases ht.writes x hx i hi with hmem | ⟨res, hres⟩
    · exact .inl hmem
    · exact .inr ⟨res, hret i res hres⟩
  reads := ht.reads
  applied := by
    rw [hmut]
    exact ht.applied
  found := ht.found

/-- A call of a writer goes on. -/
theorem Traced.of_setPhase (ht : s.Traced store m₀ L st) (hi : s.group.callers[i]? = some c)
    (ph : Phase) (g' : GroupCommit) (hold : ∀ res, c.phase ≠ .returned res)
    (hcallers : g'.callers = (s.group.setPhase i c ph).callers)
    (hmut : g'.mutations = s.group.mutations) :
    Traced store m₀ { s with group := g' } L st ∧ g'.phase i = some ph := by
  have hphase : ∀ j, g'.phase j = if j = i then some ph else s.group.phase j := by
    intro j
    rw [← phase_setPhase hi ph j, phase, hcallers, phase]
  refine ⟨ht.of_group (fun j r hj => ?_) hmut (fun j res hj => ?_), (hphase i).trans (if_pos rfl)⟩
  · rw [requestOf, hcallers] at hj
    exact (requestOf_setPhase hi ph j).symm.trans hj
  · rw [hphase]
    split
    · next heq =>
      rw [heq, phase_of_callers hi] at hj
      exact absurd (Option.some.inj hj) (hold res)
    · exact hj

theorem eventsOf_returned {g : GroupCommit} (hi : g.callers[i]? = some c) (res : Option Error)
    (hcallers : g'.callers = (g.setPhase i c (.returned res)).callers) :
    eventsOf g g' (.caller i) = [.respond (.write i) (.wrote res)] := by
  have hph : g'.phase i = some (.returned res) := by
    rw [phase, hcallers]
    exact (phase_setPhase hi _ i).trans (if_pos rfl)
  rw [eventsOf, hph]

/-- Nobody sees a call go on that does not return. -/
theorem Traced.silent (ht : s.Traced store m₀ L st) (hi : s.group.callers[i]? = some c) (ph : Phase)
    (hold : ∀ res, c.phase ≠ .returned res) (hnew : ∀ res, ph ≠ .returned res)
    (hcallers : g'.callers = (s.group.setPhase i c ph).callers)
    (hmut : g'.mutations = s.group.mutations) :
    Traced store m₀
      { s with group := g', history := s.history ++ eventsOf s.group g' (.caller i) } L st := by
  obtain ⟨ht', hph⟩ := ht.of_setPhase hi ph g' hold hcallers hmut
  have hevents : eventsOf s.group g' (.caller i) = [] := by
    rw [eventsOf, hph]
    cases ph with
    | returned res => exact absurd rfl (hnew res)
    | _ => rfl
  rw [hevents, List.append_nil]
  exact ht'

/-- The history gets longer. -/
theorem Traced.of_history (ht : s.Traced store m₀ L st) {history : CallHistory}
    (hlin : Linearization memStore.serve store (s.history ++ history) L st) :
    Traced store m₀ { s with history := s.history ++ history } L st where
  lin := hlin
  stands := ht.stands
  begun i r hr := List.mem_append_left _ (ht.begun i r hr)
  reading j r hr := List.mem_append_left _ (ht.reading j r hr)
  writes := ht.writes
  reads := ht.reads
  applied := ht.applied
  found := ht.found

/-- A call that takes effect and leaves what has been applied. -/
theorem Traced.of_point (ht : s.Traced store m₀ L st) {id : CallId} {op : Call} {res : Reply}
    {st' : MemStore}
    (hlin : Linearization memStore.serve store s.history (L ++ [⟨id, op, res⟩]) st')
    (hst' : memStore.Stands 0 st' (m₀.writeAll s.group.mutations))
    (hwrite : ∀ i, id = .write i → ∃ res, s.group.phase i = some (.returned res))
    (hread : ∀ j, id = .read j → ∃ r, s.readers[j]? = some r ∧ r.phase ≠ .locking) :
    s.Traced store m₀ (L ++ [⟨id, op, res⟩]) st' where
  lin := hlin
  stands := hst'
  begun := ht.begun
  reading := ht.reading
  writes x hx i hi := by
    rcases List.mem_append.mp hx with hx | hx
    · exact ht.writes x hx i hi
    · rw [List.mem_singleton.mp hx] at hi
      exact .inr (hwrite i hi)
  reads x hx j hj := by
    rcases List.mem_append.mp hx with hx | hx
    · exact ht.reads x hx j hj
    · rw [List.mem_singleton.mp hx] at hj
      exact hread j hj
  applied i hi := (ht.applied i hi).imp fun _ => List.mem_append_left _
  found j r res' hj hres := (ht.found j r res' hj hres).imp fun _ => List.mem_append_left _

/-- A writer that has neither sent nor returned is not in the order. -/
theorem Traced.write_notMem (ht : s.Traced store m₀ L st) (hg : s.group.WellFormed)
    (hp : s.group.Pipeline m₀.map log) (i : ℕ)
    (hpast : ∀ ph, s.group.phase i = some ph → ph.past = false) :
    ∀ x ∈ L, x.id ≠ .write i := by
  intro x hx hid
  rcases ht.writes x hx i hid with hmem | ⟨res, hres⟩
  · obtain ⟨ph, hph, hpast'⟩ := hp.past_of_enqueued hg (hp.mem_enqueued_of_mutations hmem)
    rw [hpast ph hph] at hpast'
    cases hpast'
  · cases hpast _ hres

/-- There is a new writer. -/
theorem Traced.start (ht : s.Traced store m₀ L st) (hg : s.group.WellFormed)
    (hp : s.group.Pipeline m₀.map log) (r : Request) :
    Traced store m₀ { s with
      group := s.group.begun r
      history := s.history ++ [.invoke (.write s.group.callers.length) r.call] } L st := by
  have hnone := phase_length s.group
  have hnew := ht.write_notMem hg hp s.group.callers.length fun ph hph => by
    rw [hnone] at hph
    cases hph
  have hlin := ht.lin.invoke hnew r.call
  refine ⟨hlin, ht.stands, fun i r' hi => ?_, fun j r' hj => ?_, fun x hx i hi => ?_, ht.reads,
    ht.applied, ht.found⟩
  · by_cases heq : i = s.group.callers.length
    · subst heq
      have hr' : r' = r := by simpa [requestOf, GroupCommit.begun] using hi.symm
      rw [hr']
      exact List.mem_concat_self
    · refine List.mem_append_left _ (ht.begun i r' ?_)
      rw [← hi, requestOf, requestOf, GroupCommit.begun]
      rcases Nat.lt_or_gt_of_ne heq with hlt | hgt
      · rw [List.getElem?_append_left hlt]
      · rw [List.getElem?_eq_none (by omega), List.getElem?_eq_none (by simp; omega)]
  · exact List.mem_append_left _ (ht.reading j r' hj)
  · rcases ht.writes x hx i hi with hmem | ⟨res, hres⟩
    · exact .inl hmem
    · refine .inr ⟨res, ?_⟩
      -- the new writer has not been answered
      rw [phase_begun, if_neg, hres]
      intro heq
      rw [heq, hnone] at hres
      cases hres

/-- A `Delete` finds nothing, which is its point, and returns. -/
theorem Traced.miss (ht : s.Traced store m₀ L st) (hq : s.group.Queue m₀) (hg : s.group.WellFormed)
    (hp : s.group.Pipeline m₀.map log) (hi : s.group.callers[i]? = some c) {now : ℤ} {key : Key}
    {err : Error} (hphase : c.phase = .locked) (hreq : c.request = .delete now key)
    (hmiss : s.group.engine.lookupLocked now key = .error err) (hnow : s.group.clock ≤ now) :
    ∃ L' st', Traced store m₀ { s with
      group := { s.group.setPhase i c (.returned (some err)) with mu := none }
      history := s.history ++ [.respond (.write i) (.wrote (some err))] } L' st' := by
  have hold := hphase ▸ phase_of_callers hi
  have hnew := ht.write_notMem hg hp i fun ph hph => by
    rw [hold] at hph
    rw [← Option.some.inj hph]
    rfl
  have hinv : .invoke (.write i) (.delete now now key) ∈ s.history := by
    have := ht.begun i c.request (requestOf_of_callers hi)
    rwa [hreq] at this
  -- what is missing from the engine is dead for whoever looks now
  have hmiss' : checked now ((m₀.writeAll s.group.mutations).map key) = .error err := by
    have hget : s.group.engine.get now key = .error err := hmiss
    rw [Engine.get_eq, checked_eq, hq.pruned.live_eq Entry.dead_mono hnow, ← checked_eq] at hget
    exact hget
  obtain ⟨hres, hst'⟩ := serve_of_missed ht.stands hmiss'
  have hlin := ht.lin.point hinv hnew
  rw [hres] at hlin
  obtain ⟨ht', hph⟩ := ht.of_setPhase hi (.returned (some err))
    { s.group.setPhase i c (.returned (some err)) with mu := none } (by simp [hphase]) rfl rfl
  have hpoint := ht'.of_point hlin hst' (fun j hj => ⟨some err, CallId.write.inj hj ▸ hph⟩) (nofun)
  exact ⟨_, _, hpoint.of_history (hlin.respond List.mem_concat_self)⟩

/-- A writer returns with what it has received. -/
theorem Traced.finish (ht : s.Traced store m₀ L st) (hp : s.group.Pipeline m₀.map log)
    (hi : s.group.callers[i]? = some c) (hphase : c.phase = .waiting)
    {r : ℕ × Option (List String)} (hr : r ∈ s.group.results) (hri : r.1 = i) :
    Traced store m₀ { s with
      group := s.group.setPhase i c (.returned (resultOf r.2))
      history := s.history ++ [.respond (.write i) (.wrote (resultOf r.2))] } L st := by
  obtain ⟨ht', -⟩ := ht.of_setPhase hi (.returned (resultOf r.2))
    (s.group.setPhase i c (.returned (resultOf r.2))) (by simp [hphase]) rfl rfl
  refine ht'.of_history ?_
  have hans : i ∈ s.group.answered := hri ▸ List.mem_map_of_mem hr
  obtain ⟨op, hmem⟩ := ht.applied i (hp.mem_mutations_of_answered hans)
  rw [hp.succeeds.2 r hr]
  exact ht.lin.respond hmem

/-- The calls of a batch take effect one after the other. -/
theorem points_of_takes {history : CallHistory} {f : ℕ → Option Request}
    (hinv : ∀ i r, f i = some r → .invoke (.write i) r.call ∈ history)
    (hnodup : (batch.map Queued.caller).Nodup) : ∀ {m : Model} {L : List (Served CallId Call Reply)}
    {st : MemStore},
    Linearization memStore.serve store history L st → memStore.Stands 0 st m → Takes f m batch →
    (∀ q ∈ batch, ∀ x ∈ L, x.id ≠ .write q.caller) →
    ∃ L' st', Linearization memStore.serve store history L' st' ∧
      memStore.Stands 0 st' (m.writeAll batch) ∧ (∀ x ∈ L, x ∈ L') ∧
      (∀ x ∈ L', x ∈ L ∨ ∃ i ∈ batch.map Queued.caller, x.id = .write i) ∧
      ∀ i ∈ batch.map Queued.caller, ∃ op, ⟨.write i, op, .wrote none⟩ ∈ L' := by
  induction batch with
  | nil =>
    intro m L st hlin hst _ _
    exact ⟨L, st, hlin, hst, fun x hx => hx, fun x hx => .inl hx, by simp⟩
  | cons q batch ih =>
    intro m L st hlin hst htakes hnew
    obtain ⟨⟨r, hr, hop, hfound⟩, hrest⟩ := htakes
    obtain ⟨hq, hnodup⟩ := List.nodup_cons.mp hnodup
    -- the first call of the batch
    obtain ⟨hres, hst'⟩ := serve_of_found hst hfound
    rw [← hop] at hst'
    have hlin' := hlin.point (hinv q.caller r hr) (hnew q List.mem_cons_self)
    rw [hres] at hlin'
    have hnew' : ∀ q' ∈ batch, ∀ x ∈ L ++ [⟨.write q.caller, r.call, .wrote none⟩],
        x.id ≠ .write q'.caller := by
      intro q' hq' x hx hid
      rcases List.mem_append.mp hx with hx | hx
      · exact hnew q' (List.mem_cons_of_mem q hq') x hx hid
      · rw [List.mem_singleton.mp hx] at hid
        exact hq (CallId.write.inj hid ▸ List.mem_map_of_mem hq')
    -- and the others
    obtain ⟨L', st', hlin'', hst'', hsub, hmem, hall⟩ := ih hnodup hlin' hst' hrest hnew'
    refine ⟨L', st', hlin'', ?_, fun x hx => hsub x (List.mem_append_left _ hx), fun x hx => ?_,
      fun i hi => ?_⟩
    · rw [Model.writeAll_cons]
      exact hst''
    · rcases hmem x hx with hx | ⟨i, hi, hid⟩
      · rcases List.mem_append.mp hx with hx | hx
        · exact .inl hx
        · rw [List.mem_singleton.mp hx]
          exact .inr ⟨q.caller, List.mem_cons_self, rfl⟩
      · exact .inr ⟨i, List.mem_cons_of_mem _ hi, hid⟩
    · rcases List.mem_cons.mp hi with rfl | hi
      · exact ⟨r.call, hsub _ List.mem_concat_self⟩
      · exact hall i hi

/-- The calls of a batch are not in the order before it is applied. -/
theorem Traced.batch_notMem (ht : s.Traced store m₀ L st) (hg : s.group.WellFormed)
    (hloop : s.group.loop = .locked batch)
    (honce : ∀ i ∈ s.group.mutations.map Queued.caller, ∀ j ∈ batch.map Queued.caller, i ≠ j) :
    ∀ q ∈ batch, ∀ x ∈ L, x.id ≠ .write q.caller := by
  intro q hq x hx hid
  have hun : q.caller ∈ s.group.unanswered := by
    rw [unanswered, hloop]
    exact List.mem_map_of_mem (List.mem_append_left _ hq)
  rcases ht.writes x hx q.caller hid with hmem | ⟨res, hres⟩
  · -- a call sends once
    exact honce _ hmem _ (List.mem_map_of_mem hq) rfl
  · cases hg.queued_of_unanswered hres hun

/-- `opLoop` applies a batch, which is the point of its calls. -/
theorem Traced.apply (ht : s.Traced store m₀ L st) (hq : s.group.Queue m₀) (hg : s.group.WellFormed)
    (hp : s.group.Pipeline m₀.map log) (hloop : s.group.loop = .locked batch)
    (hcallers : g'.callers = s.group.callers) (hmut : g'.mutations = s.group.mutations ++ batch) :
    ∃ L' st', Traced store m₀ { s with group := g' } L' st' := by
  -- the batch is what comes first among the operations that are not applied
  have hpending : s.group.pending = batch ++ s.group.opCh := by
    rw [pending, hloop]
    simp [Loop.logged, Loop.unlogged]
  have henq := hp.enqueued_eq
  rw [hpending, ← List.append_assoc] at henq
  have htakes := hq.takes
  rw [henq, takes_append, takes_append] at htakes
  have hnodup := hp.callers_nodup hg
  rw [henq, List.map_append, List.map_append] at hnodup
  have hnodup := (List.nodup_append.mp hnodup).1
  have hphase : ∀ j, g'.phase j = s.group.phase j := fun j => by rw [phase, hcallers, phase]
  obtain ⟨L', st', hlin, hst', hsub, hmem, hall⟩ := points_of_takes ht.begun
    (List.nodup_append.mp hnodup).2.1 ht.lin ht.stands htakes.1.2
    (ht.batch_notMem hg hloop (List.nodup_append.mp hnodup).2.2)
  refine ⟨L', st', hlin, ?_, fun i r hi => ?_, ht.reading, fun x hx i hid => ?_,
    fun x hx j hid => ?_, fun i hi => ?_, fun j r res hj hres => ?_⟩
  · rw [hmut, Model.writeAll_append]
    exact hst'
  · rw [requestOf, hcallers] at hi
    exact ht.begun i r hi
  · rw [hmut, List.map_append]
    rcases hmem x hx with hx | ⟨j, hj, hid'⟩
    · rcases ht.writes x hx i hid with hmem | ⟨res, hres⟩
      · exact .inl (List.mem_append_left _ hmem)
      · exact .inr ⟨res, (hphase i).trans hres⟩
    · obtain rfl := CallId.write.inj (hid.symm.trans hid')
      exact .inl (List.mem_append_right _ hj)
  · rcases hmem x hx with hx | ⟨i, -, hid'⟩
    · exact ht.reads x hx j hid
    · cases hid.symm.trans hid'
  · rw [hmut, List.map_append] at hi
    rcases List.mem_append.mp hi with hi | hi
    · exact (ht.applied i hi).imp fun _ => hsub _
    · exact hall i hi
  · exact (ht.found j r res hj hres).imp fun _ => hsub _

/-- The readers when one of them goes on. -/
theorem readers_setReader (hj : s.readers[j]? = some r) (ph : ReaderPhase) (k : ℕ)
    : (s.setReader j r ph).readers[k]?
      = if k = j then some { r with phase := ph } else s.readers[k]? := by
  obtain ⟨hlt, -⟩ := List.getElem?_eq_some_iff.mp hj
  unfold setReader
  split
  · next heq =>
    subst heq
    exact List.getElem?_set_self hlt
  · next hne => exact List.getElem?_set_ne (Ne.symm hne)

/-- A reader that goes on is still the call that was invoked. -/
theorem Traced.reading_setReader (ht : s.Traced store m₀ L st) (hj : s.readers[j]? = some r)
    (ph : ReaderPhase) (k : ℕ) (r' : Reader) (hk : (s.setReader j r ph).readers[k]? = some r') :
    .invoke (.read k) (.get r'.now r'.key) ∈ s.history := by
  rw [readers_setReader hj] at hk
  split at hk
  · next heq =>
    subst heq
    cases hk
    exact ht.reading k r hj
  · exact ht.reading k r' hk

/-- Whoever has read has read when another goes on. -/
theorem Traced.reads_setReader (ht : s.Traced store m₀ L st) (hj : s.readers[j]? = some r)
    {ph : ReaderPhase} (hph : ph ≠ .locking) :
    ∀ x ∈ L, ∀ k, x.id = .read k →
      ∃ r', (s.setReader j r ph).readers[k]? = some r' ∧ r'.phase ≠ .locking := by
  intro x hx k hid
  rw [readers_setReader hj]
  split
  · exact ⟨_, rfl, hph⟩
  · exact ht.reads x hx k hid

/-- There is a new reader. -/
theorem Traced.startGet (ht : s.Traced store m₀ L st) (now : ℤ) (key : Key) :
    Traced store m₀ { s with
      readers := s.readers ++ [⟨now, key, .locking⟩]
      history := s.history ++ [.invoke (.read s.readers.length) (.get now key)] } L st := by
  have hlt : ∀ {x}, x ∈ L → ∀ {j}, x.id = .read j → j < s.readers.length := by
    intro x hx j hid
    obtain ⟨r, hr, -⟩ := ht.reads x hx j hid
    exact (List.getElem?_eq_some_iff.mp hr).1
  have hlin := ht.lin.invoke (fun x hx hid => (hlt hx hid).ne rfl) (.get now key)
  -- a reader is an old one, or the new one
  have hcases : ∀ j r, (s.readers ++ [⟨now, key, .locking⟩])[j]? = some r →
      s.readers[j]? = some r ∨ j = s.readers.length ∧ r = ⟨now, key, .locking⟩ := by
    intro j r hj
    rw [List.getElem?_append] at hj
    split at hj
    · exact .inl hj
    · next hge =>
      obtain ⟨hj0, hr⟩ := List.getElem?_eq_some_iff.mp hj
      have hzero : j - s.readers.length = 0 := by simpa using hj0
      simp only [hzero] at hr
      exact .inr ⟨by omega, hr.symm⟩
  refine ⟨hlin, ht.stands, fun i r hi => List.mem_append_left _ (ht.begun i r hi), fun j r hj => ?_,
    ht.writes, fun x hx j hid => ?_, ht.applied, fun j r res hj hres => ?_⟩
  · rcases hcases j r hj with hj | ⟨rfl, rfl⟩
    · exact List.mem_append_left _ (ht.reading j r hj)
    · exact List.mem_concat_self
  · obtain ⟨r, hr, hph⟩ := ht.reads x hx j hid
    refine ⟨r, ?_, hph⟩
    rw [List.getElem?_append_left (hlt hx hid)]
    exact hr
  · rcases hcases j r hj with hj | ⟨-, rfl⟩
    · exact ht.found j r res hj hres
    · cases hres

/-- A reader looks its key up, which is its point. -/
theorem Traced.lookup (ht : s.Traced store m₀ L st) (hq : s.group.Queue m₀)
    (hj : s.readers[j]? = some r) (hphase : r.phase = .locking) (hnow : s.group.clock ≤ r.now) :
    ∃ L' st',
      (s.setReader j r (.found (s.group.engine.get r.now r.key))).Traced store m₀ L' st' := by
  have hnew : ∀ x ∈ L, x.id ≠ .read j := by
    intro x hx hid
    obtain ⟨r', hr', hph⟩ := ht.reads x hx j hid
    rw [hj] at hr'
    exact hph (Option.some.inj hr' ▸ hphase)
  -- with the lock in hand the engine shows what has been applied, and nothing expires early
  have hget : s.group.engine.get r.now r.key
      = checked r.now ((m₀.writeAll s.group.mutations).map r.key) := by
    rw [Engine.get_eq, checked_eq, hq.pruned.live_eq Entry.dead_mono hnow, ← checked_eq]
  have hlin := ht.lin.point (ht.reading j r hj) hnew
  rw [serve_get ht.stands, ← hget] at hlin
  refine ⟨_, st, hlin, ht.stands, ht.begun, ht.reading_setReader hj _, fun x hx i hid => ?_,
    fun x hx k hid => ?_, fun i hi => ?_, fun k r' res hk hres => ?_⟩
  · rcases List.mem_append.mp hx with hx | hx
    · exact ht.writes x hx i hid
    · rw [List.mem_singleton.mp hx] at hid
      cases hid
  · rcases List.mem_append.mp hx with hx | hx
    · exact ht.reads_setReader hj (by simp) x hx k hid
    · rw [List.mem_singleton.mp hx] at hid
      rw [readers_setReader hj, if_pos (CallId.read.inj hid).symm]
      exact ⟨_, rfl, by simp⟩
  · exact (ht.applied i hi).imp fun _ => List.mem_append_left _
  · rw [readers_setReader hj] at hk
    split at hk
    · next heq =>
      cases hk
      -- this reader has its answer from the point that was just added
      obtain rfl := ReaderPhase.found.inj hres
      exact ⟨_, List.mem_append_right _ (List.mem_singleton.mpr (by rw [heq]))⟩
    · exact (ht.found k r' res hk hres).imp fun _ => List.mem_append_left _

/-- A reader returns what it has found. -/
theorem Traced.answer (ht : s.Traced store m₀ L st) {res : Except Error Entry}
    (hj : s.readers[j]? = some r) (hphase : r.phase = .found res) :
    Traced store m₀ { s.setReader j r .returned with
      history := s.history ++ [.respond (.read j) (.got res)] } L st := by
  obtain ⟨op, hop⟩ := ht.found j r res hj hphase
  refine ⟨ht.lin.respond hop, ht.stands, fun i r' hi => List.mem_append_left _ (ht.begun i r' hi),
    fun k r' hk => List.mem_append_left _ (ht.reading_setReader hj _ k r' hk), ht.writes,
    ht.reads_setReader hj (by simp), ht.applied, fun k r' res' hk hres => ?_⟩
  rw [show _ = _ from readers_setReader hj .returned k] at hk
  split at hk
  · cases hk
    cases hres
  · exact ht.found k r' res' hk hres

/-- **One step of group commit.** -/
theorem Traced.step_group (ht : s.Traced store m₀ L st) (hq : s.group.Queue m₀)
    (hg : s.group.WellFormed) (hp : s.group.Pipeline m₀.map log) {a : GroupCommit.Action}
    (htime : s.group.InTime a) (hstep : s.group.step capacity a = some g') :
    ∃ L' st', Traced store m₀
      { s with group := g', history := s.history ++ eventsOf s.group g' a } L' st' := by
  cases a with
  | start r =>
    cases hstep
    exact ⟨L, st, ht.start hg hp r⟩
  | caller i =>
    obtain ⟨c, hi, hc⟩ := Option.bind_eq_some_iff.mp hstep
    cases callerStep_of_stepCaller hc with
    | lock hphase => exact ⟨L, st, ht.silent hi .locked (by simp [hphase]) (by simp) rfl rfl⟩
    | number hphase =>
      exact ⟨L, st, ht.silent hi (.sending _) (by simp [hphase]) (by simp) rfl rfl⟩
    | @miss now key err hphase hreq hmiss =>
      -- a `Delete` that misses answers at once, and has its point at the lookup
      have hdel : s.group.deleting i = some (now, key) := by
        obtain ⟨request, ph⟩ := c
        obtain rfl : ph = .locked := hphase
        obtain rfl : request = .delete now key := hreq
        rw [deleting, hi]
      rw [eventsOf_returned hi (some err)]
      · exact ht.miss hq hg hp hi hphase hreq hmiss (htime (now, key) hdel)
      · rfl
    | send hphase => exact ⟨L, st, ht.silent hi .sent (by simp [hphase]) (by simp) rfl rfl⟩
    | unlock hphase => exact ⟨L, st, ht.silent hi .waiting (by simp [hphase]) (by simp) rfl rfl⟩
    | @finish r hphase hr hri =>
      rw [eventsOf_returned hi (resultOf r.2)]
      · exact ⟨L, st, ht.finish hp hi hphase hr hri⟩
      · rfl
  | loop now fate =>
    have hevents : eventsOf s.group g' (.loop now fate) = [] := rfl
    rw [hevents, List.append_nil]
    -- only the application of a batch has points
    rcases stepLoop_cases hstep with ⟨hcallers, -, hmut, -⟩ | ⟨batch, e, d, err, hloop, -, -, rfl⟩
    · refine ⟨L, st, ht.of_group (fun i r hi => ?_) hmut fun i res hi => ?_⟩
      · rw [requestOf, hcallers] at hi
        exact hi
      · rw [phase, hcallers]
        exact hi
    · exact ht.apply hq hg hp hloop rfl rfl

end Steps

/-! ### Whole runs -/

/-- What holds throughout a run from an engine that stands for `m₀`. -/
structure Explained (capacity : ℕ) (clock : ℤ) (e : Engine) (d : Disk) (store : MemStore)
    (m₀ : Model) (s : Observed) : Prop where
  run : Runs (GroupCommit.step capacity) Faultless (.opened e d clock) s.group
  queue : s.group.Queue m₀
  traced : ∃ L st, s.Traced store m₀ L st

section Runs

variable {capacity : ℕ} {clock : ℤ} {e : Engine} {d : Disk} {h : Layer Key Entry}
  {store : MemStore} {s s' : Observed}

theorem explained_opened (hready : Ready clock h e d)
    (hstore : memStore.Stands clock store ⟨h, e.nextSeq⟩) :
    (opened e d clock).Explained capacity clock e d store ⟨h, e.nextSeq⟩ where
  run := Runs.refl _
  queue :=
    { takes := trivial
      sending := nofun
      quiet := fun _ => rfl
      pruned := hready.rep.running }
  traced := ⟨[], store, Linearization.nil _ _, hstore, nofun, nofun, nofun, nofun, nofun, nofun⟩

/-- **One step.** -/
theorem Explained.step (hready : Ready clock h e d) {a : Action}
    (hs : s.Explained capacity clock e d store ⟨h, e.nextSeq⟩) (hregular : s.Regular a)
    (hstill : s.StillFound a) (hstep : s.step capacity a = some s') :
    s'.Explained capacity clock e d store ⟨h, e.nextSeq⟩ := by
  obtain ⟨hrun, hqueue, L, st, ht⟩ := hs
  obtain ⟨hg, hn, hp⟩ := hready.ordered hrun
  cases a with
  | group a =>
    obtain ⟨g', hg', rfl⟩ := Option.map_eq_some_iff.mp hstep
    -- the run of group commit goes on, so its own invariants hold again
    obtain ⟨hfaultless, htime⟩ := hregular
    have hrun' := hrun.trans (Runs.single (hfaultless a rfl) hg')
    obtain ⟨-, -, hp'⟩ := hready.ordered hrun'
    exact ⟨hrun', hqueue.step hg hp hp' (hfaultless a rfl).1 hstill hg',
      ht.step_group hqueue hg hp htime hg'⟩
  | startGet now key =>
    cases hstep
    exact ⟨hrun, hqueue, L, st, ht.startGet now key⟩
  | reader j =>
    obtain ⟨r, hj, hr⟩ := Option.bind_eq_some_iff.mp hstep
    -- a reader looks up under the lock, and answers later
    unfold stepReader at hr
    split at hr
    · next hphase =>
      split at hr
      · next hfree =>
        cases hr
        exact ⟨hrun, hqueue, ht.lookup hqueue hj hphase hfree.2⟩
      · cases hr
    · next res hphase =>
      cases hr
      exact ⟨hrun, hqueue, L, st, ht.answer hj hphase⟩
    · cases hr

/-- **Histories are linearizable if every `Delete` that finds its key finds it behind what is
enqueued.** -/
theorem histories_linearizable (hready : Ready clock h e d)
    (hstore : memStore.Stands clock store ⟨h, e.nextSeq⟩)
    (hrun : Runs (step capacity) (fun s a => s.Regular a ∧ s.StillFound a) (opened e d clock) s) :
    Linearizable memStore.serve store s.history := by
  have hexpl : s.Explained capacity clock e d store ⟨h, e.nextSeq⟩ :=
    hrun.invariant (fun s a s' hs hok hstep => hs.step hready hok.1 hok.2 hstep)
      (explained_opened hready hstore)
  obtain ⟨L, st, ht⟩ := hexpl.traced
  exact ⟨L, st, ht.lin⟩

end Runs

/-! ### Counting deletes -/

/-- The key has been put, and not deleted since. -/
def stored (st : MemStore) (key : Key) : Bool :=
  match st.entries.lookup key with
  | some e => !e.tombstone
  | none => false

/-- A `Put` of the key. -/
def puts (key : Key) (x : Served CallId Call Reply) : Bool :=
  match x.op with
  | .put _ _ k _ _ _ => k = key
  | _ => false

/-- A `Delete` of the key that succeeds. -/
def deletes (key : Key) (x : Served CallId Call Reply) : Bool :=
  match x.op, x.res with
  | .delete _ _ k, .wrote none => k = key
  | _, _ => false

section Counting

variable {st : MemStore} {key : Key}

theorem stored_insert (m : EntryMap) (version : ℕ) (k : Key) (e : Entry) :
    stored ⟨m.insert k e, version⟩ key = if key = k then !e.tombstone else stored ⟨m, 0⟩ key := by
  unfold stored
  by_cases hk : key = k
  · subst hk
    rw [if_pos rfl, AList.lookup_insert]
  · rw [if_neg hk, AList.lookup_insert_ne hk]

theorem stored_of_checked {now : ℤ} {e : Entry} (h : checked now (st.entries.lookup key) = .ok e) :
    stored st key = true := by
  unfold stored
  cases hl : st.entries.lookup key with
  | none =>
    rw [hl] at h
    cases h
  | some e' =>
    rw [hl, checked] at h
    split at h
    · cases h
    · next halive => simp_all [Entry.dead]

/-- One call: a `Delete` that succeeds takes away what a `Put` has brought. -/
theorem deletes_le_puts_step (key : Key) (x : Served CallId Call Reply)
    (hres : x.res = (memStore.serve st x.op).2) :
    (deletes key x).toNat + (stored (memStore.serve st x.op).1 key).toNat
      ≤ (puts key x).toNat + (stored st key).toNat := by
  obtain ⟨id, op, res⟩ := x
  cases op with
  | get now k | scan now pfx => exact Nat.add_le_add_right (Nat.zero_le _) _
  | put now later k value consistency ttl =>
    have hstored : stored (memStore.serve st (.put now later k value consistency ttl)).1 key
        = if key = k then true else stored st key := stored_insert _ _ _ _
    dsimp only at hstored ⊢
    rw [hstored]
    by_cases hk : key = k
    · subst hk
      simp [deletes, puts]
    · simp [deletes, puts, hk, Ne.symm hk]
  | delete now later k =>
    have hserve : memStore.serve st (.delete now later k)
        = ((st.delete now k).1, .wrote (st.delete now k).2) := rfl
    dsimp only at hres ⊢
    rw [hserve] at hres ⊢
    unfold MemStore.delete at hres ⊢
    cases hc : checked now (st.entries.lookup k) with
    -- it has not succeeded, so it does not count
    | error err =>
      rw [hc] at hres
      simp [deletes, puts, hres]
    | ok e =>
      rw [hc] at hres
      have hstored : stored ⟨st.entries.insert k (.deleted (st.version + 1)), st.version + 1⟩ key
          = if key = k then false else stored st key := stored_insert _ _ _ _
      dsimp only at hres ⊢
      rw [hstored]
      by_cases hk : key = k
      · subst hk
        simp [deletes, puts, hres, stored_of_checked hc]
      · simp [deletes, puts, hk, Ne.symm hk, hres]

/-- Calls one at a time: there are no more deletes than puts. -/
theorem deletes_le_puts (key : Key) {L : List (Served CallId Call Reply)} {st' : MemStore} :
    ∀ {st : MemStore}, Legal memStore.serve st L st' →
      L.countP (deletes key) + (stored st' key).toNat
        ≤ L.countP (puts key) + (stored st key).toNat := by
  induction L with
  | nil =>
    intro st h
    obtain rfl : st' = st := h
    exact le_rfl
  | cons x L ih =>
    intro st h
    have hstep := deletes_le_puts_step key x h.1
    have hrest := ih h.2
    have hcons : ∀ p : Served CallId Call Reply → Bool,
        (x :: L).countP p = L.countP p + (p x).toNat := by
      intro p
      rw [List.countP_cons]
      cases p x <;> rfl
    rw [hcons, hcons]
    omega

/-- **Of the calls that delete a key no more succeed than there are calls that put it.** -/
theorem deletes_le_puts_of_linearizable {history : CallHistory}
    (hlin : Linearizable memStore.serve MemStore.new history) (key : Key) (ds ps : List CallId)
    (hnodup : ds.Nodup) (hds : ∀ id ∈ ds, .respond id (.wrote none) ∈ history ∧
      ∀ op, .invoke id op ∈ history → ∃ now later, op = .delete now later key)
    (hps : ∀ id now later value consistency ttl,
      .invoke id (.put now later key value consistency ttl) ∈ history → id ∈ ps) :
    ds.length ≤ ps.length := by
  obtain ⟨L, st', hL⟩ := hlin
  have hdeleted : ds.length ≤ L.countP (deletes key) := by
    refine length_le_countP _ hnodup fun id hid => ?_
    obtain ⟨hret, hinv⟩ := hds id hid
    obtain ⟨op, hmem⟩ := hL.responded id _ hret
    obtain ⟨now, later, rfl⟩ := hinv op (hL.invoked _ hmem)
    exact ⟨_, hmem, rfl, decide_eq_true rfl⟩
  have hput : L.countP (puts key) ≤ ps.length := by
    refine hL.countP_le_length _ fun x hx hp => ?_
    obtain ⟨id, op, res⟩ := x
    have hinv := hL.invoked _ hx
    cases op with
    | put now later k value consistency ttl =>
      obtain rfl : k = key := of_decide_eq_true hp
      exact hps id now later value consistency ttl hinv
    | _ => cases hp
  -- a delete succeeds only on a key that is there, and each put makes it be there once
  have hcount := deletes_le_puts key hL.legal
  have hempty : stored MemStore.new key = false := rfl
  rw [hempty] at hcount
  calc ds.length ≤ L.countP (deletes key) := hdeleted
    _ ≤ L.countP (deletes key) + (stored st' key).toNat := Nat.le_add_right _ _
    _ ≤ L.countP (puts key) := hcount
    _ ≤ ps.length := hput

end Counting

/-! ### Fixed runs -/

/-- Nothing fails, and calls can be stored. -/
def Action.Plain : Action → Prop
  | .group (.start r) => r.Storable
  | .group (.loop _ fate) => fate = noFault
  | _ => True

theorem Action.Plain.faultless {b : GroupCommit.Action} (h : (Action.group b).Plain)
    (g : GroupCommit) : g.Faultless b := by
  cases b with
  | start r =>
    refine ⟨fun _ => rfl, fun r' hr' => ?_⟩
    obtain rfl := GroupCommit.Action.start.inj hr'
    exact h
  | caller i => exact ⟨fun _ => rfl, nofun⟩
  | loop now fate =>
    obtain rfl : fate = noFault := h
    exact ⟨fun _ => rfl, nofun⟩

/-- Plain actions that can be executed in time. -/
theorem runs_of_exec {ok : Observed → Action → Prop} [∀ s a, Decidable (ok s a)] {capacity : ℕ}
    {acts : List Action} (hplain : ∀ a ∈ acts, a.Plain) {s s' : Observed}
    (h : exec (guarded (step capacity) fun s a => s.InTime a ∧ ok s a) s acts = some s') :
    Runs (step capacity) (fun s a => s.Regular a ∧ ok s a) s s' := by
  have hrun : Runs _ (fun _ a => Action.Plain a) s s' :=
    Runs.of_exec_all (fun a ha _ => hplain a ha) h
  refine hrun.of_guarded.mono fun s a hok => ⟨⟨fun b hb => ?_, hok.2.1⟩, hok.2.2⟩
  exact Action.Plain.faultless (hb ▸ hok.1) s.group

def callerSteps (n i : ℕ) : List Action :=
  List.replicate n (.group (.caller i))

def loopSteps (n : ℕ) (now : ℤ) : List Action :=
  List.replicate n (.group (.loop now noFault))

/-- The steps of a call of `Put` or `Delete` that is alone, its batch included. -/
def alone (i : ℕ) (now : ℤ) : List Action :=
  callerSteps 4 i ++ loopSteps 8 now ++ callerSteps 1 i

def start (r : Request) : Action :=
  .group (.start r)

/-- An engine on an empty directory. -/
def fresh : Observed :=
  opened (openEngine .empty ⟨4096, 4⟩) .empty 0

theorem ready_fresh : Ready 0 (fun _ => none) (openEngine .empty ⟨4096, 4⟩) .empty :=
  ready_openEngine (Rep.recoverable (sound_new True ⟨4096, 4⟩ 0)) (by simp [Store.new, Disk.empty])
    .nil ⟨4096, 4⟩

/-- A `Put` with a `Get` that overtakes it, two calls of `Delete` of which the second has to wait
for the lock, and another `Get`. -/
def oneDeleteTooLate : List Action :=
  start (.put 0 [97] [1] [] 0) :: .startGet 1 [97] :: .reader 0 :: (alone 0 1 ++
    .reader 0 :: start (.delete 2 [97]) :: start (.delete 2 [97]) :: (alone 1 2 ++
      callerSteps 2 2 ++ [.startGet 3 [97], .reader 1, .reader 1]))

/-- What its callers see: the second `Delete` and the last `Get` find nothing. -/
def oneSucceeds : CallHistory :=
  [.invoke (.write 0) (.put 0 0 [97] [1] [] 0), .invoke (.read 0) (.get 1 [97]),
    .respond (.write 0) (.wrote none), .respond (.read 0) (.got (.error .keyNotFound)),
    .invoke (.write 1) (.delete 2 2 [97]), .invoke (.write 2) (.delete 2 2 [97]),
    .respond (.write 1) (.wrote none), .respond (.write 2) (.wrote (some .keyNotFound)),
    .invoke (.read 1) (.get 3 [97]), .respond (.read 1) (.got (.error .keyNotFound))]

theorem storable_calls :
    (Request.put 0 [97] [1] [] 0).Storable ∧ (Request.delete 2 [97]).Storable := by decide

theorem linearizable_delete_too_late :
    ∃ s, Runs (step opChCapacity) (fun s a => s.Regular a ∧ s.StillFound a) fresh s ∧
      s.history = oneSucceeds ∧ Linearizable memStore.serve MemStore.new s.history := by
  have hexec : ∃ s, exec (guarded (step opChCapacity) fun s a => s.InTime a ∧ s.StillFound a)
      fresh oneDeleteTooLate = some s ∧ s.history = oneSucceeds := ⟨_, rfl, rfl⟩
  obtain ⟨s, hs, hhistory⟩ := hexec
  have hplain : ∀ a ∈ oneDeleteTooLate, a.Plain := by
    simp [oneDeleteTooLate, alone, callerSteps, loopSteps, start, Action.Plain, storable_calls]
  have hrun := runs_of_exec hplain hs
  exact ⟨s, hrun, hhistory, histories_linearizable ready_fresh (memStore_stands_new 0) hrun⟩

/-- Two calls of `Delete` that look the key up before either is applied. -/
def twoDeletesInTime : List Action :=
  start (.put 0 [97] [1] [] 0) :: (alone 0 1 ++
    start (.delete 2 [97]) :: start (.delete 2 [97]) :: (callerSteps 4 1 ++ callerSteps 4 2 ++
      loopSteps 10 2 ++ callerSteps 1 1 ++ callerSteps 1 2))

/-- What their callers see. -/
def bothSucceed : CallHistory :=
  [.invoke (.write 0) (.put 0 0 [97] [1] [] 0), .respond (.write 0) (.wrote none),
    .invoke (.write 1) (.delete 2 2 [97]), .invoke (.write 2) (.delete 2 2 [97]),
    .respond (.write 1) (.wrote none), .respond (.write 2) (.wrote none)]

theorem not_linearizable_bothSucceed : ¬ Linearizable memStore.serve MemStore.new bothSucceed := by
  intro hlin
  have hle := deletes_le_puts_of_linearizable hlin [97] [.write 1, .write 2] [.write 0] (by simp)
    (fun id hid => ?_) fun id now later value consistency ttl hinv => ?_
  · exact absurd hle (by simp)
  · rcases List.mem_pair.mp hid with rfl | rfl
    · refine ⟨by simp [bothSucceed], fun op hop => ⟨2, 2, ?_⟩⟩
      simpa [bothSucceed] using hop
    · refine ⟨by simp [bothSucceed], fun op hop => ⟨2, 2, ?_⟩⟩
      simpa [bothSucceed] using hop
  · simp only [bothSucceed, List.mem_cons, CallEvent.invoke.injEq, Call.put.injEq] at hinv
    simp_all

/-- Both calls of `Delete` succeed, and the key was put once. No file operation fails. -/
theorem two_deletes_not_linearizable :
    ∃ s, Runs (step opChCapacity) Regular fresh s ∧ s.history = bothSucceed ∧
      ¬ Linearizable memStore.serve MemStore.new s.history := by
  have hexec : ∃ s, exec (guarded (step opChCapacity) fun s a => s.InTime a ∧ True)
      fresh twoDeletesInTime = some s ∧ s.history = bothSucceed := ⟨_, rfl, rfl⟩
  obtain ⟨s, hs, hhistory⟩ := hexec
  have hplain : ∀ a ∈ twoDeletesInTime, a.Plain := by
    simp [twoDeletesInTime, alone, callerSteps, loopSteps, start, Action.Plain, storable_calls]
  refine ⟨s, (runs_of_exec hplain hs).mono fun _ _ hok => hok.1, hhistory, ?_⟩
  rw [hhistory]
  exact not_linearizable_bothSucceed

end Observed
end Storage
end BoilerPulse
