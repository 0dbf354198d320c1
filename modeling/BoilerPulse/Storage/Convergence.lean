import BoilerPulse.Storage.LsmRefinement
import BoilerPulse.Storage.SSTable
import BoilerPulse.Storage.StateMachine

/-!
# Storage: what replicas agree on

`Apply`, `Snapshot` and `Restore` put together, over any engine that meets the contract.

* A restored snapshot is laid over what the engine has, so the result is the snapshot's
  state exactly if nothing else was visible before (`restore_replaces_iff`).
* Replicas that apply the same log agree exactly if no key is left with a TTL, since the expiry
  is counted from the moment of application (`replicas_converge_iff`).
* Without TTLs a replay is harmless, wherever the engine had got to (`replay_harmless`). All
  three rest on the last command on a key.
-/

namespace BoilerPulse
namespace Storage

open Framework Utf8

/-! ### Snapshot and restore -/

section Snapshots

variable {σ τ : Type} {E : StorageEngine σ} {F : StorageEngine τ} {s : σ} {s' : τ} {m m' : Model}
  {t t' : ℤ}

/-- The entries of a snapshot are the visible ones, with their strings made valid. -/
theorem StorageEngine.snapshot_spec (hs : E.Stands t s m) (hfree : m.TtlFree) :
    ∃ es, E.snapshot s t = .ok (some es) ∧ ∀ x, x ∈ es ↔ ∃ k e, live Entry.dead t m.map k = some e ∧
        x = ⟨toValid k, e.value, toValid e.consistency, none⟩ := by
  have hlookup : ∀ k, (E.scan s t []).lookup k = live Entry.dead t m.map k := E.lookup_scan hs []
  have hexp : ∀ {k e}, live Entry.dead t m.map k = some e → e.expiresAt = none := fun h =>
    hfree _ _ ((live_eq_some Entry.dead).mp h).1
  have hmem : ∀ x, x ∈ (sortedKeys (E.scan s t [])).filterMap (fun k =>
      ((E.scan s t []).lookup k).map fun e =>
        (⟨k, e.value, e.consistency, e.expiresAt⟩ : SnapshotEntry)) ↔
      ∃ k e, live Entry.dead t m.map k = some e ∧ x = ⟨k, e.value, e.consistency, none⟩ := by
    intro x
    simp only [List.mem_filterMap, mem_sortedKeys, hlookup, Option.map_eq_some_iff]
    constructor
    · rintro ⟨k, -, e, he, rfl⟩
      exact ⟨k, e, he, by rw [hexp he]⟩
    · rintro ⟨k, e, he, rfl⟩
      refine ⟨k, ?_, e, he, by rw [hexp he]⟩
      rw [← Finmap.lookup_isSome, hlookup, he]
      rfl
  -- `Marshal` fails on years it cannot write, and there is no expiry here
  unfold snapshot marshalSnapshot
  simp only
  rw [if_pos]
  · refine ⟨_, rfl, fun x => ?_⟩
    simp only [List.mem_map, hmem]
    constructor
    · rintro ⟨_, ⟨k, e, he, rfl⟩, rfl⟩
      exact ⟨k, e, he, rfl⟩
    · rintro ⟨k, e, he, rfl⟩
      exact ⟨_, ⟨k, e, he, rfl⟩, rfl⟩
  · rw [List.all_eq_true]
    intro x hx
    obtain ⟨k, e, -, rfl⟩ := (hmem x).mp hx
    rfl

/-- What a snapshot has at a key. -/
def snapshotAt (k : Key) (es : List SnapshotEntry) : Option (Bytes × Bytes) :=
  (es.reverse.find? fun e => e.key = k).map fun e => (e.value, e.consistency)

theorem snapshotAt_cons (k : Key) (e : SnapshotEntry) (es : List SnapshotEntry) :
    snapshotAt k (e :: es)
      = (snapshotAt k es).or (if e.key = k then some (e.value, e.consistency) else none) := by
  rw [snapshotAt, List.reverse_cons, List.find?_append, snapshotAt]
  cases es.reverse.find? fun e => e.key = k with
  | some x => rfl
  | none => by_cases h : e.key = k <;> simp [h]

/-- Entries without expiry are laid over what the engine has. -/
theorem StorageEngine.restoreEntries_spec (readings : ℕ → Readings) {es : List SnapshotEntry}
    (hes : ∀ e ∈ es, e.expiresAt = none)
    (hholds : ∀ e ∈ es, E.Holds e.key e.value e.consistency) :
    ∀ {i : ℕ} {s : σ} {m : Model} {t : ℤ}, E.Stands t s m → m.TtlFree →
      (E.restoreEntries readings i s es).2 = none ∧
        ∃ m', (∀ u, E.Stands u (E.restoreEntries readings i s es).1 m') ∧ m'.TtlFree ∧
          ∀ u k, m'.liveMap u k = (snapshotAt k es).or (m.liveMap u k) := by
  induction es with
  | nil =>
    intro i s m t hs hfree
    exact ⟨rfl, m, fun u => E.stands_of_ttlFree hs hfree, hfree, fun _ _ => rfl⟩
  | cons e es ih =>
    intro i s m t hs hfree
    obtain ⟨herr, hst⟩ := E.put_spec
      (E.stands_of_ttlFree hs hfree : E.Stands (readings i).later s m)
      (E.admits_of_storable (storableTtl_of_nonpos le_rfl (readings i).now))
      (hholds e List.mem_cons_self)
    -- the put succeeds, so the loop goes on
    have hstep : E.restoreEntries readings i s (e :: es) = E.restoreEntries readings (i + 1)
        (E.put s (readings i).now (readings i).later e.key e.value e.consistency 0).1 es := by
      rw [restoreEntries, hes e List.mem_cons_self]
      simp only
      split
      · next s' err heq => rw [heq] at herr; cases herr
      · next s' heq => rw [heq]
    have hfree' : (m.put (readings i).now e.key e.value e.consistency 0).TtlFree :=
      hfree.write _ (expiryOf_of_nonpos le_rfl (readings i).now)
    obtain ⟨herrs, m', hend, hm', hlive⟩ :=
      ih (fun x hx => hes x (List.mem_cons_of_mem e hx))
        (fun x hx => hholds x (List.mem_cons_of_mem e hx)) (i := i + 1) hst hfree'
    rw [hstep]
    refine ⟨herrs, m', hend, hm', fun u k => ?_⟩
    rw [hlive, snapshotAt_cons, Option.or_assoc]
    congr 1
    by_cases hk : e.key = k
    · subst hk
      rw [if_pos rfl, Option.some_or]
      exact Model.liveMap_of_visible (m.write_map_self _ _)
        (Entry.dead_eq_tombstone (expiryOf_of_nonpos le_rfl (readings i).now) u)
    · rw [if_neg hk, Option.none_or]
      exact Model.liveMap_write_of_ne (Ne.symm hk) _ u

/-- With valid keys, the snapshot has what was visible, its consistency made valid. -/
theorem snapshotAt_eq {es : List SnapshotEntry}
    (hmem : ∀ x, x ∈ es ↔ ∃ k e, live Entry.dead t m.map k = some e ∧
      x = ⟨toValid k, e.value, toValid e.consistency, none⟩)
    (hkeys : ∀ k, m.liveMap t k ≠ none → valid k = true) (k : Key) :
    snapshotAt k es = (m.liveMap t k).map fun c => (c.1, toValid c.2) := by
  -- an entry under `k` comes from `k`, as keys come back as they were
  have hfrom : ∀ x ∈ es, x.key = k → ∃ e, live Entry.dead t m.map k = some e ∧
      x = ⟨k, e.value, toValid e.consistency, none⟩ := by
    rintro x hx rfl
    obtain ⟨k', e, he, rfl⟩ := (hmem x).mp hx
    have hk' : toValid k' = k' := toValid_eq_self_iff.mpr (hkeys k' (by simp [Model.liveMap, he]))
    refine ⟨e, ?_, rfl⟩
    simp only [hk']
    exact he
  rw [snapshotAt, Model.liveMap]
  cases hfind : es.reverse.find? fun e => e.key = k with
  | some x =>
    obtain ⟨e, he, rfl⟩ := hfrom x (List.mem_reverse.mp (List.mem_of_find?_eq_some hfind))
      (by simpa using List.find?_some hfind)
    rw [he]
    rfl
  | none =>
    cases he : live Entry.dead t m.map k with
    | none => rfl
    | some e =>
      have hx := (hmem ⟨toValid k, e.value, toValid e.consistency, none⟩).mpr ⟨k, e, he, rfl⟩
      have hk : toValid k = k := toValid_eq_self_iff.mpr (hkeys k (by simp [Model.liveMap, he]))
      exact absurd hk (by simpa using List.find?_eq_none.mp hfind _ (List.mem_reverse.mpr hx))

/-- **What `Restore` makes of a snapshot**: its keys over what was there. -/
theorem restore_snapshot (hs : E.Stands t s m) (hs' : F.Stands t' s' m') (hfree : m.TtlFree)
    (hfree' : m'.TtlFree) (hkeys : ∀ k, m'.liveMap t' k ≠ none → valid k = true)
    (hholds : ∀ k c, m'.liveMap t' k = some c → E.Holds k c.1 (toValid c.2))
    (readings : ℕ → Readings) :
    ∃ data, F.snapshot s' t' = .ok data ∧ (E.restore s readings data).2 = none ∧
      ∃ m₁, (∀ u, E.Stands u (E.restore s readings data).1 m₁) ∧ m₁.TtlFree ∧ ∀ u k, m₁.liveMap u k
          = ((m'.liveMap t' k).map fun c => (c.1, toValid c.2)).or (m.liveMap u k) := by
  obtain ⟨es, hdata, hmem⟩ := F.snapshot_spec hs' hfree'
  have hes : ∀ e ∈ es, e.expiresAt = none := by
    intro x hx
    obtain ⟨k, e, -, rfl⟩ := (hmem x).mp hx
    rfl
  have hheld : ∀ e ∈ es, E.Holds e.key e.value e.consistency := by
    intro x hx
    obtain ⟨k, e, he, rfl⟩ := (hmem x).mp hx
    have hlive : m'.liveMap t' k = some e.content := by rw [Model.liveMap, he, Option.map_some]
    simp only [toValid_eq_self_iff.mpr (hkeys k (by simp [hlive]))]
    exact hholds k _ hlive
  obtain ⟨herr, m₁, hst, hm₁, hlive⟩ :=
    E.restoreEntries_spec readings hes hheld (i := 0) hs hfree
  refine ⟨some es, hdata, herr, m₁, hst, hm₁, fun u k => ?_⟩
  rw [hlive, snapshotAt_eq hmem hkeys]

/-- **`Restore` replaces the state** exactly if no key was visible that the snapshot does not have,
and the consistencies in it are text. -/
theorem restore_replaces_iff (hs : E.Stands t s m) (hs' : F.Stands t' s' m') (hfree : m.TtlFree)
    (hfree' : m'.TtlFree) (hkeys : ∀ k, F.liveMap s' t' k ≠ none → valid k = true)
    (hholds : ∀ k c, F.liveMap s' t' k = some c → E.Holds k c.1 (toValid c.2))
    (readings : ℕ → Readings) :
    ∃ data, F.snapshot s' t' = .ok data ∧ (E.restore s readings data).2 = none ∧
      ((∀ u, E.liveMap (E.restore s readings data).1 u = F.liveMap s' u ∧
          E.scanMap (E.restore s readings data).1 u = F.scanMap s' u) ↔
        (∀ k, E.liveMap s t k ≠ none → F.liveMap s' t' k ≠ none) ∧
          ∀ k c, F.liveMap s' t' k = some c → valid c.2 = true) := by
  rw [F.liveMap_eq hs'] at hkeys hholds ⊢
  obtain ⟨data, hdata, herr, m₁, hst, hm₁, hlive⟩ :=
    restore_snapshot hs hs' hfree hfree' hkeys hholds readings
  refine ⟨data, hdata, herr, ?_⟩
  -- both maps of the restored engine are that of `m₁`, and both of the other one that of `m'`
  have hequal : (∀ u, E.liveMap (E.restore s readings data).1 u = F.liveMap s' u ∧
      E.scanMap (E.restore s readings data).1 u = F.scanMap s' u) ↔
      ∀ k, ((m'.liveMap t' k).map fun c => (c.1, toValid c.2)).or (m.liveMap t k)
        = m'.liveMap t' k := by
    have hu : ∀ u, F.Stands u s' m' := fun u => F.stands_of_ttlFree hs' hfree'
    constructor
    · intro h k
      rw [← hlive, ← E.liveMap_eq (hst t), (h t).1, F.liveMap_eq (hu t), hfree'.liveMap_eq t t']
    · intro h u
      have hmaps : m₁.liveMap u = m'.liveMap u := by
        funext k
        rw [hlive, hfree.liveMap_eq u t, h, hfree'.liveMap_eq u t']
      rw [E.liveMap_eq (hst u), E.scanMap_eq (hst u), F.liveMap_eq (hu u), F.scanMap_eq (hu u)]
      exact ⟨hmaps, hmaps⟩
  rw [hequal, E.liveMap_eq hs]
  constructor
  · intro h
    refine ⟨fun k hk hnone => ?_, fun k c hc => ?_⟩
    · have := h k
      rw [hnone, Option.map_none, Option.none_or] at this
      exact hk this
    · have := h k
      rw [hc, Option.map_some, Option.some_or, Option.some.injEq] at this
      exact toValid_eq_self_iff.mp (congrArg Prod.snd this)
  · rintro ⟨hcover, hvalid⟩ k
    cases hk : m'.liveMap t' k with
    | some c => simp [toValid_eq_self_iff.mpr (hvalid k c hk)]
    | none =>
      rw [Option.map_none, Option.none_or]
      by_contra hne
      exact hcover k hne hk

/-- Readings of a clock that stands still. -/
def still : ℕ → Readings :=
  fun _ => ⟨0, 0, 0⟩

/-- An engine after its first `Put`. -/
theorem StorageEngine.stands_first (h₀ : E.Stands t s .empty) (key : Key)
    (value consistency : Bytes) (h : LengthsFit key value consistency) :
    E.Stands t (E.put s t t key value consistency 0).1
      (Model.empty.put t key value consistency 0) :=
  (E.put_spec h₀ (E.admits_of_storable (storableTtl_of_nonpos le_rfl t)) (E.holds_of_fits h)).2

theorem Model.ttlFree_first (now : ℤ) (key : Key) (value consistency : Bytes) :
    (Model.empty.put now key value consistency 0).TtlFree :=
  Model.ttlFree_empty.write key (expiryOf_of_nonpos le_rfl now)

theorem Model.liveMap_first (now u : ℤ) (key k : Key) (value consistency : Bytes) :
    (Model.empty.put now key value consistency 0).liveMap u k
      = if k = key then some (value, consistency) else none := by
  split
  · next hk =>
    rw [hk]
    exact Model.liveMap_of_visible (Model.write_map_self _ _ _)
      (Entry.dead_eq_tombstone (expiryOf_of_nonpos le_rfl now) u)
  · next hk => exact Model.liveMap_write_of_ne hk _ u

/-- The follower has an old value of the leader's key. -/
theorem restore_replaces_old_value : ∃ data,
    memStore.snapshot (memStore.put MemStore.new 0 0 [97] [2] [83] 0).1 0 = .ok data ∧
      ∀ u, lsm.liveMap (lsm.restore (lsm.put (lsmNew ⟨0, 0⟩) 0 0 [97] [1] [] 0).1 still data).1 u
        = memStore.liveMap (memStore.put MemStore.new 0 0 [97] [2] [83] 0).1 u := by
  have hfollower := StorageEngine.stands_first (lsm_stands_new ⟨0, 0⟩ 0) [97] [1] [] (by decide)
  have hleader := StorageEngine.stands_first (memStore_stands_new 0) [97] [2] [83] (by decide)
  have hlive : ∀ k, memStore.liveMap (memStore.put MemStore.new 0 0 [97] [2] [83] 0).1 0 k
      = if k = [97] then some ([2], [83]) else none := fun k => by
    rw [memStore.liveMap_eq hleader, Model.liveMap_first]
  obtain ⟨data, hdata, -, hiff⟩ := restore_replaces_iff hfollower hleader
    (Model.ttlFree_first _ _ _ _) (Model.ttlFree_first _ _ _ _)
    (fun k hk => by
      rw [hlive, ne_eq, ite_eq_right_iff, not_forall] at hk
      rw [hk.1]
      decide)
    (fun k c hc => by
      rw [hlive, Option.ite_none_right_eq_some] at hc
      obtain ⟨rfl, hc⟩ := hc
      cases hc
      exact lsm.holds_of_fits (by decide)) still
  refine ⟨data, hdata, fun u => (hiff.mpr ⟨fun k hk => ?_, fun k c hc => ?_⟩ u).1⟩
  · rw [lsm.liveMap_eq hfollower, Model.liveMap_first, ne_eq, ite_eq_right_iff, not_forall] at hk
    rw [hlive, if_pos hk.1]
    simp
  · rw [hlive, Option.ite_none_right_eq_some] at hc
    rw [← Option.some.inj hc.2]
    decide

/-- A key that the leader does not have any more stays with the follower, in both engines. -/
theorem restore_keeps_deleted_key : memStore.snapshot MemStore.new 0 = .ok (some []) ∧
      memStore.liveMap
        (memStore.restore (MemStore.new.put 0 [97] [1] [] 0) still (some [])).1 0 [97]
        = some ([1], []) ∧
      lsm.snapshot (lsmNew ⟨0, 0⟩) 0 = .ok (some []) ∧
      lsm.liveMap
        (lsm.restore (lsm.put (lsmNew ⟨0, 0⟩) 0 0 [97] [1] [] 0).1 still (some [])).1 0 [97]
        = some ([1], []) ∧
      memStore.liveMap MemStore.new 0 [97] = none ∧ lsm.liveMap (lsmNew ⟨0, 0⟩) 0 [97] = none :=
  ⟨rfl, rfl, rfl, rfl, rfl, rfl⟩

end Snapshots

/-! ### Replays of a log -/

/-- A replica is at position `n` of the log `cs` and has applied `ds` to its engine. After a restart
it goes on from an earlier position. -/
inductive Replays (cs : List Command) : ℕ → List Command → Prop
  | start : Replays cs 0 []
  | apply {n : ℕ} {ds : List Command} {c : Command} :
      Replays cs n ds → cs[n]? = some c → Replays cs (n + 1) (ds ++ [c])
  | restart {n : ℕ} {ds : List Command} (k : ℕ) : Replays cs n ds → k ≤ n → Replays cs k ds

section Replay

variable {cs ds : List Command} {n : ℕ}

theorem Replays.subset (h : Replays cs n ds) : ∀ c ∈ ds, c ∈ cs := by
  induction h with
  | start => intro c hc; cases hc
  | apply _ hget ih =>
    exact List.forall_mem_append.mpr ⟨ih, List.forall_mem_singleton.mpr (List.mem_of_getElem? hget)⟩
  | restart _ _ _ ih => exact ih

theorem lastOn_drop_of_le {k : Key} {i j : ℕ} (hij : i ≤ j) (h : lastOn k (cs.drop i) = none) :
    lastOn k (cs.drop j) = none := by
  rw [← List.take_append_drop (j - i) (cs.drop i), lastOn_append, List.drop_drop,
    Nat.add_sub_cancel' hij] at h
  exact (Option.or_eq_none_iff.mp h).1

/-- Once all commands on a key are behind, the last one applied is the last one of the log. -/
theorem Replays.lastOn_eq (h : Replays cs n ds) (k : Key) :
    lastOn k (cs.drop n) = none → lastOn k ds = lastOn k cs := by
  induction h with
  | start => exact fun hnone => hnone.symm
  | @apply n ds c _ hget ih =>
    intro hnone
    have hdrop : cs.drop n = c :: cs.drop (n + 1) := by
      obtain ⟨hlt, rfl⟩ := List.getElem?_eq_some_iff.mp hget
      exact List.drop_eq_getElem_cons hlt
    have hhead : lastOn k (cs.drop n) = lastOn k ([] ++ [c]) := by
      rw [hdrop, ← List.singleton_append, lastOn_append, hnone, Option.none_or]
      rfl
    rw [lastOn_concat] at hhead ⊢
    split
    · next hkey =>
      rw [if_pos hkey] at hhead
      rw [← List.take_append_drop n cs, lastOn_append, hhead, Option.some_or]
    · next hkey =>
      rw [if_neg hkey] at hhead
      exact ih hhead
  | restart k' _ hle ih => exact fun hnone => ih (lastOn_drop_of_le hle hnone)

/-- A replica that has come to the end of the log. -/
theorem Replays.lastOn_end (h : Replays cs cs.length ds) (k : Key) : lastOn k ds = lastOn k cs :=
  h.lastOn_eq k (by rw [List.drop_length]; rfl)

/-- Straight through. -/
theorem replays_all (cs : List Command) : Replays cs cs.length cs := by
  have htake : ∀ n ≤ cs.length, Replays cs n (cs.take n) := by
    intro n
    induction n with
    | zero => exact fun _ => Replays.start
    | succ n ih =>
      intro hn
      rw [List.take_succ_eq_append_getElem hn]
      exact (ih (Nat.le_of_succ_le hn)).apply (List.getElem?_eq_getElem hn)
  simpa using htake cs.length le_rfl

end Replay

/-! ### TTLs -/

section Ttl

variable {a : Application} {m : Model} {k : Key} {t : ℤ}

/-- What is to be seen of a `Delete`, or of a `Set` without TTL. -/
def Command.outcome (c : Command) : Option (Bytes × Bytes) :=
  if c.op = commandSet then some (c.value, toValid c.consistency) else none

theorem Application.Leaves.liveMap_of_ttlFree (h : a.Leaves (m.map k)) (ht : a.now ≤ t)
    (hfree : a.command.op = commandSet → a.command.ttl ≤ 0) :
    m.liveMap t k = a.command.outcome := by
  unfold Application.Leaves at h
  unfold Command.outcome
  split at h
  · next hop =>
    obtain ⟨version, hk⟩ := h
    rw [if_pos hop]
    exact Model.liveMap_of_visible hk
      (Entry.dead_eq_tombstone (expiryOf_of_nonpos (hfree hop) a.now) t)
  · next hop =>
    rw [if_neg hop]
    exact Model.liveMap_of_dead fun e he => h e he t ht

/-- What is to be seen of a `Set` with a TTL. -/
theorem Application.Leaves.liveMap_of_ttl (h : a.Leaves (m.map k)) (hop : a.command.op = commandSet)
    (hpos : 0 < a.command.ttl) :
    m.liveMap t k = if a.now + a.command.ttl < t then none
      else some (a.command.value, toValid a.command.consistency) := by
  unfold Application.Leaves at h
  rw [if_pos hop, expiryOf, if_pos hpos] at h
  obtain ⟨version, hk⟩ := h
  split
  · next hlt =>
    refine Model.liveMap_of_dead fun e he => ?_
    rw [hk] at he
    rw [← Option.some.inj he]
    simpa [Entry.dead, Entry.expired] using hlt
  · next hlt =>
    refine Model.liveMap_of_visible hk ?_
    simpa [Entry.dead, Entry.expired] using hlt

/-- A duration is a multiple of `512` ns, overflow or not. -/
theorem Command.ttl_dvd (c : Command) : 512 ∣ c.ttl := by
  unfold Command.ttl wrap64
  rw [Int.bmod_def]
  split <;> omega

theorem Command.ttl_fits (c : Command) : FitsInt64 c.ttl :=
  fitsInt64_wrap64 _

/-- Shortly before a TTL is over there is room in an `int64` for every other one. -/
theorem storableTtl_near {c d : Command} (hpos : 0 < c.ttl) {x : ℤ} (hx : 0 < x) (hx' : x < 512) :
    StorableTtl (x - c.ttl) d.ttl := by
  obtain ⟨i, hi⟩ := c.ttl_dvd
  obtain ⟨j, hj⟩ := d.ttl_dvd
  have hc := c.ttl_fits
  have hd := d.ttl_fits
  unfold StorableTtl expiryOf
  unfold FitsInt64 at hc hd
  intro t ht
  split at ht
  · cases ht
    rw [FitsInt64]
    omega
  · cases ht

end Ttl

section Converge

variable {σ τ : Type} {E : StorageEngine σ} {F : StorageEngine τ} {t t' : ℤ} {as : List Application}
  {cs : List Command}

theorem StorageEngine.Timely.le : ∀ {t : ℤ}, E.Timely t as t' → t ≤ t' := by
  induction as with
  | nil => exact fun h => h
  | cons a as ih => exact fun h => h.1.trans (h.2.1.trans (ih h.2.2.2))

theorem StorageEngine.Timely.now_le : ∀ {t : ℤ}, E.Timely t as t' →
    ∀ a ∈ as, a.now ≤ t' := by
  induction as with
  | nil => intro t _ a ha; cases ha
  | cons b as ih =>
    intro t h a ha
    rcases List.mem_cons.mp ha with rfl | ha
    · exact h.2.1.trans h.2.2.2.le
    · exact ih h.2.2.2 a ha

/-- All commands at one instant. -/
def atInstant (x : ℤ) (cs : List Command) : List Application :=
  cs.map fun c => ⟨c, x, x⟩

theorem commands_atInstant (x : ℤ) (cs : List Command) :
    (atInstant x cs).map Application.command = cs := by
  rw [atInstant, List.map_map]
  exact List.map_id cs

theorem now_of_mem_atInstant {x : ℤ} {a : Application} (h : a ∈ atInstant x cs) :
    a.now = x := by
  obtain ⟨c, -, rfl⟩ := List.mem_map.mp h
  rfl

theorem StorageEngine.timely_atInstant {x : ℤ} (hx : x ≤ t) (hstor : ∀ c ∈ cs, StorableTtl x c.ttl)
    : E.Timely x (atInstant x cs) t := by
  induction cs with
  | nil => exact hx
  | cons c cs ih =>
    exact ⟨le_rfl, le_rfl, fun _ => E.admits_of_storable (hstor c List.mem_cons_self),
      ih fun d hd => hstor d (List.mem_cons_of_mem c hd)⟩

/-- What a replica shows that has come to the end of a log. -/
theorem StorageEngine.liveMap_replica {s : σ} (h₀ : E.Stands t s .empty) (hcs : ∀ c ∈ cs, c.Known)
    (hholds : ∀ c ∈ cs, E.HoldsCommand c)
    (hreplay : Replays cs cs.length (as.map Application.command)) {t₁ : ℤ}
    (htime : E.Timely t₁ as t') (k : Key) :
    (lastOn k cs = none → E.liveMap (E.applyAll s as).1 t' k = none) ∧
      ∀ c, lastOn k cs = some c → ∃ a ∈ as, a.command = c ∧ a.now ≤ t' ∧
        ∃ m : Model, E.liveMap (E.applyAll s as).1 t' k = m.liveMap t' k ∧ a.Leaves (m.map k) := by
  have hsub : ∀ a ∈ as, a.command ∈ cs := fun a ha => hreplay.subset _ (List.mem_map_of_mem ha)
  have hst := (applyAll_timely (E.stands_of_ttlFree h₀ Model.ttlFree_empty) htime
    (fun a ha => hcs _ (hsub a ha)) fun a ha => hholds _ (hsub a ha)).2
  have hlast := hreplay.lastOn_end k
  refine ⟨fun hnone => ?_, fun c hc => ?_⟩
  · rw [liveMap_eq hst]
    refine Model.liveMap_of_dead fun e he => ?_
    rw [Model.applyAll_of_lastOn_none _ (hlast.trans hnone)] at he
    cases he
  · obtain ⟨a, ha, hac, hleaves⟩ := Model.applyAll_leaves .empty (hlast.trans hc)
    exact ⟨a, ha, hac, htime.now_le a ha, _, congrFun (liveMap_eq hst) k, hleaves⟩

/-- **Replicas converge** on a log exactly if no key is left with a TTL by its last command. -/
theorem replicas_converge_iff {s : σ} {s' : τ} (h₀ : E.Stands t s .empty)
    (h₀' : F.Stands t' s' .empty) {cs : List Command} (hcs : ∀ c ∈ cs, c.Known)
    (hholds : ∀ c ∈ cs, E.HoldsCommand c ∧ F.HoldsCommand c) :
    (∀ as bs u v w, Replays cs cs.length (as.map Application.command) →
        Replays cs cs.length (bs.map Application.command) → E.Timely u as w → F.Timely v bs w →
        E.liveMap (E.applyAll s as).1 w = F.liveMap (F.applyAll s' bs).1 w) ↔
      ∀ k c, lastOn k cs = some c → c.op = commandSet → c.ttl ≤ 0 := by
  have hE := fun c hc => (hholds c hc).1
  have hF := fun c hc => (hholds c hc).2
  constructor
  · intro h k c hc hop
    by_contra hpos
    rw [not_le] at hpos
    -- one nanosecond apart, one of two replicas has lost the key at instant `5`
    have hstor : ∀ x : ℤ, 0 < x → x < 512 → ∀ d ∈ cs, StorableTtl (x - c.ttl) d.ttl :=
      fun x hx hx' d _ => storableTtl_near hpos hx hx'
    have hagree := congrFun (h (atInstant (4 - c.ttl) cs) (atInstant (5 - c.ttl) cs) _ _ 5
      (by rw [commands_atInstant]; exact replays_all cs)
      (by rw [commands_atInstant]; exact replays_all cs)
      (StorageEngine.timely_atInstant (by omega) (hstor 4 (by omega) (by omega)))
      (StorageEngine.timely_atInstant (by omega) (hstor 5 (by omega) (by omega)))) k
    obtain ⟨a, ha, rfl, -, m, hm, hleaves⟩ := (StorageEngine.liveMap_replica h₀ hcs hE
      (by rw [commands_atInstant]; exact replays_all cs)
      (StorageEngine.timely_atInstant (t := 5) (by omega) (hstor 4 (by omega) (by omega))) k).2 c hc
    obtain ⟨b, hb, hbc, -, m', hm', hleaves'⟩ := (StorageEngine.liveMap_replica h₀' hcs hF
      (by rw [commands_atInstant]; exact replays_all cs)
      (StorageEngine.timely_atInstant (t := 5) (by omega) (hstor 5 (by omega) (by omega))) k).2 _ hc
    rw [hm, hm', hleaves.liveMap_of_ttl hop hpos, hleaves'.liveMap_of_ttl (hbc ▸ hop) (hbc ▸ hpos),
      hbc, now_of_mem_atInstant ha, now_of_mem_atInstant hb, if_pos (by omega), if_neg (by omega)]
      at hagree
    cases hagree
  · intro h as bs u v w has hbs htime htime'
    funext k
    cases hlast : lastOn k cs with
    | none =>
      rw [(StorageEngine.liveMap_replica h₀ hcs hE has htime k).1 hlast,
        (StorageEngine.liveMap_replica h₀' hcs hF hbs htime' k).1 hlast]
    | some c =>
      obtain ⟨a, -, rfl, hnow, m, hm, hleaves⟩ :=
        (StorageEngine.liveMap_replica h₀ hcs hE has htime k).2 c hlast
      obtain ⟨b, -, hbc, hnow', m', hm', hleaves'⟩ :=
        (StorageEngine.liveMap_replica h₀' hcs hF hbs htime' k).2 _ hlast
      have hfree := h k _ hlast
      rw [hm, hm', hleaves.liveMap_of_ttlFree hnow hfree,
        hleaves'.liveMap_of_ttlFree hnow' (hbc ▸ hfree), hbc]

/-- A `Set` with a TTL of a second. -/
def setForASecond : Command :=
  ⟨1, [97], [1], [], 1⟩

/-- The TTL of the first command does not matter, since the second deletes the key. -/
theorem replicas_converge_after_delete : lsm.liveMap (lsm.applyAll (lsmNew ⟨0, 0⟩)
        (atInstant 1 [setForASecond, ⟨2, [97], [], [], 0⟩])).1 9
      = memStore.liveMap (memStore.applyAll MemStore.new
        (atInstant 7 [setForASecond, ⟨2, [97], [], [], 0⟩])).1 9 := by
  have hstor : ∀ c ∈ [setForASecond, ⟨2, [97], [], [], 0⟩],
      ∀ x : ℤ, 0 < x → x < 9 → StorableTtl x c.ttl := by
    intro c hc x hx hx'
    simp only [List.mem_cons, List.not_mem_nil, or_false] at hc
    rcases hc with rfl | rfl
    · intro t ht
      have httl : setForASecond.ttl = 10 ^ 9 := by decide
      rw [expiryOf, httl, if_pos (by omega)] at ht
      rw [← Option.some.inj ht, FitsInt64]
      omega
    · exact storableTtl_of_nonpos (by decide) x
  have hknown : ∀ c ∈ [setForASecond, ⟨2, [97], [], [], 0⟩], c.Known := by decide
  have hfit : ∀ c ∈ [setForASecond, ⟨2, [97], [], [], 0⟩],
      LengthsFit (toValid c.key) c.value (toValid c.consistency) := by decide
  refine (replicas_converge_iff (lsm_stands_new ⟨0, 0⟩ 0) (memStore_stands_new 0) hknown fun c hc =>
    ⟨lsm.holdsCommand_of_fits (hfit c hc), memStore.holdsCommand_of_fits (hfit c hc)⟩).mpr
    ?_ _ _ 1 7 9 (by rw [commands_atInstant]; exact replays_all _)
    (by rw [commands_atInstant]; exact replays_all _)
    (StorageEngine.timely_atInstant (by omega) fun c hc => hstor c hc 1 (by omega) (by omega))
    (StorageEngine.timely_atInstant (by omega) fun c hc => hstor c hc 7 (by omega) (by omega))
  intro k c hc hop
  -- the last command on every key is a `Delete`
  by_cases hk : k = [97]
  · subst hk
    rw [← Option.some.inj hc] at hop
    exact absurd hop (by decide)
  · obtain ⟨hmem, hkey⟩ := mem_of_lastOn hc
    simp only [List.mem_cons, List.not_mem_nil, or_false] at hmem
    rcases hmem with rfl | rfl <;> exact absurd hkey.symm hk

/-- One command with a TTL of a second. It is applied at instant `0`, or after two seconds, or at
both since there was a restart between; half a second later only the first replica has lost the
key. -/
theorem replicas_diverge : Replays [setForASecond] 1 [setForASecond] ∧
      Replays [setForASecond] 1 [setForASecond, setForASecond] ∧
      memStore.liveMap (memStore.applyAll MemStore.new
        [⟨setForASecond, 0, 0⟩]).1 2500000000 [97] = none ∧
      memStore.liveMap (memStore.applyAll MemStore.new
        [⟨setForASecond, 2000000000, 2000000000⟩]).1 2500000000 [97] = some ([1], []) ∧
      memStore.liveMap (memStore.applyAll MemStore.new
        [⟨setForASecond, 0, 0⟩, ⟨setForASecond, 2000000000, 2000000000⟩]).1 2500000000 [97]
          = some ([1], []) := by
  have hone : Replays [setForASecond] 1 [setForASecond] := Replays.start.apply rfl
  exact ⟨hone, (hone.restart 0 (by omega)).apply rfl, by decide, by decide, by decide⟩

end Converge

/-! ### Replays without TTLs -/

/-- What commands without TTLs leave to be seen at a key. -/
def effectAt (k : Key) (cs : List Command) : Option (Bytes × Bytes) :=
  (lastOn k cs).bind Command.outcome

/-- Commands without TTLs over what was there. -/
theorem Model.TtlFree.liveMap_applyAll {m : Model} (hm : m.TtlFree) {as : List Application}
    (has : ∀ a ∈ as, a.command.TtlFree) (u : ℤ) (k : Key) :
    (m.applyAll as).liveMap u k = match lastOn k (as.map Application.command) with
      | some c => c.outcome
      | none => m.liveMap u k := by
  cases hlast : lastOn k (as.map Application.command) with
  | none => exact Model.liveMap_congr (m.applyAll_of_lastOn_none hlast) u
  | some c =>
    obtain ⟨a, ha, rfl, hleaves⟩ := m.applyAll_leaves hlast
    rw [(hm.applyAll has).liveMap_eq u a.now]
    exact hleaves.liveMap_of_ttlFree le_rfl fun _ => has a ha

theorem Command.outcome_valid {c : Command} {x : Bytes × Bytes} (h : c.outcome = some x) :
    (x.1, toValid x.2) = x := by
  unfold Command.outcome at h
  split at h
  · rw [← Option.some.inj h, toValid_toValid]
  · cases h

/-- A snapshot of what commands left comes back as it was. -/
theorem effectAt_valid (k : Key) (cs : List Command) :
    ((effectAt k cs).map fun c => (c.1, toValid c.2)) = effectAt k cs := by
  unfold effectAt
  cases lastOn k cs with
  | none => rfl
  | some c =>
    change c.outcome.map _ = c.outcome
    cases hc : c.outcome with
    | none => rfl
    | some x => exact congrArg some (Command.outcome_valid hc)

theorem valid_of_effectAt {k : Key} {cs : List Command} (h : effectAt k cs ≠ none) :
    valid k = true := by
  unfold effectAt at h
  cases hlast : lastOn k cs with
  | none => exact absurd (by rw [hlast]; rfl) h
  | some c => exact (mem_of_lastOn hlast).2 ▸ valid_toValid c.key

section Harmless

variable {σ τ ρ : Type} {E : StorageEngine σ} {F : StorageEngine τ} {G : StorageEngine ρ}
  {cs : List Command}

/-- What commands produce on an empty engine. -/
theorem StorageEngine.liveMap_applyAll_empty {s : σ} {t : ℤ} (h₀ : E.Stands t s .empty)
    {as : List Application} (hknown : ∀ c ∈ as.map Application.command, c.Known)
    (hfree : ∀ c ∈ as.map Application.command, c.TtlFree)
    (hholds : ∀ c ∈ as.map Application.command, E.HoldsCommand c) (u : ℤ) :
    E.liveMap (E.applyAll s as).1 u = fun k => effectAt k (as.map Application.command) := by
  rw [List.forall_mem_map] at hknown hfree hholds
  rw [liveMap_eq ((applyAll_ttlFree hknown hfree hholds h₀ Model.ttlFree_empty).2 u)]
  funext k
  rw [Model.ttlFree_empty.liveMap_applyAll hfree, effectAt]
  cases lastOn k (as.map Application.command) with
  | none => rfl
  | some c => rfl

/-- What is visible of commands that the engine holds can be put again. -/
theorem StorageEngine.holds_effectAt (hholds : ∀ c ∈ cs, E.HoldsCommand c) {k : Key}
    {x : Bytes × Bytes} (h : effectAt k cs = some x) : E.Holds k x.1 (toValid x.2) := by
  obtain ⟨c, hlast, hc⟩ := Option.bind_eq_some_iff.mp h
  obtain ⟨hmem, rfl⟩ := mem_of_lastOn hlast
  have hvalid : toValid x.2 = x.2 := congrArg Prod.snd (Command.outcome_valid hc)
  rw [hvalid]
  unfold Command.outcome at hc
  split at hc
  · next hop =>
    cases hc
    exact hholds c hmem hop
  · cases hc

/-- Up to `i` from the snapshot, and from there on from the log: nothing that the engine has from
in between shows. -/
theorem effectAt_replay {i n : ℕ} (hin : i ≤ n) (k : Key) : (match lastOn k (cs.drop i) with
      | some c => c.outcome
      | none => (effectAt k (cs.take i)).or (effectAt k (cs.take n))) = effectAt k cs := by
  have hsplit : lastOn k cs = (lastOn k (cs.drop i)).or (lastOn k (cs.take i)) := by
    rw [← lastOn_append, List.take_append_drop]
  cases hlast : lastOn k (cs.drop i) with
  | some c =>
    have hwhole : effectAt k cs = c.outcome := by
      rw [effectAt, hsplit, hlast]
      rfl
    exact hwhole.symm
  | none =>
    rw [hlast, Option.none_or] at hsplit
    -- between `i` and `n` there is no command on the key
    have hmid : lastOn k ((cs.drop i).take (n - i)) = none := by
      rw [← List.take_append_drop (n - i) (cs.drop i), lastOn_append,
        Option.or_eq_none_iff] at hlast
      exact hlast.2
    have htake : lastOn k (cs.take n) = lastOn k (cs.take i) := by
      rw [← Nat.add_sub_cancel' hin, List.take_add, lastOn_append, hmid, Option.none_or]
    simp only [effectAt, htake, hsplit, Option.or_self]

/-- **A replay is harmless.** The engine had got to `n` when it crashed; it restores a snapshot
taken at `i`, or starts from nothing if `i = 0`, and applies the log from there. The engines have to
be able to hold what the commands set. -/
theorem replay_harmless (hknown : ∀ c ∈ cs, c.Known) (hfree : ∀ c ∈ cs, c.TtlFree)
    (hholds : ∀ c ∈ cs, E.HoldsCommand c ∧ F.HoldsCommand c) {i n : ℕ}
    (hin : i ≤ n) {s₀ : τ} {t₀ : ℤ} (h₀ : F.Stands t₀ s₀ .empty)
    {s : σ} {m : Model} {t : ℤ} (hs : E.Stands t s m) (hm : m.TtlFree) {as₁ : List Application}
    (has₁ : as₁.map Application.command = cs.take n)
    (hlive : E.liveMap s t = F.liveMap (F.applyAll s₀ as₁).1 t)
    {g : ρ} {m' : Model} {t' : ℤ} (hg : G.Stands t' g m') (hm' : m'.TtlFree)
    {as₂ : List Application} (has₂ : as₂.map Application.command = cs.take i)
    (hlive' : G.liveMap g t' = F.liveMap (F.applyAll s₀ as₂).1 t')
    {as bs : List Application} (has : as.map Application.command = cs.drop i)
    (hbs : bs.map Application.command = cs) (readings : ℕ → Readings) :
    ∃ data, G.snapshot g t' = .ok data ∧
      let restored := if i = 0 then (s, none) else E.restore s readings data
      restored.2 = none ∧ (∀ err ∈ (E.applyAll restored.1 as).2, err = none) ∧
        ∀ u, E.liveMap (E.applyAll restored.1 as).1 u = F.liveMap (F.applyAll s₀ bs).1 u ∧
          E.scanMap (E.applyAll restored.1 as).1 u = F.scanMap (F.applyAll s₀ bs).1 u := by
  have heffect : ∀ {ds : List Application} {es : List Command},
      ds.map Application.command = es → (∀ c ∈ es, c ∈ cs) → ∀ u,
      F.liveMap (F.applyAll s₀ ds).1 u = fun k => effectAt k es := by
    rintro ds _ rfl hsub u
    exact StorageEngine.liveMap_applyAll_empty h₀ (fun c hc => hknown c (hsub c hc))
      (fun c hc => hfree c (hsub c hc)) (fun c hc => (hholds c (hsub c hc)).2) u
  rw [heffect has₁ (fun c hc => List.mem_of_mem_take hc), E.liveMap_eq hs] at hlive
  rw [heffect has₂ (fun c hc => List.mem_of_mem_take hc), G.liveMap_eq hg] at hlive'
  obtain ⟨data, hdata, herr, m₁, hst, hm₁, hlive₁⟩ := restore_snapshot hs hg hm hm'
    (fun k hk => by rw [hlive'] at hk; exact valid_of_effectAt hk)
    (fun k c hc => by
      rw [hlive'] at hc
      exact E.holds_effectAt (fun c hc => (hholds c (List.mem_of_mem_take hc)).1) hc) readings
  refine ⟨data, hdata, ?_⟩
  intro restored
  -- with the snapshot or without it, the engine shows what was left up to `i`, or else up to `n`
  obtain ⟨herr₂, m₂, hst₂, hm₂, hlive₂⟩ : restored.2 = none ∧ ∃ m₂,
      (∀ u, E.Stands u restored.1 m₂) ∧
      m₂.TtlFree ∧
      ∀ u k, m₂.liveMap u k = (effectAt k (cs.take i)).or (effectAt k (cs.take n)) := by
    by_cases hi : i = 0
    · have hrestored : restored = (s, none) := if_pos hi
      rw [hrestored]
      refine ⟨rfl, m, fun u => E.stands_of_ttlFree hs hm, hm, fun u k => ?_⟩
      rw [hm.liveMap_eq u t, hlive, hi]
      rfl
    · have hrestored : restored = E.restore s readings data := if_neg hi
      rw [hrestored]
      refine ⟨herr, m₁, hst, hm₁, fun u k => ?_⟩
      rw [hlive₁, hlive', effectAt_valid, hm.liveMap_eq u t, hlive]
  have hcommand : ∀ a ∈ as, a.command ∈ cs := fun a ha =>
    List.mem_of_mem_drop (has ▸ List.mem_map_of_mem ha)
  have hfree₂ : ∀ a ∈ as, a.command.TtlFree := fun a ha => hfree _ (hcommand a ha)
  obtain ⟨herrs, hend⟩ :=
    StorageEngine.applyAll_ttlFree (fun a ha => hknown _ (hcommand a ha)) hfree₂
      (fun a ha => (hholds _ (hcommand a ha)).1) (hst₂ t) hm₂
  have hmaps : ∀ u, (m₂.applyAll as).liveMap u = fun k => effectAt k cs := by
    intro u
    funext k
    rw [hm₂.liveMap_applyAll hfree₂, has, hlive₂, effectAt_replay hin]
  obtain ⟨-, hbs'⟩ : _ ∧ ∀ u, F.Stands u (F.applyAll s₀ bs).1 _ := StorageEngine.applyAll_ttlFree
    (fun a ha => hknown _ (hbs ▸ List.mem_map_of_mem ha))
    (fun a ha => hfree _ (hbs ▸ List.mem_map_of_mem ha))
    (fun a ha => (hholds _ (hbs ▸ List.mem_map_of_mem ha)).2) h₀ Model.ttlFree_empty
  refine ⟨herr₂, herrs, fun u => ?_⟩
  have hgoal := heffect hbs (fun c hc => hc) u
  rw [F.scanMap_eq (hbs' u), ← F.liveMap_eq (hbs' u), hgoal, E.liveMap_eq (hend u),
    E.scanMap_eq (hend u), hmaps u]
  exact ⟨rfl, rfl⟩

/-- A key is set, deleted and set again, and then another one. -/
def replayedLog : List Command :=
  [⟨1, [97], [1], [], 0⟩, ⟨2, [97], [], [], 0⟩, ⟨1, [97], [2], [], 0⟩, ⟨1, [98], [3], [83], 0⟩]

/-- The key is deleted when the engine crashes, and the snapshot still has it. -/
theorem replay_harmless_after_delete : ∃ data,
    memStore.snapshot (memStore.applyAll MemStore.new (atInstant 0 (replayedLog.take 1))).1 0
        = .ok data ∧
      (lsm.restore (lsm.applyAll (lsmNew ⟨0, 0⟩) (atInstant 0 (replayedLog.take 2))).1 still data).2
        = none ∧
      ∀ u, lsm.liveMap (lsm.applyAll (lsm.restore
            (lsm.applyAll (lsmNew ⟨0, 0⟩) (atInstant 0 (replayedLog.take 2))).1 still data).1
          (atInstant 7 (replayedLog.drop 1))).1 u
        = memStore.liveMap (memStore.applyAll MemStore.new (atInstant 0 replayedLog)).1 u := by
  have hknown : ∀ c ∈ replayedLog, c.Known := by decide
  have hfree : ∀ c ∈ replayedLog, c.ttl ≤ 0 := by decide
  have hfit : ∀ c ∈ replayedLog,
      LengthsFit (toValid c.key) c.value (toValid c.consistency) := by decide
  have hholds : ∀ c ∈ replayedLog, lsm.HoldsCommand c ∧ memStore.HoldsCommand c := fun c hc =>
    ⟨lsm.holdsCommand_of_fits (hfit c hc), memStore.holdsCommand_of_fits (hfit c hc)⟩
  have hsub : ∀ n, ∀ a ∈ atInstant 0 (replayedLog.take n), a.command ∈ replayedLog := by
    intro n a ha
    obtain ⟨c, hc, rfl⟩ := List.mem_map.mp ha
    exact List.mem_of_mem_take hc
  have hfree' : ∀ n, ∀ a ∈ atInstant 0 (replayedLog.take n), a.command.TtlFree := fun n a ha =>
    hfree _ (hsub n a ha)
  -- the engine that crashed, the one that shows what it had, and the one of the snapshot
  obtain ⟨-, hs⟩ := StorageEngine.applyAll_ttlFree (fun a ha => hknown _ (hsub 2 a ha)) (hfree' 2)
    (fun a ha => (hholds _ (hsub 2 a ha)).1) (lsm_stands_new ⟨0, 0⟩ 0) Model.ttlFree_empty
  obtain ⟨-, hs'⟩ := StorageEngine.applyAll_ttlFree (fun a ha => hknown _ (hsub 2 a ha)) (hfree' 2)
    (fun a ha => (hholds _ (hsub 2 a ha)).2) (memStore_stands_new 0) Model.ttlFree_empty
  obtain ⟨-, hg⟩ := StorageEngine.applyAll_ttlFree (fun a ha => hknown _ (hsub 1 a ha)) (hfree' 1)
    (fun a ha => (hholds _ (hsub 1 a ha)).2) (memStore_stands_new 0) Model.ttlFree_empty
  obtain ⟨data, hdata, herr, -, hmaps⟩ := replay_harmless hknown hfree hholds (by omega : 1 ≤ 2)
    (memStore_stands_new 0) (hs 0) (Model.ttlFree_empty.applyAll (hfree' 2))
      (commands_atInstant 0 _)
    ((lsm.liveMap_eq (hs 0)).trans (memStore.liveMap_eq (hs' 0)).symm) (hg 0)
    (Model.ttlFree_empty.applyAll (hfree' 1)) (commands_atInstant 0 _) rfl (commands_atInstant 7 _)
    (commands_atInstant 0 _) still
  exact ⟨data, hdata, herr, fun u => (hmaps u).1⟩

/-- A `Set` on an empty engine that flushes at once, whatever the key. -/
theorem tables_of_one_set (key : Key) :
    (lsm.apply (lsmNew ⟨0, 4⟩) 0 0 (some ⟨1, key, [1], [], 0⟩)).1.2.tables
      = [(1, [⟨key, [1], [], 0, false, 1⟩])] := by
  have hsize : ¬ (key.length : ℤ) + 1 + 32 < 0 := by omega
  have hflush : Engine.flushedEntries (AList.singleton key ⟨[1], [], none, false, 1⟩)
      = [⟨key, [1], [], 0, false, 1⟩] := by
    have hlookup : (AList.singleton key ⟨[1], [], none, false, 1⟩ : EntryMap).lookup key = some _ :=
      AList.lookup_insert ∅
    simp [Engine.flushedEntries, AList.keys, hlookup, toSSTableEntry, unixNano]
  simp [StorageEngine.apply, lsm, lsmNew, Engine.settle, Engine.put, Engine.commit,
    Engine.processBatch, appendBatch, writeRecords, Prog.bind, Prog.complete, fileSystem,
    Engine.applyAll, Engine.applyToMemtable, Engine.maybeFlushLocked, Engine.flushLocked,
    Request.op, openEngine, Disk.empty, entrySize, hsize, sortedTables, maxSeq, maxVersion,
    commandSet, Command.ttl, wrap64, expiryOf, hflush, Engine.writeAndOpenSSTable, placeTable,
    walReset, AList.keys]

/-- **A key that the files cannot hold stops the replay.** One `Set` of a key of 65536 letters is
applied to an empty engine. `Apply` flushes it, and `Open` of the new table panics, as the index has
the length of the key as `0`. -/
theorem long_key_set_panics : ∃ (c : Command) (t : Table) (file : Bytes),
    c.Known ∧ c.TtlFree ∧ valid c.key = true ∧ c.key.length = 2 ^ 16 ∧
      (lsm.applyAll (lsmNew ⟨0, 4⟩) (atInstant 0 [c])).1.2.tables = [(1, t)] ∧
      writeSorted t = some file ∧ openTable file = .error .panic := by
  -- the long key is a variable from here on, so that nothing computes with it
  obtain ⟨key, hkey⟩ : ∃ key : Key, key = List.replicate 65536 97 := ⟨_, rfl⟩
  have hlen : key.length = 65536 := by rw [hkey, List.length_replicate]
  have hvalid : valid key = true := valid_of_ascii fun b hb => by
    rw [hkey] at hb
    rw [List.eq_of_mem_replicate hb]
    decide
  have htables : (lsm.applyAll (lsmNew ⟨0, 4⟩) (atInstant 0 [⟨1, key, [1], [], 0⟩])).1.2.tables
      = [(1, [⟨key, [1], [], 0, false, 1⟩])] := by
    have hsame : encodeCommand ⟨1, key, [1], [], 0⟩ = some ⟨1, key, [1], [], 0⟩ := by
      rw [encodeCommand, toValid_eq_self_iff.mpr hvalid]
      rfl
    change (lsm.apply (lsmNew ⟨0, 4⟩) 0 0 (encodeCommand ⟨1, key, [1], [], 0⟩)).1.2.tables = _
    rw [hsame]
    exact tables_of_one_set key
  have hsize : (tableBytes [⟨key, [1], [], 0, false, 1⟩]).length < 2 ^ 63 := by
    simp [tableBytes, indexEntries, encodeEntry, encodeIndexEntry, length_bigEndian, hlen]
  refine ⟨⟨1, key, [1], [], 0⟩, _, tableBytes [⟨key, [1], [], 0, false, 1⟩], .inl rfl, ?_, hvalid,
    hlen, htables, if_pos hsize, ?_⟩
  · exact (show Command.ttl ⟨1, key, [1], [], 0⟩ = 0 from rfl).le
  · rw [openTable, openWithin_written hsize ⟨?_, Memory.allows_unlimited _⟩
      (Memory.allows_unlimited _)]
    · rw [indexEntries, indexEntries, List.flatMap_singleton, encodeIndexEntry,
        parseIndex_of_long_key hkey (length_bigEndian 8 0)]
    · simp [indexEntries, encodeIndexEntry, length_bigEndian, hlen]

end Harmless

end Storage
end BoilerPulse
