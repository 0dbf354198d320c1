import Mathlib.Data.List.Sort
import BoilerPulse.Framework.Utf8
import BoilerPulse.Storage.Contract

/-!
# Storage: the replicated state machine

`RaftStateMachine` (`statemachine.go`) over any engine that meets the contract: `Apply` on the
commands of the Raft log (`command.go`), `Snapshot` and `Restore`.

Commands and snapshots travel as JSON. What `json.Marshal` writes is known here by what
`json.Unmarshal` makes of it (`Json`): strings come back with everything replaced
that is not UTF-8, byte slices and instants come back as they were, and an instant outside the years
`0000` to `9999` is not written at all.
-/

namespace BoilerPulse
namespace Storage

variable {as : List Application} {k : Key}

open Framework Utf8

/-- Bytes, by what `json.Unmarshal` makes of them; `none` if it reports an error. -/
abbrev Json (α : Type) := Option α

/-! ### Commands (`command.go`) -/

def commandSet : UInt8 := 1

def commandDelete : UInt8 := 2

structure Command where
  op : UInt8
  key : Key
  value : Bytes
  consistency : Bytes
  ttlSeconds : ℤ
  deriving DecidableEq, Repr

def encodeCommand (c : Command) : Json Command :=
  some { c with key := toValid c.key, consistency := toValid c.consistency }

/-- `time.Duration(TTLSeconds) * time.Second`, as an `int64`. -/
def Command.ttl (c : Command) : ℤ :=
  wrap64 (c.ttlSeconds * 10 ^ 9)

/-- `Set` or `Delete`. -/
def Command.Known (c : Command) : Prop :=
  c.op = commandSet ∨ c.op = commandDelete

instance Command.Known.decidable (c : Command) : Decidable c.Known :=
  inferInstanceAs (Decidable (_ ∨ _))

/-! ### Snapshots -/

structure SnapshotEntry where
  key : Key
  value : Bytes
  consistency : Bytes
  expiresAt : Option ℤ
  deriving DecidableEq, Repr

/-- The keys of a map, sorted. -/
def sortedKeys (entries : ScanResult) : List Key :=
  Quot.liftOn entries.keys.val (fun keys => keys.insertionSort (· ≤ ·)) fun _ _ h =>
    List.Perm.eq_of_pairwise (fun _ _ _ _ => List.le_antisymm) (List.pairwise_insertionSort _ _)
      (List.pairwise_insertionSort _ _)
      (((List.perm_insertionSort _ _).trans h).trans (List.perm_insertionSort _ _).symm)

theorem mem_sortedKeys (entries : ScanResult) (k : Key) : k ∈ sortedKeys entries ↔ k ∈ entries := by
  rw [← Finmap.mem_keys]
  change _ ↔ k ∈ entries.keys.val
  unfold sortedKeys
  induction entries.keys.val using Quot.inductionOn with
  | _ keys => exact List.mem_insertionSort _

theorem nodup_sortedKeys (entries : ScanResult) : (sortedKeys entries).Nodup := by
  have hnodup : entries.keys.val.Nodup := entries.keys.nodup
  unfold sortedKeys
  revert hnodup
  induction entries.keys.val using Quot.inductionOn with
  | _ keys =>
    intro hnodup
    exact (List.perm_insertionSort _ keys).nodup_iff.mpr hnodup

/-- The instants that `MarshalJSON` writes: years `0000` to `9999`, in UTC. -/
def writableInstant (t : ℤ) : Bool :=
  -62167219200 * 10 ^ 9 ≤ t && t < 253402300800 * 10 ^ 9

/-- `json.Marshal` of a snapshot. -/
def marshalSnapshot (es : List SnapshotEntry) : Except Error (Json (List SnapshotEntry)) :=
  if es.all fun e => e.expiresAt.all writableInstant then
    .ok (some (es.map fun e =>
      { e with key := toValid e.key, consistency := toValid e.consistency }))
  else .error (.failed ["encoding snapshot"])

/-- `time.Until`, which stops at the ends of `int64`. -/
def timeUntil (t now : ℤ) : ℤ :=
  max (-2 ^ 63) (min (t - now) (2 ^ 63 - 1))

/-- The readings of the clock for one entry of a snapshot: by `Until`, and by `Put`. -/
structure Readings where
  atUntil : ℤ
  now : ℤ
  later : ℤ

/-- The texts of an error, as `%w` appends them. -/
def Error.texts : Error → List String
  | .keyNotFound => ["key not found"]
  | .failed context => context

namespace StorageEngine

variable {σ : Type}

def apply (E : StorageEngine σ) (s : σ) (now later : ℤ) (command : Json Command) :
    σ × Option Error :=
  match command with
  | none => (s, some (.failed ["decoding command"]))
  | some cmd =>
    if cmd.op = commandSet then E.put s now later cmd.key cmd.value cmd.consistency cmd.ttl
    else if cmd.op = commandDelete then
      match E.delete s now later cmd.key with
      -- the key is gone already, as it may well be in a replay
      | (s, some .keyNotFound) => (s, none)
      | result => result
    else (s, some (.failed ["unknown command op " ++ toString cmd.op]))

/-- Every key that is visible, in the order of the keys. -/
def snapshot (E : StorageEngine σ) (s : σ) (now : ℤ) : Except Error (Json (List SnapshotEntry)) :=
  let entries := E.scan s now []
  marshalSnapshot ((sortedKeys entries).filterMap fun k =>
    (entries.lookup k).map fun e => ⟨k, e.value, e.consistency, e.expiresAt⟩)

/-- The loop of `Restore`; `i` counts the entries. -/
def restoreEntries (E : StorageEngine σ) (readings : ℕ → Readings) :
    ℕ → σ → List SnapshotEntry → σ × Option Error
  | _, s, [] => (s, none)
  | i, s, e :: es =>
    let put (ttl : ℤ) : σ × Option Error :=
      match E.put s (readings i).now (readings i).later e.key e.value e.consistency ttl with
      | (s, some err) => (s, some (.failed ("restoring key" :: err.texts)))
      | (s, none) => E.restoreEntries readings (i + 1) s es
    match e.expiresAt with
    | none => put 0
    | some t =>
      let ttl := timeUntil t (readings i).atUntil
      -- expired between snapshot and restore
      if ttl ≤ 0 then E.restoreEntries readings (i + 1) s es
      else put ttl

def restore (E : StorageEngine σ) (s : σ) (readings : ℕ → Readings)
    (data : Json (List SnapshotEntry)) : σ × Option Error :=
  match data with
  | none => (s, some (.failed ["decoding snapshot"]))
  | some entries => E.restoreEntries readings 0 s entries

end StorageEngine

/-! ### What clients can compare -/

/-- Value and consistency. Versions are the engine's own, and expiry shows in what is visible. -/
def Entry.content (e : Entry) : Bytes × Bytes :=
  (e.value, e.consistency)

/-- The visible keys of a model with their contents. -/
def Model.liveMap (m : Model) (t : ℤ) (k : Key) : Option (Bytes × Bytes) :=
  (live Entry.dead t m.map k).map Entry.content

theorem Model.liveMap_congr {m m' : Model} (h : m.map k = m'.map k) (t : ℤ) :
    m.liveMap t k = m'.liveMap t k := by
  rw [Model.liveMap, Model.liveMap, live, live, h]

theorem Model.liveMap_of_visible {m : Model} {t : ℤ} {e : Entry} (h : m.map k = some e)
    (hd : e.dead t = false) : m.liveMap t k = some e.content := by
  rw [Model.liveMap, (live_eq_some Entry.dead).mpr ⟨h, hd⟩, Option.map_some]

theorem Model.liveMap_of_dead {m : Model} {t : ℤ} (h : ∀ e, m.map k = some e → e.dead t = true)
    : m.liveMap t k = none := by
  rw [Model.liveMap, Option.map_eq_none_iff, Option.eq_none_iff_forall_ne_some]
  intro e he
  obtain ⟨hk, hd⟩ := (live_eq_some Entry.dead).mp he
  rw [h e hk] at hd
  cases hd

theorem Model.TtlFree.liveMap_eq {m : Model} (h : m.TtlFree) (t t' : ℤ) :
    m.liveMap t = m.liveMap t' := by
  funext k
  rw [Model.liveMap, Model.liveMap, live, live]
  cases hk : m.map k with
  | none => rfl
  | some e =>
    have hexp := h k e hk
    rw [Option.filter, Option.filter, Entry.dead_eq_tombstone hexp, Entry.dead_eq_tombstone hexp]

theorem Model.ttlFree_empty : Model.empty.TtlFree :=
  nofun

theorem Model.TtlFree.write {m : Model} (h : m.TtlFree) (key : Key) {e : Entry}
    (he : e.expiresAt = none) : (m.write key e).TtlFree := by
  intro k x hx
  by_cases hk : k = key
  · subst hk
    rw [Model.write_map_self] at hx
    rwa [← Option.some.inj hx]
  · rw [Model.write_map_of_ne m hk] at hx
    exact h k x hx

theorem Model.liveMap_write_of_ne {m : Model} {key k : Key} (hk : k ≠ key) (e : Entry) (t : ℤ) :
    (m.write key e).liveMap t k = m.liveMap t k :=
  Model.liveMap_congr (m.write_map_of_ne hk e) t

namespace StorageEngine

variable {σ : Type} {E : StorageEngine σ} {s : σ} {m : Model} {t t' : ℤ}

/-- `Get` on every key. -/
def liveMap (E : StorageEngine σ) (s : σ) (t : ℤ) (k : Key) : Option (Bytes × Bytes) :=
  (E.get s t k).toOption.map Entry.content

/-- `Scan("")`. -/
def scanMap (E : StorageEngine σ) (s : σ) (t : ℤ) (k : Key) : Option (Bytes × Bytes) :=
  ((E.scan s t []).lookup k).map Entry.content

theorem liveMap_eq (hs : E.Stands t s m) : E.liveMap s t = m.liveMap t := by
  funext k
  rw [liveMap, E.get_eq hs, checked_eq, Model.liveMap]
  cases live Entry.dead t m.map k <;> rfl

theorem scanMap_eq (hs : E.Stands t s m) : E.scanMap s t = m.liveMap t := by
  funext k
  rw [scanMap, E.lookup_scan hs]
  rfl

end StorageEngine

/-! ### Applying commands -/

/-- A command that is applied, with the readings of the clock. -/
structure Application where
  command : Command
  now : ℤ
  later : ℤ

def Model.apply (m : Model) (a : Application) : Model :=
  if a.command.op = commandSet then
    m.put a.now (toValid a.command.key) a.command.value
      (toValid a.command.consistency) a.command.ttl
  else (m.delete a.now (toValid a.command.key)).1

def Model.applyAll (m : Model) (as : List Application) : Model :=
  as.foldl Model.apply m

namespace StorageEngine

variable {σ : Type} {E : StorageEngine σ} {s : σ} {m : Model} {t t' : ℤ}

/-- Apply commands as the log has them, and collect what `Apply` returns. -/
def applyAll (E : StorageEngine σ) : σ → List Application → σ × List (Option Error)
  | s, [] => (s, [])
  | s, a :: as =>
    let (s, err) := E.apply s a.now a.later (encodeCommand a.command)
    let (s, errs) := E.applyAll s as
    (s, err :: errs)

/-- The engine can hold what the command sets. -/
def HoldsCommand (E : StorageEngine σ) (c : Command) : Prop :=
  c.op = commandSet → E.Holds (toValid c.key) c.value (toValid c.consistency)

theorem holdsCommand_of_fits {c : Command}
    (h : LengthsFit (toValid c.key) c.value (toValid c.consistency)) : E.HoldsCommand c :=
  fun _ => E.holds_of_fits h

theorem apply_spec {a : Application} (hs : E.Stands a.now s m) (hs' : E.Stands a.later s m)
    (hknown : a.command.Known) (hholds : E.HoldsCommand a.command)
    (hadm : a.command.op = commandSet → E.Admits a.now a.command.ttl) :
    (E.apply s a.now a.later (encodeCommand a.command)).2 = none ∧
      E.Stands a.later (E.apply s a.now a.later (encodeCommand a.command)).1 (m.apply a) := by
  unfold apply encodeCommand Model.apply
  by_cases hop : a.command.op = commandSet
  · simp only [if_pos hop]
    exact E.put_spec hs' (hadm hop) (hholds hop)
  · have hdel : a.command.op = commandDelete := hknown.resolve_left hop
    simp only [if_neg hop, if_pos hdel]
    obtain ⟨herr, hst⟩ := E.delete_spec hs hs' (toValid a.command.key)
    cases hres : E.delete s a.now a.later (toValid a.command.key) with
    | mk s' err =>
      rw [hres] at herr hst
      -- the model reports `ErrKeyNotFound` or nothing
      rw [Model.delete] at herr
      cases hc : checked a.now (m.map (toValid a.command.key)) with
      | ok e =>
        rw [hc] at herr
        obtain rfl : err = none := herr
        exact ⟨rfl, hst⟩
      | error e =>
        rw [hc] at herr
        obtain rfl : err = some e := herr
        obtain rfl : e = .keyNotFound := error_of_checked hc
        exact ⟨rfl, hst⟩

/-- The clock goes on from `t` to `t'` without going backwards, and the engine takes the TTLs. -/
def Timely (E : StorageEngine σ) : ℤ → List Application → ℤ → Prop
  | t, [], t' => t ≤ t'
  | t, a :: as, t' =>
    t ≤ a.now ∧ a.now ≤ a.later ∧ (a.command.op = commandSet → E.Admits a.now a.command.ttl) ∧
      E.Timely a.later as t'

/-- Applying commands in time moves the model along, without an error. -/
theorem applyAll_timely {as : List Application} (hs : E.Stands t s m) (htime : E.Timely t as t')
    (hknown : ∀ a ∈ as, a.command.Known) (hholds : ∀ a ∈ as, E.HoldsCommand a.command) :
    (∀ err ∈ (E.applyAll s as).2, err = none) ∧
      E.Stands t' (E.applyAll s as).1 (m.applyAll as) := by
  induction as generalizing t s m with
  | nil => exact ⟨nofun, E.stands_mono hs htime⟩
  | cons a as ih =>
    obtain ⟨hnow, hlater, hadm, hrest⟩ := htime
    have hst := E.stands_mono hs hnow
    obtain ⟨herr, hst'⟩ := apply_spec hst (E.stands_mono hst hlater)
      (hknown a List.mem_cons_self) (hholds a List.mem_cons_self) hadm
    obtain ⟨herrs, hend⟩ := ih hst' hrest (fun b hb => hknown b (List.mem_cons_of_mem a hb))
      fun b hb => hholds b (List.mem_cons_of_mem a hb)
    exact ⟨List.forall_mem_cons.mpr ⟨herr, herrs⟩, hend⟩

end StorageEngine

/-- A command that gives no expiry. -/
def Command.TtlFree (c : Command) : Prop :=
  c.ttl ≤ 0

theorem expiryOf_of_nonpos {ttl : ℤ} (h : ttl ≤ 0) (now : ℤ) : expiryOf now ttl = none :=
  if_neg (not_lt.mpr h)

theorem storableTtl_of_nonpos {ttl : ℤ} (h : ttl ≤ 0) (now : ℤ) : StorableTtl now ttl := by
  intro t ht
  rw [expiryOf_of_nonpos h] at ht
  cases ht

theorem Model.TtlFree.apply {m : Model} (h : m.TtlFree) {a : Application}
    (ha : a.command.TtlFree) : (m.apply a).TtlFree := by
  unfold Model.apply Model.put Model.delete
  split
  · exact h.write _ (expiryOf_of_nonpos ha _)
  · split
    · exact h
    · exact h.write _ rfl

theorem Model.TtlFree.applyAll : ∀ {m : Model}, m.TtlFree →
    (∀ a ∈ as, a.command.TtlFree) → (m.applyAll as).TtlFree := by
  induction as with
  | nil => intro m h _; exact h
  | cons a as ih =>
    intro m h has
    exact ih (h.apply (has a List.mem_cons_self)) fun b hb => has b (List.mem_cons_of_mem a hb)

/-- Without TTLs the readings of the clock may be any. -/
theorem StorageEngine.applyAll_ttlFree {σ : Type} {E : StorageEngine σ}
    (hknown : ∀ a ∈ as, a.command.Known) (has : ∀ a ∈ as, a.command.TtlFree)
    (hholds : ∀ a ∈ as, E.HoldsCommand a.command) :
    ∀ {s : σ} {m : Model} {t : ℤ}, E.Stands t s m → m.TtlFree →
      (∀ err ∈ (E.applyAll s as).2, err = none) ∧
        ∀ t', E.Stands t' (E.applyAll s as).1 (m.applyAll as) := by
  induction as with
  | nil =>
    intro s m t hs hm
    exact ⟨nofun, fun t' => E.stands_of_ttlFree hs hm⟩
  | cons a as ih =>
    intro s m t hs hm
    have ha := has a List.mem_cons_self
    obtain ⟨herr, hst⟩ := apply_spec (E.stands_of_ttlFree hs hm) (E.stands_of_ttlFree hs hm)
      (hknown a List.mem_cons_self) (hholds a List.mem_cons_self)
      fun _ => E.admits_of_storable (storableTtl_of_nonpos ha _)
    obtain ⟨herrs, hend⟩ := ih (fun b hb => hknown b (List.mem_cons_of_mem a hb))
      (fun b hb => has b (List.mem_cons_of_mem a hb))
      (fun b hb => hholds b (List.mem_cons_of_mem a hb)) hst (hm.apply ha)
    exact ⟨List.forall_mem_cons.mpr ⟨herr, herrs⟩, hend⟩

/-! ### The last command on a key -/

/-- The last of the commands on a key. -/
def lastOn (k : Key) (cs : List Command) : Option Command :=
  cs.reverse.find? fun c => toValid c.key = k

theorem lastOn_append (k : Key) (cs ds : List Command) :
    lastOn k (cs ++ ds) = (lastOn k ds).or (lastOn k cs) := by
  rw [lastOn, List.reverse_append, List.find?_append]
  rfl

theorem lastOn_concat (k : Key) (cs : List Command) (c : Command) :
    lastOn k (cs ++ [c]) = if toValid c.key = k then some c else lastOn k cs := by
  rw [lastOn_append]
  by_cases h : toValid c.key = k <;> simp [lastOn, h]

theorem mem_of_lastOn {cs : List Command} {c : Command} (h : lastOn k cs = some c) :
    c ∈ cs ∧ toValid c.key = k :=
  ⟨List.mem_reverse.mp (List.mem_of_find?_eq_some h), by simpa using List.find?_some h⟩

/-- What a command leaves at its key. -/
def Application.Leaves (a : Application) (e : Option Entry) : Prop :=
  if a.command.op = commandSet then
    ∃ version, e = some ⟨a.command.value, toValid a.command.consistency,
      expiryOf a.now a.command.ttl, false, version⟩
  else ∀ x, e = some x → ∀ t, a.now ≤ t → x.dead t = true

theorem Model.apply_of_ne (m : Model) {a : Application} (h : toValid a.command.key ≠ k) :
    (m.apply a).map k = m.map k := by
  unfold Model.apply Model.put Model.delete
  split
  · exact m.write_map_of_ne h.symm _
  · split
    · rfl
    · exact m.write_map_of_ne h.symm _

theorem Model.apply_leaves (m : Model) (a : Application) :
    a.Leaves ((m.apply a).map (toValid a.command.key)) := by
  unfold Application.Leaves Model.apply
  split
  · exact ⟨m.next, m.write_map_self _ _⟩
  · intro x hx t ht
    unfold Model.delete at hx
    split at hx
    · -- there was nothing to be seen, and there will not be
      next err hc =>
      rw [hx] at hc
      exact Entry.dead_mono _ _ x ht (dead_of_checked hc)
    · rw [Model.write_map_self] at hx
      cases hx
      rfl

theorem Model.applyAll_of_lastOn_none (m : Model) (h : lastOn k (as.map Application.command) = none)
    : (m.applyAll as).map k = m.map k := by
  induction as using List.reverseRecOn with
  | nil => rfl
  | append_singleton as a ih =>
    rw [List.map_append, List.map_singleton, lastOn_concat] at h
    split at h
    · cases h
    · next hne =>
      rw [Model.applyAll, List.foldl_append, List.foldl_cons, List.foldl_nil,
        Model.apply_of_ne _ hne]
      exact ih h

/-- **A key has what its last command left.** -/
theorem Model.applyAll_leaves (m : Model) {c : Command}
    (h : lastOn k (as.map Application.command) = some c) :
    ∃ a ∈ as, a.command = c ∧ a.Leaves ((m.applyAll as).map k) := by
  induction as using List.reverseRecOn with
  | nil => cases h
  | append_singleton as a ih =>
    rw [List.map_append, List.map_singleton, lastOn_concat] at h
    rw [Model.applyAll, List.foldl_append, List.foldl_cons, List.foldl_nil]
    split at h
    · next heq =>
      exact ⟨a, by simp, Option.some.inj h, heq ▸ Model.apply_leaves _ a⟩
    · next hne =>
      obtain ⟨b, hb, hc, hleaves⟩ := ih h
      exact ⟨b, by simp [hb], hc, by rw [Model.apply_of_ne _ hne]; exact hleaves⟩

end Storage
end BoilerPulse
