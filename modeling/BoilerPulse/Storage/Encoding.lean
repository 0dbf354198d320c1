import BoilerPulse.Framework.Base64
import BoilerPulse.Framework.Json
import BoilerPulse.Framework.Rfc3339
import BoilerPulse.Storage.StateMachine

/-!
# Storage: commands and snapshots as bytes

`EncodeCommand`, `DecodeCommand` (`command.go`) and the two ends of a snapshot
(`statemachine.go`), down to the JSON text: the members of each record in the order of its fields,
values as base64, instants in RFC 3339, empty fields left out where the field is tagged so. Reading
takes any text that `json.Unmarshal` takes: members in any order and letter case, repeated and
unknown ones.

`decodeCommand_encodeCommandBytes` and `decodeSnapshot_marshalSnapshotBytes` say that what comes
back is what `encodeCommand` and `marshalSnapshot` promise, so that the results about these hold of
the bytes. The keys are strings, and strings are made valid UTF-8 on the way: `keys_survive_iff`
says which keys come back, and `distinct_keys_collapse` that others can be taken for one another.
-/

namespace BoilerPulse
namespace Storage

open Framework Utf8
open Framework.Json (Value pieces render parse clean cleanMembers_eq_map cleanElements_eq_map
  parse_render toInt_int)

/-! ### The names of the fields -/

/-- `op`. -/
def opName : Bytes := [0x6F, 0x70]

/-- `key`. -/
def keyName : Bytes := [0x6B, 0x65, 0x79]

/-- `value`. -/
def valueName : Bytes := [0x76, 0x61, 0x6C, 0x75, 0x65]

/-- `consistency`. -/
def consistencyName : Bytes := [0x63, 0x6F, 0x6E, 0x73, 0x69, 0x73, 0x74, 0x65, 0x6E, 0x63, 0x79]

/-- `ttl_seconds`. -/
def ttlSecondsName : Bytes := [0x74, 0x74, 0x6C, 0x5F, 0x73, 0x65, 0x63, 0x6F, 0x6E, 0x64, 0x73]

/-- `expires_at`. -/
def expiresAtName : Bytes := [0x65, 0x78, 0x70, 0x69, 0x72, 0x65, 0x73, 0x5F, 0x61, 0x74]

/-- Letters that differ in case only: also the Kelvin sign and the long s. -/
def foldRune (r : Bytes) : Bytes :=
  if r = [0xE2, 0x84, 0xAA] then [0x6B]
  else if r = [0xC5, 0xBF] then [0x73]
  else r.map fun b => if 65 ≤ b ∧ b ≤ 90 then b + 32 else b

def foldName (s : Bytes) : Bytes :=
  (pieces runeLen s).flatMap foldRune

/-! ### Fields -/

/-- A string; `null` leaves the field as it is. -/
def decodeString (old : Bytes) : Value → Option Bytes
  | .null => some old
  | .str s => some s
  | _ => none

/-- An `int64`. -/
def decodeInt64 (old : ℤ) : Value → Option ℤ
  | .null => some old
  | v => v.toInt.filter fun i => -2 ^ 63 ≤ i ∧ i ≤ 2 ^ 63 - 1

/-- A byte. `ParseUint` knows no sign, so `-0` is none. -/
def decodeUint8 (old : UInt8) : Value → Option UInt8
  | .null => some old
  | .num n => ((Decimal.readNat n.val).filter (· ≤ 255)).map UInt8.ofNat
  | _ => none

/-- Bytes, as base64 or one by one. -/
def decodeBytes : Value → Option Bytes
  | .null => some []
  | .str s => Base64.decode s
  | .arr vs => vs.mapM (decodeUint8 0)
  | _ => none

/-- `time.Time{}`, which is no expiry. -/
def zeroInstant : ℤ := -62135596800 * 10 ^ 9

def decodeTime (old : Option ℤ) : Value → Option (Option ℤ)
  | .null => some old
  | .str s => (Rfc3339.parse s).map fun t => if t = zeroInstant then none else some t
  | _ => none

/-- A record: the members one after the other, from the zero value on. -/
def decodeStruct {σ : Type} (set : σ → Bytes × Value → Option σ) (zero : σ) : Value → Option σ
  | .null => some zero
  | .obj ms => ms.foldlM set zero
  | _ => none

theorem decodeInt64_int {i : ℤ} (h : FitsInt64 i) (old : ℤ) :
    decodeInt64 old (Value.int i) = some i := by
  have hi : -2 ^ 63 ≤ i ∧ i ≤ 2 ^ 63 - 1 := by
    unfold FitsInt64 at h
    omega
  show (Value.int i).toInt.filter (fun i => -2 ^ 63 ≤ i ∧ i ≤ 2 ^ 63 - 1) = some i
  rw [toInt_int, Option.filter_some, if_pos (decide_eq_true hi)]

theorem decodeUint8_int (old b : UInt8) : decodeUint8 old (Value.int b.toNat) = some b := by
  have hb : b.toNat ≤ 255 := Nat.le_of_lt_succ b.toNat_lt
  have htext : Decimal.intText b.toNat = Decimal.natText b.toNat :=
    if_neg (Int.natCast_nonneg b.toNat).not_gt
  show ((Decimal.readNat (Decimal.intText b.toNat)).filter (· ≤ 255)).map UInt8.ofNat = _
  rw [htext, Decimal.readNat_natText, Option.filter_some, if_pos (decide_eq_true hb),
    Option.map_some, UInt8.ofNat_toNat]

/-- Base64 passes through a string. -/
theorem toValid_encode (s : Bytes) : toValid (Base64.encode s) = Base64.encode s :=
  toValid_eq_self_iff.mpr (valid_of_ascii fun c hc => (Base64.isSymbol_of_mem_encode c hc).ascii)

theorem decodeBytes_encode (s : Bytes) : decodeBytes (clean (.str (Base64.encode s))) = some s := by
  rw [clean, toValid_encode, decodeBytes, Base64.decode_encode]

/-! ### Commands -/

/-- A field with the tag `omitempty`. -/
def omitEmpty (empty : Prop) [Decidable empty] (m : Bytes × Value) : List (Bytes × Value) :=
  if empty then [] else [m]

def Command.toJson (c : Command) : Value :=
  .obj ([(opName, .int c.op.toNat), (keyName, .str c.key)] ++
    omitEmpty (c.value = []) (valueName, .str (Base64.encode c.value)) ++
    omitEmpty (c.consistency = []) (consistencyName, .str c.consistency) ++
    omitEmpty (c.ttlSeconds = 0) (ttlSecondsName, .int c.ttlSeconds))

def Command.zero : Command :=
  ⟨0, [], [], [], 0⟩

def Command.set (c : Command) (m : Bytes × Value) : Option Command :=
  let name := foldName m.1
  if name = opName then
    (decodeUint8 c.op m.2).map fun op => { c with op := op }
  else if name = keyName then (decodeString c.key m.2).map fun s => { c with key := s }
  else if name = valueName then (decodeBytes m.2).map fun s => { c with value := s }
  else if name = consistencyName then
    (decodeString c.consistency m.2).map fun s => { c with consistency := s }
  else if name = ttlSecondsName then
    (decodeInt64 c.ttlSeconds m.2).map fun i => { c with ttlSeconds := i }
  -- other members are ignored
  else some c

/-- `EncodeCommand`. -/
def encodeCommandBytes (c : Command) : Bytes :=
  render c.toJson

def decodeCommand (data : Bytes) : Option Command :=
  match parse data with
  | none => none
  | some v => decodeStruct Command.set .zero v

/-! ### Snapshots -/

def SnapshotEntry.toJson (e : SnapshotEntry) : Value :=
  .obj [(keyName, .str e.key), (valueName, .str (Base64.encode e.value)),
    (consistencyName, .str e.consistency),
    (expiresAtName, .str (Rfc3339.format (e.expiresAt.getD zeroInstant)))]

def SnapshotEntry.zero : SnapshotEntry :=
  ⟨[], [], [], none⟩

def SnapshotEntry.set (e : SnapshotEntry) (m : Bytes × Value) : Option SnapshotEntry :=
  let name := foldName m.1
  if name = keyName then (decodeString e.key m.2).map fun s => { e with key := s }
  else if name = valueName then (decodeBytes m.2).map fun s => { e with value := s }
  else if name = consistencyName then
    (decodeString e.consistency m.2).map fun s => { e with consistency := s }
  else if name = expiresAtName then
    (decodeTime e.expiresAt m.2).map fun t => { e with expiresAt := t }
  else some e

/-- `json.Marshal` of the entries of a snapshot. -/
def marshalSnapshotBytes (es : List SnapshotEntry) : Except Error Bytes :=
  if es.all fun e => e.expiresAt.all writableInstant then
    .ok (render (.arr (es.map SnapshotEntry.toJson)))
  else .error (.failed ["encoding snapshot"])

/-- `json.Unmarshal` of a snapshot. -/
def decodeSnapshot (data : Bytes) : Option (List SnapshotEntry) :=
  match parse data with
  | some .null => some []
  | some (.arr vs) => vs.mapM (decodeStruct SnapshotEntry.set .zero)
  | _ => none

/-- `Snapshot`. -/
def StorageEngine.snapshotBytes {σ : Type} (E : StorageEngine σ) (s : σ) (now : ℤ) :
    Except Error Bytes :=
  let entries := E.scan s now []
  marshalSnapshotBytes ((sortedKeys entries).filterMap fun k =>
    (entries.lookup k).map fun e => ⟨k, e.value, e.consistency, e.expiresAt⟩)

/-! ### Commands, there and back -/

/-- A member as it is read. -/
def cleanMember (m : Bytes × Value) : Bytes × Value :=
  (toValid m.1, clean m.2)

namespace Command

variable (c : Command)

theorem set_op (op : UInt8) :
    c.set (cleanMember (opName, .int op.toNat)) = some { c with op := op } := by
  show (decodeUint8 c.op (Value.int op.toNat)).map _ = _
  rw [decodeUint8_int, Option.map_some]

theorem set_key (key : Key) :
    c.set (cleanMember (keyName, .str key)) = some { c with key := toValid key } := rfl

theorem set_value (value : Bytes) : c.set (cleanMember (valueName, .str (Base64.encode value)))
      = some { c with value := value } := by
  show (decodeBytes (clean (.str (Base64.encode value)))).map _ = _
  rw [decodeBytes_encode, Option.map_some]

theorem set_consistency (consistency : Bytes) :
    c.set (cleanMember (consistencyName, .str consistency)) =
      some { c with consistency := toValid consistency } := rfl

theorem set_ttlSeconds {ttl : ℤ} (h : FitsInt64 ttl) :
    c.set (cleanMember (ttlSecondsName, .int ttl)) = some { c with ttlSeconds := ttl } := by
  show (decodeInt64 c.ttlSeconds (Value.int ttl)).map _ = _
  rw [decodeInt64_int h, Option.map_some]

end Command

/-- A field that may have been left out. -/
theorem foldlM_omitEmpty {σ : Type} {set : σ → Bytes × Value → Option σ} {c c' : σ}
    (empty : Prop) [Decidable empty] {m : Bytes × Value} (hskip : empty → c = c')
    (hset : set c (cleanMember m) = some c') :
    ((omitEmpty empty m).map cleanMember).foldlM set c = some c' := by
  unfold omitEmpty
  split
  · next h => rw [hskip h]; rfl
  · simp [hset]

/-- **What `DecodeCommand` makes of the bytes.** The key and the consistency have become valid
UTF-8, and the rest is as it was. -/
theorem decodeCommand_encodeCommandBytes {c : Command} (h : FitsInt64 c.ttlSeconds) :
    decodeCommand (encodeCommandBytes c) = encodeCommand c := by
  have hhead : ([(opName, Value.int c.op.toNat), (keyName, .str c.key)].map
      cleanMember).foldlM Command.set .zero = some ⟨c.op, toValid c.key, [], [], 0⟩ := by
    simp only [List.map_cons, List.map_nil, List.foldlM_cons, List.foldlM_nil, Command.set_op,
      Command.set_key, Option.bind_eq_bind, Option.bind_some]
    rfl
  -- the last three fields are at their zero values if they were left out
  have hvalue := foldlM_omitEmpty (c.value = []) (fun h => by rw [h])
    (Command.set_value ⟨c.op, toValid c.key, [], [], 0⟩ c.value)
  have hconsistency := foldlM_omitEmpty (c.consistency = []) (fun h => by rw [h]; rfl)
    (Command.set_consistency ⟨c.op, toValid c.key, c.value, [], 0⟩ c.consistency)
  have httl := foldlM_omitEmpty (c.ttlSeconds = 0) (fun h => by rw [h])
    (Command.set_ttlSeconds ⟨c.op, toValid c.key, c.value, toValid c.consistency, 0⟩ h)
  rw [decodeCommand, encodeCommandBytes, parse_render]
  show decodeStruct Command.set .zero (clean c.toJson) = encodeCommand c
  rw [Command.toJson, clean, cleanMembers_eq_map]
  show (List.map cleanMember _).foldlM Command.set .zero = encodeCommand c
  simp only [List.map_append, List.foldlM_append, hhead, hvalue, hconsistency, httl,
    Option.bind_eq_bind, Option.bind_some]
  rfl

/-! ### Snapshots, there and back -/

theorem writableInstant_iff {t : ℤ} : writableInstant t = true ↔ Rfc3339.InRange t := by
  simp [writableInstant, Rfc3339.InRange, Rfc3339.nanosPerSecond]

theorem toValid_format (t : ℤ) : toValid (Rfc3339.format t) = Rfc3339.format t :=
  toValid_eq_self_iff.mpr (valid_of_ascii (Rfc3339.ascii_format t))

/-- An entry as it comes back. -/
def SnapshotEntry.decoded (e : SnapshotEntry) : SnapshotEntry :=
  ⟨toValid e.key, e.value, toValid e.consistency, e.expiresAt.filter (· ≠ zeroInstant)⟩

theorem decodeTime_format {expiresAt : Option ℤ} (h : expiresAt.all writableInstant = true)
    (old : Option ℤ) :
    decodeTime old (clean (.str (Rfc3339.format (expiresAt.getD zeroInstant)))) =
      some (expiresAt.filter (· ≠ zeroInstant)) := by
  have hrange : Rfc3339.InRange (expiresAt.getD zeroInstant) := by
    cases expiresAt with
    | none => decide
    | some t => exact writableInstant_iff.mp h
  rw [clean, toValid_format, decodeTime, Rfc3339.parse_format hrange, Option.map_some]
  cases expiresAt with
  | none => rfl
  | some t => by_cases ht : t = zeroInstant <;> simp [ht, Option.filter]

namespace SnapshotEntry

variable (e : SnapshotEntry)

theorem set_key (key : Key) :
    e.set (cleanMember (keyName, .str key)) = some { e with key := toValid key } := rfl

theorem set_value (value : Bytes) : e.set (cleanMember (valueName, .str (Base64.encode value)))
      = some { e with value := value } := by
  show (decodeBytes (clean (.str (Base64.encode value)))).map _ = _
  rw [decodeBytes_encode, Option.map_some]

theorem set_consistency (consistency : Bytes) :
    e.set (cleanMember (consistencyName, .str consistency)) =
      some { e with consistency := toValid consistency } := rfl

theorem set_expiresAt {expiresAt : Option ℤ} (h : expiresAt.all writableInstant = true) :
    e.set (cleanMember (expiresAtName, .str (Rfc3339.format (expiresAt.getD zeroInstant)))) =
      some { e with expiresAt := expiresAt.filter (· ≠ zeroInstant) } := by
  show (decodeTime e.expiresAt (clean (.str (Rfc3339.format _)))).map _ = _
  rw [decodeTime_format h, Option.map_some]

theorem decode_toJson {e : SnapshotEntry} (h : e.expiresAt.all writableInstant = true) :
    decodeStruct SnapshotEntry.set .zero (clean e.toJson) = some e.decoded := by
  rw [toJson, clean, cleanMembers_eq_map]
  show (List.map cleanMember _).foldlM SnapshotEntry.set .zero = _
  simp only [List.map_cons, List.map_nil, List.foldlM_cons, List.foldlM_nil, set_key, set_value,
    set_consistency, set_expiresAt _ h, Option.bind_eq_bind, Option.bind_some]
  rfl

end SnapshotEntry

/-- What `Restore` reads in the bytes of a snapshot. -/
theorem decodeSnapshot_of_marshal {es : List SnapshotEntry} {data : Bytes}
    (h : marshalSnapshotBytes es = .ok data) :
    decodeSnapshot data = some (es.map SnapshotEntry.decoded) := by
  rw [marshalSnapshotBytes] at h
  split at h
  · next hall =>
    rw [List.all_eq_true] at hall
    have hentries : ((es.map SnapshotEntry.toJson).map clean).mapM
        (decodeStruct SnapshotEntry.set .zero) = some (es.map SnapshotEntry.decoded) := by
      clear h
      induction es with
      | nil => rfl
      | cons e es ih =>
        rw [List.map_cons, List.map_cons, List.mapM_cons,
          SnapshotEntry.decode_toJson (hall e (by simp)),
          ih fun x hx => hall x (List.mem_cons_of_mem e hx)]
        rfl
    rw [← Except.ok.inj h, decodeSnapshot, parse_render, clean, cleanElements_eq_map]
    exact hentries
  · cases h

/-- **What comes back from a snapshot.** Keys and consistencies have become valid UTF-8, and the
rest is as it was. -/
theorem decodeSnapshot_marshalSnapshotBytes {es : List SnapshotEntry}
    (hzero : ∀ e ∈ es, e.expiresAt ≠ some zeroInstant) :
    (marshalSnapshotBytes es).map decodeSnapshot = marshalSnapshot es := by
  cases h : marshalSnapshotBytes es with
  | error err =>
    rw [marshalSnapshotBytes] at h
    split at h
    · cases h
    · next hall =>
      rw [marshalSnapshot, if_neg hall, ← Except.error.inj h]
      rfl
  | ok data =>
    have hdecode := decodeSnapshot_of_marshal h
    rw [marshalSnapshotBytes] at h
    split at h
    · next hall =>
      rw [marshalSnapshot, if_pos hall]
      show Except.ok (decodeSnapshot data) = _
      rw [hdecode]
      congr 2
      refine List.map_congr_left fun e he => ?_
      -- the zero time would come back as no expiry at all
      have hexp : e.expiresAt.filter (· ≠ zeroInstant) = e.expiresAt := by
        cases ht : e.expiresAt with
        | none => rfl
        | some t =>
          have hne : t ≠ zeroInstant := fun h => hzero e he (ht.trans (congrArg some h))
          simp [Option.filter, hne]
      rw [SnapshotEntry.decoded, hexp]
    · cases h

namespace StorageEngine

variable {σ : Type} (E : StorageEngine σ) (s : σ) (now : ℤ)

/-- `Snapshot` is known by what `Restore` reads, as long as nothing expires at the zero instant. -/
theorem snapshot_eq_map_decodeSnapshot
    (hzero : ∀ k e, (E.scan s now []).lookup k = some e → e.expiresAt ≠ some zeroInstant) :
    E.snapshot s now = (E.snapshotBytes s now).map decodeSnapshot := by
  refine (decodeSnapshot_marshalSnapshotBytes fun e he => ?_).symm
  obtain ⟨k, -, hk⟩ := List.mem_filterMap.mp he
  obtain ⟨x, hx, rfl⟩ := Option.map_eq_some_iff.mp hk
  exact hzero k x hx

/-- The keys that come back from a snapshot. -/
theorem keys_decodeSnapshot {data : Bytes} (h : E.snapshotBytes s now = .ok data) :
    ∃ es, decodeSnapshot data = some es ∧
      es.map SnapshotEntry.key = (sortedKeys (E.scan s now [])).map toValid := by
  refine ⟨_, decodeSnapshot_of_marshal h, ?_⟩
  rw [List.map_map, List.map_filterMap, ← List.filterMap_eq_map]
  refine List.filterMap_congr fun k hk => ?_
  obtain ⟨e, he⟩ := Finmap.mem_iff.mp ((mem_sortedKeys _ k).mp hk)
  rw [he]
  rfl

end StorageEngine

theorem map_toValid_eq_self_iff {ks : List Key} :
    ks.map toValid = ks ↔ ∀ k ∈ ks, valid k = true := by
  calc ks.map toValid = ks ↔ ks.map toValid = ks.map id := by rw [List.map_id]
    _ ↔ ∀ k ∈ ks, toValid k = k := List.map_inj_left
    _ ↔ ∀ k ∈ ks, valid k = true := forall₂_congr fun k _ => toValid_eq_self_iff

/-- **The keys that survive are the valid ones.** A command comes back from its bytes exactly if its
key and its consistency are UTF-8, a snapshot has the keys of the engine exactly if they all are,
and among such keys different ones stay different. -/
theorem keys_survive_iff {σ : Type} (E : StorageEngine σ) : (∀ c : Command, FitsInt64 c.ttlSeconds →
      (decodeCommand (encodeCommandBytes c) = some c ↔
        valid c.key = true ∧ valid c.consistency = true)) ∧
    (∀ c c' : Command, FitsInt64 c.ttlSeconds → FitsInt64 c'.ttlSeconds →
      valid c.key = true → valid c'.key = true → c.key ≠ c'.key →
      (decodeCommand (encodeCommandBytes c)).map Command.key ≠
        (decodeCommand (encodeCommandBytes c')).map Command.key) ∧
    ∀ (s : σ) (now : ℤ) (data : Bytes), E.snapshotBytes s now = .ok data →
      ∃ es, decodeSnapshot data = some es ∧
        (es.map SnapshotEntry.key = sortedKeys (E.scan s now []) ↔
          ∀ k ∈ E.scan s now [], valid k = true) ∧
        ((∀ k ∈ E.scan s now [], valid k = true) → (es.map SnapshotEntry.key).Nodup) := by
  refine ⟨fun c hc => ?_, fun c c' hc hc' hk hk' hne => ?_, fun s now data h => ?_⟩
  · rw [decodeCommand_encodeCommandBytes hc, encodeCommand, ← toValid_eq_self_iff,
      ← toValid_eq_self_iff, Option.some.injEq]
    constructor
    · intro heq
      exact ⟨congrArg Command.key heq, congrArg Command.consistency heq⟩
    · rintro ⟨hkey, hconsistency⟩
      rw [hkey, hconsistency]
  · rw [decodeCommand_encodeCommandBytes hc, decodeCommand_encodeCommandBytes hc']
    -- among valid keys nothing is replaced
    intro heq
    have hkeys : toValid c.key = toValid c'.key := Option.some.inj heq
    rw [toValid_eq_self_iff.mpr hk, toValid_eq_self_iff.mpr hk'] at hkeys
    exact hne hkeys
  · obtain ⟨es, hes, hkeys⟩ := E.keys_decodeSnapshot s now h
    have hiff : es.map SnapshotEntry.key = sortedKeys (E.scan s now []) ↔
        ∀ k ∈ E.scan s now [], valid k = true := by
      rw [hkeys, map_toValid_eq_self_iff]
      simp only [mem_sortedKeys]
    exact ⟨es, hes, hiff, fun hvalid => hiff.mpr hvalid ▸ nodup_sortedKeys _⟩

/-- A command that sets a key. -/
def setting (key : Key) : Command :=
  ⟨commandSet, key, [1, 2], [], 60⟩

/-- A store with the given keys. -/
def storeWith (keys : List Key) : MemStore :=
  keys.foldl (fun m k => m.put 0 k [1] [] 0) MemStore.new

/-- A key that is not UTF-8 goes through the bytes as the level above says. -/
theorem snapshot_eq_map_of_invalid_key : memStore.snapshot (storeWith [[97], [0xFF]]) 0 =
      (memStore.snapshotBytes (storeWith [[97], [0xFF]]) 0).map decodeSnapshot := by
  refine memStore.snapshot_eq_map_decodeSnapshot _ _ fun k e he => ?_
  have hview : live Entry.dead 0 (layerOf (storeWith [[97], [0xFF]]).entries) k = some e :=
    (MemStore.lookup_scan (storeWith [[97], [0xFF]]) 0 [] k).symm.trans he
  have hmem := AList.mem_lookup_iff.mp ((live_eq_some Entry.dead).mp hview).1
  have hnone : ∀ x ∈ (storeWith [[97], [0xFF]]).entries.entries, x.2.expiresAt = none := by decide
  rw [hnone _ hmem]
  simp

/-- Two keys that are UTF-8. -/
theorem keys_survive_ascii :
    decodeCommand (encodeCommandBytes (setting [97])) = some (setting [97]) ∧
      ∃ data es, memStore.snapshotBytes (storeWith [[97], [98]]) 0 = .ok data ∧
        decodeSnapshot data = some es ∧ es.map SnapshotEntry.key = [[97], [98]] := by
  obtain ⟨hcommand, -, hsnapshot⟩ := keys_survive_iff memStore
  obtain ⟨data, hdata⟩ : ∃ data, memStore.snapshotBytes (storeWith [[97], [98]]) 0 = .ok data :=
    ⟨_, rfl⟩
  have hsorted : sortedKeys (memStore.scan (storeWith [[97], [98]]) 0 []) = [[97], [98]] := by
    decide +kernel
  obtain ⟨es, hes, hkeys, -⟩ := hsnapshot _ _ _ hdata
  refine ⟨(hcommand _ (by decide)).mpr (by decide), data, es, hdata, hes, ?_⟩
  rw [hkeys.mpr, hsorted]
  intro k hk
  rw [← mem_sortedKeys, hsorted] at hk
  revert k
  decide

/-- **Different keys can become one.** Neither of the bytes `FF` and `FE` is UTF-8: both commands
set the key that is the encoding of U+FFFD, and a snapshot of a store that has both keys has this
one twice. -/
theorem distinct_keys_collapse :
    (decodeCommand (encodeCommandBytes (setting [0xFF]))).map Command.key
        = some [0xEF, 0xBF, 0xBD] ∧
      (decodeCommand (encodeCommandBytes (setting [0xFE]))).map Command.key
        = some [0xEF, 0xBF, 0xBD] ∧
      sortedKeys (memStore.scan (storeWith [[0xFF], [0xFE]]) 0 []) = [[0xFE], [0xFF]] ∧
      ∃ data es, memStore.snapshotBytes (storeWith [[0xFF], [0xFE]]) 0 = .ok data ∧
        decodeSnapshot data = some es ∧
        es.map SnapshotEntry.key = [[0xEF, 0xBF, 0xBD], [0xEF, 0xBF, 0xBD]] := by
  refine ⟨by decide +kernel, by decide +kernel, by decide +kernel, ?_⟩
  obtain ⟨data, hdata⟩ : ∃ data, memStore.snapshotBytes (storeWith [[0xFF], [0xFE]]) 0 = .ok data :=
    ⟨_, rfl⟩
  obtain ⟨es, hes, hkeys⟩ := memStore.keys_decodeSnapshot _ _ hdata
  refine ⟨data, es, hdata, hes, ?_⟩
  rw [hkeys]
  decide +kernel

end Storage
end BoilerPulse
