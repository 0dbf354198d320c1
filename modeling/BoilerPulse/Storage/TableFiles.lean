import BoilerPulse.Storage.SSTable

/-!
# Storage: table files, as written and damaged

`WriteSorted` and `Open` are each other's inverse (`table_round_trip`). This module is mostly about
the files that `WriteSorted` did not write. `Open`, `Get` and `Iterate` take lengths and offsets
from the file and check few of them, so which bytes they are given decides whether they end with a
result, with an error or not at all. `WellMade` collects what they take for granted, all of it about
the bytes of the footer, of the index and of the data block:

* the index that the footer announces can be allocated;
* if the file has it (`Readable`), there is memory for a map of as many keys as the footer counts,
  which `Open` makes before it has seen one of them;
* the index consists of whole entries, since the loop of `Open` slices without looking at what is
  left, and the offset of a key does not lie so far below that of the index that their distance
  overflows, which `io.SectionReader` answers with a slice expression out of range;
* as many entries as the footer counts can be allocated by `Iterate`;
* the data block does not end between two fields of an entry, where `io.ReadFull` reports the same
  `io.EOF` that ends a table.

A file on which nothing panics and on which `Iterate` reports every entry that is cut off is exactly
one of these (`safe_iff_wellMade`), whatever the memory is. The way from the bytes to the open table
and back is `openWithin_eq_ok` and `openWithin_of_readable`. What `WriteSorted` writes always is well
made (`wellMade_tableBytes`).
-/

namespace BoilerPulse
namespace Storage

variable {es : Table}

open Framework

/-! ### Round trip -/

/-- With ascending keys there is one entry for each key. -/
theorem tableGet_of_mem (hasc : es.Pairwise fun a b => a.key < b.key) {e : TableEntry} (he : e ∈ es)
    : tableGet es e.key = some e := by
  have hrev : es.reverse.Pairwise fun a b => b.key < a.key := List.pairwise_reverse.mpr hasc
  have hmem : e ∈ es.reverse := List.mem_reverse.mpr he
  unfold tableGet
  generalize es.reverse = l at hrev hmem
  induction l with
  | nil => cases hmem
  | cons x l ih =>
    obtain ⟨hx, hl⟩ := List.pairwise_cons.mp hrev
    rcases List.mem_cons.mp hmem with rfl | hmem
    · rw [List.find?_cons_of_pos (by simp)]
    · have hne : x.key ≠ e.key := by
        intro heq
        exact List.lt_irrefl e.key (heq ▸ hx e hmem)
      rw [List.find?_cons_of_neg (by simpa using hne)]
      exact ih hl hmem

theorem tableGet_of_forall_ne {k : Key} (h : ∀ e ∈ es, e.key ≠ k) :
    tableGet es k = none := by
  unfold tableGet
  rw [List.find?_eq_none]
  intro e he
  simpa using h e (List.mem_reverse.mp he)

/-- **Round trip.** A table with ascending keys is written, opened and read back: `Iterate` returns
its entries in their order, `Get` the entry of each key and nothing for any other, so that the
two agree. -/
theorem table_round_trip {es : Table} (hasc : es.Pairwise fun a b => a.key < b.key)
    (hfits : ∀ e ∈ es, e.Fits) (hsize : (tableBytes es).length < 2 ^ 63) :
    ∃ file t, writeSorted es = some file ∧ openTable file = .ok t ∧ t.iterate = .ok es ∧
      (∀ e ∈ es, t.get e.key = .ok (some e)) ∧
      (∀ k, (∀ e ∈ es, e.key ≠ k) → t.get k = .ok none) ∧
      ∀ k e, t.get k = .ok (some e) ↔ ∃ l, t.iterate = .ok l ∧ e ∈ l ∧ e.key = k := by
  have hwrite : writeSorted es = some (tableBytes es) := if_pos hsize
  obtain ⟨t, hopen, hget, hiter⟩ := openTable_writeSorted hfits hwrite
  refine ⟨tableBytes es, t, hwrite, hopen, hiter, fun e he => ?_, fun k hk => ?_, fun k e => ?_⟩
  · rw [hget, tableGet_of_mem hasc he]
  · rw [hget, tableGet_of_forall_ne hk]
  · rw [hget, hiter]
    constructor
    · intro h
      have hfound : tableGet es k = some e := Except.ok.inj h
      exact ⟨es, rfl, List.mem_reverse.mp (List.mem_of_find?_eq_some hfound),
        key_of_tableGet hfound⟩
    · rintro ⟨l, hl, he, rfl⟩
      obtain rfl := Except.ok.inj hl
      rw [tableGet_of_mem hasc he]

/-- Three entries: a value, one with an expiry, and a tombstone. -/
theorem table_round_trip_of_three : ∃ file t,
    writeSorted [⟨[97], [49], [69], 0, false, 1⟩, ⟨[98], [50], [83], 12345, false, 2⟩,
      ⟨[99], [], [], 0, true, 3⟩] = some file ∧ openTable file = .ok t ∧
    t.get [98] = .ok (some ⟨[98], [50], [83], 12345, false, 2⟩) ∧ t.get [100] = .ok none := by
  have hfits : ∀ e ∈ ([⟨[97], [49], [69], 0, false, 1⟩, ⟨[98], [50], [83], 12345, false, 2⟩,
      ⟨[99], [], [], 0, true, 3⟩] : Table), e.Fits := by
    simp only [List.forall_mem_cons, List.not_mem_nil, false_implies, implies_true, and_true]
    exact ⟨⟨by decide, by decide, by decide, by decide, by decide⟩,
      ⟨by decide, by decide, by decide, by decide, by decide⟩,
      ⟨by decide, by decide, by decide, by decide, by decide⟩⟩
  obtain ⟨file, t, hwrite, hopen, -, hget, hnone, -⟩ :=
    table_round_trip (by decide) hfits (by decide +kernel)
  exact ⟨file, t, hwrite, hopen, hget ⟨[98], [50], [83], 12345, false, 2⟩ (by simp),
    hnone [100] (by simp)⟩

/-! ### Entries as they stand in a file -/

/-- The fields of an entry as they stand in a file, where any byte may be the tombstone. -/
structure EntryFields where
  key : Bytes
  tomb : ℕ
  consistency : Bytes
  expiresAt : ℕ
  version : ℕ
  value : Bytes
  key_lt : key.length < 2 ^ 16
  tomb_lt : tomb < 2 ^ 8
  consistency_lt : consistency.length < 2 ^ 8
  expiresAt_lt : expiresAt < 2 ^ 64
  version_lt : version < 2 ^ 64
  value_lt : value.length < 2 ^ 32

namespace EntryFields

def bytes (x : EntryFields) : Bytes :=
  bigEndian 2 x.key.length ++ (x.key ++ (bigEndian 1 x.tomb ++
    (bigEndian 1 x.consistency.length ++ (x.consistency ++ (bigEndian 8 x.expiresAt ++
      (bigEndian 8 x.version ++ (bigEndian 4 x.value.length ++ x.value)))))))

/-- The entry that the fields are read as. -/
def entry (x : EntryFields) : TableEntry :=
  ⟨x.key, x.value, x.consistency, wrap64 x.expiresAt, x.tomb = 1, x.version⟩

/-- The lengths of the fields, in their order. -/
def lengths (x : EntryFields) : List ℕ :=
  [2, x.key.length, 1, 1, x.consistency.length, 8, 8, 4, x.value.length]

theorem length_bytes (x : EntryFields) : x.bytes.length = x.lengths.sum := by
  simp only [bytes, lengths, List.length_append, length_bigEndian, List.sum_cons, List.sum_nil]
  rfl

end EntryFields

theorem decodeEntry_bytes (x : EntryFields) (rest : Bytes) :
    decodeEntry (x.bytes ++ rest) = .ok (x.entry, rest) := by
  have hkey : x.key.length < 256 ^ 2 := x.key_lt
  have htomb : x.tomb < 256 ^ 1 := x.tomb_lt
  have hcons : x.consistency.length < 256 ^ 1 := x.consistency_lt
  have hexp : x.expiresAt < 256 ^ 8 := x.expiresAt_lt
  have hver : x.version < 256 ^ 8 := x.version_lt
  have hval : x.value.length < 256 ^ 4 := x.value_lt
  unfold decodeEntry EntryFields.bytes
  simp only [List.append_assoc]
  simp only [readNumber_append hkey, readNumber_append htomb, readNumber_append hcons,
    readNumber_append hexp, readNumber_append hver, readNumber_append hval, readBytes_append rfl,
    bind, Except.bind, pure, Except.pure]
  rfl

/-! ### Entries that are cut off -/

/-- What a read reports if `n` of its bytes are there, and not all. -/
def cutError (n : ℕ) : ReadError :=
  if n = 0 then .eof else .unexpectedEOF

section Cut

variable {α : Type} {k n v : ℕ} {a b : Bytes}

/-- A field is read from a file that is cut off: it is cut itself, or the cut is further on. -/
theorem readBytes_take (ha : a.length = k) : readBytes k ((a ++ b).take n) =
      if n < k then .error (cutError n) else .ok (a, b.take (n - k)) := by
  split_ifs with hn
  · have hlen : ((a ++ b).take n).length = n := by
      rw [List.length_take, List.length_append]
      omega
    have hnil : (a ++ b).take n = [] ↔ n = 0 := by
      rw [← List.length_eq_zero_iff, hlen]
    rw [readBytes, readFull_short (by omega)]
    simp only [hnil, cutError]
  · rw [List.take_append, List.take_of_length_le (by omega), ha, readBytes_append ha]

/-- The last field of all. -/
theorem readBytes_take_self (a : Bytes) : readBytes a.length (a.take n) =
      if n < a.length then .error (cutError n) else .ok (a, []) := by
  have h := readBytes_take (n := n) (a := a) (b := []) rfl
  rwa [List.append_nil, List.take_nil] at h

theorem readNumber_take (hv : v < 256 ^ k) : readNumber k ((bigEndian k v ++ b).take n) =
      if n < k then .error (cutError n) else .ok (v, b.take (n - k)) := by
  rw [readNumber, readBytes_take (length_bigEndian k v)]
  split_ifs
  · rfl
  · rw [Except.map, ofBigEndian_bigEndian hv]

/-- Go on with a field that may be cut. -/
theorem bind_cut (c : Prop) [Decidable c] (err : ReadError) (x : α) {β : Type}
    (f : α → Except ReadError β) :
    ((if c then .error err else .ok x) >>= f) = if c then .error err else f x := by
  split_ifs <;> rfl

end Cut

/-- Read fields of the given lengths from `n` bytes, and go on with `r` if they are all there. -/
def cutThen {α : Type} (r : Except ReadError α) : List ℕ → ℕ → Except ReadError α
  | [], _ => r
  | k :: ks, n => if n < k then .error (cutError n) else cutThen r ks (n - k)

/-- Where fields of the given lengths start. -/
def fieldStarts : List ℕ → List ℕ
  | [] => []
  | k :: ks => 0 :: (fieldStarts ks).map (k + ·)

theorem mem_fieldStarts_cons {k n : ℕ} {ks : List ℕ} :
    n ∈ fieldStarts (k :: ks) ↔ n = 0 ∨ ∃ m ∈ fieldStarts ks, k + m = n := by
  rw [fieldStarts, List.mem_cons, List.mem_map]

/-- Behind the first field. If that one is empty, the next one starts at `0` as well. -/
theorem mem_fieldStarts_sub {k n : ℕ} {ks : List ℕ} (hk : k ≤ n) (hn : n < k + ks.sum) :
    n ∈ fieldStarts (k :: ks) ↔ n - k ∈ fieldStarts ks := by
  rw [mem_fieldStarts_cons]
  constructor
  · rintro (rfl | ⟨m, hm, rfl⟩)
    · cases ks with
      | nil => exact absurd hn (by rw [List.sum_nil]; omega)
      | cons k' ks =>
        rw [Nat.zero_sub]
        exact List.mem_cons_self
    · rwa [Nat.add_sub_cancel_left]
  · intro hm
    exact .inr ⟨n - k, hm, by omega⟩

/-- The reader cannot tell a cut in front of a field from the end of the file. -/
theorem cutThen_eq {α : Type} (r : Except ReadError α) (ks : List ℕ) : ∀ {n : ℕ}, n < ks.sum →
    cutThen r ks n = .error (if n ∈ fieldStarts ks then .eof else .unexpectedEOF) := by
  induction ks with
  | nil => intro n hn; exact absurd hn (Nat.not_lt_zero n)
  | cons k ks ih =>
    intro n hn
    rw [List.sum_cons] at hn
    rw [cutThen]
    by_cases hk : n < k
    · -- the cut is in this field
      have hstart : n ∈ fieldStarts (k :: ks) ↔ n = 0 := by
        rw [mem_fieldStarts_cons]
        exact or_iff_left fun ⟨m, _, hm⟩ => by omega
      simp only [if_pos hk, cutError, hstart]
    · simp only [if_neg hk, mem_fieldStarts_sub (not_lt.mp hk) hn]
      exact ih (by omega)

/-- **An entry that is cut off.** If the cut is at the start of a field, the reader reports the end
of the file, and otherwise that the end was unexpected. -/
theorem decodeEntry_take (x : EntryFields) {n : ℕ} (hn : n < x.bytes.length) :
    decodeEntry (x.bytes.take n) =
      .error (if n ∈ fieldStarts x.lengths then .eof else .unexpectedEOF) := by
  have hkey : x.key.length < 256 ^ 2 := x.key_lt
  have htomb : x.tomb < 256 ^ 1 := x.tomb_lt
  have hcons : x.consistency.length < 256 ^ 1 := x.consistency_lt
  have hexp : x.expiresAt < 256 ^ 8 := x.expiresAt_lt
  have hver : x.version < 256 ^ 8 := x.version_lt
  have hval : x.value.length < 256 ^ 4 := x.value_lt
  -- the lengths that are read are those that were written, as far as there is something to read
  have hfields : decodeEntry (x.bytes.take n) = cutThen (.ok (x.entry, [])) x.lengths n := by
    unfold decodeEntry EntryFields.bytes
    simp only [readNumber_take hkey, readNumber_take htomb, readNumber_take hcons,
      readNumber_take hexp, readNumber_take hver, readNumber_take hval, readBytes_take rfl,
      readBytes_take_self, bind_cut]
    rfl
  rw [hfields, cutThen_eq _ _ (x.length_bytes ▸ hn)]

/-! ### `Iterate` -/

/-- The bytes in front of the index; a negative offset makes them the whole file. -/
def dataBlock (file : Bytes) (indexOffset : ℤ) : Bytes :=
  file.take (sectionLimit 0 indexOffset).toNat

namespace OpenTable

/-- A section from the start of the file on: a negative length makes it the whole file. -/
theorem readSection_zero (file : Bytes) {n : ℤ} (hn : FitsInt64 n) :
    readSection file 0 n = .ok (dataBlock file n) := by
  have hlimit : 0 ≤ sectionLimit 0 n ∧ FitsInt64 (sectionLimit 0 n) := by
    unfold FitsInt64 at hn
    unfold sectionLimit
    split_ifs with hroom
    · rw [wrap64, Int.bmod_def, maxInt64] at hroom
      rw [Int.add_zero, wrap64_of_fits hn]
      exact ⟨by omega, hn⟩
    · exact ⟨by decide, by decide⟩
  rw [readSection, dataBlock, Int.sub_zero, wrap64_of_fits hlimit.2]
  by_cases hzero : sectionLimit 0 n = 0
  · rw [hzero, if_pos le_rfl]
    rfl
  · rw [if_neg (by omega), if_neg (by omega), if_neg (by omega)]
    rfl

theorem iterateWithin_eq (mem : Memory) {t : OpenTable} (ht : FitsInt64 t.indexOffset) :
    t.iterateWithin mem = if ¬ CanMake mem entryBytes t.count then .error .panic
      else iterateFrom ((dataBlock t.file t.indexOffset).length + 1)
        (dataBlock t.file t.indexOffset) := by
  rw [iterateWithin, readSection_zero t.file ht]
  rfl

/-- **Whole entries, and then what cannot be decoded.** The end of the file ends the loop wherever
it is reported. -/
theorem iterateFrom_of_error {tail : Bytes} {err : ReadError}
    (htail : decodeEntry tail = .error err) (xs : List EntryFields) : ∀ {fuel : ℕ},
    xs.length < fuel → iterateFrom fuel (xs.flatMap EntryFields.bytes ++ tail) =
      if err = .eof then .ok (xs.map EntryFields.entry) else .error err := by
  induction xs with
  | nil =>
    intro fuel hf
    obtain ⟨fuel, rfl⟩ := Nat.exists_eq_succ_of_ne_zero (Nat.ne_of_gt hf)
    rw [List.flatMap_nil, List.nil_append, iterateFrom, htail]
    cases err <;> rfl
  | cons x xs ih =>
    intro fuel hf
    obtain ⟨fuel, rfl⟩ := Nat.exists_eq_succ_of_ne_zero (Nat.ne_of_gt (Nat.zero_lt_of_lt hf))
    rw [List.flatMap_cons, List.append_assoc, iterateFrom, decodeEntry_bytes]
    dsimp only
    rw [ih (Nat.lt_of_succ_lt_succ hf)]
    split_ifs <;> rfl

end OpenTable

/-! ### What may panic -/

/-- No panic is among the results. -/
def Calm {α : Type} (r : Except ReadError α) : Prop :=
  r ≠ .error .panic

section Calm

variable {α β : Type}

theorem Calm.bind {r : Except ReadError α} {f : α → Except ReadError β} (hr : Calm r)
    (hf : ∀ a, Calm (f a)) : Calm (r >>= f) := by
  cases r with
  | error err => exact fun h => hr (congrArg Except.error (Except.error.inj h))
  | ok a => exact hf a

theorem calm_ok (a : α) : Calm (.ok a) :=
  nofun

theorem calm_readBytes (k : ℕ) (bs : Bytes) : Calm (readBytes k bs) := by
  unfold readBytes
  split
  · exact calm_ok _
  · split <;> exact nofun

theorem calm_readNumber (k : ℕ) (bs : Bytes) : Calm (readNumber k bs) :=
  (calm_readBytes k bs).bind fun _ => calm_ok _

/-- Decoding only ever runs out of bytes. -/
theorem calm_decodeEntry (bs : Bytes) : Calm (decodeEntry bs) := by
  unfold decodeEntry
  refine (calm_readNumber 2 bs).bind fun keyLen => ?_
  refine (calm_readBytes _ _).bind fun key => ?_
  refine (calm_readNumber 1 _).bind fun tomb => ?_
  refine (calm_readNumber 1 _).bind fun consLen => ?_
  refine (calm_readBytes _ _).bind fun cons => ?_
  refine (calm_readNumber 8 _).bind fun expiresAt => ?_
  refine (calm_readNumber 8 _).bind fun version => ?_
  refine (calm_readNumber 4 _).bind fun valueLen => ?_
  exact (calm_readBytes _ _).bind fun value => calm_ok _

theorem calm_iterateFrom (fuel : ℕ) : ∀ bs : Bytes, Calm (OpenTable.iterateFrom fuel bs) := by
  induction fuel with
  | zero => exact fun bs => calm_ok _
  | succ fuel ih =>
    intro bs
    unfold OpenTable.iterateFrom
    split
    · exact calm_ok _
    · next err _ herr => exact fun h => calm_decodeEntry bs (Except.error.inj h ▸ herr)
    · next e rest _ => exact (ih rest).bind fun _ => calm_ok _

end Calm

/-- A section that is meant to end at `limit` panics exactly if the distance overflows. -/
theorem readSection_panic_iff (file : Bytes) {off limit : ℤ} (hoff : FitsInt64 off)
    (hlimit : FitsInt64 limit) (hpos : 0 ≤ limit) :
    readSection file off (wrap64 (limit - off)) = .error .panic ↔ 2 ^ 63 ≤ limit - off := by
  unfold FitsInt64 at hoff hlimit
  constructor
  · intro h
    by_contra hlt
    -- without an overflow the length is the distance
    have hlen : wrap64 (limit - off) = limit - off := wrap64_of_fits ⟨by omega, by omega⟩
    rw [hlen, readSection] at h
    split_ifs at h with hend hroom
    · -- neither limit lets the room overflow
      revert hroom
      unfold sectionLimit wrap64 maxInt64
      rw [Int.bmod_def, Int.bmod_def, Int.bmod_def]
      split_ifs <;> omega
    · cases h
  · intro hle
    -- the length is negative, but with the offset it adds up to the limit again
    have hlen : wrap64 (limit - off) = limit - off - 2 ^ 64 := by
      rw [wrap64, Int.bmod_def]
      omega
    have hend : sectionLimit off (limit - off - 2 ^ 64) = limit := by
      unfold sectionLimit wrap64 maxInt64
      rw [Int.bmod_def, Int.bmod_def]
      omega
    rw [hlen, readSection, hend, hlen, if_neg (by omega), if_pos (by omega)]

/-! ### The index -/

/-- Bytes that are whole entries of an index. -/
def WholeIndex (bs : Bytes) : Prop :=
  ∃ ies : List (Key × ℕ), (∀ ie ∈ ies, ie.1.length < 2 ^ 16 ∧ ie.2 < 2 ^ 64) ∧
    bs = ies.flatMap encodeIndexEntry

/-- What the loop of `Open` accepts is whole entries. -/
theorem parseIndex_eq_some (fuel : ℕ) : ∀ {bs : Bytes} {ies : List (Key × ℕ)},
    parseIndex fuel bs = some ies →
      (∀ ie ∈ ies, ie.1.length < 2 ^ 16 ∧ ie.2 < 2 ^ 64) ∧ bs = ies.flatMap encodeIndexEntry := by
  induction fuel with
  | zero => intro bs ies h; cases h
  | succ fuel ih =>
    intro bs ies h
    rw [parseIndex] at h
    split_ifs at h with hnil
    · cases h
      exact ⟨List.forall_mem_nil _, hnil⟩
    · obtain ⟨⟨keyLen, bs₁⟩, hlen, h⟩ := Option.bind_eq_some_iff.mp h
      obtain ⟨⟨key, bs₂⟩, hkey, h⟩ := Option.bind_eq_some_iff.mp h
      obtain ⟨⟨off, bs₃⟩, hoff, h⟩ := Option.bind_eq_some_iff.mp h
      obtain ⟨rest, hrest, h⟩ := Option.bind_eq_some_iff.mp h
      cases h
      obtain ⟨x, rfl, hx, rfl⟩ := readUint_eq_some hlen
      obtain ⟨rfl, hkeylen⟩ := readFull_eq_some hkey
      obtain ⟨y, rfl, hy, rfl⟩ := readUint_eq_some hoff
      obtain ⟨hfits, rfl⟩ := ih hrest
      have hx₁ := ofBigEndian_lt x
      have hy₁ := ofBigEndian_lt y
      rw [hx] at hx₁
      rw [hy] at hy₁
      refine ⟨List.forall_mem_cons.mpr ⟨⟨hkeylen ▸ hx₁, hy₁⟩, hfits⟩, ?_⟩
      rw [List.flatMap_cons, encodeIndexEntry, hkeylen, bigEndian_ofBigEndian hx,
        bigEndian_ofBigEndian hy, List.append_assoc, List.append_assoc]

/-- The loop of `Open` runs past the end exactly if the last entry is not whole. -/
theorem parseIndex_eq_none_iff {bs : Bytes} {n : ℕ} (hn : bs.length ≤ n) :
    parseIndex (n + 1) bs = none ↔ ¬ WholeIndex bs := by
  constructor
  · rintro h ⟨ies, hfits, rfl⟩
    have hlen := length_le_index ies
    rw [parseIndex_flatMap hfits (by omega)] at h
    cases h
  · intro h
    cases hp : parseIndex (n + 1) bs with
    | none => rfl
    | some ies => exact absurd ⟨ies, parseIndex_eq_some _ hp⟩ h

/-- The file is long enough, has the magic number, and has the index that its footer announces. -/
def Readable (file : Bytes) : Prop :=
  footerSize ≤ file.length ∧ (readFooter file).magic = magic ∧ (readFooter file).Reads file

section Open

variable {mem : Memory} {file : Bytes}

/-- What `Open` does with a readable file, once it has allocated the index. -/
theorem openWithin_readable (hread : Readable file)
    (hmake : CanMake mem 1 (readFooter file).indexLen) :
    openWithin mem file = if ¬ mem.Allows (mem.mapBytes (readFooter file).count) then .error .panic
      else match parseIndex ((readFooter file).indexLen + 1) ((readFooter file).index file) with
        | none => .error .panic
        | some index =>
          .ok ⟨file, index, wrap64 (readFooter file).indexOffset, (readFooter file).count⟩ := by
  obtain ⟨hsize, hmagic, hreads⟩ := hread
  rw [openWithin, if_neg (not_lt.mpr hsize)]
  dsimp only
  rw [if_neg (not_not.mpr hmagic), if_neg (not_not.mpr hmake)]
  exact if_neg (not_not.mpr hreads)

/-- The table that `Open` makes of a readable file with a whole index. -/
theorem openWithin_of_readable (hread : Readable file)
    (hmake : CanMake mem 1 (readFooter file).indexLen)
    (hroom : mem.Allows (mem.mapBytes (readFooter file).count)) {ies : List (Key × ℕ)}
    (hfits : ∀ ie ∈ ies, ie.1.length < 2 ^ 16 ∧ ie.2 < 2 ^ 64)
    (hindex : (readFooter file).index file = ies.flatMap encodeIndexEntry) :
    openWithin mem file =
      .ok ⟨file, ies, wrap64 (readFooter file).indexOffset, (readFooter file).count⟩ := by
  have hlen : ((readFooter file).index file).length ≤ (readFooter file).indexLen :=
    List.length_take_le _ _
  have hle := length_le_index ies
  rw [hindex] at hlen
  rw [openWithin_readable hread hmake, if_neg (not_not.mpr hroom), hindex,
    parseIndex_flatMap hfits (by omega)]

/-- **What `Open` has seen when it returns a table.** -/
theorem openWithin_eq_ok {t : OpenTable} (h : openWithin mem file = .ok t) :
    Readable file ∧ CanMake mem 1 (readFooter file).indexLen ∧
      mem.Allows (mem.mapBytes (readFooter file).count) ∧
      (∀ ie ∈ t.index, ie.1.length < 2 ^ 16 ∧ ie.2 < 2 ^ 64) ∧
      (readFooter file).index file = t.index.flatMap encodeIndexEntry ∧
      t.file = file ∧ t.indexOffset = wrap64 (readFooter file).indexOffset ∧
      t.count = (readFooter file).count := by
  rw [openWithin] at h
  dsimp only at h
  split_ifs at h with hsize hmagic hmake hreads hroom
  cases hp : parseIndex ((readFooter file).indexLen + 1) ((readFooter file).index file) with
  | none => rw [hp] at h; cases h
  | some index =>
    rw [hp] at h
    obtain rfl := Except.ok.inj h
    obtain ⟨hfits, hbytes⟩ := parseIndex_eq_some _ hp
    exact ⟨⟨not_lt.mp hsize, not_not.mp hmagic, hreads⟩, hmake, hroom, hfits, hbytes, by simp⟩

/-- **When `Open` does not panic.** -/
theorem opens_iff : openWithin mem file ≠ .error .panic ↔
    (footerSize ≤ file.length → (readFooter file).magic = magic →
      CanMake mem 1 (readFooter file).indexLen) ∧
    (Readable file → mem.Allows (mem.mapBytes (readFooter file).count) ∧
      WholeIndex ((readFooter file).index file)) := by
  have hlen : ((readFooter file).index file).length ≤ (readFooter file).indexLen :=
    List.length_take_le _ _
  constructor
  · intro h
    have hmake : footerSize ≤ file.length → (readFooter file).magic = magic →
        CanMake mem 1 (readFooter file).indexLen := by
      intro hsize hmagic
      by_contra hmake
      refine h ?_
      rw [openWithin, if_neg (not_lt.mpr hsize)]
      dsimp only
      rw [if_neg (not_not.mpr hmagic), if_pos hmake]
    refine ⟨hmake, fun hread => ?_⟩
    rw [openWithin_readable hread (hmake hread.1 hread.2.1)] at h
    by_cases hroom : mem.Allows (mem.mapBytes (readFooter file).count)
    · refine ⟨hroom, not_not.mp fun hwhole => ?_⟩
      rw [if_neg (not_not.mpr hroom), (parseIndex_eq_none_iff hlen).mpr hwhole] at h
      exact absurd rfl h
    · rw [if_pos hroom] at h
      exact absurd rfl h
  · rintro ⟨hmake, hrest⟩ hpanic
    by_cases hread : Readable file
    · obtain ⟨hroom, ies, hfits, hindex⟩ := hrest hread
      rw [openWithin_of_readable hread (hmake hread.1 hread.2.1) hroom hfits hindex] at hpanic
      cases hpanic
    · -- the file is refused, with an error
      rw [openWithin] at hpanic
      dsimp only at hpanic
      by_cases hsize : file.length < footerSize
      · rw [if_pos hsize] at hpanic
        cases hpanic
      by_cases hmagic : (readFooter file).magic = magic
      · have hcan := hmake (not_lt.mp hsize) hmagic
        have hreads : ¬ (readFooter file).Reads file := fun hreads =>
          hread ⟨not_lt.mp hsize, hmagic, hreads⟩
        rw [if_neg hsize, if_neg (not_not.mpr hmagic), if_neg (not_not.mpr hcan), if_pos hreads]
          at hpanic
        cases hpanic
      · rw [if_neg hsize, if_pos hmagic] at hpanic
        cases hpanic

end Open

/-! ### Damaged files -/

/-- Data that consists of whole entries and the first `n` bytes of another one. -/
def CutAt (data : Bytes) (xs : List EntryFields) (x : EntryFields) (n : ℕ) : Prop :=
  data = xs.flatMap EntryFields.bytes ++ x.bytes.take n ∧ 0 < n ∧ n < x.bytes.length

/-- **What is asked of a file**, whatever its bytes are: nothing panics, and an entry that is cut
off is an error. -/
structure SafeFile (mem : Memory) (file : Bytes) : Prop where
  opens : openWithin mem file ≠ .error .panic
  gets : ∀ t, openWithin mem file = .ok t → ∀ key, t.get key ≠ .error .panic
  iterates : ∀ t, openWithin mem file = .ok t → t.iterateWithin mem ≠ .error .panic
  cut : ∀ t, openWithin mem file = .ok t → ∀ xs x n, CutAt (dataBlock t.file t.indexOffset) xs x n →
    ∃ err, t.iterateWithin mem = .error err

/-- What `Open`, `Get` and `Iterate` take for granted, said of the bytes of the file. -/
structure WellMade (mem : Memory) (file : Bytes) : Prop where
  /-- The index can be allocated. -/
  indexLen : footerSize ≤ file.length → (readFooter file).magic = magic →
    CanMake mem 1 (readFooter file).indexLen
  /-- There is memory for a map of as many keys as the footer counts. -/
  room : Readable file → mem.Allows (mem.mapBytes (readFooter file).count)
  /-- The index consists of whole entries, and no offset in it is so far below that of the index
  that the distance overflows. -/
  index : Readable file → ∃ ies : List (Key × ℕ),
    (∀ ie ∈ ies, ie.1.length < 2 ^ 16 ∧ ie.2 < 2 ^ 64) ∧
    (readFooter file).index file = ies.flatMap encodeIndexEntry ∧
    ∀ key off, offsetIn ies key = some off →
      wrap64 (readFooter file).indexOffset - wrap64 off < 2 ^ 63
  /-- As many entries as the footer counts can be allocated. -/
  count : Readable file → CanMake mem OpenTable.entryBytes (readFooter file).count
  /-- The data block does not end between two fields. -/
  data : Readable file → ∀ xs x n,
    CutAt (dataBlock file (wrap64 (readFooter file).indexOffset)) xs x n → n ∉ fieldStarts x.lengths

section Safe

variable {mem : Memory} {file : Bytes} {t : OpenTable}

/-- The index of an open table is in front of no negative offset. -/
theorem indexOffset_of_open (ht : openWithin mem file = .ok t) :
    FitsInt64 t.indexOffset ∧ (t.index ≠ [] → 0 ≤ t.indexOffset) := by
  obtain ⟨⟨-, -, hreads⟩, -, -, -, hindex, -, hoff, -⟩ := openWithin_eq_ok ht
  rw [hoff]
  refine ⟨fitsInt64_wrap64 _, fun hne => ?_⟩
  obtain hzero | ⟨hpos, -⟩ := hreads
  · -- an empty index has no entries
    rw [Footer.index, hzero, List.take_zero] at hindex
    have hle := length_le_index t.index
    rw [← hindex, List.length_nil] at hle
    exact absurd (List.length_eq_zero_iff.mp (Nat.le_zero.mp hle)) hne
  · exact hpos

theorem get_panic_iff (ht : openWithin mem file = .ok t) (key : Key) : t.get key = .error .panic ↔
      ∃ off, offsetIn t.index key = some off ∧
        2 ^ 63 ≤ wrap64 (readFooter file).indexOffset - wrap64 off := by
  obtain ⟨hfits, hpos⟩ := indexOffset_of_open ht
  obtain ⟨-, -, -, -, -, -, hstart, -⟩ := openWithin_eq_ok ht
  rw [← hstart]
  unfold OpenTable.get
  cases hoff : offsetIn t.index key with
  | none => simp
  | some off =>
    -- a key was found, so the index is not empty, and `Open` has read it
    have hne : t.index ≠ [] := by
      intro hnil
      rw [offsetIn, hnil] at hoff
      cases hoff
    have hpanic := readSection_panic_iff t.file (fitsInt64_wrap64 off) hfits (hpos hne)
    simp only [Option.some.injEq, exists_eq_left', ← hpanic]
    constructor
    · intro h
      cases hread : readSection t.file (wrap64 off) (wrap64 (t.indexOffset - wrap64 off)) with
      | error err =>
        rw [hread] at h
        exact congrArg Except.error (Except.error.inj h)
      | ok bs =>
        -- behind the section nothing panics any more
        rw [hread] at h
        exact absurd h ((calm_decodeEntry bs).bind fun _ => calm_ok _)
    · intro h
      rw [h]
      rfl

theorem iterateWithin_panic_iff (ht : openWithin mem file = .ok t) :
    t.iterateWithin mem = .error .panic ↔
      ¬ CanMake mem OpenTable.entryBytes (readFooter file).count := by
  obtain ⟨-, -, -, -, -, -, -, hcount⟩ := openWithin_eq_ok ht
  rw [OpenTable.iterateWithin_eq mem (indexOffset_of_open ht).1, ← hcount]
  by_cases hmake : CanMake mem OpenTable.entryBytes t.count
  · rw [if_neg (not_not.mpr hmake)]
    exact iff_of_false (calm_iterateFrom _ _) (not_not.mpr hmake)
  · rw [if_pos hmake]
    exact iff_of_true rfl hmake

theorem length_le_bytes (xs : List EntryFields) :
    xs.length ≤ (xs.flatMap EntryFields.bytes).length := by
  induction xs with
  | nil => exact Nat.zero_le _
  | cons x xs ih =>
    have hlen : x.bytes.length = 2 + _ := x.length_bytes
    rw [List.flatMap_cons, List.length_append, List.length_cons]
    omega

/-- What `Iterate` makes of an entry that is cut off. -/
theorem iterateWithin_cut (ht : openWithin mem file = .ok t)
    (hmake : CanMake mem OpenTable.entryBytes (readFooter file).count) {xs : List EntryFields}
    {x : EntryFields} {n : ℕ} (hcut : CutAt (dataBlock t.file t.indexOffset) xs x n) :
    t.iterateWithin mem = if n ∈ fieldStarts x.lengths then .ok (xs.map EntryFields.entry)
      else .error .unexpectedEOF := by
  obtain ⟨hdata, -, hn⟩ := hcut
  obtain ⟨-, -, -, -, -, -, -, hcount⟩ := openWithin_eq_ok ht
  have hlen := length_le_bytes xs
  rw [← hcount] at hmake
  rw [OpenTable.iterateWithin_eq mem (indexOffset_of_open ht).1, if_neg (not_not.mpr hmake),
    hdata, OpenTable.iterateFrom_of_error (decodeEntry_take x hn) xs]
  · split_ifs <;> simp_all
  · rw [List.length_append]
    omega

/-- A file on which all goes well has what is taken for granted. -/
theorem SafeFile.wellMade (h : SafeFile mem file) : WellMade mem file := by
  obtain ⟨hmake, hrest⟩ := opens_iff.mp h.opens
  -- a readable file is opened, and what the table does tells what the bytes are
  have hopen : Readable file → ∃ ies : List (Key × ℕ),
      (∀ ie ∈ ies, ie.1.length < 2 ^ 16 ∧ ie.2 < 2 ^ 64) ∧
      (readFooter file).index file = ies.flatMap encodeIndexEntry ∧
      openWithin mem file =
        .ok ⟨file, ies, wrap64 (readFooter file).indexOffset, (readFooter file).count⟩ := by
    intro hread
    obtain ⟨hroom, ies, hfits, hindex⟩ := hrest hread
    exact ⟨ies, hfits, hindex,
      openWithin_of_readable hread (hmake hread.1 hread.2.1) hroom hfits hindex⟩
  have hcount : Readable file → CanMake mem OpenTable.entryBytes (readFooter file).count := by
    intro hread
    obtain ⟨ies, -, -, ht⟩ := hopen hread
    exact not_not.mp fun hnot => h.iterates _ ht ((iterateWithin_panic_iff ht).mpr hnot)
  refine ⟨hmake, fun hread => (hrest hread).1, fun hread => ?_, hcount,
    fun hread xs x n hcut hn => ?_⟩
  · obtain ⟨ies, hfits, hindex, ht⟩ := hopen hread
    refine ⟨ies, hfits, hindex, fun key off hoff => ?_⟩
    by_contra hfar
    exact h.gets _ ht key ((get_panic_iff ht key).mpr ⟨off, hoff, not_lt.mp hfar⟩)
  · obtain ⟨ies, -, -, ht⟩ := hopen hread
    obtain ⟨-, -, -, -, -, hfile, hstart, -⟩ := openWithin_eq_ok ht
    rw [← hfile, ← hstart] at hcut
    obtain ⟨err, herr⟩ := h.cut _ ht xs x n hcut
    rw [iterateWithin_cut ht (hcount hread) hcut, if_pos hn] at herr
    cases herr

end Safe

theorem dataBlock_tableOf (hsize : (es.flatMap encodeEntry).length < 2 ^ 63) :
    dataBlock (tableOf es).file (tableOf es).indexOffset = es.flatMap encodeEntry := by
  have hsection := readSection_tableOf hsize
  rw [OpenTable.readSection_zero _ (by dsimp only [tableOf]; exact fitsInt64_wrap64 _)] at hsection
  exact Except.ok.inj hsection

theorem length_encodeEntry_entry (x : EntryFields) :
    (encodeEntry x.entry).length = x.bytes.length := by
  simp only [encodeEntry, EntryFields.entry, EntryFields.bytes, List.length_append,
    length_bigEndian]

/-- What `WriteSorted` has written is well made, if there is memory for it. -/
theorem wellMade_tableBytes {mem : Memory} {es : Table} (hfits : ∀ e ∈ es, e.Fits)
    (hsize : (tableBytes es).length < 2 ^ 63)
    (hindex : CanMake mem 1 ((indexEntries 0 es).flatMap encodeIndexEntry).length)
    (hroom : mem.Allows (mem.mapBytes es.length))
    (hcount : CanMake mem OpenTable.entryBytes es.length) :
    WellMade mem (tableBytes es) := by
  have hlen := length_tableBytes es
  have hdata : (es.flatMap encodeEntry).length < 2 ^ 63 := by omega
  have hopen : openWithin mem (tableBytes es) = .ok (tableOf es) :=
    openWithin_tableBytes (fun e he => (hfits e he).key) hsize hindex hroom
  have hiter := iterateWithin_tableOf hfits hdata hcount
  -- it is safe, since it is read back
  refine SafeFile.wellMade ⟨by rw [hopen]; simp, fun t ht key => ?_, fun t ht => ?_,
    fun t ht xs x n hcut => ?_⟩
  all_goals obtain rfl : t = tableOf es := (Except.ok.inj (hopen.symm.trans ht)).symm
  · rw [get_tableOf hfits hdata]
    simp
  · rw [hiter]
    simp
  · -- nothing is cut off: `Iterate` would return all entries without the one that is
    exfalso
    obtain ⟨-, -, -, -, -, -, -, hfooter⟩ := openWithin_eq_ok hopen
    rw [iterateWithin_cut hopen (hfooter ▸ hcount) hcut] at hiter
    split_ifs at hiter
    obtain rfl : xs.map EntryFields.entry = es := Except.ok.inj hiter
    obtain ⟨hblock, hpos, hlt⟩ := hcut
    have hbytes := congrArg List.length (dataBlock_tableOf hdata ▸ hblock)
    rw [List.length_append, List.length_take, List.flatMap_map] at hbytes
    simp only [List.length_flatMap, length_encodeEntry_entry] at hbytes
    omega

/-- A value and a tombstone. -/
theorem wellMade_tableBytes_of_two : WellMade ⟨some (2 ^ 48), fun n => 48 * n⟩
    (tableBytes [⟨[97], [49], [69], 0, false, 1⟩, ⟨[98], [], [], 0, true, 2⟩]) := by
  refine wellMade_tableBytes ?_ (by decide +kernel) (by decide +kernel) (by decide +kernel)
    (by decide +kernel)
  simp only [List.forall_mem_cons, List.not_mem_nil, false_implies, implies_true, and_true]
  exact ⟨⟨by decide, by decide, by decide, by decide, by decide⟩,
    ⟨by decide, by decide, by decide, by decide, by decide⟩⟩

end Storage
end BoilerPulse
