import BoilerPulse.Storage.LsmInvariant

/-!
# Storage: the bytes of a table file

The package `sstable`, byte for byte: the codec of its entries (`entry_codec.go`), the writer
(`writer.go`), and `Open`, `Get` and `Iterate` (`table.go`). The rest of the development takes a
table file for the list of its entries (`Table`); `openTable_writeSorted` says when that is right:
as long as every entry fits the length fields of the format, the file opens, `Get` is `tableGet` and
`Iterate` returns the entries.

Key, consistency and value have 16, 8 and 32 bits for their lengths here as in the log, and
nothing in front of the engine limits a key. So a `Put` that is acknowledged may write a record that
the log cannot give back, and with it every record after it: `puts_survive_iff`.
-/

namespace BoilerPulse
namespace Storage

variable {es : Table} {mem : Memory} {r : Record}

open Framework

/-! ### Entries (`entry_codec.go`) -/

/-- What a reader reports if it cannot read on: nothing was left, or too little. -/
inductive ReadError where
  | eof
  | unexpectedEOF
  /-- `ReadAt` at a negative offset. -/
  | negativeOffset
  /-- Nothing is reported: a slice expression or a `make` out of range. -/
  | panic
  deriving DecidableEq, Repr

/-- `io.ReadFull` of `k` bytes, and what is left. -/
def readBytes (k : ℕ) (bs : Bytes) : Except ReadError (Bytes × Bytes) :=
  match readFull k bs with
  | some r => .ok r
  | none => .error (if bs = [] then .eof else .unexpectedEOF)

/-- `binary.Read` of a number of `k` bytes. -/
def readNumber (k : ℕ) (bs : Bytes) : Except ReadError (ℕ × Bytes) :=
  (readBytes k bs).map fun r => (ofBigEndian r.1, r.2)

def encodeEntry (e : TableEntry) : Bytes :=
  bigEndian 2 e.key.length ++ (e.key ++ (bigEndian 1 e.tombstone.toNat ++
    (bigEndian 1 e.consistency.length ++ (e.consistency ++
      (bigEndian 8 (toUint64 e.expiresAtUnixNano) ++ (bigEndian 8 e.version ++
        (bigEndian 4 e.value.length ++ e.value)))))))

/-- Read the fields back in the order they were written. -/
def decodeEntry (bs : Bytes) : Except ReadError (TableEntry × Bytes) := do
  let (keyLen, bs) ← readNumber 2 bs
  let (key, bs) ← readBytes keyLen bs
  let (tomb, bs) ← readNumber 1 bs
  let (consLen, bs) ← readNumber 1 bs
  let (cons, bs) ← readBytes consLen bs
  let (expiresAt, bs) ← readNumber 8 bs
  let (version, bs) ← readNumber 8 bs
  let (valueLen, bs) ← readNumber 4 bs
  let (value, bs) ← readBytes valueLen bs
  return (⟨key, value, cons, wrap64 expiresAt, tomb = 1, version⟩, bs)

theorem readBytes_append {k : ℕ} {bs : Bytes} (h : bs.length = k) (rest : Bytes) :
    readBytes k (bs ++ rest) = .ok (bs, rest) := by
  rw [readBytes, readFull_append h]

theorem readNumber_append {k n : ℕ} (h : n < 256 ^ k) (rest : Bytes) :
    readNumber k (bigEndian k n ++ rest) = .ok (n, rest) := by
  rw [readNumber, readBytes_append (length_bigEndian k n), Except.map, ofBigEndian_bigEndian h]

theorem decodeEntry_encodeEntry {e : TableEntry} (h : e.Fits) (rest : Bytes) :
    decodeEntry (encodeEntry e ++ rest) = .ok (e, rest) := by
  have hkey : e.key.length < 256 ^ 2 := h.key
  have htomb : e.tombstone.toNat < 256 ^ 1 := Nat.lt_of_le_of_lt e.tombstone.toNat_le (by decide)
  have hcons : e.consistency.length < 256 ^ 1 := h.consistency
  have hexp : toUint64 e.expiresAtUnixNano < 256 ^ 8 := toUint64_lt e.expiresAtUnixNano
  have hver : e.version < 256 ^ 8 := h.version
  have hval : e.value.length < 256 ^ 4 := h.value
  have hback : decide (e.tombstone.toNat = 1) = e.tombstone := by cases e.tombstone <;> rfl
  unfold decodeEntry encodeEntry
  simp only [List.append_assoc]
  simp only [readNumber_append hkey, readNumber_append htomb, readNumber_append hcons,
    readNumber_append hexp, readNumber_append hver, readNumber_append hval, readBytes_append rfl,
    bind, Except.bind, pure, Except.pure, hback, wrap64_toUint64 h.expiresAt]

/-! ### Files (`writer.go`, `table.go`) -/

def magic : ℕ := 0x42505354

def footerSize : ℕ := 8 + 8 + 8 + 4

/-- The key of each entry with the offset of its bytes, the first at `off`. -/
def indexEntries : ℕ → Table → List (Key × ℕ)
  | _, [] => []
  | off, e :: es => (e.key, off) :: indexEntries (off + (encodeEntry e).length) es

def encodeIndexEntry (ie : Key × ℕ) : Bytes :=
  bigEndian 2 ie.1.length ++ (ie.1 ++ bigEndian 8 ie.2)

/-- The bytes of a table file: the entries, the index, and the footer. -/
def tableBytes (entries : Table) : Bytes :=
  let data := entries.flatMap encodeEntry
  let index := (indexEntries 0 entries).flatMap encodeIndexEntry
  data ++ (index ++ (bigEndian 8 data.length ++ (bigEndian 8 index.length ++
    (bigEndian 8 entries.length ++ bigEndian 4 magic))))

/-- `WriteSorted`; `none` is the error of a file that would grow past the largest offset a file can
have. -/
def writeSorted (entries : Table) : Option Bytes :=
  if (tableBytes entries).length < 2 ^ 63 then some (tableBytes entries) else none

inductive OpenError where
  /-- `ErrInvalidFile`: file too small. -/
  | tooSmall
  /-- `ErrInvalidFile`: bad magic number. -/
  | badMagic
  /-- `ReadAt` of the index goes past the end of the file, or starts at a negative offset. -/
  | readFailed
  /-- The index or its map cannot be allocated, or the index ends in the middle of an entry: a
  `make` or a slice expression out of range, or a process without memory. -/
  | panic
  deriving DecidableEq, Repr

/-- An open table. The index is a Go map: the last entry of a key counts. -/
structure OpenTable where
  file : Bytes
  index : List (Key × ℕ)
  /-- The offset of the footer as an `int64`. -/
  indexOffset : ℤ
  count : ℕ
  deriving DecidableEq, Repr

/-- What a process can allocate. -/
structure Memory where
  /-- The bytes that one slice or one map may take; `none` if there is no limit. -/
  maxAlloc : Option ℕ
  /-- The bytes of a map that is made for a number of keys. The runtime makes an empty one if the
  number is out of its range, so this need not grow with it. -/
  mapBytes : ℕ → ℕ

def Memory.unlimited : Memory :=
  ⟨none, fun _ => 0⟩

def Memory.Allows (mem : Memory) (bytes : ℕ) : Prop :=
  ∀ limit ∈ mem.maxAlloc, bytes ≤ limit

theorem Memory.allows_unlimited (bytes : ℕ) : Memory.unlimited.Allows bytes :=
  fun _ h => nomatch h

instance Memory.Allows.decidable (mem : Memory) (bytes : ℕ) : Decidable (mem.Allows bytes) :=
  inferInstanceAs (Decidable (∀ limit ∈ mem.maxAlloc, bytes ≤ limit))

/-- `make` of a slice of `n` elements of `size` bytes does not panic: an `int` can count them, and
there is memory for them. The buffers of `decodeEntry` have fewer than `2 ^ 32` bytes, which a
runtime with 64-bit pointers always allocates. -/
def CanMake (mem : Memory) (size n : ℕ) : Prop :=
  n < 2 ^ 63 ∧ mem.Allows (size * n)

instance CanMake.decidable (mem : Memory) (size n : ℕ) : Decidable (CanMake mem size n) :=
  inferInstanceAs (Decidable (_ ∧ _))

/-- The numbers at the end of a file. -/
structure Footer where
  indexOffset : ℕ
  indexLen : ℕ
  count : ℕ
  magic : ℕ
  deriving DecidableEq, Repr

def readFooter (file : Bytes) : Footer :=
  let footer := file.drop (file.length - footerSize)
  { indexOffset := ofBigEndian (footer.take 8)
    indexLen := ofBigEndian ((footer.drop 8).take 8)
    count := ofBigEndian ((footer.drop 16).take 8)
    magic := ofBigEndian ((footer.drop 24).take 4) }

/-- `ReadAt` of the index succeeds; an empty one is not read. -/
def Footer.Reads (f : Footer) (file : Bytes) : Prop :=
  f.indexLen = 0 ∨ 0 ≤ wrap64 f.indexOffset ∧ f.indexOffset + f.indexLen ≤ file.length

instance Footer.Reads.decidable (f : Footer) (file : Bytes) : Decidable (f.Reads file) :=
  inferInstanceAs (Decidable (_ ∨ _ ∧ _))

/-- The bytes of the index. -/
def Footer.index (f : Footer) (file : Bytes) : Bytes :=
  (file.drop f.indexOffset).take f.indexLen

/-- The loop of `Open` over the index. Each round takes at least ten bytes, so a fuel of as many
rounds as there are bytes is never used up. -/
def parseIndex : ℕ → Bytes → Option (List (Key × ℕ))
  | 0, _ => none
  | fuel + 1, bs =>
    if bs = [] then some []
    else do
      let (keyLen, bs) ← readUint 2 bs
      let (key, bs) ← readFull keyLen bs
      let (off, bs) ← readUint 8 bs
      let index ← parseIndex fuel bs
      return (key, off) :: index

/-- `Open`, with limited memory. -/
def openWithin (mem : Memory) (file : Bytes) : Except OpenError OpenTable :=
  if file.length < footerSize then .error .tooSmall
  else
    let f := readFooter file
    if f.magic ≠ magic then .error .badMagic
    else if ¬ CanMake mem 1 f.indexLen then .error .panic
    else if ¬ f.Reads file then .error .readFailed
    -- `make(map[string]uint64, count)`
    else if ¬ mem.Allows (mem.mapBytes f.count) then .error .panic
    else
      match parseIndex (f.indexLen + 1) (f.index file) with
      | none => .error .panic
      | some index => .ok ⟨file, index, wrap64 f.indexOffset, f.count⟩

/-- `Open`, with memory for everything. -/
def openTable (file : Bytes) : Except OpenError OpenTable :=
  openWithin .unlimited file

/-! ### Sections of a file (`io.SectionReader`) -/

/-- The largest `int64`. -/
def maxInt64 : ℤ := 2 ^ 63 - 1

/-- Where `NewSectionReader(r, off, n)` ends a section. It means to ask whether `off + n` overflows,
but with a negative `n` it is the difference that does. -/
def sectionLimit (off n : ℤ) : ℤ :=
  if off ≤ wrap64 (maxInt64 - n) then wrap64 (n + off) else maxInt64

/-- The bytes of a section, as far as the file goes. What fails here fails at the first `Read`,
which asks for at least one byte. -/
def readSection (file : Bytes) (off n : ℤ) : Except ReadError Bytes :=
  if sectionLimit off n ≤ off then .ok []
  -- `p[0:max]`, where `max` is what is left of the section
  else if wrap64 (sectionLimit off n - off) < 0 then .error .panic
  else if off < 0 then .error .negativeOffset
  else .ok ((file.drop off.toNat).take (sectionLimit off n - off).toNat)

/-- The offset of a key in an index. -/
def offsetIn (index : List (Key × ℕ)) (key : Key) : Option ℕ :=
  (index.reverse.find? fun ie => ie.1 = key).map Prod.snd

namespace OpenTable

/-- `Get`: decode at the offset of the key; the section is meant to end where the index starts. -/
def get (t : OpenTable) (key : Key) : Except ReadError (Option TableEntry) :=
  match offsetIn t.index key with
  | none => .ok none
  | some off => do
    let bs ← readSection t.file (wrap64 off) (wrap64 (t.indexOffset - wrap64 off))
    let (e, _) ← decodeEntry bs
    return some e

/-- The loop of `Iterate`, which ends at `io.EOF`. Each round takes at least one byte, so a fuel of
more rounds than there are bytes is never used up. -/
def iterateFrom : ℕ → Bytes → Except ReadError Table
  | 0, _ => .ok []
  | fuel + 1, bs =>
    match decodeEntry bs with
    | .error .eof => .ok []
    | .error err => .error err
    | .ok (e, bs) => (iterateFrom fuel bs).map fun es => e :: es

/-- The size of an `Entry` in memory. -/
def entryBytes : ℕ := 16 + 24 + 16 + 8 + 8 + 8

/-- `Iterate`, with limited memory. -/
def iterateWithin (mem : Memory) (t : OpenTable) : Except ReadError Table :=
  -- `make([]Entry, 0, t.count)`
  if ¬ CanMake mem entryBytes t.count then .error .panic
  else do
    let bs ← readSection t.file 0 t.indexOffset
    iterateFrom (bs.length + 1) bs

/-- `Iterate`, with memory for everything. -/
def iterate (t : OpenTable) : Except ReadError Table :=
  t.iterateWithin .unlimited

end OpenTable

/-! ### Reading a table back -/

theorem encodeEntry_pos (e : TableEntry) : 0 < (encodeEntry e).length := by
  rw [encodeEntry, List.length_append, length_bigEndian]
  omega

theorem length_le_data (es : Table) : es.length ≤ (es.flatMap encodeEntry).length := by
  induction es with
  | nil => exact Nat.zero_le _
  | cons e es ih =>
    have := encodeEntry_pos e
    rw [List.flatMap_cons, List.length_append, List.length_cons]
    omega

theorem length_encodeIndexEntry (ie : Key × ℕ) :
    (encodeIndexEntry ie).length = 10 + ie.1.length := by
  simp only [encodeIndexEntry, List.length_append, length_bigEndian]
  omega

theorem length_le_index (ies : List (Key × ℕ)) :
    ies.length ≤ (ies.flatMap encodeIndexEntry).length := by
  induction ies with
  | nil => exact Nat.zero_le _
  | cons ie ies ih =>
    rw [List.flatMap_cons, List.length_append, List.length_cons, length_encodeIndexEntry]
    omega

/-- One round of the loop over the index. -/
theorem parseIndex_append {x key y : Bytes} (hx : x.length = 2) (hkey : key.length = ofBigEndian x)
    (hy : y.length = 8) (fuel : ℕ) (rest : Bytes) :
    parseIndex (fuel + 1) (x ++ (key ++ (y ++ rest))) =
      (parseIndex fuel rest).map fun index => (key, ofBigEndian y) :: index := by
  have hne : x ++ (key ++ (y ++ rest)) ≠ [] := by
    intro hnil
    have := congrArg List.length hnil
    rw [List.length_append, List.length_nil] at this
    omega
  rw [parseIndex, if_neg hne]
  simp only [readUint, readFull_append hx, readFull_append hkey, readFull_append hy,
    Option.map_some, Option.bind_eq_bind, Option.bind_some]
  cases parseIndex fuel rest <;> rfl

/-- A key that is announced with more bytes than there are. -/
theorem parseIndex_of_short {x rest : Bytes} (hx : x.length = 2)
    (hshort : rest.length < ofBigEndian x) (fuel : ℕ) : parseIndex fuel (x ++ rest) = none := by
  cases fuel with
  | zero => rfl
  | succ fuel =>
    have hne : x ++ rest ≠ [] := by
      intro hnil
      have := congrArg List.length hnil
      rw [List.length_append, List.length_nil] at this
      omega
    rw [parseIndex, if_neg hne]
    simp only [readUint, readFull_append hx, readFull_short hshort, Option.map_some,
      Option.bind_eq_bind, Option.bind_some, Option.bind_none]

/-- The index is read back, if its keys and offsets fit. -/
theorem parseIndex_flatMap {ies : List (Key × ℕ)}
    (h : ∀ ie ∈ ies, ie.1.length < 2 ^ 16 ∧ ie.2 < 2 ^ 64) : ∀ {fuel : ℕ}, ies.length < fuel →
      parseIndex fuel (ies.flatMap encodeIndexEntry) = some ies := by
  induction ies with
  | nil =>
    intro fuel hf
    obtain ⟨fuel, rfl⟩ := Nat.exists_eq_succ_of_ne_zero (Nat.ne_of_gt hf)
    rfl
  | cons ie ies ih =>
    intro fuel hf
    obtain ⟨fuel, rfl⟩ := Nat.exists_eq_succ_of_ne_zero (Nat.ne_of_gt (Nat.zero_lt_of_lt hf))
    obtain ⟨hkey, hoff⟩ := h ie List.mem_cons_self
    have hkey : ie.1.length < 256 ^ 2 := hkey
    have hoff : ie.2 < 256 ^ 8 := hoff
    have hrest := ih (fun ie' h' => h ie' (List.mem_cons_of_mem ie h')) (Nat.lt_of_succ_lt_succ hf)
    rw [List.flatMap_cons, encodeIndexEntry, List.append_assoc, List.append_assoc,
      parseIndex_append (length_bigEndian 2 _) (ofBigEndian_bigEndian hkey).symm
        (length_bigEndian 8 _), hrest, ofBigEndian_bigEndian hoff]
    rfl

/-- Keys and offsets of the index: the keys are those of the entries, and no offset is past the end
of the data. -/
theorem mem_indexEntries {ie : Key × ℕ} : ∀ {off : ℕ}, ie ∈ indexEntries off es →
    (∃ e ∈ es, e.key = ie.1) ∧ ie.2 ≤ off + (es.flatMap encodeEntry).length := by
  induction es with
  | nil => intro off h; cases h
  | cons e es ih =>
    intro off h
    rw [List.flatMap_cons, List.length_append]
    rcases List.mem_cons.mp h with rfl | h
    · exact ⟨⟨e, List.mem_cons_self, rfl⟩, by dsimp only; omega⟩
    · obtain ⟨⟨e', he', hk⟩, hle⟩ := ih h
      exact ⟨⟨e', List.mem_cons_of_mem e he', hk⟩, by omega⟩

/-- **The index finds the last entry of a key**, at the end of the bytes before it. -/
theorem find_indexEntries (es : Table) (key : Key) : ∀ off : ℕ, (tableGet es key = none ∧
      (indexEntries off es).reverse.find? (fun ie => ie.1 = key) = none) ∨
    ∃ pre e post, es = pre ++ e :: post ∧ tableGet es key = some e ∧
      (indexEntries off es).reverse.find? (fun ie => ie.1 = key) =
        some (key, off + (pre.flatMap encodeEntry).length) := by
  induction es with
  | nil => exact fun off => .inl ⟨rfl, rfl⟩
  | cons x es ih =>
    intro off
    unfold tableGet at ih ⊢
    rw [indexEntries, List.reverse_cons, List.find?_append, List.reverse_cons, List.find?_append]
    rcases ih (off + (encodeEntry x).length) with ⟨hnone, hidx⟩ | ⟨pre, e, post, rfl, hsome, hidx⟩
    · rw [hnone, hidx, Option.none_or, Option.none_or]
      by_cases hk : x.key = key
      · refine .inr ⟨[], x, es, rfl, ?_, ?_⟩
        · rw [List.find?_singleton, if_pos (by simpa using hk)]
        · rw [List.find?_singleton, if_pos (by simpa using hk), hk]
          rfl
      · refine .inl ⟨?_, ?_⟩
        · rw [List.find?_singleton, if_neg (by simpa using hk)]
        · rw [List.find?_singleton, if_neg (by simpa using hk)]
    · rw [hsome, hidx, Option.some_or, Option.some_or]
      refine .inr ⟨x :: pre, e, post, rfl, rfl, ?_⟩
      rw [List.flatMap_cons, List.length_append, Nat.add_assoc]

theorem iterateFrom_flatMap (h : ∀ e ∈ es, e.Fits) : ∀ {fuel : ℕ}, es.length < fuel →
    OpenTable.iterateFrom fuel (es.flatMap encodeEntry) = .ok es := by
  induction es with
  | nil =>
    intro fuel hf
    obtain ⟨fuel, rfl⟩ := Nat.exists_eq_succ_of_ne_zero (Nat.ne_of_gt hf)
    rfl
  | cons e es ih =>
    intro fuel hf
    obtain ⟨fuel, rfl⟩ := Nat.exists_eq_succ_of_ne_zero (Nat.ne_of_gt (Nat.zero_lt_of_lt hf))
    rw [List.flatMap_cons, OpenTable.iterateFrom, decodeEntry_encodeEntry (h e List.mem_cons_self)]
    dsimp only
    rw [ih (fun e' he' => h e' (List.mem_cons_of_mem e he')) (Nat.lt_of_succ_lt_succ hf)]
    rfl

/-- The four fields of a footer are read back. -/
theorem footer_fields {a b c : ℕ} (ha : a < 2 ^ 64) (hb : b < 2 ^ 64) (hc : c < 2 ^ 64)
    {footer : Bytes}
    (hf : footer = bigEndian 8 a ++ (bigEndian 8 b ++ (bigEndian 8 c ++ bigEndian 4 magic))) :
    ofBigEndian (footer.take 8) = a ∧ ofBigEndian ((footer.drop 8).take 8) = b ∧
      ofBigEndian ((footer.drop 16).take 8) = c ∧
      ofBigEndian ((footer.drop 24).take 4) = magic := by
  have h8 : footer.drop 8 = bigEndian 8 b ++ (bigEndian 8 c ++ bigEndian 4 magic) := by
    rw [hf, List.drop_left' (length_bigEndian 8 a)]
  have h16 : footer.drop 16 = bigEndian 8 c ++ bigEndian 4 magic := by
    rw [show (16 : ℕ) = 8 + 8 from rfl, ← List.drop_drop, h8,
      List.drop_left' (length_bigEndian 8 b)]
  have h24 : footer.drop 24 = bigEndian 4 magic := by
    rw [show (24 : ℕ) = 16 + 8 from rfl, ← List.drop_drop, h16,
      List.drop_left' (length_bigEndian 8 c)]
  refine ⟨?_, ?_, ?_, ?_⟩
  · rw [hf, List.take_left' (length_bigEndian 8 a), ofBigEndian_bigEndian ha]
  · rw [h8, List.take_left' (length_bigEndian 8 b), ofBigEndian_bigEndian hb]
  · rw [h16, List.take_left' (length_bigEndian 8 c), ofBigEndian_bigEndian hc]
  · rw [h24]
    decide

/-- A section between two offsets of a file. -/
theorem readSection_of_le (file : Bytes) {off limit : ℕ} (hle : off ≤ limit)
    (hlt : limit < 2 ^ 63) :
    readSection file (wrap64 off) (wrap64 (wrap64 limit - wrap64 off)) =
      .ok ((file.drop off).take (limit - off)) := by
  have hoff : wrap64 off = off := wrap64_of_fits ⟨by omega, by omega⟩
  have hlimit : wrap64 limit = limit := wrap64_of_fits ⟨by omega, by omega⟩
  have hlen : wrap64 ((limit : ℤ) - off) = limit - off := wrap64_of_fits ⟨by omega, by omega⟩
  have hend : sectionLimit off (limit - off) = limit := by
    have hroom : wrap64 (maxInt64 - ((limit : ℤ) - off)) = maxInt64 - (limit - off) :=
      wrap64_of_fits ⟨by unfold maxInt64; omega, by unfold maxInt64; omega⟩
    unfold sectionLimit
    rw [hroom, if_pos (by unfold maxInt64; omega), Int.sub_add_cancel, hlimit]
  rw [hoff, hlimit, hlen, readSection, hend, hlen]
  by_cases heq : limit = off
  · rw [if_pos (by omega), heq, Nat.sub_self, List.take_zero]
  · rw [if_neg (by omega), if_neg (by omega), if_neg (by omega), Int.toNat_natCast,
      show ((limit : ℤ) - off).toNat = limit - off by omega]

theorem length_tableBytes (es : Table) : (tableBytes es).length = (es.flatMap encodeEntry).length +
    (((indexEntries 0 es).flatMap encodeIndexEntry).length + footerSize) := by
  simp only [tableBytes, List.length_append, length_bigEndian, footerSize]

/-- `Open` of a file that `WriteSorted` has written, up to the loop over the index. -/
theorem openWithin_written (hsize : (tableBytes es).length < 2 ^ 63)
    (hindex : CanMake mem 1 ((indexEntries 0 es).flatMap encodeIndexEntry).length)
    (hroom : mem.Allows (mem.mapBytes es.length)) :
    openWithin mem (tableBytes es) =
      match parseIndex (((indexEntries 0 es).flatMap encodeIndexEntry).length + 1)
        ((indexEntries 0 es).flatMap encodeIndexEntry) with
      | none => .error .panic
      | some index =>
        .ok ⟨tableBytes es, index, wrap64 (es.flatMap encodeEntry).length, es.length⟩ := by
  have hcount := length_le_data es
  have hlen := length_tableBytes es
  have hfile := tableBytes.eq_1 es
  -- from here on only the lengths of index and data matter
  generalize (indexEntries 0 es).flatMap encodeIndexEntry = index at *
  generalize es.flatMap encodeEntry = data at *
  obtain ⟨footer, hfooter⟩ : ∃ footer, bigEndian 8 data.length ++ (bigEndian 8 index.length ++
      (bigEndian 8 es.length ++ bigEndian 4 magic)) = footer := ⟨_, rfl⟩
  rw [hfooter] at hfile
  have hflen : footer.length = footerSize := by
    rw [← hfooter]
    simp only [List.length_append, length_bigEndian]
    rfl
  have hdrop : (tableBytes es).drop ((tableBytes es).length - footerSize) = footer := by
    rw [hlen, hfile, ← List.append_assoc]
    exact List.drop_left' (by rw [List.length_append]; omega)
  have hsection : ((tableBytes es).drop data.length).take index.length = index := by
    rw [hfile, List.drop_left, List.take_left]
  have hread : readFooter (tableBytes es) = ⟨data.length, index.length, es.length, magic⟩ := by
    obtain ⟨h₁, h₂, h₃, h₄⟩ := footer_fields (a := data.length) (b := index.length)
      (c := es.length) (by omega) (by omega) (by omega) hfooter.symm
    rw [readFooter, hdrop, h₁, h₂, h₃, h₄]
  -- the offset is not negative as an `int64`, and the section lies in the file
  have hreads : Footer.Reads ⟨data.length, index.length, es.length, magic⟩ (tableBytes es) := by
    refine .inr ⟨?_, ?_⟩
    · show 0 ≤ wrap64 data.length
      rw [wrap64_of_fits ⟨by omega, by omega⟩]
      omega
    · show data.length + index.length ≤ (tableBytes es).length
      omega
  unfold openWithin
  rw [if_neg (by omega), hread]
  dsimp only
  rw [if_neg (not_not.mpr rfl), if_neg (not_not.mpr hindex), if_neg (not_not.mpr hreads),
    if_neg (not_not.mpr hroom), Footer.index, hsection]

/-- `Open` of a file that `WriteSorted` has written, if its keys fit. -/
theorem openWithin_tableBytes (hkey : ∀ e ∈ es, e.key.length < 2 ^ 16)
    (hsize : (tableBytes es).length < 2 ^ 63)
    (hindex : CanMake mem 1 ((indexEntries 0 es).flatMap encodeIndexEntry).length)
    (hroom : mem.Allows (mem.mapBytes es.length)) :
    openWithin mem (tableBytes es) = .ok
      ⟨tableBytes es, indexEntries 0 es, wrap64 (es.flatMap encodeEntry).length, es.length⟩ := by
  have hlen := length_tableBytes es
  -- keys and offsets fit, as the keys of the entries do and the file is not too large
  rw [openWithin_written hsize hindex hroom,
    parseIndex_flatMap (fun ie hie => ?_) (Nat.lt_succ_of_le (length_le_index _))]
  obtain ⟨⟨e, he, hk⟩, hoff⟩ := mem_indexEntries hie
  exact ⟨hk ▸ hkey e he, by omega⟩

/-- The section at the offset of an entry starts with its bytes. -/
theorem section_tableBytes {es pre post : Table} {e : TableEntry} (hes : es = pre ++ e :: post) :
    ((tableBytes es).drop (pre.flatMap encodeEntry).length).take
        ((es.flatMap encodeEntry).length - (pre.flatMap encodeEntry).length) =
      encodeEntry e ++ post.flatMap encodeEntry := by
  have hdata : es.flatMap encodeEntry =
      pre.flatMap encodeEntry ++ (encodeEntry e ++ post.flatMap encodeEntry) := by
    rw [hes, List.flatMap_append, List.flatMap_cons]
  rw [tableBytes, hdata, List.append_assoc, List.drop_left, List.length_append,
    Nat.add_sub_cancel_left]
  exact List.take_left' rfl

/-- The table that `Open` makes of the entries. -/
def tableOf (es : Table) : OpenTable :=
  ⟨tableBytes es, indexEntries 0 es, wrap64 (es.flatMap encodeEntry).length, es.length⟩

/-- `Get` finds the last entry of a key. -/
theorem get_tableOf (h : ∀ e ∈ es, e.Fits) (hsize : (es.flatMap encodeEntry).length < 2 ^ 63)
    (key : Key) :
    (tableOf es).get key = .ok (tableGet es key) := by
  unfold OpenTable.get offsetIn tableOf
  dsimp only
  rcases find_indexEntries es key 0 with ⟨hnone, hidx⟩ | ⟨pre, e, post, hes, hsome, hidx⟩
  · rw [hidx, hnone]
    rfl
  · have hle : (pre.flatMap encodeEntry).length ≤ (es.flatMap encodeEntry).length := by
      rw [hes, List.flatMap_append, List.length_append]
      omega
    have hfits : e.Fits := h e (by rw [hes]; simp)
    rw [hidx, hsome, Option.map_some]
    dsimp only
    rw [Nat.zero_add, readSection_of_le _ hle hsize, section_tableBytes hes]
    simp only [bind, Except.bind, pure, Except.pure, decodeEntry_encodeEntry hfits]

/-- The section that `Iterate` reads is the data. -/
theorem readSection_tableOf (hsize : (es.flatMap encodeEntry).length < 2 ^ 63) :
    readSection (tableOf es).file 0 (tableOf es).indexOffset = .ok (es.flatMap encodeEntry) := by
  have hsection := readSection_of_le (tableBytes es) (Nat.zero_le _) hsize
  have hzero : wrap64 (0 : ℕ) = 0 := wrap64_of_fits ⟨by decide, by decide⟩
  have hdata : (tableBytes es).take (es.flatMap encodeEntry).length = es.flatMap encodeEntry := by
    rw [tableBytes]
    exact List.take_left' rfl
  rw [hzero, Int.sub_zero, wrap64_of_fits (fitsInt64_wrap64 _), List.drop_zero, Nat.sub_zero,
    hdata] at hsection
  dsimp only [tableOf]
  exact hsection

theorem iterateWithin_tableOf (h : ∀ e ∈ es, e.Fits)
    (hsize : (es.flatMap encodeEntry).length < 2 ^ 63)
    (hmem : CanMake mem OpenTable.entryBytes es.length) :
    (tableOf es).iterateWithin mem = .ok es := by
  have hcount : CanMake mem OpenTable.entryBytes (tableOf es).count := hmem
  unfold OpenTable.iterateWithin
  rw [if_neg (not_not.mpr hcount), readSection_tableOf hsize]
  exact iterateFrom_flatMap h (Nat.lt_succ_of_le (length_le_data es))

/-- **A table file is the list of its entries**, if all of them fit. -/
theorem openTable_writeSorted (h : ∀ e ∈ es, e.Fits) {file : Bytes}
    (hw : writeSorted es = some file) :
    ∃ t, openTable file = .ok t ∧ (∀ key, t.get key = .ok (tableGet es key)) ∧
      t.iterate = .ok es := by
  unfold writeSorted at hw
  split at hw
  · next hsize =>
    cases hw
    have hlen := length_tableBytes es
    have hdata : (es.flatMap encodeEntry).length < 2 ^ 63 := by omega
    have hcount : es.length < 2 ^ 63 := (length_le_data es).trans_lt hdata
    exact ⟨tableOf es, openWithin_tableBytes (fun e he => (h e he).key) hsize
        ⟨by omega, Memory.allows_unlimited _⟩ (Memory.allows_unlimited _),
      get_tableOf h hdata, iterateWithin_tableOf h hdata ⟨hcount, Memory.allows_unlimited _⟩⟩
  · cases hw

theorem Record.Storable.fits (h : r.Storable) (hseq : r.seq < 2 ^ 64) : r.Fits :=
  ⟨hseq, h.2.1, h.2.2, h.1.1, h.1.2.1, h.1.2.2⟩

theorem TableEntry.Storable.fits {x : TableEntry} (h : x.Storable) (hv : x.version < 2 ^ 64) :
    x.Fits := by
  obtain ⟨⟨hkey, hcons, hlen⟩, hexp⟩ := h
  exact ⟨hkey, hcons, hexp, hv, by omega⟩

/-- **The lists of a disk are what a reader finds in its bytes**, if nothing on it is longer than
the length fields allow and its numbers have at most 64 bits. -/
theorem Disk.Fits.reads_back {d : Disk} (h : d.Fits) (hseq : ∀ r ∈ d.wal, r.seq < 2 ^ 64)
    (hver : ∀ st ∈ d.tables, ∀ x ∈ st.2, x.version < 2 ^ 64) :
    readAll (walCodec.frames d.wal) = d.wal ∧
      ∀ st ∈ d.tables, ∀ file, writeSorted st.2 = some file →
        ∃ t, openTable file = .ok t ∧ (∀ key, t.get key = .ok (tableGet st.2 key)) ∧
          t.iterate = .ok st.2 :=
  ⟨readAll_frames fun r hr => (h.wal r hr).fits (hseq r hr), fun st hst _ hw =>
    openTable_writeSorted (fun x hx => (h.tables st hst x hx).fits (hver st hst x hx)) hw⟩

/-! ### Puts -/

/-- The policies that the handlers of `PUT` accept. -/
inductive Consistency where
  | strong
  | eventual
  | critical
  deriving DecidableEq, Repr

def Consistency.bytes : Consistency → Bytes
  | .strong => [83, 84, 82, 79, 78, 71]
  | .eventual => [69, 86, 69, 78, 84, 85, 65, 76]
  | .critical => [67, 82, 73, 84, 73, 67, 65, 76]

/-- A call of `Put`, with the reading of the clock it is made at. -/
structure PutCall where
  now : ℤ
  key : Key
  value : Bytes
  consistency : Consistency
  ttl : ℤ
  deriving DecidableEq, Repr

def PutCall.request (p : PutCall) : Request :=
  .put p.now p.key p.value p.consistency.bytes p.ttl

/-- Key and value are within the length fields of the log. -/
def PutCall.Fits (p : PutCall) : Prop :=
  p.key.length < 2 ^ 16 ∧ 32 + p.key.length + p.consistency.bytes.length + p.value.length < 2 ^ 32

theorem Consistency.length_bytes_lt (c : Consistency) : c.bytes.length < 2 ^ 8 := by
  cases c <;> decide

/-- The record of a call fits exactly when key and value do. -/
theorem PutCall.record_fits_iff (p : PutCall) {seq : ℕ} (hseq : seq < 2 ^ 64) :
    (p.request.op seq).record.Fits ↔ p.Fits := by
  refine ⟨fun h => ⟨h.key, h.payload⟩, fun h => ?_⟩
  refine ⟨hseq, fitsInt64_wrap64 _, ?_, h.1, p.consistency.length_bytes_lt, h.2⟩
  exact fitsInt64_unixNano _

/-- What a flush writes of a call that fits. -/
theorem PutCall.Fits.tableEntry {p : PutCall} (h : p.Fits) {seq : ℕ} (hseq : seq < 2 ^ 64) :
    (toSSTableEntry p.key (p.request.op seq).entry).Fits := by
  refine ⟨h.1, p.consistency.length_bytes_lt, fitsInt64_unixNano _, hseq, ?_⟩
  have := h.2
  change p.value.length < 2 ^ 32
  omega

/-- Calls are numbered from `nextSeq` on. -/
theorem Engine.enqueue_getElem? (rs : List Request) : ∀ (e : Engine) (i : ℕ),
    (e.enqueue rs).2[i]? = rs[i]?.map (Request.op (e.nextSeq + i)) := by
  induction rs with
  | nil => intro e i; rfl
  | cons r rs ih =>
    intro e i
    cases i with
    | zero => rfl
    | succ i =>
      have hrest := ih { e with nextSeq := e.nextSeq + 1 } i
      rw [Engine.enqueue, List.getElem?_cons_succ, List.getElem?_cons_succ, hrest]
      congr 2
      dsimp only
      omega

/-- A flush writes the memtable down, one entry per key. -/
theorem tableGet_flushedEntries (m : EntryMap) (k : Key) :
    tableGet (Engine.flushedEntries m) k = (layerOf m k).map (toSSTableEntry k) := by
  have hpairs : (Engine.flushedEntries m).map (fun te => (te.key, te)) =
      (m.keys.insertionSort (· ≤ ·)).filterMap
        fun k => ((layerOf m k).map (toSSTableEntry k)).map fun te => (k, te) := by
    unfold Engine.flushedEntries
    rw [List.map_filterMap]
    congr 1
    funext k
    change Option.map _ (Option.map _ (layerOf m k)) = _
    cases layerOf m k <;> rfl
  rw [tableGet_eq_writes, hpairs,
    writes_copy (fun k => (layerOf m k).map (toSSTableEntry k)), Option.or_none]
  split
  · rfl
  · next hk =>
    rw [(List.perm_insertionSort (· ≤ ·) m.keys).mem_iff, mem_keys_iff,
      Option.not_isSome_iff_eq_none] at hk
    rw [hk, Option.map_none]

/-- Batches that are all acknowledged, one after the other; `none` if one is not. -/
def Writer.appendAll (w : Writer) : List (List Record × WriteOutcome) → Option Writer
  | [] => some w
  | (records, out) :: batches =>
    match w.appendBatch records out with
    | (w, true) => w.appendAll batches
    | (_, false) => none

theorem appendAll_file (batches : List (List Record × WriteOutcome)) : ∀ {w w' : Writer},
    w.appendAll batches = some w' →
      w'.file = w.file ++ walCodec.frames (batches.flatMap Prod.fst) := by
  induction batches with
  | nil =>
    intro w w' h
    cases h
    exact (List.append_nil _).symm
  | cons b batches ih =>
    intro w w' h
    obtain ⟨records, out⟩ := b
    rw [Writer.appendAll] at h
    cases hb : w.appendBatch records out with
    | mk w₁ ok =>
      rw [hb] at h
      cases ok with
      | false => cases h
      | true =>
        rw [ih h, appendBatch_acknowledged hb, List.flatMap_cons, walCodec.frames_append,
          List.append_assoc]

/-- What the calls of `Put` enqueue, one after the other. -/
def Engine.putOps (e : Engine) (puts : List PutCall) : List EngineOp :=
  (e.enqueue (puts.map PutCall.request)).2

theorem Engine.mem_putOps_iff {e : Engine} {puts : List PutCall} {op : EngineOp} :
    op ∈ e.putOps puts ↔
      ∃ (i : ℕ) (p : PutCall), puts[i]? = some p ∧ op = p.request.op (e.nextSeq + i) := by
  simp only [Engine.putOps, List.mem_iff_getElem?, Engine.enqueue_getElem?, List.getElem?_map,
    Option.map_map, Option.map_eq_some_iff, Function.comp_apply]
  exact exists_congr fun i => exists_congr fun p => and_congr_right fun _ => eq_comm

/-- **The calls of `Put` since the last flush survive**: each record is decoded as it was encoded,
the log is read back in full once every batch is acknowledged, and once the memtable has been
flushed, the table opens and has every entry under its key. -/
structure Engine.Survives (e : Engine) (puts : List PutCall) : Prop where
  decoded : ∀ op ∈ e.putOps puts,
    decode (encode op.record) = .ok (op.record, (encode op.record).length)
  replayed : ∀ batches w, batches.flatMap Prod.fst = (e.putOps puts).map EngineOp.record →
    (openWriter []).appendAll batches = some w →
      readAll w.file = (e.putOps puts).map EngineOp.record
  flushed : ∀ file,
    writeSorted (Engine.flushedEntries (e.applyAll (e.putOps puts)).memtable) = some file →
      ∃ t, openTable file = .ok t ∧
        ∀ te ∈ Engine.flushedEntries (e.applyAll (e.putOps puts)).memtable,
          t.get te.key = .ok (some te)

/-- **Every accepted write survives exactly when every key is shorter than 65536 bytes and no
payload has 4 GiB or more.** Sequence numbers are 64 bits wide. -/
theorem puts_survive_iff (e : Engine) (puts : List PutCall) (hmem : e.memtable = ∅)
    (hseq : e.nextSeq + puts.length ≤ 2 ^ 64) : e.Survives puts ↔ ∀ p ∈ puts, p.Fits := by
  have hnumber : ∀ {i : ℕ} {p : PutCall}, puts[i]? = some p → e.nextSeq + i < 2 ^ 64 := by
    intro i p hp
    have := (List.getElem?_eq_some_iff.mp hp).1
    omega
  constructor
  · intro h p hp
    -- one batch of all records, read back
    have hread := h.replayed [((e.putOps puts).map EngineOp.record, .done)] _
      (by rw [List.flatMap_singleton]) rfl
    obtain ⟨i, hi⟩ := List.mem_iff_getElem?.mp hp
    have hop : (p.request.op (e.nextSeq + i)).record ∈ (e.putOps puts).map EngineOp.record :=
      List.mem_map_of_mem (Engine.mem_putOps_iff.mpr ⟨i, p, hi, rfl⟩)
    rw [← hread] at hop
    exact (p.record_fits_iff (hnumber hi)).mp (readAll_fits hop)
  · intro h
    have hrecord : ∀ op ∈ e.putOps puts, op.record.Fits := by
      intro op hop
      obtain ⟨i, p, hi, rfl⟩ := Engine.mem_putOps_iff.mp hop
      exact (p.record_fits_iff (hnumber hi)).mpr (h p (List.mem_of_getElem? hi))
    refine ⟨fun op hop => ?_, fun batches w hb hw => ?_, fun file hf => ?_⟩
    · simpa using decode_encode (hrecord op hop) []
    · rw [appendAll_file batches hw, hb]
      exact readAll_frames (List.forall_mem_map.mpr hrecord)
    · -- every entry of the memtable is that of a call
      have hlayer := (applyAll_spec (e.putOps puts) e).1
      rw [hmem, layerOf_empty] at hlayer
      have hfits : ∀ te ∈ Engine.flushedEntries (e.applyAll (e.putOps puts)).memtable, te.Fits := by
        intro te hte
        obtain ⟨x, hx, heq⟩ := exists_of_mem_flushedEntries hte
        rw [hlayer] at hx
        obtain ⟨op, hop, hw⟩ := List.mem_map.mp ((eq_some_of_writes hx).resolve_left (by simp))
        obtain ⟨i, p, hi, rfl⟩ := Engine.mem_putOps_iff.mp hop
        obtain ⟨hk, rfl⟩ := Prod.mk.inj hw
        rw [heq, ← hk]
        exact (h p (List.mem_of_getElem? hi)).tableEntry (hnumber hi)
      obtain ⟨t, ht, hget, -⟩ := openTable_writeSorted hfits hf
      refine ⟨t, ht, fun te hte => ?_⟩
      obtain ⟨x, hx, heq⟩ := exists_of_mem_flushedEntries hte
      rw [hget, tableGet_flushedEntries, hx, Option.map_some, ← heq]

/-- Two calls for one key and one for another, with a TTL. -/
theorem puts_survive_on_new_engine : (openEngine .empty ⟨0, 4⟩).Survives
      [⟨5, [97], [1], .strong, 0⟩, ⟨6, [98], [2, 3], .eventual, 10⟩, ⟨7, [97], [], .critical, 0⟩] :=
  (puts_survive_iff _ _ rfl (by decide)).mpr (by simp [PutCall.Fits, Consistency.bytes])

/-- A round of the loop that leaves nothing that could be parsed. -/
theorem parseIndex_none_append {x key y rest : Bytes} (hx : x.length = 2)
    (hkey : key.length = ofBigEndian x) (hy : y.length = 8)
    (hrest : ∀ fuel, parseIndex fuel rest = none) (fuel : ℕ) :
    parseIndex fuel (x ++ (key ++ (y ++ rest))) = none := by
  cases fuel with
  | zero => rfl
  | succ fuel => rw [parseIndex_append hx hkey hy, hrest, Option.map_none]

/-- A key of 65536 letters `a` is announced as an empty one. Its letters are taken for the offset of
that, and then for two more entries with keys of `0x6161` letters, and too few are left for a
third. -/
theorem parseIndex_of_long_key {key : Key} (hkey : key = List.replicate 65536 97) {off : Bytes}
    (hoff : off.length = 8) (fuel : ℕ) :
    parseIndex fuel (bigEndian 2 key.length ++ (key ++ off)) = none := by
  have hlen : bigEndian 2 key.length = [0, 0] := by
    rw [hkey, List.length_replicate]
    decide
  have hletters : key = List.replicate 8 97 ++ (List.replicate 2 97 ++ (List.replicate 24929 97 ++
      (List.replicate 8 97 ++ (List.replicate 2 97 ++ (List.replicate 24929 97 ++
        (List.replicate 8 97 ++ (List.replicate 2 97 ++ List.replicate 15648 97))))))) := by
    simp only [hkey, List.replicate_append_replicate]
  have htwo : ofBigEndian (List.replicate 2 97) = 24929 := by decide
  have hround : ∀ {rest : Bytes}, (∀ fuel, parseIndex fuel rest = none) → ∀ fuel,
      parseIndex fuel (List.replicate 2 97 ++ (List.replicate 24929 97 ++
        (List.replicate 8 97 ++ rest))) = none := fun hrest =>
    parseIndex_none_append rfl (by rw [htwo, List.length_replicate]) rfl hrest
  have hlast : ∀ fuel, parseIndex fuel (List.replicate 2 97 ++
      (List.replicate 15648 97 ++ off)) = none := parseIndex_of_short rfl (by
    rw [htwo, List.length_append, List.length_replicate, hoff]
    decide)
  rw [hlen, hletters]
  simp only [List.append_assoc]
  rw [← List.nil_append (List.replicate 8 97 ++ _)]
  exact parseIndex_none_append rfl (by decide) rfl (hround (hround hlast)) fuel

/-- A key whose length field is that of an empty one is misread: its first byte is taken for the
length of the consistency, and what comes after that many bytes for the length of the value. If that
is more than what is left, the record is corrupt. -/
theorem decodePayload_of_wrapped_key (hseq : r.seq < 2 ^ 64)
    (hlen : bigEndian 2 r.key.length = bigEndian 2 0) {b : UInt8} {cons rest : Bytes} {n : ℕ}
    (hkey : r.key = [b] ++ (cons ++ (bigEndian 4 n ++ rest))) (hcons : cons.length = b.toNat)
    (hn : n < 256 ^ 4) (hlong : rest.length + r.consistency.length + r.value.length + 5 < n) :
    decodePayload (recordPayload r) = none := by
  have hts : toUint64 r.timestamp < 256 ^ 8 := toUint64_lt r.timestamp
  have hexp : toUint64 r.expiresAtUnixNano < 256 ^ 8 := toUint64_lt r.expiresAtUnixNano
  have hzero : ∀ bs : Bytes, readFull 0 bs = some ([], bs) := fun bs => rfl
  have hrest : readFull n (rest ++ (bigEndian 1 r.consistency.length ++ (r.consistency ++
      (bigEndian 4 r.value.length ++ r.value)))) = none := by
    rw [readFull, if_pos]
    simp only [List.length_append, length_bigEndian]
    omega
  unfold decodePayload recordPayload
  rw [hlen, hkey]
  simp only [List.append_assoc]
  simp only [readUint_append (k := 8) hseq, readUint_byte, readUint_append hts,
    readUint_append hexp, readUint_append (k := 2) (n := 0) (by decide), hzero,
    readFull_append hcons, readUint_append hn, Option.bind_eq_bind, Option.bind_some]
  rw [hrest, Option.bind_none]

/-- A key of 65536 bytes `a`. -/
theorem decodePayload_of_long_key (hseq : r.seq < 2 ^ 64) (hkey : r.key = List.replicate 65536 97)
    (hshort : r.consistency.length + r.value.length < 256) :
    decodePayload (recordPayload r) = none := by
  have hbytes : List.replicate 65536 97 = [97] ++ (List.replicate 97 97 ++
      (bigEndian 4 0x61616161 ++ List.replicate 65434 97)) := by
    rw [show bigEndian 4 0x61616161 = List.replicate 4 97 by decide,
      show ([97] : Bytes) = List.replicate 1 97 from rfl, List.replicate_append_replicate,
      List.replicate_append_replicate, List.replicate_append_replicate]
  refine decodePayload_of_wrapped_key hseq ?_ (hkey.trans hbytes) List.length_replicate
    (by decide) ?_
  · rw [hkey, List.length_replicate]
    decide
  · rw [List.length_replicate]
    omega

theorem readAll_of_corrupt {file : Bytes} {err : FrameError} (h : decode file = .error err) :
    readAll file = [] := by
  have hnone : walCodec.decode file = none := by
    change (decode file).toOption = none
    rw [h]
    rfl
  rw [readAll, Codec.scan, hnone]

/-- A `Put` under a key of 65536 bytes, and one under the key `b`. -/
def longKeyPuts : List PutCall :=
  [⟨0, List.replicate 65536 97, [1], .strong, 0⟩, ⟨0, [98], [2], .strong, 0⟩]

/-- **One key of 65536 bytes makes the log unreadable.** Both calls are acknowledged and the second
record is a good one, but replay returns nothing. -/
theorem long_key_loses_log : ∃ (r₁ r₂ : Record) (w : Writer),
      ((openEngine .empty ⟨0, 4⟩).putOps longKeyPuts).map EngineOp.record = [r₁, r₂] ∧
      (openWriter []).appendAll [([r₁], .done), ([r₂], .done)] = some w ∧
      decode (encode r₂) = .ok (r₂, (encode r₂).length) ∧ readAll w.file = [] ∧
      ¬ (openEngine .empty ⟨0, 4⟩).Survives longKeyPuts := by
  -- the long key is a variable from here on, so that nothing computes with it
  obtain ⟨key, hkey⟩ : ∃ key : Key, key = List.replicate 65536 97 := ⟨_, rfl⟩
  rw [longKeyPuts, ← hkey]
  obtain ⟨r₁, hr₁⟩ : ∃ r : Record, r = ⟨1, opSet, 0, 0, key, Consistency.strong.bytes, [1]⟩ :=
    ⟨_, rfl⟩
  obtain ⟨r₂, hr₂⟩ : ∃ r : Record, r = ⟨2, opSet, 0, 0, [98], Consistency.strong.bytes, [2]⟩ :=
    ⟨_, rfl⟩
  have hops : ((openEngine .empty ⟨0, 4⟩).putOps [⟨0, key, [1], .strong, 0⟩,
      ⟨0, [98], [2], .strong, 0⟩]).map EngineOp.record = [r₁, r₂] := by
    rw [hr₁, hr₂]
    rfl
  have hr₁key : r₁.key = List.replicate 65536 97 := by rw [hr₁, ← hkey]
  have hcons : r₁.consistency.length = 6 := by rw [hr₁]; rfl
  have hval : r₁.value.length = 1 := by rw [hr₁]; rfl
  have hseq : r₁.seq = 1 := by rw [hr₁]
  have hfits : r₂.Fits := by rw [hr₂]; decide
  have hcorrupt : ∀ rest, decode (encode r₁ ++ rest) = .error .corrupt := by
    intro rest
    have hlen : (recordPayload r₁).length < 256 ^ 4 := by
      rw [length_recordPayload, hr₁key, List.length_replicate, hcons, hval]
      decide
    rw [decode, encode, readFrame_frame crc32 hlen]
    dsimp only
    rw [decodePayload_of_long_key (by omega) hr₁key (by omega)]
  have hread : readAll ([] ++ walCodec.frames [r₁] ++ walCodec.frames [r₂]) = [] := by
    rw [List.nil_append, walCodec.frames_cons, List.append_assoc]
    exact readAll_of_corrupt (hcorrupt _)
  refine ⟨r₁, r₂, ⟨[] ++ walCodec.frames [r₁] ++ walCodec.frames [r₂]⟩, hops, rfl, ?_, hread,
    fun h => ?_⟩
  · simpa using decode_encode hfits []
  · have hall := h.replayed [([r₁], .done), ([r₂], .done)] _ hops.symm rfl
    rw [hops] at hall
    cases hread.symm.trans hall

end Storage
end BoilerPulse
