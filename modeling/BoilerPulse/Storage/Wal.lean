import BoilerPulse.Framework.Checksum
import BoilerPulse.Storage.Types

/-!
# Storage: the write-ahead log

The package `wal`, byte for byte: the codec of its records (`record.go`), the writer
(`writer.go`) and the replay (`reader.go`). A record is framed like an entry of the Raft log, as
length, payload and checksum, so the file is a `Framework.Codec` of records.

The codec cuts the lengths of key, consistency and value down to 16, 8 and 32 bits, and that of
the payload to 32; `Record.Fits` are the records that lose nothing by it, and every
record that can be decoded is one of them (`decode_fits`).

`OpenWriter` opens the file for appending and leaves its content alone. `ReadAll` stops at the
first frame it cannot read. What an interrupted write has left at the end of the file
therefore stays in front of everything appended later; what becomes of that is said at the end, and
the same of bytes that are damaged on the disk.
-/

namespace BoilerPulse
namespace Storage

variable {r : Record} {bs : Bytes} {size : ℕ} {tail : Bytes}

open Framework

/-! ### Records (`record.go`) -/

/-- One durable mutation. Expiry `0` means none. -/
structure Record where
  seq : ℕ
  op : UInt8
  timestamp : ℤ
  expiresAtUnixNano : ℤ
  key : Bytes
  consistency : Bytes
  value : Bytes
  deriving DecidableEq, Repr

def opSet : UInt8 := 1

def opDelete : UInt8 := 2

/-- The records that the fields of the format can hold. -/
structure Record.Fits (r : Record) : Prop where
  seq : r.seq < 2 ^ 64
  timestamp : FitsInt64 r.timestamp
  expiresAt : FitsInt64 r.expiresAtUnixNano
  key : r.key.length < 2 ^ 16
  consistency : r.consistency.length < 2 ^ 8
  payload : 32 + r.key.length + r.consistency.length + r.value.length < 2 ^ 32

instance Record.Fits.decidable (r : Record) : Decidable r.Fits :=
  decidable_of_iff (r.seq < 2 ^ 64 ∧ FitsInt64 r.timestamp ∧ FitsInt64 r.expiresAtUnixNano ∧
      r.key.length < 2 ^ 16 ∧ r.consistency.length < 2 ^ 8 ∧
      32 + r.key.length + r.consistency.length + r.value.length < 2 ^ 32)
    ⟨fun ⟨h₁, h₂, h₃, h₄, h₅, h₆⟩ => ⟨h₁, h₂, h₃, h₄, h₅, h₆⟩,
      fun ⟨h₁, h₂, h₃, h₄, h₅, h₆⟩ => ⟨h₁, h₂, h₃, h₄, h₅, h₆⟩⟩

/-- The payload of a frame. -/
def recordPayload (r : Record) : Bytes :=
  bigEndian 8 r.seq ++ ([r.op] ++ (bigEndian 8 (toUint64 r.timestamp) ++
    (bigEndian 8 (toUint64 r.expiresAtUnixNano) ++ (bigEndian 2 r.key.length ++ (r.key ++
        (bigEndian 1 r.consistency.length ++ (r.consistency ++
          (bigEndian 4 r.value.length ++ r.value))))))))

def encode (r : Record) : Bytes :=
  frame crc32 (recordPayload r)

/-- Read the fields back in the order they were written. Bytes left over are ignored. -/
def decodePayload (payload : Bytes) : Option Record := do
  let (seq, buf) ← readUint 8 payload
  let (op, buf) ← readUint 1 buf
  let (timestamp, buf) ← readUint 8 buf
  let (expiresAt, buf) ← readUint 8 buf
  let (keyLen, buf) ← readUint 2 buf
  let (key, buf) ← readFull keyLen buf
  let (consLen, buf) ← readUint 1 buf
  let (cons, buf) ← readFull consLen buf
  let (valueLen, buf) ← readUint 4 buf
  let (value, _) ← readFull valueLen buf
  return ⟨seq, UInt8.ofNat op, wrap64 timestamp, wrap64 expiresAt, key, cons, value⟩

/-- The first record and the size of its frame. -/
def decode (bs : Bytes) : Except FrameError (Record × ℕ) :=
  match readFrame crc32 bs with
  | .error err => .error err
  | .ok payload =>
    match decodePayload payload with
    | none => .error .corrupt
    | some r => .ok (r, 4 + payload.length + 4)

theorem length_recordPayload (r : Record) :
    (recordPayload r).length = 32 + r.key.length + r.consistency.length + r.value.length := by
  simp only [recordPayload, List.length_append, length_bigEndian, List.length_singleton]
  omega

theorem readUint_byte (b : UInt8) (rest : Bytes) :
    readUint 1 ([b] ++ rest) = some (b.toNat, rest) := by
  rw [readUint, readFull_append (by rfl)]
  simp [ofBigEndian]

theorem decodePayload_recordPayload (h : r.Fits) :
    decodePayload (recordPayload r) = some r := by
  have hts : toUint64 r.timestamp < 256 ^ 8 := toUint64_lt r.timestamp
  have hexp : toUint64 r.expiresAtUnixNano < 256 ^ 8 := toUint64_lt r.expiresAtUnixNano
  have hkey : r.key.length < 256 ^ 2 := h.key
  have hcons : r.consistency.length < 256 ^ 1 := h.consistency
  have hval : r.value.length < 256 ^ 4 := by have := h.payload; omega
  have hend : readFull r.value.length r.value = some (r.value, []) := by
    simpa using readFull_append (rfl : r.value.length = _) []
  unfold decodePayload recordPayload
  simp only [readUint_append (k := 8) h.seq, readUint_byte, readUint_append hts,
    readUint_append hexp, readUint_append hkey, readUint_append hcons, readUint_append hval,
    readFull_append rfl, hend, Option.bind_eq_bind, Option.bind_some]
  simp [wrap64_toUint64 h.timestamp, wrap64_toUint64 h.expiresAt]

theorem decode_encode (h : r.Fits) (rest : Bytes) :
    decode (encode r ++ rest) = .ok (r, (encode r).length) := by
  have hlen : (recordPayload r).length < 256 ^ 4 := by
    rw [length_recordPayload]
    exact h.payload
  unfold decode encode
  rw [readFrame_frame crc32 hlen, length_frame]
  simp only
  rw [decodePayload_recordPayload h]

/-- What can be decoded: the fields are as long as their length fields say, the payload is at
least as long as all of them, and it starts with the sequence number. -/
theorem decodePayload_eq_some {payload : Bytes} (h : decodePayload payload = some r) :
    (∃ s rest, payload = s ++ rest ∧ s.length = 8 ∧ r.seq = ofBigEndian s) ∧
      FitsInt64 r.timestamp ∧ FitsInt64 r.expiresAtUnixNano ∧ r.key.length < 2 ^ 16 ∧
      r.consistency.length < 2 ^ 8 ∧
      32 + r.key.length + r.consistency.length + r.value.length ≤ payload.length := by
  unfold decodePayload at h
  simp only [Option.bind_eq_bind, Option.bind_eq_some_iff, Prod.exists] at h
  obtain ⟨seq, b₁, hseq, op, b₂, hop, ts, b₃, hts, ex, b₄, hex, kl, b₅, hkl, key, b₆, hkey, cl, b₇,
    hcl, cons, b₈, hcons, vl, b₉, hvl, value, b₁₀, hvalue, hr⟩ := h
  -- field by field: each reader has taken as many bytes as it was asked for
  obtain ⟨xs, rfl, hxs, rfl⟩ := readUint_eq_some hseq
  obtain ⟨xo, rfl, hxo, rfl⟩ := readUint_eq_some hop
  obtain ⟨xt, rfl, hxt, rfl⟩ := readUint_eq_some hts
  obtain ⟨xe, rfl, hxe, rfl⟩ := readUint_eq_some hex
  obtain ⟨xk, rfl, hxk, rfl⟩ := readUint_eq_some hkl
  obtain ⟨rfl, hklen⟩ := readFull_eq_some hkey
  obtain ⟨xc, rfl, hxc, rfl⟩ := readUint_eq_some hcl
  obtain ⟨rfl, hclen⟩ := readFull_eq_some hcons
  obtain ⟨xv, rfl, hxv, rfl⟩ := readUint_eq_some hvl
  obtain ⟨rfl, -⟩ := readFull_eq_some hvalue
  cases hr
  have hkbound := ofBigEndian_lt xk
  have hcbound := ofBigEndian_lt xc
  rw [hxk] at hkbound
  rw [hxc] at hcbound
  dsimp only
  refine ⟨⟨xs, _, rfl, hxs, rfl⟩, fitsInt64_wrap64 _, fitsInt64_wrap64 _, ?_, ?_, ?_⟩
  · rw [hklen]; exact hkbound
  · rw [hclen]; exact hcbound
  · simp only [List.length_append]
    omega

/-- What the first frame of a file that decodes looks like. -/
theorem decode_eq_ok (h : decode bs = .ok (r, size)) :
    ∃ header payload rest, bs = header ++ (payload ++ rest) ∧ header.length = 4 ∧
      payload.length = ofBigEndian header ∧ decodePayload payload = some r := by
  unfold decode at h
  cases hf : readFrame crc32 bs with
  | error err => rw [hf] at h; cases h
  | ok payload =>
    rw [hf] at h
    simp only at h
    cases hd : decodePayload payload with
    | none => rw [hd] at h; cases h
    | some r' =>
      rw [hd] at h
      obtain ⟨rfl, -⟩ := Prod.mk.inj (Except.ok.inj h)
      obtain ⟨header, rest, hbs, hheader, hlen⟩ := readFrame_eq_ok crc32 hf
      exact ⟨header, payload, rest, hbs, hheader, hlen, hd⟩

/-- Nothing is decoded that the format could not hold. -/
theorem decode_fits (h : decode bs = .ok (r, size)) :
    r.Fits := by
  obtain ⟨header, payload, rest, -, hheader, hlen, hd⟩ := decode_eq_ok h
  obtain ⟨⟨s, _, -, hs, hseq⟩, hts, hexp, hkey, hcons, hsize⟩ := decodePayload_eq_some hd
  have hbound := ofBigEndian_lt header
  have hsbound := ofBigEndian_lt s
  rw [hheader] at hbound
  rw [hs] at hsbound
  exact ⟨hseq ▸ hsbound, hts, hexp, hkey, hcons, by omega⟩

/-- The sequence number of the first record is read from the bytes after the header. -/
theorem seq_of_decode (h : decode bs = .ok (r, size)) :
    r.seq = ofBigEndian ((bs.drop 4).take 8) := by
  obtain ⟨header, payload, rest, rfl, hheader, -, hd⟩ := decode_eq_ok h
  obtain ⟨⟨s, rest', rfl, hs, hseq⟩, -⟩ := decodePayload_eq_some hd
  rw [List.drop_append_of_le_length (by omega), List.drop_of_length_le (by omega),
    List.nil_append, List.append_assoc, List.take_append_of_le_length (by omega),
    List.take_of_length_le (by omega), hseq]

/-- The log file as a file of framed records. -/
def walCodec : Codec Record where
  encode := encode
  decode bs := (decode bs).toOption
  Valid := Record.Fits
  decode_nil := rfl
  decode_encode r h rest := by rw [decode_encode h]; rfl
  encode_pos r := by rw [encode, length_frame]; omega

/-- A frame that is cut off is not decoded. -/
theorem walCodec_cutsOff : walCodec.CutsOff := by
  intro r hr n hn
  have hlen : (recordPayload r).length < 256 ^ 4 := by
    rw [length_recordPayload]
    exact hr.payload
  show (decode ((encode r).take n)).toOption = none
  rw [decode, encode, readFrame_take crc32 hlen hn]
  rfl

theorem walCodec_decode_eq_some (h : walCodec.decode bs = some (r, size))
    : decode bs = .ok (r, size) := by
  change (decode bs).toOption = _ at h
  cases hd : decode bs with
  | error err => rw [hd] at h; cases h
  | ok x => rw [hd] at h; rw [Option.some.inj h]

/-! ### Replay (`reader.go`) -/

/-- The records of the file up to the first frame that cannot be read. A file that does not exist
is an empty one. -/
def readAll (file : Bytes) : List Record :=
  (walCodec.scan (file.length + 1) 0 file).1

theorem readAll_fits {file : Bytes} (h : r ∈ readAll file) : r.Fits := by
  obtain ⟨bs, size, hd⟩ := walCodec.decode_of_mem_scan h
  exact decode_fits (walCodec_decode_eq_some hd)

theorem readAll_frames {rs : List Record} (h : ∀ r ∈ rs, r.Fits) :
    readAll (walCodec.frames rs) = rs := by
  unfold readAll
  rw [walCodec.scan_frames h 0 (Nat.lt_succ_of_le (walCodec.length_le_frames rs))]

/-- **Replay of a log that is cut off** returns the records whose frames are whole. -/
theorem readAll_take {rs : List Record} (h : ∀ r ∈ rs, r.Fits) (n : ℕ) :
    readAll ((walCodec.frames rs).take n) = rs.take (walCodec.whole n rs) := by
  rw [readAll, walCodec.scan_take walCodec_cutsOff h n 0 (Nat.lt_succ_self _)]

/-- If complete frames are followed by bytes after which exactly `rs'` is read, the first of these
is decoded from those bytes. -/
theorem decode_of_readAll_append {rs rs' : List Record} (hrs : ∀ r ∈ rs, r.Fits)
    (h : readAll (walCodec.frames rs ++ tail) = rs ++ r :: rs') :
    ∃ size, decode tail = .ok (r, size) := by
  have hfuel : rs.length ≤ (walCodec.frames rs ++ tail).length + 1 := by
    have := walCodec.length_le_frames rs
    rw [List.length_append]
    omega
  obtain ⟨off, hscan⟩ := walCodec.scan_frames_append hrs tail 0 hfuel
  rw [readAll, hscan] at h
  obtain ⟨size, hd⟩ := walCodec.decode_of_scan_eq_cons (List.append_cancel_left h)
  exact ⟨size, walCodec_decode_eq_some hd⟩

/-! ### The writer (`writer.go`) -/

/-- An open log: what the file holds. Every write goes to its end. -/
structure Writer where
  file : Bytes
  deriving DecidableEq, Repr

/-- `OpenWriter`: `O_CREATE|O_RDWR|O_APPEND`, so the content stays as it is. -/
def openWriter (file : Bytes) : Writer :=
  ⟨file⟩

/-- What the operating system makes of a batch: every write and the sync succeed, the write of
record `i` fails after `n` bytes of its frame, or the sync fails. -/
inductive WriteOutcome where
  | done
  | writeFails (i n : ℕ)
  | syncFails
  deriving DecidableEq, Repr

/-- `AppendBatch`, and whether it returns without error. -/
def Writer.appendBatch (w : Writer) (records : List Record) : WriteOutcome → Writer × Bool
  | .done => (⟨w.file ++ walCodec.frames records⟩, true)
  | .syncFails => (⟨w.file ++ walCodec.frames records⟩, records.isEmpty)
  | .writeFails i n =>
    match records[i]? with
    | none => (⟨w.file ++ walCodec.frames records⟩, true)
    | some r => (⟨w.file ++ (walCodec.frames (records.take i) ++ (encode r).take n)⟩, false)

/-- `Append` is a batch of one. -/
def Writer.append (w : Writer) (r : Record) (out : WriteOutcome) : Writer × Bool :=
  w.appendBatch [r] out

/-- `Reset` truncates the file. -/
def Writer.reset (_w : Writer) : Writer :=
  ⟨[]⟩

/-- A batch that is acknowledged is in the file, after everything that was there. -/
theorem appendBatch_acknowledged {w w' : Writer} {records : List Record} {out : WriteOutcome}
    (h : w.appendBatch records out = (w', true)) : w'.file = w.file ++ walCodec.frames records := by
  cases out with
  | done | syncFails => exact congrArg Writer.file (Prod.mk.inj h).1.symm
  | writeFails i n =>
    unfold Writer.appendBatch at h
    cases hi : records[i]? with
    | none => simp only [hi] at h; exact congrArg Writer.file (Prod.mk.inj h).1.symm
    | some r => simp only [hi] at h; exact absurd (Prod.mk.inj h).2 (by simp)

/-! ### Torn frames -/

/-- What an interrupted write leaves of a frame: a strict prefix of it. -/
def TornFrame (tail : Bytes) : Prop :=
  ∃ r, tail <+: encode r ∧ tail.length < (encode r).length

/-- A record with nothing but a sequence number. -/
def emptyRecord (seq : ℕ) : Record :=
  ⟨seq, opSet, 0, 0, [], [], []⟩

theorem emptyRecord_fits {seq : ℕ} (h : seq < 2 ^ 64) : (emptyRecord seq).Fits :=
  ⟨h, by simp [emptyRecord, FitsInt64], by simp [emptyRecord, FitsInt64], by simp [emptyRecord],
    by simp [emptyRecord], by simp [emptyRecord]⟩

/-- Behind more than the header of a torn frame, a record is not read as it was written: the torn
frame has its own first byte of a sequence number. -/
theorem exists_misread_of_long_tail (h : 4 < tail.length) :
    ∃ r : Record, r.Fits ∧ ∀ size, decode (tail ++ encode r) ≠ .ok (r, size) := by
  obtain ⟨header, hheader, b, rest, rfl⟩ : ∃ header : Bytes, header.length = 4 ∧
      ∃ b rest, tail = header ++ b :: rest := by
    refine ⟨tail.take 4, by rw [List.length_take]; omega, ?_⟩
    cases hd : tail.drop 4 with
    | nil =>
      have := congrArg List.length hd
      rw [List.length_drop, List.length_nil] at this
      omega
    | cons b rest => exact ⟨b, rest, by rw [← hd, List.take_append_drop]⟩
  -- a sequence number whose first byte is not `b`
  refine ⟨emptyRecord (if b = 0 then 2 ^ 56 else 0), emptyRecord_fits (by split <;> decide),
    fun size hd => ?_⟩
  have hseq := seq_of_decode hd
  rw [List.append_assoc, List.drop_append_of_le_length (by omega),
    List.drop_of_length_le (by omega), List.nil_append, List.cons_append, List.take_succ_cons,
    ofBigEndian_cons] at hseq
  have hlen : (List.take 7 (rest ++ encode (emptyRecord (if b = 0 then 2 ^ 56 else 0)))).length
      = 7 := by
    rw [List.length_take, List.length_append, encode, length_frame, length_recordPayload]
    omega
  have hlow := ofBigEndian_lt
    (List.take 7 (rest ++ encode (emptyRecord (if b = 0 then 2 ^ 56 else 0))))
  rw [hlen] at hseq hlow
  by_cases hb : b = 0
  · rw [if_pos hb] at hseq hlow
    subst hb
    simp only [emptyRecord, UInt8.toNat_zero] at hseq hlow
    omega
  · have hpos : b.toNat ≠ 0 := fun h0 => hb (UInt8.toNat_inj.mp h0)
    rw [if_neg hb] at hseq hlow
    simp only [emptyRecord] at hseq
    omega

/-- Behind part of a header the same record is misread too: the last byte of its own header ends
up in its sequence number. -/
theorem misread_of_short_tail (hne : tail ≠ []) (h : tail.length ≤ 4) (size : ℕ) :
    decode (tail ++ encode (emptyRecord 0)) ≠ .ok (emptyRecord 0, size) := by
  intro hd
  have hseq := seq_of_decode hd
  have hpos : 0 < tail.length := List.length_pos_iff.mpr hne
  rw [List.drop_append, List.drop_of_length_le h, List.nil_append] at hseq
  -- what is left of the record's header when the torn one has been completed from it
  have hdrop : ∀ k < 4,
      0 ≠ ofBigEndian (((encode (emptyRecord 0)).drop k).take 8) := by decide +kernel
  exact hdrop (4 - tail.length) (by omega) hseq

/-- **Acknowledged appends are replayed exactly when nothing is left behind the last frame.** `w`
is a writer on a file that holds complete frames and then some bytes, such as a torn frame:
one that `OpenWriter` has just made, or the one whose last batch failed. -/
theorem acknowledged_replayed_iff (rs : List Record) (tail : Bytes) :
    (∀ w : Writer, w.file = walCodec.frames rs ++ tail → ∀ rs' out w', (∀ r ∈ rs', r.Fits) →
        w.appendBatch rs' out = (w', true) → readAll w'.file = rs ++ rs') ↔
      (∀ r ∈ rs, r.Fits) ∧ tail = [] := by
  constructor
  · intro hall
    have hread : ∀ rs', (∀ r ∈ rs', r.Fits) →
        readAll (walCodec.frames rs ++ (tail ++ walCodec.frames rs')) = rs ++ rs' := by
      intro rs' hrs'
      rw [← List.append_assoc]
      exact hall ⟨walCodec.frames rs ++ tail⟩ rfl rs' .done _ hrs' rfl
    have hrs : ∀ r ∈ rs, r.Fits := fun r hr =>
      readAll_fits (hread [] (by simp) ▸ List.mem_append_left [] hr)
    refine ⟨hrs, ?_⟩
    by_contra hne
    -- a record that is not decoded as it was written behind these bytes
    obtain ⟨r, hr, hmis⟩ : ∃ r : Record, r.Fits ∧
        ∀ size, decode (tail ++ encode r) ≠ .ok (r, size) := by
      by_cases hlen : 4 < tail.length
      · exact exists_misread_of_long_tail hlen
      · exact ⟨emptyRecord 0, emptyRecord_fits (by decide),
          misread_of_short_tail hne (Nat.le_of_not_lt hlen)⟩
    obtain ⟨size, hd⟩ := decode_of_readAll_append hrs (hread [r] (by simpa using hr))
    exact hmis size (by simpa [walCodec] using hd)
  · rintro ⟨hrs, rfl⟩ w hw rs' out w' hrs' hack
    rw [appendBatch_acknowledged hack, hw, List.append_nil, ← walCodec.frames_append]
    exact readAll_frames fun r hr => (List.mem_append.mp hr).elim (hrs r) (hrs' r)

/-- The second record of a file is cut off, and a third one is appended and acknowledged: replay
returns the first one only, whether the log is reopened in between or the writer that
failed goes on. -/
theorem append_behind_torn_frame_lost : ∃ (rs rs' : List Record) (tail : Bytes) (w₁ w₂ : Writer),
      (∀ r ∈ rs ++ rs', r.Fits) ∧ TornFrame tail ∧
      (openWriter (walCodec.frames rs ++ tail)).appendBatch rs' .done = (w₂, true) ∧
      (openWriter (walCodec.frames rs)).appendBatch [emptyRecord 2] (.writeFails 0 20)
        = (w₁, false) ∧
      w₁.file = walCodec.frames rs ++ tail ∧ w₁.appendBatch rs' .done = (w₂, true) ∧
      readAll w₂.file = rs ∧ readAll w₂.file ≠ rs ++ rs' := by
  refine ⟨[emptyRecord 1], [emptyRecord 3], (encode (emptyRecord 2)).take 20, _, _, ?_,
    ⟨emptyRecord 2, List.take_prefix 20 _, ?_⟩, rfl, rfl, ?_, rfl, ?_, ?_⟩ <;> decide +kernel

/-! ### Damage on the disk -/

theorem walCodec_framed : walCodec.Framed recordPayload where
  encode_eq _ := rfl
  payload_lt r hr := by rw [length_recordPayload]; exact hr.payload
  decode_of_error bs err h := by
    show (decode bs).toOption = none
    rw [decode, h]
    rfl

/-- **A damaged record is never replayed, as itself or as another.** If any bytes of one frame change
on the disk, up to four consecutive ones of its payload or any of its checksum, `ReadAll` returns
the records in front of it. What stands behind it is not replayed, whether it was written before
the damage or is appended after it. -/
theorem replay_of_damaged_log {before after : List Record} {r : Record}
    (hbefore : ∀ b ∈ before, b.Fits) (hr : r.Fits) {i k : ℕ} {file : Bytes}
    (hdamage : Damage i k (walCodec.frames (before ++ r :: after)) file)
    (hcov : Covered (walCodec.frames before).length (recordPayload r).length i k) (later : Bytes) :
    readAll (file ++ later) = before := by
  obtain ⟨rest, rfl, hrest⟩ := walCodec.frames_damaged walCodec_framed hr hdamage hcov
  have hlen := walCodec.length_le_frames before
  rw [readAll, List.append_assoc, walCodec.scan_torn hbefore (hrest later) 0]
  rw [List.length_append]
  omega

/-- One byte of the value of the second of three records changes. -/
theorem replay_of_flipped_byte :
    let r : Record := ⟨2, opSet, 0, 0, [107], [], [1, 2, 3]⟩
    readAll (((walCodec.frames [emptyRecord 1, r, emptyRecord 3]).set 79 9) ++ encode (emptyRecord 4))
      = [emptyRecord 1] := by
  intro r
  have hbefore : ∀ b ∈ [emptyRecord 1], b.Fits := by decide
  have hdamage : Damage 79 1 (walCodec.frames ([emptyRecord 1] ++ r :: [emptyRecord 3]))
      ((walCodec.frames [emptyRecord 1, r, emptyRecord 3]).set 79 9) :=
    ⟨List.length_set, fun j hj => List.getElem?_set_ne (by omega), by decide +kernel⟩
  exact replay_of_damaged_log hbefore (by decide) hdamage (by decide +kernel) _

end Storage
end BoilerPulse
