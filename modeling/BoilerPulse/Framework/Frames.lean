import Mathlib.Data.Nat.ModEq
import Mathlib.Data.List.Basic
import Mathlib.Tactic.Ring

/-!
# Files of framed records

The layout of an append-only log: each record is a *frame* — the length of a payload, the
payload, and a checksum of it — and the file is the frames one after the other. Reading
it back (`scan`) decodes frame by frame and stops at the first one that is
incomplete or fails its checksum, so that whatever an interrupted write has left
behind is cut off.

* `bigEndian`, `ofBigEndian` are the fixed-width numbers; `readFull` and `readUint` consume
  a reader.
* `frame` and `readFrame` are one frame, over any checksum; `crc32` is the usual one.
* A `Codec` is a way to write records as frames. `Codec.frames` is a whole file,
  `Codec.offsets` the position of each frame in it, and `Codec.scan_frames` says that
  scanning a file gives back both.
* A file may be cut off at any byte. `Codec.whole` counts the frames that are still complete, and
  if no frame can be read before it is complete (`Codec.CutsOff`), those are the ones a scan
  gives back (`Codec.scan_take`).
-/

namespace Framework

variable {bs : List UInt8} {k n : ℕ}

/-! ### Big-endian numbers -/

/-- The `k` low bytes of `n`, the most significant first. -/
def bigEndian : ℕ → ℕ → List UInt8
  | 0, _ => []
  | k + 1, n => UInt8.ofNat (n / 256 ^ k) :: bigEndian k n

/-- The number whose bytes are given, the most significant first. -/
def ofBigEndian (bs : List UInt8) : ℕ :=
  bs.foldl (fun n b => n * 256 + b.toNat) 0

@[simp] theorem length_bigEndian (k n : ℕ) : (bigEndian k n).length = k := by
  induction k with
  | zero => rfl
  | succ k ih => rw [bigEndian, List.length_cons, ih]

/-- Reading the bytes of `n` after a number `a` has been read. -/
theorem foldl_bigEndian (k n : ℕ) : ∀ a,
    (bigEndian k n).foldl (fun m b => m * 256 + b.toNat) a = a * 256 ^ k + n % 256 ^ k := by
  induction k with
  | zero => intro a; simp [bigEndian, Nat.mod_one]
  | succ k ih =>
    intro a
    have hbyte : (UInt8.ofNat (n / 256 ^ k)).toNat = n / 256 ^ k % 256 := by simp
    rw [bigEndian, List.foldl_cons, ih, hbyte]
    calc (a * 256 + n / 256 ^ k % 256) * 256 ^ k + n % 256 ^ k
        = a * 256 ^ (k + 1) + (n % 256 ^ k + 256 ^ k * (n / 256 ^ k % 256)) := by ring
      _ = a * 256 ^ (k + 1) + n % 256 ^ (k + 1) := by rw [Nat.mod_pow_succ]

theorem ofBigEndian_bigEndian (h : n < 256 ^ k) : ofBigEndian (bigEndian k n) = n := by
  rw [ofBigEndian, foldl_bigEndian, Nat.zero_mul, Nat.zero_add, Nat.mod_eq_of_lt h]

/-- Reading bytes after a number `a` has been read. -/
theorem foldl_bytes (bs : List UInt8) : ∀ a,
    bs.foldl (fun n b => n * 256 + b.toNat) a = a * 256 ^ bs.length + ofBigEndian bs := by
  induction bs with
  | nil => intro a; simp [ofBigEndian]
  | cons b bs ih =>
    intro a
    rw [ofBigEndian, List.foldl_cons, List.foldl_cons, ih, ih (0 * 256 + b.toNat), List.length_cons]
    ring

/-- The leading byte is the highest digit. -/
theorem ofBigEndian_cons (b : UInt8) (bs : List UInt8) :
    ofBigEndian (b :: bs) = b.toNat * 256 ^ bs.length + ofBigEndian bs := by
  rw [ofBigEndian, List.foldl_cons, foldl_bytes, Nat.zero_mul, Nat.zero_add]

theorem ofBigEndian_lt (bs : List UInt8) : ofBigEndian bs < 256 ^ bs.length := by
  induction bs with
  | nil => decide
  | cons b bs ih =>
    have hb : b.toNat + 1 ≤ 256 := b.toNat_lt
    rw [ofBigEndian_cons, List.length_cons, Nat.pow_succ']
    calc b.toNat * 256 ^ bs.length + ofBigEndian bs
        < b.toNat * 256 ^ bs.length + 256 ^ bs.length := by omega
      _ = (b.toNat + 1) * 256 ^ bs.length := by ring
      _ ≤ 256 * 256 ^ bs.length := Nat.mul_le_mul_right _ hb

/-- Numbers of one width are equal only if their bytes are. -/
theorem ofBigEndian_inj : ∀ {cs : List UInt8}, bs.length = cs.length →
    ofBigEndian bs = ofBigEndian cs → bs = cs := by
  induction bs with
  | nil =>
    intro cs hlen _
    exact (List.length_eq_zero_iff.mp hlen.symm).symm
  | cons b bs ih =>
    intro cs hlen heq
    obtain ⟨c, cs, rfl⟩ := List.exists_cons_of_length_eq_add_one hlen.symm
    have hlen : bs.length = cs.length := Nat.succ.inj hlen
    rw [ofBigEndian_cons, ofBigEndian_cons, hlen, Nat.mul_comm, Nat.mul_comm c.toNat] at heq
    -- the leading byte is the quotient by the weight of the others, which are the remainder
    have hbs : ofBigEndian bs < 256 ^ cs.length := hlen ▸ ofBigEndian_lt bs
    have hcs := ofBigEndian_lt cs
    have hpos : 0 < 256 ^ cs.length := Nat.pow_pos (by decide)
    have hrest : ofBigEndian bs = ofBigEndian cs := by
      have := congrArg (· % 256 ^ cs.length) heq
      simpa [Nat.mul_add_mod, Nat.mod_eq_of_lt hbs, Nat.mod_eq_of_lt hcs] using this
    have hlead : b.toNat = c.toNat := by
      rw [hrest] at heq
      exact Nat.eq_of_mul_eq_mul_left hpos (Nat.add_right_cancel heq)
    rw [UInt8.toNat_inj.mp hlead, ih hlen hrest]

theorem bigEndian_ofBigEndian (h : bs.length = k) :
    bigEndian k (ofBigEndian bs) = bs := by
  refine ofBigEndian_inj (by rw [length_bigEndian, h]) ?_
  exact ofBigEndian_bigEndian (h ▸ ofBigEndian_lt bs)

/-! ### Readers -/

/-- The next `k` bytes and the rest; `none` if there are fewer. -/
def readFull (k : ℕ) (bs : List UInt8) : Option (List UInt8 × List UInt8) :=
  if bs.length < k then none else some (bs.take k, bs.drop k)

/-- The next `k` bytes as a number, and the rest. -/
def readUint (k : ℕ) (bs : List UInt8) : Option (ℕ × List UInt8) :=
  (readFull k bs).map fun r => (ofBigEndian r.1, r.2)

theorem readFull_append (h : bs.length = k) (rest : List UInt8) :
    readFull k (bs ++ rest) = some (bs, rest) := by
  subst h
  rw [readFull, if_neg (by simp), List.take_left, List.drop_left]

theorem readUint_append (h : n < 256 ^ k) (rest : List UInt8) :
    readUint k (bigEndian k n ++ rest) = some (n, rest) := by
  rw [readUint, readFull_append (length_bigEndian k n), Option.map_some, ofBigEndian_bigEndian h]

theorem readFull_short (h : bs.length < k) : readFull k bs = none :=
  if_pos h

theorem readUint_short (h : bs.length < k) : readUint k bs = none := by
  rw [readUint, readFull_short h, Option.map_none]

theorem readFull_eq_some {bs x rest : List UInt8} (h : readFull k bs = some (x, rest)) :
    bs = x ++ rest ∧ x.length = k := by
  unfold readFull at h
  split at h
  · cases h
  · next hk =>
    cases h
    exact ⟨(List.take_append_drop k bs).symm, by rw [List.length_take]; omega⟩

theorem readUint_eq_some {bs rest : List UInt8} (h : readUint k bs = some (n, rest)) :
    ∃ x, bs = x ++ rest ∧ x.length = k ∧ n = ofBigEndian x := by
  obtain ⟨⟨x, rest'⟩, hread, heq⟩ := Option.map_eq_some_iff.mp h
  obtain ⟨rfl, rfl⟩ := Prod.mk.inj heq
  obtain ⟨hbs, hlen⟩ := readFull_eq_some hread
  exact ⟨x, hbs, hlen, rfl⟩

/-! ### Frames -/

/-- Why a frame cannot be read: nothing is left, it is cut off, or its checksum is wrong. -/
inductive FrameError where
  | eof
  | unexpectedEOF
  | corrupt
  deriving DecidableEq, Repr

section Frame

variable (sum : List UInt8 → UInt32)

/-- A payload between its length and its checksum. -/
def frame (payload : List UInt8) : List UInt8 :=
  bigEndian 4 payload.length ++ (payload ++ bigEndian 4 (sum payload).toNat)

/-- Read the payload of the first frame. -/
def readFrame (bs : List UInt8) : Except FrameError (List UInt8) :=
  if bs = [] then .error .eof
  else
    match readUint 4 bs with
    | none => .error .unexpectedEOF
    | some (payloadLen, bs) =>
      match readFull payloadLen bs with
      | none => .error .unexpectedEOF
      | some (payload, bs) =>
        match readUint 4 bs with
        | none => .error .unexpectedEOF
        | some (crc, _) => if crc ≠ (sum payload).toNat then .error .corrupt else .ok payload

theorem length_frame (payload : List UInt8) :
    (frame sum payload).length = 4 + payload.length + 4 := by
  simp only [frame, List.length_append, length_bigEndian]
  omega

/-- A frame whose length fits in its header is read back, whatever follows. -/
theorem readFrame_frame {payload : List UInt8} (h : payload.length < 256 ^ 4)
    (rest : List UInt8) : readFrame sum (frame sum payload ++ rest) = .ok payload := by
  have hne : frame sum payload ++ rest ≠ [] := by
    intro hnil
    have := congrArg List.length hnil
    rw [List.length_append, length_frame] at this
    simp at this
  have hsum : (sum payload).toNat < 256 ^ 4 := (sum payload).toNat_lt
  -- header, payload and checksum are read off in turn
  unfold readFrame
  rw [if_neg hne]
  unfold frame
  simp only [List.append_assoc]
  rw [readUint_append h]
  simp only
  rw [readFull_append rfl]
  simp only
  rw [readUint_append hsum]
  simp

/-- **A frame that is cut off** is not read, wherever the cut is: in the length, in the payload or
in the checksum. -/
theorem readFrame_take {payload : List UInt8} (h : payload.length < 256 ^ 4) {n : ℕ}
    (hn : n < (frame sum payload).length) :
    readFrame sum ((frame sum payload).take n)
      = .error (if n = 0 then .eof else .unexpectedEOF) := by
  rw [length_frame] at hn
  by_cases hzero : n = 0
  · rw [hzero, List.take_zero]
    rfl
  have hlen : ((frame sum payload).take n).length = n := by
    rw [List.length_take, length_frame]
    omega
  have hne : (frame sum payload).take n ≠ [] := by
    intro hnil
    rw [hnil, List.length_nil] at hlen
    exact hzero hlen.symm
  rw [readFrame, if_neg hne, if_neg hzero]
  by_cases hheader : n < 4
  · -- not even the length is there
    rw [readUint_short (by omega)]
  -- the length is, and says how much of a payload to expect
  rw [frame, List.take_append, List.take_of_length_le (by rw [length_bigEndian]; omega),
    readUint_append h, length_bigEndian]
  dsimp only
  by_cases hpayload : n - 4 < payload.length
  · rw [readFull_short (by rw [List.length_take]; omega)]
  · rw [List.take_append, List.take_of_length_le (by omega), readFull_append rfl]
    dsimp only
    rw [readUint_short (by rw [List.length_take, length_bigEndian]; omega)]

/-- What a frame that is read looks like. -/
theorem readFrame_eq_ok {bs payload : List UInt8} (h : readFrame sum bs = .ok payload) :
    ∃ header rest, bs = header ++ (payload ++ rest) ∧ header.length = 4 ∧
      payload.length = ofBigEndian header := by
  unfold readFrame at h
  split at h
  · cases h
  -- length, payload and checksum, each of which may be cut off
  cases hlen : readUint 4 bs with
  | none => rw [hlen] at h; cases h
  | some r =>
    obtain ⟨n, bs₁⟩ := r
    rw [hlen] at h
    obtain ⟨header, rfl, hheader, rfl⟩ := readUint_eq_some hlen
    cases hpay : readFull (ofBigEndian header) bs₁ with
    | none => simp only [hpay] at h; cases h
    | some r =>
      obtain ⟨p, bs₂⟩ := r
      simp only [hpay] at h
      obtain ⟨rfl, hp⟩ := readFull_eq_some hpay
      cases hcrc : readUint 4 bs₂ with
      | none => rw [hcrc] at h; cases h
      | some r =>
        rw [hcrc] at h
        simp only at h
        split at h
        · cases h
        · obtain rfl := Except.ok.inj h
          exact ⟨header, bs₂, rfl, hheader, hp⟩

end Frame

/-! ### CRC-32 -/

/-- One bit of the reflected polynomial division. -/
def crcShift (c : UInt32) : UInt32 :=
  if c &&& 1 = 1 then (c >>> 1) ^^^ 0xEDB88320 else c >>> 1

/-- One byte of the division: eight bits. -/
def crcByte (c : UInt32) (b : UInt8) : UInt32 :=
  Nat.iterate crcShift 8 (c ^^^ b.toUInt32)

/-- The CRC-32 of IEEE 802.3. -/
def crc32 (bs : List UInt8) : UInt32 :=
  bs.foldl crcByte 0xFFFFFFFF ^^^ 0xFFFFFFFF

-- the check value of the standard: the CRC of the digits 1 to 9
example : crc32 [0x31, 0x32, 0x33, 0x34, 0x35, 0x36, 0x37, 0x38, 0x39] = 0xCBF43926 := by
  decide +kernel

/-! ### Files of records -/

/-- A way to write records of type `α` one after the other: `decode` reads the first
record, with the number of bytes it takes. -/
structure Codec (α : Type) where
  encode : α → List UInt8
  decode : List UInt8 → Option (α × ℕ)
  /-- The records that fit the format. -/
  Valid : α → Prop
  decode_nil : decode [] = none
  decode_encode : ∀ a, Valid a → ∀ rest, decode (encode a ++ rest) = some (a, (encode a).length)
  encode_pos : ∀ a, 0 < (encode a).length

namespace Codec

variable {α : Type} (c : Codec α) {as : List α}

/-- The file that holds the records `as`. -/
def frames (as : List α) : List UInt8 :=
  as.flatMap c.encode

/-- Where the frame of each record starts, the first at `off`. -/
def offsets : ℕ → List α → List ℕ
  | _, [] => []
  | off, a :: as => off :: offsets (off + (c.encode a).length) as

/-- Read records until one cannot be read: the records, their offsets, and the end of the
last one. -/
def scan : ℕ → ℕ → List UInt8 → List α × List ℕ × ℕ
  | 0, off, _ => ([], [], off)
  | fuel + 1, off, bs =>
    match c.decode bs with
    | none => ([], [], off)
    | some (a, size) =>
      let (as, offs, valid) := scan fuel (off + size) (bs.drop size)
      (a :: as, off :: offs, valid)

@[simp] theorem frames_nil : c.frames [] = [] := rfl

@[simp] theorem frames_cons (a : α) (as : List α) :
    c.frames (a :: as) = c.encode a ++ c.frames as := rfl

@[simp] theorem frames_append (as bs : List α) : c.frames (as ++ bs) = c.frames as ++ c.frames bs :=
  List.flatMap_append

theorem length_le_frames (as : List α) : as.length ≤ (c.frames as).length := by
  induction as with
  | nil => exact Nat.le_refl 0
  | cons a as ih =>
    have := c.encode_pos a
    rw [frames_cons, List.length_append, List.length_cons]
    omega

/-- The first bytes of a file, up to the frame of the `k`-th record. -/
theorem take_frames (as : List α) (k : ℕ) :
    (c.frames as).take (c.frames (as.take k)).length = c.frames (as.take k) := by
  conv_lhs => rw [← List.take_append_drop k as]
  rw [frames_append, List.take_append_drop, List.take_left]

theorem offsets_append (as bs : List α) : ∀ off,
    c.offsets off (as ++ bs) = c.offsets off as ++ c.offsets (off + (c.frames as).length) bs := by
  induction as with
  | nil => intro off; rfl
  | cons a as ih =>
    intro off
    rw [List.cons_append, offsets, offsets, ih, List.cons_append, frames_cons, List.length_append,
      Nat.add_assoc]

@[simp] theorem length_offsets (as : List α) : ∀ off, (c.offsets off as).length = as.length := by
  induction as with
  | nil => intro off; rfl
  | cons a as ih => intro off; rw [offsets, List.length_cons, ih, List.length_cons]

/-- The offset of a record is the size of the frames before it. -/
theorem offsets_getElem? {k : ℕ} (h : k < as.length) (off : ℕ) :
    (c.offsets off as)[k]? = some (off + (c.frames (as.take k)).length) := by
  conv_lhs => rw [← List.take_append_drop k as]
  have hlen : (c.offsets off (as.take k)).length = k := by
    rw [length_offsets, List.length_take, Nat.min_eq_left h.le]
  rw [offsets_append, List.getElem?_append_right (by omega), hlen, Nat.sub_self,
    List.drop_eq_getElem_cons h]
  rfl

theorem offsets_take (as : List α) (k off : ℕ) :
    (c.offsets off as).take k = c.offsets off (as.take k) := by
  conv_lhs => rw [← List.take_append_drop k as]
  rw [offsets_append]
  by_cases h : k ≤ as.length
  · -- the first `k` records have `k` offsets
    have hlen : (c.offsets off (as.take k)).length = k := by
      rw [length_offsets, List.length_take, Nat.min_eq_left h]
    rw [List.take_append_of_le_length (by omega), List.take_of_length_le (by omega)]
  · rw [List.drop_of_length_le (by omega)]
    simp only [offsets, List.append_nil]
    exact List.take_of_length_le (by rw [length_offsets, List.length_take]; omega)

/-- **Scanning** gives back the records of the complete frames, with their offsets and their
length, if nothing can be read after them. -/
theorem scan_torn (h : ∀ a ∈ as, c.Valid a) {tail : List UInt8} (htail : c.decode tail = none)
    : ∀ {fuel : ℕ} (off : ℕ), as.length < fuel →
      c.scan fuel off (c.frames as ++ tail)
        = (as, c.offsets off as, off + (c.frames as).length) := by
  induction as with
  | nil =>
    intro fuel off hf
    obtain ⟨fuel, rfl⟩ := Nat.exists_eq_succ_of_ne_zero (Nat.ne_of_gt hf)
    rw [scan, frames_nil, List.nil_append, htail]
    rfl
  | cons a as ih =>
    intro fuel off hf
    obtain ⟨fuel, rfl⟩ := Nat.exists_eq_succ_of_ne_zero (Nat.ne_of_gt (Nat.zero_lt_of_lt hf))
    -- the first frame is decoded, and the rest of the file is the frames of the rest
    have hrest := ih (fun b hb => h b (List.mem_cons_of_mem a hb))
      (off + (c.encode a).length) (Nat.lt_of_succ_lt_succ hf)
    rw [scan, frames_cons, List.append_assoc, c.decode_encode a (h a List.mem_cons_self)]
    simp only [List.drop_left]
    rw [hrest, offsets, List.length_append, Nat.add_assoc]

/-- A file with nothing after its frames. -/
theorem scan_frames (h : ∀ a ∈ as, c.Valid a) {fuel : ℕ} (off : ℕ) (hf : as.length < fuel) :
    c.scan fuel off (c.frames as) = (as, c.offsets off as, off + (c.frames as).length) := by
  conv_lhs => rw [← List.append_nil (c.frames as)]
  exact c.scan_torn h c.decode_nil off hf

/-- Scanning goes through the complete frames of a file and on with whatever follows. -/
theorem scan_frames_append (h : ∀ a ∈ as, c.Valid a) (tail : List UInt8) :
    ∀ {fuel : ℕ} (off : ℕ), as.length ≤ fuel → ∃ off', (c.scan fuel off (c.frames as ++ tail)).1
        = as ++ (c.scan (fuel - as.length) off' tail).1 := by
  induction as with
  | nil => intro fuel off _; exact ⟨off, rfl⟩
  | cons a as ih =>
    intro fuel off hf
    obtain ⟨fuel, rfl⟩ := Nat.exists_eq_succ_of_ne_zero
      (Nat.ne_of_gt (Nat.lt_of_lt_of_le (Nat.succ_pos as.length) hf))
    obtain ⟨off', hrest⟩ := ih (fun b hb => h b (List.mem_cons_of_mem a hb))
      (off + (c.encode a).length) (Nat.le_of_succ_le_succ hf)
    refine ⟨off', ?_⟩
    rw [scan, frames_cons, List.append_assoc, c.decode_encode a (h a List.mem_cons_self)]
    simp only [List.drop_left]
    rw [hrest, List.length_cons, Nat.succ_sub_succ, List.cons_append]

/-- The first record of a scan is the first one decoded. -/
theorem decode_of_scan_eq_cons {fuel off : ℕ} {bs : List UInt8} {a : α}
    (h : (c.scan fuel off bs).1 = a :: as) : ∃ size, c.decode bs = some (a, size) := by
  cases fuel with
  | zero => cases h
  | succ fuel =>
    rw [scan] at h
    cases hd : c.decode bs with
    | none => rw [hd] at h; cases h
    | some r =>
      rw [hd] at h
      obtain ⟨b, size⟩ := r
      obtain ⟨rfl, -⟩ := List.cons.inj h
      exact ⟨size, rfl⟩

/-- Every record of a scan was decoded somewhere. -/
theorem decode_of_mem_scan {a : α} : ∀ {fuel off : ℕ} {bs : List UInt8},
    a ∈ (c.scan fuel off bs).1 → ∃ bs' size, c.decode bs' = some (a, size) := by
  intro fuel
  induction fuel with
  | zero => intro off bs h; cases h
  | succ fuel ih =>
    intro off bs h
    rw [scan] at h
    cases hd : c.decode bs with
    | none => rw [hd] at h; cases h
    | some r =>
      rw [hd] at h
      rcases List.mem_cons.mp h with rfl | hmem
      · exact ⟨bs, r.2, hd⟩
      · exact ih hmem

/-! ### Files that are cut off -/

/-- How many frames end within the first `n` bytes. -/
def whole : ℕ → List α → ℕ
  | _, [] => 0
  | n, a :: as =>
    if (c.encode a).length ≤ n then whole (n - (c.encode a).length) as + 1 else 0

/-- The `i`-th frame counts exactly when it ends within the first `n` bytes. -/
theorem lt_whole_iff : ∀ {n i : ℕ}, i < as.length →
    (i < c.whole n as ↔ (c.frames (as.take (i + 1))).length ≤ n) := by
  induction as with
  | nil => intro n i hi; exact absurd hi (Nat.not_lt_zero i)
  | cons a as ih =>
    intro n i hi
    rw [whole, List.take_succ_cons, frames_cons, List.length_append]
    split
    · next hle =>
      cases i with
      | zero =>
        rw [List.take_zero, frames_nil, List.length_nil]
        exact iff_of_true (Nat.succ_pos _) (by omega)
      | succ i =>
        have := ih (n := n - (c.encode a).length) (Nat.lt_of_succ_lt_succ hi)
        omega
    · next hlt => exact iff_of_false (Nat.not_lt_zero i) (by omega)

/-- No frame can be read before it is complete. -/
def CutsOff : Prop :=
  ∀ a, c.Valid a → ∀ n < (c.encode a).length, c.decode ((c.encode a).take n) = none

/-- The first `n` bytes of a file are its whole frames and something that cannot be read. -/
theorem take_eq_whole (hcut : c.CutsOff) (h : ∀ a ∈ as, c.Valid a) : ∀ n, ∃ tail,
    (c.frames as).take n = c.frames (as.take (c.whole n as)) ++ tail ∧ c.decode tail = none := by
  induction as with
  | nil => intro n; exact ⟨[], by rw [frames_nil, List.take_nil]; rfl, c.decode_nil⟩
  | cons a as ih =>
    intro n
    rw [whole, frames_cons, List.take_append]
    split
    · next hle =>
      obtain ⟨tail, htake, htail⟩ := ih (fun b hb => h b (List.mem_cons_of_mem a hb))
        (n - (c.encode a).length)
      refine ⟨tail, ?_, htail⟩
      rw [List.take_of_length_le hle, htake, List.take_succ_cons, frames_cons, List.append_assoc]
    · next hlt =>
      -- the cut is inside this frame, and nothing of the next one is left
      refine ⟨(c.encode a).take n, ?_, hcut a (h a List.mem_cons_self) n (by omega)⟩
      rw [show n - (c.encode a).length = 0 by omega]
      simp

/-- **Scanning a file that is cut off** gives back exactly the records whose frames are whole. -/
theorem scan_take (hcut : c.CutsOff) (h : ∀ a ∈ as, c.Valid a) (n : ℕ) {fuel : ℕ} (off : ℕ)
    (hf : ((c.frames as).take n).length < fuel) :
    c.scan fuel off ((c.frames as).take n) =
      (as.take (c.whole n as), c.offsets off (as.take (c.whole n as)),
        off + (c.frames (as.take (c.whole n as))).length) := by
  obtain ⟨tail, htake, htail⟩ := c.take_eq_whole hcut h n
  have hle := c.length_le_frames (as.take (c.whole n as))
  rw [htake, List.length_append] at hf
  rw [htake]
  exact c.scan_torn (fun a ha => h a (List.mem_of_mem_take ha)) htail off (by omega)

end Codec

end Framework
