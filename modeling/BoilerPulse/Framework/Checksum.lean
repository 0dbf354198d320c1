import BoilerPulse.Framework.Frames
import Mathlib.Logic.Function.Iterate
import Mathlib.Tactic.Common

/-!
# Damage that a CRC-32 detects

A file of framed records may come back from the disk with bytes other than those written. A frame
carries the CRC-32 of its payload, and the question is which changes that is certain to show.

One bit of the polynomial division (`crcShift`) is linear over exclusive or and has no kernel, so the
register can be run backwards. Two consequences carry everything here:

* registers that differ stay different while the same bytes are read (`foldl_crcByte_inj`);
* up to four bytes read from one register are those four bytes in the register, shifted
  (`foldl_crcByte_eq`), so different bytes leave different registers behind.

A change that stays within four consecutive bytes of a payload therefore changes the checksum
(`crc32_burst`), and so does any change of the checksum itself. `Damage` is such a change of a file,
and `Codec.frames_damaged` says what a reader meets: the frames in front of the damaged one, and
then something it cannot decode. The length in front of a payload is not covered by any checksum;
damage there is left out.
-/

namespace Framework

/-! ### The division is linear and can be reversed -/

theorem and_one_eq_one_iff (c : UInt32) : c &&& 1 = 1 ↔ c.toBitVec.getLsbD 0 = true := by
  have hlow : (c &&& 1).toNat = c.toNat % 2 := by
    rw [UInt32.toNat_and]
    exact Nat.and_one_is_mod _
  rw [← UInt32.toNat_inj, hlow, BitVec.getLsbD, Nat.testBit_zero, decide_eq_true_iff]
  rfl

theorem toBitVec_crcShift (c : UInt32) : (crcShift c).toBitVec =
    if c.toBitVec.getLsbD 0 then (c.toBitVec >>> 1) ^^^ 0xEDB88320#32 else c.toBitVec >>> 1 := by
  unfold crcShift
  simp only [and_one_eq_one_iff]
  split <;> simp

theorem crcShift_xor (a b : UInt32) : crcShift (a ^^^ b) = crcShift a ^^^ crcShift b := by
  have hcancel (x y p : BitVec 32) : x ^^^ y = (x ^^^ p) ^^^ (y ^^^ p) := by
    rw [BitVec.xor_comm y p, BitVec.xor_assoc, ← BitVec.xor_assoc p, BitVec.xor_self,
      BitVec.zero_xor]
  apply UInt32.toBitVec_inj.mp
  rw [UInt32.toBitVec_xor, toBitVec_crcShift, toBitVec_crcShift, toBitVec_crcShift,
    UInt32.toBitVec_xor, BitVec.getLsbD_xor, BitVec.ushiftRight_xor_distrib]
  -- the polynomial is added on the left if one of the low bits is set, and cancels if both are
  cases a.toBitVec.getLsbD 0 <;> cases b.toBitVec.getLsbD 0
  · rfl
  · exact BitVec.xor_assoc ..
  · change _ = _ ^^^ b.toBitVec >>> 1
    rw [BitVec.xor_assoc, BitVec.xor_comm (b.toBitVec >>> 1), ← BitVec.xor_assoc]
    rfl
  · exact hcancel _ _ _

theorem crcShift_eq_zero {c : UInt32} (h : crcShift c = 0) : c = 0 := by
  have hbits := congrArg UInt32.toBitVec h
  rw [toBitVec_crcShift] at hbits
  cases hlow : c.toBitVec.getLsbD 0 with
  | true =>
    -- the polynomial sets the highest bit, which the shift has cleared
    rw [hlow, if_pos rfl] at hbits
    have htop := congrArg (fun x => x.getLsbD 31) hbits
    simp at htop
  | false =>
    rw [hlow, if_neg (by simp)] at hbits
    apply UInt32.toBitVec_inj.mp
    apply BitVec.eq_of_getLsbD_eq
    intro i hi
    cases i with
    | zero => rw [hlow]; rfl
    | succ i =>
      have hbit := congrArg (fun x => x.getLsbD i) hbits
      simp [BitVec.getLsbD_ushiftRight, Nat.add_comm] at hbit
      simp [hbit]

theorem crcShift_injective : Function.Injective crcShift := by
  intro a b h
  have hzero : crcShift (a ^^^ b) = 0 := by rw [crcShift_xor, h, UInt32.xor_self]
  exact UInt32.xor_eq_zero_iff.mp (crcShift_eq_zero hzero)

theorem crcShift_iterate_xor (k : ℕ) : ∀ a b,
    crcShift^[k] (a ^^^ b) = crcShift^[k] a ^^^ crcShift^[k] b := by
  induction k with
  | zero => intro a b; rfl
  | succ k ih =>
    intro a b
    rw [Function.iterate_succ_apply, Function.iterate_succ_apply, Function.iterate_succ_apply,
      crcShift_xor, ih]

/-- While the low bits are clear the polynomial is not added. -/
theorem crcShift_iterate_of_clear (k : ℕ) : ∀ c : UInt32, (∀ i < k, c.toBitVec.getLsbD i = false) →
    (crcShift^[k] c).toBitVec = c.toBitVec >>> k := by
  induction k with
  | zero => intro c _; simp
  | succ k ih =>
    intro c hclear
    have hshift : (crcShift c).toBitVec = c.toBitVec >>> 1 := by
      rw [toBitVec_crcShift, hclear 0 (Nat.succ_pos k), if_neg (by simp)]
    rw [Function.iterate_succ_apply, ih, hshift, ← BitVec.shiftRight_add, Nat.add_comm]
    intro i hi
    rw [hshift, BitVec.getLsbD_ushiftRight, Nat.add_comm]
    exact hclear (i + 1) (Nat.succ_lt_succ hi)

theorem crcByte_left_injective (b : UInt8) : Function.Injective (crcByte · b) := by
  intro c d h
  exact (UInt32.xor_left_inj _).mp (crcShift_injective.iterate 8 h)

/-- Registers that differ stay different. -/
theorem foldl_crcByte_inj {zs : List UInt8} : ∀ {c d : UInt32},
    zs.foldl crcByte c = zs.foldl crcByte d → c = d := by
  induction zs with
  | nil => intro c d h; exact h
  | cons z zs ih => intro c d h; exact crcByte_left_injective z (ih h)

/-! ### Four bytes fit the register -/

/-- Bytes as one number, the first the lowest. -/
def packBytes : List UInt8 → UInt32
  | [] => 0
  | b :: bs => b.toUInt32 ^^^ (packBytes bs <<< 8)

theorem toBitVec_shiftLeft_eight (c : UInt32) : (c <<< 8).toBitVec = c.toBitVec <<< 8 := by simp

theorem getLsbD_packBytes_cons (b : UInt8) (bs : List UInt8) {i : ℕ} (hi : i < 32) :
    (packBytes (b :: bs)).toBitVec.getLsbD i =
      if i < 8 then b.toBitVec.getLsbD i else (packBytes bs).toBitVec.getLsbD (i - 8) := by
  have hpack : (packBytes (b :: bs)).toBitVec =
      b.toBitVec.setWidth 32 ^^^ ((packBytes bs).toBitVec <<< 8) := by
    rw [packBytes, UInt32.toBitVec_xor, toBitVec_shiftLeft_eight, UInt8.toBitVec_toUInt32]
  rw [hpack, BitVec.getLsbD_xor, BitVec.getLsbD_setWidth, BitVec.getLsbD_shiftLeft]
  split
  · next h => simp [h, hi]
  · next h => simp [h, hi, BitVec.getLsbD_of_ge b.toBitVec i (by omega)]

/-- Few bytes leave the high bits clear. -/
theorem getLsbD_packBytes_of_le : ∀ (bs : List UInt8) {i : ℕ}, 8 * bs.length ≤ i →
    (packBytes bs).toBitVec.getLsbD i = false := by
  intro bs
  induction bs with
  | nil => intro i _; simp [packBytes]
  | cons b bs ih =>
    intro i hi
    rw [List.length_cons] at hi
    by_cases hw : i < 32
    · rw [getLsbD_packBytes_cons b bs hw, if_neg (by omega)]
      exact ih (by omega)
    · exact BitVec.getLsbD_of_ge _ _ (by omega)

theorem packBytes_inj : ∀ {bs cs : List UInt8}, bs.length = cs.length → bs.length ≤ 4 →
    packBytes bs = packBytes cs → bs = cs := by
  intro bs
  induction bs with
  | nil =>
    intro cs hlen _ _
    exact (List.length_eq_zero_iff.mp hlen.symm).symm
  | cons b bs ih =>
    intro cs hlen hle heq
    obtain ⟨c, cs, rfl⟩ := List.exists_cons_of_length_eq_add_one hlen.symm
    rw [List.length_cons] at hle
    have hlen : bs.length = cs.length := Nat.succ.inj hlen
    have hbit (i : ℕ) := congrArg (fun x => x.toBitVec.getLsbD i) heq
    -- the first byte is the low eight bits, the others are what is above
    have hhead : b = c := by
      apply UInt8.toBitVec_inj.mp
      apply BitVec.eq_of_getLsbD_eq
      intro i hi
      have := hbit i
      rwa [getLsbD_packBytes_cons b bs (by omega), getLsbD_packBytes_cons c cs (by omega),
        if_pos hi, if_pos hi] at this
    have htail : packBytes bs = packBytes cs := by
      apply UInt32.toBitVec_inj.mp
      apply BitVec.eq_of_getLsbD_eq
      intro i hi
      by_cases hw : i + 8 < 32
      · have := hbit (i + 8)
        rwa [getLsbD_packBytes_cons b bs hw, getLsbD_packBytes_cons c cs hw,
          if_neg (by omega), if_neg (by omega), Nat.add_sub_cancel] at this
      · rw [getLsbD_packBytes_of_le bs (by omega), getLsbD_packBytes_of_le cs (by omega)]
    rw [hhead, ih hlen (by omega) htail]

/-- Three bytes that are moved up by eight bits come down again unchanged. -/
theorem crcShift_packBytes {bs : List UInt8} (h : bs.length ≤ 3) :
    crcShift^[8] (packBytes bs <<< 8) = packBytes bs := by
  have hclear : ∀ i < 8, (packBytes bs <<< 8).toBitVec.getLsbD i = false := by
    intro i hi
    rw [toBitVec_shiftLeft_eight, BitVec.getLsbD_shiftLeft]
    simp [hi]
  apply UInt32.toBitVec_inj.mp
  rw [crcShift_iterate_of_clear 8 _ hclear, toBitVec_shiftLeft_eight]
  apply BitVec.eq_of_getLsbD_eq
  intro i hi
  rw [BitVec.getLsbD_ushiftRight, BitVec.getLsbD_shiftLeft]
  by_cases hw : 8 + i < 32
  · simp [hw]
  · simp [hw, getLsbD_packBytes_of_le bs (i := i) (by omega)]

/-- Reading up to four bytes puts all of them into the register at once. -/
theorem foldl_crcByte_eq : ∀ {bs : List UInt8} (c : UInt32), bs.length ≤ 4 →
    bs.foldl crcByte c = crcShift^[8 * bs.length] (c ^^^ packBytes bs) := by
  intro bs
  induction bs with
  | nil => intro c _; simp [packBytes]
  | cons b bs ih =>
    intro c hle
    rw [List.length_cons] at hle
    have hfirst : crcByte c b ^^^ packBytes bs = crcShift^[8] (c ^^^ packBytes (b :: bs)) := by
      have hrest : crcShift^[8] (packBytes bs <<< 8) = packBytes bs :=
        crcShift_packBytes (by omega)
      conv_lhs => rw [← hrest]
      rw [crcByte, ← crcShift_iterate_xor, UInt32.xor_assoc]
      rfl
    rw [List.foldl_cons, ih _ (by omega), hfirst, ← Function.iterate_add_apply, List.length_cons,
      Nat.mul_succ]

/-- **A burst is detected**: if up to four consecutive bytes change, so does the checksum. -/
theorem crc32_burst {w w' : List UInt8} (hlen : w.length = w'.length) (hle : w.length ≤ 4)
    (xs zs : List UInt8) (h : crc32 (xs ++ (w ++ zs)) = crc32 (xs ++ (w' ++ zs))) : w = w' := by
  have hle' : w'.length ≤ 4 := hlen ▸ hle
  have hregister : w.foldl crcByte (xs.foldl crcByte 0xFFFFFFFF) =
      w'.foldl crcByte (xs.foldl crcByte 0xFFFFFFFF) := by
    have hall := (UInt32.xor_left_inj _).mp h
    rw [List.foldl_append, List.foldl_append, List.foldl_append, List.foldl_append] at hall
    exact foldl_crcByte_inj hall
  rw [foldl_crcByte_eq _ hle, foldl_crcByte_eq _ hle', hlen] at hregister
  exact packBytes_inj hlen hle
    ((UInt32.xor_right_inj _).mp (crcShift_injective.iterate _ hregister))

/-! ### Damaged bytes -/

/-- `bs'` is `bs` with something changed in the `k` bytes from position `i` on, and nothing else. -/
structure Damage (i k : ℕ) (bs bs' : List UInt8) : Prop where
  length_eq : bs'.length = bs.length
  same : ∀ j, j < i ∨ i + k ≤ j → bs'[j]? = bs[j]?
  ne : bs' ≠ bs

namespace Damage

variable {i k : ℕ} {bs bs' : List UInt8}

/-- What is before the damage, what is damaged, and what is after it. -/
theorem split (h : Damage i k bs bs') (hik : i + k ≤ bs.length) :
    ∃ xs w w' zs, bs = xs ++ (w ++ zs) ∧ bs' = xs ++ (w' ++ zs) ∧ xs.length = i ∧
      w.length = k ∧ w'.length = k ∧ w ≠ w' := by
  have hparts (cs : List UInt8) : cs = cs.take i ++ ((cs.drop i).take k ++ cs.drop (i + k)) := by
    rw [← List.drop_drop, List.take_append_drop, List.take_append_drop]
  -- outside the window nothing has changed
  have htake : bs'.take i = bs.take i := by
    refine List.ext_getElem? fun j => ?_
    rw [List.getElem?_take, List.getElem?_take]
    split
    · next hj => exact h.same j (.inl hj)
    · rfl
  have hdrop : bs'.drop (i + k) = bs.drop (i + k) := by
    refine List.ext_getElem? fun j => ?_
    rw [List.getElem?_drop, List.getElem?_drop]
    exact h.same _ (.inr (Nat.le_add_right _ _))
  have hlen := h.length_eq
  refine ⟨bs.take i, (bs.drop i).take k, (bs'.drop i).take k, bs.drop (i + k), hparts bs, ?_, ?_,
    ?_, ?_, ?_⟩
  · conv_lhs => rw [hparts bs']
    rw [htake, hdrop]
  · rw [List.length_take]; omega
  · rw [List.length_take, List.length_drop]; omega
  · rw [List.length_take, List.length_drop]; omega
  · intro hw
    refine h.ne ?_
    rw [hparts bs', htake, hdrop, ← hw]
    exact (hparts bs).symm

/-- Damage behind a part of a file is damage of what follows that part. -/
theorem drop_left {xs : List UInt8} (h : Damage i k (xs ++ bs) bs') (hi : xs.length ≤ i) :
    ∃ bs'', bs' = xs ++ bs'' ∧ Damage (i - xs.length) k bs bs'' := by
  have htake : bs'.take xs.length = xs := by
    refine List.ext_getElem? fun j => ?_
    rw [List.getElem?_take]
    split
    · next hj => rw [h.same j (.inl (by omega)), List.getElem?_append_left hj]
    · next hj => exact (List.getElem?_eq_none (by omega)).symm
  have hbs' : bs' = xs ++ bs'.drop xs.length := by
    conv_lhs => rw [← List.take_append_drop xs.length bs', htake]
  refine ⟨bs'.drop xs.length, hbs', ?_, ?_, ?_⟩
  · rw [List.length_drop, h.length_eq, List.length_append, Nat.add_sub_cancel_left]
  · intro j hj
    rw [List.getElem?_drop, h.same _ (by omega), List.getElem?_append_right (by omega),
      Nat.add_sub_cancel_left]
  · intro heq
    rw [heq] at hbs'
    exact h.ne hbs'

/-- Damage in front of a part of a file is damage of what precedes that part. -/
theorem drop_right {zs : List UInt8} (h : Damage i k (bs ++ zs) bs') (hi : i + k ≤ bs.length) :
    ∃ bs'', bs' = bs'' ++ zs ∧ Damage i k bs bs'' := by
  have hlen := h.length_eq
  rw [List.length_append] at hlen
  have hdrop : bs'.drop bs.length = zs := by
    refine List.ext_getElem? fun j => ?_
    rw [List.getElem?_drop, h.same _ (.inr (by omega)), List.getElem?_append_right (by omega),
      Nat.add_sub_cancel_left]
  have hbs' : bs' = bs'.take bs.length ++ zs := by
    conv_lhs => rw [← List.take_append_drop bs.length bs', hdrop]
  refine ⟨bs'.take bs.length, hbs', ?_, ?_, ?_⟩
  · rw [List.length_take]; omega
  · intro j hj
    rw [List.getElem?_take]
    split
    · next hlt => rw [h.same j hj, List.getElem?_append_left hlt]
    · next hlt => exact (List.getElem?_eq_none (by omega)).symm
  · intro heq
    rw [heq] at hbs'
    exact h.ne hbs'

end Damage

/-! ### Damaged frames -/

/-- The `k` bytes from `i` on are covered by the checksum of the frame that starts at `start`: they
are at most four bytes of its payload of `len` bytes, or bytes of the checksum. -/
def Covered (start len i k : ℕ) : Prop :=
  start + 4 ≤ i ∧ i + k ≤ start + 4 + len ∧ k ≤ 4 ∨
    start + 4 + len ≤ i ∧ i + k ≤ start + 4 + len + 4

instance (start len i k : ℕ) : Decidable (Covered start len i k) := by
  unfold Covered
  infer_instance

/-- A frame is read up to the comparison of its checksum. -/
theorem readFrame_parts (sum : List UInt8 → UInt32) {header payload stored : List UInt8}
    (hheader : header = bigEndian 4 payload.length) (hlen : payload.length < 256 ^ 4)
    (hstored : stored.length = 4) (rest : List UInt8) :
    readFrame sum (header ++ (payload ++ stored) ++ rest) =
      if ofBigEndian stored ≠ (sum payload).toNat then .error .corrupt else .ok payload := by
  have hne : header ++ (payload ++ stored) ++ rest ≠ [] := by
    intro hnil
    have := congrArg List.length hnil
    simp only [List.length_append, hstored, List.length_nil] at this
    omega
  unfold readFrame
  rw [if_neg hne, hheader]
  simp only [List.append_assoc]
  rw [readUint_append hlen]
  dsimp only
  rw [readFull_append rfl]
  dsimp only
  rw [readUint, readFull_append hstored]
  rfl

/-- **A damaged frame is not read.** -/
theorem readFrame_damaged {payload : List UInt8} (hlen : payload.length < 256 ^ 4) {i k : ℕ}
    {bs : List UInt8} (h : Damage i k (frame crc32 payload) bs)
    (hcov : Covered 0 payload.length i k) (rest : List UInt8) :
    readFrame crc32 (bs ++ rest) = .error .corrupt := by
  have hfour : (bigEndian 4 payload.length).length = 4 := length_bigEndian 4 _
  have hsum : (bigEndian 4 (crc32 payload).toNat).length = 4 := length_bigEndian 4 _
  -- the length in front is intact
  obtain ⟨body, rfl, hbody⟩ := h.drop_left (by rw [hfour]; rcases hcov with h | h <;> omega)
  rw [hfour] at hbody
  rcases hcov with ⟨hi, hik, hk⟩ | ⟨hi, hik⟩
  · -- the payload is damaged and its checksum is not
    obtain ⟨payload', rfl, hpayload⟩ := hbody.drop_right (by omega)
    obtain ⟨xs, w, w', zs, hp, hp', -, hw, hw', hne⟩ := hpayload.split (by omega)
    have hlen' : payload'.length = payload.length := hpayload.length_eq
    rw [readFrame_parts crc32 (by rw [hlen']) (hlen' ▸ hlen) hsum, if_pos]
    rw [ofBigEndian_bigEndian (crc32 payload).toNat_lt, hp, hp']
    intro heq
    exact hne (crc32_burst (by omega) (by omega) xs zs (UInt32.toNat_inj.mp heq))
  · -- the checksum is damaged and the payload is not
    obtain ⟨stored, rfl, hstored⟩ := hbody.drop_left (by omega)
    have hlen' : stored.length = 4 := hstored.length_eq.trans hsum
    rw [readFrame_parts crc32 rfl hlen hlen', if_pos]
    intro heq
    refine hstored.ne (ofBigEndian_inj (by rw [hlen', hsum]) ?_)
    rw [heq, ofBigEndian_bigEndian (crc32 payload).toNat_lt]

namespace Codec

variable {α : Type} (c : Codec α)

/-- The codec writes a record as the frame of its payload, and reads no record off a frame that
cannot be read. -/
structure Framed (payload : α → List UInt8) : Prop where
  encode_eq : ∀ a, c.encode a = frame crc32 (payload a)
  payload_lt : ∀ a, c.Valid a → (payload a).length < 256 ^ 4
  decode_of_error : ∀ bs err, readFrame crc32 bs = .error err → c.decode bs = none

/-- **Nothing is read where a file is damaged**, whatever is written behind the file later: it has
the frames in front of the damaged one, and then something that cannot be decoded. -/
theorem frames_damaged {payload : α → List UInt8} (hc : c.Framed payload) {before after : List α}
    {a : α} (ha : c.Valid a) {i k : ℕ} {file : List UInt8}
    (h : Damage i k (c.frames (before ++ a :: after)) file)
    (hcov : Covered (c.frames before).length (payload a).length i k) :
    ∃ rest, file = c.frames before ++ rest ∧ ∀ later, c.decode (rest ++ later) = none := by
  have hlen := length_frame crc32 (payload a)
  rw [frames_append, frames_cons, hc.encode_eq] at h
  obtain ⟨rest, rfl, hrest⟩ := h.drop_left (by rcases hcov with h | h <;> omega)
  obtain ⟨bs, rfl, hbs⟩ := hrest.drop_right (by rcases hcov with h | h <;> omega)
  refine ⟨_, rfl, fun later => hc.decode_of_error _ .corrupt ?_⟩
  rw [List.append_assoc]
  refine readFrame_damaged (hc.payload_lt a ha) hbs ?_ _
  -- positions in the file and positions in the frame
  rcases hcov with h | h
  · exact .inl (by omega)
  · exact .inr (by omega)

end Codec

end Framework
