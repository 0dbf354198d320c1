import BoilerPulse.Raft.FileStorage
import BoilerPulse.Raft.Process

/-!
# The offsets of the log file

`FileStorage` keeps three things in step: the bytes of the log file, the entries it has
loaded, and the offset of each frame, which is what `TruncateFrom` cuts at.

The bytes and the entries stay in step because every write goes to the end of the file,
whichever way the handle was opened (`Sound`). The offsets do not: after
`DiscardLogThrough` has kept some entries, the handle stands at position `0` of a file that
is not empty, and `AppendEntries` records that position as the offset of the next
entry. `FileOp.AtEnd` excludes it, and then the offsets are true (`Aligned`, `true_offsets`);
without it a truncation empties the file (`truncation_empties_the_file`).
-/

namespace BoilerPulse
namespace Raft

open Framework

/-! ### Bytes and entries -/

/-- The index of the stored snapshot, `0` if there is none. -/
def Disk.snapshotIndex (d : Disk) : ℕ :=
  (d.snapshot.map Snapshot.lastIncludedIndex).getD 0

/-- The log file holds the loaded entries, which are numbered from the base, and what is
written next goes to its end. -/
structure Sound (fs : FileStorage) : Prop where
  bytes : fs.disk.log = logEntryCodec.frames fs.loaded
  encodable : ∀ e ∈ fs.loaded, e.Encodable
  consecutive : Consecutive (fs.baseIndex + 1) fs.loaded
  toEnd : fs.logFile.append = true ∨ fs.logFile.pos = fs.disk.log.length

/-- **`OpenFileStorage`** on a log file of whole frames and something that cannot be read, which is
cut off. -/
theorem openFileStorage_torn {d : Disk} {es : List LogEntry} {tail : Bytes}
    (hlog : d.log = logEntryCodec.frames es ++ tail) (htail : logEntryCodec.decode tail = none)
    (hes : ∀ e ∈ es, e.Encodable) :
    openFileStorage d =
      { disk := { d.cleanupOrphanedTempFiles with log := logEntryCodec.frames es }
        logFile := ⟨(logEntryCodec.frames es).length, false⟩
        offsets := logEntryCodec.offsets 0 es
        loaded := es
        baseIndex := d.snapshotIndex } := by
  have hreplay : replayLogFile d.log
      = (es, logEntryCodec.offsets 0 es, (logEntryCodec.frames es).length) := by
    have hlen := logEntryCodec.length_le_frames es
    rw [replayLogFile, hlog, logEntryCodec.scan_torn hes htail 0, Nat.zero_add]
    rw [List.length_append]
    omega
  have htrunc : truncateTo d.log (logEntryCodec.frames es).length = logEntryCodec.frames es := by
    rw [truncateTo, hlog, List.take_left, List.length_append, Nat.sub_eq_zero_of_le (by omega)]
    exact List.append_nil _
  have hclean : d.cleanupOrphanedTempFiles.log = d.log := rfl
  unfold openFileStorage
  simp only [hclean, hreplay, htrunc]
  rfl

/-- `OpenFileStorage` on a log file of whole frames: nothing is cut off. -/
theorem openFileStorage_eq {d : Disk} {es : List LogEntry} (hlog : d.log = logEntryCodec.frames es)
    (hes : ∀ e ∈ es, e.Encodable) :
    openFileStorage d =
      { disk := d.cleanupOrphanedTempFiles
        logFile := ⟨d.log.length, false⟩
        offsets := logEntryCodec.offsets 0 es
        loaded := es
        baseIndex := d.snapshotIndex } := by
  have hclean : { d.cleanupOrphanedTempFiles with log := logEntryCodec.frames es }
      = d.cleanupOrphanedTempFiles := by
    rw [← hlog]
    rfl
  rw [openFileStorage_torn (hlog.trans (List.append_nil _).symm) logEntryCodec.decode_nil hes,
    hclean, hlog]

theorem writeAt_length (bs data : Bytes) : writeAt bs bs.length data = bs ++ data := by
  unfold writeAt
  rw [List.take_length, Nat.sub_self, List.replicate_zero, List.append_nil,
    List.drop_of_length_le (Nat.le_add_right _ _), List.append_nil]

/-- A write that goes to the end of the file, through either kind of handle. -/
theorem FileStorage.write_eq {fs : FileStorage}
    (h : fs.logFile.append = true ∨ fs.logFile.pos = fs.disk.log.length) (data : Bytes) :
    fs.write data = { fs with
        disk := { fs.disk with log := fs.disk.log ++ data }
        logFile := { fs.logFile with pos := (fs.disk.log ++ data).length } } := by
  unfold FileStorage.write
  rw [List.length_append]
  split
  · rfl
  · next happ =>
    -- a plain handle writes at its position, which is the end
    have hpos := h.resolve_left happ
    rw [hpos, writeAt_length]

@[simp] theorem FileStorage.appendEntry_loaded (fs : FileStorage) (e : LogEntry) :
    (fs.appendEntry e).loaded = fs.loaded ++ [e] := rfl

@[simp] theorem FileStorage.appendEntry_baseIndex (fs : FileStorage) (e : LogEntry) :
    (fs.appendEntry e).baseIndex = fs.baseIndex := by
  unfold FileStorage.appendEntry FileStorage.write
  split <;> rfl

/-- The index after the last one moves by one. -/
theorem FileStorage.appendEntry_next (fs : FileStorage) (e : LogEntry) :
    (fs.appendEntry e).baseIndex + (fs.appendEntry e).loaded.length + 1 =
      fs.baseIndex + fs.loaded.length + 1 + 1 := by
  simp
  omega

/-- Consecutive entries split at any point, with the numbering going on. -/
theorem consecutive_append {l l' : List LogEntry} : ∀ {i : ℕ},
    Consecutive i (l ++ l') ↔ Consecutive i l ∧ Consecutive (i + l.length) l' := by
  induction l with
  | nil => intro i; exact ⟨fun h => ⟨trivial, h⟩, fun h => h.2⟩
  | cons e l ih =>
    intro i
    have hlen : i + (e :: l).length = i + 1 + l.length := by rw [List.length_cons]; omega
    rw [List.cons_append, hlen]
    exact ⟨fun h => ⟨⟨h.1, (ih.mp h.2).1⟩, (ih.mp h.2).2⟩, fun h => ⟨h.1.1, ih.mpr ⟨h.1.2, h.2⟩⟩⟩

namespace Sound

variable {fs : FileStorage}

/-- The numbering of the loaded entries, as the filters of the interface read it. -/
theorem index_eq (h : Sound fs) (i : ℕ) (e : LogEntry) (he : fs.loaded[i]? = some e) :
    e.index = fs.baseIndex + i + 1 := by
  rw [consecutive_iff.mp h.consecutive i e he]
  omega

/-- **One entry** is appended. -/
theorem appendEntry (h : Sound fs) {e : LogEntry} (he : e.Encodable)
    (hi : e.index = fs.baseIndex + fs.loaded.length + 1) : Sound (fs.appendEntry e) := by
  unfold FileStorage.appendEntry
  rw [FileStorage.write_eq h.toEnd]
  refine ⟨?_, List.forall_mem_append.mpr ⟨h.encodable, List.forall_mem_singleton.mpr he⟩, ?_,
    Or.inr rfl⟩
  · change fs.disk.log ++ encodeLogEntry e = logEntryCodec.frames (fs.loaded ++ [e])
    rw [h.bytes, logEntryCodec.frames_append, logEntryCodec.frames_cons,
      logEntryCodec.frames_nil, List.append_nil]
    rfl
  · refine consecutive_append.mpr ⟨h.consecutive, ?_, trivial⟩
    change e.index = fs.baseIndex + 1 + fs.loaded.length
    omega

/-- **`AppendEntries`** of consecutive entries. -/
theorem appendEntries (es : List LogEntry) : ∀ {fs : FileStorage}, Sound fs →
    Consecutive (fs.baseIndex + fs.loaded.length + 1) es → (∀ e ∈ es, e.Encodable) →
    Sound (fs.appendEntries es) := by
  induction es with
  | nil => exact fun h _ _ => h
  | cons e es ih =>
    intro fs h hes henc
    -- after the first entry the rest is still next in the numbering
    have hnext := h.appendEntry (henc e List.mem_cons_self) hes.1
    refine ih hnext ?_ fun x hx => henc x (List.mem_cons_of_mem e hx)
    rw [FileStorage.appendEntry_next]
    exact hes.2

/-- What `TruncateFrom` does when it finds the index at `pos` and the offset there is true. -/
theorem truncateFrom_eq (h : Sound fs) {index pos : ℕ} (hp : fs.position index = some pos)
    (hoff : fs.offsets.getD pos 0 = (logEntryCodec.frames (fs.loaded.take pos)).length) :
    fs.truncateFrom index = { fs with
        disk := { fs.disk with log := logEntryCodec.frames (fs.loaded.take pos) }
        logFile := { fs.logFile with
          pos := (logEntryCodec.frames (fs.loaded.take pos)).length }
        offsets := fs.offsets.take pos
        loaded := fs.loaded.take pos } := by
  have hcut : truncateTo fs.disk.log (logEntryCodec.frames (fs.loaded.take pos)).length =
      logEntryCodec.frames (fs.loaded.take pos) := by
    have hle : (logEntryCodec.frames (fs.loaded.take pos)).length ≤ fs.disk.log.length := by
      rw [h.bytes]
      conv_rhs => rw [← List.take_append_drop pos fs.loaded]
      rw [logEntryCodec.frames_append, List.length_append]
      exact Nat.le_add_right _ _
    rw [truncateTo, Nat.sub_eq_zero_of_le hle, h.bytes, logEntryCodec.take_frames]
    exact List.append_nil _
  unfold FileStorage.truncateFrom
  rw [hp]
  simp only [hoff, hcut]

/-- **`TruncateFrom`** at a true offset. -/
theorem truncateFrom (h : Sound fs) {index : ℕ} (hoff : ∀ pos, fs.position index = some pos →
      fs.offsets.getD pos 0 = (logEntryCodec.frames (fs.loaded.take pos)).length) :
    Sound (fs.truncateFrom index) := by
  cases hp : fs.position index with
  | none =>
    unfold FileStorage.truncateFrom
    rw [hp]
    exact h
  | some pos =>
    rw [h.truncateFrom_eq hp (hoff pos hp)]
    refine ⟨rfl, fun e he => h.encodable e (List.mem_of_mem_take he), ?_, Or.inr rfl⟩
    -- a prefix of numbered entries is numbered
    have hc := h.consecutive
    rw [← List.take_append_drop pos fs.loaded] at hc
    exact (consecutive_append.mp hc).1

/-- **`DiscardLogThrough`.** -/
theorem discardLogThrough (h : Sound fs) (index : ℕ) : Sound (fs.discardLogThrough index) := by
  unfold FileStorage.discardLogThrough
  split
  · exact h
  · next hlt =>
    refine ⟨rfl, fun e he => h.encodable e (List.mem_of_mem_drop he), ?_, Or.inl rfl⟩
    rw [consecutive_iff]
    intro j e he
    unfold FileStorage.keep at he
    rw [List.getElem?_drop] at he
    have hidx := h.index_eq _ e he
    have hlen := (List.getElem?_eq_some_iff.mp he).1
    -- something is kept, so the drop was not clamped
    have hmin : min (index - fs.baseIndex) fs.loaded.length = index - fs.baseIndex := by omega
    rw [hmin] at hidx
    simp only
    omega

/-- **Reopening** when the log has been compacted to the snapshot. -/
theorem reopen (h : Sound fs) (hbase : fs.disk.snapshotIndex = fs.baseIndex) :
    Sound (openFileStorage fs.disk) := by
  rw [openFileStorage_eq h.bytes h.encodable]
  refine ⟨h.bytes, h.encodable, ?_, Or.inr rfl⟩
  rw [hbase]
  exact h.consecutive

/-- Entries below an index: what `TruncateFrom` has to leave. -/
theorem filter_lt (h : Sound fs) {index : ℕ} (hb : fs.baseIndex < index) :
    (fs.loaded.filter fun e => e.index < index) = fs.loaded.take (index - fs.baseIndex - 1) := by
  rw [← Node.filter_lt_of_dense h.index_eq,
    show fs.baseIndex + (index - fs.baseIndex - 1) + 1 = index by omega]

end Sound

/-! ### Offsets -/

/-- The offsets are those of the frames, and the log is compacted to the snapshot. -/
structure Aligned (fs : FileStorage) : Prop extends Sound fs where
  offsets : fs.offsets = logEntryCodec.offsets 0 fs.loaded
  compacted : fs.disk.snapshotIndex = fs.baseIndex

/-- The calls on an open storage. A snapshot is saved and the log behind it discarded in
one go. -/
inductive FileOp where
  | appendEntries (entries : List LogEntry)
  | truncateFrom (index : ℕ)
  | compact (lastIncludedIndex lastIncludedTerm : ℕ) (data : Bytes)
  | saveTermAndVote (term : ℕ) (votedFor : String)
  /-- `Close` and `OpenFileStorage`. -/
  | reopen

def FileStorage.op (fs : FileStorage) : FileOp → FileStorage
  | .appendEntries es => fs.appendEntries es
  | .truncateFrom index => fs.truncateFrom index
  | .compact index term data => (fs.saveSnapshot index term data).discardLogThrough index
  | .saveTermAndVote term votedFor => fs.saveTermAndVote term votedFor
  | .reopen => openFileStorage fs.disk

/-- Calls as `Node` makes them: entries that go on with the numbering and fit the format,
and no snapshot behind the base. -/
def FileOp.Fits (fs : FileStorage) : FileOp → Prop
  | .appendEntries es =>
    Consecutive (fs.baseIndex + fs.loaded.length + 1) es ∧ ∀ e ∈ es, e.Encodable
  | .truncateFrom _ => True
  | .compact index _ _ => fs.baseIndex ≤ index
  | .saveTermAndVote _ _ => True
  | .reopen => True

/-- Entries are appended only when the handle stands at the end of the file. -/
def FileOp.AtEnd (fs : FileStorage) : FileOp → Prop
  | .appendEntries es => es ≠ [] → fs.logFile.pos = fs.disk.log.length
  | .truncateFrom _ => True
  | .compact _ _ _ => True
  | .saveTermAndVote _ _ => True
  | .reopen => True

instance FileOp.decidableFits (fs : FileStorage) (op : FileOp) : Decidable (op.Fits fs) := by
  cases op <;> unfold FileOp.Fits <;> infer_instance

instance FileOp.decidableAtEnd (fs : FileStorage) (op : FileOp) : Decidable (op.AtEnd fs) := by
  cases op <;> unfold FileOp.AtEnd <;> infer_instance

namespace Aligned

variable {fs : FileStorage}

/-- A freshly opened directory. -/
theorem empty : Aligned (openFileStorage Disk.empty) :=
  ⟨⟨rfl, nofun, trivial, Or.inr rfl⟩, rfl, rfl⟩

/-- The offset of an entry is the size of the frames before it. -/
theorem getD_offsets (h : Aligned fs) {index pos : ℕ} (hp : fs.position index = some pos) :
    fs.offsets.getD pos 0 = (logEntryCodec.frames (fs.loaded.take pos)).length := by
  have hlt : pos < fs.loaded.length := by
    unfold FileStorage.position at hp
    split at hp
    · cases hp
    · split at hp
      · cases hp
      · next hlt =>
        cases hp
        exact not_le.mp hlt
  rw [List.getD_eq_getElem?_getD, h.offsets, logEntryCodec.offsets_getElem? hlt, Nat.zero_add]
  rfl

/-- **One entry**, appended with the handle at the end: the position is its offset. -/
theorem appendEntry (h : Aligned fs) {e : LogEntry} (he : e.Encodable)
    (hi : e.index = fs.baseIndex + fs.loaded.length + 1)
    (hpos : fs.logFile.pos = fs.disk.log.length) :
    Aligned (fs.appendEntry e) ∧
      (fs.appendEntry e).logFile.pos = (fs.appendEntry e).disk.log.length := by
  have hs := h.toSound.appendEntry he hi
  unfold FileStorage.appendEntry at hs ⊢
  rw [FileStorage.write_eq h.toEnd] at hs ⊢
  refine ⟨⟨hs, ?_, h.compacted⟩, rfl⟩
  -- the recorded offset is the handle's position: the end, where the frame goes
  change fs.offsets ++ [fs.logFile.pos] = logEntryCodec.offsets 0 (fs.loaded ++ [e])
  rw [logEntryCodec.offsets_append, hpos, h.bytes, h.offsets, Nat.zero_add]
  rfl

/-- **`AppendEntries`** with the handle at the end, entry by entry. -/
theorem appendEntries (es : List LogEntry) : ∀ {fs : FileStorage}, Aligned fs →
    (FileOp.appendEntries es).Fits fs → (FileOp.appendEntries es).AtEnd fs →
    Aligned (fs.appendEntries es) := by
  induction es with
  | nil => exact fun h _ _ => h
  | cons e es ih =>
    rintro fs h ⟨hes, henc⟩ hend
    -- a write leaves the handle at the end, so the condition is needed only once
    obtain ⟨hnext, hpos⟩ :=
      h.appendEntry (henc e List.mem_cons_self) hes.1 (hend (List.cons_ne_nil e es))
    refine ih hnext ⟨?_, fun x hx => henc x (List.mem_cons_of_mem e hx)⟩ fun _ => hpos
    rw [FileStorage.appendEntry_next]
    exact hes.2

theorem truncateFrom (h : Aligned fs) (index : ℕ) : Aligned (fs.truncateFrom index) := by
  have hs : Sound (fs.truncateFrom index) := h.toSound.truncateFrom fun pos => h.getD_offsets
  cases hp : fs.position index with
  | none =>
    unfold FileStorage.truncateFrom
    rw [hp]
    exact h
  | some pos =>
    rw [h.truncateFrom_eq hp (h.getD_offsets hp)] at hs ⊢
    refine ⟨hs, ?_, h.compacted⟩
    change fs.offsets.take pos = logEntryCodec.offsets 0 (fs.loaded.take pos)
    rw [h.offsets, logEntryCodec.offsets_take]

theorem compact (h : Aligned fs) {index : ℕ} (hb : fs.baseIndex ≤ index) (term : ℕ)
    (data : Bytes) : Aligned ((fs.saveSnapshot index term data).discardLogThrough index) := by
  have hsave : Sound (fs.saveSnapshot index term data) :=
    ⟨h.bytes, h.encodable, h.consecutive, h.toEnd⟩
  have hs := hsave.discardLogThrough index
  unfold FileStorage.discardLogThrough at hs ⊢
  split
  · -- a snapshot at the base discards nothing
    next hle => exact ⟨hsave, h.offsets, le_antisymm hle hb⟩
  · next hlt =>
    rw [if_neg hlt] at hs
    exact ⟨hs, rfl, rfl⟩

theorem reopen (h : Aligned fs) : Aligned (openFileStorage fs.disk) := by
  refine ⟨h.toSound.reopen h.compacted, ?_, ?_⟩
  · rw [openFileStorage_eq h.bytes h.encodable]
  · rw [openFileStorage_eq h.bytes h.encodable]
    rfl

/-- **Every call that fits** keeps the offsets true, if entries are appended at the end. -/
theorem op (h : Aligned fs) {op : FileOp} (hf : op.Fits fs) (he : op.AtEnd fs) :
    Aligned (fs.op op) := by
  cases op with
  | appendEntries es => exact appendEntries es h hf he
  | truncateFrom index => exact h.truncateFrom index
  | compact index term data => exact h.compact hf term data
  | saveTermAndVote term votedFor =>
    exact ⟨⟨h.bytes, h.encodable, h.consecutive, h.toEnd⟩, h.offsets, h.compacted⟩
  | reopen => exact h.reopen

/-- `TruncateFrom` leaves the frames of the entries before the index. -/
theorem truncateFrom_log (h : Aligned fs) {index : ℕ} (hb : fs.baseIndex < index) :
    (fs.truncateFrom index).disk.log =
      logEntryCodec.frames (fs.loaded.filter fun e => e.index < index) := by
  rw [h.filter_lt hb]
  cases hp : fs.position index with
  | none =>
    -- the index is past the end: nothing is cut
    unfold FileStorage.truncateFrom
    rw [hp]
    unfold FileStorage.position at hp
    rw [if_neg (not_le.mpr hb)] at hp
    split at hp
    · next hle => rw [List.take_of_length_le hle]; exact h.bytes
    · cases hp
  | some pos =>
    rw [h.truncateFrom_eq hp (h.getD_offsets hp)]
    unfold FileStorage.position at hp
    rw [if_neg (not_le.mpr hb)] at hp
    split at hp
    · cases hp
    · rw [Option.some.inj hp]

end Aligned

/-- **The byte offsets stay true.** In every state reached by calls that fit, with entries
appended only at the end of the file: the log file is the frames of the loaded entries, each
offset is where the frame of its entry starts, a truncation leaves the frames of the
entries before its index, and reopening loads the same entries. -/
theorem true_offsets {fs : FileStorage}
    (hrun : Runs (fun fs op => some (fs.op op)) (fun fs op => op.Fits fs ∧ op.AtEnd fs)
      (openFileStorage Disk.empty) fs) :
    fs.disk.log = logEntryCodec.frames fs.loaded ∧
      fs.offsets.length = fs.loaded.length ∧
      (∀ j < fs.loaded.length,
        fs.offsets[j]? = some (logEntryCodec.frames (fs.loaded.take j)).length) ∧
      (∀ index, fs.baseIndex < index → (fs.truncateFrom index).disk.log =
        logEntryCodec.frames (fs.loaded.filter fun e => e.index < index)) ∧
      (openFileStorage fs.disk).loaded = fs.loaded := by
  have h : Aligned fs := by
    refine hrun.invariant (fun fs op fs' h hok hs => ?_) Aligned.empty
    cases hs
    exact h.op hok.1 hok.2
  refine ⟨h.bytes, ?_, fun j hj => ?_, fun index hb => h.truncateFrom_log hb, ?_⟩
  · rw [h.offsets, logEntryCodec.length_offsets]
  · rw [h.offsets, logEntryCodec.offsets_getElem? hj, Nat.zero_add]
  · rw [openFileStorage_eq h.bytes h.encodable]

/-- Entries are written, replaced, compacted away, and written again. -/
theorem true_offsets_of_calls :
    ∃ fs : FileStorage,
      Runs (fun fs op => some (fs.op op)) (fun fs op => op.Fits fs ∧ op.AtEnd fs)
        (openFileStorage Disk.empty) fs ∧
      fs.loaded = [⟨2, 3, [3]⟩, ⟨2, 4, [4]⟩] ∧
      (openFileStorage fs.disk).loaded = fs.loaded := by
  have hrun : (exec (guarded (fun (fs : FileStorage) op => some (fs.op op))
      fun fs op => op.Fits fs ∧ op.AtEnd fs) (openFileStorage Disk.empty)
      [.appendEntries [⟨1, 1, [1]⟩, ⟨1, 2, [2]⟩], .truncateFrom 2, .appendEntries [⟨2, 2, [5]⟩],
        .compact 2 2 [9], .appendEntries [⟨2, 3, [3]⟩], .reopen,
        .appendEntries [⟨2, 4, [4]⟩]]).map FileStorage.loaded =
      some [⟨2, 3, [3]⟩, ⟨2, 4, [4]⟩] := by
    decide +kernel
  obtain ⟨fs, hruns, hobs⟩ := Runs.of_exec_guarded_map hrun
  exact ⟨fs, hruns, hobs, (true_offsets hruns).2.2.2.2⟩

/-- **A truncation empties the file.** Three entries are written, the first is compacted away,
and a fourth is written: its offset is recorded as `0`. Truncating it again cuts the file
at `0`, while two entries stay loaded; reopening loads none. -/
theorem truncation_empties_the_file : ∃ fs : FileStorage,
      Runs (fun fs op => some (fs.op op)) (fun fs op => op.Fits fs)
        (openFileStorage Disk.empty) fs ∧
      fs.loaded = [⟨1, 2, [2]⟩, ⟨1, 3, [3]⟩] ∧ fs.disk.log = [] ∧
      (openFileStorage fs.disk).loaded = [] := by
  have hrun : (exec (guarded (fun (fs : FileStorage) op => some (fs.op op))
      fun fs op => op.Fits fs) (openFileStorage Disk.empty)
      [.appendEntries [⟨1, 1, [1]⟩, ⟨1, 2, [2]⟩, ⟨1, 3, [3]⟩], .compact 1 1 [],
        .appendEntries [⟨1, 4, [4]⟩], .truncateFrom 4]).map
        (fun fs => (fs.loaded, fs.disk.log, (openFileStorage fs.disk).loaded)) =
      some ([⟨1, 2, [2]⟩, ⟨1, 3, [3]⟩], [], []) := by
    decide +kernel
  obtain ⟨fs, hs, hobs⟩ := Runs.of_exec_guarded_map hrun
  simp only [Prod.mk.injEq] at hobs
  exact ⟨fs, hs, hobs⟩

end Raft
end BoilerPulse
