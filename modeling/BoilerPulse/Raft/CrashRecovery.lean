import BoilerPulse.Raft.FileOffsets
import Mathlib.Data.List.Infix

/-!
# Recovery from a crash

`FileStorage` against the `Storage` interface it implements, when the process may stop between
any two effects on the file system. A `Store` runs the two side by side: `persisted` is the
storage as the interface describes it, with the calls made so far. `Store.cuts` lists, for
each call, the directory at every point between two of its effects — a write to the log
file, a write to a temporary file, a rename — and what is persisted there; a crash leaves one
of these, and the next thing that happens is `OpenFileStorage`.

The loaded entries then have to be the persisted ones after the base. They need not be:
`SaveSnapshot` and `DiscardLogThrough` rename two different files, and `OpenFileStorage` takes the
base from the one and all entries from the other. Between the two renames the log
file still holds entries that the snapshot covers, and they are taken for the entries after
it (`crash_between_renames`). `Storage.Compacted` excludes these points; the other condition is
that truncations cut at true offsets.

The invariant is `Recorded`: the file storage is `Sound`, its base is not past the snapshot, and
what its loading methods return is what is persisted. `Cut` is what is left of it between two
effects of a call, and `Cut.recover` gets it back.
-/

namespace BoilerPulse
namespace Raft

open Framework

/-! ### The two storages side by side -/

/-- The calls that change the storage. -/
inductive FileCall where
  | appendEntries (entries : List LogEntry)
  | truncateFrom (index : ℕ)
  | saveSnapshot (lastIncludedIndex lastIncludedTerm : ℕ) (data : Bytes)
  | discardLogThrough (index : ℕ)
  | saveTermAndVote (term : ℕ) (votedFor : String)

def FileStorage.call (fs : FileStorage) : FileCall → FileStorage
  | .appendEntries es => fs.appendEntries es
  | .truncateFrom index => fs.truncateFrom index
  | .saveSnapshot index term data => fs.saveSnapshot index term data
  | .discardLogThrough index => fs.discardLogThrough index
  | .saveTermAndVote term votedFor => fs.saveTermAndVote term votedFor

def Storage.call (st : Storage) : FileCall → Storage
  | .appendEntries es => st.appendEntries es
  | .truncateFrom index => st.truncateFrom index
  | .saveSnapshot index term data => st.saveSnapshot index term data
  | .discardLogThrough index => st.discardLogThrough index
  | .saveTermAndVote term votedFor => st.saveTermAndVote term votedFor

/-- A file storage, and the storage its callers mean. -/
structure Store where
  file : FileStorage
  persisted : Storage
  deriving DecidableEq, Repr

namespace Store

/-- A storage opened on a new directory. -/
def empty : Store where
  file := openFileStorage Disk.empty
  persisted := Storage.empty

/-- The points between two effects of a call, from before the first to after the last:
the directory, and what is persisted. -/
def cuts (s : Store) : FileCall → List (Disk × Storage)
  | .appendEntries es =>
    es.inits.map fun written =>
      ((s.file.appendEntries written).disk, s.persisted.appendEntries written)
  | .truncateFrom index =>
    [(s.file.disk, s.persisted), ((s.file.truncateFrom index).disk, s.persisted.truncateFrom index)]
  | .saveSnapshot index term data =>
    [(s.file.disk, s.persisted),
      ({ s.file.disk with snapshotTmp := some ⟨index, term, data⟩ }, s.persisted),
      ((s.file.saveSnapshot index term data).disk, s.persisted.saveSnapshot index term data)]
  | .discardLogThrough index =>
    if index ≤ s.file.baseIndex then [(s.file.disk, s.persisted)]
    else
      (s.file.disk, s.persisted) :: ((s.file.keep index).inits.map fun written =>
          ({ s.file.disk with logTmp := some (logEntryCodec.frames written) }, s.persisted)) ++
        [((s.file.discardLogThrough index).disk, s.persisted.discardLogThrough index)]
  | .saveTermAndVote term votedFor =>
    [(s.file.disk, s.persisted),
      ({ s.file.disk with stateTmp := some (term, votedFor) }, s.persisted),
      ((s.file.saveTermAndVote term votedFor).disk, s.persisted.saveTermAndVote term votedFor)]

/-- A call is made, or the process crashes at the `k`-th point of a call and the storage is
opened again. -/
inductive Action where
  | call (c : FileCall)
  | crash (c : FileCall) (k : ℕ)

def step (s : Store) : Action → Option Store
  | .call c => some ⟨s.file.call c, s.persisted.call c⟩
  | .crash c k => (s.cuts c)[k]?.map fun cut => ⟨openFileStorage cut.1, cut.2⟩

end Store

/-! ### The conditions -/

/-- Calls as `Node` makes them: entries that go on with the numbering and fit the format, no
index that is already compacted, and nothing discarded that the snapshot does not cover. -/
def FileCall.Fits (fs : FileStorage) : FileCall → Prop
  | .appendEntries es =>
    Consecutive (fs.baseIndex + fs.loaded.length + 1) es ∧ ∀ e ∈ es, e.Encodable
  | .truncateFrom index => fs.baseIndex < index
  | .saveSnapshot index _ _ => fs.baseIndex ≤ index
  | .discardLogThrough index => index ≤ fs.disk.snapshotIndex
  | .saveTermAndVote _ _ => True

/-- A truncation finds the true offset of the entry it cuts at. -/
def FileCall.TrueOffset (fs : FileStorage) : FileCall → Prop
  | .truncateFrom index => ∀ pos ∈ fs.position index,
      fs.offsets.getD pos 0 = (logEntryCodec.frames (fs.loaded.take pos)).length
  | .appendEntries _ => True
  | .saveSnapshot _ _ _ => True
  | .discardLogThrough _ => True
  | .saveTermAndVote _ _ => True

/-- No persisted entry is covered by the persisted snapshot. -/
def Storage.Compacted (st : Storage) : Prop :=
  ∀ e ∈ st.log, st.snapshotIndex < e.index

namespace Store

/-- The calls are as `Node` makes them. -/
def WellCalled (s : Store) : Action → Prop
  | .call c => c.Fits s.file
  | .crash c _ => c.Fits s.file

/-- Truncations find true offsets, and no crash comes while the log file holds entries
that the snapshot covers. -/
def Recoverable (s : Store) : Action → Prop
  | .call c => c.TrueOffset s.file
  | .crash c k => c.TrueOffset s.file ∧ ∀ cut ∈ (s.cuts c)[k]?, cut.2.Compacted

end Store

instance FileCall.decidableFits (fs : FileStorage) (c : FileCall) : Decidable (c.Fits fs) := by
  cases c <;> unfold FileCall.Fits <;> infer_instance

instance FileCall.decidableTrueOffset (fs : FileStorage) (c : FileCall) :
    Decidable (c.TrueOffset fs) := by
  cases c <;> unfold FileCall.TrueOffset <;> infer_instance

instance (st : Storage) : Decidable st.Compacted :=
  inferInstanceAs (Decidable (∀ e ∈ st.log, st.snapshotIndex < e.index))

instance Store.decidableWellCalled (s : Store) (a : Store.Action) : Decidable (s.WellCalled a) := by
  cases a <;> unfold Store.WellCalled <;> infer_instance

instance Store.decidableRecoverable (s : Store) (a : Store.Action) :
    Decidable (s.Recoverable a) := by
  cases a <;> unfold Store.Recoverable <;> infer_instance

/-! ### Refinement: what the loading methods return -/

namespace FileStorage

variable {fs : FileStorage}

theorem toStorage_appendEntry (fs : FileStorage) (e : LogEntry) :
    (fs.appendEntry e).toStorage = fs.toStorage.appendEntries [e] := by
  unfold appendEntry write
  split <;> rfl

theorem toStorage_appendEntries (es : List LogEntry) : ∀ fs : FileStorage,
    (fs.appendEntries es).toStorage = fs.toStorage.appendEntries es := by
  induction es with
  | nil =>
    intro fs
    unfold Storage.appendEntries
    rw [List.append_nil]
    rfl
  | cons e es ih =>
    intro fs
    change ((fs.appendEntry e).appendEntries es).toStorage = _
    rw [ih, toStorage_appendEntry]
    unfold Storage.appendEntries
    simp only [List.append_assoc, List.singleton_append]

theorem toStorage_truncateFrom (h : Sound fs) {index : ℕ} (hb : fs.baseIndex < index) :
    (fs.truncateFrom index).toStorage = fs.toStorage.truncateFrom index := by
  have hlog : (fs.truncateFrom index).loaded = fs.loaded.filter fun e => e.index < index := by
    rw [h.filter_lt hb]
    unfold truncateFrom position
    rw [if_neg (not_le.mpr hb)]
    by_cases hle : fs.loaded.length ≤ index - fs.baseIndex - 1
    · rw [if_pos hle, List.take_of_length_le hle]
    · rw [if_neg hle]
  have hdisk : (fs.truncateFrom index).disk.state = fs.disk.state ∧
      (fs.truncateFrom index).disk.snapshot = fs.disk.snapshot := by
    unfold truncateFrom
    split <;> exact ⟨rfl, rfl⟩
  unfold toStorage Storage.truncateFrom
  rw [hlog, hdisk.1, hdisk.2]

theorem toStorage_discardLogThrough (h : Sound fs) (index : ℕ) :
    (fs.discardLogThrough index).toStorage = fs.toStorage.discardLogThrough index := by
  -- on a numbered log, the entries after the index are what is left after dropping
  have hfilter := fun k => Node.filter_gt_of_dense h.index_eq k
  have hlog : (fs.discardLogThrough index).loaded = fs.loaded.filter fun e => index < e.index := by
    unfold discardLogThrough
    split
    · next hle =>
      -- at or below the base there is nothing to discard
      refine (List.filter_eq_self.mpr fun e he => ?_).symm
      obtain ⟨i, hi⟩ := List.mem_iff_getElem?.mp he
      have := h.index_eq i e hi
      exact decide_eq_true (by omega)
    · next hlt =>
      change fs.loaded.drop (min (index - fs.baseIndex) fs.loaded.length) = _
      have hk := hfilter (index - fs.baseIndex)
      rw [Nat.add_sub_cancel' (not_le.mp hlt).le] at hk
      rw [hk]
      by_cases hle : index - fs.baseIndex ≤ fs.loaded.length
      · rw [Nat.min_eq_left hle]
      · rw [Nat.min_eq_right (not_le.mp hle).le, List.drop_length,
          List.drop_of_length_le (not_le.mp hle).le]
  have hdisk : (fs.discardLogThrough index).disk.state = fs.disk.state ∧
      (fs.discardLogThrough index).disk.snapshot = fs.disk.snapshot := by
    unfold discardLogThrough
    split <;> exact ⟨rfl, rfl⟩
  unfold toStorage Storage.discardLogThrough
  rw [hlog, hdisk.1, hdisk.2]

/-- **The file storage does what the interface says**, call by call. -/
theorem toStorage_call (h : Sound fs) {c : FileCall} (hf : c.Fits fs) :
    (fs.call c).toStorage = fs.toStorage.call c := by
  cases c with
  | appendEntries es => exact toStorage_appendEntries es fs
  | truncateFrom index => exact toStorage_truncateFrom h hf
  | saveSnapshot index term data => rfl
  | discardLogThrough index => exact toStorage_discardLogThrough h index
  | saveTermAndVote term votedFor => rfl

end FileStorage

/-! ### The invariant between calls -/

/-- The file storage is sound, its base is not past the snapshot, and it holds what is
persisted. -/
structure Recorded (s : Store) : Prop where
  sound : Sound s.file
  base_le : s.file.baseIndex ≤ s.file.disk.snapshotIndex
  persisted : s.persisted = s.file.toStorage

namespace Recorded

variable {s : Store}

theorem empty : Recorded Store.empty :=
  ⟨Aligned.empty.toSound, le_rfl, rfl⟩

/-- Every call keeps the base within the snapshot. -/
theorem base_le_call (h : Recorded s) {c : FileCall} (hf : c.Fits s.file) :
    (s.file.call c).baseIndex ≤ (s.file.call c).disk.snapshotIndex := by
  -- the snapshot of the file is that of the storage it stands for
  have hsnap : ∀ fs : FileStorage, fs.disk.snapshotIndex = fs.toStorage.snapshotIndex :=
    fun _ => rfl
  cases c with
  | appendEntries es =>
    change (s.file.appendEntries es).baseIndex ≤ (s.file.appendEntries es).disk.snapshotIndex
    -- entry by entry, the base stays where it is
    have hbase : ∀ (es : List LogEntry) (fs : FileStorage),
        (fs.appendEntries es).baseIndex = fs.baseIndex := by
      intro es
      induction es with
      | nil => exact fun _ => rfl
      | cons e es ih => exact fun fs => (ih (fs.appendEntry e)).trans (fs.appendEntry_baseIndex e)
    rw [hbase, hsnap, FileStorage.toStorage_appendEntries]
    exact h.base_le
  | truncateFrom index =>
    change (s.file.truncateFrom index).baseIndex ≤ (s.file.truncateFrom index).disk.snapshotIndex
    unfold FileStorage.truncateFrom
    split <;> exact h.base_le
  | saveSnapshot index term data => exact hf
  | discardLogThrough index =>
    change (s.file.discardLogThrough index).baseIndex ≤
      (s.file.discardLogThrough index).disk.snapshotIndex
    unfold FileStorage.discardLogThrough
    split
    · exact h.base_le
    · exact hf
  | saveTermAndVote term votedFor => exact h.base_le

/-- **Every call that fits** keeps the invariant, if truncations find true offsets. -/
theorem call (h : Recorded s) {c : FileCall} (hf : c.Fits s.file) (ho : c.TrueOffset s.file) :
    Recorded ⟨s.file.call c, s.persisted.call c⟩ where
  sound := by
    cases c with
    | appendEntries es => exact Sound.appendEntries es h.sound hf.1 hf.2
    | truncateFrom index => exact h.sound.truncateFrom ho
    | saveSnapshot index term data | saveTermAndVote term votedFor =>
      exact ⟨h.sound.bytes, h.sound.encodable, h.sound.consecutive, h.sound.toEnd⟩
    | discardLogThrough index => exact h.sound.discardLogThrough index
  base_le := h.base_le_call hf
  persisted := by
    rw [h.persisted]
    exact (FileStorage.toStorage_call h.sound hf).symm

end Recorded

/-! ### Between two effects -/

/-- What holds of the directory and the persisted storage at every point of a call: the log
file holds the persisted entries, which are numbered from a base that is not past
the snapshot. -/
structure Cut (d : Disk) (st : Storage) : Prop where
  log : d.log = logEntryCodec.frames st.log
  encodable : ∀ e ∈ st.log, e.Encodable
  numbered : ∃ b ≤ st.snapshotIndex, Consecutive (b + 1) st.log
  snapshot : d.snapshot = st.snapshot
  state : d.state.getD (0, "") = (st.term, st.votedFor)

namespace Cut

variable {d : Disk} {st : Storage} {s : Store}

/-- Between two calls. -/
theorem of_recorded (h : Recorded s) : Cut s.file.disk s.persisted := by
  rw [h.persisted]
  exact ⟨h.sound.bytes, h.sound.encodable, ⟨_, h.base_le, h.sound.consecutive⟩, rfl, rfl⟩

/-- After a call. -/
theorem of_call (h : Recorded s) {c : FileCall} (hf : c.Fits s.file) (ho : c.TrueOffset s.file) :
    Cut (s.file.call c).disk (s.persisted.call c) :=
  of_recorded (h.call hf ho)

/-- Temporary files do not count. -/
theorem congr (h : Cut d st) {d' : Disk} (hlog : d'.log = d.log)
    (hsnap : d'.snapshot = d.snapshot) (hstate : d'.state = d.state) : Cut d' st :=
  ⟨hlog.trans h.log, h.encodable, h.numbered, hsnap.trans h.snapshot, by rw [hstate]; exact h.state⟩

/-- **Every point of every call** is such a cut. -/
theorem of_mem_cuts (h : Recorded s) {c : FileCall} (hf : c.Fits s.file)
    (ho : c.TrueOffset s.file) {cut : Disk × Storage} (hc : cut ∈ s.cuts c) :
    Cut cut.1 cut.2 := by
  have hbefore := of_recorded h
  have hafter := of_call h hf ho
  cases c with
  | appendEntries es =>
    -- some of the entries have been written
    obtain ⟨written, hw, rfl⟩ := List.mem_map.mp hc
    obtain ⟨rest, rfl⟩ := (List.mem_inits written es).mp hw
    exact of_call (c := .appendEntries written) h
      ⟨(consecutive_append.mp hf.1).1, fun e he => hf.2 e (List.mem_append_left _ he)⟩ trivial
  | truncateFrom index =>
    rcases List.mem_pair.mp hc with rfl | rfl
    · exact hbefore
    · exact hafter
  | saveSnapshot index term data =>
    rcases List.mem_cons.mp hc with rfl | hc
    · exact hbefore
    · -- the temporary file is written, and then renamed
      rcases List.mem_pair.mp hc with rfl | rfl
      · exact hbefore.congr rfl rfl rfl
      · exact hafter
  | discardLogThrough index =>
    unfold Store.cuts at hc
    simp only at hc
    split at hc
    · rw [List.mem_singleton.mp hc]; exact hbefore
    · rcases List.mem_append.mp hc with hc | hc
      · rcases List.mem_cons.mp hc with rfl | hc
        · exact hbefore
        · -- the temporary file grows, and nothing else changes
          obtain ⟨written, -, rfl⟩ := List.mem_map.mp hc
          exact hbefore.congr rfl rfl rfl
      · rw [List.mem_singleton.mp hc]; exact hafter
  | saveTermAndVote term votedFor =>
    rcases List.mem_cons.mp hc with rfl | hc
    · exact hbefore
    · rcases List.mem_pair.mp hc with rfl | rfl
      · exact hbefore.congr rfl rfl rfl
      · exact hafter

/-- **Opening a cut** whose log is compacted gets everything back: the base is the
snapshot's index, and the entries are those persisted. -/
theorem recover (h : Cut d st) (hc : st.Compacted) :
    Recorded ⟨openFileStorage d, st⟩ ∧ (openFileStorage d).baseIndex = st.snapshotIndex ∧
      (openFileStorage d).loaded = st.log := by
  have hidx : d.snapshotIndex = st.snapshotIndex := by
    unfold Disk.snapshotIndex Storage.snapshotIndex
    rw [h.snapshot]
  -- no entry is covered, so the numbering starts right after the snapshot
  have hnum : Consecutive (st.snapshotIndex + 1) st.log := by
    obtain ⟨b, hb, hcons⟩ := h.numbered
    cases hlog : st.log with
    | nil => exact trivial
    | cons e es =>
      rw [hlog] at hcons
      have hfirst : e.index = b + 1 := hcons.1
      have hgt := hc e (by rw [hlog]; exact List.mem_cons_self)
      obtain rfl : b = st.snapshotIndex := by omega
      exact hcons
  rw [openFileStorage_eq h.log h.encodable]
  refine ⟨⟨⟨h.log, h.encodable, ?_, Or.inr rfl⟩, le_rfl, ?_⟩, hidx, rfl⟩
  · change Consecutive (d.snapshotIndex + 1) st.log
    rw [hidx]
    exact hnum
  · have hstate := h.state
    unfold FileStorage.toStorage Disk.cleanupOrphanedTempFiles
    simp only [h.snapshot, hstate]

end Cut

/-- **Every recoverable action** keeps the invariant. -/
theorem Recorded.step {s s' : Store} {a : Store.Action} (h : Recorded s) (hw : s.WellCalled a)
    (hr : s.Recoverable a) (hs : s.step a = some s') : Recorded s' := by
  cases a with
  | call c =>
    cases hs
    exact h.call hw hr
  | crash c k =>
    obtain ⟨cut, hcut, rfl⟩ := Option.map_eq_some_iff.mp hs
    exact ((Cut.of_mem_cuts h hw hr.1 (List.mem_of_getElem? hcut)).recover (hr.2 cut hcut)).1

/-- A node that `NewNode` starts from a numbered storage has a numbered log. -/
theorem Node.Dense.of_newNode {σ : Type} {M : StateMachine σ} {id : String} {peers : List String}
    {st : Storage} {sm : σ} {opts : Options} {n : Node σ}
    (hn : newNode M id peers st sm opts = some n)
    (hst : ∀ j e, st.log[j]? = some e → e.index = st.snapshotIndex + j + 1) : n.Dense := by
  obtain ⟨sm', i, t, hsnap, rfl⟩ := n.newNode_eq hn
  unfold Storage.snapshotIndex at hst
  rcases hsnap with ⟨hs, -, rfl, rfl⟩ | ⟨snap, hs, -, rfl, rfl⟩
  · rw [hs] at hst; exact hst
  · rw [hs] at hst; exact hst

/-- **Recovery.** After any run in which truncations find true offsets and no crash
comes while the log file holds entries that the snapshot covers, and after one more such
crash: the base is the index of the persisted snapshot, the loaded entries are numbered from
it and are exactly the persisted entries after it, and a node started on the storage has
a numbered log. -/
theorem crash_recovery {s s' : Store}
    (hrun : Runs Store.step (fun s a => s.WellCalled a ∧ s.Recoverable a) Store.empty s)
    (c : FileCall) (k : ℕ) (hw : s.WellCalled (.crash c k)) (hr : s.Recoverable (.crash c k))
    (hs : s.step (.crash c k) = some s') :
    s'.file.baseIndex = s'.persisted.snapshotIndex ∧
      (∀ j e, s'.file.loaded[j]? = some e → e.index = s'.file.baseIndex + j + 1) ∧
      s'.file.loaded = s'.persisted.log.filter (fun e => s'.file.baseIndex < e.index) ∧
      ∀ (σ : Type) (M : StateMachine σ) (id : String) (peers : List String) (sm : σ)
        (opts : Options) (n : Node σ),
        newNode M id peers s'.file.toStorage sm opts = some n → n.Dense := by
  have h : Recorded s := hrun.invariant (fun _ _ _ h hok hs => h.step hok.1 hok.2 hs) Recorded.empty
  obtain ⟨cut, hcut, rfl⟩ := Option.map_eq_some_iff.mp hs
  have hcompact := hr.2 cut hcut
  obtain ⟨hrec, hbase, hloaded⟩ :=
    (Cut.of_mem_cuts h hw hr.1 (List.mem_of_getElem? hcut)).recover hcompact
  have hidx := hrec.sound.index_eq
  refine ⟨hbase, hidx, ?_, fun σ M id peers sm opts n hn => ?_⟩
  · -- nothing persisted is covered by the snapshot, so the filter keeps everything
    simp only [hbase, hloaded]
    exact (List.filter_eq_self.mpr fun e he => decide_eq_true (hcompact e he)).symm
  · refine Node.Dense.of_newNode hn fun j e he => ?_
    have := hidx j e he
    rw [hbase] at this
    rw [← hrec.persisted]
    exact this

/-- Three entries, one crash while a fourth is written, a compaction that a crash
interrupts before the snapshot is renamed, and one that completes. -/
theorem crash_recovery_of_calls : ∃ s s' : Store,
      Runs Store.step (fun s a => s.WellCalled a ∧ s.Recoverable a) Store.empty s ∧
      s.step (.crash (.saveTermAndVote 2 "b") 1) = some s' ∧ s'.file.baseIndex = 2 ∧
      s'.file.loaded = [⟨1, 3, [3]⟩] ∧
      s'.file.loaded = s'.persisted.log.filter (fun e => s'.file.baseIndex < e.index) := by
  have hrun : ((exec (guarded Store.step fun s a => s.WellCalled a ∧ s.Recoverable a) Store.empty
      [.call (.appendEntries [⟨1, 1, [1]⟩, ⟨1, 2, [2]⟩]),
        .crash (.appendEntries [⟨1, 3, [3]⟩, ⟨1, 4, [4]⟩]) 1, .crash (.saveSnapshot 2 1 [9]) 1,
        .call (.saveSnapshot 2 1 [9]), .call (.discardLogThrough 2)]).bind fun s =>
        (guarded Store.step (fun s a => s.WellCalled a ∧ s.Recoverable a) s
          (.crash (.saveTermAndVote 2 "b") 1)).map fun s' =>
        (s'.file.baseIndex, s'.file.loaded)) = some (2, [⟨1, 3, [3]⟩]) := by
    decide +kernel
  obtain ⟨s, hs, hrest⟩ := Option.bind_eq_some_iff.mp hrun
  obtain ⟨s', hs', hobs⟩ := Option.map_eq_some_iff.mp hrest
  simp only [Prod.mk.injEq] at hobs
  have hruns := Runs.of_exec_guarded hs
  unfold guarded at hs'
  split at hs'
  · next hok =>
    exact ⟨s, s', hruns, hs', hobs.1, hobs.2, (crash_recovery hruns _ _ hok.1 hok.2 hs').2.2.1⟩
  · cases hs'

/-- **A crash between the two renames.** Three entries are written, and the process stops after
`SaveSnapshot(2)` has renamed its file and before `DiscardLogThrough(2)`: the storage opens with
base 2 and all three entries, the first of them with index 1. -/
theorem crash_between_renames : ∃ s s' : Store,
      Runs Store.step Store.WellCalled Store.empty s ∧
      s.WellCalled (.crash (.saveSnapshot 2 1 [9]) 2) ∧
      s.step (.crash (.saveSnapshot 2 1 [9]) 2) = some s' ∧ s'.file.baseIndex = 2 ∧
      s'.file.loaded = [⟨1, 1, [1]⟩, ⟨1, 2, [2]⟩, ⟨1, 3, [3]⟩] := by
  have hrun : ((exec (guarded Store.step Store.WellCalled) Store.empty
      [.call (.appendEntries [⟨1, 1, [1]⟩, ⟨1, 2, [2]⟩, ⟨1, 3, [3]⟩])]).bind fun s =>
        (guarded Store.step Store.WellCalled s (.crash (.saveSnapshot 2 1 [9]) 2)).map fun s' =>
        (s'.file.baseIndex, s'.file.loaded)) =
      some (2, [⟨1, 1, [1]⟩, ⟨1, 2, [2]⟩, ⟨1, 3, [3]⟩]) := by
    decide +kernel
  obtain ⟨s, hs, hrest⟩ := Option.bind_eq_some_iff.mp hrun
  obtain ⟨s', hs', hobs⟩ := Option.map_eq_some_iff.mp hrest
  simp only [Prod.mk.injEq] at hobs
  unfold guarded at hs'
  split at hs'
  · next hok =>
    exact ⟨s, s', Runs.of_exec_guarded hs, hok, hs', hobs⟩
  · cases hs'

end Raft
end BoilerPulse
