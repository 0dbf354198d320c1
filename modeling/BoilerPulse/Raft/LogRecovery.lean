import BoilerPulse.Framework.Checksum
import BoilerPulse.Framework.Runs
import BoilerPulse.Raft.FileOffsets

/-!
# Raft: recovery of a log file that is cut off

A crash in the middle of a write leaves a byte prefix of the log file. `replayLogFile` reads the
frames that are wholly within it (`replayLogFile_take`), and `OpenFileStorage` truncates the file to
them, so that what is appended next goes to the end of the last whole frame.

A `LogFile` runs through any number of such rounds: entries are appended, the process stops and the
file is left with its first `n` bytes, the storage is opened again. Beside the storage it keeps
the entries that ought to be there, and `LogFile.Exact` says that they are: in memory, in the
file, and with the right offsets.

A file may also come back with some of its bytes changed. `OpenFileStorage` then goes on from the
entries in front of the damaged one, as from a file that is cut off there (`Exact.of_damage`).
-/

namespace BoilerPulse
namespace Raft

open Framework

/-- **Replay of a log file that is cut off** returns the entries whose frames are whole, their
offsets, and their length. -/
theorem replayLogFile_take {es : List LogEntry} (h : ∀ e ∈ es, e.Encodable) (n : ℕ) :
    replayLogFile ((logEntryCodec.frames es).take n) = (es.take (logEntryCodec.whole n es),
        logEntryCodec.offsets 0 (es.take (logEntryCodec.whole n es)),
        (logEntryCodec.frames (es.take (logEntryCodec.whole n es))).length) := by
  rw [replayLogFile, logEntryCodec.scan_take logEntryCodec_cutsOff h n 0 (Nat.lt_succ_self _),
    Nat.zero_add]

/-- A storage, and the entries that its log ought to hold. -/
structure LogFile where
  file : FileStorage
  entries : List LogEntry
  deriving DecidableEq, Repr

namespace LogFile

inductive Action where
  /-- `AppendEntries` succeeds. -/
  | append (es : List LogEntry)
  /-- The process stops, the first `n` bytes of the log file are left of it, and
  `OpenFileStorage` is called. -/
  | cut (n : ℕ)

def step (s : LogFile) : Action → Option LogFile
  | .append es => some ⟨s.file.appendEntries es, s.entries ++ es⟩
  | .cut n => some
      { file := openFileStorage { s.file.disk with log := s.file.disk.log.take n }
        entries := s.entries.take (logEntryCodec.whole n s.entries) }

/-- The entries that are appended fit the format. -/
def Fits (_ : LogFile) : Action → Prop
  | .append es => ∀ e ∈ es, e.Encodable
  | .cut _ => True

instance (s : LogFile) (a : Action) : Decidable (s.Fits a) := by
  cases a <;> unfold Fits <;> infer_instance

/-- The log is exactly the entries, and what is written next goes to its end. -/
structure Exact (s : LogFile) : Prop where
  encodable : ∀ e ∈ s.entries, e.Encodable
  loaded : s.file.loaded = s.entries
  offsets : s.file.offsets = logEntryCodec.offsets 0 s.entries
  bytes : s.file.disk.log = logEntryCodec.frames s.entries
  handle : s.file.logFile = ⟨s.file.disk.log.length, false⟩

namespace Exact

variable {s s' : LogFile}

/-- What `OpenFileStorage` makes of the first `n` bytes of a log file. -/
theorem of_cut {d : Disk} {es : List LogEntry} {n : ℕ} (hes : ∀ e ∈ es, e.Encodable)
    (hlog : d.log = (logEntryCodec.frames es).take n) :
    Exact ⟨openFileStorage d, es.take (logEntryCodec.whole n es)⟩ := by
  obtain ⟨tail, htake, htail⟩ := logEntryCodec.take_eq_whole logEntryCodec_cutsOff hes n
  have henc : ∀ e ∈ es.take (logEntryCodec.whole n es), e.Encodable :=
    fun e he => hes e (List.mem_of_mem_take he)
  rw [openFileStorage_torn (hlog.trans htake) htail henc]
  exact ⟨henc, rfl, rfl, rfl, rfl⟩

/-- **One entry** is appended. -/
theorem appendEntry (h : Exact s) {e : LogEntry} (he : e.Encodable) :
    Exact ⟨s.file.appendEntry e, s.entries ++ [e]⟩ := by
  have hframe : logEntryCodec.frames [e] = encodeLogEntry e := List.append_nil _
  have hpos : s.file.logFile.pos = (logEntryCodec.frames s.entries).length := by
    rw [h.handle, h.bytes]
  unfold FileStorage.appendEntry
  rw [FileStorage.write_eq (Or.inr (congrArg File.pos h.handle))]
  refine ⟨?_, ?_, ?_, ?_, ?_⟩
  · exact List.forall_mem_append.mpr ⟨h.encodable, List.forall_mem_singleton.mpr he⟩
  · show s.file.loaded ++ [e] = s.entries ++ [e]
    rw [h.loaded]
  · -- the position of the handle is the length of the frames before the new one
    show s.file.offsets ++ [s.file.logFile.pos] = logEntryCodec.offsets 0 (s.entries ++ [e])
    rw [logEntryCodec.offsets_append, h.offsets, hpos, Nat.zero_add]
    rfl
  · show s.file.disk.log ++ encodeLogEntry e = logEntryCodec.frames (s.entries ++ [e])
    rw [logEntryCodec.frames_append, h.bytes, hframe]
  · show (⟨_, s.file.logFile.append⟩ : File) = _
    rw [h.handle]

/-- **`AppendEntries`.** -/
theorem appendEntries (es : List LogEntry) : ∀ {s : LogFile}, Exact s → (∀ e ∈ es, e.Encodable) →
    Exact ⟨s.file.appendEntries es, s.entries ++ es⟩ := by
  induction es with
  | nil =>
    intro s h _
    rw [List.append_nil]
    exact h
  | cons e es ih =>
    intro s h hes
    have hnext := h.appendEntry (hes e List.mem_cons_self)
    have := ih hnext fun x hx => hes x (List.mem_cons_of_mem e hx)
    rwa [List.append_assoc] at this

theorem step (h : Exact s) {a : Action} (ha : s.Fits a) (hs : s.step a = some s') : Exact s' := by
  cases a with
  | append es =>
    cases hs
    exact h.appendEntries es ha
  | cut n =>
    cases hs
    refine of_cut h.encodable ?_
    show s.file.disk.log.take n = _
    rw [h.bytes]

/-- Opening the storage once more changes nothing that can be seen. -/
theorem reopen (h : Exact s) : (openFileStorage s.file.disk).loaded = s.entries := by
  rw [openFileStorage_eq h.bytes h.encodable]

end Exact

end LogFile

/-- **A log file that is cut off anywhere is recovered exactly, round after round.** Of a byte
prefix of the frames of `es` the first `k` entries are read, which are those whose frames end
within it. A storage opened on it goes on from these: whatever is appended and cut off after
that, the loaded entries, their offsets, and the entries that another `OpenFileStorage` loads
are the ones that ought to be there. The other files of the directory do not matter. -/
theorem log_recovery_exact {es : List LogEntry} (hes : ∀ e ∈ es, e.Encodable) {log : Bytes}
    (hlog : log <+: logEntryCodec.frames es) : ∃ k ≤ es.length,
      (∀ i < es.length, i < k ↔ (logEntryCodec.frames (es.take (i + 1))).length ≤ log.length) ∧
      replayLogFile log = (es.take k, logEntryCodec.offsets 0 (es.take k),
        (logEntryCodec.frames (es.take k)).length) ∧
      ∀ d : Disk, d.log = log → ∀ s : LogFile,
        Runs LogFile.step LogFile.Fits ⟨openFileStorage d, es.take k⟩ s →
          s.file.loaded = s.entries ∧ s.file.offsets = logEntryCodec.offsets 0 s.entries ∧
          (openFileStorage s.file.disk).loaded = s.entries := by
  have hcut : log = (logEntryCodec.frames es).take log.length := List.prefix_iff_eq_take.mp hlog
  refine ⟨min (logEntryCodec.whole log.length es) es.length, Nat.min_le_right _ _, ?_, ?_, ?_⟩
  · intro i hi
    rw [← logEntryCodec.lt_whole_iff hi]
    omega
  · rw [← List.take_eq_take_min, ← replayLogFile_take hes, ← hcut]
  · intro d hd s hruns
    rw [← List.take_eq_take_min] at hruns
    have hexact : s.Exact := hruns.invariant (fun _ _ _ h ha hs => h.step ha hs)
      (LogFile.Exact.of_cut hes (hd.trans hcut))
    exact ⟨hexact.loaded, hexact.offsets, hexact.reopen⟩

/-- Three entries. -/
def threeEntries : List LogEntry :=
  [⟨1, 1, [7]⟩, ⟨1, 2, [8]⟩, ⟨2, 3, []⟩]

/-- A file that ends in the middle of the second of three frames. An entry is appended to it and its
last byte lost, and another one is appended. -/
theorem log_recovery_of_torn_entries : ∃ s : LogFile,
    Runs LogFile.step LogFile.Fits
      ⟨openFileStorage { Disk.empty with log := (logEntryCodec.frames threeEntries).take 40 },
        threeEntries.take 1⟩ s ∧
      s.entries = [⟨1, 1, [7]⟩, ⟨3, 2, [9, 9]⟩] ∧ s.file.loaded = s.entries := by
  obtain ⟨k, hle, hk, -, hrun⟩ := log_recovery_exact
    (show ∀ e ∈ threeEntries, e.Encodable by decide) (List.take_prefix 40 _)
  obtain rfl : k = 1 := by
    have h₀ : 0 < k := (hk 0 (by decide)).mpr (by decide +kernel)
    have h₁ : ¬ 1 < k := fun h => absurd ((hk 1 (by decide)).mp h) (by decide +kernel)
    omega
  obtain ⟨s, hs, hentries⟩ := Option.map_eq_some_iff.mp
    (show (exec (guarded LogFile.step LogFile.Fits)
        ⟨openFileStorage { Disk.empty with log := (logEntryCodec.frames threeEntries).take 40 },
          threeEntries.take 1⟩
        [.append [⟨2, 2, [1]⟩], .cut 57, .append [⟨3, 2, [9, 9]⟩]]).map LogFile.entries
      = some [⟨1, 1, [7]⟩, ⟨3, 2, [9, 9]⟩] by decide +kernel)
  exact ⟨s, .of_exec_guarded hs, hentries, (hrun _ rfl s (.of_exec_guarded hs)).1⟩

end Raft
end BoilerPulse
