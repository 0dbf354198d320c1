import BoilerPulse.Framework.Frames
import BoilerPulse.Raft.Types

/-!
# Raft: storage on files

`FileStorage` (`filestorage.go`) with the codec of its log file (`logentry_codec.go`). The
`Disk` is what survives the process: the log file, byte for byte, and the snapshot and
state files, whose JSON is not modelled — they hold the values that were saved. Each of
the three has a temporary file beside it that a rename puts in its place. A file that
does not exist is an empty log, or `none`.

The log file is written through a handle with a position (`File`). The offset that
`AppendEntries` records is the position of the handle, and where the bytes go
depends on how the handle was opened: `OpenFileStorage` opens it plainly and seeks to the end,
`DiscardLogThrough` reopens it with `O_APPEND`, at position `0`.

Calls that fail are not modelled.
-/

namespace BoilerPulse
namespace Raft

open Framework

/-! ### The codec of the log file (`logentry_codec.go`) -/

/-- The payload of the frame of an entry. -/
def logEntryPayload (e : LogEntry) : Bytes :=
  bigEndian 8 e.term ++ (bigEndian 8 e.index ++ (bigEndian 4 e.command.length ++ e.command))

def encodeLogEntry (e : LogEntry) : Bytes :=
  frame crc32 (logEntryPayload e)

def decodeLogEntryPayload (payload : Bytes) : Option LogEntry := do
  let (term, buf) ← readUint 8 payload
  let (index, buf) ← readUint 8 buf
  let (cmdLen, buf) ← readUint 4 buf
  let (cmd, _) ← readFull cmdLen buf
  return ⟨term, index, cmd⟩

/-- The first entry and the size of its frame. -/
def decodeLogEntry (bs : Bytes) : Except FrameError (LogEntry × ℕ) :=
  match readFrame crc32 bs with
  | .error err => .error err
  | .ok payload =>
    match decodeLogEntryPayload payload with
    | none => .error .corrupt
    | some e => .ok (e, 4 + payload.length + 4)

/-- The entries the format can hold: term and index are 64-bit numbers, and the length of
the payload has to fit in 32 bits. -/
def LogEntry.Encodable (e : LogEntry) : Prop :=
  e.term < 2 ^ 64 ∧ e.index < 2 ^ 64 ∧ 20 + e.command.length < 2 ^ 32

instance (e : LogEntry) : Decidable e.Encodable := by
  unfold LogEntry.Encodable
  infer_instance

theorem length_logEntryPayload (e : LogEntry) :
    (logEntryPayload e).length = 20 + e.command.length := by
  simp only [logEntryPayload, List.length_append, length_bigEndian]
  omega

theorem decodeLogEntryPayload_logEntryPayload {e : LogEntry} (h : e.Encodable) :
    decodeLogEntryPayload (logEntryPayload e) = some e := by
  have hlen : e.command.length < 256 ^ 4 := by have := h.2.2; omega
  have hcmd : readFull e.command.length e.command = some (e.command, []) := by
    simpa using readFull_append (rfl : e.command.length = _) []
  unfold decodeLogEntryPayload logEntryPayload
  rw [readUint_append (k := 8) h.1]
  simp only [Option.bind_eq_bind, Option.bind_some]
  rw [readUint_append (k := 8) h.2.1]
  simp only [Option.bind_some]
  rw [readUint_append hlen]
  simp only [Option.bind_some]
  rw [hcmd]
  rfl

theorem decodeLogEntry_encodeLogEntry {e : LogEntry} (h : e.Encodable) (rest : Bytes) :
    decodeLogEntry (encodeLogEntry e ++ rest) = .ok (e, (encodeLogEntry e).length) := by
  have hlen : (logEntryPayload e).length < 256 ^ 4 := by
    rw [length_logEntryPayload]
    exact h.2.2
  unfold decodeLogEntry encodeLogEntry
  rw [readFrame_frame crc32 hlen, length_frame]
  simp only
  rw [decodeLogEntryPayload_logEntryPayload h]

/-- The log file as a file of framed records. -/
def logEntryCodec : Codec LogEntry where
  encode := encodeLogEntry
  decode bs := (decodeLogEntry bs).toOption
  Valid := LogEntry.Encodable
  decode_nil := rfl
  decode_encode e h rest := by rw [decodeLogEntry_encodeLogEntry h]; rfl
  encode_pos e := by rw [encodeLogEntry, length_frame]; omega

/-- A frame that is cut off is not decoded. -/
theorem logEntryCodec_cutsOff : logEntryCodec.CutsOff := by
  intro e he n hn
  have hlen : (logEntryPayload e).length < 256 ^ 4 := by
    rw [length_logEntryPayload]
    exact he.2.2
  show (decodeLogEntry ((encodeLogEntry e).take n)).toOption = none
  rw [decodeLogEntry, encodeLogEntry, readFrame_take crc32 hlen hn]
  rfl

/-! ### Files -/

/-- A file handle: its position, and whether it was opened with `O_APPEND`. -/
structure File where
  pos : ℕ
  append : Bool
  deriving DecidableEq, Repr

/-- The file after `data` has been written at `pos`; a hole reads as zeros. -/
def writeAt (bs : Bytes) (pos : ℕ) (data : Bytes) : Bytes :=
  bs.take pos ++ List.replicate (pos - bs.length) 0 ++ data ++ bs.drop (pos + data.length)

/-- `Truncate`: cut the file, or fill it up with zeros. -/
def truncateTo (bs : Bytes) (size : ℕ) : Bytes :=
  bs.take size ++ List.replicate (size - bs.length) 0

/-- The files of a storage directory. -/
structure Disk where
  log : Bytes
  logTmp : Option Bytes
  snapshot : Option Snapshot
  snapshotTmp : Option Snapshot
  state : Option (ℕ × String)
  stateTmp : Option (ℕ × String)
  deriving DecidableEq, Repr

/-- A directory that has just been made. -/
def Disk.empty : Disk where
  log := []
  logTmp := none
  snapshot := none
  snapshotTmp := none
  state := none
  stateTmp := none

def Disk.cleanupOrphanedTempFiles (d : Disk) : Disk :=
  { d with logTmp := none, snapshotTmp := none, stateTmp := none }

/-! ### The storage (`filestorage.go`) -/

structure FileStorage where
  disk : Disk
  logFile : File
  /-- `offsets[i]` is where the frame of `loaded[i]` starts. -/
  offsets : List ℕ
  loaded : List LogEntry
  /-- `loaded[i].Index == baseIndex+i+1`. -/
  baseIndex : ℕ
  deriving DecidableEq, Repr

/-- Entries, offsets and valid length of a log file. Every error of `decodeLogEntry` ends
the replay, and a frame takes at least one byte, so the fuel is not exhausted. -/
def replayLogFile (log : Bytes) : List LogEntry × List ℕ × ℕ :=
  logEntryCodec.scan (log.length + 1) 0 log

def openFileStorage (d : Disk) : FileStorage :=
  let d := d.cleanupOrphanedTempFiles
  let (entries, offsets, validLength) := replayLogFile d.log
  let d := { d with log := truncateTo d.log validLength }
  { disk := d
    logFile := ⟨d.log.length, false⟩
    offsets := offsets
    loaded := entries
    baseIndex := (d.snapshot.map Snapshot.lastIncludedIndex).getD 0 }

namespace FileStorage

variable (fs : FileStorage)

/-- `Write` to the log file. An `O_APPEND` write first moves to the end. -/
def write (data : Bytes) : FileStorage :=
  if fs.logFile.append then
    { fs with
      disk := { fs.disk with log := fs.disk.log ++ data }
      logFile := { fs.logFile with pos := fs.disk.log.length + data.length } }
  else
    { fs with
      disk := { fs.disk with log := writeAt fs.disk.log fs.logFile.pos data }
      logFile := { fs.logFile with pos := fs.logFile.pos + data.length } }

/-- One iteration of `AppendEntries`. -/
def appendEntry (e : LogEntry) : FileStorage :=
  { fs.write (encodeLogEntry e) with
    offsets := fs.offsets ++ [fs.logFile.pos]
    loaded := fs.loaded ++ [e] }

def appendEntries (entries : List LogEntry) : FileStorage :=
  entries.foldl appendEntry fs

/-- Where `index` sits in `offsets` and `loaded`. -/
def position (index : ℕ) : Option ℕ :=
  if index ≤ fs.baseIndex then none
  else if fs.loaded.length ≤ index - fs.baseIndex - 1 then none
  else some (index - fs.baseIndex - 1)

def truncateFrom (index : ℕ) : FileStorage :=
  match fs.position index with
  | none => fs
  | some pos =>
    let cutOffset := fs.offsets.getD pos 0
    { fs with
      disk := { fs.disk with log := truncateTo fs.disk.log cutOffset }
      logFile := { fs.logFile with pos := cutOffset }
      offsets := fs.offsets.take pos
      loaded := fs.loaded.take pos }

/-- The entries `DiscardLogThrough` keeps. -/
def keep (index : ℕ) : List LogEntry :=
  fs.loaded.drop (min (index - fs.baseIndex) fs.loaded.length)

def discardLogThrough (index : ℕ) : FileStorage :=
  if index ≤ fs.baseIndex then fs
  else
    { disk := { fs.disk with log := logEntryCodec.frames (fs.keep index), logTmp := none }
      logFile := ⟨0, true⟩
      offsets := logEntryCodec.offsets 0 (fs.keep index)
      loaded := fs.keep index
      baseIndex := index }

def saveSnapshot (lastIncludedIndex lastIncludedTerm : ℕ) (data : Bytes) : FileStorage :=
  { fs with
    disk := { fs.disk with
      snapshot := some ⟨lastIncludedIndex, lastIncludedTerm, data⟩
      snapshotTmp := none } }

def saveTermAndVote (term : ℕ) (votedFor : String) : FileStorage :=
  { fs with disk := { fs.disk with state := some (term, votedFor), stateTmp := none } }

/-- What the loading methods return: the storage as `Node` sees it. -/
def toStorage : Storage where
  term := (fs.disk.state.getD (0, "")).1
  votedFor := (fs.disk.state.getD (0, "")).2
  log := fs.loaded
  snapshot := fs.disk.snapshot

end FileStorage

end Raft
end BoilerPulse
