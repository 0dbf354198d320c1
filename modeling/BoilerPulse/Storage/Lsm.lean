import Mathlib.Data.List.Sort
import BoilerPulse.Framework.Programs
import BoilerPulse.Storage.MemStore
import BoilerPulse.Storage.TableNames
import BoilerPulse.Storage.Wal

/-!
# Storage: the LSM engine

`lsm.Engine`: a write-ahead log, a memtable, and table files that flushes write and compactions
merge (`engine.go`, `flush.go`, `compact.go`, `recovery.go`).

The `Disk` is what survives the process. The log is the list of its records and a table file
the list of its entries; the bytes of the log are those of `Wal`. A table file is
known by its number, from which its name is made (`sstableFileName`); a file that is being
written has the number it will get.

Whatever touches the disk is a program over the file operations (`FileOp`), each of which can
succeed, report failure, or be the point where the process stops. The functions of the engine
return their error as the texts it is wrapped in, the outermost first, without that of the
operating system. The clock is an argument.
-/

namespace BoilerPulse
namespace Storage

open Framework

/-! ### Table files (`sstable.go`, `table.go`) -/

/-- One key's value in a table file. Expiry `0` means none. -/
structure TableEntry where
  key : Key
  value : Bytes
  consistency : Bytes
  expiresAtUnixNano : ℤ
  tombstone : Bool
  version : ℕ
  deriving DecidableEq, Repr

/-- The entries that the fields of the format can hold. -/
structure TableEntry.Fits (e : TableEntry) : Prop where
  key : e.key.length < 2 ^ 16
  consistency : e.consistency.length < 2 ^ 8
  expiresAt : FitsInt64 e.expiresAtUnixNano
  version : e.version < 2 ^ 64
  value : e.value.length < 2 ^ 32

/-- The entries of a table file, in the order of the file. -/
abbrev Table := List TableEntry

/-- `Table.Get`: the index has the last entry of a key. -/
def tableGet (t : Table) (key : Key) : Option TableEntry :=
  t.reverse.find? fun e => e.key = key

/-- `UnixNano` of an expiry, `0` if there is none. -/
def unixNano : Option ℤ → ℤ
  | none => 0
  | some t => wrap64 t

/-- Reading an expiry back: `0` is none. -/
def ofUnixNano (n : ℤ) : Option ℤ :=
  if n ≠ 0 then some n else none

def toSSTableEntry (key : Key) (e : Entry) : TableEntry :=
  ⟨key, e.value, e.consistency, unixNano e.expiresAt, e.tombstone, e.version⟩

def toStorageEntry (e : TableEntry) : Entry :=
  ⟨e.value, e.consistency, ofUnixNano e.expiresAtUnixNano, e.tombstone, e.version⟩

/-! ### Files -/

/-- What survives the process: the log, the table files, and those not yet under their
final name. -/
structure Disk where
  wal : List Record
  tables : List (ℕ × Table)
  tmp : List (ℕ × Table)
  deriving DecidableEq, Repr

def Disk.empty : Disk :=
  ⟨[], [], []⟩

/-- The file operations of the engine. The table number tells the operations of a flush from
those of the compaction after it. -/
inductive FileOp where
  /-- `AppendBatch`: the write of one record, and the sync at the end. -/
  | walWrite (r : Record)
  | walSync
  /-- `writeAndOpenSSTable`. -/
  | writeSorted (n : ℕ) (t : Table)
  | rename (n : ℕ)
  | syncDir (n : ℕ)
  | openTable (n : ℕ)
  /-- `Reset`. -/
  | resetTruncate
  | resetSeek
  | resetSync
  /-- `os.Remove` of an old table. -/
  | remove (n : ℕ)
  deriving DecidableEq, Repr

/-- Programs over the file operations. The answer is `none` on failure, and otherwise what was
read. -/
abbrev FileM := Prog FileOp (Option Table)

/-- The directory with a file under its final name; a file of that name is replaced. -/
def placeTable (tables : List (ℕ × Table)) (n : ℕ) (t : Table) : List (ℕ × Table) :=
  tables.filter (fun f => f.1 ≠ n) ++ [(n, t)]

/-- The file system. A write of a table that fails leaves an incomplete file under the temporary
name; every other operation that fails has done nothing. -/
def fileSystem : Device FileOp (Option Table) Disk where
  perform
    | .walWrite r, d => ({ d with wal := d.wal ++ [r] }, some [])
    | .writeSorted n t, d => ({ d with tmp := placeTable d.tmp n t }, some [])
    | .rename n, d =>
      match d.tmp.find? fun f => f.1 = n with
      | none => (d, none)
      | some f =>
        ({ d with
            tables := placeTable d.tables n f.2
            tmp := d.tmp.filter fun f => f.1 ≠ n }, some [])
    | .openTable n, d => (d, (d.tables.find? fun f => f.1 = n).map fun f => f.2)
    | .resetTruncate, d => ({ d with wal := [] }, some [])
    | .remove n, d => ({ d with tables := d.tables.filter fun f => f.1 ≠ n }, some [])
    | .walSync, d | .syncDir _, d | .resetSeek, d | .resetSync, d => (d, some [])
  fail
    | .writeSorted n _, d => ({ d with tmp := placeTable d.tmp n [] }, none)
    | _, d => (d, none)

/-- `wal.Writer.AppendBatch`, and whether it succeeds. -/
def writeRecords : List Record → FileM Bool
  | [] => .call .walSync fun ans => .ret ans.isSome
  | r :: rs => .call (.walWrite r) fun
    | none => .ret false
    | some _ => writeRecords rs

def appendBatch (records : List Record) : FileM Bool :=
  if records = [] then .ret true else writeRecords records

/-- `wal.Writer.Reset`. -/
def walReset : FileM Bool :=
  .call .resetTruncate fun
    | none => .ret false
    | some _ => .call .resetSeek fun
      | none => .ret false
      | some _ => .call .resetSync fun ans => .ret ans.isSome

/-! ### The engine (`engine.go`) -/

structure Options where
  memtableFlushThresholdBytes : ℤ
  compactionThreshold : ℤ
  deriving DecidableEq, Repr

/-- The process' side of the engine; `sstables` are the open tables with the numbers of their
files, the oldest first. -/
structure Engine where
  opts : Options
  memtable : EntryMap
  memtableSize : ℤ
  sstables : List (ℕ × Table)
  sstableSeq : ℕ
  nextSeq : ℕ

/-- A queued mutation: its record, and the entry to put into the memtable once the record is
durable. -/
structure EngineOp where
  record : Record
  key : Key
  entry : Entry
  deriving DecidableEq, Repr

/-- `entrySize`, an estimate. -/
def entrySize (key : Key) (e : Entry) : ℤ :=
  key.length + e.value.length + 32

namespace Engine

/-- `checkedEntry` of the first entry found: in the memtable, then from the newest table to the
oldest. -/
def lookupLocked (e : Engine) (now : ℤ) (key : Key) : Except Error Entry :=
  match e.memtable.lookup key with
  | some entry => checked now (some entry)
  | none =>
    checked now ((e.sstables.reverse.findSome? fun st => tableGet st.2 key).map toStorageEntry)

def get (e : Engine) (now : ℤ) (key : Key) : Except Error Entry :=
  e.lookupLocked now key

def scan (e : Engine) (now : ℤ) (pfx : Key) : ScanResult :=
  -- every table, then the memtable, so that newer entries overwrite older ones
  let merged := e.sstables.foldl (fun m st => insertAll m
      ((st.2.filter fun se => pfx.isPrefixOf se.key).map fun se => (se.key, toStorageEntry se))) ∅
  let merged := insertAll merged ((pairsOf e.memtable).filter fun kv => pfx.isPrefixOf kv.1)
  copyWhere merged fun kv => !kv.2.dead now

def applyToMemtable (e : Engine) (key : Key) (entry : Entry) : Engine :=
  let size := match e.memtable.lookup key with
    | some old => e.memtableSize - entrySize key old
    | none => e.memtableSize
  { e with
    memtable := e.memtable.insert key entry
    memtableSize := size + entrySize key entry }

/-! ### Flush (`flush.go`) -/

/-- Write a table under a temporary name, rename it into place, sync the directory, and open it.
The number is used up in any case. -/
def writeAndOpenSSTable (e : Engine) (entries : Table) :
    FileM (Engine × Except (List String) (ℕ × Table)) :=
  let n := e.sstableSeq + 1
  let e := { e with sstableSeq := n }
  .call (.writeSorted n entries) fun
  | none => .ret (e, .error ["writing sstable"])
  | some _ => .call (.rename n) fun
    | none => .ret (e, .error ["finalizing sstable"])
    | some _ => .call (.syncDir n) fun
      | none => .ret (e, .error ["syncing sstables dir"])
      | some _ => .call (.openTable n) fun
        | none => .ret (e, .error ["reopening flushed sstable"])
        | some table => .ret (e, .ok (n, table))

/-! ### Compaction (`compact.go`) -/

/-- All tables in one map, newer entries over older ones. -/
def mergeTables (tables : List (ℕ × Table)) : AList fun _ : Key => TableEntry :=
  tables.foldl (fun m st => insertAll m (st.2.map fun e => (e.key, e))) ∅

/-- An entry that compaction drops: a tombstone, or one that has expired. -/
def dropped (now : ℤ) (e : TableEntry) : Bool :=
  e.tombstone || (e.expiresAtUnixNano ≠ 0 && decide (e.expiresAtUnixNano < now))

/-- The entries of the merged table, by key. -/
def compactedEntries (now : ℤ) (tables : List (ℕ × Table)) : Table :=
  let merged := mergeTables tables
  let keys := merged.keys.filter fun k => (merged.lookup k).any fun e => !dropped now e
  (keys.insertionSort (· ≤ ·)).filterMap fun k => merged.lookup k

/-- Remove the old files, the oldest first; errors are ignored. -/
def removeTables : List (ℕ × Table) → FileM Unit
  | [] => .ret ()
  | st :: old => .call (.remove st.1) fun _ => removeTables old

def compactLocked (e : Engine) (now : ℤ) : FileM (Engine × Option (List String)) :=
  (e.writeAndOpenSSTable (compactedEntries now e.sstables)).bind fun
    | (e, .error err) => .ret (e, some ("writing compacted sstable" :: err))
    | (e, .ok table) =>
      let old := e.sstables
      let e := { e with sstables := [table] }
      (removeTables old).bind fun _ => .ret (e, none)

/-- The entries of the memtable, by key. -/
def flushedEntries (m : EntryMap) : Table :=
  (m.keys.insertionSort (· ≤ ·)).filterMap fun k => (m.lookup k).map (toSSTableEntry k)

def flushLocked (e : Engine) (now : ℤ) : FileM (Engine × Option (List String)) :=
  if e.memtable.keys = [] then .ret (e, none)
  else
    (e.writeAndOpenSSTable (flushedEntries e.memtable)).bind fun
      | (e, .error err) => .ret (e, some ("flushing memtable" :: err))
      | (e, .ok table) => walReset.bind fun
        | false => .ret (e, some ["resetting WAL after flush"])
        | true =>
          let e := { e with sstables := e.sstables ++ [table], memtable := ∅, memtableSize := 0 }
          if e.opts.compactionThreshold < e.sstables.length then
            (e.compactLocked now).bind fun
              | (e, some err) => .ret (e, some ("compacting" :: err))
              | (e, none) => .ret (e, none)
          else .ret (e, none)

def maybeFlushLocked (e : Engine) (now : ℤ) : FileM (Engine × Option (List String)) :=
  if e.memtableSize < e.opts.memtableFlushThresholdBytes then .ret (e, none)
  else e.flushLocked now

/-! ### Writes -/

/-- What a batch does to the memtable. -/
def applyAll (e : Engine) (batch : List EngineOp) : Engine :=
  batch.foldl (fun e op => e.applyToMemtable op.key op.entry) e

/-- Log the records of a batch, then put its entries into the memtable, then flush if it has grown
too large; the error is what every caller of the batch receives. -/
def processBatch (e : Engine) (batch : List EngineOp) (now : ℤ) :
    FileM (Engine × Option (List String)) :=
  (appendBatch (batch.map EngineOp.record)).bind fun
    | false => .ret (e, some [])
    | true => (e.applyAll batch).maybeFlushLocked now

end Engine

/-- A call that changes the engine, with the reading of the clock it is made at. -/
inductive Request where
  | put (now : ℤ) (key : Key) (value consistency : Bytes) (ttl : ℤ)
  | delete (now : ℤ) (key : Key)
  deriving DecidableEq, Repr

/-- What a call enqueues when it has been given the number `seq`. -/
def Request.op (seq : ℕ) : Request → EngineOp
  | .put now key value consistency ttl =>
    { record := ⟨seq, opSet, wrap64 now, unixNano (expiryOf now ttl), key, consistency, value⟩
      key := key
      entry := ⟨value, consistency, expiryOf now ttl, false, seq⟩ }
  | .delete now key =>
    { record := ⟨seq, opDelete, wrap64 now, 0, key, [], []⟩
      key := key
      entry := .deleted seq }

namespace Engine

/-- Number calls in the order they enqueue. -/
def enqueue (e : Engine) : List Request → Engine × List EngineOp
  | [] => (e, [])
  | r :: rs =>
    let (e', ops) := { e with nextSeq := e.nextSeq + 1 }.enqueue rs
    (e', r.op e.nextSeq :: ops)

/-- Wait for the result of a batch of one. -/
def commit (e : Engine) (r : Request) (later : ℤ) : FileM (Engine × Option Error) :=
  ({ e with nextSeq := e.nextSeq + 1 }.processBatch [r.op e.nextSeq] later).bind fun
    | (e, some err) => .ret (e, some (.failed ("appending to WAL" :: err)))
    | (e, none) => .ret (e, none)

/-- `Put`, with nobody else enqueuing. `later` is the reading of the clock by a compaction. -/
def put (e : Engine) (now later : ℤ) (key : Key) (value consistency : Bytes) (ttl : ℤ) :
    FileM (Engine × Option Error) :=
  e.commit (.put now key value consistency ttl) later

/-- `Delete`: a key that a reader cannot see is not deleted again. -/
def delete (e : Engine) (now later : ℤ) (key : Key) : FileM (Engine × Option Error) :=
  match e.lookupLocked now key with
  | .error err => .ret (e, some err)
  | .ok _ => e.commit (.delete now key) later

end Engine

/-! ### Recovery (`recovery.go`) -/

/-- The table files in the order of their names. -/
def sortedTables (d : Disk) : List (ℕ × Table) :=
  d.tables.insertionSort fun a b => sstableFileName a.1 ≤ sstableFileName b.1

/-- The number read off a name counts if it is higher; a name without one is skipped. -/
def raiseSeq (m : ℕ) (st : ℕ × Table) : ℕ :=
  match scanSeq (sstableFileName st.1) with
  | some n => max m n
  | none => m

/-- The highest number read off the names. -/
def maxSeq (tables : List (ℕ × Table)) : ℕ :=
  tables.foldl raiseSeq 0

/-- The highest version in the tables. -/
def maxVersion (tables : List (ℕ × Table)) : ℕ :=
  tables.foldl (fun m st => st.2.foldl (fun m e => max m e.version) m) 0

/-- The entry a record stands for; an unknown operation has none. -/
def recordEntry (r : Record) : Option Entry :=
  if r.op = opSet then some ⟨r.value, r.consistency, ofUnixNano r.expiresAtUnixNano, false, r.seq⟩
  else if r.op = opDelete then some (.deleted r.seq)
  else none

/-- Replay one record into the memtable and the size that is counted up beside it. -/
def applyRecordToMemtable (e : Engine) (r : Record) : Engine :=
  match recordEntry r with
  | none => e
  | some entry =>
    let sizeAcc := match e.memtable.lookup r.key with
      | some old => e.memtableSize - entrySize r.key old
      | none => e.memtableSize
    { e with
      memtable := e.memtable.insert r.key entry
      memtableSize := sizeAcc + entrySize r.key entry }

/-- `Open` on a directory: the tables, and the replay of the log over them. -/
def openEngine (d : Disk) (opts : Options) : Engine :=
  let tables := sortedTables d
  let e : Engine := ⟨opts, ∅, 0, tables, maxSeq tables, 0⟩
  let e := d.wal.foldl applyRecordToMemtable e
  { e with nextSeq := d.wal.foldl (fun m r => max m r.seq) (maxVersion tables) + 1 }

/-- `cleanupOrphanedTempFiles`. -/
def Disk.cleanup (d : Disk) : Disk :=
  { d with tmp := [] }

end Storage
end BoilerPulse
