import BoilerPulse.Storage.Contract
import BoilerPulse.Storage.LsmRuns

/-!
# Storage: the LSM engine meets the contract

`lsm` is the engine with its directory as an implementation of the contract, as long as no file
operation fails. It stands for the map of its invariant `Rep`, so flushes and compactions do not
show, and it cannot be told from `MemStore` (`lsm_refines_memStore`).

It admits the writes whose key, consistency and value fit their length fields and whose expiry is
an `int64` (`LengthsFit`, `StorableTtl`). The lists of `Disk` are then what is found in the files,
byte by byte (`Disk.Fits.reads_back`).
-/

namespace BoilerPulse
namespace Storage

open Framework Prog

section Commit

variable {strict : Prop} {now later t : ℤ} {h : Layer Key Entry} {e : Engine} {d : Disk}

/-- A call in a batch of its own, without faults. -/
theorem commit_safe (hr : Rep True later h e d) {r : Request} (hstor : r.Storable) :
    Safe fileSystem (fun _ => .done) (fun res d' => res.2 = none ∧
        Rep True later
          (Function.update h (r.op e.nextSeq).key (some (r.op e.nextSeq).entry)) res.1 d' ∧
        res.1.nextSeq = e.nextSeq + 1)
      (fun _ => True) (e.commit r later) d := by
  have hrep := hr.renumber (e.nextSeq + 1)
  have hbatch : Safe fileSystem (fun _ => .done) _ _
      ({ e with nextSeq := e.nextSeq + 1 }.processBatch [r.op e.nextSeq] later) d :=
    processBatch_safe hrep
      (fun op hop => by rw [List.mem_singleton.mp hop]; exact r.op_faithful hstor.1 _)
      (fun op hop => by rw [List.mem_singleton.mp hop]; exact r.op_storable hstor _)
      (by simp) (by simp) (fun _ _ => hr.listed trivial) (by simp) (by simp)
  unfold Engine.commit
  refine safe_bind (hbatch.mono (fun _ _ hq => hq) fun _ _ => trivial) ?_
  rintro ⟨e', err⟩ d' ⟨hrep', hkept, herr⟩
  cases err with
  | none => exact safe_ret ⟨rfl, hrep', hkept.nextSeq⟩
  | some err =>
    -- nothing fails
    obtain ⟨op, hop⟩ := herr (by simp)
    cases hop

/-- A key that a reader finds came with a write that fitted. -/
theorem Rep.key_fits (hr : Rep True now h e d) {key : Key} {x : Entry}
    (hx : e.lookupLocked t key = .ok x) : LengthsFit key [] [] := by
  unfold Engine.lookupLocked at hx
  split at hx
  · next entry hmem => exact (hr.storable key entry hmem).lengths.key_alone
  · -- not in the memtable, so in one of the tables, which are those on the disk
    cases hfind : e.sstables.reverse.findSome? fun st => tableGet st.2 key with
    | none => rw [hfind] at hx; cases hx
    | some te =>
      obtain ⟨st, hst, hget⟩ := List.exists_of_findSome?_eq_some hfind
      rw [List.mem_reverse, hr.listed trivial] at hst
      have hfit := hr.fits.tables st hst te (List.mem_reverse.mp (List.mem_of_find?_eq_some hget))
      exact key_of_tableGet hget ▸ hfit.1.key_alone

/-- Without expiries the clock does not matter. -/
theorem Rep.of_ttlFree (hr : Rep strict now h e d)
    (hfree : ∀ k x, h k = some x → x.expiresAt = none) :
    Rep strict t h e d :=
  have hdead : ∀ k x, h k = some x → x.dead now = true → x.dead t = true := fun k x hx hd => by
    rwa [Entry.dead_eq_tombstone (hfree k x hx)] at hd ⊢
  { hr with
    running := hr.running.imp hdead
    view := hr.view.imp hdead }

end Commit

/-- A call that changes engine and directory. -/
def Engine.settle {α : Type} (p : FileM (Engine × α)) (d : Disk) : (Engine × Disk) × α :=
  (((p.complete fileSystem d).1.1, (p.complete fileSystem d).2), (p.complete fileSystem d).1.2)

/-- **The LSM engine meets the contract.** -/
def lsm : StorageEngine (Engine × Disk) where
  get s now key := s.1.get now key
  put s now later key value consistency ttl :=
    Engine.settle (s.1.put now later key value consistency ttl) s.2
  delete s now later key := Engine.settle (s.1.delete now later key) s.2
  scan s now pfx := s.1.scan now pfx
  Stands t s m := Rep True t m.map s.1 s.2 ∧ s.1.nextSeq = m.next
  Admits := StorableTtl
  Holds := LengthsFit
  admits_of_storable h := h
  holds_of_fits h := h
  stands_mono hs hle := ⟨hs.1.mono hle, hs.2⟩
  stands_of_ttlFree hs hfree := ⟨hs.1.of_ttlFree hfree, hs.2⟩
  get_eq hs k := hs.1.get_eq le_rfl k
  lookup_scan hs pfx k := hs.1.lookup_scan le_rfl pfx k
  put_spec := by
    rintro now later ⟨e, d⟩ m ttl key value consistency ⟨hrep, hnext⟩ hstor hfit
    obtain ⟨herr, hrep', hnext'⟩ :=
      (commit_safe hrep (r := .put now key value consistency ttl) ⟨hstor, hfit⟩).of_complete
    rw [hnext] at hrep' hnext'
    exact ⟨herr, hrep', hnext'⟩
  delete_spec := by
    rintro now later ⟨e, d⟩ m ⟨hrep, hnext⟩ ⟨hrep₁, -⟩ key
    have hlookup : e.lookupLocked now key = checked now (m.map key) := hrep.get_eq le_rfl key
    unfold Engine.delete Model.delete
    simp only [hlookup]
    cases hc : checked now (m.map key) with
    | error err => exact ⟨rfl, hrep₁, hnext⟩
    | ok entry =>
      -- the key is there, so its length fits
      have hfit : LengthsFit key [] [] := hrep.key_fits (hlookup.trans hc)
      obtain ⟨herr, hrep', hnext'⟩ :=
        (commit_safe hrep₁ (r := .delete now key) ⟨trivial, hfit⟩).of_complete
      rw [hnext] at hrep' hnext'
      exact ⟨herr, hrep', hnext'⟩

/-- `Open` on an empty directory. -/
def lsmNew (opts : Options) : Engine × Disk :=
  (openEngine .empty opts, .empty)

theorem lsm_stands_new (opts : Options) (t : ℤ) : lsm.Stands t (lsmNew opts) .empty :=
  ⟨sound_new True opts t, rfl⟩

/-- **The LSM engine refines the engine in memory**: the same calls get the same replies,
wherever flushes and compactions fall. -/
theorem lsm_refines_memStore (opts : Options) {t : ℤ} {calls : List Call} (hclock : Clocked t calls)
    (hstor : ∀ c ∈ calls, c.Storable) :
    (lsm.serveAll (lsmNew opts) calls).2 = (memStore.serveAll MemStore.new calls).2 :=
  StorageEngine.serveAll_eq (lsm_stands_new opts t) (memStore_stands_new t) hclock hstor

/-- Calls with a flush and a compaction in every write, one of which drops an expired value. -/
def refinementCalls : List Call :=
  [.put 0 0 [97] [1] [] 5, .put 1 9 [98] [2] [83] 0, .get 9 [97], .delete 9 9 [97],
    .delete 9 10 [98],
    .put 10 10 [98, 99] [3] [] 7, .scan 11 [98]]

theorem lsm_refines_memStore_compacting : (lsm.serveAll (lsmNew ⟨0, 0⟩) refinementCalls).2
        = (memStore.serveAll MemStore.new refinementCalls).2 ∧
      (lsm.serveAll (lsmNew ⟨0, 0⟩) refinementCalls).1.2.tables.map (fun st => st.1) = [8] := by
  refine ⟨lsm_refines_memStore ⟨0, 0⟩ (t := 0) (by decide) fun c hc => ?_, rfl⟩
  simp only [refinementCalls, List.mem_cons, List.not_mem_nil, or_false] at hc
  rcases hc with rfl | rfl | rfl | rfl | rfl | rfl | rfl <;>
    simp [Call.Storable, StorableTtl, expiryOf, FitsInt64, LengthsFit]

/-- An expiry at instant `0` is lost in a flush. -/
theorem lsm_differs_at_zero_expiry :
    FitsInt64 0 ∧ Clocked (-1) [.put (-1) (-1) [97] [1] [] 1, .get 5 [97]] ∧
      (lsm.serveAll (lsmNew ⟨0, 4⟩) [.put (-1) (-1) [97] [1] [] 1, .get 5 [97]]).2
        = [.wrote none, .got (.ok ⟨[1], [], none, false, 1⟩)] ∧
      (memStore.serveAll MemStore.new [.put (-1) (-1) [97] [1] [] 1, .get 5 [97]]).2
        = [.wrote none, .got (.error .keyNotFound)] :=
  ⟨by simp [FitsInt64], by decide, rfl, rfl⟩

end Storage
end BoilerPulse
