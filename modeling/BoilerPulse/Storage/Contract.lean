import BoilerPulse.Storage.MemStore

/-!
# Storage: the contract of an engine

The interface `Engine` (`storage.go`), together with what an implementation owes its callers: its
states stand for a `Model`, a map and the version of the next write. Calls
answer as the model does and move the state along with it, and nothing else of the state shows.
Nothing is owed for a write that the implementation cannot hold, which is its own to say
(`Admits`, `Holds`): `MemStore` takes everything, an engine on files what fits their fields.

Two implementations of the contract give the same replies to the same calls
(`StorageEngine.serveAll_eq`), whatever else they do. `memStore` is the first one.
-/

namespace BoilerPulse
namespace Storage

open Framework

/-- What an engine stands for. -/
structure Model where
  map : Layer Key Entry
  /-- The version of the next write. -/
  next : ℕ

namespace Model

def empty : Model :=
  ⟨fun _ => none, 1⟩

/-- The model with one more write. -/
def write (m : Model) (key : Key) (entry : Entry) : Model :=
  ⟨Function.update m.map key (some entry), m.next + 1⟩

@[simp] theorem write_map_self (m : Model) (key : Key) (entry : Entry) :
    (m.write key entry).map key = some entry :=
  Function.update_self _ _ _

theorem write_map_of_ne (m : Model) {key k : Key} (h : k ≠ key) (entry : Entry) :
    (m.write key entry).map k = m.map k :=
  Function.update_of_ne h _ _

def put (m : Model) (now : ℤ) (key : Key) (value consistency : Bytes) (ttl : ℤ) : Model :=
  m.write key ⟨value, consistency, expiryOf now ttl, false, m.next⟩

def delete (m : Model) (now : ℤ) (key : Key) : Model × Option Error :=
  match checked now (m.map key) with
  | .error err => (m, some err)
  | .ok _ => (m.write key (.deleted m.next), none)

/-- No entry has an expiry. -/
def TtlFree (m : Model) : Prop :=
  ∀ k e, m.map k = some e → e.expiresAt = none

end Model

/-- An expiry that a file can hold: a number of nanoseconds other than `0` that fits in an
`int64`. -/
def StorableTtl (now ttl : ℤ) : Prop :=
  ∀ t ∈ expiryOf now ttl, t ≠ 0 ∧ FitsInt64 t

/-- An implementation of `Engine` with its contract. A call reads the clock at `now`; `later`
is the last reading in a call that writes. `Admits now ttl` are the TTLs that a `Put` may have, and
`Holds` the keys, values and consistency policies; what files can hold must be among them. -/
structure StorageEngine (σ : Type) where
  get : σ → ℤ → Key → Except Error Entry
  put : σ → ℤ → ℤ → Key → Bytes → Bytes → ℤ → σ × Option Error
  delete : σ → ℤ → ℤ → Key → σ × Option Error
  scan : σ → ℤ → Key → ScanResult
  /-- The state stands for the model, from an instant on. -/
  Stands : ℤ → σ → Model → Prop
  Admits : ℤ → ℤ → Prop
  Holds : Key → Bytes → Bytes → Prop
  admits_of_storable : ∀ {now ttl}, StorableTtl now ttl → Admits now ttl
  holds_of_fits : ∀ {key value consistency}, LengthsFit key value consistency →
    Holds key value consistency
  stands_mono : ∀ {t t' s m}, Stands t s m → t ≤ t' → Stands t' s m
  /-- Without expiries the clock does not matter. -/
  stands_of_ttlFree : ∀ {t t' s m}, Stands t s m → m.TtlFree → Stands t' s m
  get_eq : ∀ {t s m}, Stands t s m → ∀ k, get s t k = checked t (m.map k)
  lookup_scan : ∀ {t s m}, Stands t s m → ∀ pfx k,
    (scan s t pfx).lookup k = under pfx (live Entry.dead t m.map) k
  put_spec : ∀ {now later s m ttl key value consistency}, Stands later s m → Admits now ttl →
    Holds key value consistency → (put s now later key value consistency ttl).2 = none ∧
      Stands later (put s now later key value consistency ttl).1
        (m.put now key value consistency ttl)
  delete_spec : ∀ {now later s m}, Stands now s m → Stands later s m →
    ∀ key, (delete s now later key).2 = (m.delete now key).2 ∧
      Stands later (delete s now later key).1 (m.delete now key).1

/-! ### Sequences of calls -/

/-- A call with the readings of the clock that belong to it. -/
inductive Call where
  | get (now : ℤ) (key : Key)
  | put (now later : ℤ) (key : Key) (value consistency : Bytes) (ttl : ℤ)
  | delete (now later : ℤ) (key : Key)
  | scan (now : ℤ) (pfx : Key)

/-- What a call returns. -/
inductive Reply where
  | got (result : Except Error Entry)
  | wrote (err : Option Error)
  | scanned (result : ScanResult)

/-- The first and the last reading of the clock. -/
def Call.start : Call → ℤ
  | .get now _ | .put now _ _ _ _ _ | .delete now _ _ | .scan now _ => now

def Call.finish : Call → ℤ
  | .get now _ | .scan now _ => now
  | .put _ later _ _ _ _ | .delete _ later _ => later

/-- The clock does not go backwards from `t` on. -/
def Clocked : ℤ → List Call → Prop
  | _, [] => True
  | t, c :: cs => t ≤ c.start ∧ c.start ≤ c.finish ∧ Clocked c.finish cs

instance Clocked.decidable : (t : ℤ) → (cs : List Call) → Decidable (Clocked t cs)
  | _, [] => inferInstanceAs (Decidable True)
  | t, c :: cs =>
    have := Clocked.decidable c.finish cs
    inferInstanceAs (Decidable (t ≤ c.start ∧ c.start ≤ c.finish ∧ Clocked c.finish cs))

/-- Every `Put` has an expiry and lengths that a file can hold. -/
def Call.Storable : Call → Prop
  | .put now _ key value consistency ttl => StorableTtl now ttl ∧ LengthsFit key value consistency
  | _ => True

namespace StorageEngine

variable {σ τ : Type}

def serve (E : StorageEngine σ) (s : σ) : Call → σ × Reply
  | .get now key => (s, .got (E.get s now key))
  | .put now later key value consistency ttl =>
    let (s, err) := E.put s now later key value consistency ttl
    (s, .wrote err)
  | .delete now later key =>
    let (s, err) := E.delete s now later key
    (s, .wrote err)
  | .scan now pfx => (s, .scanned (E.scan s now pfx))

def serveAll (E : StorageEngine σ) : σ → List Call → σ × List Reply
  | s, [] => (s, [])
  | s, c :: cs =>
    let (s, reply) := E.serve s c
    let (s, replies) := E.serveAll s cs
    (s, reply :: replies)

variable {E : StorageEngine σ} {F : StorageEngine τ} {t : ℤ} {s : σ} {s' : τ} {m : Model}

/-- What a scan returns is determined by the model. -/
theorem scan_eq (hs : E.Stands t s m) (hs' : F.Stands t s' m) (pfx : Key) :
    E.scan s t pfx = F.scan s' t pfx :=
  Finmap.ext_lookup fun k => (E.lookup_scan hs pfx k).trans (F.lookup_scan hs' pfx k).symm

/-- One call gets the same reply from both, and they stand for the same model again. -/
theorem serve_eq {c : Call} (hs : E.Stands c.start s m) (hs' : F.Stands c.start s' m)
    (hc : c.start ≤ c.finish) (hstor : c.Storable) :
    (E.serve s c).2 = (F.serve s' c).2 ∧
      ∃ m', E.Stands c.finish (E.serve s c).1 m' ∧ F.Stands c.finish (F.serve s' c).1 m' := by
  cases c with
  | get now key =>
    refine ⟨?_, m, hs, hs'⟩
    exact congrArg Reply.got ((E.get_eq hs key).trans (F.get_eq hs' key).symm)
  | put now later key value consistency ttl =>
    obtain ⟨httl, hfit⟩ := hstor
    obtain ⟨hr, hst⟩ := E.put_spec (E.stands_mono hs hc) (E.admits_of_storable httl)
      (E.holds_of_fits hfit)
    obtain ⟨hr', hst'⟩ := F.put_spec (F.stands_mono hs' hc) (F.admits_of_storable httl)
      (F.holds_of_fits hfit)
    exact ⟨congrArg Reply.wrote (hr.trans hr'.symm), _, hst, hst'⟩
  | delete now later key =>
    obtain ⟨hr, hst⟩ := E.delete_spec hs (E.stands_mono hs hc) key
    obtain ⟨hr', hst'⟩ := F.delete_spec hs' (F.stands_mono hs' hc) key
    exact ⟨congrArg Reply.wrote (hr.trans hr'.symm), _, hst, hst'⟩
  | scan now pfx => exact ⟨congrArg Reply.scanned (scan_eq hs hs' pfx), m, hs, hs'⟩

/-- **Two engines that stand for the same model cannot be told apart.** -/
theorem serveAll_eq {cs : List Call} (hs : E.Stands t s m) (hs' : F.Stands t s' m)
    (hclock : Clocked t cs) (hstor : ∀ c ∈ cs, c.Storable) :
    (E.serveAll s cs).2 = (F.serveAll s' cs).2 := by
  induction cs generalizing t s s' m with
  | nil => rfl
  | cons c cs ih =>
    obtain ⟨hstart, hc, hrest⟩ := hclock
    obtain ⟨hreply, m', hnext, hnext'⟩ := serve_eq (E.stands_mono hs hstart)
      (F.stands_mono hs' hstart) hc (hstor c List.mem_cons_self)
    have htail := ih hnext hnext' hrest fun c' hc' => hstor c' (List.mem_cons_of_mem c hc')
    simp only [serveAll, hreply, htail]

end StorageEngine

/-! ### The engine in memory -/

/-- `MemStore` keeps the map itself. -/
def memStore : StorageEngine MemStore where
  get := MemStore.get
  put m now _ key value consistency ttl := (m.put now key value consistency ttl, none)
  delete m now _ key := m.delete now key
  scan := MemStore.scan
  Stands _ s m := layerOf s.entries = m.map ∧ s.version + 1 = m.next
  Admits _ _ := True
  Holds _ _ _ := True
  admits_of_storable _ := trivial
  holds_of_fits _ := trivial
  stands_mono hs _ := hs
  stands_of_ttlFree hs _ := hs
  get_eq hs k := by rw [← hs.1]; rfl
  lookup_scan hs pfx k := by rw [← hs.1, MemStore.lookup_scan]
  put_spec := by
    rintro now later s m ttl key value consistency ⟨hmap, hnext⟩ - -
    refine ⟨rfl, ?_, congrArg (· + 1) hnext⟩
    rw [Model.put, ← hnext, Model.write, ← hmap, ← layerOf_insert]
    rfl
  delete_spec := by
    rintro now later s m ⟨hmap, hnext⟩ - key
    have hlookup : s.entries.lookup key = m.map key := by rw [← hmap]; rfl
    unfold MemStore.delete Model.delete
    rw [hlookup]
    cases checked now (m.map key) with
    | error err => exact ⟨rfl, hmap, hnext⟩
    | ok e =>
      refine ⟨rfl, ?_, congrArg (· + 1) hnext⟩
      rw [← hnext, Model.write, ← hmap, ← layerOf_insert]

theorem memStore_stands_new (t : ℤ) : memStore.Stands t MemStore.new .empty :=
  ⟨layerOf_empty, rfl⟩

end Storage
end BoilerPulse
