import BoilerPulse.Framework.Runs
import BoilerPulse.Gateway.Cache
import BoilerPulse.Storage.StateMachine

/-!
# Gateway: reads and writes of keys

`handleRead` and `handleWrite` (`proxy.go`) for `/v1/kv/{key}`, over one node that serves its
requests one at a time (`kv_handlers.go`). A read looks into the cache; if it finds nothing it asks
the node, answers its client, and puts the body into the cache unless it is `CRITICAL`. A write goes
to the node, answers its client, and deletes the key from the cache. Each of these is a step, and
the steps of all requests interleave.

To tell old bodies from new ones, the node keeps every value a key ever had, and a body is stamped
with the number of writes it has seen; no handler reads the stamp. A read notes at its start the
last write to its key whose client has been answered, and what it is answered with should have seen
that write. The invariant behind this (`Sound`) is about the bodies in the cache: one that is there
has seen every write that has already deleted its key.
-/

namespace BoilerPulse
namespace Gateway

open Framework Storage

/-! ### The node (`kv_handlers.go`) -/

/-- `STRONG`. -/
def consistencyStrong : Bytes := [83, 84, 82, 79, 78, 71]

/-- `EVENTUAL`. -/
def consistencyEventual : Bytes := [69, 86, 69, 78, 84, 85, 65, 76]

/-- `CRITICAL`. -/
def consistencyCritical : Bytes := [67, 82, 73, 84, 73, 67, 65, 76]

/-- The body of a PUT; there are no TTLs. -/
structure PutRequest where
  value : Bytes
  consistency : Bytes
  deriving DecidableEq, Repr

structure GetResponse where
  value : Bytes
  consistency : Bytes
  deriving DecidableEq, Repr

/-- The body of an answer, with the number of writes to its key that it has seen. -/
structure Body where
  content : Json GetResponse
  stamp : ℕ
  deriving DecidableEq, Repr

structure Response where
  status : ℕ
  body : Body
  deriving DecidableEq, Repr

/-- The values that each key had, the oldest first; `none` where it was deleted. -/
abbrev Node := Key → List (Option GetResponse)

/-- A request that changes a key. -/
inductive Change where
  | put (req : Json PutRequest)
  | delete
  deriving DecidableEq, Repr

namespace Node

/-- The value of a key. -/
def current (n : Node) (key : Key) : Option GetResponse :=
  (n key).getLast?.join

/-- A key gets another value, or is deleted. -/
def add (n : Node) (key : Key) (x : Option GetResponse) : Node :=
  Function.update n key (n key ++ [x])

/-- A body with an error has no `consistency`. -/
def handleGet (n : Node) (key : Key) : Response :=
  match n.current key with
  | some e => ⟨200, ⟨some e, (n key).length⟩⟩
  | none => ⟨404, ⟨some ⟨[], []⟩, (n key).length⟩⟩

/-- The consistency that a PUT asks for. -/
def consistencyOf (consistency : Bytes) : Option Bytes :=
  if consistency = [] then some consistencyEventual
  else if consistency = consistencyStrong ∨ consistency = consistencyEventual ∨
      consistency = consistencyCritical then some consistency
  else none

def handlePut (n : Node) (key : Key) : Json PutRequest → Node × ℕ
  | none => (n, 400)
  | some req =>
    if req.value = [] then (n, 400)
    else
      match consistencyOf req.consistency with
      | none => (n, 400)
      | some consistency => (n.add key (some ⟨req.value, consistency⟩), 204)

def handleDelete (n : Node) (key : Key) : Node × ℕ :=
  if n.current key = none then (n, 404) else (n.add key none, 204)

def handle (n : Node) (key : Key) : Change → Node × ℕ
  | .put req => n.handlePut key req
  | .delete => n.handleDelete key

end Node

/-! ### The gateway (`proxy.go`) -/

/-- `/v1/kv/`. -/
def kvKeyPrefix : Bytes := [47, 118, 49, 47, 107, 118, 47]

def kvPath (key : Key) : Bytes :=
  kvKeyPrefix ++ key

def cacheable (path : Bytes) : Bool :=
  kvKeyPrefix.isPrefixOf path

def isCacheableConsistency (body : Body) : Bool :=
  match body.content with
  | none => false
  | some parsed => parsed.consistency ≠ consistencyCritical

/-- The answer goes into the cache. -/
def stores (path : Bytes) (resp : Response) : Bool :=
  cacheable path && resp.status == 200 && isCacheableConsistency resp.body

/-- Where a read is. -/
inductive ReadPhase where
  /-- At `cache.Get`. -/
  | arrived
  /-- At `proxyRequest`. -/
  | missed
  /-- At `writeProxiedResponse`. -/
  | fetched (resp : Response)
  /-- At `cache.Set`. -/
  | responded (resp : Response)
  | done (resp : Response) (hit : Bool)
  deriving DecidableEq

/-- A read, with the number of the last write to its key that was answered when it came. -/
structure Read where
  key : Key
  floor : ℕ
  phase : ReadPhase
  deriving DecidableEq

/-- Where a write is. Once the node has served it, it has its number among the writes to its key, if
it took effect. -/
inductive WritePhase where
  /-- At `proxyRequest`. -/
  | arrived
  /-- At `writeProxiedResponse`. -/
  | proxied (status : ℕ) (number : Option ℕ)
  /-- At `cache.Delete`. -/
  | responded (status : ℕ) (number : Option ℕ)
  | done (status : ℕ) (number : Option ℕ)
  deriving DecidableEq

structure Write where
  key : Key
  change : Change
  phase : WritePhase
  deriving DecidableEq

/-- The gateway with its requests, and the node. A request is known by its position. The number of
the last write to each key that was answered is kept for the record. -/
structure Proxy where
  cache : LRU Bytes Body
  node : Node
  reads : List Read
  writes : List Write
  acknowledged : Key → ℕ

namespace Proxy

def new (capacity : ℤ) (node : Node) : Proxy :=
  ⟨.new capacity, node, [], [], fun _ => 0⟩

/-- A read goes on to another phase. -/
def setRead (p : Proxy) (i : ℕ) (r : Read) (phase : ReadPhase) : Proxy :=
  { p with reads := p.reads.set i { r with phase := phase } }

/-- A write goes on to another phase. -/
def setWrite (p : Proxy) (j : ℕ) (w : Write) (phase : WritePhase) : Proxy :=
  { p with writes := p.writes.set j { w with phase := phase } }

/-- The cache lookup of `handleRead`. -/
def lookup (p : Proxy) (path : Bytes) : LRU Bytes Body × Option Body :=
  if cacheable path then p.cache.get path else (p.cache, none)

/-- The end of `handleRead`. -/
def store (p : Proxy) (path : Bytes) (resp : Response) : LRU Bytes Body :=
  if stores path resp then p.cache.set path resp.body else p.cache

/-- The end of `handleWrite`. -/
def invalidate (p : Proxy) (path : Bytes) : LRU Bytes Body :=
  if cacheable path then p.cache.delete path else p.cache

/-- The next step of a read. -/
def stepRead (p : Proxy) (i : ℕ) (r : Read) : Option Proxy :=
  match r.phase with
  | .arrived =>
    match p.lookup (kvPath r.key) with
    -- a hit: the node is not asked
    | (cache, some body) => some { p.setRead i r (.done ⟨200, body⟩ true) with cache := cache }
    | (cache, none) => some { p.setRead i r .missed with cache := cache }
  | .missed => some (p.setRead i r (.fetched (p.node.handleGet r.key)))
  | .fetched resp => some (p.setRead i r (.responded resp))
  | .responded resp =>
    -- the client has its answer; other requests may have run since the node was asked
    some { p.setRead i r (.done resp false) with cache := p.store (kvPath r.key) resp }
  | .done _ _ => none

/-- The number of a write that took effect. -/
def numberOf (n : Node) (key : Key) (status : ℕ) : Option ℕ :=
  if status = 204 then some (n key).length else none

/-- The next step of a write. -/
def stepWrite (p : Proxy) (j : ℕ) (w : Write) : Option Proxy :=
  match w.phase with
  | .arrived =>
    let (node, status) := p.node.handle w.key w.change
    some { p.setWrite j w (.proxied status (numberOf node w.key status)) with node := node }
  | .proxied status number =>
    some { p.setWrite j w (.responded status number) with
      acknowledged := Function.update p.acknowledged w.key
        (max (p.acknowledged w.key) (number.getD 0)) }
  | .responded status number =>
    -- whatever the status was
    some { p.setWrite j w (.done status number) with cache := p.invalidate (kvPath w.key) }
  | .done _ _ => none

inductive Action where
  /-- A GET comes in. -/
  | get (key : Key)
  /-- A PUT or a DELETE comes in. -/
  | change (key : Key) (c : Change)
  | read (i : ℕ)
  | write (j : ℕ)

def step (p : Proxy) : Action → Option Proxy
  | .get key => some { p with reads := p.reads ++ [⟨key, p.acknowledged key, .arrived⟩] }
  | .change key c => some { p with writes := p.writes ++ [⟨key, c, .arrived⟩] }
  | .read i => (p.reads[i]?).bind fun r => p.stepRead i r
  | .write j => (p.writes[j]?).bind fun w => p.stepWrite j w

end Proxy

/-! ### What a read should be answered with -/

/-- What the client of a read has been sent. -/
def ReadPhase.answer : ReadPhase → Option Response
  | .responded resp | .done resp _ => some resp
  | _ => none

namespace Proxy

/-- **No read is answered with a body that is older than a write that was answered before it came.**
If that write was of a `CRITICAL` value, a hit is on a value that was written after it. -/
structure Fresh (p : Proxy) : Prop where
  answers : ∀ r ∈ p.reads, ∀ resp, r.phase.answer = some resp → r.floor ≤ resp.body.stamp
  critical : ∀ r ∈ p.reads, ∀ resp, r.phase = .done resp true → ∀ n < r.floor, ∀ e,
    (p.node r.key)[n]? = some (some e) → e.consistency = consistencyCritical →
      n + 1 < resp.body.stamp

end Proxy

/-- The write has been answered and has not deleted its key from the cache. -/
def WritePhase.pending : WritePhase → Bool
  | .responded _ _ => true
  | _ => false

/-- The number of a write that has deleted its key from the cache. -/
def WritePhase.invalidated : WritePhase → Option ℕ
  | .done _ number => number
  | _ => none

/-- What a read's next step has to wait for. -/
def Read.Careful (p : Proxy) (r : Read) : Prop :=
  match r.phase with
  | .arrived => ∀ w ∈ p.writes, w.key = r.key → w.phase.pending = false
  | .responded resp => stores (kvPath r.key) resp = true →
      ∀ w ∈ p.writes, w.key = r.key → ∀ n ∈ w.phase.invalidated, n ≤ resp.body.stamp
  | _ => True

instance Read.Careful.decidable (p : Proxy) : (r : Read) → Decidable (r.Careful p)
  | ⟨key, _, .arrived⟩ =>
    inferInstanceAs (Decidable (∀ w ∈ p.writes, w.key = key → w.phase.pending = false))
  | ⟨key, _, .responded resp⟩ =>
    inferInstanceAs (Decidable (stores (kvPath key) resp = true →
      ∀ w ∈ p.writes, w.key = key → ∀ n ∈ w.phase.invalidated, n ≤ resp.body.stamp))
  | ⟨_, _, .missed⟩ | ⟨_, _, .fetched _⟩ | ⟨_, _, .done _ _⟩ => inferInstanceAs (Decidable True)

namespace Proxy

/-- A read looks into the cache only while no write to its key is between its answer and its
`cache.Delete`, and it puts a body into the cache only if no write to its key that the body has not
seen has already run its `cache.Delete`. -/
def Careful (p : Proxy) : Action → Prop
  | .read i => ∀ r ∈ p.reads[i]?, r.Careful p
  | _ => True

instance Careful.decidable (p : Proxy) : (a : Action) → Decidable (p.Careful a)
  | .read i => inferInstanceAs (Decidable (∀ r ∈ p.reads[i]?, r.Careful p))
  | .get _ | .change _ _ | .write _ => inferInstanceAs (Decidable True)

end Proxy

/-! ### Bodies of the node -/

theorem cacheable_kvPath (key : Key) : cacheable (kvPath key) = true := by
  rw [cacheable, List.isPrefixOf_iff_prefix]
  exact List.prefix_append kvKeyPrefix key

theorem kvPath_injective : Function.Injective kvPath :=
  List.append_right_injective kvKeyPrefix

/-- The body is that of a value which is not `CRITICAL`, as the node had it when the key had seen as
many writes as the stamp says. -/
def Genuine (n : Node) (key : Key) (body : Body) : Prop :=
  ∃ e, body.content = some e ∧ e.consistency ≠ consistencyCritical ∧ 0 < body.stamp ∧
    (n key)[body.stamp - 1]? = some (some e)

namespace Node

variable {n n' : Node} {key : Key}

/-- What a change does: nothing, or one more value for its key. -/
theorem handle_cases (n : Node) (key : Key) (c : Change) :
    ((n.handle key c).1 = n ∧ (n.handle key c).2 ≠ 204) ∨
      ∃ x, (n.handle key c).1 = n.add key x ∧ (n.handle key c).2 = 204 := by
  cases c with
  | put req =>
    cases req with
    | none => exact .inl ⟨rfl, by simp [handle, handlePut]⟩
    | some req =>
      unfold handle handlePut
      dsimp only
      split
      · exact .inl ⟨rfl, by simp⟩
      · split
        · exact .inl ⟨rfl, by simp⟩
        · exact .inr ⟨_, rfl, rfl⟩
  | delete =>
    unfold handle handleDelete
    dsimp only
    split
    · exact .inl ⟨rfl, by simp⟩
    · exact .inr ⟨_, rfl, rfl⟩

/-- Values are only added. -/
theorem prefix_handle (n : Node) (key : Key) (c : Change) (k : Key) :
    n k <+: (n.handle key c).1 k := by
  rcases handle_cases n key c with ⟨heq, -⟩ | ⟨x, heq, -⟩
  · rw [heq]
  · rw [heq, add]
    by_cases hk : k = key
    · subst hk
      rw [Function.update_self]
      exact List.prefix_append _ _
    · rw [Function.update_of_ne hk]

theorem stamp_handleGet (n : Node) (key : Key) : (n.handleGet key).body.stamp = (n key).length := by
  unfold handleGet
  split <;> rfl

/-- What a GET is answered with may be put into the cache only if it is not `CRITICAL`. -/
theorem genuine_handleGet {path : Bytes} (h : stores path (n.handleGet key) = true) :
    Genuine n key (n.handleGet key).body := by
  unfold stores at h
  rw [Bool.and_eq_true, Bool.and_eq_true] at h
  obtain ⟨⟨-, hstatus⟩, hbody⟩ := h
  unfold handleGet at hstatus hbody ⊢
  cases hcur : n.current key with
  | none => rw [hcur] at hstatus; cases hstatus
  | some e =>
    rw [hcur] at hbody
    have hlast : (n key).getLast? = some (some e) := by
      unfold current at hcur
      exact Option.join_eq_some_iff.mp hcur
    have hpos : 0 < (n key).length :=
      List.length_pos_of_ne_nil fun hnil => by rw [hnil] at hlast; cases hlast
    refine ⟨e, rfl, by simpa [isCacheableConsistency] using hbody, hpos, ?_⟩
    rw [← List.getLast?_eq_getElem?]
    exact hlast

end Node

theorem Genuine.mono {n n' : Node} {key : Key} {body : Body} (h : Genuine n key body)
    (hpre : n key <+: n' key) : Genuine n' key body := by
  obtain ⟨e, hcontent, hcrit, hpos, hget⟩ := h
  refine ⟨e, hcontent, hcrit, hpos, ?_⟩
  obtain ⟨hlt, heq⟩ := List.getElem?_eq_some_iff.mp hget
  rw [List.prefix_iff_getElem?.mp hpre _ hlt, heq]

/-! ### The invariant -/

/-- What a read holds. -/
def ReadPhase.response : ReadPhase → Option Response
  | .fetched resp | .responded resp | .done resp _ => some resp
  | _ => none

/-- The number of a write that took effect. -/
def WritePhase.number : WritePhase → Option ℕ
  | .arrived => none
  | .proxied _ number | .responded _ number | .done _ number => number

/-- The number of a write that was answered. -/
def WritePhase.answered : WritePhase → Option ℕ
  | .responded _ number | .done _ number => number
  | _ => none

namespace Proxy

/-- A read that holds an answer has seen the writes it has to see. -/
structure ReadSound (p : Proxy) (r : Read) : Prop where
  floor_le : r.floor ≤ p.acknowledged r.key
  fresh : ∀ resp, r.phase.response = some resp → r.floor ≤ resp.body.stamp
  stores : ∀ resp, r.phase.response = some resp → stores (kvPath r.key) resp = true →
    Genuine p.node r.key resp.body
  hit : ∀ resp, r.phase = .done resp true → Genuine p.node r.key resp.body

/-- A body in the cache has seen all writes to its key that have deleted the key. -/
structure Cached (p : Proxy) (path : Bytes) (body : Body) : Prop where
  genuine : ∀ key, path = kvPath key → Genuine p.node key body
  seen : ∀ w ∈ p.writes, path = kvPath w.key → ∀ n ∈ w.phase.invalidated, n ≤ body.stamp

structure Sound (p : Proxy) : Prop where
  keyed : p.cache.Keyed
  cached : ∀ path body, p.cache.peek path = some body → p.Cached path body
  numbered : ∀ w ∈ p.writes, ∀ n ∈ w.phase.number, n ≤ (p.node w.key).length
  /-- The last write that was answered is one that was answered. -/
  acknowledged : ∀ key, p.acknowledged key = 0 ∨
    ∃ w ∈ p.writes, w.key = key ∧ w.phase.answered = some (p.acknowledged key)
  reads : ∀ r ∈ p.reads, p.ReadSound r

theorem sound_new (capacity : ℤ) (node : Node) : (new capacity node).Sound where
  keyed := LRU.keyed_new capacity
  cached path body h := by
    rw [new, LRU.peek_new] at h
    cases h
  numbered := nofun
  acknowledged _ := .inl rfl
  reads := nofun

section Invariant

variable {p p' : Proxy} {i j : ℕ} {r : Read} {w : Write}

/-- What was answered took effect. -/
theorem Sound.acknowledged_le (hp : p.Sound) (key : Key) :
    p.acknowledged key ≤ (p.node key).length := by
  rcases hp.acknowledged key with h | ⟨w, hw, rfl, hnum⟩
  · rw [h]
    exact Nat.zero_le _
  · refine hp.numbered w hw _ ?_
    cases hph : w.phase <;> rw [hph] at hnum <;> simp_all [WritePhase.answered, WritePhase.number]

/-- With no write between its answer and its `cache.Delete`, a body in the cache has seen every
write that was answered. -/
theorem Sound.acknowledged_le_stamp (hp : p.Sound) {key : Key} {body : Body}
    (hbody : p.cache.peek (kvPath key) = some body)
    (hpending : ∀ w ∈ p.writes, w.key = key → w.phase.pending = false) :
    p.acknowledged key ≤ body.stamp := by
  rcases hp.acknowledged key with h | ⟨w, hw, rfl, hnum⟩
  · rw [h]
    exact Nat.zero_le _
  · refine (hp.cached _ _ hbody).seen w hw rfl _ ?_
    have hnot := hpending w hw rfl
    cases hph : w.phase <;> rw [hph] at hnum hnot <;>
      simp_all [WritePhase.answered, WritePhase.pending, WritePhase.invalidated]

/-- A read goes on: node and writes stay as they are. -/
theorem Sound.of_read (hp : p.Sound) (hnode : p'.node = p.node) (hwrites : p'.writes = p.writes)
    (hack : p'.acknowledged = p.acknowledged) (hkeyed : p'.cache.Keyed)
    (hcached : ∀ path body, p'.cache.peek path = some body → p.Cached path body)
    (hreads : ∀ r ∈ p'.reads, p.ReadSound r) : p'.Sound where
  keyed := hkeyed
  cached path body h := by
    obtain ⟨hgen, hseen⟩ := hcached path body h
    exact ⟨by rw [hnode]; exact hgen, by rw [hwrites]; exact hseen⟩
  numbered := by rw [hwrites, hnode]; exact hp.numbered
  acknowledged := by rw [hack, hwrites]; exact hp.acknowledged
  reads r hr := by
    obtain ⟨hfloor, hfresh, hstores, hhit⟩ := hreads r hr
    exact ⟨by rw [hack]; exact hfloor, hfresh, by rw [hnode]; exact hstores,
      by rw [hnode]; exact hhit⟩

/-- The reads after one of them has gone on. -/
theorem Sound.reads_set (hp : p.Sound) {phase : ReadPhase}
    (hnew : p.ReadSound { r with phase := phase }) :
    ∀ r' ∈ (p.setRead i r phase).reads, p.ReadSound r' := by
  intro r' hr'
  rcases List.mem_or_eq_of_mem_set hr' with hmem | rfl
  · exact hp.reads r' hmem
  · exact hnew

theorem Sound.lookup (hp : p.Sound) (path : Bytes) :
    (p.lookup path).1.Keyed ∧ ∀ path' body, (p.lookup path).1.peek path' = some body →
      p.Cached path' body := by
  unfold Proxy.lookup
  split
  · refine ⟨hp.keyed.get path, fun path' body h => ?_⟩
    rw [LRU.peek_get] at h
    exact hp.cached path' body h
  · exact ⟨hp.keyed, hp.cached⟩

theorem Sound.store (hp : p.Sound) (path : Bytes) {resp : Response}
    (hcached : Gateway.stores path resp = true → p.Cached path resp.body) :
    (p.store path resp).Keyed ∧ ∀ path' body, (p.store path resp).peek path' = some body →
      p.Cached path' body := by
  unfold Proxy.store
  split
  · next hstores =>
    refine ⟨hp.keyed.set path resp.body, fun path' body h => ?_⟩
    rcases LRU.peek_of_set hp.keyed h with ⟨rfl, rfl⟩ | h
    · exact hcached hstores
    · exact hp.cached path' body h
  · exact ⟨hp.keyed, hp.cached⟩

/-- A read that goes on with the answer it holds, or with none. -/
theorem ReadSound.goOn (hr : p.ReadSound r) {phase : ReadPhase}
    (hresp : phase.response = r.phase.response) (hhit : ∀ resp, phase ≠ .done resp true) :
    p.ReadSound { r with phase := phase } where
  floor_le := hr.floor_le
  fresh resp h := hr.fresh resp (hresp.symm.trans h)
  stores resp h := hr.stores resp (hresp.symm.trans h)
  hit resp h := absurd h (hhit resp)

/-- A read that finds a body in the cache. -/
theorem Sound.hit (hp : p.Sound) (hr : p.ReadSound r) {body : Body}
    (hbody : p.cache.peek (kvPath r.key) = some body)
    (hpending : ∀ w ∈ p.writes, w.key = r.key → w.phase.pending = false) :
    p.ReadSound { r with phase := .done ⟨200, body⟩ true } := by
  have hgen := (hp.cached _ _ hbody).genuine r.key rfl
  refine ⟨hr.floor_le, ?_, ?_, ?_⟩
  · -- the body has seen all that was answered, hence what was answered when the read came
    rintro resp ⟨⟩
    exact hr.floor_le.trans (hp.acknowledged_le_stamp hbody hpending)
  · rintro resp ⟨⟩ -
    exact hgen
  · rintro resp ⟨⟩
    exact hgen

/-- A read that has asked the node. -/
theorem Sound.fetch (hp : p.Sound) (hr : p.ReadSound r) :
    p.ReadSound { r with phase := .fetched (p.node.handleGet r.key) } := by
  refine ⟨hr.floor_le, ?_, ?_, nofun⟩
  · rintro resp ⟨⟩
    rw [Node.stamp_handleGet]
    exact hr.floor_le.trans (hp.acknowledged_le r.key)
  · rintro resp ⟨⟩ hstores
    exact Node.genuine_handleGet hstores

theorem Sound.stepRead (hp : p.Sound) (hi : p.reads[i]? = some r) (hcareful : r.Careful p)
    (hstep : p.stepRead i r = some p') : p'.Sound := by
  have hr := hp.reads r (List.mem_of_getElem? hi)
  unfold Proxy.stepRead at hstep
  unfold Read.Careful at hcareful
  cases hphase : r.phase with
  | arrived =>
    rw [hphase] at hstep hcareful
    obtain ⟨hkeyed, hcached⟩ := hp.lookup (kvPath r.key)
    have hsnd : (p.lookup (kvPath r.key)).2 = p.cache.peek (kvPath r.key) := by
      rw [Proxy.lookup, if_pos (cacheable_kvPath r.key), LRU.get_snd]
    cases hlook : p.lookup (kvPath r.key) with
    | mk cache found =>
      rw [hlook] at hstep hkeyed hcached hsnd
      cases found with
      -- a miss has seen nothing yet
      | none =>
        cases hstep
        exact hp.of_read rfl rfl rfl hkeyed hcached
          (hp.reads_set (hr.goOn (by rw [hphase]; rfl) nofun))
      | some body =>
        cases hstep
        exact hp.of_read rfl rfl rfl hkeyed hcached (hp.reads_set (hp.hit hr hsnd.symm hcareful))
  | missed =>
    rw [hphase] at hstep
    cases hstep
    exact hp.of_read rfl rfl rfl hp.keyed hp.cached (hp.reads_set (hp.fetch hr))
  | fetched resp =>
    rw [hphase] at hstep
    cases hstep
    exact hp.of_read rfl rfl rfl hp.keyed hp.cached
      (hp.reads_set (hr.goOn (by rw [hphase]; rfl) nofun))
  | responded resp =>
    rw [hphase] at hstep hcareful
    cases hstep
    -- the node has sent the body for this very key, and no other key has its path
    have hgen := hr.stores resp (by rw [hphase]; rfl)
    obtain ⟨hkeyed, hcached⟩ := hp.store (kvPath r.key) fun hstores =>
      ⟨fun key hkey => kvPath_injective hkey ▸ hgen hstores,
        fun w hw hkey => hcareful hstores w hw (kvPath_injective hkey).symm⟩
    exact hp.of_read rfl rfl rfl hkeyed hcached (hp.reads_set (hr.goOn (by rw [hphase]; rfl) nofun))
  | done resp hit =>
    rw [hphase] at hstep
    cases hstep

/-- What holds of all writes but the one that goes on, and of that one in its new phase. -/
theorem forall_setWrite {P : Write → Prop} {phase : WritePhase} (hold : ∀ w' ∈ p.writes, P w')
    (hnew : P { w with phase := phase }) : ∀ w' ∈ (p.setWrite j w phase).writes, P w' := by
  intro w' hw'
  rcases List.mem_or_eq_of_mem_set hw' with hmem | rfl
  · exact hold w' hmem
  · exact hnew

theorem self_mem_setWrite (hj : p.writes[j]? = some w) (phase : WritePhase) :
    { w with phase := phase } ∈ (p.setWrite j w phase).writes := by
  obtain ⟨hlt, -⟩ := List.getElem?_eq_some_iff.mp hj
  exact List.mem_set hlt _

theorem mem_setWrite (hj : p.writes[j]? = some w) (phase : WritePhase) {w' : Write}
    (hw' : w' ∈ p.writes) : w' = w ∨ w' ∈ (p.setWrite j w phase).writes := by
  obtain ⟨m, hm⟩ := List.mem_iff_getElem?.mp hw'
  by_cases hmj : j = m
  · subst hmj
    exact .inl (Option.some.inj (hm.symm.trans hj))
  · refine .inr (List.mem_iff_getElem?.mpr ⟨m, ?_⟩)
    rw [setWrite, List.getElem?_set_ne hmj]
    exact hm

/-- A write that was answered is still there after another step of a write. -/
theorem answered_setWrite (hj : p.writes[j]? = some w) {phase : WritePhase} {key : Key} {m : ℕ}
    (hphase : w.phase.answered = some m → phase.answered = some m)
    (h : ∃ w' ∈ p.writes, w'.key = key ∧ w'.phase.answered = some m) :
    ∃ w' ∈ (p.setWrite j w phase).writes, w'.key = key ∧ w'.phase.answered = some m := by
  obtain ⟨w', hw', hkey, hnum⟩ := h
  rcases mem_setWrite hj phase hw' with rfl | hmem
  · exact ⟨_, self_mem_setWrite hj phase, hkey, hphase hnum⟩
  · exact ⟨w', hmem, hkey, hnum⟩

theorem ReadSound.mono (hr : p.ReadSound r) (hnode : p.node r.key <+: p'.node r.key)
    (hack : p.acknowledged r.key ≤ p'.acknowledged r.key) : p'.ReadSound r :=
  ⟨hr.floor_le.trans hack, hr.fresh,
    fun resp hresp hstores => (hr.stores resp hresp hstores).mono hnode,
    fun resp hresp => (hr.hit resp hresp).mono hnode⟩

/-- The node serves a write. -/
theorem Sound.perform (hp : p.Sound) (hj : p.writes[j]? = some w) (hphase : w.phase = .arrived) :
    Sound { p.setWrite j w (.proxied (p.node.handle w.key w.change).2
        (numberOf (p.node.handle w.key w.change).1 w.key (p.node.handle w.key w.change).2)) with
      node := (p.node.handle w.key w.change).1 } := by
  have hgrows := Node.prefix_handle p.node w.key w.change
  refine ⟨hp.keyed, fun path body h => ⟨fun key hkey => ?_, ?_⟩, ?_, fun key => ?_, fun r hr => ?_⟩
  · exact ((hp.cached path body h).genuine key hkey).mono (hgrows key)
  · exact forall_setWrite (hp.cached path body h).seen nofun
  · refine forall_setWrite (fun w' hw' n hn => ?_) fun n hn => ?_
    · exact (hp.numbered w' hw' n hn).trans (hgrows w'.key).length_le
    · change n ∈ numberOf _ _ _ at hn
      unfold numberOf at hn
      split at hn
      · exact (Option.some.inj hn).ge
      · cases hn
  · refine (hp.acknowledged key).imp id (answered_setWrite hj fun h => ?_)
    rw [hphase] at h
    cases h
  · exact (hp.reads r hr).mono (hgrows r.key) le_rfl

/-- A write is answered. -/
theorem Sound.acknowledge (hp : p.Sound) (hj : p.writes[j]? = some w) {status : ℕ}
    {number : Option ℕ} (hphase : w.phase = .proxied status number) :
    Sound { p.setWrite j w (.responded status number) with
      acknowledged := Function.update p.acknowledged w.key
        (max (p.acknowledged w.key) (number.getD 0)) } := by
  have hold : ∀ m, w.phase.answered = some m →
      (WritePhase.responded status number).answered = some m := fun m h => by
    rw [hphase] at h
    cases h
  refine ⟨hp.keyed, fun path body h => ⟨(hp.cached path body h).genuine, ?_⟩, ?_, fun key => ?_,
    fun r hr => ?_⟩
  · exact forall_setWrite (hp.cached path body h).seen nofun
  · exact forall_setWrite hp.numbered fun n hn =>
      hp.numbered w (List.mem_of_getElem? hj) n (by rw [hphase]; exact hn)
  · change Function.update p.acknowledged w.key _ key = 0 ∨ ∃ w' ∈ _, _ ∧ _ =
      some (Function.update p.acknowledged w.key _ key)
    by_cases hkey : key = w.key
    · -- the last write answered is this one, or the one it was before
      subst hkey
      rw [Function.update_self]
      rcases le_total (number.getD 0) (p.acknowledged w.key) with hle | hle
      · rw [max_eq_left hle]
        exact (hp.acknowledged w.key).imp id (answered_setWrite hj (hold _))
      · rw [max_eq_right hle]
        cases number with
        | none => exact .inl rfl
        | some m => exact .inr ⟨_, self_mem_setWrite hj _, rfl, rfl⟩
    · rw [Function.update_of_ne hkey]
      exact (hp.acknowledged key).imp id (answered_setWrite hj (hold _))
  · refine (hp.reads r hr).mono (List.prefix_refl _) ?_
    change p.acknowledged r.key ≤ Function.update p.acknowledged w.key _ r.key
    by_cases hkey : r.key = w.key
    · rw [hkey, Function.update_self]
      exact le_max_left _ _
    · rw [Function.update_of_ne hkey]

/-- A write deletes its key from the cache. -/
theorem Sound.invalidate (hp : p.Sound) (hj : p.writes[j]? = some w) {status : ℕ}
    {number : Option ℕ} (hphase : w.phase = .responded status number) :
    Sound { p.setWrite j w (.done status number) with cache := p.invalidate (kvPath w.key) } := by
  have hdelete : p.invalidate (kvPath w.key) = p.cache.delete (kvPath w.key) := by
    rw [Proxy.invalidate, if_pos (cacheable_kvPath w.key)]
  refine ⟨by rw [hdelete]; exact hp.keyed.delete _, fun path body h => ?_, ?_, fun key => ?_,
    fun r hr => ?_⟩
  · rw [hdelete, LRU.peek_delete] at h
    split at h
    · cases h
    · -- what is left is for other keys, and need not have seen this write
      next hne =>
      obtain ⟨hgen, hseen⟩ := hp.cached path body h
      exact ⟨hgen, forall_setWrite hseen fun hpath => absurd hpath hne⟩
  · exact forall_setWrite hp.numbered fun n hn =>
      hp.numbered w (List.mem_of_getElem? hj) n (by rw [hphase]; exact hn)
  · exact (hp.acknowledged key).imp id (answered_setWrite hj fun h => by rw [hphase] at h; exact h)
  · exact (hp.reads r hr).mono (List.prefix_refl _) le_rfl

theorem Sound.stepWrite (hp : p.Sound) (hj : p.writes[j]? = some w)
    (hstep : p.stepWrite j w = some p') : p'.Sound := by
  unfold Proxy.stepWrite at hstep
  cases hphase : w.phase with
  | arrived =>
    rw [hphase] at hstep
    cases hstep
    exact hp.perform hj hphase
  | proxied status number =>
    rw [hphase] at hstep
    cases hstep
    exact hp.acknowledge hj hphase
  | responded status number =>
    rw [hphase] at hstep
    cases hstep
    exact hp.invalidate hj hphase
  | done status number =>
    rw [hphase] at hstep
    cases hstep

/-- **A careful step keeps the invariant.** -/
theorem Sound.step {a : Action} (hp : p.Sound) (hcareful : p.Careful a)
    (hstep : p.step a = some p') : p'.Sound := by
  cases a with
  | get key =>
    cases hstep
    exact hp.of_read rfl rfl rfl hp.keyed hp.cached (List.forall_mem_append.mpr
      ⟨hp.reads, List.forall_mem_singleton.mpr ⟨le_rfl, nofun, nofun, nofun⟩⟩)
  | change key c =>
    cases hstep
    have hnew : ∀ P : Write → Prop, (∀ w ∈ p.writes, P w) → P ⟨key, c, .arrived⟩ →
        ∀ w ∈ p.writes ++ [⟨key, c, .arrived⟩], P w := fun P hold hself =>
      List.forall_mem_append.mpr ⟨hold, List.forall_mem_singleton.mpr hself⟩
    refine ⟨hp.keyed, fun path body h => ?_, ?_, fun k => ?_,
      fun r hr => (hp.reads r hr).mono (List.prefix_refl _) le_rfl⟩
    · obtain ⟨hgen, hseen⟩ := hp.cached path body h
      exact ⟨hgen, hnew _ hseen nofun⟩
    · exact hnew _ hp.numbered nofun
    · exact (hp.acknowledged k).imp id fun ⟨w, hw, hrest⟩ => ⟨w, List.mem_append_left _ hw, hrest⟩
  | read i =>
    obtain ⟨r, hi, hread⟩ := Option.bind_eq_some_iff.mp hstep
    exact hp.stepRead hi (hcareful r hi) hread
  | write j =>
    obtain ⟨w, hj, hwrite⟩ := Option.bind_eq_some_iff.mp hstep
    exact hp.stepWrite hj hwrite

theorem Sound.fresh (hp : p.Sound) : p.Fresh where
  answers r hr resp hresp := by
    refine (hp.reads r hr).fresh resp ?_
    cases hphase : r.phase <;> rw [hphase] at hresp <;>
      simp_all [ReadPhase.answer, ReadPhase.response]
  critical r hr resp hphase n hn e he hcrit := by
    have hfresh := (hp.reads r hr).fresh resp (by rw [hphase]; rfl)
    obtain ⟨e', -, hcrit', hpos, hget⟩ := (hp.reads r hr).hit resp hphase
    -- the body is of another write, as its value is not `CRITICAL`
    have hne : n ≠ resp.body.stamp - 1 := by
      rintro rfl
      rw [he] at hget
      exact hcrit' (Option.some.inj (Option.some.inj hget) ▸ hcrit)
    omega

end Invariant

/-- **No stale hit after a completed write**, in every run whose steps are careful. -/
theorem no_stale_answer {capacity : ℤ} {node : Node} {p : Proxy}
    (hrun : Runs step Careful (new capacity node) p) : p.Fresh :=
  (hrun.invariant (fun _ _ _ hp hcareful hstep => hp.step hcareful hstep)
    (sound_new capacity node)).fresh

/-- The key of the runs below is `a`, with a value that may be cached. -/
def sampleNode : Node :=
  fun _ => [some ⟨[49], consistencyEventual⟩]

/-- A read that fills the cache, a hit, a `CRITICAL` write, and a read that is not a hit. -/
theorem no_stale_answer_after_critical : ∃ p, Runs step Careful (new 1000 sampleNode) p ∧
      p.reads = [⟨[97], 0, .done ⟨200, ⟨some ⟨[49], consistencyEventual⟩, 1⟩⟩ false⟩,
        ⟨[97], 0, .done ⟨200, ⟨some ⟨[49], consistencyEventual⟩, 1⟩⟩ true⟩,
        ⟨[97], 2, .done ⟨200, ⟨some ⟨[50], consistencyCritical⟩, 2⟩⟩ false⟩] ∧ p.Fresh := by
  have hrun := Runs.of_exec_guarded (show exec (guarded step Careful) (new 1000 sampleNode)
    [.get [97], .read 0, .read 0, .read 0, .read 0, .get [97], .read 1,
      .change [97] (.put (some ⟨[50], consistencyCritical⟩)), .write 0, .write 0, .write 0,
      .get [97], .read 2, .read 2, .read 2, .read 2] = some _ from rfl)
  exact ⟨_, hrun, rfl, no_stale_answer hrun⟩

/-- A read that was answered from the cache with a body older than the write before it. -/
theorem not_fresh {p : Proxy} {r : Read} {resp : Response} (hr : r ∈ p.reads)
    (hphase : r.phase = .done resp true) (hold : resp.body.stamp < r.floor) : ¬p.Fresh := fun hp =>
  absurd (hp.answers r hr resp (by rw [hphase]; rfl)) (not_le.mpr hold)

/-- Two orders of steps with a `CRITICAL` write whose client has its answer, and a later read that
is served the old value from the cache: in the first the read comes before the write's
`cache.Delete`, in the second a slow read puts the old body into the cache after it. -/
theorem stale_hit_after_write : (∃ p, Reaches step (new 1000 sampleNode) p ∧
      p.writes = [⟨[97], .put (some ⟨[50], consistencyCritical⟩), .responded 204 (some 2)⟩] ∧
      p.reads[1]? = some ⟨[97], 2, .done ⟨200, ⟨some ⟨[49], consistencyEventual⟩, 1⟩⟩ true⟩ ∧
      ¬p.Fresh) ∧
    ∃ p, Reaches step (new 1000 sampleNode) p ∧
      p.writes = [⟨[97], .put (some ⟨[50], consistencyCritical⟩), .done 204 (some 2)⟩] ∧
      p.reads[1]? = some ⟨[97], 2, .done ⟨200, ⟨some ⟨[49], consistencyEventual⟩, 1⟩⟩ true⟩ ∧
      ¬p.Fresh := by
  refine ⟨?_, ?_⟩
  · exact ⟨_, Reaches.of_exec (show exec step (new 1000 sampleNode)
        [.get [97], .read 0, .read 0, .read 0, .read 0,
          .change [97] (.put (some ⟨[50], consistencyCritical⟩)), .write 0, .write 0,
          .get [97], .read 1] = some _ from rfl), rfl, rfl,
      not_fresh (List.mem_of_getElem? (i := 1) rfl) rfl (by decide)⟩
  · exact ⟨_, Reaches.of_exec (show exec step (new 1000 sampleNode)
        [.get [97], .read 0, .read 0, .change [97] (.put (some ⟨[50], consistencyCritical⟩)),
          .write 0, .write 0, .write 0, .read 0, .read 0, .get [97], .read 1] = some _ from rfl),
      rfl, rfl, not_fresh (List.mem_of_getElem? (i := 1) rfl) rfl (by decide)⟩

end Proxy

end Gateway
end BoilerPulse
