import BoilerPulse.Gateway.Addressing
import BoilerPulse.Gateway.Events

/-!
# Gateway: expiry behind the cache

`handleRead` and `handleWrite` once more, one request at a time, over a backend with TTLs: any
engine that meets the contract of `Storage.Contract`, behind the handlers of a node
(`kv_handlers.go`, `events_handlers.go`). Every request reads the clock, and the clock does not go
backwards.

A value that expires changes what the backend answers without any request. The body in the cache has
no expiry in it, so nothing removes it: a hit shows the value for as long as the body stays in the
cache (`expired_value_served`). So a GET is answered as the backend would exactly if the cache has
no body for its key, or the entry that the backend holds under the key has not expired
(`cached_answer_right_iff`). Both are facts about the state in which the GET arrives.

The equivalence is about the states that *clear* requests lead to (`TimedSession.Clear`). Two more
things make the cache wrong, and neither has to do with TTLs. A key that the node reads off the
forwarded path as another one is written there and deleted from the cache here; and a post of an
event does not touch the cache, so that an older body of the same event stays in it. Both are left
out step by step, by a condition on the request and the cache it finds. An engine also has to be
able to hold what it is given, since otherwise it promises nothing.

The invariant (`Tracks`) has two parts. The engine stands for a model, which is kept beside it for
the record and which no handler reads. And every body in the cache is that of the entry which the
model has under the key, *whether this has expired or not*: that is why a hit can be compared with
the backend's answer through the entry's expiry alone.
-/

namespace BoilerPulse
namespace Gateway

open Framework Storage

/-! ### The node (`kv_handlers.go`) -/

/-- The body of a PUT. -/
structure TimedPut where
  value : Bytes
  ttlSeconds : ℤ
  consistency : Bytes
  deriving DecidableEq, Repr

/-- The consistency and the TTL of a PUT that is not refused. -/
def TimedPut.accepted (req : TimedPut) : Option (Bytes × ℤ) :=
  if req.value = [] then none
  else if req.ttlSeconds < 0 then none
  else (Node.consistencyOf req.consistency).map fun consistency =>
    (consistency, wrap64 (req.ttlSeconds * 10 ^ 9))

/-- The writes of one key. A body that is not JSON is `none`. -/
inductive TimedChange where
  | put (req : Json TimedPut)
  | delete
  deriving DecidableEq, Repr

section Backend

variable {σ : Type} (E : StorageEngine σ) (s : σ)

/-- `handleGet`: the answer has value and consistency of the entry in it, but not its expiry. -/
def backendGet (now : ℤ) (key : Key) : Response :=
  match E.get s now key with
  | .ok e => ⟨200, ⟨some ⟨e.value, e.consistency⟩, 0⟩⟩
  | .error .keyNotFound => ⟨404, ⟨some ⟨[], []⟩, 0⟩⟩
  | .error (.failed _) => ⟨500, ⟨some ⟨[], []⟩, 0⟩⟩

/-- `handlePut`: a TTL counts from the reading of the clock in `Put`. -/
def backendPut (now later : ℤ) (key : Key) : Json TimedPut → σ × ℕ
  | none => (s, 400)
  | some req =>
    match req.accepted with
    | none => (s, 400)
    | some (consistency, ttl) =>
      match E.put s now later key req.value consistency ttl with
      | (s, none) => (s, 204)
      | (s, some _) => (s, 500)

/-- `handleDelete`. -/
def backendDelete (now later : ℤ) (key : Key) : σ × ℕ :=
  match E.delete s now later key with
  | (s, none) => (s, 204)
  | (s, some .keyNotFound) => (s, 404)
  | (s, some (.failed _)) => (s, 500)

def backendChange (now later : ℤ) (key : Key) : TimedChange → σ × ℕ
  | .put req => backendPut E s now later key req
  | .delete => backendDelete E s now later key

/-- What a post leaves behind. -/
def backendPost (now later : ℤ) : Option (Key × GetResponse) → σ
  | none => s
  | some (key, x) => (E.put s now later key x.value x.consistency 0).1

end Backend

/-- The same for the model. -/
def modelChange (m : Model) (now : ℤ) (key : Key) : TimedChange → Model
  | .put none => m
  | .put (some req) =>
    match req.accepted with
    | none => m
    | some (consistency, ttl) => m.put now key req.value consistency ttl
  | .delete => (m.delete now key).1

@[inherit_doc modelChange]
def modelPost (m : Model) (now : ℤ) : Option (Key × GetResponse) → Model
  | none => m
  | some (key, x) => m.put now key x.value x.consistency 0

/-! ### The gateway (`proxy.go`) -/

/-- Where the request for a path goes. -/
inductive Route where
  /-- No request can be made of it. -/
  | unsent
  /-- The node has no handler for it. -/
  | unrouted
  | key (k : Key)
  deriving DecidableEq

/-- The node reads the key off the URL that the gateway has put together. -/
def routeOf (path rawQuery : Bytes) : Route :=
  match parseURL (withQuery path rawQuery), forwardedKey path rawQuery with
  | none, _ => .unsent
  | some _, none => .unrouted
  | some _, some k => .key k

/-- The gateway's cache and the backend's engine, between two requests. The model that the engine
stands for is kept for the record; `clock` is the last reading so far. -/
structure TimedSession (σ : Type) where
  cache : LRU Bytes Body
  engine : σ
  model : Model
  clock : ℤ

/-- A request with its readings of the clock. -/
inductive TimedRequest where
  | get (key : Key) (rawQuery : Bytes) (now : ℤ)
  | change (key : Key) (rawQuery : Bytes) (c : TimedChange) (now later : ℤ)
  | post (body : Json Event) (generated : Bytes) (now later : ℤ)

/-- The first and the last reading of the clock. -/
def TimedRequest.start : TimedRequest → ℤ
  | .get _ _ now | .change _ _ _ now _ | .post _ _ now _ => now

@[inherit_doc TimedRequest.start]
def TimedRequest.finish : TimedRequest → ℤ
  | .get _ _ now => now
  | .change _ _ _ _ later | .post _ _ _ later => later

namespace TimedSession

variable {σ : Type}

def new (capacity : ℤ) (engine : σ) (model : Model) (clock : ℤ) : TimedSession σ :=
  ⟨.new capacity, engine, model, clock⟩

variable (E : StorageEngine σ) (marshal : Event → Option Bytes)

/-- What the gateway gets from the node for a GET. -/
def proxyGet (s : TimedSession σ) (key : Key) (rawQuery : Bytes) (now : ℤ) : Response :=
  match routeOf (kvPath key) rawQuery with
  | .unsent => ⟨503, ⟨none, 0⟩⟩
  | .unrouted => ⟨404, ⟨none, 0⟩⟩
  | .key k => backendGet E s.engine now k

/-- A hit is answered from the cache, and the backend is not asked. -/
def handleRead (s : TimedSession σ) (key : Key) (rawQuery : Bytes) (now : ℤ) :
    LRU Bytes Body × Response :=
  match s.cache.get (kvPath key) with
  | (cache, some body) => (cache, ⟨200, body⟩)
  | (cache, none) =>
    let resp := s.proxyGet E key rawQuery now
    (if stores (kvPath key) resp then cache.set (kvPath key) resp.body else cache, resp)

/-- `handleWrite` of a key. The cache loses its body whatever the node has answered, but under the
path of the request, which need not be that of the key that was written. -/
def handleChange (s : TimedSession σ) (key : Key) (rawQuery : Bytes) (c : TimedChange)
    (now later : ℤ) : TimedSession σ :=
  match routeOf (kvPath key) rawQuery with
  -- 503, and nothing else happens
  | .unsent => s
  | .unrouted => { s with cache := s.cache.delete (kvPath key) }
  | .key k =>
    { s with
      engine := (backendChange E s.engine now later k c).1
      model := modelChange s.model now k c
      cache := s.cache.delete (kvPath key) }

/-- A post deletes nothing from the cache: its path has no key in it. -/
def handlePost (s : TimedSession σ) (body : Json Event) (generated : Bytes) (now later : ℤ) :
    TimedSession σ :=
  { s with
    engine := backendPost E s.engine now later (posted marshal body generated now)
    model := modelPost s.model now (posted marshal body generated now) }

/-- The handlers, by method and path. -/
def serve (s : TimedSession σ) : TimedRequest → TimedSession σ
  | .get key rawQuery now => { s with cache := (s.handleRead E key rawQuery now).1 }
  | .change key rawQuery c now later => s.handleChange E key rawQuery c now later
  | .post body generated now later => s.handlePost E marshal body generated now later

/-- The next request is served, from start to end; the clock goes forward. -/
def step (s : TimedSession σ) (r : TimedRequest) : Option (TimedSession σ) :=
  if s.clock ≤ r.start ∧ r.start ≤ r.finish then
    some { s.serve E marshal r with clock := r.finish }
  else none

/-- The engine honours the TTL and can hold what is put. -/
def Honoured (now : ℤ) (key : Key) : TimedChange → Prop
  | .put (some req) => ∀ x ∈ req.accepted, E.Admits now x.2 ∧ E.Holds key req.value x.1
  | _ => True

/-- **The condition on a request and the cache that it finds**: keys are found again at the node,
the engine honours and holds what is written, and a post finds no body in the cache for the key that
it writes, unless it is the new one. -/
def Clear (s : TimedSession σ) : TimedRequest → Prop
  | .get key rawQuery _ => forwardedKey (kvPath key) rawQuery = some key
  | .change key rawQuery c now _ =>
    forwardedKey (kvPath key) rawQuery = some key ∧ Honoured E now key c
  | .post body generated now _ =>
    ∀ x ∈ posted marshal body generated now, E.Holds x.1 x.2.value x.2.consistency ∧
      ∀ b ∈ s.cache.peek (kvPath x.1), b.content = some x.2

end TimedSession

/-! ### The backend follows the model -/

section Contract

variable {σ : Type} {E : StorageEngine σ} {s : σ} {m : Model} {now later : ℤ}

/-- A visible entry, and one that is not. -/
theorem backendGet_eq (hs : E.Stands now s m) (key : Key) : backendGet E s now key =
      match live Entry.dead now m.map key with
      | some e => ⟨200, ⟨some ⟨e.value, e.consistency⟩, 0⟩⟩
      | none => ⟨404, ⟨some ⟨[], []⟩, 0⟩⟩ := by
  rw [backendGet, E.get_eq hs, checked_eq]
  cases live Entry.dead now m.map key <;> rfl

/-- A `Put` that the engine can hold is one in the model. -/
theorem stands_put (hs : E.Stands later s m) {ttl : ℤ} {key : Key} {value consistency : Bytes}
    (hadm : E.Admits now ttl) (hholds : E.Holds key value consistency) :
    ∃ s', E.put s now later key value consistency ttl = (s', none) ∧
      E.Stands later s' (m.put now key value consistency ttl) := by
  obtain ⟨herr, hstands⟩ := E.put_spec hs hadm hholds
  exact ⟨_, Prod.ext rfl herr, hstands⟩

/-- A change moves the engine and the model along together, whether it is refused or not. -/
theorem stands_backendChange (hs : E.Stands now s m) (hle : now ≤ later) (key : Key)
    {c : TimedChange} (hc : TimedSession.Honoured E now key c) :
    E.Stands later (backendChange E s now later key c).1 (modelChange m now key c) := by
  have hlater := E.stands_mono hs hle
  cases c with
  | put body =>
    cases body with
    | none => exact hlater
    | some req =>
      show E.Stands later (backendPut E s now later key (some req)).1 _
      rw [backendPut, modelChange]
      cases hreq : req.accepted with
      -- a request that is not accepted changes nothing
      | none => exact hlater
      | some x =>
        obtain ⟨s', hput, hs'⟩ := stands_put hlater (hc x hreq).1 (hc x hreq).2
        dsimp only
        rw [hput]
        exact hs'
  | delete =>
    obtain ⟨-, hs'⟩ := E.delete_spec hs hlater key
    show E.Stands later (backendDelete E s now later key).1 (m.delete now key).1
    rw [backendDelete]
    generalize E.delete s now later key = r at hs' ⊢
    obtain ⟨s', err⟩ := r
    match err with
    | none | some .keyNotFound | some (.failed _) => exact hs'

/-- So is that of a post. -/
theorem stands_backendPost (hs : E.Stands later s m) {x : Option (Key × GetResponse)}
    (hx : ∀ y ∈ x, E.Holds y.1 y.2.value y.2.consistency) :
    E.Stands later (backendPost E s now later x) (modelPost m now x) := by
  cases x with
  | none => exact hs
  | some x =>
    have hadm : E.Admits now 0 := E.admits_of_storable (by simp [StorableTtl, expiryOf])
    exact (E.put_spec hs hadm (hx x rfl)).2

/-- Other keys are left alone. -/
theorem modelChange_of_ne (m : Model) (now : ℤ) {key k : Key} (hk : k ≠ key) (c : TimedChange) :
    (modelChange m now key c).map k = m.map k := by
  cases c with
  | put body =>
    cases body with
    | none => rfl
    | some req =>
      rw [modelChange]
      cases req.accepted with
      | none => rfl
      | some x => exact m.write_map_of_ne hk _
  | delete =>
    rw [modelChange, Model.delete]
    cases checked now (m.map key) with
    | error err => rfl
    | ok e => exact m.write_map_of_ne hk _

end Contract

/-! ### The invariant -/

/-- **Every body in the cache is that of the last value that was written**, which may have
expired. -/
structure TimedSession.Tracks {σ : Type} (E : StorageEngine σ) (s : TimedSession σ) : Prop where
  stands : E.Stands s.clock s.engine s.model
  keyed : s.cache.Keyed
  cached : ∀ key b, s.cache.peek (kvPath key) = some b →
    ∃ e, s.model.map key = some e ∧ e.tombstone = false ∧ b.content = some ⟨e.value, e.consistency⟩

/-- A key that is found again at the node is what the request is for. -/
theorem routeOf_eq {path rawQuery : Bytes} {k : Key} (h : forwardedKey path rawQuery = some k) :
    routeOf path rawQuery = .key k := by
  have hparse := h
  rw [forwardedKey_eq] at hparse
  rw [routeOf, h]
  cases hurl : parseURL (withQuery path rawQuery) with
  | none => rw [hurl] at hparse; cases hparse
  | some u => rfl

/-- What goes into the cache is a visible entry. -/
theorem entry_of_stores {σ : Type} {E : StorageEngine σ} {s : σ} {m : Model} {now : ℤ}
    (hs : E.Stands now s m) {key : Key} {path : Bytes}
    (h : stores path (backendGet E s now key) = true) :
    ∃ e, m.map key = some e ∧ e.tombstone = false ∧
      (backendGet E s now key).body.content = some ⟨e.value, e.consistency⟩ := by
  rw [backendGet_eq hs] at h ⊢
  cases hlive : live Entry.dead now m.map key with
  | none =>
    rw [hlive] at h
    exact absurd h (by simp [stores])
  | some e =>
    obtain ⟨hkey, hdead⟩ := (live_eq_some Entry.dead).mp hlive
    rw [Entry.dead, Bool.or_eq_false_iff] at hdead
    exact ⟨e, hkey, hdead.1, rfl⟩

namespace TimedSession.Tracks

variable {σ : Type} {E : StorageEngine σ} {marshal : Event → Option Bytes} {s : TimedSession σ}
  {rawQuery : Bytes} {key : Key}

theorem new {capacity clock : ℤ} {engine : σ} {model : Model} (h : E.Stands clock engine model) :
    (TimedSession.new capacity engine model clock).Tracks E where
  stands := h
  keyed := LRU.keyed_new capacity
  cached key b hb := by
    change (LRU.new capacity : LRU Bytes Body).peek (kvPath key) = some b at hb
    rw [LRU.peek_new] at hb
    cases hb

/-- `Get` of the cache answers what is in it; only the recency changes. -/
theorem cache_get (s : TimedSession σ) (key : Key) : s.cache.get (kvPath key) =
    ((s.cache.get (kvPath key)).1, s.cache.peek (kvPath key)) := by
  rw [← LRU.get_snd]

/-- Without the cache the gateway answers as the backend does. -/
theorem proxyGet_eq (s : TimedSession σ) (hkey : forwardedKey (kvPath key) rawQuery = some key)
    (now : ℤ) :
    s.proxyGet E key rawQuery now = backendGet E s.engine now key := by
  rw [proxyGet, routeOf_eq hkey]

/-- What a miss puts into the cache is the entry that was visible. -/
theorem get (h : s.Tracks E) {now : ℤ} (hclock : s.clock ≤ now)
    (hkey : forwardedKey (kvPath key) rawQuery = some key) :
    ({ s.serve E marshal (.get key rawQuery now) with clock := now }).Tracks E := by
  have hcached : ∀ k b, (s.cache.get (kvPath key)).1.peek (kvPath k) = some b →
      ∃ e, s.model.map k = some e ∧ e.tombstone = false ∧
        b.content = some ⟨e.value, e.consistency⟩ := by
    intro k b hb
    rw [LRU.peek_get] at hb
    exact h.cached k b hb
  have hkeyed := h.keyed.get (kvPath key)
  have hstands := E.stands_mono h.stands hclock
  have hserve : { s.serve E marshal (.get key rawQuery now) with clock := now } =
      { s with cache := (s.handleRead E key rawQuery now).1, clock := now } := rfl
  rw [hserve, handleRead, cache_get]
  cases s.cache.peek (kvPath key) with
  -- a hit changes the order of the cache only
  | some b => exact ⟨hstands, hkeyed, hcached⟩
  | none =>
    dsimp only
    rw [proxyGet_eq s hkey]
    split
    · next hstores =>
      refine ⟨hstands, hkeyed.set _ _, fun k b hb => ?_⟩
      rcases LRU.peek_of_set hkeyed hb with ⟨hk, rfl⟩ | hb
      · -- the body just stored is the one that the backend has shown at `now`
        obtain rfl := kvPath_injective hk
        exact entry_of_stores hstands hstores
      · exact hcached k b hb
    · exact ⟨hstands, hkeyed, hcached⟩

/-- The key that is written is deleted from the cache, and the other keys keep their entries. -/
theorem change (h : s.Tracks E) {now later : ℤ} (hclock : s.clock ≤ now) (hle : now ≤ later)
    (hkey : forwardedKey (kvPath key) rawQuery = some key) {c : TimedChange}
    (hc : Honoured E now key c) :
    ({ s.serve E marshal (.change key rawQuery c now later) with clock := later }).Tracks E := by
  have hserve : s.serve E marshal (.change key rawQuery c now later) = { s with
        engine := (backendChange E s.engine now later key c).1
        model := modelChange s.model now key c
        cache := s.cache.delete (kvPath key) } := by
    rw [serve, handleChange, routeOf_eq hkey]
  rw [hserve]
  refine ⟨stands_backendChange (E.stands_mono h.stands hclock) hle key hc, h.keyed.delete _,
    fun k b hb => ?_⟩
  change (s.cache.delete (kvPath key)).peek (kvPath k) = some b at hb
  rw [LRU.peek_delete] at hb
  split at hb
  · cases hb
  · next hne =>
    have hk : k ≠ key := fun heq => hne (by rw [heq])
    obtain ⟨e, he, hentry⟩ := h.cached k b hb
    exact ⟨e, by rw [← he]; exact modelChange_of_ne s.model now hk c, hentry⟩

/-- A post leaves the cache as it is, so the body of the key it writes has to be the new one. -/
theorem post (h : s.Tracks E) {now later : ℤ} (hclock : s.clock ≤ now) (hle : now ≤ later)
    {body : Json Event} {generated : Bytes}
    (hclear : s.Clear E marshal (.post body generated now later)) :
    ({ s.serve E marshal (.post body generated now later) with clock := later }).Tracks E := by
  refine ⟨stands_backendPost (E.stands_mono h.stands (hclock.trans hle))
    fun x hx => (hclear x hx).1, h.keyed, fun k b hb => ?_⟩
  obtain ⟨e, he, hentry⟩ := h.cached k b hb
  show ∃ e, (modelPost s.model now (posted marshal body generated now)).map k = some e ∧ _
  cases hx : posted marshal body generated now with
  | none => exact ⟨e, he, hentry⟩
  | some x =>
    by_cases hk : k = x.1
    · subst hk
      exact ⟨_, s.model.write_map_self _ _, rfl, (hclear x hx).2 b hb⟩
    · exact ⟨e, by rw [← he]; exact s.model.write_map_of_ne hk _, hentry⟩

/-- **Every request** keeps the invariant. -/
theorem step (h : s.Tracks E) {r : TimedRequest} (hok : s.Clear E marshal r) {s' : TimedSession σ}
    (hs : s.step E marshal r = some s') : s'.Tracks E := by
  rw [TimedSession.step] at hs
  split at hs
  · next hclock =>
    cases hs
    cases r with
    | get key rawQuery now => exact h.get hclock.1 hok
    | change key rawQuery c now later => exact h.change hclock.1 hclock.2 hok.1 hok.2
    | post body generated now later => exact h.post hclock.1 hclock.2 hok
  · cases hs

end TimedSession.Tracks

end Gateway
end BoilerPulse
