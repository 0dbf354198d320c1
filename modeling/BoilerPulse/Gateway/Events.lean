import BoilerPulse.Gateway.Proxy
import Mathlib.Algebra.Order.Field.Rat
import Mathlib.Tactic.NormNum
import Mathlib.Tactic.Positivity

/-!
# Gateway: events

`POST /v1/events`: the node brings the event into its normal form (`internal/events`) and stores it
as the value of the key `event:<id>` (`events_handlers.go`). So it changes a key, like a PUT, and
that key can be read through the gateway, and be in its cache. But `handleWrite` deletes from the
cache what its own path names, and `/v1/events` names no key: the body that was cached before the
post stays, whatever the urgency of the new event (`critical_event_served_stale`).

Requests are served one after the other here. Then the cache is right as long as every body in it is
the value that the node has (`Coherent`), and only a post can break this. The path of a key is
parsed a second time on its way to the node; which key is found there is `address`, and what is said
here about keys is said about those that are found again.
-/

namespace BoilerPulse
namespace Gateway

open Framework Storage

/-! ### The event model (`event.go`) -/

/-- `Type`; a text that is none of the nine is kept. -/
inductive EventType where
  | academic
  | athletics
  | studentOrg
  | campusEvent
  | dining
  | transportation
  | weather
  | emergency
  | system
  | unknown (name : String)
  deriving DecidableEq

def EventType.valid : EventType → Bool
  | .unknown _ => false
  | _ => true

/-- `Urgency`, with the empty text as `unset`. -/
inductive Urgency where
  | unset
  | normal
  | high
  | critical
  | scheduledSpike
  | other (name : String)
  deriving DecidableEq

structure Location where
  name : Bytes
  latitude : ℚ
  longitude : ℚ
  deriving DecidableEq

/-- `Event`. An instant that is the zero value is `none`; a `float64` is a rational. -/
structure Event where
  id : Bytes
  type : EventType
  title : Bytes
  description : Bytes
  location : Location
  startTime : Option ℤ
  endTime : Option ℤ
  expectedAttendance : ℤ
  expectedTrafficMultiplier : ℚ
  urgency : Urgency
  audience : List Bytes
  source : Bytes
  createdAt : Option ℤ
  confidence : ℚ
  deriving DecidableEq

/-! ### The normal form (`normalize.go`) -/

inductive InvalidEvent where
  | titleRequired
  | unknownType (name : String)
  | startTimeRequired
  | endBeforeStart
  | negativeAttendance
  deriving DecidableEq

namespace Event

variable (e : Event)

/-- `EndTime` is given and before `StartTime`. -/
def endsBeforeStart : Bool :=
  match e.startTime, e.endTime with
  | some start, some finish => finish < start
  | _, _ => false

/-- `none` if there is nothing to complain about. -/
def validate : Option InvalidEvent :=
  if e.title = [] then some .titleRequired
  else
    match e.type with
    | .unknown name => some (.unknownType name)
    | _ =>
      if e.startTime = none then some .startTimeRequired
      else if e.endsBeforeStart then some .endBeforeStart
      else if e.expectedAttendance < 0 then some .negativeAttendance
      else none

/-- The urgency that `classify` assigns. -/
def classifiedUrgency : Urgency :=
  match e.type with
  | .emergency | .weather => .critical
  | .athletics => if 5000 ≤ e.expectedAttendance then .high else .normal
  | .campusEvent => if 2000 ≤ e.expectedAttendance then .high else .normal
  | _ => .normal

def classify : Event :=
  if e.urgency ≠ .unset then e else { e with urgency := e.classifiedUrgency }

def estimateTraffic : Event :=
  if 0 < e.expectedTrafficMultiplier then e
  else if e.urgency = .critical then { e with expectedTrafficMultiplier := 20 }
  else if 0 < e.expectedAttendance then
    { e with expectedTrafficMultiplier := min (1 + (e.expectedAttendance : ℚ) / 1000) 15 }
  else { e with expectedTrafficMultiplier := 1 }

/-- `SIMULATOR`. -/
def simulator : Bytes := [83, 73, 77, 85, 76, 65, 84, 79, 82]

def confidenceFor : ℚ :=
  if e.source = simulator then 1 else 7 / 10

/-- What `Normalize` makes of a valid event, with what `generateID` and the clock return. -/
def normalForm (generated : Bytes) (now : ℤ) : Event :=
  let e := { e with
    id := if e.id = [] then generated else e.id
    createdAt := if e.createdAt = none then some now else e.createdAt }
  let e := e.classify.estimateTraffic
  { e with confidence := e.confidenceFor }

/-- `Normalize`. -/
def normalize (generated : Bytes) (now : ℤ) (raw : Event) : Except InvalidEvent Event :=
  match raw.validate with
  | some err => .error err
  | none => .ok (raw.normalForm generated now)

theorem classify_urgency_ne_unset : e.classify.urgency ≠ .unset := by
  unfold classify
  split
  · next h => exact h
  · change e.classifiedUrgency ≠ .unset
    unfold classifiedUrgency
    split <;> (try split) <;> simp

theorem estimateTraffic_pos : 0 < e.estimateTraffic.expectedTrafficMultiplier := by
  unfold estimateTraffic
  split
  · next h => exact h
  · split
    · change (0 : ℚ) < 20
      norm_num
    · split
      · next h =>
        have h : (0 : ℚ) < e.expectedAttendance := by exact_mod_cast h
        change 0 < min (1 + (e.expectedAttendance : ℚ) / 1000) 15
        refine lt_min ?_ (by norm_num)
        positivity
      · exact one_pos

theorem classify_of_ne_unset {e : Event} (h : e.urgency ≠ .unset) : e.classify = e :=
  if_pos h

theorem estimateTraffic_of_pos {e : Event} (h : 0 < e.expectedTrafficMultiplier) :
    e.estimateTraffic = e :=
  if_pos h

/-- Estimating the traffic changes nothing else. -/
theorem estimateTraffic_eq (e : Event) : e.estimateTraffic =
    { e with expectedTrafficMultiplier := e.estimateTraffic.expectedTrafficMultiplier } := by
  unfold estimateTraffic
  split
  · rfl
  · split
    · rfl
    · split <;> rfl

/-- Classifying changes nothing but the urgency. -/
theorem classify_eq (e : Event) : e.classify = { e with urgency := e.classify.urgency } := by
  unfold classify
  split <;> rfl

/-- **What `Normalize` returns is in normal form**: an event that is posted again as it came back
from the first post is stored under the same id, as it was. -/
theorem normalForm_normalForm (e : Event) {g g' : Bytes} (hg : g ≠ []) (now now' : ℤ) :
    (e.normalForm g now).normalForm g' now' = e.normalForm g now := by
  -- the first pass fills in everything that the second one looks for
  have hid : (e.normalForm g now).id ≠ [] := by
    unfold normalForm
    dsimp only
    rw [estimateTraffic_eq, classify_eq]
    dsimp only
    split
    · exact hg
    · next hne => exact hne
  have hcreated : (e.normalForm g now).createdAt ≠ none := by
    unfold normalForm
    dsimp only
    rw [estimateTraffic_eq, classify_eq]
    dsimp only
    split
    · simp
    · next hne => exact hne
  have hurgency : (e.normalForm g now).urgency ≠ .unset := by
    unfold normalForm
    dsimp only
    rw [estimateTraffic_eq]
    exact classify_urgency_ne_unset _
  have htraffic : 0 < (e.normalForm g now).expectedTrafficMultiplier := by
    unfold normalForm
    exact estimateTraffic_pos _
  have hconf : (e.normalForm g now).confidence = (e.normalForm g now).confidenceFor := rfl
  generalize e.normalForm g now = e' at hid hcreated hurgency htraffic hconf ⊢
  unfold normalForm
  dsimp only
  rw [if_neg hid, if_neg hcreated, classify_of_ne_unset hurgency, estimateTraffic_of_pos htraffic,
    ← hconf]

/-- What is filled in is not what `validate` looks at. -/
theorem validate_normalForm (e : Event) (g : Bytes) (now : ℤ) :
    (e.normalForm g now).validate = e.validate := by
  unfold normalForm
  dsimp only
  rw [estimateTraffic_eq, classify_eq]
  rfl

/-- **Normalizing twice is normalizing once**, with another clock and another random id. -/
theorem normalize_normalize {raw e : Event} {g : Bytes} {now : ℤ} (hg : g ≠ [])
    (h : raw.normalize g now = .ok e) (g' : Bytes) (now' : ℤ) : e.normalize g' now' = .ok e := by
  unfold normalize at h
  split at h
  · cases h
  · next hvalid =>
    obtain rfl := Except.ok.inj h
    unfold normalize
    rw [validate_normalForm, hvalid]
    dsimp only
    rw [normalForm_normalForm raw hg]

/-- A warning of a storm that says nothing of its urgency. -/
def storm : Event :=
  ⟨[], .weather, [83], [], ⟨[], 0, 0⟩, some 5, none, 0, 0, .unset, [], [], none, 0⟩

theorem normalize_normalize_storm :
    ∃ e, storm.normalize [101] 7 = .ok e ∧ e.urgency = .critical ∧ e.normalize [102] 9 = .ok e := by
  have h : storm.normalize [101] 7 = .ok (storm.normalForm [101] 7) := rfl
  exact ⟨_, h, rfl, normalize_normalize (List.cons_ne_nil 101 []) h _ _⟩

end Event

/-! ### The handler (`events_handlers.go`) -/

/-- `event:`. -/
def eventKeyPrefix : Bytes := [101, 118, 101, 110, 116, 58]

def eventKey (id : Bytes) : Key :=
  eventKeyPrefix ++ id

def consistencyForUrgency : Urgency → Bytes
  | .critical => consistencyCritical
  | .high | .scheduledSpike => consistencyStrong
  | _ => consistencyEventual

/-- The answer to a POST: a status, and the event as it is stored or the text of an error. -/
inductive PostError where
  | invalidJson
  | invalidEvent (err : InvalidEvent)
  | encodeFailed

structure PostResponse where
  status : ℕ
  body : Except PostError Event

section Handlers

-- `json.Marshal` of an event, and the key that the node reads off the path of a key: `none` if the
-- request does not get to a handler
variable (marshal : Event → Option Bytes) (address : Key → Option Key)

/-- The key that an event is stored under, and its value. -/
def Event.stored (e : Event) : Option (Key × GetResponse) :=
  (marshal e).map fun value => (eventKey e.id, ⟨value, consistencyForUrgency e.urgency⟩)

/-- What a post writes, if anything. -/
def posted (body : Json Event) (generated : Bytes) (now : ℤ) : Option (Key × GetResponse) :=
  body.bind fun raw => (raw.normalize generated now).toOption.bind fun e => e.stored marshal

namespace Node

def handlePostEvent (n : Node) (generated : Bytes) (now : ℤ) : Json Event → Node × PostResponse
  | none => (n, ⟨400, .error .invalidJson⟩)
  | some raw =>
    match raw.normalize generated now with
    | .error err => (n, ⟨400, .error (.invalidEvent err)⟩)
    | .ok e =>
      match e.stored marshal with
      | none => (n, ⟨500, .error .encodeFailed⟩)
      | some (key, value) => (n.add key (some value), ⟨201, .ok e⟩)

end Node

/-! ### The gateway, one request at a time (`proxy.go`) -/

/-- `/v1/events`. -/
def eventsPath : Bytes := [47, 118, 49, 47, 101, 118, 101, 110, 116, 115]

namespace Proxy

/-- What the node answers to a GET. -/
def proxyGet (p : Proxy) (key : Key) : Response :=
  match address key with
  | none => ⟨503, ⟨none, 0⟩⟩
  | some k => p.node.handleGet k

/-- `handleRead` of a key, with whether it was a hit. -/
def handleRead (p : Proxy) (key : Key) : Proxy × Response × Bool :=
  match p.lookup (kvPath key) with
  | (cache, some body) => ({ p with cache := cache }, ⟨200, body⟩, true)
  | (cache, none) =>
    let p := { p with cache := cache }
    let resp := p.proxyGet address key
    ({ p with cache := p.store (kvPath key) resp }, resp, false)

/-- The end of `handleWrite`, when the node has answered. -/
def finishWrite (p : Proxy) (path : Bytes) (node : Node) : Proxy :=
  { p with node := node, cache := p.invalidate path }

/-- `handleWrite` of a PUT or a DELETE. -/
def handleChange (p : Proxy) (key : Key) (c : Change) : Proxy × ℕ :=
  match address key with
  | none => (p, 503)
  | some k => (p.finishWrite (kvPath key) (p.node.handle k c).1, (p.node.handle k c).2)

/-- `handleWrite` of a post. -/
def handlePost (p : Proxy) (body : Json Event) (generated : Bytes) (now : ℤ) :
    Proxy × PostResponse :=
  (p.finishWrite eventsPath (p.node.handlePostEvent marshal generated now body).1,
    (p.node.handlePostEvent marshal generated now body).2)

end Proxy

inductive Request where
  | get (key : Key)
  | change (key : Key) (c : Change)
  /-- A post, with the id to be generated and the time. -/
  | post (body : Json Event) (generated : Bytes) (now : ℤ)

/-- A GET that was answered, with what the node would have answered at that moment. -/
structure Answer where
  key : Key
  response : Response
  hit : Bool
  expected : Response
  deriving DecidableEq

/-- The gateway, and the answers that it has given to GETs. -/
structure Session where
  proxy : Proxy
  answers : List Answer

namespace Session

def new (capacity : ℤ) (node : Node) : Session :=
  ⟨.new capacity node, []⟩

/-- The next request is served, from start to end. -/
def step (s : Session) : Request → Option Session
  | .get key =>
    let (p, resp, hit) := s.proxy.handleRead address key
    some ⟨p, s.answers ++ [⟨key, resp, hit, s.proxy.node.handleGet key⟩]⟩
  | .change key c => some { s with proxy := (s.proxy.handleChange address key c).1 }
  | .post body generated now =>
    some { s with proxy := (s.proxy.handlePost marshal body generated now).1 }

/-- **The condition**: keys are found again at the node, and a post finds no body in the cache for
the key that it writes, unless it is the new one. -/
def Clear (s : Session) : Request → Prop
  | .get key => address key = some key
  | .change key _ => address key = some key
  | .post body generated now =>
      ∀ x ∈ posted marshal body generated now, ∀ b ∈ s.proxy.cache.peek (kvPath x.1),
        b.content = some x.2

end Session

end Handlers

/-! ### Coherence -/

/-- **Every body in the cache is the value that the node has.** -/
structure Coherent (p : Proxy) : Prop where
  keyed : p.cache.Keyed
  current : ∀ key b, p.cache.peek (kvPath key) = some b →
    ∃ e, b.content = some e ∧ p.node.current key = some e

/-- The answer shows what the node has: the same status and the same content. -/
def Answer.Right (a : Answer) : Prop :=
  a.response.status = a.expected.status ∧ a.response.body.content = a.expected.body.content

namespace Node

theorem current_add (n : Node) (key : Key) (x : Option GetResponse) (k : Key) :
    (n.add key x).current k = if k = key then x else n.current k := by
  unfold current add
  by_cases hk : k = key
  · subst hk
    rw [Function.update_self, if_pos rfl, List.getLast?_append, List.getLast?_singleton]
    cases x <;> rfl
  · rw [Function.update_of_ne hk, if_neg hk]

theorem handleGet_of_some {n : Node} {key : Key} {e : GetResponse} (h : n.current key = some e) :
    (n.handleGet key).status = 200 ∧ (n.handleGet key).body.content = some e := by
  unfold handleGet
  rw [h]
  exact ⟨rfl, rfl⟩

/-- What can be stored in the cache is the value of the key. -/
theorem current_of_stores {n : Node} {key : Key} {path : Bytes}
    (h : stores path (n.handleGet key) = true) :
    ∃ e, (n.handleGet key).body.content = some e ∧ n.current key = some e := by
  unfold stores at h
  rw [Bool.and_eq_true, Bool.and_eq_true] at h
  have hstatus := h.1.2
  cases hcur : n.current key with
  | none =>
    unfold handleGet at hstatus
    rw [hcur] at hstatus
    cases hstatus
  | some e => exact ⟨e, (handleGet_of_some hcur).2, rfl⟩

/-- A post adds what it writes, and does nothing else. -/
theorem handlePostEvent_fst (marshal : Event → Option Bytes) (n : Node) (generated : Bytes)
    (now : ℤ) (body : Json Event) :
    (n.handlePostEvent marshal generated now body).1 = match posted marshal body generated now with
      | none => n
      | some x => n.add x.1 (some x.2) := by
  cases body with
  | none => rfl
  | some raw =>
    unfold handlePostEvent posted
    dsimp only [Option.bind_some]
    cases raw.normalize generated now with
    | error err => rfl
    | ok e =>
      dsimp only [Except.toOption, Option.bind_some]
      cases e.stored marshal <;> rfl

end Node

namespace Coherent

variable {p : Proxy}

theorem new (capacity : ℤ) (node : Node) : Coherent (Proxy.new capacity node) where
  keyed := LRU.keyed_new capacity
  current key b hb := by
    change (LRU.new capacity : LRU Bytes Body).peek (kvPath key) = some b at hb
    rw [LRU.peek_new] at hb
    cases hb

theorem lookup_eq (p : Proxy) (key : Key) :
    p.lookup (kvPath key) = ((p.cache.get (kvPath key)).1, p.cache.peek (kvPath key)) := by
  rw [Proxy.lookup, if_pos (cacheable_kvPath key), ← LRU.get_snd]

/-- **A GET** is answered as the node would answer it. -/
theorem handleRead (h : Coherent p) {address : Key → Option Key} {key : Key}
    (hkey : address key = some key) :
    Coherent (p.handleRead address key).1 ∧ (p.handleRead address key).1.node = p.node ∧
      (p.handleRead address key).2.1.status = (p.node.handleGet key).status ∧
      (p.handleRead address key).2.1.body.content = (p.node.handleGet key).body.content := by
  -- looking something up changes nothing that counts
  have hget : Coherent { p with cache := (p.cache.get (kvPath key)).1 } :=
    ⟨h.keyed.get _, fun k b hb => h.current k b (by rw [LRU.peek_get] at hb; exact hb)⟩
  unfold Proxy.handleRead
  rw [lookup_eq]
  cases hpeek : p.cache.peek (kvPath key) with
  | some body =>
    obtain ⟨e, hcontent, hcur⟩ := h.current key body hpeek
    obtain ⟨hstatus, hbody⟩ := Node.handleGet_of_some hcur
    exact ⟨hget, rfl, hstatus.symm, hcontent.trans hbody.symm⟩
  | none =>
    have hproxy : Proxy.proxyGet address { p with cache := (p.cache.get (kvPath key)).1 } key =
        p.node.handleGet key := by
      rw [Proxy.proxyGet, hkey]
    dsimp only
    rw [hproxy]
    refine ⟨?_, rfl, rfl, rfl⟩
    unfold Proxy.store
    split
    · next hstores =>
      refine ⟨hget.keyed.set _ _, fun k b hb => ?_⟩
      rcases LRU.peek_of_set hget.keyed hb with ⟨hk, rfl⟩ | hb
      · obtain rfl := kvPath_injective hk
        exact Node.current_of_stores hstores
      · exact hget.current k b hb
    · exact hget

/-- **A PUT or a DELETE** deletes the key it changes from the cache. -/
theorem handleChange (h : Coherent p) {address : Key → Option Key} {key : Key}
    (hkey : address key = some key) (c : Change) : Coherent (p.handleChange address key c).1 := by
  unfold Proxy.handleChange
  rw [hkey]
  have hcache : p.invalidate (kvPath key) = p.cache.delete (kvPath key) :=
    if_pos (cacheable_kvPath key)
  refine ⟨?_, fun k b hb => ?_⟩
  · change (p.invalidate (kvPath key)).Keyed
    rw [hcache]
    exact h.keyed.delete _
  · change (p.invalidate (kvPath key)).peek (kvPath k) = some b at hb
    rw [hcache, LRU.peek_delete] at hb
    split at hb
    · cases hb
    · next hne =>
      obtain ⟨e, hcontent, hcur⟩ := h.current k b hb
      refine ⟨e, hcontent, ?_⟩
      change (p.node.handle key c).1.current k = some e
      have hk : k ≠ key := fun heq => hne (by rw [heq])
      rcases Node.handle_cases p.node key c with ⟨heq, -⟩ | ⟨x, heq, -⟩
      · rw [heq]; exact hcur
      · rw [heq, Node.current_add, if_neg hk]
        exact hcur

/-- **A post** deletes nothing, so it must not find an older body of its key. -/
theorem handlePost (h : Coherent p) {marshal : Event → Option Bytes} {body : Json Event}
    {generated : Bytes} {now : ℤ}
    (hclear : ∀ x ∈ posted marshal body generated now, ∀ b ∈ p.cache.peek (kvPath x.1),
      b.content = some x.2) :
    Coherent (p.handlePost marshal body generated now).1 := by
  -- the path of events has no key in it
  have hcache : p.invalidate eventsPath = p.cache := if_neg (by decide)
  refine ⟨?_, fun k b hb => ?_⟩
  · change (p.invalidate eventsPath).Keyed
    rw [hcache]
    exact h.keyed
  · change (p.invalidate eventsPath).peek (kvPath k) = some b at hb
    rw [hcache] at hb
    change ∃ e, b.content = some e ∧
      (p.node.handlePostEvent marshal generated now body).1.current k = some e
    obtain ⟨e, hcontent, hcur⟩ := h.current k b hb
    rw [Node.handlePostEvent_fst]
    cases hx : posted marshal body generated now with
    | none => exact ⟨e, hcontent, hcur⟩
    | some x =>
      dsimp only
      rw [Node.current_add]
      by_cases hk : k = x.1
      · rw [if_pos hk]
        subst hk
        exact ⟨x.2, hclear x hx b hb, rfl⟩
      · rw [if_neg hk]
        exact ⟨e, hcontent, hcur⟩

end Coherent

/-- The invariant of the runs. -/
structure Session.Sound (s : Session) : Prop where
  coherent : Coherent s.proxy
  right : ∀ a ∈ s.answers, a.Right

/-- **Every request** leaves the cache coherent, and is answered with what the node has. -/
theorem Session.Sound.step {marshal : Event → Option Bytes} {address : Key → Option Key}
    {s s' : Session} (h : s.Sound) {r : Request} (hok : s.Clear marshal address r)
    (hs : s.step marshal address r = some s') : s'.Sound := by
  cases r with
  | get key =>
    cases hs
    obtain ⟨hcoh, -, hstatus, hcontent⟩ := h.coherent.handleRead hok
    exact ⟨hcoh, List.forall_mem_append.mpr
      ⟨h.right, List.forall_mem_singleton.mpr ⟨hstatus, hcontent⟩⟩⟩
  | change key c =>
    cases hs
    exact ⟨h.coherent.handleChange hok c, h.right⟩
  | post body generated now =>
    cases hs
    exact ⟨h.coherent.handlePost hok, h.right⟩

/-- **Every GET returns what the node has**, in every sequence of requests in which keys are found
again at the node and no post finds an older body of its event in the cache. -/
theorem gets_current (marshal : Event → Option Bytes) (address : Key → Option Key) (capacity : ℤ)
    (node : Node) (s : Session)
    (h : Runs (Session.step marshal address) (Session.Clear marshal address)
      (Session.new capacity node) s) :
    ∀ a ∈ s.answers, a.response.status = a.expected.status ∧
      a.response.body.content = a.expected.body.content := by
  have hinv : s.Sound :=
    h.invariant (fun _ _ _ hI hok hs => hI.step hok hs) ⟨.new capacity node, nofun⟩
  exact hinv.right

/-- An event at a place on campus; its urgency is to be classified. -/
def campusEvent (type : EventType) : Event where
  id := [49]
  type := type
  title := [69]
  description := []
  location := ⟨[], 0, 0⟩
  startTime := some 0
  endTime := none
  expectedAttendance := 0
  expectedTrafficMultiplier := 0
  urgency := .unset
  audience := []
  source := Event.simulator
  createdAt := none
  confidence := 0

/-- An event is posted, and read; it is posted again, as an emergency, and read again. -/
def repost : List Request :=
  [.post (some (campusEvent .dining)) [] 0, .get (eventKey [49]),
    .post (some (campusEvent .emergency)) [] 1, .get (eventKey [49])]

/-- A reading of the session: whether each GET was a hit, with the consistency of the body and of
what the node had. -/
def Session.consistencies (s : Session) : List (Bool × Option Bytes × Option Bytes) :=
  s.answers.map fun a => (a.hit, a.response.body.content.map GetResponse.consistency,
    a.expected.body.content.map GetResponse.consistency)

instance Session.Clear.decidable (marshal : Event → Option Bytes) (address : Key → Option Key)
    (s : Session) : (r : Request) → Decidable (s.Clear marshal address r)
  | .get key => inferInstanceAs (Decidable (address key = some key))
  | .change key _ => inferInstanceAs (Decidable (address key = some key))
  | .post body generated now => inferInstanceAs (Decidable
      (∀ x ∈ posted marshal body generated now, ∀ b ∈ s.proxy.cache.peek (kvPath x.1),
        b.content = some x.2))

/-- The event is deleted before it is posted again, so its body is not in the cache. -/
theorem gets_current_after_delete : ∃ s : Session,
      Runs (Session.step (fun e => some e.title) some) (Session.Clear (fun e => some e.title) some)
        (Session.new 2 fun _ => []) s ∧
      s.consistencies = [(false, some consistencyEventual, some consistencyEventual),
        (false, some consistencyCritical, some consistencyCritical)] ∧
      ∀ a ∈ s.answers, a.response.status = a.expected.status ∧
        a.response.body.content = a.expected.body.content := by
  have hrun : (exec (guarded (Session.step (fun e => some e.title) some)
      (Session.Clear (fun e => some e.title) some)) (Session.new 2 fun _ => [])
      (repost.insertIdx 2 (.change (eventKey [49]) .delete))).map Session.consistencies =
      some [(false, some consistencyEventual, some consistencyEventual),
        (false, some consistencyCritical, some consistencyCritical)] := by
    decide +kernel
  obtain ⟨s, hs, hobs⟩ := Runs.of_exec_guarded_map hrun
  exact ⟨s, hs, hobs, gets_current _ _ 2 _ s hs⟩

/-- **A `CRITICAL` event is served stale**: the second GET is a hit on the body from before the
second post, with the consistency that the event had then. -/
theorem critical_event_served_stale : ∃ s : Session,
      Reaches (Session.step (fun e => some e.title) some) (Session.new 2 fun _ => []) s ∧
      s.consistencies = [(false, some consistencyEventual, some consistencyEventual),
        (true, some consistencyEventual, some consistencyCritical)] := by
  have hrun : (exec (Session.step (fun e => some e.title) some) (Session.new 2 fun _ => [])
      repost).map Session.consistencies =
      some [(false, some consistencyEventual, some consistencyEventual),
        (true, some consistencyEventual, some consistencyCritical)] := by
    decide +kernel
  exact Reaches.of_exec_map hrun

end Gateway
end BoilerPulse
