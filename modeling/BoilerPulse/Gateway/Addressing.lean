import BoilerPulse.Framework.Percent
import BoilerPulse.Gateway.Proxy

/-!
# Gateway: the key that a request names

A key is any byte string, and a client writes it percent-encoded into the path of its request. The
gateway's server decodes the path (`r.URL.Path`), and `proxyRequest` puts the decoded path
into the URL of the request it makes (`proxy.go`). That URL is parsed again: it is cut at `#` and at
`?`, the path is decoded once more, and the node's router (`server.go`) takes the last segment.

`forwardedKey` is the key that the node finds. It is the key the client named for
exactly those keys in which nothing has a meaning in a URL (`PlainKey`), which is
`same_key_iff`; for all others it is another key or none (`other_key_addressed`).
-/

namespace BoilerPulse
namespace Gateway

variable {key : Key} {path s p : Bytes} {u : URL} {b c : UInt8}

open Framework Storage Percent

/-! ### URLs (`net/url`) -/

/-- `#`. -/
def hash : UInt8 := 0x23

/-- `?`. -/
def question : UInt8 := 0x3F

/-- `/`. -/
def slash : UInt8 := 0x2F

/-- `.`. -/
def dot : UInt8 := 0x2E

/-- The part before the first `c`; everything if there is none. -/
def before (c : UInt8) (s : Bytes) : Bytes :=
  s.takeWhile (· ≠ c)

/-- The part after the first `c`; nothing if there is none. -/
def after (c : UInt8) (s : Bytes) : Bytes :=
  (s.dropWhile (· ≠ c)).tail

def isControl (b : UInt8) : Bool :=
  b < 0x20 || b = 0x7F

/-- A URL from its path on: the path as it is written and decoded, and the query. -/
structure URL where
  path : Bytes
  rawPath : Bytes
  rawQuery : Bytes
  deriving DecidableEq, Repr

/-- `ParseRequestURI`, by which a server reads the target of a request. -/
def parseRequestURI (s : Bytes) : Option URL :=
  if s.any isControl then none
  else (unescape (before question s)).map fun path => ⟨path, before question s, after question s⟩

/-- `Parse`, by which a client reads the URL it is given: the fragment goes first, and has to be
well-formed. -/
def parseURL (s : Bytes) : Option URL :=
  if (unescape (after hash s)).isNone then none else parseRequestURI (before hash s)

/-- The bytes that are not escaped in a path: letters, digits, and `-_.~$&+,/:;=@`. -/
def keepInPath (b : UInt8) : Bool :=
  (0x30 ≤ b && b ≤ 0x39) || (0x41 ≤ b && b ≤ 0x5A) || (0x61 ≤ b && b ≤ 0x7A) ||
    b ∈ [0x2D, 0x5F, 0x2E, 0x7E, 0x24, 0x26, 0x2B, 0x2C, 0x2F, 0x3A, 0x3B, 0x3D, 0x40]

/-- The bytes that may stand in an escaped path, those in `!'()*[]%` among them. -/
def validEncoded (b : UInt8) : Bool :=
  keepInPath b || b ∈ [0x21, 0x27, 0x28, 0x29, 0x2A, 0x5B, 0x5D, 0x25]

/-- `EscapedPath`: the path as it was written, if it can be sent like this. -/
def URL.escapedPath (u : URL) : Bytes :=
  if u.rawPath.all validEncoded then u.rawPath else escape keepInPath u.path

/-- A path with a query. -/
def withQuery (path rawQuery : Bytes) : Bytes :=
  path ++ if rawQuery = [] then [] else question :: rawQuery

/-- `RequestURI`, which a client sends. -/
def URL.requestURI (u : URL) : Bytes :=
  withQuery u.escapedPath u.rawQuery

/-! ### The route `/v1/kv/{key}` -/

/-- `PathValue("key")`. The wildcard stands for one segment, and a path with a `.` or `..` in it is
not served but redirected. -/
def URL.pathValue (u : URL) : Option Key :=
  let segment := u.escapedPath.drop kvKeyPrefix.length
  if kvKeyPrefix.isPrefixOf u.escapedPath ∧ segment ≠ [] ∧ slash ∉ segment ∧ segment ≠ [dot] ∧
      segment ≠ [dot, dot] then
    unescape segment
  else none

/-- The key that the node finds in the request that `proxyRequest` makes for a path and a query. -/
def forwardedKey (path rawQuery : Bytes) : Option Key :=
  match parseURL (withQuery path rawQuery) with
  -- the request is not made
  | none => none
  | some u =>
    match parseRequestURI u.requestURI with
    | none => none
    | some v => v.pathValue

/-- No byte of the key has a meaning in a URL, and it is not the name of a directory. -/
def PlainKey (key : Key) : Prop :=
  (∀ b ∈ key, b ≠ percent ∧ b ≠ question ∧ b ≠ hash ∧ b ≠ slash ∧ isControl b = false) ∧
    key ≠ [dot] ∧ key ≠ [dot, dot]

instance (key : Key) : Decidable (PlainKey key) :=
  have : Decidable (∀ b ∈ key, b ≠ percent ∧ b ≠ question ∧ b ≠ hash ∧ b ≠ slash ∧
    isControl b = false) := List.decidableBAll _ key
  inferInstanceAs (Decidable (_ ∧ _))

/-! ### Escaped paths -/

theorem keepInPath_percent : keepInPath percent = false := by decide

/-- The bytes of the route. -/
theorem validEncoded_of_mem_route (hb : b ∈ kvKeyPrefix) :
    validEncoded b = true ∧ b ≠ percent := by
  have hall : kvKeyPrefix.all (fun b => validEncoded b && b != percent) = true := by decide
  simpa using List.all_eq_true.mp hall b hb

theorem not_control_of_validEncoded (h : validEncoded b = true) :
    isControl b = false ∧ b ≠ question := by
  have hlow : ∀ n < 32, validEncoded (UInt8.ofNat n) = false := by decide
  have hne : ∀ c, validEncoded c = false → b ≠ c := by
    rintro c hc rfl
    exact absurd h (by simp [hc])
  refine ⟨?_, hne question (by decide)⟩
  have hlt : ¬ b < 0x20 := by
    intro hlt
    have := hlow b.toNat (UInt8.lt_iff_toNat_lt.mp hlt)
    rw [UInt8.ofNat_toNat] at this
    exact absurd h (by simp [this])
  simp [isControl, hlt, hne 0x7F (by decide)]

theorem validEncoded_escape (s : Bytes) : (escape keepInPath s).all validEncoded = true := by
  have hdigit : ∀ d < 16, validEncoded (Decimal.upperHexDigit d) = true := by decide
  rw [List.all_eq_true]
  intro b hb
  rcases mem_escape hb with ⟨-, hkeep⟩ | rfl | ⟨d, hd, rfl⟩
  · rw [validEncoded, hkeep, Bool.true_or]
  · decide
  · exact hdigit d hd

namespace URL

variable {u : URL}

theorem validEncoded_escapedPath : u.escapedPath.all validEncoded = true := by
  rw [escapedPath]
  split
  · next h => exact h
  · exact validEncoded_escape u.path

theorem unescape_escapedPath (h : unescape u.rawPath = some u.path) :
    unescape u.escapedPath = some u.path := by
  rw [escapedPath]
  split
  · exact h
  · exact unescape_escape keepInPath_percent u.path

end URL

/-! ### Cutting -/

theorem before_append (hp : c ∉ p) (s : Bytes) :
    before c (p ++ s) = p ++ before c s :=
  List.takeWhile_append_of_pos fun _ hb => decide_eq_true (ne_of_mem_of_not_mem hb hp)

theorem after_append (hp : c ∉ p) (s : Bytes) :
    after c (p ++ s) = after c s := by
  rw [after, List.dropWhile_append_of_pos fun _ hb => decide_eq_true (ne_of_mem_of_not_mem hb hp)]
  rfl

theorem before_cons (c : UInt8) (s : Bytes) : before c (c :: s) = [] := by
  simp [before]

theorem after_cons (c : UInt8) (s : Bytes) : after c (c :: s) = s := by
  simp [after]

theorem before_isPrefix (c : UInt8) (s : Bytes) : before c s <+: s :=
  List.takeWhile_prefix _

/-- A cut within the first part leaves less than that. -/
theorem length_before_lt (hp : c ∈ p) (s : Bytes) :
    (before c (p ++ s)).length < p.length := by
  induction p with
  | nil => cases hp
  | cons b p ih =>
    by_cases hb : b = c
    · subst hb
      rw [List.cons_append, before_cons]
      simp
    · have hmem : c ∈ p := (List.mem_cons.mp hp).resolve_left (Ne.symm hb)
      rw [List.cons_append, before, List.takeWhile_cons_of_pos (by simpa using hb)]
      exact Nat.succ_lt_succ (ih hmem)

theorem before_withQuery (hp : question ∉ path) (query : Bytes) :
    before question (withQuery path query) = path := by
  rw [withQuery, before_append hp]
  split
  · simp [before]
  · rw [before_cons, List.append_nil]

theorem after_withQuery (hp : question ∉ path) (query : Bytes) :
    after question (withQuery path query) = query := by
  rw [withQuery, after_append hp]
  split
  · next h => rw [h]; rfl
  · rw [after_cons]

/-! ### What the node makes of the request -/

theorem parseRequestURI_eq_some :
    parseRequestURI s = some u ↔ (∀ b ∈ s, isControl b = false) ∧
      unescape u.rawPath = some u.path ∧ u.rawPath = before question s ∧
      u.rawQuery = after question s := by
  unfold parseRequestURI
  split
  · next h =>
    obtain ⟨b, hb, hc⟩ := List.any_eq_true.mp h
    simp only [false_iff, reduceCtorEq]
    rintro ⟨hall, -⟩
    exact absurd hc (by simp [hall b hb])
  · next h =>
    have hall : ∀ b ∈ s, isControl b = false := by simpa using h
    rw [Option.map_eq_some_iff]
    constructor
    · rintro ⟨path, hpath, rfl⟩
      exact ⟨hall, hpath, rfl, rfl⟩
    · rintro ⟨-, hpath, hraw, hquery⟩
      exact ⟨u.path, by rw [← hraw, hpath], by rw [← hraw, ← hquery]⟩

theorem parseURL_eq_some : parseURL s = some u ↔
      (unescape (after hash s)).isSome = true ∧ parseRequestURI (before hash s) = some u := by
  unfold parseURL
  cases unescape (after hash s) <;> simp

/-- The node parses what the client has parsed: the path that is sent can be read back, and nothing
of the query is lost. -/
theorem parseRequestURI_requestURI (h : parseRequestURI s = some u) :
    parseRequestURI u.requestURI = some ⟨u.path, u.escapedPath, u.rawQuery⟩ := by
  obtain ⟨hcontrol, hpath, -, hquery⟩ := parseRequestURI_eq_some.mp h
  have hvalid : ∀ b ∈ u.escapedPath, isControl b = false ∧ b ≠ question := fun b hb =>
    not_control_of_validEncoded (List.all_eq_true.mp URL.validEncoded_escapedPath b hb)
  have hquestion : question ∉ u.escapedPath := fun hmem => (hvalid _ hmem).2 rfl
  refine parseRequestURI_eq_some.mpr ⟨?_, URL.unescape_escapedPath hpath,
    (before_withQuery hquestion _).symm, (after_withQuery hquestion _).symm⟩
  intro b hb
  rcases List.mem_append.mp hb with hb | hb
  · exact (hvalid b hb).1
  · split at hb
    · cases hb
    · rcases List.mem_cons.mp hb with rfl | hb
      · decide
      · refine hcontrol b ?_
        rw [hquery] at hb
        exact (List.dropWhile_suffix _).subset (List.mem_of_mem_tail hb)

theorem URL.pathValue_escaped (u : URL) (query : Bytes) :
    URL.pathValue ⟨u.path, u.escapedPath, query⟩ = u.pathValue := by
  have hsame : URL.escapedPath ⟨u.path, u.escapedPath, query⟩ = u.escapedPath :=
    if_pos URL.validEncoded_escapedPath
  rw [URL.pathValue, URL.pathValue, hsame]

theorem forwardedKey_eq (path rawQuery : Bytes) :
    forwardedKey path rawQuery = (parseURL (withQuery path rawQuery)).bind URL.pathValue := by
  unfold forwardedKey
  cases h : parseURL (withQuery path rawQuery) with
  | none => rfl
  | some u =>
    show (match parseRequestURI u.requestURI with | none => none | some v => v.pathValue) = _
    rw [parseRequestURI_requestURI (parseURL_eq_some.mp h).2]
    exact u.pathValue_escaped u.rawQuery

/-- The route is taken by one segment. -/
theorem URL.pathValue_eq_some :
    u.pathValue = some key ↔ ∃ segment, u.escapedPath = kvKeyPrefix ++ segment ∧ segment ≠ [] ∧
      slash ∉ segment ∧ segment ≠ [dot] ∧ segment ≠ [dot, dot] ∧ unescape segment = some key := by
  unfold pathValue
  simp only [List.isPrefixOf_iff_prefix]
  constructor
  · intro h
    split at h
    · next hseg =>
      obtain ⟨⟨segment, hsegment⟩, hseg⟩ := hseg
      rw [← hsegment, List.drop_left] at hseg h
      exact ⟨segment, hsegment.symm, hseg.1, hseg.2.1, hseg.2.2.1, hseg.2.2.2, h⟩
    · cases h
  · rintro ⟨segment, hsegment, hne, hslash, hdot, hdots, h⟩
    rw [hsegment, List.drop_left, if_pos ⟨List.prefix_append _ _, hne, hslash, hdot, hdots⟩, h]

/-! ### Keys -/

theorem notMem_kvPath (hc : c ∉ kvKeyPrefix) (hkey : c ∉ key) :
    c ∉ kvPath key := fun h => (List.mem_append.mp h).elim hc hkey

theorem rawPath_eq (hhash : hash ∉ path) (hquestion : question ∉ path) (query : Bytes)
    : before question (before hash (withQuery path query)) = path := by
  rw [withQuery, before_append hhash, before_append hquestion]
  split
  · simp [before]
  · -- the query starts before the fragment
    rw [← List.singleton_append, before_append (by decide), List.singleton_append, before_cons,
      List.append_nil]

theorem fragment_eq (hhash : hash ∉ path) (query : Bytes) :
    after hash (withQuery path query) = after hash query := by
  rw [withQuery, after_append hhash]
  split
  · next h => rw [h]
  · rw [← List.singleton_append, after_append (by decide)]

/-- A path with a `?` or a `#` in it loses a part of itself. -/
theorem length_rawPath_lt (hp : hash ∈ path ∨ question ∈ path) (query : Bytes) :
    (before question (before hash (withQuery path query))).length < path.length := by
  by_cases hhash : hash ∈ path
  · exact (before_isPrefix _ _).length_le.trans_lt (length_before_lt hhash _)
  · rw [withQuery, before_append hhash]
    exact length_before_lt (hp.resolve_left hhash) _

/-- Slashes and dots are not escaped. -/
theorem escape_kvPath (key : Key) :
    escape keepInPath (kvPath key) = kvKeyPrefix ++ escape keepInPath key := by
  rw [kvPath, escape, List.flatMap_append]
  rfl

theorem mem_escape_of_keep (hb : keepInPath b = true) (h : b ∈ s) :
    b ∈ escape keepInPath s :=
  List.mem_flatMap.mpr ⟨b, h, by rw [escapeByte, if_pos hb]; simp⟩

/-- The segment that is sent for a key without a percent sign: the key, or the key escaped. -/
theorem URL.segment_cases {key segment : Bytes} (hraw : u.rawPath = kvPath key)
    (hpath : u.path = kvPath key) (h : u.escapedPath = kvKeyPrefix ++ segment) :
    segment = key ∨ segment = escape keepInPath key := by
  rw [escapedPath, hraw, hpath, escape_kvPath] at h
  split at h
  · exact .inl (List.append_cancel_left h).symm
  · exact .inr (List.append_cancel_left h).symm

/-- A key that the node finds again is plain. -/
theorem plainKey_of_forwardedKey {query : Bytes} (h : forwardedKey (kvPath key) query = some key) :
    PlainKey key ∧ (unescape (after hash query)).isSome = true := by
  rw [forwardedKey_eq, Option.bind_eq_some_iff] at h
  obtain ⟨u, hu, hvalue⟩ := h
  obtain ⟨hfragment, hu⟩ := parseURL_eq_some.mp hu
  obtain ⟨hcontrol, hpath, hraw, -⟩ := parseRequestURI_eq_some.mp hu
  obtain ⟨segment, hsegment, -, hslash, hdot, hdots, hvalue⟩ := URL.pathValue_eq_some.mp hvalue
  have hdecoded : u.path = kvPath key := by
    have hescaped := URL.unescape_escapedPath hpath
    rw [hsegment, unescape_append fun b hb => (validEncoded_of_mem_route hb).2, hvalue] at hescaped
    exact (Option.some.inj hescaped).symm
  rw [hdecoded] at hpath
  -- decoding makes nothing longer, so that nothing was cut off
  have hwhole : ¬ (hash ∈ kvPath key ∨ question ∈ kvPath key) := by
    intro hcut
    have hlt := length_rawPath_lt hcut query
    rw [← hraw] at hlt
    rcases unescape_shortens hpath with hle | ⟨heq, -⟩
    · omega
    · rw [heq] at hlt
      exact absurd hlt (Nat.lt_irrefl _)
  obtain ⟨hhash, hquestion⟩ := not_or.mp hwhole
  have hrawPath : u.rawPath = kvPath key := by rw [hraw, rawPath_eq hhash hquestion]
  rw [hrawPath, unescape_eq_self_iff] at hpath
  have hin : ∀ b ∈ key, b ∈ kvPath key := fun b hb => List.mem_append_right kvKeyPrefix hb
  have hsegment := URL.segment_cases hrawPath hdecoded hsegment
  refine ⟨⟨fun b hb => ⟨hpath b (hin b hb), ?_, ?_, ?_, ?_⟩, ?_, ?_⟩, ?_⟩
  · rintro rfl; exact hquestion (hin _ hb)
  · rintro rfl; exact hhash (hin _ hb)
  · rintro rfl
    rcases hsegment with rfl | rfl
    · exact hslash hb
    · exact hslash (mem_escape_of_keep (by decide) hb)
  · refine hcontrol b ?_
    rw [withQuery, before_append hhash]
    exact List.mem_append_left _ (hin b hb)
  · rintro rfl
    rcases hsegment with rfl | rfl
    · exact hdot rfl
    · exact hdot rfl
  · rintro rfl
    rcases hsegment with rfl | rfl
    · exact hdots rfl
    · exact hdots rfl
  · rwa [fragment_eq hhash] at hfragment

theorem PlainKey.notMem (h : PlainKey key) (hc : c = percent ∨ c = question ∨ c = hash ∨ c = slash)
    : c ∉ key := by
  intro hmem
  obtain ⟨hpercent, hquestion, hhash, hslash, -⟩ := h.1 c hmem
  rcases hc with hc | hc | hc | hc
  · exact hpercent hc
  · exact hquestion hc
  · exact hhash hc
  · exact hslash hc

/-- What is sent for a plain key is one segment. -/
theorem PlainKey.escape (h : PlainKey key) (hne : key ≠ []) :
    escape keepInPath key ≠ [] ∧ slash ∉ escape keepInPath key ∧ escape keepInPath key ≠ [dot] ∧
      escape keepInPath key ≠ [dot, dot] := by
  have hback := unescape_escape keepInPath_percent key
  refine ⟨fun hnil => ?_, fun hmem => ?_, fun heq => ?_, fun heq => ?_⟩
  · rw [hnil] at hback
    exact hne (Option.some.inj hback).symm
  · have hdigit : ∀ d < 16, slash ≠ Decimal.upperHexDigit d := by decide
    rcases mem_escape hmem with ⟨hmem, -⟩ | heq | ⟨d, hd, heq⟩
    · exact h.notMem (by simp) hmem
    · exact absurd heq (by decide)
    · exact hdigit d hd heq
  · rw [heq] at hback
    exact h.2.1 (Option.some.inj hback).symm
  · rw [heq] at hback
    exact h.2.2 (Option.some.inj hback).symm

/-- A plain key is found again. -/
theorem forwardedKey_of_plainKey {query : Bytes} (hne : key ≠ []) (hkey : PlainKey key)
    (hquery : ∀ b ∈ query, isControl b = false)
    (hfragment : (unescape (after hash query)).isSome = true) :
    forwardedKey (kvPath key) query = some key := by
  have hhash : hash ∉ kvPath key := notMem_kvPath (by decide) (hkey.notMem (by simp))
  have hquestion : question ∉ kvPath key := notMem_kvPath (by decide) (hkey.notMem (by simp))
  have hpercent : ∀ b ∈ kvPath key, b ≠ percent := by
    rintro b hb rfl
    exact notMem_kvPath (by decide) (hkey.notMem (by simp)) hb
  have hroute : ∀ b ∈ kvKeyPrefix, isControl b = false := fun b hb =>
    (not_control_of_validEncoded (validEncoded_of_mem_route hb).1).1
  have hcontrol : ∀ b ∈ before hash (withQuery (kvPath key) query), isControl b = false := by
    intro b hb
    have hb := (before_isPrefix _ _).subset hb
    rcases List.mem_append.mp hb with hb | hb
    · rcases List.mem_append.mp hb with hb | hb
      · exact hroute b hb
      · exact (hkey.1 b hb).2.2.2.2
    · split at hb
      · cases hb
      · rcases List.mem_cons.mp hb with rfl | hb
        · decide
        · exact hquery b hb
  have hparse : parseURL (withQuery (kvPath key) query) = some ⟨kvPath key, kvPath key,
      after question (before hash (withQuery (kvPath key) query))⟩ :=
    parseURL_eq_some.mpr ⟨by rwa [fragment_eq hhash], parseRequestURI_eq_some.mpr
      ⟨hcontrol, unescape_eq_self_iff.mpr hpercent, (rawPath_eq hhash hquestion query).symm, rfl⟩⟩
  rw [forwardedKey_eq, hparse, Option.bind_some, URL.pathValue_eq_some]
  -- `EscapedPath` gives the path as it came if it is well escaped, and else escapes it anew
  by_cases hvalid : (kvPath key).all validEncoded = true
  · refine ⟨key, if_pos hvalid, hne, hkey.notMem (by simp), hkey.2.1, hkey.2.2, ?_⟩
    exact unescape_eq_self_iff.mpr fun b hb => (hkey.1 b hb).1
  · obtain ⟨hnil, hslash, hdot, hdots⟩ := hkey.escape hne
    refine ⟨escape keepInPath key, ?_, hnil, hslash, hdot, hdots,
      unescape_escape keepInPath_percent key⟩
    rw [← escape_kvPath]
    exact if_neg hvalid

/-- **The node finds the key that the client named exactly if nothing in it has a meaning in a
URL.** The gateway has decoded the target of a request to the path of the key. A fragment that
stands in the query has to be well-formed as well, or no request is made. -/
theorem same_key_iff {target : Bytes} {u : URL} {key : Key} (h : parseRequestURI target = some u)
    (hpath : u.path = kvPath key) (hne : key ≠ []) :
    forwardedKey u.path u.rawQuery = some key ↔
      PlainKey key ∧ (unescape (after hash u.rawQuery)).isSome = true := by
  obtain ⟨hcontrol, -, -, hquery⟩ := parseRequestURI_eq_some.mp h
  rw [hpath]
  refine ⟨plainKey_of_forwardedKey, fun ⟨hkey, hfragment⟩ => ?_⟩
  refine forwardedKey_of_plainKey hne hkey (fun b hb => hcontrol b ?_) hfragment
  rw [hquery] at hb
  exact (List.dropWhile_suffix _).subset (List.mem_of_mem_tail hb)

/-! ### Requests -/

/-- A request for a key, with every byte of it encoded. -/
def encodedTarget (key : Key) : Bytes :=
  kvKeyPrefix ++ escape (fun _ => false) key

/-- Every key can be named: the gateway's own router finds it, and decodes its path. -/
theorem parseRequestURI_encodedTarget (hne : key ≠ []) :
    ∃ u, parseRequestURI (encodedTarget key) = some u ∧ u.path = kvPath key ∧ u.rawQuery = [] ∧
      u.pathValue = some key := by
  have hdigit : ∀ d < 16, validEncoded (Decimal.upperHexDigit d) = true ∧
      Decimal.upperHexDigit d ≠ slash ∧ Decimal.upperHexDigit d ≠ dot := by decide
  -- every byte is escaped, so only `%` and hexadecimal digits are left
  have hbytes : ∀ b ∈ escape (fun _ => false) key, validEncoded b = true ∧ b ≠ slash ∧ b ≠ dot := by
    intro b hb
    rcases mem_escape hb with ⟨-, hkeep⟩ | rfl | ⟨d, hd, rfl⟩
    · cases hkeep
    · decide
    · exact hdigit d hd
  have hroute : ∀ b ∈ kvKeyPrefix, validEncoded b = true := fun b hb =>
    (validEncoded_of_mem_route hb).1
  have hvalid : ∀ b ∈ encodedTarget key, validEncoded b = true := by
    intro b hb
    rcases List.mem_append.mp hb with hb | hb
    · exact hroute b hb
    · exact (hbytes b hb).1
  have hquestion : question ∉ encodedTarget key :=
    fun hmem => (not_control_of_validEncoded (hvalid _ hmem)).2 rfl
  have hback : unescape (escape (fun _ => false) key) = some key := unescape_escape rfl key
  have hbefore := before_append hquestion []
  have hafter := after_append hquestion []
  rw [List.append_nil] at hbefore hafter
  refine ⟨⟨kvPath key, encodedTarget key, []⟩, parseRequestURI_eq_some.mpr ⟨fun b hb =>
    (not_control_of_validEncoded (hvalid b hb)).1, ?_, ?_, ?_⟩, rfl, rfl, ?_⟩
  · show unescape (encodedTarget key) = some (kvPath key)
    rw [encodedTarget, unescape_append fun b hb => (validEncoded_of_mem_route hb).2, hback]
    rfl
  · rw [hbefore]
    simp [before]
  · rw [hafter]
    rfl
  · refine URL.pathValue_eq_some.mpr ⟨escape (fun _ => false) key,
      if_pos (List.all_eq_true.mpr hvalid), fun hnil => ?_, fun hmem => (hbytes _ hmem).2.1 rfl,
      fun heq => ?_, fun heq => ?_, hback⟩
    · rw [hnil] at hback
      exact hne (Option.some.inj hback).symm
    · exact (hbytes dot (by rw [heq]; simp)).2.2 rfl
    · exact (hbytes dot (by rw [heq]; simp)).2.2 rfl

/-- A key with a blank and a letter that is not ASCII, in a request with a query. -/
theorem same_key_blank :
    forwardedKey (kvPath [0x61, 0x20, 0xC3, 0xA9]) [0x78] = some [0x61, 0x20, 0xC3, 0xA9] := by
  have hparse : parseRequestURI (encodedTarget [0x61, 0x20, 0xC3, 0xA9] ++ [question, 0x78]) = some
      ⟨kvPath [0x61, 0x20, 0xC3, 0xA9], encodedTarget [0x61, 0x20, 0xC3, 0xA9], [0x78]⟩ := by decide
  exact (same_key_iff hparse rfl (by decide)).mpr (by decide)

/-- A client names the key, percent-encoded. The gateway decodes its path, and its router finds the
key; the node finds something else. -/
def Misdirected (key : Key) (found : Option Key) : Prop :=
  (∃ u, parseRequestURI (encodedTarget key) = some u ∧ u.path = kvPath key ∧ u.rawQuery = [] ∧
    u.pathValue = some key) ∧
  forwardedKey (kvPath key) [] = found ∧ found ≠ some key

theorem misdirected {found : Option Key}
    (h : key ≠ [] ∧ forwardedKey (kvPath key) [] = found ∧ found ≠ some key) :
    Misdirected key found :=
  ⟨parseRequestURI_encodedTarget h.1, h.2⟩

/-- **Another key, or none.** For `a%62`, `a?b` and `a#b` the node finds `ab`, `a` and `a`, and for
`a/b`, `%` and `.` nothing. -/
theorem other_key_addressed : Misdirected [0x61, 0x25, 0x36, 0x32] (some [0x61, 0x62]) ∧
      Misdirected [0x61, 0x3F, 0x62] (some [0x61]) ∧ Misdirected [0x61, 0x23, 0x62] (some [0x61]) ∧
      Misdirected [0x61, 0x2F, 0x62] none ∧ Misdirected [0x25] none ∧ Misdirected [0x2E] none :=
  ⟨misdirected (by decide), misdirected (by decide), misdirected (by decide),
    misdirected (by decide), misdirected (by decide), misdirected (by decide)⟩

end Gateway
end BoilerPulse
