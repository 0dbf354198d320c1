import Mathlib.Data.List.Sort
import Mathlib.Data.Rat.Floor
import BoilerPulse.Framework.Windows
import BoilerPulse.Storage.Types

/-!
# Workload: request rates and hot keys

`RequestMonitor` (`internal/workload/monitor.go`) and `HotKeyTracker`
(`internal/workload/hotkeys.go`). Both count requests by the millisecond; what the clock says is an
integer, as `UnixMilli` gives it, and the window is a number of nanoseconds.

The monitor forgets old buckets at each call. The tracker forgets those of one key, and only when
that key is recorded again, so stale buckets of the others stay where they are. Neither makes a
difference for what is reported: each call keeps `Tally.Counts`, the numbers since every cutoff that
can still be asked for (`RequestMonitor.counts_after`, `HotKeyTracker.counts_after`).
-/

namespace BoilerPulse
namespace Workload

open Framework Storage

/-- `Duration.Milliseconds`. -/
def milliseconds (d : ℤ) : ℤ :=
  d.tdiv (10 ^ 6)

/-! ### Requests per second -/

structure RequestMonitor where
  window : ℤ
  buckets : Tally ℤ

namespace RequestMonitor

/-- `NewRequestMonitor`. -/
def new (window : ℤ) : RequestMonitor :=
  ⟨window, ∅⟩

def pruneLocked (m : RequestMonitor) (nowMilli : ℤ) : RequestMonitor :=
  { m with buckets := m.buckets.prune (nowMilli - milliseconds m.window) }

def record (m : RequestMonitor) (now : ℤ) : RequestMonitor :=
  pruneLocked { m with buckets := m.buckets.bump now } now

/-- `RPS`, with the monitor as it leaves it. -/
def rps (m : RequestMonitor) (now : ℤ) : RequestMonitor × ℚ :=
  let m := m.pruneLocked now
  let total := m.buckets.total
  let windowSecs : ℚ := m.window / 10 ^ 9
  (m, if windowSecs ≤ 0 then 0 else total / windowSecs)

end RequestMonitor

/-- A call of the monitor, with what the clock says. -/
inductive MonitorCall
  | record (now : ℤ)
  | rps (now : ℤ)
  deriving DecidableEq

namespace MonitorCall

def now : MonitorCall → ℤ
  | record now => now
  | rps now => now

/-- The call records a request at or after the cutoff. -/
def recordsSince (cutoff : ℤ) : MonitorCall → Bool
  | record now => cutoff ≤ now
  | rps _ => false

end MonitorCall

namespace RequestMonitor

def step (m : RequestMonitor) : MonitorCall → RequestMonitor
  | .record now => m.record now
  | .rps now => (m.rps now).1

/-- The monitor after some calls. -/
def after (m : RequestMonitor) (calls : List MonitorCall) : RequestMonitor :=
  calls.foldl step m

end RequestMonitor

/-! ### Hot keys -/

structure KeyStat where
  key : Key
  count : ℕ
  deriving DecidableEq

/-- The order of `HotKeys`: by count, and by key where the counts are equal. -/
def KeyStat.less (a b : KeyStat) : Prop :=
  if a.count ≠ b.count then a.count > b.count else a.key < b.key

instance KeyStat.decidableLess (a b : KeyStat) : Decidable (a.less b) :=
  inferInstanceAs (Decidable (if a.count ≠ b.count then a.count > b.count else a.key < b.key))

structure HotKeyTracker where
  window : ℤ
  threshold : ℤ
  keyHits : AList fun _ : Key => Tally ℤ

namespace HotKeyTracker

/-- `NewHotKeyTracker`. -/
def new (window threshold : ℤ) : HotKeyTracker :=
  ⟨window, threshold, ∅⟩

/-- The buckets of a key, none if there is no such key. -/
def hits (t : HotKeyTracker) (key : Key) : Tally ℤ :=
  (t.keyHits.lookup key).getD ∅

def pruneKeyLocked (t : HotKeyTracker) (key : Key) (nowMilli : ℤ) : HotKeyTracker :=
  let buckets := (t.hits key).prune (nowMilli - milliseconds t.window)
  if buckets.entries.any fun e => e.2 > 0 then
    { t with keyHits := t.keyHits.insert key buckets }
  else { t with keyHits := t.keyHits.erase key }

def record (t : HotKeyTracker) (key : Key) (now : ℤ) : HotKeyTracker :=
  if key = [] then t
  else pruneKeyLocked { t with keyHits := t.keyHits.insert key ((t.hits key).bump now) } key now

/-- What the loop of `HotKeys` appends for a key, if anything. -/
def stat (t : HotKeyTracker) (now : ℤ) (e : Sigma fun _ : Key => Tally ℤ) : Option KeyStat :=
  let total : ℕ := e.2.since (now - milliseconds t.window)
  if (total : ℤ) ≥ t.threshold then some ⟨e.1, total⟩ else none

/-- All that the loop collects, in the order of the map. -/
def stats (t : HotKeyTracker) (now : ℤ) : List KeyStat :=
  t.keyHits.entries.filterMap (t.stat now)

def hotKeys (t : HotKeyTracker) (now : ℤ) : List KeyStat :=
  (t.stats now).insertionSort fun a b => ¬b.less a

end HotKeyTracker

/-- A call of the tracker, with what the clock says. -/
inductive TrackerCall
  | record (key : Key) (now : ℤ)
  | hotKeys (now : ℤ)
  deriving DecidableEq

namespace TrackerCall

def now : TrackerCall → ℤ
  | record _ now => now
  | hotKeys now => now

/-- The call records a request for the key at or after the cutoff. -/
def recordsSince (key : Key) (cutoff : ℤ) : TrackerCall → Bool
  | record k now => k = key ∧ cutoff ≤ now
  | hotKeys _ => false

end TrackerCall

namespace HotKeyTracker

def step (t : HotKeyTracker) : TrackerCall → HotKeyTracker
  | .record key now => t.record key now
  -- `HotKeys` reads only
  | .hotKeys _ => t

/-- The tracker after some calls. -/
def after (t : HotKeyTracker) (calls : List TrackerCall) : HotKeyTracker :=
  calls.foldl step t

end HotKeyTracker

/-! ### The monitor against the list of its calls -/

theorem milliseconds_mul (w : ℤ) : milliseconds (w * 10 ^ 6) = w :=
  Int.mul_tdiv_cancel w (by decide)

section Monitor

variable {w : ℤ} {calls : List MonitorCall}

namespace MonitorCall

/-- When a request is recorded. -/
def recorded : MonitorCall → Option ℤ
  | record now => some now
  | rps _ => none

theorem countP_recorded (calls : List MonitorCall) (cutoff : ℤ) :
    ((calls.filterMap recorded).countP fun t => cutoff ≤ t)
      = calls.countP (recordsSince cutoff) := by
  rw [List.countP_filterMap]
  refine List.countP_congr fun c _ => ?_
  cases c <;> simp [recorded, recordsSince]

end MonitorCall

namespace RequestMonitor

/-- A call keeps the counts that are asked for from then on. -/
theorem counts_step {m : RequestMonitor} {events : List ℤ} (c : MonitorCall)
    (h : m.buckets.Counts events (c.now - milliseconds m.window)) :
    (m.step c).buckets.Counts (events ++ c.recorded.toList) (c.now - milliseconds m.window) := by
  cases c with
  -- both prune at a cutoff that no later call goes below
  | record now => exact (h.bump now).prune le_rfl
  | rps now =>
    rw [MonitorCall.recorded, Option.toList_none, List.append_nil]
    exact h.prune le_rfl

theorem step_window (m : RequestMonitor) (c : MonitorCall) : (m.step c).window = m.window := by
  cases c <;> rfl

theorem after_window (m : RequestMonitor) (calls : List MonitorCall) :
    (m.after calls).window = m.window :=
  List.foldlRecOn (motive := fun m' => m'.window = m.window) calls step rfl
    fun m' h c _ => (step_window m' c).trans h

theorem counts_after (window : ℤ) (hcalls : calls.Pairwise fun c d => c.now ≤ d.now) {now : ℤ}
    (hnow : ∀ c ∈ calls, c.now ≤ now) :
    ((new window).after calls).buckets.Counts (calls.filterMap MonitorCall.recorded)
      (now - milliseconds window) := by
  refine Tally.Counts.foldl (I := fun m => m.window = window) buckets
    (fun c => c.now - milliseconds window) (fun m c events hm h => ?_)
    (fun m c hm => (step_window m c).trans hm) rfl rfl
    (hcalls.imp fun hle => Int.sub_le_sub_right hle _)
    (fun c hc => Int.sub_le_sub_right (hnow c hc) _)
  subst hm
  exact counts_step c h

/-- The total in `RPS`, and the rate that it gives. -/
theorem rps_after (hw : 0 < w) (hcalls : calls.Pairwise fun c d => c.now ≤ d.now) {now : ℤ}
    (hnow : ∀ c ∈ calls, c.now ≤ now) :
    (((new (w * 10 ^ 6)).after calls).pruneLocked now).buckets.total
        = calls.countP (MonitorCall.recordsSince (now - w)) ∧
      (((new (w * 10 ^ 6)).after calls).rps now).2
        = calls.countP (MonitorCall.recordsSince (now - w)) / ((w : ℚ) / 1000) := by
  have hcounts := counts_after (w * 10 ^ 6) hcalls hnow
  have hwindow : ((new (w * 10 ^ 6)).after calls).window = w * 10 ^ 6 := after_window _ _
  rw [milliseconds_mul] at hcounts
  have htotal : (((new (w * 10 ^ 6)).after calls).pruneLocked now).buckets.total
      = calls.countP (MonitorCall.recordsSince (now - w)) := by
    rw [pruneLocked, hwindow, milliseconds_mul, Tally.total_prune, hcounts _ le_rfl,
      MonitorCall.countP_recorded]
  refine ⟨htotal, ?_⟩
  have hsecs : ((((new (w * 10 ^ 6)).after calls).pruneLocked now).window : ℚ) / 10 ^ 9
      = (w : ℚ) / 1000 := by
    rw [pruneLocked, hwindow]
    push_cast
    ring
  have hpos : (0 : ℚ) < (w : ℚ) / 1000 := by positivity
  rw [rps, hsecs, htotal, if_neg (not_le.mpr hpos)]

end RequestMonitor

end Monitor

/-! ### The tracker against the list of its calls -/

section Tracker

variable {w threshold : ℤ} {calls : List TrackerCall}

namespace TrackerCall

/-- When a request for the key is recorded. -/
def recorded (key : Key) : TrackerCall → Option ℤ
  | record k now => if k = key then some now else none
  | hotKeys _ => none

theorem countP_recorded (calls : List TrackerCall) (key : Key) (cutoff : ℤ) :
    ((calls.filterMap (recorded key)).countP fun t => cutoff ≤ t)
      = calls.countP (recordsSince key cutoff) := by
  rw [List.countP_filterMap]
  refine List.countP_congr fun c _ => ?_
  cases c with
  | record k now => by_cases hk : k = key <;> simp [recorded, recordsSince, hk]
  | hotKeys now => simp [recorded, recordsSince]

end TrackerCall

namespace HotKeyTracker

variable {t : HotKeyTracker} {now : ℤ} {x : KeyStat} {key : Key}

theorem hits_congr {t t' : HotKeyTracker} (h : t.keyHits.lookup key = t'.keyHits.lookup key)
    : t.hits key = t'.hits key := by
  rw [hits, h, hits]

/-- Pruning a key, which may remove it, changes no count from the cutoff on. -/
theorem since_pruneKeyLocked (t : HotKeyTracker) (key : Key) (nowMilli : ℤ) {c : ℤ}
    (hc : nowMilli - milliseconds t.window ≤ c) :
    ((t.pruneKeyLocked key nowMilli).hits key).since c = (t.hits key).since c := by
  rw [← (t.hits key).since_prune hc, pruneKeyLocked]
  split
  · rw [hits, AList.lookup_insert, Option.getD_some]
  · next hempty =>
    -- the key is gone, and all its buckets at or after the cutoff were empty
    rw [hits, AList.lookup_erase, Option.getD_none]
    refine (Tally.since_eq_zero_iff.mpr fun e he _ => ?_).symm
    simpa using fun hpos => hempty (List.any_eq_true.mpr ⟨e, he, decide_eq_true hpos⟩)

theorem hits_pruneKeyLocked_of_ne (t : HotKeyTracker) {key other : Key} (h : other ≠ key)
    (nowMilli : ℤ) : (t.pruneKeyLocked key nowMilli).hits other = t.hits other := by
  rw [pruneKeyLocked]
  split
  · exact hits_congr (AList.lookup_insert_ne h)
  · exact hits_congr (AList.lookup_erase_ne h)

/-- A call keeps the counts of every key that are asked for from then on. -/
theorem counts_step (hkey : key ≠ []) {events : List ℤ} (c : TrackerCall)
    (h : (t.hits key).Counts events (c.now - milliseconds t.window)) :
    ((t.step c).hits key).Counts (events ++ (c.recorded key).toList) (c.now - milliseconds t.window)
    := by
  cases c with
  | hotKeys now =>
    rw [TrackerCall.recorded, Option.toList_none, List.append_nil]
    exact h
  | record k now =>
    by_cases hk : k = key
    · subst hk
      rw [TrackerCall.recorded, if_pos rfl, Option.toList_some]
      intro cutoff hcutoff
      calc ((t.step (.record k now)).hits k).since cutoff
          = (({ t with keyHits := t.keyHits.insert k ((t.hits k).bump now) } : HotKeyTracker).hits
              k).since cutoff := by
            rw [step, record, if_neg hkey]
            exact since_pruneKeyLocked _ k now hcutoff
        _ = ((t.hits k).bump now).since cutoff := by rw [hits, AList.lookup_insert]; rfl
        _ = (events ++ [now]).countP fun t => cutoff ≤ t := h.bump now cutoff hcutoff
    · -- only the recorded key is pruned: stale buckets of this one stay, and are not counted
      have hsame : ((t.step (.record k now)).hits key) = t.hits key := by
        rw [step, record]
        split
        · rfl
        · rw [hits_pruneKeyLocked_of_ne _ (Ne.symm hk)]
          exact hits_congr (AList.lookup_insert_ne (Ne.symm hk))
      rwa [hsame, TrackerCall.recorded, if_neg hk, Option.toList_none, List.append_nil]

/-- What no call changes: the settings, and that nothing is kept for the empty key. -/
structure Set (window threshold : ℤ) (t : HotKeyTracker) : Prop where
  window_eq : t.window = window
  threshold_eq : t.threshold = threshold
  empty_key : t.keyHits.lookup [] = none

theorem Set.step {window threshold : ℤ} (h : Set window threshold t) (c : TrackerCall)
    : Set window threshold (t.step c) := by
  cases c with
  | hotKeys now => exact h
  | record key now =>
    rw [HotKeyTracker.step, record]
    split
    · exact h
    · next hkey =>
      rw [pruneKeyLocked]
      split
      · exact ⟨h.window_eq, h.threshold_eq, by
          rw [AList.lookup_insert_ne (Ne.symm hkey), AList.lookup_insert_ne (Ne.symm hkey)]
          exact h.empty_key⟩
      · exact ⟨h.window_eq, h.threshold_eq, by
          rw [AList.lookup_erase_ne (Ne.symm hkey), AList.lookup_insert_ne (Ne.symm hkey)]
          exact h.empty_key⟩

theorem counts_after (window threshold : ℤ) (hcalls : calls.Pairwise fun c d => c.now ≤ d.now)
    (hnow : ∀ c ∈ calls, c.now ≤ now) (hkey : key ≠ []) :
    (((new window threshold).after calls).hits key).Counts
      (calls.filterMap (TrackerCall.recorded key)) (now - milliseconds window) := by
  refine Tally.Counts.foldl (I := Set window threshold) (fun t => t.hits key)
    (fun c => c.now - milliseconds window) (fun t c events ht h => ?_)
    (fun t c ht => ht.step c) ⟨rfl, rfl, rfl⟩ rfl
    (hcalls.imp fun hle => Int.sub_le_sub_right hle _)
    (fun c hc => Int.sub_le_sub_right (hnow c hc) _)
  obtain ⟨rfl, -, -⟩ := ht
  exact counts_step hkey c h

theorem stat_eq_some_iff {e : Sigma fun _ : Key => Tally ℤ}
    : t.stat now e = some x ↔ e.1 = x.key ∧
      x.count = e.2.since (now - milliseconds t.window) ∧ t.threshold ≤ x.count := by
  rw [stat]
  split
  · next hge =>
    rw [Option.some.injEq]
    constructor
    · rintro rfl
      exact ⟨rfl, rfl, hge⟩
    · rintro ⟨hkey, hcount, -⟩
      rw [hkey, ← hcount]
  · next hlt =>
    refine iff_of_false (by simp) ?_
    rintro ⟨-, hcount, hge⟩
    exact hlt (hcount ▸ hge)

theorem mem_stats : x ∈ t.stats now ↔
    ∃ buckets, t.keyHits.lookup x.key = some buckets ∧
      x.count = buckets.since (now - milliseconds t.window) ∧ t.threshold ≤ x.count := by
  rw [stats, List.mem_filterMap]
  constructor
  · rintro ⟨⟨key, buckets⟩, he, hx⟩
    obtain ⟨rfl, hx⟩ := stat_eq_some_iff.mp hx
    exact ⟨buckets, AList.mem_lookup_iff.mpr he, hx⟩
  · rintro ⟨buckets, hlookup, hx⟩
    exact ⟨⟨x.key, buckets⟩, AList.mem_lookup_iff.mp hlookup, stat_eq_some_iff.mpr ⟨rfl, hx⟩⟩

/-- A key that reaches a positive threshold has buckets. -/
theorem mem_stats_iff_hits (hthreshold : 1 ≤ t.threshold)
    : x ∈ t.stats now ↔
      x.count = (t.hits x.key).since (now - milliseconds t.window) ∧ t.threshold ≤ x.count := by
  rw [mem_stats, hits]
  cases t.keyHits.lookup x.key with
  | some buckets => simp
  | none =>
    -- with a threshold of `0` this key would be missing
    have hzero : Tally.since (∅ : Tally ℤ) (now - milliseconds t.window) = 0 := rfl
    simp only [Option.getD_none, hzero, reduceCtorEq, false_and, exists_false, false_iff]
    omega

/-- Each key is collected once. -/
theorem nodup_stats (t : HotKeyTracker) (now : ℤ) :
    (t.stats now).Pairwise fun a b => a.key ≠ b.key := by
  rw [stats, List.pairwise_filterMap]
  refine (List.nodupKeys_iff_pairwise.mp t.keyHits.nodupKeys).imp ?_
  intro e e' hne a ha b hb
  rw [← (stat_eq_some_iff.mp ha).1, ← (stat_eq_some_iff.mp hb).1]
  exact hne

end HotKeyTracker

namespace KeyStat

theorem not_less_iff {a b : KeyStat} :
    ¬b.less a ↔ a.count > b.count ∨ a.count = b.count ∧ a.key ≤ b.key := by
  unfold less
  by_cases h : b.count = a.count
  · simp [h]
  · have h' : a.count ≠ b.count := Ne.symm h
    rw [if_pos h, gt_iff_lt, not_lt]
    exact ⟨fun hle => .inl (lt_of_le_of_ne hle h), fun hor => (hor.resolve_right (h' ·.1)).le⟩

instance total_not_less : Std.Total fun a b : KeyStat => ¬b.less a where
  total a b := by
    rw [not_less_iff, not_less_iff]
    have := List.le_total a.key b.key
    obtain hlt | heq | hgt := lt_trichotomy a.count b.count
    · exact .inr (.inl hlt)
    · exact this.imp (fun h => .inr ⟨heq, h⟩) fun h => .inr ⟨heq.symm, h⟩
    · exact .inl (.inl hgt)

instance trans_not_less : IsTrans KeyStat fun a b => ¬b.less a where
  trans a b c hab hbc := by
    rw [not_less_iff] at hab hbc ⊢
    obtain hab | ⟨hab, hkab⟩ := hab
    · exact .inl (by omega)
    · obtain hbc | ⟨hbc, hkbc⟩ := hbc
      · exact .inl (by omega)
      · exact .inr ⟨hab.trans hbc, List.le_trans hkab hkbc⟩

end KeyStat

namespace HotKeyTracker

/-- In whatever order the map is gone through, and however the slice is sorted, the result is the
same. -/
theorem eq_hotKeys {t : HotKeyTracker} {now : ℤ} {l : List KeyStat} (hperm : l.Perm (t.stats now))
    (hsorted : l.Pairwise fun a b => ¬b.less a) : l = t.hotKeys now := by
  refine List.Perm.eq_of_pairwise (fun a b _ _ hab hba => ?_) hsorted
    (List.pairwise_insertionSort _ _) (hperm.trans (List.perm_insertionSort _ _).symm)
  rw [KeyStat.not_less_iff] at hab hba
  have hcount : a.count = b.count := by omega
  have hkey : a.key = b.key :=
    List.le_antisymm (hab.resolve_left (by omega)).2 (hba.resolve_left (by omega)).2
  cases a
  cases b
  congr

theorem pairwise_hotKeys (t : HotKeyTracker) (now : ℤ) : (t.hotKeys now).Pairwise fun a b =>
    a.count > b.count ∨ a.count = b.count ∧ a.key < b.key := by
  have hsorted : (t.hotKeys now).Pairwise fun a b => ¬b.less a := List.pairwise_insertionSort _ _
  have hnodup : (t.hotKeys now).Pairwise fun a b => a.key ≠ b.key :=
    ((List.perm_insertionSort _ _).pairwise_iff fun h => Ne.symm h).mpr (t.nodup_stats now)
  refine (hsorted.and hnodup).imp fun ⟨hle, hne⟩ => ?_
  obtain hgt | ⟨heq, hkey⟩ := KeyStat.not_less_iff.mp hle
  · exact .inl hgt
  · exact .inr ⟨heq, (List.le_iff_lt_or_eq.mp hkey).resolve_right hne⟩

theorem mem_hotKeys_after (hthreshold : 1 ≤ threshold)
    (hcalls : calls.Pairwise fun c d => c.now ≤ d.now) {now : ℤ} (hnow : ∀ c ∈ calls, c.now ≤ now)
    (x : KeyStat) : x ∈ ((new (w * 10 ^ 6) threshold).after calls).hotKeys now ↔
      x.key ≠ [] ∧ x.count = calls.countP (TrackerCall.recordsSince x.key (now - w)) ∧
        threshold ≤ x.count := by
  have hset : Set (w * 10 ^ 6) threshold ((new (w * 10 ^ 6) threshold).after calls) :=
    List.foldlRecOn (motive := Set _ _) calls step ⟨rfl, rfl, rfl⟩ fun t h c _ => h.step c
  rw [hotKeys, List.mem_insertionSort]
  by_cases hkey : x.key = []
  · refine iff_of_false (fun hmem => ?_) fun h => h.1 hkey
    obtain ⟨buckets, hlookup, -⟩ := mem_stats.mp hmem
    rw [hkey, hset.empty_key] at hlookup
    cases hlookup
  · have hcounts := counts_after (w * 10 ^ 6) threshold hcalls hnow hkey
    rw [milliseconds_mul] at hcounts
    rw [mem_stats_iff_hits (by rwa [hset.threshold_eq]), hset.window_eq, hset.threshold_eq,
      milliseconds_mul, hcounts _ le_rfl, TrackerCall.countP_recorded, and_iff_right hkey]

end HotKeyTracker

end Tracker

/-- With a window of `w` milliseconds, `RPS` divides the number of requests that were recorded since
`now - w`, and `HotKeys` gives the keys for which there were `threshold` or more since then, with
their numbers and in order. It makes no difference what the calls before have pruned. -/
theorem windows_exact (w : ℤ) (hw : 0 < w) :
    (∀ (calls : List MonitorCall) (now : ℤ), (calls.Pairwise fun c d => c.now ≤ d.now) →
      (∀ c ∈ calls, c.now ≤ now) →
      let m := (RequestMonitor.new (w * 10 ^ 6)).after calls
      let total := calls.countP (MonitorCall.recordsSince (now - w))
      (m.pruneLocked now).buckets.total = total ∧ (m.rps now).2 = total / ((w : ℚ) / 1000)) ∧
    ∀ (threshold : ℤ) (calls : List TrackerCall) (now : ℤ), 1 ≤ threshold →
      (calls.Pairwise fun c d => c.now ≤ d.now) → (∀ c ∈ calls, c.now ≤ now) →
      let hot := ((HotKeyTracker.new (w * 10 ^ 6) threshold).after calls).hotKeys now
      (∀ x, x ∈ hot ↔ x.key ≠ [] ∧
        x.count = calls.countP (TrackerCall.recordsSince x.key (now - w)) ∧
        threshold ≤ x.count) ∧
      hot.Pairwise fun a b => a.count > b.count ∨ a.count = b.count ∧ a.key < b.key := by
  refine ⟨fun calls now hcalls hnow => ?_, fun threshold calls now hthreshold hcalls hnow => ?_⟩
  · exact RequestMonitor.rps_after hw hcalls hnow
  · exact ⟨HotKeyTracker.mem_hotKeys_after hthreshold hcalls hnow,
      HotKeyTracker.pairwise_hotKeys _ now⟩

/-- Ten milliseconds, asked at `13`: what came at `0` no longer counts, though the tracker still
has it. -/
theorem windows_exact_of_ten :
    let calls := [.record 0, .rps 1, .record 5, .record 12]
    let asked := [.record [1] 0, .record [2] 5, .hotKeys 6, .record [2] 12]
    (((RequestMonitor.new (10 * 10 ^ 6)).after calls).pruneLocked 13).buckets.total = 2 ∧
      (∀ x, x ∈ ((HotKeyTracker.new (10 * 10 ^ 6) 1).after asked).hotKeys 13 → x.key ≠ [1]) ∧
      (((HotKeyTracker.new (10 * 10 ^ 6) 1).after asked).hits [1]).total = 1 := by
  intro calls asked
  refine ⟨?_, fun x hx hkey => ?_, by decide⟩
  · exact ((windows_exact 10 (by decide)).1 calls 13 (by decide) (by decide)).1.trans (by decide)
  · have hmem := (((windows_exact 10 (by decide)).2 1 asked 13 le_rfl (by decide)
      (by decide)).1 x).mp hx
    have hcount : asked.countP (TrackerCall.recordsSince [1] (13 - 10)) = 0 := by decide
    rw [hkey, hcount] at hmem
    omega

end Workload
end BoilerPulse
