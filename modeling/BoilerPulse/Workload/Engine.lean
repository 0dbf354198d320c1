import Mathlib.Data.Set.Finite.Lemmas
import BoilerPulse.Framework.Runs
import BoilerPulse.Workload.Monitoring

/-!
# Workload: modes

`Engine` (`internal/workload/engine.go`). A `RecordRequest` counts the request, measures the rate
and then, with the lock held, decides on the mode. Between measuring and deciding, others may have
decided, and a `SignalCritical` may have come in: the rate is not read again. The clock and
`criticalUntil` are, so that no decision ends a hold early (`mode_of_interleaving`).

The monitor is told what the clock said before its lock was taken, so it may be asked in another
order than that of the clock. A call that is overtaken misses what the other one has pruned, and
nothing else (`Counted`).
-/

namespace BoilerPulse
namespace Workload

open Framework
open Storage (Key)

inductive Mode where
  | normal
  | elevated
  | highTraffic
  | critical
  deriving DecidableEq

structure Thresholds where
  elevatedRPS : ℚ
  highTrafficRPS : ℚ
  criticalRPS : ℚ

/-- `DefaultThresholds`. -/
def Thresholds.default : Thresholds :=
  ⟨20, 100, 500⟩

/-- The `switch` of `recomputeMode`. -/
def Thresholds.classify (t : Thresholds) (rps : ℚ) : Mode :=
  if t.criticalRPS ≤ rps then .critical
  else if t.highTrafficRPS ≤ rps then .highTraffic
  else if t.elevatedRPS ≤ rps then .elevated
  else .normal

/-- `Engine`. Times are in nanoseconds; no `criticalUntil` is the zero time. -/
structure Engine where
  requests : RequestMonitor
  hotKeys : HotKeyTracker
  thresholds : Thresholds
  mode : Mode
  criticalUntil : Option ℤ

/-- `UnixMilli`. -/
def unixMilli (now : ℤ) : ℤ :=
  now / 10 ^ 6

namespace Engine

/-- `NewEngine`. -/
def new (thresholds : Thresholds) : Engine where
  requests := .new (10000 * 10 ^ 6)
  hotKeys := .new (10000 * 10 ^ 6) 20
  thresholds := thresholds
  mode := .normal
  criticalUntil := none

def signalCritical (e : Engine) (now hold : ℤ) : Engine :=
  { e with
    criticalUntil :=
      if e.criticalUntil.all (· < now + hold) then some (now + hold) else e.criticalUntil
    mode := .critical }

/-- The locked part of `recomputeMode`. -/
def recomputeMode (e : Engine) (now : ℤ) (rps : ℚ) : Engine :=
  { e with
    mode := if e.criticalUntil.any (now < ·) then .critical else e.thresholds.classify rps }

end Engine

/-! ### Calls at the same time -/

/-- Where a `RecordRequest` stands. The clock is read before a lock is taken, except for the last
one. -/
inductive Stage where
  | called (key : Key)
  | counting (key : Key) (now : ℤ)
  | counted (key : Key)
  | noting (key : Key) (now : ℤ)
  | noted
  | measuring (now : ℤ)
  | measured (rps : ℚ)
  | returned

/-- An engine in use. What the monitor was asked and the signals so far, with their times and holds,
are kept for the account. -/
structure Watch where
  engine : Engine
  clock : ℤ
  calls : List Stage
  log : List MonitorCall
  signals : List (ℤ × ℤ)

inductive WatchAction where
  | pass (d : ℕ)
  | request (key : Key)
  /-- The `i`-th `RecordRequest` reads the clock, or goes on to the release of the next lock. -/
  | step (i : ℕ)
  | signal (hold : ℤ)

namespace Watch

def new (thresholds : Thresholds) (clock : ℤ) : Watch :=
  ⟨.new thresholds, clock, [], [], []⟩

def advance (s : Watch) (i : ℕ) : Stage → Option Watch
  | .called key => some { s with calls := s.calls.set i (.counting key (unixMilli s.clock)) }
  | .counting key now =>
    some { s with
      engine := { s.engine with requests := s.engine.requests.record now }
      calls := s.calls.set i (.counted key)
      log := s.log ++ [.record now] }
  | .counted key =>
    some { s with
      calls := s.calls.set i (if key ≠ [] then .noting key (unixMilli s.clock) else .noted) }
  | .noting key now =>
    some { s with
      engine := { s.engine with hotKeys := s.engine.hotKeys.record key now }
      calls := s.calls.set i .noted }
  | .noted => some { s with calls := s.calls.set i (.measuring (unixMilli s.clock)) }
  | .measuring now =>
    let (m, rps) := s.engine.requests.rps now
    some { s with
      engine := { s.engine with requests := m }
      calls := s.calls.set i (.measured rps)
      log := s.log ++ [.rps now] }
  | .measured rps =>
    some { s with
      engine := s.engine.recomputeMode s.clock rps
      calls := s.calls.set i .returned }
  | .returned => none

def step (s : Watch) : WatchAction → Option Watch
  | .pass d => some { s with clock := s.clock + d }
  | .request key => some { s with calls := s.calls ++ [.called key] }
  | .step i => (s.calls[i]?).bind (s.advance i)
  | .signal hold =>
    some { s with
      engine := s.engine.signalCritical s.clock hold
      signals := s.signals ++ [(s.clock, hold)] }

end Watch

/-- A rate that was measured, over ten seconds. What is counted are requests of the ten seconds
before the clock was read, and all those of the ten seconds before its newest reading so far. -/
def Counted (log : List MonitorCall) (rps : ℚ) : Prop :=
  ∃ asked now, asked ++ [.rps now] <+: log ∧ ∃ newest ∈ asked ++ [.rps now],
    (∀ c ∈ asked ++ [.rps now], c.now ≤ newest.now) ∧ ∃ total : ℕ,
      asked.countP (MonitorCall.recordsSince (newest.now - 10000)) ≤ total ∧
      total ≤ asked.countP (MonitorCall.recordsSince (now - 10000)) ∧ rps = total / 10

theorem Counted.append {log : List MonitorCall} {rps : ℚ} (h : Counted log rps)
    (c : MonitorCall) : Counted (log ++ [c]) rps := by
  obtain ⟨asked, now, hpre, hcount⟩ := h
  exact ⟨asked, now, hpre.trans (List.prefix_append _ _), hcount⟩

/-! ### The monitor and the clock -/

namespace RequestMonitor

/-- Calls in any order, none with a reading above the newest. -/
theorem within_after (window : ℤ) {newest : ℤ} {calls : List MonitorCall}
    (h : ∀ c ∈ calls, c.now ≤ newest) :
    ((new window).after calls).buckets.Within (calls.filterMap MonitorCall.recorded)
      (newest - milliseconds window) := by
  induction calls using List.reverseRecOn with
  | nil => exact .empty _
  | append_singleton calls c ih =>
    have hcalls := ih fun d hd => h d (List.mem_append_left _ hd)
    have hle : c.now - milliseconds ((new window).after calls).window ≤
        newest - milliseconds window := by
      rw [after_window]
      exact Int.sub_le_sub_right (h c List.mem_concat_self) _
    rw [after, List.foldl_concat, ← after, List.filterMap_append]
    cases c with
    | record now => exact (hcalls.bump now).prune hle
    | rps now =>
      rw [show [MonitorCall.rps now].filterMap MonitorCall.recorded = [] from rfl, List.append_nil]
      exact hcalls.prune hle

/-- **What `RPS` returns has been counted.** -/
theorem counted_rps (log : List MonitorCall) (now : ℤ) : Counted (log ++ [.rps now])
    (((new (10000 * 10 ^ 6)).after log).rps now).2 := by
  obtain ⟨newest, hmem, hmax⟩ := Set.exists_max_image {c | c ∈ log ++ [.rps now]} MonitorCall.now
    (List.finite_toSet _) ⟨_, List.mem_concat_self⟩
  have hwithin := within_after (10000 * 10 ^ 6) fun c hc => hmax c (List.mem_append_left _ hc)
  rw [milliseconds_mul] at hwithin
  have hnow : now ≤ newest.now := hmax _ List.mem_concat_self
  have htotal := hwithin.total_prune (Int.sub_le_sub_right hnow 10000)
  rw [MonitorCall.countP_recorded, MonitorCall.countP_recorded] at htotal
  have hwindow : ((new (10000 * 10 ^ 6)).after log).window = 10000 * 10 ^ 6 := after_window _ _
  refine ⟨log, now, List.prefix_refl _, newest, hmem, hmax, _, htotal.1, htotal.2, ?_⟩
  simp only [rps, pruneLocked, hwindow, milliseconds_mul]
  norm_num

end RequestMonitor

/-- **The invariant.** -/
structure Watch.Sound (s : Watch) : Prop where
  requests : s.engine.requests = (RequestMonitor.new (10000 * 10 ^ 6)).after s.log
  measured : ∀ rps, .measured rps ∈ s.calls → Counted s.log rps
  /-- Every hold is covered, and some signal has set it. -/
  covered : ∀ x ∈ s.signals, ∃ u ∈ s.engine.criticalUntil, x.1 + x.2 ≤ u
  signalled : s.engine.criticalUntil ≠ none → s.signals ≠ []
  held : ∀ u ∈ s.engine.criticalUntil, s.clock < u → s.engine.mode = .critical
  mode : (s.engine.mode = .critical ∧ s.signals ≠ []) ∨
    (s.engine.mode = .normal ∧ .returned ∉ s.calls) ∨
    ∃ rps, Counted s.log rps ∧ s.engine.mode = s.engine.thresholds.classify rps

namespace Watch.Sound

theorem new (t : Thresholds) (clock : ℤ) : (Watch.new t clock).Sound where
  requests := rfl
  measured := nofun
  covered := nofun
  signalled hne := absurd rfl hne
  held := nofun
  mode := .inr (.inl ⟨rfl, nofun⟩)

variable {s s' : Watch}

/-- A call goes on to a stage at which it has not measured anything. -/
theorem move (h : s.Sound) (t : HotKeyTracker) (i : ℕ) (stage : Stage)
    (hstage : stage ≠ .returned) (hmeasured : ∀ rps, stage ≠ .measured rps) :
    { s with
      engine := { s.engine with hotKeys := t }
      calls := s.calls.set i stage }.Sound where
  requests := h.requests
  measured rps hrps := by
    refine h.measured rps ((List.mem_or_eq_of_mem_set hrps).resolve_right ?_)
    exact fun heq => hmeasured rps heq.symm
  covered := h.covered
  signalled := h.signalled
  held := h.held
  mode := by
    refine h.mode.imp_right (.imp_left fun ⟨hmode, hret⟩ => ⟨hmode, fun hmem => ?_⟩)
    exact (List.mem_or_eq_of_mem_set hmem).elim hret fun heq => hstage heq.symm

/-- A call of the monitor changes neither the mode nor the hold. -/
theorem ask (h : s.Sound) (c : MonitorCall) (i : ℕ) (stage : Stage) (hstage : stage ≠ .returned)
    (hmeasured : ∀ rps, stage = .measured rps → Counted (s.log ++ [c]) rps) :
    { s with
      engine := { s.engine with requests := s.engine.requests.step c }
      calls := s.calls.set i stage
      log := s.log ++ [c] }.Sound where
  requests := by
    show s.engine.requests.step c = _
    rw [h.requests, RequestMonitor.after, RequestMonitor.after, List.foldl_concat]
  measured rps hrps := by
    rcases List.mem_or_eq_of_mem_set hrps with hrps | hrps
    · exact (h.measured rps hrps).append c
    · exact hmeasured rps hrps.symm
  covered := h.covered
  signalled := h.signalled
  held := h.held
  mode := by
    rcases h.mode with hmode | ⟨hmode, hret⟩ | ⟨rps, hrps, hmode⟩
    · exact .inl hmode
    · refine .inr (.inl ⟨hmode, fun hmem => ?_⟩)
      exact (List.mem_or_eq_of_mem_set hmem).elim hret fun heq => hstage heq.symm
    · exact .inr (.inr ⟨rps, hrps.append c, hmode⟩)

/-- **The decision**: the clock is read with the lock held, so a hold is not cut short. -/
theorem decide (h : s.Sound) {rps : ℚ} (hrps : Counted s.log rps) (i : ℕ) : { s with
      engine := s.engine.recomputeMode s.clock rps
      calls := s.calls.set i .returned }.Sound where
  requests := h.requests
  measured r hr := h.measured r ((List.mem_or_eq_of_mem_set hr).resolve_right (by simp))
  covered := h.covered
  signalled := h.signalled
  held u hu hlt := by
    have hu : s.engine.criticalUntil = some u := hu
    refine if_pos ?_
    rw [hu, Option.any_some]
    exact decide_eq_true hlt
  mode := by
    by_cases hany : s.engine.criticalUntil.any (s.clock < ·) = true
    · refine .inl ⟨if_pos hany, h.signalled fun hnone => ?_⟩
      rw [hnone] at hany
      cases hany
    · exact .inr (.inr ⟨rps, hrps, if_neg hany⟩)

/-- **A signal** sets the mode, and extends the hold if it reaches further. -/
theorem signal (h : s.Sound) (hold : ℤ) : { s with
      engine := s.engine.signalCritical s.clock hold
      signals := s.signals ++ [(s.clock, hold)] }.Sound where
  requests := h.requests
  measured := h.measured
  covered x hx := by
    show ∃ u ∈ (if s.engine.criticalUntil.all (· < s.clock + hold) then some (s.clock + hold)
      else s.engine.criticalUntil), x.1 + x.2 ≤ u
    split
    · next hall =>
      refine ⟨_, rfl, ?_⟩
      rcases List.mem_append.mp hx with hx | hx
      · obtain ⟨u, hu, hle⟩ := h.covered x hx
        rw [hu, Option.all_some, decide_eq_true_eq] at hall
        exact hle.trans hall.le
      · rw [List.mem_singleton.mp hx]
    · next hall =>
      rcases List.mem_append.mp hx with hx | hx
      · exact h.covered x hx
      · rw [List.mem_singleton.mp hx]
        cases hu : s.engine.criticalUntil with
        | none => exact absurd (by rw [hu]; rfl) hall
        | some u =>
          rw [hu, Option.all_some, decide_eq_true_eq] at hall
          -- the hold that is there reaches as far already
          exact ⟨u, rfl, not_lt.mp hall⟩
  signalled _ := by simp
  held _ _ _ := rfl
  mode := .inl ⟨rfl, by simp⟩

theorem step {a : WatchAction} (h : s.Sound) (hs : s.step a = some s') : s'.Sound := by
  cases a with
  | pass d =>
    cases hs
    exact ⟨h.requests, h.measured, h.covered, h.signalled,
      -- time only ends a hold
      fun u hu hlt => h.held u hu (by dsimp only at hlt; omega), h.mode⟩
  | request key =>
    cases hs
    refine ⟨h.requests, fun rps hrps => ?_, h.covered, h.signalled, h.held, ?_⟩
    · exact h.measured rps (by simpa using hrps)
    · simpa using h.mode
  | step i =>
    obtain ⟨stage, hstage, hs⟩ := Option.bind_eq_some_iff.mp hs
    cases stage with
    | called key =>
      cases hs
      exact h.move s.engine.hotKeys i (.counting key _) nofun nofun
    -- the monitor has one lock, so its calls have an order, which `log` records
    | counting key now =>
      cases hs
      exact h.ask (.record now) i (.counted key) nofun nofun
    | counted key =>
      cases hs
      refine h.move s.engine.hotKeys i _ ?_ ?_
      · split <;> exact nofun
      · split <;> exact nofun
    | noting key now =>
      cases hs
      exact h.move _ i .noted nofun nofun
    | noted =>
      cases hs
      exact h.move s.engine.hotKeys i (.measuring _) nofun nofun
    | measuring now =>
      cases hs
      refine h.ask (.rps now) i (.measured _) nofun fun _ hrps => ?_
      -- the rate is that of the log as it is now
      rw [← Stage.measured.inj hrps, h.requests]
      exact RequestMonitor.counted_rps s.log now
    | measured rps =>
      cases hs
      exact h.decide (h.measured rps (List.mem_of_getElem? hstage)) i
    | returned => cases hs
  | signal hold =>
    cases hs
    exact h.signal hold

end Watch.Sound

/-- **The mode in every interleaving** of requests and signals. Until the end of every hold that was
signalled, it is `CRITICAL`. At any time, it is the mode of a signal, or the first one before any
request has returned, or that of a rate that was measured. -/
theorem mode_of_interleaving {t : Thresholds} {clock : ℤ} {s : Watch}
    (h : Reaches Watch.step (.new t clock) s) :
    (∀ x ∈ s.signals, s.clock < x.1 + x.2 → s.engine.mode = .critical) ∧
      ((s.engine.mode = .critical ∧ s.signals ≠ []) ∨
        (s.engine.mode = .normal ∧ .returned ∉ s.calls) ∨
        ∃ rps, Counted s.log rps ∧ s.engine.mode = s.engine.thresholds.classify rps) := by
  have hsound : s.Sound := h.invariant (fun _ _ _ hI _ hs => hI.step hs) (.new t clock)
  refine ⟨fun x hx hlt => ?_, hsound.mode⟩
  obtain ⟨u, hu, hle⟩ := hsound.covered x hx
  exact hsound.held u hu (hlt.trans_le hle)

/-- A request measures its rate, an emergency is signalled, and then the request decides. -/
theorem mode_of_late_decision : ∃ s : Watch, Reaches Watch.step (.new .default 0) s ∧
    s.calls = [.returned] ∧ s.clock = 100 ∧ s.engine.mode = .critical := by
  obtain ⟨s, hs, hobs⟩ := Option.map_eq_some_iff.mp (show
    (exec Watch.step (.new .default 0) (.request [97] :: List.replicate 6 (.step 0) ++
      [.signal 300, .pass 100, .step 0])).map
      (fun s => (s.calls, s.clock, s.signals)) = some ([.returned], 100, [(0, 300)]) from rfl)
  simp only [Prod.mk.injEq] at hobs
  obtain ⟨hcalls, hclock, hsignals⟩ := hobs
  have hrun := Reaches.of_exec hs
  refine ⟨s, hrun, hcalls, hclock, (mode_of_interleaving hrun).1 (0, 300) ?_ ?_⟩
  · rw [hsignals]
    exact List.mem_singleton_self _
  · rw [hclock]
    norm_num

end Workload
end BoilerPulse
