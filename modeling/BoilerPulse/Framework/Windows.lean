import Mathlib.Algebra.BigOperators.Group.List.Basic
import Mathlib.Algebra.Order.BigOperators.Group.List
import Mathlib.Algebra.Order.Ring.Nat
import Mathlib.Data.List.AList
import Mathlib.Data.List.Induction
import Mathlib.Order.Lattice

/-!
# Counting events in a sliding window

A `Tally` says how many events there were at each instant, and forgets instants that are older than
some cutoff. Instants are from any linear order.

What one asks a tally is how many events there were since a cutoff. `Tally.Counts` says that the
answer is right for every cutoff from some instant on: recording an event keeps that
(`Tally.Counts.bump`), and when what is before `c` is forgotten, it is still so from `c` on
(`Tally.Counts.prune`). As time goes by, cutoffs only move forward, so it does not matter when, or
if at all, a tally is pruned. If they do not (`Tally.Within`), what is counted since a cutoff is
between what there was since the latest cutoff and what there was since this one.
-/

namespace Framework

variable {T : Type} [LinearOrder T]

abbrev Tally (T : Type) := AList fun _ : T => ℕ

namespace Tally

/-- One more event at `t`. -/
def bump (m : Tally T) (t : T) : Tally T :=
  m.insert t ((m.lookup t).getD 0 + 1)

/-- Forget the instants before the cutoff. -/
def prune (m : Tally T) (cutoff : T) : Tally T :=
  ⟨m.entries.filter fun e => ¬e.1 < cutoff, m.nodupKeys.sublist List.filter_sublist⟩

/-- All the events. -/
def total (m : Tally T) : ℕ :=
  (m.entries.map Sigma.snd).sum

/-- The events from the cutoff on. -/
def since (m : Tally T) (cutoff : T) : ℕ :=
  ((m.entries.filter fun e => cutoff ≤ e.1).map Sigma.snd).sum

variable {m : Tally T} {events : List T} {c c₀ t : T}

theorem total_prune (m : Tally T) (c : T) : (m.prune c).total = m.since c := by
  simp only [total, prune, since, not_lt]

theorem since_prune (m : Tally T) (h : c₀ ≤ c) : (m.prune c₀).since c = m.since c := by
  simp only [since, prune, List.filter_filter]
  congr 2
  refine List.filter_congr fun e _ => ?_
  rw [← Bool.decide_and, decide_eq_decide]
  exact and_iff_left_of_imp fun hc => not_lt.mpr (h.trans hc)

theorem since_eq_zero_iff : m.since c = 0 ↔ ∀ e ∈ m.entries, c ≤ e.1 → e.2 = 0 := by
  rw [since, List.sum_eq_zero_iff_forall_eq_nat, List.forall_mem_map]
  simp only [List.mem_filter, decide_eq_true_eq, and_imp]

theorem since_bump (m : Tally T) (t c : T) :
    (m.bump t).since c = m.since c + if c ≤ t then 1 else 0 := by
  unfold bump since
  rw [AList.entries_insert]
  by_cases hmem : t ∈ m.entries.keys
  · -- the old number at `t` is somewhere among the others
    obtain ⟨n, before, after, -, hsplit, hrest⟩ := List.exists_of_kerase hmem
    have hold : m.lookup t = some n := AList.mem_lookup_iff.mpr (by rw [hsplit]; simp)
    rw [hrest, hold, hsplit]
    by_cases hc : c ≤ t
    · simp only [Option.getD_some, hc, decide_true, List.filter_cons_of_pos, List.filter_append,
        List.map_cons, List.map_append, List.sum_cons, List.sum_append, if_true]
      omega
    · simp [List.filter_append, hc]
  · -- a bucket of its own
    have hnone : m.lookup t = none := AList.lookup_eq_none.mpr hmem
    rw [List.kerase_of_notMem_keys hmem, hnone]
    by_cases hc : c ≤ t
    · simp [hc, add_comm]
    · simp [hc]

/-- The tally has the number of events since each cutoff from `c₀` on. -/
def Counts (m : Tally T) (events : List T) (c₀ : T) : Prop :=
  ∀ c, c₀ ≤ c → m.since c = events.countP fun t => c ≤ t

theorem counts_empty (c₀ : T) : Counts ∅ [] c₀ :=
  fun _ _ => rfl

theorem Counts.mono (h : Counts m events c₀) (hle : c₀ ≤ c) : Counts m events c :=
  fun c' hc => h c' (hle.trans hc)

theorem Counts.bump (h : Counts m events c₀) (t : T) : Counts (m.bump t) (events ++ [t]) c₀ := by
  intro c hc
  rw [since_bump, h c hc, List.countP_append, List.countP_singleton]
  simp

theorem Counts.prune (h : Counts m events c₀) (hle : c₀ ≤ c) : Counts (m.prune c) events c := by
  intro c' hc
  rw [since_prune m hc]
  exact h.mono hle c' hc

/-- Calls come with a cutoff each, record one event at most and keep the counts from their own
cutoff on. If no cutoff is before an earlier one, the counts after a whole run are right for every
cutoff that may come next. -/
theorem Counts.foldl {σ α : Type} {step : σ → α → σ} {I : σ → Prop} (tally : σ → Tally T)
    {recorded : α → Option T} (cutoff : α → T) {s₀ : σ} {calls : List α}
    (hstep : ∀ s c events, I s → Counts (tally s) events (cutoff c) →
      Counts (tally (step s c)) (events ++ (recorded c).toList) (cutoff c))
    (hI : ∀ s c, I s → I (step s c)) (h₀ : I s₀) (hempty : tally s₀ = ∅)
    (hcalls : calls.Pairwise fun c d => cutoff c ≤ cutoff d)
    (hlast : ∀ c ∈ calls, cutoff c ≤ c₀) :
    Counts (tally (calls.foldl step s₀)) (calls.filterMap recorded) c₀ := by
  have hrun : ∀ calls : List α, I (calls.foldl step s₀) := fun calls =>
    List.foldlRecOn calls step h₀ fun s hs c _ => hI s c hs
  -- what is asked of the counts moves on with each call, so the last call goes first
  induction calls using List.reverseRecOn generalizing c₀ with
  | nil =>
    show Counts (tally s₀) [] c₀
    rw [hempty]
    exact counts_empty c₀
  | append_singleton calls c ih =>
    obtain ⟨hcalls, -, hbefore⟩ := List.pairwise_append.mp hcalls
    have hc := ih hcalls fun d hd => hbefore d hd c (by simp)
    have hnext := hstep _ c _ (hrun calls) hc
    have hone : [c].filterMap recorded = (recorded c).toList := by
      cases hrec : recorded c <;> simp [hrec]
    rw [List.foldl_concat, List.filterMap_append, hone]
    exact hnext.mono (hlast c (by simp))

/-! ### Cutoffs in any order -/

/-- The numbers are right from `c₀` on, and never too high. -/
structure Within (m : Tally T) (events : List T) (c₀ : T) : Prop where
  counts : Counts m events c₀
  atMost : ∀ c, m.since c ≤ events.countP fun t => c ≤ t

theorem since_anti (m : Tally T) (h : c₀ ≤ c) : m.since c ≤ m.since c₀ := by
  refine List.Sublist.sum_le_sum (List.Sublist.map _ ?_) fun _ _ => Nat.zero_le _
  exact List.monotone_filter_right _ fun e he =>
    decide_eq_true (h.trans (of_decide_eq_true he))

theorem since_prune_le (m : Tally T) (c₀ c : T) : (m.prune c₀).since c ≤ m.since c :=
  List.Sublist.sum_le_sum (List.Sublist.map _ (List.filter_sublist.filter _)) fun _ _ =>
    Nat.zero_le _

namespace Within

theorem empty (c₀ : T) : Within ∅ [] c₀ :=
  ⟨counts_empty c₀, fun _ => Nat.le_refl 0⟩

theorem bump (h : Within m events c₀) (t : T) : Within (m.bump t) (events ++ [t]) c₀ where
  counts := h.counts.bump t
  atMost c := by
    rw [since_bump, List.countP_append, List.countP_singleton]
    simpa using h.atMost c

/-- What is forgotten is before `c₀`. -/
theorem prune (h : Within m events c₀) (hle : c ≤ c₀) : Within (m.prune c) events c₀ where
  counts c' hc := (since_prune m (hle.trans hc)).trans (h.counts c' hc)
  atMost c' := (since_prune_le m c c').trans (h.atMost c')

/-- **What is counted since a cutoff**, although some of it may have been forgotten. -/
theorem total_prune (h : Within m events c₀) (hle : c ≤ c₀) :
    (events.countP fun t => c₀ ≤ t) ≤ (m.prune c).total ∧
      (m.prune c).total ≤ events.countP fun t => c ≤ t := by
  rw [Tally.total_prune, ← h.counts c₀ le_rfl]
  exact ⟨since_anti m hle, h.atMost c⟩

end Within

end Tally

end Framework
