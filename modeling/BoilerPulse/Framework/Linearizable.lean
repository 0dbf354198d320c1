import Mathlib.Data.List.Nodup
import Mathlib.Data.List.Perm.Subperm

/-!
# Linearizable histories

Calls of an object overlap. A history is what callers see of them, in the order of time: that a call
is invoked, with its operation, and that it responds, with its result. The object is specified by
what it does when there is one call at a time, `spec : S → Op → S × Res`.

A history is linearizable if there is an order of calls in which the object, one call at a time,
gives the results that the history shows. The order has every call that has responded, and may have
calls that have not. A call that responded before another was invoked stands before it.

The usual proof gives each call a point between its invocation and its response at which it takes
effect. `Linearization` keeps the order of the calls whose point has passed, and there is one rule
for each thing that can happen: `Linearization.invoke`, `Linearization.point` and
`Linearization.respond`. None of them looks at the time order again.
-/

namespace Framework

variable {ι Op Res S α : Type}

/-! ### Positions in a list -/

/-- `a` stands at some place before `b`. -/
def Before (l : List α) (a b : α) : Prop :=
  [a, b].Sublist l

section Before

variable {l : List α} {a b c : α}

theorem Before.left_mem (h : Before l a b) : a ∈ l :=
  h.subset List.mem_cons_self

theorem Before.append (h : Before l a b) (l' : List α) : Before (l ++ l') a b :=
  h.trans (List.sublist_append_left l l')

theorem before_concat (ha : a ∈ l) (b : α) : Before (l ++ [b]) a b :=
  (List.singleton_sublist.mpr ha).append (List.Sublist.refl [b])

/-- Only the last place is new. -/
theorem before_of_concat (h : Before (l ++ [c]) a b) (hb : b ≠ c) : Before l a b := by
  have hrev : [b, a].Sublist (c :: l.reverse) := by
    rw [← List.reverse_concat]
    exact h.reverse
  cases hrev with
  | cons _ htail => exact List.reverse_sublist.mp htail
  | cons_cons _ _ => exact absurd rfl hb

end Before

/-! ### Histories -/

/-- What callers see. -/
inductive CallEvent (ι Op Res : Type) where
  | invoke (id : ι) (op : Op)
  | respond (id : ι) (res : Res)

/-- A call with its result. -/
structure Served (ι Op Res : Type) where
  id : ι
  op : Op
  res : Res

/-- One call at a time, from one state of the object to another. -/
def Legal (spec : S → Op → S × Res) : S → List (Served ι Op Res) → S → Prop
  | s, [], s' => s' = s
  | s, x :: xs, s' => x.res = (spec s x.op).2 ∧ Legal spec (spec s x.op).1 xs s'

/-- An order of calls that explains a history and leaves the object in the state `s`. -/
structure Linearization (spec : S → Op → S × Res) (s₀ : S) (history : List (CallEvent ι Op Res))
    (order : List (Served ι Op Res)) (s : S) : Prop where
  legal : Legal spec s₀ order s
  once : (order.map Served.id).Nodup
  invoked : ∀ x ∈ order, .invoke x.id x.op ∈ history
  responded : ∀ id res, .respond id res ∈ history → ∃ op, ⟨id, op, res⟩ ∈ order
  realtime : ∀ x ∈ order, ∀ y ∈ order, ∀ res op,
    Before history (.respond x.id res) (.invoke y.id op) → Before order x y

/-- Some order explains the history. -/
def Linearizable (spec : S → Op → S × Res) (s₀ : S) (history : List (CallEvent ι Op Res)) : Prop :=
  ∃ order s, Linearization spec s₀ history order s

section Rules

variable {spec : S → Op → S × Res} {s₀ s : S} {history : List (CallEvent ι Op Res)}
  {order : List (Served ι Op Res)} {id : ι}

theorem Legal.concat {s₁ : S} (id : ι) (op : Op) : ∀ {s₀ : S}, Legal spec s₀ order s₁ →
    Legal spec s₀ (order ++ [⟨id, op, (spec s₁ op).2⟩]) (spec s₁ op).1 := by
  induction order with
  | nil =>
    intro s₀ h
    obtain rfl : s₁ = s₀ := h
    exact ⟨rfl, rfl⟩
  | cons x order ih =>
    intro s₀ h
    exact ⟨h.1, ih h.2⟩

theorem Linearization.nil (spec : S → Op → S × Res) (s₀ : S) :
    Linearization spec s₀ ([] : List (CallEvent ι Op Res)) [] s₀ where
  legal := rfl
  once := List.nodup_nil
  invoked := nofun
  responded := nofun
  realtime := nofun

/-- A call is invoked. Nothing in the order is about it yet. -/
theorem Linearization.invoke (h : Linearization spec s₀ history order s)
    (hnew : ∀ x ∈ order, x.id ≠ id) (op : Op) :
    Linearization spec s₀ (history ++ [.invoke id op]) order s where
  legal := h.legal
  once := h.once
  invoked x hx := List.mem_append_left _ (h.invoked x hx)
  responded id' res hres := by
    rcases List.mem_append.mp hres with hres | hres
    · exact h.responded id' res hres
    · cases List.mem_singleton.mp hres
  realtime x hx y hy res op' hbefore := by
    refine h.realtime x hx y hy res op' (before_of_concat hbefore fun heq => ?_)
    exact hnew y hy (CallEvent.invoke.inj heq).1

/-- A call takes effect. Whatever responded before it was invoked stands in the order already. -/
theorem Linearization.point (h : Linearization spec s₀ history order s) {op : Op}
    (hinv : .invoke id op ∈ history) (hnew : ∀ x ∈ order, x.id ≠ id) :
    Linearization spec s₀ history (order ++ [⟨id, op, (spec s op).2⟩]) (spec s op).1 where
  legal := h.legal.concat id op
  once := by
    rw [List.map_append, List.map_singleton, List.nodup_append]
    refine ⟨h.once, List.nodup_singleton _, fun i hi j hj heq => ?_⟩
    obtain ⟨x, hx, rfl⟩ := List.mem_map.mp hi
    exact hnew x hx (heq.trans (List.mem_singleton.mp hj))
  invoked x hx := by
    rcases List.mem_append.mp hx with hx | hx
    · exact h.invoked x hx
    · rw [List.mem_singleton.mp hx]
      exact hinv
  responded id' res hres := by
    obtain ⟨op', hmem⟩ := h.responded id' res hres
    exact ⟨op', List.mem_append_left _ hmem⟩
  realtime x hx y hy res op' hbefore := by
    have hx' : x ∈ order := by
      -- the new call has not responded
      rcases List.mem_append.mp hx with hx | hx
      · exact hx
      · obtain ⟨_, hmem⟩ := h.responded x.id res hbefore.left_mem
        exact absurd (List.mem_singleton.mp hx ▸ rfl) (hnew _ hmem)
    rcases List.mem_append.mp hy with hy | hy
    · exact (h.realtime x hx' y hy res op' hbefore).append _
    · rw [List.mem_singleton.mp hy]
      exact before_concat hx' _

/-- A call responds with the result that it has in the order. -/
theorem Linearization.respond (h : Linearization spec s₀ history order s) {op : Op} {res : Res}
    (hmem : ⟨id, op, res⟩ ∈ order) :
    Linearization spec s₀ (history ++ [.respond id res]) order s where
  legal := h.legal
  once := h.once
  invoked x hx := List.mem_append_left _ (h.invoked x hx)
  responded id' res' hres := by
    rcases List.mem_append.mp hres with hres | hres
    · exact h.responded id' res' hres
    · obtain ⟨rfl, rfl⟩ := CallEvent.respond.inj (List.mem_singleton.mp hres)
      exact ⟨op, hmem⟩
  realtime x hx y hy res' op' hbefore :=
    h.realtime x hx y hy res' op' (before_of_concat hbefore (by simp))

/-! ### Counting calls -/

/-- Different calls of which the order has all. -/
theorem length_le_countP (p : Served ι Op Res → Bool) {ids : List ι} (hids : ids.Nodup)
    (hmem : ∀ id ∈ ids, ∃ x ∈ order, x.id = id ∧ p x = true) : ids.length ≤ order.countP p := by
  have hsub : ids ⊆ (order.filter p).map Served.id := by
    intro id hid
    obtain ⟨x, hx, rfl, hp⟩ := hmem id hid
    exact List.mem_map_of_mem (List.mem_filter.mpr ⟨hx, hp⟩)
  have hle := (hids.subperm hsub).length_le
  rwa [List.length_map, ← List.countP_eq_length_filter] at hle

/-- Calls that are among some. -/
theorem Linearization.countP_le_length (h : Linearization spec s₀ history order s)
    (p : Served ι Op Res → Bool) {ids : List ι} (hmem : ∀ x ∈ order, p x = true → x.id ∈ ids) :
    order.countP p ≤ ids.length := by
  have hnodup : ((order.filter p).map Served.id).Nodup :=
    h.once.sublist (List.filter_sublist.map _)
  have hsub : (order.filter p).map Served.id ⊆ ids := by
    intro id hid
    obtain ⟨x, hx, rfl⟩ := List.mem_map.mp hid
    obtain ⟨hx, hp⟩ := List.mem_filter.mp hx
    exact hmem x hx hp
  have hle := (hnodup.subperm hsub).length_le
  rwa [List.length_map, ← List.countP_eq_length_filter] at hle

end Rules

end Framework
