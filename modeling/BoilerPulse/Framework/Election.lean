import Mathlib.Data.Finset.Card
import Mathlib.Logic.Function.Basic
import Mathlib.Logic.Relation
import Mathlib.Tactic.Common

/-!
# Elections by majority vote in numbered terms

The abstract election: every node has a current term that only grows, casts at
most one vote per term, and a node is elected for a term by a majority of votes
cast in it. Nothing is said about messages; the state records the votes *ever*
cast and the leaders *ever* elected, so that a fact about the past of a run is a
fact about the state.

* `Majority.inter` — two majorities of one member set share a member.
* `Step` — the four moves: enter a later term, campaign, grant a vote, be
  elected.
* `Later s s'` — what every run preserves: terms grow, votes and leaders are
  written once (`Step.later`).
* `Inv` — votes and leaders are never ahead of their owner's term, and every
  leader has a majority of votes behind it (`Inv.step`).

Because `State.leader` is a function and `Step.elect` only writes an empty slot,
"at most one leader per term" is `Later.leader`; the obligation that the slot is
empty is discharged by `Inv.leader_unique`.
-/

namespace Election

variable {Node : Type}

/-! ### Majorities -/

/-- `Q` is a majority of the member set `M`. -/
def Majority (M Q : Finset Node) : Prop :=
  Q ⊆ M ∧ M.card < 2 * Q.card

/-- Two majorities of one member set share a member. -/
theorem Majority.inter {M Q Q' : Finset Node} (h : Majority M Q) (h' : Majority M Q') :
    ∃ v, v ∈ Q ∧ v ∈ Q' := by
  classical
  -- disjoint, they would together have more members than there are
  by_contra hc
  push Not at hc
  have hdisj : Disjoint Q Q' := Finset.disjoint_left.mpr hc
  have hcard := Finset.card_union_of_disjoint hdisj
  have hle := Finset.card_le_card (Finset.union_subset h.1 h'.1)
  have h1 := h.2
  have h2 := h'.2
  omega

/-! ### The state and its moves -/

/-- Overwrite a two-argument table at one slot. -/
def setAt [DecidableEq Node] {α : Type} (f : Node → ℕ → α) (v : Node) (t : ℕ) (x : α) :
    Node → ℕ → α :=
  fun u r => if u = v ∧ r = t then x else f u r

section SetAt

variable [DecidableEq Node] {α : Type} (f : Node → ℕ → α) (v u : Node) (t r : ℕ) (x : α)

@[simp] theorem setAt_self : setAt f v t x v t = x := by
  simp [setAt]

theorem setAt_of_ne_node {u : Node} (h : u ≠ v) : setAt f v t x u r = f u r := by
  simp [setAt, h]

/-- A slot of an overwritten table is the written one or an old one. -/
theorem setAt_cases : (u = v ∧ r = t ∧ setAt f v t x u r = x) ∨
    (¬ (u = v ∧ r = t) ∧ setAt f v t x u r = f u r) := by
  by_cases h : u = v ∧ r = t
  · exact Or.inl ⟨h.1, h.2, if_pos h⟩
  · exact Or.inr ⟨h, if_neg h⟩

end SetAt

/-- The state of the abstract election. -/
structure State (Node : Type) where
  /-- The current term of each node. -/
  cur : Node → ℕ
  /-- The vote a node has cast in a term, if any. -/
  vote : Node → ℕ → Option Node
  /-- The node ever elected for a term, if any. -/
  leader : ℕ → Option Node

namespace State

variable (s : State Node)

/-- `c` is elected for its current term. -/
def elect (c : Node) : State Node :=
  { s with leader := Function.update s.leader (s.cur c) (some c) }

@[simp] theorem elect_leader_self (c : Node) : (s.elect c).leader (s.cur c) = some c :=
  Function.update_self ..

theorem elect_leader_of_ne (c : Node) {t : ℕ} (h : t ≠ s.cur c) :
    (s.elect c).leader t = s.leader t :=
  Function.update_of_ne h ..

/-- Before anything happened: no votes, no leaders. -/
def initial (Node : Type) : State Node where
  cur _ := 0
  vote _ _ := none
  leader _ := none

variable [DecidableEq Node]

/-- `v` enters the later term `t`. -/
def bump (v : Node) (t : ℕ) : State Node :=
  { s with cur := Function.update s.cur v t }

/-- `v` enters the next term and votes for itself in it. -/
def campaign (v : Node) : State Node :=
  { s with
    cur := Function.update s.cur v (s.cur v + 1)
    vote := setAt s.vote v (s.cur v + 1) (some v) }

/-- `v` votes for `c` in its current term. -/
def grant (v c : Node) : State Node :=
  { s with vote := setAt s.vote v (s.cur v) (some c) }

@[simp] theorem bump_cur_self (v : Node) (t : ℕ) : (s.bump v t).cur v = t :=
  Function.update_self ..

theorem bump_cur_of_ne {v u : Node} (t : ℕ) (h : u ≠ v) : (s.bump v t).cur u = s.cur u :=
  Function.update_of_ne h ..

@[simp] theorem campaign_cur_self (v : Node) : (s.campaign v).cur v = s.cur v + 1 :=
  Function.update_self ..

theorem campaign_cur_of_ne {v u : Node} (h : u ≠ v) : (s.campaign v).cur u = s.cur u :=
  Function.update_of_ne h ..

@[simp] theorem campaign_vote_self (v : Node) : (s.campaign v).vote v (s.cur v + 1) = some v :=
  setAt_self ..

@[simp] theorem grant_vote_self (v c : Node) : (s.grant v c).vote v (s.cur v) = some c :=
  setAt_self ..

end State

variable {M : Finset Node} {s s' s'' : State Node} {v : Node} {t : ℕ}

/-! ### The invariant -/

/-- The invariant of the abstract election. -/
structure Inv (M : Finset Node) (s : State Node) : Prop where
  /-- A vote is cast in a term its voter has entered. -/
  vote_le : ∀ v t c, s.vote v t = some c → t ≤ s.cur v
  /-- A leader has entered the term it leads. -/
  leader_le : ∀ t c, s.leader t = some c → t ≤ s.cur c
  /-- A leader has a majority of votes. -/
  leader_votes : ∀ t c, s.leader t = some c → ∃ Q, Majority M Q ∧ ∀ v ∈ Q, s.vote v t = some c

theorem Inv.initial (M : Finset Node) : Inv M (State.initial Node) where
  vote_le := nofun
  leader_le := nofun
  leader_votes := nofun

/-- A term the voter has not entered yet carries no vote of its. -/
theorem Inv.vote_none (hI : Inv M s) (h : s.cur v < t) : s.vote v t = none := by
  cases hv : s.vote v t with
  | none => rfl
  | some c => exact absurd (hI.vote_le v t c hv) (by omega)

/-- **One leader per term.** A node backed by a majority of votes in a term is the
only node that can have been elected for it. -/
theorem Inv.leader_unique (hI : Inv M s) {c c' : Node} {Q : Finset Node} (hQ : Majority M Q)
    (hv : ∀ v ∈ Q, s.vote v t = some c) (hl : s.leader t = some c') :
    c' = c := by
  -- a voter in both majorities has voted once
  obtain ⟨Q', hQ', hv'⟩ := hI.leader_votes t c' hl
  obtain ⟨v, h1, h2⟩ := hQ.inter hQ'
  have h3 := hv v h1
  rw [hv' v h2] at h3
  exact Option.some.inj h3

/-! ### What every run preserves -/

/-- `s'` is later than `s`: terms have grown, and votes and leaders once written
have not changed. -/
structure Later (s s' : State Node) : Prop where
  cur : ∀ v, s.cur v ≤ s'.cur v
  vote : ∀ v t c, s.vote v t = some c → s'.vote v t = some c
  leader : ∀ t c, s.leader t = some c → s'.leader t = some c

theorem Later.refl (s : State Node) : Later s s :=
  ⟨fun _ => le_rfl, fun _ _ _ h => h, fun _ _ h => h⟩

theorem Later.trans (h₁ : Later s s') (h₂ : Later s' s'') : Later s s'' :=
  ⟨fun v => (h₁.cur v).trans (h₂.cur v), fun v t c h => h₂.vote v t c (h₁.vote v t c h),
    fun t c h => h₂.leader t c (h₁.leader t c h)⟩

/-- The move is `v`'s own: every other node's term, votes and leaderships are as they
were. -/
structure Frame (v : Node) (s s' : State Node) : Prop where
  cur : ∀ u, u ≠ v → s'.cur u = s.cur u
  vote : ∀ u t, u ≠ v → s'.vote u t = s.vote u t
  leader : ∀ u t, u ≠ v → (s'.leader t = some u ↔ s.leader t = some u)

theorem Frame.refl (v : Node) (s : State Node) : Frame v s s :=
  ⟨fun _ _ => rfl, fun _ _ _ => rfl, fun _ _ _ => Iff.rfl⟩

theorem Frame.trans (h₁ : Frame v s s') (h₂ : Frame v s' s'') : Frame v s s'' :=
  ⟨fun u hu => (h₂.cur u hu).trans (h₁.cur u hu),
    fun u t hu => (h₂.vote u t hu).trans (h₁.vote u t hu),
    fun u t hu => (h₂.leader u t hu).trans (h₁.leader u t hu)⟩

theorem Frame.elect (s : State Node) {c : Node} (hn : s.leader (s.cur c) = none) :
    Frame c s (s.elect c) := by
  refine ⟨fun _ _ => rfl, fun _ _ _ => rfl, fun u t hu => ?_⟩
  -- the slot that is written was empty, so nobody else led that term
  by_cases ht : t = s.cur c
  · subst ht
    rw [State.elect_leader_self, hn]
    exact ⟨fun h => absurd (Option.some.inj h).symm hu, nofun⟩
  · rw [State.elect_leader_of_ne s c ht]

variable [DecidableEq Node]

/-- The moves of the abstract election over the member set `M`. -/
inductive Step (M : Finset Node) (s : State Node) : State Node → Prop
  | bump (v : Node) (t : ℕ) (h : s.cur v < t) : Step M s (s.bump v t)
  | campaign (v : Node) : Step M s (s.campaign v)
  | grant (v c : Node)
      (h : s.vote v (s.cur v) = none ∨ s.vote v (s.cur v) = some c) : Step M s (s.grant v c)
  | elect (c : Node) (Q : Finset Node) (hQ : Majority M Q)
      (hv : ∀ v ∈ Q, s.vote v (s.cur c) = some c)
      (hn : s.leader (s.cur c) = none) : Step M s (s.elect c)

/-- Every move leads to a later state. The slots written by `campaign` and
`elect` were empty: the first by `Inv.vote_none`, the second by its guard. -/
theorem Step.later (hI : Inv M s) (h : Step M s s') : Later s s' := by
  cases h with
  | bump v t h =>
    refine ⟨fun u => ?_, fun _ _ _ h => h, fun _ _ h => h⟩
    by_cases hu : u = v
    · subst hu; rw [State.bump_cur_self]; exact h.le
    · rw [State.bump_cur_of_ne _ _ hu]
  | campaign v =>
    -- the vote is written in a term `v` had not entered
    refine ⟨fun u => ?_, fun u t c hv => ?_, fun _ _ h => h⟩
    · by_cases hu : u = v
      · subst hu; rw [State.campaign_cur_self]; exact Nat.le_succ _
      · rw [State.campaign_cur_of_ne _ hu]
    · have hle := hI.vote_le u t c hv
      rcases setAt_cases s.vote v u (s.cur v + 1) t (some v) with ⟨rfl, rfl, -⟩ | ⟨-, h⟩
      · omega
      · exact h.trans hv
  | grant v c h =>
    -- an old vote in the slot is for the same candidate
    refine ⟨fun _ => le_rfl, fun u t c' hv => ?_, fun _ _ h => h⟩
    rcases setAt_cases s.vote v u (s.cur v) t (some c) with ⟨rfl, rfl, h'⟩ | ⟨-, h'⟩
    · rcases h with h | h
      · rw [h] at hv; cases hv
      · rw [h] at hv; exact h'.trans hv
    · exact h'.trans hv
  | elect c Q hQ hv hn =>
    refine ⟨fun _ => le_rfl, fun _ _ _ h => h, fun t c' hl => ?_⟩
    by_cases ht : t = s.cur c
    · subst ht; rw [hn] at hl; cases hl
    · rw [State.elect_leader_of_ne s c ht]; exact hl

/-- **Invariant preservation.** -/
theorem Inv.step (hI : Inv M s) (h : Step M s s') : Inv M s' := by
  have hL := h.later hI
  -- a leader's majority of votes survives every move
  have hvotes : ∀ t c, s.leader t = some c → ∃ Q, Majority M Q ∧ ∀ v ∈ Q, s'.vote v t = some c := by
    intro t c hl
    obtain ⟨Q, hQ, hv⟩ := hI.leader_votes t c hl
    exact ⟨Q, hQ, fun v hvQ => hL.vote v t c (hv v hvQ)⟩
  have hled : ∀ t c, s.leader t = some c → t ≤ s'.cur c :=
    fun t c hl => (hI.leader_le t c hl).trans (hL.cur c)
  have hcast : ∀ v t c, s.vote v t = some c → t ≤ s'.cur v :=
    fun v t c hv => (hI.vote_le v t c hv).trans (hL.cur v)
  cases h with
  | bump v t h => exact ⟨hcast, hled, hvotes⟩
  | campaign v =>
    -- the new vote is in the term `v` has just entered
    refine ⟨fun u t c hv => ?_, hled, hvotes⟩
    rcases setAt_cases s.vote v u (s.cur v + 1) t (some v) with ⟨rfl, rfl, -⟩ | ⟨-, h⟩
    · rw [State.campaign_cur_self]
    · exact hcast u t c (h.symm.trans hv)
  | grant v c h =>
    refine ⟨fun u t c' hv => ?_, hled, hvotes⟩
    rcases setAt_cases s.vote v u (s.cur v) t (some c) with ⟨rfl, rfl, -⟩ | ⟨-, h'⟩
    · exact le_rfl
    · exact hcast u t c' (h'.symm.trans hv)
  | elect c Q hQ hv hn =>
    -- the new leader leads its own term, with the majority of the guard
    refine ⟨hcast, fun t c' hl => ?_, fun t c' hl => ?_⟩
    · by_cases ht : t = s.cur c
      · subst ht
        rw [State.elect_leader_self] at hl
        cases hl
        exact le_rfl
      · rw [State.elect_leader_of_ne s c ht] at hl
        exact hled t c' hl
    · by_cases ht : t = s.cur c
      · subst ht
        rw [State.elect_leader_self] at hl
        cases hl
        exact ⟨Q, hQ, hv⟩
      · rw [State.elect_leader_of_ne s c ht] at hl
        exact hvotes t c' hl

/-- Along a sequence of moves the invariant is kept and the state gets later. -/
theorem Inv.steps (hI : Inv M s) (h : Relation.ReflTransGen (Step M) s s') :
    Inv M s' ∧ Later s s' := by
  induction h with
  | refl => exact ⟨hI, Later.refl s⟩
  | tail _ hstep ih => exact ⟨ih.1.step hstep, ih.2.trans (hstep.later ih.1)⟩

/-! ### Moves of one node -/

/-- `v` enters the term `t` unless it is already there. -/
def State.reach (s : State Node) (v : Node) (t : ℕ) : State Node :=
  if s.cur v < t then s.bump v t else s

theorem State.reach_cur_self (s : State Node) (h : s.cur v ≤ t) :
    (s.reach v t).cur v = t := by
  unfold State.reach
  split
  · exact s.bump_cur_self v t
  · omega

@[simp] theorem State.reach_leader (s : State Node) (v : Node) (t : ℕ) :
    (s.reach v t).leader = s.leader := by
  unfold State.reach; split <;> rfl

theorem State.reach_of_le (s : State Node) (h : t ≤ s.cur v) : s.reach v t = s :=
  if_neg (not_lt.mpr h)

theorem State.reach_steps (s : State Node) (v : Node) (t : ℕ) :
    Relation.ReflTransGen (Step M) s (s.reach v t) := by
  unfold State.reach
  split
  · next h => exact .single (.bump v t h)
  · exact .refl

theorem Frame.reach (s : State Node) (v : Node) (t : ℕ) : Frame v s (s.reach v t) := by
  unfold State.reach
  split
  · exact ⟨fun u hu => s.bump_cur_of_ne t hu, fun _ _ _ => rfl, fun _ _ _ => Iff.rfl⟩
  · exact Frame.refl v s

theorem Frame.campaign (s : State Node) (v : Node) : Frame v s (s.campaign v) :=
  ⟨fun _ hu => s.campaign_cur_of_ne hu, fun _ t hu => setAt_of_ne_node s.vote v _ t _ hu,
    fun _ _ _ => Iff.rfl⟩

theorem Frame.grant (s : State Node) (v c : Node) : Frame v s (s.grant v c) :=
  ⟨fun _ _ => rfl, fun _ t hu => setAt_of_ne_node s.vote v _ t _ hu, fun _ _ _ => Iff.rfl⟩

end Election
