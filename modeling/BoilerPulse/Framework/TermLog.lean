import BoilerPulse.Framework.Election
import Mathlib.Data.List.Basic

/-!
# Replicated logs, seen through the logs of the terms

The abstract log replication that runs on top of `Election`. Besides the log of
each node the state records, for every term `t`, the log `tlog t` of the leader of
`t` as far as that leader has extended it, the log `base t` the leader was elected
with, the log a candidate campaigned with, and for every node and term the
length up to which the node has acknowledged the leader's log.

The one idea of the development is `Consistent`: a log is consistent when each of
its entries, of some term `t`, sits on top of exactly the entries it sits on in
`tlog t`. Log matching is then immediate (`Consistent.matching`), and every
statement about "what some leader once had" is a statement about the prefix
order on lists.

* `Step` — the moves: those of the election, now carrying logs, plus `append` (a
  leader extends its own log) and `accept` (a node takes over a prefix of the log
  of its current term).
* `Later` — what every run preserves (`Step.later`).
* `Shape` — the invariant on terms, logs and acknowledgements that holds without
  any quorum argument (`Shape.step`).

The quorum argument is in `TermLogSafety`.
-/

namespace TermLog

open Election (Majority setAt setAt_cases)

variable {Node Entry : Type} {m : ℕ}

/-! ### Logs -/

section Logs

variable (term : Entry → ℕ)

/-- The term of the last entry of a log, `0` for the empty log. -/
def lastTerm (L : List Entry) : ℕ :=
  (L.getLast?.map term).getD 0

/-- `L` is at least as up to date as `L'`: a later last term, or the same last
term and at least the length. -/
def UpToDate (L L' : List Entry) : Prop :=
  lastTerm term L' < lastTerm term L ∨ (lastTerm term L = lastTerm term L' ∧ L'.length ≤ L.length)

/-- Every entry of `L`, of term `t`, sits on the same entries as in `tlog t`. -/
def Consistent (tlog : ℕ → List Entry) (L : List Entry) : Prop :=
  ∀ i e, L[i]? = some e → L.take (i + 1) <+: tlog (term e)

variable {term} {tlog tlog' : ℕ → List Entry} {L L' : List Entry} {e : Entry} {i : ℕ}

theorem lastTerm_of_getLast? (h : L.getLast? = some e) : lastTerm term L = term e := by
  rw [lastTerm, h]; rfl

theorem getElem?_take_succ (h : L[i]? = some e) :
    (L.take (i + 1)).length = i + 1 := by
  have := (List.getElem?_eq_some_iff.mp h).1
  rw [List.length_take]; omega

/-- Two prefixes of the same length of one list are equal. -/
theorem eq_of_isPrefix_of_length {P Q R : List Entry} (h₁ : P <+: R) (h₂ : Q <+: R)
    (hlen : P.length = Q.length) : P = Q :=
  (List.prefix_of_prefix_length_le h₁ h₂ hlen.le).eq_of_length hlen

theorem getElem?_of_isPrefix (h : L <+: L') (he : L[i]? = some e) :
    L'[i]? = some e := by
  obtain ⟨K, rfl⟩ := h
  rw [List.getElem?_append_left (List.getElem?_eq_some_iff.mp he).1]
  exact he

theorem take_eq_of_isPrefix {k : ℕ} (h : L <+: L') (hk : k ≤ L.length) : L'.take k = L.take k := by
  obtain ⟨K, rfl⟩ := h
  exact List.take_append_of_le_length hk

theorem Consistent.nil : Consistent term tlog [] :=
  nofun

theorem Consistent.mono (hC : Consistent term tlog L) (h : ∀ t, tlog t <+: tlog' t) :
    Consistent term tlog' L :=
  fun i e he => (hC i e he).trans (h _)

theorem Consistent.of_isPrefix (hC : Consistent term tlog L') (h : L <+: L') :
    Consistent term tlog L := by
  intro i e he
  have hi := (List.getElem?_eq_some_iff.mp he).1
  rw [← take_eq_of_isPrefix h (show i + 1 ≤ L.length from hi)]
  exact hC i e (getElem?_of_isPrefix h he)

/-- **Log matching.** Two consistent logs with entries of one term at one position
agree up to that position. -/
theorem Consistent.matching (hC : Consistent term tlog L) (hC' : Consistent term tlog L')
    {e e' : Entry} (he : L[i]? = some e) (he' : L'[i]? = some e') (ht : term e = term e')
    : L.take (i + 1) = L'.take (i + 1) := by
  -- both are prefixes of one term log, and of one length
  have h := hC i e he
  rw [ht] at h
  refine eq_of_isPrefix_of_length h (hC' i e' he') ?_
  rw [getElem?_take_succ he, getElem?_take_succ he']

/-- A consistent log is a prefix of the log of its last term. -/
theorem Consistent.prefix_lastTerm (hC : Consistent term tlog L) (hL : L ≠ []) :
    L <+: tlog (lastTerm term L) := by
  have hpos : 0 < L.length := List.length_pos_iff.mpr hL
  have hlast : L[L.length - 1]? = some (L.getLast hL) := by
    rw [List.getElem?_eq_getElem (by omega), List.getLast_eq_getElem]
  have h := hC _ _ hlast
  rw [show L.length - 1 + 1 = L.length by omega, List.take_length] at h
  rwa [lastTerm_of_getLast? (List.getLast?_eq_some_getLast hL)]

/-- Extending a consistent log by entries of the term whose log it becomes. -/
theorem Consistent.append {t : ℕ} {es : List Entry} (hC : Consistent term tlog L)
    (hes : ∀ e ∈ es, term e = t) (hp : L ++ es <+: tlog t) : Consistent term tlog (L ++ es) := by
  intro i e he
  by_cases hi : i < L.length
  · rw [List.getElem?_append_left hi] at he
    rw [List.take_append_of_le_length (by omega)]
    exact hC i e he
  · -- a new entry: what it sits on is a prefix of the whole
    rw [List.getElem?_append_right (by omega)] at he
    rw [hes e (List.mem_of_getElem? he)]
    exact (List.take_prefix _ _).trans hp

/-- In a consistent log whose term logs are bounded by their terms, the terms do
not decrease. -/
theorem Consistent.sorted (hC : Consistent term tlog L)
    (hb : ∀ t, ∀ e ∈ tlog t, term e ≤ t) {i j : ℕ} (hij : i ≤ j) {e e' : Entry}
    (he : L[i]? = some e) (he' : L[j]? = some e') : term e ≤ term e' := by
  -- the earlier entry is in the term log of the later one
  refine hb _ e ((hC j e' he').subset ?_)
  refine List.mem_of_getElem? (i := i) ?_
  rw [List.getElem?_take_of_lt (by omega)]
  exact he

end Logs

/-! ### The state and its moves -/

/-- The state of the abstract replication. -/
structure State (Node Entry : Type) extends Election.State Node where
  /-- The log of each node. -/
  log : Node → List Entry
  /-- The log a node campaigned with in a term. -/
  cand : Node → ℕ → Option (List Entry)
  /-- The log the leader of a term was elected with. -/
  base : ℕ → List Entry
  /-- The log of the leader of a term, as far as the leader has extended it. -/
  tlog : ℕ → List Entry
  /-- The length up to which a node has acknowledged the log of a term. -/
  ack : Node → ℕ → ℕ

/-- Taking over the first `m` entries of `L` turns the log `l` into `l'`: `l` is kept
when it already has them, and replaced by them otherwise. -/
def Accepts (L : List Entry) (m : ℕ) (l l' : List Entry) : Prop :=
  (L.take m <+: l ∧ l' = l) ∨ (¬ L.take m <+: l ∧ l' = L.take m)

theorem Accepts.isPrefix {L l l' : List Entry} (h : Accepts L m l l') :
    L.take m <+: l' := by
  rcases h with ⟨h, rfl⟩ | ⟨-, rfl⟩
  · exact h
  · exact List.prefix_refl _

/-- What both the old log and `L` start with is kept. -/
theorem Accepts.keeps {L l l' P : List Entry} (h : Accepts L m l l') (hL : P <+: L) (hl : P <+: l)
    : P <+: l' := by
  rcases h with ⟨-, rfl⟩ | ⟨hn, rfl⟩
  · exact hl
  · -- `P` and the accepted part are prefixes of one list, so comparable
    rcases List.prefix_or_prefix_of_prefix hL (List.take_prefix m L) with hP | hP
    · exact hP
    · exact absurd (hP.trans hl) hn

namespace State

variable [DecidableEq Node] (s : State Node Entry)

def bump (v : Node) (t : ℕ) : State Node Entry :=
  { s with toState := s.toState.bump v t }

def campaign (v : Node) : State Node Entry :=
  { s with
    toState := s.toState.campaign v
    cand := setAt s.cand v (s.cur v + 1) (some (s.log v)) }

def grant (v c : Node) : State Node Entry :=
  { s with toState := s.toState.grant v c }

/-- `c` is elected for its current term with the log `L`. -/
def elect (c : Node) (L : List Entry) : State Node Entry :=
  { s with
    toState := s.toState.elect c
    base := Function.update s.base (s.cur c) L
    tlog := Function.update s.tlog (s.cur c) L }

/-- The leader `c` of its current term extends its log by `es`. -/
def append (c : Node) (es : List Entry) : State Node Entry :=
  { s with
    log := Function.update s.log c (s.log c ++ es)
    tlog := Function.update s.tlog (s.cur c) (s.tlog (s.cur c) ++ es)
    ack := setAt s.ack c (s.cur c) (s.tlog (s.cur c) ++ es).length }

/-- `v` takes over the first `m` entries of the log of its current term, its own
log becoming `l`. -/
def accept (v : Node) (m : ℕ) (l : List Entry) : State Node Entry :=
  { s with
    log := Function.update s.log v l
    ack := setAt s.ack v (s.cur v) (max (s.ack v (s.cur v)) m) }

/-- Before anything happened. -/
def initial (Node Entry : Type) : State Node Entry where
  toState := Election.State.initial Node
  log _ := []
  cand _ _ := none
  base _ := []
  tlog _ := []
  ack _ _ := 0

end State

variable {term : Entry → ℕ} {M : Finset Node} {s s' s'' : State Node Entry} {c : Node}

/-! ### What every run preserves -/

/-- `s'` is later than `s`: besides the election, campaign logs and elected logs are
written once, the log of a term only grows, and the acknowledgements of a term a
node has left are final. -/
structure Later (s s' : State Node Entry) : Prop where
  election : Election.Later s.toState s'.toState
  cand : ∀ v t L, s.cand v t = some L → s'.cand v t = some L
  base : ∀ t, s.leader t ≠ none → s'.base t = s.base t
  tlog : ∀ t, s.tlog t <+: s'.tlog t
  ack : ∀ v t, s.ack v t ≤ s'.ack v t
  ack_past : ∀ v t, t < s.cur v → s'.ack v t = s.ack v t

theorem Later.leader_ne (h : Later s s') {t : ℕ} (hl : s.leader t ≠ none) : s'.leader t ≠ none := by
  obtain ⟨c, hc⟩ := Option.ne_none_iff_exists'.mp hl
  rw [h.election.leader t c hc]
  exact Option.some_ne_none c

theorem Later.refl (s : State Node Entry) : Later s s where
  election := Election.Later.refl _
  cand := fun _ _ _ h => h
  base := fun _ _ => rfl
  tlog := fun _ => List.prefix_refl _
  ack := fun _ _ => le_rfl
  ack_past := fun _ _ _ => rfl

theorem Later.trans (h₁ : Later s s') (h₂ : Later s' s'') : Later s s'' where
  election := h₁.election.trans h₂.election
  cand := fun v t L h => h₂.cand v t L (h₁.cand v t L h)
  base := fun t h => (h₂.base t (h₁.leader_ne h)).trans (h₁.base t h)
  tlog := fun t => (h₁.tlog t).trans (h₂.tlog t)
  ack := fun v t => (h₁.ack v t).trans (h₂.ack v t)
  ack_past := fun v t h =>
    (h₂.ack_past v t (h.trans_le (h₁.election.cur v))).trans (h₁.ack_past v t h)

/-! ### The shape invariant -/

/-- The invariant on terms, logs and acknowledgements. -/
structure Shape (term : Entry → ℕ) (M : Finset Node) (s : State Node Entry) : Prop where
  election : Election.Inv M s.toState
  /-- A campaign belongs to a positive term its candidate has entered. -/
  cand_le : ∀ v t L, s.cand v t = some L → 0 < t ∧ t ≤ s.cur v
  /-- A vote goes to a node that campaigned in that term. -/
  vote_cand : ∀ v t c, s.vote v t = some c → ∃ L, s.cand c t = some L
  leader_pos : ∀ t, s.leader t ≠ none → 0 < t
  tlog_none : ∀ t, s.leader t = none → s.tlog t = []
  base_isPrefix : ∀ t, s.base t <+: s.tlog t
  log_terms : ∀ v, ∀ e ∈ s.log v, term e ≤ s.cur v
  cand_terms : ∀ v t L, s.cand v t = some L → ∀ e ∈ L, term e < t
  base_terms : ∀ t, ∀ e ∈ s.base t, term e < t
  tlog_terms : ∀ t, ∀ e ∈ s.tlog t, term e ≤ t
  log_consistent : ∀ v, Consistent term s.tlog (s.log v)
  cand_consistent : ∀ v t L, s.cand v t = some L → Consistent term s.tlog L
  tlog_consistent : ∀ t, Consistent term s.tlog (s.tlog t)
  /-- Only entries the leader has were acknowledged. -/
  ack_le : ∀ v t, s.ack v t ≤ (s.tlog t).length
  /-- Only terms the node has entered were acknowledged. -/
  ack_cur : ∀ v t, 0 < s.ack v t → t ≤ s.cur v

theorem Shape.initial (term : Entry → ℕ) (M : Finset Node) :
    Shape term M (State.initial Node Entry) where
  election := Election.Inv.initial M
  cand_le := nofun
  vote_cand := nofun
  leader_pos := fun _ h => absurd rfl h
  tlog_none := fun _ _ => rfl
  base_isPrefix := fun _ => List.prefix_refl _
  log_terms := nofun
  cand_terms := nofun
  base_terms := nofun
  tlog_terms := nofun
  log_consistent := fun _ => Consistent.nil
  cand_consistent := nofun
  tlog_consistent := fun _ => Consistent.nil
  ack_le := fun _ _ => le_rfl
  ack_cur := nofun

/-- A log with an entry of term `t` shows that `t` had a leader. -/
theorem Shape.leader_of_entry (hI : Shape term M s) {L : List Entry}
    (hC : Consistent term s.tlog L) {i : ℕ} {e : Entry} (he : L[i]? = some e) :
    s.leader (term e) ≠ none := by
  intro hn
  -- otherwise its term log would be empty, and it is not
  have h := hC i e he
  rw [hI.tlog_none _ hn, List.prefix_nil] at h
  have hlen := getElem?_take_succ he
  rw [h] at hlen
  cases hlen

/-! ### Preservation of the shape -/

section Preserve

variable (hI : Shape term M s) (hL : Later s s') {v : Node} {t : ℕ}
include hI hL

theorem Shape.cand_le_of_later {L : List Entry} (h : s.cand v t = some L) :
    0 < t ∧ t ≤ s'.cur v :=
  ⟨(hI.cand_le v t L h).1, (hI.cand_le v t L h).2.trans (hL.election.cur v)⟩

theorem Shape.vote_cand_of_later {v c : Node} (h : s.vote v t = some c) :
    ∃ L, s'.cand c t = some L := by
  obtain ⟨L, hc⟩ := hI.vote_cand v t c h
  exact ⟨L, hL.cand c t L hc⟩

theorem Shape.log_terms_of_later {e : Entry} (he : e ∈ s.log v) : term e ≤ s'.cur v :=
  (hI.log_terms v e he).trans (hL.election.cur v)

theorem Shape.ack_cur_of_later (h : 0 < s.ack v t) : t ≤ s'.cur v :=
  (hI.ack_cur v t h).trans (hL.election.cur v)

theorem Shape.ack_le_of_later (v : Node) (t : ℕ) : s.ack v t ≤ (s'.tlog t).length :=
  (hI.ack_le v t).trans (hL.tlog t).length_le

end Preserve

/-- **An election**: everything about the new term comes from the campaign log `L`. -/
theorem Shape.elect (hI : Shape term M s) {L : List Entry} (hL : Later s (s.elect c L))
    (helec : Election.Inv M (s.elect c L).toState) (hc : s.cand c (s.cur c) = some L) :
    Shape term M (s.elect c L) := by
  have htlog : ∀ t, (s.elect c L).tlog t = if t = s.cur c then L else s.tlog t :=
    fun t => Function.update_apply s.tlog (s.cur c) L t
  have hbase : ∀ t, (s.elect c L).base t = if t = s.cur c then L else s.base t :=
    fun t => Function.update_apply s.base (s.cur c) L t
  refine { hI with
    election := helec, leader_pos := fun t ht => ?_, tlog_none := fun t ht => ?_,
    base_isPrefix := fun t => ?_, base_terms := fun t e he => ?_, tlog_terms := fun t e he => ?_,
    log_consistent := fun v => (hI.log_consistent v).mono hL.tlog,
    cand_consistent := fun v t L h => (hI.cand_consistent v t L h).mono hL.tlog,
    tlog_consistent := fun t => ?_, ack_le := hI.ack_le_of_later hL }
  · -- a campaign belongs to a positive term
    by_cases h : t = s.cur c
    · rw [h]; exact (hI.cand_le c _ L hc).1
    · exact hI.leader_pos t fun hn' =>
        ht ((Election.State.elect_leader_of_ne s.toState c h).trans hn')
  · rw [htlog]
    by_cases h : t = s.cur c
    · subst h
      cases (Election.State.elect_leader_self s.toState c).symm.trans ht
    · rw [if_neg h]
      exact hI.tlog_none t ((Election.State.elect_leader_of_ne s.toState c h).symm.trans ht)
  · rw [htlog, hbase]
    split
    · exact List.prefix_refl _
    · exact hI.base_isPrefix t
  · rw [hbase] at he
    split at he
    · next h => rw [h]; exact hI.cand_terms c _ L hc e he
    · exact hI.base_terms t e he
  · rw [htlog] at he
    split at he
    · next h => rw [h]; exact (hI.cand_terms c _ L hc e he).le
    · exact hI.tlog_terms t e he
  · rw [htlog]
    split
    · exact (hI.cand_consistent c _ L hc).mono hL.tlog
    · exact (hI.tlog_consistent t).mono hL.tlog

/-- The move is `v`'s own: the election, the logs of the other nodes, and the logs of
the terms other nodes lead are as they were. -/
structure Frame (v : Node) (s s' : State Node Entry) : Prop where
  log : ∀ u, u ≠ v → s'.log u = s.log u
  tlog : ∀ u t, u ≠ v → s.leader t = some u → s'.tlog t = s.tlog t

theorem Frame.refl (v : Node) (s : State Node Entry) : Frame v s s :=
  ⟨fun _ _ => rfl, fun _ _ _ _ => rfl⟩

theorem Frame.elect {s : State Node Entry} (L : List Entry) (hn : s.leader (s.cur c) = none)
    : Frame c s (s.elect c L) := by
  -- a term that somebody leads is not the one being won
  refine ⟨fun _ _ => rfl, fun u t _ hl => Function.update_of_ne ?_ ..⟩
  rintro rfl
  cases hn.symm.trans hl

/-! ### The moves -/

variable [DecidableEq Node]

/-- The moves of the abstract replication over the member set `M`. -/
inductive Step (term : Entry → ℕ) (M : Finset Node) (s : State Node Entry) : State Node Entry → Prop
  | bump (v : Node) (t : ℕ) (h : s.cur v < t) : Step term M s (s.bump v t)
  | campaign (v : Node) : Step term M s (s.campaign v)
  | grant (v c : Node) (L : List Entry)
      (h : s.vote v (s.cur v) = none ∨ s.vote v (s.cur v) = some c)
      (hc : s.cand c (s.cur v) = some L) (hup : UpToDate term L (s.log v)) :
      Step term M s (s.grant v c)
  | elect (c : Node) (Q : Finset Node) (L : List Entry) (hQ : Majority M Q)
      (hv : ∀ v ∈ Q, s.vote v (s.cur c) = some c)
      (hc : s.cand c (s.cur c) = some L)
      (hn : s.leader (s.cur c) = none) : Step term M s (s.elect c L)
  | append (c : Node) (es : List Entry) (hl : s.leader (s.cur c) = some c)
      (hlog : s.log c = s.tlog (s.cur c)) (hes : ∀ e ∈ es, term e = s.cur c) :
      Step term M s (s.append c es)
  | accept (v : Node) (m : ℕ) (l : List Entry) (hl : s.leader (s.cur v) ≠ none)
      (hm : m ≤ (s.tlog (s.cur v)).length)
      (ha : Accepts (s.tlog (s.cur v)) m (s.log v) l) : Step term M s (s.accept v m l)

/-- A move of the replication is a move of the election, or leaves it alone. -/
theorem Step.toElection (h : Step term M s s') :
    Relation.ReflTransGen (Election.Step M) s.toState s'.toState := by
  cases h with
  | bump v t h => exact .single (.bump v t h)
  | campaign v => exact .single (.campaign v)
  | grant v c L h _ _ => exact .single (.grant v c h)
  | elect c Q L hQ hv _ hn => exact .single (.elect c Q hQ hv hn)
  | append => exact .refl
  | accept => exact .refl

/-- Every move leads to a later state. -/
theorem Step.later (hI : Shape term M s) (h : Step term M s s') : Later s s' := by
  have helec := (hI.election.steps h.toElection).2
  cases h with
  | bump v t h | grant v c L h hc hup =>
    exact { Later.refl s with election := helec }
  | campaign v =>
    refine { Later.refl s with election := helec, cand := fun u t L hu => ?_ }
    have hle := (hI.cand_le u t L hu).2
    -- the written slot belongs to a term `v` had not entered
    rcases setAt_cases s.cand v u (s.cur v + 1) t (some (s.log v)) with ⟨rfl, rfl, -⟩ | ⟨-, h⟩
    · omega
    · exact h.trans hu
  | elect c Q L hQ hv hc hn =>
    -- the term had no leader, so its base is not yet fixed and its log is empty
    refine { Later.refl s with election := helec, base := fun t ht => ?_, tlog := fun t => ?_ }
    · refine Function.update_of_ne ?_ _ _
      rintro rfl
      exact ht hn
    · by_cases ht : t = s.cur c
      · subst ht; rw [hI.tlog_none _ hn]; exact List.nil_prefix
      · change s.tlog t <+: Function.update s.tlog (s.cur c) L t
        rw [Function.update_of_ne ht]
  | append c es hl hlog hes =>
    -- only the current term of the leader is written, so what is past stays
    refine { Later.refl s with tlog := fun t => ?_, ack := fun u t => ?_, ack_past := ?_ }
    · by_cases ht : t = s.cur c
      · subst ht
        change s.tlog (s.cur c) <+: Function.update s.tlog (s.cur c) _ (s.cur c)
        rw [Function.update_self]
        exact List.prefix_append _ _
      · change s.tlog t <+: Function.update s.tlog (s.cur c) _ t
        rw [Function.update_of_ne ht]
    · rcases setAt_cases s.ack c u (s.cur c) t (s.tlog (s.cur c) ++ es).length with
        ⟨rfl, rfl, h⟩ | ⟨-, h⟩
      · refine le_of_le_of_eq ?_ h.symm
        rw [List.length_append]
        exact (hI.ack_le _ _).trans (Nat.le_add_right _ _)
      · exact h.ge
    · intro u t ht
      refine if_neg ?_
      rintro ⟨rfl, rfl⟩
      exact lt_irrefl _ ht
  | accept v m l hl hm ha =>
    refine { Later.refl s with ack := fun u t => ?_, ack_past := fun u t ht => ?_ }
    · rcases setAt_cases s.ack v u (s.cur v) t (max (s.ack v (s.cur v)) m) with
        ⟨rfl, rfl, h⟩ | ⟨-, h⟩
      · exact le_of_le_of_eq (le_max_left _ _) h.symm
      · exact h.ge
    · refine if_neg ?_
      rintro ⟨rfl, rfl⟩
      exact lt_irrefl _ ht

/-- **A campaign**: its log is the node's own, whose terms are below the new one. -/
theorem Shape.campaign (hI : Shape term M s) {v : Node} (hL : Later s (s.campaign v))
    (helec : Election.Inv M (s.campaign v).toState) : Shape term M (s.campaign v) := by
  refine { hI with
    election := helec, log_terms := fun u e he => hI.log_terms_of_later hL he,
    ack_cur := fun u t h => hI.ack_cur_of_later hL h, cand_le := fun u t L hu => ?_,
    vote_cand := fun u t c hu => ?_, cand_terms := fun u t L hu => ?_,
    cand_consistent := fun u t L hu => ?_ }
  · rcases setAt_cases s.cand v u (s.cur v + 1) t (some (s.log v)) with ⟨rfl, rfl, -⟩ | ⟨-, h⟩
    · exact ⟨Nat.succ_pos _, (Election.State.campaign_cur_self _ _).ge⟩
    · exact hI.cand_le_of_later hL (h.symm.trans hu)
  · rcases setAt_cases s.vote v u (s.cur v + 1) t (some v) with ⟨rfl, rfl, h⟩ | ⟨-, h⟩
    · obtain rfl : u = c := Option.some.inj (h.symm.trans hu)
      exact ⟨s.log u, Election.setAt_self _ _ _ _⟩
    · exact hI.vote_cand_of_later hL (h.symm.trans hu)
  · rcases setAt_cases s.cand v u (s.cur v + 1) t (some (s.log v)) with ⟨rfl, rfl, h⟩ | ⟨-, h⟩
    · obtain rfl := Option.some.inj (h.symm.trans hu)
      exact fun e he => Nat.lt_succ_of_le (hI.log_terms u e he)
    · exact hI.cand_terms u t L (h.symm.trans hu)
  · rcases setAt_cases s.cand v u (s.cur v + 1) t (some (s.log v)) with ⟨rfl, rfl, h⟩ | ⟨-, h⟩
    · obtain rfl := Option.some.inj (h.symm.trans hu)
      exact hI.log_consistent u
    · exact hI.cand_consistent u t L (h.symm.trans hu)

/-- **An extension**: the leader's log and the log of its term are extended alike. -/
theorem Shape.append (hI : Shape term M s) {es : List Entry} (hL : Later s (s.append c es))
    (hl : s.leader (s.cur c) = some c) (hlog : s.log c = s.tlog (s.cur c))
    (hes : ∀ e ∈ es, term e = s.cur c) :
    Shape term M (s.append c es) := by
  have htlog : ∀ t, (s.append c es).tlog t =
      if t = s.cur c then s.tlog (s.cur c) ++ es else s.tlog t :=
    fun t => Function.update_apply s.tlog (s.cur c) _ t
  have hlogs : ∀ v, (s.append c es).log v = if v = c then s.tlog (s.cur c) ++ es else s.log v := by
    intro v
    rw [← hlog]
    exact Function.update_apply s.log c _ v
  have hnew : Consistent term (s.append c es).tlog (s.tlog (s.cur c) ++ es) :=
    ((hI.tlog_consistent _).mono hL.tlog).append hes (by rw [htlog, if_pos rfl])
  have hbound : ∀ e ∈ s.tlog (s.cur c) ++ es, term e ≤ s.cur c := by
    intro e he
    rcases List.mem_append.mp he with he | he
    · exact hI.tlog_terms _ e he
    · exact (hes e he).le
  refine { hI with
    tlog_none := fun t ht => ?_, base_isPrefix := fun t => (hI.base_isPrefix t).trans (hL.tlog t),
    log_terms := fun v => ?_, tlog_terms := fun t => ?_, log_consistent := fun v => ?_,
    cand_consistent := fun v t L h => (hI.cand_consistent v t L h).mono hL.tlog,
    tlog_consistent := fun t => ?_, ack_le := fun v t => ?_, ack_cur := fun v t ht => ?_ }
  · -- the term that is written has a leader
    rw [htlog]
    split
    · next h => rw [h] at ht; cases hl.symm.trans ht
    · exact hI.tlog_none t ht
  · rw [hlogs]
    split
    · next h => rw [h]; exact hbound
    · exact hI.log_terms v
  · rw [htlog]
    split
    · next h => rw [h]; exact hbound
    · exact hI.tlog_terms t
  · rw [hlogs]
    split
    · exact hnew
    · exact (hI.log_consistent v).mono hL.tlog
  · rw [htlog]
    split
    · exact hnew
    · exact (hI.tlog_consistent t).mono hL.tlog
  · rcases setAt_cases s.ack c v (s.cur c) t (s.tlog (s.cur c) ++ es).length with
      ⟨rfl, rfl, h⟩ | ⟨-, h⟩
    · rw [htlog, if_pos rfl]; exact h.le
    · exact h.le.trans (hI.ack_le_of_later hL v t)
  · rcases setAt_cases s.ack c v (s.cur c) t (s.tlog (s.cur c) ++ es).length with
      ⟨rfl, rfl, -⟩ | ⟨-, h⟩
    · exact le_rfl
    · exact hI.ack_cur v t (lt_of_lt_of_eq ht h)

/-- **An acceptance**: the new log is the old one, or part of the log of the term. -/
theorem Shape.accept (hI : Shape term M s) {v : Node} {l : List Entry}
    (hm : m ≤ (s.tlog (s.cur v)).length) (ha : Accepts (s.tlog (s.cur v)) m (s.log v) l) :
    Shape term M (s.accept v m l) := by
  have hlogs : ∀ u, (s.accept v m l).log u = if u = v then l else s.log u :=
    fun u => Function.update_apply s.log v l u
  have hsub : l = s.log v ∨ l <+: s.tlog (s.cur v) := by
    rcases ha with ⟨-, h⟩ | ⟨-, h⟩
    · exact Or.inl h
    · exact Or.inr (h ▸ List.take_prefix _ _)
  -- only the log of `v` and its acknowledgement for the term have changed
  refine { hI with
    log_terms := fun u e he => ?_, log_consistent := fun u => ?_,
    ack_le := fun u t => ?_, ack_cur := fun u t ht => ?_ }
  · rw [hlogs] at he
    split at he
    · next h =>
      subst h
      rcases hsub with h | h
      · exact hI.log_terms u e (h ▸ he)
      · exact hI.tlog_terms _ e (h.subset he)
    · exact hI.log_terms u e he
  · rw [hlogs]
    split
    · rcases hsub with h | h
      · exact h ▸ hI.log_consistent v
      · exact (hI.tlog_consistent _).of_isPrefix h
    · exact hI.log_consistent u
  · rcases setAt_cases s.ack v u (s.cur v) t (max (s.ack v (s.cur v)) m) with
      ⟨rfl, rfl, h⟩ | ⟨-, h⟩
    · exact h.le.trans (max_le (hI.ack_le _ _) hm)
    · exact h.le.trans (hI.ack_le u t)
  · rcases setAt_cases s.ack v u (s.cur v) t (max (s.ack v (s.cur v)) m) with
      ⟨rfl, rfl, -⟩ | ⟨-, h⟩
    · exact le_rfl
    · exact hI.ack_cur u t (lt_of_lt_of_eq ht h)

/-- **Preservation of the shape.** -/
theorem Shape.step (hI : Shape term M s) (h : Step term M s s') : Shape term M s' := by
  have hL := h.later hI
  have helec := (hI.election.steps h.toElection).1
  cases h with
  | bump v t h =>
    exact { hI with
      election := helec, cand_le := fun u t L h => hI.cand_le_of_later hL h,
      log_terms := fun u e he => hI.log_terms_of_later hL he,
      ack_cur := fun u t h => hI.ack_cur_of_later hL h }
  | campaign v => exact hI.campaign hL helec
  | grant v c L h hc hup =>
    -- the guard names the campaign the vote is for
    refine { hI with election := helec, vote_cand := fun u t c' hu => ?_ }
    rcases setAt_cases s.vote v u (s.cur v) t (some c) with ⟨rfl, rfl, h⟩ | ⟨-, h⟩
    · obtain rfl : c = c' := Option.some.inj (h.symm.trans hu)
      exact ⟨L, hc⟩
    · exact hI.vote_cand u t c' (h.symm.trans hu)
  | elect c Q L hQ hv hc hn => exact hI.elect hL helec hc
  | append c es hl hlog hes => exact hI.append hL hl hlog hes
  | accept v m l hl hm ha => exact hI.accept hm ha

/-! ### Moves of one node -/

/-- `v` enters the term `t` unless it is already there. -/
def State.reach (s : State Node Entry) (v : Node) (t : ℕ) : State Node Entry :=
  { s with toState := s.toState.reach v t }

theorem State.reach_steps (s : State Node Entry) (v : Node) (t : ℕ) :
    Relation.ReflTransGen (Step term M) s (s.reach v t) := by
  unfold State.reach Election.State.reach
  split
  · next h => exact .single (.bump v t h)
  · exact .refl

theorem Frame.reach (s : State Node Entry) (v : Node) (t : ℕ) : Frame v s (s.reach v t) :=
  ⟨fun _ _ => rfl, fun _ _ _ _ => rfl⟩

theorem Frame.reach_grant (s : State Node Entry) (v c : Node) (t : ℕ) :
    Frame v s ((s.reach v t).grant v c) :=
  ⟨fun _ _ => rfl, fun _ _ _ _ => rfl⟩

theorem Frame.campaign (s : State Node Entry) (v : Node) : Frame v s (s.campaign v) :=
  ⟨fun _ _ => rfl, fun _ _ _ _ => rfl⟩

theorem Frame.append {s : State Node Entry} (es : List Entry) (hc : s.leader (s.cur c) = some c)
    : Frame c s (s.append c es) := by
  refine ⟨fun u hu => Function.update_of_ne hu .., fun u t hu hl => Function.update_of_ne ?_ ..⟩
  rintro rfl
  exact hu (Option.some.inj (hl.symm.trans hc))

theorem Frame.reach_accept (s : State Node Entry) (v : Node) (t m : ℕ) (l : List Entry) :
    Frame v s ((s.reach v t).accept v m l) :=
  ⟨fun _ hu => Function.update_of_ne hu .., fun _ _ _ _ => rfl⟩

end TermLog
