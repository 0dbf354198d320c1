import BoilerPulse.Framework.TermLog

/-!
# Leader completeness

The quorum argument over `TermLog`. An entry of `tlog t` that its own leader
appended (`Own`) is *committed* once a majority has acknowledged it, and the
theorem is that every later leader was elected with the log up to it
(`Inv.leader_complete`).

The invariant `Inv` carries the argument without mentioning the past. For an owned
entry of term `t` and a later elected term `u` either `u` was elected with the log up
to the entry, or the entry is `Blocked`: a majority has left `t` without
acknowledging it, and never will. Blocked is stable, and contradicts committed. The two other
clauses are what makes this inductive: a node that acknowledged the entry still
holds it unless some later term already lacks it (`retained`), and a vote of such
a node carries it over to the candidate (`vote_safe`).
-/

namespace TermLog

open Election (Majority setAt setAt_cases)

variable {Node Entry : Type} {term : Entry → ℕ} {M : Finset Node}
  {s s' : State Node Entry} {v c : Node} {t u i : ℕ}

/-! ### Owned entries, and the two ways they can go -/

/-- The entry at position `i` of `tlog t` was appended by the leader of `t` itself. -/
def Own (term : Entry → ℕ) (s : State Node Entry) (t i : ℕ) : Prop :=
  ∃ e, (s.tlog t)[i]? = some e ∧ term e = t

/-- The log of term `t` up to and including position `i`. -/
def upTo (s : State Node Entry) (t i : ℕ) : List Entry :=
  (s.tlog t).take (i + 1)

/-- A majority has acknowledged the owned entry at position `i` of `tlog t`. -/
def Committed (term : Entry → ℕ) (M : Finset Node) (s : State Node Entry) (t i : ℕ) : Prop :=
  Own term s t i ∧ ∃ Q, Majority M Q ∧ ∀ v ∈ Q, i < s.ack v t

/-- A majority has left term `t` without acknowledging position `i`. -/
def Blocked (M : Finset Node) (s : State Node Entry) (t i : ℕ) : Prop :=
  ∃ Q, Majority M Q ∧ ∀ v ∈ Q, t < s.cur v ∧ s.ack v t ≤ i

/-- The leader of the later term `u` was elected without the log of `t` up to `i`. -/
def Missing (s : State Node Entry) (t i u : ℕ) : Prop :=
  t < u ∧ s.leader u ≠ none ∧ ¬ upTo s t i <+: s.base u

theorem Own.length (h : Own term s t i) : (upTo s t i).length = i + 1 := by
  obtain ⟨e, he, -⟩ := h
  exact getElem?_take_succ he

theorem Own.lt_length (h : Own term s t i) : i < (s.tlog t).length := by
  obtain ⟨e, he, -⟩ := h
  exact (List.getElem?_eq_some_iff.mp he).1

theorem Own.ne_nil (h : Own term s t i) : upTo s t i ≠ [] := by
  intro hn
  have := h.length
  rw [hn] at this
  cases this

theorem upTo_isPrefix (s : State Node Entry) (t i : ℕ) : upTo s t i <+: s.tlog t :=
  List.take_prefix _ _

/-- The log up to an owned entry ends with the owner's term. -/
theorem Own.getElem? (h : Own term s t i) : ∃ e, (upTo s t i)[i]? = some e ∧ term e = t := by
  obtain ⟨e, he, ht⟩ := h
  refine ⟨e, ?_, ht⟩
  rw [upTo, List.getElem?_take_of_lt (by omega)]
  exact he

theorem Committed.not_blocked (h : Committed term M s t i) : ¬ Blocked M s t i := by
  obtain ⟨-, Q, hQ, hack⟩ := h
  rintro ⟨Q', hQ', hb⟩
  -- the two majorities share a node, which has both acknowledged and not
  obtain ⟨v, h1, h2⟩ := hQ.inter hQ'
  have h3 := hack v h1
  have h4 := (hb v h2).2
  omega

/-! ### Stability -/

section Stable

variable (hL : Later s s')
include hL

theorem Later.own (h : Own term s t i) : Own term s' t i := by
  obtain ⟨e, he, ht⟩ := h
  exact ⟨e, getElem?_of_isPrefix (hL.tlog t) he, ht⟩

theorem Later.upTo (h : i < (s.tlog t).length) : upTo s' t i = upTo s t i :=
  take_eq_of_isPrefix (hL.tlog t) h

/-- An entry owned later, at a position that existed before, was owned before. -/
theorem Later.own_of_lt (h : Own term s' t i) (hi : i < (s.tlog t).length) : Own term s t i := by
  obtain ⟨e, he, ht⟩ := h
  refine ⟨(s.tlog t)[i], List.getElem?_eq_getElem hi, ?_⟩
  have he' := getElem?_of_isPrefix (hL.tlog t) (List.getElem?_eq_getElem hi)
  rw [he'] at he
  rw [Option.some.inj he]
  exact ht

theorem Later.committed (h : Committed term M s t i) : Committed term M s' t i := by
  obtain ⟨ho, Q, hQ, hack⟩ := h
  exact ⟨hL.own ho, Q, hQ, fun v hv => (hack v hv).trans_le (hL.ack v t)⟩

theorem Later.blocked (h : Blocked M s t i) : Blocked M s' t i := by
  obtain ⟨Q, hQ, hb⟩ := h
  refine ⟨Q, hQ, fun v hv => ⟨(hb v hv).1.trans_le (hL.election.cur v), ?_⟩⟩
  rw [hL.ack_past v t (hb v hv).1]
  exact (hb v hv).2

theorem Later.missing (hi : i < (s.tlog t).length) (h : Missing s t i u) : Missing s' t i u := by
  obtain ⟨htu, hl, hn⟩ := h
  refine ⟨htu, hL.leader_ne hl, ?_⟩
  rwa [hL.upTo hi, hL.base u hl]

end Stable

/-! ### The invariant -/

/-- The invariant behind leader completeness. -/
structure Inv (term : Entry → ℕ) (M : Finset Node) (s : State Node Entry) : Prop where
  shape : Shape term M s
  /-- A leader has acknowledged what it appended. -/
  owner_ack : ∀ t c i, s.leader t = some c → Own term s t i → i < s.ack c t
  /-- What a node acknowledged it still has, unless a later term lacks it. -/
  retained : ∀ v t i, Own term s t i → i < s.ack v t →
    upTo s t i <+: s.log v ∨ ∃ u, u ≤ s.cur v ∧ Missing s t i u
  /-- A later leader has the entry, or the entry is blocked. -/
  safe : ∀ t u i, t < u → s.leader u ≠ none → Own term s t i →
    upTo s t i <+: s.base u ∨ Blocked M s t i
  /-- A vote of a node that acknowledged the entry went to a candidate that has it,
  or the entry is blocked. -/
  vote_safe : ∀ v c t u i L, s.vote v u = some c → s.cand c u = some L → t < u →
    Own term s t i → i < s.ack v t → upTo s t i <+: L ∨ Blocked M s t i

theorem Inv.initial (term : Entry → ℕ) (M : Finset Node) :
    Inv term M (State.initial Node Entry) where
  shape := Shape.initial term M
  owner_ack := nofun
  retained := nofun
  safe := fun _ _ _ _ h => absurd rfl h
  vote_safe := nofun

/-- A missing entry is blocked. -/
theorem Inv.blocked_of_missing (hI : Inv term M s) (ho : Own term s t i)
    (h : Missing s t i u) : Blocked M s t i :=
  (hI.safe t u i h.1 h.2.1 ho).resolve_left h.2.2

/-- A later elected log carries the entry into every consistent log that ends in
that later term. -/
theorem Inv.carry_lastTerm (hI : Inv term M s) (ho : Own term s t i) {L : List Entry}
    (hC : Consistent term s.tlog L) (ht : t < lastTerm term L) :
    upTo s t i <+: L ∨ Blocked M s t i := by
  have hne : L ≠ [] := by
    rintro rfl
    cases ht
  have hlast := List.getLast?_eq_some_getLast hne
  have hpre := hC.prefix_lastTerm hne
  rw [lastTerm_of_getLast? hlast] at ht hpre
  -- a term with an entry has a leader
  have hlead : s.leader (term (L.getLast hne)) ≠ none := by
    intro hn
    rw [hI.shape.tlog_none _ hn, List.prefix_nil] at hpre
    exact hne hpre
  rcases hI.safe t _ i ht hlead ho with h | h
  · -- both the entry's log and `L` are prefixes of the later term's log
    have h' := h.trans (hI.shape.base_isPrefix _)
    rcases List.prefix_or_prefix_of_prefix h' hpre with h'' | h''
    · exact Or.inl h''
    · -- `L` cannot be the shorter one: its last entry is of a later term than `t`
      have hmem : L.getLast hne ∈ s.tlog t :=
        (h''.trans (upTo_isPrefix s t i)).subset (List.getLast_mem hne)
      have := hI.shape.tlog_terms t _ hmem
      omega
  · exact Or.inr h

/-- **The up-to-date check carries acknowledged entries.** A log at least as up to
date as one that starts with the entry's log starts with it too, unless the entry
is blocked. -/
theorem Inv.carry_upToDate (hI : Inv term M s) (ho : Own term s t i) {L l : List Entry}
    (hCL : Consistent term s.tlog L) (hCl : Consistent term s.tlog l)
    (hl : upTo s t i <+: l) (hup : UpToDate term L l) :
    upTo s t i <+: L ∨ Blocked M s t i := by
  have hne : l ≠ [] := by
    rintro rfl
    exact ho.ne_nil (List.prefix_nil.mp hl)
  -- terms do not decrease along a log, so `l` ends in `t` or later
  have hlt : t ≤ lastTerm term l := by
    obtain ⟨e, he, rfl⟩ := ho.getElem?
    have hlast := List.getLast?_eq_some_getLast hne
    rw [lastTerm_of_getLast? hlast]
    have hpos : 0 < l.length := List.length_pos_iff.mpr hne
    have he' := getElem?_of_isPrefix hl he
    have hi := (List.getElem?_eq_some_iff.mp he').1
    refine hCl.sorted hI.shape.tlog_terms (show i ≤ l.length - 1 by omega) he' ?_
    rw [List.getElem?_eq_getElem (by omega), List.getLast_eq_getElem]
  rcases hup with h | ⟨heq, hlen⟩
  · exact hI.carry_lastTerm ho hCL (by omega)
  · -- same last term: both are prefixes of one log, and `L` is not the shorter
    left
    have hLne : L ≠ [] := by
      rintro rfl
      exact hne (List.length_eq_zero_iff.mp (Nat.le_zero.mp hlen))
    have h1 := hCL.prefix_lastTerm hLne
    have h2 := hCl.prefix_lastTerm hne
    rw [heq] at h1
    exact hl.trans (List.prefix_of_prefix_length_le h2 h1 hlen)

/-! ### Preservation, clause by clause -/

section Later

variable (hI : Inv term M s) (hL : Later s s')
include hI hL

/-- Leaders elected before the step stay safe, also for the entries the step adds:
those were acknowledged by none of the leader's voters, who have all moved on. -/
theorem Inv.safe_of_later (htu : t < u) (hl : s.leader u ≠ none) (ho : Own term s' t i) :
    upTo s' t i <+: s'.base u ∨ Blocked M s' t i := by
  by_cases hi : i < (s.tlog t).length
  · have ho' := hL.own_of_lt ho hi
    rw [hL.upTo hi, hL.base u hl]
    exact (hI.safe t u i htu hl ho').imp id hL.blocked
  · -- a new entry: the voters of `u` left `t` before it existed
    right
    obtain ⟨c, hc⟩ := Option.ne_none_iff_exists'.mp hl
    obtain ⟨Q, hQ, hv⟩ := hI.shape.election.leader_votes u c hc
    refine ⟨Q, hQ, fun v hvQ => ?_⟩
    have hcur := hI.shape.election.vote_le v u c (hv v hvQ)
    refine ⟨(htu.trans_le hcur).trans_le (hL.election.cur v), ?_⟩
    rw [hL.ack_past v t (htu.trans_le hcur)]
    have := hI.shape.ack_le v t
    omega

/-- Votes cast before the step stay safe. -/
theorem Inv.vote_safe_of_later {L : List Entry} (hv : s.vote v u = some c)
    (hc : s'.cand c u = some L) (htu : t < u) (ho : Own term s' t i) (hi : i < s'.ack v t) :
    upTo s' t i <+: L ∨ Blocked M s' t i := by
  obtain ⟨L', hc'⟩ := hI.shape.vote_cand v u c hv
  obtain rfl : L' = L := Option.some.inj ((hL.cand c u L' hc').symm.trans hc)
  have hcur := hI.shape.election.vote_le v u c hv
  -- the voter has left `t`, so what it acknowledged there is final
  rw [hL.ack_past v t (htu.trans_le hcur)] at hi
  have hlen := hi.trans_le (hI.shape.ack_le v t)
  rw [hL.upTo hlen]
  exact (hI.vote_safe v c t u i L' hv hc' htu (hL.own_of_lt ho hlen) hi).imp id hL.blocked

/-- A node whose log and acknowledgement the step leaves alone keeps what it
acknowledged. -/
theorem Inv.retained_of_later (hlog : s'.log v = s.log v) (hack : s'.ack v t = s.ack v t)
    (ho : Own term s' t i) (hi : i < s'.ack v t) :
    upTo s' t i <+: s'.log v ∨ ∃ u, u ≤ s'.cur v ∧ Missing s' t i u := by
  rw [hack] at hi
  have hlen := hi.trans_le (hI.shape.ack_le v t)
  rw [hlog, hL.upTo hlen]
  refine (hI.retained v t i (hL.own_of_lt ho hlen) hi).imp id ?_
  rintro ⟨u, hu, hm⟩
  exact ⟨u, hu.trans (hL.election.cur v), hL.missing hlen hm⟩

/-- A leader elected before the step has acknowledged its own entries, as long as
the step adds none to its log. -/
theorem Inv.owner_ack_of_later (hl : s.leader t = some c) (htlog : s'.tlog t = s.tlog t)
    (ho : Own term s' t i) : i < s'.ack c t := by
  have hi : i < (s.tlog t).length := htlog ▸ ho.lt_length
  exact (hI.owner_ack t c i hl (hL.own_of_lt ho hi)).trans_le (hL.ack c t)

end Later

/-- The voter's own log carries what it acknowledged to the candidate it votes for. -/
theorem Inv.carry_vote (hI : Inv term M s) (ho : Own term s t i) (hi : i < s.ack v t)
    {L : List Entry} (hC : Consistent term s.tlog L) (hup : UpToDate term L (s.log v)) :
    upTo s t i <+: L ∨ Blocked M s t i := by
  rcases hI.retained v t i ho hi with h | ⟨u, -, h⟩
  · exact hI.carry_upToDate ho hC (hI.shape.log_consistent v) h hup
  · exact Or.inr (hI.blocked_of_missing ho h)

/-- **A move that neither elects nor votes.** -/
theorem Inv.of_later (hI : Inv term M s) (hL : Later s s') (hshape : Shape term M s')
    (hlead : s'.leader = s.leader) (hvote : s'.vote = s.vote)
    (howner : ∀ t c i, s.leader t = some c → Own term s' t i → i < s'.ack c t)
    (hretained : ∀ v t i, Own term s' t i → i < s'.ack v t →
      upTo s' t i <+: s'.log v ∨ ∃ u, u ≤ s'.cur v ∧ Missing s' t i u) : Inv term M s' where
  shape := hshape
  owner_ack t c i hl ho := howner t c i (hlead ▸ hl) ho
  retained := hretained
  safe _ _ _ htu hl ho := hI.safe_of_later hL htu (hlead ▸ hl) ho
  vote_safe _ _ _ _ _ _ hv hc htu ho hi := hI.vote_safe_of_later hL (hvote ▸ hv) hc htu ho hi

/-- **A move of the election that elects nobody.** -/
theorem Inv.of_sameLogs (hI : Inv term M s) (hL : Later s s') (hshape : Shape term M s')
    (hlead : s'.leader = s.leader) (htlog : s'.tlog = s.tlog) (hlog : s'.log = s.log)
    (hack : s'.ack = s.ack)
    (hvote : ∀ v c t u i L, s'.vote v u = some c → s'.cand c u = some L → t < u →
      Own term s' t i → i < s'.ack v t → upTo s' t i <+: L ∨ Blocked M s' t i) :
    Inv term M s' where
  shape := hshape
  owner_ack t _ _ hl ho := hI.owner_ack_of_later hL (hlead ▸ hl) (congrFun htlog t) ho
  retained v t _ ho hi :=
    hI.retained_of_later hL (congrFun hlog v) (congrFun (congrFun hack v) t) ho hi
  safe _ _ _ htu hl ho := hI.safe_of_later hL htu (hlead ▸ hl) ho
  vote_safe := hvote

/-- **An election**: this is where the votes are counted. -/
theorem Inv.elect (hI : Inv term M s) {Q : Finset Node} {K : List Entry}
    (hL : Later s (s.elect c K)) (hshape : Shape term M (s.elect c K)) (hQ : Majority M Q)
    (hv : ∀ v ∈ Q, s.vote v (s.cur c) = some c) (hcand : s.cand c (s.cur c) = some K) :
    Inv term M (s.elect c K) := by
  -- the log the new leader starts from has no entry of the new term
  have hbase : (s.elect c K).tlog (s.cur c) = K := Function.update_self ..
  have hfresh : ∀ i, ¬ Own term (s.elect c K) (s.cur c) i := by
    rintro i ⟨e, he, ht⟩
    rw [hbase] at he
    have := hI.shape.cand_terms c _ K hcand e (List.mem_of_getElem? he)
    omega
  have hother : ∀ {t}, t ≠ s.cur c → (s.elect c K).tlog t = s.tlog t :=
    fun h => Function.update_of_ne h ..
  refine
    { shape := hshape
      owner_ack := fun t d i hl ho => ?_
      retained := fun _ _ _ ho hi => hI.retained_of_later hL rfl rfl ho hi
      safe := fun t u i htu hl ho => ?_
      vote_safe := fun _ _ _ _ _ _ hv hc htu ho hi =>
        hI.vote_safe_of_later hL hv hc htu ho hi }
  · by_cases ht : t = s.cur c
    · subst ht; exact absurd ho (hfresh i)
    · rw [show (s.elect c K).leader t = s.leader t from
        Election.State.elect_leader_of_ne s.toState c ht] at hl
      exact hI.owner_ack_of_later hL hl (hother ht) ho
  · by_cases hu : u = s.cur c
    · -- the term just won
      subst hu
      have hbu : (s.elect c K).base (s.cur c) = K := Function.update_self ..
      rw [hbu]
      have htne : t ≠ s.cur c := by omega
      have ho' : Own term s t i := hL.own_of_lt ho (hother htne ▸ ho.lt_length)
      have hupTo : upTo (s.elect c K) t i = upTo s t i := hL.upTo ho'.lt_length
      -- either some voter acknowledged the entry, or the voters block it
      by_cases hex : ∃ v ∈ Q, i < s.ack v t
      · obtain ⟨v, hvQ, hi⟩ := hex
        rw [hupTo]
        exact (hI.vote_safe v c t _ i K (hv v hvQ) hcand htu ho' hi).imp id hL.blocked
      · push Not at hex
        refine Or.inr ⟨Q, hQ, fun v hvQ => ⟨?_, hex v hvQ⟩⟩
        exact htu.trans_le (hI.shape.election.vote_le v _ c (hv v hvQ))
    · refine hI.safe_of_later hL htu ?_ ho
      rwa [← show (s.elect c K).leader u = s.leader u from
        Election.State.elect_leader_of_ne s.toState c hu]

section Moves

variable [DecidableEq Node]

/-- **A campaign**: the new vote is the candidate's own, for its own log. -/
theorem Inv.campaign (hI : Inv term M s) (hL : Later s (s.campaign v))
    (hshape : Shape term M (s.campaign v)) : Inv term M (s.campaign v) := by
  refine hI.of_sameLogs hL hshape rfl rfl rfl rfl fun w c t u i L hv hc htu ho hi => ?_
  rcases setAt_cases s.vote v w (s.cur v + 1) u (some v) with ⟨rfl, rfl, h⟩ | ⟨-, h⟩
  · obtain rfl : w = c := Option.some.inj (h.symm.trans hv)
    obtain rfl : s.log w = L :=
      Option.some.inj ((Election.setAt_self s.cand w _ _).symm.trans hc)
    rcases hI.retained w t i ho hi with h' | ⟨u, -, h'⟩
    · exact Or.inl h'
    · exact Or.inr (hL.blocked (hI.blocked_of_missing ho h'))
  · exact hI.vote_safe_of_later hL (h.symm.trans hv) hc htu ho hi

/-- **A vote**: the voter has compared its own log with the candidate's. -/
theorem Inv.grant (hI : Inv term M s) {K : List Entry} (hL : Later s (s.grant v c))
    (hshape : Shape term M (s.grant v c)) (hcand : s.cand c (s.cur v) = some K)
    (hup : UpToDate term K (s.log v)) : Inv term M (s.grant v c) := by
  refine hI.of_sameLogs hL hshape rfl rfl rfl rfl fun w d t u i L hv hc htu ho hi => ?_
  rcases setAt_cases s.vote v w (s.cur v) u (some c) with ⟨rfl, rfl, h⟩ | ⟨-, h⟩
  · obtain rfl : c = d := Option.some.inj (h.symm.trans hv)
    obtain rfl : K = L := Option.some.inj (hcand.symm.trans hc)
    exact hI.carry_vote ho hi (hI.shape.cand_consistent c _ K hcand) hup
  · exact hI.vote_safe_of_later hL (h.symm.trans hv) hc htu ho hi

/-- **An extension**: the leader acknowledges its own entries as it appends them. -/
theorem Inv.append (hI : Inv term M s) {es : List Entry} (hL : Later s (s.append c es))
    (hshape : Shape term M (s.append c es)) (hlead : s.leader (s.cur c) = some c)
    (hlog : s.log c = s.tlog (s.cur c)) : Inv term M (s.append c es) := by
  have htlog : (s.append c es).tlog (s.cur c) = s.tlog (s.cur c) ++ es :=
    Function.update_self ..
  have hack : (s.append c es).ack c (s.cur c) = (s.tlog (s.cur c) ++ es).length :=
    Election.setAt_self ..
  have hold : ∀ {v t}, ¬ (v = c ∧ t = s.cur c) → (s.append c es).ack v t = s.ack v t :=
    fun h => if_neg h
  refine hI.of_later hL hshape rfl rfl (fun t d i hl ho => ?_) fun v t i ho hi => ?_
  · by_cases ht : t = s.cur c
    · subst ht
      obtain rfl : c = d := Option.some.inj (hlead.symm.trans hl)
      rw [hack, ← htlog]
      exact ho.lt_length
    · exact hI.owner_ack_of_later hL hl (Function.update_of_ne ht ..) ho
  · by_cases hvt : v = c ∧ t = s.cur c
    · obtain ⟨rfl, rfl⟩ := hvt
      left
      rw [show (s.append v es).log v = (s.append v es).tlog (s.cur v) by
        rw [htlog, ← hlog]; exact Function.update_self ..]
      exact upTo_isPrefix _ _ _
    · by_cases hvc : v = c
      · -- the leader's log only grew
        subst hvc
        rw [hold hvt] at hi
        have hlen := hi.trans_le (hI.shape.ack_le v t)
        rw [hL.upTo hlen, show (s.append v es).log v = s.log v ++ es from
          Function.update_self ..]
        refine (hI.retained v t i (hL.own_of_lt ho hlen) hi).imp
          (fun h => h.trans (List.prefix_append _ _)) ?_
        rintro ⟨u, hu, hm⟩
        exact ⟨u, hu, hL.missing hlen hm⟩
      · exact hI.retained_of_later hL (Function.update_of_ne hvc ..) (hold hvt) ho hi

/-- What a node acknowledged survives its taking over the log of its term. -/
theorem Inv.retained_accept (hI : Inv term M s) {m : ℕ} {l : List Entry}
    (hlead : s.leader (s.cur v) ≠ none) (ha : Accepts (s.tlog (s.cur v)) m (s.log v) l)
    (ho : Own term s t i) (hi : i < (s.accept v m l).ack v t) :
    upTo s t i <+: l ∨ ∃ u, u ≤ s.cur v ∧ Missing s t i u := by
  by_cases ht : t = s.cur v
  · -- an entry of the current term: acknowledged before, or by this very move
    subst ht
    rw [show (s.accept v m l).ack v (s.cur v) = max (s.ack v (s.cur v)) m from
      Election.setAt_self ..] at hi
    left
    rcases lt_max_iff.mp hi with hi | hi
    · rcases hI.retained v _ i ho hi with h | ⟨u, hu, h⟩
      · exact ha.keeps (upTo_isPrefix _ _ _) h
      · -- no term after the current one is missing anything yet
        exact absurd h.1 (by omega)
    · exact (List.take_prefix_take_left (show i + 1 ≤ m from hi)).trans ha.isPrefix
  · rw [show (s.accept v m l).ack v t = s.ack v t from if_neg fun h => ht h.2] at hi
    rcases hI.retained v t i ho hi with h | h
    · -- the current leader has the entry, so taking over its log keeps it
      have htv : t < s.cur v :=
        lt_of_le_of_ne (hI.shape.ack_cur v t (Nat.zero_lt_of_lt hi)) ht
      by_cases hb : upTo s t i <+: s.base (s.cur v)
      · exact Or.inl (ha.keeps (hb.trans (hI.shape.base_isPrefix _)) h)
      · exact Or.inr ⟨s.cur v, le_rfl, htv, hlead, hb⟩
    · exact Or.inr h

/-- **Invariant preservation.** -/
theorem Inv.step (hI : Inv term M s) (h : Step term M s s') : Inv term M s' := by
  have hL := h.later hI.shape
  have hshape := hI.shape.step h
  cases h with
  | bump v t h =>
    exact hI.of_later hL hshape rfl rfl (fun _ _ _ hl ho => hI.owner_ack_of_later hL hl rfl ho)
      fun _ _ _ ho hi => hI.retained_of_later hL rfl rfl ho hi
  | campaign w => exact hI.campaign hL hshape
  | grant w d K h hcand hup => exact hI.grant hL hshape hcand hup
  | elect d Q K hQ hv hcand hn => exact hI.elect hL hshape hQ hv hcand
  | append d es hlead hlog hes => exact hI.append hL hshape hlead hlog
  | accept w m l hlead hm ha =>
    refine hI.of_later hL hshape rfl rfl (fun _ _ _ hl ho => hI.owner_ack_of_later hL hl rfl ho)
      fun v t i ho hi => ?_
    by_cases hvw : v = w
    · subst hvw
      change upTo s t i <+: (s.accept v m l).log v ∨ ∃ u, u ≤ s.cur v ∧ Missing s t i u
      rw [show (s.accept v m l).log v = l from Function.update_self ..]
      exact hI.retained_accept hlead ha ho hi
    · exact hI.retained_of_later hL (Function.update_of_ne hvw ..) (if_neg fun h => hvw h.1) ho hi

/-- Along a sequence of moves the invariant is kept and the state gets later. -/
theorem Inv.steps (hI : Inv term M s) (h : Relation.ReflTransGen (Step term M) s s') :
    Inv term M s' ∧ Later s s' := by
  induction h with
  | refl => exact ⟨hI, Later.refl s⟩
  | tail _ hstep ih => exact ⟨ih.1.step hstep, ih.2.trans (hstep.later ih.1.shape)⟩

end Moves

/-! ### Leader completeness and its consequences -/

/-- **Leader completeness.** Every leader of a later term was elected with the log
up to a committed entry. -/
theorem Inv.leader_complete (hI : Inv term M s) (hc : Committed term M s t i) (htu : t < u)
    (hl : s.leader u ≠ none) : upTo s t i <+: s.base u :=
  (hI.safe t u i htu hl hc.1).resolve_right hc.not_blocked

/-- A committed prefix is a prefix of the log of every term from its own on that has
a leader. -/
theorem Inv.committed_isPrefix (hI : Inv term M s) (hc : Committed term M s t i) (htu : t ≤ u)
    (hl : s.leader u ≠ none) : upTo s t i <+: s.tlog u := by
  rcases htu.lt_or_eq with h | rfl
  · exact (hI.leader_complete hc h hl).trans (hI.shape.base_isPrefix u)
  · exact upTo_isPrefix s t i

theorem Inv.leader_of_own (hI : Inv term M s) (h : Own term s t i) : s.leader t ≠ none := by
  intro hn
  have := h.lt_length
  rw [hI.shape.tlog_none t hn] at this
  cases this

/-- `P` is a prefix of something committed in a term up to `t`, or empty. -/
def CommittedPrefix (term : Entry → ℕ) (M : Finset Node) (s : State Node Entry) (t : ℕ)
    (P : List Entry) : Prop :=
  P = [] ∨ ∃ u i, u ≤ t ∧ Committed term M s u i ∧ P <+: upTo s u i

theorem CommittedPrefix.mono {P P' : List Entry} (h : CommittedPrefix term M s t P)
    (hL : Later s s') (htu : t ≤ u) (hP : P' <+: P) : CommittedPrefix term M s' u P' := by
  rcases h with rfl | ⟨r, i, hr, hc, hpre⟩
  · exact Or.inl (List.prefix_nil.mp hP)
  · refine Or.inr ⟨r, i, hr.trans htu, hL.committed hc, ?_⟩
    rw [hL.upTo hc.1.lt_length]
    exact hP.trans hpre

/-- What is committed by term `t` is in the log of every later term with a leader. -/
theorem CommittedPrefix.prefix_tlog {P : List Entry} (h : CommittedPrefix term M s t P)
    (hI : Inv term M s) (htu : t ≤ u) (hl : s.leader u ≠ none) : P <+: s.tlog u := by
  rcases h with rfl | ⟨r, i, hr, hc, hpre⟩
  · exact List.nil_prefix
  · exact hpre.trans (hI.committed_isPrefix hc (hr.trans htu) hl)

/-- **Committed prefixes are comparable.** -/
theorem CommittedPrefix.comparable {P P' : List Entry} (h : CommittedPrefix term M s t P)
    (h' : CommittedPrefix term M s u P') (hI : Inv term M s) : P <+: P' ∨ P' <+: P := by
  rcases h with rfl | ⟨r, i, hr, hc, hpre⟩
  · exact Or.inl List.nil_prefix
  rcases h' with rfl | ⟨r', i', hr', hc', hpre'⟩
  · exact Or.inr List.nil_prefix
  -- both are prefixes of the log of the later of the two terms
  rcases le_total r r' with hle | hle
  · exact List.prefix_or_prefix_of_prefix
      (hpre.trans (hI.committed_isPrefix hc hle (hI.leader_of_own hc'.1)))
      (hpre'.trans (upTo_isPrefix s r' i'))
  · exact List.prefix_or_prefix_of_prefix (hpre.trans (upTo_isPrefix s r i))
      (hpre'.trans (hI.committed_isPrefix hc' hle (hI.leader_of_own hc.1)))

end TermLog
