import BoilerPulse.Gateway.Attempts
import BoilerPulse.Raft.IndexOrder

/-!
# Gateway: a write is appended at most once, if it is retried with care

`proxyRequest` says `delivered = false` whenever it has no answer other than a 503. That the write
was not carried out does not follow: the handler at the node may have handed the command to
`Propose` before the gateway lost patience, and then `appendLoop` appends it although nobody waits
for it any more. The second attempt appends it again (`retry_appended_twice`).

Three things together make a write one that is in the committed log at most once:

* an attempt is put into `proposeCh` at most once and taken out of it at most once, whatever the
  gateway does (`Ledger`);
* an attempt that is followed by another one of the same request is `Spent`: it is over, and its
  command is neither in a log nor on its way there. Nothing in the source sees to this, and it is
  the first half of the condition under which `write_appended_once` holds;
* a log holds an entry at the entry's own index, so that one entry has one place. This is the order
  of the indices, and what it takes of the deliveries is the other half (`Raft.IndexSafe`). Without
  it a late `AppendEntries` from index 0 puts entries into a compacted log that it has already
  applied, and a write may be applied twice although it was sent once.

`StepCase` says all that the steps of a system do to the account and to the cluster, in four cases.
`Once` is the invariant over the account, and `Raft.IndexRel` the one over the cluster.
-/

namespace BoilerPulse
namespace Gateway

open Framework Storage

/-! ### Keeping account of the attempts -/

theorem Stage.Over.not_early {s : Stage} (h : s.Over) : ¬s.Early := by
  cases s <;> first | exact id | exact h.elim

/-- What can become of an attempt: it does not go back to a stage before `proposeCh`, and does not
start again when it is over. -/
structure Attempt.Becomes (x x' : Attempt) : Prop where
  request : x'.request = x.request
  node : x'.node = x.node
  early : x'.stage.Early → x.stage.Early
  ended : x.stage.Over → x'.stage.Over

namespace Attempt.Becomes

theorem refl (x : Attempt) : x.Becomes x :=
  ⟨rfl, rfl, id, id⟩

theorem of_early {x : Attempt} (stage : Stage) (h : x.stage.Early) :
    x.Becomes { x with stage := stage } :=
  ⟨rfl, rfl, fun _ => h, fun ho => absurd h ho.not_early⟩

theorem of_over {x : Attempt} {stage : Stage} (h : stage.Over) :
    x.Becomes { x with stage := stage } :=
  ⟨rfl, rfl, fun he => absurd he h.not_early, fun _ => h⟩

theorem crash (x : Attempt) : x.Becomes x.crash := by
  unfold Attempt.crash
  split
  · exact refl x
  · exact refl x
  · exact of_over trivial

theorem placed (placed : List (ℕ × Raft.LogEntry)) (a : ℕ) (x : Attempt) :
    x.Becomes (x.placed placed a) := by
  unfold Attempt.placed
  split
  · next hq _ => exact ⟨rfl, rfl, False.elim, fun ho => by rw [hq] at ho; exact ho.elim⟩
  · exact refl x

theorem refused (batch : List ℕ) (a : ℕ) (x : Attempt) : x.Becomes (x.refused batch a) := by
  unfold Attempt.refused
  split
  · exact of_over trivial
  · exact refl x

end Attempt.Becomes

/-- Every attempt of `l` has become the one of `l'`. -/
def Evolves (l l' : List Attempt) : Prop :=
  ∀ a : ℕ, Option.Rel Attempt.Becomes l[a]? l'[a]?

namespace Evolves

variable {l l' : List Attempt} {a : ℕ} {x x' : Attempt}

theorem of_getElem? {f : ℕ → Attempt → Attempt} (hl : ∀ a : ℕ, l'[a]? = l[a]?.map (f a))
    (hf : ∀ (a : ℕ) (x : Attempt), x.Becomes (f a x)) : Evolves l l' := by
  intro a
  rw [hl a]
  cases l[a]? with
  | none => exact .none
  | some x => exact .some (hf a x)

theorem refl (l : List Attempt) : Evolves l l :=
  of_getElem? (f := fun _ x => x) (fun a => by simp) fun _ x => .refl x

theorem set (hx : l[a]? = some x) (h : x.Becomes x') : Evolves l (l.set a x') := by
  intro b
  have hlt := (List.getElem?_eq_some_iff.mp hx).1
  by_cases hb : a = b
  · subst hb
    rw [List.getElem?_set_self hlt, hx]
    exact .some h
  · rw [List.getElem?_set_ne hb]
    exact refl l b

theorem get (h : Evolves l l') (hx : l[a]? = some x) : ∃ x', l'[a]? = some x' ∧ x.Becomes x' := by
  have ha := h a
  rw [hx] at ha
  cases hx' : l'[a]? with
  | none => rw [hx'] at ha; exact nomatch ha
  | some x' =>
    rw [hx'] at ha
    cases ha with
    | some hb => exact ⟨x', rfl, hb⟩

theorem get_of (h : Evolves l l') (hx : l'[a]? = some x') : ∃ x, l[a]? = some x ∧ x.Becomes x' := by
  have ha := h a
  rw [hx] at ha
  cases hx' : l[a]? with
  | none => rw [hx'] at ha; exact nomatch ha
  | some x =>
    rw [hx'] at ha
    cases ha with
    | some hb => exact ⟨x, rfl, hb⟩

end Evolves

/-- **The account**: an attempt in a channel or in the log is past the point where it could get into
a channel, it is in one of the two only, and there once. -/
structure Ledger (l : List Attempt) (q : String → List ℕ) (m : List ℕ) : Prop where
  queued : ∀ v, ∀ a ∈ q v, ∃ x, l[a]? = some x ∧ x.node = v ∧ ¬x.stage.Early
  made : ∀ a ∈ m, ∃ x, l[a]? = some x ∧ ¬x.stage.Early
  nodup : ∀ v, (m ++ q v).Nodup

/-- The attempt is over, and neither in a channel nor in the log. -/
def Spent (l : List Attempt) (q : String → List ℕ) (m : List ℕ) (a : ℕ) : Prop :=
  a ∉ m ∧ ∀ x ∈ l[a]?, x.stage.Over ∧ a ∉ q x.node

instance Spent.decidable (l : List Attempt) (q : String → List ℕ) (m : List ℕ) (a : ℕ) :
    Decidable (Spent l q m a) :=
  inferInstanceAs (Decidable (_ ∧ ∀ x ∈ l[a]?, _ ∧ _))

/-- What is left of one channel is left of all. -/
theorem update_sublist {q : String → List ℕ} {v : String} {l : List ℕ} (h : l.Sublist (q v))
    (u : String) : (Function.update q v l u).Sublist (q u) := by
  by_cases hu : u = v
  · subst hu
    rw [Function.update_self]
    exact h
  · rw [Function.update_of_ne hu]

section Account

variable {l l' : List Attempt} {q q' : String → List ℕ} {m b rest : List ℕ} {a : ℕ} {v : String}
  {x : Attempt}

/-- Attempts move on, and some may drop out of the channels. -/
theorem Ledger.evolve (h : Ledger l q m) (hl : Evolves l l') (hq : ∀ v, (q' v).Sublist (q v)) :
    Ledger l' q' m where
  queued v a ha := by
    obtain ⟨x, hx, hv, hearly⟩ := h.queued v a ((hq v).subset ha)
    obtain ⟨x', hx', hb⟩ := hl.get hx
    exact ⟨x', hx', hb.node.trans hv, fun he => hearly (hb.early he)⟩
  made a ha := by
    obtain ⟨x, hx, hearly⟩ := h.made a ha
    obtain ⟨x', hx', hb⟩ := hl.get hx
    exact ⟨x', hx', fun he => hearly (hb.early he)⟩
  nodup v := (h.nodup v).sublist ((List.Sublist.refl m).append (hq v))

/-- A new attempt. -/
theorem Ledger.add (h : Ledger l q m) (x : Attempt) : Ledger (l ++ [x]) q m where
  queued v a ha := by
    obtain ⟨y, hy, hv⟩ := h.queued v a ha
    exact ⟨y, List.getElem?_append_left (List.getElem?_eq_some_iff.mp hy).1 ▸ hy, hv⟩
  made a ha := by
    obtain ⟨y, hy, hearly⟩ := h.made a ha
    exact ⟨y, List.getElem?_append_left (List.getElem?_eq_some_iff.mp hy).1 ▸ hy, hearly⟩
  nodup := h.nodup

/-- An attempt that is early is in no channel and not in the log. -/
theorem Ledger.not_mem_of_early (h : Ledger l q m) (hx : l[a]? = some x) (he : x.stage.Early)
    (v : String) : a ∉ m ++ q v := by
  intro ha
  obtain ⟨y, hy, hearly⟩ : ∃ y, l[a]? = some y ∧ ¬y.stage.Early := by
    rcases List.mem_append.mp ha with ha | ha
    · exact h.made a ha
    · obtain ⟨y, hy, -, hearly⟩ := h.queued v a ha
      exact ⟨y, hy, hearly⟩
  rw [hx] at hy
  cases hy
  exact hearly he

/-- An attempt gets into the channel of its node. -/
theorem Ledger.enqueue (h : Ledger l q m) (hx : l[a]? = some x) (he : x.stage.Early) :
    Ledger (l.set a { x with stage := .queued })
      (Function.update q x.node (q x.node ++ [a])) m := by
  have hset : (l.set a { x with stage := .queued })[a]? = some { x with stage := .queued } :=
    List.getElem?_set_self (List.getElem?_eq_some_iff.mp hx).1
  have hold := h.evolve (.set hx (.of_early .queued he)) fun v => .refl (q v)
  refine ⟨fun v b hb => ?_, hold.made, fun v => ?_⟩
  · by_cases hv : v = x.node
    · subst hv
      rw [Function.update_self] at hb
      rcases List.mem_append.mp hb with hb | hb
      · exact hold.queued _ b hb
      · obtain rfl := List.mem_singleton.mp hb
        exact ⟨_, hset, rfl, id⟩
    · rw [Function.update_of_ne hv] at hb
      exact hold.queued v b hb
  · by_cases hv : v = x.node
    · subst hv
      rw [Function.update_self, ← List.append_assoc, ← List.concat_eq_append]
      exact (h.nodup _).concat (h.not_mem_of_early hx he _)
    · rw [Function.update_of_ne hv]
      exact h.nodup v

/-- A batch is taken off a channel and made into entries. -/
theorem Ledger.take (h : Ledger l q m) (hv : q v = b ++ rest) :
    Ledger l (Function.update q v rest) (m ++ b) := by
  have hsub := update_sublist (hv ▸ List.sublist_append_right b rest : rest.Sublist (q v))
  have hold := h.evolve (Evolves.refl l) hsub
  have hmem : ∀ a ∈ b, a ∈ q v := fun a ha => hv ▸ List.mem_append_left rest ha
  refine ⟨hold.queued, fun a ha => ?_, fun u => ?_⟩
  · rcases List.mem_append.mp ha with ha | ha
    · exact h.made a ha
    · obtain ⟨x, hx, -, hearly⟩ := h.queued v a (hmem a ha)
      exact ⟨x, hx, hearly⟩
  · have hnodup := h.nodup v
    rw [hv, ← List.append_assoc] at hnodup
    by_cases huv : u = v
    · subst huv
      rw [Function.update_self]
      exact hnodup
    · -- what was in the channel of `v` is in no other
      rw [Function.update_of_ne huv]
      obtain ⟨-, hu, hdisj⟩ := List.nodup_append.mp (h.nodup u)
      refine List.nodup_append.mpr ⟨(List.nodup_append.mp hnodup).1, hu, fun a ha c hc hac => ?_⟩
      subst hac
      rcases List.mem_append.mp ha with ha | ha
      · exact hdisj a ha a hc rfl
      · obtain ⟨x, hx, hnode, -⟩ := h.queued v a (hmem a ha)
        obtain ⟨y, hy, hnode', -⟩ := h.queued u a hc
        rw [hx] at hy
        cases hy
        exact huv (hnode'.symm.trans hnode)

theorem Spent.evolve (h : Spent l q m a) (hl : Evolves l l') (hq : ∀ v, (q' v).Sublist (q v)) :
    Spent l' q' m a := by
  refine ⟨h.1, fun x' hx' => ?_⟩
  obtain ⟨x, hx, hb⟩ := hl.get_of hx'
  obtain ⟨hover, hnot⟩ := h.2 x hx
  refine ⟨hb.ended hover, fun ha => hnot ?_⟩
  rw [hb.node] at ha
  exact (hq x.node).subset ha

theorem Spent.add (h : Spent l q m a) (ha : a < l.length) (x : Attempt) :
    Spent (l ++ [x]) q m a := by
  refine ⟨h.1, fun y hy => h.2 y ?_⟩
  rw [List.getElem?_append_left ha] at hy
  exact hy

/-- Another attempt gets into a channel. -/
theorem Spent.enqueue {c : ℕ} (h : Spent l q m a) (hx : l[c]? = some x) (he : x.stage.Early) :
    Spent (l.set c { x with stage := .queued })
      (Function.update q x.node (q x.node ++ [c])) m a := by
  have hne : c ≠ a := by
    rintro rfl
    exact (h.2 x hx).1.not_early he
  refine ⟨h.1, fun y hy => ?_⟩
  rw [List.getElem?_set_ne hne] at hy
  obtain ⟨hover, hnot⟩ := h.2 y hy
  refine ⟨hover, fun ha => ?_⟩
  by_cases hv : y.node = x.node
  · rw [hv, Function.update_self] at ha
    rcases List.mem_append.mp ha with ha | ha
    · exact hnot (hv ▸ ha)
    · exact hne (List.mem_singleton.mp ha).symm
  · rw [Function.update_of_ne hv] at ha
    exact hnot ha

theorem Spent.take (h : Spent l q m a) (hL : Ledger l q m) (hv : q v = b ++ rest) :
    Spent l (Function.update q v rest) (m ++ b) a := by
  have hsub := update_sublist (hv ▸ List.sublist_append_right b rest : rest.Sublist (q v))
  have hold := h.evolve (Evolves.refl l) hsub
  refine ⟨fun ha => ?_, hold.2⟩
  rcases List.mem_append.mp ha with ha | ha
  · exact h.1 ha
  · have hin : a ∈ q v := hv ▸ List.mem_append_left rest ha
    obtain ⟨x, hx, rfl, -⟩ := hL.queued v a hin
    exact (h.2 x hx).2 hin

end Account

/-! ### What a step does to the account -/

/-- The attempts that a request in this phase may have made. -/
def Phase.Owns (a : ℕ) : Phase → Prop
  | .looking first _ | .refreshing first _ => first = some a
  | .proxying none b => b = a
  | .proxying (some _) _ | .done _ => True

/-- The first attempt of a request that is about to be sent again. -/
def Phase.retries : Phase → Option ℕ
  | .looking first _ => first
  | _ => none

/-- The requests go on without a new attempt. -/
structure PhasesKept (l l' : List Handling) : Prop where
  length : l.length ≤ l'.length
  owns : ∀ i < l.length, ∀ h' ∈ l'[i]?, ∃ h ∈ l[i]?, ∀ a, h.phase.Owns a → h'.phase.Owns a

namespace PhasesKept

variable {l : List Handling}

theorem refl (l : List Handling) : PhasesKept l l :=
  ⟨le_rfl, fun _ _ h' hh => ⟨h', hh, fun _ ha => ha⟩⟩

theorem set {i : ℕ} {h : Handling} {p : Phase} (hi : l[i]? = some h)
    (hp : ∀ a, h.phase.Owns a → p.Owns a) : PhasesKept l (l.set i { h with phase := p }) := by
  refine ⟨(List.length_set ..).ge, fun j hj h' hh => ?_⟩
  by_cases hij : i = j
  · subst hij
    rw [List.getElem?_set_self hj] at hh
    cases hh
    exact ⟨h, hi, hp⟩
  · rw [List.getElem?_set_ne hij] at hh
    exact ⟨h', hh, fun _ ha => ha⟩

theorem append (l : List Handling) (h : Handling) : PhasesKept l (l ++ [h]) := by
  refine ⟨by rw [List.length_append]; exact Nat.le_add_right _ _, fun j hj h' hh => ?_⟩
  rw [List.getElem?_append_left hj] at hh
  exact ⟨h', hh, fun _ ha => ha⟩

end PhasesKept

namespace System

variable {σ : Type} {d : Deployment σ} {s s' : System σ} {e : Move σ} {h : Handling}

/-- What a move does to the cluster: one step of it, or nothing. -/
def MovesCluster (d : Deployment σ) (s : System σ) (e : Move σ) (c : Raft.Cluster σ) : Prop :=
  c = s.cluster ∨ ∃ a, s.cluster.step d.machine d.config a = some c ∧
    (e = .raft a ∨ ∃ v batch, a = .propose v batch)

/-- Everything a step can do to the requests, the attempts and the cluster. -/
inductive StepCase (d : Deployment σ) (s : System σ) : Move σ → System σ → Prop
  /-- No proposal is put anywhere. -/
  | quiet (e : Move σ) (s' : System σ) (hl : Evolves s.attempts s'.attempts)
      (hq : ∀ v, (s'.owners v).Sublist (s.owners v)) (hm : s'.made = s.made)
      (hr : PhasesKept s.requests s'.requests) (hc : MovesCluster d s e s'.cluster) :
      StepCase d s e s'
  /-- An attempt puts its command into the channel. -/
  | enqueue (e : Move σ) (a : ℕ) (x : Attempt) (s' : System σ) (hx : s.attempts[a]? = some x)
      (he : x.stage.Early) (hl : s'.attempts = s.attempts.set a { x with stage := .queued })
      (hq : s'.owners = Function.update s.owners x.node (s.owners x.node ++ [a]))
      (hm : s'.made = s.made) (hr : s'.requests = s.requests) (hc : s'.cluster = s.cluster) :
      StepCase d s e s'
  /-- A batch is appended. -/
  | take (e : Move σ) (v : String) (placed : List (ℕ × Raft.LogEntry)) (rest : List ℕ)
      (s' : System σ) (hl : Evolves s.attempts s'.attempts)
      (hv : s.owners v = placed.map Prod.fst ++ rest)
      (hq : s'.owners = Function.update s.owners v rest) (hm : s'.made = s.made ++ placed)
      (hr : s'.requests = s.requests) (hc : MovesCluster d s e s'.cluster) : StepCase d s e s'
  /-- The gateway sends a request, for the first or the second time. -/
  | send (i : ℕ) (h : Handling) (first : Option ℕ) (refreshed : Bool)
      (hi : s.requests[i]? = some h) (hp : h.phase = .looking first refreshed)
      (hlead : s.leaderID ≠ "") : StepCase d s (.gateway i .look) (s.send i h first s.leaderID)

/-- The attempts in the channels, after an edit of one. -/
theorem owners_update (s : System σ) (v : String) (ps : List Pending) :
    owners { s with proposeCh := Function.update s.proposeCh v ps } =
      Function.update s.owners v (ps.filterMap Pending.owner) := by
  funext u
  change (Function.update s.proposeCh v ps u).filterMap Pending.owner = _
  by_cases hu : u = v
  · subst hu
    rw [Function.update_self, Function.update_self]
  · rw [Function.update_of_ne hu, Function.update_of_ne hu]
    rfl

/-- An attempt moves on by itself. -/
theorem StepCase.of_setStage (e : Move σ) {a : ℕ} {x : Attempt} {stage : Stage}
    (hx : s.attempts[a]? = some x) (hs : some (s.setStage a x stage) = some s')
    (hb : x.Becomes { x with stage := stage }) : StepCase d s e s' := by
  cases hs
  exact .quiet e _ (.set hx hb) (fun _ => .refl _) rfl (.refl _) (.inl rfl)

/-- A request moves on without a new attempt. -/
theorem StepCase.of_setPhase (e : Move σ) {i : ℕ} {p : Phase} {leaderID : String}
    (hi : s.requests[i]? = some h)
    (hs : some { s.setPhase i h p with leaderID := leaderID } = some s')
    (hp : ∀ a, h.phase.Owns a → p.Owns a) : StepCase d s e s' := by
  cases hs
  exact .quiet e _ (.refl _) (fun _ => .refl _) rfl (.set hi hp) (.inl rfl)

theorem StepCase.of_undelivered (e : Move σ) {i a : ℕ} {first : Option ℕ}
    (hi : s.requests[i]? = some h) (hs : some (s.undelivered d i h a first) = some s')
    (hp : h.phase = .proxying first a) : StepCase d s e s' := by
  cases first with
  | none =>
    refine .of_setPhase e hi hs fun b hb => ?_
    rw [hp] at hb
    exact congrArg some hb
  | some a₀ => exact .of_setPhase e hi hs fun _ _ => trivial

/-- The entries of a batch belong to the attempts in it. -/
theorem place_fst {batch : List Pending} : ∀ {entries : List Raft.LogEntry},
    batch.length = entries.length →
      (place batch entries).map Prod.fst = batch.filterMap Pending.owner := by
  induction batch with
  | nil => intro entries _; rfl
  | cons p batch ih =>
    intro entries hlen
    cases entries with
    | nil => cases hlen
    | cons e entries =>
      have hrest := ih (Nat.succ.inj hlen)
      unfold place at hrest ⊢
      rw [List.zip_cons_cons]
      cases hp : p.owner with
      | none =>
        rw [List.filterMap_cons_none (by simp [hp]), List.filterMap_cons_none hp]
        exact hrest
      | some a =>
        rw [List.filterMap_cons_some (b := (a, e)) (by simp [hp]), List.filterMap_cons_some hp]
        exact congrArg (a :: ·) hrest

theorem length_batchEntries (t : ℕ) (cmds : List Bytes) :
    ∀ k, (Raft.Node.batchEntries t k cmds).length = cmds.length := by
  induction cmds with
  | nil => exact fun _ => rfl
  | cons cmd cmds ih => exact fun k => congrArg (· + 1) (ih (k + 1))

theorem stepRaft_cases {a : Raft.Action σ} (hs : s.stepRaft d a = some s') :
    StepCase d s (.raft a) s' := by
  cases a with
  | propose v batch => cases hs
  | restart v sm =>
    obtain ⟨c, hc, rfl⟩ := Option.map_eq_some_iff.mp hs
    refine .quiet _ _ (.of_getElem? (f := fun _ x => if x.node = v then x.crash else x)
      (fun a => List.getElem?_map) fun _ x => ?_) (fun u => ?_) rfl (.refl _)
      (.inr ⟨_, hc, .inl rfl⟩)
    · split
      · exact .crash x
      · exact .refl x
    · change (owners { s with proposeCh := Function.update s.proposeCh v [] } u).Sublist _
      rw [owners_update]
      exact update_sublist (List.nil_sublist _) u
  | _ =>
    obtain ⟨c, hc, rfl⟩ := Option.map_eq_some_iff.mp hs
    exact .quiet _ _ (.refl _) (fun _ => .refl _) rfl (.refl _) (.inr ⟨_, hc, .inl rfl⟩)

theorem append_cases {v : String} {k : ℕ} (hs : s.append d v k = some s') :
    StepCase d s (.append v k) s' := by
  unfold append at hs
  dsimp only at hs
  split at hs
  · cases hs
  · have hsplit : s.owners v = ((s.proposeCh v).take k).filterMap Pending.owner ++
        ((s.proposeCh v).drop k).filterMap Pending.owner := by
      rw [← List.filterMap_append, List.take_append_drop]
      rfl
    split at hs
    · -- not the leader: the batch is gone
      cases hs
      refine .quiet _ _ (.of_getElem? (fun a => List.getElem?_mapIdx) (.refused _)) (fun u => ?_)
        rfl (.refl _) (.inl rfl)
      change (owners { s with proposeCh := Function.update s.proposeCh v _ } u).Sublist _
      rw [owners_update]
      refine update_sublist ?_ u
      rw [hsplit]
      exact List.sublist_append_right _ _
    · next c hc =>
      cases hs
      refine .take _ v _ _ _ (.of_getElem? (fun a => List.getElem?_mapIdx) (.placed _)) ?_
        (s.owners_update v _) rfl rfl (.inr ⟨_, hc, .inr ⟨v, _, rfl⟩⟩)
      rw [place_fst, hsplit]
      rw [length_batchEntries, List.length_map]

theorem stepNode_cases {a : ℕ} {x : Attempt} {m : NodeMove} (hx : s.attempts[a]? = some x)
    (hs : s.stepNode d a x m = some s') : StepCase d s (.node a m) s' := by
  cases m with
  | arrive generated now =>
    simp only [stepNode] at hs
    split at hs
    · next hst =>
      have he : x.stage.Early := by rw [hst]; trivial
      split at hs
      · exact .of_setStage _ hx hs (.of_early _ he)
      · exact .of_setStage _ hx hs (.of_early _ he)
    · cases hs
  | lose =>
    simp only [stepNode] at hs
    split at hs
    · exact .of_setStage _ hx hs (.of_over trivial)
    · cases hs
  | status | isLeader =>
    simp only [stepNode] at hs
    split at hs
    · next cmd hst =>
      have he : x.stage.Early := by rw [hst]; trivial
      split at hs
      · exact .of_setStage _ hx hs (.of_early _ he)
      · exact .of_setStage _ hx hs (.of_early _ he)
    · cases hs
  | enqueue =>
    simp only [stepNode] at hs
    split at hs
    · next cmd hst =>
      have he : x.stage.Early := by rw [hst]; trivial
      -- the one move that puts something into a channel
      unfold enqueue at hs
      split at hs
      · cases hs
        refine .enqueue _ a x _ hx he rfl ?_ rfl rfl rfl
        refine (owners_update _ _ _).trans ?_
        rw [List.filterMap_append]
        rfl
      · cases hs
    · cases hs
  -- whatever the handler was doing, it is over
  | cancel =>
    simp only [stepNode] at hs
    split at hs
    · exact .of_setStage _ hx hs (.of_over trivial)
    · exact .of_setStage _ hx hs (.of_over trivial)
    · exact .of_setStage _ hx hs (.of_over trivial)
    · cases hs
  | poll =>
    simp only [stepNode] at hs
    split at hs
    · obtain ⟨verdict, -, hs⟩ := Option.map_eq_some_iff.mp hs
      exact .of_setStage _ hx (congrArg some hs) (.of_over trivial)
    · cases hs

theorem stepGateway_cases {i : ℕ} {m : GatewayMove} (hi : s.requests[i]? = some h)
    (hs : s.stepGateway d i h m = some s') : StepCase d s (.gateway i m) s' := by
  cases m with
  | look =>
    simp only [stepGateway] at hs
    split at hs
    · next first refreshed hp =>
      split at hs
      · next hlead =>
        cases hs
        -- the only move that makes an attempt
        exact .send i h first refreshed hi hp hlead
      · split at hs
        · exact .of_setPhase _ hi hs fun _ _ => trivial
        · refine .of_setPhase _ hi hs fun a ha => ?_
          rw [hp] at ha
          exact ha
    · cases hs
  | poll answers =>
    simp only [stepGateway] at hs
    split at hs
    · next first r hp =>
      obtain ⟨r', -, hs⟩ := Option.map_eq_some_iff.mp hs
      refine .of_setPhase _ hi (congrArg some hs) fun a ha => ?_
      rw [hp] at ha
      exact ha
    · cases hs
  | publish =>
    simp only [stepGateway] at hs
    split at hs
    · next first r hp =>
      split at hs
      · refine .of_setPhase _ hi hs fun a ha => ?_
        rw [hp] at ha
        exact ha
      · cases hs
    · cases hs
  | receive =>
    simp only [stepGateway] at hs
    split at hs
    · next first a hp =>
      split at hs
      · split at hs
        · exact .of_undelivered _ hi hs hp
        · exact .of_setPhase _ hi hs fun _ _ => trivial
      · cases hs
    · cases hs
  | giveUp =>
    simp only [stepGateway] at hs
    split at hs
    · next first a hp =>
      exact .of_undelivered _ hi hs hp
    · cases hs

/-- **What a step does** to the requests, the attempts and the cluster. -/
theorem step_cases (hs : s.step d e = some s') : StepCase d s e s' := by
  cases e with
  | raft a => exact stepRaft_cases hs
  | append v k => exact append_cases hs
  | direct v command =>
    change s.enqueue v _ = some s' at hs
    unfold enqueue at hs
    split at hs
    · cases hs
      refine .quiet _ _ (.refl _) (fun u => ?_) rfl (.refl _) (.inl rfl)
      -- it belongs to no attempt
      rw [owners_update, List.filterMap_append]
      refine update_sublist ?_ u
      change (s.owners v ++ []).Sublist _
      rw [List.append_nil]
    · cases hs
  | background m =>
    have hquiet : ∀ r leaderID, StepCase d s (.background m)
        { s with refresh := r, leaderID := leaderID } := fun r leaderID =>
      .quiet _ _ (.refl _) (fun _ => .refl _) rfl (.refl _) (.inl rfl)
    cases m with
    | start =>
      change (if s.refresh = none then some _ else none) = some s' at hs
      split at hs
      · cases hs
        exact hquiet _ _
      · cases hs
    | poll answers =>
      obtain ⟨r, -, hs⟩ := Option.bind_eq_some_iff.mp hs
      obtain ⟨r', -, rfl⟩ := Option.map_eq_some_iff.mp hs
      exact hquiet _ _
    | publish =>
      obtain ⟨r, -, hs⟩ := Option.bind_eq_some_iff.mp hs
      split at hs
      · cases hs
        exact hquiet _ _
      · cases hs
  | request w =>
    cases hs
    exact .quiet _ _ (.refl _) (fun _ => .refl _) rfl (.append _ _) (.inl rfl)
  | gateway i m =>
    obtain ⟨h, hi, hs⟩ := Option.bind_eq_some_iff.mp hs
    exact stepGateway_cases hi hs
  | node a m =>
    obtain ⟨x, hx, hs⟩ := Option.bind_eq_some_iff.mp hs
    exact stepNode_cases hx hs

/-! ### The runs -/

/-- **The missing conditions**: a request is sent a second time only when its first attempt is
spent; and the deliveries, installations and restarts of the cluster keep the order of the
indices. -/
def Careful (s : System σ) : Move σ → Prop
  | .gateway i .look => ∀ h ∈ s.requests[i]?, ∀ a ∈ h.phase.retries, s.leaderID ≠ "" →
      Spent s.attempts s.owners (s.made.map Prod.fst) a
  | .raft a => Raft.IndexSafe s.cluster a
  | _ => True

instance Careful.decidable (s : System σ) : (e : Move σ) → Decidable (s.Careful e)
  | .gateway i .look => inferInstanceAs (Decidable (∀ h ∈ s.requests[i]?, ∀ a ∈ h.phase.retries, _))
  | .raft a => inferInstanceAs (Decidable (Raft.IndexSafe s.cluster a))
  | .gateway _ (.poll _) | .gateway _ .publish | .gateway _ .receive | .gateway _ .giveUp
  | .append _ _ | .direct _ _ | .background _ | .request _ | .node _ _ =>
    inferInstanceAs (Decidable True)

/-- The invariant: the account is in order, an attempt belongs to a request that knows of it, and of
two attempts of one request the earlier one is spent. -/
structure Once (s : System σ) : Prop where
  ledger : Ledger s.attempts s.owners (s.made.map Prod.fst)
  request_lt : ∀ {a : ℕ} {x : Attempt}, s.attempts[a]? = some x → x.request < s.requests.length
  owns : ∀ {a : ℕ} {x : Attempt} {h : Handling}, s.attempts[a]? = some x →
    s.requests[x.request]? = some h → h.phase.Owns a
  spent : ∀ {a b : ℕ} {x y : Attempt}, a < b → s.attempts[a]? = some x → s.attempts[b]? = some y →
    x.request = y.request → Spent s.attempts s.owners (s.made.map Prod.fst) a

namespace Once

theorem start (c : Raft.Cluster σ) : Once (System.start c) where
  ledger := ⟨nofun, nofun, fun _ => List.nodup_nil⟩
  request_lt := nofun
  owns := nofun
  spent := nofun

/-- A step without a new attempt. -/
theorem of_evolves (h : Once s) (hl : Evolves s.attempts s'.attempts)
    (hr : PhasesKept s.requests s'.requests)
    (hledger : Ledger s'.attempts s'.owners (s'.made.map Prod.fst))
    (hspent : ∀ a, Spent s.attempts s.owners (s.made.map Prod.fst) a →
      Spent s'.attempts s'.owners (s'.made.map Prod.fst) a) : Once s' where
  ledger := hledger
  request_lt hx' := by
    obtain ⟨x, hx, hb⟩ := hl.get_of hx'
    rw [hb.request]
    exact (h.request_lt hx).trans_le hr.length
  owns hx' hh' := by
    obtain ⟨x, hx, hb⟩ := hl.get_of hx'
    rw [hb.request] at hh'
    obtain ⟨h₀, hh₀, hkept⟩ := hr.owns _ (h.request_lt hx) _ hh'
    exact hkept _ (h.owns hx hh₀)
  spent hab hx' hy' hreq := by
    obtain ⟨x, hx, hbx⟩ := hl.get_of hx'
    obtain ⟨y, hy, hby⟩ := hl.get_of hy'
    rw [hbx.request, hby.request] at hreq
    exact hspent _ (h.spent hab hx hy hreq)

/-- **A request is sent**, for the first time or with its first attempt spent. -/
theorem send (h : Once s) {i : ℕ} {hd : Handling} {first : Option ℕ} {refreshed : Bool}
    (hi : s.requests[i]? = some hd) (hp : hd.phase = .looking first refreshed)
    (hspent : ∀ a ∈ first, Spent s.attempts s.owners (s.made.map Prod.fst) a) (v : String) :
    Once (s.send i hd first v) := by
  have hlen := (List.getElem?_eq_some_iff.mp hi).1
  -- an attempt is an old one, or the one that is being made
  have hcases : ∀ {a x}, (s.send i hd first v).attempts[a]? = some x →
      (a < s.attempts.length ∧ s.attempts[a]? = some x) ∨
        (a = s.attempts.length ∧ x = ⟨i, v, hd.write, .sent⟩) := by
    intro a x hx
    change (s.attempts ++ [_])[a]? = some x at hx
    rcases Nat.lt_or_ge a s.attempts.length with hlt | hge
    · rw [List.getElem?_append_left hlt] at hx
      exact Or.inl ⟨hlt, hx⟩
    · rw [List.getElem?_append_right hge] at hx
      obtain ⟨hzero, hx⟩ := List.getElem?_eq_some_iff.mp hx
      rw [List.length_singleton] at hzero
      exact Or.inr ⟨by omega, by simpa using hx.symm⟩
  -- the only other attempt of the request is its first one
  have hfirst : ∀ {a x}, s.attempts[a]? = some x → x.request = i → first = some a := by
    intro a x hx hxi
    have howns := h.owns hx (hxi ▸ hi)
    rw [hp] at howns
    exact howns
  refine ⟨h.ledger.add _, fun {a x} hx => ?_, fun {a x hd'} hx hh => ?_,
    fun {a b x y} hab hx hy hreq => ?_⟩
  · change x.request < (s.requests.set i _).length
    rw [List.length_set]
    rcases hcases hx with ⟨-, hx⟩ | ⟨-, rfl⟩
    · exact h.request_lt hx
    · exact hlen
  · change (s.requests.set i _)[x.request]? = some hd' at hh
    by_cases hxi : x.request = i
    · rw [hxi, List.getElem?_set_self hlen] at hh
      cases hh
      rcases hcases hx with ⟨-, hx⟩ | ⟨rfl, -⟩
      · rw [hfirst hx hxi]
        trivial
      · cases first with
        | none => rfl
        | some a₀ => trivial
    · rw [List.getElem?_set_ne (Ne.symm hxi)] at hh
      rcases hcases hx with ⟨-, hx⟩ | ⟨-, rfl⟩
      · exact h.owns hx hh
      · exact absurd rfl hxi
  · rcases hcases hx with ⟨ha, hx⟩ | ⟨rfl, -⟩
    · refine Spent.add ?_ ha _
      rcases hcases hy with ⟨-, hy⟩ | ⟨-, rfl⟩
      · exact h.spent hab hx hy hreq
      · exact hspent a (hfirst hx hreq)
    · rcases hcases hy with ⟨hb, -⟩ | ⟨rfl, -⟩
      · exact absurd hab hb.not_gt
      · exact absurd hab (lt_irrefl _)

/-- **Every careful step** keeps the invariant. -/
theorem step (h : Once s) {e : Move σ} (hok : s.Careful e) (hs : s.step d e = some s') :
    Once s' := by
  cases step_cases hs with
  | quiet _ _ hl hq hm hr =>
    refine h.of_evolves hl hr ?_ fun a ha => ?_
    · rw [hm]
      exact h.ledger.evolve hl hq
    · rw [hm]
      exact ha.evolve hl hq
  | enqueue _ a x _ hx he hl hq hm hr =>
    have hevolves : Evolves s.attempts s'.attempts := hl ▸ .set hx (.of_early _ he)
    refine h.of_evolves hevolves (hr ▸ .refl _) ?_ fun b hb => ?_
    · rw [hl, hq, hm]
      exact h.ledger.enqueue hx he
    · rw [hl, hq, hm]
      exact hb.enqueue hx he
  -- the batch moves from a channel to the list of what was made, so no one is counted twice
  | take _ v placed rest _ hl hv hq hm hr =>
    refine h.of_evolves hl (hr ▸ .refl _) ?_ fun a ha => ?_
    · rw [hq, hm, List.map_append]
      exact (h.ledger.take hv).evolve hl fun _ => .refl _
    · rw [hq, hm, List.map_append]
      exact (ha.take h.ledger hv).evolve hl fun _ => .refl _
  | send i hd first refreshed hi hp hlead =>
    -- a second attempt: by `Careful` the first one is over, and nothing was made of it
    refine h.send hi hp (fun a ha => hok hd hi a ?_ hlead) _
    rw [hp]
    exact ha

end Once

/-! #### The entries of a request, in the logs and over time -/

end System

/-! ### A deployment to evaluate -/

/-- What a run has come to, at the gateway and at one node. -/
structure Outcome where
  phases : List Phase
  /-- The nodes that the attempts went to. -/
  attempts : List String
  log : List Raft.LogEntry
  commitIndex : ℕ
  stateMachine : Bytes
  /-- The entries made of the first request. -/
  entries : List Raft.LogEntry
  deriving DecidableEq

def System.outcome (s : System Bytes) (v : String) : Outcome where
  phases := s.requests.map Handling.phase
  attempts := s.attempts.map Attempt.node
  log := (s.cluster.node v).log
  commitIndex := (s.cluster.node v).commitIndex
  stateMachine := (s.cluster.node v).stateMachine
  entries := s.entriesOf 0

end Gateway
end BoilerPulse
