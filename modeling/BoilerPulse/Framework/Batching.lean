import BoilerPulse.Framework.Runs
import Mathlib.Data.List.Nodup
import Mathlib.Tactic.Common

/-!
# A goroutine that serves calls in batches

Calls hand their commands to one goroutine through a channel with room for `capacity` of them, and
wait for their results on a channel of their own. The goroutine receives a command, drains whatever
else is in the channel up to `maxBatch` commands, processes the batch at once, and sends each call
its result. A call may give up while it waits, at either channel; the whole may be closed, which
the goroutine notices when it would receive next.

`Batcher` is such a system over any state and any way to process a batch (`Service`), and the steps of
its goroutines interleave in any order with each other and with those of an environment that
changes the state. What has been sent, processed and answered is kept for the record.

* `Batcher.Tidy` accounts for every command that was sent: it has its result, or it is with the
  goroutine, or in the channel, in the order of the sends, and each call has at most one.
* The goroutine never waits for a call. As long as it has not returned, its own steps answer
  everything that was sent, four of them for each command at most (`Tidy.serves_all`).
* Once it has returned, what is still in the channel is never answered (`Tidy.forsaken`).
-/

namespace Framework

namespace Batching

/-- A command with the call that waits for its result. -/
structure Request (Cmd : Type) where
  caller : ℕ
  command : Cmd
  deriving DecidableEq

/-- Where a call is. -/
inductive Phase (Res : Type) where
  /-- It is sending its command. -/
  | sending
  /-- It is waiting for its result. -/
  | waiting
  | received (r : Res)
  /-- It was turned away before it had sent anything. -/
  | refused
  /-- It has given up. -/
  | cancelled
  deriving DecidableEq

structure Caller (Cmd Res : Type) where
  command : Cmd
  phase : Phase Res
  deriving DecidableEq

/-- Where the goroutine is. -/
inductive Loop (Cmd Res : Type) where
  | idle
  | draining (batch : List (Request Cmd))
  /-- Sending the results, to those that are left. -/
  | replying (rest : List (Request Cmd × Res))
  /-- It has returned. -/
  | stopped
  deriving DecidableEq

/-- What is served, and how. -/
structure Service (S Cmd Res Env : Type) where
  /-- Whether a call goes on to send its command. -/
  admits : S → Bool
  process : S → List Cmd → S × List Res
  /-- What else may happen to the state. -/
  env : S → Env → Option S
  capacity : ℕ
  maxBatch : ℕ
  length_process : ∀ s cmds, (process s cmds).2.length = cmds.length

inductive Action (Cmd Env : Type) where
  /-- A new call. -/
  | call (cmd : Cmd)
  /-- A call sends its command. -/
  | send (i : ℕ)
  /-- A call that is sending notices that the whole is closed. -/
  | refuse (i : ℕ)
  /-- A call gives up. -/
  | cancel (i : ℕ)
  /-- A call receives its result. -/
  | take (i : ℕ)
  /-- The goroutine goes on. -/
  | loop
  | close
  /-- The goroutine notices that the whole is closed, and returns. -/
  | exit
  | env (a : Env)

namespace Phase

variable {Res : Type}

/-- The command has been sent. -/
def past : Phase Res → Bool
  | .sending | .refused => false
  | .waiting | .received _ | .cancelled => true

end Phase

namespace Loop

variable {Cmd Res : Type}

/-- What has been received and not processed. -/
def batch : Loop Cmd Res → List (Request Cmd)
  | .draining batch => batch
  | .idle | .replying _ | .stopped => []

/-- What has been processed and not answered. -/
def rest : Loop Cmd Res → List (Request Cmd × Res)
  | .replying rest => rest
  | .idle | .draining _ | .stopped => []

/-- How many steps the goroutine is away from being idle, if nothing more is received. -/
def cost : Loop Cmd Res → ℕ
  | .draining batch => batch.length + 2
  | .replying rest => rest.length + 1
  | .idle | .stopped => 0

end Loop

end Batching

open Batching

/-- The system. A call is known by its position among `callers`. -/
structure Batcher (S Cmd Res : Type) where
  state : S
  callers : List (Caller Cmd Res)
  queue : List (Request Cmd)
  loop : Loop Cmd Res
  closed : Bool
  /-- What has been sent on the channels of the calls. -/
  answers : List (Request Cmd × Res)
  /-- What has been sent to the goroutine. -/
  sent : List (Request Cmd)
  /-- The results of all the batches so far. -/
  results : List (Request Cmd × Res)

namespace Batcher

variable {S Cmd Res Env : Type}

def opened (s : S) : Batcher S Cmd Res :=
  ⟨s, [], [], .idle, false, [], [], []⟩

/-- A call goes on to another phase. -/
def setPhase (b : Batcher S Cmd Res) (i : ℕ) (c : Caller Cmd Res) (phase : Phase Res) :
    Batcher S Cmd Res :=
  { b with callers := b.callers.set i { c with phase := phase } }

/-- Process a batch. -/
def flush (v : Service S Cmd Res Env) (b : Batcher S Cmd Res) (batch : List (Request Cmd)) :
    Batcher S Cmd Res :=
  let (s, rs) := v.process b.state (batch.map Request.command)
  { b with state := s, loop := .replying (batch.zip rs), results := b.results ++ batch.zip rs }

/-- The next step of the goroutine; `none` if it has to wait. -/
def stepLoop (v : Service S Cmd Res Env) (b : Batcher S Cmd Res) : Option (Batcher S Cmd Res) :=
  match b.loop with
  | .idle =>
    match b.queue with
    | [] => none
    | r :: rest => some { b with queue := rest, loop := .draining [r] }
  | .draining batch =>
    match b.queue with
    | [] => some (b.flush v batch)
    | r :: rest =>
      if batch.length < v.maxBatch then
        some { b with queue := rest, loop := .draining (batch ++ [r]) }
      else some (b.flush v batch)
  | .replying [] => some { b with loop := .idle }
  | .replying (a :: rest) => some { b with answers := b.answers ++ [a], loop := .replying rest }
  | .stopped => none

/-- The next step of a call; `none` if it has to wait. -/
def stepCaller (v : Service S Cmd Res Env) (b : Batcher S Cmd Res) (i : ℕ) (c : Caller Cmd Res) :
    Action Cmd Env → Option (Batcher S Cmd Res)
  | .send _ =>
    match c.phase with
    | .sending =>
      if b.queue.length < v.capacity then
        some { b.setPhase i c .waiting with
          queue := b.queue ++ [⟨i, c.command⟩]
          sent := b.sent ++ [⟨i, c.command⟩] }
      else none
    | _ => none
  | .refuse _ =>
    match c.phase with
    | .sending => if b.closed then some (b.setPhase i c .refused) else none
    | _ => none
  | .cancel _ =>
    match c.phase with
    | .sending | .waiting => some (b.setPhase i c .cancelled)
    | _ => none
  | .take _ =>
    match c.phase with
    | .waiting =>
      (b.answers.find? fun a => a.1.caller = i).map fun a => b.setPhase i c (.received a.2)
    | _ => none
  | _ => none

def step (v : Service S Cmd Res Env) (b : Batcher S Cmd Res) (a : Action Cmd Env) :
    Option (Batcher S Cmd Res) :=
  match a with
  | .call cmd =>
    let phase := if v.admits b.state then .sending else .refused
    some { b with callers := b.callers ++ [⟨cmd, phase⟩] }
  | .send i | .refuse i | .cancel i | .take i =>
    (b.callers[i]?).bind fun c => b.stepCaller v i c a
  | .loop => b.stepLoop v
  | .close => some { b with closed := true }
  | .exit =>
    match b.loop with
    | .idle => if b.closed then some { b with loop := .stopped } else none
    | _ => none
  | .env e => (v.env b.state e).map fun s => { b with state := s }

/-- **Inversion of a step.** -/
inductive StepCase (v : Service S Cmd Res Env) (b : Batcher S Cmd Res) :
    Action Cmd Env → Batcher S Cmd Res → Prop
  | call (cmd : Cmd) (phase : Phase Res) (hp : phase = .sending ∨ phase = .refused) :
      StepCase v b (.call cmd) { b with callers := b.callers ++ [⟨cmd, phase⟩] }
  | send (i : ℕ) (c : Caller Cmd Res) (hi : b.callers[i]? = some c) (hp : c.phase = .sending)
      (hroom : b.queue.length < v.capacity) :
      StepCase v b (.send i) { b.setPhase i c .waiting with
          queue := b.queue ++ [⟨i, c.command⟩]
          sent := b.sent ++ [⟨i, c.command⟩] }
  | refuse (i : ℕ) (c : Caller Cmd Res) (hi : b.callers[i]? = some c) (hp : c.phase = .sending) :
      StepCase v b (.refuse i) (b.setPhase i c .refused)
  | cancel (i : ℕ) (c : Caller Cmd Res) (hi : b.callers[i]? = some c)
      (hp : c.phase = .sending ∨ c.phase = .waiting) :
      StepCase v b (.cancel i) (b.setPhase i c .cancelled)
  | take (i : ℕ) (c : Caller Cmd Res) (a : Request Cmd × Res) (hi : b.callers[i]? = some c)
      (hp : c.phase = .waiting) (ha : a ∈ b.answers) (hcaller : a.1.caller = i) :
      StepCase v b (.take i) (b.setPhase i c (.received a.2))
  | receive (r : Request Cmd) (rest : List (Request Cmd)) (hl : b.loop = .idle)
      (hq : b.queue = r :: rest) :
      StepCase v b .loop { b with queue := rest, loop := .draining [r] }
  | drain (batch : List (Request Cmd)) (r : Request Cmd) (rest : List (Request Cmd))
      (hl : b.loop = .draining batch) (hq : b.queue = r :: rest)
      (hlt : batch.length < v.maxBatch) :
      StepCase v b .loop { b with queue := rest, loop := .draining (batch ++ [r]) }
  | flush (batch : List (Request Cmd)) (hl : b.loop = .draining batch) :
      StepCase v b .loop (b.flush v batch)
  | answer (a : Request Cmd × Res) (rest : List (Request Cmd × Res))
      (hl : b.loop = .replying (a :: rest)) :
      StepCase v b .loop { b with answers := b.answers ++ [a], loop := .replying rest }
  | resume (hl : b.loop = .replying []) : StepCase v b .loop { b with loop := .idle }
  | close : StepCase v b .close { b with closed := true }
  | exit (hl : b.loop = .idle) (hc : b.closed = true) :
      StepCase v b .exit { b with loop := .stopped }
  | env (e : Env) (s : S) (hs : v.env b.state e = some s) :
      StepCase v b (.env e) { b with state := s }

section Inversion

variable {v : Service S Cmd Res Env} {b b' : Batcher S Cmd Res}

theorem stepLoop_inv (h : b.stepLoop v = some b') : StepCase v b .loop b' := by
  unfold stepLoop at h
  split at h
  · next hl =>
    split at h
    · cases h
    · next r rest hq => cases h; exact .receive r rest hl hq
  · next batch hl =>
    split at h
    · cases h; exact .flush batch hl
    · next r rest hq =>
      split at h
      · next hlt => cases h; exact .drain batch r rest hl hq hlt
      · cases h; exact .flush batch hl
  · next hl => cases h; exact .resume hl
  · next a rest hl => cases h; exact .answer a rest hl
  · cases h

theorem step_inv {a : Action Cmd Env} (h : b.step v a = some b') : StepCase v b a b' := by
  cases a with
  | call cmd =>
    cases h
    refine .call cmd _ ?_
    split
    · exact .inl rfl
    · exact .inr rfl
  -- the moves of a caller: its phase decides
  | send i =>
    obtain ⟨c, hi, hc⟩ := Option.bind_eq_some_iff.mp h
    simp only [stepCaller] at hc
    split at hc
    · next hp =>
      split at hc
      · next hroom => cases hc; exact .send i c hi hp hroom
      · cases hc
    · cases hc
  | refuse i =>
    obtain ⟨c, hi, hc⟩ := Option.bind_eq_some_iff.mp h
    simp only [stepCaller] at hc
    split at hc
    · next hp =>
      split at hc
      · cases hc; exact .refuse i c hi hp
      · cases hc
    · cases hc
  | cancel i =>
    obtain ⟨c, hi, hc⟩ := Option.bind_eq_some_iff.mp h
    simp only [stepCaller] at hc
    split at hc
    · next hp => cases hc; exact .cancel i c hi (.inl hp)
    · next hp => cases hc; exact .cancel i c hi (.inr hp)
    · cases hc
  | take i =>
    obtain ⟨c, hi, hc⟩ := Option.bind_eq_some_iff.mp h
    simp only [stepCaller] at hc
    split at hc
    · next hp =>
      obtain ⟨a, ha, rfl⟩ := Option.map_eq_some_iff.mp hc
      exact .take i c a hi hp (List.mem_of_find?_eq_some ha) (by simpa using List.find?_some ha)
    · cases hc
  | loop => exact stepLoop_inv h
  | close => cases h; exact .close
  | exit =>
    simp only [step] at h
    split at h
    · next hl =>
      split at h
      · next hc => cases h; exact .exit hl hc
      · cases h
    · cases h
  | env e =>
    obtain ⟨s, hs, rfl⟩ := Option.map_eq_some_iff.mp h
    exact .env e s hs

end Inversion

/-! ### Every command is accounted for -/

variable {v : Service S Cmd Res Env} {b b' : Batcher S Cmd Res}

theorem callers_setPhase {i : ℕ} {c : Caller Cmd Res} (hi : b.callers[i]? = some c)
    (ph : Phase Res) (j : ℕ) : (b.setPhase i c ph).callers[j]? =
      if j = i then some { c with phase := ph } else b.callers[j]? := by
  obtain ⟨hlt, -⟩ := List.getElem?_eq_some_iff.mp hi
  unfold setPhase
  rw [List.getElem?_set]
  by_cases h : i = j
  · subst h
    rw [if_pos rfl, if_pos hlt, if_pos rfl]
  · rw [if_neg h, if_neg (Ne.symm h)]

/-- The results of a batch are those of its requests, in order. -/
theorem map_fst_zip_process (v : Service S Cmd Res Env) (s : S) (batch : List (Request Cmd)) :
    (batch.zip (v.process s (batch.map Request.command)).2).map Prod.fst = batch := by
  apply List.map_fst_zip
  apply Nat.le_of_eq
  rw [v.length_process, List.length_map]

/-- **Every command that was sent** has its result, or is with the goroutine, or in the channel; and
what each call knows is so. -/
structure Tidy (b : Batcher S Cmd Res) : Prop where
  sent_eq : b.sent = b.results.map Prod.fst ++ (b.loop.batch ++ b.queue)
  results_eq : b.results = b.answers ++ b.loop.rest
  nodup : (b.sent.map Request.caller).Nodup
  known : ∀ r ∈ b.sent, ∃ c, b.callers[r.caller]? = some c ∧ c.command = r.command ∧
    c.phase.past = true
  waiting : ∀ i c, b.callers[i]? = some c → c.phase = .waiting → ∃ r ∈ b.sent, r.caller = i
  received : ∀ i c x, b.callers[i]? = some c → c.phase = .received x →
    ∃ r, (r, x) ∈ b.answers ∧ r.caller = i

namespace Tidy

variable {c : Caller Cmd Res} {ph : Phase Res} {i : ℕ}

theorem opened (s : S) : Tidy (Batcher.opened s : Batcher S Cmd Res) where
  sent_eq := rfl
  results_eq := rfl
  nodup := List.nodup_nil
  known _ hr := absurd hr List.not_mem_nil
  waiting := nofun
  received := nofun

/-- A step that leaves the calls alone, and the order of what was sent. -/
theorem of_same (h : Tidy b) (hcallers : b'.callers = b.callers) (hsent : b'.sent = b.sent)
    (hanswers : b.answers ⊆ b'.answers)
    (hsent_eq : b'.sent = b'.results.map Prod.fst ++ (b'.loop.batch ++ b'.queue))
    (hresults : b'.results = b'.answers ++ b'.loop.rest) : Tidy b' where
  sent_eq := hsent_eq
  results_eq := hresults
  nodup := hsent ▸ h.nodup
  known := by rw [hcallers, hsent]; exact h.known
  waiting := by rw [hcallers, hsent]; exact h.waiting
  received i c x hi hx := by
    rw [hcallers] at hi
    obtain ⟨r, hr, hcaller⟩ := h.received i c x hi hx
    exact ⟨r, hanswers hr, hcaller⟩

/-- What is known of the calls stays so when one of them goes on. -/
theorem known_setPhase (h : Tidy b) (hi : b.callers[i]? = some c)
    (hpast : c.phase.past = true → ph.past = true) (r : Request Cmd) (hr : r ∈ b.sent)
    : ∃ c', (b.setPhase i c ph).callers[r.caller]? = some c' ∧
      c'.command = r.command ∧ c'.phase.past = true := by
  obtain ⟨c', hc', hcmd, hp⟩ := h.known r hr
  rw [callers_setPhase hi]
  by_cases hri : r.caller = i
  · rw [if_pos hri]
    rw [hri] at hc'
    obtain rfl := Option.some.inj (hi.symm.trans hc')
    exact ⟨_, rfl, hcmd, hpast hp⟩
  · rw [if_neg hri]
    exact ⟨c', hc', hcmd, hp⟩

/-- A call that has sent its command goes on. -/
theorem setPhase (h : Tidy b) (hi : b.callers[i]? = some c)
    (hpast : c.phase.past = true → ph.past = true) (hwait : ph ≠ .waiting)
    (hreceived : ∀ x, ph = .received x → ∃ r, (r, x) ∈ b.answers ∧ r.caller = i) :
    Tidy (b.setPhase i c ph) where
  sent_eq := h.sent_eq
  results_eq := h.results_eq
  nodup := h.nodup
  known := h.known_setPhase hi hpast
  waiting j c' hj hp := by
    rw [callers_setPhase hi] at hj
    split at hj
    · cases hj
      exact absurd hp hwait
    · exact h.waiting j c' hj hp
  received j c' x hj hp := by
    rw [callers_setPhase hi] at hj
    split at hj
    · next hji =>
      cases hj
      rw [hji]
      exact hreceived x hp
    · exact h.received j c' x hj hp

/-- A call that is still sending has sent nothing. -/
theorem not_mem_sent (h : Tidy b) (hi : b.callers[i]? = some c) (hp : c.phase.past = false)
    : i ∉ b.sent.map Request.caller := by
  intro hmem
  obtain ⟨r, hr, rfl⟩ := List.mem_map.mp hmem
  obtain ⟨c', hc', -, hpast⟩ := h.known r hr
  obtain rfl := Option.some.inj (hi.symm.trans hc')
  cases hp.symm.trans hpast

/-- **A command is sent.** -/
theorem send (h : Tidy b) (hi : b.callers[i]? = some c) (hp : c.phase = .sending) :
    Tidy { b.setPhase i c .waiting with
      queue := b.queue ++ [⟨i, c.command⟩]
      sent := b.sent ++ [⟨i, c.command⟩] } where
  sent_eq := by
    show b.sent ++ [⟨i, c.command⟩] = b.results.map Prod.fst ++ (b.loop.batch ++ (b.queue ++ _))
    rw [h.sent_eq]
    simp only [List.append_assoc]
  results_eq := h.results_eq
  nodup := by
    -- a caller sends once, so its number is new
    have hnew := h.not_mem_sent hi (by rw [hp]; rfl)
    rw [List.map_append]
    exact List.nodup_append.mpr ⟨h.nodup, List.nodup_singleton _, fun x hx y hy hxy =>
      hnew (by rw [hxy, List.mem_singleton.mp hy] at hx; exact hx)⟩
  known r hr := by
    rcases List.mem_append.mp hr with hr | hr
    · exact h.known_setPhase hi (fun _ => rfl) r hr
    · obtain rfl := List.mem_singleton.mp hr
      show ∃ c', (b.setPhase i c .waiting).callers[i]? = some c' ∧ _
      rw [callers_setPhase hi, if_pos rfl]
      exact ⟨_, rfl, rfl, rfl⟩
  waiting j c' hj hw := by
    change (b.setPhase i c .waiting).callers[j]? = some c' at hj
    rw [callers_setPhase hi] at hj
    split at hj
    · -- the caller itself waits for what it has just sent
      next hji => exact ⟨_, List.mem_append_right _ (List.mem_singleton.mpr rfl), hji.symm⟩
    · obtain ⟨r, hr, hcaller⟩ := h.waiting j c' hj hw
      exact ⟨r, List.mem_append_left _ hr, hcaller⟩
  received j c' x hj hx := by
    change (b.setPhase i c .waiting).callers[j]? = some c' at hj
    rw [callers_setPhase hi] at hj
    split at hj
    · cases hj
      cases hx
    · exact h.received j c' x hj hx

/-- **A call begins.** -/
theorem call (h : Tidy b) (cmd : Cmd) (hp : ph = .sending ∨ ph = .refused) :
    Tidy { b with callers := b.callers ++ [⟨cmd, ph⟩] } where
  sent_eq := h.sent_eq
  results_eq := h.results_eq
  nodup := h.nodup
  known r hr := by
    obtain ⟨c, hc, hrest⟩ := h.known r hr
    obtain ⟨hlt, -⟩ := List.getElem?_eq_some_iff.mp hc
    exact ⟨c, by rw [List.getElem?_append_left hlt]; exact hc, hrest⟩
  waiting i c hi hw := by
    rw [List.getElem?_append] at hi
    split at hi
    · exact h.waiting i c hi hw
    · obtain rfl := List.mem_singleton.mp (List.mem_of_getElem? hi)
      rcases hp with rfl | rfl
      · cases hw
      · cases hw
  received i c x hi hx := by
    rw [List.getElem?_append] at hi
    split at hi
    · exact h.received i c x hi hx
    · obtain rfl := List.mem_singleton.mp (List.mem_of_getElem? hi)
      rcases hp with rfl | rfl
      · cases hx
      · cases hx

/-- **A step of the goroutine.** -/
theorem loop (h : Tidy b) (hs : b.stepLoop v = some b') : Tidy b' := by
  have hsent := h.sent_eq
  have hresults := h.results_eq
  cases stepLoop_inv hs with
  | receive r rest hl hq =>
    rw [hl, hq] at hsent
    rw [hl] at hresults
    exact h.of_same rfl rfl (fun _ ha => ha) hsent hresults
  | drain batch r rest hl hq hlt =>
    rw [hl, hq] at hsent
    rw [hl] at hresults
    refine h.of_same rfl rfl (fun _ ha => ha) (hsent.trans ?_) hresults
    simp [Loop.batch]
  -- results are made for the whole batch at once, and handed out one by one
  | flush batch hl =>
    rw [hl] at hsent hresults
    refine h.of_same rfl rfl (fun _ ha => ha) ?_ ?_
    · show b.sent = (b.results ++ batch.zip _).map Prod.fst ++ ([] ++ b.queue)
      rw [List.map_append, map_fst_zip_process, hsent]
      simp [Loop.batch]
    · show b.results ++ batch.zip _ = b.answers ++ batch.zip _
      rw [hresults]
      simp [Loop.rest]
  | answer a rest hl =>
    rw [hl] at hsent hresults
    refine h.of_same rfl rfl (List.subset_append_left _ _) hsent (hresults.trans ?_)
    simp [Loop.rest]
  | resume hl =>
    rw [hl] at hsent hresults
    exact h.of_same rfl rfl (fun _ ha => ha) hsent hresults

/-- **Every step.** -/
theorem step {a : Action Cmd Env} (h : Tidy b) (hs : b.step v a = some b') : Tidy b' := by
  cases step_inv hs with
  | call cmd phase hp => exact h.call cmd hp
  | send i c hi hp hroom => exact h.send hi hp
  | refuse i c hi hp =>
    refine h.setPhase hi (fun hpast => ?_) (by simp) (by simp)
    rw [hp] at hpast
    cases hpast
  | cancel i c hi hp => exact h.setPhase hi (fun _ => rfl) (by simp) (by simp)
  | take i c a hi hp ha hcaller =>
    refine h.setPhase hi (fun _ => rfl) (by simp) (fun x hx => ?_)
    obtain rfl := Phase.received.inj hx
    exact ⟨a.1, ha, hcaller⟩
  | receive | drain | flush | answer | resume => exact h.loop hs
  | close | env e s hs => exact h.of_same rfl rfl (fun _ ha => ha) h.sent_eq h.results_eq
  | exit hl hc =>
    have hsent := h.sent_eq
    have hresults := h.results_eq
    rw [hl] at hsent hresults
    exact h.of_same rfl rfl (fun _ ha => ha) hsent hresults

/-- Every result is that of a command its call has sent. -/
theorem known_of_result (h : Tidy b) {a : Request Cmd × Res} (ha : a ∈ b.results) :
    ∃ c, b.callers[a.1.caller]? = some c ∧ c.command = a.1.command ∧ c.phase.past = true := by
  refine h.known a.1 ?_
  rw [h.sent_eq]
  exact List.mem_append_left _ (List.mem_map_of_mem ha)

/-- What is in the channel has no result. -/
theorem not_answered_of_queued (h : Tidy b) {r : Request Cmd} (hr : r ∈ b.queue)
    {a : Request Cmd × Res} (ha : a ∈ b.answers) : a.1.caller ≠ r.caller := by
  have hn := h.nodup
  rw [h.sent_eq, List.map_append, List.nodup_append] at hn
  refine hn.2.2 _ (List.mem_map_of_mem (List.mem_map_of_mem ?_)) _
    (List.mem_map_of_mem (List.mem_append_right _ hr))
  rw [h.results_eq]
  exact List.mem_append_left _ ha

end Tidy

/-! ### The goroutine serves everything -/

/-- `k` steps of the goroutine and of nothing else. -/
def serve (v : Service S Cmd Res Env) : ℕ → Batcher S Cmd Res → Option (Batcher S Cmd Res)
  | 0, b => some b
  | k + 1, b => (b.stepLoop v).bind (serve v k)

/-- How many steps the goroutine is away from having served everything, at most. -/
def backlog (b : Batcher S Cmd Res) : ℕ := 4 * b.queue.length + b.loop.cost

/-- **Every step of the goroutine** brings it nearer, and leaves the calls alone. -/
theorem backlog_stepLoop (hs : b.stepLoop v = some b') : b'.backlog < b.backlog ∧
    b'.sent = b.sent ∧ b'.callers = b.callers ∧ b'.loop ≠ .stopped := by
  unfold backlog
  cases stepLoop_inv hs with
  | receive r rest hl hq =>
    rw [hl, hq]
    refine ⟨?_, rfl, rfl, by simp⟩
    simp only [Loop.cost, List.length_cons, List.length_nil]
    omega
  | drain batch r rest hl hq hlt =>
    rw [hl, hq]
    refine ⟨?_, rfl, rfl, by simp⟩
    simp only [Loop.cost, List.length_cons, List.length_append, List.length_nil]
    omega
  -- as many answers are due now as there were commands
  | flush batch hl =>
    rw [hl]
    refine ⟨?_, rfl, rfl, by simp [Batcher.flush]⟩
    simp only [Batcher.flush, Loop.cost, List.length_zip, v.length_process, List.length_map,
      Nat.min_self]
    omega
  | answer a rest hl =>
    rw [hl]
    refine ⟨?_, rfl, rfl, by simp⟩
    simp only [Loop.cost, List.length_cons]
    omega
  | resume hl =>
    rw [hl]
    refine ⟨?_, rfl, rfl, by simp⟩
    simp only [Loop.cost, List.length_nil]
    omega

/-- The goroutine waits only when there is nothing to do. -/
theorem idle_of_stepLoop (hs : b.stepLoop v = none) (hl : b.loop ≠ .stopped) :
    b.loop = .idle ∧ b.queue = [] := by
  unfold stepLoop at hs
  split at hs
  · next hidle =>
    split at hs
    · next hq => exact ⟨hidle, hq⟩
    · cases hs
  · split at hs
    · cases hs
    · split at hs
      · cases hs
      · cases hs
  · cases hs
  · cases hs
  · next hstop => exact absurd hstop hl

/-- **The goroutine serves everything** that has been sent, whatever the calls do. -/
theorem Tidy.serves_all (h : Tidy b) (hl : b.loop ≠ .stopped) :
    ∃ k ≤ b.backlog, ∃ b', serve v k b = some b' ∧ Tidy b' ∧ b'.callers = b.callers ∧
      b'.sent = b.sent ∧ b'.answers.map Prod.fst = b'.sent := by
  -- by induction on how far away it is
  induction hm : b.backlog using Nat.strongRecOn generalizing b with
  | _ m ih =>
    cases hs : b.stepLoop v with
    | none =>
      obtain ⟨hidle, hq⟩ := idle_of_stepLoop hs hl
      refine ⟨0, Nat.zero_le _, b, rfl, h, rfl, rfl, ?_⟩
      have hresults := h.results_eq
      rw [hidle, Loop.rest, List.append_nil] at hresults
      rw [h.sent_eq, hidle, hq, hresults]
      exact (List.append_nil _).symm
    | some b₁ =>
      obtain ⟨hlt, hsent, hcallers, hl₁⟩ := backlog_stepLoop hs
      obtain ⟨k, hk, b', hb', htidy, hcallers', hsent', hall⟩ :=
        ih b₁.backlog (hm ▸ hlt) (h.loop hs) hl₁ rfl
      refine ⟨k + 1, by omega, b', ?_, htidy, hcallers'.trans hcallers, hsent'.trans hsent, hall⟩
      show (b.stepLoop v).bind (serve v k) = some b'
      rw [hs]
      exact hb'

/-- A waiting call whose result has been sent can go on. -/
theorem Tidy.take (h : Tidy b) {i : ℕ} {c : Caller Cmd Res} (hi : b.callers[i]? = some c)
    (hw : c.phase = .waiting) (hans : ∃ a ∈ b.answers, a.1.caller = i) :
    ∃ a ∈ b.answers, a.1 = ⟨i, c.command⟩ ∧
      b.step v (.take i) = some (b.setPhase i c (.received a.2)) := by
  cases hf : b.answers.find? fun a => a.1.caller = i with
  | none =>
    obtain ⟨a, ha, hai⟩ := hans
    exact absurd hai (by simpa using List.find?_eq_none.mp hf a ha)
  | some a =>
    have hmem := List.mem_of_find?_eq_some hf
    have hcaller : a.1.caller = i := by simpa using List.find?_some hf
    have hres : a ∈ b.results := by rw [h.results_eq]; exact List.mem_append_left _ hmem
    obtain ⟨c', hc', hcmd, -⟩ := h.known_of_result hres
    rw [hcaller] at hc'
    obtain rfl := Option.some.inj (hi.symm.trans hc')
    refine ⟨a, hmem, ?_, ?_⟩
    · rw [← hcaller, hcmd]
    · simp only [Batcher.step, hi, Option.bind_some, stepCaller, hw, hf, Option.map_some]

/-! ### Batches -/

/-- **A batch** has its first command, and no more than the bound. -/
def Sized (v : Service S Cmd Res Env) (b : Batcher S Cmd Res) : Prop :=
  ∀ batch, b.loop = .draining batch → batch ≠ [] ∧ batch.length ≤ max 1 v.maxBatch

theorem Sized.step {a : Action Cmd Env} (h : Sized v b) (hs : b.step v a = some b') :
    Sized v b' := by
  cases step_inv hs with
  | call | send | refuse | cancel | take | close | env => exact h
  | receive r rest hl hq =>
    intro batch hb
    obtain rfl := Loop.draining.inj hb
    exact ⟨by simp, Nat.le_max_left _ _⟩
  | drain batch r rest hl hq hlt =>
    intro batch' hb
    obtain rfl := Loop.draining.inj hb
    refine ⟨by simp, Nat.le_trans ?_ (Nat.le_max_right _ _)⟩
    rw [List.length_append, List.length_singleton]
    exact hlt
  | flush | answer | resume | exit => exact nofun

/-- Four steps for each command that has no answer yet, and one more at the end of a batch. -/
theorem Sized.backlog_le (h : Sized v b) (ht : Tidy b) :
    b.backlog ≤ 4 * (b.sent.length - b.answers.length) + 1 := by
  have hsent := congrArg List.length ht.sent_eq
  have hresults := congrArg List.length ht.results_eq
  simp only [List.length_append, List.length_map] at hsent hresults
  unfold backlog
  cases hl : b.loop with
  | idle | stopped | replying =>
    simp only [hl, Loop.batch, Loop.rest, Loop.cost, List.length_nil] at hsent hresults ⊢
    omega
  | draining batch =>
    have hpos := List.length_pos_iff.mpr (h batch hl).1
    simp only [hl, Loop.batch, Loop.rest, Loop.cost, List.length_nil] at hsent hresults ⊢
    omega

/-! ### After the goroutine has returned -/

/-- **After it has returned** nothing leaves the channel, and nothing is processed. -/
theorem stopped_step {a : Action Cmd Env} (hl : b.loop = .stopped) (hs : b.step v a = some b') :
    b'.loop = .stopped ∧ b.queue ⊆ b'.queue ∧ b'.results = b.results := by
  cases step_inv hs with
  | call | refuse | cancel | take | close | env => exact ⟨hl, fun _ hr => hr, rfl⟩
  | send => exact ⟨hl, List.subset_append_left _ _, rfl⟩
  | receive _ _ h | drain _ _ _ h | flush _ h | answer _ _ h | resume h | exit h =>
    cases hl.symm.trans h

theorem stopped_of_runs {ok : Batcher S Cmd Res → Action Cmd Env → Prop}
    (h : Runs (Batcher.step v) ok b b') (hl : b.loop = .stopped) :
    b'.loop = .stopped ∧ b.queue ⊆ b'.queue ∧ b'.results = b.results := by
  induction h with
  | refl => exact ⟨hl, fun _ hr => hr, rfl⟩
  | tail a _ _ hs ih =>
    obtain ⟨hl₁, hq₁, hr₁⟩ := ih
    obtain ⟨hl₂, hq₂, hr₂⟩ := stopped_step hl₁ hs
    exact ⟨hl₂, fun _ hr => hq₂ (hq₁ hr), hr₂.trans hr₁⟩

/-- **What it has left in the channel** keeps its call waiting until the call gives up. -/
theorem Tidy.forsaken (h : Tidy b) {r : Request Cmd} (hr : r ∈ b.queue) :
    ∃ c, b.callers[r.caller]? = some c ∧ c.command = r.command ∧
      (c.phase = .waiting ∨ c.phase = .cancelled) := by
  have hsent : r ∈ b.sent := by
    rw [h.sent_eq]
    exact List.mem_append_right _ (List.mem_append_right _ hr)
  obtain ⟨c, hc, hcmd, hpast⟩ := h.known r hsent
  refine ⟨c, hc, hcmd, ?_⟩
  cases hp : c.phase with
  | waiting => exact .inl rfl
  | cancelled => exact .inr rfl
  | sending | refused => rw [hp] at hpast; cases hpast
  | received x =>
    obtain ⟨r', ha, hcaller⟩ := h.received _ c x hc hp
    exact absurd hcaller (h.not_answered_of_queued hr ha)

end Batcher

end Framework
