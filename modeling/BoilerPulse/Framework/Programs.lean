import Mathlib.Logic.Basic

/-!
# Programs over a device that may fail or stop

A program issues operations one after the other and goes on with the answer to each
(`Prog`). What the operations do is a `Device` on a state that outlives the program. Each
operation meets a `Fate`: it is done, it reports failure, or the program stops for good before
it — a crash, which leaves the state as it is at that moment.

`Prog.Safe` is the judgement that a program ends in `Q` if it ends and leaves `C` behind if it is
stopped, with one rule per constructor (`safe_ret`, `safe_call`), one for sequencing (`safe_bind`)
and one for weakening (`Prog.Safe.mono`). `Prog.Issues` is a weaker judgement, on the operations
that a program may issue, whatever the device answers.
-/

namespace Framework

/-- A program: it returns, or it issues an operation and goes on with the answer. -/
inductive Prog (Op Ans α : Type) where
  | ret (a : α)
  | call (op : Op) (next : Ans → Prog Op Ans α)

/-- What becomes of one operation. -/
inductive Fate where
  | done
  | failed
  | stopped
  deriving DecidableEq, Repr

/-- What the operations do to the state, and what they answer. -/
structure Device (Op Ans σ : Type) where
  perform : Op → σ → σ × Ans
  fail : Op → σ → σ × Ans

namespace Prog

variable {Op Ans σ α β : Type}

/-- One program after the other. -/
def bind : Prog Op Ans α → (α → Prog Op Ans β) → Prog Op Ans β
  | ret a, f => f a
  | call op next, f => call op fun x => (next x).bind f

/-- Run a program: what it returns, `none` if it was stopped, and the state it leaves. -/
def run (dev : Device Op Ans σ) (fate : Op → Fate) : Prog Op Ans α → σ → Option α × σ
  | ret a, s => (some a, s)
  | call op next, s =>
    match fate op with
    | .done => (next (dev.perform op s).2).run dev fate (dev.perform op s).1
    | .failed => (next (dev.fail op s).2).run dev fate (dev.fail op s).1
    | .stopped => (none, s)

section Rules

variable {dev : Device Op Ans σ} {fate : Op → Fate}

@[simp] theorem run_ret (a : α) (s : σ) :
    (ret a : Prog Op Ans α).run dev fate s = (some a, s) := rfl

theorem run_call_done {op : Op} (h : fate op = .done) (next : Ans → Prog Op Ans α) (s : σ) :
    (call op next).run dev fate s
      = (next (dev.perform op s).2).run dev fate (dev.perform op s).1 := by
  rw [run, h]

/-- The second program runs from where the first one ends. -/
theorem run_bind (p : Prog Op Ans α) (f : α → Prog Op Ans β) : ∀ s : σ, (p.bind f).run dev fate s =
      match p.run dev fate s with
      | (some a, s') => (f a).run dev fate s'
      | (none, s') => (none, s') := by
  induction p with
  | ret a => intro s; rfl
  | call op next ih =>
    intro s
    rw [bind, run, run]
    cases fate op with
    | done => exact ih _ _
    | failed => exact ih _ _
    | stopped => rfl

/-- If `p` ends, the result and the state satisfy `Q`; if it is stopped, the state satisfies `C`. -/
def Safe (dev : Device Op Ans σ) (fate : Op → Fate) (Q : α → σ → Prop) (C : σ → Prop)
    (p : Prog Op Ans α) (s : σ) : Prop :=
  match p.run dev fate s with
  | (some a, s') => Q a s'
  | (none, s') => C s'

variable {Q Q' : α → σ → Prop} {C C' : σ → Prop} {p : Prog Op Ans α}

theorem safe_ret {a : α} {s : σ} (h : Q a s) : Safe dev fate Q C (ret a) s := h

theorem safe_call {op : Op} {next : Ans → Prog Op Ans α} {s : σ} (hdone : fate op = .done →
      Safe dev fate Q C (next (dev.perform op s).2) (dev.perform op s).1)
    (hfailed : fate op = .failed → Safe dev fate Q C (next (dev.fail op s).2) (dev.fail op s).1)
    (hstopped : fate op = .stopped → C s) : Safe dev fate Q C (call op next) s := by
  unfold Safe
  rw [run]
  cases hf : fate op with
  | done => exact hdone hf
  | failed => exact hfailed hf
  | stopped => exact hstopped hf

theorem safe_bind {R : β → σ → Prop} {f : α → Prog Op Ans β} {s : σ} (hp : Safe dev fate Q C p s)
    (hf : ∀ a s', Q a s' → Safe dev fate R C (f a) s') :
    Safe dev fate R C (p.bind f) s := by
  unfold Safe at hp ⊢
  rw [run_bind]
  cases h : p.run dev fate s with
  | mk r s' =>
    rw [h] at hp
    cases r with
    | some a => exact hf a s' hp
    | none => exact hp

theorem Safe.mono {s : σ} (h : Safe dev fate Q C p s) (hQ : ∀ a s', Q a s' → Q' a s')
    (hC : ∀ s', C s' → C' s') : Safe dev fate Q' C' p s := by
  unfold Safe at h ⊢
  cases hr : p.run dev fate s with
  | mk r s' =>
    rw [hr] at h
    cases r with
    | some a => exact hQ a s' h
    | none => exact hC s' h

/-- What a judgement says of a run that ends. -/
theorem Safe.of_run_some {s s' : σ} {a : α} (h : Safe dev fate Q C p s)
    (hr : p.run dev fate s = (some a, s')) : Q a s' := by
  unfold Safe at h
  rw [hr] at h
  exact h

/-- What a judgement says of a run that is stopped. -/
theorem Safe.of_run_none {s s' : σ} (h : Safe dev fate Q C p s) (hr : p.run dev fate s = (none, s'))
    : C s' := by
  unfold Safe at h
  rw [hr] at h
  exact h

/-- A program none of whose operations is stopped ends. -/
theorem run_ends (hfate : ∀ op, fate op ≠ .stopped) (p : Prog Op Ans α) : ∀ s : σ,
    ∃ a s', p.run dev fate s = (some a, s') := by
  induction p with
  | ret a => intro s; exact ⟨a, s, rfl⟩
  | call op next ih =>
    intro s
    rw [run]
    cases hf : fate op with
    | done => exact ih _ _
    | failed => exact ih _ _
    | stopped => exact absurd hf (hfate op)

/-! ### Runs without faults -/

/-- Run a program all of whose operations are done. -/
def complete (dev : Device Op Ans σ) : Prog Op Ans α → σ → α × σ
  | ret a, s => (a, s)
  | call op next, s => (next (dev.perform op s).2).complete dev (dev.perform op s).1

theorem run_eq_complete (hfate : ∀ op, fate op = .done) (p : Prog Op Ans α) : ∀ s : σ,
    p.run dev fate s = (some (p.complete dev s).1, (p.complete dev s).2) := by
  induction p with
  | ret a => intro s; rfl
  | call op next ih =>
    intro s
    rw [run_call_done (hfate op), complete]
    exact ih _ _

/-- What a judgement says of a run without faults. -/
theorem Safe.of_complete {s : σ} (h : Safe dev (fun _ => .done) Q C p s) :
    Q (p.complete dev s).1 (p.complete dev s).2 :=
  h.of_run_some (run_eq_complete (fun _ => rfl) p s)

/-! ### The operations of a program -/

/-- Every operation that a program may issue satisfies `P`, whatever the answers are. -/
def Issues (P : Op → Prop) : Prog Op Ans α → Prop
  | ret _ => True
  | call op next => P op ∧ ∀ x, (next x).Issues P

variable {P : Op → Prop}

theorem Issues.bind {f : α → Prog Op Ans β} (hp : p.Issues P) (hf : ∀ a, (f a).Issues P)
    : (p.bind f).Issues P := by
  induction p with
  | ret a => exact hf a
  | call op next ih => exact ⟨hp.1, fun x => ih x (hp.2 x)⟩

/-- What the operations keep, done or failed, every run keeps. -/
theorem Issues.safe {I : σ → Prop}
    (hI : ∀ op s, P op → I s → I (dev.perform op s).1 ∧ I (dev.fail op s).1) (hp : p.Issues P)
    : ∀ {s : σ}, I s → Safe dev fate (fun _ => I) I p s := by
  induction p with
  | ret a => intro s hs; exact safe_ret hs
  | call op next ih =>
    intro s hs
    obtain ⟨hdone, hfailed⟩ := hI op s hp.1 hs
    exact safe_call (fun _ => ih _ (hp.2 _) hdone) (fun _ => ih _ (hp.2 _) hfailed) fun _ => hs

end Rules

end Prog

end Framework
