import Mathlib.Tactic.Common

/-!
# Workers that are woken through a channel with one slot

A goroutine that does work for others waits on a channel with room for a single value. Whoever makes
work sends to it without blocking, and the send is dropped if the slot is taken. The worker empties
the slot before it looks for work, and goes back to sleep once it has found none.

A worker that sleeps on work would sleep until the next send, so no wake-up may be lost. The
order of things makes sure of it: a send that is dropped finds the slot full, so the worker will
look again; and one that arrives after the worker has looked for the last time fills the slot.
`Woken.Attended` is the invariant, and `Woken.Step` lists what the goroutines involved may do
for it to hold: whoever makes work sends, and the worker makes none after it has looked.
-/

namespace Framework

/-- Where a worker stands. -/
inductive Worker where
  /-- It waits for the slot to be filled. -/
  | asleep
  /-- It is going to look for work before it sleeps. -/
  | looking
  /-- It has found none, and is on its way back to sleep. -/
  | leaving
  deriving DecidableEq

/-- The state of the system, the slot and the worker. -/
structure Woken (S : Type) where
  state : S
  slot : Bool
  worker : Worker

namespace Woken

variable {S : Type} {Pending : S → Prop} {x y : Woken S}

/-- What may happen, where `Pending` says that there is work. -/
inductive Step (Pending : S → Prop) (x : Woken S) : Woken S → Prop
  /-- Someone else changes the state, and sends if that has made work. -/
  | post (s : S) (sends : Bool) (h : Pending s → Pending x.state ∨ sends = true) :
      Step Pending x { x with state := s, slot := x.slot || sends }
  /-- The worker receives. -/
  | wake (h : x.worker = .asleep) (hs : x.slot = true) :
      Step Pending x { x with slot := false, worker := .looking }
  /-- The worker does some work, and will look for more. -/
  | work (s : S) (h : x.worker = .looking) : Step Pending x { x with state := s }
  /-- The worker looks, and there is no work. -/
  | leave (s : S) (h : x.worker = .looking) (hs : ¬ Pending s) :
      Step Pending x { x with state := s, worker := .leaving }
  /-- The worker does what it does at the end. -/
  | tidy (s : S) (h : x.worker = .leaving) (hs : Pending s → Pending x.state) :
      Step Pending x { x with state := s }
  /-- The worker is done. -/
  | sleep (s : S) (h : x.worker = .leaving) (hs : Pending s → Pending x.state) :
      Step Pending x { x with state := s, worker := .asleep }

/-- **No wake-up is lost**: where there is work, the slot is full or the worker is about to look. -/
def Attended (Pending : S → Prop) (x : Woken S) : Prop :=
  Pending x.state → x.slot = true ∨ x.worker = .looking

/-- One step. -/
theorem Attended.step (hx : x.Attended Pending) (h : Step Pending x y) : y.Attended Pending := by
  intro hp
  cases h with
  | post s sends hs =>
    -- what was there was attended to before, and what is new has been sent for
    obtain hold | hnew := hs hp
    · obtain hslot | hlook := hx hold
      · exact .inl (by simp [hslot])
      · exact .inr hlook
    · exact .inl (by simp [hnew])
  | wake hw hs => exact .inr rfl
  | work s hw => exact .inr hw
  | leave s hw hs => exact absurd hp hs
  | tidy s hw hs | sleep s hw hs =>
    obtain hslot | hlook := hx (hs hp)
    · exact .inl hslot
    · cases hw.symm.trans hlook

/-- A worker that sleeps before an empty slot has nothing to do. -/
theorem Attended.not_pending (hx : x.Attended Pending) (hw : x.worker = .asleep)
    (hs : x.slot = false) : ¬ Pending x.state := by
  intro hp
  obtain hslot | hlook := hx hp
  · cases hs.symm.trans hslot
  · cases hw.symm.trans hlook

end Woken

end Framework
