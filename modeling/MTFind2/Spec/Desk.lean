import Mathlib.Data.List.Basic

/-!
# What the program is for

The program as its clients see it, without threads, locks and queues: a desk to which
requests come one after the other. Each waits until it is called, is served, and is answered.

* At most `capacity` requests are served at a time.
* A request is called only if no request that waits overtakes it.

Nothing here is translated from the source; `Proof/Desk` shows that the program refines it.
-/

namespace MTFind2

/-- How far a request has come. -/
inductive RequestStatus
  | waiting
  | serving
  | answered
deriving DecidableEq

/-- **The desk**: the requests made so far, by their numbers. -/
structure Desk where
  requests : List RequestStatus
deriving DecidableEq

inductive DeskEvent
  | submit
  | call (n : ℕ)
  | answer (n : ℕ)
deriving DecidableEq

namespace Desk

def init : Desk := ⟨[]⟩

/-- Request `n` waits, and no other that waits overtakes it. -/
def Next (overtakes : ℕ → ℕ → Prop) (d : Desk) (n : ℕ) : Prop :=
  d.requests[n]? = some .waiting ∧
    ∀ m < d.requests.length, d.requests[m]? = some .waiting → ¬ overtakes m n

instance (overtakes : ℕ → ℕ → Prop) [DecidableRel overtakes] (d : Desk) (n : ℕ) :
    Decidable (d.Next overtakes n) :=
  inferInstanceAs (Decidable (_ ∧ ∀ m < _, _ → _))

variable (capacity : ℕ) (overtakes : ℕ → ℕ → Prop) [DecidableRel overtakes]

/-- **One step of the desk**, `none` where it is not allowed. -/
def step (d : Desk) : DeskEvent → Option Desk
  | .submit => some ⟨d.requests ++ [.waiting]⟩
  | .call n =>
    if d.Next overtakes n ∧ d.requests.count .serving < capacity then
      some ⟨d.requests.set n .serving⟩
    else none
  | .answer n =>
    if d.requests[n]? = some .serving then some ⟨d.requests.set n .answered⟩ else none

end Desk

end MTFind2
