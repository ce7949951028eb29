import Stencil.Ledger

/-!
# Runs

A run is a computation that writes a ledger and keeps a watch on whether it has
been called off. Being called off is a matter of time, and time is counted in
reads: the signal may be there from the start, or it may come during any read, and
once it is there it stays. Nothing else passes from one part of a run to the next.
-/

namespace Stencil

/-- When a run is called off. -/
structure Signal where
  /-- Whether the signal is there before the run. -/
  before : Bool
  /-- Whether it comes during the read of the given number, counted from zero, and path. -/
  during : Nat → Path → Bool

namespace Signal

/-- The signal that never comes. -/
def never : Signal := ⟨false, fun _ _ => false⟩

end Signal

/-- What a run knows about being called off. -/
structure Watch where
  /-- The number of reads so far. -/
  reads : Nat
  /-- Whether the signal is there. -/
  raised : Bool
  /-- Whether it has been reported as a problem. -/
  reported : Bool
  deriving DecidableEq, Repr, Inhabited

/-- What a run ends with. -/
structure Outcome (α : Type u) where
  value : α
  ledger : Ledger
  watch : Watch

/-- A computation that writes a ledger under a watch. -/
def Run (α : Type u) : Type u := Watch → Outcome α

namespace Run

protected def pure (a : α) : Run α := fun watch => ⟨a, .empty, watch⟩

protected def bind (m : Run α) (next : α → Run β) : Run β := fun watch =>
  let first := m watch
  let second := next first.value first.watch
  ⟨second.value, first.ledger ++ second.ledger, second.watch⟩

instance : Monad Run where
  pure := Run.pure
  bind := Run.bind

theorem pure_apply (a : α) (watch : Watch) : (pure a : Run α) watch = ⟨a, .empty, watch⟩ := rfl

theorem bind_apply (m : Run α) (next : α → Run β) (watch : Watch) :
    (m >>= next) watch =
      let first := m watch
      let second := next first.value first.watch
      ⟨second.value, first.ledger ++ second.ledger, second.watch⟩ := rfl

instance : LawfulMonad Run := LawfulMonad.mk' _
  (fun m => by
    funext watch
    change (m >>= fun a => pure a) watch = m watch
    simp [bind_apply, pure_apply])
  (fun a next => by
    funext watch
    simp [bind_apply, pure_apply])
  (fun m next last => by
    funext watch
    simp [bind_apply, Ledger.append_assoc])

/-- Writes into the ledger. -/
def tell (ledger : Ledger) : Run Unit := fun watch => ⟨(), ledger, watch⟩

/-- Writes a problem into the ledger. -/
def report (problem : Problem) : Run Unit := tell { problems := [problem] }

/-- The watch as it stands. -/
def watch : Run Watch := fun watch => ⟨watch, .empty, watch⟩

/-- Notes that being called off has been reported. -/
def noteReported : Run Unit := fun watch => ⟨(), .empty, { watch with reported := true }⟩

/-- Reads a file; the signal may come meanwhile. -/
def read (loader : Loader) (signal : Signal) (path : Path) : Run (Except LoadError String) :=
  fun watch =>
    ⟨loader.read path, .empty,
      { watch with
        reads := watch.reads + 1
        raised := watch.raised || signal.during watch.reads path }⟩

/-- Writes, in front of what a run writes, what follows from its result. -/
def heading (write : α → Ledger) (m : Run α) : Run α := fun watch =>
  let outcome := m watch
  ⟨outcome.value, write outcome.value ++ outcome.ledger, outcome.watch⟩

/-- The watch at the beginning. -/
def initialWatch (signal : Signal) : Watch := ⟨0, signal.before, false⟩

end Run

end Stencil
