import Schemata.Conversion.Error
import Schemata.Registry.Basic
/-!
# Conversion — a computation with a registry

A conversion may register schemas on its way and may fail.  What was registered before a failure
stays registered.
-/
namespace Schemata

/-- A computation that reads and extends a registry, and may fail. -/
def Conversion (α : Type) : Type := Registry → Except ConvertError α × Registry

namespace Conversion

variable {α β : Type}

def run (c : Conversion α) (r : Registry) : Except ConvertError α × Registry := c r

/-- One conversion after the other; a failure ends the run. -/
def andThen (c : Conversion α) (next : α → Conversion β) : Conversion β := fun r =>
  match c r with
  | (.ok a, r) => next a r
  | (.error e, r) => (.error e, r)

instance : Monad Conversion where
  pure a := fun r => (.ok a, r)
  bind := andThen

def fail (e : ConvertError) : Conversion α := fun r => (.error e, r)

def lift : Except ConvertError α → Conversion α
  | .ok a => pure a
  | .error e => fail e

/-- Run a conversion and give what came of it, so that a failure does not end the run. -/
def attempt (c : Conversion α) : Conversion (Except ConvertError α) := fun r =>
  let (result, r) := c r
  (.ok result, r)

def isTaken (path : String) : Conversion Bool := fun r => (.ok (r.contains path), r)

def register (path : String) (schema : Json) : Conversion Unit := fun r =>
  (.ok (), r.register path schema)

/-! ## Runs -/

@[simp] theorem run_pure (a : α) (r : Registry) : run (pure a) r = (.ok a, r) := rfl

@[simp] theorem run_fail (e : ConvertError) (r : Registry) :
    run (fail e : Conversion α) r = (.error e, r) := rfl

@[simp] theorem run_lift (x : Except ConvertError α) (r : Registry) : run (lift x) r = (x, r) := by
  cases x <;> rfl

@[simp] theorem run_attempt (c : Conversion α) (r : Registry) :
    run (attempt c) r = (.ok (run c r).1, (run c r).2) := rfl

@[simp] theorem run_isTaken (path : String) (r : Registry) :
    run (isTaken path) r = (.ok (r.contains path), r) := rfl

@[simp] theorem run_register (path : String) (schema : Json) (r : Registry) :
    run (register path schema) r = (.ok (), r.register path schema) := rfl

theorem run_bind (c : Conversion α) (next : α → Conversion β) (r : Registry) :
    run (c >>= next) r =
      match run c r with
      | (.ok a, r) => run (next a) r
      | (.error e, r) => (.error e, r) := rfl

theorem ext {c d : Conversion α} (h : ∀ r, run c r = run d r) : c = d := funext h

instance : LawfulMonad Conversion := LawfulMonad.mk' Conversion
  (fun c => ext fun r => by
    change run (c >>= fun a => pure a) r = run c r
    rw [run_bind]; rcases run c r with ⟨_ | _, _⟩ <;> rfl)
  (fun _ _ => rfl)
  (fun c f g => ext fun r => by
    rw [run_bind, run_bind, run_bind]; rcases run c r with ⟨_ | _, _⟩ <;> rfl)

end Conversion
end Schemata
