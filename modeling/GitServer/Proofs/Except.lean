import Mathlib
/-!
# Computations that may fail

The readers and decoders of the library return `Except`; proofs about them take a run apart
one step at a time. A run that succeeds is a first step that succeeds and a rest that succeeds
from its value (`Except.bind_eq_ok`, and `Except.map_eq_ok` for a map); a run that fails failed at its first step or later
(`Except.bind_eq_error`). A closed run is checked by evaluating its value or its error
(`Except.eq_ok_of_toOption`, `Except.eq_error_of_error?`).
-/

namespace Except

/-- A bind that succeeds is a first step that succeeds and a rest that succeeds from it. -/
theorem bind_eq_ok {ε α β : Type} {x : Except ε α} {f : α → Except ε β} {b : β} :
    x >>= f = .ok b ↔ ∃ a, x = .ok a ∧ f a = .ok b := by
  cases x <;> simp [bind, Except.bind]

/-- A map that succeeds mapped a success. -/
theorem map_eq_ok {ε α β : Type} {x : Except ε α} {f : α → β} {b : β} :
    x.map f = .ok b ↔ ∃ a, x = .ok a ∧ f a = b := by
  cases x <;> simp [Except.map]

/-- A bind that fails failed at its first step, or at the rest after a first step that
succeeded. -/
theorem bind_eq_error {ε α β : Type} {x : Except ε α} {f : α → Except ε β} {e : ε} :
    x >>= f = .error e ↔ x = .error e ∨ ∃ a, x = .ok a ∧ f a = .error e := by
  cases x <;> simp [bind, Except.bind]

/-- A computation whose value, if any, is `a` succeeds with `a`; this lets a closed run be
checked by evaluation. -/
theorem eq_ok_of_toOption {ε α : Type} {x : Except ε α} {a : α} (h : x.toOption = some a) :
    x = .ok a := by
  cases x <;> simp_all [Except.toOption]

/-- The error of a computation, if it fails. -/
def error? {ε α : Type} : Except ε α → Option ε
  | .error e => some e
  | .ok _ => none

/-- A computation whose error, if any, is `e` fails with `e`; this lets a closed failing run be
checked by evaluation. -/
theorem eq_error_of_error? {ε α : Type} {x : Except ε α} {e : ε} (h : x.error? = some e) :
    x = .error e := by
  cases x <;> simp_all [error?]

end Except
