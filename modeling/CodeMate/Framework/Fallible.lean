/-!
# Steps that may fail

A computation in `Except` that succeeded did each of its parts (`bind_ok`). A
transaction (`transact`) runs such a computation on a state and leaves the state
as it was when it fails; what every success keeps, the transaction keeps
(`transact_rec`).
-/

namespace Framework

variable {ε α β σ : Type}

/-- A sequence that succeeded. -/
theorem bind_ok {x : Except ε α} {f : α → Except ε β} {b : β} (h : x >>= f = .ok b) :
    ∃ a, x = .ok a ∧ f a = .ok b := by
  cases x with
  | error e => cases h
  | ok a => exact ⟨a, rfl, h⟩

/-- The state after a transaction: that of a success, and the one before it after a failure. -/
def transact (s : σ) : Except ε (α × σ) → σ
  | .ok (_, t) => t
  | .error _ => s

/-- What holds before, and after each success, holds after the transaction. -/
theorem transact_rec {P : σ → Prop} {s : σ} {result : Except ε (α × σ)} (hs : P s)
    (hok : ∀ a t, result = .ok (a, t) → P t) : P (transact s result) := by
  cases result with
  | error e => exact hs
  | ok at' => exact hok at'.1 at'.2 rfl

end Framework
