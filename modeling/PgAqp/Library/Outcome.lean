/-!
# What a computation that may fail does

A specification of a computation in `Except` has two parts: what holds of its value, and
what is known when it fails.
-/

namespace PgAqp.Library

variable {ε β γ : Type}

def Outcome (good : β → Prop) (bad : ε → Prop) : Except ε β → Prop
  | .ok value => good value
  | .error error => bad error

namespace Outcome

variable {middle : β → Prop} {bad : ε → Prop}

theorem mono (out : Outcome middle bad res) (values : ∀ value, middle value → weaker value)
    (errors : ∀ error, bad error → other error) : Outcome weaker other res := by
  cases res with
  | ok value => exact values value out
  | error error => exact errors error out

theorem bind (out : Outcome middle bad first)
    (rest : ∀ value, middle value → Outcome good bad (next value)) :
    Outcome good bad (first.bind next) := by
  cases first with
  | ok value => exact rest value out
  | error error => exact out

theorem map (out : Outcome middle bad first)
    (values : ∀ value, middle value → good (f value)) : Outcome good bad (first.map f) := by
  cases first with
  | ok value => exact values value out
  | error error => exact out

end Outcome

end PgAqp.Library
