import Mathlib.Data.Option.Basic

/-! # Outcomes of a Rust computation

A call returns a value, returns an error of its own error type, panics, or never returns. The last two
are outcomes of the model too, so that a theorem can say that they do not happen. -/

namespace Lib

/-- The ways a call fails to produce a value. -/
inductive Fault (ε : Type) where
  /-- the call returned `Err` -/
  | err (e : ε)
  /-- an index, an `unwrap` or an `expect` failed -/
  | panic
  /-- a loop did not come to an end -/
  | diverges
deriving DecidableEq, Repr

/-- A call that returns an `α` or fails. -/
abbrev Exec (ε α : Type) := Except (Fault ε) α

/-- A sequence of two fallible steps succeeds exactly when both do. -/
theorem except_bind_eq_ok {ε α β : Type} {x : Except ε α} {f : α → Except ε β} {b : β} :
    (x >>= f) = .ok b ↔ ∃ a, x = .ok a ∧ f a = .ok b := by
  cases x with
  | error e => simp [bind, Except.bind]
  | ok a => simp [bind, Except.bind]

/-- Two fallible results that are alike: related values, or the same error. -/
inductive Agree {ε α β : Type} (R : α → β → Prop) : Except ε α → Except ε β → Prop
  | ok {a : α} {b : β} (h : R a b) : Agree R (.ok a) (.ok b)
  | error (e : ε) : Agree R (.error e) (.error e)

theorem Agree.bind {ε α β γ δ : Type} {R : α → β → Prop} {S : γ → δ → Prop} {x : Except ε α} {y : Except ε β}
    {f : α → Except ε γ} {g : β → Except ε δ} (h : Agree R x y) (hf : ∀ a b, R a b → Agree S (f a) (g b)) :
    Agree S (x >>= f) (y >>= g) := by
  cases h with
  | ok h => exact hf _ _ h
  | error e => exact .error e

namespace Exec
variable {ε α β : Type}

/-- `ok_or(e)?` -/
def ofOption (x : Option α) (e : ε) : Exec ε α :=
  match x with
  | some a => .ok a
  | none => .error (.err e)

/-- `expect(..)`, or an index into a map or a slice -/
def expect (x : Option α) : Exec ε α :=
  match x with
  | some a => .ok a
  | none => .error .panic

/-- How a call failed, if it did. -/
def fault? : Exec ε α → Option (Fault ε)
  | .ok _ => none
  | .error e => some e

@[simp] theorem ofOption_some (a : α) (e : ε) : ofOption (some a) e = .ok a := rfl
@[simp] theorem ofOption_none (e : ε) : ofOption (none : Option α) e = .error (.err e) := rfl
@[simp] theorem expect_some (a : α) : (expect (some a) : Exec ε α) = .ok a := rfl
@[simp] theorem expect_none : (expect (none : Option α) : Exec ε α) = .error .panic := rfl

theorem ofOption_eq_ok {x : Option α} {e : ε} {a : α} : ofOption x e = .ok a ↔ x = some a := by
  cases x <;> simp [ofOption]

theorem expect_eq_ok {x : Option α} {a : α} : (expect x : Exec ε α) = .ok a ↔ x = some a := by
  cases x <;> simp [expect]

@[simp] theorem ok_bind (a : α) (f : α → Exec ε β) : ((.ok a : Exec ε α) >>= f) = f a := rfl

@[simp] theorem error_bind (e : Fault ε) (f : α → Exec ε β) : ((.error e : Exec ε α) >>= f) = .error e := rfl

/-- An early return of an error when `p` holds. -/
theorem guard_eq_ok {p : Prop} [Decidable p] {e : Fault ε} {x : Exec ε β} {b : β} :
    (if p then .error e else x) = .ok b ↔ ¬p ∧ x = .ok b := by
  by_cases h : p <;> simp [h]

end Exec
end Lib
