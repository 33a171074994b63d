import Mathlib.Data.List.Basic

/-! # Readers

A reader takes values from an input at an offset that it moves. Readers are composed as the writers of their
parts are. -/

namespace Lib

/-- A function of an input and a `&mut` offset. -/
abbrev Reader (ε α : Type) := List UInt8 → StateT ℕ (Except ε) α

/-- `read` takes exactly the bytes `written` off any input and gives `a`. -/
def Reads {ε α : Type} (read : Reader ε α) (written : List UInt8) (a : α) : Prop :=
  ∀ before after, (read (before ++ (written ++ after))).run before.length = .ok (a, before.length + written.length)

namespace Reads
variable {ε α β : Type} {read : Reader ε α} {w w' : List UInt8} {a : α} {b : β}

theorem pure (a : α) : Reads (fun _ => (Pure.pure a : StateT ℕ (Except ε) α)) [] a := fun _ _ => rfl

theorem bind {next : α → Reader ε β} (h : Reads read w a) (h' : Reads (next a) w' b) :
    Reads (fun input => read input >>= fun x => next x input) (w ++ w') b := by
  intro before after
  have hfirst := h before (w' ++ after)
  have hsecond := h' (before ++ w) after
  rw [List.length_append, List.append_assoc] at hsecond
  rw [StateT.run_bind, List.append_assoc, hfirst, List.length_append, ← Nat.add_assoc]
  exact hsecond

/-- The last step of a reader only computes. -/
theorem map (h : Reads read w a) (f : α → β) : Reads (fun input => read input >>= fun x => Pure.pure (f x)) w (f a) := by
  let last : α → Reader ε β := fun x _ => Pure.pure (f x)
  have hlast : Reads (last a) [] (f a) := .pure (f a)
  have hwhole := h.bind hlast
  rwa [List.append_nil] at hwhole

/-- What is read of the whole input. -/
theorem run' (h : Reads read w a) : (read w).run' 0 = .ok a := by
  have := h [] []
  rw [List.nil_append, List.append_nil] at this
  rw [StateT.run', show read w 0 = _ from this]
  rfl

end Reads
end Lib
