import Mathlib.Algebra.GroupWithZero.Nat
import Mathlib.Data.List.Basic
import SpiritChat.Lib.Exec
import SpiritChat.Lib.Reader

/-! # Checked operations of Rust

Slices, sizes and shifts that panic out of bounds, and when a computation with them is one without. -/

namespace Lib

/-- The call came back, with a value or with an error. -/
def Exec.Returns {ε α : Type} (x : Exec ε α) : Prop := (∃ a, x = .ok a) ∨ ∃ e, x = .error (.err e)

/-- A call that does not panic, as one that could. -/
def Exec.ofExcept {ε α : Type} : Except ε α → Exec ε α
  | .ok a => .ok a
  | .error e => .error (.err e)

/-- The greatest size of an object, `isize::MAX`. -/
def isizeMax : ℕ := 2 ^ 63 - 1

section
variable {ε α β : Type}

/-- A sum of two `usize`s -/
def addUsize (a b : ℕ) : Exec ε ℕ := if a + b < 2 ^ 64 then .ok (a + b) else .error .panic

/-- `a << shift` of a `u64` -/
def shlU64 (a shift : ℕ) : Exec ε ℕ := if shift < 64 then .ok (a <<< shift % 2 ^ 64) else .error .panic

/-- `input.get(start..stop)` -/
def getRange (input : List α) (start stop : ℕ) : Option (List α) :=
  if start ≤ stop ∧ stop ≤ input.length then some ((input.drop start).take (stop - start)) else none

/-- `&input[start..stop]` -/
def slice (input : List α) (start stop : ℕ) : Exec ε (List α) := Exec.expect (getRange input start stop)

/-- `&input[start..]` -/
def sliceFrom (input : List α) (start : ℕ) : Exec ε (List α) :=
  if start ≤ input.length then .ok (input.drop start) else .error .panic

/-- `Vec::with_capacity(count)` for elements of `size` bytes -/
def withCapacity (size count : ℕ) : Exec ε Unit := if count * size ≤ isizeMax then .ok () else .error .panic

/-! ### What they give -/

namespace Exec

theorem Returns.ok (a : α) : Returns (.ok a : Exec ε α) := .inl ⟨a, rfl⟩

theorem Returns.err (e : ε) : Returns (.error (.err e) : Exec ε α) := .inr ⟨e, rfl⟩

theorem Returns.bind {x : Exec ε α} {f : α → Exec ε β} (h : Returns x) (hf : ∀ a, x = .ok a → Returns (f a)) :
    Returns (x >>= f) := by
  rcases h with ⟨a, rfl⟩ | ⟨e, rfl⟩
  · exact hf a rfl
  · exact .err e

theorem returns_ofOption (x : Option α) (e : ε) : Returns (ofOption x e) := by
  cases x with
  | none => exact .err e
  | some a => exact .ok a

theorem returns_ofExcept (x : Except ε α) : Returns (ofExcept x) := by
  cases x with
  | error e => exact .err e
  | ok a => exact .ok a

theorem not_returns_panic : ¬Returns (.error .panic : Exec ε α) := by
  rintro (⟨a, h⟩ | ⟨e, h⟩) <;> cases h

@[simp] theorem ofExcept_ok (a : α) : (ofExcept (.ok a) : Exec ε α) = .ok a := rfl

@[simp] theorem ofExcept_error (e : ε) : (ofExcept (.error e) : Exec ε α) = .error (.err e) := rfl

theorem ofExcept_bind (x : Except ε α) (f : α → Except ε β) : ofExcept (x >>= f) = ofExcept x >>= fun a => ofExcept (f a) := by
  cases x <;> rfl

theorem ofExcept_eq_ok {x : Except ε α} {a : α} : ofExcept x = .ok a ↔ x = .ok a := by
  cases x <;> simp [ofExcept]

end Exec

variable {input : List α} {start stop : ℕ}

theorem addUsize_eq {a b : ℕ} (h : a + b < 2 ^ 64) : (addUsize a b : Exec ε ℕ) = .ok (a + b) := if_pos h

theorem shlU64_eq {a shift : ℕ} (h : shift < 64) : (shlU64 a shift : Exec ε ℕ) = .ok (a <<< shift % 2 ^ 64) := if_pos h

theorem getRange_of_le (h : start ≤ stop) (h' : stop ≤ input.length) :
    getRange input start stop = some ((input.drop start).take (stop - start)) := if_pos ⟨h, h'⟩

/-- A range and what comes after it. -/
theorem getRange_append {s : List α} (h : getRange input start stop = some s) :
    s.length = stop - start ∧ input.drop start = s ++ input.drop stop := by
  unfold getRange at h
  split_ifs at h with hle
  obtain rfl := Option.some.inj h
  refine ⟨List.length_take_of_le (by rw [List.length_drop]; omega), ?_⟩
  have hstop : input.drop stop = (input.drop start).drop (stop - start) := by
    rw [List.drop_drop, Nat.add_sub_cancel' hle.1]
  rw [hstop, List.take_append_drop]

theorem slice_of_le (h : start ≤ stop) (h' : stop ≤ input.length) :
    (slice input start stop : Exec ε (List α)) = .ok ((input.drop start).take (stop - start)) := by
  rw [slice, getRange_of_le h h', Exec.expect_some]

theorem slice_append {s : List α} (h : (slice input start stop : Exec ε (List α)) = .ok s) :
    s.length = stop - start ∧ input.drop start = s ++ input.drop stop := getRange_append (Exec.expect_eq_ok.mp h)

theorem sliceFrom_of_le (h : start ≤ input.length) : (sliceFrom input start : Exec ε (List α)) = .ok (input.drop start) :=
  if_pos h

end

section
variable {ε : Type} {size count : ℕ}

theorem withCapacity_eq (h : count * size ≤ isizeMax) : (withCapacity size count : Exec ε Unit) = .ok () := if_pos h

theorem withCapacity_panics (h : isizeMax < count * size) : (withCapacity size count : Exec ε Unit) = .error .panic :=
  if_neg (Nat.not_le.mpr h)

end

/-! ### Readers -/

/-- On every input that fits into memory `checked` does what `plain` does, and stays within the input. -/
def Reader.Refines {ε α : Type} (checked : Reader (Fault ε) α) (plain : Reader ε α) : Prop :=
  ∀ input offset, input.length ≤ isizeMax → offset ≤ input.length →
    (checked input).run offset = Exec.ofExcept ((plain input).run offset) ∧
      ∀ a stop, (plain input).run offset = .ok (a, stop) → stop ≤ input.length

namespace Reader.Refines
variable {ε α β : Type} {checked : Reader (Fault ε) α} {plain : Reader ε α}

theorem pure (a : α) :
    Reader.Refines (fun _ => (Pure.pure a : StateT ℕ (Except (Fault ε)) α)) (fun _ => (Pure.pure a : StateT ℕ (Except ε) α)) := by
  refine fun input offset _ hle => ⟨rfl, fun b stop h => ?_⟩
  cases h
  exact hle

/-- What follows may rely on what holds of all that is read. -/
theorem bind_of {P : α → Prop} {next : α → Reader (Fault ε) β} {next' : α → Reader ε β} (h : checked.Refines plain)
    (hP : ∀ input offset a stop, (plain input).run offset = .ok (a, stop) → P a) (h' : ∀ a, P a → (next a).Refines (next' a)) :
    Reader.Refines (fun input => checked input >>= fun a => next a input) (fun input => plain input >>= fun a => next' a input) := by
  intro input offset hsize hle
  obtain ⟨heq, hstop⟩ := h input offset hsize hle
  rw [StateT.run_bind, StateT.run_bind, heq]
  cases hr : (plain input).run offset with
  | error e => exact ⟨rfl, fun b stop hb => by cases hb⟩
  | ok r => exact h' r.1 (hP input offset r.1 r.2 hr) input r.2 hsize (hstop r.1 r.2 hr)

theorem bind {next : α → Reader (Fault ε) β} {next' : α → Reader ε β} (h : checked.Refines plain)
    (h' : ∀ a, (next a).Refines (next' a)) :
    Reader.Refines (fun input => checked input >>= fun a => next a input) (fun input => plain input >>= fun a => next' a input) :=
  h.bind_of (P := fun _ => True) (fun _ _ _ _ _ => trivial) fun a _ => h' a

/-- On the whole input. -/
theorem run' (h : checked.Refines plain) {input : List UInt8} (hsize : input.length ≤ isizeMax) :
    (checked input).run' 0 = Exec.ofExcept ((plain input).run' 0) := by
  have heq := (h input 0 hsize (Nat.zero_le _)).1
  change Prod.fst <$> (checked input).run 0 = Exec.ofExcept (Prod.fst <$> (plain input).run 0)
  rw [heq]
  cases (plain input).run 0 <;> rfl

end Reader.Refines
end Lib
