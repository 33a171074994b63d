import Mathlib.Order.Lattice
import SpiritChat.Ledger.Hash

/-! # Difficulty

Compact targets and retargeting. The expansion of a target is exact; retargeting and the work of a block
go through `f64`, so they are stated over any carrier of its operations. -/

namespace SpiritChat

/-- The operations of `f64` that the ledger uses. All its numbers come from sums, products and quotients
    of non-negative ones, so no NaN arises and the comparison is a linear order. -/
class Float64 (F : Type) extends LinearOrder F, Add F, Mul F, Div F where
  /-- an integer `as f64`, and the integral literals -/
  ofInt : ℤ → F
  /-- `f64::MAX` -/
  maxValue : F
  floor : F → F
  /-- `%` -/
  rem : F → F → F
  /-- `as u8` -/
  toU8 : F → UInt8

/-- A target as a header has it: an exponent byte and three of mantissa. -/
abbrev CompactTarget := UInt32

def initialDifficultyBits : CompactTarget := 0x1effffff

def targetBlockTimeSecs : ℤ := 300

def retargetIntervalBlocks : ℕ := 288

/-- The bytes of `expand_target`. -/
def expandBytes (bits : CompactTarget) : List UInt8 :=
  let exponent := (bits >>> 24).toNat
  let mantissa := bits &&& 0x00ffffff
  let out := List.replicate 32 (0 : UInt8)
  if mantissa = 0 then out
  else if 3 ≤ exponent then
    -- An exponent above 32 would shift the mantissa out of the 256 bits: nothing meets a zero target.
    if 32 < exponent then out
    else
      let start := 32 - exponent
      let put (idx : ℕ) (byte : UInt8) (out : List UInt8) := if idx < 32 then out.set idx byte else out
      put (start + 2) mantissa.toUInt8
        (put (start + 1) (mantissa >>> 8).toUInt8 (put start (mantissa >>> 16).toUInt8 out))
  else
    let shifted := mantissa.toNat >>> (8 * (3 - exponent))
    out.take 24 ++ (Lib.leBytes 8 shifted).reverse

theorem length_expandBytes (bits : CompactTarget) : (expandBytes bits).length = 32 := by
  unfold expandBytes
  dsimp only
  split_ifs <;> simp

/-- The target a block hash must not exceed: `mantissa * 256 ^ (exponent - 3)`. -/
def expandTarget (bits : CompactTarget) : Hash32 := ⟨expandBytes bits, length_expandBytes bits⟩

/-- The compact form of a target: its first nonzero byte and the two after it. -/
def compactFromTarget (target : Hash32) : CompactTarget :=
  let bytes := target.asBytes
  match bytes.findIdx? (· ≠ 0) with
  | none => 0
  | some firstNonzero =>
    let exponent := 32 - firstNonzero
    let b0 := bytes.getD firstNonzero 0
    let b1 := bytes.getD (firstNonzero + 1) 0
    let b2 := bytes.getD (firstNonzero + 2) 0
    let mantissa := (b0.toUInt32 <<< 16) ||| (b1.toUInt32 <<< 8) ||| b2.toUInt32
    (UInt32.ofNat exponent <<< 24) ||| mantissa

section Work
variable {F : Type} [Float64 F]

/-- A target's magnitude. -/
def targetAsF64 (target : Hash32) : F :=
  target.asBytes.foldl (fun value byte => value * Float64.ofInt 256 + Float64.ofInt byte.toNat) (Float64.ofInt 0)

/-- The loop of `f64_as_target`, which fills the array from its end. -/
def f64Bytes : ℕ → F → List UInt8 → List UInt8
  | 0, _, bytes => bytes
  | n + 1, value, bytes =>
    f64Bytes n (Float64.floor (value / Float64.ofInt 256))
      (Float64.toU8 (Float64.rem value (Float64.ofInt 256)) :: bytes)

theorem length_f64Bytes (n : ℕ) (value : F) (bytes : List UInt8) :
    (f64Bytes n value bytes).length = bytes.length + n := by
  induction n generalizing value bytes with
  | zero => rfl
  | succ n ih => simp [f64Bytes, ih]; omega

/-- The largest target. -/
def maxTarget : Hash32 := ⟨.replicate 32 0xff⟩

def f64AsTarget (value : F) : Hash32 :=
  let value := if value < Float64.ofInt 0 then Float64.ofInt 0 else value
  let max : F := targetAsF64 maxTarget
  let value := if value > max then max else value
  ⟨f64Bytes 32 value [], by simp [length_f64Bytes]⟩

/-- `clamp` -/
def clamp (x lo hi : F) : F := if x < lo then lo else if x > hi then hi else x

variable (F) in
/-- Scales the target of `bits` by `actual / expected`, by a factor of at most 4 either way. -/
def retarget (bits : CompactTarget) (actualSpanSecs expectedSpanSecs : ℤ) : CompactTarget :=
  let ratio : F := clamp (Float64.ofInt actualSpanSecs / Float64.ofInt expectedSpanSecs)
    (Float64.ofInt 1 / Float64.ofInt 4) (Float64.ofInt 4)
  let scaled := targetAsF64 (expandTarget bits) * ratio
  compactFromTarget (f64AsTarget scaled)

/-- What one block at difficulty `bits` adds to the work of its chain. -/
def workOf (bits : CompactTarget) : F :=
  let target : F := targetAsF64 (expandTarget bits)
  if target ≤ Float64.ofInt 0 then Float64.maxValue
  else targetAsF64 maxTarget / (target + Float64.ofInt 1)

end Work
end SpiritChat
