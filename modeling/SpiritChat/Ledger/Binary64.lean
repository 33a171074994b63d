import SpiritChat.Ledger.Difficulty
import SpiritChat.Lib.Rounding

/-! # Binary64

`f64` as IEEE 754 has it: numbers with 53 significant bits, and every operation rounds its exact result to the nearest of
them, ties to even. The numbers of a retarget are far from both ends of the exponent's range, which is left out here. -/

namespace SpiritChat
open Lib

structure Binary64 where
  val : ℚ
  representable : Representable 53 val

namespace Binary64

theorem val_injective : Function.Injective val := by
  rintro ⟨x, _⟩ ⟨y, _⟩ rfl
  rfl

def ofRat (x : ℚ) : Binary64 := ⟨roundTo 53 x, representable_roundTo (by decide) x⟩

/-- Rounded towards zero, into the range of a byte. -/
def toByte (x : ℚ) : UInt8 := UInt8.ofNat (min ⌊x⌋₊ 255)

instance : LinearOrder Binary64 := LinearOrder.lift' val val_injective

instance : Float64 Binary64 where
  add x y := ofRat (x.val + y.val)
  mul x y := ofRat (x.val * y.val)
  div x y := ofRat (x.val / y.val)
  ofInt n := ofRat n
  maxValue := ofRat ((2 ^ 53 - 1) * 2 ^ 971)
  floor x := ofRat ⌊x.val⌋
  -- `fmod`: what is left after the largest multiple towards zero.
  rem x y := ofRat (x.val - y.val * (if 0 ≤ x.val / y.val then ⌊x.val / y.val⌋ else ⌈x.val / y.val⌉))
  toU8 x := toByte x.val

end Binary64
end SpiritChat
