import Mathlib.Data.Rat.Floor
import SpiritChat.Lib.Sha256
import SpiritChat.Ledger.Apply

/-! # Exact arithmetic and SHA-256

A carrier of the work and an instance of the primitives on which the chain runs: exact rationals for `f64`
and the hash function itself. -/

namespace SpiritChat
open Lib

/-- The rationals, where no sum and no quotient is rounded. -/
instance : Float64 ℚ where
  ofInt n := n
  maxValue := (2 ^ 53 - 1) * 2 ^ 971
  floor x := ⌊x⌋
  rem x y := x - y * (if 0 ≤ x / y then (⌊x / y⌋ : ℚ) else ⌈x / y⌉)
  toU8 x := UInt8.ofNat (min 255 ⌊x⌋.toNat)

/-- SHA-256 with a signature check that no key passes. -/
@[reducible] def unsigned : Primitives where
  sha256 message := ⟨Sha256.digest message, Sha256.length_digest message⟩
  unicodeLowercase s := s
  isPublicKey _ := false
  verifySignature _ _ _ := false

/-- A block without transactions, mined by the key of zeros. -/
def emptyBlock (height : UInt64) (prevHash : Hash32) (timestamp nonce : UInt64) : Block where
  header :=
    { version := 1, height, prevHash, timestamp, txCommitment := @Block.computeTxCommitment unsigned []
      difficultyTarget := initialDifficultyBits, nonce, minerPublicKey := .replicate 32 0 }
  transactions := []

/-! ### Mined blocks -/

section
attribute [local instance] unsigned

/-- A child of genesis. -/
def firstBlock : Block := emptyBlock 1 Block.genesis.hash 1750000300 158369

/-- A child of `firstBlock`. -/
def secondBlock : Block := emptyBlock 2 firstBlock.hash 1750000900 18238

/-- A child of `secondBlock` with an earlier timestamp than its parent's. -/
def thirdBlock : Block := emptyBlock 3 secondBlock.hash 1750000600 25040

/-- A sibling of `firstBlock`. -/
def rivalBlock : Block := emptyBlock 1 Block.genesis.hash 1750000301 98225

/-- A clock after all of them. -/
def minedAt : ℕ := 1750001000

end

/-! ### A claim and its block -/

/-- SHA-256 with a signature check that every key passes. The signature of the claim below is a real one. -/
@[reducible] def signed : Primitives where
  sha256 message := ⟨Sha256.digest message, Sha256.length_digest message⟩
  unicodeLowercase s := s
  isPublicKey _ := true
  verifySignature _ _ _ := true

section
attribute [local instance] signed

def aliceKey : Bytes 32 := ⟨[0x8a, 0x88, 0xe3, 0xdd, 0x74, 0x09, 0xf1, 0x95, 0xfd, 0x52, 0xdb, 0x2d, 0x3c, 0xba, 0x5d, 0x72,
  0xca, 0x67, 0x09, 0xbf, 0x1d, 0x94, 0x12, 0x1b, 0xf3, 0x74, 0x88, 0x01, 0xb4, 0x0f, 0x6f, 0x5c], rfl⟩

/-- A claim anchored at genesis. -/
def aliceClaim : Transaction where
  version := 1
  username := "alice"
  ownerPublicKey := aliceKey
  claimedAtHeightHint := 1
  anchorBlockHash := Block.genesis.hash
  nonce := .replicate 8 0
  signature := [0x04, 0xa9, 0x66, 0xe9, 0x8e, 0x17, 0x2b, 0xed, 0xf4, 0x3d, 0x29, 0xe8, 0xda, 0x11, 0xee, 0x31, 0xee, 0xbd,
    0x40, 0xf5, 0xea, 0x33, 0x11, 0xd5, 0xfe, 0xf8, 0x22, 0x2c, 0x30, 0xaf, 0xa3, 0x7a, 0x73, 0xa2, 0x7a, 0xef, 0xc7, 0x4f,
    0x49, 0xf8, 0x5c, 0x50, 0xf7, 0x50, 0x36, 0x00, 0x60, 0x8d, 0xe6, 0xf0, 0x1a, 0x1c, 0xa1, 0x9f, 0x50, 0x88, 0xe7, 0x14,
    0x9b, 0x26, 0x42, 0x98, 0x77, 0x00]

/-- A child of genesis that holds the claim. -/
def claimBlock : Block where
  header :=
    { version := 1, height := 1, prevHash := Block.genesis.hash, timestamp := 1750000302
      txCommitment := Block.computeTxCommitment [aliceClaim], difficultyTarget := initialDifficultyBits, nonce := 109955
      minerPublicKey := .replicate 32 0 }
  transactions := [aliceClaim]

end
end SpiritChat
