import Mathlib.Data.List.Lex
import Mathlib.Order.Basic
import SpiritChat.Lib.Bytes

/-! # Digests

A 32-byte SHA-256 digest: a block's or a transaction's identity, and what the proof of work compares. -/

namespace SpiritChat

/-- `[u8; n]` -/
structure Bytes (n : ℕ) where
  toList : List UInt8
  length_eq : toList.length = n
deriving DecidableEq

namespace Bytes

/-- `[b; n]` -/
def replicate (n : ℕ) (b : UInt8) : Bytes n := ⟨List.replicate n b, List.length_replicate⟩

theorem ext_toList {n : ℕ} {a b : Bytes n} (h : a.toList = b.toList) : a = b := by
  cases a
  cases b
  simpa using h

end Bytes

/-- A 32-byte SHA-256 digest. -/
structure Hash32 where
  bytes : Bytes 32

namespace Hash32

def zero : Hash32 := ⟨.replicate 32 0⟩

def asBytes (h : Hash32) : List UInt8 := h.bytes.toList

@[simp] theorem length_asBytes (h : Hash32) : h.asBytes.length = 32 := h.bytes.length_eq

theorem asBytes_inj {a b : Hash32} (h : a.asBytes = b.asBytes) : a = b := by
  cases a
  cases b
  exact congrArg mk (Bytes.ext_toList h)

/-- The digest as a big-endian number. -/
def toNat (h : Hash32) : ℕ := Lib.ofBytesBE h.asBytes

theorem toNat_inj {a b : Hash32} : a.toNat = b.toNat ↔ a = b :=
  ⟨fun h => asBytes_inj (Lib.ofBytesBE_inj (by simp) h), congrArg toNat⟩

instance : DecidableEq Hash32 := fun _ _ => decidable_of_iff _ toNat_inj

/-- The digits of the digest as a big-endian number. -/
def digits (h : Hash32) : List ℕ := h.asBytes.map UInt8.toNat

theorem digits_injective : Function.Injective digits := fun _ _ h =>
  asBytes_inj (List.map_injective_iff.mpr (fun _ _ => UInt8.toNat_inj.mp) h)

/-- Arrays compare byte by byte, first byte first. -/
instance : LE Hash32 := ⟨fun a b => a.digits ≤ b.digits⟩

instance : DecidableLE Hash32 := fun a b => inferInstanceAs (Decidable (a.digits ≤ b.digits))

instance : Std.Total (α := Hash32) (· ≤ ·) := ⟨fun a b => le_total a.digits b.digits⟩

instance : IsTrans Hash32 (· ≤ ·) := ⟨fun a b _ h₁ h₂ => le_trans (show a.digits ≤ b.digits from h₁) h₂⟩

instance : Std.Antisymm (α := Hash32) (· ≤ ·) := ⟨fun _ _ h₁ h₂ => digits_injective (le_antisymm h₁ h₂)⟩

/-- Whether this hash, read as a big-endian number, is small enough to satisfy `target`. -/
def meetsTarget (h target : Hash32) : Bool := h ≤ target

end Hash32

/-- What the ledger takes from third-party crates (SHA-256, the checks of Ed25519) and from the Unicode
    tables. -/
class Primitives where
  /-- `Sha256::digest` -/
  sha256 : List UInt8 → Hash32
  /-- the Unicode table behind `str::to_lowercase` on text that is not ASCII -/
  unicodeLowercase : String → String
  /-- `VerifyingKey::from_bytes` accepts the bytes -/
  isPublicKey : Bytes 32 → Bool
  /-- `VerifyingKey::verify` of a message and a signature -/
  verifySignature : Bytes 32 → List UInt8 → Bytes 64 → Bool

/-- `Hash32::of` -/
def Hash32.of [Primitives] (bytes : List UInt8) : Hash32 := Primitives.sha256 bytes

end SpiritChat
