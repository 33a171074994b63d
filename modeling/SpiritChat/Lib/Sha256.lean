import Mathlib.Algebra.GroupWithZero.Nat
import Mathlib.Data.List.Basic

/-! # SHA-256

The hash function on byte strings, with words as natural numbers below `2 ^ 32`. -/

namespace Lib.Sha256

/-- Addition of words. -/
def add (x y : ℕ) : ℕ := (x + y) % 2 ^ 32

/-- Rotation of a word to the right. -/
def rotr (n x : ℕ) : ℕ := x >>> n ||| x <<< (32 - n) % 2 ^ 32

/-- The words of a big-endian byte string. -/
def words : List UInt8 → List ℕ
  | a :: b :: c :: d :: rest => (((a.toNat * 256 + b.toNat) * 256 + c.toNat) * 256 + d.toNat) :: words rest
  | _ => []

/-- The bytes of a word. -/
def wordBytes (x : ℕ) : List UInt8 := [24, 16, 8, 0].map fun n => UInt8.ofNat (x >>> n)

/-- The cube roots of the first 64 primes, the first 32 bits of their fractions. -/
def roundConstants : List ℕ := [
  0x428a2f98, 0x71374491, 0xb5c0fbcf, 0xe9b5dba5, 0x3956c25b, 0x59f111f1, 0x923f82a4, 0xab1c5ed5,
  0xd807aa98, 0x12835b01, 0x243185be, 0x550c7dc3, 0x72be5d74, 0x80deb1fe, 0x9bdc06a7, 0xc19bf174,
  0xe49b69c1, 0xefbe4786, 0x0fc19dc6, 0x240ca1cc, 0x2de92c6f, 0x4a7484aa, 0x5cb0a9dc, 0x76f988da,
  0x983e5152, 0xa831c66d, 0xb00327c8, 0xbf597fc7, 0xc6e00bf3, 0xd5a79147, 0x06ca6351, 0x14292967,
  0x27b70a85, 0x2e1b2138, 0x4d2c6dfc, 0x53380d13, 0x650a7354, 0x766a0abb, 0x81c2c92e, 0x92722c85,
  0xa2bfe8a1, 0xa81a664b, 0xc24b8b70, 0xc76c51a3, 0xd192e819, 0xd6990624, 0xf40e3585, 0x106aa070,
  0x19a4c116, 0x1e376c08, 0x2748774c, 0x34b0bcb5, 0x391c0cb3, 0x4ed8aa4a, 0x5b9cca4f, 0x682e6ff3,
  0x748f82ee, 0x78a5636f, 0x84c87814, 0x8cc70208, 0x90befffa, 0xa4506ceb, 0xbef9a3f7, 0xc67178f2]

/-- The working variables. -/
structure Vars where
  (a b c d e f g h : ℕ)

def initial : Vars :=
  ⟨0x6a09e667, 0xbb67ae85, 0x3c6ef372, 0xa54ff53a, 0x510e527f, 0x9b05688c, 0x1f83d9ab, 0x5be0cd19⟩

/-- The message schedule, last word first: each new word comes from the sixteen before it. -/
def schedule : ℕ → List ℕ → List ℕ
  | 0, ws => ws
  | n + 1, ws =>
    let x := ws.getD 14 0
    let y := ws.getD 1 0
    let s0 := rotr 7 x ^^^ rotr 18 x ^^^ x >>> 3
    let s1 := rotr 17 y ^^^ rotr 19 y ^^^ y >>> 10
    schedule n (add (add (ws.getD 15 0) s0) (add (ws.getD 6 0) s1) :: ws)

/-- One round. -/
def round (v : Vars) (k w : ℕ) : Vars :=
  let s1 := rotr 6 v.e ^^^ rotr 11 v.e ^^^ rotr 25 v.e
  let ch := (v.e &&& v.f) ^^^ ((v.e ^^^ 0xffffffff) &&& v.g)
  let t1 := add (add v.h s1) (add ch (add k w))
  let s0 := rotr 2 v.a ^^^ rotr 13 v.a ^^^ rotr 22 v.a
  let maj := (v.a &&& v.b) ^^^ (v.a &&& v.c) ^^^ (v.b &&& v.c)
  ⟨add t1 (add s0 maj), v.a, v.b, v.c, add v.d t1, v.e, v.f, v.g⟩

/-- One block of sixteen words. -/
def compress (v : Vars) (block : List ℕ) : Vars :=
  let ws := (schedule 48 block.reverse).reverse
  let r := (roundConstants.zip ws).foldl (fun r kw => round r kw.1 kw.2) v
  ⟨add v.a r.a, add v.b r.b, add v.c r.c, add v.d r.d, add v.e r.e, add v.f r.f, add v.g r.g, add v.h r.h⟩

/-- The message with its padding and its length in bits. -/
def pad (message : List UInt8) : List UInt8 :=
  let n := message.length
  message ++ (0x80 : UInt8) :: List.replicate ((119 - n % 64) % 64) 0 ++
    [56, 48, 40, 32, 24, 16, 8, 0].map fun s => UInt8.ofNat ((8 * n) >>> s)

/-- The blocks in turn. -/
def compressAll : ℕ → Vars → List ℕ → Vars
  | 0, v, _ => v
  | n + 1, v, ws => compressAll n (compress v (ws.take 16)) (ws.drop 16)

/-- The digest. -/
def digest (message : List UInt8) : List UInt8 :=
  let ws := words (pad message)
  let v := compressAll (ws.length / 16) initial ws
  [v.a, v.b, v.c, v.d, v.e, v.f, v.g, v.h].flatMap wordBytes

theorem length_digest (message : List UInt8) : (digest message).length = 32 := rfl

example : digest [0x61, 0x62, 0x63] =
    [0xba, 0x78, 0x16, 0xbf, 0x8f, 0x01, 0xcf, 0xea, 0x41, 0x41, 0x40, 0xde, 0x5d, 0xae, 0x22, 0x23,
      0xb0, 0x03, 0x61, 0xa3, 0x96, 0x17, 0x7a, 0x9c, 0xb4, 0x10, 0xff, 0x61, 0xf2, 0x00, 0x15, 0xad] := by
  decide +kernel

/-! ### HMAC and HKDF -/

/-- HMAC-SHA256 of a message under a key of at most one block. -/
def hmac (key message : List UInt8) : List UInt8 :=
  let block := key ++ List.replicate (64 - key.length) 0
  digest (block.map (· ^^^ 0x5c) ++ digest (block.map (· ^^^ 0x36) ++ message))

/-- HKDF-SHA256 of a salt, key material and an info, to one block of output. -/
def hkdf (salt material info : List UInt8) : List UInt8 := hmac (hmac salt material) (info ++ [1])

theorem length_hkdf (salt material info : List UInt8) : (hkdf salt material info).length = 32 := rfl

end Lib.Sha256
