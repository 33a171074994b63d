import SpiritChat.Crypto.Prekeys

/-! # Stored prekeys

The bytes of a prekey store, as they are kept in the keychain. -/

namespace SpiritChat
open Lib

/-! ### Varints -/

/-- The loop of `varint::decode`, from byte `i` on. -/
def varintDecodeFrom : List UInt8 → ℕ → ℕ → Except CryptoError (ℕ × ℕ)
  | [], _, _ => .error (.decode "truncated varint")
  | byte :: input, i, value =>
    if 64 ≤ 7 * i then .error (.decode "varint too long")
    else
      let value := value ||| (byte.toNat % 0x80) <<< (7 * i) % 2 ^ 64
      if byte.toNat < 0x80 then .ok (value, i + 1) else varintDecodeFrom input (i + 1) value

/-- `varint::decode`: the value and how many bytes it took. -/
def varintDecode (input : List UInt8) : Except CryptoError (ℕ × ℕ) := varintDecodeFrom input 0 0

theorem or_shiftLeft {v i d : ℕ} (hv : v < 2 ^ i) (hd : d * 2 ^ i < 2 ^ 64) : v ||| d <<< i % 2 ^ 64 = v + d * 2 ^ i := by
  rw [Nat.shiftLeft_eq, Nat.mod_eq_of_lt hd, Nat.mul_comm d, Nat.or_comm, ← Nat.two_pow_add_eq_or_of_lt hv, Nat.add_comm]

theorem varintDecodeFrom_encode {n i v : ℕ} {rest : List UInt8} (hv : v < 2 ^ (7 * i)) (hn : n * 2 ^ (7 * i) < 2 ^ 64)
    (hi : 7 * i < 64) :
    varintDecodeFrom (varintEncode n ++ rest) i v = .ok (v + n * 2 ^ (7 * i), i + (varintEncode n).length) := by
  induction n using Nat.strong_induction_on generalizing i v with
  | _ n ih =>
    by_cases h : n < 0x80
    · have hbyte : (UInt8.ofNat n).toNat = n := by rw [UInt8.toNat_ofNat', Nat.mod_eq_of_lt (by omega)]
      rw [varintEncode_of_lt h, List.singleton_append, varintDecodeFrom, if_neg (by omega)]
      simp only [hbyte, if_pos h, Nat.mod_eq_of_lt h, or_shiftLeft hv hn, List.length_singleton]
    · have hbyte : (UInt8.ofNat (n % 0x80 + 0x80)).toNat = n % 0x80 + 0x80 := by
        rw [UInt8.toNat_ofNat', Nat.mod_eq_of_lt (by omega)]
      have hlow : n % 0x80 * 2 ^ (7 * i) < 2 ^ 64 :=
        lt_of_le_of_lt (Nat.mul_le_mul_right _ (Nat.mod_le n 0x80)) hn
      have hpow : 2 ^ (7 * (i + 1)) = 0x80 * 2 ^ (7 * i) := by rw [Nat.mul_succ, Nat.pow_add, Nat.mul_comm]
      have hv' : v + n % 0x80 * 2 ^ (7 * i) < 2 ^ (7 * (i + 1)) := by
        have : n % 0x80 + 1 ≤ 0x80 := Nat.mod_lt n (by decide)
        calc v + n % 0x80 * 2 ^ (7 * i) < (n % 0x80 + 1) * 2 ^ (7 * i) := by
              rw [Nat.succ_mul (n % 0x80), Nat.add_comm v]
              exact Nat.add_lt_add_left hv _
          _ ≤ 2 ^ (7 * (i + 1)) := hpow ▸ Nat.mul_le_mul_right _ this
      have hhigh : n / 0x80 * 2 ^ (7 * (i + 1)) ≤ n * 2 ^ (7 * i) := by
        rw [hpow, ← Nat.mul_assoc]
        exact Nat.mul_le_mul_right _ (Nat.div_mul_le_self n 0x80)
      have hi' : 7 * (i + 1) < 64 := by
        have h1 : 1 ≤ n / 0x80 := (Nat.one_le_div_iff (by decide)).mpr (by omega)
        have h2 : 2 ^ (7 * (i + 1)) < 2 ^ 64 := calc
          2 ^ (7 * (i + 1)) ≤ n / 0x80 * 2 ^ (7 * (i + 1)) := Nat.le_mul_of_pos_left _ h1
          _ < 2 ^ 64 := lt_of_le_of_lt hhigh hn
        exact (Nat.pow_lt_pow_iff_right (by decide)).mp h2
      rw [varintEncode_of_ge h, List.cons_append, varintDecodeFrom, if_neg (by omega)]
      simp only [hbyte, Nat.add_mod_right, Nat.mod_mod, or_shiftLeft hv hlow, if_neg (show ¬n % 0x80 + 0x80 < 0x80 by omega)]
      rw [ih (n / 0x80) (by omega) hv' (lt_of_le_of_lt hhigh hn) hi', hpow, List.length_cons]
      refine congrArg Except.ok (Prod.ext ?_ (by omega))
      change v + n % 0x80 * 2 ^ (7 * i) + n / 0x80 * (0x80 * 2 ^ (7 * i)) = v + n * 2 ^ (7 * i)
      have hsplit : n * 2 ^ (7 * i) = n % 0x80 * 2 ^ (7 * i) + n / 0x80 * (0x80 * 2 ^ (7 * i)) := by
        rw [← Nat.mul_assoc, ← Nat.add_mul, Nat.mul_comm (n / 0x80), Nat.mod_add_div]
      omega

/-- A varint in front of any bytes is read back. -/
theorem varintDecode_encode {n : ℕ} {rest : List UInt8} (hn : n < 2 ^ 64) :
    varintDecode (varintEncode n ++ rest) = .ok (n, (varintEncode n).length) := by
  rw [varintDecode, varintDecodeFrom_encode (by decide) (by simpa using hn) (by decide)]
  simp

/-! ### Prekey stores -/

def writeSecretList (secrets : List (Bytes 32)) : List UInt8 :=
  varintEncode secrets.length ++ (secrets.map Bytes.toList).flatten

/-- `input.get(offset..offset + n)` -/
def readFixed (n : ℕ) (input : List UInt8) (offset : ℕ) : Option (Bytes n) :=
  if h : ((input.drop offset).take n).length = n then some ⟨(input.drop offset).take n, h⟩ else none

/-- The loop of `read_secret_list`, which goes round `count` times. -/
def readSecrets : ℕ → List UInt8 → ℕ → Except CryptoError (List (Bytes 32) × ℕ)
  | 0, _, offset => .ok ([], offset)
  | count + 1, input, offset =>
    match readFixed 32 input offset with
    | none => .error (.decode "truncated one-time prekey list")
    | some secret => do
      let (secrets, offset) ← readSecrets count input (offset + 32)
      return (secret :: secrets, offset)

/-- The secrets and how many bytes they took. -/
def readSecretList (input : List UInt8) : Except CryptoError (List (Bytes 32) × ℕ) := do
  let (count, offset) ← varintDecode input
  readSecrets count input offset

namespace PrekeyStore

def toBytes (s : PrekeyStore) : List UInt8 :=
  s.signedPrekeySecret.toList ++ s.signedPrekeySignature.toList ++ writeSecretList s.availableOneTimeSecrets ++
    writeSecretList s.pendingOneTimeSecrets

def fromBytes (input : List UInt8) : Except CryptoError PrekeyStore :=
  match readFixed 32 input 0, readFixed 64 input 32 with
  | some signedPrekeySecret, some signedPrekeySignature => do
    let offset := 96
    let (availableOneTimeSecrets, consumed) ← readSecretList (input.drop offset)
    let offset := offset + consumed
    let (pendingOneTimeSecrets, _) ← readSecretList (input.drop offset)
    return { signedPrekeySecret, signedPrekeySignature, availableOneTimeSecrets, pendingOneTimeSecrets }
  | _, _ => .error (.decode "prekey store bytes too short")

end PrekeyStore

theorem readFixed_append {n : ℕ} (before : List UInt8) {after : List UInt8} {b : Bytes n} {offset : ℕ} (h : before.length = offset) :
    readFixed n (before ++ (b.toList ++ after)) offset = some b := by
  have htake : ((before ++ (b.toList ++ after)).drop offset).take n = b.toList := by
    rw [← h, List.drop_left, List.take_left' b.length_eq]
  unfold readFixed
  rw [dif_pos (by rw [htake, b.length_eq])]
  exact congrArg some (Bytes.ext_toList htake)

theorem readSecrets_append {secrets : List (Bytes 32)} (before : List UInt8) {after : List UInt8} {offset : ℕ}
    (h : before.length = offset) :
    readSecrets secrets.length (before ++ ((secrets.map Bytes.toList).flatten ++ after)) offset =
      .ok (secrets, offset + ((secrets.map Bytes.toList).flatten).length) := by
  induction secrets generalizing before offset with
  | nil => rfl
  | cons b secrets ih =>
    have hlen : (before ++ b.toList).length = offset + 32 := by rw [List.length_append, h, b.length_eq]
    have hrest := ih (before ++ b.toList) hlen
    simp only [List.length_cons, readSecrets, List.map_cons, List.flatten_cons, List.append_assoc] at hrest ⊢
    rw [readFixed_append before h]
    simp only [hrest, bind, Except.bind, pure, Except.pure, List.length_append, b.length_eq]
    rw [Nat.add_assoc]

theorem readSecretList_append {secrets : List (Bytes 32)} {after : List UInt8} (h : secrets.length < 2 ^ 64) :
    readSecretList (writeSecretList secrets ++ after) = .ok (secrets, (writeSecretList secrets).length) := by
  unfold readSecretList writeSecretList
  rw [List.append_assoc, varintDecode_encode h]
  simp only [bind, Except.bind]
  rw [readSecrets_append _ rfl, List.length_append]

/-- A stored store is read back as it was. -/
theorem PrekeyStore.fromBytes_toBytes {s : PrekeyStore} (ha : s.availableOneTimeSecrets.length < 2 ^ 64)
    (hp : s.pendingOneTimeSecrets.length < 2 ^ 64) : fromBytes s.toBytes = .ok s := by
  have hsecret : readFixed 32 s.toBytes 0 = some s.signedPrekeySecret := by
    unfold toBytes
    rw [List.append_assoc, List.append_assoc]
    exact readFixed_append [] rfl
  have hsignature : readFixed 64 s.toBytes 32 = some s.signedPrekeySignature := by
    unfold toBytes
    rw [List.append_assoc, List.append_assoc]
    exact readFixed_append _ s.signedPrekeySecret.length_eq
  have hfront : (s.signedPrekeySecret.toList ++ s.signedPrekeySignature.toList).length = 96 := by
    rw [List.length_append, s.signedPrekeySecret.length_eq, s.signedPrekeySignature.length_eq]
  have havailable : s.toBytes.drop 96 = writeSecretList s.availableOneTimeSecrets ++ writeSecretList s.pendingOneTimeSecrets := by
    unfold toBytes
    rw [List.append_assoc, ← hfront, List.drop_left]
  have hpending : s.toBytes.drop (96 + (writeSecretList s.availableOneTimeSecrets).length) =
      writeSecretList s.pendingOneTimeSecrets ++ [] := by
    rw [← List.drop_drop, havailable, List.drop_left, List.append_nil]
  unfold fromBytes
  simp only [hsecret, hsignature, havailable, readSecretList_append ha, bind, Except.bind, hpending,
    readSecretList_append hp, pure, Except.pure]

end SpiritChat
