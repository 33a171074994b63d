import SpiritChat.Ledger.Hash

/-! # Message headers

The header of a ratchet message and its encoding, which the cipher authenticates with the message. -/

namespace SpiritChat

/-- The errors of `crypto-core`. -/
inductive CryptoError where
  | invalidKeyLength (expected actual : ℕ)
  | decode (reason : String)
  | decryptionFailed
  | prekeyExhausted
  | signatureInvalid
  | messageKeyUnavailable
  | tooManySkippedKeys
deriving DecidableEq

/-- `varint::encode`: seven bits a byte, the low ones first. -/
def varintEncode (value : ℕ) : List UInt8 :=
  if value < 0x80 then [UInt8.ofNat value]
  else UInt8.ofNat (value % 0x80 + 0x80) :: varintEncode (value / 0x80)
termination_by value

/-- The counters are `u32`s. -/
structure MessageHeader where
  dhPublic : Bytes 32
  previousChainLength : ℕ
  messageNumber : ℕ
deriving DecidableEq

def MessageHeader.encode (h : MessageHeader) : List UInt8 :=
  h.dhPublic.toList ++ varintEncode h.previousChainLength ++ varintEncode h.messageNumber

/-! ### The encoding is injective -/

theorem varintEncode_of_lt {n : ℕ} (h : n < 0x80) : varintEncode n = [UInt8.ofNat n] := by
  rw [varintEncode, if_pos h]

theorem varintEncode_of_ge {n : ℕ} (h : ¬n < 0x80) :
    varintEncode n = UInt8.ofNat (n % 0x80 + 0x80) :: varintEncode (n / 0x80) := by
  rw [varintEncode, if_neg h]

/-- A varint ends at its first byte below `0x80`, so it is read off the front of any bytes. -/
theorem varintEncode_append_inj {n m : ℕ} {xs ys : List UInt8} (h : varintEncode n ++ xs = varintEncode m ++ ys) :
    n = m ∧ xs = ys := by
  have hbyte : ∀ k, k < 0x100 → (UInt8.ofNat k).toNat = k := fun k hk => by
    rw [UInt8.toNat_ofNat', Nat.mod_eq_of_lt hk]
  induction n using Nat.strong_induction_on generalizing m with
  | _ n ih =>
    by_cases hn : n < 0x80 <;> by_cases hm : m < 0x80
    · rw [varintEncode_of_lt hn, varintEncode_of_lt hm] at h
      obtain ⟨hhead, htail⟩ := List.cons.inj h
      have := congrArg UInt8.toNat hhead
      rw [hbyte n (by omega), hbyte m (by omega)] at this
      exact ⟨this, htail⟩
    · rw [varintEncode_of_lt hn, varintEncode_of_ge hm] at h
      have := congrArg UInt8.toNat (List.cons.inj h).1
      rw [hbyte n (by omega), hbyte _ (by omega)] at this
      omega
    · rw [varintEncode_of_ge hn, varintEncode_of_lt hm] at h
      have := congrArg UInt8.toNat (List.cons.inj h).1
      rw [hbyte _ (by omega), hbyte m (by omega)] at this
      omega
    · rw [varintEncode_of_ge hn, varintEncode_of_ge hm] at h
      obtain ⟨hhead, htail⟩ := List.cons.inj h
      have hlow := congrArg UInt8.toNat hhead
      rw [hbyte _ (by omega), hbyte _ (by omega)] at hlow
      obtain ⟨hhigh, hrest⟩ := ih (n / 0x80) (by omega) htail
      exact ⟨by omega, hrest⟩

theorem MessageHeader.encode_injective {h h' : MessageHeader} (he : h.encode = h'.encode) : h = h' := by
  unfold encode at he
  rw [List.append_assoc, List.append_assoc] at he
  obtain ⟨hpublic, hrest⟩ := List.append_inj he (by rw [h.dhPublic.length_eq, h'.dhPublic.length_eq])
  obtain ⟨hprevious, hrest⟩ := varintEncode_append_inj hrest
  rw [← List.append_nil (varintEncode h.messageNumber), ← List.append_nil (varintEncode h'.messageNumber)] at hrest
  have hnumber := varintEncode_append_inj hrest
  cases h
  cases h'
  simp only at hpublic hprevious hnumber
  rw [Bytes.ext_toList hpublic, hprevious, hnumber.1]

end SpiritChat
