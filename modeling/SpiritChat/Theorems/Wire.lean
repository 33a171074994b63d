import SpiritChat.Crypto.Wire
import SpiritChat.Theorems.StandIn

/-! # What the decoders take

An envelope is decoded to what was encoded. Encoding what was decoded gives back the bytes that were read, unless a
counter was not written the way the encoder writes it. -/

namespace SpiritChat
open Lib

/-! ### Varints -/

/-- The check of the length comes before the shift, so the shift does not panic. -/
theorem Checked.varintDecodeFrom_eq (input : List UInt8) (i value : ℕ) :
    Checked.varintDecodeFrom input i (7 * i) value = Exec.ofExcept (SpiritChat.varintDecodeFrom input i value) := by
  induction input generalizing i value with
  | nil => rfl
  | cons byte input ih =>
    unfold Checked.varintDecodeFrom SpiritChat.varintDecodeFrom
    split_ifs with hlong hlast
    · rfl
    · rw [shlU64_eq (not_le.mp hlong)]
      rfl
    · rw [shlU64_eq (not_le.mp hlong)]
      exact ih (i + 1) _

theorem Checked.varintDecode_eq (input : List UInt8) : Checked.varintDecode input = Exec.ofExcept (SpiritChat.varintDecode input) :=
  Checked.varintDecodeFrom_eq input 0 0

/-- A varint is read off the front of its bytes, whatever follows. It has ten bytes at most. -/
theorem varintDecodeFrom_eq_ok {input : List UInt8} {i value v n : ℕ} (h : varintDecodeFrom input i value = .ok (v, n)) :
    n ≤ 10 ∧ ∃ front rest, input = front ++ rest ∧ n = i + front.length ∧
      ∀ rest', varintDecodeFrom (front ++ rest') i value = .ok (v, n) := by
  induction input generalizing i value with
  | nil => cases h
  | cons byte input ih =>
    unfold varintDecodeFrom at h
    split_ifs at h with hlong hlast
    · cases h
      refine ⟨by omega, [byte], input, rfl, rfl, fun rest' => ?_⟩
      rw [List.singleton_append, varintDecodeFrom, if_neg hlong]
      exact if_pos hlast
    · obtain ⟨hten, front, rest, rfl, rfl, hall⟩ := ih h
      refine ⟨hten, byte :: front, rest, rfl, by rw [List.length_cons]; omega, fun rest' => ?_⟩
      rw [List.cons_append, varintDecodeFrom, if_neg hlong]
      exact (if_neg hlast).trans (hall rest')

/-- The bytes are a varint of `value`, whatever follows them. -/
def IsVarint (bytes : List UInt8) (value : ℕ) : Prop := ∀ rest, varintDecode (bytes ++ rest) = .ok (value, bytes.length)

theorem varintDecode_eq_ok {input : List UInt8} {v n : ℕ} (h : varintDecode input = .ok (v, n)) :
    ∃ front rest, input = front ++ rest ∧ front.length = n ∧ IsVarint front v := by
  obtain ⟨-, front, rest, hinput, hn, hall⟩ := varintDecodeFrom_eq_ok h
  rw [Nat.zero_add] at hn
  subst hn
  exact ⟨front, rest, hinput, rfl, hall⟩

/-- The bytes that the encoder writes for a `u32`. -/
def Canonical (bytes : List UInt8) : Prop := ∃ n < 2 ^ 32, bytes = varintEncode n

namespace IsVarint
variable {bytes : List UInt8} {v : ℕ}

theorem of_encode {n : ℕ} (hn : n < 2 ^ 64) : IsVarint (varintEncode n) n := fun _ => varintDecode_encode hn

theorem length_le (h : IsVarint bytes v) : bytes.length ≤ 10 := (varintDecodeFrom_eq_ok (h [])).1

/-- A varint is canonical if it is the one of the counter that is read off it. -/
theorem canonical_iff (h : IsVarint bytes v) : Canonical bytes ↔ varintEncode (v % 2 ^ 32) = bytes := by
  constructor
  · rintro ⟨n, hn, rfl⟩
    have hsame := (h []).symm.trans (of_encode (show n < 2 ^ 64 by omega) [])
    obtain rfl : v = n := by simpa using hsame
    rw [Nat.mod_eq_of_lt hn]
  · intro he
    exact ⟨_, Nat.mod_lt v (by decide), he.symm⟩

/-- Two varints at the front of the same bytes are the same. -/
theorem append_inj {bytes' rest rest' : List UInt8} {v' : ℕ} (h : IsVarint bytes v) (h' : IsVarint bytes' v')
    (he : bytes ++ rest = bytes' ++ rest') : bytes = bytes' ∧ rest = rest' := by
  have hsame := (h rest).symm.trans ((congrArg varintDecode he).trans (h' rest'))
  exact List.append_inj he (Prod.mk.inj (Except.ok.inj hsame)).2

end IsVarint

/-! ### Envelopes -/

theorem tryIntoArray_toList {n : ℕ} (b : Bytes n) : tryIntoArray n b.toList = some b := dif_pos b.length_eq

theorem tryIntoArray_eq_some {n : ℕ} {bytes : List UInt8} {b : Bytes n} (h : tryIntoArray n bytes = some b) : b.toList = bytes := by
  unfold tryIntoArray at h
  split_ifs at h
  exact Option.some.inj h ▸ rfl

namespace MessageHeader
variable {header : MessageHeader} {key : Bytes 32} {first second rest input : List UInt8} {p q n : ℕ}

theorem decodeWithLen_append (hp : IsVarint first p) (hq : IsVarint second q) :
    decodeWithLen (key.toList ++ (first ++ (second ++ rest))) =
      .ok (⟨key, p % 2 ^ 32, q % 2 ^ 32⟩, 32 + first.length + second.length) := by
  have hkey := key.length_eq
  have hpten := hp.length_le
  have hqten := hq.length_le
  have hlen : (key.toList ++ (first ++ (second ++ rest))).length = 32 + first.length + second.length + rest.length := by
    simp only [List.length_append, hkey]
    omega
  have hfront : (key.toList ++ (first ++ (second ++ rest))).take 32 = key.toList := List.take_left' hkey
  have hfirst : (key.toList ++ (first ++ (second ++ rest))).drop 32 = first ++ (second ++ rest) := List.drop_left' hkey
  have hsecond : (key.toList ++ (first ++ (second ++ rest))).drop (32 + first.length) = second ++ rest := by
    rw [← List.drop_drop, hfirst, List.drop_left]
  unfold decodeWithLen
  rw [if_neg (by omega), slice_of_le (by omega) (by omega), sliceFrom_of_le (by omega)]
  simp only [List.drop_zero, Nat.sub_zero, hfront, tryIntoArray_toList, Exec.expect_some, Exec.ok_bind, hfirst,
    Checked.varintDecode_eq, hp (second ++ rest), Exec.ofExcept_ok]
  rw [addUsize_eq (by omega), Exec.ok_bind, sliceFrom_of_le (by omega), Exec.ok_bind, hsecond, hq rest, Exec.ofExcept_ok,
    Exec.ok_bind, addUsize_eq (by omega), Exec.ok_bind]
  rfl

/-- A header that is decoded is a key and two varints. -/
theorem decodeWithLen_eq_ok (h : decodeWithLen input = .ok (header, n)) :
    ∃ first second rest p q, input = header.dhPublic.toList ++ (first ++ (second ++ rest)) ∧ IsVarint first p ∧
      IsVarint second q ∧ header.previousChainLength = p % 2 ^ 32 ∧ header.messageNumber = q % 2 ^ 32 ∧
      n = 32 + first.length + second.length := by
  unfold decodeWithLen at h
  obtain ⟨hlong, h⟩ := Exec.guard_eq_ok.mp h
  rw [slice_of_le (by omega) (by omega), Exec.ok_bind] at h
  obtain ⟨key, hkey, h⟩ := except_bind_eq_ok.mp h
  have hfront := tryIntoArray_eq_some (Exec.expect_eq_ok.mp hkey)
  rw [sliceFrom_of_le (by omega), Exec.ok_bind, Checked.varintDecode_eq] at h
  obtain ⟨⟨p, consumed⟩, hdecode, h⟩ := except_bind_eq_ok.mp h
  obtain ⟨first, after, hfirst, rfl, hp⟩ := varintDecode_eq_ok (Exec.ofExcept_eq_ok.mp hdecode)
  have hinput : input = key.toList ++ (first ++ after) := by
    rw [hfront, ← hfirst, List.drop_zero, Nat.sub_zero, List.take_append_drop]
  have hsecond : input.drop (32 + first.length) = after := by rw [← List.drop_drop, hfirst, List.drop_left]
  have hten := hp.length_le
  have hlen : input.length = 32 + first.length + after.length := by
    simp only [hinput, List.length_append, key.length_eq]
    omega
  simp only [addUsize_eq (show 32 + first.length < 2 ^ 64 by omega), Exec.ok_bind,
    sliceFrom_of_le (show 32 + first.length ≤ input.length by omega), hsecond, Checked.varintDecode_eq] at h
  obtain ⟨⟨q, consumed⟩, hdecode', h⟩ := except_bind_eq_ok.mp h
  obtain ⟨second, rest, rfl, rfl, hq⟩ := varintDecode_eq_ok (Exec.ofExcept_eq_ok.mp hdecode')
  have hten' := hq.length_le
  rw [addUsize_eq (by omega), Exec.ok_bind] at h
  cases h
  exact ⟨first, second, rest, p, q, hinput, hp, hq, rfl, rfl, rfl⟩

/-- The header is read off the front of any bytes. -/
theorem decodeWithLen_encode (hp : header.previousChainLength < 2 ^ 32) (hn : header.messageNumber < 2 ^ 32)
    (rest : List UInt8) : decodeWithLen (header.encode ++ rest) = .ok (header, header.encode.length) := by
  have hfirst : IsVarint (varintEncode header.previousChainLength) header.previousChainLength := .of_encode (by omega)
  have hsecond : IsVarint (varintEncode header.messageNumber) header.messageNumber := .of_encode (by omega)
  have hinput : header.encode ++ rest = header.dhPublic.toList ++
      (varintEncode header.previousChainLength ++ (varintEncode header.messageNumber ++ rest)) := by
    simp [encode]
  rw [hinput, decodeWithLen_append hfirst hsecond, Nat.mod_eq_of_lt hp, Nat.mod_eq_of_lt hn]
  simp [encode, header.dhPublic.length_eq, Nat.add_assoc]

end MessageHeader

namespace Envelope

/-- What was encoded is decoded again, and the header takes just its own bytes, whatever follows them. -/
theorem decode_encode {header : MessageHeader} (hp : header.previousChainLength < 2 ^ 32)
    (hn : header.messageNumber < 2 ^ 32) (ciphertext : List UInt8) :
    decode (encode header ciphertext) = .ok (header, ciphertext) ∧
      ∀ rest, MessageHeader.decodeWithLen (header.encode ++ rest) = .ok (header, header.encode.length) := by
  refine ⟨?_, MessageHeader.decodeWithLen_encode hp hn⟩
  unfold decode encode
  rw [MessageHeader.decodeWithLen_encode hp hn ciphertext, Exec.ok_bind]
  simp only [getRange_of_le (show header.encode.length ≤ (header.encode ++ ciphertext).length by simp) le_rfl,
    Exec.ofOption_some, Exec.ok_bind, List.drop_left]
  simp [pure, Except.pure]

/-- The greatest counters, with one byte of ciphertext that looks like one more byte of a varint. -/
theorem decode_encode_greatest :
    decode (encode { dhPublic := .replicate 32 7, previousChainLength := 2 ^ 32 - 1, messageNumber := 2 ^ 32 - 1 } [0x80]) =
      .ok ({ dhPublic := .replicate 32 7, previousChainLength := 2 ^ 32 - 1, messageNumber := 2 ^ 32 - 1 }, [0x80]) :=
  (decode_encode (by decide) (by decide) [0x80]).1

/-- A decoded envelope is encoded again to the same bytes if both its counters are written the way the encoder writes
them. -/
theorem encode_eq_iff {input ciphertext : List UInt8} {header : MessageHeader} (h : decode input = .ok (header, ciphertext)) :
    ∃ first second, input = header.dhPublic.toList ++ (first ++ (second ++ ciphertext)) ∧
      (∃ p q, IsVarint first p ∧ IsVarint second q ∧ header.previousChainLength = p % 2 ^ 32 ∧
        header.messageNumber = q % 2 ^ 32) ∧
      (encode header ciphertext = input ↔ Canonical first ∧ Canonical second) := by
  obtain ⟨⟨header', consumed⟩, hheader, h⟩ := except_bind_eq_ok.mp h
  obtain ⟨ciphertext', htail, h⟩ := except_bind_eq_ok.mp h
  cases h
  obtain ⟨first, second, rest, p, q, hinput, hp, hq, hprevious, hnumber, rfl⟩ := MessageHeader.decodeWithLen_eq_ok hheader
  obtain ⟨-, hdrop⟩ := getRange_append (Exec.ofOption_eq_ok.mp htail)
  have hrest : input.drop (32 + first.length + second.length) = rest := by
    rw [hinput, ← List.drop_drop, ← List.drop_drop, List.drop_left' header.dhPublic.length_eq, List.drop_left, List.drop_left]
  obtain rfl : rest = ciphertext := by simpa [hrest] using hdrop
  refine ⟨first, second, hinput, ⟨p, q, hp, hq, hprevious, hnumber⟩, ?_⟩
  have henc : encode header rest = header.dhPublic.toList ++
      (varintEncode (p % 2 ^ 32) ++ (varintEncode (q % 2 ^ 32) ++ rest)) := by
    simp [encode, MessageHeader.encode, hprevious, hnumber]
  have hlt : ∀ n, n % 2 ^ 32 < 2 ^ 64 := fun n => lt_of_lt_of_le (Nat.mod_lt n (by decide)) (by decide)
  rw [henc, hinput, List.append_cancel_left_eq, hp.canonical_iff, hq.canonical_iff]
  constructor
  · intro he
    obtain ⟨hfirst, he⟩ := (IsVarint.of_encode (hlt p)).append_inj hp he
    exact ⟨hfirst, ((IsVarint.of_encode (hlt q)).append_inj hq he).1⟩
  · rintro ⟨hfirst, hsecond⟩
    rw [hfirst, hsecond]

end Envelope

/-! ### Handshakes and cards -/

section
variable {input : List UInt8} {start at_ : ℕ}

theorem readKey_eq_ok {bytes : List UInt8} {key : Bytes 32} (h : readKey bytes = .ok key) : key.toList = bytes :=
  tryIntoArray_eq_some (Exec.ofOption_eq_ok.mp h)

theorem readArray_eq_ok {n : ℕ} {b : Bytes n} (h : readArray n input start = .ok b) :
    input.drop start = b.toList ++ input.drop (start + n) := by
  obtain ⟨bytes, hslice, h⟩ := except_bind_eq_ok.mp h
  rw [tryIntoArray_eq_some (Exec.expect_eq_ok.mp h)]
  exact (slice_append hslice).2

theorem readX25519Public_eq_ok {key : Bytes 32} (h : readX25519Public input start = .ok key) :
    input.drop start = key.toList ++ input.drop (start + 32) := by
  obtain ⟨bytes, hslice, h⟩ := except_bind_eq_ok.mp h
  rw [readKey_eq_ok h]
  exact (slice_append hslice).2

theorem readOneTimePrekey_eq_ok {truncated : String} {otp : Option (Bytes 32)}
    (h : readOneTimePrekey at_ truncated input = .ok otp) :
    ∃ rest, input.drop at_ = writeOneTimePrekey otp ++ rest := by
  obtain ⟨flag, hflag, h⟩ := except_bind_eq_ok.mp h
  obtain ⟨hlt, hflag⟩ := List.getElem?_eq_some_iff.mp (Exec.expect_eq_ok.mp hflag)
  rw [List.drop_eq_getElem_cons hlt, hflag]
  split_ifs at h with h0 h1
  · cases h
    exact ⟨input.drop (at_ + 1), by rw [h0]; rfl⟩
  · obtain ⟨bytes, hbytes, h⟩ := except_bind_eq_ok.mp h
    obtain ⟨key, hkey, h⟩ := except_bind_eq_ok.mp h
    cases h
    refine ⟨input.drop (at_ + 33), ?_⟩
    rw [(getRange_append (Exec.ofOption_eq_ok.mp hbytes)).2, h1, ← readKey_eq_ok hkey]
    rfl

theorem length_writeOneTimePrekey (otp : Option (Bytes 32)) : (writeOneTimePrekey otp).length = otp.elim 1 fun _ => 33 := by
  cases otp with
  | none => rfl
  | some key => simp [writeOneTimePrekey, key.length_eq]

theorem InitialMessage.length_toBytes (m : InitialMessage) :
    m.toBytes.length = m.usedOneTimePrekey.elim 161 fun _ => 193 := by
  simp only [toBytes, List.length_append, Bytes.length_eq, length_writeOneTimePrekey]
  cases m.usedOneTimePrekey <;> rfl

theorem PrekeyBundle.length_toBytes (b : PrekeyBundle) : b.toBytes.length = b.oneTimePrekey.elim 225 fun _ => 257 := by
  simp only [toBytes, List.length_append, Bytes.length_eq, length_writeOneTimePrekey]
  cases b.oneTimePrekey <;> rfl

variable [Primitives]

theorem IdentityPublicKey.fromBytes_eq_ok {bytes : List UInt8} {k : IdentityPublicKey} (h : fromBytes bytes = .ok k) :
    k.bytes.toList = bytes := by
  obtain ⟨array, harray, h⟩ := except_bind_eq_ok.mp h
  split_ifs at h
  cases h
  exact readKey_eq_ok harray

/-- What a message and a card begin with: an identity key, an agreement key with its signature, and one more key. -/
def readFront (input : List UInt8) : Exec CryptoError (IdentityPublicKey × Bytes 32 × Bytes 64 × Bytes 32) := do
  let identity ← IdentityPublicKey.fromBytes (← slice input 0 32)
  let agreement ← readX25519Public input 32
  let signature ← readArray 64 input 64
  let key ← readX25519Public input 128
  return (identity, agreement, signature, key)

theorem InitialMessage.fromBytes_eq (h : ¬input.length < 32 + 32 + 64 + 32 + 1) : fromBytes input = do
    let (identity, agreement, signature, ephemeralKey) ← readFront input
    let usedOneTimePrekey ← readOneTimePrekey 160 "truncated one-time prekey reference" input
    return ⟨identity, ⟨agreement, signature⟩, ephemeralKey, usedOneTimePrekey⟩ := by
  simp only [fromBytes, if_neg h, readFront, bind_assoc, pure_bind]

theorem PrekeyBundle.fromBytes_eq (h : ¬input.length < 32 + 32 + 64 + 32 + 64 + 1) : fromBytes input = do
    let (identity, agreement, signature, spk) ← readFront input
    let spkSignature ← readArray 64 input 160
    let oneTimePrekey ← readOneTimePrekey 224 "truncated one-time prekey" input
    return ⟨identity, ⟨agreement, signature⟩, ⟨spk, spkSignature⟩, oneTimePrekey⟩ := by
  simp only [fromBytes, if_neg h, readFront, bind_assoc, pure_bind]

theorem readFront_eq_ok {identity : IdentityPublicKey} {agreement key : Bytes 32} {signature : Bytes 64}
    (h : readFront input = .ok (identity, agreement, signature, key)) :
    input = identity.bytes.toList ++ (agreement.toList ++ (signature.toList ++ (key.toList ++ input.drop 160))) := by
  obtain ⟨front, hfront, h⟩ := except_bind_eq_ok.mp h
  obtain ⟨identity, hidentity, h⟩ := except_bind_eq_ok.mp h
  obtain ⟨agreement, hagreement, h⟩ := except_bind_eq_ok.mp h
  obtain ⟨signature, hsignature, h⟩ := except_bind_eq_ok.mp h
  obtain ⟨key, hkey, h⟩ := except_bind_eq_ok.mp h
  cases h
  have hinput := (slice_append hfront).2
  rwa [List.drop_zero, ← IdentityPublicKey.fromBytes_eq_ok hidentity, readX25519Public_eq_ok hagreement,
    readArray_eq_ok hsignature, readX25519Public_eq_ok hkey] at hinput

theorem InitialMessage.toBytes_prefix {m : InitialMessage} (h : fromBytes input = .ok m) : m.toBytes <+: input := by
  rw [fromBytes_eq (Exec.guard_eq_ok.mp h).1] at h
  obtain ⟨⟨identity, agreement, signature, ephemeral⟩, hfront, h⟩ := except_bind_eq_ok.mp h
  obtain ⟨otp, hotp, h⟩ := except_bind_eq_ok.mp h
  cases h
  obtain ⟨rest, hrest⟩ := readOneTimePrekey_eq_ok hotp
  have hinput := readFront_eq_ok hfront
  rw [hrest] at hinput
  exact ⟨rest, by simpa [toBytes] using hinput.symm⟩

theorem PrekeyBundle.toBytes_prefix {b : PrekeyBundle} (h : fromBytes input = .ok b) : b.toBytes <+: input := by
  rw [fromBytes_eq (Exec.guard_eq_ok.mp h).1] at h
  obtain ⟨⟨identity, agreement, signature, spk⟩, hfront, h⟩ := except_bind_eq_ok.mp h
  obtain ⟨spkSignature, hspkSignature, h⟩ := except_bind_eq_ok.mp h
  obtain ⟨otp, hotp, h⟩ := except_bind_eq_ok.mp h
  cases h
  obtain ⟨rest, hrest⟩ := readOneTimePrekey_eq_ok hotp
  have hinput := readFront_eq_ok hfront
  rw [readArray_eq_ok hspkSignature, hrest] at hinput
  exact ⟨rest, by simpa [toBytes] using hinput.symm⟩

omit [Primitives] in
theorem prefix_eq_iff {α : Type} {front whole : List α} (h : front <+: whole) : front = whole ↔ whole.length = front.length :=
  ⟨fun he => he ▸ rfl, fun hlen => h.eq_of_length hlen.symm⟩

/-- What was decoded is encoded again to the bytes that were read. These are the whole input if nothing follows a message
or a card, and if both counters of an envelope are written the way the encoder writes them. -/
theorem encode_of_decoded (input : List UInt8) :
    (∀ m, InitialMessage.fromBytes input = .ok m → m.toBytes <+: input ∧
      (m.toBytes = input ↔ input.length = m.usedOneTimePrekey.elim 161 fun _ => 193)) ∧
    (∀ b, PrekeyBundle.fromBytes input = .ok b → b.toBytes <+: input ∧
      (b.toBytes = input ↔ input.length = b.oneTimePrekey.elim 225 fun _ => 257)) ∧
    ∀ header ciphertext, Envelope.decode input = .ok (header, ciphertext) →
      ∃ first second p q, input = header.dhPublic.toList ++ (first ++ (second ++ ciphertext)) ∧ IsVarint first p ∧
        IsVarint second q ∧ (Envelope.encode header ciphertext = input ↔ Canonical first ∧ Canonical second) := by
  refine ⟨fun m hm => ?_, fun b hb => ?_, fun header ciphertext h => ?_⟩
  · have hfront := InitialMessage.toBytes_prefix hm
    exact ⟨hfront, m.length_toBytes ▸ prefix_eq_iff hfront⟩
  · have hfront := PrekeyBundle.toBytes_prefix hb
    exact ⟨hfront, b.length_toBytes ▸ prefix_eq_iff hfront⟩
  · obtain ⟨first, second, hinput, ⟨p, q, hp, hq, -, -⟩, hiff⟩ := Envelope.encode_eq_iff h
    exact ⟨first, second, p, q, hinput, hp, hq, hiff⟩

end

/-- The bytes of zeros are the encoding of a point of the curve, so they are a public key. -/
@[reducible] def StandIn.zeroKey : Primitives where
  sha256 _ := .zero
  unicodeLowercase s := s
  isPublicKey key := decide (key = .replicate 32 0)
  verifySignature _ _ _ := false

section
attribute [local instance] StandIn.zeroKey

def zeroMessage : InitialMessage where
  initiatorIdentity := ⟨.replicate 32 0⟩
  initiatorAgreementKey := { publicKey := .replicate 32 0, signature := .replicate 64 0 }
  ephemeralKey := .replicate 32 0
  usedOneTimePrekey := none

theorem encode_of_decoded_zero :
    zeroMessage.toBytes <+: zeroMessage.toBytes ++ [7] ∧
      (zeroMessage.toBytes = zeroMessage.toBytes ++ [7] ↔ (zeroMessage.toBytes ++ [7]).length = 161) :=
  (encode_of_decoded (zeroMessage.toBytes ++ [7])).1 zeroMessage (by decide +kernel)

/-- A byte after a message is ignored, and a counter may be written with one byte more than it needs. -/
theorem decoded_not_encoded_again :
    (∃ input m, InitialMessage.fromBytes input = .ok m ∧ m.toBytes ≠ input) ∧
      ∃ input header ciphertext, Envelope.decode input = .ok (header, ciphertext) ∧ Envelope.encode header ciphertext ≠ input := by
  refine ⟨⟨zeroMessage.toBytes ++ [7], zeroMessage, by decide +kernel, by decide +kernel⟩, ?_⟩
  refine ⟨List.replicate 32 0 ++ [0x80, 0, 0], ⟨.replicate 32 0, 0, 0⟩, [], by decide +kernel, ?_⟩
  simp [Envelope.encode, MessageHeader.encode, varintEncode_of_lt, Bytes.replicate]

end

end SpiritChat
