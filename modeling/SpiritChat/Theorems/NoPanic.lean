import SpiritChat.Theorems.Wire

/-! # Decoders without panics

The decoders come back from every input that fits into memory, one kind apart: a prekey store whose count claims more
secrets than memory can hold. Where they do not panic they do what the decoders without panics do. -/

namespace SpiritChat
open Lib

/-- The count in front of a list of secrets is one that no memory holds: `count` secrets of 32 bytes are more than
`isize::MAX`. -/
def Overcounted (input : List UInt8) : Prop := ∃ count consumed, varintDecode input = .ok (count, consumed) ∧ 2 ^ 58 ≤ count

/-- One of the two lists of a stored prekey store is overcounted. The second one is read if the first is all there. -/
def PrekeyStore.Overcounted (input : List UInt8) : Prop :=
  96 ≤ input.length ∧ (SpiritChat.Overcounted (input.drop 96) ∨
    ∃ count consumed, varintDecode (input.drop 96) = .ok (count, consumed) ∧ 96 + consumed + 32 * count ≤ input.length ∧
      SpiritChat.Overcounted (input.drop (96 + consumed + 32 * count)))

section
variable {input : List UInt8} {start at_ offset : ℕ}

/-- A range of known length is an array. -/
theorem getRange_eq (n : ℕ) (h : offset ≤ input.length) :
    getRange input offset (offset + n) = (readFixed n input offset).map Bytes.toList := by
  unfold readFixed
  by_cases hn : offset + n ≤ input.length
  · have hlen : ((input.drop offset).take n).length = n := List.length_take_of_le (by rw [List.length_drop]; omega)
    rw [getRange_of_le (by omega) hn, dif_pos hlen, Nat.add_sub_cancel_left]
    rfl
  · have hlen : ((input.drop offset).take n).length ≠ n := by
      rw [List.length_take, List.length_drop]
      omega
    rw [getRange, if_neg (by omega), dif_neg hlen]
    rfl

theorem exists_readFixed (input : List UInt8) (offset n : ℕ) (h : offset + n ≤ input.length) : ∃ b, readFixed n input offset = some b :=
  ⟨_, dif_pos (List.length_take_of_le (by rw [List.length_drop]; omega))⟩

theorem readKey_toList (b : Bytes 32) : readKey b.toList = .ok b := by
  rw [readKey, tryIntoArray_toList, Exec.ofOption_some]

theorem slice_eq {n : ℕ} {b : Bytes n} (h : start ≤ input.length) (hb : readFixed n input start = some b) :
    (slice input start (start + n) : Exec CryptoError (List UInt8)) = .ok b.toList := by
  rw [slice, getRange_eq n h, hb, Option.map_some, Exec.expect_some]

theorem readArray_eq {n : ℕ} {b : Bytes n} (h : start ≤ input.length) (hb : readFixed n input start = some b) :
    readArray n input start = .ok b := by
  rw [readArray, slice_eq h hb, Exec.ok_bind, tryIntoArray_toList, Exec.expect_some]

theorem readX25519Public_eq {b : Bytes 32} (h : start ≤ input.length) (hb : readFixed 32 input start = some b) :
    readX25519Public input start = .ok b := by
  rw [readX25519Public, slice_eq h hb, Exec.ok_bind, readKey_toList]

theorem readOneTimePrekey_returns (truncated : String) (h : at_ < input.length) :
    Exec.Returns (readOneTimePrekey at_ truncated input) := by
  unfold readOneTimePrekey
  rw [List.getElem?_eq_getElem h, Exec.expect_some, Exec.ok_bind]
  split_ifs
  · exact .ok _
  · exact (Exec.returns_ofOption _ _).bind fun bytes _ => (Exec.returns_ofOption _ _).bind fun _ _ => .ok _
  · exact .err _

theorem MessageHeader.decodeWithLen_returns (input : List UInt8) : Exec.Returns (decodeWithLen input) := by
  unfold decodeWithLen
  split_ifs with hshort
  · exact .err _
  · obtain ⟨key, hkey⟩ := exists_readFixed input 0 32 (by omega)
    rw [slice_eq (Nat.zero_le _) hkey, sliceFrom_of_le (by omega)]
    simp only [Exec.ok_bind, tryIntoArray_toList, Exec.expect_some, Checked.varintDecode_eq]
    refine (Exec.returns_ofExcept _).bind ?_
    rintro ⟨p, consumed⟩ hdecode
    obtain ⟨first, after, hfirst, rfl, hp⟩ := varintDecode_eq_ok (Exec.ofExcept_eq_ok.mp hdecode)
    have hten := hp.length_le
    have hlen : (input.drop 32).length = first.length + after.length := by rw [hfirst, List.length_append]
    rw [List.length_drop] at hlen
    simp only [addUsize_eq (show 32 + first.length < 2 ^ 64 by omega), Exec.ok_bind,
      sliceFrom_of_le (show 32 + first.length ≤ input.length by omega)]
    refine (Exec.returns_ofExcept _).bind ?_
    rintro ⟨q, consumed⟩ hdecode'
    obtain ⟨second, rest, -, rfl, hq⟩ := varintDecode_eq_ok (Exec.ofExcept_eq_ok.mp hdecode')
    have hten' := hq.length_le
    rw [addUsize_eq (by omega)]
    exact .ok _

theorem Envelope.decode_returns (input : List UInt8) : Exec.Returns (decode input) :=
  (MessageHeader.decodeWithLen_returns input).bind fun _ _ => (Exec.returns_ofOption _ _).bind fun _ _ => .ok _

section
variable [Primitives]

theorem IdentityPublicKey.fromBytes_returns (bytes : List UInt8) : Exec.Returns (fromBytes bytes) := by
  refine (Exec.returns_ofOption _ _).bind fun array _ => ?_
  split_ifs
  · exact .ok _
  · exact .err _

theorem readFront_returns (h : 160 ≤ input.length) : Exec.Returns (readFront input) := by
  obtain ⟨identity, h0⟩ := exists_readFixed input 0 32 (by omega)
  obtain ⟨agreement, h32⟩ := exists_readFixed input 32 32 (by omega)
  obtain ⟨signature, h64⟩ := exists_readFixed input 64 64 (by omega)
  obtain ⟨key, h128⟩ := exists_readFixed input 128 32 (by omega)
  unfold readFront
  rw [slice_eq (Nat.zero_le _) h0, readX25519Public_eq (by omega) h32, readArray_eq (by omega) h64,
    readX25519Public_eq (by omega) h128]
  exact (IdentityPublicKey.fromBytes_returns _).bind fun _ _ => .ok _

theorem InitialMessage.fromBytes_returns (input : List UInt8) : Exec.Returns (fromBytes input) := by
  by_cases hshort : input.length < 32 + 32 + 64 + 32 + 1
  · rw [fromBytes, if_pos hshort]
    exact .err _
  · rw [fromBytes_eq hshort]
    exact (readFront_returns (by omega)).bind fun _ _ => (readOneTimePrekey_returns _ (by omega)).bind fun _ _ => .ok _

theorem PrekeyBundle.fromBytes_returns (input : List UInt8) : Exec.Returns (fromBytes input) := by
  by_cases hshort : input.length < 32 + 32 + 64 + 32 + 64 + 1
  · rw [fromBytes, if_pos hshort]
    exact .err _
  · obtain ⟨spkSignature, h160⟩ := exists_readFixed input 160 64 (by omega)
    rw [fromBytes_eq hshort, readArray_eq (by omega) h160]
    exact (readFront_returns (by omega)).bind fun _ _ => (readOneTimePrekey_returns _ (by omega)).bind fun _ _ => .ok _

end

/-! ### Lists of secrets -/

theorem readFixed_eq_some {n : ℕ} {b : Bytes n} (h : offset ≤ input.length) (hb : readFixed n input offset = some b) :
    offset + n ≤ input.length := by
  by_contra hlt
  unfold readFixed at hb
  rw [dif_neg (by rw [List.length_take, List.length_drop]; omega)] at hb
  cases hb

theorem Checked.readSecrets_eq (hsize : input.length ≤ isizeMax) (count : ℕ) (h : offset ≤ input.length) :
    Checked.readSecrets count input offset = Exec.ofExcept (SpiritChat.readSecrets count input offset) := by
  induction count generalizing offset with
  | zero => rfl
  | succ count ih =>
    have hsum : offset + 32 < 2 ^ 64 := by
      unfold isizeMax at hsize
      omega
    unfold Checked.readSecrets SpiritChat.readSecrets
    rw [addUsize_eq hsum, Exec.ok_bind, getRange_eq 32 h]
    cases hb : SpiritChat.readFixed 32 input offset with
    | none => rfl
    | some b =>
      simp only [Option.map_some, Exec.ofOption_some, Exec.ok_bind, readKey_toList, ih (readFixed_eq_some h hb),
        Exec.ofExcept_bind]
      rfl

theorem readSecrets_eq_ok {count : ℕ} {r : List (Bytes 32) × ℕ} (h : offset ≤ input.length)
    (hr : readSecrets count input offset = .ok r) : r.2 = offset + 32 * count ∧ offset + 32 * count ≤ input.length := by
  induction count generalizing offset r with
  | zero =>
    cases hr
    exact ⟨rfl, h⟩
  | succ count ih =>
    unfold readSecrets at hr
    cases hb : readFixed 32 input offset with
    | none =>
      rw [hb] at hr
      cases hr
    | some b =>
      rw [hb] at hr
      obtain ⟨⟨secrets, stop⟩, hrest, hr⟩ := except_bind_eq_ok.mp hr
      cases hr
      obtain ⟨hstop, hle⟩ := ih (readFixed_eq_some h hb) hrest
      dsimp only at hstop ⊢
      omega

theorem exists_readSecrets {count : ℕ} (h : offset + 32 * count ≤ input.length) :
    ∃ secrets, readSecrets count input offset = .ok (secrets, offset + 32 * count) := by
  induction count generalizing offset with
  | zero => exact ⟨[], rfl⟩
  | succ count ih =>
    obtain ⟨b, hb⟩ := exists_readFixed input offset 32 (by omega)
    have hfits : offset + 32 + 32 * count ≤ input.length := by omega
    obtain ⟨secrets, hrest⟩ := ih hfits
    refine ⟨b :: secrets, ?_⟩
    unfold readSecrets
    rw [hb]
    simp only [hrest, bind, Except.bind, pure, Except.pure]
    exact congrArg (fun stop => Except.ok (b :: secrets, stop)) (by omega)

theorem Overcounted.readSecretList (h : Overcounted input) : Checked.readSecretList input = .error .panic := by
  obtain ⟨count, consumed, hdecode, hcount⟩ := h
  have hsize : isizeMax < count * 32 := by
    unfold isizeMax
    omega
  unfold Checked.readSecretList
  rw [Checked.varintDecode_eq, hdecode]
  simp only [Exec.ofExcept_ok, Exec.ok_bind, withCapacity_panics hsize, Exec.error_bind]

theorem Checked.readSecretList_eq (hsize : input.length ≤ isizeMax) (h : ¬Overcounted input) :
    Checked.readSecretList input = Exec.ofExcept (SpiritChat.readSecretList input) := by
  unfold Checked.readSecretList SpiritChat.readSecretList
  rw [Checked.varintDecode_eq, Exec.ofExcept_bind]
  cases hdecode : SpiritChat.varintDecode input with
  | error e => rfl
  | ok r =>
    obtain ⟨count, consumed⟩ := r
    have hcount : count < 2 ^ 58 := not_le.mp fun hle => h ⟨count, consumed, hdecode, hle⟩
    have hroom : count * 32 ≤ isizeMax := by
      unfold isizeMax
      omega
    obtain ⟨front, rest, hinput, rfl, -⟩ := varintDecode_eq_ok hdecode
    have hle : front.length ≤ input.length := by
      rw [hinput, List.length_append]
      omega
    simp only [Exec.ofExcept_ok, Exec.ok_bind, withCapacity_eq hroom, Checked.readSecrets_eq hsize count hle]

/-- The list is all there, and the next thing to read is behind its secrets. -/
theorem readSecretList_eq_ok {secrets : List (Bytes 32)} {stop : ℕ} (h : readSecretList input = .ok (secrets, stop)) :
    ∃ count consumed, varintDecode input = .ok (count, consumed) ∧ stop = consumed + 32 * count ∧ stop ≤ input.length := by
  obtain ⟨⟨count, consumed⟩, hdecode, h⟩ := except_bind_eq_ok.mp h
  obtain ⟨front, rest, hinput, rfl, -⟩ := varintDecode_eq_ok hdecode
  have hle : front.length ≤ input.length := by
    rw [hinput, List.length_append]
    omega
  obtain ⟨hstop, hfits⟩ := readSecrets_eq_ok hle h
  exact ⟨count, _, hdecode, hstop, hstop.trans_le hfits⟩

/-! ### Prekey stores -/

namespace Checked

/-- The front of the store is read, and the lists are. -/
theorem prekeyStoreFromBytes_of_le (h : 96 ≤ input.length) :
    ∃ secret signature, SpiritChat.readFixed 32 input 0 = some secret ∧ SpiritChat.readFixed 64 input 32 = some signature ∧
      prekeyStoreFromBytes input = (do
        let (availableOneTimeSecrets, consumed) ← readSecretList (input.drop 96)
        let offset ← addUsize 96 consumed
        let (pendingOneTimeSecrets, _) ← readSecretList (← sliceFrom input offset)
        return { signedPrekeySecret := secret, signedPrekeySignature := signature, availableOneTimeSecrets
                 pendingOneTimeSecrets }) := by
  obtain ⟨secret, hsecret⟩ := exists_readFixed input 0 32 (by omega)
  obtain ⟨signature, hsignature⟩ := exists_readFixed input 32 64 (by omega)
  refine ⟨secret, signature, hsecret, hsignature, ?_⟩
  unfold prekeyStoreFromBytes
  rw [if_neg (by omega), slice_eq (Nat.zero_le _) hsecret, Exec.ok_bind, readKey_toList, Exec.ok_bind,
    readArray_eq (by omega) hsignature, Exec.ok_bind]
  dsimp only
  rw [sliceFrom_of_le h, Exec.ok_bind]

/-- An overcounted list makes the decoder panic. -/
theorem prekeyStoreFromBytes_panics (hsize : input.length ≤ isizeMax) (h : PrekeyStore.Overcounted input) :
    prekeyStoreFromBytes input = .error .panic := by
  obtain ⟨hle, h⟩ := h
  obtain ⟨secret, signature, -, -, heq⟩ := prekeyStoreFromBytes_of_le hle
  rw [heq]
  by_cases hfirst : Overcounted (input.drop 96)
  · rw [hfirst.readSecretList]
    rfl
  · obtain ⟨count, consumed, hdecode, hfits, hsecond⟩ := h.resolve_left hfirst
    have hin : consumed + 32 * count ≤ (input.drop 96).length := by
      rw [List.length_drop]
      omega
    obtain ⟨secrets, hsecrets⟩ := exists_readSecrets hin
    have hlist : SpiritChat.readSecretList (input.drop 96) = .ok (secrets, consumed + 32 * count) := by
      unfold SpiritChat.readSecretList
      rw [hdecode]
      exact hsecrets
    rw [Nat.add_assoc] at hfits hsecond
    unfold isizeMax at hsize
    rw [readSecretList_eq (by rw [List.length_drop]; unfold isizeMax; omega) hfirst, hlist]
    simp only [Exec.ofExcept_ok, Exec.ok_bind, addUsize_eq (show 96 + (consumed + 32 * count) < 2 ^ 64 by omega),
      sliceFrom_of_le hfits, hsecond.readSecretList, Exec.error_bind]

/-- Otherwise it does what the one without panics does. -/
theorem prekeyStoreFromBytes_eq (hsize : input.length ≤ isizeMax) (h : ¬PrekeyStore.Overcounted input) :
    prekeyStoreFromBytes input = Exec.ofExcept (PrekeyStore.fromBytes input) := by
  by_cases hle : 96 ≤ input.length
  · obtain ⟨secret, signature, hsecret, hsignature, heq⟩ := prekeyStoreFromBytes_of_le hle
    have hdrop : ∀ n, (input.drop n).length ≤ isizeMax := fun n => le_trans (by rw [List.length_drop]; omega) hsize
    have hfirst : ¬Overcounted (input.drop 96) := fun hover => h ⟨hle, .inl hover⟩
    rw [heq, readSecretList_eq (hdrop 96) hfirst]
    unfold PrekeyStore.fromBytes
    simp only [hsecret, hsignature]
    cases hlist : SpiritChat.readSecretList (input.drop 96) with
    | error e => rfl
    | ok r =>
      obtain ⟨secrets, stop⟩ := r
      obtain ⟨count, consumed, hdecode, rfl, hstop⟩ := readSecretList_eq_ok hlist
      rw [List.length_drop] at hstop
      have hsecond : ¬Overcounted (input.drop (96 + (consumed + 32 * count))) := fun hover =>
        h ⟨hle, .inr ⟨count, consumed, hdecode, by omega, by rwa [Nat.add_assoc]⟩⟩
      unfold isizeMax at hsize
      simp only [Exec.ofExcept_bind, Exec.ofExcept_ok, Exec.ok_bind,
        addUsize_eq (show 96 + (consumed + 32 * count) < 2 ^ 64 by omega),
        sliceFrom_of_le (show 96 + (consumed + 32 * count) ≤ input.length by omega), readSecretList_eq (hdrop _) hsecond]
      rfl
  · have hshort : SpiritChat.readFixed 64 input 32 = none := dif_neg (by rw [List.length_take, List.length_drop]; omega)
    unfold prekeyStoreFromBytes PrekeyStore.fromBytes
    rw [if_pos (by omega), hshort]
    cases SpiritChat.readFixed 32 input 0 <;> rfl

theorem prekeyStoreFromBytes_returns_iff (hsize : input.length ≤ isizeMax) :
    Exec.Returns (prekeyStoreFromBytes input) ↔ ¬PrekeyStore.Overcounted input := by
  constructor
  · intro hreturns hover
    rw [prekeyStoreFromBytes_panics hsize hover] at hreturns
    exact Exec.not_returns_panic hreturns
  · intro h
    rw [prekeyStoreFromBytes_eq hsize h]
    exact Exec.returns_ofExcept _

/-! ### Ratchets -/

theorem refines_fixed : Reader.Refines readFixed DoubleRatchet.readFixed := by
  intro input offset hsize hle
  have hsum : offset + 32 < 2 ^ 64 := by
    unfold isizeMax at hsize
    omega
  simp only [StateT.run, readFixed, DoubleRatchet.readFixed]
  rw [addUsize_eq hsum, Exec.ok_bind, getRange_eq 32 hle]
  cases hb : SpiritChat.readFixed 32 input offset with
  | none => exact ⟨rfl, fun b stop h => by cases h⟩
  | some b =>
    simp only [Option.map_some, Exec.ofOption_some, Exec.ok_bind, tryIntoArray_toList, Exec.expect_some]
    refine ⟨rfl, fun b' stop h => ?_⟩
    cases h
    exact readFixed_eq_some hle hb

theorem refines_flag : Reader.Refines readFlag DoubleRatchet.readFlag := by
  intro input offset hsize hle
  simp only [StateT.run, readFlag, DoubleRatchet.readFlag]
  cases hb : input[offset]? with
  | none => exact ⟨rfl, fun b stop h => by cases h⟩
  | some byte =>
    obtain ⟨hlt, -⟩ := List.getElem?_eq_some_iff.mp hb
    have hsum : offset + 1 < 2 ^ 64 := by
      unfold isizeMax at hsize
      omega
    simp only [Exec.ofOption_some, Exec.ok_bind, addUsize_eq hsum]
    split_ifs
    · refine ⟨rfl, fun b stop h => ?_⟩
      cases h
      exact hlt
    · refine ⟨rfl, fun b stop h => ?_⟩
      cases h
      exact hlt
    · exact ⟨rfl, fun b stop h => by cases h⟩

theorem refines_optionalPublicKey : Reader.Refines readOptionalPublicKey DoubleRatchet.readOptionalPublicKey := by
  refine refines_flag.bind fun flag => ?_
  cases flag with
  | false => exact .pure none
  | true => exact refines_fixed.bind fun b => .pure (some b)

theorem refines_optionalChainKey : Reader.Refines readOptionalChainKey DoubleRatchet.readOptionalChainKey := by
  refine refines_flag.bind fun flag => ?_
  cases flag with
  | false => exact .pure none
  | true => exact refines_fixed.bind fun b => .pure (some (ChainKey.mk b))

theorem refines_varintU32 : Reader.Refines readVarintU32 DoubleRatchet.readVarintU32 := by
  intro input offset hsize hle
  simp only [StateT.run, readVarintU32, DoubleRatchet.readVarintU32]
  rw [getRange_of_le hle le_rfl, Exec.ofOption_some, Exec.ok_bind, if_neg (by omega),
    List.take_of_length_le (by rw [List.length_drop]), Checked.varintDecode_eq]
  cases hdecode : SpiritChat.varintDecode (input.drop offset) with
  | error e => exact ⟨rfl, fun b stop h => by cases h⟩
  | ok r =>
    obtain ⟨value, consumed⟩ := r
    obtain ⟨front, rest, hinput, rfl, -⟩ := varintDecode_eq_ok hdecode
    have hlen := congrArg List.length hinput
    rw [List.length_append, List.length_drop] at hlen
    have hsum : offset + front.length < 2 ^ 64 := by
      unfold isizeMax at hsize
      omega
    simp only [Exec.ofExcept_ok, Exec.ok_bind, addUsize_eq hsum]
    refine ⟨rfl, fun b stop h => ?_⟩
    cases h
    omega

theorem refines_entries (count : ℕ) : Reader.Refines (readEntries count) (DoubleRatchet.readEntries count) := by
  induction count with
  | zero => exact .pure []
  | succ count ih =>
    exact refines_fixed.bind fun _ => refines_varintU32.bind fun _ => refines_fixed.bind fun _ => ih.bind fun _ => .pure _

/-- A count of 32 bits is one that there is room for. -/
theorem refines_room {count : ℕ} (h : count < 2 ^ 32) :
    Reader.Refines (fun _ => step (withCapacity 68 count)) (fun _ => (pure () : StateT ℕ (Except CryptoError) Unit)) := by
  have hroom : count * 68 ≤ isizeMax := by
    unfold isizeMax
    omega
  intro input offset hsize hle
  simp only [StateT.run, step, withCapacity_eq hroom, Exec.ok_bind]
  refine ⟨rfl, fun a stop h => ?_⟩
  cases h
  exact hle

theorem readVarintU32_lt {n stop : ℕ} (h : (DoubleRatchet.readVarintU32 input).run offset = .ok (n, stop)) : n < 2 ^ 32 := by
  simp only [StateT.run, DoubleRatchet.readVarintU32] at h
  split_ifs at h
  obtain ⟨⟨value, consumed⟩, -, h⟩ := except_bind_eq_ok.mp h
  cases h
  exact Nat.mod_lt value (by decide)

theorem refines_ratchet [X25519] : Reader.Refines readRatchet DoubleRatchet.read :=
  refines_fixed.bind fun _ => refines_optionalPublicKey.bind fun _ => refines_fixed.bind fun _ =>
    refines_optionalChainKey.bind fun _ => refines_optionalChainKey.bind fun _ => refines_varintU32.bind fun _ =>
    refines_varintU32.bind fun _ => refines_varintU32.bind fun _ =>
    refines_varintU32.bind_of (fun _ _ _ _ => readVarintU32_lt) fun _ hcount =>
    (refines_room hcount).bind fun _ => (refines_entries _).bind fun _ => .pure _

theorem doubleRatchetFromBytes_eq [X25519] (hsize : input.length ≤ isizeMax) :
    doubleRatchetFromBytes input = Exec.ofExcept (DoubleRatchet.fromBytes input) :=
  refines_ratchet.run' hsize

end Checked

/-! ### All of them -/

/-- The decoders come back from an input that fits into memory, unless it is the bytes of a prekey store with an
overcounted list. -/
theorem decoders_return_iff [Primitives] [X25519] (hsize : input.length ≤ isizeMax) :
    (Exec.Returns (Checked.prekeyStoreFromBytes input) ∧ Exec.Returns (Checked.doubleRatchetFromBytes input) ∧
      Exec.Returns (Envelope.decode input) ∧ Exec.Returns (InitialMessage.fromBytes input) ∧
      Exec.Returns (PrekeyBundle.fromBytes input)) ↔ ¬PrekeyStore.Overcounted input := by
  rw [Checked.prekeyStoreFromBytes_returns_iff hsize, Checked.doubleRatchetFromBytes_eq hsize]
  exact and_iff_left ⟨Exec.returns_ofExcept _, Envelope.decode_returns input, InitialMessage.fromBytes_returns input,
    PrekeyBundle.fromBytes_returns input⟩

end

section
attribute [local instance] StandIn.zeroKey StandIn.x25519

/-- A store of 96 bytes whose first list claims `2 ^ 58` secrets. -/
def overcountedStore : List UInt8 := List.replicate 96 0 ++ (List.replicate 8 0x80 ++ [4])

theorem overcountedStore_panics :
    overcountedStore.length ≤ isizeMax ∧ ¬Exec.Returns (Checked.prekeyStoreFromBytes overcountedStore) := by
  have hpanic : Checked.prekeyStoreFromBytes overcountedStore = .error .panic := by decide +kernel
  exact ⟨by decide +kernel, hpanic ▸ Exec.not_returns_panic⟩

theorem decoders_return_iff_overcounted :
    (Exec.Returns (Checked.prekeyStoreFromBytes overcountedStore) ∧
      Exec.Returns (Checked.doubleRatchetFromBytes overcountedStore) ∧ Exec.Returns (Envelope.decode overcountedStore) ∧
      Exec.Returns (InitialMessage.fromBytes overcountedStore) ∧ Exec.Returns (PrekeyBundle.fromBytes overcountedStore)) ↔
      ¬PrekeyStore.Overcounted overcountedStore :=
  decoders_return_iff (by decide +kernel)

end
end SpiritChat
