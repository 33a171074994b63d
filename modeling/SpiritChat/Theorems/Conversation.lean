import SpiritChat.Theorems.EndAt
import SpiritChat.Theorems.StandIn

/-! # Two ends and a network

Both ends of a session encrypt, and the network gives either of them any packet at any time. Of the cipher only this is
assumed: an end's key opens nothing but what was sealed with it. -/

namespace SpiritChat
open X25519

/-- The two ends of a session. -/
inductive Side where
  | initiator
  | responder
deriving DecidableEq

def Side.other : Side → Side
  | initiator => responder
  | responder => initiator

theorem Side.eq_or_other (side side' : Side) : side' = side ∨ side' = side.other := by
  cases side <;> cases side' <;> simp [other]

theorem Side.other_other (side : Side) : side.other.other = side := by cases side <;> rfl

theorem Side.other_ne (side : Side) : side.other ≠ side := by cases side <;> simp [other]

/-- What a receiver hands to `decrypt`. -/
structure Packet where
  header : MessageHeader
  ciphertext : List UInt8
  associatedData : List UInt8
deriving DecidableEq

/-- A packet as an end sent it, with what is inside and the key that it was sealed with. -/
structure Sealed (Key : Type) extends Packet where
  sender : Side
  plaintext : List UInt8
  key : Option (MessageKey Key)

/-- The two ends, what was sent, what each of them opened, and the ratchet secrets that were drawn. -/
structure Conversation (Key : Type) where
  ends : Side → DoubleRatchet Key
  sent : List (Sealed Key)
  opened : List (Side × Packet)
  drawn : List (Bytes 32)

section
variable {Key : Type} [X25519] [SymmetricPrimitives Key]

def Packet.decrypt (p : Packet) (r : DoubleRatchet Key) (fresh : Bytes 32) : DoubleRatchet Key × Except CryptoError (List UInt8) :=
  r.decrypt fresh p.header p.ciphertext p.associatedData

namespace Conversation

/-- The initiator draws its first ratchet secret; the responder's is its signed prekey. -/
def start (sharedSecret : Key) (prekeySecret first : Bytes 32) : Conversation Key where
  ends side := match side with
    | .initiator => .initInitiator first sharedSecret (publicKey prekeySecret)
    | .responder => .initResponder sharedSecret prekeySecret
  sent := []
  opened := []
  drawn := [first, prekeySecret]

omit [X25519] in
def encrypt (c : Conversation Key) (side : Side) (nonce : Bytes 12) (plaintext associatedData : List UInt8) : Conversation Key :=
  let (r, result) := (c.ends side).encrypt nonce plaintext associatedData
  { c with
    ends := Function.update c.ends side r
    sent := match result with
      | .ok (header, ciphertext) =>
        c.sent ++ [⟨⟨header, ciphertext, associatedData⟩, side, plaintext, (c.ends side).sendingChain.map (·.ratchet.1)⟩]
      | .error _ => c.sent }

def deliver (c : Conversation Key) (side : Side) (fresh : Bytes 32) (p : Packet) : Conversation Key :=
  let (r, result) := p.decrypt (c.ends side) fresh
  { c with
    ends := Function.update c.ends side r
    opened := match result with
      | .ok _ => c.opened ++ [(side, p)]
      | .error _ => c.opened
    drawn := fresh :: c.drawn }

/-- The key that the end computes for the packet opens it only if the packet was sealed with that key. -/
def Unforged (c : Conversation Key) (side : Side) (fresh : Bytes 32) (p : Packet) : Prop :=
  ∀ k w plaintext, (c.ends side).receivingKey fresh p.header = .ok (k, w) →
    Aead.decrypt k p.ciphertext (fullAssociatedData p.associatedData p.header) = .ok plaintext →
      ∃ s ∈ c.sent, s.key = some k ∧ s.ciphertext = p.ciphertext ∧
        fullAssociatedData s.associatedData s.header = fullAssociatedData p.associatedData p.header

/-- The runs of a session. Fresh ratchet keys are new, a chain has fewer than `2 ^ 32` messages, and the associated data of
all calls has one length. -/
inductive Runs (sharedSecret : Key) (width : ℕ) : Conversation Key → Prop
  | start {prekeySecret first : Bytes 32} : publicKey first ≠ publicKey prekeySecret →
      Runs sharedSecret width (.start sharedSecret prekeySecret first)
  | encrypt {c : Conversation Key} {side : Side} {nonce : Bytes 12} {plaintext associatedData : List UInt8} :
      Runs sharedSecret width c → (c.ends side).sendCount + 1 < 2 ^ 32 → associatedData.length = width →
      Runs sharedSecret width (c.encrypt side nonce plaintext associatedData)
  | deliver {c : Conversation Key} {side : Side} {fresh : Bytes 32} {p : Packet} : Runs sharedSecret width c →
      (∀ y ∈ c.drawn, publicKey fresh ≠ publicKey y) → c.Unforged side fresh p → p.associatedData.length = width →
      Runs sharedSecret width (c.deliver side fresh p)

/-- What a side has opened, by chain and number. -/
def Got (c : Conversation Key) (x : ℕ → Bytes 32) (t : ℕ) (side : Side) (j n : ℕ) : Prop :=
  j ≤ t ∧ ∃ p, (side, p) ∈ c.opened ∧ p.header.dhPublic = publicKey (x j) ∧ p.header.messageNumber = n

/-- A message that was sealed at its place: chain `j` of its sender, number `n`. -/
structure SentAt (sharedSecret : Key) (x : ℕ → Bytes 32) (count : ℕ → ℕ) (m width : ℕ) (s : Sealed Key) (j n : ℕ) : Prop where
  pos : 1 ≤ j
  le : j ≤ m
  parity : (m + j) % 2 = 0
  lt : n < count j
  header : s.header = headerAt x count j n
  key : s.key = some (messageKeyAt sharedSecret x j n)
  length : s.associatedData.length = width
  ciphertext : ∃ nonce, Aead.encrypt nonce (messageKeyAt sharedSecret x j n) s.plaintext
    (fullAssociatedData s.associatedData s.header) = .ok s.ciphertext

/-- The two ends agree on the schedule: `x` are the secrets in turn, `count` the messages of each chain, and each side is
at the secret that it made last. -/
structure Sound (sharedSecret : Key) (width : ℕ) (x : ℕ → Bytes 32) (count : ℕ → ℕ) (level : Side → ℕ) (c : Conversation Key) :
    Prop where
  adjacent (side : Side) : level side = level side.other + 1 ∨ level side.other = level side + 1
  ends (side : Side) : EndAt sharedSecret x count (level side)
    (c.Got x (max (level .initiator) (level .responder)) side) (c.ends side)
  ended (j : ℕ) : max (level .initiator) (level .responder) < j → count j = 0
  width_lt (j : ℕ) : count j < 2 ^ 32
  distinct : Distinct x (max (level .initiator) (level .responder))
  drawn (i : ℕ) : i ≤ max (level .initiator) (level .responder) → x i ∈ c.drawn
  sent : ∀ s ∈ c.sent, ∃ j n, SentAt sharedSecret x count (level s.sender) width s j n
  unique : ∀ s ∈ c.sent, ∀ s' ∈ c.sent, s.header = s'.header → s = s'
  opened : ∀ side p, (side, p) ∈ c.opened → ∃ s ∈ c.sent, s.sender = side.other ∧ s.toPacket = p

variable {sharedSecret : Key} {width : ℕ} {x : ℕ → Bytes 32} {count : ℕ → ℕ} {level : Side → ℕ} {c : Conversation Key}
  {side : Side} {fresh : Bytes 32} {p : Packet} {s : Sealed Key}

theorem Sound.start {prekeySecret first : Bytes 32} (h : publicKey first ≠ publicKey prekeySecret) :
    Sound sharedSecret width (fun i => if i = 0 then prekeySecret else first) (fun _ => 0)
      (fun side => if side = .initiator then 1 else 0) (.start sharedSecret prekeySecret first) where
  adjacent side := by cases side <;> simp [Side.other]
  ends side := by
    have hgot : ∀ side t j n, ¬(Conversation.start sharedSecret prekeySecret first).Got
        (fun i => if i = 0 then prekeySecret else first) t side j n := by
      rintro side t j n ⟨-, p, hp, -⟩
      exact absurd hp List.not_mem_nil
    cases side with
    | initiator => exact .initInitiator sharedSecret (fun i => if i = 0 then prekeySecret else first) (hgot _ _)
    | responder => exact .initResponder sharedSecret (fun i => if i = 0 then prekeySecret else first) (hgot _ _)
  ended _ _ := rfl
  width_lt _ := Nat.two_pow_pos 32
  distinct := by
    intro i hi j hj he
    simp at hi hj
    rcases (by omega : i = 0 ∨ i = 1) with rfl | rfl <;> rcases (by omega : j = 0 ∨ j = 1) with rfl | rfl
    · rfl
    · exact absurd he.symm h
    · exact absurd he h
    · rfl
  drawn i _ := by
    unfold Conversation.start
    by_cases hi : i = 0 <;> simp [hi]
  sent s hs := absurd hs List.not_mem_nil
  unique s hs := absurd hs List.not_mem_nil
  opened _ _ hp := absurd hp List.not_mem_nil

theorem deliver_eq_of_error {e : CryptoError} {r : DoubleRatchet Key} (h : p.decrypt (c.ends side) fresh = (r, .error e)) :
    c.deliver side fresh p = { c with drawn := fresh :: c.drawn } := by
  obtain rfl := DoubleRatchet.decrypt_error h
  unfold deliver
  rw [h]
  dsimp only
  rw [Function.update_eq_self]

/-- What was opened stays opened. -/
theorem opened_deliver {q : Side × Packet} (h : q ∈ c.opened) : q ∈ (c.deliver side fresh p).opened := by
  unfold deliver
  rcases p.decrypt (c.ends side) fresh with ⟨r, e | plaintext⟩
  · exact h
  · exact List.mem_append_left _ h

theorem deliver_eq_of_ok {plaintext : List UInt8} {r : DoubleRatchet Key} (h : p.decrypt (c.ends side) fresh = (r, .ok plaintext)) :
    c.deliver side fresh p = { c with
      ends := Function.update c.ends side r, opened := c.opened ++ [(side, p)], drawn := fresh :: c.drawn } := by
  unfold deliver
  rw [h]

omit [X25519] in
/-- A cipher text that is opened tells its header, as long as the associated data has its length. -/
theorem header_eq {aad aad' : List UInt8} {header header' : MessageHeader} (hlen : aad.length = aad'.length)
    (h : fullAssociatedData aad header = fullAssociatedData aad' header') : aad = aad' ∧ header = header' := by
  obtain ⟨haad, hheader⟩ := List.append_inj h hlen
  exact ⟨haad, MessageHeader.encode_injective hheader⟩

theorem SentAt.congr {x' : ℕ → Bytes 32} {m m' j n : ℕ} (h : SentAt sharedSecret x count m width s j n) (hx : ∀ i ≤ j, x' i = x i)
    (hm : m ≤ m') (hparity : (m' + m) % 2 = 0) : SentAt sharedSecret x' count m' width s j n where
  pos := h.pos
  le := h.le.trans hm
  parity := by have := h.parity; omega
  lt := h.lt
  header := by
    rw [h.header]
    unfold headerAt
    rw [hx j (le_refl _)]
  key := by rw [h.key, messageKeyAt_congr hx]
  length := h.length
  ciphertext := by
    rw [messageKeyAt_congr hx]
    exact h.ciphertext

namespace Sound

/-- The sides are one secret apart, so the newer one has made the last. -/
theorem top_cases (h : Sound sharedSecret width x count level c) (side : Side) :
    (level side.other = level side + 1 ∧ max (level .initiator) (level .responder) = level side + 1) ∨
      (level side = level side.other + 1 ∧ max (level .initiator) (level .responder) = level side) := by
  have h' := h.adjacent side
  cases side <;> simp only [Side.other] at h' ⊢ <;> omega

/-- What an end opens is a new message of its peer. -/
theorem opens_new (ic : IdealCrypto sharedSecret) (h : Sound sharedSecret width x count level c) (hu : c.Unforged side fresh p)
    (hlen : p.associatedData.length = width) {r : DoubleRatchet Key} {plaintext : List UInt8}
    (hok : p.decrypt (c.ends side) fresh = (r, .ok plaintext)) :
    ∃ s ∈ c.sent, ∃ j n, s.sender = side.other ∧ s.toPacket = p ∧ SentAt sharedSecret x count (level side.other) width s j n ∧
      j ≤ level side + 1 ∧ (level side + j) % 2 = 1 ∧
      ¬c.Got x (max (level .initiator) (level .responder)) side j n ∧
      (c.ends side).receivingKey fresh p.header = .ok (messageKeyAt sharedSecret x j n, r) := by
  obtain ⟨k, hk, hopen⟩ := DoubleRatchet.decrypt_ok_open hok
  obtain ⟨s, hs, hkey, hciphertext, haad⟩ := hu k r plaintext hk hopen
  obtain ⟨j, n, hat⟩ := h.sent s hs
  obtain ⟨haad, hheader⟩ := header_eq (hat.length.trans hlen.symm) haad
  have hpacket : s.toPacket = p := by
    cases p
    simp only at haad hheader hciphertext
    rw [← haad, ← hheader, ← hciphertext]
  obtain rfl := Option.some.inj (hkey.symm.trans hat.key)
  have hj : j ≤ max (level .initiator) (level .responder) := hat.le.trans (by
    cases s.sender
    · exact le_max_left _ _
    · exact le_max_right _ _)
  have hm : level side ≤ max (level .initiator) (level .responder) := by
    cases side
    · exact le_max_left _ _
    · exact le_max_right _ _
  have hd : p.header = headerAt x count j n := hheader.symm.trans hat.header
  obtain ⟨hparity, hjm, hnew⟩ := (h.ends side).receivingKey_new ic h.distinct hm hat.pos hj (by rw [hd]; rfl) (by rw [hd]; rfl) hk
  have hsender : s.sender = side.other := by
    refine (Side.eq_or_other side s.sender).resolve_left fun he => ?_
    have := hat.parity
    rw [he] at this
    omega
  exact ⟨s, hs, j, n, hsender, hpacket, hsender ▸ hat, hjm, hparity, hnew, hk⟩

omit [X25519] in
theorem le_top (level : Side → ℕ) (side : Side) : level side ≤ max (level .initiator) (level .responder) := by
  cases side
  · exact le_max_left _ _
  · exact le_max_right _ _

/-- What a side has got after a delivery, also under a schedule with one more secret. -/
theorem got_iff (c' : Conversation Key) {x' : ℕ → Bytes 32} {t t' j₀ n₀ : ℕ}
    (h : Sound sharedSecret width x count level c) (ht : t = max (level .initiator) (level .responder)) (hle : t ≤ t')
    (hx : ∀ i ≤ t, x' i = x i) (hx' : Distinct x' t') (hj₀ : j₀ ≤ t) (hp : p.header = headerAt x count j₀ n₀)
    (hopened : c'.opened = c.opened ++ [(side, p)]) (side' : Side) (j n : ℕ) :
    c'.Got x' t' side' j n ↔ c.Got x t side' j n ∨ (side' = side ∧ j = j₀ ∧ n = n₀) := by
  unfold Got
  rw [hopened]
  constructor
  · rintro ⟨hj, q, hq, hd, hn⟩
    rcases List.mem_append.mp hq with hq | hq
    · obtain ⟨s, hs, -, rfl⟩ := h.opened _ _ hq
      obtain ⟨i, m, hat⟩ := h.sent s hs
      have hi : i ≤ t := ht ▸ hat.le.trans (le_top level _)
      have hheader : s.header.dhPublic = publicKey (x i) := by rw [hat.header]; rfl
      obtain rfl := hx' j hj i (hi.trans hle) (by rw [← hd, hheader, hx i hi])
      exact .inl ⟨hi, _, hq, by rw [hd, hx j hi], hn⟩
    · obtain ⟨rfl, rfl⟩ := Prod.mk.inj (List.mem_singleton.mp hq)
      rw [hp] at hd hn
      obtain rfl := hx' j hj j₀ (hj₀.trans hle) (by rw [← hd, hx j₀ hj₀]; rfl)
      exact .inr ⟨rfl, rfl, hn.symm⟩
  · rintro (⟨hj, q, hq, hd, hn⟩ | ⟨rfl, rfl, rfl⟩)
    · exact ⟨hj.trans hle, q, List.mem_append_left _ hq, by rw [hd, hx j hj], hn⟩
    · refine ⟨hj₀.trans hle, p, List.mem_append_right _ (List.mem_singleton_self _), ?_, ?_⟩
      · rw [hp, hx j hj₀]
        rfl
      · rw [hp]
        rfl

theorem distinct_update {t : ℕ} (h : Distinct x t) (hfresh : ∀ i ≤ t, publicKey fresh ≠ publicKey (x i)) :
    Distinct (Function.update x (t + 1) fresh) (t + 1) := by
  have hnew : Function.update x (t + 1) fresh (t + 1) = fresh := Function.update_self _ _ _
  have hold : ∀ i ≤ t, Function.update x (t + 1) fresh i = x i := fun i hi => Function.update_of_ne (by omega) _ _
  intro i hi j hj he
  rcases (by omega : i = t + 1 ∨ i ≤ t) with rfl | hi' <;> rcases (by omega : j = t + 1 ∨ j ≤ t) with rfl | hj'
  · rfl
  · rw [hnew, hold j hj'] at he
    exact absurd he (hfresh j hj')
  · rw [hnew, hold i hi'] at he
    exact absurd he.symm (hfresh i hi')
  · rw [hold i hi', hold j hj'] at he
    exact h i hi' j hj' he

/-- The peer's next ratchet key leaves room for another secret. -/
theorem room_for_secret (h : Sound sharedSecret width x count level c) (hother : level side + 1 ≤ level side.other)
    (hfresh : ∀ y ∈ c.drawn, publicKey fresh ≠ publicKey y) :
    Distinct (Function.update x (level side + 2) fresh) (level side + 2) ∧ count (level side + 2) = 0 := by
  have htop := h.top_cases side
  have ht : max (level .initiator) (level .responder) = level side + 1 := by omega
  exact ⟨distinct_update (ht ▸ h.distinct) fun i hi => hfresh _ (h.drawn i (ht ▸ hi)), h.ended _ (by omega)⟩

/-- What a new message of its peer does to an end. -/
theorem receives (ic : IdealCrypto sharedSecret) (h : Sound sharedSecret width x count level c) {j n : ℕ}
    (hat : SentAt sharedSecret x count (level side.other) width s j n)
    (hnew : ¬c.Got x (max (level .initiator) (level .responder)) side j n)
    (hfresh : ∀ y ∈ c.drawn, publicKey fresh ≠ publicKey y) :
    Receives sharedSecret (c.ends side) fresh s.header (messageKeyAt sharedSecret x j n) fun w =>
      (j < level side ∧ EndAt sharedSecret x count (level side)
          (alsoGot (c.Got x (max (level .initiator) (level .responder)) side) j n) w) ∨
        (j = level side + 1 ∧ EndAt sharedSecret (Function.update x (level side + 2) fresh) count (level side + 2)
          (alsoGot (c.Got x (max (level .initiator) (level .responder)) side) j n) w) := by
  have hadjacent := h.adjacent side
  have hle := hat.le
  have hparity := hat.parity
  rw [hat.header]
  refine (h.ends side).receive ic h.distinct (le_top level side) (hat.le.trans (le_top level _)) ?_ hat.pos (by omega) (by omega)
    hat.lt (h.width_lt j) hnew
  rintro rfl
  exact h.room_for_secret hle hfresh

/-- A message that an end opens keeps the ends in agreement. -/
theorem deliver (ic : IdealCrypto sharedSecret) (h : Sound sharedSecret width x count level c) (hu : c.Unforged side fresh p)
    (hfresh : ∀ y ∈ c.drawn, publicKey fresh ≠ publicKey y) (hlen : p.associatedData.length = width) :
    ∃ x' level', Sound sharedSecret width x' count level' (c.deliver side fresh p) := by
  rcases hd : p.decrypt (c.ends side) fresh with ⟨r, e | plaintext⟩
  · rw [deliver_eq_of_error hd]
    exact ⟨x, level, h.adjacent, h.ends, h.ended, h.width_lt, h.distinct, fun i hi => List.mem_cons_of_mem _ (h.drawn i hi), h.sent,
      h.unique, h.opened⟩
  rw [deliver_eq_of_ok hd]
  obtain ⟨s, hs, j, n, hsender, rfl, hat, hjm, hparity, hnew, hk⟩ := h.opens_new ic hu hlen hd
  have hj : j ≤ max (level .initiator) (level .responder) := hat.le.trans (le_top level _)
  have htop := h.top_cases side
  have hle := hat.le
  have hreceive := h.receives ic hat hnew hfresh
  have hroom : (c.ends side).skipped.len + (c.ends side).mustSkip s.header ≤ maxSkippedKeys := by
    by_contra hfull
    have herror := hreceive.of_full (by omega)
    rw [hk] at herror
    cases herror
  obtain ⟨w, hkey, hcase⟩ := hreceive.of_room hroom
  rw [hk] at hkey
  obtain rfl := (Prod.mk.inj (Except.ok.inj hkey)).2
  have hopened : ∀ side' q, (side', q) ∈ c.opened ++ [(side, s.toPacket)] →
      ∃ s' ∈ c.sent, s'.sender = side'.other ∧ s'.toPacket = q := by
    intro side' q hq
    rcases List.mem_append.mp hq with hq | hq
    · exact h.opened side' q hq
    · obtain ⟨rfl, rfl⟩ := Prod.mk.inj (List.mem_singleton.mp hq)
      exact ⟨s, hs, hsender, rfl⟩
  rcases hcase with ⟨hlt, hend⟩ | ⟨rfl, hend⟩
  · have hgot := got_iff { c with
        ends := Function.update c.ends side r, opened := c.opened ++ [(side, s.toPacket)], drawn := fresh :: c.drawn }
      h rfl (le_refl _) (fun _ _ => rfl) h.distinct hj hat.header rfl
    refine ⟨x, level, h.adjacent, fun side' => ?_, h.ended, h.width_lt, h.distinct,
      fun i hi => List.mem_cons_of_mem _ (h.drawn i hi), h.sent, h.unique, hopened⟩
    rcases side.eq_or_other side' with rfl | rfl
    · dsimp only
      rw [Function.update_self]
      refine hend.congr (fun _ _ => rfl) (fun _ _ _ => rfl) (fun _ => le_refl _) fun j' n' _ _ => ?_
      rw [hgot]
      unfold alsoGot
      simp
    · dsimp only
      rw [Function.update_of_ne side.other_ne]
      refine (h.ends side.other).congr (fun _ _ => rfl) (fun _ _ _ => rfl) (fun _ => le_refl _) fun j' n' _ _ => ?_
      rw [hgot]
      simp [side.other_ne]
  · -- The end has made a new secret, which is now the last of the schedule.
    obtain ⟨hx', hunused⟩ := h.room_for_secret hle hfresh
    have hother : level side.other = level side + 1 := by omega
    have ht : max (level .initiator) (level .responder) = level side + 1 := by omega
    have hself : Function.update level side (level side + 2) side = level side + 2 := Function.update_self _ _ _
    have hrest : Function.update level side (level side + 2) side.other = level side + 1 := by
      rw [Function.update_of_ne side.other_ne, hother]
    have ht' : max (Function.update level side (level side + 2) .initiator) (Function.update level side (level side + 2) .responder) =
        level side + 2 := by
      cases side <;> simp only [Side.other] at hself hrest <;> omega
    have hsame : ∀ i ≤ level side + 1, Function.update x (level side + 2) fresh i = x i :=
      fun i hi => Function.update_of_ne (by omega) _ _
    have hgot := got_iff { c with
        ends := Function.update c.ends side r, opened := c.opened ++ [(side, s.toPacket)], drawn := fresh :: c.drawn }
      h ht.symm (Nat.le_succ _) hsame hx' (le_refl _) hat.header rfl
    rw [ht] at hend
    refine ⟨Function.update x (level side + 2) fresh, Function.update level side (level side + 2), ?_⟩
    constructor
    · intro side'
      rcases side.eq_or_other side' with rfl | rfl
      · rw [hself, hrest]
        exact .inl rfl
      · rw [hrest, side.other_other, hself]
        exact .inr rfl
    · intro side'
      rw [ht']
      rcases side.eq_or_other side' with rfl | rfl
      · dsimp only
        rw [hself, Function.update_self]
        refine hend.congr (fun _ _ => rfl) (fun _ _ _ => rfl) (fun _ => le_refl _) fun j' n' _ _ => ?_
        rw [hgot]
        unfold alsoGot
        simp
      · dsimp only
        rw [hrest, Function.update_of_ne side.other_ne]
        have hend' := h.ends side.other
        rw [ht, hother] at hend'
        refine hend'.congr hsame (fun _ _ _ => rfl) (fun _ => le_refl _) fun j' n' _ _ => ?_
        rw [hgot]
        simp [side.other_ne]
    · intro i hi
      rw [ht'] at hi
      exact h.ended i (by omega)
    · exact h.width_lt
    · rw [ht']
      exact hx'
    · intro i hi
      rw [ht'] at hi
      rcases (by omega : i = level side + 2 ∨ i ≤ level side + 1) with rfl | hi
      · rw [Function.update_self]
        exact List.mem_cons_self
      · rw [hsame i hi]
        exact List.mem_cons_of_mem _ (h.drawn i (ht ▸ hi))
    · intro s' hs'
      obtain ⟨j', n', hat'⟩ := h.sent s' hs'
      have hj' : j' ≤ level side + 1 := ht ▸ hat'.le.trans (le_top level _)
      refine ⟨j', n', hat'.congr (fun i hi => hsame i (hi.trans hj')) ?_ ?_⟩
      · rcases side.eq_or_other s'.sender with he | he
        · rw [he, hself]
          omega
        · rw [he, hrest, hother]
      · rcases side.eq_or_other s'.sender with he | he
        · rw [he, hself]
          omega
        · rw [he, hrest, hother]
          omega
    · exact h.unique
    · exact hopened

omit [X25519] in
theorem encrypt_eq_of_error {nonce : Bytes 12} {plaintext aad : List UInt8} {e : CryptoError} {r : DoubleRatchet Key}
    (h : (c.ends side).encrypt nonce plaintext aad = (r, .error e)) :
    c.encrypt side nonce plaintext aad = { c with ends := Function.update c.ends side r } := by
  unfold Conversation.encrypt
  rw [h]

omit [X25519] in
theorem encrypt_eq_of_ok {nonce : Bytes 12} {plaintext aad ciphertext : List UInt8} {header : MessageHeader} {r : DoubleRatchet Key}
    (h : (c.ends side).encrypt nonce plaintext aad = (r, .ok (header, ciphertext))) :
    c.encrypt side nonce plaintext aad = { c with
      ends := Function.update c.ends side r
      sent := c.sent ++ [⟨⟨header, ciphertext, aad⟩, side, plaintext, (c.ends side).sendingChain.map (·.ratchet.1)⟩] } := by
  unfold Conversation.encrypt
  rw [h]

/-- The ends after a message was sealed, or the cipher had failed. -/
theorem advance (h : Sound sharedSecret width x count level c) {r : DoubleRatchet Key} (hm : 1 ≤ level side)
    (hwidth : count (level side) + 1 < 2 ^ 32)
    (hend : EndAt sharedSecret x (Function.update count (level side) (count (level side) + 1)) (level side)
      (c.Got x (max (level .initiator) (level .responder)) side) r) :
    Sound sharedSecret width x (Function.update count (level side) (count (level side) + 1)) level
      { c with ends := Function.update c.ends side r } := by
  have hself : Function.update count (level side) (count (level side) + 1) (level side) = count (level side) + 1 :=
    Function.update_self _ _ _
  have hrest : ∀ j, j ≠ level side → Function.update count (level side) (count (level side) + 1) j = count j :=
    fun j hj => Function.update_of_ne hj _ _
  have hmore : ∀ j, count j ≤ Function.update count (level side) (count (level side) + 1) j := by
    intro j
    rcases eq_or_ne j (level side) with rfl | hj
    · rw [hself]
      exact Nat.le_succ _
    · rw [hrest j hj]
  refine ⟨h.adjacent, fun side' => ?_, fun j hj => ?_, fun j => ?_, h.distinct, h.drawn, fun s hs => ?_, h.unique, h.opened⟩
  · rcases side.eq_or_other side' with rfl | rfl
    · dsimp only
      rw [Function.update_self]
      exact hend
    · dsimp only
      rw [Function.update_of_ne side.other_ne]
      have hadjacent := h.adjacent side
      refine (h.ends side.other).congr (fun _ _ => rfl) (fun j hj hor => hrest j (by omega)) (fun _ => hmore _) fun j n _ _ => Iff.rfl
  · have := le_top level side
    rw [hrest j (by omega)]
    exact h.ended j hj
  · rcases eq_or_ne j (level side) with rfl | hj
    · rw [hself]
      exact hwidth
    · rw [hrest j hj]
      exact h.width_lt j
  · obtain ⟨j, n, hat⟩ := h.sent s hs
    refine ⟨j, n, { hat with lt := hat.lt.trans_le (hmore j), header := ?_ }⟩
    rw [hat.header]
    unfold headerAt
    -- The sender's chain before this one has ended, and the other side has no part in it.
    rw [hrest (j - 2) ?_]
    have hadjacent := h.adjacent side
    have hle := hat.le
    have hparity := hat.parity
    have hpos := hat.pos
    rcases side.eq_or_other s.sender with he | he
    · rw [he] at hle hparity
      omega
    · rw [he] at hle hparity
      omega

/-- A message that is sealed keeps the ends in agreement. -/
theorem encrypt (h : Sound sharedSecret width x count level c) {nonce : Bytes 12} {plaintext aad : List UInt8}
    (hwidth : (c.ends side).sendCount + 1 < 2 ^ 32) (hlen : aad.length = width) :
    ∃ count', Sound sharedSecret width x count' level (c.encrypt side nonce plaintext aad) := by
  have hend := h.ends side
  rcases Nat.eq_zero_or_pos (level side) with hzero | hpos
  · rw [hzero] at hend
    rw [encrypt_eq_of_error (hend.encrypt_none nonce plaintext aad), Function.update_eq_self]
    exact ⟨count, h⟩
  rw [hend.sendCount] at hwidth
  obtain ⟨hend', hsealed⟩ := hend.encrypt hpos hwidth nonce plaintext aad
  have hadvance := h.advance hpos hwidth hend'
  rcases hr : (c.ends side).encrypt nonce plaintext aad with ⟨r, e | ⟨header, ciphertext⟩⟩
  · rw [encrypt_eq_of_error hr]
    rw [hr] at hadvance
    exact ⟨_, hadvance⟩
  rw [encrypt_eq_of_ok hr]
  rw [hr] at hadvance hsealed
  obtain ⟨rfl, hciphertext⟩ := hsealed header ciphertext rfl
  have hchain : (c.ends side).sendingChain = some (chainAt sharedSecret x (level side) (count (level side))) := by
    rw [hend.sendingChain, if_neg (by omega)]
  rw [hchain]
  have hnext : Function.update count (level side) (count (level side) + 1) (level side) = count (level side) + 1 :=
    Function.update_self _ _ _
  have hold : ∀ s ∈ c.sent, s.header ≠ headerAt x count (level side) (count (level side)) := by
    intro s hs he
    obtain ⟨j, n, hat⟩ := h.sent s hs
    rw [hat.header] at he
    have hd := congrArg MessageHeader.dhPublic he
    obtain rfl := h.distinct j (hat.le.trans (le_top level _)) (level side) (le_top level _) hd
    have hn : n = count (level side) := congrArg MessageHeader.messageNumber he
    exact absurd hat.lt (by omega)
  refine ⟨_, hadvance.adjacent, hadvance.ends, hadvance.ended, hadvance.width_lt, hadvance.distinct, hadvance.drawn, ?_, ?_, ?_⟩
  · intro s hs
    rcases List.mem_append.mp hs with hs | hs
    · exact hadvance.sent s hs
    · obtain rfl := List.mem_singleton.mp hs
      refine ⟨level side, count (level side), hpos, le_refl _, ?_, ?_, ?_, rfl, hlen, nonce, hciphertext⟩
      · dsimp only
        omega
      · rw [hnext]
        exact Nat.lt_succ_self _
      · unfold headerAt
        rw [Function.update_of_ne (by omega)]
  · intro s hs s' hs' he
    rcases List.mem_append.mp hs with hs | hs <;> rcases List.mem_append.mp hs' with hs' | hs'
    · exact h.unique s hs s' hs' he
    · rw [List.mem_singleton.mp hs'] at he
      exact absurd he (hold s hs)
    · rw [List.mem_singleton.mp hs] at he
      exact absurd he.symm (hold s' hs')
    · rw [List.mem_singleton.mp hs, List.mem_singleton.mp hs']
  · intro side' q hq
    obtain ⟨s, hs, hrest⟩ := h.opened side' q hq
    exact ⟨s, List.mem_append_left _ hs, hrest⟩

end Sound

theorem Runs.sound (ic : IdealCrypto sharedSecret) (h : Runs sharedSecret width c) :
    ∃ x count level, Sound sharedSecret width x count level c := by
  induction h with
  | start h => exact ⟨_, _, _, .start h⟩
  | encrypt _ hwidth hlen ih =>
    obtain ⟨x, count, level, h⟩ := ih
    obtain ⟨count', h'⟩ := h.encrypt hwidth hlen
    exact ⟨x, count', level, h'⟩
  | deliver _ hfresh hu hlen ih =>
    obtain ⟨x, count, level, h⟩ := ih
    obtain ⟨x', level', h'⟩ := h.deliver ic hu hfresh hlen
    exact ⟨x', count, level', h'⟩

/-- A message that was not opened yet is received with the key that it was sealed with. -/
theorem Runs.receives_new (ic : IdealCrypto sharedSecret) (h : Runs sharedSecret width c) (hs : s ∈ c.sent)
    (hsender : s.sender = side.other) (hnew : (side, s.toPacket) ∉ c.opened)
    (hfresh : ∀ y ∈ c.drawn, publicKey fresh ≠ publicKey y) :
    ∃ k after nonce, s.key = some k ∧ Receives sharedSecret (c.ends side) fresh s.header k after ∧
      Aead.encrypt nonce k s.plaintext (fullAssociatedData s.associatedData s.header) = .ok s.ciphertext := by
  obtain ⟨x, count, level, h⟩ := h.sound ic
  obtain ⟨j, n, hat⟩ := h.sent s hs
  rw [hsender] at hat
  have hgot : ¬c.Got x (max (level .initiator) (level .responder)) side j n := by
    rintro ⟨hj, q, hq, hd, hn⟩
    obtain ⟨s', hs', -, rfl⟩ := h.opened side q hq
    obtain ⟨j', n', hat'⟩ := h.sent s' hs'
    rw [hat'.header] at hd hn
    obtain rfl := h.distinct j' (hat'.le.trans (Sound.le_top level _)) j hj hd
    obtain rfl : n' = n := hn
    obtain rfl := h.unique s hs s' hs' (hat.header.trans hat'.header.symm)
    exact hnew hq
  obtain ⟨nonce, hciphertext⟩ := hat.ciphertext
  exact ⟨_, _, nonce, hat.key, h.receives ic hat hgot hfresh, hciphertext⟩

/-- A message that was not opened yet is opened exactly if there is room for the keys that have to be skipped. -/
theorem Runs.opens_iff (ic : IdealCrypto sharedSecret) (h : Runs sharedSecret width c) (hs : s ∈ c.sent)
    (hsender : s.sender = side.other) (hnew : (side, s.toPacket) ∉ c.opened)
    (hfresh : ∀ y ∈ c.drawn, publicKey fresh ≠ publicKey y) :
    (s.toPacket.decrypt (c.ends side) fresh).2 = .ok s.plaintext ↔
      (c.ends side).skipped.len + (c.ends side).mustSkip s.header ≤ maxSkippedKeys := by
  obtain ⟨k, after, nonce, -, hreceive, hciphertext⟩ := h.receives_new ic hs hsender hnew hfresh
  constructor
  · intro hok
    by_contra hfull
    have herror := DoubleRatchet.decrypt_of_error (hreceive.of_full (by omega)) s.ciphertext s.associatedData
    unfold Packet.decrypt at hok
    rw [herror] at hok
    cases hok
  · intro hroom
    obtain ⟨w, hkey, -⟩ := hreceive.of_room hroom
    exact congrArg Prod.snd (DoubleRatchet.decrypt_eq hkey (ic.opens _ _ _ _ _ hciphertext))

/-- What an end opens is a message of its peer that it has not opened before. -/
theorem Runs.opens_new (ic : IdealCrypto sharedSecret) (h : Runs sharedSecret width c) (hu : c.Unforged side fresh p)
    (hlen : p.associatedData.length = width) {r : DoubleRatchet Key} {plaintext : List UInt8}
    (hok : p.decrypt (c.ends side) fresh = (r, .ok plaintext)) :
    (side, p) ∉ c.opened ∧ ∃ s ∈ c.sent, s.sender = side.other ∧ s.toPacket = p := by
  obtain ⟨x, count, level, h⟩ := h.sound ic
  obtain ⟨s, hs, j, n, hsender, rfl, hat, -, -, hnew, -⟩ := h.opens_new ic hu hlen hok
  refine ⟨fun hopened => hnew ?_, s, hs, hsender, rfl⟩
  refine ⟨hat.le.trans (Sound.le_top level _), _, hopened, ?_, ?_⟩
  · rw [hat.header]
    rfl
  · rw [hat.header]
    rfl

end Conversation

/-- A message is opened the first time that it comes, if there is room for the keys that have to be skipped; after that, or
if it is not what the peer sent, it is refused and changes nothing. -/
theorem delivered_once {sharedSecret : Key} (ic : IdealCrypto sharedSecret) {width : ℕ} {c : Conversation Key}
    (h : Conversation.Runs sharedSecret width c) (side : Side) {fresh : Bytes 32}
    (hfresh : ∀ y ∈ c.drawn, publicKey fresh ≠ publicKey y) (p : Packet) (hu : c.Unforged side fresh p)
    (hlen : p.associatedData.length = width) :
    (∀ s ∈ c.sent, s.sender = side.other → s.toPacket = p → (side, p) ∉ c.opened →
        (c.ends side).skipped.len + (c.ends side).mustSkip p.header ≤ maxSkippedKeys →
          (p.decrypt (c.ends side) fresh).2 = .ok s.plaintext) ∧
      (((side, p) ∈ c.opened ∨ ∀ s ∈ c.sent, s.sender = side.other → s.toPacket ≠ p) →
        ∃ e, p.decrypt (c.ends side) fresh = (c.ends side, .error e)) := by
  constructor
  · rintro s hs hsender rfl hnew hroom
    exact (h.opens_iff ic hs hsender hnew hfresh).mpr hroom
  · intro hold
    rcases hd : p.decrypt (c.ends side) fresh with ⟨r, e | plaintext⟩
    · exact ⟨e, by rw [DoubleRatchet.decrypt_error hd]⟩
    · obtain ⟨hnew, s, hs, hsender, hpacket⟩ := h.opens_new ic hu hlen hd
      rcases hold with hopened | hforged
      · exact absurd hopened hnew
      · exact absurd hpacket (hforged s hs hsender)

/-- What decides is how many skipped keys are kept already, from any chain, beside those that the message needs. -/
theorem opens_iff_room {sharedSecret : Key} (ic : IdealCrypto sharedSecret) {width : ℕ} {c : Conversation Key}
    (h : Conversation.Runs sharedSecret width c) (side : Side) {fresh : Bytes 32}
    (hfresh : ∀ y ∈ c.drawn, publicKey fresh ≠ publicKey y) {s : Sealed Key} (hs : s ∈ c.sent) (hsender : s.sender = side.other)
    (hnew : (side, s.toPacket) ∉ c.opened) :
    (s.toPacket.decrypt (c.ends side) fresh).2 = .ok s.plaintext ↔
      (c.ends side).skipped.len + (c.ends side).mustSkip s.header ≤ maxSkippedKeys :=
  h.opens_iff ic hs hsender hnew hfresh

/-! ### A session that is worn out -/

/-- The runs in which no delivery has to skip as many messages as there may be keys. -/
inductive Conversation.Sparing (sharedSecret : Key) (width : ℕ) :
    Conversation Key → Prop
  | start {prekeySecret first : Bytes 32} : publicKey first ≠ publicKey prekeySecret →
      Sparing sharedSecret width (.start sharedSecret prekeySecret first)
  | encrypt {c : Conversation Key} {side : Side} {nonce : Bytes 12} {plaintext associatedData : List UInt8} :
      Sparing sharedSecret width c → (c.ends side).sendCount + 1 < 2 ^ 32 → associatedData.length = width →
      Sparing sharedSecret width (c.encrypt side nonce plaintext associatedData)
  | deliver {c : Conversation Key} {side : Side} {fresh : Bytes 32} {p : Packet} : Sparing sharedSecret width c →
      (∀ y ∈ c.drawn, publicKey fresh ≠ publicKey y) → c.Unforged side fresh p → p.associatedData.length = width →
      (c.ends side).mustSkip p.header < maxSkippedKeys → Sparing sharedSecret width (c.deliver side fresh p)

theorem Conversation.Sparing.runs {sharedSecret : Key} {width : ℕ} {c : Conversation Key} (h : Sparing sharedSecret width c) :
    Runs sharedSecret width c := by
  induction h with
  | start h => exact .start h
  | encrypt _ hwidth hlen ih => exact .encrypt ih hwidth hlen
  | deliver _ hfresh hu hlen _ ih => exact .deliver ih hfresh hu hlen

/-- What the responder is like after its first delivery. -/
theorem DoubleRatchet.first_received {sharedSecret : Key} {prekeySecret fresh : Bytes 32}
    {header : MessageHeader} (hroom : header.messageNumber ≤ maxSkippedKeys) {k : MessageKey Key} {w : DoubleRatchet Key}
    (h : (DoubleRatchet.initResponder sharedSecret prekeySecret).receivingKey fresh header = .ok (k, w)) :
    w.dhRemote = some header.dhPublic ∧ w.recvCount = u32Succ header.messageNumber ∧ w.skipped.len = header.messageNumber ∧
      ∀ i, header.messageNumber ≤ i → w.skipped.lookup (header.dhPublic, i) = none := by
  have hempty : ∀ d, (DoubleRatchet.initResponder sharedSecret prekeySecret).skipped.lookup d = none := fun _ => AList.lookup_empty _
  have hroom' : ((DoubleRatchet.initResponder sharedSecret prekeySecret).dhRatchetStep fresh header.dhPublic).skipped.len +
      (header.messageNumber - 0) ≤ maxSkippedKeys := by
    show 0 + (header.messageNumber - 0) ≤ _
    omega
  obtain ⟨s, hskip, hlen, hlookup⟩ := DoubleRatchet.skipMessageKeys_of_room
    (r := (DoubleRatchet.initResponder sharedSecret prekeySecret).dhRatchetStep fresh header.dhPublic) rfl rfl (fun i _ => hempty _)
    hroom'
  have hkey := DoubleRatchet.receivingKey_next (hempty _) (.inr ⟨by simp [DoubleRatchet.initResponder], _, rfl, rfl⟩) hskip rfl
  obtain ⟨-, rfl⟩ := Prod.mk.inj (Except.ok.inj (h.symm.trans hkey))
  refine ⟨rfl, ?_, ?_, fun i hi => ?_⟩
  · show u32Succ (max 0 header.messageNumber) = _
    rw [Nat.zero_max]
  · refine hlen.trans ?_
    show 0 + (header.messageNumber - 0) = _
    omega
  · show s.lookup _ = _
    rw [hlookup]
    unfold SkippedKeyStore.filled
    rw [if_neg]
    · exact hempty _
    · rintro ⟨-, -, hi'⟩
      have : i < 0 + (header.messageNumber - 0) := hi'
      omega

end

section
attribute [local instance] StandIn.x25519 StandIn.symmetricPrimitives StandIn.x3dhKdf

namespace Losses

def secret : List UInt8 := StandIn.x3dhKdf.hkdf [0x07]

def start : Conversation (List UInt8) := .start secret (.replicate 32 6) (.replicate 32 5)

/-- The initiator sends `k` messages. -/
def many : ℕ → Conversation (List UInt8) → Conversation (List UInt8)
  | 0, c => c
  | k + 1, c => many k (c.encrypt .initiator (.replicate 12 0) [] [])

/-- What is left of an earlier state after the initiator has sent `k` messages. -/
structure Sends (c c' : Conversation (List UInt8)) (k : ℕ) : Prop where
  responder : c'.ends .responder = c.ends .responder
  opened : c'.opened = c.opened
  drawn : c'.drawn = c.drawn
  dhSelfPublic : (c'.ends .initiator).dhSelfPublic = (c.ends .initiator).dhSelfPublic
  chain : (c'.ends .initiator).sendingChain.isSome
  sendCount : (c'.ends .initiator).sendCount = (c.ends .initiator).sendCount + k
  kept : ∀ s ∈ c.sent, s ∈ c'.sent
  sent : ∀ n < k, ∃ s ∈ c'.sent, s.sender = Side.responder.other ∧ s.associatedData = [] ∧
    s.header.dhPublic = (c.ends .initiator).dhSelfPublic ∧ s.header.messageNumber = (c.ends .initiator).sendCount + n

variable {c : Conversation (List UInt8)} {k : ℕ}

theorem sends_one (hchain : (c.ends .initiator).sendingChain.isSome) (hwidth : (c.ends .initiator).sendCount + 1 < 2 ^ 32) :
    Sends c (c.encrypt .initiator (.replicate 12 0) [] []) 1 := by
  obtain ⟨chain, hchain⟩ := Option.isSome_iff_exists.mp hchain
  have hencrypt : ∃ header ciphertext, (c.ends .initiator).encrypt (.replicate 12 0) [] [] =
      ({ c.ends .initiator with
          sendingChain := some chain.ratchet.2, sendCount := u32Succ (c.ends .initiator).sendCount }, .ok (header, ciphertext)) ∧
      header.dhPublic = (c.ends .initiator).dhSelfPublic ∧ header.messageNumber = (c.ends .initiator).sendCount := by
    unfold DoubleRatchet.encrypt
    rw [hchain]
    exact ⟨_, _, rfl, rfl, rfl⟩
  obtain ⟨header, ciphertext, hencrypt, hpublic, hnumber⟩ := hencrypt
  rw [Conversation.Sound.encrypt_eq_of_ok hencrypt]
  constructor
  · dsimp only
    rw [Function.update_of_ne (by decide)]
  · rfl
  · rfl
  · dsimp only
    rw [Function.update_self]
  · dsimp only
    rw [Function.update_self]
    rfl
  · dsimp only
    rw [Function.update_self]
    exact Nat.mod_eq_of_lt hwidth
  · exact fun s hs => List.mem_append_left _ hs
  · intro n hn
    obtain rfl : n = 0 := by omega
    exact ⟨_, List.mem_append_right _ (List.mem_singleton_self _), rfl, rfl, hpublic, hnumber⟩

theorem Sends.trans {c c' c'' : Conversation (List UInt8)} {k k' : ℕ} (h : Sends c c' k) (h' : Sends c' c'' k') :
    Sends c c'' (k + k') where
  responder := h'.responder.trans h.responder
  opened := h'.opened.trans h.opened
  drawn := h'.drawn.trans h.drawn
  dhSelfPublic := h'.dhSelfPublic.trans h.dhSelfPublic
  chain := h'.chain
  sendCount := by rw [h'.sendCount, h.sendCount, Nat.add_assoc]
  kept s hs := h'.kept s (h.kept s hs)
  sent n hn := by
    by_cases hlt : n < k
    · obtain ⟨s, hs, hrest⟩ := h.sent n hlt
      exact ⟨s, h'.kept s hs, hrest⟩
    · obtain ⟨s, hs, hsender, haad, hpublic, hnumber⟩ := h'.sent (n - k) (by omega)
      refine ⟨s, hs, hsender, haad, hpublic.trans h.dhSelfPublic, ?_⟩
      rw [hnumber, h.sendCount]
      omega

theorem many_sends (hrun : Conversation.Sparing secret 0 c) (hchain : (c.ends .initiator).sendingChain.isSome)
    (hwidth : (c.ends .initiator).sendCount + k < 2 ^ 32) : Conversation.Sparing secret 0 (many k c) ∧ Sends c (many k c) k := by
  induction k generalizing c with
  | zero => exact ⟨hrun, rfl, rfl, rfl, rfl, hchain, rfl, fun _ hs => hs, fun n hn => absurd hn (Nat.not_lt_zero n)⟩
  | succ k ih =>
    have hone := sends_one hchain (by omega)
    obtain ⟨hrun', hmany⟩ := ih (hrun.encrypt (by omega) rfl) hone.chain (by rw [hone.sendCount]; omega)
    have hsends := hone.trans hmany
    rw [Nat.add_comm] at hsends
    exact ⟨hrun', hsends⟩

theorem started : Conversation.Sparing secret 0 start := .start (by decide)

theorem fresh_in {c : Conversation (List UInt8)} (n : UInt8) (drawn : List UInt8) (hc : c.drawn = drawn.map (.replicate 32 ·))
    (hn : n ∉ drawn) : ∀ y ∈ c.drawn, publicKey (.replicate 32 n) ≠ publicKey y := by
  rw [hc]
  intro y hy he
  obtain ⟨m, hm, rfl⟩ := List.mem_map.mp hy
  have hhead := congrArg (fun b : Bytes 32 => b.toList.head?) (show (Bytes.replicate 32 n) = .replicate 32 m from he)
  obtain rfl : n = m := Option.some.inj hhead
  exact hn hm

/-- Only its own key opens what was sent, so nothing that was sent is forged. -/
theorem unforged (h : Conversation.Runs secret 0 c) {s : Sealed (List UInt8)} (hs : s ∈ c.sent) (side : Side)
    (fresh : Bytes 32) : c.Unforged side fresh s.toPacket := by
  intro k w plaintext _ hopen
  obtain ⟨_, _, _, hsound⟩ := h.sound (StandIn.idealCrypto _)
  obtain ⟨_, _, hat⟩ := hsound.sent s hs
  obtain ⟨nonce, hseal⟩ := hat.ciphertext
  exact ⟨s, hs, hat.key.trans (congrArg some (StandIn.opens_only hseal hopen).symm), rfl, rfl⟩

/-- What the responder has made of the first message that it opened. -/
structure Opens (c c' : Conversation (List UInt8)) (s : Sealed (List UInt8)) : Prop where
  initiator : c'.ends .initiator = c.ends .initiator
  sent : c'.sent = c.sent
  opened : c'.opened = [(Side.responder, s.toPacket)]
  drawn : c'.drawn = .replicate 32 8 :: c.drawn
  dhRemote : (c'.ends .responder).dhRemote = some s.header.dhPublic
  recvCount : (c'.ends .responder).recvCount = u32Succ s.header.messageNumber
  stored : (c'.ends .responder).skipped.len = s.header.messageNumber
  ahead : ∀ i, s.header.messageNumber ≤ i → (c'.ends .responder).skipped.lookup (s.header.dhPublic, i) = none

/-- Any of the messages may come first, if it skips fewer than there may be keys. -/
theorem first_opens (hrun : Conversation.Sparing secret 0 c) (hsends : Sends start c k) {n : ℕ} (hn : n < k)
    (hroom : n < maxSkippedKeys) :
    ∃ s ∈ c.sent, s.header.dhPublic = (start.ends .initiator).dhSelfPublic ∧ s.header.messageNumber = n ∧
      (s.toPacket.decrypt (c.ends .responder) (.replicate 32 8)).2 = .ok s.plaintext ∧ s.associatedData = [] ∧
      Conversation.Sparing secret 0 (c.deliver .responder (.replicate 32 8) s.toPacket) ∧
      Opens c (c.deliver .responder (.replicate 32 8) s.toPacket) s := by
  obtain ⟨s, hs, hsender, haad, hpublic, hnumber⟩ := hsends.sent n hn
  have hstart : (start.ends .initiator).sendCount = 0 := rfl
  rw [hstart, Nat.zero_add] at hnumber
  have hresponder : c.ends .responder = .initResponder secret (.replicate 32 6) := hsends.responder
  have hnew : (Side.responder, s.toPacket) ∉ c.opened := by
    rw [hsends.opened]
    exact List.not_mem_nil
  have hfresh := fresh_in 8 [5, 6] hsends.drawn (by decide)
  have hmust : (c.ends .responder).mustSkip s.header = n := by
    rw [hresponder]
    show 0 + s.header.messageNumber = _
    omega
  have hlen : (c.ends .responder).skipped.len = 0 := by
    rw [hresponder]
    rfl
  have hok := (hrun.runs.opens_iff (StandIn.idealCrypto _) hs hsender hnew hfresh).mpr (by omega)
  have hrun' := hrun.deliver hfresh (unforged hrun.runs hs .responder _) (congrArg List.length haad) (by omega)
  refine ⟨s, hs, hpublic, hnumber, hok, haad, hrun', ?_⟩
  rcases hw : s.toPacket.decrypt (c.ends .responder) (.replicate 32 8) with ⟨w, result⟩
  rw [hw] at hok
  obtain rfl : result = .ok s.plaintext := hok
  rw [Conversation.deliver_eq_of_ok hw]
  obtain ⟨k, hk, -⟩ := DoubleRatchet.decrypt_ok_open hw
  rw [hresponder] at hk
  obtain ⟨hremote, hcount, hstored, hahead⟩ := DoubleRatchet.first_received (by omega) hk
  constructor
  · show Function.update c.ends .responder w .initiator = _
    exact Function.update_of_ne Side.responder.other_ne _ _
  · rfl
  · show c.opened ++ _ = _
    rw [hsends.opened]
    rfl
  · rfl
  all_goals
    dsimp only
    rw [Function.update_self]
    assumption

/-- The first thousand messages are lost but for the last one, and then another thousand. -/
theorem worn : ∃ c, Conversation.Sparing secret 0 c ∧ ∃ s ∈ c.sent, s.sender = Side.responder.other ∧ (Side.responder, s.toPacket) ∉ c.opened ∧
    (∀ y ∈ c.drawn, publicKey (Bytes.replicate 32 9) ≠ publicKey y) ∧
    (c.ends .responder).mustSkip s.header = 1001 ∧ (c.ends .responder).skipped.len = 1000 := by
  obtain ⟨c, hrun, hsends⟩ : ∃ c, Conversation.Sparing secret 0 c ∧ Sends start c 1001 := ⟨_, many_sends started rfl (by decide)⟩
  obtain ⟨s, hs, hpublic, hnumber, -, -, hrun', hopens⟩ := first_opens (n := 1000) hrun hsends (by decide) (by decide)
  have hcount : (c.ends .initiator).sendCount = 1001 := hsends.sendCount
  obtain ⟨c', hrun'', hsends'⟩ : ∃ c', Conversation.Sparing secret 0 c' ∧
      Sends (c.deliver .responder (.replicate 32 8) s.toPacket) c' 1002 := by
    refine ⟨_, many_sends hrun' ?_ ?_⟩
    · rw [hopens.initiator]
      exact hsends.chain
    · rw [hopens.initiator, hcount]
      decide
  refine ⟨c', hrun'', ?_⟩
  obtain ⟨s', hs', hsender', -, hpublic', hnumber'⟩ := hsends'.sent 1001 (by decide)
  rw [hopens.initiator] at hpublic' hnumber'
  rw [hcount] at hnumber'
  have hsame : s'.header.dhPublic = s.header.dhPublic := hpublic'.trans (hsends.dhSelfPublic.trans hpublic.symm)
  refine ⟨s', hs', hsender', ?_, ?_, ?_, ?_⟩
  · rw [hsends'.opened, hopens.opened]
    intro hmem
    have hpacket := (Prod.mk.inj (List.mem_singleton.mp hmem)).2
    have := congrArg (·.header.messageNumber) hpacket
    omega
  · refine fresh_in 9 [8, 5, 6] ?_ (by decide)
    rw [hsends'.drawn, hopens.drawn, hsends.drawn]
    rfl
  · rw [hsends'.responder]
    unfold DoubleRatchet.mustSkip
    rw [hsame, hopens.ahead _ (by omega), if_neg (by simp), if_pos hopens.dhRemote, hopens.recvCount, hnumber, hnumber']
    rfl
  · rw [hsends'.responder, hopens.stored, hnumber]

end Losses

/-- The session is worn out by losses that are small each. -/
theorem small_losses_wear_out : ¬∀ (c : Conversation (List UInt8)) (side : Side) (fresh : Bytes 32) (s : Sealed (List UInt8)),
    Conversation.Sparing Losses.secret 0 c → (∀ y ∈ c.drawn, publicKey fresh ≠ publicKey y) → s ∈ c.sent →
    s.sender = side.other → (side, s.toPacket) ∉ c.opened → (c.ends side).mustSkip s.header < maxSkippedKeys →
    (s.toPacket.decrypt (c.ends side) fresh).2 = .ok s.plaintext := by
  intro hall
  obtain ⟨c, hrun, s, hs, hsender, hnew, hfresh, hmust, hlen⟩ := Losses.worn
  have hcap : maxSkippedKeys = 2000 := rfl
  have hok := hall c .responder _ s hrun hfresh hs hsender hnew (by omega)
  have hroom := (hrun.runs.opens_iff (StandIn.idealCrypto _) hs hsender hnew hfresh).mp hok
  omega

/-- The second of two messages comes first, then the first one, and then the second one again. -/
theorem delivered_once_first : ∃ c : Conversation (List UInt8), ∃ s ∈ c.sent, ∃ s' ∈ c.sent,
    let c₁ := c.deliver .responder (.replicate 32 8) s'.toPacket
    let c₂ := c₁.deliver .responder (.replicate 32 9) s.toPacket
    s.header.messageNumber < s'.header.messageNumber ∧
      (s'.toPacket.decrypt (c.ends .responder) (.replicate 32 8)).2 = .ok s'.plaintext ∧
      (s.toPacket.decrypt (c₁.ends .responder) (.replicate 32 9)).2 = .ok s.plaintext ∧
      ∃ e, s'.toPacket.decrypt (c₂.ends .responder) (.replicate 32 10) = (c₂.ends .responder, .error e) := by
  have ic : IdealCrypto Losses.secret := StandIn.idealCrypto _
  obtain ⟨c, hrun, hsends⟩ : ∃ c, Conversation.Sparing Losses.secret 0 c ∧ Losses.Sends Losses.start c 2 :=
    ⟨_, Losses.many_sends Losses.started rfl (by decide)⟩
  obtain ⟨s, hs, hsender, haad, hpublic, hnumber⟩ := hsends.sent 0 (by decide)
  obtain ⟨s', hs', hpublic', hnumber', hfirst, haad', hrun', hopens⟩ :=
    Losses.first_opens (n := 1) hrun hsends (by decide) (by decide)
  have hlt : s.header.messageNumber < s'.header.messageNumber := by
    rw [hnumber, hnumber']
    decide
  have hin : s ∈ (c.deliver .responder (.replicate 32 8) s'.toPacket).sent := hopens.sent ▸ hs
  have hdrawn := hopens.drawn.trans (congrArg _ hsends.drawn)
  have hfresh := Losses.fresh_in 9 [8, 5, 6] hdrawn (by decide)
  have hunforged := Losses.unforged hrun'.runs hin .responder (.replicate 32 9)
  refine ⟨c, s, hs, s', hs', hlt, hfirst, ?_, ?_⟩
  · have hnew : (Side.responder, s.toPacket) ∉ (c.deliver .responder (.replicate 32 8) s'.toPacket).opened := by
      rw [hopens.opened]
      intro hmem
      have hpacket := (Prod.mk.inj (List.mem_singleton.mp hmem)).2
      have := congrArg (·.header.messageNumber) hpacket
      omega
    have hmust : ((c.deliver .responder (.replicate 32 8) s'.toPacket).ends .responder).mustSkip s.header = 0 := by
      unfold DoubleRatchet.mustSkip
      rw [hopens.dhRemote, hpublic, hpublic', hnumber, if_pos rfl]
      split_ifs
      · rfl
      · exact Nat.zero_sub _
    have honce := delivered_once ic hrun'.runs .responder hfresh s.toPacket hunforged (congrArg List.length haad)
    refine honce.1 s hin hsender rfl hnew ?_
    rw [hopens.stored, hmust, hnumber']
    decide
  · have hrun'' := hrun'.runs.deliver hfresh hunforged (congrArg List.length haad)
    have hfresh' := Losses.fresh_in 10 [9, 8, 5, 6] (c := (c.deliver .responder (.replicate 32 8) s'.toPacket).deliver
      .responder (.replicate 32 9) s.toPacket) (congrArg _ hdrawn) (by decide)
    have honce := delivered_once ic hrun'' .responder hfresh' s'.toPacket
      (Losses.unforged hrun'' (hopens.sent ▸ hs') _ _) (congrArg List.length haad')
    refine honce.2 (.inl (Conversation.opened_deliver ?_))
    rw [hopens.opened]
    exact List.mem_singleton_self _

theorem opens_iff_room_worn : ∃ c : Conversation (List UInt8), ∃ s ∈ c.sent,
    (s.toPacket.decrypt (c.ends Side.responder) (.replicate 32 9)).2 ≠ .ok s.plaintext := by
  obtain ⟨c, hrun, s, hs, hsender, hnew, hfresh, hmust, hlen⟩ := Losses.worn
  have hcap : maxSkippedKeys = 2000 := rfl
  refine ⟨c, s, hs, fun hok => ?_⟩
  have hroom := (opens_iff_room (StandIn.idealCrypto _) hrun.runs .responder hfresh hs hsender hnew).mp hok
  omega

end
end SpiritChat
