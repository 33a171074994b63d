import SpiritChat.Theorems.Skipping

/-! # One end of a session

An end that has made secret number `m` sends on chain `m` and receives on chain `m - 1`. It keeps exactly the keys of
its peer's messages that it has passed and not received. -/

namespace SpiritChat
open X25519

section
variable {Key : Type} [X25519] [SymmetricPrimitives Key]

/-- How far an end at secret number `m` is on chain `j`, if `recv` messages of the newest chain are behind it. -/
def passed (m recv : ℕ) (count : ℕ → ℕ) (j : ℕ) : ℕ := if j + 1 = m then recv else count j

/-- Chain `j` is one of the peer's, and the end at secret number `m` has received on it. -/
structure Heard (m j : ℕ) : Prop where
  pos : 1 ≤ j
  lt : j < m
  parity : (m + j) % 2 = 1

/-- The end whose newest secret is number `m`. `count` tells how many messages there are on each chain, and `got` which
of its peer's messages it has received. -/
structure EndAt (sharedSecret : Key) (x : ℕ → Bytes 32) (count : ℕ → ℕ) (m : ℕ) (got : ℕ → ℕ → Prop) (r : DoubleRatchet Key) :
    Prop where
  dhSelf : r.dhSelf = x m
  dhSelfPublic : r.dhSelfPublic = publicKey (x m)
  rootKey : r.rootKey = rootAt sharedSecret x m
  dhRemote : r.dhRemote = if m = 0 then none else some (publicKey (x (m - 1)))
  sendingChain : r.sendingChain = if m = 0 then none else some (chainAt sharedSecret x m (count m))
  receivingChain : r.receivingChain = if m < 2 then none else some (chainAt sharedSecret x (m - 1) r.recvCount)
  sendCount : r.sendCount = count m
  previous : r.previousSendingChainLength = count (m - 2)
  received : 2 ≤ m → r.recvCount ≤ count (m - 1)
  kept (d : Bytes 32) (n : ℕ) (k : MessageKey Key) : r.skipped.lookup (d, n) = some k ↔
    ∃ j, Heard m j ∧ d = publicKey (x j) ∧ n < passed m r.recvCount count j ∧ ¬got j n ∧ k = messageKeyAt sharedSecret x j n
  room : r.skipped.len ≤ maxSkippedKeys
  got_passed (j n : ℕ) : 1 ≤ j → (m + j) % 2 = 1 → got j n → j < m ∧ n < passed m r.recvCount count j

/-- The header of message `n` on chain `j`. -/
def headerAt (x : ℕ → Bytes 32) (count : ℕ → ℕ) (j n : ℕ) : MessageHeader := ⟨publicKey (x j), count (j - 2), n⟩

/-- With one more message received. -/
def alsoGot (got : ℕ → ℕ → Prop) (j n : ℕ) : ℕ → ℕ → Prop := fun j' n' => got j' n' ∨ (j' = j ∧ n' = n)

variable {sharedSecret : Key} {x x' : ℕ → Bytes 32} {count count' : ℕ → ℕ} {m t j n : ℕ} {got got' : ℕ → ℕ → Prop}
  {r w : DoubleRatchet Key} {header : MessageHeader} {fresh : Bytes 32}

/-- The ratchet keys of the first secrets are distinct. -/
def Distinct (x : ℕ → Bytes 32) (t : ℕ) : Prop := ∀ i ≤ t, ∀ j ≤ t, publicKey (x i) = publicKey (x j) → i = j

namespace EndAt

theorem initInitiator (sharedSecret : Key) (x : ℕ → Bytes 32) {got : ℕ → ℕ → Prop} (hgot : ∀ j n, ¬got j n) :
    EndAt sharedSecret x (fun _ => 0) 1 got (.initInitiator (x 1) sharedSecret (publicKey (x 0))) where
  dhSelf := rfl
  dhSelfPublic := rfl
  rootKey := rfl
  dhRemote := rfl
  sendingChain := rfl
  receivingChain := rfl
  sendCount := rfl
  previous := rfl
  received := fun h => absurd h (by decide)
  kept d n k := by
    constructor
    · intro h
      cases h
    · rintro ⟨j, hj, -⟩
      exact absurd hj.lt (by have := hj.pos; omega)
  room := Nat.zero_le _
  got_passed j n _ _ h := absurd h (hgot j n)

theorem initResponder (sharedSecret : Key) (x : ℕ → Bytes 32) {got : ℕ → ℕ → Prop} (hgot : ∀ j n, ¬got j n) :
    EndAt sharedSecret x (fun _ => 0) 0 got (.initResponder sharedSecret (x 0)) where
  dhSelf := rfl
  dhSelfPublic := rfl
  rootKey := rfl
  dhRemote := rfl
  sendingChain := rfl
  receivingChain := rfl
  sendCount := rfl
  previous := rfl
  received := fun h => absurd h (by decide)
  kept d n k := by
    constructor
    · intro h
      cases h
    · rintro ⟨j, hj, -⟩
      exact absurd hj.lt (Nat.not_lt_zero _)
  room := Nat.zero_le _
  got_passed j n _ _ h := absurd h (hgot j n)

/-- A change of later secrets, of what the peer has sent on its newest chain, and of what is not heard of. -/
theorem congr (h : EndAt sharedSecret x count m got r) (hx : ∀ i ≤ m, x' i = x i)
    (hcount : ∀ j ≤ m, (j + 1 ≠ m ∨ m < 2) → count' j = count j) (hmore : 2 ≤ m → count (m - 1) ≤ count' (m - 1))
    (hgot : ∀ j n, 1 ≤ j → (m + j) % 2 = 1 → (got' j n ↔ got j n)) : EndAt sharedSecret x' count' m got' r where
  dhSelf := h.dhSelf.trans (hx m (le_refl _)).symm
  dhSelfPublic := by rw [h.dhSelfPublic, hx m (le_refl _)]
  rootKey := by rw [h.rootKey, rootAt_congr hx]
  dhRemote := by rw [h.dhRemote, hx (m - 1) (Nat.sub_le _ _)]
  sendingChain := by rw [h.sendingChain, hcount m (le_refl _) (by omega), chainAt_congr hx]
  receivingChain := by rw [h.receivingChain, chainAt_congr fun i hi => hx i (by omega)]
  sendCount := by rw [h.sendCount, hcount m (le_refl _) (by omega)]
  previous := by rw [h.previous, hcount (m - 2) (Nat.sub_le _ _) (by omega)]
  received h2 := (h.received h2).trans (hmore h2)
  kept d n k := by
    rw [h.kept]
    refine exists_congr fun j => and_congr_right fun hj => ?_
    have hpassed : passed m r.recvCount count' j = passed m r.recvCount count j := by
      unfold passed
      split_ifs with hjm
      · rfl
      · exact hcount j hj.lt.le (.inl hjm)
    rw [hx j hj.lt.le, hpassed, hgot j n hj.pos hj.parity, messageKeyAt_congr fun i hi => hx i (hi.trans hj.lt.le)]
  room := h.room
  got_passed j n h1 hp hg := by
    obtain ⟨hlt, hn⟩ := h.got_passed j n h1 hp ((hgot j n h1 hp).mp hg)
    refine ⟨hlt, hn.trans_eq ?_⟩
    unfold passed
    split_ifs with hjm
    · rfl
    · exact (hcount j hlt.le (.inl hjm)).symm

/-- What is not passed is not kept. -/
theorem lookup_eq_none (h : EndAt sharedSecret x count m got r) (hx : Distinct x t) (hm : m ≤ t) (hj : j ≤ t)
    (hn : Heard m j → passed m r.recvCount count j ≤ n ∨ got j n) : r.skipped.lookup (publicKey (x j), n) = none := by
  rcases hl : r.skipped.lookup (publicKey (x j), n) with _ | k
  · rfl
  · obtain ⟨j', hj', hd, hlt, hgot, -⟩ := (h.kept _ _ _).mp hl
    obtain rfl := hx j hj j' (hj'.lt.le.trans hm) hd
    rcases hn hj' with hle | hg
    · omega
    · exact absurd hg hgot

theorem dhRemote_of_pos (h : EndAt sharedSecret x count m got r) (hm : 1 ≤ m) : r.dhRemote = some (publicKey (x (m - 1))) := by
  rw [h.dhRemote, if_neg (by omega)]

theorem receivingChain_of_two (h : EndAt sharedSecret x count m got r) (hm : 2 ≤ m) :
    r.receivingChain = some (chainAt sharedSecret x (m - 1) r.recvCount) := by
  rw [h.receivingChain, if_neg (by omega)]

theorem receivingChain_of_lt (h : EndAt sharedSecret x count m got r) (hm : m < 2) : r.receivingChain = none := by
  rw [h.receivingChain, if_pos hm]

/-- Nothing is kept of what the newest chain has ahead. -/
theorem lookup_ahead (h : EndAt sharedSecret x count m got r) (hx : Distinct x t) (hm : m ≤ t) (i : ℕ) (hi : r.recvCount ≤ i) :
    r.skipped.lookup (publicKey (x (m - 1)), i) = none := by
  refine h.lookup_eq_none hx hm (by omega) fun hj => .inl ?_
  unfold passed
  rw [if_pos (by have := hj.lt; omega)]
  exact hi

/-! ### Receiving -/

/-- A key that was kept. -/
theorem take (h : EndAt sharedSecret x count m got r) (hx : Distinct x t) (hm : m ≤ t) (hj : Heard m j)
    (hn : n < passed m r.recvCount count j) :
    EndAt sharedSecret x count m (alsoGot got j n) { r with skipped := r.skipped.erase (publicKey (x j), n) } where
  dhSelf := h.dhSelf
  dhSelfPublic := h.dhSelfPublic
  rootKey := h.rootKey
  dhRemote := h.dhRemote
  sendingChain := h.sendingChain
  receivingChain := h.receivingChain
  sendCount := h.sendCount
  previous := h.previous
  received := h.received
  kept d i k := by
    rw [SkippedKeyStore.lookup_erase_apply]
    constructor
    · intro hk
      split_ifs at hk with hd
      obtain ⟨j', hj', rfl, hi, hgot, rfl⟩ := (h.kept _ _ _).mp hk
      refine ⟨j', hj', rfl, hi, ?_, rfl⟩
      rintro (hg | ⟨rfl, rfl⟩)
      · exact hgot hg
      · exact hd ⟨rfl, rfl⟩
    · rintro ⟨j', hj', rfl, hi, hgot, rfl⟩
      rw [if_neg ?_]
      · exact (h.kept _ _ _).mpr ⟨j', hj', rfl, hi, fun hg => hgot (.inl hg), rfl⟩
      · rintro ⟨hd, rfl⟩
        exact hgot (.inr ⟨hx j' (hj'.lt.le.trans hm) j (hj.lt.le.trans hm) hd, rfl⟩)
  room := SkippedKeyStore.len_erase_le.trans h.room
  got_passed j' n' h1 hp := by
    rintro (hg | ⟨rfl, rfl⟩)
    · exact h.got_passed j' n' h1 hp hg
    · exact ⟨hj.lt, hn⟩

/-- What the store holds when it was filled up to message `n` of the newest chain. -/
theorem kept_of_filled (h : EndAt sharedSecret x count m got r) (hx : Distinct x t) (hm : m ≤ t) (hm2 : 2 ≤ m)
    {s : SkippedKeyStore Key} (hn : r.recvCount ≤ n)
    (hs : ∀ d i, s.lookup (d, i) = r.skipped.filled (publicKey (x (m - 1))) (chainAt sharedSecret x (m - 1) r.recvCount)
      r.recvCount (n - r.recvCount) d i) (d : Bytes 32) (i : ℕ) (k : MessageKey Key) : s.lookup (d, i) = some k ↔
    ∃ j, Heard m j ∧ d = publicKey (x j) ∧ i < passed m n count j ∧ ¬got j i ∧ k = messageKeyAt sharedSecret x j i := by
  have hlast : Heard m (m - 1) := ⟨by omega, by omega, by omega⟩
  have hmore : ∀ j i, i < passed m r.recvCount count j → i < passed m n count j := by
    intro j i hi
    unfold passed at hi ⊢
    split_ifs at hi ⊢ <;> omega
  rw [hs]
  unfold SkippedKeyStore.filled
  constructor
  · intro hk
    split_ifs at hk with hi
    · obtain ⟨rfl, hle, hlt⟩ := hi
      refine ⟨m - 1, hlast, rfl, ?_, fun hg => ?_, ?_⟩
      · unfold passed
        rw [if_pos (by omega)]
        omega
      · have := (h.got_passed _ _ hlast.pos hlast.parity hg).2
        unfold passed at this
        rw [if_pos (by omega)] at this
        omega
      · rw [← Option.some.inj hk, chainAt_advance, show r.recvCount + (i - r.recvCount) = i by omega]
        rfl
    · obtain ⟨j, hj, hd, hi, hgot, hk⟩ := (h.kept _ _ _).mp hk
      exact ⟨j, hj, hd, hmore j i hi, hgot, hk⟩
  · rintro ⟨j, hj, rfl, hi, hgot, rfl⟩
    split_ifs with hd
    · obtain ⟨hd, hle, hlt⟩ := hd
      obtain rfl := hx j (hj.lt.le.trans hm) (m - 1) (by omega) hd
      rw [chainAt_advance, show r.recvCount + (i - r.recvCount) = i by omega]
      rfl
    · refine (h.kept _ _ _).mpr ⟨j, hj, rfl, ?_, hgot, rfl⟩
      unfold passed at hi ⊢
      split_ifs at hi ⊢ with hjm
      · by_contra hge
        exact hd ⟨by rw [show m - 1 = j by omega], by omega, by omega⟩
      · exact hi

/-- The next message of the newest chain that is received, after some that are skipped. -/
theorem next (h : EndAt sharedSecret x count m got r) (hx : Distinct x t) (hm : m ≤ t) (hm2 : 2 ≤ m) (hn : r.recvCount ≤ n)
    (hlt : n < count (m - 1)) (hroom : r.skipped.len + (n - r.recvCount) ≤ maxSkippedKeys) :
    ∃ s, r.skipMessageKeys n = .ok { r with
        receivingChain := some (chainAt sharedSecret x (m - 1) n), recvCount := n, skipped := s } ∧
      EndAt sharedSecret x count m (alsoGot got (m - 1) n) { r with
        receivingChain := some (chainAt sharedSecret x (m - 1) (n + 1)), recvCount := n + 1, skipped := s } := by
  have hlast : Heard m (m - 1) := ⟨by omega, by omega, by omega⟩
  obtain ⟨s, hskip, hlen, hlookup⟩ := DoubleRatchet.skipMessageKeys_of_room (h.dhRemote_of_pos (by omega))
    (h.receivingChain_of_two hm2) (h.lookup_ahead hx hm) hroom
  refine ⟨s, ?_, ?_⟩
  · rw [hskip, chainAt_advance, show r.recvCount + (n - r.recvCount) = n by omega, max_eq_right hn]
  · have hkept := h.kept_of_filled hx hm hm2 hn hlookup
    refine { h with receivingChain := ?_, received := fun _ => hlt, kept := fun d i k => ?_, room := ?_, got_passed := ?_ }
    · rw [if_neg (by omega)]
    · rw [hkept]
      refine exists_congr fun j => and_congr_right fun hj => and_congr_right fun _ => ?_
      unfold passed alsoGot
      by_cases hjm : j + 1 = m
      · rw [if_pos hjm, if_pos hjm]
        dsimp only
        constructor
        · rintro ⟨hi, hg, hk⟩
          exact ⟨by omega, fun hor => hor.elim hg fun he => by omega, hk⟩
        · rintro ⟨hi, hg, hk⟩
          have hne : i ≠ n := fun hi => hg (.inr ⟨by omega, hi⟩)
          exact ⟨by omega, fun hgot => hg (.inl hgot), hk⟩
      · rw [if_neg hjm, if_neg hjm]
        refine and_congr_right fun _ => and_congr_left fun _ => not_congr ⟨.inl, fun hor => hor.elim id fun he => ?_⟩
        omega
    · show s.len ≤ maxSkippedKeys
      omega
    · rintro j' n' h1 hp (hg | ⟨rfl, rfl⟩)
      · obtain ⟨hlt', hn'⟩ := h.got_passed j' n' h1 hp hg
        refine ⟨hlt', ?_⟩
        unfold passed at hn' ⊢
        split_ifs at hn' ⊢
        · exact Nat.lt_succ_of_lt (hn'.trans_le hn)
        · exact hn'
      · refine ⟨hlast.lt, ?_⟩
        unfold passed
        rw [if_pos (by omega)]
        exact Nat.lt_succ_self _

theorem next_full (h : EndAt sharedSecret x count m got r) (hx : Distinct x t) (hm : m ≤ t) (hm2 : 2 ≤ m)
    (hfull : maxSkippedKeys < r.skipped.len + (n - r.recvCount)) : r.skipMessageKeys n = .error .tooManySkippedKeys :=
  DoubleRatchet.skipMessageKeys_of_full (h.dhRemote_of_pos (by omega)) (h.receivingChain_of_two hm2) (h.lookup_ahead hx hm)
    h.room hfull

/-- The keys that are skipped at the end of a chain before the first message of the next one. -/
def left (m recv : ℕ) (count : ℕ → ℕ) : ℕ := if m < 2 then 0 else count (m - 1) - recv

/-- The peer's next ratchet key, which comes when its newest chain has ended. -/
theorem turn (ic : IdealCrypto sharedSecret) (h : EndAt sharedSecret x count m got r) (hx : Distinct x t) (hm : m + 1 ≤ t)
    (hunused : count (m + 2) = 0) (hroom : r.skipped.len + left m r.recvCount count ≤ maxSkippedKeys) (fresh : Bytes 32) :
    ∃ old, r.skipMessageKeys (count (m - 1)) = .ok old ∧ old.skipped.len = r.skipped.len + left m r.recvCount count ∧
      EndAt sharedSecret (Function.update x (m + 2) fresh) count (m + 2) got (old.dhRatchetStep fresh (publicKey (x (m + 1)))) := by
  -- Before the turn all of the old chain has been passed.
  have hold : ∃ old, r.skipMessageKeys (count (m - 1)) = .ok old ∧ old.skipped.len = r.skipped.len + left m r.recvCount count ∧
      old.dhSelf = r.dhSelf ∧ old.rootKey = r.rootKey ∧ old.sendCount = r.sendCount ∧
      ∀ d i k, old.skipped.lookup (d, i) = some k ↔ ∃ j, Heard m j ∧ d = publicKey (x j) ∧ i < count j ∧ ¬got j i ∧
        k = messageKeyAt sharedSecret x j i := by
    unfold left at hroom ⊢
    by_cases hm2 : m < 2
    · refine ⟨r, DoubleRatchet.skipMessageKeys_of_none (h.receivingChain_of_lt hm2), by rw [if_pos hm2]; rfl, rfl, rfl, rfl, ?_⟩
      intro d i k
      rw [h.kept]
      refine exists_congr fun j => and_congr_right fun hj => ?_
      have := hj.pos
      have := hj.lt
      omega
    · rw [if_neg hm2] at hroom ⊢
      obtain ⟨s, hskip, hlen, hlookup⟩ := DoubleRatchet.skipMessageKeys_of_room (h.dhRemote_of_pos (by omega))
        (h.receivingChain_of_two (by omega)) (h.lookup_ahead hx (by omega)) hroom
      refine ⟨_, hskip, hlen, rfl, rfl, rfl, fun d i k => ?_⟩
      show s.lookup (d, i) = some k ↔ _
      rw [h.kept_of_filled hx (by omega) (by omega) (h.received (by omega)) hlookup]
      refine exists_congr fun j => and_congr_right fun hj => and_congr_right fun _ => ?_
      unfold passed
      by_cases hjm : j + 1 = m
      · rw [if_pos hjm, show j = m - 1 by omega]
      · rw [if_neg hjm]
  obtain ⟨old, hskip, hlen, hself, hroot, hsend, hkept⟩ := hold
  refine ⟨old, hskip, hlen, ?_⟩
  have hx' : ∀ i ≤ m + 1, Function.update x (m + 2) fresh i = x i := fun i hi => Function.update_of_ne (by omega) _ _
  have hnew : Function.update x (m + 2) fresh (m + 2) = fresh := Function.update_self _ _ _
  have hdh : diffieHellman old.dhSelf (publicKey (x (m + 1))) = diffieHellman (x (m + 1)) (publicKey (x m)) := by
    rw [hself, h.dhSelf, ic.dh_comm]
  have hrecv : rootKdf old.rootKey (diffieHellman old.dhSelf (publicKey (x (m + 1)))) =
      rootKdf (rootAt sharedSecret x m) (diffieHellman (x (m + 1)) (publicKey (x m))) := by rw [hdh, hroot, h.rootKey]
  have hroot' : rootAt sharedSecret (Function.update x (m + 2) fresh) (m + 1) =
      (rootKdf old.rootKey (diffieHellman old.dhSelf (publicKey (x (m + 1))))).1 := by
    rw [rootAt_congr hx', hrecv]
    rfl
  have hsending : rootKdf (rootAt sharedSecret (Function.update x (m + 2) fresh) (m + 1))
      (diffieHellman (Function.update x (m + 2) fresh (m + 2)) (publicKey (Function.update x (m + 2) fresh (m + 1)))) =
      rootKdf (rootKdf old.rootKey (diffieHellman old.dhSelf (publicKey (x (m + 1))))).1
        (diffieHellman fresh (publicKey (x (m + 1)))) := by rw [hroot', hnew, hx' (m + 1) (le_refl _)]
  constructor
  · exact hnew.symm
  · rw [hnew]
    rfl
  · exact (congrArg Prod.fst hsending).symm
  · rw [if_neg (by omega), show m + 2 - 1 = m + 1 by omega, hx' (m + 1) (le_refl _)]
    rfl
  · rw [if_neg (by omega), hunused]
    exact congrArg some (congrArg Prod.snd hsending).symm
  · rw [if_neg (by omega), show m + 2 - 1 = m + 1 by omega, chainAt_congr hx']
    exact congrArg some (congrArg Prod.snd hrecv)
  · exact hunused.symm
  · show old.sendCount = count m
    rw [hsend, h.sendCount]
  · exact fun _ => Nat.zero_le _
  · intro d i k
    show old.skipped.lookup (d, i) = some k ↔ _
    rw [hkept]
    refine exists_congr fun j => ?_
    constructor
    · rintro ⟨hj, rfl, hi, hg, rfl⟩
      have hlt := hj.lt
      refine ⟨⟨hj.pos, by omega, by have := hj.parity; omega⟩, by rw [hx' j (by omega)], ?_, hg, ?_⟩
      · unfold passed
        rwa [if_neg (by omega)]
      · exact (messageKeyAt_congr fun i hi => hx' i (by omega)).symm
    · rintro ⟨hj, rfl, hi, hg, rfl⟩
      have hlt := hj.lt
      have hparity := hj.parity
      unfold passed at hi
      rcases (by omega : j = m + 1 ∨ j < m) with rfl | hjm
      · rw [if_pos rfl] at hi
        exact absurd hi (Nat.not_lt_zero _)
      · rw [if_neg (by omega)] at hi
        exact ⟨⟨hj.pos, hjm, by omega⟩, by rw [hx' j (by omega)], hi, hg, messageKeyAt_congr fun i hi => hx' i (by omega)⟩
  · show old.skipped.len ≤ maxSkippedKeys
    omega
  · intro j n h1 hp hg
    obtain ⟨hlt, hn⟩ := h.got_passed j n h1 (by omega) hg
    refine ⟨by omega, ?_⟩
    unfold passed at hn ⊢
    rw [if_neg (by omega)]
    split_ifs at hn with hjm
    · exact hn.trans_le ((h.received (by omega)).trans_eq (by rw [show m - 1 = j by omega]))
    · exact hn

/-! ### A message of the peer -/

theorem receive_kept (h : EndAt sharedSecret x count m got r) (hj : Heard m j) (hn : n < passed m r.recvCount count j)
    (hgot : ¬got j n) (fresh : Bytes 32) :
    r.mustSkip (headerAt x count j n) = 0 ∧ r.receivingKey fresh (headerAt x count j n) =
      .ok (messageKeyAt sharedSecret x j n, { r with skipped := r.skipped.erase (publicKey (x j), n) }) := by
  have hl : r.skipped.lookup ((headerAt x count j n).dhPublic, (headerAt x count j n).messageNumber) =
      some (messageKeyAt sharedSecret x j n) := (h.kept _ _ _).mpr ⟨j, hj, rfl, hn, hgot, rfl⟩
  refine ⟨?_, DoubleRatchet.receivingKey_stored hl⟩
  unfold DoubleRatchet.mustSkip
  rw [hl]
  rfl

end EndAt

theorem chainAt_succ : chainAt sharedSecret x j (n + 1) = (chainAt sharedSecret x j n).ratchet.2 := ChainKey.advance_succ _ _

/-- A message that is received needs this many keys to be skipped, and there is room for them or not. -/
structure Receives (sharedSecret : Key) (r : DoubleRatchet Key) (fresh : Bytes 32) (header : MessageHeader) (k : MessageKey Key)
    (after : DoubleRatchet Key → Prop) : Prop where
  of_room : r.skipped.len + r.mustSkip header ≤ maxSkippedKeys → ∃ w, r.receivingKey fresh header = .ok (k, w) ∧ after w
  of_full : maxSkippedKeys < r.skipped.len + r.mustSkip header → r.receivingKey fresh header = .error .tooManySkippedKeys

namespace EndAt

theorem receive_next (h : EndAt sharedSecret x count m got r) (hx : Distinct x t) (hm : m ≤ t) (hm2 : 2 ≤ m) (hn : r.recvCount ≤ n)
    (hlt : n < count (m - 1)) (hwidth : count (m - 1) < 2 ^ 32) (fresh : Bytes 32) :
    Receives sharedSecret r fresh (headerAt x count (m - 1) n) (messageKeyAt sharedSecret x (m - 1) n)
      (EndAt sharedSecret x count m (alsoGot got (m - 1) n)) := by
  have hl : r.skipped.lookup ((headerAt x count (m - 1) n).dhPublic, (headerAt x count (m - 1) n).messageNumber) = none :=
    h.lookup_ahead hx hm n hn
  have hremote : r.dhRemote = some (headerAt x count (m - 1) n).dhPublic := h.dhRemote_of_pos (by omega)
  have hmust : r.mustSkip (headerAt x count (m - 1) n) = n - r.recvCount := by
    unfold DoubleRatchet.mustSkip
    rw [hl, if_neg (by simp)]
    exact if_pos hremote
  constructor
  · intro hroom
    rw [hmust] at hroom
    obtain ⟨s, hskip, hend⟩ := h.next hx hm hm2 hn hlt hroom
    refine ⟨_, DoubleRatchet.receivingKey_next hl (.inl ⟨hremote, rfl⟩) hskip rfl, ?_⟩
    have hsucc : u32Succ n = n + 1 := Nat.mod_eq_of_lt (by omega)
    dsimp only
    rw [hsucc, ← chainAt_succ]
    exact hend
  · intro hfull
    rw [hmust] at hfull
    unfold DoubleRatchet.receivingKey
    rw [hl]
    dsimp only
    rw [if_neg (not_not.2 hremote)]
    show r.skipMessageKeys n >>= _ = _
    rw [h.next_full hx hm hm2 hfull]
    rfl

theorem receive_turn (ic : IdealCrypto sharedSecret) (h : EndAt sharedSecret x count m got r) (hx : Distinct x t) (hm : m + 1 ≤ t)
    {fresh : Bytes 32} (hx' : Distinct (Function.update x (m + 2) fresh) (m + 2)) (hunused : count (m + 2) = 0)
    (hlt : n < count (m + 1)) (hwidth : count (m + 1) < 2 ^ 32) :
    Receives sharedSecret r fresh (headerAt x count (m + 1) n) (messageKeyAt sharedSecret x (m + 1) n)
      (EndAt sharedSecret (Function.update x (m + 2) fresh) count (m + 2) (alsoGot got (m + 1) n)) := by
  have hl : r.skipped.lookup ((headerAt x count (m + 1) n).dhPublic, (headerAt x count (m + 1) n).messageNumber) = none :=
    h.lookup_eq_none hx (by omega) hm fun hj => absurd hj.lt (by omega)
  have hremote : r.dhRemote ≠ some (headerAt x count (m + 1) n).dhPublic := by
    rw [h.dhRemote]
    split_ifs
    · simp
    · intro he
      have := hx (m - 1) (by omega) (m + 1) hm (Option.some.inj he)
      omega
  have hprevious : (headerAt x count (m + 1) n).previousChainLength = count (m - 1) := rfl
  have hmust : r.mustSkip (headerAt x count (m + 1) n) = left m r.recvCount count + n := by
    unfold DoubleRatchet.mustSkip
    rw [hl, if_neg (by simp), if_neg hremote]
    unfold left
    by_cases hm2 : m < 2
    · rw [h.receivingChain_of_lt hm2, if_pos hm2]
      rfl
    · rw [h.receivingChain_of_two (by omega), if_neg hm2]
      rfl
  have hkey : messageKeyAt sharedSecret (Function.update x (m + 2) fresh) (m + 1) n = messageKeyAt sharedSecret x (m + 1) n :=
    messageKeyAt_congr fun i hi => Function.update_of_ne (by omega) _ _
  constructor
  · intro hroom
    rw [hmust] at hroom
    obtain ⟨old, hold, hlen, hend⟩ := h.turn ic hx hm hunused (by omega) fresh
    obtain ⟨s, hskip, hend'⟩ := hend.next hx' (le_refl _) (by omega) (Nat.zero_le n) hlt (by
      show old.skipped.len + (n - 0) ≤ _
      omega)
    have hkey' := DoubleRatchet.receivingKey_next hl (.inr ⟨hremote, old, hold, rfl⟩) hskip rfl
    rw [← hkey]
    refine ⟨_, hkey', ?_⟩
    have hsucc : u32Succ n = n + 1 := Nat.mod_eq_of_lt (by omega)
    dsimp only
    rw [hsucc, ← chainAt_succ]
    exact hend'
  · intro hfull
    rw [hmust] at hfull
    unfold DoubleRatchet.receivingKey
    rw [hl]
    dsimp only
    rw [if_pos hremote, hprevious]
    by_cases hroom : r.skipped.len + left m r.recvCount count ≤ maxSkippedKeys
    · obtain ⟨old, hold, hlen, hend⟩ := h.turn ic hx hm hunused hroom fresh
      rw [hold]
      show (old.dhRatchetStep fresh (publicKey (x (m + 1)))).skipMessageKeys n >>= _ = _
      rw [hend.next_full hx' (le_refl _) (by omega) (by
        show _ < old.skipped.len + (n - 0)
        omega)]
      rfl
    · unfold left at hroom
      split_ifs at hroom with hm2
      · exact absurd h.room hroom
      · rw [DoubleRatchet.skipMessageKeys_of_full (h.dhRemote_of_pos (by omega)) (h.receivingChain_of_two (by omega))
          (h.lookup_ahead hx (by omega)) h.room (by omega)]
        rfl

/-- A message of the peer that is new: it needs room for the keys that are skipped, and nothing else. -/
theorem receive (ic : IdealCrypto sharedSecret) (h : EndAt sharedSecret x count m got r) (hx : Distinct x t) (hm : m ≤ t) (hjt : j ≤ t)
    (hfresh : j = m + 1 → Distinct (Function.update x (m + 2) fresh) (m + 2) ∧ count (m + 2) = 0) (h1 : 1 ≤ j)
    (hparity : (m + j) % 2 = 1) (hjm : j ≤ m + 1) (hn : n < count j) (hwidth : count j < 2 ^ 32) (hgot : ¬got j n) :
    Receives sharedSecret r fresh (headerAt x count j n) (messageKeyAt sharedSecret x j n) fun w =>
      (j < m ∧ EndAt sharedSecret x count m (alsoGot got j n) w) ∨
        (j = m + 1 ∧ EndAt sharedSecret (Function.update x (m + 2) fresh) count (m + 2) (alsoGot got j n) w) := by
  rcases (by omega : j < m ∨ j = m + 1) with hlt | rfl
  · by_cases hkept : n < passed m r.recvCount count j
    · have hj : Heard m j := ⟨h1, hlt, hparity⟩
      obtain ⟨hmust, hkey⟩ := h.receive_kept hj hkept hgot fresh
      refine ⟨fun _ => ⟨_, hkey, .inl ⟨hlt, h.take hx hm hj hkept⟩⟩, fun hfull => ?_⟩
      rw [hmust] at hfull
      exact absurd h.room (by omega)
    · unfold passed at hkept
      split_ifs at hkept with hlast
      · obtain rfl : j = m - 1 := by omega
        have hnext := h.receive_next hx hm (by omega) (by omega) hn hwidth fresh
        refine ⟨fun hroom => ?_, hnext.of_full⟩
        obtain ⟨w, hkey, hend⟩ := hnext.of_room hroom
        exact ⟨w, hkey, .inl ⟨hlt, hend⟩⟩
      · exact absurd hn hkept
  · have hturn := h.receive_turn ic hx hjt (hfresh rfl).1 (hfresh rfl).2 hn hwidth
    refine ⟨fun hroom => ?_, hturn.of_full⟩
    obtain ⟨w, hkey, hend⟩ := hturn.of_room hroom
    exact ⟨w, hkey, .inr ⟨rfl, hend⟩⟩

/-- A key of the schedule that an end computes for the header that names its place is that of a new message of the peer. -/
theorem receivingKey_new (ic : IdealCrypto sharedSecret) (h : EndAt sharedSecret x count m got r) (hx : Distinct x t) (hm : m ≤ t)
    (h1 : 1 ≤ j) (hj : j ≤ t) (hd : header.dhPublic = publicKey (x j)) (hn : header.messageNumber = n)
    (hk : r.receivingKey fresh header = .ok (messageKeyAt sharedSecret x j n, w)) : (m + j) % 2 = 1 ∧ j ≤ m + 1 ∧ ¬got j n := by
  obtain ⟨hl, -⟩ | ⟨-, stepped, skipped, c, hturn, hskip, hc, hkey, -⟩ := DoubleRatchet.receivingKey_cases hk
  · rw [hd, hn] at hl
    obtain ⟨j', hj', hd', -, hgot, -⟩ := (h.kept _ _ _).mp hl
    obtain rfl := hx j hj j' (hj'.lt.le.trans hm) hd'
    exact ⟨hj'.parity, hj'.lt.le.trans (Nat.le_succ m), hgot⟩
  · rw [hn] at hskip
    obtain ⟨hremote, hsame⟩ | ⟨hremote, old, hold, rfl⟩ := hturn
    · rw [hsame] at hskip
      -- The message is one of the newest chain.
      have hpos : m ≠ 0 := by
        intro h0
        rw [h.dhRemote, if_pos h0] at hremote
        cases hremote
      rw [h.dhRemote_of_pos (by omega), hd] at hremote
      obtain rfl := hx (m - 1) (by omega) j hj (Option.some.inj hremote)
      have hchain := h.receivingChain_of_two (by omega)
      obtain ⟨hc', -⟩ := DoubleRatchet.skipMessageKeys_place (h.dhRemote_of_pos (by omega)) hchain hskip
      obtain rfl := Option.some.inj (hc.symm.trans hc')
      rw [chainAt_advance] at hkey
      have hplace := (ic.messageKey_inj (m := r.recvCount + (n - r.recvCount)) hkey.symm).1
      refine ⟨by omega, by omega, fun hg => ?_⟩
      have hpassed := (h.got_passed _ _ h1 (by omega) hg).2
      unfold passed at hpassed
      rw [if_pos (by omega)] at hpassed
      omega
    · -- The message is the first of a new chain, since the key goes on from the newest root.
      obtain ⟨hc', -⟩ := DoubleRatchet.skipMessageKeys_place (show _ = some header.dhPublic from rfl) rfl hskip
      obtain rfl := Option.some.inj (hc.symm.trans hc')
      have hroot : old.rootKey = rootAt sharedSecret x m := (DoubleRatchet.skipMessageKeys_rootKey hold).trans h.rootKey
      obtain ⟨-, hplace⟩ := ic.messageKey_inj hkey.symm
      rw [hroot] at hplace
      have hjm := ic.rootAt_injective hplace
      refine ⟨by omega, by omega, fun hg => ?_⟩
      have := (h.got_passed j n h1 (by omega) hg).1
      omega

/-! ### Sending -/

theorem encrypt_none (h : EndAt sharedSecret x count 0 got r) (nonce : Bytes 12) (plaintext aad : List UInt8) :
    r.encrypt nonce plaintext aad = (r, .error .messageKeyUnavailable) := by
  have hchain : r.sendingChain = none := h.sendingChain
  unfold DoubleRatchet.encrypt
  rw [hchain]

theorem encrypt (h : EndAt sharedSecret x count m got r) (hm : 1 ≤ m) (hwidth : count m + 1 < 2 ^ 32) (nonce : Bytes 12)
    (plaintext aad : List UInt8) :
    EndAt sharedSecret x (Function.update count m (count m + 1)) m got (r.encrypt nonce plaintext aad).1 ∧
      ∀ header ciphertext, (r.encrypt nonce plaintext aad).2 = .ok (header, ciphertext) →
        header = headerAt x count m (count m) ∧
          Aead.encrypt nonce (messageKeyAt sharedSecret x m (count m)) plaintext (fullAssociatedData aad header) = .ok ciphertext := by
  have hchain : r.sendingChain = some (chainAt sharedSecret x m (count m)) := by
    rw [h.sendingChain, if_neg (by omega)]
  have hsame : ∀ j, j ≠ m → Function.update count m (count m + 1) j = count j := fun j hj => Function.update_of_ne hj _ _
  have hnext : Function.update count m (count m + 1) m = count m + 1 := Function.update_self _ _ _
  have hend : EndAt sharedSecret x (Function.update count m (count m + 1)) m got
      { r with sendingChain := some (chainAt sharedSecret x m (count m)).ratchet.2, sendCount := u32Succ r.sendCount } := by
    refine { h with sendingChain := ?_, sendCount := ?_, previous := ?_, received := ?_, kept := fun d n k => ?_, got_passed := ?_ }
    · rw [if_neg (by omega), hnext, chainAt_succ]
    · show u32Succ r.sendCount = _
      rw [hnext, h.sendCount]
      exact Nat.mod_eq_of_lt hwidth
    · rw [hsame _ (by omega)]
      exact h.previous
    · intro hm2
      rw [hsame _ (by omega)]
      exact h.received hm2
    · rw [show ({ r with sendingChain := some (chainAt sharedSecret x m (count m)).ratchet.2, sendCount := u32Succ r.sendCount } :
        DoubleRatchet Key).skipped = r.skipped from rfl, h.kept]
      refine exists_congr fun j => and_congr_right fun hj => ?_
      unfold passed
      rw [hsame j hj.lt.ne]
    · intro j n h1 hp hg
      obtain ⟨hlt, hn⟩ := h.got_passed j n h1 hp hg
      unfold passed at hn ⊢
      rw [hsame j hlt.ne]
      exact ⟨hlt, hn⟩
  have hheader : (⟨r.dhSelfPublic, r.previousSendingChainLength, r.sendCount⟩ : MessageHeader) = headerAt x count m (count m) := by
    rw [h.dhSelfPublic, h.previous, h.sendCount]
    rfl
  unfold DoubleRatchet.encrypt
  rw [hchain]
  dsimp only
  rw [hheader]
  split
  · exact ⟨hend, fun _ _ he => by cases he⟩
  · rename_i ciphertext hc
    refine ⟨hend, fun header ciphertext' he => ?_⟩
    obtain ⟨rfl, rfl⟩ := Prod.mk.inj (Except.ok.inj he)
    exact ⟨rfl, hc⟩

end EndAt
end
end SpiritChat
