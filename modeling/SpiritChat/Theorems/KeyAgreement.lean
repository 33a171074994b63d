import SpiritChat.Lib.Run
import SpiritChat.Theorems.Cards

/-! # Key agreement on one prekey store

Bundles are issued, peers initiate on them and the owner responds, in any order and to the same message as often
as it comes. A one-time prekey is available, then pending in one bundle, then consumed by one response. -/

namespace SpiritChat
open Lib X25519

section
variable [X25519] {s s' : PrekeyStore} {secret key : Bytes 32}

/-- A bundle names the last available one-time prekey, if there is one. -/
theorem PrekeyStore.publicBundle_cases (s : PrekeyStore) (identity : IdentityPublicKey) (agreement : SignedAgreementKeyPublic) :
    (s.publicBundle identity agreement =
      (s, ⟨identity, agreement, ⟨publicKey s.signedPrekeySecret, s.signedPrekeySignature⟩, none⟩)) ∨
    ∃ init secret, s.availableOneTimeSecrets = init ++ [secret] ∧ s.publicBundle identity agreement =
      ({ s with availableOneTimeSecrets := init, pendingOneTimeSecrets := s.pendingOneTimeSecrets ++ [secret] },
        ⟨identity, agreement, ⟨publicKey s.signedPrekeySecret, s.signedPrekeySignature⟩, some (publicKey secret)⟩) := by
  unfold publicBundle
  rcases hl : s.availableOneTimeSecrets.getLast? with _ | secret
  · exact .inl rfl
  · obtain ⟨init, hinit⟩ := List.getLast?_eq_some_iff.mp hl
    refine .inr ⟨init, secret, hinit, ?_⟩
    rw [hinit, List.dropLast_concat]

/-- Taking a secret leaves the rest of the store. -/
theorem PrekeyStore.takeOneTimeSecret_rest (h : s.takeOneTimeSecret key = some (secret, s')) :
    s'.availableOneTimeSecrets = s.availableOneTimeSecrets ∧ s'.signedPrekeySignature = s.signedPrekeySignature := by
  unfold takeOneTimeSecret at h
  split at h
  · cases h
  · obtain ⟨_, -, h⟩ := Option.map_eq_some_iff.mp h
    obtain ⟨-, rfl⟩ := Prod.mk.inj h
    exact ⟨rfl, rfl⟩

end

/-- A store with the bundles that it issued, the handshakes that peers initiated and what was answered. -/
structure Exchange (Key : Type) where
  store : PrekeyStore
  issued : List PrekeyBundle
  sent : List (HandshakeResult Key)
  answered : List (InitialMessage × Except CryptoError Key)

/-- What happens next to a store: it issues a bundle, a peer initiates with one, or a message is answered. -/
inductive ExchangeStep where
  | issue
  | initiate (ephemeralSecret : Bytes 32) (identity : IdentityKeyPair) (agreement : AgreementKeyPair) (bundle : PrekeyBundle)
  | respond (message : InitialMessage)

/-- The one-time prekey that an answer consumed. -/
def consumedBy {Key : Type} : InitialMessage × Except CryptoError Key → Option (Bytes 32)
  | (message, .ok _) => message.usedOneTimePrekey
  | (_, .error _) => none

namespace Exchange
variable {Key : Type}

def start (store : PrekeyStore) : Exchange Key := ⟨store, [], [], []⟩

/-- The one-time prekeys that were consumed, one for each response that took one. -/
def consumed (x : Exchange Key) : List (Bytes 32) := x.answered.filterMap consumedBy

/-- Peers initiate on bundles that were issued, and what arrives are their messages. -/
def permitted (x : Exchange Key) : ExchangeStep → Prop
  | .issue => True
  | .initiate _ _ _ bundle => bundle ∈ x.issued
  | .respond message => ∃ r ∈ x.sent, r.initialMessage = message

variable [X25519] [Ed25519] [X3dhKdf Key]

def next (me : IdentityKeyPair) (agreement : AgreementKeyPair) (x : Exchange Key) : ExchangeStep → Exchange Key
  | .issue =>
    let (store, bundle) := x.store.publicBundle me.publicKey (agreement.signWith me)
    { x with store, issued := x.issued ++ [bundle] }
  | .initiate ephemeralSecret identity mine bundle =>
    match x3dhInitiate ephemeralSecret identity mine bundle with
    | .ok result => { x with sent := x.sent ++ [result] }
    | .error _ => x
  | .respond message =>
    let (store, answer) := x3dhRespond agreement x.store message
    { x with store, answered := x.answered ++ [(message, answer)] }

/-- The exchanges on a store that was generated with these one-time secrets. -/
abbrev Reaches (me : IdentityKeyPair) (agreement : AgreementKeyPair) (signedPrekeySecret : Bytes 32)
    (oneTimeSecrets : List (Bytes 32)) : Exchange Key → Prop :=
  Run (next me agreement) permitted (start (.generate me signedPrekeySecret oneTimeSecrets))

/-- The one-time prekeys that are available, and those that are pending. -/
def available (x : Exchange Key) : List (Bytes 32) := x.store.availableOneTimeSecrets.map publicKey

def pending (x : Exchange Key) : List (Bytes 32) := x.store.pendingOneTimeSecrets.map publicKey

/-- What every exchange keeps. -/
structure Sound (me : IdentityKeyPair) (agreement : AgreementKeyPair) (signedPrekeySecret : Bytes 32)
    (oneTimeSecrets : List (Bytes 32)) (x : Exchange Key) : Prop where
  secret : x.store.signedPrekeySecret = signedPrekeySecret
  signature : x.store.signedPrekeySignature = signPrekey me (publicKey signedPrekeySecret)
  bundles : ∀ b ∈ x.issued, b.identity = me.publicKey ∧ b.identityAgreementKey = agreement.signWith me ∧
    b.signedPrekey = ⟨publicKey signedPrekeySecret, signPrekey me (publicKey signedPrekeySecret)⟩
  sent : ∀ r ∈ x.sent, ∃ ephemeralSecret identity mine, ∃ b ∈ x.issued,
    x3dhInitiate ephemeralSecret identity mine b = .ok r
  /-- A one-time prekey in a bundle is pending or consumed. -/
  handed : (x.issued.filterMap (·.oneTimePrekey)).Perm (x.pending ++ x.consumed)
  places : (x.available ++ (x.pending ++ x.consumed)).Perm (oneTimeSecrets.map publicKey)

variable {me : IdentityKeyPair} {agreement : AgreementKeyPair} {signedPrekeySecret : Bytes 32}
  {oneTimeSecrets : List (Bytes 32)} {x : Exchange Key}

theorem Sound.start : (start (.generate me signedPrekeySecret oneTimeSecrets) : Exchange Key).Sound me agreement
    signedPrekeySecret oneTimeSecrets where
  secret := rfl
  signature := rfl
  bundles := fun _ hb => absurd hb List.not_mem_nil
  sent := fun _ hr => absurd hr List.not_mem_nil
  handed := .nil
  places := .of_eq (List.append_nil _)

namespace Sound

theorem issue (h : x.Sound me agreement signedPrekeySecret oneTimeSecrets) :
    (x.next me agreement .issue).Sound me agreement signedPrekeySecret oneTimeSecrets := by
  obtain ⟨hsecret, hsignature, hbundles, hsent, hhanded, hplaces⟩ := h
  have hkept : ∀ {issued : List PrekeyBundle}, (∀ b ∈ x.issued, b ∈ issued) → ∀ r ∈ x.sent, ∃ ephemeralSecret identity mine, ∃ b ∈ issued,
      x3dhInitiate ephemeralSecret identity mine b = .ok r := fun hsub r hr => by
    obtain ⟨e, i, a, b, hb, hi⟩ := hsent r hr
    exact ⟨e, i, a, b, hsub b hb, hi⟩
  have hissued : ∀ key, ∀ b ∈ x.issued ++ [⟨me.publicKey, agreement.signWith me,
      ⟨publicKey x.store.signedPrekeySecret, x.store.signedPrekeySignature⟩, key⟩],
      b.identity = me.publicKey ∧ b.identityAgreementKey = agreement.signWith me ∧
        b.signedPrekey = ⟨publicKey signedPrekeySecret, signPrekey me (publicKey signedPrekeySecret)⟩ := by
    intro key b hb
    rcases List.mem_append.mp hb with hb | hb
    · exact hbundles b hb
    · obtain rfl := List.mem_singleton.mp hb
      rw [hsecret, hsignature]
      exact ⟨rfl, rfl, rfl⟩
  unfold Exchange.next
  dsimp only
  rcases x.store.publicBundle_cases me.publicKey (agreement.signWith me) with he | ⟨init, secret, hinit, he⟩
  · rw [he]
    refine ⟨hsecret, hsignature, hissued none, hkept fun b hb => List.mem_append_left _ hb, ?_, hplaces⟩
    rw [List.filterMap_append]
    exact (List.append_nil _).symm ▸ hhanded
  · rw [he]
    refine ⟨hsecret, hsignature, hissued _, hkept fun b hb => List.mem_append_left _ hb, ?_, ?_⟩
    · rw [List.filterMap_append]
      refine (hhanded.append_right [publicKey secret]).trans ?_
      unfold pending consumed
      rw [List.map_append, List.append_assoc, List.append_assoc]
      exact List.perm_append_comm.append_left _
    · refine List.Perm.trans ?_ hplaces
      unfold available pending consumed
      dsimp only
      rw [hinit, List.map_append, List.map_append, List.append_assoc, List.append_assoc]
      refine List.Perm.append_left _ ?_
      rw [← List.append_assoc, ← List.append_assoc]
      exact List.perm_append_comm.append_right _

theorem initiate (h : x.Sound me agreement signedPrekeySecret oneTimeSecrets) {ephemeralSecret : Bytes 32}
    {identity : IdentityKeyPair} {mine : AgreementKeyPair} {b : PrekeyBundle} (hb : b ∈ x.issued) :
    (x.next me agreement (.initiate ephemeralSecret identity mine b)).Sound me agreement signedPrekeySecret oneTimeSecrets := by
  unfold Exchange.next
  dsimp only
  split
  · rename_i result hi
    refine { h with sent := fun r hr => ?_ }
    rcases List.mem_append.mp hr with hr | hr
    · exact h.sent r hr
    · obtain rfl := List.mem_singleton.mp hr
      exact ⟨ephemeralSecret, identity, mine, b, hb, hi⟩
  · exact h

/-- What a response to an honest message does. -/
theorem answer (h : x.Sound me agreement signedPrekeySecret oneTimeSecrets) (wa : WorkingAgreement)
    {r : HandshakeResult Key} (hr : r ∈ x.sent) :
    (r.initialMessage.usedOneTimePrekey = none ∧
      x3dhRespond agreement x.store r.initialMessage = (x.store, .ok r.sharedSecret)) ∨
    (∃ secret store, r.initialMessage.usedOneTimePrekey = some (publicKey secret) ∧ publicKey secret ∈ x.pending ∧
      x.store.takeOneTimeSecret (publicKey secret) = some (secret, store) ∧
      x3dhRespond agreement x.store r.initialMessage = (store, .ok r.sharedSecret)) ∨
    ∃ key, r.initialMessage.usedOneTimePrekey = some key ∧ key ∉ x.pending ∧
      (x3dhRespond agreement x.store r.initialMessage : _ × Except _ Key) = (x.store, .error .prekeyExhausted) := by
  obtain ⟨e, i, a, b, hb, hi⟩ := h.sent r hr
  obtain ⟨-, hagreement, hsigned⟩ := h.bundles b hb
  have hused : r.initialMessage.usedOneTimePrekey = b.oneTimePrekey := by
    unfold x3dhInitiate at hi
    obtain ⟨⟨⟩, -, hi⟩ := except_bind_eq_ok.1 hi
    obtain rfl := Except.ok.inj hi
    rfl
  have hkeys : b.signedPrekey.publicKey = publicKey x.store.signedPrekeySecret := by rw [hsigned, h.secret]
  obtain ⟨-, hok, hrefuse⟩ := wa.respond_first hi hkeys (by rw [hagreement]; rfl)
  have hpending : ∀ {key}, 0 < x.store.pendingFor key ↔ key ∈ x.pending := fun {key} => by
    unfold PrekeyStore.pendingFor pending
    simp [List.countP_pos_iff]
  rcases ho : b.oneTimePrekey with _ | key
  · obtain ⟨s', hrespond, -, -⟩ := hok fun key hk => absurd (ho.symm.trans hk) (by simp)
    refine .inl ⟨hused.trans ho, ?_⟩
    rcases x3dhRespond_store Key agreement x.store r.initialMessage with hs | ⟨used, _, hu, -⟩
    · rw [hrespond] at hs
      rw [hrespond, show s' = x.store from hs]
    · exact absurd ((hused.trans ho).symm.trans hu) (by simp)
  · by_cases hmem : key ∈ x.pending
    · obtain ⟨s', hrespond, -, hcount⟩ := hok fun key' hk => by
        obtain rfl := Option.some.inj (ho.symm.trans hk)
        exact hpending.mpr hmem
      refine .inr (.inl ?_)
      rcases x3dhRespond_store Key agreement x.store r.initialMessage with hs | ⟨used, secret, hu, ht⟩
      · have hfewer := hcount key ho
        rw [hrespond] at hs
        rw [show s' = x.store from hs] at hfewer
        omega
      · rw [hrespond] at ht
        obtain ⟨rfl, -⟩ := PrekeyStore.takeOneTimeSecret_spec ht
        obtain rfl := Option.some.inj ((hused.trans ho).symm.trans hu)
        exact ⟨secret, s', hused.trans ho, hmem, ht, hrespond⟩
    · have hzero : x.store.pendingFor key = 0 := Nat.eq_zero_of_not_pos fun hpos => hmem (hpending.mp hpos)
      exact .inr (.inr ⟨key, hused.trans ho, hmem, hrefuse key ho hzero⟩)

theorem respond (h : x.Sound me agreement signedPrekeySecret oneTimeSecrets) (wa : WorkingAgreement)
    {r : HandshakeResult Key} (hr : r ∈ x.sent) :
    (x.next me agreement (.respond r.initialMessage)).Sound me agreement signedPrekeySecret oneTimeSecrets := by
  unfold Exchange.next
  dsimp only
  rcases h.answer wa hr with ⟨hu, ha⟩ | ⟨secret, store, hu, -, ht, ha⟩ | ⟨key, -, -, ha⟩
  · have hconsumed : consumed { x with answered := x.answered ++ [(r.initialMessage, .ok r.sharedSecret)] } = x.consumed := by
      simp [consumed, consumedBy, hu]
    rw [ha]
    refine ⟨h.secret, h.signature, h.bundles, h.sent, ?_, ?_⟩
    · rw [hconsumed]
      exact h.handed
    · rw [hconsumed]
      exact h.places
  · have hconsumed : consumed { x with store, answered := x.answered ++ [(r.initialMessage, .ok r.sharedSecret)] } =
        x.consumed ++ [publicKey secret] := by
      simp [consumed, consumedBy, hu]
    obtain ⟨-, -, hsecret, hperm⟩ := PrekeyStore.takeOneTimeSecret_spec ht
    obtain ⟨havailable, hsignature⟩ : store.availableOneTimeSecrets = x.store.availableOneTimeSecrets ∧
        store.signedPrekeySignature = x.store.signedPrekeySignature := PrekeyStore.takeOneTimeSecret_rest ht
    have hmoved : (x.pending ++ x.consumed).Perm (store.pendingOneTimeSecrets.map publicKey ++ (x.consumed ++ [publicKey secret])) := by
      refine ((hperm.map publicKey).append_right x.consumed).trans ?_
      rw [List.map_cons, List.cons_append, ← List.append_assoc]
      exact (List.perm_append_singleton _ _).symm
    rw [ha]
    refine ⟨hsecret.trans h.secret, hsignature.trans h.signature, h.bundles, h.sent, ?_, ?_⟩
    · rw [hconsumed]
      exact h.handed.trans hmoved
    · rw [hconsumed]
      unfold available
      rw [havailable]
      exact (hmoved.symm.append_left _).trans h.places
  · have hconsumed : consumed { x with answered := x.answered ++ [(r.initialMessage, .error .prekeyExhausted)] } =
        x.consumed := by
      simp [consumed, consumedBy]
    rw [ha]
    refine ⟨h.secret, h.signature, h.bundles, h.sent, ?_, ?_⟩
    · rw [hconsumed]
      exact h.handed
    · rw [hconsumed]
      exact h.places

theorem step (h : x.Sound me agreement signedPrekeySecret oneTimeSecrets) (wa : WorkingAgreement) {a : ExchangeStep}
    (ha : x.permitted a) : (x.next me agreement a).Sound me agreement signedPrekeySecret oneTimeSecrets := by
  cases a with
  | issue => exact h.issue
  | initiate => exact h.initiate ha
  | respond =>
    obtain ⟨r, hr, rfl⟩ := ha
    exact h.respond wa hr

/-- Every bundle that was issued can be initiated on. -/
theorem initiates (h : x.Sound me agreement signedPrekeySecret oneTimeSecrets) (wa : WorkingAgreement)
    {b : PrekeyBundle} (hb : b ∈ x.issued) (ephemeralSecret : Bytes 32) (identity : IdentityKeyPair) (mine : AgreementKeyPair) :
    ∃ r : HandshakeResult Key, x3dhInitiate ephemeralSecret identity mine b = .ok r := by
  obtain ⟨hidentity, hagreement, hsigned⟩ := h.bundles b hb
  have hverify : b.verify = .ok () := by
    unfold PrekeyBundle.verify
    rw [hidentity, hagreement, hsigned]
    refine except_bind_eq_ok.mpr ⟨(), if_pos (wa.verify_sign _ _), if_pos (wa.verify_sign _ _)⟩
  unfold x3dhInitiate
  rw [hverify]
  exact ⟨_, rfl⟩

end Sound

theorem Reaches.step (h : Reaches me agreement signedPrekeySecret oneTimeSecrets x) (a : ExchangeStep) (ha : x.permitted a) :
    Reaches me agreement signedPrekeySecret oneTimeSecrets (x.next me agreement a) := Run.step h a ha

theorem Reaches.sound (wa : WorkingAgreement) (h : Reaches me agreement signedPrekeySecret oneTimeSecrets x) :
    x.Sound me agreement signedPrekeySecret oneTimeSecrets :=
  h.invariant (fun x => x.Sound me agreement signedPrekeySecret oneTimeSecrets) .start fun _ _ hs ha => hs.step wa ha

/-- Both ends derive one secret, and a one-time prekey is in one place at a time and consumed at most once. -/
theorem agrees_and_consumes_once (wa : WorkingAgreement) (hd : (oneTimeSecrets.map publicKey).Nodup)
    (h : Reaches me agreement signedPrekeySecret oneTimeSecrets x) :
    (∀ b ∈ x.issued, ∀ ephemeralSecret identity mine, ∃ r : HandshakeResult Key,
      x3dhInitiate ephemeralSecret identity mine b = .ok r) ∧
    (∀ r ∈ x.sent, (∀ key, r.initialMessage.usedOneTimePrekey = some key → key ∈ x.pending) →
      (x3dhRespond agreement x.store r.initialMessage).2 = .ok r.sharedSecret) ∧
    (∀ key, x.consumed.count key ≤ 1) ∧
    (∀ r ∈ x.sent, ∀ key ∈ x.consumed, r.initialMessage.usedOneTimePrekey = some key →
      (x3dhRespond agreement x.store r.initialMessage : _ × Except _ Key) = (x.store, .error .prekeyExhausted)) ∧
    (x.issued.filterMap (·.oneTimePrekey)).Nodup ∧
    (x.available ++ (x.pending ++ x.consumed)).Perm (oneTimeSecrets.map publicKey) ∧
    (x.available ++ (x.pending ++ x.consumed)).Nodup := by
  have hs := h.sound wa
  have hall : (x.available ++ (x.pending ++ x.consumed)).Nodup := hs.places.nodup_iff.mpr hd
  obtain ⟨-, hmoved, -⟩ := List.nodup_append.mp hall
  obtain ⟨-, hconsumed, hapart⟩ := List.nodup_append.mp hmoved
  refine ⟨fun b hb => hs.initiates wa hb, fun r hr hpending => ?_, fun key => List.nodup_iff_count_le_one.mp hconsumed key, fun r hr key hkey hu => ?_,
    hs.handed.nodup_iff.mpr hmoved, hs.places, hall⟩
  · rcases hs.answer wa hr with ⟨-, ha⟩ | ⟨_, _, -, -, -, ha⟩ | ⟨key, hu, hnot, -⟩
    · rw [ha]
    · rw [ha]
    · exact absurd (hpending key hu) hnot
  · have hnot : key ∉ x.pending := fun hmem => hapart key hmem key hkey rfl
    rcases hs.answer wa hr with ⟨hnone, -⟩ | ⟨secret, _, hsome, hmem, -, -⟩ | ⟨_, -, -, ha⟩
    · rw [hnone] at hu
      cases hu
    · rw [hsome] at hu
      exact absurd (Option.some.inj hu ▸ hmem) hnot
    · exact ha

end Exchange

namespace Exchange
attribute [local instance] StandIn.x25519 StandIn.ed25519 StandIn.x3dhKdf

/-- A store with one one-time prekey, after a bundle was issued and a peer initiated on it. -/
def afterInitiate : Exchange (List UInt8) :=
  let me : IdentityKeyPair := ⟨.replicate 32 1⟩
  let bundle := ((PrekeyStore.generate me (.replicate 32 3) [.replicate 32 4]).publicBundle me.publicKey
    (AgreementKeyPair.signWith ⟨.replicate 32 2⟩ me)).2
  ((start (.generate me (.replicate 32 3) [.replicate 32 4])).next me ⟨.replicate 32 2⟩ .issue).next me ⟨.replicate 32 2⟩
    (.initiate (.replicate 32 5) ⟨.replicate 32 6⟩ ⟨.replicate 32 7⟩ bundle)

theorem agrees_and_consumes_once_initiate : afterInitiate.sent ≠ [] ∧
    ∀ r ∈ afterInitiate.sent, (x3dhRespond ⟨.replicate 32 2⟩ afterInitiate.store r.initialMessage).2 = .ok r.sharedSecret := by
  have wa : WorkingAgreement := ⟨fun _ _ => StandIn.addBytes_comm _ _, fun _ _ => decide_eq_true rfl⟩
  have hx : Reaches ⟨.replicate 32 1⟩ ⟨.replicate 32 2⟩ (.replicate 32 3) [.replicate 32 4] afterInitiate :=
    (Reaches.step .refl .issue trivial).step (.initiate _ _ _ _) (List.mem_singleton_self _)
  have hpending : afterInitiate.sent.length = 1 ∧
      ∀ r ∈ afterInitiate.sent, ∀ key ∈ r.initialMessage.usedOneTimePrekey, key ∈ afterInitiate.pending := by decide +kernel
  refine ⟨fun h => absurd (h ▸ hpending.1) (by decide), fun r hr => ?_⟩
  have hd : ([Bytes.replicate 32 4].map X25519.publicKey).Nodup := List.nodup_singleton _
  exact (agrees_and_consumes_once wa hd hx).2.1 r hr fun key hkey => hpending.2 r hr key hkey

end Exchange
end SpiritChat
