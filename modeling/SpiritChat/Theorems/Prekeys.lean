import SpiritChat.Chat.Account
import SpiritChat.Lib.Run
import SpiritChat.Theorems.StandIn

/-! # One-time prekeys over the life of an account

A one-time prekey leaves the store in memory when a handshake is answered with it, but the Keychain still has it, and
so may the store of another session. So it is used once as long as no manager is started with a store that holds a
prekey which was used, and no manager of an earlier session goes on beside it. -/

namespace SpiritChat
open Lib

namespace PrekeyStore

/-- All one-time secrets of a store. -/
def secrets (s : PrekeyStore) : List (Bytes 32) := s.availableOneTimeSecrets ++ s.pendingOneTimeSecrets

variable [X25519]

/-- The one-time prekeys that a store has the secrets of. -/
def oneTimePrekeys (s : PrekeyStore) : List (Bytes 32) := s.secrets.map X25519.publicKey

variable {s s' : PrekeyStore} {publicKey secret : Bytes 32}

theorem takeOneTimeSecret_spec (h : s.takeOneTimeSecret publicKey = some (secret, s')) :
    X25519.publicKey secret = publicKey ∧ s.secrets.Perm (secret :: s'.secrets) ∧
      s'.signedPrekeySecret = s.signedPrekeySecret ∧ s.pendingOneTimeSecrets.Perm (secret :: s'.pendingOneTimeSecrets) := by
  unfold takeOneTimeSecret at h
  rcases hi : s.pendingOneTimeSecrets.findIdx? (X25519.publicKey · = publicKey) with _ | index
  · rw [hi] at h
    exact absurd h (by simp)
  · rw [hi] at h
    obtain ⟨hlt, hp, -⟩ := List.findIdx?_eq_some_iff_getElem.1 hi
    dsimp only at h
    rw [List.getElem?_eq_getElem hlt, Option.map_some] at h
    obtain ⟨rfl, rfl⟩ := Prod.mk.inj (Option.some.inj h)
    have hperm := (List.perm_cons_erase (List.getElem_mem hlt)).trans ((List.erase_getElem hlt).cons _)
    refine ⟨of_decide_eq_true hp, ?_, rfl, hperm⟩
    exact (hperm.append_left _).trans List.perm_middle

theorem publicBundle_spec (s : PrekeyStore) (identity : IdentityPublicKey) (agreement : SignedAgreementKeyPublic) :
    (s.publicBundle identity agreement).1.secrets.Perm s.secrets ∧
      ∀ key, (s.publicBundle identity agreement).2.oneTimePrekey = some key → key ∈ s.oneTimePrekeys := by
  unfold publicBundle
  rcases hl : s.availableOneTimeSecrets.getLast? with _ | secret
  · exact ⟨.rfl, fun _ h => absurd h (by simp)⟩
  · obtain ⟨init, hs⟩ := List.getLast?_eq_some_iff.1 hl
    dsimp only
    refine ⟨?_, ?_⟩
    · unfold secrets
      dsimp only
      rw [hs, List.dropLast_concat, List.append_assoc]
      exact List.Perm.append_left init List.perm_append_comm
    · rintro key ⟨⟩
      refine List.mem_map_of_mem (List.mem_append_left _ ?_)
      rw [hs]
      exact List.mem_append_right _ (List.mem_singleton_self _)

end PrekeyStore

/-- The operations that take a one-time prekey from the store, or put one into a card. -/
def ChatOp.usesPrekeys {Key : Type} : ChatOp Key → Bool
  | .respond _ _ | .contactCard _ _ => true
  | _ => false

section
variable {Key : Type} [X25519] [Ed25519] [SymmetricPrimitives Key] [X3dhKdf Key]

/-- What one operation does to the prekeys in memory: nothing, one fewer after a handshake, or one in a card. -/
theorem Device.prekeys_exec (d : Device Key) (env : Env) (o : ChatOp Key) :
    ((d.exec env o).2.prekeys.secrets = d.prekeys.secrets ∧ d.prekeyEvents o = []) ∨
    (∃ initialMessage secret, d.prekeyEvents o = [.completed initialMessage secret] ∧
      initialMessage.usedOneTimePrekey = some (X25519.publicKey secret) ∧
      d.prekeys.secrets.Perm (secret :: (d.exec env o).2.prekeys.secrets)) ∨
    ∃ card, d.prekeyEvents o = [.card card] ∧ (d.exec env o).2.prekeys.secrets.Perm d.prekeys.secrets ∧
      ∀ key, card.oneTimePrekey = some key → key ∈ d.prekeys.oneTimePrekeys := by
  cases o with
  | respond agreement initialMessage =>
    dsimp only [Device.exec, Device.prekeyEvents]
    rcases hu : initialMessage.usedOneTimePrekey with _ | publicKey
    · refine .inl ⟨?_, rfl⟩
      unfold x3dhRespond
      split
      · rfl
      · rw [hu]
    · unfold x3dhRespond
      split
      · exact .inl ⟨rfl, rfl⟩
      · rw [hu]
        dsimp only
        rcases ht : d.prekeys.takeOneTimeSecret publicKey with _ | ⟨secret, store⟩
        · exact .inl ⟨rfl, rfl⟩
        · obtain ⟨rfl, hperm, -, -⟩ := PrekeyStore.takeOneTimeSecret_spec ht
          refine .inr (.inl ⟨initialMessage, secret, ?_, hu, hperm⟩)
          dsimp only
          rw [ht]
          rfl
  | contactCard identity agreement =>
    obtain ⟨hperm, hkey⟩ := d.prekeys.publicBundle_spec identity.publicKey (agreement.signWith identity)
    exact .inr (.inr ⟨_, rfl, hperm, hkey⟩)
  | beginState state peerId =>
    unfold Device.exec
    dsimp only
    split
    · exact .inl ⟨rfl, rfl⟩
    · exact .inl ⟨rfl, rfl⟩
  | command c =>
    unfold Device.exec
    dsimp only
    split
    · exact .inl ⟨rfl, rfl⟩
    · exact .inl ⟨rfl, rfl⟩
  | _ => exact .inl ⟨rfl, rfl⟩

omit [SymmetricPrimitives Key] in
theorem Device.usesPrekeys_of_events {d : Device Key} {o : ChatOp Key} {e : PrekeyEvent} (h : d.prekeyEvents o = [e]) :
    o.usesPrekeys = true := by
  cases o with
  | respond => rfl
  | contactCard => rfl
  | _ => cases h

/-! ### Runs of an account -/

def PrekeyEvent.completed? : PrekeyEvent → Option (InitialMessage × Bytes 32)
  | .completed initialMessage secret => some (initialMessage, secret)
  | .card _ => none

/-- The handshakes that were answered with a one-time prekey, each with the secret behind it. -/
def completions (log : List PrekeyEvent) : List (InitialMessage × Bytes 32) := log.filterMap PrekeyEvent.completed?

omit [Ed25519] in
/-- The one-time prekeys that were used in a handshake. -/
def usedPrekeys (log : List PrekeyEvent) : List (Bytes 32) := (completions log).map fun c => X25519.publicKey c.2

omit [Ed25519] in
/-- A card that is made after a handshake does not have the prekey of that handshake. -/
def NotReissued (e e' : PrekeyEvent) : Prop :=
  ∀ initialMessage secret card, e = .completed initialMessage secret → e' = .card card →
    card.oneTimePrekey ≠ some (X25519.publicKey secret)

omit [Ed25519] in
instance : (e e' : PrekeyEvent) → Decidable (NotReissued e e')
  | .completed _ secret, .card card =>
    decidable_of_iff (card.oneTimePrekey ≠ some (X25519.publicKey secret))
      ⟨fun h _ _ _ he he' => by cases he; cases he'; exact h, fun h => h _ _ _ rfl rfl⟩
  | .card _, _ => .isTrue fun _ _ _ he => by cases he
  | .completed _ _, .completed _ _ => .isTrue fun _ _ _ _ he' => by cases he'

namespace Account

omit [Ed25519] in
/-- `writeSlot` draws distinct secrets. -/
def Draws (_ : Account Key) : AccountMove Key → Prop
  | .writeSlot _ _ _ oneTimeSecrets _ _ =>
    oneTimeSecrets.length = initialOneTimePrekeyCount ∧ (oneTimeSecrets.map X25519.publicKey).Nodup
  | _ => True

/-- The session of the manager that was started last. -/
def current (a : Account Key) : Option ℕ := (a.managers.map (·.session)).getLast?

omit [Ed25519] in
/-- No manager is started with a store that holds a used one-time prekey, and a manager uses its store only as long as
no other session's manager was started after it. -/
def Unused (a : Account Key) : AccountMove Key → Prop
  | .start session => ∀ s ∈ a.sessions[session]?, ∀ key ∈ s.prekeys.oneTimePrekeys, key ∉ usedPrekeys a.log
  | .perform manager o _ => o.usesPrekeys = true → ∀ m ∈ a.managers[manager]?, a.current = some m.session
  | _ => True

omit [Ed25519] in
instance (a : Account Key) : (move : AccountMove Key) → Decidable (a.Draws move)
  | .writeSlot _ _ _ oneTimeSecrets _ _ => inferInstanceAs (Decidable (oneTimeSecrets.length = initialOneTimePrekeyCount ∧
      (oneTimeSecrets.map X25519.publicKey).Nodup))
  | .loadExisting | .removeSlot _ _ _ | .start _ | .perform _ _ _ | .launch => .isTrue trivial

omit [Ed25519] in
instance (a : Account Key) : (move : AccountMove Key) → Decidable (a.Unused move)
  | .start session => inferInstanceAs
      (Decidable (∀ s ∈ a.sessions[session]?, ∀ key ∈ s.prekeys.oneTimePrekeys, key ∉ usedPrekeys a.log))
  | .perform manager o _ => inferInstanceAs
      (Decidable (o.usesPrekeys = true → ∀ m ∈ a.managers[manager]?, a.current = some m.session))
  | .writeSlot _ _ _ _ _ _ | .loadExisting | .removeSlot _ _ _ | .launch => .isTrue trivial

/-- A slot with nothing in it. -/
def vacant (d : Device Key) : Account Key := ⟨.empty, [], [], d, []⟩

/-- The manager and the session that it was built from. -/
def Manages (a : Account Key) (manager : ℕ) (m : Manager) (s : AccountSession) : Prop :=
  a.managers[manager]? = some m ∧ a.sessions[m.session]? = some s

variable {a : Account Key} {manager : ℕ} {m : Manager} {s : AccountSession}

theorem perform_eq (h : a.Manages manager m s) (o : ChatOp Key) (env : Env) : a.perform manager o env =
    { a with
      sessions := a.sessions.set m.session { s with prekeys := ((a.view m s).exec env o).2.prekeys }
      managers := a.managers.set manager (m.after ((a.view m s).exec env o).2)
      device := ((a.view m s).exec env o).2
      log := a.log ++ (a.view m s).prekeyEvents o } := by
  unfold perform
  rw [h.1]
  dsimp only
  rw [h.2]

omit [X25519] [Ed25519] [SymmetricPrimitives Key] [X3dhKdf Key] in
theorem sessions_after (h : a.Manages manager m s) (d : Device Key) :
    (a.managers.set manager (m.after d)).map (·.session) = a.managers.map (·.session) := by
  obtain ⟨hlt, hm⟩ := List.getElem?_eq_some_iff.1 h.1
  have hlt' : manager < (a.managers.map (·.session)).length := by rwa [List.length_map]
  have hsame : (m.after d).session = (a.managers.map (·.session))[manager] := by
    rw [List.getElem_map, hm]
    rfl
  rw [List.map_set, hsame, List.set_getElem_self]

theorem perform_manages (h : a.Manages manager m s) (o : ChatOp Key) (env : Env) : ∃ m' s',
    (a.perform manager o env).Manages manager m' s' ∧
      (a.perform manager o env).view m' s' = ((a.view m s).exec env o).2 := by
  refine ⟨m.after ((a.view m s).exec env o).2, { s with prekeys := ((a.view m s).exec env o).2.prekeys }, ?_, ?_⟩
  · rw [perform_eq h]
    exact ⟨List.getElem?_set_self (List.getElem?_eq_some_iff.mp h.1).1,
      List.getElem?_set_self (List.getElem?_eq_some_iff.mp h.2).1⟩
  · rw [perform_eq h]
    rfl

/-- A handler's run is a run of the account. -/
theorem reaches_run {α : Type} {permitted : Account Key → AccountMove Key → Prop}
    (hp : ∀ a o env, permitted a (.perform manager o env)) (p : Chat Key α) (envs : ℕ → Env) (h : a.Manages manager m s) :
    ∃ a' m' s', Run step permitted a a' ∧ a'.Manages manager m' s' ∧ a'.keychain = a.keychain ∧
      a'.view m' s' = (p.run Device.perform envs (a.view m s)).2 := by
  suffices hrun : ∀ b m₁ s₁, Run step permitted a b → b.Manages manager m₁ s₁ → b.keychain = a.keychain →
      ∃ a' m' s', Run step permitted a a' ∧ a'.Manages manager m' s' ∧ a'.keychain = a.keychain ∧
        a'.view m' s' = (p.run Device.perform envs (b.view m₁ s₁)).2 from hrun a m s .refl h rfl
  induction p generalizing envs with
  | pure r => exact fun b m₁ s₁ hb hmanages hk => ⟨b, m₁, s₁, hb, hmanages, hk, rfl⟩
  | op o k ih =>
    intro b m₁ s₁ hb hmanages hk
    obtain ⟨m₂, s₂, hmanages₂, hview⟩ := perform_manages hmanages o (envs 0)
    have hk₂ : (b.perform manager o (envs 0)).keychain = a.keychain := by
      rw [perform_eq hmanages]
      exact hk
    have hnext := ih ((b.view m₁ s₁).exec (envs 0) o).1 (fun i => envs (i + 1)) _ _ _ (hb.step _ (hp b o (envs 0))) hmanages₂ hk₂
    rwa [show (b.step (.perform manager o (envs 0))).view m₂ s₂ = _ from hview] at hnext

end Account

/-- What keeps a used prekey out of every store that is in use. -/
structure PrekeyInv (a : Account Key) : Prop where
  built : ∀ m ∈ a.managers, m.session < a.sessions.length
  distinct : ∀ s ∈ a.sessions, s.prekeys.oneTimePrekeys.Nodup
  unused : ∀ session s, a.current = some session → a.sessions[session]? = some s → ∀ key ∈ s.prekeys.oneTimePrekeys,
    key ∉ usedPrekeys a.log
  saved : ∀ bytes, a.keychain.prekeys = some bytes → ∃ store : PrekeyStore, PrekeyStore.fromBytes bytes = .ok store ∧
    store.oneTimePrekeys.Nodup
  once : (usedPrekeys a.log).Nodup
  named : ∀ c ∈ completions a.log, c.1.usedOneTimePrekey = some (X25519.publicKey c.2)
  cards : a.log.Pairwise NotReissued

omit [X25519] [Ed25519] in
theorem completions_append (log log' : List PrekeyEvent) : completions (log ++ log') = completions log ++ completions log' :=
  List.filterMap_append

omit [Ed25519] in
theorem mem_usedPrekeys {log : List PrekeyEvent} {initialMessage : InitialMessage} {secret : Bytes 32}
    (h : .completed initialMessage secret ∈ log) : X25519.publicKey secret ∈ usedPrekeys log :=
  List.mem_map.2 ⟨(initialMessage, secret), List.mem_filterMap.2 ⟨_, h, rfl⟩, rfl⟩

namespace PrekeyInv
variable {a : Account Key}

omit [Ed25519] [SymmetricPrimitives Key] [X3dhKdf Key] in
theorem lt_of_current (h : PrekeyInv a) {session : ℕ} (hs : a.current = some session) : session < a.sessions.length := by
  obtain ⟨m, hm, rfl⟩ := List.mem_map.1 (List.mem_of_getLast? hs)
  exact h.built m hm

omit [Ed25519] [SymmetricPrimitives Key] [X3dhKdf Key] in
/-- A session that is made from a store without two equal prekeys. -/
theorem addSession (h : PrekeyInv a) {s : AccountSession} (hs : s.prekeys.oneTimePrekeys.Nodup) :
    PrekeyInv { a with sessions := a.sessions ++ [s] } := by
  refine { h with built := fun m hm => ?_, distinct := fun s' hs' => ?_, unused := fun session s' hcurrent hs' => ?_ }
  · rw [List.length_append]
    exact (h.built m hm).trans_le (Nat.le_add_right _ _)
  · rcases List.mem_append.1 hs' with hs' | hs'
    · exact h.distinct s' hs'
    · exact List.mem_singleton.1 hs' ▸ hs
  · rw [List.getElem?_append_left (h.lt_of_current hcurrent)] at hs'
    exact h.unused session s' hcurrent hs'

omit [Ed25519] [SymmetricPrimitives Key] [X3dhKdf Key] in
theorem loadExisting (h : PrekeyInv a) : PrekeyInv a.loadExisting := by
  unfold Account.loadExisting
  split
  · rename_i identity agreement bytes hi ha hb
    obtain ⟨store, hstore, hnodup⟩ := h.saved bytes hb
    rw [hstore]
    exact h.addSession hnodup
  · exact h

omit [SymmetricPrimitives Key] [X3dhKdf Key] in
theorem writeSlot (h : PrekeyInv a) {identity agreement signedPrekeySecret : Bytes 32} {oneTimeSecrets : List (Bytes 32)}
    {landed : ℕ} {deleted : Bool}
    (hd : a.Draws (.writeSlot identity agreement signedPrekeySecret oneTimeSecrets landed deleted)) :
    PrekeyInv (a.writeSlot identity agreement signedPrekeySecret oneTimeSecrets landed deleted) := by
  obtain ⟨hlen, hnodup⟩ := hd
  have hkeys : (PrekeyStore.generate ⟨identity⟩ signedPrekeySecret oneTimeSecrets).oneTimePrekeys =
      oneTimeSecrets.map X25519.publicKey := congrArg (List.map X25519.publicKey) (List.append_nil _)
  have hread : PrekeyStore.fromBytes (PrekeyStore.generate ⟨identity⟩ signedPrekeySecret oneTimeSecrets).toBytes =
      .ok (PrekeyStore.generate ⟨identity⟩ signedPrekeySecret oneTimeSecrets) := by
    refine PrekeyStore.fromBytes_toBytes ?_ ?_
    · dsimp only [PrekeyStore.generate]
      rw [hlen]
      decide
    · exact Nat.two_pow_pos 64
  rw [← hkeys] at hnodup
  have hwritten : PrekeyInv { a with
      keychain := a.keychain.write identity agreement
        (PrekeyStore.generate ⟨identity⟩ signedPrekeySecret oneTimeSecrets).toBytes landed deleted } := by
    refine { h with saved := fun bytes hb => ?_ }
    dsimp only [KeychainSlot.write] at hb
    split_ifs at hb
    · obtain rfl := Option.some.inj hb
      exact ⟨_, hread, hnodup⟩
    · exact h.saved bytes hb
  unfold Account.writeSlot
  split
  · exact hwritten.addSession hnodup
  · exact hwritten

omit [Ed25519] [SymmetricPrimitives Key] [X3dhKdf Key] in
theorem start (h : PrekeyInv a) {session : ℕ} (hunused : a.Unused (.start session)) : PrekeyInv (a.start session) := by
  unfold Account.start
  split
  · rename_i hlt
    refine { h with built := fun m hm => ?_, unused := fun session' s hcurrent hs => ?_ }
    · rcases List.mem_append.1 hm with hm | hm
      · exact h.built m hm
      · obtain rfl := List.mem_singleton.1 hm
        exact hlt
    · unfold Account.current at hcurrent
      rw [List.map_append, List.map_singleton, List.getLast?_concat] at hcurrent
      obtain rfl := Option.some.inj hcurrent
      exact hunused s hs
  · exact h

omit [Ed25519] [SymmetricPrimitives Key] [X3dhKdf Key] in
/-- An operation leaves some of the prekeys in the store of its manager. -/
theorem put (h : PrekeyInv a) {manager : ℕ} {m : Manager} {s : AccountSession} (hmanages : a.Manages manager m s)
    {store : PrekeyStore} (hdistinct : store.oneTimePrekeys.Nodup)
    (hkeys : ∀ key ∈ store.oneTimePrekeys, key ∈ s.prekeys.oneTimePrekeys) (d : Device Key) :
    PrekeyInv
      { a with
        sessions := a.sessions.set m.session { s with prekeys := store }
        managers := a.managers.set manager (m.after d)
        device := d } := by
  have hsame := Account.sessions_after hmanages d
  refine { h with built := fun m' hm' => ?_, distinct := fun s' hs' => ?_, unused := fun session s' hcurrent hs' => ?_ }
  · rw [List.length_set]
    have hmem : m'.session ∈ a.managers.map (·.session) := hsame ▸ List.mem_map_of_mem hm'
    obtain ⟨m₀, hm₀, he⟩ := List.mem_map.1 hmem
    exact he ▸ h.built m₀ hm₀
  · rcases List.mem_or_eq_of_mem_set hs' with hs' | rfl
    · exact h.distinct s' hs'
    · exact hdistinct
  · unfold Account.current at hcurrent
    rw [hsame] at hcurrent
    rw [List.getElem?_set] at hs'
    split_ifs at hs' with he hlt
    · obtain rfl := Option.some.inj hs'
      exact fun key hk => h.unused session s hcurrent (he ▸ hmanages.2) key (hkeys key hk)
    · exact h.unused session s' hcurrent hs'

omit [Ed25519] [SymmetricPrimitives Key] [X3dhKdf Key] in
theorem logCard (h : PrekeyInv a) {card : PrekeyBundle}
    (hcard : ∀ key, card.oneTimePrekey = some key → key ∉ usedPrekeys a.log) :
    PrekeyInv { a with log := a.log ++ [.card card] } := by
  have hcompleted : completions (a.log ++ [.card card]) = completions a.log := by
    rw [completions_append]
    exact List.append_nil _
  have hused : usedPrekeys (a.log ++ [.card card]) = usedPrekeys a.log := congrArg (List.map _) hcompleted
  refine { h with unused := ?_, once := ?_, named := ?_, cards := ?_ }
  · rw [hused]
    exact h.unused
  · rw [hused]
    exact h.once
  · rw [hcompleted]
    exact h.named
  · refine List.pairwise_append.2 ⟨h.cards, List.pairwise_singleton _ _, ?_⟩
    rintro e he e' he' im secret card' rfl rfl hkey
    obtain rfl := PrekeyEvent.card.inj (List.mem_singleton.1 he')
    exact hcard _ hkey (mem_usedPrekeys he)

omit [Ed25519] [SymmetricPrimitives Key] [X3dhKdf Key] in
/-- A prekey that was not used and is in no store that will be. -/
theorem logCompleted (h : PrekeyInv a) {initialMessage : InitialMessage} {secret : Bytes 32}
    (hnamed : initialMessage.usedOneTimePrekey = some (X25519.publicKey secret))
    (hfresh : X25519.publicKey secret ∉ usedPrekeys a.log)
    (hgone : ∀ session s, a.current = some session → a.sessions[session]? = some s →
      X25519.publicKey secret ∉ s.prekeys.oneTimePrekeys) :
    PrekeyInv { a with log := a.log ++ [.completed initialMessage secret] } := by
  have hcompleted : completions (a.log ++ [.completed initialMessage secret]) =
      completions a.log ++ [(initialMessage, secret)] := completions_append ..
  have hused : usedPrekeys (a.log ++ [.completed initialMessage secret]) =
      usedPrekeys a.log ++ [X25519.publicKey secret] := by
    unfold usedPrekeys
    rw [hcompleted, List.map_append]
    rfl
  refine { h with unused := fun session s hcurrent hs key hk hu => ?_, once := ?_, named := fun c hc => ?_, cards := ?_ }
  · rw [hused] at hu
    rcases List.mem_append.1 hu with hu | hu
    · exact h.unused session s hcurrent hs key hk hu
    · exact hgone session s hcurrent hs (List.mem_singleton.1 hu ▸ hk)
  · rw [hused]
    refine List.nodup_append.2 ⟨h.once, List.nodup_singleton _, ?_⟩
    rintro key hu key' hk' rfl
    exact hfresh (List.mem_singleton.1 hk' ▸ hu)
  · rw [hcompleted] at hc
    rcases List.mem_append.1 hc with hc | hc
    · exact h.named c hc
    · obtain rfl := List.mem_singleton.1 hc
      exact hnamed
  · refine List.pairwise_append.2 ⟨h.cards, List.pairwise_singleton _ _, ?_⟩
    rintro e - e' he' im s card - rfl
    exact absurd (List.mem_singleton.1 he') (by simp)

theorem perform (h : PrekeyInv a) {manager : ℕ} {o : ChatOp Key} {env : Env} (hunused : a.Unused (.perform manager o env)) :
    PrekeyInv (a.perform manager o env) := by
  by_cases hmanages : ∃ m s, a.Manages manager m s
  · obtain ⟨m, s, hmanages⟩ := hmanages
    rw [Account.perform_eq hmanages]
    have hnodup := h.distinct s (List.mem_of_getElem? hmanages.2)
    obtain ⟨hsame, hlog⟩ | ⟨initialMessage, secret, hlog, hnamed, hperm⟩ | ⟨card, hlog, hperm, hkey⟩ :=
      (a.view m s).prekeys_exec env o
    · have hkeys : ((a.view m s).exec env o).2.prekeys.oneTimePrekeys = s.prekeys.oneTimePrekeys :=
        congrArg (List.map X25519.publicKey) hsame
      rw [hlog, List.append_nil]
      exact h.put hmanages (hkeys ▸ hnodup) (fun key hk => hkeys ▸ hk) _
    · have hkeys : s.prekeys.oneTimePrekeys.Perm
          (X25519.publicKey secret :: ((a.view m s).exec env o).2.prekeys.oneTimePrekeys) := hperm.map _
      have hcurrent := hunused (Device.usesPrekeys_of_events hlog) m hmanages.1
      obtain ⟨hnot, hnodup'⟩ := List.nodup_cons.1 (hkeys.nodup_iff.1 hnodup)
      have hput := h.put hmanages hnodup' (fun key hk => hkeys.symm.subset (List.mem_cons_of_mem _ hk))
        ((a.view m s).exec env o).2
      rw [hlog]
      refine hput.logCompleted hnamed (h.unused _ s hcurrent hmanages.2 _ (hkeys.symm.subset List.mem_cons_self)) ?_
      intro session s' hsession hs'
      have hsame : a.current = some session := by
        unfold Account.current at hsession ⊢
        rwa [← Account.sessions_after hmanages]
      obtain rfl := Option.some.inj (hcurrent.symm.trans hsame)
      rw [List.getElem?_set_self (List.getElem?_eq_some_iff.1 hmanages.2).1] at hs'
      obtain rfl := Option.some.inj hs'
      exact hnot
    · have hkeys : ((a.view m s).exec env o).2.prekeys.oneTimePrekeys.Perm s.prekeys.oneTimePrekeys := hperm.map _
      have hcurrent := hunused (Device.usesPrekeys_of_events hlog) m hmanages.1
      have hput := h.put hmanages (hkeys.nodup_iff.2 hnodup) (fun key hk => hkeys.subset hk) ((a.view m s).exec env o).2
      rw [hlog]
      exact hput.logCard fun key hcard => h.unused _ s hcurrent hmanages.2 key (hkey key hcard)
  · have hsame : a.perform manager o env = a := by
      unfold Account.perform
      split
      · rfl
      · split
        · rfl
        · rename_i m hm _ s hs
          exact absurd ⟨m, s, hm, hs⟩ hmanages
    rwa [hsame]

theorem step (h : PrekeyInv a) {move : AccountMove Key} (hd : a.Draws move) (hunused : a.Unused move) :
    PrekeyInv (a.step move) := by
  cases move with
  | writeSlot => exact h.writeSlot hd
  | loadExisting => exact h.loadExisting
  | removeSlot identity agreement prekeys =>
    refine { h with saved := fun bytes hb => ?_ }
    dsimp only [Account.step, KeychainSlot.remove] at hb
    split_ifs at hb
    exact h.saved bytes hb
  | start session => exact h.start hunused
  | perform manager o env => exact h.perform hunused
  | launch =>
    exact { h with
      built := fun _ hm => absurd hm List.not_mem_nil
      distinct := fun _ hs => absurd hs List.not_mem_nil
      unused := fun _ _ _ hs => absurd hs (by simp [Account.step]) }

end PrekeyInv

/-- In a run in which no manager is started with a used one-time prekey in its store, and each uses its store only until a
manager of another session is started, a one-time secret completes one handshake at most, an initial message that names
a one-time prekey is accepted once at most, and a one-time prekey that completed a handshake is in no later card. -/
theorem prekey_used_once {d : Device Key} {a : Account Key}
    (h : Run Account.step (fun a move => a.Draws move ∧ a.Unused move) (.vacant d) a) :
    ((completions a.log).map (·.2)).Nodup ∧ ((completions a.log).map (·.1)).Nodup ∧ a.log.Pairwise NotReissued := by
  have hinv : PrekeyInv a := by
    refine h.invariant PrekeyInv ?_ fun a move ih hm => ih.step hm.1 hm.2
    exact ⟨fun _ hm => absurd hm List.not_mem_nil, fun _ hs => absurd hs List.not_mem_nil,
      (fun _ _ hcurrent => by cases hcurrent), (fun _ hb => by cases hb), List.nodup_nil,
      fun c hc => absurd hc List.not_mem_nil, .nil⟩
  have hsecrets : ((completions a.log).map (·.2)).map X25519.publicKey = usedPrekeys a.log := List.map_map
  have hnames : ((completions a.log).map (·.1)).map InitialMessage.usedOneTimePrekey = (usedPrekeys a.log).map some := by
    unfold usedPrekeys
    rw [List.map_map, List.map_map]
    exact List.map_congr_left hinv.named
  refine ⟨.of_map X25519.publicKey ?_, .of_map InitialMessage.usedOneTimePrekey ?_, hinv.cards⟩
  · rw [hsecrets]
    exact hinv.once
  · rw [hnames]
    exact hinv.once.map (Option.some_injective _)

end

/-! ### A prekey that is used twice -/

section
attribute [local instance] StandIn.x25519 StandIn.ed25519 StandIn.symmetricPrimitives StandIn.x3dhKdf

namespace Reload

def device : Device (List UInt8) := ⟨[], [], .empty, [], .generate ⟨.replicate 32 1⟩ (.replicate 32 3) [], 0, [], []⟩

def identity : Bytes 32 := .replicate 32 1

def agreement : Bytes 32 := .replicate 32 2

def oneTimeSecrets : List (Bytes 32) := (List.range 20).map fun i => .replicate 32 (.ofNat (100 + i))

def env : Env := ⟨.replicate 12 0, .replicate 32 4, true, fun _ => .refl _⟩

/-- A peer's initial message for the card that is made first. -/
def initialMessage : InitialMessage where
  initiatorIdentity := ⟨.replicate 32 9⟩
  initiatorAgreementKey := AgreementKeyPair.signWith ⟨.replicate 32 10⟩ ⟨.replicate 32 9⟩
  ephemeralKey := .replicate 32 11
  usedOneTimePrekey := some (.replicate 32 119)

def create : AccountMove (List UInt8) := .writeSlot identity agreement (.replicate 32 3) oneTimeSecrets 4 false

/-- `init` of a manager makes a card. -/
def makeCard (manager : ℕ) : AccountMove (List UInt8) := .perform manager (.contactCard ⟨identity⟩ ⟨agreement⟩) env

def answer (manager : ℕ) : AccountMove (List UInt8) := .perform manager (.respond ⟨agreement⟩ initialMessage) env

/-- A new account answers a handshake. The phrase is typed in again, but the next manager is still built from the first
session, and makes a card. -/
def kept : List (AccountMove (List UInt8)) :=
  [create, .start 0, makeCard 0, answer 0, .loadExisting, .start 0, makeCard 1]

/-- A new account answers a handshake, and the app is launched anew. -/
def relaunched : List (AccountMove (List UInt8)) :=
  [create, .start 0, makeCard 0, answer 0, .launch, .loadExisting, .start 0, makeCard 0, answer 0]

def after (moves : List (AccountMove (List UInt8))) : Account (List UInt8) := moves.foldl Account.step (.vacant device)

end Reload

open Reload in
theorem prekey_used_once_kept : completions (after kept).log = [(initialMessage, .replicate 32 119)] ∧
    (after kept).sessions.length = 2 ∧ ((completions (after kept).log).map (·.2)).Nodup ∧
    ((completions (after kept).log).map (·.1)).Nodup ∧ (after kept).log.Pairwise NotReissued :=
  ⟨by decide +kernel, by decide +kernel, prekey_used_once (Run.of_follows (by decide +kernel))⟩

open Reload in
/-- After a restart the prekey of the handshake is in the card again, and the same initial message is accepted again. -/
theorem prekey_used_twice :
    Run Account.step Account.Draws (.vacant device) (after relaunched) ∧
      ¬((completions (after relaunched).log).map (·.2)).Nodup ∧ ¬((completions (after relaunched).log).map (·.1)).Nodup ∧
      ¬(after relaunched).log.Pairwise NotReissued :=
  ⟨Run.of_follows (by decide +kernel), by decide +kernel, by decide +kernel, by decide +kernel⟩

end
end SpiritChat
