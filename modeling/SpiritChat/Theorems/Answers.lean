import SpiritChat.Lib.Account
import SpiritChat.P2p.Commands
import SpiritChat.Theorems.Mirror

/-! # The answers to commands

A command is joined with the report of its libp2p call. One whose call is refused at once is never heard of again. -/

namespace SpiritChat
open Lib

/-- What a command asks for, as far as its answers name it. -/
inductive Ask where
  | peerAddresses (peer : PeerId)
  | announcement
  | delivery (recipient : PeerId)
  | blob (peer : PeerId) (id : List UInt8)
  | usernameAnnouncement (username : String)
  | username (username : String)
  | chainSync (peer : PeerId)

/-- The events that are documented as the answers to a command. -/
inductive Ask.AnsweredBy : Ask → NodeEffect → Prop
  | peerAddressesResolved (peer : PeerId) (addresses : List Multiaddr) :
      AnsweredBy (.peerAddresses peer) (.event (.peerAddressesResolved peer addresses))
  | peerAddressResolutionFailed (peer : PeerId) :
      AnsweredBy (.peerAddresses peer) (.event (.peerAddressResolutionFailed peer))
  | addressesAnnounced : AnsweredBy .announcement (.event .addressesAnnounced)
  | addressAnnouncementFailed (reason : String) : AnsweredBy .announcement (.event (.addressAnnouncementFailed reason))
  | envelopeDelivered (recipient : PeerId) : AnsweredBy (.delivery recipient) (.event (.envelopeDelivered recipient))
  | envelopeDeliveryFailed (recipient : PeerId) (reason : String) :
      AnsweredBy (.delivery recipient) (.event (.envelopeDeliveryFailed recipient reason))
  | blobFetched (peer : PeerId) (id bytes : List UInt8) : AnsweredBy (.blob peer id) (.event (.blobFetched peer id bytes))
  | blobFetchFailed (peer : PeerId) (id : List UInt8) (reason : String) :
      AnsweredBy (.blob peer id) (.event (.blobFetchFailed peer id reason))
  | usernameAnnounced (username : String) : AnsweredBy (.usernameAnnouncement username) (.event (.usernameAnnounced username))
  | usernameAnnouncementFailed (username reason : String) :
      AnsweredBy (.usernameAnnouncement username) (.event (.usernameAnnouncementFailed username reason))
  | usernameResolved (username : String) (claim : List UInt8) :
      AnsweredBy (.username username) (.event (.usernameResolved username claim))
  | usernameResolutionFailed (username : String) :
      AnsweredBy (.username username) (.event (.usernameResolutionFailed username))
  | chainSyncCompleted (peer : PeerId) (height : ℕ) :
      AnsweredBy (.chainSync peer) (.ledger (.sync (.event (.chainSyncCompleted height))))
  | chainSyncFailed (peer : PeerId) (reason : SyncFailure) :
      AnsweredBy (.chainSync peer) (.ledger (.sync (.event (.chainSyncFailed peer reason))))

def CommandEvent.isAnswer : CommandEvent → Bool
  | .peerConnected _ | .envelopeReceived _ _ => false
  | _ => true

def P2pEvent.isAnswer : P2pEvent → Bool
  | .chainTipChanged _ _ => false
  | _ => true

def LedgerEffect.isAnswer : LedgerEffect → Bool
  | .sync (.event e) => e.isAnswer
  | _ => false

def NodeEffect.isAnswer : NodeEffect → Bool
  | .event e => e.isAnswer
  | .ledger e => e.isAnswer
  | _ => false

/-- The calls of libp2p that are reported on later. -/
inductive CallKind where
  | getRecord
  | putRecord
  | sendEnvelope
  | requestBlob
  | requestSync
deriving DecidableEq

/-- A call of libp2p by the identifier that it returned. -/
structure Call where
  kind : CallKind
  id : ℕ
deriving DecidableEq

def LedgerEffect.call? : LedgerEffect → Option Call
  | .sync (.send _ id _) => some ⟨.requestSync, id⟩
  | _ => none

def NodeEffect.call? : NodeEffect → Option Call
  | .getRecord id _ => some ⟨.getRecord, id⟩
  | .putRecord id _ _ => some ⟨.putRecord, id⟩
  | .sendEnvelope id _ _ => some ⟨.sendEnvelope, id⟩
  | .requestBlob id _ _ => some ⟨.requestBlob, id⟩
  | .ledger e => e.call?
  | .event _ | .acknowledge _ => none

/-- The calls that have not been reported as finished, with whether a record was found for them. -/
abbrev Unfinished := Table Call Bool

def Command.ask : Command → Ask
  | .resolvePeerAddresses peer => .peerAddresses peer
  | .announceAddresses _ => .announcement
  | .sendEnvelope recipient _ => .delivery recipient
  | .fetchBlob peer id => .blob peer id
  | .announceUsername username _ => .usernameAnnouncement username
  | .resolveUsername username => .username username

/-- What is turned away with a record that is refused at once. -/
def Command.refused : Command → Put → List Ask
  | .announceAddresses _, .error _ => [.announcement]
  | .announceUsername username _, .error _ => [.usernameAnnouncement username]
  | _, _ => []

/-- `put` tells of each command in turn. -/
def refusedOf (put : ℕ → Put) : List Command → List Ask
  | [] => []
  | c :: commands => c.refused (put 0) ++ refusedOf (fun i => put (i + 1)) commands

namespace LoopEvent
variable {F : Type}

def asks : LoopEvent F → Multiset Ask
  | .command c _ => {c.ask}
  | .ledger (.requestChainSync peer) => {.chainSync peer}
  | _ => 0

/-- The call that libp2p reports of. -/
def call? : LoopEvent F → Option Call
  | .queryProgressed id (.foundRecord _) | .queryProgressed id .finishedWithNoAdditionalRecord
  | .queryProgressed id .getRecordFailed => some ⟨.getRecord, id⟩
  | .queryProgressed id .putRecordOk | .queryProgressed id (.putRecordFailed _) => some ⟨.putRecord, id⟩
  | .envelopeResponse id | .envelopeFailure id _ => some ⟨.sendEnvelope, id⟩
  | .blobResponse id _ | .blobFailure id _ => some ⟨.requestBlob, id⟩
  | .ledger (.chainSyncResponse id _ _ _) | .chainSyncFailure id _ => some ⟨.requestSync, id⟩
  | .command _ _ | .connectionEstablished _ _ | .envelopeRequest _ _ | .ledger _ => none

/-- libp2p reports of a call until it has finished. A query for a record fails unless it has found one. -/
def Possible (unfinished : Unfinished) : LoopEvent F → Prop
  | .queryProgressed id .finishedWithNoAdditionalRecord => unfinished ⟨.getRecord, id⟩ = some true
  | e => ∀ call ∈ e.call?, unfinished call ≠ none

/-- A report is the last one of its call, unless it is of a record that was found. -/
def reported (unfinished : Unfinished) : LoopEvent F → Unfinished
  | .queryProgressed id (.foundRecord _) => unfinished.insert ⟨.getRecord, id⟩ true
  | e => e.call?.elim unfinished unfinished.remove

end LoopEvent

def Unfinished.started (unfinished : Unfinished) (effects : List NodeEffect) : Unfinished :=
  unfinished.insertAll ((effects.filterMap NodeEffect.call?).map fun call => (call, false))

namespace Loop
variable {F : Type}

/-- What is turned away in a turn. -/
def refused (l : Loop F) : LoopEvent F → List Ask
  | .command c put => if !l.dhtReady && c.needsDhtPeer then [] else c.refused put
  | .connectionEstablished _ put => if l.dhtReady then [] else refusedOf put l.deferredCommands
  | _ => []

/-- The runs of the event loop, with what was asked, what of it was turned away, the answers, and the calls under way. -/
inductive Runs [Float64 F] [Primitives] [Multiaddrs] :
    Loop F → Multiset Ask → Multiset Ask → List NodeEffect → Unfinished → Prop
  | start (localPeer : PeerId) (chainStore : ChainStore F) : Runs (.start localPeer chainStore) 0 0 [] Table.empty
  | turn {l : Loop F} {asked refused : Multiset Ask} {answers effects : List NodeEffect} {unfinished : Unfinished}
      (e : LoopEvent F) : Runs l asked refused answers unfinished → e.Possible unfinished → (l.handle e).2 = .ok effects →
      Runs (l.handle e).1 (e.asks + asked) (l.refused e + refused) (answers ++ effects.filter NodeEffect.isAnswer)
        ((e.reported unfinished).started effects)

/-! ### What is open -/

/-- Of two maps that share the identifiers, the first one is asked first. -/
def either {A B : Type} (f : A → Ask) (g : B → Ask) (t : Table ℕ A) (u : Table ℕ B) : Table ℕ Ask := fun id =>
  match t id, u id with
  | some a, _ => some (f a)
  | none, some b => some (g b)
  | none, none => none

/-- The commands whose calls of a kind the loop still knows. -/
def known (l : Loop F) : CallKind → Table ℕ Ask
  | .getRecord => either .peerAddresses .username l.calls.resolvePeer l.calls.resolveUsername
  | .putRecord => either (fun _ => .announcement) .usernameAnnouncement l.calls.announce l.calls.announceUsername
  | .sendEnvelope => fun id => (l.calls.envelopeSend id).map .delivery
  | .requestBlob => fun id => (l.calls.blobFetch id).map fun b => .blob b.1 b.2
  | .requestSync => either .chainSync .chainSync l.node.pending.chainSyncTip l.node.pending.chainSyncBlocks

def asking (l : Loop F) : Table Call Ask := fun call => l.known call.kind call.id

/-- The next identifier of a kind of call. -/
def next (l : Loop F) : CallKind → ℕ
  | .getRecord | .putRecord => l.calls.nextQueryId
  | .sendEnvelope => l.calls.nextEnvelopeId
  | .requestBlob => l.calls.nextBlobId
  | .requestSync => l.node.pending.nextRequestId

/-- No identifier is in both of the maps that share it. -/
structure Apart (l : Loop F) : Prop where
  get (id : ℕ) : l.calls.resolvePeer id = none ∨ l.calls.resolveUsername id = none
  put (id : ℕ) : l.calls.announce id = none ∨ l.calls.announceUsername id = none
  sync (id : ℕ) : l.node.pending.chainSyncTip id = none ∨ l.node.pending.chainSyncBlocks id = none

/-- What a command waits for is a call that is not finished and has found no record, and nothing is deferred once there
was a connection. -/
structure Inv (l : Loop F) (unfinished : Unfinished) : Prop where
  apart : l.Apart
  numbered (call : Call) : l.next call.kind ≤ call.id → unfinished call = none
  awaited (call : Call) : unfinished call = none → l.asking call = none
  found (id : ℕ) : unfinished ⟨.getRecord, id⟩ = some true → l.asking ⟨.getRecord, id⟩ = none
  ready : l.dhtReady = true → l.deferredCommands = []

section
variable {A B : Type} {f : A → Ask} {g : B → Ask} {t : Table ℕ A} {u : Table ℕ B} {id : ℕ}

theorem either_eq_none : either f g t u id = none ↔ t id = none ∧ u id = none := by
  unfold either
  rcases t id with _ | a <;> rcases u id with _ | b <;> simp

theorem either_of_none (h : t id = none) : either f g t u id = (u id).map g := by
  unfold either
  rw [h]
  rcases u id with _ | b <;> rfl

theorem either_of_some {a : A} (h : t id = some a) : either f g t u id = some (f a) := by
  unfold either
  rw [h]

theorem either_insert_left (a : A) : either f g (t.insert id a) u = (either f g t u).insert id (f a) := by
  funext k
  unfold either
  rw [Table.insert_apply, Table.insert_apply]
  split_ifs <;> rfl

theorem either_insert_right (h : t id = none) (b : B) : either f g t (u.insert id b) = (either f g t u).insert id (g b) := by
  funext k
  rcases eq_or_ne k id with rfl | hk
  · rw [either_of_none h, Table.insert_self, Table.insert_self, Option.map_some]
  · unfold either
    rw [Table.insert_of_ne hk, Table.insert_of_ne hk]

theorem either_remove_left (h : u id = none) : either f g (t.remove id) u = (either f g t u).remove id := by
  funext k
  rcases eq_or_ne k id with rfl | hk
  · rw [Table.remove_self, either_eq_none]
    exact ⟨Table.remove_self, h⟩
  · unfold either
    rw [Table.remove_apply, Table.remove_apply, if_neg hk, if_neg hk]

theorem either_remove_right (h : t id = none) : either f g t (u.remove id) = (either f g t u).remove id := by
  funext k
  rcases eq_or_ne k id with rfl | hk
  · rw [Table.remove_self, either_eq_none]
    exact ⟨h, Table.remove_self⟩
  · unfold either
    rw [Table.remove_apply, Table.remove_apply, if_neg hk, if_neg hk]

theorem apart_insert_left (h : ∀ k, t k = none ∨ u k = none) (hu : u id = none) (a : A) (k : ℕ) :
    t.insert id a k = none ∨ u k = none := by
  rcases eq_or_ne k id with rfl | hne
  · exact .inr hu
  · exact (h k).imp_left (Table.insert_of_ne hne).trans

theorem apart_insert_right (h : ∀ k, t k = none ∨ u k = none) (ht : t id = none) (b : B) (k : ℕ) :
    t k = none ∨ u.insert id b k = none := (apart_insert_left (fun k => (h k).symm) ht b k).symm

theorem apart_remove_left (h : ∀ k, t k = none ∨ u k = none) (k : ℕ) : t.remove id k = none ∨ u k = none :=
  (h k).imp_left fun hk => by rw [Table.remove_apply, hk, ite_self]

theorem apart_remove_right (h : ∀ k, t k = none ∨ u k = none) (k : ℕ) : t k = none ∨ u.remove id k = none :=
  (apart_remove_left (fun k => (h k).symm) k).symm

theorem map_insert (a : A) : (fun k => (t.insert id a k).map f) = Table.insert (fun k => (t k).map f) id (f a) := by
  funext k
  rw [Table.insert_apply, Table.insert_apply]
  split_ifs <;> rfl

theorem map_remove : (fun k => (t.remove id k).map f) = Table.remove (fun k => (t k).map f) id := by
  funext k
  rw [Table.remove_apply, Table.remove_apply]
  split_ifs <;> rfl

end

/-! ### A call, and a report -/

/-- A call was made, and the loop knows what for. -/
structure Called (l l' : Loop F) (kind : CallKind) (q : Ask) : Prop where
  known : l'.known kind = (l.known kind).insert (l.next kind) q
  others (k : CallKind) : k ≠ kind → l'.known k = l.known k
  le_next (k : CallKind) : l.next k ≤ l'.next k
  lt_next : l.next kind < l'.next kind
  apart : l.Apart → l.asking ⟨kind, l.next kind⟩ = none → l'.Apart
  dhtReady : l'.dhtReady = l.dhtReady
  deferredCommands : l'.deferredCommands = l.deferredCommands

/-- The loop forgot a call. -/
structure Closed (l l' : Loop F) (call : Call) : Prop where
  known : l'.known call.kind = (l.known call.kind).remove call.id
  others (k : CallKind) : k ≠ call.kind → l'.known k = l.known k
  next (k : CallKind) : l'.next k = l.next k
  apart : l.Apart → l'.Apart
  dhtReady : l'.dhtReady = l.dhtReady
  deferredCommands : l'.deferredCommands = l.deferredCommands

variable {l l' : Loop F} {unfinished : Unfinished} {kind : CallKind} {call : Call} {q : Ask}

theorem Called.asking (h : l.Called l' kind q) : l'.asking = l.asking.insert ⟨kind, l.next kind⟩ q := by
  funext call
  rw [Table.insert_apply]
  rcases eq_or_ne call.kind kind with hk | hk
  · obtain ⟨_, id⟩ := call
    obtain rfl := hk
    show l'.known _ id = _
    rw [h.known, Table.insert_apply]
    simp only [Call.mk.injEq, true_and]
    rfl
  · rw [if_neg fun he => hk (congrArg Call.kind he)]
    exact congrFun (h.others _ hk) _

theorem Closed.asking (h : l.Closed l' call) : l'.asking = l.asking.remove call := by
  funext other
  rw [Table.remove_apply]
  rcases eq_or_ne other.kind call.kind with hk | hk
  · obtain ⟨_, id⟩ := call
    obtain ⟨_, id'⟩ := other
    obtain rfl := hk
    show l'.known _ id' = _
    rw [h.known, Table.remove_apply]
    simp only [Call.mk.injEq, true_and]
    rfl
  · rw [if_neg fun he => hk (congrArg Call.kind he)]
    exact congrFun (h.others _ hk) _

theorem Inv.fresh (inv : l.Inv unfinished) (kind : CallKind) : l.asking ⟨kind, l.next kind⟩ = none :=
  inv.awaited _ (inv.numbered _ (le_refl _))

theorem Inv.called (inv : l.Inv unfinished) (h : l.Called l' kind q) :
    l'.Inv (unfinished.insert ⟨kind, l.next kind⟩ false) where
  apart := h.apart inv.apart (inv.fresh kind)
  numbered call hcall := by
    have hne : call ≠ ⟨kind, l.next kind⟩ := by
      rintro rfl
      exact absurd hcall (not_le.mpr h.lt_next)
    rw [Table.insert_of_ne hne]
    exact inv.numbered call (le_trans (h.le_next _) hcall)
  awaited call hcall := by
    rw [Table.insert_apply] at hcall
    split_ifs at hcall with hne
    rw [h.asking, Table.insert_of_ne hne]
    exact inv.awaited call hcall
  found id hid := by
    rw [Table.insert_apply] at hid
    split_ifs at hid with hne
    · cases hid
    · rw [h.asking, Table.insert_of_ne hne]
      exact inv.found id hid
  ready hready := by
    rw [h.deferredCommands]
    exact inv.ready (h.dhtReady ▸ hready)

/-- A call that has been forgotten, whether libp2p is done with it or not. -/
theorem Inv.closed (inv : l.Inv unfinished) (h : l.Closed l' call) {unfinished' : Unfinished}
    (hothers : ∀ other, other ≠ call → unfinished' other = unfinished other)
    (hnew : unfinished call = none → unfinished' call = none) : l'.Inv unfinished' where
  apart := h.apart inv.apart
  numbered other hother := by
    rw [h.next] at hother
    rcases eq_or_ne other call with rfl | hne
    · exact hnew (inv.numbered _ hother)
    · rw [hothers other hne]
      exact inv.numbered other hother
  awaited other hother := by
    rw [h.asking, Table.remove_apply]
    split_ifs with hne
    · rfl
    · exact inv.awaited other (hothers other hne ▸ hother)
  found id hid := by
    rw [h.asking, Table.remove_apply]
    split_ifs with hne
    · rfl
    · exact inv.found id (hothers _ hne ▸ hid)
  ready hready := by
    rw [h.deferredCommands]
    exact inv.ready (h.dhtReady ▸ hready)

/-! ### Commands -/

section
variable [Primitives]

/-- A command is turned away, or there is a call for it. -/
inductive Handled (l : Loop F) (c : Command) (put : Put) : Loop F × List NodeEffect → Prop
  | refused : c.refused put = [c.ask] → Handled l c put (l, [])
  | called {l' : Loop F} {effect : NodeEffect} (kind : CallKind) : c.refused put = [] → l.Called l' kind c.ask →
      effect.call? = some ⟨kind, l.next kind⟩ → effect.isAnswer = false → Handled l c put (l', [effect])

theorem handleCommand_handled (inv : l.Inv unfinished) (c : Command) (put : Put) :
    l.Handled c put (l.handleCommand c put) := by
  have hget := either_eq_none.mp (inv.fresh .getRecord)
  have hput := either_eq_none.mp (inv.fresh .putRecord)
  unfold handleCommand
  cases c with
  | resolvePeerAddresses peer =>
    refine .called .getRecord rfl ⟨either_insert_left _, fun k hk => ?_, fun k => ?_, Nat.lt_succ_self _, fun apart _ => ⟨apart_insert_left apart.get hget.2 _, apart.put, apart.sync⟩, rfl, rfl⟩ rfl rfl
    · cases k <;> first | rfl | exact absurd rfl hk
    · cases k <;> first | exact Nat.le_succ _ | exact le_refl _
  | announceAddresses addresses =>
    rcases put with reason | ⟨⟩
    · exact .refused rfl
    · refine .called .putRecord rfl ⟨either_insert_left _, fun k hk => ?_, fun k => ?_, Nat.lt_succ_self _, fun apart _ => ⟨apart.get, apart_insert_left apart.put hput.2 _, apart.sync⟩, rfl, rfl⟩ rfl rfl
      · cases k <;> first | rfl | exact absurd rfl hk
      · cases k <;> first | exact Nat.le_succ _ | exact le_refl _
  | sendEnvelope recipient bytes =>
    refine .called .sendEnvelope rfl ⟨map_insert _, fun k hk => ?_, fun k => ?_, Nat.lt_succ_self _, fun apart _ => ⟨apart.get, apart.put, apart.sync⟩, rfl, rfl⟩ rfl rfl
    · cases k <;> first | rfl | exact absurd rfl hk
    · cases k <;> first | exact Nat.le_succ _ | exact le_refl _
  | fetchBlob peer id =>
    refine .called .requestBlob rfl ⟨map_insert _, fun k hk => ?_, fun k => ?_, Nat.lt_succ_self _, fun apart _ => ⟨apart.get, apart.put, apart.sync⟩, rfl, rfl⟩ rfl rfl
    · cases k <;> first | rfl | exact absurd rfl hk
    · cases k <;> first | exact Nat.le_succ _ | exact le_refl _
  | announceUsername username claim =>
    rcases put with reason | ⟨⟩
    · exact .refused rfl
    · refine .called .putRecord rfl ⟨either_insert_right hput.1 _, fun k hk => ?_, fun k => ?_, Nat.lt_succ_self _, fun apart _ => ⟨apart.get, apart_insert_right apart.put hput.1 _, apart.sync⟩, rfl, rfl⟩ rfl rfl
      · cases k <;> first | rfl | exact absurd rfl hk
      · cases k <;> first | exact Nat.le_succ _ | exact le_refl _
  | resolveUsername username =>
    refine .called .getRecord rfl ⟨either_insert_right hget.1 _, fun k hk => ?_, fun k => ?_, Nat.lt_succ_self _, fun apart _ => ⟨apart_insert_right apart.get hget.1 _, apart.put, apart.sync⟩, rfl, rfl⟩ rfl rfl
    · cases k <;> first | rfl | exact absurd rfl hk
    · cases k <;> first | exact Nat.le_succ _ | exact le_refl _

end
/-! ### Reports -/

/-- A report of a call is ignored, answers what the call was for, or leads to another call for it. -/
inductive Reported (l : Loop F) (call : Call) : Loop F × List NodeEffect → Prop
  | ignored : l.asking call = none → Reported l call (l, [])
  | answered {l' : Loop F} {q : Ask} {answer : NodeEffect} {effects : List NodeEffect} : l.asking call = some q →
      l.Closed l' call → q.AnsweredBy answer → effects.filter NodeEffect.isAnswer = [answer] →
      effects.filterMap NodeEffect.call? = [] → Reported l call (l', effects)
  | passedOn {l₁ l₂ : Loop F} {q : Ask} {effect : NodeEffect} (kind : CallKind) : l.asking call = some q →
      l.Closed l₁ call → l₁.Called l₂ kind q → effect.call? = some ⟨kind, l₁.next kind⟩ → effect.isAnswer = false →
      Reported l call (l₂, [effect])

theorem Closed.of_none (h : l.asking call = none) : l.Closed l call where
  known := by
    funext id
    rw [Table.remove_apply]
    split_ifs with hid
    · rw [hid]
      exact h
    · rfl
  others _ _ := rfl
  next _ := rfl
  apart := id
  dhtReady := rfl
  deferredCommands := rfl

theorem closed_resolvePeer {id : ℕ} (h : l.calls.resolveUsername id = none) :
    l.Closed { l with calls := { l.calls with resolvePeer := l.calls.resolvePeer.remove id } } ⟨.getRecord, id⟩ := by
  refine ⟨either_remove_left h, fun k hk => ?_, fun k => ?_, fun apart => ⟨apart_remove_left apart.get, apart.put, apart.sync⟩, rfl, rfl⟩
  · cases k <;> first | rfl | exact absurd rfl hk
  · cases k <;> rfl

theorem closed_resolveUsername {id : ℕ} (h : l.calls.resolvePeer id = none) :
    l.Closed { l with calls := { l.calls with resolveUsername := l.calls.resolveUsername.remove id } } ⟨.getRecord, id⟩ := by
  refine ⟨either_remove_right h, fun k hk => ?_, fun k => ?_, fun apart => ⟨apart_remove_right apart.get, apart.put, apart.sync⟩, rfl, rfl⟩
  · cases k <;> first | rfl | exact absurd rfl hk
  · cases k <;> rfl

theorem closed_announce {id : ℕ} (h : l.calls.announceUsername id = none) :
    l.Closed { l with calls := { l.calls with announce := l.calls.announce.remove id } } ⟨.putRecord, id⟩ := by
  refine ⟨either_remove_left h, fun k hk => ?_, fun k => ?_, fun apart => ⟨apart.get, apart_remove_left apart.put, apart.sync⟩, rfl, rfl⟩
  · cases k <;> first | rfl | exact absurd rfl hk
  · cases k <;> rfl

theorem closed_announceUsername {id : ℕ} (h : l.calls.announce id = none) :
    l.Closed { l with calls := { l.calls with announceUsername := l.calls.announceUsername.remove id } } ⟨.putRecord, id⟩ := by
  refine ⟨either_remove_right h, fun k hk => ?_, fun k => ?_, fun apart => ⟨apart.get, apart_remove_right apart.put, apart.sync⟩, rfl, rfl⟩
  · cases k <;> first | rfl | exact absurd rfl hk
  · cases k <;> rfl

theorem closed_envelopeSend {id : ℕ} :
    l.Closed { l with calls := { l.calls with envelopeSend := l.calls.envelopeSend.remove id } } ⟨.sendEnvelope, id⟩ := by
  refine ⟨map_remove, fun k hk => ?_, fun k => ?_, fun apart => ⟨apart.get, apart.put, apart.sync⟩, rfl, rfl⟩
  · cases k <;> first | rfl | exact absurd rfl hk
  · cases k <;> rfl

theorem closed_blobFetch {id : ℕ} :
    l.Closed { l with calls := { l.calls with blobFetch := l.calls.blobFetch.remove id } } ⟨.requestBlob, id⟩ := by
  refine ⟨map_remove, fun k hk => ?_, fun k => ?_, fun apart => ⟨apart.get, apart.put, apart.sync⟩, rfl, rfl⟩
  · cases k <;> first | rfl | exact absurd rfl hk
  · cases k <;> rfl

theorem closed_chainSyncTip {id : ℕ} {node : Node F} (hnode : node.pending = l.node.pending.removeTip id)
    (h : l.node.pending.chainSyncBlocks id = none) : l.Closed { l with node } ⟨.requestSync, id⟩ := by
  have hnext : node.pending.nextRequestId = l.node.pending.nextRequestId := by rw [hnode]; rfl
  refine ⟨?_, fun k hk => ?_, fun k => ?_, fun apart => ⟨apart.get, apart.put, ?_⟩, rfl, rfl⟩
  · show either _ _ node.pending.chainSyncTip node.pending.chainSyncBlocks = _
    rw [hnode]
    exact either_remove_left h
  · cases k <;> first | rfl | exact absurd rfl hk
  · cases k <;> first | rfl | exact hnext
  · show ∀ k, node.pending.chainSyncTip k = none ∨ node.pending.chainSyncBlocks k = none
    rw [hnode]
    exact apart_remove_left apart.sync

theorem closed_chainSyncBlocks {id : ℕ} {node : Node F} (hnode : node.pending = l.node.pending.removeBlocks id)
    (h : l.node.pending.chainSyncTip id = none) : l.Closed { l with node } ⟨.requestSync, id⟩ := by
  have hnext : node.pending.nextRequestId = l.node.pending.nextRequestId := by rw [hnode]; rfl
  refine ⟨?_, fun k hk => ?_, fun k => ?_, fun apart => ⟨apart.get, apart.put, ?_⟩, rfl, rfl⟩
  · show either _ _ node.pending.chainSyncTip node.pending.chainSyncBlocks = _
    rw [hnode]
    exact either_remove_right h
  · cases k <;> first | rfl | exact absurd rfl hk
  · cases k <;> first | rfl | exact hnext
  · show ∀ k, node.pending.chainSyncTip k = none ∨ node.pending.chainSyncBlocks k = none
    rw [hnode]
    exact apart_remove_right apart.sync

theorem called_awaitTip {peer : PeerId} {node : Node F} (hnode : node.pending = l.node.pending.awaitTip peer) :
    l.Called { l with node } .requestSync (.chainSync peer) := by
  have hfresh := l.node.pending.fresh _ (le_refl _)
  have hnext : l.node.pending.nextRequestId < node.pending.nextRequestId := by
    rw [hnode]
    exact Nat.lt_succ_self _
  refine ⟨?_, fun k hk => ?_, fun k => ?_, hnext, fun apart _ => ⟨apart.get, apart.put, ?_⟩, rfl, rfl⟩
  · show either _ _ node.pending.chainSyncTip node.pending.chainSyncBlocks = _
    rw [hnode]
    exact either_insert_left peer
  · cases k <;> first | rfl | exact absurd rfl hk
  · cases k <;> first | exact le_refl _ | exact hnext.le
  · show ∀ k, node.pending.chainSyncTip k = none ∨ node.pending.chainSyncBlocks k = none
    rw [hnode]
    exact apart_insert_left apart.sync hfresh.2 peer

theorem called_awaitBlocks {peer : PeerId} {node : Node F} (hnode : node.pending = l.node.pending.awaitBlocks peer) :
    l.Called { l with node } .requestSync (.chainSync peer) := by
  have hfresh := l.node.pending.fresh _ (le_refl _)
  have hnext : l.node.pending.nextRequestId < node.pending.nextRequestId := by
    rw [hnode]
    exact Nat.lt_succ_self _
  refine ⟨?_, fun k hk => ?_, fun k => ?_, hnext, fun apart _ => ⟨apart.get, apart.put, ?_⟩, rfl, rfl⟩
  · show either _ _ node.pending.chainSyncTip node.pending.chainSyncBlocks = _
    rw [hnode]
    exact either_insert_right hfresh.1 peer
  · cases k <;> first | rfl | exact absurd rfl hk
  · cases k <;> first | exact le_refl _ | exact hnext.le
  · show ∀ k, node.pending.chainSyncTip k = none ∨ node.pending.chainSyncBlocks k = none
    rw [hnode]
    exact apart_insert_right apart.sync hfresh.1 peer

theorem asking_get {id : ℕ} :
    l.asking ⟨.getRecord, id⟩ = either .peerAddresses .username l.calls.resolvePeer l.calls.resolveUsername id := rfl

theorem asking_put {id : ℕ} : l.asking ⟨.putRecord, id⟩ =
    either (fun _ => .announcement) .usernameAnnouncement l.calls.announce l.calls.announceUsername id := rfl

/-- A loop that forgets a call with an answer to what the call was for. -/
theorem Reported.event {event : CommandEvent} (hq : l.asking call = some q) (hclosed : l.Closed l' call)
    (ha : q.AnsweredBy (.event event)) (hanswer : event.isAnswer = true) : l.Reported call (l', [.event event]) :=
  .answered hq hclosed ha (List.filter_cons_of_pos hanswer) rfl

theorem handleKadEvent_get [Multiaddrs] (apart : l.Apart) (id : ℕ) {result : QueryResult}
    (h : (∃ value, result = .foundRecord value) ∨ result = .getRecordFailed) :
    l.Reported ⟨.getRecord, id⟩ (l.handleKadEvent id result) := by
  unfold handleKadEvent
  rcases hp : l.calls.resolvePeer id with _ | peer
  · rcases hu : l.calls.resolveUsername id with _ | username
    · have hnone : l.asking ⟨.getRecord, id⟩ = none := by rw [asking_get, either_eq_none]; exact ⟨hp, hu⟩
      rcases h with ⟨value, rfl⟩ | rfl <;> simp only [hp, hu] <;> exact .ignored hnone
    · have hsome : l.asking ⟨.getRecord, id⟩ = some (.username username) := by rw [asking_get, either_of_none hp, hu]; rfl
      rcases h with ⟨value, rfl⟩ | rfl <;> simp only [hp, hu]
      · exact .event hsome (closed_resolveUsername hp) (.usernameResolved _ _) rfl
      · exact .event hsome (closed_resolveUsername hp) (.usernameResolutionFailed _) rfl
  · have hu := (apart.get id).resolve_left (by simp [hp])
    have hsome : l.asking ⟨.getRecord, id⟩ = some (.peerAddresses peer) := either_of_some hp
    rcases h with ⟨value, rfl⟩ | rfl <;> simp only [hp]
    · exact .event hsome (closed_resolvePeer hu) (.peerAddressesResolved _ _) rfl
    · exact .event hsome (closed_resolvePeer hu) (.peerAddressResolutionFailed _) rfl

theorem handleKadEvent_put [Multiaddrs] (apart : l.Apart) (id : ℕ) {result : QueryResult}
    (h : result = .putRecordOk ∨ ∃ reason, result = .putRecordFailed reason) :
    l.Reported ⟨.putRecord, id⟩ (l.handleKadEvent id result) := by
  unfold handleKadEvent
  rcases hp : l.calls.announce id with _ | ⟨⟩
  · rcases hu : l.calls.announceUsername id with _ | username
    · have hnone : l.asking ⟨.putRecord, id⟩ = none := by rw [asking_put, either_eq_none]; exact ⟨hp, hu⟩
      rcases h with rfl | ⟨reason, rfl⟩ <;> simp only [hp, hu] <;> exact .ignored hnone
    · have hsome : l.asking ⟨.putRecord, id⟩ = some (.usernameAnnouncement username) := by
        rw [asking_put, either_of_none hp, hu]; rfl
      rcases h with rfl | ⟨reason, rfl⟩ <;> simp only [hp, hu]
      · exact .event hsome (closed_announceUsername hp) (.usernameAnnounced _) rfl
      · exact .event hsome (closed_announceUsername hp) (.usernameAnnouncementFailed _ _) rfl
  · have hu := (apart.put id).resolve_left (by simp [hp])
    have hsome : l.asking ⟨.putRecord, id⟩ = some .announcement := either_of_some hp
    rcases h with rfl | ⟨reason, rfl⟩ <;> simp only [hp]
    · exact .event hsome (closed_announce hu) .addressesAnnounced rfl
    · exact .event hsome (closed_announce hu) (.addressAnnouncementFailed _) rfl

theorem handleEnvelopeReport_reported {id : ℕ} {report : PeerId → CommandEvent}
    (h : ∀ peer, Ask.AnsweredBy (.delivery peer) (.event (report peer)) ∧ (report peer).isAnswer = true) :
    l.Reported ⟨.sendEnvelope, id⟩ (l.handleEnvelopeReport id report) := by
  have hasking : l.asking ⟨.sendEnvelope, id⟩ = (l.calls.envelopeSend id).map .delivery := rfl
  unfold handleEnvelopeReport
  rcases hp : l.calls.envelopeSend id with _ | peer
  · exact .ignored (by rw [hasking, hp]; rfl)
  · exact .event (by rw [hasking, hp]; rfl) closed_envelopeSend (h peer).1 (h peer).2

theorem handleBlobReport_reported {id : ℕ} {report : PeerId → List UInt8 → CommandEvent}
    (h : ∀ peer blob, Ask.AnsweredBy (.blob peer blob) (.event (report peer blob)) ∧ (report peer blob).isAnswer = true) :
    l.Reported ⟨.requestBlob, id⟩ (l.handleBlobReport id report) := by
  have hasking : l.asking ⟨.requestBlob, id⟩ = (l.calls.blobFetch id).map fun b => .blob b.1 b.2 := rfl
  unfold handleBlobReport
  rcases hp : l.calls.blobFetch id with _ | ⟨peer, blob⟩
  · exact .ignored (by rw [hasking, hp]; rfl)
  · exact .event (by rw [hasking, hp]; rfl) closed_blobFetch (h peer blob).1 (h peer blob).2

theorem asking_sync {id : ℕ} : l.asking ⟨.requestSync, id⟩ =
    either .chainSync .chainSync l.node.pending.chainSyncTip l.node.pending.chainSyncBlocks id := rfl

theorem handleSyncFailure_reported (apart : l.Apart) (id : ℕ) (reason : String) :
    l.Reported ⟨.requestSync, id⟩ (l.handleSyncFailure id reason) := by
  unfold handleSyncFailure
  rcases ht : l.node.pending.chainSyncTip id with _ | peer
  · rcases hb : l.node.pending.chainSyncBlocks id with _ | peer
    · simp only [ht, hb]
      refine .ignored ?_
      rw [asking_sync, either_eq_none]
      exact ⟨ht, hb⟩
    · simp only [ht, hb]
      have hsome : l.asking ⟨.requestSync, id⟩ = some (.chainSync peer) := by rw [asking_sync, either_of_none ht, hb]; rfl
      exact .answered hsome (closed_chainSyncBlocks rfl ht) (.chainSyncFailed _ _) rfl rfl
  · have hb := (apart.sync id).resolve_left (by simp [ht])
    simp only [ht]
    exact .answered (either_of_some ht) (closed_chainSyncTip rfl hb) (.chainSyncFailed _ _) rfl rfl

end Loop

/-! ### The ledger -/

namespace Node
variable {F : Type} [Float64 F] [Primitives] {n : Node F}

/-- A block is no business of a sync. -/
theorem applyAndBroadcastBlock_quiet (n : Node F) (block : Block) (now : ℕ) (commit : Commit) :
    (n.applyAndBroadcastBlock block now commit).1.pending = n.pending ∧ ∀ outcome effects,
      (n.applyAndBroadcastBlock block now commit).2 = .ok (outcome, effects) →
        ∀ e ∈ effects, e.isAnswer = false ∧ e.call? = none := by
  unfold applyAndBroadcastBlock
  rcases n.chainStore.tryApply block now commit with ⟨s, (e | _ | _) | o⟩
  · refine ⟨rfl, fun outcome effects h => ?_⟩
    cases h
    simp [LedgerEffect.isAnswer, LedgerEffect.call?]
  · exact ⟨rfl, fun outcome effects h => by cases h⟩
  · exact ⟨rfl, fun outcome effects h => by cases h⟩
  · cases o with
    | alreadyKnown =>
      refine ⟨rfl, fun outcome effects h => ?_⟩
      cases h
      simp
    | addedToFork =>
      refine ⟨rfl, fun outcome effects h => ?_⟩
      cases h
      simp [LedgerEffect.isAnswer, LedgerEffect.call?]
    | extendedTip | reorgedTo =>
      simp only [reduceCtorEq, ↓reduceIte]
      split
      · exact ⟨rfl, fun outcome effects h => by cases h⟩
      · refine ⟨rfl, fun outcome effects h => ?_⟩
        cases h
        simp [LedgerEffect.isAnswer, LedgerEffect.call?, P2pEvent.isAnswer]

theorem miningResult_quiet (n : Node F) (generation : ℕ) (block : Block) (now : ℕ) (commit : Commit) :
    (n.miningResult generation block now commit).1.pending = n.pending ∧ ∀ effects,
      (n.miningResult generation block now commit).2 = .ok effects → ∀ e ∈ effects, e.isAnswer = false ∧ e.call? = none := by
  obtain ⟨hpending, hquiet⟩ := n.applyAndBroadcastBlock_quiet block now commit
  unfold miningResult
  split_ifs
  · refine ⟨rfl, fun effects h => ?_⟩
    cases h
    simp
  · rcases hr : n.applyAndBroadcastBlock block now commit with ⟨n', e | ⟨outcome, effects⟩⟩
    · rw [hr] at hpending
      exact ⟨hpending, fun effects h => by cases h⟩
    · rw [hr] at hpending hquiet
      have hold := hquiet _ _ rfl
      have hmined : (LedgerEffect.newBlockMined block.header.height.toNat).isAnswer = false ∧
          (LedgerEffect.newBlockMined block.header.height.toNat).call? = none := ⟨rfl, rfl⟩
      rcases outcome with _ | (_ | _ | _ | _)
      all_goals
        refine ⟨hpending, fun effects' h e he => ?_⟩
        cases h
        first
          | exact hold e he
          | exact (List.mem_append.mp he).elim (hold e) fun he => List.mem_singleton.mp he ▸ hmined

/-- What is no part of a sync leaves the syncs alone. -/
theorem handle_quiet {e : LedgerEvent F} (hask : ∀ peer, e ≠ .requestChainSync peer)
    (hresponse : ∀ id response now commit, e ≠ .chainSyncResponse id response now commit) :
    (n.handle e).1.pending = n.pending ∧ ∀ effects, (n.handle e).2 = .ok effects →
      ∀ effect ∈ effects, effect.isAnswer = false ∧ effect.call? = none := by
  have hblock (block : Block) (now : ℕ) (commit : Commit) :
      (n.applyAndBroadcastBlock block now commit).1.pending = n.pending ∧ ∀ effects,
        (n.applyAndBroadcastBlock block now commit).2.map Prod.snd = .ok effects →
          ∀ effect ∈ effects, effect.isAnswer = false ∧ effect.call? = none := by
    obtain ⟨hpending, hquiet⟩ := n.applyAndBroadcastBlock_quiet block now commit
    refine ⟨hpending, fun effects h => ?_⟩
    rcases hr : (n.applyAndBroadcastBlock block now commit).2 with e | ⟨outcome, effects'⟩
    · rw [hr] at h
      cases h
    · rw [hr] at h
      cases h
      exact hquiet _ _ hr
  cases e with
  | submitUsernameClaim tx =>
    show (n.submitUsernameClaim tx).1.pending = n.pending ∧ ∀ effects, (n.submitUsernameClaim tx).2 = .ok effects → _
    unfold submitUsernameClaim
    rcases tx.verifySelfContained with (e | _ | _) | ⟨⟩
    all_goals
      refine ⟨rfl, fun effects h => ?_⟩
      cases h
    all_goals simp [LedgerEffect.isAnswer, LedgerEffect.call?]
  | submitMinedBlock block now commit => exact hblock block now commit
  | gossipedBlock block now commit => exact hblock block now commit
  | startMining | stopMining =>
    refine ⟨rfl, fun effects h => ?_⟩
    cases h
    simp
  | requestChainSync peer => exact absurd rfl (hask peer)
  | gossipedTransaction tx =>
    refine ⟨?_, fun effects h => ?_⟩
    · show (n.gossipedTransaction tx).pending = _
      unfold gossipedTransaction
      rcases tx.verifySelfContained with _ | _ <;> rfl
    · cases h
      simp
  | miningResult generation block now commit => exact n.miningResult_quiet generation block now commit
  | chainSyncResponse id response now commit => exact absurd rfl (hresponse id response now commit)

end Node
namespace Loop
variable {F : Type} [Float64 F] [Primitives] {l : Loop F}

/-- A node that has changed in other ways too. -/
theorem handleBlocks_pending (n : Node F) (peer : PeerId) (response : ChainSyncResponse F) (now : ℕ → ℕ) (commit : ℕ → Commit) :
    (n.handleBlocks peer response now commit).1.pending = n.pending := by
  unfold Node.handleBlocks
  split
  · dsimp only
    split
    · rfl
    · rfl
    · split <;> rfl
  · rfl

theorem handleBlocks_answers {n : Node F} {peer : PeerId} {response : ChainSyncResponse F} {now : ℕ → ℕ} {commit : ℕ → Commit}
    {effects : List Effect} (h : (n.handleBlocks peer response now commit).2 = .ok effects) :
    ∃ answer, Ask.AnsweredBy (.chainSync peer) answer ∧
      ((effects.map LedgerEffect.sync).map NodeEffect.ledger).filter NodeEffect.isAnswer = [answer] ∧
      ((effects.map LedgerEffect.sync).map NodeEffect.ledger).filterMap NodeEffect.call? = [] := by
  unfold Node.handleBlocks at h
  split at h
  · dsimp only at h
    split at h
    · cases h
      exact ⟨_, .chainSyncFailed _ _, rfl, rfl⟩
    · cases h
    · split at h
      · cases h
      · cases h
        exact ⟨_, .chainSyncCompleted _ _, rfl, rfl⟩
  · cases h
    exact ⟨_, .chainSyncFailed _ _, rfl, rfl⟩

theorem handleChainSyncResponse_reported (apart : l.Apart) {id : ℕ} {response : ChainSyncResponse F} {now : ℕ → ℕ}
    {commit : ℕ → Commit} {effects : List Effect}
    (h : (l.node.handleChainSyncResponse id response now commit).2 = .ok effects) :
    l.Reported ⟨.requestSync, id⟩ ({ l with node := (l.node.handleChainSyncResponse id response now commit).1 },
      (effects.map LedgerEffect.sync).map NodeEffect.ledger) := by
  unfold Node.handleChainSyncResponse at h ⊢
  rcases ht : l.node.pending.chainSyncTip id with _ | peer
  · rcases hb : l.node.pending.chainSyncBlocks id with _ | peer
    · simp only [ht, hb] at h ⊢
      cases h
      refine .ignored ?_
      rw [asking_sync, either_eq_none]
      exact ⟨ht, hb⟩
    · simp only [ht, hb] at h ⊢
      have hsome : l.asking ⟨.requestSync, id⟩ = some (.chainSync peer) := by rw [asking_sync, either_of_none ht, hb]; rfl
      obtain ⟨answer, hanswer, hfilter, hcalls⟩ := handleBlocks_answers h
      exact .answered hsome (closed_chainSyncBlocks (handleBlocks_pending _ _ _ _ _) ht) hanswer hfilter hcalls
  · have hb := (apart.sync id).resolve_left (by simp [ht])
    have hsome : l.asking ⟨.requestSync, id⟩ = some (.chainSync peer) := either_of_some ht
    simp only [ht] at h ⊢
    rcases hr : ({ l.node with pending := l.node.pending.removeTip id } : Node F).handleTip peer response with e | ⟨pending, effects'⟩
    · simp only [hr] at h
      cases h
    · simp only [hr] at h ⊢
      cases h
      unfold Node.handleTip at hr
      split at hr
      · obtain ⟨work, -, hr⟩ := except_bind_eq_ok.mp hr
        obtain ⟨height, -, hr⟩ := except_bind_eq_ok.mp hr
        split_ifs at hr
        · cases hr
          exact .answered hsome (closed_chainSyncTip rfl hb) (.chainSyncCompleted _ _) rfl rfl
        · -- The sync goes on with a request for blocks.
          cases hr
          have hclosed : l.Closed { l with node := { l.node with pending := l.node.pending.removeTip id } } ⟨.requestSync, id⟩ :=
            closed_chainSyncTip rfl hb
          exact .passedOn .requestSync hsome hclosed (called_awaitBlocks rfl) rfl rfl
      · cases hr
        exact .answered hsome (closed_chainSyncTip rfl hb) (.chainSyncFailed _ _) rfl rfl

/-! ### The account of a run -/

/-- Where the commands of a run have gone, with those that still wait. -/
structure Accounts (l : Loop F) (unfinished : Unfinished) (asked refused : Multiset Ask) (queue : List Ask)
    (answers : List NodeEffect) : Prop where
  inv : l.Inv unfinished
  account : Lib.Account Ask.AnsweredBy asked refused queue l.asking answers

omit [Float64 F] [Primitives] in
theorem started_append {unfinished : Unfinished} {effects effects' : List NodeEffect} :
    unfinished.started (effects ++ effects') = (unfinished.started effects).started effects' := by
  unfold Unfinished.started
  rw [List.filterMap_append, List.map_append, Table.insertAll_append]

section
omit [Float64 F] [Primitives]
variable {l' : Loop F} {unfinished unfinished' : Unfinished} {asked refused : Multiset Ask} {queue : List Ask}
  {answers effects : List NodeEffect} {kind : CallKind} {call : Call} {q : Ask} {effect : NodeEffect}

theorem started_quiet (h : ∀ e ∈ effects, e.call? = none) : unfinished.started effects = unfinished := by
  unfold Unfinished.started
  rw [List.filterMap_eq_nil_iff.mpr h]
  rfl

theorem started_singleton (h : effect.call? = some call) : unfinished.started [effect] = unfinished.insert call false := by
  unfold Unfinished.started
  simp only [List.filterMap_cons, h, List.filterMap_nil, List.map_cons, List.map_nil]
  rfl

theorem Accounts.handled {c : Command} {put : Put} {r : Loop F × List NodeEffect} [Primitives]
    (a : l.Accounts unfinished asked refused queue answers) (h : l.Handled c put r) :
    r.1.Accounts (unfinished.started r.2) (c.ask ::ₘ asked) (c.refused put + refused) queue
      (answers ++ r.2.filter NodeEffect.isAnswer) := by
  cases h with
  | refused h =>
    rw [h, List.filter_nil, List.append_nil]
    exact ⟨a.inv, a.account.refuse c.ask⟩
  | @called l' effect kind hrefused hcalled hcall hanswer =>
    rw [hrefused, started_singleton hcall, List.filter_cons_of_neg (by simp [hanswer]), List.filter_nil, List.append_nil,
      Multiset.coe_nil, zero_add]
    refine ⟨a.inv.called hcalled, ?_⟩
    rw [hcalled.asking]
    exact a.account.call (a.inv.fresh kind) c.ask

theorem Accounts.dequeued {c : Command} {put : Put} {r : Loop F × List NodeEffect} [Primitives]
    (a : l.Accounts unfinished asked refused (c.ask :: queue) answers) (h : l.Handled c put r) :
    r.1.Accounts (unfinished.started r.2) asked (c.refused put + refused) queue
      (answers ++ r.2.filter NodeEffect.isAnswer) := by
  cases h with
  | refused h =>
    rw [h, List.filter_nil, List.append_nil]
    exact ⟨a.inv, a.account.dequeue_refuse⟩
  | @called l' effect kind hrefused hcalled hcall hanswer =>
    rw [hrefused, started_singleton hcall, List.filter_cons_of_neg (by simp [hanswer]), List.filter_nil, List.append_nil,
      Multiset.coe_nil, zero_add]
    refine ⟨a.inv.called hcalled, ?_⟩
    rw [hcalled.asking]
    exact a.account.dequeue (a.inv.fresh kind)

theorem Handled.waiting {c : Command} {put : Put} {r : Loop F × List NodeEffect} [Primitives] (h : l.Handled c put r) :
    r.1.dhtReady = l.dhtReady ∧ r.1.deferredCommands = l.deferredCommands := by
  cases h with
  | refused h => exact ⟨rfl, rfl⟩
  | called kind hrefused hcalled hcall hanswer => exact ⟨hcalled.dhtReady, hcalled.deferredCommands⟩

/-- The commands that waited are handled one after the other. -/
theorem Accounts.drained [Primitives] (put : ℕ → Put) (commands : List Command)
    (a : l.Accounts unfinished asked refused (commands.map Command.ask) answers) :
    (l.drain put commands).1.Accounts (unfinished.started (l.drain put commands).2) asked
      (refusedOf put commands + refused) [] (answers ++ (l.drain put commands).2.filter NodeEffect.isAnswer) ∧
    (l.drain put commands).1.deferredCommands = l.deferredCommands := by
  induction commands generalizing l unfinished refused answers put with
  | nil =>
    refine ⟨?_, rfl⟩
    rw [drain, refusedOf, List.filter_nil, List.append_nil, Multiset.coe_nil, zero_add, started_quiet (by simp)]
    exact a
  | cons c commands ih =>
    have h := handleCommand_handled a.inv c (put 0)
    obtain ⟨a', hdeferred⟩ := ih (fun i => put (i + 1)) (a.dequeued h)
    rw [drain, refusedOf, started_append, List.filter_append, ← List.append_assoc, ← Multiset.coe_add,
      add_comm (c.refused (put 0) : Multiset Ask), add_assoc]
    exact ⟨a', hdeferred.trans h.waiting.2⟩

theorem Accounts.reported {r : Loop F × List NodeEffect} (a : l.Accounts unfinished asked refused queue answers)
    (h : l.Reported call r) (hothers : ∀ other, other ≠ call → unfinished' other = unfinished other)
    (hnew : unfinished call = none → unfinished' call = none) :
    r.1.Accounts (unfinished'.started r.2) asked refused queue (answers ++ r.2.filter NodeEffect.isAnswer) ∧
      r.1.deferredCommands = l.deferredCommands := by
  cases h with
  | ignored hnone =>
    rw [List.filter_nil, List.append_nil, started_quiet (by simp)]
    exact ⟨⟨a.inv.closed (.of_none hnone) hothers hnew, a.account⟩, rfl⟩
  | answered hq hclosed hanswer hfilter hcalls =>
    rw [hfilter, started_quiet (List.filterMap_eq_nil_iff.mp hcalls)]
    refine ⟨⟨a.inv.closed hclosed hothers hnew, ?_⟩, hclosed.deferredCommands⟩
    rw [hclosed.asking]
    exact a.account.answer hq hanswer
  | @passedOn l₁ l₂ q effect kind hq hclosed hcalled hcall hanswer =>
    have inv := a.inv.closed hclosed hothers hnew
    rw [started_singleton hcall, List.filter_cons_of_neg (by simp [hanswer]), List.filter_nil, List.append_nil]
    refine ⟨⟨inv.called hcalled, ?_⟩, hcalled.deferredCommands.trans hclosed.deferredCommands⟩
    obtain ⟨asked', rfl, account⟩ := a.account.take hq
    rw [hcalled.asking]
    refine Lib.Account.call ?_ (inv.fresh kind) q
    rw [hclosed.asking]
    exact account

/-- The last report of a call. -/
theorem Accounts.finished {r : Loop F × List NodeEffect} (a : l.Accounts unfinished asked refused queue answers)
    (h : l.Reported call r) :
    r.1.Accounts (Unfinished.started (unfinished.remove call) r.2) asked refused queue (answers ++ r.2.filter NodeEffect.isAnswer) ∧
      r.1.deferredCommands = l.deferredCommands :=
  a.reported h (fun other hne => by rw [Table.remove_apply, if_neg hne]) fun _ => Table.remove_self

/-- What is not pending is no part of the account. -/
theorem Accounts.of_node (a : l.Accounts unfinished asked refused queue answers) {node : Node F}
    (h : node.pending = l.node.pending) : ({ l with node } : Loop F).Accounts unfinished asked refused queue answers := by
  have hknown : ({ l with node } : Loop F).known = l.known := by
    funext kind
    cases kind <;> first | rfl | exact congrArg (fun p : Pending => either _ _ p.chainSyncTip p.chainSyncBlocks) h
  have hasking : ({ l with node } : Loop F).asking = l.asking := by
    unfold asking
    rw [hknown]
  have hnext : ({ l with node } : Loop F).next = l.next := by
    funext kind
    cases kind <;> first | rfl | exact congrArg Pending.nextRequestId h
  refine ⟨⟨⟨a.inv.apart.get, a.inv.apart.put, ?_⟩, ?_, ?_, ?_, a.inv.ready⟩, hasking ▸ a.account⟩
  · show ∀ id, node.pending.chainSyncTip id = none ∨ node.pending.chainSyncBlocks id = none
    rw [h]
    exact a.inv.apart.sync
  · rw [hnext]
    exact a.inv.numbered
  · rw [hasking]
    exact a.inv.awaited
  · rw [hasking]
    exact a.inv.found

/-- Effects that are no part of what commands ask for. -/
theorem Accounts.quiet (a : l.Accounts unfinished asked refused queue answers)
    (h : ∀ e ∈ effects, e.isAnswer = false ∧ e.call? = none) :
    l.Accounts (unfinished.started effects) asked refused queue (answers ++ effects.filter NodeEffect.isAnswer) := by
  rw [started_quiet fun e he => (h e he).2, List.filter_eq_nil_iff.mpr fun e he => by simp [(h e he).1], List.append_nil]
  exact a

end

theorem Accounts.command {unfinished : Unfinished} {asked refused : Multiset Ask} {answers effects : List NodeEffect}
    [Multiaddrs] {c : Command} {put : Put} (a : l.Accounts unfinished asked refused (l.deferredCommands.map Command.ask) answers)
    (h : (l.handle (.command c put)).2 = .ok effects) :
    (l.handle (.command c put)).1.Accounts (unfinished.started effects) (c.ask ::ₘ asked)
      (l.refused (.command c put) + refused) ((l.handle (.command c put)).1.deferredCommands.map Command.ask)
      (answers ++ effects.filter NodeEffect.isAnswer) := by
  have hturn : l.handle (.command c put) =
      if !l.dhtReady && c.needsDhtPeer then ({ l with deferredCommands := l.deferredCommands ++ [c] }, .ok [])
      else ((l.handleCommand c put).1, .ok (l.handleCommand c put).2) := rfl
  have hrefused : l.refused (.command c put) = if !l.dhtReady && c.needsDhtPeer then [] else c.refused put := rfl
  rw [hturn] at h ⊢
  rw [hrefused]
  by_cases hwaits : (!l.dhtReady && c.needsDhtPeer) = true
  · rw [if_pos hwaits] at h ⊢
    rw [if_pos hwaits]
    cases h
    rw [Multiset.coe_nil, zero_add, List.filter_nil, List.append_nil, started_quiet (by simp), List.map_append]
    have hready : l.dhtReady = false := by
      rw [Bool.and_eq_true, Bool.not_eq_true'] at hwaits
      exact hwaits.1
    refine ⟨⟨⟨a.inv.apart.get, a.inv.apart.put, a.inv.apart.sync⟩, a.inv.numbered, a.inv.awaited, a.inv.found, fun h => ?_⟩,
      a.account.enqueue c.ask⟩
    exact absurd (hready.symm.trans h) (by simp)
  · rw [if_neg hwaits] at h ⊢
    rw [if_neg hwaits]
    cases h
    have hhandled := handleCommand_handled a.inv c put
    dsimp only
    rw [hhandled.waiting.2]
    exact a.handled hhandled

theorem Accounts.connected {unfinished : Unfinished} {asked refused : Multiset Ask} {answers effects : List NodeEffect}
    [Multiaddrs] {peer : PeerId} {put : ℕ → Put}
    (a : l.Accounts unfinished asked refused (l.deferredCommands.map Command.ask) answers)
    (h : (l.handle (.connectionEstablished peer put)).2 = .ok effects) :
    (l.handle (.connectionEstablished peer put)).1.Accounts (unfinished.started effects) asked
      (l.refused (.connectionEstablished peer put) + refused)
      ((l.handle (.connectionEstablished peer put)).1.deferredCommands.map Command.ask)
      (answers ++ effects.filter NodeEffect.isAnswer) := by
  have hquiet : ∀ e ∈ [NodeEffect.event (.peerConnected peer)], e.isAnswer = false ∧ e.call? = none := by
    intro e he
    rw [List.mem_singleton.mp he]
    exact ⟨rfl, rfl⟩
  have hturn : l.handle (.connectionEstablished peer put) =
      if l.dhtReady then (l, .ok [.event (.peerConnected peer)])
      else ((({ l with dhtReady := true, deferredCommands := [] } : Loop F).drain put l.deferredCommands).1,
        .ok ((({ l with dhtReady := true, deferredCommands := [] } : Loop F).drain put l.deferredCommands).2 ++
          [.event (.peerConnected peer)])) := rfl
  have hrefused : l.refused (.connectionEstablished peer put) = if l.dhtReady then [] else refusedOf put l.deferredCommands := rfl
  rw [hturn] at h ⊢
  rw [hrefused]
  by_cases hready : l.dhtReady = true
  · rw [if_pos hready] at h ⊢
    rw [if_pos hready]
    cases h
    rw [Multiset.coe_nil, zero_add]
    exact a.quiet hquiet
  · rw [if_neg hready] at h ⊢
    rw [if_neg hready]
    cases h
    have a₀ : ({ l with dhtReady := true, deferredCommands := [] } : Loop F).Accounts unfinished asked refused
        (l.deferredCommands.map Command.ask) answers :=
      ⟨⟨⟨a.inv.apart.get, a.inv.apart.put, a.inv.apart.sync⟩, a.inv.numbered, a.inv.awaited, a.inv.found, fun _ => rfl⟩, a.account⟩
    obtain ⟨a', hdeferred⟩ := a₀.drained put l.deferredCommands
    dsimp only
    rw [hdeferred, List.map_nil, started_append, List.filter_append, ← List.append_assoc]
    exact a'.quiet hquiet

theorem Accounts.ledger {unfinished : Unfinished} {asked refused : Multiset Ask} {answers effects : List NodeEffect}
    [Multiaddrs] {e : LedgerEvent F} (a : l.Accounts unfinished asked refused (l.deferredCommands.map Command.ask) answers)
    (h : (l.handle (.ledger e)).2 = .ok effects) :
    (l.handle (.ledger e)).1.Accounts (((LoopEvent.ledger e).reported unfinished).started effects)
      ((LoopEvent.ledger e).asks + asked) refused (l.deferredCommands.map Command.ask)
      (answers ++ effects.filter NodeEffect.isAnswer) := by
  have hturn : l.handle (.ledger e) = ({ l with node := (l.node.handle e).1 }, (l.node.handle e).2.map (·.map .ledger)) := rfl
  rw [hturn] at h ⊢
  dsimp only at h ⊢
  by_cases hask : ∃ peer, e = .requestChainSync peer
  · obtain ⟨peer, rfl⟩ := hask
    cases h
    have hcalled : l.Called { l with node := (l.node.handle (.requestChainSync peer)).1 } .requestSync (.chainSync peer) :=
      called_awaitTip rfl
    refine ⟨a.inv.called hcalled, ?_⟩
    rw [hcalled.asking]
    exact (List.append_nil answers).symm ▸ a.account.call (a.inv.fresh .requestSync) (.chainSync peer)
  by_cases hresponse : ∃ id response now commit, e = .chainSyncResponse id response now commit
  · obtain ⟨id, response, now, commit, rfl⟩ := hresponse
    have heffects : ∃ effects', (l.node.handleChainSyncResponse id response now commit).2 = .ok effects' ∧
        effects = (effects'.map LedgerEffect.sync).map NodeEffect.ledger := by
      have hnode : (l.node.handle (.chainSyncResponse id response now commit)).2 =
          (l.node.handleChainSyncResponse id response now commit).2.map (·.map .sync) := rfl
      rw [hnode] at h
      rcases hr : (l.node.handleChainSyncResponse id response now commit).2 with e | effects'
      · rw [hr] at h
        cases h
      · rw [hr] at h
        exact ⟨effects', rfl, (Except.ok.inj h).symm⟩
    obtain ⟨effects', hok, rfl⟩ := heffects
    have hasks : (LoopEvent.ledger (.chainSyncResponse id response now commit) : LoopEvent F).asks = 0 := rfl
    rw [hasks, zero_add]
    exact (a.finished (handleChainSyncResponse_reported a.inv.apart hok)).1
  · push Not at hask hresponse
    obtain ⟨hpending, hquiet⟩ := l.node.handle_quiet hask hresponse
    rcases hr : (l.node.handle e).2 with fault | effects'
    · rw [hr] at h
      cases h
    rw [hr] at h
    obtain rfl : effects'.map NodeEffect.ledger = effects := Except.ok.inj h
    have a' : ({ l with node := (l.node.handle e).1 } : Loop F).Accounts unfinished asked refused
        (l.deferredCommands.map Command.ask) answers := a.of_node hpending
    have hasks : (LoopEvent.ledger e).asks = 0 := by
      cases e <;> first | rfl | exact absurd rfl (hask _)
    have hreported : (LoopEvent.ledger e).reported unfinished = unfinished := by
      cases e <;> first | rfl | exact absurd rfl (hresponse _ _ _ _)
    rw [hasks, zero_add, hreported]
    refine a'.quiet fun effect hmem => ?_
    obtain ⟨e', he', rfl⟩ := List.mem_map.mp hmem
    exact hquiet _ hr e' he'

theorem Accounts.turn {unfinished : Unfinished} {asked refused : Multiset Ask} {answers effects : List NodeEffect}
    [Multiaddrs] {e : LoopEvent F} (a : l.Accounts unfinished asked refused (l.deferredCommands.map Command.ask) answers)
    (hp : e.Possible unfinished) (h : (l.handle e).2 = .ok effects) :
    (l.handle e).1.Accounts ((e.reported unfinished).started effects) (e.asks + asked) (l.refused e + refused)
      ((l.handle e).1.deferredCommands.map Command.ask) (answers ++ effects.filter NodeEffect.isAnswer) := by
  -- The report of a call that is finished then.
  have hreport {call : Call} {r : Loop F × List NodeEffect} (hr : l.Reported call r) :
      r.1.Accounts (Unfinished.started (unfinished.remove call) r.2) (0 + asked) (([] : List Ask) + refused)
        (r.1.deferredCommands.map Command.ask) (answers ++ r.2.filter NodeEffect.isAnswer) := by
    obtain ⟨a', hdeferred⟩ := a.finished hr
    rw [hdeferred, zero_add, Multiset.coe_nil, zero_add]
    exact a'
  cases e with
  | command c put => exact a.command h
  | connectionEstablished peer put =>
    rw [show (LoopEvent.connectionEstablished peer put : LoopEvent F).asks = 0 from rfl, zero_add]
    exact a.connected h
  | queryProgressed id result =>
    cases h
    cases result with
    | foundRecord value =>
      have hknown : unfinished ⟨.getRecord, id⟩ ≠ none := hp _ rfl
      obtain ⟨a', hdeferred⟩ := a.reported (handleKadEvent_get a.inv.apart id (.inl ⟨value, rfl⟩))
        (fun other hne => Table.insert_of_ne hne) fun hnone => absurd hnone hknown
      have hrest : (LoopEvent.queryProgressed id (.foundRecord value) : LoopEvent F).asks + asked = asked := zero_add _
      have hnone : (l.refused (.queryProgressed id (.foundRecord value)) : Multiset Ask) + refused = refused := zero_add _
      rw [hrest, hnone, show (l.handle (.queryProgressed id (.foundRecord value))).1 =
        (l.handleKadEvent id (.foundRecord value)).1 from rfl, hdeferred]
      exact a'
    | finishedWithNoAdditionalRecord => exact hreport (.ignored (a.inv.found id hp))
    | getRecordFailed => exact hreport (handleKadEvent_get a.inv.apart id (.inr rfl))
    | putRecordOk => exact hreport (handleKadEvent_put a.inv.apart id (.inl rfl))
    | putRecordFailed reason => exact hreport (handleKadEvent_put a.inv.apart id (.inr ⟨reason, rfl⟩))
  | envelopeRequest sender bytes =>
    cases h
    have hrest : (LoopEvent.envelopeRequest sender bytes : LoopEvent F).asks + asked = asked := zero_add _
    have hnone : (l.refused (.envelopeRequest sender bytes) : Multiset Ask) + refused = refused := zero_add _
    rw [hrest, hnone]
    refine a.quiet fun e he => ?_
    rcases List.mem_pair.mp he with rfl | rfl <;> exact ⟨rfl, rfl⟩
  | envelopeResponse id =>
    cases h
    exact hreport (handleEnvelopeReport_reported fun _ => ⟨.envelopeDelivered _, rfl⟩)
  | envelopeFailure id reason =>
    cases h
    exact hreport (handleEnvelopeReport_reported fun _ => ⟨.envelopeDeliveryFailed _ _, rfl⟩)
  | blobResponse id response =>
    cases response with
    | found bytes =>
      cases h
      exact hreport (handleBlobReport_reported fun _ _ => ⟨.blobFetched _ _ _, rfl⟩)
    | notFound =>
      cases h
      exact hreport (handleBlobReport_reported fun _ _ => ⟨.blobFetchFailed _ _ _, rfl⟩)
  | blobFailure id reason =>
    cases h
    exact hreport (handleBlobReport_reported fun _ _ => ⟨.blobFetchFailed _ _ _, rfl⟩)
  | ledger e =>
    rw [show l.refused (.ledger e) = [] from rfl, Multiset.coe_nil, zero_add]
    exact a.ledger h
  | chainSyncFailure id reason =>
    cases h
    exact hreport (handleSyncFailure_reported a.inv.apart id reason)

theorem Runs.accounts [Multiaddrs] {asked refused : Multiset Ask} {answers : List NodeEffect} {unfinished : Unfinished}
    (h : Runs l asked refused answers unfinished) :
    l.Accounts unfinished asked refused (l.deferredCommands.map Command.ask) answers := by
  induction h with
  | start localPeer chainStore =>
    refine ⟨⟨⟨fun _ => .inl rfl, fun _ => .inl rfl, fun _ => .inl rfl⟩, fun _ _ => rfl, fun call _ => ?_, fun _ h => ?_, fun _ => rfl⟩, ?_⟩
    · obtain ⟨kind, id⟩ := call
      cases kind <;> rfl
    · cases h
    · have hasking : (Loop.start localPeer chainStore).asking = Table.empty := by
        funext ⟨kind, id⟩
        cases kind <;> rfl
      rw [hasking]
      exact .empty
  | turn e _ hp hok ih => exact ih.turn hp hok

end Loop

/-- No command has two answers, and no answer is without its command. A command waits only as long as there has been no
connection. When all calls have ended, each command has one answer exactly when no record was refused at once and no
command waits. -/
theorem answered_once_iff {F : Type} [Float64 F] [Primitives] [Multiaddrs] {l : Loop F} {asked refused : Multiset Ask}
    {answers : List NodeEffect} {unfinished : Unfinished} (h : Loop.Runs l asked refused answers unfinished) :
    (∃ answered ≤ asked, Multiset.Rel Ask.AnsweredBy answered answers) ∧
      (l.dhtReady = true → l.deferredCommands = []) ∧
      (unfinished = Table.empty →
        (Multiset.Rel Ask.AnsweredBy asked answers ↔ refused = 0 ∧ l.deferredCommands = [])) := by
  have a := h.accounts
  refine ⟨?_, a.inv.ready, fun hunfinished => ?_⟩
  · obtain ⟨answered, pending, rfl, hfits, -⟩ := a.account
    exact ⟨answered, Multiset.le_add_right _ _, hfits⟩
  · have hasking : l.asking = Table.empty := funext fun call => a.inv.awaited call (by rw [hunfinished]; rfl)
    have account := a.account
    rw [hasking] at account
    rw [account.settled_iff, List.map_eq_nil_iff]

section
attribute [local instance] unsigned

/-- Every text is taken for an address. -/
@[reducible] def anyText : Multiaddrs := ⟨some⟩

attribute [local instance] anyText

theorem answered_once_iff_announced : ∃ (l : Loop ℚ) (unfinished : Unfinished),
    Loop.Runs l {.usernameAnnouncement "alice"} 0 [.event (.usernameAnnounced "alice")] unfinished ∧
      unfinished = Table.empty ∧ Multiset.Rel Ask.AnsweredBy {.usernameAnnouncement "alice"}
        (([.event (.usernameAnnounced "alice")] : List NodeEffect) : Multiset NodeEffect) := by
  have h₀ := Loop.Runs.start (F := ℚ) [1] (ChainStore.opened ℚ)
  have h₁ := h₀.turn (.connectionEstablished [2] fun _ => .ok ()) (fun _ h => by cases h) rfl
  have h₂ := h₁.turn (.command (.announceUsername "alice" [7]) (.ok ())) (fun _ h => by cases h) rfl
  have h₃ := h₂.turn (.queryProgressed 0 .putRecordOk) (fun call h => by obtain rfl := Option.some.inj h; decide) rfl
  have hunfinished : (Table.insert Table.empty ⟨.putRecord, 0⟩ false : Unfinished).remove ⟨.putRecord, 0⟩ = Table.empty := by
    funext call
    by_cases hcall : call = ⟨.putRecord, 0⟩ <;> simp [Table.remove_apply, Table.insert_apply, hcall]
  exact ⟨_, _, h₃, hunfinished, ((answered_once_iff h₃).2.2 hunfinished).mpr ⟨rfl, rfl⟩⟩

/-- The record with the node's addresses is refused at once. -/
theorem announcement_unanswered : ∃ (l : Loop ℚ) (refused : Multiset Ask),
    Loop.Runs l {.announcement} refused [] Table.empty ∧ l.deferredCommands = [] ∧
      ¬Multiset.Rel Ask.AnsweredBy {.announcement} (([] : List NodeEffect) : Multiset NodeEffect) := by
  have h₀ := Loop.Runs.start (F := ℚ) [1] (ChainStore.opened ℚ)
  have h₁ := h₀.turn (.connectionEstablished [2] fun _ => .ok ()) (fun _ h => by cases h) rfl
  have h₂ := h₁.turn (.command (.announceAddresses []) (.error "the record is too large")) (fun _ h => by cases h) rfl
  refine ⟨_, _, h₂, rfl, fun h => ?_⟩
  have := Multiset.card_eq_card_of_rel h
  simp at this

end
end SpiritChat
