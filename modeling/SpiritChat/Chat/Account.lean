import SpiritChat.Chat.ChatManager
import SpiritChat.Crypto.Persistence

/-! # The account of a slot

What the Keychain holds for an account, the sessions that a process makes from it, and the chat managers that are built
from the sessions. The prekey store of a session changes with every card and every handshake of its managers; the one in
the Keychain is written once. -/

namespace SpiritChat
open Lib

/-- The items of one slot, apart from the recovery phrase. -/
structure KeychainSlot where
  identity : Option (Bytes 32)
  agreement : Option (Bytes 32)
  prekeys : Option (List UInt8)

def initialOneTimePrekeyCount : ℕ := 20

/-- What happened to one-time prekeys. -/
inductive PrekeyEvent where
  /-- a handshake was answered with the one-time prekey that it names -/
  | completed (initialMessage : InitialMessage) (secret : Bytes 32)
  /-- a contact card was made -/
  | card (card : PrekeyBundle)
deriving DecidableEq

/-- An `IdentitySession` of the slot. Its prekey store is one object for it and for the managers that are built from it. -/
structure AccountSession where
  keys : ChatManager
  prekeys : PrekeyStore

/-- A `ChatManager`: the session whose keys and prekey store it was given, and what it keeps under its lock. -/
structure Manager where
  session : ℕ
  peerStates : Table PeerId PeerSendState
  connectedPeers : List PeerId

/-- A slot's Keychain items and files, with the sessions and managers that the process has made so far, in order. Another
session may be cached while a manager of an earlier one still runs. -/
structure Account (Key : Type) where
  keychain : KeychainSlot
  sessions : List AccountSession
  managers : List Manager
  device : Device Key
  log : List PrekeyEvent

/-- What the app does with an account. -/
inductive AccountMove (Key : Type) where
  /-- `begin` on a slot that it takes for free or incomplete, as it may any slot that it fails to read, with what it
  draws. It saves so many items, and may have deleted the old value of the next one, before the app ends or a save
  fails. -/
  | writeSlot (identity agreement signedPrekeySecret : Bytes 32) (oneTimeSecrets : List (Bytes 32)) (landed : ℕ)
    (deleted : Bool)
  /-- `loadExisting`: for `shared` when nothing is cached, and for every `switchTo`, also that of `begin` -/
  | loadExisting
  /-- `removeSlot`, with the items whose deletion takes effect -/
  | removeSlot (identity agreement prekeys : Bool)
  /-- `P2pSession.shared` builds a manager from a session that it was given -/
  | start (session : ℕ)
  /-- an operation of one of the managers; a handler may still run after `P2pSession.signOut` -/
  | perform (manager : ℕ) (o : ChatOp Key) (env : Env)
  /-- the app is launched anew -/
  | launch

namespace KeychainSlot

def empty : KeychainSlot := ⟨none, none, none⟩

/-- The saves of `writeSlot`, the first `landed` of them. A save deletes the old item before it adds the new one. -/
def write (k : KeychainSlot) (identity agreement : Bytes 32) (prekeys : List UInt8) (landed : ℕ) (deleted : Bool) :
    KeychainSlot where
  identity := if 1 ≤ landed then some identity else if deleted then none else k.identity
  agreement := if 2 ≤ landed then some agreement else if landed = 1 ∧ deleted then none else k.agreement
  prekeys := if 3 ≤ landed then some prekeys else if landed = 2 ∧ deleted then none else k.prekeys

def remove (k : KeychainSlot) (identity agreement prekeys : Bool) : KeychainSlot where
  identity := if identity then none else k.identity
  agreement := if agreement then none else k.agreement
  prekeys := if prekeys then none else k.prekeys

end KeychainSlot

section
variable {Key : Type} [X25519] [Ed25519] [SymmetricPrimitives Key] [X3dhKdf Key]

omit [SymmetricPrimitives Key] in
/-- What an operation does to one-time prekeys. -/
def Device.prekeyEvents (d : Device Key) : ChatOp Key → List PrekeyEvent
  | .respond agreement initialMessage =>
    match initialMessage.usedOneTimePrekey, (x3dhRespond agreement d.prekeys initialMessage : _ × Except _ Key).2 with
    | some publicKey, .ok _ => (d.prekeys.takeOneTimeSecret publicKey).toList.map fun taken => .completed initialMessage taken.1
    | _, _ => []
  | .contactCard identity agreement =>
    [.card (d.prekeys.publicBundle identity.publicKey (agreement.signWith identity)).2]
  | _ => []

omit [X25519] [Ed25519] [SymmetricPrimitives Key] [X3dhKdf Key] in
/-- What an operation leaves in the memory of a manager. -/
def Manager.after (m : Manager) (d : Device Key) : Manager :=
  { m with peerStates := d.peerStates, connectedPeers := d.connectedPeers }

namespace Account

def writeSlot (a : Account Key) (identity agreement signedPrekeySecret : Bytes 32) (oneTimeSecrets : List (Bytes 32))
    (landed : ℕ) (deleted : Bool) : Account Key :=
  let prekeys := PrekeyStore.generate ⟨identity⟩ signedPrekeySecret oneTimeSecrets
  let keychain := a.keychain.write identity agreement prekeys.toBytes landed deleted
  -- The recovery phrase is the fourth item.
  if 4 ≤ landed then { a with keychain, sessions := a.sessions ++ [⟨⟨⟨identity⟩, ⟨agreement⟩⟩, prekeys⟩] }
  else { a with keychain }

def loadExisting (a : Account Key) : Account Key :=
  match a.keychain.identity, a.keychain.agreement, a.keychain.prekeys with
  | some identity, some agreement, some bytes =>
    match PrekeyStore.fromBytes bytes with
    | .error _ => a
    | .ok prekeys => { a with sessions := a.sessions ++ [⟨⟨⟨identity⟩, ⟨agreement⟩⟩, prekeys⟩] }
  | _, _, _ => a

def start (a : Account Key) (session : ℕ) : Account Key :=
  if session < a.sessions.length then { a with managers := a.managers ++ [⟨session, .empty, []⟩] } else a

/-- The device as a manager has it. -/
def view (a : Account Key) (m : Manager) (s : AccountSession) : Device Key :=
  { a.device with peerStates := m.peerStates, connectedPeers := m.connectedPeers, prekeys := s.prekeys }

def perform (a : Account Key) (manager : ℕ) (o : ChatOp Key) (env : Env) : Account Key :=
  match a.managers[manager]? with
  | none => a
  | some m =>
    match a.sessions[m.session]? with
    | none => a
    | some s =>
      let device := ((a.view m s).exec env o).2
      { a with
        sessions := a.sessions.set m.session { s with prekeys := device.prekeys }
        managers := a.managers.set manager (m.after device)
        device
        log := a.log ++ (a.view m s).prekeyEvents o }

def step (a : Account Key) : AccountMove Key → Account Key
  | .writeSlot identity agreement signedPrekeySecret oneTimeSecrets landed deleted =>
    a.writeSlot identity agreement signedPrekeySecret oneTimeSecrets landed deleted
  | .loadExisting => a.loadExisting
  | .removeSlot identity agreement prekeys => { a with keychain := a.keychain.remove identity agreement prekeys }
  | .start session => a.start session
  | .perform manager o env => a.perform manager o env
  | .launch => { a with sessions := [], managers := [] }

end Account
end
end SpiritChat
