import SpiritChat.P2p.Mempool

/-! # The commands that await an answer

The event loop joins a command with what libp2p reports of it, which it knows by an identifier only. A command that
needs the DHT waits until there is a connection. -/

namespace SpiritChat
open Lib

/-- A multiaddress is known by its text. -/
abbrev Multiaddr := String

/-- Which texts libp2p takes for multiaddresses. -/
class Multiaddrs where
  parse : String → Option Multiaddr

/-- `str::lines` -/
def lines (text : String) : List String :=
  let parts := text.toList.splitOn '\n'
  let ended := parts.dropLast.map fun line => String.ofList (if line.getLast? = some '\r' then line.dropLast else line)
  match parts.getLast? with
  | none | some [] => ended
  | some line => ended ++ [String.ofList line]

namespace Rendezvous

def recordKeyFor (peer : PeerId) : List UInt8 := utf8 "/spiritchat/addrs/1/" ++ peer

def encodeAddresses (addresses : List Multiaddr) : List UInt8 := utf8 ("\n".intercalate addresses)

def decodeAddresses [Multiaddrs] (bytes : List UInt8) : List Multiaddr :=
  match String.fromUTF8? ⟨bytes.toArray⟩ with
  | none => []
  | some text => (lines text).filterMap Multiaddrs.parse

end Rendezvous

/-- `username::record_key_for` -/
def usernameRecordKeyFor [Primitives] (username : String) : List UInt8 :=
  utf8 "/spiritchat/username/1/" ++ utf8 (normalizeUsername username)

/-- The commands that are answered later, but for those of the ledger. -/
inductive Command where
  | resolvePeerAddresses (peer : PeerId)
  | announceAddresses (addresses : List Multiaddr)
  | sendEnvelope (recipient : PeerId) (bytes : List UInt8)
  | fetchBlob (peer : PeerId) (id : List UInt8)
  | announceUsername (username : String) (claim : List UInt8)
  | resolveUsername (username : String)

def Command.needsDhtPeer : Command → Bool
  | .resolvePeerAddresses _ | .announceAddresses _ | .announceUsername _ _ | .resolveUsername _ => true
  | .sendEnvelope _ _ | .fetchBlob _ _ => false

/-- The events that answer these commands, and the two that come with connections and requests. -/
inductive CommandEvent where
  | peerConnected (peer : PeerId)
  | envelopeReceived (sender : PeerId) (bytes : List UInt8)
  | envelopeDelivered (recipient : PeerId)
  | envelopeDeliveryFailed (recipient : PeerId) (reason : String)
  | peerAddressesResolved (peer : PeerId) (addresses : List Multiaddr)
  | peerAddressResolutionFailed (peer : PeerId)
  | addressesAnnounced
  | addressAnnouncementFailed (reason : String)
  | blobFetched (peer : PeerId) (id bytes : List UInt8)
  | blobFetchFailed (peer : PeerId) (id : List UInt8) (reason : String)
  | usernameResolved (username : String) (claim : List UInt8)
  | usernameResolutionFailed (username : String)
  | usernameAnnounced (username : String)
  | usernameAnnouncementFailed (username reason : String)

/-- What the loop hands over: an event to the app, a call of libp2p under the identifier that it returned, an answer to
a peer. -/
inductive NodeEffect where
  | event (e : CommandEvent)
  | getRecord (id : ℕ) (key : List UInt8)
  | putRecord (id : ℕ) (key value : List UInt8)
  | sendEnvelope (id : ℕ) (recipient : PeerId) (bytes : List UInt8)
  | requestBlob (id : ℕ) (peer : PeerId) (blob : List UInt8)
  | acknowledge (peer : PeerId)
  | ledger (e : LedgerEffect)

/-- `Pending`, but for the syncs. libp2p counts its identifiers up, for queries and for each protocol. -/
structure Calls where
  nextQueryId : ℕ
  nextEnvelopeId : ℕ
  nextBlobId : ℕ
  resolvePeer : Table ℕ PeerId
  announce : Table ℕ Unit
  envelopeSend : Table ℕ PeerId
  blobFetch : Table ℕ (PeerId × List UInt8)
  resolveUsername : Table ℕ String
  announceUsername : Table ℕ String

def Calls.empty : Calls := ⟨0, 0, 0, Table.empty, Table.empty, Table.empty, Table.empty, Table.empty, Table.empty⟩

/-- Whether `put_record` takes a record or refuses it at once. -/
abbrev Put := Except String Unit

/-- How a query of Kademlia goes on or ends. -/
inductive QueryResult where
  | foundRecord (value : List UInt8)
  | finishedWithNoAdditionalRecord
  | getRecordFailed
  | putRecordOk
  | putRecordFailed (reason : String)

/-- A peer's answer to a request for a blob. -/
inductive BlobResponse where
  | found (bytes : List UInt8)
  | notFound

/-- What the loop is woken by. -/
inductive LoopEvent (F : Type) where
  | command (c : Command) (put : Put)
  | connectionEstablished (peer : PeerId) (put : ℕ → Put)
  | queryProgressed (id : ℕ) (result : QueryResult)
  | envelopeRequest (sender : PeerId) (bytes : List UInt8)
  | envelopeResponse (id : ℕ)
  | envelopeFailure (id : ℕ) (reason : String)
  | blobResponse (id : ℕ) (response : BlobResponse)
  | blobFailure (id : ℕ) (reason : String)
  | ledger (e : LedgerEvent F)
  | chainSyncFailure (id : ℕ) (reason : String)

/-- The state of the event loop. -/
structure Loop (F : Type) where
  localPeer : PeerId
  node : Node F
  calls : Calls
  dhtReady : Bool
  deferredCommands : List Command

namespace Loop
variable {F : Type}

def start (localPeer : PeerId) (chainStore : ChainStore F) : Loop F := ⟨localPeer, .start chainStore, .empty, false, []⟩

section
variable [Primitives]

def handleCommand (l : Loop F) (c : Command) (put : Put) : Loop F × List NodeEffect :=
  let calls := l.calls
  match c with
  | .resolvePeerAddresses peer =>
    let queryId := calls.nextQueryId
    ({ l with calls := { calls with nextQueryId := queryId + 1, resolvePeer := calls.resolvePeer.insert queryId peer } },
      [.getRecord queryId (Rendezvous.recordKeyFor peer)])
  | .announceAddresses addresses =>
    match put with
    | .error _ => (l, [])
    | .ok () =>
      let queryId := calls.nextQueryId
      ({ l with calls := { calls with nextQueryId := queryId + 1, announce := calls.announce.insert queryId () } },
        [.putRecord queryId (Rendezvous.recordKeyFor l.localPeer) (Rendezvous.encodeAddresses addresses)])
  | .sendEnvelope recipient bytes =>
    let requestId := calls.nextEnvelopeId
    ({ l with calls :=
        { calls with nextEnvelopeId := requestId + 1, envelopeSend := calls.envelopeSend.insert requestId recipient } },
      [.sendEnvelope requestId recipient bytes])
  | .fetchBlob peer id =>
    let requestId := calls.nextBlobId
    ({ l with calls := { calls with nextBlobId := requestId + 1, blobFetch := calls.blobFetch.insert requestId (peer, id) } },
      [.requestBlob requestId peer id])
  | .announceUsername username claim =>
    match put with
    | .error _ => (l, [])
    | .ok () =>
      let queryId := calls.nextQueryId
      ({ l with calls :=
          { calls with nextQueryId := queryId + 1, announceUsername := calls.announceUsername.insert queryId username } },
        [.putRecord queryId (usernameRecordKeyFor username) claim])
  | .resolveUsername username =>
    let queryId := calls.nextQueryId
    ({ l with calls :=
        { calls with nextQueryId := queryId + 1, resolveUsername := calls.resolveUsername.insert queryId username } },
      [.getRecord queryId (usernameRecordKeyFor username)])

/-- The loop over the deferred commands. -/
def drain (l : Loop F) (put : ℕ → Put) : List Command → Loop F × List NodeEffect
  | [] => (l, [])
  | c :: commands =>
    let (l', effects) := l.handleCommand c (put 0)
    let (l'', effects') := l'.drain (fun i => put (i + 1)) commands
    (l'', effects ++ effects')

end

/-- `handle_kad_event` -/
def handleKadEvent [Multiaddrs] (l : Loop F) (id : ℕ) (result : QueryResult) : Loop F × List NodeEffect :=
  let calls := l.calls
  match result with
  | .foundRecord value =>
    match calls.resolvePeer id, calls.resolveUsername id with
    | some peer, _ =>
      ({ l with calls := { calls with resolvePeer := calls.resolvePeer.remove id } },
        [.event (.peerAddressesResolved peer (Rendezvous.decodeAddresses value))])
    | none, some username =>
      ({ l with calls := { calls with resolveUsername := calls.resolveUsername.remove id } },
        [.event (.usernameResolved username value)])
    | none, none => (l, [])
  | .getRecordFailed =>
    match calls.resolvePeer id, calls.resolveUsername id with
    | some peer, _ =>
      ({ l with calls := { calls with resolvePeer := calls.resolvePeer.remove id } },
        [.event (.peerAddressResolutionFailed peer)])
    | none, some username =>
      ({ l with calls := { calls with resolveUsername := calls.resolveUsername.remove id } },
        [.event (.usernameResolutionFailed username)])
    | none, none => (l, [])
  | .putRecordOk =>
    match calls.announce id, calls.announceUsername id with
    | some (), _ =>
      ({ l with calls := { calls with announce := calls.announce.remove id } }, [.event .addressesAnnounced])
    | none, some username =>
      ({ l with calls := { calls with announceUsername := calls.announceUsername.remove id } },
        [.event (.usernameAnnounced username)])
    | none, none => (l, [])
  | .putRecordFailed reason =>
    match calls.announce id, calls.announceUsername id with
    | some (), _ =>
      ({ l with calls := { calls with announce := calls.announce.remove id } }, [.event (.addressAnnouncementFailed reason)])
    | none, some username =>
      ({ l with calls := { calls with announceUsername := calls.announceUsername.remove id } },
        [.event (.usernameAnnouncementFailed username reason)])
    | none, none => (l, [])
  | .finishedWithNoAdditionalRecord => (l, [])

/-- A response or a failure of `handle_envelope_event`. -/
def handleEnvelopeReport (l : Loop F) (id : ℕ) (report : PeerId → CommandEvent) : Loop F × List NodeEffect :=
  match l.calls.envelopeSend id with
  | some peer =>
    ({ l with calls := { l.calls with envelopeSend := l.calls.envelopeSend.remove id } }, [.event (report peer)])
  | none => (l, [])

/-- A response or a failure of `handle_blob_event`. -/
def handleBlobReport (l : Loop F) (id : ℕ) (report : PeerId → List UInt8 → CommandEvent) : Loop F × List NodeEffect :=
  match l.calls.blobFetch id with
  | some (peer, blob) =>
    ({ l with calls := { l.calls with blobFetch := l.calls.blobFetch.remove id } }, [.event (report peer blob)])
  | none => (l, [])

/-- The failure of `handle_ledger_sync_event`. -/
def handleSyncFailure (l : Loop F) (id : ℕ) (reason : String) : Loop F × List NodeEffect :=
  let pending := l.node.pending
  match pending.chainSyncTip id, pending.chainSyncBlocks id with
  | some peer, _ =>
    ({ l with node := { l.node with pending := pending.removeTip id } },
      [.ledger (.sync (.event (.chainSyncFailed peer (.text reason))))])
  | none, some peer =>
    ({ l with node := { l.node with pending := pending.removeBlocks id } },
      [.ledger (.sync (.event (.chainSyncFailed peer (.text reason))))])
  | none, none => (l, [])

/-- One turn of the event loop. -/
def handle [Float64 F] [Primitives] [Multiaddrs] (l : Loop F) : LoopEvent F → Loop F × Ledger (List NodeEffect)
  | .command c put =>
    if !l.dhtReady && c.needsDhtPeer then ({ l with deferredCommands := l.deferredCommands ++ [c] }, .ok [])
    else
      let (l', effects) := l.handleCommand c put
      (l', .ok effects)
  | .connectionEstablished peer put =>
    if l.dhtReady then (l, .ok [.event (.peerConnected peer)])
    else
      let (l', effects) := ({ l with dhtReady := true, deferredCommands := [] } : Loop F).drain put l.deferredCommands
      (l', .ok (effects ++ [.event (.peerConnected peer)]))
  | .queryProgressed id result =>
    let (l', effects) := l.handleKadEvent id result
    (l', .ok effects)
  | .envelopeRequest sender bytes => (l, .ok [.event (.envelopeReceived sender bytes), .acknowledge sender])
  | .envelopeResponse id =>
    let (l', effects) := l.handleEnvelopeReport id .envelopeDelivered
    (l', .ok effects)
  | .envelopeFailure id reason =>
    let (l', effects) := l.handleEnvelopeReport id fun peer => .envelopeDeliveryFailed peer reason
    (l', .ok effects)
  | .blobResponse id (.found bytes) =>
    let (l', effects) := l.handleBlobReport id fun peer blob => .blobFetched peer blob bytes
    (l', .ok effects)
  | .blobResponse id .notFound =>
    let (l', effects) := l.handleBlobReport id fun peer blob => .blobFetchFailed peer blob "peer does not have this blob"
    (l', .ok effects)
  | .blobFailure id reason =>
    let (l', effects) := l.handleBlobReport id fun peer blob => .blobFetchFailed peer blob reason
    (l', .ok effects)
  | .ledger e =>
    let (node, effects) := l.node.handle e
    ({ l with node }, effects.map (·.map .ledger))
  | .chainSyncFailure id reason =>
    let (l', effects) := l.handleSyncFailure id reason
    (l', .ok effects)

end Loop
end SpiritChat
