import Mathlib.Data.Nat.Log
import SpiritChat.Lib.Table
import SpiritChat.P2p.ChainSync
import SpiritChat.P2p.Mailbox

/-! # A node as a relay of the mix

What the event loop does with a Sphinx packet: it forwards the packet, keeps the deposit in it, or answers the query in
it. Sphinx is a library: a packet comes peeled and its payload parsed, and a reply block is known by what `use_surb`
makes of a message. The delay of a forwarded packet and the learning of routing keys are left out. -/

namespace SpiritChat
open Lib

def mailboxPowLeadingZeroBits : ℕ := 20

def maxClockDriftSecs : UInt64 := 2 * 60 * 60

def maxEnvelopeBytes : ℕ := 64 * 1024

def leadingZeroBits : List UInt8 → ℕ
  | [] => 0
  | byte :: hash => if byte = 0 then 8 + leadingZeroBits hash else 7 - Nat.log2 byte.toNat

def meetsPow (hash : Hash32) : Bool := mailboxPowLeadingZeroBits ≤ leadingZeroBits hash.asBytes

/-- `abs_diff` -/
def absDiff (a b : UInt64) : UInt64 := if a < b then b - a else a - b

/-- `mailbox::validate` -/
def MailboxDeposit.validate [Primitives] (deposit : MailboxDeposit) (now : UInt64) : Except String Unit :=
  if deposit.envelope.isEmpty || maxEnvelopeBytes < deposit.envelope.length then .error "envelope size out of bounds"
  else if maxClockDriftSecs < absDiff deposit.depositedAt now then .error "deposit timestamp too far from local clock"
  else if meetsPow (Primitives.sha256 (powPreimage deposit)) then .ok ()
  else .error "proof-of-work stamp does not meet the required difficulty"

/-- `open` on the file of a store that was closed; the limit is not in the file. -/
def MailboxStore.reopen (s : MailboxStore) : MailboxStore := { s with limitBytes := defaultCacheLimitBytes }

abbrev NodeAddress := Bytes 32

/-- `mix::node_address_for` -/
def nodeAddressFor [Primitives] (peer : PeerId) : NodeAddress := (Primitives.sha256 peer).bytes

/-- A reply block: the address that the packet with a message goes to first, if the message fits. -/
abbrev Surb := List UInt8 → Option NodeAddress

/-- A payload as the parsers that are tried in turn take it. -/
inductive MixPayload where
  | dummy
  | deposit (deposit : MailboxDeposit)
  | query (tag : Bytes 32) (surb : Surb)
  | reply (envelope : List UInt8)
  | other (payload : List UInt8)

/-- `mix::PeelOutcome` -/
inductive PeelOutcome where
  | forward (nextHopAddress : NodeAddress)
  | final (payload : MixPayload)

def frameMailboxReply (envelope : List UInt8) : List UInt8 := 0x03 :: envelope

/-- The part of the event loop's state that packets are handled with. -/
structure Relay where
  mailboxStore : MailboxStore
  knownMixRelays : Table NodeAddress PeerId

/-- What the loop hands over: an event to the app, or a packet to a peer. -/
inductive RelayEffect where
  | peerConnected (peer : PeerId)
  | peerDisconnected (peer : PeerId)
  | mailboxDepositStored
  | mailboxEnvelopeRetrieved (envelope : List UInt8)
  | mixPacketArrived (payload : List UInt8)
  | mixForwardFailed (reason : String)
  | forward (peer : PeerId)
  /-- the reply packet with the framed envelope of this deposit -/
  | reply (peer : PeerId) (oldest : CachedDeposit)

/-- What the loop is woken by, as far as it concerns the relay, and a restart of the app. -/
inductive RelayEvent where
  | connectionEstablished (peer : PeerId)
  | connectionClosed (peer : PeerId)
  | mixRequest (peeled : Except String PeelOutcome)
  | restart

namespace Relay

/-- A node that was never started before. -/
def start : Relay := ⟨.create, Table.empty⟩

/-- The answer to a query: the oldest deposit under the tag, or silence. -/
def handleQuery (r : Relay) (tag : Bytes 32) (surb : Surb) : List RelayEffect :=
  match r.mailboxStore.forTag tag with
  | [] => []
  | oldest :: _ =>
    match (surb (frameMailboxReply oldest.envelope)).bind r.knownMixRelays with
    | none => []
    | some nextPeer => [.reply nextPeer oldest]

/-- `handle_mix_event`, for a request that arrives at `now`. -/
def handleMixEvent [Primitives] (r : Relay) (now : UInt64) : Except String PeelOutcome → Relay × List RelayEffect
  | .error reason => (r, [.mixForwardFailed reason])
  | .ok (.forward nextHopAddress) =>
    match r.knownMixRelays nextHopAddress with
    | some nextPeer => (r, [.forward nextPeer])
    | none => (r, [.mixForwardFailed "next hop is not a currently reachable peer"])
  | .ok (.final .dummy) => (r, [])
  | .ok (.final (.deposit deposit)) =>
    match deposit.validate now with
    | .ok () => ({ r with mailboxStore := r.mailboxStore.accept deposit }, [.mailboxDepositStored])
    | .error _ => (r, [])
  | .ok (.final (.query tag surb)) => (r, r.handleQuery tag surb)
  | .ok (.final (.reply envelope)) => (r, [.mailboxEnvelopeRetrieved envelope])
  | .ok (.final (.other payload)) => (r, [.mixPacketArrived payload])

/-- One round of the event loop at `now`. -/
def handle [Primitives] (r : Relay) (now : UInt64) : RelayEvent → Relay × List RelayEffect
  | .connectionEstablished peer =>
    ({ r with knownMixRelays := r.knownMixRelays.insert (nodeAddressFor peer) peer }, [.peerConnected peer])
  | .connectionClosed peer =>
    ({ r with knownMixRelays := r.knownMixRelays.remove (nodeAddressFor peer) }, [.peerDisconnected peer])
  | .mixRequest peeled => r.handleMixEvent now peeled
  | .restart => (⟨r.mailboxStore.reopen, Table.empty⟩, [])

end Relay
end SpiritChat
