import Mathlib.Data.List.MinMax
import Mathlib.Data.List.Perm.Subperm
import SpiritChat.P2p.Relay

/-! # Paths through the mix

How a path is picked from the relays that are connected and whose routing key is known. A map that is iterated is the
list of its entries in the order of the iteration. Packets are not built: Sphinx is a library. -/

namespace SpiritChat
open Lib

def mixPathHops : ℕ := 3

/-- A Sphinx routing key. -/
abbrev RoutingKey := Bytes 32

/-- A relay as a path names it. -/
structure MixRelay where
  address : NodeAddress
  peer : PeerId
  publicKey : RoutingKey
deriving DecidableEq

/-- `mix::MixHop` -/
structure MixHop where
  address : NodeAddress
  publicKey : RoutingKey
deriving DecidableEq

/-- The entries of `known_mix_relays`. -/
abbrev RelayEntries := List (NodeAddress × PeerId)

/-- Kademlia's distance between the keys of a peer and of some bytes. -/
class KBuckets where
  distance : PeerId → List UInt8 → ℕ

/-- What is left to chance in a pick: the order of a map that was collected for it, and what `choose_multiple` takes from
an iterator, which is as many items as asked for or else all of them. -/
structure Chance where
  order : RelayEntries → RelayEntries
  order_perm : ∀ entries, (order entries).Perm entries
  chooseMultiple : List MixRelay → ℕ → List MixRelay
  chooseMultiple_subperm : ∀ items amount, (chooseMultiple items amount).Subperm items
  length_chooseMultiple : ∀ items amount, (chooseMultiple items amount).length = min amount items.length

/-- The relays that are connected and whose key is known. -/
def usableRelays (knownMixRelays : RelayEntries) (knownMixRoutingKeys : Table PeerId RoutingKey) : List MixRelay :=
  knownMixRelays.filterMap fun entry => (knownMixRoutingKeys entry.2).map fun key => ⟨entry.1, entry.2, key⟩

def pickMixPath (knownMixRelays : RelayEntries) (knownMixRoutingKeys : Table PeerId RoutingKey) (hopCount : ℕ) (rng : Chance) :
    List MixRelay :=
  rng.chooseMultiple (usableRelays knownMixRelays knownMixRoutingKeys) hopCount

/-- `min_by_key` takes the first one of several. -/
def closestRelayToTag [KBuckets] (tag : List UInt8) (knownMixRelays : RelayEntries) (knownMixRoutingKeys : Table PeerId RoutingKey) :
    Option MixRelay :=
  (usableRelays knownMixRelays knownMixRoutingKeys).argmin fun relay => KBuckets.distance relay.peer tag

def buildMixPathToTag [KBuckets] (tag : List UInt8) (knownMixRelays : RelayEntries)
    (knownMixRoutingKeys : Table PeerId RoutingKey) (rng : Chance) : Option (List MixRelay) := do
  let finalHop ← closestRelayToTag tag knownMixRelays knownMixRoutingKeys
  let intermediateCandidates := rng.order (knownMixRelays.filter fun entry => entry.2 ≠ finalHop.peer)
  let path := pickMixPath intermediateCandidates knownMixRoutingKeys (mixPathHops - 1) rng
  return path ++ [finalHop]

/-- The paths of `send_mailbox_retrieval_query` for the tag of the query: that of the query, and that of its reply block. -/
def retrievalPaths [Primitives] [KBuckets] (tag : List UInt8) (knownMixRelays : RelayEntries)
    (knownMixRoutingKeys : Table PeerId RoutingKey) (localPeerId : PeerId) (mixPublic : RoutingKey) (rng returnRng : Chance) :
    Option (List MixRelay × List MixHop) := do
  let hops ← buildMixPathToTag tag knownMixRelays knownMixRoutingKeys rng
  let responderPeer := hops.getLast?.map (·.peer)
  let returnCandidates := returnRng.order (knownMixRelays.filter fun entry => some entry.2 ≠ responderPeer)
  let selfHop : MixHop := ⟨nodeAddressFor localPeerId, mixPublic⟩
  let returnHops := pickMixPath returnCandidates knownMixRoutingKeys (mixPathHops - 1) returnRng
  let returnPath := returnHops.map (fun relay => (⟨relay.address, relay.publicKey⟩ : MixHop)) ++ [selfHop]
  return (hops, returnPath)

end SpiritChat
