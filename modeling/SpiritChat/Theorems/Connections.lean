import Mathlib.Data.Set.Function
import SpiritChat.Lib.Run
import SpiritChat.Theorems.Retention

/-! # Relays and connections

The event loop takes a peer out of its map as soon as one connection to it closes. The map is right for as long as every
connection that closes is the last one to its peer. -/

namespace SpiritChat
open Lib

/-- The swarm's name of a connection. -/
abbrev ConnectionId := ℕ

/-- What the swarm reports. The event loop does not read which connection it was. -/
inductive SwarmEvent where
  | connectionEstablished (id : ConnectionId) (peer : PeerId)
  | connectionClosed (id : ConnectionId) (peer : PeerId)
  | mixRequest (peeled : Except String PeelOutcome)

def SwarmEvent.relayEvent : SwarmEvent → RelayEvent
  | .connectionEstablished _ peer => .connectionEstablished peer
  | .connectionClosed _ peer => .connectionClosed peer
  | .mixRequest peeled => .mixRequest peeled

/-- A relay and the connections that are open. -/
structure Swarm where
  relay : Relay
  connections : Table ConnectionId PeerId
  /-- the connections there have been -/
  seen : List ConnectionId

namespace Swarm

def start : Swarm := ⟨.start, Table.empty, []⟩

/-- The connections after an event. -/
def connect (s : Swarm) : SwarmEvent → Table ConnectionId PeerId × List ConnectionId
  | .connectionEstablished id peer => (s.connections.insert id peer, id :: s.seen)
  | .connectionClosed id _ => (s.connections.remove id, s.seen)
  | .mixRequest _ => (s.connections, s.seen)

/-- There is a connection to the peer. -/
def Connected (s : Swarm) (peer : PeerId) : Prop := ∃ id, s.connections id = some peer

/-- Each connection is established once, with one of these peers, and then closed at most once. -/
def Permitted (peers : Set PeerId) (s : Swarm) : UInt64 × SwarmEvent → Prop
  | (_, .connectionEstablished id peer) => id ∉ s.seen ∧ peer ∈ peers
  | (_, .connectionClosed id peer) => s.connections id = some peer
  | (_, .mixRequest _) => True

/-- A connection that closes is the only one to its peer. -/
def ClosesLast (s : Swarm) : UInt64 × SwarmEvent → Prop
  | (_, .connectionClosed id peer) => ∀ id', s.connections id' = some peer → id' = id
  | _ => True

/-- The known relays are the peers with a connection. -/
def Tracks (s : Swarm) : Prop := ∀ peer, (∃ address, s.relay.knownMixRelays address = some peer) ↔ s.Connected peer

section
variable [Primitives]

def next (s : Swarm) (event : UInt64 × SwarmEvent) : Swarm where
  relay := (s.relay.handle event.1 event.2.relayEvent).1
  connections := (s.connect event.2).1
  seen := (s.connect event.2).2

def effects (s : Swarm) (event : UInt64 × SwarmEvent) : List RelayEffect := (s.relay.handle event.1 event.2.relayEvent).2

/-- After the event the relays are right, and no peer that is still connected was reported as disconnected. -/
def Faithful (s : Swarm) (event : UInt64 × SwarmEvent) : Prop :=
  (s.next event).Tracks ∧ ∀ peer, .peerDisconnected peer ∈ s.effects event → ¬(s.next event).Connected peer

end

/-! ### The invariant -/

/-- The map has every connected peer, and nothing else, at its address. -/
structure Mirrors [Primitives] (peers : Set PeerId) (s : Swarm) : Prop where
  known : ∀ address peer, s.relay.knownMixRelays address = some peer ↔ address = nodeAddressFor peer ∧ s.Connected peer
  met : ∀ peer, s.Connected peer → peer ∈ peers
  seen : ∀ id peer, s.connections id = some peer → id ∈ s.seen

variable [Primitives] {peers : Set PeerId} {s : Swarm} {now : UInt64} {id : ConnectionId} {peer : PeerId}

theorem Mirrors.tracks (m : s.Mirrors peers) : s.Tracks := by
  intro peer
  constructor
  · rintro ⟨address, h⟩
    exact ((m.known address peer).mp h).2
  · intro h
    exact ⟨nodeAddressFor peer, (m.known _ peer).mpr ⟨rfl, h⟩⟩

theorem mirrors_start : start.Mirrors peers where
  known _ _ := iff_of_false (fun h => by cases h) (fun h => by obtain ⟨-, _, h⟩ := h; cases h)
  met _ h := by obtain ⟨_, h⟩ := h; cases h
  seen _ _ h := by cases h

theorem Mirrors.established (m : s.Mirrors peers) (hinj : Set.InjOn nodeAddressFor peers) (hnew : id ∉ s.seen) (hpeer : peer ∈ peers) :
    (s.next (now, .connectionEstablished id peer)).Mirrors peers := by
  have hconnected : ∀ p, (s.next (now, .connectionEstablished id peer)).Connected p ↔ p = peer ∨ s.Connected p := by
    intro p
    constructor
    · rintro ⟨id', h⟩
      rcases Table.insert_eq_some.mp h with ⟨-, rfl⟩ | ⟨-, h⟩
      · exact .inl rfl
      · exact .inr ⟨id', h⟩
    · rintro (rfl | ⟨id', h⟩)
      · exact ⟨id, Table.insert_self⟩
      · have hne : id' ≠ id := fun he => hnew (he ▸ m.seen id' p h)
        exact ⟨id', (Table.insert_of_ne hne).trans h⟩
  refine ⟨fun address p => ?_, fun p hp => ?_, fun id' p h => ?_⟩
  · rw [hconnected]
    show s.relay.knownMixRelays.insert (nodeAddressFor peer) peer address = some p ↔ _
    rw [Table.insert_eq_some, m.known]
    constructor
    · rintro (⟨rfl, rfl⟩ | ⟨-, haddress, h⟩)
      · exact ⟨rfl, .inl rfl⟩
      · exact ⟨haddress, .inr h⟩
    · rintro ⟨rfl, hp⟩
      by_cases hsame : p = peer
      · exact .inl ⟨congrArg nodeAddressFor hsame, hsame.symm⟩
      · have h := hp.resolve_left hsame
        -- Two peers that are met have two addresses.
        exact .inr ⟨fun he => hsame (hinj (m.met p h) hpeer he), rfl, h⟩
  · rcases (hconnected p).mp hp with rfl | hp
    · exact hpeer
    · exact m.met p hp
  · rcases Table.insert_eq_some.mp h with ⟨rfl, -⟩ | ⟨-, h⟩
    · exact List.mem_cons_self
    · exact List.mem_cons_of_mem _ (m.seen id' p h)

theorem Mirrors.closed (m : s.Mirrors peers) (hinj : Set.InjOn nodeAddressFor peers) (hopen : s.connections id = some peer)
    (hlast : ∀ id', s.connections id' = some peer → id' = id) :
    (s.next (now, .connectionClosed id peer)).Mirrors peers ∧ ¬(s.next (now, .connectionClosed id peer)).Connected peer := by
  have hconnections : ∀ id' p, (s.next (now, .connectionClosed id peer)).connections id' = some p ↔ id' ≠ id ∧ s.connections id' = some p := by
    intro id' p
    show s.connections.remove id id' = some p ↔ _
    rw [Table.remove_apply]
    by_cases he : id' = id <;> simp [he]
  have hconnected : ∀ p, (s.next (now, .connectionClosed id peer)).Connected p ↔ p ≠ peer ∧ s.Connected p := by
    intro p
    constructor
    · rintro ⟨id', h⟩
      obtain ⟨hne, h⟩ := (hconnections id' p).mp h
      exact ⟨fun he => hne (hlast id' (he ▸ h)), id', h⟩
    · rintro ⟨hne, id', h⟩
      refine ⟨id', (hconnections id' p).mpr ⟨fun he => hne ?_, h⟩⟩
      rw [he, hopen] at h
      exact (Option.some.inj h).symm
  refine ⟨⟨fun address p => ?_, fun p hp => ?_, fun id' p h => ?_⟩, fun h => ((hconnected peer).mp h).1 rfl⟩
  · rw [hconnected]
    show s.relay.knownMixRelays.remove (nodeAddressFor peer) address = some p ↔ _
    rw [Table.remove_apply]
    by_cases haddress : address = nodeAddressFor peer
    · rw [if_pos haddress]
      refine iff_of_false (fun h => by cases h) ?_
      rintro ⟨rfl, hne, h⟩
      exact hne (hinj (m.met p h) (m.met peer ⟨id, hopen⟩) haddress)
    · rw [if_neg haddress, m.known]
      constructor
      · rintro ⟨rfl, h⟩
        exact ⟨rfl, fun he => haddress (congrArg nodeAddressFor he), h⟩
      · rintro ⟨rfl, -, h⟩
        exact ⟨rfl, h⟩
  · exact m.met p ((hconnected p).mp hp).2
  · exact m.seen id' p ((hconnections id' p).mp h).2

/-- A packet leaves the map as it is, and reports nobody as disconnected. -/
theorem relay_mixRequest {p : PeerId} (r : Relay) (peeled : Except String PeelOutcome) :
    (r.handle now (.mixRequest peeled)).1.knownMixRelays = r.knownMixRelays ∧
      .peerDisconnected p ∉ (r.handle now (.mixRequest peeled)).2 := by
  rcases peeled with reason | nextHop | payload
  · simp [Relay.handle, Relay.handleMixEvent]
  · rw [Relay.handle, Relay.handleMixEvent]
    split <;> simp
  · cases payload with
    | deposit d =>
      rw [Relay.handle, Relay.handleMixEvent]
      split <;> simp
    | query tag surb =>
      refine ⟨rfl, fun h => ?_⟩
      obtain ⟨_, _, _, heq, -⟩ := Relay.reply_of_handleQuery (show _ ∈ r.handleQuery tag surb from h)
      cases heq
    | dummy | reply | other => simp [Relay.handle, Relay.handleMixEvent]

theorem Mirrors.mixRequest (m : s.Mirrors peers) (peeled : Except String PeelOutcome) : (s.next (now, .mixRequest peeled)).Mirrors peers where
  known address p := by
    have hkept : (s.relay.handle now (.mixRequest peeled)).1.knownMixRelays = s.relay.knownMixRelays :=
      (relay_mixRequest (p := p) s.relay peeled).1
    show (s.relay.handle now (.mixRequest peeled)).1.knownMixRelays address = some p ↔ _
    rw [hkept]
    exact m.known address p
  met := m.met
  seen := m.seen

/-- While the map is right, an event is handled as it should be exactly if it does not close one connection of several. -/
theorem Mirrors.faithful_step_iff (m : s.Mirrors peers) (hinj : Set.InjOn nodeAddressFor peers) {event : UInt64 × SwarmEvent}
    (h : s.Permitted peers event) :
    (s.Faithful event ↔ s.ClosesLast event) ∧ (s.ClosesLast event → (s.next event).Mirrors peers) := by
  obtain ⟨now, ⟨id, peer⟩ | ⟨id, peer⟩ | peeled⟩ := event
  · have m' : (s.next (now, .connectionEstablished id peer)).Mirrors peers := m.established hinj h.1 h.2
    exact ⟨iff_of_true ⟨m'.tracks, fun p hp => by simp [effects, Relay.handle, SwarmEvent.relayEvent] at hp⟩ trivial, fun _ => m'⟩
  · refine ⟨⟨fun hf id' hid' => ?_, fun hlast => ?_⟩, fun hlast => (m.closed hinj h hlast).1⟩
    · by_contra hne
      have hremains : (s.next (now, .connectionClosed id peer)).connections id' = some peer := by
        show s.connections.remove id id' = some peer
        rw [Table.remove_apply, if_neg hne, hid']
      exact hf.2 peer List.mem_cons_self ⟨id', hremains⟩
    · have h' : (s.next (now, .connectionClosed id peer)).Mirrors peers ∧ ¬(s.next (now, .connectionClosed id peer)).Connected peer :=
        m.closed hinj h hlast
      obtain ⟨m', hgone⟩ := h'
      refine ⟨m'.tracks, fun p hp => ?_⟩
      obtain rfl : p = peer := by simpa [effects, Relay.handle, SwarmEvent.relayEvent] using hp
      exact hgone
  · have m' : (s.next (now, .mixRequest peeled)).Mirrors peers := m.mixRequest peeled
    exact ⟨iff_of_true ⟨m'.tracks, fun p hp => absurd hp (relay_mixRequest s.relay peeled).2⟩ trivial, fun _ => m'⟩

/-- In a run the map is right after every event, and who is reported as disconnected is not connected, exactly if every
connection that closes is the last one to its peer. -/
theorem faithful_iff (hinj : Set.InjOn nodeAddressFor peers) {events : List (UInt64 × SwarmEvent)}
    (h : Run.Follows next (Permitted peers) start events) :
    Run.Follows next Faithful start events ↔ Run.Follows next ClosesLast start events :=
  Run.follows_congr h mirrors_start fun _ _ m hp => m.faithful_step_iff hinj hp

end Swarm

section
attribute [local instance] unsigned
open Swarm

/-- One connection, opened and closed. -/
theorem faithful_iff_single : Run.Follows next Faithful start
    [(0, .connectionEstablished 0 [1]), (0, .connectionClosed 0 [1])] := by
  have hpermitted : Run.Follows next (Permitted {[1]}) start [(0, .connectionEstablished 0 [1]), (0, .connectionClosed 0 [1])] :=
    ⟨⟨List.not_mem_nil, rfl⟩, rfl, trivial⟩
  refine (faithful_iff (Set.injOn_singleton _ _) hpermitted).mpr ⟨trivial, fun id h => ?_, trivial⟩
  rcases Table.insert_eq_some.mp h with ⟨rfl, -⟩ | ⟨-, h⟩
  · rfl
  · cases h

/-- Both sides dialled at once, and one of the two connections is closed. -/
def bothDialled : List (UInt64 × SwarmEvent) :=
  [(0, .connectionEstablished 0 [1]), (0, .connectionEstablished 1 [1]), (0, .connectionClosed 0 [1])]

/-- The peer is reported as disconnected, and the map has lost it, while it is connected. -/
theorem faithful_fails_bothDialled : Run.Follows next (Permitted {[1]}) start bothDialled ∧
    ¬Run.Follows next Faithful start bothDialled ∧ ¬(bothDialled.foldl next start).Tracks := by
  have hremains : (bothDialled.foldl next start).Connected [1] := ⟨1, rfl⟩
  refine ⟨⟨⟨List.not_mem_nil, rfl⟩, ⟨by decide, rfl⟩, rfl, trivial⟩, ?_, fun h => ?_⟩
  · rintro ⟨-, -, ⟨-, hgone⟩, -⟩
    exact hgone [1] List.mem_cons_self hremains
  · obtain ⟨address, haddress⟩ := (h [1]).mpr hremains
    have hmap : (bothDialled.foldl next start).relay.knownMixRelays =
        ((Table.empty.insert (nodeAddressFor [1]) [1]).insert (nodeAddressFor [1]) [1]).remove (nodeAddressFor [1]) := rfl
    rw [hmap, Table.remove_apply, Table.insert_apply, Table.insert_apply] at haddress
    split_ifs at haddress
    cases haddress

end
end SpiritChat
