import Mathlib.Data.Set.Function
import SpiritChat.Ledger.Exact
import SpiritChat.P2p.Mix
import SpiritChat.Theorems.Connections

/-! # Where paths through the mix end

A path ends at the usable relay that is closest to the tag, whoever builds it and whatever the other hops are. The way
back avoids that relay and ends at the node itself. -/

namespace SpiritChat
open Lib

variable {relays : RelayEntries} {keys : Table PeerId RoutingKey} {r r' : MixRelay}

/-! ### Usable relays -/

theorem mem_usableRelays : r ∈ usableRelays relays keys ↔ (r.address, r.peer) ∈ relays ∧ keys r.peer = some r.publicKey := by
  simp only [usableRelays, List.mem_filterMap, Option.map_eq_some_iff]
  constructor
  · rintro ⟨⟨address, peer⟩, hmem, key, hkey, rfl⟩
    exact ⟨hmem, hkey⟩
  · rintro ⟨hmem, hkey⟩
    exact ⟨_, hmem, _, hkey, rfl⟩

/-- What tells the entries apart tells the usable relays apart. -/
theorem nodup_usableRelays {α : Type} {f : MixRelay → α} {g : NodeAddress × PeerId → α}
    (hfg : ∀ entry key, f ⟨entry.1, entry.2, key⟩ = g entry) (h : (relays.map g).Nodup) :
    ((usableRelays relays keys).map f).Nodup := by
  refine List.pairwise_map.mpr (List.Pairwise.filterMap _ ?_ (List.pairwise_map.mp h))
  intro entry entry' hne r hr r' hr'
  obtain ⟨_, -, rfl⟩ := Option.map_eq_some_iff.mp hr
  obtain ⟨_, -, rfl⟩ := Option.map_eq_some_iff.mp hr'
  rw [hfg, hfg]
  exact hne

/-- Each address is an entry of its own, and it is that of its peer. -/
structure WellKept [Primitives] (relays : RelayEntries) : Prop where
  nodup : (relays.map (·.1)).Nodup
  address : ∀ entry ∈ relays, entry.1 = nodeAddressFor entry.2

section
variable [Primitives]

theorem WellKept.nodup_peers (w : WellKept relays) : (relays.map (·.2)).Nodup := by
  refine List.Nodup.of_map nodeAddressFor ?_
  rw [List.map_map]
  have h : relays.map (nodeAddressFor ∘ (·.2)) = relays.map (·.1) :=
    List.map_congr_left fun entry hentry => (w.address entry hentry).symm
  rw [h]
  exact w.nodup

theorem WellKept.nodup_usable (w : WellKept relays) : ((usableRelays relays keys).map (·.peer)).Nodup :=
  nodup_usableRelays (fun _ _ => rfl) w.nodup_peers

theorem WellKept.nodup_addresses (w : WellKept relays) : ((usableRelays relays keys).map (·.address)).Nodup :=
  nodup_usableRelays (fun _ _ => rfl) w.nodup

/-- The entries of a map, in some order. -/
structure Lists (entries : RelayEntries) (map : Table NodeAddress PeerId) : Prop where
  nodup : (entries.map (·.1)).Nodup
  mem_iff : ∀ address peer, (address, peer) ∈ entries ↔ map address = some peer

/-- So is the map of a relay, whatever has happened. -/
theorem Relay.wellKept {events : List (UInt64 × RelayEvent)} (h : Lists relays (events.foldl Relay.next .start).knownMixRelays) :
    WellKept relays := by
  suffices hknown : ∀ address peer, (events.foldl Relay.next .start).knownMixRelays address = some peer → address = nodeAddressFor peer from
    ⟨h.nodup, fun entry hentry => hknown _ _ ((h.mem_iff _ _).mp hentry)⟩
  clear h
  induction events using List.reverseRecOn with
  | nil => exact fun _ _ h => by cases h
  | append_singleton events event ih =>
    intro address peer hmap
    rw [List.foldl_append, List.foldl_cons, List.foldl_nil] at hmap
    obtain ⟨now, event⟩ := event
    cases event with
    | connectionEstablished p =>
      rcases Table.insert_eq_some.mp hmap with ⟨rfl, rfl⟩ | ⟨-, hmap⟩
      · rfl
      · exact ih address peer hmap
    | connectionClosed p =>
      have hmap : (events.foldl Relay.next .start).knownMixRelays.remove (nodeAddressFor p) address = some peer := hmap
      rw [Table.remove_apply] at hmap
      split at hmap
      · cases hmap
      · exact ih address peer hmap
    | mixRequest peeled =>
      have hkept : (Relay.next (events.foldl Relay.next .start) (now, .mixRequest peeled)).knownMixRelays =
          (events.foldl Relay.next .start).knownMixRelays := (@Swarm.relay_mixRequest _ now peer _ peeled).1
      exact ih address peer (hkept ▸ hmap)
    | restart => cases hmap

end

theorem usableRelays_filter (p : PeerId) : usableRelays (relays.filter fun entry => entry.2 ≠ p) keys =
    (usableRelays relays keys).filter fun r => r.peer ≠ p := by
  unfold usableRelays
  rw [List.filterMap_filter, List.filter_filterMap]
  refine congrArg (List.filterMap · relays) (funext fun entry => ?_)
  by_cases hp : entry.2 = p <;> cases hk : keys entry.2 <;> simp [hp, Option.filter]

/-- What a pick takes from the relays that are not a certain peer. -/
theorem pickMixPath_spec (rng : Chance) (p : PeerId) (n : ℕ) :
    (pickMixPath (rng.order (relays.filter fun entry => entry.2 ≠ p)) keys n rng).Subperm
      ((usableRelays relays keys).filter fun r => r.peer ≠ p) ∧
    (pickMixPath (rng.order (relays.filter fun entry => entry.2 ≠ p)) keys n rng).length =
      min n ((usableRelays relays keys).filter fun r => r.peer ≠ p).length := by
  have hperm : (usableRelays (rng.order (relays.filter fun entry => entry.2 ≠ p)) keys).Perm
      ((usableRelays relays keys).filter fun r => r.peer ≠ p) := by
    rw [← usableRelays_filter]
    exact (rng.order_perm _).filterMap _
  constructor
  · exact (rng.chooseMultiple_subperm _ n).trans hperm.subperm
  · rw [pickMixPath, rng.length_chooseMultiple, hperm.length_eq]

theorem pickMixPath_nodup {β : Type} (f : MixRelay → β) (hf : ((usableRelays relays keys).map f).Nodup) (rng : Chance) (p : PeerId)
    (n : ℕ) : ((pickMixPath (rng.order (relays.filter fun entry => entry.2 ≠ p)) keys n rng).map f).Nodup := by
  obtain ⟨picked, hperm, hsub⟩ := (@pickMixPath_spec relays keys rng p n).1
  exact (hperm.map f).nodup_iff.mp (hf.sublist ((hsub.trans List.filter_sublist).map f))

/-- Without one of them there is one less. -/
theorem length_filter_peer [Primitives] (w : WellKept relays) (hr : r ∈ usableRelays relays keys) :
    ((usableRelays relays keys).filter fun r' => r'.peer ≠ r.peer).length + 1 = (usableRelays relays keys).length := by
  have hnodup : ((usableRelays relays keys).map (·.peer)).Nodup := w.nodup_usable
  have hinj := List.inj_on_of_nodup_map hnodup
  have herase : (usableRelays relays keys).filter (fun r' => r'.peer ≠ r.peer) = (usableRelays relays keys).erase r := by
    rw [(hnodup.of_map _).erase_eq_filter]
    refine List.filter_congr fun r' hr' => ?_
    have hiff : r'.peer = r.peer ↔ r' = r := ⟨fun h => hinj hr' hr h, congrArg MixRelay.peer⟩
    by_cases he : r' = r <;> simp [hiff, he]
  have hpos := List.length_pos_of_mem hr
  rw [herase, List.length_erase_of_mem hr]
  omega

/-! ### The path to a tag -/

section
variable [KBuckets] {tag : List UInt8} {path : List MixRelay}

/-- A path of usable relays that ends at the closest one. -/
structure PathTo (tag : List UInt8) (usable path : List MixRelay) : Prop where
  length : path.length = min mixPathHops usable.length
  distinct : (path.map (·.peer)).Nodup
  subset : ∀ r ∈ path, r ∈ usable
  closest : ∃ last, path.getLast? = some last ∧ ∀ r ∈ usable, KBuckets.distance last.peer tag ≤ KBuckets.distance r.peer tag

/-- A path is a pick of relays that are not the closest one, and the closest one. -/
theorem buildMixPathToTag_eq (rng : Chance) : buildMixPathToTag tag relays keys rng =
    (closestRelayToTag tag relays keys).map fun finalHop =>
      pickMixPath (rng.order (relays.filter fun entry => entry.2 ≠ finalHop.peer)) keys (mixPathHops - 1) rng ++ [finalHop] := by
  unfold buildMixPathToTag
  cases closestRelayToTag tag relays keys <;> rfl

theorem buildMixPathToTag_eq_none (rng : Chance) : buildMixPathToTag tag relays keys rng = none ↔ usableRelays relays keys = [] := by
  rw [buildMixPathToTag_eq, Option.map_eq_none_iff, closestRelayToTag, List.argmin_eq_none]

theorem closest_le {finalHop : MixRelay} (h : closestRelayToTag tag relays keys = some finalHop) (hr : r ∈ usableRelays relays keys) :
    KBuckets.distance finalHop.peer tag ≤ KBuckets.distance r.peer tag :=
  List.le_of_mem_argmin (f := fun r : MixRelay => KBuckets.distance r.peer tag) hr h

theorem closest_mem {finalHop : MixRelay} (h : closestRelayToTag tag relays keys = some finalHop) : finalHop ∈ usableRelays relays keys :=
  List.argmin_mem h

theorem pathTo_of_build [Primitives] (w : WellKept relays) {rng : Chance} (h : buildMixPathToTag tag relays keys rng = some path) :
    PathTo tag (usableRelays relays keys) path := by
  rw [buildMixPathToTag_eq] at h
  obtain ⟨finalHop, hfinal, rfl⟩ := Option.map_eq_some_iff.mp h
  obtain ⟨hsub, hlen⟩ := @pickMixPath_spec relays keys rng finalHop.peer (mixPathHops - 1)
  have hmem := closest_mem hfinal
  have hcount := length_filter_peer w hmem
  have hsubset : ∀ r ∈ pickMixPath (rng.order (relays.filter fun entry => entry.2 ≠ finalHop.peer)) keys (mixPathHops - 1) rng,
      r ∈ usableRelays relays keys ∧ r.peer ≠ finalHop.peer := fun r hr => by
    have := hsub.subset hr
    simpa using this
  refine ⟨?_, ?_, fun r hr => ?_, finalHop, List.getLast?_concat, fun r => closest_le hfinal⟩
  · rw [List.length_append, hlen, List.length_singleton, mixPathHops]
    omega
  · rw [List.map_append, List.map_singleton, List.nodup_append]
    refine ⟨pickMixPath_nodup _ w.nodup_usable rng _ _, List.nodup_singleton _, ?_⟩
    rintro p hp p' hp' rfl
    obtain ⟨r, hr, hpeer⟩ := List.mem_map.mp hp
    exact (hsubset r hr).2 (hpeer.trans (List.mem_singleton.mp hp'))
  · rcases List.mem_append.mp hr with hr | hr
    · exact (hsubset r hr).1
    · exact List.mem_singleton.mp hr ▸ hmem

/-- Whoever has the same usable relays ends at the same one. -/
theorem getLast?_of_same {relays' : RelayEntries} {keys' : Table PeerId RoutingKey} {path' : List MixRelay} {rng rng' : Chance}
    (hdistances : ∀ r ∈ usableRelays relays keys, ∀ r' ∈ usableRelays relays keys,
      KBuckets.distance r.peer tag = KBuckets.distance r'.peer tag → r = r')
    (hsame : ∀ r, r ∈ usableRelays relays' keys' ↔ r ∈ usableRelays relays keys)
    (h : buildMixPathToTag tag relays keys rng = some path) (h' : buildMixPathToTag tag relays' keys' rng' = some path') :
    path'.getLast? = path.getLast? := by
  rw [buildMixPathToTag_eq] at h h'
  obtain ⟨finalHop, hfinal, rfl⟩ := Option.map_eq_some_iff.mp h
  obtain ⟨finalHop', hfinal', rfl⟩ := Option.map_eq_some_iff.mp h'
  have hmem := closest_mem hfinal
  have hmem' := (hsame _).mp (closest_mem hfinal')
  have hle := closest_le hfinal hmem'
  have hle' := closest_le hfinal' ((hsame _).mpr hmem)
  rw [List.getLast?_concat, List.getLast?_concat, hdistances _ hmem' _ hmem (le_antisymm hle' hle)]

/-! ### The way back -/

variable [Primitives] {localPeerId : PeerId} {mixPublic : RoutingKey}

/-- A path from relays other than the responder to the node itself. -/
structure ReturnPath (usable : List MixRelay) (localPeerId : PeerId) (mixPublic : RoutingKey) (responder : MixRelay)
    (path : List MixHop) : Prop where
  distinct : (path.map (·.address)).Nodup
  avoids : ∀ hop ∈ path, hop.address ≠ responder.address
  relayed : ∀ hop ∈ path.dropLast, ∃ r ∈ usable, hop = ⟨r.address, r.publicKey⟩
  home : path.getLast? = some ⟨nodeAddressFor localPeerId, mixPublic⟩

/-- The peers that have an address in the node's mix: those it knows, and itself. -/
def mixPeers (relays : RelayEntries) (localPeerId : PeerId) : Set PeerId := {p | p = localPeerId ∨ ∃ address, (address, p) ∈ relays}

theorem returnPath_of_retrieval (w : WellKept relays) (hinj : Set.InjOn nodeAddressFor (mixPeers relays localPeerId))
    (hlocal : ∀ entry ∈ relays, entry.2 ≠ localPeerId) {rng returnRng : Chance} {returnPath : List MixHop}
    (h : retrievalPaths tag relays keys localPeerId mixPublic rng returnRng = some (path, returnPath)) :
    buildMixPathToTag tag relays keys rng = some path ∧ ∃ responder, path.getLast? = some responder ∧
      ReturnPath (usableRelays relays keys) localPeerId mixPublic responder returnPath := by
  obtain ⟨hops, hhops, heq⟩ := Option.bind_eq_some_iff.mp h
  obtain ⟨rfl, rfl⟩ := Prod.mk.inj (Option.some.inj heq)
  refine ⟨hhops, ?_⟩
  have hpath := pathTo_of_build w hhops
  obtain ⟨responder, hlast, -⟩ := hpath.closest
  have hresponder := hpath.subset responder (List.mem_of_getLast? hlast)
  have hcandidates : (relays.filter fun entry => some entry.2 ≠ hops.getLast?.map (·.peer)) =
      relays.filter fun entry => entry.2 ≠ responder.peer := by simp [hlast]
  rw [hcandidates]
  have haddress : ∀ r ∈ usableRelays relays keys, r.address = nodeAddressFor r.peer := fun r hr =>
    w.address _ (mem_usableRelays.mp hr).1
  -- Different peers have different addresses, and the node is none of them.
  have hother : ∀ r ∈ usableRelays relays keys, ∀ p ∈ mixPeers relays localPeerId, r.peer ≠ p → r.address ≠ nodeAddressFor p :=
    fun r hr p hp hne he => hne (hinj (.inr ⟨_, (mem_usableRelays.mp hr).1⟩) hp ((haddress r hr).symm.trans he))
  have hself : ∀ r ∈ usableRelays relays keys, r.address ≠ nodeAddressFor localPeerId := fun r hr =>
    hother r hr localPeerId (.inl rfl) (hlocal _ (mem_usableRelays.mp hr).1)
  have hpicked : ∀ r ∈ pickMixPath (returnRng.order (relays.filter fun entry => entry.2 ≠ responder.peer)) keys (mixPathHops - 1) returnRng,
      r ∈ usableRelays relays keys ∧ r.peer ≠ responder.peer := fun r hr => by
    have := (pickMixPath_spec returnRng responder.peer (mixPathHops - 1)).1.subset hr
    simpa using this
  refine ⟨responder, hlast, ?_, fun hop hhop => ?_, fun hop hhop => ?_, List.getLast?_concat⟩
  · rw [List.map_append, List.map_singleton, List.map_map, List.nodup_append]
    refine ⟨pickMixPath_nodup _ w.nodup_addresses returnRng _ _, List.nodup_singleton _, ?_⟩
    rintro a ha _ hself' rfl
    obtain ⟨r, hr, rfl⟩ := List.mem_map.mp ha
    exact hself r (hpicked r hr).1 (List.mem_singleton.mp hself')
  · rcases List.mem_append.mp hhop with hhop | hhop
    · obtain ⟨r, hr, rfl⟩ := List.mem_map.mp hhop
      obtain ⟨hr, hne⟩ := hpicked r hr
      rw [haddress responder hresponder]
      exact hother r hr _ (.inr ⟨_, (mem_usableRelays.mp hresponder).1⟩) hne
    · obtain rfl := List.mem_singleton.mp hhop
      exact (hself responder hresponder).symm
  · rw [List.dropLast_concat] at hhop
    obtain ⟨r, hr, rfl⟩ := List.mem_map.mp hhop
    exact ⟨r, (hpicked r hr).1, rfl⟩

/-- Every node that uses the same relays ends its paths to a tag at the same relay, which the way back avoids. -/
theorem mix_paths_meet (w : WellKept relays) (hinj : Set.InjOn nodeAddressFor (mixPeers relays localPeerId))
    (hlocal : ∀ entry ∈ relays, entry.2 ≠ localPeerId)
    (hdistances : ∀ r ∈ usableRelays relays keys, ∀ r' ∈ usableRelays relays keys,
      KBuckets.distance r.peer tag = KBuckets.distance r'.peer tag → r = r') (rng returnRng : Chance) :
    (buildMixPathToTag tag relays keys rng = none ↔ usableRelays relays keys = []) ∧
    (∀ path, buildMixPathToTag tag relays keys rng = some path → PathTo tag (usableRelays relays keys) path ∧
      ∀ (relays' : RelayEntries) (keys' : Table PeerId RoutingKey) (rng' : Chance) (path' : List MixRelay),
        (∀ r, r ∈ usableRelays relays' keys' ↔ r ∈ usableRelays relays keys) →
        buildMixPathToTag tag relays' keys' rng' = some path' → path'.getLast? = path.getLast?) ∧
    (retrievalPaths tag relays keys localPeerId mixPublic rng returnRng = none ↔ usableRelays relays keys = []) ∧
    ∀ path returnPath, retrievalPaths tag relays keys localPeerId mixPublic rng returnRng = some (path, returnPath) →
      ∃ responder, path.getLast? = some responder ∧
        ReturnPath (usableRelays relays keys) localPeerId mixPublic responder returnPath := by
  refine ⟨buildMixPathToTag_eq_none rng, fun path h => ⟨pathTo_of_build w h, fun relays' keys' rng' path' hsame h' => ?_⟩, ?_,
    fun path returnPath h => (returnPath_of_retrieval w hinj hlocal h).2⟩
  · exact getLast?_of_same hdistances hsame h h'
  · have hnone : buildMixPathToTag tag relays keys rng = none ↔ usableRelays relays keys = [] := buildMixPathToTag_eq_none rng
    rw [← hnone]
    unfold retrievalPaths
    cases buildMixPathToTag tag relays keys rng <;> simp

end

/-! ### Two relays -/

/-- Takes the first items, in the order of the map that they come from. -/
def Chance.first : Chance where
  order entries := entries
  order_perm _ := .refl _
  chooseMultiple items amount := items.take amount
  chooseMultiple_subperm items amount := (items.take_sublist amount).subperm
  length_chooseMultiple _ _ := List.length_take

section
attribute [local instance] unsigned

/-- The XOR of the two SHA-256 digests. -/
@[reducible] def xorBuckets : KBuckets where
  distance peer tag := (Primitives.sha256 peer).toNat ^^^ (Primitives.sha256 tag).toNat

attribute [local instance] xorBuckets

def twoRelays : RelayEntries := [(nodeAddressFor [1], [1]), (nodeAddressFor [2], [2])]

/-- Every peer's key is known. -/
def zeroKeys : Table PeerId RoutingKey := fun _ => some (.replicate 32 0)

theorem mix_paths_meet_two : ∃ path returnPath, retrievalPaths [4] twoRelays zeroKeys [3] (.replicate 32 0) .first .first =
    some (path, returnPath) ∧ ∃ responder, path.getLast? = some responder ∧
      ReturnPath (usableRelays twoRelays zeroKeys) [3] (.replicate 32 0) responder returnPath := by
  have hwell : WellKept twoRelays := by
    refine ⟨by decide +kernel, fun entry hentry => ?_⟩
    rcases List.mem_cons.mp hentry with rfl | hentry
    · rfl
    · rw [List.mem_singleton.mp hentry]
  have hpeers : ∀ p ∈ mixPeers twoRelays [3], p ∈ ([[3], [1], [2]] : List PeerId) := by
    rintro p (rfl | ⟨address, hp⟩)
    · exact List.mem_cons_self
    · have hmem : p ∈ twoRelays.map (·.2) := List.mem_map.mpr ⟨_, hp, rfl⟩
      exact List.mem_cons_of_mem _ hmem
  have haddresses : (([[3], [1], [2]] : List PeerId).map nodeAddressFor).Nodup := by decide +kernel
  have hdistances : ((usableRelays twoRelays zeroKeys).map fun r => KBuckets.distance r.peer [4]).Nodup := by decide +kernel
  obtain ⟨-, -, hnone, hback⟩ := @mix_paths_meet twoRelays zeroKeys _ [4] _ [3] (.replicate 32 0) hwell
    (fun p hp p' hp' h => List.inj_on_of_nodup_map haddresses (hpeers p hp) (hpeers p' hp') h) (by decide)
    (fun r hr r' hr' h => List.inj_on_of_nodup_map hdistances hr hr' h) .first .first
  obtain ⟨⟨path, returnPath⟩, h⟩ := Option.ne_none_iff_exists'.mp (mt hnone.mp (by decide))
  exact ⟨path, returnPath, h, hback path returnPath h⟩

end
end SpiritChat
