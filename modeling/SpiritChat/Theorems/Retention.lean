import SpiritChat.P2p.Relay
import SpiritChat.Theorems.MailBudget

/-! # How long a relay serves a deposit

No round of the event loop evicts what is expired, so a deposit is served as long as nothing else takes it out. -/

namespace SpiritChat
open Lib

/-- More than `RETENTION_SECS` before `now`, by the time in its key -/
def CachedDeposit.Expired (c : CachedDeposit) (now : UInt64) : Prop :=
  MailboxStore.keyTime c.key + retentionSecs < now.toNat

/-! ### What is filed under a tag -/

namespace MailboxStore
variable {s : MailboxStore} {tag : Bytes 32} {c : CachedDeposit}

/-- The index has the key under the tag, and the table has a deposit for it. -/
def Filed (s : MailboxStore) (tag : Bytes 32) (key : Bytes 40) : Prop := (tag, key) ∈ s.byTag ∧ s.get key ≠ none

theorem mem_forTag : c ∈ s.forTag tag ↔ (tag, c.key) ∈ s.byTag ∧ ∃ stored, s.get c.key = some stored ∧ stored.envelope = c.envelope := by
  have hkeys (key : Bytes 40) : key ∈ ((s.byTag.filter (·.1 = tag)).map (·.2)).insertionSort (· ≤ ·) ↔ (tag, key) ∈ s.byTag := by
    rw [List.mem_insertionSort]
    simp
  rw [MailboxStore.forTag, List.mem_filterMap]
  constructor
  · rintro ⟨key, hkey, hc⟩
    obtain ⟨stored, hget, rfl⟩ := Option.map_eq_some_iff.mp hc
    exact ⟨(hkeys key).mp hkey, stored, hget, rfl⟩
  · rintro ⟨hkey, stored, hget, henv⟩
    exact ⟨c.key, (hkeys _).mpr hkey, Option.map_eq_some_iff.mpr ⟨stored, hget, by rw [henv]⟩⟩

theorem pairwise_forTag (s : MailboxStore) (tag : Bytes 32) : (s.forTag tag).Pairwise fun c c' => c.key ≤ c'.key := by
  refine List.Pairwise.filterMap _ ?_ (List.pairwise_insertionSort (· ≤ ·) _)
  intro key key' hle c hc c' hc'
  obtain ⟨stored, -, rfl⟩ := Option.map_eq_some_iff.mp hc
  obtain ⟨stored', -, rfl⟩ := Option.map_eq_some_iff.mp hc'
  exact hle

/-- The first deposit under a tag is expired exactly if one is. -/
theorem head_expired_iff {rest : List CachedDeposit} {now : UInt64} (hc : s.forTag tag = c :: rest) :
    c.Expired now ↔ ∃ key, s.Filed tag key ∧ keyTime key + retentionSecs < now.toNat := by
  constructor
  · intro hexp
    obtain ⟨hkey, stored, hget, -⟩ := mem_forTag.mp (hc ▸ List.mem_cons_self)
    exact ⟨c.key, ⟨hkey, hget ▸ Option.some_ne_none _⟩, hexp⟩
  · rintro ⟨key, ⟨hkey, hget⟩, hexp⟩
    obtain ⟨stored, hstored⟩ := Option.ne_none_iff_exists'.mp hget
    have hmem : ⟨key, stored.envelope⟩ ∈ s.forTag tag := mem_forTag.mpr ⟨hkey, stored, hstored, rfl⟩
    have hsorted := s.pairwise_forTag tag
    rw [hc] at hmem hsorted
    have hle : keyTime c.key ≤ keyTime key := by
      rcases List.mem_cons.mp hmem with rfl | hrest
      · exact Nat.le_refl _
      · exact keyTime_le (List.rel_of_pairwise_cons hsorted hrest)
    exact Nat.lt_of_le_of_lt (Nat.add_le_add_right hle _) hexp

end MailboxStore

/-! ### The event loop -/

namespace Relay
variable [Primitives] {r : Relay} {now : UInt64}

/-- The loop's rounds, each with its time. -/
def next (r : Relay) (event : UInt64 × RelayEvent) : Relay := (r.handle event.1 event.2).1

/-- What the rounds hand over, with the time of each. -/
def outputs : Relay → List (UInt64 × RelayEvent) → List (UInt64 × RelayEffect)
  | _, [] => []
  | r, event :: events => (r.handle event.1 event.2).2.map (event.1, ·) ++ (r.next event).outputs events

/-- No answer to a query has a deposit that is expired at its time. -/
def ServesUnexpired (r : Relay) (events : List (UInt64 × RelayEvent)) : Prop :=
  ∀ now peer c, (now, .reply peer c) ∈ r.outputs events → ¬c.Expired now

omit [Primitives] in
/-- A reply with the first deposit under the tag can be sent. -/
def CanReply (r : Relay) (tag : Bytes 32) (surb : Surb) : Prop :=
  ∃ c ∈ (r.mailboxStore.forTag tag).head?, (surb (frameMailboxReply c.envelope)).bind r.knownMixRelays ≠ none

/-- A query that can be answered finds nothing that is expired under its tag. -/
def Fresh (r : Relay) : UInt64 × RelayEvent → Prop
  | (now, .mixRequest (.ok (.final (.query tag surb)))) =>
    r.CanReply tag surb → ∀ key, r.mailboxStore.Filed tag key → ¬MailboxStore.keyTime key + retentionSecs < now.toNat
  | _ => True

omit [Primitives] in
theorem reply_of_handleQuery {tag : Bytes 32} {surb : Surb} {effect : RelayEffect} (h : effect ∈ r.handleQuery tag surb) :
    ∃ peer c rest, effect = .reply peer c ∧ r.mailboxStore.forTag tag = c :: rest ∧
      (surb (frameMailboxReply c.envelope)).bind r.knownMixRelays = some peer := by
  unfold handleQuery at h
  split at h
  · exact absurd h List.not_mem_nil
  · rename_i c rest hc
    split at h
    · exact absurd h List.not_mem_nil
    · rename_i peer hpeer
      exact ⟨peer, c, rest, List.mem_singleton.mp h, hc, hpeer⟩

omit [Primitives] in
theorem handleQuery_unexpired_iff {tag : Bytes 32} {surb : Surb} :
    (∀ peer c, .reply peer c ∈ r.handleQuery tag surb → ¬c.Expired now) ↔
      r.Fresh (now, .mixRequest (.ok (.final (.query tag surb)))) := by
  constructor
  · rintro h ⟨c, hc, hpeer⟩ key hfiled hexp
    obtain ⟨peer, hpeer⟩ := Option.ne_none_iff_exists'.mp hpeer
    obtain ⟨rest, hc⟩ := List.head?_eq_some_iff.mp hc
    have hreply : .reply peer c ∈ r.handleQuery tag surb := by simp [handleQuery, hc, hpeer]
    exact h peer c hreply ((MailboxStore.head_expired_iff hc).mpr ⟨key, hfiled, hexp⟩)
  · intro h peer c hreply hexp
    obtain ⟨_, _, rest, heq, hc, hpeer⟩ := reply_of_handleQuery hreply
    obtain ⟨rfl, rfl⟩ := RelayEffect.reply.inj heq
    obtain ⟨key, hfiled, hkey⟩ := (MailboxStore.head_expired_iff hc).mp hexp
    exact h ⟨c, by rw [hc]; rfl, hpeer ▸ Option.some_ne_none _⟩ key hfiled hkey

/-- Only a query is answered. -/
theorem handle_unexpired_iff (r : Relay) (now : UInt64) (event : RelayEvent) :
    (∀ peer c, .reply peer c ∈ (r.handle now event).2 → ¬c.Expired now) ↔ r.Fresh (now, event) := by
  rcases event with peer | peer | peeled | _
  · exact iff_of_true (fun _ _ h => by simp [handle] at h) trivial
  · exact iff_of_true (fun _ _ h => by simp [handle] at h) trivial
  · rcases peeled with reason | nextHop | payload
    · exact iff_of_true (fun _ _ h => by simp [handle, handleMixEvent] at h) trivial
    · refine iff_of_true (fun _ _ h => ?_) trivial
      rw [handle, handleMixEvent] at h
      split at h <;> simp at h
    · cases payload with
      | deposit d =>
        refine iff_of_true (fun _ _ h => ?_) trivial
        rw [handle, handleMixEvent] at h
        split at h <;> simp at h
      | query tag surb => exact handleQuery_unexpired_iff
      | dummy | reply | other => exact iff_of_true (fun _ _ h => by simp [handle, handleMixEvent] at h) trivial
  · exact iff_of_true (fun _ _ h => by simp [handle] at h) trivial

theorem servesUnexpired_iff {events : List (UInt64 × RelayEvent)} :
    r.ServesUnexpired events ↔ Run.Follows next Fresh r events := by
  induction events generalizing r with
  | nil => exact iff_of_true (fun _ _ _ h => absurd h List.not_mem_nil) trivial
  | cons event events ih =>
    rw [Run.Follows, ← ih, ← handle_unexpired_iff r event.1 event.2, ServesUnexpired, ServesUnexpired, outputs]
    constructor
    · intro h
      refine ⟨fun peer c hc => h _ peer c ?_, fun now peer c hc => h now peer c (List.mem_append_right _ hc)⟩
      exact List.mem_append_left _ (List.mem_map.mpr ⟨_, hc, rfl⟩)
    · rintro ⟨hhead, hrest⟩ now peer c hc
      rcases List.mem_append.mp hc with hc | hc
      · obtain ⟨effect, heffect, heq⟩ := List.mem_map.mp hc
        obtain ⟨rfl, rfl⟩ := Prod.mk.inj heq
        exact hhead peer c heffect
      · exact hrest now peer c hc

/-! ### What is answered was accepted -/

/-- The calls to the store in a round. -/
def mailboxOps (now : UInt64) : RelayEvent → List MailboxOp
  | .mixRequest (.ok (.final (.deposit d))) => match d.validate now with
    | .ok () => [.accept d]
    | .error _ => []
  | .restart => [.setLimitBytes MailboxStore.defaultCacheLimitBytes]
  | _ => []

theorem mailboxStore_next (r : Relay) (event : UInt64 × RelayEvent) :
    (r.next event).mailboxStore = (mailboxOps event.1 event.2).foldl MailboxStore.apply r.mailboxStore := by
  obtain ⟨now, event⟩ := event
  rw [next]
  rcases event with peer | peer | peeled | _
  · rfl
  · rfl
  · rcases peeled with reason | nextHop | payload
    · rfl
    · rw [handle, handleMixEvent]
      split <;> rfl
    · cases payload with
      | deposit d =>
        show (r.handleMixEvent now (.ok (.final (.deposit d)))).1.mailboxStore = _
        rw [handleMixEvent, mailboxOps]
        split <;> simp_all [MailboxStore.apply]
      | dummy | query | reply | other => rfl
  · rfl

/-- The store of a relay is one that calls lead to. -/
theorem mailboxStore_foldl (events : List (UInt64 × RelayEvent)) :
    ((events.foldl next start).mailboxStore) = MailboxStore.run (events.flatMap fun event => mailboxOps event.1 event.2) := by
  induction events using List.reverseRecOn with
  | nil => rfl
  | append_singleton events event ih =>
    rw [List.foldl_append, List.foldl_cons, List.foldl_nil, mailboxStore_next, ih, List.flatMap_append, MailboxStore.run,
      MailboxStore.run, List.foldl_append, List.flatMap_singleton]

/-- The deposit in an answer is one that was accepted, under the time that it came with. -/
theorem reply_accepted {events : List (UInt64 × RelayEvent)} {tag : Bytes 32} {surb : Surb} {peer : PeerId} {c : CachedDeposit}
    (h : .reply peer c ∈ (events.foldl next start).handleQuery tag surb) :
    ∃ d ∈ acceptedBy (events.flatMap fun event => mailboxOps event.1 event.2), d.cached = c := by
  obtain ⟨_, _, rest, heq, hc, -⟩ := reply_of_handleQuery h
  obtain ⟨rfl, rfl⟩ := RelayEffect.reply.inj heq
  obtain ⟨-, stored, hget, henv⟩ := MailboxStore.mem_forTag.mp (hc ▸ List.mem_cons_self)
  rw [mailboxStore_foldl] at hget
  obtain ⟨ds, hmap, hds, -⟩ := MailboxStore.run_rows (events.flatMap fun event => mailboxOps event.1 event.2)
  obtain ⟨d, hd, hrow⟩ := List.mem_map.mp (hmap ▸ mem_of_lookup hget)
  obtain ⟨hkey, rfl⟩ := Prod.mk.inj hrow
  refine ⟨d, hds d hd, ?_⟩
  rw [MailboxDeposit.cached, hkey]
  cases c
  exact congrArg _ henv

end Relay

section
variable [Primitives]

/-- A relay serves nothing that is expired in exactly the runs in which each query that can be answered comes while
nothing under its tag is. -/
theorem unexpired_served_iff (events : List (UInt64 × RelayEvent)) :
    Relay.start.ServesUnexpired events ↔ Run.Follows Relay.next Relay.Fresh Relay.start events :=
  Relay.servesUnexpired_iff

end

section
attribute [local instance] unsigned

/-- When a deposit was served and when it was deposited. -/
def RelayEffect.servedAt : UInt64 × RelayEffect → Option (UInt64 × ℕ)
  | (now, .reply _ c) => some (now, MailboxStore.keyTime c.key)
  | _ => none

theorem RelayEffect.servedAt_eq_some {now now' : UInt64} {effect : RelayEffect} {time : ℕ} :
    servedAt (now, effect) = some (now', time) ↔
      ∃ peer c, effect = .reply peer c ∧ now = now' ∧ MailboxStore.keyTime c.key = time := by
  cases effect <;> simp [servedAt]

/-- A deposit with its stamp, and a query for it a second after its retention. -/
def lateQuery : List (UInt64 × RelayEvent) :=
  [(1750000000, .connectionEstablished [0x01]),
    (1750000000, .mixRequest (.ok (.final (.deposit
      ⟨.replicate 32 7, [0x01], 1750000000, ⟨[45, 138, 15, 0, 0, 0, 0, 0], rfl⟩⟩)))),
    (1751209601, .mixRequest (.ok (.final (.query (.replicate 32 7) fun _ => some (nodeAddressFor [0x01])))))]

theorem expired_is_served : ¬Relay.start.ServesUnexpired lateQuery := by
  have hserved : (Relay.start.outputs lateQuery).filterMap RelayEffect.servedAt = [(1751209601, 1750000000)] := by
    decide +kernel
  obtain ⟨⟨now, effect⟩, hmem, hat⟩ := List.mem_filterMap.mp (hserved ▸ List.mem_singleton_self _)
  obtain ⟨peer, c, rfl, hnow, htime⟩ := RelayEffect.servedAt_eq_some.mp hat
  intro h
  refine h now peer c hmem ?_
  rw [CachedDeposit.Expired, htime, hnow]
  decide

end
end SpiritChat
