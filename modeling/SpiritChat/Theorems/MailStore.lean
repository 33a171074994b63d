import Mathlib.Data.Set.Insert
import Mathlib.Logic.Relation
import SpiritChat.Ledger.Exact
import SpiritChat.Lib.Digits
import SpiritChat.Lib.Ordered
import SpiritChat.P2p.Mailbox

/-! # The mailbox as a map from tags to deposits

The store keeps its deposits in one table under keys that start with their times, and in an index by tag. Here a
mailbox is the set of the deposits that wait in it. Each call of the store is a step of that set, and what the store
answers is read off it. -/

namespace SpiritChat
open Lib

/-! ### Keys -/

section
variable {n : ℕ} {a b c : Bytes n}

theorem toList_le_iff : a.toList ≤ b.toList ↔ ofBytesBE a.toList ≤ ofBytesBE b.toList :=
  le_iff_ofBytesBE_le (a.length_eq.trans b.length_eq.symm)

instance : Std.Total fun a b : Bytes n => a.toList ≤ b.toList where
  total a b := by
    rw [toList_le_iff, toList_le_iff]
    exact Nat.le_total _ _

instance : IsTrans (Bytes n) fun a b => a.toList ≤ b.toList where
  trans a b c := by
    rw [toList_le_iff, toList_le_iff, toList_le_iff]
    exact Nat.le_trans

instance : Std.Antisymm fun a b : Bytes n => a.toList ≤ b.toList where
  antisymm a b hab hba := by
    rw [toList_le_iff] at hab hba
    exact Bytes.ext_toList (ofBytesBE_inj (a.length_eq.trans b.length_eq.symm) (Nat.le_antisymm hab hba))

end

instance : Std.Total (α := Bytes 40) (· ≤ ·) := inferInstanceAs (Std.Total fun a b : Bytes 40 => a.toList ≤ b.toList)

instance : IsTrans (Bytes 40) (· ≤ ·) := inferInstanceAs (IsTrans (Bytes 40) fun a b => a.toList ≤ b.toList)

namespace MailboxStore

/-- Keys are in the order of their times. -/
theorem keyTime_le {a b : Bytes 40} (h : a ≤ b) : keyTime a ≤ keyTime b := by
  have hdiv (k : Bytes 40) : keyTime k = ofBytesBE k.toList / 256 ^ 32 := by
    have hlen : (k.toList.drop 8).length = 32 := by rw [List.length_drop, k.length_eq]
    rw [keyTime, ← ofBytesBE_append_div hlen, List.take_append_drop]
  rw [hdiv, hdiv]
  exact Nat.div_le_div_right (toList_le_iff.mp h)

theorem keyTime_depositKey [Primitives] (d : MailboxDeposit) : keyTime (depositKey d) = d.depositedAt.toNat := by
  have htake : (depositKey d).toList.take 8 = beBytes d.depositedAt := List.take_left' (by simp [beBytes])
  rw [keyTime, htake, beBytes, ofBytesBE_reverse_leBytes]
  exact d.depositedAt.toNat_lt

end MailboxStore

/-! ### The map -/

/-- The calls that change a store. -/
inductive MailboxOp where
  | accept (deposit : MailboxDeposit)
  | remove (key : Bytes 40)
  | evictOldest
  | evictExpired (now : UInt64)
  | setLimitBytes (limit : ℕ)

/-- The deposit that a call brings. -/
def MailboxOp.accepted? : MailboxOp → Option MailboxDeposit
  | accept deposit => some deposit
  | _ => none

/-- The deposits that these calls bring. -/
def acceptedBy (ops : List MailboxOp) : List MailboxDeposit := ops.filterMap MailboxOp.accepted?

def MailboxDeposit.stored (d : MailboxDeposit) : StoredDeposit := ⟨d.tag, d.envelope⟩

/-- More than `RETENTION_SECS` before `now` -/
def MailboxDeposit.Expired (d : MailboxDeposit) (now : UInt64) : Prop := d.depositedAt.toNat + retentionSecs < now.toNat

/-- The deposits that wait in a mailbox. -/
abbrev Mail := Set MailboxDeposit

/-- The map from tags to deposits. -/
def Mail.under (m : Mail) (tag : Bytes 32) : Set MailboxDeposit := {d | d ∈ m ∧ d.tag = tag}

def Mail.unexpired (m : Mail) (now : UInt64) : Mail := {d | d ∈ m ∧ ¬d.Expired now}

section
variable [Primitives]

def MailboxDeposit.cached (d : MailboxDeposit) : CachedDeposit := ⟨depositKey d, d.envelope⟩

namespace Mail

/-- The deposit that is first by time, and by its digest among those of one time, goes. -/
def DropsOldest (m m' : Mail) : Prop := ∃ d ∈ m, (∀ d' ∈ m, depositKey d ≤ depositKey d') ∧ m' = m \ {d}

/-- What a call does to a mailbox; how many deposits go to make room is left open here. -/
inductive Step (m : Mail) : MailboxOp → Mail → Prop
  | accept (d : MailboxDeposit) {m' : Mail} (h : Relation.ReflTransGen DropsOldest m m') : Step m (.accept d) (insert d m')
  | remove (key : Bytes 40) : Step m (.remove key) {d | d ∈ m ∧ depositKey d ≠ key}
  | evictOldest {m' : Mail} (h : DropsOldest m m') : Step m .evictOldest m'
  | evictNothing (h : m = ∅) : Step m .evictOldest m
  | evictExpired (now : UInt64) : Step m (.evictExpired now) (m.unexpired now)
  | setLimitBytes (limit : ℕ) : Step m (.setLimitBytes limit) m

/-- What calls lead to from the empty mailbox. -/
inductive Runs : List MailboxOp → Mail → Prop
  | nil : Runs [] ∅
  | concat {ops : List MailboxOp} {m m' : Mail} {op : MailboxOp} (h : Runs ops m) (hs : Step m op m') : Runs (ops ++ [op]) m'

theorem DropsOldest.subset {m m' : Mail} (h : Relation.ReflTransGen DropsOldest m m') : m' ⊆ m := by
  induction h with
  | refl => exact subset_rfl
  | tail _ hdrop ih =>
    obtain ⟨d, -, -, rfl⟩ := hdrop
    exact Set.sdiff_subset.trans ih

theorem Step.mem_of_mem {m m' : Mail} {op : MailboxOp} {d : MailboxDeposit} (h : Step m op m') (hd : d ∈ m') :
    d ∈ m ∨ op.accepted? = some d := by
  cases h with
  | accept d' hdrops => exact hd.elim (fun he => .inr (congrArg some he.symm)) fun hd => .inl (DropsOldest.subset hdrops hd)
  | remove | evictExpired => exact .inl hd.1
  | evictOldest hdrop => exact .inl (DropsOldest.subset (.single hdrop) hd)
  | evictNothing | setLimitBytes => exact .inl hd

/-- What waits was brought. -/
theorem Runs.mem_acceptedBy {ops : List MailboxOp} {m : Mail} (h : Runs ops m) : ∀ d ∈ m, d ∈ acceptedBy ops := by
  induction h with
  | nil => exact fun d hd => hd.elim
  | concat _ hs ih =>
    intro d hd
    have hlast := (hs.mem_of_mem hd).imp_left (ih d)
    simpa [acceptedBy] using hlast

end Mail

namespace MailboxStore

def apply (s : MailboxStore) : MailboxOp → MailboxStore
  | .accept deposit => s.accept deposit
  | .remove key => s.remove key
  | .evictOldest => s.evictOldest.1
  | .evictExpired now => s.evictExpired now
  | .setLimitBytes limit => s.setLimitBytes limit

/-- The store that calls lead to from a new file. -/
def run (ops : List MailboxOp) : MailboxStore := ops.foldl apply create

theorem run_concat (ops : List MailboxOp) (op : MailboxOp) : run (ops ++ [op]) = (run ops).apply op := by
  rw [run, List.foldl_append, List.foldl_cons, List.foldl_nil, run]

/-- Both tables keep these deposits. -/
structure Holds (s : MailboxStore) (m : Mail) : Prop where
  ordered : Ordered (· ≤ ·) s.deposits
  deposits : ∀ key stored, (key, stored) ∈ s.deposits ↔ ∃ d ∈ m, depositKey d = key ∧ d.stored = stored
  nodup : s.byTag.Nodup
  byTag : ∀ tag key, (tag, key) ∈ s.byTag ↔ ∃ d ∈ m, d.tag = tag ∧ depositKey d = key
  injOn : Set.InjOn depositKey m

/-- The store answers as the map does. -/
structure Answers (s : MailboxStore) (m : Mail) : Prop where
  /-- The index and the table refer to the same deposits, each to one once. -/
  indexed : ∀ tag key, (tag, key) ∈ s.byTag ↔ ∃ stored, (key, stored) ∈ s.deposits ∧ stored.tag = tag
  nodup_index : s.byTag.Nodup
  nodup_keys : (s.deposits.map (·.1)).Nodup
  forTag : ∀ tag, ∃ ds : List MailboxDeposit, s.forTag tag = ds.map MailboxDeposit.cached ∧ ds.Nodup ∧
    ds.Pairwise (fun d d' => d.depositedAt ≤ d'.depositedAt) ∧ ∀ d, d ∈ ds ↔ d ∈ m.under tag
  nodup_tags : s.distinctTags.Nodup
  distinctTags : ∀ tag, tag ∈ s.distinctTags ↔ (m.under tag).Nonempty

/-! ### What the tables do -/

section
omit [Primitives]
variable {s : MailboxStore} {key key' : Bytes 40} {tag : Bytes 32} {len : ℕ}

theorem mem_removeLocked {e : Bytes 40 × StoredDeposit} :
    e ∈ (s.removeLocked key tag len).deposits ↔ e ∈ s.deposits ∧ e.1 ≠ key := mem_eraseKey

theorem mem_byTag_removeLocked {e : Bytes 32 × Bytes 40} :
    e ∈ (s.removeLocked key tag len).byTag ↔ e ∈ s.byTag ∧ e ≠ (tag, key) := by
  simp [removeLocked]

end

variable {s : MailboxStore} {m m' : Mail} {d : MailboxDeposit}

theorem holds_create : create.Holds ∅ where
  ordered := .nil
  deposits _ _ := iff_of_false List.not_mem_nil fun ⟨_, h, _⟩ => h
  nodup := List.nodup_nil
  byTag _ _ := iff_of_false List.not_mem_nil fun ⟨_, h, _⟩ => h
  injOn := Set.injOn_empty _

namespace Holds

theorem get_eq_some (h : s.Holds m) {key : Bytes 40} {stored : StoredDeposit} :
    s.get key = some stored ↔ ∃ d ∈ m, depositKey d = key ∧ d.stored = stored :=
  h.ordered.lookup_eq_some.trans (h.deposits key stored)

theorem eq_empty (h : s.Holds m) (hs : s.deposits = []) : m = ∅ := by
  refine Set.eq_empty_of_forall_notMem fun d hd => ?_
  have hmem : (depositKey d, d.stored) ∈ s.deposits := (h.deposits _ _).mpr ⟨d, hd, rfl, rfl⟩
  rw [hs] at hmem
  exact List.not_mem_nil hmem

/-- The first row of the table is the oldest deposit. -/
theorem head (h : s.Holds m) {key : Bytes 40} {stored : StoredDeposit} {rest : List (Bytes 40 × StoredDeposit)}
    (hs : s.deposits = (key, stored) :: rest) :
    ∃ d ∈ m, depositKey d = key ∧ d.stored = stored ∧ ∀ d' ∈ m, depositKey d ≤ depositKey d' := by
  obtain ⟨d, hd, hkey, hstored⟩ := (h.deposits key stored).mp (hs ▸ List.mem_cons_self)
  refine ⟨d, hd, hkey, hstored, fun d' hd' => ?_⟩
  have hmem := (h.deposits _ _).mpr ⟨d', hd', rfl, rfl⟩
  rw [hkey]
  exact (hs ▸ h.ordered).le_of_mem _ (hs ▸ hmem)

/-- `remove_locked` of a deposit that is there takes it out of both tables. -/
theorem removeLocked (h : s.Holds m) (hd : d ∈ m) (len : ℕ) :
    (s.removeLocked (depositKey d) d.tag len).Holds (m \ {d}) where
  ordered := h.ordered.eraseKey
  deposits key stored := by
    rw [mem_removeLocked, h.deposits]
    constructor
    · rintro ⟨⟨d', hd', rfl, rfl⟩, hne⟩
      exact ⟨d', ⟨hd', fun he => hne (congrArg depositKey he)⟩, rfl, rfl⟩
    · rintro ⟨d', ⟨hd', hne⟩, rfl, rfl⟩
      exact ⟨⟨d', hd', rfl, rfl⟩, fun hk => hne (h.injOn hd' hd hk)⟩
  nodup := h.nodup.filter _
  byTag tag key := by
    rw [mem_byTag_removeLocked, h.byTag]
    constructor
    · rintro ⟨⟨d', hd', rfl, rfl⟩, hne⟩
      exact ⟨d', ⟨hd', fun he => hne (by rw [show d' = d from he])⟩, rfl, rfl⟩
    · rintro ⟨d', ⟨hd', hne⟩, rfl, rfl⟩
      exact ⟨⟨d', hd', rfl, rfl⟩, fun hk => hne (h.injOn hd' hd (Prod.mk.inj hk).2)⟩
  injOn := h.injOn.mono Set.sdiff_subset

/-- What a write transaction of `accept` puts into both tables; it takes the place of the same deposit. -/
theorem insert (h : s.Holds m) (hinj : Set.InjOn depositKey (insert d m)) (total limit : ℕ) :
    Holds ⟨put (· ≤ ·) s.deposits (depositKey d) d.stored,
      s.byTag.filter (· ≠ (d.tag, depositKey d)) ++ [(d.tag, depositKey d)], total, limit⟩ (insert d m) where
  ordered := h.ordered.put
  deposits key stored := by
    rw [mem_put, h.deposits]
    constructor
    · rintro (he | ⟨⟨d', hd', rfl, rfl⟩, -⟩)
      · obtain ⟨rfl, rfl⟩ := Prod.mk.inj he
        exact ⟨d, Set.mem_insert d m, rfl, rfl⟩
      · exact ⟨d', Set.mem_insert_of_mem d hd', rfl, rfl⟩
    · rintro ⟨d', hd', rfl, rfl⟩
      by_cases hk : depositKey d' = depositKey d
      · rw [hinj hd' (Set.mem_insert d m) hk]
        exact .inl rfl
      · have hne : d' ≠ d := fun he => hk (congrArg depositKey he)
        exact .inr ⟨⟨d', Set.mem_of_mem_insert_of_ne hd' hne, rfl, rfl⟩, hk⟩
  nodup := by
    refine List.nodup_append.mpr ⟨h.nodup.filter _, List.nodup_singleton _, ?_⟩
    rintro e he e' he' rfl
    rw [List.mem_singleton] at he'
    exact of_decide_eq_true (List.mem_filter.mp he).2 he'
  byTag tag key := by
    rw [List.mem_append, List.mem_singleton, List.mem_filter, h.byTag, decide_eq_true_eq]
    constructor
    · rintro (⟨⟨d', hd', rfl, rfl⟩, -⟩ | he)
      · exact ⟨d', Set.mem_insert_of_mem d hd', rfl, rfl⟩
      · obtain ⟨rfl, rfl⟩ := Prod.mk.inj he
        exact ⟨d, Set.mem_insert d m, rfl, rfl⟩
    · rintro ⟨d', hd', rfl, rfl⟩
      by_cases he : (d'.tag, depositKey d') = (d.tag, depositKey d)
      · exact .inr he
      · have hne : d' ≠ d := fun heq => he (by rw [heq])
        exact .inl ⟨⟨d', Set.mem_of_mem_insert_of_ne hd' hne, rfl, rfl⟩, he⟩
  injOn := hinj

end Holds

/-! ### What a call does -/

omit [Primitives] in
theorem evictOldest_of_nil (hs : s.deposits = []) : s.evictOldest = (s, false) := by rw [evictOldest, hs]

omit [Primitives] in
theorem evictOldest_of_cons {key : Bytes 40} {stored : StoredDeposit} {rest : List (Bytes 40 × StoredDeposit)}
    (hs : s.deposits = (key, stored) :: rest) :
    s.evictOldest = (s.removeLocked key stored.tag stored.envelope.length, true) := by rw [evictOldest, hs]

namespace Holds

theorem evictOldest (h : s.Holds m) :
    s.deposits = [] ∧ m = ∅ ∧ s.evictOldest = (s, false) ∨
      ∃ m', m.DropsOldest m' ∧ s.evictOldest.1.Holds m' ∧ s.evictOldest.2 = true := by
  rcases hs : s.deposits with _ | ⟨⟨key, stored⟩, rest⟩
  · exact .inl ⟨rfl, h.eq_empty hs, evictOldest_of_nil hs⟩
  · obtain ⟨d, hd, rfl, rfl, hleast⟩ := h.head hs
    rw [evictOldest_of_cons hs]
    exact .inr ⟨m \ {d}, ⟨d, hd, hleast, rfl⟩, h.removeLocked hd _, rfl⟩

theorem evictUntilRoomFor (h : s.Holds m) (additional turns : ℕ) :
    ∃ m', Relation.ReflTransGen Mail.DropsOldest m m' ∧ (evictUntilRoomFor additional turns s).Holds m' := by
  induction turns generalizing s m with
  | zero => exact ⟨m, .refl, h⟩
  | succ turns ih =>
    rw [MailboxStore.evictUntilRoomFor]
    split
    · exact ⟨m, .refl, h⟩
    · rcases h.evictOldest with ⟨-, -, he⟩ | ⟨m₁, hdrop, h₁, htrue⟩
      · rw [he]
        exact ⟨m, .refl, h⟩
      · rw [show s.evictOldest = (s.evictOldest.1, true) from Prod.ext rfl htrue]
        obtain ⟨m₂, hdrops, h₂⟩ := ih h₁
        exact ⟨m₂, .head hdrop hdrops, h₂⟩

theorem accept (h : s.Holds m) (hinj : Set.InjOn depositKey (Insert.insert d m)) :
    ∃ m', m.Step (.accept d) m' ∧ (s.accept d).Holds m' := by
  obtain ⟨m', hdrops, h'⟩ := h.evictUntilRoomFor d.stored.serializedLen (s.deposits.length + 1)
  have hsub := Mail.DropsOldest.subset hdrops
  exact ⟨_, .accept d hdrops, h'.insert (hinj.mono (Set.insert_subset_insert hsub)) _ _⟩

theorem remove (h : s.Holds m) (key : Bytes 40) : (s.remove key).Holds {d | d ∈ m ∧ depositKey d ≠ key} := by
  unfold MailboxStore.remove
  rcases hget : s.get key with _ | stored
  · have hm : {d | d ∈ m ∧ depositKey d ≠ key} = m := by
      refine Set.sep_eq_self_iff_mem_true.mpr fun d hd hkey => ?_
      rw [h.get_eq_some.mpr ⟨d, hd, hkey, rfl⟩] at hget
      cases hget
    rw [hm]
    exact h
  · obtain ⟨d, hd, rfl, rfl⟩ := h.get_eq_some.mp hget
    have hm : {d' | d' ∈ m ∧ depositKey d' ≠ depositKey d} = m \ {d} := by
      ext d'
      exact and_congr_right fun hd' => not_congr ⟨fun hk => h.injOn hd' hd hk, congrArg depositKey⟩
    rw [hm]
    exact h.removeLocked hd _

/-- The loop of `evict_expired` returns, having taken out what is expired. -/
theorem evictExpiredTurns (h : s.Holds m) (now : UInt64) {turns : ℕ} (ht : s.deposits.length < turns) :
    ∃ s', evictExpiredTurns now turns s = some s' ∧ s'.Holds (m.unexpired now) := by
  induction turns generalizing s m with
  | zero => exact absurd ht (Nat.not_lt_zero _)
  | succ turns ih =>
    rw [MailboxStore.evictExpiredTurns]
    rcases hs : s.deposits with _ | ⟨⟨key, stored⟩, rest⟩
    · obtain rfl := h.eq_empty hs
      exact ⟨s, rfl, by rwa [show Mail.unexpired ∅ now = ∅ from Set.sep_empty _]⟩
    · obtain ⟨d, hd, rfl, rfl, hleast⟩ := h.head hs
      have hexp : now.toNat - keyTime (depositKey d) ≤ retentionSecs ↔ ¬d.Expired now := by
        rw [keyTime_depositKey, MailboxDeposit.Expired, Nat.sub_le_iff_le_add', Nat.not_lt]
      by_cases hnow : now.toNat - keyTime (depositKey d) ≤ retentionSecs
      · -- The oldest deposit is kept, so each is.
        have hm : m.unexpired now = m := by
          refine Set.sep_eq_self_iff_mem_true.mpr fun d' hd' hd'exp => hexp.mp hnow ?_
          have hle := keyTime_le (hleast d' hd')
          rw [keyTime_depositKey, keyTime_depositKey] at hle
          exact Nat.lt_of_le_of_lt (Nat.add_le_add_right hle _) hd'exp
        simp only [if_pos hnow]
        exact ⟨s, rfl, by rwa [hm]⟩
      · have hm : Mail.unexpired (m \ {d}) now = m.unexpired now := by
          ext d'
          refine ⟨fun ⟨hd', hne⟩ => ⟨hd'.1, hne⟩, fun ⟨hd', hne⟩ => ⟨⟨hd', ?_⟩, hne⟩⟩
          rintro rfl
          exact hnow (hexp.mpr hne)
        have hlen : (s.removeLocked (depositKey d) d.stored.tag d.stored.envelope.length).deposits.length < turns := by
          have hrest : (s.removeLocked (depositKey d) d.stored.tag d.stored.envelope.length).deposits = rest := by
            have hord := h.ordered
            rw [hs] at hord
            show eraseKey s.deposits (depositKey d) = rest
            rw [hs]
            exact hord.eraseKey_head
          rw [hs, List.length_cons] at ht
          rw [hrest]
          exact Nat.lt_of_succ_lt_succ ht
        simp only [if_neg hnow]
        obtain ⟨s', hs', h'⟩ := ih (h.removeLocked hd _) hlen
        exact ⟨s', hs', hm ▸ h'⟩

theorem evictExpired (h : s.Holds m) (now : UInt64) : (s.evictExpired now).Holds (m.unexpired now) := by
  obtain ⟨s', hs', h'⟩ := h.evictExpiredTurns now (Nat.lt_succ_self _)
  rw [MailboxStore.evictExpired, hs']
  exact h'

theorem apply (h : s.Holds m) {op : MailboxOp} (hinj : Set.InjOn depositKey (m ∪ {d | op.accepted? = some d})) :
    ∃ m', m.Step op m' ∧ (s.apply op).Holds m' := by
  cases op with
  | accept d =>
    refine h.accept (hinj.mono ?_)
    rintro d' (rfl | hd')
    · exact .inr rfl
    · exact .inl hd'
  | remove key => exact ⟨_, .remove key, h.remove key⟩
  | evictOldest =>
    rcases h.evictOldest with ⟨-, hm, he⟩ | ⟨m', hdrop, h', -⟩
    · refine ⟨m, .evictNothing hm, ?_⟩
      rw [MailboxStore.apply, he]
      exact h
    · exact ⟨m', .evictOldest hdrop, h'⟩
  | evictExpired now => exact ⟨_, .evictExpired now, h.evictExpired now⟩
  | setLimitBytes limit => exact ⟨m, .setLimitBytes limit, h.ordered, h.deposits, h.nodup, h.byTag, h.injOn⟩

end Holds

/-! ### Runs -/

theorem run_holds {ops : List MailboxOp} (hinj : Set.InjOn depositKey {d | d ∈ acceptedBy ops}) :
    ∃ m, Mail.Runs ops m ∧ (run ops).Holds m := by
  induction ops using List.reverseRecOn with
  | nil => exact ⟨∅, .nil, holds_create⟩
  | append_singleton ops op ih =>
    have hmem (d : MailboxDeposit) : d ∈ acceptedBy (ops ++ [op]) ↔ d ∈ acceptedBy ops ∨ op.accepted? = some d := by
      simp [acceptedBy]
    obtain ⟨m, hm, h⟩ := ih (hinj.mono fun d hd => (hmem d).mpr (.inl hd))
    have hsub := hm.mem_acceptedBy
    obtain ⟨m', hstep, h'⟩ := h.apply (hinj.mono fun d hd => (hmem d).mpr (hd.imp_left (hsub d)))
    rw [run_concat]
    exact ⟨m', hm.concat hstep, h'⟩

theorem depositKey_injOn {ds : List MailboxDeposit}
    (hfree : ∀ d ∈ ds, ∀ d' ∈ ds, Primitives.sha256 (powPreimage d) = Primitives.sha256 (powPreimage d') → d = d') :
    Set.InjOn depositKey {d | d ∈ ds} := by
  intro d hd d' hd' hk
  have hbytes : beBytes d.depositedAt ++ (Primitives.sha256 (powPreimage d)).asBytes =
      beBytes d'.depositedAt ++ (Primitives.sha256 (powPreimage d')).asBytes := congrArg Bytes.toList hk
  have hdigest := (List.append_inj hbytes (by simp [beBytes])).2
  exact hfree d hd d' hd' (Hash32.asBytes_inj hdigest)

namespace Holds

theorem forTag (h : s.Holds m) (tag : Bytes 32) :
    ∃ ds : List MailboxDeposit, s.forTag tag = ds.map MailboxDeposit.cached ∧ ds.Nodup ∧
      ds.Pairwise (fun d d' => d.depositedAt ≤ d'.depositedAt) ∧ ∀ d, d ∈ ds ↔ d ∈ m.under tag := by
  obtain ⟨keys, hkeys⟩ : ∃ keys, keys = ((s.byTag.filter (·.1 = tag)).map (·.2)).insertionSort (· ≤ ·) := ⟨_, rfl⟩
  have hmem (key : Bytes 40) : key ∈ keys ↔ ∃ d ∈ m.under tag, depositKey d = key := by
    rw [hkeys, List.mem_insertionSort, List.mem_map]
    constructor
    · rintro ⟨⟨tag', key⟩, he, rfl⟩
      obtain ⟨hin, htag⟩ := List.mem_filter.mp he
      obtain rfl : tag' = tag := of_decide_eq_true htag
      obtain ⟨d, hd, hdtag, hkey⟩ := (h.byTag _ _).mp hin
      exact ⟨d, ⟨hd, hdtag⟩, hkey⟩
    · rintro ⟨d, ⟨hd, rfl⟩, rfl⟩
      exact ⟨(d.tag, depositKey d), List.mem_filter.mpr ⟨(h.byTag _ _).mpr ⟨d, hd, rfl, rfl⟩, decide_eq_true rfl⟩, rfl⟩
  have hnodup : keys.Nodup := by
    rw [hkeys, (List.perm_insertionSort _ _).nodup_iff]
    refine List.Nodup.map_on ?_ (h.nodup.filter _)
    intro a ha b hb hab
    have ha' := of_decide_eq_true (List.mem_filter.mp ha).2
    have hb' := of_decide_eq_true (List.mem_filter.mp hb).2
    exact Prod.ext (ha'.trans hb'.symm) hab
  have hsorted : keys.Pairwise (· ≤ ·) := hkeys ▸ List.pairwise_insertionSort _ _
  obtain ⟨ds, hmap, hin⟩ := exists_map_eq fun key hk => (hmem key).mp hk
  refine ⟨ds, ?_, .of_map depositKey (hmap ▸ hnodup), ?_, fun d => ⟨hin d, fun hd => ?_⟩⟩
  · show List.filterMap _ (List.insertionSort _ _) = _
    rw [← hkeys, ← hmap, List.filterMap_map, ← List.filterMap_eq_map]
    refine List.filterMap_congr fun d hd => ?_
    rw [Function.comp_apply, h.get_eq_some.mpr ⟨d, (hin d hd).1, rfl, rfl⟩]
    rfl
  · refine (List.pairwise_map.mp (hmap ▸ hsorted)).imp fun {d d'} hle => ?_
    have htime := keyTime_le hle
    rw [keyTime_depositKey, keyTime_depositKey] at htime
    exact UInt64.le_iff_toNat_le.mpr htime
  · obtain ⟨d', hd', hk⟩ := List.mem_map.mp (hmap ▸ (hmem _).mpr ⟨d, hd, rfl⟩)
    rwa [← h.injOn (hin d' hd').1 hd.1 hk]

theorem answers (h : s.Holds m) : s.Answers m where
  indexed tag key := by
    rw [h.byTag]
    constructor
    · rintro ⟨d, hd, rfl, rfl⟩
      exact ⟨d.stored, (h.deposits _ _).mpr ⟨d, hd, rfl, rfl⟩, rfl⟩
    · rintro ⟨stored, hmem, rfl⟩
      obtain ⟨d, hd, rfl, rfl⟩ := (h.deposits _ _).mp hmem
      exact ⟨d, hd, rfl, rfl⟩
  nodup_index := h.nodup
  nodup_keys := List.pairwise_map.mpr (h.ordered.imp And.right)
  forTag := h.forTag
  nodup_tags := by
    rw [MailboxStore.distinctTags, destutter_insertionSort]
    exact List.nodup_dedup _
  distinctTags tag := by
    rw [MailboxStore.distinctTags, destutter_insertionSort, List.mem_dedup, List.mem_insertionSort, List.mem_map]
    constructor
    · rintro ⟨⟨tag, key⟩, hmem, rfl⟩
      obtain ⟨d, hd, htag, -⟩ := (h.byTag _ _).mp hmem
      exact ⟨d, hd, htag⟩
    · rintro ⟨d, hd, rfl⟩
      exact ⟨(d.tag, depositKey d), (h.byTag _ _).mpr ⟨d, hd, rfl, rfl⟩, rfl⟩

end Holds

end MailboxStore

/-- After any calls, deposits of one hash being one, the store answers as the map that the same calls lead to, and
`evict_expired` returns with the rest of it. -/
theorem refines_mail (ops : List MailboxOp)
    (hfree : ∀ d ∈ acceptedBy ops, ∀ d' ∈ acceptedBy ops,
      Primitives.sha256 (powPreimage d) = Primitives.sha256 (powPreimage d') → d = d') :
    ∃ m, Mail.Runs ops m ∧ (MailboxStore.run ops).Answers m ∧ ∀ now, ∃ turns s',
      MailboxStore.evictExpiredTurns now turns (MailboxStore.run ops) = some s' ∧ s'.Answers (m.unexpired now) := by
  obtain ⟨m, hruns, h⟩ := MailboxStore.run_holds (MailboxStore.depositKey_injOn hfree)
  refine ⟨m, hruns, h.answers, fun now => ?_⟩
  obtain ⟨s', hs', h'⟩ := h.evictExpiredTurns now (Nat.lt_succ_self _)
  exact ⟨_, s', hs', h'.answers⟩

end

section
attribute [local instance] unsigned

/-- Two deposits under a tag, the first of them brought twice. -/
def twiceThenOnce : List MailboxOp :=
  let first : MailboxDeposit := ⟨.replicate 32 7, [0x01], 1750000000, .replicate 8 0⟩
  [.accept first, .accept ⟨.replicate 32 7, [0x02], 1750000060, .replicate 8 0⟩, .accept first, .evictExpired 1751209601]

theorem refines_mail_twiceThenOnce :
    ∃ m, Mail.Runs twiceThenOnce m ∧ (MailboxStore.run twiceThenOnce).Answers m ∧ ∀ now, ∃ turns s',
      MailboxStore.evictExpiredTurns now turns (MailboxStore.run twiceThenOnce) = some s' ∧ s'.Answers (m.unexpired now) :=
  refines_mail twiceThenOnce (by
    intro d hd d' hd' h
    simp only [twiceThenOnce, acceptedBy, List.filterMap_cons, List.filterMap_nil, MailboxOp.accepted?, List.mem_cons,
      List.not_mem_nil, or_false] at hd hd'
    rcases hd with rfl | rfl | rfl <;> rcases hd' with rfl | rfl | rfl <;>
      first | rfl | exact absurd (congrArg Hash32.asBytes h) (by decide +kernel))

end
end SpiritChat
