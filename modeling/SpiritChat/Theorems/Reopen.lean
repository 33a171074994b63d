import SpiritChat.Ledger.Exact
import SpiritChat.Theorems.Mirror

/-! # Reopening a pruned store

A restart checks the surviving blocks again on what is left of their ancestors. This file says exactly which
blocks pass: those whose retarget interval, median window and anchors do not reach below the floor in a way
that matters. -/

namespace SpiritChat
open Lib

/-- Reading a list off an index from an offset on. -/
theorem filterMap_range' {l : List Hash32} {index : ℕ → Option Hash32} {q : Hash32 → Option ℕ} {f : ℕ}
    (hl : ∀ j, j < l.length → index (f + j) = l[j]?) :
    (List.range' f l.length).filterMap (fun n => (index n).bind q) = l.filterMap q := by
  induction l generalizing f with
  | nil => rfl
  | cons a l ih =>
    have hhead := hl 0 (by simp)
    simp only [Nat.add_zero, List.getElem?_cons_zero] at hhead
    have htail := ih (f := f + 1) fun j hj => by
      rw [Nat.add_assoc, Nat.add_comm 1, hl (j + 1) (by simpa using hj), List.getElem?_cons_succ]
    rw [List.length_cons, List.range'_succ, List.filterMap_cons, hhead, htail, List.filterMap_cons]
    rfl

section
variable {F : Type} [Float64 F] [Primitives]

namespace Chain
variable {c : Chain F} {root h k p : Hash32} {l below : List Hash32} {b : Block}

/-! ### Admission on a shorter branch -/

omit [Primitives] in
/-- On a branch that was cut off at the floor the target is the same, or the start of the interval is gone. -/
theorem Rooted.target_cut (r : c.Rooted) (hl : c.Descends p l) {f : Hash32}
    (hwide : Lineage c.parentOf f p (below ++ l)) {t : CompactTarget}
    (ht : Rules.target F (c.branch (below ++ l)) (c.ancestorOf p) = some t) :
    Rules.target F (c.branch l) (c.ancestorOf p) = some t ↔
      (((c.ancestorOf p).height + 1) % retargetIntervalBlocks = 0 →
        c.floorHeight + retargetIntervalBlocks ≤ (c.ancestorOf p).height + 1) := by
  unfold Rules.target at ht ⊢
  by_cases hb : ((c.ancestorOf p).height + 1) % retargetIntervalBlocks ≠ 0
  · simp only [ne_eq, hb, not_false_eq_true, ↓reduceIte] at ht ⊢
    exact ⟨fun _ h => h.elim, fun _ => ht⟩
  · simp only [hb, ↓reduceIte] at ht ⊢
    rw [find?_of_counting (r.graded.height_branch hwide)] at ht
    rw [find?_of_counting (r.height_branch hl)]
    have hbase : c.floorHeight = c.heightOf f + below.length := by
      obtain ⟨l', rfl⟩ := hl.eq_cons
      have := hwide.height_getElem? r.graded (i := below.length) (a := c.floorHash) (by simp)
      rw [← r.heightOf_floor, this]
    have hpos : retargetIntervalBlocks ≤ (c.ancestorOf p).height + 1 := by
      have := not_ne_iff.mp hb
      simp only [retargetIntervalBlocks] at this ⊢
      omega
    by_cases hf : c.floorHeight ≤ (c.ancestorOf p).height + 1 - retargetIntervalBlocks
    · have hoff : (c.ancestorOf p).height + 1 - retargetIntervalBlocks - c.heightOf f =
          (c.branch below).length + ((c.ancestorOf p).height + 1 - retargetIntervalBlocks - c.floorHeight) := by
        simp only [branch, List.length_map]
        omega
      rw [if_pos (by omega)] at ht
      rw [if_pos hf]
      have happ : c.branch (below ++ l) = c.branch below ++ c.branch l := List.map_append
      rw [happ, hoff, List.getElem?_append_right (by omega), Nat.add_sub_cancel_left] at ht
      exact ⟨fun _ _ => by omega, fun _ => ht⟩
    · rw [if_neg hf]
      constructor
      · intro h
        cases h
      · intro h
        have := h (not_ne_iff.mp hb)
        omega

/-- A block that was admitted once passes on the branch from the floor, at the clock of its timestamp, exactly
when its interval starts above the floor, the median of what is left is below its timestamp and its anchors
are still there. -/
theorem Rooted.admits_cut (r : c.Rooted) (hl : c.Descends p l) (ha : c.AdmittedOn p l b) :
    Rules.Admits F (c.branch l) (c.ownersOn l) (c.ancestorOf p) b b.header.timestamp.toNat ↔
      (b.header.height.toNat % retargetIntervalBlocks = 0 → c.floorHeight + retargetIntervalBlocks ≤ b.header.height.toNat) ∧
      (∃ med, Rules.median ((c.branch l).map (·.timestamp)) = some med ∧ med < b.header.timestamp.toNat) ∧
      (∀ tx ∈ b.transactions, tx.anchorBlockHash ∈ l) := by
  obtain ⟨below, f, now, hwide, hadm⟩ := ha
  have htarget := r.target_cut hl hwide hadm.target
  rw [← hadm.height] at htarget
  constructor
  · intro h
    refine ⟨htarget.mp h.target, h.past, fun tx htx => ?_⟩
    obtain ⟨a, ha, hhash, -⟩ := h.anchored tx htx
    obtain ⟨x, hx, rfl⟩ := List.mem_map.mp ha
    rw [ancestorOf_hash] at hhash
    exact hhash ▸ hx
  · rintro ⟨hint, hpast, hanchor⟩
    refine ⟨hadm.sound, hadm.height, htarget.mpr hint, hadm.work, hpast, Nat.le_add_right _ _, fun tx htx => ?_,
      hadm.unclaimed⟩
    -- The anchor's age was checked on the longer branch.
    obtain ⟨a, ha, hhash, hage⟩ := hadm.anchored tx htx
    obtain ⟨x, -, rfl⟩ := List.mem_map.mp ha
    rw [ancestorOf_hash] at hhash
    subst hhash
    exact ⟨_, List.mem_map.mpr ⟨_, hanchor tx htx, rfl⟩, ancestorOf_hash c _, hage⟩

/-! ### The condition in terms of canonical heights -/

/-- The timestamp of the canonical block at a height. -/
def canonicalTimestamp (c : Chain F) (n : ℕ) : Option ℕ :=
  (c.canonicalIndex n).bind fun h => (c.metas h).map (·.timestamp)

/-- The canonical block `b` at height `n` can be checked on the canonical blocks from `floor` on. -/
structure Replayable (c : Chain F) (floor n : ℕ) (b : Block) : Prop where
  interval : n % retargetIntervalBlocks = 0 → floor + retargetIntervalBlocks ≤ n
  past : ∃ med, Rules.median ((List.range' floor (n - floor)).filterMap c.canonicalTimestamp) = some med ∧
    med < b.header.timestamp.toNat
  anchored : ∀ tx ∈ b.transactions, ∃ j, floor ≤ j ∧ j < n ∧ c.canonicalIndex j = some tx.anchorBlockHash

omit [Float64 F] [Primitives] in
theorem canonicalTimestamps_eq (hk : ∀ a ∈ l, (c.metas a).isSome) {f : ℕ}
    (hl : ∀ j, j < l.length → c.canonicalIndex (f + j) = l[j]?) :
    (List.range' f l.length).filterMap c.canonicalTimestamp = (c.branch l).map (·.timestamp) := by
  rw [show c.canonicalTimestamp = fun n => (c.canonicalIndex n).bind fun h => (c.metas h).map (·.timestamp) from rfl,
    filterMap_range' hl]
  clear hl
  induction l with
  | nil => rfl
  | cons a l ih =>
    obtain ⟨m, hm⟩ := Option.isSome_iff_exists.mp (hk a List.mem_cons_self)
    simp only [branch, List.filterMap_cons, hm, Option.map_some, List.map_cons, ancestorOf_eq hm]
    rw [ih fun x hx => hk x (List.mem_cons_of_mem _ hx)]
    rfl

/-- The blocks above the floor are admitted again exactly when each of them is replayable. -/
theorem Vetted.readmits_iff (v : Vetted c) (inv : Inv root c) {t : List Hash32}
    (hl : c.Descends c.tipHash (c.floorHash :: t)) :
    (∀ k ∈ t, c.Readmits k) ↔
      ∀ n b, c.floorHeight < n → c.canonicalBlockAt n = some b → c.Replayable c.floorHeight n b := by
  have hidx : c.Indexes (c.floorHash :: t) := by
    obtain ⟨l', hl', hidx, -⟩ := inv.tip
    obtain rfl := hl'.unique hl
    exact hidx
  -- One block of the path, split off from the others.
  have hone : ∀ {l₁ l₂ : List Hash32} {k : Hash32} {b : Block}, c.floorHash :: t = l₁ ++ k :: l₂ → l₁ ≠ [] →
      c.blocks k = some b → (c.Readmits k ↔ c.Replayable c.floorHeight (c.floorHeight + l₁.length) b) := by
    intro l₁ l₂ k b hsplit hne hb
    rw [hsplit] at hl hidx
    have hself := hl.of_append
    have hkf : k ≠ c.floorHash := by
      rintro rfl
      exact hne (by simpa using hself.eq_floor)
    obtain ⟨p, l₀, hpar, hp, heq⟩ := hself.exists_child hkf
    obtain ⟨rfl, -⟩ := List.append_singleton_inj.mp heq
    obtain ⟨-, m, hm, hd⟩ := inv.stored k b hb
    have hheight : b.header.height.toNat = c.floorHeight + l₁.length := by
      rw [← hd.height, ← heightOf_eq hm]
      exact inv.rooted.heightOf_getElem? hself (by simp)
    have hindex : ∀ j, j < l₁.length → c.canonicalIndex (c.floorHeight + j) = l₁[j]? := by
      intro j hj
      rw [hidx _ (Nat.le_add_right _ _), Nat.add_sub_cancel_left, List.getElem?_append_left hj]
    have htimes := canonicalTimestamps_eq (inv.known hp) hindex
    have hpasses : c.Readmits k ↔
        Rules.Admits F (c.branch l₁) (c.ownersOn l₁) (c.ancestorOf p) b b.header.timestamp.toNat := by
      refine ⟨fun h => h p l₁ b hp hpar hb, fun h p' l' b' hp' hpar' hb' => ?_⟩
      obtain rfl := Option.some.inj (hpar.symm.trans hpar')
      obtain rfl := hp.unique hp'
      obtain rfl := Option.some.inj (hb.symm.trans hb')
      exact h
    have hanchor : ∀ a, a ∈ l₁ ↔ ∃ j, c.floorHeight ≤ j ∧ j < c.floorHeight + l₁.length ∧ c.canonicalIndex j = some a := by
      intro a
      constructor
      · intro ha
        obtain ⟨i, hi⟩ := List.getElem?_of_mem ha
        have hlt := (List.getElem?_eq_some_iff.mp hi).1
        exact ⟨c.floorHeight + i, by omega, by omega, by rw [hindex i hlt, hi]⟩
      · rintro ⟨j, hle, hlt, hj⟩
        obtain ⟨i, rfl⟩ := Nat.exists_eq_add_of_le hle
        rw [hindex i (by omega)] at hj
        exact List.mem_of_getElem? hj
    rw [hpasses, inv.rooted.admits_cut hp (v.admitted k p l₁ b hp hpar hb), hheight, ← htimes]
    constructor
    · rintro ⟨h1, h2, h3⟩
      exact ⟨h1, by rwa [Nat.add_sub_cancel_left], fun tx htx => (hanchor _).mp (h3 tx htx)⟩
    · rintro ⟨h1, h2, h3⟩
      rw [Nat.add_sub_cancel_left] at h2
      exact ⟨h1, h2, fun tx htx => (hanchor _).mpr (h3 tx htx)⟩
  constructor
  · intro h n b hn hb
    obtain ⟨k, hk, hb⟩ := Option.bind_eq_some_iff.mp hb
    rw [hidx n (le_of_lt hn)] at hk
    obtain ⟨hlt, rfl⟩ := List.getElem?_eq_some_iff.mp hk
    have hsplit := List.take_append_drop (n - c.floorHeight) (c.floorHash :: t)
    rw [List.drop_eq_getElem_cons hlt] at hsplit
    have hlen : ((c.floorHash :: t).take (n - c.floorHeight)).length = n - c.floorHeight := List.length_take_of_le (by omega)
    have hne : (c.floorHash :: t).take (n - c.floorHeight) ≠ [] := by
      rw [ne_eq, ← List.length_eq_zero_iff, hlen]
      omega
    have hmem : (c.floorHash :: t)[n - c.floorHeight] ∈ t := by
      obtain ⟨i, hi⟩ : ∃ i, n - c.floorHeight = i + 1 := ⟨n - c.floorHeight - 1, by omega⟩
      simp only [hi, List.getElem_cons_succ]
      exact List.getElem_mem _
    have := (hone hsplit.symm hne hb).mp (h _ hmem)
    rwa [hlen, show c.floorHeight + (n - c.floorHeight) = n by omega] at this
  · intro h k hk
    obtain ⟨t₁, t₂, rfl⟩ := List.append_of_mem hk
    have hkf : k ≠ c.floorHash := by
      rintro rfl
      exact (List.nodup_cons.mp hl.nodup).1 (by simp)
    obtain ⟨b, hb⟩ := Option.isSome_iff_exists.mp (inv.bodies_of_descends hl k (by simp) hkf)
    refine (@hone (c.floorHash :: t₁) t₂ k b rfl (by simp) hb).mpr (h _ b (by simp) ?_)
    unfold canonicalBlockAt
    rw [hidx _ (Nat.le_add_right _ _), Nat.add_sub_cancel_left]
    simpa using hb

end Chain

/-! ### Restarting a store -/

/-- The height of the saved checkpoint, or of genesis. -/
def Disk.floorHeight (disk : Disk F) : ℕ := (disk.checkpoint.map (·.height)).getD 0

theorem Disk.start_floorHeight (disk : Disk F) : disk.start.floorHeight = disk.floorHeight := by
  unfold Disk.start Disk.floorHeight
  cases disk.checkpoint <;> rfl

namespace ChainStore
variable {s s' : ChainStore F} {disk : Disk F} {b : Block}

theorem SealedFrom.floorHeight {root : Hash32} (sl : s.SealedFrom root) : s.disk.floorHeight = s.chain.floorHeight := by
  rw [← Disk.start_floorHeight, sl.mirrors.start.floor.2.1]

/-- Restarting from the file of an up-to-date store: when it succeeds and what it gives. -/
theorem SealedFrom.openAt {root : Hash32} (sl : s.SealedFrom root) (genesis : Commit) :
    (∀ s', ChainStore.openAt s.disk (.ok ()) genesis = .ok s' →
      s'.disk = s.disk ∧ ∃ l, s.chain.Descends s.chain.tipHash l ∧ Chain.Copies s.chain s'.chain l ∧ s'.chain.Best ∧
        s'.chain.blocks s.chain.floorHash = s.disk.start.blocks s.chain.floorHash) ∧
    ((∃ s', ChainStore.openAt s.disk (.ok ()) genesis = .ok s') ↔
      ∀ n b, s.chain.floorHeight < n → s.chain.canonicalBlockAt n = some b →
        s.chain.Replayable s.chain.floorHeight n b) := by
  obtain ⟨l, hl, hidx, -⟩ := sl.inv.tip
  obtain ⟨t, rfl⟩ := hl.eq_cons
  have hopen : ChainStore.openAt s.disk (.ok ()) genesis = s.disk.restore >>= fun chain => .ok { disk := s.disk, chain } := by
    simp only [ChainStore.openAt, Disk.commit, sl.mirrors.tip]
    rfl
  have hstart : s.disk.start.floorHeight = s.chain.floorHeight := sl.mirrors.start.floor.2.1
  have hheights : ∀ i, s.disk.canonicalHeights (s.disk.start.floorHeight + 1 + i) = t[i]? := by
    intro i
    rw [hstart, sl.mirrors.heights _ (by omega), hidx _ (by omega)]
    rw [show s.chain.floorHeight + 1 + i - s.chain.floorHeight = i + 1 by omega, List.getElem?_cons_succ]
  have hfloor : ∀ k ∈ t, k ≠ s.chain.floorHash := by
    rintro k hk rfl
    exact (List.nodup_cons.mp hl.nodup).1 hk
  have hblocks : ∀ k ∈ t, s.disk.blocks k = s.chain.blocks k := by
    intro k hk
    obtain ⟨b, hb⟩ := Option.isSome_iff_exists.mp
      (sl.inv.bodies_of_descends hl k (List.mem_cons_of_mem _ hk) (hfloor k hk))
    rw [hb, sl.mirrors.bodies k b hb]
  have hfuel : t.length < s.disk.canonicalMaxHeight.getD 0 + 2 := by
    rcases Nat.eq_zero_or_pos t.length with h0 | hpos
    · omega
    · have := sl.mirrors.top (s.disk.start.floorHeight + 1 + (t.length - 1)) <| by
        rw [hheights, List.getElem?_eq_getElem (by omega)]
        rfl
      omega
  have hreplay := sl.mirrors.start.replayFrom s.disk.start_best sl.inv (by simp) hl hheights hblocks hfuel
  rw [← sl.vetted.readmits_iff sl.inv hl, ← hreplay.2, hopen]
  constructor
  · intro s' h
    obtain ⟨c', hc', h⟩ := except_bind_eq_ok.mp h
    obtain rfl := Except.ok.inj h
    exact ⟨rfl, _, hl, hreplay.1 c' hc'⟩
  · constructor
    · rintro ⟨s', h⟩
      obtain ⟨c', hc', -⟩ := except_bind_eq_ok.mp h
      exact ⟨c', hc'⟩
    · rintro ⟨c', hc'⟩
      exact ⟨_, except_bind_eq_ok.mpr ⟨c', hc', rfl⟩⟩

/-- The states of a store that was opened in a new file and whose calls all succeeded. -/
inductive Session : ChainStore F → Prop
  | opened {s : ChainStore F} : openAt Disk.empty (.ok ()) (.ok ()) = .ok s → Session s
  | applied {s s' : ChainStore F} {b : Block} {now : ℕ} {o : ApplyOutcome} : Session s → b.hash ≠ .zero →
      s.tryApply b now (.ok ()) = (s', .ok o) → Session s'
  | pruned {s s' : ChainStore F} {retention : ℕ} : Session s →
      s.pruneWithRetention retention (.ok ()) (.ok ()) = (s', .ok ()) → Session s'

theorem Session.step {now : ℕ} {o : ApplyOutcome} (hs : Session s) (hz : b.hash ≠ .zero)
    (ho : (s.tryApply b now (.ok ())).2 = .ok o) : Session (s.tryApply b now (.ok ())).1 :=
  .applied hs hz (Prod.ext rfl ho)

theorem Session.prune {retention : ℕ} (hs : Session s)
    (ho : (s.pruneWithRetention retention (.ok ()) (.ok ())).2 = .ok ()) :
    Session (s.pruneWithRetention retention (.ok ()) (.ok ())).1 :=
  .pruned hs (Prod.ext rfl ho)

/-- The files that such a store leaves: its own, or that of a crash before the second transaction of a prune. -/
inductive Closed (s : ChainStore F) : Disk F → Prop
  | orderly : Closed s s.disk
  | crashed (retention : ℕ) (reason : String) :
      Closed s (s.pruneWithRetention retention (.ok ()) (.error reason)).1.disk

/-- The file opens to the tip and the owners of the store that left it. -/
def Reopens (disk : Disk F) (s : ChainStore F) : Prop :=
  ∃ s', openAt disk (.ok ()) (.ok ()) = .ok s' ∧ s'.chain.tipHash = s.chain.tipHash ∧
    s'.chain.tipHeight = s.chain.tipHeight ∧ s'.chain.usernameOwner = s.chain.usernameOwner

theorem Session.sealed (hz : Block.genesis.hash ≠ .zero) (hs : Session s) : s.Sealed := by
  induction hs with
  | opened ho =>
    obtain ⟨-, -, rfl⟩ := (openAt_empty hz).mp ho
    exact sealed_opened hz
  | @applied s s' b now o _ hb hr ih =>
    have : Sealed (s.tryApply b now (.ok ())).1 := ih.tryApply hb (Or.inl rfl)
    rwa [hr] at this
  | @pruned s s' retention _ hr ih =>
    have := ih.pruneWithRetention retention (.ok ()) (.ok ())
    rwa [hr] at this

/-- An up-to-date store reopens exactly when every canonical block above the floor is replayable. -/
theorem SealedFrom.reopens_sealed {root : Hash32} (sl : s.SealedFrom root) :
    Reopens s.disk s ↔ ∀ n b, s.chain.floorHeight < n → s.chain.canonicalBlockAt n = some b →
      s.chain.Replayable s.chain.floorHeight n b := by
  rw [← (sl.openAt (.ok ())).2]
  constructor
  · rintro ⟨s', h, -⟩
    exact ⟨s', h⟩
  · rintro ⟨s', h⟩
    obtain ⟨-, l, hl, cp, best, -⟩ := (sl.openAt (.ok ())).1 s' h
    obtain ⟨h1, h2, h3, -⟩ := cp.tip_eq best sl.inv sl.vetted hl
    exact ⟨s', h, h1, h2, h3⟩

/-- Above the new floor a prune keeps the canonical blocks. -/
theorem canonicalBlockAt_raiseFloor {root g : Hash32} (inv : Chain.Inv root s.chain) {height n : ℕ} (owners : Owners)
    (hlt : s.chain.floorHeight < height) (hn : height < n) :
    (s.chain.raiseFloor height g owners).canonicalBlockAt n = s.chain.canonicalBlockAt n := by
  obtain ⟨l, hl, hidx, -⟩ := inv.tip
  unfold Chain.canonicalBlockAt
  show (s.chain.canonicalIndex n >>= fun k => s.chain.blocks.retain (fun _ block => height < block.header.height.toNat) k) = _
  cases hk : s.chain.canonicalIndex n with
  | none => rfl
  | some k =>
    simp only [Option.bind_eq_bind, Option.bind_some]
    cases hb : s.chain.blocks k with
    | none => simp [Table.retain, hb]
    | some b =>
      obtain ⟨-, m, hm, hd⟩ := inv.stored k b hb
      rw [hidx n (by omega)] at hk
      have hheight := inv.rooted.heightOf_getElem? hl hk
      rw [Chain.heightOf_eq hm, hd.height] at hheight
      refine Table.retain_eq_some.mpr ⟨hb, ?_⟩
      rw [hheight, decide_eq_true_eq]
      omega

/-- A closed file opens to what the store held exactly when each canonical block above the saved floor has
its retarget interval, a smaller median and its anchors among the canonical blocks from the floor on. -/
theorem reopens_iff (hz : Block.genesis.hash ≠ .zero) (hs : Session s) (hd : s.Closed disk) :
    Reopens disk s ↔ ∀ n b, disk.floorHeight < n → s.chain.canonicalBlockAt n = some b →
      s.chain.Replayable disk.floorHeight n b := by
  have sl := hs.sealed hz
  cases hd with
  | orderly => rw [sl.reopens_sealed, sl.floorHeight]
  | crashed retention reason =>
    have sl' := sl.pruneWithRetention retention (.ok ()) (.error reason)
    have hcase := pruneWithRetention_pruned sl.inv retention (.ok ()) (.error reason)
    generalize s.pruneWithRetention retention (.ok ()) (.error reason) = r at hcase sl'
    cases hcase with
    | kept => rw [sl.reopens_sealed, sl.floorHeight]
    | unsaved h => cases h
    | @floored height l₁ l₂ g m r hlt hlen hl hm =>
      have hreopens := sl'.reopens_sealed
      rw [sl'.floorHeight]
      show Reopens _ _ ↔ _
      refine (show Reopens _ s ↔ _ from hreopens).trans ?_
      refine forall₂_congr fun n b => forall_congr' fun hn => ?_
      have hkept := canonicalBlockAt_raiseFloor (g := g) sl.inv (s.chain.ownersOn (l₁ ++ [g])) hlt hn
      show (s.chain.raiseFloor height g _).canonicalBlockAt n = some b → _ ↔ _
      rw [hkept]
      exact imp_congr_right fun _ => ⟨fun h => ⟨h.interval, h.past, h.anchored⟩, fun h => ⟨h.interval, h.past, h.anchored⟩⟩

end ChainStore
end

namespace ChainStore
attribute [local instance] unsigned

/-- A new store after one block, two and three, and after a prune of the last two that keeps one body. -/
def afterFirst : ChainStore ℚ := ((opened ℚ).tryApply firstBlock minedAt (.ok ())).1

def afterSecond : ChainStore ℚ := (afterFirst.tryApply secondBlock minedAt (.ok ())).1

def afterThird : ChainStore ℚ := (afterSecond.tryApply thirdBlock minedAt (.ok ())).1

def prunedSecond : ChainStore ℚ := (afterSecond.pruneWithRetention 1 (.ok ()) (.ok ())).1

def afterPrune : ChainStore ℚ := (afterThird.pruneWithRetention 1 (.ok ()) (.ok ())).1

theorem genesis_hash_ne_zero : Block.genesis.hash ≠ .zero := by decide +kernel

theorem session_afterFirst : Session afterFirst :=
  have hopen : openAt (Disk.empty : Disk ℚ) (.ok ()) (.ok ()) = .ok (opened ℚ) :=
    (openAt_empty genesis_hash_ne_zero).mpr ⟨rfl, rfl, rfl⟩
  have hfirst : ((opened ℚ).tryApply firstBlock minedAt (.ok ())).2 = .ok .extendedTip := by decide +kernel
  (Session.opened hopen).step (by decide +kernel) hfirst

theorem session_afterSecond : Session afterSecond :=
  have hsecond : (afterFirst.tryApply secondBlock minedAt (.ok ())).2 = .ok .extendedTip := by decide +kernel
  session_afterFirst.step (by decide +kernel) hsecond

/-- A prune after two blocks moves the floor up to the first. The second is after its median there, so the store opens
again. -/
theorem reopens_iff_prunedSecond : prunedSecond.disk.floorHeight = 1 ∧ Reopens prunedSecond.disk prunedSecond := by
  obtain ⟨hprune, hfloor, htop, hblock, hmedian⟩ : (afterSecond.pruneWithRetention 1 (.ok ()) (.ok ())).2 = .ok () ∧
      (prunedSecond.disk.floorHeight = 1 ∧ prunedSecond.chain.floorHeight = 1) ∧
      prunedSecond.disk.canonicalMaxHeight = some 2 ∧ prunedSecond.chain.canonicalBlockAt 2 = some secondBlock ∧
      Rules.median ((List.range' 1 (2 - 1)).filterMap prunedSecond.chain.canonicalTimestamp) = some 1750000300 := by
    decide +kernel
  have hs : Session prunedSecond := session_afterSecond.prune hprune
  refine ⟨hfloor.1, (reopens_iff genesis_hash_ne_zero hs .orderly).mpr fun n b hn hb => ?_⟩
  have hmirrors := (hs.sealed genesis_hash_ne_zero).mirrors
  rw [hfloor.1] at hn ⊢
  have hsome : (prunedSecond.chain.canonicalIndex n).isSome := by
    unfold Chain.canonicalBlockAt at hb
    cases hindex : prunedSecond.chain.canonicalIndex n with
    | none => simp [hindex] at hb
    | some h => rfl
  have hle := hmirrors.top n (by rwa [hmirrors.heights n (hfloor.2 ▸ hn.le)])
  obtain rfl : n = 2 := le_antisymm (by simpa [htop] using hle) hn
  obtain rfl := Option.some.inj (hblock.symm.trans hb)
  exact ⟨by decide, ⟨1750000300, hmedian, by decide⟩, fun tx htx => absurd htx List.not_mem_nil⟩

/-- The third block was above the median of its three predecessors but is not above that of the only one left:
the pruned store does not open again. -/
theorem afterPrune_not_reopens : Session afterPrune ∧ ¬Reopens afterPrune.disk afterPrune := by
  obtain ⟨hthird, hprune, hfault⟩ : (afterSecond.tryApply thirdBlock minedAt (.ok ())).2 = .ok .extendedTip ∧
      (afterThird.pruneWithRetention 1 (.ok ()) (.ok ())).2 = .ok () ∧
      (openAt afterPrune.disk (.ok ()) (.ok ())).fault? = some (.err .timestampTooOld) := by
    decide +kernel
  have session_afterThird : Session afterThird := session_afterSecond.step (by decide +kernel) hthird
  refine ⟨session_afterThird.prune hprune, ?_⟩
  rintro ⟨s', h, -⟩
  rw [h] at hfault
  cases hfault

end ChainStore
end SpiritChat
