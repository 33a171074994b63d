import SpiritChat.Theorems.Replay

/-! # The file mirrors the chain

As long as no write of an accepted block fails, the file holds the checkpoint of the chain's floor, the
bodies above it and the canonical index. -/

namespace SpiritChat
open Lib

section
variable {F : Type} [Float64 F] [Primitives]

/-- `disk` describes `c` from its floor up. -/
structure Mirrors (disk : Disk F) (c : Chain F) : Prop where
  tip : disk.tipHash = some c.tipHash
  heights : ∀ n, c.floorHeight ≤ n → disk.canonicalHeights n = c.canonicalIndex n
  top : ∀ n, (disk.canonicalHeights n).isSome → n ≤ disk.canonicalMaxHeight.getD 0
  bodies : ∀ h b, c.blocks h = some b → disk.blocks h = some b
  start : Chain.Copies c disk.start [c.floorHash]

/-- A store with root `root` whose file is up to date. -/
structure ChainStore.SealedFrom (root : Hash32) (s : ChainStore F) : Prop where
  inv : Chain.Inv root s.chain
  vetted : Chain.Vetted s.chain
  mirrors : Mirrors s.disk s.chain

/-- A store whose file is up to date. -/
abbrev ChainStore.Sealed (s : ChainStore F) : Prop := s.SealedFrom Block.genesis.hash

variable {disk : Disk F} {c c' : Chain F} {root h : Hash32} {l : List Hash32} {b : Block} {m : BlockMeta F} {now : ℕ}

/-! ### Starting points -/

namespace Chain

/-- A chain that knows its floor only is a copy of any chain with the same floor. -/
theorem Copies.single (hinv : Inv c.floorHash c')
    (hfloor : c'.floorHash = c.floorHash ∧ c'.floorHeight = c.floorHeight ∧ c'.floorUsernameOwner = c.floorUsernameOwner)
    {m m' : BlockMeta F} (hm' : c'.metas = Table.empty.insert c.floorHash m') (hm : c.metas c.floorHash = some m)
    (heq : m' = { m with prevHash := .zero }) : Copies c c' [c.floorHash] where
  inv := hinv
  floor := hfloor
  known := by
    intro h hh
    rw [hm', Table.insert_of_ne (by simpa using hh), Table.empty_apply]
  root := ⟨m, hm, by rw [hm', Table.insert_self, heq]⟩
  metas := fun h hh hne => absurd (List.mem_singleton.mp hh) hne
  blocks := fun h hh hne => absurd (List.mem_singleton.mp hh) hne

/-- Only the floor of the original matters for the first copy. -/
theorem Copies.of_floor (cp : Copies c c' [c.floorHash]) {c₁ : Chain F} (hh : c₁.floorHash = c.floorHash)
    (hn : c₁.floorHeight = c.floorHeight) (ho : c₁.floorUsernameOwner = c.floorUsernameOwner)
    (hm : c₁.metas c.floorHash = c.metas c.floorHash) : Copies c₁ c' [c₁.floorHash] := by
  obtain ⟨inv, ⟨h1, h2, h3⟩, known, ⟨m, hm₁, hm₂⟩, -, -⟩ := cp
  refine ⟨hh ▸ inv, ⟨h1.trans hh.symm, h2.trans hn.symm, h3.trans ho.symm⟩, hh ▸ known, ⟨m, ?_, hh ▸ hm₂⟩, ?_, ?_⟩
  · rw [hh, hm, hm₁]
  · exact fun h hh hne => absurd (List.mem_singleton.mp hh) hne
  · exact fun h hh hne => absurd (List.mem_singleton.mp hh) hne

end Chain

/-- The chain that a restart begins with has a single block. -/
theorem Disk.start_best (disk : Disk F) : disk.start.Best := by
  unfold Disk.start
  cases disk.checkpoint with
  | none =>
    refine ⟨_, Table.insert_self, fun h m hm => ?_⟩
    rcases Table.insert_eq_some.mp hm with ⟨-, rfl⟩ | ⟨-, hm⟩
    · exact le_refl _
    · cases hm
  | some cp =>
    refine ⟨_, Table.insert_self, fun h m hm => ?_⟩
    rcases Table.insert_eq_some.mp hm with ⟨-, rfl⟩ | ⟨-, hm⟩
    · exact le_refl _
    · cases hm

/-! ### Writing an accepted block -/

namespace Chain

/-- The tip is as high as its path is long. -/
theorem Inv.tipHeight_eq (inv : Inv root c) (hl : c.Descends c.tipHash l) :
    c.tipHeight = .ok (c.floorHeight + l.length - 1) := by
  obtain ⟨m, hm⟩ := Option.isSome_iff_exists.mp (inv.known hl _ hl.mem_self)
  have hlen := inv.rooted.length_eq hl
  rw [heightOf_eq hm] at hlen
  simp only [tipHeight, hm, Exec.expect_some, Exec.ok_bind, pure, Except.pure, Except.ok.injEq]
  omega

/-- `c'` is `c` with the block `b` taken in, whatever the tip is now. -/
structure Grew (c c' : Chain F) (b : Block) (m : BlockMeta F) : Prop where
  new : c.metas b.hash = none
  metas : c'.metas = c.metas.insert b.hash m
  blocks : c'.blocks = c.blocks.insert b.hash b
  floor : c'.floorHash = c.floorHash ∧ c'.floorHeight = c.floorHeight ∧ c'.floorUsernameOwner = c.floorUsernameOwner

end Chain

/-- The file after the write mirrors the chain it was written from. -/
theorem Mirrors.persisted (mir : Mirrors disk c) (hc : (c.metas c.floorHash).isSome) (g : c.Grew c' b m)
    (hpath : c'.Indexes l) (hne : l ≠ []) :
    Mirrors (disk.persisted c' b.hash b m l (c'.floorHeight + l.length - 1)) c' where
  tip := rfl
  heights := by
    intro n hn
    have hlen := List.length_pos_iff.mpr hne
    show (disk.canonicalHeights.insertAll _).removeAll _ n = _
    rw [Table.removeAll_apply, insertAll_indexEntries, hpath n hn]
    simp only [List.mem_range'_1]
    by_cases hlow : n < c'.floorHeight + l.length
    · rw [if_neg (by omega), if_pos ⟨hn, hlow⟩]
    · rw [List.getElem?_eq_none (by omega), if_neg (by omega : ¬(c'.floorHeight ≤ n ∧ n < c'.floorHeight + l.length))]
      -- Above the new tip an entry is stale and removed, or it was never there.
      split_ifs with hstale
      · rfl
      · by_contra hsome
        have := mir.top n (Option.isSome_iff_ne_none.mpr hsome)
        omega
  top := by
    intro n hn
    have hlen := List.length_pos_iff.mpr hne
    have hn' : ((disk.canonicalHeights.insertAll (Chain.indexEntries c'.floorHeight l)).removeAll
        (List.range' (c'.floorHeight + l.length - 1 + 1)
          (disk.canonicalMaxHeight.getD 0 - (c'.floorHeight + l.length - 1))) n).isSome := hn
    rw [Table.removeAll_apply] at hn'
    split_ifs at hn' with hstale
    · simp at hn'
    · rw [insertAll_indexEntries] at hn'
      show n ≤ max _ _
      split_ifs at hn' with hin
      · omega
      · have := mir.top n hn'
        omega
  bodies := by
    intro k b' hb'
    rw [g.blocks] at hb'
    rcases Table.insert_eq_some.mp hb' with ⟨rfl, rfl⟩ | ⟨hk, hb'⟩
    · exact Table.insert_self
    · exact (Table.insert_of_ne hk).trans (mir.bodies k b' hb')
  start := by
    refine mir.start.of_floor g.floor.1 g.floor.2.1 g.floor.2.2 ?_
    rw [g.metas]
    exact Table.insert_of_ne (Chain.ne_of_known g.new hc)

namespace ChainStore
variable {s : ChainStore F} {commit : Commit}

theorem persistAfterApply_eq (inv : Chain.Inv root s.chain) (hm : s.chain.metas b.hash = some m)
    (hl : s.chain.Descends s.chain.tipHash l) (commit : Commit) :
    s.persistAfterApply b commit =
      ({ s with disk := (s.disk.commit
          (s.disk.persisted s.chain b.hash b m l (s.chain.floorHeight + l.length - 1)) commit).1 },
        (s.disk.commit (s.disk.persisted s.chain b.hash b m l (s.chain.floorHeight + l.length - 1)) commit).2) := by
  unfold persistAfterApply
  simp only [hm, inv.rooted.ancestors_eq_ok.mpr hl, inv.tipHeight_eq hl, Exec.expect_some, Exec.ok_bind, pure, Except.pure]

/-- The ways a call of `try_apply` can go: nothing changes, or the chain takes the block in and the write of it
commits or fails. -/
inductive Applied (s : ChainStore F) (b : Block) (now : ℕ) (commit : Commit) : ChainStore F × Ledger ApplyOutcome → Prop
  | known : (s.chain.metas b.hash).isSome → Applied s b now commit (s, .ok .alreadyKnown)
  | rejected {e : Fault LedgerError} : s.chain.metas b.hash = none → validateBlock s.chain b now = .error e →
      Applied s b now commit (s, .error e)
  | persisted {o : ApplyOutcome} {m : BlockMeta F} {l : List Hash32} : commit = .ok () → o ≠ .alreadyKnown →
      validateBlock s.chain b now = .ok () → s.chain.Grew (s.chain.tryApply b now).1 b m →
      (s.chain.tryApply b now).1.Descends (s.chain.tryApply b now).1.tipHash l →
      Applied s b now commit
        ({ disk := s.disk.persisted (s.chain.tryApply b now).1 b.hash b m l
              ((s.chain.tryApply b now).1.floorHeight + l.length - 1)
           chain := (s.chain.tryApply b now).1 }, .ok o)
  | lost {reason : String} {m : BlockMeta F} : commit = .error reason → validateBlock s.chain b now = .ok () →
      s.chain.Grew (s.chain.tryApply b now).1 b m →
      Applied s b now commit
        ({ disk := s.disk, chain := (s.chain.tryApply b now).1 }, .error (.err (.storage reason)))

/-- A chain that took a block in writes it. -/
theorem applied_of_grew (inv : Chain.Inv root s.chain) (hz : b.hash ≠ .zero) {o : ApplyOutcome}
    (hv : validateBlock s.chain b now = .ok ()) (ho : o ≠ .alreadyKnown) (hr : (s.chain.tryApply b now).2 = .ok o)
    (g : s.chain.Grew (s.chain.tryApply b now).1 b m) : s.Applied b now commit (s.tryApply b now commit) := by
  have inv' := inv.tryApply hz now
  obtain ⟨l, hl, -, -⟩ := inv'.tip
  have hm : (s.chain.tryApply b now).1.metas b.hash = some m := by rw [g.metas, Table.insert_self]
  have hpersist := persistAfterApply_eq (s := { s with chain := (s.chain.tryApply b now).1 }) inv' hm hl commit
  have hpair : s.chain.tryApply b now = ((s.chain.tryApply b now).1, .ok o) := Prod.ext rfl hr
  have htry : s.tryApply b now commit =
      ((persistAfterApply { s with chain := (s.chain.tryApply b now).1 } b commit).1,
        (persistAfterApply { s with chain := (s.chain.tryApply b now).1 } b commit).2.map fun _ => o) := by
    unfold tryApply
    rw [hpair]
    cases o with
    | alreadyKnown => exact absurd rfl ho
    | _ =>
      dsimp only
      rcases persistAfterApply _ b commit with ⟨s', e | _⟩ <;> rfl
  rw [htry, hpersist]
  cases commit with
  | ok _ => exact .persisted rfl ho hv g hl
  | error reason => exact .lost rfl hv g

theorem tryApply_applied (inv : Chain.Inv root s.chain) (hz : b.hash ≠ .zero) (now : ℕ) (commit : Commit) :
    s.Applied b now commit (s.tryApply b now commit) := by
  have happ := inv.tryApply_applied hz now
  generalize hc : (s.chain.tryApply b now).1 = c' at happ
  generalize hr : (s.chain.tryApply b now).2 = r at happ
  have hpair : s.chain.tryApply b now = (c', r) := Prod.ext hc hr
  cases happ with
  | known hk =>
    have htry : s.tryApply b now commit = (s, .ok .alreadyKnown) := by
      unfold tryApply
      rw [hpair]
    rw [htry]
    exact .known hk
  | @rejected e hnew he =>
    have htry : s.tryApply b now commit = (s, .error e) := by
      unfold tryApply
      rw [hpair]
    rw [htry]
    exact .rejected hnew he
  | @fork pm l w a =>
    have g : s.chain.Grew (s.chain.tryApply b now).1 b (Chain.childMeta pm b) := by
      rw [hc]
      exact ⟨a.new, rfl, rfl, rfl, rfl, rfl⟩
    exact applied_of_grew inv hz a.valid (by simp) hr g
  | @tip pm l w a =>
    have g : s.chain.Grew (s.chain.tryApply b now).1 b (Chain.childMeta pm b) := by
      rw [hc]
      exact ⟨a.new, rfl, rfl, rfl, rfl, rfl⟩
    exact applied_of_grew inv hz a.valid (by split_ifs <;> simp) hr g

/-- No write of a block that is accepted now fails. -/
def Persists (s : ChainStore F) (b : Block) (now : ℕ) (commit : Commit) : Prop :=
  commit = .ok () ∨ (s.chain.metas b.hash).isSome ∨ ∃ e, validateBlock s.chain b now = .error e

theorem SealedFrom.tryApply (sl : s.SealedFrom root) (hz : b.hash ≠ .zero) (hp : s.Persists b now commit) :
    (s.tryApply b now commit).1.SealedFrom root := by
  have happ := tryApply_applied sl.inv hz now commit
  generalize s.tryApply b now commit = r at happ
  cases happ with
  | known => exact sl
  | rejected => exact sl
  | persisted _ _ _ g hl =>
    obtain ⟨l', hl', hidx, -⟩ := (sl.inv.tryApply hz now).tip
    obtain rfl := hl'.unique hl
    exact ⟨sl.inv.tryApply hz now, sl.vetted.tryApply sl.inv hz now,
      sl.mirrors.persisted sl.inv.rooted.floor_known g hidx hl.ne_nil⟩
  | lost hc hv g =>
    rcases hp with hok | hk | ⟨e, he⟩
    · rw [hok] at hc
      cases hc
    · rw [g.new] at hk
      cases hk
    · rw [hv] at he
      cases he

/-! ### Pruning -/

/-- The checkpoint of a block. -/
def checkpointOf (g : Hash32) (m : BlockMeta F) (owners : Owners) : Checkpoint F where
  height := m.height
  hash := g
  timestamp := m.timestamp
  difficultyTarget := m.difficultyTarget
  cumulativeWork := m.cumulativeWork
  usernameOwner := owners

/-- The store after the checkpoint of `g` was saved and the floor was moved there; the bodies on disk are
dropped if the second transaction commits. -/
def floored (s : ChainStore F) (height : ℕ) (g : Hash32) (m : BlockMeta F) (owners : Owners) (commit : Commit) : ChainStore F where
  disk := (Disk.commit { s.disk with checkpoint := some (checkpointOf g m owners) }
    { s.disk with
      checkpoint := some (checkpointOf g m owners)
      blocks := s.disk.blocks.retain fun _ block => height < block.header.height.toNat } commit).1
  chain := s.chain.raiseFloor height g owners

/-- The ways a call of `prune_with_retention` can go. -/
inductive Pruned (s : ChainStore F) (commit₁ commit₂ : Commit) : ChainStore F × Ledger Unit → Prop
  | kept : Pruned s commit₁ commit₂ (s, .ok ())
  | unsaved {reason : String} : commit₁ = .error reason → Pruned s commit₁ commit₂ (s, .error (.err (.storage reason)))
  | floored {height : ℕ} {l₁ l₂ : List Hash32} {g : Hash32} {m : BlockMeta F} {r : Ledger Unit} :
      s.chain.floorHeight < height → l₁.length = height - s.chain.floorHeight →
      s.chain.Descends s.chain.tipHash (l₁ ++ g :: l₂) → s.chain.metas g = some m →
      Pruned s commit₁ commit₂ (s.floored height g m (s.chain.ownersOn (l₁ ++ [g])) commit₂, r)

theorem pruneWithRetention_pruned (inv : Chain.Inv root s.chain) (retention : ℕ) (commit₁ commit₂ : Commit) :
    s.Pruned commit₁ commit₂ (s.pruneWithRetention retention commit₁ commit₂) := by
  obtain ⟨l, hl, hidx, -⟩ := inv.tip
  unfold pruneWithRetention
  simp only [inv.tipHeight_eq hl]
  cases hfloor : checkedSub (s.chain.floorHeight + l.length - 1) retention with
  | none => exact .kept
  | some height =>
    have hle : height ≤ s.chain.floorHeight + l.length - 1 := by
      unfold checkedSub at hfloor
      split_ifs at hfloor with h
      obtain rfl := Option.some.inj hfloor
      omega
    by_cases hlow : height ≤ s.chain.floorHeight
    · simp only [hlow, ↓reduceIte]
      exact .kept
    · simp only [hlow, ↓reduceIte]
      have hpos := List.length_pos_iff.mpr hl.ne_nil
      have hlt : height - s.chain.floorHeight < l.length := by omega
      have hsplit := List.take_append_drop (height - s.chain.floorHeight) l
      rw [List.drop_eq_getElem_cons hlt] at hsplit
      generalize hg : l[height - s.chain.floorHeight] = g at hsplit
      have hg' : s.chain.canonicalIndex height = some g := by
        rw [hidx height (by omega), List.getElem?_eq_getElem hlt, hg]
      rw [← hsplit] at hl
      have hgl := hl.of_append
      obtain ⟨m, hm⟩ := Option.isSome_iff_exists.mp (inv.known hgl g hgl.mem_self)
      have hcp : s.chain.checkpointAt height =
          .ok (checkpointOf g m (s.chain.ownersOn (l.take (height - s.chain.floorHeight) ++ [g]))) := by
        simp only [Chain.checkpointAt, hg', hm, Exec.ofOption_some, Exec.ok_bind, inv.stateAt_eq hgl]
        rfl
      rw [hcp]
      cases commit₁ with
      | error reason => exact .unsaved rfl
      | ok _ =>
        have hprune : s.chain.pruneBodiesUpTo height = (s.chain.raiseFloor height g
            (s.chain.ownersOn (l.take (height - s.chain.floorHeight) ++ [g])), .ok ()) := by
          simp only [Chain.pruneBodiesUpTo, hlow, ↓reduceIte, hg', inv.stateAt_eq hgl]
          rfl
        simp only [Disk.commit, dropBodies, hprune]
        exact .floored (by omega) (List.length_take_of_le (by omega)) hl hm

/-- Moving the floor keeps the file up to date, whether or not the old bodies are dropped from it. -/
theorem SealedFrom.floored (sl : s.SealedFrom root) {height : ℕ} {l₁ l₂ : List Hash32} {g : Hash32}
    (hlt : s.chain.floorHeight < height) (hlen : l₁.length = height - s.chain.floorHeight)
    (hl : s.chain.Descends s.chain.tipHash (l₁ ++ g :: l₂)) (hm : s.chain.metas g = some m) :
    (s.floored height g m (s.chain.ownersOn (l₁ ++ [g])) commit).SealedFrom root := by
  have inv' := sl.inv.raiseFloor hlt hlen hl
  have hheight := sl.inv.heightOf_raised hlt hlen hl.of_append
  rw [Chain.heightOf_eq hm] at hheight
  have hgz : g ≠ .zero := by
    rintro rfl
    rw [sl.inv.zero] at hm
    cases hm
  have hstart : Chain.Copies (s.chain.raiseFloor height g (s.chain.ownersOn (l₁ ++ [g])))
      (Chain.fromCheckpoint (checkpointOf g m (s.chain.ownersOn (l₁ ++ [g])))) [g] := by
    have hcp : (checkpointOf g m (s.chain.ownersOn (l₁ ++ [g]))).hash ≠ .zero := hgz
    have hinv := Chain.Inv.fromCheckpoint hcp
    exact Chain.Copies.single hinv ⟨rfl, hheight, rfl⟩ rfl hm rfl
  refine ⟨inv', sl.vetted.raiseFloor sl.inv hlt hlen hl, ?_⟩
  obtain ⟨htip, hheights, htop, hbodies, -⟩ := sl.mirrors
  cases commit with
  | error reason =>
    refine ⟨htip, fun n hn => ?_, htop, fun k b hb => ?_, hstart⟩
    · exact hheights n (le_of_lt (lt_of_lt_of_le hlt hn))
    · have hb' : s.chain.blocks.retain (fun _ block => height < block.header.height.toNat) k = some b := hb
      exact hbodies k b (Table.retain_eq_some.mp hb').1
  | ok _ =>
    refine ⟨htip, fun n hn => ?_, htop, fun k b hb => ?_, hstart⟩
    · exact hheights n (le_of_lt (lt_of_lt_of_le hlt hn))
    · have hb' : s.chain.blocks.retain (fun _ block => height < block.header.height.toNat) k = some b := hb
      obtain ⟨hb₁, hb₂⟩ := Table.retain_eq_some.mp hb'
      show s.disk.blocks.retain (fun _ block => height < block.header.height.toNat) k = some b
      exact Table.retain_eq_some.mpr ⟨hbodies k b hb₁, hb₂⟩

theorem SealedFrom.pruneWithRetention (sl : s.SealedFrom root) (retention : ℕ) (commit₁ commit₂ : Commit) :
    (s.pruneWithRetention retention commit₁ commit₂).1.SealedFrom root := by
  have h := pruneWithRetention_pruned sl.inv retention commit₁ commit₂
  generalize s.pruneWithRetention retention commit₁ commit₂ = r at h
  cases h with
  | kept => exact sl
  | unsaved => exact sl
  | floored hlt hlen hl hm => exact sl.floored hlt hlen hl hm

/-! ### Opening a new file -/

variable (F) in
/-- The store in a file that holds genesis only. -/
def opened : ChainStore F where
  disk := Disk.empty.persisted .new Block.genesis.hash Block.genesis (genesisMeta F) [Block.genesis.hash] 0
  chain := .new

/-- A new file is opened with genesis in it, or not at all. -/
theorem openAt_empty (hz : Block.genesis.hash ≠ .zero) {tables genesis : Commit} :
    openAt (Disk.empty : Disk F) tables genesis = .ok s ↔ tables = .ok () ∧ genesis = .ok () ∧ s = opened F := by
  have inv : Chain.Inv Block.genesis.hash (Chain.new : Chain F) := .new hz
  have hl : (Chain.new : Chain F).Descends (Chain.new : Chain F).tipHash [Block.genesis.hash] := .floor
  have hm : (Chain.new : Chain F).metas Block.genesis.hash = some (genesisMeta F) := Table.insert_self
  have hpersist := persistAfterApply_eq (s := { disk := Disk.empty, chain := .new }) inv hm hl genesis
  cases tables with
  | error reason => simp [openAt, Disk.commit]
  | ok _ =>
    simp only [openAt, Disk.commit, Disk.empty] at hpersist ⊢
    rw [hpersist]
    cases genesis with
    | error reason => simp
    | ok _ =>
      simp only [Except.ok.injEq, true_and]
      exact eq_comm

theorem sealed_opened (hz : Block.genesis.hash ≠ .zero) : (opened F).Sealed := by
  have hm : (Chain.new : Chain F).metas Block.genesis.hash = some (genesisMeta F) := Table.insert_self
  refine ⟨.new hz, .new hz, rfl, fun _ _ => rfl, fun n hn => ?_, fun _ _ hb => hb,
    Chain.Copies.single (.new hz) ⟨rfl, rfl, rfl⟩ rfl hm rfl⟩
  obtain ⟨g, hg⟩ := Option.isSome_iff_exists.mp hn
  have hentry : (Table.empty.insert 0 Block.genesis.hash) n = some g := hg
  rcases Table.insert_eq_some.mp hentry with ⟨rfl, -⟩ | ⟨-, hnone⟩
  · exact Nat.zero_le _
  · cases hnone

end ChainStore
end
end SpiritChat
