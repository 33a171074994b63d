import SpiritChat.Theorems.Counted
import SpiritChat.Theorems.ForkChoice

/-! # Pruning is invisible

A chain whose floor was moved up agrees with the one that kept its bodies, on everything that descends from the new
floor: for blocks far enough above it, validation reads nothing below. -/

namespace SpiritChat
open Lib

namespace Chain
section
variable {F : Type} [Float64 F] [Primitives] {root g h k : Hash32} {c c' : Chain F} {l l₁ : List Hash32} {b : Block}

/-- `c'` is `c` with its floor moved up along the path `l₁`. -/
structure Trimmed (root : Hash32) (l₁ : List Hash32) (c c' : Chain F) : Prop where
  inv : Inv root c
  inv' : Inv root c'
  metas : c'.metas = c.metas
  tip : c'.tipHash = c.tipHash
  owners : c'.usernameOwner = c.usernameOwner
  floor : c.Descends c'.floorHash (l₁ ++ [c'.floorHash])
  snapshot : c'.floorUsernameOwner = c.ownersOn (l₁ ++ [c'.floorHash])
  bodies : ∀ k l, c'.Descends k l → k ≠ c'.floorHash → c'.blocks k = c.blocks k

namespace Trimmed

theorem parentOf (t : Trimmed root l₁ c c') : c'.parentOf = c.parentOf := by
  unfold Chain.parentOf
  rw [t.metas]

theorem heightOf (t : Trimmed root l₁ c c') : c'.heightOf = c.heightOf := by
  unfold Chain.heightOf
  rw [t.metas]

theorem floorHeight (t : Trimmed root l₁ c c') : c'.floorHeight = c.floorHeight + l₁.length := by
  have hfloor := t.inv.rooted.heightOf_getElem? t.floor (i := l₁.length) (a := c'.floorHash) (by simp)
  rw [← hfloor, ← t.heightOf, t.inv'.rooted.heightOf_floor]

/-- A path from the new floor continues the one to it. -/
theorem descends (t : Trimmed root l₁ c c') (hl : c'.Descends k l) : c.Descends k (l₁ ++ l) := by
  obtain ⟨l', rfl⟩ := hl.eq_cons
  have hl' : Lineage c.parentOf c'.floorHash k (c'.floorHash :: l') := t.parentOf ▸ hl
  exact t.inv.descends_of_raised t.floor hl'

theorem ancestors (t : Trimmed root l₁ c c') (hl : c'.Descends k l) :
    c'.ancestors k = .ok l ∧ c.ancestors k = .ok (l₁ ++ l) :=
  ⟨t.inv'.rooted.ancestors_eq_ok.mpr hl, t.inv.rooted.ancestors_eq_ok.mpr (t.descends hl)⟩

theorem ownersOn (t : Trimmed root l₁ c c') (hl : c'.Descends k l) : c'.ownersOn l = c.ownersOn (l₁ ++ l) := by
  obtain ⟨l', rfl⟩ := hl.eq_cons
  have htail : (l₁ ++ c'.floorHash :: l').tail = (l₁ ++ [c'.floorHash]).tail ++ l' := by
    cases l₁ with
    | nil => rfl
    | cons a l₁ => simp
  have hsame : replay c'.blocks c'.floorUsernameOwner l' = replay c.blocks c'.floorUsernameOwner l' := by
    refine replay_congr (fun a ha => ?_) _
    obtain ⟨l'', hl'', -⟩ := hl.exists_of_mem (List.mem_cons_of_mem _ ha)
    refine t.bodies a l'' hl'' ?_
    rintro rfl
    exact (List.nodup_cons.mp hl.nodup).1 ha
  unfold Chain.ownersOn
  rw [htail, replay_append, List.tail_cons, hsame, t.snapshot]
  rfl

theorem stateAt (t : Trimmed root l₁ c c') (hl : c'.Descends k l) : c'.stateAt k = c.stateAt k := by
  rw [t.inv'.stateAt_eq hl, t.inv.stateAt_eq (t.descends hl), t.ownersOn hl]

/-! ### Validation -/

omit [Float64 F] [Primitives] in
theorem timestamps_congr (hm : c'.metas = c.metas) (l : List Hash32) : c'.timestamps l = c.timestamps l := by
  induction l with
  | nil => rfl
  | cons a l ih => rw [timestamps, timestamps, hm, ih]

/-- The median window lies on the path from the new floor. -/
theorem medianTimePast (t : Trimmed root l₁ c c') (hl : c'.Descends k l) (hlong : medianTimePastWindow ≤ l.length) :
    c'.medianTimePast k = c.medianTimePast k := by
  obtain ⟨ha', ha⟩ := t.ancestors hl
  have hdrop : (l₁ ++ l).drop ((l₁ ++ l).length - medianTimePastWindow) = l.drop (l.length - medianTimePastWindow) := by
    have hsplit : (l₁ ++ l).length - medianTimePastWindow = l₁.length + (l.length - medianTimePastWindow) := by
      rw [List.length_append]
      omega
    rw [hsplit, ← List.drop_drop, List.drop_left]
  unfold Chain.medianTimePast
  rw [ha', ha, Exec.ok_bind, Exec.ok_bind]
  dsimp only
  rw [hdrop, timestamps_congr t.metas]

/-- The start of the retarget interval lies on the path from the new floor. -/
theorem expectedDifficulty (t : Trimmed root l₁ c c') (hl : c'.Descends k l)
    (hhigh : c'.floorHeight + retargetIntervalBlocks ≤ c'.heightOf k + 1) :
    c'.expectedDifficulty k = c.expectedDifficulty k := by
  obtain ⟨ha', ha⟩ := t.ancestors hl
  obtain ⟨m, hm⟩ := Option.isSome_iff_exists.mp (t.inv'.known hl k hl.mem_self)
  have hheight := heightOf_eq hm
  unfold Chain.expectedDifficulty
  rw [← t.metas, hm, Exec.ofOption_some, Exec.ok_bind, Exec.ok_bind, ha', ha]
  dsimp only
  rw [Exec.ok_bind, Exec.ok_bind]
  split
  · rfl
  · have hidx' : checkedSub (m.height + 1 - retargetIntervalBlocks) c'.floorHeight =
        some (m.height + 1 - retargetIntervalBlocks - c'.floorHeight) := if_pos (by omega)
    have hidx : checkedSub (m.height + 1 - retargetIntervalBlocks) c.floorHeight =
        some (l₁.length + (m.height + 1 - retargetIntervalBlocks - c'.floorHeight)) := by
      have hfloor := t.floorHeight
      unfold checkedSub
      rw [if_pos (by omega)]
      congr 1
      omega
    have hstart : (l₁ ++ l)[l₁.length + (m.height + 1 - retargetIntervalBlocks - c'.floorHeight)]? =
        l[m.height + 1 - retargetIntervalBlocks - c'.floorHeight]? := by
      rw [List.getElem?_append_right (Nat.le_add_right _ _), Nat.add_sub_cancel_left]
    rw [hidx', hidx, Exec.ofOption_some, Exec.ofOption_some, Exec.ok_bind, Exec.ok_bind, hstart]

/-- An anchor below the new floor is too old for a block that is far above it. -/
theorem validateTransaction (t : Trimmed root l₁ c c') (hl : c'.Descends k l) {owners : Owners} {claimed : List String}
    (hhigh : c'.floorHeight + anchorMaxAgeBlocks ≤ b.header.height.toNat) (tx : Transaction) :
    validateTransaction c' b owners l claimed tx = validateTransaction c b owners (l₁ ++ l) claimed tx := by
  unfold SpiritChat.validateTransaction
  congr 1
  funext _
  by_cases hmem : tx.anchorBlockHash ∈ l
  · rw [if_neg (not_not.mpr hmem), if_neg (not_not.mpr (List.mem_append_right _ hmem)), t.metas]
  · rw [if_pos hmem]
    by_cases hbelow : tx.anchorBlockHash ∈ l₁
    · obtain ⟨i, hi, hget⟩ := List.mem_iff_getElem.mp hbelow
      have hline := t.descends hl
      have hat : (l₁ ++ l)[i]? = some tx.anchorBlockHash := by
        rw [List.getElem?_append_left hi, List.getElem?_eq_getElem hi, hget]
      have hheight := t.inv.rooted.heightOf_getElem? hline hat
      obtain ⟨m, hm⟩ := Option.isSome_iff_exists.mp (t.inv.known hline _ (List.mem_append_left _ hbelow))
      rw [heightOf_eq hm] at hheight
      have hfloor := t.floorHeight
      rw [if_neg (not_not.mpr (List.mem_append_left _ hbelow)), hm, Exec.ofOption_some, Exec.ok_bind, if_pos (by omega)]
    · rw [if_pos fun h => (List.mem_append.mp h).elim hbelow hmem]

theorem validateTransactions (t : Trimmed root l₁ c c') (hl : c'.Descends b.header.prevHash l)
    (hhigh : c'.floorHeight + anchorMaxAgeBlocks ≤ b.header.height.toNat) :
    validateTransactions c' b = validateTransactions c b := by
  obtain ⟨ha', ha⟩ := t.ancestors hl
  have hstep : ∀ owners, SpiritChat.validateTransaction c' b owners l =
      SpiritChat.validateTransaction c b owners (l₁ ++ l) := fun owners => by
    funext claimed tx
    exact t.validateTransaction hl hhigh tx
  unfold SpiritChat.validateTransactions
  rw [t.stateAt hl, ha', ha]
  simp only [Exec.ok_bind, hstep]

/-- Validation of a block far enough above the new floor. -/
theorem validateBlock (t : Trimmed root l₁ c c') (hl : c'.Descends b.header.prevHash l)
    (hhigh : c'.floorHeight + retargetIntervalBlocks ≤ c'.heightOf b.header.prevHash + 1) (now : ℕ) :
    validateBlock c' b now = validateBlock c b now := by
  obtain ⟨m, hm⟩ := Option.isSome_iff_exists.mp (t.inv'.known hl _ hl.mem_self)
  have hheight := heightOf_eq hm
  have hlength := (t.inv'.rooted.length_eq hl).1
  have hmedian := t.medianTimePast hl (by simp only [medianTimePastWindow, retargetIntervalBlocks] at *; omega)
  unfold SpiritChat.validateBlock
  rw [t.expectedDifficulty hl hhigh, hmedian, ← t.metas, hm, Exec.ofOption_some, Exec.ok_bind, Exec.ok_bind]
  by_cases hnext : b.header.height.toNat = m.height + 1
  · have htransactions : SpiritChat.validateTransactions c' b = SpiritChat.validateTransactions c b :=
      t.validateTransactions hl (by simp only [anchorMaxAgeBlocks, retargetIntervalBlocks] at *; omega)
    rw [htransactions]
  · rw [if_pos hnext, if_pos hnext]

/-! ### Accepting a block -/

variable {pm : BlockMeta F} {now : ℕ}

theorem store (t : Trimmed root l₁ c c') (hz : b.hash ≠ .zero) {l' : List Hash32} (a : c.Accepts b now pm l)
    (a' : c'.Accepts b now pm l') : Trimmed root l₁ (c.accepted b pm) (c'.accepted b pm) where
  inv := a.inv t.inv hz
  inv' := a'.inv t.inv' hz
  metas := by
    unfold accepted Chain.store
    rw [t.metas]
  tip := t.tip
  owners := t.owners
  floor := (descends_store t.inv a.new hz (ne_of_known a.new (t.inv.known t.floor _ t.floor.mem_self))).mpr t.floor
  snapshot := t.snapshot.trans (ownersOn_store t.inv a.new t.floor).symm
  bodies := by
    intro k l hk hne
    change (c'.blocks.insert b.hash b) k = (c.blocks.insert b.hash b) k
    by_cases hb : k = b.hash
    · rw [hb, Table.insert_self, Table.insert_self]
    · rw [Table.insert_of_ne hb, Table.insert_of_ne hb]
      exact t.bodies k l ((descends_store t.inv' a'.new hz hb).mp hk) hne

theorem setTip (t : Trimmed root l₁ c c') (hl : c'.Descends h l) :
    Trimmed root l₁ (c.setTip h (l₁ ++ l)) (c'.setTip h l) where
  inv := t.inv.setTip (t.descends hl)
  inv' := t.inv'.setTip hl
  metas := t.metas
  tip := rfl
  owners := t.ownersOn hl
  floor := t.floor
  snapshot := t.snapshot
  bodies := t.bodies

/-- The two chains answer a block far enough above the new floor alike. -/
theorem tryApply (t : Trimmed root l₁ c c') (hz : b.hash ≠ .zero) (hl : c'.Descends b.header.prevHash l)
    (hhigh : c'.floorHeight + retargetIntervalBlocks ≤ c'.heightOf b.header.prevHash + 1) (now : ℕ) :
    (c'.tryApply b now).2 = (c.tryApply b now).2 ∧ Trimmed root l₁ (c.tryApply b now).1 (c'.tryApply b now).1 := by
  unfold Chain.tryApply
  rw [t.metas, t.validateBlock hl hhigh now]
  by_cases hk : (c.metas b.hash).isSome
  · rw [if_pos hk, if_pos hk]
    exact ⟨rfl, t⟩
  · rw [if_neg hk, if_neg hk]
    have hnew : c.metas b.hash = none := Option.not_isSome_iff_eq_none.mp hk
    rcases hv : SpiritChat.validateBlock c b now with e | _
    · exact ⟨rfl, t⟩
    · obtain ⟨pm, m, a⟩ := t.inv.accepts_of_validateBlock hnew hv
      obtain ⟨pm', l', a'⟩ := t.inv'.accepts_of_validateBlock (t.metas ▸ hnew) ((t.validateBlock hl hhigh now).trans hv)
      obtain rfl : pm = pm' := Option.some.inj (a.parent.symm.trans (t.metas ▸ a'.parent))
      have hstored := t.store hz a a'
      have hpath := a'.descends t.inv' hz
      dsimp only
      rw [a.parent]
      dsimp only
      unfold chooseTip
      rw [hstored.metas, hstored.tip]
      rcases htip : (c.accepted b pm).metas (c.accepted b pm).tipHash with _ | tipMeta
      · exact ⟨rfl, hstored⟩
      · dsimp only
        split
        · exact ⟨rfl, hstored⟩
        · rw [hstored.inv'.setCanonicalTip_eq hpath, hstored.inv.setCanonicalTip_eq (hstored.descends hpath)]
          exact ⟨rfl, hstored.setTip hpath⟩

end Trimmed

/-! ### Moving the floor -/

/-- A prune at a canonical height above the floor moves the floor there. -/
theorem Inv.trimmed_prune (inv : Inv root c) {height : ℕ} (hlt : c.floorHeight < height)
    (hg : c.canonicalIndex height = some g) :
    (c.pruneBodiesUpTo height).2 = .ok () ∧ (c.pruneBodiesUpTo height).1.floorHash = g ∧
      (c.pruneBodiesUpTo height).1.floorHeight = height ∧
      (c.pruneBodiesUpTo height).1.canonicalIndex = c.canonicalIndex ∧
      ∃ l₁, Trimmed root l₁ c (c.pruneBodiesUpTo height).1 := by
  have hinv' := inv.prune height
  have h := inv.prune_pruned height
  generalize c.pruneBodiesUpTo height = r at h hinv'
  cases h with
  | kept hkept =>
    rcases hkept with hle | hnone
    · exact absurd hlt (not_lt.mpr hle)
    · exact absurd (hnone.symm.trans hg) (by simp)
  | @moved l₁ l₂ g' _ hlen hl =>
    obtain ⟨l, hl', hidx, -⟩ := inv.tip
    obtain rfl := hl.unique hl'
    have hat := hidx height (le_of_lt hlt)
    rw [hg, ← hlen, List.getElem?_append_right (le_refl _), Nat.sub_self] at hat
    refine ⟨rfl, (Option.some.inj hat).symm, rfl, rfl, l₁, inv, hinv', rfl, rfl, rfl, hl.of_append, rfl, fun k l hk hne => ?_⟩
    obtain ⟨l', rfl⟩ := hk.eq_cons
    exact (inv.blocks_raised hlt hlen hl.of_append hk hne).1

/-- A checkpoint at or above the new floor. -/
theorem Trimmed.checkpointAt (t : Trimmed root l₁ c c') (hindex : c'.canonicalIndex = c.canonicalIndex) {n : ℕ}
    (hn : c'.floorHeight ≤ n) : c'.checkpointAt n = c.checkpointAt n := by
  unfold Chain.checkpointAt
  rw [hindex, t.metas]
  rcases hk : c.canonicalIndex n with _ | k
  · rfl
  · obtain ⟨l, hl, hidx, -⟩ := t.inv'.tip
    have hat := hidx n hn
    rw [hindex, hk] at hat
    obtain ⟨l', hl', -⟩ := hl.exists_of_mem (List.mem_of_getElem? hat.symm)
    rw [Exec.ofOption_some, Exec.ok_bind, Exec.ok_bind, t.stateAt hl']

/-- Each block has a parent that descends from `g` and is at least `least` high, on the chain that the blocks before it
lead to. -/
def Above (g : Hash32) (least : ℕ) : Chain F → List (Block × ℕ) → Prop
  | _, [] => True
  | c, (b, now) :: rest => (b.hash ≠ .zero ∧ (∃ l, Lineage c.parentOf g b.header.prevHash l) ∧
      least ≤ c.heightOf b.header.prevHash) ∧ Above g least (c.tryApply b now).1 rest

/-- What `try_apply` answers to each block in turn. -/
def answers : Chain F → List (Block × ℕ) → List (Ledger ApplyOutcome)
  | _, [] => []
  | c, (b, now) :: rest => (c.tryApply b now).2 :: answers (c.tryApply b now).1 rest

theorem floorHash_tryApply (inv : Inv root c) (hz : b.hash ≠ .zero) (now : ℕ) :
    (c.tryApply b now).1.floorHash = c.floorHash ∧ (c.tryApply b now).1.floorHeight = c.floorHeight := by
  have h := inv.tryApply_applied hz now
  generalize (c.tryApply b now).1 = c₁ at h
  generalize (c.tryApply b now).2 = r at h
  cases h with
  | known => exact ⟨rfl, rfl⟩
  | rejected => exact ⟨rfl, rfl⟩
  | fork => exact ⟨rfl, rfl⟩
  | tip => exact ⟨rfl, rfl⟩

/-- The two chains stay alike under any blocks far enough above the new floor. -/
theorem Trimmed.applyAll (t : Trimmed root l₁ c c') {submissions : List (Block × ℕ)}
    (h : Above c'.floorHash (c'.floorHeight + retargetIntervalBlocks - 1) c submissions) :
    answers c' submissions = answers c submissions ∧
      Trimmed root l₁ (c.applyAll submissions) (c'.applyAll submissions) := by
  induction submissions generalizing c c' with
  | nil => exact ⟨rfl, t⟩
  | cons s rest ih =>
    obtain ⟨b, now⟩ := s
    obtain ⟨⟨hz, ⟨l, hl⟩, hhigh⟩, hrest⟩ := h
    have hl' : c'.Descends b.header.prevHash l := by
      rw [Descends, t.parentOf]
      exact hl
    have hhigh' : c'.floorHeight + retargetIntervalBlocks ≤ c'.heightOf b.header.prevHash + 1 := by
      rw [t.heightOf]
      simp only [retargetIntervalBlocks] at *
      omega
    obtain ⟨hanswer, t'⟩ := t.tryApply hz hl' hhigh' now
    obtain ⟨hfloor, hheight⟩ := floorHash_tryApply t.inv' hz now
    rw [← hfloor, ← hheight] at hrest
    obtain ⟨hanswers, t''⟩ := ih t' hrest
    exact ⟨by rw [answers, answers, hanswer, hanswers], t''⟩

/-- Pruning changes nothing that is read above the new floor, and no answer to blocks far enough above it. -/
theorem pruning_invisible (hc : Reachable root c) {height : ℕ} (hlt : c.floorHeight < height)
    (hg : c.canonicalIndex height = some g) :
    (c.pruneBodiesUpTo height).2 = .ok () ∧ (c.pruneBodiesUpTo height).1.tipHash = c.tipHash ∧
    (c.pruneBodiesUpTo height).1.usernameOwner = c.usernameOwner ∧
    (∀ k l, Lineage c.parentOf g k l → (c.pruneBodiesUpTo height).1.stateAt k = c.stateAt k) ∧
    (∀ n, height ≤ n → (c.pruneBodiesUpTo height).1.checkpointAt n = c.checkpointAt n) ∧
    ∀ submissions, Above g (height + retargetIntervalBlocks - 1) c submissions →
      answers (c.pruneBodiesUpTo height).1 submissions = answers c submissions ∧
      ((c.pruneBodiesUpTo height).1.applyAll submissions).tipHash = (c.applyAll submissions).tipHash ∧
      ((c.pruneBodiesUpTo height).1.applyAll submissions).usernameOwner = (c.applyAll submissions).usernameOwner := by
  obtain ⟨hok, hfloor, hheight, hindex, l₁, t⟩ := hc.inv.trimmed_prune hlt hg
  refine ⟨hok, t.tip, t.owners, fun k l hl => ?_, fun n hn => ?_, fun submissions hs => ?_⟩
  · rw [← hfloor, ← t.parentOf] at hl
    exact t.stateAt hl
  · exact t.checkpointAt hindex (hheight.le.trans hn)
  · have hs' : Above (c.pruneBodiesUpTo height).1.floorHash
        ((c.pruneBodiesUpTo height).1.floorHeight + retargetIntervalBlocks - 1) c submissions := by
      rw [hfloor, hheight]
      exact hs
    obtain ⟨hanswers, t'⟩ := t.applyAll hs'
    exact ⟨hanswers, t'.tip, t'.owners⟩

end
end Chain

/-! ### A claim below the floor, and one above it -/

namespace Counted
attribute [local instance] counting

def firstClaim : Transaction where
  version := 1
  username := "alice"
  ownerPublicKey := aliceKey
  claimedAtHeightHint := 1
  anchorBlockHash := hashAt 0
  nonce := .replicate 8 0
  signature := [0x12, 0x0e, 0xb3, 0x1f, 0xd1, 0x8e, 0x8c, 0x00, 0xb6, 0xf4, 0x99, 0xa9, 0x71, 0x69, 0x46, 0x25, 0x86,
    0x16, 0x69, 0xbf, 0xb8, 0xfa, 0x19, 0xc1, 0xc1, 0x8f, 0xdd, 0xe3, 0x60, 0x98, 0x01, 0x0a, 0x65, 0xb9, 0x7b, 0x74,
    0x78, 0x84, 0xbe, 0x71, 0xfd, 0xe2, 0x5b, 0x7f, 0xd8, 0x62, 0x89, 0xec, 0x0b, 0x40, 0x33, 0x9c, 0xba, 0xb1, 0x61,
    0xe9, 0x81, 0x2b, 0x84, 0xbd, 0xbd, 0xfd, 0x85, 0x0a]

def laterClaim : Transaction where
  version := 1
  username := "alice_2"
  ownerPublicKey := aliceKey
  claimedAtHeightHint := 289
  anchorBlockHash := hashAt 288
  nonce := .replicate 8 0
  signature := [0x2a, 0xdb, 0x04, 0x7d, 0xa1, 0x84, 0x5d, 0x75, 0x49, 0x07, 0x45, 0x6d, 0xdb, 0x72, 0xc9, 0xe5, 0xd7,
    0xc0, 0xd4, 0x1d, 0xa1, 0x58, 0x59, 0x2f, 0x0b, 0x03, 0xad, 0xd6, 0x7f, 0x3e, 0x8e, 0x47, 0x61, 0x99, 0xaf, 0x79,
    0x03, 0x9e, 0x85, 0x68, 0x23, 0x0a, 0x49, 0xe3, 0x26, 0x59, 0xc0, 0x71, 0x1f, 0xf0, 0x59, 0x8c, 0xc7, 0x7f, 0x9b,
    0xfb, 0xdc, 0x89, 0x33, 0x93, 0xce, 0x20, 0xca, 0x0d]

theorem fits_claim {k : ℕ} {owners : Owners} {tx : Transaction} (hself : tx.verifySelfContained = .ok ())
    (hanchor : tx.anchorBlockHash = hashAt k) (hfree : owners tx.username = none) : Fits k owners [tx] where
  count := by
    rw [List.length_singleton]
    decide
  signed t ht := by rwa [List.mem_singleton.mp ht]
  distinct := List.nodup_singleton _
  anchored t ht := by
    rw [List.mem_singleton.mp ht]
    refine ⟨k, le_rfl, hanchor, ?_⟩
    rw [Nat.add_sub_cancel_left]
    decide
  unclaimed t ht := by rwa [List.mem_singleton.mp ht]

/-- The first block holds the first claim. -/
def claimsAt : ℕ → List Transaction
  | 1 => [firstClaim]
  | _ => []

/-- The chain after so many blocks. -/
def claimed : ℕ → Chain ℚ
  | 0 => Chain.new
  | k + 1 => ((claimed k).tryApply (blockWith (claimsAt (k + 1)) (k + 1)) clock).1

/-- Who owns what from the first block on. -/
def firstOwners : Owners := Table.empty.insertAll ((blockWith [firstClaim] 1).claims (hashAt 1))

theorem minedTo_claimed {k : ℕ} (hk : k < 575) : MinedTo (k + 1) firstOwners (claimed (k + 1)) := by
  induction k with
  | zero =>
    have hf : Fits 0 Table.empty [firstClaim] := fits_claim (by decide +kernel) rfl rfl
    exact (minedTo_zero.next retarget_kept hk hf fun pm _ => lt_add_of_pos_right _ (workOf_pos _)).2.1
  | succ k ih =>
    exact ((ih (by omega)).next retarget_kept hk (.nil _ _) fun pm _ => lt_add_of_pos_right _ (workOf_pos _)).2.1

/-- The first block is pruned, and the next claim comes as soon as pruning promises to be invisible. -/
theorem pruning_invisible_claimed :
    (((claimed 288).pruneBodiesUpTo 1).1.usernameOwner "alice").map (·.claimedAtHeight) = some 1 ∧
    Chain.answers ((claimed 288).pruneBodiesUpTo 1).1 [(blockWith [laterClaim] 289, clock)] = [.ok .extendedTip] ∧
    ((((claimed 288).pruneBodiesUpTo 1).1.applyAll [(blockWith [laterClaim] 289, clock)]).usernameOwner "alice_2").map
      (·.claimedAtHeight) = some 289 := by
  have m : MinedTo 288 firstOwners (claimed 288) := minedTo_claimed (k := 287) (by decide)
  generalize claimed 288 = c at m ⊢
  obtain ⟨hheight, hfloor⟩ := m.heightOf
  have hlt : c.floorHeight < 1 := hfloor ▸ Nat.one_pos
  have hg := m.canonicalIndex (i := 1) (by decide)
  obtain ⟨-, -, howner, -, -, hlater⟩ := Chain.pruning_invisible m.reached hlt hg
  have habove : Chain.Above (hashAt 1) (1 + retargetIntervalBlocks - 1) c [(blockWith [laterClaim] 289, clock)] := by
    obtain ⟨-, hroot, -, -, l₁, t⟩ := m.reached.inv.trimmed_prune hlt hg
    obtain ⟨l, hl, -⟩ := t.inv'.tip
    rw [t.tip, m.tip, Chain.Descends, t.parentOf, hroot] at hl
    exact ⟨⟨hash_eq _ ▸ hashAt_ne_zero _, ⟨l, hl⟩, hheight.ge⟩, trivial⟩
  obtain ⟨hanswers, -, howner'⟩ := hlater _ habove
  have hf : Fits 288 firstOwners [laterClaim] := fits_claim (by decide +kernel) rfl (by decide +kernel)
  obtain ⟨htip, m', -⟩ := m.next retarget_kept (by decide) hf fun pm _ => lt_add_of_pos_right _ (workOf_pos _)
  refine ⟨?_, ?_, ?_⟩
  · rw [howner, m.usernameOwner]
    decide +kernel
  · rw [hanswers]
    exact congrArg (fun r => [r]) htip
  · have hone : c.applyAll [(blockWith [laterClaim] 289, clock)] = (c.tryApply (blockWith [laterClaim] 289) clock).1 := by
      rw [Chain.applyAll, List.foldl_cons, List.foldl_nil]
    rw [howner', hone, m'.usernameOwner]
    decide +kernel

end Counted
end SpiritChat
