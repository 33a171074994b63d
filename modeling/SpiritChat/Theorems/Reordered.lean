import SpiritChat.Theorems.Reachable

/-! # The order of transactions

Blocks that have the same header and the same transactions in another order have the same commitment, are accepted alike
and replay to the same owners. So chains that were given such blocks stay alike, whatever they are given next. -/

namespace SpiritChat
open Lib

namespace Block

/-- The same header, and the same transactions in some order. -/
structure Reordered (b b' : Block) : Prop where
  header : b'.header = b.header
  transactions : b'.transactions.Perm b.transactions

theorem Reordered.refl (b : Block) : b.Reordered b := ⟨rfl, .refl _⟩

variable {b b' : Block}

theorem Reordered.approxSizeBytes (r : b.Reordered b') : b'.approxSizeBytes = b.approxSizeBytes := by
  unfold Block.approxSizeBytes
  rw [r.header, (r.transactions.map _).sum_eq]

variable [Primitives]

theorem Reordered.hash (r : b.Reordered b') : b'.hash = b.hash := by
  unfold Block.hash
  rw [r.header]

/-- The ids are sorted before they are hashed. -/
theorem computeTxCommitment_perm {txs txs' : List Transaction} (h : txs'.Perm txs) :
    computeTxCommitment txs' = computeTxCommitment txs := by
  have hsorted : (txs'.map Transaction.id).insertionSort (· ≤ ·) = (txs.map Transaction.id).insertionSort (· ≤ ·) := by
    refine List.Perm.eq_of_pairwise (fun _ _ _ _ => antisymm) (List.pairwise_insertionSort _ _) (List.pairwise_insertionSort _ _) ?_
    exact (List.perm_insertionSort _ _).trans ((h.map _).trans (List.perm_insertionSort _ _).symm)
  unfold computeTxCommitment commitmentPreimage
  rw [hsorted]

/-- Bodies that replay to the same owners. -/
def SameClaims (b b' : Block) : Prop := b = b' ∨ b.Reordered b' ∧ (b.transactions.map (·.username)).Nodup

omit [Primitives] in
theorem SameClaims.header (s : b.SameClaims b') : b'.header = b.header := by
  rcases s with rfl | ⟨r, -⟩
  · rfl
  · exact r.header

omit [Primitives] in
theorem SameClaims.insertAll (s : b.SameClaims b') (state : Owners) (hash : Hash32) :
    state.insertAll (b'.claims hash) = state.insertAll (b.claims hash) := by
  rcases s with rfl | ⟨r, hnodup⟩
  · rfl
  · refine (Table.insertAll_perm ?_ ?_).symm
    · unfold claims
      rw [r.header]
      exact (r.transactions.map _).symm
    · simpa [claims, Function.comp_def] using hnodup

end Block

namespace Chain
variable {F : Type} {c c' : Chain F} {h : Hash32}

/-- The same but for the order of the transactions in the bodies. -/
structure Shuffled (c c' : Chain F) : Prop where
  fields : c' = { c with blocks := c'.blocks }
  blocks : ∀ h, Option.Rel Block.SameClaims (c.blocks h) (c'.blocks h)

theorem Shuffled.refl (c : Chain F) : c.Shuffled c where
  fields := rfl
  blocks := by
    intro h
    cases c.blocks h with
    | none => exact .none
    | some b => exact .some (.inl rfl)

section
variable {blocks : Table Hash32 Block}

theorem climb_withBlocks (fuel : ℕ) (path : List Hash32) :
    ({ c with blocks } : Chain F).climb fuel h path = c.climb fuel h path := by
  induction fuel generalizing h path with
  | zero => rfl
  | succ fuel ih =>
    unfold climb
    cases c.metas h with
    | none => rfl
    | some m =>
      dsimp only
      rw [ih]

theorem ancestors_withBlocks : ({ c with blocks } : Chain F).ancestors h = c.ancestors h := climb_withBlocks _ _

theorem timestamps_withBlocks (path : List Hash32) : ({ c with blocks } : Chain F).timestamps path = c.timestamps path := by
  induction path with
  | nil => rfl
  | cons a path ih =>
    unfold timestamps
    rw [ih]

theorem medianTimePast_withBlocks : ({ c with blocks } : Chain F).medianTimePast h = c.medianTimePast h := by
  unfold medianTimePast
  simp only [ancestors_withBlocks, timestamps_withBlocks]

theorem expectedDifficulty_withBlocks [Float64 F] : ({ c with blocks } : Chain F).expectedDifficulty h = c.expectedDifficulty h := by
  unfold expectedDifficulty
  simp only [ancestors_withBlocks]

end

namespace Shuffled

theorem replayStep (s : c.Shuffled c') : c'.replayStep = c.replayStep := by
  funext state h
  have hbody := s.blocks h
  rw [s.fields]
  unfold Chain.replayStep
  dsimp only
  revert hbody
  generalize c.blocks h = x
  generalize c'.blocks h = x'
  rintro (hb | _)
  · simp only [Exec.ofOption_some, Exec.ok_bind, hb.insertAll]
  · rfl

theorem stateAt (s : c.Shuffled c') (h : Hash32) : c'.stateAt h = c.stateAt h := by
  unfold Chain.stateAt
  rw [s.replayStep, s.fields, ancestors_withBlocks]

theorem exists_withBlocks (s : c.Shuffled c') : ∃ blocks, c' = { c with blocks } := ⟨_, s.fields⟩

theorem metas (s : c.Shuffled c') : c'.metas = c.metas := by rw [s.fields]

end Shuffled

/-! ### Validation -/

section
variable [Primitives] {b b' : Block} {now : ℕ}

theorem validateTransactions_reordered (s : c.Shuffled c') (r : b.Reordered b') :
    validateTransactions c' b' = .ok () ↔ validateTransactions c b = .ok () := by
  by_cases hnil : b.transactions = []
  · have hnil' : b'.transactions = [] := (hnil ▸ r.transactions).eq_nil
    simp [validateTransactions, hnil, hnil']
  · have hnil' : b'.transactions ≠ [] := fun h => hnil (h ▸ r.transactions).symm.eq_nil
    have hstate := s.stateAt b.header.prevHash
    have hancestors : c'.ancestors b.header.prevHash = c.ancestors b.header.prevHash := by
      rw [s.fields, ancestors_withBlocks]
    rcases hs : c.stateAt b.header.prevHash with e | owners
    · simp [validateTransactions, hnil, hnil', r.header, hstate, hs]
    · rcases ha : c.ancestors b.header.prevHash with e | ancestry
      · simp [validateTransactions, hnil, hnil', r.header, hstate, hs, hancestors, ha]
      · rw [validateTransactions_eq_ok hs ha,
          validateTransactions_eq_ok (by rw [r.header, hstate, hs]) (by rw [r.header, hancestors, ha])]
        have hok : ∀ tx, c'.TransactionOk b' owners ancestry tx ↔ c.TransactionOk b owners ancestry tx := by
          intro tx
          unfold TransactionOk
          rw [s.metas, r.header]
        simp only [hok, r.transactions.mem_iff, (r.transactions.map (·.username)).nodup_iff]

/-- A block that validates has distinct usernames. -/
theorem nodup_of_validateBlock [Float64 F] (hv : validateBlock c b now = .ok ()) :
    (b.transactions.map (·.username)).Nodup := by
  unfold validateBlock at hv
  simp only [Exec.guard_eq_ok, except_bind_eq_ok] at hv
  obtain ⟨-, -, -, _, -, -, _, -, -, -, _, -, -, -, htxs⟩ := hv
  by_cases hnil : b.transactions = []
  · simp [hnil]
  · unfold validateTransactions at htxs
    rw [if_neg hnil] at htxs
    obtain ⟨owners, hs, htxs⟩ := except_bind_eq_ok.mp htxs
    obtain ⟨ancestry, ha, htxs⟩ := except_bind_eq_ok.mp htxs
    obtain ⟨claimed, hloop, -⟩ := except_bind_eq_ok.mp htxs
    exact ((foldlM_validateTransaction _ _).mp ⟨claimed, hloop⟩).2

variable [Float64 F]

theorem validateBlock_reordered (s : c.Shuffled c') (r : b.Reordered b') :
    validateBlock c' b' now = .ok () ↔ validateBlock c b now = .ok () := by
  have htxs := validateTransactions_reordered s r
  have hdifficulty : c'.expectedDifficulty b.header.prevHash = c.expectedDifficulty b.header.prevHash := by
    rw [s.fields, expectedDifficulty_withBlocks]
  have hmedian : c'.medianTimePast b.header.prevHash = c.medianTimePast b.header.prevHash := by
    rw [s.fields, medianTimePast_withBlocks]
  unfold validateBlock
  simp only [r.transactions.length_eq, r.approxSizeBytes, Block.computeTxCommitment_perm r.transactions, r.hash, r.header,
    s.metas, hdifficulty, hmedian, Exec.guard_eq_ok, except_bind_eq_ok, htxs]

end

/-! ### Accepting and pruning -/

namespace Shuffled

/-- The index plays no part in it. -/
theorem withIndex (s : c.Shuffled c') (index : Table ℕ Hash32) :
    ({ c with canonicalIndex := index } : Chain F).Shuffled { c' with canonicalIndex := index } where
  fields := by rw [s.fields]
  blocks := s.blocks

theorem setCanonicalTip (s : c.Shuffled c') (h : Hash32) :
    (c.setCanonicalTip h).1.Shuffled (c'.setCanonicalTip h).1 ∧ (c'.setCanonicalTip h).2 = (c.setCanonicalTip h).2 := by
  obtain ⟨blocks, rfl⟩ := s.exists_withBlocks
  have hancestors : ({ c with blocks } : Chain F).ancestors h = c.ancestors h := ancestors_withBlocks
  unfold Chain.setCanonicalTip
  rw [hancestors]
  cases c.ancestors h with
  | error e => exact ⟨s, rfl⟩
  | ok ancestry =>
    have s' := s.withIndex (Table.empty.insertAll (indexEntries c.floorHeight ancestry))
    have hstate := s'.stateAt h
    dsimp only at hstate ⊢
    rw [hstate]
    cases Chain.stateAt { c with canonicalIndex := Table.empty.insertAll (indexEntries c.floorHeight ancestry) } h with
    | error e => exact ⟨s', rfl⟩
    | ok owners => exact ⟨⟨rfl, s.blocks⟩, rfl⟩

theorem store (s : c.Shuffled c') {b b' : Block} (hb : b.SameClaims b') (h : Hash32) (m : BlockMeta F) :
    (c.store h m b).Shuffled (c'.store h m b') where
  fields := by
    unfold Chain.store
    rw [s.fields]
  blocks := by
    intro k
    by_cases hk : k = h
    · subst hk
      simpa [Chain.store] using Option.Rel.some hb
    · simpa [Chain.store, Table.insert_of_ne hk] using s.blocks k

section
variable [Float64 F] [Primitives] {b b' : Block}

theorem chooseTip (s : c.Shuffled c') (r : b.Reordered b') (m : BlockMeta F) :
    (c.chooseTip b m).1.Shuffled (c'.chooseTip b' m).1 ∧ (c'.chooseTip b' m).2 = (c.chooseTip b m).2 := by
  have htip : c'.tipHash = c.tipHash := by rw [s.fields]
  obtain ⟨hchain, hresult⟩ := s.setCanonicalTip b.hash
  unfold Chain.chooseTip
  rw [s.metas, htip, r.hash, r.header]
  cases c.metas c.tipHash with
  | none => exact ⟨s, rfl⟩
  | some tipMeta =>
    dsimp only
    by_cases hw : m.cumulativeWork ≤ tipMeta.cumulativeWork
    · rw [if_pos hw, if_pos hw]
      exact ⟨s, rfl⟩
    · rw [if_neg hw, if_neg hw]
      revert hchain hresult
      generalize c.setCanonicalTip b.hash = x
      generalize c'.setCanonicalTip b.hash = x'
      obtain ⟨d, result⟩ := x
      obtain ⟨d', result'⟩ := x'
      rintro hchain hresult
      dsimp only at hchain hresult
      subst hresult
      cases result' with
      | error e => exact ⟨hchain, rfl⟩
      | ok u => exact ⟨hchain, rfl⟩

/-- A block in another order is accepted alike. -/
theorem tryApply (s : c.Shuffled c') (r : b.Reordered b') (now : ℕ) :
    (c.tryApply b now).1.Shuffled (c'.tryApply b' now).1 ∧
      ∀ o, (c'.tryApply b' now).2 = .ok o ↔ (c.tryApply b now).2 = .ok o := by
  have hvalid : validateBlock c' b' now = .ok () ↔ validateBlock c b now = .ok () := validateBlock_reordered s r
  unfold Chain.tryApply
  rw [s.metas, r.hash, r.header]
  split_ifs with hk
  · exact ⟨s, fun o => Iff.rfl⟩
  · rcases hv : validateBlock c b now with e | u
    · rcases hv' : validateBlock c' b' now with e' | u'
      · exact ⟨s, fun o => by simp⟩
      · rw [hv', hv] at hvalid
        simp at hvalid
    · rcases hv' : validateBlock c' b' now with e' | u'
      · rw [hv', hv] at hvalid
        simp at hvalid
      · dsimp only
        cases c.metas b.header.prevHash with
        | none => exact ⟨s, fun o => Iff.rfl⟩
        | some parentMeta =>
          have hb : b.SameClaims b' := .inr ⟨r, nodup_of_validateBlock hv⟩
          have hchoice := (s.store hb b.hash (childMeta parentMeta b)).chooseTip r (childMeta parentMeta b)
          have hmeta : childMeta parentMeta b' = childMeta parentMeta b := by
            unfold childMeta
            rw [r.header]
          dsimp only
          rw [hmeta]
          exact ⟨hchoice.1, fun o => by rw [hchoice.2]⟩

end

theorem pruneBodiesUpTo (s : c.Shuffled c') (height : ℕ) :
    (c.pruneBodiesUpTo height).1.Shuffled (c'.pruneBodiesUpTo height).1 := by
  have hstate := s.stateAt
  have hbodies := s.blocks
  obtain ⟨blocks, rfl⟩ := s.exists_withBlocks
  unfold Chain.pruneBodiesUpTo
  dsimp only at hbodies ⊢
  split_ifs with hlow
  · exact s
  · cases c.canonicalIndex height with
    | none => exact s
    | some newFloorHash =>
      dsimp only
      rw [hstate newFloorHash]
      cases c.stateAt newFloorHash with
      | error e => exact s
      | ok newFloorState =>
        refine ⟨rfl, fun h => ?_⟩
        have hbody := hbodies h
        simp only [Table.retain]
        revert hbody
        generalize c.blocks h = x
        generalize blocks h = x'
        rintro (hb | _)
        · -- Bodies in another order have the same height, so they are kept or dropped together.
          simp only [Option.filter_some, hb.header]
          split_ifs
          · exact .some hb
          · exact .none
        · exact .none

end Shuffled

/-! ### Whole runs -/

variable [Float64 F] [Primitives]

/-- What a chain can be given. -/
inductive Call where
  | tryApply (b : Block) (now : ℕ)
  | prune (height : ℕ)

def call (c : Chain F) : Call → Chain F
  | .tryApply b now => (c.tryApply b now).1
  | .prune height => (c.pruneBodiesUpTo height).1

theorem Shuffled.calls (s : c.Shuffled c') (later : List Call) : (later.foldl call c).Shuffled (later.foldl call c') := by
  induction later generalizing c c' with
  | nil => exact s
  | cons a later ih =>
    refine ih ?_
    cases a with
    | tryApply b now => exact (s.tryApply (.refl b) now).1
    | prune height => exact s.pruneBodiesUpTo height

omit [Float64 F] [Primitives] in
theorem Shuffled.usernameOwner (s : c.Shuffled c') : c'.usernameOwner = c.usernameOwner := by rw [s.fields]

/-- A block whose transactions come in another order has the same hash and commitment and is accepted alike, and the owners
are the same, at the tip, at every block and after whatever comes later. -/
theorem tryApply_reordered (c : Chain F) {b b' : Block} (r : b.Reordered b') (now : ℕ) :
    b'.hash = b.hash ∧ Block.computeTxCommitment b'.transactions = Block.computeTxCommitment b.transactions ∧
      (∀ o, (c.tryApply b' now).2 = .ok o ↔ (c.tryApply b now).2 = .ok o) ∧
      (∀ h, (c.tryApply b' now).1.stateAt h = (c.tryApply b now).1.stateAt h) ∧
      ∀ later : List Call, (later.foldl call (c.tryApply b' now).1).usernameOwner = (later.foldl call (c.tryApply b now).1).usernameOwner := by
  obtain ⟨hchain, hresult⟩ := (Shuffled.refl c).tryApply r now
  exact ⟨r.hash, Block.computeTxCommitment_perm r.transactions, hresult, hchain.stateAt, fun later =>
    (hchain.calls later).usernameOwner⟩

end Chain

section
attribute [local instance] signed

def bobKey : Bytes 32 := ⟨[0x81, 0x39, 0x77, 0x0e, 0xa8, 0x7d, 0x17, 0x5f, 0x56, 0xa3, 0x54, 0x66, 0xc3, 0x4c, 0x7e,
  0xcc, 0xcb, 0x8d, 0x8a, 0x91, 0xb4, 0xee, 0x37, 0xa2, 0x5d, 0xf6, 0x0f, 0x5b, 0x8f, 0xc9, 0xb3, 0x94], rfl⟩

/-- Another claim anchored at genesis, signed like Alice's. -/
def bobClaim : Transaction where
  version := 1
  username := "bobby"
  ownerPublicKey := bobKey
  claimedAtHeightHint := 1
  anchorBlockHash := Block.genesis.hash
  nonce := .replicate 8 0
  signature := [0x4e, 0xac, 0x54, 0x11, 0xd2, 0xfb, 0x6f, 0x8c, 0x34, 0x93, 0xf1, 0xd0, 0xa6, 0x52, 0x69, 0x87, 0xb5,
    0x30, 0x41, 0x35, 0xe6, 0x18, 0x1e, 0x1c, 0x60, 0xca, 0x91, 0xa1, 0x3a, 0xe8, 0x2e, 0x25, 0x76, 0x4a, 0x8e, 0xf2,
    0x27, 0xaf, 0x2e, 0xef, 0x37, 0xe7, 0x1c, 0x25, 0x99, 0x31, 0xca, 0xdd, 0xa1, 0x5a, 0x9d, 0x27, 0x87, 0x86, 0x75,
    0xed, 0x97, 0x41, 0x59, 0x8c, 0xb0, 0xe2, 0x06, 0x08]

/-- A mined child of genesis with both claims. -/
def twoClaims (first second : Transaction) : Block where
  header :=
    { version := 1, height := 1, prevHash := Block.genesis.hash, timestamp := 1750000303
      txCommitment := Block.computeTxCommitment [aliceClaim, bobClaim], difficultyTarget := initialDifficultyBits
      nonce := 41221, minerPublicKey := .replicate 32 0 }
  transactions := [first, second]

theorem tryApply_reordered_two :
    ((Chain.new : Chain ℚ).tryApply (twoClaims bobClaim aliceClaim) minedAt).2 = .ok .extendedTip ∧
      (((Chain.new : Chain ℚ).tryApply (twoClaims bobClaim aliceClaim) minedAt).1.usernameOwner "alice").map
        (·.ownerPublicKey) = some aliceKey := by
  have r : (twoClaims aliceClaim bobClaim).Reordered (twoClaims bobClaim aliceClaim) := ⟨rfl, .swap _ _ []⟩
  obtain ⟨htaken, howner⟩ : ((Chain.new : Chain ℚ).tryApply (twoClaims aliceClaim bobClaim) minedAt).2 = .ok .extendedTip ∧
      (((Chain.new : Chain ℚ).tryApply (twoClaims aliceClaim bobClaim) minedAt).1.usernameOwner "alice").map
        (·.ownerPublicKey) = some aliceKey := by decide +kernel
  obtain ⟨-, -, hresult, -, hlater⟩ := Chain.tryApply_reordered (Chain.new : Chain ℚ) r minedAt
  have hsame := hlater []
  rw [List.foldl_nil, List.foldl_nil] at hsame
  refine ⟨(hresult _).mpr htaken, ?_⟩
  rw [hsame]
  exact howner

end
end SpiritChat
