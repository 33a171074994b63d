import SpiritChat.P2p.Mining
import SpiritChat.Theorems.Origins

/-! # What the miner finds

The candidate obeys every rule but the proof of work, and the search ends with a nonce that obeys that one too. The
block extends the tip that it was assembled on. -/

namespace SpiritChat
open Lib

section
variable [Primitives]

/-! ### The mempool in order -/

theorem Values.empty : Values Table.empty [] where
  keyed := .nil
  mem_iff := by
    intro tx
    rw [Table.empty_apply]
    constructor <;> rintro ⟨⟩

theorem Values.singleton (tx : Transaction) : Values (Table.empty.insert tx.id tx) [tx] where
  keyed := List.nodup_singleton _
  mem_iff := by
    intro tx'
    rw [List.mem_singleton, Table.insert_eq_some]
    constructor
    · rintro rfl
      exact .inl ⟨rfl, rfl⟩
    · rintro (⟨-, h⟩ | ⟨-, h⟩)
      · exact h.symm
      · cases h

/-- No two transactions have the same id, so the sort forgets the order of the map. -/
theorem Values.sorted_eq {mempool : Table Hash32 Transaction} {values values' : List Transaction}
    (h : Values mempool values) (h' : Values mempool values') :
    values'.insertionSort (fun a b => a.id ≤ b.id) = values.insertionSort (fun a b => a.id ≤ b.id) := by
  have htotal : Std.Total fun a b : Transaction => a.id ≤ b.id := ⟨fun a b => Std.Total.total a.id b.id⟩
  have htrans : IsTrans Transaction fun a b => a.id ≤ b.id := ⟨fun a b c => trans_of (fun x y : Hash32 => x ≤ y)⟩
  have hperm : values'.Perm values := (List.perm_ext_iff_of_nodup (.of_map _ h'.keyed) (.of_map _ h.keyed)).mpr
    fun tx => (h'.mem_iff tx).trans (h.mem_iff tx).symm
  have hinj : ∀ a b, a ∈ values'.insertionSort (fun a b => a.id ≤ b.id) →
      b ∈ values.insertionSort (fun a b => a.id ≤ b.id) → a.id ≤ b.id → b.id ≤ a.id → a = b := by
    intro a b ha hb hab hba
    have ha' := hperm.mem_iff.mp ((List.mem_insertionSort _).mp ha)
    have hb' := (List.mem_insertionSort _).mp hb
    exact List.inj_on_of_nodup_map h.keyed ha' hb' (Std.Antisymm.antisymm a.id b.id hab hba)
  exact List.Perm.eq_of_pairwise hinj (List.pairwise_insertionSort _ values') (List.pairwise_insertionSort _ values)
    ((List.perm_insertionSort _ _).trans (hperm.trans (List.perm_insertionSort _ _).symm))

/-! ### The size of a block -/

omit [Primitives] in
theorem BlockHeader.length_canonicalBytes (h : BlockHeader) : h.canonicalBytes.length = 125 := by
  simp only [canonicalBytes, List.length_append, List.length_singleton, length_leBytes, Hash32.length_asBytes,
    Bytes.length_eq]

/-- A signed claim of a well-formed username. -/
theorem Transaction.length_canonicalBytes_le {tx : Transaction} (hv : tx.verifySelfContained = .ok ()) :
    tx.canonicalBytes.length ≤ 204 := by
  obtain ⟨_, hformat, hv⟩ := except_bind_eq_ok.mp hv
  have hname : (utf8 tx.username).length ≤ 32 := by
    simp only [validateUsernameFormat, Exec.guard_eq_ok, not_lt] at hformat
    exact hformat.2.1
  have hsignature : tx.signature.length = 64 := by
    simp only [Exec.guard_eq_ok, except_bind_eq_ok] at hv
    obtain ⟨-, -, _, hs, -⟩ := hv
    unfold signatureArray at hs
    split at hs
    · assumption
    · cases hs
  have htag : claimDomainTag.length = 26 := by decide +kernel
  simp only [canonicalBytes, signingPreimage, List.length_append, length_leBytes, Hash32.length_asBytes,
    Bytes.length_eq, hsignature, htag]
  omega

theorem Block.approxSizeBytes_le {b : Block} (hcount : b.transactions.length ≤ maxTxsPerBlock)
    (hsigned : ∀ tx ∈ b.transactions, tx.verifySelfContained = .ok ()) : b.approxSizeBytes ≤ maxBlockBytes := by
  have hsum : (b.transactions.map fun tx => tx.canonicalBytes.length).sum ≤ b.transactions.length * 204 := by
    have := List.sum_le_card_nsmul (b.transactions.map fun tx => tx.canonicalBytes.length) 204 <| by
      intro n hn
      obtain ⟨tx, htx, rfl⟩ := List.mem_map.mp hn
      exact Transaction.length_canonicalBytes_le (hsigned tx htx)
    simpa using this
  unfold approxSizeBytes
  rw [BlockHeader.length_canonicalBytes]
  simp only [maxTxsPerBlock, maxBlockBytes] at *
  omega

section
variable {F : Type} {s : ChainStore F} {root : Hash32} {height : ℕ}

/-! ### The selection -/

/-- What the loop has selected so far, with the usernames it has seen. -/
structure ChainStore.Selection (s : ChainStore F) (height : ℕ) (selected : List Transaction) (usernames : List String) : Prop where
  count : selected.length ≤ maxTxsPerBlock
  valid : ∀ tx ∈ selected, s.isValidCandidateTransaction tx height = .ok true
  seen : ∀ tx ∈ selected, tx.username ∈ usernames
  distinct : (selected.map (·.username)).Nodup

namespace ChainStore

theorem Selection.nil : s.Selection height [] [] :=
  ⟨Nat.zero_le _, fun _ h => (by cases h), fun _ h => (by cases h), .nil⟩

theorem Selection.see {selected : List Transaction} {usernames : List String} (h : s.Selection height selected usernames)
    (username : String) : s.Selection height selected (username :: usernames) :=
  ⟨h.count, h.valid, fun tx htx => List.mem_cons_of_mem _ (h.seen tx htx), h.distinct⟩

theorem Selection.push {selected : List Transaction} {usernames : List String} {tx : Transaction}
    (h : s.Selection height selected usernames) (hcount : selected.length < maxTxsPerBlock)
    (hnew : tx.username ∉ usernames) (hvalid : s.isValidCandidateTransaction tx height = .ok true) :
    s.Selection height (selected ++ [tx]) (tx.username :: usernames) where
  count := by
    rw [List.length_append, List.length_singleton]
    exact hcount
  valid := by
    intro t ht
    rcases List.mem_append.mp ht with ht | ht
    · exact h.valid t ht
    · rwa [List.mem_singleton.mp ht]
  seen := by
    intro t ht
    rcases List.mem_append.mp ht with ht | ht
    · exact List.mem_cons_of_mem _ (h.seen t ht)
    · rw [List.mem_singleton.mp ht]
      exact List.mem_cons_self
  distinct := by
    rw [List.map_append, List.map_singleton, List.nodup_append]
    refine ⟨h.distinct, List.nodup_singleton _, ?_⟩
    rintro u hu _ hv rfl
    obtain ⟨t, ht, rfl⟩ := List.mem_map.mp hu
    exact hnew (List.mem_singleton.mp hv ▸ h.seen t ht)

theorem Selection.run {candidates selected r : List Transaction} {usernames : List String}
    (h : s.Selection height selected usernames) (hr : s.selectTransactions height candidates selected usernames = .ok r) :
    ∃ usernames', s.Selection height r usernames' := by
  induction candidates generalizing selected usernames with
  | nil =>
    cases hr
    exact ⟨_, h⟩
  | cons tx candidates ih =>
    unfold selectTransactions at hr
    split at hr
    · cases hr
      exact ⟨_, h⟩
    · split at hr
      · exact ih h hr
      · obtain ⟨valid, hvalid, hr⟩ := except_bind_eq_ok.mp hr
        cases valid with
        | false => exact ih (h.see tx.username) hr
        | true => exact ih (h.push (by omega) ‹_› hvalid) hr

end ChainStore

/-- The mempool's check of a claim is the one that a block on top of the tip is put to. -/
theorem Chain.Inv.minable_of_valid [Float64 F] {c : Chain F} {l : List Hash32} {tx : Transaction} (inv : Chain.Inv root c)
    (hl : c.Descends c.tipHash l) (hv : isValidForMempool c tx height = .ok true) :
    tx.verifySelfContained = .ok () ∧
    (∃ a ∈ c.branch l, a.hash = tx.anchorBlockHash ∧ height - a.height ≤ anchorMaxAgeBlocks) ∧
    c.ownersOn l tx.username = none := by
  unfold isValidForMempool at hv
  rw [inv.rooted.ancestors_eq_ok.mpr hl, inv.stateAt_eq hl] at hv
  split at hv
  · cases hv
  next hself =>
  dsimp only at hv
  split at hv
  · cases hv
  next hanchor =>
  split at hv
  · cases hv
  next m hm =>
  split at hv
  · cases hv
  next hage =>
  refine ⟨hself, ⟨_, List.mem_map.mpr ⟨_, not_not.mp hanchor, rfl⟩, ancestorOf_hash _ _, ?_⟩,
    Option.isNone_iff_eq_none.mp (Except.ok.inj hv)⟩
  rw [ancestorOf_eq hm]
  exact not_lt.mp hage

/-! ### The search -/

omit [Primitives] in
theorem toNat_max (a b : UInt64) : (max a b).toNat = max a.toNat b.toNat := by
  show (if a ≤ b then b else a).toNat = _
  split_ifs with h
  · exact (max_eq_right (UInt64.le_iff_toNat_le.mp h)).symm
  · exact (max_eq_left (not_le.mp fun hle => h (UInt64.le_iff_toNat_le.mpr hle)).le).symm

/-- `b` is the candidate with another nonce, and a timestamp last taken from reading `i`. -/
def Block.Retries (candidate : Block) (floor : UInt64) (now : ℕ → UInt64) (i : ℕ) (b : Block) : Prop :=
  (∃ nonce, b = { candidate with header := { candidate.header with nonce, timestamp := max (now i) floor } }) ∧
    (i = 0 ∨ floor.toNat ≤ (now i).toNat)

namespace Block.Retries
variable {candidate b : Block} {floor : UInt64} {now : ℕ → UInt64} {i : ℕ}

omit [Primitives] in
theorem next (h : candidate.Retries floor now i b) :
    candidate.Retries floor now i { b with header := { b.header with nonce := b.header.nonce + 1 } } := by
  obtain ⟨⟨nonce, rfl⟩, hi⟩ := h
  exact ⟨⟨nonce + 1, rfl⟩, hi⟩

omit [Primitives] in
/-- A later reading replaces the timestamp or leaves it. -/
theorem refresh (h : candidate.Retries floor now i b) (check : ℕ) :
    ∃ j, candidate.Retries floor now j
      { b with header := { b.header with timestamp := max b.header.timestamp (now check) } } := by
  obtain ⟨⟨nonce, rfl⟩, hi⟩ := h
  by_cases hle : (now check).toNat ≤ (max (now i) floor).toNat
  · have hkeep : max (max (now i) floor) (now check) = max (now i) floor :=
      UInt64.toNat_inj.mp ((toNat_max _ _).trans (max_eq_left hle))
    exact ⟨i, ⟨nonce, by simp only [hkeep]⟩, hi⟩
  · have hfloor : floor.toNat ≤ (now check).toNat := by
      rw [toNat_max] at hle
      omega
    have hnew : max (max (now i) floor) (now check) = max (now check) floor := by
      refine UInt64.toNat_inj.mp ((toNat_max _ _).trans ?_)
      rw [toNat_max (now check), max_eq_right (not_le.mp hle).le, max_eq_left hfloor]
    exact ⟨check, ⟨nonce, by simp only [hnew]⟩, .inr hfloor⟩

end Block.Retries

theorem mineFrom_retries {candidate b found : Block} {floor : UInt64} {target : Hash32} {stop : ℕ → Bool}
    {now : ℕ → UInt64} {fuel attempts i : ℕ} (h : candidate.Retries floor now i b)
    (hfound : mineFrom target stop now fuel attempts b = some found) :
    found.hash.meetsTarget target = true ∧ ∃ j, candidate.Retries floor now j found := by
  induction fuel generalizing attempts b i with
  | zero => cases hfound
  | succ fuel ih =>
    unfold mineFrom at hfound
    split at hfound
    · cases hfound
      exact ⟨‹_›, i, h⟩
    · dsimp only at hfound
      split at hfound
      · exact ih h.next hfound
      · split at hfound
        · cases hfound
        · obtain ⟨j, hj⟩ := h.next.refresh ((attempts + 1) / checkInterval)
          exact ih hj hfound

/-! ### The block found -/

omit [Primitives] in
theorem settled_eq_ok_some {α : Type} {x : Ledger α} {a : α} : settled x = .ok (some a) ↔ x = .ok a := by
  rcases x with (_ | _ | _) | _ <;> simp [settled]

variable [Float64 F] {blocks : Block → Prop} {values : List Transaction} {publicKey : Bytes 32} {b found : Block}

namespace ChainStore

/-- What a candidate is made of. -/
structure Assembled (s : ChainStore F) (now : UInt64) (m height : ℕ) (b : Block) : Prop where
  target : s.expectedDifficulty = .ok b.header.difficultyTarget
  medianTimePast : s.medianTimePast = .ok m
  tipHeight : s.chain.tipHeight = .ok height
  selection : ∃ usernames, s.Selection (height + 1) b.transactions usernames
  header : b.header.height = UInt64.ofNat (height + 1) ∧ b.header.prevHash = s.chain.tipHash ∧
    b.header.txCommitment = Block.computeTxCommitment b.transactions
  timestamp : b.header.timestamp = max now (UInt64.ofNat (m + 1))

theorem assembled_of_candidate {now : UInt64} (h : s.candidate values publicKey now = .ok (some b)) :
    ∃ m height, s.Assembled now m height b := by
  obtain ⟨target?, htarget, h⟩ := except_bind_eq_ok.mp h
  obtain ⟨m?, hm, h⟩ := except_bind_eq_ok.mp h
  cases target? with
  | none => cases h
  | some target =>
    cases m? with
    | none => cases h
    | some m =>
      obtain ⟨height, hheight, h⟩ := except_bind_eq_ok.mp h
      obtain ⟨selected, hselected, h⟩ := except_bind_eq_ok.mp h
      cases h
      exact ⟨m, height, settled_eq_ok_some.mp htarget, settled_eq_ok_some.mp hm, hheight,
        Selection.nil.run hselected, ⟨rfl, rfl, rfl⟩, rfl⟩

/-- The rules admit what the search finds, from the reading that its timestamp was taken from on. -/
theorem Assembled.admits {l : List Hash32} {now : ℕ → UInt64} {m i clock : ℕ} (a : s.Assembled (now 0) m height b)
    (inv : Chain.Inv root s.chain) (hl : s.chain.Descends s.chain.tipHash l) (hheight : height + 1 < 2 ^ 64)
    (hm : m < (now 0).toNat + maxFutureDriftSecs) (hrange : m + 1 < 2 ^ 64)
    (hretries : b.Retries (UInt64.ofNat (m + 1)) now i found)
    (hmeets : found.hash.meetsTarget (expandTarget b.header.difficultyTarget) = true) (hclock : (now i).toNat ≤ clock) :
    Rules.Admits F (s.chain.branch l) (s.chain.ownersOn l) (s.chain.ancestorOf s.chain.tipHash) found clock := by
  obtain ⟨tm, htm⟩ := Option.isSome_iff_exists.mp (inv.known hl _ hl.mem_self)
  obtain ⟨usernames, hsel⟩ := a.selection
  have hminable : ∀ tx ∈ b.transactions, _ := fun tx htx => inv.minable_of_valid hl (hsel.valid tx htx)
  have hfloor : (UInt64.ofNat (m + 1)).toNat = m + 1 := UInt64.toNat_ofNat_of_lt' hrange
  have hhead : (UInt64.ofNat (height + 1)).toNat = height + 1 := UInt64.toNat_ofNat_of_lt' hheight
  have htip : tm.height = height := by
    have := a.tipHeight
    simp only [Chain.tipHeight, htm, Exec.expect_some, Exec.ok_bind] at this
    exact Except.ok.inj this
  have hmedian : Rules.median ((s.chain.branch l).map (·.timestamp)) = some m := by
    have : s.chain.medianTimePast s.chain.tipHash = .ok m := a.medianTimePast
    rwa [inv.rooted.medianTimePast_eq hl, Exec.expect_eq_ok] at this
  obtain ⟨⟨nonce, rfl⟩, hi⟩ := hretries
  obtain ⟨hh, hprev, hcommit⟩ := a.header
  refine
    { sound := ⟨hsel.count, Block.approxSizeBytes_le hsel.count fun tx htx => (hminable tx htx).1, hcommit,
        fun tx htx => (hminable tx htx).1, hsel.distinct⟩
      height := ?_
      target := (inv.rooted.expectedDifficulty_eq_ok hl).mp a.target
      work := hmeets
      past := ⟨m, hmedian, ?_⟩
      drift := ?_
      anchored := fun tx htx => ?_
      unclaimed := fun tx htx => (hminable tx htx).2.2 }
  · rw [Chain.ancestorOf_eq htm]
    show b.header.height.toNat = tm.height + 1
    rw [hh, hhead, htip]
  · show m < (max (now i) (UInt64.ofNat (m + 1))).toNat
    rw [toNat_max, hfloor]
    exact lt_of_lt_of_le (Nat.lt_succ_self m) (le_max_right _ _)
  · show (max (now i) (UInt64.ofNat (m + 1))).toNat ≤ clock + maxFutureDriftSecs
    rw [toNat_max, hfloor]
    -- Either the first reading is at most two hours behind the median, or a later one is past it.
    rcases hi with rfl | hi
    · omega
    · omega
  · show ∃ x ∈ s.chain.branch l, x.hash = tx.anchorBlockHash ∧ b.header.height.toNat - x.height ≤ anchorMaxAgeBlocks
    rw [hh, hhead]
    exact (hminable tx htx).2.1

/-- A new block that outweighs its parent becomes the tip when its parent was. -/
theorem tryApply_of_extends {clock : ℕ} (inv : Chain.Inv root s.chain) (pos : ∀ (w : F) t, w < w + workOf t)
    (hz : b.hash ≠ .zero) (hnew : s.chain.metas b.hash = none) (hprev : b.header.prevHash = s.chain.tipHash)
    (hv : validateBlock s.chain b clock = .ok ()) :
    (∀ commit, (s.tryApply b clock commit).1.chain.tipHash = b.hash) ∧ (s.tryApply b clock (.ok ())).2 = .ok .extendedTip := by
  have hstep : ∃ c', s.chain.tryApply b clock = (c', .ok .extendedTip) ∧ c'.tipHash = b.hash ∧
      ∃ m, c'.metas b.hash = some m := by
    have happ := inv.tryApply_applied hz clock
    generalize hr : s.chain.tryApply b clock = r at happ
    obtain ⟨c', o⟩ := r
    cases happ with
    | known hk =>
      rw [hnew] at hk
      cases hk
    | rejected _ he =>
      rw [hv] at he
      cases he
    | @fork pm l w a hw hle =>
      obtain ⟨tm, htm, rfl⟩ := hw
      have hpm := a.parent
      rw [hprev, htm] at hpm
      obtain rfl := Option.some.inj hpm
      exact absurd hle (not_le.mpr (pos _ _))
    | @tip pm l w a =>
      rw [if_pos hprev]
      exact ⟨_, rfl, rfl, _, Table.insert_self⟩
  obtain ⟨c', hc', htip, m, hm⟩ := hstep
  have inv' : Chain.Inv root c' := by
    have := inv.tryApply hz clock
    rwa [hc'] at this
  obtain ⟨l, hl, -, -⟩ := inv'.tip
  have hpersist := persistAfterApply_eq (s := { s with chain := c' }) inv' hm hl
  constructor
  · rintro (_ | _) <;> simp only [tryApply, hc', hpersist, Disk.commit] <;> exact htip
  · simp only [tryApply, hc', hpersist, Disk.commit]

end ChainStore

/-- What a node mines it accepts: the block found is valid and extends the tip of the store it was assembled on, for
every clock from the reading that its timestamp was taken from on. What is mined does not depend on the order in which
the map gives the mempool. -/
theorem found_extends_tip (s : ChainStore F) (mempool : Table Hash32 Transaction) (values : List Transaction)
    (hvalues : Values mempool values) :
    (∀ values', Values mempool values' → ∀ publicKey now,
      s.candidate values' publicKey now = s.candidate values publicKey now) ∧
    ∀ (blocks : Block → Prop) (publicKey : Bytes 32) (stop : ℕ → Bool) (now : ℕ → UInt64) (fuel m height : ℕ) (found : Block),
      s.Used blocks → (CollisionFree fun b => blocks b ∨ b = found) → (∀ (w : F) t, w < w + workOf t) →
      s.medianTimePast = .ok m → m < (now 0).toNat + maxFutureDriftSecs → (now 0).toNat + maxFutureDriftSecs < 2 ^ 64 →
      s.chain.tipHeight = .ok height → height + 1 < 2 ^ 64 →
      spawnMiningAttempt s values publicKey stop now fuel = .ok (some found) →
      ∃ i, found.header.timestamp.toNat = max (now i).toNat (m + 1) ∧ ∀ clock, (now i).toNat ≤ clock →
        validateBlock s.chain found clock = .ok () ∧ found.header.prevHash = s.chain.tipHash ∧
        (∀ commit, (s.tryApply found clock commit).1.chain.tipHash = found.hash) ∧
        (s.tryApply found clock (.ok ())).2 = .ok .extendedTip := by
  refine ⟨fun values' hvalues' publicKey now => ?_, ?_⟩
  · simp only [ChainStore.candidate, hvalues.sorted_eq hvalues']
  · intro blocks publicKey stop now fuel m height found hs cf pos hm hclock hrange hheight hlt hfound
    have hnz : ∀ b, b = .genesis ∨ blocks b → b.hash ≠ .zero := fun b hb => cf.nonzero b (hb.imp_right .inl)
    obtain ⟨src, -⟩ := hs.sourced hnz
    obtain ⟨root, inv, -⟩ := src.inv
    obtain ⟨l, hl, -, -⟩ := inv.tip
    -- The attempt had a candidate, and the search ended with it.
    obtain ⟨candidate?, hcandidate, hfound⟩ := except_bind_eq_ok.mp hfound
    cases candidate? with
    | none => cases hfound
    | some candidate =>
      have hmine : mine candidate stop now fuel = some found := Except.ok.inj hfound
      obtain ⟨m', height', a⟩ := ChainStore.assembled_of_candidate hcandidate
      obtain rfl := Except.ok.inj (hm.symm.trans a.medianTimePast)
      obtain rfl := Except.ok.inj (hheight.symm.trans a.tipHeight)
      have hstart : candidate.Retries (UInt64.ofNat (m + 1)) now 0 candidate :=
        ⟨⟨candidate.header.nonce, by rw [← a.timestamp]⟩, .inl rfl⟩
      obtain ⟨hmeets, i, hretries⟩ := mineFrom_retries hstart hmine
      have hm64 : m + 1 < 2 ^ 64 := by omega
      have hfloor : (UInt64.ofNat (m + 1)).toNat = m + 1 := UInt64.toNat_ofNat_of_lt' hm64
      have hkept : found.header.prevHash = s.chain.tipHash ∧ found.header.height.toNat = height + 1 ∧
          found.header.timestamp.toNat = max (now i).toNat (m + 1) := by
        obtain ⟨⟨nonce, rfl⟩, -⟩ := hretries
        refine ⟨a.header.2.1, ?_, (toNat_max _ _).trans (by rw [hfloor])⟩
        show candidate.header.height.toNat = _
        rw [a.header.1, UInt64.toNat_ofNat_of_lt' hlt]
      obtain ⟨hprev, hhead, htime⟩ := hkept
      refine ⟨i, htime, fun clock hle => ?_⟩
      have hadmits := a.admits inv hl hlt hclock hm64 hretries hmeets hle
      rw [← hprev] at hadmits hl
      have hv := (inv.rooted.validateBlock_eq_ok hl (inv.bodies_of_descends hl)).mpr hadmits
      have hnew := src.new_of_extends cf pos hprev hheight hhead
      exact ⟨hv, hprev, ChainStore.tryApply_of_extends inv pos (cf.nonzero _ (.inr (.inr rfl))) hnew hprev hv⟩

end
end

/-- Over exact numbers every block adds work. -/
theorem workOf_pos (t : CompactTarget) : (0 : ℚ) < workOf t := by
  unfold workOf
  dsimp only
  split_ifs with h
  · decide +kernel
  · refine div_pos (by decide +kernel) (add_pos (not_le.mp h) ?_)
    decide +kernel

section
attribute [local instance] signed

/-- A child of genesis with a claim. Its hash is small enough with the first nonce, by the choice of the miner's key. -/
def luckyBlock : Block :=
  { claimBlock with header := { claimBlock.header with nonce := 0, minerPublicKey := ⟨List.replicate 30 0 ++ [0x9a, 0xac], rfl⟩ } }

theorem found_extends_tip_lucky :
    ∃ i, luckyBlock.header.timestamp.toNat = max ((fun _ => 1750000302 : ℕ → UInt64) i).toNat (1750000000 + 1) ∧
      ∀ clock, ((fun _ => 1750000302 : ℕ → UInt64) i).toNat ≤ clock →
        validateBlock (ChainStore.opened ℚ).chain luckyBlock clock = .ok () ∧
        luckyBlock.header.prevHash = (ChainStore.opened ℚ).chain.tipHash ∧
        (∀ commit, ((ChainStore.opened ℚ).tryApply luckyBlock clock commit).1.chain.tipHash = luckyBlock.hash) ∧
        ((ChainStore.opened ℚ).tryApply luckyBlock clock (.ok ())).2 = .ok .extendedTip := by
  have hz : Block.genesis.hash ≠ .zero := by decide +kernel
  have hs : (ChainStore.opened ℚ).Used fun _ => False := .opened ((ChainStore.openAt_empty hz).mpr ⟨rfl, rfl, rfl⟩)
  have cf : CollisionFree (· ∈ [luckyBlock]) := collisionFree_of_hashed (by decide +kernel) (by decide +kernel)
  have hfound : spawnMiningAttempt (ChainStore.opened ℚ) [aliceClaim] luckyBlock.header.minerPublicKey (fun _ => false)
      (fun _ => 1750000302) 1 = .ok (some luckyBlock) := by decide +kernel
  exact (found_extends_tip (ChainStore.opened ℚ) _ [aliceClaim] (.singleton aliceClaim)).2 (fun _ => False)
    luckyBlock.header.minerPublicKey (fun _ => false) (fun _ => 1750000302) 1 1750000000 0 luckyBlock hs
    (cf.mono fun b hb => by simpa using hb) (fun w t => lt_add_of_pos_right w (workOf_pos t)) (by decide +kernel)
    (by decide) (by decide) (by decide +kernel) (by decide) hfound

end
end SpiritChat
