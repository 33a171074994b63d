import SpiritChat.Lib.Firsts
import SpiritChat.Theorems.Mined
import SpiritChat.Theorems.Mempool

/-! # Claims in each other's way

Two claims meet in the mempool under one id, if their bytes are the same, and in a candidate under one username, of
which the candidate looks at the first claim only. -/

namespace SpiritChat
open Lib

section
variable [Primitives]

/-! ### One id -/

/-- The version is not among the bytes, so two versions of a claim have one id. Any other difference shows. -/
theorem canonicalBytes_ne_iff {tx : Transaction} (hv : tx.verifySelfContained = .ok ()) (tx' : Transaction) :
    (tx.canonicalBytes ≠ tx'.canonicalBytes ↔ tx ≠ { tx' with version := tx.version }) ∧
      ((Hash32.of tx.canonicalBytes = Hash32.of tx'.canonicalBytes → tx.canonicalBytes = tx'.canonicalBytes) →
        (tx.id ≠ tx'.id ↔ tx ≠ { tx' with version := tx.version })) := by
  have hlen : tx.canonicalBytes.length ≤ maxBlockBytes := (tx.length_canonicalBytes_le hv).trans (by decide)
  have hbytes : tx.canonicalBytes = tx'.canonicalBytes ↔ tx = { tx' with version := tx.version } :=
    ⟨Transaction.canonicalBytes_inj hlen, fun h => by rw [h]; rfl⟩
  refine ⟨not_congr hbytes, fun hash => not_congr (Iff.trans ⟨hash, fun h => ?_⟩ hbytes)⟩
  show Hash32.of _ = Hash32.of _
  rw [h]

/-! ### One username -/

variable {F : Type} {s : ChainStore F} {height : ℕ} {mempool : Table Hash32 Transaction} {values : List Transaction}

/-- No claim in the mempool for the same username has a smaller id. -/
def Leads (mempool : Table Hash32 Transaction) (tx : Transaction) : Prop :=
  mempool tx.id = some tx ∧ ∀ tx', mempool tx'.id = some tx' → tx'.username = tx.username → tx.id ≤ tx'.id

/-- The loop keeps the valid ones among the first claims of each username, up to the limit. -/
theorem ChainStore.selectTransactions_eq {valid : Transaction → Bool}
    (hvalid : ∀ tx, s.isValidCandidateTransaction tx height = .ok (valid tx)) (candidates selected : List Transaction)
    (usernames : List String) (hcount : selected.length ≤ maxTxsPerBlock) :
    s.selectTransactions height candidates selected usernames = .ok (selected ++
      ((firsts Transaction.username usernames candidates).filter valid).take (maxTxsPerBlock - selected.length)) := by
  induction candidates generalizing selected usernames with
  | nil => simp [selectTransactions, firsts]
  | cons tx candidates ih =>
    unfold selectTransactions
    split_ifs with hfull hseen
    · rw [show maxTxsPerBlock - selected.length = 0 by omega, List.take_zero, List.append_nil]
    · rw [ih selected usernames hcount, firsts_cons_of_mem hseen]
    · rw [hvalid tx, firsts_cons_of_notMem hseen]
      show s.selectTransactions height candidates (if valid tx then selected ++ [tx] else selected) (tx.username :: usernames) = _
      cases htx : valid tx with
      | false =>
        rw [List.filter_cons_of_neg (by simp [htx])]
        exact ih selected _ hcount
      | true =>
        rw [List.filter_cons_of_pos htx, if_pos rfl, ih (selected ++ [tx]) _ (by simp; omega), List.append_assoc,
          List.singleton_append, List.length_append, List.length_singleton,
          show maxTxsPerBlock - selected.length = maxTxsPerBlock - (selected.length + 1) + 1 by omega, List.take_succ_cons]

/-- The first claims of the sorted mempool are the leading ones. -/
theorem Values.mem_firsts (h : Values mempool values) {tx : Transaction} :
    tx ∈ firsts Transaction.username [] (values.insertionSort fun a b => a.id ≤ b.id) ↔ Leads mempool tx := by
  have htotal : Std.Total fun a b : Transaction => a.id ≤ b.id := ⟨fun a b => Std.Total.total a.id b.id⟩
  have htrans : IsTrans Transaction fun a b => a.id ≤ b.id := ⟨fun a b c => trans_of (fun x y : Hash32 => x ≤ y)⟩
  rw [mem_firsts_of_sorted (fun x => (Std.Total.total x.id x.id).elim id id) (List.pairwise_insertionSort _ values)
    ((List.perm_insertionSort _ values).nodup_iff.mpr (.of_map _ h.keyed))]
  · unfold Leads
    simp only [List.mem_insertionSort, h.mem_iff]
  · intro x hx y hy hxy hyx
    exact List.inj_on_of_nodup_map h.keyed ((List.mem_insertionSort _).mp hx) ((List.mem_insertionSort _).mp hy)
      (Std.Antisymm.antisymm x.id y.id hxy hyx)

/-- A username with a valid claim gets into the candidate, unless that is full, exactly if its leading claim is valid;
and the candidate is full exactly if there are so many usernames of that kind. -/
theorem unshadowed_iff [Float64 F] {blocks : Block → Prop} (hs : s.Used blocks)
    (hnz : ∀ b, b = .genesis ∨ blocks b → b.hash ≠ .zero) (hvalues : Values mempool values) {publicKey : Bytes 32} {now : UInt64}
    {b : Block} (htip : s.chain.tipHeight = .ok height) (hb : s.candidate values publicKey now = .ok (some b)) :
    (∀ username, (∃ tx, mempool tx.id = some tx ∧ tx.username = username ∧
        s.isValidCandidateTransaction tx (height + 1) = .ok true) →
      (∃ tx ∈ b.transactions, tx.username = username) ∨ b.transactions.length = maxTxsPerBlock) ↔
    (∀ username, (∃ tx, mempool tx.id = some tx ∧ tx.username = username ∧
        s.isValidCandidateTransaction tx (height + 1) = .ok true) →
      ∃ tx, Leads mempool tx ∧ tx.username = username ∧ s.isValidCandidateTransaction tx (height + 1) = .ok true) ∨
    ∃ txs : List Transaction, txs.Nodup ∧ txs.length = maxTxsPerBlock ∧
      ∀ tx ∈ txs, Leads mempool tx ∧ s.isValidCandidateTransaction tx (height + 1) = .ok true := by
  obtain ⟨src, -⟩ := hs.sourced hnz
  obtain ⟨root, inv, -⟩ := src.inv
  obtain ⟨l, hl, -, -⟩ := inv.tip
  obtain ⟨valid, hvalid⟩ : ∃ valid : Transaction → Bool, ∀ tx, s.isValidCandidateTransaction tx (height + 1) = .ok (valid tx) :=
    Classical.axiomOfChoice fun tx => inv.isValidForMempool_ok hl tx (height + 1)
  have hselected : b.transactions =
      ((firsts Transaction.username [] (values.insertionSort fun a b => a.id ≤ b.id)).filter valid).take maxTxsPerBlock := by
    obtain ⟨target?, -, h⟩ := except_bind_eq_ok.mp hb
    obtain ⟨m?, -, h⟩ := except_bind_eq_ok.mp h
    rcases target? with _ | target <;> rcases m? with _ | m <;> try cases h
    obtain ⟨height', hheight', h⟩ := except_bind_eq_ok.mp h
    obtain rfl := Except.ok.inj (htip.symm.trans hheight')
    dsimp only at h
    rw [ChainStore.selectTransactions_eq hvalid _ [] [] (Nat.zero_le _)] at h
    obtain rfl := Option.some.inj (Except.ok.inj h)
    rfl
  generalize hL : (firsts Transaction.username [] (values.insertionSort fun a b => a.id ≤ b.id)).filter valid = leaders at hselected
  have hmem : ∀ tx, tx ∈ leaders ↔ Leads mempool tx ∧ valid tx = true := fun tx => by
    rw [← hL, List.mem_filter, hvalues.mem_firsts]
  have hnodup : leaders.Nodup := by
    rw [← hL]
    exact (List.Nodup.of_map _ nodup_map_firsts).filter _
  simp only [hvalid, Except.ok.injEq]
  rw [hselected]
  by_cases hfull : maxTxsPerBlock ≤ leaders.length
  · -- The candidate is full, with leading claims that are valid.
    have hlen : (leaders.take maxTxsPerBlock).length = maxTxsPerBlock := List.length_take_of_le hfull
    refine iff_of_true (fun _ _ => .inr hlen) (.inr ⟨_, hnodup.sublist (List.take_sublist _ _), hlen, fun tx htx => ?_⟩)
    exact (hmem tx).mp (List.mem_of_mem_take htx)
  · rw [List.take_of_length_le (by omega)]
    have hmany : ¬∃ txs : List Transaction, txs.Nodup ∧ txs.length = maxTxsPerBlock ∧ ∀ tx ∈ txs, Leads mempool tx ∧ valid tx = true := by
      rintro ⟨txs, htxs, hlen, hall⟩
      have := (List.subperm_of_subset htxs fun tx htx => (hmem tx).mpr (hall tx htx)).length_le
      omega
    rw [or_iff_left hmany]
    refine forall_congr' fun username => imp_congr_right fun _ => ?_
    rw [or_iff_left (by omega)]
    refine exists_congr fun tx => ?_
    rw [hmem]
    tauto

end

/-! ### Alice's claim and junk -/

section
attribute [local instance] signed

/-- Another version of the claim. The signature does not cover the version either. -/
def aliceClaimV2 : Transaction := { aliceClaim with version := 2 }

theorem versions_share_id : aliceClaim.verifySelfContained = .ok () ∧ aliceClaimV2.verifySelfContained = .ok () ∧
    aliceClaim ≠ aliceClaimV2 ∧ aliceClaim.canonicalBytes = aliceClaimV2.canonicalBytes ∧ aliceClaim.id = aliceClaimV2.id :=
  ⟨by decide +kernel, by decide +kernel, by decide +kernel, rfl, rfl⟩

theorem canonicalBytes_ne_iff_alice : aliceClaim.canonicalBytes ≠ ({ aliceClaim with nonce := .replicate 8 1 } : Transaction).canonicalBytes :=
  (canonicalBytes_ne_iff (by decide +kernel) _).1.mpr (by decide +kernel)

theorem opened_used : (ChainStore.opened ℚ).Used fun _ => False :=
  .opened ((ChainStore.openAt_empty (by decide +kernel)).mpr ⟨rfl, rfl, rfl⟩)

theorem unshadowed_iff_alice : ∃ tx ∈ [aliceClaim], tx.username = "alice" := by
  have hnz : ∀ b, b = Block.genesis ∨ False → b.hash ≠ .zero := by
    rintro _ (rfl | h)
    · decide +kernel
    · exact h.elim
  have hvalues : Values (Table.empty.insert aliceClaim.id aliceClaim) [aliceClaim] := .singleton aliceClaim
  have hcandidate : (ChainStore.opened ℚ).candidate [aliceClaim] claimBlock.header.minerPublicKey 1750000302 =
      .ok (some { claimBlock with header := { claimBlock.header with nonce := 0 } }) := by decide +kernel
  have hvalid : (ChainStore.opened ℚ).isValidCandidateTransaction aliceClaim 1 = .ok true := by decide +kernel
  have hlead : Leads (Table.empty.insert aliceClaim.id aliceClaim) aliceClaim := by
    refine ⟨Table.insert_self, fun tx htx _ => ?_⟩
    obtain rfl := List.mem_singleton.mp ((hvalues.mem_iff tx).mpr htx)
    exact (Std.Total.total (r := (· ≤ ·)) aliceClaim.id aliceClaim.id).elim id id
  refine ((unshadowed_iff opened_used hnz hvalues (by decide +kernel) hcandidate).mpr (.inl ?_) "alice"
    ⟨aliceClaim, Table.insert_self, rfl, hvalid⟩).resolve_right (by decide)
  rintro _ ⟨tx, htx, rfl, -⟩
  obtain rfl := List.mem_singleton.mp ((hvalues.mem_iff tx).mpr htx)
  exact ⟨aliceClaim, hlead, rfl, hvalid⟩

/-- A claim of the same username whose anchor does not exist, signed by the same key, and whose id is smaller. -/
def junk : Transaction where
  version := 1
  username := "alice"
  ownerPublicKey := aliceKey
  claimedAtHeightHint := 0
  anchorBlockHash := .zero
  nonce := .replicate 8 0
  signature := [0x2a, 0x46, 0xad, 0x5c, 0x93, 0x67, 0x31, 0x4b, 0x35, 0xf9, 0x98, 0x1b, 0x62, 0x91, 0x1e, 0x89, 0x50,
    0x8d, 0x51, 0xa8, 0xd8, 0xb0, 0x11, 0x34, 0xde, 0x6f, 0xb9, 0xf8, 0xd4, 0x99, 0xfc, 0x68, 0xcc, 0xa4, 0x6d, 0xeb,
    0x6b, 0x26, 0xde, 0xd1, 0x3a, 0x25, 0xd2, 0x50, 0x9e, 0xfb, 0x01, 0xa0, 0x94, 0x74, 0x8e, 0x4f, 0x8e, 0x51, 0x17,
    0x1d, 0x67, 0x20, 0x66, 0xb3, 0xc8, 0x8d, 0x7c, 0x07]

theorem junk_shadows : ∃ mempool : Table Hash32 Transaction, Values mempool [aliceClaim, junk] ∧
    (ChainStore.opened ℚ).isValidCandidateTransaction aliceClaim 1 = .ok true ∧
    (ChainStore.opened ℚ).candidate [aliceClaim, junk] (.replicate 32 0) 1750000300 =
      .ok (some (emptyBlock 1 Block.genesis.hash 1750000300 0)) := by
  have hne : junk.id ≠ aliceClaim.id := by decide +kernel
  refine ⟨(Table.empty.insert aliceClaim.id aliceClaim).insert junk.id junk, ⟨?_, fun tx => ?_⟩, by decide +kernel, by decide +kernel⟩
  · exact List.nodup_cons.mpr ⟨fun h => hne (List.mem_singleton.mp h).symm, List.nodup_singleton _⟩
  · rw [List.mem_cons, List.mem_singleton, Table.insert_apply, Table.insert_apply]
    constructor
    · rintro (rfl | rfl)
      · rw [if_neg hne.symm, if_pos rfl]
      · exact if_pos rfl
    · split_ifs
      · exact fun h => .inr (Option.some.inj h).symm
      · exact fun h => .inl (Option.some.inj h).symm
      · exact fun h => by cases h

end
end SpiritChat
