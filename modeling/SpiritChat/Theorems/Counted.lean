import SpiritChat.Theorems.MedianTime
import SpiritChat.Theorems.Mined

/-! # Blocks that were counted

Two intervals of blocks that keep to the first target, under a hash that counts them. Every block was found on time, but
for the last one of the first interval: it came one block time late, so that the first interval took as long as it
should. -/

namespace SpiritChat
open Lib

namespace Counted

/-- A hash that keeps the height of a header and nothing else, and tells headers from everything else. Signatures are not
looked at; those of the claims further on are valid. -/
@[reducible] def counting : Primitives where
  sha256 message := ⟨⟨List.replicate 23 0 ++ (if message.length = 125 then 1 else 2) ::
    (message.drop 1 ++ List.replicate 8 0).take 8, by simp⟩⟩
  unicodeLowercase s := s
  isPublicKey _ := true
  verifySignature _ _ _ := true

attribute [local instance] counting

def hashAt (k : ℕ) : Hash32 := ⟨⟨List.replicate 23 0 ++ 1 :: leBytes 8 k, by simp⟩⟩

/-- On time, but for one interval before the first retarget. -/
def timeAt (k : ℕ) : ℕ := 1750000000 + 300 * (if k < 287 then k else k + 1)

/-- Block `k` with these transactions. -/
def blockWith (transactions : List Transaction) (k : ℕ) : Block where
  header :=
    { version := 1, height := UInt64.ofNat k, prevHash := if k = 0 then .zero else hashAt (k - 1)
      timestamp := UInt64.ofNat (timeAt k), txCommitment := Block.computeTxCommitment transactions
      difficultyTarget := initialDifficultyBits, nonce := 0, minerPublicKey := .replicate 32 0 }
  transactions

abbrev blockAt (k : ℕ) : Block := blockWith [] k

def ancestorAt (k : ℕ) : Ancestor := ⟨hashAt k, k, timeAt k, initialDifficultyBits⟩

theorem height_blockWith {txs : List Transaction} {k : ℕ} (hk : k ≤ 600) : (blockWith txs k).header.height.toNat = k := by
  have hsize : UInt64.size = 2 ^ 64 := rfl
  exact UInt64.toNat_ofNat_of_lt' (by omega)

/-- A clock after all of them. -/
def clock : ℕ := 1750200000

theorem timeAt_lt {i j : ℕ} (h : i < j) : timeAt i < timeAt j := by
  unfold timeAt
  refine Nat.add_lt_add_left (Nat.mul_lt_mul_of_pos_left ?_ (by decide)) _
  split_ifs <;> omega

theorem timeAt_le_clock {k : ℕ} (hk : k ≤ 600) : timeAt k ≤ clock := by
  have hlast : timeAt 601 ≤ clock := by decide
  exact (timeAt_lt (show k < 601 by omega)).le.trans hlast

theorem time_blockWith {txs : List Transaction} {k : ℕ} (hk : k ≤ 600) :
    (blockWith txs k).header.timestamp.toNat = timeAt k :=
  UInt64.toNat_ofNat_of_lt' ((timeAt_le_clock hk).trans_lt (by decide))

theorem hash_eq (b : Block) : b.hash = hashAt b.header.height.toNat := by
  refine Hash32.asBytes_inj ?_
  show List.replicate 23 0 ++ (if b.header.canonicalBytes.length = 125 then 1 else 2) ::
    (b.header.canonicalBytes.drop 1 ++ List.replicate 8 0).take 8 = List.replicate 23 0 ++ 1 :: leBytes 8 b.header.height.toNat
  rw [b.header.length_canonicalBytes, if_pos rfl]
  rfl

theorem hash_blockWith {txs : List Transaction} {k : ℕ} (hk : k ≤ 600) : (blockWith txs k).hash = hashAt k := by
  rw [hash_eq, height_blockWith hk]

theorem hash_genesis : Block.genesis.hash = hashAt 0 := hash_eq .genesis

theorem hashAt_inj {i j : ℕ} (hi : i ≤ 600) (hj : j ≤ 600) (h : hashAt i = hashAt j) : i = j := by
  have hbytes : List.replicate 23 0 ++ 1 :: leBytes 8 i = List.replicate 23 0 ++ 1 :: leBytes 8 j := congrArg Hash32.asBytes h
  exact leBytes_inj (n := 8) (by omega) (by omega) (List.cons.inj (List.append_cancel_left hbytes)).2

theorem hashAt_ne_zero (k : ℕ) : hashAt k ≠ .zero := fun h => by
  have hbyte : (hashAt k).asBytes[23]? = Hash32.zero.asBytes[23]? := congrArg (fun h => h.asBytes[23]?) h
  cases hbyte

theorem meets (k : ℕ) : (hashAt k).meetsTarget (expandTarget initialDifficultyBits) = true := by
  have htarget : (expandTarget initialDifficultyBits).digits = 0 :: 0 :: 255 :: List.replicate 2 255 ++ List.replicate 27 0 := by
    decide
  have hdigits : (hashAt k).digits = 0 :: 0 :: 0 :: List.replicate 20 0 ++ 1 :: (leBytes 8 k).map UInt8.toNat := rfl
  have hlt : (hashAt k).digits < (expandTarget initialDifficultyBits).digits := by
    rw [htarget, hdigits]
    exact .cons (.cons (.rel (by decide)))
  exact decide_eq_true hlt.le

/-! ### A branch of them -/

theorem retarget_kept : retarget ℚ initialDifficultyBits 86400 86400 = initialDifficultyBits := by decide +kernel

section
variable {F : Type} [Float64 F] (hkept : retarget F initialDifficultyBits 86400 86400 = initialDifficultyBits)
include hkept

theorem target_at {k : ℕ} (hk : k < 575) :
    Rules.target F ((List.range (k + 1)).map ancestorAt) (ancestorAt k) = some initialDifficultyBits := by
  unfold Rules.target
  split_ifs with h
  · rfl
  · obtain rfl : k = 287 := by
      simp only [ancestorAt, retargetIntervalBlocks] at h
      omega
    have hfind : ((List.range (287 + 1)).map ancestorAt).find?
        (fun a => a.height = (ancestorAt 287).height + 1 - retargetIntervalBlocks) = some (ancestorAt 0) := rfl
    rw [hfind]
    exact congrArg some hkept

/-- Transactions for the block after block `k`, where `owners` is who owns what before it. -/
structure Fits (k : ℕ) (owners : Owners) (txs : List Transaction) : Prop where
  count : txs.length ≤ maxTxsPerBlock
  signed : ∀ tx ∈ txs, tx.verifySelfContained = .ok ()
  distinct : (txs.map (·.username)).Nodup
  anchored : ∀ tx ∈ txs, ∃ i ≤ k, tx.anchorBlockHash = hashAt i ∧ k + 1 - i ≤ anchorMaxAgeBlocks
  unclaimed : ∀ tx ∈ txs, owners tx.username = none

omit [Float64 F] hkept in
theorem Fits.nil (k : ℕ) (owners : Owners) : Fits k owners [] where
  count := Nat.zero_le _
  signed _ h := by cases h
  distinct := .nil
  anchored _ h := by cases h
  unclaimed _ h := by cases h

/-- Each of them is valid on those before it, up to the end of the second interval. -/
theorem Fits.admits {k : ℕ} {owners : Owners} {txs : List Transaction} (hf : Fits k owners txs) (hk : k < 575) :
    Rules.Admits F ((List.range (k + 1)).map ancestorAt) owners (ancestorAt k) (blockWith txs (k + 1)) clock where
  sound :=
    { count := hf.count
      size := Block.approxSizeBytes_le hf.count hf.signed
      commitment := rfl
      signed := hf.signed
      distinct := hf.distinct }
  height := height_blockWith (by omega)
  target := target_at hkept hk
  work := by
    rw [hash_blockWith (by omega)]
    exact meets _
  past := by
    obtain ⟨m, hm, hmedian⟩ := Rules.exists_median
      (show ((List.range (k + 1)).map ancestorAt).map (·.timestamp) ≠ [] by simp)
    refine ⟨m, hmedian, ?_⟩
    rw [List.map_map] at hm
    obtain ⟨i, hi, rfl⟩ := List.mem_map.mp hm
    have hlt := List.mem_range.mp hi
    rw [time_blockWith (by omega)]
    exact timeAt_lt hlt
  drift := by
    rw [time_blockWith (by omega)]
    exact le_add_right (timeAt_le_clock (by omega))
  anchored := by
    intro tx htx
    obtain ⟨i, hi, hanchor, hage⟩ := hf.anchored tx htx
    refine ⟨ancestorAt i, List.mem_map_of_mem (List.mem_range.mpr (by omega)), hanchor.symm, ?_⟩
    rw [height_blockWith (by omega)]
    exact hage
  unclaimed := hf.unclaimed

end

/-! ### A chain of them -/

section
variable {F : Type} [Float64 F] {k : ℕ} {owners : Owners} {txs : List Transaction} {c : Chain F}

/-- What is known of a chain whose tip is block `k`. -/
structure MinedTo (k : ℕ) (owners : Owners) (c : Chain F) : Prop where
  reached : Chain.Reachable (hashAt 0) c
  tip : c.tipHash = hashAt k
  line : ∃ l, c.Descends (hashAt k) l ∧ c.branch l = (List.range (k + 1)).map ancestorAt ∧ c.ownersOn l = owners
  fresh : ∀ j, k < j → j ≤ 600 → c.metas (hashAt j) = none

theorem metas_new : (Chain.new : Chain F).metas (hashAt 0) = some (genesisMeta F) := by
  rw [← hash_genesis]
  exact Chain.metas_new

theorem minedTo_zero : MinedTo 0 Table.empty (Chain.new : Chain F) where
  reached := by
    have hz : Block.genesis.hash ≠ .zero := hash_genesis ▸ hashAt_ne_zero 0
    rw [← hash_genesis]
    exact .new hz
  tip := hash_genesis
  line := by
    have hfloor : (Chain.new : Chain F).floorHash = hashAt 0 := hash_genesis
    have hl : (Chain.new : Chain F).Descends (hashAt 0) [hashAt 0] := by
      rw [← hfloor]
      exact .floor
    refine ⟨[hashAt 0], hl, ?_, rfl⟩
    have htime : timeAt 0 = genesisTimestamp.toNat := by decide
    show [(Chain.new : Chain F).ancestorOf (hashAt 0)] = [ancestorAt 0]
    rw [Chain.ancestorOf_eq metas_new, ancestorAt, htime]
    rfl
  fresh := by
    intro j hj hle
    have hne : hashAt j ≠ Block.genesis.hash := fun h => by
      have := hashAt_inj hle (by omega) (h.trans hash_genesis)
      omega
    exact Chain.metas_new_of_ne hne

theorem MinedTo.ancestorOf_eq (m : MinedTo k owners c) : c.ancestorOf (hashAt k) = ancestorAt k := by
  obtain ⟨l, hl, hbranch, -⟩ := m.line
  have h := congrArg List.getLast? hbranch
  rwa [Chain.branch, List.getLast?_map, hl.getLast?, List.range_succ, List.map_append, List.map_singleton,
    List.getLast?_concat, Option.map_some, Option.some.injEq] at h

theorem MinedTo.path (m : MinedTo k owners c) : c.Descends (hashAt k) ((List.range (k + 1)).map hashAt) := by
  obtain ⟨l, hl, hbranch, -⟩ := m.line
  have hhash := congrArg (List.map Ancestor.hash) hbranch
  simp only [Chain.branch, List.map_map, Function.comp_def, Chain.ancestorOf_hash, List.map_id'] at hhash
  rwa [hhash] at hl

theorem MinedTo.heightOf (m : MinedTo k owners c) : c.heightOf (hashAt k) = k ∧ c.floorHeight = 0 := by
  obtain ⟨tm, htm⟩ := Option.isSome_iff_exists.mp (m.reached.inv.known m.path _ m.path.mem_self)
  have hancestor := m.ancestorOf_eq
  rw [Chain.ancestorOf_eq htm] at hancestor
  have hheight : c.heightOf (hashAt k) = k := (Chain.heightOf_eq htm).trans (congrArg Ancestor.height hancestor)
  obtain ⟨hlength, hle⟩ := m.reached.inv.rooted.length_eq m.path
  rw [List.length_map, List.length_range, hheight] at hlength
  rw [hheight] at hle
  exact ⟨hheight, by omega⟩

theorem MinedTo.canonicalIndex (m : MinedTo k owners c) {i : ℕ} (hi : i ≤ k) : c.canonicalIndex i = some (hashAt i) := by
  obtain ⟨l, hl, hidx, -⟩ := m.reached.inv.tip
  rw [m.tip] at hl
  obtain rfl := hl.unique m.path
  rw [hidx i (m.heightOf.2 ▸ Nat.zero_le i), m.heightOf.2, Nat.sub_zero, List.getElem?_map, List.getElem?_range (by omega)]
  rfl

theorem MinedTo.usernameOwner (m : MinedTo k owners c) : c.usernameOwner = owners := by
  obtain ⟨l, hl, -, howners⟩ := m.line
  obtain ⟨l', hl', -, hown⟩ := m.reached.inv.tip
  rw [m.tip] at hl'
  obtain rfl := hl.unique hl'
  exact hown.trans howners

theorem MinedTo.valid_next (m : MinedTo k owners c)
    (hkept : retarget F initialDifficultyBits 86400 86400 = initialDifficultyBits) (hk : k < 575) (hf : Fits k owners txs) :
    validateBlock c (blockWith txs (k + 1)) clock = .ok () := by
  have inv := m.reached.inv
  obtain ⟨l, hl, hbranch, howners⟩ := m.line
  have hprev : (blockWith txs (k + 1)).header.prevHash = hashAt k := rfl
  refine (inv.rooted.validateBlock_eq_ok (l := l) hl (inv.bodies_of_descends hl)).mpr ?_
  rw [hbranch, howners, hprev, m.ancestorOf_eq]
  exact hf.admits hkept hk

/-- The chain with the next block as its tip. -/
theorem MinedTo.accepted (m : MinedTo k owners c) (hk : k < 575) {pm : BlockMeta F} {l : List Hash32}
    (a : c.Accepts (blockWith txs (k + 1)) clock pm l)
    (hreached : Chain.Reachable (hashAt 0)
      ((c.accepted (blockWith txs (k + 1)) pm).setTip (blockWith txs (k + 1)).hash (l ++ [(blockWith txs (k + 1)).hash]))) :
    MinedTo (k + 1) (owners.insertAll ((blockWith txs (k + 1)).claims (hashAt (k + 1))))
      ((c.accepted (blockWith txs (k + 1)) pm).setTip (blockWith txs (k + 1)).hash (l ++ [(blockWith txs (k + 1)).hash])) := by
  have inv := m.reached.inv
  obtain ⟨l', hl, hbranch, howners⟩ := m.line
  obtain rfl : l = l' := a.line.unique hl
  have hhash : (blockWith txs (k + 1)).hash = hashAt (k + 1) := hash_blockWith (by omega)
  have hz : (blockWith txs (k + 1)).hash ≠ .zero := hhash ▸ hashAt_ne_zero _
  refine ⟨hreached, hhash, ⟨l ++ [hashAt (k + 1)], ?_, ?_, ?_⟩, fun j hj hle => ?_⟩
  · rw [← hhash]
    exact a.descends inv hz
  · show (c.accepted (blockWith txs (k + 1)) pm).branch (l ++ [hashAt (k + 1)]) = _
    have hmeta : (c.accepted (blockWith txs (k + 1)) pm).metas (hashAt (k + 1)) =
        some (Chain.childMeta pm (blockWith txs (k + 1))) := by
      rw [← hhash]
      exact Table.insert_self
    have hown : (c.accepted (blockWith txs (k + 1)) pm).ancestorOf (hashAt (k + 1)) = ancestorAt (k + 1) := by
      simp only [Chain.ancestorOf_eq hmeta, Chain.childMeta, height_blockWith (k := k + 1) (by omega),
        time_blockWith (k := k + 1) (by omega)]
      rfl
    have hkept : (c.accepted (blockWith txs (k + 1)) pm).branch l = c.branch l :=
      Chain.branch_store_of_known a.new (inv.known hl)
    rw [Chain.branch, List.map_append, List.map_singleton, hown, ← Chain.branch, hkept, hbranch, List.range_succ (n := k + 1),
      List.map_append, List.map_singleton]
  · rw [← hhash]
    show (c.accepted (blockWith txs (k + 1)) pm).ownersOn (l ++ [(blockWith txs (k + 1)).hash]) = _
    rw [Chain.ownersOn_store_child inv a.new hl, howners]
  · have hne : hashAt j ≠ (blockWith txs (k + 1)).hash := fun h => by
      have := hashAt_inj hle (by omega) (h.trans hhash)
      omega
    have hkept : ∀ h, h ≠ (blockWith txs (k + 1)).hash → (c.accepted (blockWith txs (k + 1)) pm).metas h = c.metas h :=
      fun h hne => Table.insert_of_ne hne
    exact (hkept _ hne).trans (m.fresh j (by omega) hle)

/-- The next block becomes the tip, if the work of a block counts. -/
theorem MinedTo.next (m : MinedTo k owners c) (hkept : retarget F initialDifficultyBits 86400 86400 = initialDifficultyBits)
    (hk : k < 575) (hf : Fits k owners txs) (hheavier : ∀ pm, c.metas (hashAt k) = some pm →
      pm.cumulativeWork < pm.cumulativeWork + workOf initialDifficultyBits) :
    (c.tryApply (blockWith txs (k + 1)) clock).2 = .ok .extendedTip ∧
      MinedTo (k + 1) (owners.insertAll ((blockWith txs (k + 1)).claims (hashAt (k + 1))))
        (c.tryApply (blockWith txs (k + 1)) clock).1 ∧
      ∃ pm, c.metas (hashAt k) = some pm ∧ (c.tryApply (blockWith txs (k + 1)) clock).1.metas (hashAt (k + 1)) =
        some (Chain.childMeta pm (blockWith txs (k + 1))) := by
  have hhash : (blockWith txs (k + 1)).hash = hashAt (k + 1) := hash_blockWith (by omega)
  have hz : (blockWith txs (k + 1)).hash ≠ .zero := hhash ▸ hashAt_ne_zero _
  have hprev : (blockWith txs (k + 1)).header.prevHash = hashAt k := rfl
  have hnew : c.metas (blockWith txs (k + 1)).hash = none := by
    rw [hhash]
    exact m.fresh _ (by omega) (by omega)
  have hvalid := m.valid_next hkept hk hf
  have happlied := m.reached.inv.tryApply_applied hz clock
  have hreached := m.reached.tryApply _ clock hz
  generalize (c.tryApply (blockWith txs (k + 1)) clock).1 = c' at happlied hreached ⊢
  generalize (c.tryApply (blockWith txs (k + 1)) clock).2 = r at happlied ⊢
  cases happlied with
  | known h => rw [hnew] at h; cases h
  | rejected _ h => rw [hvalid] at h; cases h
  | @fork pm _ w a htip hle =>
    obtain ⟨tm, htm, rfl⟩ := htip
    rw [m.tip] at htm
    obtain rfl : pm = tm := Option.some.inj (a.parent.symm.trans htm)
    exact absurd hle (not_le.mpr (hheavier _ a.parent))
  | @tip pm l w a =>
    refine ⟨by rw [if_pos (hprev.trans m.tip.symm)], m.accepted hk a hreached, pm, a.parent, ?_⟩
    rw [← hhash]
    exact Table.insert_self

end
end Counted
end SpiritChat
