import Mathlib.Algebra.Order.BigOperators.Group.List
import Mathlib.Data.List.Dedup
import SpiritChat.Ledger.Rules
import SpiritChat.Theorems.Usernames

/-! # The tree of admissible blocks

Which blocks are accepted does not depend on any chain: a set of submitted blocks spans a tree under
genesis, each block on top of a branch that admits it. Without hash collisions a hash has one place in that
tree. -/

namespace SpiritChat
open Lib

/-- If equal images come from elements with equal `g`, then lists with the same images have the same `g`s. -/
theorem perm_map_of_perm_map {α β γ : Type} {f : α → β} {g : α → γ} {xs ys : List α}
    (h : (xs.map f).Perm (ys.map f)) (hfg : ∀ x ∈ xs, ∀ y ∈ ys, f x = f y → g x = g y) :
    (xs.map g).Perm (ys.map g) := by
  induction xs generalizing ys with
  | nil =>
    obtain rfl : ys = [] := List.map_eq_nil_iff.mp h.nil_eq.symm
    exact .refl _
  | cons x xs ih =>
    obtain ⟨y, hy, hxy⟩ := List.mem_map.mp (h.subset List.mem_cons_self)
    obtain ⟨ys₁, ys₂, rfl⟩ := List.append_of_mem hy
    have hg : g x = g y := hfg x List.mem_cons_self y hy hxy.symm
    have hrest : (xs.map f).Perm ((ys₁ ++ ys₂).map f) := by
      refine (List.perm_cons (f x)).mp (h.trans ?_)
      have hmid : (ys₁ ++ y :: ys₂).Perm (y :: (ys₁ ++ ys₂)) := List.perm_middle
      simpa only [List.map_cons, hxy] using hmid.map f
    have htail := ih hrest fun x' hx' y' hy' => hfg x' (List.mem_cons_of_mem _ hx') y' <| by
      rcases List.mem_append.mp hy' with hy' | hy'
      · exact List.mem_append_left _ hy'
      · exact List.mem_append_right _ (List.mem_cons_of_mem _ hy')
    have hmid : ((ys₁ ++ y :: ys₂).map g).Perm ((y :: (ys₁ ++ ys₂)).map g) := List.perm_middle.map g
    rw [List.map_cons, hg]
    exact (htail.cons (g y)).trans hmid.symm

/-- What the rules read of metadata stored under `h`. -/
def BlockMeta.ancestor {F : Type} (m : BlockMeta F) (h : Hash32) : Ancestor where
  hash := h
  height := m.height
  timestamp := m.timestamp
  difficultyTarget := m.difficultyTarget

section
variable [Primitives]

/-- The tree spanned by `submitted` blocks, each with the clock at its arrival: a hash, its branch, the owners
there and the metadata. -/
inductive Derives (F : Type) [Float64 F] (submitted : Block → ℕ → Prop) :
    Hash32 → List Ancestor → Owners → BlockMeta F → Prop
  | genesis : Derives F submitted Block.genesis.hash [(genesisMeta F).ancestor Block.genesis.hash] Table.empty (genesisMeta F)
  | child {b : Block} {now : ℕ} {branch : List Ancestor} {owners : Owners} {pm : BlockMeta F} :
      Derives F submitted b.header.prevHash branch owners pm → submitted b now →
      Rules.Admits F branch owners (pm.ancestor b.header.prevHash) b now →
      Derives F submitted b.hash (branch ++ [(Chain.childMeta pm b).ancestor b.hash])
        (owners.insertAll (b.claims b.hash)) (Chain.childMeta pm b)

/-! ### Collisions -/

/-- The byte strings that are hashed for a block. -/
def Block.Hashes (b : Block) (x : List UInt8) : Prop :=
  x = b.header.canonicalBytes ∨ x = Block.commitmentPreimage b.transactions ∨
    ∃ tx ∈ b.transactions, x = tx.canonicalBytes

/-- SHA-256 has no collision among the strings hashed for some blocks, genesis included, and no block's hash
is the one that marks a missing parent. -/
structure CollisionFree (blocks : Block → Prop) : Prop where
  injective : Set.InjOn Hash32.of {x | ∃ b, (b = Block.genesis ∨ blocks b) ∧ b.Hashes x}
  nonzero : ∀ b, b = Block.genesis ∨ blocks b → b.hash ≠ .zero

theorem Block.length_canonicalBytes_le {b : Block} (hs : b.Sound) {tx : Transaction} (htx : tx ∈ b.transactions) :
    tx.canonicalBytes.length ≤ maxBlockBytes := by
  refine le_trans ?_ hs.size
  unfold approxSizeBytes
  exact le_trans (List.le_sum_of_mem (List.mem_map.mpr ⟨tx, htx, rfl⟩)) (Nat.le_add_left _ _)

/-- A commitment tells the claims up to their order. -/
theorem Block.claims_perm {b b' : Block} (hs : b.Sound) (hs' : b'.Sound) (hh : b.header = b'.header)
    (hinj : ∀ x y, (b.Hashes x ∨ b'.Hashes x) → (b.Hashes y ∨ b'.Hashes y) → Hash32.of x = Hash32.of y → x = y) (h : Hash32) :
    (b.claims h).Perm (b'.claims h) := by
  have hcommit : computeTxCommitment b.transactions = computeTxCommitment b'.transactions := by
    rw [← hs.commitment, ← hs'.commitment, hh]
  have hpre : commitmentPreimage b.transactions = commitmentPreimage b'.transactions :=
    hinj _ _ (.inl (.inr (.inl rfl))) (.inr (.inr (.inl rfl))) hcommit
  have hsorted := flatten_inj_of_length (n := 32) (by omega) (by simp) (by simp) hpre
  have hids : (b.transactions.map Transaction.id).Perm (b'.transactions.map Transaction.id) := by
    have heq := List.map_injective_iff.mpr (fun _ _ => Hash32.asBytes_inj) hsorted
    refine (List.perm_insertionSort (· ≤ ·) _).symm.trans ?_
    rw [heq]
    exact List.perm_insertionSort _ _
  unfold claims
  rw [hh]
  refine perm_map_of_perm_map hids fun tx htx tx' htx' hid => ?_
  have hbytes : tx.canonicalBytes = tx'.canonicalBytes :=
    hinj _ _ (.inl (.inr (.inr ⟨tx, htx, rfl⟩))) (.inr (.inr (.inr ⟨tx', htx', rfl⟩))) hid
  have := Transaction.canonicalBytes_inj (Block.length_canonicalBytes_le hs htx) hbytes
  rw [this]

variable {blocks : Block → Prop}

theorem CollisionFree.header_eq (cf : CollisionFree blocks) {b b' : Block} (hb : b = .genesis ∨ blocks b)
    (hb' : b' = .genesis ∨ blocks b') (h : b.hash = b'.hash) : b.header = b'.header :=
  BlockHeader.canonicalBytes_injective (cf.injective ⟨b, hb, .inl rfl⟩ ⟨b', hb', .inl rfl⟩ h)

theorem CollisionFree.claims_eq (cf : CollisionFree blocks) {b b' : Block} (hb : blocks b) (hb' : blocks b')
    (hs : b.Sound) (hs' : b'.Sound) (hh : b.header = b'.header) (h : Hash32) (owners : Owners) :
    owners.insertAll (b.claims h) = owners.insertAll (b'.claims h) := by
  refine Table.insertAll_perm (Block.claims_perm hs hs' hh (fun x y hx hy hxy => ?_) h) ?_
  · refine cf.injective ?_ ?_ hxy
    · rcases hx with hx | hx
      · exact ⟨b, .inr hb, hx⟩
      · exact ⟨b', .inr hb', hx⟩
    · rcases hy with hy | hy
      · exact ⟨b, .inr hb, hy⟩
      · exact ⟨b', .inr hb', hy⟩
  · rw [Block.claims_fst]
    exact hs.distinct

theorem CollisionFree.mono {blocks' : Block → Prop} (cf : CollisionFree blocks) (h : ∀ b, blocks' b → blocks b) :
    CollisionFree blocks' where
  injective := by
    refine cf.injective.mono ?_
    rintro _ ⟨b, hb, hx⟩
    exact ⟨b, hb.imp_right (h b), hx⟩
  nonzero := fun b hb => cf.nonzero b (hb.imp_right (h b))

/-- The byte strings that are hashed for a block, in a list. -/
def Block.hashed (b : Block) : List (List UInt8) :=
  b.header.canonicalBytes :: commitmentPreimage b.transactions :: b.transactions.map Transaction.canonicalBytes

theorem Block.mem_hashed {b : Block} {x : List UInt8} : x ∈ b.hashed ↔ b.Hashes x := by
  unfold hashed Hashes
  simp only [List.mem_cons, List.mem_map, eq_comm]

/-- The digests of a list of blocks, compared with each other. -/
theorem collisionFree_of_hashed {bs : List Block}
    (hnodup : ((((Block.genesis :: bs).flatMap Block.hashed).dedup).map Hash32.of).Nodup)
    (hz : ∀ b ∈ Block.genesis :: bs, b.hash ≠ .zero) : CollisionFree (· ∈ bs) where
  nonzero := fun b hb => hz b (List.mem_cons.mpr hb)
  injective := by
    have hmem : ∀ x b, (b = Block.genesis ∨ b ∈ bs) → b.Hashes x →
        x ∈ ((Block.genesis :: bs).flatMap Block.hashed).dedup := fun x b hb hx =>
      List.mem_dedup.2 (List.mem_flatMap.mpr ⟨b, List.mem_cons.mpr hb, Block.mem_hashed.mpr hx⟩)
    rintro x ⟨b, hb, hx⟩ y ⟨b', hb', hy⟩ hxy
    exact List.inj_on_of_nodup_map hnodup (hmem x b hb hx) (hmem y b' hb' hy) hxy

/-! ### One place for each hash -/

namespace Derives
variable {F : Type} [Float64 F] {submitted submitted' : Block → ℕ → Prop} {h : Hash32} {branch branch' : List Ancestor}
  {owners owners' : Owners} {m m' : BlockMeta F}

theorem mono (hs : ∀ b now, submitted b now → submitted' b now) (hd : Derives F submitted h branch owners m) :
    Derives F submitted' h branch owners m := by
  induction hd with
  | genesis => exact .genesis
  | child _ hb ha ih => exact .child ih (hs _ _ hb) ha

/-- Without collisions the hash tells the branch, the owners and the metadata. -/
theorem unique (cf : CollisionFree fun b => ∃ now, submitted b now) (hd : Derives F submitted h branch owners m)
    (hd' : Derives F submitted h branch' owners' m') : branch = branch' ∧ owners = owners' ∧ m = m' := by
  -- No submitted block has the height of genesis.
  have hgenesis : ∀ {b : Block} {now : ℕ} {branch : List Ancestor} {owners : Owners} {p : Ancestor}, submitted b now →
      Rules.Admits F branch owners p b now → Block.genesis.hash ≠ b.hash := by
    intro b now branch owners p hb ha heq
    have hhead := cf.header_eq (.inl rfl) (.inr ⟨now, hb⟩) heq
    have hheight := ha.height
    rw [← hhead] at hheight
    have hzero : Block.genesis.header.height.toNat = 0 := rfl
    omega
  induction hd generalizing branch' owners' m' with
  | genesis =>
    generalize hk : Block.genesis.hash = k at hd'
    cases hd' with
    | genesis => exact ⟨rfl, rfl, rfl⟩
    | child _ hb ha => exact absurd hk (hgenesis hb ha)
  | @child b now branch owners pm hp hb ha ih =>
    generalize hk : b.hash = k at hd'
    cases hd' with
    | genesis => exact absurd hk.symm (hgenesis hb ha)
    | @child b' now' branch' owners' pm' hp' hb' ha' =>
      have hhead := cf.header_eq (.inr ⟨now, hb⟩) (.inr ⟨now', hb'⟩) hk
      rw [← hhead] at hp'
      obtain ⟨rfl, rfl, rfl⟩ := ih hp'
      have hmeta : Chain.childMeta pm b = Chain.childMeta pm b' := by simp only [Chain.childMeta, hhead]
      rw [hmeta]
      exact ⟨rfl, cf.claims_eq ⟨now, hb⟩ ⟨now', hb'⟩ ha.sound ha'.sound hhead _ _, rfl⟩

end Derives
end
end SpiritChat
