import SpiritChat.Ledger.Exact
import SpiritChat.Theorems.ChainInv

/-! # Reachable chains

A chain starts from genesis or from a checkpoint, takes blocks and moves its floor. Every chain reached so
keeps the invariant, hence a call of `try_apply` that fails changes nothing. -/

namespace SpiritChat
open Lib

namespace Chain
variable {F : Type} {c : Chain F} {root h : Hash32} {l : List Hash32} {b : Block}

/-! ### The start -/

theorem descends_floor_of_single {m : BlockMeta F} (hm : c.metas = Table.empty.insert c.floorHash m)
    (hl : c.Descends h l) : h = c.floorHash := by
  by_contra hne
  obtain ⟨p, -, hp, -, -⟩ := hl.exists_child hne
  obtain ⟨m', q, hm', rfl, hq⟩ := parentOf_eq_some.mp hp
  rw [hm] at hm' hq
  rcases Table.insert_eq_some.mp hm' with ⟨rfl, -⟩ | ⟨-, h0⟩
  · exact hne rfl
  · cases h0

section
variable [Float64 F] [Primitives]

/-- A chain that only knows its floor. -/
theorem Inv.single {m : BlockMeta F} (hm : c.metas = Table.empty.insert c.floorHash m) (hz : c.floorHash ≠ .zero)
    (hprev : m.prevHash = .zero) (hheight : m.height = c.floorHeight)
    (hstored : ∀ h b, c.blocks h = some b → h = c.floorHash ∧ b.hash = h ∧ m.Describes b)
    (htip : c.tipHash = c.floorHash) (hidx : c.canonicalIndex = Table.empty.insert c.floorHeight c.floorHash)
    (howner : c.usernameOwner = c.floorUsernameOwner) : Inv c.floorHash c where
  zero := by rw [hm, Table.insert_of_ne (Ne.symm hz), Table.empty_apply]
  rootMeta := ⟨m, by rw [hm, Table.insert_self], hprev⟩
  parents := by
    intro k mk hk hne
    rw [hm, Table.insert_of_ne hne] at hk
    cases hk
  floor := ⟨m, by rw [hm, Table.insert_self], hheight⟩
  stored := by
    intro k b hb
    obtain ⟨rfl, h1, h2⟩ := hstored k b hb
    exact ⟨h1, m, by rw [hm, Table.insert_self], h2⟩
  bodies := fun h l hl hne => absurd (descends_floor_of_single hm hl) hne
  tip := by
    refine ⟨[c.floorHash], by rw [htip]; exact .floor, fun n hn => ?_, howner⟩
    rw [hidx]
    by_cases hn' : n = c.floorHeight
    · subst hn'
      simp
    · rw [Table.insert_of_ne hn', Table.empty_apply, List.getElem?_eq_none]
      rw [List.length_singleton]
      omega

theorem metas_new : (Chain.new : Chain F).metas Block.genesis.hash = some (genesisMeta F) := Table.insert_self

theorem metas_new_of_ne (hne : h ≠ Block.genesis.hash) : (Chain.new : Chain F).metas h = none := Table.insert_of_ne hne

theorem Inv.new (hz : Block.genesis.hash ≠ .zero) : Inv Block.genesis.hash (Chain.new : Chain F) := by
  refine Inv.single (c := Chain.new) rfl hz rfl rfl (fun k b hb => ?_) rfl rfl rfl
  rcases Table.insert_eq_some.mp hb with ⟨rfl, rfl⟩ | ⟨-, hb⟩
  · exact ⟨rfl, rfl, rfl, rfl, rfl, rfl⟩
  · cases hb

theorem Inv.fromCheckpoint {cp : Checkpoint F} (hz : cp.hash ≠ .zero) : Inv cp.hash (Chain.fromCheckpoint cp) :=
  Inv.single (c := Chain.fromCheckpoint cp) rfl hz rfl rfl (fun _ _ hb => by cases hb) rfl rfl rfl

/-! ### Pruning -/

/-- The chain with its floor moved up to `g`. -/
def raiseFloor (c : Chain F) (height : ℕ) (g : Hash32) (owners : Owners) : Chain F :=
  { c with
    blocks := c.blocks.retain fun _ block => height < block.header.height.toNat
    floorUsernameOwner := owners
    floorHash := g
    floorHeight := height }

/-- The ways a call of `prune_bodies_up_to` can go: it does not fail. -/
inductive Pruned (c : Chain F) (height : ℕ) : Chain F × Ledger Unit → Prop
  | kept : height ≤ c.floorHeight ∨ c.canonicalIndex height = none → Pruned c height (c, .ok ())
  | moved {l₁ l₂ : List Hash32} {g : Hash32} : c.floorHeight < height → l₁.length = height - c.floorHeight →
      c.Descends c.tipHash (l₁ ++ g :: l₂) → Pruned c height (c.raiseFloor height g (c.ownersOn (l₁ ++ [g])), .ok ())

theorem Inv.prune_pruned (inv : Inv root c) (height : ℕ) : c.Pruned height (c.pruneBodiesUpTo height) := by
  unfold pruneBodiesUpTo
  by_cases hh : height ≤ c.floorHeight
  · rw [if_pos hh]
    exact .kept (Or.inl hh)
  · rw [if_neg hh]
    obtain ⟨l, hl, hidx, -⟩ := inv.tip
    cases hg : c.canonicalIndex height with
    | none => exact .kept (Or.inr hg)
    | some g =>
      rw [hidx height (by omega)] at hg
      obtain ⟨hlt, rfl⟩ := List.getElem?_eq_some_iff.mp hg
      have hsplit := List.take_append_drop (height - c.floorHeight) l
      rw [List.drop_eq_getElem_cons hlt] at hsplit
      rw [← hsplit] at hl
      simp only [inv.stateAt_eq hl.of_append]
      exact .moved (by omega) (List.length_take_of_le (by omega)) hl

namespace Inv
variable {height : ℕ} {l₁ l₂ : List Hash32} {g : Hash32}

/-- What descends from the new floor descends from the old one. -/
theorem descends_of_raised (inv : Inv root c) (hg : c.Descends g (l₁ ++ [g])) (hl : Lineage c.parentOf g h (g :: l)) :
    c.Descends h (l₁ ++ g :: l) := hg.trans_of_height inv.rooted.graded hl

/-- The new floor is at the height asked for. -/
theorem heightOf_raised (inv : Inv root c) (hlt : c.floorHeight < height) (hlen : l₁.length = height - c.floorHeight)
    (hg : c.Descends g (l₁ ++ [g])) : c.heightOf g = height := by
  rw [inv.rooted.heightOf_getElem? hg (i := l₁.length) (by simp), hlen]
  omega

/-- A block above the new floor keeps its body. -/
theorem blocks_raised (inv : Inv root c) (hlt : c.floorHeight < height) (hlen : l₁.length = height - c.floorHeight)
    (hg : c.Descends g (l₁ ++ [g])) (hl : Lineage c.parentOf g h (g :: l)) (hne : h ≠ g) {owners : Owners} :
    (c.raiseFloor height g owners).blocks h = c.blocks h ∧ (c.blocks h).isSome := by
  have hl' := inv.descends_of_raised hg hl
  have hgt : height < c.heightOf h := by
    have h1 := hl.length_eq inv.rooted.graded
    have h2 := inv.heightOf_raised hlt hlen hg
    have h3 : l ≠ [] := by
      rintro rfl
      have := hl.getLast?
      simp only [List.getLast?_singleton, Option.some.injEq] at this
      exact hne this.symm
    have h4 := List.length_pos_iff.mpr h3
    rw [List.length_cons] at h1
    omega
  have hfloor : h ≠ c.floorHash := by
    rintro rfl
    rw [inv.rooted.heightOf_floor] at hgt
    omega
  obtain ⟨b, m, hb, -, hm, hd⟩ := inv.body_of_descends hl' hfloor
  rw [heightOf_eq hm, hd.height] at hgt
  refine ⟨?_, by simp [hb]⟩
  show c.blocks.retain (fun _ block => height < block.header.height.toNat) h = c.blocks h
  rw [hb, Table.retain_eq_some]
  exact ⟨hb, by simpa using hgt⟩

/-- The owners along a path from the new floor are those along the whole path. -/
theorem ownersOn_raised (inv : Inv root c) (hlt : c.floorHeight < height) (hlen : l₁.length = height - c.floorHeight)
    (hg : c.Descends g (l₁ ++ [g])) (hl : Lineage c.parentOf g h (g :: l)) :
    (c.raiseFloor height g (c.ownersOn (l₁ ++ [g]))).ownersOn (g :: l) = c.ownersOn (l₁ ++ g :: l) := by
  have hne : l₁ ≠ [] := by
    rintro rfl
    simp only [List.length_nil] at hlen
    omega
  have hwhole : c.ownersOn (l₁ ++ g :: l) = replay c.blocks (c.ownersOn (l₁ ++ [g])) l := by
    unfold ownersOn
    rw [List.tail_append_of_ne_nil hne, List.tail_append_of_ne_nil hne, ← replay_append, List.append_assoc]
    rfl
  rw [hwhole]
  refine replay_congr (fun a ha => ?_) _
  have hnd := hl.nodup
  obtain ⟨l', hl', -⟩ := hl.exists_of_mem (List.mem_cons_of_mem g ha)
  obtain ⟨l'', rfl⟩ := hl'.eq_cons
  exact (inv.blocks_raised hlt hlen hg hl' (fun h => (List.nodup_cons.mp hnd).1 (h ▸ ha))).1

/-- Moving the floor up keeps the invariant. -/
theorem raiseFloor (inv : Inv root c) (hlt : c.floorHeight < height) (hlen : l₁.length = height - c.floorHeight)
    (hl : c.Descends c.tipHash (l₁ ++ g :: l₂)) :
    Inv root (c.raiseFloor height g (c.ownersOn (l₁ ++ [g]))) where
  zero := inv.zero
  rootMeta := inv.rootMeta
  parents := inv.parents
  floor := by
    have hg := hl.of_append
    obtain ⟨m, hm⟩ := Option.isSome_iff_exists.mp (inv.known hg g hg.mem_self)
    exact ⟨m, hm, by rw [← heightOf_eq hm]; exact inv.heightOf_raised hlt hlen hg⟩
  stored := by
    intro k b hb
    have hb' : c.blocks.retain (fun _ block => height < block.header.height.toNat) k = some b := hb
    exact inv.stored k b (Table.retain_eq_some.mp hb').1
  bodies := by
    intro k l hk hne
    obtain ⟨l', rfl⟩ := hk.eq_cons
    obtain ⟨heq, hsome⟩ := inv.blocks_raised hlt hlen hl.of_append hk hne
    rw [heq]
    exact hsome
  tip := by
    obtain ⟨l, hl', hidx, hown⟩ := inv.tip
    obtain rfl := hl.unique hl'
    refine ⟨g :: l₂, hl.raise, fun n hn => ?_, ?_⟩
    · change height ≤ n at hn
      show c.canonicalIndex n = (g :: l₂)[n - height]?
      rw [hidx n (by omega), List.getElem?_append_right (by omega)]
      congr 1
      omega
    · rw [inv.ownersOn_raised hlt hlen hl.of_append hl.raise]
      exact hown

/-- `prune_bodies_up_to` keeps the invariant. -/
theorem prune (inv : Inv root c) (height : ℕ) : Inv root (c.pruneBodiesUpTo height).1 := by
  have h := inv.prune_pruned height
  generalize c.pruneBodiesUpTo height = r at h
  cases h with
  | kept => exact inv
  | moved hlt hlen hl => exact inv.raiseFloor hlt hlen hl

end Inv

/-! ### Every reachable chain -/

/-- A chain that started at `root`. No start and no block has the hash that marks a missing parent. -/
inductive Reachable : Hash32 → Chain F → Prop
  | new : Block.genesis.hash ≠ .zero → Reachable Block.genesis.hash Chain.new
  | fromCheckpoint {cp : Checkpoint F} : cp.hash ≠ .zero → Reachable cp.hash (Chain.fromCheckpoint cp)
  | tryApply {root : Hash32} {c : Chain F} (b : Block) (now : ℕ) : Reachable root c → b.hash ≠ .zero →
      Reachable root (c.tryApply b now).1
  | prune {root : Hash32} {c : Chain F} (height : ℕ) : Reachable root c → Reachable root (c.pruneBodiesUpTo height).1

theorem Reachable.inv (hc : Reachable root c) : Inv root c := by
  induction hc with
  | new hz => exact .new hz
  | fromCheckpoint hz => exact .fromCheckpoint hz
  | tryApply b now _ hz ih => exact ih.tryApply hz now
  | prune height _ ih => exact ih.prune height

/-- The invariant in the words of the chain's own functions. -/
structure Consistent (root : Hash32) (c : Chain F) : Prop where
  /-- An entry is one higher than its parent's and adds its own work. -/
  parents : ∀ h m, c.metas h = some m → h ≠ root → ∃ p, c.metas m.prevHash = some p ∧ m.height = p.height + 1 ∧
    m.cumulativeWork = p.cumulativeWork + workOf m.difficultyTarget
  /-- What descends from the floor has its body, the floor itself apart. -/
  bodies : ∀ h path, c.ancestors h = .ok path → h ≠ c.floorHash → (c.blocks h).isSome
  /-- The tip descends from the floor and the index holds its path. -/
  index : ∃ path, c.ancestors c.tipHash = .ok path ∧
    ∀ n, c.floorHeight ≤ n → c.canonicalIndex n = path[n - c.floorHeight]?
  owners : c.stateAt c.tipHash = .ok c.usernameOwner

theorem Inv.consistent (inv : Inv root c) : Consistent root c where
  parents := inv.parents
  bodies := fun h path hp hne => inv.bodies h path (inv.rooted.ancestors_eq_ok.mp hp) hne
  index := by
    obtain ⟨l, hl, hidx, -⟩ := inv.tip
    exact ⟨l, inv.rooted.ancestors_eq_ok.mpr hl, hidx⟩
  owners := by
    obtain ⟨l, hl, -, hown⟩ := inv.tip
    rw [inv.stateAt_eq hl, hown]

/-- A new block that validates can be made the tip. -/
theorem Inv.setCanonicalTip_stored (inv : Inv root c) (hz : b.hash ≠ .zero) {now : ℕ} (hnew : c.metas b.hash = none)
    (hv : validateBlock c b now = .ok ()) {pm : BlockMeta F} (hpm : c.metas b.header.prevHash = some pm) :
    ((c.accepted b pm).setCanonicalTip b.hash).2 = .ok () := by
  obtain ⟨pm', l, a⟩ := inv.accepts_of_validateBlock hnew hv
  obtain rfl : pm = pm' := Option.some.inj (hpm.symm.trans a.parent)
  rw [(a.inv inv hz).setCanonicalTip_eq (a.descends inv hz)]

theorem Inv.tryApply_error (inv : Inv root c) (hz : b.hash ≠ .zero) {now : ℕ} {e : Fault LedgerError}
    (he : (c.tryApply b now).2 = .error e) : (c.tryApply b now).1 = c := by
  have h := inv.tryApply_applied hz now
  rw [he] at h
  generalize (c.tryApply b now).1 = c' at h
  cases h with
  | rejected => rfl

/-- Every reachable chain is consistent; once `try_apply` has stored a block it does not fail, and when it
fails the chain is as it was. -/
theorem reachable_consistent (hc : Reachable root c) :
    Consistent root c ∧
    (∀ (b : Block) (now : ℕ) (pm : BlockMeta F), b.hash ≠ .zero → c.metas b.hash = none →
      validateBlock c b now = .ok () → c.metas b.header.prevHash = some pm →
      ((c.store b.hash (childMeta pm b) b).setCanonicalTip b.hash).2 = .ok ()) ∧
    (∀ (b : Block) (now : ℕ) (e : Fault LedgerError), b.hash ≠ .zero → (c.tryApply b now).2 = .error e →
      (c.tryApply b now).1 = c) :=
  ⟨hc.inv.consistent, fun _ _ _ hz hnew hv hpm => hc.inv.setCanonicalTip_stored hz hnew hv hpm,
    fun _ _ _ hz he => hc.inv.tryApply_error hz he⟩

end

attribute [local instance] unsigned in
theorem reachable_consistent_pruned :
    Consistent Block.genesis.hash (((Chain.new : Chain ℚ).tryApply firstBlock minedAt).1.pruneBodiesUpTo 1).1 :=
  (reachable_consistent (.prune 1 (.tryApply firstBlock minedAt (.new (by decide +kernel)) (by decide +kernel)))).1

end Chain
end SpiritChat
