import SpiritChat.Theorems.BlockTree
import SpiritChat.Theorems.Mirror

/-! # Where known hashes come from

A store is given blocks, pruned, closed and reopened, and any of its writes may fail. Whatever it knows is one of
those blocks, so a new block that extends its tip is not known to it yet. -/

namespace SpiritChat
open Lib

section
variable {F : Type} [Float64 F] [Primitives] {blocks : Block → Prop} {root h : Hash32} {b : Block} {now : ℕ}

namespace Chain
variable {c c' : Chain F} {m mr tm : BlockMeta F}

/-- Every known hash is that of a given block, and so is its height and, the root apart, its parent. -/
def Described (blocks : Block → Prop) (root : Hash32) (c : Chain F) : Prop :=
  ∀ h m, c.metas h = some m → ∃ b, (b = .genesis ∨ blocks b) ∧ b.hash = h ∧ m.height = b.header.height.toNat ∧
    (h ≠ root → m.prevHash = b.header.prevHash)

/-- A chain with the invariant, whose tip is the best of what it was given. -/
structure Sourced (blocks : Block → Prop) (c : Chain F) : Prop where
  inv : ∃ root, Inv root c ∧ Described blocks root c
  best : c.Best

omit [Float64 F] in
theorem Described.insert (d : Described blocks root c) (hb : b = .genesis ∨ blocks b)
    (hmetas : c'.metas = c.metas.insert b.hash m) (hm : m.Describes b) : Described blocks root c' := by
  intro k mk hk
  rw [hmetas] at hk
  rcases Table.insert_eq_some.mp hk with ⟨rfl, rfl⟩ | ⟨-, hk⟩
  · exact ⟨b, hb, rfl, hm.height, fun _ => hm.prevHash⟩
  · exact d k mk hk

namespace Sourced

theorem tryApply (src : Sourced blocks c) (hb : b = .genesis ∨ blocks b) (hz : b.hash ≠ .zero) (now : ℕ) :
    Sourced blocks (c.tryApply b now).1 := by
  obtain ⟨⟨root, inv, d⟩, best⟩ := src
  refine ⟨⟨root, inv.tryApply hz now, ?_⟩, best.tryApply inv hz now⟩
  have happ := inv.tryApply_applied hz now
  generalize (c.tryApply b now).1 = c' at happ
  generalize (c.tryApply b now).2 = r at happ
  cases happ with
  | known => exact d
  | rejected => exact d
  | fork => exact d.insert hb rfl childMeta_describes
  | tip => exact d.insert hb rfl childMeta_describes

theorem replayFrom (src : Sourced blocks c) (hnz : ∀ b, b = .genesis ∨ blocks b → b.hash ≠ .zero) {disk : Disk F}
    (hdisk : ∀ h b, disk.blocks h = some b → b = .genesis ∨ blocks b) {fuel n : ℕ}
    (hr : disk.replayFrom fuel c n = .ok c') : Sourced blocks c' := by
  induction fuel generalizing c n with
  | zero => cases hr
  | succ fuel ih =>
    unfold Disk.replayFrom at hr
    rcases hn : disk.canonicalHeights n with _ | hash
    · rw [hn] at hr
      cases hr
      exact src
    · rw [hn] at hr
      obtain ⟨b, hb, hr⟩ := except_bind_eq_ok.mp hr
      obtain ⟨c₁, hc₁, hr⟩ := except_bind_eq_ok.mp hr
      obtain ⟨rfl, -⟩ := replayBlock_eq_ok.mp hc₁
      have hgiven := hdisk hash b (Exec.ofOption_eq_ok.mp hb)
      exact ih (src.tryApply hgiven (hnz b hgiven) _) hr

end Sourced

/-- No known block is below the root. -/
theorem Inv.root_le (inv : Inv root c) (hroot : c.metas root = some mr) (hm : c.metas h = some m) :
    mr.height ≤ m.height := by
  induction hn : m.height using Nat.strong_induction_on generalizing h m with
  | _ n ih =>
    by_cases hr : h = root
    · obtain rfl := Option.some.inj ((hr ▸ hroot).symm.trans hm)
      exact hn.le
    · obtain ⟨p, hp, hheight, -⟩ := inv.parents h m hm hr
      have := ih p.height (by omega) hp rfl
      omega

/-- A block on top of the tip is not known, for it outweighs the tip. -/
theorem Sourced.new_of_extends (src : Sourced blocks c) (cf : CollisionFree fun x => blocks x ∨ x = b)
    (pos : ∀ (w : F) t, w < w + workOf t) (hprev : b.header.prevHash = c.tipHash) {height : ℕ}
    (ht : c.tipHeight = .ok height) (hheight : b.header.height.toNat = height + 1) : c.metas b.hash = none := by
  obtain ⟨⟨root, inv, d⟩, tm, htm, hbest⟩ := src
  have htip : tm.height = height := by
    simp only [tipHeight, htm, Exec.expect_some, Exec.ok_bind] at ht
    exact Except.ok.inj ht
  by_contra hk
  obtain ⟨m, hm⟩ := Option.ne_none_iff_exists'.mp hk
  obtain ⟨b', hb', hhash, hm₁, hm₂⟩ := d b.hash m hm
  have hheader : b'.header = b.header := cf.header_eq (hb'.imp_right .inl) (.inr (.inr rfl)) hhash
  rw [hheader, hheight, ← htip] at hm₁
  by_cases hr : b.hash = root
  · -- The root is not above the tip.
    have := inv.root_le (hr ▸ hm) htm
    omega
  · obtain ⟨p, hp, -, hwork⟩ := inv.parents _ m hm hr
    rw [hm₂ hr, hheader, hprev] at hp
    obtain rfl := Option.some.inj (htm.symm.trans hp)
    have hlt := pos tm.cumulativeWork m.difficultyTarget
    rw [← hwork] at hlt
    exact absurd (hbest _ m hm) (not_le.mpr hlt)

end Chain

namespace Disk
variable {disk : Disk F}

/-- The bodies in the file and the hash of its checkpoint are those of given blocks. -/
structure Sourced (blocks : Block → Prop) (disk : Disk F) : Prop where
  bodies : ∀ h b, disk.blocks h = some b → b = .genesis ∨ blocks b
  checkpoint : ∀ cp, disk.checkpoint = some cp →
    ∃ b, (b = .genesis ∨ blocks b) ∧ b.hash = cp.hash ∧ cp.height = b.header.height.toNat

omit [Float64 F] in
theorem Sourced.empty : (Disk.empty : Disk F).Sourced blocks := ⟨fun _ _ hb => (by cases hb), fun _ hcp => (by cases hcp)⟩

omit [Float64 F] in
theorem Sourced.persisted (src : Sourced blocks disk) (hb : b = .genesis ∨ blocks b) {c : Chain F} {m : BlockMeta F}
    {l : List Hash32} {n : ℕ} : Sourced blocks (disk.persisted c h b m l n) where
  bodies := by
    intro k b' hk
    rcases Table.insert_eq_some.mp hk with ⟨-, rfl⟩ | ⟨-, hk⟩
    · exact hb
    · exact src.bodies k b' hk
  checkpoint := src.checkpoint

theorem Sourced.start (src : Sourced blocks disk) (hnz : ∀ b, b = .genesis ∨ blocks b → b.hash ≠ .zero) :
    disk.start.Sourced blocks := by
  refine ⟨?_, disk.start_best⟩
  cases hcp : disk.checkpoint with
  | none =>
    simp only [Disk.start, hcp]
    refine ⟨_, .new (hnz _ (.inl rfl)), fun h m hm => ?_⟩
    rcases Table.insert_eq_some.mp hm with ⟨rfl, rfl⟩ | ⟨-, hm⟩
    · exact ⟨_, .inl rfl, rfl, rfl, fun hne => absurd rfl hne⟩
    · cases hm
  | some cp =>
    obtain ⟨b, hb, hhash, hheight⟩ := src.checkpoint cp hcp
    simp only [Disk.start, hcp]
    refine ⟨_, .fromCheckpoint (hhash ▸ hnz b hb), fun h m hm => ?_⟩
    rcases Table.insert_eq_some.mp hm with ⟨rfl, rfl⟩ | ⟨-, hm⟩
    · exact ⟨b, hb, hhash, hheight, fun hne => absurd rfl hne⟩
    · cases hm

end Disk

namespace ChainStore
variable {s s' : ChainStore F}

/-- The states of a store from a new file on, whatever becomes of its writes. -/
inductive Used (blocks : Block → Prop) : ChainStore F → Prop
  | opened {s : ChainStore F} {tables genesis : Commit} : openAt Disk.empty tables genesis = .ok s → Used blocks s
  | tryApply {s : ChainStore F} {b : Block} (now : ℕ) (commit : Commit) : Used blocks s → blocks b →
      Used blocks (s.tryApply b now commit).1
  | pruned {s : ChainStore F} (retention : ℕ) (commit₁ commit₂ : Commit) : Used blocks s →
      Used blocks (s.pruneWithRetention retention commit₁ commit₂).1
  | reopened {s s' : ChainStore F} {tables genesis : Commit} : Used blocks s → openAt s.disk tables genesis = .ok s' →
      Used blocks s'

theorem sourced_of_openAt (hnz : ∀ b, b = .genesis ∨ blocks b → b.hash ≠ .zero) {disk : Disk F}
    (src : disk.Sourced blocks) {tables genesis : Commit} (ho : openAt disk tables genesis = .ok s) :
    s.chain.Sourced blocks ∧ s.disk.Sourced blocks := by
  have hz : Block.genesis.hash ≠ .zero := hnz _ (.inl rfl)
  cases tables with
  | error reason => cases ho
  | ok _ =>
    simp only [openAt, Disk.commit] at ho
    rcases htip : disk.tipHash with _ | tip
    · rw [htip] at ho
      have hnew : (Chain.new : Chain F).Sourced blocks :=
        Disk.Sourced.empty.start hnz
      have inv : Chain.Inv Block.genesis.hash (Chain.new : Chain F) := .new hz
      have hl : (Chain.new : Chain F).Descends (Chain.new : Chain F).tipHash [Block.genesis.hash] := .floor
      have hm : (Chain.new : Chain F).metas Block.genesis.hash = some (genesisMeta F) := Table.insert_self
      simp only [persistAfterApply_eq (s := { disk, chain := .new }) inv hm hl genesis] at ho
      cases genesis with
      | error reason => cases ho
      | ok _ =>
        cases ho
        exact ⟨hnew, src.persisted (.inl rfl)⟩
    · rw [htip] at ho
      obtain ⟨c, hc, ho⟩ := except_bind_eq_ok.mp ho
      cases ho
      exact ⟨(src.start hnz).replayFrom hnz src.bodies hc, src⟩

theorem Used.sourced (hs : Used blocks s) (hnz : ∀ b, b = .genesis ∨ blocks b → b.hash ≠ .zero) :
    s.chain.Sourced blocks ∧ s.disk.Sourced blocks := by
  induction hs with
  | opened ho => exact sourced_of_openAt hnz .empty ho
  | @tryApply s b now commit _ hb ih =>
    obtain ⟨src, srcd⟩ := ih
    obtain ⟨root, inv, -⟩ := src.inv
    have hz := hnz b (.inr hb)
    have hchain := src.tryApply (.inr hb) hz now
    have happ := tryApply_applied inv hz now commit
    generalize s.tryApply b now commit = r at happ
    cases happ with
    | known => exact ⟨src, srcd⟩
    | rejected => exact ⟨src, srcd⟩
    | persisted => exact ⟨hchain, srcd.persisted (.inr hb)⟩
    | lost => exact ⟨hchain, srcd⟩
  | @pruned s retention commit₁ commit₂ _ ih =>
    obtain ⟨src, srcd⟩ := ih
    obtain ⟨root, inv, d⟩ := src.inv
    have hp := pruneWithRetention_pruned inv retention commit₁ commit₂
    generalize s.pruneWithRetention retention commit₁ commit₂ = r at hp
    cases hp with
    | kept => exact ⟨src, srcd⟩
    | unsaved => exact ⟨src, srcd⟩
    | @floored height l₁ l₂ g m _ hlt hlen hl hm =>
      refine ⟨⟨⟨root, inv.raiseFloor hlt hlen hl, d⟩, src.best⟩, ?_⟩
      have hcp : ∀ cp, some (checkpointOf g m (s.chain.ownersOn (l₁ ++ [g]))) = some cp →
          ∃ b, (b = .genesis ∨ blocks b) ∧ b.hash = cp.hash ∧ cp.height = b.header.height.toNat := by
        rintro _ ⟨⟩
        obtain ⟨b, hb, hhash, hheight, -⟩ := d g m hm
        exact ⟨b, hb, hhash, hheight⟩
      cases commit₂ with
      | ok _ =>
        refine ⟨fun k b hk => ?_, hcp⟩
        change s.disk.blocks.retain (fun _ block => height < block.header.height.toNat) k = some b at hk
        exact srcd.bodies k b (Table.retain_eq_some.mp hk).1
      | error _ => exact ⟨srcd.bodies, hcp⟩
  | reopened _ ho ih => exact sourced_of_openAt hnz ih.2 ho

end ChainStore
end
end SpiritChat
