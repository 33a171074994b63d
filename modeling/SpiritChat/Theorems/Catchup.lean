import SpiritChat.P2p.ChainSync
import SpiritChat.Theorems.Restart

/-! # What one round of chain sync achieves

The requester asks for the heights above its own tip. It can use the answer exactly when it already knows the
peer's canonical block at that tip's height. -/

namespace SpiritChat
open Lib

theorem mapM_eq_some {α β : Type} {f : α → Option β} {xs : List α} {ys : List β} :
    xs.mapM f = some ys ↔ List.Forall₂ (fun x y => f x = some y) xs ys := by
  induction xs generalizing ys with
  | nil =>
    rw [List.forall₂_nil_left_iff, List.mapM_nil]
    exact ⟨fun h => (Option.some.inj h).symm, fun h => h ▸ rfl⟩
  | cons x xs ih =>
    rw [List.mapM_cons, List.forall₂_cons_left_iff]
    constructor
    · intro h
      obtain ⟨y, hy, h⟩ := Option.bind_eq_some_iff.mp h
      obtain ⟨ys', hys, h⟩ := Option.bind_eq_some_iff.mp h
      exact ⟨y, ys', hy, ih.mp hys, (Option.some.inj h).symm⟩
    · rintro ⟨y, ys', hy, hys, rfl⟩
      exact Option.bind_eq_some_iff.mpr ⟨y, hy, Option.bind_eq_some_iff.mpr ⟨ys', ih.mpr hys, rfl⟩⟩

theorem exists_mapM {α β : Type} {f : α → Option β} {xs : List α} (h : ∀ x ∈ xs, ∃ y, f x = some y) :
    ∃ ys, xs.mapM f = some ys := by
  simp only [mapM_eq_some]
  induction xs with
  | nil => exact ⟨[], .nil⟩
  | cons x xs ih =>
    obtain ⟨y, hy⟩ := h x List.mem_cons_self
    obtain ⟨ys, hys⟩ := ih fun x hx => h x (List.mem_cons_of_mem _ hx)
    exact ⟨y :: ys, .cons hy hys⟩

theorem exists_of_mem_mapM {α β : Type} {f : α → Option β} {xs : List α} {ys : List β} (h : xs.mapM f = some ys) {y : β}
    (hy : y ∈ ys) : ∃ x ∈ xs, f x = some y := by
  obtain ⟨i, hlt, rfl⟩ := List.mem_iff_getElem.mp hy
  have hall := mapM_eq_some.mp h
  have hlt' : i < xs.length := hall.length_eq ▸ hlt
  exact ⟨xs[i], List.getElem_mem hlt', hall.get hlt' hlt⟩

theorem exists_mem_of_mapM {α β : Type} {f : α → Option β} {xs : List α} {ys : List β} (h : xs.mapM f = some ys) {x : α}
    (hx : x ∈ xs) : ∃ y ∈ ys, f x = some y := by
  obtain ⟨i, hlt, rfl⟩ := List.mem_iff_getElem.mp hx
  have hall := mapM_eq_some.mp h
  have hlt' : i < ys.length := hall.length_eq ▸ hlt
  exact ⟨ys[i], List.getElem_mem hlt', hall.get hlt hlt'⟩

section
variable {F : Type} [Float64 F] [Primitives] {blocks : Block → Prop}

namespace Chain
variable {c c' : Chain F} {b : Block} {now : ℕ} {h k p : Hash32} {l : List Hash32} {m : BlockMeta F}

/-- A chain that was never cut off and holds nothing but some blocks and genesis. -/
structure Whole (blocks : Block → Prop) (c : Chain F) : Prop where
  grown : Grown (fun b _ => b = .genesis ∨ blocks b) c
  vetted : Vetted c
  bodies : ∀ h b, c.blocks h = some b → b = .genesis ∨ blocks b

theorem collisionFree_known (cf : CollisionFree blocks) : CollisionFree fun b => ∃ _ : ℕ, b = .genesis ∨ blocks b where
  injective := by
    refine cf.injective.mono ?_
    rintro x ⟨b, hb | ⟨-, hb⟩, hx⟩
    · exact ⟨b, .inl hb, hx⟩
    · exact ⟨b, hb, hx⟩
  nonzero := by
    rintro b (hb | ⟨-, hb⟩)
    · exact cf.nonzero b (.inl hb)
    · exact cf.nonzero b hb

namespace Whole

theorem new (hz : Block.genesis.hash ≠ .zero) : Whole blocks (Chain.new : Chain F) where
  grown := .new hz
  vetted := .new hz
  bodies := by
    intro h b hb
    rcases Table.insert_eq_some.mp hb with ⟨-, rfl⟩ | ⟨-, hb⟩
    · exact Or.inl rfl
    · cases hb

theorem tryApply (w : Whole blocks c) (cf : CollisionFree blocks) (hb : b = .genesis ∨ blocks b) (now : ℕ) :
    Whole blocks (c.tryApply b now).1 where
  grown := w.grown.tryApply (cf.nonzero b hb) hb
  vetted := w.vetted.tryApply w.grown.inv (cf.nonzero b hb) now
  bodies := by
    have ha := w.grown.inv.tryApply_applied (cf.nonzero b hb) now
    have hins : ∀ h b', c.blocks.insert b.hash b h = some b' → b' = .genesis ∨ blocks b' := by
      intro h b' hb'
      rcases Table.insert_eq_some.mp hb' with ⟨-, rfl⟩ | ⟨-, hb'⟩
      · exact hb
      · exact w.bodies h b' hb'
    generalize (c.tryApply b now).1 = c' at ha
    generalize (c.tryApply b now).2 = r at ha
    cases ha with
    | known => exact w.bodies
    | rejected => exact w.bodies
    | fork => exact hins
    | tip => exact hins

/-- Replaying bodies of those blocks. -/
theorem replayFrom (w : Whole blocks c) (cf : CollisionFree blocks) {disk : Disk F}
    (hdisk : ∀ h b, disk.blocks h = some b → b = .genesis ∨ blocks b) {fuel n : ℕ}
    (hr : disk.replayFrom fuel c n = .ok c') : Whole blocks c' := by
  induction fuel generalizing c n with
  | zero => cases hr
  | succ fuel ih =>
    unfold Disk.replayFrom at hr
    rcases hn : disk.canonicalHeights n with _ | hash
    · rw [hn] at hr
      cases hr
      exact w
    · rw [hn] at hr
      obtain ⟨b, hb, hr⟩ := except_bind_eq_ok.mp hr
      obtain ⟨c₁, hc₁, hr⟩ := except_bind_eq_ok.mp hr
      obtain ⟨rfl, -⟩ := replayBlock_eq_ok.mp hc₁
      exact ih (w.tryApply cf (hdisk hash b (Exec.ofOption_eq_ok.mp hb)) _) hr

/-! ### Two chains made of the same blocks -/

theorem meta_eq (w : Whole blocks c) (w' : Whole blocks c') (cf : CollisionFree blocks) (hk : (c.metas h).isSome)
    (hk' : (c'.metas h).isSome) : c.metas h = c'.metas h := by
  obtain ⟨l, hl⟩ := w.grown.line h hk
  obtain ⟨l', hl'⟩ := w'.grown.line h hk'
  exact (w.grown.agree (collisionFree_known cf) w'.grown hl hl').1

/-- The parent of a known hash is known. -/
theorem parent_known (w : Whole blocks c) (w' : Whole blocks c') (cf : CollisionFree blocks)
    (hp : c'.parentOf k = some p) (hk : (c.metas k).isSome) : (c.metas p).isSome := by
  obtain ⟨m, q, hm, rfl, hq⟩ := parentOf_eq_some.mp hp
  have hm' := (w.meta_eq w' cf hk (by simp [hm])).trans hm
  rcases w.grown.inv.prevHash_known hm' with hz | hknown
  · rw [hz, w'.grown.inv.zero] at hq
    cases hq
  · exact hknown

/-- A block of one chain is taken in by another one that knows its parent, once its timestamp is due. -/
theorem known_of_parent (w : Whole blocks c) (w' : Whole blocks c') (cf : CollisionFree blocks)
    (hb : c'.blocks k = some b) (hpar : c'.parentOf k = some p) (hp : (c.metas p).isSome)
    (hdue : b.header.timestamp.toNat ≤ now + maxFutureDriftSecs) : ((c.tryApply b now).1.metas k).isSome := by
  obtain ⟨rfl, m, hm, hd⟩ := w'.grown.inv.stored k b hb
  obtain ⟨m', pm, hm', rfl, hpm⟩ := parentOf_eq_some.mp hpar
  obtain rfl : m = m' := Option.some.inj (hm.symm.trans hm')
  obtain ⟨l, hl⟩ := w'.grown.line m.prevHash (by simp [hpm])
  have hadm := w'.vetted.readmits_of_root w'.grown.inv w'.grown.floor.1 b.hash _ l b hl hpar hb
  rw [ancestorOf_eq hpm] at hadm
  rw [hd.prevHash] at hl hpm hadm hp
  exact w.grown.known_of_derives (collisionFree_known cf) (w'.grown.derives _ l pm hl hpm) hp (w'.bodies _ b hb)
    { hadm with drift := hdue }

/-- The canonical path, by heights. -/
theorem exists_path (w : Whole blocks c) :
    ∃ l, c.Descends c.tipHash l ∧ c.tipHeight = .ok (l.length - 1) ∧ ∀ n, c.canonicalIndex n = l[n]? := by
  obtain ⟨l, hl, hidx, -⟩ := w.grown.inv.tip
  have hheight := w.grown.inv.tipHeight_eq hl
  rw [w.grown.floor.2, Nat.zero_add] at hheight
  refine ⟨l, hl, hheight, fun n => ?_⟩
  rw [hidx n (by rw [w.grown.floor.2]; exact n.zero_le), w.grown.floor.2, Nat.sub_zero]

/-- Neighbours on the canonical path. -/
theorem canonical_next (w : Whole blocks c) {n : ℕ} (hp : c.canonicalIndex n = some p)
    (hk : c.canonicalIndex (n + 1) = some k) : c.parentOf k = some p := by
  obtain ⟨l, hl, -, hidx⟩ := w.exists_path
  rw [hidx] at hp hk
  obtain ⟨hlt, rfl⟩ := List.getElem?_eq_some_iff.mp hk
  obtain ⟨hlt', rfl⟩ := List.getElem?_eq_some_iff.mp hp
  have hsplit := List.take_append_drop n l
  rw [List.drop_eq_getElem_cons hlt', List.drop_eq_getElem_cons hlt] at hsplit
  rw [Descends, ← hsplit] at hl
  exact hl.parent_of_append.1

/-- The tip is the only canonical block at its height, and no canonical block is above it. -/
theorem canonical_tip (w : Whole blocks c) {t : ℕ} (ht : c.tipHeight = .ok t) (n : ℕ) :
    c.canonicalIndex n = some c.tipHash ↔ n = t := by
  obtain ⟨l, hl, hheight, hidx⟩ := w.exists_path
  obtain rfl := Except.ok.inj (hheight.symm.trans ht)
  have hlast : l[l.length - 1]? = some c.tipHash := by
    rw [← List.getLast?_eq_getElem?]
    exact hl.getLast?
  rw [hidx]
  constructor
  · intro hn
    have hlt := (List.getElem?_eq_some_iff.mp hlast).1
    exact ((List.getElem?_inj hlt hl.nodup).mp (hlast.trans hn.symm)).symm
  · rintro rfl
    exact hlast

theorem exists_canonical (w : Whole blocks c) {t n : ℕ} (ht : c.tipHeight = .ok t) (hn : n ≤ t) :
    ∃ k, c.canonicalIndex n = some k := by
  obtain ⟨l, hl, hheight, hidx⟩ := w.exists_path
  obtain rfl := Except.ok.inj (hheight.symm.trans ht)
  have := List.length_pos_of_ne_nil hl.ne_nil
  exact ⟨l[n], by rw [hidx, List.getElem?_eq_getElem (by omega)]⟩

theorem exists_canonicalBlock (w : Whole blocks c) {n : ℕ} (hn : 0 < n) (hk : c.canonicalIndex n = some k) :
    ∃ b, c.canonicalBlockAt n = some b := by
  obtain ⟨l, hl, -, hidx⟩ := w.exists_path
  rw [hidx] at hk
  obtain ⟨t, rfl⟩ := hl.eq_cons
  obtain ⟨j, rfl⟩ := Nat.exists_eq_add_one_of_ne_zero hn.ne'
  rw [List.getElem?_cons_succ] at hk
  have hmem := List.mem_of_getElem? hk
  have hne : k ≠ c.floorHash := fun he => (List.nodup_cons.mp hl.nodup).1 (he ▸ hmem)
  obtain ⟨b, hb⟩ := Option.isSome_iff_exists.mp (w.grown.inv.bodies_of_descends hl k (List.mem_cons_of_mem _ hmem) hne)
  refine ⟨b, Option.bind_eq_some_iff.mpr ⟨k, ?_, hb⟩⟩
  rw [hidx, List.getElem?_cons_succ, hk]

theorem bodies_of_mapM (w : Whole blocks c) {heights : List ℕ} {bs : List Block}
    (hbs : heights.mapM c.canonicalBlockAt = some bs) : ∀ b ∈ bs, b = .genesis ∨ blocks b := by
  intro b hb
  obtain ⟨k, -, hk⟩ := exists_of_mem_mapM hbs hb
  obtain ⟨h, -, hbody⟩ := Option.bind_eq_some_iff.mp hk
  exact w.bodies h b hbody

/-- The canonical blocks below the tip are lighter. -/
theorem lighter (w : Whole blocks c) {n : ℕ} (hk : c.canonicalIndex n = some k) (hne : k ≠ c.tipHash) {tm : BlockMeta F}
    (hm : c.metas k = some m) (htm : c.metas c.tipHash = some tm) : m.cumulativeWork < tm.cumulativeWork := by
  obtain ⟨l, hl, -, hidx⟩ := w.exists_path
  rw [hidx] at hk
  exact w.vetted.ahead l k m tm hl (List.mem_of_getElem? hk) hne hm htm

end Whole
end Chain

namespace Disk

/-- A file from which nothing was cut off, with no other blocks in it. -/
def Whole (blocks : Block → Prop) (disk : Disk F) : Prop :=
  disk.checkpoint = none ∧ ∀ h b, disk.blocks h = some b → b = .genesis ∨ blocks b

omit [Float64 F] in
theorem Whole.persisted {disk : Disk F} (w : Whole blocks disk) {b : Block} (hb : b = .genesis ∨ blocks b)
    {c : Chain F} {h : Hash32} {m : BlockMeta F} {l : List Hash32} {n : ℕ} :
    Whole blocks (disk.persisted c h b m l n) := by
  refine ⟨w.1, fun k b' hk => ?_⟩
  rcases Table.insert_eq_some.mp hk with ⟨-, rfl⟩ | ⟨-, hk⟩
  · exact hb
  · exact w.2 k b' hk

end Disk

namespace ChainStore
variable {s s' : ChainStore F}

/-- The states of a store that is given blocks, closed and reopened, but never pruned. Any write may fail. -/
inductive Ran (blocks : Block → Prop) : ChainStore F → Prop
  | opened {s : ChainStore F} {tables genesis : Commit} : openAt Disk.empty tables genesis = .ok s → Ran blocks s
  | tryApply {s : ChainStore F} {b : Block} (now : ℕ) (commit : Commit) : Ran blocks s → blocks b →
      Ran blocks (s.tryApply b now commit).1
  | reopened {s s' : ChainStore F} {tables genesis : Commit} : Ran blocks s → openAt s.disk tables genesis = .ok s' →
      Ran blocks s'

theorem openAt_whole (cf : CollisionFree blocks) {disk : Disk F} (w : Disk.Whole blocks disk) {tables genesis : Commit}
    (ho : openAt disk tables genesis = .ok s) : s.chain.Whole blocks ∧ Disk.Whole blocks s.disk := by
  have hz : Block.genesis.hash ≠ .zero := cf.nonzero _ (.inl rfl)
  cases tables with
  | error reason => cases ho
  | ok _ =>
    simp only [openAt, Disk.commit] at ho
    rcases htip : disk.tipHash with _ | tip
    · rw [htip] at ho
      have inv : Chain.Inv Block.genesis.hash (Chain.new : Chain F) := .new hz
      have hl : (Chain.new : Chain F).Descends (Chain.new : Chain F).tipHash [Block.genesis.hash] := .floor
      have hm : (Chain.new : Chain F).metas Block.genesis.hash = some (genesisMeta F) := Table.insert_self
      simp only [persistAfterApply_eq (s := { disk, chain := .new }) inv hm hl genesis] at ho
      cases genesis with
      | error reason => cases ho
      | ok _ =>
        cases ho
        exact ⟨.new hz, w.persisted (.inl rfl)⟩
    · rw [htip] at ho
      obtain ⟨c, hc, ho⟩ := except_bind_eq_ok.mp ho
      cases ho
      have hstart : disk.start = .new := by
        unfold Disk.start
        rw [w.1]
      unfold Disk.restore at hc
      rw [hstart] at hc
      exact ⟨(Chain.Whole.new hz).replayFrom cf w.2 hc, w⟩

theorem Ran.whole (cf : CollisionFree blocks) (hs : Ran blocks s) : s.chain.Whole blocks ∧ Disk.Whole blocks s.disk := by
  induction hs with
  | opened ho =>
    exact openAt_whole cf ⟨rfl, fun _ _ h => by cases h⟩ ho
  | @tryApply s b now commit _ hb ih =>
    obtain ⟨w, wd⟩ := ih
    have hz := cf.nonzero b (.inr hb)
    have hchain := w.tryApply cf (.inr hb) now
    have happ := tryApply_applied w.grown.inv hz now commit
    rw [← tryApply_chain w.grown.inv hz now commit] at hchain
    refine ⟨hchain, ?_⟩
    generalize s.tryApply b now commit = r at happ
    cases happ with
    | known => exact wd
    | rejected => exact wd
    | persisted => exact wd.persisted (.inr hb)
    | lost => exact wd
  | reopened _ ho ih => exact openAt_whole cf ih.2 ho

/-! ### The blocks of a response -/

variable {mempool : Table Hash32 Transaction} {now : ℕ → ℕ} {commit : ℕ → Commit} {bs : List Block} {h : Hash32}

/-- When its write commits, a block is known or refused without a trace. -/
theorem known_or_refused (inv : Chain.Inv Block.genesis.hash s.chain) {b : Block} (hz : b.hash ≠ .zero) (now : ℕ) :
    ((∃ o, (s.tryApply b now (.ok ())).2 = .ok o) ∧ ((s.tryApply b now (.ok ())).1.chain.metas b.hash).isSome) ∨
      ((∃ e, (s.tryApply b now (.ok ())).2 = .error e) ∧ (s.tryApply b now (.ok ())).1 = s ∧
        s.chain.metas b.hash = none) := by
  have happ := tryApply_applied inv hz now (.ok ())
  generalize s.tryApply b now (.ok ()) = r at happ
  cases happ with
  | known hk => exact Or.inl ⟨⟨_, rfl⟩, hk⟩
  | rejected hnew => exact Or.inr ⟨⟨_, rfl⟩, rfl, hnew⟩
  | persisted _ _ _ g =>
    have hm := g.metas
    exact Or.inl ⟨⟨_, rfl⟩, by rw [hm, Table.insert_self]; rfl⟩
  | lost hc => cases hc

/-- The loop adds to what was known, and only from the response. -/
theorem applyBlocks_whole (mempool : Table Hash32 Transaction) (now : ℕ → ℕ) (commit : ℕ → Commit)
    (cf : CollisionFree blocks) (hbs : ∀ b ∈ bs, b = .genesis ∨ blocks b)
    (w : s.chain.Whole blocks) :
    (s.applyBlocks mempool now commit bs).1.chain.Whole blocks ∧
      (∀ h m, s.chain.metas h = some m → (s.applyBlocks mempool now commit bs).1.chain.metas h = some m) ∧
      ∀ h, ((s.applyBlocks mempool now commit bs).1.chain.metas h).isSome →
        (s.chain.metas h).isSome ∨ ∃ b ∈ bs, b.hash = h := by
  induction bs generalizing s mempool now commit with
  | nil => exact ⟨w, fun _ _ hm => hm, fun _ hk => Or.inl hk⟩
  | cons b bs ih =>
    have hb := hbs b List.mem_cons_self
    have hz := cf.nonzero b hb
    have w₁ := w.tryApply cf hb (now 0)
    have hkeep : ∀ h m, s.chain.metas h = some m → (s.chain.tryApply b (now 0)).1.metas h = some m :=
      fun h m hm => w.grown.inv.metas_tryApply_of_some hz hm
    have hnew := w.grown.inv.metas_tryApply hz (now 0)
    rw [← tryApply_chain w.grown.inv hz (now 0) (commit 0)] at w₁ hkeep hnew
    have horigin : ∀ h, ((s.tryApply b (now 0) (commit 0)).1.chain.metas h).isSome →
        (s.chain.metas h).isSome ∨ h = b.hash := by
      intro h hk
      rcases hnew h with heq | ⟨rfl, -⟩
      · exact Or.inl (heq ▸ hk)
      · exact Or.inr rfl
    unfold applyBlocks
    rcases hr : s.tryApply b (now 0) (commit 0) with ⟨s₁, e | o⟩
    · simp only [hr] at w₁ hkeep horigin ⊢
      exact ⟨w₁, hkeep, fun h hk => (horigin h hk).imp_right fun he => ⟨b, List.mem_cons_self, he.symm⟩⟩
    · simp only [hr] at w₁ hkeep horigin ⊢
      obtain ⟨w₂, hkeep₂, horigin₂⟩ := ih _ _ _ (fun x hx => hbs x (List.mem_cons_of_mem _ hx)) w₁
      refine ⟨w₂, fun h m hm => hkeep₂ h m (hkeep h m hm), fun h hk => ?_⟩
      rcases horigin₂ h hk with hk | ⟨x, hx, rfl⟩
      · exact (horigin h hk).imp_right fun he => ⟨b, List.mem_cons_self, he.symm⟩
      · exact Or.inr ⟨x, List.mem_cons_of_mem _ hx, rfl⟩

/-- A run of the peer's canonical blocks goes through once the parent of its first block is known. -/
theorem applyBlocks_canonical (mempool : Table Hash32 Transaction) (cf : CollisionFree blocks) (w : s.chain.Whole blocks) {c' : Chain F} (w' : c'.Whole blocks)
    (hdue : ∀ i n b, c'.canonicalBlockAt n = some b → b.header.timestamp.toNat ≤ now i + maxFutureDriftSecs)
    {j k : ℕ} {p h : Hash32} (hbs : (List.range' (j + 1) k).mapM c'.canonicalBlockAt = some bs)
    (hp : c'.canonicalIndex j = some p) (hknown : (s.chain.metas p).isSome)
    (hlast : c'.canonicalIndex (j + k) = some h) :
    (s.applyBlocks mempool now (fun _ => .ok ()) bs).2.2 = .ok () ∧
      ((s.applyBlocks mempool now (fun _ => .ok ()) bs).1.chain.metas h).isSome := by
  induction k generalizing s mempool now bs j p with
  | zero =>
    cases hbs
    rw [Nat.add_zero] at hlast
    obtain rfl := Option.some.inj (hp.symm.trans hlast)
    exact ⟨rfl, hknown⟩
  | succ k ih =>
    rw [List.range'_succ, List.mapM_cons] at hbs
    obtain ⟨b, hb, hbs⟩ := Option.bind_eq_some_iff.mp hbs
    obtain ⟨rest, hrest, hbs⟩ := Option.bind_eq_some_iff.mp hbs
    cases hbs
    obtain ⟨q, hq, hbody⟩ := Option.bind_eq_some_iff.mp hb
    obtain ⟨rfl, -⟩ := w'.grown.inv.stored q b hbody
    have hsub := w'.bodies _ b hbody
    have hz := cf.nonzero b hsub
    have hmem := w.known_of_parent w' cf hbody (w'.canonical_next hp hq) hknown (hdue 0 _ b hb)
    rw [← tryApply_chain w.grown.inv hz (now 0) (.ok ())] at hmem
    have w₁ := w.tryApply cf hsub (now 0)
    rw [← tryApply_chain w.grown.inv hz (now 0) (.ok ())] at w₁
    rcases known_or_refused w.grown.inv hz (now 0) with ⟨⟨o, ho⟩, -⟩ | ⟨-, hsame, hnone⟩
    · unfold applyBlocks
      rcases hr : s.tryApply b (now 0) (.ok ()) with ⟨s₁, r⟩
      rw [hr] at ho hmem w₁
      cases ho
      refine ih _ w₁ (fun i => hdue (i + 1)) hrest hq hmem ?_
      rw [← hlast]
      congr 1
      omega
    · rw [hsame, hnone] at hmem
      cases hmem

/-- A response changes nothing unless the parent of its first block is known. -/
theorem parent_known_or_unchanged (cf : CollisionFree blocks) (w : s.chain.Whole blocks) {c' : Chain F}
    (w' : c'.Whole blocks) {j k : ℕ} {p : Hash32}
    (hbs : (List.range' (j + 1) (k + 1)).mapM c'.canonicalBlockAt = some bs) (hp : c'.canonicalIndex j = some p)
    (mempool : Table Hash32 Transaction) (now : ℕ → ℕ) :
    (s.chain.metas p).isSome ∨ (s.applyBlocks mempool now (fun _ => .ok ()) bs).1 = s := by
  rw [List.range'_succ, List.mapM_cons] at hbs
  obtain ⟨b, hb, hbs⟩ := Option.bind_eq_some_iff.mp hbs
  obtain ⟨rest, -, hbs⟩ := Option.bind_eq_some_iff.mp hbs
  cases hbs
  obtain ⟨q, hq, hbody⟩ := Option.bind_eq_some_iff.mp hb
  obtain ⟨rfl, -⟩ := w'.grown.inv.stored q b hbody
  have hsub := w'.bodies _ b hbody
  have hz := cf.nonzero b hsub
  have hpar := w'.canonical_next hp hq
  rcases known_or_refused w.grown.inv hz (now 0) with ⟨-, hk⟩ | ⟨⟨e, he⟩, hsame, -⟩
  · left
    rw [tryApply_chain w.grown.inv hz] at hk
    have hp' := (w.tryApply cf hsub (now 0)).parent_known w' cf hpar hk
    rcases w.grown.inv.metas_tryApply hz (now 0) p with heq | ⟨rfl, -⟩
    · rwa [heq] at hp'
    · exact absurd (w'.grown.inv.rooted.graded _ _ hpar) (by omega)
  · right
    unfold applyBlocks
    rcases hr : s.tryApply b (now 0) (.ok ()) with ⟨s₁, r⟩
    rw [hr] at he hsame
    cases he
    exact hsame

/-- If the tip got as heavy as the peer's, then it is the peer's, and it came with the response. -/
theorem tip_applyBlocks (cf : CollisionFree blocks) (w : s.chain.Whole blocks) {c' : Chain F} (w' : c'.Whole blocks)
    {tm m' : BlockMeta F} (hm' : c'.metas c'.tipHash = some m')
    (hlight : ∀ h m, s.chain.metas h = some m → m.cumulativeWork < m'.cumulativeWork) {heights : List ℕ}
    (hbs : heights.mapM c'.canonicalBlockAt = some bs)
    (htm : (s.applyBlocks mempool now commit bs).1.chain.metas (s.applyBlocks mempool now commit bs).1.chain.tipHash = some tm)
    (hle : m'.cumulativeWork ≤ tm.cumulativeWork) :
    (s.applyBlocks mempool now commit bs).1.chain.tipHash = c'.tipHash ∧
      ∃ k ∈ heights, c'.canonicalIndex k = some c'.tipHash := by
  obtain ⟨w₁, hkeep, horigin⟩ := applyBlocks_whole mempool now commit cf (w'.bodies_of_mapM hbs) w
  have hknown := Option.isSome_iff_exists.mpr ⟨tm, htm⟩
  rcases horigin _ hknown with hk | ⟨b, hb, hx⟩
  · obtain ⟨m, hm⟩ := Option.isSome_iff_exists.mp hk
    obtain rfl := Option.some.inj ((hkeep _ m hm).symm.trans htm)
    exact absurd hle (not_le.mpr (hlight _ m hm))
  · obtain ⟨k, hk, hblock⟩ := exists_of_mem_mapM hbs hb
    obtain ⟨h, hcan, hbody⟩ := Option.bind_eq_some_iff.mp hblock
    obtain ⟨rfl, m, hm, -⟩ := w'.grown.inv.stored h b hbody
    rw [hx] at hcan hm
    have htip : (s.applyBlocks mempool now commit bs).1.chain.tipHash = c'.tipHash := by
      by_contra hne
      have heq := w₁.meta_eq w' cf hknown (Option.isSome_iff_exists.mpr ⟨m, hm⟩)
      have hlt := w'.lighter hcan hne (heq.symm.trans htm) hm'
      exact absurd hle (not_le.mpr hlt)
    exact ⟨htip, k, hk, htip ▸ hcan⟩

end ChainStore

/-! ### A round -/

namespace Node
variable {n : Node F} {peer : PeerId} {b : ChainStore F} {now : ℕ → ℕ} {ta tb : ℕ} {wa wb : F}

theorem handleBlocks_chainStore {commit : ℕ → Commit} {bs : List Block} :
    (n.handleBlocks peer (.blocks bs) now commit).1.chainStore = (n.chainStore.applyBlocks n.mempool now commit bs).1 := by
  simp only [handleBlocks]
  rcases n.chainStore.applyBlocks n.mempool now commit bs with ⟨s', mempool, (e | _ | _) | _⟩
  · rfl
  · rfl
  · rfl
  · dsimp only
    generalize s'.chain.tipHeight = t
    cases t <;> rfl

omit [Primitives] in
/-- The blocks of a heavier peer are asked for. -/
theorem handleTip_heavier (peer : PeerId) (tb : ℕ) (h : Hash32) (hta : n.chainStore.chain.tipHeight = .ok ta)
    (hwa : n.chainStore.tipCumulativeWork = .ok wa) (hlt : wa < wb) :
    n.handleTip peer (.tip tb h wb) = .ok (n.pending.awaitBlocks peer,
      [.send peer n.pending.nextRequestId (.getBlocks (ta + 1) (min (wrappingSub tb ta) maxSyncBatch))]) := by
  simp only [handleTip, hwa, hta, Exec.ok_bind, if_neg (not_le.mpr hlt), pure, Except.pure]

/-- What a round with a heavier peer does to the store. -/
theorem syncRound_chainStore (peer : PeerId) (now : ℕ → ℕ) (commit : ℕ → Commit) (hta : n.chainStore.chain.tipHeight = .ok ta)
    (hwa : n.chainStore.tipCumulativeWork = .ok wa) (htb : b.chain.tipHeight = .ok tb)
    (hwb : b.tipCumulativeWork = .ok wb) (hlt : wa < wb) :
    (n.syncRound peer b now commit).1.chainStore =
      ((servedHeights (ta + 1) (min (wrappingSub tb ta) maxSyncBatch)).mapM b.chain.canonicalBlockAt).elim n.chainStore
        fun bs => (n.chainStore.applyBlocks n.mempool now commit bs).1 := by
  have htip := handleTip_heavier (n := { n with pending := (n.pending.awaitTip peer).removeTip n.pending.nextRequestId })
    peer tb b.chain.tipHash hta hwa hlt
  have hgetTip : buildChainSyncResponse b .getTip = .ok (.tip tb b.chain.tipHash wb) := by
    simp only [buildChainSyncResponse, htb, hwb, Exec.ok_bind, pure, Except.pure]
  generalize min (wrappingSub tb ta) maxSyncBatch = count at htip ⊢
  have hgetBlocks : buildChainSyncResponse b (.getBlocks (ta + 1) count) =
      .ok (((servedHeights (ta + 1) count).mapM b.chain.canonicalBlockAt).elim .notAvailable .blocks) := by
    simp only [buildChainSyncResponse]
  generalize (servedHeights (ta + 1) count).mapM b.chain.canonicalBlockAt = answer at hgetBlocks ⊢
  generalize ta + 1 = fromHeight at htip hgetBlocks
  have hfirst : (n.pending.awaitTip peer).chainSyncTip n.pending.nextRequestId = some peer := Table.insert_self
  have hsecond : (((n.pending.awaitTip peer).removeTip n.pending.nextRequestId).awaitBlocks peer).chainSyncBlocks
      (n.pending.nextRequestId + 1) = some peer := Table.insert_self
  have hnone : (((n.pending.awaitTip peer).removeTip n.pending.nextRequestId).awaitBlocks peer).chainSyncTip
      (n.pending.nextRequestId + 1) = none :=
    Pending.remove_eq_none ((Table.insert_of_ne (by omega)).trans (n.pending.fresh _ (by omega)).1)
  unfold syncRound
  simp only [hgetTip, handleChainSyncResponse, requestChainSync, hfirst, htip, hgetBlocks,
    Pending.removeTip_nextRequestId, Pending.awaitTip_nextRequestId, hsecond, hnone]
  rcases answer with _ | bs
  · simp only [Option.elim_none, handleBlocks]
  · simp only [Option.elim_some, handleBlocks_chainStore]

omit [Float64 F] [Primitives] in
theorem tipCumulativeWork_eq_ok {s : ChainStore F} {w : F} :
    s.tipCumulativeWork = .ok w ↔ ∃ m, s.chain.metas s.chain.tipHash = some m ∧ m.cumulativeWork = w := by
  unfold ChainStore.tipCumulativeWork
  rcases s.chain.metas s.chain.tipHash with _ | m <;> simp [Exec.expect, pure, Except.pure]

/-- After the step from `n` to `n'` the tip is as heavy as that of `b`, and it is that of `b` if `n` knew no other
block as heavy. -/
def CatchesUp (n n' : Node F) (b : ChainStore F) : Prop :=
  ∃ w wb, n'.chainStore.tipCumulativeWork = .ok w ∧ b.tipCumulativeWork = .ok wb ∧ wb ≤ w ∧
    ((∀ h m, n.chainStore.chain.metas h = some m → h ≠ b.chain.tipHash → m.cumulativeWork < wb) →
      n'.chainStore.chain.tipHash = b.chain.tipHash)

omit [Float64 F] [Primitives] in
theorem servedHeights_requested (hlt : ta < tb) (hbatch : tb ≤ ta + maxSyncBatch) (hwidth : tb + 1 < 2 ^ 64) :
    servedHeights (ta + 1) (min (wrappingSub tb ta) maxSyncBatch) = List.range' (ta + 1) (tb - ta) := by
  have hsub : wrappingSub tb ta = tb - ta := by
    unfold wrappingSub
    rw [show tb + 2 ^ 64 - ta = tb - ta + 2 ^ 64 by omega, Nat.add_mod_right, Nat.mod_eq_of_lt (by omega)]
  have hcount : min (min (tb - ta) maxSyncBatch) maxSyncBatch = tb - ta := by omega
  have hstop : min (ta + 1 + (tb - ta)) (2 ^ 64 - 1) = ta + 1 + (tb - ta) := min_eq_left (by omega)
  simp only [servedHeights, hsub, hcount, hstop, Nat.add_sub_cancel_left]

/-- One round with a heavier peer catches up with it exactly when its chain is also the longer one and its
canonical block at the height of the node's tip is known. -/
theorem catchesUp_iff (cf : CollisionFree blocks) (ha : ChainStore.Ran blocks n.chainStore) (hb : ChainStore.Ran blocks b)
    (hta : n.chainStore.chain.tipHeight = .ok ta) (hwa : n.chainStore.tipCumulativeWork = .ok wa)
    (htb : b.chain.tipHeight = .ok tb) (hwb : b.tipCumulativeWork = .ok wb) (hlt : wa < wb)
    (hbatch : tb ≤ ta + maxSyncBatch)
    (hdue : ∀ i k block, b.chain.canonicalBlockAt k = some block →
      block.header.timestamp.toNat ≤ now i + maxFutureDriftSecs) :
    n.CatchesUp (n.syncRound peer b now fun _ => .ok ()).1 b ↔
      ta < tb ∧ tb + 1 < 2 ^ 64 ∧ ∃ h, b.chain.canonicalIndex ta = some h ∧ (n.chainStore.chain.metas h).isSome := by
  obtain ⟨w, -⟩ := ha.whole cf
  obtain ⟨w', -⟩ := hb.whole cf
  obtain ⟨ma, hma, rfl⟩ := tipCumulativeWork_eq_ok.mp hwa
  obtain ⟨mb, hmb, rfl⟩ := tipCumulativeWork_eq_ok.mp hwb
  have hround := syncRound_chainStore peer now (fun _ => .ok ()) hta hwa htb hwb hlt
  unfold CatchesUp
  rw [hround]
  -- What was known before is lighter than the peer's tip.
  have hbefore : ∀ h m, n.chainStore.chain.metas h = some m → m.cumulativeWork < mb.cumulativeWork := by
    intro h m hm
    obtain ⟨tm, htm, hmax⟩ := w.grown.best
    obtain rfl := Option.some.inj (hma.symm.trans htm)
    exact lt_of_le_of_lt (hmax h m hm) hlt
  constructor
  · rintro ⟨work, wb, hwork, hwb', hle, -⟩
    obtain rfl := Except.ok.inj (hwb.symm.trans hwb')
    rcases hbs : (servedHeights (ta + 1) (min (wrappingSub tb ta) maxSyncBatch)).mapM b.chain.canonicalBlockAt with _ | bs
    · simp only [hbs, Option.elim_none] at hwork
      obtain rfl := Except.ok.inj (hwa.symm.trans hwork)
      exact absurd hle (not_le.mpr hlt)
    · simp only [hbs, Option.elim_some] at hwork
      obtain ⟨tm, htm, rfl⟩ := tipCumulativeWork_eq_ok.mp hwork
      obtain ⟨htip, k, hk, hcan⟩ := ChainStore.tip_applyBlocks cf w w' hmb hbefore hbs htm hle
      obtain rfl := (w'.canonical_tip htb k).mp hcan
      unfold servedHeights at hbs hk
      obtain ⟨hfrom, hto⟩ := List.mem_range'_1.mp hk
      obtain ⟨h, hh⟩ := w'.exists_canonical htb (show ta ≤ k by omega)
      refine ⟨hfrom, by omega, h, hh, ?_⟩
      obtain ⟨len, hlen⟩ := Nat.exists_eq_add_one_of_ne_zero (show min (ta + 1 + min (min (wrappingSub k ta) maxSyncBatch)
        maxSyncBatch) (2 ^ 64 - 1) - (ta + 1) ≠ 0 by omega)
      simp only [hlen] at hbs
      refine (ChainStore.parent_known_or_unchanged cf w w' hbs hh n.mempool now).resolve_right fun hsame => ?_
      rw [hsame, hma] at htm
      obtain rfl := Option.some.inj htm
      exact absurd hle (not_le.mpr hlt)
  · rintro ⟨hta', hwidth, h, hh, hk⟩
    rw [servedHeights_requested hta' hbatch hwidth]
    obtain ⟨bs, hbs⟩ : ∃ bs, (List.range' (ta + 1) (tb - ta)).mapM b.chain.canonicalBlockAt = some bs := by
      refine exists_mapM fun k hk => ?_
      obtain ⟨hfrom, hto⟩ := List.mem_range'_1.mp hk
      obtain ⟨x, hx⟩ := w'.exists_canonical htb (show k ≤ tb by omega)
      exact w'.exists_canonicalBlock (by omega) hx
    have hlast : b.chain.canonicalIndex (ta + (tb - ta)) = some b.chain.tipHash :=
      (w'.canonical_tip htb _).mpr (by omega)
    rw [hbs, Option.elim_some]
    have hknown := (ChainStore.applyBlocks_canonical n.mempool cf w w' hdue hbs hh hk hlast).2
    obtain ⟨w₁, -, -⟩ := ChainStore.applyBlocks_whole n.mempool now (fun _ => .ok ()) cf
      (w'.bodies_of_mapM hbs) w
    have hm := (w₁.meta_eq w' cf hknown (by simp [hmb])).trans hmb
    obtain ⟨tm, htm, hmax⟩ := w₁.grown.best
    have hle := hmax _ mb hm
    obtain ⟨htip, -⟩ := ChainStore.tip_applyBlocks cf w w' hmb hbefore hbs htm hle
    exact ⟨_, _, tipCumulativeWork_eq_ok.mpr ⟨tm, htm, rfl⟩, hwb, hle, fun _ => htip⟩

end Node
end

namespace Node
open ChainStore
attribute [local instance] unsigned

theorem due_of_ran {blocks : Block → Prop} (cf : CollisionFree blocks) {b : ChainStore ℚ} (hb : Ran blocks b)
    (hblocks : ∀ block, block = .genesis ∨ blocks block → block.header.timestamp.toNat ≤ minedAt) (k : ℕ) (block : Block)
    (h : b.chain.canonicalBlockAt k = some block) : block.header.timestamp.toNat ≤ minedAt + maxFutureDriftSecs := by
  obtain ⟨x, -, hbody⟩ := Option.bind_eq_some_iff.mp h
  exact le_add_right (hblocks block ((hb.whole cf).1.bodies x block hbody))

theorem ran_opened {blocks : Block → Prop} : Ran blocks (opened ℚ) :=
  .opened ((openAt_empty genesis_hash_ne_zero).mpr ⟨rfl, rfl, rfl⟩)

theorem catchesUp_iff_afterFirst :
    CatchesUp (start (opened ℚ)) ((start (opened ℚ)).syncRound [] afterFirst (fun _ => minedAt) fun _ => .ok ()).1 afterFirst ↔
      0 < 1 ∧ 1 + 1 < 2 ^ 64 ∧
        ∃ h, afterFirst.chain.canonicalIndex 0 = some h ∧ ((opened ℚ).chain.metas h).isSome := by
  have cf : CollisionFree (· ∈ [firstBlock]) :=
    collisionFree_of_hashed (by decide +kernel) (by decide +kernel)
  have hb : Ran (· ∈ [firstBlock]) afterFirst := ran_opened.tryApply minedAt (.ok ()) List.mem_cons_self
  obtain ⟨hta, hwa, htb, hpos⟩ : (start (opened ℚ)).chainStore.chain.tipHeight = .ok 0 ∧
      (start (opened ℚ)).chainStore.tipCumulativeWork = .ok 0 ∧ afterFirst.chain.tipHeight = .ok 1 ∧
      (afterFirst.chain.metas afterFirst.chain.tipHash).map (fun m => decide (0 < m.cumulativeWork)) = some true := by
    decide +kernel
  obtain ⟨m, hm, hwork⟩ := Option.map_eq_some_iff.mp hpos
  have hwork : 0 < m.cumulativeWork := of_decide_eq_true hwork
  refine catchesUp_iff cf ran_opened hb hta hwa htb (tipCumulativeWork_eq_ok.mpr ⟨m, hm, rfl⟩) hwork (by decide)
    fun _ k block hk => due_of_ran cf hb ?_ k block hk
  rintro block (rfl | hblock)
  · decide
  · obtain rfl := List.mem_singleton.mp hblock
    decide +kernel

/-- A new store after the rival. -/
def afterRivalOnly : ChainStore ℚ := ((opened ℚ).tryApply rivalBlock minedAt (.ok ())).1

/-- A node that took the rival asks a heavier peer for the peer's second block only, and cannot use it. -/
theorem afterRivalOnly_not_catchesUp :
    ∃ (blocks : Block → Prop) (wa wb : ℚ), CollisionFree blocks ∧ Ran blocks afterRivalOnly ∧ Ran blocks afterSecond ∧
      afterRivalOnly.tipCumulativeWork = .ok wa ∧ afterSecond.tipCumulativeWork = .ok wb ∧ wa < wb ∧
      afterRivalOnly.chain.tipHeight = .ok 1 ∧ afterSecond.chain.tipHeight = .ok 2 ∧
      (∀ k block, afterSecond.chain.canonicalBlockAt k = some block →
        block.header.timestamp.toNat ≤ minedAt + maxFutureDriftSecs) ∧
      ¬CatchesUp (start afterRivalOnly)
        ((start afterRivalOnly).syncRound [] afterSecond (fun _ => minedAt) fun _ => .ok ()).1 afterSecond := by
  have cf : CollisionFree (· ∈ [firstBlock, secondBlock, rivalBlock]) :=
    collisionFree_of_hashed (by decide +kernel) (by decide +kernel)
  have ha : Ran (· ∈ [firstBlock, secondBlock, rivalBlock]) afterRivalOnly :=
    ran_opened.tryApply minedAt (.ok ()) (by simp)
  have hb : Ran (· ∈ [firstBlock, secondBlock, rivalBlock]) afterSecond :=
    (ran_opened.tryApply minedAt (.ok ()) (by simp)).tryApply minedAt (.ok ()) (by simp)
  obtain ⟨hwa, hta, hwb, htb, hsynced⟩ : afterRivalOnly.tipCumulativeWork = .ok (workOf initialDifficultyBits) ∧
      afterRivalOnly.chain.tipHeight = .ok 1 ∧
      afterSecond.tipCumulativeWork = .ok (workOf initialDifficultyBits + workOf initialDifficultyBits) ∧
      afterSecond.chain.tipHeight = .ok 2 ∧
      (((start afterRivalOnly).syncRound [] afterSecond (fun _ => minedAt)
        fun _ => .ok ()).1.chainStore).tipCumulativeWork = .ok (workOf initialDifficultyBits) := by
    decide +kernel
  have hpos : (0 : ℚ) < workOf initialDifficultyBits := by decide +kernel
  refine ⟨_, _, _, cf, ha, hb, hwa, hwb, lt_add_of_pos_right _ hpos, hta, htb, due_of_ran cf hb ?_, ?_⟩
  · rintro block (rfl | hblock)
    · decide
    · revert block
      decide +kernel
  · rintro ⟨w, wb, hw, hwb', hle, -⟩
    obtain rfl := Except.ok.inj (hsynced.symm.trans hw)
    obtain rfl := Except.ok.inj (hwb.symm.trans hwb')
    exact absurd hle (not_le.mpr (lt_add_of_pos_right _ hpos))

end Node
end SpiritChat
