import SpiritChat.Theorems.Reopen

/-! # The canonical index in the file

A restored chain has its saved checkpoint as its root, and knows the canonical path only. The file mirrors it
as it mirrored the chain that was closed, so the mirror survives any number of restarts. -/

namespace SpiritChat
open Lib

section
variable {F : Type} [Float64 F] [Primitives] {c c' : Chain F} {root h p : Hash32} {l : List Hash32} {disk : Disk F}

/-! ### A restored chain -/

namespace Chain
namespace Copies

/-- A block that the copy has was on the copied path. -/
theorem mem_of_meta (cp : Copies c c' l) {m : BlockMeta F} (hm : c'.metas h = some m) : h ∈ l := by
  by_contra hnot
  rw [cp.known h hnot] at hm
  cases hm

theorem parentOf_eq (cp : Copies c c' l) (inv : Inv root c) (hl : c.Descends p l) {k q : Hash32} (hk : k ∈ l)
    (hne : k ≠ c.floorHash) (hq : c'.parentOf k = some q) : c.parentOf k = some q := by
  obtain ⟨m, mq, hm, rfl, hmq⟩ := parentOf_eq_some.mp hq
  obtain ⟨mq', -, hmq', -⟩ := cp.exists_meta inv hl (cp.mem_of_meta hmq)
  exact parentOf_eq_some.mpr ⟨m, mq', (cp.metas k hk hne).symm.trans hm, rfl, hmq'⟩

/-- The path of a hash on the copied path is a part of it, the same in both chains. -/
theorem descends_mem (cp : Copies c c' l) (inv : Inv root c) (hl : c.Descends p l) {k : Hash32} {l' : List Hash32}
    (hl' : c'.Descends k l') : c.Descends k l' ∧ ∀ a ∈ l', a ∈ l := by
  have hmem : ∀ a ∈ l', a ∈ l := fun a ha => by
    obtain ⟨m, hm⟩ := Option.isSome_iff_exists.mp (cp.inv.known hl' a ha)
    exact cp.mem_of_meta hm
  refine ⟨?_, hmem⟩
  rw [Descends, ← cp.floor.1]
  refine hl'.congr fun a ha hne => ?_
  obtain ⟨l₁, hl₁, -⟩ := hl'.exists_of_mem ha
  obtain ⟨q, -, hq, -, -⟩ := hl₁.exists_child hne
  rw [hq]
  exact cp.parentOf_eq inv hl (hmem a ha) (cp.floor.1 ▸ hne) hq

/-- On a part of the copied path that starts at the floor, the copy has the same branch and the same owners. -/
theorem view_eq (cp : Copies c c' l) (inv : Inv root c) (hl : c.Descends p l) {k : Hash32} {l' : List Hash32}
    (hl' : c'.Descends k l') :
    c'.branch l' = c.branch l' ∧ c'.ownersOn l' = c.ownersOn l' ∧ c'.ancestorOf k = c.ancestorOf k := by
  obtain ⟨hline, hmem⟩ := cp.descends_mem inv hl hl'
  refine ⟨List.map_congr_left fun a ha => cp.ancestorOf_eq inv hl (hmem a ha), ?_,
    cp.ancestorOf_eq inv hl (hmem k hl'.mem_self)⟩
  unfold ownersOn
  rw [cp.floor.2.2]
  obtain ⟨t, rfl⟩ := hline.eq_cons
  refine replay_congr (fun a ha => cp.blocks a (hmem a (List.mem_cons_of_mem _ ha)) ?_) _
  rintro rfl
  exact (List.nodup_cons.mp hline.nodup).1 ha

/-- What the copy remembers of its past, when its blocks were admitted again. -/
theorem vetted (cp : Copies c c' l) (best : c'.Best) (inv : Inv root c) (v : Vetted c) (hl : c.Descends c.tipHash l)
    (hread : ∀ k ∈ l, k ≠ c.floorHash → c.Readmits k) : Vetted c' where
  admitted := by
    intro k q l' b hl' hq hb
    obtain ⟨m, mq, hm, rfl, -⟩ := parentOf_eq_some.mp hq
    have hk := cp.mem_of_meta hm
    have hne : k ≠ c.floorHash := cp.inv.ne_root_of_parentOf hq
    obtain ⟨hline, -⟩ := cp.descends_mem inv hl hl'
    obtain ⟨hbranch, howners, hself⟩ := cp.view_eq inv hl hl'
    refine ⟨[], c'.floorHash, b.header.timestamp.toNat, hl', ?_⟩
    rw [List.nil_append, hbranch, howners, hself]
    exact hread k hk hne _ _ b hline (cp.parentOf_eq inv hl hk hne hq) ((cp.blocks k hk hne).symm.trans hb)
  best := best
  ahead := by
    intro l' a m tm hl' ha hne hm htm
    obtain ⟨htip, -⟩ := cp.tip_eq best inv v hl
    rw [htip] at hl' hne htm
    obtain ⟨hline, hmem⟩ := cp.descends_mem inv hl hl'
    obtain ⟨m₁, m₁', h₁, h₁', -, -, -, hw⟩ := cp.exists_meta inv hl (hmem a ha)
    obtain ⟨m₂, m₂', h₂, h₂', -, -, -, hw'⟩ := cp.exists_meta inv hl hl.mem_self
    obtain rfl := Option.some.inj (hm.symm.trans h₁')
    obtain rfl := Option.some.inj (htm.symm.trans h₂')
    rw [hw, hw']
    exact v.ahead l' a m₁ m₂ hline ha hne h₁ h₂

end Copies
end Chain

/-- The file mirrors a copy of the canonical path as it mirrored the chain itself. -/
theorem Mirrors.copied (mir : Mirrors disk c) (cp : Chain.Copies c c' l) (best : c'.Best) (inv : Chain.Inv root c)
    (v : Chain.Vetted c) (hl : c.Descends c.tipHash l)
    (hfloor : ∀ b, c'.blocks c.floorHash = some b → disk.blocks c.floorHash = some b) : Mirrors disk c' where
  tip := by rw [(cp.tip_eq best inv v hl).1, mir.tip]
  heights := by
    intro n hn
    rw [cp.floor.2.1] at hn
    rw [(cp.tip_eq best inv v hl).2.2.2 n hn, mir.heights n hn]
  top := mir.top
  bodies := by
    intro k b hb
    by_cases hne : k = c.floorHash
    · subst hne
      exact hfloor b hb
    · obtain ⟨-, m, hm, -⟩ := cp.inv.stored k b hb
      exact mir.bodies k b ((cp.blocks k (cp.mem_of_meta hm) hne).symm.trans hb)
  start := by
    obtain ⟨m, hm, hm'⟩ := cp.root
    obtain ⟨m₁, hm₁, hstart⟩ := mir.start.root
    obtain rfl := Option.some.inj (hm.symm.trans hm₁)
    obtain ⟨h1, h2, h3⟩ := cp.floor
    refine ⟨h1 ▸ mir.start.inv, ?_, h1 ▸ mir.start.known, ?_, ?_, ?_⟩
    · obtain ⟨s1, s2, s3⟩ := mir.start.floor
      exact ⟨s1.trans h1.symm, s2.trans h2.symm, s3.trans h3.symm⟩
    · exact ⟨_, h1 ▸ hm', by rw [h1, hstart]⟩
    · exact fun k hk hne => absurd (List.mem_singleton.mp hk) hne
    · exact fun k hk hne => absurd (List.mem_singleton.mp hk) hne

namespace ChainStore
variable {s s' : ChainStore F} {b : Block} {now : ℕ} {commit : Commit}

/-! ### The life of a file -/

/-- The states of a store from a new file on. Its calls succeed, and at any time it may be closed and opened
again. -/
inductive Lifetime : ChainStore F → Prop
  | opened {s : ChainStore F} {tables genesis : Commit} : openAt Disk.empty tables genesis = .ok s → Lifetime s
  | applied {s s' : ChainStore F} {b : Block} {now : ℕ} {commit : Commit} {o : ApplyOutcome} : Lifetime s →
      b.hash ≠ .zero → s.tryApply b now commit = (s', .ok o) → Lifetime s'
  | pruned {s s' : ChainStore F} {retention : ℕ} {commit₁ commit₂ : Commit} : Lifetime s →
      s.pruneWithRetention retention commit₁ commit₂ = (s', .ok ()) → Lifetime s'
  | reopened {s s' : ChainStore F} {tables genesis : Commit} : Lifetime s →
      openAt s.disk tables genesis = .ok s' → Lifetime s'

theorem Lifetime.step {o : ApplyOutcome} (hs : Lifetime s) (hz : b.hash ≠ .zero)
    (ho : (s.tryApply b now commit).2 = .ok o) : Lifetime (s.tryApply b now commit).1 :=
  .applied hs hz (Prod.ext rfl ho)

/-- What every such store keeps: an up-to-date file that records a greatest height and, if a restart would put
a body at the floor, has that body. -/
structure Durable (s : ChainStore F) : Prop where
  sealed : ∃ root, s.SealedFrom root
  recorded : s.disk.canonicalMaxHeight.isSome
  floorBody : ∀ b, s.disk.start.blocks s.chain.floorHash = some b → s.disk.blocks s.chain.floorHash = some b

/-- A call that reports success did not lose its write. -/
theorem persists_of_ok (inv : Chain.Inv root s.chain) (hz : b.hash ≠ .zero) {o : ApplyOutcome}
    (hr : (s.tryApply b now commit).2 = .ok o) : s.Persists b now commit := by
  have h := tryApply_applied inv hz now commit
  generalize s.tryApply b now commit = r at h hr
  cases h with
  | known hk => exact Or.inr (Or.inl hk)
  | rejected _ he => exact Or.inr (Or.inr ⟨_, he⟩)
  | persisted hc => exact Or.inl hc
  | lost => cases hr

theorem Durable.opened (hz : Block.genesis.hash ≠ .zero) : (opened F).Durable :=
  ⟨⟨_, sealed_opened hz⟩, rfl, fun _ hb => hb⟩

theorem Durable.tryApply (d : s.Durable) (hz : b.hash ≠ .zero) {o : ApplyOutcome}
    (hr : (s.tryApply b now commit).2 = .ok o) : (s.tryApply b now commit).1.Durable := by
  obtain ⟨root, sl⟩ := d.sealed
  have sl' := sl.tryApply hz (persists_of_ok sl.inv hz hr)
  have h := tryApply_applied sl.inv hz now commit
  generalize s.tryApply b now commit = r at h hr sl'
  cases h with
  | known => exact d
  | rejected => exact d
  | persisted _ _ _ g hl =>
    refine ⟨⟨root, sl'⟩, rfl, fun b' hb' => ?_⟩
    have hne := Chain.ne_of_known g.new sl.inv.rooted.floor_known
    have hfloor := g.floor.1
    dsimp only at hb' ⊢
    rw [hfloor] at hb' ⊢
    exact (Table.insert_of_ne hne).trans (d.floorBody b' hb')
  | lost => cases hr

theorem Durable.pruneWithRetention (d : s.Durable) (retention : ℕ) (commit₁ commit₂ : Commit) :
    (s.pruneWithRetention retention commit₁ commit₂).1.Durable := by
  obtain ⟨root, sl⟩ := d.sealed
  have sl' := sl.pruneWithRetention retention commit₁ commit₂
  have h := pruneWithRetention_pruned sl.inv retention commit₁ commit₂
  generalize s.pruneWithRetention retention commit₁ commit₂ = r at h sl'
  cases h with
  | kept => exact d
  | unsaved => exact d
  | floored =>
    -- From now on a restart begins at a checkpoint, which has no body.
    cases commit₂ with
    | ok _ => exact ⟨⟨root, sl'⟩, d.recorded, fun b hb => by cases hb⟩
    | error _ => exact ⟨⟨root, sl'⟩, d.recorded, fun b hb => by cases hb⟩

theorem Durable.openAt (d : s.Durable) {tables genesis : Commit} (ho : openAt s.disk tables genesis = .ok s') :
    s'.Durable := by
  obtain ⟨root, sl⟩ := d.sealed
  cases tables with
  | error _ => cases ho
  | ok _ =>
    obtain ⟨hstep, hiff⟩ := sl.openAt genesis
    obtain ⟨hdisk, l, hl, cp, best, hbody⟩ := hstep s' ho
    obtain ⟨t, rfl⟩ := hl.eq_cons
    have hread : ∀ k ∈ s.chain.floorHash :: t, k ≠ s.chain.floorHash → s.chain.Readmits k := by
      have hall := (sl.vetted.readmits_iff sl.inv hl).mpr (hiff.mp ⟨s', ho⟩)
      intro k hk hne
      exact hall k ((List.mem_cons.mp hk).resolve_left hne)
    have hfloor : ∀ b, s'.chain.blocks s.chain.floorHash = some b → s.disk.blocks s.chain.floorHash = some b :=
      fun b hb => d.floorBody b (hbody ▸ hb)
    refine ⟨⟨s.chain.floorHash, cp.inv, cp.vetted best sl.inv sl.vetted hl hread, ?_⟩, hdisk ▸ d.recorded, ?_⟩
    · rw [hdisk]
      exact sl.mirrors.copied cp best sl.inv sl.vetted hl hfloor
    · rw [hdisk, cp.floor.1]
      exact d.floorBody

theorem Lifetime.durable (hs : Lifetime s) (hz : Block.genesis.hash ≠ .zero) : s.Durable := by
  induction hs with
  | opened ho =>
    obtain ⟨-, -, rfl⟩ := (openAt_empty hz).mp ho
    exact .opened hz
  | applied _ hb hr ih =>
    have := ih.tryApply hb (congrArg Prod.snd hr)
    rwa [hr] at this
  | @pruned s s' retention commit₁ commit₂ _ hr ih =>
    have := ih.pruneWithRetention retention commit₁ commit₂
    rwa [hr] at this
  | reopened _ ho ih => exact ih.openAt ho

/-- The index in the file is the path from the floor to the tip, with its bodies, and nothing above it. -/
theorem Lifetime.index_mirrors (hs : Lifetime s) (hz : Block.genesis.hash ≠ .zero) :
    ∃ path tipHeight maxHeight, s.chain.ancestors s.chain.tipHash = .ok path ∧ s.chain.tipHeight = .ok tipHeight ∧
      s.disk.canonicalMaxHeight = some maxHeight ∧
      (∀ n, s.chain.floorHeight ≤ n → s.disk.canonicalHeights n = path[n - s.chain.floorHeight]?) ∧
      (∀ n, tipHeight < n → s.disk.canonicalHeights n = none) ∧
      (∀ k ∈ path, k ≠ s.chain.floorHash → ∃ b, s.disk.blocks k = some b ∧ b.hash = k) ∧
      s.disk.tipHash = some s.chain.tipHash ∧
      ∀ n, (s.disk.canonicalHeights n).isSome → n ≤ maxHeight := by
  obtain ⟨⟨root, sl⟩, hmax, -⟩ := hs.durable hz
  obtain ⟨maxHeight, hmax⟩ := Option.isSome_iff_exists.mp hmax
  obtain ⟨l, hl, hidx, -⟩ := sl.inv.tip
  have hindex : ∀ n, s.chain.floorHeight ≤ n → s.disk.canonicalHeights n = l[n - s.chain.floorHeight]? :=
    fun n hn => (sl.mirrors.heights n hn).trans (hidx n hn)
  refine ⟨l, _, maxHeight, sl.inv.rooted.ancestors_eq_ok.mpr hl, sl.inv.tipHeight_eq hl, hmax, hindex, ?_, ?_,
    sl.mirrors.tip, ?_⟩
  · intro n hn
    have hpos := List.length_pos_iff.mpr hl.ne_nil
    rw [hindex n (by omega), List.getElem?_eq_none (by omega)]
  · intro k hk hne
    obtain ⟨b, hb⟩ := Option.isSome_iff_exists.mp (sl.inv.bodies_of_descends hl k hk hne)
    exact ⟨b, sl.mirrors.bodies k b hb, (sl.inv.stored k b hb).1⟩
  · intro n hn
    have := sl.mirrors.top n hn
    rwa [hmax] at this

end ChainStore
end

namespace ChainStore
attribute [local instance] unsigned

/-- A store that took a block and was closed and opened again. -/
theorem index_mirrors_reopened :
    ∃ s : ChainStore ℚ, openAt afterFirst.disk (.ok ()) (.ok ()) = .ok s ∧ s.disk.tipHash = some s.chain.tipHash := by
  have hopen : openAt (Disk.empty : Disk ℚ) (.ok ()) (.ok ()) = .ok (opened ℚ) :=
    (openAt_empty genesis_hash_ne_zero).mpr ⟨rfl, rfl, rfl⟩
  have hfirst : ((opened ℚ).tryApply firstBlock minedAt (.ok ())).2 = .ok .extendedTip := by decide +kernel
  have hrestart : (openAt afterFirst.disk (.ok ()) (.ok ())).fault? = none := by decide +kernel
  have happlied : Lifetime afterFirst := (Lifetime.opened hopen).step (by decide +kernel) hfirst
  cases ho : openAt afterFirst.disk (.ok ()) (.ok ()) with
  | error e =>
    rw [ho] at hrestart
    cases hrestart
  | ok s =>
    obtain ⟨-, -, -, -, -, -, -, -, -, htip, -⟩ := (happlied.reopened ho).index_mirrors genesis_hash_ne_zero
    exact ⟨s, rfl, htip⟩

end ChainStore
end SpiritChat
