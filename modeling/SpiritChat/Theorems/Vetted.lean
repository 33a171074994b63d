import SpiritChat.Theorems.Reachable

/-! # What a chain remembers of its past

A body above the floor was admitted once, on the branch of its parent from some earlier and lower floor on,
and the tip outweighs every block on its own path. -/

namespace SpiritChat
open Lib

namespace Chain
variable {F : Type} [Float64 F] [Primitives] {c : Chain F} {root h k : Hash32} {l : List Hash32} {b : Block} {now : ℕ}

/-- `b` was admitted on top of `p`, whose branch reached at least as far down as `l` does. -/
def AdmittedOn (c : Chain F) (p : Hash32) (l : List Hash32) (b : Block) : Prop :=
  ∃ below f now, Lineage c.parentOf f p (below ++ l) ∧
    Rules.Admits F (c.branch (below ++ l)) (c.ownersOn l) (c.ancestorOf p) b now

/-- Each stored block was admitted on its path, and the tip is the heaviest block, with less work on every block below
it. -/
structure Vetted (c : Chain F) : Prop where
  admitted : ∀ k p l b, c.Descends p l → c.parentOf k = some p → c.blocks k = some b → c.AdmittedOn p l b
  best : c.Best
  ahead : ∀ l a m tm, c.Descends c.tipHash l → a ∈ l → a ≠ c.tipHash → c.metas a = some m →
    c.metas c.tipHash = some tm → m.cumulativeWork < tm.cumulativeWork

/-- The path of an admission does not see a block that was stored later. -/
theorem AdmittedOn.store {p : Hash32} {pm : BlockMeta F} {b' : Block} (ha : c.AdmittedOn p l b') (inv : Inv root c)
    (hnew : c.metas b.hash = none) (hz : b.hash ≠ .zero) (hl : c.Descends p l) :
    (c.accepted b pm).AdmittedOn p l b' := by
  obtain ⟨below, f, now, hline, hadm⟩ := ha
  have hp : (c.metas p).isSome := inv.known hl p hl.mem_self
  have hanc : (c.accepted b pm).branch [p] = c.branch [p] := branch_store_of_known hnew (by simpa using hp)
  refine ⟨below, f, now, (lineage_store inv hnew hz (ne_of_known hnew hp)).mpr hline, ?_⟩
  rw [branch_store_of_known hnew (lineage_known_of_last hp hline), ownersOn_store inv hnew hl,
    (List.cons.inj hanc).1]
  exact hadm

namespace Vetted

theorem new (hz : Block.genesis.hash ≠ .zero) : Vetted (Chain.new : Chain F) where
  admitted := by
    intro k p l b _ hp _
    obtain ⟨m, q, hm, rfl, hq⟩ := parentOf_eq_some.mp hp
    rcases Table.insert_eq_some.mp hm with ⟨rfl, rfl⟩ | ⟨-, hm⟩
    · rcases Table.insert_eq_some.mp hq with ⟨h0, -⟩ | ⟨-, hq⟩
      · exact absurd h0.symm hz
      · cases hq
    · cases hm
  best := by
    refine ⟨_, Table.insert_self, fun h m hm => ?_⟩
    rcases Table.insert_eq_some.mp hm with ⟨-, rfl⟩ | ⟨-, hm⟩
    · exact le_refl _
    · cases hm
  ahead := by
    intro l a m tm hl ha hne hm htm
    obtain rfl := Lineage.eq_floor hl
    exact absurd (List.mem_singleton.mp ha) hne

/-- Storing a block on top of its parent. -/
theorem admitted_accept (v : Vetted c) (inv : Inv root c) {pm : BlockMeta F} (a : c.Accepts b now pm l)
    (hz : b.hash ≠ .zero) (k p : Hash32) (l' : List Hash32) (b' : Block) (hl' : (c.accepted b pm).Descends p l')
    (hp : (c.accepted b pm).parentOf k = some p) (hb' : (c.accepted b pm).blocks k = some b') :
    (c.accepted b pm).AdmittedOn p l' b' := by
  by_cases hk : k = b.hash
  · subst hk
    obtain rfl : b = b' := Option.some.inj (Table.insert_self.symm.trans hb')
    obtain ⟨m, q, hm, rfl, -⟩ := parentOf_eq_some.mp hp
    obtain rfl : childMeta pm b = m := Option.some.inj (Table.insert_self.symm.trans hm)
    have hne : b.header.prevHash ≠ b.hash := ne_of_known a.new (by simp [a.parent])
    have hl := (descends_store inv a.new hz hne).mp hl'
    obtain rfl := a.line.unique hl
    have hadm : c.AdmittedOn b.header.prevHash l b := ⟨[], c.floorHash, now, a.line, a.admits⟩
    exact hadm.store inv a.new hz a.line
  · rw [parentOf_store_of_ne inv a.new hz hk] at hp
    obtain ⟨-, q, -, -, hq⟩ := parentOf_eq_some.mp hp
    have hl := (descends_store inv a.new hz (ne_of_known a.new (by simp [hq]))).mp hl'
    have hb : c.blocks k = some b' := (Table.insert_of_ne hk).symm.trans hb'
    exact (v.admitted k p l' b' hl hp hb).store inv a.new hz hl

theorem tryApply (v : Vetted c) (inv : Inv root c) (hz : b.hash ≠ .zero) (now : ℕ) : Vetted (c.tryApply b now).1 := by
  have hbest := v.best.tryApply inv hz now
  have h := inv.tryApply_applied hz now
  generalize (c.tryApply b now).1 = c' at h hbest
  generalize (c.tryApply b now).2 = r at h
  cases h with
  | known => exact v
  | rejected => exact v
  | @fork pm l w a =>
    refine ⟨v.admitted_accept inv a hz, hbest, fun l' x m tm hl' hx hne hm htm => ?_⟩
    obtain ⟨lt, hlt, -, -⟩ := inv.tip
    have hl := (descends_store inv a.new hz (ne_of_known a.new (inv.known hlt _ hlt.mem_self))).mp hl'
    have hkeep : ∀ {y}, (c.metas y).isSome → (c.accepted b pm).metas y = c.metas y := fun hy =>
      Table.insert_of_ne (ne_of_known a.new hy)
    have hm' : c.metas x = some m := (hkeep (inv.known hl x hx)).symm.trans hm
    have htm' : c.metas c.tipHash = some tm := (hkeep (inv.known hl _ hl.mem_self)).symm.trans htm
    exact v.ahead l' x m tm hl hx hne hm' htm'
  | @tip pm l w a hw hlt =>
    obtain ⟨tm₀, htm₀, rfl⟩ := hw
    refine ⟨v.admitted_accept inv a hz, hbest, fun l' x m tm hl' hx hne hm htm => ?_⟩
    -- The rest of the new tip's path was known before, and weighs no more than the old tip.
    obtain rfl := (a.descends inv hz).unique hl'
    obtain rfl : childMeta pm b = tm := Option.some.inj (Table.insert_self.symm.trans htm)
    have hx' : x ∈ l := by
      rcases List.mem_append.mp hx with hx | hx
      · exact hx
      · exact absurd (List.mem_singleton.mp hx) hne
    have hm' : c.metas x = some m := (Table.insert_of_ne hne).symm.trans hm
    obtain ⟨tm', htm', hmax⟩ := v.best
    obtain rfl : tm₀ = tm' := Option.some.inj (htm₀.symm.trans htm')
    exact lt_of_le_of_lt (hmax x m hm') hlt

/-- Moving the floor up along the canonical path. -/
theorem raiseFloor (v : Vetted c) (inv : Inv root c) {height : ℕ} {l₁ l₂ : List Hash32} {g : Hash32}
    (hlt : c.floorHeight < height) (hlen : l₁.length = height - c.floorHeight)
    (hl : c.Descends c.tipHash (l₁ ++ g :: l₂)) : Vetted (c.raiseFloor height g (c.ownersOn (l₁ ++ [g]))) where
  admitted := by
    intro k p l b hp hpar hb
    obtain ⟨l₃, rfl⟩ := hp.eq_cons
    have hb' : c.blocks.retain (fun _ block => height < block.header.height.toNat) k = some b := hb
    have hwhole := inv.descends_of_raised hl.of_append hp
    obtain ⟨below, f, now, hline, hadm⟩ := v.admitted k p _ b hwhole hpar (Table.retain_eq_some.mp hb').1
    refine ⟨below ++ l₁, f, now, by rw [List.append_assoc]; exact hline, ?_⟩
    have howners := inv.ownersOn_raised hlt hlen hl.of_append hp
    show Rules.Admits F (c.branch (below ++ l₁ ++ g :: l₃))
      ((c.raiseFloor height g (c.ownersOn (l₁ ++ [g]))).ownersOn (g :: l₃)) (c.ancestorOf p) b now
    rw [howners, List.append_assoc]
    exact hadm
  best := v.best
  ahead := by
    intro l a m tm hl' ha hne hm htm
    obtain rfl := hl.raise.unique hl'
    exact v.ahead _ a m tm hl (List.mem_append_right _ ha) hne hm htm

theorem prune (v : Vetted c) (inv : Inv root c) (height : ℕ) : Vetted (c.pruneBodiesUpTo height).1 := by
  have h := inv.prune_pruned height
  generalize c.pruneBodiesUpTo height = r at h
  cases h with
  | kept => exact v
  | moved hlt hlen hl => exact v.raiseFloor inv hlt hlen hl

end Vetted
end Chain
end SpiritChat
