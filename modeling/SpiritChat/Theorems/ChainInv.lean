import SpiritChat.Theorems.Validated

/-! # The chain's invariant

The metadata form a tree under the root with the floor in it, every block above the floor has its body, and
the tip, the canonical index and the owners belong to one path from the floor. -/

namespace SpiritChat
open Lib

/-- The entries of a path, on top of the index that was there. -/
theorem insertAll_indexEntries {t : Table ℕ Hash32} {floorHeight n : ℕ} {path : List Hash32} :
    t.insertAll (Chain.indexEntries floorHeight path) n =
      if floorHeight ≤ n ∧ n < floorHeight + path.length then path[n - floorHeight]? else t n := by
  -- The offsets of the path's tail start at one, so the induction is over any first offset.
  suffices h : ∀ (path : List Hash32) (k : ℕ) (t : Table ℕ Hash32),
      t.insertAll ((path.zipIdx k).map fun e => (floorHeight + e.2, e.1)) n =
        if floorHeight + k ≤ n ∧ n < floorHeight + k + path.length then path[n - (floorHeight + k)]? else t n from
    h path 0 t
  intro path
  induction path with
  | nil =>
    intro k t
    simp only [List.zipIdx_nil, List.map_nil, Table.insertAll_nil, List.length_nil]
    rw [if_neg (by omega)]
  | cons a path ih =>
    intro k t
    simp only [List.zipIdx_cons, List.map_cons, Table.insertAll_cons, ih, List.length_cons, Table.insert_apply]
    by_cases h₁ : n = floorHeight + k
    · subst h₁
      rw [if_neg (by omega), if_pos rfl, if_pos (by omega)]
      simp
    · by_cases h₂ : floorHeight + k ≤ n ∧ n < floorHeight + k + (path.length + 1)
      · obtain ⟨j, hj⟩ : ∃ j, n - (floorHeight + k) = j + 1 := ⟨n - (floorHeight + k) - 1, by omega⟩
        rw [if_pos (by omega), if_pos h₂, hj, List.getElem?_cons_succ]
        congr 1
        omega
      · rw [if_neg (by omega), if_neg h₁, if_neg h₂]

namespace Chain
variable {F : Type} {c : Chain F} {root h k : Hash32} {l l' : List Hash32} {b : Block} {m pm : BlockMeta F}

/-- The canonical index holds the path above the floor, and nothing above its end. -/
def Indexes (c : Chain F) (l : List Hash32) : Prop :=
  ∀ n, c.floorHeight ≤ n → c.canonicalIndex n = l[n - c.floorHeight]?

/-- A known hash is not an unknown one. -/
theorem ne_of_known (hnew : c.metas h = none) (hk : (c.metas k).isSome) : k ≠ h := by
  rintro rfl
  rw [hnew] at hk
  cases hk

/-- The structural invariant of a chain with root `root`. -/
structure Inv [Float64 F] [Primitives] (root : Hash32) (c : Chain F) : Prop where
  zero : c.metas .zero = none
  rootMeta : ∃ m, c.metas root = some m ∧ m.prevHash = .zero
  parents : ∀ h m, c.metas h = some m → h ≠ root → ∃ p, c.metas m.prevHash = some p ∧ m.height = p.height + 1 ∧
    m.cumulativeWork = p.cumulativeWork + workOf m.difficultyTarget
  floor : ∃ m, c.metas c.floorHash = some m ∧ m.height = c.floorHeight
  stored : ∀ h b, c.blocks h = some b → b.hash = h ∧ ∃ m, c.metas h = some m ∧ m.Describes b
  bodies : ∀ h l, c.Descends h l → h ≠ c.floorHash → (c.blocks h).isSome
  tip : ∃ l, c.Descends c.tipHash l ∧ c.Indexes l ∧ c.usernameOwner = c.ownersOn l

section
variable [Float64 F] [Primitives]

namespace Inv

theorem rooted (inv : Inv root c) : c.Rooted where
  floor := inv.floor
  graded := by
    intro a p hp
    obtain ⟨m, q, hm, rfl, hq⟩ := parentOf_eq_some.mp hp
    have hne : a ≠ root := by
      rintro rfl
      obtain ⟨m', hm', hz⟩ := inv.rootMeta
      rw [hm] at hm'
      cases hm'
      rw [hz, inv.zero] at hq
      cases hq
    obtain ⟨q', hq', hh, -⟩ := inv.parents a m hm hne
    rw [heightOf_eq hm, heightOf_eq hq', hh]

/-- The parent of a known hash is not unknown unless the hash is the root. -/
theorem prevHash_known (inv : Inv root c) (hm : c.metas h = some m) : m.prevHash = .zero ∨ (c.metas m.prevHash).isSome := by
  by_cases hr : h = root
  · subst hr
    obtain ⟨m', hm', hz⟩ := inv.rootMeta
    rw [hm] at hm'
    cases hm'
    exact Or.inl hz
  · obtain ⟨q, hq, -⟩ := inv.parents h m hm hr
    exact Or.inr (by simp [hq])

theorem known (inv : Inv root c) (hl : c.Descends h l) : ∀ a ∈ l, (c.metas a).isSome :=
  lineage_known inv.rooted.floor_known hl

/-- The hashes of a path from the floor, the floor apart, have bodies. -/
theorem bodies_of_descends (inv : Inv root c) (hl : c.Descends h l) : ∀ a ∈ l, a ≠ c.floorHash → (c.blocks a).isSome := by
  intro a ha hne
  obtain ⟨l', hl', -⟩ := hl.exists_of_mem ha
  exact inv.bodies a l' hl' hne

theorem stateAt_eq (inv : Inv root c) (hl : c.Descends h l) : c.stateAt h = .ok (c.ownersOn l) :=
  inv.rooted.stateAt_eq hl (inv.bodies_of_descends hl)

/-- A body above the floor agrees with the metadata. -/
theorem body_of_descends (inv : Inv root c) (hl : c.Descends h l) (hne : h ≠ c.floorHash) :
    ∃ b m, c.blocks h = some b ∧ b.hash = h ∧ c.metas h = some m ∧ m.Describes b := by
  obtain ⟨b, hb⟩ := Option.isSome_iff_exists.mp (inv.bodies h l hl hne)
  obtain ⟨hh, m, hm, hd⟩ := inv.stored h b hb
  exact ⟨b, m, hb, hh, hm, hd⟩

end Inv

/-! ### Storing a block -/

section Store
variable (inv : Inv root c) (hnew : c.metas h = none) (hz : h ≠ .zero) (hp : (c.metas m.prevHash).isSome)
include inv hnew hz

theorem parentOf_store_of_ne (hk : k ≠ h) : (c.store h m b).parentOf k = c.parentOf k := by
  unfold parentOf store
  simp only [Table.insert_of_ne hk]
  cases hm : c.metas k with
  | none => rfl
  | some mk =>
    have hne : mk.prevHash ≠ h := by
      rintro he
      rcases inv.prevHash_known hm with h0 | h0
      · exact hz (he.symm.trans h0)
      · rw [he, hnew] at h0
        cases h0
    simp [Table.insert_of_ne hne]

/-- The path of another hash, from any known hash on, does not change. -/
theorem lineage_store {f : Hash32} (hk : k ≠ h) :
    Lineage (c.store h m b).parentOf f k l ↔ Lineage c.parentOf f k l := by
  constructor
  · intro hl
    induction hl with
    | floor => exact .floor
    | @child k p l hne hpar _ ih =>
      rw [parentOf_store_of_ne inv hnew hz hk] at hpar
      obtain ⟨-, q, -, -, hq⟩ := parentOf_eq_some.mp hpar
      exact .child hne hpar (ih (ne_of_known hnew (by simp [hq])))
  · intro hl
    refine hl.congr fun a ha hne => parentOf_store_of_ne inv hnew hz ?_
    obtain ⟨l', hl', -⟩ := hl.exists_of_mem ha
    obtain ⟨p, -, hp, -, -⟩ := hl'.exists_child hne
    obtain ⟨q, -, hq, -, -⟩ := parentOf_eq_some.mp hp
    exact ne_of_known hnew (by simp [hq])

include hp in
/-- The path of the new hash is that of its parent, and itself. -/
theorem lineage_store_self {f : Hash32} (hf : (c.metas f).isSome) :
    Lineage (c.store h m b).parentOf f h l' ↔ ∃ l, Lineage c.parentOf f m.prevHash l ∧ l' = l ++ [h] := by
  have hne : m.prevHash ≠ h := ne_of_known hnew hp
  have hpar : (c.store h m b).parentOf h = some m.prevHash := by
    obtain ⟨q, hq⟩ := Option.isSome_iff_exists.mp hp
    exact parentOf_eq_some.mpr ⟨m, q, by simp [store], rfl, by simp [store, Table.insert_of_ne hne, hq]⟩
  have hfloor : h ≠ f := (ne_of_known hnew hf).symm
  constructor
  · intro hl
    obtain ⟨p, l, hpar', hl, rfl⟩ := hl.exists_child hfloor
    rw [hpar, Option.some.injEq] at hpar'
    subst hpar'
    exact ⟨_, (lineage_store inv hnew hz hne).mp hl, rfl⟩
  · rintro ⟨l, hl, rfl⟩
    exact .child hfloor hpar ((lineage_store inv hnew hz hne).mpr hl)

theorem descends_store (hk : k ≠ h) : (c.store h m b).Descends k l ↔ c.Descends k l :=
  lineage_store inv hnew hz hk

include hp in
theorem descends_store_self :
    (c.store h m b).Descends h l' ↔ ∃ l, c.Descends m.prevHash l ∧ l' = l ++ [h] :=
  lineage_store_self inv hnew hz hp inv.rooted.floor_known

omit hz in
theorem ownersOn_store (hl : c.Descends k l) : (c.store h m b).ownersOn l = c.ownersOn l := by
  refine replay_congr (fun a ha => ?_) _
  exact Table.insert_of_ne (ne_of_known hnew (inv.known hl a (List.mem_of_mem_tail ha)))

omit hz in
/-- The owners of a new child: its parent's, and what it claims itself. -/
theorem ownersOn_store_child (hl : c.Descends k l) :
    (c.store h m b).ownersOn (l ++ [h]) = (c.ownersOn l).insertAll (b.claims h) := by
  have htail : (l ++ [h]).tail = l.tail ++ [h] := List.tail_append_of_ne_nil hl.ne_nil
  unfold ownersOn
  rw [htail, replay_append]
  have := ownersOn_store (b := b) (m := m) inv hnew hl
  unfold ownersOn at this
  rw [this]
  simp [replay, replayBody, store]

include hp in
/-- A block that fits under its parent keeps the invariant. -/
theorem Inv.store (hh : b.hash = h) (hd : m.Describes b)
    (hchild : ∀ p, c.metas m.prevHash = some p → m.height = p.height + 1 ∧
      m.cumulativeWork = p.cumulativeWork + workOf m.difficultyTarget) : Inv root (c.store h m b) where
  zero := (Table.insert_of_ne (Ne.symm hz)).trans inv.zero
  rootMeta := by
    obtain ⟨mr, hmr, hzr⟩ := inv.rootMeta
    exact ⟨mr, (Table.insert_of_ne (ne_of_known hnew (by simp [hmr]))).trans hmr, hzr⟩
  parents := by
    intro k mk hk hne
    have hkept : ∀ {x p}, c.metas x = some p → (c.store h m b).metas x = some p := fun hx =>
      (Table.insert_of_ne (ne_of_known hnew (by simp [hx]))).trans hx
    rcases Table.insert_eq_some.mp hk with ⟨rfl, rfl⟩ | ⟨-, hk⟩
    · obtain ⟨p, hp'⟩ := Option.isSome_iff_exists.mp hp
      exact ⟨p, hkept hp', hchild p hp'⟩
    · obtain ⟨p, hp', h1⟩ := inv.parents k mk hk hne
      exact ⟨p, hkept hp', h1⟩
  floor := by
    obtain ⟨mf, hmf, hf⟩ := inv.floor
    exact ⟨mf, (Table.insert_of_ne (ne_of_known hnew inv.rooted.floor_known)).trans hmf, hf⟩
  stored := by
    intro k b' hb
    rcases Table.insert_eq_some.mp hb with ⟨rfl, rfl⟩ | ⟨hk, hb⟩
    · exact ⟨hh, m, by simp [Chain.store], hd⟩
    · obtain ⟨h1, m', hm', hd'⟩ := inv.stored k b' hb
      exact ⟨h1, m', (Table.insert_of_ne hk).trans hm', hd'⟩
  bodies := by
    intro k l hl hne
    by_cases hk : k = h
    · subst hk
      simp [Chain.store]
    · have := inv.bodies k l ((descends_store inv hnew hz hk).mp hl) hne
      show ((c.blocks.insert h b) k).isSome
      rwa [Table.insert_of_ne hk]
  tip := by
    obtain ⟨l, hl, hidx, hown⟩ := inv.tip
    have hne : c.tipHash ≠ h := ne_of_known hnew (inv.known hl _ hl.mem_self)
    refine ⟨l, (descends_store inv hnew hz hne).mpr hl, hidx, ?_⟩
    rw [ownersOn_store inv hnew hl]
    exact hown

end Store

/-! ### A new tip -/

/-- The chain with another tip, at the end of the path `l`. -/
def setTip (c : Chain F) (h : Hash32) (l : List Hash32) : Chain F :=
  { c with
    canonicalIndex := Table.empty.insertAll (indexEntries c.floorHeight l)
    usernameOwner := c.ownersOn l
    tipHash := h }

/-- `set_canonical_tip` does not fail on a hash above the floor. -/
theorem Inv.setCanonicalTip_eq (inv : Inv root c) (hl : c.Descends h l) :
    c.setCanonicalTip h = (c.setTip h l, .ok ()) := by
  -- Computing the state reads neither the index nor the tip.
  have hstate : ∀ t, Chain.stateAt { c with canonicalIndex := t } h = .ok (c.ownersOn l) := fun t =>
    Rooted.stateAt_eq (c := { c with canonicalIndex := t }) ⟨inv.floor, inv.rooted.graded⟩ hl
      (inv.bodies_of_descends hl)
  simp only [setCanonicalTip, inv.rooted.ancestors_eq_ok.mpr hl, hstate, setTip]

theorem Inv.setTip (inv : Inv root c) (hl : c.Descends h l) : Inv root (c.setTip h l) where
  zero := inv.zero
  rootMeta := inv.rootMeta
  parents := inv.parents
  floor := inv.floor
  stored := inv.stored
  bodies := inv.bodies
  tip := by
    refine ⟨l, hl, fun n hn => ?_, rfl⟩
    change c.floorHeight ≤ n at hn
    show Table.empty.insertAll (indexEntries c.floorHeight l) n = _
    rw [insertAll_indexEntries]
    by_cases hlen : n < c.floorHeight + l.length
    · rw [if_pos ⟨hn, hlen⟩]
      rfl
    · rw [if_neg (by omega), List.getElem?_eq_none (by simp only [Chain.setTip]; omega)]
      rfl

/-! ### What `try_apply` does -/

/-- `b` is new and valid on top of `l`. -/
structure Accepts (c : Chain F) (b : Block) (now : ℕ) (pm : BlockMeta F) (l : List Hash32) : Prop where
  new : c.metas b.hash = none
  valid : validateBlock c b now = .ok ()
  parent : c.metas b.header.prevHash = some pm
  line : c.Descends b.header.prevHash l
  admits : Rules.Admits F (c.branch l) (c.ownersOn l) (c.ancestorOf b.header.prevHash) b now

/-- The chain that holds an accepted block. -/
abbrev accepted (c : Chain F) (b : Block) (pm : BlockMeta F) : Chain F := c.store b.hash (childMeta pm b) b

/-- The work of the tip. -/
def tipWork (c : Chain F) (w : F) : Prop := ∃ tm, c.metas c.tipHash = some tm ∧ tm.cumulativeWork = w

/-- The ways a call of `try_apply` can go. -/
inductive Applied (c : Chain F) (b : Block) (now : ℕ) : Chain F → Ledger ApplyOutcome → Prop
  | known : (c.metas b.hash).isSome → Applied c b now c (.ok .alreadyKnown)
  | rejected {e : Fault LedgerError} : c.metas b.hash = none → validateBlock c b now = .error e →
      Applied c b now c (.error e)
  | fork {pm : BlockMeta F} {l : List Hash32} {w : F} : c.Accepts b now pm l → c.tipWork w →
      (childMeta pm b).cumulativeWork ≤ w → Applied c b now (c.accepted b pm) (.ok .addedToFork)
  | tip {pm : BlockMeta F} {l : List Hash32} {w : F} : c.Accepts b now pm l → c.tipWork w →
      w < (childMeta pm b).cumulativeWork →
      Applied c b now ((c.accepted b pm).setTip b.hash (l ++ [b.hash]))
        (.ok (if b.header.prevHash = c.tipHash then .extendedTip else .reorgedTo b.header.height.toNat))

omit [Primitives] in
theorem childMeta_describes : (childMeta pm b).Describes b := ⟨rfl, rfl, rfl, rfl⟩

theorem branch_store_of_known {pm : BlockMeta F} (hnew : c.metas b.hash = none) (hk : ∀ a ∈ l, (c.metas a).isSome) :
    (c.accepted b pm).branch l = c.branch l := by
  refine List.map_congr_left fun a ha => ?_
  have hkept : (c.accepted b pm).metas a = c.metas a := Table.insert_of_ne (ne_of_known hnew (hk a ha))
  unfold ancestorOf
  rw [hkept]

namespace Accepts
variable {now : ℕ}

theorem parent_known (a : c.Accepts b now pm l) : (c.metas (childMeta pm b).prevHash).isSome := by
  simp [childMeta, a.parent]

theorem height (a : c.Accepts b now pm l) : b.header.height.toNat = pm.height + 1 := by
  have := a.admits.height
  rwa [ancestorOf_eq a.parent] at this

theorem inv (a : c.Accepts b now pm l) (inv : Inv root c) (hz : b.hash ≠ .zero) : Inv root (c.accepted b pm) := by
  refine inv.store a.new hz a.parent_known rfl childMeta_describes fun p hp => ?_
  have hp' : c.metas b.header.prevHash = some p := hp
  rw [a.parent, Option.some.injEq] at hp'
  subst hp'
  exact ⟨a.height, rfl⟩

/-- The accepted block descends from the floor. -/
theorem descends (a : c.Accepts b now pm l) (inv : Inv root c) (hz : b.hash ≠ .zero) :
    (c.accepted b pm).Descends b.hash (l ++ [b.hash]) :=
  (descends_store_self inv a.new hz a.parent_known).mpr ⟨l, a.line, rfl⟩

end Accepts

theorem Inv.accepts_of_validateBlock (inv : Inv root c) {now : ℕ} (hnew : c.metas b.hash = none)
    (hv : validateBlock c b now = .ok ()) : ∃ pm l, c.Accepts b now pm l := by
  obtain ⟨l, hl⟩ := inv.rooted.descends_of_validateBlock hv
  obtain ⟨pm, hpm⟩ := Option.isSome_iff_exists.mp (inv.known hl _ hl.mem_self)
  exact ⟨pm, l, hnew, hv, hpm, hl, (inv.rooted.validateBlock_eq_ok hl (inv.bodies_of_descends hl)).mp hv⟩

theorem Inv.tryApply_applied (inv : Inv root c) (hz : b.hash ≠ .zero) (now : ℕ) :
    c.Applied b now (c.tryApply b now).1 (c.tryApply b now).2 := by
  unfold tryApply
  by_cases hk : (c.metas b.hash).isSome
  · simp only [hk, ↓reduceIte]
    exact .known hk
  · have hnew : c.metas b.hash = none := by simpa using hk
    simp only [hk, Bool.false_eq_true, ↓reduceIte]
    cases hv : validateBlock c b now with
    | error e => exact .rejected hnew hv
    | ok _ =>
      obtain ⟨pm, l, a⟩ := inv.accepts_of_validateBlock hnew hv
      have inv' := a.inv inv hz
      obtain ⟨lt, hlt, -, -⟩ := inv.tip
      obtain ⟨tm, htm⟩ := Option.isSome_iff_exists.mp (inv.known hlt _ hlt.mem_self)
      have htm' : (c.accepted b pm).metas (c.accepted b pm).tipHash = some tm := by
        exact (Table.insert_of_ne (ne_of_known hnew (k := c.tipHash) (by simp [htm]))).trans htm
      simp only [a.parent, chooseTip, htm']
      by_cases hw : (childMeta pm b).cumulativeWork ≤ tm.cumulativeWork
      · simp only [hw, ↓reduceIte]
        exact .fork a ⟨tm, htm, rfl⟩ hw
      · simp only [hw, ↓reduceIte, inv'.setCanonicalTip_eq (a.descends inv hz)]
        exact .tip a ⟨tm, htm, rfl⟩ (not_le.mp hw)

/-- No known block has more work than the tip. -/
def Best (c : Chain F) : Prop :=
  ∃ tm, c.metas c.tipHash = some tm ∧ ∀ h m, c.metas h = some m → m.cumulativeWork ≤ tm.cumulativeWork

omit [Primitives] in
/-- A block that weighs no more than the tip leaves the tip the best one. -/
theorem Best.store (hb : c.Best) (hnew : c.metas h = none)
    (hle : ∀ tm, c.metas c.tipHash = some tm → m.cumulativeWork ≤ tm.cumulativeWork) : (c.store h m b).Best := by
  obtain ⟨tm, htm, hbest⟩ := hb
  refine ⟨tm, (Table.insert_of_ne (ne_of_known hnew (k := c.tipHash) (by simp [htm]))).trans htm, fun k mk hk => ?_⟩
  rcases Table.insert_eq_some.mp hk with ⟨-, rfl⟩ | ⟨-, hk⟩
  · exact hle tm htm
  · exact hbest k mk hk

omit [Primitives] in
/-- A block that weighs more than the tip is the best one. -/
theorem Best.store_setTip (hb : c.Best)
    (hlt : ∀ tm, c.metas c.tipHash = some tm → tm.cumulativeWork < m.cumulativeWork) :
    ((c.store h m b).setTip h l).Best := by
  obtain ⟨tm, htm, hbest⟩ := hb
  refine ⟨m, Table.insert_self, fun k mk hk => ?_⟩
  rcases Table.insert_eq_some.mp hk with ⟨-, rfl⟩ | ⟨-, hk⟩
  · exact le_refl _
  · exact le_trans (hbest k mk hk) (le_of_lt (hlt tm htm))

theorem Best.tryApply (hb : c.Best) (inv : Inv root c) (hz : b.hash ≠ .zero) (now : ℕ) : (c.tryApply b now).1.Best := by
  have h := inv.tryApply_applied hz now
  generalize (c.tryApply b now).1 = c' at h
  generalize (c.tryApply b now).2 = r at h
  cases h with
  | known => exact hb
  | rejected => exact hb
  | fork a hw hle =>
    obtain ⟨tm', htm', rfl⟩ := hw
    exact hb.store a.new fun tm htm => Option.some.inj (htm'.symm.trans htm) ▸ hle
  | tip a hw hlt =>
    obtain ⟨tm', htm', rfl⟩ := hw
    exact hb.store_setTip fun tm htm => Option.some.inj (htm'.symm.trans htm) ▸ hlt

/-- `try_apply` keeps the invariant. -/
theorem Inv.tryApply (inv : Inv root c) (hz : b.hash ≠ .zero) (now : ℕ) : Inv root (c.tryApply b now).1 := by
  have h := inv.tryApply_applied hz now
  generalize (c.tryApply b now).1 = c' at h
  generalize (c.tryApply b now).2 = r at h
  cases h with
  | known => exact inv
  | rejected => exact inv
  | fork a => exact a.inv inv hz
  | tip a => exact (a.inv inv hz).setTip (a.descends inv hz)

end
end Chain
end SpiritChat
