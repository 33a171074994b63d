import SpiritChat.Theorems.BlockTree

/-! # Fork choice

A chain that only ever grew from genesis holds exactly the part of the block tree that was submitted to it,
and its tip is the first block of the greatest work. Hence the order of arrival does not matter. -/

namespace SpiritChat
open Lib

namespace Chain

section
variable {F : Type} [Float64 F] [Primitives] {c : Chain F} {root h : Hash32} {l : List Hash32} {b : Block}
  {now : ℕ} {m : BlockMeta F} {submitted : Block → ℕ → Prop}

/-- Submits blocks one after the other, each with the clock at its arrival. -/
def applyAll (c : Chain F) (submissions : List (Block × ℕ)) : Chain F :=
  submissions.foldl (fun c s => (c.tryApply s.1 s.2).1) c

theorem applyAll_append {xs ys : List (Block × ℕ)} : c.applyAll (xs ++ ys) = (c.applyAll xs).applyAll ys := by
  simp [applyAll]

/-! ### What a call does to the metadata -/

theorem Inv.metas_tryApply (inv : Inv root c) (hz : b.hash ≠ .zero) (now : ℕ) (h : Hash32) :
    (c.tryApply b now).1.metas h = c.metas h ∨ h = b.hash ∧ c.metas h = none := by
  have ha := inv.tryApply_applied hz now
  generalize (c.tryApply b now).1 = c' at ha
  generalize (c.tryApply b now).2 = r at ha
  by_cases hb : h = b.hash
  · cases ha with
    | known => exact Or.inl rfl
    | rejected => exact Or.inl rfl
    | fork a => exact Or.inr ⟨hb, hb ▸ a.new⟩
    | tip a => exact Or.inr ⟨hb, hb ▸ a.new⟩
  · left
    cases ha with
    | known => rfl
    | rejected => rfl
    | fork => exact Table.insert_of_ne hb
    | tip => exact Table.insert_of_ne hb

theorem Inv.metas_tryApply_of_some (inv : Inv root c) (hz : b.hash ≠ .zero) (hm : c.metas h = some m) :
    (c.tryApply b now).1.metas h = some m := by
  rcases inv.metas_tryApply hz now h with hk | ⟨-, hk⟩
  · rw [hk, hm]
  · rw [hk] at hm
    cases hm

/-! ### Grown chains -/

/-- A chain that grew from genesis out of submitted blocks and was never pruned. -/
structure Grown (submitted : Block → ℕ → Prop) (c : Chain F) : Prop where
  inv : Inv Block.genesis.hash c
  floor : c.floorHash = Block.genesis.hash ∧ c.floorHeight = 0
  line : ∀ h, (c.metas h).isSome → ∃ l, c.Descends h l
  derives : ∀ h l m, c.Descends h l → c.metas h = some m → Derives F submitted h (c.branch l) (c.ownersOn l) m
  best : c.Best

namespace Grown

theorem new (hz : Block.genesis.hash ≠ .zero) : Grown submitted (Chain.new : Chain F) where
  inv := .new hz
  floor := ⟨rfl, rfl⟩
  line := by
    intro h hk
    obtain ⟨m, hm⟩ := Option.isSome_iff_exists.mp hk
    rcases Table.insert_eq_some.mp hm with ⟨rfl, -⟩ | ⟨-, hm⟩
    · exact ⟨_, .floor⟩
    · cases hm
  derives := by
    intro h l m hl hm
    obtain rfl := descends_floor_of_single (c := (Chain.new : Chain F)) rfl hl
    obtain rfl := Lineage.eq_floor hl
    have hg : (Chain.new : Chain F).metas Block.genesis.hash = some (genesisMeta F) := Table.insert_self
    obtain rfl : genesisMeta F = m := Option.some.inj (hg.symm.trans hm)
    have hbranch : (Chain.new : Chain F).branch [Block.genesis.hash] = [(genesisMeta F).ancestor Block.genesis.hash] :=
      congrArg (fun x => [x]) (ancestorOf_eq hg)
    show Derives F submitted Block.genesis.hash ((Chain.new : Chain F).branch [Block.genesis.hash]) Table.empty _
    rw [hbranch]
    exact .genesis
  best := by
    refine ⟨_, Table.insert_self, fun h m hm => ?_⟩
    rcases Table.insert_eq_some.mp hm with ⟨-, rfl⟩ | ⟨-, hm⟩
    · exact le_refl _
    · cases hm

theorem mono {submitted' : Block → ℕ → Prop} (hs : ∀ b now, submitted b now → submitted' b now)
    (g : Grown submitted c) : Grown submitted' c :=
  ⟨g.inv, g.floor, g.line, fun h l m hl hm => (g.derives h l m hl hm).mono hs, g.best⟩

/-- A new block on top of its parent's path. -/
theorem line_accept (g : Grown submitted c) {pm : BlockMeta F} (a : c.Accepts b now pm l) (hz : b.hash ≠ .zero) :
    ∀ h, ((c.accepted b pm).metas h).isSome → ∃ l, (c.accepted b pm).Descends h l := by
  intro k hk
  by_cases hkb : k = b.hash
  · subst hkb
    exact ⟨_, a.descends g.inv hz⟩
  · have hkept : (c.accepted b pm).metas k = c.metas k := Table.insert_of_ne hkb
    rw [hkept] at hk
    obtain ⟨l', hl'⟩ := g.line k hk
    exact ⟨l', (descends_store g.inv a.new hz hkb).mpr hl'⟩

theorem derives_accept (g : Grown submitted c) {pm : BlockMeta F} (a : c.Accepts b now pm l) (hz : b.hash ≠ .zero)
    (hb : submitted b now) (k : Hash32) (l' : List Hash32) (m : BlockMeta F) (hl' : (c.accepted b pm).Descends k l')
    (hm : (c.accepted b pm).metas k = some m) :
    Derives F submitted k ((c.accepted b pm).branch l') ((c.accepted b pm).ownersOn l') m := by
  by_cases hkb : k = b.hash
  · subst hkb
    obtain rfl : childMeta pm b = m := Option.some.inj (Table.insert_self.symm.trans hm)
    obtain rfl := (a.descends g.inv hz).unique hl'
    have hbranch : (c.accepted b pm).branch (l ++ [b.hash]) = c.branch l ++ [(childMeta pm b).ancestor b.hash] := by
      rw [← branch_store_of_known a.new (g.inv.known a.line)]
      simp only [branch, List.map_append, List.map_cons, List.map_nil, ancestorOf_eq hm]
      rfl
    rw [hbranch, ownersOn_store_child g.inv a.new a.line]
    have hadm := a.admits
    rw [ancestorOf_eq a.parent] at hadm
    exact .child (g.derives _ _ _ a.line a.parent) hb hadm
  · have hl := (descends_store g.inv a.new hz hkb).mp hl'
    rw [show (c.accepted b pm).metas k = c.metas k from Table.insert_of_ne hkb] at hm
    rw [branch_store_of_known a.new (g.inv.known hl), ownersOn_store g.inv a.new hl]
    exact g.derives k l' m hl hm

theorem tryApply (g : Grown submitted c) (hz : b.hash ≠ .zero) (hb : submitted b now) :
    Grown submitted (c.tryApply b now).1 := by
  have hbest := g.best.tryApply g.inv hz now
  have h := g.inv.tryApply_applied hz now
  generalize (c.tryApply b now).1 = c' at h hbest
  generalize (c.tryApply b now).2 = r at h
  cases h with
  | known => exact g
  | rejected => exact g
  | fork a => exact ⟨a.inv g.inv hz, g.floor, g.line_accept a hz, g.derives_accept a hz hb, hbest⟩
  | tip a =>
    exact ⟨(a.inv g.inv hz).setTip (a.descends g.inv hz), g.floor, g.line_accept a hz, g.derives_accept a hz hb, hbest⟩

theorem applyAll {submissions : List (Block × ℕ)} (g : Grown submitted c)
    (hs : ∀ s ∈ submissions, s.1.hash ≠ .zero ∧ submitted s.1 s.2) : Grown submitted (c.applyAll submissions) := by
  induction submissions generalizing c with
  | nil => exact g
  | cons s submissions ih =>
    obtain ⟨hz, hb⟩ := hs s List.mem_cons_self
    exact ih (g.tryApply hz hb) fun x hx => hs x (List.mem_cons_of_mem _ hx)

theorem metas_applyAll {submissions : List (Block × ℕ)} (g : Grown submitted c)
    (hs : ∀ s ∈ submissions, s.1.hash ≠ .zero ∧ submitted s.1 s.2) (hm : c.metas h = some m) :
    (c.applyAll submissions).metas h = some m := by
  induction submissions generalizing c with
  | nil => exact hm
  | cons s submissions ih =>
    obtain ⟨hz, hb⟩ := hs s List.mem_cons_self
    exact ih (g.tryApply hz hb) (fun x hx => hs x (List.mem_cons_of_mem _ hx)) (g.inv.metas_tryApply_of_some hz hm)

/-- A hash known after some submissions was known before or is the hash of one of them. -/
theorem known_of_applyAll {submissions : List (Block × ℕ)} (g : Grown submitted c)
    (hs : ∀ s ∈ submissions, s.1.hash ≠ .zero ∧ submitted s.1 s.2) (hk : ((c.applyAll submissions).metas h).isSome) :
    (c.metas h).isSome ∨ ∃ s ∈ submissions, s.1.hash = h := by
  induction submissions generalizing c with
  | nil => exact Or.inl hk
  | cons s submissions ih =>
    obtain ⟨hz, hb⟩ := hs s List.mem_cons_self
    rcases ih (g.tryApply hz hb) (fun x hx => hs x (List.mem_cons_of_mem _ hx)) hk with hk | ⟨x, hx, rfl⟩
    · rcases g.inv.metas_tryApply hz s.2 h with heq | ⟨rfl, -⟩
      · rw [heq] at hk
        exact Or.inl hk
      · exact Or.inr ⟨s, List.mem_cons_self, rfl⟩
    · exact Or.inr ⟨x, List.mem_cons_of_mem _ hx, rfl⟩

/-- A block of the tree is known once it has been submitted after its parent became known. -/
theorem known_of_derives (g : Grown submitted c) (cf : CollisionFree fun b => ∃ now, submitted b now)
    {branch : List Ancestor} {owners : Owners} {pm : BlockMeta F}
    (hd : Derives F submitted b.header.prevHash branch owners pm) (hk : (c.metas b.header.prevHash).isSome)
    (hb : submitted b now) (ha : Rules.Admits F branch owners (pm.ancestor b.header.prevHash) b now) :
    ((c.tryApply b now).1.metas b.hash).isSome := by
  have hz : b.hash ≠ .zero := cf.nonzero b (.inr ⟨now, hb⟩)
  obtain ⟨l, hl⟩ := g.line _ hk
  obtain ⟨pm', hpm⟩ := Option.isSome_iff_exists.mp hk
  obtain ⟨rfl, rfl, rfl⟩ := (g.derives _ l pm' hl hpm).unique cf hd
  have hvalid : validateBlock c b now = .ok () := by
    refine (g.inv.rooted.validateBlock_eq_ok hl (g.inv.bodies_of_descends hl)).mpr ?_
    rw [ancestorOf_eq hpm]
    exact ha
  have h := g.inv.tryApply_applied hz now
  generalize (c.tryApply b now).1 = c' at h
  generalize (c.tryApply b now).2 = r at h
  cases h with
  | known hk => exact hk
  | rejected _ he =>
    rw [hvalid] at he
    cases he
  | fork => simp [accepted, store]
  | tip => simp [Chain.setTip, accepted, store]

/-- Two chains grown out of the same tree agree on what they both know. -/
theorem agree (cf : CollisionFree fun b => ∃ now, submitted b now) {c' : Chain F} (g : Grown submitted c)
    (g' : Grown submitted c') {l' : List Hash32} (hl : c.Descends h l) (hl' : c'.Descends h l') :
    c.metas h = c'.metas h ∧ c.ownersOn l = c'.ownersOn l' := by
  obtain ⟨m, hm⟩ := Option.isSome_iff_exists.mp (g.inv.known hl h hl.mem_self)
  obtain ⟨m', hm'⟩ := Option.isSome_iff_exists.mp (g'.inv.known hl' h hl'.mem_self)
  obtain ⟨-, hown, rfl⟩ := (g.derives h l m hl hm).unique cf (g'.derives h l' m' hl' hm')
  exact ⟨hm.trans hm'.symm, hown⟩

end Grown

/-! ### Any order of arrival -/

/-- No block arrives before a block that it extends. -/
def ParentsFirst (bs : List Block) : Prop := bs.Pairwise fun earlier later => later.hash ≠ earlier.header.prevHash

instance (bs : List Block) : Decidable (ParentsFirst bs) := inferInstanceAs (Decidable (List.Pairwise _ _))

/-- All blocks, at one reading of the clock. -/
def arrivals (bs : List Block) (now : ℕ) : List (Block × ℕ) := bs.map fun b => (b, now)

/-- The chain after the blocks have arrived at a fresh node. -/
def receive (F : Type) [Float64 F] (bs : List Block) (now : ℕ) : Chain F := (Chain.new : Chain F).applyAll (arrivals bs now)

/-- The submissions of a list of blocks at one reading of the clock. -/
def Arrived (bs : List Block) (now : ℕ) (b : Block) (t : ℕ) : Prop := b ∈ bs ∧ t = now

section
variable {bs pre post : List Block}

theorem Grown.receive (cf : CollisionFree (· ∈ bs)) (hpre : pre ⊆ bs) (now : ℕ) :
    Grown (Arrived bs now) (Chain.receive F pre now) := by
  refine (Grown.new (cf.nonzero _ (.inl rfl))).applyAll fun s hs => ?_
  obtain ⟨b, hb, rfl⟩ := List.mem_map.mp hs
  exact ⟨cf.nonzero b (.inr (hpre hb)), hpre hb, rfl⟩

theorem receive_append : receive F (pre ++ post) now = (receive F pre now).applyAll (arrivals post now) := by
  simp only [receive, arrivals, List.map_append, applyAll_append]

theorem arrivals_valid (cf : CollisionFree (· ∈ bs)) (hpost : post ⊆ bs) (now : ℕ) :
    ∀ s ∈ arrivals post now, s.1.hash ≠ .zero ∧ Arrived bs now s.1 s.2 := by
  intro s hs
  obtain ⟨b, hb, rfl⟩ := List.mem_map.mp hs
  exact ⟨cf.nonzero b (.inr (hpost hb)), hpost hb, rfl⟩

/-- A chain that receives parents first knows the whole tree of the blocks. -/
theorem receive_of_derives (cf : CollisionFree (· ∈ bs)) (hfirst : ParentsFirst bs) {branch : List Ancestor}
    {owners : Owners} (hd : Derives F (Arrived bs now) h branch owners m) : (receive F bs now).metas h = some m := by
  have cf' : CollisionFree fun b => ∃ t, Arrived bs now b t := cf.mono fun b ⟨_, hb, _⟩ => hb
  have g := Grown.receive (F := F) cf (List.Subset.refl bs) now
  induction hd with
  | genesis =>
    exact (Grown.new (cf.nonzero _ (.inl rfl))).metas_applyAll (arrivals_valid cf (List.Subset.refl bs) now)
      Table.insert_self
  | @child b t branch owners pm hp hb ha ih =>
    have hchild := Derives.child hp hb ha
    obtain ⟨hmem, rfl⟩ := hb
    obtain ⟨pre, post, rfl⟩ := List.append_of_mem hmem
    have hpre : pre ⊆ pre ++ b :: post := List.subset_append_left _ _
    have hrest : b :: post ⊆ pre ++ b :: post := List.subset_append_right _ _
    have gpre := Grown.receive (F := F) cf hpre t
    -- The parent cannot be `b` itself, which is one higher, nor one that arrives later.
    have hparent : ((receive F pre t).metas b.header.prevHash).isSome := by
      rw [receive_append] at ih
      rcases gpre.known_of_applyAll (arrivals_valid cf hrest t) (by rw [ih]; rfl) with hk | ⟨s, hs, heq⟩
      · exact hk
      · obtain ⟨x, hx, rfl⟩ := List.mem_map.mp hs
        rcases List.mem_cons.mp hx with rfl | hx
        · change x.hash = x.header.prevHash at heq
          rw [← heq] at hp
          obtain ⟨-, -, hm⟩ := hp.unique cf' hchild
          have hheight := ha.height
          have hself : pm.height = x.header.height.toNat := congrArg BlockMeta.height hm
          change x.header.height.toNat = pm.height + 1 at hheight
          omega
        · have := (List.pairwise_append.mp hfirst).2.1
          exact absurd heq (List.rel_of_pairwise_cons this hx)
    have hknown := gpre.known_of_derives cf' hp hparent ⟨hmem, rfl⟩ ha
    obtain ⟨m', hm'⟩ := Option.isSome_iff_exists.mp hknown
    have hafter : (receive F (pre ++ b :: post) t).metas b.hash = some m' := by
      have hsplit : pre ++ b :: post = (pre ++ [b]) ++ post := by simp
      have hb' : receive F (pre ++ [b]) t = ((receive F pre t).tryApply b t).1 := by rw [receive_append]; rfl
      have hpost : post ⊆ pre ++ b :: post := fun x hx => hrest (List.mem_cons_of_mem _ hx)
      have g' : Grown _ ((receive F pre t).tryApply b t).1 := gpre.tryApply (cf.nonzero b (.inr hmem)) ⟨hmem, rfl⟩
      rw [hsplit, receive_append, hb']
      exact g'.metas_applyAll (arrivals_valid cf hpost t) hm'
    obtain ⟨l, hl⟩ := g.line b.hash (by simp [hafter])
    obtain ⟨-, -, rfl⟩ := (g.derives _ l m' hl hafter).unique cf' hchild
    exact hafter

/-- The tip has the greatest work, and nothing that was accepted before it has as much. -/
def HeaviestFirst (F : Type) [Float64 F] (bs : List Block) (now : ℕ) : Prop :=
  ∃ tm, (receive F bs now).metas (receive F bs now).tipHash = some tm ∧
    (∀ h m, (receive F bs now).metas h = some m → m.cumulativeWork ≤ tm.cumulativeWork) ∧
    ∀ pre, pre <+: bs → (receive F pre now).metas (receive F bs now).tipHash = none →
      ∀ h m, (receive F pre now).metas h = some m → m.cumulativeWork < tm.cumulativeWork

theorem heaviestFirst (cf : CollisionFree (· ∈ bs)) : HeaviestFirst F bs now := by
  suffices hrec : ∀ pre, pre <+: bs → HeaviestFirst F pre now from hrec bs List.prefix_rfl
  intro pre
  induction pre using List.reverseRecOn with
  | nil =>
    intro _
    obtain ⟨tm, htm, hbest⟩ := (Grown.receive (F := F) cf (List.nil_subset bs) now).best
    refine ⟨tm, htm, hbest, fun pre hpre hnone => ?_⟩
    obtain rfl := List.prefix_nil.mp hpre
    exact absurd (htm.symm.trans hnone) (by simp)
  | append_singleton pre b ih =>
    intro hpre
    have hsub : pre ⊆ bs := fun x hx => hpre.subset (List.mem_append_left _ hx)
    have hb : b ∈ bs := hpre.subset (by simp)
    obtain ⟨tm, htm, hbest, hfirst⟩ := ih ((List.prefix_append _ _).trans hpre)
    have g := Grown.receive (F := F) cf hsub now
    have hstep : receive F (pre ++ [b]) now = ((receive F pre now).tryApply b now).1 := by rw [receive_append]; rfl
    have g' : Grown _ ((receive F pre now).tryApply b now).1 := g.tryApply (cf.nonzero b (.inr hb)) ⟨hb, rfl⟩
    obtain ⟨tm', htm', hbest'⟩ := g'.best
    rw [← hstep] at htm' hbest'
    refine ⟨tm', htm', hbest', fun pre' hpre' hnone h m hm => ?_⟩
    rcases List.prefix_concat_iff.mp hpre' with rfl | hpre'
    · exact absurd (htm'.symm.trans hnone) (by simp)
    · have hsame : (receive F pre now).metas h = some m := by
        obtain ⟨rest, rfl⟩ := hpre'
        have hsub' : pre' ⊆ bs := fun x hx => hsub (List.mem_append_left _ hx)
        rw [receive_append]
        exact (Grown.receive cf hsub' now).metas_applyAll
          (arrivals_valid cf (fun x hx => hsub (List.mem_append_right _ hx)) now) hm
      have happ := g.inv.tryApply_applied (cf.nonzero b (.inr hb)) now
      rw [hstep] at htm' hnone
      generalize ((receive F pre now).tryApply b now).1 = c' at happ htm' hnone
      generalize ((receive F pre now).tryApply b now).2 = r at happ
      cases happ with
      | known =>
        obtain rfl : tm = tm' := Option.some.inj (htm.symm.trans htm')
        exact hfirst pre' hpre' hnone h m hm
      | rejected =>
        obtain rfl : tm = tm' := Option.some.inj (htm.symm.trans htm')
        exact hfirst pre' hpre' hnone h m hm
      | @fork pm _ _ a =>
        have hkept : ((receive F pre now).accepted b pm).metas (receive F pre now).tipHash = some tm :=
          (Table.insert_of_ne (ne_of_known a.new (by simp [htm]))).trans htm
        obtain rfl : tm = tm' := Option.some.inj (hkept.symm.trans htm')
        exact hfirst pre' hpre' hnone h m hm
      | @tip pm l w a hw hlt =>
        obtain ⟨tm₀, htm₀, rfl⟩ := hw
        obtain rfl : tm = tm₀ := Option.some.inj (htm.symm.trans htm₀)
        obtain rfl : childMeta pm b = tm' := Option.some.inj (Table.insert_self.symm.trans htm')
        exact lt_of_le_of_lt (hbest h m hsame) hlt

/-- One block has more work than all others. -/
def UniqueHeaviest (c : Chain F) : Prop :=
  ∃ h m, c.metas h = some m ∧ ∀ h' m', c.metas h' = some m' → h' ≠ h → m'.cumulativeWork < m.cumulativeWork

/-- The same blocks in two orders, parents first, make the same tree of metadata; the tip is the first of the
heaviest, and if there is only one then tip, index and owners agree. -/
theorem receive_order_independent {bs' : List Block} (hperm : bs.Perm bs') (hfirst : ParentsFirst bs)
    (hfirst' : ParentsFirst bs') (cf : CollisionFree (· ∈ bs)) (now : ℕ) :
    (receive F bs now).metas = (receive F bs' now).metas ∧
    HeaviestFirst F bs now ∧ HeaviestFirst F bs' now ∧
    (UniqueHeaviest (receive F bs now) →
      (receive F bs now).tipHash = (receive F bs' now).tipHash ∧
      (receive F bs now).canonicalIndex = (receive F bs' now).canonicalIndex ∧
      (receive F bs now).usernameOwner = (receive F bs' now).usernameOwner) := by
  have cf' : CollisionFree (· ∈ bs') := cf.mono fun b hb => hperm.mem_iff.mpr hb
  have hsame : ∀ b t, Arrived bs now b t ↔ Arrived bs' now b t := fun b t =>
    and_congr_left fun _ => hperm.mem_iff
  have cfs : CollisionFree fun b => ∃ t, Arrived bs now b t := cf.mono fun b ⟨_, hb, _⟩ => hb
  have g := Grown.receive (F := F) cf (List.Subset.refl bs) now
  have g' := (Grown.receive (F := F) cf' (List.Subset.refl bs') now).mono fun b t => (hsame b t).mpr
  have hmetas : (receive F bs now).metas = (receive F bs' now).metas := by
    funext h
    have hto : ∀ m, (receive F bs now).metas h = some m → (receive F bs' now).metas h = some m := by
      intro m hm
      obtain ⟨l, hl⟩ := g.line h (by simp [hm])
      exact receive_of_derives cf' hfirst' ((g.derives h l m hl hm).mono fun b t => (hsame b t).mp)
    have hfrom : ∀ m, (receive F bs' now).metas h = some m → (receive F bs now).metas h = some m := by
      intro m hm
      obtain ⟨l, hl⟩ := g'.line h (by simp [hm])
      exact receive_of_derives cf hfirst (g'.derives h l m hl hm)
    exact Option.ext fun m => ⟨hto m, hfrom m⟩
  refine ⟨hmetas, heaviestFirst cf, heaviestFirst cf', ?_⟩
  rintro ⟨h, m, hm, huniq⟩
  -- Both tips have the greatest work, which only `h` has.
  have htip : ∀ {c : Chain F}, c.metas = (receive F bs now).metas → c.Best → c.tipHash = h := by
    intro c hc hbest
    obtain ⟨tm, htm, hmax⟩ := hbest
    by_contra hne
    rw [hc] at htm hmax
    exact absurd (hmax h m hm) (not_le.mpr (huniq _ tm htm hne))
  have ht := htip rfl g.best
  have ht' := htip hmetas.symm g'.best
  obtain ⟨l, hl, hidx, hown⟩ := g.inv.tip
  obtain ⟨l', hl', hidx', hown'⟩ := g'.inv.tip
  have hpar : (receive F bs now).parentOf = (receive F bs' now).parentOf := by
    unfold parentOf
    rw [hmetas]
  have hll : l = l' := by
    rw [Descends, ht, g.floor.1] at hl
    rw [Descends, ht', g'.floor.1, ← hpar] at hl'
    exact hl.unique hl'
  refine ⟨ht.trans ht'.symm, funext fun n => ?_, ?_⟩
  · rw [hidx n (by rw [g.floor.2]; omega), hidx' n (by rw [g'.floor.2]; omega), g.floor.2, g'.floor.2, hll]
  · rw [ht] at hl
    rw [ht'] at hl'
    rw [hown, hown', (g.agree cfs g' hl hl').2]

end
end

attribute [local instance] unsigned in
theorem receive_order_independent_rivals :
    (receive ℚ [firstBlock, rivalBlock] minedAt).metas = (receive ℚ [rivalBlock, firstBlock] minedAt).metas :=
  have cf : CollisionFree (· ∈ [firstBlock, rivalBlock]) :=
    collisionFree_of_hashed (by decide +kernel) (by decide +kernel)
  (receive_order_independent (.swap _ _ _) (by decide +kernel) (by decide +kernel) cf minedAt).1

end Chain
end SpiritChat
