import SpiritChat.Ledger.Rules
import SpiritChat.Theorems.Ancestors

/-! # Validation checks the rules

`validate_block` accepts a block exactly when the branch of its parent, from the chain's floor on, admits
it. -/

namespace SpiritChat
open Lib

/-- In a list whose keys count up from `n`, a key is found at its distance from `n`. -/
theorem find?_of_counting {α : Type} {key : α → ℕ} {xs : List α} {n : ℕ}
    (h : ∀ i a, xs[i]? = some a → key a = n + i) (k : ℕ) :
    xs.find? (fun a => key a = k) = if n ≤ k then xs[k - n]? else none := by
  induction xs generalizing n with
  | nil => simp
  | cons x xs ih =>
    have hx : key x = n := h 0 x rfl
    have ih' := ih (n := n + 1) fun i a hi => by rw [h (i + 1) a (by simpa using hi)]; omega
    by_cases hk : n = k
    · simp [hx, hk]
    · rw [List.find?_cons_of_neg (by simpa [hx] using hk), ih']
      by_cases hle : n + 1 ≤ k
      · obtain ⟨j, hj⟩ : ∃ j, k - n = j + 1 := ⟨k - n - 1, by omega⟩
        rw [if_pos hle, if_pos (by omega), hj, List.getElem?_cons_succ]
        congr 1
        omega
      · rw [if_neg hle, if_neg (by omega)]

namespace Chain
variable {F : Type} {c : Chain F} {h : Hash32} {l : List Hash32}

/-- What the rules read of a known hash. -/
def ancestorOf (c : Chain F) (h : Hash32) : Ancestor :=
  match c.metas h with
  | none => { hash := h, height := 0, timestamp := 0, difficultyTarget := 0 }
  | some m => { hash := h, height := m.height, timestamp := m.timestamp, difficultyTarget := m.difficultyTarget }

/-- What the rules read of a path. -/
def branch (c : Chain F) (l : List Hash32) : List Ancestor := l.map c.ancestorOf

@[simp] theorem ancestorOf_hash (c : Chain F) (h : Hash32) : (c.ancestorOf h).hash = h := by
  unfold ancestorOf
  split <;> rfl

theorem ancestorOf_eq {m : BlockMeta F} (hm : c.metas h = some m) :
    c.ancestorOf h = { hash := h, height := m.height, timestamp := m.timestamp, difficultyTarget := m.difficultyTarget } := by
  simp [ancestorOf, hm]

theorem ancestorOf_height (c : Chain F) (h : Hash32) : (c.ancestorOf h).height = c.heightOf h := by
  unfold ancestorOf heightOf
  cases c.metas h <;> rfl

theorem timestamps_eq (hk : ∀ a ∈ l, (c.metas a).isSome) : c.timestamps l = .ok ((c.branch l).map (·.timestamp)) := by
  induction l with
  | nil => rfl
  | cons a l ih =>
    obtain ⟨m, hm⟩ := Option.isSome_iff_exists.mp (hk a List.mem_cons_self)
    simp only [timestamps, hm, Exec.expect_some, Exec.ok_bind, ih fun x hx => hk x (List.mem_cons_of_mem _ hx)]
    simp [branch, ancestorOf_eq hm, pure, Except.pure]

/-- Heights along a path count up. -/
theorem Graded.height_branch (hg : c.Graded) {f : Hash32} (hl : Lineage c.parentOf f h l) :
    ∀ i a, (c.branch l)[i]? = some a → a.height = c.heightOf f + i := by
  intro i a ha
  simp only [branch, List.getElem?_map, Option.map_eq_some_iff] at ha
  obtain ⟨x, hx, rfl⟩ := ha
  rw [ancestorOf_height, hl.height_getElem? hg hx]

theorem Rooted.height_branch (r : c.Rooted) (hl : c.Descends h l) :
    ∀ i a, (c.branch l)[i]? = some a → a.height = c.floorHeight + i := by
  rw [← r.heightOf_floor]
  exact r.graded.height_branch hl

theorem Rooted.medianTimePast_eq (r : c.Rooted) (hl : c.Descends h l) :
    c.medianTimePast h = Exec.expect (Rules.median ((c.branch l).map (·.timestamp))) := by
  have hk := lineage_known r.floor_known hl
  unfold medianTimePast
  rw [r.ancestors_eq_ok.mpr hl, Exec.ok_bind]
  simp only [timestamps_eq fun a ha => hk a (List.mem_of_mem_drop ha), Exec.ok_bind, Rules.median, branch,
    List.map_map, List.map_drop, List.length_map]

section
variable [Float64 F]

theorem Rooted.expectedDifficulty_eq_ok (r : c.Rooted) (hl : c.Descends h l) {t : CompactTarget} :
    c.expectedDifficulty h = .ok t ↔ Rules.target F (c.branch l) (c.ancestorOf h) = some t := by
  have hk := lineage_known r.floor_known hl
  obtain ⟨m, hm⟩ := Option.isSome_iff_exists.mp (hk h hl.mem_self)
  unfold expectedDifficulty Rules.target
  simp only [hm, Exec.ofOption_some, Exec.ok_bind, ancestorOf_eq hm]
  by_cases hb : (m.height + 1) % retargetIntervalBlocks ≠ 0
  · simp only [ne_eq, hb, not_false_eq_true, ↓reduceIte, Option.some.injEq]
    simp [pure, Except.pure]
  · simp only [hb, ↓reduceIte, r.ancestors_eq_ok.mpr hl, Exec.ok_bind]
    rw [find?_of_counting (r.height_branch hl)]
    by_cases hf : c.floorHeight ≤ m.height + 1 - retargetIntervalBlocks
    · simp only [checkedSub, hf, ↓reduceIte, Exec.ofOption_some, Exec.ok_bind, branch, List.getElem?_map]
      cases hs : l[m.height + 1 - retargetIntervalBlocks - c.floorHeight]? with
      | none => simp
      | some s =>
        obtain ⟨sm, hsm⟩ := Option.isSome_iff_exists.mp (hk s (List.mem_of_getElem? hs))
        simp [hsm, ancestorOf_eq hsm, pure, Except.pure]
    · simp [checkedSub, hf]

end

section
variable [Primitives]

/-- What the loop over the transactions checks of one transaction. -/
def TransactionOk (c : Chain F) (b : Block) (owners : Owners) (ancestry : List Hash32) (tx : Transaction) : Prop :=
  tx.verifySelfContained = .ok () ∧ tx.anchorBlockHash ∈ ancestry ∧
    (∃ m, c.metas tx.anchorBlockHash = some m ∧ b.header.height.toNat - m.height ≤ anchorMaxAgeBlocks) ∧
    owners tx.username = none

theorem validateTransaction_eq_ok {b : Block} {owners : Owners} {ancestry : List Hash32} {claimed r : List String}
    {tx : Transaction} :
    validateTransaction c b owners ancestry claimed tx = .ok r ↔
      c.TransactionOk b owners ancestry tx ∧ tx.username ∉ claimed ∧ r = tx.username :: claimed := by
  unfold validateTransaction TransactionOk
  rw [except_bind_eq_ok]
  simp only [Exec.guard_eq_ok, not_not, except_bind_eq_ok, Exec.ofOption_eq_ok, Except.ok.injEq]
  constructor
  · rintro ⟨⟨⟩, hv, ha, m, hm, hage, hown, hnc, rfl⟩
    exact ⟨⟨hv, ha, ⟨m, hm, by omega⟩, by simpa using hown⟩, hnc, rfl⟩
  · rintro ⟨⟨hv, ha, ⟨m, hm, hage⟩, hown⟩, hnc, rfl⟩
    exact ⟨(), hv, ha, m, hm, by omega, by simp [hown], hnc, rfl⟩

/-- The loop succeeds when each transaction passes and no username comes twice. -/
theorem foldlM_validateTransaction {b : Block} {owners : Owners} {ancestry : List Hash32} (txs : List Transaction)
    (claimed : List String) :
    (∃ r, txs.foldlM (validateTransaction c b owners ancestry) claimed = .ok r) ↔
      (∀ tx ∈ txs, c.TransactionOk b owners ancestry tx ∧ tx.username ∉ claimed) ∧ (txs.map (·.username)).Nodup := by
  induction txs generalizing claimed with
  | nil => simp [pure, Except.pure]
  | cons tx txs ih =>
    simp only [List.foldlM_cons, except_bind_eq_ok, validateTransaction_eq_ok]
    constructor
    · rintro ⟨r, claimed', ⟨hok, hnc, rfl⟩, hr⟩
      obtain ⟨hall, hnd⟩ := (ih _).mp ⟨r, hr⟩
      simp only [List.mem_cons, not_or] at hall
      refine ⟨fun t ht => ?_, ?_⟩
      · rcases List.mem_cons.mp ht with rfl | ht
        · exact ⟨hok, hnc⟩
        · exact ⟨(hall t ht).1, (hall t ht).2.2⟩
      · simp only [List.map_cons, List.nodup_cons, List.mem_map, not_exists, not_and]
        exact ⟨fun t ht => (hall t ht).2.1, hnd⟩
    · rintro ⟨hall, hnd⟩
      simp only [List.map_cons, List.nodup_cons, List.mem_map, not_exists, not_and] at hnd
      have hrest : ∀ t ∈ txs, c.TransactionOk b owners ancestry t ∧ t.username ∉ tx.username :: claimed := by
        intro t ht
        have := hall t (List.mem_cons_of_mem _ ht)
        exact ⟨this.1, by simpa only [List.mem_cons, not_or] using ⟨hnd.1 t ht, this.2⟩⟩
      obtain ⟨r, hr⟩ := (ih (tx.username :: claimed)).mpr ⟨hrest, hnd.2⟩
      exact ⟨r, _, ⟨(hall tx List.mem_cons_self).1, (hall tx List.mem_cons_self).2, rfl⟩, hr⟩

theorem validateTransactions_eq_ok {b : Block} {owners : Owners} {ancestry : List Hash32}
    (hs : c.stateAt b.header.prevHash = .ok owners) (ha : c.ancestors b.header.prevHash = .ok ancestry) :
    validateTransactions c b = .ok () ↔
      (∀ tx ∈ b.transactions, c.TransactionOk b owners ancestry tx) ∧ (b.transactions.map (·.username)).Nodup := by
  unfold validateTransactions
  by_cases hnil : b.transactions = []
  · simp [hnil]
  · simp only [hnil, ↓reduceIte, hs, ha, Exec.ok_bind]
    rw [except_bind_eq_ok]
    have hloop : (∃ r, b.transactions.foldlM (validateTransaction c b owners ancestry) [] = .ok r) ↔ _ :=
      foldlM_validateTransaction b.transactions []
    simp only [List.not_mem_nil, not_false_eq_true, and_true] at hloop
    rw [← hloop]
    simp [pure, Except.pure]

/-- Validation of a block whose parent is above the floor. -/
theorem Rooted.validateBlock_eq_ok [Float64 F] (r : c.Rooted) {b : Block} (hl : c.Descends b.header.prevHash l)
    (hb : ∀ a ∈ l, a ≠ c.floorHash → (c.blocks a).isSome) {now : ℕ} :
    validateBlock c b now = .ok () ↔
      Rules.Admits F (c.branch l) (c.ownersOn l) (c.ancestorOf b.header.prevHash) b now := by
  have hk := lineage_known r.floor_known hl
  obtain ⟨m, hm⟩ := Option.isSome_iff_exists.mp (hk _ hl.mem_self)
  have htx := validateTransactions_eq_ok (b := b) (r.stateAt_eq hl hb) (r.ancestors_eq_ok.mpr hl)
  have hanchor : ∀ tx : Transaction, (∃ a ∈ c.branch l, a.hash = tx.anchorBlockHash ∧
        b.header.height.toNat - a.height ≤ anchorMaxAgeBlocks) ↔
      tx.anchorBlockHash ∈ l ∧ ∃ m, c.metas tx.anchorBlockHash = some m ∧
        b.header.height.toNat - m.height ≤ anchorMaxAgeBlocks := by
    intro tx
    constructor
    · rintro ⟨a, ha, hh, hage⟩
      obtain ⟨x, hx, rfl⟩ := List.mem_map.mp ha
      rw [ancestorOf_hash] at hh
      subst hh
      obtain ⟨xm, hxm⟩ := Option.isSome_iff_exists.mp (hk _ hx)
      exact ⟨hx, xm, hxm, by rwa [ancestorOf_eq hxm] at hage⟩
    · rintro ⟨hx, xm, hxm, hage⟩
      exact ⟨_, List.mem_map.mpr ⟨_, hx, rfl⟩, ancestorOf_hash _ _, by rwa [ancestorOf_eq hxm]⟩
  unfold validateBlock
  simp only [Exec.guard_eq_ok, hm, Exec.ofOption_some, Exec.ok_bind, except_bind_eq_ok, not_lt, not_not,
    r.expectedDifficulty_eq_ok hl, r.medianTimePast_eq hl, Exec.expect_eq_ok, htx, gt_iff_lt, Bool.not_eq_true',
    Bool.not_eq_false, not_le]
  constructor
  · rintro ⟨hcount, hsize, hcommit, hheight, t, ht, rfl, hwork, med, hmed, hpast, hdrift, htxs, hnd⟩
    exact
      { sound := ⟨hcount, hsize, hcommit, fun tx h => (htxs tx h).1, hnd⟩
        height := by rw [ancestorOf_eq hm]; exact hheight
        target := ht
        work := hwork
        past := ⟨med, hmed, hpast⟩
        drift := hdrift
        anchored := fun tx h => (hanchor tx).mpr ⟨(htxs tx h).2.1, (htxs tx h).2.2.1⟩
        unclaimed := fun tx h => (htxs tx h).2.2.2 }
  · intro ha
    obtain ⟨med, hmed, hpast⟩ := ha.past
    refine ⟨ha.sound.count, ha.sound.size, ha.sound.commitment, ?_, _, ha.target, rfl, ha.work, med, hmed, hpast,
      ha.drift, fun tx h => ⟨ha.sound.signed tx h, ((hanchor tx).mp (ha.anchored tx h)).1,
        ((hanchor tx).mp (ha.anchored tx h)).2, ha.unclaimed tx h⟩, ha.sound.distinct⟩
    have := ha.height
    rwa [ancestorOf_eq hm] at this

/-- A valid block extends a path from the floor. -/
theorem Rooted.descends_of_validateBlock [Float64 F] (r : c.Rooted) {b : Block} {now : ℕ}
    (hv : validateBlock c b now = .ok ()) : ∃ l, c.Descends b.header.prevHash l := by
  unfold validateBlock at hv
  simp only [Exec.guard_eq_ok, except_bind_eq_ok] at hv
  obtain ⟨-, -, -, _, -, -, _, -, -, -, _, hmed, -⟩ := hv
  unfold medianTimePast at hmed
  obtain ⟨l, hl, -⟩ := except_bind_eq_ok.mp hmed
  exact ⟨l, r.ancestors_eq_ok.mp hl⟩

end
end Chain
end SpiritChat
