import Mathlib.Logic.Relation
import SpiritChat.Theorems.MedianTime

/-! # The ancestry walk

`ancestors` ends on every hash of every reachable chain. It finds the path of what descends from the floor, reports
everything else as unknown, and what is indexed by its result is there. -/

namespace SpiritChat
open Lib

namespace Chain
variable {F : Type} {c : Chain F} {root h k : Hash32} {l : List Hash32}

/-- `k` is known, and `h` is its parent. -/
def ChildOf (c : Chain F) (h k : Hash32) : Prop := ∃ m, c.metas k = some m ∧ m.prevHash = h

/-- `h` is the floor or a known descendant of it. -/
abbrev FromFloor (c : Chain F) (h : Hash32) : Prop := Relation.ReflTransGen c.ChildOf c.floorHash h

/-! ### Descendants of the floor -/

theorem FromFloor.of_descends (hl : c.Descends h l) : c.FromFloor h := by
  induction hl with
  | floor => exact .refl
  | child _ hp _ ih =>
    obtain ⟨m, -, hm, hprev, -⟩ := parentOf_eq_some.mp hp
    exact ih.tail ⟨m, hm, hprev⟩

theorem Rooted.descends_of_fromFloor (r : c.Rooted) (h : c.FromFloor k) : ∃ l, c.Descends k l := by
  induction h with
  | refl => exact ⟨_, .floor⟩
  | @tail p k _ hchild ih =>
    obtain ⟨l, hl⟩ := ih
    obtain ⟨m, hm, rfl⟩ := hchild
    obtain ⟨q, hq⟩ := Option.isSome_iff_exists.mp (lineage_known r.floor_known hl _ hl.mem_self)
    have hpar : c.parentOf k = some m.prevHash := parentOf_eq_some.mpr ⟨m, q, hm, rfl, hq⟩
    -- A child is above the floor, so the walk does not stop there.
    have hne : k ≠ c.floorHash := by
      rintro rfl
      have hheight := r.graded _ _ hpar
      have hle := (r.length_eq hl).2
      rw [r.heightOf_floor] at hheight
      omega
    exact ⟨l ++ [k], .child hne hpar hl⟩

theorem Rooted.fromFloor_iff (r : c.Rooted) : c.FromFloor h ↔ ∃ l, c.ancestors h = .ok l := by
  constructor
  · intro hf
    obtain ⟨l, hl⟩ := r.descends_of_fromFloor hf
    exact ⟨l, r.ancestors_eq_ok.mpr hl⟩
  · rintro ⟨l, hl⟩
    exact .of_descends (r.ancestors_eq_ok.mp hl)

/-- Consecutive hashes of a path are parent and child. -/
theorem childOf_of_lineage {f : Hash32} (hl : Lineage c.parentOf f h l) {i : ℕ} {a b : Hash32} (ha : l[i]? = some a)
    (hb : l[i + 1]? = some b) : c.ChildOf a b := by
  induction hl with
  | floor => simp at hb
  | @child k p l hne hp hl ih =>
    rcases Nat.lt_trichotomy (i + 1) l.length with hi | hi | hi
    · rw [List.getElem?_append_left (by omega)] at ha
      rw [List.getElem?_append_left hi] at hb
      exact ih ha hb
    · have hlast := hl.getLast?
      rw [List.getLast?_eq_getElem?, ← hi, Nat.add_sub_cancel] at hlast
      rw [List.getElem?_append_left (by omega), hlast] at ha
      rw [hi, List.getElem?_concat_length] at hb
      obtain rfl := Option.some.inj ha
      obtain rfl := Option.some.inj hb
      obtain ⟨m, -, hm, hprev, -⟩ := parentOf_eq_some.mp hp
      exact ⟨m, hm, hprev⟩
    · rw [List.getElem?_eq_none (by simp; omega)] at hb
      cases hb

/-! ### The loop -/

/-- A loop that has ended does the same if it may go on for longer. -/
theorem climb_mono {fuel fuel' : ℕ} {path : List Hash32} (hle : fuel ≤ fuel') (he : c.climb fuel h path ≠ .error .diverges) :
    c.climb fuel' h path = c.climb fuel h path := by
  induction fuel generalizing fuel' h path with
  | zero => exact absurd rfl he
  | succ n ih =>
    obtain ⟨n', rfl⟩ : ∃ n', fuel' = n' + 1 := ⟨fuel' - 1, by omega⟩
    unfold climb at he ⊢
    cases hm : c.metas h with
    | none => rfl
    | some m =>
      simp only [hm] at he ⊢
      by_cases hf : h = c.floorHash
      · simp only [hf, ↓reduceIte]
      · simp only [hf, ↓reduceIte] at he ⊢
        exact ih (by omega) he

/-- The way a walk ends. -/
def Ends (r : Ledger (List Hash32)) : Prop := (∃ path, r = .ok path) ∨ ∃ k, r = .error (.err (.unknownBlock k))

/-- Heights fall at each turn, so the walk ends once there is none left. -/
theorem Graded.climb_ends (hg : c.Graded) {n : ℕ} (hn : ∀ m, c.metas h = some m → m.height ≤ n) (path : List Hash32) :
    Ends (c.climb (n + 2) h path) := by
  induction n generalizing h path with
  | zero =>
    unfold climb
    cases hm : c.metas h with
    | none => exact .inr ⟨h, rfl⟩
    | some m =>
      dsimp only
      by_cases hf : h = c.floorHash
      · exact .inl ⟨h :: path, by rw [if_pos hf]⟩
      · rw [if_neg hf]
        unfold climb
        cases hq : c.metas m.prevHash with
        | none => exact .inr ⟨m.prevHash, rfl⟩
        | some q =>
          have hheight := hg _ _ (parentOf_eq_some.mpr ⟨m, q, hm, rfl, hq⟩)
          have := hn m hm
          rw [heightOf_eq hm] at hheight
          omega
  | succ n ih =>
    unfold climb
    cases hm : c.metas h with
    | none => exact .inr ⟨h, rfl⟩
    | some m =>
      dsimp only
      by_cases hf : h = c.floorHash
      · exact .inl ⟨h :: path, by rw [if_pos hf]⟩
      · rw [if_neg hf]
        refine ih (fun q hq => ?_) _
        have hheight := hg _ _ (parentOf_eq_some.mpr ⟨m, q, hm, rfl, hq⟩)
        have := hn m hm
        rw [heightOf_eq hm, heightOf_eq hq] at hheight
        omega

theorem Graded.ancestors_ends (hg : c.Graded) (h : Hash32) : Ends (c.ancestors h) := by
  unfold ancestors climbBound
  cases hm : c.metas h with
  | none => exact .inr ⟨h, by simp [climb, hm]⟩
  | some m =>
    refine hg.climb_ends (fun m' hm' => ?_) []
    obtain rfl := Option.some.inj (hm.symm.trans hm')
    exact le_rfl

theorem Graded.ancestors_ne_diverges (hg : c.Graded) (h : Hash32) : c.ancestors h ≠ .error .diverges := by
  intro he
  rcases hg.ancestors_ends h with ⟨path, hp⟩ | ⟨k, hk⟩
  · cases he.symm.trans hp
  · cases he.symm.trans hk

/-! ### What is indexed by it -/

theorem Rooted.medianTimePast_ne_panic (r : c.Rooted) (h : Hash32) : c.medianTimePast h ≠ .error .panic := by
  rcases r.graded.ancestors_ends h with ⟨l, hl⟩ | ⟨k, hk⟩
  · have hl := r.ancestors_eq_ok.mp hl
    have hne : (c.branch l).map (·.timestamp) ≠ [] := by
      have := hl.ne_nil
      simpa [branch] using this
    obtain ⟨m, -, hm⟩ := Rules.exists_median hne
    rw [r.medianTimePast_eq hl, hm]
    exact fun he => by cases he
  · unfold medianTimePast
    rw [hk]
    exact fun he => by cases he

theorem Rooted.expectedDifficulty_ne_panic [Float64 F] (r : c.Rooted) (h : Hash32) : c.expectedDifficulty h ≠ .error .panic := by
  unfold expectedDifficulty
  cases hm : c.metas h with
  | none => exact fun he => by cases he
  | some m =>
    simp only [Exec.ofOption_some, Exec.ok_bind]
    by_cases hb : (m.height + 1) % retargetIntervalBlocks ≠ 0
    · rw [if_pos hb]
      exact fun he => by cases he
    · rw [if_neg hb]
      rcases r.graded.ancestors_ends h with ⟨l, hl⟩ | ⟨k, hk⟩
      · rw [hl, Exec.ok_bind]
        have hl := r.ancestors_eq_ok.mp hl
        unfold checkedSub
        split_ifs with hf
        · obtain ⟨hlen, hle⟩ := r.length_eq hl
          rw [heightOf_eq hm] at hlen hle
          have hpos : 0 < retargetIntervalBlocks := by decide
          -- The start of the interval is not above the hash, so it is on the path.
          have hlt : m.height + 1 - retargetIntervalBlocks - c.floorHeight < l.length := by omega
          obtain ⟨s, hs⟩ := Option.isSome_iff_exists.mp (lineage_known r.floor_known hl _ (List.getElem_mem hlt))
          simp only [Exec.ofOption_some, Exec.ok_bind, List.getElem?_eq_getElem hlt, Exec.expect_some, hs]
          exact fun he => by cases he
        · exact fun he => by cases he
      · rw [hk]
        exact fun he => by cases he

/-! ### The walk -/

variable [Float64 F] [Primitives]

/-- On every hash the walk ends, however long it may go on, with the path from the floor if there is one. -/
theorem ancestors_total (hc : Reachable root c) (hash : Hash32) :
    (∀ fuel, c.climbBound hash ≤ fuel → c.climb fuel hash [] = c.ancestors hash ∧ c.climb fuel hash [] ≠ .error .diverges) ∧
    (c.FromFloor hash → ∃ path, c.ancestors hash = .ok path ∧ path.head? = some c.floorHash ∧ path.getLast? = some hash ∧
      (∀ i k, path[i]? = some k → ∃ m, c.metas k = some m ∧ m.height = c.floorHeight + i) ∧
      ∀ i k k', path[i]? = some k → path[i + 1]? = some k' → c.ChildOf k k') ∧
    (¬c.FromFloor hash → ∃ k, c.ancestors hash = .error (.err (.unknownBlock k))) ∧
    c.medianTimePast hash ≠ .error .panic ∧ c.expectedDifficulty hash ≠ .error .panic := by
  have r := hc.inv.rooted
  refine ⟨fun fuel hle => ?_, fun hf => ?_, fun hf => ?_, r.medianTimePast_ne_panic hash, r.expectedDifficulty_ne_panic hash⟩
  · have hends := r.graded.ancestors_ne_diverges hash
    have hsame : c.climb fuel hash [] = c.ancestors hash := climb_mono hle hends
    exact ⟨hsame, hsame ▸ hends⟩
  · obtain ⟨l, hl⟩ := r.descends_of_fromFloor hf
    refine ⟨l, r.ancestors_eq_ok.mpr hl, hl.head?, hl.getLast?, fun i k hk => ?_, fun i k k' => childOf_of_lineage hl⟩
    obtain ⟨m, hm⟩ := Option.isSome_iff_exists.mp (lineage_known r.floor_known hl k (List.mem_of_getElem? hk))
    exact ⟨m, hm, by rw [← heightOf_eq hm, r.heightOf_getElem? hl hk]⟩
  · rcases r.graded.ancestors_ends hash with hok | herr
    · exact absurd (r.fromFloor_iff.mpr hok) hf
    · exact herr

end Chain

section
attribute [local instance] unsigned

/-- To the second block, on a chain whose floor was moved to the first. -/
theorem ancestors_total_pruned :
    ∃ path, ((((Chain.new : Chain ℚ).tryApply firstBlock minedAt).1.tryApply secondBlock minedAt).1.pruneBodiesUpTo 1).1.ancestors
        secondBlock.hash = .ok path ∧
      path.head? = some firstBlock.hash ∧ path.getLast? = some secondBlock.hash ∧ firstBlock.hash ≠ secondBlock.hash := by
  have hgenesis : Block.genesis.hash ≠ .zero := by decide +kernel
  have hz₁ : firstBlock.hash ≠ .zero := by decide +kernel
  have hz₂ : secondBlock.hash ≠ .zero := by decide +kernel
  have hc := Chain.Reachable.prune (F := ℚ) 1
    (.tryApply secondBlock minedAt (.tryApply firstBlock minedAt (.new hgenesis) hz₁) hz₂)
  obtain ⟨hfloor, hchild, hne⟩ :
      ((((Chain.new : Chain ℚ).tryApply firstBlock minedAt).1.tryApply secondBlock minedAt).1.pruneBodiesUpTo 1).1.floorHash =
        firstBlock.hash ∧
      (((((Chain.new : Chain ℚ).tryApply firstBlock minedAt).1.tryApply secondBlock minedAt).1.pruneBodiesUpTo 1).1.metas
        secondBlock.hash).map (·.prevHash) = some firstBlock.hash ∧ firstBlock.hash ≠ secondBlock.hash := by
    decide +kernel
  have hall := Chain.ancestors_total hc secondBlock.hash
  rw [Chain.FromFloor, hfloor] at hall
  obtain ⟨path, hpath, hhead, hlast, -⟩ := hall.2.1 (.single (Option.map_eq_some_iff.mp hchild))
  exact ⟨path, hpath, hhead, hlast, hne⟩

end
end SpiritChat
