import SpiritChat.Theorems.Counted
import SpiritChat.Theorems.Retarget
import SpiritChat.Theorems.Walk

/-! # Blocks on schedule

An interval of 288 blocks is measured from its first block to its last, which are 287 block times apart, and held against
288 block times. So the target falls on every boundary, also when no block was early. -/

namespace SpiritChat
open Lib

theorem replicate_zero_le (digits : List ℕ) : List.replicate digits.length 0 ≤ digits := by
  refine not_lt.mp fun hlt => ?_
  induction digits with
  | nil => cases hlt
  | cons d digits ih =>
    rw [List.length_cons, List.replicate_succ] at hlt
    rcases hlt with _ | hlt | hlt
    · exact absurd hlt (Nat.not_lt_zero _)
    · exact ih hlt

theorem Hash32.eq_zero_of_le {h : Hash32} (hle : h ≤ .zero) : h = .zero := by
  have hlen : h.digits.length = 32 := by simp [digits]
  have hge : Hash32.zero.digits ≤ h.digits := (hlen ▸ replicate_zero_le h.digits :)
  exact digits_injective (le_antisymm hle hge)

namespace Chain
variable {F : Type} {c : Chain F} {root h : Hash32} {l : List Hash32} {b : Block} {pm tm : BlockMeta F}

/-- The tip is the last block of an interval, and the blocks of the interval were found exactly on time, each after its
parent. -/
structure OnSchedule (c : Chain F) (tm : BlockMeta F) : Prop where
  tip : c.metas c.tipHash = some tm
  boundary : (tm.height + 1) % retargetIntervalBlocks = 0
  onTime : ∀ path, c.ancestors c.tipHash = .ok path → ∀ k ∈ path, ∀ m p, c.metas k = some m → c.metas m.prevHash = some p →
    tm.height + 1 ≤ m.height + retargetIntervalBlocks → (m.timestamp : ℤ) = p.timestamp + targetBlockTimeSecs

/-- The next block must meet the same target as those of the interval. -/
def KeepsTarget [Float64 F] (c : Chain F) (tm : BlockMeta F) : Prop :=
  ∃ next, c.expectedDifficulty c.tipHash = .ok next ∧ expandTarget next = expandTarget tm.difficultyTarget

/-! ### The span of an interval -/

/-- Along the interval the timestamps grow by one block time each. -/
theorem OnSchedule.timestamp (s : c.OnSchedule tm) (r : c.Rooted) (hl : c.Descends c.tipHash l) {i : ℕ} {a : Ancestor}
    (ha : (c.branch l)[i]? = some a) (hstart : a.height = tm.height + 1 - retargetIntervalBlocks) (n : ℕ) {z : Ancestor}
    (hz : (c.branch l)[i + n]? = some z) : (z.timestamp : ℤ) = a.timestamp + n * targetBlockTimeSecs := by
  have hheight := r.height_branch hl i a ha
  induction n generalizing z with
  | zero =>
    obtain rfl := Option.some.inj (ha.symm.trans hz)
    simp
  | succ n ih =>
    have hlt := (List.getElem?_eq_some_iff.mp hz).1
    obtain ⟨y, hy⟩ : ∃ y, (c.branch l)[i + n]? = some y := ⟨_, List.getElem?_eq_getElem (by omega)⟩
    have htime := ih hy
    have hzheight := r.height_branch hl _ z hz
    simp only [branch, List.getElem?_map, Option.map_eq_some_iff] at hy hz
    obtain ⟨k, hk, rfl⟩ := hy
    obtain ⟨k', hk', rfl⟩ := hz
    obtain ⟨m, hm, rfl⟩ := childOf_of_lineage hl hk (by rwa [Nat.add_assoc])
    obtain ⟨p, hp⟩ := Option.isSome_iff_exists.mp (lineage_known r.floor_known hl _ (List.mem_of_getElem? hk))
    rw [ancestorOf_eq hm] at hzheight ⊢
    rw [ancestorOf_eq hp] at htime
    have hnext := s.onTime l (r.ancestors_eq_ok.mpr hl) k' (List.mem_of_getElem? hk') m p hm hp (by
      simp only at hzheight
      omega)
    simp only at htime ⊢
    rw [hnext, htime]
    push_cast
    ring

/-- The interval starts 287 hashes below the tip. -/
theorem OnSchedule.exists_start (s : c.OnSchedule tm) (r : c.Rooted)
    (hl : c.Descends c.tipHash l) {a : Ancestor} (ha : a ∈ c.branch l) (hstart : a.height = tm.height + 1 - retargetIntervalBlocks) :
    ∃ i, (c.branch l)[i]? = some a ∧ l[i + 287]? = some c.tipHash := by
  obtain ⟨i, hi⟩ := List.mem_iff_getElem?.mp ha
  have hheight := r.height_branch hl i a hi
  obtain ⟨hlen, hfloor⟩ := r.length_eq hl
  rw [heightOf_eq s.tip] at hlen hfloor
  have hinterval : retargetIntervalBlocks ≤ tm.height + 1 := Nat.le_of_dvd (by omega) (Nat.dvd_of_mod_eq_zero s.boundary)
  have hsize : retargetIntervalBlocks = 288 := rfl
  have htip := hl.getLast?
  rw [List.getLast?_eq_getElem?, show l.length - 1 = i + 287 by omega] at htip
  exact ⟨i, hi, htip⟩

/-! ### Proof of work -/

section
variable [Float64 F] [Primitives]

/-- Every block but the root meets its target. -/
def Proven (root : Hash32) (c : Chain F) : Prop :=
  ∀ h m, c.metas h = some m → h ≠ root → h.meetsTarget (expandTarget m.difficultyTarget) = true

omit [Float64 F] [Primitives] in
theorem Proven.single {m : BlockMeta F} (hm : c.metas = Table.empty.insert c.floorHash m) : Proven c.floorHash c := by
  intro h m' hm' hne
  rw [hm, Table.insert_of_ne hne] at hm'
  cases hm'

theorem Proven.accepted (p : Proven root c) {now : ℕ} (a : c.Accepts b now pm l) : Proven root (c.accepted b pm) := by
  intro h m hm hne
  rcases Table.insert_eq_some.mp hm with ⟨rfl, rfl⟩ | ⟨-, hm⟩
  · exact a.admits.work
  · exact p h m hm hne

theorem Reachable.proven (hc : Reachable root c) : Proven root c := by
  induction hc with
  | new => exact Proven.single (c := Chain.new) rfl
  | fromCheckpoint => exact Proven.single (c := Chain.fromCheckpoint _) rfl
  | @tryApply root c b now hc hz ih =>
    have h := hc.inv.tryApply_applied hz now
    generalize (c.tryApply b now).1 = c' at h ⊢
    generalize (c.tryApply b now).2 = r at h
    cases h with
    | known => exact ih
    | rejected => exact ih
    | fork a => exact ih.accepted a
    | tip a => exact ih.accepted a
  | @prune root c height hc ih =>
    have h := hc.inv.prune_pruned height
    generalize (c.pruneBodiesUpTo height) = r at h ⊢
    cases h with
    | kept => exact ih
    | moved => exact ih

/-- No known hash is the zero hash, so the target of a block that is not the root is not zero. -/
theorem Reachable.target_ne_zero (hc : Reachable root c) {m : BlockMeta F} (hm : c.metas h = some m) (hne : h ≠ root) :
    (expandTarget m.difficultyTarget).toNat ≠ 0 := by
  intro hzero
  have hz : expandTarget m.difficultyTarget = .zero := Hash32.toNat_inj.mp (hzero.trans (by decide))
  have hmeets := hc.proven h m hm hne
  rw [hz] at hmeets
  have hle : h ≤ .zero := of_decide_eq_true hmeets
  obtain rfl : h = .zero := Hash32.eq_zero_of_le hle
  rw [hc.inv.zero] at hm
  cases hm

end

/-! ### The boundary -/

variable [Primitives] {c : Chain Binary64} {tm : BlockMeta Binary64}

/-- However regular the blocks of the interval were, the next target is lower. -/
theorem OnSchedule.target_lt (s : c.OnSchedule tm) (hc : Reachable root c) {next : CompactTarget}
    (hnext : c.expectedDifficulty c.tipHash = .ok next) :
    (expandTarget next).toNat < (expandTarget tm.difficultyTarget).toNat := by
  have r := hc.inv.rooted
  obtain ⟨l, hl, -⟩ := hc.inv.tip
  rw [r.expectedDifficulty_eq_ok hl, ancestorOf_eq s.tip] at hnext
  unfold Rules.target at hnext
  rw [if_neg (fun hb => hb s.boundary)] at hnext
  obtain ⟨a, ha, rfl⟩ := Option.map_eq_some_iff.mp hnext
  have hstart : a.height = tm.height + 1 - retargetIntervalBlocks := by simpa using List.find?_some ha
  obtain ⟨i, hi, htip⟩ := s.exists_start r hl (List.mem_of_find?_eq_some ha) hstart
  have hspan := s.timestamp r hl hi hstart 287 (z := c.ancestorOf c.tipHash) (by rw [branch, List.getElem?_map, htip, Option.map_some])
  rw [ancestorOf_eq s.tip] at hspan
  -- The tip has a parent, so it is not the root.
  have hne : c.tipHash ≠ root := by
    intro hroot
    have hlt := (List.getElem?_eq_some_iff.mp htip).1
    obtain ⟨m, hm, hprev⟩ := childOf_of_lineage hl (List.getElem?_eq_getElem (i := i + 286) (by omega)) htip
    obtain ⟨m', hm', hz⟩ := hc.inv.rootMeta
    rw [hroot, hm'] at hm
    obtain rfl := Option.some.inj hm
    have hknown := hc.inv.known hl l[i + 286] (List.getElem_mem _)
    rw [← hprev, hz, hc.inv.zero] at hknown
    cases hknown
  have hsmall : 512 * max ((tm.timestamp : ℤ) - a.timestamp) 1 ≤ 511 * ((retargetIntervalBlocks : ℤ) * targetBlockTimeSecs) := by
    have htime : targetBlockTimeSecs = 300 := rfl
    have hsize : retargetIntervalBlocks = 288 := rfl
    rw [htime] at hspan ⊢
    rw [hsize]
    push_cast at hspan ⊢
    omega
  exact retarget_lt (hc.target_ne_zero s.tip hne) (le_max_of_le_right (by decide)) (by decide) (by decide) hsmall

/-- So it is never kept. -/
theorem not_keepsTarget_of_onSchedule (hc : Reachable root c) (s : c.OnSchedule tm) : ¬c.KeepsTarget tm := by
  rintro ⟨next, hnext, hsame⟩
  have hlt := s.target_lt hc hnext
  rw [hsame] at hlt
  exact lt_irrefl _ hlt

end Chain

/-! ### Two intervals -/

namespace Binary64
variable {w d : Binary64} {n : ℕ}

theorem val_add : (w + d).val = roundTo 53 (w.val + d.val) := rfl

/-- A sum is larger, if both are far from where the numbers are two apart. -/
theorem lt_add (h0 : 0 ≤ w.val) (hd : 1 ≤ d.val) (hn : w.val + d.val ≤ n) (hsize : n < 2 ^ 53) : w.val < (w + d).val := by
  have hfloor := Int.lt_floor_add_one w.val
  have hle := Int.floor_le w.val
  lift ⌊w.val⌋ to ℕ using Int.floor_nonneg.mpr h0 with k hk
  have hnext : roundTo 53 ((k + 1 : ℕ) : ℚ) = (k + 1 : ℕ) := by
    refine (Representable.of_nat (hsize.trans_le' ?_)).roundTo_eq
    have : ((k + 1 : ℕ) : ℚ) ≤ n := by
      push_cast at hle ⊢
      linarith
    exact_mod_cast this
  calc w.val < ((k + 1 : ℕ) : ℚ) := by
        push_cast at hfloor ⊢
        exact hfloor
    _ = roundTo 53 ((k + 1 : ℕ) : ℚ) := hnext.symm
    _ ≤ roundTo 53 (w.val + d.val) := roundTo_mono (by decide) (by positivity) (by
        push_cast at hle ⊢
        linarith)
    _ = (w + d).val := val_add.symm

theorem add_le (h0 : 0 ≤ w.val + d.val) (hn : w.val + d.val ≤ n) (hsize : n < 2 ^ 53) : (w + d).val ≤ n := by
  have hexact := (Representable.of_nat hsize).roundTo_eq
  rw [val_add, ← hexact]
  exact roundTo_mono (by decide) h0 hn

/-- The first target makes the work of a block. -/
theorem val_workOf_initial : 1 ≤ (workOf initialDifficultyBits : Binary64).val ∧ (workOf initialDifficultyBits : Binary64).val ≤ 2 ^ 17 := by
  have htarget : (targetAsF64 (expandTarget initialDifficultyBits) : Binary64).val = 0xffffff * 256 ^ 27 := by
    rw [val_targetAsF64, show (expandTarget initialDifficultyBits).toNat = 0xffffff * 256 ^ 27 from toNat_expandTarget _]
    norm_num
  have hzero : (Float64.ofInt 0 : Binary64).val = ((0 : ℕ) : ℚ) := val_ofInt_natCast (n := 0) (by decide)
  have hone : (Float64.ofInt 1 : Binary64).val = ((1 : ℕ) : ℚ) := val_ofInt_natCast (n := 1) (by decide)
  have hpow : ∀ k : ℤ, roundTo 53 (2 ^ k : ℚ) = 2 ^ k := fun k => (representable_zpow (by decide) k).roundTo_eq
  have hpos : ¬(targetAsF64 (expandTarget initialDifficultyBits) : Binary64) ≤ Float64.ofInt 0 := by
    show ¬(targetAsF64 (expandTarget initialDifficultyBits) : Binary64).val ≤ (Float64.ofInt 0 : Binary64).val
    rw [htarget, hzero]
    norm_num
  have hsum : (2 : ℚ) ^ (239 : ℤ) ≤ (targetAsF64 (expandTarget initialDifficultyBits) + Float64.ofInt 1 : Binary64).val ∧
      (targetAsF64 (expandTarget initialDifficultyBits) + Float64.ofInt 1 : Binary64).val ≤ 2 ^ (240 : ℤ) := by
    rw [val_add, htarget, hone, ← hpow 239, ← hpow 240]
    constructor
    · exact roundTo_mono (by decide) (by positivity) (by norm_num)
    · exact roundTo_mono (by decide) (by positivity) (by norm_num)
  unfold workOf
  dsimp only
  rw [if_neg hpos]
  show 1 ≤ roundTo 53 ((targetAsF64 maxTarget : Binary64).val / (targetAsF64 (expandTarget initialDifficultyBits) + Float64.ofInt 1 : Binary64).val) ∧
    roundTo 53 ((targetAsF64 maxTarget : Binary64).val / (targetAsF64 (expandTarget initialDifficultyBits) + Float64.ofInt 1 : Binary64).val) ≤ 2 ^ 17
  rw [val_maxTarget]
  generalize (targetAsF64 (expandTarget initialDifficultyBits) + Float64.ofInt 1 : Binary64).val = x at hsum
  obtain ⟨hlow, hhigh⟩ := hsum
  have hx : 0 < x := (two_zpow_pos 239).trans_le hlow
  have hleast : (2 : ℚ) ^ (0 : ℤ) ≤ 2 ^ 256 / x := by
    rw [le_div_iff₀ hx]
    norm_num at hhigh ⊢
    linarith
  have hgreatest : 2 ^ 256 / x ≤ (2 : ℚ) ^ (17 : ℤ) := by
    rw [div_le_iff₀ hx]
    norm_num at hlow ⊢
    linarith
  constructor
  · calc (1 : ℚ) = roundTo 53 (2 ^ (0 : ℤ)) := by rw [hpow, zpow_zero]
      _ ≤ _ := roundTo_mono (by decide) (by positivity) hleast
  · calc roundTo 53 (2 ^ 256 / x) ≤ roundTo 53 (2 ^ (17 : ℤ)) := roundTo_mono (by decide) (by positivity) hgreatest
      _ = 2 ^ 17 := by
        rw [hpow]
        norm_num

theorem retarget_kept : retarget Binary64 initialDifficultyBits 86400 86400 = initialDifficultyBits := by
  obtain ⟨target, hretarget, htarget⟩ := @toNat_retarget initialDifficultyBits 86400 86400 (by decide) (by decide)
  have hvalue : (expandTarget initialDifficultyBits).toNat = 0xffffff * 256 ^ 27 := toNat_expandTarget _
  have hspan : spanRatio 86400 86400 = 1 := by
    have hone := (representable_zpow (p := 53) (by decide) 0).roundTo_eq
    have hnat : roundTo 53 ((86400 : ℕ) : ℚ) = (86400 : ℕ) := (Representable.of_nat (by decide)).roundTo_eq
    unfold spanRatio
    rw [show ((86400 : ℤ) : ℚ) = ((86400 : ℕ) : ℚ) by norm_num, hnat, div_self (by norm_num), ← zpow_zero (2 : ℚ), hone]
    norm_num
  have hexact := (representable_target initialDifficultyBits 0).roundTo_eq
  rw [Nat.pow_zero, Nat.div_one] at hexact
  rw [hspan, mul_one, hexact, if_pos (by rw [hvalue]; norm_num), Nat.floor_natCast] at htarget
  rw [hretarget, Hash32.toNat_inj.mp htarget]
  decide +kernel

end Binary64

namespace Counted
attribute [local instance] counting

/-- The chain after so many blocks. -/
def mined : ℕ → Chain Binary64
  | 0 => Chain.new
  | k + 1 => ((mined k).tryApply (blockAt (k + 1)) clock).1

/-- The work of so many blocks is small enough to grow with each block. -/
def Light (k : ℕ) (c : Chain Binary64) : Prop :=
  ∃ m, c.metas (hashAt k) = some m ∧ 0 ≤ m.cumulativeWork.val ∧ m.cumulativeWork.val ≤ (k * 2 ^ 17 : ℕ)

theorem minedTo {k : ℕ} (hk : k ≤ 575) : MinedTo k Table.empty (mined k) ∧ Light k (mined k) := by
  induction k with
  | zero =>
    have hzero : (genesisMeta Binary64).cumulativeWork.val = ((0 : ℕ) : ℚ) := Binary64.val_ofInt_natCast (n := 0) (by decide)
    exact ⟨minedTo_zero, genesisMeta Binary64, metas_new, by rw [hzero]; norm_num, by rw [hzero]; norm_num⟩
  | succ k ih =>
    obtain ⟨m, pm, hpm, hwork0, hwork⟩ := ih (by omega)
    obtain ⟨hwork1, hworkmax⟩ := Binary64.val_workOf_initial
    have hsum : pm.cumulativeWork.val + (workOf initialDifficultyBits : Binary64).val ≤ ((k + 1) * 2 ^ 17 : ℕ) := by
      push_cast at hwork ⊢
      linarith
    have hsum0 : 0 ≤ pm.cumulativeWork.val + (workOf initialDifficultyBits : Binary64).val := by linarith
    have hheavier := Binary64.lt_add hwork0 hwork1 hsum (by omega)
    obtain ⟨-, m', pm', hpm', hmeta⟩ := m.next Binary64.retarget_kept (by omega) (.nil _ _) fun pm' hpm' => by
      rwa [Option.some.inj (hpm'.symm.trans hpm)]
    obtain rfl := Option.some.inj (hpm'.symm.trans hpm)
    exact ⟨m', _, hmeta, hwork0.trans hheavier.le, Binary64.add_le hsum0 hsum (by omega)⟩

theorem timeAt_succ {i : ℕ} (hi : 287 ≤ i) : (timeAt (i + 1) : ℤ) = timeAt i + targetBlockTimeSecs := by
  have htime : targetBlockTimeSecs = 300 := rfl
  unfold timeAt
  rw [if_neg (by omega), if_neg (by omega), htime]
  push_cast
  ring

/-- The second interval is on schedule. -/
theorem onSchedule {c : Chain Binary64} (m : MinedTo 575 Table.empty c) : ∃ tm, c.OnSchedule tm := by
  have r := m.reached.inv.rooted
  obtain ⟨l, hl, hbranch, -⟩ := m.line
  obtain ⟨tm, htm⟩ := Option.isSome_iff_exists.mp (m.reached.inv.known hl _ hl.mem_self)
  have hat : ∀ (i : ℕ) k m, l[i]? = some k → c.metas k = some m → m.height = i ∧ m.timestamp = timeAt i := by
    intro i k m hk hm
    have h : (c.branch l)[i]? = some (c.ancestorOf k) := by rw [Chain.branch, List.getElem?_map, hk, Option.map_some]
    obtain ⟨hi, -⟩ := List.getElem?_eq_some_iff.mp h
    rw [hbranch, List.length_map, List.length_range] at hi
    rw [hbranch, List.getElem?_map, List.getElem?_range hi, Option.map_some, Option.some.injEq, Chain.ancestorOf_eq hm] at h
    exact ⟨(congrArg Ancestor.height h).symm, (congrArg Ancestor.timestamp h).symm⟩
  have htip := hl.getLast?
  have hlen : l.length = 576 := by simpa [Chain.branch] using congrArg List.length hbranch
  rw [List.getLast?_eq_getElem?, hlen] at htip
  have hheight : tm.height = 575 := (hat 575 _ tm htip htm).1
  refine ⟨tm, m.tip ▸ htm, by rw [hheight]; decide, ?_⟩
  intro path hpath k hk m' p hm' hp hin
  rw [m.tip, r.ancestors_eq_ok] at hpath
  obtain rfl := hpath.unique hl
  obtain ⟨i, hi⟩ := List.mem_iff_getElem?.mp hk
  obtain ⟨hi', htime⟩ := hat i k m' hi hm'
  have hsize : retargetIntervalBlocks = 288 := rfl
  obtain ⟨j, rfl⟩ : ∃ j, i = j + 1 := ⟨i - 1, by omega⟩
  have hlt := (List.getElem?_eq_some_iff.mp hi).1
  obtain ⟨m'', hm'', hprev⟩ := Chain.childOf_of_lineage hl (List.getElem?_eq_getElem (by omega)) hi
  obtain rfl := Option.some.inj (hm'.symm.trans hm'')
  rw [hprev] at hp
  rw [htime, (hat j _ p (List.getElem?_eq_getElem (by omega)) hp).2]
  exact timeAt_succ (by omega)

theorem expectedDifficulty_second {c : Chain Binary64} (m : MinedTo 575 Table.empty c) : ∃ next, c.expectedDifficulty c.tipHash = .ok next := by
  obtain ⟨l, hl, hbranch, -⟩ := m.line
  obtain ⟨a, ha⟩ : ∃ a, ((List.range 576).map ancestorAt).find? (fun a => a.height = (ancestorAt 575).height + 1 - retargetIntervalBlocks) = some a := by
    refine Option.isSome_iff_exists.mp (List.find?_isSome.mpr ⟨ancestorAt 288, List.mem_map_of_mem (List.mem_range.mpr ?_), ?_⟩)
    · decide
    · exact decide_eq_true rfl
  obtain ⟨next, hnext⟩ : ∃ next, Rules.target Binary64 (c.branch l) (c.ancestorOf (hashAt 575)) = some next := by
    rw [hbranch, m.ancestorOf_eq]
    unfold Rules.target
    rw [if_neg (fun h => h rfl), ha]
    exact ⟨_, rfl⟩
  rw [m.tip]
  exact ⟨next, (m.reached.inv.rooted.expectedDifficulty_eq_ok hl).mpr hnext⟩

end Counted

section
open Counted
attribute [local instance] counting

/-- After the second interval. -/
theorem not_keepsTarget_second : ∃ tm, ¬(mined 575).KeepsTarget tm := by
  have m := (minedTo (k := 575) le_rfl).1
  obtain ⟨tm, s⟩ := onSchedule m
  exact ⟨tm, Chain.not_keepsTarget_of_onSchedule m.reached s⟩

/-- On a chain that nodes reach, the second interval took as long as it should and the next target is another one. -/
theorem onSchedule_target_changes : Chain.Reachable (hashAt 0) (mined 575) ∧ ∃ tm next, (mined 575).OnSchedule tm ∧
    (mined 575).expectedDifficulty (mined 575).tipHash = .ok next ∧ expandTarget next ≠ expandTarget tm.difficultyTarget := by
  have m := (minedTo (k := 575) le_rfl).1
  generalize mined 575 = c at m ⊢
  obtain ⟨tm, s⟩ := onSchedule m
  obtain ⟨next, hnext⟩ := expectedDifficulty_second m
  refine ⟨m.reached, tm, next, s, hnext, fun hsame => ?_⟩
  have hlt := s.target_lt m.reached hnext
  rw [hsame] at hlt
  exact lt_irrefl _ hlt

end
end SpiritChat
