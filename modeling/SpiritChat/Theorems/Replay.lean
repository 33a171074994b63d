import SpiritChat.Ledger.Store
import SpiritChat.Theorems.Vetted

/-! # Replaying the canonical blocks

`restore` feeds the blocks above the floor to a chain that knows the floor only. The chain it builds is a
copy of the closed one along the canonical path, as long as each block is admitted again on the branch that
starts at the floor. -/

namespace SpiritChat
open Lib

namespace Chain
variable {F : Type} [Float64 F] [Primitives] {c c' c'' : Chain F} {root h k p : Hash32} {l t : List Hash32} {b : Block}

/-- The root has no parent. -/
theorem Inv.ne_root_of_parentOf (inv : Inv root c) (hp : c.parentOf k = some p) : k ≠ root := by
  rintro rfl
  obtain ⟨m, q, hm, rfl, hq⟩ := parentOf_eq_some.mp hp
  obtain ⟨m', hm', hz⟩ := inv.rootMeta
  rw [Option.some.inj (hm.symm.trans hm'), hz, inv.zero] at hq
  cases hq

theorem replayBlock_eq_ok :
    c.replayBlock b = .ok c' ↔
      (c.tryApply b b.header.timestamp.toNat).1 = c' ∧ ∃ o, (c.tryApply b b.header.timestamp.toNat).2 = .ok o := by
  unfold replayBlock
  rcases c.tryApply b b.header.timestamp.toNat with ⟨c₁, _ | o⟩ <;> simp

/-- `c'` knows the path `l` of `c`, and nothing else. -/
structure Copies (c c' : Chain F) (l : List Hash32) : Prop where
  inv : Inv c.floorHash c'
  floor : c'.floorHash = c.floorHash ∧ c'.floorHeight = c.floorHeight ∧ c'.floorUsernameOwner = c.floorUsernameOwner
  known : ∀ h, h ∉ l → c'.metas h = none
  /-- A checkpoint does not say what its block's parent was. -/
  root : ∃ m, c.metas c.floorHash = some m ∧ c'.metas c.floorHash = some { m with prevHash := .zero }
  metas : ∀ h ∈ l, h ≠ c.floorHash → c'.metas h = c.metas h
  blocks : ∀ h ∈ l, h ≠ c.floorHash → c'.blocks h = c.blocks h

namespace Copies

/-- What is read of a known hash, its parent apart, is the same in the copy. -/
theorem exists_meta (cp : Copies c c' l) (inv : Inv root c) (hl : c.Descends p l) (hh : h ∈ l) :
    ∃ m m', c.metas h = some m ∧ c'.metas h = some m' ∧ m'.height = m.height ∧ m'.timestamp = m.timestamp ∧
      m'.difficultyTarget = m.difficultyTarget ∧ m'.cumulativeWork = m.cumulativeWork := by
  by_cases hf : h = c.floorHash
  · subst hf
    obtain ⟨m, hm, hm'⟩ := cp.root
    exact ⟨m, _, hm, hm', rfl, rfl, rfl, rfl⟩
  · obtain ⟨m, hm⟩ := Option.isSome_iff_exists.mp (inv.known hl h hh)
    exact ⟨m, m, hm, (cp.metas h hh hf).trans hm, rfl, rfl, rfl, rfl⟩

theorem ancestorOf_eq (cp : Copies c c' l) (inv : Inv root c) (hl : c.Descends p l) (hh : h ∈ l) :
    c'.ancestorOf h = c.ancestorOf h := by
  obtain ⟨m, m', hm, hm', hheight, htime, htarget, -⟩ := cp.exists_meta inv hl hh
  rw [Chain.ancestorOf_eq hm, Chain.ancestorOf_eq hm', hheight, htime, htarget]

theorem branch_eq (cp : Copies c c' l) (inv : Inv root c) (hl : c.Descends p l) : c'.branch l = c.branch l :=
  List.map_congr_left fun _ ha => cp.ancestorOf_eq inv hl ha

theorem descends (cp : Copies c c' l) (inv : Inv root c) (hl : c.Descends p l) : c'.Descends p l := by
  rw [Descends, cp.floor.1]
  refine hl.congr fun a ha hne => ?_
  obtain ⟨l', hl', hle⟩ := hl.exists_of_mem ha
  obtain ⟨q, l'', hq, hl'', rfl⟩ := hl'.exists_child hne
  have hqm : q ∈ l := hle.subset (List.mem_append_left _ hl''.mem_self)
  obtain ⟨m, -, hm, rfl, -⟩ := parentOf_eq_some.mp hq
  obtain ⟨-, mq', -, hmq', -⟩ := cp.exists_meta inv hl hqm
  rw [hq, parentOf_eq_some]
  exact ⟨m, mq', (cp.metas a ha hne).trans hm, rfl, hmq'⟩

theorem ownersOn_eq (cp : Copies c c' l) (hl : c.Descends p l) : c'.ownersOn l = c.ownersOn l := by
  unfold ownersOn
  rw [cp.floor.2.2]
  obtain ⟨l', rfl⟩ := hl.eq_cons
  refine replay_congr (fun a ha => cp.blocks a (List.mem_of_mem_tail ha) ?_) _
  rintro rfl
  exact (List.nodup_cons.mp hl.nodup).1 ha

/-- The copy admits the next block exactly when the path from the floor does. -/
theorem validateBlock_eq_ok (cp : Copies c c' l) (inv : Inv root c) (hl : c.Descends p l)
    (hprev : b.header.prevHash = p) {now : ℕ} :
    validateBlock c' b now = .ok () ↔ Rules.Admits F (c.branch l) (c.ownersOn l) (c.ancestorOf p) b now := by
  subst hprev
  have hl' := cp.descends inv hl
  rw [cp.inv.rooted.validateBlock_eq_ok hl' (cp.inv.bodies_of_descends hl'), cp.branch_eq inv hl, cp.ownersOn_eq hl,
    cp.ancestorOf_eq inv hl hl.mem_self]

/-- The metadata that the copy computes for the next block are those of the original. -/
theorem childMeta_eq (cp : Copies c c' l) (inv : Inv root c) (hl : c.Descends p l) (hpar : c.parentOf k = some p)
    (hb : c.blocks k = some b) {pm : BlockMeta F} (hpm : c'.metas b.header.prevHash = some pm) :
    c.metas b.hash = some (childMeta pm b) := by
  obtain ⟨rfl, m, hm, hd⟩ := inv.stored k b hb
  obtain ⟨m₀, -, hm₀, rfl, -⟩ := parentOf_eq_some.mp hpar
  obtain rfl : m = m₀ := Option.some.inj (hm.symm.trans hm₀)
  obtain ⟨q, hq, -, hwork⟩ := inv.parents _ m hm (inv.ne_root_of_parentOf hpar)
  obtain ⟨q₀, pm₀, hq₀, hpm₀, -, -, -, hw⟩ := cp.exists_meta inv hl hl.mem_self
  obtain rfl : q = q₀ := Option.some.inj (hq.symm.trans hq₀)
  rw [hd.prevHash] at hpm₀
  obtain rfl : pm = pm₀ := Option.some.inj (hpm.symm.trans hpm₀)
  obtain ⟨hheight, hprev, htime, htarget⟩ := hd
  rw [hm]
  cases m
  simp only at hheight hprev htime htarget hwork
  subst hheight hprev htime htarget
  simp only [childMeta, hw, hwork]

/-- A copy of a path takes in the next block of the path. -/
theorem accept (cp : Copies c c' l) (inv : Inv root c) (hl : c.Descends p l) (hpar : c.parentOf k = some p)
    (hb : c.blocks k = some b) (hk : k ∉ l) {pm : BlockMeta F} (hpm : c'.metas b.header.prevHash = some pm)
    (hinv : Inv c.floorHash (c'.accepted b pm)) : Copies c (c'.accepted b pm) (l ++ [k]) := by
  have hm := cp.childMeta_eq inv hl hpar hb hpm
  obtain ⟨rfl, -⟩ := inv.stored k b hb
  have hold : ∀ {x}, x ∈ l → x ≠ b.hash := fun hx he => hk (he ▸ hx)
  refine ⟨hinv, cp.floor, fun h hh => ?_, ?_, fun h hh hne => ?_, fun h hh hne => ?_⟩
  · simp only [List.mem_append, List.mem_singleton, not_or] at hh
    exact (Table.insert_of_ne hh.2).trans (cp.known h hh.1)
  · obtain ⟨mf, hmf, hmf'⟩ := cp.root
    exact ⟨mf, hmf, (Table.insert_of_ne (hold hl.floor_mem)).trans hmf'⟩
  · rcases List.mem_append.mp hh with hh | hh
    · exact (Table.insert_of_ne (hold hh)).trans (cp.metas h hh hne)
    · obtain rfl := List.mem_singleton.mp hh
      rw [hm]
      exact Table.insert_self
  · rcases List.mem_append.mp hh with hh | hh
    · exact (Table.insert_of_ne (hold hh)).trans (cp.blocks h hh hne)
    · obtain rfl := List.mem_singleton.mp hh
      rw [hb]
      exact Table.insert_self

theorem setTip (cp : Copies c c' l) {l' : List Hash32} (hl : c'.Descends h l') : Copies c (c'.setTip h l') l :=
  ⟨cp.inv.setTip hl, cp.floor, cp.known, cp.root, cp.metas, cp.blocks⟩

/-- One turn of the replay: the next block is taken in if it is admitted again. -/
theorem replayBlock (cp : Copies c c' l) (best : c'.Best) (inv : Inv root c) (hl : c.Descends p l)
    (hpar : c.parentOf k = some p) (hb : c.blocks k = some b) (hk : k ∉ l) :
    (∀ c'', c'.replayBlock b = .ok c'' →
      Copies c c'' (l ++ [k]) ∧ c''.Best ∧ c''.blocks c.floorHash = c'.blocks c.floorHash) ∧
    ((∃ c'', c'.replayBlock b = .ok c'') ↔
      Rules.Admits F (c.branch l) (c.ownersOn l) (c.ancestorOf p) b b.header.timestamp.toNat) := by
  obtain ⟨rfl, m, hm, hd⟩ := inv.stored k b hb
  obtain ⟨m₀, -, hm₀, hprev, -⟩ := parentOf_eq_some.mp hpar
  obtain rfl : m = m₀ := Option.some.inj (hm.symm.trans hm₀)
  rw [hd.prevHash] at hprev
  have hnew := cp.known b.hash hk
  have hfloor : c.floorHash ≠ b.hash := fun he => hk (he ▸ hl.floor_mem)
  have hz : b.hash ≠ .zero := by
    intro hz
    rw [hz, inv.zero] at hm
    cases hm
  have happ := cp.inv.tryApply_applied hz b.header.timestamp.toNat
  have hbest := best.tryApply cp.inv hz b.header.timestamp.toNat
  rw [← cp.validateBlock_eq_ok inv hl hprev]
  simp only [replayBlock_eq_ok]
  generalize (c'.tryApply b b.header.timestamp.toNat).1 = c₁ at happ hbest
  generalize (c'.tryApply b b.header.timestamp.toNat).2 = r at happ
  cases happ with
  | known hk' =>
    rw [hnew] at hk'
    cases hk'
  | rejected _ he =>
    refine ⟨fun c'' h => ?_, ⟨fun ⟨c'', h⟩ => ?_, fun h => ?_⟩⟩
    · obtain ⟨-, o, ho⟩ := h
      cases ho
    · obtain ⟨-, o, ho⟩ := h
      cases ho
    · rw [he] at h
      cases h
  | @fork pm l' w a =>
    refine ⟨fun c'' h => ?_, ⟨fun _ => a.valid, fun _ => ⟨_, rfl, _, rfl⟩⟩⟩
    obtain ⟨rfl, -⟩ := h
    exact ⟨cp.accept inv hl hpar hb hk a.parent (a.inv cp.inv hz), hbest, Table.insert_of_ne hfloor⟩
  | @tip pm l' w a =>
    refine ⟨fun c'' h => ?_, ⟨fun _ => a.valid, fun _ => ⟨_, rfl, _, rfl⟩⟩⟩
    obtain ⟨rfl, -⟩ := h
    exact ⟨(cp.accept inv hl hpar hb hk a.parent (a.inv cp.inv hz)).setTip (a.descends cp.inv hz), hbest,
      Table.insert_of_ne hfloor⟩

end Copies

/-- The block `k` is admitted again on the path from the floor, at the clock of its timestamp. -/
def Readmits (c : Chain F) (k : Hash32) : Prop :=
  ∀ p l b, c.Descends p l → c.parentOf k = some p → c.blocks k = some b →
    Rules.Admits F (c.branch l) (c.ownersOn l) (c.ancestorOf p) b b.header.timestamp.toNat

/-- The loop of `restore` along the rest `t` of a path. -/
theorem Copies.replayFrom {disk : Disk F} (cp : Copies c c' l) (best : c'.Best) (inv : Inv root c) (hne : l ≠ [])
    (hl : c.Descends h (l ++ t)) {n fuel : ℕ} (hheights : ∀ i, disk.canonicalHeights (n + i) = t[i]?)
    (hblocks : ∀ k ∈ t, disk.blocks k = c.blocks k) (hfuel : t.length < fuel) :
    (∀ c'', disk.replayFrom fuel c' n = .ok c'' →
      Copies c c'' (l ++ t) ∧ c''.Best ∧ c''.blocks c.floorHash = c'.blocks c.floorHash) ∧
    ((∃ c'', disk.replayFrom fuel c' n = .ok c'') ↔ ∀ k ∈ t, c.Readmits k) := by
  induction t generalizing l c' n fuel with
  | nil =>
    obtain ⟨fuel, rfl⟩ := Nat.exists_eq_succ_of_ne_zero (Nat.ne_of_gt hfuel)
    have hn := hheights 0
    simp only [Nat.add_zero, List.getElem?_nil] at hn
    simp only [Disk.replayFrom, hn, Except.ok.injEq, List.append_nil, exists_eq', List.not_mem_nil, false_implies,
      implies_true, and_true]
    rintro c'' rfl
    exact ⟨cp, best, rfl⟩
  | cons k t ih =>
    obtain ⟨fuel, rfl⟩ := Nat.exists_eq_succ_of_ne_zero (Nat.ne_of_gt (lt_of_le_of_lt (Nat.zero_le _) hfuel))
    have hn := hheights 0
    simp only [Nat.add_zero, List.getElem?_cons_zero] at hn
    have hself : c.Descends k (l ++ [k]) := hl.of_append
    have hk : k ∉ l := fun h => (List.nodup_append.mp hself.nodup).2.2 k h k (by simp) rfl
    have hfloor : k ≠ c.floorHash := by
      rintro rfl
      have := hself.eq_floor
      exact hne (by simpa using this)
    obtain ⟨p, l₀, hpar, hp, heq⟩ := hself.exists_child hfloor
    obtain ⟨rfl, -⟩ := List.append_singleton_inj.mp heq
    obtain ⟨b, -, hb, -⟩ := inv.body_of_descends hself hfloor
    have hstep := cp.replayBlock best inv hp hpar hb hk
    have hadm : c.Readmits k ↔ Rules.Admits F (c.branch l) (c.ownersOn l) (c.ancestorOf p) b b.header.timestamp.toNat := by
      refine ⟨fun h => h p l b hp hpar hb, fun h p' l' b' hp' hpar' hb' => ?_⟩
      obtain rfl := Option.some.inj (hpar.symm.trans hpar')
      obtain rfl := hp.unique hp'
      obtain rfl := Option.some.inj (hb.symm.trans hb')
      exact h
    have hunfold : disk.replayFrom (fuel + 1) c' n = c'.replayBlock b >>= fun c₁ => disk.replayFrom fuel c₁ (n + 1) := by
      simp only [Disk.replayFrom, hn, hblocks k List.mem_cons_self, hb, Exec.ofOption_some, Exec.ok_bind]
    have hrest : ∀ c₁, c'.replayBlock b = .ok c₁ →
        (∀ c'', disk.replayFrom fuel c₁ (n + 1) = .ok c'' →
          Copies c c'' (l ++ k :: t) ∧ c''.Best ∧ c''.blocks c.floorHash = c'.blocks c.floorHash) ∧
        ((∃ c'', disk.replayFrom fuel c₁ (n + 1) = .ok c'') ↔ ∀ x ∈ t, c.Readmits x) := by
      intro c₁ h₁
      obtain ⟨cp₁, best₁, hbody⟩ := hstep.1 c₁ h₁
      have hshift : ∀ i, disk.canonicalHeights (n + 1 + i) = t[i]? := fun i => by
        rw [Nat.add_assoc, Nat.add_comm 1, hheights (i + 1), List.getElem?_cons_succ]
      have := ih cp₁ best₁ (by simp) (by simpa using hl) hshift
        (fun x hx => hblocks x (List.mem_cons_of_mem _ hx)) (Nat.lt_of_succ_lt_succ hfuel)
      rw [hbody] at this
      simpa using this
    rw [hunfold]
    constructor
    · intro c'' h
      obtain ⟨c₁, h₁, h₂⟩ := except_bind_eq_ok.mp h
      exact (hrest c₁ h₁).1 c'' h₂
    · simp only [List.forall_mem_cons, hadm, ← hstep.2]
      constructor
      · rintro ⟨c'', h⟩
        obtain ⟨c₁, h₁, h₂⟩ := except_bind_eq_ok.mp h
        exact ⟨⟨c₁, h₁⟩, (hrest c₁ h₁).2.mp ⟨c'', h₂⟩⟩
      · rintro ⟨⟨c₁, h₁⟩, h₂⟩
        obtain ⟨c'', h⟩ := (hrest c₁ h₁).2.mpr h₂
        exact ⟨c'', except_bind_eq_ok.mpr ⟨c₁, h₁, h⟩⟩

/-- A copy of the whole canonical path has the same tip and the same view of it. -/
theorem Copies.tip_eq (cp : Copies c c' l) (best : c'.Best) (inv : Inv root c) (v : Vetted c)
    (hl : c.Descends c.tipHash l) :
    c'.tipHash = c.tipHash ∧ c'.tipHeight = c.tipHeight ∧ c'.usernameOwner = c.usernameOwner ∧
      ∀ n, c.floorHeight ≤ n → c'.canonicalIndex n = c.canonicalIndex n := by
  obtain ⟨tm', htm', hmax⟩ := best
  obtain ⟨m, m', hm, hm', hheight, -, -, hwork⟩ := cp.exists_meta inv hl hl.mem_self
  have htip : c'.tipHash = c.tipHash := by
    by_contra hne
    have hmem : c'.tipHash ∈ l := by
      by_contra hnot
      rw [cp.known _ hnot] at htm'
      cases htm'
    obtain ⟨m₁, m₁', h₁, h₁', -, -, -, hw⟩ := cp.exists_meta inv hl hmem
    obtain rfl := Option.some.inj (htm'.symm.trans h₁')
    have hlt := v.ahead l _ m₁ m hl hmem hne h₁ hm
    have hle := hmax _ m' hm'
    rw [hw, hwork] at hle
    exact absurd hlt (not_lt.mpr hle)
  have hl' := cp.descends inv hl
  obtain ⟨l₁, hl₁, hidx₁, hown₁⟩ := cp.inv.tip
  rw [htip] at hl₁
  obtain rfl := hl₁.unique hl'
  obtain ⟨l₂, hl₂, hidx₂, hown₂⟩ := inv.tip
  obtain rfl := hl₂.unique hl
  refine ⟨htip, ?_, by rw [hown₁, hown₂, cp.ownersOn_eq hl], fun n hn => ?_⟩
  · simp only [tipHeight, htip, hm, hm', Exec.expect_some, Exec.ok_bind, hheight]
  · have hfloor : c'.floorHeight ≤ n := by rw [cp.floor.2.1]; exact hn
    rw [hidx₁ n hfloor, hidx₂ n hn, cp.floor.2.1]

/-- So it has the same canonical blocks above the floor. -/
theorem Copies.canonicalBlockAt_eq (cp : Copies c c' l) (best : c'.Best) (inv : Inv root c) (v : Vetted c)
    (hl : c.Descends c.tipHash l) {n : ℕ} (hn : c.floorHeight < n) : c'.canonicalBlockAt n = c.canonicalBlockAt n := by
  obtain ⟨-, -, -, hindex⟩ := cp.tip_eq best inv v hl
  obtain ⟨l', hl', hidx, -⟩ := inv.tip
  obtain rfl := hl'.unique hl
  unfold canonicalBlockAt
  rw [hindex n hn.le, hidx n hn.le]
  obtain ⟨t, rfl⟩ := hl.eq_cons
  obtain ⟨j, hj⟩ : ∃ j, n - c.floorHeight = j + 1 := ⟨n - c.floorHeight - 1, by omega⟩
  rw [hj, List.getElem?_cons_succ]
  rcases h : t[j]? with _ | a
  · rfl
  · have ha := List.mem_of_getElem? h
    have hne : a ≠ c.floorHash := fun he => (List.nodup_cons.mp hl.nodup).1 (he ▸ ha)
    exact cp.blocks a (List.mem_cons_of_mem _ ha) hne

end Chain
end SpiritChat
