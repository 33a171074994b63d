import SpiritChat.Theorems.ForkChoice
import SpiritChat.Theorems.Reopen

/-! # Restarting an unpruned store

The restart replays the canonical blocks only. So it brings the store back exactly when there were no others:
a block on a side branch is forgotten. -/

namespace SpiritChat
open Lib

section
variable {F : Type} [Float64 F] [Primitives]

namespace Chain
variable {c c' : Chain F} {root : Hash32} {l : List Hash32}

/-- A branch that reaches down to the root cannot be cut off. -/
theorem Vetted.readmits_of_root (v : Vetted c) (inv : Inv root c) (hf : c.floorHash = root) (k : Hash32) : c.Readmits k := by
  intro p l b hp hpar hb
  obtain ⟨below, f, now, hline, hadm⟩ := v.admitted k p l b hp hpar hb
  obtain rfl : below = [] := by
    rcases List.eq_nil_or_concat below with h | ⟨l₁, a, rfl⟩
    · exact h
    · obtain ⟨l', rfl⟩ := hp.eq_cons
      rw [List.concat_eq_append, List.append_assoc] at hline
      obtain ⟨hroot, -⟩ := hline.parent_of_append
      exact absurd hf (inv.ne_root_of_parentOf hroot)
  rw [List.nil_append] at hadm
  exact ⟨hadm.sound, hadm.height, hadm.target, hadm.work, hadm.past, Nat.le_add_right _ _, hadm.anchored, hadm.unclaimed⟩

/-- A copy of a path that holds all there is, down to the root, is the original. -/
theorem Copies.eq (cp : Copies c c' l) (best : c'.Best) (inv : Inv root c) (v : Vetted c) (hf : c.floorHash = root)
    (hzero : c.floorHeight = 0) (hl : c.Descends c.tipHash l) (hall : ∀ h, (c.metas h).isSome → h ∈ l)
    (hbody : c'.blocks c.floorHash = c.blocks c.floorHash) : c' = c := by
  obtain ⟨htip, -, howner, hindex⟩ := cp.tip_eq best inv v hl
  have hmetas : c'.metas = c.metas := by
    funext h
    by_cases hh : h ∈ l
    · by_cases hfloor : h = c.floorHash
      · subst hfloor
        obtain ⟨m, hm, hm'⟩ := cp.root
        obtain ⟨m', hr, hz⟩ := inv.rootMeta
        rw [← hf, hm] at hr
        obtain rfl := Option.some.inj hr
        rw [hm, hm', ← hz]
      · exact cp.metas h hh hfloor
    · rw [cp.known h hh]
      by_contra hne
      exact hh (hall h (Option.isSome_iff_ne_none.mpr (Ne.symm hne)))
  have hblocks : c'.blocks = c.blocks := by
    funext h
    by_cases hh : h ∈ l
    · by_cases hfloor : h = c.floorHash
      · rw [hfloor, hbody]
      · exact cp.blocks h hh hfloor
    · have hnone : ∀ {c₀ : Chain F} {r : Hash32}, Inv r c₀ → c₀.metas h = none → c₀.blocks h = none := by
        intro c₀ r inv₀ hm
        by_contra hsome
        obtain ⟨b, hb⟩ := Option.ne_none_iff_exists'.mp hsome
        obtain ⟨-, m, hm', -⟩ := inv₀.stored h b hb
        rw [hm] at hm'
        cases hm'
      rw [hnone cp.inv (cp.known h hh), hnone inv (hmetas ▸ cp.known h hh)]
  obtain ⟨h1, h2, h3⟩ := cp.floor
  have hidx : c'.canonicalIndex = c.canonicalIndex := funext fun n => hindex n (by omega)
  cases c
  cases c'
  simp only at hmetas hblocks htip howner hidx h1 h2 h3
  subst hmetas hblocks htip howner hidx h1 h2 h3
  rfl

end Chain

namespace ChainStore
variable {s s' : ChainStore F}

/-- The states of a store that was opened in a new file, took blocks and was never pruned. -/
inductive Unpruned : ChainStore F → Prop
  | opened {s : ChainStore F} : openAt Disk.empty (.ok ()) (.ok ()) = .ok s → Unpruned s
  | applied {s s' : ChainStore F} {b : Block} {now : ℕ} {o : ApplyOutcome} : Unpruned s → b.hash ≠ .zero →
      s.tryApply b now (.ok ()) = (s', .ok o) → Unpruned s'

/-- What a store answers to blocks that arrive one after the other: the result, the tip and the owners. -/
def responses (s : ChainStore F) : List (Block × ℕ) → List (Ledger ApplyOutcome × Hash32 × Owners)
  | [] => []
  | (b, now) :: later =>
    let (s', r) := s.tryApply b now (.ok ())
    (r, s'.chain.tipHash, s'.chain.usernameOwner) :: s'.responses later

/-- Restarting the store does not show in any later answer. -/
def Transparent (s : ChainStore F) : Prop :=
  ∃ s', openAt s.disk (.ok ()) (.ok ()) = .ok s' ∧ ∀ later, s'.responses later = s.responses later

/-- A call changes the chain in the store as it changes the chain alone. -/
theorem tryApply_chain (inv : Chain.Inv Block.genesis.hash s.chain) {b : Block} (hz : b.hash ≠ .zero) (now : ℕ)
    (commit : Commit) : (s.tryApply b now commit).1.chain = (s.chain.tryApply b now).1 := by
  have happ := tryApply_applied inv hz now commit
  have hchain := inv.tryApply_applied hz now
  generalize s.tryApply b now commit = r at happ
  cases happ with
  | known hk =>
    have hsame : s.chain.tryApply b now = (s.chain, .ok .alreadyKnown) := by
      unfold Chain.tryApply
      rw [if_pos hk]
    rw [hsame]
  | rejected hnew he =>
    have hsame : (s.chain.tryApply b now).1 = s.chain := by
      unfold Chain.tryApply
      rw [if_neg (by simp [hnew]), he]
    rw [hsame]
  | persisted => rfl
  | lost => rfl

theorem Unpruned.sealed (hz : Block.genesis.hash ≠ .zero) (hs : Unpruned s) :
    s.Sealed ∧ Chain.Grown (fun _ _ => True) s.chain ∧ s.chain.blocks Block.genesis.hash = some Block.genesis ∧
      s.disk.checkpoint = none := by
  induction hs with
  | opened ho =>
    obtain ⟨-, -, rfl⟩ := (openAt_empty hz).mp ho
    exact ⟨sealed_opened hz, .new hz, Table.insert_self, rfl⟩
  | @applied s s' b now o _ hb hr ih =>
    obtain ⟨sl, grown, hbody, hcp⟩ := ih
    have hsealed : Sealed (s.tryApply b now (.ok ())).1 := sl.tryApply hb (Or.inl rfl)
    have hchain := tryApply_chain sl.inv hb now (.ok ())
    have happ := tryApply_applied sl.inv hb now (.ok ())
    rw [hr] at hsealed hchain happ
    refine ⟨hsealed, ?_, ?_, ?_⟩
    · rw [show s'.chain = _ from hchain]
      exact grown.tryApply hb trivial
    · cases happ with
      | known => exact hbody
      | persisted _ _ _ g _ =>
        show (s.chain.tryApply b now).1.blocks _ = _
        rw [g.blocks]
        obtain ⟨-, m, hm, -⟩ := sl.inv.stored _ _ hbody
        exact (Table.insert_of_ne (Chain.ne_of_known g.new (by simp [hm]))).trans hbody
    · cases happ with
      | known => exact hcp
      | persisted => exact hcp

/-- A restart is transparent exactly when every block that the store accepted is canonical. -/
theorem transparent_iff (hz : Block.genesis.hash ≠ .zero) (hs : Unpruned s) :
    Transparent s ↔ ∀ h, (s.chain.metas h).isSome → ∃ n, s.chain.canonicalIndex n = some h := by
  obtain ⟨sl, grown, hbody, hcp⟩ := hs.sealed hz
  obtain ⟨l, hl, hidx, -⟩ := sl.inv.tip
  have hindex : ∀ h, h ∈ l ↔ ∃ n, s.chain.canonicalIndex n = some h := by
    intro h
    rw [List.mem_iff_getElem?]
    refine exists_congr fun n => ?_
    rw [hidx n (by rw [grown.floor.2]; exact Nat.zero_le _), grown.floor.2, Nat.sub_zero]
  have hcopy : ∀ s', openAt s.disk (.ok ()) (.ok ()) = .ok s' → s'.disk = s.disk ∧ Chain.Copies s.chain s'.chain l ∧
      s'.chain.Best ∧ s'.chain.blocks s.chain.floorHash = s.chain.blocks s.chain.floorHash := by
    intro s' h
    obtain ⟨h1, l', hl', cp, best, hb⟩ := (sl.openAt (.ok ())).1 s' h
    obtain rfl := hl'.unique hl
    refine ⟨h1, cp, best, ?_⟩
    rw [hb, grown.floor.1, hbody]
    unfold Disk.start
    rw [hcp]
    exact Table.insert_self
  constructor
  · rintro ⟨s', hopen, hsame⟩ h hk
    rw [← hindex]
    by_contra hout
    obtain ⟨-, cp, -, -⟩ := hcopy s' hopen
    -- A block off the path has its body in memory; submitting it again tells the two stores apart.
    obtain ⟨lh, hlh⟩ := grown.line h hk
    have hfloor : h ≠ s.chain.floorHash := fun he => hout (he ▸ hl.floor_mem)
    obtain ⟨b, m, -, rfl, hm, -⟩ := sl.inv.body_of_descends hlh hfloor
    have hb : b.hash ≠ .zero := by
      intro hb
      rw [hb, sl.inv.zero] at hm
      cases hm
    have hfirst := congrArg (fun r => (r.head?.map Prod.fst)) (hsame [(b, 0)])
    simp only [responses, List.head?_cons, Option.map_some, Option.some.injEq] at hfirst
    have hknown : (s.tryApply b 0 (.ok ())).2 = .ok .alreadyKnown := by
      have happ := tryApply_applied sl.inv hb 0 (.ok ())
      generalize s.tryApply b 0 (.ok ()) = r at happ
      cases happ with
      | known => rfl
      | rejected hnew => simp [hm] at hnew
      | persisted _ _ _ g => simp [g.new] at hm
      | lost _ _ g => simp [g.new] at hm
    rw [hknown] at hfirst
    have happ := tryApply_applied cp.inv hb 0 (.ok ())
    generalize s'.tryApply b 0 (.ok ()) = r at happ hfirst
    cases happ with
    | known hk' =>
      rw [cp.known _ hout] at hk'
      cases hk'
    | rejected => cases hfirst
    | persisted _ hne => exact hne (Except.ok.inj hfirst)
    | lost hc => cases hc
  · intro hall
    obtain ⟨t, rfl⟩ := hl.eq_cons
    have hpasses := (sl.vetted.readmits_iff sl.inv hl).mp fun k _ =>
      sl.vetted.readmits_of_root sl.inv grown.floor.1 k
    obtain ⟨s', hopen⟩ := (sl.openAt (.ok ())).2.mpr hpasses
    obtain ⟨hdisk, cp, best, hb⟩ := hcopy s' hopen
    have hchain := cp.eq best sl.inv sl.vetted grown.floor.1 grown.floor.2 hl (fun h hk => (hindex h).mpr (hall h hk)) hb
    have hs' : s' = s := by
      cases s
      cases s'
      simp only at hdisk hchain
      rw [hdisk, hchain]
    exact ⟨s', hopen, fun later => by rw [hs']⟩

end ChainStore
end

namespace ChainStore
attribute [local instance] unsigned

/-- A new store after a block and a rival of it that is as heavy. -/
def afterRival : ChainStore ℚ := (afterFirst.tryApply rivalBlock minedAt (.ok ())).1

theorem Unpruned.step {F : Type} [Float64 F] {s : ChainStore F} {b : Block} {now : ℕ} {o : ApplyOutcome} (hs : Unpruned s)
    (hz : b.hash ≠ .zero) (ho : (s.tryApply b now (.ok ())).2 = .ok o) : Unpruned (s.tryApply b now (.ok ())).1 :=
  .applied hs hz (Prod.ext rfl ho)

theorem unpruned_afterFirst : Unpruned afterFirst :=
  have hopen : openAt (Disk.empty : Disk ℚ) (.ok ()) (.ok ()) = .ok (opened ℚ) :=
    (openAt_empty genesis_hash_ne_zero).mpr ⟨rfl, rfl, rfl⟩
  have hfirst : ((opened ℚ).tryApply firstBlock minedAt (.ok ())).2 = .ok .extendedTip := by decide +kernel
  (Unpruned.opened hopen).step (by decide +kernel) hfirst

theorem transparent_iff_afterFirst :
    Transparent afterFirst ↔ ∀ h, (afterFirst.chain.metas h).isSome → ∃ n, afterFirst.chain.canonicalIndex n = some h :=
  transparent_iff genesis_hash_ne_zero unpruned_afterFirst

/-- The restarted store takes the rival for a new block, the other one knows it. -/
theorem afterRival_not_transparent : Unpruned afterRival ∧ ¬Transparent afterRival := by
  obtain ⟨hrival, hclosed, hreopened⟩ : (afterFirst.tryApply rivalBlock minedAt (.ok ())).2 = .ok .addedToFork ∧
      (afterRival.tryApply rivalBlock minedAt (.ok ())).2 = .ok .alreadyKnown ∧
      (openAt afterRival.disk (.ok ()) (.ok ())).toOption.map (fun s' => (s'.tryApply rivalBlock minedAt (.ok ())).2) =
        some (.ok .addedToFork) := by
    decide +kernel
  refine ⟨unpruned_afterFirst.step (by decide +kernel) hrival, ?_⟩
  rintro ⟨s', hopen, hsame⟩
  have hfirst := congrArg (fun r => (r.head?.map Prod.fst)) (hsame [(rivalBlock, minedAt)])
  simp only [responses, List.head?_cons, Option.map_some, Option.some.injEq] at hfirst
  rw [hopen] at hreopened
  simp only [Except.toOption, Option.map_some, Option.some.injEq] at hreopened
  rw [hclosed, hreopened] at hfirst
  cases hfirst

end ChainStore
end SpiritChat
