import SpiritChat.Theorems.Restart

/-! # Writes that fail

A block is taken into memory before it is written. So an error of the database leaves the two apart, unless
there was nothing to write. -/

namespace SpiritChat
open Lib

section
variable {F : Type} [Float64 F] [Primitives]

namespace ChainStore
variable {s s' : ChainStore F} {b : Block} {now : ℕ} {commit : Commit}

/-- The states of a store any of whose writes may fail, but not those of a block that it accepts. -/
inductive Run : ChainStore F → Prop
  | opened {s : ChainStore F} {tables genesis : Commit} : openAt Disk.empty tables genesis = .ok s → Run s
  | tryApply {s : ChainStore F} {b : Block} {now : ℕ} {commit : Commit} : Run s → b.hash ≠ .zero →
      s.Persists b now commit → Run (s.tryApply b now commit).1
  | prune {s : ChainStore F} (retention : ℕ) (commit₁ commit₂ : Commit) : Run s →
      Run (s.pruneWithRetention retention commit₁ commit₂).1

theorem Run.step (hs : Run s) (hz : b.hash ≠ .zero) (hp : s.Persists b now commit) : Run (s.tryApply b now commit).1 :=
  .tryApply hs hz hp

theorem Run.sealed (hz : Block.genesis.hash ≠ .zero) (hs : Run s) : s.Sealed := by
  induction hs with
  | opened ho =>
    obtain ⟨-, -, rfl⟩ := (openAt_empty hz).mp ho
    exact sealed_opened hz
  | tryApply _ hb hp ih => exact ih.tryApply hb hp
  | prune retention commit₁ commit₂ _ ih => exact ih.pruneWithRetention retention commit₁ commit₂

/-- An error leaves the store as it was exactly when no write of an accepted block failed. -/
theorem Sealed.tryApply_error_iff (sl : s.Sealed) (hb : b.hash ≠ .zero) :
    (∀ e, (s.tryApply b now commit).2 = .error e → (s.tryApply b now commit).1 = s) ↔ s.Persists b now commit := by
  have happ := tryApply_applied sl.inv hb now commit
  generalize s.tryApply b now commit = r at happ
  cases happ with
  | known hk => exact ⟨fun _ => Or.inr (Or.inl hk), fun _ _ _ => rfl⟩
  | rejected _ he => exact ⟨fun _ => Or.inr (Or.inr ⟨_, he⟩), fun _ _ _ => rfl⟩
  | persisted hc => exact ⟨fun _ => Or.inl hc, fun _ e he => by cases he⟩
  | @lost reason m hc hv g =>
    constructor
    · intro h
      -- The chain holds the block now, which it did not before.
      have hsame := congrArg (fun s => s.chain.metas b.hash) (h _ rfl)
      simp only [g.metas, Table.insert_self, g.new] at hsame
      cases hsame
    · rintro (hok | hk | ⟨e, he⟩)
      · rw [hok] at hc
        cases hc
      · rw [g.new] at hk
        cases hk
      · rw [hv] at he
        cases he

/-- Without a checkpoint nothing was cut off. -/
theorem Sealed.replayable_of_no_checkpoint (sl : s.Sealed) (hcp : s.disk.checkpoint = none) (n : ℕ) (b : Block)
    (hn : s.chain.floorHeight < n) (hb : s.chain.canonicalBlockAt n = some b) :
    s.chain.Replayable s.chain.floorHeight n b := by
  have hroot : s.chain.floorHash = Block.genesis.hash := by
    rw [← sl.mirrors.start.floor.1]
    unfold Disk.start
    rw [hcp]
    rfl
  obtain ⟨l, hl, -, -⟩ := sl.inv.tip
  obtain ⟨t, rfl⟩ := hl.eq_cons
  exact (sl.vetted.readmits_iff sl.inv hl).mp (fun k _ => sl.vetted.readmits_of_root sl.inv hroot k) n b hn hb

/-- In every such run an error changes nothing exactly when no write of an accepted block failed, and the file
opens to the same canonical chain, provided that a saved checkpoint cuts no block off from what it needs. -/
theorem run_keeps_file (hz : Block.genesis.hash ≠ .zero) (hs : Run s) :
    (∀ b now commit, b.hash ≠ .zero →
      ((∀ e, (s.tryApply b now commit).2 = .error e → (s.tryApply b now commit).1 = s) ↔ s.Persists b now commit)) ∧
    ((s.disk.checkpoint = none ∨ ∀ n b, s.chain.floorHeight < n → s.chain.canonicalBlockAt n = some b →
        s.chain.Replayable s.chain.floorHeight n b) →
      ∃ s', openAt s.disk (.ok ()) (.ok ()) = .ok s' ∧ s'.chain.tipHash = s.chain.tipHash ∧
        (∀ n, s.chain.floorHeight ≤ n → s'.chain.canonicalIndex n = s.chain.canonicalIndex n) ∧
        ∀ n, s.chain.floorHeight < n → s'.chain.canonicalBlockAt n = s.chain.canonicalBlockAt n) := by
  have sl := hs.sealed hz
  refine ⟨fun b now commit hb => sl.tryApply_error_iff hb, fun h => ?_⟩
  have hreplay : ∀ n b, s.chain.floorHeight < n → s.chain.canonicalBlockAt n = some b →
      s.chain.Replayable s.chain.floorHeight n b := h.elim sl.replayable_of_no_checkpoint id
  obtain ⟨s', hopen⟩ := (sl.openAt (.ok ())).2.mpr hreplay
  obtain ⟨-, l, hl, cp, best, -⟩ := (sl.openAt (.ok ())).1 s' hopen
  obtain ⟨htip, -, -, hindex⟩ := cp.tip_eq best sl.inv sl.vetted hl
  exact ⟨s', hopen, htip, hindex, fun n hn => cp.canonicalBlockAt_eq best sl.inv sl.vetted hl hn⟩

end ChainStore
end

namespace ChainStore
attribute [local instance] unsigned

theorem run_afterFirst : Run afterFirst :=
  have hopen : openAt (Disk.empty : Disk ℚ) (.ok ()) (.ok ()) = .ok (opened ℚ) :=
    (openAt_empty genesis_hash_ne_zero).mpr ⟨rfl, rfl, rfl⟩
  (Run.opened hopen).step (by decide +kernel) (Or.inl rfl)

theorem run_keeps_file_afterFirst :
    ∃ s', openAt afterFirst.disk (.ok ()) (.ok ()) = .ok s' ∧ s'.chain.tipHash = afterFirst.chain.tipHash := by
  have hcp : afterFirst.disk.checkpoint = none := Option.isNone_iff_eq_none.mp (by decide +kernel)
  obtain ⟨s', hopen, htip, -⟩ := (run_keeps_file genesis_hash_ne_zero run_afterFirst).2 (Or.inl hcp)
  exact ⟨s', hopen, htip⟩

/-- A new store whose write of its first block failed. -/
def afterFault : ChainStore ℚ := ((opened ℚ).tryApply firstBlock minedAt (.error "disk full")).1

/-- The failed write leaves the block in memory and not in the file; the next block, which is written, extends
it, and then the file does not open. -/
theorem afterFault_not_opens :
    openAt (Disk.empty : Disk ℚ) (.ok ()) (.ok ()) = .ok (opened ℚ) ∧
    ((opened ℚ).tryApply firstBlock minedAt (.error "disk full")).2 = .error (.err (.storage "disk full")) ∧
    afterFault.chain.tipHash ≠ (opened ℚ).chain.tipHash ∧
    (afterFault.tryApply secondBlock minedAt (.ok ())).2 = .ok .extendedTip ∧
    (openAt (afterFault.tryApply secondBlock minedAt (.ok ())).1.disk (.ok ()) (.ok ())).fault? =
      some (.err (.unknownBlock firstBlock.hash)) := by
  refine ⟨(openAt_empty genesis_hash_ne_zero).mpr ⟨rfl, rfl, rfl⟩, ?_⟩
  decide +kernel

end ChainStore
end SpiritChat
