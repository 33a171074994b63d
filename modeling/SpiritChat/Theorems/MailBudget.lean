import Mathlib.Logic.Function.Iterate
import SpiritChat.Lib.Run
import SpiritChat.Theorems.MailStore

/-! # The counter of the mailbox and its limit

`accept` adds the size of the stored value to the counter, and a removal takes off the length of the envelope only. So
the counter is never below the real size, which is why the limit holds, and it is never brought back to it. -/

namespace SpiritChat
open Lib

/-- The row that `accept` writes for a deposit. -/
def MailboxDeposit.row [Primitives] (d : MailboxDeposit) : Bytes 40 × StoredDeposit := (depositKey d, d.stored)

namespace MailboxStore

/-- The sum over the stored deposits of what `accept` adds for one. -/
def realBytes (s : MailboxStore) : ℕ := weight StoredDeposit.serializedLen s.deposits

/-- By how much the counter is ahead. -/
def drift (s : MailboxStore) : ℕ := s.totalBytes - s.realBytes

/-- The store after a turn of the eviction loop. -/
def dropOldest (s : MailboxStore) : MailboxStore := s.evictOldest.1

/-- The table is in order and the counter is not behind. -/
structure Covered (s : MailboxStore) : Prop where
  ordered : Ordered (· ≤ ·) s.deposits
  le : s.realBytes ≤ s.totalBytes

variable {s : MailboxStore} {key : Bytes 40} {stored : StoredDeposit}

theorem covered_create : create.Covered := ⟨.nil, Nat.le_refl 0⟩

/-! ### Evictions -/

theorem dropOldest_of_nil (hs : s.deposits = []) : s.dropOldest = s := by rw [dropOldest, evictOldest_of_nil hs]

theorem limitBytes_dropOldest : s.dropOldest.limitBytes = s.limitBytes := by
  rcases hs : s.deposits with _ | ⟨⟨key, stored⟩, rest⟩
  · rw [dropOldest_of_nil hs]
  · rw [dropOldest, evictOldest_of_cons hs, removeLocked]

theorem totalBytes_dropOldest_le : s.dropOldest.totalBytes ≤ s.totalBytes := by
  rcases hs : s.deposits with _ | ⟨⟨key, stored⟩, rest⟩
  · rw [dropOldest_of_nil hs]
  · rw [dropOldest, evictOldest_of_cons hs]
    exact Nat.sub_le _ _

theorem Covered.removeLocked (h : s.Covered) (hm : (key, stored) ∈ s.deposits) :
    (s.removeLocked key stored.tag stored.envelope.length).Covered ∧
      (s.removeLocked key stored.tag stored.envelope.length).drift = s.drift + 40 := by
  have hle := h.le
  have hreal : (s.removeLocked key stored.tag stored.envelope.length).realBytes + (32 + 8 + stored.envelope.length) =
      s.realBytes := h.ordered.weight_eraseKey hm
  have htotal : (s.removeLocked key stored.tag stored.envelope.length).totalBytes =
      s.totalBytes - stored.envelope.length := rfl
  refine ⟨⟨h.ordered.eraseKey, ?_⟩, ?_⟩
  · omega
  · rw [drift, drift]
    omega

theorem Covered.dropOldest (h : s.Covered) (hs : s.deposits ≠ []) :
    s.dropOldest.Covered ∧ s.dropOldest.drift = s.drift + 40 ∧ s.dropOldest.deposits = s.deposits.tail := by
  obtain ⟨⟨key, stored⟩, rest, hcons⟩ := List.exists_cons_of_ne_nil hs
  have hord := h.ordered
  rw [hcons] at hord
  obtain ⟨hcov, hdrift⟩ := h.removeLocked (hcons ▸ List.mem_cons_self)
  rw [MailboxStore.dropOldest, evictOldest_of_cons hcons]
  refine ⟨hcov, hdrift, ?_⟩
  show eraseKey s.deposits key = s.deposits.tail
  rw [hcons]
  exact hord.eraseKey_head

/-- Evictions one after another take the first rows of the table. -/
theorem Covered.iterate (h : s.Covered) {n : ℕ} (hn : n ≤ s.deposits.length) :
    (MailboxStore.dropOldest^[n] s).Covered ∧ (MailboxStore.dropOldest^[n] s).drift = s.drift + 40 * n ∧
      (MailboxStore.dropOldest^[n] s).deposits = s.deposits.drop n ∧
      (MailboxStore.dropOldest^[n] s).limitBytes = s.limitBytes := by
  induction n with
  | zero => exact ⟨h, rfl, rfl, rfl⟩
  | succ n ih =>
    obtain ⟨hcov, hdrift, hdrop, hlimit⟩ := ih (Nat.le_of_succ_le hn)
    have hne : (MailboxStore.dropOldest^[n] s).deposits ≠ [] := by
      rw [hdrop, ← List.length_pos_iff, List.length_drop]
      exact Nat.sub_pos_of_lt hn
    obtain ⟨hcov', hdrift', htail⟩ := hcov.dropOldest hne
    rw [Function.iterate_succ_apply']
    refine ⟨hcov', ?_, ?_, limitBytes_dropOldest.trans hlimit⟩
    · rw [hdrift', hdrift, Nat.mul_succ, Nat.add_assoc]
    · rw [htail, hdrop, List.tail_drop]

/-- The loop of `evict_until_room_for` is evictions, each because the counter and the new deposit are over the limit; with
a turn more than there are deposits it ends by itself. -/
theorem Covered.evictUntilRoomFor_eq (h : s.Covered) (additional turns : ℕ) :
    ∃ n ≤ s.deposits.length, evictUntilRoomFor additional turns s = MailboxStore.dropOldest^[n] s ∧
      (∀ i < n, s.limitBytes < (MailboxStore.dropOldest^[i] s).totalBytes + additional) ∧
      (s.deposits.length < turns → (MailboxStore.dropOldest^[n] s).totalBytes + additional ≤ s.limitBytes ∨
        n = s.deposits.length) := by
  induction turns generalizing s with
  | zero => exact ⟨0, Nat.zero_le _, rfl, fun i hi => absurd hi (Nat.not_lt_zero i), fun ht => absurd ht (Nat.not_lt_zero _)⟩
  | succ turns ih =>
    rw [evictUntilRoomFor]
    by_cases hroom : s.totalBytes + additional ≤ s.limitBytes
    · rw [if_pos hroom]
      exact ⟨0, Nat.zero_le _, rfl, fun i hi => absurd hi (Nat.not_lt_zero i), fun _ => .inl hroom⟩
    rw [if_neg hroom]
    rcases hs : s.deposits with _ | ⟨⟨key, stored⟩, rest⟩
    · rw [evictOldest_of_nil hs]
      exact ⟨0, Nat.zero_le _, rfl, fun i hi => absurd hi (Nat.not_lt_zero i), fun _ => .inr rfl⟩
    · have hne : s.deposits ≠ [] := hs ▸ List.cons_ne_nil _ _
      obtain ⟨hcov, -, htail⟩ := h.dropOldest hne
      have hlen : s.deposits.length = s.dropOldest.deposits.length + 1 := by rw [htail, hs]; rfl
      obtain ⟨n, hn, heq, hover, hexit⟩ := ih hcov
      rw [limitBytes_dropOldest] at hover hexit
      rw [← hs, hlen]
      have hdrop : s.evictOldest = (s.dropOldest, true) := by rw [MailboxStore.dropOldest, evictOldest_of_cons hs]
      refine ⟨n + 1, Nat.succ_le_succ hn, ?_, fun i hi => ?_, fun ht => ?_⟩
      · rw [hdrop]
        exact heq
      · cases i with
        | zero => exact Nat.not_le.mp hroom
        | succ i => exact hover i (Nat.lt_of_succ_lt_succ hi)
      · exact (hexit (Nat.lt_of_succ_lt_succ ht)).imp_right (congrArg (· + 1))

/-- The loop of `evict_expired` is evictions; it makes none exactly if no deposit is expired. -/
theorem Covered.evictExpiredTurns_eq (h : s.Covered) (now : UInt64) {turns : ℕ} (ht : s.deposits.length < turns) :
    ∃ n ≤ s.deposits.length, evictExpiredTurns now turns s = some (MailboxStore.dropOldest^[n] s) ∧
      (n = 0 ↔ ∀ e ∈ s.deposits, now.toNat - keyTime e.1 ≤ retentionSecs) := by
  induction turns generalizing s with
  | zero => exact absurd ht (Nat.not_lt_zero _)
  | succ turns ih =>
    rw [evictExpiredTurns]
    rcases hs : s.deposits with _ | ⟨⟨key, stored⟩, rest⟩
    · exact ⟨0, Nat.zero_le _, rfl, iff_of_true rfl fun e he => absurd he List.not_mem_nil⟩
    have hord := h.ordered
    rw [hs] at hord
    by_cases hnow : now.toNat - keyTime key ≤ retentionSecs
    · simp only [if_pos hnow]
      refine ⟨0, Nat.zero_le _, rfl, iff_of_true rfl fun e he => ?_⟩
      exact (Nat.sub_le_sub_left (keyTime_le (hord.le_of_mem e he)) _).trans hnow
    · simp only [if_neg hnow]
      have hne : s.deposits ≠ [] := hs ▸ List.cons_ne_nil _ _
      obtain ⟨hcov, -, htail⟩ := h.dropOldest hne
      have hrest : s.dropOldest.deposits = rest := by rw [htail, hs, List.tail_cons]
      have hlen : s.deposits.length = rest.length + 1 := by rw [hs, List.length_cons]
      obtain ⟨n, hn, heq, -⟩ := ih hcov (by rw [hrest]; omega)
      refine ⟨n + 1, Nat.succ_le_succ (hrest ▸ hn), ?_, iff_of_false (Nat.succ_ne_zero n) fun hall => ?_⟩
      · rw [show s.removeLocked key stored.tag stored.envelope.length = s.dropOldest by
          rw [MailboxStore.dropOldest, evictOldest_of_cons hs]]
        exact heq
      · exact hnow (hall _ List.mem_cons_self)

/-! ### What a call adds to the drift -/

section
variable [Primitives] {d : MailboxDeposit}

theorem accept_eq (s : MailboxStore) (d : MailboxDeposit) {e : MailboxStore}
    (he : evictUntilRoomFor d.stored.serializedLen (s.deposits.length + 1) s = e) :
    (s.accept d).deposits = put (· ≤ ·) e.deposits (depositKey d) d.stored ∧
      (s.accept d).totalBytes = e.totalBytes + d.stored.serializedLen ∧ (s.accept d).limitBytes = e.limitBytes := by
  subst he
  exact ⟨rfl, rfl, rfl⟩

/-- The counter gets ahead by forty bytes for each eviction and by the size of the deposit if it was there. -/
theorem Covered.accept (h : s.Covered) {n : ℕ} (hn : n ≤ s.deposits.length)
    (heq : evictUntilRoomFor d.stored.serializedLen (s.deposits.length + 1) s = MailboxStore.dropOldest^[n] s) :
    (s.accept d).Covered ∧
      (s.accept d).drift + weight StoredDeposit.serializedLen (eraseKey (s.deposits.drop n) (depositKey d)) =
        s.drift + 40 * n + weight StoredDeposit.serializedLen (s.deposits.drop n) := by
  obtain ⟨hcov, hdrift, hdrop, -⟩ := h.iterate hn
  obtain ⟨hdeposits, htotal, -⟩ := accept_eq s d heq
  have hord : Ordered (· ≤ ·) (s.accept d).deposits := by
    rw [hdeposits]
    exact hcov.ordered.put
  have hreal : (s.accept d).realBytes = d.stored.serializedLen +
      weight StoredDeposit.serializedLen (eraseKey (s.deposits.drop n) (depositKey d)) := by
    rw [realBytes, hdeposits, weight_put, hdrop]
  have herase := weight_eraseKey_le (f := StoredDeposit.serializedLen) (s.deposits.drop n) (depositKey d)
  have hle := hcov.le
  have hbase : (MailboxStore.dropOldest^[n] s).realBytes = weight StoredDeposit.serializedLen (s.deposits.drop n) := by
    rw [realBytes, hdrop]
  rw [drift] at hdrift
  refine ⟨⟨hord, ?_⟩, ?_⟩
  · omega
  · rw [drift]
    omega

/-- A call that finds nothing to take out and nothing to replace. -/
def Quiet (s : MailboxStore) : MailboxOp → Prop
  | .accept d => s.get (depositKey d) = none ∧
      (s.totalBytes + d.stored.serializedLen ≤ s.limitBytes ∨ s.deposits = [])
  | .remove key => s.get key = none
  | .evictOldest => s.deposits = []
  | .evictExpired now => ∀ e ∈ s.deposits, now.toNat - keyTime e.1 ≤ retentionSecs
  | .setLimitBytes _ => True

omit [Primitives] in
theorem serializedLen_pos (stored : StoredDeposit) : 0 < stored.serializedLen := by
  rw [StoredDeposit.serializedLen]
  omega

theorem Covered.drift_accept (h : s.Covered) (d : MailboxDeposit) :
    (s.accept d).Covered ∧ s.drift ≤ (s.accept d).drift ∧ ((s.accept d).drift = s.drift ↔ s.Quiet (.accept d)) := by
  obtain ⟨n, hn, heq, hover, hexit⟩ := h.evictUntilRoomFor_eq d.stored.serializedLen (s.deposits.length + 1)
  obtain ⟨hcov, hsum⟩ := h.accept hn heq
  have herase := weight_eraseKey_le (f := StoredDeposit.serializedLen) (s.deposits.drop n) (depositKey d)
  refine ⟨hcov, by omega, fun hsame => ?_, fun ⟨habsent, hroom⟩ => ?_⟩
  · obtain rfl : n = 0 := by omega
    refine ⟨lookup_eq_none.mpr ((h.ordered.weight_eraseKey_eq serializedLen_pos).mp ?_), ?_⟩
    · rw [List.drop_zero] at hsum
      omega
    · exact (hexit (Nat.lt_succ_self _)).imp_right fun hlen => List.length_eq_zero_iff.mp hlen.symm
  · obtain rfl : n = 0 := by
      rcases hroom with hroom | hnil
      · exact Nat.eq_zero_of_not_pos fun hpos => Nat.not_le.mpr (hover 0 hpos) hroom
      · rw [hnil] at hn
        exact Nat.le_zero.mp hn
    rw [List.drop_zero, eraseKey_of_notMem (lookup_eq_none.mp habsent)] at hsum
    omega

theorem Covered.apply (h : s.Covered) (op : MailboxOp) :
    (s.apply op).Covered ∧ s.drift ≤ (s.apply op).drift ∧ ((s.apply op).drift = s.drift ↔ s.Quiet op) := by
  cases op with
  | accept d => exact h.drift_accept d
  | remove key =>
    show (s.remove key).Covered ∧ s.drift ≤ (s.remove key).drift ∧ ((s.remove key).drift = s.drift ↔ s.get key = none)
    unfold MailboxStore.remove
    rcases hget : s.get key with _ | stored
    · exact ⟨h, Nat.le_refl _, iff_of_true rfl rfl⟩
    · obtain ⟨hcov, hdrift⟩ := h.removeLocked (mem_of_lookup hget)
      exact ⟨hcov, hdrift ▸ Nat.le_add_right _ _, iff_of_false (by simp only []; omega) (Option.some_ne_none _)⟩
  | evictOldest =>
    by_cases hs : s.deposits = []
    · rw [show s.apply .evictOldest = s from dropOldest_of_nil hs]
      exact ⟨h, Nat.le_refl _, iff_of_true rfl hs⟩
    · obtain ⟨hcov, hdrift, -⟩ := h.dropOldest hs
      exact ⟨hcov, hdrift ▸ Nat.le_add_right _ _, iff_of_false (by show s.dropOldest.drift ≠ _; omega) hs⟩
  | evictExpired now =>
    obtain ⟨n, hn, heq, hzero⟩ := h.evictExpiredTurns_eq now (Nat.lt_succ_self _)
    obtain ⟨hcov, hdrift, -, -⟩ := h.iterate hn
    have happly : s.apply (.evictExpired now) = MailboxStore.dropOldest^[n] s := by
      show s.evictExpired now = _
      rw [MailboxStore.evictExpired, heq]
      rfl
    rw [happly]
    exact ⟨hcov, hdrift ▸ Nat.le_add_right _ _, Iff.trans (by omega) hzero⟩
  | setLimitBytes limit => exact ⟨⟨h.ordered, h.le⟩, Nat.le_refl _, iff_of_true rfl trivial⟩

/-! ### Runs -/

theorem run_covered (ops : List MailboxOp) : (run ops).Covered := by
  induction ops using List.reverseRecOn with
  | nil => exact covered_create
  | append_singleton ops op ih =>
    rw [run_concat]
    exact (ih.apply op).1

omit [Primitives] in
theorem totalBytes_iterate_le (n : ℕ) : (dropOldest^[n] s).totalBytes ≤ s.totalBytes := by
  induction n with
  | zero => exact Nat.le_refl _
  | succ n ih =>
    rw [Function.iterate_succ_apply']
    exact totalBytes_dropOldest_le.trans ih

theorem Covered.totalBytes_apply_le (h : s.Covered) (op : MailboxOp) :
    (s.apply op).totalBytes ≤ s.totalBytes + (op.accepted?.map (·.stored.serializedLen)).getD 0 := by
  cases op with
  | accept d =>
    obtain ⟨n, -, heq, -, -⟩ := h.evictUntilRoomFor_eq d.stored.serializedLen (s.deposits.length + 1)
    rw [MailboxStore.apply, (accept_eq s d heq).2.1]
    exact Nat.add_le_add_right (totalBytes_iterate_le n) _
  | remove key =>
    rw [MailboxStore.apply, MailboxStore.remove]
    split
    · exact Nat.le_refl _
    · exact Nat.sub_le _ _
  | evictOldest => exact totalBytes_dropOldest_le
  | evictExpired now =>
    obtain ⟨n, -, heq, -⟩ := h.evictExpiredTurns_eq now (Nat.lt_succ_self _)
    rw [MailboxStore.apply, MailboxStore.evictExpired, heq]
    exact totalBytes_iterate_le n
  | setLimitBytes limit => exact Nat.le_refl _

/-- The counter stays below what came in, so it does not overflow before that does. -/
theorem run_totalBytes_le (ops : List MailboxOp) :
    (run ops).totalBytes ≤ ((acceptedBy ops).map (·.stored.serializedLen)).sum := by
  induction ops using List.reverseRecOn with
  | nil => exact Nat.le_refl _
  | append_singleton ops op ih =>
    have hstep := (run_covered ops).totalBytes_apply_le op
    have hsum : ((acceptedBy (ops ++ [op])).map (·.stored.serializedLen)).sum =
        ((acceptedBy ops).map (·.stored.serializedLen)).sum + (op.accepted?.map (·.stored.serializedLen)).getD 0 := by
      cases hop : op.accepted? <;> simp [acceptedBy, hop]
    rw [run_concat, hsum]
    exact hstep.trans (Nat.add_le_add_right ih _)

/-- The drift only grows, and stays only if each call is quiet. -/
theorem Covered.drift_foldl (h : s.Covered) (ops : List MailboxOp) :
    s.drift ≤ (ops.foldl MailboxStore.apply s).drift ∧
      ((ops.foldl MailboxStore.apply s).drift = s.drift ↔ Run.Follows MailboxStore.apply Quiet s ops) := by
  induction ops generalizing s with
  | nil => exact ⟨Nat.le_refl _, iff_of_true rfl trivial⟩
  | cons op ops ih =>
    obtain ⟨hcov, hle, hquiet⟩ := h.apply op
    obtain ⟨hle', hfollows⟩ := ih hcov
    refine ⟨hle.trans hle', ?_⟩
    rw [Run.Follows, ← hquiet, ← hfollows, List.foldl_cons]
    omega

omit [Primitives] in
theorem Covered.exact_iff (h : s.Covered) : s.totalBytes = s.realBytes ↔ s.drift = 0 := by
  have hle := h.le
  rw [drift]
  omega

theorem run_exact_iff (ops : List MailboxOp) :
    (run ops).totalBytes = (run ops).realBytes ↔ Run.Follows MailboxStore.apply Quiet create ops := by
  rw [(run_covered ops).exact_iff]
  exact (covered_create.drift_foldl ops).2

/-- Room for `additional` bytes is made only while the real size of what is stored, with them, is over the limit. -/
def SpaceEvictionsNeeded (s : MailboxStore) (additional : ℕ) : Prop :=
  ∀ n, (∀ i ≤ n, s.limitBytes < (dropOldest^[i] s).totalBytes + additional) → (dropOldest^[n] s).deposits ≠ [] →
    s.limitBytes < (dropOldest^[n] s).realBytes + additional

/-- The counter is the real size, and each call to `accept` on the way evicted no more than the real size asks for. -/
def CountsExactly (ops : List MailboxOp) : Prop :=
  (run ops).totalBytes = (run ops).realBytes ∧
    ∀ before d, before ++ [.accept d] <+: ops → (run before).SpaceEvictionsNeeded d.stored.serializedLen

theorem Quiet.spaceEvictionsNeeded (h : s.Quiet (.accept d)) : s.SpaceEvictionsNeeded d.stored.serializedLen := by
  intro n hover hne
  rcases h.2 with hroom | hnil
  · exact absurd hroom (Nat.not_le.mpr (hover 0 (Nat.zero_le n)))
  · rw [Function.iterate_fixed (dropOldest_of_nil hnil)] at hne
    exact absurd hnil hne

/-! ### Room for a deposit -/

/-- The store in which `accept` writes a deposit. -/
def madeRoom (s : MailboxStore) (d : MailboxDeposit) : MailboxStore :=
  evictUntilRoomFor d.stored.serializedLen (s.deposits.length + 1) s

theorem mem_deposits_apply (h : s.Covered) {op : MailboxOp} {e : Bytes 40 × StoredDeposit} (he : e ∈ (s.apply op).deposits) :
    e ∈ s.deposits ∨ ∃ d, op.accepted? = some d ∧ d.row = e := by
  have hdrop {n : ℕ} (hn : n ≤ s.deposits.length) {e : Bytes 40 × StoredDeposit}
      (he : e ∈ (dropOldest^[n] s).deposits) : e ∈ s.deposits := by
    rw [(h.iterate hn).2.2.1] at he
    exact List.mem_of_mem_drop he
  cases op with
  | accept d =>
    obtain ⟨n, hn, heq, -, -⟩ := h.evictUntilRoomFor_eq d.stored.serializedLen (s.deposits.length + 1)
    rw [MailboxStore.apply, (accept_eq s d heq).1, mem_put] at he
    exact he.elim (fun heq => .inr ⟨d, rfl, heq.symm⟩) fun hm => .inl (hdrop hn hm.1)
  | remove key =>
    rw [MailboxStore.apply, MailboxStore.remove] at he
    split at he
    · exact .inl he
    · exact .inl (mem_removeLocked.mp he).1
  | evictOldest =>
    by_cases hs : s.deposits = []
    · rw [show s.apply .evictOldest = s from dropOldest_of_nil hs] at he
      exact .inl he
    · exact .inl (hdrop (n := 1) (List.length_pos_iff.mpr hs) he)
  | evictExpired now =>
    obtain ⟨n, hn, heq, -⟩ := h.evictExpiredTurns_eq now (Nat.lt_succ_self _)
    rw [MailboxStore.apply, MailboxStore.evictExpired, heq] at he
    exact .inl (hdrop hn he)
  | setLimitBytes limit => exact .inl he

/-- The rows of the table are those of accepted deposits, the oldest first. -/
theorem run_rows (ops : List MailboxOp) : ∃ ds : List MailboxDeposit, ds.map MailboxDeposit.row = (run ops).deposits ∧
    (∀ d ∈ ds, d ∈ acceptedBy ops) ∧ ds.Pairwise fun d d' => d.depositedAt ≤ d'.depositedAt := by
  have hrows : ∀ e ∈ (run ops).deposits, ∃ d, d ∈ acceptedBy ops ∧ d.row = e := by
    induction ops using List.reverseRecOn with
    | nil => exact fun e he => absurd he List.not_mem_nil
    | append_singleton ops op ih =>
      intro e he
      rw [run_concat] at he
      rcases mem_deposits_apply (run_covered ops) he with he | ⟨d, hd, rfl⟩
      · obtain ⟨d, hd, hrow⟩ := ih e he
        exact ⟨d, by simp [acceptedBy] at hd ⊢; exact .inl hd, hrow⟩
      · exact ⟨d, by simp [acceptedBy, hd], rfl⟩
  obtain ⟨ds, hmap, hds⟩ := exists_map_eq hrows
  refine ⟨ds, hmap, hds, ?_⟩
  have hord := (run_covered ops).ordered
  rw [← hmap, Ordered, List.pairwise_map] at hord
  refine hord.imp fun {d d'} hle => ?_
  have htime := keyTime_le hle.1
  rw [MailboxDeposit.row, MailboxDeposit.row, keyTime_depositKey, keyTime_depositKey] at htime
  exact UInt64.le_iff_toNat_le.mpr htime

omit [Primitives] in
/-- Turns of the loop beyond those it needs change nothing. -/
theorem Covered.madeRoom_eq (h : s.Covered) (d : MailboxDeposit) {turns : ℕ} (ht : s.deposits.length < turns) :
    evictUntilRoomFor d.stored.serializedLen turns s = s.madeRoom d := by
  obtain ⟨n, hn, heq, hover, hexit⟩ := h.evictUntilRoomFor_eq d.stored.serializedLen turns
  obtain ⟨n', hn', heq', hover', hexit'⟩ := h.evictUntilRoomFor_eq d.stored.serializedLen (s.deposits.length + 1)
  have hle : n ≤ n' := Nat.le_of_not_lt fun hlt => by
    have hn'over := hover n' hlt
    rcases hexit' (Nat.lt_succ_self _) with hroom | hlen <;> omega
  have hge : n' ≤ n := Nat.le_of_not_lt fun hlt => by
    have hnover := hover' n hlt
    rcases hexit ht with hroom | hlen <;> omega
  rw [heq, madeRoom, heq', Nat.le_antisymm hle hge]

omit [Primitives] in
/-- The loop stops at one of its two exits. -/
theorem Covered.madeRoom_exit (h : s.Covered) (d : MailboxDeposit) :
    (s.madeRoom d).totalBytes + d.stored.serializedLen ≤ (s.madeRoom d).limitBytes ∨ (s.madeRoom d).evictOldest.2 = false := by
  obtain ⟨n, hn, heq, -, hexit⟩ := h.evictUntilRoomFor_eq d.stored.serializedLen (s.deposits.length + 1)
  obtain ⟨-, -, hdrop, hlimit⟩ := h.iterate hn
  rw [madeRoom, heq, hlimit]
  refine (hexit (Nat.lt_succ_self _)).imp_right fun hlen => ?_
  rw [evictOldest_of_nil (by rw [hdrop, hlen, List.drop_length])]

theorem Covered.within_limit (h : s.Covered) (d : MailboxDeposit) :
    (s.accept d).realBytes ≤ (s.accept d).limitBytes ∨ (s.accept d).deposits = [d.row] := by
  obtain ⟨n, hn, heq, -, hexit⟩ := h.evictUntilRoomFor_eq d.stored.serializedLen (s.deposits.length + 1)
  obtain ⟨hcov, -, hdrop, hlimit⟩ := h.iterate hn
  obtain ⟨hdeposits, htotal, hlimit'⟩ := accept_eq s d heq
  rcases hexit (Nat.lt_succ_self _) with hroom | hlen
  · left
    calc (s.accept d).realBytes ≤ (s.accept d).totalBytes := (h.accept hn heq).1.le
      _ = (MailboxStore.dropOldest^[n] s).totalBytes + d.stored.serializedLen := htotal
      _ ≤ s.limitBytes := hroom
      _ = (s.accept d).limitBytes := (hlimit'.trans hlimit).symm
  · right
    rw [hdeposits, hdrop, hlen, List.drop_length]
    rfl

end

end MailboxStore

section
variable [Primitives]

/-- Right after a deposit is accepted, the store is within its limit or holds this deposit only. The loop that makes
the room ends by itself, whatever turns it has, and takes the oldest deposits, one after another. -/
theorem accept_within_limit (ops : List MailboxOp) (d : MailboxDeposit) :
    (((MailboxStore.run ops).accept d).realBytes ≤ ((MailboxStore.run ops).accept d).limitBytes ∨
      ((MailboxStore.run ops).accept d).deposits = [d.row]) ∧
    (∀ turns, (MailboxStore.run ops).deposits.length < turns →
      MailboxStore.evictUntilRoomFor d.stored.serializedLen turns (MailboxStore.run ops) =
        (MailboxStore.run ops).madeRoom d) ∧
    (((MailboxStore.run ops).madeRoom d).totalBytes + d.stored.serializedLen ≤
        ((MailboxStore.run ops).madeRoom d).limitBytes ∨ ((MailboxStore.run ops).madeRoom d).evictOldest.2 = false) ∧
    ∃ (ds : List MailboxDeposit) (n : ℕ), (MailboxStore.run ops).deposits = ds.map MailboxDeposit.row ∧
      (∀ d' ∈ ds, d' ∈ acceptedBy ops) ∧ ds.Pairwise (fun d d' => d.depositedAt ≤ d'.depositedAt) ∧
      (MailboxStore.run ops).madeRoom d = MailboxStore.dropOldest^[n] (MailboxStore.run ops) ∧
      ∀ i ≤ n, (MailboxStore.dropOldest^[i] (MailboxStore.run ops)).deposits = (ds.drop i).map MailboxDeposit.row := by
  have hcov := MailboxStore.run_covered ops
  obtain ⟨ds, hmap, hds, hsorted⟩ := MailboxStore.run_rows ops
  obtain ⟨n, hn, heq, -, -⟩ := hcov.evictUntilRoomFor_eq d.stored.serializedLen ((MailboxStore.run ops).deposits.length + 1)
  refine ⟨hcov.within_limit d, fun turns => hcov.madeRoom_eq d, hcov.madeRoom_exit d, ds, n, hmap.symm, hds, hsorted, heq, fun i hi => ?_⟩
  rw [(hcov.iterate (hi.trans hn)).2.2.1, ← hmap, List.map_drop]

/-- The counter is exact after the calls that took nothing out and replaced nothing, and after no others. -/
theorem countsExactly_iff (ops : List MailboxOp) :
    MailboxStore.CountsExactly ops ↔ Run.Follows MailboxStore.apply MailboxStore.Quiet MailboxStore.create ops := by
  refine ⟨fun h => (MailboxStore.run_exact_iff ops).mp h.1, fun h => ⟨(MailboxStore.run_exact_iff ops).mpr h, ?_⟩⟩
  rintro before d ⟨after, rfl⟩
  have hbefore := (Run.follows_append.mp (Run.follows_append.mp h).1).2
  exact hbefore.1.spaceEvictionsNeeded

end

section
attribute [local instance] unsigned

theorem removal_leaves_forty :
    let d : MailboxDeposit := ⟨.replicate 32 7, [0x01], 1750000000, .replicate 8 0⟩
    (MailboxStore.run [.accept d, .remove (depositKey d)]).deposits = [] ∧
      (MailboxStore.run [.accept d, .remove (depositKey d)]).totalBytes = 40 ∧
      ¬MailboxStore.CountsExactly [.accept d, .remove (depositKey d)] := by
  intro d
  have hnil : (MailboxStore.run [.accept d, .remove (depositKey d)]).deposits = [] :=
    List.eq_nil_of_length_eq_zero (by decide +kernel)
  have htotal : (MailboxStore.run [.accept d, .remove (depositKey d)]).totalBytes = 40 := by decide +kernel
  refine ⟨hnil, htotal, fun h => ?_⟩
  have hreal := h.1
  rw [htotal, MailboxStore.realBytes, hnil] at hreal
  exact absurd hreal (by decide)

end

end SpiritChat
