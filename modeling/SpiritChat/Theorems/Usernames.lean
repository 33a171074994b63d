import SpiritChat.Theorems.Reachable

/-! # Unique usernames

A chain forgets the bodies below its floor. Beside a run from genesis we keep every body the chain ever
accepted, so that a path can be read back to genesis, and show what the owners' map says about it. -/

namespace SpiritChat
open Lib

section
variable [Primitives]

/-- The transaction carries a signature of its claim under `key`. -/
def Transaction.SignedBy (tx : Transaction) (key : Bytes 32) : Prop :=
  ∃ signature, tx.signatureArray = .ok signature ∧ Primitives.verifySignature key
    (signingPreimage tx.username tx.ownerPublicKey tx.claimedAtHeightHint tx.anchorBlockHash tx.nonce) signature = true

theorem Transaction.signedBy_of_verify {tx : Transaction} (h : tx.verifySelfContained = .ok ()) :
    tx.SignedBy tx.ownerPublicKey := by
  unfold verifySelfContained at h
  obtain ⟨⟨⟩, -, h⟩ := except_bind_eq_ok.mp h
  obtain ⟨-, h⟩ := Exec.guard_eq_ok.mp h
  obtain ⟨-, h⟩ := Exec.guard_eq_ok.mp h
  obtain ⟨signature, hs, h⟩ := except_bind_eq_ok.mp h
  refine ⟨signature, hs, ?_⟩
  by_contra hv
  rw [if_neg hv] at h
  cases h

end

/-! ### The claims on a path -/

theorem Block.claims_fst (b : Block) (h : Hash32) : (b.claims h).map Prod.fst = b.transactions.map (·.username) := by
  simp [claims]

/-- The usernames claimed by the bodies of a path, in order. -/
def usernames (bodies : Table Hash32 Block) (path : List Hash32) : List String :=
  path.flatMap fun h => (bodies h).elim [] fun b => b.transactions.map (·.username)

section
variable {bodies bodies' : Table Hash32 Block} {state : Owners} {path : List Hash32} {u : String} {o : UsernameOwner}

theorem usernames_congr (h : ∀ a ∈ path, bodies' a = bodies a) : usernames bodies' path = usernames bodies path := by
  induction path with
  | nil => rfl
  | cons a path ih =>
    have htail := ih fun x hx => h x (List.mem_cons_of_mem _ hx)
    simp only [usernames, List.flatMap_cons] at htail ⊢
    rw [h a List.mem_cons_self, htail]

/-- A username that the replay leaves free is not claimed on the path. -/
theorem notMem_usernames_of_replay (h : replay bodies state path u = none) : u ∉ usernames bodies path := by
  induction path generalizing state with
  | nil => simp [usernames]
  | cons a path ih =>
    -- The replay goes on from the first body, which must leave the name free as well.
    have hkeep : ∀ (path : List Hash32) (state : Owners), replay bodies state path u = none → state u = none := by
      intro path
      induction path with
      | nil => exact fun _ h => h
      | cons a path ih =>
        intro state h
        have h1 : replayBody bodies state a u = none := ih _ h
        unfold replayBody at h1
        cases hb : bodies a with
        | none => rwa [hb] at h1
        | some b => rw [hb] at h1; exact (Table.insertAll_eq_none.mp h1).1
    have hhead : replayBody bodies state a u = none := hkeep path _ h
    have htail : u ∉ usernames bodies path := ih h
    simp only [usernames, List.flatMap_cons, List.mem_append, not_or]
    refine ⟨?_, htail⟩
    unfold replayBody at hhead
    cases hb : bodies a with
    | none => simp
    | some b =>
      rw [hb] at hhead
      have := (Table.insertAll_eq_none.mp hhead).2
      rwa [Block.claims_fst] at this

/-- An owner after a replay was there before, or some body of the path claims the name for it. -/
theorem replay_eq_some (h : replay bodies state path u = some o) :
    state u = some o ∨ ∃ a ∈ path, ∃ b, bodies a = some b ∧ (u, o) ∈ b.claims a := by
  induction path generalizing state with
  | nil => exact Or.inl h
  | cons a path ih =>
    have hrest : replay bodies (replayBody bodies state a) path u = some o := h
    rcases ih hrest with h | ⟨x, hx, h⟩
    · unfold replayBody at h
      cases hb : bodies a with
      | none => rw [hb] at h; exact Or.inl h
      | some b =>
        rw [hb] at h
        rcases Table.insertAll_eq_some h with h | h
        · exact Or.inr ⟨a, List.mem_cons_self, b, hb, h⟩
        · exact Or.inl h
    · exact Or.inr ⟨x, List.mem_cons_of_mem _ hx, h⟩

end

namespace Chain

section
variable {F : Type} [Float64 F] [Primitives] {c : Chain F} {archive : Table Hash32 Block} {h : Hash32}
  {l : List Hash32} {b : Block}

/-- The bodies accepted so far, after one more call of `try_apply`. -/
def record (archive : Table Hash32 Block) (b : Block) : Ledger ApplyOutcome → Table Hash32 Block
  | .ok .alreadyKnown => archive
  | .ok _ => archive.insert b.hash b
  | .error _ => archive

/-- A run from genesis, with every body it accepted. -/
inductive History : Chain F → Table Hash32 Block → Prop
  | new : Block.genesis.hash ≠ .zero → History Chain.new (Table.empty.insert Block.genesis.hash Block.genesis)
  | tryApply {c : Chain F} {archive : Table Hash32 Block} (b : Block) (now : ℕ) : History c archive → b.hash ≠ .zero →
      History (c.tryApply b now).1 (record archive b (c.tryApply b now).2)
  | prune {c : Chain F} {archive : Table Hash32 Block} (height : ℕ) : History c archive →
      History (c.pruneBodiesUpTo height).1 archive

/-- The path of a hash back to genesis; the metadata on it are never pruned. -/
abbrev FromGenesis (c : Chain F) (h : Hash32) (path : List Hash32) : Prop :=
  Lineage c.parentOf Block.genesis.hash h path

/-- What ties a chain to the bodies it accepted. -/
structure Archived (c : Chain F) (archive : Table Hash32 Block) : Prop where
  inv : Inv Block.genesis.hash c
  root : c.heightOf Block.genesis.hash = 0
  bodies : ∀ h b, c.blocks h = some b → archive h = some b
  known : ∀ h m, c.metas h = some m → ∃ b, archive h = some b ∧ b.hash = h ∧ m.Describes b
  signed : ∀ h b, archive h = some b → ∀ tx ∈ b.transactions, tx.verifySelfContained = .ok ()
  line : ∀ h, (c.metas h).isSome → ∃ path, c.FromGenesis h path
  unique : ∀ h path, c.FromGenesis h path → (usernames archive path).Nodup
  floor : ∀ path, c.FromGenesis c.floorHash path → c.floorUsernameOwner = replay archive Table.empty path

namespace Archived

theorem root_known (ar : Archived c archive) : (c.metas Block.genesis.hash).isSome := by
  obtain ⟨m, hm, -⟩ := ar.inv.rootMeta
  simp [hm]

/-- A path from the floor goes on from one that leads to genesis, and its owners are the whole replay. -/
theorem ownersOn_eq (ar : Archived c archive) (hl : c.Descends h l) :
    ∃ below, below.length = c.floorHeight ∧ c.FromGenesis h (below ++ l) ∧
      c.ownersOn l = replay archive Table.empty (below ++ l) := by
  obtain ⟨l₀, hl₀⟩ := ar.line c.floorHash ar.inv.rooted.floor_known
  obtain ⟨l₁, rfl⟩ := hl₀.eq_concat
  obtain ⟨l₂, rfl⟩ := hl.eq_cons
  refine ⟨l₁, ?_, hl₀.trans_of_height ar.inv.rooted.graded hl, ?_⟩
  · have := hl₀.height_getElem? ar.inv.rooted.graded (i := l₁.length) (a := c.floorHash) (by simp)
    rw [ar.inv.rooted.heightOf_floor, ar.root] at this
    omega
  have hsplit : replay archive Table.empty (l₁ ++ c.floorHash :: l₂) = replay archive c.floorUsernameOwner l₂ := by
    rw [ar.floor _ hl₀, ← replay_append, List.append_assoc]
    rfl
  rw [hsplit]
  refine (replay_congr (fun a ha => ?_) _).symm
  have hne : a ≠ c.floorHash := by
    rintro rfl
    exact (List.nodup_cons.mp hl.nodup).1 ha
  obtain ⟨b, hb⟩ := Option.isSome_iff_exists.mp (ar.inv.bodies_of_descends hl a (List.mem_cons_of_mem _ ha) hne)
  rw [hb, ar.bodies a b hb]

theorem new (hz : Block.genesis.hash ≠ .zero) :
    Archived (Chain.new : Chain F) (Table.empty.insert Block.genesis.hash Block.genesis) where
  inv := .new hz
  root := by simp [heightOf, Chain.new, genesisMeta]
  bodies := fun _ _ hb => hb
  known := by
    intro h m hm
    rcases Table.insert_eq_some.mp hm with ⟨rfl, rfl⟩ | ⟨-, hm⟩
    · exact ⟨Block.genesis, Table.insert_self, rfl, rfl, rfl, rfl, rfl⟩
    · cases hm
  signed := by
    intro h b hb tx htx
    rcases Table.insert_eq_some.mp hb with ⟨rfl, rfl⟩ | ⟨-, hb⟩
    · cases htx
    · cases hb
  line := by
    intro h hk
    obtain ⟨m, hm⟩ := Option.isSome_iff_exists.mp hk
    rcases Table.insert_eq_some.mp hm with ⟨rfl, -⟩ | ⟨-, hm⟩
    · exact ⟨_, .floor⟩
    · cases hm
  unique := by
    intro h path hl
    obtain rfl := descends_floor_of_single (c := (Chain.new : Chain F)) rfl hl
    obtain rfl := Lineage.eq_floor hl
    simp [usernames, Block.genesis]
  floor := by
    intro path hl
    obtain rfl := Lineage.eq_floor hl
    simp [replay, replayBody, Chain.new, Block.genesis, Block.claims]

/-- Accepting a block keeps the names on every path apart. -/
theorem accept (ar : Archived c archive) {now : ℕ} {pm : BlockMeta F} (a : c.Accepts b now pm l) (hz : b.hash ≠ .zero) :
    Archived (c.accepted b pm) (archive.insert b.hash b) := by
  have hne : ∀ {k}, (c.metas k).isSome → k ≠ b.hash := ne_of_known a.new
  have harchive : ∀ {k path}, c.FromGenesis k path → ∀ x ∈ path, archive.insert b.hash b x = archive x :=
    fun hl x hx => Table.insert_of_ne (hne (lineage_known ar.root_known hl x hx))
  have hmetas : ∀ {k}, (c.metas k).isSome → (c.accepted b pm).metas k = c.metas k := fun hk =>
    Table.insert_of_ne (hne hk)
  refine ⟨a.inv ar.inv hz, ?_, ?_, ?_, ?_, ?_, ?_, ?_⟩
  · unfold heightOf
    rw [hmetas ar.root_known]
    exact ar.root
  · intro k b' hb
    rcases Table.insert_eq_some.mp hb with ⟨rfl, rfl⟩ | ⟨hk, hb⟩
    · exact Table.insert_self
    · rw [Table.insert_of_ne hk]
      exact ar.bodies k b' hb
  · intro k m hm
    rcases Table.insert_eq_some.mp hm with ⟨rfl, rfl⟩ | ⟨hk, hm⟩
    · exact ⟨b, Table.insert_self, rfl, childMeta_describes⟩
    · rw [Table.insert_of_ne hk]
      exact ar.known k m hm
  · intro k b' hb
    rcases Table.insert_eq_some.mp hb with ⟨rfl, rfl⟩ | ⟨-, hb⟩
    · exact a.admits.sound.signed
    · exact ar.signed k b' hb
  · intro k hk
    by_cases hkb : k = b.hash
    · subst hkb
      obtain ⟨path, hl⟩ := ar.line b.header.prevHash (by simp [a.parent])
      exact ⟨_, (lineage_store_self ar.inv a.new hz a.parent_known ar.root_known).mpr ⟨path, hl, rfl⟩⟩
    · have hkept : (c.accepted b pm).metas k = c.metas k := Table.insert_of_ne hkb
      obtain ⟨path, hl⟩ := ar.line k (by rwa [hkept] at hk)
      exact ⟨path, (lineage_store ar.inv a.new hz hkb).mpr hl⟩
  · intro k path hl
    by_cases hkb : k = b.hash
    · subst hkb
      obtain ⟨path, hp, rfl⟩ := (lineage_store_self ar.inv a.new hz a.parent_known ar.root_known).mp hl
      -- The owners that `b` was checked against are the claims on its parent's path.
      obtain ⟨below, -, hp', hown⟩ := ar.ownersOn_eq a.line
      have hpath : path = below ++ l := Lineage.unique hp hp'
      have hnew : usernames (archive.insert b.hash b) [b.hash] = b.transactions.map (·.username) := by
        simp [usernames]
      have happ : usernames (archive.insert b.hash b) (path ++ [b.hash]) =
          usernames archive path ++ b.transactions.map (·.username) := by
        rw [← hnew, ← usernames_congr (harchive hp)]
        simp [usernames]
      rw [happ]
      refine List.nodup_append.mpr ⟨ar.unique _ _ hp, a.admits.sound.distinct, ?_⟩
      rintro u hu _ hv rfl
      obtain ⟨tx, htx, rfl⟩ := List.mem_map.mp hv
      have hfree := a.admits.unclaimed tx htx
      rw [hown, ← hpath] at hfree
      exact notMem_usernames_of_replay hfree hu
    · have hl := (lineage_store ar.inv a.new hz hkb).mp hl
      rw [usernames_congr (harchive hl)]
      exact ar.unique k path hl
  · intro path hl
    have hl := (lineage_store ar.inv a.new hz (hne ar.inv.rooted.floor_known)).mp hl
    rw [replay_congr (harchive hl)]
    exact ar.floor path hl

theorem setTip (ar : Archived c archive) (hl : c.Descends h l) : Archived (c.setTip h l) archive :=
  ⟨ar.inv.setTip hl, ar.root, ar.bodies, ar.known, ar.signed, ar.line, ar.unique, ar.floor⟩

theorem raiseFloor (ar : Archived c archive) {height : ℕ} {l₁ l₂ : List Hash32} {g : Hash32}
    (hlt : c.floorHeight < height) (hlen : l₁.length = height - c.floorHeight)
    (hl : c.Descends c.tipHash (l₁ ++ g :: l₂)) :
    Archived (c.raiseFloor height g (c.ownersOn (l₁ ++ [g]))) archive := by
  refine ⟨ar.inv.raiseFloor hlt hlen hl, ar.root, ?_, ar.known, ar.signed, ar.line, ar.unique, ?_⟩
  · intro k b hb
    have hb' : c.blocks.retain (fun _ block => height < block.header.height.toNat) k = some b := hb
    exact ar.bodies k b (Table.retain_eq_some.mp hb').1
  · intro path hp
    obtain ⟨below, -, hp', hown⟩ := ar.ownersOn_eq hl.of_append
    obtain rfl : path = below ++ (l₁ ++ [g]) := Lineage.unique hp hp'
    exact hown

/-- One call of `try_apply`. -/
theorem tryApply (ar : Archived c archive) (hz : b.hash ≠ .zero) (now : ℕ) :
    Archived (c.tryApply b now).1 (record archive b (c.tryApply b now).2) := by
  have h := ar.inv.tryApply_applied hz now
  generalize (c.tryApply b now).1 = c' at h
  generalize (c.tryApply b now).2 = r at h
  cases h with
  | known => exact ar
  | rejected => exact ar
  | fork a => exact ar.accept a hz
  | tip a =>
    have := (ar.accept a hz).setTip (a.descends ar.inv hz)
    split_ifs <;> exact this

theorem prune (ar : Archived c archive) (height : ℕ) : Archived (c.pruneBodiesUpTo height).1 archive := by
  have h := ar.inv.prune_pruned height
  generalize c.pruneBodiesUpTo height = r at h
  cases h with
  | kept => exact ar
  | moved hlt hlen hl => exact ar.raiseFloor hlt hlen hl

end Archived

theorem History.archived (hc : History c archive) : Archived c archive := by
  induction hc with
  | new hz => exact .new hz
  | tryApply b now _ hz ih => exact ih.tryApply hz now
  | prune height _ ih => exact ih.prune height

/-! ### What the owners' map says -/

/-- The entry of `u` comes from a transaction on the path, and tells where. -/
def Backed (archive : Table Hash32 Block) (path : List Hash32) (u : String) (o : UsernameOwner) : Prop :=
  ∃ b, archive o.claimedInBlock = some b ∧ b.hash = o.claimedInBlock ∧
    path[o.claimedAtHeight]? = some o.claimedInBlock ∧ b.header.height.toNat = o.claimedAtHeight ∧
    ∃ tx ∈ b.transactions, tx.username = u ∧ tx.ownerPublicKey = o.ownerPublicKey ∧ tx.SignedBy o.ownerPublicKey

theorem Archived.backed (ar : Archived c archive) {path : List Hash32} (hl : c.FromGenesis h path) {u : String}
    {o : UsernameOwner} (ho : replay archive Table.empty path u = some o) : Backed archive path u o := by
  rcases replay_eq_some ho with ho | ⟨a, ha, b, hb, hclaim⟩
  · cases ho
  · obtain ⟨tx, htx, heq⟩ := List.mem_map.mp hclaim
    obtain ⟨rfl, rfl⟩ := Prod.mk.inj heq
    obtain ⟨m, hm⟩ := Option.isSome_iff_exists.mp (lineage_known ar.root_known hl a ha)
    obtain ⟨b', hb', hhash, hd⟩ := ar.known a m hm
    obtain rfl : b = b' := Option.some.inj (hb.symm.trans hb')
    obtain ⟨i, hi⟩ := List.getElem?_of_mem ha
    have hheight := hl.height_getElem? ar.inv.rooted.graded hi
    rw [ar.root, Nat.zero_add, heightOf_eq hm, hd.height] at hheight
    exact ⟨b, hb, hhash, by rw [← hi, ← hheight], rfl, tx, htx, rfl, rfl,
      Transaction.signedBy_of_verify (ar.signed a b hb tx htx)⟩

/-- A block that extends the tip keeps every entry. -/
theorem Inv.usernameOwner_extendedTip {root : Hash32} (inv : Inv root c) (hz : b.hash ≠ .zero) {now : ℕ}
    (he : (c.tryApply b now).2 = .ok .extendedTip) {u : String} {o : UsernameOwner} (ho : c.usernameOwner u = some o) :
    (c.tryApply b now).1.usernameOwner u = some o := by
  have h := inv.tryApply_applied hz now
  rw [he] at h
  generalize (c.tryApply b now).1 = c' at h
  generalize hr : (Except.ok ApplyOutcome.extendedTip : Ledger ApplyOutcome) = r at h
  cases h with
  | known => cases hr
  | rejected => cases hr
  | fork => cases hr
  | @tip pm l _ a _ _ =>
    split_ifs at hr with hprev
    · obtain ⟨lt, hlt, -, hown⟩ := inv.tip
      have hline := a.line
      rw [hprev] at hline
      obtain rfl := hline.unique hlt
      show (c.accepted b pm).ownersOn (l ++ [b.hash]) u = some o
      rw [ownersOn_store_child inv a.new hlt, Table.insertAll_of_notMem, ← hown, ho]
      rw [Block.claims_fst]
      intro hu
      obtain ⟨tx, htx, rfl⟩ := List.mem_map.mp hu
      have hfree := a.admits.unclaimed tx htx
      rw [← hown, ho] at hfree
      cases hfree
    · cases hr

/-- On every path from genesis the usernames are distinct, the owners' map is the replay of the canonical
path and each of its entries is backed by a signed claim on it, and extending the tip keeps all entries. -/
theorem usernames_unique (hc : History c archive) :
    (∀ h, (c.metas h).isSome → ∃ path, c.FromGenesis h path ∧ (usernames archive path).Nodup) ∧
    (∃ path, c.FromGenesis c.tipHash path ∧ (∀ n, c.floorHeight ≤ n → c.canonicalIndex n = path[n]?) ∧
      c.usernameOwner = replay archive Table.empty path ∧
      ∀ u o, c.usernameOwner u = some o → Backed archive path u o) ∧
    (∀ (b : Block) (now : ℕ), b.hash ≠ .zero → (c.tryApply b now).2 = .ok .extendedTip →
      ∀ u o, c.usernameOwner u = some o → (c.tryApply b now).1.usernameOwner u = some o) := by
  have ar := hc.archived
  refine ⟨fun h hk => ?_, ?_, fun b now hz he u o ho => ar.inv.usernameOwner_extendedTip hz he ho⟩
  · obtain ⟨path, hl⟩ := ar.line h hk
    exact ⟨path, hl, ar.unique h path hl⟩
  · obtain ⟨l, hl, hidx, hown⟩ := ar.inv.tip
    obtain ⟨below, hlen, hp, heq⟩ := ar.ownersOn_eq hl
    refine ⟨below ++ l, hp, fun n hn => ?_, hown.trans heq, fun u o ho => ar.backed hp ?_⟩
    · rw [hidx n hn, List.getElem?_append_right (by omega), hlen]
    · rw [← heq, ← hown, ho]

end

section
attribute [local instance] signed

/-- A chain with a claim, a fork beside it, and the block of the claim for its floor. -/
def claimed : Chain ℚ :=
  ((((Chain.new : Chain ℚ).tryApply claimBlock minedAt).1.tryApply firstBlock minedAt).1.pruneBodiesUpTo 1).1

theorem usernames_unique_claimed : ∃ archive path, (usernames archive path).Nodup ∧ claimed.FromGenesis claimed.tipHash path ∧
    claimed.usernameOwner = replay archive Table.empty path ∧
    ∃ o, claimed.usernameOwner "alice" = some o ∧ o.ownerPublicKey = aliceKey ∧ Backed archive path "alice" o := by
  obtain ⟨hgenesis, hclaim, hfirst, htip, hentry⟩ : Block.genesis.hash ≠ .zero ∧ claimBlock.hash ≠ .zero ∧
      firstBlock.hash ≠ .zero ∧ (claimed.metas claimed.tipHash).isSome ∧
      (claimed.usernameOwner "alice").map (·.ownerPublicKey) = some aliceKey := by decide +kernel
  have hran : ∃ archive, History claimed archive :=
    ⟨_, .prune 1 (.tryApply firstBlock minedAt (.tryApply claimBlock minedAt (.new hgenesis) hclaim) hfirst)⟩
  obtain ⟨archive, hran⟩ := hran
  obtain ⟨hunique, ⟨path, hpath, -, hown, hbacked⟩, -⟩ := usernames_unique hran
  obtain ⟨path', hpath', hnodup⟩ := hunique _ htip
  obtain rfl := hpath.unique hpath'
  obtain ⟨o, ho, hkey⟩ := Option.map_eq_some_iff.mp hentry
  exact ⟨archive, path, hnodup, hpath, hown, o, ho, hkey, hbacked _ _ ho⟩

end

end Chain
end SpiritChat
