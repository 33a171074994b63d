import SpiritChat.Ledger.Apply
import SpiritChat.Lib.Lineage

/-! # The ancestry walk and the replay

On a chain whose metadata form a tree with heights, `ancestors` finds the lineage of a hash above the floor
and `state_at` replays the bodies on it. -/

namespace SpiritChat
open Lib

/-- `m` is the metadata of `b`. -/
structure BlockMeta.Describes {F : Type} (m : BlockMeta F) (b : Block) : Prop where
  height : m.height = b.header.height.toNat
  prevHash : m.prevHash = b.header.prevHash
  timestamp : m.timestamp = b.header.timestamp.toNat
  difficultyTarget : m.difficultyTarget = b.header.difficultyTarget

/-- One body of a replay. -/
def replayBody (bodies : Table Hash32 Block) (state : Owners) (hash : Hash32) : Owners :=
  match bodies hash with
  | none => state
  | some b => state.insertAll (b.claims hash)

/-- The replay of the bodies on a path. -/
def replay (bodies : Table Hash32 Block) (state : Owners) (path : List Hash32) : Owners :=
  path.foldl (replayBody bodies) state

theorem replay_append {bodies : Table Hash32 Block} {state : Owners} {l₁ l₂ : List Hash32} :
    replay bodies state (l₁ ++ l₂) = replay bodies (replay bodies state l₁) l₂ := by
  simp [replay]

theorem replay_congr {bodies bodies' : Table Hash32 Block} {path : List Hash32}
    (h : ∀ a ∈ path, bodies' a = bodies a) (state : Owners) : replay bodies' state path = replay bodies state path := by
  induction path generalizing state with
  | nil => rfl
  | cons a path ih =>
    simp only [replay, List.foldl_cons]
    have ha : replayBody bodies' state a = replayBody bodies state a := by
      simp only [replayBody, h a List.mem_cons_self]
    rw [ha]
    exact ih (fun x hx => h x (List.mem_cons_of_mem _ hx)) _

namespace Chain
variable {F : Type} {c : Chain F} {h k : Hash32} {l : List Hash32}

/-- The parent of a known hash, if it is known too. -/
def parentOf (c : Chain F) (h : Hash32) : Option Hash32 :=
  (c.metas h).bind fun m => if (c.metas m.prevHash).isSome then some m.prevHash else none

theorem parentOf_eq_some {p : Hash32} :
    c.parentOf h = some p ↔ ∃ m q, c.metas h = some m ∧ m.prevHash = p ∧ c.metas p = some q := by
  unfold parentOf
  cases hm : c.metas h with
  | none => simp
  | some m =>
    cases hq : c.metas m.prevHash with
    | none =>
      simp only [Option.bind_some, hq, Option.isSome_none, Bool.false_eq_true, ↓reduceIte, reduceCtorEq, false_iff]
      rintro ⟨m', q, h1, rfl, h2⟩
      cases h1
      rw [hq] at h2
      cases h2
    | some q =>
      simp only [Option.bind_some, hq, Option.isSome_some, ↓reduceIte, Option.some.injEq]
      constructor
      · rintro rfl
        exact ⟨m, q, rfl, rfl, hq⟩
      · rintro ⟨m', q', rfl, h1, -⟩
        exact h1

/-- `l` is the path from the floor up to `h`. -/
abbrev Descends (c : Chain F) (h : Hash32) (l : List Hash32) : Prop := Lineage c.parentOf c.floorHash h l

/-- The owners after the bodies of a path from the floor. -/
def ownersOn (c : Chain F) (l : List Hash32) : Owners := replay c.blocks c.floorUsernameOwner l.tail

/-- The height stored for a hash. -/
def heightOf (c : Chain F) (h : Hash32) : ℕ := ((c.metas h).map (·.height)).getD 0

theorem heightOf_eq {m : BlockMeta F} (hm : c.metas h = some m) : c.heightOf h = m.height := by
  simp [heightOf, hm]

/-- Known parents are one height lower. -/
def Graded (c : Chain F) : Prop := ∀ a p, c.parentOf a = some p → c.heightOf a = c.heightOf p + 1

/-- The hashes of a path are known if its first one is. -/
theorem lineage_known {f : Hash32} (hf : (c.metas f).isSome) (hl : Lineage c.parentOf f h l) :
    ∀ a ∈ l, (c.metas a).isSome := by
  induction hl with
  | floor => simpa using hf
  | @child k p l hne hp hl ih =>
    intro a ha
    rcases List.mem_append.mp ha with ha | ha
    · exact ih a ha
    · obtain rfl := List.mem_singleton.mp ha
      obtain ⟨m, -, hm, -, -⟩ := parentOf_eq_some.mp hp
      simp [hm]

theorem lineage_known_of_last {f : Hash32} (hk : (c.metas h).isSome) (hl : Lineage c.parentOf f h l) :
    ∀ a ∈ l, (c.metas a).isSome := by
  induction hl with
  | floor => simpa using hk
  | @child k p l hne hp hl ih =>
    obtain ⟨-, q, -, -, hq⟩ := parentOf_eq_some.mp hp
    intro a ha
    rcases List.mem_append.mp ha with ha | ha
    · exact ih (by simp [hq]) a ha
    · obtain rfl := List.mem_singleton.mp ha
      exact hk

theorem climb_of_descends (hf : (c.metas c.floorHash).isSome) (hl : c.Descends h l) {fuel : ℕ}
    (hfuel : l.length ≤ fuel) (path : List Hash32) : c.climb fuel h path = .ok (l ++ path) := by
  induction hl generalizing fuel path with
  | floor =>
    obtain ⟨n, rfl⟩ := Nat.exists_eq_succ_of_ne_zero (show fuel ≠ 0 by simp at hfuel; omega)
    obtain ⟨m, hm⟩ := Option.isSome_iff_exists.mp hf
    simp [climb, hm]
  | @child k p l hne hp hl ih =>
    obtain ⟨n, rfl⟩ := Nat.exists_eq_succ_of_ne_zero (show fuel ≠ 0 by simp at hfuel; omega)
    obtain ⟨m, -, hm, rfl, -⟩ := parentOf_eq_some.mp hp
    simp only [climb, hm, hne, ↓reduceIte]
    rw [ih (by simpa using hfuel)]
    simp

theorem descends_of_climb {fuel : ℕ} {path r : List Hash32} (hr : c.climb fuel h path = .ok r) :
    ∃ l, c.Descends h l ∧ r = l ++ path := by
  induction fuel generalizing h path with
  | zero => simp [climb] at hr
  | succ n ih =>
    unfold climb at hr
    cases hm : c.metas h with
    | none => simp [hm] at hr
    | some m =>
      simp only [hm] at hr
      by_cases hf : h = c.floorHash
      · simp only [hf, ↓reduceIte, Except.ok.injEq] at hr
        subst hf hr
        exact ⟨_, .floor, rfl⟩
      · simp only [hf, ↓reduceIte] at hr
        obtain ⟨l, hl, rfl⟩ := ih hr
        -- The walk went on from the parent, so the parent is known.
        have hp : (c.metas m.prevHash).isSome := by
          cases n with
          | zero => simp [climb] at hr
          | succ n =>
            cases hq : c.metas m.prevHash with
            | none => simp [climb, hq] at hr
            | some q => rfl
        obtain ⟨q, hq⟩ := Option.isSome_iff_exists.mp hp
        exact ⟨l ++ [h], .child hf (parentOf_eq_some.mpr ⟨m, q, hm, rfl, hq⟩) hl, by simp⟩

/-- A tree of metadata with heights: what the walk needs. -/
structure Rooted (c : Chain F) : Prop where
  floor : ∃ m, c.metas c.floorHash = some m ∧ m.height = c.floorHeight
  graded : c.Graded

namespace Rooted

theorem floor_known (r : c.Rooted) : (c.metas c.floorHash).isSome := by
  obtain ⟨m, hm, -⟩ := r.floor
  simp [hm]

theorem heightOf_floor (r : c.Rooted) : c.heightOf c.floorHash = c.floorHeight := by
  obtain ⟨m, hm, hh⟩ := r.floor
  rw [heightOf_eq hm, hh]

/-- The `i`-th hash of a path from the floor is `i` above the floor. -/
theorem heightOf_getElem? (r : c.Rooted) (hl : c.Descends h l) {i : ℕ} {a : Hash32} (hi : l[i]? = some a) :
    c.heightOf a = c.floorHeight + i := by
  rw [hl.height_getElem? r.graded hi, r.heightOf_floor]

theorem length_eq (r : c.Rooted) (hl : c.Descends h l) :
    l.length = c.heightOf h - c.floorHeight + 1 ∧ c.floorHeight ≤ c.heightOf h := by
  have := hl.length_eq r.graded
  rwa [r.heightOf_floor] at this

/-- `ancestors` succeeds exactly on the hashes above the floor, with their path. -/
theorem ancestors_eq_ok (r : c.Rooted) : c.ancestors h = .ok l ↔ c.Descends h l := by
  constructor
  · intro hr
    obtain ⟨l', hl', rfl⟩ := descends_of_climb hr
    simpa using hl'
  · intro hl
    have hlen : l.length ≤ c.climbBound h := by
      obtain ⟨m, hm⟩ := Option.isSome_iff_exists.mp (lineage_known r.floor_known hl h hl.mem_self)
      have := (r.length_eq hl).1
      rw [heightOf_eq hm] at this
      simp only [climbBound, hm]
      omega
    unfold ancestors
    rw [climb_of_descends r.floor_known hl hlen, List.append_nil]

end Rooted

/-! ### The replay -/

theorem replayStep_eq_ok {state : Owners} (hne : h ≠ c.floorHash) {b : Block} (hb : c.blocks h = some b) :
    c.replayStep state h = .ok (replayBody c.blocks state h) := by
  simp only [replayStep, hne, ↓reduceIte, hb, Exec.ofOption_some, Exec.ok_bind, replayBody]
  rfl

theorem foldlM_replayStep {path : List Hash32}
    (hp : ∀ a ∈ path, a ≠ c.floorHash ∧ (c.blocks a).isSome) (state : Owners) :
    path.foldlM c.replayStep state = .ok (replay c.blocks state path) := by
  induction path generalizing state with
  | nil => rfl
  | cons a path ih =>
    obtain ⟨b, hb⟩ := Option.isSome_iff_exists.mp (hp a List.mem_cons_self).2
    rw [List.foldlM_cons, replayStep_eq_ok (hp a List.mem_cons_self).1 hb, Exec.ok_bind,
      ih fun x hx => hp x (List.mem_cons_of_mem _ hx)]
    rfl

/-- `state_at` replays the bodies above the floor. -/
theorem Rooted.stateAt_eq (r : c.Rooted) (hl : c.Descends h l)
    (hb : ∀ a ∈ l, a ≠ c.floorHash → (c.blocks a).isSome) : c.stateAt h = .ok (c.ownersOn l) := by
  unfold stateAt
  rw [r.ancestors_eq_ok.mpr hl, Exec.ok_bind]
  have hnd := hl.nodup
  have hhead := hl.head?
  cases l with
  | nil => simp at hhead
  | cons a path =>
    simp only [List.head?_cons, Option.some.injEq] at hhead
    subst hhead
    simp only [List.nodup_cons] at hnd
    have hfloor : c.replayStep c.floorUsernameOwner c.floorHash = .ok c.floorUsernameOwner := by simp [replayStep]
    rw [List.foldlM_cons, hfloor, Exec.ok_bind]
    refine foldlM_replayStep (fun x hx => ?_) _
    have hne : x ≠ c.floorHash := fun h => hnd.1 (h ▸ hx)
    exact ⟨hne, hb x (List.mem_cons_of_mem _ hx) hne⟩

end Chain
end SpiritChat
