import Mathlib.Algebra.GroupWithZero.Nat
import Mathlib.Logic.Function.Basic

/-! # Programs that share a state

A program asks its surroundings for one operation at a time. It can be run alone, or several threads can be run
together, each operation of one of them at a time. The rules for runs together are about what a program may ask
for: each thread has a note of what it has done so far, and its operations have to fit the note. -/

namespace Lib

/-- The operations of a program and what each of them gives back. -/
structure Signature where
  Op : Type
  Res : Op → Type

/-- A program over the operations of `S` that ends with an `α`. -/
inductive Prog (S : Signature) (α : Type) : Type
  | pure (a : α)
  | op (o : S.Op) (k : S.Res o → Prog S α)

namespace Prog
variable {S : Signature} {α β : Type}

def bind : Prog S α → (α → Prog S β) → Prog S β
  | .pure a, f => f a
  | .op o k, f => .op o fun r => (k r).bind f

instance : Monad (Prog S) where
  pure := .pure
  bind := bind

theorem bind_of_pure (a : α) (f : α → Prog S β) : (Pure.pure a >>= f) = f a := rfl

theorem bind_assoc {γ : Type} (p : Prog S α) (f : α → Prog S β) (g : β → Prog S γ) :
    (p >>= f) >>= g = p >>= fun a => f a >>= g := by
  induction p with
  | pure a => rfl
  | op o k ih => exact congrArg (Prog.op o) (funext ih)

/-- The program that asks for one operation. -/
def ask (o : S.Op) : Prog S (S.Res o) := .op o .pure

/-! ### Alone -/

section
variable {State Env : Type} (exec : (o : S.Op) → Env → State → S.Res o × State)

/-- Runs a program to its end. The surroundings give each operation something of their own: random bytes, or
whether it succeeds. -/
def run : Prog S α → (ℕ → Env) → State → α × State
  | .pure a, _, s => (a, s)
  | .op o k, env, s => (k (exec o (env 0) s).1).run (fun i => env (i + 1)) (exec o (env 0) s).2

variable {env : ℕ → Env} {s : State}

theorem run_ask_bind (o : S.Op) (f : S.Res o → Prog S α) : (ask o >>= f).run exec env s =
    (f (exec o (env 0) s).1).run exec (fun i => env (i + 1)) (exec o (env 0) s).2 := rfl

end

/-! ### What a program may ask for -/

section
variable {Note : Type} (allowed : Note → S.Op → Prop) (next : (o : S.Op) → S.Res o → Note → Note)

/-- Whatever it is answered, the program asks only for what its note allows, and it ends with `post`. -/
def Keeps : Prog S α → (α → Note → Prop) → Note → Prop
  | .pure a, post, n => post a n
  | .op o k, post, n => allowed n o ∧ ∀ r, (k r).Keeps post (next o r n)

variable {allowed next} {p : Prog S α} {f : α → Prog S β} {post post' : α → Note → Prop} {n : Note}

theorem Keeps.imp (h : p.Keeps allowed next post n) (hp : ∀ a m, post a m → post' a m) :
    p.Keeps allowed next post' n := by
  induction p generalizing n with
  | pure a => exact hp a n h
  | op o k ih => exact ⟨h.1, fun r => ih r (h.2 r)⟩

theorem keeps_bind {q : β → Note → Prop} :
    (p >>= f).Keeps allowed next q n ↔ p.Keeps allowed next (fun a => (f a).Keeps allowed next q) n := by
  induction p generalizing n with
  | pure a => rfl
  | op o k ih => exact and_congr_right fun _ => forall_congr' fun r => ih r

@[simp] theorem keeps_pure {a : α} : (pure a : Prog S α).Keeps allowed next post n ↔ post a n := Iff.rfl

@[simp] theorem keeps_ask {o : S.Op} {q : S.Res o → Note → Prop} :
    (ask o).Keeps allowed next q n ↔ allowed n o ∧ ∀ r, q r (next o r n) := Iff.rfl

end

/-! ### Programs that stay within some operations -/

section
variable (P : S.Op → Prop)

/-- Whatever it is answered, the program asks only for operations in `P`. -/
def Only : Prog S α → Prop
  | .pure _ => True
  | .op o k => P o ∧ ∀ r, (k r).Only

variable {P} {p : Prog S α} {f : α → Prog S β}

theorem only_pure (a : α) : (pure a : Prog S α).Only P := trivial

theorem only_ask {o : S.Op} (h : P o) : (ask o).Only P := ⟨h, fun _ => trivial⟩

theorem Only.bind (h : p.Only P) (hf : ∀ a, (f a).Only P) : (p >>= f).Only P := by
  induction p with
  | pure a => exact hf a
  | op o k ih => exact ⟨h.1, fun r => ih r (h.2 r)⟩

theorem Only.mono {Q : S.Op → Prop} (h : p.Only P) (hQ : ∀ o, P o → Q o) : p.Only Q := by
  induction p with
  | pure a => trivial
  | op o k ih => exact ⟨hQ o h.1, fun r => ih r (h.2 r)⟩

/-- Staying within some operations is to keep to a protocol that takes no notes. -/
theorem only_iff_keeps : p.Only P ↔ p.Keeps (fun (_ : Unit) o => P o) (fun _ _ n => n) (fun _ _ => True) () := by
  induction p with
  | pure a => rfl
  | op o k ih => exact and_congr_right fun _ => forall_congr' fun r => ih r

theorem Only.ite {c : Prop} [Decidable c] {p q : Prog S α} (hp : p.Only P) (hq : q.Only P) :
    (if c then p else q).Only P := by
  split
  · exact hp
  · exact hq

variable {Note : Type} {allowed : Note → S.Op → Prop} {next : (o : S.Op) → S.Res o → Note → Note} {n : Note}

/-- Operations that are allowed under every note of `inv` and lead to such notes keep a program in order. -/
theorem Only.keeps {inv : Note → Prop} (h : p.Only P) (hn : inv n)
    (hP : ∀ o m, P o → inv m → allowed m o ∧ ∀ r, inv (next o r m)) :
    p.Keeps allowed next (fun _ m => inv m) n := by
  induction p generalizing n with
  | pure a => exact hn
  | op o k ih => exact ⟨(hP o n h.1 hn).1, fun r => ih r (h.2 r) ((hP o n h.1 hn).2 r)⟩

/-- What the operations in `P` preserve, a program that stays within them preserves. -/
theorem Only.run {State Env : Type} {exec : (o : S.Op) → Env → State → S.Res o × State} (h : p.Only P) (inv : State → Prop)
    (hP : ∀ o env s, P o → inv s → inv (exec o env s).2) (env : ℕ → Env) {s : State} (hs : inv s) :
    inv (p.run exec env s).2 := by
  induction p generalizing env s with
  | pure a => exact hs
  | op o k ih => exact ih _ (h.2 _) _ (hP o (env 0) s h.1 hs)

end
end Prog

/-! ### Together -/

/-- Threads over one state. `threads` is what each of them still has to do, `returned` what their finished
programs gave back, and `note` is what a thread has done so far, kept for the proofs. -/
structure Machine (S : Signature) (T State Note ρ : Type) where
  state : State
  threads : T → Option (Prog S ρ)
  note : T → Note
  returned : List ρ

namespace Machine
variable {S : Signature} {T State Env Note ρ : Type}

/-- A scheduler's choice. -/
inductive Act (S : Signature) (T Env ρ : Type)
  /-- an idle thread begins a program -/
  | call (t : T) (p : Prog S ρ)
  /-- a thread performs its next operation -/
  | step (t : T) (env : Env)
  /-- a thread's program ends -/
  | finish (t : T)

/-- A machine with no program under way. -/
def idle (n : Note) (s : State) : Machine S T State Note ρ := ⟨s, fun _ => none, fun _ => n, []⟩

variable [DecidableEq T]
variable (exec : (o : S.Op) → Env → State → S.Res o × State) (next : (o : S.Op) → S.Res o → Note → Note)
  (rest : Note → Note)

def act (m : Machine S T State Note ρ) : Act S T Env ρ → Machine S T State Note ρ
  | .call t p =>
    match m.threads t with
    | none => { m with threads := Function.update m.threads t (some p) }
    | some _ => m
  | .step t env =>
    match m.threads t with
    | some (.op o k) =>
      { m with
        state := (exec o env m.state).2
        threads := Function.update m.threads t (some (k (exec o env m.state).1))
        note := Function.update m.note t (next o (exec o env m.state).1 (m.note t)) }
    | _ => m
  | .finish t =>
    match m.threads t with
    | some (.pure r) =>
      { m with
        threads := Function.update m.threads t none
        note := Function.update m.note t (rest (m.note t))
        returned := m.returned ++ [r] }
    | _ => m

/-- A state that some run of permitted choices reaches. -/
inductive Reaches (permitted : Machine S T State Note ρ → Act S T Env ρ → Prop) :
    Machine S T State Note ρ → Machine S T State Note ρ → Prop
  | refl (m) : Reaches permitted m m
  | act {m m'} (h : Reaches permitted m m') (a : Act S T Env ρ) (ha : permitted m' a) :
      Reaches permitted m (m'.act exec next rest a)

/-- Each choice of the list is permitted when its turn comes. -/
def Follows (permitted : Machine S T State Note ρ → Act S T Env ρ → Prop) :
    Machine S T State Note ρ → List (Act S T Env ρ) → Prop
  | _, [] => True
  | m, a :: as => permitted m a ∧ Follows permitted (m.act exec next rest a) as

instance decidableFollows {permitted : Machine S T State Note ρ → Act S T Env ρ → Prop}
    [∀ m a, Decidable (permitted m a)] :
    ∀ (m : Machine S T State Note ρ) as, Decidable (Follows exec next rest permitted m as)
  | _, [] => .isTrue trivial
  | m, a :: as => @instDecidableAnd _ _ _ (decidableFollows (m.act exec next rest a) as)

variable (allowed : Note → S.Op → Prop) (ready : Note → Prop) (post : ρ → Note → Prop)

/-- Every program under way keeps to what its note allows, and an idle thread is ready for another. -/
def Orderly (m : Machine S T State Note ρ) : Prop :=
  ∀ t, (m.threads t).elim (ready (m.note t)) fun p => p.Keeps allowed next post (m.note t)

variable {exec next rest allowed ready post} {permitted : Machine S T State Note ρ → Act S T Env ρ → Prop}
  {m m' : Machine S T State Note ρ} {t : T}

theorem follows_of_forall {as : List (Act S T Env ρ)} (h : ∀ a ∈ as, ∀ m, permitted m a) :
    Follows exec next rest permitted m as := by
  induction as generalizing m with
  | nil => trivial
  | cons a as ih => exact ⟨h a List.mem_cons_self m, ih fun b hb => h b (List.mem_cons_of_mem _ hb)⟩

theorem Follows.and {always : Act S T Env ρ → Prop} {as : List (Act S T Env ρ)}
    (h : Follows exec next rest permitted m as) (ha : ∀ a ∈ as, always a) :
    Follows exec next rest (fun m a => always a ∧ permitted m a) m as := by
  induction as generalizing m with
  | nil => trivial
  | cons a as ih =>
    exact ⟨⟨ha a List.mem_cons_self, h.1⟩, ih h.2 fun b hb => ha b (List.mem_cons_of_mem _ hb)⟩

theorem Reaches.foldl {as : List (Act S T Env ρ)} (h : Reaches exec next rest permitted m m')
    (hf : Follows exec next rest permitted m' as) :
    Reaches exec next rest permitted m (as.foldl (Machine.act exec next rest) m') := by
  induction as generalizing m' with
  | nil => exact h
  | cons a as ih => exact ih (h.act a hf.1) hf.2

/-- What an update of one note leaves as it was in that note, it leaves in all of them. -/
theorem proj_update {β : Type} (note : T → Note) (t : T) {n : Note} (f : Note → β) (h : f n = f (note t)) (t' : T) :
    f (Function.update note t n t') = f (note t') := by
  rcases eq_or_ne t' t with rfl | hne
  · rw [Function.update_self, h]
  · rw [Function.update_of_ne hne]

omit [DecidableEq T] in
theorem Orderly.ready_of_idle (h : m.Orderly next allowed ready post) (ht : m.threads t = none) : ready (m.note t) := by
  have := h t
  rwa [ht] at this

omit [DecidableEq T] in
theorem Orderly.keeps_of_some (h : m.Orderly next allowed ready post) {p : Prog S ρ} (ht : m.threads t = some p) :
    p.Keeps allowed next post (m.note t) := by
  have := h t
  rwa [ht] at this

omit [DecidableEq T] in
theorem orderly_idle {n : Note} {s : State} (hn : ready n) :
    (idle n s : Machine S T State Note ρ).Orderly next allowed ready post := fun _ => hn

theorem Orderly.act (h : m.Orderly next allowed ready post) {a : Act S T Env ρ}
    (hcall : ∀ t p n, a = .call t p → ready n → p.Keeps allowed next post n) (hrest : ∀ r n, post r n → ready (rest n)) :
    (m.act exec next rest a).Orderly next allowed ready post := by
  intro t
  cases a with
  | call t' p =>
    simp only [Machine.act]
    rcases ht : m.threads t' with _ | q
    · by_cases htt : t = t'
      · subst htt
        simp only [Function.update_self, Option.elim_some]
        exact hcall _ _ _ rfl (h.ready_of_idle ht)
      · simp only [Function.update_of_ne htt]
        exact h t
    · exact h t
  | step t' env =>
    simp only [Machine.act]
    rcases ht : m.threads t' with _ | (r | ⟨o, k⟩)
    · exact h t
    · exact h t
    · by_cases htt : t = t'
      · subst htt
        simp only [Function.update_self, Option.elim_some]
        exact (h.keeps_of_some ht).2 _
      · simp only [Function.update_of_ne htt]
        exact h t
  | finish t' =>
    simp only [Machine.act]
    rcases ht : m.threads t' with _ | (r | ⟨o, k⟩)
    · exact h t
    · by_cases htt : t = t'
      · subst htt
        simp only [Function.update_self, Option.elim_none]
        exact hrest r _ (h.keeps_of_some ht)
      · simp only [Function.update_of_ne htt]
        exact h t
    · exact h t

/-- The rule for runs. An invariant of the state, the notes and the results holds throughout if allowed operations
and finished programs keep it. -/
theorem Reaches.induct (h : Reaches exec next rest permitted m m') (inv : State → (T → Note) → List ρ → Prop)
    (hm : m.Orderly next allowed ready post) (hi : inv m.state m.note m.returned)
    (hcall : ∀ (m : Machine S T State Note ρ) t p n, permitted m (.call t p) → ready n → p.Keeps allowed next post n)
    (hrest : ∀ r n, post r n → ready (rest n))
    (hstep : ∀ (m : Machine S T State Note ρ) t o k env, permitted m (.step t env) → m.threads t = some (.op o k) →
      allowed (m.note t) o → inv m.state m.note m.returned →
      inv (exec o env m.state).2 (Function.update m.note t (next o (exec o env m.state).1 (m.note t))) m.returned)
    (hfinish : ∀ (m : Machine S T State Note ρ) t r, post r (m.note t) → inv m.state m.note m.returned →
      inv m.state (Function.update m.note t (rest (m.note t))) (m.returned ++ [r])) :
    m'.Orderly next allowed ready post ∧ inv m'.state m'.note m'.returned := by
  induction h with
  | refl => exact ⟨hm, hi⟩
  | @act m' h a ha ih =>
    obtain ⟨ho, hi'⟩ := ih
    refine ⟨ho.act (fun t p n hp hn => hcall m' t p n (hp ▸ ha) hn) hrest, ?_⟩
    cases a with
    | call t p =>
      simp only [Machine.act]
      rcases m'.threads t with _ | q
      · exact hi'
      · exact hi'
    | step t env =>
      simp only [Machine.act]
      rcases ht : m'.threads t with _ | (r | ⟨o, k⟩)
      · exact hi'
      · exact hi'
      · exact hstep m' t o k env ha ht (ho.keeps_of_some ht).1 hi'
    | finish t =>
      simp only [Machine.act]
      rcases ht : m'.threads t with _ | (r | ⟨o, k⟩)
      · exact hi'
      · exact hfinish m' t r (ho.keeps_of_some ht) hi'
      · exact hi'

end Machine
end Lib
