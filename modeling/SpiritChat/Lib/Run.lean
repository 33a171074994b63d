/-! # Runs of a step function

What permitted steps lead to, and the rules for what they preserve. -/

namespace Lib

/-- The states that permitted actions lead to. -/
inductive Run {S A : Type} (next : S → A → S) (permitted : S → A → Prop) (s : S) : S → Prop
  | refl : Run next permitted s s
  | step {t : S} (h : Run next permitted s t) (a : A) (ha : permitted t a) : Run next permitted s (next t a)

namespace Run
variable {S A : Type} {next : S → A → S} {permitted : S → A → Prop} {s t u : S}

theorem trans (h : Run next permitted s t) (h' : Run next permitted t u) : Run next permitted s u := by
  induction h' with
  | refl => exact h
  | step _ a ha ih => exact .step ih a ha

/-- What each permitted step preserves, a run preserves. -/
theorem invariant (h : Run next permitted s t) (inv : S → Prop) (hs : inv s)
    (hstep : ∀ t a, inv t → permitted t a → inv (next t a)) : inv t := by
  induction h with
  | refl => exact hs
  | step _ a ha ih => exact hstep _ a ih ha

/-- A preorder that each permitted step follows, a run follows. -/
theorem related (h : Run next permitted s t) (inv : S → Prop) (R : S → S → Prop) (hs : inv s)
    (hstep : ∀ t a, inv t → permitted t a → inv (next t a)) (refl : ∀ t, R t t)
    (trans : ∀ t u v, R t u → R u v → R t v) (hR : ∀ t a, inv t → permitted t a → R t (next t a)) : R s t := by
  suffices hboth : inv t ∧ R s t from hboth.2
  induction h with
  | refl => exact ⟨hs, refl s⟩
  | step _ a ha ih => exact ⟨hstep _ a ih.1 ha, trans _ _ _ ih.2 (hR _ a ih.1 ha)⟩

/-- Each of these actions is permitted in the state that the ones before it lead to. -/
def Follows (next : S → A → S) (permitted : S → A → Prop) : S → List A → Prop
  | _, [] => True
  | s, a :: actions => permitted s a ∧ Follows next permitted (next s a) actions

instance decidableFollows [∀ s a, Decidable (permitted s a)] : ∀ (actions : List A) (s : S), Decidable (Follows next permitted s actions)
  | [], _ => .isTrue trivial
  | a :: actions, s =>
    have := decidableFollows actions (next s a)
    inferInstanceAs (Decidable (permitted s a ∧ Follows next permitted (next s a) actions))

theorem follows_append {actions actions' : List A} : Follows next permitted s (actions ++ actions') ↔
    Follows next permitted s actions ∧ Follows next permitted (actions.foldl next s) actions' := by
  induction actions generalizing s with
  | nil => simp [Follows]
  | cons a actions ih => exact (and_congr_right fun _ => ih).trans and_assoc.symm

theorem of_follows {actions : List A} (h : Follows next permitted s actions) :
    Run next permitted s (actions.foldl next s) := by
  induction actions generalizing s with
  | nil => exact .refl
  | cons a actions ih => exact (Run.step .refl a h.1).trans (ih h.2)

theorem follows_of_forall {actions : List A} (h : ∀ s a, permitted s a) : Follows next permitted s actions := by
  induction actions generalizing s with
  | nil => trivial
  | cons a actions ih => exact ⟨h s a, ih⟩

/-- Two conditions on the steps are met by the same runs, if they say the same as long as `inv` holds, and keep it. -/
theorem follows_congr {p q : S → A → Prop} {inv : S → Prop} {actions : List A} (h : Follows next permitted s actions) (hs : inv s)
    (hstep : ∀ t a, inv t → permitted t a → (p t a ↔ q t a) ∧ (q t a → inv (next t a))) :
    Follows next p s actions ↔ Follows next q s actions := by
  induction actions generalizing s with
  | nil => exact Iff.rfl
  | cons a actions ih =>
    obtain ⟨hiff, hkeep⟩ := hstep s a hs h.1
    constructor
    · intro hp
      have hq := hiff.mp hp.1
      exact ⟨hq, (ih h.2 (hkeep hq)).mp hp.2⟩
    · intro hq
      exact ⟨hiff.mpr hq.1, (ih h.2 (hkeep hq.1)).mpr hq.2⟩

end Run
end Lib
