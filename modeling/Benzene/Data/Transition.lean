import Mathlib.Data.List.Basic

namespace Benzene.Data.Transition

-- A system that takes one action at a time. An action that is not enabled has
-- no successor.
variable {σ α : Type} (step : σ → α → Option σ)

-- The states that runs from `s` lead to, where `allowed` says which actions a
-- state may take.
inductive Reaches (allowed : σ → α → Prop) (s : σ) : σ → Prop
  | refl : Reaches allowed s s
  | next {t u : σ} {a : α} (run : Reaches allowed s t) (ok : allowed t a) (taken : step t a = some u) :
      Reaches allowed s u

namespace Reaches

variable {step} {allowed other : σ → α → Prop}

theorem trans {s t u : σ} (h : Reaches step allowed s t) (k : Reaches step allowed t u) :
    Reaches step allowed s u := by
  induction k with
  | refl => exact h
  | next _ ok taken ih => exact next ih ok taken

theorem mono {s t : σ} (h : Reaches step allowed s t) (hsub : ∀ s a, allowed s a → other s a) :
    Reaches step other s t := by
  induction h with
  | refl => exact refl
  | next _ ok taken ih => exact next ih (hsub _ _ ok) taken

-- What holds at the start and is kept by each allowed step holds in every
-- state reached.
theorem invariant {Inv : σ → Prop} {s t : σ} (h : Reaches step allowed s t) (hstart : Inv s)
    (hstep : ∀ s a t, Inv s → allowed s a → step s a = some t → Inv t) : Inv t := by
  induction h with
  | refl => exact hstart
  | next _ ok taken ih => exact hstep _ _ _ ih ok taken

end Reaches

-- The state a list of actions leads to.
def run : σ → List α → Option σ
  | s, [] => some s
  | s, a :: rest => (step s a).bind fun t => run t rest

-- A measure that each action of one kind lowers, and each action of another
-- raises by at most `n`, bounds how many of the first kind a run takes.
theorem run_count_le {step : σ → α → Option σ} (work : σ → Nat) (lowers raises : α → Bool) (n : Nat)
    (allowed : α → Prop)
    (hstep : ∀ s a t, allowed a → step s a = some t →
      work t + (if lowers a then 1 else 0) ≤ work s + if raises a then n else 0)
    {actions : List α} {s t : σ} (hallowed : ∀ a ∈ actions, allowed a) (h : run step s actions = some t) :
    work t + actions.countP lowers ≤ work s + n * actions.countP raises := by
  induction actions generalizing s with
  | nil =>
      cases h
      simp
  | cons a rest ih =>
      obtain ⟨next, htaken, hrest⟩ := Option.bind_eq_some_iff.mp h
      have hone := hstep s a next (hallowed a List.mem_cons_self) htaken
      have hmore := ih (fun b hb => hallowed b (List.mem_cons_of_mem _ hb)) hrest
      rw [List.countP_cons, List.countP_cons]
      cases hlowers : lowers a <;> cases hraises : raises a <;>
        simp only [hlowers, hraises, if_true, if_false, Bool.false_eq_true, Nat.mul_add, Nat.mul_one,
          Nat.add_zero] at hone hmore ⊢ <;> omega

end Benzene.Data.Transition
