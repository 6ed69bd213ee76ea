/-
AgentBlock/Lib/Steps.lean

Runs of a machine whose every step is a function of its state and of what
happens (`α`), and the rule that an invariant of one step is one of the run.
-/

namespace Steps

universe u v

variable {σ : Type u} {α : Type v}

/-- `Run step φ s₀ s`: the machine got from `s₀` to `s` by steps that were each
a `φ` of the state they were taken in. -/
inductive Run (step : σ → α → Option σ) (φ : σ → α → Prop) (s₀ : σ) : σ → Prop
  | init : Run step φ s₀ s₀
  | step {s s' : σ} {a : α} :
      Run step φ s₀ s → φ s a → step s a = some s' → Run step φ s₀ s'

variable {step : σ → α → Option σ} {φ : σ → α → Prop} {s₀ s : σ}

theorem Run.inv {I : σ → Prop} (hinit : I s₀)
    (hstep : ∀ s a s', I s → φ s a → step s a = some s' → I s')
    (h : Run step φ s₀ s) : I s := by
  induction h with
  | init => exact hinit
  | step _ hφ hs ih => exact hstep _ _ _ ih hφ hs

theorem Run.mono {ψ : σ → α → Prop} (himp : ∀ s a, φ s a → ψ s a) (h : Run step φ s₀ s) :
    Run step ψ s₀ s := by
  induction h with
  | init => exact .init
  | step _ hφ hs ih => exact ih.step (himp _ _ hφ) hs

/-- The state after the steps of a list, each of which can be taken. -/
def after (step : σ → α → Option σ) : σ → List α → Option σ
  | s, [] => some s
  | s, a :: as => (step s a).bind fun s' => after step s' as

theorem after_append {as bs : List α} :
    after step s (as ++ bs) = (after step s as).bind fun s' => after step s' bs := by
  induction as generalizing s with
  | nil => rfl
  | cons a as ih =>
      show (step s a).bind _ = ((step s a).bind _).bind _
      rw [Option.bind_assoc]
      exact congrArg _ (funext fun s' => ih)

/-- The steps of a list are a `φ` of the states they are taken in. -/
def Taken (step : σ → α → Option σ) (φ : σ → α → Prop) : σ → List α → Prop
  | _, [] => True
  | s, a :: as => φ s a ∧ match step s a with
      | some s' => Taken step φ s' as
      | none => False

theorem Taken.mono {ψ : σ → α → Prop} (himp : ∀ s a, φ s a → ψ s a) {as : List α}
    (h : Taken step φ s as) : Taken step ψ s as := by
  induction as generalizing s with
  | nil => trivial
  | cons a as ih =>
      obtain ⟨hφ, htail⟩ := h
      refine ⟨himp s a hφ, ?_⟩
      cases hs : step s a with
      | none => simp [hs] at htail
      | some s' =>
          rw [hs] at htail
          exact ih htail

theorem Run.follow {s₁ : σ} {as : List α} (h : Run step φ s₀ s₁) (ht : Taken step φ s₁ as)
    (hs : after step s₁ as = some s) : Run step φ s₀ s := by
  induction as generalizing s₁ with
  | nil =>
      obtain rfl := Option.some.inj hs
      exact h
  | cons a as ih =>
      obtain ⟨s', hstep, hrest⟩ := Option.bind_eq_some_iff.mp hs
      obtain ⟨hφ, htail⟩ := ht
      rw [hstep] at htail
      exact ih (h.step hφ hstep) htail hrest

theorem Run.each {s₁ : σ} {as : List α} (h : Run step φ s₀ s₁) (hφ : ∀ a ∈ as, ∀ s, φ s a)
    (hs : after step s₁ as = some s) : Run step φ s₀ s := by
  induction as generalizing s₁ with
  | nil =>
      obtain rfl := Option.some.inj hs
      exact h
  | cons a as ih =>
      obtain ⟨s', hstep, hrest⟩ := Option.bind_eq_some_iff.mp hs
      exact ih (h.step (hφ a List.mem_cons_self s₁) hstep)
        (fun b hb => hφ b (List.mem_cons_of_mem a hb)) hrest

end Steps
