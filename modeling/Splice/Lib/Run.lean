import Mathlib.Logic.Function.Basic

/-!
Runs of a system given by a partial step function. All nondeterminism sits in the
actions, so a run is fixed by its list of actions and can be evaluated. `Reach`
collects the states of the runs whose every step meets a condition on the state
before it; the condition `fun _ _ => True` gives all runs.
-/

namespace Splice.Lib
universe u v
variable {σ : Type u} {α : Type v}

/-- Follow a list of actions; `none` as soon as one of them fails the check or is not
enabled. -/
def execWhen (step : σ → α → Option σ) (check : σ → α → Bool) : σ → List α → Option σ
  | s, [] => some s
  | s, a :: as =>
      if check s a then (step s a).bind fun s' => execWhen step check s' as else none

/-- The states reached from `s₀` by steps that all meet `ok`. -/
inductive Reach (step : σ → α → Option σ) (ok : σ → α → Prop) (s₀ : σ) : σ → Prop
  | start : Reach step ok s₀ s₀
  | next {s s' : σ} {a : α} (before : Reach step ok s₀ s) (meets : ok s a)
      (stepped : step s a = some s') : Reach step ok s₀ s'

variable {step : σ → α → Option σ} {ok : σ → α → Prop} {s₀ : σ}

/-- What holds at the start and is kept by every step that meets the condition
holds in every state reached. -/
theorem Reach.invariant {P : σ → Prop} (init : P s₀)
    (keep : ∀ s a s', P s → ok s a → step s a = some s' → P s')
    {s : σ} (h : Reach step ok s₀ s) : P s := by
  induction h with
  | start => exact init
  | next _ meets stepped ih => exact keep _ _ _ ih meets stepped

theorem Reach.mono {ok' : σ → α → Prop} (weaker : ∀ s a, ok s a → ok' s a)
    {s : σ} (h : Reach step ok s₀ s) : Reach step ok' s₀ s := by
  induction h with
  | start => exact .start
  | next _ meets stepped ih => exact .next ih (weaker _ _ meets) stepped

/-- A weaker condition, where what holds along the run shows that it is one. -/
theorem Reach.mono_of_invariant {ok' : σ → α → Prop} {P : σ → Prop} (init : P s₀)
    (keep : ∀ s a s', P s → ok' s a → step s a = some s' → P s')
    (weaker : ∀ s a, P s → ok s a → ok' s a) {s : σ} (h : Reach step ok s₀ s) :
    Reach step ok' s₀ s := by
  have both : Reach step ok' s₀ s ∧ P s := by
    induction h with
    | start => exact ⟨.start, init⟩
    | next _ meets stepped ih =>
        have meets' := weaker _ _ ih.2 meets
        exact ⟨.next ih.1 meets' stepped, keep _ _ _ ih.2 meets' stepped⟩
  exact both.1

theorem Reach.of_execWhen {check : σ → α → Bool} (sound : ∀ s a, check s a = true → ok s a)
    {s s' : σ} (as : List α) (before : Reach step ok s₀ s)
    (h : execWhen step check s as = some s') : Reach step ok s₀ s' := by
  induction as generalizing s with
  | nil =>
      cases h
      exact before
  | cons a as ih =>
      simp only [execWhen, Option.ite_none_right_eq_some] at h
      obtain ⟨checked, h⟩ := h
      obtain ⟨s₁, h₁, h₂⟩ := Option.bind_eq_some_iff.mp h
      exact ih (.next before (sound s a checked) h₁) h₂

/-- An evaluated run, known through one observation of its last state. -/
theorem Reach.observedWhen {ω : Type*} (step : σ → α → Option σ) {check : σ → α → Bool}
    (sound : ∀ s a, check s a = true → ok s a) (s₀ : σ) (as : List α) (obs : σ → ω) {o : ω}
    (h : (execWhen step check s₀ as).map obs = some o) :
    ∃ s, Reach step ok s₀ s ∧ obs s = o := by
  obtain ⟨s, hs, ho⟩ := Option.map_eq_some_iff.mp h
  exact ⟨s, Reach.of_execWhen sound as .start hs, ho⟩

/-- No condition: `Reach step anyStep s₀` are the states of all runs. -/
def anyStep (_ : σ) (_ : α) : Prop := True

theorem Reach.observed {ω : Type*} (step : σ → α → Option σ) (s₀ : σ) (as : List α)
    (obs : σ → ω) {o : ω}
    (h : (execWhen step (fun _ _ => true) s₀ as).map obs = some o) :
    ∃ s, Reach step anyStep s₀ s ∧ obs s = o :=
  Reach.observedWhen step (fun _ _ _ => trivial) s₀ as obs h

/-- A fold that may stop keeps what each of its steps keeps. -/
theorem foldlM_invariant {I : σ → Prop} {f : σ → α → Option σ} {l : List α}
    (keep : ∀ s a s', I s → a ∈ l → f s a = some s' → I s') {s s' : σ} (init : I s)
    (h : l.foldlM f s = some s') : I s' := by
  induction l generalizing s with
  | nil =>
      cases h
      exact init
  | cons a l ih =>
      rw [List.foldlM_cons] at h
      obtain ⟨s₁, h₁, h₂⟩ := Option.bind_eq_some_iff.mp h
      refine ih (fun s b s' hs hb => keep s b s' hs (List.mem_cons_of_mem a hb)) ?_ h₂
      exact keep s a s₁ init List.mem_cons_self h₁

theorem foldl_invariant {I : σ → Prop} {f : σ → α → σ} {l : List α}
    (keep : ∀ s a, I s → a ∈ l → I (f s a)) {s : σ} (init : I s) : I (l.foldl f s) := by
  induction l generalizing s with
  | nil => exact init
  | cons a l ih =>
      rw [List.foldl_cons]
      refine ih (fun s b hs hb => keep s b hs (List.mem_cons_of_mem a hb)) ?_
      exact keep s a init List.mem_cons_self

end Splice.Lib
