import Mathlib.Algebra.Order.Field.Rat
import Mathlib.Data.List.Basic
import Mathlib.Tactic.Linarith
import Mathlib.Tactic.Positivity

/-!
Calls that are allowed or refused out of a budget that fills up over time. What is allowed
in a window is bounded by what the budget can hold and what the window adds to it.
-/

namespace Splice.Lib
variable {σ α : Type*}

/-- Every call with the answer it gets. -/
def answers (step : σ → α → Bool × σ) : σ → List α → List (α × Bool)
  | _, [] => []
  | s, a :: as => (a, (step s a).1) :: answers step (step s a).2 as

/-- A level that an allowed call lowers by one, that grows by at most `rate` a unit of time and
that stays between nothing and `cap`. -/
structure Budget (step : σ → α → Bool × σ) (time : α → Int) (counted : α → Bool)
    (level : σ → Int → ℚ) (rate cap : ℚ) (valid : σ → Prop) : Prop where
  rate_nonneg : 0 ≤ rate
  kept : ∀ s a, valid s → valid (step s a).2
  nonneg : ∀ s t, valid s → 0 ≤ level s t
  le_cap : ∀ s t, valid s → level s t ≤ cap
  fill : ∀ s t t', valid s → t ≤ t' → level s t' ≤ level s t + rate * (t' - t : Int)
  spend : ∀ s a, valid s → level (step s a).2 (time a) +
    (if (step s a).1 && counted a then 1 else 0) ≤ level s (time a)

namespace Budget
variable {step : σ → α → Bool × σ} {time : α → Int} {counted : α → Bool}
  {level : σ → Int → ℚ} {rate cap : ℚ} {valid : σ → Prop}

theorem rate_mul_nonneg (b : Budget step time counted level rate cap valid) {lo hi : Int}
    (h : lo ≤ hi) : 0 ≤ rate * (hi - lo : Int) :=
  mul_nonneg b.rate_nonneg (by exact_mod_cast Int.sub_nonneg.mpr h)

/-- The allowed calls among the counted ones, between two times. -/
def allowedIn (step : σ → α → Bool × σ) (time : α → Int) (counted : α → Bool) (s : σ)
    (as : List α) (lo hi : Int) : Nat :=
  (answers step s as).countP fun p => p.2 && counted p.1 && decide (lo ≤ time p.1 ∧ time p.1 ≤ hi)

theorem allowedIn_cons (s : σ) (a : α) (as : List α) (lo hi : Int) :
    allowedIn step time counted s (a :: as) lo hi =
      allowedIn step time counted (step s a).2 as lo hi +
        if (step s a).1 && counted a && decide (lo ≤ time a ∧ time a ≤ hi) then 1 else 0 := by
  simp only [allowedIn, answers, List.countP_cons]

theorem allowedIn_none {s : σ} {as : List α} {lo hi : Int} (past : ∀ a ∈ as, ¬ time a ≤ hi) :
    allowedIn step time counted s as lo hi = 0 := by
  induction as generalizing s with
  | nil => rfl
  | cons a as ih =>
      obtain ⟨late, past⟩ := List.forall_mem_cons.mp past
      rw [allowedIn_cons, ih past, if_neg (by simp [late])]

/-- From a time on at which no call is past, what is allowed fits into the level then and what
comes in until the end. -/
theorem allowedIn_le (b : Budget step time counted level rate cap valid) {as : List α} {s : σ}
    {t hi : Int} (lo : Int) (ok : valid s) (sorted : as.Pairwise fun a a' => time a ≤ time a')
    (later : ∀ a ∈ as, t ≤ time a) (within : t ≤ hi) :
    (allowedIn step time counted s as lo hi : ℚ) ≤ level s t + rate * (hi - t : Int) := by
  induction as generalizing s t with
  | nil =>
      have full := b.nonneg s t ok
      have more := b.rate_mul_nonneg within
      simp only [allowedIn, answers, List.countP_nil, Nat.cast_zero]
      linarith
  | cons a as ih =>
      obtain ⟨least, sorted⟩ := List.pairwise_cons.mp sorted
      have next := later a (List.mem_cons_self ..)
      have fill := b.fill s t (time a) ok next
      have spend := b.spend s a ok
      rw [allowedIn_cons]
      by_cases before : time a ≤ hi
      · have rest := ih (b.kept s a ok) sorted least before
        have one : ((if (step s a).1 && counted a && decide (lo ≤ time a ∧ time a ≤ hi)
            then 1 else 0 : ℕ) : ℚ) ≤ if (step s a).1 && counted a then 1 else 0 := by
          cases (step s a).1 <;> cases counted a <;> simp
          split <;> simp
        push_cast at fill rest one ⊢
        linarith
      · have past : ∀ a' ∈ as, ¬ time a' ≤ hi := fun a' ha' hle =>
          before ((least a' ha').trans hle)
        have full := b.nonneg s t ok
        have more := b.rate_mul_nonneg within
        rw [allowedIn_none past, if_neg (by simp [before]), Nat.cast_zero]
        linarith

/-- In a window, at most what the budget can hold and what the window adds. -/
theorem window_le (b : Budget step time counted level rate cap valid) {as : List α} {s : σ}
    {lo hi : Int} (ok : valid s) (sorted : as.Pairwise fun a a' => time a ≤ time a')
    (window : lo ≤ hi) :
    (allowedIn step time counted s as lo hi : ℚ) ≤ cap + rate * (hi - lo : Int) := by
  induction as generalizing s with
  | nil =>
      have level := (b.nonneg s lo ok).trans (b.le_cap s lo ok)
      have more := b.rate_mul_nonneg window
      simp only [allowedIn, answers, List.countP_nil, Nat.cast_zero]
      linarith
  | cons a as ih =>
      obtain ⟨least, rest⟩ := List.pairwise_cons.mp sorted
      by_cases early : time a < lo
      · rw [allowedIn_cons, if_neg (by simp [early]), Nat.add_zero]
        exact ih (b.kept s a ok) rest
      · have cap := b.le_cap s lo ok
        have bound := b.allowedIn_le lo ok sorted
          (fun a' ha' => by
            rcases List.mem_cons.mp ha' with rfl | ha'
            · exact Int.not_lt.mp early
            · exact (Int.not_lt.mp early).trans (least a' ha')) window
        linarith

end Budget
end Splice.Lib
