import Mathlib.Data.List.DropRight
import Mathlib.Data.List.Induction

/-!
A memory of the last `k` things, oldest first. A system that adds what a step handles to
such a memory, and handles nothing that is in it, can still handle a thing twice: exactly
when it comes again after `k` others.
-/

namespace Splice.Lib
universe u v w
variable {α : Type u} {σ : Type v} {ε : Type w}

/-- Add to a memory of `k`, the oldest goes when it is full. -/
def keepLast (k : Nat) (v : List α) (x : α) : List α :=
  (if k ≤ v.length then v.drop 1 else v) ++ [x]

theorem keepLast_rtake {k : Nat} (hk : 0 < k) (l : List α) (x : α) :
    keepLast k (l.rtake k) x = (l ++ [x]).rtake k := by
  obtain ⟨n, rfl⟩ := Nat.exists_eq_succ_of_ne_zero hk.ne'
  rw [List.rtake_concat_succ, keepLast]
  congr 1
  simp only [List.rtake, List.length_drop, List.drop_drop]
  split
  · congr 1
    omega
  · congr 1
    omega

/-- What the steps of a run handle, in order. -/
def collect (step : σ → ε → σ) (f : σ → ε → Option α) (s : σ) : List ε → List α
  | [] => []
  | e :: es => (f s e).toList ++ collect step f (step s e) es

variable {step : σ → ε → σ} {f : σ → ε → Option α} {seen : σ → List α} {k : Nat}

theorem collect_concat (s : σ) (es : List ε) (e : ε) :
    collect step f s (es ++ [e]) = collect step f s es ++ (f (es.foldl step s) e).toList := by
  induction es generalizing s with
  | nil => simp [collect]
  | cons e' es ih => simp only [List.cons_append, collect, ih, List.foldl_cons, List.append_assoc]

theorem mem_collect_imp {g : σ → ε → Option α} (h : ∀ s e x, f s e = some x → g s e = some x)
    {s : σ} {es : List ε} {x : α} (hx : x ∈ collect step f s es) : x ∈ collect step g s es := by
  induction es generalizing s with
  | nil => cases hx
  | cons e es ih =>
      rcases List.mem_append.mp hx with hx | hx
      · exact List.mem_append_left _ (Option.mem_toList.mpr (h s e x (Option.mem_toList.mp hx)))
      · exact List.mem_append_right _ (ih hx)

/-- The memory is the end of what was handled. -/
theorem seen_eq_rtake (hk : 0 < k) {s : σ} (empty : seen s = [])
    (adds : ∀ s e, seen (step s e) = (f s e).elim (seen s) (keepLast k (seen s))) (es : List ε) :
    seen (es.foldl step s) = (collect step f s es).rtake k := by
  induction es using List.reverseRecOn with
  | nil => simp [empty, collect]
  | append_singleton es e ih =>
      rw [List.foldl_append, List.foldl_cons, List.foldl_nil, adds, collect_concat]
      cases f (es.foldl step s) e with
      | none => simpa using ih
      | some x =>
          rw [Option.elim_some, ih, keepLast_rtake hk]
          rfl

/-- Nothing is handled twice in a run where whatever comes again is among the last `k`. -/
theorem collect_nodup (hk : 0 < k) {s : σ} (empty : seen s = [])
    (adds : ∀ s e, seen (step s e) = (f s e).elim (seen s) (keepLast k (seen s)))
    (fresh : ∀ s e x, f s e = some x → x ∉ seen s) {es : List ε}
    (recent : ∀ pre e post, es = pre ++ e :: post → ∀ x, f (pre.foldl step s) e = some x →
      x ∈ collect step f s pre → x ∈ (collect step f s pre).rtake k) :
    (collect step f s es).Nodup := by
  induction es using List.reverseRecOn with
  | nil => exact List.nodup_nil
  | append_singleton es e ih =>
      have hbefore := ih fun pre e' post hes => recent pre e' (post ++ [e]) (by simp [hes])
      rw [collect_concat]
      cases hf : f (es.foldl step s) e with
      | none => simpa using hbefore
      | some x =>
          rw [Option.toList_some, List.nodup_append]
          refine ⟨hbefore, by simp, fun a ha b hb heq => ?_⟩
          rw [List.mem_singleton.mp hb] at heq
          rw [heq] at ha
          have hin := recent es e [] rfl x hf ha
          rw [← seen_eq_rtake hk empty adds] at hin
          exact fresh _ e x hf hin

end Splice.Lib
