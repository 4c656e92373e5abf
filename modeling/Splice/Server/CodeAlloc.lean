import Mathlib.Data.List.Basic
import Std.Data.ExtTreeMap

/-!
The pairing-code allocator: smallest free code first, a TTL on every code handed
out, and a cooldown before a freed code is used again. Times are milliseconds of a
monotonic clock that never shows a negative value.
-/

namespace Splice.Server

structure AllocConfig where
  initialMax : Nat := 10
  hardMax : Nat := 1000000
  cooldownMs : Nat := 3000

structure CodeAllocator where
  cfg : AllocConfig
  max : Nat
  /-- code ↦ expiry time -/
  active : Std.ExtTreeMap Nat Nat
  /-- code ↦ available-after time -/
  cooldown : Std.ExtTreeMap Nat Nat

namespace CodeAllocator

def new (cfg : AllocConfig) : CodeAllocator :=
  { cfg, max := cfg.initialMax, active := ∅, cooldown := ∅ }

/-- The first loop of `expire`: a stale code leaves `active` and starts its
cooldown. The second loop then drops the cooldowns that are over. -/
def expire (a : CodeAllocator) (now : Nat) : CodeAllocator :=
  let stale := a.active.filter fun _ t => t ≤ now
  let cooling := stale.foldl (fun m c _ => m.insert c (now + a.cfg.cooldownMs)) a.cooldown
  { a with
    active := a.active.filter fun _ t => ¬ t ≤ now
    cooldown := cooling.filter fun _ t => ¬ t ≤ now }

def isFree (a : CodeAllocator) (c : Nat) : Bool :=
  !(a.active.contains c || a.cooldown.contains c)

/-- The smallest code of the pool that is neither active nor cooling down. -/
def firstFree (a : CodeAllocator) : Option Nat :=
  (List.range a.max).find? a.isFree

def grow (a : CodeAllocator) : CodeAllocator :=
  { a with max := if a.max * 10 > a.cfg.hardMax then a.cfg.hardMax else a.max * 10 }

/-- The `for (;;)` of `allocate`. Every turn but the last enlarges a non-empty
pool, so `hardMax + 1` turns are never used up. -/
def search (until_ : Nat) : Nat → CodeAllocator → Option Nat × CodeAllocator
  | 0, a => (none, a)
  | turns + 1, a =>
      match a.firstFree with
      | some c => (some c, { a with active := a.active.insert c until_ })
      | none => if a.max ≥ a.cfg.hardMax then (none, a) else search until_ turns a.grow

def allocate (a : CodeAllocator) (now ttlMs : Nat) : Option Nat × CodeAllocator :=
  search (now + ttlMs) (a.cfg.hardMax + 1) (a.expire now)

def release (a : CodeAllocator) (code : Nat) (now : Nat) : CodeAllocator :=
  { a with
    active := a.active.erase code
    cooldown := a.cooldown.insert code (now + a.cfg.cooldownMs) }

theorem expire_active (a : CodeAllocator) (now : Nat) (c t : Nat) :
    (a.expire now).active[c]? = some t ↔ a.active[c]? = some t ∧ now < t := by
  simp only [expire, Std.ExtTreeMap.getElem?_filter', Option.filter_eq_some_iff]
  simp

theorem firstFree_isFree {a : CodeAllocator} {c : Nat} (h : a.firstFree = some c) :
    a.isFree c = true :=
  List.find?_some h

theorem grow_active (a : CodeAllocator) : a.grow.active = a.active := rfl

/-- A code comes out of the search only if it was not active, and becomes active
with the new expiry; no other active code is touched. -/
theorem search_some {until_ : Nat} {turns : Nat} {a b : CodeAllocator} {c : Nat}
    (h : search until_ turns a = (some c, b)) :
    a.active[c]? = none ∧ b.active = a.active.insert c until_ := by
  induction turns generalizing a with
  | zero => simp [search] at h
  | succ turns ih =>
      simp only [search] at h
      split at h
      · rename_i c' hfree
        obtain ⟨hc, hb⟩ := Prod.mk.inj h
        cases hc
        have free := firstFree_isFree hfree
        simp only [isFree, Bool.not_eq_true', Bool.or_eq_false_iff] at free
        exact ⟨Std.ExtTreeMap.getElem?_eq_none_of_contains_eq_false free.1, by rw [← hb]⟩
      · split at h
        · simp at h
        · simpa only [grow_active] using ih h

theorem search_none {until_ : Nat} {turns : Nat} {a b : CodeAllocator}
    (h : search until_ turns a = (none, b)) : b.active = a.active := by
  induction turns generalizing a with
  | zero =>
      simp only [search, Prod.mk.injEq, true_and] at h
      rw [← h]
  | succ turns ih =>
      simp only [search] at h
      split at h
      · simp at h
      · split at h
        · simp only [Prod.mk.injEq, true_and] at h
          rw [← h]
        · simpa only [grow_active] using ih h

/-- A code that `allocate` hands out was not within its TTL, and codes within
their TTL stay as they are. -/
theorem allocate_some {a b : CodeAllocator} {now ttl : Nat} {c : Nat}
    (h : a.allocate now ttl = (some c, b)) :
    (∀ t, a.active[c]? = some t → t ≤ now) ∧
      ∀ c' t, b.active[c']? = some t ↔
        if c = c' then t = now + ttl else a.active[c']? = some t ∧ now < t := by
  obtain ⟨free, hb⟩ := search_some h
  refine ⟨?_, ?_⟩
  · intro t ht
    by_contra hlt
    have := (expire_active a now c t).mpr ⟨ht, by omega⟩
    simp [free] at this
  · intro c' t
    rw [hb, Std.ExtTreeMap.getElem?_insert]
    by_cases hc : c = c'
    · simp [hc, eq_comm]
    · simp [hc, expire_active]

theorem allocate_none {a b : CodeAllocator} {now ttl : Nat}
    (h : a.allocate now ttl = (none, b)) (c t : Nat) :
    b.active[c]? = some t ↔ a.active[c]? = some t ∧ now < t := by
  rw [search_none h, expire_active]

end CodeAllocator
end Splice.Server
