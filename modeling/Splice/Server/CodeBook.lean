import Splice.Lib.Run
import Splice.Server.CodeAlloc

/-!
The allocator next to a book of everything it handed out: for each code its leases, the latest
first. A code can be had again once all its leases are over and their cooldowns too, and
`allocate` returns the smallest of these.
-/

namespace Splice.Server
open Lib

/-! ## One allocation -/

namespace CodeAllocator

/-- The `for (;;)` of `allocate`, left by one of its two returns. -/
inductive Loop (until_ : Nat) : CodeAllocator → Option Nat × CodeAllocator → Prop
  | found {a : CodeAllocator} {c : Nat} (free : a.firstFree = some c) :
      Loop until_ a (some c, { a with active := a.active.insert c until_ })
  | full {a : CodeAllocator} (none_free : a.firstFree = none) (past : a.max ≥ a.cfg.hardMax) :
      Loop until_ a (none, a)
  | grown {a : CodeAllocator} {r : Option Nat × CodeAllocator} (none_free : a.firstFree = none)
      (below : ¬ a.max ≥ a.cfg.hardMax) (rest : Loop until_ a.grow r) : Loop until_ a r

structure Sized (a : CodeAllocator) : Prop where
  pos : 1 ≤ a.max
  le : a.max ≤ a.cfg.hardMax

theorem Sized.grow {a : CodeAllocator} (h : a.Sized) : a.grow.Sized := by
  obtain ⟨pos, le⟩ := h
  constructor <;> simp only [CodeAllocator.grow] <;> split <;> omega

theorem firstFree_some {a : CodeAllocator} {c : Nat} :
    a.firstFree = some c ↔ a.isFree c ∧ c < a.max ∧ ∀ c' < c, ¬ a.isFree c' := by
  simp [firstFree, List.find?_range_eq_some]

theorem firstFree_none {a : CodeAllocator} :
    a.firstFree = none ↔ ∀ c < a.max, ¬ a.isFree c := by
  simp [firstFree]

/-- The turns of `search` are enough for the loop to end. -/
theorem loop_search (until_ : Nat) {turns : Nat} {a : CodeAllocator} (h : a.Sized)
    (enough : a.cfg.hardMax < turns + a.max) : Loop until_ a (search until_ turns a) := by
  induction turns generalizing a with
  | zero =>
      have := h.le
      omega
  | succ turns ih =>
      simp only [search]
      split
      · rename_i c free
        exact .found free
      · rename_i none_free
        split
        · exact .full none_free ‹_›
        · rename_i below
          refine .grown none_free below (ih h.grow ?_)
          have := h.pos
          simp only [CodeAllocator.grow]
          split <;> omega

/-- What the loop returns, in terms of the codes that were free when it began. -/
structure Found (until_ : Nat) (a : CodeAllocator) (r : Option Nat × CodeAllocator) : Prop where
  some_iff : ∀ c, r.1 = some c ↔
    c < a.cfg.hardMax ∧ a.isFree c ∧ ∀ c' < c, ¬ a.isFree c'
  none_iff : r.1 = none ↔ ∀ c < a.cfg.hardMax, ¬ a.isFree c
  active : r.2.active = match r.1 with
    | some c => a.active.insert c until_
    | none => a.active
  cooldown : r.2.cooldown = a.cooldown
  cfg : r.2.cfg = a.cfg
  sized : r.2.Sized

theorem Loop.found_first {until_ : Nat} {a : CodeAllocator} {r : Option Nat × CodeAllocator}
    (loop : Loop until_ a r) (h : a.Sized) : Found until_ a r := by
  induction loop with
  | @found a c free =>
      obtain ⟨free, below, least⟩ := firstFree_some.mp free
      have small : c < a.cfg.hardMax := Nat.lt_of_lt_of_le below h.le
      refine ⟨fun c' => ⟨?_, ?_⟩, ⟨nofun, fun all => absurd free (all c small)⟩, rfl, rfl, rfl,
        h.pos, h.le⟩
      · rintro ⟨⟩
        exact ⟨small, free, least⟩
      · rintro ⟨-, free', least'⟩
        rcases Nat.lt_trichotomy c c' with lt | rfl | gt
        · exact absurd free (least' c lt)
        · rfl
        · exact absurd free' (least c' gt)
  | @full a none_free past =>
      have all : ∀ c < a.cfg.hardMax, ¬ a.isFree c := fun c hc =>
        firstFree_none.mp none_free c (Nat.lt_of_lt_of_le hc past)
      exact ⟨fun c => ⟨nofun, fun h' => absurd h'.2.1 (all c h'.1)⟩, ⟨fun _ => all, fun _ => rfl⟩,
        rfl, rfl, rfl, h⟩
  | grown none_free below rest ih =>
      obtain ⟨some_iff, none_iff, active, cooldown, cfg, sized⟩ := ih h.grow
      exact ⟨some_iff, none_iff, active, cooldown, cfg, sized⟩

theorem insertAll_getElem? (m m₀ : Std.ExtTreeMap Nat Nat) (v c : Nat) :
    (m.foldl (fun m c _ => m.insert c v) m₀)[c]? = if c ∈ m then some v else m₀[c]? := by
  have listed : ∀ (l : List Nat) (m₀ : Std.ExtTreeMap Nat Nat),
      (l.foldl (fun m c => m.insert c v) m₀)[c]? = if c ∈ l then some v else m₀[c]? := by
    intro l
    induction l with
    | nil => simp
    | cons d l ih =>
        intro m₀
        rw [List.foldl_cons, ih, Std.ExtTreeMap.getElem?_insert]
        rcases eq_or_ne d c with rfl | here
        · simp
        · simp [here, here.symm]
  rw [Std.ExtTreeMap.foldl_eq_foldl_keys, listed]
  simp only [Std.ExtTreeMap.mem_keys]

@[simp] theorem expire_cfg (a : CodeAllocator) (now : Nat) : (a.expire now).cfg = a.cfg := rfl

theorem expire_active_eq (a : CodeAllocator) (now c : Nat) :
    (a.expire now).active[c]? = a.active[c]?.filter (now < ·) := by
  simp only [expire, Std.ExtTreeMap.getElem?_filter', Nat.not_le]

/-- A stale code starts its cooldown, and a cooldown that is over ends. -/
theorem expire_cooldown_eq (a : CodeAllocator) (now c : Nat) :
    (a.expire now).cooldown[c]? =
      (match a.active[c]? with
        | some u => if u ≤ now then some (now + a.cfg.cooldownMs) else a.cooldown[c]?
        | none => a.cooldown[c]?).filter (now < ·) := by
  have stale : (c ∈ a.active.filter fun _ t => t ≤ now) ↔ ∃ u, a.active[c]? = some u ∧ u ≤ now := by
    rw [Std.ExtTreeMap.mem_iff_isSome_getElem?, Std.ExtTreeMap.getElem?_filter']
    cases a.active[c]? <;> simp [Option.filter]
  simp only [expire, Std.ExtTreeMap.getElem?_filter', insertAll_getElem?, stale, Nat.not_le]
  cases a.active[c]? <;> simp

theorem expire_cooldown_future {a : CodeAllocator} {now c u : Nat}
    (h : (a.expire now).cooldown[c]? = some u) : now < u := by
  rw [expire_cooldown_eq, Option.filter_eq_some_iff] at h
  exact of_decide_eq_true h.2

theorem isFree_iff (a : CodeAllocator) (c : Nat) :
    a.isFree c = true ↔ a.active[c]? = none ∧ a.cooldown[c]? = none := by
  simp only [isFree, Std.ExtTreeMap.contains_eq_isSome_getElem?]
  cases a.active[c]? <;> cases a.cooldown[c]? <;> simp

end CodeAllocator

/-! ## The book -/

/-- What became of an allocation: `expired` when an `expire` found it past its TTL. -/
inductive Fate
  | held
  | released (t : Nat)
  | expired (t : Nat)
  deriving DecidableEq

def Fate.ended : Fate → Option Nat
  | .held => none
  | .released t | .expired t => some t

structure Lease where
  until_ : Nat
  fate : Fate

namespace Lease

/-- Seen by an `expire`. -/
def notice (now : Nat) (l : Lease) : Lease :=
  if l.fate = .held ∧ l.until_ ≤ now then { l with fate := .expired now } else l

/-- Ended, and the cooldown since is over. -/
def Over (cooldownMs now : Nat) (l : Lease) : Prop :=
  ∃ e, l.fate.ended = some e ∧ e + cooldownMs ≤ now

/-- A cooldown has passed since the lease was released, or else since its TTL was up. -/
def Spent (cooldownMs now : Nat) (l : Lease) : Prop :=
  match l.fate with
  | .released t => t + cooldownMs ≤ now
  | _ => l.until_ + cooldownMs ≤ now

/-- Nothing expires before its TTL is up. -/
def Sound (l : Lease) : Prop := ∀ t, l.fate = .expired t → l.until_ ≤ t

@[simp] theorem notice_until (now : Nat) (l : Lease) : (l.notice now).until_ = l.until_ := by
  rw [notice]
  split <;> rfl

theorem notice_ended (now : Nat) (l : Lease) : (l.notice now).fate.ended =
    match l.fate.ended with
    | none => if l.until_ ≤ now then some now else none
    | some e => some e := by
  cases fate : l.fate with
  | held => by_cases past : l.until_ ≤ now <;> simp [notice, fate, past, Fate.ended]
  | released | expired => simp [notice, fate, Fate.ended]

theorem Over.mono {cooldownMs now now' : Nat} {l : Lease} (h : l.Over cooldownMs now)
    (later : now ≤ now') : l.Over cooldownMs now' := by
  obtain ⟨e, ended, past⟩ := h
  exact ⟨e, ended, by omega⟩

theorem Over.notice {cooldownMs now t : Nat} {l : Lease} (h : l.Over cooldownMs now) :
    l.notice t = l := by
  obtain ⟨e, ended, -⟩ := h
  refine if_neg fun held => ?_
  rw [held.1] at ended
  cases ended

theorem Sound.notice {l : Lease} (h : l.Sound) (now : Nat) : (l.notice now).Sound := by
  rw [Lease.notice]
  split
  · rename_i held
    rintro t ⟨⟩
    exact held.2
  · exact h

/-- A lease that is over when it has been seen was spent as it stood. -/
theorem spent_of_over {cooldownMs now : Nat} {l : Lease} (sound : l.Sound)
    (h : (l.notice now).Over cooldownMs now) : l.Spent cooldownMs now := by
  obtain ⟨e, ended, past⟩ := h
  rw [Lease.notice] at ended
  rw [Spent]
  split at ended
  · rename_i held
    cases ended
    rw [held.1]
    have := held.2
    show l.until_ + cooldownMs ≤ now
    omega
  · cases fate : l.fate with
    | held =>
        rw [fate] at ended
        cases ended
    | released t =>
        rw [fate] at ended
        cases ended
        exact past
    | expired t =>
        rw [fate] at ended
        cases ended
        have := sound _ fate
        show l.until_ + cooldownMs ≤ now
        omega

end Lease

/-- The maps of the allocator say of a code what its leases say. -/
def Agrees (a : CodeAllocator) (now c : Nat) : List Lease → Prop
  | [] => a.active[c]? = none ∧ a.cooldown[c]? = none
  | l :: rest => (∀ l' ∈ rest, l'.Over a.cfg.cooldownMs now) ∧
      match l.fate.ended with
      | none => a.active[c]? = some l.until_ ∧ a.cooldown[c]? = none
      | some e => a.active[c]? = none ∧
          (a.cooldown[c]? = some (e + a.cfg.cooldownMs) ∨
            a.cooldown[c]? = none ∧ e + a.cfg.cooldownMs ≤ now)

/-- Only what the maps have at the code counts. -/
theorem Agrees.congr {a a' : CodeAllocator} {now c : Nat} {h : List Lease}
    (agrees : Agrees a now c h) (cfg : a'.cfg = a.cfg) (active : a'.active[c]? = a.active[c]?)
    (cool : a'.cooldown[c]? = a.cooldown[c]?) : Agrees a' now c h := by
  cases h with
  | nil => exact ⟨active.trans agrees.1, cool.trans agrees.2⟩
  | cons l rest =>
      rw [Agrees, cfg, active, cool]
      exact agrees

theorem Agrees.mono {a : CodeAllocator} {now now' c : Nat} {h : List Lease}
    (agrees : Agrees a now c h) (later : now ≤ now') : Agrees a now' c h := by
  cases h with
  | nil => exact agrees
  | cons l rest =>
      obtain ⟨past, latest⟩ := agrees
      refine ⟨fun l' hl' => (past l' hl').mono later, ?_⟩
      cases ended : l.fate.ended with
      | none =>
          rw [ended] at latest
          exact latest
      | some e =>
          rw [ended] at latest
          exact ⟨latest.1, latest.2.imp_right fun past => ⟨past.1, by omega⟩⟩

section Expiry
variable {a : CodeAllocator} {now t c : Nat} {h : List Lease}

theorem Agrees.expire (agrees : Agrees a now c h) (later : now ≤ t) :
    Agrees (a.expire t) t c (h.map (·.notice t)) := by
  cases h with
  | nil =>
      obtain ⟨idle, cool⟩ := agrees
      rw [List.map_nil, Agrees, a.expire_active_eq, a.expire_cooldown_eq, idle, cool]
      exact ⟨rfl, rfl⟩
  | cons l rest =>
      obtain ⟨past, latest⟩ := agrees
      have settled : rest.map (·.notice t) = rest :=
        (List.map_congr_left fun l' hl' => (past l' hl').notice).trans (List.map_id' rest)
      refine ⟨fun l' hl' => ?_, ?_⟩
      · rw [settled] at hl'
        exact (past l' hl').mono later
      · rw [a.expire_active_eq, a.expire_cooldown_eq, Lease.notice_ended, Lease.notice_until]
        cases ended : l.fate.ended with
        | none =>
            rw [ended] at latest
            obtain ⟨active, cool⟩ := latest
            by_cases stale : l.until_ ≤ t
            · simp [active, stale, Option.filter]
              omega
            · simp [active, cool, stale, Nat.lt_of_not_le stale]
        | some e =>
            rw [ended] at latest
            obtain ⟨idle, cool | ⟨cool, past⟩⟩ := latest
            · simp [idle, cool, Option.filter]
              omega
            · simp [idle, cool]
              omega

/-- After an `expire`, a code is free when every lease of it is over. -/
theorem Agrees.isFree_iff (agrees : Agrees a now c h) (later : now ≤ t) :
    (a.expire t).isFree c ↔ ∀ l ∈ h, (l.notice t).Over a.cfg.cooldownMs t := by
  rw [CodeAllocator.isFree_iff]
  have after := agrees.expire later
  cases h with
  | nil => exact ⟨fun _ => nofun, fun _ => after⟩
  | cons l rest =>
      obtain ⟨past, latest⟩ := after
      rw [a.expire_cfg] at past latest
      rw [List.forall_mem_cons]
      have settled : ∀ l' ∈ rest, (l'.notice t).Over a.cfg.cooldownMs t :=
        fun l' hl' => past _ (List.mem_map_of_mem hl')
      rw [Lease.Over]
      cases ended : (l.notice t).fate.ended with
      | none =>
          rw [ended] at latest
          exact ⟨fun free => (by cases latest.1.symm.trans free.1), fun all => by simp at all⟩
      | some e =>
          rw [ended] at latest
          obtain ⟨idle, cool | ⟨cool, past⟩⟩ := latest
          · have future := CodeAllocator.expire_cooldown_future cool
            constructor
            · intro free
              cases cool.symm.trans free.2
            · rintro ⟨⟨_, ⟨⟩, past⟩, -⟩
              omega
          · exact ⟨fun _ => ⟨⟨e, rfl, past⟩, settled⟩, fun _ => ⟨idle, cool⟩⟩

end Expiry

structure Book where
  alloc : CodeAllocator
  now : Nat
  /-- the allocations of each code, the latest first; the server keeps no such list -/
  leases : Nat → List Lease

inductive Call
  | allocate (ttlMs : Nat)
  | release (code : Nat)
  | expire

namespace Book

def fresh (cfg : AllocConfig) : Book := ⟨.new cfg, 0, fun _ => []⟩

def noticed (b : Book) (now c : Nat) : List Lease := (b.leases c).map (·.notice now)

/-- A call at a time. A code is released by the holder of its latest lease, within the TTL. -/
def step (b : Book) : Nat × Call → Option Book
  | (t, call) =>
      if t < b.now then none
      else match call with
        | .expire => some ⟨b.alloc.expire t, t, b.noticed t⟩
        | .allocate ttlMs =>
            match b.alloc.allocate t ttlMs with
            | (none, alloc) => some ⟨alloc, t, b.noticed t⟩
            | (some c, alloc) => some ⟨alloc, t,
                Function.update (b.noticed t) c (⟨t + ttlMs, .held⟩ :: b.noticed t c)⟩
        | .release c =>
            match b.leases c with
            | l :: rest =>
                if t < l.until_ then
                  some ⟨b.alloc.release c t, t,
                    Function.update b.leases c ({ l with fate := .released t } :: rest)⟩
                else none
            | [] => none

structure Kept (cfg : AllocConfig) (b : Book) : Prop where
  cfg : b.alloc.cfg = cfg
  sized : b.alloc.Sized
  agrees : ∀ c, Agrees b.alloc b.now c (b.leases c)
  sound : ∀ c, ∀ l ∈ b.leases c, l.Sound

variable {cfg : AllocConfig} {b b' : Book}

theorem kept_fresh (pos : 1 ≤ cfg.initialMax) (le : cfg.initialMax ≤ cfg.hardMax) :
    (fresh cfg).Kept cfg :=
  ⟨rfl, ⟨pos, le⟩, fun _ => ⟨rfl, rfl⟩, fun _ _ => nofun⟩

theorem Kept.noticed (kept : b.Kept cfg) (t c : Nat) : ∀ l ∈ b.noticed t c, l.Sound := by
  intro l hl
  obtain ⟨l', hl', rfl⟩ := List.mem_map.mp hl
  exact (kept.sound c l' hl').notice t

theorem Kept.expire (kept : b.Kept cfg) {t : Nat} (later : b.now ≤ t) :
    Kept cfg ⟨b.alloc.expire t, t, b.noticed t⟩ :=
  ⟨kept.cfg, ⟨kept.sized.pos, kept.sized.le⟩, fun c => (kept.agrees c).expire later,
    kept.noticed t⟩

/-- What `allocate` returns, with the leases of each code. -/
theorem Kept.found (kept : b.Kept cfg) (t ttlMs : Nat) :
    CodeAllocator.Loop (t + ttlMs) (b.alloc.expire t) (b.alloc.allocate t ttlMs) ∧
      CodeAllocator.Found (t + ttlMs) (b.alloc.expire t) (b.alloc.allocate t ttlMs) := by
  have sized : (b.alloc.expire t).Sized := ⟨kept.sized.pos, kept.sized.le⟩
  have enough : (b.alloc.expire t).cfg.hardMax <
      b.alloc.cfg.hardMax + 1 + (b.alloc.expire t).max := by
    rw [CodeAllocator.expire_cfg]
    omega
  have loop := CodeAllocator.loop_search (t + ttlMs) sized enough
  exact ⟨loop, loop.found_first sized⟩

/-- A new list of leases for one code, the others as they were. -/
theorem kept_update {alloc : CodeAllocator} {t c : Nat} {leases : Nat → List Lease}
    {h : List Lease} (same : alloc.cfg = cfg) (sized : alloc.Sized)
    (here : Agrees alloc t c h) (sound : ∀ l ∈ h, l.Sound)
    (others : ∀ c', c ≠ c' → Agrees alloc t c' (leases c'))
    (sounds : ∀ c', ∀ l ∈ leases c', l.Sound) :
    Kept cfg ⟨alloc, t, Function.update leases c h⟩ := by
  refine ⟨same, sized, fun c' => ?_, fun c' => ?_⟩
  · rcases eq_or_ne c c' with rfl | other
    · simpa only [Function.update_self] using here
    · simpa only [Function.update_of_ne other.symm] using others c' other
  · rcases eq_or_ne c c' with rfl | other
    · simpa only [Function.update_self] using sound
    · simpa only [Function.update_of_ne other.symm] using sounds c'

theorem Kept.allocate (kept : b.Kept cfg) {t ttlMs : Nat} (later : b.now ≤ t)
    (h : b.step (t, .allocate ttlMs) = some b') : b'.Kept cfg := by
  obtain ⟨-, found⟩ := kept.found t ttlMs
  have agrees : ∀ c, Agrees (b.alloc.expire t) t c (b.noticed t c) :=
    fun c => (kept.agrees c).expire later
  simp only [Book.step, if_neg (Nat.not_lt.mpr later)] at h
  cases result : b.alloc.allocate t ttlMs with
  | mk r alloc =>
      rw [result] at h found
      obtain ⟨some_iff, none_iff, active, cool, same, sized⟩ := found
      cases r with
      | none =>
          cases h
          exact ⟨same.trans kept.cfg, sized,
            fun c => (agrees c).congr same (by rw [active]) (by rw [cool]), kept.noticed t⟩
      | some c =>
          cases h
          obtain ⟨-, free, -⟩ := (some_iff c).mp rfl
          have unused := (CodeAllocator.isFree_iff _ _).mp free
          have past : ∀ l ∈ b.noticed t c, l.Over alloc.cfg.cooldownMs t := by
            intro l hl
            obtain ⟨l', hl', rfl⟩ := List.mem_map.mp hl
            rw [same]
            exact ((kept.agrees c).isFree_iff later).mp free l' hl'
          refine kept_update (same.trans kept.cfg) sized ⟨past, ?_⟩ ?_ ?_ (kept.noticed t)
          · change alloc.active[c]? = some (t + ttlMs) ∧ alloc.cooldown[c]? = none
            rw [active, cool]
            exact ⟨Std.ExtTreeMap.getElem?_insert_self, unused.2⟩
          · rintro l (_ | ⟨_, hl⟩)
            · exact nofun
            · exact kept.noticed t c l hl
          · intro c' other
            refine (agrees c').congr same ?_ (by rw [cool])
            rw [active, Std.ExtTreeMap.getElem?_insert, if_neg (by simpa using other)]

theorem Kept.release (kept : b.Kept cfg) {t c : Nat} (later : b.now ≤ t)
    (h : b.step (t, .release c) = some b') : b'.Kept cfg := by
  simp only [Book.step, if_neg (Nat.not_lt.mpr later)] at h
  cases leases : b.leases c with
  | nil =>
      rw [leases] at h
      cases h
  | cons l rest =>
      rw [leases] at h
      obtain ⟨-, h⟩ := Option.ite_none_right_eq_some.mp h
      cases h
      have latest := kept.agrees c
      have sound := kept.sound c
      rw [leases] at latest sound
      refine kept_update kept.cfg ⟨kept.sized.pos, kept.sized.le⟩
        ⟨fun l' hl' => (latest.1 l' hl').mono later, ?_⟩ ?_ ?_ kept.sound
      · exact ⟨Std.ExtTreeMap.getElem?_erase_self, .inl Std.ExtTreeMap.getElem?_insert_self⟩
      · rintro l' (_ | ⟨_, hl⟩)
        · exact nofun
        · exact sound l' (List.mem_cons_of_mem _ hl)
      · intro c' other
        refine ((kept.agrees c').mono later).congr rfl ?_ ?_
        · rw [CodeAllocator.release, Std.ExtTreeMap.getElem?_erase, if_neg (by simpa using other)]
        · rw [CodeAllocator.release, Std.ExtTreeMap.getElem?_insert, if_neg (by simpa using other)]

theorem Kept.step (kept : b.Kept cfg) {p : Nat × Call} (h : b.step p = some b') :
    b'.Kept cfg := by
  obtain ⟨t, call⟩ := p
  have later : b.now ≤ t := by
    refine Nat.le_of_not_lt fun early => ?_
    simp only [Book.step, if_pos early, reduceCtorEq] at h
  cases call with
  | expire =>
      simp only [Book.step, if_neg (Nat.not_lt.mpr later)] at h
      cases h
      exact kept.expire later
  | allocate ttlMs => exact kept.allocate later h
  | release c => exact kept.release later h

/-! ## Smallest free, exclusive, cooled down -/

theorem Kept.disjoint (kept : b.Kept cfg) (c : Nat) :
    b.alloc.active[c]? = none ∨ b.alloc.cooldown[c]? = none := by
  have agrees := kept.agrees c
  cases leases : b.leases c with
  | nil =>
      rw [leases] at agrees
      exact .inl agrees.1
  | cons l rest =>
      rw [leases] at agrees
      obtain ⟨-, latest⟩ := agrees
      cases ended : l.fate.ended with
      | none =>
          rw [ended] at latest
          exact .inr latest.2
      | some e =>
          rw [ended] at latest
          exact .inl latest.1

theorem kept_of_reach (pos : 1 ≤ cfg.initialMax) (le : cfg.initialMax ≤ cfg.hardMax)
    (reached : Reach step anyStep (fresh cfg) b) : b.Kept cfg :=
  reached.invariant (kept_fresh pos le) fun _ _ _ kept _ stepped => kept.step stepped

/-- In every run the two maps are disjoint and the pool is bounded. An allocation ends, with
the smallest code that an `expire` leaves in neither map, if there is one; such a code is one
all of whose leases are over; and each of them was released, or else ran out, at least a
cooldown ago. -/
theorem allocate_smallest (pos : 1 ≤ cfg.initialMax) (le : cfg.initialMax ≤ cfg.hardMax)
    (reached : Reach step anyStep (fresh cfg) b) :
    (∀ c, ¬ (c ∈ b.alloc.active ∧ c ∈ b.alloc.cooldown)) ∧ b.alloc.max ≤ cfg.hardMax ∧
    ∀ t ttlMs, b.now ≤ t →
      let a := b.alloc.expire t
      let r := (b.alloc.allocate t ttlMs).1
      CodeAllocator.Loop (t + ttlMs) a (b.alloc.allocate t ttlMs) ∧
      (∀ c, r = some c ↔ c < cfg.hardMax ∧ a.isFree c ∧ ∀ c' < c, ¬ a.isFree c') ∧
      (r = none ↔ ∀ c < cfg.hardMax, ¬ a.isFree c) ∧
      (∀ c, a.isFree c ↔ ∀ l ∈ b.noticed t c, l.Over cfg.cooldownMs t) ∧
      ∀ c, r = some c → ∀ l ∈ b.leases c, l.Spent cfg.cooldownMs t := by
  have kept := kept_of_reach pos le reached
  obtain ⟨rfl⟩ := kept.cfg
  refine ⟨fun c ⟨active, cooling⟩ => ?_, kept.sized.le, fun t ttlMs later => ?_⟩
  · rw [Std.ExtTreeMap.mem_iff_isSome_getElem?] at active cooling
    rcases kept.disjoint c with none | none
    · simp [none] at active
    · simp [none] at cooling
  · obtain ⟨loop, found⟩ := kept.found t ttlMs
    have free : ∀ c, (b.alloc.expire t).isFree c ↔
        ∀ l ∈ b.leases c, (l.notice t).Over b.alloc.cfg.cooldownMs t :=
      fun c => (kept.agrees c).isFree_iff later
    refine ⟨loop, found.some_iff, found.none_iff, fun c => ?_, fun c hr l hl => ?_⟩
    · rw [free, Book.noticed, List.forall_mem_map]
    · have past := (free c).mp ((found.some_iff c).mp hr).2.1 l hl
      exact Lease.spent_of_over (kept.sound c l hl) past

/-- Two codes in turn, given back at 0 and at 100, and asked for again at 4000. -/
theorem allocate_again : ∃ b, Reach step anyStep (fresh {}) b ∧
    (b.alloc.allocate 4000 10000).1 = some 0 ∧ ∀ l ∈ b.leases 0, l.Spent 3000 4000 := by
  obtain ⟨b, reached, seen⟩ := Reach.observed step (fresh {})
    [(0, .allocate 10000), (0, .release 0), (0, .allocate 10000), (100, .release 1)]
    (fun b => (b.now, (b.alloc.allocate 4000 10000).1)) (o := (100, some 0)) (by decide +kernel)
  obtain ⟨now, first⟩ := Prod.mk.inj seen
  obtain ⟨-, -, all⟩ := allocate_smallest (by decide) (by decide) reached
  exact ⟨b, reached, first, (all 4000 10000 (by omega)).2.2.2.2 0 first⟩

end Book
end Splice.Server
