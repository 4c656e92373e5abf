import Splice.Lib.Run
import Mathlib.Data.List.Nodup

/-!
The poll loop. What poll reported is matched to the callbacks by descriptor and direction
after earlier callbacks of the round have changed the table, in whatever way they like. Every
registration has a number of its own here that no code reads.
-/

namespace Splice.Net
open Lib
variable {κ : Type}

structure Registration (κ : Type) where
  fd : Int
  writable : Bool
  cb : κ
  /-- which of all registrations it is -/
  serial : Nat

def Registration.is (e : Registration κ) (fd : Int) (writable : Bool) : Bool :=
  e.fd = fd && e.writable = writable

structure Poller (κ : Type) where
  fds : List (Registration κ) := []
  /-- registrations so far -/
  next : Nat := 0

namespace Poller

/-- The first entry's callback replaced, if there is one. -/
def replaceCb (fd : Int) (writable : Bool) (cb : κ) :
    List (Registration κ) → Option (List (Registration κ))
  | [] => none
  | e :: es =>
      if e.is fd writable then some ({ e with cb } :: es)
      else (replaceCb fd writable cb es).map (e :: ·)

def set (p : Poller κ) (fd : Int) (cb : κ) (writable : Bool) : Poller κ :=
  match replaceCb fd writable cb p.fds with
  | some fds => { p with fds }
  | none => { fds := p.fds ++ [⟨fd, writable, cb, p.next⟩], next := p.next + 1 }

/-- Both callbacks. -/
def remove (p : Poller κ) (fd : Int) : Poller κ := { p with fds := p.fds.filter (·.fd ≠ fd) }

/-- Just one. -/
def removeOne (p : Poller κ) (fd : Int) (writable : Bool) : Poller κ :=
  { p with fds := p.fds.eraseP (·.is fd writable) }

def lookup (p : Poller κ) (fd : Int) (writable : Bool) : Option (Registration κ) :=
  p.fds.find? (·.is fd writable)

/-- What callbacks and the tick do to the table. -/
inductive Edit (κ : Type)
  | set (fd : Int) (cb : κ) (writable : Bool)
  | remove (fd : Int)
  | removeOne (fd : Int) (writable : Bool)

def edit (p : Poller κ) : Edit κ → Poller κ
  | .set fd cb writable => p.set fd cb writable
  | .remove fd => p.remove fd
  | .removeOne fd writable => p.removeOne fd writable

/-! ## A round -/

structure PollFd where
  fd : Int
  writable : Bool
  /-- did poll report something? -/
  ready : Bool

/-- The loop over what poll reported, with the edits of each callback in case it is called; the
registrations whose callbacks were called. -/
def dispatch (p : Poller κ) : List (PollFd × List (Edit κ)) → List (Registration κ) × Poller κ
  | [] => ([], p)
  | (f, edits) :: rest =>
      if f.ready then
        match p.lookup f.fd f.writable with
        | none => dispatch p rest
        | some e =>
            let (calls, p) := dispatch (edits.foldl edit p) rest
            (e :: calls, p)
      else dispatch p rest

/-- What poll is asked, what it reports and what the callbacks do. -/
def polled (p : Poller κ) (turn : Nat → Bool × List (Edit κ)) : List (PollFd × List (Edit κ)) :=
  p.fds.mapIdx fun i e => (⟨e.fd, e.writable, (turn i).1⟩, (turn i).2)

def round (p : Poller κ) (turn : Nat → Bool × List (Edit κ)) :
    List (Registration κ) × Poller κ :=
  p.dispatch (p.polled turn)

/-- A poll and the calls after it, or an edit between rounds. -/
inductive Action (κ : Type)
  | round (turn : Nat → Bool × List (Edit κ))
  | edit (e : Edit κ)

def step (p : Poller κ) : Action κ → Option (Poller κ)
  | .round turn => some (p.round turn).2
  | .edit e => some (p.edit e)

/-! ## The table -/

structure Valid (p : Poller κ) : Prop where
  sole : p.fds.Pairwise fun e e' => ¬ (e.fd = e'.fd ∧ e.writable = e'.writable)
  known : ∀ e ∈ p.fds, e.serial < p.next

theorem is_iff (e : Registration κ) (fd : Int) (w : Bool) :
    e.is fd w = true ↔ e.fd = fd ∧ e.writable = w := by
  simp [Registration.is]

theorem find_cons (e : Registration κ) (es : List (Registration κ)) (fd : Int) (w : Bool) :
    (e :: es).find? (·.is fd w) =
      if e.fd = fd ∧ e.writable = w then some e else es.find? (·.is fd w) := by
  rw [List.find?_cons]
  by_cases here : e.fd = fd ∧ e.writable = w
  · rw [if_pos here, (is_iff e fd w).mpr here]
  · rw [if_neg here, Bool.eq_false_iff.mpr fun h => here ((is_iff e fd w).mp h)]

theorem replaceCb_none {fd : Int} {w : Bool} {cb : κ} {es : List (Registration κ)}
    (h : replaceCb fd w cb es = none) : ∀ e ∈ es, e.is fd w = false := by
  induction es with
  | nil => exact nofun
  | cons e es ih =>
      rw [replaceCb] at h
      split at h
      · cases h
      · rename_i other
        rw [Option.map_eq_none_iff] at h
        exact List.forall_mem_cons.mpr ⟨Bool.eq_false_iff.mpr other, ih h⟩

/-- Replacing a callback changes no registration. -/
theorem replaceCb_some {fd : Int} {w : Bool} {cb : κ} {es es' : List (Registration κ)}
    (h : replaceCb fd w cb es = some es') :
    es'.map (fun e => (e.fd, e.writable, e.serial)) =
        es.map (fun e => (e.fd, e.writable, e.serial)) ∧
      ∃ e, es.find? (·.is fd w) = some e ∧ ∀ fd' w', es'.find? (·.is fd' w') =
        if fd = fd' ∧ w = w' then some { e with cb } else es.find? (·.is fd' w') := by
  induction es generalizing es' with
  | nil => cases h
  | cons e es ih =>
      rw [replaceCb] at h
      split at h
      · rename_i here
        cases h
        obtain ⟨rfl, rfl⟩ := (is_iff e fd w).mp here
        refine ⟨rfl, e, ?_, fun fd' w' => ?_⟩
        · rw [find_cons, if_pos ⟨rfl, rfl⟩]
        · rw [find_cons, find_cons]
          split <;> rfl
      · rename_i other
        rw [is_iff] at other
        obtain ⟨rest, found, rfl⟩ := Option.map_eq_some_iff.mp h
        obtain ⟨ids, e', first, all⟩ := ih found
        refine ⟨by simp [ids], e', ?_, fun fd' w' => ?_⟩
        · rw [find_cons, if_neg other, first]
        · rw [find_cons, find_cons, all]
          by_cases here : e.fd = fd' ∧ e.writable = w'
          · obtain ⟨rfl, rfl⟩ := here
            have apart : ¬ (fd = e.fd ∧ w = e.writable) := fun h => other ⟨h.1.symm, h.2.symm⟩
            rw [if_pos ⟨rfl, rfl⟩, if_neg apart, if_pos ⟨rfl, rfl⟩]
          · rw [if_neg here, if_neg here]

theorem lookup_set (p : Poller κ) (fd fd' : Int) (cb : κ) (w w' : Bool) :
    (p.set fd cb w).lookup fd' w' =
      if fd = fd' ∧ w = w' then
        some (((p.lookup fd w).map fun e => { e with cb }).getD ⟨fd, w, cb, p.next⟩)
      else p.lookup fd' w' := by
  rw [set]
  split
  · rename_i fds found
    obtain ⟨-, e, first, all⟩ := replaceCb_some found
    rw [lookup, all, lookup, lookup, first]
    rfl
  · rename_i missing
    have none := List.find?_eq_none.mpr fun e he => Bool.eq_false_iff.mp (replaceCb_none missing e he)
    rw [lookup, lookup, lookup, none, List.find?_append, find_cons]
    by_cases same : fd = fd' ∧ w = w'
    · obtain ⟨rfl, rfl⟩ := same
      rw [if_pos ⟨rfl, rfl⟩, if_pos ⟨rfl, rfl⟩, none]
      rfl
    · rw [if_neg same, if_neg same, List.find?_nil, Option.or_none]

theorem lookup_remove (p : Poller κ) (fd fd' : Int) (w' : Bool) :
    (p.remove fd).lookup fd' w' = if fd = fd' then none else p.lookup fd' w' := by
  rw [lookup, remove, List.find?_filter]
  split
  · rename_i same
    rw [List.find?_eq_none]
    intro e _
    simp +contextual [Registration.is, same]
  · rename_i other
    rw [lookup]
    congr 1
    funext e
    by_cases here : e.fd = fd'
    · simp [Registration.is, here, Ne.symm other]
    · simp [Registration.is, here]

theorem Valid.lookup_removeOne {p : Poller κ} (v : p.Valid) (fd fd' : Int) (w w' : Bool) :
    (p.removeOne fd w).lookup fd' w' = if fd = fd' ∧ w = w' then none else p.lookup fd' w' := by
  have sole := v.sole
  simp only [lookup, removeOne]
  generalize p.fds = es at sole ⊢
  induction es with
  | nil => simp
  | cons e es ih =>
      obtain ⟨alone, rest⟩ := List.pairwise_cons.mp sole
      rw [List.eraseP_cons, find_cons]
      by_cases here : e.fd = fd ∧ e.writable = w
      · obtain ⟨rfl, rfl⟩ := here
        rw [(is_iff e e.fd e.writable).mpr ⟨rfl, rfl⟩, cond_true]
        split
        · rename_i same
          obtain ⟨rfl, rfl⟩ := same
          rw [List.find?_eq_none]
          intro e' he' h
          obtain ⟨fd, w⟩ := (is_iff ..).mp h
          exact alone e' he' ⟨fd.symm, w.symm⟩
        · rfl
      · rw [Bool.eq_false_iff.mpr fun h => here ((is_iff e fd w).mp h), cond_false, find_cons,
          ih rest]
        by_cases same : fd = fd' ∧ w = w'
        · obtain ⟨rfl, rfl⟩ := same
          rw [if_neg here, if_pos ⟨rfl, rfl⟩, if_pos ⟨rfl, rfl⟩]
        · rw [if_neg same, if_neg same]

theorem Valid.of_sublist {p : Poller κ} (v : p.Valid) {fds : List (Registration κ)}
    (h : fds.Sublist p.fds) : Valid { p with fds } :=
  ⟨v.sole.sublist h, fun e he => v.known e (h.subset he)⟩

theorem Valid.set {p : Poller κ} (v : p.Valid) (fd : Int) (cb : κ) (w : Bool) :
    (p.set fd cb w).Valid := by
  rw [Poller.set]
  split
  · rename_i fds found
    obtain ⟨ids, -⟩ := replaceCb_some found
    let id (e : Registration κ) : Int × Bool × Nat := (e.fd, e.writable, e.serial)
    constructor
    · have sole : (p.fds.map id).Pairwise fun a b => ¬ (a.1 = b.1 ∧ a.2.1 = b.2.1) :=
        List.pairwise_map.mpr v.sole
      rw [← ids] at sole
      exact List.pairwise_map.mp sole
    · intro e he
      have listed : id e ∈ p.fds.map id := ids ▸ List.mem_map_of_mem he
      obtain ⟨e', he', same⟩ := List.mem_map.mp listed
      have serial : e'.serial = e.serial := congrArg (·.2.2) same
      exact serial ▸ v.known e' he'
  · rename_i missing
    have none := replaceCb_none missing
    constructor
    · refine List.pairwise_append.mpr ⟨v.sole, List.pairwise_singleton .., ?_⟩
      intro e he e' he' same
      cases List.mem_singleton.mp he'
      exact Bool.eq_false_iff.mp (none e he) ((is_iff e fd w).mpr same)
    · intro e he
      rcases List.mem_append.mp he with he | he
      · exact Nat.lt_succ_of_lt (v.known e he)
      · cases List.mem_singleton.mp he
        exact Nat.lt_succ_self _

theorem Valid.edit {p : Poller κ} (v : p.Valid) (e : Edit κ) : (p.edit e).Valid := by
  cases e with
  | set fd cb w => exact v.set fd cb w
  | remove fd => exact v.of_sublist List.filter_sublist
  | removeOne fd w => exact v.of_sublist List.eraseP_sublist

theorem Valid.edits {p : Poller κ} (v : p.Valid) (edits : List (Edit κ)) :
    (edits.foldl Poller.edit p).Valid := by
  induction edits generalizing p with
  | nil => exact v
  | cons e edits ih => exact ih (v.edit e)

theorem Valid.dispatch {p : Poller κ} (v : p.Valid) (turns : List (PollFd × List (Edit κ))) :
    (p.dispatch turns).2.Valid := by
  fun_induction Poller.dispatch p turns with
  | case1 p => exact v
  | case2 p f edits rest ready gone ih => exact ih v
  | case3 p f edits rest ready e found calls p' later ih =>
      rw [later] at ih
      exact ih (v.edits edits)
  | case4 p f edits rest idle ih => exact ih v

theorem valid_of_reach {p : Poller κ} (reached : Reach step anyStep {} p) : p.Valid := by
  induction reached with
  | start => exact ⟨.nil, nofun⟩
  | @next _ _ a _ _ stepped v =>
      cases a with
      | round turn =>
          cases stepped
          exact v.dispatch _
      | edit e =>
          cases stepped
          exact v.edit e

/-! ## What became of a registration -/

/-- Of a registration that poll was asked for: it is still there, it was removed, or it was
removed and its descriptor registered anew. -/
inductive Track
  | kept
  | gone
  | renewed
  deriving DecidableEq

def Track.set : Track → Track
  | kept => kept
  | gone | renewed => renewed

/-- An edit, as it concerns one descriptor and direction. -/
def Edit.track (e : Edit κ) (fd : Int) (w : Bool) (t : Track) : Track :=
  match e with
  | .set fd' _ w' => if fd' = fd ∧ w' = w then t.set else t
  | .remove fd' => if fd' = fd then .gone else t
  | .removeOne fd' w' => if fd' = fd ∧ w' = w then .gone else t

/-- No callback removes a registration poll has reported, one of them then setting its descriptor
again before its turn has come. -/
def NoneRenewed (t : Int → Bool → Track) : List (PollFd × List (Edit κ)) → Prop
  | [] => True
  | (f, edits) :: rest =>
      if f.ready then
        match t f.fd f.writable with
        | .gone => NoneRenewed t rest
        | .renewed => False
        | .kept =>
            NoneRenewed (fun fd w => edits.foldl (fun u e => e.track fd w u) (t fd w)) rest
      else NoneRenewed t rest

/-- Where a registration stands, by its number and how many there were at the poll. -/
def Tracked (bound : Nat) (old : Option Nat) (now : Option (Registration κ)) : Track → Prop
  | .kept => now.map (·.serial) = old
  | .gone => now = none
  | .renewed => ∃ e, now = some e ∧ bound ≤ e.serial

theorem next_edit (p : Poller κ) (e : Edit κ) : p.next ≤ (p.edit e).next := by
  cases e with
  | set fd cb w =>
      rw [edit, set]
      split
      · exact Nat.le_refl _
      · exact Nat.le_succ _
  | remove fd => exact Nat.le_refl _
  | removeOne fd w => exact Nat.le_refl _

theorem next_edits (p : Poller κ) (edits : List (Edit κ)) : p.next ≤ (edits.foldl edit p).next := by
  induction edits generalizing p with
  | nil => exact Nat.le_refl _
  | cons e edits ih => exact Nat.le_trans (p.next_edit e) (ih (p.edit e))

theorem Tracked.edit {p : Poller κ} (v : p.Valid) {bound s : Nat} (le : bound ≤ p.next) {fd : Int}
    {w : Bool} {t : Track} (tracked : Tracked bound (some s) (p.lookup fd w) t) (e : Edit κ) :
    Tracked bound (some s) ((p.edit e).lookup fd w) (e.track fd w t) := by
  cases e with
  | set fd' cb w' =>
      rw [Poller.edit, lookup_set, Edit.track]
      split
      · rename_i same
        obtain ⟨rfl, rfl⟩ := same
        cases t with
        | kept =>
            obtain ⟨e, found, serial⟩ := Option.map_eq_some_iff.mp tracked
            rw [found]
            exact congrArg some serial
        | gone =>
            rw [Tracked] at tracked
            rw [tracked]
            exact ⟨_, rfl, le⟩
        | renewed =>
            obtain ⟨e, found, new⟩ := tracked
            rw [found]
            exact ⟨_, rfl, new⟩
      · exact tracked
  | remove fd' =>
      rw [Poller.edit, lookup_remove, Edit.track]
      split
      · rfl
      · exact tracked
  | removeOne fd' w' =>
      rw [Poller.edit, v.lookup_removeOne, Edit.track]
      split
      · rfl
      · exact tracked

theorem Tracked.edits {p : Poller κ} (v : p.Valid) {bound s : Nat} (le : bound ≤ p.next)
    {fd : Int} {w : Bool} {t : Track} (tracked : Tracked bound (some s) (p.lookup fd w) t)
    (edits : List (Edit κ)) : Tracked bound (some s) ((edits.foldl Poller.edit p).lookup fd w)
      (edits.foldl (fun u e => e.track fd w u) t) := by
  induction edits generalizing p t with
  | nil => exact tracked
  | cons e edits ih =>
      exact ih (v.edit e) (Nat.le_trans le (p.next_edit e)) (tracked.edit v le e)

theorem lookup_key {p : Poller κ} {fd : Int} {w : Bool} {e : Registration κ}
    (h : p.lookup fd w = some e) : e.fd = fd ∧ e.writable = w := by
  have found := List.find?_some h
  exact (is_iff e fd w).mp found

/-- The loop calls the old registrations only, unless one was renewed before its turn. -/
theorem dispatch_old_iff (old : Int → Bool → Option Nat) (t : Int → Bool → Track)
    {p : Poller κ} (v : p.Valid) {bound : Nat} (le : bound ≤ p.next)
    {turns : List (PollFd × List (Edit κ))}
    (asked : ∀ f ∈ turns, ∃ s < bound, old f.1.fd f.1.writable = some s)
    (tracked : ∀ f ∈ turns, Tracked bound (old f.1.fd f.1.writable)
      (p.lookup f.1.fd f.1.writable) (t f.1.fd f.1.writable)) :
    (∀ e ∈ (p.dispatch turns).1, old e.fd e.writable = some e.serial) ↔ NoneRenewed t turns := by
  induction turns generalizing p t with
  | nil => exact ⟨fun _ => trivial, fun _ => nofun⟩
  | cons f turns ih =>
      obtain ⟨f, edits⟩ := f
      obtain ⟨⟨s, below, known⟩, asked⟩ := List.forall_mem_cons.mp asked
      obtain ⟨here, tracked⟩ := List.forall_mem_cons.mp tracked
      rw [NoneRenewed, dispatch]
      split
      · simp only [known] at here
        cases state : t f.fd f.writable with
        | gone =>
            rw [state, Tracked] at here
            rw [here]
            exact ih t v le asked tracked
        | kept =>
            rw [state] at here
            obtain ⟨e, found, serial⟩ := Option.map_eq_some_iff.mp here
            obtain ⟨fd, w⟩ := lookup_key found
            have rest := ih (fun fd w => edits.foldl (fun u e => e.track fd w u) (t fd w))
              (v.edits edits) (Nat.le_trans le (p.next_edits edits)) asked fun f' hf' => by
                obtain ⟨s', -, known'⟩ := asked f' hf'
                have before := tracked f' hf'
                rw [known'] at before ⊢
                exact before.edits v le edits
            rw [found]
            simp only [List.forall_mem_cons, rest]
            refine and_iff_right ?_
            rw [fd, w, known, serial]
        | renewed =>
            rw [state] at here
            obtain ⟨e, found, new⟩ := here
            obtain ⟨fd, w⟩ := lookup_key found
            rw [found]
            simp only [List.forall_mem_cons, iff_false, not_and]
            intro same
            rw [fd, w, known] at same
            cases same
            omega
      · exact ih t v le asked tracked

/-! ## Stale events -/

/-- A registration that was there at the poll, with an event reported for it. -/
def Fresh (p : Poller κ) (turn : Nat → Bool × List (Edit κ)) (c : Registration κ) : Prop :=
  ∃ i e, p.fds[i]? = some e ∧ (turn i).1 = true ∧ e.fd = c.fd ∧ e.writable = c.writable ∧
    e.serial = c.serial

theorem dispatch_ready {p : Poller κ} {turns : List (PollFd × List (Edit κ))} {c : Registration κ}
    (h : c ∈ (p.dispatch turns).1) :
    ∃ f ∈ turns, f.1.ready ∧ f.1.fd = c.fd ∧ f.1.writable = c.writable := by
  have tail {p : Poller κ} {f : PollFd × List (Edit κ)} {rest : List (PollFd × List (Edit κ))} :
      (c ∈ (p.dispatch rest).1 →
        ∃ f ∈ rest, f.1.ready ∧ f.1.fd = c.fd ∧ f.1.writable = c.writable) →
      c ∈ (p.dispatch rest).1 →
        ∃ f' ∈ f :: rest, f'.1.ready ∧ f'.1.fd = c.fd ∧ f'.1.writable = c.writable := by
    intro ih h
    obtain ⟨f', hf', all⟩ := ih h
    exact ⟨f', List.mem_cons_of_mem _ hf', all⟩
  fun_induction dispatch p turns with
  | case1 p => exact absurd h List.not_mem_nil
  | case2 p f edits rest ready gone ih => exact tail ih h
  | case3 p f edits rest ready e found calls p' later ih =>
      rw [later] at ih
      rcases List.mem_cons.mp h with rfl | h
      · obtain ⟨fd, w⟩ := lookup_key found
        exact ⟨(f, edits), List.mem_cons_self .., ready, fd.symm, w.symm⟩
      · obtain ⟨f', hf', all⟩ := ih h
        exact ⟨f', List.mem_cons_of_mem _ hf', all⟩
  | case4 p f edits rest idle ih => exact tail ih h

theorem Valid.lookup_mem {p : Poller κ} (v : p.Valid) {e : Registration κ} (he : e ∈ p.fds) :
    p.lookup e.fd e.writable = some e := by
  have sole := v.sole
  rw [lookup]
  generalize p.fds = es at sole he
  induction es with
  | nil => exact absurd he List.not_mem_nil
  | cons e' es ih =>
      obtain ⟨alone, rest⟩ := List.pairwise_cons.mp sole
      rw [find_cons]
      rcases List.mem_cons.mp he with rfl | he
      · exact if_pos ⟨rfl, rfl⟩
      · rw [if_neg (alone e he)]
        exact ih rest he

theorem mem_polled {p : Poller κ} {turn : Nat → Bool × List (Edit κ)}
    {f : PollFd × List (Edit κ)} (h : f ∈ p.polled turn) :
    ∃ i e, p.fds[i]? = some e ∧ e ∈ p.fds ∧ f = (⟨e.fd, e.writable, (turn i).1⟩, (turn i).2) := by
  obtain ⟨i, hi, rfl⟩ := List.mem_mapIdx.mp h
  exact ⟨i, p.fds[i], List.getElem?_eq_getElem hi, List.getElem_mem hi, rfl⟩

theorem Valid.fresh_iff {p : Poller κ} (v : p.Valid) {turn : Nat → Bool × List (Edit κ)}
    {c : Registration κ} (h : c ∈ (p.round turn).1) :
    Fresh p turn c ↔ (p.lookup c.fd c.writable).map (·.serial) = some c.serial := by
  constructor
  · rintro ⟨i, e, at_, -, fd, w, serial⟩
    rw [← fd, ← w, v.lookup_mem (List.mem_of_getElem? at_), ← serial]
    rfl
  · intro same
    obtain ⟨f, hf, ready, fd, w⟩ := dispatch_ready h
    obtain ⟨i, e, at_, he, rfl⟩ := mem_polled hf
    simp only at fd w ready
    rw [← fd, ← w, v.lookup_mem he, Option.map_some, Option.some.injEq] at same
    exact ⟨i, e, at_, ready, fd, w, same⟩

/-- In every round the calls are all for registrations that were there when poll reported on
them, unless a reported one is renewed before its turn. -/
theorem round_fresh_iff {p : Poller κ} (reached : Reach step anyStep {} p)
    (turn : Nat → Bool × List (Edit κ)) : (∀ c ∈ (p.round turn).1, Fresh p turn c) ↔
      NoneRenewed (fun _ _ => .kept) (p.polled turn) := by
  have v := valid_of_reach reached
  have asked : ∀ f ∈ p.polled turn,
      ∃ s < p.next, (p.lookup f.1.fd f.1.writable).map (·.serial) = some s := by
    intro f hf
    obtain ⟨i, e, -, he, rfl⟩ := mem_polled hf
    exact ⟨e.serial, v.known e he, by rw [v.lookup_mem he]; rfl⟩
  have tracked : ∀ f ∈ p.polled turn, Tracked p.next
      ((p.lookup f.1.fd f.1.writable).map (·.serial)) (p.lookup f.1.fd f.1.writable) .kept :=
    fun _ _ => rfl
  have old := dispatch_old_iff (fun fd w => (p.lookup fd w).map (·.serial)) (fun _ _ => .kept) v
    (Nat.le_refl p.next) asked tracked
  rw [← old]
  exact forall₂_congr fun c hc => v.fresh_iff hc

/-- Three descriptors. -/
def three : Poller Nat := ⟨[⟨3, false, 0, 0⟩, ⟨4, false, 0, 1⟩, ⟨5, false, 0, 2⟩], 3⟩

/-- The callback of 3 gives 4 another one, and drops 5. -/
def edited (i : Nat) : Bool × List (Edit Nat) :=
  (true, if i = 0 then [.set 4 9 false, .remove 5] else [])

theorem round_fresh_edited : (three.round edited).1.map (fun c => (c.fd, c.cb)) = [(3, 0), (4, 9)] ∧
    ∀ c ∈ (three.round edited).1, Fresh three edited c := by
  have reached : Reach step anyStep {} three :=
    .next (.next (.next .start trivial (a := .edit (.set 3 0 false)) rfl) trivial
      (a := .edit (.set 4 0 false)) rfl) trivial (a := .edit (.set 5 0 false)) rfl
  exact ⟨by decide, (round_fresh_iff reached edited).mpr trivial⟩

/-- The callback of 3 drops 4 and registers a descriptor that got its number. -/
theorem renewed_called : ¬ ∀ p : Poller Nat, Reach step anyStep {} p →
    ∀ turn, ∀ c ∈ (p.round turn).1, Fresh p turn c := by
  intro all
  have reached : Reach step anyStep ({} : Poller Nat)
      ⟨[⟨3, false, 0, 0⟩, ⟨4, false, 0, 1⟩], 2⟩ :=
    .next (.next .start trivial (a := .edit (.set 3 0 false)) rfl) trivial
      (a := .edit (.set 4 0 false)) rfl
  obtain ⟨i, e, at_, -, -, -, serial⟩ := all _ reached
    (fun i => (true, if i = 0 then [.remove 4, .set 4 7 false] else [])) ⟨4, false, 7, 2⟩
    (by simp [round, polled, dispatch, lookup, edit, remove, set, replaceCb, Registration.is])
  have known := (valid_of_reach reached).known e (List.mem_of_getElem? at_)
  rw [serial] at known
  exact Nat.lt_irrefl 2 known

end Poller
end Splice.Net
