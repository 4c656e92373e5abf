import Splice.Peer.Arrival

/-!
A SHARE_FILE into a directory where nothing is in the way of its entries: how much of each the
receiver has is a matter of the directory as it was, so all that the sender will say is known from
the start. What the receiver makes of it, and that the sender says just that.
-/

namespace Splice.Peer
open Lib FileSystem

/-! ## The names of the entries -/

namespace SourceFs
variable {src : SourceFs}

theorem names_append (pre : Bytes) {cs : List Name} (h : ∀ c ∈ cs, Plain c) :
    namesOf (pre ++ below cs) = namesOf pre ++ cs := by
  induction cs using List.reverseRecOn with
  | nil => rw [below, List.flatMap_nil, List.append_nil, List.append_nil]
  | append_singleton cs c ih =>
      have split : pre ++ below (cs ++ [c]) = (pre ++ below cs) ++ slash :: c := by simp [below]
      obtain ⟨some, noDot, noUp, noSlash⟩ := h c (List.mem_append_right _ List.mem_cons_self)
      have one : namesOf ((pre ++ below cs) ++ slash :: c) = namesOf (pre ++ below cs) ++ [c] := by
        rw [namesOf, comps_append_slash, comps_of_notMem noSlash, List.filter_append]
        simp [namesOf, some, noDot, noUp]
      rw [split, one, ih fun x hx => h x (List.mem_append_left _ hx), List.append_assoc]

theorem plain_namesOf {rel : Bytes} (text : 0 ∉ rel) : ∀ c ∈ namesOf rel, Plain c ∧ 0 ∉ c := by
  intro c hc
  obtain ⟨hmem, hkept⟩ := List.mem_filter.mp hc
  simp only [Bool.not_eq_true', Bool.or_eq_false_iff, decide_eq_false_iff_not] at hkept
  exact ⟨⟨hkept.1.1, hkept.1.2, hkept.2, slash_notMem_comps hmem⟩,
    fun h0 => text (mem_of_mem_comps hmem h0)⟩

/-- A directory is sent in the order of its names. -/
theorem sortedNames_ordered (src : SourceFs) (dir : Bytes) :
    (src.sortedNames dir).Pairwise fun a b => compare a b = .lt := by
  have total : ∀ a b : Name, (compare a b).isLE ∨ (compare b a).isLE := by
    intro a b
    have swap : compare a b = (compare b a).swap := Std.OrientedCmp.eq_swap
    rw [swap]
    cases compare b a <;> simp
  have sorted : (src.sortedNames dir).Pairwise fun a b => (compare a b).isLE :=
    haveI : Std.Total fun a b : Name => (compare a b).isLE = true := ⟨total⟩
    haveI : IsTrans Name fun a b => (compare a b).isLE = true :=
      ⟨fun _ _ _ => Std.TransCmp.isLE_trans⟩
    List.pairwise_insertionSort _ _
  have distinct : (src.sortedNames dir).Nodup := by
    refine (List.perm_insertionSort _ _).nodup_iff.mpr ?_
    cases h : src.readdir dir with
    | none => exact List.nodup_nil
    | some names => exact src.names_nodup h
  refine (sorted.and distinct).imp ?_
  rintro a b ⟨le, ne⟩
  cases order : compare a b with
  | lt => rfl
  | eq => exact absurd (Std.LawfulEqCmp.compare_eq_iff_eq.mp order) ne
  | gt =>
      rw [order] at le
      cases le

theorem sortedNames_plain {dir : Bytes} {n : Name} (h : n ∈ src.sortedNames dir) :
    Plain n ∧ 0 ∉ n := by
  have listed := (List.perm_insertionSort _ _).mem_iff.mp h
  cases hd : src.readdir dir with
  | none =>
      rw [hd] at listed
      cases listed
  | some names =>
      rw [hd] at listed
      exact src.names_plain hd n listed

/-- What is found under one name of a directory. -/
def found (src : SourceFs) (fuel : Nat) (dir pre : Bytes) (n : Name) : List Entry :=
  match src.stat (dir ++ slash :: n) with
  | some .dir => src.walk fuel (dir ++ slash :: n) (pre ++ slash :: n)
  | some (.reg size) =>
      [{ relpath := pre ++ slash :: n, abspath := dir ++ slash :: n, size }]
  | some .other | none => []

theorem walk_succ (src : SourceFs) (fuel : Nat) (dir pre : Bytes) :
    src.walk (fuel + 1) dir pre = (src.sortedNames dir).flatMap (src.found fuel dir pre) :=
  rfl

theorem found_names {fuel : Nat} {dir pre : Bytes} {n : Name} (plain : Plain n) :
    ∀ en ∈ src.found fuel dir pre n, ∃ cs, namesOf en.relpath = namesOf pre ++ n :: cs := by
  intro en hen
  have one : namesOf (pre ++ slash :: n) = namesOf pre ++ [n] := by
    have below_ : namesOf (pre ++ below [n]) = namesOf pre ++ [n] :=
      names_append pre (by simpa using plain)
    simpa [below] using below_
  rw [found] at hen
  split at hen
  · obtain ⟨cs, -, all, rel, -⟩ := walk_spec _ _ _ en hen
    refine ⟨cs, ?_⟩
    rw [rel, names_append _ fun c hc => (all c hc).1, one, List.append_assoc]
    rfl
  · rw [List.mem_singleton] at hen
    subst hen
    exact ⟨[], one⟩
  · cases hen
  · cases hen

theorem walk_ordered (src : SourceFs) (fuel : Nat) (dir pre : Bytes) :
    (src.walk fuel dir pre).Pairwise fun a b =>
      Before (namesOf a.relpath) (namesOf b.relpath) := by
  induction fuel generalizing dir pre with
  | zero => exact .nil
  | succ fuel ih =>
      rw [walk_succ, List.pairwise_flatMap]
      refine ⟨fun n _ => ?_, (sortedNames_ordered src dir).imp_of_mem ?_⟩
      · rw [found]
        split
        · exact ih _ _
        · exact List.pairwise_singleton _ _
        · exact .nil
        · exact .nil
      · intro a b ha hb less x hx y hy
        obtain ⟨r, hr⟩ := found_names (sortedNames_plain ha).1 x hx
        obtain ⟨r', hr'⟩ := found_names (sortedNames_plain hb).1 y hy
        exact ⟨namesOf pre, a, r, b, r', hr, hr', less⟩

/-! ## What is said and what comes of it -/

/-- What a file holds, as far as it can be read. -/
def bytesOf (src : SourceFs) (en : Entry) : Bytes := (src.content en.abspath).getD []

def offerOf (src : SourceFs) (en : Entry) : Bytes :=
  headerLine en.size (src.crc32File en.abspath en.size) en.relpath ++ [newline]

end SourceFs

namespace Entry

/-- The directories a file is put in, and its own name. -/
def way (en : Entry) : List Name := (namesOf en.relpath).dropLast

def name (en : Entry) : Name := (namesOf en.relpath).getLastD []

theorem names_eq {en : Entry} (named : namesOf en.relpath ≠ []) :
    namesOf en.relpath = en.way ++ [en.name] := by
  rw [way, name, List.getLastD_eq_getLast?, List.getLast?_eq_some_getLast named, Option.getD_some,
    List.dropLast_append_getLast]

end Entry

namespace SourceFs
variable {src : SourceFs} {T : List Name → Option Bytes} {D : List Name → Prop} {en : Entry}
  {ens ens' : List Entry} {overwrite : Bool}

/-- How much of an entry the receiver has. -/
def keptOf (src : SourceFs) (T : List Name → Option Bytes) (en : Entry) : Nat :=
  keptAt T en.way en.name (src.bytesOf en).length (crc32Update 0 (src.bytesOf en)) en.relpath

/-- The files below the target with one more, and with many more. -/
def after (src : SourceFs) (T : List Name → Option Bytes) (en : Entry) : List Name → Option Bytes :=
  placed T en.way en.name (src.bytesOf en)

def afterAll (src : SourceFs) (T : List Name → Option Bytes) (ens : List Entry) :
    List Name → Option Bytes := ens.foldl src.after T

def withWay (D : List Name → Prop) (en : Entry) (k : List Name) : Prop := D k ∨ k <+: en.way

/-- All that is said of the entries. -/
def streamOf (src : SourceFs) (T : List Name → Option Bytes) : List Entry → Bytes
  | [] => []
  | en :: ens => src.offerOf en ++ ((src.bytesOf en).drop (src.keptOf T en) ++
      src.streamOf (src.after T en) ens)

def wholeOf (src : SourceFs) (T : List Name → Option Bytes) (ens : List Entry) : Bytes :=
  src.streamOf T ens ++ (endLine ++ [newline])

/-- Each entry finds nothing in its way when its turn comes. -/
def Passable (src : SourceFs) (overwrite : Bool) :
    (List Name → Option Bytes) → (List Name → Prop) → List Entry → Prop
  | _, _, [] => True
  | T, D, en :: ens => Placeable overwrite T D en.way en.name (src.bytesOf en) ∧
      Passable src overwrite (src.after T en) (withWay D en) ens

/-- Entries that can be read and announced. -/
structure Sendable (src : SourceFs) (ens : List Entry) : Prop where
  sound : ∀ en ∈ ens, en.Sound
  readable : ∀ en ∈ ens, src.content en.abspath = some (src.bytesOf en)
  length : ∀ en ∈ ens, (src.bytesOf en).length = en.size
  named : ∀ en ∈ ens, namesOf en.relpath ≠ []

theorem streamOf_append (src : SourceFs) (T : List Name → Option Bytes) (a b : List Entry) :
    src.streamOf T (a ++ b) = src.streamOf T a ++ src.streamOf (src.afterAll T a) b := by
  induction a generalizing T with
  | nil => rfl
  | cons en a ih =>
      rw [List.cons_append, streamOf, ih, streamOf, afterAll, afterAll, List.foldl_cons]
      simp only [List.append_assoc]

theorem afterAll_append (T : List Name → Option Bytes) (a b : List Entry) :
    src.afterAll T (a ++ b) = src.afterAll (src.afterAll T a) b :=
  List.foldl_append

/-- The ways of many entries. -/
def withWays (D : List Name → Prop) (ens : List Entry) : List Name → Prop := ens.foldl withWay D

theorem passable_append {a b : List Entry} : src.Passable overwrite T D (a ++ b) ↔
    src.Passable overwrite T D a ∧
      src.Passable overwrite (src.afterAll T a) (withWays D a) b := by
  induction a generalizing T D with
  | nil => exact (true_and _).symm ▸ Iff.rfl
  | cons en a ih =>
      rw [List.cons_append, Passable, ih, Passable, and_assoc]
      rfl

theorem keptOf_le (src : SourceFs) (T : List Name → Option Bytes) (en : Entry) :
    src.keptOf T en ≤ (src.bytesOf en).length := by
  rw [keptOf, keptAt]
  split
  · rename_i used
    exact used.2.2.2
  · exact Nat.zero_le _

/-- An entry changes nothing but its own name and the two beside it. -/
theorem after_of_ne {k : List Name} (own : k ≠ en.way ++ [en.name])
    (part : k ≠ en.way ++ [partOf en.name]) (meta_ : k ≠ en.way ++ [metaOf en.name]) :
    src.after T en k = T k := by
  rw [after, placed, Function.update_of_ne own, Function.update_of_ne meta_,
    Function.update_of_ne part]

theorem after_self : src.after T en (en.way ++ [en.name]) = some (src.bytesOf en) :=
  Function.update_self ..

/-- Nothing is left beside it. -/
theorem after_beside : src.after T en (en.way ++ [partOf en.name]) = none ∧
    src.after T en (en.way ++ [metaOf en.name]) = none := by
  obtain ⟨differ, differ', differ''⟩ := names_differ en.name
  constructor
  · rw [after, placed, Function.update_of_ne (by simpa using differ),
      Function.update_of_ne (by simpa using differ''.symm), Function.update_self]
  · rw [after, placed, Function.update_of_ne (by simpa using differ'), Function.update_self]

/-- No other file comes. -/
theorem after_some {k : List Name} {b : Bytes} (h : src.after T en k = some b) :
    k = en.way ++ [en.name] ∧ b = src.bytesOf en ∨ T k = some b := by
  by_cases own : k = en.way ++ [en.name]
  · subst own
    exact .inl ⟨rfl, (Option.some.inj (after_self.symm.trans h)).symm⟩
  · refine .inr ?_
    by_cases part : k = en.way ++ [partOf en.name]
    · rw [part, after_beside.1] at h
      cases h
    · by_cases meta_ : k = en.way ++ [metaOf en.name]
      · rw [meta_, after_beside.2] at h
        cases h
      · rwa [after_of_ne own part meta_] at h

theorem afterAll_some {k : List Name} {b : Bytes} (h : src.afterAll T ens k = some b) :
    (∃ en ∈ ens, k = en.way ++ [en.name] ∧ b = src.bytesOf en) ∨ T k = some b := by
  induction ens generalizing T with
  | nil => exact .inr h
  | cons en ens ih =>
      rcases ih h with ⟨a, ha, same⟩ | before
      · exact .inl ⟨a, List.mem_cons_of_mem en ha, same⟩
      · rcases after_some before with same | before
        · exact .inl ⟨en, List.mem_cons_self, same⟩
        · exact .inr before

/-- In the order in which a directory is walked. -/
def Ordered (ens : List Entry) : Prop :=
  ens.Pairwise fun a b => Before (namesOf a.relpath) (namesOf b.relpath)

/-- What has come before is not touched. -/
theorem afterAll_of_before {k : List Name}
    (before : ∀ b ∈ ens, Before k (b.way ++ [b.name])) : src.afterAll T ens k = T k := by
  induction ens generalizing T with
  | nil => rfl
  | cons b ens ih =>
      have h := before b List.mem_cons_self
      have beside : ∀ s, k ≠ b.way ++ [b.name ++ s] := fun s same =>
        h.beside s (same ▸ List.prefix_rfl)
      have first : src.after T b k = T k := after_of_ne h.ne (beside _) (beside _)
      exact (ih fun b hb => before b (List.mem_cons_of_mem _ hb)).trans first

theorem afterAll_mem (ordered : Ordered ens) (named : ∀ en ∈ ens, namesOf en.relpath ≠ [])
    (h : en ∈ ens) : src.afterAll T ens (en.way ++ [en.name]) = some (src.bytesOf en) := by
  induction ens generalizing T with
  | nil => cases h
  | cons a ens ih =>
      obtain ⟨first, ordered⟩ := List.pairwise_cons.mp ordered
      rcases List.mem_cons.mp h with rfl | h
      · have kept : src.afterAll (src.after T en) ens (en.way ++ [en.name]) =
            src.after T en (en.way ++ [en.name]) := by
          refine afterAll_of_before fun b hb => ?_
          rw [← Entry.names_eq (named en List.mem_cons_self),
            ← Entry.names_eq (named b (List.mem_cons_of_mem en hb))]
          exact first b hb
        exact kept.trans after_self
      · exact ih ordered (fun b hb => named b (List.mem_cons_of_mem a hb)) h

theorem Sendable.sub (s : src.Sendable ens') (h : ∀ en ∈ ens, en ∈ ens') : src.Sendable ens where
  sound en hen := s.sound en (h en hen)
  readable en hen := s.readable en (h en hen)
  length en hen := s.length en (h en hen)
  named en hen := s.named en (h en hen)

/-- An offer that is read back as it was made. -/
structure OfferedAs (src : SourceFs) (en : Entry) (x : Bytes) : Prop where
  offer : src.offerOf en = headerLine x.length (crc32Update 0 x) en.relpath ++ [newline]
  plain : newline ∉ headerLine x.length (crc32Update 0 x) en.relpath
  short : (headerLine x.length (crc32Update 0 x) en.relpath).length ≤ GetFileEnd.maxHeader
  parsed : parseHeader (headerLine x.length (crc32Update 0 x) en.relpath) =
    some (x.length, crc32Update 0 x, en.relpath)

theorem Sendable.offeredAs (s : src.Sendable ens) (h : en ∈ ens) :
    src.OfferedAs en (src.bytesOf en) := by
  have ok := s.sound en h
  have size : (src.bytesOf en).length = en.size := s.length en h
  have sum : src.crc32File en.abspath en.size = crc32Update 0 (src.bytesOf en) := by
    rw [crc32File, s.readable en h, Option.getD_some, List.take_of_length_le (Nat.le_of_eq size)]
  refine ⟨by rw [offerOf, sum, size], fun hm => ok.plain (newline_mem_headerLine.mp hm), ?_,
    parseHeader_headerLine ?_ _ ok.text ok.some⟩
  · rw [size]
    exact Phase.headerLine_short ok _
  · rw [size]
    exact Nat.lt_trans ok.size (by decide)

end SourceFs

/-! ## The receiver on what is said -/

namespace GetFileEnd
variable {src : SourceFs} {e : GetFileEnd} {w : Files} {dir : Bytes} {overwrite : Bool} {d : Path}
  {T : List Name → Option Bytes} {D : List Name → Prop} {ens : List Entry} {en : Entry}

/-- Between two entries, with these files below the target. -/
structure Reached (dir : Bytes) (overwrite : Bool) (d : Path) (T : List Name → Option Bytes)
    (D : List Name → Prop) (e : GetFileEnd) (w : Files) : Prop
    extends Between dir overwrite e w where
  shows : Shows dir d T D w.fs

section Reached
variable (r : Reached dir overwrite d T D e w) (ht : dir ≠ []) (text : 0 ∉ dir)
include r ht text

/-- The next entry. -/
theorem Reached.next (s : src.Sendable [en])
    (p : Placeable overwrite T D en.way en.name (src.bytesOf en)) (rest : Bytes) :
    ∃ e' w', Reached dir overwrite d (src.after T en) (SourceFs.withWay D en) e' w' ∧
      e'.files = e.files + 1 ∧ e.onTunnelData w (src.offerOf en ++ ((src.bytesOf en).drop (src.keptOf T en) ++ rest)) =
        e'.onTunnelData w' rest := by
  obtain ⟨offer, plain, short, parsed⟩ := s.offeredAs List.mem_cons_self
  obtain ⟨e', w', between, shows, files, taken⟩ := r.entry r.shows ht text p
    (Entry.names_eq (s.named en List.mem_cons_self)) plain short parsed rest
  refine ⟨e', w', ⟨between, shows⟩, files, ?_⟩
  rw [offer, List.append_assoc, List.singleton_append]
  exact taken

theorem Reached.entries (s : src.Sendable ens) (p : src.Passable overwrite T D ens)
    (rest : Bytes) : ∃ e' w',
      Reached dir overwrite d (src.afterAll T ens) (SourceFs.withWays D ens) e' w' ∧
      e'.files = e.files + ens.length ∧ e.onTunnelData w (src.streamOf T ens ++ rest) = e'.onTunnelData w' rest := by
  induction ens generalizing e w T D with
  | nil => exact ⟨e, w, r, rfl, rfl⟩
  | cons en ens ih =>
      obtain ⟨e₁, w₁, r₁, one, first⟩ := r.next ht text
        (s.sub fun _ h => List.mem_singleton.mp h ▸ List.mem_cons_self) p.1
        (src.streamOf (src.after T en) ens ++ rest)
      obtain ⟨e', w', r', more, others⟩ := ih r₁ (s.sub fun _ => List.mem_cons_of_mem en) p.2
      refine ⟨e', w', r', by rw [more, one, List.length_cons, Nat.add_assoc, Nat.add_comm 1], ?_⟩
      rw [← others, ← first, SourceFs.streamOf]
      simp only [List.append_assoc]

end Reached

/-- What is asked for: an entry from `off` on. -/
structure Asks (e : GetFileEnd) (off size : Nat) : Prop where
  err : e.err = []
  rest : off = size ∧ e.state = .header ∨ e.state = .recv ∧ e.got = off ∧ e.size = size

section Reached
variable (r : Reached dir overwrite d T D e w) (ht : dir ≠ []) (text : 0 ∉ dir)
include r ht text

theorem Reached.asks (s : src.Sendable [en])
    (p : Placeable overwrite T D en.way en.name (src.bytesOf en)) :
    Asks (e.onTunnelData w (src.offerOf en)).1 (src.keptOf T en) en.size := by
  obtain ⟨offer, plain, short, parsed⟩ := s.offeredAs List.mem_cons_self
  have named := Entry.names_eq (s.named en List.mem_cons_self)
  have size := s.length en List.mem_cons_self
  have within := src.keptOf_le T en
  by_cases none : (src.bytesOf en).drop (src.keptOf T en) = []
  · obtain ⟨e', w', between, -, -, taken⟩ := r.entry r.shows ht text p named plain short parsed []
    rw [show (src.bytesOf en).drop (keptAt T en.way en.name _ _ en.relpath) = [] from none,
      List.append_nil, onTunnelData_nil] at taken
    have all := List.drop_eq_nil_iff.mp none
    rw [offer, taken]
    exact ⟨between.err, .inl ⟨by omega, between.header⟩⟩
  · obtain ⟨e', w', taken, -, taking⟩ := r.partway r.shows ht text p named plain short parsed
      (z := []) List.nil_prefix (Ne.symm none)
    have got := taking.got
    rw [List.append_nil, List.length_take] at got
    rw [offer, taken]
    exact ⟨taking.err, .inr ⟨taking.recv, got.trans (Nat.min_eq_left within),
      taking.size.trans size⟩⟩

/-- All of it. -/
theorem Reached.whole (s : src.Sendable ens) (p : src.Passable overwrite T D ens) :
    ∃ e' w', e.onTunnelData w (src.wholeOf T ens) = (e', w') ∧ e'.err = [] ∧ e'.file = none ∧
      Shows dir d (src.afterAll T ens) (SourceFs.withWays D ens) w'.fs ∧
      e'.files = e.files + ens.length := by
  obtain ⟨e₁, w₁, r₁, files, all⟩ := r.entries ht text s p (endLine ++ [newline])
  have scan : scanHeader [] (endLine ++ newline :: []) = .line endLine [] :=
    scanHeader_whole (by decide) (by decide) []
  have round : e₁.round w₁ (endLine ++ [newline]) =
      (({ e₁ with hdr := [], done := true, state := .done, shut := true }, w₁), []) := by
    rw [round_header r₁.header, r₁.hdr, scan]
    rfl
  refine ⟨{ e₁ with hdr := [], done := true, state := .done, shut := true }, w₁, ?_, r₁.err,
    r₁.closed, r₁.shows, files⟩
  rw [SourceFs.wholeOf, all, r₁.ready.onTunnelData w₁ (by simp) r₁.going r₁.err, round,
    onTunnelData_nil]

/-- Nothing goes wrong on the way. -/
theorem Reached.fine (s : src.Sendable ens) (p : src.Passable overwrite T D ens) {x : Bytes}
    (hx : x <+: src.wholeOf T ens) : (e.onTunnelData w x).1.err = [] := by
  obtain ⟨y, whole⟩ := hx
  obtain ⟨e', w', all, err, -⟩ := r.whole ht text s p
  have same := r.ready.append r.granted.writes x y
  rw [whole, all] at same
  by_contra failed
  rw [onTunnelData_stopped (.inr failed)] at same
  exact failed ((same.field GetFileEnd.err fun _ => rfl).trans err)

end Reached
end GetFileEnd

/-! ## The sender says just that -/

/-- What has been said, by where the sender is. -/
inductive SaidSoFar (src : SourceFs) (T : List Name → Option Bytes) (s : ShareFileEnd) : Bytes → Prop
  | offered {en : Entry} (state : s.state = .waitResume) (at_ : s.entries[s.idx]? = some en) :
      SaidSoFar src T s (src.streamOf T (s.entries.take s.idx) ++ src.offerOf en)
  | streaming {en : Entry} {off n : Nat} (state : s.state = .stream)
      (at_ : s.entries[s.idx]? = some en)
      (begun : off = src.keptOf (src.afterAll T (s.entries.take s.idx)) en)
      (file : s.file = some (en.abspath, off + n)) (left : s.remaining = en.size - (off + n))
      (within : off + n ≤ en.size) :
      SaidSoFar src T s (src.streamOf T (s.entries.take s.idx) ++ (src.offerOf en ++
        ((src.bytesOf en).drop off).take n))
  | ended (state : s.state = .done) : SaidSoFar src T s (src.wholeOf T s.entries)

namespace SaidSoFar
variable {src : SourceFs} {T : List Name → Option Bytes} {s : ShareFileEnd} {said : Bytes}
  {room : List Bool} {r : ShareFileEnd × List Sent}

theorem split_at {ens : List Entry} {i : Nat} {en : Entry} (h : ens[i]? = some en) :
    ens.take (i + 1) = ens.take i ++ [en] ∧ ens = ens.take (i + 1) ++ ens.drop (i + 1) := by
  obtain ⟨within, rfl⟩ := List.getElem?_eq_some_iff.mp h
  exact ⟨List.take_succ_eq_append_getElem within, (List.take_append_drop _ _).symm⟩

/-- Past one entry more. -/
theorem stream_succ {ens : List Entry} {i : Nat} {en : Entry} (h : ens[i]? = some en) :
    src.streamOf T (ens.take (i + 1)) = src.streamOf T (ens.take i) ++ (src.offerOf en ++
      (src.bytesOf en).drop (src.keptOf (src.afterAll T (ens.take i)) en)) := by
  rw [(split_at h).1, SourceFs.streamOf_append]
  simp [SourceFs.streamOf]

/-- Nothing else is ever said. -/
theorem within_whole (t : SaidSoFar src T s said) : said <+: src.wholeOf T s.entries := by
  have upTo : ∀ {en : Entry} {x : Bytes}, s.entries[s.idx]? = some en →
      x <+: src.offerOf en ++
        (src.bytesOf en).drop (src.keptOf (src.afterAll T (s.entries.take s.idx)) en) →
      src.streamOf T (s.entries.take s.idx) ++ x <+: src.wholeOf T s.entries := by
    intro en x at_ hx
    have whole := src.streamOf_append T (s.entries.take (s.idx + 1)) (s.entries.drop (s.idx + 1))
    rw [← (split_at at_).2, stream_succ at_] at whole
    rw [SourceFs.wholeOf, whole, List.append_assoc, List.append_assoc,
      List.prefix_append_right_inj]
    exact hx.trans (List.prefix_append _ _)
  cases t with
  | offered _ at_ => exact upTo at_ (List.prefix_append _ _)
  | streaming _ at_ begun =>
      subst begun
      exact upTo at_ ((List.prefix_append_right_inj _).mpr (List.take_prefix _ _))
  | ended => exact List.prefix_rfl

theorem pumpOffer (src : SourceFs) (T : List Name → Option Bytes) (s : ShareFileEnd) :
    SaidSoFar src T (ShareFileEnd.pumpOffer src s).1 (src.streamOf T (s.entries.take s.idx) ++
      Sent.encodeAll (ShareFileEnd.pumpOffer src s).2) ∧
      (ShareFileEnd.pumpOffer src s).1.entries = s.entries := by
  rw [ShareFileEnd.pumpOffer]
  cases hen : s.entries[s.idx]? with
  | none =>
      refine ⟨?_, rfl⟩
      rw [List.take_of_length_le (List.getElem?_eq_none_iff.mp hen)]
      have said : Sent.encodeAll [.finish] = endLine ++ [newline] := List.append_nil _
      rw [said]
      exact .ended rfl
  | some en =>
      refine ⟨?_, rfl⟩
      have said : Sent.encodeAll [.offer en.size (src.crc32File en.abspath en.size) en.relpath] =
          src.offerOf en := List.append_nil _
      rw [said]
      exact .offered rfl hen

/-- A turn of streaming; the files are as long as they were. -/
theorem pumpStream (t : SaidSoFar src T s said) (ok : src.Sendable s.entries)
    (state : s.state = .stream) (err : s.err = [])
    (h : ShareFileEnd.pumpStream src room s = some r) :
    SaidSoFar src T r.1 (said ++ Sent.encodeAll r.2) ∧ r.1.err = [] ∧ r.1.entries = s.entries := by
  cases t with
  | offered other => exact absurd (state.symm.trans other) (by simp)
  | ended other => exact absurd (state.symm.trans other) (by simp)
  | @streaming en off n _ at_ begun file left within =>
      have unread : ShareFileEnd.unread src s = (src.bytesOf en).drop (off + n) := by
        rw [ShareFileEnd.unread, file]
        rfl
      have length := ok.length en (List.mem_of_getElem? at_)
      obtain ⟨bs, read, streamed⟩ := ShareFileEnd.pumpStream_spec h
      rw [unread] at read
      have more : ((src.bytesOf en).drop off).take n ++ bs.flatten =
          ((src.bytesOf en).drop off).take (n + bs.flatten.length) := by
        rw [List.take_add, List.drop_drop, ← List.prefix_iff_eq_take.mp read]
      cases streamed with
      | blocked rest =>
          refine ⟨?_, err, rfl⟩
          rw [Phase.encodeAll_bodies, List.append_assoc, List.append_assoc, more]
          refine .streaming state at_ begun ?_ ?_ ?_
          · simp only [ShareFileEnd.advance, file, Option.map_some, Nat.add_assoc]
          · simp only [ShareFileEnd.advance, left]
            omega
          · omega
      | short rest ends =>
          rw [unread] at ends
          have := congrArg List.length ends
          rw [List.length_drop] at this
          omega
      | through all =>
          have whole : ((src.bytesOf en).drop off).take (n + bs.flatten.length) =
              (src.bytesOf en).drop off := by
            refine List.take_of_length_le ?_
            rw [List.length_drop]
            omega
          obtain ⟨next, same⟩ := pumpOffer src T
            { s.advance bs.flatten.length with file := none, idx := s.idx + 1 }
          refine ⟨?_, ?_, same⟩
          · rw [Phase.encodeAll_append, Phase.encodeAll_bodies, ← List.append_assoc,
              List.append_assoc (src.streamOf T _), List.append_assoc (src.offerOf en), more, whole,
              begun, ← stream_succ at_]
            exact next
          · obtain ⟨-, -, -, -, err', -⟩ := Phase.wrote_pumpOffer src
              { s.advance bs.flatten.length with file := none, idx := s.idx + 1 }
            exact err'.trans err

theorem states (t : SaidSoFar src T s said) :
    s.state = .waitResume ∨ s.state = .stream ∨ s.state = .done := by
  cases t with
  | offered state => exact .inl state
  | streaming state => exact .inr (.inl state)
  | ended state => exact .inr (.inr state)

theorem pump (t : SaidSoFar src T s said) (ok : src.Sendable s.entries) (err : s.err = [])
    (h : s.pump src room = some r) :
    SaidSoFar src T r.1 (said ++ Sent.encodeAll r.2) ∧ r.1.err = [] ∧ r.1.entries = s.entries := by
  have idle : ∀ {q : Prop} [Decidable q], (if q then some (s, []) else none) = some r →
      SaidSoFar src T r.1 (said ++ Sent.encodeAll r.2) ∧ r.1.err = [] ∧ r.1.entries = s.entries := by
    intro q _ h
    split at h
    · cases h
      refine ⟨?_, err, rfl⟩
      rwa [show Sent.encodeAll [] = [] from rfl, List.append_nil]
    · cases h
  rw [ShareFileEnd.pump, if_neg (by simp [err])] at h
  rcases t.states with hs | hs | hs
  · rw [hs] at h
    exact idle h
  · rw [hs] at h
    exact t.pumpStream ok hs err h
  · rw [hs] at h
    exact idle h

/-- The number of an answer is read back. -/
theorem resume_number {off : Nat} (small : off < 2 ^ 64) :
    (strtoul 10 (cstr ((str "RESUME " ++ decimal off).drop 7))).1 = off := by
  have clean : 0 ∉ decimal off := fun hm => (text_decimal hm).1 rfl
  have text : (str "RESUME " ++ decimal off).drop 7 = decimal off := List.drop_left' rfl
  have read : strtoul 10 (decimal off ++ []) = (off, []) := strtoul_decimal small rfl
  rw [List.append_nil] at read
  rw [text, cstr_eq clean, read]

/-- The answer is complete or not. -/
theorem receive {b rest : Bytes} {en : Entry} {off : Nat} (state : s.state = .waitResume)
    (at_ : s.entries[s.idx]? = some en) (there : src.content en.abspath ≠ none)
    (within : off ≤ en.size) (small : en.size < 2 ^ 63)
    (answer : s.rbuf ++ (b ++ rest) = GetFileEnd.resumeLine off)
    (h : ShareFileEnd.receive src room s b = some r) :
    r = ({ s with rbuf := s.rbuf ++ b }, []) ∨
      ShareFileEnd.pump src room { s with
        rbuf := [], file := some (en.abspath, off), remaining := en.size - off,
        state := .stream } = some r := by
  have small' : off < 2 ^ 64 := Nat.lt_of_le_of_lt within (Nat.lt_trans small (by decide))
  induction b generalizing s with
  | nil =>
      simp only [ShareFileEnd.receive] at h
      split at h
      · cases h
        exact .inl (by rw [List.append_nil])
      · cases h
  | cons c b ih =>
      have whole : s.rbuf ++ [c] ++ (b ++ rest) = GetFileEnd.resumeLine off := by
        rw [← answer, List.append_assoc]
        rfl
      have short : (s.rbuf ++ [c]).length ≤ 64 := by
        have length := congrArg List.length whole
        have digits : (decimal off).length ≤ 20 :=
          length_decimal_le (by decide) (Nat.lt_trans small' (by decide))
        have magic : (str "RESUME ").length = 7 := rfl
        rw [GetFileEnd.resumeLine] at length
        simp only [List.length_append, magic, List.length_singleton] at length ⊢
        omega
      simp only [ShareFileEnd.receive] at h
      split at h
      · rename_i ends
        subst ends
        have empty := (Phase.resume_split whole).mp (List.mem_append_right _ List.mem_cons_self)
        rw [empty, List.append_nil] at whole
        have line : s.rbuf = str "RESUME " ++ decimal off := (List.append_inj' whole rfl).1
        rw [line] at h
        cases hc : src.content en.abspath with
        | none => exact absurd hc there
        | some bytes =>
            simp only [ShareFileEnd.resume, at_, if_pos (List.prefix_append _ _),
              resume_number small', hc, if_neg (Nat.not_lt.mpr within)] at h
            exact .inr h
      · rw [if_neg (Nat.not_lt.mpr short)] at h
        rcases ih (s := { s with rbuf := s.rbuf ++ [c] }) state at_ whole h with same | pumped
        · refine .inl (same.trans ?_)
          simp
        · exact .inr pumped

/-- As long as something is left and there is room, more is sent. -/
theorem more (t : SaidSoFar src T s said) (ok : src.Sendable s.entries) (state : s.state = .stream)
    (left : 0 < s.remaining) :
    ∃ room r, ShareFileEnd.pumpStream src room s = some r ∧ r.1.remaining < s.remaining := by
  cases t with
  | offered other => exact absurd (state.symm.trans other) (by simp)
  | ended other => exact absurd (state.symm.trans other) (by simp)
  | @streaming en off n _ at_ begun file remaining within =>
      have length := ok.length en (List.mem_of_getElem? at_)
      have unread : ShareFileEnd.unread src s = (src.bytesOf en).drop (off + n) := by
        rw [ShareFileEnd.unread, file]
        rfl
      have read : 0 < (ShareFileEnd.fread src s).length := by
        rw [ShareFileEnd.fread_eq, unread, List.length_take, List.length_drop]
        simp only [ShareFileEnd.kChunk]
        omega
      have some_ : ShareFileEnd.fread src s ≠ [] := List.length_pos_iff.mp read
      have turn : ∀ room, ShareFileEnd.pumpStream src (true :: room) s =
          (ShareFileEnd.pumpStream src room (s.advance (ShareFileEnd.fread src s).length)).map
            fun r => (r.1, .body (ShareFileEnd.fread src s) :: r.2) := by
        intro room
        rw [ShareFileEnd.pumpStream, if_neg (Nat.ne_of_gt left)]
        simp only [if_neg some_]
        rfl
      obtain ⟨room, r, rest, fewer⟩ : ∃ room r,
          ShareFileEnd.pumpStream src room (s.advance (ShareFileEnd.fread src s).length) = some r ∧
            r.1.remaining = s.remaining - (ShareFileEnd.fread src s).length := by
        by_cases last : (s.advance (ShareFileEnd.fread src s).length).remaining = 0
        · refine ⟨[], _, by rw [ShareFileEnd.pumpStream, if_pos last, if_pos rfl], ?_⟩
          rw [ShareFileEnd.pumpOffer]
          split
          · rfl
          · rfl
        · refine ⟨[false], _, by rw [ShareFileEnd.pumpStream, if_neg last, if_pos rfl], rfl⟩
      refine ⟨true :: room, _, by rw [turn, rest, Option.map_some], ?_⟩
      simp only
      omega

end SaidSoFar
end Splice.Peer
