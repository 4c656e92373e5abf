import Splice.Peer.Delivery
import Splice.Peer.Faults

/-!
Transfers that break off and are made again. What one of them leaves below the target is in no
later one's way: a file of an entry's name is replaced, if it may be, what lies beside it as its
`.part` is the beginning of the entry, and a `.part.meta` is read only beside that.
-/

namespace Splice.Peer
open Lib FileSystem

/-! ## What may have been left -/

/-- The other entry is not one of the two that lie beside this one while it comes, nor is it to lie
below one of them. -/
def Entry.Beside (en other : Entry) : Prop :=
  ¬ en.way ++ [partOf en.name] <+: namesOf other.relpath ∧
    ¬ en.way ++ [metaOf en.name] <+: namesOf other.relpath

instance (en other : Entry) : Decidable (en.Beside other) :=
  inferInstanceAs (Decidable (_ ∧ _))

/-- What transfers of these entries may have left below the target. -/
structure Leftover (src : SourceFs) (entries : List Entry) (T : List Name → Option Bytes)
    (D : List Name → Prop) : Prop where
  file : ∀ {k : List Name} {b : Bytes}, T k = some b → ∃ en ∈ entries,
    k = en.way ++ [en.name] ∨ k = en.way ++ [partOf en.name] ∧ b <+: src.bytesOf en ∨
      k = en.way ++ [metaOf en.name]
  dir : ∀ {k : List Name}, D k → k = [] ∨ ∃ en ∈ entries, k <+: en.way

/-- What transfers that brought so many files may have left. Before the first file only the first
entry has been begun. -/
structure Remains (src : SourceFs) (entries : List Entry) (files : Nat)
    (T : List Name → Option Bytes) (D : List Name → Prop) : Prop where
  left : Leftover src entries T D
  begun : files = 0 → Leftover src (entries.take 1) T D ∧
    ∀ en ∈ entries.take 1, T (en.way ++ [en.name]) = none

/-- Entries whose names tell them apart from each other and from what lies beside them. -/
structure Distinct (entries : List Entry) : Prop where
  ordered : SourceFs.Ordered entries
  named : ∀ en ∈ entries, namesOf en.relpath ≠ []
  beside : ∀ en ∈ entries, ∀ other ∈ entries, en.Beside other

section Distinct
variable {entries : List Entry} {en en' : Entry}

/-- No entry lies below another, or has its name. -/
theorem Distinct.eq_of_prefix (u : Distinct entries) (h : en ∈ entries) (h' : en' ∈ entries)
    (front : en.way ++ [en.name] <+: en'.way ++ [en'.name]) : en = en' := by
  have apart : entries.Pairwise fun a b => namesOf a.relpath <+: namesOf b.relpath → a = b :=
    u.ordered.imp fun before front => absurd front before.not_front
  have apart' : entries.Pairwise fun a b => namesOf b.relpath <+: namesOf a.relpath → b = a :=
    u.ordered.imp fun before front => absurd front before.not_extends
  rw [← Entry.names_eq (u.named en h), ← Entry.names_eq (u.named en' h')] at front
  exact apart.forall_of_forall_of_flip (fun _ _ _ => rfl) apart' h h' front

/-- What lies beside an entry is on the way to none. -/
theorem Distinct.not_front (u : Distinct entries) (h : en ∈ entries) (h' : en' ∈ entries) :
    ¬ en.way ++ [partOf en.name] <+: en'.way ++ [en'.name] ∧
      ¬ en.way ++ [metaOf en.name] <+: en'.way ++ [en'.name] := by
  rw [← Entry.names_eq (u.named en' h')]
  exact u.beside en h en' h'

/-- What the two beside a file are called. -/
theorem partOf_inj {c c' : Name} (h : partOf c = partOf c') : c = c' :=
  List.append_cancel_right h

theorem partOf_ne_metaOf (c c' : Name) : partOf c ≠ metaOf c' := by
  intro h
  have last := congrArg List.getLast? h
  simp [partOf, metaOf, str, List.getLast?_append] at last

end Distinct

section Leftover
variable {src : SourceFs} {entries ens : List Entry} {overwrite : Bool} {n : Nat}
  {T : List Name → Option Bytes} {D : List Name → Prop} {en : Entry}

/-- There is one first entry. -/
theorem eq_of_mem_take_one {en en' : Entry} (h : en ∈ entries.take 1) (h' : en' ∈ entries.take 1) :
    en = en' := by
  cases entries with
  | nil => cases h
  | cons a rest => exact (List.mem_singleton.mp h).trans (List.mem_singleton.mp h').symm

/-- Nothing of it is in an entry's way. -/
theorem Leftover.placeable (l : Leftover src entries T D) (u : Distinct entries)
    (h : en ∈ entries) (text : 0 ∉ en.relpath)
    (again : T (en.way ++ [en.name]) = none ∨ overwrite = true) :
    Placeable overwrite T D en.way en.name (src.bytesOf en) := by
  have named := Entry.names_eq (u.named en h)
  have noDir : ∀ {c : Name}, (∀ b ∈ entries, ¬ en.way ++ [c] <+: b.way) → ¬ D (en.way ++ [c]) := by
    intro c apart there
    rcases l.dir there with none_ | ⟨b, hb, inside⟩
    · simp at none_
    · exact apart b hb inside
  have short : ∀ b : Entry, b.way <+: b.way ++ [b.name] := fun b => List.prefix_append _ _
  refine ⟨?_, fun k hk => ?_, again, fun y hy => ?_, noDir fun b hb inside => ?_,
    noDir fun b hb inside => ?_, noDir fun b hb inside => ?_⟩
  · rw [← named]
    exact SourceFs.plain_namesOf text
  · by_contra there
    obtain ⟨y, hy⟩ := Option.ne_none_iff_exists'.mp there
    obtain ⟨b, hb, rfl | ⟨rfl, -⟩ | rfl⟩ := l.file hy
    · obtain rfl := u.eq_of_prefix hb h (hk.trans (short en))
      have := hk.length_le
      simp at this
    · exact (u.not_front hb h).1 (hk.trans (short en))
    · exact (u.not_front hb h).2 (hk.trans (short en))
  · obtain ⟨b, hb, same | ⟨same, front⟩ | same⟩ := l.file hy
    · exact absurd (same ▸ List.prefix_rfl) (u.not_front h hb).1
    · obtain ⟨way, last⟩ := List.append_inj' same rfl
      have name := partOf_inj (List.singleton_inj.mp last)
      obtain rfl := u.eq_of_prefix h hb (by rw [way, name])
      exact front
    · exact absurd (List.singleton_inj.mp (List.append_inj' same rfl).2) (partOf_ne_metaOf _ _)
  · obtain rfl := u.eq_of_prefix h hb (inside.trans (short b))
    have := inside.length_le
    simp at this
  · exact (u.not_front h hb).1 (inside.trans (short b))
  · exact (u.not_front h hb).2 (inside.trans (short b))

/-- One entry more. -/
theorem Leftover.after (l : Leftover src entries T D) (h : en ∈ entries) :
    Leftover src entries (src.after T en) (SourceFs.withWay D en) := by
  refine ⟨fun hk => ?_, fun hk => ?_⟩
  · rcases SourceFs.after_some hk with ⟨rfl, -⟩ | was
    · exact ⟨en, h, .inl rfl⟩
    · exact l.file was
  · exact hk.elim l.dir fun inside => .inr ⟨en, h, inside⟩

/-- An entry that has come in part. -/
theorem Leftover.partway (l : Leftover src entries T D) (h : en ∈ entries) {y text : Bytes}
    (front : y <+: src.bytesOf en) : Leftover src entries
      (Function.update (Function.update T (en.way ++ [partOf en.name]) (some y))
        (en.way ++ [metaOf en.name]) (some text)) (SourceFs.withWay D en) := by
  refine ⟨fun {k b} hk => ?_, fun hk => hk.elim l.dir fun inside => .inr ⟨en, h, inside⟩⟩
  by_cases meta_ : k = en.way ++ [metaOf en.name]
  · exact ⟨en, h, .inr (.inr meta_)⟩
  · rw [Function.update_of_ne meta_] at hk
    by_cases part : k = en.way ++ [partOf en.name]
    · subst part
      rw [Function.update_self] at hk
      cases hk
      exact ⟨en, h, .inr (.inl ⟨rfl, front⟩)⟩
    · rw [Function.update_of_ne part] at hk
      exact l.file hk

/-- So every entry can come again, if it may be replaced. -/
theorem Leftover.passable (l : Leftover src entries T D) (u : Distinct entries)
    (text : ∀ en ∈ entries, 0 ∉ en.relpath) (sub : ens ⊆ entries) :
    src.Passable true T D ens := by
  induction ens generalizing T D with
  | nil => trivial
  | cons en ens ih =>
      have h := sub List.mem_cons_self
      exact ⟨l.placeable u h (text en h) (.inr rfl),
        ih (l.after h) fun _ hb => sub (List.mem_cons_of_mem en hb)⟩

/-- Once all have come nothing else is left. -/
theorem Leftover.only (l : Leftover src entries T D) (u : Distinct entries) {k : List Name}
    {b : Bytes} (hk : src.afterAll T entries k = some b) :
    ∃ en ∈ entries, k = en.way ++ [en.name] := by
  -- what lies beside an entry goes with it and does not come back
  have gone : ∀ en ∈ entries, k ≠ en.way ++ [partOf en.name] ∧ k ≠ en.way ++ [metaOf en.name] := by
    intro en hen
    obtain ⟨front, rest, split⟩ := List.append_of_mem hen
    rw [split, SourceFs.afterAll_append, SourceFs.afterAll, List.foldl_cons] at hk
    have part : src.after (src.afterAll T front) en (en.way ++ [partOf en.name]) = none :=
      SourceFs.after_beside.1
    have meta_ : src.after (src.afterAll T front) en (en.way ++ [metaOf en.name]) = none :=
      SourceFs.after_beside.2
    rcases SourceFs.afterAll_some hk with ⟨a, ha, rfl, -⟩ | there
    · have mem : a ∈ entries := by
        rw [split]
        exact List.mem_append_right _ (List.mem_cons_of_mem en ha)
      have apart := u.not_front hen mem
      exact ⟨fun same => apart.1 (same ▸ List.prefix_rfl),
        fun same => apart.2 (same ▸ List.prefix_rfl)⟩
    · refine ⟨fun same => ?_, fun same => ?_⟩
      · rw [same, part] at there
        cases there
      · rw [same, meta_] at there
        cases there
  rcases SourceFs.afterAll_some hk with ⟨en, hen, same, -⟩ | there
  · exact ⟨en, hen, same⟩
  · obtain ⟨en, hen, same | ⟨same, -⟩ | same⟩ := l.file there
    · exact ⟨en, hen, same⟩
    · exact absurd same (gone en hen).1
    · exact absurd same (gone en hen).2

/-- The first entry alone is told apart from what lies beside it. -/
theorem distinct_first (ordered : SourceFs.Ordered entries)
    (named : ∀ en ∈ entries, namesOf en.relpath ≠ []) : Distinct (entries.take 1) := by
  have mem : ∀ en ∈ entries.take 1, en ∈ entries := fun _ => List.mem_of_mem_take
  refine ⟨ordered.sublist (List.take_sublist 1 entries), fun en h => named en (mem en h),
    fun en h other h' => ?_⟩
  obtain rfl := eq_of_mem_take_one h h'
  obtain ⟨part, meta_, -⟩ := names_differ en.name
  rw [Entry.Beside, Entry.names_eq (named en (mem en h))]
  refine ⟨fun front => part ?_, fun front => meta_ ?_⟩
  · exact List.singleton_inj.mp (List.append_inj' (front.eq_of_length (by simp)) rfl).2
  · exact List.singleton_inj.mp (List.append_inj' (front.eq_of_length (by simp)) rfl).2

/-- One file more. -/
theorem Remains.after (r : Remains src entries n T D) (h : en ∈ entries) :
    Remains src entries (n + 1) (src.after T en) (SourceFs.withWay D en) :=
  ⟨r.left.after h, fun none_ => absurd none_ (Nat.succ_ne_zero n)⟩

theorem Remains.partway (r : Remains src entries n T D) (h : en ∈ entries)
    (turn : n = 0 → en ∈ entries.take 1) {y text : Bytes} (front : y <+: src.bytesOf en) :
    Remains src entries n
      (Function.update (Function.update T (en.way ++ [partOf en.name]) (some y))
        (en.way ++ [metaOf en.name]) (some text)) (SourceFs.withWay D en) := by
  refine ⟨r.left.partway h front, fun none_ => ?_⟩
  obtain ⟨left, first⟩ := r.begun none_
  refine ⟨left.partway (turn none_) front, fun other hother => ?_⟩
  obtain rfl := eq_of_mem_take_one (turn none_) hother
  obtain ⟨part, meta_, -⟩ := names_differ en.name
  rw [Function.update_of_ne (by simpa using meta_.symm),
    Function.update_of_ne (by simpa using part.symm)]
  exact first en hother

/-- What has been left is in no entry's way, and nothing of it is left in the end. Either no file
has come yet, or a file may be replaced and the entries leave the names beside each other free. -/
theorem Remains.ready (r : Remains src entries n T D) (ok : src.Sendable entries)
    (ordered : SourceFs.Ordered entries) (may : n = 0 ∨
      overwrite = true ∧ ∀ en ∈ entries, ∀ other ∈ entries, en.Beside other) :
    src.Passable overwrite T D entries ∧ ∀ {k b}, src.afterAll T entries k = some b →
      ∃ en ∈ entries, k = en.way ++ [en.name] := by
  have text : ∀ en ∈ entries, 0 ∉ en.relpath := fun en hen => (ok.sound en hen).text
  rcases may with none_ | ⟨rfl, beside⟩
  · obtain ⟨left, free⟩ := r.begun none_
    have u := distinct_first ordered ok.named
    cases entries with
    | nil =>
        refine ⟨trivial, fun hk => ?_⟩
        obtain ⟨en, hen, -⟩ := left.file hk
        cases hen
    | cons en ens =>
        have first : en ∈ (en :: ens).take 1 := List.mem_cons_self
        -- with the first entry in its place only that is there
        have alone : ∀ {k b}, src.after T en k = some b → k = en.way ++ [en.name] := by
          intro k b hk
          obtain ⟨a, ha, same⟩ := left.only u hk
          rwa [eq_of_mem_take_one ha first] at same
        refine ⟨⟨left.placeable u first (text en List.mem_cons_self) (.inl (free en first)), ?_⟩, ?_⟩
        · refine SourceFs.passable_fresh [en] ok ordered (fun k b hk => ?_) fun k hk => ?_
          · refine ⟨en, List.mem_singleton_self en, (alone hk).trans ?_⟩
            exact (Entry.names_eq (ok.named en List.mem_cons_self)).symm
          · rcases hk with was | way
            · refine (left.dir was).imp_right fun ⟨a, ha, front⟩ => ?_
              rw [eq_of_mem_take_one ha first] at front
              exact ⟨en, List.mem_singleton_self en, front⟩
            · exact .inr ⟨en, List.mem_singleton_self en, way⟩
        · intro k b hk
          have rest : src.afterAll (src.after T en) ens k = some b := hk
          rcases SourceFs.afterAll_some rest with ⟨a, ha, same, -⟩ | there
          · exact ⟨a, List.mem_cons_of_mem en ha, same⟩
          · exact ⟨en, List.mem_cons_self, alone there⟩
  · have u : Distinct entries := ⟨ordered, ok.named, beside⟩
    exact ⟨r.left.passable u text fun _ => id, r.left.only u⟩

end Leftover

/-! ## What has reached the file -/

namespace GetFileEnd
variable {e e' : GetFileEnd} {w w' : Files}

/-- What is buffered goes to the end of its file. -/
structure Appends (e : GetFileEnd) (w : Files) : Prop where
  text : 0 ∉ e.target
  pos : ∀ h, e.file = some h → h.pos = (w.fs.data h.ino).length

theorem appends_closed (text : 0 ∉ e.target) (h : e'.file = none ∧ e'.target = e.target) :
    Appends e' w' := by
  refine ⟨h.2 ▸ text, fun hd hf => ?_⟩
  rw [h.1] at hf
  cases hf

theorem fail_closed (e : GetFileEnd) (w : Files) (why : Bytes) :
    (e.fail w why).1.file = none ∧ (e.fail w why).1.target = e.target := by
  simp only [fail, closeFile_fst]
  exact ⟨trivial, trivial⟩

theorem finishEntry_closed (e : GetFileEnd) (w : Files) :
    (e.finishEntry w).1.file = none ∧ (e.finishEntry w).1.target = e.target := by
  have failed := fun w why => fail_closed { e with file := none } w why
  simp only [finishEntry, closeFile_fst]
  split
  · exact failed _ _
  · split
    · exact failed _ _
    · exact ⟨rfl, rfl⟩

theorem appends_startRecv (text : 0 ∉ e.target) {h : Handle}
    (pos : h.pos = (w.fs.data h.ino).length) (off : Nat) (crc : UInt32) :
    Appends (e.startRecv w h off crc).1 (e.startRecv w h off crc).2 := by
  simp only [startRecv]
  split
  · exact appends_closed text (finishEntry_closed _ w)
  · refine ⟨text, fun hd hf => ?_⟩
    cases hf
    exact pos

/-- A kept part is gone on with where it ends. -/
theorem resumeAt_size (kept : 0 < (e.resumeAt w.fs).1) :
    (e.resumeAt w.fs).1 = ((w.fs.stat (cstr e.part)).map w.fs.nodeSize).getD 0 := by
  simp only [resumeAt] at kept ⊢
  split
  · split
    · rfl
    · rename_i known past
      rw [if_pos known, if_neg past] at kept
      cases kept
  · rename_i unknown
    rw [if_neg unknown] at kept
    cases kept

theorem appends_openPart (text : 0 ∉ e.target) (place : 0 ∉ e.dest) :
    Appends (e.openPart w).1 (e.openPart w).2 := by
  simp only [openPart]
  by_cases kept : (e.resumeAt w.fs).1 > 0
  · rw [if_pos kept]
    rcases w.openUpdate_cases e.part (e.resumeAt w.fs).1 with
      ⟨none, -⟩ | ⟨h, p, opened, pos, -, resolved, node, fs, -⟩
    · rw [none]
      exact appends_closed text (fail_closed e _ _)
    · rw [opened]
      have there : w.fs.stat (cstr e.part) = some (.file h.ino) := by
        rw [stat, resolved, Option.bind_some, node]
      refine appends_startRecv text ?_ _ _
      rw [fs, pos, resumeAt_size kept, there]
      rfl
  · rw [if_neg kept]
    rcases w.openTrunc_cases e.part with
      ⟨none, -⟩ | ⟨h, p, opened, pos, -, resolved, -, node, data, -, dirs, -⟩
    · rw [none]
      exact appends_closed text (fail_closed e _ _)
    · rw [opened]
      have same : ((w.openTrunc e.part).2.writeText e.meta_
          (metaText e.size e.wantCrc e.relpath)).fs.data h.ino =
            (w.openTrunc e.part).2.fs.data h.ino :=
        (Receiver.writeText_part place (by rw [dirs.resolve]; exact resolved) node).2.2
      refine appends_startRecv text ?_ _ _
      rw [pos, ← List.length_nil, ← data]
      exact congrArg List.length same.symm

theorem appends_placeEntry (text : 0 ∉ e.target) (rel : 0 ∉ e.relpath) :
    Appends (e.placeEntry w).1 (e.placeEntry w).2 := by
  have place : 0 ∉ (e.destination w).1 := by
    by_cases dir : w.fs.isDir (cstr e.dir) = true
    · exact (destination_dir dir (text_dir text e.overwrite) rel).1.1
    · rw [destination, if_neg dir]
      exact text
  simp only [placeEntry]
  split
  · exact appends_closed text (fail_closed _ _ _)
  · exact appends_openPart (e := { e with dest := (e.destination w).1 }) text place

theorem appends_handleHeader (text : 0 ∉ e.target) (closed : e.file = none) (line : Bytes) :
    Appends (e.handleHeader w line).1 (e.handleHeader w line).2 := by
  simp only [handleHeader]
  split
  · exact appends_closed text ⟨closed, rfl⟩
  · split
    · exact appends_closed text (fail_closed e w _)
    · split
      · exact appends_closed text (fail_closed e w _)
      · rename_i size crc rel parsed
        exact appends_placeEntry (e := { e with size := size, wantCrc := crc, relpath := rel }) text
          (parseHeader_notMem parsed)

theorem Appends.round (a : Appends e w) (r : e.Ready) (b : Bytes) :
    Appends (e.round w b).1.1 (e.round w b).1.2 := by
  cases hs : e.state with
  | done =>
      simp only [GetFileEnd.round, hs]
      exact a
  | header =>
      have closed := r.header hs
      rw [round_header hs]
      split
      · exact appends_closed a.text ⟨closed, rfl⟩
      · exact appends_handleHeader (e := { e with hdr := [] }) a.text closed _
      · exact appends_closed a.text (fail_closed _ _ _)
  | recv =>
      obtain ⟨-, refused⟩ | ⟨n, round⟩ := round_recv hs w b
      · rw [refused]
        exact appends_closed a.text (fail_closed e _ _)
      · rw [round, complete]
        split
        · exact appends_closed a.text (finishEntry_closed _ _)
        · refine ⟨a.text, fun h hf => ?_⟩
          obtain ⟨h', hf', rfl⟩ := Option.map_eq_some_iff.mp hf
          exact a.pos h' hf'

theorem Appends.flush (a : Appends e w) (n : Nat) : Appends (e.flush w n).1 (e.flush w n).2 := by
  rw [GetFileEnd.flush]
  split
  · exact a
  · rename_i h hf
    refine ⟨a.text, fun h' hf' => ?_⟩
    cases hf'
    simp only [Handle.flush, data_setData, a.pos h hf, writeAt_end, List.length_append]

/-- So it is after any calls. -/
theorem Appends.run (a : Appends e w) (r : e.Ready) (as : List Event) :
    Appends (e.run w as).1 (e.run w as).2 := by
  have all : ∀ (e : GetFileEnd) (w : Files) (line : Bytes), True := fun _ _ _ => trivial
  refine (run_invariant (P := fun e w => e.Ready ∧ Appends e w)
    (fun {e w b} h _ _ err _ => ⟨h.1.round err w b, h.2.round h.1 b⟩) (fun {e w} h => ?_)
    (fun {e w} n h => ⟨h.1.flush w n, h.2.flush n⟩) ⟨r, a⟩ (runMeets_of_forall all e w as)).2
  refine ⟨h.1.onTunnelClosed w, ?_⟩
  rw [onTunnelClosed]
  split
  · exact h.2
  · simp only [closeFile_fst]
    exact appends_closed h.2.text ⟨rfl, rfl⟩

end GetFileEnd

/-! ## Where a transfer may break off -/

namespace GetFileEnd
variable {src : SourceFs} {entries ens : List Entry} {dir : Bytes} {overwrite : Bool} {d : Path}
  {T : List Name → Option Bytes} {D : List Name → Prop} {e e' : GetFileEnd} {w w' : Files}
  {en : Entry} {x : Bytes} {n : Nat}

/-- A receiver with no file open, or with one that has come in part. -/
inductive Cut (src : SourceFs) (entries : List Entry) (dir : Bytes) (overwrite : Bool) (d : Path)
    (n : Nat) (e : GetFileEnd) (w : Files) : Prop
  | between {T : List Name → Option Bytes} {D : List Name → Prop}
      (r : Remains src entries (n + e.files) T D) (closed : e.file = none)
      (shows : Shows dir d T D w.fs)
  | taking {T : List Name → Option Bytes} {D : List Name → Prop} {en : Entry} {size : Nat}
      {sum : UInt32} {y : Bytes} (r : Remains src entries (n + e.files) T D) (mem : en ∈ entries)
      (turn : n + e.files = 0 → en ∈ entries.take 1) (front : y <+: src.bytesOf en)
      (t : Taking dir overwrite d T (SourceFs.withWay D en) en.way en.name size sum y e w)

/-- A header that has not come to its end. -/
theorem Between.header_part (b : Between dir overwrite e w) (plain : newline ∉ x)
    (short : x.length ≤ maxHeader) : e.onTunnelData w x = ({ e with hdr := x }, w) := by
  by_cases none : x = []
  · subst none
    rw [onTunnelData_nil, ← b.hdr]
  · have round : e.round w x = (({ e with hdr := x }, w), []) := by
      rw [round_header b.header, b.hdr, scanHeader_within plain (by rwa [List.nil_append]),
        List.nil_append]
    rw [b.ready.onTunnelData w none b.going b.err, round, onTunnelData_nil]

/-- A stream that ends in an entry. -/
theorem prefix_append_iff {a b : Bytes} : x <+: a ++ b ↔ x <+: a ∨ ∃ y, x = a ++ y ∧ y <+: b := by
  constructor
  · intro front
    rcases List.prefix_or_prefix_of_prefix front (List.prefix_append a b) with less | ⟨y, rfl⟩
    · exact .inl less
    · exact .inr ⟨y, rfl, (List.prefix_append_right_inj a).mp front⟩
  · rintro (less | ⟨y, rfl, less⟩)
    · exact less.trans (List.prefix_append a b)
    · exact (List.prefix_append_right_inj a).mpr less

/-- Within a line nothing has changed. -/
theorem Reached.cut_line {h : Bytes} (r : Reached dir overwrite d T D e w)
    (l : Remains src entries (n + e.files) T D) (plain : newline ∉ h)
    (short : h.length ≤ maxHeader) (front : x <+: h) :
    Cut src entries dir overwrite d n (e.onTunnelData w x).1 (e.onTunnelData w x).2 := by
  rw [r.header_part (fun hm => plain (front.subset hm)) (front.length_le.trans short)]
  exact .between l r.closed r.shows

theorem Reached.cut (r : Reached dir overwrite d T D e w)
    (l : Remains src entries (n + e.files) T D) (turn : n + e.files = 0 → ens = entries)
    (sub : ∀ en ∈ ens, en ∈ entries) (ht : dir ≠ []) (text : 0 ∉ dir) (s : src.Sendable ens)
    (p : src.Passable overwrite T D ens) (hx : x <+: src.wholeOf T ens) :
    Cut src entries dir overwrite d n (e.onTunnelData w x).1 (e.onTunnelData w x).2 := by
  induction ens generalizing e w T D x with
  | nil =>
      rw [SourceFs.wholeOf, SourceFs.streamOf, List.nil_append] at hx
      rcases List.prefix_concat_iff.mp hx with rfl | front
      · obtain ⟨e', w', all, -, closed, shows, files⟩ := r.whole ht text s p
        rw [SourceFs.wholeOf, SourceFs.streamOf, List.nil_append] at all
        rw [all]
        exact .between (files ▸ l) closed shows
      · exact r.cut_line l (by decide) (by decide) front
  | cons en ens ih =>
      obtain ⟨offer, plain, short, parsed⟩ := s.offeredAs List.mem_cons_self
      have mem := sub en List.mem_cons_self
      have named := Entry.names_eq (s.named en List.mem_cons_self)
      have whole : src.wholeOf T (en :: ens) = src.offerOf en ++
          ((src.bytesOf en).drop (src.keptOf T en) ++ src.wholeOf (src.after T en) ens) := by
        simp only [SourceFs.wholeOf, SourceFs.streamOf, List.append_assoc]
      -- past the entry the others are to come
      have through : ∀ z, z <+: src.wholeOf (src.after T en) ens → Cut src entries dir overwrite d n
          (e.onTunnelData w
            (src.offerOf en ++ ((src.bytesOf en).drop (src.keptOf T en) ++ z))).1
          (e.onTunnelData w
            (src.offerOf en ++ ((src.bytesOf en).drop (src.keptOf T en) ++ z))).2 := by
        intro z hz
        obtain ⟨e', w', reached, one, come⟩ := r.next ht text
          (s.sub fun _ h => List.mem_singleton.mp h ▸ List.mem_cons_self) p.1 z
        rw [come]
        refine ih reached ?_ (fun none_ => by omega) (fun b hb => sub b (List.mem_cons_of_mem en hb))
          (s.sub fun _ => List.mem_cons_of_mem en) p.2 hz
        rw [one]
        exact l.after mem
      rw [whole, offer, List.append_assoc, List.singleton_append, prefix_append_iff] at hx
      rcases hx with front | ⟨y, rfl, front⟩
      · exact r.cut_line l plain short front
      · rcases List.prefix_cons_iff.mp front with rfl | ⟨y, rfl, body⟩
        · rw [List.append_nil]
          exact r.cut_line l plain short List.prefix_rfl
        · rw [← List.singleton_append, ← List.append_assoc, ← offer]
          rcases prefix_append_iff.mp body with less | ⟨z, rfl, others⟩
          · by_cases all : y = (src.bytesOf en).drop (src.keptOf T en)
            · rw [all]
              have := through [] List.nil_prefix
              rwa [List.append_nil] at this
            · obtain ⟨e', w', come, files, taking⟩ :=
                r.partway r.shows ht text p.1 named plain short parsed less all
              rw [offer, List.append_assoc, List.singleton_append, come]
              have begun : (src.bytesOf en).take (src.keptOf T en) ++ y <+: src.bytesOf en := by
                have more := (List.prefix_append_right_inj
                  ((src.bytesOf en).take (src.keptOf T en))).mpr less
                rwa [List.take_append_drop] at more
              refine .taking (files ▸ l) mem (fun none_ => ?_) begun taking
              rw [← turn (files ▸ none_)]
              exact List.mem_cons_self
          · exact through z others

/-- What is left below the target of transfers that brought so many files. -/
def Leaves (src : SourceFs) (entries : List Entry) (dir : Bytes) (d : Path) (n : Nat)
    (fs : FileSystem) : Prop :=
  ∃ T D, Remains src entries n T D ∧ Shows dir d T D fs

/-- What is below the target when the connection ends, and when the daemon does. -/
theorem Cut.left (c : Cut src entries dir overwrite d n e w) (same : Alike (e, w) (e', w'))
    (a : Appends e' w') :
    Leaves src entries dir d (n + e'.files) (e'.onTunnelClosed w').2.fs ∧
      Leaves src entries dir d (n + e'.files) w'.fs := by
  have files : e'.files = e.files := same.field GetFileEnd.files fun _ => rfl
  rw [files]
  cases c with
  | between r closed shows =>
      obtain ⟨rfl, agree⟩ := same.agree closed
      rw [← agree.fs] at shows
      refine ⟨⟨_, _, r, ?_⟩, ⟨_, _, r, shows⟩⟩
      rw [onTunnelClosed]
      split
      · exact shows
      · simp only [GetFileEnd.closeFile, closed]
        exact shows
  | @taking T D en size sum y r mem turn front t =>
      obtain ⟨-, -, differ⟩ := names_differ en.name
      obtain ⟨-, i, text, node, data, shows⟩ := t.closeFile
      obtain ⟨i₀, old, new, -, -, file, -, node₀, -⟩ := t.opened
      have still : (e.closeFile w).2.fs.node ((en.way ++ [partOf en.name]).reverse ++ d) =
          some (.file i₀) := by
        simp only [GetFileEnd.closeFile, file]
        exact node₀
      cases node.symm.trans still
      have closed := same.same.fs
      simp only at closed
      rw [← closed] at shows data node
      have going : e'.done = false := (same.field GetFileEnd.done fun _ => rfl).trans t.going
      have err : e'.err = [] := (same.field GetFileEnd.err fun _ => rfl).trans t.err
      refine ⟨?_, ?_⟩
      · rw [onTunnelClosed, if_neg (by simp [going, err])]
        exact ⟨_, _, r.partway mem turn front, shows⟩
      · -- what is not written yet is all that is missing
        obtain ⟨h, open_, rfl⟩ : ∃ h, e'.file = some h ∧ h.ino = i := by
          have entry := congrArg GetFileEnd.file same.entry
          simp only [settled, file, Option.map_some] at entry
          obtain ⟨h, open_, alike⟩ := Option.map_eq_some_iff.mp entry
          exact ⟨h, open_, congrArg Handle.ino alike⟩
        have end_ : (e'.closeFile w').2.fs =
            w'.fs.setData h.ino (w'.fs.data h.ino ++ h.buf) := by
          simp only [GetFileEnd.closeFile, open_, Files.fclose, Handle.fclose, Handle.flush,
            List.take_length, a.pos h open_, writeAt_end]
        rw [end_, data_setData] at data
        have shows' := shows.setData node (w'.fs.data h.ino)
        rw [end_, setData_setData, setData_self,
          Function.update_comm (by simpa using differ), Function.update_idem] at shows'
        exact ⟨_, _,
          r.partway mem turn ((List.prefix_append _ h.buf).trans (data ▸ front)), shows'⟩

end GetFileEnd

/-! ## What a disk grants, it goes on granting -/

namespace Files

theorem rename_grants {w : Files} (granted : w.Grants) (old new : Bytes) :
    (w.rename old new).2.Grants := by
  have called := call_grants granted [cstr old, cstr new] fun fs =>
    (fs.rename (cstr old) (cstr new)).map (·, ())
  rw [rename]
  split
  · rename_i done
    rwa [done] at called
  · rename_i failed
    rwa [failed] at called

end Files

namespace GetFileEnd
variable {w : Files}

theorem grants_closeFile (g : w.Grants) (e : GetFileEnd) : (e.closeFile w).2.Grants := by
  rw [closeFile]
  split
  · exact g
  · exact ⟨g.calls, g.writes⟩

theorem grants_finishEntry (g : w.Grants) (e : GetFileEnd) : (e.finishEntry w).2.Grants := by
  have closed := grants_closeFile g e
  simp only [finishEntry]
  split
  · exact grants_closeFile (Files.call_grants (Files.call_grants closed _ _) _ _) _
  · have renamed := Files.rename_grants closed (e.closeFile w).1.part (e.closeFile w).1.dest
    split
    · rename_i failed
      rw [failed] at renamed
      exact grants_closeFile renamed _
    · rename_i done
      rw [done] at renamed
      exact Files.call_grants renamed _ _

theorem grants_startRecv (g : w.Grants) (e : GetFileEnd) (h : Handle) (off : Nat) (crc : UInt32) :
    (e.startRecv w h off crc).2.Grants := by
  simp only [startRecv]
  split
  · exact grants_finishEntry g _
  · exact g

theorem grants_openPart (g : w.Grants) (e : GetFileEnd) : (e.openPart w).2.Grants := by
  have opened : (if (e.resumeAt w.fs).1 > 0 then w.openUpdate e.part (e.resumeAt w.fs).1 else
      ((w.openTrunc e.part).1, (w.openTrunc e.part).2.writeText e.meta_
        (metaText e.size e.wantCrc e.relpath))).2.Grants := by
    split
    · exact Files.call_grants g _ _
    · exact Files.call_grants (Files.call_grants g _ _) _ _
  simp only [openPart]
  split
  · exact grants_closeFile opened _
  · exact grants_startRecv opened _ _ _ _

theorem grants_placeEntry (g : w.Grants) (e : GetFileEnd) : (e.placeEntry w).2.Grants := by
  have made : (e.destination w).2.Grants := by
    rw [destination]
    split
    · exact Files.mkdirs_grants g _ _
    · exact g
  simp only [placeEntry]
  split
  · exact grants_closeFile made _
  · exact grants_openPart made _

theorem grants_handleHeader (g : w.Grants) (e : GetFileEnd) (line : Bytes) :
    (e.handleHeader w line).2.Grants := by
  rw [handleHeader]
  split
  · exact g
  · split
    · exact grants_closeFile g _
    · split
      · exact grants_closeFile g _
      · exact grants_placeEntry g _

theorem grants_round (g : w.Grants) (e : GetFileEnd) (b : Bytes) : (e.round w b).1.2.Grants := by
  cases hs : e.state with
  | header =>
      rw [round_header hs]
      split
      · exact g
      · exact grants_handleHeader g _ _
      · exact grants_closeFile g _
  | recv =>
      obtain ⟨-, failed⟩ | ⟨n, taken⟩ := round_recv hs w b
      · rw [failed]
        exact grants_closeFile (w := { w with writes := w.writes + 1 }) ⟨g.calls, g.writes⟩ e
      · rw [taken, complete]
        split
        · exact grants_finishEntry (w := { w with writes := n }) ⟨g.calls, g.writes⟩ _
        · exact ⟨g.calls, g.writes⟩
  | done =>
      rw [GetFileEnd.round, hs]
      exact g

theorem grants_rounds (g : w.Grants) (n : Nat) (e : GetFileEnd) (b : Bytes) :
    (rounds n e w b).2.Grants := by
  induction n generalizing e w b with
  | zero => exact g
  | succ n ih =>
      rw [rounds_succ]
      split
      · exact g
      · exact ih (grants_round g e b) _ _

theorem Alike.grants {s s' : GetFileEnd × Files} (a : Alike s s') (g : s.2.Grants) :
    s'.2.Grants := by
  have same : ∀ (e : GetFileEnd) (w : Files), (e.closeFile w).2.refuse = w.refuse := by
    intro e w
    rw [GetFileEnd.closeFile]
    split
    · rfl
    · rfl
  refine ⟨fun n => ?_, a.granted.2⟩
  rw [← same s'.1 s'.2, a.same.refuse, same s.1 s.2]
  exact g.calls n

end GetFileEnd

namespace Sample

theorem mem_of_lookup {α : Type} {k : Bytes} {l : List (Bytes × α)} {b : α}
    (h : l.lookup k = some b) : (k, b) ∈ l := by
  obtain ⟨front, back, same, -⟩ := List.lookup_eq_some_iff.mp h
  exact same ▸ List.mem_append_right _ List.mem_cons_self

/-- Directories with the names in them, and files with their bytes. -/
structure Listing where
  dirs : List (Bytes × List Name)
  files : List (Bytes × Bytes)
  dir : ∀ x ∈ dirs, x.1.length < pathMax ∧ x.2.Nodup ∧ ∀ n ∈ x.2, Plain n ∧ 0 ∉ n
  file : ∀ x ∈ files, x.1.length < pathMax ∧ x.2.length < 2 ^ 63 ∧
    ∃ c ∈ (comps x.1).getLast?, Plain c

/-- A source that holds these. -/
def Listing.source (l : Listing) : SourceFs where
  stat p :=
    if (l.dirs.lookup p).isSome then some .dir
    else (l.files.lookup p).map fun b => .reg b.length
  readdir p := l.dirs.lookup p
  content p := l.files.lookup p
  stat_short := by
    intro p s h
    split at h
    · rename_i there
      obtain ⟨names, there⟩ := Option.isSome_iff_exists.mp there
      exact (l.dir _ (mem_of_lookup there)).1
    · obtain ⟨b, there, -⟩ := Option.map_eq_some_iff.mp h
      exact (l.file _ (mem_of_lookup there)).1
  size_content := by
    intro p n b h h'
    split at h
    · cases h
    · rw [h'] at h
      cases h
      rfl
  size_lt := by
    intro p n h
    split at h
    · cases h
    · obtain ⟨b, there, same⟩ := Option.map_eq_some_iff.mp h
      cases same
      exact (l.file _ (mem_of_lookup there)).2.1
  names_plain := fun there => (l.dir _ (mem_of_lookup there)).2.2
  names_nodup := fun there => (l.dir _ (mem_of_lookup there)).2.1
  reg_plain := by
    intro p n h
    split at h
    · cases h
    · obtain ⟨b, there, -⟩ := Option.map_eq_some_iff.mp h
      exact (l.file _ (mem_of_lookup there)).2.2

end Sample

/-! ## One transfer after another -/

namespace Transfer
variable {src : SourceFs} {entries : List Entry} {target dir : Bytes} {overwrite : Bool}
  {disk w : Files} {d : Path} {T : List Name → Option Bytes} {D : List Name → Prop} {t : Transfer}

/-- The receiver's disk after transfers of the same entries, each of which may have got anywhere
when its connection ended, or its daemon did, and how many files they have brought. -/
inductive Attempts (src : SourceFs) (entries : List Entry) (target : Bytes) (overwrite : Bool)
    (disk : Files) : Nat → Files → Prop
  | fresh : Attempts src entries target overwrite disk 0 disk
  | closed {n : Nat} {w : Files} {t : Transfer}
      (before : Attempts src entries target overwrite disk n w)
      (h : Reach step still (begin src entries target overwrite w) t) :
      Attempts src entries target overwrite disk (n + t.receiver.files)
        (t.receiver.onTunnelClosed t.disk).2
  | stopped {n : Nat} {w : Files} {t : Transfer}
      (before : Attempts src entries target overwrite disk n w)
      (h : Reach step still (begin src entries target overwrite w) t) :
      Attempts src entries target overwrite disk (n + t.receiver.files) t.disk

/-- A disk on which only these entries have been left. -/
structure Rest (src : SourceFs) (entries : List Entry) (dir : Bytes) (d : Path) (n : Nat)
    (w : Files) : Prop where
  granted : w.Grants
  shows : GetFileEnd.Leaves src entries dir d n w.fs

/-- Bytes that come and go on to the file leave what is buffered at its end. -/
theorem appends_reached (text : 0 ∉ target)
    (h : Reach step still (begin src entries target overwrite w) t) :
    t.receiver.Appends t.disk := by
  have base : 0 ∉ ({ target, overwrite } : GetFileEnd).target := text
  have start : ({ target, overwrite } : GetFileEnd).Appends w :=
    GetFileEnd.appends_closed base ⟨rfl, rfl⟩
  have ready := GetFileEnd.ready_start target overwrite
  refine (h.invariant (P := fun t => t.receiver.Ready ∧ t.receiver.Appends t.disk)
    ⟨ready, start⟩ fun t m t' kept same moved => ?_).2
  obtain ⟨ready, kept⟩ := kept
  cases m with
  | change src => exact absurd same id
  | deliver n =>
      simp only [step] at moved
      split at moved
      · cases moved
        exact ⟨ready.run t.disk [.data (t.down.take n)], kept.run ready [.data (t.down.take n)]⟩
      · cases moved
  | answer n room =>
      simp only [step] at moved
      split at moved
      · obtain ⟨x, -, rfl⟩ := Option.map_eq_some_iff.mp moved
        exact ⟨ready, kept⟩
      · cases moved
  | writable room =>
      obtain ⟨x, -, rfl⟩ := Option.map_eq_some_iff.mp moved
      exact ⟨ready, kept⟩
  | flush n =>
      cases moved
      exact ⟨ready.run t.disk [.flush n], kept.run ready [.flush n]⟩

/-- What has been fed is the front of all that is said. -/
theorem Course.front {start : GetFileEnd} (c : t.Course src T entries start disk) :
    ∃ p, p <+: src.wholeOf T entries ∧
      GetFileEnd.Alike (start.onTunnelData disk p) (t.receiver, t.disk) := by
  obtain ⟨p, all, alike⟩ := c.fed
  have said := c.told.within_whole
  rw [c.list, ← all] at said
  exact ⟨p, (List.prefix_append p t.down).trans said, alike⟩

/-- An earlier transfer's files are not in the way of a later one. -/
def Retakes (entries : List Entry) (overwrite : Bool) (n : Nat) : Prop :=
  n = 0 ∨ overwrite = true ∧ ∀ en ∈ entries, ∀ other ∈ entries, en.Beside other

section Rest
variable (ok : src.Sendable entries) (ordered : SourceFs.Ordered entries) (text : 0 ∉ target)
  (named : ({ target, overwrite } : GetFileEnd).dir = dir)
include ok ordered text named

/-- A transfer from such a disk, with a way to know what it starts from. -/
theorem arranged_rest {n : Nat} (granted : w.Grants) (r : Remains src entries n T D)
    (may : Retakes entries overwrite n) (shows : Shows dir d T D w.fs) :
    Arranged src T D entries { target, overwrite } w dir overwrite d := by
  subst named
  exact ⟨⟨⟨rfl, rfl, rfl, rfl, rfl, rfl, rfl, granted⟩, shows⟩, ok, (r.ready ok ordered may).1,
    GetFileEnd.dir_ne_nil _, GetFileEnd.text_dir text overwrite⟩

/-- Wherever it breaks off. -/
theorem Rest.next {n : Nat} (rest : Rest src entries dir d n w)
    (may : Retakes entries overwrite n)
    (h : Reach step still (begin src entries target overwrite w) t) :
    Rest src entries dir d (n + t.receiver.files) (t.receiver.onTunnelClosed t.disk).2 ∧
      Rest src entries dir d (n + t.receiver.files) t.disk := by
  obtain ⟨T, D, r, shows⟩ := rest.shows
  have a := arranged_rest ok ordered text named rest.granted r may shows
  have c : t.Course src T entries { target, overwrite } w :=
    h.invariant (course_begin src T entries target overwrite rest.granted)
      fun _ _ _ c same moved => c.step a same moved
  obtain ⟨p, front, alike⟩ := c.front
  have cut := a.reached.cut (n := n) r (fun _ => rfl) (fun _ => id) a.named a.text ok a.passable
    front
  obtain ⟨closed, stopped⟩ := cut.left alike (appends_reached text h)
  have granted := alike.grants (GetFileEnd.grants_rounds rest.granted _ _ p)
  refine ⟨⟨?_, closed⟩, granted, stopped⟩
  rw [GetFileEnd.onTunnelClosed]
  split
  · exact granted
  · exact GetFileEnd.grants_closeFile granted _

theorem Attempts.rest {n : Nat} (rest : Rest src entries dir d 0 disk)
    (h : Attempts src entries target overwrite disk n w) (may : Retakes entries overwrite n) :
    Rest src entries dir d n w := by
  induction h with
  | fresh => exact rest
  | closed _ h ih =>
      have may' := may.imp_left fun none_ => Nat.eq_zero_of_add_eq_zero_right none_
      exact ((ih may').next ok ordered text named may' h).1
  | stopped _ h ih =>
      have may' := may.imp_left fun none_ => Nat.eq_zero_of_add_eq_zero_right none_
      exact ((ih may').next ok ordered text named may' h).2

end Rest

/-- A file, and a directory with the name of what lies beside the file while it comes. -/
def shelf : SourceFs :=
  Sample.Listing.source
    { dirs := [(str "/d", [str "a", str "a.part"]), (str "/d/a.part", [str "b"])]
      files := [(str "/d/a", str "x"), (str "/d/a.part/b", str "y")]
      dir := by decide +kernel
      file := by decide +kernel }

end Transfer
end Splice.Peer
