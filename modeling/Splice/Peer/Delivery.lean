import Splice.Peer.Stream

/-!
A transfer into a directory where nothing is in the way of its entries. The receiver's state is
that of one call with the bytes that have come, whatever the moves were.
-/

namespace Splice.Peer
open Lib FileSystem

/-! ## A transfer -/

namespace Transfer
variable {src : SourceFs} {T : List Name → Option Bytes} {D : List Name → Prop}
  {entries : List Entry} {start : GetFileEnd} {disk : Files} {dir : Bytes} {overwrite : Bool}
  {d : Path} {t t' : Transfer} {m : TransferMove}

/-- The user's files stay as they are. -/
def still (_ : Transfer) : TransferMove → Prop
  | .change _ => False
  | .deliver _ | .answer .. | .writable _ | .flush _ => True

/-- Nothing is under way, and room for more is no use to the sender. -/
structure Idle (t : Transfer) : Prop where
  down : t.down = []
  up : t.up = []
  quiet : ∀ room t', t.step (.writable room) = some t' → t' = t

/-- Both ends are where the bytes that have come and gone would have put them at once. -/
structure Course (src : SourceFs) (T : List Name → Option Bytes) (entries : List Entry)
    (start : GetFileEnd) (disk : Files) (t : Transfer) : Prop where
  same : t.src = src
  list : t.sender.entries = entries
  steady : t.Steady entries
  fine : t.sender.err = []
  told : SaidSoFar src T t.sender (Sent.encodeAll t.said)
  fed : ∃ p, p ++ t.down = Sent.encodeAll t.said ∧
    GetFileEnd.Alike (start.onTunnelData disk p) (t.receiver, t.disk)

/-- What a transfer starts from: nothing is in the way of its entries. -/
structure Arranged (src : SourceFs) (T : List Name → Option Bytes) (D : List Name → Prop)
    (entries : List Entry) (start : GetFileEnd) (disk : Files) (dir : Bytes) (overwrite : Bool)
    (d : Path) : Prop where
  reached : start.Reached dir overwrite d T D disk
  sendable : src.Sendable entries
  passable : src.Passable overwrite T D entries
  named : dir ≠ []
  text : 0 ∉ dir

theorem course_begin (src : SourceFs) (T : List Name → Option Bytes) (entries : List Entry)
    (target : Bytes) (overwrite : Bool) (granted : disk.Grants) :
    (begin src entries target overwrite disk).Course src T entries { target, overwrite } disk := by
  obtain ⟨told, same⟩ := SaidSoFar.pumpOffer src T { entries }
  obtain ⟨-, -, -, -, err, -⟩ := Phase.wrote_pumpOffer src { entries }
  refine ⟨rfl, same, steady_begin src entries target overwrite disk, err, told, [], ?_, ?_⟩
  · simp [begin, sends]
  · rw [GetFileEnd.onTunnelData_nil]
    exact .refl granted.writes

/-- Nothing has gone wrong at the receiver. -/
theorem Course.alive (c : t.Course src T entries start disk)
    (a : Arranged src T D entries start disk dir overwrite d) : t.receiver.err = [] := by
  obtain ⟨p, all, alike⟩ := c.fed
  have front : p <+: src.wholeOf T entries := by
    have said := c.told.within_whole
    rw [c.list, ← all] at said
    exact (List.prefix_append p t.down).trans said
  exact (alike.field GetFileEnd.err fun _ => rfl).trans
    (a.reached.fine a.named a.text a.sendable a.passable front)

/-- The sender has done something. -/
theorem Course.sends (c : t.Course src T entries start disk) {r : ShareFileEnd × List Sent}
    (up : Bytes) (steady : ({ t with up := up }.sends r).Steady entries)
    (told : SaidSoFar src T r.1 (Sent.encodeAll t.said ++ Sent.encodeAll r.2)) (fine : r.1.err = [])
    (same : r.1.entries = t.sender.entries) :
    ({ t with up := up }.sends r).Course src T entries start disk := by
  obtain ⟨p, all, alike⟩ := c.fed
  refine ⟨c.same, same.trans c.list, steady, fine, ?_, p, ?_, alike⟩
  · simp only [Transfer.sends, Phase.encodeAll_append]
    exact told
  · simp only [Transfer.sends, Phase.encodeAll_append]
    rw [← List.append_assoc, all]

/-- How much of the entry it is at the receiver had before. -/
def kept (src : SourceFs) (T : List Name → Option Bytes) (t : Transfer) (en : Entry) : Nat :=
  src.keptOf (src.afterAll T (t.sender.entries.take t.sender.idx)) en

/-- Where an offer has just come, what is missing of the entry is asked for. -/
theorem Course.asked (c : t.Course src T entries start disk)
    (a : Arranged src T D entries start disk dir overwrite d) (state : t.sender.state = .waitResume)
    {en : Entry} (at_ : t.sender.entries[t.sender.idx]? = some en) (through : t.down = []) :
    t.receiver.Asks (kept src T t en) en.size := by
  obtain ⟨p, all, alike⟩ := c.fed
  rw [through, List.append_nil] at all
  subst all
  rw [kept]
  obtain ⟨one, rest⟩ := SaidSoFar.split_at at_
  rw [c.list] at one rest at_ ⊢
  have said : Sent.encodeAll t.said =
      src.streamOf T (entries.take t.sender.idx) ++ src.offerOf en := by
    have told := c.told
    generalize Sent.encodeAll t.said = x at told
    cases told with
    | offered _ here =>
        rw [c.list, at_] at here
        rw [c.list, Option.some.inj here]
    | streaming other => exact absurd (state.symm.trans other) (by simp)
    | ended other => exact absurd (state.symm.trans other) (by simp)
  have passable := a.passable
  rw [rest, one, List.append_assoc, SourceFs.passable_append] at passable
  have before : src.Sendable (entries.take t.sender.idx) :=
    a.sendable.sub fun _ h => List.mem_of_mem_take h
  have here : src.Sendable [en] :=
    a.sendable.sub fun _ h => List.mem_singleton.mp h ▸ List.mem_of_getElem? at_
  obtain ⟨e', w', reached, -, come⟩ :=
    a.reached.entries a.named a.text before passable.1 (src.offerOf en)
  obtain ⟨err, all⟩ := reached.asks a.named a.text here passable.2.1
  rw [said, come] at alike
  refine ⟨(alike.field GetFileEnd.err fun _ => rfl).trans err, all.imp ?_ ?_⟩
  · rintro ⟨full, header⟩
    exact ⟨full, (alike.field GetFileEnd.state fun _ => rfl).trans header⟩
  · rintro ⟨recv, got, size⟩
    exact ⟨(alike.field GetFileEnd.state fun _ => rfl).trans recv,
      (alike.field GetFileEnd.got fun _ => rfl).trans got,
      (alike.field GetFileEnd.size fun _ => rfl).trans size⟩

/-- So the answer under way says so. -/
theorem Course.answer (c : t.Course src T entries start disk)
    (a : Arranged src T D entries start disk dir overwrite d) (more : t.up ≠ []) :
    t.sender.state = .waitResume ∧ ∃ en, t.sender.entries[t.sender.idx]? = some en ∧
      kept src T t en ≤ en.size ∧
      t.sender.rbuf ++ t.up = GetFileEnd.resumeLine (kept src T t en) := by
  obtain ⟨failed, -⟩ | ⟨u, -, p⟩ := c.steady.phase
  · exact absurd (c.alive a) failed
  · cases p with
    | offered _ _ _ still => exact absurd still more
    | @answered en off state _ at_ within through answer _ awaits =>
        obtain ⟨-, rest⟩ := c.asked a state at_ through
        have same : off = kept src T t en := by
          obtain ⟨zero, header⟩ | ⟨-, recv, left⟩ := awaits.left
          · rcases rest with ⟨full, -⟩ | ⟨recv, -⟩
            · omega
            · exact absurd (recv.symm.trans header) (by simp)
          · rcases rest with ⟨-, header⟩ | ⟨-, got, size⟩
            · exact absurd (recv.symm.trans header) (by simp)
            · omega
        exact ⟨state, en, at_, same ▸ within, same ▸ answer⟩
    | streaming _ _ _ still => exact absurd still more
    | stopped _ still => exact absurd still more
    | finished _ _ still => exact absurd still more

theorem Course.step (c : t.Course src T entries start disk)
    (a : Arranged src T D entries start disk dir overwrite d) (same : still t m)
    (h : t.step m = some t') :
    t'.Course src T entries start disk := by
  have steady := c.steady.step a.sendable.sound h
  have ok : src.Sendable t.sender.entries := c.list ▸ a.sendable
  cases m with
  | change src' => exact absurd same id
  | deliver n =>
      simp only [Transfer.step] at h
      split at h
      · cases h
        obtain ⟨p, all, alike⟩ := c.fed
        refine ⟨c.same, c.list, steady, c.fine, c.told, p ++ t.down.take n, ?_, ?_⟩
        · rw [List.append_assoc, List.take_append_drop]
          exact all
        · have ready : (start.onTunnelData disk p).1.Ready :=
            a.reached.ready.rounds (2 * p.length + 1) disk p
          exact (a.reached.ready.append a.reached.granted.writes p (t.down.take n)).trans
            (alike.onTunnelData ready (t.down.take n))
      · cases h
  | flush n =>
      cases h
      obtain ⟨p, all, alike⟩ := c.fed
      exact ⟨c.same, c.list, steady, c.fine, c.told, p, all,
        alike.trans (GetFileEnd.Alike.flush alike.granted.2 n).symm⟩
  | writable room =>
      obtain ⟨x, hx, rfl⟩ := Option.map_eq_some_iff.mp h
      rw [c.same] at hx
      obtain ⟨told, fine, list⟩ := c.told.pump ok c.fine hx
      exact c.sends t.up steady told fine list
  | answer n room =>
      simp only [Transfer.step] at h
      split at h
      · rename_i within
        obtain ⟨x, hx, rfl⟩ := Option.map_eq_some_iff.mp h
        have more : t.up ≠ [] := fun none => by
          rw [none, List.length_nil] at within
          omega
        obtain ⟨state, en, at_, within', answer⟩ := c.answer a more
        have here := List.mem_of_getElem? at_
        have there : src.content en.abspath ≠ none := by
          rw [ok.readable en here]
          simp
        rw [c.same, ShareFileEnd.onTunnelData, if_neg (by simp [state])] at hx
        rw [← List.take_append_drop n t.up] at answer
        have told := c.told
        generalize said_ : Sent.encodeAll t.said = said at told
        cases told with
        | streaming other => exact absurd (state.symm.trans other) (by simp)
        | ended other => exact absurd (state.symm.trans other) (by simp)
        | @offered en' _ here' =>
            obtain rfl : en = en' := Option.some.inj (at_.symm.trans here')
            rcases SaidSoFar.receive state at_ there within' (ok.sound en here).size answer hx
              with rfl | pumped
            · refine c.sends (t.up.drop n) steady ?_ c.fine rfl
              rw [said_, show Sent.encodeAll [] = [] from rfl, List.append_nil]
              exact .offered state at_
            · have begun : SaidSoFar src T { t.sender with
                  rbuf := [], file := some (en.abspath, kept src T t en),
                  remaining := en.size - kept src T t en, state := .stream }
                  (src.streamOf T (t.sender.entries.take t.sender.idx) ++ (src.offerOf en ++
                    ((src.bytesOf en).drop (kept src T t en)).take 0)) :=
                .streaming rfl at_ rfl rfl rfl within'
              obtain ⟨told, fine, list⟩ := begun.pump ok c.fine pumped
              refine c.sends (t.up.drop n) steady ?_ fine list
              rwa [List.take_zero, List.append_nil, ← said_] at told
      · cases h

/-- A transfer with nothing left to do has come to its end. -/
theorem Course.ends (c : t.Course src T entries start disk)
    (a : Arranged src T D entries start disk dir overwrite d) (idle : t.Idle) :
    t.sender.state = .done ∧ t.receiver.done = true := by
  obtain ⟨failed, -⟩ | ⟨u, -, p⟩ := c.steady.phase
  · exact absurd (c.alive a) failed
  · cases p with
    | offered _ _ _ _ split _ reads =>
        rw [idle.down] at split
        obtain ⟨-, rfl⟩ := List.append_eq_nil_iff.mp split.symm
        obtain ⟨-, line⟩ | ⟨-, some, -⟩ := reads
        · exact absurd line.symm (by simp)
        · exact absurd rfl some
    | answered _ _ _ _ _ _ more => exact absurd idle.up more
    | streaming state _ _ _ left =>
        obtain ⟨room, x, pumped, fewer⟩ := c.told.more (c.list ▸ a.sendable) state left
        have moves : t.step (.writable room) = some (t.sends x) := by
          rw [Transfer.step, c.same, ShareFileEnd.pump_stream state c.fine, pumped]
          rfl
        have same := congrArg (fun t => t.sender.remaining) (idle.quiet room _ moves)
        simp only [Transfer.sends] at same
        omega
    | stopped failed => exact absurd c.fine failed
    | finished state _ _ _ ended => exact ⟨state, ended.2⟩

/-- At the end the files are there. -/
theorem Course.shows (c : t.Course src T entries start disk)
    (a : Arranged src T D entries start disk dir overwrite d) (ended : t.receiver.done = true) :
    Shows dir d (src.afterAll T entries) (SourceFs.withWays D entries) t.disk.fs := by
  have going : ∀ {q : Prop}, t.receiver.done = false → q := by
    intro q h
    rw [h] at ended
    cases ended
  obtain ⟨failed, -⟩ | ⟨u, -, p⟩ := c.steady.phase
  · exact absurd (c.alive a) failed
  · cases p with
    | offered _ _ _ _ _ alive => exact going alive.2
    | answered _ _ _ _ _ _ _ awaits => exact going awaits.going
    | streaming _ _ _ _ _ awaits => exact going awaits.going
    | stopped _ _ _ awaits => exact going awaits.going
    | finished state _ _ through =>
        obtain ⟨p, all, alike⟩ := c.fed
        rw [through, List.append_nil] at all
        have said : Sent.encodeAll t.said = src.wholeOf T entries := by
          have told := c.told
          generalize Sent.encodeAll t.said = x at told
          cases told with
          | offered other => exact absurd (state.symm.trans other) (by simp)
          | streaming other => exact absurd (state.symm.trans other) (by simp)
          | ended => rw [c.list]
        obtain ⟨e', w', whole, -, closed, shows, -⟩ :=
          a.reached.whole a.named a.text a.sendable a.passable
        rw [all, said, whole] at alike
        rw [(alike.agree closed).2.fs]
        exact shows

/-! ## How long it takes -/

/-- A bound on the moves that carry something. -/
def left (src : SourceFs) (T : List Name → Option Bytes) (entries : List Entry) (t : Transfer) :
    Nat :=
  60 * ((src.wholeOf T entries).length - (Sent.encodeAll t.said).length) +
    30 * t.down.length + t.up.length

theorem Course.said_le (c : t.Course src T entries start disk) : (Sent.encodeAll t.said).length ≤
    (src.wholeOf T entries).length := by
  have := c.told.within_whole.length_le
  rwa [c.list] at this

theorem Course.up_le (c : t.Course src T entries start disk)
    (a : Arranged src T D entries start disk dir overwrite d) : t.up.length ≤ 28 := by
  by_cases none : t.up = []
  · simp [none]
  · obtain ⟨-, en, at_, within, answer⟩ := c.answer a none
    have small := (a.sendable.sound en (c.list ▸ List.mem_of_getElem? at_)).size
    have digits : (decimal (kept src T t en)).length ≤ 20 := length_decimal_le (by decide)
      (Nat.lt_of_le_of_lt within (Nat.lt_trans small (by decide)))
    have length := congrArg List.length answer
    have magic : (str "RESUME ").length = 7 := rfl
    rw [GetFileEnd.resumeLine] at length
    simp only [List.length_append, magic, List.length_singleton] at length
    omega

/-- While something goes down nothing comes up. -/
theorem Course.still_up (c : t.Course src T entries start disk)
    (a : Arranged src T D entries start disk dir overwrite d) (more : t.down ≠ []) : t.up = [] := by
  obtain ⟨failed, -⟩ | ⟨u, -, p⟩ := c.steady.phase
  · exact absurd (c.alive a) failed
  · cases p with
    | offered _ _ _ still => exact still
    | answered _ _ _ _ through => exact absurd through more
    | streaming _ _ _ still => exact still
    | stopped _ still => exact still
    | finished _ _ still => exact still

/-- What the sender says has bytes in it. -/
theorem encode_pumpStream {s : ShareFileEnd} {room : List Bool} {x : ShareFileEnd × List Sent}
    (h : ShareFileEnd.pumpStream src room s = some x) (fine : x.1.err = []) :
    x = (s, []) ∨ 0 < (Sent.encodeAll x.2).length := by
  cases room with
  | nil =>
      simp only [ShareFileEnd.pumpStream] at h
      split at h
      · rw [if_true, Option.some.injEq] at h
        obtain ⟨line, -, -, coded, -⟩ := Phase.wrote_pumpOffer src
          { s with file := none, idx := s.idx + 1 }
        rw [← h, coded]
        exact .inr (by simp)
      · cases h
  | cons ready room =>
      unfold ShareFileEnd.pumpStream at h
      split at h
      · split at h
        · rename_i more
          cases more
        · cases h
      · cases ready with
        | false =>
            simp only at h
            split at h
            · cases h
              exact .inl rfl
            · cases h
        | true =>
            simp only at h
            split at h
            · split at h
              · cases h
                exact absurd fine (by simp [ShareFileEnd.fail, str])
              · cases h
            · rename_i some_
              obtain ⟨y, -, rfl⟩ := Option.map_eq_some_iff.mp h
              refine .inr ?_
              simp only [Sent.encodeAll, List.flatMap_cons, Sent.encode, List.length_append]
              have := List.length_pos_iff.mpr some_
              omega

theorem encode_pump {s : ShareFileEnd} {room : List Bool} {x : ShareFileEnd × List Sent}
    (h : s.pump src room = some x) (err : s.err = [])
    (states : s.state = .waitResume ∨ s.state = .stream ∨ s.state = .done) (fine : x.1.err = []) :
    x = (s, []) ∨ 0 < (Sent.encodeAll x.2).length := by
  have idle : ∀ {q : Prop} [Decidable q], (if q then some (s, []) else none) = some x →
      x = (s, []) ∨ 0 < (Sent.encodeAll x.2).length := by
    intro q _ h
    split at h
    · cases h
      exact .inl rfl
    · cases h
  rw [ShareFileEnd.pump, if_neg (by simp [err])] at h
  rcases states with hs | hs | hs
  · rw [hs] at h
    exact idle h
  · rw [hs] at h
    exact encode_pumpStream h fine
  · rw [hs] at h
    exact idle h

/-- Every move but one of the C library's carries something, if it does anything. -/
theorem Course.fewer (c : t.Course src T entries start disk)
    (a : Arranged src T D entries start disk dir overwrite d) (same : still t m)
    (h : t.step m = some t') :
    t' = t ∨ (∃ n, m = .flush n) ∧ t'.left src T entries = t.left src T entries ∨
      t'.left src T entries < t.left src T entries := by
  have c' := c.step a same h
  have said := c'.said_le
  have up := c'.up_le a
  cases m with
  | change src' => exact absurd same id
  | flush n =>
      cases h
      exact .inr (.inl ⟨⟨n, rfl⟩, rfl⟩)
  | deliver n =>
      simp only [Transfer.step] at h
      split at h
      · rename_i within
        cases h
        have none := c.still_up a fun none => by
          rw [none, List.length_nil] at within
          omega
        refine .inr (.inr ?_)
        simp only [left, List.length_drop, none, List.length_nil] at up ⊢
        omega
      · cases h
  | writable room =>
      obtain ⟨x, hx, rfl⟩ := Option.map_eq_some_iff.mp h
      rcases encode_pump hx c.fine c.told.states c'.fine with rfl | bytes
      · exact .inl (by simp [Transfer.sends, Sent.encodeAll])
      · refine .inr (.inr ?_)
        simp only [Transfer.sends, Phase.encodeAll_append, List.length_append] at said
        simp only [left, Transfer.sends, Phase.encodeAll_append, List.length_append] at said ⊢
        omega
  | answer n room =>
      simp only [Transfer.step] at h
      split at h
      · rename_i within
        obtain ⟨x, hx, rfl⟩ := Option.map_eq_some_iff.mp h
        refine .inr (.inr ?_)
        simp only [Transfer.sends, Phase.encodeAll_append, List.length_append] at said
        simp only [left, Transfer.sends, Phase.encodeAll_append, List.length_append,
          List.length_drop] at said ⊢
        omega
      · cases h

end Transfer

/-! ## Into an empty directory -/

namespace SourceFs
variable {src : SourceFs} {T : List Name → Option Bytes} {D : List Name → Prop}
  {ens : List Entry} {overwrite : Bool}

/-- What has come so far is in nobody's way. -/
theorem passable_fresh (done : List Entry) (ok : src.Sendable (done ++ ens))
    (ordered : Ordered (done ++ ens))
    (files : ∀ k b, T k = some b → ∃ a ∈ done, k = namesOf a.relpath)
    (ways : ∀ k, D k → k = [] ∨ ∃ a ∈ done, k <+: a.way) : src.Passable overwrite T D ens := by
  induction ens generalizing done T D with
  | nil => trivial
  | cons en ens ih =>
      have here : en ∈ done ++ en :: ens := List.mem_append_right _ List.mem_cons_self
      have named := Entry.names_eq (ok.named en here)
      have before : ∀ a ∈ done, Before (namesOf a.relpath) (en.way ++ [en.name]) := by
        intro a ha
        rw [← named]
        exact (List.pairwise_append.mp ordered).2.2 a ha en List.mem_cons_self
      have vacant : ∀ s, T (en.way ++ [en.name ++ s]) = none := by
        intro s
        by_contra there
        obtain ⟨b, hb⟩ := Option.ne_none_iff_exists'.mp there
        obtain ⟨a, ha, same⟩ := files _ b hb
        exact (before a ha).beside s (same ▸ List.prefix_rfl)
      have noDir : ∀ s, ¬ D (en.way ++ [en.name ++ s]) := by
        intro s there
        rcases ways _ there with none_ | ⟨a, ha, inside⟩
        · simp at none_
        · exact (before a ha).beside s (inside.trans (List.dropLast_prefix _))
      have own : en.way ++ [en.name ++ []] = en.way ++ [en.name] := by rw [List.append_nil]
      refine ⟨⟨?_, fun k hk => ?_, .inl (own ▸ vacant []), fun y hy => ?_, own ▸ noDir [],
        noDir _, noDir _⟩, ih (done ++ [en]) ?_ ?_ (fun k b hb => ?_) fun k hk => ?_⟩
      · rw [← named]
        exact plain_namesOf (ok.sound en here).text
      · by_contra there
        obtain ⟨b, hb⟩ := Option.ne_none_iff_exists'.mp there
        obtain ⟨a, ha, rfl⟩ := files k b hb
        exact (before a ha).not_front (hk.trans (List.prefix_append _ _))
      · exact absurd ((vacant _).symm.trans hy) (by simp)
      · rwa [List.append_assoc, List.singleton_append]
      · rwa [List.append_assoc, List.singleton_append]
      · rcases after_some hb with ⟨rfl, -⟩ | there
        · exact ⟨en, List.mem_append_right _ List.mem_cons_self, named.symm⟩
        · obtain ⟨a, ha, same⟩ := files k b there
          exact ⟨a, List.mem_append_left _ ha, same⟩
      · rcases hk with was | new
        · refine (ways k was).imp_right ?_
          rintro ⟨a, ha, inside⟩
          exact ⟨a, List.mem_append_left _ ha, inside⟩
        · exact .inr ⟨en, List.mem_append_right _ List.mem_cons_self, new⟩

/-- What is shared can be read, and comes in order. -/
theorem sendable_of_shared {path : Bytes} (shared : src.shareEntries path = .ok ens)
    (clean : 0 ∉ path) (plain : ∀ en ∈ ens, newline ∉ en.relpath)
    (readable : ∀ en ∈ ens, src.content en.abspath ≠ none) : src.Sendable ens ∧ Ordered ens := by
  have found : (∀ en ∈ ens, src.stat en.abspath = some (.reg en.size) ∧
      namesOf en.relpath ≠ []) ∧ Ordered ens := by
    simp only [shareEntries] at shared
    cases hs : src.stat path with
    | none =>
        simp only [hs] at shared
        cases shared
    | some st =>
        cases st with
        | other =>
            simp only [hs] at shared
            cases shared
        | reg size =>
            simp only [hs] at shared
            cases shared
            refine ⟨fun en hen => ?_, List.pairwise_singleton _ _⟩
            rw [List.mem_singleton] at hen
            subst hen
            obtain ⟨c, last, plain⟩ := src.reg_plain hs
            refine ⟨hs, ?_⟩
            obtain ⟨some, noDot, noUp, noSlash⟩ := plain
            simp [basenameOf, last, namesOf, comps_of_notMem noSlash, some, noDot, noUp]
        | dir =>
            simp only [hs] at shared
            have listed : ens = src.walk pathMax path (basenameOf path) := by
              split at shared
              · cases shared
              · cases shared
              · rename_i l hl
                cases shared
                cases hl
                rfl
            subst listed
            refine ⟨fun en hen => ?_, src.walk_ordered _ _ _⟩
            obtain ⟨cs, some, all, rel, -, size⟩ := walk_spec _ _ _ en hen
            refine ⟨size, ?_⟩
            rw [rel, names_append _ fun c hc => (all c hc).1]
            simp [some]
  have bytes : ∀ en ∈ ens, src.content en.abspath = some (src.bytesOf en) := by
    intro en hen
    obtain ⟨b, hb⟩ := Option.ne_none_iff_exists'.mp (readable en hen)
    rw [bytesOf, hb, Option.getD_some]
  refine ⟨⟨fun en hen => ?_, bytes, fun en hen => ?_, fun en hen => (found.1 en hen).2⟩, found.2⟩
  · obtain ⟨some, text, short, size⟩ := shareEntries_sound shared clean en hen
    exact ⟨plain en hen, text, some, short, size⟩
  · exact src.size_content (found.1 en hen).1 (bytes en hen)

end SourceFs

namespace GetFileEnd
variable {w : Files}

/-- An end that has just been made, at an empty directory. -/
theorem reached_empty (target : Bytes) (overwrite : Bool) (granted : w.Grants)
    (here : w.fs.node w.fs.cwd = some .dir)
    (empty : w.fs.readdir ({ target, overwrite } : GetFileEnd).dir = some []) :
    ∃ d, Reached ({ target, overwrite } : GetFileEnd).dir overwrite d (fun _ => none) (· = [])
      { target, overwrite } w := by
  obtain ⟨d, at_, listed⟩ := Option.bind_eq_some_iff.mp empty
  obtain ⟨base, none_⟩ := Option.ite_none_right_eq_some.mp listed
  have nothing : ∀ {k : List Name} {n : Node}, w.fs.node (k.reverse ++ d) = some n → k = [] := by
    intro k n hn
    cases k with
    | nil => rfl
    | cons c k =>
        have gone : w.fs.node (c :: d) = none := by
          by_contra there
          have listed := w.fs.mem_entries.mpr there
          rw [Option.some.inj none_] at listed
          cases listed
        rw [List.reverse_cons, List.append_assoc, List.singleton_append] at hn
        by_cases last : k.reverse = []
        · rw [last, List.nil_append, gone] at hn
          cases hn
        · rw [leaf_below (by simp [gone]) _ last] at hn
          cases hn
  refine ⟨d, ⟨rfl, rfl, rfl, rfl, rfl, rfl, rfl, granted⟩, ⟨at_, base, here, fun hf => ?_,
    fun hT => ?_, fun hd => nothing hd⟩⟩
  · obtain rfl := nothing hf
    rw [List.reverse_nil, List.nil_append, base] at hf
    cases hf
  · cases hT

theorem text_dir {target : Bytes} (text : 0 ∉ target) (overwrite : Bool) :
    0 ∉ ({ target, overwrite } : GetFileEnd).dir := by
  rw [dir]
  split
  · decide
  · exact text

end GetFileEnd

/-- Below the directory there is one file for each entry, with its bytes, and no other file. -/
structure Delivered (src : SourceFs) (entries : List Entry) (dir : Bytes) (fs : FileSystem) :
    Prop where
  each : ∀ en ∈ entries, ∃ i,
    fs.stat (dir ++ [slash] ++ safeRelpath en.relpath) = some (.file i) ∧
      src.content en.abspath = some (fs.data i)
  only : ∀ d q i, fs.resolve dir = some d → d <:+ q → fs.node q = some (.file i) →
    ∃ en ∈ entries, fs.resolve (dir ++ [slash] ++ safeRelpath en.relpath) = some q
  apart : entries.Pairwise fun a b => fs.resolve (dir ++ [slash] ++ safeRelpath a.relpath) ≠
    fs.resolve (dir ++ [slash] ++ safeRelpath b.relpath)

section Delivered
variable {src : SourceFs} {entries : List Entry} {dir : Bytes} {d : Path}
  {T : List Name → Option Bytes} {D : List Name → Prop} {fs : FileSystem}

theorem resolve_entry (ok : src.Sendable entries) (ht : dir ≠ []) (shows : Shows dir d T D fs)
    {en : Entry} (h : en ∈ entries) (there : T (en.way ++ [en.name]) = some (src.bytesOf en)) :
    fs.resolve (dir ++ [slash] ++ safeRelpath en.relpath) =
      some ((namesOf en.relpath).reverse ++ d) ∧
      ∃ i, fs.node ((namesOf en.relpath).reverse ++ d) = some (.file i) ∧
        src.content en.abspath = some (fs.data i) := by
  have names := Entry.names_eq (ok.named en h)
  obtain ⟨i, node, data⟩ := shows.file_of there
  have plain := SourceFs.plain_namesOf (ok.sound en h).text
  have path : dir ++ [slash] ++ safeRelpath en.relpath = dir ++ joinPath (namesOf en.relpath) := by
    rw [List.append_assoc, List.singleton_append, safeRelpath_names (ok.named en h)]
  rw [path]
  rw [names] at plain ⊢
  refine ⟨?_, i, node, data ▸ ok.readable en h⟩
  rw [← Shows.key_cons] at node ⊢
  exact shows.resolve ht (fun x hx => (plain x (List.mem_append_left _ hx)).1)
    (plain en.name (List.mem_append_right _ List.mem_cons_self)).1 (fs.node_parent node)

/-- Each entry has been placed, and nothing else is there. -/
theorem delivered_of_shows (ok : src.Sendable entries) (ordered : SourceFs.Ordered entries)
    (ht : dir ≠ []) (shows : Shows dir d T D fs)
    (each : ∀ en ∈ entries, T (en.way ++ [en.name]) = some (src.bytesOf en))
    (only : ∀ k b, T k = some b → ∃ en ∈ entries, k = en.way ++ [en.name]) :
    Delivered src entries dir fs := by
  refine ⟨fun en hen => ?_, fun d' q i at_ below hq => ?_, ?_⟩
  · obtain ⟨resolved, i, node, bytes⟩ := resolve_entry ok ht shows hen (each en hen)
    exact ⟨i, by rw [stat, resolved, Option.bind_some, node], bytes⟩
  · obtain rfl : d = d' := Option.some.inj (shows.at_.symm.trans at_)
    obtain ⟨k, rfl⟩ := below
    have key : k.reverse.reverse ++ d = k ++ d := by rw [List.reverse_reverse]
    obtain ⟨en, hen, names⟩ := only _ _ (shows.file (key ▸ hq))
    refine ⟨en, hen, ?_⟩
    rw [(resolve_entry ok ht shows hen (each en hen)).1, Entry.names_eq (ok.named en hen), ← names,
      key]
  · refine ordered.imp_of_mem fun ha hb before same => ?_
    rw [(resolve_entry ok ht shows ha (each _ ha)).1,
      (resolve_entry ok ht shows hb (each _ hb)).1] at same
    exact before.ne (Shows.key_eq (Option.some.inj same))

end Delivered

/-! ## Everything arrives -/

namespace Transfer
variable {src : SourceFs} {T : List Name → Option Bytes} {D : List Name → Prop}
  {entries : List Entry} {disk : Files} {d : Path} {t : Transfer}

/-- Neither end has failed; a transfer that can go no further is over, and every move but one of
the C library's brings it nearer to that; once it is over the files are there. -/
structure Arrives (src : SourceFs) (entries : List Entry) (dir : Bytes) (left : Transfer → Nat)
    (t : Transfer) : Prop where
  sender : t.sender.err = []
  receiver : t.receiver.err = []
  ends : t.Idle → t.sender.state = .done ∧ t.receiver.done = true
  fewer : ∀ m t', still t m → t.step m = some t' →
    t' = t ∨ (∃ n, m = .flush n) ∧ left t' = left t ∨ left t' < left t
  shown : t.receiver.done = true → Delivered src entries dir t.disk.fs

theorem Course.arrives {start : GetFileEnd} {dir : Bytes} {overwrite : Bool}
    (c : t.Course src T entries start disk)
    (a : Arranged src T D entries start disk dir overwrite d) (ordered : SourceFs.Ordered entries)
    (only : ∀ k b, src.afterAll T entries k = some b → ∃ en ∈ entries, k = en.way ++ [en.name]) :
    t.Arrives src entries dir (left src T entries) where
  sender := c.fine
  receiver := c.alive a
  ends := c.ends a
  fewer _ _ same moved := c.fewer a same moved
  shown ended := delivered_of_shows a.sendable ordered a.named (c.shows a ended)
    (fun _ h => SourceFs.afterAll_mem ordered a.sendable.named h) only

/-- What is shared arrives in an empty directory. However the bytes are cut and whenever there is
room, neither end fails; a transfer that can go no further is over, and after so many moves it can
go no further; once it is over every file is below the target, whole, and nothing lies beside
them. -/
theorem files_arrive {path : Bytes} (shared : src.shareEntries path = .ok entries)
    (clean : 0 ∉ path) (plain : ∀ en ∈ entries, newline ∉ en.relpath)
    (readable : ∀ en ∈ entries, src.content en.abspath ≠ none) {target : Bytes} {overwrite : Bool}
    (text : 0 ∉ target) (granted : disk.Grants)
    (here : disk.fs.node disk.fs.cwd = some .dir)
    (empty : disk.fs.readdir ({ target, overwrite } : GetFileEnd).dir = some [])
    (h : Reach step still (begin src entries target overwrite disk) t) :
    t.Arrives src entries ({ target, overwrite } : GetFileEnd).dir
      (left src (fun _ => none) entries) := by
  obtain ⟨ok, ordered⟩ := SourceFs.sendable_of_shared shared clean plain readable
  obtain ⟨d, reached⟩ := GetFileEnd.reached_empty target overwrite granted here empty
  have passable : src.Passable overwrite (fun _ => none) (· = []) entries :=
    SourceFs.passable_fresh [] ok ordered (fun _ _ hT => by cases hT) fun _ => .inl
  have a : Arranged src (fun _ => none) (· = []) entries { target, overwrite } disk
      ({ target, overwrite } : GetFileEnd).dir overwrite d :=
    ⟨reached, ok, passable, GetFileEnd.dir_ne_nil _, GetFileEnd.text_dir text overwrite⟩
  have c : t.Course src (fun _ => none) entries { target, overwrite } disk :=
    h.invariant (course_begin src _ entries target overwrite granted)
      fun _ _ _ c same moved => c.step a same moved
  refine c.arrives a ordered fun k b hk => ?_
  rcases SourceFs.afterAll_some hk with ⟨en, hen, same, -⟩ | there
  · exact ⟨en, hen, same⟩
  · cases there

/-- The receiver's disk, with an empty directory on it. -/
def tray : Files := { fs := FileSystem.empty.addDir (str "t") [] FileSystem.empty.node_nil }

def stillCheck (_ : Transfer) : TransferMove → Bool
  | .change _ => false
  | .deliver _ | .answer .. | .writable _ | .flush _ => true

theorem stillCheck_sound (t : Transfer) (m : TransferMove) (h : stillCheck t m = true) :
    still t m := by
  cases m with
  | change src => cases h
  | deliver | answer | writable | flush => trivial

/-- A directory with one file of two bytes, and what is found in it. -/
def album : SourceFs :=
  Sample.dirOfOne (str "hi") (str "hi") (by decide) (by decide) (by decide)

def photos : List Entry := [⟨str "d/hi", str "/d/hi", 2⟩]

/-- It comes in small pieces. -/
theorem files_arrive_hi : ∃ t : Transfer, t.receiver.files = 1 ∧ t.sender.state = .done ∧
    Delivered album photos (str "t") t.disk.fs := by
  have shared : album.shareEntries (str "/d") = .ok photos := by
    decide +kernel
  obtain ⟨t, reached, seen⟩ := Reach.observedWhen step stillCheck_sound
    (begin album photos (str "t") false tray)
    [.deliver 9, .deliver 13, .flush 1, .answer 4 [], .answer 5 [true], .deliver 1, .flush 1,
      .deliver 11]
    (fun t => (t.receiver.files, t.sender.state, t.receiver.done))
    (by decide +kernel : _ = some (1, SendState.done, true))
  obtain ⟨files, both⟩ := Prod.mk.inj seen
  obtain ⟨state, ended⟩ := Prod.mk.inj both
  refine ⟨t, files, state, ?_⟩
  exact (files_arrive shared (by decide) (by decide) (by decide +kernel) (by decide)
    ⟨fun _ => rfl, fun _ => rfl⟩ (FileSystem.node_nil _) (by decide +kernel) reached).shown ended

end Transfer
end Splice.Peer
