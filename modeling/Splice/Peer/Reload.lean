import Splice.Peer.Consistency
import Splice.Peer.Sockets
import Splice.Peer.Ownership

/-!
RELOAD against every session table and every set of records. A session is named by its
key where the source keeps a pointer to it, so the sockets' tables follow a session that
gets a new name. What is gone is dropped first, what is renamed is taken out before any
of it is put back, and then every record finds the session with its uid under its name
or nothing there: in between no two of the passes meet at one key.
-/

namespace Splice.Peer
open Lib Proto

/-! ## On the hub -/

namespace Sockets
variable (k : Sockets)

def rekey (f : Bytes → Bytes) : Sockets :=
  { k with
    readers := k.readers.map fun _ r => match r with
      | .owner po => .owner { po with key := f po.key }
      | .client key id => .client (f key) id
    out := k.out.map fun _ o =>
      { o with q := o.q.map fun c => { c with key := c.key.map f } }
    paused := k.paused.map fun _ po => { po with key := f po.key } }

/-- The descriptor is closed or waits for its output to be written, and it is not read. -/
structure LetGo (fd : Int) : Prop where
  readers : k.readers[fd]? = none
  clients : k.clients[fd]? = none ∨ ∃ o, k.out[fd]? = some o ∧ o.closing = true

end Sockets

namespace Hub

/-- The name the session under `key` has on disk. -/
def nameOnDisk (h : Hub) (disk : Std.ExtTreeMap Bytes ConnRecord) (key : Bytes) : Bytes :=
  match (h.daemon.sessions[key]?).bind fun s => disk[s.record.uid.toList]? with
  | none => key
  | some r => r.name

def reload (h : Hub) (e : Moment) (a : Answers) : Option (Hub × Bytes) := do
  let disk := h.daemon.onDisk a
  let gone := h.daemon.goneNames disk
  let moved := h.daemon.movedNames disk
  let h ← gone.foldlM (fun h name => h.dropSession e name) h
  let (d, added) ← (disk.toList.map (·.2)).foldlM (Daemon.adopt a)
    (h.daemon.moveAll disk moved, 0)
  return ({ daemon := d, net := h.net.rekey (h.nameOnDisk disk) },
    decimal d.sessions.size ++ str " peer(s): " ++ decimal added ++ str " added, " ++
      decimal gone.length ++ str " removed, " ++ decimal moved.length ++ str " renamed")

end Hub

/-! ## The passes over the table -/

namespace Daemon
variable {d d' : Daemon} {a : Answers} {disk : Std.ExtTreeMap Bytes ConnRecord}

/-- Records by uid, each name once. -/
structure Indexed (disk : Std.ExtTreeMap Bytes ConnRecord) : Prop where
  keyed : ∀ {u : Bytes} {r : ConnRecord}, disk[u]? = some r → r.uid.toList = u
  named : ∀ {u u' : Bytes} {r r' : ConnRecord}, disk[u]? = some r → disk[u']? = some r' →
    r.name = r'.name → r = r'

theorem indexed_onDisk
    (names : ((d.disk.store.loadAll d.disk.fs a.rank).map (·.name)).Nodup) :
    Indexed (d.onDisk a) where
  keyed h := (onDisk_some h).2
  named h h' same := List.inj_on_of_nodup_map names (onDisk_some h).1 (onDisk_some h').1 same

/-- With every uid once, all the records are there. -/
theorem onDisk_eq_of_mem (uids : ((d.disk.store.loadAll d.disk.fs a.rank).map (·.uid)).Nodup)
    {r : ConnRecord} (hr : r ∈ d.disk.store.loadAll d.disk.fs a.rank) :
    (d.onDisk a)[r.uid.toList]? = some r := by
  obtain ⟨r', hr'⟩ := onDisk_of_mem (a := a) hr
  obtain ⟨hmem, hu⟩ := onDisk_some hr'
  rw [hr', List.inj_on_of_nodup_map uids hmem hr (Subtype.ext hu)]

/-- The session `s` under `key` follows the record `r`. -/
def Follows (d : Daemon) (disk : Std.ExtTreeMap Bytes ConnRecord) (key : Bytes) (s : Session)
    (r : ConnRecord) : Prop :=
  d.sessions[key]? = some s ∧ disk[s.record.uid.toList]? = some r

/-- No two sessions follow one record. -/
def Single (d : Daemon) (disk : Std.ExtTreeMap Bytes ConnRecord) : Prop :=
  ∀ {k k' : Bytes} {s s' : Session} {r : ConnRecord},
    d.Follows disk k s r → d.Follows disk k' s' r → k = k'

/-- A session that is where it should be is not touched. -/
def renamed (key : Bytes) (s : Session) (r : ConnRecord) : Session :=
  if r.name = key then s else { s with name := r.name }

theorem mem_goneNames {key : Bytes} : key ∈ d.goneNames disk ↔
    ∃ s, d.sessions[key]? = some s ∧ disk[s.record.uid.toList]? = none := by
  simp only [goneNames, List.mem_map, List.mem_filter, Option.isNone_iff_eq_none]
  constructor
  · rintro ⟨⟨k, s⟩, ⟨hs, none⟩, rfl⟩
    exact ⟨s, Std.ExtTreeMap.mem_toList_iff_getElem?_eq_some.mp hs, none⟩
  · rintro ⟨s, hs, none⟩
    exact ⟨(key, s), ⟨Std.ExtTreeMap.mem_toList_iff_getElem?_eq_some.mpr hs, none⟩, rfl⟩

theorem mem_movedNames {key : Bytes} : key ∈ d.movedNames disk ↔
    ∃ s r, d.Follows disk key s r ∧ r.name ≠ key := by
  simp only [movedNames, List.mem_map, List.mem_filter, Option.any_eq_true, decide_eq_true_eq]
  constructor
  · rintro ⟨⟨k, s⟩, ⟨hs, r, hr, moved⟩, rfl⟩
    exact ⟨s, r, ⟨Std.ExtTreeMap.mem_toList_iff_getElem?_eq_some.mp hs, hr⟩, moved⟩
  · rintro ⟨s, r, ⟨hs, hr⟩, moved⟩
    have there := Std.ExtTreeMap.mem_toList_iff_getElem?_eq_some.mpr hs
    exact ⟨(key, s), ⟨there, r, hr, moved⟩, rfl⟩

/-- The sessions the table has once the renamed ones are back. -/
def Moved (d : Daemon) (disk : Std.ExtTreeMap Bytes ConnRecord)
    (m : Std.ExtTreeMap Bytes Session) : Prop :=
  ∀ (key : Bytes) (t : Session), m[key]? = some t ↔
    ∃ k s r, d.Follows disk k s r ∧ r.name = key ∧ t = renamed k s r

theorem erased_some {moved : List Bytes} {m : Std.ExtTreeMap Bytes Session} {key : Bytes}
    {s : Session} : (moved.foldl (fun m name => m.erase name) m)[key]? = some s ↔
      m[key]? = some s ∧ key ∉ moved := by
  induction moved generalizing m with
  | nil => simp
  | cons name moved ih =>
      rw [List.foldl_cons, ih, lookup_erase, List.mem_cons, not_or]
      constructor
      · rintro ⟨there, out⟩
        split at there
        · cases there
        · rename_i other
          exact ⟨there, Ne.symm other, out⟩
      · rintro ⟨there, other, out⟩
        rw [if_neg (Ne.symm other)]
        exact ⟨there, out⟩

/-- Put back those of `done`, the others of `moved` being out. -/
def Back (d : Daemon) (disk : Std.ExtTreeMap Bytes ConnRecord) (moved done : List Bytes)
    (m : Std.ExtTreeMap Bytes Session) : Prop :=
  ∀ (key : Bytes) (t : Session), m[key]? = some t ↔
    ∃ k s r, d.Follows disk k s r ∧ r.name = key ∧ t = renamed k s r ∧
      (k ∈ moved → k ∈ done)

theorem Back.reinsert {m : Std.ExtTreeMap Bytes Session} {done : List Bytes}
    (idx : Indexed disk) (single : d.Single disk) {moved : List Bytes}
    (all : ∀ key, key ∈ moved ↔ ∃ s r, d.Follows disk key s r ∧ r.name ≠ key)
    (back : d.Back disk moved done m) {name : Bytes} {s : Session}
    (there : d.sessions[name]? = some s) (moves : name ∈ moved) :
    d.Back disk moved (done ++ [name]) (Daemon.reinsert disk m s) := by
  obtain ⟨s', r, follows, away⟩ := (all _).mp moves
  obtain rfl : s' = s := Option.some.inj (follows.1.symm.trans there)
  have itself : renamed name s' r = { s' with name := r.name } := if_neg away
  simp only [Daemon.reinsert, follows.2]
  intro key t
  have new : ∀ {k : Bytes}, (k ∈ moved → k ∈ done ++ [name]) ↔
      (k ∈ moved → k ∈ done) ∨ k = name := by
    intro k
    simp only [List.mem_append, List.mem_singleton]
    by_cases e : k = name
    · simp [e]
    · simp [e]
  -- a session that is back under the name follows the same record
  have same : ∀ {k : Bytes} {s₁ : Session} {r₁ : ConnRecord}, d.Follows disk k s₁ r₁ →
      r₁.name = r.name → k = name := by
    intro k s₁ r₁ f e
    obtain rfl := idx.named f.2 follows.2 e
    exact single f follows
  split
  · rename_i taken
    rw [back key t]
    refine ⟨?_, ?_⟩
    · rintro ⟨k, s₁, r₁, f, e, ht, hk⟩
      exact ⟨k, s₁, r₁, f, e, ht, new.mpr (.inl hk)⟩
    · rintro ⟨k, s₁, r₁, f, e, ht, hk⟩
      refine ⟨k, s₁, r₁, f, e, ht, ?_⟩
      rcases new.mp hk with hk | rfl
      · exact hk
      · obtain ⟨t', ht'⟩ := Option.isSome_iff_exists.mp
          (Std.ExtTreeMap.contains_eq_isSome_getElem?.symm.trans taken)
        obtain ⟨k', s₂, r₂, f', e', -, hk'⟩ := (back r.name t').mp ht'
        exact same f' e' ▸ hk'
  · rename_i free
    have free : m[r.name]? = none := by
      rw [← Option.not_isSome_iff_eq_none, ← Std.ExtTreeMap.contains_eq_isSome_getElem?]
      exact free
    rw [lookup_insert]
    split
    · rename_i e
      subst e
      constructor
      · intro ht
        cases ht
        exact ⟨name, s', r, follows, rfl, itself.symm, new.mpr (.inr rfl)⟩
      · rintro ⟨k, s₁, r₁, f, e, rfl, hk⟩
        obtain rfl := same f e
        obtain rfl : s₁ = s' := Option.some.inj (f.1.symm.trans there)
        obtain rfl : r₁ = r := Option.some.inj (f.2.symm.trans follows.2)
        rw [itself]
    · rename_i other
      rw [back key t]
      refine ⟨?_, ?_⟩
      · rintro ⟨k, s₁, r₁, f, e, ht, hk⟩
        exact ⟨k, s₁, r₁, f, e, ht, new.mpr (.inl hk)⟩
      · rintro ⟨k, s₁, r₁, f, e, ht, hk⟩
        refine ⟨k, s₁, r₁, f, e, ht, ?_⟩
        rcases new.mp hk with hk | rfl
        · exact hk
        · obtain rfl : s₁ = s' := Option.some.inj (f.1.symm.trans there)
          obtain rfl : r₁ = r := Option.some.inj (f.2.symm.trans follows.2)
          exact absurd e other

/-- Every session being on disk, and no two for one record, the second pass moves each to its
name. -/
theorem moveAll_moved (idx : Indexed disk) (single : d.Single disk) {moved : List Bytes}
    (all : ∀ key, key ∈ moved ↔ ∃ s r, d.Follows disk key s r ∧ r.name ≠ key)
    (known : ∀ (key : Bytes) (s : Session), d.sessions[key]? = some s →
      ∃ r, disk[s.record.uid.toList]? = some r) :
    d.Moved disk (d.moveAll disk moved).sessions := by
  have start : d.Back disk moved []
      (moved.foldl (fun m name => m.erase name) d.sessions) := by
    intro key t
    rw [erased_some]
    constructor
    · rintro ⟨there, stays⟩
      obtain ⟨r, hr⟩ := known key t there
      have e : r.name = key := by
        by_contra away
        exact stays ((all _).mpr ⟨t, r, ⟨there, hr⟩, away⟩)
      exact ⟨key, t, r, ⟨there, hr⟩, e, (if_pos e).symm, fun moves => absurd moves stays⟩
    · rintro ⟨k, s, r, f, e, rfl, hk⟩
      have stays : k ∉ moved := fun moves => by cases hk moves
      have at_ : r.name = k := by
        by_contra away
        exact stays ((all _).mpr ⟨s, r, f, away⟩)
      rw [renamed, if_pos at_, ← e, at_]
      exact ⟨f.1, stays⟩
  have run : ∀ (rest done : List Bytes) (m : Std.ExtTreeMap Bytes Session),
      (∀ name ∈ rest, name ∈ moved) → d.Back disk moved done m →
      d.Back disk moved (done ++ rest)
        ((rest.filterMap fun name => d.sessions[name]?).foldl (reinsert disk) m) := by
    intro rest
    induction rest with
    | nil =>
        intro done m _ back
        rw [List.append_nil]
        exact back
    | cons name rest ih =>
        intro done m sub back
        have moves := sub name List.mem_cons_self
        obtain ⟨s, r, follows, -⟩ := (all _).mp moves
        rw [List.filterMap_cons, follows.1]
        have next := ih (done ++ [name]) _ (fun n hn => sub n (List.mem_cons_of_mem name hn))
          (back.reinsert idx single all follows.1 moves)
        rwa [List.append_assoc, List.singleton_append] at next
  intro key t
  rw [moveAll]
  refine (run _ [] _ (fun _ h => h) start key t).trans ⟨?_, ?_⟩
  · rintro ⟨k, s, r, f, e, ht, -⟩
    exact ⟨k, s, r, f, e, ht⟩
  · rintro ⟨k, s, r, f, e, ht⟩
    exact ⟨k, s, r, f, e, ht, fun moves => moves⟩

/-- Every session has a record's uid and is under its name. -/
def Keyed (disk : Std.ExtTreeMap Bytes ConnRecord) (d : Daemon) : Prop :=
  ∀ (key : Bytes) (t : Session), d.sessions[key]? = some t →
    ∃ r, disk[t.record.uid.toList]? = some r ∧ r.name = key

/-- What a record makes of the session under its name. -/
structure Adopted (r : ConnRecord) (d d' : Daemon) : Prop where
  disk : d'.disk = d.disk
  others : ∀ key, key ≠ r.name → d'.sessions[key]? = d.sessions[key]?
  its : ∀ t, d.sessions[r.name]? = some t →
    t.pm.isSome = true ∧ d'.sessions[r.name]? = some { t with record := r }
  new : d.sessions[r.name]? = none →
    ∃ n, d'.sessions[r.name]? = some (Session.start d.disk {} r n)

theorem Keyed.uid_iff (idx : Indexed disk) (keyed : d.Keyed disk) {r : ConnRecord}
    (its : disk[r.uid.toList]? = some r) {key : Bytes} {t : Session}
    (there : d.sessions[key]? = some t) : t.record.uid = r.uid ↔ key = r.name := by
  obtain ⟨r', hr', e⟩ := keyed key t there
  constructor
  · intro same
    rw [same] at hr'
    rw [← e, Option.some.inj (hr'.symm.trans its)]
  · intro same
    obtain rfl := idx.named hr' its (e.trans same)
    exact (Subtype.ext (idx.keyed hr')).symm

/-- The sessions with the uid of a record are the one under its name. -/
theorem Keyed.filter_eq_nil_iff (idx : Indexed disk) (keyed : d.Keyed disk) {r : ConnRecord}
    (its : disk[r.uid.toList]? = some r) :
    (d.sessions.toList.filter fun e => e.2.record.uid = r.uid) = [] ↔
      d.sessions[r.name]? = none := by
  rw [List.filter_eq_nil_iff]
  constructor
  · intro all
    by_contra there
    obtain ⟨t, ht⟩ := Option.ne_none_iff_exists'.mp there
    exact all (r.name, t) (Std.ExtTreeMap.mem_toList_iff_getElem?_eq_some.mpr ht)
      (decide_eq_true ((keyed.uid_iff idx its ht).mpr rfl))
  · rintro none ⟨key, t⟩ ht same
    have there := Std.ExtTreeMap.mem_toList_iff_getElem?_eq_some.mp ht
    rw [(keyed.uid_iff idx its there).mp (of_decide_eq_true same), none] at there
    cases there

theorem adopt_adopted (sock : ∀ n, a.sock n = true) (idx : Indexed disk) {da da' : Daemon × Nat}
    (keyed : da.1.Keyed disk) {r : ConnRecord} (its : disk[r.uid.toList]? = some r)
    (had : adopt a da r = some da') : Adopted r da.1 da'.1 := by
  simp only [adopt] at had
  split at had
  · rename_i empty
    have none := (keyed.filter_eq_nil_iff idx its).mp empty
    cases had
    simp only [startSession, sock, if_true, none, Option.getD_none]
    refine ⟨rfl, fun key other => lookup_insert_ne other, fun t ht => ?_, fun _ => ?_⟩
    · rw [none] at ht
      cases ht
    · exact ⟨da.1.objects, Std.ExtTreeMap.getElem?_insert_self⟩
  · rename_i some_
    split at had
    · rename_i live
      cases had
      refine ⟨rfl, fun key other => ?_, fun t ht => ⟨?_, ?_⟩, fun none => ?_⟩
      · simp only [Std.ExtTreeMap.getElem?_map]
        cases there : da.1.sessions[key]? with
        | none => rfl
        | some t =>
            rw [Option.map_some, if_neg fun same => other ((keyed.uid_iff idx its there).mp same)]
      · refine List.all_eq_true.mp live (r.name, t) (List.mem_filter.mpr ⟨?_, ?_⟩)
        · exact Std.ExtTreeMap.mem_toList_iff_getElem?_eq_some.mpr ht
        · exact decide_eq_true ((keyed.uid_iff idx its ht).mpr rfl)
      · simp only [Std.ExtTreeMap.getElem?_map, ht, Option.map_some,
          if_pos ((keyed.uid_iff idx its ht).mpr rfl)]
      · exact absurd ((keyed.filter_eq_nil_iff idx its).mpr none) some_
    · cases had

theorem adopt_some (idx : Indexed disk) {da : Daemon × Nat} (keyed : da.1.Keyed disk)
    {r : ConnRecord} (its : disk[r.uid.toList]? = some r)
    (live : ∀ t, da.1.sessions[r.name]? = some t → t.pm.isSome = true) :
    ∃ da', adopt a da r = some da' := by
  simp only [adopt]
  split
  · exact ⟨_, rfl⟩
  · rw [if_pos]
    · exact ⟨_, rfl⟩
    · refine List.all_eq_true.mpr fun e he => ?_
      obtain ⟨mem, same⟩ := List.mem_filter.mp he
      have there := Std.ExtTreeMap.mem_toList_iff_getElem?_eq_some.mp mem
      exact live e.2 ((keyed.uid_iff idx its there).mp (of_decide_eq_true same) ▸ there)

theorem Adopted.keyed (keyed : d.Keyed disk) {r : ConnRecord}
    (its : disk[r.uid.toList]? = some r) (h : Adopted r d d') : d'.Keyed disk := by
  intro key t there
  by_cases e : key = r.name
  · subst e
    cases old : d.sessions[r.name]? with
    | none =>
        obtain ⟨n, new⟩ := h.new old
        obtain rfl := Option.some.inj (there.symm.trans new)
        have rec_ : (Session.start d.disk {} r n).record = r :=
          congrArg Face.record (Session.face_start d.disk {} r n)
        exact ⟨r, by rw [rec_]; exact its, rfl⟩
    | some s =>
        obtain rfl := Option.some.inj (there.symm.trans (h.its s old).2)
        exact ⟨r, its, rfl⟩
  · rw [h.others key e] at there
    exact keyed key t there

/-- The third pass: each record by itself. -/
structure AllAdopted (rs : List ConnRecord) (d d' : Daemon) : Prop where
  disk : d'.disk = d.disk
  others : ∀ key, (∀ r ∈ rs, r.name ≠ key) → d'.sessions[key]? = d.sessions[key]?
  its : ∀ r ∈ rs, ∀ t, d.sessions[r.name]? = some t →
    t.pm.isSome = true ∧ d'.sessions[r.name]? = some { t with record := r }
  new : ∀ r ∈ rs, d.sessions[r.name]? = none →
    ∃ n, d'.sessions[r.name]? = some (Session.start d.disk {} r n)

theorem adoptAll_adopted (sock : ∀ n, a.sock n = true) (idx : Indexed disk)
    {rs : List ConnRecord} (names : (rs.map (·.name)).Nodup)
    (its : ∀ r ∈ rs, disk[r.uid.toList]? = some r) {da da' : Daemon × Nat}
    (keyed : da.1.Keyed disk) (had : rs.foldlM (adopt a) da = some da') :
    AllAdopted rs da.1 da'.1 := by
  induction rs generalizing da with
  | nil =>
      cases had
      exact ⟨rfl, fun _ _ => rfl, (fun r hr => by cases hr), (fun r hr => by cases hr)⟩
  | cons r rs ih =>
      rw [List.foldlM_cons] at had
      obtain ⟨da₁, one, had⟩ := Option.bind_eq_some_iff.mp had
      rw [List.map_cons, List.nodup_cons] at names
      have first := adopt_adopted sock idx keyed (its r List.mem_cons_self) one
      have rest := ih names.2 (fun r' hr' => its r' (List.mem_cons_of_mem r hr'))
        (first.keyed keyed (its r List.mem_cons_self)) had
      have apart : ∀ r' ∈ rs, r'.name ≠ r.name := fun r' hr' e =>
        names.1 (e ▸ List.mem_map_of_mem hr')
      have after : da'.1.sessions[r.name]? = da₁.1.sessions[r.name]? := rest.others _ apart
      refine ⟨rest.disk.trans first.disk, fun key none => ?_, fun r' hr' t ht => ?_,
        fun r' hr' none => ?_⟩
      · rw [rest.others key fun r' hr' => none r' (List.mem_cons_of_mem r hr'),
          first.others key fun e => none r List.mem_cons_self e.symm]
      · rcases List.mem_cons.mp hr' with rfl | hr'
        · rw [after]
          exact first.its t ht
        · rw [← first.others _ (apart r' hr')] at ht
          exact rest.its r' hr' t ht
      · rcases List.mem_cons.mp hr' with rfl | hr'
        · rw [after]
          exact first.new none
        · rw [← first.others _ (apart r' hr')] at none
          rw [← first.disk]
          exact rest.new r' hr' none

theorem adoptAll_some (sock : ∀ n, a.sock n = true) (idx : Indexed disk) {rs : List ConnRecord}
    (names : (rs.map (·.name)).Nodup) (its : ∀ r ∈ rs, disk[r.uid.toList]? = some r)
    {da : Daemon × Nat} (keyed : da.1.Keyed disk)
    (live : ∀ r ∈ rs, ∀ t, da.1.sessions[r.name]? = some t → t.pm.isSome = true) :
    ∃ da', rs.foldlM (adopt a) da = some da' := by
  induction rs generalizing da with
  | nil => exact ⟨da, rfl⟩
  | cons r rs ih =>
      rw [List.map_cons, List.nodup_cons] at names
      obtain ⟨da₁, one⟩ := adopt_some (a := a) idx keyed (its r List.mem_cons_self)
        (live r List.mem_cons_self)
      have first := adopt_adopted sock idx keyed (its r List.mem_cons_self) one
      rw [List.foldlM_cons, one]
      refine ih names.2 (fun r' hr' => its r' (List.mem_cons_of_mem r hr'))
        (first.keyed keyed (its r List.mem_cons_self)) fun r' hr' t ht => ?_
      have apart : r'.name ≠ r.name := fun e => names.1 (e ▸ List.mem_map_of_mem hr')
      rw [first.others _ apart] at ht
      exact live r' (List.mem_cons_of_mem r hr') t ht

end Daemon

/-! ## What a dropped session leaves behind -/

namespace Sockets
variable {k k' k'' : Sockets} {fd : Int}

/-- Instances stay closed and descriptors that were let go stay so. -/
structure Winds (k k' : Sockets) : Prop where
  ended : ∀ x ∈ k.ended, x ∈ k'.ended
  letGo : ∀ fd, k.LetGo fd → k'.LetGo fd

namespace Winds

theorem refl (k : Sockets) : Winds k k := ⟨fun _ hx => hx, fun _ h => h⟩

theorem trans (h : Winds k k') (h' : Winds k' k'') : Winds k k'' :=
  ⟨fun x hx => h'.ended x (h.ended x hx), fun fd hf => h'.letGo fd (h.letGo fd hf)⟩

theorem unwatch (k : Sockets) (fd : Int) : Winds k (k.unwatch fd) := by
  refine ⟨fun _ hx => hx, fun fd' h => ⟨?_, h.clients⟩⟩
  simp only [Sockets.unwatch, lookup_erase]
  split
  · rfl
  · exact h.readers

end Winds

/-- The descriptor given to `close_client` is let go. -/
theorem letGo_closeClient (k : Sockets) (now : Nat) (fd : Int) :
    (k.closeClient now fd).LetGo fd := by
  simp only [closeClient]
  split
  · exact ⟨by simp [remove, close, call], .inl (by simp [remove, close, call])⟩
  · split
    · exact ⟨by simp [remove, close, call], .inl (by simp [remove, close, call])⟩
    · exact ⟨by simp [Sockets.unwatch, call],
        .inr ⟨_, Std.ExtTreeMap.getElem?_insert_self, rfl⟩⟩

theorem Winds.closeClient (k : Sockets) (now : Nat) (fd : Int) :
    Winds k (k.closeClient now fd) := by
  refine ⟨fun x hx => ?_, fun fd' h => ?_⟩
  · simp only [Sockets.closeClient]
    split
    · exact hx
    · split <;> exact hx
  · by_cases e : fd' = fd
    · exact e ▸ letGo_closeClient k now fd
    · obtain ⟨readers, clients⟩ := h
      simp only [Sockets.closeClient]
      split
      · refine ⟨(lookup_erase_ne e).trans readers, ?_⟩
        exact clients.imp_left fun none => (lookup_erase_ne e).trans none
      · split
        · refine ⟨(lookup_erase_ne e).trans readers, ?_⟩
          refine clients.imp (fun none => (lookup_erase_ne e).trans none) fun out => ?_
          obtain ⟨o, ho, closing⟩ := out
          exact ⟨o, (lookup_erase_ne e).trans ho, closing⟩
        · refine ⟨(lookup_erase_ne e).trans readers, clients.imp_right fun out => ?_⟩
          obtain ⟨o, ho, closing⟩ := out
          exact ⟨o, (lookup_insert_ne e).trans ho, closing⟩

theorem Winds.closeInstance (k : Sockets) (now : Nat) (key : Bytes) (s : Session) (id : Nat) :
    Winds k (k.closeInstance now key s id) := by
  simp only [Sockets.closeInstance]
  split
  · exact .refl k
  · have noted : Winds k { k with ended := k.ended ++ [(key, id)] } :=
      ⟨fun x hx => List.mem_append_left _ hx, fun fd h => ⟨h.readers, h.clients⟩⟩
    split
    · exact noted
    · split
      · exact noted.trans ((Winds.unwatch _ _).trans (.closeClient _ now _))
      · simp only [releaseOwnerFd]
        split
        · exact noted
        · exact noted.trans ((Winds.unwatch _ _).trans (.closeClient _ now _))

theorem ended_closeInstance (k : Sockets) (now : Nat) (key : Bytes) {s : Session} {id : Nat}
    (there : s.insts[id]? ≠ none) : (key, id) ∈ (k.closeInstance now key s id).ended := by
  obtain ⟨i, hi⟩ := Option.ne_none_iff_exists'.mp there
  have noted : (key, id) ∈ ({ k with ended := k.ended ++ [(key, id)] } : Sockets).ended :=
    List.mem_append_right _ List.mem_cons_self
  simp only [closeInstance, hi]
  split
  · exact noted
  · split
    · exact ((Winds.unwatch _ _).trans (.closeClient _ now _)).ended _ noted
    · simp only [releaseOwnerFd]
      split
      · exact noted
      · exact ((Winds.unwatch _ _).trans (.closeClient _ now _)).ended _ noted

theorem Winds.rekey (k : Sockets) (f : Bytes → Bytes) : Winds k (k.rekey f) := by
  refine ⟨fun _ hx => hx, fun fd h => ⟨?_, ?_⟩⟩
  · simp only [Sockets.rekey, Std.ExtTreeMap.getElem?_map, h.readers, Option.map_none]
  · refine h.clients.imp_right fun out => ?_
    obtain ⟨o, ho, closing⟩ := out
    refine ⟨{ o with q := o.q.map fun c => { c with key := c.key.map f } }, ?_, closing⟩
    simp only [Sockets.rekey, Std.ExtTreeMap.getElem?_map, ho, Option.map_some]

end Sockets

namespace Desk
variable {e : Moment} {key : Bytes}
open Sockets

theorem closeAll_winds (w : Desk) (ids : List Nat) : Winds w.net (w.closeAll e key ids).net :=
  foldl_invariant (I := fun w' : Desk => Winds w.net w'.net)
    (fun w' id h _ => h.trans (.closeInstance w'.net e.now key w'.session id)) (.refl w.net)

theorem closeInstance_insts_ne (s : Session) {id q : Nat} (ne : q ≠ id) :
    (s.closeInstance id).insts[q]? = s.insts[q]? := by
  simp only [Session.closeInstance]
  split
  · rfl
  · exact lookup_erase_ne ne

theorem closeAll_ended (w : Desk) (ids : List Nat) :
    ∀ id ∈ ids, w.session.insts[id]? ≠ none →
      (key, id) ∈ (w.closeAll e key ids).net.ended := by
  induction ids generalizing w with
  | nil => exact fun id hid => by cases hid
  | cons q ids ih =>
      intro id hid there
      by_cases same : id = q
      · subst same
        exact (closeAll_winds _ ids).ended _ (ended_closeInstance w.net e.now key there)
      · refine ih (w.closeInstance e key q) id ((List.mem_cons.mp hid).resolve_left same) ?_
        simp only [closeInstance, closeInstance_insts_ne w.session same]
        exact there

/-- Closing an instance leaves every registration its socket. -/
theorem closeInstance_owner (s : Session) (id : Nat) {name : Bytes} {r : Reg}
    (hr : s.regs[name]? = some r) :
    ∃ r', (s.closeInstance id).regs[name]? = some r' ∧ r'.ownerFd = r.ownerFd := by
  simp only [Session.closeInstance]
  split
  · exact ⟨r, hr, rfl⟩
  · simp only [Session.countFinished]
    split
    · exact ⟨r, hr, rfl⟩
    · split
      · exact ⟨r, hr, rfl⟩
      · rename_i r₀ hr₀
        split
        · rw [lookup_insert]
          split
          · rename_i e
            rw [e, hr, Option.some.injEq] at hr₀
            exact ⟨_, rfl, by rw [hr₀]⟩
          · exact ⟨r, hr, rfl⟩
        · exact ⟨r, hr, rfl⟩

theorem closeAll_owner (w : Desk) (ids : List Nat) {name : Bytes} {r : Reg}
    (hr : w.session.regs[name]? = some r) :
    ∃ r', (w.closeAll e key ids).session.regs[name]? = some r' ∧ r'.ownerFd = r.ownerFd := by
  refine foldl_invariant (I := fun w' : Desk =>
    ∃ r', w'.session.regs[name]? = some r' ∧ r'.ownerFd = r.ownerFd) (fun w' id h _ => ?_)
    ⟨r, hr, rfl⟩
  obtain ⟨r₁, hr₁, same₁⟩ := h
  obtain ⟨r₂, hr₂, same₂⟩ := closeInstance_owner w'.session id hr₁
  exact ⟨r₂, hr₂, same₂.trans same₁⟩

/-- The sockets of registrations, one after the other. -/
theorem dropOwners_winds (now : Nat) (l : List (Bytes × Reg)) (net : Sockets) :
    Winds net (l.foldl (fun net p =>
      if p.2.ownerFd < 0 then net else (net.unwatch p.2.ownerFd).closeClient now p.2.ownerFd)
        net) := by
  induction l generalizing net with
  | nil => exact .refl net
  | cons p l ih =>
      refine Winds.trans ?_ (ih _)
      dsimp only
      split
      · exact .refl net
      · exact (Winds.unwatch _ _).trans (.closeClient _ now _)

theorem dropOwners_letGo (now : Nat) (l : List (Bytes × Reg)) (net : Sockets) :
    ∀ p ∈ l, ¬ p.2.ownerFd < 0 → LetGo (l.foldl (fun net p =>
      if p.2.ownerFd < 0 then net else (net.unwatch p.2.ownerFd).closeClient now p.2.ownerFd) net)
        p.2.ownerFd := by
  induction l generalizing net with
  | nil => exact fun p hp => by cases hp
  | cons p₀ l ih =>
      intro p hp owner
      rcases List.mem_cons.mp hp with rfl | hp
      · rw [List.foldl_cons, if_neg owner]
        exact (dropOwners_winds now l _).letGo _ (letGo_closeClient _ now _)
      · exact ih _ p hp owner

/-- What is queued and what is paused is not looked at. -/
theorem unlink_winds (net : Sockets) (f : Chunk → Chunk)
    (paused : Std.ExtTreeMap Int PausedOwner) :
    Winds net { net with out := net.out.map fun _ o => { o with q := o.q.map f }, paused } := by
  refine ⟨fun _ hx => hx, fun fd h => ⟨h.readers, h.clients.imp_right fun out => ?_⟩⟩
  obtain ⟨o, ho, closing⟩ := out
  refine ⟨{ o with q := o.q.map f }, ?_, closing⟩
  simp only [Std.ExtTreeMap.getElem?_map, ho, Option.map_some]

/-- After `drop_session`: what the session had is closed and let go. -/
theorem drop_spec (w : Desk) : Winds w.net (w.drop e key).net ∧
    (∀ id, w.session.insts[id]? ≠ none → (key, id) ∈ (w.drop e key).net.ended) ∧
    ∀ (name : Bytes) (r : Reg), w.session.regs[name]? = some r → ¬ r.ownerFd < 0 →
      (w.drop e key).net.LetGo r.ownerFd := by
  rw [drop]
  generalize hw : w.closeAll e key w.session.insts.keys = w₁
  have closed : Winds w.net w₁.net := hw ▸ closeAll_winds w _
  have owners := dropOwners_winds e.now w₁.session.regs.toList w₁.net
  refine ⟨(closed.trans owners).trans (unlink_winds _ _ _), fun id there => ?_,
    fun name r hr owner => ?_⟩
  · refine owners.ended _ ?_
    rw [← hw]
    refine closeAll_ended w _ id ?_ there
    exact Std.ExtTreeMap.mem_keys.mpr
      (Std.ExtTreeMap.mem_iff_isSome_getElem?.mpr (Option.isSome_iff_ne_none.mpr there))
  · obtain ⟨r', hr', same⟩ : ∃ r', (w.closeAll e key w.session.insts.keys).session.regs[name]? =
        some r' ∧ r'.ownerFd = r.ownerFd := closeAll_owner w _ hr
    rw [hw] at hr'
    refine (unlink_winds _ _ _).letGo _ ?_
    rw [← same] at owner ⊢
    exact dropOwners_letGo e.now _ _ (name, r')
      (Std.ExtTreeMap.mem_toList_iff_getElem?_eq_some.mpr hr') owner

end Desk

/-! ## The whole of RELOAD -/

theorem Daemon.dropSession_sessions {d d' : Daemon} {name : Bytes}
    (hd : d.dropSession name = some d') (key : Bytes) :
    d'.sessions[key]? = if key = name then none else d.sessions[key]? := by
  have all : [name].foldlM Daemon.dropSession d = some d' := by simpa using hd
  simpa using (dropAll_sessions all).2.2 key

namespace Hub
variable {h h' : Hub} {e : Moment} {a : Answers}
open Daemon Sockets

/-- The records the store has. -/
def records (h : Hub) (a : Answers) : List ConnRecord :=
  h.daemon.disk.store.loadAll h.daemon.disk.fs a.rank

/-- A session's instances are closed and the sockets of its registrations let go. -/
structure Ended (key : Bytes) (s : Session) (k : Sockets) : Prop where
  insts : ∀ id, s.insts[id]? ≠ none → (key, id) ∈ k.ended
  owners : ∀ (name : Bytes) (r : Reg), s.regs[name]? = some r → ¬ r.ownerFd < 0 →
    k.LetGo r.ownerFd

theorem Ended.winds {key : Bytes} {s : Session} {k k' : Sockets} (h : Ended key s k)
    (w : Winds k k') : Ended key s k' :=
  ⟨fun id there => w.ended _ (h.insts id there),
    fun name r hr owner => w.letGo _ (h.owners name r hr owner)⟩

/-- The sessions after RELOAD are those of the records. -/
structure Reconciled (h : Hub) (a : Answers) (h' : Hub) : Prop where
  keys : ∀ key : Bytes, h'.daemon.sessions[key]? ≠ none ↔ ∃ r ∈ h.records a, r.name = key
  under : ∀ (key : Bytes) (t : Session), h'.daemon.sessions[key]? = some t →
    t.name = key ∧ t.record ∈ h.records a ∧ t.record.name = key
  /-- what is still on disk has a place of its own -/
  kept : ∃ place : Bytes → Bytes,
    Set.InjOn place {key | ∃ s r, h.daemon.sessions[key]? = some s ∧ r ∈ h.records a ∧
      r.uid = s.record.uid} ∧
    ∀ (key : Bytes) (s : Session), h.daemon.sessions[key]? = some s → ∀ r ∈ h.records a,
      r.uid = s.record.uid →
        h'.daemon.sessions[place key]? = some { s with name := r.name, record := r }
  started : ∀ r ∈ h.records a,
    (∀ (key : Bytes) (s : Session), h.daemon.sessions[key]? = some s →
      s.record.uid ≠ r.uid) →
      ∃ n, h'.daemon.sessions[r.name]? = some (Session.start h.daemon.disk {} r n)
  gone : ∀ (key : Bytes) (s : Session), h.daemon.sessions[key]? = some s →
    (∀ r ∈ h.records a, r.uid ≠ s.record.uid) → Ended key s h'.net

/-- The tables RELOAD can deal with. -/
structure Reloadable (h : Hub) (a : Answers) : Prop where
  live : ∀ (key : Bytes) (s : Session), h.daemon.sessions[key]? = some s → s.pm.isSome = true
  single : ∀ (k k' : Bytes) (s s' : Session), h.daemon.sessions[k]? = some s →
    h.daemon.sessions[k']? = some s' → ∀ r ∈ h.records a, r.uid = s.record.uid →
      r.uid = s'.record.uid → k = k'
  named : ∀ (key : Bytes) (s : Session), h.daemon.sessions[key]? = some s →
    ∀ r ∈ h.records a, r.uid = s.record.uid → r.name = key → s.name = key

/-! ### The first pass -/

theorem dropSession_daemon (key : Bytes) :
    (h.dropSession e key).map (·.daemon) = h.daemon.dropSession key := by
  simp only [dropSession, Daemon.dropSession]
  cases h.daemon.sessions[key]? with
  | none => rfl
  | some s =>
      simp only
      split <;> rfl

theorem dropAll_daemon (names : List Bytes) :
    (names.foldlM (fun (h : Hub) name => h.dropSession e name) h).map (·.daemon) =
      names.foldlM Daemon.dropSession h.daemon := by
  induction names generalizing h with
  | nil => rfl
  | cons name names ih =>
      rw [List.foldlM_cons, List.foldlM_cons, ← dropSession_daemon (e := e)]
      cases h.dropSession e name with
      | none => rfl
      | some h₁ => exact ih

/-- RELOAD of the daemon is RELOAD of the hub without its sockets. -/
theorem reload_daemon :
    (h.reload e a).map (fun r => (r.1.daemon, r.2)) = h.daemon.reload a := by
  simp only [reload, Daemon.reload, ← dropAll_daemon (e := e)]
  cases (h.daemon.goneNames (h.daemon.onDisk a)).foldlM (fun h name => h.dropSession e name) h with
  | none => rfl
  | some h₁ =>
      simp only [Option.bind_eq_bind, Option.bind_some, Option.map_some]
      generalize h₁.daemon.moveAll (h.daemon.onDisk a) _ = d
      cases ((h.daemon.onDisk a).toList.map (·.2)).foldlM (Daemon.adopt a) (d, 0) with
      | none => rfl
      | some da => rfl

theorem dropSession_ended {key : Bytes} (hd : h.dropSession e key = some h') :
    Winds h.net h'.net ∧ ∀ s, h.daemon.sessions[key]? = some s → Ended key s h'.net := by
  simp only [dropSession] at hd
  split at hd
  · rename_i none
    cases hd
    refine ⟨.refl h.net, fun s hs => ?_⟩
    rw [none] at hs
    cases hs
  · rename_i s hs
    split at hd
    · cases hd
      have dropped : Winds h.net (Desk.drop e key ⟨h.daemon.disk, s, h.net⟩).net ∧ _ :=
        Desk.drop_spec ⟨h.daemon.disk, s, h.net⟩
      obtain ⟨winds, insts, owners⟩ := dropped
      refine ⟨winds, fun s' hs' => ?_⟩
      obtain rfl := Option.some.inj (hs.symm.trans hs')
      exact ⟨insts, owners⟩
    · cases hd

theorem dropAll_ended {names : List Bytes}
    (hd : names.foldlM (fun (h : Hub) name => h.dropSession e name) h = some h') :
    Winds h.net h'.net ∧
      ∀ name ∈ names, ∀ s, h.daemon.sessions[name]? = some s → Ended name s h'.net := by
  induction names generalizing h with
  | nil =>
      cases hd
      exact ⟨.refl _, fun name hn => by cases hn⟩
  | cons name names ih =>
      rw [List.foldlM_cons] at hd
      obtain ⟨h₁, one, rest⟩ := Option.bind_eq_some_iff.mp hd
      obtain ⟨winds₁, ended₁⟩ := dropSession_ended one
      obtain ⟨winds₂, ended₂⟩ := ih rest
      have daemon : h.daemon.dropSession name = some h₁.daemon := by
        rw [← dropSession_daemon (e := e), one, Option.map_some]
      refine ⟨winds₁.trans winds₂, fun key hkey s hs => ?_⟩
      by_cases same : key = name
      · subst same
        exact (ended₁ s hs).winds winds₂
      · refine ended₂ key ((List.mem_cons.mp hkey).resolve_left same) s ?_
        rw [dropSession_sessions daemon key, if_neg same]
        exact hs

end Hub

namespace Daemon
variable {d d' : Daemon}

theorem dropAll_live {names : List Bytes} (hd : names.foldlM dropSession d = some d') :
    ∀ name ∈ names, ∀ s, d.sessions[name]? = some s → s.pm.isSome = true := by
  induction names generalizing d with
  | nil => exact fun name hn => by cases hn
  | cons name names ih =>
      rw [List.foldlM_cons] at hd
      obtain ⟨d₁, one, rest⟩ := Option.bind_eq_some_iff.mp hd
      intro key hkey s hs
      by_cases same : key = name
      · subst same
        simp only [dropSession, hs] at one
        by_contra dead
        rw [if_neg dead] at one
        cases one
      · refine ih rest key ((List.mem_cons.mp hkey).resolve_left same) s ?_
        rw [dropSession_sessions one key, if_neg same]
        exact hs

theorem dropAll_some {names : List Bytes}
    (live : ∀ (key : Bytes) (s : Session), d.sessions[key]? = some s → s.pm.isSome = true) :
    ∃ d', names.foldlM dropSession d = some d' := by
  induction names generalizing d with
  | nil => exact ⟨d, rfl⟩
  | cons name names ih =>
      have one : ∃ d₁, d.dropSession name = some d₁ := by
        simp only [dropSession]
        split
        · exact ⟨d, rfl⟩
        · rename_i s hs
          rw [if_pos (live name s hs)]
          exact ⟨_, rfl⟩
      obtain ⟨d₁, one⟩ := one
      rw [List.foldlM_cons, one]
      refine ih fun key s hs => ?_
      rw [dropSession_sessions one key] at hs
      split at hs
      · cases hs
      · exact live key s hs

end Daemon

namespace Hub
variable {h : Hub} {e : Moment} {a : Answers} {r : Hub × Bytes}
open Daemon Sockets

theorem onDisk_iff (uids : ((h.records a).map (·.uid)).Nodup) {u : Uid} {record : ConnRecord} :
    (h.daemon.onDisk a)[u.toList]? = some record ↔ record ∈ h.records a ∧ record.uid = u := by
  constructor
  · intro there
    obtain ⟨mem, hu⟩ := onDisk_some there
    exact ⟨mem, Subtype.ext hu⟩
  · rintro ⟨mem, rfl⟩
    exact onDisk_eq_of_mem uids mem

theorem mem_onDisk (uids : ((h.records a).map (·.uid)).Nodup) {record : ConnRecord} :
    record ∈ (h.daemon.onDisk a).toList.map (·.2) ↔ record ∈ h.records a := by
  constructor
  · intro mem
    obtain ⟨x, hx, rfl⟩ := List.mem_map.mp mem
    exact (onDisk_some (Std.ExtTreeMap.mem_toList_iff_getElem?_eq_some.mp hx)).1
  · intro mem
    exact List.mem_map.mpr ⟨(record.uid.toList, record),
      Std.ExtTreeMap.mem_toList_iff_getElem?_eq_some.mpr ((onDisk_iff uids).mpr ⟨mem, rfl⟩),
      rfl⟩

theorem names_onDisk (names : ((h.records a).map (·.name)).Nodup) :
    (((h.daemon.onDisk a).toList.map (·.2)).map (·.name)).Nodup := by
  rw [List.map_map]
  refine List.pairwise_map.mpr (Std.ExtTreeMap.distinct_keys_toList.imp_of_mem ?_)
  intro x y hx hy apart same
  have hx := Std.ExtTreeMap.mem_toList_iff_getElem?_eq_some.mp hx
  have hy := Std.ExtTreeMap.mem_toList_iff_getElem?_eq_some.mp hy
  have idx : Indexed (h.daemon.onDisk a) := indexed_onDisk names
  have e := idx.named hx hy same
  refine apart (Std.LawfulEqCmp.compare_eq_iff_eq.mpr ?_)
  rw [← idx.keyed hx, ← idx.keyed hy, e]

/-- What the three passes come to when no two sessions follow one record. -/
structure Passed (h : Hub) (a : Answers) (h' : Hub) : Prop where
  live : ∀ (key : Bytes) (s : Session), h.daemon.sessions[key]? = some s → s.pm.isSome = true
  follows : ∀ (key : Bytes) (s : Session) (record : ConnRecord),
    h.daemon.Follows (h.daemon.onDisk a) key s record →
      h'.daemon.sessions[record.name]? = some { renamed key s record with record }
  started : ∀ record ∈ h.records a,
    (∀ (key : Bytes) (s : Session), h.daemon.sessions[key]? = some s →
      s.record.uid ≠ record.uid) →
      ∃ n, h'.daemon.sessions[record.name]? = some (Session.start h.daemon.disk {} record n)
  others : ∀ key : Bytes, (∀ record ∈ h.records a, record.name ≠ key) →
    h'.daemon.sessions[key]? = none
  gone : ∀ (key : Bytes) (s : Session), h.daemon.sessions[key]? = some s →
    (h.daemon.onDisk a)[s.record.uid.toList]? = none → Ended key s h'.net

/-- After two passes the sessions are those on disk, each under its name. -/
theorem moved_of_dropped {disk : Std.ExtTreeMap Bytes ConnRecord} {d d₁ : Daemon}
    (idx : Indexed disk) (single : d.Single disk)
    (hd : (d.goneNames disk).foldlM Daemon.dropSession d = some d₁) :
    (d₁.moveAll disk (d.movedNames disk)).disk = d.disk ∧
      d.Moved disk (d₁.moveAll disk (d.movedNames disk)).sessions := by
  obtain ⟨hdisk, -, hsess⟩ := dropAll_sessions hd
  have same : ∀ {key : Bytes} {s : Session} {record : ConnRecord},
      d₁.Follows disk key s record ↔ d.Follows disk key s record := by
    intro key s record
    simp only [Follows, hsess]
    constructor
    · rintro ⟨there, its⟩
      split at there
      · cases there
      · exact ⟨there, its⟩
    · rintro ⟨there, its⟩
      rw [if_neg]
      · exact ⟨there, its⟩
      · intro gone
        obtain ⟨s', there', none⟩ := mem_goneNames.mp gone
        obtain rfl := Option.some.inj (there.symm.trans there')
        rw [none] at its
        cases its
  have known : ∀ (key : Bytes) (s : Session), d₁.sessions[key]? = some s →
      ∃ record, disk[s.record.uid.toList]? = some record := by
    intro key s hs
    rw [hsess] at hs
    split at hs
    · cases hs
    · rename_i stays
      by_contra none
      refine stays (mem_goneNames.mpr ⟨s, hs, ?_⟩)
      by_contra some_
      exact none (Option.ne_none_iff_exists'.mp some_)
  have moved := moveAll_moved (d := d₁) idx (fun f f' => single (same.mp f) (same.mp f'))
    (fun key => mem_movedNames.trans (exists₂_congr fun s record => and_congr_left fun _ =>
      same.symm)) known
  refine ⟨hdisk, fun key t => (moved key t).trans ?_⟩
  exact exists₃_congr fun k s record => and_congr_left fun _ => same

/-- The table before the third pass. -/
theorem keyed_moved {disk : Std.ExtTreeMap Bytes ConnRecord} {d d₂ : Daemon}
    (moved : d.Moved disk d₂.sessions) : d₂.Keyed disk := by
  intro key t there
  obtain ⟨k, s, record, ⟨-, its⟩, e, rfl⟩ := (moved key t).mp there
  refine ⟨record, ?_, e⟩
  rw [renamed]
  split <;> exact its

theorem renamed_pm (key : Bytes) (s : Session) (record : ConnRecord) :
    (renamed key s record).pm = s.pm := by
  rw [renamed]
  split <;> rfl

theorem passed_of_reload (uids : ((h.records a).map (·.uid)).Nodup)
    (names : ((h.records a).map (·.name)).Nodup) (sock : ∀ n, a.sock n = true)
    (single : h.daemon.Single (h.daemon.onDisk a)) (hr : h.reload e a = some r) :
    h.Passed a r.1 := by
  have idx : Indexed (h.daemon.onDisk a) := indexed_onDisk names
  simp only [reload] at hr
  obtain ⟨h₁, hdrop, hr⟩ := Option.bind_eq_some_iff.mp hr
  obtain ⟨da, hadopt, hr⟩ := Option.bind_eq_some_iff.mp hr
  cases hr
  have hdrop' := dropAll_daemon (h := h) (e := e) (h.daemon.goneNames (h.daemon.onDisk a))
  rw [hdrop, Option.map_some] at hdrop'
  obtain ⟨-, ended⟩ := dropAll_ended hdrop
  obtain ⟨hdisk, moved⟩ := moved_of_dropped idx single hdrop'.symm
  have adopted := adoptAll_adopted sock idx (names_onDisk names) (fun record hrecord =>
    (onDisk_iff uids).mpr ⟨(mem_onDisk uids).mp hrecord, rfl⟩) (keyed_moved moved) hadopt
  have its : ∀ {key : Bytes} {s : Session} {record : ConnRecord},
      h.daemon.Follows (h.daemon.onDisk a) key s record →
        (renamed key s record).pm.isSome = true ∧
          da.1.sessions[record.name]? = some { renamed key s record with record } := fun f =>
    adopted.its _ ((mem_onDisk uids).mpr ((onDisk_iff uids).mp f.2).1) _
      ((moved _ _).mpr ⟨_, _, _, f, rfl, rfl⟩)
  refine ⟨fun key s hs => ?_, fun key s record f => (its f).2, fun record hrecord none => ?_,
    fun key none => ?_, fun key s hs none => ?_⟩
  · cases there : (h.daemon.onDisk a)[s.record.uid.toList]? with
    | none => exact dropAll_live hdrop'.symm key (mem_goneNames.mpr ⟨s, hs, there⟩) s hs
    | some record =>
        rw [← renamed_pm key s record]
        exact (its ⟨hs, there⟩).1
  · rw [← hdisk]
    refine adopted.new record ((mem_onDisk uids).mpr hrecord) ?_
    by_contra some_
    obtain ⟨t, ht⟩ := Option.ne_none_iff_exists'.mp some_
    obtain ⟨k, s, record', ⟨hs, its'⟩, e, -⟩ := (moved _ _).mp ht
    obtain rfl := idx.named its' ((onDisk_iff uids).mpr ⟨hrecord, rfl⟩) e
    exact none k s hs ((onDisk_iff uids).mp its').2.symm
  · rw [adopted.others key fun record hrecord => none record ((mem_onDisk uids).mp hrecord)]
    by_contra some_
    obtain ⟨t, ht⟩ := Option.ne_none_iff_exists'.mp some_
    obtain ⟨k, s, record, f, e, -⟩ := (moved _ _).mp ht
    exact none record ((onDisk_iff uids).mp f.2).1 e
  · exact (ended key (mem_goneNames.mpr ⟨s, hs, none⟩) s hs).winds (.rekey h₁.net _)

theorem reload_some (uids : ((h.records a).map (·.uid)).Nodup)
    (names : ((h.records a).map (·.name)).Nodup) (sock : ∀ n, a.sock n = true)
    (single : h.daemon.Single (h.daemon.onDisk a))
    (live : ∀ (key : Bytes) (s : Session), h.daemon.sessions[key]? = some s →
      s.pm.isSome = true) : ∃ r, h.reload e a = some r := by
  have idx : Indexed (h.daemon.onDisk a) := indexed_onDisk names
  obtain ⟨d₁, hdrop⟩ : ∃ d₁, (h.daemon.goneNames (h.daemon.onDisk a)).foldlM Daemon.dropSession
      h.daemon = some d₁ := dropAll_some live
  obtain ⟨-, moved⟩ := moved_of_dropped idx single hdrop
  rw [← dropAll_daemon (e := e)] at hdrop
  obtain ⟨h₁, hdrop', rfl⟩ := Option.map_eq_some_iff.mp hdrop
  have adopted : ∃ da, ((h.daemon.onDisk a).toList.map (·.2)).foldlM (Daemon.adopt a)
      (h₁.daemon.moveAll (h.daemon.onDisk a) (h.daemon.movedNames (h.daemon.onDisk a)), 0) =
        some da := by
    refine adoptAll_some sock idx (names_onDisk names) (fun record hrecord =>
      (onDisk_iff uids).mpr ⟨(mem_onDisk uids).mp hrecord, rfl⟩)
      (keyed_moved moved) fun record _ t ht => ?_
    obtain ⟨k, s, record', f, -, rfl⟩ := (moved _ _).mp ht
    rw [renamed_pm]
    exact live k s f.1
  obtain ⟨da, hadopt⟩ := adopted
  simp only [reload, hdrop', hadopt, Option.bind_eq_bind, Option.bind_some, Option.pure_def]
  exact ⟨_, rfl⟩

/-! ### When RELOAD does it -/

theorem single_iff (uids : ((h.records a).map (·.uid)).Nodup) :
    h.daemon.Single (h.daemon.onDisk a) ↔ ∀ (k k' : Bytes) (s s' : Session),
      h.daemon.sessions[k]? = some s → h.daemon.sessions[k']? = some s' →
        ∀ record ∈ h.records a, record.uid = s.record.uid → record.uid = s'.record.uid →
          k = k' := by
  constructor
  · intro single k k' s s' hs hs' record hrecord e e'
    exact single ⟨hs, (onDisk_iff uids).mpr ⟨hrecord, e⟩⟩
      ⟨hs', (onDisk_iff uids).mpr ⟨hrecord, e'⟩⟩
  · intro single k k' s s' record f f'
    obtain ⟨hrecord, e⟩ := (onDisk_iff uids).mp f.2
    exact single k k' s s' f.1 f'.1 record hrecord e ((onDisk_iff uids).mp f'.2).2

/-- A table the commands have left consistent is reloaded whatever the records are. -/
theorem Reloadable.of_consistent (ok : h.daemon.Consistent) : h.Reloadable a where
  live key s hs := Option.isSome_iff_ne_none.mpr (ok.live key s hs).1
  single k k' s s' hs hs' _ _ e e' := ok.uids k k' s s' hs hs' (e.symm.trans e')
  named key s hs _ _ _ _ := (ok.keyed key s hs).1

/-- Where a session that is kept goes. -/
theorem Reconciled.place (rec_ : h.Reconciled a r.1) : ∃ place : Bytes → Bytes,
    Set.InjOn place {key | ∃ s record, h.daemon.sessions[key]? = some s ∧
      record ∈ h.records a ∧ record.uid = s.record.uid} ∧
    ∀ (key : Bytes) (s : Session), h.daemon.sessions[key]? = some s →
      ∀ record ∈ h.records a, record.uid = s.record.uid → place key = record.name ∧
        r.1.daemon.sessions[record.name]? = some { s with name := record.name, record } := by
  obtain ⟨place, apart, kept⟩ := rec_.kept
  refine ⟨place, apart, fun key s hs record hrecord e => ?_⟩
  have there := kept key s hs record hrecord e
  have at_ : place key = record.name := (rec_.under _ _ there).2.2.symm
  exact ⟨at_, at_ ▸ there⟩

/-- RELOAD against any table and any records with their own uids and names. -/
theorem reload_reconciles_iff (uids : ((h.records a).map (·.uid)).Nodup)
    (names : ((h.records a).map (·.name)).Nodup) (sock : ∀ n, a.sock n = true) :
    (∃ r, h.reload e a = some r ∧ h.Reconciled a r.1) ↔ h.Reloadable a := by
  constructor
  · rintro ⟨r, hr, rec_⟩
    obtain ⟨place, apart, kept⟩ := rec_.place
    have single : ∀ (k k' : Bytes) (s s' : Session), h.daemon.sessions[k]? = some s →
        h.daemon.sessions[k']? = some s' → ∀ record ∈ h.records a,
          record.uid = s.record.uid → record.uid = s'.record.uid → k = k' := by
      intro k k' s s' hs hs' record hrecord e e'
      refine apart ⟨s, record, hs, hrecord, e⟩ ⟨s', record, hs', hrecord, e'⟩ ?_
      rw [(kept k s hs record hrecord e).1, (kept k' s' hs' record hrecord e').1]
    have passed := passed_of_reload uids names sock ((single_iff uids).mpr single) hr
    refine ⟨passed.live, single, fun key s hs record hrecord e at_ => ?_⟩
    have there := passed.follows key s record ⟨hs, (onDisk_iff uids).mpr ⟨hrecord, e⟩⟩
    rw [renamed, if_pos at_] at there
    exact (rec_.under _ _ there).1.trans at_
  · intro ok
    have single : h.daemon.Single (h.daemon.onDisk a) := (single_iff uids).mpr ok.single
    obtain ⟨r, hr⟩ := reload_some (e := e) uids names sock single ok.live
    have passed := passed_of_reload uids names sock single hr
    -- what a kept session has become
    have kept : ∀ (key : Bytes) (s : Session), h.daemon.sessions[key]? = some s →
        ∀ record ∈ h.records a, record.uid = s.record.uid →
          r.1.daemon.sessions[record.name]? = some { s with name := record.name, record } := by
      intro key s hs record hrecord e
      rw [passed.follows key s record ⟨hs, (onDisk_iff uids).mpr ⟨hrecord, e⟩⟩, renamed]
      split
      · rename_i at_
        have name : s.name = record.name :=
          (ok.named key s hs record hrecord e at_).trans at_.symm
        rw [← name]
      · rfl
    have entry : ∀ record ∈ h.records a, ∃ t, r.1.daemon.sessions[record.name]? = some t ∧
        t.name = record.name ∧ t.record = record := by
      intro record hrecord
      by_cases its : ∃ (key : Bytes) (s : Session), h.daemon.sessions[key]? = some s ∧
          s.record.uid = record.uid
      · obtain ⟨key, s, hs, e⟩ := its
        exact ⟨_, kept key s hs record hrecord e.symm, rfl, rfl⟩
      · obtain ⟨n, new⟩ := passed.started record hrecord fun key s hs e =>
          its ⟨key, s, hs, e⟩
        have face := Session.face_start h.daemon.disk {} record n
        exact ⟨_, new, congrArg Face.name face, congrArg Face.record face⟩
    have named : ∀ key : Bytes, r.1.daemon.sessions[key]? ≠ none →
        ∃ record ∈ h.records a, record.name = key := by
      intro key there
      by_contra none
      exact there (passed.others key fun record hrecord e => none ⟨record, hrecord, e⟩)
    refine ⟨r, hr, ⟨fun key => ⟨named key, ?_⟩, fun key t ht => ?_, ?_, passed.started,
      fun key s hs none => ?_⟩⟩
    · rintro ⟨record, hrecord, rfl⟩
      obtain ⟨t, ht, -⟩ := entry record hrecord
      rw [ht]
      simp
    · obtain ⟨record, hrecord, rfl⟩ := named key (by rw [ht]; simp)
      obtain ⟨t', ht', name, its⟩ := entry record hrecord
      obtain rfl := Option.some.inj (ht.symm.trans ht')
      exact ⟨name, its ▸ hrecord, by rw [its]⟩
    · refine ⟨h.nameOnDisk (h.daemon.onDisk a), ?_, fun key s hs record hrecord e => ?_⟩
      · rintro k ⟨s, record, hs, hrecord, e⟩ k' ⟨s', record', hs', hrecord', e'⟩ same
        rw [nameOnDisk, hs, Option.bind_some, (onDisk_iff uids).mpr ⟨hrecord, e⟩, nameOnDisk,
          hs', Option.bind_some, (onDisk_iff uids).mpr ⟨hrecord', e'⟩] at same
        obtain rfl := List.inj_on_of_nodup_map names hrecord hrecord' same
        exact ok.single k k' s s' hs hs' record hrecord e e'
      · rw [nameOnDisk, hs, Option.bind_some, (onDisk_iff uids).mpr ⟨hrecord, e⟩]
        exact kept key s hs record hrecord e
    · refine passed.gone key s hs ?_
      by_contra some_
      obtain ⟨record, there⟩ := Option.ne_none_iff_exists'.mp some_
      obtain ⟨hrecord, e⟩ := (onDisk_iff uids).mp there
      exact none record hrecord e

end Hub

namespace Sample

/-- A running daemon whose one peer has been renamed on disk. -/
def elsewhere : Hub :=
  let d := spaced.run {}
  { daemon := { d with disk := { d.disk with
      fs := (d.disk.store.rename d.disk.fs (str "a b") (str "z")).1 } } }

/-- A store with one peer, whose name is not its form and whose uid is not the one a session
has that was never started. -/
def marked : Daemon :=
  { disk := { disk with
      fs := (disk.store.save disk.fs
        { name := str "a b", uid := ⟨List.replicate 32 1, List.length_replicate⟩ }).1 },
    files := noFiles }

end Sample

namespace Hub

theorem reload_elsewhere : ∃ r, Sample.elsewhere.reload {} {} = some r ∧
    Sample.elsewhere.Reconciled {} r.1 := by
  have start := Daemon.Tabled.run Sample.spaced_anchored (by decide +kernel)
    (fun f r hf => Daemon.sanitize_ne_dotdot
      ((by decide +kernel : ∀ e ∈ Sample.spaced.disk.store.records Sample.spaced.disk.fs,
        e.2.name ≠ str "..") (f, r) hf)) {}
  have ok : Sample.elsewhere.daemon.Consistent :=
    ⟨start.consistent.keyed, start.consistent.live, start.consistent.uids⟩
  exact (reload_reconciles_iff (by decide +kernel) (by decide +kernel) (fun _ => rfl)).mpr
    (.of_consistent ok)

/-- After a command that spells the name of a peer another way there is an entry without a path
manager, and RELOAD looks into it. -/
theorem alias_breaks_reload : ¬ ∀ (d : Daemon) (a : Answers),
    Reach Daemon.step (fun _ act => Daemon.SamePeers act) (Sample.marked.run {}) d →
    ((({ daemon := d } : Hub).records a).map (·.uid)).Nodup →
    ((({ daemon := d } : Hub).records a).map (·.name)).Nodup → (∀ n, a.sock n = true) →
      ∃ r, ({ daemon := d } : Hub).reload {} a = some r ∧
        ({ daemon := d } : Hub).Reconciled a r.1 := by
  intro all
  obtain ⟨d, reached, seen⟩ := Reach.observedWhen Daemon.step
    (fun _ act (h : decide (Daemon.SamePeers act) = true) => of_decide_eq_true h)
    (Sample.marked.run {}) [.command {} 3 (str "UNREGISTER a_b x")]
    (fun d => (decide ((({ daemon := d } : Hub).records {}).map ConnRecord.uid).Nodup,
      decide ((({ daemon := d } : Hub).records {}).map ConnRecord.name).Nodup,
      (({ daemon := d } : Hub).reload {} {}).isNone))
    (by decide +kernel : _ = some (true, true, true))
  simp only [Prod.mk.injEq, decide_eq_true_eq, Option.isNone_iff_eq_none] at seen
  obtain ⟨r, hr, -⟩ := all d {} reached seen.1 seen.2.1 fun _ => rfl
  rw [seen.2.2] at hr
  cases hr

end Hub
end Splice.Peer
