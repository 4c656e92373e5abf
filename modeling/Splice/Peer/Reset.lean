import Splice.Peer.Ownership
import Splice.Lib.FileEdits

/-!
RESET is made of one unregistering for each registration in the tables, so it ends what
they spawned and takes their files away. It does not look for anything else: an
instance whose registration has left the table lives on, and so does a stored
registration that no session has.
-/

namespace Splice.Peer
open Lib FileSystem

/-- Spawned by a registration. -/
def Instance.spawned (i : Instance) : Bool := i.inbound && i.regSerial ≠ 0

namespace Session

/-- The file of a registration, if it has one. -/
def regPath (st : Store) (s : Session) (name : Bytes) : Option Bytes :=
  match s.regs[name]? with
  | none => none
  | some r => if r.persisted then some (st.pipePath s.name name) else none

/-- The files behind a session's table. -/
def storedPaths (st : Store) (s : Session) : List Bytes := s.regs.keys.filterMap (s.regPath st)

/-- The registration that spawned an instance is in the table. -/
def Offered (s : Session) (i : Instance) : Prop :=
  ∃ (name : Bytes) (r : Reg), s.regs[name]? = some r ∧ r.serial = i.regSerial

variable {d d' : Disk} {s : Session}

/-! ## One session -/

/-- The loop of RESET over the names of one table. -/
def unregisterAll (acc : Disk × Session × List Nat) (names : List Bytes) :
    Disk × Session × List Nat :=
  names.foldl (fun acc name =>
    let (d, s, ids) := unregister acc.1 acc.2.1 name
    (d, s, acc.2.2 ++ ids)) acc

theorem reset_eq (d : Disk) (s : Session) :
    reset d s = ((unregisterAll (d, s, []) s.regs.keys).1,
      (unregisterAll (d, s, []) s.regs.keys).2.2.foldl closeInstance
        (unregisterAll (d, s, []) s.regs.keys).2.1) := rfl

theorem unregister_paths (d : Disk) (s : Session) (name : Bytes) :
    (unregister d s name).1 =
      { d with fs := d.fs.removeEach (s.regPath d.store name).toList } := by
  cases hr : s.regs[name]? with
  | none => simp [unregister, regPath, hr, removeEach]
  | some r =>
      cases hp : r.persisted with
      | false => simp [unregister, regPath, hr, hp, removeEach]
      | true => simp [unregister, regPath, hr, hp, removeEach, Store.removePipe]

theorem mem_unregister {d : Disk} {s : Session} {name : Bytes} {id : Nat} :
    id ∈ (unregister d s name).2.2 ↔ ∃ (r : Reg) (i : Instance),
      s.regs[name]? = some r ∧ s.insts[id]? = some i ∧ i.regSerial = r.serial := by
  simp only [unregister]
  split
  · rename_i hnone
    simp [hnone]
  · rename_i r hr
    simp [hr, Std.ExtTreeMap.mem_toList_iff_getElem?_eq_some]

/-- What the loop does: the names leave the table one by one, and each still finds what the
table said of it at first. -/
theorem unregisterAll_spec {names : List Bytes} (nodup : names.Nodup) (d : Disk) (s : Session)
    (live : List Nat) :
    (unregisterAll (d, s, live) names).1 =
        { d with fs := d.fs.removeEach (names.filterMap (s.regPath d.store)) } ∧
      (unregisterAll (d, s, live) names).2.1 =
        { s with regs := names.foldl (fun m name => m.erase name) s.regs } ∧
      ∀ id, id ∈ (unregisterAll (d, s, live) names).2.2 ↔ id ∈ live ∨
        ∃ name ∈ names, ∃ (r : Reg) (i : Instance),
          s.regs[name]? = some r ∧ s.insts[id]? = some i ∧ i.regSerial = r.serial := by
  induction names generalizing d s live with
  | nil => simp [unregisterAll, removeEach]
  | cons name names ih =>
      obtain ⟨hname, nodup⟩ := List.nodup_cons.mp nodup
      -- the names still to come are not the one that leaves
      have later : ∀ q ∈ names, (s.regs.erase name)[q]? = s.regs[q]? := by
        intro q hq
        rw [lookup_erase, if_neg]
        rintro rfl
        exact hname hq
      have hpaths : names.filterMap (regPath d.store { s with regs := s.regs.erase name }) =
          names.filterMap (s.regPath d.store) :=
        List.filterMap_congr fun q hq => by simp only [regPath, later q hq]
      have hstep : unregisterAll (d, s, live) (name :: names) =
          unregisterAll ({ d with fs := d.fs.removeEach (s.regPath d.store name).toList },
            { s with regs := s.regs.erase name }, live ++ (unregister d s name).2.2) names := by
        rw [← unregister_paths, ← unregister_regs d s name]
        rfl
      obtain ⟨hd, hs, hlive⟩ := ih nodup
        { d with fs := d.fs.removeEach (s.regPath d.store name).toList }
        { s with regs := s.regs.erase name } (live ++ (unregister d s name).2.2)
      rw [hstep]
      refine ⟨?_, ?_, fun id => ?_⟩
      · rw [hd, hpaths]
        cases hp : s.regPath d.store name with
        | none => simp [hp, removeEach]
        | some path => simp [hp, removeEach]
      · rw [hs]
        rfl
      · rw [hlive, List.mem_append, mem_unregister, or_assoc]
        refine or_congr Iff.rfl ?_
        simp only [List.exists_mem_cons_iff]
        refine or_congr Iff.rfl ⟨?_, ?_⟩
        · rintro ⟨q, hq, r, i, hr, hi⟩
          exact ⟨q, hq, r, i, (later q hq).symm.trans hr, hi⟩
        · rintro ⟨q, hq, r, i, hr, hi⟩
          exact ⟨q, hq, r, i, (later q hq).trans hr, hi⟩

theorem eraseAll_keys (m : Std.ExtTreeMap Bytes Reg) :
    m.keys.foldl (fun m name => m.erase name) m = ∅ := by
  have gone : ∀ (names : List Bytes) (m : Std.ExtTreeMap Bytes Reg) (q : Bytes),
      (names.foldl (fun m name => m.erase name) m)[q]? = if q ∈ names then none else m[q]? := by
    intro names
    induction names with
    | nil => simp
    | cons name names ih =>
        intro m q
        rw [List.foldl_cons, ih, lookup_erase]
        by_cases h : q ∈ names
        · simp [h]
        · simp [h, eq_comm (a := name)]
  refine Std.ExtTreeMap.ext_getElem? fun q => ?_
  rw [gone]
  by_cases h : q ∈ m
  · simp [h]
  · simp [h]

/-- Closing instances of a session without registrations just takes them out. -/
theorem closeAll_bare (ids : List Nat) {s : Session} (hregs : s.regs = ∅) :
    (ids.foldl closeInstance s).regs = ∅ ∧ ∀ id : Nat,
      (ids.foldl closeInstance s).insts[id]? = if id ∈ ids then none else s.insts[id]? := by
  induction ids generalizing s with
  | nil => simp [hregs]
  | cons n ids ih =>
      have hone : (s.closeInstance n).regs = ∅ ∧ ∀ id : Nat,
          (s.closeInstance n).insts[id]? = if n = id then none else s.insts[id]? := by
        simp only [closeInstance]
        split
        · rename_i hnone
          refine ⟨hregs, fun id => ?_⟩
          split
          · rename_i e
            rw [← e, hnone]
          · rfl
        · refine ⟨by simp [countFinished, hregs], fun id => ?_⟩
          rw [Std.ExtTreeMap.getElem?_erase]
          simp only [Std.LawfulEqCmp.compare_eq_iff_eq]
      obtain ⟨hr, hi⟩ := ih hone.1
      refine ⟨hr, fun id => ?_⟩
      rw [List.foldl_cons, hi, hone.2]
      by_cases h : id ∈ ids
      · simp [h]
      · simp [h, eq_comm (a := n)]

theorem reset_disk (d : Disk) (s : Session) :
    (reset d s).1 = { d with fs := d.fs.removeEach (s.storedPaths d.store) } := by
  rw [reset_eq]
  exact (unregisterAll_spec s.regs.nodup_keys d s []).1

theorem reset_regs (d : Disk) (s : Session) : (reset d s).2.regs = ∅ := by
  obtain ⟨-, hs, -⟩ := unregisterAll_spec s.regs.nodup_keys d s []
  rw [reset_eq]
  refine (closeAll_bare _ ?_).1
  rw [hs]
  exact eraseAll_keys s.regs

/-- The instances left are those without a registration in the table. -/
theorem reset_insts (d : Disk) (s : Session) (id : Nat) (i : Instance) :
    (reset d s).2.insts[id]? = some i ↔ s.insts[id]? = some i ∧ ¬ s.Offered i := by
  obtain ⟨-, hs, hlive⟩ := unregisterAll_spec s.regs.nodup_keys d s []
  have hbare : (unregisterAll (d, s, []) s.regs.keys).2.1.regs = ∅ := by
    rw [hs]
    exact eraseAll_keys s.regs
  have hinsts : (unregisterAll (d, s, []) s.regs.keys).2.1.insts = s.insts := by rw [hs]
  rw [reset_eq]
  simp only [(closeAll_bare _ hbare).2, hinsts, Option.ite_none_left_eq_some]
  rw [and_comm, and_congr_right_iff]
  intro hi
  rw [not_iff_not, hlive]
  simp only [List.not_mem_nil, false_or]
  constructor
  · rintro ⟨name, -, r, j, hr, hj, hserial⟩
    cases hi.symm.trans hj
    exact ⟨name, r, hr, hserial.symm⟩
  · rintro ⟨name, r, hr, hserial⟩
    refine ⟨name, ?_, r, i, hr, hi, hserial.symm⟩
    rw [Std.ExtTreeMap.mem_keys, Std.ExtTreeMap.mem_iff_isSome_getElem?, hr]
    rfl

end Session

/-! ## The daemon -/

namespace Daemon
variable {d d' : Daemon}

/-- The files behind the sessions' tables. -/
def storedPaths (d : Daemon) : List Bytes :=
  d.sessions.toList.flatMap fun e => e.2.storedPaths d.disk.store

/-- Of the peers the store had, nothing is offered, nothing is stored to be offered later, and
no instance of an offer runs. -/
structure Clean (d d' : Daemon) : Prop where
  tables : ∀ (key : Bytes) (s : Session), d'.sessions[key]? = some s → s.regs = ∅
  stored : ∀ (f : Name) (r : ConnRecord) (name : Bytes),
    (f, r) ∈ d.disk.store.records d.disk.fs → d'.disk.store.loadPipe d'.disk.fs r.name name = none
  restarted : ∀ (a : Answers) (key : Bytes) (s : Session),
    (d'.run a).sessions[key]? = some s → s.regs = ∅
  ended : ∀ (key : Bytes) (s : Session) (id : Nat) (i : Instance),
    d'.sessions[key]? = some s → s.insts[id]? = some i → i.spawned = false

/-- What RESET has to find is in the tables: the registration of every instance that one
spawned, and one for every file. -/
structure Covered (d : Daemon) : Prop where
  offered : ∀ (key : Bytes) (s : Session) (id : Nat) (i : Instance),
    d.sessions[key]? = some s → s.insts[id]? = some i → i.spawned = true → s.Offered i
  listed : ∀ (f : Name) (r : ConnRecord) (name : Bytes) (p : PipeRecord),
    (f, r) ∈ d.disk.store.records d.disk.fs → d.disk.store.loadPipe d.disk.fs r.name name = some p →
    ∃ path ∈ d.storedPaths,
      d.disk.fs.resolve path = d.disk.fs.resolve (d.disk.store.pipePath r.name name)

/-- What RESET does to the sessions one after the other. -/
theorem resetEach_spec {keys : List Bytes} (nodup : keys.Nodup) (d : Daemon) :
    ∃ d', keys.foldlM (fun d name =>
        match d.sessions[name]? with
        | none => some d
        | some s => (some (s.reset d.disk)).map fun r =>
            { d with disk := r.1 }.putSession name r.2) d = some d' ∧
      d'.disk = { d.disk with fs := d.disk.fs.removeEach (keys.flatMap fun key =>
        (d.sessions[key]?).elim [] (Session.storedPaths d.disk.store)) } ∧
      ∀ key : Bytes, (key ∉ keys → d'.sessions[key]? = d.sessions[key]?) ∧
        (key ∈ keys → ∃ disk, d'.sessions[key]? =
          (d.sessions[key]?).map fun s => (s.reset disk).2) := by
  induction keys generalizing d with
  | nil => exact ⟨d, rfl, by simp [removeEach], fun key => by simp⟩
  | cons name keys ih =>
      obtain ⟨hname, nodup⟩ := List.nodup_cons.mp nodup
      rw [List.foldlM_cons]
      cases hs : d.sessions[name]? with
      | none =>
          obtain ⟨d', hd', hdisk, hsess⟩ := ih nodup d
          refine ⟨d', hd', by simp [hdisk, hs], fun key => ⟨fun hk => ?_, fun hk => ?_⟩⟩
          · exact (hsess key).1 fun h => hk (List.mem_cons_of_mem _ h)
          · rcases List.mem_cons.mp hk with rfl | hk
            · exact ⟨d.disk, by rw [(hsess key).1 hname, hs, Option.map_none]⟩
            · exact (hsess key).2 hk
      | some s =>
          have hlater : ∀ q ∈ keys, q ≠ name := by
            rintro q hq rfl
            exact hname hq
          obtain ⟨d', hd', hdisk, hsess⟩ := ih nodup
            ({ d with disk := (s.reset d.disk).1 }.putSession name (s.reset d.disk).2)
          have hput : ∀ q : Bytes, ({ d with disk := (s.reset d.disk).1 }.putSession name
              (s.reset d.disk).2).sessions[q]? =
                if name = q then some (s.reset d.disk).2 else d.sessions[q]? :=
            fun q => lookup_insert
          refine ⟨d', hd', ?_, fun key => ⟨fun hk => ?_, fun hk => ?_⟩⟩
          · have hrest : (keys.flatMap fun key => (({ d with disk := (s.reset d.disk).1 }.putSession
                name (s.reset d.disk).2).sessions[key]?).elim [] (Session.storedPaths
                  d.disk.store)) = keys.flatMap fun key =>
                    (d.sessions[key]?).elim [] (Session.storedPaths d.disk.store) :=
              List.flatMap_congr fun q hq => by rw [hput, if_neg (Ne.symm (hlater q hq))]
            rw [hdisk]
            simp only [Daemon.putSession, Session.reset_disk] at hrest ⊢
            rw [hrest, List.flatMap_cons, hs]
            simp [removeEach]
          · rw [List.mem_cons, not_or] at hk
            rw [(hsess key).1 hk.2, hput, if_neg (Ne.symm hk.1)]
          · rcases List.mem_cons.mp hk with rfl | hk
            · exact ⟨d.disk, by rw [(hsess key).1 hname, hput, if_pos rfl, hs, Option.map_some]⟩
            · obtain ⟨disk, hdisk⟩ := (hsess key).2 hk
              exact ⟨disk, by rw [hdisk, hput, if_neg (Ne.symm (hlater key hk))]⟩

/-- RESET always comes to its end. -/
theorem reset_spec (d : Daemon) : ∃ d', d.reset = some d' ∧
    d'.disk = { d.disk with fs := d.disk.fs.removeEach d.storedPaths } ∧
    ∀ key : Bytes, ∃ disk, d'.sessions[key]? = (d.sessions[key]?).map fun s => (s.reset disk).2 := by
  obtain ⟨d', hd', hdisk, hsess⟩ := resetEach_spec d.sessions.nodup_keys d
  have hpaths : (d.sessions.keys.flatMap fun key =>
      (d.sessions[key]?).elim [] (Session.storedPaths d.disk.store)) = d.storedPaths := by
    rw [storedPaths, ← Std.ExtTreeMap.map_fst_toList_eq_keys, List.flatMap_map]
    refine List.flatMap_congr fun e he => ?_
    rw [Std.ExtTreeMap.mem_toList_iff_getElem?_eq_some.mp he]
    rfl
  refine ⟨d', hd', by rw [hdisk, hpaths], fun key => ?_⟩
  by_cases hk : key ∈ d.sessions.keys
  · exact (hsess key).2 hk
  · refine ⟨d.disk, ?_⟩
    rw [(hsess key).1 hk]
    have hnone : d.sessions[key]? = none := by
      rw [Std.ExtTreeMap.mem_keys, Std.ExtTreeMap.mem_iff_isSome_getElem?] at hk
      simpa using hk
    rw [hnone, Option.map_none]

/-- Removing files makes no record. -/
theorem records_removeEach {st : Store} {fs : FileSystem} {paths : List Bytes}
    (files : ∀ path ∈ paths, fs.stat path ≠ some .dir) {e : Name × ConnRecord}
    (he : e ∈ st.records (fs.removeEach paths)) : e ∈ st.records fs := by
  obtain ⟨hdirs, hdata, hnode⟩ := removeEach_spec files
  have kept : ∀ {q : Path} {n : Node}, (fs.removeEach paths).node q = some n →
      fs.node q = some n := by
    intro q n hn
    rw [hnode, Option.ite_none_left_eq_some] at hn
    exact hn.2
  obtain ⟨n, hn, he⟩ := List.mem_filterMap.mp he
  obtain ⟨r, hr, he⟩ := Option.map_eq_some_iff.mp he
  obtain ⟨hn, hconn⟩ := List.mem_filter.mp hn
  refine List.mem_filterMap.mpr ⟨n, List.mem_filter.mpr ⟨?_, hconn⟩, ?_⟩
  · cases hdir : (fs.removeEach paths).readdir st.dir with
    | none => simp [hdir] at hn
    | some l =>
        obtain ⟨q, hq, hl⟩ := Option.bind_eq_some_iff.mp hdir
        rw [Option.ite_none_right_eq_some, Option.some.injEq] at hl
        rw [hdir, Option.getD_some, ← hl.2, mem_entries] at hn
        obtain ⟨m, hm⟩ := Option.ne_none_iff_exists'.mp hn
        rw [hdirs.resolve] at hq
        rw [readdir, hq, Option.bind_some, if_pos (kept hl.1), Option.getD_some, mem_entries, kept hm]
        simp
  · obtain ⟨b, hb, hr⟩ := Option.bind_eq_some_iff.mp hr
    obtain ⟨m, hm, hb⟩ := Option.map_eq_some_iff.mp hb
    obtain ⟨q, hq, hm⟩ := Option.bind_eq_some_iff.mp hm
    rw [hdirs.resolve] at hq
    have same : (fs.removeEach paths).nodeBytes m = fs.nodeBytes m := by
      cases m with
      | dir => rfl
      | file i => exact congrFun hdata i
    rw [same] at hb
    rw [Store.parseFile, FileSystem.read, stat, hq, Option.bind_some, kept hm, Option.map_some, hb,
      Option.bind_some, hr, Option.map_some, he]

/-- A registration is found after RESET if it was before and no table has its file. -/
theorem loadPipe_removeEach {st : Store} {fs : FileSystem} {paths : List Bytes}
    (files : ∀ path ∈ paths, fs.stat path ≠ some .dir) (peer name : Bytes) :
    st.loadPipe (fs.removeEach paths) peer name =
      if ∃ path ∈ paths, fs.resolve path = fs.resolve (st.pipePath peer name) then none
      else st.loadPipe fs peer name := by
  obtain ⟨hdirs, hdata, hnode⟩ := removeEach_spec files
  have same : ∀ m, (fs.removeEach paths).nodeBytes m = fs.nodeBytes m := by
    intro m
    cases m with
    | dir => rfl
    | file i => exact congrFun hdata i
  simp only [Store.loadPipe, FileSystem.read, stat, hdirs.resolve]
  cases hq : fs.resolve (st.pipePath peer name) with
  | none => simp
  | some q =>
      simp only [Option.bind_some, hnode]
      split
      · simp
      · cases fs.node q with
        | none => rfl
        | some m => simp [same]

/-- A daemon that starts offers what is stored for its records, and nothing else. -/
theorem run_bare {d : Daemon} (a : Answers) (bare : ∀ (f : Name) (r : ConnRecord),
      (f, r) ∈ d.disk.store.records d.disk.fs → d.disk.store.listPipes d.disk.fs r.name = [])
    (key : Bytes) (s : Session) (hs : (d.run a).sessions[key]? = some s) : s.regs = ∅ := by
  have all : (d.run a).disk = d.disk ∧ ∀ (key : Bytes) (s : Session),
      (d.run a).sessions[key]? = some s → s.regs = ∅ := by
    refine foldl_invariant (I := fun d' : Daemon => d'.disk = d.disk ∧ ∀ (key : Bytes) (s : Session),
      d'.sessions[key]? = some s → s.regs = ∅) (fun d' r ⟨hdisk, hall⟩ hr => ?_)
      ⟨rfl, fun key s hs => by simp at hs⟩
    obtain ⟨f, hf⟩ := Store.mem_loadAll.mp hr
    simp only [Daemon.startSession]
    split
    · refine ⟨hdisk, fun q t ht => ?_⟩
      rw [lookup_insert] at ht
      split at ht
      · cases ht
        rw [Session.start, hdisk, bare f r hf]
        cases hold : d'.sessions[r.name]? with
        | none => rfl
        | some t => exact hall r.name t hold
      · exact hall q t ht
    · refine ⟨hdisk, fun q t ht => ?_⟩
      rw [lookup_erase] at ht
      split at ht
      · cases ht
      · exact hall q t ht
  exact all.2 key s hs

/-- RESET clears everything exactly when the tables know everything, as long as no file of a
registration in them is a directory. -/
theorem reset_clean_iff {d : Daemon} (files : ∀ path ∈ d.storedPaths, d.disk.fs.stat path ≠ some .dir)
    (a : Answers) (fd : Nat) :
    (∃ d' reply, d.handleCmd a fd (str "RESET") = some (d', reply) ∧ d.Clean d') ↔ d.Covered := by
  obtain ⟨d', hreset, hdisk, hsess⟩ := reset_spec d
  have hcmd : d.handleCmd a fd (str "RESET") = some (d', str "OK\n") := by
    have hparse : parseCmd (tokens (str "RESET")) = .reset := by rfl
    simp [handleCmd, hparse, hreset]
  have hload : ∀ peer name, d'.disk.store.loadPipe d'.disk.fs peer name =
      if ∃ path ∈ d.storedPaths, d.disk.fs.resolve path =
          d.disk.fs.resolve (d.disk.store.pipePath peer name) then none
      else d.disk.store.loadPipe d.disk.fs peer name := by
    intro peer name
    rw [hdisk]
    exact loadPipe_removeEach files peer name
  constructor
  · rintro ⟨d'', reply, hd'', clean⟩
    cases hcmd.symm.trans hd''
    refine ⟨fun key s id i hs hi hspawned => ?_, fun f r name p hr hp => ?_⟩
    · by_contra hno
      obtain ⟨disk, hkey⟩ := hsess key
      rw [hs, Option.map_some] at hkey
      have hleft := (Session.reset_insts disk s id i).mpr ⟨hi, hno⟩
      rw [clean.ended key _ id i hkey hleft] at hspawned
      cases hspawned
    · by_contra hno
      have hnone := clean.stored f r name hr
      rw [hload, if_neg hno, hp] at hnone
      cases hnone
  · intro covered
    have hstored : ∀ (f : Name) (r : ConnRecord) (name : Bytes),
        (f, r) ∈ d.disk.store.records d.disk.fs →
          d'.disk.store.loadPipe d'.disk.fs r.name name = none := by
      intro f r name hr
      rw [hload]
      split
      · rfl
      · rename_i hno
        cases hp : d.disk.store.loadPipe d.disk.fs r.name name with
        | none => rfl
        | some p => exact absurd (covered.listed f r name p hr hp) hno
    refine ⟨d', _, hcmd, fun key s hs => ?_, hstored, fun a key s hs => ?_,
      fun key s id i hs hi => ?_⟩
    · obtain ⟨disk, hkey⟩ := hsess key
      rw [hkey] at hs
      obtain ⟨t, -, rfl⟩ := Option.map_eq_some_iff.mp hs
      exact Session.reset_regs disk t
    · refine run_bare a (fun f r hr => ?_) key s hs
      have hr' : (f, r) ∈ d.disk.store.records d.disk.fs := by
        rw [hdisk] at hr
        exact records_removeEach files hr
      exact List.filterMap_eq_nil_iff.mpr fun n _ => hstored f r n hr'
    · obtain ⟨disk, hkey⟩ := hsess key
      rw [hkey] at hs
      obtain ⟨t, ht, rfl⟩ := Option.map_eq_some_iff.mp hs
      obtain ⟨hi, hno⟩ := (Session.reset_insts disk t id i).mp hi
      by_contra hspawned
      exact hno (covered.offered key t id i ht hi (by simpa using hspawned))

/-- With an offer in use, and its file, in the table. -/
theorem reset_clean_in_use : ∃ d : Daemon,
    d.storedPaths = [str "/c/pipes/bob/x"] ∧
      (d.sessions[str "bob"]?).map (fun s => (s.insts[0]?).map Instance.spawned) =
        some (some true) ∧
      ((∃ d' reply, d.handleCmd {} 9 (str "RESET") = some (d', reply) ∧ d.Clean d') ↔
        d.Covered) := by
  obtain ⟨d, -, hobs⟩ := Reach.observed Daemon.step (Sample.unpaired.run {})
    [.pair (Sample.peer "bob" 1), .command {} 3 (str "RELOAD"),
      .command {} 3 (str "REGISTER bob x ECHO"),
      .accept (str "bob"), .data (str "bob") 0 (str "x\n") 5]
    (fun d => (d.storedPaths, (d.sessions[str "bob"]?).map fun s =>
      (s.insts[0]?).map Instance.spawned, d.storedPaths.all fun p => d.disk.fs.stat p ≠ some .dir))
    (o := ([str "/c/pipes/bob/x"], some (some true), true)) (by decide +kernel)
  simp only [Prod.mk.injEq, List.all_eq_true, decide_eq_true_eq] at hobs
  exact ⟨d, hobs.1, hobs.2.1, reset_clean_iff hobs.2.2 {} 9⟩

/-- A connection through an offer that was taken back outlives RESET. -/
theorem reset_leaves_unregistered :
    ¬ ∀ (root : Path) (d₀ d : Daemon) (a a' : Answers) (fd : Nat), EmptyStore root d₀.disk →
      Reach Daemon.step anyStep (d₀.run a) d →
      ∃ d' reply, d.handleCmd a' fd (str "RESET") = some (d', reply) ∧ d.Clean d' := by
  intro all
  obtain ⟨d, reached, hobs⟩ := Reach.observed Daemon.step (Sample.unpaired.run {})
    [.pair (Sample.peer "bob" 1), .command {} 3 (str "RELOAD"),
      .command {} 3 (str "REGISTER bob x ECHO"),
      .accept (str "bob"), .data (str "bob") 0 (str "x\n") 5,
      .command {} 3 (str "UNREGISTER bob x")]
    (fun d => (d.handleCmd {} 9 (str "RESET")).bind fun r =>
      (r.1.sessions[str "bob"]?).bind fun s => (s.insts[0]?).map Instance.spawned)
    (o := some true) (by decide +kernel)
  obtain ⟨d', reply, hcmd, clean⟩ := all _ _ d {} {} 9 Sample.unpaired_empty reached
  rw [hcmd, Option.bind_some] at hobs
  obtain ⟨s, hs, hobs⟩ := Option.bind_eq_some_iff.mp hobs
  obtain ⟨i, hi, hspawned⟩ := Option.map_eq_some_iff.mp hobs
  rw [clean.ended (str "bob") s 0 i hs hi] at hspawned
  cases hspawned

end Daemon
end Splice.Peer
