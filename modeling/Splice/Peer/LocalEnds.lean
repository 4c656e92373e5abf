import Splice.Peer.Instances
import Splice.Peer.Inventory

/-!
Every spliced instance has somewhere to put its bytes: the socket of a client or an end
of the daemon's own. REGISTER and OPEN see to it that the end can be made; a request
from the peer is answered OK without looking whether it still can.
-/

namespace Splice.Peer
open Lib Proto

/-! ## What can be made -/

/-- There is something to send at the path. -/
def Shareable (src : SourceFs) (path : Bytes) : Prop :=
  (∃ size, src.stat path = some (.reg size)) ∨
    src.stat path = some .dir ∧ src.walk pathMax path (basenameOf path) ≠ []

/-- The program of an EXEC and its arguments. -/
def execArgv (args : List Bytes) : List Bytes :=
  if args.head? = some (str "PTY") then args.drop 1 else args

/-- The types and arguments a daemon-owned end can be made from, on these files. -/
def Makeable (src : SourceFs) (type : Bytes) (args : List Bytes) : Prop :=
  (type = str "ECHO" ∨ type = str "SHELL") ∧ args = [] ∨
  type = str "SHARE_FILE" ∧ (∃ path, args = [path] ∧ Shareable src path) ∨
  type = str "GET_FILE" ∧ (∃ target, args = [target] ∨ args = [target, str "OVERWRITE"]) ∨
  type = str "EXEC" ∧ (∃ program rest, execArgv args = program :: rest ∧ program ≠ [])

theorem shareEntries_isOk (src : SourceFs) (path : Bytes) :
    (src.shareEntries path).isOk = true ↔ Shareable src path := by
  simp only [SourceFs.shareEntries, Shareable]
  cases hs : src.stat path with
  | none => simp [Except.isOk, Except.toBool]
  | some st =>
      cases st with
      | dir =>
          cases hw : src.walk pathMax path (basenameOf path) with
          | nil => simp [Except.isOk, Except.toBool]
          | cons e l => simp [Except.isOk, Except.toBool]
      | reg size => simp [Except.isOk, Except.toBool]
      | other => simp [Except.isOk, Except.toBool]

theorem makeExecEnd_isOk (args : List Bytes) :
    (makeExecEnd (str "EXEC") args).isOk = true ↔
      ∃ program rest, execArgv args = program :: rest ∧ program ≠ [] := by
  have hargv : args.drop (if execHasPty (str "EXEC") args then 1 else 0) = execArgv args := by
    simp only [execHasPty, execArgv, show ¬ str "EXEC" = str "SHELL" by decide]
    by_cases hp : args.head? = some (str "PTY") <;> simp [hp]
  simp only [makeExecEnd, show ¬ str "EXEC" = str "SHELL" by decide, if_false, hargv]
  cases execArgv args with
  | nil => simp [Except.isOk, Except.toBool]
  | cons program rest =>
      by_cases hp : program = [] <;> simp [Except.isOk, Except.toBool, hp]

theorem makeLocalEnd_isOk (src : SourceFs) (type : Bytes) (args : List Bytes) :
    (makeLocalEnd src type args).isOk = true ↔ Makeable src type args := by
  by_cases hecho : type = str "ECHO"
  · subst hecho
    by_cases ha : args = [] <;> simp [makeLocalEnd, Makeable, Except.isOk, Except.toBool, ha,
      show ¬ str "ECHO" = str "SHARE_FILE" by decide, show ¬ str "ECHO" = str "GET_FILE" by decide,
      show ¬ str "ECHO" = str "EXEC" by decide]
  by_cases hshare : type = str "SHARE_FILE"
  · subst hshare
    have hmap : ∀ path, ((src.shareEntries path).map LocalEnd.shareFile).isOk =
        (src.shareEntries path).isOk := by
      intro path
      cases src.shareEntries path <;> rfl
    rcases args with _ | ⟨path, _ | ⟨arg, rest⟩⟩
    · simp [makeLocalEnd, Makeable, hecho, Except.isOk, Except.toBool,
        show ¬ str "SHARE_FILE" = str "SHELL" by decide,
        show ¬ str "SHARE_FILE" = str "GET_FILE" by decide,
        show ¬ str "SHARE_FILE" = str "EXEC" by decide]
    · simp [makeLocalEnd, Makeable, hecho, hmap, shareEntries_isOk,
        show ¬ str "SHARE_FILE" = str "GET_FILE" by decide,
        show ¬ str "SHARE_FILE" = str "EXEC" by decide]
    · simp [makeLocalEnd, Makeable, hecho, Except.isOk, Except.toBool,
        show ¬ str "SHARE_FILE" = str "GET_FILE" by decide,
        show ¬ str "SHARE_FILE" = str "EXEC" by decide]
  by_cases hget : type = str "GET_FILE"
  · subst hget
    rcases args with _ | ⟨target, _ | ⟨flag, _ | ⟨arg, rest⟩⟩⟩
    · simp [makeLocalEnd, Makeable, hecho, hshare, Except.isOk, Except.toBool,
        show ¬ str "GET_FILE" = str "SHELL" by decide,
        show ¬ str "GET_FILE" = str "EXEC" by decide]
    · simp [makeLocalEnd, Makeable, hecho, hshare, Except.isOk, Except.toBool]
    · by_cases hf : flag = str "OVERWRITE" <;>
        simp [makeLocalEnd, Makeable, hecho, hshare, Except.isOk, Except.toBool, hf,
          show ¬ str "GET_FILE" = str "EXEC" by decide]
    · simp [makeLocalEnd, Makeable, hecho, hshare, Except.isOk, Except.toBool,
        show ¬ str "GET_FILE" = str "EXEC" by decide]
  by_cases hshell : type = str "SHELL"
  · subst hshell
    by_cases ha : args = [] <;> simp [makeLocalEnd, makeExecEnd, Makeable, hecho, hshare, hget, ha,
      Except.isOk, Except.toBool, show ¬ str "SHELL" = str "EXEC" by decide]
  by_cases hexec : type = str "EXEC"
  · subst hexec
    simp only [makeLocalEnd, Makeable, hecho, hshare, hget, hshell, if_false, or_true, if_true,
      or_self, false_and, false_or, true_and, makeExecEnd_isOk]
  · simp [makeLocalEnd, Makeable, hecho, hshare, hget, hshell, hexec, Except.isOk, Except.toBool]

/-! ## Ends -/

/-- An inbound instance gets its end with the answer; every other one has it. -/
def Instance.Ready (i : Instance) : Prop :=
  (i.inbound = true ∧ i.isOpen = false ∧ i.isMeta = false) ∨ i.HasEnd

namespace Session

def Spliced (s : Session) : Prop :=
  ∀ (id : Nat) (i : Instance), s.insts[id]? = some i → i.isOpen = true → i.HasEnd

/-- The end a registration stands for is there: the owner's socket of a PIPE, else what an
end of its own can be made from now. -/
def Backed (src : SourceFs) (r : Reg) : Prop :=
  if r.type = str "PIPE" then 0 ≤ r.ownerFd else Makeable src r.type r.args

theorem hasEnd_of_open {i : Instance} (h : i.Ready) (hopen : i.isOpen = true) : i.HasEnd := by
  rcases h with ⟨-, hclosed, -⟩ | hend
  · exact absurd (hopen.symm.trans hclosed) (by simp)
  · exact hend

/-- The end of a registration that is backed. -/
theorem bindReg_hasEnd {src : SourceFs} {i : Instance} {line : Bytes} {r : Reg}
    (hr : Backed src r) : (bindReg src i line (spawnReg r)).HasEnd := by
  simp only [Backed] at hr
  split at hr
  · rename_i hpipe
    refine .inr ?_
    simpa [bindReg, spawnReg, hpipe] using hr
  · rename_i hpipe
    refine .inl ?_
    have hok := (makeLocalEnd_isOk src r.type r.args).mpr hr
    cases hm : makeLocalEnd src r.type r.args with
    | error e => simp [hm, Except.isOk, Except.toBool] at hok
    | ok e => simp [bindReg, spawnReg, hpipe, hm, Except.toOption]

theorem ready_kept : Instance.Kept Backed Instance.Ready where
  alike i i' same h := by
    simpa only [Instance.Ready, Instance.HasEnd, same.inbound, same.isOpen, same.isMeta,
      same.localEnd, same.cfd] using h
  inbound := .inl ⟨rfl, rfl, rfl⟩
  launched _ hend := .inr hend
  connected i h := by
    rcases h with ⟨hin, hclosed, hmeta⟩ | hend
    · exact .inl ⟨hin, by simp [hclosed, hmeta], hmeta⟩
    · exact .inr hend
  bound _ _ _ _ hr := .inr (bindReg_hasEnd hr)
  opened i _ out h := by
    rcases h with ⟨hin, -⟩ | hend
    · exact absurd (out.symm.trans hin) (by simp)
    · exact .inr hend

end Session

namespace Daemon
open Session

/-- No step takes up a registration whose end is not there. -/
def TakesUpBacked : Daemon → DaemonAction → Prop :=
  HeardOk fun src s id b now => s.Heard Backed src id b now

/-- In a run in which every registration a peer takes up has its end, every open instance has
one, and a request is answered OK only when it got one. -/
theorem spliced_of_backed {d₀ d : Daemon} {a : Answers}
    (h : Reach step TakesUpBacked (d₀.run a) d) :
    d.Every Spliced ∧ ∀ key s id b now line, TakesUpBacked d (.data key id b now) →
      d.sessions[key]? = some s → s.requestLine id b = some line → line ≠ str "__LIST__" →
      str "OK " <+: (s.onTunnelData d.files id b now).2 →
      ∃ i : Instance, (s.onTunnelData d.files id b now).1.insts[id]? = some i ∧
        i.isOpen = true ∧ i.HasEnd := by
  have kept := instances_kept ready_kept
  have ready : d.Every (Instances Instance.Ready) :=
    h.invariant (Every.run kept d₀ a) fun _ _ _ hd ok hs => hd.step kept ok hs
  refine ⟨fun key s hs id i hi => hasEnd_of_open (ready key s hs id i hi).2, ?_⟩
  intro key s id b now line ok hs hline hne hok
  obtain ⟨instances, answered⟩ := onTunnelData_instances (ready key s hs) ready_kept (ok s hs)
  obtain ⟨i, hi, hopen⟩ := answered line hline hne hok
  exact ⟨i, hi, hopen, hasEnd_of_open (instances id i hi).2 hopen⟩

/-- A check that is enough for the condition of `spliced_of_backed`. -/
def takesUpBacked (d : Daemon) : DaemonAction → Bool
  | .data key id b _ => ((d.sessions[key]?).bind fun s => s.resolved id b).all fun r =>
      if r.type = str "PIPE" then 0 ≤ r.ownerFd else (makeLocalEnd d.files r.type r.args).isOk
  | _ => true

theorem takesUpBacked_sound (d : Daemon) (act : DaemonAction) (h : takesUpBacked d act = true) :
    TakesUpBacked d act := by
  cases act with
  | data key id b now =>
      intro s hs r hr
      simp only [takesUpBacked, hs, Option.bind_some, hr, Option.all_some] at h
      simp only [Backed]
      split at h
      · rename_i hpipe
        rw [if_pos hpipe]
        exact of_decide_eq_true h
      · rename_i hpipe
        rw [if_neg hpipe]
        exact (makeLocalEnd_isOk d.files r.type r.args).mp h
  | command _ _ _ | tick _ | accept _ | gone _ _ | connected _ _ | connectFailed _ _
    | requestClose _ _ | ownerGone _ _ _ _ | changeFiles _ | restart _ | pair _
    | removePeer _ | renamePeer _ _ => trivial

end Daemon

namespace Sample

/-- A daemon without peers. -/
def daemon : Daemon := { disk, files := noFiles }

/-- One empty file. -/
def oneFile : SourceFs where
  stat p := if p = str "/f" then some (.reg 0) else none
  readdir _ := none
  content p := if p = str "/f" then some [] else none
  stat_short := by
    intro p s h
    simp only [Option.ite_none_right_eq_some] at h
    rw [h.1]
    decide
  size_content := by
    intro p n b h h'
    simp only [Option.ite_none_right_eq_some, Option.some.injEq, Stat.reg.injEq] at h h'
    rw [← h.2, ← h'.2]
    rfl
  size_lt := by
    intro p n h
    simp only [Option.ite_none_right_eq_some, Option.some.injEq, Stat.reg.injEq] at h
    omega
  names_plain := @noFiles.names_plain
  names_nodup := @noFiles.names_nodup
  reg_plain := by
    intro p n h
    simp only [Option.ite_none_right_eq_some] at h
    rw [h.1]
    exact ⟨str "f", by decide, by decide⟩

end Sample

namespace Daemon
open Session

/-- The instances of a peer's session that are open, and whether they have an end. -/
def ends (d : Daemon) (key : Bytes) : List (Nat × Bool) :=
  ((d.sessions[key]?).getD {}).insts.toList.filterMap fun e =>
    if e.2.isOpen then some (e.1, e.2.localEnd.isSome || 0 ≤ e.2.cfd) else none

theorem spliced_after_request : ∃ d : Daemon, d.ends (str "bob") = [(0, true)] ∧
    d.Every Spliced := by
  obtain ⟨d, reached, hends⟩ := Reach.observedWhen step takesUpBacked_sound
    (Sample.daemon.run {})
    [.pair Sample.record, .command {} 3 (str "RELOAD"), .changeFiles Sample.oneFile,
      .command {} 3 (str "REGISTER bob x SHARE_FILE /f"), .restart {}, .accept (str "bob"),
      .data (str "bob") 0 (str "x\n") 5]
    (fun d => d.ends (str "bob"))
    (by decide +kernel : _ = some [(0, true)])
  exact ⟨d, hends, (spliced_of_backed reached).1⟩

/-- The shared file is deleted between REGISTER and the request. -/
theorem deleted_file_leaves_no_end : ¬ ∀ d : Daemon,
    Reach step anyStep (Sample.daemon.run {}) d → d.Every Spliced := by
  intro all
  obtain ⟨d, reached, hends⟩ := Reach.observed step (Sample.daemon.run {})
    [.pair Sample.record, .command {} 3 (str "RELOAD"), .changeFiles Sample.oneFile,
      .command {} 3 (str "REGISTER bob x SHARE_FILE /f"), .changeFiles Sample.noFiles,
      .accept (str "bob"), .data (str "bob") 0 (str "x\n") 5]
    (fun d => ((d.sessions[str "bob"]?).bind fun s => s.insts[0]?).map fun i =>
      (i.isOpen, i.localEnd, i.cfd))
    (by decide +kernel : _ = some (some (true, none, -1)))
  obtain ⟨i, hi, hobs⟩ := Option.map_eq_some_iff.mp hends
  obtain ⟨s, hs, hinst⟩ := Option.bind_eq_some_iff.mp hi
  simp only [Prod.mk.injEq] at hobs
  obtain ⟨hopen, hlocal, hcfd⟩ := hobs
  rcases all d reached (str "bob") s hs 0 i hinst hopen with hend | hend
  · exact hend hlocal
  · rw [hcfd] at hend
    exact absurd hend (by decide)

end Daemon
end Splice.Peer
