import Splice.Peer.Session
import Splice.Peer.Shelf

/-!
What a session looks like without its live connections: who it is for and the offers
it makes, an offer being the part of a registration that says what is offered, to what
limit and how often it has been taken up. One lemma for each operation says what it
does to the face of a session.
-/

namespace Splice.Peer
open Lib Proto

structure Offer where
  type : Bytes
  limit : Nat
  started : Nat
  persisted : Bool
  birth : Option Birth

def Reg.offer (r : Reg) : Offer :=
  { type := r.type, limit := r.limit, started := r.started, persisted := r.persisted
    birth := r.birth }

namespace Offer

/-- Taken up once more. -/
def spawn (o : Offer) : Offer := { o with started := (o.started + 1) % 2 ^ 32 }

/-- The quota is spent. -/
def Spent (o : Offer) : Prop := o.limit ≠ 0 ∧ o.limit ≤ o.started

end Offer

structure Face where
  name : Bytes
  record : ConnRecord
  pm : Option Nat
  ns : Option Nat
  offers : Bytes → Option Offer

/-- The offers with one of them set or taken back. -/
def Face.put (f : Face) (name : Bytes) (o : Option Offer) : Face :=
  { f with offers := Function.update f.offers name o }

@[simp] theorem Face.put_offers (f : Face) (name : Bytes) (o : Option Offer) (n : Bytes) :
    (f.put name o).offers n = if n = name then o else f.offers n := by
  simp [put, Function.update_apply]

namespace Session

def face (s : Session) : Face :=
  { name := s.name, record := s.record, pm := s.pm, ns := s.ns
    offers := fun n => (s.regs[n]?).map Reg.offer }

theorem offers_some {s : Session} {name : Bytes} {o : Offer} (h : s.face.offers name = some o) :
    ∃ r, s.regs[name]? = some r ∧ r.offer = o := Option.map_eq_some_iff.mp h

private theorem face_regs (s : Session) {regs : Std.ExtTreeMap Bytes Reg} {name : Bytes}
    {o : Option Offer}
    (h : ∀ n : Bytes, (regs[n]?).map Reg.offer =
      if n = name then o else (s.regs[n]?).map Reg.offer) :
    { s.face with offers := fun n => (regs[n]?).map Reg.offer } = s.face.put name o := by
  simp only [face, Face.put, Face.mk.injEq, true_and]
  funext n
  rw [h, Function.update_apply]

private theorem offer_insert (regs : Std.ExtTreeMap Bytes Reg) (name : Bytes) (r : Reg)
    (n : Bytes) : ((regs.insert name r)[n]?).map Reg.offer =
      if n = name then some r.offer else (regs[n]?).map Reg.offer := by
  rw [Std.ExtTreeMap.getElem?_insert]
  simp only [Std.LawfulEqCmp.compare_eq_iff_eq, eq_comm (a := name)]
  split <;> rfl

theorem face_addReg (s : Session) (name : Bytes) (reg : Reg) :
    (s.addReg name reg).face = s.face.put name (some reg.offer) :=
  face_regs s (offer_insert s.regs name _)

theorem offer_countFinished (regs : Std.ExtTreeMap Bytes Reg) (i : Instance) (n : Bytes) :
    ((countFinished regs i)[n]?).map Reg.offer = (regs[n]?).map Reg.offer := by
  simp only [countFinished]
  split
  · rfl
  · split
    · rfl
    · rename_i r hr
      split
      · rw [offer_insert]
        split
        · rename_i hn
          simp [hn, hr, Reg.offer]
        · rfl
      · rfl

@[simp] theorem face_closeInstance (s : Session) (id : Nat) :
    (s.closeInstance id).face = s.face := by
  simp only [closeInstance]
  split
  · rfl
  · simp only [face, offer_countFinished]

theorem face_foldl_close (ids : List Nat) (s : Session) :
    (ids.foldl closeInstance s).face = s.face := by
  induction ids generalizing s with
  | nil => rfl
  | cons id ids ih => rw [List.foldl_cons, ih, face_closeInstance]

@[simp] theorem face_drainClose (s : Session) : s.drainClose.face = s.face :=
  face_foldl_close s.wantClose s

@[simp] theorem face_dialAll (s : Session) (now : Nat) : (s.dialAll now).face = s.face :=
  face_foldl_close _ _

@[simp] theorem face_onTunnelGone (s : Session) (id : Nat) :
    (s.onTunnelGone id).face = s.face := by
  simp only [onTunnelGone]
  split
  · rfl
  · split
    · rfl
    · exact face_closeInstance s id

@[simp] theorem face_outboundLine (s : Session) (id : Nat) (i : Instance) (line : Bytes)
    (now : Nat) : (outboundLine s id i line now).face = s.face := by
  simp only [outboundLine]
  split
  · split
    · rfl
    · exact face_closeInstance s id
  · split
    · rfl
    · exact face_closeInstance s id

@[simp] theorem face_preack (s : Session) (id : Nat) (rest : Bytes) :
    (s.preack id rest).face = s.face := by
  simp only [preack]
  split
  · rfl
  · split <;> rfl

theorem preack_reg (s : Session) (id : Nat) (rest : Bytes) :
    ((s.preack id rest).insts[id]?).map (·.reg) = (s.insts[id]?).map (·.reg) := by
  simp only [preack]
  split
  · rfl
  · rename_i i hi
    split
    · simp [putInst, hi]
    · rfl

theorem preack_none (s : Session) (id : Nat) (rest : Bytes) :
    (s.preack id rest).insts[id]? = none ↔ s.insts[id]? = none := by
  rw [← Option.map_eq_none_iff, preack_reg s id rest, Option.map_eq_none_iff]

/-- What the answer to a request line says: either an offer whose quota is not spent was
taken up and answered OK, or the offers are as they were. -/
def Answered (s : Session) (id : Nat) (r : Session × Bytes) : Prop :=
  (∃ name o, s.face.offers name = some o ∧ ¬ o.Spent ∧
    r.1.face = s.face.put name (some o.spawn) ∧ (r.1.insts[id]?).map (·.reg) = some name ∧
    str "OK " <+: r.2) ∨
  (r.1.face = s.face ∧ (r.1.insts[id]? = none ∨ r.2 = []))

theorem closeInstance_none (s : Session) (id : Nat) : (s.closeInstance id).insts[id]? = none := by
  simp only [closeInstance]
  split
  · assumption
  · simp

theorem inboundLine_answered (src : SourceFs) (s : Session) (id : Nat) (i : Instance)
    (line : Bytes) : Answered s id (inboundLine src s id i line) := by
  have refused (reply : Bytes) : Answered s id (s.closeInstance id, reply) :=
    .inr ⟨face_closeInstance s id, .inl (closeInstance_none s id)⟩
  simp only [inboundLine]
  split
  · exact refused _
  · split
    · exact refused _
    · split
      · exact refused _
      · rename_i reg hreg
        split
        · exact refused _
        · rename_i hquota
          refine .inl ⟨line, reg.offer, by simp [face, hreg], hquota, ?_, ?_, ?_⟩
          · exact face_regs s (offer_insert s.regs line _)
          · simp [putInst, bindReg]
          · rw [List.append_assoc]
            exact List.prefix_append _ _

theorem onTunnelData_answered (src : SourceFs) (s : Session) (id : Nat) (b : Bytes) (now : Nat) :
    Answered s id (onTunnelData src s id b now) := by
  simp only [onTunnelData]
  split
  · exact .inr ⟨rfl, .inr rfl⟩
  · rename_i i hi
    split
    · exact .inr ⟨rfl, .inr rfl⟩
    · split
      · simp only [Answered, face_preack, preack_reg, preack_none, handshakeLine]
        split
        · exact inboundLine_answered src (s.putInst id { i with lbuf := [] }) id _ _
        · exact .inr ⟨face_outboundLine _ id _ _ now, .inr rfl⟩
      · split
        · exact .inr ⟨face_closeInstance s id, .inr rfl⟩
        · exact .inr ⟨rfl, .inr rfl⟩

/-! ## Operations that touch the store -/

theorem face_unregister (d : Disk) (s : Session) (name : Bytes) :
    (unregister d s name).2.1.face = s.face.put name none := by
  have herase : ∀ n : Bytes, ((s.regs.erase name)[n]?).map Reg.offer =
      if n = name then none else (s.regs[n]?).map Reg.offer := by
    intro n
    rw [Std.ExtTreeMap.getElem?_erase]
    simp only [Std.LawfulEqCmp.compare_eq_iff_eq, eq_comm (a := name)]
    split <;> rfl
  simp only [unregister]
  split
  · rename_i h
    refine face_regs s fun n => ?_
    split
    · rename_i hn
      simp [hn, h]
    · rfl
  · exact face_regs s herase

/-- The files after `unregister`: a stored registration is deleted by its form. -/
theorem unregister_disk (d : Disk) (s : Session) (name : Bytes) :
    (unregister d s name).1 =
      if (s.face.offers name).any (·.persisted) then
        { d with fs := (d.store.removePipe d.fs s.name name).getD d.fs }
      else d := by
  simp only [unregister, face]
  split
  · rename_i h
    simp [h]
  · rename_i r h
    simp [h, Reg.offer]

/-- What a REGISTER can do: nothing, offer the client's own socket, or store a registration
and offer it if that worked. -/
inductive Registered (src : SourceFs) (d : Disk) (s : Session) (fd : Int) (name : Bytes)
    (toks : List Bytes) : Disk → Session → Prop
  | refused : Registered src d s fd name toks d s
  | pipe {limit : Nat} (absent : s.face.offers name = none) :
      Registered src d s fd name toks d
        (s.addReg name { type := str "PIPE", limit, ownerFd := fd })
  | unsaved {limit : Nat} {type : Bytes} {args : List Bytes} {fs : FileSystem} {e : Bytes}
      (absent : s.face.offers name = none)
      (save : d.store.savePipe d.fs ⟨s.name, name, type, limit, args⟩ = (fs, some e)) :
      Registered src d s fd name toks { d with fs } s
  | saved {limit : Nat} {type : Bytes} {args : List Bytes} {fs : FileSystem} {e : LocalEnd}
      (absent : s.face.offers name = none)
      (parsed : parseLimit toks = .ok (limit, type :: args)) (owned : type ≠ str "PIPE")
      (made : makeLocalEnd src type args = .ok e)
      (save : d.store.savePipe d.fs ⟨s.name, name, type, limit, args⟩ = (fs, none)) :
      Registered src d s fd name toks
        (d.note fs (d.store.pipePath s.name name) ⟨d.births.length, s.record.uid, limit⟩)
        (s.addReg name
          { type, args, limit, persisted := true
            birth := some ⟨d.births.length, s.record.uid, limit⟩ })

theorem register_cases (src : SourceFs) (d : Disk) (s : Session) (fd : Int) (name : Bytes)
    (toks : List Bytes) : Registered src d s fd name toks
      (register src d s fd name toks).1 (register src d s fd name toks).2.1 := by
  simp only [register]
  split
  · exact .refused
  · rename_i habsent
    have absent : s.face.offers name = none := by
      simp only [face]
      rw [Std.ExtTreeMap.getElem?_eq_none (by simpa using habsent)]
      rfl
    split
    · exact .refused
    · exact .refused
    · rename_i limit type args hparse
      split
      · rename_i htype
        subst htype
        split
        · exact .pipe absent
        · exact .refused
      · rename_i owned
        simp only [registerOwned]
        split
        · exact .refused
        · rename_i e made
          split
          · rename_i fs e save
            exact .unsaved absent save
          · rename_i fs save
            exact .saved absent hparse owned made save

/-- The offer a stored registration is loaded as. -/
def loaded (d : Disk) (peer : Bytes) (r : PipeRecord) : Offer :=
  { type := r.type, limit := r.limit, started := 0, persisted := true
    birth := d.birthAt (d.store.pipePath peer r.name) }

theorem face_start (d : Disk) (s : Session) (record : ConnRecord) (object : Nat) :
    (start d s record object).face =
      { name := record.name, record, pm := some object, ns := some object
        offers := fun n =>
          match (d.store.listPipes d.fs record.name).find? (·.name = n) with
          | some r => some (loaded d record.name r)
          | none => s.face.offers n } := by
  have hnodup : ((d.store.listPipes d.fs record.name).map (·.name)).Nodup :=
    Store.listPipes_nodup
  rw [start]
  generalize d.store.listPipes d.fs record.name = l at hnodup
  generalize hs₀ : ({ s with name := record.name, record, pm := some object, ns := some object }
    : Session) = s₀
  have hface : (Face.mk record.name record (some object) (some object) fun n =>
      match l.find? (·.name = n) with
      | some r => some (loaded d record.name r)
      | none => s.face.offers n) =
      { s₀.face with offers := fun n =>
          match l.find? (·.name = n) with
          | some r => some (loaded d record.name r)
          | none => s₀.face.offers n } := by
    rw [← hs₀]
    rfl
  rw [hface]
  clear hface hs₀
  induction l generalizing s₀ with
  | nil => rfl
  | cons r l ih =>
      rw [List.map_cons, List.nodup_cons] at hnodup
      rw [List.foldl_cons, ih hnodup.2, face_addReg]
      simp only [Face.put, Face.mk.injEq, true_and]
      funext n
      rw [List.find?_cons]
      by_cases hr : r.name = n
      · have habsent : l.find? (fun r => decide (r.name = n)) = none := by
          rw [List.find?_eq_none]
          intro r' hr' e
          exact hnodup.1 (List.mem_map.mpr ⟨r', hr', (of_decide_eq_true e).trans hr.symm⟩)
        simp [habsent, hr, Reg.offer, loaded]
      · simp [hr, eq_comm (a := n)]

end Session
end Splice.Peer
