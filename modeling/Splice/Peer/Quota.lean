import Splice.Peer.Inventory

/-!
LIMIT as a bound on the life of a registration. A session counts the requests it has
answered, but the count is not stored: a restart starts it from nothing. The bound holds
in every run that does not restart while a limited registration has been taken up.
-/

namespace Splice.Peer
open Lib Table

/-- No registration created with a limit has been answered OK for more often than that. -/
def Bounded (w : PeerWorld) : Prop :=
  ∀ b ∈ w.disk.births, b.limit ≠ 0 → w.served b.no ≤ b.limit

/-- No daemon-owned offer with a limit has been taken up since the daemon started. -/
def Unused (t : Table) : Prop :=
  ∀ n o, t.offers n = some o → o.persisted = true → o.limit ≠ 0 → o.started = 0

variable {root : Path} {peer : Bytes} {t : Table}

/-- The session's count of a limited registration is the true one. -/
structure Counted (root : Path) (peer : Bytes) (t : Table) : Prop extends
    Inventory root peer t where
  count : ∀ n o b, t.offers n = some o → o.birth = some b → b.limit ≠ 0 →
    t.served b.no = o.started ∧ o.started ≤ b.limit
  bound : ∀ b ∈ t.disk.births, b.limit ≠ 0 → t.served b.no ≤ b.limit
  unborn_served : ∀ k, t.disk.births.length ≤ k → t.served k = 0

namespace Counted

theorem no_lt (inv : Inventory root peer t) {b : Birth} (hb : b ∈ t.disk.births) :
    b.no < t.disk.births.length := by
  obtain ⟨k, hk, hget⟩ := List.getElem_of_mem hb
  have hno : b.no = k := inv.numbered k b (by rw [List.getElem?_eq_getElem hk, hget])
  omega

/-- Registrations are told apart by their number. -/
theorem no_inj (inv : Inventory root peer t) {b b' : Birth} (hb : b ∈ t.disk.births)
    (hb' : b' ∈ t.disk.births) (h : b.no = b'.no) : b = b' := by
  obtain ⟨k, hk, hget⟩ := List.getElem_of_mem hb
  obtain ⟨k', hk', hget'⟩ := List.getElem_of_mem hb'
  have hno : b.no = k := inv.numbered k b (by rw [List.getElem?_eq_getElem hk, hget])
  have hno' : b'.no = k' := inv.numbered k' b' (by rw [List.getElem?_eq_getElem hk', hget'])
  have hkk : k = k' := by omega
  subst hkk
  exact hget.symm.trans hget'

theorem birth_mem (inv : Inventory root peer t) {n : Bytes} {o : Offer} {b : Birth}
    (ho : t.offers n = some o) (hb : o.birth = some b) :
    b ∈ t.disk.births ∧ b.limit = o.limit ∧ o.limit < 2 ^ 32 := by
  cases hper : o.persisted with
  | false => exact absurd (hb.symm.trans (inv.unborn n o ho hper)) (by simp)
  | true =>
      obtain ⟨b', hb', hmem, hlimit, hlt⟩ := inv.offer n o ho hper
      cases hb.symm.trans hb'
      exact ⟨hmem, hlimit, hlt⟩

/-- A request that found its offer not spent is counted twice over, once by the session and
once by the observer. -/
theorem spawned (c : Counted root peer t) {name : Bytes} {o : Offer}
    (there : t.offers name = some o) (left : ¬ o.Spent) :
    Counted root peer { t.put name (some o.spawn) with
      served := match o.birth with
        | none => t.served
        | some b => Function.update t.served b.no (t.served b.no + 1) } := by
  have inv := c.toInventory.spawned there (match o.birth with
        | none => t.served
        | some b => Function.update t.served b.no (t.served b.no + 1))
  cases hb : o.birth with
  | none =>
      rw [hb] at inv
      refine { toInventory := inv, bound := c.bound, unborn_served := c.unborn_served
               count := fun n o' b' ho' hb' => ?_ }
      simp only [put_offers] at ho'
      split at ho'
      · cases ho'
        exact absurd (hb.symm.trans hb') (by simp)
      · exact c.count n o' b' ho' hb'
  | some b =>
      rw [hb] at inv
      obtain ⟨hmem, hlimit, hlt⟩ := birth_mem c.toInventory there hb
      have room : b.limit ≠ 0 → t.served b.no = o.started ∧ o.started < b.limit := by
        intro hne
        refine ⟨(c.count name o b there hb hne).1, ?_⟩
        by_contra hge
        exact left ⟨hlimit ▸ hne, by omega⟩
      refine { toInventory := inv, count := fun n o' b' ho' hb' hne => ?_
               bound := fun b' hb' hne => ?_, unborn_served := fun k hk => ?_ }
      · simp only [put_offers] at ho'
        simp only [Function.update_apply]
        split at ho'
        · cases ho'
          cases hb.symm.trans hb'
          obtain ⟨hserved, hstarted⟩ := room hne
          have hmod : (o.started + 1) % 2 ^ 32 = o.started + 1 := Nat.mod_eq_of_lt (by omega)
          simp only [if_true, Offer.spawn, hmod, hserved, true_and]
          omega
        · rename_i hn
          have hmem' := (birth_mem c.toInventory ho' hb').1
          have hother : b'.no ≠ b.no := by
            intro e
            have hbb : b' = b := no_inj c.toInventory hmem' hmem e
            exact hn (c.single n name o' o b ho' there (hbb ▸ hb') hb)
          rw [if_neg hother]
          exact c.count n o' b' ho' hb' hne
      · simp only [Function.update_apply]
        split
        · rename_i hno
          cases no_inj c.toInventory hb' hmem hno
          obtain ⟨hserved, hstarted⟩ := room hne
          omega
        · exact c.bound b' hb' hne
      · have hno := no_lt c.toInventory hmem
        have hne : k ≠ b.no := by
          have hk' : t.disk.births.length ≤ k := hk
          omega
        simp only [Function.update_apply, if_neg hne]
        exact c.unborn_served k hk

theorem kept : Kept root peer (fun _ => True) Unused (Counted root peer) where
  base _ c := c.toBase
  keep t t' c h := by
    have inv : Inventory root peer t' := Inventory.kept.keep t t' c.toInventory h
    cases h with
    | prepared h =>
        exact { toInventory := inv, count := c.count, bound := c.bound
                unborn_served := c.unborn_served }
    | pipe absent kept birth =>
        refine { toInventory := inv, bound := c.bound, unborn_served := c.unborn_served
                 count := fun n o' b' ho' hb' => ?_ }
        rw [put_offers] at ho'
        split at ho'
        · cases ho'
          exact absurd (birth.symm.trans hb') (by simp)
        · exact c.count n o' b' ho' hb'
    | @stored fs r i b absent ok its h storable no limit =>
        have unserved : t.served b.no = 0 := c.unborn_served _ (by omega)
        refine { toInventory := inv, count := fun n o' b' ho' hb' => ?_
                 bound := fun b' hb' hne => ?_, unborn_served := fun k hk => ?_ }
        · simp only [Function.update_apply] at ho'
          split at ho'
          · cases ho'
            cases hb'
            exact fun _ => ⟨unserved, Nat.zero_le _⟩
          · exact c.count n o' b' ho' hb'
        · rcases List.mem_append.mp hb' with hold | hnew
          · exact c.bound b' hold hne
          · cases List.mem_singleton.mp hnew
            simp only [unserved]
            omega
        · refine c.unborn_served k ?_
          simp only [List.length_append] at hk
          omega
    | dropped kept =>
        refine { toInventory := inv, bound := c.bound, unborn_served := c.unborn_served
                 count := fun n o' b' ho' => ?_ }
        rw [put_offers] at ho'
        split at ho'
        · cases ho'
        · exact c.count n o' b' ho'
    | deleted there kept node data cwd =>
        refine { toInventory := inv, bound := c.bound, unborn_served := c.unborn_served
                 count := fun n o' b' ho' => ?_ }
        simp only [put_offers] at ho'
        split at ho'
        · cases ho'
        · exact c.count n o' b' ho'
    | spawned there left => exact c.spawned there left
    | restarted ok =>
        refine { toInventory := inv, bound := c.bound, unborn_served := c.unborn_served
                 count := fun n o' b' ho' hb' hne => ?_ }
        -- the file stems from an offer that was not taken up, so nothing is forgotten
        obtain ⟨-, i, r, b, -, -, ⟨m, o, ho, hper, -, hbirth, -⟩, rfl⟩ :=
          c.reloaded_eq_some.mp ho'
        cases hb'
        have hlimit : b'.limit = o.limit := (birth_mem c.toInventory ho hbirth).2.1
        have unused : o.started = 0 := ok m o ho hper (hlimit ▸ hne)
        have hserved : t.served b'.no = o.started := (c.count m o b' ho hbirth hne).1
        exact ⟨hserved.trans unused, Nat.zero_le _⟩

end Counted

namespace PeerWorld

/-- In a run that never restarts while a limited registration has been taken up, no
registration is answered OK for more often than its limit says. -/
theorem bounded_of_unused_restarts {d : Disk} {files : SourceFs} {record : ConnRecord}
    {w : PeerWorld} (fresh : Fresh root record.name d)
    (h : Reach step (StepOk (fun _ => True) Unused) (opened d files record) w) : Bounded w := by
  have start : Counted root record.name (opened d files record).table := by
    refine ⟨fresh.inventory files, fun n o b ho => ?_, fun b hb => ?_, fun _ _ => rfl⟩
    · exact absurd ((fresh.offers files n).symm.trans ho) (by simp)
    · simp [table, opened, fresh.births] at hb
  exact (Fresh.holds start Counted.kept h).2.2.bound

/-- A check that is enough for the condition of `bounded_of_unused_restarts`. -/
def restartsUnused (w : PeerWorld) : PeerAction → Bool
  | .restart => w.session.regs.toList.all fun e => e.2.started = 0
  | _ => true

theorem restartsUnused_sound (w : PeerWorld) (a : PeerAction) (h : restartsUnused w a = true) :
    StepOk (fun _ => True) Unused w a := by
  cases a with
  | restart =>
      intro n o ho _ _
      obtain ⟨r, hr, rfl⟩ := Session.offers_some ho
      simp only [restartsUnused, List.all_eq_true] at h
      have hmem := Std.ExtTreeMap.mem_toList_iff_getElem?_eq_some.mpr hr
      exact of_decide_eq_true (h (n, r) hmem)
  | register _ _ _ => exact fun _ _ _ => trivial
  | unregister _ | accept | data _ _ _ | gone _ | close _ | requestClose _ | tick _
    | changeFiles _ => trivial

theorem bounded_after_one_request : ∃ w : PeerWorld, w.served 0 = 1 ∧ Bounded w := by
  obtain ⟨w, reached, once⟩ := Reach.observedWhen step restartsUnused_sound
    (opened Sample.disk Sample.noFiles Sample.record)
    [.register 3 (str "x") [str "LIMIT", str "1", str "ECHO"], .restart, .accept,
      .data 0 (str "x\n") 5, .accept, .data 1 (str "x\n") 6, .tick 7]
    (fun w => w.served 0)
    (by decide +kernel : _ = some 1)
  exact ⟨w, once, bounded_of_unused_restarts Sample.fresh reached⟩

/-- A LIMIT 1 that was used is offered again by the next daemon. -/
theorem restart_forgets_count : ¬ ∀ w : PeerWorld,
    Reach step anyStep (opened Sample.disk Sample.noFiles Sample.record) w → Bounded w := by
  intro all
  obtain ⟨w, reached, twice⟩ := Reach.observed step
    (opened Sample.disk Sample.noFiles Sample.record)
    [.register 3 (str "x") [str "LIMIT", str "1", str "ECHO"], .accept,
      .data 0 (str "x\n") 5, .restart, .accept, .data 0 (str "x\n") 6]
    (fun w => (w.served 0, w.disk.births))
    (by decide +kernel : _ = some (2, [⟨0, Sample.record.uid, 1⟩]))
  rw [Prod.mk.injEq] at twice
  have bound := all w reached ⟨0, Sample.record.uid, 1⟩ (by rw [twice.2]; simp) (by decide)
  simp only [twice.1] at bound
  omega

end PeerWorld
end Splice.Peer
