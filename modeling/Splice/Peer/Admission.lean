import Splice.Peer.Candidates

/-!
Who gets into a full table. A reported address takes the place of one that never answered;
an address that is learned from the tunnel's own traffic is let in only while there is room.
-/

namespace Splice.Peer.PathManager
open Proto

def Listed (m : PathManager) (ep : Endpoint) : Prop := ∃ c ∈ m.cands, c.ep = ep

/-- Every entry has answered or is the chosen one. -/
def AllProven (m : PathManager) : Prop :=
  ∀ c ∈ m.cands, c.lastRx ≠ 0 ∨ m.chosen = some c.ep

/-- Sixteen other addresses, none of which may be dropped. -/
def Taken (m : PathManager) (ep : Endpoint) : Prop :=
  kMaxCands ≤ m.cands.length ∧ ¬ Listed m ep ∧ AllProven m

variable {m : PathManager} {ep : Endpoint} {now : Int}

theorem listed_iff : Listed m ep ↔ (m.findCand ep).isSome = true := by
  rw [findCand_isSome, List.mem_map]
  rfl

theorem exists_onCand {f : DirectCand → DirectCand} {cs : List DirectCand}
    (h : ∃ c ∈ cs, c.ep = ep) : ∃ c ∈ cs, c.ep = ep ∧ f c ∈ onCand ep f cs := by
  induction cs with
  | nil =>
      obtain ⟨_, hc, -⟩ := h
      cases hc
  | cons a cs ih =>
      rw [onCand]
      split
      · rename_i here
        exact ⟨a, List.mem_cons_self .., here, List.mem_cons_self ..⟩
      · rename_i other
        obtain ⟨c, hc, same⟩ := h
        rcases List.mem_cons.mp hc with rfl | hc
        · exact absurd same other
        · obtain ⟨c', hc', same', changed⟩ := ih ⟨c, hc, same⟩
          exact ⟨c', List.mem_cons_of_mem _ hc', same', List.mem_cons_of_mem _ changed⟩

/-- A reported address is in the table afterwards, or it is taken. -/
theorem listed_addCand (valid : ep.valid = true) (lan : Bool) :
    Listed (m.addCand ep lan now) ep ∨ Taken m ep := by
  simp only [addCand, valid, Bool.not_true, Bool.false_eq_true, if_false]
  split
  · rename_i found
    obtain ⟨c, -, same, changed⟩ := exists_onCand
      (f := fun c => { c with lan := c.lan || lan, learned := now }) (listed_iff.mpr found)
    exact .inl ⟨_, changed, same⟩
  · rename_i missing
    have last : ∀ cs : List DirectCand,
        Listed { m with cands := cs ++ [{ ep, lan, learned := now }] } ep :=
      fun cs => ⟨_, List.mem_append_right _ (List.mem_singleton_self _), rfl⟩
    split
    · rename_i full
      split
      · exact .inl (last _)
      · rename_i proven
        refine .inr ⟨full, fun listed => missing (listed_iff.mp listed), fun c hc => ?_⟩
        have := fun h => proven (List.any_eq_true.mpr ⟨c, hc, h⟩)
        by_contra dead
        simp only [not_or, not_not] at dead
        exact this (by simp [dead.1, dead.2])
    · exact .inl (last _)

/-- Traffic from an address puts it into the table, with the time, if it is there already or
there is room. -/
theorem touchCand_iff : (∃ c ∈ (m.touchCand ep now).cands, c.ep = ep ∧ c.lastRx = now) ↔
    Listed m ep ∨ m.cands.length < kMaxCands := by
  rw [touchCand]
  split
  · rename_i found
    have listed := listed_iff.mpr found
    obtain ⟨c, -, same, changed⟩ := exists_onCand (f := fun c => { c with lastRx := now }) listed
    exact ⟨fun _ => .inl listed, fun _ => ⟨_, changed, same, rfl⟩⟩
  · rename_i missing
    rw [← listed_iff] at missing
    split
    · rename_i full
      constructor
      · rintro ⟨c, hc, same, -⟩
        exact absurd ⟨c, hc, same⟩ missing
      · rintro (listed | room)
        · exact absurd listed missing
        · exact absurd full (Nat.not_le.mpr room)
    · rename_i room
      exact ⟨fun _ => .inr (Nat.not_le.mp room), fun _ =>
        ⟨_, List.mem_append_right _ (List.mem_singleton_self _), rfl, rfl⟩⟩

/-- Data out of the tunnel that came directly is a sign of life, and that is all it does to the
table. -/
theorem step_directData (mac : MacFn) {body : Bytes} {wg : WgReply} (data : wg.tunnel.isSome = true)
    (direct : ep ≠ m.cfg.server) (unforced : m.forceRelay = false) :
    (m.step mac (.datagram ep (0x00 :: body) now wg)).cands = (m.touchCand ep now).cands := by
  obtain ⟨inner, tunnel⟩ := Option.isSome_iff_exists.mp data
  have ops : m.tableOps mac (.datagram ep (0x00 :: body) now wg) = [.touch ep] := by
    simp [tableOps, processOps, innerOps, wgOps, unforced, direct, tunnel]
  have same := step_table mac m (.datagram ep (0x00 :: body) now wg)
  rw [ops] at same
  exact same.cands

/-- A reported address always gets in or finds sixteen others that may not be dropped. One that
tunnel data comes from does exactly when it is listed, there is room, or no entry may be
dropped. -/
theorem admitted_iff (mac : MacFn) (valid : ep.valid = true) {body : Bytes} {wg : WgReply}
    (data : wg.tunnel.isSome = true) (direct : ep ≠ m.cfg.server) (unforced : m.forceRelay = false) :
    ((∀ lan, Listed (m.addCand ep lan now) ep ∨ Taken m ep) ∧
      ((∃ c ∈ (m.step mac (.datagram ep (0x00 :: body) now wg)).cands, c.ep = ep ∧ c.lastRx = now) ∨
        Taken m ep)) ↔
      Listed m ep ∨ m.cands.length < kMaxCands ∨ AllProven m := by
  rw [step_directData mac data direct unforced, touchCand_iff,
    and_iff_right fun lan => listed_addCand valid lan]
  constructor
  · rintro ((listed | room) | taken)
    · exact .inl listed
    · exact .inr (.inl room)
    · exact .inr (.inr taken.2.2)
  · rintro (listed | room | proven)
    · exact .inl (.inl listed)
    · exact .inl (.inr room)
    · by_cases listed : Listed m ep
      · exact .inl (.inl listed)
      · by_cases full : kMaxCands ≤ m.cands.length
        · exact .inr ⟨full, listed, proven⟩
        · exact .inl (.inr (Nat.not_le.mp full))

/-- A CALLME with sixteen addresses nobody listens at. -/
def junkCallme : Event :=
  let junk := (List.range 16).map fun i => ({ port := UInt16.ofNat (i + 1) } : Endpoint)
  .datagram {} (encodeRelayDown (0x01 :: 0x01 :: (Endpoint.build { port := 1 } ++
    16 :: junk.flatMap Endpoint.build))) 1000 {}

def junkRun : List Event := [.setActive true, junkCallme]

/-- The table full of them, but for the peer's address, which was reported later. -/
def crowded : PathManager :=
  (run zeroMac (start plainConfig []) junkRun).addCand peerAt false 1500

theorem admitted_among_junk : crowded.cands.length = kMaxCands ∧
    ((∀ lan, Listed (crowded.addCand peerAt lan 2000) peerAt ∨ Taken crowded peerAt) ∧
      ((∃ c ∈ (crowded.step zeroMac
          (.datagram peerAt (0x00 :: []) 2000 { tunnel := some [1] })).cands,
          c.ep = peerAt ∧ c.lastRx = 2000) ∨ Taken crowded peerAt)) := by
  have listed : ∃ c ∈ crowded.cands, c.ep = peerAt := by
    decide +kernel
  exact ⟨by decide +kernel, (admitted_iff zeroMac (by decide) rfl (by decide +kernel)
    (by decide +kernel)).mpr (.inl listed)⟩

/-- The relay fills the table, and the peer's new address is turned away. -/
theorem junk_locks_out :
    ¬ ∀ (mac : MacFn) (cfg : PathConfig) (locals : List Endpoint) (es : List Event) (ep : Endpoint)
      (body : Bytes) (now : Int) (wg : WgReply),
      let m := run mac (start cfg locals) es
      ep.valid = true → wg.tunnel.isSome = true → ep ≠ m.cfg.server → m.forceRelay = false →
      (∃ c ∈ (m.step mac (.datagram ep (0x00 :: body) now wg)).cands, c.ep = ep ∧ c.lastRx = now) ∨
        Taken m ep := by
  intro all
  have out := all zeroMac plainConfig [] junkRun peerAt [] 2000 { tunnel := some [1] }
  have full : ¬ (run zeroMac (start plainConfig []) junkRun).cands.length < kMaxCands := by
    decide +kernel
  have missing : ¬ ∃ c ∈ (run zeroMac (start plainConfig []) junkRun).cands, c.ep = peerAt := by
    decide +kernel
  have junk : ∃ c ∈ (run zeroMac (start plainConfig []) junkRun).cands, c.lastRx = 0 := by
    decide +kernel
  have unchosen : (run zeroMac (start plainConfig []) junkRun).chosen = none := by decide +kernel
  have direct : peerAt ≠ (run zeroMac (start plainConfig []) junkRun).cfg.server := by
    decide +kernel
  have unforced : (run zeroMac (start plainConfig []) junkRun).forceRelay = false := by
    decide +kernel
  generalize run zeroMac (start plainConfig []) junkRun = m at *
  have out := out (by decide) rfl direct unforced
  rw [step_directData zeroMac rfl direct unforced, touchCand_iff] at out
  rcases out with (listed | room) | ⟨-, -, proven⟩
  · exact missing listed
  · exact full room
  · obtain ⟨c, hc, zero⟩ := junk
    rcases proven c hc with answered | chosen
    · exact answered zero
    · rw [unchosen] at chosen
      cases chosen

end Splice.Peer.PathManager
