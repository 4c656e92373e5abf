import Splice.Lib.Run
import Splice.Net.Endpoint
import Std.Data.ExtTreeMap

/-!
The relay's address table, and the log of packets it stands for: a packet goes to where the
last packet of its peer came from, unless that was too long ago. Entries leave the table
lazily and by eviction, and neither can be told from the log.
-/

namespace Splice.Server
open Proto Lib

/-- The side bit flipped. -/
def peerUid (u : Uid) : Uid := ⟨u.toList.modify 31 (· ^^^ 0x01), by simp⟩

/-- The other side's uid differs in the side bit only. -/
theorem peerUid_bits (u : Uid) :
    sideBit (peerUid u) = sideBit u ^^^ 1 ∧ SameButSide (peerUid u) u := by
  refine ⟨?_, sameButSide_modify u _ fun b => (xor_one b).1⟩
  have last : (u.toList.modify 31 (· ^^^ 0x01)).getD 31 0 &&& 1 =
      (u.toList.getD 31 0 &&& 1) ^^^ 1 := by
    rw [getD_modify]
    exact (xor_one _).2
  exact last

structure RelayTable where
  ttlMs : Int
  /-- the source and the time of the last packet, by uid -/
  map : Std.ExtTreeMap Bytes (Endpoint × Int)

namespace RelayTable

def onPacket (r : RelayTable) (uid : Uid) (src : Endpoint) (now : Int) :
    Option Endpoint × RelayTable :=
  let map := r.map.insert uid.toList (src, now)
  let reply := match map[(peerUid uid).toList]? with
    | none => none
    | some (ep, last) => if now - last > r.ttlMs then none else some ep
  (reply, { r with map })

def evictExpired (r : RelayTable) (now : Int) : RelayTable :=
  { r with map := r.map.filter fun _ e => ¬ now - e.2 > r.ttlMs }

end RelayTable

theorem toList_peerUid (u : Uid) : (peerUid u).toList = u.toList.modify 31 (· ^^^ 0x01) := rfl

theorem peerUid_ne (u : Uid) : peerUid u ≠ u := by
  intro h
  have bytes := congrArg (fun v : Uid => v.toList[31]?) h
  have long : 31 < u.toList.length := by simp
  simp only [toList_peerUid, List.getElem?_modify_eq, List.getElem?_eq_getElem long,
    Option.map_eq_map, Option.map_some, Option.some.injEq] at bytes
  have flipped := congrArg (u.toList[31] ^^^ ·) bytes
  simp only [← UInt8.xor_assoc, UInt8.xor_self, UInt8.zero_xor] at flipped
  cases flipped

/-! ## The log -/

structure Packet where
  uid : Uid
  src : Endpoint
  time : Int

/-- A table and every packet it was shown, the latest first. -/
structure Relayed where
  table : RelayTable
  now : Int
  log : List Packet

namespace Relayed

inductive Call
  | packet (uid : Uid) (src : Endpoint)
  | evict

def start (ttlMs now : Int) : Relayed := ⟨⟨ttlMs, ∅⟩, now, []⟩

def step (w : Relayed) : Int × Call → Option Relayed
  | (t, call) =>
      if t < w.now then none
      else match call with
        | .packet uid src => some ⟨(w.table.onPacket uid src t).2, t, ⟨uid, src, t⟩ :: w.log⟩
        | .evict => some { w with table := w.table.evictExpired t, now := t }

/-- The last packet of a uid. -/
def latest (log : List Packet) (uid : Uid) : Option Packet := log.find? (·.uid = uid)

/-- What the table has of a uid: its last packet, or nothing and that packet is stale. -/
def Shown (w : Relayed) (uid : Uid) : Prop :=
  match latest w.log uid with
  | none => w.table.map[uid.toList]? = none
  | some p => w.table.map[uid.toList]? = some (p.src, p.time) ∨
      w.table.map[uid.toList]? = none ∧ w.now - p.time > w.table.ttlMs

variable {w w' : Relayed} {t : Int} {uid : Uid} {src : Endpoint}

theorem latest_packet (log : List Packet) (p : Packet) (uid : Uid) :
    latest (p :: log) uid = if p.uid = uid then some p else latest log uid := by
  by_cases here : p.uid = uid <;> simp [latest, here]

theorem Shown.packet (shown : w.Shown uid) (later : w.now ≤ t) (from_ : Uid) :
    Shown ⟨(w.table.onPacket from_ src t).2, t, ⟨from_, src, t⟩ :: w.log⟩ uid := by
  simp only [Shown, latest_packet]
  by_cases here : from_ = uid
  · rw [if_pos here, here]
    exact .inl Std.ExtTreeMap.getElem?_insert_self
  · have other : ¬compare from_.toList uid.toList = .eq := fun eq =>
      here (List.Vector.toList_injective (Std.LawfulEqCmp.eq_of_compare eq))
    rw [if_neg here]
    simp only [RelayTable.onPacket, Std.ExtTreeMap.getElem?_insert, if_neg other]
    rw [Shown] at shown
    cases last : latest w.log uid with
    | none =>
        rw [last] at shown
        exact shown
    | some p =>
        rw [last] at shown
        exact shown.imp_right fun gone => ⟨gone.1, by omega⟩

theorem Shown.evict (shown : w.Shown uid) (later : w.now ≤ t) :
    Shown { w with table := w.table.evictExpired t, now := t } uid := by
  simp only [Shown, RelayTable.evictExpired, Std.ExtTreeMap.getElem?_filter']
  rw [Shown] at shown
  cases last : latest w.log uid with
  | none =>
      rw [last] at shown
      simp [shown]
  | some p =>
      rw [last] at shown
      rcases shown with kept | gone
      · by_cases stale : t - p.time > w.table.ttlMs
        · exact .inr ⟨by rw [kept]; simp; omega, stale⟩
        · exact .inl (by rw [kept]; simp; omega)
      · exact .inr ⟨by simp [gone.1], by omega⟩

theorem Shown.step (shown : ∀ uid, w.Shown uid) {p : Int × Call} (h : w.step p = some w') :
    ∀ uid, w'.Shown uid := by
  obtain ⟨t, call⟩ := p
  simp only [Relayed.step, Option.ite_none_left_eq_some, Int.not_lt] at h
  obtain ⟨later, h⟩ := h
  cases call with
  | packet from_ src =>
      cases h
      exact fun uid => (shown uid).packet later from_
  | evict =>
      cases h
      exact fun uid => (shown uid).evict later

theorem shown_of_reach {ttlMs now : Int}
    (reached : Reach Relayed.step anyStep (start ttlMs now) w) : ∀ uid, w.Shown uid :=
  reached.invariant (fun _ => rfl) fun _ _ _ shown _ stepped => Shown.step shown stepped

theorem ttl_of_reach {ttlMs now : Int}
    (reached : Reach Relayed.step anyStep (start ttlMs now) w) : w.table.ttlMs = ttlMs := by
  induction reached with
  | start => rfl
  | @next _ _ p _ _ stepped same =>
      obtain ⟨t, call⟩ := p
      simp only [Relayed.step, Option.ite_none_left_eq_some] at stepped
      cases call <;> cases stepped.2 <;> exact same

/-- The pairing a uid belongs to: its own packets and its peer's. -/
def inPairing (uid : Uid) (p : Packet) : Bool := p.uid = uid ∨ p.uid = peerUid uid

theorem latest_filter (log : List Packet) (uid : Uid) :
    latest (log.filter (inPairing uid)) (peerUid uid) = latest log (peerUid uid) := by
  rw [latest, List.find?_filter, latest]
  congr 1
  funext p
  by_cases peer : p.uid = peerUid uid <;> simp [inPairing, peer]

/-- The table's answer, read off the log. -/
theorem Shown.reply (shown : ∀ uid, w.Shown uid) (later : w.now ≤ t) (e : Endpoint) :
    (w.table.onPacket uid src t).1 = some e ↔
      ∃ p, latest w.log (peerUid uid) = some p ∧ t - p.time ≤ w.table.ttlMs ∧ p.src = e := by
  have other : ¬compare uid.toList (peerUid uid).toList = .eq := fun eq =>
    peerUid_ne uid (List.Vector.toList_injective (Std.LawfulEqCmp.eq_of_compare eq)).symm
  have peer := shown (peerUid uid)
  simp only [RelayTable.onPacket, Std.ExtTreeMap.getElem?_insert, if_neg other]
  rw [Shown] at peer
  cases last : latest w.log (peerUid uid) with
  | none =>
      rw [last] at peer
      simp [peer]
  | some p =>
      rw [last] at peer
      rcases peer with kept | ⟨gone, stale⟩
      · simp [kept]
      · simp only [gone, reduceCtorEq, Option.some.injEq, exists_eq_left', false_iff]
        omega

/-- A packet is answered with the source of its peer's last packet, if that is recent; so
neither evictions nor the packets of other pairings change an answer. -/
theorem on_packet_refines_log {ttlMs now : Int}
    (reached : Reach Relayed.step anyStep (start ttlMs now) w) (later : w.now ≤ t) :
    (∀ uid src e, (w.table.onPacket uid src t).1 = some e ↔
      ∃ p, latest w.log (peerUid uid) = some p ∧ t - p.time ≤ ttlMs ∧ p.src = e) ∧
    ∀ (now' : Int) (w' : Relayed) (uid : Uid) (src src' : Endpoint),
      Reach Relayed.step anyStep (start ttlMs now') w' → w'.now ≤ t →
      w.log.filter (inPairing uid) = w'.log.filter (inPairing uid) →
      (w.table.onPacket uid src t).1 = (w'.table.onPacket uid src' t).1 := by
  have reply : ∀ {now w}, Reach Relayed.step anyStep (start ttlMs now) w → w.now ≤ t →
      ∀ uid src e, (w.table.onPacket uid src t).1 = some e ↔
        ∃ p, latest w.log (peerUid uid) = some p ∧ t - p.time ≤ ttlMs ∧ p.src = e := by
    intro now w reached later uid src e
    rw [Shown.reply (shown_of_reach reached) later, ttl_of_reach reached]
  refine ⟨reply reached later, fun now' w' uid src src' reached' later' same => ?_⟩
  refine Option.ext fun e => ?_
  rw [reply reached later, reply reached' later', ← latest_filter, same, latest_filter]

/-- The peer moves and what is too old is dropped; the next packet goes to its new address. -/
theorem answer_after_move :
    let u : Uid := ByteArr.zero 32
    ∃ w, Reach Relayed.step anyStep (start 1000 0) w ∧
      (w.table.onPacket u ⟨ByteArr.zero 16, 1⟩ 1014).1 = some ⟨ByteArr.zero 16, 3⟩ := by
  obtain ⟨w, reached, seen⟩ := Reach.observed Relayed.step (start 1000 0)
    [(0, .packet (ByteArr.zero 32) ⟨ByteArr.zero 16, 1⟩),
      (10, .packet (peerUid (ByteArr.zero 32)) ⟨ByteArr.zero 16, 2⟩),
      (15, .packet (peerUid (ByteArr.zero 32)) ⟨ByteArr.zero 16, 3⟩), (1012, .evict)]
    (fun w => (w.now, (latest w.log (peerUid (ByteArr.zero 32))).map fun p => (p.time, p.src)))
    (o := (1012, some (15, ⟨ByteArr.zero 16, 3⟩))) (by decide +kernel)
  obtain ⟨now, moved⟩ := Prod.mk.inj seen
  obtain ⟨p, last, at_⟩ := Option.map_eq_some_iff.mp moved
  have time : p.time = 15 := congrArg Prod.fst at_
  have late : w.now ≤ 1014 := by
    have : w.now = 1012 := now
    omega
  have recent : (1014 : Int) - p.time ≤ 1000 := by omega
  exact ⟨w, reached, ((on_packet_refines_log reached late).1 _ _ _).mpr
    ⟨p, last, recent, congrArg Prod.snd at_⟩⟩

end Relayed
end Splice.Server
