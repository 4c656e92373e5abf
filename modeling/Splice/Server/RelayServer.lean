import Splice.Proto.Codecs
import Splice.Server.RateLimit
import Splice.Server.RelayTable

/-!
The loop of the relay: take what has arrived, limit it, forward it or answer it, and tidy up
about once a second. What it sends is read off the log of what has arrived; the table, its
evictions and the order of the maintenance leave no other trace.
-/

namespace Splice.Server
open Proto Lib

/-- Where a datagram comes from or goes to, and its bytes. -/
abbrev Datagram := Endpoint × Bytes

structure RelayConfig where
  entryTtlMs : Int := 120000
  limits : Limits := ⟨500, 1000, 100000, 200000⟩
  verbose : Bool := false

/-- What the loop logs about itself. -/
structure RelayReport where
  uids : Nat
  pkts : UInt64
  bytes : UInt64
  dropped : UInt64
  whereami : UInt64
  flows : List (Bytes × UInt64)

structure RelayServer where
  cfg : RelayConfig
  table : RelayTable
  limiter : RateLimiter
  statPkts : UInt64
  statBytes : UInt64
  statDropped : UInt64
  statWhereami : UInt64
  /-- bytes relayed by uid since the last report -/
  flow : Std.ExtTreeMap Bytes UInt64
  tStats : Int
  lastMaint : Int

namespace RelayServer

def new (cfg : RelayConfig) (now : Int) : RelayServer where
  cfg := cfg
  table := ⟨cfg.entryTtlMs, ∅⟩
  limiter := .new cfg.limits
  statPkts := 0
  statBytes := 0
  statDropped := 0
  statWhereami := 0
  flow := ∅
  tStats := 0
  lastMaint := now

/-- An empty payload only registers its sender. -/
def countRelayed (s : RelayServer) (uid : Uid) (payload : Bytes) : RelayServer :=
  if payload.isEmpty then s
  else
    { s with
      statPkts := s.statPkts + 1
      statBytes := s.statBytes + payload.length.toUInt64
      flow := if s.cfg.verbose then
          s.flow.insert uid.toList (s.flow[uid.toList]?.getD 0 + payload.length.toUInt64)
        else s.flow }

def countDropped (s : RelayServer) (payload : Bytes) : RelayServer :=
  if payload.isEmpty then s else { s with statDropped := s.statDropped + 1 }

def receiveRelay (s : RelayServer) (now : Int) (src : Endpoint) (pkt : Bytes) :
    Option Datagram × RelayServer :=
  match decodeRelayUp pkt with
  | none => (none, s)
  | some (uid, payload) =>
      let (dst, table) := s.table.onPacket uid src now
      let s := { s with table }
      match dst with
      | some dst => (some (dst, encodeRelayDown payload), s.countRelayed uid payload)
      | none => (none, s.countDropped payload)

def receiveWhereami (s : RelayServer) (src : Endpoint) (pkt : Bytes) :
    Option Datagram × RelayServer :=
  let s := { s with statWhereami := s.statWhereami + 1 }
  match decodeWhereamiReq pkt with
  | none => (none, s)
  | some token => (some (src, encodeWhereamiReply ⟨token, src.ip, src.port⟩), s)

/-- One datagram; what exceeds the buffer is cut off. -/
def receive (s : RelayServer) (now : Int) (d : Datagram) : Option Datagram × RelayServer :=
  let (src, data) := d
  let (allowed, limiter) := s.limiter.allow src.ip now
  let s := { s with limiter }
  if !allowed then (none, s)
  else
    let pkt := data.take 2048
    match peekUdpType pkt with
    | none => (none, s)
    | some .relay => s.receiveRelay now src pkt
    | some .whereami => s.receiveWhereami src pkt

def maintain (s : RelayServer) (now : Int) : RelayServer :=
  if now - s.lastMaint > 1000 then
    { s with
      table := s.table.evictExpired now
      limiter := s.limiter.evictIdle now 300000
      lastMaint := now }
  else s

def report (s : RelayServer) (now : Int) : Option RelayReport × RelayServer :=
  if s.cfg.verbose && now - s.tStats ≥ 2000 then
    (some ⟨s.table.map.size, s.statPkts, s.statBytes, s.statDropped, s.statWhereami,
      s.flow.toList⟩, { s with tStats := now, flow := ∅ })
  else (none, s)

end RelayServer

/-! ## The log -/

/-- A datagram the relay has read, and whether the limiter let it through. -/
structure Arrival where
  time : Int
  src : Endpoint
  pkt : Bytes
  allowed : Bool

/-- What becomes of a datagram. -/
inductive Verdict
  | ignored
  | relayed (dst : Endpoint) (payload : Bytes)
  | dropped (payload : Bytes)
  | unclear
  | told (dst : Endpoint) (token : UInt32)

def Verdict.sent : Verdict → Option Datagram
  | .relayed dst payload => some (dst, encodeRelayDown payload)
  | .told dst token => some (dst, encodeWhereamiReply ⟨token, dst.ip, dst.port⟩)
  | _ => none

namespace Arrival

/-- What an arrival shows the table. -/
def packet (a : Arrival) : Option Packet :=
  if a.allowed then (decodeRelayUp a.pkt).map fun m => ⟨m.1, a.src, a.time⟩ else none

def packets (log : List Arrival) : List Packet := log.filterMap packet

/-- Where the other side of a uid was last heard from, if that is recent. -/
def recent (ttlMs : Int) (log : List Arrival) (uid : Uid) (now : Int) : Option Packet :=
  (Relayed.latest (packets log) (peerUid uid)).filter fun p => now - p.time ≤ ttlMs

/-- The verdict on an arrival after those of `log`, the latest of them first. -/
def verdict (ttlMs : Int) (log : List Arrival) (a : Arrival) : Verdict :=
  if !a.allowed then .ignored
  else match peekUdpType a.pkt with
    | none => .ignored
    | some .relay =>
        match decodeRelayUp a.pkt with
        | none => .ignored
        | some (uid, payload) =>
            match recent ttlMs log uid a.time with
            | some p => .relayed p.src payload
            | none => .dropped payload
    | some .whereami =>
        match decodeWhereamiReq a.pkt with
        | none => .unclear
        | some token => .told a.src token

def verdicts (ttlMs : Int) : List Arrival → List (Arrival × Verdict)
  | [] => []
  | a :: log => (a, verdict ttlMs log a) :: verdicts ttlMs log

end Arrival

/-! ## Runs -/

/-- The relay, with every datagram it has read and sent, the latest first. -/
structure Served where
  server : RelayServer
  now : Int
  log : List Arrival
  sent : List (Int × Datagram)

namespace Served

def start (cfg : RelayConfig) (now : Int) : Served := ⟨.new cfg now, now, [], []⟩

/-- The arrival a datagram becomes. -/
def arrival (w : Served) (d : Datagram) : Arrival :=
  ⟨w.now, d.1, d.2.take 2048, (w.server.limiter.allow d.1.ip w.now).1⟩

def arrive (w : Served) (d : Datagram) : Served where
  server := (w.server.receive w.now d).2
  now := w.now
  log := w.arrival d :: w.log
  sent := ((w.server.receive w.now d).1.map (w.now, ·)).toList ++ w.sent

def tidy (w : Served) : Served :=
  { w with server := ((w.server.maintain w.now).report w.now).2 }

/-- One turn of the loop: `poll` comes back at a time, the socket is drained, and the
maintenance follows. -/
def step (w : Served) : Int × List Datagram → Option Served
  | (t, arrived) =>
      if t < w.now then none else some (arrived.foldl arrive { w with now := t }).tidy

/-- The numbers the relay keeps, from the verdicts. -/
def relayedOf : Verdict → Option Bytes
  | .relayed _ payload => if payload.isEmpty then none else some payload
  | _ => none

def isDropped : Verdict → Bool
  | .dropped payload => !payload.isEmpty
  | _ => false

def isWhereami : Verdict → Bool
  | .unclear | .told _ _ => true
  | _ => false

structure Counted (s : RelayServer) (vs : List Verdict) : Prop where
  pkts : s.statPkts = (vs.filterMap relayedOf).length.toUInt64
  bytes : s.statBytes = ((vs.filterMap relayedOf).map List.length).sum.toUInt64
  dropped : s.statDropped = (vs.countP isDropped).toUInt64
  whereami : s.statWhereami = (vs.countP isWhereami).toUInt64

/-- What the table, the sends and the counters owe to the log. -/
structure Logged (cfg : RelayConfig) (w : Served) : Prop where
  ttl : w.server.table.ttlMs = cfg.entryTtlMs
  shown : ∀ uid, Relayed.Shown ⟨w.server.table, w.now, Arrival.packets w.log⟩ uid
  sent : w.sent = (Arrival.verdicts cfg.entryTtlMs w.log).filterMap fun v =>
    v.2.sent.map (v.1.time, ·)
  counted : Counted w.server ((Arrival.verdicts cfg.entryTtlMs w.log).map Prod.snd)

variable {cfg : RelayConfig} {w w' : Served}

theorem logged_start (now : Int) : Logged cfg (start cfg now) :=
  ⟨rfl, fun _ => rfl, rfl, ⟨rfl, rfl, rfl, rfl⟩⟩

theorem Logged.later (h : Logged cfg w) {t : Int} (later : w.now ≤ t) :
    Logged cfg { w with now := t } := by
  refine { h with shown := fun uid => ?_ }
  have shown := h.shown uid
  simp only [Relayed.Shown] at shown ⊢
  cases last : Relayed.latest (Arrival.packets w.log) uid with
  | none =>
      rw [last] at shown
      exact shown
  | some p =>
      rw [last] at shown
      exact shown.imp_right fun gone => ⟨gone.1, by omega⟩

/-- The table's answer is the one the log gives. -/
theorem Logged.recent (h : Logged cfg w) (uid : Uid) (src : Endpoint) :
    (w.server.table.onPacket uid src w.now).1 =
      (Arrival.recent cfg.entryTtlMs w.log uid w.now).map Packet.src := by
  refine Option.ext fun e => ?_
  have reply : (w.server.table.onPacket uid src w.now).1 = some e ↔ _ :=
    Relayed.Shown.reply h.shown le_rfl e
  simp only at reply
  rw [reply, h.ttl, Arrival.recent]
  cases Relayed.latest (Arrival.packets w.log) (peerUid uid) with
  | none => simp
  | some p =>
      by_cases fresh : w.now - p.time ≤ cfg.entryTtlMs
      · simp only [Option.filter, fresh, decide_true, if_true, Option.map_some, Option.some.injEq,
          exists_eq_left', true_and]
      · simp [Option.filter, fresh]
        omega

theorem peek_of_decodeRelayUp {pkt : Bytes} {m : Uid × Bytes} (h : decodeRelayUp pkt = some m) :
    peekUdpType pkt = some .relay := by
  rw [← relayUp_exact.2 pkt m h]
  rfl

@[simp] theorem countRelayed_table (s : RelayServer) (uid : Uid) (payload : Bytes) :
    (s.countRelayed uid payload).table = s.table := by
  rw [RelayServer.countRelayed]
  split <;> rfl

@[simp] theorem countDropped_table (s : RelayServer) (payload : Bytes) :
    (s.countDropped payload).table = s.table := by
  rw [RelayServer.countDropped]
  split <;> rfl

theorem counted_relayed {s : RelayServer} {vs : List Verdict} (h : Counted s vs) (uid : Uid)
    (dst : Endpoint) (payload : Bytes) :
    Counted (s.countRelayed uid payload) (.relayed dst payload :: vs) := by
  have one : ∀ n : Nat, (n + 1).toUInt64 = n.toUInt64 + 1 := fun n => UInt64.ofNat_add ..
  have add : ∀ n m : Nat, (n + m).toUInt64 = m.toUInt64 + n.toUInt64 := fun n m =>
    (UInt64.ofNat_add ..).trans (UInt64.add_comm ..)
  rw [RelayServer.countRelayed]
  split
  · rename_i empty
    constructor <;> simp [relayedOf, empty, isDropped, isWhereami, h.pkts, h.bytes, h.dropped,
      h.whereami]
  · rename_i full
    constructor <;> simp [relayedOf, full, isDropped, isWhereami, h.pkts, h.bytes, h.dropped,
      h.whereami, one, add]

theorem counted_dropped {s : RelayServer} {vs : List Verdict} (h : Counted s vs)
    (payload : Bytes) : Counted (s.countDropped payload) (.dropped payload :: vs) := by
  rw [RelayServer.countDropped]
  split
  · rename_i empty
    refine ⟨h.pkts, h.bytes, ?_, h.whereami⟩
    rw [List.countP_cons_of_neg (by simp [isDropped, empty]), h.dropped]
  · rename_i full
    refine ⟨h.pkts, h.bytes, ?_, h.whereami⟩
    rw [List.countP_cons_of_pos (by simpa [isDropped] using full)]
    exact (congrArg (· + 1) h.dropped).trans (UInt64.ofNat_add ..).symm

theorem counted_ignored {s : RelayServer} {vs : List Verdict} (h : Counted s vs) :
    Counted s (.ignored :: vs) :=
  ⟨h.pkts, h.bytes, h.dropped, h.whereami⟩

theorem counted_whereami {s : RelayServer} {vs : List Verdict} (h : Counted s vs) {v : Verdict}
    (asks : isWhereami v = true) (other : relayedOf v = none) (kept : isDropped v = false) :
    Counted { s with statWhereami := s.statWhereami + 1 } (v :: vs) := by
  constructor
  · rw [List.filterMap_cons_none other, h.pkts]
  · rw [List.filterMap_cons_none other, h.bytes]
  · rw [List.countP_cons_of_neg (by simp [kept]), h.dropped]
  · rw [List.countP_cons_of_pos asks]
    exact (congrArg (· + 1) h.whereami).trans (UInt64.ofNat_add ..).symm

/-- What receiving a datagram does, by the verdict the log gives on it. -/
structure FollowsVerdict (cfg : RelayConfig) (w : Served) (a : Arrival)
    (r : Option Datagram × RelayServer) : Prop where
  sent : r.1 = (a.verdict cfg.entryTtlMs w.log).sent
  table : r.2.table = match a.packet with
    | none => w.server.table
    | some p => (w.server.table.onPacket p.uid p.src p.time).2
  counted : Counted r.2 (a.verdict cfg.entryTtlMs w.log ::
    (Arrival.verdicts cfg.entryTtlMs w.log).map Prod.snd)

theorem Logged.limit (h : Logged cfg w) (limiter : RateLimiter) :
    Logged cfg { w with server := { w.server with limiter } } :=
  ⟨h.ttl, h.shown, h.sent, h.counted.pkts, h.counted.bytes, h.counted.dropped,
    h.counted.whereami⟩

theorem Logged.receiveRelay (h : Logged cfg w) (src : Endpoint) {pkt : Bytes}
    (peek : peekUdpType pkt = some .relay) :
    FollowsVerdict cfg w ⟨w.now, src, pkt, true⟩ (w.server.receiveRelay w.now src pkt) := by
  rw [RelayServer.receiveRelay]
  cases read : decodeRelayUp pkt with
  | none =>
      constructor <;> simp [Arrival.verdict, peek, Arrival.packet, read, Verdict.sent]
      exact counted_ignored h.counted
  | some m =>
      obtain ⟨uid, payload⟩ := m
      have answer := h.recent uid src
      have counted : Counted { w.server with table := (w.server.table.onPacket uid src w.now).2 }
          ((Arrival.verdicts cfg.entryTtlMs w.log).map Prod.snd) :=
        ⟨h.counted.pkts, h.counted.bytes, h.counted.dropped, h.counted.whereami⟩
      cases found : Arrival.recent cfg.entryTtlMs w.log uid w.now with
      | none =>
          rw [found, Option.map_none] at answer
          have verdict : Arrival.verdict cfg.entryTtlMs w.log ⟨w.now, src, pkt, true⟩ =
              .dropped payload := by
            simp [Arrival.verdict, peek, read, found]
          refine ⟨?_, ?_, ?_⟩
          · simp only [answer, verdict, Verdict.sent]
          · simp [answer, Arrival.packet, read]
          · simp only [answer, verdict]
            exact counted_dropped counted payload
      | some p =>
          rw [found, Option.map_some] at answer
          have verdict : Arrival.verdict cfg.entryTtlMs w.log ⟨w.now, src, pkt, true⟩ =
              .relayed p.src payload := by
            simp [Arrival.verdict, peek, read, found]
          refine ⟨?_, ?_, ?_⟩
          · simp only [answer, verdict, Verdict.sent]
          · simp [answer, Arrival.packet, read]
          · simp only [answer, verdict]
            exact counted_relayed counted uid p.src payload

theorem decodeRelayUp_of_peek {pkt : Bytes} {type : Option UdpType} (peek : peekUdpType pkt = type)
    (other : type ≠ some .relay) : decodeRelayUp pkt = none := by
  cases read : decodeRelayUp pkt with
  | none => rfl
  | some m => exact absurd (peek.symm.trans (peek_of_decodeRelayUp read)) other

theorem Logged.receiveWhereami (h : Logged cfg w) (src : Endpoint) {pkt : Bytes}
    (peek : peekUdpType pkt = some .whereami) :
    FollowsVerdict cfg w ⟨w.now, src, pkt, true⟩ (w.server.receiveWhereami src pkt) := by
  have unread := decodeRelayUp_of_peek peek (by simp)
  rw [RelayServer.receiveWhereami]
  cases read : decodeWhereamiReq pkt with
  | none =>
      constructor <;> simp [Arrival.verdict, peek, Arrival.packet, read, unread, Verdict.sent]
      exact counted_whereami h.counted rfl rfl rfl
  | some token =>
      constructor <;> simp [Arrival.verdict, peek, Arrival.packet, read, unread, Verdict.sent]
      exact counted_whereami h.counted rfl rfl rfl

theorem Logged.receive (h : Logged cfg w) (d : Datagram) :
    FollowsVerdict cfg w (w.arrival d) (w.server.receive w.now d) := by
  have limited := h.limit (w.server.limiter.allow d.1.ip w.now).2
  simp only [RelayServer.receive, arrival]
  cases allowed : (w.server.limiter.allow d.1.ip w.now).1 with
  | false => exact ⟨rfl, rfl, counted_ignored limited.counted⟩
  | true =>
      simp only [Bool.not_true, Bool.false_eq_true, if_false]
      cases peek : peekUdpType (d.2.take 2048) with
      | none =>
          have unread := decodeRelayUp_of_peek peek (by simp)
          constructor <;> simp [Arrival.verdict, peek, Arrival.packet, unread, Verdict.sent]
          exact counted_ignored limited.counted
      | some type =>
          cases type with
          | relay =>
              have took := limited.receiveRelay d.1 peek
              exact ⟨took.sent, took.table, took.counted⟩
          | whereami =>
              have took := limited.receiveWhereami d.1 peek
              exact ⟨took.sent, took.table, took.counted⟩

theorem Logged.arrive (h : Logged cfg w) (d : Datagram) : Logged cfg (w.arrive d) := by
  have took := h.receive d
  refine ⟨?_, fun uid => ?_, ?_, took.counted⟩
  · rw [Served.arrive, took.table]
    cases (w.arrival d).packet <;> exact h.ttl
  · simp only [Served.arrive, took.table, Arrival.packets]
    cases shows : (w.arrival d).packet with
    | none =>
        rw [List.filterMap_cons_none shows]
        exact h.shown uid
    | some p =>
        have time : p.time = w.now := by
          obtain ⟨-, packed⟩ := Option.ite_none_right_eq_some.mp shows
          obtain ⟨m, -, rfl⟩ := Option.map_eq_some_iff.mp packed
          rfl
        rw [List.filterMap_cons_some shows]
        simp only [time]
        have shown : Relayed.Shown ⟨_, _, ⟨_, p.src, _⟩ :: _⟩ uid :=
          (h.shown uid).packet le_rfl p.uid
        rw [← time] at shown ⊢
        exact shown
  · simp only [Served.arrive, Arrival.verdicts, took.sent, List.filterMap_cons, ← h.sent]
    cases ((w.arrival d).verdict cfg.entryTtlMs w.log).sent <;> rfl

theorem Logged.tidy (h : Logged cfg w) : Logged cfg w.tidy := by
  have maintained : Logged cfg { w with server := w.server.maintain w.now } := by
    rw [RelayServer.maintain]
    split
    · exact ⟨h.ttl, fun uid => (h.shown uid).evict le_rfl, h.sent, h.counted.pkts,
        h.counted.bytes, h.counted.dropped, h.counted.whereami⟩
    · exact h
  rw [Served.tidy, RelayServer.report]
  split
  · exact ⟨maintained.ttl, maintained.shown, maintained.sent, maintained.counted.pkts,
      maintained.counted.bytes, maintained.counted.dropped, maintained.counted.whereami⟩
  · exact maintained

theorem Logged.step (h : Logged cfg w) {turn : Int × List Datagram}
    (stepped : w.step turn = some w') : Logged cfg w' := by
  simp only [Served.step, Option.ite_none_left_eq_some, Int.not_lt, Option.some.injEq] at stepped
  obtain ⟨later, rfl⟩ := stepped
  exact (foldl_invariant (fun _ d kept _ => kept.arrive d) (h.later later)).tidy

theorem logged_of_reach {now : Int} (reached : Reach step anyStep (start cfg now) w) :
    Logged cfg w :=
  reached.invariant (logged_start now) fun _ _ _ h _ stepped => h.step stepped

/-- Whatever arrives and however the loop turns: what the relay has sent and counted is what
the log of arrivals says. A payload goes, unchanged, to where the other side of its uid was
last heard from within the time to live, and nothing else is forwarded; evictions, maintenance
and reports cannot be told from the outside. -/
theorem relay_refines_log {now : Int} (reached : Reach step anyStep (start cfg now) w) :
    w.sent = ((Arrival.verdicts cfg.entryTtlMs w.log).filterMap fun v =>
      v.2.sent.map (v.1.time, ·)) ∧
    Counted w.server ((Arrival.verdicts cfg.entryTtlMs w.log).map Prod.snd) :=
  ⟨(logged_of_reach reached).sent, (logged_of_reach reached).counted⟩

/-- Both sides register, one sends, and a third asks for its address. -/
def exchange : List (Int × List Datagram) :=
  let uid : Uid := ByteArr.zero 32
  let at_ (port : UInt16) : Endpoint := ⟨ByteArr.zero 16, port⟩
  [(5, [(at_ 1, encodeRelayUp uid [])]),
    (1500, [(at_ 2, encodeRelayUp (peerUid uid) []), (at_ 1, encodeRelayUp uid [7, 8])]),
    (2600, [(at_ 3, encodeWhereamiReq 9)])]

theorem relay_refines_log_exchange : ∃ w, Reach step anyStep (start {} 0) w ∧
    (w.log.length = 4 ∧ w.sent.map (fun s => (s.1, s.2.1.port)) = [(2600, 3), (1500, 2), (1500, 1)] ∧
      w.server.statBytes = 2) ∧
    w.sent = (Arrival.verdicts 120000 w.log).filterMap fun v => v.2.sent.map (v.1.time, ·) := by
  obtain ⟨w, reached, seen⟩ := Reach.observed step (start {} 0) exchange
    (fun w => (w.log.length, w.sent.map (fun s => (s.1, s.2.1.port)), w.server.statBytes))
    (o := (4, [(2600, 3), (1500, 2), (1500, 1)], 2)) (by decide +kernel)
  obtain ⟨logged, seen⟩ := Prod.mk.inj seen
  obtain ⟨sent, bytes⟩ := Prod.mk.inj seen
  exact ⟨w, reached, ⟨logged, sent, bytes⟩, (relay_refines_log reached).1⟩

end Served

/-! ## What leaves the relay -/

namespace RateLimiter

def after : RateLimiter → List (Int × Call) → RateLimiter
  | l, [] => l
  | l, (now, .allow ip) :: rest => after (l.allow ip now).2 rest
  | l, (now, .evict) :: rest => after (l.evictIdle now idleMs) rest

theorem after_append (l : RateLimiter) (calls more : List (Int × Call)) :
    l.after (calls ++ more) = (l.after calls).after more := by
  induction calls generalizing l with
  | nil => rfl
  | cons a calls ih =>
      obtain ⟨now, call⟩ := a
      cases call with
      | allow ip => exact ih _
      | evict => exact ih _

theorem decisions_append (l : RateLimiter) (calls more : List (Int × Call)) :
    l.decisions (calls ++ more) = l.decisions calls ++ (l.after calls).decisions more := by
  induction calls generalizing l with
  | nil => rfl
  | cons a calls ih =>
      obtain ⟨now, call⟩ := a
      cases call with
      | allow ip => exact congrArg (_ :: ·) (ih _)
      | evict => exact ih _

end RateLimiter

namespace Served
variable {cfg : RelayConfig} {w w' : Served}

/-- The limiter has been called for every arrival, in the order of their times. -/
structure Charged (cfg : RelayConfig) (w : Served) (calls : List (Int × RateLimiter.Call)) :
    Prop where
  sorted : calls.Pairwise fun a a' => a.1 ≤ a'.1
  past : ∀ a ∈ calls, a.1 ≤ w.now
  limiter : w.server.limiter = (RateLimiter.new cfg.limits).after calls
  decided : (RateLimiter.new cfg.limits).decisions calls =
    w.log.reverse.map fun a => ((a.time, a.src.ip), a.allowed)

theorem pairwise_concat {calls : List (Int × RateLimiter.Call)} {t : Int}
    (sorted : calls.Pairwise fun a a' => a.1 ≤ a'.1) (past : ∀ a ∈ calls, a.1 ≤ t)
    (call : RateLimiter.Call) :
    (calls ++ [(t, call)]).Pairwise (fun a a' => a.1 ≤ a'.1) ∧
      ∀ a ∈ calls ++ [(t, call)], a.1 ≤ t := by
  refine ⟨List.pairwise_append.mpr ⟨sorted, List.pairwise_singleton .., ?_⟩, ?_⟩
  · intro a ha a' ha'
    rw [List.mem_singleton.mp ha']
    exact past a ha
  · intro a ha
    cases List.mem_append.mp ha with
    | inl before => exact past a before
    | inr last => rw [List.mem_singleton.mp last]

theorem receive_limiter (s : RelayServer) (now : Int) (d : Datagram) :
    (s.receive now d).2.limiter = (s.limiter.allow d.1.ip now).2 := by
  have counted : ∀ (s : RelayServer) uid payload,
      (s.countRelayed uid payload).limiter = s.limiter := fun s uid payload => by
    rw [RelayServer.countRelayed]
    split <;> rfl
  have lost : ∀ (s : RelayServer) payload, (s.countDropped payload).limiter = s.limiter :=
    fun s payload => by
      rw [RelayServer.countDropped]
      split <;> rfl
  simp only [RelayServer.receive, RelayServer.receiveRelay, RelayServer.receiveWhereami]
  split
  · rfl
  · split
    · rfl
    · split
      · rfl
      · split
        · exact counted ..
        · exact lost ..
    · split <;> rfl

theorem Charged.arrive {calls : List (Int × RateLimiter.Call)} (h : Charged cfg w calls)
    (d : Datagram) : Charged cfg (w.arrive d) (calls ++ [(w.now, .allow d.1.ip)]) := by
  obtain ⟨sorted, past⟩ := pairwise_concat h.sorted h.past (.allow d.1.ip)
  refine ⟨sorted, past, ?_, ?_⟩
  · rw [RateLimiter.after_append, ← h.limiter]
    exact receive_limiter ..
  · rw [RateLimiter.decisions_append, h.decided, ← h.limiter]
    simp [Served.arrive, RateLimiter.decisions, arrival]

theorem Charged.tidy {calls : List (Int × RateLimiter.Call)} (h : Charged cfg w calls) :
    ∃ calls, Charged cfg w.tidy calls := by
  have same : w.tidy.server.limiter = (w.server.maintain w.now).limiter := by
    simp only [Served.tidy, RelayServer.report]
    split <;> rfl
  rw [RelayServer.maintain] at same
  by_cases due : w.now - w.server.lastMaint > 1000
  · rw [if_pos due] at same
    obtain ⟨sorted, past⟩ := pairwise_concat h.sorted h.past .evict
    refine ⟨_, sorted, past, ?_, ?_⟩
    · rw [RateLimiter.after_append, ← h.limiter, same]
      rfl
    · rw [RateLimiter.decisions_append, h.decided]
      exact List.append_nil _
  · rw [if_neg due] at same
    exact ⟨calls, h.sorted, h.past, same.trans h.limiter, h.decided⟩

theorem charged_of_reach {now : Int} (reached : Reach step anyStep (start cfg now) w) :
    ∃ calls, Charged cfg w calls := by
  induction reached with
  | start => exact ⟨[], .nil, nofun, rfl, rfl⟩
  | @next s _ turn _ _ stepped ih =>
      obtain ⟨calls, h⟩ := ih
      obtain ⟨t, arrived⟩ := turn
      simp only [step, Option.ite_none_left_eq_some, Int.not_lt, Option.some.injEq] at stepped
      obtain ⟨later, rfl⟩ := stepped
      have begun : ∃ calls, Charged cfg { s with now := t } calls :=
        ⟨calls, h.sorted, fun a ha => (h.past a ha).trans later, h.limiter, h.decided⟩
      obtain ⟨calls, h⟩ := foldl_invariant (I := fun w => ∃ calls, Charged cfg w calls)
        (fun _ d ⟨_, kept⟩ _ => ⟨_, kept.arrive d⟩) begun (l := arrived)
      exact h.tidy

theorem decodeRelayUp_length {pkt : Bytes} {m : Uid × Bytes} (h : decodeRelayUp pkt = some m) :
    m.2.length + 33 = pkt.length := by
  rw [← relayUp_exact.2 pkt m h, encodeRelayUp]
  simp
  omega

/-- A datagram that is sent answers one that was let through, and goes back to its source or
to where its peer was heard from within the time to live. -/
theorem sent_cases {log : List Arrival} {a : Arrival} {ttlMs : Int} {d : Datagram}
    (h : (a.verdict ttlMs log).sent = some d) : a.allowed = true ∧
      (d.2.length ≤ a.pkt.length - 32 ∧
          (∃ b ∈ log, b.allowed = true ∧ b.src = d.1 ∧ a.time - b.time ≤ ttlMs) ∨
        d.2.length = 23 ∧ a.src = d.1) := by
  rw [Arrival.verdict] at h
  cases allowed : a.allowed with
  | false => simp [allowed, Verdict.sent] at h
  | true =>
      refine ⟨rfl, ?_⟩
      simp only [allowed, Bool.not_true, Bool.false_eq_true, if_false] at h
      cases peek : peekUdpType a.pkt with
      | none => simp [peek, Verdict.sent] at h
      | some type =>
          cases type with
          | relay =>
              simp only [peek] at h
              cases read : decodeRelayUp a.pkt with
              | none => simp [read, Verdict.sent] at h
              | some m =>
                  have long := decodeRelayUp_length read
                  cases found : Arrival.recent ttlMs log m.1 a.time with
                  | none => simp [read, found, Verdict.sent] at h
                  | some p =>
                      simp only [read, found, Verdict.sent, Option.some.injEq] at h
                      subst h
                      obtain ⟨last, fresh⟩ := Option.filter_eq_some_iff.mp found
                      have logged := List.mem_of_find?_eq_some last
                      obtain ⟨b, hb, shows⟩ := List.mem_filterMap.mp logged
                      obtain ⟨through, packed⟩ := Option.ite_none_right_eq_some.mp shows
                      obtain ⟨_, -, rfl⟩ := Option.map_eq_some_iff.mp packed
                      refine .inl ⟨?_, b, hb, through, rfl, of_decide_eq_true fresh⟩
                      simp only [encodeRelayDown, List.length_cons]
                      omega
          | whereami =>
              simp only [peek] at h
              cases read : decodeWhereamiReq a.pkt with
              | none => simp [read, Verdict.sent] at h
              | some token =>
                  simp only [read, Verdict.sent, Option.some.injEq] at h
                  subst h
                  exact .inr ⟨by simp [encodeWhereamiReply], rfl⟩

theorem mem_verdicts {ttlMs : Int} {log : List Arrival} {v : Arrival × Verdict}
    (h : v ∈ Arrival.verdicts ttlMs log) :
    ∃ older, v.1 :: older <:+ log ∧ v.2 = v.1.verdict ttlMs older := by
  induction log with
  | nil => cases h
  | cons a log ih =>
      cases List.mem_cons.mp h with
      | inl here =>
          subst here
          exact ⟨log, List.suffix_refl _, rfl⟩
      | inr before =>
          obtain ⟨older, suffix, same⟩ := ih before
          exact ⟨older, suffix.trans (List.suffix_cons a log), same⟩

theorem verdicts_fst (ttlMs : Int) (log : List Arrival) :
    (Arrival.verdicts ttlMs log).map Prod.fst = log := by
  induction log with
  | nil => rfl
  | cons a log ih => exact congrArg (a :: ·) ih

/-- The datagrams let through between two times, of some addresses. -/
def admitted (log : List Arrival) (from? : Ip6 → Bool) (lo hi : Int) : Nat :=
  log.countP fun a => a.allowed && from? a.src.ip && decide (lo ≤ a.time ∧ a.time ≤ hi)

theorem Charged.admitted_eq {calls : List (Int × RateLimiter.Call)} (h : Charged cfg w calls)
    (sound : cfg.limits.Sound) (from? : Ip6 → Bool) (lo hi : Int) :
    admitted w.log from? lo hi = Budget.allowedIn RateLimiter.ask Prod.fst
      (fun a => from? a.2) (RateLimiter.new cfg.limits) (RateLimiter.asked calls) lo hi := by
  rw [Budget.allowedIn, ← RateLimiter.decisions_eq sound h.sorted, h.decided, List.countP_map,
    List.countP_reverse]
  rfl

theorem admitted_le {now : Int} (sound : cfg.limits.Sound)
    (reached : Reach step anyStep (start cfg now) w) (lo : Int) (width : Nat) :
    (admitted w.log (fun _ => true) lo (lo + width) : ℚ) ≤
        cfg.limits.globalBurst + cfg.limits.globalRate * width / 1000 ∧
      ∀ ip, (admitted w.log (· = ip) lo (lo + width) : ℚ) ≤
        cfg.limits.ipBurst + cfg.limits.ipRate * width / 1000 := by
  obtain ⟨calls, charged⟩ := charged_of_reach reached
  have times := RateLimiter.asked_sorted charged.sorted
  have valid := RateLimiter.valid_new sound
  have span : lo ≤ lo + width := by omega
  have scaled : ∀ rate : ℚ, rate / 1000 * ((lo + width - lo : Int) : ℚ) = rate * width / 1000 := by
    intro rate
    push_cast
    ring
  refine ⟨?_, fun ip => ?_⟩
  · have bound := (RateLimiter.global_budget sound).window_le valid times span
    rw [charged.admitted_eq sound, ← scaled]
    exact bound
  · have bound := (RateLimiter.ip_budget sound ip).window_le valid times span
    rw [charged.admitted_eq sound, ← scaled]
    exact bound

def inWindow (lo hi : Int) (s : Int × Datagram) : Bool := lo ≤ s.1 ∧ s.1 ≤ hi

/-- The bytes sent between two times. -/
def egress (sent : List (Int × Datagram)) (lo hi : Int) : Nat :=
  ((sent.filter (inWindow lo hi)).map (·.2.2.length)).sum

/-- The arrivals of an address that were answered or forwarded between two times. -/
def servedFor (ttlMs : Int) (log : List Arrival) (ip : Ip6) (lo hi : Int) : Nat :=
  (Arrival.verdicts ttlMs log).countP fun v =>
    v.2.sent.isSome && decide (v.1.src.ip = ip) && decide (lo ≤ v.1.time ∧ v.1.time ≤ hi)

theorem countP_verdicts (ttlMs : Int) (log : List Arrival) (p : Arrival → Bool) :
    (Arrival.verdicts ttlMs log).countP (fun v => p v.1) = log.countP p := by
  have same := congrArg (List.countP p) (verdicts_fst ttlMs log)
  rwa [List.countP_map] at same

theorem mem_sent {ttlMs : Int} {log : List Arrival} {s : Int × Datagram}
    (h : s ∈ (Arrival.verdicts ttlMs log).filterMap fun v => v.2.sent.map (v.1.time, ·)) :
    ∃ a older, a :: older <:+ log ∧ a.time = s.1 ∧ (a.verdict ttlMs older).sent = some s.2 := by
  obtain ⟨v, hv, sends⟩ := List.mem_filterMap.mp h
  obtain ⟨older, suffix, same⟩ := mem_verdicts hv
  obtain ⟨d, sent, rfl⟩ := Option.map_eq_some_iff.mp sends
  exact ⟨v.1, older, suffix, rfl, same ▸ sent⟩

/-- No datagram is sent that was not let in. -/
theorem sent_le_admitted (ttlMs : Int) (log : List Arrival) (lo hi : Int) :
    ((Arrival.verdicts ttlMs log).filterMap fun v => v.2.sent.map (v.1.time, ·)).countP
      (inWindow lo hi) ≤ admitted log (fun _ => true) lo hi := by
  rw [admitted, List.countP_filterMap, ← countP_verdicts ttlMs]
  refine List.countP_mono_left fun v hv counted => ?_
  obtain ⟨older, -, same⟩ := mem_verdicts hv
  cases sends : v.2.sent with
  | none => simp [sends] at counted
  | some d =>
      obtain ⟨allowed, -⟩ := sent_cases (same ▸ sends)
      simpa [sends, inWindow, allowed] using counted

theorem servedFor_le_admitted (ttlMs : Int) (log : List Arrival) (ip : Ip6) (lo hi : Int) :
    servedFor ttlMs log ip lo hi ≤ admitted log (· = ip) lo hi := by
  rw [admitted, servedFor, ← countP_verdicts ttlMs]
  refine List.countP_mono_left fun v hv counted => ?_
  obtain ⟨older, -, same⟩ := mem_verdicts hv
  cases sends : v.2.sent with
  | none => simp [sends] at counted
  | some d =>
      obtain ⟨allowed, -⟩ := sent_cases (same ▸ sends)
      simpa [sends, allowed] using counted

theorem egress_le {sent : List (Int × Datagram)} (short : ∀ s ∈ sent, s.2.2.length ≤ 2016)
    (lo hi : Int) : egress sent lo hi ≤ 2016 * sent.countP (inWindow lo hi) := by
  induction sent with
  | nil => exact Nat.le_refl 0
  | cons s sent ih =>
      obtain ⟨here, rest⟩ := List.forall_mem_cons.mp short
      have before := ih rest
      simp only [egress] at before ⊢
      by_cases inside : inWindow lo hi s = true
      · rw [List.filter_cons_of_pos inside, List.countP_cons_of_pos inside, List.map_cons,
          List.sum_cons]
        omega
      · rw [List.filter_cons_of_neg inside, List.countP_cons_of_neg inside]
        exact before

/-- Arrivals are read in the order of their times, and no more of one than fits. -/
structure Chronicle (w : Served) : Prop where
  sorted : w.log.Pairwise fun a a' => a'.time ≤ a.time
  past : ∀ a ∈ w.log, a.time ≤ w.now
  short : ∀ a ∈ w.log, a.pkt.length ≤ 2048

theorem Chronicle.arrive (h : Chronicle w) (d : Datagram) : Chronicle (w.arrive d) := by
  refine ⟨List.pairwise_cons.mpr ⟨h.past, h.sorted⟩, ?_, ?_⟩
  · exact List.forall_mem_cons.mpr ⟨le_rfl, h.past⟩
  · exact List.forall_mem_cons.mpr ⟨List.length_take_le .., h.short⟩

theorem chronicle_of_reach {now : Int} (reached : Reach step anyStep (start cfg now) w) :
    Chronicle w := by
  induction reached with
  | start => exact ⟨.nil, nofun, nofun⟩
  | @next s _ turn _ _ stepped h =>
      obtain ⟨t, arrived⟩ := turn
      simp only [step, Option.ite_none_left_eq_some, Int.not_lt, Option.some.injEq] at stepped
      obtain ⟨later, rfl⟩ := stepped
      have begun : Chronicle { s with now := t } :=
        ⟨h.sorted, fun a ha => (h.past a ha).trans later, h.short⟩
      have drained := foldl_invariant (fun _ d kept _ => kept.arrive d) begun (l := arrived)
      exact ⟨drained.sorted, drained.past, drained.short⟩

/-- Every datagram goes to an address that has itself been let in, no longer ago than the time
to live; and in every window the datagrams, their bytes, and what one address can cause stay
within a burst and what the rates add. -/
theorem relay_bounded {now : Int} (sound : cfg.limits.Sound)
    (reached : Reach step anyStep (start cfg now) w) :
    (∀ s ∈ w.sent, ∃ a ∈ w.log, a.allowed = true ∧ a.src = s.2.1 ∧ a.time ≤ s.1 ∧
      s.1 - a.time ≤ max 0 cfg.entryTtlMs) ∧
    ∀ (lo : Int) (width : Nat),
      (w.sent.countP (inWindow lo (lo + width)) : ℚ) ≤
        cfg.limits.globalBurst + cfg.limits.globalRate * width / 1000 ∧
      (egress w.sent lo (lo + width) : ℚ) ≤
        2016 * (cfg.limits.globalBurst + cfg.limits.globalRate * width / 1000) ∧
      ∀ ip, (servedFor cfg.entryTtlMs w.log ip lo (lo + width) : ℚ) ≤
        cfg.limits.ipBurst + cfg.limits.ipRate * width / 1000 := by
  have sends := (logged_of_reach reached).sent
  have chronicle := chronicle_of_reach reached
  refine ⟨fun s hs => ?_, fun lo width => ?_⟩
  · rw [sends] at hs
    obtain ⟨a, older, suffix, time, sent⟩ := mem_sent hs
    obtain ⟨allowed, back⟩ := sent_cases sent
    have logged := suffix.subset List.mem_cons_self
    cases back with
    | inl relayed =>
        obtain ⟨-, b, hb, through, src, fresh⟩ := relayed
        have before := (List.pairwise_cons.mp (chronicle.sorted.sublist suffix.sublist)).1 b hb
        exact ⟨b, suffix.subset (List.mem_cons_of_mem a hb), through, src, by omega, by omega⟩
    | inr told => exact ⟨a, logged, allowed, told.2, by omega, by omega⟩
  · obtain ⟨all, each⟩ := admitted_le sound reached lo width
    have count : w.sent.countP (inWindow lo (lo + width)) ≤
        admitted w.log (fun _ => true) lo (lo + width) := by
      rw [sends]
      exact sent_le_admitted ..
    have short : ∀ s ∈ w.sent, s.2.2.length ≤ 2016 := by
      intro s hs
      rw [sends] at hs
      obtain ⟨a, older, suffix, -, sent⟩ := mem_sent hs
      have cut := chronicle.short a (suffix.subset List.mem_cons_self)
      cases (sent_cases sent).2 with
      | inl relayed => exact relayed.1.trans (by omega)
      | inr told => omega
    have bytes : (egress w.sent lo (lo + width) : ℚ) ≤
        2016 * w.sent.countP (inWindow lo (lo + width)) := by
      exact_mod_cast egress_le short lo (lo + width)
    have counted : (w.sent.countP (inWindow lo (lo + width)) : ℚ) ≤
        admitted w.log (fun _ => true) lo (lo + width) := by
      exact_mod_cast count
    have answered : ∀ ip, (servedFor cfg.entryTtlMs w.log ip lo (lo + width) : ℚ) ≤
        admitted w.log (· = ip) lo (lo + width) := fun ip => by
      exact_mod_cast servedFor_le_admitted cfg.entryTtlMs w.log ip lo (lo + width)
    refine ⟨counted.trans all, bytes.trans ?_, fun ip => (answered ip).trans (each ip)⟩
    linarith

theorem relay_bounded_exchange : ∃ w, Reach step anyStep (start ⟨120000, suggested, true⟩ 0) w ∧
    w.sent.length = 3 ∧ (egress w.sent 1000 (1000 + 2000) : ℚ) ≤
      2016 * (suggested.globalBurst + suggested.globalRate * 2000 / 1000) := by
  obtain ⟨w, reached, seen⟩ := Reach.observed step (start ⟨120000, suggested, true⟩ 0) exchange
    (fun w => w.sent.length) (o := 3) (by decide +kernel)
  exact ⟨w, reached, seen, ((relay_bounded suggested_sound reached).2 1000 2000).2.1⟩

end Served
end Splice.Server
