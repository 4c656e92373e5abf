import Splice.Lib.Run
import Splice.Lib.Text
import Splice.Net.Endpoint
import Splice.Proto.Codecs

/-!
Pairing without a server. The leader waits on the local network; a follower finds it by asking
who holds the rendezvous number of its code, or is told where it is, and connects. Nothing about
the meeting is secret or authenticated: datagrams may come from anybody, and so may connections
to a leader and the services a follower connects to.
-/

namespace Splice.Peer
open Lib Proto

def kPairQuery : Bytes := str "SPLP"
def kPairAnswer : Bytes := str "SPLR"
def kLocalWaitSecs : Int := 300
def kLanPairPort : UInt16 := 7702

/-! ## The code and the two datagrams -/

def pairQuery (id : UInt32) (nonce : ByteArr 8) : Bytes :=
  kPairQuery ++ (bigEndian 4 id.toNat ++ nonce.toList)

/-- What the follower makes of one: the port to connect to at the sender's host. -/
def acceptAnswer (query buf : Bytes) : Option UInt16 :=
  if buf.length ≠ 18 ∨ buf.take 4 ≠ kPairAnswer ∨ (buf.drop 4).take 12 ≠ query.drop 4 then none
  else some (ofBigEndian (buf.drop 16)).toUInt16

/-! ## The connection -/

/-- What the leader answers the first frame of a connection, and whether it goes on with it. -/
def answerJoin (id : UInt32) (f : Option Bytes) : Bool × CtrlMessage :=
  match f.bind decodeCtrl with
  | some (.join code) =>
      if code.toNat = id.toNat then (true, .paired)
      else (false, .error 6 (str "unknown pairing code"))
  | _ => (false, .error 6 (str "unknown pairing code"))

/-- `kLocalWaitSecs` after its start a leader gives up, ten seconds after its own a follower
that asks. Their numbers never change. -/
structure LanPairing where
  host : Nat → Ip6
  id : Nat → UInt32
  tcpPort : Nat → UInt16
  leaderDeadline : Nat → Int
  joinId : Nat → UInt32
  nonce : Nat → ByteArr 8
  followerDeadline : Nat → Int

inductive LocalLeader
  /-- about to look at the clock -/
  | waiting
  | polling
  /-- a connection was accepted, its first frame is being read -/
  | serving (c : Nat)
  | pairing (c : Nat)
  | ended
  deriving DecidableEq

inductive LocalFollower
  /-- about to look at the clock, or to connect to where it was told -/
  | looking
  /-- its query is out -/
  | asking
  /-- connected, the answer to its JOIN is being read -/
  | joining (c : Nat)
  | pairing (c : Nat)
  | failed
  deriving DecidableEq

/-- A connection, `none` standing for somebody else at that end. -/
structure LocalConn where
  follower : Option Nat
  leader : Option Nat
  up : List Bytes := []
  down : List Bytes := []

structure Lan where
  leaders : Nat → LocalLeader := fun _ => .waiting
  /-- connections not accepted yet -/
  backlog : Nat → List Nat := fun _ => []
  followers : Nat → LocalFollower := fun _ => .looking
  conns : Nat → Option LocalConn := fun _ => none
  next : Nat := 0
  now : Int := 0

namespace Lan
variable (p : LanPairing)

/-- A connection to a leader waits to be accepted. -/
def queue (backlog : Nat → List Nat) (c : Nat) : Option Nat → Nat → List Nat
  | some l => Function.update backlog l (backlog l ++ [c])
  | none => backlog

def opened (w : Lan) (k : LocalConn) : Lan :=
  { w with
    conns := Function.update w.conns w.next (some k)
    backlog := queue w.backlog w.next k.leader
    next := w.next + 1 }

/-- Who is there to connect to: a leader as long as it listens, or somebody else. -/
def reaches (w : Lan) (host : Ip6) (port : UInt16) : Option Nat → Bool
  | some l => p.host l = host && p.tcpPort l = port && w.leaders l ≠ .ended
  | none => true

/-- The follower connects and writes its JOIN. -/
def join (w : Lan) (f : Nat) (host : Ip6) (port : UInt16) (l? : Option Nat) : Option Lan :=
  if w.reaches p host port l? then
    some { w.opened ⟨some f, l?, [encodeCtrl (.join (p.joinId f).toUInt64)], []⟩ with
      followers := Function.update w.followers f (.joining w.next) }
  else none

inductive Act
  /-- a follower has time left: it sends its query and polls -/
  | ask (f : Nat)
  /-- a datagram from that host comes to a follower that asks, and it connects -/
  | hear (f : Nat) (host : Ip6) (buf : Bytes) (l? : Option Nat)
  /-- a follower that was told where its leader is -/
  | dial (f : Nat) (host : Ip6) (port : UInt16) (l? : Option Nat)
  /-- nothing it could connect to has answered -/
  | unanswered (f : Nat)
  | giveUp (f : Nat)
  /-- nobody is where a follower was told -/
  | unreachable (f : Nat)
  /-- a leader has time left -/
  | poll (l : Nat)
  /-- it has not got a connection -/
  | idle (l : Nat)
  | accept (l : Nat)
  /-- the read of the first frame ends, with or without one, and the answer is written or not -/
  | readJoin (l : Nat) (got wrote : Bool)
  | expire (l : Nat)
  /-- the read of the answer ends -/
  | readReply (f : Nat) (got : Bool)
  /-- somebody else connects to a leader -/
  | come (l : Nat)
  /-- somebody else writes on a connection of theirs -/
  | speak (c : Nat) (frame : Bytes)

def readJoin (w : Lan) (l c : Nat) (k : LocalConn) (got wrote : Bool) : Lan :=
  let r := answerJoin (p.id l) (if got then k.up.head? else none)
  let down := if wrote then k.down ++ [encodeCtrl r.2] else k.down
  { w with
    conns := Function.update w.conns c (some { k with up := k.up.tail, down })
    leaders := Function.update w.leaders l (if r.1 && wrote then .pairing c else .waiting) }

def readReply (w : Lan) (f c : Nat) (k : LocalConn) (got : Bool) : Lan :=
  let r := (if got then k.down.head? else none).bind decodeCtrl
  { w with
    conns := Function.update w.conns c (some { k with down := k.down.tail })
    followers := Function.update w.followers f (if r = some .paired then .pairing c else .failed) }

def speak (w : Lan) (c : Nat) (k : LocalConn) (frame : Bytes) : Option Lan :=
  match k.follower, k.leader with
  | none, _ =>
      some { w with conns := Function.update w.conns c (some { k with up := k.up ++ [frame] }) }
  | some _, none =>
      some { w with conns := Function.update w.conns c (some { k with down := k.down ++ [frame] }) }
  | some _, some _ => none

def act (w : Lan) : Act → Option Lan
  | .ask f =>
      if w.followers f = .looking ∧ w.now < p.followerDeadline f then
        some { w with followers := Function.update w.followers f .asking }
      else none
  | .hear f host buf l? =>
      if w.followers f = .asking then
        (acceptAnswer (pairQuery (p.joinId f) (p.nonce f)) buf).bind fun port =>
          w.join p f host port l?
      else none
  | .dial f host port l? => if w.followers f = .looking then w.join p f host port l? else none
  | .unanswered f =>
      if w.followers f = .asking then
        some { w with followers := Function.update w.followers f .looking }
      else none
  | .giveUp f =>
      if w.followers f = .looking ∧ p.followerDeadline f ≤ w.now then
        some { w with followers := Function.update w.followers f .failed }
      else none
  | .unreachable f =>
      if w.followers f = .looking then
        some { w with followers := Function.update w.followers f .failed }
      else none
  | .poll l =>
      if w.leaders l = .waiting ∧ w.now < p.leaderDeadline l then
        some { w with leaders := Function.update w.leaders l .polling }
      else none
  | .idle l =>
      if w.leaders l = .polling then
        some { w with leaders := Function.update w.leaders l .waiting }
      else none
  | .accept l =>
      match w.backlog l with
      | [] => none
      | c :: rest =>
          if w.leaders l = .polling then
            some { w with
              leaders := Function.update w.leaders l (.serving c)
              backlog := Function.update w.backlog l rest }
          else none
  | .readJoin l got wrote =>
      match w.leaders l with
      | .serving c => (w.conns c).map fun k => w.readJoin p l c k got wrote
      | _ => none
  | .expire l =>
      if w.leaders l = .waiting ∧ p.leaderDeadline l ≤ w.now then
        some { w with leaders := Function.update w.leaders l .ended }
      else none
  | .readReply f got =>
      match w.followers f with
      | .joining c => (w.conns c).map fun k => w.readReply f c k got
      | _ => none
  | .come l => if w.leaders l = .ended then none else some (w.opened ⟨none, some l, [], []⟩)
  | .speak c frame => (w.conns c).bind fun k => w.speak c k frame

def step (w : Lan) : Int × Act → Option Lan
  | (t, a) => if t < w.now then none else { w with now := t }.act p a

/-! ## Who meets whom -/

/-- What holds of a connection between two of the parties, or one of them and somebody else. -/
structure Meets (w : Lan) (c : Nat) (k : LocalConn) : Prop where
  up : ∀ f, k.follower = some f → ∀ b ∈ k.up, b = encodeCtrl (.join (p.joinId f).toUInt64)
  down : ∀ l, k.leader = some l → encodeCtrl .paired ∈ k.down → w.leaders l = .pairing c
  same : ∀ l f, k.leader = some l → k.follower = some f → w.leaders l = .pairing c →
    p.id l = p.joinId f
  paired : ∀ f l, k.follower = some f → k.leader = some l → w.followers f = .pairing c →
    w.leaders l = .pairing c

/-- The parties know which connections they are at the ends of. -/
structure Coherent (w : Lan) : Prop where
  fresh : ∀ c, w.next ≤ c → w.conns c = none
  meets : ∀ c k, w.conns c = some k → Meets p w c k
  follower : ∀ f c, w.followers f = .joining c ∨ w.followers f = .pairing c →
    ∃ k, w.conns c = some k ∧ k.follower = some f
  leader : ∀ l c, c ∈ w.backlog l ∨ w.leaders l = .serving c ∨ w.leaders l = .pairing c →
    ∃ k, w.conns c = some k ∧ k.leader = some l

variable {p} {w : Lan}

theorem mem_queue {backlog : Nat → List Nat} {c c' l : Nat} {l? : Option Nat}
    (h : c' ∈ queue backlog c l? l) : c' ∈ backlog l ∨ c' = c ∧ l? = some l := by
  cases l? with
  | none => exact .inl h
  | some l' =>
      rw [queue] at h
      by_cases here : l = l'
      · subst here
        rw [Function.update_self] at h
        cases List.mem_append.mp h with
        | inl old => exact .inl old
        | inr new => exact .inr ⟨List.mem_singleton.mp new, rfl⟩
      · rw [Function.update_of_ne here] at h
        exact .inl h

theorem Coherent.taken (h : Coherent p w) {c : Nat} {k : LocalConn} (found : w.conns c = some k) :
    c ≠ w.next := by
  intro eq
  have free := h.fresh c (Nat.le_of_eq eq.symm)
  rw [free] at found
  cases found

theorem Coherent.leader_taken (h : Coherent p w) {l c : Nat} (pairing : w.leaders l = .pairing c) :
    c ≠ w.next := by
  obtain ⟨k, found, -⟩ := h.leader l c (.inr (.inr pairing))
  exact h.taken found

theorem Coherent.follower_taken (h : Coherent p w) {f c : Nat} (pairing : w.followers f = .pairing c) :
    c ≠ w.next := by
  obtain ⟨k, found, -⟩ := h.follower f c (.inr pairing)
  exact h.taken found

theorem Coherent.opened (h : Coherent p w) {k : LocalConn} (down : k.down = [])
    (up : ∀ f, k.follower = some f → ∀ b ∈ k.up, b = encodeCtrl (.join (p.joinId f).toUInt64)) :
    Coherent p (w.opened k) := by
  have kept : ∀ c k', w.conns c = some k' → (w.opened k).conns c = some k' := fun c k' found =>
    (Function.update_of_ne (h.taken found) ..).trans found
  refine ⟨fun c later => ?_, fun c k' found => ?_, fun f c phase => ?_, fun l c held => ?_⟩
  · have other : c ≠ w.next := Nat.ne_of_gt later
    exact (Function.update_of_ne other ..).trans (h.fresh c (Nat.le_of_lt later))
  · by_cases new : c = w.next
    · subst new
      cases (Function.update_self ..).symm.trans found
      refine ⟨up, fun l _ paired => ?_, fun l f _ _ pairing => ?_, fun f l _ _ pairing => ?_⟩
      · rw [down] at paired
        cases paired
      · cases h.leader_taken pairing rfl
      · cases h.follower_taken pairing rfl
    · have m := h.meets c k' ((Function.update_of_ne new ..).symm.trans found)
      exact ⟨m.up, m.down, m.same, m.paired⟩
  · obtain ⟨k', found, own⟩ := h.follower f c phase
    exact ⟨k', kept c k' found, own⟩
  · have before : (c ∈ w.backlog l ∨ w.leaders l = .serving c ∨ w.leaders l = .pairing c) ∨
        c = w.next ∧ k.leader = some l := by
      cases held with
      | inr phase => exact .inl (.inr phase)
      | inl waits =>
          cases mem_queue waits with
          | inl old => exact .inl (.inl old)
          | inr new => exact .inr new
    cases before with
    | inl old =>
        obtain ⟨k', found, own⟩ := h.leader l c old
        exact ⟨k', kept c k' found, own⟩
    | inr new => exact ⟨k, new.1 ▸ Function.update_self .., new.2⟩

theorem Coherent.setFollower (h : Coherent p w) {f : Nat} {x : LocalFollower}
    (on : ∀ c, x = .joining c ∨ x = .pairing c → ∃ k, w.conns c = some k ∧ k.follower = some f)
    (paired : ∀ c k l, x = .pairing c → w.conns c = some k → k.leader = some l →
      w.leaders l = .pairing c) :
    Coherent p { w with followers := Function.update w.followers f x } := by
  refine ⟨h.fresh, fun c k found => ?_, fun f' c phase => ?_, h.leader⟩
  · have m := h.meets c k found
    refine ⟨m.up, m.down, m.same, fun f' l own peer pairing => ?_⟩
    by_cases here : f' = f
    · subst here
      exact paired c k l ((Function.update_self f' x w.followers).symm.trans pairing) found peer
    · exact m.paired f' l own peer ((Function.update_of_ne here x w.followers).symm.trans pairing)
  · simp only at phase
    by_cases here : f' = f
    · subst here
      rw [Function.update_self] at phase
      exact on c phase
    · rw [Function.update_of_ne here] at phase
      exact h.follower f' c phase

/-- A leader that is not pairing yet. -/
theorem Coherent.setLeader (h : Coherent p w) {l : Nat} {x : LocalLeader} {backlog : Nat → List Nat}
    (before : ∀ c, w.leaders l ≠ .pairing c) (fewer : ∀ l c, c ∈ backlog l → c ∈ w.backlog l)
    (on : ∀ c, x = .serving c ∨ x = .pairing c → ∃ k, w.conns c = some k ∧ k.leader = some l)
    (same : ∀ c k f, x = .pairing c → w.conns c = some k → k.follower = some f →
      p.id l = p.joinId f) :
    Coherent p { w with leaders := Function.update w.leaders l x, backlog } := by
  refine ⟨h.fresh, fun c k found => ?_, h.follower, fun l' c held => ?_⟩
  · have m := h.meets c k found
    refine ⟨m.up, fun l' own paired => ?_, fun l' f own peer pairing => ?_,
      fun f l' peer own pairing => ?_⟩
    · have was := m.down l' own paired
      have other : l' ≠ l := fun eq => before c (eq ▸ was)
      exact (Function.update_of_ne other x w.leaders).trans was
    · by_cases here : l' = l
      · subst here
        exact same c k f ((Function.update_self l' x w.leaders).symm.trans pairing) found peer
      · exact m.same l' f own peer ((Function.update_of_ne here x w.leaders).symm.trans pairing)
    · have was := m.paired f l' peer own pairing
      have other : l' ≠ l := fun eq => before c (eq ▸ was)
      exact (Function.update_of_ne other x w.leaders).trans was
  · simp only at held
    by_cases here : l' = l
    · subst here
      rw [Function.update_self] at held
      cases held with
      | inl waits => exact h.leader l' c (.inl (fewer l' c waits))
      | inr phase => exact on c phase
    · rw [Function.update_of_ne here] at held
      exact h.leader l' c (held.imp_left (fewer l' c))

theorem Coherent.setConn (h : Coherent p w) {c : Nat} {k k' : LocalConn} (found : w.conns c = some k)
    (ends : k'.follower = k.follower ∧ k'.leader = k.leader) (meets : Meets p w c k') :
    Coherent p { w with conns := Function.update w.conns c (some k') } := by
  have kept : ∀ c₁ k₁, w.conns c₁ = some k₁ → ∃ k₂,
      Function.update w.conns c (some k') c₁ = some k₂ ∧ k₂.follower = k₁.follower ∧
        k₂.leader = k₁.leader := by
    intro c₁ k₁ found₁
    by_cases here : c₁ = c
    · subst here
      cases found.symm.trans found₁
      exact ⟨k', Function.update_self .., ends⟩
    · exact ⟨k₁, (Function.update_of_ne here ..).trans found₁, rfl, rfl⟩
  refine ⟨fun c₁ later => ?_, fun c₁ k₁ found₁ => ?_, fun f c₁ phase => ?_, fun l c₁ held => ?_⟩
  · have free := h.fresh c₁ later
    have other : c₁ ≠ c := by
      intro eq
      rw [eq, found] at free
      cases free
    exact (Function.update_of_ne other ..).trans free
  · by_cases here : c₁ = c
    · subst here
      cases (Function.update_self ..).symm.trans found₁
      exact ⟨meets.up, meets.down, meets.same, meets.paired⟩
    · have m := h.meets c₁ k₁ ((Function.update_of_ne here ..).symm.trans found₁)
      exact ⟨m.up, m.down, m.same, m.paired⟩
  · obtain ⟨k₁, found₁, own⟩ := h.follower f c₁ phase
    obtain ⟨k₂, found₂, same, -⟩ := kept c₁ k₁ found₁
    exact ⟨k₂, found₂, same.trans own⟩
  · obtain ⟨k₁, found₁, own⟩ := h.leader l c₁ held
    obtain ⟨k₂, found₂, -, same⟩ := kept c₁ k₁ found₁
    exact ⟨k₂, found₂, same.trans own⟩

theorem decode_eq {b : Bytes} {m : CtrlMessage} (h : decodeCtrl b = some m) : b = encodeCtrl m :=
  (encodeCtrl_of_decodeCtrl h).symm

theorem answerJoin_paired {id : UInt32} {f : Option Bytes} (h : (answerJoin id f).1 = true) :
    ∃ code : UInt64, f = some (encodeCtrl (.join code)) ∧ code.toNat = id.toNat := by
  rw [answerJoin] at h
  split at h
  · rename_i code decoded
    obtain ⟨b, rfl, joined⟩ := Option.bind_eq_some_iff.mp decoded
    split at h
    · rename_i same
      exact ⟨code, congrArg some (decode_eq joined), same⟩
    · cases h
  · cases h

theorem answerJoin_message (id : UInt32) (f : Option Bytes) :
    (answerJoin id f).2 = .paired → (answerJoin id f).1 = true := by
  rw [answerJoin]
  split
  · split
    · exact fun _ => rfl
    · nofun
  · nofun

theorem encodeCtrl_inj {m m' : CtrlMessage} (h : encodeCtrl m = encodeCtrl m') (fits : m.Fits)
    (fits' : m'.Fits) : m = m' := by
  have decoded := congrArg decodeCtrl h
  rw [decodeCtrl_encodeCtrl fits, decodeCtrl_encodeCtrl fits'] at decoded
  exact Option.some.inj decoded

theorem answerJoin_fits (id : UInt32) (f : Option Bytes) : (answerJoin id f).2.Fits := by
  have short : (CtrlMessage.error 6 (str "unknown pairing code")).Fits := by
    rw [CtrlMessage.Fits]
    decide
  rw [answerJoin]
  split
  · split
    · rw [CtrlMessage.Fits]
      trivial
    · exact short
  · exact short

theorem Coherent.join (h : Coherent p w) {f : Nat} {host : Ip6} {port : UInt16} {l? : Option Nat} {w' : Lan}
    (joined : w.join p f host port l? = some w') : Coherent p w' := by
  obtain ⟨-, joined⟩ := Option.ite_none_right_eq_some.mp joined
  cases joined
  have opened := h.opened (k := ⟨some f, l?, [encodeCtrl (.join (p.joinId f).toUInt64)], []⟩) rfl
    (by
      intro f' own b hb
      cases own
      exact List.mem_singleton.mp hb)
  refine opened.setFollower (fun c phase => ?_) nofun
  cases phase with
  | inl joins =>
      cases joins
      exact ⟨_, Function.update_self .., rfl⟩
  | inr pairs => cases pairs

theorem Coherent.readJoin (h : Coherent p w) {l c : Nat} {k : LocalConn} (serves : w.leaders l = .serving c)
    (found : w.conns c = some k) (got wrote : Bool) : Coherent p (w.readJoin p l c k got wrote) := by
  have m := h.meets c k found
  have own : k.leader = some l := by
    obtain ⟨k', found', own⟩ := h.leader l c (.inr (.inl serves))
    cases found.symm.trans found'
    exact own
  have before : ∀ c, w.leaders l ≠ .pairing c := fun c eq => by
    rw [serves] at eq
    cases eq
  -- the frame read from a follower's connection is its JOIN
  have same : ∀ f, (answerJoin (p.id l) (if got then k.up.head? else none)).1 = true →
      k.follower = some f → p.id l = p.joinId f := by
    intro f accepted peer
    obtain ⟨code, frame, eq⟩ := answerJoin_paired accepted
    have read : encodeCtrl (.join code) ∈ k.up := by
      cases got with
      | false => cases frame
      | true => exact List.mem_of_head? frame
    cases encodeCtrl_inj (m.up f peer _ read) trivial trivial
    refine UInt32.toNat_inj.mp (eq.symm.trans ?_)
    simp
  rw [Lan.readJoin]
  generalize hr : answerJoin (p.id l) (if got then k.up.head? else none) = r at same
  have said := answerJoin_message (p.id l) (if got then k.up.head? else none)
  have fits := answerJoin_fits (p.id l) (if got then k.up.head? else none)
  rw [hr] at said fits
  generalize hx : (if r.1 && wrote then LocalLeader.pairing c else .waiting) = x
  have pairs : ∀ c', x = .pairing c' → r.1 = true ∧ c' = c := by
    intro c' eq
    rw [← hx] at eq
    split at eq
    · rename_i accepted
      cases eq
      exact ⟨(Bool.and_eq_true_iff.mp accepted).1, rfl⟩
    · cases eq
  have idle : ∀ c', x ≠ .serving c' := by
    intro c' eq
    rw [← hx] at eq
    split at eq <;> cases eq
  have led : Coherent p { w with leaders := Function.update w.leaders l x } := by
    refine h.setLeader before (fun _ _ waits => waits) (fun c' phase => ?_)
      fun c' k' f eq found' peer => ?_
    · cases phase with
      | inl serves => cases idle c' serves
      | inr paired =>
          obtain ⟨-, rfl⟩ := pairs c' paired
          exact ⟨k, found, own⟩
    · obtain ⟨accepted, rfl⟩ := pairs c' eq
      cases found.symm.trans found'
      exact same f accepted peer
  have m' := led.meets c k found
  refine led.setConn found ⟨rfl, rfl⟩ ⟨fun f peer b hb => m.up f peer b (List.mem_of_mem_tail hb),
    fun l' own' paired => ?_, m'.same, m'.paired⟩
  cases own.symm.trans own'
  cases wrote with
  | false => cases before c (m.down l own paired)
  | true =>
      cases List.mem_append.mp paired with
      | inl old => cases before c (m.down l own old)
      | inr new =>
          have message := encodeCtrl_inj (List.mem_singleton.mp new) trivial fits
          rw [said message.symm] at hx
          exact (Function.update_self l x w.leaders).trans hx.symm

theorem Coherent.readReply (h : Coherent p w) {f c : Nat} {k : LocalConn} (joins : w.followers f = .joining c)
    (found : w.conns c = some k) (got : Bool) : Coherent p (w.readReply f c k got) := by
  have m := h.meets c k found
  have own : k.follower = some f := by
    obtain ⟨k', found', own⟩ := h.follower f c (.inl joins)
    cases found.symm.trans found'
    exact own
  rw [Lan.readReply]
  generalize hr : (if got then k.down.head? else none).bind decodeCtrl = r
  have read : r = some .paired → encodeCtrl .paired ∈ k.down := by
    intro eq
    obtain ⟨b, frame, decoded⟩ := Option.bind_eq_some_iff.mp (hr.trans eq)
    rw [← decode_eq decoded]
    cases got with
    | false => cases frame
    | true => exact List.mem_of_head? frame
  generalize hx : (if r = some .paired then LocalFollower.pairing c else .failed) = x
  have pairs : ∀ c', x = .pairing c' → r = some .paired ∧ c' = c := by
    intro c' eq
    rw [← hx] at eq
    split at eq
    · rename_i accepted
      cases eq
      exact ⟨accepted, rfl⟩
    · cases eq
  have followed : Coherent p { w with followers := Function.update w.followers f x } := by
    refine h.setFollower (fun c' phase => ?_) fun c' k' l eq found' peer => ?_
    · cases phase with
      | inl joining =>
          rw [← hx] at joining
          split at joining <;> cases joining
      | inr paired =>
          obtain ⟨-, rfl⟩ := pairs c' paired
          exact ⟨k, found, own⟩
    · obtain ⟨accepted, rfl⟩ := pairs c' eq
      cases found.symm.trans found'
      exact m.down l peer (read accepted)
  have m' := followed.meets c k found
  exact followed.setConn found ⟨rfl, rfl⟩ ⟨m'.up, fun l peer paired =>
    m'.down l peer (List.mem_of_mem_tail paired), m'.same, m'.paired⟩

theorem Coherent.speak (h : Coherent p w) {c : Nat} {k : LocalConn} {frame : Bytes} {w' : Lan}
    (found : w.conns c = some k) (spoke : w.speak c k frame = some w') : Coherent p w' := by
  have m := h.meets c k found
  rw [Lan.speak] at spoke
  split at spoke
  · rename_i other
    cases spoke
    refine h.setConn found ⟨rfl, rfl⟩ ⟨fun f own => ?_, m.down, m.same, m.paired⟩
    cases other.symm.trans own
  · rename_i f own other
    cases spoke
    refine h.setConn found ⟨rfl, rfl⟩ ⟨m.up, fun l peer => ?_, m.same, m.paired⟩
    cases other.symm.trans peer
  · cases spoke

/-- A leader polls, or stops doing so. -/
theorem Coherent.setListening (h : Coherent p w) {l : Nat} {x : LocalLeader}
    (before : w.leaders l = .waiting ∨ w.leaders l = .polling)
    (idle : ∀ c, x ≠ .serving c ∧ x ≠ .pairing c) :
    Coherent p { w with leaders := Function.update w.leaders l x } := by
  refine h.setLeader (fun c eq => ?_) (fun _ _ mem => mem) (fun c phase => ?_) fun c _ _ eq =>
    absurd eq (idle c).2
  · cases before with
    | inl waits => cases waits.symm.trans eq
    | inr polls => cases polls.symm.trans eq
  · cases phase with
    | inl serves => exact absurd serves (idle c).1
    | inr pairs => exact absurd pairs (idle c).2

theorem Coherent.act (h : Coherent p w) {a : Act} {w' : Lan} (acted : w.act p a = some w') : Coherent p w' := by
  cases a with
  | ask f | unanswered f | giveUp f | unreachable f =>
      obtain ⟨-, acted⟩ := Option.ite_none_right_eq_some.mp acted
      cases acted
      exact h.setFollower (fun c phase => by cases phase <;> contradiction) nofun
  | hear f host buf l? =>
      obtain ⟨-, acted⟩ := Option.ite_none_right_eq_some.mp acted
      obtain ⟨port, -, joined⟩ := Option.bind_eq_some_iff.mp acted
      exact h.join joined
  | dial f host port l? =>
      obtain ⟨-, joined⟩ := Option.ite_none_right_eq_some.mp acted
      exact h.join joined
  | accept l =>
      rw [Lan.act] at acted
      split at acted
      · cases acted
      · rename_i c rest queued
        obtain ⟨polls, acted⟩ := Option.ite_none_right_eq_some.mp acted
        cases acted
        have fewer : ∀ l' c', c' ∈ Function.update w.backlog l rest l' → c' ∈ w.backlog l' := by
          intro l' c' mem
          by_cases here : l' = l
          · subst here
            rw [Function.update_self] at mem
            rw [queued]
            exact List.mem_cons_of_mem _ mem
          · rw [Function.update_of_ne here] at mem
            exact mem
        refine h.setLeader (fun c' eq => ?_) fewer (fun c' phase => ?_) nofun
        · rw [polls] at eq
          cases eq
        · cases phase with
          | inl serves =>
              cases serves
              exact h.leader l c (.inl (queued ▸ List.mem_cons_self))
          | inr pairs => cases pairs
  | readJoin l got wrote =>
      rw [Lan.act] at acted
      split at acted
      · rename_i c serves
        obtain ⟨k, found, acted⟩ := Option.map_eq_some_iff.mp acted
        cases acted
        exact h.readJoin serves found got wrote
      · cases acted
  | poll l | expire l =>
      obtain ⟨⟨waits, -⟩, acted⟩ := Option.ite_none_right_eq_some.mp acted
      cases acted
      exact h.setListening (.inl waits) fun c => ⟨nofun, nofun⟩
  | idle l =>
      obtain ⟨polls, acted⟩ := Option.ite_none_right_eq_some.mp acted
      cases acted
      exact h.setListening (.inr polls) fun c => ⟨nofun, nofun⟩
  | readReply f got =>
      rw [Lan.act] at acted
      split at acted
      · rename_i c joins
        obtain ⟨k, found, acted⟩ := Option.map_eq_some_iff.mp acted
        cases acted
        exact h.readReply joins found got
      · cases acted
  | come l =>
      obtain ⟨-, acted⟩ := Option.ite_none_left_eq_some.mp acted
      cases acted
      exact h.opened rfl nofun
  | speak c frame =>
      obtain ⟨k, found, spoke⟩ := Option.bind_eq_some_iff.mp acted
      exact h.speak found spoke

theorem Coherent.later (h : Coherent p w) (t : Int) : Coherent p { w with now := t } :=
  ⟨h.fresh, fun c k found => let m := h.meets c k found; ⟨m.up, m.down, m.same, m.paired⟩,
    h.follower, h.leader⟩

theorem Coherent.step (h : Coherent p w) {a : Int × Act} {w' : Lan}
    (stepped : w.step p a = some w') : Coherent p w' := by
  obtain ⟨t, a⟩ := a
  obtain ⟨-, acted⟩ := Option.ite_none_left_eq_some.mp stepped
  exact (h.later t).act acted

theorem coherent {t : Int} (run : Reach (step p) anyStep { now := t } w) : Coherent p w := by
  refine run.invariant (P := Coherent p) ?_ fun s a s' h _ stepped => h.step stepped
  exact ⟨fun _ _ => rfl, nofun, by simp, by simp⟩

/-- In every run with any number of leaders and followers, whoever else sends datagrams, connects
or is connected to: a follower that goes on to pair with a leader has that leader paired on the
same connection, under the same number, and no other follower pairs with it. A leader goes on
with one connection only, and with a follower's only if that follower asked for its number. -/
theorem local_pairing_agrees {t : Int} {w : Lan} (run : Reach (step p) anyStep { now := t } w) :
    (∀ f c k l, w.followers f = .pairing c → w.conns c = some k → k.leader = some l →
      k.follower = some f ∧ w.leaders l = .pairing c ∧ p.id l = p.joinId f) ∧
    (∀ f f' c c' k k' l, w.followers f = .pairing c → w.followers f' = .pairing c' →
      w.conns c = some k → w.conns c' = some k' → k.leader = some l → k'.leader = some l → f = f') ∧
    ∀ l c, w.leaders l = .pairing c → ∃ k, w.conns c = some k ∧ k.leader = some l ∧
      ∀ f, k.follower = some f → p.id l = p.joinId f := by
  have h := coherent run
  have agrees : ∀ f c k l, w.followers f = .pairing c → w.conns c = some k → k.leader = some l →
      k.follower = some f ∧ w.leaders l = .pairing c ∧ p.id l = p.joinId f := by
    intro f c k l pairing found peer
    obtain ⟨k', found', own⟩ := h.follower f c (.inr pairing)
    cases found.symm.trans found'
    have m := h.meets c k found
    have led := m.paired f l own peer pairing
    exact ⟨own, led, m.same l f peer own led⟩
  refine ⟨agrees, fun f f' c c' k k' l pairs pairs' found found' peer peer' => ?_,
    fun l c pairing => ?_⟩
  · obtain ⟨own, led, -⟩ := agrees f c k l pairs found peer
    obtain ⟨own', led', -⟩ := agrees f' c' k' l pairs' found' peer'
    cases led.symm.trans led'
    cases found.symm.trans found'
    exact Option.some.inj (own.symm.trans own')
  · obtain ⟨k, found, peer⟩ := h.leader l c (.inr (.inr pairing))
    exact ⟨k, found, peer, fun f own => (h.meets c k found).same l f peer own pairing⟩

/-- Two followers of number 42 and one of 43, all told where the leader of 42 is: the last is
refused, and only the first of the others gets an answer. -/
def threeFollowers : LanPairing where
  host _ := ByteArr.zero 16
  id _ := 42
  tcpPort _ := kLanPairPort
  leaderDeadline _ := kLocalWaitSecs * 1000
  joinId f := if f = 2 then 43 else 42
  nonce _ := ByteArr.zero 8
  followerDeadline _ := 10000

theorem local_pairing_agrees_three : ∃ w : Lan,
    w.followers 0 = .pairing 1 ∧ w.followers 2 = .failed ∧ w.leaders 0 = .pairing 1 ∧
    ∀ f' c' k k', w.followers f' = .pairing c' → w.conns 1 = some k → w.conns c' = some k' →
      k.leader = some 0 → k'.leader = some 0 → 0 = f' := by
  obtain ⟨w, run, seen⟩ := Reach.observed (step threeFollowers) { now := 0 }
    [(0, .dial 2 (ByteArr.zero 16) kLanPairPort (some 0)),
      (1, .dial 0 (ByteArr.zero 16) kLanPairPort (some 0)),
      (2, .dial 1 (ByteArr.zero 16) kLanPairPort (some 0)), (3, .poll 0), (3, .accept 0),
      (4, .readJoin 0 true true), (5, .readReply 2 true), (6, .poll 0), (6, .accept 0),
      (7, .readJoin 0 true true), (8, .readReply 0 true)]
    (fun w => (w.followers 0, w.followers 2, w.leaders 0))
    (o := (.pairing 1, .failed, .pairing 1)) (by decide +kernel)
  simp only [Prod.mk.injEq] at seen
  obtain ⟨first, last, led⟩ := seen
  exact ⟨w, first, last, led, fun f' c' k k' pairs found found' peer peer' =>
    (local_pairing_agrees run).2.1 0 f' 1 c' k k' 0 first pairs found found' peer peer'⟩

/-! ## That they meet -/

/-- A step that does not disturb leader `l` and follower `f` on connection `c`: the leader's time is
not over and it gets the connection that is queued, and what either of them reads comes in time.
The others may do what they like. -/
def Undisturbed (l f c : Nat) (w : Lan) : Int × Act → Prop
  | (_, .expire l') => l' ≠ l
  | (_, .idle l') => l' = l → w.backlog l = []
  | (_, .readJoin l' got wrote) => l' = l → got = true ∧ wrote = true
  | (_, .readReply f' got) => f' = f → got = true ∧ (w.conns c).map LocalConn.down ≠ some []
  | _ => True

instance (l f c : Nat) (w : Lan) (a : Int × Act) : Decidable (Undisturbed l f c w a) :=
  match a with
  | (_, .expire l') => inferInstanceAs (Decidable (l' ≠ l))
  | (_, .idle l') => inferInstanceAs (Decidable (l' = l → w.backlog l = []))
  | (_, .readJoin l' got wrote) =>
      inferInstanceAs (Decidable (l' = l → got = true ∧ wrote = true))
  | (_, .readReply f' got) => inferInstanceAs
      (Decidable (f' = f → got = true ∧ (w.conns c).map LocalConn.down ≠ some []))
  | (_, .ask _) | (_, .hear ..) | (_, .unanswered _) | (_, .dial ..) | (_, .giveUp _)
  | (_, .unreachable _) | (_, .poll _) | (_, .accept _) | (_, .come _) | (_, .speak ..) =>
      isTrue trivial

/-- The moves that the two have still to make. -/
def toGo (l f : Nat) (w : Lan) : Nat :=
  match w.leaders l, w.followers f with
  | .waiting, _ => 4
  | .polling, _ => 3
  | .serving _, _ => 2
  | .pairing _, .joining _ => 1
  | _, _ => 0

/-- How far the two are. -/
inductive Stage (p : LanPairing) (l f c : Nat) (w : Lan) : Prop
  | queued (listens : w.leaders l = .waiting ∨ w.leaders l = .polling)
      (first : (w.backlog l).head? = some c) (joins : w.followers f = .joining c)
      (conn : w.conns c = some ⟨some f, some l, [encodeCtrl (.join (p.joinId f).toUInt64)], []⟩)
  | served (serves : w.leaders l = .serving c) (joins : w.followers f = .joining c)
      (conn : w.conns c = some ⟨some f, some l, [encodeCtrl (.join (p.joinId f).toUInt64)], []⟩)
  | answered (pairs : w.leaders l = .pairing c) (joins : w.followers f = .joining c)
      (conn : w.conns c = some ⟨some f, some l, [], [encodeCtrl .paired]⟩)
  | paired (pairs : w.leaders l = .pairing c) (paired : w.followers f = .pairing c)
      (conn : w.conns c = some ⟨some f, some l, [], []⟩)

/-- A step of others. -/
structure Aside (l f c : Nat) (w w' : Lan) : Prop where
  leader : w'.leaders l = w.leaders l
  follower : w'.followers f = w.followers f
  conn : w'.conns c = w.conns c
  first : ∀ x, (w.backlog l).head? = some x → (w'.backlog l).head? = some x

section
variable {l f c : Nat} {w' : Lan}

theorem Aside.toGo (h : Aside l f c w w') : toGo l f w' = toGo l f w := by
  rw [Lan.toGo, Lan.toGo, h.leader, h.follower]

namespace Stage

theorem aside (s : Stage p l f c w) (h : Aside l f c w w') :
    Stage p l f c w' ∧ toGo l f w' ≤ toGo l f w := by
  refine ⟨?_, Nat.le_of_eq h.toGo⟩
  cases s with
  | queued listens first joins conn =>
      exact .queued (h.leader ▸ listens) (h.first c first) (h.follower.trans joins)
        (h.conn.trans conn)
  | served serves joins conn =>
      exact .served (h.leader.trans serves) (h.follower.trans joins) (h.conn.trans conn)
  | answered pairs joins conn =>
      exact .answered (h.leader.trans pairs) (h.follower.trans joins) (h.conn.trans conn)
  | paired pairs paired conn =>
      exact .paired (h.leader.trans pairs) (h.follower.trans paired) (h.conn.trans conn)

theorem ends (s : Stage p l f c w) :
    ∃ k, w.conns c = some k ∧ k.follower = some f ∧ k.leader = some l := by
  cases s with
  | queued _ _ _ conn | served _ _ conn | answered _ _ conn | paired _ _ conn =>
      exact ⟨_, conn, rfl, rfl⟩

theorem connected (s : Stage p l f c w) : w.followers f = .joining c ∨ w.followers f = .pairing c := by
  cases s with
  | queued _ _ joins _ | served _ joins _ | answered _ joins _ => exact .inl joins
  | paired _ paired _ => exact .inr paired

/-- Who has not connected yet is not this follower. -/
theorem other (s : Stage p l f c w) {f' : Nat}
    (before : w.followers f' = .looking ∨ w.followers f' = .asking) : f' ≠ f := by
  rintro rfl
  obtain looks | asks := before <;> obtain joins | pairs := s.connected <;> simp_all

/-- The connection is not one that is still to come. -/
theorem taken (s : Stage p l f c w) (h : Coherent p w) : c ≠ w.next := by
  obtain ⟨k, found, -⟩ := s.ends
  exact h.taken found

theorem opened (s : Stage p l f c w) (h : Coherent p w) (k : LocalConn) :
    Aside l f c w (w.opened k) := by
  refine ⟨rfl, rfl, Function.update_of_ne (s.taken h) .., fun x first => ?_⟩
  change (queue w.backlog w.next k.leader l).head? = some x
  cases k.leader with
  | none => exact first
  | some l' =>
      rw [queue]
      by_cases here : l = l'
      · subst here
        rw [Function.update_self, List.head?_append, first]
        rfl
      · rwa [Function.update_of_ne here]

theorem join (s : Stage p l f c w) (h : Coherent p w) {f' : Nat} {host : Ip6} {port : UInt16}
    {l? : Option Nat} (before : w.followers f' = .looking ∨ w.followers f' = .asking)
    (joined : w.join p f' host port l? = some w') : Aside l f c w w' := by
  obtain ⟨-, joined⟩ := Option.ite_none_right_eq_some.mp joined
  cases joined
  have opened := s.opened h ⟨some f', l?, [encodeCtrl (.join (p.joinId f').toUInt64)], []⟩
  exact ⟨opened.leader, Function.update_of_ne (s.other before).symm .., opened.conn, opened.first⟩

theorem waits (s : Stage p l f c w) {f' : Nat} {x : LocalFollower}
    (before : w.followers f' = .looking ∨ w.followers f' = .asking) :
    Aside l f c w { w with followers := Function.update w.followers f' x } :=
  ⟨rfl, Function.update_of_ne (s.other before).symm .., rfl, fun _ first => first⟩

/-- A step on another connection. -/
theorem elsewhere {c' : Nat} (differ : c' ≠ c) (k : LocalConn) :
    Aside l f c w { w with conns := Function.update w.conns c' (some k) } :=
  ⟨rfl, rfl, Function.update_of_ne differ.symm .., fun _ first => first⟩

theorem other_leader {l' : Nat} (differ : l' ≠ l) (x : LocalLeader) :
    Aside l f c w { w with leaders := Function.update w.leaders l' x } :=
  ⟨Function.update_of_ne differ.symm .., rfl, rfl, fun _ first => first⟩

/-! What the two do themselves. -/

theorem polls (s : Stage p l f c w) (waits : w.leaders l = .waiting) :
    Stage p l f c { w with leaders := Function.update w.leaders l .polling } ∧
      toGo l f { w with leaders := Function.update w.leaders l .polling } < toGo l f w := by
  cases s with
  | queued _ first joins conn =>
      refine ⟨.queued (.inr (Function.update_self ..)) first joins conn, ?_⟩
      simp [toGo, waits]
  | served serves _ _ => cases serves.symm.trans waits
  | answered pairs _ _ | paired pairs _ _ => cases pairs.symm.trans waits

theorem accepts (s : Stage p l f c w) (polls : w.leaders l = .polling) {c' : Nat} {rest : List Nat}
    (queued : w.backlog l = c' :: rest) :
    Stage p l f c { w with
        leaders := Function.update w.leaders l (.serving c')
        backlog := Function.update w.backlog l rest } ∧
      toGo l f { w with
        leaders := Function.update w.leaders l (.serving c')
        backlog := Function.update w.backlog l rest } < toGo l f w := by
  cases s with
  | queued _ first joins conn =>
      rw [queued] at first
      cases first
      refine ⟨.served (Function.update_self ..) joins conn, ?_⟩
      simp [toGo, polls]
  | served serves _ _ => cases serves.symm.trans polls
  | answered pairs _ _ | paired pairs _ _ => cases pairs.symm.trans polls

theorem answers (s : Stage p l f c w) (same : p.id l = p.joinId f) {c' : Nat}
    (serves : w.leaders l = .serving c') {k : LocalConn} (found : w.conns c' = some k) :
    Stage p l f c (w.readJoin p l c' k true true) ∧
      toGo l f (w.readJoin p l c' k true true) < toGo l f w := by
  have asked : answerJoin (p.id l) (some (encodeCtrl (.join (p.joinId f).toUInt64))) =
      (true, .paired) := by
    have decoded := decodeCtrl_encodeCtrl (m := .join (p.joinId f).toUInt64) trivial
    rw [answerJoin, Option.bind_some, decoded, same]
    exact if_pos (by simp)
  cases s with
  | queued listens _ _ _ =>
      rw [serves] at listens
      cases listens <;> contradiction
  | served serves' joins conn =>
      cases serves.symm.trans serves'
      cases found.symm.trans conn
      refine ⟨.answered ?_ joins ?_, ?_⟩
      · simp [Lan.readJoin, asked]
      · simp [Lan.readJoin, asked]
      · simp [toGo, Lan.readJoin, asked, serves, joins]
  | answered pairs _ _ | paired pairs _ _ => cases pairs.symm.trans serves

theorem reads (s : Stage p l f c w) {c' : Nat} (joins : w.followers f = .joining c')
    {k : LocalConn} (found : w.conns c' = some k)
    (told : (w.conns c).map LocalConn.down ≠ some []) :
    Stage p l f c (w.readReply f c' k true) ∧
      toGo l f (w.readReply f c' k true) < toGo l f w := by
  have decoded : decodeCtrl (encodeCtrl .paired) = some .paired :=
    decodeCtrl_encodeCtrl (m := .paired) trivial
  cases s with
  | queued _ _ _ conn | served _ _ conn =>
      rw [conn] at told
      exact absurd rfl told
  | answered pairs joins' conn =>
      cases joins.symm.trans joins'
      cases found.symm.trans conn
      refine ⟨.paired pairs ?_ ?_, ?_⟩
      · simp [Lan.readReply, decoded]
      · simp [Lan.readReply]
      · simp [toGo, Lan.readReply, decoded, pairs, joins]
  | paired _ paired _ => cases paired.symm.trans joins

/-- A leader reads a JOIN, this one on its own connection. -/
theorem join_read (s : Stage p l f c w) (h : Coherent p w) (same : p.id l = p.joinId f)
    {l' c' : Nat} {got wrote : Bool} (mine : l' = l → got = true ∧ wrote = true)
    (serves : w.leaders l' = .serving c') {k : LocalConn} (found : w.conns c' = some k) :
    Stage p l f c (w.readJoin p l' c' k got wrote) ∧
      toGo l f (w.readJoin p l' c' k got wrote) ≤ toGo l f w := by
  by_cases here : l' = l
  · subst here
    obtain ⟨rfl, rfl⟩ := mine rfl
    exact (s.answers same serves found).imp_right Nat.le_of_lt
  · have differ : c' ≠ c := by
      rintro rfl
      obtain ⟨k₁, found₁, own⟩ := h.leader l' c' (.inr (.inl serves))
      obtain ⟨k₂, found₂, -, lead⟩ := s.ends
      cases found₁.symm.trans found₂
      exact here (Option.some.inj (own.symm.trans lead))
    exact s.aside ⟨Function.update_of_ne (Ne.symm here) .., rfl,
      Function.update_of_ne differ.symm .., fun _ first => first⟩

/-- A follower reads the reply to its JOIN, this one what the leader said. -/
theorem reply_read (s : Stage p l f c w) (h : Coherent p w) {f' c' : Nat} {got : Bool}
    (mine : f' = f → got = true ∧ (w.conns c).map LocalConn.down ≠ some [])
    (joins : w.followers f' = .joining c') {k : LocalConn} (found : w.conns c' = some k) :
    Stage p l f c (w.readReply f' c' k got) ∧ toGo l f (w.readReply f' c' k got) ≤ toGo l f w := by
  by_cases here : f' = f
  · subst here
    obtain ⟨rfl, told⟩ := mine rfl
    exact (s.reads joins found told).imp_right Nat.le_of_lt
  · have differ : c' ≠ c := by
      rintro rfl
      obtain ⟨k₁, found₁, own⟩ := h.follower f' c' (.inl joins)
      obtain ⟨k₂, found₂, follows, -⟩ := s.ends
      cases found₁.symm.trans found₂
      exact here (Option.some.inj (own.symm.trans follows))
    exact s.aside ⟨rfl, Function.update_of_ne (Ne.symm here) ..,
      Function.update_of_ne differ.symm .., fun _ first => first⟩

/-- What others do leaves the two as they are, and what they do themselves brings them on. -/
theorem act (s : Stage p l f c w) (h : Coherent p w) (same : p.id l = p.joinId f) {t : Int}
    {a : Act} (undisturbed : Undisturbed l f c w (t, a)) (acted : w.act p a = some w') :
    Stage p l f c w' ∧ toGo l f w' ≤ toGo l f w := by
  cases a with
  | ask f' | giveUp f' =>
      obtain ⟨⟨looks, -⟩, acted⟩ := Option.ite_none_right_eq_some.mp acted
      cases acted
      exact s.aside (s.waits (.inl looks))
  | unreachable f' =>
      obtain ⟨looks, acted⟩ := Option.ite_none_right_eq_some.mp acted
      cases acted
      exact s.aside (s.waits (.inl looks))
  | unanswered f' =>
      obtain ⟨asks, acted⟩ := Option.ite_none_right_eq_some.mp acted
      cases acted
      exact s.aside (s.waits (.inr asks))
  | hear f' host buf l? =>
      obtain ⟨asks, acted⟩ := Option.ite_none_right_eq_some.mp acted
      obtain ⟨port, -, joined⟩ := Option.bind_eq_some_iff.mp acted
      exact s.aside (s.join h (.inr asks) joined)
  | dial f' host port l? =>
      obtain ⟨looks, joined⟩ := Option.ite_none_right_eq_some.mp acted
      exact s.aside (s.join h (.inl looks) joined)
  | poll l' =>
      obtain ⟨⟨waits, -⟩, acted⟩ := Option.ite_none_right_eq_some.mp acted
      cases acted
      by_cases here : l' = l
      · subst here
        exact (s.polls waits).imp_right Nat.le_of_lt
      · exact s.aside (other_leader here _)
  | idle l' =>
      obtain ⟨polls, acted⟩ := Option.ite_none_right_eq_some.mp acted
      cases acted
      by_cases here : l' = l
      · subst here
        have empty := undisturbed rfl
        cases s with
        | queued _ first _ _ =>
            rw [empty] at first
            cases first
        | served serves _ _ => cases serves.symm.trans polls
        | answered pairs _ _ | paired pairs _ _ => cases pairs.symm.trans polls
      · exact s.aside (other_leader here _)
  | accept l' =>
      rw [Lan.act] at acted
      split at acted
      · cases acted
      · rename_i c' rest queued
        obtain ⟨polls, acted⟩ := Option.ite_none_right_eq_some.mp acted
        cases acted
        by_cases here : l' = l
        · subst here
          exact (s.accepts polls queued).imp_right Nat.le_of_lt
        · refine s.aside ⟨Function.update_of_ne (Ne.symm here) .., rfl, rfl, fun x first => ?_⟩
          exact (congrArg List.head? (Function.update_of_ne (Ne.symm here) ..)).trans first
  | readJoin l' got wrote =>
      rw [Lan.act] at acted
      split at acted
      · rename_i c' serves
        obtain ⟨k, found, acted⟩ := Option.map_eq_some_iff.mp acted
        cases acted
        exact s.join_read h same undisturbed serves found
      · cases acted
  | expire l' =>
      obtain ⟨-, acted⟩ := Option.ite_none_right_eq_some.mp acted
      cases acted
      exact s.aside (other_leader undisturbed _)
  | readReply f' got =>
      rw [Lan.act] at acted
      split at acted
      · rename_i c' joins
        obtain ⟨k, found, acted⟩ := Option.map_eq_some_iff.mp acted
        cases acted
        exact s.reply_read h undisturbed joins found
      · cases acted
  | come l' =>
      obtain ⟨-, acted⟩ := Option.ite_none_left_eq_some.mp acted
      cases acted
      exact s.aside (s.opened h _)
  | speak c' frame =>
      obtain ⟨k, found, spoke⟩ := Option.bind_eq_some_iff.mp acted
      have differ : c' ≠ c := by
        rintro rfl
        obtain ⟨k', found', follows, leads⟩ := s.ends
        cases found.symm.trans found'
        rw [Lan.speak, follows, leads] at spoke
        cases spoke
      rw [Lan.speak] at spoke
      split at spoke
      · cases spoke
        exact s.aside (elsewhere differ _)
      · cases spoke
        exact s.aside (elsewhere differ _)
      · cases spoke

theorem later (s : Stage p l f c w) (t : Int) : Stage p l f c { w with now := t } := by
  cases s with
  | queued listens first joins conn => exact .queued listens first joins conn
  | served serves joins conn => exact .served serves joins conn
  | answered pairs joins conn => exact .answered pairs joins conn
  | paired pairs paired conn => exact .paired pairs paired conn

theorem step (s : Stage p l f c w) (h : Coherent p w) (same : p.id l = p.joinId f) {a : Int × Act}
    (undisturbed : Undisturbed l f c w a) (stepped : w.step p a = some w') :
    Stage p l f c w' ∧ toGo l f w' ≤ toGo l f w := by
  obtain ⟨t, a⟩ := a
  obtain ⟨-, acted⟩ := Option.ite_none_left_eq_some.mp stepped
  have same_ : Undisturbed l f c { w with now := t } (t, a) := by
    cases a <;> exact undisturbed
  exact (s.later t).act (h.later t) same same_ acted

/-- One of the two can go on at any time, as long as the leader's is not over. -/
theorem goes (s : Stage p l f c w) (same : p.id l = p.joinId f) (left : toGo l f w ≠ 0) {t : Int}
    (later : w.now ≤ t) (open_ : t < p.leaderDeadline l) :
    ∃ a w', Undisturbed l f c w (t, a) ∧ Lan.step p w (t, a) = some w' ∧
      toGo l f w' < toGo l f w := by
  have on_time : ∀ a, Lan.step p w (t, a) = Lan.act p { w with now := t } a := fun a =>
    if_neg (not_lt.mpr later)
  have s' := s.later t
  cases s with
  | queued listens first joins conn =>
      cases listens with
      | inl waits =>
          refine ⟨.poll l, _, trivial, ?_, (s'.polls waits).2⟩
          rw [on_time]
          exact if_pos ⟨waits, open_⟩
      | inr polls =>
          obtain ⟨rest, queued⟩ := List.head?_eq_some_iff.mp first
          refine ⟨.accept l, _, trivial, ?_, (s'.accepts polls queued).2⟩
          rw [on_time, Lan.act]
          simp only [queued]
          exact if_pos polls
  | served serves joins conn =>
      refine ⟨.readJoin l true true, _, fun _ => ⟨rfl, rfl⟩, ?_, (s'.answers same serves conn).2⟩
      rw [on_time, Lan.act]
      simp only [serves, conn, Option.map_some]
  | answered pairs joins conn =>
      have told : (w.conns c).map LocalConn.down ≠ some [] := by
        rw [conn]
        exact fun eq => List.cons_ne_nil _ _ (Option.some.inj eq)
      refine ⟨.readReply f true, _, fun _ => ⟨rfl, told⟩, ?_, (s'.reads joins conn told).2⟩
      rw [on_time, Lan.act]
      simp only [joins, conn, Option.map_some]
  | paired pairs paired conn =>
      refine absurd ?_ left
      simp only [toGo, pairs, paired]

end Stage

end

end Lan
end Splice.Peer
