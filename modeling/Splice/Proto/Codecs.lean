import Splice.Proto.Frame
import Splice.Proto.Relay

/-!
Encoders and decoders as inverses. A decoder reads back what its encoder wrote, and it
takes nothing else: a message has one form on the wire. Offers and replies of older
peers, which end before the LAN port, are the one exception.
-/

namespace Splice.Proto

/-- What `encode` writes of a message that fits, `decode` reads, and nothing else. -/
structure Exact {α : Type} (encode : α → Bytes) (decode : Bytes → Option α)
    (Fits : α → Prop) : Prop where
  read : ∀ m, Fits m → decode (encode m) = some m
  written : ∀ b m, decode b = some m → encode m = b

/-! ## Control messages -/

/-- The length of a text has two bytes. -/
def CtrlMessage.Fits : CtrlMessage → Prop
  | .error _ message => message.length ≤ 65535
  | .init _ | .code _ _ | .join _ | .paired => True

theorem decodeCtrl_encodeCtrl {m : CtrlMessage} (h : m.Fits) :
    decodeCtrl (encodeCtrl m) = some m := by
  cases m with
  | init v =>
      have hv := ByteReader.u16_append v []
      rw [List.append_nil] at hv
      simp [decodeCtrl, encodeCtrl, hv]
  | code c ttl =>
      have httl := ByteReader.u32_append ttl []
      rw [List.append_nil] at httl
      simp [decodeCtrl, encodeCtrl, httl]
  | join c =>
      have hc := ByteReader.u64_append c []
      rw [List.append_nil] at hc
      simp [decodeCtrl, encodeCtrl, hc]
  | paired => rfl
  | error c message =>
      have hm := ByteReader.lp16_append (Nat.lt_succ_of_le h) []
      rw [List.append_nil] at hm
      simp [decodeCtrl, encodeCtrl, hm]

theorem encodeCtrl_of_decodeCtrl {b : Bytes} {m : CtrlMessage} (h : decodeCtrl b = some m) :
    encodeCtrl m = b := by
  cases b with
  | nil => cases h
  | cons t b =>
      simp only [decodeCtrl, ByteReader.u8_cons, ByteReader.ok_false, Bool.not_true,
        Bool.false_eq_true, if_false] at h
      split at h
      · rename_i ht
        obtain ⟨hdone, hm⟩ := Option.ite_none_right_eq_some.mp h
        cases hm
        obtain ⟨hok, hnil⟩ := ByteReader.done_bytes hdone
        obtain ⟨-, hrest⟩ := ByteReader.u16_ok hok
        rw [hnil, List.append_nil] at hrest
        rw [encodeCtrl, ← hrest, ht]
      · split at h
        · rename_i ht
          obtain ⟨hdone, hm⟩ := Option.ite_none_right_eq_some.mp h
          cases hm
          obtain ⟨hok, hnil⟩ := ByteReader.done_bytes hdone
          obtain ⟨hok, hrest⟩ := ByteReader.u32_ok hok
          obtain ⟨-, hall⟩ := ByteReader.u64_ok hok
          rw [hrest, hnil, List.append_nil] at hall
          rw [encodeCtrl, ← hall, ht]
        · split at h
          · rename_i ht
            obtain ⟨hdone, hm⟩ := Option.ite_none_right_eq_some.mp h
            cases hm
            obtain ⟨hok, hnil⟩ := ByteReader.done_bytes hdone
            obtain ⟨-, hrest⟩ := ByteReader.u64_ok hok
            rw [hnil, List.append_nil] at hrest
            rw [encodeCtrl, ← hrest, ht]
          · split at h
            · rename_i ht
              obtain ⟨hdone, hm⟩ := Option.ite_none_right_eq_some.mp h
              cases hm
              have hnil : b = [] := (ByteReader.done_bytes hdone).2
              rw [encodeCtrl, hnil, ht]
            · split at h
              · rename_i ht
                obtain ⟨hdone, hm⟩ := Option.ite_none_right_eq_some.mp h
                cases hm
                obtain ⟨hok, hnil⟩ := ByteReader.done_bytes hdone
                obtain ⟨hok, hrest⟩ := ByteReader.lp16_ok hok
                obtain ⟨-, hall⟩ := ByteReader.u16_ok hok
                rw [hrest, hnil, List.append_nil] at hall
                rw [encodeCtrl, ← hall, ht]
              · cases h

theorem ctrl_exact : Exact encodeCtrl decodeCtrl CtrlMessage.Fits :=
  ⟨fun _ => decodeCtrl_encodeCtrl, fun _ _ => encodeCtrl_of_decodeCtrl⟩

/-! ## The peer envelope -/

theorem encodePeer_of_decodePeer {b : Bytes} {m : PeerMessage} (h : decodePeer b = some m) :
    encodePeer m = b := by
  cases b with
  | nil => cases h
  | cons t b =>
      simp only [decodePeer, ByteReader.u8_cons, ByteReader.ok_false, Bool.not_true,
        Bool.false_eq_true, if_false, ByteReader.takeRest_ok, if_true] at h
      split at h
      · rename_i ht
        cases h
        rw [encodePeer, ht]
      · split at h
        · rename_i ht
          obtain ⟨hdone, hm⟩ := Option.ite_none_right_eq_some.mp h
          cases hm
          obtain ⟨hok, hnil⟩ := ByteReader.done_bytes hdone
          obtain ⟨-, hrest⟩ := ByteReader.array_ok (by decide) hok
          rw [hnil, List.append_nil] at hrest
          rw [encodePeer, ← hrest, ht]
        · split at h
          · rename_i ht
            cases h
            rw [encodePeer, ht]
          · cases h

theorem peer_exact : Exact encodePeer decodePeer fun _ => True :=
  ⟨fun m _ => decodePeer_encodePeer m, fun _ _ => encodePeer_of_decodePeer⟩

/-! ## The negotiation -/

def NegMessage.lanPort : NegMessage → UInt16
  | .offer m => m.lanPort
  | .reply m => m.lanPort

def NegMessage.unported : NegMessage → NegMessage
  | .offer m => .offer { m with lanPort := 0 }
  | .reply m => .reply { m with lanPort := 0 }

/-- The port was read from the bytes that are left, or there were none. -/
theorem readLanPort_done {r : ByteReader} (h : (readLanPort r).2.done = true) :
    r.failed = false ∧ (r.rest = bigEndian 2 (readLanPort r).1.toNat ∨
      r.rest = [] ∧ (readLanPort r).1 = 0) := by
  unfold readLanPort at h ⊢
  obtain ⟨hok, hnil⟩ := ByteReader.done_bytes h
  split at hok
  · rename_i htwo
    rw [if_pos htwo] at hnil ⊢
    obtain ⟨hok, hrest⟩ := ByteReader.u16_ok hok
    rw [hnil, List.append_nil] at hrest
    exact ⟨hok, .inl hrest⟩
  · rename_i htwo
    rw [if_neg htwo] at hnil ⊢
    exact ⟨hok, .inr ⟨hnil, rfl⟩⟩

theorem ReplyStatus.toByte_of_ofByte {b : UInt8} {s : ReplyStatus} (h : ofByte b = some s) :
    s.toByte = b := by
  simp only [ofByte] at h
  split at h
  · rename_i hb
    cases h
    exact hb.symm
  · split at h
    · rename_i hb
      cases h
      exact hb.symm
    · split at h
      · rename_i hb
        cases h
        exact hb.symm
      · cases h

/-- A message that was read is the one that was written, or an older peer's. -/
theorem encodeNeg_of_decodeNeg {b : Bytes} {m : NegMessage} (h : decodeNeg b = some m) :
    encodeNeg m = b ∨ m.lanPort = 0 ∧ encodeNeg m = b ++ [0, 0] := by
  cases b with
  | nil => cases h
  | cons t b =>
      simp only [decodeNeg, ByteReader.u8_cons, ByteReader.ok_false, Bool.not_true,
        Bool.false_eq_true, if_false] at h
      split at h
      · rename_i ht
        obtain ⟨hdone, hm⟩ := Option.ite_none_right_eq_some.mp h
        cases hm
        obtain ⟨hok, hport⟩ := readLanPort_done hdone
        obtain ⟨hok, hkey⟩ := ByteReader.array_ok (by decide) hok
        obtain ⟨hok, huid⟩ := ByteReader.array_ok (by decide) hok
        obtain ⟨hok, hpre⟩ := ByteReader.u8_ok hok
        obtain ⟨-, hbase⟩ := ByteReader.array_ok (by decide) hok
        rw [hpre, huid, hkey] at hbase
        rcases hport with hport | ⟨hnil, hzero⟩
        · rw [hport] at hbase
          exact .inl (by rw [encodeNeg, ← hbase, ht])
        · rw [hnil, List.append_nil] at hbase
          refine .inr ⟨hzero, ?_⟩
          have hb : b = _ := hbase
          rw [encodeNeg, hzero, ht]
          conv_rhs => rw [hb]
          simp [bigEndian]
      · split at h
        · rename_i ht
          split at h
          · cases h
          · rename_i status hstatus
            obtain ⟨hdone, hm⟩ := Option.ite_none_right_eq_some.mp h
            cases hm
            obtain ⟨hok, hport⟩ := readLanPort_done hdone
            obtain ⟨hok, hpre⟩ := ByteReader.u8_ok hok
            obtain ⟨hok, hbase⟩ := ByteReader.array_ok (by decide) hok
            obtain ⟨hok, hkey⟩ := ByteReader.array_ok (by decide) hok
            obtain ⟨-, hbyte⟩ := ByteReader.u8_ok hok
            rw [hkey, hbase, hpre, ← ReplyStatus.toByte_of_ofByte hstatus] at hbyte
            rcases hport with hport | ⟨hnil, hzero⟩
            · rw [hport] at hbyte
              exact .inl (by rw [encodeNeg, ← hbyte, ht])
            · rw [hnil] at hbyte
              refine .inr ⟨hzero, ?_⟩
              have hb : b = _ := hbyte
              rw [encodeNeg, hzero, ht]
              conv_rhs => rw [hb]
              simp [bigEndian]
        · cases h

/-- Without its last two bytes a message reads as one without a port. -/
theorem decodeNeg_unported {m : NegMessage} {b : Bytes}
    (h : encodeNeg m = b ++ bigEndian 2 m.lanPort.toNat) : decodeNeg b = some m.unported := by
  cases m with
  | offer m =>
      have hkey := ByteReader.array_append m.leaderPubkey []
      rw [List.append_nil] at hkey
      have hform : encodeNeg (.offer m) = (0x01 :: (m.ulaBase.toList ++ (m.ulaPrefix ::
          (m.uid.toList ++ m.leaderPubkey.toList)))) ++ bigEndian 2 m.lanPort.toNat := by
        simp [encodeNeg]
      rw [← List.append_cancel_right (hform.symm.trans h)]
      simp [decodeNeg, hkey, readLanPort, ByteReader.remaining, NegMessage.unported]
  | reply m =>
      have hform : encodeNeg (.reply m) = (0x02 :: m.status.toByte :: (m.followerPubkey.toList ++
          (m.counterUlaBase.toList ++ [m.counterUlaPrefix]))) ++ bigEndian 2 m.lanPort.toNat := by
        simp [encodeNeg]
      rw [← List.append_cancel_right (hform.symm.trans h)]
      simp [decodeNeg, readLanPort, ByteReader.remaining, NegMessage.unported]

/-! ## Datagrams -/

theorem relayUp_exact : Exact (fun m : Uid × Bytes => encodeRelayUp m.1 m.2) decodeRelayUp
    fun _ => True := by
  refine ⟨fun m _ => by simp [encodeRelayUp, decodeRelayUp], fun b m h => ?_⟩
  cases b with
  | nil => cases h
  | cons t b =>
      simp only [decodeRelayUp, ByteReader.u8_cons, ne_eq, ite_not] at h
      obtain ⟨ht, h⟩ := Option.ite_none_right_eq_some.mp h
      obtain ⟨hok, hm⟩ := Option.ite_none_left_eq_some.mp h
      cases hm
      have hok : (ByteReader.array 32 ⟨b, false⟩).2.failed = false := by
        simpa [ByteReader.ok] using hok
      obtain ⟨-, hrest⟩ := ByteReader.array_ok (by decide) hok
      rw [encodeRelayUp, ByteReader.takeRest_of_ok hok, ← hrest, ht]

theorem relayDown_exact : Exact encodeRelayDown decodeRelayDown fun _ => True := by
  refine ⟨fun m _ => decodeRelayDown_encode m, fun b m h => ?_⟩
  cases b with
  | nil => cases h
  | cons t b =>
      simp only [decodeRelayDown, ByteReader.u8_cons, ByteReader.takeRest_ok, ne_eq, ite_not] at h
      obtain ⟨ht, hm⟩ := Option.ite_none_right_eq_some.mp h
      cases hm
      rw [encodeRelayDown, ht]

theorem whereamiReq_exact : Exact encodeWhereamiReq decodeWhereamiReq fun _ => True := by
  refine ⟨fun m _ => ?_, fun b m h => ?_⟩
  · have hm := ByteReader.u32_append m []
    rw [List.append_nil] at hm
    simp [decodeWhereamiReq, encodeWhereamiReq, hm]
  · cases b with
    | nil => cases h
    | cons t b =>
        simp only [decodeWhereamiReq, ByteReader.u8_cons, ne_eq, ite_not] at h
        obtain ⟨ht, h⟩ := Option.ite_none_right_eq_some.mp h
        obtain ⟨hdone, hm⟩ := Option.ite_none_right_eq_some.mp h
        cases hm
        obtain ⟨hok, hnil⟩ := ByteReader.done_bytes hdone
        obtain ⟨-, hrest⟩ := ByteReader.u32_ok hok
        rw [hnil, List.append_nil] at hrest
        rw [encodeWhereamiReq, ← hrest, ht]

theorem whereamiReply_exact : Exact encodeWhereamiReply decodeWhereamiReply fun _ => True := by
  refine ⟨fun m _ => ?_, fun b m h => ?_⟩
  · have hport := ByteReader.u16_append m.port []
    rw [List.append_nil] at hport
    simp [decodeWhereamiReply, encodeWhereamiReply, hport]
  · cases b with
    | nil => cases h
    | cons t b =>
        simp only [decodeWhereamiReply, ByteReader.u8_cons, ne_eq, ite_not] at h
        obtain ⟨ht, h⟩ := Option.ite_none_right_eq_some.mp h
        obtain ⟨hdone, hm⟩ := Option.ite_none_right_eq_some.mp h
        cases hm
        obtain ⟨hok, hnil⟩ := ByteReader.done_bytes hdone
        obtain ⟨hok, hport⟩ := ByteReader.u16_ok hok
        obtain ⟨hok, hip⟩ := ByteReader.array_ok (by decide) hok
        obtain ⟨-, hall⟩ := ByteReader.u32_ok hok
        rw [hip, hport, hnil, List.append_nil] at hall
        rw [encodeWhereamiReply, ← hall, ht]

/-! ## Frames -/

/-- Of the payloads that were written, `got` are those whose frames have arrived whole, and
`tail` is what there is of the next. -/
structure Arrived (payloads : List Bytes) (bytes : Bytes) (got : List Bytes) (tail : Bytes) :
    Prop where
  whole : bytes = encodeFrames got ++ tail
  inOrder : ∃ more, payloads = got ++ more ∧
    match more with
    | [] => tail = []
    | next :: _ => tail.length < (encodeFrame next).length

/-- Every way of reading gives the payloads back, each as soon as it is there and not before. -/
structure ReadBack (payloads : List Bytes) : Prop where
  whole : ∀ pieces : Wire, pieces.flatten = encodeFrames payloads →
    feed [] pieces = (payloads, []) ∧ ∀ n, payloads.length < n →
      readFrames plainReadFrame n pieces = payloads ∧ readFrames tlsReadFrame n pieces = payloads
  cut : ∀ pieces : Wire, pieces.flatten <+: encodeFrames payloads → ∃ got tail,
    Arrived payloads pieces.flatten got tail ∧ feed [] pieces = (got, tail) ∧
      ∀ n, got.length < n →
        readFrames plainReadFrame n pieces = got ∧ readFrames tlsReadFrame n pieces = got
  past : ∀ payload ∈ payloads, ∀ (rest : Bytes) (wire : Wire),
    wire.flatten = encodeFrame payload ++ rest →
      tryParseFrame wire.flatten = .frame payload (encodeFrame payload).length ∧
      (∃ wire', plainReadFrame wire = some (payload, wire') ∧ wire'.flatten = rest) ∧
      ∃ wire', tlsReadFrame wire = some (payload, wire') ∧ wire'.flatten = rest

theorem nil_cut {payloads : List Bytes} (h : ∀ p ∈ payloads, p.length ≤ kMaxFrameLen) :
    Cut payloads [] :=
  ⟨h, [], by simp, List.nil_prefix, by simp [encodeFrame_length]⟩

theorem arrived_of_prefix {payloads : List Bytes} (h : ∀ p ∈ payloads, p.length ≤ kMaxFrameLen)
    {bytes : Bytes} (cut : bytes <+: encodeFrames payloads) :
    ∃ got tail, Arrived payloads bytes got tail ∧ Cut got tail := by
  obtain ⟨later, hlater⟩ := cut
  have hbytes : bytes ++ later = encodeFrames payloads ++ [] := by rw [hlater, List.append_nil]
  obtain ⟨got, more, t, rfl, hgot, hcut, hcut', hmore⟩ := (nil_cut h).split hbytes
  refine ⟨got, t, ⟨hgot, more, rfl, ?_⟩, hcut⟩
  cases more with
  | nil =>
      rw [encodeFrames, List.flatMap_nil, List.nil_append] at hmore
      exact (List.append_eq_nil_iff.mp hmore).1
  | cons next more =>
      obtain ⟨p, hp, hcut, hshort⟩ := hcut.tail
      by_contra hlong
      have hfront : encodeFrame next <+: encodeFrames (next :: more) ++ [] := by
        rw [encodeFrames, List.flatMap_cons, List.append_assoc]
        exact List.prefix_append _ _
      obtain ⟨rest, rfl⟩ : encodeFrame next <+: t :=
        List.prefix_of_prefix_length_le hfront ⟨later, hmore⟩ (by omega)
      have hparse := tryParseFrame_append (h next (by simp)) rest
      exact absurd ((tryParseFrame_short hp hcut hshort).symm.trans hparse) (by simp)

theorem frames_readBack {payloads : List Bytes} (h : ∀ p ∈ payloads, p.length ≤ kMaxFrameLen) :
    ReadBack payloads := by
  have short : Cut [] [] := nil_cut fun _ hp => absurd hp List.not_mem_nil
  refine ⟨fun pieces hall => ?_, fun pieces hcut => ?_, fun payload hp rest wire hbytes => ?_⟩
  · have hbytes : pieces.flatten = encodeFrames payloads ++ [] := by rw [hall, List.append_nil]
    exact ⟨feed_cut (nil_cut h) short hbytes, fun n hn =>
      ⟨readFrames_cut (nil_cut h) hbytes hn, readFrames_cut (nil_cut h) hbytes hn⟩⟩
  · obtain ⟨got, tail, arrived, cut⟩ := arrived_of_prefix h hcut
    exact ⟨got, tail, arrived, feed_cut cut short arrived.whole, fun n hn =>
      ⟨readFrames_cut cut arrived.whole hn, readFrames_cut cut arrived.whole hn⟩⟩
  · have hread := readFrame_append (h payload hp) hbytes
    exact ⟨hbytes ▸ tryParseFrame_append (h payload hp) rest, hread, hread⟩

/-- Encoders and decoders are inverses, and frames are read back however they are cut. -/
theorem codecs_exact :
    Exact encodeCtrl decodeCtrl CtrlMessage.Fits ∧
    Exact encodePeer decodePeer (fun _ => True) ∧
    (∀ m, decodeNeg (encodeNeg m) = some m) ∧
    (∀ b m, decodeNeg b = some m →
      encodeNeg m = b ∨ m.lanPort = 0 ∧ encodeNeg m = b ++ [0, 0]) ∧
    (∀ b m, encodeNeg m = b ++ bigEndian 2 m.lanPort.toNat → decodeNeg b = some m.unported) ∧
    Exact (fun m : Uid × Bytes => encodeRelayUp m.1 m.2) decodeRelayUp (fun _ => True) ∧
    Exact encodeRelayDown decodeRelayDown (fun _ => True) ∧
    Exact encodeWhereamiReq decodeWhereamiReq (fun _ => True) ∧
    Exact encodeWhereamiReply decodeWhereamiReply (fun _ => True) ∧
    ∀ payloads : List Bytes, (∀ p ∈ payloads, p.length ≤ kMaxFrameLen) → ReadBack payloads :=
  ⟨ctrl_exact, peer_exact, decodeNeg_encodeNeg, fun _ _ => encodeNeg_of_decodeNeg,
    fun _ _ => decodeNeg_unported, relayUp_exact, relayDown_exact, whereamiReq_exact,
    whereamiReply_exact, fun _ => frames_readBack⟩

end Splice.Proto
