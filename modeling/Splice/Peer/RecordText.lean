import Splice.Peer.Shelf
import Splice.Peer.Inventory

/-!
A record as text: the lines of a `.conn` file split into the fields they were written
from, and the record read back has its name and uid. Nothing but the name can hold a
newline: numbers, base64 and address hints cannot.
-/

namespace Splice.Peer
open Lib

/-! ## Fields -/

theorem splitField_field {k v : Bytes} (h : (58 : UInt8) ∉ k) :
    splitField (k ++ 58 :: 32 :: v) = some (k, v) := by
  induction k with
  | nil => simp [splitField]
  | cons a k ih =>
      simp only [List.mem_cons, not_or] at h
      have hrest : ∃ b rest, k ++ 58 :: 32 :: v = b :: rest := by
        cases k with
        | nil => exact ⟨_, _, rfl⟩
        | cons b k => exact ⟨_, _, rfl⟩
      obtain ⟨b, rest, hb⟩ := hrest
      rw [List.cons_append, hb, splitField, if_neg (fun e => h.1 e.1.symm), ← hb, ih h.2]
      rfl

/-- The fields of a text of `key: value` lines. -/
theorem fields_lines {l : List (Bytes × Bytes)}
    (plain : ∀ f ∈ l, (58 : UInt8) ∉ f.1 ∧ newline ∉ f.1 ∧ newline ∉ f.2) :
    (lines (l.flatMap fun f => f.1 ++ 58 :: 32 :: f.2 ++ [newline])).filterMap splitField = l := by
  induction l with
  | nil => rfl
  | cons f l ih =>
      obtain ⟨hcolon, hkey, hval⟩ := plain f List.mem_cons_self
      have hline : newline ∉ f.1 ++ 58 :: 32 :: f.2 := by
        simp only [List.mem_append, List.mem_cons, not_or]
        exact ⟨hkey, by decide, by decide, hval⟩
      rw [List.flatMap_cons, List.append_assoc, List.singleton_append, lines_append hline,
        List.filterMap_cons, splitField_field hcolon,
        ih fun g hg => plain g (List.mem_cons_of_mem f hg)]

/-! ## Hints -/

theorem newline_notMem_of_all {p : UInt8 → Bool} {s : Bytes} (hp : p newline = false)
    (h : s.all p = true) : newline ∉ s := by
  intro hmem
  rw [List.all_eq_true] at h
  exact absurd (hp.symm.trans (h newline hmem)) (by simp)

theorem hintPort_digits {p : Bytes} (h : hintPort (some p) ≠ none) : newline ∉ p := by
  simp only [hintPort] at h
  split at h
  · exact absurd rfl h
  · rename_i hbad
    simp only [not_or, Bool.not_eq_false] at hbad
    exact newline_notMem_of_all (by decide) hbad.2.2

theorem head_dropWhile_ne {a rest : Bytes} {b c : UInt8} (h : a.dropWhile (· ≠ c) = b :: rest) :
    b = c := by
  have hhead := List.head?_dropWhile_not (fun x : UInt8 => decide (x ≠ c)) a
  simp only [h, List.head?_cons] at hhead
  simpa using hhead

/-- What stands before a bracket or a colon, and what follows it. -/
theorem newline_notMem_cut {a : Bytes} {c : UInt8} (hc : c ≠ newline)
    (front : newline ∉ a.takeWhile (· ≠ c)) (back : newline ∉ (a.dropWhile (· ≠ c)).drop 1) :
    newline ∉ a := by
  have hcut : a = a.takeWhile (· ≠ c) ++ a.dropWhile (· ≠ c) :=
    List.takeWhile_append_dropWhile.symm
  rw [hcut, List.mem_append, not_or]
  refine ⟨front, ?_⟩
  cases hw : a.dropWhile (· ≠ c) with
  | nil => simp
  | cons b rest =>
      rw [hw] at back
      simp only [List.mem_cons, not_or, head_dropWhile_ne hw]
      exact ⟨hc.symm, back⟩

/-- The text of a host in brackets. -/
theorem newline_notMem_bracket {a : Bytes} (h : a.head? = some 91)
    (host : newline ∉ (a.takeWhile (· ≠ 93)).drop 1) : newline ∉ a.takeWhile (· ≠ 93) := by
  cases a with
  | nil => cases h
  | cons b rest =>
      cases Option.some.inj h
      rw [List.takeWhile_cons, if_pos (by decide)] at host ⊢
      simp only [List.mem_cons, not_or]
      exact ⟨by decide, host⟩

/-- A hint is on one line. -/
theorem newline_notMem_hint {a : Bytes} (h : (parseAddressHint a).isSome = true) :
    newline ∉ a := by
  simp only [parseAddressHint] at h
  split at h
  · cases h
  · rename_i host port hsplit
    split at h
    · cases h
    · rename_i hbad
      simp only [not_or, Bool.not_eq_false] at hbad
      have hhost : newline ∉ host := newline_notMem_of_all (by decide) hbad.2.2
      have hport : hintPort port ≠ none := by
        intro hnone
        simp [hnone] at h
      simp only [splitHint] at hsplit
      split at hsplit
      · rename_i hbracket
        split at hsplit
        · cases hsplit
        · rename_i b hb
          cases hsplit
          refine newline_notMem_cut (by decide) (newline_notMem_bracket hbracket hhost) ?_
          rw [hb]
          simp
        · rename_i b c p hb
          split at hsplit
          · rename_i hc
            cases hsplit
            refine newline_notMem_cut (by decide) (newline_notMem_bracket hbracket hhost) ?_
            simp only [hb, List.drop_succ_cons, List.drop_zero, List.mem_cons, not_or, hc]
            exact ⟨by decide, hintPort_digits hport⟩
          · cases hsplit
      · split at hsplit
        · cases hsplit
          exact newline_notMem_cut (by decide) hhost (hintPort_digits hport)
        · cases hsplit
          exact hhost

/-! ## Records -/

theorem newline_notMem_signed (n : Int) : newline ∉ signed n := by
  simp only [signed]
  split
  · simp only [List.mem_cons, not_or]
    exact ⟨by decide, newline_notMem_decimal _⟩
  · exact newline_notMem_decimal _

theorem newline_notMem_onOff (b : Bool) : newline ∉ onOff b := by
  cases b <;> decide

/-- What a record needs to be written one field a line. -/
structure OneLined (r : ConnRecord) : Prop where
  name : newline ∉ r.name
  addresses : ∀ a ∈ r.addresses, newline ∉ a

theorem oneLined_of_hinted {r : ConnRecord} (hname : newline ∉ r.name)
    (h : ∀ a ∈ r.addresses, (parseAddressHint a).isSome = true) : OneLined r :=
  ⟨hname, fun a ha => newline_notMem_hint (h a ha)⟩

theorem fields_recordBody {r : ConnRecord} (h : OneLined r) :
    (lines (recordBody r)).filterMap splitField = recordFields r := by
  apply fields_lines
  have hkeys : ∀ k ∈ ["name", "uid", "side", "ula_base", "ula_prefix", "own_priv", "own_pub",
      "peer_pub", "created", "address", "relay", "lan-discovery", "remember-address", "lan-port"],
      (58 : UInt8) ∉ str k ∧ newline ∉ str k := by decide
  have field : ∀ {k : String} {v : Bytes}, k ∈ ["name", "uid", "side", "ula_base", "ula_prefix",
      "own_priv", "own_pub", "peer_pub", "created", "address", "relay", "lan-discovery",
      "remember-address", "lan-port"] → newline ∉ v →
      (58 : UInt8) ∉ (str k, v).1 ∧ newline ∉ (str k, v).1 ∧ newline ∉ (str k, v).2 :=
    fun hk hv => ⟨(hkeys _ hk).1, (hkeys _ hk).2, hv⟩
  intro f hf
  simp only [recordFields, List.mem_append, List.mem_cons, List.not_mem_nil, or_false,
    List.mem_map] at hf
  rcases hf with ((hf | hf) | hf) | hf
  · rcases hf with rfl | rfl | rfl | rfl | rfl | rfl | rfl | rfl | rfl
    · exact field (by decide) h.name
    · exact field (by decide) (newline_notMem_base64Encode _)
    · exact field (by decide) (by split <;> decide)
    · exact field (by decide) (newline_notMem_base64Encode _)
    · exact field (by decide) (newline_notMem_decimal _)
    · exact field (by decide) (newline_notMem_base64Encode _)
    · exact field (by decide) (newline_notMem_base64Encode _)
    · exact field (by decide) (newline_notMem_base64Encode _)
    · exact field (by decide) (newline_notMem_signed _)
  · obtain ⟨a, ha, rfl⟩ := hf
    exact field (by decide) (h.addresses a ha)
  · rcases hf with rfl | rfl | rfl
    all_goals exact field (by decide) (newline_notMem_onOff _)
  · split at hf
    · cases hf
    · rw [List.mem_singleton] at hf
      rw [hf]
      exact field (by decide) (newline_notMem_decimal _)

/-- The fields that occur once, by key. -/
theorem fieldValue_recordFields (r : ConnRecord) {key : Bytes}
    (hother : key ∉ ["address", "relay", "lan-discovery", "remember-address", "lan-port"].map str) :
    fieldValue (recordFields r) key =
      List.lookup key [(str "created", signed r.createdUnix),
        (str "peer_pub", base64Encode r.peerPub.toList),
        (str "own_pub", base64Encode r.ownPub.toList),
        (str "own_priv", base64Encode r.ownPriv.toList),
        (str "ula_prefix", decimal r.ulaPrefix.toNat),
        (str "ula_base", base64Encode r.ulaBase.toList),
        (str "side", if r.side then str "1" else str "0"),
        (str "uid", base64Encode r.uid.toList), (str "name", r.name)] := by
  have skip : ∀ (l : List (Bytes × Bytes)), (∀ f ∈ l, key ≠ f.1) → l.lookup key = none := by
    intro l hl
    rw [List.lookup_eq_none_iff]
    intro f hf
    simpa using hl f hf
  have late : ∀ k ∈ ["address", "relay", "lan-discovery", "remember-address", "lan-port"],
      key ≠ str k := by
    intro k hk e
    exact hother (List.mem_map.mpr ⟨k, hk, e.symm⟩)
  simp only [fieldValue, recordFields, List.reverse_append, List.lookup_append]
  rw [skip _ (fun f hf => ?_), skip _ (fun f hf => ?_), skip _ (fun f hf => ?_)]
  · rfl
  · rw [List.mem_reverse, List.mem_map] at hf
    obtain ⟨a, -, rfl⟩ := hf
    exact late "address" (by decide)
  · simp only [List.mem_reverse, List.mem_cons, List.not_mem_nil, or_false] at hf
    rcases hf with rfl | rfl | rfl
    all_goals exact late _ (by decide)
  · rw [List.mem_reverse] at hf
    split at hf
    · cases hf
    · rw [List.mem_singleton] at hf
      rw [hf]
      exact late "lan-port" (by decide)

theorem getB64_recordFields {n : Nat} {r : ConnRecord} {key : Bytes} {v : ByteArr n}
    (h : fieldValue (recordFields r) key = some (base64Encode v.toList)) :
    getB64 n (recordFields r) key = some v := by
  simp only [getB64, h, Option.getD_some, base64Decode_encode]
  exact dif_pos v.2

/-- The fields without which there is no record. -/
theorem required_recordFields (r : ConnRecord) :
    fieldValue (recordFields r) (str "name") = some r.name ∧
    getB64 32 (recordFields r) (str "uid") = some r.uid ∧
    getB64 16 (recordFields r) (str "ula_base") = some r.ulaBase ∧
    getB64 32 (recordFields r) (str "own_priv") = some r.ownPriv ∧
    getB64 32 (recordFields r) (str "own_pub") = some r.ownPub ∧
    getB64 32 (recordFields r) (str "peer_pub") = some r.peerPub := by
  have value : ∀ {k : String} {v : Bytes}, str k ∉ ["address", "relay", "lan-discovery",
      "remember-address", "lan-port"].map str → _ → fieldValue (recordFields r) (str k) = some v :=
    fun hk hv => (fieldValue_recordFields r hk).trans hv
  exact ⟨value (by decide) rfl, getB64_recordFields (value (by decide) rfl),
    getB64_recordFields (value (by decide) rfl), getB64_recordFields (value (by decide) rfl),
    getB64_recordFields (value (by decide) rfl), getB64_recordFields (value (by decide) rfl)⟩

/-- Name and uid read back. -/
theorem parseRecord_recordBody {r : ConnRecord} (h : OneLined r) :
    ∃ r', parseRecord (recordBody r) = some r' ∧ r'.name = r.name ∧ r'.uid = r.uid := by
  obtain ⟨hname, huid, hula, hpriv, hpub, hpeer⟩ := required_recordFields r
  simp only [parseRecord, fields_recordBody h, hname, huid, hula, hpriv, hpub, hpeer]
  exact ⟨_, rfl, rfl, rfl⟩

/-! ## Every field -/

/-- A record as the types of its fields and the check of its addresses allow. -/
structure Writable (r : ConnRecord) : Prop where
  name : newline ∉ r.name
  hinted : ∀ a ∈ r.addresses, (parseAddressHint a).isSome = true
  created : -2 ^ 63 ≤ r.createdUnix ∧ r.createdUnix < 2 ^ 63

theorem strtol_signed {n : Int} (h : -2 ^ 63 ≤ n ∧ n < 2 ^ 63) : strtol 10 (signed n) = n := by
  simp only [signed]
  split
  · rw [strtol_numeral (numeralStart_minus _), if_pos rfl]
    omega
  · rw [strtol_numeral (numeralStart_decimal _), if_neg (by decide)]
    omega

theorem atoi_decimal {n : Nat} (h : n < 2 ^ 31) : atoi (decimal n) = n := by
  rw [atoi, strtol_numeral (numeralStart_decimal n), if_neg (by decide), Int.bmod_def]
  omega

/-- The last lines, by key. -/
theorem fieldValue_settings (r : ConnRecord) :
    fieldValue (recordFields r) (str "relay") = some (onOff r.useRelay) ∧
    fieldValue (recordFields r) (str "lan-discovery") = some (onOff r.lanDiscovery) ∧
    fieldValue (recordFields r) (str "remember-address") = some (onOff r.rememberAddress) := by
  simp only [fieldValue, recordFields, List.reverse_append, List.lookup_append]
  split
  · exact ⟨rfl, rfl, rfl⟩
  · exact ⟨rfl, rfl, rfl⟩

theorem settingOn_onOff {kv : List (Bytes × Bytes)} {key : Bytes} {b : Bool}
    (h : fieldValue kv key = some (onOff b)) : settingOn kv key = b := by
  rw [settingOn, h]
  cases b <;> decide

theorem lanPortField_recordFields (r : ConnRecord) : lanPortField (recordFields r) = r.lanPort := by
  have hlt := r.lanPort.toNat_lt
  by_cases h0 : r.lanPort = 0
  · have other : ∀ {k : String} {v : Bytes}, k ∈ ["name", "uid", "side", "ula_base", "ula_prefix",
        "own_priv", "own_pub", "peer_pub", "created", "address", "relay", "lan-discovery",
        "remember-address"] → (str "lan-port" != (str k, v).1) = true := by
      have hne : ∀ k ∈ ["name", "uid", "side", "ula_base", "ula_prefix", "own_priv", "own_pub",
          "peer_pub", "created", "address", "relay", "lan-discovery", "remember-address"],
          str "lan-port" ≠ str k := by decide
      intro k v hk
      exact bne_iff_ne.mpr (hne k hk)
    have hnone : fieldValue (recordFields r) (str "lan-port") = none := by
      rw [fieldValue, List.lookup_eq_none_iff]
      intro f hf
      rw [List.mem_reverse] at hf
      simp only [recordFields, h0, if_true, List.append_nil, List.mem_append, List.mem_cons,
        List.not_mem_nil, or_false, List.mem_map] at hf
      rcases hf with (hf | ⟨a, -, rfl⟩) | hf
      · rcases hf with rfl | rfl | rfl | rfl | rfl | rfl | rfl | rfl | rfl
        all_goals exact other (by decide)
      · exact other (by decide)
      · rcases hf with rfl | rfl | rfl
        all_goals exact other (by decide)
    rw [lanPortField, hnone, h0]
  · have hsome : fieldValue (recordFields r) (str "lan-port") = some (decimal r.lanPort.toNat) := by
      simp only [fieldValue, recordFields, if_neg h0, List.reverse_append, List.lookup_append]
      rfl
    have hpos : r.lanPort.toNat ≠ 0 := fun e => h0 (UInt16.toNat_inj.mp e)
    simp only [lanPortField, hsome, atoi_decimal (by omega : r.lanPort.toNat < 2 ^ 31)]
    rw [if_pos (by omega), Int.toNat_natCast, Nat.toUInt16, UInt16.ofNat_toNat]

theorem addresses_recordFields {r : ConnRecord}
    (h : ∀ a ∈ r.addresses, (parseAddressHint a).isSome = true) :
    ((recordFields r).filter fun f => f.1 = str "address" ∧ (parseAddressHint f.2).isSome).map (·.2) =
      r.addresses := by
  have none_of : ∀ {l : List (Bytes × Bytes)}, (∀ f ∈ l, f.1 ≠ str "address") →
      l.filter (fun f => f.1 = str "address" ∧ (parseAddressHint f.2).isSome) = [] := by
    intro l hl
    rw [List.filter_eq_nil_iff]
    intro f hf
    simp [hl f hf]
  have all : (r.addresses.map fun a => (str "address", a)).filter
      (fun f => f.1 = str "address" ∧ (parseAddressHint f.2).isSome) =
      r.addresses.map fun a => (str "address", a) := by
    rw [List.filter_eq_self]
    intro f hf
    obtain ⟨a, ha, rfl⟩ := List.mem_map.mp hf
    simp [h a ha]
  have hlast : ∀ f ∈ (if r.lanPort = 0 then [] else [(str "lan-port", decimal r.lanPort.toNat)]),
      f.1 ≠ str "address" := by
    intro f hf
    split at hf
    · cases hf
    · rw [List.mem_singleton.mp hf]
      exact (by decide : str "lan-port" ≠ str "address")
  rw [recordFields, List.filter_append, List.filter_append, List.filter_append, all,
    none_of (by simp only [List.forall_mem_cons]; decide), none_of hlast,
    none_of (by simp only [List.forall_mem_cons]; decide)]
  simp

/-- Every field reads back. -/
theorem parseRecord_writable {r : ConnRecord} (h : Writable r) :
    parseRecord (recordBody r) = some r := by
  have value : ∀ {k : String} {v : Bytes}, str k ∉ ["address", "relay", "lan-discovery",
      "remember-address", "lan-port"].map str → _ → fieldValue (recordFields r) (str k) = some v :=
    fun hk hv => (fieldValue_recordFields r hk).trans hv
  obtain ⟨hname, huid, hula, hpriv, hpub, hpeer⟩ := required_recordFields r
  have hside : fieldValue (recordFields r) (str "side") =
      some (if r.side then str "1" else str "0") := value (by decide) rfl
  have hprefix : fieldValue (recordFields r) (str "ula_prefix") =
      some (decimal r.ulaPrefix.toNat) := value (by decide) rfl
  have hcreated : fieldValue (recordFields r) (str "created") = some (signed r.createdUnix) :=
    value (by decide) rfl
  obtain ⟨hrelay, hlan, hremember⟩ := fieldValue_settings r
  have hsideEq : decide ((if r.side then str "1" else str "0") = str "1") = r.side := by
    cases r.side <;> decide
  have hprefixEq : (atoi (decimal r.ulaPrefix.toNat) % 256).toNat.toUInt8 = r.ulaPrefix := by
    have hlt := r.ulaPrefix.toNat_lt
    rw [atoi_decimal (by omega), Int.emod_eq_of_lt (by omega) (by omega), Int.toNat_natCast,
      Nat.toUInt8, UInt8.ofNat_toNat]
  simp only [parseRecord, fields_recordBody (oneLined_of_hinted h.name h.hinted), hname, huid, hula,
    hpriv, hpub, hpeer, hside, hprefix, hcreated, Option.getD_some, settingOn_onOff hrelay,
    settingOn_onOff hlan, settingOn_onOff hremember, lanPortField_recordFields,
    addresses_recordFields h.hinted, strtol_signed h.created, hprefixEq]
  rw [hsideEq]
  rfl

/-- The addresses of a record that was read all parse. -/
theorem hinted_of_parseRecord {body : Bytes} {r : ConnRecord} (h : parseRecord body = some r) :
    ∀ a ∈ r.addresses, (parseAddressHint a).isSome = true := by
  simp only [parseRecord] at h
  obtain ⟨name, -, h⟩ := Option.bind_eq_some_iff.mp h
  obtain ⟨uid, -, h⟩ := Option.bind_eq_some_iff.mp h
  obtain ⟨ula, -, h⟩ := Option.bind_eq_some_iff.mp h
  obtain ⟨priv, -, h⟩ := Option.bind_eq_some_iff.mp h
  obtain ⟨pub, -, h⟩ := Option.bind_eq_some_iff.mp h
  obtain ⟨peer, -, h⟩ := Option.bind_eq_some_iff.mp h
  cases h
  intro a ha
  obtain ⟨f, hf, rfl⟩ := List.mem_map.mp ha
  exact (of_decide_eq_true (List.mem_filter.mp hf).2).2

end Splice.Peer
