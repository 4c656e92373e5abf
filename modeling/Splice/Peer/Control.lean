import Splice.Lib.Text
import Splice.Peer.Daemon

/-!
The lines clients put on the control socket, and the tokens the daemon makes of them.
A client escapes every argument on its own; the daemon splits at white space and
unescapes each token. Vertical tab and form feed are white space that is not escaped,
an empty argument leaves no token, and LIST and REACH do not escape at all.
-/

namespace Splice.Peer
open Lib

def hexDigit (v : UInt8) : UInt8 := if v < 10 then 48 + v else 55 + v

def ctlEscaped (c : UInt8) : Bool := c = 37 || c = 32 || c = 10 || c = 13 || c = 9

def ctlEncodeByte (c : UInt8) : Bytes :=
  if ctlEscaped c then [37, hexDigit (c / 16), hexDigit (c % 16)] else [c]

def ctlEncode (s : Bytes) : Bytes := s.flatMap ctlEncodeByte

/-! ## Tokens -/

/-- The white space `ctl_encode` leaves as it is: vertical tab and form feed. -/
def isBreak (c : UInt8) : Bool := c = 11 || c = 12

theorem splitWs_eq (s : Bytes) : splitWs s = fields isSpace s := by
  apply List.filter_congr
  intro w _
  cases w <;> rfl

theorem tokens_append_blank (s t : Bytes) {b : UInt8} (h : isSpace b = true) :
    tokens (s ++ b :: t) = tokens s ++ tokens t := by
  simp only [tokens, splitWs_eq, fields_append_cons s t h, List.map_append]

@[simp] theorem tokens_nil : tokens [] = [] := rfl

theorem ctlDecode_cons {a : UInt8} (h : a ≠ 37) (s : Bytes) :
    ctlDecode (a :: s) = a :: ctlDecode s := by
  match s with
  | [] => rfl
  | [_] => rfl
  | _ :: _ :: _ => simp [ctlDecode, h]

theorem ctlDecode_ctlEncodeByte (c : UInt8) (s : Bytes) :
    ctlDecode (ctlEncodeByte c ++ s) = c :: ctlDecode s := by
  rw [ctlEncodeByte]
  split
  · rename_i hc
    simp only [ctlEscaped, Bool.or_eq_true, decide_eq_true_eq] at hc
    rcases hc with (((rfl | rfl) | rfl) | rfl) | rfl <;> rfl
  · rename_i hc
    apply ctlDecode_cons
    rintro rfl
    exact hc rfl

theorem ctlDecode_ctlEncode (s : Bytes) : ctlDecode (ctlEncode s) = s := by
  induction s with
  | nil => rfl
  | cons c s ih =>
      rw [ctlEncode, List.flatMap_cons, ctlDecode_ctlEncodeByte]
      exact congrArg (c :: ·) ih

theorem isSpace_ctlEncodeByte {c : UInt8} (hc : isBreak c = false) :
    ∀ b ∈ ctlEncodeByte c, isSpace b = false := by
  rw [ctlEncodeByte]
  split
  · rename_i he
    simp only [ctlEscaped, Bool.or_eq_true, decide_eq_true_eq] at he
    rcases he with (((rfl | rfl) | rfl) | rfl) | rfl <;>
      exact List.forall_mem_cons.mpr ⟨rfl, List.forall_mem_cons.mpr ⟨rfl,
        List.forall_mem_singleton.mpr rfl⟩⟩
  · rename_i he
    simp only [ctlEscaped, isBreak, Bool.or_eq_true, Bool.or_eq_false_iff, decide_eq_true_eq,
      decide_eq_false_iff_not, not_or] at he hc
    intro b hb
    rw [List.mem_singleton] at hb
    subst hb
    simp only [isSpace, Bool.or_eq_false_iff, Bool.and_eq_false_iff, decide_eq_false_iff_not,
      UInt8.le_iff_toNat_le, ← UInt8.toNat_inj] at *
    simp only [UInt8.reduceToNat] at *
    omega

/-- An escaped argument is heard as its runs between vertical tabs and form feeds. -/
theorem tokens_ctlEncode (s : Bytes) : tokens (ctlEncode s) = fields isBreak s := by
  have hsep : ∀ c, isBreak c = true → ∃ sep, isSpace sep = true ∧ ctlEncodeByte c = [sep] := by
    intro c hc
    simp only [isBreak, Bool.or_eq_true, decide_eq_true_eq] at hc
    rcases hc with rfl | rfl
    · exact ⟨11, rfl, rfl⟩
    · exact ⟨12, rfl, rfl⟩
  have hne : ∀ c, ctlEncodeByte c ≠ [] := by
    intro c
    rw [ctlEncodeByte]
    split <;> simp
  rw [tokens, splitWs_eq, ctlEncode, fields_flatMap hne hsep fun _ => isSpace_ctlEncodeByte,
    List.map_map]
  exact List.map_id'' ctlDecode_ctlEncode _

theorem newline_notMem_ctlEncode (s : Bytes) : newline ∉ ctlEncode s := by
  intro h
  obtain ⟨c, -, hc⟩ := List.mem_flatMap.mp h
  cases hb : isBreak c with
  | false => exact absurd (isSpace_ctlEncodeByte hb newline hc) (by decide)
  | true =>
      simp only [isBreak, Bool.or_eq_true, decide_eq_true_eq] at hb
      rcases hb with rfl | rfl <;> exact absurd hc (by decide)

/-! ## Client commands -/

/-- Words with a blank between them. -/
def spaced (ws : List Bytes) : Bytes := List.intercalate [32] ws

/-- Arguments escaped and joined; no blank goes before the first that is not empty. -/
def join (v : List Bytes) : Bytes :=
  v.foldl (fun s x => (if s = [] then [] else s ++ [32]) ++ ctlEncode x) []

/-- A command of the client program, by the strings it was given. -/
inductive ClientCmd
  | serve (peer name path : Bytes) (limit : Nat)
  | inbox (peer name dir : Bytes) (limit : Nat) (overwrite : Bool)
  | get (peer pipe target : Bytes) (overwrite background : Bool)
  | send (peer box path : Bytes) (background : Bool)
  | revshell (peer name : Bytes) (limit : Nat)
  | expose (peer name : Bytes) (limit : Nat) (pty : Bool) (cmd : List Bytes)
  /-- `run` and `shell` -/
  | attach (peer name expect : Bytes)
  | chat (name : Bytes) (leader : Bool)
  | drop (peer name : Bytes)
  | pipeRegister (a : List Bytes)
  | pipeUnregister (a : List Bytes)
  | pipeOpen (peer pipe : Bytes) (wait : Bool) (a : List Bytes)
  | pipeClose (a : List Bytes)
  | list (peer : Bytes)
  | reach (peer : Bytes)

namespace ClientCmd

def limitWords (limit : Nat) : List Bytes := if limit = 0 then [] else [str "LIMIT", decimal limit]

def flagWord (on : Bool) (w : String) : List Bytes := if on then [str w] else []

/-- What is written to the control socket, up to its newline. -/
def line : ClientCmd → Bytes
  | serve peer name path limit =>
      spaced ([str "REGISTER", ctlEncode peer, ctlEncode name] ++ limitWords limit ++
        [str "SHARE_FILE", ctlEncode path])
  | inbox peer name dir limit overwrite =>
      spaced ([str "REGISTER", ctlEncode peer, ctlEncode name] ++ limitWords limit ++
        [str "GET_FILE", ctlEncode dir] ++ flagWord overwrite "OVERWRITE")
  | get peer pipe target overwrite background =>
      spaced ([str "OPEN", ctlEncode peer, ctlEncode pipe] ++ flagWord (!background) "FOLLOW" ++
        [str "GET_FILE", ctlEncode target] ++ flagWord overwrite "OVERWRITE")
  | send peer box path background =>
      spaced ([str "OPEN", ctlEncode peer, ctlEncode box] ++ flagWord (!background) "FOLLOW" ++
        [str "SHARE_FILE", ctlEncode path])
  | revshell peer name limit =>
      spaced ([str "REGISTER", ctlEncode peer, ctlEncode name] ++ limitWords limit ++ [str "SHELL"])
  | expose peer name limit pty cmd =>
      spaced ([str "REGISTER", ctlEncode peer, ctlEncode name] ++ limitWords limit ++
        [str "EXEC"] ++ flagWord pty "PTY" ++ cmd.map ctlEncode)
  | attach peer name expect =>
      spaced [str "OPEN", ctlEncode peer, ctlEncode name, str "EXPECT", ctlEncode expect,
        str "PIPE"]
  | chat name leader =>
      if leader then
        spaced [str "REGISTER", ctlEncode name, str "chat", str "LIMIT", str "1", str "PIPE"]
      else
        spaced [str "OPEN", ctlEncode name, str "chat", str "WAIT", str "EXPECT", str "raw",
          str "PIPE"]
  | drop peer name => spaced [str "UNREGISTER", ctlEncode peer, ctlEncode name]
  | pipeRegister a => spaced [str "REGISTER", join a]
  | pipeUnregister a => spaced [str "UNREGISTER", join a]
  | pipeOpen peer pipe wait a =>
      if a = [] then spaced ([str "OPEN", join [peer, pipe]] ++ flagWord wait "WAIT" ++ [str "PIPE"])
      else spaced ([str "OPEN", ctlEncode peer, ctlEncode pipe] ++ flagWord wait "WAIT" ++ [join a])
  | pipeClose a => spaced [str "CLOSE", join a]
  | list peer => spaced [str "LIST", peer]
  | reach peer => spaced [str "REACH", peer]

/-- One thing a client means to say: a word of the protocol or a string it was given. -/
inductive Piece
  | word (w : Bytes)
  | arg (s : Bytes)
  /-- put on the line as it is -/
  | bare (s : Bytes)

def Piece.meaning : Piece → Bytes
  | word w | arg w | bare w => w

def pieces : ClientCmd → List Piece
  | serve peer name path limit =>
      [.word (str "REGISTER"), .arg peer, .arg name] ++ (limitWords limit).map .word ++
        [.word (str "SHARE_FILE"), .arg path]
  | inbox peer name dir limit overwrite =>
      [.word (str "REGISTER"), .arg peer, .arg name] ++ (limitWords limit).map .word ++
        [.word (str "GET_FILE"), .arg dir] ++ (flagWord overwrite "OVERWRITE").map .word
  | get peer pipe target overwrite background =>
      [.word (str "OPEN"), .arg peer, .arg pipe] ++ (flagWord (!background) "FOLLOW").map .word ++
        [.word (str "GET_FILE"), .arg target] ++ (flagWord overwrite "OVERWRITE").map .word
  | send peer box path background =>
      [.word (str "OPEN"), .arg peer, .arg box] ++ (flagWord (!background) "FOLLOW").map .word ++
        [.word (str "SHARE_FILE"), .arg path]
  | revshell peer name limit =>
      [.word (str "REGISTER"), .arg peer, .arg name] ++ (limitWords limit).map .word ++ [.word (str "SHELL")]
  | expose peer name limit pty cmd =>
      [.word (str "REGISTER"), .arg peer, .arg name] ++ (limitWords limit).map .word ++ [.word (str "EXEC")] ++
        (flagWord pty "PTY").map .word ++ cmd.map .arg
  | attach peer name expect =>
      [.word (str "OPEN"), .arg peer, .arg name, .word (str "EXPECT"), .arg expect,
        .word (str "PIPE")]
  | chat name leader =>
      if leader then
        [.word (str "REGISTER"), .arg name, .word (str "chat"), .word (str "LIMIT"),
          .word (str "1"), .word (str "PIPE")]
      else
        [.word (str "OPEN"), .arg name, .word (str "chat"), .word (str "WAIT"),
          .word (str "EXPECT"), .word (str "raw"), .word (str "PIPE")]
  | drop peer name => [.word (str "UNREGISTER"), .arg peer, .arg name]
  | pipeRegister a => .word (str "REGISTER") :: a.map .arg
  | pipeUnregister a => .word (str "UNREGISTER") :: a.map .arg
  | pipeOpen peer pipe wait a =>
      [.word (str "OPEN"), .arg peer, .arg pipe] ++ (flagWord wait "WAIT").map .word ++
        if a = [] then [.word (str "PIPE")] else a.map .arg
  | pipeClose a => .word (str "CLOSE") :: a.map .arg
  | list peer => [.word (str "LIST"), .bare peer]
  | reach peer => [.word (str "REACH"), .bare peer]

/-- The strings the client means, in order. -/
def meant (c : ClientCmd) : List Bytes := c.pieces.map Piece.meaning

/-! ## From pieces to tokens -/

def Piece.text : Piece → Bytes
  | word w | bare w => w
  | arg s => ctlEncode s

/-- A word that needs no escaping. -/
def Plain (w : Bytes) : Prop := w ≠ [] ∧ ∀ b ∈ w, isSpace b = false ∧ b ≠ 37

instance (w : Bytes) : Decidable (Plain w) := @instDecidableAnd _ _ _ (List.decidableBAll _ w)

def Piece.Encoded : Piece → Prop
  | word w => Plain w
  | arg _ => True
  | bare _ => False

theorem Plain.tokens_eq {w : Bytes} (h : Plain w) : tokens w = [w] := by
  have hdec : ctlDecode w = w := by
    obtain ⟨-, h⟩ := h
    induction w with
    | nil => rfl
    | cons b w ih =>
        rw [ctlDecode_cons (h b List.mem_cons_self).2,
          ih fun x hx => h x (List.mem_cons_of_mem b hx)]
  rw [tokens, splitWs_eq, fields_whole h.1 fun b hb => (h.2 b hb).1, List.map_singleton, hdec]

theorem Plain.newline_notMem {w : Bytes} (h : Plain w) : newline ∉ w :=
  fun hmem => absurd (h.2 newline hmem).1 (by decide)

theorem plain_decimal (n : Nat) : Plain (decimal n) := by
  constructor
  · obtain ⟨d, s, -, hs⟩ := decimal_head n
    simp [hs]
  · intro b hb
    obtain ⟨d, hd, rfl⟩ := mem_decimal hb
    interval_cases d <;> decide

theorem tokens_spaced (ws : List Bytes) : tokens (spaced ws) = ws.flatMap tokens := by
  induction ws with
  | nil => rfl
  | cons w ws ih =>
      cases ws with
      | nil => simp [spaced]
      | cons v ws =>
          rw [List.flatMap_cons, ← ih, ← tokens_append_blank w (spaced (v :: ws)) (b := 32) rfl]
          simp [spaced]

theorem newline_notMem_spaced {ws : List Bytes} (h : ∀ w ∈ ws, newline ∉ w) :
    newline ∉ spaced ws := by
  induction ws with
  | nil => simp [spaced]
  | cons w ws ih =>
      cases ws with
      | nil => simpa [spaced] using h
      | cons v ws =>
          have hrest := ih fun x hx => h x (List.mem_cons_of_mem w hx)
          have hw := h w List.mem_cons_self
          simp only [spaced, List.intercalate_cons_cons, List.mem_append, not_or] at hrest ⊢
          exact ⟨⟨hw, by decide⟩, hrest⟩

theorem tokens_join (v : List Bytes) : tokens (join v) = v.flatMap (tokens ∘ ctlEncode) := by
  suffices h : ∀ acc, tokens (v.foldl (fun s x =>
      (if s = [] then [] else s ++ [32]) ++ ctlEncode x) acc) =
      tokens acc ++ v.flatMap (tokens ∘ ctlEncode) from h []
  induction v with
  | nil => simp
  | cons x v ih =>
      intro acc
      rw [List.foldl_cons, ih, List.flatMap_cons, ← List.append_assoc]
      congr 1
      split
      · rename_i hacc
        simp [hacc]
      · rw [List.append_assoc, List.singleton_append, tokens_append_blank acc _ (b := 32) rfl]
        rfl

theorem newline_notMem_join (v : List Bytes) : newline ∉ join v := by
  suffices h : ∀ acc, newline ∉ acc → newline ∉ v.foldl (fun s x =>
      (if s = [] then [] else s ++ [32]) ++ ctlEncode x) acc from h [] (by simp)
  induction v with
  | nil => exact fun _ h => h
  | cons x v ih =>
      intro acc hacc
      apply ih
      have hx := newline_notMem_ctlEncode x
      dsimp only
      split
      · simpa using hx
      · simp only [List.mem_append, not_or]
        exact ⟨⟨hacc, by decide⟩, hx⟩

/-- Words that say the pieces when they are put on a line. -/
inductive Says : List Bytes → List Piece → Prop
  | nil : Says [] []
  | word {w ws ps} : Plain w → Says ws ps → Says (w :: ws) (.word w :: ps)
  | arg {s ws ps} : Says ws ps → Says (ctlEncode s :: ws) (.arg s :: ps)
  | args {v ws ps} : Says ws ps → Says (join v :: ws) (v.map .arg ++ ps)

namespace Says
variable {ws vs : List Bytes} {ps qs : List Piece}

theorem append (h : Says ws ps) (h' : Says vs qs) : Says (ws ++ vs) (ps ++ qs) := by
  induction h with
  | nil => exact h'
  | word hw _ ih => exact .word hw ih
  | arg _ ih => exact .arg ih
  | args _ ih =>
      rw [List.cons_append, List.append_assoc]
      exact .args ih

theorem head {verb : Bytes} (hv : Plain verb) (a b : Bytes) :
    Says [verb, ctlEncode a, ctlEncode b] [.word verb, .arg a, .arg b] :=
  .word hv (.arg (.arg nil))

theorem joined {verb : Bytes} (hv : Plain verb) (v : List Bytes) :
    Says [verb, join v] (.word verb :: v.map .arg) := by
  rw [← List.append_nil (v.map Piece.arg)]
  exact .word hv (.args nil)

theorem limit (n : Nat) : Says (limitWords n) ((limitWords n).map .word) := by
  rw [limitWords]
  split
  · exact nil
  · exact .word (by decide) (.word (plain_decimal n) nil)

theorem flag {w : String} (hw : Plain (str w)) (on : Bool) :
    Says (flagWord on w) ((flagWord on w).map .word) := by
  cases on with
  | false => exact nil
  | true => exact .word hw nil

theorem each (v : List Bytes) : Says (v.map ctlEncode) (v.map .arg) := by
  induction v with
  | nil => exact nil
  | cons x v ih => exact .arg ih

theorem encoded (h : Says ws ps) : ∀ p ∈ ps, p.Encoded := by
  induction h with
  | nil => simp
  | word hw _ ih => exact List.forall_mem_cons.mpr ⟨hw, ih⟩
  | arg _ ih => exact List.forall_mem_cons.mpr ⟨trivial, ih⟩
  | args _ ih =>
      intro p hp
      rcases List.mem_append.mp hp with hp | hp
      · obtain ⟨s, -, rfl⟩ := List.mem_map.mp hp
        trivial
      · exact ih p hp

theorem newline_notMem (h : Says ws ps) : newline ∉ spaced ws := by
  apply newline_notMem_spaced
  induction h with
  | nil => simp
  | word hw _ ih => exact List.forall_mem_cons.mpr ⟨hw.newline_notMem, ih⟩
  | arg _ ih => exact List.forall_mem_cons.mpr ⟨newline_notMem_ctlEncode _, ih⟩
  | args _ ih => exact List.forall_mem_cons.mpr ⟨newline_notMem_join _, ih⟩

theorem tokens_eq (h : Says ws ps) :
    tokens (spaced ws) = ps.flatMap fun p => tokens p.text := by
  rw [tokens_spaced]
  induction h with
  | nil => rfl
  | word _ _ ih => rw [List.flatMap_cons, List.flatMap_cons, ih]; rfl
  | arg _ ih => rw [List.flatMap_cons, List.flatMap_cons, ih]; rfl
  | args _ ih =>
      rw [List.flatMap_cons, List.flatMap_append, ih, tokens_join, List.flatMap_map]
      rfl

end Says

open Says in
/-- A command is words and escaped arguments only, except for LIST and REACH. -/
theorem line_cases (c : ClientCmd) :
    (∃ ws, c.line = spaced ws ∧ Says ws c.pieces) ∨
    ∃ w s, Plain w ∧ c.pieces = [.word w, .bare s] ∧ c.line = spaced [w, s] := by
  cases c with
  | list peer => exact .inr ⟨str "LIST", peer, by decide, rfl, rfl⟩
  | reach peer => exact .inr ⟨str "REACH", peer, by decide, rfl, rfl⟩
  | serve peer name path limit =>
      have hhead := head (by decide : Plain (str "REGISTER")) peer name
      exact .inl ⟨_, rfl, (hhead.append (.limit limit)).append (.word (by decide) (.arg .nil))⟩
  | inbox peer name dir limit overwrite =>
      have hhead := head (by decide : Plain (str "REGISTER")) peer name
      exact .inl ⟨_, rfl, ((hhead.append (.limit limit)).append
        (.word (by decide) (.arg .nil))).append (.flag (by decide) overwrite)⟩
  | get peer pipe target overwrite background =>
      have hhead := head (by decide : Plain (str "OPEN")) peer pipe
      exact .inl ⟨_, rfl, ((hhead.append (.flag (by decide) (!background))).append
        (.word (by decide) (.arg .nil))).append (.flag (by decide) overwrite)⟩
  | send peer box path background =>
      have hhead := head (by decide : Plain (str "OPEN")) peer box
      exact .inl ⟨_, rfl, (hhead.append (.flag (by decide) (!background))).append
        (.word (by decide) (.arg .nil))⟩
  | revshell peer name limit =>
      have hhead := head (by decide : Plain (str "REGISTER")) peer name
      exact .inl ⟨_, rfl, (hhead.append (.limit limit)).append (.word (by decide) .nil)⟩
  | expose peer name limit pty cmd =>
      have hhead := head (by decide : Plain (str "REGISTER")) peer name
      exact .inl ⟨_, rfl, (((hhead.append (.limit limit)).append (.word (by decide) .nil)).append
        (.flag (by decide) pty)).append (.each cmd)⟩
  | attach peer name expect =>
      exact .inl ⟨_, rfl, .word (by decide) (.arg (.arg (.word (by decide) (.arg
        (.word (by decide) .nil)))))⟩
  | chat name leader =>
      cases leader with
      | true =>
          exact .inl ⟨_, rfl, .word (by decide) (.arg (.word (by decide) (.word (by decide)
            (.word (by decide) (.word (by decide) .nil)))))⟩
      | false =>
          exact .inl ⟨_, rfl, .word (by decide) (.arg (.word (by decide) (.word (by decide)
            (.word (by decide) (.word (by decide) (.word (by decide) .nil))))))⟩
  | drop peer name => exact .inl ⟨_, rfl, head (by decide) peer name⟩
  | pipeRegister a => exact .inl ⟨_, rfl, joined (by decide) a⟩
  | pipeUnregister a => exact .inl ⟨_, rfl, joined (by decide) a⟩
  | pipeClose a => exact .inl ⟨_, rfl, joined (by decide) a⟩
  | pipeOpen peer pipe wait a =>
      have hwait := Says.flag (w := "WAIT") (by decide) wait
      left
      rw [line, pieces]
      split
      · have hhead := joined (by decide : Plain (str "OPEN")) [peer, pipe]
        exact ⟨_, rfl, (hhead.append hwait).append (.word (by decide) .nil)⟩
      · have hhead := head (by decide : Plain (str "OPEN")) peer pipe
        rw [← List.append_nil (a.map Piece.arg)]
        exact ⟨_, rfl, (hhead.append hwait).append (.args .nil)⟩

end ClientCmd

/-! ## What the daemon hears -/

/-- `on_ctl_readable` over the pieces `read` returns: the tokens `handle_cmd` works with, or
nothing when the client has gone, the line is too long or has not ended. -/
def heard (acc : Bytes) : List Bytes → Option (List Bytes)
  | [] => none
  | chunk :: rest =>
      if chunk = [] then none
      else if 4096 < (acc ++ chunk).length then none
      else if newline ∈ acc ++ chunk then
        some (tokens (firstLine (acc ++ chunk)))
      else heard (acc ++ chunk) rest

/-- A line is heard when its first newline comes within the limit, however it was cut. -/
theorem heard_eq_tokens {chunks : List Bytes} (hne : ∀ c ∈ chunks, c ≠ []) (acc : Bytes)
    (hacc : newline ∉ acc) (hnl : newline ∈ acc ++ chunks.flatten)
    (hlen : (acc ++ chunks.flatten).length ≤ 4096) :
    heard acc chunks = some (tokens (firstLine (acc ++ chunks.flatten))) := by
  induction chunks generalizing acc with
  | nil => exact absurd (by simpa using hnl) hacc
  | cons c rest ih =>
      rw [List.flatten_cons, ← List.append_assoc] at hnl hlen ⊢
      have hc : ¬ 4096 < (acc ++ c).length := by
        rw [List.length_append] at hlen
        omega
      rw [heard, if_neg (hne c List.mem_cons_self), if_neg hc]
      split
      · rename_i hin
        rw [firstLine_append_of_mem hin]
      · rename_i hout
        exact ih (fun x hx => hne x (List.mem_cons_of_mem c hx)) _ hout hnl hlen

/-- Whatever is heard is the first line, and it came within the limit. -/
theorem heard_eq_some {chunks : List Bytes} {acc : Bytes} {ts : List Bytes}
    (h : heard acc chunks = some ts) :
    ts = tokens (firstLine (acc ++ chunks.flatten)) ∧
      ∃ pre, pre <+: acc ++ chunks.flatten ∧ newline ∈ pre ∧ pre.length ≤ 4096 := by
  induction chunks generalizing acc with
  | nil => simp [heard] at h
  | cons c rest ih =>
      rw [List.flatten_cons, ← List.append_assoc]
      simp only [heard] at h
      split at h
      · cases h
      · split at h
        · cases h
        · rename_i hlen
          split at h
          · rename_i hin
            cases h
            refine ⟨by rw [firstLine_append_of_mem hin], acc ++ c, ?_, hin, by omega⟩
            exact List.prefix_append _ _
          · exact ih h

/-! ## Arguments that survive -/

theorem ctlDecode_length_le (s : Bytes) : (ctlDecode s).length ≤ s.length := by
  fun_induction ctlDecode s with
  | case1 => exact Nat.le_refl _
  | case2 => exact Nat.le_refl _
  | case3 => exact Nat.le_refl _
  | case4 a b c rest _ _ _ _ ih => simp only [List.length_cons] at ih ⊢; omega
  | case5 a b c rest _ ih => simpa using ih

/-- No escape sequence anywhere. -/
def Unescaped (s : Bytes) : Prop :=
  ∀ h l, (hexValue h).isSome → (hexValue l).isSome → ¬ [37, h, l] <:+: s

/-- Decoding leaves a text alone exactly when it has no escape sequence. -/
theorem ctlDecode_eq_self_iff (s : Bytes) : ctlDecode s = s ↔ Unescaped s := by
  fun_induction ctlDecode s with
  | case1 => simp [Unescaped]
  | case2 a => simp [Unescaped, List.infix_cons_iff]
  | case3 a b => simp [Unescaped, List.infix_cons_iff]
  | case4 a b c rest hi lo hc hb ih =>
      -- a sequence in front makes the text shorter
      split at hb
      · rename_i ha
        subst ha
        constructor
        · intro heq
          have hlen := congrArg List.length heq
          have hle := ctlDecode_length_le rest
          simp only [List.length_cons] at hlen
          omega
        · intro hno
          exact absurd (List.prefix_append [37, b, c] rest).isInfix
            (hno b c (by simp [hb]) (by simp [hc]))
      · cases hb
  | case5 a b c rest hno ih =>
      rw [List.cons.injEq, and_iff_right rfl, ih]
      constructor
      · intro h x y hx hy hin
        rcases List.infix_cons_iff.mp hin with hpre | hin
        · obtain ⟨t, ht⟩ := hpre
          simp only [List.cons_append, List.nil_append, List.cons.injEq] at ht
          obtain ⟨rfl, rfl, rfl, -⟩ := ht
          obtain ⟨u, hu⟩ := Option.isSome_iff_exists.mp hx
          obtain ⟨v, hv⟩ := Option.isSome_iff_exists.mp hy
          exact hno u v (by rw [if_pos rfl, hu]) hv
        · exact h x y hx hy hin
      · intro h x y hx hy hin
        exact h x y hx hy (List.infix_cons hin)

namespace ClientCmd

/-- What a piece must be to reach the daemon as the string it is. -/
def Piece.Survives : Piece → Prop
  | word _ => True
  | arg s => s ≠ [] ∧ 11 ∉ s ∧ 12 ∉ s
  | bare s => s ≠ [] ∧ (∀ b ∈ s, isSpace b = false) ∧ Unescaped s

theorem isBreak_eq_false_iff {s : Bytes} :
    (∀ b ∈ s, isBreak b = false) ↔ 11 ∉ s ∧ 12 ∉ s := by
  constructor
  · intro h
    exact ⟨fun hb => absurd (h 11 hb) (by decide), fun hb => absurd (h 12 hb) (by decide)⟩
  · rintro ⟨h₁, h₂⟩ b hb
    simp only [isBreak, Bool.or_eq_false_iff, decide_eq_false_iff_not]
    exact ⟨fun e => h₁ (e ▸ hb), fun e => h₂ (e ▸ hb)⟩

/-- The tokens of words and escaped arguments are never empty and hold no break. -/
theorem Piece.Encoded.tokens {p : Piece} (hp : p.Encoded) {t : Bytes}
    (ht : t ∈ tokens p.text) : t ≠ [] ∧ 11 ∉ t ∧ 12 ∉ t := by
  cases p with
  | bare _ => exact hp.elim
  | arg s =>
      rw [Piece.text, tokens_ctlEncode] at ht
      exact ⟨(mem_fields ht).2.2, isBreak_eq_false_iff.mp (mem_fields ht).2.1⟩
  | word w =>
      rw [Piece.text, Plain.tokens_eq hp, List.mem_singleton] at ht
      subst ht
      refine ⟨hp.1, fun hb => ?_, fun hb => ?_⟩
      · exact absurd (hp.2 11 hb).1 (by decide)
      · exact absurd (hp.2 12 hb).1 (by decide)

theorem Says.meant_iff {ws : List Bytes} {ps : List Piece} (h : Says ws ps) :
    tokens (spaced ws) = ps.map Piece.meaning ↔ ∀ p ∈ ps, p.Survives := by
  rw [h.tokens_eq]
  constructor
  · intro heq p hp
    have hmem : p.meaning ∈ ps.flatMap fun p => tokens p.text :=
      heq ▸ List.mem_map_of_mem hp
    obtain ⟨q, hq, ht⟩ := List.mem_flatMap.mp hmem
    have hgood := (h.encoded q hq).tokens ht
    cases p with
    | word _ => trivial
    | arg s => exact hgood
    | bare s => exact (h.encoded _ hp).elim
  · intro hall
    have hone : ∀ p ∈ ps, tokens p.text = [p.meaning] := by
      intro p hp
      have henc := h.encoded p hp
      cases p with
      | word w => exact Plain.tokens_eq henc
      | bare s => exact henc.elim
      | arg s =>
          have hs := hall _ hp
          rw [Piece.text, tokens_ctlEncode,
            fields_whole hs.1 (isBreak_eq_false_iff.mpr hs.2)]
          rfl
    rw [List.flatMap_congr hone, List.map_eq_flatMap]

/-- A string that is not escaped is heard as itself when it is one token as it stands. -/
theorem tokens_bare_iff (s : Bytes) :
    tokens (firstLine s) = [s] ↔ (Piece.bare s).Survives := by
  constructor
  · intro h
    obtain ⟨w, hw, hdec⟩ := List.mem_map.mp (h ▸ List.mem_singleton_self s : s ∈ tokens _)
    rw [splitWs_eq] at hw
    obtain ⟨hin, hblank, hne⟩ := mem_fields hw
    -- nothing on the way makes text longer, so nothing was lost
    have hlen : w.length = (firstLine s).length ∧ (firstLine s).length = s.length := by
      have h₁ := hin.length_le
      have h₂ := firstLine_length_le s
      have h₃ := ctlDecode_length_le w
      rw [hdec] at h₃
      omega
    have hfirst : firstLine s = s := (List.takeWhile_prefix _).eq_of_length hlen.2
    have hws : w = s := (hin.eq_of_length hlen.1).trans hfirst
    rw [hws] at hne hblank hdec
    exact ⟨hne, hblank, (ctlDecode_eq_self_iff s).mp hdec⟩
  · rintro ⟨hne, hblank, hesc⟩
    have hnl : newline ∉ s := fun hmem => absurd (hblank newline hmem) (by decide)
    rw [firstLine_of_notMem hnl, tokens, splitWs_eq, fields_whole hne hblank, List.map_singleton,
      (ctlDecode_eq_self_iff s).mpr hesc]

theorem tokens_line_iff (c : ClientCmd) :
    tokens (firstLine c.line) = c.meant ↔ ∀ p ∈ c.pieces, p.Survives := by
  rcases c.line_cases with ⟨ws, hline, hsays⟩ | ⟨w, s, hw, hpieces, hline⟩
  · rw [hline, firstLine_of_notMem hsays.newline_notMem]
    exact hsays.meant_iff
  · have htext : firstLine c.line = w ++ 32 :: firstLine s := by
      have hnl : newline ∉ w ++ [32] := by
        simp only [List.mem_append, not_or]
        exact ⟨hw.newline_notMem, by decide⟩
      rw [hline, show spaced [w, s] = (w ++ [32]) ++ s by simp [spaced], firstLine_append hnl,
        List.append_assoc]
      rfl
    rw [htext, tokens_append_blank _ _ (by decide), hw.tokens_eq, meant, hpieces]
    simp only [List.map_cons, List.map_nil, Piece.meaning, List.singleton_append, List.cons.injEq,
      true_and, tokens_bare_iff, List.forall_mem_cons, Piece.Survives, List.not_mem_nil,
      false_implies, implies_true, and_true]

theorem newline_notMem_line {c : ClientCmd} (h : ∀ p ∈ c.pieces, p.Survives) :
    newline ∉ c.line := by
  rcases c.line_cases with ⟨ws, hline, hsays⟩ | ⟨w, s, hw, hpieces, hline⟩
  · exact hline ▸ hsays.newline_notMem
  · have hs : (Piece.bare s).Survives := h _ (by simp [hpieces])
    rw [hline]
    apply newline_notMem_spaced
    simp only [List.forall_mem_cons, List.not_mem_nil, false_implies, implies_true, and_true]
    exact ⟨hw.newline_notMem, fun hmem => absurd (hs.2.1 newline hmem) (by decide)⟩

/-- However the line is cut on its way, `handle_cmd` works with the strings that were meant
exactly when every piece survives and the line is not too long. -/
theorem heard_meant_iff (c : ClientCmd) {chunks : List Bytes} (hne : ∀ x ∈ chunks, x ≠ [])
    (hcut : chunks.flatten = c.line ++ [newline]) :
    heard [] chunks = some c.meant ↔ (∀ p ∈ c.pieces, p.Survives) ∧ c.line.length < 4096 := by
  have hfirst : firstLine chunks.flatten = firstLine c.line := by
    rw [hcut, firstLine_append_newline]
  constructor
  · intro h
    obtain ⟨hts, pre, hpre, hnl, hlen⟩ := heard_eq_some h
    rw [List.nil_append] at hts hpre
    have hall := (tokens_line_iff c).mp (hfirst ▸ hts.symm)
    refine ⟨hall, ?_⟩
    by_contra hlong
    apply newline_notMem_line hall
    have hshort : pre.length ≤ c.line.length := by omega
    exact (List.prefix_of_prefix_length_le (hcut ▸ hpre) (List.prefix_append _ _) hshort).mem hnl
  · rintro ⟨hall, hlen⟩
    have hheard := heard_eq_tokens hne [] (by simp) (by simp [hcut])
      (by simp [hcut]; omega)
    rw [hheard, List.nil_append, hfirst, (tokens_line_iff c).mpr hall]

/-- A path with a blank in it, sent in two parts. -/
theorem heard_meant_serve :
    let c := serve (str "bob") (str "docs") (str "/my docs") 3
    heard [] [c.line.take 20, c.line.drop 20 ++ [newline]] = some c.meant :=
  (heard_meant_iff _ (by decide) (by decide)).mpr
    ⟨by
      simp only [pieces, limitWords, List.map_cons, List.map_nil, List.cons_append,
        List.nil_append, List.forall_mem_cons, Piece.Survives, if_neg (by decide : ¬ 3 = 0),
        List.not_mem_nil, false_implies, implies_true, and_true]
      decide, by decide⟩

/-- An empty argument, one with a vertical tab and a peer name with a blank. -/
theorem arguments_lost :
    (let c := expose (str "bob") (str "sh") 0 false [str "sh", []]
     heard [] [c.line ++ [newline]] ≠ some c.meant) ∧
    (let c := serve (str "bob") (str "docs") [47, 97, 11, 98] 0
     heard [] [c.line ++ [newline]] ≠ some c.meant) ∧
    (let c := list (str "my laptop")
     heard [] [c.line ++ [newline]] ≠ some c.meant) := by
  decide

end ClientCmd

end Splice.Peer
