import Splice.Common.Bytes
import Splice.Lib.FileSystem
import Mathlib.Data.List.Sort
import Std.Data.ExtTreeMap

/-!
Daemon-owned pipe ends: how one is made from a registration's type and arguments, and
the kind it announces. The files of the user are behind `SourceFs`, what `stat`,
`readdir` and reading answer at one moment; nothing here writes to them.
-/

namespace Splice.Peer
open Lib

/-- `stat` of a path longer than this fails. -/
def pathMax : Nat := 4096

inductive Stat
  | dir
  | reg (size : Nat)
  | other
  deriving DecidableEq

structure SourceFs where
  stat : Bytes → Option Stat
  /-- the names `readdir` returns, "." and ".." left out; `none` when it cannot be opened -/
  readdir : Bytes → Option (List Name)
  /-- `none` when it cannot be opened -/
  content : Bytes → Option Bytes
  stat_short : ∀ {p : Bytes} {s : Stat}, stat p = some s → p.length < pathMax
  size_content : ∀ {p : Bytes} {n : Nat} {b : Bytes},
    stat p = some (.reg n) → content p = some b → b.length = n
  size_lt : ∀ {p : Bytes} {n : Nat}, stat p = some (.reg n) → n < 2 ^ 63
  names_plain : ∀ {p : Bytes} {l : List Name}, readdir p = some l → ∀ n ∈ l, Plain n ∧ 0 ∉ n
  names_nodup : ∀ {p : Bytes} {l : List Name}, readdir p = some l → l.Nodup
  /-- a file's path does not end in a slash, in "." or in ".." -/
  reg_plain : ∀ {p : Bytes} {n : Nat}, stat p = some (.reg n) →
    ∃ c, (comps p).getLast? = some c ∧ Plain c

/-- One file to send. -/
structure Entry where
  relpath : Bytes
  abspath : Bytes
  size : Nat
  deriving DecidableEq

/-- What follows the last '/'. -/
def basenameOf (p : Bytes) : Bytes := ((comps p).getLast?).getD p

namespace SourceFs
variable (src : SourceFs)

def sortedNames (dir : Bytes) : List Name :=
  ((src.readdir dir).getD []).insertionSort fun a b => (compare a b).isLE

/-- `walk`: the files below `dir` in the order they are sent. Every level makes the path
longer and `stat` refuses a path of `pathMax`, so `pathMax` levels are enough. -/
def walk : Nat → Bytes → Bytes → List Entry
  | 0, _, _ => []
  | fuel + 1, dir, pre =>
      (src.sortedNames dir).flatMap fun n =>
        let ap := dir ++ slash :: n
        let rp := pre ++ slash :: n
        match src.stat ap with
        | some .dir => walk fuel ap rp
        | some (.reg size) => [{ relpath := rp, abspath := ap, size }]
        | some .other | none => []

/-- The entries `ShareFileEnd::open` sets out to send, or why it refuses. -/
def shareEntries (path : Bytes) : Except Bytes (List Entry) :=
  let entries : Except Bytes (List Entry) :=
    match src.stat path with
    | none => .error (str "cannot read '" ++ path ++ str "'")
    | some .dir => .ok (src.walk pathMax path (basenameOf path))
    | some (.reg size) => .ok [{ relpath := basenameOf path, abspath := path, size }]
    | some .other => .error (str "'" ++ path ++ str "' is not a regular file or directory")
  match entries with
  | .error e => .error e
  | .ok [] => .error (str "'" ++ path ++ str "' has no files to share")
  | .ok l => .ok l

end SourceFs

/-! ## Kinds -/

def execHasPty (type : Bytes) (args : List Bytes) : Bool :=
  type = str "SHELL" || (type = str "EXEC" && args.head? = some (str "PTY"))

def offerKind (type : Bytes) (args : List Bytes) : Bytes :=
  if type = str "SHARE_FILE" then str "file/1 send"
  else if type = str "GET_FILE" then str "file/1 recv"
  else if type = str "SHELL" ∨ type = str "EXEC" then
    if execHasPty type args then str "exec/1 pty" else str "exec/1"
  else str "raw"

def localExpects (type : Bytes) : Bytes :=
  if type = str "GET_FILE" then str "file/1 send"
  else if type = str "SHARE_FILE" then str "file/1 recv"
  else []

/-- The words between blanks. -/
def words (s : Bytes) : List Bytes := (s.splitOn 32).filter (· ≠ [])

def kindMatches (remote expect : Bytes) : Bool :=
  if remote = [] ∨ expect = [] then true
  else match words remote, words expect with
    | r :: rs, e :: es => r = e && es.all fun w => rs.contains w
    | _, _ => false

/-- Anything outside printable ASCII becomes '?'. -/
def printable (s : Bytes) : Bytes := s.map fun c => if c < 0x20 ∨ 0x7e < c then 63 else c

def kindLabel (kind : Bytes) : Bytes :=
  if kind = [] then str "unknown (an older spl)"
  else if kindMatches kind (str "file/1 send") then str "sends files"
  else if kindMatches kind (str "file/1 recv") then str "receives files"
  else if kindMatches kind (str "exec/1 pty") then str "a program on a terminal"
  else if kindMatches kind (str "exec/1") then str "runs a command"
  else if kind = str "raw" then str "a raw pipe"
  else kind

/-- The command to use an offer with, if there is one. -/
def kindUsage (kind peer name : Bytes) : Bytes :=
  let named (usual : String) := if name = str usual then [] else str " --name " ++ name
  if kind = [] then []
  else if kindMatches kind (str "file/1 send") then str "spl get " ++ peer ++ 32 :: name
  else if kindMatches kind (str "file/1 recv") then
    str "spl send " ++ peer ++ str " <path>" ++ named "inbox"
  else if kindMatches kind (str "exec/1 pty") then str "spl shell " ++ peer ++ named "shell"
  else if kindMatches kind (str "exec/1") then str "spl run " ++ peer ++ 32 :: name
  else if kind = str "raw" then
    if name = str "chat" then str "spl chat " ++ peer else str "spl pipe open " ++ peer ++ 32 :: name
  else []

/-! ## Making an end -/

/-- The ends a daemon runs itself; `list` collects the reply of a meta request. -/
inductive LocalEnd
  | echo
  | shareFile (entries : List Entry)
  | getFile (target : Bytes) (overwrite : Bool)
  | shell
  | exec (argv : List Bytes) (pty : Bool)
  | list (fd : Int)
  deriving DecidableEq

def makeExecEnd (type : Bytes) (args : List Bytes) : Except Bytes LocalEnd :=
  if type = str "SHELL" then
    if args = [] then .ok .shell else .error (str "SHELL takes no arguments")
  else
    let pty := execHasPty type args
    let argv := args.drop (if pty then 1 else 0)
    if argv = [] ∨ argv.head? = some [] then
      .error (str "usage: EXEC [PTY] <program> [args...]")
    else .ok (.exec argv pty)

def makeLocalEnd (src : SourceFs) (type : Bytes) (args : List Bytes) : Except Bytes LocalEnd :=
  if type = str "ECHO" then
    if args = [] then .ok .echo else .error (str "ECHO takes no arguments")
  else if type = str "SHARE_FILE" then
    match args with
    | [path] => (src.shareEntries path).map .shareFile
    | _ => .error (str "usage: SHARE_FILE <path>")
  else if type = str "GET_FILE" then
    match args with
    | [target] => .ok (.getFile target false)
    | [target, flag] =>
        if flag = str "OVERWRITE" then .ok (.getFile target true)
        else .error (str "usage: GET_FILE <target> [OVERWRITE]")
    | _ => .error (str "usage: GET_FILE <target> [OVERWRITE]")
  else if type = str "SHELL" ∨ type = str "EXEC" then makeExecEnd type args
  else .error (str "unknown pipe type '" ++ type ++ str "'")

end Splice.Peer
