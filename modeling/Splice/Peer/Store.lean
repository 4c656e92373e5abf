import Splice.Common.Base64
import Splice.Lib.FileSystem
import Splice.Peer.Record
import Mathlib.Data.List.Sort

/-!
The store of paired peers: `<dir>/<form>.conn` for the record of a peer and
`<dir>/pipes/<form>/<name form>` for its registrations, where a form is the sanitised
name. Every operation runs on the file system it is given and returns the one it
leaves; disk errors other than those of the directory tree do not happen. An error is
the text the operation reports.
-/

namespace Splice.Peer
open Lib Proto

structure Store where
  dir : Bytes

def isAlnum (c : UInt8) : Bool := (48 ≤ c && c ≤ 57) || (65 ≤ c && c ≤ 90) || (97 ≤ c && c ≤ 122)

/-- '-', '_' and '.' stay too. -/
def sanitizeByte (c : UInt8) : UInt8 :=
  if isAlnum c || c = 45 || c = 95 || c = 46 then c else 95

def sanitize (name : Bytes) : Bytes :=
  if name = [] then str "conn" else name.map sanitizeByte

/-! ## Records as text -/

def isDigit (c : UInt8) : Bool := 48 ≤ c && c ≤ 57

/-- '.', '-', '_', ':' and '%' besides letters and digits. -/
def isHostByte (c : UInt8) : Bool :=
  isAlnum c || c = 46 || c = 45 || c = 95 || c = 58 || c = 37

/-- Host and port text of a hint, before either is checked; `none` for an unbalanced or
trailing bracket. -/
def splitHint (h : Bytes) : Option (Bytes × Option Bytes) :=
  if h.head? = some 91 then
    match h.dropWhile (· ≠ 93) with
    | [] => none
    | [_] => some ((h.takeWhile (· ≠ 93)).drop 1, none)
    | _ :: c :: p => if c = 58 then some ((h.takeWhile (· ≠ 93)).drop 1, some p) else none
  else if h.count 58 = 1 then
    some (h.takeWhile (· ≠ 58), some ((h.dropWhile (· ≠ 58)).drop 1))
  else some (h, none)

def hintPort : Option Bytes → Option UInt16
  | none => some 0
  | some p =>
      if p = [] ∨ 5 < p.length ∨ p.all isDigit = false then none
      else
        let n := (strtoul 10 p).1
        if n < 1 ∨ 65535 < n then none else some n.toUInt16

/-- `parse_address_hint`: the host and the port, 0 when it gives none. -/
def parseAddressHint (hint : Bytes) : Option (Bytes × UInt16) :=
  match splitHint hint with
  | none => none
  | some (h, p) =>
      if h = [] ∨ 253 < h.length ∨ h.all isHostByte = false then none
      else (hintPort p).map fun port => (h, port)

/-- A line cut at its first ": ". -/
def splitField : Bytes → Option (Bytes × Bytes)
  | a :: b :: rest =>
      if a = 58 ∧ b = 32 then some ([], rest)
      else (splitField (b :: rest)).map fun kv => (a :: kv.1, kv.2)
  | [_] | [] => none

/-- The value of a key, the last one if it is repeated. -/
def fieldValue (kv : List (Bytes × Bytes)) (key : Bytes) : Option Bytes := kv.reverse.lookup key

def getB64 (n : Nat) (kv : List (Bytes × Bytes)) (key : Bytes) : Option (ByteArr n) :=
  match base64Decode ((fieldValue kv key).getD []) with
  | none => none
  | some d => if h : d.length = n then some ⟨d, h⟩ else none

/-- A setting is on unless its line says off. -/
def settingOn (kv : List (Bytes × Bytes)) (key : Bytes) : Bool :=
  fieldValue kv key ≠ some (str "off")

def lanPortField (kv : List (Bytes × Bytes)) : UInt16 :=
  match fieldValue kv (str "lan-port") with
  | none => 0
  | some v =>
      let n := atoi v
      if 0 < n ∧ n < 65536 then n.toNat.toUInt16 else 0

/-- The record in the lines of a `.conn` file. -/
def parseRecord (body : Bytes) : Option ConnRecord := do
  let kv := (lines body).filterMap splitField
  let text (key : String) : Bytes := (fieldValue kv (str key)).getD []
  let name ← fieldValue kv (str "name")
  let uid ← getB64 32 kv (str "uid")
  let ulaBase ← getB64 16 kv (str "ula_base")
  let ownPriv ← getB64 32 kv (str "own_priv")
  let ownPub ← getB64 32 kv (str "own_pub")
  let peerPub ← getB64 32 kv (str "peer_pub")
  return {
    name, uid, ulaBase, ownPriv, ownPub, peerPub
    side := text "side" = str "1"
    ulaPrefix := ((atoi (text "ula_prefix")) % 256).toNat.toUInt8
    createdUnix := strtol 10 (text "created")
    addresses := (kv.filter fun f => f.1 = str "address" ∧ (parseAddressHint f.2).isSome).map (·.2)
    useRelay := settingOn kv (str "relay")
    lanDiscovery := settingOn kv (str "lan-discovery")
    rememberAddress := settingOn kv (str "remember-address")
    lanPort := lanPortField kv }

def signed (n : Int) : Bytes := if n < 0 then 45 :: decimal n.natAbs else decimal n.natAbs

def onOff (b : Bool) : Bytes := if b then str "on" else str "off"

def recordFields (r : ConnRecord) : List (Bytes × Bytes) :=
  [(str "name", r.name), (str "uid", base64Encode r.uid.toList),
    (str "side", if r.side then str "1" else str "0"),
    (str "ula_base", base64Encode r.ulaBase.toList),
    (str "ula_prefix", decimal r.ulaPrefix.toNat),
    (str "own_priv", base64Encode r.ownPriv.toList),
    (str "own_pub", base64Encode r.ownPub.toList),
    (str "peer_pub", base64Encode r.peerPub.toList),
    (str "created", signed r.createdUnix)] ++
  r.addresses.map (fun a => (str "address", a)) ++
  [(str "relay", onOff r.useRelay), (str "lan-discovery", onOff r.lanDiscovery),
    (str "remember-address", onOff r.rememberAddress)] ++
  if r.lanPort = 0 then [] else [(str "lan-port", decimal r.lanPort.toNat)]

def recordBody (r : ConnRecord) : Bytes :=
  (recordFields r).flatMap fun f => f.1 ++ 58 :: 32 :: f.2 ++ [newline]

def pipeBody (r : PipeRecord) : Bytes :=
  r.type ++ newline :: decimal r.limit ++ newline :: r.args.flatMap fun a => a ++ [newline]

/-- What `load_pipe` makes of the lines of a registration's file. -/
def parsePipe (peer name body : Bytes) : Option PipeRecord :=
  match lines body with
  | [] => none
  | type :: rest =>
      if type = [] then none
      else some {
        peer, name, type
        limit := match rest with
          | [] => 0
          | l :: _ => (strtoul 10 l).1 % 2 ^ 32
        args := rest.drop 1 }

/-! ## Files -/

namespace Store
variable (st : Store) (fs : FileSystem)

/-- `dir + "/" + sanitize(name) + suffix`, the files kept beside a record included. -/
def peerPath (name : Bytes) (suffix : String) : Bytes :=
  st.dir ++ slash :: (sanitize name ++ str suffix)

def pipesDir (peer : Bytes) : Bytes := st.dir ++ slash :: (str "pipes" ++ slash :: sanitize peer)

def pipePath (peer name : Bytes) : Bytes := st.pipesDir peer ++ slash :: sanitize name

def save (r : ConnRecord) : FileSystem × Option Bytes :=
  let path := st.peerPath r.name ".conn"
  let tmp := path ++ str ".tmp"
  let fs := (fs.unlink tmp).getD fs
  match fs.openExcl tmp with
  | none => (fs, some (str "cannot create " ++ tmp))
  | some (fs, ino) =>
      let fs := fs.setData ino (recordBody r)
      match fs.rename tmp path with
      | none => ((fs.unlink tmp).getD fs, some (str "rename failed for " ++ path))
      | some fs => (fs, none)

def parseFile (path : Bytes) : Option ConnRecord := (fs.read path).bind parseRecord

def load (name : Bytes) : Option ConnRecord := parseFile fs (st.peerPath name ".conn")

def isConnFile (n : Name) : Bool := 5 < n.length && n.drop (n.length - 5) = str ".conn"

/-- The order of `readdir` is the file system's own: `rank` gives it. -/
def loadAll (rank : Name → Nat) : List ConnRecord :=
  let names := (fs.readdir st.dir).getD []
  ((names.insertionSort fun a b => rank a ≤ rank b).filter isConnFile).filterMap fun n =>
    parseFile fs (st.dir ++ slash :: n)

def exist (name : Bytes) : Bool := (fs.read (st.peerPath name ".conn")).isSome

def savePipe (r : PipeRecord) : FileSystem × Option Bytes :=
  let pdir := st.pipesDir r.peer
  match fs.mkdirsFrom true [] pdir with
  | (fs, false) => (fs, some (str "cannot create " ++ pdir))
  | (fs, true) =>
      let path := st.pipePath r.peer r.name
      match fs.openTrunc path with
      | none => (fs, some (str "cannot write " ++ path))
      | some (fs, ino) => (fs.setData ino (pipeBody r), none)

def loadPipe (peer name : Bytes) : Option PipeRecord :=
  (fs.read (st.pipePath peer name)).bind (parsePipe peer name)

/-- A file name `list_pipes` does not look at. -/
def hidden (n : Name) : Bool := n.head? = none || n.head? = some 46

/-- Sorted by name, as the entries of a directory are here. -/
def listPipes (peer : Bytes) : List PipeRecord :=
  (((fs.readdir (st.pipesDir peer)).getD []).filter fun n => !hidden n).filterMap fun n =>
    st.loadPipe fs peer n

def removePipe (peer name : Bytes) : Option FileSystem := fs.remove (st.pipePath peer name)

/-- Take a file away if it is there. -/
def discard (fs : FileSystem) (path : Bytes) : FileSystem := (fs.remove path).getD fs

/-- `none` when there is no record to remove. -/
def remove (name : Bytes) : Option FileSystem :=
  (fs.remove (st.peerPath name ".conn")).map fun fs =>
    let fs := discard fs (st.peerPath name ".seen")
    let fs := discard fs (st.peerPath name ".lanport")
    let fs := (st.listPipes fs name).foldl (fun fs p => (st.removePipe fs name p.name).getD fs) fs
    (fs.rmdir (st.pipesDir name)).getD fs

def rename (source target : Bytes) : FileSystem × Option Bytes :=
  match st.load fs source with
  | none => (fs, some (str "no connection named '" ++ source ++ str "'"))
  | some r =>
      let fromPath := st.peerPath source ".conn"
      let toPath := st.peerPath target ".conn"
      if fromPath ≠ toPath ∧ st.exist fs target then
        (fs, some (str "'" ++ target ++ str "' already exists"))
      else
        match st.save fs { r with name := target } with
        | (fs, some err) => (fs, some err)
        | (fs, none) =>
            if fromPath = toPath then (fs, none)
            else
              let move (fs : FileSystem) (old new : Bytes) := (fs.rename old new).getD fs
              let fs := discard fs fromPath
              let fs := move fs (st.peerPath source ".seen") (st.peerPath target ".seen")
              let fs := move fs (st.peerPath source ".lanport") (st.peerPath target ".lanport")
              (move fs (st.pipesDir source) (st.pipesDir target), none)

end Store
end Splice.Peer
