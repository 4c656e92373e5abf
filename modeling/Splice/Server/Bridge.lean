import Mathlib.Logic.Function.Basic
import Splice.Proto.Frame

/-!
What the server does between two paired connections: one frame from the side whose turn it is
to the other, the leader first, and then the other way round.
-/

namespace Splice.Server
open Proto

/-- The follower is `true`. -/
structure Bridge where
  turn : Bool := false
  /-- frames a side has written and the bridge has not read -/
  up : Bool → List Bytes := fun _ => []
  /-- frames the bridge has written to a side and the side has not read -/
  down : Bool → List Bytes := fun _ => []
  closed : Bool := false

namespace Bridge

def write (b : Bridge) (side : Bool) (frames : List Bytes) : Bridge :=
  { b with up := Function.update b.up side (b.up side ++ frames) }

/-- One turn; `none` while the read blocks. A frame that is too long ends the bridge. -/
def forward (b : Bridge) : Option Bridge :=
  if b.closed then none
  else match b.up b.turn with
    | [] => none
    | f :: rest =>
        if kMaxFrameLen < f.length then some { b with closed := true }
        else some { b with
          turn := !b.turn
          up := Function.update b.up b.turn rest
          down := Function.update b.down (!b.turn) (b.down (!b.turn) ++ [f]) }

def read (b : Bridge) (side : Bool) : Option (Bytes × Bridge) :=
  match b.down side with
  | [] => none
  | f :: rest => some (f, { b with down := Function.update b.down side rest })

/-- Nothing on the way, and a side's turn. -/
def idle (turn : Bool) : Bridge where turn := turn

/-- One frame of a side on the way, before or after the bridge has passed it on. -/
def carrying (side passed : Bool) (f : Bytes) : Bridge :=
  if passed then { turn := !side, down := fun dst => if dst = !side then [f] else [] }
  else { turn := side, up := fun src => if src = side then [f] else [] }

theorem write_idle (side : Bool) (f : Bytes) :
    (idle side).write side [f] = carrying side false f := by
  simp only [write, idle, carrying, Bool.false_eq_true, if_false, List.nil_append]
  congr 1
  funext src
  by_cases own : src = side <;> simp [own]

theorem write_none (b : Bridge) (side : Bool) : b.write side [] = b := by
  simp [write]

theorem forward_idle (turn : Bool) : (idle turn).forward = none := rfl

theorem forward_carrying {side : Bool} {f : Bytes} (fits : f.length ≤ kMaxFrameLen) :
    (carrying side false f).forward = some (carrying side true f) := by
  simp only [forward, carrying, Bool.false_eq_true, if_false, if_true, if_neg (Nat.not_lt.mpr fits),
    List.nil_append, Option.some.injEq]
  congr 1
  · funext src
    by_cases own : src = side <;> simp [own]
  · funext dst
    by_cases other : dst = !side <;> simp [other]

theorem forward_passed (side : Bool) (f : Bytes) : (carrying side true f).forward = none := by
  cases side <;> rfl

theorem read_unpassed (side dst : Bool) (f : Bytes) : (carrying side false f).read dst = none := by
  cases side <;> rfl

theorem read_own (side : Bool) (f : Bytes) : (carrying side true f).read side = none := by
  cases side <;> rfl

theorem read_carrying (side : Bool) (f : Bytes) :
    (carrying side true f).read (!side) = some (f, idle (!side)) := by
  simp only [read, carrying, if_true, Option.some.injEq, Prod.mk.injEq, true_and]
  simp only [idle]
  congr 1
  funext dst
  by_cases other : dst = !side <;> simp [other]

end Bridge
end Splice.Server
