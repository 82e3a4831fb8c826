import StreamBridge.Lib.CString
import StreamBridge.Lib.Intervals

/-!
# StreamBridge.Types

The data of the four programs: `TimeInterval`, `User` and `Query` as the headers declare them. An
`int` is an `Int32`, a `char` array or `std::string` is a list of bytes, and an array of fixed
size is a `Vector`. The sockets, addresses and ports carry no data the functions read, except for
which of the two backends a message is for (`ServerId`).
-/

namespace StreamBridge

open CString Intervals

instance instLinearOrderInt32 : LinearOrder Int32 where
  le_refl := Int32.le_refl
  le_trans _ _ _ := Int32.le_trans
  le_antisymm _ _ := Int32.le_antisymm
  le_total := Int32.le_total
  lt_iff_le_not_ge a b := by
    rw [Int32.not_le]
    exact ⟨fun h => ⟨Int32.le_of_lt h, h⟩, fun h => h.2⟩
  toDecidableLE := inferInstance
  toDecidableEq := inferInstance
  toDecidableLT := inferInstance

abbrev TimeInterval := Intervals.Interval Int32

/-- A record of a backend; row `i` of `timeAva` holds `time_ava[i][0]` and `time_ava[i][1]`. -/
structure User where
  name : Bytes
  timeAva : Vector (Int32 × Int32) 10
  deriving DecidableEq

/-- `time_ava` with the given rows first and zeros after them. -/
def table (pairs : List (Int32 × Int32)) : Vector (Int32 × Int32) 10 :=
  Vector.ofFn fun i => pairs.getD i (0, 0)

structure Query where
  name : Bytes
  time : List TimeInterval
  deriving DecidableEq

/-- The `id` of a `Server`: the string `"A"` or `"B"`. -/
inductive ServerId where
  | A
  | B
  deriving DecidableEq

end StreamBridge
