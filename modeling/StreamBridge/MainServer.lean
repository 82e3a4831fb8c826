import StreamBridge.Names
import StreamBridge.Wire

/-!
# StreamBridge.MainServer

The main server: `serverM.h`, and one pass of the loop of `serverM.cpp` (`loopBody`) as a function
of the bytes `recv` returned and of the two datagrams `getResult` consumes. A call of a socket
function appears as its bytes: what `recv` and `recvfrom` returned is an argument, what is sent
is a result.

`recvfrom` keeps the first 1024 bytes of a datagram. `none` is undefined behaviour: `strlen` or
`strtok` past the end of a buffer, a `strcpy` that does not fit, a NULL token.
-/

namespace StreamBridge

open CString Intervals

/-- The globals of the main server that outlive one pass of its loop. -/
structure MainServer where
  serverA : List Bytes
  serverB : List Bytes
  requestA : List Bytes
  requestB : List Bytes
  noExist : List Bytes
  deriving DecidableEq

namespace MainServer

/-- `boot_up`: the first datagram is taken for server A's list, the second for server B's. -/
def bootUp (first second : Bytes) : Option MainServer := do
  let listA ← getList first
  let listB ← getList second
  some ⟨listA, listB, [], [], []⟩

def recvList (received : Bytes) : Option (List Bytes) := do
  let recv_buf := zeroFill 1024 received
  let str ← cstr recv_buf
  if str.length = 0 then some [] else getVector str

/-- `checkIfdata`, which also appends a found name to the request list of its server. -/
def checkIfdata (s : MainServer) (end_server : ServerId) (str : Bytes) : Bool × MainServer :=
  match end_server with
  | .A => if str ∈ s.serverA then (true, { s with requestA := s.requestA ++ [str] }) else (false, s)
  | .B => if str ∈ s.serverB then (true, { s with requestB := s.requestB ++ [str] }) else (false, s)

/-- One pass of the loop of `examineList`. -/
def examineName (s : MainServer) (name : Bytes) : MainServer :=
  match s.checkIfdata .A name with
  | (true, s) => s
  | (false, s) =>
    match s.checkIfdata .B name with
    | (true, s) => s
    | (false, s) => { s with noExist := s.noExist ++ [name] }

def examineList (s : MainServer) (list : List Bytes) : MainServer := list.foldl examineName s

def replyClient (list : List Bytes) : Option Bytes :=
  if list.length = 0 then do
    let no ← strcpy 1024 []
    some (zeroFill 1024 no)
  else do
    let str ← strcpy 1024 (getNameStr list)
    some (zeroFill 1024 str)

def requestList (s : MainServer) : ServerId → List Bytes
  | .A => s.requestA
  | .B => s.requestB

/-- `requestEndServer`: the datagram sent to the server, and the globals after it. An empty
request list also clears `no_exist`. -/
def requestEndServer (s : MainServer) (end_server : ServerId) : Bytes × MainServer :=
  (getNameStr (s.requestList end_server),
    if (s.requestList end_server).length = 0 then { s with noExist := [] } else s)

/-- `getResult` on the datagram that `recvfrom` consumed. -/
def getResult (datagram : Bytes) : List TimeInterval :=
  let received := datagram.take 1024
  if received.length = 0 then [] else deserialize (zeroFill 1024 received)

def getIntersection (timelist_1 timelist_2 : List TimeInterval) : List TimeInterval :=
  timelist_1.flatMap fun t1 =>
    timelist_2.flatMap fun t2 =>
      let overlap_start := max t1.start t2.start
      let overlap_end := min t1.end t2.end
      if overlap_end > overlap_start then [⟨overlap_start, overlap_end⟩] else []

/-- `result_final` of `main`, in its four cases of empty and non-empty partial results. -/
def resultFinal (result_1 result_2 : List TimeInterval) : List TimeInterval :=
  if result_1.isEmpty && result_2.isEmpty then []
  else if result_1.isEmpty then result_2
  else if result_2.isEmpty then result_1
  else getIntersection result_1 result_2

/-- `replyResult`: the bytes sent, 1024 zero bytes for no result. -/
def replyResult (time_list : List TimeInterval) : Option Bytes :=
  if time_list.length = 0 then do
    let a ← strcpy 1024 []
    some (zeroFill 1024 a)
  else some (serialize time_list)

/-- The globals at the end of a pass: `continue` on two empty results skips the three `clear`. -/
def endRound (s : MainServer) (result_1 result_2 : List TimeInterval) : MainServer :=
  if result_1.isEmpty && result_2.isEmpty then s
  else { s with requestA := [], requestB := [], noExist := [] }

/-- What a pass that serves a request sends, and the `result_final` it computes. -/
structure Round where
  noExistMsg : Bytes
  toA : Bytes
  toB : Bytes
  final : List TimeInterval
  resultMsg : Bytes
  deriving DecidableEq

/-- The loop from its head to the two `getResult` calls: the `no_exist` message, the two request
datagrams and the globals while waiting. -/
def serveRequest (s : MainServer) (client_list : List Bytes) :
    Option (Bytes × Bytes × Bytes × MainServer) := do
  let s := s.examineList client_list
  let noExistMsg ← replyClient s.noExist
  let (toA, s) := s.requestEndServer .A
  let (toB, s) := s.requestEndServer .B
  some (noExistMsg, toA, toB, s)

/-- `no_exist.clear()` at the loop head. -/
def loopHead (s : MainServer) : MainServer := { s with noExist := [] }

/-- One pass of the loop of `main`. It sends nothing when the received list is empty. -/
def loopBody (s : MainServer) (received reply₁ reply₂ : Bytes) :
    Option (Option Round × MainServer) := do
  let s := s.loopHead
  let client_list ← recvList received
  if client_list.length = 0 then some (none, s)
  else do
    let (noExistMsg, toA, toB, s) ← s.serveRequest client_list
    let result_1 := getResult reply₁
    let result_2 := getResult reply₂
    let final := resultFinal result_1 result_2
    let resultMsg ← replyResult final
    some (some ⟨noExistMsg, toA, toB, final, resultMsg⟩, s.endRound result_1 result_2)

theorem getIntersection_eq_meet (X Y : List TimeInterval) : getIntersection X Y = meet X Y := by
  simp only [getIntersection, meet, row_eq_flatMap]
  rfl

/-- Truncation, padding and filter together: the first 128 intervals, those that are positive. -/
theorem getResult_serialize (L : List TimeInterval) :
    getResult (serialize L) = (L.take 128).filter (Positive ·) := by
  have htake : (serialize L).take 1024 = serialize (L.take 128) := take_serialize 128 L
  simp only [getResult, htake, deserialize_zeroFill]
  split
  · rename_i h
    have : L.take 128 = [] := by
      rw [length_serialize] at h
      exact List.length_eq_zero_iff.mp (by omega)
    simp [this]
  · rfl

/-- The receiver may lose intervals of a serialized list, but adds and reorders none. -/
theorem getResult_sublist (L : List TimeInterval) : (getResult (serialize L)).Sublist L := by
  rw [getResult_serialize]
  exact List.filter_sublist.trans (List.take_sublist 128 L)

end MainServer
end StreamBridge
