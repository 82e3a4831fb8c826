import StreamBridge.ReadFile
import StreamBridge.Wire

/-!
# StreamBridge.Backend

A backend server. `serverB.h` and `serverB.cpp` repeat `serverA.h` and `serverA.cpp` with `list_B`
and `result_2` for `list_A` and `result_1`; the definitions here are both.

`loopBody` is one pass of the loop of `main`, on the datagram received and on whether `sendto`
succeeds. The fold over the queries is `meetAll` of their interval lists (`schedule_eq_meetAll`).
-/

namespace StreamBridge

open CString Intervals

/-- The globals of a backend that outlive one pass of its loop. -/
structure Backend where
  list : List User
  request : List Bytes
  result : List TimeInterval
  deriving DecidableEq

namespace Backend

def getName (list : List User) : List Bytes := list.map (·.name)

/-- `boot_up`: the records read, and the datagram sent to the main server. -/
def bootUp (file : Bytes) : Option (Backend × Bytes) := do
  let list ← readFile file
  some (⟨list, [], []⟩, getNameStr (getName list))

/-- The rows before the first one with a zero in it. -/
def getTimeInterval (time_ava : Vector (Int32 × Int32) 10) : List TimeInterval :=
  (time_ava.toList.takeWhile fun row => !(row.1 == 0 || row.2 == 0)).map fun row => ⟨row.1, row.2⟩

def getRequestInfo (REQ : List Bytes) (data : List User) : List Query :=
  REQ.flatMap fun name =>
    data.flatMap fun user =>
      if name = user.name then [⟨user.name, getTimeInterval user.timeAva⟩] else []

def getIntersection (timelist_1 timelist_2 : Query) : Query where
  name := []
  time :=
    timelist_1.time.flatMap fun t1 =>
      timelist_2.time.flatMap fun t2 =>
        let overlap_start := max t1.start t2.start
        let overlap_end := min t1.end t2.end
        if overlap_end > overlap_start then [⟨overlap_start, overlap_end⟩] else []

def schedule (s : Backend) : List TimeInterval :=
  match getRequestInfo s.request s.list with
  | [] => []
  | [q] => q.time
  | q :: q' :: qs => ((q' :: qs).foldl getIntersection q).time

/-- One pass of the loop of `main`: the bytes given to `sendto`, and the state after the pass.
An empty datagram is answered with the global result; the normal end clears it. -/
def loopBody (s : Backend) (datagram : Bytes) (send_ok : Bool) : Option (Bytes × Backend) :=
  let list_str := datagram.take 1024
  if list_str.length = 0 then some (serialize s.result, s)
  else do
    let request ← getVector list_str
    let s := { s with request := request }
    let s := { s with result := s.schedule }
    if send_ok then some (serialize s.result, { s with request := [], result := [] })
    else some (serialize s.result, s)

/-- The answer to a datagram of a backend that holds `list` and is at its loop head. -/
def reply (list : List User) (datagram : Bytes) : Option Bytes :=
  (loopBody ⟨list, [], []⟩ datagram true).map (·.1)

/-- The intervals a record contributes. -/
def intervals (u : User) : List TimeInterval := getTimeInterval u.timeAva

theorem length_intervals_le (u : User) : (intervals u).length ≤ 10 := by
  have := (List.takeWhile_prefix (p := fun row : Int32 × Int32 => !(row.1 == 0 || row.2 == 0))
    (l := u.timeAva.toList)).length_le
  simpa [intervals, getTimeInterval] using this

theorem getRequestInfo_cons (name : Bytes) (REQ : List Bytes) (data : List User) :
    getRequestInfo (name :: REQ) data =
      (data.filter (·.name = name)).map (fun u => ⟨u.name, intervals u⟩) ++
        getRequestInfo REQ data := by
  have hrow : ∀ data : List User,
      (data.flatMap fun user =>
        if name = user.name then [(⟨user.name, getTimeInterval user.timeAva⟩ : Query)] else []) =
      (data.filter (·.name = name)).map (fun u => ⟨u.name, intervals u⟩) := by
    intro data
    induction data with
    | nil => rfl
    | cons u data ih =>
      by_cases h : name = u.name
      · simp [← h, ih, intervals]
      · simp [h, Ne.symm h, ih]
  simp [getRequestInfo, hrow]

theorem getIntersection_time (q₁ q₂ : Query) :
    (getIntersection q₁ q₂).time = meet q₁.time q₂.time := by
  simp only [getIntersection, meet, row_eq_flatMap]
  rfl

theorem foldl_getIntersection_time (qs : List Query) (q : Query) :
    (qs.foldl getIntersection q).time = (qs.map (·.time)).foldl meet q.time := by
  induction qs generalizing q with
  | nil => rfl
  | cons q' qs ih => rw [List.foldl_cons, ih, getIntersection_time]; rfl

theorem schedule_eq_meetAll (s : Backend) :
    s.schedule = meetAll ((getRequestInfo s.request s.list).map (·.time)) := by
  unfold schedule
  match getRequestInfo s.request s.list with
  | [] => rfl
  | [q] => rfl
  | q :: q' :: qs => exact foldl_getIntersection_time (q' :: qs) q

/-- At the loop head nothing is left of earlier requests, and a pass whose send succeeds ends
there again. -/
theorem loopBody_clean (list : List User) (datagram : Bytes) :
    loopBody ⟨list, [], []⟩ datagram true =
      (reply list datagram).map fun data => (data, ⟨list, [], []⟩) := by
  by_cases h : (datagram.take 1024).length = 0
  · simp only [reply, loopBody, if_pos h, Option.map_some, serialize_nil]
  · simp only [reply, loopBody, if_neg h]
    cases getVector (datagram.take 1024) <;> rfl

theorem reply_getNameStr {request : List Bytes} (list : List User) (hne : request ≠ [])
    (h : ∀ name ∈ request, IsName name) (hlen : (getNameStr request).length ≤ 1023) :
    reply list (getNameStr request) = some (serialize (schedule ⟨list, request, []⟩)) := by
  have htake : (getNameStr request).take 1024 = getNameStr request :=
    List.take_of_length_le (by omega)
  have hpos : (getNameStr request).length ≠ 0 := by
    intro h0
    exact hne (getNameStr_eq_nil.mp (List.length_eq_zero_iff.mp h0))
  simp only [reply, loopBody, htake, if_neg hpos, getVector_getNameStr hne h hlen,
    Option.bind_eq_bind, Option.bind_some, if_true, Option.map_some]

theorem reply_eq_serialize {list : List User} {datagram data : Bytes}
    (h : reply list datagram = some data) :
    ∃ request, data = serialize (schedule ⟨list, request, []⟩) := by
  by_cases hlen : (datagram.take 1024).length = 0
  · simp only [reply, loopBody, if_pos hlen, Option.map_some, Option.some.injEq] at h
    exact ⟨[], h.symm⟩
  · simp only [reply, loopBody, if_neg hlen] at h
    cases hv : getVector (datagram.take 1024) with
    | none => simp [hv] at h
    | some request =>
      simp only [hv, Option.bind_eq_bind, Option.bind_some, if_true, Option.map_some,
        Option.some.injEq] at h
      exact ⟨request, h.symm⟩

end Backend
end StreamBridge
