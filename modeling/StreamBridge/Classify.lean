import StreamBridge.Messages
import StreamBridge.Rounds
import StreamBridge.Schedule

/-!
# StreamBridge.Classify

A request on its way from the main server to the users' records.

* `classified_examineList`: `examineList` puts every requested name in exactly one of the three
  lists, in request order, server A first.
* `delivered_getNameStr`: a list of names of a table arrives at the backend as it was sent, and
  every name on it finds its own user.
* `no_user_ignored`: the two together, for both backends.
-/

namespace StreamBridge

open CString Intervals

namespace MainServer

/-- The three lists after `examineList`, of a server that knows `listA` and `listB`. -/
structure Classified (listA listB request : List Bytes) (s : MainServer) : Prop where
  perm : (s.requestA ++ s.requestB ++ s.noExist).Perm request
  exactlyOne : ∀ name ∈ request,
    [s.requestA, s.requestB, s.noExist].countP (fun list => name ∈ list) = 1
  orderA : s.requestA.Sublist request
  orderB : s.requestB.Sublist request
  orderNoExist : s.noExist.Sublist request
  noExist : ∀ name ∈ request, name ∈ s.noExist ↔ name ∉ listA ∧ name ∉ listB
  requestA : ∀ name ∈ request, name ∈ listA → name ∈ s.requestA

theorem mem_foundA {s : MainServer} {list : List Bytes} {name : Bytes} :
    name ∈ s.foundA list ↔ name ∈ list ∧ name ∈ s.serverA := by
  simp [foundA]

theorem mem_foundB {s : MainServer} {list : List Bytes} {name : Bytes} :
    name ∈ s.foundB list ↔ name ∈ list ∧ name ∉ s.serverA ∧ name ∈ s.serverB := by
  simp [foundB]

theorem mem_missing {s : MainServer} {list : List Bytes} {name : Bytes} :
    name ∈ s.missing list ↔ name ∈ list ∧ name ∉ s.serverA ∧ name ∉ s.serverB := by
  simp [missing]

theorem found_perm (s : MainServer) (list : List Bytes) :
    (s.foundA list ++ s.foundB list ++ s.missing list).Perm list := by
  have hB : s.foundB list =
      (list.filter fun name => !decide (name ∈ s.serverA)).filter (· ∈ s.serverB) := by
    rw [List.filter_filter, foundB]
    exact List.filter_congr fun name _ => by simp [Bool.and_comm]
  have hmissing : s.missing list =
      (list.filter fun name => !decide (name ∈ s.serverA)).filter
        (fun name => !decide (name ∈ s.serverB)) := by
    rw [List.filter_filter, missing]
    exact List.filter_congr fun name _ => by simp [Bool.and_comm]
  have hrest : (s.foundB list ++ s.missing list).Perm
      (list.filter fun name => !decide (name ∈ s.serverA)) := by
    rw [hB, hmissing]
    exact List.filter_append_perm _ _
  rw [List.append_assoc]
  exact (hrest.append_left _).trans (List.filter_append_perm _ _)

theorem classified_examineList (listA listB request : List Bytes) :
    Classified listA listB request ((booted listA listB).examineList request) := by
  have hlists : (booted listA listB).examineList request =
      ⟨listA, listB, (booted listA listB).foundA request, (booted listA listB).foundB request,
        (booted listA listB).missing request⟩ := by
    rw [examineList_eq]
    rfl
  rw [hlists]
  refine ⟨found_perm _ _, ?_, List.filter_sublist, List.filter_sublist,
    List.filter_sublist, ?_, ?_⟩
  · intro name hname
    by_cases hA : name ∈ listA
    · simp [mem_foundA, mem_foundB, mem_missing, booted, hname, hA]
    · by_cases hB : name ∈ listB <;>
        simp [mem_foundA, mem_foundB, mem_missing, booted, hname, hA, hB]
  · intro name hname
    rw [mem_missing]
    exact and_iff_right hname
  · intro name hname hA
    exact mem_foundA.mpr ⟨hname, hA⟩

theorem requestEndServer_B (s : MainServer) :
    ((s.requestEndServer .A).2.requestEndServer .B).1 = getNameStr s.requestB := by
  have hB : (s.requestEndServer .A).2.requestB = s.requestB := (requestEndServer_fields s .A).2.2.2
  rw [← hB]
  rfl

end MainServer

namespace Backend

/-- The intervals are the rows of the table up to the first one with a zero in it. -/
def FromRows (timeAva : Vector (Int32 × Int32) 10) (time : List TimeInterval) : Prop :=
  ∃ rest, timeAva.toList = time.map (fun i => (i.start, i.end)) ++ rest ∧
    (∀ i ∈ time, i.start ≠ 0 ∧ i.end ≠ 0) ∧ ∀ row ∈ rest.head?, row.1 = 0 ∨ row.2 = 0

/-- What the backend holding `list` makes of a datagram for the names `request`: it decodes them,
unless there are none, and finds for each its own user, with the rows of that user's table. -/
structure Delivered (list : List User) (request : List Bytes) (datagram : Bytes) : Prop where
  empty : request = [] → datagram = []
  decoded : request ≠ [] → getVector (datagram.take 1024) = some request
  found : List.Forall₂ (fun name q => ∃ u ∈ list, u.name = name ∧ q = ⟨name, intervals u⟩ ∧
    FromRows u.timeAva q.time) request (getRequestInfo request list)

theorem fromRows_getTimeInterval (timeAva : Vector (Int32 × Int32) 10) :
    FromRows timeAva (getTimeInterval timeAva) := by
  let filled : Int32 × Int32 → Bool := fun row => !(row.1 == 0 || row.2 == 0)
  refine ⟨timeAva.toList.dropWhile filled, ?_, ?_, ?_⟩
  · have hrows : (getTimeInterval timeAva).map (fun i => (i.start, i.end)) =
        timeAva.toList.takeWhile filled := by
      rw [getTimeInterval, List.map_map]
      exact List.map_id _
    rw [hrows, List.takeWhile_append_dropWhile]
  · intro i hi
    obtain ⟨row, hrow, rfl⟩ := List.mem_map.mp hi
    have hfilled : filled row = true := List.all_eq_true.mp List.all_takeWhile row hrow
    simpa [filled] using hfilled
  · intro row hrow
    have hzero := List.head?_dropWhile_not filled timeAva.toList
    rw [hrow] at hzero
    simpa [filled, Decidable.or_iff_not_imp_left] using hzero

theorem filter_name_eq {list : List User} (hnodup : (list.map (·.name)).Nodup) {u : User}
    (hu : u ∈ list) : list.filter (·.name = u.name) = [u] := by
  induction list with
  | nil => cases hu
  | cons v list ih =>
    obtain ⟨hv, htail⟩ := List.nodup_cons.mp hnodup
    rcases List.mem_cons.mp hu with rfl | hu
    · have hnone : list.filter (fun w => decide (w.name = u.name)) = [] := by
        refine List.filter_eq_nil_iff.mpr fun w hw heq => hv ?_
        exact List.mem_map.mpr ⟨w, hw, of_decide_eq_true heq⟩
      rw [List.filter_cons_of_pos (by simp), hnone]
    · have hne : v.name ≠ u.name := fun heq => hv (List.mem_map.mpr ⟨u, hu, heq.symm⟩)
      rw [List.filter_cons_of_neg (by simpa using hne), ih htail hu]

theorem getRequestInfo_forall₂ {list : List User} (hnodup : (list.map (·.name)).Nodup)
    {request : List Bytes} (h : ∀ name ∈ request, name ∈ getName list) :
    List.Forall₂ (fun name q => ∃ u ∈ list, u.name = name ∧ q = ⟨name, intervals u⟩ ∧
      FromRows u.timeAva q.time) request (getRequestInfo request list) := by
  induction request with
  | nil => exact .nil
  | cons name request ih =>
    obtain ⟨u, hu, rfl⟩ := List.mem_map.mp (h name (by simp))
    rw [getRequestInfo_cons, filter_name_eq hnodup hu]
    exact .cons ⟨u, hu, rfl, rfl, fromRows_getTimeInterval u.timeAva⟩
      (ih fun n hn => h n (by simp [hn]))

theorem delivered_getNameStr {list : List User} (hnodup : (list.map (·.name)).Nodup)
    (hnames : ∀ u ∈ list, IsName u.name) {request : List Bytes}
    (h : ∀ name ∈ request, name ∈ getName list) (hlen : (getNameStr request).length ≤ 1023) :
    Delivered list request (getNameStr request) where
  empty hnil := by rw [hnil]; rfl
  decoded hne := by
    have hisName : ∀ name ∈ request, IsName name := fun name hname => by
      obtain ⟨u, hu, rfl⟩ := List.mem_map.mp (h name hname)
      exact hnames u hu
    rw [List.take_of_length_le (by omega), getVector_getNameStr hne hisName hlen]
  found := getRequestInfo_forall₂ hnodup h

end Backend

open MainServer Backend in
/-- No requested user is ignored or counted twice: each name goes to exactly one of the three
lists, and the names sent to a backend each find their own user there. -/
theorem no_user_ignored (tA tB : List User) (hA : (tA.map (·.name)).Nodup)
    (hB : (tB.map (·.name)).Nodup)
    (hnames : ∀ u ∈ tA ++ tB, u.name ≠ [] ∧ ∀ c ∈ u.name, isLowerAlnum c = true)
    (request : List Bytes) (hdistinct : request.Nodup)
    (hlen : (getNameStr request).length ≤ 1023) :
    let s := (booted (getName tA) (getName tB)).examineList request
    Classified (getName tA) (getName tB) request s ∧
      (s.requestA ++ s.requestB ++ s.noExist).Nodup ∧
      Delivered tA s.requestA (s.requestEndServer .A).1 ∧
      Delivered tB s.requestB ((s.requestEndServer .A).2.requestEndServer .B).1 := by
  intro s
  have hclass : Classified (getName tA) (getName tB) request s := classified_examineList _ _ request
  have hisName : ∀ u ∈ tA ++ tB, IsName u.name := fun u hu =>
    isName_of_lowerAlnum (hnames u hu).1 (hnames u hu).2
  have hs : s = { booted (getName tA) (getName tB) with
      requestA := (booted (getName tA) (getName tB)).foundA request,
      requestB := (booted (getName tA) (getName tB)).foundB request,
      noExist := (booted (getName tA) (getName tB)).missing request } := examineList_eq _ _
  refine ⟨hclass, hclass.perm.nodup_iff.mpr hdistinct, ?_, ?_⟩
  · have hknown : ∀ name ∈ s.requestA, name ∈ getName tA := fun name hname => by
      rw [hs] at hname
      exact (mem_foundA.mp hname).2
    exact delivered_getNameStr hA (fun u hu => hisName u (List.mem_append_left _ hu)) hknown
      ((length_getNameStr_sublist hclass.orderA).trans hlen)
  · have hknown : ∀ name ∈ s.requestB, name ∈ getName tB := fun name hname => by
      rw [hs] at hname
      exact (mem_foundB.mp hname).2.2
    rw [requestEndServer_B]
    exact delivered_getNameStr hB (fun u hu => hisName u (List.mem_append_right _ hu)) hknown
      ((length_getNameStr_sublist hclass.orderB).trans hlen)

/-- The users `a` and `b`, free in `[5,9]` and in `[7,12]`. -/
def sampleUserA : User := ⟨[97], table [(5, 9)]⟩
def sampleUserB : User := ⟨[98], table [(7, 12)]⟩

open MainServer Backend in
/-- Of `b`, `c` and `a` each server is asked for its own user, and `c` is in neither table. -/
theorem no_user_ignored_three :
    let s := (booted [[97]] [[98]]).examineList [[98], [99], [97]]
    Classified [[97]] [[98]] [[98], [99], [97]] s ∧
      (s.requestA ++ s.requestB ++ s.noExist).Nodup ∧
      Delivered [sampleUserA] s.requestA (s.requestEndServer .A).1 ∧
      Delivered [sampleUserB] s.requestB ((s.requestEndServer .A).2.requestEndServer .B).1 :=
  no_user_ignored [sampleUserA] [sampleUserB] (by decide) (by decide)
    (by simp [sampleUserA, sampleUserB, isLowerAlnum]) [[98], [99], [97]] (by decide) (by decide)

end StreamBridge
