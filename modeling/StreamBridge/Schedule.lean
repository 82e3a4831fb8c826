import Mathlib.Data.List.Nodup
import StreamBridge.Backend
import StreamBridge.MainServer

/-!
# StreamBridge.Schedule

What a schedule means, and that no order shows in it.

* `schedule_meaning`: the points of `schedule` are those every query covers, on any lists, and its
  intervals are overlaps of one interval of each.
* `separated_schedule`, `length_schedule`: on tables of separated lists the schedule is separated
  again and has at most `9k + 1` intervals for `k` requested names.
* `schedule_perm`: the order of the requested names does not matter.
* `order_independence`: nor does the order in which the two replies reach the main server.
-/

namespace StreamBridge

open CString Intervals

namespace Backend

theorem mem_getRequestInfo {REQ : List Bytes} {data : List User} {q : Query} :
    q ∈ getRequestInfo REQ data ↔ ∃ u ∈ data, u.name ∈ REQ ∧ ⟨u.name, intervals u⟩ = q := by
  induction REQ with
  | nil => simp [getRequestInfo]
  | cons name REQ ih =>
    simp only [getRequestInfo_cons, List.mem_append, List.mem_map, List.mem_filter,
      decide_eq_true_eq, ih, List.mem_cons]
    constructor
    · rintro (⟨u, ⟨hu, hn⟩, rfl⟩ | ⟨u, hu, hn, rfl⟩)
      · exact ⟨u, hu, .inl hn, rfl⟩
      · exact ⟨u, hu, .inr hn, rfl⟩
    · rintro ⟨u, hu, hn | hn, rfl⟩
      · exact .inl ⟨u, ⟨hu, hn⟩, rfl⟩
      · exact .inr ⟨u, hu, hn, rfl⟩

theorem getRequestInfo_ne_nil {REQ : List Bytes} {data : List User} :
    getRequestInfo REQ data ≠ [] ↔ ∃ u ∈ data, u.name ∈ REQ := by
  constructor
  · intro h
    obtain ⟨q, hq⟩ := List.exists_mem_of_ne_nil _ h
    obtain ⟨u, hu, hn, _⟩ := mem_getRequestInfo.mp hq
    exact ⟨u, hu, hn⟩
  · rintro ⟨u, hu, hn⟩
    exact List.ne_nil_of_mem (mem_getRequestInfo.mpr ⟨u, hu, hn, rfl⟩)

theorem getRequestInfo_perm {REQ REQ' : List Bytes} (h : REQ.Perm REQ') (data : List User) :
    (getRequestInfo REQ data).Perm (getRequestInfo REQ' data) :=
  h.flatMap_right _

theorem length_getRequestInfo_le {data : List User} (h : (data.map (·.name)).Nodup)
    (REQ : List Bytes) : (getRequestInfo REQ data).length ≤ REQ.length := by
  have hone : ∀ name, (data.filter (·.name = name)).length ≤ 1 := by
    intro name
    have hcount : (data.filter (·.name = name)).length = (data.map (·.name)).count name := by
      rw [List.count_eq_countP, List.countP_map, ← List.countP_eq_length_filter]
      exact List.countP_congr fun u _ => by simp
    rw [hcount]
    exact List.nodup_iff_count_le_one.mp h name
  induction REQ with
  | nil => simp [getRequestInfo]
  | cons name REQ ih =>
    have := hone name
    simp only [getRequestInfo_cons, List.length_append, List.length_map, List.length_cons]
    omega

theorem forall_times {p : List TimeInterval → Prop} {data : List User}
    (h : ∀ u ∈ data, p (intervals u)) (REQ : List Bytes) :
    ∀ L ∈ (getRequestInfo REQ data).map (·.time), p L := by
  intro L hL
  obtain ⟨q, hq, rfl⟩ := List.mem_map.mp hL
  obtain ⟨u, hu, _, rfl⟩ := mem_getRequestInfo.mp hq
  exact h u hu

/-- The points of `schedule` are those every requested user is free at. -/
theorem covers_schedule {s : Backend} (hne : getRequestInfo s.request s.list ≠ []) (t : Int32) :
    Covers s.schedule t ↔ ∀ u ∈ s.list, u.name ∈ s.request → Covers (intervals u) t := by
  rw [schedule_eq_meetAll, covers_meetAll (by simpa using hne)]
  constructor
  · intro h u hu hn
    have hq : ⟨u.name, intervals u⟩ ∈ getRequestInfo s.request s.list :=
      mem_getRequestInfo.mpr ⟨u, hu, hn, rfl⟩
    exact h _ (List.mem_map_of_mem hq)
  · intro h L hL
    obtain ⟨q, hq, rfl⟩ := List.mem_map.mp hL
    obtain ⟨u, hu, hn, rfl⟩ := mem_getRequestInfo.mp hq
    exact h u hu hn

theorem spacedBy_schedule {r : Int32 → Int32 → Prop} (hr : IsGap r) {s : Backend}
    (h : ∀ u ∈ s.list, SpacedBy r (intervals u)) : SpacedBy r s.schedule := by
  rw [schedule_eq_meetAll]
  exact spacedBy_meetAll hr (forall_times h _)

theorem separated_schedule {s : Backend} (h : ∀ u ∈ s.list, Separated (intervals u)) :
    Separated s.schedule :=
  separated_iff.mpr (spacedBy_schedule isGap_le fun u hu => separated_iff.mp (h u hu))

/-- From two queries on, an interval of the schedule is the proper overlap of one of each. -/
theorem isOverlap_schedule {s : Backend} (h : 2 ≤ (getRequestInfo s.request s.list).length)
    {i : TimeInterval} (hi : i ∈ s.schedule) :
    i.start < i.end ∧ ∃ cs, List.Forall₂ (fun c q => c ∈ q.time) cs
      (getRequestInfo s.request s.list) ∧ IsOverlap i cs := by
  rw [schedule_eq_meetAll] at hi
  match hinfo : getRequestInfo s.request s.list with
  | [] => simp [hinfo] at h
  | [q] => simp [hinfo] at h
  | q :: q' :: qs =>
    rw [hinfo] at hi
    have hfold : i ∈ (qs.map (·.time)).foldl meet (meet q.time q'.time) := hi
    refine ⟨proper_foldl_meet (fun j hj => ?_) i hfold, ?_⟩
    · obtain ⟨_, _, _, _, _, hp⟩ := mem_meet.mp hj
      exact hp
    · have hall : i ∈ ((q' :: qs).map (·.time)).foldl meet q.time := hi
      obtain ⟨a, ha, cs, hcs, hover⟩ := isOverlap_of_mem_foldl hall
      rw [List.forall₂_map_right_iff] at hcs
      exact ⟨a :: cs, .cons ha hcs, hover⟩

/-- What the list of a backend means, on tables of any lists. -/
theorem schedule_meaning (s : Backend) :
    ((∃ u ∈ s.list, u.name ∈ s.request) →
      ∀ t, Covers s.schedule t ↔ ∀ q ∈ getRequestInfo s.request s.list, Covers q.time t) ∧
    (2 ≤ (getRequestInfo s.request s.list).length → ∀ i ∈ s.schedule, i.start < i.end ∧
      ∃ cs, List.Forall₂ (fun c q => c ∈ q.time) cs (getRequestInfo s.request s.list) ∧
        IsOverlap i cs) ∧
    ((∀ u ∈ s.list, u.name ∉ s.request) → s.schedule = []) := by
  refine ⟨?_, fun h i hi => isOverlap_schedule h hi, ?_⟩
  · intro h t
    have hne := getRequestInfo_ne_nil.mpr h
    rw [schedule_eq_meetAll, covers_meetAll (by simpa using hne), List.forall_mem_map]
  · intro h
    have hnil : getRequestInfo s.request s.list = [] := by
      by_contra hne
      obtain ⟨u, hu, hn⟩ := getRequestInfo_ne_nil.mp hne
      exact h u hu hn
    rw [schedule, hnil]

theorem length_schedule_le {s : Backend} (h : ∀ u ∈ s.list, Separated (intervals u)) :
    s.schedule.length ≤ 9 * (getRequestInfo s.request s.list).length + 1 := by
  have hfold := length_meetAll (m := 9) (forall_times h s.request)
    (forall_times (fun u _ => length_intervals_le u) s.request)
  rw [List.length_map] at hfold
  rwa [schedule_eq_meetAll]

theorem length_schedule {s : Backend} (h : ∀ u ∈ s.list, Separated (intervals u))
    (hnodup : (s.list.map (·.name)).Nodup) : s.schedule.length ≤ 9 * s.request.length + 1 := by
  have hle := length_getRequestInfo_le hnodup s.request
  have hsize := length_schedule_le h
  omega

theorem schedule_perm {list : List User} (h : ∀ u ∈ list, Separated (intervals u))
    {request request' : List Bytes} (hp : request.Perm request') :
    schedule ⟨list, request, []⟩ = schedule ⟨list, request', []⟩ := by
  rw [schedule_eq_meetAll, schedule_eq_meetAll]
  exact meetAll_perm ((getRequestInfo_perm hp list).map _) (forall_times h request)

theorem getIntersection_comm {q₁ q₂ : Query} (h₁ : Separated q₁.time) (h₂ : Separated q₂.time) :
    getIntersection q₁ q₂ = getIntersection q₂ q₁ := by
  have hname : ∀ q q' : Query, getIntersection q q' = ⟨[], (getIntersection q q').time⟩ :=
    fun _ _ => rfl
  rw [hname q₁, hname q₂, getIntersection_time, getIntersection_time, meet_comm h₁ h₂]

theorem getIntersection_assoc (q₁ q₂ q₃ : Query) :
    getIntersection (getIntersection q₁ q₂) q₃ = getIntersection q₁ (getIntersection q₂ q₃) := by
  have hname : ∀ q q' : Query, getIntersection q q' = ⟨[], (getIntersection q q').time⟩ :=
    fun _ _ => rfl
  rw [hname _ q₃, hname q₁ (getIntersection q₂ q₃)]
  simp only [getIntersection_time, meet_assoc]

end Backend

namespace MainServer

theorem resultFinal_nil_left (Y : List TimeInterval) : resultFinal [] Y = Y := by
  cases Y <;> rfl

theorem resultFinal_nil_right (X : List TimeInterval) : resultFinal X [] = X := by
  cases X <;> rfl

theorem resultFinal_of_ne_nil {X Y : List TimeInterval} (hX : X ≠ []) (hY : Y ≠ []) :
    resultFinal X Y = meet X Y := by
  rw [← getIntersection_eq_meet]
  cases X with
  | nil => exact absurd rfl hX
  | cons x X =>
    cases Y with
    | nil => exact absurd rfl hY
    | cons y Y => rfl

theorem spacedBy_resultFinal {r : Int32 → Int32 → Prop} (hr : IsGap r) {X Y : List TimeInterval}
    (hX : SpacedBy r X) (hY : SpacedBy r Y) : SpacedBy r (resultFinal X Y) := by
  by_cases hXne : X = []
  · rwa [hXne, resultFinal_nil_left]
  · by_cases hYne : Y = []
    · rwa [hYne, resultFinal_nil_right]
    · rw [resultFinal_of_ne_nil hXne hYne]
      exact hX.meet hr hY

theorem separated_resultFinal {X Y : List TimeInterval} (hX : Separated X) (hY : Separated Y) :
    Separated (resultFinal X Y) :=
  separated_iff.mpr (spacedBy_resultFinal isGap_le (separated_iff.mp hX) (separated_iff.mp hY))

/-- Merging costs no interval more than both sides have. -/
theorem length_resultFinal_le {X Y : List TimeInterval} (hX : Separated X) (hY : Separated Y) :
    (resultFinal X Y).length ≤ X.length ∨ (resultFinal X Y).length ≤ Y.length ∨
      (resultFinal X Y).length + 1 ≤ X.length + Y.length := by
  by_cases hXne : X = []
  · exact .inr (.inl (by rw [hXne, resultFinal_nil_left]))
  · by_cases hYne : Y = []
    · exact .inl (by rw [hYne, resultFinal_nil_right])
    · rw [resultFinal_of_ne_nil hXne hYne]
      exact .inr (.inr (length_meet hX hY hXne hYne))

theorem resultFinal_comm {X Y : List TimeInterval} (hX : Separated X) (hY : Separated Y) :
    resultFinal X Y = resultFinal Y X := by
  unfold resultFinal
  rw [getIntersection_eq_meet, getIntersection_eq_meet, meet_comm hX hY]
  cases X <;> cases Y <;> rfl

theorem endRound_comm (s : MainServer) (X Y : List TimeInterval) :
    s.endRound X Y = s.endRound Y X := by
  unfold endRound
  rw [Bool.and_comm]

theorem loopBody_comm {reply₁ reply₂ : Bytes} (h₁ : Separated (getResult reply₁))
    (h₂ : Separated (getResult reply₂)) (s : MainServer) (received : Bytes) :
    s.loopBody received reply₁ reply₂ = s.loopBody received reply₂ reply₁ := by
  unfold loopBody
  simp only [resultFinal_comm h₁ h₂, endRound_comm _ (getResult reply₁)]

theorem separated_getResult_reply {list : List User}
    (h : ∀ u ∈ list, Separated (Backend.intervals u)) {datagram data : Bytes}
    (hr : Backend.reply list datagram = some data) : Separated (getResult data) := by
  obtain ⟨request, rfl⟩ := Backend.reply_eq_serialize hr
  exact (Backend.separated_schedule h).sublist (getResult_sublist _)

end MainServer

/-- Order independence: `getIntersection` of the backends and of the main server is commutative
and associative on separated lists, a schedule does not depend on the order of the request, and a
pass of the main server is the same whichever backend's reply comes first. -/
theorem order_independence :
    (∀ X Y : List TimeInterval, Separated X → Separated Y →
      MainServer.getIntersection X Y = MainServer.getIntersection Y X) ∧
    (∀ X Y Z : List TimeInterval, Separated X → Separated Y → Separated Z →
      MainServer.getIntersection (MainServer.getIntersection X Y) Z =
        MainServer.getIntersection X (MainServer.getIntersection Y Z)) ∧
    (∀ q₁ q₂ : Query, Separated q₁.time → Separated q₂.time →
      Backend.getIntersection q₁ q₂ = Backend.getIntersection q₂ q₁) ∧
    (∀ q₁ q₂ q₃ : Query, Separated q₁.time → Separated q₂.time → Separated q₃.time →
      Backend.getIntersection (Backend.getIntersection q₁ q₂) q₃ =
        Backend.getIntersection q₁ (Backend.getIntersection q₂ q₃)) ∧
    (∀ list : List User, (∀ u ∈ list, Separated (Backend.intervals u)) →
      ∀ request request' : List Bytes, request.Perm request' →
        Backend.schedule ⟨list, request, []⟩ = Backend.schedule ⟨list, request', []⟩) ∧
    (∀ listA listB : List User, (∀ u ∈ listA, Separated (Backend.intervals u)) →
      (∀ u ∈ listB, Separated (Backend.intervals u)) →
      ∀ toA toB replyA replyB : Bytes, Backend.reply listA toA = some replyA →
        Backend.reply listB toB = some replyB →
        MainServer.resultFinal (MainServer.getResult replyA) (MainServer.getResult replyB) =
            MainServer.resultFinal (MainServer.getResult replyB) (MainServer.getResult replyA) ∧
          ∀ (s : MainServer) (received : Bytes),
            s.loopBody received replyA replyB = s.loopBody received replyB replyA) := by
  refine ⟨?_, ?_, ?_, ?_, ?_,
    fun listA listB hA hB toA toB replyA replyB hrA hrB => ⟨?_, ?_⟩⟩
  · intro X Y hX hY
    simp only [MainServer.getIntersection_eq_meet, meet_comm hX hY]
  · intro X Y Z _ _ _
    simp only [MainServer.getIntersection_eq_meet, meet_assoc]
  · intro q₁ q₂ h₁ h₂
    exact Backend.getIntersection_comm h₁ h₂
  · intro q₁ q₂ q₃ _ _ _
    exact Backend.getIntersection_assoc q₁ q₂ q₃
  · intro list h request request' hp
    exact Backend.schedule_perm h hp
  · exact MainServer.resultFinal_comm (MainServer.separated_getResult_reply hA hrA)
      (MainServer.separated_getResult_reply hB hrB)
  · intro s received
    exact MainServer.loopBody_comm (MainServer.separated_getResult_reply hA hrA)
      (MainServer.separated_getResult_reply hB hrB) s received

end StreamBridge
