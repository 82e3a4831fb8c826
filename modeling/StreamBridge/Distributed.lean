import StreamBridge.Classify
import StreamBridge.Report

/-!
# StreamBridge.Distributed

One round of the whole system, compared with one machine that holds both tables.

* `systemRound`: client, main server and both backends, the replies arriving in either order.
* `freeTime_schedule`: a backend's schedule is the free time of the users it was asked for, and
  empty when it was asked for nobody.
* `covers_resultFinal_iff`: the main server takes an empty partial result for a backend that was
  not asked. The merge is right unless both backends were asked and exactly one has no common time.
* `distributed_eq_central`: the same for `result_final` of a round.
-/

namespace StreamBridge

open CString Intervals

/-- The users of a table that a request names. -/
def requested (list : List User) (request : List Bytes) : List User :=
  list.filter (·.name ∈ request)

/-- At every time some of the users is busy. -/
def NoCommon (users : List User) : Prop := ∀ t, ∃ u ∈ users, ¬ Covers (Backend.intervals u) t

/-- The free time common to some users, as a backend reports it. -/
structure FreeTime (users : List User) (L : List TimeInterval) : Prop where
  separated : Separated L
  nobody : users = [] → L = []
  covers : users ≠ [] → ∀ t, Covers L t ↔ ∀ u ∈ users, Covers (Backend.intervals u) t

theorem mem_requested {list : List User} {request : List Bytes} {u : User} :
    u ∈ requested list request ↔ u ∈ list ∧ u.name ∈ request := by
  simp [requested]

theorem requested_append (tA tB : List User) (request : List Bytes) :
    requested (tA ++ tB) request = requested tA request ++ requested tB request :=
  List.filter_append _ _

namespace Backend

theorem getRequestInfo_eq_nil {list : List User} {request : List Bytes} :
    getRequestInfo request list = [] ↔ requested list request = [] := by
  rw [← not_iff_not]
  refine getRequestInfo_ne_nil.trans ?_
  simp [requested]

theorem freeTime_schedule {list : List User} (hsep : ∀ u ∈ list, Separated (intervals u))
    (request : List Bytes) :
    FreeTime (requested list request) (schedule ⟨list, request, []⟩) where
  separated := separated_schedule (s := ⟨list, request, []⟩) hsep
  nobody hnil := by
    rw [schedule_eq_meetAll, getRequestInfo_eq_nil.mpr hnil]
    rfl
  covers hne t := by
    rw [covers_schedule (s := ⟨list, request, []⟩) fun h => hne (getRequestInfo_eq_nil.mp h)]
    simp only [mem_requested, and_imp]

theorem positive_schedule {list : List User} (hsep : ∀ u ∈ list, Separated (intervals u))
    (hpos : ∀ u ∈ list, ∀ i ∈ intervals u, Positive i) (request : List Bytes) :
    ∀ i ∈ schedule ⟨list, request, []⟩, Positive i := by
  intro i hi
  have hfree := freeTime_schedule hsep request
  have hne : requested list request ≠ [] := fun hnil => by
    rw [hfree.nobody hnil] at hi
    cases hi
  obtain ⟨u, hu⟩ := List.exists_mem_of_ne_nil _ hne
  have hlt : i.start < i.end := hfree.separated.proper i hi
  obtain ⟨j, hj, hle, _⟩ := (hfree.covers hne i.start).mp ⟨i, hi, le_refl _, hlt⟩ u hu
  have hstart : 0 < i.start := lt_of_lt_of_le (hpos u (mem_requested.mp hu).1 j hj).1 hle
  exact ⟨hstart, lt_trans hstart hlt⟩

theorem getResult_schedule {list : List User} (hsep : ∀ u ∈ list, Separated (intervals u))
    (hpos : ∀ u ∈ list, ∀ i ∈ intervals u, Positive i) (hnodup : (list.map (·.name)).Nodup)
    {request : List Bytes} (hten : request.length ≤ 10) :
    MainServer.getResult (serialize (schedule ⟨list, request, []⟩)) =
      schedule ⟨list, request, []⟩ := by
  have hlen : (schedule ⟨list, request, []⟩).length ≤ 9 * request.length + 1 :=
    length_schedule (s := ⟨list, request, []⟩) hsep hnodup
  rw [MainServer.getResult_serialize, List.take_of_length_le (by omega),
    filter_positive (positive_schedule hsep hpos request)]

theorem reply_request (list : List User) {request : List Bytes} (h : Fits request) :
    reply list (getNameStr request) = some (serialize (schedule ⟨list, request, []⟩)) := by
  by_cases hne : request = []
  · subst hne
    rfl
  · exact reply_getNameStr list hne h.names h.length_le

end Backend

/-! ## The merge -/

theorem FreeTime.eq_nil_iff {users : List User} {L : List TimeInterval} (h : FreeTime users L)
    (hne : users ≠ []) : L = [] ↔ NoCommon users := by
  constructor
  · rintro rfl t
    have : ¬ ∀ u ∈ users, Covers (Backend.intervals u) t := fun hall =>
      covers_nil t ((h.covers hne t).mpr hall)
    simpa only [not_forall, exists_prop] using this
  · intro hbusy
    refine eq_nil_of_not_covers h.separated.proper ?_
    intro t ht
    obtain ⟨u, hu, hnot⟩ := hbusy t
    exact hnot ((h.covers hne t).mp ht u hu)

/-- One side has common time and the other, also asked, has none: the merge reports the first. -/
theorem covers_of_lost {UA UB : List User} {Y : List TimeInterval} (hY : FreeTime UB Y)
    (hA : NoCommon UA) (hB : UB ≠ []) (hBfree : ¬ NoCommon UB) :
    ¬ ∀ t, Covers Y t ↔ ∀ u ∈ UA ++ UB, Covers (Backend.intervals u) t := by
  intro hall
  have hYne : Y ≠ [] := fun h => hBfree ((hY.eq_nil_iff hB).mp h)
  obtain ⟨i, hi⟩ := List.exists_mem_of_ne_nil _ hYne
  have hcov : Covers Y i.start := ⟨i, hi, le_refl _, hY.separated.proper i hi⟩
  obtain ⟨u, hu, hnot⟩ := hA i.start
  exact hnot ((hall i.start).mp hcov u (List.mem_append_left _ hu))

/-- When the four-way merge of the partial results is the common free time. -/
theorem covers_resultFinal_iff {UA UB : List User} {X Y : List TimeInterval}
    (hX : FreeTime UA X) (hY : FreeTime UB Y) (hne : UA ++ UB ≠ []) :
    (∀ t, Covers (MainServer.resultFinal X Y) t ↔
        ∀ u ∈ UA ++ UB, Covers (Backend.intervals u) t) ↔
      (UA ≠ [] → UB ≠ [] → (NoCommon UA ↔ NoCommon UB)) := by
  by_cases hA : UA = []
  · subst hA
    rw [hX.nobody rfl, MainServer.resultFinal_nil_left]
    exact iff_of_true (hY.covers hne) fun h => absurd rfl h
  by_cases hB : UB = []
  · subst hB
    rw [hY.nobody rfl, MainServer.resultFinal_nil_right, List.append_nil]
    exact iff_of_true (hX.covers hA) fun _ h => absurd rfl h
  -- both were asked: an empty partial result is a backend without common time
  have hXnil := hX.eq_nil_iff hA
  have hYnil := hY.eq_nil_iff hB
  by_cases hXne : X = []
  · have hAbusy : NoCommon UA := hXnil.mp hXne
    rw [hXne, MainServer.resultFinal_nil_left]
    by_cases hYne : Y = []
    · refine iff_of_true ?_ fun _ _ => iff_of_true hAbusy (hYnil.mp hYne)
      intro t
      obtain ⟨u, hu, hnot⟩ := hAbusy t
      rw [hYne]
      exact iff_of_false (covers_nil t) fun h => hnot (h u (List.mem_append_left _ hu))
    · have hBfree : ¬ NoCommon UB := fun h => hYne (hYnil.mpr h)
      exact iff_of_false (covers_of_lost hY hAbusy hB hBfree) fun h => hBfree ((h hA hB).mp hAbusy)
  · have hAfree : ¬ NoCommon UA := fun h => hXne (hXnil.mpr h)
    by_cases hYne : Y = []
    · have hBbusy : NoCommon UB := hYnil.mp hYne
      rw [hYne, MainServer.resultFinal_nil_right]
      have hlost := covers_of_lost hX hBbusy hA hAfree
      refine iff_of_false (fun h => hlost fun t => (h t).trans ?_)
        fun h => hAfree ((h hA hB).mpr hBbusy)
      simp only [List.mem_append, or_comm]
    · refine iff_of_true ?_ fun _ _ => iff_of_false hAfree fun h => hYne (hYnil.mpr h)
      intro t
      rw [MainServer.resultFinal_of_ne_nil hXne hYne, covers_meet, hX.covers hA, hY.covers hB,
        List.forall_mem_append]

/-- What `result_final` should be: the common free time of every existing requested user, as one
machine with both tables computes it. -/
structure Central (tA tB : List User) (request : List Bytes) (final : List TimeInterval) :
    Prop where
  points : ∀ t, Covers final t ↔
    ∀ u ∈ tA ++ tB, u.name ∈ request → Covers (Backend.intervals u) t
  oneMachine : ∀ t, Covers final t ↔ Covers (Backend.schedule ⟨tA ++ tB, request, []⟩) t
  noCommon : NoCommon (requested tA request) ∨ NoCommon (requested tB request) → final = []

theorem central_iff_points {tA tB : List User} {request : List Bytes} {final : List TimeInterval}
    (hsep : ∀ u ∈ tA ++ tB, Separated (Backend.intervals u))
    (hexists : requested (tA ++ tB) request ≠ []) (hfinal : Separated final) :
    Central tA tB request final ↔
      ∀ t, Covers final t ↔
        ∀ u ∈ requested tA request ++ requested tB request, Covers (Backend.intervals u) t := by
  have hpoints : ∀ t, (∀ u ∈ requested tA request ++ requested tB request,
      Covers (Backend.intervals u) t) ↔
        ∀ u ∈ tA ++ tB, u.name ∈ request → Covers (Backend.intervals u) t := by
    intro t
    rw [← requested_append]
    simp only [mem_requested, and_imp]
  constructor
  · intro h t
    rw [h.points t, hpoints]
  · intro h
    refine ⟨fun t => by rw [h t, hpoints], ?_, ?_⟩
    · intro t
      rw [h t, (Backend.freeTime_schedule hsep request).covers hexists, requested_append]
    · intro hbusy
      refine eq_nil_of_not_covers hfinal.proper ?_
      intro t ht
      rcases hbusy with hbusy | hbusy
      · obtain ⟨u, hu, hnot⟩ := hbusy t
        exact hnot ((h t).mp ht u (List.mem_append_left _ hu))
      · obtain ⟨u, hu, hnot⟩ := hbusy t
        exact hnot ((h t).mp ht u (List.mem_append_right _ hu))

/-! ## A round of the system -/

/-- One round from the main server's state `s` at its loop head, for a request that is not empty.
The result is what the pass of the main server returns; `first` is the backend whose reply arrives
first. -/
def systemRound (tA tB : List User) (s : MainServer) (first : ServerId) (request : List Bytes) :
    Option (Option MainServer.Round × MainServer) := do
  let msg ← Client.sendList request
  let received := msg.take 1024
  let client_list ← MainServer.recvList received
  let (_, toA, toB, _) ← s.loopHead.serveRequest client_list
  let replyA ← Backend.reply tA toA
  let replyB ← Backend.reply tB toB
  match first with
  | .A => s.loopBody received replyA replyB
  | .B => s.loopBody received replyB replyA

/-- Two tables of distinct users with separated lists of positive intervals, and a main server
that knows their names and holds no request. -/
structure Deployed (tA tB : List User) (s : MainServer) : Prop where
  distinct : ((tA ++ tB).map (·.name)).Nodup
  separated : ∀ u ∈ tA ++ tB, Separated (Backend.intervals u)
  positive : ∀ u ∈ tA ++ tB, ∀ i ∈ Backend.intervals u, Positive i
  serverA : ∀ name, name ∈ s.serverA ↔ name ∈ Backend.getName tA
  serverB : ∀ name, name ∈ s.serverB ↔ name ∈ Backend.getName tB
  requestA : s.requestA = []
  requestB : s.requestB = []

/-- A request of up to ten distinct names, one of which exists. -/
structure Asks (tA tB : List User) (request : List Bytes) : Prop where
  names : ∀ name ∈ request, IsName name
  distinct : request.Nodup
  length_le : request.length ≤ 10
  existing : ∃ u ∈ tA ++ tB, u.name ∈ request

section
variable {tA tB : List User} {s : MainServer} {request : List Bytes}

theorem Deployed.requested_foundA (h : Deployed tA tB s) (names : List Bytes) :
    requested tA (s.foundA names) = requested tA names := by
  refine List.filter_congr ?_
  intro u hu
  have hA : u.name ∈ s.serverA := (h.serverA _).mpr (List.mem_map_of_mem hu)
  simp [MainServer.mem_foundA, hA]

theorem Deployed.requested_foundB (h : Deployed tA tB s) (names : List Bytes) :
    requested tB (s.foundB names) = requested tB names := by
  refine List.filter_congr ?_
  intro u hu
  have hB : u.name ∈ s.serverB := (h.serverB _).mpr (List.mem_map_of_mem hu)
  have hA : u.name ∉ s.serverA := by
    have hdisjoint := List.nodup_append.mp (List.map_append ▸ h.distinct)
    exact fun hA => hdisjoint.2.2 _ ((h.serverA _).mp hA) _ (List.mem_map_of_mem hu) rfl
  simp [MainServer.mem_foundB, hA, hB]

theorem Deployed.separatedA (h : Deployed tA tB s) : ∀ u ∈ tA, Separated (Backend.intervals u) :=
  fun u hu => h.separated u (List.mem_append_left _ hu)

theorem Deployed.separatedB (h : Deployed tA tB s) : ∀ u ∈ tB, Separated (Backend.intervals u) :=
  fun u hu => h.separated u (List.mem_append_right _ hu)

theorem Deployed.getResult_schedules (h : Deployed tA tB s) (hq : Asks tA tB request) :
    MainServer.getResult (serialize (Backend.schedule ⟨tA, s.foundA request, []⟩)) =
        Backend.schedule ⟨tA, s.foundA request, []⟩ ∧
      MainServer.getResult (serialize (Backend.schedule ⟨tB, s.foundB request, []⟩)) =
        Backend.schedule ⟨tB, s.foundB request, []⟩ := by
  have hdistinct := List.nodup_append.mp (List.map_append ▸ h.distinct)
  have hten : ∀ p : Bytes → Bool, (request.filter p).length ≤ 10 := fun p =>
    le_trans (List.length_filter_le p request) hq.length_le
  constructor
  · exact Backend.getResult_schedule h.separatedA
      (fun u hu => h.positive u (List.mem_append_left _ hu)) hdistinct.1 (hten _)
  · exact Backend.getResult_schedule h.separatedB
      (fun u hu => h.positive u (List.mem_append_right _ hu)) hdistinct.2.1 (hten _)

theorem Deployed.serveRequest_eq (h : Deployed tA tB s) (hfits : Fits request) :
    s.loopHead.serveRequest request =
      some (nameMsg (s.missing request), getNameStr (s.foundA request),
        getNameStr (s.foundB request), s.loopHead.asked request) := by
  have hmissing : MainServer.replyClient (s.loopHead.missing request) =
      some (nameMsg (s.missing request)) :=
    MainServer.replyClient_eq (hfits.sublist List.filter_sublist)
  have hA : s.loopHead.requestA ++ s.loopHead.foundA request = s.foundA request := by
    rw [MainServer.loopHead_requestA, h.requestA]
    rfl
  have hB : s.loopHead.requestB ++ s.loopHead.foundB request = s.foundB request := by
    rw [MainServer.loopHead_requestB, h.requestB]
    rfl
  rw [MainServer.serveRequest_eq, MainServer.loopHead_noExist, List.nil_append, hmissing, hA, hB]
  rfl

theorem systemRound_eq (hd : Deployed tA tB s) (hq : Asks tA tB request) (hfits : Fits request)
    (first : ServerId) :
    systemRound tA tB s first request =
      s.loopBody (nameMsg request) (serialize (Backend.schedule ⟨tA, s.foundA request, []⟩))
        (serialize (Backend.schedule ⟨tB, s.foundB request, []⟩)) := by
  have hwhole : (nameMsg request).take 1024 = nameMsg request :=
    List.take_of_length_le (length_nameMsg hfits).le
  have hfitsA : Fits (s.foundA request) := hfits.sublist List.filter_sublist
  have hfitsB : Fits (s.foundB request) := hfits.sublist List.filter_sublist
  have hreplyA := Backend.reply_request tA hfitsA
  have hreplyB := Backend.reply_request tB hfitsB
  obtain ⟨hresA, hresB⟩ := hd.getResult_schedules hq
  have hsepA := (Backend.freeTime_schedule hd.separatedA (s.foundA request)).separated
  have hsepB := (Backend.freeTime_schedule hd.separatedB (s.foundB request)).separated
  unfold systemRound
  simp only [Client.sendList_eq hfits, Option.bind_eq_bind, Option.bind_some, hwhole,
    (nameMsg_received hfits).1, hd.serveRequest_eq hfits, hreplyA, hreplyB]
  cases first with
  | A => rfl
  | B => exact MainServer.loopBody_comm (hresB.symm ▸ hsepB) (hresA.symm ▸ hsepA) s _

theorem systemRound_final (hd : Deployed tA tB s) (hq : Asks tA tB request) (hfits : Fits request)
    (first : ServerId) :
    ∃ r s', systemRound tA tB s first request = some (some r, s') ∧
      r.final = MainServer.resultFinal (Backend.schedule ⟨tA, s.foundA request, []⟩)
        (Backend.schedule ⟨tB, s.foundB request, []⟩) := by
  rw [systemRound_eq hd hq hfits first]
  obtain ⟨o, s', hpass, hnil | ⟨_, r, rfl, _⟩⟩ := s.loopBody_fits hfits
    (serialize (Backend.schedule ⟨tA, s.foundA request, []⟩))
    (serialize (Backend.schedule ⟨tB, s.foundB request, []⟩))
  · obtain ⟨u, _, hu⟩ := hq.existing
    rw [hnil.1] at hu
    cases hu
  · refine ⟨r, s', hpass, ?_⟩
    obtain ⟨hresA, hresB⟩ := hd.getResult_schedules hq
    obtain ⟨list, _, ⟨_, hnone, _⟩ | ⟨_, r', hr, hserved, _⟩⟩ := MainServer.loopBody_some.mp hpass
    · cases hnone
    · cases hr
      rw [hserved.2.2.2.1, hresA, hresB]

theorem systemRound_overflow (hq : Asks tA tB request) (first : ServerId)
    (h : ¬ (getNameStr request).length ≤ 1023) : systemRound tA tB s first request = none := by
  have hcopy : strcpy 1024 (getNameStr request) = none :=
    strcpy_overflow (noNul_getNameStr fun name hn => (hq.names name hn).noNul) (by omega)
  simp only [systemRound, Client.sendList, hcopy, Option.bind_eq_bind, Option.bind_none]

end

/-- A round ends with what one machine computes exactly when its request fits the message and,
where both backends are asked, either both or neither have common time. -/
theorem distributed_eq_central (tA tB : List User) (s : MainServer) (hd : Deployed tA tB s)
    (request : List Bytes) (hq : Asks tA tB request) (first : ServerId) :
    (∃ r s', systemRound tA tB s first request = some (some r, s') ∧
        Central tA tB request r.final) ↔
      (getNameStr request).length ≤ 1023 ∧
        (requested tA request ≠ [] → requested tB request ≠ [] →
          (NoCommon (requested tA request) ↔ NoCommon (requested tB request))) := by
  by_cases hlen : (getNameStr request).length ≤ 1023
  · obtain ⟨r, s', hround, hfinal⟩ := systemRound_final hd hq ⟨hq.names, hlen⟩ first
    have hX : FreeTime (requested tA request) (Backend.schedule ⟨tA, s.foundA request, []⟩) :=
      hd.requested_foundA request ▸ Backend.freeTime_schedule hd.separatedA _
    have hY : FreeTime (requested tB request) (Backend.schedule ⟨tB, s.foundB request, []⟩) :=
      hd.requested_foundB request ▸ Backend.freeTime_schedule hd.separatedB _
    have hexists : requested (tA ++ tB) request ≠ [] := by
      obtain ⟨u, hu, hn⟩ := hq.existing
      exact List.ne_nil_of_mem (mem_requested.mpr ⟨hu, hn⟩)
    have hcentral := central_iff_points hd.separated hexists
      (MainServer.separated_resultFinal hX.separated hY.separated)
    rw [covers_resultFinal_iff hX hY (requested_append tA tB request ▸ hexists), ← hfinal]
      at hcentral
    rw [← hcentral, and_iff_right hlen]
    constructor
    · rintro ⟨r', s'', hround', h⟩
      rw [hround, Option.some.injEq, Prod.mk.injEq, Option.some.injEq] at hround'
      rwa [hround'.1]
    · exact fun h => ⟨r, s', hround, h⟩
  · refine iff_of_false ?_ fun h => hlen h.1
    rintro ⟨r, s', hround, _⟩
    rw [systemRound_overflow hq first hlen] at hround
    cases hround

theorem deployed_sample :
    Deployed [sampleUserA] [sampleUserB] (MainServer.booted [[97]] [[98]]) where
  distinct := by decide
  separated := by decide +kernel
  positive := by decide +kernel
  serverA _ := Iff.rfl
  serverB _ := Iff.rfl
  requestA := rfl
  requestB := rfl

/-- The request `a b`, of which each server knows one name. -/
theorem asks_sample : Asks [sampleUserA] [sampleUserB] [[97], [98]] where
  names := by
    simp [isName_letter (show isLowerAlnum 97 = true from rfl),
      isName_letter (show isLowerAlnum 98 = true from rfl)]
  distinct := by decide
  length_le := by decide
  existing := ⟨sampleUserA, by decide, by decide⟩

/-- At time 7 both users are free. -/
theorem balanced_sample : NoCommon (requested [sampleUserA] [[97], [98]]) ↔
    NoCommon (requested [sampleUserB] [[97], [98]]) := by
  have hA : ∀ u ∈ [sampleUserA], Covers (Backend.intervals u) 7 := by decide +kernel
  have hB : ∀ u ∈ [sampleUserB], Covers (Backend.intervals u) 7 := by decide +kernel
  refine iff_of_false ?_ ?_
  · intro hbusy
    obtain ⟨u, hu, hnot⟩ := hbusy 7
    exact hnot (hA u (mem_requested.mp hu).1)
  · intro hbusy
    obtain ⟨u, hu, hnot⟩ := hbusy 7
    exact hnot (hB u (mem_requested.mp hu).1)

theorem distributed_eq_central_two :
    ∃ r s', systemRound [sampleUserA] [sampleUserB] (MainServer.booted [[97]] [[98]]) .B
        [[97], [98]] = some (some r, s') ∧
      Central [sampleUserA] [sampleUserB] [[97], [98]] r.final :=
  (distributed_eq_central _ _ _ deployed_sample [[97], [98]] asks_sample .B).mpr
    ⟨by decide, fun _ _ => balanced_sample⟩

/-- The user `a`, never free. -/
def busyUser : User := ⟨[97], table []⟩

theorem deployed_busy :
    Deployed [busyUser] [sampleUserB] (MainServer.booted [[97]] [[98]]) where
  distinct := by decide
  separated := by decide +kernel
  positive := by decide +kernel
  serverA _ := Iff.rfl
  serverB _ := Iff.rfl
  requestA := rfl
  requestB := rfl

/-- A request for `a` and `b`: nobody is free with `a`, but the round ends with the time of `b`. -/
theorem distributed_ne_central :
    ¬ ∀ tA tB s, Deployed tA tB s → ∀ request, Asks tA tB request → ∀ first,
      ∃ r s', systemRound tA tB s first request = some (some r, s') ∧
        Central tA tB request r.final := by
  intro h
  have hq : Asks [busyUser] [sampleUserB] [[97], [98]] :=
    ⟨asks_sample.names, asks_sample.distinct, asks_sample.length_le, busyUser, by decide, by decide⟩
  obtain ⟨r, s', hround, hcentral⟩ := h _ _ _ deployed_busy _ hq .A
  have hfinal : (systemRound [busyUser] [sampleUserB] (MainServer.booted [[97]] [[98]]) .A
      [[97], [98]]).bind (fun p => p.1.map (·.final)) = some [⟨7, 12⟩] := by decide +kernel
  have hbusy : NoCommon (requested [busyUser] [[97], [98]]) := by
    intro t
    have hnone : Backend.intervals busyUser = [] := by decide +kernel
    exact ⟨busyUser, by decide, by rw [hnone]; exact covers_nil t⟩
  rw [hround, Option.bind_some, Option.map_some, hcentral.noCommon (.inl hbusy)] at hfinal
  cases hfinal

end StreamBridge
