import StreamBridge.Lib.Machine
import StreamBridge.Schedule

/-!
# StreamBridge.Replies

The interval lists a backend sends, over runs of its loop, and what becomes of them at the main
server. A backend's global result is cleared at the end of a pass only if `sendto` succeeded, and
an empty request is answered with it.

* `replies_history_free`: the replies depend on the requests alone exactly when no empty request
  finds such a result.
* `sends_schedule`: whatever the run, a reply is the serialization of a schedule.
* `pipeline_keeps_separated`: sorted and disjoint lists stay so up to `result_final`.
* `results_fit_wire`: with distinct names and ten users at most, a message has at most 728 bytes.
* `datagram_round_trip`: what `getResult` reads from a serialized list of any length.
-/

namespace StreamBridge

open CString Intervals

namespace Backend

/-- What a pass reads from outside: the datagram, and whether `sendto` succeeded. -/
structure Input where
  datagram : Bytes
  sent : Bool

def step (s : Backend) (i : Input) : Option (Bytes × Backend) := s.loopBody i.datagram i.sent

/-- The state after `boot_up`. -/
def booted (list : List User) : Backend := ⟨list, [], []⟩

/-- A request of the main server: the names asked for, and whether its answer could be sent. -/
structure Request where
  names : List Bytes
  sent : Bool

def Request.input (r : Request) : Input := ⟨getNameStr r.names, r.sent⟩

/-- The answer that depends on the request and the table alone; empty for an empty request. -/
def answer (list : List User) (r : Request) : Bytes := serialize (schedule ⟨list, r.names, []⟩)

/-- The users a request names have time to offer: one user any, two or more a common one. -/
def Offers (list : List User) (names : List Bytes) : Prop :=
  (∃ q, getRequestInfo names list = [q] ∧ q.time ≠ []) ∨
    2 ≤ (getRequestInfo names list).length ∧
      ∃ t, ∀ q ∈ getRequestInfo names list, Covers q.time t

/-- The last request that was not empty had an answer to send, and it could not be sent. -/
def Pending (list : List User) (done : List Request) : Prop :=
  ∃ before r after, done = before ++ r :: after ∧ r.names ≠ [] ∧ r.sent = false ∧
    Offers list r.names ∧ ∀ r' ∈ after, r'.names = []

/-- Every request fits the buffer of `getVector`, and no empty request comes while an answer is
pending. -/
structure Undisturbed (list : List User) (requests : List Request) : Prop where
  fits : ∀ r ∈ requests, (getNameStr r.names).length ≤ 1023
  free : ∀ done r rest, requests = done ++ r :: rest → r.names = [] → ¬ Pending list done

theorem schedule_ne_nil {list : List User} {names : List Bytes} :
    schedule ⟨list, names, []⟩ ≠ [] ↔ Offers list names := by
  have hmeaning := schedule_meaning ⟨list, names, []⟩
  dsimp only at hmeaning
  match hinfo : getRequestInfo names list with
  | [] =>
    have hnil : schedule ⟨list, names, []⟩ = [] := by simp only [schedule, hinfo]
    simp [Offers, hinfo, hnil]
  | [q] =>
    have hone : schedule ⟨list, names, []⟩ = q.time := by simp only [schedule, hinfo]
    simp [Offers, hinfo, hone]
  | q :: q' :: qs =>
    have hasked : ∃ u ∈ list, u.name ∈ names := getRequestInfo_ne_nil.mp (by simp [hinfo])
    have htwo : 2 ≤ (getRequestInfo names list).length := by simp [hinfo]
    rw [Offers]
    constructor
    · intro hne
      obtain ⟨i, hi⟩ := List.exists_mem_of_ne_nil _ hne
      have hproper := (hmeaning.2.1 htwo i hi).1
      exact .inr ⟨htwo, i.start, (hmeaning.1 hasked i.start).mp ⟨i, hi, le_refl _, hproper⟩⟩
    · rintro (⟨p, hp, _⟩ | ⟨_, t, ht⟩)
      · rw [hinfo] at hp
        cases hp
      · obtain ⟨i, hi, _⟩ := (hmeaning.1 hasked t).mpr ht
        exact List.ne_nil_of_mem hi

/-! ## One pass -/

theorem step_empty (s : Backend) {r : Request} (h : r.names = []) :
    step s r.input = some (serialize s.result, s) := by
  have hdata : r.input.datagram = [] := by rw [Request.input, h, getNameStr_nil]
  rw [step, hdata]
  rfl

theorem step_request (s : Backend) {r : Request} (hne : r.names ≠ [])
    (hnames : ∀ name ∈ r.names, IsName name) (hlen : (getNameStr r.names).length ≤ 1023) :
    step s r.input = some (answer s.list r,
      if r.sent then booted s.list
      else ⟨s.list, r.names, schedule ⟨s.list, r.names, []⟩⟩) := by
  obtain ⟨names, sent⟩ := r
  have htake : (getNameStr names).take 1024 = getNameStr names :=
    List.take_of_length_le (Nat.le_succ_of_le hlen)
  have hpos : (getNameStr names).length ≠ 0 := fun h0 =>
    hne (getNameStr_eq_nil.mp (List.length_eq_zero_iff.mp h0))
  have hdecode : getVector (getNameStr names) = some names :=
    getVector_getNameStr hne hnames hlen
  cases sent <;>
  · simp only [step, Request.input, loopBody, htake, if_neg hpos, hdecode, Option.bind_eq_bind,
      Option.bind_some]
    rfl

/-- A request that does not fit overflows the buffer of `getVector`. -/
theorem step_overflow (s : Backend) {r : Request} (hnames : ∀ name ∈ r.names, IsName name)
    (hlen : ¬ (getNameStr r.names).length ≤ 1023) : step s r.input = none := by
  have hpos : ((getNameStr r.names).take 1024).length ≠ 0 := by
    rw [List.length_take]
    omega
  have h0 : 0 ∉ (getNameStr r.names).take 1024 := fun h =>
    noNul_getNameStr (fun name hn => (hnames name hn).noNul) (List.mem_of_mem_take h)
  have hcopy : strcpy 1024 ((getNameStr r.names).take 1024) = none :=
    strcpy_overflow h0 (by rw [List.length_take]; omega)
  simp only [step, Request.input, loopBody, if_neg hpos, getVector, hcopy, Option.bind_eq_bind,
    Option.bind_none]

theorem answer_empty (list : List User) {r : Request} (h : r.names = []) : answer list r = [] := by
  rw [answer, h]
  rfl

theorem pending_snoc {list : List User} {done : List Request} {r : Request} :
    Pending list (done ++ [r]) ↔
      if r.names = [] then Pending list done else r.sent = false ∧ Offers list r.names := by
  constructor
  · rintro ⟨before, r', after, hsplit, hne, hsent, hoffers, hafter⟩
    rcases List.eq_nil_or_concat after with rfl | ⟨after, last, rfl⟩
    · obtain ⟨rfl, hlast⟩ := List.append_inj' hsplit rfl
      cases hlast
      rw [if_neg hne]
      exact ⟨hsent, hoffers⟩
    · rw [List.concat_eq_append, ← List.cons_append, ← List.append_assoc] at hsplit
      obtain ⟨rfl, hlast⟩ := List.append_inj' hsplit rfl
      cases hlast
      rw [if_pos (hafter r (by simp))]
      exact ⟨before, r', after, rfl, hne, hsent, hoffers, fun x hx => hafter x (by simp [hx])⟩
  · intro h
    by_cases hnil : r.names = []
    · rw [if_pos hnil] at h
      obtain ⟨before, r', after, rfl, hne, hsent, hoffers, hafter⟩ := h
      refine ⟨before, r', after ++ [r], by simp, hne, hsent, hoffers, ?_⟩
      intro x hx
      rcases List.mem_append.mp hx with hx | hx
      · exact hafter x hx
      · rw [List.mem_singleton.mp hx, hnil]
    · rw [if_neg hnil] at h
      exact ⟨done, r, [], rfl, hnil, h.1, h.2, by simp⟩

theorem undisturbed_snoc {list : List User} {done : List Request} {r : Request} :
    Undisturbed list (done ++ [r]) ↔ Undisturbed list done ∧
      (getNameStr r.names).length ≤ 1023 ∧ (r.names = [] → ¬ Pending list done) := by
  constructor
  · rintro ⟨hfits, hfree⟩
    refine ⟨⟨fun x hx => hfits x (by simp [hx]), ?_⟩, hfits r (by simp), hfree done r [] rfl⟩
    intro before x rest hsplit
    exact hfree before x (rest ++ [r]) (by simp [hsplit])
  · rintro ⟨⟨hfits, hfree⟩, hlen, hlast⟩
    refine ⟨?_, ?_⟩
    · intro x hx
      rcases List.mem_append.mp hx with hx | hx
      · exact hfits x hx
      · rwa [List.mem_singleton.mp hx]
    · intro before x rest hsplit
      rcases List.eq_nil_or_concat rest with rfl | ⟨rest, y, rfl⟩
      · obtain ⟨rfl, hx⟩ := List.append_inj' hsplit rfl
        cases hx
        exact hlast
      · rw [List.concat_eq_append, ← List.cons_append, ← List.append_assoc] at hsplit
        obtain ⟨hdone, _⟩ := List.append_inj' hsplit rfl
        exact hfree before x rest hdone

/-! ## Runs -/

/-- After a history the global result is empty unless an answer is pending. -/
structure After (table : List User) (done : List Request) (s : Backend) : Prop where
  list : s.list = table
  result : s.result ≠ [] ↔ Pending table done

theorem serialize_eq_nil {L : List TimeInterval} : serialize L = [] ↔ L = [] := by
  rw [← List.length_eq_zero_iff, length_serialize, ← List.length_eq_zero_iff]
  omega

theorem after_step {table : List User} {done : List Request} {s : Backend} (h : After table done s)
    {r : Request} (hnames : ∀ name ∈ r.names, IsName name)
    (hlen : (getNameStr r.names).length ≤ 1023) :
    ∃ data s', step s r.input = some (data, s') ∧ After table (done ++ [r]) s' ∧
      (data = answer table r ↔ (r.names = [] → ¬ Pending table done)) := by
  by_cases hnil : r.names = []
  · refine ⟨_, s, step_empty s hnil, ⟨h.list, ?_⟩, ?_⟩
    · rw [pending_snoc, if_pos hnil]
      exact h.result
    · rw [answer_empty table hnil, serialize_eq_nil, ← h.result, not_not]
      exact ⟨fun hres _ => hres, fun hres => hres hnil⟩
  · refine ⟨_, _, step_request s hnil hnames hlen, ?_, ?_⟩
    · by_cases hsent : r.sent = true
      · rw [if_pos hsent]
        refine ⟨h.list, ?_⟩
        rw [pending_snoc, if_neg hnil]
        simp [booted, hsent]
      · rw [if_neg hsent]
        refine ⟨h.list, ?_⟩
        rw [pending_snoc, if_neg hnil, h.list, schedule_ne_nil]
        simp [hsent]
    · rw [h.list]
      exact iff_of_true rfl fun hc => absurd hc hnil

/-- The run of an undisturbed history: every answer is right, and the state is known. -/
theorem run_undisturbed {table : List User} {requests : List Request}
    (hnames : ∀ r ∈ requests, ∀ name ∈ r.names, IsName name) (h : Undisturbed table requests) :
    ∃ s, Machine.run step (booted table) (requests.map Request.input) =
        some (requests.map (answer table), s) ∧ After table requests s := by
  induction requests using List.reverseRecOn with
  | nil =>
    refine ⟨booted table, rfl, rfl, ?_⟩
    simp [booted, Pending]
  | append_singleton done r ih =>
    obtain ⟨hdone, hlen, hfree⟩ := undisturbed_snoc.mp h
    obtain ⟨s, hrun, hafter⟩ := ih (fun x hx => hnames x (by simp [hx])) hdone
    obtain ⟨data, s', hstep, hafter', hdata⟩ := after_step hafter (hnames r (by simp)) hlen
    refine ⟨s', ?_, hafter'⟩
    rw [List.map_append, List.map_append, List.map_singleton, List.map_singleton, Machine.run_snoc]
    exact ⟨_, s, data, hrun, hstep, by rw [hdata.mpr hfree]⟩

/-- Every request of the run is answered by what the request and the table alone determine. -/
def HistoryFree (table : List User) (requests : List Request) : Prop :=
  ∃ s, Machine.run step (booted table) (requests.map Request.input) =
    some (requests.map (answer table), s)

/-- A backend's replies do not depend on earlier requests exactly when each request fits the
buffer and no empty request comes while an answer that could not be sent is pending. -/
theorem replies_history_free (table : List User) (requests : List Request)
    (hnames : ∀ r ∈ requests, ∀ name ∈ r.names, IsName name) :
    HistoryFree table requests ↔ Undisturbed table requests := by
  constructor
  · induction requests using List.reverseRecOn with
    | nil => exact fun _ => ⟨by simp, by simp⟩
    | append_singleton done r ih =>
      rintro ⟨t, hrun⟩
      have hwf : ∀ x ∈ done, ∀ name ∈ x.names, IsName name := fun x hx => hnames x (by simp [hx])
      rw [List.map_append, List.map_append, List.map_singleton, List.map_singleton,
        Machine.run_snoc] at hrun
      obtain ⟨os, s, data, hrun, hstep, hos⟩ := hrun
      obtain ⟨rfl, hdata⟩ := List.append_inj' hos rfl
      cases hdata
      have hdone := ih hwf ⟨s, hrun⟩
      obtain ⟨s', hrun', hafter⟩ := run_undisturbed hwf hdone
      rw [hrun, Option.some.injEq, Prod.mk.injEq] at hrun'
      obtain ⟨_, rfl⟩ := hrun'
      have hlen : (getNameStr r.names).length ≤ 1023 := by
        by_contra hlong
        rw [step_overflow s (hnames r (by simp)) hlong] at hstep
        cases hstep
      obtain ⟨data, s', hstep', _, hdata⟩ := after_step hafter (hnames r (by simp)) hlen
      rw [hstep, Option.some.injEq, Prod.mk.injEq] at hstep'
      exact undisturbed_snoc.mpr ⟨hdone, hlen, hdata.mp hstep'.1.symm⟩
  · intro h
    obtain ⟨s, hrun, _⟩ := run_undisturbed hnames h
    exact ⟨s, hrun⟩

/-- User `a` is free from 1 to 2. -/
def sampleTable : List User :=
  [⟨[97], Vector.ofFn fun m => if m.val = 0 then (1, 2) else (0, 0)⟩]

/-- A request for `a` and then an empty one, whatever becomes of the answers. -/
theorem isName_sampleRequests (sent sent' : Bool) :
    ∀ r ∈ ([⟨[[97]], sent⟩, ⟨[], sent'⟩] : List Request), ∀ name ∈ r.names, IsName name := by
  refine List.forall_mem_cons.mpr ⟨?_, List.forall_mem_singleton.mpr (by simp)⟩
  exact List.forall_mem_singleton.mpr (isName_letter rfl)

theorem replies_history_free_sample : HistoryFree sampleTable [⟨[[97]], true⟩, ⟨[], false⟩] := by
  refine (replies_history_free sampleTable _ (isName_sampleRequests true false)).mpr ?_
  have hfirst : Undisturbed sampleTable ([] ++ [⟨[[97]], true⟩]) :=
    undisturbed_snoc.mpr ⟨⟨by simp, by simp⟩, by decide, by simp⟩
  have hpending : ¬ Pending sampleTable ([] ++ [⟨[[97]], true⟩]) := by
    rw [pending_snoc]
    simp
  exact undisturbed_snoc.mpr ⟨hfirst, by decide, fun _ => hpending⟩

/-- The answer for `a` cannot be sent; the next request, an empty one, gets it. -/
theorem reply_of_earlier_request :
    ¬ ∀ table requests, (∀ r ∈ requests, ∀ name ∈ r.names, IsName name) →
      HistoryFree table requests := by
  intro h
  obtain ⟨s, hrun⟩ := h sampleTable _ (isName_sampleRequests false true)
  have hreplies : (Machine.run step (booted sampleTable)
      ([⟨[[97]], false⟩, ⟨[], true⟩].map Request.input)).map (·.1) =
      some [serialize [⟨1, 2⟩], serialize [⟨1, 2⟩]] := by decide +kernel
  rw [hrun, Option.map_some, Option.some.injEq] at hreplies
  have hsecond : answer sampleTable ⟨[], true⟩ = serialize [⟨1, 2⟩] :=
    (List.cons.inj (List.cons.inj hreplies).2).1
  exact absurd hsecond (by decide +kernel)

/-! ## What any run sends -/

/-- Some run of a backend that holds `table`, on whatever datagrams and with whatever failures of
`sendto`, sends `data`. -/
def Sends (table : List User) (data : Bytes) : Prop :=
  ∃ inputs os s, Machine.run step (booted table) inputs = some (os, s) ∧ data ∈ os

theorem sends_schedule {table : List User} {data : Bytes} (h : Sends table data) :
    ∃ request, data = serialize (schedule ⟨table, request, []⟩) := by
  obtain ⟨inputs, os, s, hrun, hdata⟩ := h
  have hstep : ∀ (s : Backend) (i : Input) (o : Bytes) (s' : Backend),
      (s.list = table ∧ ∃ request, s.result = schedule ⟨table, request, []⟩) → True →
      step s i = some (o, s') →
      (s'.list = table ∧ ∃ request, s'.result = schedule ⟨table, request, []⟩) ∧
        ∃ request, o = serialize (schedule ⟨table, request, []⟩) := by
    rintro ⟨list, request, result⟩ ⟨datagram, sent⟩ o s' ⟨rfl, old, hresult⟩ _ hs
    simp only [step, loopBody] at hs
    split at hs
    · cases hs
      exact ⟨⟨rfl, old, hresult⟩, old, congrArg serialize hresult⟩
    · simp only [Option.bind_eq_bind, Option.bind_eq_some_iff] at hs
      obtain ⟨names, _, hs⟩ := hs
      split at hs
      · cases hs
        exact ⟨⟨rfl, [], rfl⟩, names, rfl⟩
      · cases hs
        exact ⟨⟨rfl, names, rfl⟩, names, rfl⟩
  have hall := Machine.run_outputs hstep ⟨rfl, [], rfl⟩ (fun _ _ => trivial) hrun
  obtain ⟨i, hi, rfl⟩ := List.getElem_of_mem hdata
  exact hall.get (hall.length_eq ▸ hi) hi

theorem spacedBy_sends {r : Int32 → Int32 → Prop} (hr : IsGap r) {table : List User}
    (h : ∀ u ∈ table, SpacedBy r (intervals u)) {data : Bytes} (hdata : Sends table data) :
    SpacedBy r (MainServer.getResult data) := by
  obtain ⟨request, rfl⟩ := sends_schedule hdata
  exact (spacedBy_schedule hr h).sublist (MainServer.getResult_sublist _)

theorem spacedBy_partial {r : Int32 → Int32 → Prop} (hr : IsGap r) {q : Query} {qs : List Query}
    (h : ∀ p ∈ q :: qs, SpacedBy r p.time) :
    ∀ p ∈ qs.scanl getIntersection q, SpacedBy r p.time := by
  induction qs generalizing q with
  | nil => simpa using h
  | cons q' qs ih =>
    intro p hp
    rw [List.scanl_cons, List.mem_cons] at hp
    rcases hp with rfl | hp
    · exact h p (by simp)
    · refine ih (List.forall_mem_cons.mpr ⟨?_, fun x hx => h x (by simp [hx])⟩) p hp
      rw [getIntersection_time]
      exact (h q (by simp)).meet hr (h q' (by simp))

end Backend

/-- From tables whose lists satisfy `P`, every schedule, every result in between and the final
result of every pair of replies, in either order, satisfy `P`. -/
structure PipelineKeeps (P : List TimeInterval → Prop) : Prop where
  schedule : ∀ s : Backend, (∀ u ∈ s.list, P (Backend.intervals u)) → P s.schedule
  inBetween : ∀ s : Backend, (∀ u ∈ s.list, P (Backend.intervals u)) →
    ∀ q qs, Backend.getRequestInfo s.request s.list = q :: qs →
      ∀ p ∈ qs.scanl Backend.getIntersection q, P p.time
  final : ∀ tA tB, (∀ u ∈ tA, P (Backend.intervals u)) → (∀ u ∈ tB, P (Backend.intervals u)) →
    ∀ replyA replyB, Backend.Sends tA replyA → Backend.Sends tB replyB →
      P (MainServer.resultFinal (MainServer.getResult replyA) (MainServer.getResult replyB)) ∧
        P (MainServer.resultFinal (MainServer.getResult replyB) (MainServer.getResult replyA))

theorem pipeline_keeps_spaced {r : Int32 → Int32 → Prop} (hr : IsGap r) :
    PipelineKeeps (SpacedBy r) where
  schedule _ h := Backend.spacedBy_schedule hr h
  inBetween s h q qs hinfo := by
    refine Backend.spacedBy_partial hr fun p hp => ?_
    rw [← hinfo] at hp
    exact Backend.forall_times h s.request p.time (List.mem_map_of_mem hp)
  final tA tB hA hB replyA replyB hsA hsB :=
    ⟨MainServer.spacedBy_resultFinal hr (Backend.spacedBy_sends hr hA hsA)
        (Backend.spacedBy_sends hr hB hsB),
      MainServer.spacedBy_resultFinal hr (Backend.spacedBy_sends hr hB hsB)
        (Backend.spacedBy_sends hr hA hsA)⟩

/-- Sorted and disjoint lists give sorted and disjoint lists, and lists with gaps give lists with
gaps. -/
theorem pipeline_keeps_separated : PipelineKeeps Separated ∧ PipelineKeeps Apart := by
  have hsep : (Separated : List TimeInterval → Prop) = SpacedBy (· ≤ ·) :=
    funext fun _ => propext separated_iff
  have hapart : (Apart : List TimeInterval → Prop) = SpacedBy (· < ·) :=
    funext fun _ => propext apart_iff
  rw [hsep, hapart]
  exact ⟨pipeline_keeps_spaced isGap_le, pipeline_keeps_spaced isGap_lt⟩

/-! ## Sizes -/

/-- The replies for a request split over both backends, and the result from them, as bytes. -/
def Bytes728 (tA tB : List User) (reqA reqB : List Bytes) : Prop :=
  let replyA := serialize (Backend.schedule ⟨tA, reqA, []⟩)
  let replyB := serialize (Backend.schedule ⟨tB, reqB, []⟩)
  let resultA := MainServer.getResult replyA
  let resultB := MainServer.getResult replyB
  replyA.length ≤ 728 ∧ replyB.length ≤ 728 ∧
    (serialize (MainServer.resultFinal resultA resultB)).length ≤ 728 ∧
    (serialize (MainServer.resultFinal resultB resultA)).length ≤ 728

theorem bytes728_of_matched {tA tB : List User} (hA : ∀ u ∈ tA, Separated (Backend.intervals u))
    (hB : ∀ u ∈ tB, Separated (Backend.intervals u)) {reqA reqB : List Bytes}
    (hten : (Backend.getRequestInfo reqA tA).length +
      (Backend.getRequestInfo reqB tB).length ≤ 10) :
    Bytes728 tA tB reqA reqB := by
  have received : ∀ {table : List User}, (∀ u ∈ table, Separated (Backend.intervals u)) →
      ∀ request : List Bytes,
        Separated (MainServer.getResult (serialize (Backend.schedule ⟨table, request, []⟩))) := by
    intro table h request
    exact (Backend.separated_schedule h).sublist (MainServer.getResult_sublist _)
  have hsizeA : (Backend.schedule ⟨tA, reqA, []⟩).length ≤
      9 * (Backend.getRequestInfo reqA tA).length + 1 := Backend.length_schedule_le hA
  have hsizeB : (Backend.schedule ⟨tB, reqB, []⟩).length ≤
      9 * (Backend.getRequestInfo reqB tB).length + 1 := Backend.length_schedule_le hB
  have hresultA := (MainServer.getResult_sublist (Backend.schedule ⟨tA, reqA, []⟩)).length_le
  have hresultB := (MainServer.getResult_sublist (Backend.schedule ⟨tB, reqB, []⟩)).length_le
  have hfinal := MainServer.length_resultFinal_le (received hA reqA) (received hB reqB)
  have hfinal' := MainServer.length_resultFinal_le (received hB reqB) (received hA reqA)
  simp only [Bytes728, length_serialize]
  omega

/-- Sizes: an intersection grows by sums, a schedule by nine intervals a user, and a request that
matches ten users at most needs 728 bytes at most in every message. With distinct names in each
table a request of ten names does. -/
theorem results_fit_wire :
    (∀ X Y : List TimeInterval, Separated X → Separated Y → X ≠ [] → Y ≠ [] →
      (MainServer.getIntersection X Y).length ≤ X.length + Y.length - 1) ∧
    (∀ q₁ q₂ : Query, Separated q₁.time → Separated q₂.time → q₁.time ≠ [] → q₂.time ≠ [] →
      (Backend.getIntersection q₁ q₂).time.length ≤ q₁.time.length + q₂.time.length - 1) ∧
    (∀ s : Backend, (∀ u ∈ s.list, Separated (Backend.intervals u)) →
      s.schedule.length ≤ 9 * (Backend.getRequestInfo s.request s.list).length + 1) ∧
    (∀ tA tB : List User, (∀ u ∈ tA, Separated (Backend.intervals u)) →
      (∀ u ∈ tB, Separated (Backend.intervals u)) → ∀ reqA reqB : List Bytes,
        ((Backend.getRequestInfo reqA tA).length + (Backend.getRequestInfo reqB tB).length ≤ 10 →
          Bytes728 tA tB reqA reqB) ∧
        ((tA.map (·.name)).Nodup → (tB.map (·.name)).Nodup → reqA.length + reqB.length ≤ 10 →
          Bytes728 tA tB reqA reqB)) := by
  refine ⟨?_, ?_, fun s h => Backend.length_schedule_le h, ?_⟩
  · intro X Y hX hY hXne hYne
    have := length_meet hX hY hXne hYne
    rw [MainServer.getIntersection_eq_meet]
    omega
  · intro q₁ q₂ h₁ h₂ hne₁ hne₂
    have := length_meet h₁ h₂ hne₁ hne₂
    rw [Backend.getIntersection_time]
    omega
  · intro tA tB hA hB reqA reqB
    refine ⟨bytes728_of_matched hA hB, ?_⟩
    intro hnodupA hnodupB hten
    have := Backend.length_getRequestInfo_le hnodupA reqA
    have := Backend.length_getRequestInfo_le hnodupB reqB
    exact bytes728_of_matched hA hB (by omega)

/-- A user of ten touching intervals from 1 to 200, cut at times that depend on `j`. -/
def staircase (j : Nat) : User where
  name := [97]
  timeAva := Vector.ofFn fun m =>
    (if m.val = 0 then 1 else Int32.ofNat (10 * m.val + 1 + j),
      if m.val = 9 then 200 else Int32.ofNat (10 * m.val + 11 + j))

/-- Eleven users of one name have a common schedule of 92 intervals. -/
theorem results_outgrow_wire :
    ¬ ∀ tA tB : List User, (∀ u ∈ tA, Separated (Backend.intervals u)) →
      (∀ u ∈ tB, Separated (Backend.intervals u)) → ∀ reqA reqB : List Bytes,
        reqA.length + reqB.length ≤ 10 → Bytes728 tA tB reqA reqB := by
  intro h
  have hsep : ∀ u ∈ (List.range 11).map staircase, Separated (Backend.intervals u) := by
    decide +kernel
  have hlen : (Backend.schedule ⟨(List.range 11).map staircase, [[97]], []⟩).length = 92 := by
    decide +kernel
  have hsize := (h _ [] hsep (by simp) [[97]] [] (by decide)).1
  rw [length_serialize, hlen] at hsize
  exact absurd hsize (by decide)

/-! ## One datagram -/

/-- A serialized list of up to 8188 intervals fits a datagram, and the main server reads its first
128 intervals from it, all of them if there are no more. -/
theorem datagram_round_trip (L : List TimeInterval) (h : ∀ i ∈ L, Positive i)
    (hn : L.length ≤ 8188) :
    (serialize L).length ≤ 65507 ∧
      MainServer.getResult (serialize L) = L.take (min L.length 128) ∧
      (L.length ≤ 128 → MainServer.getResult (serialize L) = L) := by
  have hread : MainServer.getResult (serialize L) = L.take 128 := by
    rw [MainServer.getResult_serialize]
    exact filter_positive fun i hi => h i (List.mem_of_mem_take hi)
  refine ⟨by rw [length_serialize]; omega, ?_, ?_⟩
  · rw [hread, List.take_eq_take_min, Nat.min_comm]
  · intro hshort
    rw [hread, List.take_of_length_le hshort]

theorem datagram_round_trip_two :
    MainServer.getResult (serialize [⟨5, 9⟩, ⟨256, 300⟩]) = [⟨5, 9⟩, ⟨256, 300⟩] :=
  (datagram_round_trip [⟨5, 9⟩, ⟨256, 300⟩] (by decide) (by decide)).2.2 (by decide)

end StreamBridge
