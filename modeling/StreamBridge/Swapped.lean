import StreamBridge.Progress

/-!
# StreamBridge.Swapped

The main server takes the first list it receives at boot for that of server A. When server B is
faster it knows each name under the wrong server, and the system goes on like that.

* `reply_stranger`: a backend that is asked only for users it does not have answers with nothing.
* `starved_step`: so a round has no result, and its names stay in the request lists.
* `swapped_boot_starves`: no round of any interleaving has a result, and before any behaviour is
  undefined all that was asked for fits into one datagram.
-/

namespace StreamBridge

open CString Machine

/-- The names each server is asked for are not those of its table. -/
structure Misattributed (tA tB : List User) (s : MainServer) : Prop where
  isName : ∀ name, name ∈ s.serverA ∨ name ∈ s.serverB → IsName name
  serverA : ∀ name ∈ s.serverA, name ∉ Backend.getName tA
  serverB : ∀ name ∈ s.serverB, name ∉ Backend.getName tB

/-- Every known name that was ever requested is still in the request lists. -/
structure Starved (tA tB : List User) (names : List Bytes) (s : MainServer) : Prop
    extends Misattributed tA tB s where
  requestA : s.requestA = s.foundA names
  requestB : s.requestB = s.foundB names
  fits : ∀ X, (getNameStr (s.requestList X)).length ≤ 1023

/-- The names a round was asked for. -/
def asked (received : Bytes) : List Bytes := (MainServer.recvList received).getD []

theorem reply_stranger {table : List User} {ws : List Bytes} {data : Bytes}
    (hnames : ∀ w ∈ ws, IsName w) (hstranger : ∀ w ∈ ws, w ∉ Backend.getName table)
    (h : Backend.reply table (getNameStr ws) = some data) :
    data = [] ∧ (getNameStr ws).length ≤ 1023 := by
  have hlen := (reply_defined table fun w hw => (hnames w hw).toIsWord).mp ⟨data, h⟩
  have hnobody : requested table ws = [] := by
    unfold requested
    rw [List.filter_eq_nil_iff]
    intro u hu hmem
    exact hstranger u.name (of_decide_eq_true hmem) (List.mem_map_of_mem hu)
  have hnone : Backend.schedule ⟨table, ws, []⟩ = [] := by
    rw [Backend.schedule_eq_meetAll, Backend.getRequestInfo_eq_nil.mpr hnobody]
    rfl
  rw [Backend.reply_request table ⟨hnames, hlen⟩, hnone, Option.some.injEq] at h
  exact ⟨h.symm, hlen⟩

section
variable {tA tB : List User} {s s' : MainServer} {names : List Bytes}

theorem found_append (s : MainServer) (names list : List Bytes) :
    s.foundA names ++ s.foundA list = s.foundA (names ++ list) ∧
      s.foundB names ++ s.foundB list = s.foundB (names ++ list) :=
  ⟨(List.filter_append ..).symm, (List.filter_append ..).symm⟩

theorem Misattributed.foundA (h : Misattributed tA tB s) (names : List Bytes) :
    (∀ w ∈ s.foundA names, IsName w) ∧ ∀ w ∈ s.foundA names, w ∉ Backend.getName tA := by
  have hmem : ∀ w ∈ s.foundA names, w ∈ s.serverA := fun w hw => (MainServer.mem_foundA.mp hw).2
  exact ⟨fun w hw => h.isName w (.inl (hmem w hw)), fun w hw => h.serverA w (hmem w hw)⟩

theorem Misattributed.foundB (h : Misattributed tA tB s) (names : List Bytes) :
    (∀ w ∈ s.foundB names, IsName w) ∧ ∀ w ∈ s.foundB names, w ∉ Backend.getName tB := by
  have hmem : ∀ w ∈ s.foundB names, w ∈ s.serverB := fun w hw => (MainServer.mem_foundB.mp hw).2.2
  exact ⟨fun w hw => h.isName w (.inr (hmem w hw)), fun w hw => h.serverB w (hmem w hw)⟩

/-- Two empty replies: the pass has no result and keeps the names it asked for. -/
theorem loopBody_unanswered {received : Bytes} {list : List Bytes} {o : Option MainServer.Round}
    (hlist : MainServer.recvList received = some list) (hne : list ≠ [])
    (h : s.loopBody received [] [] = some (o, s')) :
    (∃ r, o = some r ∧ r.final = []) ∧ s'.serverA = s.serverA ∧ s'.serverB = s.serverB ∧
      s'.requestA = s.requestA ++ s.foundA list ∧ s'.requestB = s.requestB ++ s.foundB list := by
  obtain ⟨list', hlist', ⟨hnil, _⟩ | ⟨_, r, hr, hsent, rfl⟩⟩ := MainServer.loopBody_some.mp h
  · rw [hlist, Option.some.injEq] at hlist'
    exact absurd (hlist'.trans hnil) hne
  · rw [hlist, Option.some.injEq] at hlist'
    subst hlist'
    obtain ⟨hA, hB, hrA, hrB⟩ := MainServer.asked_fields s.loopHead list
    obtain ⟨hA', hB', hrA', hrB'⟩ := MainServer.endRound_requests (s.loopHead.asked list)
      (MainServer.getResult []) (MainServer.getResult [])
    rw [if_pos ⟨rfl, rfl⟩] at hrA' hrB'
    exact ⟨⟨r, hr, hsent.2.2.2.1⟩, hA'.trans hA, hB'.trans hB, hrA'.trans hrA, hrB'.trans hrB⟩

/-- A round has no result, and its names are left for the next one. -/
theorem starved_step (h : Starved tA tB names s) {i : Bytes × ServerId}
    {o : Option MainServer.Round} (hstep : serviceRound tA tB s i = some (o, s')) :
    Starved tA tB (names ++ asked i.1) s' ∧ ∃ r, o = some r ∧ r.final = [] := by
  obtain ⟨list, noExistMsg, toA, toB, waiting, replyA, replyB, hlist, hne, hserved, hA, hB,
    hbody⟩ := serviceRound_some hstep
  have hasked : asked i.1 = list := by
    rw [asked, hlist, Option.getD_some]
  obtain ⟨hfoundA, hfoundB⟩ := found_append s names list
  obtain ⟨_, htoA, htoB⟩ := MainServer.serveRequest_some hserved
  rw [h.requestA, hfoundA] at htoA
  rw [h.requestB, hfoundB] at htoB
  obtain ⟨hemptyA, hlenA⟩ := reply_stranger (h.foundA _).1 (h.foundA _).2 (htoA ▸ hA)
  obtain ⟨hemptyB, hlenB⟩ := reply_stranger (h.foundB _).1 (h.foundB _).2 (htoB ▸ hB)
  have hnone : ∀ X, arrivals X ([] : Bytes) [] = ([], []) := by
    intro X
    cases X <;> rfl
  rw [hemptyA, hemptyB, hnone] at hbody
  obtain ⟨hempty, hserverA, hserverB, hrequestA, hrequestB⟩ :=
    loopBody_unanswered hlist hne hbody
  rw [h.requestA, hfoundA] at hrequestA
  rw [h.requestB, hfoundB] at hrequestB
  refine ⟨⟨⟨?_, ?_, ?_⟩, ?_, ?_, ?_⟩, hempty⟩
  · rw [hserverA, hserverB]
    exact h.isName
  · rw [hserverA]
    exact h.serverA
  · rw [hserverB]
    exact h.serverB
  · rw [hasked, hrequestA, MainServer.foundA, MainServer.foundA, hserverA]
  · rw [hasked, hrequestB, MainServer.foundB, MainServer.foundB, hserverA, hserverB]
  · intro X
    cases X with
    | A =>
      show (getNameStr s'.requestA).length ≤ 1023
      rw [hrequestA]
      exact hlenA
    | B =>
      show (getNameStr s'.requestB).length ≤ 1023
      rw [hrequestB]
      exact hlenB

theorem starved_run (h : Starved tA tB names s) {inputs : List (Bytes × ServerId)}
    {sent : List (Option MainServer.Round)} {t : MainServer}
    (hrun : Machine.run (serviceRound tA tB) s inputs = some (sent, t)) :
    Starved tA tB (names ++ inputs.flatMap fun i => asked i.1) t ∧
      ∀ o ∈ sent, ∃ r, o = some r ∧ r.final = [] := by
  induction inputs generalizing s names sent with
  | nil =>
    cases hrun
    rw [List.flatMap_nil, List.append_nil]
    exact ⟨h, List.forall_mem_nil _⟩
  | cons i inputs ih =>
    obtain ⟨o, s', sent', hstep, hrest, rfl⟩ := Machine.run_cons hrun
    obtain ⟨hs', hnone⟩ := starved_step h hstep
    obtain ⟨ht, hall⟩ := ih hs' hrest
    rw [List.flatMap_cons, ← List.append_assoc]
    exact ⟨ht, List.forall_mem_cons.mpr ⟨hnone, hall⟩⟩

theorem observed_asked {log : List RoundLog} {inputs : List (Bytes × ServerId)}
    (h : List.Forall₂ Observed log inputs) :
    (inputs.flatMap fun i => asked i.1) = log.flatMap fun e => asked e.received := by
  induction h with
  | nil => rfl
  | cons hobs _ ih => rw [List.flatMap_cons, List.flatMap_cons, hobs.received, ih]

end

/-- Whatever the interleaving, a main server that took the two lists for those of the wrong servers
ends every round without a result. Each known name that was ever requested is still in its request
lists, and as long as nothing undefined has happened these fit the buffers of `getVector`. -/
theorem swapped_boot_starves (file : ServerId → Bytes) (b : ServerId → Backend)
    (d : ServerId → Bytes) (hb : ∀ X, Backend.bootUp (file X) = some (b X, d X))
    (log : List RoundLog) (st : Net) (h : Trace (Act file) Net.init log st) (s : MainServer)
    (k : Nat) (hpc : st.main = .head s k)
    (hwrong : Misattributed (b .A).list (b .B).list s) :
    (∀ e ∈ log, ∃ r, e.sent = some r ∧ r.final = []) ∧
      s.requestA = s.foundA (log.flatMap fun e => asked e.received) ∧
      s.requestB = s.foundB (log.flatMap fun e => asked e.received) ∧
      ∀ X, (getNameStr (s.requestList X)).length ≤ 1023 := by
  obtain ⟨first, s₀, inputs, t, hboot, hrun, hobserved, ht⟩ := trace_run hb h (by rw [hpc]; rfl)
  obtain ⟨hA, hB⟩ := run_lists hrun
  obtain ⟨hA', hB', hrA, hrB⟩ := loopHead_fields ht
  have hsameA : s₀.serverA = s.serverA := hA.symm.trans hA'
  have hsameB : s₀.serverB = s.serverB := hB.symm.trans hB'
  have hstart : Starved (b .A).list (b .B).list [] s₀ := by
    obtain ⟨hname, hserverA, hserverB⟩ := hwrong
    rw [← hsameA, ← hsameB] at hname
    rw [← hsameA] at hserverA
    rw [← hsameB] at hserverB
    rw [booted_of_bootUp hboot]
    refine ⟨⟨hname, hserverA, hserverB⟩, rfl, rfl, fun X => ?_⟩
    cases X <;> exact Nat.zero_le _
  obtain ⟨⟨_, hrequestA, hrequestB, hfits⟩, hnone⟩ := starved_run hstart hrun
  have hnames := observed_asked hobserved
  rw [List.nil_append, hnames, hrA, MainServer.foundA, hA', ← MainServer.foundA] at hrequestA
  rw [List.nil_append, hnames, hrB, MainServer.foundB, hA', hB', ← MainServer.foundB] at hrequestB
  refine ⟨fun e he => hnone e.sent (List.mem_map_of_mem he), hrequestA, hrequestB, fun X => ?_⟩
  cases X with
  | A =>
    show (getNameStr s.requestA).length ≤ 1023
    rw [← hrA]
    exact hfits .A
  | B =>
    show (getNameStr s.requestB).length ≤ 1023
    rw [← hrB]
    exact hfits .B

theorem bootUp_sample_second :
    MainServer.bootUp (arrivals .B (sampleDatagram .A) (sampleDatagram .B)).1
      (arrivals .B (sampleDatagram .A) (sampleDatagram .B)).2 =
        some (MainServer.booted [[98]] [[97]]) :=
  bootUp_arrivals (show getList [97, 32] = some [[97]] by decide +kernel)
    (show getList [98, 32] = some [[98]] by decide +kernel) .B

/-- Server B boots first, and `a` and `b` are asked for. -/
theorem swapped_boot_starves_sample :
    ∃ log st, Trace (Act sampleFiles) Net.init log st ∧ log.length = 1 ∧
      ∀ e ∈ log, ∃ r, e.sent = some r ∧ r.final = [] := by
  have hrun : (Machine.run (serviceRound (sampleBackend .A).list (sampleBackend .B).list)
      (MainServer.booted [[98]] [[97]]) [([97, 32, 98, 32], .A)]).isSome = true := by decide +kernel
  obtain ⟨⟨sent, t⟩, hrun⟩ := Option.isSome_iff_exists.mp hrun
  obtain ⟨log, st, k, htrace, hpc, _, hobserved⟩ :=
    trace_of_run bootUp_sample sent_sample bootUp_sample_second hrun
  obtain ⟨hA, hB⟩ := run_lists hrun
  have hserverA : t.serverA = [[98]] := hA
  have hserverB : t.serverB = [[97]] := hB
  have hwrong : Misattributed (sampleBackend .A).list (sampleBackend .B).list t := by
    refine ⟨?_, ?_, ?_⟩
    · rw [hserverA, hserverB]
      intro name hname
      rcases hname with hname | hname
      · rw [List.mem_singleton.mp hname]
        exact isName_letter rfl
      · rw [List.mem_singleton.mp hname]
        exact isName_letter rfl
    · rw [hserverA]
      decide
    · rw [hserverB]
      decide
  exact ⟨log, st, htrace, hobserved.length_eq,
    (swapped_boot_starves sampleFiles sampleBackend sampleDatagram bootUp_sample log st htrace t k
      hpc hwrong).1⟩

end StreamBridge
