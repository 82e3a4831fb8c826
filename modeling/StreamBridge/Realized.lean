import StreamBridge.Interleaving

/-!
# StreamBridge.Realized

The converse of `interleaving_refines`, and with it what an observer of the messages can tell of the
order of the steps.

* `service_realization`: some interleaving carries out each step of the machine.
* `rounds_realized`: every run of the machine is carried out by some interleaving.
* `interleaving_unobservable`: on sorted tables the order of the steps does not show in any message.
-/

namespace StreamBridge

open CString Machine

section
variable {file : ServerId → Bytes}

theorem act_silent {st st' : Net} (hstep : Step file st st')
    (h : ∀ pass p₁, st.main ≠ .getResultB pass p₁) : Act file st none st' :=
  ⟨hstep, fun pass p₁ _ _ hpc => absurd hpc (h pass p₁)⟩

theorem Booted.serves {X : ServerId} {b : Backend} {datagram data : Bytes} (h : Booted file X b)
    (hreply : Backend.reply b.list datagram = some data) :
    b.loopBody datagram true = some (data, b) := by
  obtain ⟨d, hboot⟩ := h
  simp only [Backend.bootUp, Option.bind_eq_bind, Option.bind_eq_some_iff] at hboot
  obtain ⟨list, _, hboot⟩ := hboot
  cases hboot
  rw [Backend.loopBody_clean, hreply]
  rfl

/-- A request in flight becomes its reply: the backend receives, answers and is at its loop head
again. -/
theorem trace_serve {main : MainPc} {backend : ServerId → BackendPc} {rest : Multiset Packet}
    {X : ServerId} {b : Backend} {k : Nat} {request data : Bytes} (hb : Booted file X b)
    (hpc : backend X = .recvfrom b) (hreply : Backend.reply b.list request = some data)
    (hmain : ∀ pass p₁, main ≠ .getResultB pass p₁) :
    Trace (Act file) ⟨main, backend, ⟨.main, .server X, request, .request k⟩ ::ₘ rest⟩ []
      ⟨main, backend, ⟨.server X, .main, data, .reply k⟩ ::ₘ rest⟩ := by
  have hserve := act_silent (@Step.serve file ⟨main, backend, _⟩ X b b
    ⟨.main, .server X, request, .request k⟩ rest data hpc rfl rfl (hb.serves hreply)) hmain
  have hanswer := act_silent (@Step.answer file
    ⟨main, Function.update backend X (.sendto b data (.reply k)), rest⟩ X b data (.reply k)
    (Function.update_self ..)) hmain
  have hback : Function.update (Function.update backend X (.sendto b data (.reply k))) X
      (.recvfrom b) = backend := by
    rw [Function.update_idem, ← hpc, Function.update_eq_self]
  have htrace := ((Trace.nil _).silent hserve).silent hanswer
  rw [hback] at htrace
  exact htrace

/-- At the loop head nothing is in flight and each backend waits with its table. -/
theorem head_state {st : Net} (hinv : Inv file st) {s : MainServer} {k : Nat}
    (hpc : st.main = .head s k) (b : ServerId → Backend) (hb : ∀ X, Booted file X (b X)) :
    st = ⟨.head s k, fun X => .recvfrom (b X), 0⟩ := by
  obtain ⟨φ, hinv⟩ := hinv
  obtain ⟨main, backend, inFlight⟩ := st
  have hquiet := (hinv.head_quiet hpc).1
  have hidle : ∀ X, Idle file X (φ X) := by
    have := hinv.agrees
    rwa [hpc] at this
  have hbackend : backend = fun X => .recvfrom (b X) := by
    funext X
    have hX := hidle X
    have hφ := hinv.backend X
    cases h : φ X with
    | idle b' =>
      rw [h] at hX hφ
      cases hX with
      | idle hb' =>
        rw [(hb X).unique hb']
        exact hφ
    | booting | listSent _ _ | unsent _ | asked _ _ _ | serving _ _ _ | replied _ _ _ =>
      rw [h] at hX
      cases hX
  cases hpc
  rw [hbackend, show inFlight = 0 from hquiet]

/-- What a pass sends before it waits for the two replies. -/
theorem MainServer.serveRequest_some {s waiting : MainServer} {list : List Bytes}
    {noExistMsg toA toB : Bytes}
    (h : s.loopHead.serveRequest list = some (noExistMsg, toA, toB, waiting)) :
    MainServer.replyClient (s.missing list) = some noExistMsg ∧
      toA = getNameStr (s.requestA ++ s.foundA list) ∧
      toB = getNameStr (s.requestB ++ s.foundB list) := by
  rw [MainServer.serveRequest_eq, MainServer.loopHead_noExist, List.nil_append,
    Option.map_eq_some_iff] at h
  obtain ⟨msg, hmsg, heq⟩ := h
  rw [Prod.mk.injEq, Prod.mk.injEq, Prod.mk.injEq] at heq
  obtain ⟨rfl, rfl, rfl, _⟩ := heq
  exact ⟨hmsg, rfl, rfl⟩

theorem serviceRound_some {tA tB : List User} {a a' : MainServer} {i : Bytes × ServerId}
    {o : Option MainServer.Round} (h : serviceRound tA tB a i = some (o, a')) :
    ∃ list noExistMsg toA toB waiting replyA replyB,
      MainServer.recvList i.1 = some list ∧ list ≠ [] ∧
      a.loopHead.serveRequest list = some (noExistMsg, toA, toB, waiting) ∧
      Backend.reply tA toA = some replyA ∧ Backend.reply tB toB = some replyB ∧
      a.loopBody i.1 (arrivals i.2 replyA replyB).1 (arrivals i.2 replyA replyB).2 =
        some (o, a') := by
  simp only [serviceRound, Option.bind_eq_bind, Option.bind_eq_some_iff] at h
  obtain ⟨list, hlist, h⟩ := h
  by_cases hne : list = []
  · rw [if_pos hne] at h
    cases h
  · rw [if_neg hne] at h
    simp only [Option.bind_eq_some_iff] at h
    obtain ⟨⟨noExistMsg, toA, toB, waiting⟩, hserved, replyA, hA, replyB, hB, h⟩ := h
    refine ⟨list, noExistMsg, toA, toB, waiting, replyA, replyB, hlist, hne, hserved, hA, hB, ?_⟩
    obtain ⟨received, first⟩ := i
    cases first with
    | A => exact h
    | B => exact h

/-- The pass of the main server in a round of the machine, and what the backends answer. -/
theorem exists_pass {b : ServerId → Backend} {a a' s : MainServer} {received : Bytes}
    {first : ServerId} {o : Option MainServer.Round}
    (h : serviceRound (b .A).list (b .B).list a (received, first) = some (o, a'))
    (ha : s.loopHead = a.loopHead) (k : Nat) :
    ∃ (pass : Pass) (data : ServerId → Bytes), pass.server = s ∧ pass.k = k ∧
      pass.received = received ∧
      (∀ X, Backend.reply (b X).list (pass.request X) = some (data X)) ∧
      s.loopBody received (data first) (data first.other) = some (o, a') := by
  obtain ⟨list, noExistMsg, toA, toB, waiting, replyA, replyB, hlist, hne, hserved, hA, hB,
    hbody⟩ := serviceRound_some h
  rw [← ha] at hserved
  rw [← loopBody_congr ha] at hbody
  refine ⟨{ k := k, server := s, received := received, list := list, noExistMsg := noExistMsg
            request := fun X => if X = .A then toA else toB
            waiting := waiting, received_eq := hlist, list_ne_nil := hne, served := hserved },
    fun X => if X = .A then replyA else replyB, rfl, rfl, rfl, ?_, ?_⟩
  · intro X
    cases X with
    | A => exact hA
    | B => exact hB
  · cases first with
    | A => exact hbody
    | B => exact hbody

/-- The network at the loop head of the machine. -/
def AtHead (file : ServerId → Bytes) (st : Net) (a : MainServer) : Prop :=
  Inv file st ∧ ∃ k, st.main = .head a k

theorem service_realization {b : ServerId → Backend} (hb : ∀ X, Booted file X (b X)) :
    Realization (Act file) (serviceRound (b .A).list (b .B).list) (AtHead file) Observed
      (·.sent) where
  realize := by
    intro st a a' i o hhead hstep
    obtain ⟨hinv, k, hpc⟩ := hhead
    obtain ⟨received, first⟩ := i
    obtain rfl := head_state hinv hpc b hb
    obtain ⟨pass, data, rfl, rfl, rfl, hdata, hpass⟩ := exists_pass hstep rfl k
    let reply : ServerId → Packet := fun X => ⟨.server X, .main, data X, .reply pass.k⟩
    -- both requests are sent and answered, server A's first
    have hsendA := act_silent
      (@Step.requestA file ⟨.head pass.server pass.k, fun X => .recvfrom (b X), 0⟩ pass rfl)
      (fun _ _ => MainPc.noConfusion)
    have hserveA := @trace_serve file (.requestB pass) (fun X => .recvfrom (b X)) 0 .A (b .A)
      pass.k _ _ (hb .A) rfl (hdata .A) (fun _ _ => MainPc.noConfusion)
    have hsendB := act_silent (@Step.requestB file ⟨.requestB pass, fun X => .recvfrom (b X),
      {reply .A}⟩ pass rfl) (fun _ _ => MainPc.noConfusion)
    have hserveB := @trace_serve file (.getResultA pass) (fun X => .recvfrom (b X)) {reply .A} .B
      (b .B) pass.k _ _ (hb .B) rfl (hdata .B) (fun _ _ => MainPc.noConfusion)
    have hasked := ((((Trace.nil _).silent hsendA).append hserveA).silent hsendB).append hserveB
    -- and the replies are consumed in the order of the input
    have hflight : reply .B ::ₘ {reply .A} = reply first ::ₘ {reply first.other} := by
      cases first with
      | A => exact Multiset.pair_comm _ _
      | B => rfl
    have hfirst := act_silent (@Step.getResultA file ⟨.getResultA pass, fun X => .recvfrom (b X),
      reply .B ::ₘ {reply .A}⟩ pass (reply first) {reply first.other} rfl hflight rfl)
      (fun _ _ => MainPc.noConfusion)
    have hsecond := @Step.getResultB file ⟨.getResultB pass (reply first),
      fun X => .recvfrom (b X), {reply first.other}⟩ pass (reply first) (reply first.other) 0 o a'
      rfl rfl rfl hpass
    have hends : Ends ⟨.getResultB pass (reply first), fun X => .recvfrom (b X),
        {reply first.other}⟩ ⟨.head a' (pass.k + 1), fun X => .recvfrom (b X), 0⟩
        (some ⟨pass.received, reply first, reply first.other, o⟩) :=
      ⟨pass, a', rfl, rfl, rfl, rfl, rfl, hpass⟩
    have htrace := (hasked.silent hfirst).observed ⟨hsecond, hends⟩
    refine ⟨_, _, htrace, rfl, ⟨rfl, rfl, rfl⟩, ?_, pass.k + 1, rfl⟩
    exact Machine.reachable_keeps (P := Inv file) (fun _ _ hs hstep => inv_step hs hstep) hinv
      (htrace.reachable fun _ _ _ hact => hact.1)

/-- The network boots in either order. -/
theorem trace_boot {X : ServerId} {list list' : List Bytes} (h : Listed file X list)
    (h' : Listed file X.other list') :
    ∃ backend, Trace (Act file) Net.init []
      ⟨.head (MainServer.booted list list') 0, backend, 0⟩ := by
  obtain ⟨b, d, hboot, hsent, hlist⟩ := sent_of_listed h
  obtain ⟨b', d', hboot', hsent', hlist'⟩ := sent_of_listed h'
  let one : ServerId → BackendPc := Function.update Net.init.backend X (.recvfrom b)
  let p : Packet := ⟨.server X, .main, d, .boot⟩
  let p' : Packet := ⟨.server X.other, .main, d', .boot⟩
  have hpc : one X.other = .booting := Function.update_of_ne X.other_ne _ _
  have h₁ := act_silent (@Step.boot file Net.init X b d rfl hboot hsent)
    (fun _ _ => MainPc.noConfusion)
  have h₂ := act_silent (@Step.getListA file ⟨.getListA, one, {p}⟩ p 0 list rfl rfl rfl hlist)
    (fun _ _ => MainPc.noConfusion)
  have h₃ := act_silent (@Step.boot file ⟨.getListB list, one, 0⟩ X.other b' d' hpc hboot' hsent')
    (fun _ _ => MainPc.noConfusion)
  have h₄ := act_silent (@Step.getListB file ⟨.getListB list,
    Function.update one X.other (.recvfrom b'), {p'}⟩ p' 0 list list' rfl rfl rfl hlist')
    (fun _ _ => MainPc.noConfusion)
  exact ⟨_, ((((Trace.nil _).silent h₁).silent h₂).silent h₃).silent h₄⟩

theorem trace_of_run {b : ServerId → Backend} {d : ServerId → Bytes}
    (hb : ∀ X, Backend.bootUp (file X) = some (b X, d X))
    (hsent : ∀ X, udp (d X) = some (d X)) {first : ServerId} {s₀ : MainServer}
    (hboot : MainServer.bootUp (arrivals first (d .A) (d .B)).1 (arrivals first (d .A) (d .B)).2 =
      some s₀)
    {inputs : List (Bytes × ServerId)} {sent : List (Option MainServer.Round)} {t : MainServer}
    (hrun : Machine.run (serviceRound (b .A).list (b .B).list) s₀ inputs = some (sent, t)) :
    ∃ log st k, Trace (Act file) Net.init log st ∧ st.main = .head t k ∧
      log.map (·.sent) = sent ∧ List.Forall₂ Observed log inputs := by
  obtain ⟨list₁, list₂, h₁, h₂, rfl⟩ := getList_of_bootUp hboot
  obtain ⟨backend, hstart⟩ := trace_boot (listed_of_sent (hb first) (hsent first) h₁)
    (listed_of_sent (hb first.other) (hsent first.other) h₂)
  have hinv := inv_reachable (reachable_iff_trace.mpr ⟨_, hstart⟩)
  obtain ⟨log, st, htrace, hsent, hobserved, _, k, hpc⟩ :=
    (service_realization fun X => ⟨_, hb X⟩).trace hrun ⟨hinv, 0, rfl⟩
  exact ⟨log, st, k, hstart.append htrace, hpc, hsent, hobserved⟩

end

theorem bootUp_sample_first :
    MainServer.bootUp (arrivals .A (sampleDatagram .A) (sampleDatagram .B)).1
      (arrivals .A (sampleDatagram .A) (sampleDatagram .B)).2 =
        some (MainServer.booted [[97]] [[98]]) :=
  bootUp_arrivals (show getList [97, 32] = some [[97]] by decide +kernel)
    (show getList [98, 32] = some [[98]] by decide +kernel) .A

theorem reachable_head_sample : ∃ backend, Reachable sampleFiles
    ⟨.head (MainServer.booted [[97]] [[98]]) 0, backend, 0⟩ := by
  obtain ⟨backend, hboot⟩ := trace_boot listed_sample.1 listed_sample.2
  exact ⟨backend, reachable_iff_trace.mpr ⟨_, hboot⟩⟩

theorem sent_sample (X : ServerId) : udp (sampleDatagram X) = some (sampleDatagram X) := by
  cases X <;> rfl

theorem run_sample (first : ServerId) :
    ∃ sent t, Machine.run (serviceRound (sampleBackend .A).list (sampleBackend .B).list)
      (MainServer.booted [[97]] [[98]]) [([97, 32, 98, 32], first)] = some (sent, t) := by
  have hrun : (Machine.run (serviceRound (sampleBackend .A).list (sampleBackend .B).list)
      (MainServer.booted [[97]] [[98]]) [([97, 32, 98, 32], first)]).isSome = true := by
    cases first <;> decide +kernel
  obtain ⟨⟨sent, t⟩, hrun⟩ := Option.isSome_iff_exists.mp hrun
  exact ⟨sent, t, hrun⟩

theorem serviceRound_order {tA tB : List User}
    (hA : ∀ u ∈ tA, Intervals.Separated (Backend.intervals u))
    (hB : ∀ u ∈ tB, Intervals.Separated (Backend.intervals u)) (received : Bytes)
    (X Y : ServerId) (a : MainServer) :
    serviceRound tA tB a (received, X) = serviceRound tA tB a (received, Y) := by
  have swap : serviceRound tA tB a (received, .A) = serviceRound tA tB a (received, .B) := by
    unfold serviceRound
    refine Option.bind_congr fun list _ => ?_
    split
    · rfl
    · refine Option.bind_congr fun p _ => ?_
      obtain ⟨_, toA, toB, _⟩ := p
      refine Option.bind_congr fun replyA hreplyA => ?_
      refine Option.bind_congr fun replyB hreplyB => ?_
      exact MainServer.loopBody_comm (MainServer.separated_getResult_reply hA hreplyA)
        (MainServer.separated_getResult_reply hB hreplyB) a received
  cases X <;> cases Y
  · rfl
  · exact swap
  · exact swap.symm
  · rfl

theorem serviceRound_lists {tA tB : List User} {a a' : MainServer} {i : Bytes × ServerId}
    {o : Option MainServer.Round} (h : serviceRound tA tB a i = some (o, a')) :
    a'.serverA = a.serverA ∧ a'.serverB = a.serverB := by
  obtain ⟨_, _, _, _, _, _, _, _, _, _, _, _, hbody⟩ := serviceRound_some h
  obtain ⟨list, _, ⟨_, _, rfl⟩ | ⟨_, _, _, _, rfl⟩⟩ := MainServer.loopBody_some.mp hbody
  · exact ⟨rfl, rfl⟩
  · obtain ⟨hA, hB, _⟩ := MainServer.asked_fields a.loopHead list
    obtain ⟨hA', hB', _⟩ := MainServer.endRound_requests (a.loopHead.asked list)
      (MainServer.getResult (arrivals i.2 _ _).1) (MainServer.getResult (arrivals i.2 _ _).2)
    exact ⟨hA'.trans hA, hB'.trans hB⟩

theorem run_lists {tA tB : List User} {a t : MainServer} {inputs : List (Bytes × ServerId)}
    {sent : List (Option MainServer.Round)}
    (h : Machine.run (serviceRound tA tB) a inputs = some (sent, t)) :
    t.serverA = a.serverA ∧ t.serverB = a.serverB := by
  refine Machine.run_keeps (P := fun s => s.serverA = a.serverA ∧ s.serverB = a.serverB)
    (C := fun _ => True) ?_ ⟨rfl, rfl⟩ (fun _ _ => trivial) h
  intro s i o s' hs _ hstep
  obtain ⟨hA, hB⟩ := serviceRound_lists hstep
  exact ⟨hA.trans hs.1, hB.trans hs.2⟩

theorem booted_of_bootUp {first second : Bytes} {s : MainServer}
    (h : MainServer.bootUp first second = some s) : s = MainServer.booted s.serverA s.serverB := by
  simp only [MainServer.bootUp, Option.bind_eq_bind, Option.bind_eq_some_iff] at h
  obtain ⟨listA, _, listB, _, hs⟩ := h
  cases hs
  rfl

/-- Logs with the same requests come from inputs with the same requests. -/
theorem inputs_of_requests {log log' : List RoundLog} {inputs inputs' : List (Bytes × ServerId)}
    (h : List.Forall₂ (fun e i => e.received = i.1) log inputs)
    (h' : List.Forall₂ (fun e i => e.received = i.1) log' inputs')
    (hreq : log.map (·.received) = log'.map (·.received)) :
    List.Forall₂ (fun i j => i.1 = j.1) inputs inputs' := by
  have hfst : ∀ {log : List RoundLog} {inputs : List (Bytes × ServerId)},
      List.Forall₂ (fun e i => e.received = i.1) log inputs →
        log.map (·.received) = inputs.map (·.1) := by
    intro log inputs hlog
    rw [← List.forall₂_eq_eq_eq, List.forall₂_map_left_iff, List.forall₂_map_right_iff]
    exact hlog
  have hpairs := (hfst h).symm.trans (hreq.trans (hfst h'))
  rwa [← List.forall₂_eq_eq_eq, List.forall₂_map_left_iff, List.forall₂_map_right_iff] at hpairs

/-- On sorted tables two interleavings that serve the same requests, from lists attributed in the
same way, send the same messages and leave the same globals. -/
theorem interleaving_unobservable (file : ServerId → Bytes) (b : ServerId → Backend)
    (d : ServerId → Bytes) (hb : ∀ X, Backend.bootUp (file X) = some (b X, d X))
    (hsep : ∀ X, ∀ u ∈ (b X).list, Intervals.Separated (Backend.intervals u))
    (log log' : List RoundLog) (st st' : Net) (h : Trace (Act file) Net.init log st)
    (h' : Trace (Act file) Net.init log' st') (s s' : MainServer) (k k' : Nat)
    (hpc : st.main = .head s k) (hpc' : st'.main = .head s' k')
    (hlists : s.serverA = s'.serverA ∧ s.serverB = s'.serverB)
    (hreq : log.map (·.received) = log'.map (·.received)) :
    log.map (·.sent) = log'.map (·.sent) ∧ s.loopHead = s'.loopHead := by
  obtain ⟨_, s₀, inputs, t, hboot, hrun, hobserved, ht⟩ := trace_run hb h (by rw [hpc]; rfl)
  obtain ⟨_, s₀', inputs', t', hboot', hrun', hobserved', ht'⟩ :=
    trace_run hb h' (by rw [hpc']; rfl)
  -- both runs start in the same state
  have hstart : s₀ = s₀' := by
    obtain ⟨hA, hB⟩ := run_lists hrun
    obtain ⟨hA', hB'⟩ := run_lists hrun'
    have hheadA := congrArg MainServer.serverA ht
    have hheadB := congrArg MainServer.serverB ht
    have hheadA' := congrArg MainServer.serverA ht'
    have hheadB' := congrArg MainServer.serverB ht'
    rw [booted_of_bootUp hboot, booted_of_bootUp hboot', ← hA, ← hB, ← hA', ← hB']
    exact congrArg₂ _ (hheadA.trans (hlists.1.trans hheadA'.symm))
      (hheadB.trans (hlists.2.trans hheadB'.symm))
  -- and their inputs differ at most in which reply came first
  have hinputs : List.Forall₂
      (fun i j => ∀ a, serviceRound (b .A).list (b .B).list a i =
        serviceRound (b .A).list (b .B).list a j) inputs inputs' := by
    refine (inputs_of_requests (hobserved.imp fun _ _ h => h.received)
      (hobserved'.imp fun _ _ h => h.received) hreq).imp ?_
    intro i j hij a
    obtain ⟨received, X⟩ := i
    obtain ⟨received', Y⟩ := j
    cases (show received = received' from hij)
    exact serviceRound_order (hsep .A) (hsep .B) received X Y a
  rw [hstart, run_congr hinputs, hrun', Option.some.injEq, Prod.mk.injEq] at hrun
  exact ⟨hrun.1.symm, by rw [← ht, ← hrun.2, ht']⟩

theorem separated_sample (X : ServerId) :
    ∀ u ∈ (sampleBackend X).list, Intervals.Separated (Backend.intervals u) := by
  cases X with
  | A => exact deployed_sample.separatedA
  | B => exact deployed_sample.separatedB

/-- The same request, once with the reply of server A first and once with that of server B. -/
theorem interleaving_unobservable_sample :
    ∃ log log' st st', Trace (Act sampleFiles) Net.init log st ∧
      Trace (Act sampleFiles) Net.init log' st' ∧
      List.Forall₂ Observed log [([97, 32, 98, 32], .A)] ∧
      List.Forall₂ Observed log' [([97, 32, 98, 32], .B)] ∧
      log.map (·.sent) = log'.map (·.sent) := by
  obtain ⟨_, t, hrun⟩ := run_sample .A
  obtain ⟨_, t', hrun'⟩ := run_sample .B
  obtain ⟨log, st, k, h, hpc, _, hobserved⟩ :=
    trace_of_run bootUp_sample sent_sample bootUp_sample_first hrun
  obtain ⟨log', st', k', h', hpc', _, hobserved'⟩ :=
    trace_of_run bootUp_sample sent_sample bootUp_sample_first hrun'
  have hlists : t.serverA = t'.serverA ∧ t.serverB = t'.serverB := by
    obtain ⟨hA, hB⟩ := run_lists hrun
    obtain ⟨hA', hB'⟩ := run_lists hrun'
    exact ⟨hA.trans hA'.symm, hB.trans hB'.symm⟩
  have hreq : log.map (·.received) = log'.map (·.received) := by
    cases hobserved with
    | cons hobs hnil =>
      cases hnil
      cases hobserved' with
      | cons hobs' hnil' =>
        cases hnil'
        simp only [List.map_cons, List.map_nil, hobs.received, hobs'.received]
  exact ⟨log, log', st, st', h, h', hobserved, hobserved',
    (interleaving_unobservable sampleFiles sampleBackend sampleDatagram bootUp_sample
      separated_sample log log' st st' h h' t t' k k' hpc hpc' hlists hreq).1⟩

end StreamBridge
