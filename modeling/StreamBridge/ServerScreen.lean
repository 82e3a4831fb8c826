import StreamBridge.Transcript

/-!
# StreamBridge.ServerScreen

What the main server prints while it serves a request, and what a reader of its screen can tell of
the order in which the replies came. Both calls of `getResult` take whatever datagram is there; the
first result is announced as server A's and the second as server B's.

* `ScreenAct`: the steps of the network, with the text that each of them prints.
* `screen_simulation`: the screen of any interleaving is that of the sequential machine.
* `screen_tells_order`: two interleavings with the same requests print the same if and only if in
  every round the same reply came first or both replies carried the same result.
-/

namespace StreamBridge

open CString Machine

namespace MainServer

/-- What `replyClient` prints. -/
def shownNoExist (list : List Bytes) : Bytes :=
  if list.length = 0 then []
  else getNameStr list ++ text "do not exist. Send a reply to the client.\n"

/-- The loop of `requestEndServer`: `", "` behind every name but the last. -/
def printNames : List Bytes → Bytes
  | [] => []
  | [name] => name
  | name :: next :: names => name ++ comma :: space :: printNames (next :: names)

/-- The `id` of a server, and the port that is printed for it. -/
def printId (end_server : ServerId) : Bytes := if end_server = .A then text "A" else text "B"

def printPort (end_server : ServerId) : Bytes :=
  if end_server = .A then text "21427" else text "22427"

/-- What `requestEndServer` prints; it returns before, for an empty list. -/
def shownRequest (end_server : ServerId) (list : List Bytes) : Bytes :=
  if list.length = 0 then []
  else
    text "Found " ++ printNames list ++ text " located at Server " ++ printId end_server ++
      text " Send to Server " ++ printId end_server ++ text "\n"

/-- What is printed before the result that counts as that of `end_server`. -/
def announce (end_server : ServerId) : Bytes :=
  text "Main Server received from server " ++ printId end_server ++
    text " the intersection result using UDP over port " ++ printPort end_server ++ text " :\n"

def shownResult (end_server : ServerId) (result : List TimeInterval) : Bytes :=
  if result.isEmpty then [] else announce end_server ++ (printIntersection result ++ text "\n")

/-- What `main` prints of `result_final`, and `replyResult` behind it. -/
def shownFinal (result_final : List TimeInterval) : Bytes :=
  text "Found the intersection between the results from server A and B:\n" ++
    printIntersection result_final ++ text "\n" ++
    (if result_final.length = 0 then [] else text "Main Server sent the result to the client.\n")

/-- What is printed behind the two calls of `getResult`: nothing on two empty results. -/
def shownResults (result_1 result_2 : List TimeInterval) : Bytes :=
  if result_1.isEmpty && result_2.isEmpty then []
  else
    shownResult .A result_1 ++
      (shownResult .B result_2 ++ shownFinal (resultFinal result_1 result_2))

/-- From the loop head to the first request, and from there to the second. -/
def shownRequestA (s : MainServer) (client_list : List Bytes) : Bytes :=
  let s := s.loopHead.examineList client_list
  shownNoExist s.noExist ++ shownRequest .A s.requestA

def shownRequestB (s : MainServer) (client_list : List Bytes) : Bytes :=
  let s := s.loopHead.examineList client_list
  shownRequest .B s.requestB

/-! ## What the two results look like -/

theorem length_announce : (announce .A).length = (announce .B).length := by decide +kernel

theorem announce_ne : announce .A ≠ announce .B := by decide +kernel

theorem length_shownResult (result : List TimeInterval) :
    (shownResult .A result).length = (shownResult .B result).length := by
  unfold shownResult
  split
  · rfl
  · simp only [List.length_append, length_announce]

/-- With the results exchanged the text is as long, and the same only if they are equal. -/
theorem shownResults_swap {X Y : List TimeInterval} (hfinal : resultFinal X Y = resultFinal Y X) :
    (shownResults X Y).length = (shownResults Y X).length ∧
      (shownResults X Y = shownResults Y X ↔ X = Y) := by
  unfold shownResults
  rw [Bool.and_comm, hfinal]
  constructor
  · split
    · rfl
    · simp only [List.length_append, length_shownResult]
      omega
  · refine ⟨?_, fun h => by rw [h]⟩
    intro h
    cases X with
    | nil =>
      cases Y with
      | nil => rfl
      | cons y Y =>
        simp only [shownResult, List.isEmpty_nil, List.isEmpty_cons, Bool.and_true,
          Bool.false_eq_true, if_true, if_false, List.nil_append, List.append_assoc] at h
        exact absurd (List.append_inj h length_announce.symm).1 announce_ne.symm
    | cons x X =>
      cases Y with
      | nil =>
        simp only [shownResult, List.isEmpty_nil, List.isEmpty_cons, Bool.true_and,
          Bool.false_eq_true, if_true, if_false, List.nil_append, List.append_assoc] at h
        exact absurd (List.append_inj h length_announce).1 announce_ne
      | cons y Y =>
        simp only [shownResult, List.isEmpty_cons, Bool.and_self, Bool.false_eq_true, if_false,
          List.append_assoc] at h
        exact (printIntersection_append (List.append_cancel_left h)).1

end MainServer

/-! ## The screen of the network -/

/-- What the main server prints in a step that takes it from `pc` to `pc'`. -/
def MainPc.printed (pc pc' : MainPc) (l : Option RoundLog) : Bytes :=
  match pc, pc', l with
  | .head _ _, .requestB pass, _ => MainServer.shownRequestA pass.server pass.list
  | .requestB _, .getResultA pass, _ => MainServer.shownRequestB pass.server pass.list
  | .getResultB _ _, .head _ _, some e =>
    MainServer.shownResults (MainServer.getResult e.reply₁.payload)
      (MainServer.getResult e.reply₂.payload)
  | _, _, _ => []

/-- A step of the network together with the screen of the main server. -/
def ScreenAct (file : ServerId → Bytes) (c : Net × Bytes) (l : Option RoundLog) (c' : Net × Bytes) :
    Prop :=
  Act file c.1 l c'.1 ∧ c'.2 = c.2 ++ c.1.main.printed c'.1.main l

/-- What has been printed in the pass so far. -/
def MainPc.onScreen : MainPc → Bytes
  | .getListA => []
  | .getListB _ => []
  | .head _ _ => []
  | .requestB pass => MainServer.shownRequestA pass.server pass.list
  | .getResultA pass =>
    MainServer.shownRequestA pass.server pass.list ++ MainServer.shownRequestB pass.server pass.list
  | .getResultB pass _ =>
    MainServer.shownRequestA pass.server pass.list ++ MainServer.shownRequestB pass.server pass.list

/-- A round as one step, with the screen. -/
def screenRound (tA tB : List User) (st : MainServer × Bytes) (i : Bytes × ServerId) :
    Option ((Party × Bytes × Bytes) × MainServer × Bytes) := do
  let client_list ← MainServer.recvList i.1
  let (_, toA, toB, _) ← st.1.loopHead.serveRequest client_list
  let replyA ← Backend.reply tA toA
  let replyB ← Backend.reply tB toB
  let (_, s) ← serviceRound tA tB st.1 i
  let replies := arrivals i.2 replyA replyB
  some ((.server i.2, replies.1, replies.2), s,
    st.2 ++
      (MainServer.shownRequestA st.1 client_list ++ MainServer.shownRequestB st.1 client_list ++
        MainServer.shownResults (MainServer.getResult replies.1) (MainServer.getResult replies.2)))

section
variable {file : ServerId → Bytes}

/-- The screen can be added to every trace. -/
theorem exists_screen {st st' : Net} {log : List RoundLog} (h : Trace (Act file) st log st')
    (screen : Bytes) : ∃ screen', Trace (ScreenAct file) (st, screen) log (st', screen') := by
  induction h with
  | nil => exact ⟨screen, .nil _⟩
  | @silent t t' _ _ hact ih =>
    obtain ⟨screen', htrace⟩ := ih
    exact ⟨screen' ++ t.main.printed t'.main none, htrace.silent ⟨hact, rfl⟩⟩
  | @observed t t' _ e _ hact ih =>
    obtain ⟨screen', htrace⟩ := ih
    exact ⟨screen' ++ t.main.printed t'.main (some e), htrace.observed ⟨hact, rfl⟩⟩

/-- The machine has printed what the network had before this pass. -/
def OnScreen (file : ServerId → Bytes) (c : Net × Bytes) (a : MainServer × Bytes) : Prop :=
  Follows file c.1 a.1 ∧ c.2 = a.2 ++ c.1.main.onScreen

theorem printed_idle (pc : MainPc) : pc.printed pc none = [] := by
  cases pc <;> rfl

theorem screen_silent {st st' : Net} {s : MainServer} (hact : Act file st none st')
    (hs : st.main.server = some s) :
    st.main.onScreen ++ st.main.printed st'.main none = st'.main.onScreen := by
  obtain ⟨hstep, hsilent⟩ := hact
  cases hstep with
  | boot _ _ _ | bootUnsent _ _ _ | serve _ _ _ _ | answer _ => rw [printed_idle, List.append_nil]
  | getListA hpc _ _ _ | getListB hpc _ _ _ =>
    rw [hpc] at hs
    cases hs
  | noRequest hpc _ | requestA hpc | requestB hpc =>
    rw [hpc]
    rfl
  | getResultA hpc _ _ =>
    rw [hpc]
    exact List.append_nil _
  | getResultB hpc _ _ _ => exact absurd rfl (hsilent _ _ _ _ hpc)

theorem screenRound_pass {bA bB : Backend} (hA : Booted file .A bA) (hB : Booted file .B bB)
    {pass : Pass} {a t : MainServer} (ha : pass.server.loopHead = a.loopHead) {X : ServerId}
    {p₁ p₂ : Packet} (h₁ : Answers file pass X p₁) (h₂ : Answers file pass X.other p₂)
    {o : Option MainServer.Round}
    (hpass : pass.server.loopBody pass.received p₁.payload p₂.payload = some (o, t))
    (screen : Bytes) :
    screenRound bA.list bB.list (a, screen) (pass.received, X) =
      some ((p₁.src, p₁.payload, p₂.payload), t, screen ++
        (MainServer.shownRequestA pass.server pass.list ++
          MainServer.shownRequestB pass.server pass.list ++
          MainServer.shownResults (MainServer.getResult p₁.payload)
            (MainServer.getResult p₂.payload))) := by
  have hround := serviceRound_pass hA hB ha h₁ h₂
  rw [← loopBody_congr ha, hpass] at hround
  have hserved := pass.served
  rw [ha] at hserved
  have hshown : MainServer.shownRequestA a pass.list ++ MainServer.shownRequestB a pass.list =
      MainServer.shownRequestA pass.server pass.list ++
        MainServer.shownRequestB pass.server pass.list := by
    unfold MainServer.shownRequestA MainServer.shownRequestB
    rw [ha]
  obtain ⟨replyA, replyB, hreplyA, hreplyB, horder⟩ := replies_of_answers hA hB h₁ h₂
  obtain ⟨_, _, _, _, rfl⟩ := h₁
  simp only [screenRound, pass.received_eq, Option.bind_eq_bind, Option.bind_some, hserved, hround,
    hreplyA, hreplyB, horder, hshown]

/-- Every round of any interleaving prints what the machine prints, behind what was there. -/
theorem screen_simulation {bA bB : Backend} (hA : Booted file .A bA) (hB : Booted file .B bB) :
    Simulation (ScreenAct file) (screenRound bA.list bB.list) (OnScreen file)
      (fun e i => e.received = i.1)
      (fun e => (e.reply₁.src, e.reply₁.payload, e.reply₂.payload)) where
  silent := by
    intro c c' a hon hact
    obtain ⟨hfollows, hscreen⟩ := hon
    obtain ⟨hact, hprinted⟩ := hact
    refine ⟨(service_simulation hA hB).silent hfollows hact, ?_⟩
    obtain ⟨_, s, hs, _⟩ := hfollows
    rw [hprinted, hscreen, List.append_assoc, screen_silent hact hs]
  observed := by
    intro c c' a e hon hact
    obtain ⟨⟨hinv, s, hs, ha⟩, hscreen⟩ := hon
    obtain ⟨hact, hprinted⟩ := hact
    have hinv' := inv_step hinv hact.1
    obtain ⟨φ, hinv⟩ := hinv
    obtain ⟨pass, t, hpc, hhead, hnet, hdst, hreceived, hpass⟩ := hact.2
    obtain ⟨X, _, h₁, h₂, _⟩ := hinv.second_reply hpc hnet hdst
    rw [hpc] at hs
    cases hs
    refine ⟨(pass.received, X), _, screenRound_pass hA hB ha h₁ h₂ hpass a.2, hreceived,
      ⟨hinv', t, ?_, rfl⟩, ?_⟩
    · rw [hhead]
      rfl
    · rw [hprinted, hscreen, hpc, hhead]
      simp only [MainPc.onScreen, MainPc.printed, List.append_assoc, List.append_nil]

end

/-! ## What the screen tells of the order -/

section
variable {tA tB : List User}

/-- Two rounds with the same request, from the same globals. -/
theorem screenRound_order (hA : ∀ u ∈ tA, Intervals.Separated (Backend.intervals u))
    (hB : ∀ u ∈ tB, Intervals.Separated (Backend.intervals u)) {s : MainServer}
    {screen screen' : Bytes} {i j : Bytes × ServerId} (hij : i.1 = j.1)
    {o o' : Party × Bytes × Bytes} {c c' : MainServer × Bytes}
    (h : screenRound tA tB (s, screen) i = some (o, c))
    (h' : screenRound tA tB (s, screen') j = some (o', c')) :
    c.1 = c'.1 ∧ ∃ text text', c.2 = screen ++ text ∧ c'.2 = screen' ++ text' ∧
      text.length = text'.length ∧
      (text = text' ↔ o.1 = o'.1 ∨ MainServer.getResult o.2.1 = MainServer.getResult o.2.2) := by
  obtain ⟨received, X⟩ := i
  obtain ⟨received', Y⟩ := j
  cases (show received = received' from hij)
  simp only [screenRound, Option.bind_eq_bind, Option.bind_eq_some_iff] at h
  obtain ⟨list, hlist, ⟨msg, toA, toB, waiting⟩, hserved, replyA, hreplyA, replyB, hreplyB,
    ⟨r, t⟩, hround, h⟩ := h
  -- the second round computes the same up to the order of the replies
  have hround' := (serviceRound_order hA hB received Y X s).trans hround
  simp only [screenRound, Option.bind_eq_bind, hlist, hserved, hreplyA, hreplyB, hround',
    Option.bind_some] at h'
  cases h
  cases h'
  refine ⟨rfl, _, _, rfl, rfl, ?_⟩
  have hswap := MainServer.shownResults_swap (MainServer.resultFinal_comm
    (MainServer.separated_getResult_reply hA hreplyA)
    (MainServer.separated_getResult_reply hB hreplyB))
  have hparty : Party.server .A ≠ Party.server .B := by decide
  simp only [List.length_append, List.append_cancel_left_eq, Nat.add_left_cancel_iff]
  cases X <;> cases Y
  · exact ⟨rfl, by simp⟩
  · exact ⟨hswap.1, hswap.2.trans ⟨.inr, fun h => h.resolve_left hparty⟩⟩
  · exact ⟨hswap.1.symm, (eq_comm.trans hswap.2).trans
      ⟨fun h => .inr h.symm, fun h => (h.resolve_left hparty.symm).symm⟩⟩
  · exact ⟨rfl, by simp⟩

/-- The screens of two runs with the same requests: a difference is never made up for. -/
theorem screen_runs (hA : ∀ u ∈ tA, Intervals.Separated (Backend.intervals u))
    (hB : ∀ u ∈ tB, Intervals.Separated (Backend.intervals u))
    {inputs inputs' : List (Bytes × ServerId)}
    (hij : List.Forall₂ (fun i j => i.1 = j.1) inputs inputs') {s t t' : MainServer}
    {start start' screen screen' : Bytes} (hlength : start.length = start'.length)
    {outs outs' : List (Party × Bytes × Bytes)}
    (h : Machine.run (screenRound tA tB) (s, start) inputs = some (outs, (t, screen)))
    (h' : Machine.run (screenRound tA tB) (s, start') inputs' = some (outs', (t', screen'))) :
    screen = screen' ↔ start = start' ∧ List.Forall₂ (fun o o' => o.1 = o'.1 ∨
      MainServer.getResult o.2.1 = MainServer.getResult o.2.2) outs outs' := by
  induction hij generalizing s start start' outs outs' with
  | nil =>
    cases h
    cases h'
    simp
  | cons hfst _ ih =>
    obtain ⟨o, ⟨s₁, screen₁⟩, os, hstep, hrest, rfl⟩ := run_cons h
    obtain ⟨o', ⟨s₁', screen₁'⟩, os', hstep', hrest', rfl⟩ := run_cons h'
    obtain ⟨hs, text, text', rfl, rfl, htext, hiff⟩ := screenRound_order hA hB hfst hstep hstep'
    cases (show s₁ = s₁' from hs)
    have hlength₁ : (start ++ text).length = (start' ++ text').length := by
      rw [List.length_append, List.length_append, hlength, htext]
    rw [ih hlength₁ hrest hrest', List.forall₂_cons, ← hiff]
    constructor
    · intro hall
      obtain ⟨hstart, hrest⟩ := hall
      obtain ⟨hstart, htext⟩ := List.append_inj hstart hlength
      exact ⟨hstart, htext, hrest⟩
    · intro hall
      obtain ⟨rfl, rfl, hrest⟩ := hall
      exact ⟨rfl, hrest⟩

end

/-- From one loop head to another the screen is that of the machine. -/
theorem screen_of_trace {file : ServerId → Bytes} {b : ServerId → Backend}
    (hb : ∀ X, Booted file X (b X)) {st₀ st : Net} (h₀ : Reachable file st₀) {s : MainServer}
    {k : Nat} (hpc₀ : st₀.main = .head s k) {start screen : Bytes} {log : List RoundLog}
    (h : Trace (ScreenAct file) (st₀, start) log (st, screen)) (hhead : AtLoopHead st) :
    ∃ inputs t, Machine.run (screenRound (b .A).list (b .B).list) (s, start) inputs =
        some (log.map (fun e => (e.reply₁.src, e.reply₁.payload, e.reply₂.payload)), (t, screen)) ∧
      List.Forall₂ (fun e i => e.received = i.1) log inputs := by
  have hstart : OnScreen file (st₀, start) (s, start) := by
    refine ⟨⟨inv_reachable h₀, s, by rw [hpc₀]; rfl, rfl⟩, ?_⟩
    rw [hpc₀]
    exact (List.append_nil _).symm
  obtain ⟨inputs, ⟨t, screen₁⟩, hrun, hreceived, _, hscreen⟩ :=
    (screen_simulation (hb .A) (hb .B)).run h hstart
  obtain ⟨s', k', hpc⟩ := hhead
  rw [hpc] at hscreen
  cases hscreen.trans (List.append_nil _)
  exact ⟨inputs, t, hrun, hreceived⟩

/-- The screen of the main server. Two interleavings that serve the same requests on sorted tables
print the same if and only if in every round the reply of the same backend came first or both
replies carried the same result. -/
theorem screen_tells_order (file : ServerId → Bytes) (b : ServerId → Backend)
    (hb : ∀ X, Booted file X (b X))
    (hsep : ∀ X, ∀ u ∈ (b X).list, Intervals.Separated (Backend.intervals u)) (st₀ : Net)
    (h₀ : Reachable file st₀) (hhead₀ : AtLoopHead st₀) (start : Bytes)
    (log log' : List RoundLog) (st st' : Net) (screen screen' : Bytes)
    (h : Trace (ScreenAct file) (st₀, start) log (st, screen))
    (h' : Trace (ScreenAct file) (st₀, start) log' (st', screen'))
    (hhead : AtLoopHead st) (hhead' : AtLoopHead st')
    (hreq : log.map (·.received) = log'.map (·.received)) :
    screen = screen' ↔ List.Forall₂ (fun e e' => e.reply₁.src = e'.reply₁.src ∨
      MainServer.getResult e.reply₁.payload = MainServer.getResult e.reply₂.payload) log log' := by
  obtain ⟨s, k, hpc₀⟩ := hhead₀
  obtain ⟨inputs, t, hrun, hreceived⟩ := screen_of_trace hb h₀ hpc₀ h hhead
  obtain ⟨inputs', t', hrun', hreceived'⟩ := screen_of_trace hb h₀ hpc₀ h' hhead'
  rw [screen_runs (hsep .A) (hsep .B) (inputs_of_requests hreceived hreceived' hreq) rfl hrun hrun',
    and_iff_right rfl, List.forall₂_map_left_iff, List.forall₂_map_right_iff]

/-- A request for `a` and `b`, and the reply of `first` comes first. -/
theorem trace_sample_screen {backend : ServerId → BackendPc}
    (h₀ : Reachable sampleFiles ⟨.head (MainServer.booted [[97]] [[98]]) 0, backend, 0⟩)
    (first : ServerId) :
    ∃ e st screen, Trace (ScreenAct sampleFiles)
        (⟨.head (MainServer.booted [[97]] [[98]]) 0, backend, 0⟩, []) [e] (st, screen) ∧
      AtLoopHead st ∧ e.received = [97, 32, 98, 32] ∧ e.reply₁.src = .server first ∧
      MainServer.getResult e.reply₁.payload ≠ MainServer.getResult e.reply₂.payload := by
  obtain ⟨sent, t, hrun⟩ := run_sample first
  obtain ⟨log, st, htrace, _, hobserved, _, k, hpc⟩ :=
    (service_realization fun X => ⟨_, bootUp_sample X⟩).trace hrun ⟨inv_reachable h₀, 0, rfl⟩
  obtain ⟨screen, hscreen⟩ := exists_screen htrace []
  cases hobserved with
  | @cons e _ _ _ hobs hnil =>
    cases hnil
    refine ⟨e, st, screen, hscreen, ⟨t, k, hpc⟩, hobs.received, hobs.first, ?_⟩
    obtain ⟨inputs, t', hmachine, hreceived⟩ :=
      screen_of_trace (fun X => ⟨_, bootUp_sample X⟩) h₀ rfl hscreen ⟨t, k, hpc⟩
    cases hreceived with
    | @cons _ i _ _ hr hnil =>
      cases hnil
      obtain ⟨received, X⟩ := i
      cases (hobs.received.symm.trans hr : [97, 32, 98, 32] = received)
      have hdiffer : (Machine.run (screenRound (sampleBackend .A).list (sampleBackend .B).list)
          (MainServer.booted [[97]] [[98]], []) [([97, 32, 98, 32], X)]).all (fun out =>
            out.1.all fun o => MainServer.getResult o.2.1 ≠ MainServer.getResult o.2.2) = true := by
        cases X <;> decide +kernel
      rw [hmachine] at hdiffer
      simpa using hdiffer

theorem screen_tells_order_sample :
    ∃ st₀ log log' st st' screen screen',
      Trace (ScreenAct sampleFiles) (st₀, []) log (st, screen) ∧
      Trace (ScreenAct sampleFiles) (st₀, []) log' (st', screen') ∧
      log.map (·.received) = log'.map (·.received) ∧ screen ≠ screen' := by
  obtain ⟨backend, h₀⟩ := reachable_head_sample
  obtain ⟨e, st, screen, h, hhead, hreceived, hfirst, hdiffer⟩ := trace_sample_screen h₀ .A
  obtain ⟨e', st', screen', h', hhead', hreceived', hfirst', _⟩ := trace_sample_screen h₀ .B
  have hreq : [e].map (·.received) = [e'].map (·.received) :=
    congrArg (fun received => [received]) (hreceived.trans hreceived'.symm)
  refine ⟨_, _, _, st, st', screen, screen', h, h', hreq, ?_⟩
  intro hsame
  have hiff := screen_tells_order sampleFiles sampleBackend (fun X => ⟨_, bootUp_sample X⟩)
    separated_sample _ h₀ ⟨_, _, rfl⟩ [] [e] [e'] st st' screen screen' h h' hhead
    hhead' hreq
  cases hiff.mp hsame with
  | cons hsrc _ =>
    rw [hfirst, hfirst'] at hsrc
    exact hsrc.elim (by decide) hdiffer

end StreamBridge
