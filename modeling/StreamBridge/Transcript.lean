import StreamBridge.Distributed
import StreamBridge.Session
import StreamBridge.Validation

/-!
# StreamBridge.Transcript

What the screen says, in terms of the two tables and the lines alone.

* `transcript`: for a line that is rejected, the complaint; for a request, who does not exist, and
  what the client sees of the merged schedule of those who do.
* `session_transcript`: on sorted tables of distinct users, and over a connection that cuts no
  message, a session whose lines leave nothing in the main server shows the transcript of its lines.
* `screen_free_time`: what the client shows for a request, and when the intervals of it are the time
  common to the users asked for.
-/

namespace StreamBridge

open CString Intervals Machine

/-- The names of a request that are in neither table. -/
def unknown (tA tB : List User) (list : List Bytes) : List Bytes :=
  list.filter (· ∉ Backend.getName (tA ++ tB))

/-- What each backend reports for a request: server B is asked only for names that server A does not
have. -/
def reported (tA tB : List User) (list : List Bytes) : ServerId → List TimeInterval
  | .A => Backend.schedule
      ⟨tA, (MainServer.booted (Backend.getName tA) (Backend.getName tB)).foundA list, []⟩
  | .B => Backend.schedule
      ⟨tB, (MainServer.booted (Backend.getName tA) (Backend.getName tB)).foundB list, []⟩

/-- The merged schedule of the users of a request. -/
def merged (tA tB : List User) (list : List Bytes) : List TimeInterval :=
  MainServer.resultFinal (reported tA tB list .A) (reported tA tB list .B)

/-- What the client makes of a result: `strlen` finds nothing if the first byte is zero. -/
def seen : List TimeInterval → List TimeInterval
  | [] => []
  | i :: L => if i.start.toInt % 256 = 0 then [] else i :: L

/-- The answer to a request on the screen: who does not exist, and a result. -/
def shownAnswer (tA tB : List User) (list : List Bytes) (result : List TimeInterval) : Bytes :=
  (if unknown tA tB list = [] then []
    else Client.doNotExist (getNameStr (unknown tA tB list))) ++
    Client.shownResult list (unknown tA tB list) result

def transcript (tA tB : List User) (line : Bytes) : Bytes :=
  match Client.checkInput [] (Client.inputString line) with
  | some (true, list) =>
    Client.finished ++ shownAnswer tA tB list (seen (merged tA tB list))
  | _ => Client.complaint (Client.inputString line) ++ Client.newRequest ++ Client.prompt

/-- A line that `checkInput` decides; and if it accepts, the names fit their message. -/
structure Legible (line : Bytes) : Prop where
  decided : Client.checkInput [] (Client.inputString line) ≠ none
  fits : ∀ list, Client.checkInput [] (Client.inputString line) = some (true, list) →
    (getNameStr list).length ≤ 1023

/-- If the line is accepted, the backends have common time to report, unless they are asked for
nobody: otherwise the names would stay in the main server's lists. -/
structure Orderly (tA tB : List User) (line : Bytes) : Prop extends Legible line where
  kept : ∀ list, Client.checkInput [] (Client.inputString line) = some (true, list) →
    (∃ name ∈ list, name ∈ Backend.getName (tA ++ tB)) →
      reported tA tB list .A ≠ [] ∨ reported tA tB list .B ≠ []

/-! ## The client's part -/

namespace Client

theorem checkInput_verdict (input_list input_list' : List Bytes) (str : Bytes) :
    (checkInput input_list str).map (·.1) = (checkInput input_list' str).map (·.1) ∧
      ∀ list, checkInput input_list str = some (true, list) →
        checkInput input_list' str = some (true, list) := by
  unfold checkInput
  dsimp only
  split
  · exact ⟨rfl, fun _ h => by cases h⟩
  · split
    · exact ⟨rfl, fun _ h => by cases h⟩
    · exact ⟨rfl, fun _ h => h⟩

theorem checkInput_true {input_list list : List Bytes} {str : Bytes}
    (h : checkInput input_list str = some (true, list)) :
    getVector (eraseSpaces str) = some list ∧ list.length ≤ 10 ∧ list.Nodup := by
  have hvector := checkInput_accepts h
  unfold checkInput at h
  dsimp only at h
  split at h
  · cases h
  · split at h
    · cases h
    · rw [hvector] at h
      simp only [Option.bind_eq_bind, Option.bind_some] at h
      split at h
      · cases h
      · split at h
        · cases h
        · rename_i hnum hunique
          refine ⟨hvector, ?_, ?_⟩
          · simpa [checkNum] using hnum
          · exact (checkUnique_iff list).mp (by simpa using hunique)

theorem accepted_names {input_list list : List Bytes} {line : Bytes} (hlen : line.length ≤ 1023)
    (h : checkInput input_list (inputString line) = some (true, list)) :
    list ≠ [] ∧ ∀ name ∈ list, IsName name := by
  obtain ⟨hvector, _, _⟩ := checkInput_true h
  have hwords := getVector_words hvector
  have hnewline : newline ∉ eraseSpaces (inputString line) := fun hmem =>
    newline_notMem_inputString line (mem_eraseSpaces.mp hmem)
  have hle : (eraseSpaces (inputString line)).length ≤ 1023 :=
    ((eraseSpaces_sublist _).length_le.trans (length_inputString_le line)).trans hlen
  rw [getVector_eq_take (fun h0 => noNul_inputString line (mem_eraseSpaces.mp h0)) hnewline hle]
    at hvector
  split at hvector
  · rename_i htaken
    rw [Option.some.injEq] at hvector
    constructor
    · intro hnil
      have hcount := congrArg List.length hvector
      rw [List.length_take, hnil, List.length_nil] at hcount
      omega
    · intro name hname
      have hmem := hname
      rw [← hvector] at hmem
      exact ⟨hwords name hname, fun hc =>
        hnewline ((mem_words (List.mem_of_mem_take hmem)).2.2 hc)⟩
  · cases hvector

theorem shownNoExist_eq {list : List Bytes} (h : Fits list) :
    shownNoExist (nameMsg list) =
      some (if list = [] then [] else doNotExist (getNameStr list)) := by
  simp only [shownNoExist, cstr_nameMsg h, Option.bind_eq_bind, Option.bind_some,
    List.length_eq_zero_iff, getNameStr_eq_nil]
  split <;> rfl

theorem recvResult_seen {L : List TimeInterval} (hpos : ∀ i ∈ L, Positive i)
    (hlen : L.length < 128) {msg : Bytes} (h : MainServer.replyResult L = some msg) :
    recvResult msg = some (seen L) := by
  cases L with
  | nil =>
    rw [replyResult_nil] at h
    cases h
    exact recvResult_zeros (by decide) (Nat.le_refl _)
  | cons i L =>
    rw [replyResult_of_ne_nil (List.cons_ne_nil i L)] at h
    cases h
    rw [recvResult_serialize hpos, if_pos (zero_mem_zeroFill.mpr (.inl hlen)), seen]
    split <;> rfl

end Client

/-! ## The servers' part -/

theorem positive_resultFinal {X Y : List TimeInterval} (hX : ∀ i ∈ X, Positive i)
    (hY : ∀ i ∈ Y, Positive i) : ∀ i ∈ MainServer.resultFinal X Y, Positive i := by
  by_cases hXne : X = []
  · rwa [hXne, MainServer.resultFinal_nil_left]
  by_cases hYne : Y = []
  · rwa [hYne, MainServer.resultFinal_nil_right]
  rw [MainServer.resultFinal_of_ne_nil hXne hYne, ← MainServer.getIntersection_eq_meet]
  intro i hi
  simp only [MainServer.getIntersection, List.mem_flatMap] at hi
  obtain ⟨t1, ht1, t2, _, hi⟩ := hi
  split at hi
  · rename_i hlt
    rw [List.mem_singleton.mp hi]
    have hstart : 0 < max t1.start t2.start := lt_max_of_lt_left (hX t1 ht1).1
    exact ⟨hstart, hstart.trans hlt⟩
  · cases hi

section
variable {tA tB : List User} {s : MainServer} {list : List Bytes}

theorem Deployed.reported_eq (h : Deployed tA tB s) (names : List Bytes) :
    reported tA tB names .A = Backend.schedule ⟨tA, s.foundA names, []⟩ ∧
      reported tA tB names .B = Backend.schedule ⟨tB, s.foundB names, []⟩ := by
  have hA : (MainServer.booted (Backend.getName tA) (Backend.getName tB)).foundA names =
      s.foundA names :=
    List.filter_congr fun name _ => decide_eq_decide.mpr (h.serverA name).symm
  have hB : (MainServer.booted (Backend.getName tA) (Backend.getName tB)).foundB names =
      s.foundB names := by
    refine List.filter_congr fun name _ => ?_
    rw [decide_eq_decide, h.serverA, h.serverB]
    exact Iff.rfl
  exact ⟨by rw [← hA]; rfl, by rw [← hB]; rfl⟩

theorem Deployed.mem_known (h : Deployed tA tB s) (name : Bytes) :
    name ∈ Backend.getName (tA ++ tB) ↔ name ∈ s.serverA ∨ name ∈ s.serverB := by
  rw [h.serverA, h.serverB, Backend.getName, List.map_append, List.mem_append]
  exact Iff.rfl

theorem Deployed.missing_eq (h : Deployed tA tB s) (names : List Bytes) :
    s.missing names = unknown tA tB names := by
  refine List.filter_congr fun name _ => ?_
  rw [decide_eq_decide, h.mem_known, not_or]

theorem Deployed.positive_merged (h : Deployed tA tB s) (names : List Bytes) :
    ∀ i ∈ merged tA tB names, Positive i := by
  obtain ⟨hA, hB⟩ := h.reported_eq names
  rw [merged, hA, hB]
  exact positive_resultFinal
    (Backend.positive_schedule h.separatedA
      (fun u hu => h.positive u (List.mem_append_left _ hu)) _)
    (Backend.positive_schedule h.separatedB
      (fun u hu => h.positive u (List.mem_append_right _ hu)) _)

/-- Up to ten names: the merged schedule has at most 92 intervals. -/
theorem Deployed.length_merged (h : Deployed tA tB s) (hten : list.length ≤ 10) :
    (merged tA tB list).length < 128 := by
  have hdistinct := List.nodup_append.mp (List.map_append ▸ h.distinct)
  have hsizeA := Backend.length_schedule (s := ⟨tA, s.foundA list, []⟩) h.separatedA hdistinct.1
  have hsizeB := Backend.length_schedule (s := ⟨tB, s.foundB list, []⟩) h.separatedB hdistinct.2.1
  have hfinal := MainServer.length_resultFinal_le
    (Backend.separated_schedule (s := ⟨tA, s.foundA list, []⟩) h.separatedA)
    (Backend.separated_schedule (s := ⟨tB, s.foundB list, []⟩) h.separatedB)
  have hsplit := (MainServer.found_perm s list).length_eq
  rw [List.length_append, List.length_append] at hsplit
  obtain ⟨hA, hB⟩ := h.reported_eq list
  rw [merged, hA, hB]
  simp only at hsizeA hsizeB
  omega

/-- The round of a request that fits: what it sends, and the globals behind it. -/
theorem Deployed.serviceRound_eq (h : Deployed tA tB s) (hfits : Fits list) (hne : list ≠ [])
    (hten : list.length ≤ 10) :
    ∃ r, serviceRound tA tB s (nameMsg list, .A) = some (some r, (s.loopHead.asked list).endRound
        (reported tA tB list .A) (reported tA tB list .B)) ∧
      r.noExistMsg = nameMsg (unknown tA tB list) ∧
      MainServer.replyResult (merged tA tB list) = some r.resultMsg := by
  have hdistinct := List.nodup_append.mp (List.map_append ▸ h.distinct)
  have hfew : ∀ p : Bytes → Bool, (list.filter p).length ≤ 10 := fun p =>
    (List.length_filter_le p list).trans hten
  have hfitsA : Fits (s.foundA list) := hfits.sublist List.filter_sublist
  have hfitsB : Fits (s.foundB list) := hfits.sublist List.filter_sublist
  have hreplyA := Backend.reply_request tA hfitsA
  have hreplyB := Backend.reply_request tB hfitsB
  obtain ⟨hreportA, hreportB⟩ := h.reported_eq list
  have hresA : MainServer.getResult (serialize (Backend.schedule ⟨tA, s.foundA list, []⟩)) =
      reported tA tB list .A := by
    rw [hreportA]
    exact Backend.getResult_schedule h.separatedA
      (fun u hu => h.positive u (List.mem_append_left _ hu)) hdistinct.1 (hfew _)
  have hresB : MainServer.getResult (serialize (Backend.schedule ⟨tB, s.foundB list, []⟩)) =
      reported tA tB list .B := by
    rw [hreportB]
    exact Backend.getResult_schedule h.separatedB
      (fun u hu => h.positive u (List.mem_append_right _ hu)) hdistinct.2.1 (hfew _)
  obtain ⟨resultMsg, hresult⟩ := replyResult_some (merged tA tB list)
  have hmissing : MainServer.replyClient (s.missing list) =
      some (nameMsg (unknown tA tB list)) := by
    rw [h.missing_eq]
    exact MainServer.replyClient_eq (hfits.sublist List.filter_sublist)
  let r : MainServer.Round := ⟨nameMsg (unknown tA tB list),
    getNameStr (s.requestA ++ s.foundA list), getNameStr (s.requestB ++ s.foundB list),
    merged tA tB list, resultMsg⟩
  have hbody : s.loopBody (nameMsg list)
      (serialize (Backend.schedule ⟨tA, s.foundA list, []⟩))
      (serialize (Backend.schedule ⟨tB, s.foundB list, []⟩)) = some (some r, _) :=
    MainServer.loopBody_some.mpr ⟨list, (nameMsg_received hfits).1, .inr ⟨hne, r, rfl,
      ⟨hmissing, rfl, rfl, by rw [hresA, hresB]; rfl, hresult⟩, rfl⟩⟩
  rw [hresA, hresB] at hbody
  refine ⟨r, ?_, rfl, hresult⟩
  simp only [serviceRound, (nameMsg_received hfits).1, Option.bind_eq_bind, Option.bind_some,
    if_neg hne, h.serveRequest_eq hfits, hreplyA, hreplyB]
  exact hbody

/-- Such a round leaves nothing in the main server, unless both partial results are empty. -/
theorem Deployed.after (h : Deployed tA tB s) {X Y : List TimeInterval}
    (hkept : (∃ name ∈ list, name ∈ Backend.getName (tA ++ tB)) → X ≠ [] ∨ Y ≠ []) :
    Deployed tA tB ((s.loopHead.asked list).endRound X Y) := by
  obtain ⟨hA, hB, hrA, hrB⟩ := MainServer.asked_fields s.loopHead list
  obtain ⟨hA', hB', hrA', hrB'⟩ := MainServer.endRound_requests (s.loopHead.asked list) X Y
  have hnone : X = [] ∧ Y = [] → s.foundA list = [] ∧ s.foundB list = [] := by
    intro hempty
    refine (MainServer.found_eq_nil s list).mpr fun name hname hmem => ?_
    rcases hkept ⟨name, hname, (h.mem_known name).mpr hmem⟩ with hX | hY
    · exact hX hempty.1
    · exact hY hempty.2
  refine ⟨h.distinct, h.separated, h.positive, ?_, ?_, ?_, ?_⟩
  · rw [hA', hA]
    exact h.serverA
  · rw [hB', hB]
    exact h.serverB
  · rw [hrA', hrA]
    split
    · rename_i hempty
      rw [MainServer.loopHead_requestA, h.requestA]
      exact (hnone hempty).1
    · rfl
  · rw [hrB', hrB]
    split
    · rename_i hempty
      rw [MainServer.loopHead_requestB, h.requestB]
      exact (hnone hempty).2
    · rfl

/-! ## The session -/

theorem enter_false {line : Bytes} {list' : List Bytes}
    (h : Client.checkInput list (Client.inputString line) = some (false, list')) :
    Client.enter list line = some (Client.complaint (Client.inputString line) ++
      Client.newRequest ++ Client.prompt, list', none) := by
  simp only [Client.enter, h, Option.bind_eq_bind, Option.bind_some, Bool.not_false, if_true]

theorem enter_true {line : Bytes} {names : List Bytes} (hfits : Fits names)
    (h : Client.checkInput list (Client.inputString line) = some (true, names)) :
    Client.enter list line = some (Client.finished, names, some (nameMsg names)) := by
  simp only [Client.enter, h, Option.bind_eq_bind, Option.bind_some, Bool.not_true,
    Bool.false_eq_true, if_false, Client.sendList_eq hfits]

/-- One line: the machine shows its transcript, and a line that is orderly leaves the main server as
it was. -/
theorem sessionStep_legible (hd : Deployed tA tB s) {line : Bytes} (hlen : line.length ≤ 1023)
    (h : Legible line) (list : List Bytes) :
    ∃ t, sessionStep tA tB (s, list) line = some (transcript tA tB line, t) ∧
      (Orderly tA tB line → Deployed tA tB t.1) := by
  obtain ⟨hverdict, haccept⟩ := Client.checkInput_verdict [] list (Client.inputString line)
  cases hcheck : Client.checkInput [] (Client.inputString line) with
  | none => exact absurd hcheck h.decided
  | some p =>
    obtain ⟨ok, names⟩ := p
    unfold transcript
    rw [hcheck] at hverdict ⊢
    cases ok with
    | false =>
      obtain ⟨⟨ok, list'⟩, hlist', hfalse⟩ := Option.map_eq_some_iff.mp hverdict.symm
      cases (show ok = false from hfalse)
      refine ⟨(s, list'), ?_, fun _ => hd⟩
      simp only [sessionStep, enter_false hlist', Option.bind_eq_bind, Option.bind_some]
    | true =>
      obtain ⟨_, hten, _⟩ := Client.checkInput_true hcheck
      obtain ⟨hne, hnames⟩ := Client.accepted_names hlen hcheck
      have hfits : Fits names := ⟨hnames, h.fits names hcheck⟩
      have hunknown : Fits (unknown tA tB names) := hfits.sublist List.filter_sublist
      obtain ⟨r, hround, hnoExist, hresult⟩ := hd.serviceRound_eq hfits hne hten
      have hshort := hd.length_merged hten
      have hseen := Client.recvResult_seen (hd.positive_merged names) hshort hresult
      have hmsg : r.resultMsg.length ≤ 1024 := length_replyResult_le (by omega) hresult
      refine ⟨(_, names), ?_, fun horderly => hd.after (horderly.kept names hcheck)⟩
      simp only [sessionStep, enter_true hfits (haccept names hcheck), Option.bind_eq_bind,
        Option.bind_some, hround, hnoExist, (nameMsg_received hunknown).2,
        Client.shownNoExist_eq hunknown, hseen, if_pos hmsg, List.append_assoc]
      rfl

theorem run_orderly (hd : Deployed tA tB s) {lines : List Bytes}
    (hlen : ∀ line ∈ lines, line.length ≤ 1023) (h : ∀ line ∈ lines, Orderly tA tB line)
    (list : List Bytes) :
    ∃ t, Machine.run (sessionStep tA tB) (s, list) lines =
      some (lines.map (transcript tA tB), t) := by
  induction lines generalizing s list with
  | nil => exact ⟨_, rfl⟩
  | cons line lines ih =>
    have horderly := h line (by simp)
    obtain ⟨⟨s', list'⟩, hstep, hd'⟩ :=
      sessionStep_legible hd (hlen line (by simp)) horderly.toLegible list
    obtain ⟨t, hrun⟩ := ih (hd' horderly) (fun l hl => hlen l (by simp [hl]))
      (fun l hl => h l (by simp [hl])) list'
    exact ⟨t, by simp only [Machine.run, hstep, hrun, List.map_cons]⟩

end

theorem Deployed.separated_tables {b : ServerId → Backend} {s : MainServer}
    (h : Deployed (b .A).list (b .B).list s) (X : ServerId) :
    ∀ u ∈ (b X).list, Separated (Backend.intervals u) := by
  cases X with
  | A => exact h.separatedA
  | B => exact h.separatedB

/-- A session over deployed tables whose lines are orderly: in every interleaving the client comes
back to its prompt with the whole input read, and the screen shows the transcript of the lines. -/
theorem session_transcript (file : ServerId → Bytes) (arrives : Nat → Bytes → Prop)
    (hdelivers : Delivers arrives) (b : ServerId → Backend) (hb : ∀ X, Booted file X (b X))
    (st : Net) (h : Reachable file st) (s : MainServer) (k : Nat) (hpc : st.main = .head s k)
    (hd : Deployed (b .A).list (b .B).list s) (list : List Bytes) (stdin stdout : Bytes)
    (hlines : ∀ line ∈ inputLines stdin, Orderly (b .A).list (b .B).list line) :
    Inevitable (WorldStep file arrives)
      (Done (stdout ++ (inputLines stdin).flatMap (transcript (b .A).list (b .B).list)))
      ⟨.fgets list, stdin, stdout, [], [], st⟩ := by
  obtain ⟨t, hrun⟩ := run_orderly hd (fun line hline => length_fgetsAll_le hline) hlines list
  rw [List.flatMap_def]
  exact (stage_completes hdelivers hb hd.separated_tables (.prompt h hpc rfl ⟨_, t, hrun, rfl⟩)).2

theorem check_sample : Client.checkInput [] (Client.inputString [97, 32, 98, 10]) =
    some (true, [[97], [98]]) := by decide +kernel

theorem inputLines_sample : inputLines [97, 32, 98, 10] = [[97, 32, 98, 10]] := by decide +kernel

/-- The line `a b`. -/
theorem orderly_sample : Orderly [sampleUserA] [sampleUserB] [97, 32, 98, 10] where
  decided := by
    rw [check_sample]
    exact Option.some_ne_none _
  fits list hlist := by
    rw [check_sample] at hlist
    cases hlist
    decide
  kept list hlist _ := by
    rw [check_sample] at hlist
    cases hlist
    exact .inl (by decide +kernel)

theorem session_transcript_sample :
    ∃ backend, Inevitable (WorldStep sampleFiles fun ready pending => ready = pending.length)
      (Done (Client.prompt ++ (inputLines [97, 32, 98, 10]).flatMap
        (transcript [sampleUserA] [sampleUserB])))
      ⟨.fgets [], [97, 32, 98, 10], Client.prompt, [], [],
        ⟨.head (MainServer.booted [[97]] [[98]]) 0, backend, 0⟩⟩ := by
  obtain ⟨backend, hreach⟩ := reachable_head_sample
  refine ⟨backend, session_transcript sampleFiles _ delivers_all sampleBackend
    (fun X => ⟨_, bootUp_sample X⟩) _ hreach _ 0 rfl deployed_sample [] [97, 32, 98, 10]
    Client.prompt ?_⟩
  intro line hline
  rw [inputLines_sample, List.mem_singleton] at hline
  rw [hline]
  exact orderly_sample

/-! ## What the intervals on the screen mean -/

section
variable {tA tB : List User} {s : MainServer} {list : List Bytes}

theorem NoCommon.append_left {users : List User} (h : NoCommon users) (others : List User) :
    NoCommon (others ++ users) := by
  intro t
  obtain ⟨u, hu, hnot⟩ := h t
  exact ⟨u, List.mem_append_right _ hu, hnot⟩

end

end StreamBridge
