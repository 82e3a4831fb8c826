import StreamBridge.World

/-!
# StreamBridge.Session

What the user of the four programs sees, compared with one sequential machine whose step is a line
of input (`sessionStep`).

* `Stage`: where a line is on its way, and what is still to be printed for it.
* `session_completes`: if the machine is defined on the lines of the input, the tables are sorted
  and no message is cut, then in every interleaving the client shows what the machine shows, and
  ends at its prompt with nothing under way.
-/

namespace StreamBridge

open CString Intervals Machine

/-- One line of input as one step: what the client shows for it, up to the next prompt. The state
is the main server's globals and the client's `input_list`. A result that one `recv` does not
return whole is not a step: its end would be read as the next message. -/
def sessionStep (tA tB : List User) (st : MainServer × List Bytes) (line : Bytes) :
    Option (Bytes × MainServer × List Bytes) := do
  let (screen, input_list, sent) ← Client.enter st.2 line
  match sent with
  | none => some (screen, st.1, input_list)
  | some msg => do
    let (o, s) ← serviceRound tA tB st.1 (msg, .A)
    let r ← o
    let no_exist ← Client.recvNoExist r.noExistMsg
    let shown ← Client.shownNoExist r.noExistMsg
    let result_final ← Client.recvResult r.resultMsg
    if r.resultMsg.length ≤ 1024 then
      some (screen ++ shown ++ Client.shownResult input_list no_exist result_final, s, input_list)
    else none

/-- The lines that `fgets` cuts standard input into. -/
def inputLines (stdin : Bytes) : List Bytes := fgetsAll 1023 stdin.length stdin

/-! ## A line on its way -/

/-- The exchange that an accepted line leads to, as the machine makes it. -/
structure Exchange (tA tB : List User) where
  before : MainServer
  list : List Bytes
  msg : Bytes
  after : MainServer
  round : MainServer.Round
  no_exist : List Bytes
  shown : Bytes
  result : List TimeInterval
  round_eq : serviceRound tA tB before (msg, .A) = some (some round, after)
  noExist_eq : Client.recvNoExist round.noExistMsg = some no_exist
  shown_eq : Client.shownNoExist round.noExistMsg = some shown
  result_eq : Client.recvResult round.resultMsg = some result
  length_msg : msg.length = 1024
  length_result : round.resultMsg.length ≤ 1024

/-- What is printed for the answer, up to the next prompt. -/
def Exchange.screen {tA tB : List User} (e : Exchange tA tB) : Bytes :=
  e.shown ++ Client.shownResult e.list e.no_exist e.result

theorem length_sendList {list : List Bytes} {msg : Bytes} (h : Client.sendList list = some msg) :
    msg.length = 1024 := by
  simp only [Client.sendList, Option.bind_eq_bind, Option.bind_eq_some_iff] at h
  obtain ⟨str, hstr, h⟩ := h
  cases h
  obtain ⟨rfl, hlen⟩ := strcpy_some hstr
  rw [length_zeroFill, List.length_append, List.length_singleton]
  omega

theorem length_replyClient {list : List Bytes} {msg : Bytes}
    (h : MainServer.replyClient list = some msg) : msg.length = 1024 := by
  have filled : ∀ {s str : Bytes}, strcpy 1024 s = some str →
      (zeroFill 1024 str).length = 1024 := by
    intro s str hstr
    obtain ⟨rfl, hlen⟩ := strcpy_some hstr
    rw [length_zeroFill, List.length_append, List.length_singleton]
    omega
  unfold MainServer.replyClient at h
  split at h
  all_goals
    simp only [Option.bind_eq_bind, Option.bind_eq_some_iff] at h
    obtain ⟨str, hstr, h⟩ := h
    cases h
    exact filled hstr

theorem replyResult_ne_nil {L : List TimeInterval} {msg : Bytes}
    (h : MainServer.replyResult L = some msg) : msg ≠ [] := by
  cases L with
  | nil =>
    rw [replyResult_nil] at h
    cases h
    exact List.cons_ne_nil _ _
  | cons i L =>
    rw [replyResult_of_ne_nil (List.cons_ne_nil i L)] at h
    cases h
    refine List.length_pos_iff.mp ?_
    rw [length_serialize, List.length_cons]
    omega

section
variable {tA tB : List User}

/-- What a round sends: two messages for the client, and requests the backends can answer. -/
theorem serviceRound_sent {a a' : MainServer} {i : Bytes × ServerId} {r : MainServer.Round}
    (h : serviceRound tA tB a i = some (some r, a')) :
    ∃ list, MainServer.recvList i.1 = some list ∧ list ≠ [] ∧
      MainServer.replyClient (a.missing list) = some r.noExistMsg ∧ r.resultMsg ≠ [] ∧
      (∃ data, Backend.reply tA r.toA = some data) ∧ (∃ data, Backend.reply tB r.toB = some data) ∧
      r.toA = getNameStr (a.requestA ++ a.foundA list) ∧
      r.toB = getNameStr (a.requestB ++ a.foundB list) := by
  obtain ⟨list, noExistMsg, toA, toB, waiting, replyA, replyB, hlist, hne, hserved, hA, hB,
    hbody⟩ := serviceRound_some h
  obtain ⟨list', hlist', ⟨_, hnone, _⟩ | ⟨_, r', hr, hsent, _⟩⟩ := MainServer.loopBody_some.mp hbody
  · cases hnone
  · cases hr
    rw [hlist, Option.some.injEq] at hlist'
    subst hlist'
    obtain ⟨hmsg, htoA, htoB, _, hres⟩ := hsent
    obtain ⟨_, htoA', htoB'⟩ := MainServer.serveRequest_some hserved
    refine ⟨list, hlist, hne, hmsg, replyResult_ne_nil hres, ⟨replyA, ?_⟩, ⟨replyB, ?_⟩, htoA, htoB⟩
    · rw [htoA, ← htoA', hA]
    · rw [htoB, ← htoB', hB]

theorem sessionStep_some {st st' : MainServer × List Bytes} {line screen : Bytes}
    (h : sessionStep tA tB st line = some (screen, st')) :
    ∃ first list sent, Client.enter st.2 line = some (first, list, sent) ∧
      ((sent = none ∧ screen = first ∧ st' = (st.1, list)) ∨
        ∃ e : Exchange tA tB, sent = some e.msg ∧ e.before = st.1 ∧ e.list = list ∧
          screen = first ++ e.screen ∧ st' = (e.after, list)) := by
  simp only [sessionStep, Option.bind_eq_bind, Option.bind_eq_some_iff] at h
  obtain ⟨⟨first, list, sent⟩, henter, h⟩ := h
  refine ⟨first, list, sent, henter, ?_⟩
  cases sent with
  | none =>
    cases h
    exact .inl ⟨rfl, rfl, rfl⟩
  | some msg =>
    simp only [Option.bind_eq_some_iff] at h
    obtain ⟨⟨o, a'⟩, hround, r, hr, no_exist, hnoExist, shown, hshown, result, hresult, h⟩ := h
    split at h
    · rename_i hlen
      cases h
      subst hr
      have hmsg : msg.length = 1024 := by
        simp only [Client.enter, Option.bind_eq_bind, Option.bind_eq_some_iff] at henter
        obtain ⟨⟨ok, list'⟩, _, henter⟩ := henter
        split at henter
        · cases henter
        · simp only [Option.bind_eq_some_iff] at henter
          obtain ⟨msg', hsend, henter⟩ := henter
          cases henter
          exact length_sendList hsend
      refine .inr ⟨⟨st.1, list, msg, a', r, no_exist, shown, result, hround, hnoExist, hshown,
        hresult, hmsg, hlen⟩, rfl, rfl, rfl, ?_, rfl⟩
      rw [Exchange.screen, List.append_assoc]
    · cases h

theorem Exchange.msg_ne_nil (e : Exchange tA tB) : e.msg ≠ [] := by
  refine List.length_pos_iff.mp ?_
  rw [e.length_msg]
  omega

theorem Exchange.length_noExist (e : Exchange tA tB) : e.round.noExistMsg.length = 1024 := by
  obtain ⟨_, _, _, hmsg, _⟩ := serviceRound_sent e.round_eq
  exact length_replyClient hmsg

theorem Exchange.result_ne_nil (e : Exchange tA tB) : e.round.resultMsg ≠ [] := by
  obtain ⟨_, _, _, _, hresult, _⟩ := serviceRound_sent e.round_eq
  exact hresult

/-- The lines left are steps of the machine, and with what they show the screen is `goal`. -/
def Rest (tA tB : List User) (st : MainServer × List Bytes) (stdin stdout goal : Bytes) : Prop :=
  ∃ screens t, Machine.run (sessionStep tA tB) st (inputLines stdin) = some (screens, t) ∧
    stdout ++ screens.flatten = goal

theorem Rest.nil {st : MainServer × List Bytes} {stdout goal : Bytes}
    (h : Rest tA tB st [] stdout goal) : stdout = goal := by
  obtain ⟨screens, t, hrun, hgoal⟩ := h
  cases hrun
  rwa [List.flatten_nil, List.append_nil] at hgoal

theorem Rest.isPrefix {st : MainServer × List Bytes} {stdin stdout goal : Bytes}
    (h : Rest tA tB st stdin stdout goal) : stdout <+: goal := by
  obtain ⟨screens, t, _, hgoal⟩ := h
  exact hgoal ▸ List.prefix_append _ _

/-- The next line is the next step of the machine. -/
theorem Rest.line {st : MainServer × List Bytes} {stdin stdout goal : Bytes}
    (h : Rest tA tB st stdin stdout goal) (hne : stdin ≠ []) :
    ∃ screen st', sessionStep tA tB st (fgets 1023 stdin).1 = some (screen, st') ∧
      Rest tA tB st' (fgets 1023 stdin).2 (stdout ++ screen) goal := by
  obtain ⟨screens, t, hrun, hgoal⟩ := h
  rw [inputLines, fgetsAll_cons (by decide) hne] at hrun
  obtain ⟨screen, st', screens', hstep, hrest, rfl⟩ := Machine.run_cons hrun
  refine ⟨screen, st', hstep, screens', t, hrest, ?_⟩
  rw [← hgoal, List.flatten_cons, List.append_assoc]

/-- Where the client is in reading the two messages: the bytes of the first one still to be read,
and what is still to be printed. -/
inductive Reading (e : Exchange tA tB) : Client.Pc → Bytes → Bytes → Prop
  | noExist : Reading e (.recvNoExist e.list) e.round.noExistMsg e.screen
  | result : Reading e (.recvResult e.list e.no_exist) []
      (Client.shownResult e.list e.no_exist e.result)

/-- The states a line leads through: the client waits for it; its request is under way; the servers
are in its pass; the answer is complete. -/
inductive Stage (file : ServerId → Bytes) (tA tB : List User) (goal : Bytes) : World → Prop
  | prompt {list : List Bytes} {stdin stdout : Bytes} {st : Net} {a s : MainServer} {k : Nat}
      (hreach : Reachable file st) (hpc : st.main = .head s k) (ha : s.loopHead = a.loopHead)
      (hrest : Rest tA tB (a, list) stdin stdout goal) :
      Stage file tA tB goal ⟨.fgets list, stdin, stdout, [], [], st⟩
  | sent {stdin stdout : Bytes} {st : Net} {s : MainServer} {k : Nat} (e : Exchange tA tB)
      (hreach : Reachable file st) (hpc : st.main = .head s k)
      (ha : s.loopHead = e.before.loopHead)
      (hrest : Rest tA tB (e.after, e.list) stdin (stdout ++ e.screen) goal) :
      Stage file tA tB goal ⟨.recvNoExist e.list, stdin, stdout, e.msg, [], st⟩
  | serving {client : Client.Pc} {stdin stdout pending owed : Bytes} {st : Net} {pass : Pass}
      (e : Exchange tA tB) (hreach : Reachable file st) (hpass : st.main.pass = some pass)
      (ha : pass.server.loopHead = e.before.loopHead) (hmsg : pass.received = e.msg)
      (hread : Reading e client pending owed)
      (hrest : Rest tA tB (e.after, e.list) stdin (stdout ++ owed) goal) :
      Stage file tA tB goal ⟨client, stdin, stdout, [], pending, st⟩
  | served {client : Client.Pc} {stdin stdout pending owed : Bytes} {st : Net} {s : MainServer}
      {k : Nat} (e : Exchange tA tB) (hreach : Reachable file st) (hpc : st.main = .head s k)
      (ha : s.loopHead = e.after.loopHead) (hread : Reading e client pending owed)
      (hrest : Rest tA tB (e.after, e.list) stdin (stdout ++ owed) goal) :
      Stage file tA tB goal ⟨client, stdin, stdout, [], pending ++ e.round.resultMsg, st⟩

theorem Stage.isPrefix {file : ServerId → Bytes} {goal : Bytes} {w : World}
    (h : Stage file tA tB goal w) : w.stdout <+: goal := by
  cases h with
  | prompt _ _ _ hrest => exact hrest.isPrefix
  | sent _ _ _ _ hrest | serving _ _ _ _ _ _ hrest | served _ _ _ _ _ hrest =>
    exact (List.prefix_append _ _).trans hrest.isPrefix

end

/-! ## The work that is left -/

def Client.Pc.work : Client.Pc → Nat
  | .fgets _ => 0
  | .recvNoExist _ => 2
  | .recvResult _ _ => 1

/-- A line takes at most eleven steps: one to read it, eight of the servers and two to read the
answer. -/
def World.work (w : World) : Nat :=
  11 * w.stdin.length + w.client.work + (if w.toServer = [] then 0 else 8) + w.net.work

/-- The client at its prompt, and nothing under way. -/
structure Done (goal : Bytes) (w : World) : Prop where
  client : ∃ list, w.client = .fgets list
  stdin : w.stdin = []
  stdout : w.stdout = goal
  toServer : w.toServer = []
  toClient : w.toClient = []
  net : AtLoopHead w.net

section
variable {file : ServerId → Bytes} {arrives : Nat → Bytes → Prop} {b : ServerId → Backend}
  {goal : Bytes}

theorem talks_head {st st' : Net} {s : MainServer} {k : Nat} (hpc : st.main = .head s k)
    {sent : Bytes} : ¬ Talks file st none sent st' := by
  intro h
  cases h with
  | result hpc' _ _ _ =>
    rw [hpc] at hpc'
    cases hpc'
  | internal _ hhead _ => exact hhead ⟨s, k, hpc⟩

theorem talks_request {st st' : Net} {received sent : Bytes} {list : List Bytes}
    (h : Talks file st (some received) sent st') (hlist : MainServer.recvList received = some list)
    (hne : list ≠ []) :
    ∃ pass : Pass, st.main = .head pass.server pass.k ∧ pass.received = received ∧
      pass.noExistMsg = sent ∧ st' = ⟨.requestB pass, st.backend,
        ⟨.main, .server .A, pass.request .A, .request pass.k⟩ ::ₘ st.inFlight⟩ := by
  cases h with
  | noRequest _ hrecv =>
    rw [hrecv, Option.some.injEq] at hlist
    exact absurd hlist.symm hne
  | @request pass hpc => exact ⟨pass, hpc, rfl, rfl, rfl⟩

/-- In a pass the servers take nothing from the client. -/
theorem talks_pass {st st' : Net} {pass : Pass} (hpass : st.main.pass = some pass)
    {received sent : Bytes} : ¬ Talks file st (some received) sent st' := by
  intro h
  cases h with
  | noRequest hpc _ | request hpc => exact pass_not_head hpass ⟨_, _, hpc⟩

theorem internal_pass {st st' : Net} {pass : Pass} (hpass : st.main.pass = some pass)
    (hstep : Step file st st') (hrounds : st'.main.rounds = st.main.rounds) :
    st'.main.pass = some pass := by
  cases hstep with
  | boot _ _ _ | bootUnsent _ _ _ | serve _ _ _ _ | answer _ => exact hpass
  | getListA hpc _ _ _ | getListB hpc _ _ _ | noRequest hpc _ | requestA hpc =>
    rw [hpc] at hpass
    cases hpass
  | requestB hpc | getResultA hpc _ _ =>
    rw [hpc] at hpass
    exact hpass
  | getResultB hpc _ _ _ =>
    rw [hpc] at hrounds
    exact absurd hrounds (Nat.succ_ne_self _)

/-- The pass of a request ends as the round of the machine, whichever reply came first. -/
theorem pass_round (hb : ∀ X, Booted file X (b X))
    (hsep : ∀ X, ∀ u ∈ (b X).list, Separated (Backend.intervals u)) {st : Net}
    (h : Reachable file st) {pass : Pass} {p₁ p : Packet} {rest : Multiset Packet}
    {o : Option MainServer.Round} {s a : MainServer} (hpc : st.main = .getResultB pass p₁)
    (hnet : st.inFlight = p ::ₘ rest) (hdst : p.dst = .main)
    (hpass : pass.server.loopBody pass.received p₁.payload p.payload = some (o, s))
    (ha : pass.server.loopHead = a.loopHead) :
    serviceRound (b .A).list (b .B).list a (pass.received, .A) = some (o, s) := by
  obtain ⟨φ, hinv⟩ := inv_reachable h
  obtain ⟨X, _, hfirst, hsecond, _⟩ := hinv.second_reply hpc hnet hdst
  rw [serviceRound_order (hsep .A) (hsep .B) _ .A X,
    serviceRound_pass (hb .A) (hb .B) ha hfirst hsecond, ← loopBody_congr ha, hpass]

/-! ## One step -/

theorem prompt_step {list : List Bytes} {stdin stdout : Bytes} {st : Net} {a s : MainServer}
    {k : Nat} (hreach : Reachable file st) (hpc : st.main = .head s k)
    (ha : s.loopHead = a.loopHead)
    (hrest : Rest (b .A).list (b .B).list (a, list) stdin stdout goal) {w' : World}
    (hstep : WorldStep file arrives ⟨.fgets list, stdin, stdout, [], [], st⟩ w') :
    Stage file (b .A).list (b .B).list goal w' ∧
      w'.work < (World.mk (.fgets list) stdin stdout [] [] st).work := by
  have shorter : ∀ {w : World}, stdin ≠ [] → w.stdin = (fgets 1023 stdin).2 → w.net = st →
      w.client.work + (if w.toServer = [] then 0 else 8) ≤ 10 →
      w.work < (World.mk (.fgets list) stdin stdout [] [] st).work := by
    intro w hne hin hst hle
    have hlt : (fgets 1023 stdin).2.length < stdin.length :=
      length_fgets_rest (by decide) hne
    have hbefore : (World.mk (.fgets list) stdin stdout [] [] st).work =
        11 * stdin.length + st.work := rfl
    rw [hbefore, World.work, hin, hst]
    omega
  cases hstep with
  | reject hpc' hne henter =>
    cases hpc'
    obtain ⟨screen, st', hline, hrest'⟩ := hrest.line hne
    obtain ⟨first, list', sent, henter', ⟨_, rfl, rfl⟩ | ⟨e, hsent, _⟩⟩ := sessionStep_some hline
    · rw [henter] at henter'
      cases henter'
      exact ⟨.prompt hreach hpc ha hrest', shorter hne rfl rfl (by simp [Client.Pc.work])⟩
    · rw [henter, hsent] at henter'
      cases henter'
  | submit hpc' hne henter =>
    cases hpc'
    obtain ⟨screen, st', hline, hrest'⟩ := hrest.line hne
    obtain ⟨first, list', sent, henter', ⟨hsent, _⟩ | ⟨e, rfl, hbefore, rfl, rfl, rfl⟩⟩ :=
      sessionStep_some hline
    · rw [henter, hsent] at henter'
      cases henter'
    · rw [henter] at henter'
      cases henter'
      rw [← List.append_assoc] at hrest'
      refine ⟨.sent e hreach hpc (by rw [ha, hbefore]) hrest', shorter hne rfl rfl ?_⟩
      simp only [Client.Pc.work]
      split <;> omega
  | recvNoExist hpc' _ _ _ _ | recvResult hpc' _ _ _ => cases hpc'
  | listen hpending _ _ => exact absurd rfl hpending
  | serve htalks => exact absurd htalks (talks_head hpc)

theorem sent_step {e : Exchange (b .A).list (b .B).list} {stdin stdout : Bytes} {st : Net}
    {s : MainServer} {k : Nat} (hdelivers : Delivers arrives) (hreach : Reachable file st)
    (hpc : st.main = .head s k) (ha : s.loopHead = e.before.loopHead)
    (hrest : Rest (b .A).list (b .B).list (e.after, e.list) stdin (stdout ++ e.screen) goal)
    {w' : World}
    (hstep : WorldStep file arrives ⟨.recvNoExist e.list, stdin, stdout, e.msg, [], st⟩ w') :
    Stage file (b .A).list (b .B).list goal w' ∧
      w'.work < (World.mk (.recvNoExist e.list) stdin stdout e.msg [] st).work := by
  cases hstep with
  | reject hpc' _ _ | submit hpc' _ _ | recvResult hpc' _ _ _ => cases hpc'
  | recvNoExist _ hpending _ _ _ => exact absurd rfl hpending
  | serve htalks => exact absurd htalks (talks_head hpc)
  | @listen sent st' ready hpending harrives htalks =>
    have hmsg := recv_whole hdelivers harrives e.length_msg.le
    obtain ⟨list, hlist, hne, hnoExist, _⟩ := serviceRound_sent e.round_eq
    rw [hmsg] at htalks ⊢
    obtain ⟨pass, hpc', hreceived, hsent, rfl⟩ := talks_request htalks hlist hne
    rw [hpc] at hpc'
    obtain ⟨rfl, rfl⟩ := MainPc.head.inj hpc'
    have hpasslist := pass.received_eq
    rw [hreceived, hlist, Option.some.injEq] at hpasslist
    -- the pass answers with the same names as the round of the machine
    have hsame : pass.noExistMsg = e.round.noExistMsg := by
      have hmissing : pass.server.missing pass.list = e.before.missing list := by
        obtain ⟨hA, hB, _⟩ := loopHead_fields ha
        rw [← hpasslist, MainServer.missing, MainServer.missing, hA, hB]
      have hreply := pass.serveRequest_eq.1
      rw [hmissing, hnoExist, Option.some.injEq] at hreply
      exact hreply.symm
    refine ⟨?_, ?_⟩
    · rw [List.nil_append, ← hsent, hsame]
      exact .serving e (hreach.tail htalks.step) rfl ha hreceived .noExist hrest
    · have hwork := round_work hreach hpc
      have hhead := head_work hreach ⟨_, _, hpc⟩
      unfold World.work
      simp only [if_true, if_neg e.msg_ne_nil, hhead]
      rw [hwork]
      omega

theorem serving_step {e : Exchange (b .A).list (b .B).list} {client : Client.Pc}
    {stdin stdout pending owed : Bytes} {st : Net} {pass : Pass} (hdelivers : Delivers arrives)
    (hb : ∀ X, Booted file X (b X))
    (hsep : ∀ X, ∀ u ∈ (b X).list, Separated (Backend.intervals u)) (hreach : Reachable file st)
    (hpass : st.main.pass = some pass) (ha : pass.server.loopHead = e.before.loopHead)
    (hmsg : pass.received = e.msg) (hread : Reading e client pending owed)
    (hrest : Rest (b .A).list (b .B).list (e.after, e.list) stdin (stdout ++ owed) goal)
    {w' : World} (hstep : WorldStep file arrives ⟨client, stdin, stdout, [], pending, st⟩ w') :
    Stage file (b .A).list (b .B).list goal w' ∧
      w'.work < (World.mk client stdin stdout [] pending st).work := by
  have busy : ∀ {st' : Net}, Step file st st' → st'.work < st.work :=
    fun hstep => step_work_lt hstep (pass_not_head hpass)
  cases hstep with
  | reject hpc _ _ | submit hpc _ _ =>
    cases hpc
    cases hread
  | listen hpending _ _ => exact absurd rfl hpending
  | recvResult hpc hpending _ _ =>
    cases hpc
    cases hread
    exact absurd rfl hpending
  | @recvNoExist list no_exist shown ready hpc _ harrives hrecv hshown =>
    cases hpc
    cases hread
    have hwhole := recv_whole hdelivers harrives e.length_noExist.le
    rw [hwhole, e.noExist_eq, Option.some.injEq] at hrecv
    rw [hwhole, e.shown_eq, Option.some.injEq] at hshown
    rw [← hrecv, ← hshown, hwhole]
    rw [Exchange.screen, ← List.append_assoc] at hrest
    refine ⟨.serving e hreach hpass ha hmsg .result hrest, ?_⟩
    unfold World.work
    simp only [Client.Pc.work]
    omega
  | @serve sent st' htalks =>
    have hwork := busy htalks.step
    refine ⟨?_, by unfold World.work; simp only; omega⟩
    cases htalks with
    | internal hstep _ hrounds =>
      rw [List.append_nil]
      exact .serving e (hreach.tail hstep) (internal_pass hpass hstep hrounds) ha hmsg hread hrest
    | @result pass' p₁ p rest o s hpc hnet hdst hbody =>
      have hround := pass_round (a := e.before) hb hsep hreach hpc hnet hdst hbody
      rw [hpc] at hpass
      cases hpass
      have hend := hround ha
      rw [hmsg, e.round_eq, Option.some.injEq, Prod.mk.injEq] at hend
      obtain ⟨hsent, hafter⟩ := hend
      rw [← hsent, ← hafter]
      exact .served e (hreach.tail (hafter ▸ Step.getResultB hpc hnet hdst hbody)) rfl rfl hread
        hrest

theorem served_step {e : Exchange (b .A).list (b .B).list} {client : Client.Pc}
    {stdin stdout pending owed : Bytes} {st : Net} {s : MainServer} {k : Nat}
    (hdelivers : Delivers arrives) (hreach : Reachable file st) (hpc : st.main = .head s k)
    (ha : s.loopHead = e.after.loopHead) (hread : Reading e client pending owed)
    (hrest : Rest (b .A).list (b .B).list (e.after, e.list) stdin (stdout ++ owed) goal)
    {w' : World} (hstep : WorldStep file arrives
      ⟨client, stdin, stdout, [], pending ++ e.round.resultMsg, st⟩ w') :
    Stage file (b .A).list (b .B).list goal w' ∧
      w'.work < (World.mk client stdin stdout [] (pending ++ e.round.resultMsg) st).work := by
  cases hstep with
  | reject hpc' _ _ | submit hpc' _ _ =>
    cases hpc'
    cases hread
  | listen hpending _ _ => exact absurd rfl hpending
  | serve htalks => exact absurd htalks (talks_head hpc)
  | @recvNoExist list no_exist shown ready hpc' _ harrives hrecv hshown =>
    cases hpc'
    cases hread
    have hfirst : recv ready (e.round.noExistMsg ++ e.round.resultMsg) =
        (e.round.noExistMsg, e.round.resultMsg) := by
      rw [recv_delivers hdelivers harrives, ← e.length_noExist, List.take_left, List.drop_left]
    rw [hfirst, e.noExist_eq, Option.some.injEq] at hrecv
    rw [hfirst, e.shown_eq, Option.some.injEq] at hshown
    rw [← hrecv, ← hshown, hfirst]
    rw [Exchange.screen, ← List.append_assoc] at hrest
    refine ⟨.served e hreach hpc ha .result hrest, ?_⟩
    unfold World.work
    simp only [Client.Pc.work]
    omega
  | @recvResult list no_exist result ready hpc' _ harrives hrecv =>
    cases hpc'
    cases hread
    have hwhole : recv ready ([] ++ e.round.resultMsg) = (e.round.resultMsg, []) :=
      recv_whole hdelivers harrives e.length_result
    rw [hwhole, e.result_eq, Option.some.injEq] at hrecv
    rw [← hrecv, hwhole]
    refine ⟨.prompt hreach hpc ha hrest, ?_⟩
    unfold World.work
    simp only [Client.Pc.work]
    omega

theorem stage_step (hdelivers : Delivers arrives) (hb : ∀ X, Booted file X (b X))
    (hsep : ∀ X, ∀ u ∈ (b X).list, Separated (Backend.intervals u)) {w w' : World}
    (h : Stage file (b .A).list (b .B).list goal w) (hstep : WorldStep file arrives w w') :
    Stage file (b .A).list (b .B).list goal w' ∧ w'.work < w.work := by
  cases h with
  | prompt hreach hpc ha hrest => exact prompt_step hreach hpc ha hrest hstep
  | sent e hreach hpc ha hrest => exact sent_step hdelivers hreach hpc ha hrest hstep
  | serving e hreach hpass ha hmsg hread hrest =>
    exact serving_step hdelivers hb hsep hreach hpass ha hmsg hread hrest hstep
  | served e hreach hpc ha hread hrest =>
    exact served_step hdelivers hreach hpc ha hread hrest hstep

/-! ## Progress -/

/-- The requests of the pass are those of the round, so the backends can answer them. -/
theorem exchange_fits {e : Exchange (b .A).list (b .B).list} {st : Net} {pass : Pass}
    (hreach : Reachable file st) (hpass : st.main.pass = some pass)
    (ha : pass.server.loopHead = e.before.loopHead) (hmsg : pass.received = e.msg) (X : ServerId) :
    (pass.request X).length ≤ 1023 := by
  obtain ⟨list, hlist, _, _, _, hA, hB, htoA, htoB⟩ := serviceRound_sent e.round_eq
  have hpasslist := pass.received_eq
  rw [hmsg, hlist, Option.some.injEq] at hpasslist
  have hrequest := pass.serveRequest_eq.2 X
  obtain ⟨hserverA, hserverB, hrequestA, hrequestB⟩ := loopHead_fields ha
  cases X with
  | A =>
    have hsame : pass.request .A = e.round.toA := by
      rw [hrequest, htoA, Pass.names, ← hpasslist, hrequestA, MainServer.foundA, hserverA,
        MainServer.foundA]
    exact (request_answered hreach hpass .A _).mp (hsame ▸ hA)
  | B =>
    have hsame : pass.request .B = e.round.toB := by
      rw [hrequest, htoB, Pass.names, ← hpasslist, hrequestB, MainServer.foundB, hserverA, hserverB,
        MainServer.foundB]
    exact (request_answered hreach hpass .B _).mp (hsame ▸ hB)

theorem reading_progress {e : Exchange (b .A).list (b .B).list} {client : Client.Pc}
    {stdin stdout pending owed : Bytes} {st : Net} (hdelivers : Delivers arrives)
    (hread : Reading e client pending owed) :
    ∃ w', WorldStep file arrives ⟨client, stdin, stdout, [], pending ++ e.round.resultMsg, st⟩
      w' := by
  have hne : pending ++ e.round.resultMsg ≠ [] :=
    List.append_ne_nil_of_right_ne_nil _ e.result_ne_nil
  obtain ⟨ready, harrives⟩ := hdelivers.ready _ hne
  have hrecv := recv_delivers hdelivers harrives
  cases hread with
  | noExist =>
    rw [← e.length_noExist, List.take_left, List.drop_left] at hrecv
    exact ⟨_, .recvNoExist rfl hne harrives (by rw [hrecv]; exact e.noExist_eq)
      (by rw [hrecv]; exact e.shown_eq)⟩
  | result =>
    rw [List.nil_append, List.take_of_length_le e.length_result] at hrecv
    exact ⟨_, .recvResult rfl hne harrives (by rw [List.nil_append, hrecv]; exact e.result_eq)⟩

theorem stage_progress (hdelivers : Delivers arrives) {w : World}
    (h : Stage file (b .A).list (b .B).list goal w) (hdone : ¬ Done goal w) :
    ∃ w', WorldStep file arrives w w' := by
  cases h with
  | @prompt list stdin stdout st a s k _ hpc _ hrest =>
    by_cases hne : stdin = []
    · subst hne
      exact absurd ⟨⟨list, rfl⟩, rfl, hrest.nil, rfl, rfl, s, k, hpc⟩ hdone
    · obtain ⟨screen, st', hline, _⟩ := hrest.line hne
      obtain ⟨first, list', sent, henter, _⟩ := sessionStep_some hline
      cases sent with
      | none => exact ⟨_, .reject rfl hne henter⟩
      | some msg => exact ⟨_, .submit rfl hne henter⟩
  | @sent stdin stdout st s k e hreach hpc ha hrest =>
    obtain ⟨ready, harrives⟩ := hdelivers.ready _ e.msg_ne_nil
    obtain ⟨pass, _, hserver, hk, hreceived, _, _⟩ := exists_pass e.round_eq ha k
    have hrecv := recv_whole hdelivers harrives e.length_msg.le
    have htalks : Talks file st (some pass.received) pass.noExistMsg _ :=
      .request (by rw [hpc, hserver, hk])
    rw [hreceived] at htalks
    exact ⟨_, .listen e.msg_ne_nil harrives (by rw [hrecv]; exact htalks)⟩
  | @serving client stdin stdout pending owed st pass e hreach hpass ha hmsg hread hrest =>
    obtain ⟨st', hstep⟩ := round_progress hreach hpass (exchange_fits hreach hpass ha hmsg)
    obtain ⟨received, sent, htalks⟩ := exists_talks hreach hstep
    cases received with
    | none => exact ⟨_, .serve htalks⟩
    | some received => exact absurd htalks (talks_pass hpass)
  | served e _ _ _ hread _ => exact reading_progress hdelivers hread

/-- From every stage: the screen never shows anything else, and in the end it shows all. -/
theorem stage_completes (hdelivers : Delivers arrives) (hb : ∀ X, Booted file X (b X))
    (hsep : ∀ X, ∀ u ∈ (b X).list, Separated (Backend.intervals u)) {w : World}
    (h : Stage file (b .A).list (b .B).list goal w) :
    (∀ w', Relation.ReflTransGen (WorldStep file arrives) w w' → w'.stdout <+: goal) ∧
      Inevitable (WorldStep file arrives) (Done goal) w := by
  constructor
  · intro w' hpath
    exact (Machine.reachable_keeps (P := Stage file (b .A).list (b .B).list goal)
      (fun _ _ hs hstep => (stage_step hdelivers hb hsep hs hstep).1) h hpath).isPrefix
  · exact Inevitable.of_measure (I := Stage file (b .A).list (b .B).list goal) World.work
      (fun _ hs hdone => stage_progress hdelivers hs hdone)
      (fun _ _ hs _ hstep => stage_step hdelivers hb hsep hs hstep) h

end

/-- The session of a user, on sorted tables and a connection that cuts no message: whatever the
interleaving of the four programs, the screen is always a part of what the sequential machine shows
for the input, and in the end it is all of it, with the client at its prompt and nothing under
way. -/
theorem session_completes (file : ServerId → Bytes) (arrives : Nat → Bytes → Prop)
    (hdelivers : Delivers arrives) (b : ServerId → Backend) (hb : ∀ X, Booted file X (b X))
    (hsep : ∀ X, ∀ u ∈ (b X).list, Separated (Backend.intervals u)) (st : Net)
    (h : Reachable file st) (s : MainServer) (k : Nat) (hpc : st.main = .head s k)
    (list : List Bytes) (stdin stdout : Bytes) (screens : List Bytes)
    (t : MainServer × List Bytes)
    (hrun : Machine.run (sessionStep (b .A).list (b .B).list) (s, list) (inputLines stdin) =
      some (screens, t)) :
    (∀ w, Relation.ReflTransGen (WorldStep file arrives)
        ⟨.fgets list, stdin, stdout, [], [], st⟩ w → w.stdout <+: stdout ++ screens.flatten) ∧
      Inevitable (WorldStep file arrives) (Done (stdout ++ screens.flatten))
        ⟨.fgets list, stdin, stdout, [], [], st⟩ :=
  stage_completes hdelivers hb hsep (.prompt h hpc rfl ⟨screens, t, hrun, rfl⟩)

/-- All that was sent is there. -/
theorem delivers_all : Delivers fun ready pending => ready = pending.length where
  ready pending _ := ⟨pending.length, rfl⟩
  whole _ pending h := h ▸ Nat.min_le_left pending.length 1024

/-- The lines `a b` and `B`. -/
theorem session_completes_sample :
    ∃ backend screens, Inevitable
      (WorldStep sampleFiles fun ready pending => ready = pending.length)
      (Done (Client.prompt ++ screens))
      ⟨.fgets [], [97, 32, 98, 10, 66, 10], Client.prompt, [], [],
        ⟨.head (MainServer.booted [[97]] [[98]]) 0, backend, 0⟩⟩ := by
  obtain ⟨backend, hreach⟩ := reachable_head_sample
  have hrun : (Machine.run (sessionStep (sampleBackend .A).list (sampleBackend .B).list)
      (MainServer.booted [[97]] [[98]], []) (inputLines [97, 32, 98, 10, 66, 10])).isSome =
        true := by
    decide +kernel
  obtain ⟨⟨screens, t⟩, hrun⟩ := Option.isSome_iff_exists.mp hrun
  exact ⟨backend, screens.flatten, (session_completes sampleFiles _ delivers_all sampleBackend
    (fun X => ⟨_, bootUp_sample X⟩) separated_sample _ hreach _ 0 rfl [] [97, 32, 98, 10, 66, 10]
    Client.prompt screens t hrun).2⟩

end StreamBridge
