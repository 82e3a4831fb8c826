import StreamBridge.Boot
import StreamBridge.Distributed
import StreamBridge.Lib.Traces
import StreamBridge.Matching

/-!
# StreamBridge.Interleaving

The three processes compared with one sequential machine, whose step is a whole round: request,
both backends, merge and result (`serviceRound`). The machine takes from outside the bytes of the
request and which backend's reply is consumed first.

* `Act`: the steps of the network, observed where they end a round.
* `service_simulation`: a round of any interleaving is a step of the machine, and no other step
  moves it.
* `interleaving_refines`: every run of the network that is back at the loop head is a run of the
  machine, from one of the two ways to boot.
-/

namespace StreamBridge

open CString Machine

/-- A round as one step, for a request that is not empty. -/
def serviceRound (tA tB : List User) (s : MainServer) (i : Bytes × ServerId) :
    Option (Option MainServer.Round × MainServer) := do
  let client_list ← MainServer.recvList i.1
  if client_list = [] then none
  else do
    let (_, toA, toB, _) ← s.loopHead.serveRequest client_list
    let replyA ← Backend.reply tA toA
    let replyB ← Backend.reply tB toB
    match i.2 with
    | .A => s.loopBody i.1 replyA replyB
    | .B => s.loopBody i.1 replyB replyA

/-- A round that has ended: the bytes of its request, the datagrams in the order in which
`getResult` consumed them, and what the pass sent. -/
structure RoundLog where
  received : Bytes
  reply₁ : Packet
  reply₂ : Packet
  sent : Option MainServer.Round

/-- The round that a step ends, if it ends one. -/
def Ends (st st' : Net) : Option RoundLog → Prop
  | some e => ∃ pass s, st.main = .getResultB pass e.reply₁ ∧ st'.main = .head s (pass.k + 1) ∧
      st.inFlight = e.reply₂ ::ₘ st'.inFlight ∧ e.reply₂.dst = .main ∧ e.received = pass.received ∧
      pass.server.loopBody pass.received e.reply₁.payload e.reply₂.payload = some (e.sent, s)
  | none => ∀ pass p₁ s k, st.main = .getResultB pass p₁ → st'.main ≠ .head s k

def Act (file : ServerId → Bytes) (st : Net) (l : Option RoundLog) (st' : Net) : Prop :=
  Step file st st' ∧ Ends st st' l

/-- The globals at the head of the pass the main server is in. -/
def MainPc.server : MainPc → Option MainServer
  | .getListA => none
  | .getListB _ => none
  | .head s _ => some s
  | .requestB pass => some pass.server
  | .getResultA pass => some pass.server
  | .getResultB pass _ => some pass.server

/-- The number of rounds that have ended. -/
def MainPc.rounds : MainPc → Nat
  | .getListA => 0
  | .getListB _ => 0
  | .head _ k => k
  | .requestB pass => pass.k
  | .getResultA pass => pass.k
  | .getResultB pass _ => pass.k

section
variable {file : ServerId → Bytes}

theorem exists_label {st st' : Net} (h : Step file st st') : ∃ l, Act file st l st' := by
  by_cases hends : ∃ l, Ends st st' (some l)
  · obtain ⟨l, hl⟩ := hends
    exact ⟨some l, h, hl⟩
  · refine ⟨none, h, ?_⟩
    intro pass p₁ s k hpc hhead
    cases h with
    | getResultB hpc' hnet hdst hpass =>
      rw [hpc] at hpc'
      cases hpc'
      exact hends ⟨⟨pass.received, p₁, _, _⟩, pass, _, hpc, rfl, hnet, hdst, rfl, hpass⟩
    | boot _ _ _ | bootUnsent _ _ _ | serve _ _ _ _ | answer _ =>
      rw [hpc] at hhead
      cases hhead
    | getListA hpc' _ _ _ | getListB hpc' _ _ _ | noRequest hpc' _ | requestA hpc' | requestB hpc'
    | getResultA hpc' _ _ =>
      rw [hpc] at hpc'
      cases hpc'

/-- Nothing is left out by looking at traces. -/
theorem reachable_iff_trace {st : Net} :
    Reachable file st ↔ ∃ log, Trace (Act file) Net.init log st := by
  constructor
  · intro h
    induction h with
    | refl => exact ⟨[], .nil _⟩
    | tail _ hstep ih =>
      obtain ⟨log, htrace⟩ := ih
      obtain ⟨l, hact⟩ := exists_label hstep
      cases l with
      | none => exact ⟨log, htrace.silent hact⟩
      | some e => exact ⟨log ++ [e], htrace.observed hact⟩
  · intro h
    obtain ⟨log, htrace⟩ := h
    exact htrace.reachable fun _ _ _ hact => hact.1

theorem Booted.unique {X : ServerId} {b b' : Backend} (h : Booted file X b)
    (h' : Booted file X b') : b = b' := by
  obtain ⟨d, hd⟩ := h
  obtain ⟨d', hd'⟩ := h'
  rw [hd] at hd'
  cases hd'
  rfl

theorem loopBody_congr {s a : MainServer} (h : s.loopHead = a.loopHead)
    (received reply₁ reply₂ : Bytes) :
    s.loopBody received reply₁ reply₂ = a.loopBody received reply₁ reply₂ := by
  unfold MainServer.loopBody
  rw [h]

theorem loopHead_fields {s a : MainServer} (h : s.loopHead = a.loopHead) :
    s.serverA = a.serverA ∧ s.serverB = a.serverB ∧ s.requestA = a.requestA ∧
      s.requestB = a.requestB := by
  obtain ⟨hA, hB, hrA, hrB, _⟩ := MainServer.mk.inj h
  exact ⟨hA, hB, hrA, hrB⟩

/-! ## A round of the network is a step of the machine -/

/-- The network is in a pass that began where the machine is. -/
def Follows (file : ServerId → Bytes) (st : Net) (a : MainServer) : Prop :=
  Inv file st ∧ ∃ s, st.main.server = some s ∧ s.loopHead = a.loopHead

/-- The round was that of the input: its request, and the reply of which backend came first. -/
structure Observed (e : RoundLog) (i : Bytes × ServerId) : Prop where
  received : e.received = i.1
  first : e.reply₁.src = .server i.2
  second : e.reply₂.src = .server i.2.other

theorem server_silent {st st' : Net} {s : MainServer} (hstep : Step file st st')
    (hsilent : Ends st st' none) (hs : st.main.server = some s) :
    ∃ s', st'.main.server = some s' ∧ s'.loopHead = s.loopHead := by
  cases hstep with
  | boot _ _ _ | bootUnsent _ _ _ | serve _ _ _ _ | answer _ => exact ⟨s, hs, rfl⟩
  | getListA hpc _ _ _ | getListB hpc _ _ _ =>
    rw [hpc] at hs
    cases hs
  | noRequest hpc _ =>
    rw [hpc] at hs
    cases hs
    exact ⟨_, rfl, rfl⟩
  | requestA hpc | requestB hpc | getResultA hpc _ _ =>
    rw [hpc] at hs
    cases hs
    exact ⟨_, rfl, rfl⟩
  | getResultB hpc _ _ _ => exact absurd rfl (hsilent _ _ _ _ hpc)

/-- The two replies of a pass, by the backend that sent them. -/
theorem replies_of_answers {bA bB : Backend} (hA : Booted file .A bA) (hB : Booted file .B bB)
    {pass : Pass} {X : ServerId} {p₁ p₂ : Packet} (h₁ : Answers file pass X p₁)
    (h₂ : Answers file pass X.other p₂) :
    ∃ replyA replyB, Backend.reply bA.list (pass.request .A) = some replyA ∧
      Backend.reply bB.list (pass.request .B) = some replyB ∧
      arrivals X replyA replyB = (p₁.payload, p₂.payload) := by
  obtain ⟨b₁, data₁, hb₁, hreply₁, rfl⟩ := h₁
  obtain ⟨b₂, data₂, hb₂, hreply₂, rfl⟩ := h₂
  cases X with
  | A =>
    obtain rfl := hA.unique hb₁
    obtain rfl := hB.unique hb₂
    exact ⟨data₁, data₂, hreply₁, hreply₂, rfl⟩
  | B =>
    obtain rfl := hB.unique hb₁
    obtain rfl := hA.unique hb₂
    exact ⟨data₂, data₁, hreply₂, hreply₁, rfl⟩

theorem serviceRound_pass {bA bB : Backend} (hA : Booted file .A bA) (hB : Booted file .B bB)
    {pass : Pass} {a : MainServer} (ha : pass.server.loopHead = a.loopHead) {X : ServerId}
    {p₁ p₂ : Packet} (h₁ : Answers file pass X p₁) (h₂ : Answers file pass X.other p₂) :
    serviceRound bA.list bB.list a (pass.received, X) =
      a.loopBody pass.received p₁.payload p₂.payload := by
  obtain ⟨replyA, replyB, hreplyA, hreplyB, horder⟩ := replies_of_answers hA hB h₁ h₂
  have hserved := pass.served
  rw [ha] at hserved
  simp only [serviceRound, pass.received_eq, Option.bind_eq_bind, Option.bind_some,
    if_neg pass.list_ne_nil, hserved, hreplyA, hreplyB]
  obtain ⟨hfirst, hsecond⟩ := Prod.mk.inj horder
  rw [← hfirst, ← hsecond]
  cases X with
  | A => rfl
  | B => rfl

theorem service_simulation {bA bB : Backend} (hA : Booted file .A bA) (hB : Booted file .B bB) :
    Simulation (Act file) (serviceRound bA.list bB.list) (Follows file) Observed (·.sent) where
  silent := by
    intro st st' a hfollows hact
    obtain ⟨hinv, s, hs, ha⟩ := hfollows
    obtain ⟨s', hs', hhead⟩ := server_silent hact.1 hact.2 hs
    exact ⟨inv_step hinv hact.1, s', hs', hhead.trans ha⟩
  observed := by
    intro st st' a e hfollows hact
    obtain ⟨hinv, s, hs, ha⟩ := hfollows
    have hinv' := inv_step hinv hact.1
    obtain ⟨φ, hinv⟩ := hinv
    obtain ⟨pass, t, hpc, hhead, hnet, hdst, hreceived, hpass⟩ := hact.2
    obtain ⟨X, _, h₁, h₂, _⟩ := hinv.second_reply hpc hnet hdst
    rw [hpc] at hs
    cases hs
    have hround := serviceRound_pass hA hB ha h₁ h₂
    rw [← loopBody_congr ha, hpass] at hround
    refine ⟨(pass.received, X), t, hround, ⟨hreceived, ?_, ?_⟩, hinv', t, ?_, rfl⟩
    · obtain ⟨_, _, _, _, hp⟩ := h₁
      rw [hp]
    · obtain ⟨_, _, _, _, hp⟩ := h₂
      rw [hp]
    · rw [hhead]
      rfl

/-! ## Boot-up -/

/-- The list that the main server takes from the boot-up datagram of backend `X`, which is short
enough to be sent. -/
def Listed (file : ServerId → Bytes) (X : ServerId) (list : List Bytes) : Prop :=
  ∃ b d, Backend.bootUp (file X) = some (b, d) ∧ (udp d).bind getList = some list

theorem listed_of_sent {X : ServerId} {b : Backend} {d : Bytes} {list : List Bytes}
    (hboot : Backend.bootUp (file X) = some (b, d)) (hsent : udp d = some d)
    (hlist : getList d = some list) : Listed file X list :=
  ⟨b, d, hboot, by rw [hsent, Option.bind_some, hlist]⟩

theorem sent_of_listed {X : ServerId} {list : List Bytes} (h : Listed file X list) :
    ∃ b d, Backend.bootUp (file X) = some (b, d) ∧ udp d = some d ∧ getList d = some list := by
  obtain ⟨b, d, hboot, hbind⟩ := h
  obtain ⟨received, hsent, hlist⟩ := Option.bind_eq_some_iff.mp hbind
  have hwhole := udp_some hsent
  rw [hwhole] at hsent hlist
  exact ⟨b, d, hboot, hsent, hlist⟩

/-- The datagram of `X` has been taken: no other one of it is on its way. -/
def Heard (st : Net) (X : ServerId) : Prop :=
  st.backend X ≠ .booting ∧ ∀ p ∈ st.inFlight, p.src ≠ .server X

def Halfway (file : ServerId → Bytes) (st : Net) : Prop :=
  ∀ list, st.main = .getListB list → ∃ X, Listed file X list ∧ Heard st X

theorem halfway_getListA {φ : ServerId → Phase} {st : Net} (h : InvAt file φ st) {p : Packet}
    {rest : Multiset Packet} {listA : List Bytes} (hpc : st.main = .getListA)
    (hnet : st.inFlight = p ::ₘ rest) (hdst : p.dst = .main)
    (hlist : getList p.payload = some listA) :
    Halfway file ⟨.getListB listA, st.backend, rest⟩ := by
  obtain ⟨X, b, hX, hbackend, hrest⟩ := h.consume hnet hdst
  have hstart : ∀ Y, Starting file Y (φ Y) := by
    have := h.agrees
    rwa [hpc] at this
  intro list hmain
  cases hmain
  refine ⟨X, ?_, ?_, ?_⟩
  · have hXstart := hstart X
    obtain ⟨d, hφ, rfl⟩ | ⟨k, data, hφ, _⟩ := hX
    · rw [hφ] at hXstart
      cases hXstart with
      | listSent hboot hsent => exact listed_of_sent hboot hsent hlist
    · rw [hφ] at hXstart
      cases hXstart
  · show st.backend X ≠ .booting
    rw [hbackend X, Function.update_self]
    exact BackendPc.noConfusion
  · -- what is left in flight is of the other backend
    intro q hq hsrc
    replace hq : q ∈ rest := hq
    rw [hrest] at hq
    obtain ⟨Y, hY⟩ := Slots.mem_inFlight.mp hq
    unfold packets at hY
    by_cases hYX : Y = X
    · subst hYX
      rw [Function.update_self] at hY
      cases hY
    · rw [Function.update_of_ne hYX] at hY
      have hYstart := hstart Y
      cases hφ : φ Y with
      | listSent b d =>
        rw [hφ] at hY
        cases hY
        exact hYX (by simpa using hsrc)
      | booting | unsent _ =>
        rw [hφ] at hY
        cases hY
      | idle _ | asked _ _ _ | serving _ _ _ | replied _ _ _ =>
        rw [hφ] at hYstart
        cases hYstart

theorem heard_update {st : Net} {Y : ServerId} {pc : BackendPc} (h : st.backend Y ≠ .booting)
    (hpc : pc ≠ .booting) (X : ServerId) : Function.update st.backend X pc Y ≠ .booting := by
  by_cases hYX : Y = X
  · rwa [hYX, Function.update_self]
  · rwa [Function.update_of_ne hYX]

theorem halfway_step {st st' : Net} (hinv : Inv file st) (h : Halfway file st)
    (hstep : Step file st st') : Halfway file st' := by
  obtain ⟨φ, hinv⟩ := hinv
  cases hstep with
  | @boot X b d hpc _ _ =>
    intro list hmain
    obtain ⟨Y, hlisted, hbooted, hquiet⟩ := h list hmain
    have hYX : Y ≠ X := by
      intro heq
      rw [heq] at hbooted
      exact hbooted hpc
    refine ⟨Y, hlisted, heard_update hbooted BackendPc.noConfusion X, ?_⟩
    intro p hp hsrc
    rcases Multiset.mem_cons.mp hp with hp | hp
    · rw [hp] at hsrc
      exact hYX (by simpa using hsrc.symm)
    · exact hquiet p hp hsrc
  | @bootUnsent X _ _ _ _ _ =>
    intro list hmain
    obtain ⟨Y, hlisted, hbooted, hquiet⟩ := h list hmain
    exact ⟨Y, hlisted, heard_update hbooted BackendPc.noConfusion X, hquiet⟩
  | @serve X _ _ _ _ _ _ hnet _ _ =>
    intro list hmain
    obtain ⟨Y, hlisted, hbooted, hquiet⟩ := h list hmain
    exact ⟨Y, hlisted, heard_update hbooted BackendPc.noConfusion X,
      fun q hq => hquiet q (hnet ▸ Multiset.mem_cons_of_mem hq)⟩
  | @answer X b data tag hpc =>
    intro list hmain
    -- before it has both lists, the main server has asked nobody
    have hagrees := hinv.agrees
    rw [show st.main = .getListB list from hmain] at hagrees
    obtain ⟨Y, hidle, hstart⟩ := hagrees
    have hphase := hinv.backend X
    rw [hpc] at hphase
    obtain rfl | rfl := Y.eq_or_eq_other X
    · cases hφ : φ X <;> rw [hφ] at hidle hphase <;> cases hidle
      cases hphase
    · cases hφ : φ Y.other <;> rw [hφ] at hstart hphase <;> cases hstart <;> cases hphase
  | getListA hpc hnet hdst hlist => exact halfway_getListA hinv hpc hnet hdst hlist
  | getListB _ _ _ _ | noRequest _ _ | requestA _ | requestB _ | getResultA _ _ _
  | getResultB _ _ _ _ =>
    intro list hmain
    cases hmain

theorem halfway_reachable {st : Net} (h : Reachable file st) : Halfway file st := by
  induction h with
  | refl =>
    intro list hmain
    cases hmain
  | tail hreach hstep ih => exact halfway_step (inv_reachable hreach) ih hstep

/-- The second of the two lists is that of the other backend. -/
theorem getListB_boots {st : Net} {listA listB : List Bytes} {p : Packet} {rest : Multiset Packet}
    (hinv : Inv file st) (h : Halfway file st) (hpc : st.main = .getListB listA)
    (hnet : st.inFlight = p ::ₘ rest) (hdst : p.dst = .main)
    (hlist : getList p.payload = some listB) :
    ∃ X, Listed file X listA ∧ Listed file X.other listB := by
  obtain ⟨φ, hinv⟩ := hinv
  obtain ⟨X, hlisted, _, hquiet⟩ := h listA hpc
  obtain ⟨Y, b, hY, _, _⟩ := hinv.consume hnet hdst
  have hsrc : p.src = .server Y := by
    obtain ⟨d, _, rfl⟩ | ⟨k, data, _, rfl⟩ := hY <;> rfl
  have hp : p ∈ st.inFlight := hnet ▸ Multiset.mem_cons_self p rest
  obtain rfl | rfl := X.eq_or_eq_other Y
  · exact absurd hsrc (hquiet p hp)
  · refine ⟨X, hlisted, ?_⟩
    have hagrees := hinv.agrees
    rw [hpc] at hagrees
    obtain ⟨Z, hidle, hstart⟩ := hagrees
    -- the backend whose list came first is idle, so the datagram is a boot-up one
    have hstarting : Starting file X.other (φ X.other) := by
      obtain rfl | hZ := Z.eq_or_eq_other X.other
      · obtain ⟨d, hφ, _⟩ | ⟨k, data, hφ, _⟩ := hY <;> rw [hφ] at hidle <;> cases hidle
      · rwa [← hZ] at hstart
    obtain ⟨d, hφ, rfl⟩ | ⟨k, data, hφ, _⟩ := hY
    · rw [hφ] at hstarting
      cases hstarting with
      | listSent hboot hsent => exact listed_of_sent hboot hsent hlist
    · rw [hφ] at hstarting
      cases hstarting

/-- Every trace to a pass of the main server begins with boot-up, of which nothing is observed. -/
theorem trace_from_boot {log : List RoundLog} {st : Net} (h : Trace (Act file) Net.init log st) :
    (st.main.server = none ∧ log = []) ∨
      ∃ X list₁ list₂ st₀, Listed file X list₁ ∧ Listed file X.other list₂ ∧ Reachable file st₀ ∧
        st₀.main = .head (MainServer.booted list₁ list₂) 0 ∧ Trace (Act file) st₀ log st := by
  induction h with
  | nil => exact .inl ⟨rfl, rfl⟩
  | @silent t t' log htrace hact ih =>
    have hreach : Reachable file t := reachable_iff_trace.mpr ⟨log, htrace⟩
    obtain ⟨hnone, rfl⟩ | ⟨X, list₁, list₂, st₀, h₁, h₂, hst₀, hhead, htail⟩ := ih
    · cases hact.1 with
      | boot _ _ _ | bootUnsent _ _ _ | serve _ _ _ _ | answer _ => exact .inl ⟨hnone, rfl⟩
      | getListA _ _ _ _ => exact .inl ⟨rfl, rfl⟩
      | getListB hpc hnet hdst hlist =>
        obtain ⟨X, h₁, h₂⟩ := getListB_boots (inv_reachable hreach) (halfway_reachable hreach) hpc
          hnet hdst hlist
        exact .inr ⟨X, _, _, _, h₁, h₂, hreach.tail hact.1, rfl, .nil _⟩
      | noRequest hpc _ | requestA hpc | requestB hpc | getResultA hpc _ _ | getResultB hpc _ _ _ =>
        rw [hpc] at hnone
        cases hnone
    · exact .inr ⟨X, list₁, list₂, st₀, h₁, h₂, hst₀, hhead, htail.silent hact⟩
  | @observed t t' log e htrace hact ih =>
    obtain ⟨hnone, _⟩ | ⟨X, list₁, list₂, st₀, h₁, h₂, hst₀, hhead, htail⟩ := ih
    · obtain ⟨pass, s, hpc, _⟩ := hact.2
      rw [hpc] at hnone
      cases hnone
    · exact .inr ⟨X, list₁, list₂, st₀, h₁, h₂, hst₀, hhead, htail.observed hact⟩

/-- The rounds are counted. -/
theorem trace_rounds {log : List RoundLog} {st : Net} (h : Trace (Act file) Net.init log st) :
    st.main.rounds = log.length := by
  induction h with
  | nil => rfl
  | silent _ hact ih =>
    rw [← ih]
    cases hact.1 with
    | boot _ _ _ | bootUnsent _ _ _ | serve _ _ _ _ | answer _ => rfl
    | getListA hpc _ _ _ | getListB hpc _ _ _ | noRequest hpc _ | requestA hpc | requestB hpc
    | getResultA hpc _ _ =>
      rw [hpc]
      rfl
    | getResultB hpc _ _ _ => exact absurd rfl (hact.2 _ _ _ _ hpc)
  | observed _ hact ih =>
    obtain ⟨pass, s, hpc, hhead, _⟩ := hact.2
    rw [hpc] at ih
    rw [hhead, List.length_append, ← ih]
    rfl

theorem bootUp_of_listed {b : ServerId → Backend} {d : ServerId → Bytes}
    (hb : ∀ X, Backend.bootUp (file X) = some (b X, d X)) {X : ServerId} {list₁ list₂ : List Bytes}
    (h₁ : Listed file X list₁) (h₂ : Listed file X.other list₂) :
    MainServer.bootUp (arrivals X (d .A) (d .B)).1 (arrivals X (d .A) (d .B)).2 =
      some (MainServer.booted list₁ list₂) := by
  have hlist : ∀ {Y : ServerId} {list : List Bytes}, Listed file Y list →
      getList (d Y) = some list := by
    intro Y list hlisted
    obtain ⟨b', d', hboot, _, hlist⟩ := sent_of_listed hlisted
    rw [hb Y] at hboot
    cases hboot
    exact hlist
  cases X with
  | A => exact bootUp_arrivals (hlist h₁) (hlist h₂) .A
  | B => exact bootUp_arrivals (hlist h₂) (hlist h₁) .B

theorem getList_of_bootUp {d : ServerId → Bytes} {X : ServerId} {s : MainServer}
    (h : MainServer.bootUp (arrivals X (d .A) (d .B)).1 (arrivals X (d .A) (d .B)).2 = some s) :
    ∃ list₁ list₂, getList (d X) = some list₁ ∧ getList (d X.other) = some list₂ ∧
      s = MainServer.booted list₁ list₂ := by
  simp only [MainServer.bootUp, Option.bind_eq_bind, Option.bind_eq_some_iff] at h
  obtain ⟨list₁, h₁, list₂, h₂, hs⟩ := h
  cases hs
  cases X with
  | A => exact ⟨list₁, list₂, h₁, h₂, rfl⟩
  | B => exact ⟨list₁, list₂, h₁, h₂, rfl⟩

/-- In any pass of the main server, the rounds that have ended are a run of the machine, which leads
to the globals of that pass. -/
theorem trace_run {b : ServerId → Backend} {d : ServerId → Bytes}
    (hb : ∀ X, Backend.bootUp (file X) = some (b X, d X)) {log : List RoundLog} {st : Net}
    {s : MainServer} (h : Trace (Act file) Net.init log st) (hs : st.main.server = some s) :
    ∃ first s₀ inputs t,
      MainServer.bootUp (arrivals first (d .A) (d .B)).1 (arrivals first (d .A) (d .B)).2 =
        some s₀ ∧
      Machine.run (serviceRound (b .A).list (b .B).list) s₀ inputs =
        some (log.map (·.sent), t) ∧
      List.Forall₂ Observed log inputs ∧ t.loopHead = s.loopHead := by
  obtain ⟨hnone, _⟩ | ⟨X, list₁, list₂, st₀, h₁, h₂, hst₀, hhead, htrace⟩ := trace_from_boot h
  · rw [hs] at hnone
    cases hnone
  · have hstart : Follows file st₀ (MainServer.booted list₁ list₂) :=
      ⟨inv_reachable hst₀, _, by rw [hhead]; rfl, rfl⟩
    obtain ⟨inputs, t, hrun, hobserved, _, s', hs', ht⟩ :=
      (service_simulation ⟨_, hb .A⟩ ⟨_, hb .B⟩).run htrace hstart
    rw [hs] at hs'
    cases hs'
    exact ⟨X, _, inputs, t, bootUp_of_listed hb h₁ h₂, hrun, hobserved, ht.symm⟩

end

/-- Refinement: whatever the interleaving, when the main server is back at the loop head it has
made the rounds of the sequential machine, one after the other: the same requests, the same
messages and the same globals. -/
theorem interleaving_refines (file : ServerId → Bytes) (b : ServerId → Backend)
    (d : ServerId → Bytes) (hb : ∀ X, Backend.bootUp (file X) = some (b X, d X))
    (log : List RoundLog) (st : Net) (h : Trace (Act file) Net.init log st) (s : MainServer)
    (k : Nat) (hpc : st.main = .head s k) :
    log.length = k ∧ ∃ first s₀ inputs t,
      MainServer.bootUp (arrivals first (d .A) (d .B)).1 (arrivals first (d .A) (d .B)).2 =
        some s₀ ∧
      Machine.run (serviceRound (b .A).list (b .B).list) s₀ inputs =
        some (log.map (·.sent), t) ∧
      List.Forall₂ Observed log inputs ∧ t.loopHead = s.loopHead := by
  have hrounds := trace_rounds h
  rw [hpc] at hrounds
  exact ⟨hrounds.symm, trace_run hb h (by rw [hpc]; rfl)⟩

def sampleDatagram : ServerId → Bytes
  | .A => [97, 32]
  | .B => [98, 32]

theorem bootUp_sample (X : ServerId) :
    Backend.bootUp (sampleFiles X) = some (sampleBackend X, sampleDatagram X) := by
  cases X with
  | A => exact bootUp_sampleFiles.1
  | B => exact bootUp_sampleFiles.2

theorem listed_sample : Listed sampleFiles .A [[97]] ∧ Listed sampleFiles .B [[98]] :=
  ⟨⟨_, _, bootUp_sample .A, by decide +kernel⟩, ⟨_, _, bootUp_sample .B, by decide +kernel⟩⟩

/-- The round of `samplePass` to its end. -/
theorem trace_sample : ∃ log st s, Trace (Act sampleFiles) Net.init log st ∧
    st.main = .head s 1 := by
  obtain ⟨backend, hreach⟩ := reachable_sample
  have hpass : (samplePass.server.loopBody samplePass.received (sampleReply .B).payload
      (sampleReply .A).payload).isSome = true := by
    decide +kernel
  obtain ⟨⟨o, s⟩, hpass⟩ := Option.isSome_iff_exists.mp hpass
  have hend := @Step.getResultB sampleFiles ⟨.getResultB samplePass (sampleReply .B), backend,
    {sampleReply .A}⟩ samplePass _ (sampleReply .A) 0 o s rfl rfl rfl hpass
  obtain ⟨log, htrace⟩ := reachable_iff_trace.mp (hreach.tail hend)
  exact ⟨log, _, s, htrace, rfl⟩

theorem interleaving_refines_sample :
    ∃ log st s, Trace (Act sampleFiles) Net.init log st ∧ st.main = .head s 1 ∧
      log.length = 1 := by
  obtain ⟨log, st, s, htrace, hpc⟩ := trace_sample
  exact ⟨log, st, s, htrace, hpc, (interleaving_refines sampleFiles sampleBackend sampleDatagram
    bootUp_sample log st htrace s 1 hpc).1⟩

end StreamBridge
