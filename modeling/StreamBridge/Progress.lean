import StreamBridge.Buffers
import StreamBridge.Realized

/-!
# StreamBridge.Progress

Whether a round ends. Nobody waits with a time limit and nothing is sent twice, so a round ends
when no process is stuck: each `recvfrom` finds its datagram, and what is computed from it is
defined.

* `step_work`: outside the loop head every step, of whichever process, does one unit of the work
  that is left; a list of names that is not sent leaves one unit less.
* `reply_defined`: a backend can answer a request exactly when its names fit the buffer of
  `getVector`.
* `round_ends_iff`: so a round ends in every interleaving, after the same number of steps, when
  both requests fit; and otherwise in none.
-/

namespace StreamBridge

open CString Machine

/-! ## The work that is left -/

/-- The two calls of `requestEndServer` are two steps, and the second request makes work. -/
def MainPc.work : MainPc → Nat
  | .requestB _ => 4
  | _ => 0

def BackendPc.work : BackendPc → Nat
  | .booting => 2
  | .recvfrom _ => 0
  | .sendto _ _ _ => 2

theorem work_booting : BackendPc.booting.work = 2 := rfl
theorem work_recvfrom (b : Backend) : (BackendPc.recvfrom b).work = 0 := rfl
theorem work_sendto (b : Backend) (data : Bytes) (tag : Tag) :
    (BackendPc.sendto b data tag).work = 2 := rfl

/-- A request has to be received, answered and its answer received. -/
def Packet.work (p : Packet) : Nat := if p.dst = .main then 1 else 3

def Net.work (st : Net) : Nat :=
  st.main.work + ((st.backend .A).work + (st.backend .B).work) +
    (st.inFlight.map Packet.work).sum

def AtLoopHead (st : Net) : Prop := ∃ s k, st.main = .head s k

theorem work_update (backend : ServerId → BackendPc) (X : ServerId) (pc : BackendPc) :
    (Function.update backend X pc .A).work + (Function.update backend X pc .B).work +
      (backend X).work = (backend .A).work + (backend .B).work + pc.work := by
  cases X with
  | A =>
    rw [Function.update_self, Function.update_of_ne (by simp)]
    omega
  | B =>
    rw [Function.update_self, Function.update_of_ne (by simp)]
    omega

theorem sum_work_cons (p : Packet) (rest : Multiset Packet) :
    ((p ::ₘ rest).map Packet.work).sum = p.work + (rest.map Packet.work).sum := by
  rw [Multiset.map_cons, Multiset.sum_cons]

section
variable {file : ServerId → Bytes}

/-- A backend is about to boot with more names than a datagram holds. -/
def TooLong (file : ServerId → Bytes) (st : Net) : Prop :=
  ∃ X b d, st.backend X = .booting ∧ Backend.bootUp (file X) = some (b, d) ∧ udp d = none

/-- A list that is not sent takes with it the work of receiving it. -/
theorem step_work {st st' : Net} (hstep : Step file st st') (hhead : ¬ AtLoopHead st) :
    st'.work + 1 = st.work ∨ (st'.work + 2 = st.work ∧ TooLong file st) := by
  cases hstep with
  | @bootUnsent X b d hpc hboot hlong =>
    have hupdate := work_update st.backend X (.recvfrom b)
    rw [hpc, work_booting, work_recvfrom] at hupdate
    refine .inr ⟨?_, X, b, d, hpc, hboot, hlong⟩
    simp only [Net.work]
    omega
  | @boot X b d hpc _ _ =>
    have hupdate := work_update st.backend X (.recvfrom b)
    rw [hpc, work_booting, work_recvfrom] at hupdate
    left
    simp only [Net.work, sum_work_cons, Packet.work, if_true]
    omega
  | @serve X b b' p rest data hpc hnet hdst _ =>
    have hupdate := work_update st.backend X (.sendto b' data p.tag.answer)
    have hp : p.work = 3 := by
      unfold Packet.work
      rw [hdst, if_neg Party.noConfusion]
    rw [hpc, work_recvfrom, work_sendto] at hupdate
    left
    simp only [Net.work, hnet, sum_work_cons, hp]
    omega
  | @answer X b data tag hpc =>
    have hupdate := work_update st.backend X (.recvfrom b)
    rw [hpc, work_recvfrom, work_sendto] at hupdate
    left
    simp only [Net.work, sum_work_cons, Packet.work, if_true]
    omega
  | getListA hpc hnet hdst _ | getListB hpc hnet hdst _ | getResultA hpc hnet hdst
  | getResultB hpc hnet hdst _ =>
    left
    simp only [Net.work, hnet, hpc, sum_work_cons, MainPc.work, Packet.work, hdst, if_true]
    omega
  | noRequest hpc _ | requestA hpc => exact absurd ⟨_, _, hpc⟩ hhead
  | requestB hpc =>
    have hp : ∀ request k, Packet.work ⟨.main, .server .B, request, .request k⟩ = 3 := by
      intro request k
      unfold Packet.work
      rw [if_neg Party.noConfusion]
    left
    simp only [Net.work, hpc, sum_work_cons, MainPc.work, hp]
    omega

theorem step_work_lt {st st' : Net} (hstep : Step file st st') (hhead : ¬ AtLoopHead st) :
    st'.work < st.work := by
  rcases step_work hstep hhead with hwork | ⟨hwork, _⟩
  · omega
  · omega

end

/-! ## What a backend can answer -/

theorem isWord_eraseNewlines {a : Bytes} (h : IsWord space a) : IsWord space (eraseNewlines a) where
  nonempty := by
    unfold eraseNewlines
    split
    · exact h.nonempty
    · rename_i hsome
      intro hnil
      rw [List.rdropWhile_eq_nil_iff] at hnil
      exact hsome (List.all_eq_true.mpr hnil)
  noDelim hmem := h.noDelim ((eraseNewlines_sublist a).subset hmem)
  noNul hmem := h.noNul ((eraseNewlines_sublist a).subset hmem)

theorem getVector_words {str : Bytes} {list : List Bytes} (h : getVector str = some list) :
    ∀ name ∈ list, IsWord space name := by
  rw [← Backend.getVector_eq] at h
  simp only [Backend.getVector, Option.bind_eq_bind, Option.bind_eq_some_iff] at h
  obtain ⟨_, _, ⟨a, rest⟩, hfirst, ⟨as, rest'⟩, htokens, h⟩ := h
  cases h
  intro name hname
  rcases List.mem_cons.mp hname with hname | hname
  · rw [hname]
    exact (strtok_some hfirst).1
  · obtain ⟨t, ht, htname⟩ := List.mem_map.mp hname
    rw [← htname]
    exact isWord_eraseNewlines (isWord_tokens htokens t ht)

theorem recvList_words {received : Bytes} {list : List Bytes}
    (h : MainServer.recvList received = some list) : ∀ name ∈ list, IsWord space name := by
  simp only [MainServer.recvList, Option.bind_eq_bind, Option.bind_eq_some_iff] at h
  obtain ⟨str, _, h⟩ := h
  split at h
  · cases h
    simp
  · exact getVector_words h

theorem reply_fits (list : List User) {ws : List Bytes} (hw : ∀ w ∈ ws, IsWord space w)
    (hlen : (getNameStr ws).length ≤ 1023) :
    ∃ data, Backend.reply list (getNameStr ws) = some data := by
  cases ws with
  | nil => exact ⟨_, rfl⟩
  | cons w ws =>
    have htake : (getNameStr (w :: ws)).take 1024 = getNameStr (w :: ws) :=
      List.take_of_length_le (by omega)
    have hpos : (getNameStr (w :: ws)).length ≠ 0 := by
      rw [length_getNameStr, List.length_cons]
      omega
    obtain ⟨hfirst, hrest⟩ := tokens_getNameStr hw [0]
    have hcopy := strcpy_getNameStr (fun v hv => (hw v hv).noNul) hlen
    have hvector : Backend.getVector (getNameStr (w :: ws)) =
        some (w :: ws.map eraseNewlines) := by
      simp only [Backend.getVector, hcopy, hfirst, hrest, Option.bind_eq_bind, Option.bind_some]
    simp only [Backend.reply, Backend.loopBody, htake, if_neg hpos, hvector, Option.bind_eq_bind,
      Option.bind_some, if_true, Option.map_some]
    exact ⟨_, rfl⟩

theorem reply_overflow (list : List User) {ws : List Bytes} (hw : ∀ w ∈ ws, IsWord space w)
    (hlen : 1023 < (getNameStr ws).length) : Backend.reply list (getNameStr ws) = none := by
  have hcut : ((getNameStr ws).take 1024).length = 1024 := by
    rw [List.length_take]
    omega
  have h0 : 0 ∉ (getNameStr ws).take 1024 := fun hmem =>
    noNul_getNameStr (fun w hword => (hw w hword).noNul) (List.mem_of_mem_take hmem)
  have hcopy : strcpy 1024 ((getNameStr ws).take 1024) = none := strcpy_overflow h0 hcut.ge
  have hvector : Backend.getVector ((getNameStr ws).take 1024) = none := by
    simp only [Backend.getVector, hcopy, Option.bind_eq_bind, Option.bind_none]
  have hpos : ¬ ((getNameStr ws).take 1024).length = 0 := by omega
  simp only [Backend.reply, Backend.loopBody, if_neg hpos, hvector, Option.bind_eq_bind,
    Option.bind_none, Option.map_none]

/-- A backend answers a request exactly when its names fit the buffer of `getVector`. -/
theorem reply_defined (list : List User) {ws : List Bytes} (hw : ∀ w ∈ ws, IsWord space w) :
    (∃ data, Backend.reply list (getNameStr ws) = some data) ↔ (getNameStr ws).length ≤ 1023 := by
  constructor
  · intro h
    obtain ⟨data, hdata⟩ := h
    by_contra hlong
    rw [reply_overflow list hw (by omega)] at hdata
    cases hdata
  · exact reply_fits list hw

/-! ## The names a pass asks for -/

/-- The names of the request to `X`, behind those that earlier passes have left. -/
def Pass.names (pass : Pass) : ServerId → List Bytes
  | .A => pass.server.requestA ++ pass.server.foundA pass.list
  | .B => pass.server.requestB ++ pass.server.foundB pass.list

theorem Pass.serveRequest_eq (pass : Pass) :
    MainServer.replyClient (pass.server.missing pass.list) = some pass.noExistMsg ∧
      ∀ X, pass.request X = getNameStr (pass.names X) := by
  obtain ⟨hmsg, hA, hB⟩ := MainServer.serveRequest_some pass.served
  refine ⟨hmsg, ?_⟩
  intro X
  cases X with
  | A => exact hA
  | B => exact hB

def Wordy (s : MainServer) : Prop :=
  (∀ name ∈ s.requestA, IsWord space name) ∧ ∀ name ∈ s.requestB, IsWord space name

theorem Wordy.loopBody {s s' : MainServer} {received reply₁ reply₂ : Bytes}
    {o : Option MainServer.Round} (h : Wordy s)
    (hpass : s.loopBody received reply₁ reply₂ = some (o, s')) : Wordy s' := by
  obtain ⟨list, hlist, ⟨_, _, rfl⟩ | ⟨_, _, _, _, rfl⟩⟩ := MainServer.loopBody_some.mp hpass
  · exact h
  · have hwords := recvList_words hlist
    obtain ⟨_, _, hrA, hrB⟩ := MainServer.asked_fields s.loopHead list
    obtain ⟨_, _, hA, hB⟩ := MainServer.endRound_requests (s.loopHead.asked list)
      (MainServer.getResult reply₁) (MainServer.getResult reply₂)
    rw [hrA] at hA
    rw [hrB] at hB
    have hfound : ∀ p : Bytes → Bool, ∀ name ∈ list.filter p, IsWord space name :=
      fun p name hname => hwords name (List.mem_of_mem_filter hname)
    unfold Wordy
    rw [hA, hB]
    split
    · exact ⟨List.forall_mem_append.mpr ⟨h.1, hfound _⟩, List.forall_mem_append.mpr ⟨h.2, hfound _⟩⟩
    · simp

section
variable {file : ServerId → Bytes}

theorem wordy_reachable {st : Net} (h : Reachable file st) {s : MainServer}
    (hs : st.main.server = some s) : Wordy s := by
  induction h generalizing s with
  | refl => cases hs
  | tail _ hstep ih =>
    cases hstep with
    | boot _ _ _ | bootUnsent _ _ _ | serve _ _ _ _ | answer _ => exact ih hs
    | getListA _ _ _ _ => cases hs
    | getListB _ _ _ _ =>
      cases hs
      exact ⟨List.forall_mem_nil _, List.forall_mem_nil _⟩
    | noRequest hpc _ =>
      cases hs
      have hwordy := ih (congrArg MainPc.server hpc)
      exact ⟨hwordy.1, hwordy.2⟩
    | requestA hpc | requestB hpc | getResultA hpc _ _ =>
      cases hs
      exact ih (by rw [hpc]; rfl)
    | getResultB hpc _ _ hpass =>
      cases hs
      exact Wordy.loopBody (ih (by rw [hpc]; rfl)) hpass

/-- The pass the main server is in, after its first request. -/
def MainPc.pass : MainPc → Option Pass
  | .getListA => none
  | .getListB _ => none
  | .head _ _ => none
  | .requestB pass => some pass
  | .getResultA pass => some pass
  | .getResultB pass _ => some pass

theorem pass_names {st : Net} (h : Reachable file st) {pass : Pass}
    (hpass : st.main.pass = some pass) (X : ServerId) :
    ∀ name ∈ pass.names X, IsWord space name := by
  have hserver : st.main.server = some pass.server := by
    cases hpc : st.main <;> rw [hpc] at hpass <;> cases hpass <;> rfl
  have hwordy := wordy_reachable h hserver
  have hlist := recvList_words pass.received_eq
  have hfound : ∀ p : Bytes → Bool, ∀ name ∈ pass.list.filter p, IsWord space name :=
    fun p name hname => hlist name (List.mem_of_mem_filter hname)
  cases X with
  | A => exact List.forall_mem_append.mpr ⟨hwordy.1, hfound _⟩
  | B => exact List.forall_mem_append.mpr ⟨hwordy.2, hfound _⟩

/-- What a backend that was asked does next is defined when the request fits. -/
theorem request_answered {st : Net} (h : Reachable file st) {pass : Pass}
    (hpass : st.main.pass = some pass) (X : ServerId) (list : List User) :
    (∃ data, Backend.reply list (pass.request X) = some data) ↔
      (pass.request X).length ≤ 1023 := by
  rw [pass.serveRequest_eq.2 X]
  exact reply_defined list (pass_names h hpass X)

/-! ## Progress -/

/-- After its two requests nothing in a pass is undefined, whatever the replies are. -/
theorem pass_ends (pass : Pass) (reply₁ reply₂ : Bytes) :
    ∃ o s, pass.server.loopBody pass.received reply₁ reply₂ = some (o, s) := by
  obtain ⟨resultMsg, hres⟩ := replyResult_some
    (MainServer.resultFinal (MainServer.getResult reply₁) (MainServer.getResult reply₂))
  exact ⟨_, _, MainServer.loopBody_some.mpr ⟨pass.list, pass.received_eq, .inr
    ⟨pass.list_ne_nil, ⟨pass.noExistMsg, _, _, _, resultMsg⟩, rfl,
      ⟨pass.serveRequest_eq.1, rfl, rfl, rfl, hres⟩, rfl⟩⟩⟩

/-- A backend that was asked can make its next step, or its reply is there to be received. -/
theorem active_progress {φ : ServerId → Phase} {st : Net} (h : InvAt file φ st) {pass : Pass}
    {X : ServerId} (hactive : Active file pass X (φ X))
    (hreply : ∀ list, ∃ data, Backend.reply list (pass.request X) = some data) :
    (∃ st', Step file st st') ∨ ∃ p rest, st.inFlight = p ::ₘ rest ∧ p.dst = .main := by
  have hbackend := h.backend X
  have hflight : ∀ p, (φ X).packet X = some p → ∃ rest, st.inFlight = p ::ₘ rest := by
    intro p hp
    rw [h.inFlight]
    exact Multiset.exists_cons_of_mem (Slots.mem_inFlight.mpr ⟨X, hp⟩)
  generalize φ X = ψ at hactive hbackend hflight
  cases hactive with
  | @asked b hb =>
    obtain ⟨rest, hnet⟩ := hflight _ rfl
    obtain ⟨data, hdata⟩ := hreply b.list
    exact .inl ⟨_, .serve hbackend hnet rfl (hb.serves hdata)⟩
  | serving hb _ => exact .inl ⟨_, .answer hbackend⟩
  | replied hb _ =>
    obtain ⟨rest, hnet⟩ := hflight _ rfl
    exact .inr ⟨_, rest, hnet, rfl⟩

theorem round_progress {st : Net} (h : Reachable file st) {pass : Pass}
    (hpass : st.main.pass = some pass) (hlen : ∀ X, (pass.request X).length ≤ 1023) :
    ∃ st', Step file st st' := by
  obtain ⟨φ, hinv⟩ := inv_reachable h
  have hagrees := hinv.agrees
  have hreply : ∀ X list, ∃ data, Backend.reply list (pass.request X) = some data :=
    fun X list => (request_answered h hpass X list).mpr (hlen X)
  cases hpc : st.main with
  | getListA | getListB _ | head _ _ =>
    rw [hpc] at hpass
    cases hpass
  | requestB _ => exact ⟨_, .requestB hpc⟩
  | getResultA _ =>
    rw [hpc] at hagrees hpass
    cases hpass
    obtain hstep | ⟨p, rest, hnet, hdst⟩ := active_progress hinv (hagrees .A) (hreply .A)
    · exact hstep
    · exact ⟨_, .getResultA hpc hnet hdst⟩
  | getResultB _ p₁ =>
    rw [hpc] at hagrees hpass
    cases hpass
    obtain ⟨X, _, _, hactive⟩ := hagrees
    obtain hstep | ⟨p, rest, hnet, hdst⟩ := active_progress hinv hactive (hreply X.other)
    · exact hstep
    · obtain ⟨o, s, hends⟩ := pass_ends pass p₁.payload p.payload
      exact ⟨_, .getResultB hpc hnet hdst hends⟩

/-- A step stays in the pass, or ends it with both requests answered. -/
theorem step_pass {st st' : Net} (h : Reachable file st) {pass : Pass}
    (hpass : st.main.pass = some pass) (hstep : Step file st st') :
    st'.main.pass = some pass ∨ (AtLoopHead st' ∧ ∀ X, (pass.request X).length ≤ 1023) := by
  cases hstep with
  | boot _ _ _ | bootUnsent _ _ _ | serve _ _ _ _ | answer _ => exact .inl hpass
  | getListA hpc _ _ _ | getListB hpc _ _ _ | noRequest hpc _ | requestA hpc =>
    rw [hpc] at hpass
    cases hpass
  | requestB hpc | getResultA hpc _ _ =>
    rw [hpc] at hpass
    exact .inl hpass
  | getResultB hpc hnet hdst _ =>
    obtain ⟨φ, hinv⟩ := inv_reachable h
    have hanswered := request_answered h hpass
    obtain ⟨X, _, hfirst, hsecond, _⟩ := hinv.second_reply hpc hnet hdst
    rw [hpc] at hpass
    cases hpass
    obtain ⟨b, data, _, hreply, _⟩ := hfirst
    obtain ⟨b', data', _, hreply', _⟩ := hsecond
    refine .inr ⟨⟨_, _, rfl⟩, fun Y => ?_⟩
    obtain rfl | rfl := X.eq_or_eq_other Y
    · exact (hanswered Y b.list).mp ⟨data, hreply⟩
    · exact (hanswered X.other b'.list).mp ⟨data', hreply'⟩

theorem pass_not_head {st : Net} {pass : Pass} (hpass : st.main.pass = some pass) :
    ¬ AtLoopHead st := by
  intro h
  obtain ⟨s, k, hpc⟩ := h
  rw [hpc] at hpass
  cases hpass

theorem phase_of_pass {φ : ServerId → Phase} {main : MainPc} {pass : Pass}
    (hagrees : Agrees file φ main) (hpass : main.pass = some pass) (X : ServerId) :
    Idle file X (φ X) ∨ Active file pass X (φ X) := by
  cases main with
  | getListA | getListB _ | head _ _ => cases hpass
  | requestB _ =>
    cases hpass
    cases X with
    | A => exact .inr hagrees.1
    | B => exact .inl hagrees.2
  | getResultA _ =>
    cases hpass
    exact .inr (hagrees X)
  | getResultB _ _ =>
    cases hpass
    obtain ⟨Y, _, hidle, hactive⟩ := hagrees
    obtain rfl | rfl := Y.eq_or_eq_other X
    · exact .inl hidle
    · exact .inr hactive

/-- In a pass both backends have booted. -/
theorem pass_not_tooLong {st : Net} (h : Reachable file st) {pass : Pass}
    (hpass : st.main.pass = some pass) : ¬ TooLong file st := by
  obtain ⟨φ, hinv⟩ := inv_reachable h
  intro hlong
  obtain ⟨X, _, _, hpc, _, _⟩ := hlong
  have hphase := phase_of_pass hinv.agrees hpass X
  rw [hinv.phase_booting hpc] at hphase
  rcases hphase with ⟨⟨⟩⟩ | ⟨⟨⟩⟩

/-- At the loop head no work is left. -/
theorem head_work {st : Net} (h : Reachable file st) (hhead : AtLoopHead st) : st.work = 0 := by
  obtain ⟨φ, hinv⟩ := inv_reachable h
  obtain ⟨s, k, hpc⟩ := hhead
  obtain ⟨hnet, hwait⟩ := hinv.head_quiet hpc
  obtain ⟨bA, hA⟩ := hwait .A
  obtain ⟨bB, hB⟩ := hwait .B
  unfold Net.work
  rw [hpc, hnet, hA, hB]
  rfl

end

/-- A round ends in some interleaving without undefined behaviour only if both requests fit their
buffers (a longer one overruns that of `getVector`), and then it ends in every interleaving: after
as many steps as there is work left. -/
theorem round_ends_iff (file : ServerId → Bytes) (st : Net) (h : Reachable file st) (pass : Pass)
    (hpass : st.main.pass = some pass) :
    ((∃ st', Relation.ReflTransGen (Step file) st st' ∧ AtLoopHead st') ↔
        ∀ X, (pass.request X).length ≤ 1023) ∧
      ((∀ X, (pass.request X).length ≤ 1023) → After (Step file) AtLoopHead st.work st) := by
  have ends : (∀ X, (pass.request X).length ≤ 1023) → After (Step file) AtLoopHead st.work st := by
    intro hlen
    refine After.of_measure (I := fun st => Reachable file st ∧
      (AtLoopHead st ∨ st.main.pass = some pass)) Net.work ?_ ?_ ?_ ⟨h, .inr hpass⟩
    · intro st hI hhead
      exact head_work hI.1 hhead
    · intro st hI hhead
      exact round_progress hI.1 (hI.2.resolve_left hhead) hlen
    · intro st st' hI hhead hstep
      have hpass := hI.2.resolve_left hhead
      refine ⟨⟨hI.1.tail hstep, ?_⟩,
        (step_work hstep hhead).resolve_right fun h => pass_not_tooLong hI.1 hpass h.2⟩
      obtain hpass | hend := step_pass hI.1 hpass hstep
      · exact .inr hpass
      · exact .inl hend.1
  refine ⟨⟨?_, fun hlen => (ends hlen).inevitable.path⟩, ends⟩
  intro hpath
  obtain ⟨st', hpath, hhead⟩ := hpath
  clear ends
  -- the first state of the path that is at the loop head ends this pass
  induction hpath using Relation.ReflTransGen.head_induction_on with
  | refl => exact absurd hhead (pass_not_head hpass)
  | head hstep _ ih =>
    obtain hpass' | hend := step_pass h hpass hstep
    · exact ih (h.tail hstep) hpass'
    · exact hend.2

theorem round_ends_sample :
    ∃ st, Reachable sampleFiles st ∧ st.main.pass = some samplePass ∧
      After (Step sampleFiles) AtLoopHead st.work st := by
  obtain ⟨backend, hreach⟩ := reachable_sample
  have hlen : ∀ X, (samplePass.request X).length ≤ 1023 := by
    intro X
    cases X <;> decide
  exact ⟨_, hreach, rfl, (round_ends_iff sampleFiles _ hreach samplePass rfl).2 hlen⟩

/-- A round is eight steps: the first request, and seven more. -/
theorem round_work {file : ServerId → Bytes} {st : Net} (h : Reachable file st) {pass : Pass}
    (hpc : st.main = .head pass.server pass.k) :
    (Net.mk (.requestB pass) st.backend
      (⟨.main, .server .A, pass.request .A, .request pass.k⟩ ::ₘ st.inFlight)).work = 7 := by
  have hwork := head_work h ⟨_, _, hpc⟩
  have hp : Packet.work ⟨.main, .server .A, pass.request .A, .request pass.k⟩ = 3 := by
    unfold Packet.work
    rw [if_neg Party.noConfusion]
  unfold Net.work at hwork ⊢
  simp only [hpc, sum_work_cons, MainPc.work, hp] at hwork ⊢
  omega

/-! ## Boot-up -/

section
variable {file : ServerId → Bytes}

/-- A backend that has not been heard can boot, or its list is there to be received. -/
theorem starting_progress {φ : ServerId → Phase} {st : Net} (h : InvAt file φ st) {X : ServerId}
    (hstart : Starting file X (φ X)) (hlisted : ∃ list, Listed file X list) :
    (∃ st', Step file st st') ∨ ∃ p rest list, st.inFlight = p ::ₘ rest ∧ p.dst = .main ∧
      getList p.payload = some list := by
  obtain ⟨list, hlisted⟩ := hlisted
  obtain ⟨b, d, hboot, hsent, hlist⟩ := sent_of_listed hlisted
  have hbackend := h.backend X
  have hflight : ∀ p, (φ X).packet X = some p → ∃ rest, st.inFlight = p ::ₘ rest := by
    intro p hp
    rw [h.inFlight]
    exact Multiset.exists_cons_of_mem (Slots.mem_inFlight.mpr ⟨X, hp⟩)
  generalize φ X = ψ at hstart hbackend hflight
  cases hstart with
  | booting => exact .inl ⟨_, .boot hbackend hboot hsent⟩
  | unsent hboot' hlong =>
    rw [hboot] at hboot'
    cases hboot'
    rw [hsent] at hlong
    cases hlong
  | listSent hboot' _ =>
    rw [hboot] at hboot'
    cases hboot'
    obtain ⟨rest, hnet⟩ := hflight _ rfl
    exact .inr ⟨_, rest, list, hnet, rfl, hlist⟩

theorem boot_progress {st : Net} (h : Reachable file st) (hserver : st.main.server = none)
    (hlisted : ∀ X, ∃ list, Listed file X list) : ∃ st', Step file st st' := by
  obtain ⟨φ, hinv⟩ := inv_reachable h
  have hagrees := hinv.agrees
  cases hpc : st.main with
  | getListA =>
    rw [hpc] at hagrees
    obtain hstep | ⟨p, rest, list, hnet, hdst, hlist⟩ :=
      starting_progress hinv (hagrees .A) (hlisted .A)
    · exact hstep
    · exact ⟨_, .getListA hpc hnet hdst hlist⟩
  | getListB _ =>
    rw [hpc] at hagrees
    obtain ⟨X, _, hstart⟩ := hagrees
    obtain hstep | ⟨p, rest, list, hnet, hdst, hlist⟩ :=
      starting_progress hinv hstart (hlisted X.other)
    · exact hstep
    · exact ⟨_, .getListB hpc hnet hdst hlist⟩
  | head _ _ | requestB _ | getResultA _ | getResultB _ _ =>
    rw [hpc] at hserver
    cases hserver

theorem not_tooLong {st : Net} (hlisted : ∀ X, ∃ list, Listed file X list) :
    ¬ TooLong file st := by
  intro hlong
  obtain ⟨X, b, d, _, hboot, hlong⟩ := hlong
  obtain ⟨list, hlisted⟩ := hlisted X
  obtain ⟨b', d', hboot', hsent, _⟩ := sent_of_listed hlisted
  rw [hboot] at hboot'
  cases hboot'
  rw [hsent] at hlong
  cases hlong

theorem step_boot {st st' : Net} (hserver : st.main.server = none) (hstep : Step file st st') :
    st'.main.server = none ∨ AtLoopHead st' := by
  cases hstep with
  | boot _ _ _ | bootUnsent _ _ _ | serve _ _ _ _ | answer _ => exact .inl hserver
  | getListA _ _ _ _ => exact .inl rfl
  | getListB _ _ _ _ => exact .inr ⟨_, _, rfl⟩
  | noRequest hpc _ | requestA hpc | requestB hpc | getResultA hpc _ _ | getResultB hpc _ _ _ =>
    rw [hpc] at hserver
    cases hserver

end

/-- Boot-up ends in some interleaving without undefined behaviour only if both backends can read
their file and send their list and the main server can decode both, and then it ends in every one,
after four steps. -/
theorem boot_ends_iff (file : ServerId → Bytes) :
    ((∃ st, Reachable file st ∧ AtLoopHead st) ↔ ∀ X, ∃ list, Listed file X list) ∧
      ((∀ X, ∃ list, Listed file X list) → After (Step file) AtLoopHead 4 Net.init) := by
  have ends : (∀ X, ∃ list, Listed file X list) → After (Step file) AtLoopHead 4 Net.init := by
    intro hlisted
    refine After.of_measure (I := fun st => Reachable file st ∧
      (AtLoopHead st ∨ st.main.server = none)) Net.work ?_ ?_ ?_ ⟨.refl, .inr rfl⟩
    · intro st hI hhead
      exact head_work hI.1 hhead
    · intro st hI hhead
      exact boot_progress hI.1 (hI.2.resolve_left hhead) hlisted
    · intro st st' hI hhead hstep
      exact ⟨⟨hI.1.tail hstep, (step_boot (hI.2.resolve_left hhead) hstep).symm⟩,
        (step_work hstep hhead).resolve_right fun h => not_tooLong hlisted h.2⟩
  refine ⟨⟨?_, fun hlisted => (ends hlisted).inevitable.path⟩, ends⟩
  intro hreach
  obtain ⟨st, hreach, s, k, hpc⟩ := hreach
  obtain ⟨log, htrace⟩ := reachable_iff_trace.mp hreach
  obtain ⟨hnone, _⟩ | ⟨X, list₁, list₂, _, h₁, h₂, _⟩ := trace_from_boot htrace
  · rw [hpc] at hnone
    cases hnone
  · intro Y
    obtain rfl | rfl := X.eq_or_eq_other Y
    · exact ⟨list₁, h₁⟩
    · exact ⟨list₂, h₂⟩

theorem boot_ends_sample : After (Step sampleFiles) AtLoopHead 4 Net.init := by
  refine (boot_ends_iff sampleFiles).2 ?_
  intro X
  cases X with
  | A => exact ⟨_, listed_sample.1⟩
  | B => exact ⟨_, listed_sample.2⟩

end StreamBridge
