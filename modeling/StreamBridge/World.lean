import StreamBridge.ClientLoop
import StreamBridge.Framing
import StreamBridge.Progress
import StreamBridge.Report

/-!
# StreamBridge.World

All four programs together: the client with its input and its screen, the two directions of the TCP
connection, and the three servers with the datagrams between them.

* `Talks`: the steps of the servers, with what they take from the connection and put on it;
  `exists_talks` says that no step is left out.
* `WorldStep`: one step of one of the programs. How much of the pending bytes a `recv` finds is up
  to the connection; `Delivers` says what one does that never cuts a message.
-/

namespace StreamBridge

open CString Intervals Machine

/-- A step of the servers, with the message it takes from the client and what it sends there. -/
inductive Talks (file : ServerId → Bytes) : Net → Option Bytes → Bytes → Net → Prop
  | noRequest {st : Net} {s : MainServer} {k : Nat} {received : Bytes}
      (hpc : st.main = .head s k) (hrecv : MainServer.recvList received = some []) :
      Talks file st (some received) [] ⟨.head s.loopHead k, st.backend, st.inFlight⟩
  | request {st : Net} {pass : Pass} (hpc : st.main = .head pass.server pass.k) :
      Talks file st (some pass.received) pass.noExistMsg ⟨.requestB pass, st.backend,
        ⟨.main, .server .A, pass.request .A, .request pass.k⟩ ::ₘ st.inFlight⟩
  | result {st : Net} {pass : Pass} {p₁ p : Packet} {rest : Multiset Packet}
      {o : Option MainServer.Round} {s : MainServer} (hpc : st.main = .getResultB pass p₁)
      (hnet : st.inFlight = p ::ₘ rest) (hdst : p.dst = .main)
      (hpass : pass.server.loopBody pass.received p₁.payload p.payload = some (o, s)) :
      Talks file st none (MainServer.sentResult o) ⟨.head s (pass.k + 1), st.backend, rest⟩
  | internal {st st' : Net} (hstep : Step file st st') (hhead : ¬ AtLoopHead st)
      (hrounds : st'.main.rounds = st.main.rounds) : Talks file st none [] st'

structure World where
  client : Client.Pc
  stdin : Bytes
  stdout : Bytes
  toServer : Bytes
  toClient : Bytes
  net : Net

/-- `arrives ready pending` says that `ready` of the pending bytes may be there at a `recv`, which
waits for at least one. The end of standard input is not a step: nothing is read there. -/
inductive WorldStep (file : ServerId → Bytes) (arrives : Nat → Bytes → Prop) :
    World → World → Prop
  | reject {w : World} {list list' : List Bytes} {screen : Bytes} (hpc : w.client = .fgets list)
      (hstdin : w.stdin ≠ [])
      (henter : Client.enter list (fgets 1023 w.stdin).1 = some (screen, list', none)) :
      WorldStep file arrives w ⟨.fgets list', (fgets 1023 w.stdin).2, w.stdout ++ screen,
        w.toServer, w.toClient, w.net⟩
  | submit {w : World} {list list' : List Bytes} {screen msg : Bytes}
      (hpc : w.client = .fgets list) (hstdin : w.stdin ≠ [])
      (henter : Client.enter list (fgets 1023 w.stdin).1 = some (screen, list', some msg)) :
      WorldStep file arrives w ⟨.recvNoExist list', (fgets 1023 w.stdin).2, w.stdout ++ screen,
        w.toServer ++ msg, w.toClient, w.net⟩
  | recvNoExist {w : World} {list no_exist : List Bytes} {shown : Bytes} {ready : Nat}
      (hpc : w.client = .recvNoExist list) (hpending : w.toClient ≠ [])
      (harrives : arrives ready w.toClient)
      (hrecv : Client.recvNoExist (recv ready w.toClient).1 = some no_exist)
      (hshown : Client.shownNoExist (recv ready w.toClient).1 = some shown) :
      WorldStep file arrives w ⟨.recvResult list no_exist, w.stdin, w.stdout ++ shown, w.toServer,
        (recv ready w.toClient).2, w.net⟩
  | recvResult {w : World} {list no_exist : List Bytes} {result : List TimeInterval} {ready : Nat}
      (hpc : w.client = .recvResult list no_exist) (hpending : w.toClient ≠ [])
      (harrives : arrives ready w.toClient)
      (hrecv : Client.recvResult (recv ready w.toClient).1 = some result) :
      WorldStep file arrives w ⟨.fgets list, w.stdin,
        w.stdout ++ Client.shownResult list no_exist result, w.toServer,
        (recv ready w.toClient).2, w.net⟩
  | listen {w : World} {sent : Bytes} {st' : Net} {ready : Nat} (hpending : w.toServer ≠ [])
      (harrives : arrives ready w.toServer)
      (hstep : Talks file w.net (some (recv ready w.toServer).1) sent st') :
      WorldStep file arrives w ⟨w.client, w.stdin, w.stdout, (recv ready w.toServer).2,
        w.toClient ++ sent, st'⟩
  | serve {w : World} {sent : Bytes} {st' : Net} (hstep : Talks file w.net none sent st') :
      WorldStep file arrives w ⟨w.client, w.stdin, w.stdout, w.toServer, w.toClient ++ sent, st'⟩

/-- A connection on which every message has arrived whole when `recv` returns, up to its limit. -/
structure Delivers (arrives : Nat → Bytes → Prop) : Prop where
  ready : ∀ pending, pending ≠ [] → ∃ ready, arrives ready pending
  whole : ∀ ready pending, arrives ready pending → min pending.length 1024 ≤ ready

section
variable {file : ServerId → Bytes} {arrives : Nat → Bytes → Prop}

theorem Talks.step {st st' : Net} {received : Option Bytes} {sent : Bytes}
    (h : Talks file st received sent st') : Step file st st' := by
  cases h with
  | noRequest hpc hrecv => exact .noRequest hpc hrecv
  | request hpc => exact .requestA hpc
  | result hpc hnet hdst hpass => exact .getResultB hpc hnet hdst hpass
  | internal hstep _ _ => exact hstep

/-- At the loop head the backends wait for a request. -/
theorem head_step {st st' : Net} (h : Reachable file st) (hhead : AtLoopHead st)
    (hstep : Step file st st') : ∃ received sent, Talks file st received sent st' := by
  obtain ⟨φ, hinv⟩ := inv_reachable h
  obtain ⟨s, k, hhead⟩ := hhead
  obtain ⟨hquiet, hwait⟩ := hinv.head_quiet hhead
  cases hstep with
  | @boot X _ _ hpc _ _ | @bootUnsent X _ _ hpc _ _ | @answer X _ _ _ hpc =>
    obtain ⟨b, hb⟩ := hwait X
    rw [hb] at hpc
    cases hpc
  | serve _ hnet _ _ =>
    rw [hquiet] at hnet
    exact absurd hnet.symm Multiset.cons_ne_zero
  | noRequest hpc hrecv => exact ⟨_, _, .noRequest hpc hrecv⟩
  | requestA hpc => exact ⟨_, _, .request hpc⟩
  | getListA hpc _ _ _ | getListB hpc _ _ _ | requestB hpc | getResultA hpc _ _
  | getResultB hpc _ _ _ =>
    rw [hhead] at hpc
    cases hpc

/-- Every step of the servers takes and sends something, be it nothing. -/
theorem exists_talks {st st' : Net} (h : Reachable file st) (hstep : Step file st st') :
    ∃ received sent, Talks file st received sent st' := by
  by_cases hhead : AtLoopHead st
  · exact head_step h hhead hstep
  · by_cases hrounds : st'.main.rounds = st.main.rounds
    · exact ⟨_, _, .internal hstep hhead hrounds⟩
    · cases hstep with
      | getResultB hpc hnet hdst hpass => exact ⟨_, _, .result hpc hnet hdst hpass⟩
      | boot _ _ _ | bootUnsent _ _ _ | serve _ _ _ _ | answer _ => exact absurd rfl hrounds
      | getListA hpc _ _ _ | getListB hpc _ _ _ | requestB hpc | getResultA hpc _ _ =>
        exact absurd (by rw [hpc]; rfl) hrounds
      | noRequest hpc _ | requestA hpc => exact absurd ⟨_, _, hpc⟩ hhead

theorem recv_delivers (hnet : Delivers arrives) {ready : Nat} {pending : Bytes}
    (h : arrives ready pending) : recv ready pending = (pending.take 1024, pending.drop 1024) := by
  have hwhole := hnet.whole ready pending h
  unfold recv
  by_cases hlen : 1024 ≤ pending.length
  · have hall : max 1 (min ready 1024) = 1024 := by omega
    rw [hall]
  · have hall : pending.length ≤ max 1 (min ready 1024) := by omega
    rw [List.take_of_length_le hall, List.drop_of_length_le hall, List.take_of_length_le (by omega),
      List.drop_of_length_le (by omega)]

theorem recv_whole (hnet : Delivers arrives) {ready : Nat} {pending : Bytes}
    (h : arrives ready pending) (hlen : pending.length ≤ 1024) :
    recv ready pending = (pending, []) := by
  rw [recv_delivers hnet h, List.take_of_length_le hlen, List.drop_of_length_le hlen]

end

end StreamBridge
