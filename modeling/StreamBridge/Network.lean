import Mathlib.Data.Multiset.Basic
import Mathlib.Logic.Function.Basic
import StreamBridge.Boot

/-!
# StreamBridge.Network

The main server and the two backends as processes that exchange UDP datagrams. A datagram is in
flight from its `sendto` until some `recvfrom` of its destination takes it; any one may be taken,
so delivery is in any order, and none is lost or duplicated.

A step is one socket call together with the computation up to the next one. The computations are
those of `Backend.loopBody` and of the passes of `MainServer`; where they are undefined behaviour
there is no step, so a run of `Step` is one without undefined behaviour. What the client sends is
whatever `recv` returns.

A list of names that is too long for a datagram (`udp`) is not sent, which the backend does not
notice. The `sendto` of a request or of a reply is taken to succeed.

`tag` says what a datagram is for. No step looks at it, nor at `src`: the receivers do not.
-/

namespace StreamBridge

open CString

inductive Party where
  | main
  | server (id : ServerId)
  deriving DecidableEq

/-- What a datagram is for; requests and replies are numbered by the round. -/
inductive Tag where
  | boot
  | request (k : Nat)
  | reply (k : Nat)
  deriving DecidableEq

def Tag.answer : Tag → Tag
  | .request k => .reply k
  | t => t

structure Packet where
  src : Party
  dst : Party
  payload : Bytes
  tag : Tag
  deriving DecidableEq

/-- Where a backend is: before `boot_up`, in `recvfrom` at its loop head, or before the `sendto`
of its answer. -/
inductive BackendPc where
  | booting
  | recvfrom (b : Backend)
  | sendto (b : Backend) (data : Bytes) (tag : Tag)

/-- A pass of the main server after `requestEndServer`: round `k`, from the globals at the loop
head and the bytes received. -/
structure Pass where
  k : Nat
  server : MainServer
  received : Bytes
  list : List Bytes
  noExistMsg : Bytes
  request : ServerId → Bytes
  waiting : MainServer
  received_eq : MainServer.recvList received = some list
  list_ne_nil : list ≠ []
  served : server.loopHead.serveRequest list =
    some (noExistMsg, request .A, request .B, waiting)

/-- Where the main server is: in one of its `recvfrom` calls, at the loop head, or between the two
calls of `requestEndServer`. -/
inductive MainPc where
  | getListA
  | getListB (listA : List Bytes)
  | head (s : MainServer) (k : Nat)
  | requestB (pass : Pass)
  | getResultA (pass : Pass)
  | getResultB (pass : Pass) (reply₁ : Packet)

structure Net where
  main : MainPc
  backend : ServerId → BackendPc
  inFlight : Multiset Packet

def Net.init : Net := ⟨.getListA, fun _ => .booting, 0⟩

inductive Step (file : ServerId → Bytes) : Net → Net → Prop
  | boot {st : Net} {X : ServerId} {b : Backend} {d : Bytes} (hpc : st.backend X = .booting)
      (hboot : Backend.bootUp (file X) = some (b, d)) (hsent : udp d = some d) :
      Step file st ⟨st.main, Function.update st.backend X (.recvfrom b),
        ⟨.server X, .main, d, .boot⟩ ::ₘ st.inFlight⟩
  | bootUnsent {st : Net} {X : ServerId} {b : Backend} {d : Bytes}
      (hpc : st.backend X = .booting) (hboot : Backend.bootUp (file X) = some (b, d))
      (hlong : udp d = none) :
      Step file st ⟨st.main, Function.update st.backend X (.recvfrom b), st.inFlight⟩
  | serve {st : Net} {X : ServerId} {b b' : Backend} {p : Packet} {rest : Multiset Packet}
      {data : Bytes} (hpc : st.backend X = .recvfrom b) (hnet : st.inFlight = p ::ₘ rest)
      (hdst : p.dst = .server X) (hpass : b.loopBody p.payload true = some (data, b')) :
      Step file st ⟨st.main, Function.update st.backend X (.sendto b' data p.tag.answer), rest⟩
  | answer {st : Net} {X : ServerId} {b : Backend} {data : Bytes} {tag : Tag}
      (hpc : st.backend X = .sendto b data tag) :
      Step file st ⟨st.main, Function.update st.backend X (.recvfrom b),
        ⟨.server X, .main, data, tag⟩ ::ₘ st.inFlight⟩
  | getListA {st : Net} {p : Packet} {rest : Multiset Packet} {listA : List Bytes}
      (hpc : st.main = .getListA) (hnet : st.inFlight = p ::ₘ rest) (hdst : p.dst = .main)
      (hlist : getList p.payload = some listA) :
      Step file st ⟨.getListB listA, st.backend, rest⟩
  | getListB {st : Net} {p : Packet} {rest : Multiset Packet} {listA listB : List Bytes}
      (hpc : st.main = .getListB listA) (hnet : st.inFlight = p ::ₘ rest) (hdst : p.dst = .main)
      (hlist : getList p.payload = some listB) :
      Step file st ⟨.head (MainServer.booted listA listB) 0, st.backend, rest⟩
  | noRequest {st : Net} {s : MainServer} {k : Nat} {received : Bytes}
      (hpc : st.main = .head s k) (hrecv : MainServer.recvList received = some []) :
      Step file st ⟨.head s.loopHead k, st.backend, st.inFlight⟩
  | requestA {st : Net} {pass : Pass} (hpc : st.main = .head pass.server pass.k) :
      Step file st ⟨.requestB pass, st.backend,
        ⟨.main, .server .A, pass.request .A, .request pass.k⟩ ::ₘ st.inFlight⟩
  | requestB {st : Net} {pass : Pass} (hpc : st.main = .requestB pass) :
      Step file st ⟨.getResultA pass, st.backend,
        ⟨.main, .server .B, pass.request .B, .request pass.k⟩ ::ₘ st.inFlight⟩
  | getResultA {st : Net} {pass : Pass} {p : Packet} {rest : Multiset Packet}
      (hpc : st.main = .getResultA pass) (hnet : st.inFlight = p ::ₘ rest) (hdst : p.dst = .main) :
      Step file st ⟨.getResultB pass p, st.backend, rest⟩
  | getResultB {st : Net} {pass : Pass} {p₁ p : Packet} {rest : Multiset Packet}
      {o : Option MainServer.Round} {s : MainServer} (hpc : st.main = .getResultB pass p₁)
      (hnet : st.inFlight = p ::ₘ rest) (hdst : p.dst = .main)
      (hpass : pass.server.loopBody pass.received p₁.payload p.payload = some (o, s)) :
      Step file st ⟨.head s (pass.k + 1), st.backend, rest⟩

/-- The states some interleaving of the three processes leads to. -/
def Reachable (file : ServerId → Bytes) (st : Net) : Prop :=
  Relation.ReflTransGen (Step file) Net.init st

end StreamBridge
