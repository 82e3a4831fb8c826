import StreamBridge.Boot
import StreamBridge.Lib.Slots
import StreamBridge.Network

/-!
# StreamBridge.Matching

Replies carry no round number, and the main server does not look at who sent them. What makes
them match is that each backend has at most one datagram to or from it in flight, of a kind that
the state of the main server settles.

* `Phase`: where a backend is together with its datagram.
* `Agrees`: the phases that go with each state of the main server.
* `inv_step`, `inv_reachable`: every step keeps the invariant.
* `round_matching`: at the loop head nothing is in flight; in a round the two datagrams consumed
  are the two backends' replies to the requests of that round.
-/

namespace StreamBridge

open CString Slots

instance instFintypeServerId : Fintype ServerId := ⟨{.A, .B}, fun X => by cases X <;> simp⟩

def ServerId.other : ServerId → ServerId
  | .A => .B
  | .B => .A

theorem ServerId.eq_or_eq_other (X Y : ServerId) : Y = X ∨ Y = X.other := by
  cases X <;> cases Y <;> simp [ServerId.other]

theorem ServerId.other_ne (X : ServerId) : X.other ≠ X := by
  cases X <;> simp [ServerId.other]

/-- A backend and the one datagram to or from it that may be in flight. -/
inductive Phase where
  | booting
  | listSent (b : Backend) (d : Bytes)
  | unsent (b : Backend)
  | idle (b : Backend)
  | asked (b : Backend) (k : Nat) (request : Bytes)
  | serving (b : Backend) (k : Nat) (data : Bytes)
  | replied (b : Backend) (k : Nat) (data : Bytes)

namespace Phase

def pc : Phase → BackendPc
  | booting => .booting
  | listSent b _ => .recvfrom b
  | unsent b => .recvfrom b
  | idle b => .recvfrom b
  | asked b _ _ => .recvfrom b
  | serving b k data => .sendto b data (.reply k)
  | replied b _ _ => .recvfrom b

def packet (X : ServerId) : Phase → Option Packet
  | booting => none
  | listSent _ d => some ⟨.server X, .main, d, .boot⟩
  | unsent _ => none
  | idle _ => none
  | asked _ k request => some ⟨.main, .server X, request, .request k⟩
  | serving _ _ _ => none
  | replied _ k data => some ⟨.server X, .main, data, .reply k⟩

end Phase

section
variable {file : ServerId → Bytes}

/-- What `boot_up` leaves of a backend; its loop always returns there. -/
def Booted (file : ServerId → Bytes) (X : ServerId) (b : Backend) : Prop :=
  ∃ d, Backend.bootUp (file X) = some (b, d)

/-- The reply of backend `X` in a pass: its answer to the request of that pass. -/
def Answers (file : ServerId → Bytes) (pass : Pass) (X : ServerId) (p : Packet) : Prop :=
  ∃ b data, Booted file X b ∧ Backend.reply b.list (pass.request X) = some data ∧
    p = ⟨.server X, .main, data, .reply pass.k⟩

/-- Before the main server has the list of the backend. -/
inductive Starting (file : ServerId → Bytes) (X : ServerId) : Phase → Prop
  | booting : Starting file X .booting
  | listSent {b : Backend} {d : Bytes} (h : Backend.bootUp (file X) = some (b, d))
      (hsent : udp d = some d) : Starting file X (.listSent b d)
  | unsent {b : Backend} {d : Bytes} (h : Backend.bootUp (file X) = some (b, d))
      (hlong : udp d = none) : Starting file X (.unsent b)

inductive Idle (file : ServerId → Bytes) (X : ServerId) : Phase → Prop
  | idle {b : Backend} (h : Booted file X b) : Idle file X (.idle b)

/-- From the request of a pass until its reply is consumed. -/
inductive Active (file : ServerId → Bytes) (pass : Pass) (X : ServerId) : Phase → Prop
  | asked {b : Backend} (h : Booted file X b) :
      Active file pass X (.asked b pass.k (pass.request X))
  | serving {b : Backend} {data : Bytes} (h : Booted file X b)
      (hreply : Backend.reply b.list (pass.request X) = some data) :
      Active file pass X (.serving b pass.k data)
  | replied {b : Backend} {data : Bytes} (h : Booted file X b)
      (hreply : Backend.reply b.list (pass.request X) = some data) :
      Active file pass X (.replied b pass.k data)

/-- The phases that go with each state of the main server. -/
def Agrees (file : ServerId → Bytes) (φ : ServerId → Phase) : MainPc → Prop
  | .getListA => ∀ X, Starting file X (φ X)
  | .getListB _ => ∃ X, Idle file X (φ X) ∧ Starting file X.other (φ X.other)
  | .head _ _ => ∀ X, Idle file X (φ X)
  | .requestB pass => Active file pass .A (φ .A) ∧ Idle file .B (φ .B)
  | .getResultA pass => ∀ X, Active file pass X (φ X)
  | .getResultB pass reply₁ => ∃ X, Answers file pass X reply₁ ∧ Idle file X (φ X) ∧
      Active file pass X.other (φ X.other)

def packets (φ : ServerId → Phase) (X : ServerId) : Option Packet := (φ X).packet X

structure InvAt (file : ServerId → Bytes) (φ : ServerId → Phase) (st : Net) : Prop where
  backend : ∀ X, st.backend X = (φ X).pc
  inFlight : st.inFlight = Slots.inFlight (packets φ)
  agrees : Agrees file φ st.main

def Inv (file : ServerId → Bytes) (st : Net) : Prop := ∃ φ, InvAt file φ st

theorem inv_init : Inv file Net.init :=
  ⟨fun _ => .booting, fun _ => rfl, (inFlight_eq_zero.mpr fun _ => rfl).symm, fun _ => .booting⟩

/-! ## Phases of one backend -/

theorem packets_update (φ : ServerId → Phase) (X : ServerId) (ψ : Phase) :
    packets (Function.update φ X ψ) = Function.update (packets φ) X (ψ.packet X) := by
  funext Y
  by_cases h : Y = X
  · subst h
    simp [packets]
  · simp [packets, h]

theorem update_keeps {P : ServerId → Phase → Prop} {φ : ServerId → Phase} {X : ServerId} {ψ : Phase}
    (h : P X (φ X) → P X ψ) (Y : ServerId) (hY : P Y (φ Y)) : P Y (Function.update φ X ψ Y) := by
  by_cases hYX : Y = X
  · subst hYX
    rw [Function.update_self]
    exact h hY
  · rwa [Function.update_of_ne hYX]

theorem agrees_update {φ : ServerId → Phase} {X : ServerId} {ψ : Phase} {main : MainPc}
    (hS : Starting file X (φ X) → Starting file X ψ) (hI : Idle file X (φ X) → Idle file X ψ)
    (hA : ∀ pass, Active file pass X (φ X) → Active file pass X ψ) (h : Agrees file φ main) :
    Agrees file (Function.update φ X ψ) main := by
  have starting := update_keeps (P := Starting file) hS
  have idle := update_keeps (P := Idle file) hI
  have active := fun pass => update_keeps (P := Active file pass) (hA pass)
  cases main with
  | getListA => exact fun Y => starting Y (h Y)
  | getListB _ =>
    obtain ⟨Y, hY, hother⟩ := h
    exact ⟨Y, idle Y hY, starting _ hother⟩
  | head _ _ => exact fun Y => idle Y (h Y)
  | requestB pass => exact ⟨active pass _ h.1, idle _ h.2⟩
  | getResultA pass => exact fun Y => active pass Y (h Y)
  | getResultB pass reply₁ =>
    obtain ⟨Y, hreply, hY, hother⟩ := h
    exact ⟨Y, hreply, idle Y hY, active pass _ hother⟩

theorem Booted.loopBody {X : ServerId} {b b' : Backend} {datagram data : Bytes}
    (h : Booted file X b) (hpass : b.loopBody datagram true = some (data, b')) :
    b' = b ∧ Backend.reply b.list datagram = some data := by
  obtain ⟨d, hboot⟩ := h
  have hb : b = ⟨b.list, [], []⟩ := by
    simp only [Backend.bootUp, Option.bind_eq_bind, Option.bind_eq_some_iff] at hboot
    obtain ⟨list, _, hboot⟩ := hboot
    cases hboot
    rfl
  rw [hb, Backend.loopBody_clean] at hpass
  cases hreply : Backend.reply b.list datagram with
  | none =>
    rw [hreply] at hpass
    cases hpass
  | some data' =>
    rw [hreply] at hpass
    cases hpass
    exact ⟨hb.symm, rfl⟩

theorem InvAt.backend_same {φ : ServerId → Phase} {st : Net} (h : InvAt file φ st) {X : ServerId}
    {ψ : Phase} (hpc : (φ X).pc = ψ.pc) (Y : ServerId) :
    st.backend Y = (Function.update φ X ψ Y).pc := by
  by_cases hYX : Y = X
  · subst hYX
    rw [Function.update_self, h.backend, hpc]
  · rw [Function.update_of_ne hYX, h.backend]

theorem InvAt.backend_move {φ : ServerId → Phase} {st : Net} (h : InvAt file φ st) (X : ServerId)
    (ψ : Phase) (Y : ServerId) :
    Function.update st.backend X ψ.pc Y = (Function.update φ X ψ Y).pc := by
  by_cases hYX : Y = X
  · subst hYX
    rw [Function.update_self, Function.update_self]
  · rw [Function.update_of_ne hYX, Function.update_of_ne hYX, h.backend]

theorem InvAt.send {φ : ServerId → Phase} {st : Net} (h : InvAt file φ st) {X : ServerId}
    {ψ : Phase} {p : Packet} (hnone : (φ X).packet X = none) (hp : ψ.packet X = some p) :
    p ::ₘ st.inFlight = Slots.inFlight (packets (Function.update φ X ψ)) := by
  have hslot : packets φ X = none := hnone
  rw [packets_update, hp, inFlight_put hslot, h.inFlight]

theorem InvAt.consume {φ : ServerId → Phase} {st : Net} {p : Packet} {rest : Multiset Packet}
    (h : InvAt file φ st) (hnet : st.inFlight = p ::ₘ rest) (hdst : p.dst = .main) :
    ∃ X b, ((∃ d, φ X = .listSent b d ∧ p = ⟨.server X, .main, d, .boot⟩) ∨
        (∃ k data, φ X = .replied b k data ∧ p = ⟨.server X, .main, data, .reply k⟩)) ∧
      (∀ Y, st.backend Y = (Function.update φ X (.idle b) Y).pc) ∧
      rest = Slots.inFlight (packets (Function.update φ X (.idle b))) := by
  obtain ⟨X, hX, rfl⟩ := inFlight_take (h.inFlight.symm.trans hnet)
  have hrest : ∀ b, Function.update (packets φ) X none =
      packets (Function.update φ X (.idle b)) := fun b => (packets_update φ X (.idle b)).symm
  simp only [packets] at hX
  cases hφ : φ X with
  | listSent b d =>
    rw [hφ] at hX
    exact ⟨X, b, .inl ⟨d, hφ, (Option.some.inj hX).symm⟩, h.backend_same (by rw [hφ]; rfl),
      by rw [hrest b]⟩
  | replied b k data =>
    rw [hφ] at hX
    exact ⟨X, b, .inr ⟨k, data, hφ, (Option.some.inj hX).symm⟩, h.backend_same (by rw [hφ]; rfl),
      by rw [hrest b]⟩
  | booting | unsent _ | idle _ | serving _ _ _ =>
    rw [hφ] at hX
    cases hX
  | asked b k request =>
    rw [hφ] at hX
    cases hX
    cases hdst

/-! ## One step -/

theorem InvAt.phase_booting {φ : ServerId → Phase} {st : Net} (h : InvAt file φ st) {X : ServerId}
    (hpc : st.backend X = .booting) : φ X = .booting := by
  have := h.backend X
  rw [hpc] at this
  cases hX : φ X <;> rw [hX] at this <;> cases this

theorem inv_boot {φ : ServerId → Phase} {st : Net} (h : InvAt file φ st) {X : ServerId}
    {b : Backend} {d : Bytes} (hpc : st.backend X = .booting)
    (hboot : Backend.bootUp (file X) = some (b, d)) (hsent : udp d = some d) :
    Inv file ⟨st.main, Function.update st.backend X (.recvfrom b),
      ⟨.server X, .main, d, .boot⟩ ::ₘ st.inFlight⟩ := by
  have hφ := h.phase_booting hpc
  refine ⟨Function.update φ X (.listSent b d), h.backend_move X (.listSent b d),
    h.send (by rw [hφ]; rfl) rfl, agrees_update (fun _ => .listSent hboot hsent) ?_ ?_ h.agrees⟩
  · rw [hφ]
    rintro ⟨⟩
  · rw [hφ]
    rintro _ ⟨⟩

theorem inv_bootUnsent {φ : ServerId → Phase} {st : Net} (h : InvAt file φ st) {X : ServerId}
    {b : Backend} {d : Bytes} (hpc : st.backend X = .booting)
    (hboot : Backend.bootUp (file X) = some (b, d)) (hlong : udp d = none) :
    Inv file ⟨st.main, Function.update st.backend X (.recvfrom b), st.inFlight⟩ := by
  have hφ := h.phase_booting hpc
  refine ⟨Function.update φ X (.unsent b), h.backend_move X (.unsent b), ?_,
    agrees_update (fun _ => .unsent hboot hlong) ?_ ?_ h.agrees⟩
  · have hslot : packets φ X = none := by
      unfold packets
      rw [hφ]
      rfl
    have hpackets : packets (Function.update φ X (.unsent b)) = packets φ := by
      rw [packets_update, show Phase.packet X (.unsent b) = packets φ X from hslot.symm,
        Function.update_eq_self]
    rw [hpackets]
    exact h.inFlight
  · rw [hφ]
    rintro ⟨⟩
  · rw [hφ]
    rintro _ ⟨⟩

theorem inv_serve {φ : ServerId → Phase} {st : Net} (h : InvAt file φ st) {X : ServerId}
    {b b' : Backend} {p : Packet} {rest : Multiset Packet} {data : Bytes}
    (hpc : st.backend X = .recvfrom b) (hnet : st.inFlight = p ::ₘ rest)
    (hdst : p.dst = .server X) (hpass : b.loopBody p.payload true = some (data, b')) :
    Inv file ⟨st.main, Function.update st.backend X (.sendto b' data p.tag.answer), rest⟩ := by
  obtain ⟨Y, hY, rfl⟩ := inFlight_take (h.inFlight.symm.trans hnet)
  simp only [packets] at hY
  have hphase : ∃ b k request, φ Y = .asked b k request ∧
      p = ⟨.main, .server Y, request, .request k⟩ := by
    cases hφ : φ Y with
    | asked b k request =>
      rw [hφ] at hY
      exact ⟨b, k, request, rfl, (Option.some.inj hY).symm⟩
    | booting | unsent _ | idle _ | serving _ _ _ =>
      rw [hφ] at hY
      cases hY
    | listSent _ _ | replied _ _ _ =>
      rw [hφ] at hY
      cases hY
      cases hdst
  obtain ⟨b₀, k, request, hφ, rfl⟩ := hphase
  cases hdst
  have hb : b₀ = b := by
    have := h.backend X
    rw [hpc, hφ] at this
    cases this
    rfl
  subst hb
  have hact : ∀ pass, Active file pass X (φ X) → Active file pass X (.serving b' k data) := by
    rw [hφ]
    rintro pass (hb | _ | _)
    obtain ⟨rfl, hreply⟩ := hb.loopBody hpass
    exact .serving hb hreply
  refine ⟨Function.update φ X (.serving b' k data), h.backend_move X (.serving b' k data), ?_,
    agrees_update ?_ ?_ hact h.agrees⟩
  · exact congrArg Slots.inFlight (packets_update φ X (.serving b' k data)).symm
  · rw [hφ]
    rintro ⟨⟩
  · rw [hφ]
    rintro ⟨⟩

theorem inv_answer {φ : ServerId → Phase} {st : Net} (h : InvAt file φ st) {X : ServerId}
    {b : Backend} {data : Bytes} {tag : Tag} (hpc : st.backend X = .sendto b data tag) :
    Inv file ⟨st.main, Function.update st.backend X (.recvfrom b),
      ⟨.server X, .main, data, tag⟩ ::ₘ st.inFlight⟩ := by
  have hphase : ∃ k, φ X = .serving b k data ∧ tag = .reply k := by
    have := h.backend X
    rw [hpc] at this
    cases hX : φ X <;> rw [hX] at this <;> cases this
    exact ⟨_, rfl, rfl⟩
  obtain ⟨k, hφ, rfl⟩ := hphase
  refine ⟨Function.update φ X (.replied b k data), h.backend_move X (.replied b k data),
    h.send (by rw [hφ]; rfl) rfl, agrees_update ?_ ?_ ?_ h.agrees⟩
  · rw [hφ]
    rintro ⟨⟩
  · rw [hφ]
    rintro ⟨⟩
  · rw [hφ]
    rintro pass (_ | ⟨hb, hreply⟩ | _)
    exact .replied hb hreply

theorem inv_getListA {φ : ServerId → Phase} {st : Net} (h : InvAt file φ st) {p : Packet}
    {rest : Multiset Packet} (listA : List Bytes) (hpc : st.main = .getListA)
    (hnet : st.inFlight = p ::ₘ rest) (hdst : p.dst = .main) :
    Inv file ⟨.getListB listA, st.backend, rest⟩ := by
  obtain ⟨X, b, hX, hbackend, hrest⟩ := h.consume hnet hdst
  have hstart : ∀ Y, Starting file Y (φ Y) := by
    have := h.agrees
    rwa [hpc] at this
  refine ⟨Function.update φ X (.idle b), hbackend, hrest, X, ?_, ?_⟩
  · have hXstart := hstart X
    obtain ⟨d, hφ, _⟩ | ⟨k, data, hφ, _⟩ := hX
    · rw [hφ] at hXstart
      rw [Function.update_self]
      cases hXstart with
      | listSent hboot _ => exact .idle ⟨d, hboot⟩
    · rw [hφ] at hXstart
      cases hXstart
  · rw [Function.update_of_ne X.other_ne]
    exact hstart X.other

theorem inv_getListB {φ : ServerId → Phase} {st : Net} (h : InvAt file φ st) {p : Packet}
    {rest : Multiset Packet} {listA : List Bytes} (s : MainServer)
    (hpc : st.main = .getListB listA) (hnet : st.inFlight = p ::ₘ rest) (hdst : p.dst = .main) :
    Inv file ⟨.head s 0, st.backend, rest⟩ := by
  obtain ⟨X, b, hX, hbackend, hrest⟩ := h.consume hnet hdst
  have hagrees := h.agrees
  rw [hpc] at hagrees
  obtain ⟨Y, hidle, hstart⟩ := hagrees
  refine ⟨Function.update φ X (.idle b), hbackend, hrest, ?_⟩
  intro Z
  obtain rfl | rfl := Y.eq_or_eq_other X
  · obtain ⟨d, hφ, _⟩ | ⟨k, data, hφ, _⟩ := hX <;> rw [hφ] at hidle <;> cases hidle
  · obtain rfl | rfl := Y.eq_or_eq_other Z
    · rw [Function.update_of_ne Z.other_ne.symm]
      exact hidle
    · rw [Function.update_self]
      obtain ⟨d, hφ, _⟩ | ⟨k, data, hφ, _⟩ := hX <;> rw [hφ] at hstart <;> cases hstart
      exact .idle ⟨d, ‹_›⟩

theorem inv_request {φ : ServerId → Phase} {st : Net} (h : InvAt file φ st) (pass : Pass)
    {X : ServerId} (hidle : Idle file X (φ X)) :
    ∃ ψ, (∀ Y, st.backend Y = (Function.update φ X ψ Y).pc) ∧
      ⟨.main, .server X, pass.request X, .request pass.k⟩ ::ₘ st.inFlight =
        Slots.inFlight (packets (Function.update φ X ψ)) ∧ Active file pass X ψ := by
  cases hφ : φ X with
  | idle b =>
    rw [hφ] at hidle
    obtain ⟨hb⟩ := hidle
    exact ⟨.asked b pass.k (pass.request X), h.backend_same (by rw [hφ]; rfl),
      h.send (by rw [hφ]; rfl) rfl, .asked hb⟩
  | booting | listSent _ _ | unsent _ | asked _ _ _ | serving _ _ _ | replied _ _ _ =>
    rw [hφ] at hidle
    cases hidle

theorem InvAt.consume_reply {φ : ServerId → Phase} {st : Net} (h : InvAt file φ st) {pass : Pass}
    {p : Packet} {rest : Multiset Packet} (hnet : st.inFlight = p ::ₘ rest) (hdst : p.dst = .main)
    (hφ : ∀ X, Idle file X (φ X) ∨ Active file pass X (φ X)) :
    ∃ X ψ, Answers file pass X p ∧ Active file pass X (φ X) ∧ Idle file X ψ ∧
      (∀ Y, st.backend Y = (Function.update φ X ψ Y).pc) ∧
      rest = Slots.inFlight (packets (Function.update φ X ψ)) := by
  obtain ⟨X, b, hX, hbackend, hrest⟩ := h.consume hnet hdst
  have hphase := hφ X
  obtain ⟨d, hsent, _⟩ | ⟨k, data, hsent, rfl⟩ := hX
  · rw [hsent] at hphase
    rcases hphase with ⟨⟨⟩⟩ | ⟨⟨⟩⟩
  · have hactive : Active file pass X (φ X) := by
      rcases hphase with hidle | hactive
      · rw [hsent] at hidle
        cases hidle
      · exact hactive
    have hcopy := hactive
    rw [hsent] at hcopy
    cases hcopy with
    | replied hb hreply =>
      exact ⟨X, .idle b, ⟨b, data, hb, hreply, rfl⟩, hactive, .idle hb, hbackend, hrest⟩

theorem not_idle_of_active {X : ServerId} {pass : Pass} {ψ : Phase} (h : Active file pass X ψ) :
    ¬ Idle file X ψ := by
  rintro ⟨_⟩
  cases h

theorem inv_getResultA {φ : ServerId → Phase} {st : Net} (h : InvAt file φ st) {pass : Pass}
    {p : Packet} {rest : Multiset Packet} (hpc : st.main = .getResultA pass)
    (hnet : st.inFlight = p ::ₘ rest) (hdst : p.dst = .main) :
    Inv file ⟨.getResultB pass p, st.backend, rest⟩ := by
  have hactive : ∀ Y, Active file pass Y (φ Y) := by
    have := h.agrees
    rwa [hpc] at this
  obtain ⟨X, ψ, hreply, _, hidle, hbackend, hrest⟩ :=
    h.consume_reply hnet hdst fun Y => .inr (hactive Y)
  refine ⟨Function.update φ X ψ, hbackend, hrest, X, hreply, ?_, ?_⟩
  · rwa [Function.update_self]
  · rw [Function.update_of_ne X.other_ne]
    exact hactive X.other

theorem InvAt.second_reply {φ : ServerId → Phase} {st : Net} (h : InvAt file φ st) {pass : Pass}
    {p₁ p : Packet} {rest : Multiset Packet} (hpc : st.main = .getResultB pass p₁)
    (hnet : st.inFlight = p ::ₘ rest) (hdst : p.dst = .main) :
    ∃ X ψ, Answers file pass X p₁ ∧ Answers file pass X.other p ∧ Idle file X (φ X) ∧
      Idle file X.other ψ ∧
      (∀ Y, st.backend Y = (Function.update φ X.other ψ Y).pc) ∧
      rest = Slots.inFlight (packets (Function.update φ X.other ψ)) := by
  have hagrees := h.agrees
  rw [hpc] at hagrees
  obtain ⟨X, hfirst, hidle, hactive⟩ := hagrees
  have hphase : ∀ Y, Idle file Y (φ Y) ∨ Active file pass Y (φ Y) := by
    intro Y
    obtain rfl | rfl := X.eq_or_eq_other Y
    · exact .inl hidle
    · exact .inr hactive
  obtain ⟨Y, ψ, hreply, hYactive, hψ, hbackend, hrest⟩ := h.consume_reply hnet hdst hphase
  obtain rfl | rfl := X.eq_or_eq_other Y
  · exact absurd hidle (not_idle_of_active hYactive)
  · exact ⟨X, ψ, hfirst, hreply, hidle, hψ, hbackend, hrest⟩

theorem inv_step {st st' : Net} (h : Inv file st) (hstep : Step file st st') : Inv file st' := by
  obtain ⟨φ, h⟩ := h
  cases hstep with
  | boot hpc hboot hsent => exact inv_boot h hpc hboot hsent
  | bootUnsent hpc hboot hlong => exact inv_bootUnsent h hpc hboot hlong
  | serve hpc hnet hdst hpass => exact inv_serve h hpc hnet hdst hpass
  | answer hpc => exact inv_answer h hpc
  | getListA hpc hnet hdst _ => exact inv_getListA h _ hpc hnet hdst
  | getListB hpc hnet hdst _ => exact inv_getListB h _ hpc hnet hdst
  | noRequest hpc _ =>
    have hagrees := h.agrees
    rw [hpc] at hagrees
    exact ⟨φ, h.backend, h.inFlight, hagrees⟩
  | @requestA pass hpc =>
    have hidle : ∀ X, Idle file X (φ X) := by
      have := h.agrees
      rwa [hpc] at this
    obtain ⟨ψ, hbackend, hnet, hactive⟩ := inv_request h pass (hidle .A)
    refine ⟨Function.update φ .A ψ, hbackend, hnet, ?_, ?_⟩
    · rwa [Function.update_self]
    · rw [Function.update_of_ne (by decide)]
      exact hidle .B
  | @requestB pass hpc =>
    have hagrees := h.agrees
    rw [hpc] at hagrees
    obtain ⟨ψ, hbackend, hnet, hactive⟩ := inv_request h pass hagrees.2
    refine ⟨Function.update φ .B ψ, hbackend, hnet, ?_⟩
    intro X
    cases X with
    | A =>
      rw [Function.update_of_ne (by decide)]
      exact hagrees.1
    | B => rwa [Function.update_self]
  | getResultA hpc hnet hdst => exact inv_getResultA h hpc hnet hdst
  | getResultB hpc hnet hdst _ =>
    obtain ⟨X, ψ, _, _, hidle, hψ, hbackend, hrest⟩ := h.second_reply hpc hnet hdst
    refine ⟨Function.update φ X.other ψ, hbackend, hrest, ?_⟩
    intro Y
    obtain rfl | rfl := X.eq_or_eq_other Y
    · rw [Function.update_of_ne Y.other_ne.symm]
      exact hidle
    · rwa [Function.update_self]

theorem inv_reachable {st : Net} (h : Reachable file st) : Inv file st :=
  Machine.reachable_keeps (P := Inv file) (fun _ _ hs hstep => inv_step hs hstep) inv_init h

theorem InvAt.head_quiet {φ : ServerId → Phase} {st : Net} (h : InvAt file φ st) {s : MainServer}
    {k : Nat} (hpc : st.main = .head s k) :
    st.inFlight = 0 ∧ ∀ X, ∃ b, st.backend X = .recvfrom b := by
  have hidle : ∀ X, Idle file X (φ X) := by
    have := h.agrees
    rwa [hpc] at this
  constructor
  · rw [h.inFlight, inFlight_eq_zero]
    intro X
    have hX := hidle X
    unfold packets
    cases hφ : φ X <;> rw [hφ] at hX <;> cases hX
    rfl
  · intro X
    have hX := hidle X
    rw [h.backend X]
    cases hφ : φ X <;> rw [hφ] at hX <;> cases hX
    exact ⟨_, rfl⟩

end

/-- Round matching: at the loop head nothing is in flight and both backends wait; a datagram that
`getResult` can consume in a round is the reply of one backend to the request of that round, and
the second one is the reply of the other backend. -/
theorem round_matching (file : ServerId → Bytes) (st : Net) (h : Reachable file st) :
    (∀ s k, st.main = .head s k →
      st.inFlight = 0 ∧ ∀ X, ∃ b, st.backend X = .recvfrom b) ∧
    (∀ pass p, st.main = .getResultA pass → p ∈ st.inFlight → p.dst = .main →
      ∃ X, Answers file pass X p) ∧
    (∀ pass p₁ p₂, st.main = .getResultB pass p₁ → p₂ ∈ st.inFlight → p₂.dst = .main →
      ∃ X, Answers file pass X p₁ ∧ Answers file pass X.other p₂) := by
  obtain ⟨φ, hinv⟩ := inv_reachable h
  refine ⟨fun s k hpc => hinv.head_quiet hpc, ?_, ?_⟩
  · intro pass p hpc hp hdst
    obtain ⟨rest, hnet⟩ := Multiset.exists_cons_of_mem hp
    have hactive : ∀ X, Active file pass X (φ X) := by
      have := hinv.agrees
      rwa [hpc] at this
    obtain ⟨X, _, hreply, _⟩ := hinv.consume_reply hnet hdst fun X => .inr (hactive X)
    exact ⟨X, hreply⟩
  · intro pass p₁ p₂ hpc hp hdst
    obtain ⟨rest, hnet⟩ := Multiset.exists_cons_of_mem hp
    obtain ⟨X, _, hfirst, hsecond, _⟩ := hinv.second_reply hpc hnet hdst
    exact ⟨X, hfirst, hsecond⟩

def sampleFiles : ServerId → Bytes
  | .A => sampleFileA
  | .B => sampleFileB

def sampleBackend : ServerId → Backend
  | .A => ⟨[sampleUserA], [], []⟩
  | .B => ⟨[sampleUserB], [], []⟩

/-- The pass for the request `a b`. -/
def samplePass : Pass where
  k := 0
  server := MainServer.booted [[97]] [[98]]
  received := [97, 32, 98, 32]
  list := [[97], [98]]
  noExistMsg := List.replicate 1024 0
  request
    | .A => [97, 32]
    | .B => [98, 32]
  waiting := ⟨[[97]], [[98]], [[97]], [[98]], []⟩
  received_eq := by decide +kernel
  list_ne_nil := by decide
  served := by decide +kernel

/-- The replies to the requests of `samplePass`. -/
def sampleReply : ServerId → Packet
  | .A => ⟨.server .A, .main, serialize [⟨5, 9⟩], .reply 0⟩
  | .B => ⟨.server .B, .main, serialize [⟨7, 12⟩], .reply 0⟩

/-- Boot-up and the round of `samplePass` up to its first reply, which is that of server B. -/
theorem reachable_sample : ∃ backend, Reachable sampleFiles
    ⟨.getResultB samplePass (sampleReply .B), backend, {sampleReply .A}⟩ := by
  have hlistA : getList [97, 32] = some [[97]] := by decide +kernel
  have hlistB : getList [98, 32] = some [[98]] := by decide +kernel
  have hserveA : (sampleBackend .A).loopBody [97, 32] true =
      some (serialize [⟨5, 9⟩], sampleBackend .A) := by decide +kernel
  have hserveB : (sampleBackend .B).loopBody [98, 32] true =
      some (serialize [⟨7, 12⟩], sampleBackend .B) := by decide +kernel
  have h₁ : Reachable sampleFiles _ := .single (.boot (X := .A) rfl bootUp_sampleFiles.1 rfl)
  have h₂ := h₁.tail (@Step.getListA _ _ ⟨.server .A, .main, [97, 32], .boot⟩ 0 _ rfl rfl rfl
    hlistA)
  have h₃ := h₂.tail (.boot (X := .B) rfl bootUp_sampleFiles.2 rfl)
  have h₄ := h₃.tail (@Step.getListB _ _ ⟨.server .B, .main, [98, 32], .boot⟩ 0 _ _ rfl rfl rfl
    hlistB)
  have h₅ := h₄.tail (@Step.requestA _ _ samplePass rfl)
  have h₆ := h₅.tail (@Step.serve _ _ .A _ _ ⟨.main, .server .A, [97, 32], .request 0⟩ 0 _ rfl rfl
    rfl hserveA)
  have h₇ := h₆.tail (.answer (X := .A) rfl)
  have h₈ := h₇.tail (.requestB rfl)
  have h₉ := h₈.tail (@Step.serve _ _ .B _ _ ⟨.main, .server .B, [98, 32], .request 0⟩
    {sampleReply .A} _ rfl rfl rfl hserveB)
  have h₁₀ := h₉.tail (.answer (X := .B) rfl)
  exact ⟨_, h₁₀.tail (@Step.getResultA _ _ _ (sampleReply .B) {sampleReply .A} rfl rfl rfl)⟩

theorem round_matching_sample :
    ∃ X, Answers sampleFiles samplePass X (sampleReply .B) ∧
      Answers sampleFiles samplePass X.other (sampleReply .A) := by
  obtain ⟨backend, h⟩ := reachable_sample
  exact (round_matching sampleFiles _ h).2.2 _ _ _ rfl (Multiset.mem_singleton_self _) rfl

end StreamBridge
