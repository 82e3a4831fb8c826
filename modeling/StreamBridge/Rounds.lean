import StreamBridge.Lib.Machine
import StreamBridge.Schedule
import StreamBridge.ServerLoop

/-!
# StreamBridge.Rounds

Runs of the main server's loop, one pass after the other. The names of a request are kept in
globals; a pass clears them at its end, but the `continue` after two empty results skips that.

* `Leaks`: a pass with a known name in its request and no interval in either reply.
* `loopBody_leaks`: such a pass leaves names for the next one, and no other pass does.
* `requests_do_not_leak`: in every run the loop begins each pass with empty lists exactly when no
  earlier pass leaks, and then each pass sends what a freshly booted server would send.
-/

namespace StreamBridge

open CString Intervals

namespace MainServer

/-- What one pass reads from outside: the bytes of `recv`, and the two reply datagrams in order
of arrival. -/
structure Input where
  received : Bytes
  reply₁ : Bytes
  reply₂ : Bytes

def step (s : MainServer) (i : Input) : Option (Option Round × MainServer) :=
  s.loopBody i.received i.reply₁ i.reply₂

/-- The state after `boot_up`. -/
def booted (listA listB : List Bytes) : MainServer := ⟨listA, listB, [], [], []⟩

/-- A request with a known name, answered by two replies without an interval. -/
def Leaks (listA listB : List Bytes) (i : Input) : Prop :=
  getResult i.reply₁ = [] ∧ getResult i.reply₂ = [] ∧
    ∃ names, recvList i.received = some names ∧ ∃ name ∈ names, name ∈ listA ∨ name ∈ listB

/-- Nothing is left of earlier requests. -/
structure Clean (s : MainServer) : Prop where
  requestA : s.requestA = []
  requestB : s.requestB = []
  noExist : s.noExist = []

/-- At the end of a pass: the lists of the tables are kept and no request is left. -/
structure Idle (listA listB : List Bytes) (s : MainServer) : Prop where
  serverA : s.serverA = listA
  serverB : s.serverB = listB
  requestA : s.requestA = []
  requestB : s.requestB = []

theorem idle_booted (listA listB : List Bytes) : Idle listA listB (booted listA listB) :=
  ⟨rfl, rfl, rfl, rfl⟩

theorem clean_loopHead {s : MainServer} :
    s.loopHead.Clean ↔ s.requestA = [] ∧ s.requestB = [] :=
  ⟨fun h => ⟨h.requestA, h.requestB⟩, fun h => ⟨h.1, h.2, rfl⟩⟩

theorem Idle.loopHead_eq {listA listB : List Bytes} {s : MainServer} (h : Idle listA listB s) :
    s.loopHead = booted listA listB := by
  obtain ⟨serverA, serverB, requestA, requestB, noExist⟩ := s
  obtain ⟨rfl, rfl, rfl, rfl⟩ := h
  rfl

theorem step_loopHead (s : MainServer) (i : Input) : step s.loopHead i = step s i := rfl

theorem Idle.step_eq {listA listB : List Bytes} {s : MainServer} (h : Idle listA listB s)
    (i : Input) : step s i = step (booted listA listB) i := by
  rw [← step_loopHead, h.loopHead_eq]

theorem found_eq_nil (s : MainServer) (list : List Bytes) :
    s.foundA list = [] ∧ s.foundB list = [] ↔
      ∀ name ∈ list, ¬ (name ∈ s.serverA ∨ name ∈ s.serverB) := by
  unfold foundA foundB
  rw [List.filter_eq_nil_iff, List.filter_eq_nil_iff]
  constructor
  · rintro ⟨hA, hB⟩ name hn (h | h)
    · exact hA name hn (decide_eq_true h)
    · exact hB name hn (decide_eq_true ⟨fun h' => hA name hn (decide_eq_true h'), h⟩)
  · intro h
    exact ⟨fun name hn hA => h name hn (.inl (of_decide_eq_true hA)),
      fun name hn hB => h name hn (.inr (of_decide_eq_true hB).2)⟩

/-- A pass from an idle server keeps the lists of the tables, and leaves names exactly when it
leaks. -/
theorem loopBody_leaks {listA listB : List Bytes} {s s' : MainServer} {i : Input}
    {o : Option Round} (h : Idle listA listB s) (hstep : step s i = some (o, s')) :
    s'.serverA = listA ∧ s'.serverB = listB ∧
      (s'.requestA = [] ∧ s'.requestB = [] ↔ ¬ Leaks listA listB i) := by
  rw [h.step_eq] at hstep
  obtain ⟨list, hlist, ⟨rfl, _, rfl⟩ | ⟨_, r, _, _, rfl⟩⟩ := loopBody_some.mp hstep
  · refine ⟨rfl, rfl, iff_of_true ⟨rfl, rfl⟩ ?_⟩
    rintro ⟨_, _, names, hnames, name, hname, _⟩
    rw [hlist, Option.some.injEq] at hnames
    subst hnames
    cases hname
  · obtain ⟨hA, hB, hrA, hrB⟩ := asked_fields (booted listA listB).loopHead list
    obtain ⟨hA', hB', hrA', hrB'⟩ := endRound_requests ((booted listA listB).loopHead.asked list)
      (getResult i.reply₁) (getResult i.reply₂)
    refine ⟨hA'.trans hA, hB'.trans hB, ?_⟩
    rw [hrA', hrB', hrA, hrB]
    by_cases hempty : getResult i.reply₁ = [] ∧ getResult i.reply₂ = []
    · -- the `continue`: what was found is still in the lists
      rw [if_pos hempty, if_pos hempty]
      have hfound := found_eq_nil (booted listA listB) list
      constructor
      · rintro hnil ⟨_, _, names, hnames, name, hname, hmem⟩
        rw [hlist, Option.some.injEq] at hnames
        subst hnames
        exact hfound.mp hnil name hname hmem
      · intro hleak
        exact hfound.mpr fun name hname hmem =>
          hleak ⟨hempty.1, hempty.2, list, hlist, name, hname, hmem⟩
    · rw [if_neg hempty, if_neg hempty]
      exact iff_of_true ⟨rfl, rfl⟩ fun hleak => hempty ⟨hleak.1, hleak.2.1⟩

theorem idle_step {listA listB : List Bytes} {s s' : MainServer} {i : Input} {o : Option Round}
    (h : Idle listA listB s) (hi : ¬ Leaks listA listB i) (hstep : step s i = some (o, s')) :
    Idle listA listB s' := by
  obtain ⟨hA, hB, hclean⟩ := loopBody_leaks h hstep
  obtain ⟨hrA, hrB⟩ := hclean.mpr hi
  exact ⟨hA, hB, hrA, hrB⟩

theorem idle_run {listA listB : List Bytes} {inputs : List Input} {os : List (Option Round)}
    {t : MainServer} (h : ∀ i ∈ inputs, ¬ Leaks listA listB i)
    (hrun : Machine.run step (booted listA listB) inputs = some (os, t)) : Idle listA listB t :=
  Machine.run_keeps (P := Idle listA listB) (C := fun i => ¬ Leaks listA listB i)
    (fun _ _ _ _ hs hi hstep => idle_step hs hi hstep) (idle_booted listA listB) h hrun

/-- The loop begins each pass of a run from boot, and the pass after it, with clean lists. -/
def BeginsClean (listA listB : List Bytes) (inputs : List Input) : Prop :=
  ∀ done rest os s, inputs = done ++ rest →
    Machine.run step (booted listA listB) done = some (os, s) → s.loopHead.Clean

theorem beginsClean_iff {listA listB : List Bytes} {inputs : List Input} {os : List (Option Round)}
    {t : MainServer} (hrun : Machine.run step (booted listA listB) inputs = some (os, t)) :
    BeginsClean listA listB inputs ↔ ∀ i ∈ inputs, ¬ Leaks listA listB i := by
  constructor
  · intro hclean
    have idle : ∀ done rest, inputs = done ++ rest → ∀ i ∈ done, ¬ Leaks listA listB i := by
      intro done
      induction done using List.reverseRecOn with
      | nil => simp
      | append_singleton done i ih =>
        intro rest hsplit
        have hdone := ih (i :: rest) (by simp [hsplit])
        rw [hsplit] at hrun
        obtain ⟨os₁, s, _, h1, _⟩ := Machine.run_append hrun
        obtain ⟨os₂, s₀, os₃, h2, h3, _⟩ := Machine.run_append h1
        obtain ⟨o, s', _, h4, h5, _⟩ := Machine.run_cons h3
        cases h5
        have hnext := clean_loopHead.mp (hclean _ rest os₁ s hsplit h1)
        have hi := (loopBody_leaks (idle_run hdone h2) h4).2.2.mp hnext
        intro j hj
        rcases List.mem_append.mp hj with hj | hj
        · exact hdone j hj
        · rw [List.mem_singleton.mp hj]
          exact hi
    exact idle inputs [] (by simp)
  · intro h done rest os' s hsplit hdone
    have hs := idle_run (fun i hi => h i (by simp [hsplit, hi])) hdone
    exact clean_loopHead.mpr ⟨hs.requestA, hs.requestB⟩

/-- The replies of a pass are those of the backends to what the pass sent them; `first` is the
backend whose reply arrived first. -/
def Answered (tA tB : List User) (first : ServerId) (i : Input) (o : Option Round) : Prop :=
  ∀ r, o = some r →
    match first with
    | .A => Backend.reply tA r.toA = some i.reply₁ ∧ Backend.reply tB r.toB = some i.reply₂
    | .B => Backend.reply tB r.toB = some i.reply₁ ∧ Backend.reply tA r.toA = some i.reply₂

/-- The two replies can be told apart only by their order of arrival: either it is the same in
both passes, or the tables hold sorted and disjoint lists, where it does not matter. -/
def OrderFree (tA tB : List User) (first first' : ServerId) : Prop :=
  first = first' ∨
    (∀ u ∈ tA, Separated (Backend.intervals u)) ∧ ∀ u ∈ tB, Separated (Backend.intervals u)

/-- An answered pass merges the replies of both backends, in the order of their arrival. -/
theorem Answered.final {tA tB : List User} {first : ServerId} {i : Input} {r : Round}
    (h : Answered tA tB first i (some r)) :
    ∃ replyA replyB, Backend.reply tA r.toA = some replyA ∧ Backend.reply tB r.toB = some replyB ∧
      resultFinal (getResult i.reply₁) (getResult i.reply₂) =
        if first = .A then resultFinal (getResult replyA) (getResult replyB)
        else resultFinal (getResult replyB) (getResult replyA) := by
  have hreplies := h r rfl
  cases first with
  | A => exact ⟨_, _, hreplies.1, hreplies.2, rfl⟩
  | B => exact ⟨_, _, hreplies.2, hreplies.1, rfl⟩

theorem resultFinal_answered {tA tB : List User} {first first' : ServerId} {i i' : Input}
    {r r' : Round} (hord : OrderFree tA tB first first') (htoA : r.toA = r'.toA)
    (htoB : r.toB = r'.toB) (ha : Answered tA tB first i (some r))
    (ha' : Answered tA tB first' i' (some r')) :
    resultFinal (getResult i.reply₁) (getResult i.reply₂) =
      resultFinal (getResult i'.reply₁) (getResult i'.reply₂) := by
  obtain ⟨replyA, replyB, hA, hB, hfinal⟩ := ha.final
  obtain ⟨replyA', replyB', hA', hB', hfinal'⟩ := ha'.final
  obtain rfl : replyA = replyA' := Option.some.inj (hA.symm.trans (htoA ▸ hA'))
  obtain rfl : replyB = replyB' := Option.some.inj (hB.symm.trans (htoB ▸ hB'))
  rw [hfinal, hfinal']
  rcases hord with rfl | ⟨hsepA, hsepB⟩
  · rfl
  · -- the order of arrival does not matter to the merge
    have hcomm := resultFinal_comm (separated_getResult_reply hsepA hA)
      (separated_getResult_reply hsepB hB)
    rw [hcomm, ite_self, ite_self]

theorem answered_unique {listA listB : List Bytes} {tA tB : List User} {first first' : ServerId}
    {i i' : Input} {o o' : Option Round} {s s' : MainServer}
    (hord : OrderFree tA tB first first') (hreq : i.received = i'.received)
    (h : step (booted listA listB) i = some (o, s))
    (h' : step (booted listA listB) i' = some (o', s')) (ha : Answered tA tB first i o)
    (ha' : Answered tA tB first' i' o') : o = o' := by
  obtain ⟨list, hlist, hr⟩ := loopBody_some.mp h
  obtain ⟨list', hlist', hr'⟩ := loopBody_some.mp h'
  rw [hreq, hlist', Option.some.injEq] at hlist
  subst hlist
  obtain ⟨rfl, rfl, _⟩ | ⟨hne, r, rfl, hserved, _⟩ := hr
  · obtain ⟨_, rfl, _⟩ | ⟨hne, _⟩ := hr'
    · rfl
    · exact absurd rfl hne
  · obtain ⟨hnil, _⟩ | ⟨_, r', rfl, hserved', _⟩ := hr'
    · exact absurd hnil hne
    · obtain ⟨hmsg, hA, hB, hfinal, hres⟩ := hserved
      obtain ⟨hmsg', hA', hB', hfinal', hres'⟩ := hserved'
      have htoA : r.toA = r'.toA := hA.trans hA'.symm
      have htoB : r.toB = r'.toB := hB.trans hB'.symm
      have hmsgs : r.noExistMsg = r'.noExistMsg := Option.some.inj (hmsg.symm.trans hmsg')
      have hfinals : r.final = r'.final :=
        hfinal.trans ((resultFinal_answered hord htoA htoB ha ha').trans hfinal'.symm)
      have hresults : r.resultMsg = r'.resultMsg := by
        rw [hfinals] at hres
        exact Option.some.inj (hres.symm.trans hres')
      obtain ⟨_, _, _, _, _⟩ := r
      obtain ⟨_, _, _, _, _⟩ := r'
      simp_all

theorem outputs_fresh {listA listB : List Bytes} {inputs : List Input} {os : List (Option Round)}
    {t : MainServer} (h : ∀ i ∈ inputs, ¬ Leaks listA listB i)
    (hrun : Machine.run step (booted listA listB) inputs = some (os, t)) :
    List.Forall₂ (fun i o => ∃ s, step (booted listA listB) i = some (o, s)) inputs os := by
  refine Machine.run_outputs (P := Idle listA listB) (C := fun i => ¬ Leaks listA listB i)
    (fun s i o s' hs hi hstep => ⟨idle_step hs hi hstep, s', ?_⟩) (idle_booted listA listB) h hrun
  rw [← hs.step_eq, hstep]

/-- Requests do not leak into one another exactly in the runs without a leaking pass; there each
pass sends what a freshly booted server sends, and two passes with the same request, answered from
the same tables, send the same. -/
theorem requests_do_not_leak (listA listB : List Bytes) (inputs : List Input)
    (os : List (Option Round)) (t : MainServer)
    (hrun : Machine.run step (booted listA listB) inputs = some (os, t)) :
    (BeginsClean listA listB inputs ↔ ∀ i ∈ inputs, ¬ Leaks listA listB i) ∧
      ((∀ i ∈ inputs, ¬ Leaks listA listB i) →
        List.Forall₂ (fun i o => ∃ s, step (booted listA listB) i = some (o, s)) inputs os ∧
        ∀ (tA tB : List User) (first first' : ServerId) (i i' : Input) (o o' : Option Round),
          OrderFree tA tB first first' → (i, o) ∈ inputs.zip os → (i', o') ∈ inputs.zip os →
          i.received = i'.received → Answered tA tB first i o → Answered tA tB first' i' o' →
          o = o') := by
  refine ⟨beginsClean_iff hrun, fun h => ⟨outputs_fresh h hrun, ?_⟩⟩
  intro tA tB first first' i i' o o' hord hi hi' hreq ha ha'
  obtain ⟨s, hs⟩ := List.forall₂_zip (outputs_fresh h hrun) hi
  obtain ⟨s', hs'⟩ := List.forall₂_zip (outputs_fresh h hrun) hi'
  exact answered_unique hord hreq hs hs' ha ha'

theorem requests_do_not_leak_twice :
    BeginsClean [[97]] []
      [⟨[97, 32], serialize [⟨1, 2⟩], []⟩, ⟨[97, 32], serialize [⟨1, 2⟩], []⟩] := by
  have hsome : (Machine.run step (booted [[97]] [])
      [⟨[97, 32], serialize [⟨1, 2⟩], []⟩, ⟨[97, 32], serialize [⟨1, 2⟩], []⟩]).isSome = true := by
    decide +kernel
  obtain ⟨⟨os, t⟩, hrun⟩ := Option.isSome_iff_exists.mp hsome
  have hres : getResult (serialize [⟨1, 2⟩]) ≠ [] := by decide +kernel
  refine (requests_do_not_leak [[97]] [] _ os t hrun).1.mpr fun i hi hleak => hres ?_
  have hreply : i.reply₁ = serialize [⟨1, 2⟩] := by
    rcases List.mem_cons.mp hi with rfl | hi
    · rfl
    · rw [List.mem_singleton.mp hi]
  rw [← hreply]
  exact hleak.1

/-- The user `a` of server A has no time at all: the request is still there at the next pass. -/
theorem request_leaks : ¬ ∀ listA listB inputs, BeginsClean listA listB inputs := by
  intro h
  have hleft : (Machine.run step (booted [[97]] []) [⟨[97, 32], [], []⟩]).map (·.2.requestA) =
      some [[97]] := by decide +kernel
  cases hrun : Machine.run step (booted [[97]] []) [⟨[97, 32], [], []⟩] with
  | none =>
    rw [hrun] at hleft
    cases hleft
  | some p =>
    have hclean := h [[97]] [] [⟨[97, 32], [], []⟩] [⟨[97, 32], [], []⟩] [] p.1 p.2 rfl hrun
    rw [hrun, Option.map_some, Option.some.injEq] at hleft
    rw [(clean_loopHead.mp hclean).1] at hleft
    cases hleft

end MainServer
end StreamBridge
