import StreamBridge.MainServer

/-!
# StreamBridge.ServerLoop

What one pass of the main server's loop can do, said once.

* `examineList_eq`: the three-way split of a request, appended to what the lists already hold.
* `serveRequest_eq`: the messages of the first half of a pass and the globals after it.
* `loopBody_some`: a pass that returns either received no names and sent nothing, or served a
  request and ended in `endRound`.
-/

namespace StreamBridge

open CString Intervals

namespace MainServer

/-- The names of a request that are routed to server A. -/
def foundA (s : MainServer) (list : List Bytes) : List Bytes := list.filter (· ∈ s.serverA)

/-- The names routed to server B: A is asked first. -/
def foundB (s : MainServer) (list : List Bytes) : List Bytes :=
  list.filter fun name => name ∉ s.serverA ∧ name ∈ s.serverB

def missing (s : MainServer) (list : List Bytes) : List Bytes :=
  list.filter fun name => name ∉ s.serverA ∧ name ∉ s.serverB

theorem examineName_eq (s : MainServer) (name : Bytes) :
    s.examineName name =
      { s with requestA := s.requestA ++ s.foundA [name],
               requestB := s.requestB ++ s.foundB [name],
               noExist := s.noExist ++ s.missing [name] } := by
  by_cases hA : name ∈ s.serverA
  · simp [examineName, checkIfdata, foundA, foundB, missing, hA]
  · by_cases hB : name ∈ s.serverB <;>
      simp [examineName, checkIfdata, foundA, foundB, missing, hA, hB]

theorem examineList_eq (s : MainServer) (list : List Bytes) :
    s.examineList list =
      { s with requestA := s.requestA ++ s.foundA list,
               requestB := s.requestB ++ s.foundB list,
               noExist := s.noExist ++ s.missing list } := by
  induction list generalizing s with
  | nil => simp [examineList, foundA, foundB, missing]
  | cons name list ih =>
    have hstep : s.examineList (name :: list) = (s.examineName name).examineList list := rfl
    have hsplit : ∀ p : Bytes → Bool, (name :: list).filter p = [name].filter p ++ list.filter p :=
      fun p => by rw [← List.filter_append]; rfl
    rw [hstep, ih, examineName_eq]
    simp only [foundA, foundB, missing, List.append_assoc, hsplit]

@[simp] theorem loopHead_requestA (s : MainServer) : s.loopHead.requestA = s.requestA := rfl
@[simp] theorem loopHead_requestB (s : MainServer) : s.loopHead.requestB = s.requestB := rfl
@[simp] theorem loopHead_noExist (s : MainServer) : s.loopHead.noExist = [] := rfl

/-- The globals after both calls of `requestEndServer`. -/
def asked (s : MainServer) (list : List Bytes) : MainServer :=
  (((s.examineList list).requestEndServer .A).2.requestEndServer .B).2

theorem requestEndServer_fields (s : MainServer) (id : ServerId) :
    (s.requestEndServer id).2.serverA = s.serverA ∧ (s.requestEndServer id).2.serverB = s.serverB ∧
      (s.requestEndServer id).2.requestA = s.requestA ∧
      (s.requestEndServer id).2.requestB = s.requestB := by
  unfold requestEndServer
  dsimp only
  split <;> exact ⟨rfl, rfl, rfl, rfl⟩

theorem asked_fields (s : MainServer) (list : List Bytes) :
    (s.asked list).serverA = s.serverA ∧ (s.asked list).serverB = s.serverB ∧
      (s.asked list).requestA = s.requestA ++ s.foundA list ∧
      (s.asked list).requestB = s.requestB ++ s.foundB list := by
  obtain ⟨hA, hB, hrA, hrB⟩ := requestEndServer_fields (s.examineList list) .A
  obtain ⟨hA', hB', hrA', hrB'⟩ :=
    requestEndServer_fields ((s.examineList list).requestEndServer .A).2 .B
  have hexam := examineList_eq s list
  refine ⟨hA'.trans (hA.trans ?_), hB'.trans (hB.trans ?_), hrA'.trans (hrA.trans ?_),
    hrB'.trans (hrB.trans ?_)⟩ <;> rw [hexam]

theorem serveRequest_eq (s : MainServer) (list : List Bytes) :
    s.serveRequest list =
      (replyClient (s.noExist ++ s.missing list)).map fun msg =>
        (msg, getNameStr (s.requestA ++ s.foundA list), getNameStr (s.requestB ++ s.foundB list),
          s.asked list) := by
  have hB : ((s.examineList list).requestEndServer .A).2.requestB =
      s.requestB ++ s.foundB list := by
    rw [(requestEndServer_fields _ .A).2.2.2, examineList_eq]
  have hmsg : replyClient (s.examineList list).noExist =
      replyClient (s.noExist ++ s.missing list) := by rw [examineList_eq]
  have hA : ((s.examineList list).requestEndServer .A).1 =
      getNameStr (s.requestA ++ s.foundA list) := by
    rw [examineList_eq]; rfl
  have hB' : (((s.examineList list).requestEndServer .A).2.requestEndServer .B).1 =
      getNameStr (s.requestB ++ s.foundB list) := by
    rw [← hB]; rfl
  unfold serveRequest
  dsimp only
  rw [hmsg]
  cases replyClient (s.noExist ++ s.missing list) with
  | none => rfl
  | some msg =>
    simp only [Option.bind_eq_bind, Option.bind_some, Option.map_some, hA, hB']
    rfl

/-- The names a pass received, and what it sent for them. -/
def Served (s : MainServer) (list : List Bytes) (result_1 result_2 : List TimeInterval)
    (r : Round) : Prop :=
  replyClient (s.missing list) = some r.noExistMsg ∧
    r.toA = getNameStr (s.requestA ++ s.foundA list) ∧
    r.toB = getNameStr (s.requestB ++ s.foundB list) ∧
    r.final = resultFinal result_1 result_2 ∧ replyResult r.final = some r.resultMsg

theorem loopBody_some {s s' : MainServer} {received reply₁ reply₂ : Bytes} {o : Option Round} :
    s.loopBody received reply₁ reply₂ = some (o, s') ↔
      ∃ list, recvList received = some list ∧
        ((list = [] ∧ o = none ∧ s' = s.loopHead) ∨
          (list ≠ [] ∧ ∃ r, o = some r ∧
            s.Served list (getResult reply₁) (getResult reply₂) r ∧
            s' = (s.loopHead.asked list).endRound (getResult reply₁) (getResult reply₂))) := by
  unfold loopBody
  cases hrecv : recvList received with
  | none => simp
  | some list =>
    have hmissing : s.loopHead.missing list = s.missing list := rfl
    have hfoundA : s.loopHead.foundA list = s.foundA list := rfl
    have hfoundB : s.loopHead.foundB list = s.foundB list := rfl
    by_cases hnil : list = []
    · subst hnil
      simp [eq_comm]
    · have hlen : list.length ≠ 0 := fun h => hnil (List.length_eq_zero_iff.mp h)
      simp only [Option.bind_eq_bind, Option.bind_some, if_neg hlen, serveRequest_eq,
        loopHead_noExist, loopHead_requestA, loopHead_requestB, List.nil_append, hmissing, hfoundA,
        hfoundB, Option.some.injEq, exists_eq_left', hnil, false_and, false_or, not_false_eq_true,
        true_and, ne_eq]
      cases hmsg : replyClient (s.missing list) with
      | none => simp [Served, hmsg]
      | some msg =>
        cases hres : replyResult (resultFinal (getResult reply₁) (getResult reply₂)) with
        | none =>
          simp only [Option.map_some, Option.bind_some, Option.bind_none, reduceCtorEq, false_iff,
            not_exists, not_and]
          rintro r _ ⟨_, _, _, hfinal, hmsg'⟩ _
          rw [hfinal, hres] at hmsg'
          cases hmsg'
        | some resultMsg =>
          simp only [Option.map_some, Option.bind_some, Option.some.injEq, Prod.mk.injEq]
          constructor
          · rintro ⟨rfl, rfl⟩
            exact ⟨_, rfl, ⟨hmsg, rfl, rfl, rfl, hres⟩, rfl⟩
          · rintro ⟨r, rfl, ⟨h1, h2, h3, h4, h5⟩, rfl⟩
            rw [hmsg, Option.some.injEq] at h1
            rw [h4, hres, Option.some.injEq] at h5
            refine ⟨?_, rfl⟩
            rw [h1, ← h2, ← h3, ← h4, h5]

theorem endRound_requests (s : MainServer) (X Y : List TimeInterval) :
    (s.endRound X Y).serverA = s.serverA ∧ (s.endRound X Y).serverB = s.serverB ∧
      (s.endRound X Y).requestA = (if X = [] ∧ Y = [] then s.requestA else []) ∧
      (s.endRound X Y).requestB = (if X = [] ∧ Y = [] then s.requestB else []) := by
  cases X <;> cases Y <;> simp [endRound]

end MainServer
end StreamBridge
