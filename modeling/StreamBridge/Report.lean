import StreamBridge.Messages
import StreamBridge.ServerLoop

/-!
# StreamBridge.Report

What the client learns of the names nobody has. The request goes out in one message, the main
server's pass answers with the `no_exist` message, and the client subtracts that list from its
own.

* `loopBody_fits`: the pass on a request that fits its message.
* `getFinalUser_eq`: `getFinalUser` is `getNameStr` of the names left.
* `missing_users_reported`: both names lists the client ends with, whatever the main server still
  held of earlier requests and however much of the result has arrived behind.
-/

namespace StreamBridge

open CString Intervals

namespace MainServer

/-- What a pass sends the client: the `no_exist` message, and behind it the result. -/
def sentNoExist : Option Round → Bytes
  | none => []
  | some r => r.noExistMsg

def sentResult : Option Round → Bytes
  | none => []
  | some r => r.resultMsg

/-- A pass on a whole request message returns, and answers with the missing names. For the empty
request it sends nothing. -/
theorem loopBody_fits (s : MainServer) {request : List Bytes} (h : Fits request)
    (reply₁ reply₂ : Bytes) :
    ∃ o s', s.loopBody (nameMsg request) reply₁ reply₂ = some (o, s') ∧
      ((request = [] ∧ o = none) ∨
        (request ≠ [] ∧ ∃ r, o = some r ∧ r.noExistMsg = nameMsg (s.missing request))) := by
  have hrecv := (nameMsg_received h).1
  by_cases hne : request = []
  · exact ⟨none, s.loopHead, loopBody_some.mpr ⟨request, hrecv, .inl ⟨hne, rfl, rfl⟩⟩,
      .inl ⟨hne, rfl⟩⟩
  · have hmissing : replyClient (s.missing request) = some (nameMsg (s.missing request)) :=
      replyClient_eq (h.sublist List.filter_sublist)
    have hres : ∃ msg, replyResult (resultFinal (getResult reply₁) (getResult reply₂)) =
        some msg := by
      by_cases hnil : resultFinal (getResult reply₁) (getResult reply₂) = []
      · exact ⟨_, by rw [hnil, replyResult_nil]⟩
      · exact ⟨_, replyResult_of_ne_nil hnil⟩
    obtain ⟨resultMsg, hres⟩ := hres
    refine ⟨_, _, loopBody_some.mpr ⟨request, hrecv, .inr ⟨hne, ⟨_, _, _, _, resultMsg⟩, rfl,
      ⟨hmissing, rfl, rfl, rfl, hres⟩, rfl⟩⟩, .inr ⟨hne, _, rfl, rfl⟩⟩

end MainServer

namespace Client

theorem getFinalUser_eq (list nonlist : List Bytes) :
    getFinalUser list nonlist = getNameStr (list.filter (· ∉ nonlist)) := by
  have acc : ∀ (list : List Bytes) (result : Bytes),
      list.foldl (fun result a => if a ∈ nonlist then result else result ++ a ++ [space]) result =
        result ++ join space (list.filter (· ∉ nonlist)) := by
    intro list
    induction list with
    | nil => simp
    | cons a list ih =>
      intro result
      rw [List.foldl_cons, ih]
      by_cases ha : a ∈ nonlist <;> simp [ha]
  rw [getNameStr_eq_join]
  exact acc list []

theorem recvNoExist_behind {list : List Bytes} (h : Fits list) (behind : Bytes) :
    recvNoExist ((nameMsg list ++ behind).take 1024) = some list := by
  have hlen : 1024 = (nameMsg list).length := (length_nameMsg h).symm
  rw [hlen, List.take_left]
  exact (nameMsg_received h).2

end Client

open MainServer Client in
/-- Missing users are reported exactly: from drained streams, with each `recv` returning up to
1024 of the bytes pending, the client gets the requested names that neither server has, and
`getFinalUser` keeps the others. -/
theorem missing_users_reported (request : List Bytes) (hdistinct : request.Nodup)
    (hnames : ∀ name ∈ request, name ≠ [] ∧ ∀ c ∈ name, isLowerAlnum c = true)
    (hlen : (getNameStr request).length ≤ 1023) (s : MainServer) (reply₁ reply₂ : Bytes) :
    ∃ msg o s', sendList request = some msg ∧
      s.loopBody (msg.take 1024) reply₁ reply₂ = some (o, s') ∧
      ∀ behind, behind <+: sentResult o →
        ∃ nonlist, recvNoExist ((sentNoExist o ++ behind).take 1024) = some nonlist ∧
          nonlist = request.filter (fun name => name ∉ s.serverA ∧ name ∉ s.serverB) ∧
          nonlist.Nodup ∧
          getFinalUser request nonlist =
            getNameStr (request.filter fun name => name ∈ s.serverA ∨ name ∈ s.serverB) := by
  have hfits : Fits request :=
    ⟨fun name hn => isName_of_lowerAlnum (hnames name hn).1 (hnames name hn).2, hlen⟩
  have hmissing : Fits (s.missing request) := hfits.sublist List.filter_sublist
  obtain ⟨o, s', hpass, ho⟩ := s.loopBody_fits hfits reply₁ reply₂
  have hwhole : (nameMsg request).take 1024 = nameMsg request :=
    List.take_of_length_le (length_nameMsg hfits).le
  refine ⟨nameMsg request, o, s', sendList_eq hfits, by rw [hwhole, hpass], ?_⟩
  intro behind hbehind
  refine ⟨s.missing request, ?_, rfl, hdistinct.filter _, ?_⟩
  · obtain ⟨rfl, rfl⟩ | ⟨_, r, rfl, hmsg⟩ := ho
    · -- the empty request: nothing was sent, nothing is pending
      rw [List.prefix_nil.mp hbehind]
      rfl
    · simp only [sentNoExist, hmsg]
      exact recvNoExist_behind hmissing behind
  · rw [getFinalUser_eq]
    congr 1
    refine List.filter_congr ?_
    intro name hname
    by_cases hA : name ∈ s.serverA <;> by_cases hB : name ∈ s.serverB <;>
      simp [missing, hname, hA, hB]

theorem missing_users_reported_two :
    ∃ msg o s', Client.sendList [[97], [98]] = some msg ∧
      (⟨[[97]], [], [], [], []⟩ : MainServer).loopBody (msg.take 1024) [] [] = some (o, s') ∧
      ∃ nonlist, Client.recvNoExist ((MainServer.sentNoExist o).take 1024) = some nonlist ∧
        nonlist = [[98]] ∧ Client.getFinalUser [[97], [98]] nonlist = [97, 32] := by
  obtain ⟨msg, o, s', hsend, hpass, hrecv⟩ := missing_users_reported [[97], [98]] (by decide)
    (by simp [isLowerAlnum]) (by decide) ⟨[[97]], [], [], [], []⟩ [] []
  obtain ⟨nonlist, hnonlist, hlist, _, hfinal⟩ := hrecv [] List.nil_prefix
  rw [List.append_nil] at hnonlist
  exact ⟨msg, o, s', hsend, hpass, nonlist, hnonlist, hlist, hfinal⟩

end StreamBridge
