import Mathlib.Algebra.Order.BigOperators.Group.List
import StreamBridge.Client
import StreamBridge.Framing
import StreamBridge.Rounds

/-!
# StreamBridge.Buffers

The length of every name string that is copied into a 1024-byte buffer or scanned in one, over
runs of the client and the main server. The TCP stream to the main server may be cut anywhere.

* `getVector_some`: decoding and encoding again costs one byte at most, and none if the string has
  a space.
* `line_fits_iff`: a line overflows `send_buf` exactly when it fills `input_buf` with one word.
* `reachable_roomy`: what the invariant says of the stream and of the request lists.
* `name_messages_fit`: after any run without a leaking pass, every name string fits but for such
  lines.
-/

namespace StreamBridge

open CString Intervals

/-- The string fits with its NUL, and so does the encoding of the names decoded from it. -/
def Roomy (str : Bytes) : Prop := str.length ≤ 1023 ∧ (str.length = 1023 → space ∈ str)

theorem eraseNewlines_sublist (a : Bytes) : (eraseNewlines a).Sublist a := by
  unfold eraseNewlines
  split
  · exact List.Sublist.refl a
  · exact (List.rdropWhile_prefix _ a).sublist

theorem space_mem_getNameStr {list : List Bytes} (h : list ≠ []) : space ∈ getNameStr list := by
  obtain ⟨name, list, rfl⟩ := List.exists_cons_of_ne_nil h
  rw [getNameStr_eq_join, join_cons]
  simp

theorem getVector_some {str : Bytes} {list : List Bytes} (h0 : 0 ∉ str)
    (h : getVector str = some list) :
    list ≠ [] ∧ (∀ name ∈ list, 0 ∉ name) ∧
      (getNameStr list).length ≤ wordBytes space str + max 1 (countSpaces str) := by
  rw [← Backend.getVector_eq] at h
  simp only [Backend.getVector, Option.bind_eq_bind, Option.bind_eq_some_iff] at h
  obtain ⟨b, hcopy, ⟨a, rest⟩, hfirst, ⟨as, rest'⟩, htokens, h⟩ := h
  cases h
  dsimp only at htokens
  have hb : wordBytes space b = wordBytes space str := by
    rw [(strcpy_some hcopy).1, takeWhile_noNul h0]
    simp [wordBytes]
  have hword := wordBytes_strtok hfirst
  have hsum := tokens_bound htokens
  have hlen := length_tokens htokens
  have hshorter : ((as.map eraseNewlines).map List.length).sum ≤ (as.map List.length).sum := by
    rw [List.map_map]
    exact List.sum_le_sum fun t _ => (eraseNewlines_sublist t).length_le
  refine ⟨by simp, ?_, ?_⟩
  · intro name hname hzero
    rcases List.mem_cons.mp hname with rfl | hname
    · exact (strtok_some hfirst).1.noNul hzero
    · obtain ⟨t, ht, rfl⟩ := List.mem_map.mp hname
      exact (isWord_tokens htokens t ht).noNul ((eraseNewlines_sublist t).subset hzero)
  · rw [length_getNameStr]
    simp only [List.map_cons, List.sum_cons, List.length_cons, List.length_map]
    omega

theorem Roomy.getVector_le {str : Bytes} {list : List Bytes} (hroomy : Roomy str) (h0 : 0 ∉ str)
    (h : getVector str = some list) : (getNameStr list).length ≤ 1023 := by
  obtain ⟨_, _, hle⟩ := getVector_some h0 h
  have hsum : wordBytes space str + countSpaces str = str.length := wordBytes_add_count h0
  obtain ⟨hlen, hfull⟩ := hroomy
  by_cases hspace : space ∈ str
  · have hcount : 0 < countSpaces str := List.count_pos_iff.mpr hspace
    omega
  · have hshort : str.length ≠ 1023 := fun h => hspace (hfull h)
    omega

theorem getVector_full {str : Bytes} (h0 : 0 ∉ str) (hlen : str.length = 1023)
    (hspace : space ∉ str) : getVector str = some [str] ∧ (getNameStr [str]).length = 1024 := by
  have hne : str ≠ [] := fun h => by rw [h] at hlen; cases hlen
  have hword := strtok_word (d := space) ⟨hne, hspace, h0⟩ (.inr rfl) []
  have hcount : countSpaces str = 0 := List.count_eq_zero.mpr hspace
  constructor
  · simp only [getVector, strcpy_fits h0 (show str.length < 1024 by omega), hword, hcount,
      Option.bind_eq_bind, Option.bind_some, Nat.zero_le, if_true]
  · rw [length_getNameStr]
    simp [hlen]

/-! ## The client -/

namespace Client

/-- A line `fgets` can read into `input_buf[1024]`. -/
structure Line where
  bytes : Bytes
  nonempty : bytes ≠ []
  length_le : bytes.length ≤ 1023
  newline : newline ∉ bytes.dropLast

/-- The line is one word that fills the buffer. -/
def Line.Overlong (l : Line) : Prop :=
  l.bytes.length = 1023 ∧ ∀ c ∈ l.bytes, c ≠ 0 ∧ c ≠ space ∧ c ≠ StreamBridge.newline

theorem noNul_inputString (line : Bytes) : 0 ∉ inputString line := by
  intro h
  obtain ⟨c, hc, heq⟩ := List.mem_map.mp h
  split at heq
  · cases heq
  · exact noNul_takeWhile line (heq ▸ hc)

theorem length_inputString_le (line : Bytes) : (inputString line).length ≤ line.length := by
  rw [inputString, List.length_map]
  exact (List.takeWhile_prefix _).length_le

theorem Line.overlong_iff (l : Line) :
    l.Overlong ↔ (inputString l.bytes).length = 1023 ∧ space ∉ inputString l.bytes := by
  constructor
  · rintro ⟨hlen, hall⟩
    have hnul : l.bytes.takeWhile (· != 0) = l.bytes :=
      takeWhile_noNul fun h => (hall 0 h).1 rfl
    refine ⟨by rw [inputString, hnul, List.length_map, hlen], ?_⟩
    intro h
    rw [inputString, hnul] at h
    obtain ⟨c, hc, heq⟩ := List.mem_map.mp h
    rw [if_neg (hall c hc).2.2] at heq
    exact (hall c hc).2.1 heq
  · rintro ⟨hlen, hspace⟩
    rw [inputString, List.length_map] at hlen
    have hprefix := List.takeWhile_prefix (p := (· != 0)) (l := l.bytes)
    have hwhole : l.bytes.takeWhile (· != 0) = l.bytes := by
      refine hprefix.eq_of_length ?_
      have := l.length_le
      have := hprefix.length_le
      omega
    refine ⟨by rw [← hwhole, hlen], ?_⟩
    intro c hc
    refine ⟨?_, fun h => hspace ?_, fun h => hspace ?_⟩
    · intro h
      exact noNul_takeWhile l.bytes (by rw [hwhole]; exact h ▸ hc)
    · rw [inputString, hwhole]
      exact List.mem_map.mpr ⟨c, hc, by rw [h]; rfl⟩
    · rw [inputString, hwhole]
      exact List.mem_map.mpr ⟨c, hc, by rw [if_pos h]⟩

theorem eraseSpaces_sublist (str : Bytes) : (eraseSpaces str).Sublist str := by
  fun_induction eraseSpaces str with
  | case1 => exact .slnil
  | case2 a => exact .refl _
  | case3 a b str _ ih => exact .cons _ ih
  | case4 a b str _ ih => exact .cons_cons _ ih

theorem mem_eraseSpaces {c : Byte} {str : Bytes} : c ∈ eraseSpaces str ↔ c ∈ str := by
  refine ⟨fun h => (eraseSpaces_sublist str).subset h, ?_⟩
  intro h
  fun_induction eraseSpaces str with
  | case1 => exact h
  | case2 a => exact h
  | case3 a b str hab ih =>
    -- the space that goes is in the string that stays
    rcases List.mem_cons.mp h with h | h
    · exact ih (by rw [h, hab.1, hab.2]; exact List.mem_cons_self)
    · exact ih h
  | case4 a b str _ ih =>
    rcases List.mem_cons.mp h with h | h
    · exact List.mem_cons.mpr (.inl h)
    · exact List.mem_cons_of_mem a (ih h)

theorem eraseSpaces_of_noSpace {str : Bytes} (h : space ∉ str) : eraseSpaces str = str := by
  fun_induction eraseSpaces str with
  | case1 => rfl
  | case2 a => rfl
  | case3 a b str hab ih => exact absurd (by rw [hab.1]; exact List.mem_cons_self) h
  | case4 a b str _ ih => rw [ih fun hmem => h (List.mem_cons_of_mem a hmem)]

theorem checkInput_accepts {input_list list : List Bytes} {str : Bytes}
    (h : checkInput input_list str = some (true, list)) :
    getVector (eraseSpaces str) = some list := by
  unfold checkInput at h
  dsimp only at h
  split at h
  · cases h
  · split at h
    · cases h
    · cases hv : getVector (eraseSpaces str) with
      | none => simp [hv] at h
      | some list' =>
        simp only [hv, Option.bind_eq_bind, Option.bind_some] at h
        split at h
        · cases h
        · split at h <;> cases h
          rfl

theorem roomy_eraseSpaces {l : Line} (h : ¬ l.Overlong) :
    Roomy (eraseSpaces (inputString l.bytes)) := by
  have hsub := eraseSpaces_sublist (inputString l.bytes)
  have hle := length_inputString_le l.bytes
  have hline := l.length_le
  have hshorter := hsub.length_le
  refine ⟨by omega, fun hfull => mem_eraseSpaces.mpr ?_⟩
  by_contra hspace
  exact h (l.overlong_iff.mpr ⟨by omega, hspace⟩)

theorem line_fits_iff {l : Line} {input_list list : List Bytes}
    (h : checkInput input_list (inputString l.bytes) = some (true, list)) :
    ((eraseSpaces (inputString l.bytes)).length ≤ 1023 ∧ (getNameStr list).length ≤ 1023) ↔
      ¬ l.Overlong := by
  have hvector := checkInput_accepts h
  have hsub := eraseSpaces_sublist (inputString l.bytes)
  constructor
  · rintro ⟨_, hlist⟩ hover
    obtain ⟨hlen, hspace⟩ := l.overlong_iff.mp hover
    have hfull := getVector_full (noNul_inputString l.bytes) hlen hspace
    rw [eraseSpaces_of_noSpace hspace, hfull.1, Option.some.injEq] at hvector
    rw [← hvector, hfull.2] at hlist
    omega
  · intro hover
    have hroomy := roomy_eraseSpaces hover
    exact ⟨hroomy.1, hroomy.getVector_le (fun h0 => noNul_inputString _ (hsub.subset h0)) hvector⟩

end Client

/-! ## The main server -/

namespace MainServer

/-- The name strings of a pass that receives `received`: in `recv_buf` and `b` of `getVector`, in
`send_buf`, and the datagrams in `b` of the two backends. -/
def nameStrings (s : MainServer) (received : Bytes) : List Bytes :=
  let recv_buf := zeroFill 1024 received
  recv_buf.takeWhile (· != 0) ::
    match recvList received with
    | none => []
    | some list =>
      let s := s.loopHead.examineList list
      [getNameStr s.noExist, (getNameStr s.requestA).take 1024, (getNameStr s.requestB).take 1024]

theorem recvList_le {received : Bytes} {list : List Bytes}
    (hroomy : Roomy (received.takeWhile (· != 0))) (h : recvList received = some list) :
    (getNameStr list).length ≤ 1023 := by
  simp only [recvList, Option.bind_eq_bind, Option.bind_eq_some_iff] at h
  obtain ⟨str, hstr, h⟩ := h
  have hcopy : str = received.takeWhile (· != 0) := by
    simp only [cstr] at hstr
    split at hstr <;> cases hstr
    exact takeWhile_zeroFill 1024 received
  split at h
  · cases h
    decide
  · rw [hcopy] at h
    exact hroomy.getVector_le (noNul_takeWhile received) h

theorem nameStrings_le {listA listB : List Bytes} {s : MainServer} {received : Bytes}
    (hidle : Idle listA listB s) (hroomy : Roomy (received.takeWhile (· != 0))) :
    ∀ str ∈ s.nameStrings received, str.length ≤ 1023 := by
  unfold nameStrings
  dsimp only
  rw [takeWhile_zeroFill]
  refine List.forall_mem_cons.mpr ⟨hroomy.1, ?_⟩
  cases hlist : recvList received with
  | none => simp
  | some list =>
    have hle := recvList_le hroomy hlist
    have hpart : ∀ p : Bytes → Bool, (getNameStr (list.filter p)).length ≤ 1023 := fun p =>
      le_trans (length_getNameStr_sublist List.filter_sublist) hle
    rw [hidle.loopHead_eq]
    simp only [examineList_eq, booted, List.nil_append, List.forall_mem_cons, List.length_take]
    refine ⟨hpart _, le_trans (min_le_right _ _) (hpart _),
      le_trans (min_le_right _ _) (hpart _), by simp⟩

end MainServer

/-! ## Runs -/

/-- The client, the bytes on their way to the main server, and the main server. -/
structure System where
  inputList : List Bytes
  toServer : Bytes
  main : MainServer

/-- The client reads a line; or the main server makes a pass, for which `ready` bytes have arrived
and the replies are any bytes. The client is not made to wait for the answer to its last request. -/
inductive Event where
  | line (l : Client.Line)
  | serve (ready : Nat) (reply₁ reply₂ : Bytes)

def Event.Overlong : Event → Prop
  | .line l => l.Overlong
  | .serve _ _ _ => False

namespace System

def boot (listA listB : List Bytes) : System := ⟨[], [], MainServer.booted listA listB⟩

def step (st : System) : Event → Option System
  | .line l => do
    let (ok, input_list) ← Client.checkInput st.inputList (Client.inputString l.bytes)
    if ok then do
      let msg ← Client.sendList input_list
      some { st with inputList := input_list, toServer := st.toServer ++ msg }
    else some { st with inputList := input_list }
  | .serve ready reply₁ reply₂ => do
    let (received, toServer) := recv ready st.toServer
    let (_, main) ← st.main.loopBody received reply₁ reply₂
    some { st with toServer := toServer, main := main }

/-- The name strings an event copies or scans. -/
def nameStrings (st : System) : Event → List Bytes
  | .line l =>
    match Client.checkInput st.inputList (Client.inputString l.bytes) with
    | some (true, list) => [Client.eraseSpaces (Client.inputString l.bytes), getNameStr list]
    | _ => []
  | .serve ready _ _ => st.main.nameStrings (recv ready st.toServer).1

/-- A line that `checkInput` accepts. -/
def Accepts (st : System) : Event → Prop
  | .line l => ∃ list,
      Client.checkInput st.inputList (Client.inputString l.bytes) = some (true, list)
  | .serve _ _ _ => True

def Leaks (st : System) : Event → Prop
  | .line _ => False
  | .serve ready reply₁ reply₂ =>
    MainServer.Leaks st.main.serverA st.main.serverB ⟨(recv ready st.toServer).1, reply₁, reply₂⟩

def Next (st st' : System) : Prop := ∃ e, st.step e = some st'

/-- A step that leaves no names behind. -/
def QuietNext (st st' : System) : Prop := ∃ e, ¬ st.Leaks e ∧ st.step e = some st'

/-- Every string some part of the stream holds is roomy, and no request is left over. -/
structure RoomyAt (listA listB : List Bytes) (st : System) : Prop where
  idle : MainServer.Idle listA listB st.main
  roomy : Stretches Roomy st.toServer
  ends : EndsNul st.toServer

theorem roomy_nil : Roomy [] := ⟨by simp, by simp⟩

theorem roomyAt_boot (listA listB : List Bytes) : RoomyAt listA listB (boot listA listB) where
  idle := MainServer.idle_booted listA listB
  roomy m hm _ := by
    rw [List.infix_nil.mp hm]
    exact roomy_nil
  ends m hm hne := absurd (List.suffix_nil.mp hm) hne

theorem sendList_roomy {list : List Bytes} {msg : Bytes} (hne : list ≠ [])
    (h0 : ∀ name ∈ list, 0 ∉ name) (h : Client.sendList list = some msg) :
    Stretches Roomy msg ∧ EndsNul msg := by
  simp only [Client.sendList, Option.bind_eq_bind, Option.bind_eq_some_iff] at h
  obtain ⟨str, hcopy, hmsg⟩ := h
  obtain ⟨hstr, hlen⟩ := strcpy_some hcopy
  rw [takeWhile_noNul (noNul_getNameStr h0)] at hstr hlen
  rw [Option.some.injEq, hstr, zeroFill_snoc_zero hlen] at hmsg
  subst hmsg
  refine ⟨stretches_zeroFill roomy_nil ?_, endsNul_zeroFill hlen⟩
  intro m hm
  have hle := hm.length_le
  refine ⟨by omega, ?_⟩
  intro hfull
  rw [hm.eq_of_length (by omega)]
  exact space_mem_getNameStr hne

theorem roomyAt_step {listA listB : List Bytes} {st st' : System} (h : RoomyAt listA listB st)
    (hnext : QuietNext st st') : RoomyAt listA listB st' := by
  obtain ⟨e, hquiet, hstep⟩ := hnext
  cases e with
  | line l =>
    simp only [step, Option.bind_eq_bind, Option.bind_eq_some_iff] at hstep
    obtain ⟨⟨ok, list⟩, hcheck, hstep⟩ := hstep
    cases ok with
    | false =>
      cases hstep
      exact ⟨h.idle, h.roomy, h.ends⟩
    | true =>
      simp only [if_true, Option.bind_eq_some_iff] at hstep
      obtain ⟨msg, hmsg, hstep⟩ := hstep
      cases hstep
      have hnoNul : 0 ∉ Client.eraseSpaces (Client.inputString l.bytes) := fun h0 =>
        Client.noNul_inputString _ ((Client.eraseSpaces_sublist _).subset h0)
      obtain ⟨hne, hnames, _⟩ := getVector_some hnoNul (Client.checkInput_accepts hcheck)
      obtain ⟨hroomy, hends⟩ := sendList_roomy hne hnames hmsg
      exact ⟨h.idle, h.roomy.append h.ends hroomy, h.ends.append hends⟩
  | serve ready reply₁ reply₂ =>
    simp only [step, Option.bind_eq_bind, Option.bind_eq_some_iff] at hstep
    obtain ⟨⟨o, main⟩, hpass, hstep⟩ := hstep
    cases hstep
    have hrest : (recv ready st.toServer).2 <:+ st.toServer := List.drop_suffix _ _
    have hquiet' : ¬ MainServer.Leaks listA listB
        ⟨(recv ready st.toServer).1, reply₁, reply₂⟩ := by
      rw [← h.idle.serverA, ← h.idle.serverB]
      exact hquiet
    exact ⟨MainServer.idle_step h.idle hquiet' hpass, h.roomy.part hrest.isInfix,
      h.ends.part hrest⟩

theorem reachable_roomy {listA listB : List Bytes} {st : System}
    (h : Relation.ReflTransGen QuietNext (boot listA listB) st) : RoomyAt listA listB st :=
  Machine.reachable_keeps (P := RoomyAt listA listB) (fun _ _ hs hnext => roomyAt_step hs hnext)
    (roomyAt_boot listA listB) h

theorem RoomyAt.received {listA listB : List Bytes} {st : System} (h : RoomyAt listA listB st)
    (ready : Nat) : Roomy ((recv ready st.toServer).1.takeWhile (· != 0)) := by
  have hpart : (recv ready st.toServer).1 <+: st.toServer := List.take_prefix _ _
  exact h.roomy _ ((List.takeWhile_prefix _).isInfix.trans hpart.isInfix) (noNul_takeWhile _)

/-- Name messages fit their buffers: after every run without a leaking pass, each name string of
the next event has at most 1023 bytes, unless the event is an overlong line. -/
theorem name_messages_fit (listA listB : List Bytes) (st : System)
    (h : Relation.ReflTransGen QuietNext (boot listA listB) st) (e : Event)
    (haccepts : st.Accepts e) :
    (∀ str ∈ st.nameStrings e, str.length ≤ 1023) ↔ ¬ e.Overlong := by
  have hinv := reachable_roomy h
  cases e with
  | line l =>
    obtain ⟨list, hlist⟩ := haccepts
    have hnames : st.nameStrings (.line l) =
        [Client.eraseSpaces (Client.inputString l.bytes), getNameStr list] := by
      simp only [nameStrings, hlist]
    rw [hnames]
    simp only [List.forall_mem_cons, List.not_mem_nil, false_implies, implies_true, and_true]
    exact Client.line_fits_iff hlist
  | serve ready reply₁ reply₂ =>
    exact iff_of_true (MainServer.nameStrings_le hinv.idle (hinv.received ready)) fun h => h

/-- The line `a`. -/
def shortLine : Client.Line := ⟨[97, 10], by decide, by decide, by decide⟩

theorem name_messages_fit_short :
    ∃ st, (boot [[97]] []).step (.line shortLine) = some st ∧
      ∀ str ∈ st.nameStrings (.serve 1024 [] []), str.length ≤ 1023 := by
  have hsome : ((boot [[97]] []).step (.line shortLine)).isSome = true := by decide +kernel
  obtain ⟨st, hst⟩ := Option.isSome_iff_exists.mp hsome
  have hrun : Relation.ReflTransGen QuietNext (boot [[97]] []) st :=
    .single ⟨.line shortLine, fun h => h, hst⟩
  exact ⟨st, hst, (name_messages_fit [[97]] [] st hrun (.serve 1024 [] []) trivial).mpr fun h => h⟩

/-- 1023 letters `a` and no newline. -/
def longLine : Client.Line where
  bytes := List.replicate 1023 97
  nonempty h := absurd (congrArg List.length h) (by rw [List.length_replicate]; decide)
  length_le := (List.length_replicate).le
  newline h := by
    have := List.eq_of_mem_replicate ((List.dropLast_sublist _).subset h)
    cases this

/-- The encoding of the only name of that line needs 1025 bytes with its NUL. -/
theorem name_message_overflows :
    ¬ ∀ listA listB st, Relation.ReflTransGen Next (boot listA listB) st → ∀ e, st.Accepts e →
      ∀ str ∈ st.nameStrings e, str.length ≤ 1023 := by
  intro h
  have hcheck : Client.checkInput [] (Client.inputString longLine.bytes) =
      some (true, [List.replicate 1023 97]) := by decide +kernel
  have hfits := h [] [] (boot [] []) .refl (.line longLine) ⟨_, hcheck⟩
  have hnames : (boot [] []).nameStrings (.line longLine) =
      [Client.eraseSpaces (Client.inputString longLine.bytes),
        getNameStr [List.replicate 1023 97]] := by
    simp only [nameStrings, boot, hcheck]
  have hother : ∀ c : Byte, c ≠ 97 → c ∉ List.replicate 1023 97 := fun c hc h =>
    hc (List.eq_of_mem_replicate h)
  have hlong := (getVector_full (hother 0 (by decide)) List.length_replicate
    (hother space (by decide))).2
  rw [hnames] at hfits
  have hle := hfits _ (List.mem_cons_of_mem _ (List.mem_singleton_self _))
  rw [hlong] at hle
  omega

end System
end StreamBridge
