import Mathlib.Data.List.DropRight
import StreamBridge.Types

/-!
# StreamBridge.Names

The name list on the wire: each name followed by one space. All four programs carry the same
`getNameStr` and `countSpaces`; there are three decoders.

* `getVector` (`client.h`, `serverM.h`), which returns early when there is at most one space.
* `Backend.getVector` (`serverA.h`, `serverB.h`), which does not.
* `getList` (`serverM.h`), which reads the boot-up datagram and keeps newlines.

Each decoder takes as many tokens as it counted spaces, so a `none` is a token that was missing:
`strtok` returned NULL and the assignment to a `std::string` is undefined, as is a `strcpy` that
does not fit `b[1024]`. The two `getVector` are the same function (`Backend.getVector_eq`). On what
`getNameStr` writes, all three decoders give the names back as long as their buffers hold it
(`name_codec`); `getList_cut` is about what the boot-up buffer does not hold.
-/

namespace StreamBridge

open CString

def space : Byte := 32
def newline : Byte := 10

theorem space_ne_zero : space ≠ 0 := by decide

def getNameStr (list : List Bytes) : Bytes :=
  list.foldl (fun name_str name => name_str ++ name ++ [space]) []

def countSpaces (str : Bytes) : Nat := str.count space

/-- `a.find_last_not_of('\n')` and `a.erase(pos + 1)`; a string of newlines only stays. -/
def eraseNewlines (a : Bytes) : Bytes :=
  if a.all (· == newline) then a else a.rdropWhile (· == newline)

/-- `getVector` of `client.h` and `serverM.h`. -/
def getVector (str : Bytes) : Option (List Bytes) := do
  let b ← strcpy 1024 str
  let (a, rest) ← strtok space b
  if countSpaces str ≤ 1 then some [a]
  else do
    let (as, _) ← tokens space (countSpaces str - 1) rest
    some (a :: as.map eraseNewlines)

/-- `getVector` of `serverA.h` and `serverB.h`. -/
def Backend.getVector (str : Bytes) : Option (List Bytes) := do
  let b ← strcpy 1024 str
  let (a, rest) ← strtok space b
  let (as, _) ← tokens space (countSpaces str - 1) rest
  some (a :: as.map eraseNewlines)

/-- `getList` of `serverM.h`: `recvfrom` keeps the first 1024 bytes of the datagram. -/
def getList (datagram : Bytes) : Option (List Bytes) :=
  let list_str := datagram.take 1024
  let recv_buf := zeroFill 1024 list_str
  if list_str.length > 0 then do
    let (a, rest) ← strtok space recv_buf
    let (as, _) ← tokens space (countSpaces list_str - 1) rest
    some (a :: as)
  else some []

/-- A name that survives every decoder. -/
structure IsName (name : Bytes) : Prop extends IsWord space name where
  noNewline : newline ∉ name

def isLowerAlnum (c : Byte) : Bool := (97 ≤ c && c ≤ 122) || (48 ≤ c && c ≤ 57)

theorem isName_of_lowerAlnum {name : Bytes} (hne : name ≠ [])
    (h : ∀ c ∈ name, isLowerAlnum c = true) : IsName name := by
  have notMem : ∀ c, isLowerAlnum c = false → c ∉ name := fun c hc hmem => by
    rw [h c hmem] at hc; cases hc
  exact { nonempty := hne, noDelim := notMem _ (by decide), noNul := notMem _ (by decide),
          noNewline := notMem _ (by decide) }

theorem isName_letter {c : Byte} (h : isLowerAlnum c = true) : IsName [c] :=
  isName_of_lowerAlnum (by simp) (by simpa using h)

theorem getNameStr_eq_join (list : List Bytes) : getNameStr list = join space list := by
  have acc : ∀ (list : List Bytes) (s : Bytes),
      list.foldl (fun name_str name => name_str ++ name ++ [space]) s = s ++ join space list := by
    intro list
    induction list with
    | nil => simp
    | cons name list ih =>
      intro s
      rw [List.foldl_cons, ih, join_cons]
      simp
  exact acc list []

@[simp] theorem getNameStr_nil : getNameStr [] = [] := rfl

theorem getNameStr_eq_nil {list : List Bytes} : getNameStr list = [] ↔ list = [] := by
  rw [getNameStr_eq_join]
  cases list <;> simp

theorem noNul_getNameStr {list : List Bytes} (h : ∀ name ∈ list, 0 ∉ name) :
    0 ∉ getNameStr list := by
  rw [getNameStr_eq_join]
  exact noNul_join space_ne_zero h

theorem length_getNameStr (list : List Bytes) :
    (getNameStr list).length = (list.map List.length).sum + list.length := by
  rw [getNameStr_eq_join, length_join]

theorem length_getNameStr_sublist {vs ws : List Bytes} (h : vs.Sublist ws) :
    (getNameStr vs).length ≤ (getNameStr ws).length := by
  rw [getNameStr_eq_join, getNameStr_eq_join]
  exact length_join_sublist h

theorem countSpaces_getNameStr {list : List Bytes} (h : ∀ name ∈ list, space ∉ name) :
    countSpaces (getNameStr list) = list.length := by
  rw [getNameStr_eq_join, countSpaces, count_join h]

theorem eraseNewlines_of_noNewline {a : Bytes} (h : newline ∉ a) : eraseNewlines a = a := by
  unfold eraseNewlines
  split
  · rfl
  · refine List.rdropWhile_eq_self_iff.mpr ?_
    intro hne
    have : a.getLast hne ≠ newline := fun e => h (e ▸ List.getLast_mem hne)
    simpa using this

theorem map_eraseNewlines {list : List Bytes} (h : ∀ name ∈ list, newline ∉ name) :
    list.map eraseNewlines = list := by
  rw [List.map_congr_left fun name hname => eraseNewlines_of_noNewline (h name hname)]
  exact List.map_id' list

/-! ## Decoding what `getNameStr` wrote -/

theorem strcpy_getNameStr {list : List Bytes} (h : ∀ name ∈ list, 0 ∉ name)
    (hlen : (getNameStr list).length ≤ 1023) :
    strcpy 1024 (getNameStr list) = some (join space list ++ [0]) := by
  rw [strcpy_fits (noNul_getNameStr h) (by omega), getNameStr_eq_join]

theorem tokens_getNameStr {name : Bytes} {list : List Bytes}
    (h : ∀ n ∈ name :: list, IsWord space n) (r : Bytes) :
    strtok space (join space (name :: list) ++ r) = some (name, join space list ++ r) ∧
      tokens space (countSpaces (getNameStr (name :: list)) - 1) (join space list ++ r) =
        some (list, r) := by
  have hw := strtok_word (h name (by simp)) (.inl rfl) (join space list ++ r)
  rw [if_neg space_ne_zero] at hw
  refine ⟨by simpa using hw, ?_⟩
  rw [countSpaces_getNameStr fun n hn => (h n hn).noDelim, List.length_cons, Nat.add_sub_cancel]
  exact tokens_join space_ne_zero (fun n hn => h n (by simp [hn])) r

theorem Backend.getVector_getNameStr {list : List Bytes} (hne : list ≠ [])
    (h : ∀ name ∈ list, IsName name) (hlen : (getNameStr list).length ≤ 1023) :
    Backend.getVector (getNameStr list) = some list := by
  obtain ⟨name, list, rfl⟩ := List.exists_cons_of_ne_nil hne
  obtain ⟨hfirst, hrest⟩ := tokens_getNameStr (fun n hn => (h n hn).toIsWord) [0]
  rw [Backend.getVector, strcpy_getNameStr (fun n hn => (h n hn).noNul) hlen]
  simp only [Option.bind_eq_bind, Option.bind_some, hfirst, hrest,
    map_eraseNewlines fun n hn => (h n (List.mem_cons_of_mem name hn)).noNewline]

/-- The early return leaves out no token: with one space at most, none is asked for. -/
theorem Backend.getVector_eq (str : Bytes) :
    Backend.getVector str = StreamBridge.getVector str := by
  simp only [Backend.getVector, StreamBridge.getVector, Option.bind_eq_bind]
  cases strcpy 1024 str with
  | none => rfl
  | some b =>
    rw [Option.bind_some, Option.bind_some]
    cases strtok space b with
    | none => rfl
    | some p =>
      rw [Option.bind_some, Option.bind_some]
      split
      · have hzero : countSpaces str - 1 = 0 := by omega
        rw [hzero]
        rfl
      · rfl

theorem getVector_getNameStr {list : List Bytes} (hne : list ≠ [])
    (h : ∀ name ∈ list, IsName name) (hlen : (getNameStr list).length ≤ 1023) :
    getVector (getNameStr list) = some list := by
  rw [← Backend.getVector_eq, Backend.getVector_getNameStr hne h hlen]

theorem getList_getNameStr {list : List Bytes} (h : ∀ name ∈ list, IsWord space name)
    (hlen : (getNameStr list).length ≤ 1024) : getList (getNameStr list) = some list := by
  have htake : (getNameStr list).take 1024 = getNameStr list := List.take_of_length_le hlen
  simp only [getList, htake]
  cases list with
  | nil => rfl
  | cons name list =>
    have hpos : (getNameStr (name :: list)).length > 0 := by
      rw [getNameStr_eq_join, join_cons, List.length_append, List.length_cons]
      omega
    -- a datagram of 1024 bytes leaves no NUL in the buffer, but its last space ends the last name
    obtain ⟨hfirst, hrest⟩ := tokens_getNameStr h
      (List.replicate (1024 - (join space (name :: list)).length) 0)
    rw [getNameStr_eq_join] at hrest
    rw [if_pos hpos, getNameStr_eq_join, zeroFill]
    simp only [hfirst, hrest, Option.bind_eq_bind, Option.bind_some]

/-- A longer datagram is cut, and its last space with it. -/
theorem countSpaces_take {list : List Bytes} (h : ∀ name ∈ list, IsWord space name)
    (hlen : 1024 < (getNameStr list).length) :
    countSpaces ((getNameStr list).take 1024) < list.length := by
  have htotal := countSpaces_getNameStr fun name hn => (h name hn).noDelim
  have hsplit : countSpaces (getNameStr list) =
      countSpaces ((getNameStr list).take 1024) + countSpaces ((getNameStr list).drop 1024) := by
    rw [countSpaces, countSpaces, countSpaces, ← List.count_append, List.take_append_drop]
  have hcut : 0 < countSpaces ((getNameStr list).drop 1024) := by
    have hne : list ≠ [] := by
      rintro rfl
      cases hlen
    obtain ⟨names, last, rfl⟩ := (List.eq_nil_or_concat list).resolve_left hne
    have hend : getNameStr (names.concat last) = getNameStr names ++ last ++ [space] := by
      simp [getNameStr_eq_join, join]
    refine List.count_pos_iff.mpr ?_
    rw [hend] at hlen ⊢
    rw [List.drop_append_of_le_length (by simp at hlen ⊢; omega)]
    simp
  omega

theorem getList_cut {list : List Bytes} (h : ∀ name ∈ list, IsWord space name)
    (hlen : 1024 < (getNameStr list).length) : getList (getNameStr list) ≠ some list := by
  intro hlist
  have hcount := countSpaces_take h hlen
  have hbuf : ((getNameStr list).take 1024).length = 1024 := by
    rw [List.length_take]
    omega
  have hzero : zeroFill 1024 ((getNameStr list).take 1024) = (getNameStr list).take 1024 := by
    simp [zeroFill, hbuf]
  simp only [getList, hbuf, hzero, Nat.zero_lt_succ, gt_iff_lt, if_true, Option.bind_eq_bind,
    Option.bind_eq_some_iff] at hlist
  obtain ⟨⟨a, rest⟩, hfirst, ⟨as, rest'⟩, htokens, hres⟩ := hlist
  have htaken := length_tokens htokens
  rw [Option.some.injEq] at hres
  have hsize : list.length = as.length + 1 := by rw [← hres, List.length_cons]
  -- only a single name that fills the buffer could make the counts agree
  have hnone : countSpaces ((getNameStr list).take 1024) = 0 := by omega
  have h0 : 0 ∉ (getNameStr list).take 1024 := fun hmem =>
    noNul_getNameStr (fun name hn => (h name hn).noNul) (List.mem_of_mem_take hmem)
  rw [strtok_eq_none (List.count_eq_zero.mp hnone) h0] at hfirst
  cases hfirst

/-- The decoders of the system: `getVector` of the client and the main server, that of the
backends, and `getList` on a datagram. -/
def decoders : List (Bytes → Option (List Bytes)) := [getVector, Backend.getVector, getList]

/-- The name codec: every decoder gives back the list that was encoded, and so its bytes. -/
theorem name_codec (list : List Bytes) (hne : list ≠ []) (h : ∀ name ∈ list, IsName name)
    (hlen : (getNameStr list).length ≤ 1023) :
    ∀ decode ∈ decoders, decode (getNameStr list) = some list ∧
      (decode (getNameStr list)).map getNameStr = some (getNameStr list) := by
  have hdecode : ∀ decode ∈ decoders, decode (getNameStr list) = some list := by
    intro decode hmem
    simp only [decoders, List.mem_cons, List.not_mem_nil, or_false] at hmem
    rcases hmem with rfl | rfl | rfl
    · exact getVector_getNameStr hne h hlen
    · exact Backend.getVector_getNameStr hne h hlen
    · exact getList_getNameStr (fun name hname => (h name hname).toIsWord) (Nat.le_succ_of_le hlen)
  intro decode hmem
  rw [hdecode decode hmem]
  exact ⟨rfl, rfl⟩

theorem name_codec_two :
    getVector [97, 32, 98, 32] = some [[97], [98]] ∧
      Backend.getVector [97, 32, 98, 32] = some [[97], [98]] ∧
      getList [97, 32, 98, 32] = some [[97], [98]] := by
  have hnames : ∀ name ∈ [[97], [98]], IsName name :=
    List.forall_mem_cons.mpr
      ⟨isName_letter rfl, List.forall_mem_singleton.mpr (isName_letter rfl)⟩
  have hcodec := name_codec [[97], [98]] (List.cons_ne_nil _ _) hnames (by decide)
  exact ⟨(hcodec getVector (by simp [decoders])).1,
    (hcodec Backend.getVector (by simp [decoders])).1, (hcodec getList (by simp [decoders])).1⟩

end StreamBridge
