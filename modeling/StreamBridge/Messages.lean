import StreamBridge.Client
import StreamBridge.MainServer

/-!
# StreamBridge.Messages

The messages on the TCP connection. A name list travels as the 1024 bytes of a zero-filled buffer
(`nameMsg`), in both directions and also when it is empty; a result travels as 1024 zero bytes
when it is empty, and as its serialization, of no fixed length, when it is not.

* `nameMsg_received`: a whole name message gives its list back, on either side.
* `recvResult_serialize`: what the client makes of a whole non-empty result: nothing when its
  first byte is zero, because `strlen` then finds the empty string.
-/

namespace StreamBridge

open CString Intervals LittleEndian

/-- The 1024-byte buffer that carries a name list. -/
def nameMsg (list : List Bytes) : Bytes := zeroFill 1024 (getNameStr list)

/-- A list that fits a name message: every decoder reads its names, and the NUL has room. -/
structure Fits (list : List Bytes) : Prop where
  names : ∀ name ∈ list, IsName name
  length_le : (getNameStr list).length ≤ 1023

theorem Fits.sublist {vs ws : List Bytes} (h : Fits ws) (hs : vs.Sublist ws) : Fits vs where
  names name hn := h.names name (hs.subset hn)
  length_le := le_trans (length_getNameStr_sublist hs) h.length_le

theorem Fits.noNul {list : List Bytes} (h : Fits list) : 0 ∉ getNameStr list :=
  noNul_getNameStr fun name hn => (h.names name hn).noNul

@[simp] theorem length_nameMsg {list : List Bytes} (h : Fits list) :
    (nameMsg list).length = 1024 := by
  have := h.length_le
  rw [nameMsg, length_zeroFill]
  omega

theorem zeroFill_snoc_zero {size : Nat} {s : Bytes} (h : s.length < size) :
    zeroFill size (s ++ [0]) = zeroFill size s := by
  rw [zeroFill_eq h, zeroFill, List.append_assoc, List.singleton_append, List.length_append,
    List.length_singleton, Nat.sub_sub]

theorem zeroFill_full {size : Nat} {s : Bytes} (h : size ≤ s.length) : zeroFill size s = s := by
  simp [zeroFill, Nat.sub_eq_zero_of_le h]

theorem strcpy_nameMsg {list : List Bytes} (h : Fits list) :
    ∃ str, strcpy 1024 (getNameStr list) = some str ∧ zeroFill 1024 str = nameMsg list := by
  have hlen : (getNameStr list).length < 1024 := by have := h.length_le; omega
  exact ⟨_, strcpy_fits h.noNul hlen, zeroFill_snoc_zero hlen⟩

theorem Client.sendList_eq {list : List Bytes} (h : Fits list) :
    Client.sendList list = some (nameMsg list) := by
  obtain ⟨str, hcopy, hfill⟩ := strcpy_nameMsg h
  simp only [Client.sendList, hcopy, Option.bind_eq_bind, Option.bind_some, hfill]

theorem MainServer.replyClient_eq {list : List Bytes} (h : Fits list) :
    MainServer.replyClient list = some (nameMsg list) := by
  unfold MainServer.replyClient
  split
  · rename_i h0
    rw [List.length_eq_zero_iff.mp h0]
    rfl
  · obtain ⟨str, hcopy, hfill⟩ := strcpy_nameMsg h
    simp only [hcopy, Option.bind_eq_bind, Option.bind_some, hfill]

theorem cstr_nameMsg {list : List Bytes} (h : Fits list) :
    cstr (zeroFill 1024 (nameMsg list)) = some (getNameStr list) := by
  have hlen := h.length_le
  rw [zeroFill_full (length_nameMsg h).ge, nameMsg, cstr_zeroFill h.noNul (by omega)]

theorem nameMsg_received {list : List Bytes} (h : Fits list) :
    MainServer.recvList (nameMsg list) = some list ∧
      Client.recvNoExist (nameMsg list) = some list := by
  have key : (if (getNameStr list).length = 0 then some [] else getVector (getNameStr list)) =
      some list := by
    by_cases hne : list = []
    · subst hne; rfl
    · have : (getNameStr list).length ≠ 0 := fun h0 =>
        hne (getNameStr_eq_nil.mp (List.length_eq_zero_iff.mp h0))
      rw [if_neg this, getVector_getNameStr hne h.names h.length_le]
  constructor
  · simp only [MainServer.recvList, cstr_nameMsg h, Option.bind_eq_bind, Option.bind_some, key]
  · simp only [Client.recvNoExist, cstr_nameMsg h, Option.bind_eq_bind, Option.bind_some, key]

theorem replyResult_nil : MainServer.replyResult [] = some (List.replicate 1024 0) := rfl

theorem replyResult_of_ne_nil {L : List TimeInterval} (h : L ≠ []) :
    MainServer.replyResult L = some (serialize L) := by
  have : L.length ≠ 0 := fun h0 => h (List.length_eq_zero_iff.mp h0)
  rw [MainServer.replyResult, if_neg this]

theorem strlen_eq_zero {mem : Bytes} : strlen mem = some 0 ↔ mem.head? = some 0 := by
  cases mem with
  | nil => simp [strlen, cstr]
  | cons c mem =>
    by_cases hc : c = 0
    · simp [strlen, cstr, hc]
    · simp only [strlen, cstr, List.head?_cons, Option.some.injEq, hc, iff_false]
      split <;> simp [hc]

theorem strlen_isSome {mem : Bytes} : (∃ n, strlen mem = some n) ↔ 0 ∈ mem := by
  simp only [strlen, cstr]
  split <;> simp [*]

theorem recvResult_zeros {n : Nat} (hn : 0 < n) (hle : n ≤ 1024) :
    Client.recvResult (List.replicate n 0) = some [] := by
  have hbuf : zeroFill 1024 (List.replicate n 0) = List.replicate 1024 0 := by
    rw [zeroFill, List.length_replicate, List.replicate_append_replicate, Nat.add_sub_cancel' hle]
  have hzero : strlen (List.replicate 1024 0) = some 0 :=
    strlen_eq_zero.mpr (List.head?_replicate)
  simp only [Client.recvResult, hbuf, hzero, List.length_replicate, if_neg hn.ne',
    Option.bind_eq_bind, Option.bind_some, if_true]

theorem head_serialize (i : TimeInterval) (L : List TimeInterval) (n : Nat) :
    (zeroFill n (serialize (i :: L))).head? = some 0 ↔ i.start.toInt % 256 = 0 := by
  rw [← head_ofInt32, serialize_cons, zeroFill]
  simp [ofInt32, bytes]

/-- A whole non-empty result at the client: `strlen` needs a zero byte in the buffer, and a zero
first byte reads as no result. -/
theorem recvResult_serialize {i : TimeInterval} {L : List TimeInterval}
    (hpos : ∀ j ∈ i :: L, Positive j) :
    Client.recvResult (serialize (i :: L)) =
      if 0 ∈ zeroFill 1024 (serialize (i :: L)) then
        if i.start.toInt % 256 = 0 then some [] else some (i :: L)
      else none := by
  have hlen : (serialize (i :: L)).length ≠ 0 := by rw [length_serialize]; simp
  simp only [Client.recvResult, if_neg hlen, deserialize_zeroFill, filter_positive hpos]
  by_cases hz : 0 ∈ zeroFill 1024 (serialize (i :: L))
  · obtain ⟨n, hn⟩ := strlen_isSome.mpr hz
    simp only [hn, Option.bind_eq_bind, Option.bind_some, if_pos hz]
    by_cases h0 : i.start.toInt % 256 = 0
    · have := strlen_eq_zero.mpr ((head_serialize i L 1024).mpr h0)
      rw [hn, Option.some.injEq] at this
      rw [if_pos this, if_pos h0]
    · have : n ≠ 0 := by
        rintro rfl
        exact h0 ((head_serialize i L 1024).mp (strlen_eq_zero.mp hn))
      rw [if_neg this, if_neg h0]
  · have hn : strlen (zeroFill 1024 (serialize (i :: L))) = none := by
      cases h : strlen (zeroFill 1024 (serialize (i :: L))) with
      | none => rfl
      | some n => exact absurd (strlen_isSome.mp ⟨n, h⟩) hz
    simp only [hn, Option.bind_eq_bind, Option.bind_none, if_neg hz]

theorem zero_mem_zeroFill {L : List TimeInterval} :
    0 ∈ zeroFill 1024 (serialize L) ↔ L.length < 128 ∨ 0 ∈ serialize L := by
  simp only [zeroFill, List.mem_append, length_serialize, List.mem_replicate, and_true]
  constructor
  · rintro (h | h)
    · exact .inr h
    · exact .inl (by omega)
  · rintro (h | h)
    · exact .inr (by omega)
    · exact .inl h

end StreamBridge
