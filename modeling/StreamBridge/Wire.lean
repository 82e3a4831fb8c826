import Mathlib.Tactic.IntervalCases
import StreamBridge.Lib.LittleEndian
import StreamBridge.Types

/-!
# StreamBridge.Wire

Interval lists on the wire: eight bytes an interval, no length. The decoder reads the whole
zero-filled 1024-byte buffer and keeps the intervals whose start and end are positive, so the
padding decodes to nothing (`deserialize_zeroFill`).
-/

namespace StreamBridge

open CString Intervals LittleEndian

def serialize (time_list : List TimeInterval) : Bytes :=
  time_list.flatMap fun interval => ofInt32 interval.start ++ ofInt32 interval.end

/-- The loop of `deserialize`, eight bytes at a time. Every caller passes its whole 1024-byte
buffer, so the pass in which fewer than eight bytes are left never happens. -/
def deserialize : Bytes → List TimeInterval
  | b0 :: b1 :: b2 :: b3 :: b4 :: b5 :: b6 :: b7 :: data =>
    let interval : TimeInterval := ⟨toInt32 [b0, b1, b2, b3], toInt32 [b4, b5, b6, b7]⟩
    if interval.start > 0 ∧ interval.end > 0 then interval :: deserialize data
    else deserialize data
  | _ => []

/-- What `deserialize` keeps. -/
def Positive (i : TimeInterval) : Prop := 0 < i.start ∧ 0 < i.end

instance (i : TimeInterval) : Decidable (Positive i) := inferInstanceAs (Decidable (_ ∧ _))

@[simp] theorem serialize_nil : serialize [] = [] := rfl

theorem serialize_cons (i : TimeInterval) (L : List TimeInterval) :
    serialize (i :: L) = ofInt32 i.start ++ ofInt32 i.end ++ serialize L := rfl

@[simp] theorem length_serialize (L : List TimeInterval) : (serialize L).length = 8 * L.length := by
  induction L with
  | nil => rfl
  | cons i L ih => simp [serialize_cons, ih]; omega

theorem deserialize_cons (s e : Bytes) (hs : s.length = 4) (he : e.length = 4) (data : Bytes) :
    deserialize (s ++ e ++ data) =
      if Positive ⟨toInt32 s, toInt32 e⟩ then ⟨toInt32 s, toInt32 e⟩ :: deserialize data
      else deserialize data := by
  obtain ⟨b0, b1, b2, b3, rfl⟩ := List.length_eq_four.mp hs
  obtain ⟨b4, b5, b6, b7, rfl⟩ := List.length_eq_four.mp he
  rfl

theorem deserialize_serialize_append (L : List TimeInterval) (data : Bytes) :
    deserialize (serialize L ++ data) = L.filter (Positive ·) ++ deserialize data := by
  induction L with
  | nil => rfl
  | cons i L ih =>
    rw [serialize_cons, List.append_assoc, deserialize_cons _ _ (by simp) (by simp), ih,
      toInt32_ofInt32, toInt32_ofInt32]
    by_cases h : Positive i
    · rw [if_pos h, List.filter_cons_of_pos (by simpa using h)]; rfl
    · rw [if_neg h, List.filter_cons_of_neg (by simpa using h)]

theorem deserialize_zeros (n : Nat) : deserialize (List.replicate n 0) = [] := by
  induction n using Nat.strongRecOn with
  | _ n ih =>
    by_cases h : n < 8
    · interval_cases n <;> rfl
    · have hsplit : List.replicate n (0 : Byte) =
          List.replicate 4 0 ++ List.replicate 4 0 ++ List.replicate (n - 8) 0 := by
        rw [← List.replicate_add, ← List.replicate_add]
        congr 1; omega
      rw [hsplit, deserialize_cons _ _ rfl rfl, ih (n - 8) (by omega), toInt32_zeros]
      rfl

theorem deserialize_zeroFill (n : Nat) (L : List TimeInterval) :
    deserialize (zeroFill n (serialize L)) = L.filter (Positive ·) := by
  rw [zeroFill, deserialize_serialize_append, deserialize_zeros, List.append_nil]

theorem take_serialize (n : Nat) (L : List TimeInterval) :
    (serialize L).take (8 * n) = serialize (L.take n) := by
  induction L generalizing n with
  | nil => simp
  | cons i L ih =>
    cases n with
    | zero => simp
    | succ n =>
      have hlen : (ofInt32 i.start ++ ofInt32 i.end).length = 8 := by simp
      rw [serialize_cons, List.take_append, hlen, List.take_of_length_le (by omega),
        show 8 * (n + 1) - 8 = 8 * n by omega, ih, List.take_succ_cons, serialize_cons]

theorem filter_positive {L : List TimeInterval} (h : ∀ i ∈ L, Positive i) :
    L.filter (Positive ·) = L :=
  List.filter_eq_self.mpr fun i hi => by simpa using h i hi

end StreamBridge
