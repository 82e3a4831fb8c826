import Mathlib.Data.Nat.Digits.Defs
import StreamBridge.Lib.CString

/-!
# StreamBridge.Lib.Decimal

Numbers as a C++ stream prints them: decimal digits without leading zeros, and a minus sign before
them for a negative number.

* `value_digits`: the digits of a number have its value.
* `signed_injective`: different numbers are printed differently.
* `notMem_signed`: nothing but digits and the sign is printed.
* `signed_append_inj`: a number with a delimiter behind it can be read back.
-/

namespace Decimal

open CString

def digits (n : Nat) : Bytes :=
  if n = 0 then [48] else (Nat.digits 10 n).reverse.map fun d => UInt8.ofNat (48 + d)

def signed (z : Int) : Bytes := if z < 0 then 45 :: digits z.natAbs else digits z.natAbs

def value (ds : Bytes) : Nat := Nat.ofDigits 10 (ds.reverse.map (·.toNat - 48))

theorem digits_ne_nil (n : Nat) : digits n ≠ [] := by
  unfold digits
  split
  · exact List.cons_ne_nil _ _
  · rename_i hn
    intro h
    rw [List.map_eq_nil_iff, List.reverse_eq_nil_iff, Nat.digits_eq_nil_iff_eq_zero] at h
    exact hn h

theorem toNat_digit {d : Nat} (h : d < 10) : (UInt8.ofNat (48 + d)).toNat = 48 + d := by
  rw [UInt8.toNat_ofNat']
  omega

theorem toNat_digits {n : Nat} {c : Byte} (h : c ∈ digits n) : 48 ≤ c.toNat ∧ c.toNat ≤ 57 := by
  unfold digits at h
  split at h
  · rw [List.mem_singleton.mp h]
    exact ⟨le_refl _, by simp⟩
  · obtain ⟨d, hd, rfl⟩ := List.mem_map.mp h
    have hlt := Nat.digits_lt_base (by omega) (List.mem_reverse.mp hd)
    rw [toNat_digit hlt]
    omega

theorem value_digits (n : Nat) : value (digits n) = n := by
  unfold value digits
  split
  · rename_i hn
    rw [hn]
    rfl
  · rw [← List.map_reverse, List.reverse_reverse, List.map_map]
    have hdigits : (Nat.digits 10 n).map ((fun c : Byte => c.toNat - 48) ∘
        fun d => UInt8.ofNat (48 + d)) = Nat.digits 10 n := by
      refine (List.map_congr_left fun d hd => ?_).trans (List.map_id _)
      have hlt := Nat.digits_lt_base (by omega) hd
      rw [Function.comp_apply, toNat_digit hlt, id]
      omega
    rw [hdigits, Nat.ofDigits_digits]

theorem digits_injective : Function.Injective digits := by
  intro m n h
  rw [← value_digits m, h, value_digits]

theorem notMem_digits {n : Nat} {c : Byte} (hc : c.toNat < 48 ∨ 57 < c.toNat) : c ∉ digits n := by
  intro h
  have := toNat_digits h
  omega

theorem notMem_signed {z : Int} {c : Byte} (hsign : c ≠ 45)
    (hc : c.toNat < 48 ∨ 57 < c.toNat) : c ∉ signed z := by
  unfold signed
  split
  · intro h
    rcases List.mem_cons.mp h with h | h
    · exact hsign h
    · exact notMem_digits hc h
  · exact notMem_digits hc

theorem signed_injective : Function.Injective signed := by
  have hminus : ∀ m n : Nat, 45 :: digits m ≠ digits n := by
    intro m n h
    have hmem : (45 : Byte) ∈ digits n := h ▸ List.mem_cons_self
    have := (toNat_digits hmem).1
    rw [show (45 : Byte).toNat = 45 from rfl] at this
    omega
  intro x y h
  unfold signed at h
  split at h <;> split at h
  · have := digits_injective (List.cons.inj h).2
    omega
  · exact absurd h (hminus _ _)
  · exact absurd h.symm (hminus _ _)
  · have := digits_injective h
    omega

/-- What stands before the first delimiter, and what behind it. -/
theorem append_delim_inj {c : Byte} {a b r r' : Bytes} (ha : c ∉ a) (hb : c ∉ b)
    (h : a ++ c :: r = b ++ c :: r') : a = b ∧ r = r' := by
  induction a generalizing b with
  | nil =>
    cases b with
    | nil => exact ⟨rfl, (List.cons.inj h).2⟩
    | cons y b => exact absurd (by rw [(List.cons.inj h).1]; exact List.mem_cons_self) hb
  | cons x a ih =>
    cases b with
    | nil => exact absurd (by rw [← (List.cons.inj h).1]; exact List.mem_cons_self) ha
    | cons y b =>
      obtain ⟨hhead, htail⟩ := List.cons.inj h
      obtain ⟨hab, hrest⟩ := ih (fun hx => ha (List.mem_cons_of_mem x hx))
        (fun hy => hb (List.mem_cons_of_mem y hy)) htail
      exact ⟨by rw [hhead, hab], hrest⟩

/-- A number with a delimiter behind it can be read back. -/
theorem signed_append_inj {x y : Int} {c : Byte} {r r' : Bytes} (hsign : c ≠ 45)
    (hc : c.toNat < 48 ∨ 57 < c.toNat) (h : signed x ++ c :: r = signed y ++ c :: r') :
    x = y ∧ r = r' := by
  obtain ⟨hxy, hrest⟩ := append_delim_inj (notMem_signed hsign hc) (notMem_signed hsign hc) h
  exact ⟨signed_injective hxy, hrest⟩

theorem signed_of_nonneg {z : Int} (h : 0 ≤ z) : signed z = digits z.natAbs := by
  rw [signed, if_neg (by omega)]

end Decimal
