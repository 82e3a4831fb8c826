import Mathlib.Algebra.BigOperators.Group.Finset.Basic
import Mathlib.Algebra.Order.Group.Multiset

/-!
# StreamBridge.Lib.Slots

Messages in flight, when each of finitely many senders has at most one on its way. The messages
are a multiset, so they can be taken in any order; the slots say whose each one is.

* `inFlight_put`: a message into an empty slot.
* `inFlight_take`: whatever message is taken, it empties one slot.
* `mem_inFlight`, `inFlight_eq_zero`: what is in flight, by slot.
-/

namespace Slots

universe u v

variable {ι : Type u} {α : Type v} [Fintype ι]

def inFlight (slot : ι → Option α) : Multiset α := ∑ i, ((slot i).toList : Multiset α)

theorem mem_inFlight {slot : ι → Option α} {p : α} : p ∈ inFlight slot ↔ ∃ i, slot i = some p := by
  simp [inFlight, Multiset.mem_sum]

theorem inFlight_eq_zero {slot : ι → Option α} : inFlight slot = 0 ↔ ∀ i, slot i = none := by
  rw [Multiset.eq_zero_iff_forall_notMem]
  constructor
  · intro h i
    cases hi : slot i with
    | none => rfl
    | some p => exact absurd (mem_inFlight.mpr ⟨i, hi⟩) (h p)
  · intro h p hp
    obtain ⟨i, hi⟩ := mem_inFlight.mp hp
    rw [h i] at hi
    cases hi

variable [DecidableEq ι]

theorem inFlight_put {slot : ι → Option α} {i : ι} (h : slot i = none) (p : α) :
    inFlight (Function.update slot i (some p)) = p ::ₘ inFlight slot := by
  have hrest : ∑ j ∈ Finset.univ.erase i,
      ((Function.update slot i (some p) j).toList : Multiset α) =
        ∑ j ∈ Finset.univ.erase i, ((slot j).toList : Multiset α) :=
    Finset.sum_congr rfl fun j hj => by rw [Function.update_of_ne (Finset.ne_of_mem_erase hj)]
  have hput := Finset.add_sum_erase Finset.univ
    (fun j => ((Function.update slot i (some p) j).toList : Multiset α)) (Finset.mem_univ i)
  have hslot := Finset.add_sum_erase Finset.univ
    (fun j => ((slot j).toList : Multiset α)) (Finset.mem_univ i)
  simp only [Function.update_self, hrest] at hput
  simp only [h, Option.toList_none, Multiset.coe_nil, zero_add] at hslot
  rw [inFlight, ← hput, hslot]
  rfl

/-- Taking a message out of the flight empties the slot it was in. -/
theorem inFlight_take {slot : ι → Option α} {p : α} {rest : Multiset α}
    (h : inFlight slot = p ::ₘ rest) :
    ∃ i, slot i = some p ∧ rest = inFlight (Function.update slot i none) := by
  obtain ⟨i, hi⟩ := mem_inFlight.mp (h ▸ Multiset.mem_cons_self p rest)
  refine ⟨i, hi, ?_⟩
  have hempty : Function.update slot i none i = none := Function.update_self ..
  have hput := inFlight_put hempty p
  rw [Function.update_idem, ← hi, Function.update_eq_self, h] at hput
  exact (Multiset.cons_inj_right p).mp hput

end Slots
