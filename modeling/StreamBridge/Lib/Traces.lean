import StreamBridge.Lib.Machine

/-!
# StreamBridge.Lib.Traces

Systems whose steps are sometimes observed, compared with a machine that makes one step for each
observation; and what holds in the end of every run, whatever the order of the steps.

* `Trace`: a run with the list of its observations. Steps with the label `none` are silent.
* `Simulation.run`: each observation is a step of the machine, and no silent step moves it, so every
  trace is a run of the machine with the same outputs.
* `Realization.trace`: the converse, when each step of the machine can be carried out.
* `Inevitable`: every run reaches the goal and none stops before it; `After` says after how many
  steps. The rules to prove them are `Inevitable.of_measure` and `After.of_measure`.
-/

namespace Machine

universe u v w x y

section Observed

variable {σ : Type u} {ο : Type v} {τ : Type w} {ι : Type x} {ω : Type y}

inductive Trace (r : σ → Option ο → σ → Prop) : σ → List ο → σ → Prop
  | nil (s : σ) : Trace r s [] s
  | silent {s t t' : σ} {os : List ο} (h : Trace r s os t) (hr : r t none t') : Trace r s os t'
  | observed {s t t' : σ} {os : List ο} {o : ο} (h : Trace r s os t) (hr : r t (some o) t') :
      Trace r s (os ++ [o]) t'

variable {r : σ → Option ο → σ → Prop}

theorem Trace.append {s t u : σ} {os os' : List ο} (h : Trace r s os t) (h' : Trace r t os' u) :
    Trace r s (os ++ os') u := by
  induction h' with
  | nil => rwa [List.append_nil]
  | silent _ hr ih => exact ih.silent hr
  | observed _ hr ih =>
    rw [← List.append_assoc]
    exact ih.observed hr

/-- A trace takes the steps of a relation that forgets the labels. -/
theorem Trace.reachable {q : σ → σ → Prop} (hq : ∀ s l t, r s l t → q s t) {s t : σ} {os : List ο}
    (h : Trace r s os t) : Relation.ReflTransGen q s t := by
  induction h with
  | nil => exact .refl
  | silent _ hr ih => exact ih.tail (hq _ _ _ hr)
  | observed _ hr ih => exact ih.tail (hq _ _ _ hr)

/-- `R` relates a state of the system to a state of the machine; `M` says which input of the machine
an observation goes with, and `out` what it shows of the output. -/
structure Simulation (r : σ → Option ο → σ → Prop) (step : τ → ι → Option (ω × τ))
    (R : σ → τ → Prop) (M : ο → ι → Prop) (out : ο → ω) : Prop where
  silent : ∀ {s s' : σ} {a : τ}, R s a → r s none s' → R s' a
  observed : ∀ {s s' : σ} {a : τ} {o : ο}, R s a → r s (some o) s' →
    ∃ i a', step a i = some (out o, a') ∧ M o i ∧ R s' a'

variable {step : τ → ι → Option (ω × τ)} {R : σ → τ → Prop} {M : ο → ι → Prop} {out : ο → ω}

theorem Simulation.run (h : Simulation r step R M out) {s t : σ} {a : τ} {os : List ο}
    (htrace : Trace r s os t) (hs : R s a) :
    ∃ is b, Machine.run step a is = some (os.map out, b) ∧ List.Forall₂ M os is ∧ R t b := by
  induction htrace with
  | nil => exact ⟨[], a, rfl, .nil, hs⟩
  | silent _ hr ih =>
    obtain ⟨is, b, hrun, hM, hR⟩ := ih
    exact ⟨is, b, hrun, hM, h.silent hR hr⟩
  | observed _ hr ih =>
    obtain ⟨is, b, hrun, hM, hR⟩ := ih
    obtain ⟨i, b', hstep, hMi, hR'⟩ := h.observed hR hr
    refine ⟨is ++ [i], b', ?_, List.rel_append hM (.cons hMi .nil), hR'⟩
    rw [List.map_append]
    exact run_snoc.mpr ⟨_, b, _, hrun, hstep, rfl⟩

/-- Inputs that no step tells apart give the same run. -/
theorem run_congr {is js : List ι} (h : List.Forall₂ (fun i j => ∀ a, step a i = step a j) is js)
    (a : τ) : Machine.run step a is = Machine.run step a js := by
  induction h generalizing a with
  | nil => rfl
  | cons hij _ ih => simp only [Machine.run, hij a, ih]

/-- Every step of the machine can be carried out by some silent steps and one observation. -/
structure Realization (r : σ → Option ο → σ → Prop) (step : τ → ι → Option (ω × τ))
    (R : σ → τ → Prop) (M : ο → ι → Prop) (out : ο → ω) : Prop where
  realize : ∀ {s : σ} {a a' : τ} {i : ι} {w : ω}, R s a → step a i = some (w, a') →
    ∃ o s', Trace r s [o] s' ∧ out o = w ∧ M o i ∧ R s' a'

theorem Realization.trace (h : Realization r step R M out) {is : List ι} {s : σ} {a b : τ}
    {ws : List ω} (hrun : Machine.run step a is = some (ws, b)) (hs : R s a) :
    ∃ os t, Trace r s os t ∧ os.map out = ws ∧ List.Forall₂ M os is ∧ R t b := by
  induction is generalizing s a ws with
  | nil =>
    cases hrun
    exact ⟨[], s, .nil s, rfl, .nil, hs⟩
  | cons i is ih =>
    obtain ⟨w, a', ws', hstep, hrest, rfl⟩ := run_cons hrun
    obtain ⟨o, s', htrace, hout, hM, hs'⟩ := h.realize hs hstep
    obtain ⟨os, t, htail, hmap, hMs, ht⟩ := ih hrest hs'
    refine ⟨o :: os, t, htrace.append htail, ?_, .cons hM hMs, ht⟩
    rw [List.map_cons, hout, hmap]

end Observed

section Goal

variable {σ : Type u} {r : σ → σ → Prop} {P : σ → Prop}

/-- No run stops before the goal or goes on for ever without it. -/
inductive Inevitable (r : σ → σ → Prop) (P : σ → Prop) : σ → Prop
  | now {s : σ} (h : P s) : Inevitable r P s
  | later {s : σ} (hsome : ∃ t, r s t) (hall : ∀ t, r s t → Inevitable r P t) : Inevitable r P s

/-- Progress and a measure, both under an invariant. -/
theorem Inevitable.of_measure {I : σ → Prop} (μ : σ → Nat)
    (hprogress : ∀ s, I s → ¬ P s → ∃ t, r s t)
    (hstep : ∀ s t, I s → ¬ P s → r s t → I t ∧ μ t < μ s) {s : σ} (hs : I s) :
    Inevitable r P s := by
  have bounded : ∀ n s, I s → μ s ≤ n → Inevitable r P s := by
    intro n
    induction n with
    | zero =>
      intro s hs hn
      by_cases hP : P s
      · exact .now hP
      · refine .later (hprogress s hs hP) ?_
        intro t ht
        have := (hstep s t hs hP ht).2
        omega
    | succ n ih =>
      intro s hs hn
      by_cases hP : P s
      · exact .now hP
      · refine .later (hprogress s hs hP) ?_
        intro t ht
        obtain ⟨hI, hlt⟩ := hstep s t hs hP ht
        exact ih t hI (by omega)
  exact bounded (μ s) s hs (Nat.le_refl _)

/-- Every run is at the goal after `n` steps, and none stops before. -/
inductive After (r : σ → σ → Prop) (P : σ → Prop) : Nat → σ → Prop
  | zero {s : σ} (h : P s) : After r P 0 s
  | succ {s : σ} {n : Nat} (hsome : ∃ t, r s t) (hall : ∀ t, r s t → After r P n t) :
      After r P (n + 1) s

/-- Progress and a measure that each step lowers by one, down to the goal. -/
theorem After.of_measure {I : σ → Prop} (μ : σ → Nat) (hgoal : ∀ s, I s → P s → μ s = 0)
    (hprogress : ∀ s, I s → ¬ P s → ∃ t, r s t)
    (hstep : ∀ s t, I s → ¬ P s → r s t → I t ∧ μ t + 1 = μ s) {s : σ} (hs : I s) :
    After r P (μ s) s := by
  induction hn : μ s generalizing s with
  | zero =>
    refine .zero (Classical.byContradiction fun hP => ?_)
    obtain ⟨t, ht⟩ := hprogress s hs hP
    have := (hstep s t hs hP ht).2
    omega
  | succ n ih =>
    have hP : ¬ P s := by
      intro hP
      rw [hgoal s hs hP] at hn
      cases hn
    refine .succ (hprogress s hs hP) ?_
    intro t ht
    obtain ⟨hI, hμ⟩ := hstep s t hs hP ht
    exact ih hI (by omega)

theorem After.inevitable {n : Nat} {s : σ} (h : After r P n s) : Inevitable r P s := by
  induction h with
  | zero h => exact .now h
  | succ hsome _ ih => exact .later hsome ih

theorem Inevitable.path {s : σ} (h : Inevitable r P s) :
    ∃ t, Relation.ReflTransGen r s t ∧ P t := by
  induction h with
  | now h => exact ⟨_, .refl, h⟩
  | later hsome _ ih =>
    obtain ⟨t, ht⟩ := hsome
    obtain ⟨u, hu, hP⟩ := ih t ht
    exact ⟨u, .head ht hu, hP⟩

end Goal

end Machine
