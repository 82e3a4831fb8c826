import StreamBridge.Progress

/-!
# StreamBridge.Loss

The same processes on a network that loses datagrams. Nothing in the source sends a datagram again
or stops waiting for one.

* `step_frame`: a step does not mind datagrams that stay in flight; so a run with losses is a run
  without, in which the lost datagrams are never delivered.
* `lossy_matching`: a round still takes no datagram for another one.
* `loss_stops_service`: after one loss the main server is never at its loop head again, and every
  run comes to a stop.
-/

namespace StreamBridge

open CString Machine

/-- A state of the network, and the datagrams that have been lost. -/
abbrev LossyNet := Net × Multiset Packet

inductive LossyStep (file : ServerId → Bytes) : LossyNet → LossyNet → Prop
  | step {st st' : Net} {lost : Multiset Packet} (h : Step file st st') :
      LossyStep file (st, lost) (st', lost)
  | lose {st : Net} {lost rest : Multiset Packet} {p : Packet} (hnet : st.inFlight = p ::ₘ rest) :
      LossyStep file (st, lost) (⟨st.main, st.backend, rest⟩, p ::ₘ lost)

def LossyReachable (file : ServerId → Bytes) (c : LossyNet) : Prop :=
  Relation.ReflTransGen (LossyStep file) (Net.init, 0) c

/-- The lost datagrams back in flight. -/
def Net.add (st : Net) (extra : Multiset Packet) : Net :=
  ⟨st.main, st.backend, st.inFlight + extra⟩

section
variable {file : ServerId → Bytes}

theorem take_add {st : Net} {p : Packet} {rest : Multiset Packet} (hnet : st.inFlight = p ::ₘ rest)
    (extra : Multiset Packet) : (st.add extra).inFlight = p ::ₘ (rest + extra) := by
  unfold Net.add
  rw [hnet, Multiset.cons_add]

theorem step_frame {st st' : Net} (h : Step file st st') (extra : Multiset Packet) :
    Step file (st.add extra) (st'.add extra) := by
  cases h with
  | boot hpc hboot hsent =>
    show Step file _ ⟨_, _, _⟩
    rw [Multiset.cons_add]
    exact @Step.boot file (st.add extra) _ _ _ hpc hboot hsent
  | bootUnsent hpc hboot hlong => exact .bootUnsent hpc hboot hlong
  | serve hpc hnet hdst hpass => exact .serve hpc (take_add hnet extra) hdst hpass
  | answer hpc =>
    show Step file _ ⟨_, _, _⟩
    rw [Multiset.cons_add]
    exact @Step.answer file (st.add extra) _ _ _ _ hpc
  | getListA hpc hnet hdst hlist => exact .getListA hpc (take_add hnet extra) hdst hlist
  | getListB hpc hnet hdst hlist => exact .getListB hpc (take_add hnet extra) hdst hlist
  | noRequest hpc hrecv => exact .noRequest hpc hrecv
  | requestA hpc =>
    show Step file _ ⟨_, _, _⟩
    rw [Multiset.cons_add]
    exact @Step.requestA file (st.add extra) _ hpc
  | requestB hpc =>
    show Step file _ ⟨_, _, _⟩
    rw [Multiset.cons_add]
    exact @Step.requestB file (st.add extra) _ hpc
  | getResultA hpc hnet hdst => exact .getResultA hpc (take_add hnet extra) hdst
  | getResultB hpc hnet hdst hpass => exact .getResultB hpc (take_add hnet extra) hdst hpass

/-- A run with losses is a run without, in which the lost datagrams stay in flight. -/
theorem lossy_reachable {c : LossyNet} (h : LossyReachable file c) :
    Reachable file (c.1.add c.2) := by
  induction h with
  | refl => exact .refl
  | tail _ hstep ih =>
    cases hstep with
    | step hstep => exact ih.tail (step_frame hstep _)
    | @lose st lost rest p hnet =>
      have hsame : (Net.mk st.main st.backend rest).add (p ::ₘ lost) = st.add lost := by
        unfold Net.add
        rw [hnet, Multiset.cons_add, Multiset.add_cons]
      rw [hsame]
      exact ih

/-- At the loop head nothing was lost. -/
theorem head_lossless {c : LossyNet} (h : LossyReachable file c) (hhead : AtLoopHead c.1) :
    c.2 = 0 ∧ c.1.inFlight = 0 := by
  obtain ⟨φ, hinv⟩ := inv_reachable (lossy_reachable h)
  obtain ⟨s, k, hpc⟩ := hhead
  have hquiet := (hinv.head_quiet (s := s) (k := k) hpc).1
  have hsum : c.1.inFlight + c.2 = 0 := hquiet
  exact ⟨Multiset.le_zero.mp (hsum ▸ Multiset.le_add_left c.2 c.1.inFlight),
    Multiset.le_zero.mp (hsum ▸ Multiset.le_add_right c.1.inFlight c.2)⟩

theorem work_pos (p : Packet) : 0 < p.work := by
  unfold Packet.work
  split <;> omega

theorem lossy_work {c c' : LossyNet} (hstep : LossyStep file c c') (hhead : ¬ AtLoopHead c.1) :
    c'.1.work < c.1.work := by
  cases hstep with
  | step hstep => exact step_work_lt hstep hhead
  | @lose st lost rest p hnet =>
    have hpos := work_pos p
    unfold Net.work
    simp only [hnet, sum_work_cons]
    omega

theorem lossy_lost {c c' : LossyNet} (hstep : LossyStep file c c') (hlost : c.2 ≠ 0) :
    c'.2 ≠ 0 := by
  cases hstep with
  | step _ => exact hlost
  | lose _ => exact Multiset.cons_ne_zero

end

/-- Whatever was lost before, a datagram that `getResult` can take is a reply to the request of the
round it is taken in: the first is that of one backend, the second that of the other. -/
theorem lossy_matching (file : ServerId → Bytes) (c : LossyNet) (h : LossyReachable file c) :
    (∀ pass p, c.1.main = .getResultA pass → p ∈ c.1.inFlight → p.dst = .main →
      ∃ X, Answers file pass X p) ∧
    (∀ pass p₁ p₂, c.1.main = .getResultB pass p₁ → p₂ ∈ c.1.inFlight → p₂.dst = .main →
      ∃ X, Answers file pass X p₁ ∧ Answers file pass X.other p₂) := by
  obtain ⟨φ, hinv⟩ := inv_reachable (lossy_reachable h)
  have take : ∀ p ∈ c.1.inFlight, ∃ rest, (c.1.add c.2).inFlight = p ::ₘ rest := by
    intro p hp
    exact Multiset.exists_cons_of_mem (Multiset.mem_add.mpr (.inl hp))
  constructor
  · intro pass p hpc hp hdst
    obtain ⟨rest, hnet⟩ := take p hp
    have hactive : ∀ X, Active file pass X (φ X) := by
      have := hinv.agrees
      rwa [show (c.1.add c.2).main = .getResultA pass from hpc] at this
    obtain ⟨X, _, hreply, _⟩ := hinv.consume_reply hnet hdst fun X => .inr (hactive X)
    exact ⟨X, hreply⟩
  · intro pass p₁ p₂ hpc hp hdst
    obtain ⟨rest, hnet⟩ := take p₂ hp
    obtain ⟨X, _, hfirst, hsecond, _⟩ := hinv.second_reply hpc hnet hdst
    exact ⟨X, hfirst, hsecond⟩

/-- After a loss, whatever else is lost or not: the main server is never at its loop head again,
and every run ends where nobody can make a step. -/
theorem loss_stops_service (file : ServerId → Bytes) (c : LossyNet) (h : LossyReachable file c)
    (hlost : c.2 ≠ 0) :
    (∀ c', Relation.ReflTransGen (LossyStep file) c c' → ¬ AtLoopHead c'.1) ∧
      Inevitable (LossyStep file) (fun c' => ∀ c'', ¬ LossyStep file c' c'') c := by
  have never : ∀ c, LossyReachable file c → c.2 ≠ 0 → ¬ AtLoopHead c.1 :=
    fun c h hlost hhead => hlost (head_lossless h hhead).1
  constructor
  · intro c' hrun
    have hlost' : c'.2 ≠ 0 :=
      Machine.reachable_keeps (P := fun c => c.2 ≠ 0) (fun _ _ hs hstep => lossy_lost hstep hs)
        hlost hrun
    exact never c' (h.trans hrun) hlost'
  · refine Inevitable.of_measure (I := fun c => LossyReachable file c ∧ c.2 ≠ 0)
      (fun c => c.1.work) ?_ ?_ ⟨h, hlost⟩
    · intro c hI hstop
      simpa only [not_forall, not_not] using hstop
    · intro c c' hI _ hstep
      exact ⟨⟨hI.1.tail hstep, lossy_lost hstep hI.2⟩,
        lossy_work hstep (never c hI.1 hI.2)⟩

theorem lossy_of_reachable {file : ServerId → Bytes} {st : Net} (h : Reachable file st) :
    LossyReachable file (st, 0) := by
  induction h with
  | refl => exact .refl
  | tail _ hstep ih => exact ih.tail (.step hstep)

theorem lossy_matching_sample :
    ∃ X, Answers sampleFiles samplePass X (sampleReply .B) ∧
      Answers sampleFiles samplePass X.other (sampleReply .A) := by
  obtain ⟨backend, h⟩ := reachable_sample
  exact (lossy_matching sampleFiles _ (lossy_of_reachable h)).2 _ _ _ rfl
    (Multiset.mem_singleton_self _) rfl

/-- The second reply of the round of `samplePass` is lost. -/
theorem loss_stops_sample :
    ∃ backend, Inevitable (LossyStep sampleFiles)
      (fun c => ∀ c', ¬ LossyStep sampleFiles c c')
      (⟨.getResultB samplePass (sampleReply .B), backend, 0⟩, {sampleReply .A}) := by
  obtain ⟨backend, h⟩ := reachable_sample
  have hlose : LossyReachable sampleFiles _ :=
    (lossy_of_reachable h).tail (@LossyStep.lose _ _ _ 0 (sampleReply .A) rfl)
  have hlost : ({sampleReply .A} : Multiset Packet) ≠ 0 :=
    Multiset.singleton_ne_zero _
  exact ⟨backend, (loss_stops_service sampleFiles _ hlose hlost).2⟩

end StreamBridge
