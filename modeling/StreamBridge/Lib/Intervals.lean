import Mathlib.Order.Bounds.Defs
import Mathlib.Order.Lattice
import Mathlib.Order.MinMax
import Mathlib.Data.List.Chain
import Mathlib.Data.List.Forall2
import Mathlib.Data.List.Perm.Basic

/-!
# StreamBridge.Lib.Intervals

Lists of half-open intervals over a linear order, and the intersection of two such lists computed
by the doubly nested loop that emits every non-empty overlap in `(i, j)` order.

* `covers_meet`: on all lists, `meet X Y` covers exactly the points covered by both.
* `meet_assoc`: on all lists; the overlaps of three lists come out in the same `(i, j, k)` order.
* `SpacedBy r`: every interval is proper and `r` holds between its end and the starts after it. For
  `≤` it is `Separated`, for `<` it is `Apart`; `meet` keeps both (`SpacedBy.meet`).
* `Separated`: `meet` is commutative on it (`meet_comm`), and emits at most `|X| + |Y| - 1`
  intervals on it (`length_meet`).
* `meetAll`: the left fold of `meet` over a list of lists, with the same facts, and what an interval
  of it is (`isOverlap_of_mem_foldl`).
-/

namespace Intervals

universe u

structure Interval (α : Type u) where
  start : α
  «end» : α
  deriving DecidableEq, Repr

variable {α : Type u} [LinearOrder α]

/-- `t` lies in the half-open interval `[start, end)`. -/
def Interval.Has (i : Interval α) (t : α) : Prop := i.start ≤ t ∧ t < i.end

def Covers (L : List (Interval α)) (t : α) : Prop := ∃ i ∈ L, i.Has t

instance instDecidableHas (i : Interval α) (t : α) : Decidable (i.Has t) :=
  inferInstanceAs (Decidable (_ ∧ _))

instance instDecidableCovers (L : List (Interval α)) (t : α) : Decidable (Covers L t) :=
  inferInstanceAs (Decidable (∃ i ∈ L, i.Has t))

def overlap (a b : Interval α) : Interval α := ⟨max a.start b.start, min a.end b.end⟩

/-- The non-empty overlaps of `a` with the intervals of `Y`, in the order of `Y`. -/
def row (a : Interval α) (Y : List (Interval α)) : List (Interval α) :=
  Y.filterMap fun b =>
    if (overlap a b).start < (overlap a b).end then some (overlap a b) else none

def meet (X Y : List (Interval α)) : List (Interval α) := X.flatMap fun a => row a Y

/-- The intersection of all lists of `Ls`, folded from the left; `[]` for no list. -/
def meetAll : List (List (Interval α)) → List (Interval α)
  | [] => []
  | L :: Ls => Ls.foldl meet L

/-- Every interval is non-empty and ends no later than the next one starts. -/
structure Separated (L : List (Interval α)) : Prop where
  proper : ∀ i ∈ L, i.start < i.end
  ordered : L.IsChain (fun a b => a.end ≤ b.start)

theorem separated_fields {L : List (Interval α)} :
    Separated L ↔ (∀ i ∈ L, i.start < i.end) ∧ L.IsChain (fun a b => a.end ≤ b.start) :=
  ⟨fun h => ⟨h.proper, h.ordered⟩, fun h => ⟨h.1, h.2⟩⟩

instance instDecidableSeparated (L : List (Interval α)) : Decidable (Separated L) :=
  decidable_of_iff' _ separated_fields

/-- Every interval is non-empty and ends strictly before the next one starts. -/
structure Apart (L : List (Interval α)) : Prop where
  proper : ∀ i ∈ L, i.start < i.end
  ordered : L.IsChain (fun a b => a.end < b.start)

/-- `i` is the overlap of all of `cs`: it starts with the last of them and ends with the first. -/
structure IsOverlap (i : Interval α) (cs : List (Interval α)) : Prop where
  start : IsGreatest {t | ∃ c ∈ cs, c.start = t} i.start
  «end» : IsLeast {t | ∃ c ∈ cs, c.end = t} i.end

/-! ## Points -/

@[simp] theorem covers_nil (t : α) : ¬ Covers ([] : List (Interval α)) t := by
  simp [Covers]

theorem has_overlap {a b : Interval α} {t : α} :
    (overlap a b).Has t ↔ a.Has t ∧ b.Has t := by
  simp only [Interval.Has, overlap, max_le_iff, lt_min_iff]
  tauto

theorem Interval.Has.proper {i : Interval α} {t : α} (h : i.Has t) : i.start < i.end :=
  lt_of_le_of_lt h.1 h.2

theorem mem_row {a i : Interval α} {Y : List (Interval α)} :
    i ∈ row a Y ↔ ∃ b ∈ Y, overlap a b = i ∧ i.start < i.end := by
  simp only [row, List.mem_filterMap]
  constructor
  · rintro ⟨b, hb, h⟩
    split at h
    · cases h; exact ⟨b, hb, rfl, ‹_›⟩
    · cases h
  · rintro ⟨b, hb, rfl, hp⟩
    exact ⟨b, hb, if_pos hp⟩

theorem mem_meet {i : Interval α} {X Y : List (Interval α)} :
    i ∈ meet X Y ↔ ∃ a ∈ X, ∃ b ∈ Y, overlap a b = i ∧ i.start < i.end := by
  simp [meet, mem_row]

theorem covers_meet {X Y : List (Interval α)} {t : α} :
    Covers (meet X Y) t ↔ Covers X t ∧ Covers Y t := by
  constructor
  · rintro ⟨i, hi, ht⟩
    obtain ⟨a, ha, b, hb, rfl, _⟩ := mem_meet.mp hi
    have := has_overlap.mp ht
    exact ⟨⟨a, ha, this.1⟩, ⟨b, hb, this.2⟩⟩
  · rintro ⟨⟨a, ha, hat⟩, ⟨b, hb, hbt⟩⟩
    have ht := has_overlap.mpr ⟨hat, hbt⟩
    exact ⟨overlap a b, mem_meet.mpr ⟨a, ha, b, hb, rfl, ht.proper⟩, ht⟩

theorem covers_foldl_meet (Ls : List (List (Interval α))) (X : List (Interval α)) (t : α) :
    Covers (Ls.foldl meet X) t ↔ Covers X t ∧ ∀ L ∈ Ls, Covers L t := by
  induction Ls generalizing X with
  | nil => simp
  | cons L Ls ih => simp only [List.foldl_cons, ih, covers_meet, List.forall_mem_cons]; tauto

theorem covers_meetAll {Ls : List (List (Interval α))} (hne : Ls ≠ []) (t : α) :
    Covers (meetAll Ls) t ↔ ∀ L ∈ Ls, Covers L t := by
  cases Ls with
  | nil => exact absurd rfl hne
  | cons L Ls => simp only [meetAll, covers_foldl_meet, List.forall_mem_cons]

theorem eq_nil_of_not_covers {L : List (Interval α)} (hp : ∀ i ∈ L, i.start < i.end)
    (h : ∀ t, ¬ Covers L t) : L = [] := by
  cases L with
  | nil => rfl
  | cons i L => exact absurd ⟨i, by simp, le_refl _, hp i (by simp)⟩ (h i.start)

/-! ## Overlaps of many -/

theorem isOverlap_singleton (a : Interval α) : IsOverlap a [a] := by
  constructor
  · exact ⟨⟨a, by simp, rfl⟩, by rintro t ⟨c, hc, rfl⟩; rw [List.mem_singleton.mp hc]⟩
  · exact ⟨⟨a, by simp, rfl⟩, by rintro t ⟨c, hc, rfl⟩; rw [List.mem_singleton.mp hc]⟩

/-- The overlap of two of them may be taken first. -/
theorem IsOverlap.expand {i a b : Interval α} {cs : List (Interval α)}
    (h : IsOverlap i (overlap a b :: cs)) : IsOverlap i (a :: b :: cs) := by
  have hstart : max a.start b.start ≤ i.start := h.start.2 ⟨overlap a b, by simp, rfl⟩
  have hend : i.end ≤ min a.end b.end := h.end.2 ⟨overlap a b, by simp, rfl⟩
  constructor
  · refine ⟨?_, ?_⟩
    · obtain ⟨c, hc, heq⟩ := h.start.1
      rcases List.mem_cons.mp hc with rfl | hc
      · rcases max_choice a.start b.start with hmax | hmax
        · exact ⟨a, by simp, hmax.symm.trans heq⟩
        · exact ⟨b, by simp, hmax.symm.trans heq⟩
      · exact ⟨c, by simp [hc], heq⟩
    · rintro t ⟨c, hc, rfl⟩
      rcases List.mem_cons.mp hc with rfl | hc
      · exact le_trans (le_max_left _ _) hstart
      · rcases List.mem_cons.mp hc with rfl | hc
        · exact le_trans (le_max_right _ _) hstart
        · exact h.start.2 ⟨c, by simp [hc], rfl⟩
  · refine ⟨?_, ?_⟩
    · obtain ⟨c, hc, heq⟩ := h.end.1
      rcases List.mem_cons.mp hc with rfl | hc
      · rcases min_choice a.end b.end with hmin | hmin
        · exact ⟨a, by simp, hmin.symm.trans heq⟩
        · exact ⟨b, by simp, hmin.symm.trans heq⟩
      · exact ⟨c, by simp [hc], heq⟩
    · rintro t ⟨c, hc, rfl⟩
      rcases List.mem_cons.mp hc with rfl | hc
      · exact le_trans hend (min_le_left _ _)
      · rcases List.mem_cons.mp hc with rfl | hc
        · exact le_trans hend (min_le_right _ _)
        · exact h.end.2 ⟨c, by simp [hc], rfl⟩

/-- Every interval of a fold is the overlap of one interval of each list. -/
theorem isOverlap_of_mem_foldl {Ls : List (List (Interval α))} {X : List (Interval α)}
    {i : Interval α} (h : i ∈ Ls.foldl meet X) :
    ∃ a ∈ X, ∃ cs, List.Forall₂ (fun c L => c ∈ L) cs Ls ∧ IsOverlap i (a :: cs) := by
  induction Ls generalizing X with
  | nil => exact ⟨i, h, [], .nil, isOverlap_singleton i⟩
  | cons L Ls ih =>
    obtain ⟨m, hm, cs, hcs, hover⟩ := ih h
    obtain ⟨a, ha, b, hb, rfl, _⟩ := mem_meet.mp hm
    exact ⟨a, ha, b :: cs, .cons hb hcs, hover.expand⟩

/-- From the second list on, the fold keeps proper intervals only. -/
theorem proper_foldl_meet {Ls : List (List (Interval α))} {X : List (Interval α)}
    (hX : ∀ i ∈ X, i.start < i.end) : ∀ i ∈ Ls.foldl meet X, i.start < i.end := by
  induction Ls generalizing X with
  | nil => exact hX
  | cons L Ls ih =>
    refine ih fun i hi => ?_
    obtain ⟨_, _, _, _, _, hp⟩ := mem_meet.mp hi
    exact hp

/-! ## Associativity -/

theorem overlap_assoc (a b c : Interval α) :
    overlap (overlap a b) c = overlap a (overlap b c) := by
  simp [overlap, max_assoc, min_assoc]

theorem overlap_comm (a b : Interval α) : overlap a b = overlap b a := by
  simp [overlap, max_comm, min_comm]

theorem proper_of_overlap {a b : Interval α} (h : (overlap a b).start < (overlap a b).end) :
    a.start < a.end ∧ b.start < b.end := by
  simp only [overlap, max_lt_iff, lt_min_iff] at h
  exact ⟨h.1.1, h.2.2⟩

@[simp] theorem row_nil (a : Interval α) : row a [] = [] := rfl

theorem row_cons (a b : Interval α) (Y : List (Interval α)) :
    row a (b :: Y) =
      (if (overlap a b).start < (overlap a b).end then [overlap a b] else []) ++ row a Y := by
  by_cases h : (overlap a b).start < (overlap a b).end <;> simp [row, h]

theorem row_eq_flatMap (a : Interval α) (Y : List (Interval α)) :
    row a Y =
      Y.flatMap fun b => if (overlap a b).start < (overlap a b).end then [overlap a b] else [] := by
  induction Y with
  | nil => rfl
  | cons b Y ih => rw [row_cons, List.flatMap_cons, ih]

theorem row_append (a : Interval α) (Y Z : List (Interval α)) :
    row a (Y ++ Z) = row a Y ++ row a Z := by
  simp [row]

@[simp] theorem meet_nil_left (Y : List (Interval α)) : meet [] Y = [] := rfl

@[simp] theorem meet_nil_right (X : List (Interval α)) : meet X [] = [] := by
  simp [meet]

theorem meet_cons (a : Interval α) (X Y : List (Interval α)) :
    meet (a :: X) Y = row a Y ++ meet X Y := rfl

theorem row_row (a b : Interval α) (Z : List (Interval α)) :
    row a (row b Z) =
      if (overlap a b).start < (overlap a b).end then row (overlap a b) Z else [] := by
  induction Z with
  | nil => simp
  | cons c Z ih =>
    rw [row_cons, row_append, ih, row_cons, overlap_assoc]
    by_cases habc : (overlap a (overlap b c)).start < (overlap a (overlap b c)).end
    · have hbc := (proper_of_overlap habc).2
      have hab := (proper_of_overlap (overlap_assoc a b c ▸ habc)).1
      simp [row_cons, habc, hbc, hab]
    · by_cases hbc : (overlap b c).start < (overlap b c).end <;> simp [row_cons, habc, hbc]

theorem row_meet (a : Interval α) (Y Z : List (Interval α)) :
    row a (meet Y Z) = meet (row a Y) Z := by
  induction Y with
  | nil => simp
  | cons b Y ih =>
    rw [meet_cons, row_append, ih, row_row, row_cons]
    by_cases h : (overlap a b).start < (overlap a b).end <;> simp [h, meet_cons]

theorem meet_assoc (X Y Z : List (Interval α)) : meet (meet X Y) Z = meet X (meet Y Z) := by
  induction X with
  | nil => simp
  | cons a X ih =>
    rw [meet_cons, meet_cons, row_meet, ← ih]
    simp [meet]

/-! ## Spaced lists -/

/-- A relation between the end of an interval and a later start that stays true when the end moves
back and the start moves on. -/
structure IsGap (r : α → α → Prop) : Prop where
  le : ∀ {x y}, r x y → x ≤ y
  widen : ∀ {x y z w}, x ≤ y → r y z → z ≤ w → r x w

theorem isGap_le : IsGap (α := α) (· ≤ ·) :=
  ⟨id, fun hxy hyz hzw => le_trans hxy (le_trans hyz hzw)⟩

theorem isGap_lt : IsGap (α := α) (· < ·) :=
  ⟨le_of_lt, fun hxy hyz hzw => lt_of_le_of_lt hxy (lt_of_lt_of_le hyz hzw)⟩

/-- Every interval is proper, and its end is related to the start of every later one. -/
structure SpacedBy (r : α → α → Prop) (L : List (Interval α)) : Prop where
  proper : ∀ i ∈ L, i.start < i.end
  spaced : L.Pairwise (fun a b => r a.end b.start)

section

variable {r : α → α → Prop}

theorem SpacedBy.nil : SpacedBy r ([] : List (Interval α)) := ⟨by simp, by simp⟩

theorem SpacedBy.sublist {L M : List (Interval α)} (h : SpacedBy r M) (hs : L.Sublist M) :
    SpacedBy r L :=
  ⟨fun i hi => h.proper i (hs.subset hi), h.spaced.sublist hs⟩

/-- On proper intervals it is enough to look at neighbours. -/
theorem spacedBy_of_isChain (hr : IsGap r) {L : List (Interval α)}
    (hp : ∀ i ∈ L, i.start < i.end) (h : L.IsChain fun a b => r a.end b.start) :
    SpacedBy r L := by
  refine ⟨hp, ?_⟩
  induction L with
  | nil => exact List.Pairwise.nil
  | cons a L ih =>
    have htail := ih (fun i hi => hp i (List.mem_cons_of_mem a hi)) h.tail
    refine List.pairwise_cons.mpr ⟨?_, htail⟩
    cases L with
    | nil => simp
    | cons b L =>
      have hab : r a.end b.start := (List.isChain_cons_cons.mp h).1
      intro c hc
      rcases List.mem_cons.mp hc with rfl | hc
      · exact hab
      · have hb : b.start < b.end := hp b (by simp)
        have hbc : r b.end c.start := (List.pairwise_cons.mp htail).1 c hc
        exact hr.widen (le_refl _) hab (le_trans hb.le (hr.le hbc))

theorem SpacedBy.row (hr : IsGap r) {a : Interval α} {Y : List (Interval α)} (hY : SpacedBy r Y) :
    SpacedBy r (row a Y) := by
  refine ⟨fun i hi => (mem_row.mp hi).choose_spec.2.2, ?_⟩
  refine List.Pairwise.filterMap _ ?_ hY.spaced
  intro b c hbc i hi j hj
  split at hi <;> cases hi
  split at hj <;> cases hj
  exact hr.widen (min_le_right _ _) hbc (le_max_right _ _)

theorem SpacedBy.meet (hr : IsGap r) {X Y : List (Interval α)} (hX : SpacedBy r X)
    (hY : SpacedBy r Y) : SpacedBy r (meet X Y) := by
  refine ⟨?_, ?_⟩
  · intro i hi
    obtain ⟨_, _, _, _, _, hp⟩ := mem_meet.mp hi
    exact hp
  · refine List.pairwise_flatMap.mpr ⟨fun a _ => (hY.row hr).spaced, ?_⟩
    refine hX.spaced.imp ?_
    intro a a' haa i hi j hj
    obtain ⟨b, _, rfl, _⟩ := mem_row.mp hi
    obtain ⟨b', _, rfl, _⟩ := mem_row.mp hj
    exact hr.widen (min_le_left _ _) haa (le_max_left _ _)

theorem SpacedBy.foldl_meet (hr : IsGap r) {Ls : List (List (Interval α))} {X : List (Interval α)}
    (hX : SpacedBy r X) (hLs : ∀ L ∈ Ls, SpacedBy r L) :
    SpacedBy r (Ls.foldl Intervals.meet X) := by
  induction Ls generalizing X with
  | nil => exact hX
  | cons L Ls ih =>
    exact ih (hX.meet hr (hLs L (by simp))) fun M hM => hLs M (by simp [hM])

theorem spacedBy_meetAll (hr : IsGap r) {Ls : List (List (Interval α))}
    (h : ∀ L ∈ Ls, SpacedBy r L) : SpacedBy r (meetAll Ls) := by
  cases Ls with
  | nil => exact SpacedBy.nil
  | cons L Ls => exact (h L (by simp)).foldl_meet hr fun M hM => h M (by simp [hM])

end

theorem separated_iff {L : List (Interval α)} : Separated L ↔ SpacedBy (· ≤ ·) L :=
  ⟨fun h => spacedBy_of_isChain isGap_le h.proper h.ordered, fun h => ⟨h.proper, h.spaced.isChain⟩⟩

theorem apart_iff {L : List (Interval α)} : Apart L ↔ SpacedBy (· < ·) L :=
  ⟨fun h => spacedBy_of_isChain isGap_lt h.proper h.ordered, fun h => ⟨h.proper, h.spaced.isChain⟩⟩

/-! ## Separated lists -/

theorem Separated.nil : Separated ([] : List (Interval α)) := separated_iff.mpr SpacedBy.nil

theorem Separated.tail {a : Interval α} {L : List (Interval α)} (h : Separated (a :: L)) :
    Separated L :=
  ⟨fun i hi => h.proper i (by simp [hi]), h.ordered.tail⟩

theorem Separated.pairwise {L : List (Interval α)} (h : Separated L) :
    L.Pairwise (fun a b => a.end ≤ b.start) :=
  (separated_iff.mp h).spaced

theorem Separated.head_le {a : Interval α} {L : List (Interval α)} (h : Separated (a :: L)) :
    ∀ b ∈ L, a.end ≤ b.start :=
  (List.pairwise_cons.mp h.pairwise).1

theorem Separated.sublist {L M : List (Interval α)} (h : Separated M) (hs : L.Sublist M) :
    Separated L :=
  separated_iff.mpr ((separated_iff.mp h).sublist hs)

theorem Separated.starts {L : List (Interval α)} (h : Separated L) :
    L.Pairwise (fun a b => a.start < b.start) :=
  h.pairwise.imp_of_mem fun ha _ hab => lt_of_lt_of_le (h.proper _ ha) hab

theorem Separated.ext {L M : List (Interval α)} (hL : Separated L) (hM : Separated M)
    (h : ∀ i, i ∈ L ↔ i ∈ M) : L = M := by
  have nodup : ∀ {N : List (Interval α)}, Separated N → N.Nodup := fun hN =>
    hN.starts.imp fun hlt heq => absurd (heq ▸ hlt) (lt_irrefl _)
  refine List.Perm.eq_of_pairwise ?_ hL.starts hM.starts
    ((List.perm_ext_iff_of_nodup (nodup hL) (nodup hM)).mpr h)
  intro a b _ _ hab hba
  exact absurd hab (lt_asymm hba)

theorem Separated.meet {X Y : List (Interval α)} (hX : Separated X) (hY : Separated Y) :
    Separated (meet X Y) :=
  separated_iff.mpr ((separated_iff.mp hX).meet isGap_le (separated_iff.mp hY))

theorem meet_comm {X Y : List (Interval α)} (hX : Separated X) (hY : Separated Y) :
    meet X Y = meet Y X := by
  refine Separated.ext (hX.meet hY) (hY.meet hX) ?_
  intro i
  simp only [mem_meet]
  constructor
  · rintro ⟨a, ha, b, hb, rfl, hp⟩
    exact ⟨b, hb, a, ha, overlap_comm b a, hp⟩
  · rintro ⟨b, hb, a, ha, rfl, hp⟩
    exact ⟨a, ha, b, hb, overlap_comm a b, hp⟩

/-- The order of the lists does not matter to the fold, as equality of lists. -/
theorem meetAll_perm {Ks Ls : List (List (Interval α))} (hp : Ks.Perm Ls)
    (h : ∀ L ∈ Ks, Separated L) : meetAll Ks = meetAll Ls := by
  have comm : ∀ Ms : List (List (Interval α)), (∀ L ∈ Ms, Separated L) →
      ∀ X ∈ Ms, ∀ Y ∈ Ms, ∀ Z, meet (meet Z X) Y = meet (meet Z Y) X := by
    intro Ms hMs X hX Y hY Z
    rw [meet_assoc, meet_comm (hMs X hX) (hMs Y hY), ← meet_assoc]
  induction hp with
  | nil => rfl
  | @cons L Ks Ls hp _ =>
    exact hp.foldl_eq' (comm Ks fun M hM => h M (by simp [hM])) L
  | swap X Y Ls =>
    simp only [meetAll, List.foldl_cons]
    rw [meet_comm (h Y (by simp)) (h X (by simp))]
  | @trans Ks Ms Ls h₁ _ ih₁ ih₂ =>
    exact (ih₁ h).trans (ih₂ fun L hL => h L (h₁.mem_iff.mpr hL))

/-! ## Size -/

theorem row_eq_nil {a : Interval α} {Y : List (Interval α)} (h : ∀ b ∈ Y, a.end ≤ b.start) :
    row a Y = [] := by
  refine List.eq_nil_iff_forall_not_mem.mpr ?_
  intro i hi
  obtain ⟨b, hb, rfl, hp⟩ := mem_row.mp hi
  have h₁ : b.start < a.end :=
    lt_of_le_of_lt (le_max_right _ _) (lt_of_lt_of_le hp (min_le_left _ _))
  exact absurd h₁ (not_lt.mpr (h b hb))

/-- The staircase step: if `a` ends first, it meets only the first interval of `Y`. -/
theorem length_row_le_one {a b : Interval α} {Y : List (Interval α)} (hY : Separated (b :: Y))
    (hab : a.end ≤ b.end) : (row a (b :: Y)).length ≤ 1 := by
  have hrest : row a Y = [] := row_eq_nil fun c hc => le_trans hab (hY.head_le c hc)
  rw [row_cons, hrest]
  split <;> simp

/-- Two non-empty separated lists have at most `|X| + |Y| - 1` overlaps: each overlap uses up
the end of an interval of one of them, and the last ends are used together. -/
theorem length_meet {X Y : List (Interval α)} (hX : Separated X) (hY : Separated Y)
    (hXne : X ≠ []) (hYne : Y ≠ []) : (meet X Y).length + 1 ≤ X.length + Y.length := by
  have key : ∀ n, ∀ X Y : List (Interval α), X.length + Y.length = n → Separated X →
      Separated Y → X ≠ [] → Y ≠ [] → (meet X Y).length + 1 ≤ X.length + Y.length := by
    intro n
    induction n with
    | zero => intro X Y hn _ _ hne; simp_all
    | succ n ih =>
      -- drop the head that ends first; on equal footing by commutativity
      have step : ∀ (a b : Interval α) (X Y : List (Interval α)),
          (a :: X).length + (b :: Y).length = n + 1 → Separated (a :: X) → Separated (b :: Y) →
          a.end ≤ b.end →
          (meet (a :: X) (b :: Y)).length + 1 ≤ (a :: X).length + (b :: Y).length := by
        intro a b X Y hn hX hY hab
        have hrow := length_row_le_one hY hab
        rw [meet_cons, List.length_append]
        by_cases hne : X = []
        · subst hne; simp only [meet_nil_left, List.length_nil, List.length_cons]; omega
        · have := ih X (b :: Y) (by simp only [List.length_cons] at hn ⊢; omega) hX.tail hY hne
            (by simp)
          simp only [List.length_cons] at this ⊢; omega
      intro X Y hn hX hY hXne hYne
      obtain ⟨a, X, rfl⟩ := List.exists_cons_of_ne_nil hXne
      obtain ⟨b, Y, rfl⟩ := List.exists_cons_of_ne_nil hYne
      rcases le_total a.end b.end with hab | hba
      · exact step a b X Y hn hX hY hab
      · have := step b a Y X (by omega) hY hX hba
        rw [meet_comm hX hY]; omega
  exact key _ X Y rfl hX hY hXne hYne

theorem length_foldl_meet {m : Nat} {Ls : List (List (Interval α))} {X : List (Interval α)}
    (hX : Separated X) (hLs : ∀ L ∈ Ls, Separated L) (hm : ∀ L ∈ Ls, L.length ≤ m + 1) :
    (Ls.foldl meet X).length ≤ X.length + m * Ls.length := by
  induction Ls generalizing X with
  | nil => simp
  | cons L Ls ih =>
    have hL := hLs L (by simp)
    have hstep : (meet X L).length ≤ X.length + m := by
      by_cases hXne : X = []
      · subst hXne; simp
      · by_cases hLne : L = []
        · subst hLne; simp
        · have := length_meet hX hL hXne hLne
          have := hm L (by simp)
          omega
    have := ih (hX.meet hL) (fun M hM => hLs M (by simp [hM])) (fun M hM => hm M (by simp [hM]))
    simp only [List.foldl_cons, List.length_cons, Nat.mul_add, Nat.mul_one]
    omega

theorem length_meetAll {m : Nat} {Ls : List (List (Interval α))} (h : ∀ L ∈ Ls, Separated L)
    (hm : ∀ L ∈ Ls, L.length ≤ m + 1) : (meetAll Ls).length ≤ m * Ls.length + 1 := by
  cases Ls with
  | nil => simp [meetAll]
  | cons L Ls =>
    have htail : ∀ M ∈ Ls, M ∈ L :: Ls := fun M hM => List.mem_cons_of_mem L hM
    have hfold := length_foldl_meet (h L (by simp)) (fun M hM => h M (htail M hM))
      fun M hM => hm M (htail M hM)
    have hhead := hm L (by simp)
    simp only [meetAll, List.length_cons, Nat.mul_add, Nat.mul_one]
    omega

end Intervals
