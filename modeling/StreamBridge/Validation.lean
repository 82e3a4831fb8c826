import Mathlib.Data.List.Dedup
import StreamBridge.Buffers

/-!
# StreamBridge.Validation

What `checkInput` decides about an input line, against what it is for: a request is valid when it
has only lower-case letters, digits and whitespace, and one to ten words, all different. `getVector`
takes as many words as it counts spaces, and `eraseSpaces` leaves one space at either end.

* `countSpaces_eraseSpaces`: the spaces that are left are one fewer than the words, and one more for
  each end of the string that is a space.
* `getVector_eq_take`: so many of the words are taken, and a missing one is a NULL token.
* `input_validation`: the lines that are decided rightly.
-/

namespace StreamBridge
namespace Client

open CString

/-- A request that the client should send. -/
structure Valid (str : Bytes) : Prop where
  chars : ∀ c ∈ str, isLowerAlnum c = true ∨ isspace c = true
  nonempty : words space str ≠ []
  atMostTen : (words space str).length ≤ 10
  unique : (words space str).Nodup

/-- `checkInput` completes, accepts the string exactly when it is valid, and keeps its names. -/
def Validates (input_list : List Bytes) (str : Bytes) : Prop :=
  ∃ ok list, checkInput input_list str = some (ok, list) ∧ (ok = true ↔ Valid str) ∧
    (ok = true → list = words space str)

/-! ## The checks -/

theorem checks_char (c : Byte) :
    (!isupper c && !(!isspace c && !isalnum c)) = true ↔
      isLowerAlnum c = true ∨ isspace c = true := by
  simp only [isupper, isspace, isalnum, isLowerAlnum]
  grind

theorem checks_eraseSpaces (str : Bytes) :
    (checkCase (eraseSpaces str) && checkSpecials (eraseSpaces str)) = true ↔
      ∀ c ∈ str, isLowerAlnum c = true ∨ isspace c = true := by
  rw [Bool.and_eq_true, checkCase, checkSpecials, List.all_eq_true, List.all_eq_true, ← forall₂_and]
  simp only [mem_eraseSpaces, ← Bool.and_eq_true, checks_char]

theorem checkUnique_iff (list : List Bytes) : checkUnique list = true ↔ list.Nodup := by
  rw [checkUnique, beq_iff_eq]
  constructor
  · intro h
    rw [← (List.dedup_sublist list).eq_of_length h]
    exact List.nodup_dedup list
  · intro h
    rw [h.dedup]

/-! ## Spaces and words -/

/-- The spaces at the two ends of a string. -/
def endSpaces (str : Bytes) : Nat :=
  (if str.head? = some space then 1 else 0) + (if str.getLast? = some space then 1 else 0)

theorem head_eraseSpaces (str : Bytes) : (eraseSpaces str).head? = str.head? := by
  fun_induction eraseSpaces str with
  | case1 => rfl
  | case2 a => rfl
  | case3 a b str hab ih => rw [ih, List.head?_cons, List.head?_cons, hab.1, hab.2]
  | case4 a b str _ ih => rfl

theorem words_eraseSpaces (str : Bytes) : words space (eraseSpaces str) = words space str := by
  fun_induction eraseSpaces str with
  | case1 => rfl
  | case2 a => rfl
  | case3 a b str hab ih => rw [ih, hab.1, words_delim]
  | case4 a b str hab ih =>
    have hhead := head_eraseSpaces (b :: str)
    by_cases ha : a = space
    · rw [ha, words_delim, words_delim, ih]
    · by_cases hb : b = space
      · have hdelim : ∀ t : Bytes, t.head? = some b → words space (a :: t) = [a] :: words space t :=
          fun t ht => words_cons_delim ha fun c hc => by rw [ht] at hc; cases hc; exact hb
        rw [hdelim _ hhead, hdelim (b :: str) rfl, ih]
      · obtain ⟨t, ht⟩ : ∃ t, eraseSpaces (b :: str) = b :: t := by
          cases he : eraseSpaces (b :: str) with
          | nil => rw [he] at hhead; cases hhead
          | cons c t =>
            rw [he] at hhead
            cases hhead
            exact ⟨t, rfl⟩
        rw [ht] at ih ⊢
        rw [words_cons_word ha hb, words_cons_word ha hb, ih]

theorem countSpaces_eraseSpaces {str : Bytes} (h : str ≠ []) :
    countSpaces (eraseSpaces str) + 1 = (words space str).length + endSpaces str := by
  fun_induction eraseSpaces str with
  | case1 => exact absurd rfl h
  | case2 a =>
    by_cases ha : a = space
    · rw [ha]
      rfl
    · rw [words_word (by simp) (by simpa using Ne.symm ha)]
      simp [countSpaces, endSpaces, ha]
  | case3 a b str hab ih =>
    rw [ih (by simp), hab.1, hab.2, words_delim, words_delim]
    simp [endSpaces, words_delim]
  | case4 a b str hab ih =>
    have hrest := ih (by simp)
    have hends : endSpaces (b :: str) + (if a = space then 1 else 0) =
        endSpaces (a :: b :: str) + if b = space then 1 else 0 := by
      simp only [endSpaces, List.head?_cons, List.getLast?_cons_cons, Option.some.injEq]
      omega
    have hcount : countSpaces (a :: eraseSpaces (b :: str)) =
        countSpaces (eraseSpaces (b :: str)) + if a = space then 1 else 0 := by
      simp [countSpaces, List.count_cons]
    rw [hcount]
    by_cases ha : a = space
    · have hb : b ≠ space := fun hb => hab ⟨ha, hb⟩
      have hwords : words space (a :: b :: str) = words space (b :: str) := by
        rw [ha, words_delim]
      rw [if_pos ha, if_neg hb] at hends
      rw [if_pos ha, hwords]
      omega
    · rw [if_neg ha] at hends ⊢
      by_cases hb : b = space
      · rw [if_pos hb] at hends
        rw [words_cons_delim ha fun c hc => by cases hc; exact hb, List.length_cons]
        omega
      · rw [if_neg hb] at hends
        rw [words_cons_word ha hb, List.length_modifyHead]
        omega

/-- The tokens after the first word are words, so no newline is erased from them. -/
theorem tokens_eraseNewlines {str s' w : Bytes} (hnewline : newline ∉ str) (h0 : 0 ∉ s')
    (hwords : words space str = w :: words space s') (n : Nat) :
    (tokens space n (s' ++ [0])).map (fun p => p.1.map eraseNewlines) =
      (tokens space n (s' ++ [0])).map (·.1) := by
  have htokens := tokens_words space_ne_zero h0 [] n
  cases hp : tokens space n (s' ++ [0]) with
  | none => rfl
  | some p =>
    rw [hp, Option.map_some] at htokens
    have hnames : ∀ name ∈ p.1, newline ∉ name := by
      intro name hname hc
      split at htokens
      · rw [Option.some.injEq] at htokens
        rw [htokens] at hname
        have hmem : name ∈ words space str := by
          rw [hwords]
          exact List.mem_cons_of_mem w (List.mem_of_mem_take hname)
        exact hnewline ((mem_words hmem).2.2 hc)
      · cases htokens
    rw [Option.map_some, Option.map_some, map_eraseNewlines hnames]

/-- `getVector` takes one word for each space, and one if there is none. -/
theorem getVector_eq_take {str : Bytes} (h0 : 0 ∉ str) (hnewline : newline ∉ str)
    (hlen : str.length ≤ 1023) :
    getVector str =
      if max 1 (countSpaces str) ≤ (words space str).length then
        some ((words space str).take (max 1 (countSpaces str)))
      else none := by
  have hcount : max 1 (countSpaces str) = countSpaces str - 1 + 1 := by omega
  rw [← tokens_words space_ne_zero h0 [], hcount, tokens, ← Backend.getVector_eq, Backend.getVector,
    strcpy_fits h0 (by omega)]
  simp only [Option.bind_eq_bind, Option.bind_some]
  rcases strtok_words space_ne_zero h0 [] with ⟨_, hnull⟩ | ⟨w, s', hfirst, hwords, h0'⟩
  · rw [hnull]
    rfl
  · have hrest := tokens_eraseNewlines hnewline h0' hwords (countSpaces str - 1)
    simp only [hfirst, Option.bind_some]
    cases hp : tokens space (countSpaces str - 1) (s' ++ [0]) with
    | none => rfl
    | some p =>
      rw [hp, Option.map_some, Option.map_some, Option.some.injEq] at hrest
      simp only [Option.bind_some, Option.map_some, hrest]

/-! ## The verdict -/

theorem checkInput_of_chars (input_list : List Bytes) {str : Bytes}
    (h : ∀ c ∈ str, isLowerAlnum c = true ∨ isspace c = true) :
    checkInput input_list str =
      (getVector (eraseSpaces str)).map fun list => (checkNum list && checkUnique list, list) := by
  have hchecks := (checks_eraseSpaces str).mpr h
  rw [Bool.and_eq_true] at hchecks
  simp only [checkInput, hchecks.1, hchecks.2, Bool.not_true, Bool.false_eq_true, if_false]
  cases getVector (eraseSpaces str) with
  | none => rfl
  | some list =>
    simp only [Option.bind_eq_bind, Option.bind_some, Option.map_some]
    cases checkNum list <;> cases checkUnique list <;> rfl

theorem checkInput_of_bad (input_list : List Bytes) {str : Bytes}
    (h : ¬ ∀ c ∈ str, isLowerAlnum c = true ∨ isspace c = true) :
    checkInput input_list str = some (false, input_list) := by
  rw [← checks_eraseSpaces] at h
  cases hcase : checkCase (eraseSpaces str) with
  | false => simp only [checkInput, hcase, Bool.not_false, if_true]
  | true =>
    cases hspecials : checkSpecials (eraseSpaces str) with
    | false => simp only [checkInput, hcase, hspecials, Bool.not_true, Bool.not_false,
        Bool.false_eq_true, if_false, if_true]
    | true => exact absurd (by rw [hcase, hspecials]; rfl) h

/-- The words `checkInput` looks at: as many as there are spaces left, and one at least. -/
def taken (str : Bytes) : Nat := max 1 (countSpaces (eraseSpaces str))

/-- What `checkInput` does with a string that has no character it rejects. -/
def Checks (input_list : List Bytes) (str : Bytes) : Prop :=
  checkInput input_list str =
    if taken str ≤ (words space str).length then
      some (checkNum ((words space str).take (taken str)) &&
        checkUnique ((words space str).take (taken str)), (words space str).take (taken str))
    else none

theorem newline_notMem_inputString (line : Bytes) : newline ∉ inputString line := by
  intro h
  obtain ⟨c, _, heq⟩ := List.mem_map.mp h
  split at heq
  · cases heq
  · contradiction

theorem checks_line (input_list : List Bytes) (line : Line)
    (h : ∀ c ∈ inputString line.bytes, isLowerAlnum c = true ∨ isspace c = true) :
    Checks input_list (inputString line.bytes) := by
  have hlen := (eraseSpaces_sublist (inputString line.bytes)).length_le
  have hline := length_inputString_le line.bytes
  have hmax := line.length_le
  rw [Checks, checkInput_of_chars input_list h, getVector_eq_take, words_eraseSpaces, ← taken]
  · split <;> rfl
  · exact fun h0 => noNul_inputString line.bytes (mem_eraseSpaces.mp h0)
  · exact fun h0 => newline_notMem_inputString line.bytes (mem_eraseSpaces.mp h0)
  · omega

theorem verdict_iff (list : List Bytes) :
    (checkNum list && checkUnique list) = true ↔ list.length ≤ 10 ∧ list.Nodup := by
  rw [Bool.and_eq_true, checkUnique_iff, checkNum, decide_eq_true_iff]

theorem valid_iff {str : Bytes} (h : ∀ c ∈ str, isLowerAlnum c = true ∨ isspace c = true)
    (hne : words space str ≠ []) :
    Valid str ↔ (words space str).length ≤ 10 ∧ (words space str).Nodup :=
  ⟨fun hvalid => ⟨hvalid.atMostTen, hvalid.unique⟩, fun hlist => ⟨h, hne, hlist.1, hlist.2⟩⟩

/-- Strings with a name whose spaces are counted rightly, or so that the miscount does not show: a
space at one end only; or none at either end, and then one name, or a list that is invalid even
without its last name. -/
def WellSpaced (str : Bytes) : Prop :=
  words space str ≠ [] ∧
    (endSpaces str = 1 ∨
      endSpaces str = 0 ∧ ((words space str).length = 1 ∨
        ¬ ((words space str).dropLast.length ≤ 10 ∧ (words space str).dropLast.Nodup)))

section Verdict

variable {input_list : List Bytes} {str : Bytes}

/-- All words are taken. -/
theorem Checks.all (hcheck : Checks input_list str)
    (hvalid : Valid str ↔ (words space str).length ≤ 10 ∧ (words space str).Nodup)
    (h : taken str = (words space str).length) : Validates input_list str := by
  rw [Checks, h, if_pos le_rfl, List.take_length] at hcheck
  exact ⟨_, _, hcheck, (verdict_iff _).trans hvalid.symm, fun _ => rfl⟩

/-- The last word is left out: the string is decided rightly when the others are rejected. -/
theorem Checks.dropLast (hcheck : Checks input_list str)
    (hvalid : Valid str ↔ (words space str).length ≤ 10 ∧ (words space str).Nodup)
    (h : taken str + 1 = (words space str).length) :
    Validates input_list str ↔
      ¬ ((words space str).dropLast.length ≤ 10 ∧ (words space str).dropLast.Nodup) := by
  have htake : (words space str).take (taken str) = (words space str).dropLast := by
    rw [List.dropLast_eq_take, ← h, Nat.add_sub_cancel]
  rw [Checks, if_pos (by omega), htake] at hcheck
  constructor
  · rintro ⟨ok, list, hresult, _, hlist⟩ hothers
    rw [hcheck] at hresult
    cases hresult
    have hall := congrArg List.length (hlist ((verdict_iff _).mpr hothers))
    rw [List.length_dropLast] at hall
    omega
  · intro hothers
    refine ⟨_, _, hcheck, iff_of_false (fun h => hothers ((verdict_iff _).mp h)) ?_, fun h =>
      absurd ((verdict_iff _).mp h) hothers⟩
    intro hv
    obtain ⟨hten, hnodup⟩ := hvalid.mp hv
    refine hothers ⟨?_, hnodup.sublist (List.dropLast_sublist _)⟩
    rw [List.length_dropLast]
    omega

/-- A word is missing. -/
theorem Checks.null (hcheck : Checks input_list str) (h : (words space str).length < taken str) :
    ¬ Validates input_list str := by
  rintro ⟨ok, list, hresult, _⟩
  rw [hcheck, if_neg (by omega)] at hresult
  cases hresult

theorem Checks.wellSpaced_iff (hcheck : Checks input_list str)
    (hchars : ∀ c ∈ str, isLowerAlnum c = true ∨ isspace c = true) :
    Validates input_list str ↔ WellSpaced str := by
  by_cases hne : words space str = []
  · refine iff_of_false (hcheck.null ?_) fun h => h.1 hne
    rw [hne, taken, List.length_nil]
    omega
  · have hstr : str ≠ [] := fun h => hne (by rw [h, words_nil])
    have hcount := countSpaces_eraseSpaces hstr
    have hpos := List.length_pos_iff.mpr hne
    have hvalid := valid_iff hchars hne
    have htaken : taken str = max 1 (countSpaces (eraseSpaces str)) := rfl
    rw [WellSpaced, and_iff_right hne]
    rcases lt_trichotomy (endSpaces str) 1 with hends | hends | hends
    · -- a space between any two words, and none besides
      by_cases hone : (words space str).length = 1
      · exact iff_of_true (hcheck.all hvalid (by omega)) (.inr ⟨by omega, .inl hone⟩)
      · rw [hcheck.dropLast hvalid (by omega)]
        simp [show endSpaces str = 0 by omega, hone]
    · exact iff_of_true (hcheck.all hvalid (by omega)) (.inl hends)
    · refine iff_of_false (hcheck.null (by omega)) ?_
      omega

end Verdict

/-- `checkInput` decides a line rightly exactly when it rejects a character of it, or the line is
well spaced. -/
theorem input_validation (input_list : List Bytes) (line : Line) :
    Validates input_list (inputString line.bytes) ↔
      (∃ c ∈ inputString line.bytes, ¬ (isLowerAlnum c = true ∨ isspace c = true)) ∨
        WellSpaced (inputString line.bytes) := by
  by_cases hchars : ∀ c ∈ inputString line.bytes, isLowerAlnum c = true ∨ isspace c = true
  · have hnone : ¬ ∃ c ∈ inputString line.bytes, ¬ (isLowerAlnum c = true ∨ isspace c = true) :=
      fun ⟨c, hc, hbad⟩ => hbad (hchars c hc)
    rw [or_iff_right hnone]
    exact (checks_line input_list line hchars).wellSpaced_iff hchars
  · have hbad := checkInput_of_bad input_list hchars
    refine iff_of_true ⟨false, input_list, hbad, ?_, by simp⟩ (.inl ?_)
    · simp only [Bool.false_eq_true, false_iff]
      exact fun hvalid => hchars hvalid.chars
    · simpa only [not_forall, exists_prop] using hchars

/-- `a b` at the end of the input: the last name has no space behind it and is left out. -/
example : checkInput [] (inputString [97, 32, 98]) = some (true, [[97]]) := by decide +kernel

/-- The line ` a`. -/
def spacedLine : Line := ⟨[32, 97, 10], by decide, by decide, by decide⟩

/-- Two spaces are counted, and there is no second name: `strtok` returns NULL. -/
theorem spaced_line_undecided :
    ¬ ∀ (input_list : List Bytes) (line : Line),
      Validates input_list (inputString line.bytes) := by
  intro h
  obtain ⟨ok, list, hresult, _⟩ := h [] spacedLine
  have hnull : checkInput [] (inputString spacedLine.bytes) = none := by decide +kernel
  rw [hnull] at hresult
  cases hresult

end Client
end StreamBridge
