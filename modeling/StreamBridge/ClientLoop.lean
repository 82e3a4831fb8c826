import StreamBridge.Screen
import StreamBridge.Validation

/-!
# StreamBridge.ClientLoop

The loop of `boot_up` in `client.h`, cut where it waits: in `fgets`, and in its two calls of `recv`.
Each piece gives what the client prints and sends before it waits again. The prompt is printed at
the loop head, so here it ends the pass before.

* `complaint_right`: the complaint about a line that is rejected names a defect that the line has.
-/

namespace StreamBridge

open CString Intervals

namespace Client

def prompt : Bytes := text "Please enter the usernames to check schedule availability: \n"

def newRequest : Bytes := text "-----Start a new request-----\n"

def notLowercase : Bytes := text "Input is not all Lowercases.\n"

def hasSpecials : Bytes := text "Input has Specials.\n"

def tooMany : Bytes := text "Input number of name exceeded the MAX.\n"

def duplicated : Bytes := text "Input has duplicated name.\n"

/-- What `checkInput` prints. -/
def complaint (str : Bytes) : Bytes :=
  let str := eraseSpaces str
  if !checkCase str then notLowercase
  else if !checkSpecials str then hasSpecials
  else
    match getVector str with
    | none => []
    | some input_list =>
      if !checkNum input_list then tooMany
      else if !checkUnique input_list then duplicated
      else []

/-- What `sendList` prints. -/
def finished : Bytes := text "Client finished sending the usernames to Main Server.\n"

/-- From `fgets` until the client waits again: what it prints, the new `input_list`, and the
message it sends if the line is accepted. -/
def enter (input_list : List Bytes) (line : Bytes) :
    Option (Bytes × List Bytes × Option Bytes) := do
  let input := inputString line
  let (ok, input_list) ← checkInput input_list input
  if !ok then some (complaint input ++ newRequest ++ prompt, input_list, none)
  else do
    let msg ← sendList input_list
    some (finished, input_list, some msg)

def doNotExist (str : Bytes) : Bytes :=
  text "Client received the reply from Main Server using TCP over port 24427:\n" ++ str ++
    text "do not exist.\n"

/-- What `recvNoExist` prints. -/
def shownNoExist (received : Bytes) : Option Bytes := do
  let str ← cstr (zeroFill 1024 received)
  if str.length = 0 then some [] else some (doNotExist str)

/-- From the second `recv` to the next `fgets`: what is printed of the result. -/
def shownResult (input_list no_exist : List Bytes) (result_final : List TimeInterval) : Bytes :=
  text "Client received the reply from Main Server using TCP over port: 24427:\nTime intervals " ++
    printIntersection result_final ++ text " works for " ++ getFinalUser input_list no_exist ++
    text "\n" ++ newRequest ++ prompt

/-- Where the client waits. -/
inductive Pc where
  | fgets (input_list : List Bytes)
  | recvNoExist (input_list : List Bytes)
  | recvResult (input_list no_exist : List Bytes)

/-! ## The complaints -/

theorem complaint_cases (str : Bytes) :
    (checkCase (eraseSpaces str) = false ∧ complaint str = notLowercase) ∨
      (checkCase (eraseSpaces str) = true ∧ checkSpecials (eraseSpaces str) = false ∧
        complaint str = hasSpecials) ∨
      (checkCase (eraseSpaces str) = true ∧ checkSpecials (eraseSpaces str) = true ∧
        (getVector (eraseSpaces str) = none ∧ complaint str = [] ∨
          ∃ list, getVector (eraseSpaces str) = some list ∧
            (10 < list.length ∧ complaint str = tooMany ∨
              ¬ list.Nodup ∧ complaint str = duplicated ∨
              list.length ≤ 10 ∧ list.Nodup ∧ complaint str = []))) := by
  cases hcase : checkCase (eraseSpaces str) with
  | false => exact .inl ⟨rfl, by simp only [complaint, hcase, Bool.not_false, if_true]⟩
  | true =>
    cases hspecials : checkSpecials (eraseSpaces str) with
    | false =>
      refine .inr (.inl ⟨rfl, rfl, ?_⟩)
      simp only [complaint, hcase, hspecials, Bool.not_true, Bool.not_false, Bool.false_eq_true,
        if_false, if_true]
    | true =>
      refine .inr (.inr ⟨rfl, rfl, ?_⟩)
      simp only [complaint, hcase, hspecials, Bool.not_true, Bool.false_eq_true, if_false]
      cases getVector (eraseSpaces str) with
      | none => exact .inl ⟨rfl, rfl⟩
      | some list =>
        refine .inr ⟨list, rfl, ?_⟩
        dsimp only
        cases hnum : checkNum list with
        | false =>
          have hmany : ¬ list.length ≤ 10 := of_decide_eq_false hnum
          exact .inl ⟨by omega, by simp⟩
        | true =>
          cases hunique : checkUnique list with
          | false =>
            refine .inr (.inl ⟨fun hnodup => ?_, by simp⟩)
            rw [(checkUnique_iff list).mpr hnodup] at hunique
            cases hunique
          | true =>
            exact .inr (.inr ⟨of_decide_eq_true hnum, (checkUnique_iff list).mp hunique, by simp⟩)

theorem checkCase_eraseSpaces (str : Bytes) :
    checkCase (eraseSpaces str) = false ↔ ∃ c ∈ str, isupper c = true := by
  simp only [checkCase, List.all_eq_false, mem_eraseSpaces, Bool.not_eq_true', Bool.not_eq_false]

theorem checkSpecials_eraseSpaces (str : Bytes) :
    checkSpecials (eraseSpaces str) = false ↔
      ∃ c ∈ str, isspace c = false ∧ isalnum c = false := by
  simp only [checkSpecials, List.all_eq_false, mem_eraseSpaces, Bool.not_eq_true',
    Bool.not_eq_false, Bool.and_eq_true]

/-- The names that are counted are the first words of the line. -/
theorem getVector_beginning (line : Line) {list : List Bytes}
    (h : getVector (eraseSpaces (inputString line.bytes)) = some list) :
    list <+: words space (inputString line.bytes) := by
  have hle : (eraseSpaces (inputString line.bytes)).length ≤ 1023 :=
    ((eraseSpaces_sublist _).length_le.trans (length_inputString_le line.bytes)).trans
      line.length_le
  rw [getVector_eq_take (fun h0 => noNul_inputString line.bytes (mem_eraseSpaces.mp h0))
    (fun h0 => newline_notMem_inputString line.bytes (mem_eraseSpaces.mp h0)) hle,
    words_eraseSpaces] at h
  split at h
  · rw [Option.some.injEq] at h
    exact h ▸ List.take_prefix _ _
  · cases h

/-- A complaint is never wrong: there is a capital letter exactly when the first one is printed, and
a special character, but no capital letter, exactly when the second one is; the third and the fourth
are printed only for lines with too many names and with a repeated one; and a rejected line gets
one of the four. -/
theorem complaint_right (line : Line) :
    (complaint (inputString line.bytes) = notLowercase ↔
        ∃ c ∈ inputString line.bytes, isupper c = true) ∧
      (complaint (inputString line.bytes) = hasSpecials ↔
        (¬ ∃ c ∈ inputString line.bytes, isupper c = true) ∧
          ∃ c ∈ inputString line.bytes, isspace c = false ∧ isalnum c = false) ∧
      (complaint (inputString line.bytes) = tooMany →
        10 < (words space (inputString line.bytes)).length) ∧
      (complaint (inputString line.bytes) = duplicated →
        ¬ (words space (inputString line.bytes)).Nodup) ∧
      ∀ input_list list, checkInput input_list (inputString line.bytes) = some (false, list) →
        complaint (inputString line.bytes) ∈ [notLowercase, hasSpecials, tooMany, duplicated] := by
  have hdistinct : [notLowercase, hasSpecials, tooMany, duplicated, []].Nodup := by decide +kernel
  simp only [List.nodup_cons, List.mem_cons, not_or] at hdistinct
  obtain ⟨⟨h12, h13, h14, h15, _⟩, ⟨h23, h24, h25, _⟩, ⟨h34, h35, _⟩, ⟨h45, _⟩, _⟩ := hdistinct
  rw [← checkCase_eraseSpaces, ← checkSpecials_eraseSpaces, Bool.not_eq_false]
  rcases complaint_cases (inputString line.bytes) with
    ⟨hcase, hprinted⟩ | ⟨hcase, hspecials, hprinted⟩ | ⟨hcase, hspecials, hlist⟩
  · rw [hprinted, hcase]
    simp [h12, h13, h14]
  · rw [hprinted, hcase, hspecials]
    simp [Ne.symm h12, h23, h24]
  · have hprinted : complaint (inputString line.bytes) ∈ [tooMany, duplicated, []] := by
      rcases hlist with ⟨_, h⟩ | ⟨_, _, ⟨_, h⟩ | ⟨_, h⟩ | ⟨_, _, h⟩⟩ <;> simp [h]
    have hfirst : complaint (inputString line.bytes) ≠ notLowercase := by
      intro h
      rw [h] at hprinted
      simp [h13, h14, h15] at hprinted
    have hsecond : complaint (inputString line.bytes) ≠ hasSpecials := by
      intro h
      rw [h] at hprinted
      simp [h23, h24, h25] at hprinted
    rw [hcase, hspecials]
    refine ⟨iff_of_false hfirst (by simp), iff_of_false hsecond (by simp), ?_, ?_, ?_⟩
    · intro hmany
      rw [hmany] at hlist
      rcases hlist with ⟨_, h⟩ | ⟨list, hvector, ⟨hlong, _⟩ | ⟨_, h⟩ | ⟨_, _, h⟩⟩
      · exact absurd h h35
      · exact hlong.trans_le (getVector_beginning line hvector).length_le
      · exact absurd h h34
      · exact absurd h h35
    · intro htwice hnodup
      rw [htwice] at hlist
      rcases hlist with ⟨_, h⟩ | ⟨list, hvector, ⟨_, h⟩ | ⟨hdup, _⟩ | ⟨_, _, h⟩⟩
      · exact absurd h h45
      · exact absurd h.symm h34
      · exact hdup (hnodup.sublist (getVector_beginning line hvector).sublist)
      · exact absurd h h45
    · intro input_list names hreject
      have hchars := (checks_eraseSpaces (inputString line.bytes)).mp
        (by rw [hcase, hspecials]; rfl)
      rw [checkInput_of_chars input_list hchars, Option.map_eq_some_iff] at hreject
      obtain ⟨list, hvector, heq⟩ := hreject
      rcases hlist with ⟨hnone, _⟩ | ⟨list', hvector', ⟨_, h⟩ | ⟨_, h⟩ | ⟨hten, hnodup, _⟩⟩
      · rw [hvector] at hnone
        cases hnone
      · simp [h]
      · simp [h]
      · rw [hvector, Option.some.injEq] at hvector'
        rw [hvector', (verdict_iff list').mpr ⟨hten, hnodup⟩] at heq
        cases heq

end Client
end StreamBridge
