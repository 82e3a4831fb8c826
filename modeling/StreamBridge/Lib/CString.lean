import Mathlib.Data.List.Basic
import Mathlib.Data.List.Flatten
import Mathlib.Data.List.TakeWhile
import Mathlib.Algebra.BigOperators.Group.List.Basic
import Mathlib.Algebra.GroupWithZero.Nat

/-!
# StreamBridge.Lib.CString

The C string functions on byte lists. A pointer is the list of bytes from where it points to the
end of its array, so a scan that meets no NUL in that list runs off the array. `none` is
everything C leaves undefined: such a scan, a copy that does not fit, the use of a NULL token.

* `cstr`, `strlen`, `strcpy`: NUL-terminated strings.
* `zeroFill`: an array cleared with `memset` and then written from its start.
* `strtok`, `tokens`: one call, and a number of calls in a row.
* `join`: words, each followed by a delimiter. `tokens_join` reads them back;
  `tokens_bound` bounds what any number of calls can return.
* `words`: the maximal runs of a string. `tokens_words`: any number of calls takes that many of
  them, or fails.
* `Stretches`: a property of every string that some part of a byte stream can hold.
-/

namespace CString

abbrev Byte := UInt8
abbrev Bytes := List UInt8

instance instLawfulBEqBytes : LawfulBEq Bytes := inferInstance

/-- The string a pointer denotes: the bytes before the first NUL. -/
def cstr (mem : Bytes) : Option Bytes :=
  if 0 ∈ mem then some (mem.takeWhile (· != 0)) else none

def strlen (mem : Bytes) : Option Nat := (cstr mem).map List.length

/-- `strcpy` of the string `s` into an array of `size` bytes; the bytes written. -/
def strcpy (size : Nat) (s : Bytes) : Option Bytes :=
  if (s.takeWhile (· != 0)).length < size then some (s.takeWhile (· != 0) ++ [0]) else none

/-- An array of `size` zero bytes after `bs` was written at its start. -/
def zeroFill (size : Nat) (bs : Bytes) : Bytes := bs ++ List.replicate (size - bs.length) 0

/-- One call of `strtok` with the single delimiter `d`: the token, and where the next call
starts. A token that ends at the NUL leaves the pointer on that NUL. -/
def strtok (d : Byte) (mem : Bytes) : Option (Bytes × Bytes) :=
  match mem.dropWhile (· == d) with
  | [] => none
  | c :: m =>
    if c = 0 then none
    else
      match (c :: m).dropWhile (fun x => x != d && x != 0) with
      | [] => none
      | e :: rest =>
        some ((c :: m).takeWhile (fun x => x != d && x != 0), if e = 0 then e :: rest else rest)

/-- `n` calls of `strtok` in a row, all of which return a token. -/
def tokens (d : Byte) : Nat → Bytes → Option (List Bytes × Bytes)
  | 0, mem => some ([], mem)
  | n + 1, mem => do
    let (t, mem') ← strtok d mem
    let (ts, mem'') ← tokens d n mem'
    some (t :: ts, mem'')

/-- The words of `ws`, each followed by `d`. -/
def join (d : Byte) (ws : List Bytes) : Bytes := ws.flatMap (· ++ [d])

/-- A word that `strtok` with delimiter `d` returns whole. -/
structure IsWord (d : Byte) (w : Bytes) : Prop where
  nonempty : w ≠ []
  noDelim : d ∉ w
  noNul : 0 ∉ w

/-! ## NUL-terminated strings -/

theorem takeWhile_noNul {s : Bytes} (h : 0 ∉ s) : s.takeWhile (· != 0) = s := by
  refine List.takeWhile_eq_self_iff.mpr ?_
  intro c hc
  have : c ≠ 0 := fun e => h (e ▸ hc)
  simpa using this

theorem noNul_takeWhile (s : Bytes) : 0 ∉ s.takeWhile (· != 0) := by
  intro h
  simpa using List.mem_takeWhile_imp h

theorem cstr_append {s : Bytes} (h : 0 ∉ s) (r : Bytes) : cstr (s ++ 0 :: r) = some s := by
  have hall : ∀ c ∈ s, (c != 0) = true := fun c hc => by
    have : c ≠ 0 := fun e => h (e ▸ hc)
    simpa using this
  simp [cstr, List.takeWhile_append_of_pos hall]

theorem zeroFill_eq {size : Nat} {s : Bytes} (hlen : s.length < size) :
    zeroFill size s = s ++ 0 :: List.replicate (size - s.length - 1) 0 := by
  have : size - s.length = (size - s.length - 1) + 1 := by omega
  rw [zeroFill, this, List.replicate_succ, Nat.add_sub_cancel]

theorem cstr_zeroFill {size : Nat} {s : Bytes} (h : 0 ∉ s) (hlen : s.length < size) :
    cstr (zeroFill size s) = some s := by
  rw [zeroFill_eq hlen, cstr_append h]

theorem takeWhile_zeroFill (size : Nat) (s : Bytes) :
    (zeroFill size s).takeWhile (· != 0) = s.takeWhile (· != 0) := by
  have hzeros : ∀ n, (List.replicate n (0 : Byte)).takeWhile (· != 0) = [] := by
    intro n
    cases n <;> simp [List.replicate_succ]
  rw [zeroFill, List.takeWhile_append, hzeros, List.append_nil]
  split
  · rename_i h
    exact ((List.takeWhile_prefix _).eq_of_length h).symm
  · rfl

@[simp] theorem length_zeroFill (size : Nat) (s : Bytes) :
    (zeroFill size s).length = max size s.length := by
  simp [zeroFill]; omega

theorem strcpy_fits {size : Nat} {s : Bytes} (h : 0 ∉ s) (hlen : s.length < size) :
    strcpy size s = some (s ++ [0]) := by
  simp [strcpy, takeWhile_noNul h, hlen]

theorem strcpy_overflow {size : Nat} {s : Bytes} (h : 0 ∉ s) (hlen : size ≤ s.length) :
    strcpy size s = none := by
  simp [strcpy, takeWhile_noNul h, hlen]

theorem strcpy_some {size : Nat} {s t : Bytes} (h : strcpy size s = some t) :
    t = s.takeWhile (· != 0) ++ [0] ∧ (s.takeWhile (· != 0)).length < size := by
  simp only [strcpy] at h
  split at h
  · cases h; exact ⟨rfl, ‹_›⟩
  · cases h

/-! ## One token -/

theorem strtok_word {d : Byte} {w : Bytes} (hw : IsWord d w) {e : Byte} (he : e = d ∨ e = 0)
    (r : Bytes) : strtok d (w ++ e :: r) = some (w, if e = 0 then e :: r else r) := by
  obtain ⟨c, w', rfl⟩ := List.exists_cons_of_ne_nil hw.nonempty
  have hcd : c ≠ d := fun h => hw.noDelim (h ▸ List.mem_cons_self)
  have hc0 : c ≠ 0 := fun h => hw.noNul (h ▸ List.mem_cons_self)
  have hstop : (e != d && e != 0) = false := by rcases he with rfl | rfl <;> simp
  have hall : ∀ x ∈ c :: w', (x != d && x != 0) = true := by
    intro x hx
    have h1 : x ≠ d := fun h => hw.noDelim (h ▸ hx)
    have h2 : x ≠ 0 := fun h => hw.noNul (h ▸ hx)
    simp [h1, h2]
  have hdrop : (c :: w' ++ e :: r).dropWhile (· == d) = c :: (w' ++ e :: r) := by
    simp [hcd]
  have hrest : (c :: (w' ++ e :: r)).dropWhile (fun x => x != d && x != 0) = e :: r := by
    rw [← List.cons_append, List.dropWhile_append_of_pos hall]
    simp only [List.dropWhile_cons, hstop, Bool.false_eq_true, if_false]
  have htok : (c :: (w' ++ e :: r)).takeWhile (fun x => x != d && x != 0) = c :: w' := by
    rw [← List.cons_append, List.takeWhile_append_of_pos hall]
    simp only [List.takeWhile_cons, hstop, Bool.false_eq_true, if_false, List.append_nil]
  simp only [strtok, hdrop, hc0, if_false, hrest, htok]

theorem strtok_some {d : Byte} {mem t rest : Bytes} (h : strtok d mem = some (t, rest)) :
    IsWord d t ∧ ∃ e r, mem = mem.takeWhile (· == d) ++ (t ++ e :: r) ∧ (e = d ∨ e = 0) ∧
      rest = if e = 0 then e :: r else r := by
  simp only [strtok] at h
  split at h
  · cases h
  · rename_i c m hskip
    split at h
    · cases h
    · rename_i hc0
      split at h
      · cases h
      · rename_i e r hend
        cases h
        have hcd : (c == d) = false := by
          have := List.head_dropWhile_not (p := (· == d)) (l := mem) (by simp [hskip])
          simpa [hskip] using this
        have hhead : (c != d && c != 0) = true := by
          simp only [beq_eq_false_iff_ne] at hcd
          simp [hcd, hc0]
        have he : e = d ∨ e = 0 := by
          have := List.head_dropWhile_not (p := fun x => x != d && x != 0) (l := c :: m)
            (by simp [hend])
          simp only [hend, List.head_cons] at this
          by_cases hed : e = d
          · exact .inl hed
          · exact .inr (by simpa [hed] using this)
        refine ⟨⟨?_, ?_, ?_⟩, e, r, ?_, he, rfl⟩
        · rw [List.takeWhile_cons, if_pos hhead]; simp
        · intro hd; simpa using List.mem_takeWhile_imp hd
        · intro h0; simpa using List.mem_takeWhile_imp h0
        · rw [← hend, List.takeWhile_append_dropWhile, ← hskip, List.takeWhile_append_dropWhile]

/-- A string without delimiter and NUL runs off its array. -/
theorem strtok_eq_none {d : Byte} {mem : Bytes} (hd : d ∉ mem) (h0 : 0 ∉ mem) :
    strtok d mem = none := by
  by_contra h
  obtain ⟨⟨t, rest⟩, htok⟩ := Option.ne_none_iff_exists'.mp h
  obtain ⟨_, e, r, hmem, he, _⟩ := strtok_some htok
  have hin : e ∈ mem := by
    rw [hmem]
    simp
  rcases he with rfl | rfl
  · exact hd hin
  · exact h0 hin

/-! ## Words and tokens -/

@[simp] theorem join_nil (d : Byte) : join d [] = [] := rfl

@[simp] theorem join_cons (d : Byte) (w : Bytes) (ws : List Bytes) :
    join d (w :: ws) = w ++ d :: join d ws := by
  simp [join]

theorem length_join (d : Byte) (ws : List Bytes) :
    (join d ws).length = (ws.map List.length).sum + ws.length := by
  induction ws with
  | nil => rfl
  | cons w ws ih => simp [ih]; omega

theorem length_join_sublist {d : Byte} {vs ws : List Bytes} (h : vs.Sublist ws) :
    (join d vs).length ≤ (join d ws).length :=
  (h.flatMap _).length_le

theorem noNul_join {d : Byte} (hd : d ≠ 0) {ws : List Bytes} (h : ∀ w ∈ ws, 0 ∉ w) :
    0 ∉ join d ws := by
  simp only [join, List.mem_flatMap, List.mem_append, List.mem_singleton, not_exists, not_and]
  intro w hw h0
  rcases h0 with h0 | h0
  · exact h w hw h0
  · exact hd h0.symm

theorem count_join {d : Byte} {ws : List Bytes} (h : ∀ w ∈ ws, d ∉ w) :
    (join d ws).count d = ws.length := by
  induction ws with
  | nil => rfl
  | cons w ws ih =>
    have hw : w.count d = 0 := List.count_eq_zero.mpr (h w (by simp))
    simp [hw, ih fun v hv => h v (by simp [hv])]

theorem tokens_join {d : Byte} (hd : d ≠ 0) {ws : List Bytes} (h : ∀ w ∈ ws, IsWord d w)
    (r : Bytes) : tokens d ws.length (join d ws ++ r) = some (ws, r) := by
  induction ws with
  | nil => rfl
  | cons w ws ih =>
    have hw := strtok_word (h w (by simp)) (.inl rfl) (join d ws ++ r)
    have htail := ih fun v hv => h v (by simp [hv])
    rw [if_neg hd] at hw
    simp [tokens, hw, htail]

theorem length_tokens {d : Byte} {n : Nat} {mem rest : Bytes} {ts : List Bytes}
    (h : tokens d n mem = some (ts, rest)) : ts.length = n := by
  induction n generalizing mem ts with
  | zero => simp only [tokens, Option.some.injEq, Prod.mk.injEq] at h; simp [← h.1]
  | succ n ih =>
    simp only [tokens, Option.bind_eq_bind, Option.bind_eq_some_iff] at h
    obtain ⟨⟨t, m⟩, _, ⟨ts', m'⟩, hts, hres⟩ := h
    simp only [Option.some.injEq, Prod.mk.injEq] at hres
    obtain ⟨rfl, rfl⟩ := hres
    simp [ih hts]

theorem isWord_tokens {d : Byte} {n : Nat} {mem rest : Bytes} {ts : List Bytes}
    (h : tokens d n mem = some (ts, rest)) : ∀ t ∈ ts, IsWord d t := by
  induction n generalizing mem ts with
  | zero => simp only [tokens, Option.some.injEq, Prod.mk.injEq] at h; simp [← h.1]
  | succ n ih =>
    simp only [tokens, Option.bind_eq_bind, Option.bind_eq_some_iff] at h
    obtain ⟨⟨t, m⟩, ht, ⟨ts', m'⟩, hts, hres⟩ := h
    simp only [Option.some.injEq, Prod.mk.injEq] at hres
    obtain ⟨rfl, rfl⟩ := hres
    exact List.forall_mem_cons.mpr ⟨(strtok_some ht).1, ih hts⟩

/-- The bytes that can be part of a token. -/
def wordBytes (d : Byte) (mem : Bytes) : Nat := mem.countP fun x => x != d && x != 0

theorem wordBytes_word {d : Byte} {w : Bytes} (h : IsWord d w) : wordBytes d w = w.length := by
  refine List.countP_eq_length.mpr ?_
  intro x hx
  have h1 : x ≠ d := fun e => h.noDelim (e ▸ hx)
  have h2 : x ≠ 0 := fun e => h.noNul (e ▸ hx)
  simp [h1, h2]

theorem wordBytes_add_count {d : Byte} {s : Bytes} (h : 0 ∉ s) :
    wordBytes d s + s.count d = s.length := by
  induction s with
  | nil => rfl
  | cons c s ih =>
    obtain ⟨hc, hs⟩ : 0 ≠ c ∧ 0 ∉ s := by simpa only [List.mem_cons, not_or] using h
    have htail := ih hs
    by_cases hcd : c = d
    · subst hcd
      have hword : wordBytes c (c :: s) = wordBytes c s := by simp [wordBytes]
      rw [hword, List.count_cons_self, List.length_cons]
      omega
    · have hword : wordBytes d (c :: s) = wordBytes d s + 1 := by
        simp [wordBytes, hcd, Ne.symm hc]
      rw [hword, List.count_cons_of_ne hcd, List.length_cons]
      omega

theorem wordBytes_strtok {d : Byte} {mem t rest : Bytes} (h : strtok d mem = some (t, rest)) :
    t.length + wordBytes d rest ≤ wordBytes d mem := by
  obtain ⟨hw, e, r, hmem, _, rfl⟩ := strtok_some h
  have hsum : wordBytes d mem =
      wordBytes d (mem.takeWhile (· == d)) + (wordBytes d t + wordBytes d (e :: r)) := by
    conv_lhs => rw [hmem]
    simp [wordBytes]
  have htail : wordBytes d (if e = 0 then e :: r else r) ≤ wordBytes d (e :: r) := by
    split
    · exact Nat.le_refl _
    · simp [wordBytes, List.countP_cons]
  rw [wordBytes_word hw] at hsum
  omega

theorem tokens_bound {d : Byte} {n : Nat} {mem rest : Bytes} {ts : List Bytes}
    (h : tokens d n mem = some (ts, rest)) :
    (ts.map List.length).sum + wordBytes d rest ≤ wordBytes d mem := by
  induction n generalizing mem ts with
  | zero =>
    simp only [tokens, Option.some.injEq, Prod.mk.injEq] at h
    obtain ⟨rfl, rfl⟩ := h
    simp
  | succ n ih =>
    simp only [tokens, Option.bind_eq_bind, Option.bind_eq_some_iff] at h
    obtain ⟨⟨t, m⟩, ht, ⟨ts', m'⟩, hts, hres⟩ := h
    simp only [Option.some.injEq, Prod.mk.injEq] at hres
    obtain ⟨rfl, rfl⟩ := hres
    have hfirst : t.length + wordBytes d m ≤ wordBytes d mem := wordBytes_strtok ht
    have hrest : (ts'.map List.length).sum + wordBytes d m' ≤ wordBytes d m := ih hts
    simp only [List.map_cons, List.sum_cons]
    omega

/-! ## The words of a string -/

/-- The maximal runs of bytes other than `d`. -/
def words (d : Byte) (s : Bytes) : List Bytes := (s.splitOn d).filter (· ≠ [])

@[simp] theorem words_nil (d : Byte) : words d [] = [] := by simp [words]

theorem words_append_delim (d : Byte) (s t : Bytes) :
    words d (s ++ d :: t) = words d s ++ words d t := by
  unfold words
  rw [List.splitOn_append_cons_self, List.filter_append]

@[simp] theorem words_delim (d : Byte) (t : Bytes) : words d (d :: t) = words d t := by
  simpa using words_append_delim d [] t

theorem words_word {d : Byte} {w : Bytes} (hne : w ≠ []) (hd : d ∉ w) : words d w = [w] := by
  rw [words, List.splitOn_eq_singleton hd]
  simp [hne]

/-- A string is one piece without a delimiter, or has one behind such a piece. -/
theorem words_cases (d : Byte) (s : Bytes) :
    d ∉ s ∨ ∃ w t, s = w ++ d :: t ∧ d ∉ w := by
  by_cases hd : d ∈ s
  · exact .inr (List.eq_append_cons_of_mem hd)
  · exact .inl hd

/-- A byte in front of a delimiter, or at the end, is a word of its own. -/
theorem words_cons_delim {d c : Byte} (hc : c ≠ d) {s : Bytes}
    (h : ∀ b, s.head? = some b → b = d) : words d (c :: s) = [c] :: words d s := by
  have hword : words d [c] = [[c]] := words_word (by simp) (by simpa using Ne.symm hc)
  cases s with
  | nil => rw [hword, words_nil]
  | cons b s =>
    rw [h b rfl, words_delim, ← List.singleton_append, words_append_delim, hword,
      List.singleton_append]

/-- In front of any other byte it belongs to the first word. -/
theorem words_cons_word {d c b : Byte} (hc : c ≠ d) (hb : b ≠ d) (s : Bytes) :
    words d (c :: b :: s) = (words d (b :: s)).modifyHead (c :: ·) := by
  rcases words_cases d (b :: s) with hd | ⟨w, t, hs, hd⟩
  · rw [words_word (by simp) hd, words_word (by simp) (by simpa [Ne.symm hc] using hd)]
    rfl
  · have hne : w ≠ [] := by
      rintro rfl
      exact hb (List.cons.inj hs).1
    rw [hs, ← List.cons_append, words_append_delim, words_append_delim, words_word hne hd,
      words_word (by simp) (by simpa [Ne.symm hc] using hd)]
    rfl

theorem mem_words {d : Byte} {s w : Bytes} (h : w ∈ words d s) : w ≠ [] ∧ d ∉ w ∧ w ⊆ s := by
  induction hn : s.length using Nat.strongRecOn generalizing s with
  | _ n ih =>
    rcases words_cases d s with hd | ⟨v, t, rfl, hd⟩
    · have hne : s ≠ [] := fun h0 => by simp [h0] at h
      rw [words_word hne hd, List.mem_singleton] at h
      rw [h]
      exact ⟨hne, hd, List.Subset.refl s⟩
    · rw [words_append_delim, List.mem_append] at h
      rcases h with h | h
      · have hne : v ≠ [] := fun h0 => by simp [h0] at h
        rw [words_word hne hd, List.mem_singleton] at h
        rw [h]
        exact ⟨hne, hd, List.subset_append_left v _⟩
      · obtain ⟨hne, hdw, hsub⟩ := ih t.length (by simp at hn; omega) h rfl
        exact ⟨hne, hdw, fun c hc => by simp [hsub hc]⟩

theorem strtok_delim (d : Byte) (mem : Bytes) : strtok d (d :: mem) = strtok d mem := by
  simp [strtok]

/-- One call of `strtok` takes the first word of the string, and leaves a string with the rest. -/
theorem strtok_words {d : Byte} (hd0 : d ≠ 0) {s : Bytes} (h0 : 0 ∉ s) (r : Bytes) :
    (words d s = [] ∧ strtok d (s ++ 0 :: r) = none) ∨
      ∃ w s', strtok d (s ++ 0 :: r) = some (w, s' ++ 0 :: r) ∧ words d s = w :: words d s' ∧
        0 ∉ s' := by
  induction s with
  | nil => exact .inl ⟨words_nil d, by simp [strtok, Ne.symm hd0]⟩
  | cons c s ih =>
    have h0s : 0 ∉ s := fun h => h0 (List.mem_cons_of_mem c h)
    by_cases hc : c = d
    · subst hc
      rw [List.cons_append, strtok_delim, words_delim]
      exact ih h0s
    · right
      rcases words_cases d (c :: s) with hd | ⟨w, t, hs, hd⟩
      · have hw : IsWord d (c :: s) := ⟨by simp, hd, h0⟩
        refine ⟨c :: s, [], strtok_word hw (.inr rfl) r, ?_, by simp⟩
        rw [words_word (by simp) hd, words_nil]
      · have hne : w ≠ [] := by
          rintro rfl
          exact hc (List.cons.inj hs).1
        rw [hs] at h0 ⊢
        have hw : IsWord d w := ⟨hne, hd, fun h => h0 (List.mem_append_left _ h)⟩
        have htok := strtok_word hw (.inl rfl) (t ++ 0 :: r)
        rw [if_neg hd0] at htok
        refine ⟨w, t, by simpa using htok, ?_, fun h => h0 (by simp [h])⟩
        rw [words_append_delim, words_word hne hd, List.singleton_append]

theorem tokens_words {d : Byte} (hd0 : d ≠ 0) {s : Bytes} (h0 : 0 ∉ s) (r : Bytes) (n : Nat) :
    (tokens d n (s ++ 0 :: r)).map (·.1) =
      if n ≤ (words d s).length then some ((words d s).take n) else none := by
  induction n generalizing s with
  | zero => simp [tokens]
  | succ n ih =>
    rcases strtok_words hd0 h0 r with ⟨hw, htok⟩ | ⟨w, s', htok, hw, h0'⟩
    · simp [tokens, htok, hw]
    · have hrest := ih h0'
      rw [hw]
      simp only [tokens, htok, Option.bind_eq_bind, Option.bind_some, List.length_cons,
        Nat.add_le_add_iff_right, List.take_succ_cons]
      cases htail : tokens d n (s' ++ 0 :: r) with
      | none =>
        rw [htail] at hrest
        by_cases hle : n ≤ (words d s').length
        · rw [if_pos hle] at hrest; cases hrest
        · rw [if_neg hle]; rfl
      | some p =>
        rw [htail] at hrest
        by_cases hle : n ≤ (words d s').length
        · rw [if_pos hle, Option.map_some, Option.some.injEq] at hrest
          rw [if_pos hle, ← hrest]; rfl
        · rw [if_neg hle] at hrest; cases hrest

/-! ## Stretches without a NUL -/

/-- Every stretch of `mem` without a NUL satisfies `P`: whatever part of `mem` is received and
read as a string, `P` holds of that string. -/
def Stretches (P : Bytes → Prop) (mem : Bytes) : Prop := ∀ m, m <:+: mem → 0 ∉ m → P m

def EndsNul (mem : Bytes) : Prop := ∀ m, m <:+ mem → m ≠ [] → 0 ∈ m

theorem Stretches.part {P : Bytes → Prop} {mem part : Bytes} (h : Stretches P mem)
    (hpart : part <:+: mem) : Stretches P part :=
  fun m hm => h m (hm.trans hpart)

theorem EndsNul.part {mem part : Bytes} (h : EndsNul mem) (hpart : part <:+ mem) :
    EndsNul part :=
  fun m hm => h m (hm.trans hpart)

theorem EndsNul.append {mem more : Bytes} (h : EndsNul mem) (hmore : EndsNul more) :
    EndsNul (mem ++ more) := by
  rintro m ⟨r, hr⟩ hne
  rcases List.append_eq_append_iff.mp hr with ⟨l, hl, rfl⟩ | ⟨l, _, hl⟩
  · by_cases hnil : more = []
    · subst hnil
      rw [List.append_nil] at hne ⊢
      exact h l ⟨r, hl.symm⟩ hne
    · exact List.mem_append_right l (hmore more (List.suffix_refl _) hnil)
  · exact hmore m ⟨l, hl.symm⟩ hne

theorem Stretches.append {P : Bytes → Prop} {mem more : Bytes} (h : Stretches P mem)
    (hend : EndsNul mem) (hmore : Stretches P more) : Stretches P (mem ++ more) := by
  intro m hm h0
  rcases List.infix_append_iff_ne_nil.mp hm with hm | hm | ⟨l₁, l₂, hne, _, rfl, hl₁, _⟩
  · exact h m hm h0
  · exact hmore m hm h0
  · exact absurd (List.mem_append_left l₂ (hend l₁ hl₁ hne)) h0

theorem endsNul_zeroFill {size : Nat} {s : Bytes} (hlen : s.length < size) :
    EndsNul (zeroFill size s) := by
  intro m hm hne
  have hlast : (zeroFill size s).getLast? = some 0 := by
    have hpos : size - s.length ≠ 0 := by omega
    simp [zeroFill, List.getLast?_append, List.getLast?_replicate, hpos]
  obtain ⟨r, hr⟩ := hm
  rw [← hr, List.getLast?_append, List.getLast?_eq_some_getLast hne, Option.some_or,
    Option.some.injEq] at hlast
  exact hlast ▸ List.getLast_mem hne

theorem stretches_zeroFill {P : Bytes → Prop} {size : Nat} {s : Bytes} (hnil : P [])
    (h : ∀ m, m <:+: s → P m) : Stretches P (zeroFill size s) := by
  intro m hm h0
  rcases List.infix_append_iff_ne_nil.mp hm with hm | hm | ⟨l₁, l₂, _, hne, rfl, _, hl₂⟩
  · exact h m hm
  · have : m = [] := List.eq_nil_iff_forall_not_mem.mpr fun c hc =>
      h0 ((List.mem_replicate.mp (hm.subset hc)).2 ▸ hc)
    exact this ▸ hnil
  · obtain ⟨c, hc⟩ := List.exists_mem_of_ne_nil l₂ hne
    have hzero : c = 0 := (List.mem_replicate.mp (hl₂.subset hc)).2
    exact absurd (List.mem_append_right l₁ (hzero ▸ hc)) h0

end CString
