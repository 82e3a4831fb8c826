import Mathlib.Data.List.Forall2
import StreamBridge.Names

/-!
# StreamBridge.ReadFile

`readFile` of `serverA.h` and `serverB.h`. A file is its bytes. `fgets` cuts it into pieces of at
most 99 bytes, each ending at its first newline; `readLine` is the body of the loop: the name up
to the first `;`, then the interval list, which `scan` reads with one byte of look-ahead. `none`
is a NULL token, a number `stoi` throws on, or a row beyond `time_ava[9]`.
-/

namespace StreamBridge

open CString

/-- `fgets` into a buffer of `size + 1` bytes: the line read, and the rest of the file. -/
def fgets : Nat → Bytes → Bytes × Bytes
  | 0, fp => ([], fp)
  | _ + 1, [] => ([], [])
  | size + 1, c :: fp =>
    if c = newline then ([c], fp)
    else
      let (line, rest) := fgets size fp
      (c :: line, rest)

/-- `while(fgets(..) != NULL)`. Each call takes at least one byte, so the length of the file is
fuel enough (`fgetsAll_flatten`). -/
def fgetsAll (size : Nat) : Nat → Bytes → List Bytes
  | 0, _ => []
  | _, [] => []
  | fuel + 1, fp =>
    let (line, rest) := fgets size fp
    line :: fgetsAll size fuel rest

def isdigit (c : Byte) : Bool := 48 ≤ c && c ≤ 57

/-- `stoi` on a string of digits: it throws on the empty string and beyond `INT_MAX`. -/
def stoi (num_str : Bytes) : Option Int32 :=
  let num := num_str.foldl (fun n c => 10 * n + (c.toNat - 48)) 0
  if num_str = [] ∨ num > 2147483647 then none else some (Int32.ofNat num)

/-- The variables of the scanning loop. -/
structure Scan where
  numStr : Bytes
  taCount : Nat
  timeAva : Vector (Int32 × Int32) 10

def Scan.init : Scan := ⟨[], 0, Vector.replicate 10 (0, 0)⟩

/-- `num = stoi(num_str); time_ava[ta_count][0] = num; num_str.clear();` -/
def Scan.storeStart (st : Scan) : Option Scan := do
  let num ← stoi st.numStr
  if h : st.taCount < 10 then
    some { st with numStr := [],
                   timeAva := st.timeAva.set st.taCount (num, st.timeAva[st.taCount].2) }
  else none

/-- `num = stoi(num_str); time_ava[ta_count][1] = num; ta_count += 1; num_str.clear();` -/
def Scan.storeEnd (st : Scan) : Option Scan := do
  let num ← stoi st.numStr
  if h : st.taCount < 10 then
    some { numStr := [], taCount := st.taCount + 1,
           timeAva := st.timeAva.set st.taCount (st.timeAva[st.taCount].1, num) }
  else none

/-- The loop over `a`: `c` is `a[i]` and `next` is `a[i+1]`, which past the end is NUL. -/
def scan : Bytes → Scan → Option Scan
  | [], st => some st
  | c :: rest, st =>
    let next := rest.headD 0
    if isdigit next then scan rest { st with numStr := st.numStr ++ [next] }
    else if next = 91 then scan rest st
    else if next = 44 ∧ isdigit c then do
      let st ← st.storeStart
      scan rest st
    else if next = 44 then scan rest st
    else if next = 93 ∧ isdigit c then do
      let st ← st.storeEnd
      scan rest st
    else if next = 93 then some st
    else scan rest st

def semicolon : Byte := 59

/-- One pass of the `while` loop of `readFile`. -/
def readLine (read_line : Bytes) : Option User := do
  let (name, rest) ← strtok semicolon (read_line ++ [0])
  let (a, _) ← strtok semicolon rest
  let st ← scan a Scan.init
  some ⟨name, st.timeAva⟩

def readFile (fp : Bytes) : Option (List User) :=
  (fgetsAll 99 fp.length fp).mapM readLine

theorem fgets_append (size : Nat) (fp : Bytes) :
    (fgets size fp).1 ++ (fgets size fp).2 = fp := by
  induction size generalizing fp with
  | zero => rfl
  | succ size ih =>
    cases fp with
    | nil => rfl
    | cons c fp =>
      simp only [fgets]
      split
      · rfl
      · simp [ih fp]

theorem fgets_ne_nil {size : Nat} (hs : 0 < size) {fp : Bytes} (h : fp ≠ []) :
    (fgets size fp).1 ≠ [] := by
  obtain ⟨size, rfl⟩ := Nat.exists_eq_succ_of_ne_zero hs.ne'
  obtain ⟨c, fp, rfl⟩ := List.exists_cons_of_ne_nil h
  simp only [fgets]
  split <;> simp

theorem length_fgets_rest {size : Nat} (hs : 0 < size) {fp : Bytes} (hne : fp ≠ []) :
    (fgets size fp).2.length < fp.length := by
  have happ := congrArg List.length (fgets_append size fp)
  have hpos := List.length_pos_iff.mpr (fgets_ne_nil hs hne)
  rw [List.length_append] at happ
  omega

/-- The fuel suffices: the lines make up the whole file. -/
theorem fgetsAll_flatten {size : Nat} (hs : 0 < size) :
    ∀ (fuel : Nat) (fp : Bytes), fp.length ≤ fuel → (fgetsAll size fuel fp).flatten = fp := by
  intro fuel
  induction fuel with
  | zero => intro fp h; simp [fgetsAll, List.eq_nil_of_length_eq_zero (Nat.le_zero.mp h)]
  | succ fuel ih =>
    intro fp h
    cases fp with
    | nil => rfl
    | cons c fp =>
      have happ := fgets_append size (c :: fp)
      have hlen : (fgets size (c :: fp)).2.length ≤ fuel := by
        have hlt := length_fgets_rest hs (List.cons_ne_nil c fp)
        simp only [List.length_cons] at h hlt
        omega
      simp only [fgetsAll, List.flatten_cons, ih _ hlen, happ]

theorem length_fgets_le (size : Nat) (fp : Bytes) : (fgets size fp).1.length ≤ size := by
  induction size generalizing fp with
  | zero => exact Nat.le_refl 0
  | succ size ih =>
    cases fp with
    | nil => exact Nat.zero_le _
    | cons c fp =>
      simp only [fgets]
      split
      · simp
      · exact Nat.succ_le_succ (ih fp)

theorem fgets_line {line : Bytes} (hline : newline ∉ line) {size : Nat} (hs : line.length < size)
    (fp : Bytes) : fgets size (line ++ newline :: fp) = (line ++ [newline], fp) := by
  induction line generalizing size with
  | nil =>
    obtain ⟨size, rfl⟩ := Nat.exists_eq_succ_of_ne_zero (by omega : size ≠ 0)
    simp [fgets]
  | cons c line ih =>
    obtain ⟨size, rfl⟩ := Nat.exists_eq_succ_of_ne_zero (by omega : size ≠ 0)
    obtain ⟨hc, hrest⟩ : newline ≠ c ∧ newline ∉ line := by
      simpa only [List.mem_cons, not_or] using hline
    have hlen : line.length < size := by simpa using hs
    simp [fgets, Ne.symm hc, ih hrest hlen]

theorem fgets_last {line : Bytes} (hline : newline ∉ line) {size : Nat} (hs : line.length ≤ size) :
    fgets size line = (line, []) := by
  induction line generalizing size with
  | nil => cases size <;> rfl
  | cons c line ih =>
    obtain ⟨size, rfl⟩ := Nat.exists_eq_succ_of_ne_zero (by simp at hs; omega : size ≠ 0)
    obtain ⟨hc, hrest⟩ : newline ≠ c ∧ newline ∉ line := by
      simpa only [List.mem_cons, not_or] using hline
    have hlen : line.length ≤ size := by simpa using hs
    simp [fgets, Ne.symm hc, ih hrest hlen]

/-- Any fuel that reaches the end gives the same lines. -/
theorem fgetsAll_fuel {size : Nat} (hs : 0 < size) {fuel other : Nat} {fp : Bytes}
    (h : fp.length ≤ fuel) (h' : fp.length ≤ other) :
    fgetsAll size fuel fp = fgetsAll size other fp := by
  induction fuel generalizing other fp with
  | zero =>
    rw [List.eq_nil_of_length_eq_zero (Nat.le_zero.mp h)]
    cases other <;> rfl
  | succ fuel ih =>
    cases fp with
    | nil => cases other <;> rfl
    | cons c fp =>
      have hlt := length_fgets_rest hs (List.cons_ne_nil c fp)
      cases other with
      | zero => cases h'
      | succ other =>
        simp only [List.length_cons] at h h' hlt
        have hrest : fgetsAll size fuel (fgets size (c :: fp)).2 =
            fgetsAll size other (fgets size (c :: fp)).2 := ih (by omega) (by omega)
        simp only [fgetsAll, hrest]

theorem fgetsAll_cons {size : Nat} (hs : 0 < size) {fp : Bytes} (hne : fp ≠ []) :
    fgetsAll size fp.length fp =
      (fgets size fp).1 :: fgetsAll size (fgets size fp).2.length (fgets size fp).2 := by
  obtain ⟨c, fp, rfl⟩ := List.exists_cons_of_ne_nil hne
  have hlt := length_fgets_rest hs (List.cons_ne_nil c fp)
  have hfuel := fgetsAll_fuel hs (Nat.lt_succ_iff.mp hlt) le_rfl
  simp only [List.length_cons, fgetsAll, hfuel]

theorem isWord_of_readLine {line : Bytes} {u : User} (h : readLine line = some u) :
    IsWord semicolon u.name := by
  simp only [readLine, Option.bind_eq_bind, Option.bind_eq_some_iff] at h
  obtain ⟨⟨name, rest⟩, hname, _, _, st, _, hu⟩ := h
  cases hu
  exact (strtok_some hname).1

/-- The records are those of the lines, one each and in order. -/
theorem mapM_readLine {lines : List Bytes} {users : List User} :
    lines.mapM readLine = some users ↔
      List.Forall₂ (fun line u => readLine line = some u) lines users := by
  induction lines generalizing users with
  | nil => simp [eq_comm]
  | cons line lines ih =>
    simp only [List.mapM_cons, Option.bind_eq_bind, Option.bind_eq_some_iff]
    constructor
    · rintro ⟨u, hu, us, hus, hres⟩
      cases hres
      exact .cons hu (ih.mp hus)
    · rintro (_ | ⟨hu, hus⟩)
      exact ⟨_, hu, _, ih.mpr hus, rfl⟩

theorem isWord_of_readFile {fp : Bytes} {users : List User} (h : readFile fp = some users) :
    ∀ u ∈ users, IsWord semicolon u.name := by
  have hword := (mapM_readLine.mp h).imp fun _ _ => isWord_of_readLine
  intro u hu
  obtain ⟨i, hi, rfl⟩ := List.getElem_of_mem hu
  exact hword.get (hword.length_eq ▸ hi) hi

end StreamBridge
