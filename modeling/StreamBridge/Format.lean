import Mathlib.Data.Nat.Digits.Defs
import StreamBridge.Backend

/-!
# StreamBridge.Format

The format of `a.txt` and `b.txt`: one record a line, `name;[[s1,e1],...,[sn,en]]`. The grammar is
stated here as data with its bytes (`Record.bytes`, `File.bytes`), and `readFile` is compared
with it.

* `scan_rows`: the scanning loop on the rows of a record, for any number of rows.
* `readLine_record`: a record is read exactly when it has at most ten rows and its numbers are ints.
* `readFile_format`: the records of a file with short lines are read as they are written.
* `readFile_safe`: beyond that no file of the format is read safely.
* `availability_kept`: what the scheduler gets of the records that were read.
-/

namespace StreamBridge

open CString Intervals

def comma : Byte := 44
def openBracket : Byte := 91
def closeBracket : Byte := 93

theorem isdigit_comma : isdigit comma = false := rfl
theorem isdigit_openBracket : isdigit openBracket = false := rfl
theorem isdigit_closeBracket : isdigit closeBracket = false := rfl

/-- A decimal numeral, with leading zeros or without. -/
structure Numeral where
  digits : Bytes
  nonempty : digits ≠ []
  isdigit : ∀ c ∈ digits, StreamBridge.isdigit c = true

def Numeral.value (n : Numeral) : Nat := Nat.ofDigits 10 (n.digits.reverse.map (·.toNat - 48))

structure Row where
  start : Numeral
  «end» : Numeral

/-- `[s,e]`. -/
def Row.bytes (row : Row) : Bytes :=
  openBracket :: (row.start.digits ++ comma :: (row.end.digits ++ [closeBracket]))

/-- The rows, with a comma between any two. -/
def rowsBytes : List Row → Bytes
  | [] => []
  | row :: rows => row.bytes ++ rows.flatMap fun row => comma :: row.bytes

structure Record where
  name : Bytes
  rows : List Row
  isWord : IsWord semicolon name
  noNewline : newline ∉ name

/-- `name;[[s1,e1],...,[sn,en]]`, and `name;[]` for no row. -/
def Record.bytes (r : Record) : Bytes :=
  r.name ++ semicolon :: openBracket :: (rowsBytes r.rows ++ [closeBracket])

/-- A file: lines with their newline, and perhaps a last one without. -/
structure File where
  lines : List Record
  last : Option Record

def File.records (f : File) : List Record := f.lines ++ f.last.toList

def File.bytes (f : File) : Bytes :=
  f.lines.flatMap (fun r => r.bytes ++ [newline]) ++ f.last.toList.flatMap Record.bytes

/-- Both numbers fit an `int`. -/
def Row.InRange (row : Row) : Prop := row.start.value ≤ 2147483647 ∧ row.end.value ≤ 2147483647

instance (row : Row) : Decidable row.InRange := inferInstanceAs (Decidable (_ ∧ _))

def Row.pair (row : Row) : Int32 × Int32 :=
  (Int32.ofNat row.start.value, Int32.ofNat row.end.value)

/-- The `User` a record stands for. -/
def Record.user (r : Record) : User := ⟨r.name, table (r.rows.map Row.pair)⟩

/-- What the ten rows and the `int`s of a `User` can hold. -/
structure Record.Storable (r : Record) : Prop where
  rows : r.rows.length ≤ 10
  inRange : ∀ row ∈ r.rows, row.InRange

/-! ## Numbers -/

theorem foldl_digits (ds : Bytes) :
    ds.foldl (fun n c => 10 * n + (c.toNat - 48)) 0 =
      Nat.ofDigits 10 (ds.reverse.map (·.toNat - 48)) := by
  induction ds using List.reverseRecOn with
  | nil => rfl
  | append_singleton ds d ih =>
    rw [List.foldl_append, List.reverse_append, List.reverse_singleton, List.singleton_append,
      List.map_cons, Nat.ofDigits_cons, List.foldl_cons, List.foldl_nil, ih]
    omega

theorem stoi_digits (n : Numeral) :
    stoi n.digits = if n.value ≤ 2147483647 then some (Int32.ofNat n.value) else none := by
  simp only [stoi, foldl_digits, n.nonempty, false_or]
  by_cases h : n.value ≤ 2147483647
  · rw [if_pos h, if_neg (by simpa [Numeral.value] using h)]
    rfl
  · rw [if_neg h, if_pos (by simpa [Numeral.value] using h)]

/-- A numeral ends in a digit. -/
theorem Numeral.snoc (n : Numeral) :
    ∃ ds d, n.digits = ds ++ [d] ∧ (∀ c ∈ ds, StreamBridge.isdigit c = true) ∧
      StreamBridge.isdigit d = true := by
  have hsplit := (List.dropLast_append_getLast n.nonempty).symm
  refine ⟨_, _, hsplit, fun c hc => n.isdigit c (List.dropLast_subset _ hc), ?_⟩
  exact n.isdigit _ (List.getLast_mem n.nonempty)

/-! ## The scanning loop -/

theorem scan_cons (c next : Byte) (rest : Bytes) (st : Scan) :
    scan (c :: next :: rest) st =
      if isdigit next then scan (next :: rest) { st with numStr := st.numStr ++ [next] }
      else if next = openBracket then scan (next :: rest) st
      else if next = comma ∧ isdigit c then st.storeStart.bind (scan (next :: rest))
      else if next = comma then scan (next :: rest) st
      else if next = closeBracket ∧ isdigit c then st.storeEnd.bind (scan (next :: rest))
      else if next = closeBracket then some st
      else scan (next :: rest) st := rfl

theorem scan_open (c : Byte) (rest : Bytes) (st : Scan) :
    scan (c :: openBracket :: rest) st = scan (openBracket :: rest) st := by
  rw [scan_cons, isdigit_openBracket, if_neg Bool.false_ne_true, if_pos rfl]

theorem scan_comma {c : Byte} (rest : Bytes) (st : Scan) :
    scan (c :: comma :: rest) st =
      if isdigit c then st.storeStart.bind (scan (comma :: rest)) else scan (comma :: rest) st := by
  rw [scan_cons, isdigit_comma, if_neg Bool.false_ne_true, if_neg (by decide)]
  by_cases hc : isdigit c = true
  · rw [if_pos ⟨rfl, hc⟩, if_pos hc]
  · rw [if_neg fun h => hc h.2, if_neg hc, if_pos rfl]

theorem scan_close {c : Byte} (rest : Bytes) (st : Scan) :
    scan (c :: closeBracket :: rest) st =
      if isdigit c then st.storeEnd.bind (scan (closeBracket :: rest)) else some st := by
  have hcomma : closeBracket ≠ comma := by decide
  rw [scan_cons, isdigit_closeBracket, if_neg Bool.false_ne_true, if_neg (by decide),
    if_neg fun h => hcomma h.1, if_neg hcomma]
  by_cases hc : isdigit c = true
  · rw [if_pos ⟨rfl, hc⟩, if_pos hc]
  · rw [if_neg fun h => hc h.2, if_neg hc, if_pos rfl]

/-- The look-ahead collects a run of digits and stops on its last one. -/
theorem scan_digits {ds : Bytes} (hds : ∀ c ∈ ds, isdigit c = true) {d : Byte}
    (hd : isdigit d = true) (c : Byte) (rest : Bytes) (st : Scan) :
    scan (c :: (ds ++ d :: rest)) st =
      scan (d :: rest) { st with numStr := st.numStr ++ (ds ++ [d]) } := by
  induction ds generalizing c st with
  | nil => rw [List.nil_append, scan_cons, if_pos hd, List.nil_append]
  | cons x ds ih =>
    have hx : isdigit x = true := hds x (by simp)
    rw [List.cons_append, scan_cons, if_pos hx, ih fun y hy => hds y (by simp [hy])]
    simp

theorem scan_number (n : Numeral) (c : Byte) (rest : Bytes) (st : Scan) :
    ∃ d, isdigit d = true ∧
      scan (c :: (n.digits ++ rest)) st =
        scan (d :: rest) { st with numStr := st.numStr ++ n.digits } := by
  obtain ⟨ds, d, hn, hds, hd⟩ := n.snoc
  refine ⟨d, hd, ?_⟩
  rw [hn, List.append_assoc, List.singleton_append, scan_digits hds hd]

theorem table_set {done : List (Int32 × Int32)} (h : done.length < 10) (p : Int32 × Int32) :
    (table done).set done.length p = table (done ++ [p]) := by
  ext i hi
  all_goals
    simp only [Vector.getElem_set, table, Vector.getElem_ofFn, List.getD_eq_getElem?_getD]
    rcases lt_trichotomy i done.length with hlt | rfl | hgt
    · rw [if_neg hlt.ne', List.getElem?_append_left hlt]
    · rw [if_pos rfl, List.getElem?_concat_length, Option.getD_some]
    · have hnone : (done ++ [p])[i]? = none := by
        rw [List.getElem?_eq_none_iff, List.length_append, List.length_singleton]
        omega
      rw [if_neg hgt.ne, hnone, List.getElem?_eq_none_iff.mpr hgt.le]

/-- One row: the loop stores both numbers in the next row of the table, or fails. -/
theorem scan_row (row : Row) (done : List (Int32 × Int32)) (rest : Bytes) :
    scan (row.bytes ++ rest) ⟨[], done.length, table done⟩ =
      if row.InRange ∧ done.length < 10 then
        scan (closeBracket :: rest)
          ⟨[], (done ++ [row.pair]).length, table (done ++ [row.pair])⟩
      else none := by
  have hbytes : row.bytes ++ rest =
      openBracket :: (row.start.digits ++ comma :: (row.end.digits ++ closeBracket :: rest)) := by
    simp [Row.bytes]
  obtain ⟨d, hd, hstart⟩ := scan_number row.start openBracket
    (comma :: (row.end.digits ++ closeBracket :: rest)) ⟨[], done.length, table done⟩
  rw [hbytes, hstart, scan_comma, if_pos hd, List.nil_append]
  by_cases hlen : done.length < 10
  · by_cases hs : row.start.value ≤ 2147483647
    · have hfirst : Scan.storeStart ⟨row.start.digits, done.length, table done⟩ =
          some ⟨[], done.length, (table done).set done.length
            (Int32.ofNat row.start.value, (table done)[done.length].2)⟩ := by
        simp only [Scan.storeStart, stoi_digits, if_pos hs, Option.bind_eq_bind, Option.bind_some,
          dif_pos hlen]
      obtain ⟨e, he, hend⟩ := scan_number row.end comma (closeBracket :: rest)
        ⟨[], done.length, (table done).set done.length
          (Int32.ofNat row.start.value, (table done)[done.length].2)⟩
      rw [hfirst, Option.bind_some, hend, scan_close, if_pos he, List.nil_append]
      by_cases hv : row.end.value ≤ 2147483647
      · rw [if_pos ⟨⟨hs, hv⟩, hlen⟩, ← table_set hlen]
        simp only [Scan.storeEnd, stoi_digits, if_pos hv, Option.bind_eq_bind, Option.bind_some,
          dif_pos hlen, Vector.getElem_set_self, Vector.set_set, List.length_append,
          List.length_singleton]
        rfl
      · rw [if_neg fun h => hv h.1.2]
        simp only [Scan.storeEnd, stoi_digits, if_neg hv, Option.bind_eq_bind, Option.bind_none]
    · rw [if_neg fun h => hs h.1.1]
      simp only [Scan.storeStart, stoi_digits, if_neg hs, Option.bind_eq_bind, Option.bind_none]
  · rw [if_neg fun h => hlen h.2]
    simp only [Scan.storeStart, dif_neg hlen, Option.bind_eq_bind, Option.bind_fun_none,
      Option.bind_none]

theorem rowsBytes_open (row : Row) (rows : List Row) (rest : Bytes) :
    ∃ bs, rowsBytes (row :: rows) ++ rest = openBracket :: bs := by
  simp [rowsBytes, Row.bytes]

/-- All rows, up to the closing bracket of the list. -/
theorem scan_rows (row : Row) (rows : List Row) (done : List (Int32 × Int32)) (rest : Bytes) :
    scan (rowsBytes (row :: rows) ++ closeBracket :: rest) ⟨[], done.length, table done⟩ =
      if (∀ r ∈ row :: rows, r.InRange) ∧ done.length + (row :: rows).length ≤ 10 then
        some ⟨[], (done ++ (row :: rows).map Row.pair).length,
          table (done ++ (row :: rows).map Row.pair)⟩
      else none := by
  induction rows generalizing row done with
  | nil =>
    have hrest : rowsBytes [row] ++ closeBracket :: rest = row.bytes ++ closeBracket :: rest := by
      simp [rowsBytes]
    rw [hrest, scan_row, scan_close, isdigit_closeBracket, if_neg Bool.false_ne_true]
    refine if_congr ?_ rfl rfl
    rw [List.forall_mem_singleton, List.length_singleton]
    exact Iff.rfl
  | cons next rows ih =>
    have hrest : rowsBytes (row :: next :: rows) ++ closeBracket :: rest =
        row.bytes ++ comma :: (rowsBytes (next :: rows) ++ closeBracket :: rest) := by
      simp [rowsBytes]
    rw [hrest, scan_row, scan_comma, isdigit_closeBracket, if_neg Bool.false_ne_true]
    by_cases h : row.InRange ∧ done.length < 10
    · obtain ⟨bs, hbs⟩ := rowsBytes_open next rows (closeBracket :: rest)
      have hnext := ih next (done ++ [row.pair])
      rw [if_pos h, hbs, scan_open, ← hbs, hnext]
      simp only [List.length_append, List.length_nil, List.length_cons, List.append_assoc,
        List.singleton_append, List.map_cons]
      refine if_congr ?_ rfl rfl
      constructor
      · rintro ⟨hr, hlen⟩
        exact ⟨List.forall_mem_cons.mpr ⟨h.1, hr⟩, by omega⟩
      · rintro ⟨hr, hlen⟩
        exact ⟨(List.forall_mem_cons.mp hr).2, by omega⟩
    · rw [if_neg h, if_neg]
      rintro ⟨hr, hlen⟩
      simp only [List.length_cons] at hlen
      exact h ⟨hr row (by simp), by omega⟩

/-! ## One line -/

theorem mem_rowsBytes {rows : List Row} {c : Byte} (h : c ∈ rowsBytes rows) :
    isdigit c = true ∨ c = comma ∨ c = openBracket ∨ c = closeBracket := by
  have hrow : ∀ row : Row, c ∈ row.bytes →
      isdigit c = true ∨ c = comma ∨ c = openBracket ∨ c = closeBracket := by
    intro row hc
    simp only [Row.bytes, List.mem_cons, List.mem_append, List.not_mem_nil, or_false] at hc
    rcases hc with hc | hc | hc | hc | hc
    · exact .inr (.inr (.inl hc))
    · exact .inl (row.start.isdigit c hc)
    · exact .inr (.inl hc)
    · exact .inl (row.end.isdigit c hc)
    · exact .inr (.inr (.inr hc))
  cases rows with
  | nil => cases h
  | cons row rows =>
    simp only [rowsBytes, List.mem_append, List.mem_flatMap, List.mem_cons] at h
    rcases h with h | ⟨r, _, hc | hc⟩
    · exact hrow row h
    · exact .inr (.inl hc)
    · exact hrow r hc

/-- The second token of a line: the interval list, and the newline if the line has one. -/
theorem isWord_list (rows : List Row) {eol : Bytes} (heol : eol = [] ∨ eol = [newline]) :
    IsWord semicolon (openBracket :: (rowsBytes rows ++ closeBracket :: eol)) := by
  have hmem : ∀ c ∈ openBracket :: (rowsBytes rows ++ closeBracket :: eol),
      isdigit c = true ∨ c = comma ∨ c = openBracket ∨ c = closeBracket ∨ c = newline := by
    intro c hc
    simp only [List.mem_cons, List.mem_append] at hc
    rcases hc with rfl | hc | rfl | hc
    · simp
    · rcases mem_rowsBytes hc with h | h | h | h <;> simp [h]
    · simp
    · rcases heol with rfl | rfl
      · cases hc
      · simp [List.mem_singleton.mp hc]
  refine ⟨by simp, fun h => ?_, fun h => ?_⟩
  · rcases hmem _ h with h | h | h | h | h <;> revert h <;> decide
  · rcases hmem _ h with h | h | h | h | h <;> revert h <;> decide

theorem scan_record (rows : List Row) (rest : Bytes) :
    (scan (openBracket :: (rowsBytes rows ++ closeBracket :: rest)) Scan.init).map (·.timeAva) =
      if (∀ r ∈ rows, r.InRange) ∧ rows.length ≤ 10 then some (table (rows.map Row.pair))
      else none := by
  have hinit : Scan.init = ⟨[], ([] : List (Int32 × Int32)).length, table []⟩ := by
    have : Vector.replicate 10 ((0, 0) : Int32 × Int32) = table [] := by decide
    rw [Scan.init, this]
    rfl
  cases rows with
  | nil =>
    rw [rowsBytes, List.nil_append, scan_close, isdigit_openBracket,
      if_neg Bool.false_ne_true, hinit]
    simp
  | cons row rows =>
    obtain ⟨bs, hbs⟩ := rowsBytes_open row rows (closeBracket :: rest)
    rw [hbs, scan_open, ← hbs, hinit, scan_rows]
    simp only [List.length_nil, Nat.zero_add, List.nil_append]
    split <;> rfl

theorem storable_iff (r : Record) :
    r.Storable ↔ (∀ row ∈ r.rows, row.InRange) ∧ r.rows.length ≤ 10 :=
  ⟨fun h => ⟨h.inRange, h.rows⟩, fun h => ⟨h.2, h.1⟩⟩

instance (r : Record) : Decidable r.Storable := decidable_of_iff' _ (storable_iff r)

/-- A record is read as its `User` exactly when a `User` can hold it. -/
theorem readLine_record (r : Record) {eol : Bytes} (heol : eol = [] ∨ eol = [newline]) :
    readLine (r.bytes ++ eol) = if r.Storable then some r.user else none := by
  have hbytes : r.bytes ++ eol ++ [0] = r.name ++ semicolon ::
      (openBracket :: (rowsBytes r.rows ++ closeBracket :: eol) ++ 0 :: []) := by
    simp [Record.bytes]
  have hname := strtok_word r.isWord (.inl rfl)
    (openBracket :: (rowsBytes r.rows ++ closeBracket :: eol) ++ 0 :: [])
  have hlist := strtok_word (isWord_list r.rows heol) (.inr rfl) []
  have hscan := scan_record r.rows eol
  rw [if_neg (by decide)] at hname
  simp only [readLine, hbytes, hname, hlist, Option.bind_eq_bind, Option.bind_some]
  by_cases h : r.Storable
  · rw [if_pos ((storable_iff r).mp h)] at hscan
    obtain ⟨st, hst, htable⟩ := Option.map_eq_some_iff.mp hscan
    rw [if_pos h, hst, Option.bind_some, htable]
    rfl
  · rw [if_neg fun h' => h ((storable_iff r).mpr h'), Option.map_eq_none_iff] at hscan
    rw [if_neg h, hscan, Option.bind_none]

/-! ## The file -/

theorem newline_notMem_bytes (r : Record) : newline ∉ r.bytes := by
  intro h
  simp only [Record.bytes, List.mem_append, List.mem_cons, List.not_mem_nil, or_false] at h
  rcases h with h | h | h | h | h
  · exact r.noNewline h
  · exact absurd h (by decide)
  · exact absurd h (by decide)
  · rcases mem_rowsBytes h with h | h | h | h <;> revert h <;> decide
  · exact absurd h (by decide)

theorem bytes_ne_nil (r : Record) : r.bytes ≠ [] := by
  simp [Record.bytes]

/-- Every line fits the buffer of `fgets` with its newline, if it has one. -/
structure File.Short (f : File) : Prop where
  lines : ∀ r ∈ f.lines, r.bytes.length + 1 ≤ 99
  last : ∀ r ∈ f.last, r.bytes.length ≤ 99

/-- On a short file `fgets` cuts after each newline. -/
theorem fgetsAll_file {f : File} (h : f.Short) :
    fgetsAll 99 f.bytes.length f.bytes =
      f.lines.map (fun r => r.bytes ++ [newline]) ++ f.last.toList.map Record.bytes := by
  obtain ⟨lines, last⟩ := f
  have hlines := h.lines
  have hlast := h.last
  simp only [File.bytes] at hlines hlast ⊢
  clear h
  induction lines with
  | nil =>
    cases last with
    | none => rfl
    | some r =>
      have hne := bytes_ne_nil r
      have hfgets := fgets_last (newline_notMem_bytes r) (hlast r rfl)
      simp only [List.flatMap_nil, List.nil_append, Option.toList_some, List.flatMap_singleton,
        List.map_nil, List.map_singleton]
      rw [fgetsAll_cons (by decide) hne, hfgets]
      rfl
  | cons r lines ih =>
    have hfgets := fgets_line (newline_notMem_bytes r) (hlines r (by simp))
      (lines.flatMap (fun r => r.bytes ++ [newline]) ++ last.toList.flatMap Record.bytes)
    have hbytes : (r :: lines).flatMap (fun r => r.bytes ++ [newline]) ++
        last.toList.flatMap Record.bytes = r.bytes ++ newline ::
          (lines.flatMap (fun r => r.bytes ++ [newline]) ++ last.toList.flatMap Record.bytes) := by
      simp
    rw [hbytes, fgetsAll_cons (by decide) (by simp), hfgets, ih fun s hs => hlines s (by simp [hs])]
    rfl

theorem length_fgetsAll_le {size fuel : Nat} {fp line : Bytes} (h : line ∈ fgetsAll size fuel fp) :
    line.length ≤ size := by
  induction fuel generalizing fp with
  | zero => cases h
  | succ fuel ih =>
    cases fp with
    | nil => cases h
    | cons c fp =>
      rcases List.mem_cons.mp h with rfl | h
      · exact length_fgets_le size (c :: fp)
      · exact ih h

/-- `u` holds the record: its name, its numbers in the first rows, and zeros in the others. -/
structure Record.HeldBy (r : Record) (u : User) : Prop where
  name : u.name = r.name
  start : ∀ i (hi : i < 10) (hr : i < r.rows.length), u.timeAva[i].1.toInt = r.rows[i].start.value
  «end» : ∀ i (hi : i < 10) (hr : i < r.rows.length), u.timeAva[i].2.toInt = r.rows[i].end.value
  zero : ∀ i (hi : i < 10), r.rows.length ≤ i → u.timeAva[i] = (0, 0)

theorem heldBy_user {r : Record} (h : r.Storable) : r.HeldBy r.user := by
  have hrow : ∀ i (hi : i < 10), r.user.timeAva[i] = (r.rows[i]?.map Row.pair).getD (0, 0) := by
    intro i hi
    simp [Record.user, table]
  refine ⟨rfl, ?_, ?_, ?_⟩
  · intro i hi hr
    have hrange := (h.inRange r.rows[i] (List.getElem_mem hr)).1
    rw [hrow, List.getElem?_eq_getElem hr]
    exact Int32.toInt_ofNat_of_lt (by omega)
  · intro i hi hr
    have hrange := (h.inRange r.rows[i] (List.getElem_mem hr)).2
    rw [hrow, List.getElem?_eq_getElem hr]
    exact Int32.toInt_ofNat_of_lt (by omega)
  · intro i hi hr
    rw [hrow, List.getElem?_eq_none hr]
    rfl

theorem readFile_records {f : File} (hshort : f.Short) (h : ∀ r ∈ f.records, r.Storable) :
    readFile f.bytes = some (f.records.map Record.user) := by
  have hline : ∀ {records : List Record} {eol : Bytes}, eol = [] ∨ eol = [newline] →
      (∀ r ∈ records, r.Storable) →
      List.Forall₂ (fun line u => readLine line = some u) (records.map fun r => r.bytes ++ eol)
        (records.map Record.user) := by
    intro records eol heol hrecords
    rw [List.forall₂_map_left_iff, List.forall₂_map_right_iff, List.forall₂_same]
    intro r hr
    rw [readLine_record r heol, if_pos (hrecords r hr)]
  have hlast := hline (.inl rfl) fun r hr => h r (List.mem_append_right f.lines hr)
  simp only [List.append_nil] at hlast
  rw [readFile, fgetsAll_file hshort, mapM_readLine, File.records, List.map_append]
  exact List.rel_append (hline (.inr rfl) fun r hr => h r (List.mem_append_left _ hr)) hlast

/-- `readFile` returns the records of a file, each with its name and its numbers. -/
theorem readFile_format (f : File) (hshort : f.Short) (h : ∀ r ∈ f.records, r.Storable) :
    ∃ users, readFile f.bytes = some users ∧ List.Forall₂ Record.HeldBy f.records users := by
  refine ⟨_, readFile_records hshort h, ?_⟩
  rw [List.forall₂_map_right_iff, List.forall₂_same]
  exact fun r hr => heldBy_user (h r hr)

/-- The numeral with these digits. -/
def numeral (digits : Bytes) (hne : digits ≠ []) (h : digits.all isdigit = true) : Numeral :=
  ⟨digits, hne, List.all_eq_true.mp h⟩

theorem isWord_a : IsWord semicolon [97] := ⟨by decide, by decide, by decide⟩

theorem newline_notMem_a : newline ∉ [97] := by decide

def one : Numeral := numeral [49] (by decide) rfl
def two : Numeral := numeral [50] (by decide) rfl
def twelve : Numeral := numeral [49, 50] (by decide) rfl

/-- `a;[[1,2],[2,12]]` on a line, and `b;[]` without a newline. -/
def sampleFile : File where
  lines := [⟨[97], [⟨one, two⟩, ⟨two, twelve⟩], isWord_a, newline_notMem_a⟩]
  last := some ⟨[98], [], ⟨by decide, by decide, by decide⟩, by decide⟩

theorem short_sampleFile : sampleFile.Short := ⟨by decide, by decide⟩

theorem storable_sampleFile : ∀ r ∈ sampleFile.records, r.Storable := by decide

theorem readFile_format_sample :
    ∃ users, readFile sampleFile.bytes = some users ∧
      List.Forall₂ Record.HeldBy sampleFile.records users :=
  readFile_format sampleFile short_sampleFile storable_sampleFile

/-- One record a line, with the name of the line: no line is cut, no token is missing, and no row
beyond the table is written. -/
structure SafeRead (records : List Record) : Prop where
  uncut : fgetsAll 99 (File.mk records none).bytes.length (File.mk records none).bytes =
    records.map fun r => r.bytes ++ [newline]
  names : (readFile (File.mk records none).bytes).map Backend.getName =
    some (records.map (·.name))

theorem readFile_safe (records : List Record) :
    SafeRead records ↔ ∀ r ∈ records, r.bytes.length + 1 ≤ 99 ∧ r.Storable := by
  constructor
  · rintro ⟨huncut, hnames⟩ r hr
    have hmem : r.bytes ++ [newline] ∈ fgetsAll 99 (File.mk records none).bytes.length
        (File.mk records none).bytes := by
      rw [huncut]
      exact List.mem_map_of_mem hr
    obtain ⟨users, hread, _⟩ := Option.map_eq_some_iff.mp hnames
    rw [readFile, huncut, mapM_readLine, List.forall₂_map_left_iff] at hread
    refine ⟨by simpa using length_fgetsAll_le hmem, ?_⟩
    obtain ⟨i, hi, rfl⟩ := List.getElem_of_mem hr
    have hline := hread.get hi (hread.length_eq ▸ hi)
    simp only [List.get_eq_getElem] at hline
    rw [readLine_record _ (.inr rfl)] at hline
    by_contra hnot
    rw [if_neg hnot] at hline
    cases hline
  · intro h
    have hshort : (File.mk records none).Short := ⟨fun r hr => (h r hr).1, by simp⟩
    have hrecords : (File.mk records none).records = records := by simp [File.records]
    have hread := readFile_records hshort (by rw [hrecords]; exact fun r hr => (h r hr).2)
    refine ⟨by simpa using fgetsAll_file hshort, ?_⟩
    rw [hread, hrecords, Option.map_some, Backend.getName, List.map_map]
    rfl

/-- `a;[[100,120],...]` with ten rows: the line has 104 bytes, and what `fgets` leaves of it for a
second line has no `;`. -/
def longRecord : Record where
  name := [97]
  rows := List.replicate 10
    ⟨numeral [49, 48, 48] (by decide) rfl, numeral [49, 50, 48] (by decide) rfl⟩
  isWord := isWord_a
  noNewline := newline_notMem_a

theorem readFile_cuts : ¬ ∀ records, SafeRead records := by
  intro h
  have hnone : readFile (File.mk [longRecord] none).bytes = none := by decide +kernel
  have hnames := (h [longRecord]).names
  rw [hnone] at hnames
  cases hnames

/-! ## From the file to the scheduler -/

/-- The interval of a row, as the record says it. -/
def Row.interval (row : Row) : TimeInterval :=
  ⟨Int32.ofNat row.start.value, Int32.ofNat row.end.value⟩

def Record.intervals (r : Record) : List TimeInterval := r.rows.map Row.interval

/-- Every interval is proper and ends no later than the next one starts. -/
structure Record.Sorted (r : Record) : Prop where
  proper : ∀ row ∈ r.rows, row.start.value < row.end.value
  ordered : r.rows.IsChain fun a b => a.end.value ≤ b.start.value

def Record.StartsAtZero (r : Record) : Prop := ∃ row ∈ r.rows.head?, row.start.value = 0

instance (r : Record) : Decidable r.StartsAtZero :=
  match h : r.rows.head? with
  | none => isFalse fun ⟨row, hrow, _⟩ => by simp [h] at hrow
  | some row => decidable_of_iff (row.start.value = 0) (by simp [Record.StartsAtZero, h])

theorem toList_table {pairs : List (Int32 × Int32)} (h : pairs.length ≤ 10) :
    (table pairs).toList = pairs ++ List.replicate (10 - pairs.length) (0, 0) := by
  refine List.ext_getElem (by simp; omega) ?_
  intro i hi _
  have hrow : (table pairs).toList[i] = pairs[i]?.getD (0, 0) := by simp [table]
  rw [hrow, List.getElem_append]
  split
  · rename_i hlt
    rw [List.getElem?_eq_getElem hlt, Option.getD_some]
  · rename_i hge
    rw [List.getElem?_eq_none (not_lt.mp hge), List.getElem_replicate, Option.getD_none]

/-- The padding ends the list that is read from a table, unless a zero in a row does so before. -/
theorem getTimeInterval_table {pairs : List (Int32 × Int32)} (h : pairs.length ≤ 10) :
    Backend.getTimeInterval (table pairs) =
      (pairs.takeWhile fun row => !(row.1 == 0 || row.2 == 0)).map fun row => ⟨row.1, row.2⟩ := by
  have hzeros : ∀ n, (List.replicate n ((0, 0) : Int32 × Int32)).takeWhile
      (fun row => !(row.1 == 0 || row.2 == 0)) = [] := by
    intro n
    cases n <;> simp [List.replicate_succ]
  rw [Backend.getTimeInterval, toList_table h, List.takeWhile_append, hzeros, List.append_nil]
  split
  · rename_i hall
    rw [(List.takeWhile_prefix _).eq_of_length hall]
  · rfl

theorem pair_zero {row : Row} (h : row.InRange) :
    (row.pair.1 = 0 ↔ row.start.value = 0) ∧ (row.pair.2 = 0 ↔ row.end.value = 0) := by
  have hzero : ∀ n ≤ 2147483647, Int32.ofNat n = 0 ↔ n = 0 := by
    intro n hn
    rw [← Int32.toInt_inj, Int32.toInt_ofNat_of_lt (by omega)]
    simp
  exact ⟨hzero _ h.1, hzero _ h.2⟩

/-- In a sorted record only the first start can be 0. -/
theorem start_pos {rows : List Row} (hproper : ∀ row ∈ rows, row.start.value < row.end.value)
    (hordered : rows.IsChain fun a b => a.end.value ≤ b.start.value) :
    ∀ row ∈ rows.tail, 0 < row.start.value := by
  induction rows with
  | nil => simp
  | cons a rows ih =>
    cases rows with
    | nil => simp
    | cons b rows =>
      obtain ⟨hab, htail⟩ := List.isChain_cons_cons.mp hordered
      have ha := hproper a (by simp)
      intro row hrow
      rcases List.mem_cons.mp hrow with rfl | hrow
      · omega
      · exact ih (fun row h => hproper row (List.mem_cons_of_mem a h)) htail row hrow

/-- What the scheduler gets of a sorted record: all of it, or nothing if it starts at time 0. -/
theorem intervals_user {r : Record} (h : r.Storable) (hsorted : r.Sorted) :
    Backend.intervals r.user = if r.StartsAtZero then [] else r.intervals := by
  obtain ⟨name, rows, hword, hline⟩ := r
  have hlen : (rows.map Row.pair).length ≤ 10 := by
    rw [List.length_map]
    exact h.rows
  have hstart := start_pos hsorted.proper hsorted.ordered
  have hnonzero : ∀ row ∈ rows, 0 < row.start.value →
      (!(row.pair.1 == 0 || row.pair.2 == 0)) = true := by
    intro row hrow hpos
    have hend : row.start.value < row.end.value := hsorted.proper row hrow
    obtain ⟨h1, h2⟩ := pair_zero (h.inRange row hrow)
    have hs : row.pair.1 ≠ 0 := fun e => hpos.ne' (h1.mp e)
    have he : row.pair.2 ≠ 0 := fun e => (by omega : row.end.value ≠ 0) (h2.mp e)
    simp [hs, he]
  rw [Backend.intervals, Record.user, getTimeInterval_table hlen]
  cases rows with
  | nil => simp [Record.StartsAtZero, Record.intervals]
  | cons row rows =>
    by_cases hzero : row.start.value = 0
    · have hpair : row.pair.1 = 0 := (pair_zero (h.inRange row (by simp))).1.mpr hzero
      have hstarts : Record.StartsAtZero ⟨name, row :: rows, hword, hline⟩ := ⟨row, rfl, hzero⟩
      rw [if_pos hstarts, List.map_cons, List.takeWhile_cons, if_neg (by simp [hpair]),
        List.map_nil]
    · have hall : ∀ p ∈ (row :: rows).map Row.pair, (!(p.1 == 0 || p.2 == 0)) = true := by
        intro p hp
        obtain ⟨x, hx, rfl⟩ := List.mem_map.mp hp
        rcases List.mem_cons.mp hx with rfl | htail
        · exact hnonzero x (by simp) (by omega)
        · exact hnonzero x hx (hstart x htail)
      have hnot : ¬ Record.StartsAtZero ⟨name, row :: rows, hword, hline⟩ := by
        simpa [Record.StartsAtZero] using hzero
      rw [if_neg hnot, List.takeWhile_eq_self_iff.mpr hall, List.map_map]
      rfl

/-- Every query of a request is that of the record it asks for; the list of a sorted record is
handed over whole, unless it starts at time 0, which ends the table. -/
theorem availability_kept (f : File) (hshort : f.Short) (h : ∀ r ∈ f.records, r.Storable) :
    ∃ users, readFile f.bytes = some users ∧ ∀ REQ : List Bytes,
      List.Forall₂ (fun (r : Record) (q : Query) => q.name = r.name ∧
          (r.Sorted → q.time = if r.StartsAtZero then [] else r.intervals))
        (REQ.flatMap fun name => f.records.filter (·.name = name))
        (Backend.getRequestInfo REQ users) := by
  refine ⟨_, readFile_records hshort h, ?_⟩
  intro REQ
  induction REQ with
  | nil => exact .nil
  | cons name REQ ih =>
    rw [Backend.getRequestInfo_cons, List.flatMap_cons, List.filter_map, List.map_map]
    refine List.rel_append ?_ ih
    rw [List.forall₂_map_right_iff]
    have hname : (fun u : User => decide (u.name = name)) ∘ Record.user =
        fun r : Record => decide (r.name = name) := rfl
    rw [hname, List.forall₂_same]
    intro r hr
    exact ⟨rfl, intervals_user (h r (List.mem_of_mem_filter hr))⟩

theorem availability_kept_sample :
    ∃ users, readFile sampleFile.bytes = some users ∧ ∀ REQ : List Bytes,
      List.Forall₂ (fun (r : Record) (q : Query) => q.name = r.name ∧
          (r.Sorted → q.time = if r.StartsAtZero then [] else r.intervals))
        (REQ.flatMap fun name => sampleFile.records.filter (·.name = name))
        (Backend.getRequestInfo REQ users) :=
  availability_kept sampleFile short_sampleFile storable_sampleFile

/-- `a;[[0,2],[2,12]]`. -/
def zeroRecord : Record where
  name := [97]
  rows := [⟨numeral [48] (by decide) rfl, two⟩, ⟨two, twelve⟩]
  isWord := isWord_a
  noNewline := newline_notMem_a

/-- A record that starts at time 0 hands over nothing, neither its first interval nor its second. -/
theorem availability_lost :
    ¬ ∀ f : File, f.Short → (∀ r ∈ f.records, r.Storable) →
      ∃ users, readFile f.bytes = some users ∧ ∀ REQ : List Bytes,
        List.Forall₂ (fun (r : Record) (q : Query) => q.name = r.name ∧
            (r.Sorted → q.time = r.intervals))
          (REQ.flatMap fun name => f.records.filter (·.name = name))
          (Backend.getRequestInfo REQ users) := by
  intro h
  have hshort : (File.mk [zeroRecord] none).Short := ⟨by decide, by decide⟩
  have hstorable : ∀ r ∈ (File.mk [zeroRecord] none).records, r.Storable := by decide
  obtain ⟨users, hread, hqueries⟩ := h _ hshort hstorable
  have hinfo : (readFile (File.mk [zeroRecord] none).bytes).map (Backend.getRequestInfo [[97]]) =
      some [⟨[97], []⟩] := by decide +kernel
  rw [hread, Option.map_some, Option.some.injEq] at hinfo
  have hone := hqueries [[97]]
  rw [hinfo] at hone
  have hrecords : ([[97]] : List Bytes).flatMap
      (fun name => (File.mk [zeroRecord] none).records.filter (·.name = name)) = [zeroRecord] := rfl
  rw [hrecords] at hone
  have hsorted : zeroRecord.Sorted := ⟨by decide, by decide⟩
  cases hone with
  | cons hquery _ => exact absurd (hquery.2 hsorted) (by decide)

end StreamBridge
