import StreamBridge.Format
import StreamBridge.Lib.Decimal

/-!
# StreamBridge.Screen

What the programs print of an interval list: `[[s1,e1], [s2,e2]]`, with a space behind each comma
between two intervals, which the format of `a.txt` and `b.txt` does not have.

* `printIntersection_injective`: the text determines the list.
* `readLine_printed`: behind a name and a `;` the text is a record, and `readFile` reads the list
  back from it, as long as it has at most ten intervals.
* `printed_file_read`: so a file of such lines loads the lists it was printed from.
-/

namespace StreamBridge

open CString Intervals

/-- The bytes of a text of the source. -/
def text (s : String) : Bytes := s.toList.map fun c => UInt8.ofNat c.toNat

/-- `cout << n` for an `int`. -/
def decimal (n : Int32) : Bytes := Decimal.signed n.toInt

/-- `"[" << start << "," << end << "]"`. -/
def printRow (t : TimeInterval) : Bytes :=
  openBracket :: (decimal t.start ++ comma :: (decimal t.end ++ [closeBracket]))

/-- The loop of `printIntersection`: `", "` behind every interval but the last. -/
def printRows : List TimeInterval → Bytes
  | [] => []
  | [t] => printRow t
  | t :: u :: ts => printRow t ++ comma :: space :: printRows (u :: ts)

/-- `printIntersection` of `client.h` and `serverM.h`. -/
def printIntersection (time_list : List TimeInterval) : Bytes :=
  openBracket :: (printRows time_list ++ [closeBracket])

/-! ## The text determines the list -/

theorem printRow_append {t u : TimeInterval} {r r' : Bytes}
    (h : printRow t ++ r = printRow u ++ r') : t = u ∧ r = r' := by
  obtain ⟨ts, te⟩ := t
  obtain ⟨us, ue⟩ := u
  simp only [printRow, List.cons_append, List.append_assoc, List.nil_append, List.cons.injEq,
    true_and] at h
  obtain ⟨hstart, h⟩ := Decimal.signed_append_inj (by decide) (.inl (by decide)) h
  obtain ⟨hend, hrest⟩ := Decimal.signed_append_inj (by decide) (.inr (by decide)) h
  rw [Int32.toInt_inj.mp hstart, Int32.toInt_inj.mp hend]
  exact ⟨rfl, hrest⟩

theorem printRows_append {L M : List TimeInterval} {r r' : Bytes}
    (h : printRows L ++ closeBracket :: r = printRows M ++ closeBracket :: r') :
    L = M ∧ r = r' := by
  have hempty : ∀ t ts (s s' : Bytes), printRows (t :: ts) ++ s ≠ closeBracket :: s' := by
    intro t ts s s' h
    have hhead := congrArg List.head? h
    cases ts <;> cases hhead
  induction L generalizing M with
  | nil =>
    cases M with
    | nil => exact ⟨rfl, (List.cons.inj h).2⟩
    | cons u us => exact absurd h.symm (hempty u us _ _)
  | cons t ts ih =>
    cases M with
    | nil => exact absurd h (hempty t ts _ _)
    | cons u us =>
      -- behind the first interval there is a comma or the end, on both sides alike
      cases ts with
      | nil =>
        cases us with
        | nil =>
          obtain ⟨hfirst, hrest⟩ := printRow_append h
          exact ⟨by rw [hfirst], (List.cons.inj hrest).2⟩
        | cons v us =>
          simp only [printRows, List.append_assoc] at h
          cases (printRow_append h).2
      | cons t' ts =>
        cases us with
        | nil =>
          simp only [printRows, List.append_assoc] at h
          cases (printRow_append h).2
        | cons v us =>
          simp only [printRows, List.append_assoc, List.cons_append] at h
          obtain ⟨hfirst, hrest⟩ := printRow_append h
          obtain ⟨hlists, hr⟩ := ih (List.cons.inj (List.cons.inj hrest).2).2
          exact ⟨by rw [hfirst, hlists], hr⟩

/-- The text ends where the list ends, whatever is printed behind it. -/
theorem printIntersection_append {L M : List TimeInterval} {r r' : Bytes}
    (h : printIntersection L ++ r = printIntersection M ++ r') : L = M ∧ r = r' := by
  simp only [printIntersection, List.cons_append, List.append_assoc, List.nil_append,
    List.cons.injEq, true_and] at h
  exact printRows_append h

/-- Different lists are printed differently, negative numbers and unsorted lists included. -/
theorem printIntersection_injective (L M : List TimeInterval) :
    printIntersection L = printIntersection M ↔ L = M := by
  constructor
  · intro h
    exact (printIntersection_append (congrArg (· ++ []) h)).1
  · intro h
    rw [h]

/-! ## The text as a record -/

/-- The digits of a number, as a numeral of the format. -/
def numeralOf (n : Nat) : Numeral where
  digits := Decimal.digits n
  nonempty := Decimal.digits_ne_nil n
  isdigit c hc := by
    have hdigit := Decimal.toNat_digits hc
    unfold isdigit
    rw [Bool.and_eq_true, decide_eq_true_iff, decide_eq_true_iff, UInt8.le_iff_toNat_le,
      UInt8.le_iff_toNat_le]
    exact hdigit

theorem value_numeralOf (n : Nat) : (numeralOf n).value = n := Decimal.value_digits n

def printedRow (t : TimeInterval) : Row :=
  ⟨numeralOf t.start.toInt.toNat, numeralOf t.end.toInt.toNat⟩

/-- What `readFile` stores for an interval. -/
def pairOf (t : TimeInterval) : Int32 × Int32 := (t.start, t.end)

theorem toInt_pos {n : Int32} (h : 0 < n) : 0 < n.toInt := Int32.lt_iff_toInt_lt.mp h

theorem decimal_pos {n : Int32} (h : 0 < n) : decimal n = (numeralOf n.toInt.toNat).digits := by
  have hpos := toInt_pos h
  have hnat : n.toInt.natAbs = n.toInt.toNat := by omega
  rw [decimal, Decimal.signed_of_nonneg hpos.le, hnat]
  rfl

theorem printRow_eq {t : TimeInterval} (h : Positive t) : printRow t = (printedRow t).bytes := by
  unfold printRow
  rw [decimal_pos h.1, decimal_pos h.2]
  rfl

theorem inRange_printedRow (t : TimeInterval) : (printedRow t).InRange := by
  have hs := Int32.toInt_lt t.start
  have he := Int32.toInt_lt t.end
  unfold Row.InRange
  simp only [printedRow, value_numeralOf]
  omega

theorem pair_printedRow {t : TimeInterval} (h : Positive t) : (printedRow t).pair = pairOf t := by
  have hof : ∀ {n : Int32}, 0 < n → Int32.ofNat n.toInt.toNat = n := by
    intro n hn
    have hpos := toInt_pos hn
    have hlt := Int32.toInt_lt n
    rw [← Int32.toInt_inj, Int32.toInt_ofNat_of_lt (by omega)]
    omega
  unfold Row.pair
  simp only [printedRow, value_numeralOf, hof h.1, hof h.2, pairOf]

theorem scan_printRow {t : TimeInterval} (h : Positive t) (done : List (Int32 × Int32))
    (rest : Bytes) :
    scan (printRow t ++ rest) ⟨[], done.length, table done⟩ =
      if done.length < 10 then
        scan (closeBracket :: rest) ⟨[], (done ++ [pairOf t]).length, table (done ++ [pairOf t])⟩
      else none := by
  rw [printRow_eq h, scan_row, pair_printedRow h]
  exact if_congr (and_iff_right (inRange_printedRow t)) rfl rfl

/-- The loop passes over the space behind a comma. -/
theorem scan_separator (bs : Bytes) (st : Scan) :
    scan (closeBracket :: comma :: space :: openBracket :: bs) st =
      scan (openBracket :: bs) st := by
  have hspace : scan (comma :: space :: openBracket :: bs) st =
      scan (space :: openBracket :: bs) st := rfl
  rw [scan_comma, isdigit_closeBracket, if_neg Bool.false_ne_true, hspace, scan_open]

theorem printRows_open (t : TimeInterval) (ts : List TimeInterval) (rest : Bytes) :
    ∃ bs, printRows (t :: ts) ++ rest = openBracket :: bs := by
  cases ts <;> exact ⟨_, rfl⟩

/-- All intervals of a printed list, up to its closing bracket. -/
theorem scan_printed {t : TimeInterval} {ts : List TimeInterval}
    (hpos : ∀ u ∈ t :: ts, Positive u) (done : List (Int32 × Int32)) (rest : Bytes) :
    scan (printRows (t :: ts) ++ closeBracket :: rest) ⟨[], done.length, table done⟩ =
      if done.length + (t :: ts).length ≤ 10 then
        some ⟨[], (done ++ (t :: ts).map pairOf).length, table (done ++ (t :: ts).map pairOf)⟩
      else none := by
  have hfirst : Positive t := hpos t List.mem_cons_self
  induction ts generalizing t done with
  | nil =>
    rw [printRows, scan_printRow hfirst, scan_close, isdigit_closeBracket,
      if_neg Bool.false_ne_true]
    exact if_congr Iff.rfl rfl rfl
  | cons u ts ih =>
    have hrest : printRows (t :: u :: ts) ++ closeBracket :: rest =
        printRow t ++ comma :: space :: (printRows (u :: ts) ++ closeBracket :: rest) := by
      simp [printRows]
    obtain ⟨bs, hbs⟩ := printRows_open u ts (closeBracket :: rest)
    have htail := ih (fun v hv => hpos v (List.mem_cons_of_mem t hv)) (done ++ [pairOf t])
      (hpos u (by simp))
    rw [hrest, scan_printRow hfirst, hbs, scan_separator, ← hbs, htail]
    simp only [List.length_append, List.length_nil, List.length_cons, List.append_assoc,
      List.singleton_append, List.map_cons]
    by_cases hlen : done.length < 10
    · rw [if_pos hlen]
      exact if_congr (by omega) rfl rfl
    · rw [if_neg hlen, if_neg (by omega)]

theorem scan_printIntersection {L : List TimeInterval} (hpos : ∀ t ∈ L, Positive t) (eol : Bytes) :
    (scan (printIntersection L ++ eol) Scan.init).map (·.timeAva) =
      if L.length ≤ 10 then some (table (L.map pairOf)) else none := by
  have hinit : Scan.init = ⟨[], ([] : List (Int32 × Int32)).length, table []⟩ := by
    have hzeros : Vector.replicate 10 ((0, 0) : Int32 × Int32) = table [] := by decide
    rw [Scan.init, hzeros]
    rfl
  have hbytes : printIntersection L ++ eol =
      openBracket :: (printRows L ++ closeBracket :: eol) := by simp [printIntersection]
  rw [hbytes, hinit]
  cases L with
  | nil =>
    rw [printRows, List.nil_append, scan_close, isdigit_openBracket, if_neg Bool.false_ne_true]
    rfl
  | cons t ts =>
    obtain ⟨bs, hbs⟩ := printRows_open t ts (closeBracket :: eol)
    rw [hbs, scan_open, ← hbs, scan_printed hpos]
    simp only [List.length_nil, Nat.zero_add, List.nil_append]
    split <;> rfl

/-- Nothing is printed but brackets, commas, spaces and numbers. -/
theorem notMem_printIntersection {c : Byte} (hsign : c ≠ 45) (hdigit : c.toNat < 48 ∨ 57 < c.toNat)
    (hc : c ∉ [openBracket, closeBracket, comma, space]) (L : List TimeInterval) :
    c ∉ printIntersection L := by
  simp only [List.mem_cons, List.not_mem_nil, or_false, not_or] at hc
  obtain ⟨hopen, hclose, hcomma, hspace⟩ := hc
  have hnumber : ∀ n, c ∉ decimal n := fun n => Decimal.notMem_signed hsign hdigit
  have hrow : ∀ t, c ∉ printRow t := by
    intro t
    simp [printRow, hopen, hclose, hcomma, hnumber]
  have hrows : c ∉ printRows L := by
    induction L with
    | nil => simp [printRows]
    | cons t ts ih =>
      cases ts with
      | nil => exact hrow t
      | cons u ts => simp [printRows, hrow, hcomma, hspace, ih]
  simp [printIntersection, hopen, hclose, hrows]

/-- Behind a name and a `;` a printed list is a record of the format. -/
theorem readLine_printed {name : Bytes} (hname : IsWord semicolon name) {L : List TimeInterval}
    (hpos : ∀ t ∈ L, Positive t) {eol : Bytes} (heol : eol = [] ∨ eol = [newline]) :
    readLine (name ++ semicolon :: (printIntersection L ++ eol)) =
      if L.length ≤ 10 then some ⟨name, table (L.map pairOf)⟩ else none := by
  have heol : ∀ c, c ≠ newline → c ∉ eol := by
    intro c hc hmem
    rcases heol with rfl | rfl
    · cases hmem
    · exact hc (List.mem_singleton.mp hmem)
  have hword : IsWord semicolon (printIntersection L ++ eol) := by
    refine ⟨by simp [printIntersection], ?_, ?_⟩
    · rw [List.mem_append, not_or]
      exact ⟨notMem_printIntersection (by decide) (.inr (by decide)) (by decide) L,
        heol _ (by decide)⟩
    · rw [List.mem_append, not_or]
      exact ⟨notMem_printIntersection (by decide) (.inl (by decide)) (by decide) L,
        heol _ (by decide)⟩
  have hbytes : name ++ semicolon :: (printIntersection L ++ eol) ++ [0] =
      name ++ semicolon :: ((printIntersection L ++ eol) ++ 0 :: []) := by simp
  have htoken := strtok_word hname (.inl rfl) ((printIntersection L ++ eol) ++ 0 :: [])
  have hlist := strtok_word hword (.inr rfl) []
  have hscan := scan_printIntersection hpos eol
  rw [if_neg (by decide)] at htoken
  simp only [readLine, hbytes, htoken, hlist, Option.bind_eq_bind, Option.bind_some]
  by_cases hten : L.length ≤ 10
  · rw [if_pos hten] at hscan ⊢
    obtain ⟨st, hst, htable⟩ := Option.map_eq_some_iff.mp hscan
    rw [hst, Option.bind_some, htable]
  · rw [if_neg hten, Option.map_eq_none_iff] at hscan
    rw [if_neg hten, hscan, Option.bind_none]

theorem intervals_table {name : Bytes} {L : List TimeInterval} (hpos : ∀ t ∈ L, Positive t)
    (hten : L.length ≤ 10) : Backend.intervals ⟨name, table (L.map pairOf)⟩ = L := by
  have hnonzero : ∀ p ∈ L.map pairOf, (!(p.1 == 0 || p.2 == 0)) = true := by
    intro p hp
    obtain ⟨t, ht, rfl⟩ := List.mem_map.mp hp
    have hs : (pairOf t).1 ≠ 0 := (hpos t ht).1.ne'
    have he : (pairOf t).2 ≠ 0 := (hpos t ht).2.ne'
    simp [hs, he]
  rw [Backend.intervals, getTimeInterval_table (by rwa [List.length_map]),
    List.takeWhile_eq_self_iff.mpr hnonzero, List.map_map]
  exact List.map_id L

/-! ## A file of printed lists -/

/-- A name, and the list that is printed for it. -/
structure Entry where
  name : Bytes
  free : List TimeInterval
  isWord : IsWord semicolon name
  noNewline : newline ∉ name

/-- The name and a `;`, and behind them what `printIntersection` prints. -/
def Entry.line (e : Entry) : Bytes := e.name ++ semicolon :: printIntersection e.free

def printedFile (entries : List Entry) : Bytes := entries.flatMap fun e => e.line ++ [newline]

theorem newline_notMem_line (e : Entry) : newline ∉ e.line := by
  have hlist : newline ∉ printIntersection e.free :=
    notMem_printIntersection (by decide) (.inl (by decide)) (by decide) e.free
  have hsemicolon : newline ≠ semicolon := by decide
  simp [Entry.line, e.noNewline, hlist, hsemicolon]

/-- `fgets` cuts lines that fit its buffer after each newline. -/
theorem fgetsAll_lines {lines : List Bytes} (hnewline : ∀ line ∈ lines, newline ∉ line)
    (hshort : ∀ line ∈ lines, line.length + 1 ≤ 99) :
    fgetsAll 99 (lines.flatMap (· ++ [newline])).length (lines.flatMap (· ++ [newline])) =
      lines.map (· ++ [newline]) := by
  induction lines with
  | nil => rfl
  | cons line lines ih =>
    have hfgets := fgets_line (hnewline line (by simp)) (hshort line (by simp))
      (lines.flatMap (· ++ [newline]))
    have hbytes : (line :: lines).flatMap (· ++ [newline]) =
        line ++ newline :: lines.flatMap (· ++ [newline]) := by simp
    rw [hbytes, fgetsAll_cons (by decide) (by simp), hfgets,
      ih (fun l hl => hnewline l (by simp [hl])) fun l hl => hshort l (by simp [hl])]
    rfl

theorem readFile_printedFile {entries : List Entry}
    (hshort : ∀ e ∈ entries, e.line.length + 1 ≤ 99) (list : List User) :
    readFile (printedFile entries) = some list ↔
      List.Forall₂ (fun e u => readLine (e.line ++ [newline]) = some u) entries list := by
  have hnewline : ∀ line ∈ entries.map Entry.line, newline ∉ line := by
    simp [newline_notMem_line]
  have hlines := fgetsAll_lines hnewline (by simpa using hshort)
  rw [List.flatMap_map, List.map_map] at hlines
  rw [readFile, printedFile, hlines, mapM_readLine, List.forall₂_map_left_iff]
  rfl

/-- A file of printed lists, one a line behind a name, loads exactly the lists it was printed from,
as long as no list has more than the ten intervals a `User` holds; otherwise it cannot be read. -/
theorem printed_file_read (entries : List Entry)
    (hshort : ∀ e ∈ entries, e.line.length + 1 ≤ 99)
    (hpos : ∀ e ∈ entries, ∀ t ∈ e.free, Positive t) :
    (readFile (printedFile entries)).map
        (List.map fun u => (u.name, Backend.intervals u)) =
      if ∀ e ∈ entries, e.free.length ≤ 10 then some (entries.map fun e => (e.name, e.free))
      else none := by
  have hline : ∀ e ∈ entries, readLine (e.line ++ [newline]) =
      if e.free.length ≤ 10 then some ⟨e.name, table (e.free.map pairOf)⟩ else none := by
    intro e he
    rw [← readLine_printed e.isWord (hpos e he) (.inr rfl), Entry.line, List.append_assoc]
    rfl
  by_cases hten : ∀ e ∈ entries, e.free.length ≤ 10
  · have hread := (readFile_printedFile hshort
      (entries.map fun e => ⟨e.name, table (e.free.map pairOf)⟩)).mpr (by
        rw [List.forall₂_map_right_iff, List.forall₂_same]
        intro e he
        rw [hline e he, if_pos (hten e he)])
    rw [if_pos hten, hread, Option.map_some, List.map_map]
    refine congrArg some (List.map_congr_left fun e he => ?_)
    exact congrArg (e.name, ·) (intervals_table (hpos e he) (hten e he))
  · rw [if_neg hten, Option.map_eq_none_iff, Option.eq_none_iff_forall_not_mem]
    intro list hread
    refine hten fun e he => ?_
    obtain ⟨i, hi, rfl⟩ := List.getElem_of_mem he
    have hlines := (readFile_printedFile hshort list).mp hread
    have hi' : i < list.length := hlines.length_eq ▸ hi
    have hsome := hlines.get hi hi'
    simp only [List.get_eq_getElem] at hsome
    rw [hline _ he] at hsome
    by_contra hmany
    rw [if_neg hmany] at hsome
    cases hsome

theorem isWord_b : IsWord semicolon [98] := ⟨by decide, by decide, by decide⟩

theorem newline_notMem_b : newline ∉ [98] := by decide

/-- `a;[[1,2], [3,12]]` and `b;[]`. -/
def sampleEntries : List Entry :=
  [⟨[97], [⟨1, 2⟩, ⟨3, 12⟩], isWord_a, newline_notMem_a⟩, ⟨[98], [], isWord_b, newline_notMem_b⟩]

theorem printed_file_read_sample :
    (readFile (printedFile sampleEntries)).map
        (List.map fun u => (u.name, Backend.intervals u)) =
      some [([97], [⟨1, 2⟩, ⟨3, 12⟩]), ([98], [])] := by
  have hshort : ∀ e ∈ sampleEntries, e.line.length + 1 ≤ 99 := by decide
  rw [printed_file_read sampleEntries hshort (by decide), if_pos (by decide)]
  rfl

end StreamBridge
