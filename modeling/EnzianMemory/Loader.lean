import Mathlib.Algebra.Group.Int
import EnzianMemory.Lines

/-!
`load_dataset_generic` of `redis_fpga.c`: the header gives the columns, the first data row
their types, and every row its `HSET row:<r> <name> <value>` commands. Fields are cut by
`strtok_r(line, ",", &saveptr)`, which skips empty fields. A command whose value is `none`
passes a `tokens[i]` slot the first row left unassigned.
-/

namespace EnzianMemory.Redis

/-- `MAX_COLS`. -/
def maxCols : ℕ := 32

/-- `strtok_r(s, ",", &saveptr)`: the next token and what `saveptr` then points at, or `NULL`. -/
def strtokR (s : List Char) : Option (List Char × List Char) :=
  match s.dropWhile (· = ',') with
  | [] => none
  | t => some (t.takeWhile (· ≠ ','), (t.dropWhile (· ≠ ',')).drop 1)

/-- A `Column` as the loader fills it; `mean` is left to the queries. -/
structure Column where
  name : List Char
  isInt : Bool
  deriving DecidableEq, Repr

inductive Command
  | del (key : List Char)
  | hset (key field : List Char) (value : Option (List Char))
  deriving DecidableEq, Repr

def schemaKey : List Char := "schema".toList

/-- `snprintf(key, sizeof(key), "row:%d", row)`. -/
def rowKey (row : ℤ) : List Char := ("row:" ++ toString row).toList

/-- A value cut to an `int` in two's complement: `row++` past `INT_MAX` is undefined in C, and
the 32-bit add the compiler emits wraps to `INT_MIN`. -/
def int32 (x : ℤ) : ℤ :=
  (x + 2 ^ 31) % 2 ^ 32 - 2 ^ 31

/-- The header loop: `strncpy` keeps 63 bytes of each name, and every column starts as `int`. -/
def readHeader (s : List Char) : ℕ → List Column
  | 0 => []
  | k + 1 =>
    match strtokR s with
    | none => []
    | some (tok, rest) => ⟨tok.take 63, true⟩ :: readHeader rest k

/-- The first-row loop: the tokens it stores into `tokens[0..]`. -/
def firstRow (s : List Char) : ℕ → List (List Char)
  | 0 => []
  | k + 1 =>
    match strtokR s with
    | none => []
    | some (tok, rest) => tok :: firstRow rest k

/-- The type test of the first-row loop: no byte other than a digit or `'-'`. -/
def isIntToken (tok : List Char) : Bool :=
  tok.all fun c => decide ¬((c < '0' ∨ '9' < c) ∧ c ≠ '-')

/-- `schema[i].is_int = 0` for each stored token that fails the test. -/
def inferTypes : List Column → List (List Char) → List Column
  | [], _ => []
  | cols, [] => cols
  | col :: cols, tok :: toks =>
    { col with isInt := col.isInt && isIntToken tok } :: inferTypes cols toks

def schemaCommand (col : Column) : Command :=
  .hset schemaKey col.name (some (if col.isInt then "int" else "string").toList)

/-- The remaining-rows inner loop over `i < cols && tok`. -/
def rowCommands (key : List Char) : List Column → List Char → List Command
  | [], _ => []
  | col :: cols, s =>
    match strtokR s with
    | none => []
    | some (tok, rest) => .hset key col.name (some tok) :: rowCommands key cols rest

/-- The remaining-rows loop from the `int` row number `row`: its commands and the final
`row`. -/
def storeRows (schema : List Column) : ℤ → List (List Char) → List Command × ℤ
  | row, [] => ([], row)
  | row, line :: lines =>
    if line = [] then storeRows schema row lines
    else
      let stored := storeRows schema (int32 (row + 1)) lines
      (rowCommands (rowKey (int32 (row + 1))) schema line ++ stored.1, stored.2)

/-- What `load_dataset_generic` leaves: the commands it sends, the `schema` entries and `*ns` it
writes, the last line it prints, and what it returns. -/
structure Load where
  commands : List Command
  schema : List Column
  ns : Option ℕ
  message : String
  rows : ℤ

def loadDatasetGeneric (file : Dataset) : Load :=
  match readFileIntoBuffer file with
  | .error e => ⟨[], [], none, e, 0⟩
  | .ok buf =>
    match nextLine buf with
    | none => ⟨[], [], none, "ERROR: Empty CSV", 0⟩
    | some (header, cursor) =>
      let names := readHeader header maxCols
      match nextLine cursor with
      | none => ⟨[], names, some names.length, "ERROR: CSV has header but no data rows", 0⟩
      | some (first, cursor) =>
        let tokens := firstRow first names.length
        let schema := inferTypes names tokens
        let row1 := schema.mapIdx fun i col => Command.hset (rowKey 1) col.name tokens[i]?
        let stored := storeRows schema 1 (nextLines cursor)
        ⟨.del schemaKey :: schema.map schemaCommand ++ row1 ++ stored.1, schema,
          some schema.length, "Loaded " ++ toString stored.2 ++ " rows, " ++
            toString schema.length ++ " columns", stored.2⟩

def nonEmptyFields (line : List Char) : List (List Char) :=
  (line.splitOn ',').filter (· ≠ [])

/-- The commands for data lines numbered from `r + 1`: one `HSET` per column that the line
has a field for. -/
def rowSpec (names : List (List Char)) : ℕ → List (List Char) → List Command
  | _, [] => []
  | r, line :: lines =>
    (names.zip (nonEmptyFields line)).map (fun nv => .hset (rowKey (r + 1 : ℕ)) nv.1 (some nv.2)) ++
      rowSpec names (r + 1) lines

theorem nonEmptyFields_comma (s : List Char) : nonEmptyFields (',' :: s) = nonEmptyFields s := by
  simp [nonEmptyFields, List.splitOn]

theorem nonEmptyFields_token {tok : List Char} (hne : tok ≠ []) (hc : ',' ∉ tok)
    (r : List Char) :
    nonEmptyFields (tok ++ ',' :: r) = tok :: nonEmptyFields r := by
  have := List.splitOnP_first (· == ',') tok (fun x hx => by
    simpa using ne_of_mem_of_not_mem hx hc) ',' (by simp) r
  simp [nonEmptyFields, List.splitOn, this, hne]

theorem nonEmptyFields_last {tok : List Char} (hc : ',' ∉ tok) :
    nonEmptyFields tok = if tok = [] then [] else [tok] := by
  have := List.splitOnP_eq_single (· == ',') tok fun x hx => by
    simpa using ne_of_mem_of_not_mem hx hc
  split_ifs with h <;> simp [nonEmptyFields, List.splitOn, this, h]

theorem nonEmptyFields_eq (s : List Char) :
    nonEmptyFields s = match strtokR s with
      | none => []
      | some (tok, rest) => tok :: nonEmptyFields rest := by
  induction s with
  | nil => rfl
  | cons c s ih =>
    by_cases hc : c = ','
    · subst hc
      rw [nonEmptyFields_comma, ih]
      simp [strtokR]
    · have hs : strtokR (c :: s) = some ((c :: s).takeWhile (· ≠ ','),
          ((c :: s).dropWhile (· ≠ ',')).drop 1) := by
        simp [strtokR, hc]
      rw [hs]
      by_cases hm : ',' ∈ c :: s
      · obtain ⟨a, b, hab, ha⟩ := exists_first_split hm
        have hpos : ∀ x ∈ a, decide (x ≠ ',') = true := fun x hx => by
          simpa using ne_of_mem_of_not_mem hx ha
        have hne : a ≠ [] := by rintro rfl; exact hc (List.cons.inj hab).1
        rw [hab, List.takeWhile_append_of_pos hpos, List.dropWhile_append_of_pos hpos,
          List.takeWhile_cons_of_neg (by simp), List.dropWhile_cons_of_neg (by simp),
          List.append_nil, nonEmptyFields_token hne ha]
        rfl
      · rw [List.takeWhile_eq_self_iff.2 fun x hx => by simpa using ne_of_mem_of_not_mem hx hm,
          List.dropWhile_eq_nil_iff.2 fun x hx => by simpa using ne_of_mem_of_not_mem hx hm,
          nonEmptyFields_last hm, if_neg (List.cons_ne_nil c s)]
        rfl

theorem readHeader_eq (s : List Char) (k : ℕ) :
    readHeader s k = ((nonEmptyFields s).take k).map fun tok => ⟨tok.take 63, true⟩ := by
  induction k generalizing s with
  | zero => rfl
  | succ k ih =>
    rw [nonEmptyFields_eq, readHeader]
    rcases strtokR s with _ | ⟨tok, rest⟩
    · rfl
    · simp [ih]

theorem firstRow_eq (s : List Char) (k : ℕ) : firstRow s k = (nonEmptyFields s).take k := by
  induction k generalizing s with
  | zero => rfl
  | succ k ih =>
    rw [nonEmptyFields_eq, firstRow]
    rcases strtokR s with _ | ⟨tok, rest⟩
    · rfl
    · simp [ih]

theorem rowCommands_eq (key : List Char) (schema : List Column) (s : List Char) :
    rowCommands key schema s =
      (schema.zip (nonEmptyFields s)).map fun cv => .hset key cv.1.name (some cv.2) := by
  induction schema generalizing s with
  | nil => rfl
  | cons col schema ih =>
    rw [nonEmptyFields_eq, rowCommands]
    rcases strtokR s with _ | ⟨tok, rest⟩
    · rfl
    · simp [ih]

theorem inferTypes_names (cols : List Column) (toks : List (List Char)) :
    (inferTypes cols toks).map Column.name = cols.map Column.name := by
  induction cols generalizing toks with
  | nil => cases toks <;> rfl
  | cons col cols ih => cases toks <;> simp [inferTypes, ih]

theorem zip_map_name (schema : List Column) (vs : List (List Char)) (key : List Char) :
    (schema.zip vs).map (fun cv => Command.hset key cv.1.name (some cv.2)) =
      ((schema.map Column.name).zip vs).map fun nv => .hset key nv.1 (some nv.2) := by
  induction schema generalizing vs with
  | nil => rfl
  | cons col schema ih => cases vs <;> simp [ih]

theorem int32_of_lt {x : ℤ} (h0 : -2 ^ 31 ≤ x) (h1 : x < 2 ^ 31) : int32 x = x := by
  rw [int32, Int.emod_eq_of_lt (by omega) (by omega)]
  omega

theorem storeRows_eq (schema : List Column) (row : ℕ) (lines : List (List Char))
    (h : row + (lines.filter (· ≠ [])).length < 2 ^ 31) :
    storeRows schema row lines =
      (rowSpec (schema.map Column.name) row (lines.filter (· ≠ [])),
        ↑(row + (lines.filter (· ≠ [])).length)) := by
  induction lines generalizing row with
  | nil => rfl
  | cons line lines ih =>
    by_cases hl : line = []
    · have hf : (line :: lines).filter (· ≠ []) = lines.filter (· ≠ []) := by simp [hl]
      rw [hf] at h ⊢
      rw [storeRows, if_pos hl, ih row h]
    · have hf : (line :: lines).filter (· ≠ []) = line :: lines.filter (· ≠ []) := by simp [hl]
      rw [hf, List.length_cons] at h
      have hrow : int32 (↑row + 1) = ↑(row + 1) := int32_of_lt (by omega) (by omega)
      rw [hf, storeRows, if_neg hl]
      dsimp only
      rw [hrow, ih (row + 1) (by omega), rowCommands_eq, zip_map_name, rowSpec, List.length_cons]
      exact Prod.ext rfl (by push_cast; omega)

theorem zip_take_length {α β : Type} (l : List α) (m : List β) :
    l.zip (m.take l.length) = l.zip m := by
  induction l generalizing m with
  | nil => rfl
  | cons a l ih => cases m <;> simp [ih]

theorem inferTypes_length (cols : List Column) (toks : List (List Char)) :
    (inferTypes cols toks).length = cols.length := by
  simpa using congrArg List.length (inferTypes_names cols toks)

theorem zip_firstRow (cols : List Column) (toks : List (List Char)) (first : List Char) :
    ((inferTypes cols toks).map Column.name).zip (firstRow first cols.length) =
      ((inferTypes cols toks).map Column.name).zip (nonEmptyFields first) := by
  rw [firstRow_eq, ← inferTypes_length cols toks, ← List.length_map _ Column.name,
    zip_take_length]

theorem mapIdx_tokens (key : List Char) (schema : List Column) (toks : List (List Char))
    (h : schema.length ≤ toks.length) :
    schema.mapIdx (fun i col => Command.hset key col.name toks[i]?) =
      ((schema.map Column.name).zip toks).map fun nv => .hset key nv.1 (some nv.2) := by
  induction schema generalizing toks with
  | nil => rfl
  | cons col schema ih =>
    obtain ⟨tok, toks, rfl⟩ := List.exists_cons_of_ne_nil (List.ne_nil_of_length_pos
      (lt_of_lt_of_le (Nat.succ_pos _) h))
    simp only [List.mapIdx_cons, List.getElem?_cons_succ, List.getElem?_cons_zero, List.map_cons,
      List.zip_cons_cons]
    rw [ih toks (by simpa using h)]

theorem loadDatasetGeneric_of_lines {content header first : List Char} {rest : List (List Char)}
    (h : nextLines (content ++ ['\x00']) = header :: first :: rest) :
    let names := readHeader header maxCols
    let tokens := firstRow first names.length
    let schema := inferTypes names tokens
    let stored := storeRows schema 1 rest
    loadDatasetGeneric (.bytes content) =
      ⟨.del schemaKey :: schema.map schemaCommand ++
          schema.mapIdx (fun i col => Command.hset (rowKey 1) col.name tokens[i]?) ++ stored.1,
        schema, some schema.length, "Loaded " ++ toString stored.2 ++ " rows, " ++
          toString schema.length ++ " columns", stored.2⟩ := by
  obtain ⟨c1, h1, h⟩ := nextLines_eq_cons.1 h
  obtain ⟨c2, h2, rfl⟩ := nextLines_eq_cons.1 h
  simp only [loadDatasetGeneric, readFileIntoBuffer, h1, h2]

theorem inferTypes_readHeader_names (header : List Char) (toks : List (List Char)) :
    (inferTypes (readHeader header maxCols) toks).map Column.name =
      ((nonEmptyFields header).take maxCols).map (·.take 63) := by
  simp [inferTypes_names, readHeader_eq, Function.comp_def]

theorem loadDatasetGeneric_eq {content header first : List Char} {rest : List (List Char)}
    (hl : '\x00' ∉ content) (hr : content.getLast? ≠ some '\r')
    (hlines : linePieces content = header :: first :: rest) (hfirst : first ≠ [])
    (hcols : min maxCols (nonEmptyFields header).length ≤ (nonEmptyFields first).length)
    (hrows : ((first :: rest).filter (· ≠ [])).length < 2 ^ 31) :
    let schema := inferTypes (readHeader header maxCols)
      (firstRow first (readHeader header maxCols).length)
    let lines := (first :: rest).filter (· ≠ [])
    loadDatasetGeneric (.bytes content) =
      ⟨.del schemaKey :: schema.map schemaCommand ++ rowSpec (schema.map Column.name) 0 lines,
        schema, some schema.length, "Loaded " ++ toString (lines.length : ℤ) ++ " rows, " ++
          toString schema.length ++ " columns", lines.length⟩ := by
  have hrow : (readHeader header maxCols).length ≤ (nonEmptyFields first).length := by
    simpa [readHeader_eq] using hcols
  have hpos : (first :: rest).filter (· ≠ []) = first :: rest.filter (· ≠ []) := by simp [hfirst]
  rw [hpos, List.length_cons] at hrows
  have hstore := storeRows_eq (inferTypes (readHeader header maxCols)
    (firstRow first (readHeader header maxCols).length)) 1 rest (by omega)
  rw [Int.ofNat_one] at hstore
  dsimp only
  rw [loadDatasetGeneric_of_lines ((nextLines_append_nul hl hr []).trans hlines),
    mapIdx_tokens _ _ _ (by rw [inferTypes_length, firstRow_eq, List.length_take]; omega),
    zip_firstRow, hstore, hpos]
  simp only [List.append_assoc, rowSpec, List.length_cons, Nat.add_comm, Int.natCast_add,
    Int.ofNat_one, Int.ofNat_zero, Nat.zero_add]

theorem load_dataset_rows {content header first : List Char} {rest : List (List Char)}
    (hl : '\x00' ∉ content) (hr : content.getLast? ≠ some '\r')
    (hlines : linePieces content = header :: first :: rest) (hfirst : first ≠ [])
    (hcols : min maxCols (nonEmptyFields header).length ≤ (nonEmptyFields first).length)
    (hrows : ((first :: rest).filter (· ≠ [])).length < 2 ^ 31) :
    (loadDatasetGeneric (.bytes content)).schema.map Column.name =
        ((nonEmptyFields header).take maxCols).map (·.take 63) ∧
      (loadDatasetGeneric (.bytes content)).commands =
        .del schemaKey :: (loadDatasetGeneric (.bytes content)).schema.map schemaCommand ++
          rowSpec (((nonEmptyFields header).take maxCols).map (·.take 63)) 0
            ((first :: rest).filter (· ≠ [])) ∧
      (loadDatasetGeneric (.bytes content)).rows = ((first :: rest).filter (· ≠ [])).length := by
  have hnames := inferTypes_readHeader_names header
    (firstRow first (readHeader header maxCols).length)
  rw [loadDatasetGeneric_eq hl hr hlines hfirst hcols hrows]
  exact ⟨hnames, by dsimp only; rw [hnames], rfl⟩

theorem load_dataset_rows_two :
    (loadDatasetGeneric (.bytes ['k', ',', 'v', '\n', '1', ',', 'x', '\n', '\n', '2', ',', 'y',
      '\n'])).rows = 2 :=
  (@load_dataset_rows ['k', ',', 'v', '\n', '1', ',', 'x', '\n', '\n', '2', ',', 'y', '\n']
    ['k', ',', 'v'] ['1', ',', 'x'] [[], ['2', ',', 'y']] (by decide) (by decide) rfl (by decide)
    (by decide) (by decide)).2.2

theorem load_dataset_skips_fields :
    Command.hset (rowKey 2) ['b'] (some ['6']) ∈ (loadDatasetGeneric (.bytes
        ['a', ',', 'b', ',', 'c', '\n', '1', ',', '2', ',', '3', '\n', '4', ',', ',', '6',
          '\n'])).commands ∧
      Command.hset (rowKey 1) ['b'] none ∈
        (loadDatasetGeneric (.bytes ['a', ',', 'b', '\n', '1', '\n'])).commands ∧
      (loadDatasetGeneric (.bytes ['a', '\n', '\n', '1', '\n'])).rows = 2 := by
  refine ⟨?_, ?_, ?_⟩
  · rw [@loadDatasetGeneric_of_lines
      ['a', ',', 'b', ',', 'c', '\n', '1', ',', '2', ',', '3', '\n', '4', ',', ',', '6', '\n']
      ['a', ',', 'b', ',', 'c'] ['1', ',', '2', ',', '3']
      [['4', ',', ',', '6']] ((nextLines_append_nul (by decide) (by decide) []).trans rfl)]
    decide
  · rw [@loadDatasetGeneric_of_lines ['a', ',', 'b', '\n', '1', '\n'] ['a', ',', 'b'] ['1'] []
      ((nextLines_append_nul (by decide) (by decide) []).trans rfl)]
    decide
  · rw [@loadDatasetGeneric_of_lines ['a', '\n', '\n', '1', '\n'] ['a'] [] [['1']]
      ((nextLines_append_nul (by decide) (by decide) []).trans rfl)]
    decide

end EnzianMemory.Redis
