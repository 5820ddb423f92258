import Mathlib.Algebra.BigOperators.Group.List
import Mathlib.Algebra.Ring.Int.Defs
import Mathlib.Data.Rat.Defs
import EnzianMemory.Store

/-!
The queries `main` of `redis_fpga.c` runs once the dataset is loaded. `query_select_all`,
`query_projection_generic` and `query_aggregation_generic` send `HGETALL row:<i>` for every row
`1..rows`; the last two add up, in `long long`, for each `int` column of the schema, `atoll` of
the values their replies list under the column's name. `query_select_gaussian` reads one key per
row, drawn by `gaussian_key`. The times the queries return are left out: what is modelled is the
keys they read and the figures they print.
-/

namespace EnzianMemory.Redis

/-- `isspace` in the C locale. -/
def isSpace (c : Char) : Bool :=
  c = ' ' || c = '\t' || c = '\n' || c = '\x0b' || c = '\x0c' || c = '\r'

/-- `atoll(s)`, glibc's `strtoll(s, NULL, 10)`: white space, an optional sign, then the digits up
to the first other byte; a value past the range of `long long` gives `LLONG_MIN` or
`LLONG_MAX`. -/
def atoll (s : List Char) : ℤ :=
  let v : ℤ := match s.dropWhile isSpace with
    | '-' :: t => -(decimalValue 0 t : ℤ)
    | '+' :: t => decimalValue 0 t
    | t => decimalValue 0 t
  max (-2 ^ 63) (min v (2 ^ 63 - 1))

/-- A `long long` as the compiled add leaves it: signed overflow is undefined in C, and the 64-bit
add wraps in two's complement. Adding and then wrapping once gives what wrapping after every add
gives. -/
def int64 (x : ℤ) : ℤ :=
  (x + 2 ^ 63) % 2 ^ 64 - 2 ^ 63

theorem int64_add_int64 (a b : ℤ) : int64 (a + int64 b) = int64 (a + b) := by
  simp only [int64]
  omega

theorem int64_int64_add (a b : ℤ) : int64 (int64 a + b) = int64 (a + b) := by
  simp only [int64]
  omega

theorem int64_of_natAbs_lt {x : ℤ} (h : x.natAbs < 2 ^ 63) : int64 x = x := by
  simp only [int64]
  omega

/-- What `redisCommand(c, "HGETALL %s", key)` returns when it is not `NULL`: an array whose
elements are strings (`some`) or have no `str`, or a reply of another type. -/
inductive Reply
  | array (elements : List (Option (List Char)))
  | other

/-- A hash as `HGETALL` lists it: each field, then its value. -/
def hashElements (fs : List (List Char × List Char)) : List (Option (List Char)) :=
  fs.flatMap fun fv => [some fv.1, some fv.2]

@[simp]
theorem hashElements_nil : hashElements [] = [] := rfl

@[simp]
theorem hashElements_cons (fv : List Char × List Char) (fs : List (List Char × List Char)) :
    hashElements (fv :: fs) = some fv.1 :: some fv.2 :: hashElements fs := rfl

/-- `HGETALL key`: the array of a hash's fields and values, the `WRONGTYPE` error on a key of
another type. -/
def hgetall (s : Store) (key : List Char) : Option Reply :=
  match s key with
  | .hash h => some (.array (hashElements h.fields))
  | .other => some .other

/-- The string `strcmp` reads: the bytes before the first NUL. -/
def cString (s : List Char) : List Char :=
  s.takeWhile (· != '\x00')

/-- The `j` loop for a column `name`: `atoll` of each value whose field `strcmp` finds equal to
`name`. -/
def fieldSum (name : List Char) : List (Option (List Char)) → ℤ
  | some f :: some v :: rest =>
    (if cString name = cString f then atoll v else 0) + fieldSum name rest
  | _ :: _ :: rest => fieldSum name rest
  | _ => 0

/-- The `s` loop over the schema: the `j` loop for each `int` column. -/
def rowSum (schema : List Column) (elements : List (Option (List Char))) : ℤ :=
  (schema.map fun col => if col.isInt then fieldSum col.name elements else 0).sum

theorem fieldSum_hashElements (name : List Char) (fs : List (List Char × List Char)) :
    fieldSum name (hashElements fs) =
      (fs.map fun fv => if cString name = cString fv.1 then atoll fv.2 else 0).sum := by
  induction fs with
  | nil => rfl
  | cons fv fs ih => rw [hashElements_cons, fieldSum, ih, List.map_cons, List.sum_cons]

theorem rowSum_perm (schema : List Column) {fs fs' : List (List Char × List Char)}
    (hp : fs.Perm fs') : rowSum schema (hashElements fs) = rowSum schema (hashElements fs') := by
  simp only [rowSum, fieldSum_hashElements, (hp.map _).sum_eq]

theorem rowSum_perm_swap :
    rowSum [⟨['k'], true⟩] (hashElements [(['v'], ['x']), (['k'], ['5'])]) = 5 ∧
      rowSum [⟨['k'], true⟩] (hashElements [(['v'], ['x']), (['k'], ['5'])]) =
        rowSum [⟨['k'], true⟩] (hashElements [(['k'], ['5']), (['v'], ['x'])]) :=
  ⟨by decide, rowSum_perm _ (.swap _ _ _)⟩

theorem cString_of_not_mem {s : List Char} (h : '\x00' ∉ s) : cString s = s :=
  List.takeWhile_eq_self_iff.2 fun c hc => by simpa using ne_of_mem_of_not_mem hc h

theorem fieldSum_of_nodup {name : List Char} {fs : List (List Char × List Char)}
    (hn : (fs.map Prod.fst).Nodup) (hname : '\x00' ∉ name) (hfs : ∀ fv ∈ fs, '\x00' ∉ fv.1) :
    fieldSum name (hashElements fs) = ((fs.lookup name).map atoll).getD 0 := by
  rw [fieldSum_hashElements]
  induction fs with
  | nil => rfl
  | cons fv fs ih =>
    obtain ⟨g, w⟩ := fv
    simp only [List.map_cons, List.nodup_cons] at hn
    simp only [List.mem_cons, forall_eq_or_imp] at hfs
    rw [List.map_cons, List.sum_cons, ih hn.2 hfs.2, lookup_cons_eq, cString_of_not_mem hname,
      cString_of_not_mem hfs.1]
    by_cases h : name = g
    · subst h
      simp [lookup_eq_none_of_not_mem hn.1]
    · simp [h]

/-- The `int` figure a row gives a column: `atoll` of its field, 0 when it has none. -/
def cellValue (h : Hash) (col : Column) : ℤ :=
  if col.isInt then ((h.get col.name).map atoll).getD 0 else 0

theorem rowSum_hash {schema : List Column} {h : Hash} (hs : ∀ col ∈ schema, '\x00' ∉ col.name)
    (hfs : ∀ fv ∈ h.fields, '\x00' ∉ fv.1) :
    rowSum schema (hashElements h.fields) = (schema.map (cellValue h)).sum := by
  rw [rowSum, List.map_congr_left fun col hc => by rw [fieldSum_of_nodup h.nodup (hs col hc) hfs]]
  rfl

theorem sum_cellValue_zip {schema : List Column} (hn : (schema.map Column.name).Nodup)
    (vs : List (List Char)) :
    (schema.map fun col =>
        if col.isInt then ((((schema.map Column.name).zip vs).lookup col.name).map atoll).getD 0
        else 0).sum =
      ((schema.zip vs).map fun cv => if cv.1.isInt then atoll cv.2 else 0).sum := by
  induction schema generalizing vs with
  | nil => rfl
  | cons col cols ih =>
    simp only [List.map_cons, List.nodup_cons] at hn
    cases vs with
    | nil => simp [nsmul_zero]
    | cons v vs =>
      have hne : ∀ c ∈ cols, c.name ≠ col.name := fun c hc h =>
        hn.1 (h ▸ List.mem_map_of_mem Column.name hc)
      simp only [List.map_cons, List.zip_cons_cons, List.sum_cons, lookup_cons_eq,
        eq_self_iff_true, if_true, Option.map_some', Option.getD_some]
      rw [List.map_congr_left fun c hc => by rw [if_neg (hne c hc)], ih hn.2]

/-- The keys `query_select_all` reads, `row:1` to `row:<rows>`; the other two scans go over the
same. For `rows = INT_MAX` the `i++` after the last row overflows, which is undefined. -/
def querySelectAll (rows : ℕ) : List (List Char) :=
  (List.range rows).map fun i => rowKey (i + 1 : ℕ)

@[simp]
theorem length_querySelectAll (rows : ℕ) : (querySelectAll rows).length = rows := by
  simp [querySelectAll]

@[simp]
theorem getElem_querySelectAll {rows i : ℕ} (h : i < (querySelectAll rows).length) :
    (querySelectAll rows)[i] = rowKey (i + 1 : ℕ) := by
  simp [querySelectAll]

/-- One pass of the `i` loop of `query_aggregation_generic`: `NULL` and a reply that is not an
array are skipped, and `global_sum += atoll(...)` adds each `int` cell of the row. -/
def aggregateRow (hgetall : List Char → Option Reply) (schema : List Column) (globalSum : ℤ)
    (key : List Char) : ℤ :=
  match hgetall key with
  | some (.array elements) => int64 (globalSum + rowSum schema elements)
  | _ => globalSum

/-- `global_sum`, which `query_aggregation_generic` prints. -/
def queryAggregationGeneric (hgetall : List Char → Option Reply) (rows : ℕ)
    (schema : List Column) : ℤ :=
  (querySelectAll rows).foldl (aggregateRow hgetall schema) 0

/-- One pass of the `i` loop of `query_projection_generic` on `(total_sum, count)`: `row_sum`
adds the row's `int` cells, then `total_sum += row_sum`. -/
def projectRow (hgetall : List Char → Option Reply) (schema : List Column) (acc : ℤ × ℕ)
    (key : List Char) : ℤ × ℕ :=
  match hgetall key with
  | some (.array elements) => (int64 (acc.1 + int64 (rowSum schema elements)), acc.2 + 1)
  | _ => acc

def queryProjectionGeneric (hgetall : List Char → Option Reply) (rows : ℕ)
    (schema : List Column) : ℤ × ℕ :=
  (querySelectAll rows).foldl (projectRow hgetall schema) (0, 0)

/-- The figure `query_projection_generic` prints, `count ? (double)total_sum / count : 0.0`,
without the rounding of `double`. -/
def projectionAvg (p : ℤ × ℕ) : ℚ :=
  if p.2 = 0 then 0 else p.1 / p.2

/-- Whether `r->type == REDIS_REPLY_ARRAY` for a reply that is not `NULL`. -/
def isArrayReply : Option Reply → Bool
  | some (.array _) => true
  | _ => false

theorem foldl_projectRow (h : List Char → Option Reply) (schema : List Column)
    (keys : List (List Char)) (acc : ℤ × ℕ) :
    keys.foldl (projectRow h schema) acc =
      (keys.foldl (aggregateRow h schema) acc.1,
        acc.2 + (keys.filter fun key => isArrayReply (h key)).length) := by
  induction keys generalizing acc with
  | nil => rfl
  | cons key keys ih =>
    rw [List.foldl_cons, List.foldl_cons, ih, List.filter_cons]
    unfold projectRow aggregateRow isArrayReply
    rcases h key with _ | _ | _ <;> simp [int64_add_int64, Nat.add_assoc, Nat.add_comm 1]

theorem projection_agrees_aggregation (h : List Char → Option Reply) (rows : ℕ)
    (schema : List Column) :
    queryProjectionGeneric h rows schema = (queryAggregationGeneric h rows schema,
      ((querySelectAll rows).filter fun key => isArrayReply (h key)).length) := by
  rw [queryProjectionGeneric, foldl_projectRow, Nat.zero_add]
  rfl

/-- What a key adds to the aggregation: the `int` cells of its hash; the error a key of another
type answers is skipped. -/
def valueSum (schema : List Column) : Value → ℤ
  | .hash h => rowSum schema (hashElements h.fields)
  | .other => 0

theorem aggregateRow_hgetall (s : Store) (schema : List Column) (a : ℤ) (key : List Char) :
    aggregateRow (hgetall s) schema (int64 a) key = int64 (a + valueSum schema (s key)) := by
  unfold aggregateRow hgetall
  cases s key with
  | hash h => exact int64_int64_add _ _
  | other => rw [valueSum, Int.add_zero]

theorem foldl_aggregateRow_hgetall (s : Store) (schema : List Column) (keys : List (List Char))
    (a : ℤ) :
    keys.foldl (aggregateRow (hgetall s) schema) (int64 a) =
      int64 (a + (keys.map fun key => valueSum schema (s key)).sum) := by
  induction keys generalizing a with
  | nil => rw [List.foldl_nil, List.map_nil, List.sum_nil, Int.add_zero]
  | cons key keys ih =>
    rw [List.foldl_cons, aggregateRow_hgetall, ih, List.map_cons, List.sum_cons, Int.add_assoc]

theorem queryAggregationGeneric_hgetall (s : Store) (rows : ℕ) (schema : List Column) :
    queryAggregationGeneric (hgetall s) rows schema =
      int64 ((querySelectAll rows).map fun key => valueSum schema (s key)).sum := by
  rw [queryAggregationGeneric, show (0 : ℤ) = int64 0 from rfl, foldl_aggregateRow_hgetall,
    Int.zero_add]

theorem natAbs_sum_le (l : List ℤ) : l.sum.natAbs ≤ (l.map Int.natAbs).sum := by
  induction l with
  | nil => rfl
  | cons x l ih => exact (Int.natAbs_add_le _ _).trans (Nat.add_le_add_left ih _)

theorem natAbs_sum_sum_le {α : Type} (l : List α) (f : α → List ℤ) :
    (l.map fun a => (f a).sum).sum.natAbs ≤ (l.map fun a => ((f a).map Int.natAbs).sum).sum := by
  induction l with
  | nil => rfl
  | cons a l ih =>
    exact (Int.natAbs_add_le _ _).trans (Nat.add_le_add (natAbs_sum_le _) ih)

theorem nul_not_mem_names {content header : List Char} {rest : List (List Char)}
    (hl : '\x00' ∉ content) (hlines : linePieces content = header :: rest) :
    ∀ name ∈ ((nonEmptyFields header).take maxCols).map (·.take 63), '\x00' ∉ name := by
  intro name hn hnul
  obtain ⟨f, hf, rfl⟩ := List.mem_map.1 hn
  have hh := not_mem_of_mem_linePieces hl (hlines ▸ List.mem_cons_self header rest)
  exact not_mem_of_mem_splitOnP hh (List.mem_filter.1 (List.mem_of_mem_take hf)).1
    (List.mem_of_mem_take hnul)

theorem valueSum_hsets {schema : List Column} (hn : (schema.map Column.name).Nodup)
    (hs : ∀ name ∈ schema.map Column.name, '\x00' ∉ name) (vs : List (List Char)) :
    valueSum schema (.hash (Hash.empty.hsets ((schema.map Column.name).zip vs))) =
      ((schema.zip vs).map fun cv => if cv.1.isInt then atoll cv.2 else 0).sum := by
  have hfields := Hash.hsets_fields_of_nodup Hash.empty _ (nodup_zip_fst hn vs)
  have hfz : ∀ fv ∈ (Hash.empty.hsets _).fields, '\x00' ∉ fv.1 := fun fv hfv => by
    rw [hfields] at hfv
    exact hs fv.1 (List.of_mem_zip hfv).1
  rw [valueSum, rowSum_hash (fun col hc => hs _ (List.mem_map_of_mem _ hc)) hfz,
    ← sum_cellValue_zip hn]
  congr 2
  funext col
  rw [cellValue, Hash.get, hfields]
  rfl

theorem aggregation_after_load {content header first : List Char} {rest : List (List Char)}
    (hl : '\x00' ∉ content) (hr : content.getLast? ≠ some '\r')
    (hlines : linePieces content = header :: first :: rest) (hfirst : first ≠ [])
    (hcols : min maxCols (nonEmptyFields header).length ≤ (nonEmptyFields first).length)
    (hnodup : (((nonEmptyFields header).take maxCols).map (·.take 63)).Nodup)
    (hrows : ((first :: rest).filter (· ≠ [])).length < 2 ^ 31 - 1)
    (hsum : (((first :: rest).filter (· ≠ [])).map fun line =>
      (((loadDatasetGeneric (.bytes content)).schema.zip (nonEmptyFields line)).map fun cv =>
        if cv.1.isInt then (atoll cv.2).natAbs else 0).sum).sum < 2 ^ 63)
    {s₀ : Store} (hfresh : ∀ r : ℕ, s₀ (rowKey r) = .hash .empty) :
    let load := loadDatasetGeneric (.bytes content)
    (execAll s₀ load.commands).map
        (fun s => queryAggregationGeneric (hgetall s) load.rows.toNat load.schema) =
      some ((((first :: rest).filter (· ≠ [])).map fun line =>
        ((load.schema.zip (nonEmptyFields line)).map fun cv =>
          if cv.1.isInt then atoll cv.2 else 0).sum).sum) := by
  have hnames := inferTypes_readHeader_names header
    (firstRow first (readHeader header maxCols).length)
  have hnul := nul_not_mem_names hl hlines
  rw [← hnames] at hnodup hnul
  dsimp only at hsum ⊢
  rw [loadDatasetGeneric_eq hl hr hlines hfirst hcols (by omega)] at hsum ⊢
  dsimp only at hsum ⊢
  rw [execAll_load, Option.map_some', queryAggregationGeneric_hgetall, Int.toNat_ofNat]
  refine congrArg some ((congrArg int64 (congrArg List.sum (List.ext_getElem (by simp)
    fun i h1 h2 => ?_))).trans (int64_of_natAbs_lt (lt_of_le_of_lt (natAbs_sum_sum_le _ _) ?_)))
  · rw [List.getElem_map, List.getElem_map, getElem_querySelectAll,
      show i + 1 = 0 + i + 1 by omega, loadRows_rowKey _ _ _ (by simpa using h2),
      Function.update_noteq (rowKey_ne_schemaKey _), hfresh, Value.hsets_hash,
      valueSum_hsets hnodup hnul]
  · simpa only [List.map_map, Function.comp_def, apply_ite Int.natAbs, Int.natAbs_zero] using hsum

theorem aggregation_after_load_two :
    (execAll (fun _ => .hash .empty) (loadDatasetGeneric (.bytes ['k', ',', 'v', '\n', '5', ',',
        'x', '\n', '7', ',', 'y', '\n'])).commands).map (fun s => queryAggregationGeneric
        (hgetall s) (loadDatasetGeneric (.bytes ['k', ',', 'v', '\n', '5', ',', 'x', '\n', '7',
          ',', 'y', '\n'])).rows.toNat
        (loadDatasetGeneric (.bytes ['k', ',', 'v', '\n', '5', ',', 'x', '\n', '7', ',', 'y',
          '\n'])).schema) = some 12 :=
  (@aggregation_after_load ['k', ',', 'v', '\n', '5', ',', 'x', '\n', '7', ',', 'y', '\n']
    ['k', ',', 'v'] ['5', ',', 'x'] [['7', ',', 'y']] (by decide) (by decide) rfl (by decide)
    (by decide) (by decide) (by decide) (by decide) (fun _ => .hash .empty)
    fun _ => rfl).trans (by decide)

/-- `gaussian_key(rows)` once its draw is made: `raw` is `(int)(rows / 2.0 + (rows / 6.0) * z)`,
which the two clamps bring into `1..rows`. -/
def gaussianKey (rows raw : ℤ) : ℤ :=
  let key := if raw < 1 then 1 else raw
  if key > rows then rows else key

/-- The keys `query_select_gaussian` reads, `row:<gaussian_key(rows)>` for each draw. -/
def querySelectGaussian (rows : ℤ) (draws : List ℤ) : List (List Char) :=
  draws.map fun raw => rowKey (gaussianKey rows raw)

end EnzianMemory.Redis
