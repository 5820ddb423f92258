import Mathlib.Data.List.Nodup
import Mathlib.Data.Nat.Digits
import EnzianMemory.Loader

/-!
The Redis server that `load_dataset_generic` and the queries of `redis_fpga.c` talk to, as far
as they use it: hashes written by `DEL` and `HSET` and read back by `HGETALL`. A key holds a
hash, nothing (which reads as the empty hash), or a value of another type, on which `HSET` and
`HGETALL` answer `WRONGTYPE` and change nothing. A hash keeps its fields in the order they were
first set, as a small Redis hash does.
-/

namespace EnzianMemory.Redis

/-- The digits at the front of a string, read in base 10 on from `acc`: the digit loop of
`atoll`. -/
def decimalValue (acc : ℕ) : List Char → ℕ
  | c :: s => if c.isDigit then decimalValue (10 * acc + (c.toNat - '0'.toNat)) s else acc
  | [] => acc

theorem rowKey_eq (n : ℕ) : rowKey n = ['r', 'o', 'w', ':'] ++ Nat.toDigits 10 n := rfl

theorem digitChar_lt_ten : ∀ d < 10,
    (Nat.digitChar d).isDigit = true ∧ (Nat.digitChar d).toNat - '0'.toNat = d := by
  decide

theorem toDigitsCore_append (f n : ℕ) (ds : List Char) :
    Nat.toDigitsCore 10 f n ds = Nat.toDigitsCore 10 f n [] ++ ds := by
  induction f generalizing n ds with
  | zero => rfl
  | succ f ih =>
    simp only [Nat.toDigitsCore]
    split_ifs
    · rfl
    · rw [ih _ [_], ih _ (_ :: ds), List.append_assoc, List.singleton_append]

theorem decimalValue_append (acc : ℕ) {a : List Char} (ha : ∀ c ∈ a, c.isDigit)
    (b : List Char) : decimalValue acc (a ++ b) = decimalValue (decimalValue acc a) b := by
  induction a generalizing acc with
  | nil => rfl
  | cons c a ih =>
    simp only [List.mem_cons, forall_eq_or_imp] at ha
    simp only [List.cons_append, decimalValue, ha.1, if_true]
    exact ih _ ha.2

theorem toDigitsCore_digits (f n : ℕ) : ∀ c ∈ Nat.toDigitsCore 10 f n [], c.isDigit := by
  induction f generalizing n with
  | zero => simp [Nat.toDigitsCore]
  | succ f ih =>
    have hd := (digitChar_lt_ten (n % 10) (Nat.mod_lt _ (by decide))).1
    simp only [Nat.toDigitsCore]
    split_ifs
    · simpa using hd
    · intro c hc
      rw [toDigitsCore_append, List.mem_append, List.mem_singleton] at hc
      rcases hc with hc | rfl
      exacts [ih _ c hc, hd]

theorem decimalValue_toDigitsCore (f n : ℕ) (hn : n < f) :
    decimalValue 0 (Nat.toDigitsCore 10 f n []) = n := by
  induction f generalizing n with
  | zero => omega
  | succ f ih =>
    have hd := digitChar_lt_ten (n % 10) (Nat.mod_lt _ (by decide))
    simp only [Nat.toDigitsCore]
    split_ifs with h
    · simp only [decimalValue, hd.1, hd.2, if_true]
      omega
    · rw [toDigitsCore_append, decimalValue_append _ (toDigitsCore_digits _ _),
        ih _ (by omega)]
      simp only [decimalValue, hd.1, hd.2, if_true]
      omega

theorem rowKey_injective : Function.Injective fun n : ℕ => rowKey n := fun a b h => by
  simp only [rowKey_eq] at h
  have h := congrArg (decimalValue 0) (List.append_cancel_left h)
  rwa [Nat.toDigits, Nat.toDigits, decimalValue_toDigitsCore _ _ (Nat.lt_succ_self a),
    decimalValue_toDigitsCore _ _ (Nat.lt_succ_self b)] at h

theorem rowKey_ne_schemaKey (r : ℕ) : rowKey r ≠ schemaKey := by
  rw [rowKey_eq]
  exact fun h => absurd (List.head_eq_of_cons_eq h) (by decide)

/-- `HSET` on a hash's field list: a field already there keeps its place and takes the new
value; a new field goes last. -/
def setField : List (List Char × List Char) → List Char → List Char →
    List (List Char × List Char)
  | [], f, v => [(f, v)]
  | (g, w) :: fs, f, v => if g = f then (f, v) :: fs else (g, w) :: setField fs f v

theorem keys_setField (fs : List (List Char × List Char)) (f v : List Char) :
    (setField fs f v).map Prod.fst =
      if f ∈ fs.map Prod.fst then fs.map Prod.fst else fs.map Prod.fst ++ [f] := by
  induction fs with
  | nil => rfl
  | cons gw fs ih =>
    obtain ⟨g, w⟩ := gw
    by_cases hg : g = f
    · simp [setField, hg]
    · simp only [setField, hg, if_false, List.map_cons, ih, List.mem_cons, Ne.symm hg,
        false_or]
      split_ifs <;> rfl

theorem nodup_setField {fs : List (List Char × List Char)} (h : (fs.map Prod.fst).Nodup)
    (f v : List Char) : ((setField fs f v).map Prod.fst).Nodup := by
  rw [keys_setField]
  split_ifs with hf
  · exact h
  · exact h.append (List.nodup_singleton f) (by simpa using hf)

theorem setField_of_not_mem {fs : List (List Char × List Char)} {f : List Char}
    (hf : f ∉ fs.map Prod.fst) (v : List Char) : setField fs f v = fs ++ [(f, v)] := by
  induction fs with
  | nil => rfl
  | cons gw fs ih =>
    obtain ⟨g, w⟩ := gw
    simp only [List.map_cons, List.mem_cons, not_or] at hf
    simp [setField, Ne.symm hf.1, ih hf.2]

theorem lookup_cons_eq (f g : List Char) (w : List Char) (fs : List (List Char × List Char)) :
    ((g, w) :: fs).lookup f = if f = g then some w else fs.lookup f := by
  rw [List.lookup_cons]
  split <;> simp_all

theorem lookup_eq_none_of_not_mem {fs : List (List Char × List Char)} {f : List Char}
    (hf : f ∉ fs.map Prod.fst) : fs.lookup f = none := by
  induction fs with
  | nil => rfl
  | cons gw fs ih =>
    simp only [List.map_cons, List.mem_cons, not_or] at hf
    rw [lookup_cons_eq, if_neg hf.1, ih hf.2]

theorem lookup_setField (fs : List (List Char × List Char)) (f v g : List Char) :
    (setField fs f v).lookup g = if g = f then some v else fs.lookup g := by
  induction fs with
  | nil => simp [setField, lookup_cons_eq]
  | cons gw fs ih =>
    obtain ⟨g', w⟩ := gw
    by_cases h : g' = f
    · subst h
      by_cases hg : g = g' <;> simp [setField, lookup_cons_eq, hg]
    · by_cases hg : g = g' <;> simp [setField, lookup_cons_eq, h, ih, hg]

theorem nodup_zip_fst {l : List (List Char)} (hn : l.Nodup) (vs : List (List Char)) :
    ((l.zip vs).map Prod.fst).Nodup := by
  induction l generalizing vs with
  | nil => exact List.nodup_nil
  | cons a l ih =>
    rw [List.nodup_cons] at hn
    cases vs with
    | nil => exact List.nodup_nil
    | cons v vs =>
      rw [List.zip_cons_cons, List.map_cons, List.nodup_cons]
      refine ⟨fun ha => hn.1 ?_, ih hn.2 vs⟩
      obtain ⟨⟨x, y⟩, hxy, rfl⟩ := List.mem_map.1 ha
      exact (List.of_mem_zip hxy).1

/-- A Redis hash: its fields and values in `HGETALL` order, each field once. -/
structure Hash where
  fields : List (List Char × List Char)
  nodup : (fields.map Prod.fst).Nodup

def Hash.empty : Hash := ⟨[], List.nodup_nil⟩

def Hash.hset (h : Hash) (f v : List Char) : Hash :=
  ⟨setField h.fields f v, nodup_setField h.nodup f v⟩

/-- The `HSET`s of one row, in order. -/
def Hash.hsets (h : Hash) (fvs : List (List Char × List Char)) : Hash :=
  fvs.foldl (fun h fv => h.hset fv.1 fv.2) h

/-- `HGET key field`. -/
def Hash.get (h : Hash) (f : List Char) : Option (List Char) :=
  h.fields.lookup f

@[simp]
theorem Hash.get_hset (h : Hash) (f v g : List Char) :
    (h.hset f v).get g = if g = f then some v else h.get g :=
  lookup_setField _ _ _ _

theorem Hash.get_hsets (h : Hash) (fvs : List (List Char × List Char)) (g : List Char) :
    (h.hsets fvs).get g = (fvs.reverse.lookup g).or (h.get g) := by
  induction fvs generalizing h with
  | nil => simp [Hash.hsets]
  | cons fv fvs ih =>
    obtain ⟨f, v⟩ := fv
    rw [Hash.hsets, List.foldl_cons, ← Hash.hsets, ih, Hash.get_hset, List.reverse_cons,
      List.lookup_append, Option.or_assoc, lookup_cons_eq]
    by_cases hg : g = f <;> simp [hg]

theorem Hash.hsets_fields_of_nodup (h : Hash) (fvs : List (List Char × List Char))
    (hn : (h.fields.map Prod.fst ++ fvs.map Prod.fst).Nodup) :
    (h.hsets fvs).fields = h.fields ++ fvs := by
  induction fvs generalizing h with
  | nil => simp [Hash.hsets]
  | cons fv fvs ih =>
    obtain ⟨f, v⟩ := fv
    have hf : f ∉ h.fields.map Prod.fst := fun hf =>
      List.disjoint_of_nodup_append hn hf (List.mem_cons_self _ _)
    have hset : (h.hset f v).fields = h.fields ++ [(f, v)] := setField_of_not_mem hf v
    rw [Hash.hsets, List.foldl_cons, ← Hash.hsets, ih, hset, List.append_assoc,
      List.singleton_append]
    rw [hset, List.map_append, List.append_assoc]
    simpa using hn

inductive Value
  | hash (h : Hash)
  | other

/-- `HSET key field value`: a hash takes the field; another type answers `WRONGTYPE`. -/
def Value.hset : Value → List Char → List Char → Value
  | .hash h, f, v => .hash (h.hset f v)
  | .other, _, _ => .other

/-- The `HSET`s of one row, in order. -/
def Value.hsets (x : Value) (fvs : List (List Char × List Char)) : Value :=
  fvs.foldl (fun x fv => x.hset fv.1 fv.2) x

def Store := List Char → Value

/-- One command on the server. A `HSET` passed a `tokens[i]` slot the first row never
assigned has no defined result. -/
def exec (s : Store) : Command → Option Store
  | .del key => some (Function.update s key (.hash .empty))
  | .hset key field (some value) => some (Function.update s key ((s key).hset field value))
  | .hset _ _ none => none

def execAll (s : Store) : List Command → Option Store
  | [] => some s
  | c :: cs => (exec s c).bind fun s' => execAll s' cs

theorem execAll_append (s : Store) (a b : List Command) :
    execAll s (a ++ b) = (execAll s a).bind fun s' => execAll s' b := by
  induction a generalizing s with
  | nil => rfl
  | cons c a ih => simp only [List.cons_append, execAll, Option.bind_assoc, List.append_eq, ih]

theorem execAll_hsets (s : Store) (key : List Char) (fvs : List (List Char × List Char)) :
    execAll s (fvs.map fun fv => .hset key fv.1 (some fv.2)) =
      some (Function.update s key ((s key).hsets fvs)) := by
  induction fvs generalizing s with
  | nil => simp [execAll, Value.hsets]
  | cons fv fvs ih =>
    simp only [List.map_cons, execAll, exec, Option.some_bind, ih, Function.update_same,
      Function.update_idem]
    rfl

theorem Value.hsets_hash (h : Hash) (fvs : List (List Char × List Char)) :
    (Value.hash h).hsets fvs = .hash (h.hsets fvs) := by
  induction fvs generalizing h with
  | nil => rfl
  | cons fv fvs ih => exact ih _

theorem Value.hsets_other (fvs : List (List Char × List Char)) : Value.other.hsets fvs = .other := by
  induction fvs with
  | nil => rfl
  | cons fv fvs ih => exact ih

/-- The store `rowSpec` leaves: line `i` sets its fields in row `r + i + 1` over whatever that
row held. -/
def loadRows (s : Store) (names : List (List Char)) : ℕ → List (List Char) → Store
  | _, [] => s
  | r, line :: lines =>
    loadRows (Function.update s (rowKey (r + 1 : ℕ))
      ((s (rowKey (r + 1 : ℕ))).hsets (names.zip (nonEmptyFields line)))) names (r + 1) lines

theorem execAll_rowSpec (s : Store) (names : List (List Char)) (r : ℕ)
    (lines : List (List Char)) :
    execAll s (rowSpec names r lines) = some (loadRows s names r lines) := by
  induction lines generalizing s r with
  | nil => rfl
  | cons line lines ih =>
    rw [rowSpec, execAll_append, execAll_hsets, Option.some_bind, ih, loadRows]

theorem loadRows_of_ne {s : Store} {names : List (List Char)} {k : List Char} {r : ℕ}
    {lines : List (List Char)} (hk : ∀ i < lines.length, k ≠ rowKey (r + i + 1 : ℕ)) :
    loadRows s names r lines k = s k := by
  induction lines generalizing s r with
  | nil => rfl
  | cons line lines ih =>
    have hk' : ∀ i < lines.length, k ≠ rowKey (r + 1 + i + 1 : ℕ) := fun i hi => by
      simpa [Nat.add_right_comm, Nat.add_assoc] using hk (i + 1) (by simpa using hi)
    rw [loadRows, ih hk', Function.update_noteq (by simpa using hk 0 (by simp))]

theorem loadRows_rowKey (s : Store) (names : List (List Char)) (r : ℕ)
    {lines : List (List Char)} {i : ℕ} (hi : i < lines.length) :
    loadRows s names r lines (rowKey (r + i + 1 : ℕ)) =
      (s (rowKey (r + i + 1 : ℕ))).hsets (names.zip (nonEmptyFields lines[i])) := by
  induction lines generalizing s r i with
  | nil => exact absurd hi (Nat.not_lt_zero _)
  | cons line lines ih =>
    rw [loadRows]
    cases i with
    | zero =>
      rw [loadRows_of_ne fun j _ h => by have := rowKey_injective h; omega]
      simp
    | succ i =>
      have hr : r + (i + 1) + 1 = r + 1 + i + 1 := by omega
      rw [hr, ih _ _ (by simpa using hi),
        Function.update_noteq fun h => by have := rowKey_injective h; omega]
      rfl

/-- The field and value `HSET schema` gives a column. -/
def schemaField (col : Column) : List Char × List Char :=
  (col.name, (if col.isInt then "int" else "string").toList)

theorem execAll_load (s : Store) (schema : List Column) (names : List (List Char))
    (lines : List (List Char)) :
    execAll s (.del schemaKey :: schema.map schemaCommand ++ rowSpec names 0 lines) =
      some (loadRows (Function.update s schemaKey (.hash (Hash.empty.hsets (schema.map schemaField))))
        names 0 lines) := by
  have hschema : schema.map schemaCommand =
      (schema.map schemaField).map fun fv => .hset schemaKey fv.1 (some fv.2) := by
    rw [List.map_map]; rfl
  rw [execAll_append, execAll, exec, Option.some_bind, hschema, execAll_hsets, Option.some_bind,
    execAll_rowSpec, Function.update_same, Function.update_idem, Value.hsets_hash]

theorem load_on_server {content header first : List Char} {rest : List (List Char)}
    (hl : '\x00' ∉ content) (hr : content.getLast? ≠ some '\r')
    (hlines : linePieces content = header :: first :: rest) (hfirst : first ≠ [])
    (hcols : min maxCols (nonEmptyFields header).length ≤ (nonEmptyFields first).length)
    (hrows : ((first :: rest).filter (· ≠ [])).length < 2 ^ 31) (s₀ : Store) :
    let load := loadDatasetGeneric (.bytes content)
    let lines := (first :: rest).filter (· ≠ [])
    let names := ((nonEmptyFields header).take maxCols).map (·.take 63)
    ∃ s, execAll s₀ load.commands = some s ∧
      s schemaKey = .hash (Hash.empty.hsets (load.schema.map schemaField)) ∧
      (∀ i (hi : i < lines.length),
        (s₀ (rowKey (i + 1 : ℕ)) = .other → s (rowKey (i + 1 : ℕ)) = .other) ∧
        ∀ h, s₀ (rowKey (i + 1 : ℕ)) = .hash h → ∃ h', s (rowKey (i + 1 : ℕ)) = .hash h' ∧
          ∀ name, h'.get name =
            (((names.zip (nonEmptyFields lines[i])).reverse.lookup name).or (h.get name))) ∧
      ∀ key, key ≠ schemaKey → (∀ i < lines.length, key ≠ rowKey (i + 1 : ℕ)) →
        s key = s₀ key := by
  have hnames := inferTypes_readHeader_names header
    (firstRow first (readHeader header maxCols).length)
  dsimp only
  rw [loadDatasetGeneric_eq hl hr hlines hfirst hcols hrows]
  dsimp only
  rw [execAll_load, ← hnames]
  refine ⟨_, rfl, ?_, fun i hi => ?_, fun key hs hk => ?_⟩
  · rw [loadRows_of_ne fun i _ h => rowKey_ne_schemaKey _ h.symm, Function.update_same]
  · rw [show i + 1 = 0 + i + 1 by omega, loadRows_rowKey _ _ _ hi,
      Function.update_noteq (rowKey_ne_schemaKey _)]
    refine ⟨fun ho => by rw [ho, Value.hsets_other], fun h hh => ⟨_, by rw [hh, Value.hsets_hash],
      Hash.get_hsets h _⟩⟩
  · rw [loadRows_of_ne fun i hi => by simpa using hk i hi, Function.update_noteq hs]

theorem load_on_server_stale :
    ∃ s, execAll (Function.update (fun _ => .hash .empty) (rowKey 2)
        (.hash ⟨[(['v'], ['o', 'l', 'd'])], by decide⟩)) (loadDatasetGeneric (.bytes
          ['k', ',', 'v', '\n', '5', ',', 'x', '\n', '7', '\n'])).commands = some s ∧
      ∃ h', s (rowKey 2) = .hash h' ∧ h'.get ['v'] = some ['o', 'l', 'd'] := by
  obtain ⟨s, hs, -, hrow, -⟩ := @load_on_server ['k', ',', 'v', '\n', '5', ',', 'x', '\n', '7',
    '\n'] ['k', ',', 'v'] ['5', ',', 'x'] [['7']] (by decide) (by decide) rfl (by decide)
    (by decide) (by decide) (Function.update (fun _ => .hash .empty) (rowKey 2)
      (.hash ⟨[(['v'], ['o', 'l', 'd'])], by decide⟩))
  obtain ⟨h', hh', hget⟩ := (hrow 1 (by decide)).2 _ rfl
  exact ⟨s, hs, h', hh', (hget ['v']).trans (by decide)⟩

end EnzianMemory.Redis
