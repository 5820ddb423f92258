import Mathlib.Tactic.Ring
import EnzianMemory.Queries

/-!
`mem.c`, the peek and poke tool for the FPGA's memory: it maps the FPGA's 1 TiB at its physical
address and reads or stores the `uint64_t` at `offset / 8`. Offsets and values are hexadecimal,
read by `strtoll` and `strtoull` in base 16, and a value read is printed with `%016lx`; a value
it prints is read back as the same value when it is passed as the value to store, with or
without `0x`.
-/

namespace EnzianMemory.Mem

open Redis (isSpace)

def hexDigit (c : Char) : Option ℕ :=
  if '0' ≤ c ∧ c ≤ '9' then some (c.toNat - '0'.toNat)
  else if 'a' ≤ c ∧ c ≤ 'f' then some (c.toNat - 'a'.toNat + 10)
  else if 'A' ≤ c ∧ c ≤ 'F' then some (c.toNat - 'A'.toNat + 10)
  else none

/-- The base-16 digits at the start of `s`, up to the first other character, read into `acc`. -/
def hexValue (acc : ℕ) : List Char → ℕ
  | [] => acc
  | c :: s =>
    match hexDigit c with
    | some d => hexValue (16 * acc + d) s
    | none => acc

/-- An optional sign: whether it is `-`, and the rest. -/
def readSign : List Char → Bool × List Char
  | c :: t => if c = '-' then (true, t) else if c = '+' then (false, t) else (false, c :: t)
  | [] => (false, [])

/-- An optional `0x` or `0X` before the digits. A `0x` with no digit after it reads as the
digit `0`, which has the same value as reading no digit. -/
def skipHexPrefix (t : List Char) : List Char :=
  if t.take 2 = ['0', 'x'] ∨ t.take 2 = ['0', 'X'] then t.drop 2 else t

/-- What `strtoull` and `strtoll` read in base 16: white space, a sign, an optional prefix, then
the digits; whether the number is negated, and its magnitude. -/
def hexNumber (s : List Char) : Bool × ℕ :=
  let (neg, t) := readSign (s.dropWhile isSpace)
  (neg, hexValue 0 (skipHexPrefix t))

/-- `strtoull(s, NULL, 16)`: `ULLONG_MAX` past the range, and a negative number negated in
`unsigned long long`. -/
def strtoull (s : List Char) : UInt64 :=
  let (neg, v) := hexNumber s
  if 2 ^ 64 ≤ v then UInt64.ofNat (2 ^ 64 - 1)
  else if neg then 0 - UInt64.ofNat v else UInt64.ofNat v

/-- `strtoll(s, NULL, 16)`, saturating at `LLONG_MIN` and `LLONG_MAX`. -/
def strtoll (s : List Char) : ℤ :=
  let (neg, v) := hexNumber s
  if neg then (if 2 ^ 63 < v then -2 ^ 63 else -(v : ℤ))
  else if 2 ^ 63 - 1 < v then 2 ^ 63 - 1 else v

/-- A digit of `%lx`. -/
def hexChar (d : ℕ) : Char :=
  if d < 10 then Char.ofNat ('0'.toNat + d) else Char.ofNat ('a'.toNat + d - 10)

/-- The low `n` base-16 digits of `v`, most significant first. -/
def hexDigits (v n : ℕ) : List Char :=
  (List.range n).reverse.map fun i => hexChar (v / 16 ^ i % 16)

/-- `%016lx`: a `uint64_t` never needs more than sixteen digits, so exactly sixteen. -/
def format016lx (v : UInt64) : List Char :=
  hexDigits v.toNat 16

/-- What `mem` does with the mapping, `args` being `argv[1..]`. -/
inductive Access
  /-- no access: `argc` is 1 or above 3 -/
  | none
  /-- `val = ptr[offset / 8]`, at byte `addr` -/
  | read (addr : ℕ)
  /-- `ptr[offset / 8] = val`, then `ioctl(fd, 5, phys_addr + offset)` writing back the L2
  line of physical address `flush` -/
  | write (addr : ℕ) (value : UInt64) (flush : ℕ)
  deriving DecidableEq, Repr

/-- `phys_addr`, where the FPGA's memory starts and where `mem` maps it. -/
def physAddr : UInt64 := 0x10000000000

/-- `main` of `mem.c` up to its access: `offset = strtoll(argv[1], NULL, 16)` stored in a
`uint64_t`, then a read with one argument and a store of `strtoull(argv[2], NULL, 16)` with
two. -/
def memMain (args : List (List Char)) : Access :=
  let offset : UInt64 :=
    match args with
    | arg :: _ => UInt64.ofNat (strtoll arg % 2 ^ 64).toNat
    | [] => 0
  match args with
  | [_] => .read (8 * (offset.toNat / 8))
  | [_, value] => .write (8 * (offset.toNat / 8)) (strtoull value) (physAddr + offset).toNat
  | _ => .none

theorem hexDigit_hexChar : ∀ d < 16, hexDigit (hexChar d) = some d := by
  decide

theorem isSpace_hexChar : ∀ d < 16, isSpace (hexChar d) = false := by
  decide

theorem hexChar_ne_sign : ∀ d < 16, hexChar d ≠ '-' ∧ hexChar d ≠ '+' := by
  decide

theorem hexChar_ne_x : ∀ d < 16, hexChar d ≠ 'x' ∧ hexChar d ≠ 'X' := by
  decide

theorem hexDigits_succ (v n : ℕ) :
    hexDigits v (n + 1) = hexChar (v / 16 ^ n % 16) :: hexDigits v n := by
  rw [hexDigits, List.range_succ, List.reverse_append, List.reverse_singleton,
    List.singleton_append, List.map_cons, hexDigits]

theorem hexValue_hexDigits (v n acc : ℕ) :
    hexValue acc (hexDigits v n) = acc * 16 ^ n + v % 16 ^ n := by
  induction n generalizing acc with
  | zero => simp [hexDigits, hexValue, Nat.mod_one]
  | succ n ih =>
    rw [hexDigits_succ, hexValue, hexDigit_hexChar _ (Nat.mod_lt _ (by decide))]
    dsimp only
    rw [ih, Nat.mod_pow_succ]
    ring

theorem hexValue_format016lx (v : UInt64) : hexValue 0 (format016lx v) = v.toNat := by
  rw [format016lx, hexValue_hexDigits, Nat.zero_mul, Nat.zero_add]
  exact Nat.mod_eq_of_lt v.toNat_lt_size

theorem skipHexPrefix_of_ne {a b : Char} {r : List Char} (hx : b ≠ 'x') (hX : b ≠ 'X') :
    skipHexPrefix (a :: b :: r) = a :: b :: r := by
  rw [skipHexPrefix, if_neg]
  simp [hx, hX]

theorem hexNumber_format016lx (v : UInt64) :
    hexNumber (format016lx v) = (false, v.toNat) ∧
      hexNumber ('0' :: 'x' :: format016lx v) = (false, v.toNat) := by
  have hd : ∀ n, v.toNat / 16 ^ n % 16 < 16 := fun n => Nat.mod_lt _ (by decide)
  have h16 : format016lx v = hexChar (v.toNat / 16 ^ 15 % 16) ::
      hexChar (v.toNat / 16 ^ 14 % 16) :: hexDigits v.toNat 14 := by
    rw [format016lx, hexDigits_succ, hexDigits_succ]
  obtain ⟨hm, hp⟩ := hexChar_ne_sign _ (hd 15)
  obtain ⟨hx, hX⟩ := hexChar_ne_x _ (hd 14)
  have hdrop : (format016lx v).dropWhile isSpace = format016lx v := by
    rw [h16, List.dropWhile_cons, isSpace_hexChar _ (hd 15)]
    rfl
  have hsign : readSign (format016lx v) = (false, format016lx v) := by
    rw [h16, readSign, if_neg hm, if_neg hp]
  have hpre : skipHexPrefix (format016lx v) = format016lx v := by
    rw [h16, skipHexPrefix_of_ne hx hX]
  constructor
  · simp only [hexNumber, hdrop, hsign, hpre, hexValue_format016lx]
  · simp only [hexNumber, List.dropWhile_cons, show isSpace '0' = false from rfl, readSign,
      skipHexPrefix]
    simp [hexValue_format016lx]

theorem strtoull_of_hexNumber {s : List Char} {v : UInt64} (h : hexNumber s = (false, v.toNat)) :
    strtoull s = v := by
  have h' : ¬2 ^ 64 ≤ v.toNat := Nat.not_le.2 v.toNat_lt_size
  simp only [strtoull, h, h', if_false, Bool.false_eq_true]
  exact UInt64.toNat.inj (UInt64.toNat_ofNat_of_lt v.toNat_lt_size)

theorem strtoull_format016lx (v : UInt64) :
    strtoull (format016lx v) = v ∧ strtoull ('0' :: 'x' :: format016lx v) = v :=
  ⟨strtoull_of_hexNumber (hexNumber_format016lx v).1,
    strtoull_of_hexNumber (hexNumber_format016lx v).2⟩

theorem strtoll_bounds (s : List Char) : -2 ^ 63 ≤ strtoll s ∧ strtoll s < 2 ^ 63 := by
  rcases h : hexNumber s with ⟨neg, v⟩
  simp only [strtoll, h]
  split_ifs <;> omega

theorem mem_access_in_mapping (off : List Char) :
    memMain [off] = .read (8 * ((strtoll off % 2 ^ 64).toNat / 8)) ∧
      (∀ value, memMain [off, value] = .write (8 * ((strtoll off % 2 ^ 64).toNat / 8))
        (strtoull value) ((physAddr.toNat + (strtoll off % 2 ^ 64).toNat) % 2 ^ 64)) ∧
      (strtoll off < 0 → 2 ^ 63 ≤ (strtoll off % 2 ^ 64).toNat) ∧
      (8 * ((strtoll off % 2 ^ 64).toNat / 8) + 8 ≤ 2 ^ 40 ↔
        0 ≤ strtoll off ∧ strtoll off < 2 ^ 40) ∧
      (8 * ((strtoll off % 2 ^ 64).toNat / 8) + 8 ≤ 2 ^ 40 →
        (physAddr.toNat + (strtoll off % 2 ^ 64).toNat) % 2 ^ 64 / 128 =
          (physAddr.toNat + 8 * ((strtoll off % 2 ^ 64).toNat / 8)) / 128) := by
  have hb := strtoll_bounds off
  have hv : (UInt64.ofNat (strtoll off % 2 ^ 64).toNat).toNat = (strtoll off % 2 ^ 64).toNat :=
    UInt64.toNat_ofNat_of_lt (by simp only [UInt64.size]; omega)
  have hflush : ∀ x : UInt64, (physAddr + x).toNat = (physAddr.toNat + x.toNat) % 2 ^ 64 :=
    fun _ => BitVec.toNat_add ..
  have hphys : physAddr.toNat = 2 ^ 40 := rfl
  refine ⟨by simp only [memMain, hv], fun value => by simp only [memMain, hv, hflush], by omega,
    by omega, fun _ => ?_⟩
  rw [hphys]
  omega

end EnzianMemory.Mem
