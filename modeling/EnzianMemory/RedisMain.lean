import EnzianMemory.Arena
import EnzianMemory.Queries

/-!
`main` of `redis_fpga.c` as far as it decides the exit status, the `CONFIG SET` commands and
the keys the server holds afterwards. The arena `main` maps is used once, by the
`fpga_alloc(sz + 1)` of `read_file_into_buffer`, which exits when the file and its terminator do
not fit; `readFileIntoBuffer` of `Lines` is that function on its other paths. The queries only
read, so a full run that returns leaves the keys a load-only run leaves.
-/

namespace EnzianMemory.Redis

/-- `atoi(s)`, glibc's `(int)strtol(s, NULL, 10)`: `strtol` clamps to the 64-bit `long` as
`atoll` does, and the conversion to `int` keeps the low 32 bits. -/
def atoi (s : List Char) : ℤ :=
  int32 (atoll s)

/-- The arena after `read_file_into_buffer`: its `fpga_alloc(sz + 1)` sits between `fopen` and
`fread`, for the size `stat` gave; `none` is the `exit(1)` inside `fpga_alloc`. -/
def readFileIntoArena (malloc : UInt64 → UInt64) (a : Arena) (file : Dataset) : Option Arena :=
  match file with
  | .statFails | .openFails => some a
  | .shortRead _ content | .bytes content =>
    (fpgaAlloc malloc a (UInt64.ofNat content.length + 1)).map Prod.snd

/-- The `CONFIG SET` commands of `set_persistence`. -/
def setPersistence (persistent : Bool) : List String :=
  if persistent then
    ["CONFIG SET appendonly yes", "CONFIG SET appendfsync everysec", "CONFIG SET save \"60 1\""]
  else ["CONFIG SET save \"\"", "CONFIG SET appendonly no"]

/-- `mapGb`: `atoi(argv[5])` when `argc >= 6`, else 4, from `argv[4..]`. -/
def mapGb (rest : List (List Char)) : ℤ :=
  match rest with
  | _ :: gb :: _ => atoi gb
  | _ => 4

/-- The arena `main` leaves: `SetupEnzianMemoryMapping(dev, (size_t)mapGb * 1024ULL * 1024ULL *
1024ULL)` when `mapGb > 0`, else the null arena of the heap fallback. -/
def mainArena (mapping : Option UInt64) (mapGb : ℤ) : Arena :=
  if 0 < mapGb then
    setupEnzianMemoryMapping mapping (UInt64.ofNat mapGb.toNat * 1024 * 1024 * 1024) Arena.null
  else Arena.null

/-- What `main` finds outside its arguments: the address `mmap` gives the device (`none` when
`open` or `mmap` fails), whether `redisConnect` succeeds, `malloc`, and the dataset file. -/
structure Env where
  mapping : Option UInt64
  connected : Bool
  malloc : UInt64 → UInt64
  dataset : Dataset

/-- How `main` ends: its exit status, the `CONFIG SET` commands it sent, and the server's
keys. -/
structure Outcome where
  status : ℕ
  config : List String
  store : Store

/-- The run once the file is in the arena: the loader's commands, then, unless `argv[2]` is
`load`, the queries, which only read. `none` is a run with no exit status: an `HSET` of a
`tokens[i]` the first row never assigned, which is undefined, or a full run over `INT_MAX` rows,
whose scans' `i++` past `INT_MAX` is undefined and, wrapping, never ends `i <= rows`. -/
def loadThenQuery (loadOnly : Bool) (load : Load) (s : Store) : Option Store :=
  (execAll s load.commands).bind fun s' =>
    if loadOnly || load.rows < 2 ^ 31 - 1 then some s' else none

/-- `main(argc, argv)`, `args` being `argv[1..]`, on a server holding `s`. -/
def redisFpgaMain (args : List (List Char)) (env : Env) (s : Store) : Option Outcome :=
  match args with
  | persistent :: mode :: _path :: rest =>
    let arena := mainArena env.mapping (mapGb rest)
    if env.connected then
      let config := setPersistence (atoi persistent == 1)
      match readFileIntoArena env.malloc arena env.dataset with
      | none => some ⟨1, config, s⟩
      | some _ =>
        (loadThenQuery (mode == "load".toList) (loadDatasetGeneric env.dataset) s).map
          fun s' => ⟨0, config, s'⟩
    else some ⟨1, [], s⟩
  | _ => some ⟨1, [], s⟩

theorem uint64_gt_iff {a b : UInt64} : a > b ↔ b.toNat < a.toNat := Iff.rfl

theorem fpgaAlloc_fresh_isSome {malloc : UInt64 → UInt64} {addr mapBytes n : UInt64}
    (h0 : addr ≠ 0) (h64 : addr.toNat % 64 = 0) (hmap : addr.toNat + mapBytes.toNat < 2 ^ 63)
    (hn : n.toNat < 2 ^ 63) (a₀ : Arena) :
    (fpgaAlloc malloc (setupEnzianMemoryMapping (some addr) mapBytes a₀) n).isSome ↔
      n.toNat ≤ mapBytes.toNat := by
  have hal := @aligned_toNat addr (by omega)
  have haln : (addr + (64 - 1)) &&& ~~~(64 - 1) = addr := UInt64.toNat.inj (by rw [hal]; omega)
  have hsum : (addr + n).toNat = addr.toNat + n.toNat := toNat_add_of_lt (by omega)
  have hend : (addr + mapBytes).toNat = addr.toNat + mapBytes.toNat := toNat_add_of_lt (by omega)
  simp only [fpgaAlloc, setupEnzianMemoryMapping, h0, if_false, haln, uint64_gt_iff, hsum, hend]
  split_ifs with h
  · simp only [Option.isSome_none, Bool.false_eq_true, false_iff]
    omega
  · simp only [Option.isSome_some, true_iff]
    omega

theorem uint64_mul_1024_toNat {g : ℕ} (hg : g < 2 ^ 31) :
    (UInt64.ofNat g * 1024 * 1024 * 1024).toNat = g * 2 ^ 30 := by
  have hv : (UInt64.ofNat g).toNat = g := UInt64.toNat_ofNat_of_lt (hg.trans_le (by decide))
  have hmul : ∀ a b : UInt64, (a * b).toNat = a.toNat * b.toNat % 2 ^ 64 :=
    fun _ _ => BitVec.toNat_mul ..
  simp only [hmul, hv, show (1024 : UInt64).toNat = 1024 from rfl]
  rw [Nat.mod_eq_of_lt (by omega), Nat.mod_eq_of_lt (by omega), Nat.mod_eq_of_lt (by omega)]
  omega

theorem atoi_lt (s : List Char) : atoi s < 2 ^ 31 := by
  have := Int.emod_lt_of_pos (atoll s + 2 ^ 31) (by decide : (0 : ℤ) < 2 ^ 32)
  simp only [atoi, int32]
  omega

theorem mapGb_lt (rest : List (List Char)) : mapGb rest < 2 ^ 31 := by
  unfold mapGb
  split
  · exact atoi_lt _
  · decide

theorem redis_main_outcome {persistent mode path : List Char} {rest : List (List Char)}
    {env : Env} {s : Store} {addr : UInt64} {content : List Char}
    (hconn : env.connected = true) (hmap : env.mapping = some addr)
    (hfile : env.dataset = .bytes content) (h0 : addr ≠ 0) (h64 : addr.toNat % 64 = 0)
    (hgb : 0 < mapGb rest) (hfit : addr.toNat + (mapGb rest).toNat * 2 ^ 30 < 2 ^ 63)
    (hsz : content.length + 1 < 2 ^ 63) :
    redisFpgaMain (persistent :: mode :: path :: rest) env s =
      if content.length + 1 ≤ (mapGb rest).toNat * 2 ^ 30 then
        (loadThenQuery (mode == "load".toList) (loadDatasetGeneric (.bytes content)) s).map
          fun s' => ⟨0, setPersistence (atoi persistent == 1), s'⟩
      else some ⟨1, setPersistence (atoi persistent == 1), s⟩ := by
  have hg : (mapGb rest).toNat < 2 ^ 31 := by
    have := mapGb_lt rest
    omega
  have hbytes := uint64_mul_1024_toNat hg
  have hlen : (UInt64.ofNat content.length).toNat = content.length :=
    UInt64.toNat_ofNat_of_lt (by simp only [UInt64.size]; omega)
  have h1 : (1 : UInt64).toNat = 1 := rfl
  have hn : (UInt64.ofNat content.length + 1).toNat = content.length + 1 := by
    rw [toNat_add_of_lt (by rw [hlen, h1]; omega), hlen, h1]
  have halloc := @fpgaAlloc_fresh_isSome env.malloc addr _ _ h0 h64 (by rw [hbytes]; exact hfit)
    (by rw [hn]; exact hsz) Arena.null
  rw [hbytes, hn] at halloc
  simp only [redisFpgaMain, mainArena, hgb, if_true, hconn, hmap, hfile, readFileIntoArena]
  split_ifs with hle
  · obtain ⟨p, hp⟩ := Option.isSome_iff_exists.mp (halloc.2 hle)
    simp only [hp, Option.map_some']
  · have hnone := Option.not_isSome_iff_eq_none.mp (mt halloc.1 hle)
    simp only [hnone, Option.map_none']

theorem redis_main_outcome_default_map :
    redisFpgaMain ["1".toList, "full".toList, "data.csv".toList]
        ⟨some 4294967296, true, fun _ => 0, .bytes "k,v\n5,x\n".toList⟩ (fun _ => .hash .empty) =
      if "k,v\n5,x\n".toList.length + 1 ≤ (mapGb []).toNat * 2 ^ 30 then
        (loadThenQuery ("full".toList == "load".toList)
          (loadDatasetGeneric (.bytes "k,v\n5,x\n".toList)) (fun _ => .hash .empty)).map
          fun s' => ⟨0, setPersistence (atoi "1".toList == 1), s'⟩
      else some ⟨1, setPersistence (atoi "1".toList == 1), fun _ => .hash .empty⟩ :=
  redis_main_outcome rfl rfl rfl (by decide) (by decide) (by decide) (by decide) (by decide)

end EnzianMemory.Redis
