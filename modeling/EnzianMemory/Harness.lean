import EnzianMemory.Barrier
import Mathlib.Algebra.Order.BigOperators.Group.Finset

/-!
`start_threads` with `n` workers running the phase loop of `thread_write_cache_area`,
`thread_clear_cache_area` or `thread_read_cache_area` (the three loops share their
synchronisation), over a reusable barrier of `n + 1` parties. Statements are interleaved
one at a time; `arrivals` is a ghost log of who entered the barrier in which generation.
-/

namespace EnzianMemory.Harness

/-- A worker before, inside and after the `k`-th iteration of `for (k = 0; k < 4; k++)`. -/
inductive WorkerPc
  | unborn
  | atWait (k : ℕ)
  | blocked (k g : ℕ)
  | released (k : ℕ)
  | timed (k : ℕ)
  | exited
  deriving DecidableEq, Repr

/-- `start_threads`: the `pthread_create` loop, the `1 + 3` barrier waits, the
`pthread_join` loop. -/
inductive MainPc
  | creating (i : ℕ)
  | atWait (j : ℕ)
  | blocked (j g : ℕ)
  | joining (i : ℕ)
  | done
  deriving DecidableEq, Repr

structure State (n : ℕ) where
  main : MainPc
  worker : Fin n → WorkerPc
  count : ℕ
  gen : ℕ
  arrivals : List (Option (Fin n) × ℕ)

inductive Action (n : ℕ)
  | create
  | mainWait
  | mainLeave
  | join
  | wait (i : Fin n)
  | leave (i : Fin n)
  | start (i : Fin n)
  | finish (i : Fin n)
  deriving DecidableEq, Repr

variable {n : ℕ}

def init (n : ℕ) : State n :=
  ⟨.creating 0, fun _ => .unborn, 0, 0, []⟩

/-- Where `start_threads` goes once its `j`-th barrier wait returns. -/
def MainPc.afterWait (j : ℕ) : MainPc :=
  if j < 3 then .atWait (j + 1) else .joining 0

/-- The barrier side of `pthread_barrier_wait` by party `p` (`none` is `start_threads`):
the arrival that makes `n + 1` opens the next generation, any other one is counted. -/
def arrive (s : State n) (p : Option (Fin n)) : State n :=
  if s.count + 1 = n + 1 then
    { s with count := 0, gen := s.gen + 1, arrivals := s.arrivals ++ [(p, s.gen)] }
  else
    { s with count := s.count + 1, arrivals := s.arrivals ++ [(p, s.gen)] }

def step (s : State n) : Action n → Option (State n)
  | .create =>
    match s.main with
    | .creating i =>
      if h : i < n then
        some { s with main := .creating (i + 1), worker := Function.update s.worker ⟨i, h⟩ (.atWait 0) }
      else some { s with main := .atWait 0 }
    | _ => none
  | .mainWait =>
    match s.main with
    | .atWait j =>
      some { arrive s none with
        main := if s.count + 1 = n + 1 then MainPc.afterWait j else .blocked j s.gen }
    | _ => none
  | .mainLeave =>
    match s.main with
    | .blocked j g => if g < s.gen then some { s with main := MainPc.afterWait j } else none
    | _ => none
  | .join =>
    match s.main with
    | .joining i =>
      if h : i < n then
        if s.worker ⟨i, h⟩ = .exited then some { s with main := .joining (i + 1) } else none
      else some { s with main := .done }
    | _ => none
  | .wait i =>
    match s.worker i with
    | .atWait k =>
      some { arrive s (some i) with
        worker := Function.update s.worker i
          (if s.count + 1 = n + 1 then .released k else .blocked k s.gen) }
    | _ => none
  | .leave i =>
    match s.worker i with
    | .blocked k g =>
      if g < s.gen then some { s with worker := Function.update s.worker i (.released k) } else none
    | _ => none
  | .start i =>
    match s.worker i with
    | .released k => some { s with worker := Function.update s.worker i (.timed k) }
    | _ => none
  | .finish i =>
    match s.worker i with
    | .timed k =>
      some { s with worker := Function.update s.worker i (if k < 3 then .atWait (k + 1) else .exited) }
    | _ => none

def Step (s s' : State n) : Prop :=
  ∃ a, step s a = some s'

def Reachable (s : State n) : Prop :=
  Relation.ReflTransGen Step (init n) s

/-- All workers have returned and `start_threads` has joined them. -/
def Finished (s : State n) : Prop :=
  s.main = .done ∧ ∀ i, s.worker i = .exited

@[simp] theorem arrive_main (s : State n) (p : Option (Fin n)) : (arrive s p).main = s.main := by
  unfold arrive; split <;> rfl

@[simp] theorem arrive_worker (s : State n) (p : Option (Fin n)) :
    (arrive s p).worker = s.worker := by
  unfold arrive; split <;> rfl

@[simp] theorem arrive_arrivals (s : State n) (p : Option (Fin n)) :
    (arrive s p).arrivals = s.arrivals ++ [(p, s.gen)] := by
  unfold arrive; split <;> rfl

theorem arrive_count (s : State n) (p : Option (Fin n)) :
    (arrive s p).count = if s.count + 1 = n + 1 then 0 else s.count + 1 := by
  unfold arrive; split_ifs <;> rfl

theorem arrive_gen (s : State n) (p : Option (Fin n)) :
    (arrive s p).gen = if s.count + 1 = n + 1 then s.gen + 1 else s.gen := by
  unfold arrive; split_ifs <;> rfl

@[simp] def WorkerPc.waits : WorkerPc → ℕ
  | .unborn => 0
  | .atWait k => k
  | .blocked k _ => k + 1
  | .released k => k + 1
  | .timed k => k + 1
  | .exited => 4

@[simp] def WorkerPc.finishedPhases : WorkerPc → ℕ
  | .unborn => 0
  | .atWait k | .blocked k _ | .released k | .timed k => k
  | .exited => 4

@[simp] def MainPc.waits : MainPc → ℕ
  | .creating _ => 0
  | .atWait j => j
  | .blocked j _ => j + 1
  | .joining _ | .done => 4

def State.waits (s : State n) : Option (Fin n) → ℕ :=
  Barrier.view s.main.waits fun i => (s.worker i).waits

def WorkerPc.blockedIn : WorkerPc → Option ℕ
  | .blocked _ g => some g
  | _ => none

def MainPc.blockedIn : MainPc → Option ℕ
  | .blocked _ g => some g
  | _ => none

def State.blockedIn (s : State n) : Option (Fin n) → Option ℕ :=
  Barrier.view s.main.blockedIn fun i => (s.worker i).blockedIn

def State.barrier (s : State n) : Barrier n :=
  ⟨s.waits, s.blockedIn, s.count, s.gen, s.arrivals⟩

@[simp] def WorkerPc.rank : WorkerPc → ℕ
  | .unborn => 0
  | .atWait k => 4 * k + 1
  | .blocked k _ => 4 * k + 2
  | .released k => 4 * k + 3
  | .timed k => 4 * k + 4
  | .exited => 17

@[simp] def MainPc.rank (n : ℕ) : MainPc → ℕ
  | .creating i => i
  | .atWait j => n + 1 + 2 * j
  | .blocked j _ => n + 2 + 2 * j
  | .joining i => n + 9 + i
  | .done => 2 * n + 10

def State.potential (s : State n) : ℕ :=
  s.main.rank n + ∑ i, (s.worker i).rank

@[simp] def WorkerPc.Valid : WorkerPc → Prop
  | .atWait k | .blocked k _ | .released k | .timed k => k < 4
  | .unborn | .exited => True

@[simp] def MainPc.Valid (n : ℕ) : MainPc → Prop
  | .creating i | .joining i => i ≤ n
  | .atWait j | .blocked j _ => j < 4
  | .done => True

@[simp] def MainPc.created (n : ℕ) : MainPc → ℕ
  | .creating i => i
  | .atWait _ | .blocked _ _ | .joining _ | .done => n

@[simp] def MainPc.joined (n : ℕ) : MainPc → ℕ
  | .joining i => i
  | .done => n
  | .creating _ | .atWait _ | .blocked _ _ => 0

structure State.Inv (s : State n) : Prop where
  main_valid : s.main.Valid n
  worker_valid : ∀ i, (s.worker i).Valid
  unborn_iff : ∀ i : Fin n, s.worker i = .unborn ↔ s.main.created n ≤ i
  joined_exited : ∀ i : Fin n, (i : ℕ) < s.main.joined n → s.worker i = .exited
  barrier : s.barrier.Inv

theorem worker_frame {β : Type} (f : WorkerPc → β) (w : Fin n → WorkerPc) (i : Fin n)
    (pc : WorkerPc) : ∀ j, some j ≠ some i → f (Function.update w i pc j) = f (w j) :=
  fun _ hj => congrArg f (Function.update_noteq (mt (congrArg some) hj) _ _)

@[simp] theorem barrier_waits (s : State n) : s.barrier.waits = s.waits := rfl
@[simp] theorem barrier_blockedIn (s : State n) : s.barrier.blockedIn = s.blockedIn := rfl
@[simp] theorem barrier_count (s : State n) : s.barrier.count = s.count := rfl
@[simp] theorem barrier_gen (s : State n) : s.barrier.gen = s.gen := rfl
@[simp] theorem barrier_arrivals (s : State n) : s.barrier.arrivals = s.arrivals := rfl

/-- The branches of `step`, each with the guard it tests. -/
inductive Move : State n → State n → Prop
  | create (s : State n) (i : ℕ) (hi : i < n) : s.main = .creating i →
      Move s { s with main := .creating (i + 1),
                      worker := Function.update s.worker ⟨i, hi⟩ (.atWait 0) }
  | createDone (s : State n) (i : ℕ) : n ≤ i → s.main = .creating i →
      Move s { s with main := .atWait 0 }
  | mainWait (s : State n) (j : ℕ) : s.main = .atWait j →
      Move s { arrive s none with
        main := if s.count + 1 = n + 1 then MainPc.afterWait j else .blocked j s.gen }
  | mainLeave (s : State n) (j g : ℕ) : s.main = .blocked j g → g < s.gen →
      Move s { s with main := MainPc.afterWait j }
  | join (s : State n) (i : ℕ) (hi : i < n) : s.main = .joining i → s.worker ⟨i, hi⟩ = .exited →
      Move s { s with main := .joining (i + 1) }
  | joinDone (s : State n) (i : ℕ) : n ≤ i → s.main = .joining i →
      Move s { s with main := .done }
  | wait (s : State n) (i : Fin n) (k : ℕ) : s.worker i = .atWait k →
      Move s { arrive s (some i) with
        worker := Function.update s.worker i
          (if s.count + 1 = n + 1 then .released k else .blocked k s.gen) }
  | leave (s : State n) (i : Fin n) (k g : ℕ) : s.worker i = .blocked k g → g < s.gen →
      Move s { s with worker := Function.update s.worker i (.released k) }
  | start (s : State n) (i : Fin n) (k : ℕ) : s.worker i = .released k →
      Move s { s with worker := Function.update s.worker i (.timed k) }
  | finish (s : State n) (i : Fin n) (k : ℕ) : s.worker i = .timed k →
      Move s { s with
        worker := Function.update s.worker i (if k < 3 then .atWait (k + 1) else .exited) }

theorem step_move {s s' : State n} {a : Action n} (h : step s a = some s') : Move s s' := by
  cases a with
  | create =>
    rcases hm : s.main with i | j | ⟨j, g⟩ | i | _ <;> simp only [step, hm, reduceCtorEq] at h
    split_ifs at h with hi <;> cases h
    exacts [.create s i hi hm, .createDone s i (not_lt.mp hi) hm]
  | mainWait =>
    rcases hm : s.main with i | j | ⟨j, g⟩ | i | _ <;> simp only [step, hm, reduceCtorEq] at h
    cases h; exact .mainWait s j hm
  | mainLeave =>
    rcases hm : s.main with i | j | ⟨j, g⟩ | i | _ <;> simp only [step, hm, reduceCtorEq] at h
    split_ifs at h with hg
    cases h; exact .mainLeave s j g hm hg
  | join =>
    rcases hm : s.main with i | j | ⟨j, g⟩ | i | _ <;> simp only [step, hm, reduceCtorEq] at h
    split_ifs at h with hi hx <;> cases h
    exacts [.join s i hi hm hx, .joinDone s i (not_lt.mp hi) hm]
  | wait i =>
    rcases hw : s.worker i with _ | k | ⟨k, g⟩ | k | k | _ <;> simp only [step, hw, reduceCtorEq] at h
    cases h; exact .wait s i k hw
  | leave i =>
    rcases hw : s.worker i with _ | k | ⟨k, g⟩ | k | k | _ <;> simp only [step, hw, reduceCtorEq] at h
    split_ifs at h with hg
    cases h; exact .leave s i k g hw hg
  | start i =>
    rcases hw : s.worker i with _ | k | ⟨k, g⟩ | k | k | _ <;> simp only [step, hw, reduceCtorEq] at h
    cases h; exact .start s i k hw
  | finish i =>
    rcases hw : s.worker i with _ | k | ⟨k, g⟩ | k | k | _ <;> simp only [step, hw, reduceCtorEq] at h
    cases h; exact .finish s i k hw

theorem step_of_move {s s' : State n} (h : Move s s') : Step s s' := by
  cases h with
  | create i hi hm => exact ⟨.create, by simp [step, hm, hi]⟩
  | createDone i hi hm => exact ⟨.create, by simp [step, hm, not_lt.mpr hi]⟩
  | mainWait j hm => exact ⟨.mainWait, by simp [step, hm]⟩
  | mainLeave j g hm hg => exact ⟨.mainLeave, by simp [step, hm, hg]⟩
  | join i hi hm hx => exact ⟨.join, by simp [step, hm, hi, hx]⟩
  | joinDone i hi hm => exact ⟨.join, by simp [step, hm, not_lt.mpr hi]⟩
  | wait i k hw => exact ⟨.wait i, by simp [step, hw]⟩
  | leave i k g hw hg => exact ⟨.leave i, by simp [step, hw, hg]⟩
  | start i k hw => exact ⟨.start i, by simp [step, hw]⟩
  | finish i k hw => exact ⟨.finish i, by simp [step, hw]⟩

theorem step_iff_move {s s' : State n} : Step s s' ↔ Move s s' :=
  ⟨fun ⟨_, h⟩ => step_move h, step_of_move⟩

section AfterWait

variable {j : ℕ} (hj : j < 4)
include hj

theorem MainPc.waits_afterWait : (MainPc.afterWait j).waits = j + 1 := by
  unfold MainPc.afterWait; split_ifs <;> simp [MainPc.waits]; omega

theorem MainPc.valid_afterWait : (MainPc.afterWait j).Valid n := by
  unfold MainPc.afterWait; split_ifs <;> simp [MainPc.Valid]; omega

theorem MainPc.rank_afterWait : n + 2 + 2 * j < (MainPc.afterWait j).rank n := by
  unfold MainPc.afterWait; split_ifs <;> simp [MainPc.rank] <;> omega

end AfterWait

@[simp] theorem MainPc.blockedIn_afterWait (j : ℕ) : (MainPc.afterWait j).blockedIn = none := by
  unfold MainPc.afterWait; split_ifs <;> rfl

@[simp] theorem MainPc.created_afterWait (j : ℕ) : (MainPc.afterWait j).created n = n := by
  unfold MainPc.afterWait; split_ifs <;> rfl

@[simp] theorem MainPc.joined_afterWait (j : ℕ) : (MainPc.afterWait j).joined n = 0 := by
  unfold MainPc.afterWait; split_ifs <;> rfl

theorem State.Inv.main_lt {s : State n} (hs : s.Inv) {j : ℕ} (hm : s.main = .atWait j ∨ ∃ g, s.main = .blocked j g) :
    j < 4 := by
  have := hs.main_valid
  rcases hm with hm | ⟨g, hm⟩ <;> simpa [hm, MainPc.Valid] using this

theorem State.Inv.worker_lt {s : State n} (hs : s.Inv) {i : Fin n} {k : ℕ}
    (hw : s.worker i = .atWait k ∨ (∃ g, s.worker i = .blocked k g) ∨ s.worker i = .released k ∨
      s.worker i = .timed k) : k < 4 := by
  have := hs.worker_valid i
  rcases hw with hw | ⟨g, hw⟩ | hw | hw <;> simpa [hw, WorkerPc.Valid] using this

theorem Move.barrier {s s' : State n} (hs : s.Inv) (h : Move s s') :
    Barrier.Step s.barrier s'.barrier := by
  cases h with
  | create i hi hm =>
    have hu : s.worker ⟨i, hi⟩ = .unborn := (hs.unborn_iff _).mpr (by simp [hm, MainPc.created])
    exact Barrier.step_of_skip
      (Barrier.view_update (fun _ => by simp [hm, MainPc.waits]) (worker_frame _ _ _ _))
      (Barrier.view_update (fun _ => by simp [hm, MainPc.blockedIn]) (worker_frame _ _ _ _))
      (by simp [State.waits, hu, WorkerPc.waits]) (by simp [State.blockedIn, hu, WorkerPc.blockedIn])
      rfl rfl rfl
  | mainWait j hm =>
    refine Barrier.step_of_arrive
      (Barrier.view_update (absurd rfl) fun _ _ => by rw [arrive_worker])
      (Barrier.view_update (absurd rfl) fun _ _ => by rw [arrive_worker]) ?_
      (by simp [State.blockedIn, hm, MainPc.blockedIn]) ?_ (arrive_count s _) (arrive_gen s _)
      (arrive_arrivals s _)
    · split_ifs
      · rw [MainPc.waits_afterWait (hs.main_lt (.inl hm))]; simp [State.waits, hm, MainPc.waits]
      · simp [State.waits, hm, MainPc.waits]
    · simp only [barrier_count, barrier_gen]
      split_ifs
      exacts [MainPc.blockedIn_afterWait j, rfl]
  | mainLeave j g hm hg =>
    refine Barrier.step_of_leave (Barrier.view_update (absurd rfl) fun _ _ => rfl)
      (Barrier.view_update (absurd rfl) fun _ _ => rfl) ?_
      (MainPc.blockedIn_afterWait j) (by simp [State.blockedIn, hm, MainPc.blockedIn]) hg rfl rfl rfl
    rw [MainPc.waits_afterWait (hs.main_lt (.inr ⟨g, hm⟩))]; simp [State.waits, hm, MainPc.waits]
  | createDone i hi hm | join i hi hm _ | joinDone i hi hm =>
    exact Barrier.step_of_skip (Barrier.view_update (absurd rfl) fun _ _ => rfl)
      (Barrier.view_update (absurd rfl) fun _ _ => rfl)
      (by simp [State.waits, hm, MainPc.waits]) (by simp [State.blockedIn, hm, MainPc.blockedIn])
      rfl rfl rfl
  | wait i k hw =>
    refine Barrier.step_of_arrive
      (Barrier.view_update (fun _ => by rw [arrive_main]) (worker_frame _ _ _ _))
      (Barrier.view_update (fun _ => by rw [arrive_main]) (worker_frame _ _ _ _)) ?_
      (by simp [State.blockedIn, hw, WorkerPc.blockedIn]) ?_ (arrive_count s _) (arrive_gen s _)
      (arrive_arrivals s _)
    · split_ifs <;> simp [State.waits, hw, WorkerPc.waits]
    · simp only [barrier_count, barrier_gen]
      split_ifs <;> simp [WorkerPc.blockedIn]
  | leave i k g hw hg =>
    exact Barrier.step_of_leave (Barrier.view_update (fun _ => rfl) (worker_frame _ _ _ _))
      (Barrier.view_update (fun _ => rfl) (worker_frame _ _ _ _))
      (by simp [State.waits, hw, WorkerPc.waits]) (by simp [WorkerPc.blockedIn])
      (by simp [State.blockedIn, hw, WorkerPc.blockedIn]) hg rfl rfl rfl
  | start i k hw =>
    exact Barrier.step_of_skip (Barrier.view_update (fun _ => rfl) (worker_frame _ _ _ _))
      (Barrier.view_update (fun _ => rfl) (worker_frame _ _ _ _))
      (by simp [State.waits, hw, WorkerPc.waits]) (by simp [State.blockedIn, hw, WorkerPc.blockedIn])
      rfl rfl rfl
  | finish i k hw =>
    have hk := hs.worker_lt (.inr (.inr (.inr hw)))
    exact Barrier.step_of_skip (Barrier.view_update (fun _ => rfl) (worker_frame _ _ _ _))
      (Barrier.view_update (fun _ => rfl) (worker_frame _ _ _ _))
      (by split_ifs <;> simp [State.waits, hw, WorkerPc.waits]; omega)
      (by split_ifs <;> simp [State.blockedIn, hw, WorkerPc.blockedIn]) rfl rfl rfl

section Inv

variable {s s' : State n}

theorem State.Inv.of_worker (hs : s.Inv) {i : Fin n} {pc : WorkerPc} (hm : s'.main = s.main)
    (hw : s'.worker = Function.update s.worker i pc) (hu : s.worker i ≠ .unborn)
    (he : s.worker i ≠ .exited) (hpu : pc ≠ .unborn) (hpv : pc.Valid) (hb : s'.barrier.Inv) :
    s'.Inv where
  main_valid := hm ▸ hs.main_valid
  worker_valid j := by
    rw [hw]
    by_cases hj : j = i
    · subst hj; simpa using hpv
    · rw [Function.update_noteq hj]; exact hs.worker_valid j
  unborn_iff j := by
    rw [hw, hm]
    by_cases hj : j = i
    · subst hj
      simp only [Function.update_same, hpu, false_iff]
      exact fun h => hu ((hs.unborn_iff j).mpr h)
    · rw [Function.update_noteq hj]; exact hs.unborn_iff j
  joined_exited j hj := by
    rw [hm] at hj
    rw [hw]
    by_cases hji : j = i
    · subst hji; exact absurd (hs.joined_exited j hj) he
    · rw [Function.update_noteq hji]; exact hs.joined_exited j hj
  barrier := hb

theorem State.Inv.of_main (hs : s.Inv) {m : MainPc} (hm : s'.main = m) (hw : s'.worker = s.worker)
    (hv : m.Valid n) (hc : m.created n = s.main.created n)
    (hj : ∀ i : Fin n, (i : ℕ) < m.joined n → s.worker i = .exited) (hb : s'.barrier.Inv) :
    s'.Inv where
  main_valid := hm ▸ hv
  worker_valid := hw ▸ hs.worker_valid
  unborn_iff i := by rw [hw, hm, hc]; exact hs.unborn_iff i
  joined_exited i hi := by rw [hw]; exact hj i (hm ▸ hi)
  barrier := hb

theorem State.Inv.move (hs : s.Inv) (h : Move s s') : s'.Inv := by
  have hb := hs.barrier.step (h.barrier hs)
  cases h with
  | create i hi hm =>
    refine ⟨by simp only [MainPc.Valid]; omega, fun j => ?_, fun j => ?_, fun j hj => ?_, hb⟩
    all_goals dsimp only
    · by_cases hj : j = ⟨i, hi⟩
      · subst hj; simp
      · rw [Function.update_noteq hj]; exact hs.worker_valid j
    · have h1 := hs.unborn_iff j
      rw [hm] at h1
      by_cases hj : j = ⟨i, hi⟩
      · subst hj; simp
      · have hne : (j : ℕ) ≠ i := fun e => hj (Fin.ext e)
        rw [Function.update_noteq hj, h1]
        simp only [MainPc.created]; omega
    · simp at hj
  | createDone i hi hm =>
    have hv := hs.main_valid
    simp only [hm, MainPc.Valid] at hv
    exact hs.of_main rfl rfl (by simp) (by simp [hm]; omega) (by simp) hb
  | mainWait j hm =>
    have hj := hs.main_lt (.inl hm)
    refine hs.of_main rfl (arrive_worker s none) ?_ ?_ ?_ hb <;> split_ifs
    · exact MainPc.valid_afterWait hj
    · exact hj
    · rw [MainPc.created_afterWait, hm]; rfl
    · rw [hm]; rfl
    · rw [MainPc.joined_afterWait]; exact fun i hi => absurd hi (Nat.not_lt_zero _)
    · exact fun i hi => absurd hi (Nat.not_lt_zero _)
  | mainLeave j g hm hg =>
    exact hs.of_main rfl rfl (MainPc.valid_afterWait (hs.main_lt (.inr ⟨g, hm⟩)))
      (by rw [MainPc.created_afterWait, hm]; rfl)
      (by rw [MainPc.joined_afterWait]; exact fun i hi => absurd hi (Nat.not_lt_zero _)) hb
  | join i hi hm hx =>
    refine hs.of_main rfl rfl (by simp only [MainPc.Valid]; omega) (by simp [hm, MainPc.created])
      (fun j hj => ?_) hb
    simp only [MainPc.joined] at hj
    rcases Nat.lt_succ_iff_lt_or_eq.mp hj with hj | hj
    · exact hs.joined_exited j (by simpa [hm, MainPc.joined] using hj)
    · rwa [show j = ⟨i, hi⟩ from Fin.ext hj]
  | joinDone i hi hm =>
    exact hs.of_main rfl rfl trivial (by simp [hm, MainPc.created])
      (fun j hj => hs.joined_exited j (by simp only [hm, MainPc.joined]; omega)) hb
  | wait i k hw =>
    have hk := hs.worker_lt (.inl hw)
    exact hs.of_worker (arrive_main s _) rfl (by simp [hw]) (by simp [hw])
      (by split_ifs <;> simp) (by split_ifs <;> exact hk) hb
  | leave i k g hw hg =>
    exact hs.of_worker rfl rfl (by simp [hw]) (by simp [hw]) (by simp)
      (hs.worker_lt (.inr (.inl ⟨g, hw⟩))) hb
  | start i k hw =>
    exact hs.of_worker rfl rfl (by simp [hw]) (by simp [hw]) (by simp)
      (hs.worker_lt (.inr (.inr (.inl hw)))) hb
  | finish i k hw =>
    refine hs.of_worker rfl rfl (by simp [hw]) (by simp [hw]) (by split_ifs <;> simp) ?_ hb
    split_ifs with hk
    · show k + 1 < 4; omega
    · trivial

theorem init_inv : (init n).Inv where
  main_valid := Nat.zero_le n
  worker_valid _ := trivial
  unborn_iff i := by simp [init, MainPc.created]
  joined_exited i hi := by simp [init, MainPc.joined] at hi
  barrier := by
    have : (init n).barrier = Barrier.init n :=
      Barrier.ext (funext fun p => by rcases p <;> rfl) (funext fun p => by rcases p <;> rfl) rfl rfl rfl
    exact this ▸ Barrier.init_inv

theorem Reachable.inv (h : Reachable s) : s.Inv := by
  induction h with
  | refl => exact init_inv
  | tail _ hst ih => obtain ⟨a, h⟩ := hst; exact ih.move (step_move h)

end Inv

section Progress

variable {s s' : State n}

theorem potential_lt_of_le (hm : s.main.rank n ≤ s'.main.rank n)
    (hw : ∀ i, (s.worker i).rank ≤ (s'.worker i).rank)
    (hlt : s.main.rank n < s'.main.rank n ∨ ∃ i, (s.worker i).rank < (s'.worker i).rank) :
    s.potential < s'.potential := by
  unfold State.potential
  rcases hlt with hlt | ⟨i, hi⟩
  · have := Finset.sum_le_sum fun i (_ : i ∈ Finset.univ) => hw i
    omega
  · have := Finset.sum_lt_sum (fun i (_ : i ∈ Finset.univ) => hw i) ⟨i, Finset.mem_univ _, hi⟩
    omega

theorem rank_update_le {w : Fin n → WorkerPc} {i : Fin n} {pc : WorkerPc} (h : (w i).rank ≤ pc.rank)
    (j : Fin n) : (w j).rank ≤ (Function.update w i pc j).rank := by
  by_cases hj : j = i
  · subst hj; simpa using h
  · rw [Function.update_noteq hj]

theorem potential_lt_of_main (hm : s.main.rank n < s'.main.rank n) (hw : s'.worker = s.worker) :
    s.potential < s'.potential :=
  potential_lt_of_le hm.le (fun i => by rw [hw]) (.inl hm)

theorem potential_lt_of_worker {i : Fin n} {pc : WorkerPc} (hm : s'.main = s.main)
    (hw : s'.worker = Function.update s.worker i pc) (hlt : (s.worker i).rank < pc.rank) :
    s.potential < s'.potential :=
  potential_lt_of_le (by rw [hm]) (fun j => hw ▸ rank_update_le hlt.le j)
    (.inr ⟨i, by rw [hw, Function.update_same]; exact hlt⟩)

theorem Move.potential_lt (hs : s.Inv) (h : Move s s') : s.potential < s'.potential := by
  cases h with
  | create i hi hm =>
    have hu : s.worker ⟨i, hi⟩ = .unborn := (hs.unborn_iff _).mpr (by simp [hm])
    exact potential_lt_of_le (by simp [hm]) (rank_update_le (by simp [hu]))
      (.inl (by simp [hm]))
  | createDone i hi hm =>
    have hv := hs.main_valid
    simp only [hm, MainPc.Valid] at hv
    exact potential_lt_of_main (by simp [hm]; omega) rfl
  | mainWait j hm =>
    have hj := MainPc.rank_afterWait (n := n) (hs.main_lt (.inl hm))
    refine potential_lt_of_main ?_ (arrive_worker s none)
    split_ifs <;> simp only [hm, MainPc.rank] at hj ⊢ <;> omega
  | mainLeave j g hm hg =>
    have hj := MainPc.rank_afterWait (n := n) (hs.main_lt (.inr ⟨g, hm⟩))
    exact potential_lt_of_main (by simp only [hm, MainPc.rank] at hj ⊢; omega) rfl
  | join i hi hm hx => exact potential_lt_of_main (by simp [hm]) rfl
  | joinDone i hi hm =>
    have hv := hs.main_valid
    simp only [hm, MainPc.Valid] at hv
    exact potential_lt_of_main (by simp [hm]; omega) rfl
  | wait i k hw =>
    exact potential_lt_of_worker (arrive_main s _) rfl (by split_ifs <;> simp [hw])
  | leave i k g hw hg => exact potential_lt_of_worker rfl rfl (by simp [hw])
  | start i k hw => exact potential_lt_of_worker rfl rfl (by simp [hw])
  | finish i k hw =>
    have hk := hs.worker_lt (.inr (.inr (.inr hw)))
    exact potential_lt_of_worker rfl rfl (by split_ifs <;> simp [hw] <;> omega)

theorem State.Inv.potential_le (hs : s.Inv) : s.potential ≤ 19 * n + 10 := by
  have hm : s.main.rank n ≤ 2 * n + 10 := by
    have := hs.main_valid
    generalize s.main = m at this ⊢
    cases m <;> simp only [MainPc.Valid, MainPc.rank] at this ⊢ <;> omega
  have hw : ∑ i, (s.worker i).rank ≤ ∑ _i : Fin n, 17 := Finset.sum_le_sum fun i _ => by
    have := hs.worker_valid i
    generalize s.worker i = w at this ⊢
    cases w <;> simp only [WorkerPc.Valid, WorkerPc.rank] at this ⊢ <;> omega
  rw [Finset.sum_const_nat fun _ _ => rfl, Finset.card_univ, Fintype.card_fin] at hw
  unfold State.potential
  omega

theorem State.Inv.waits_le_four (hs : s.Inv) (p : Option (Fin n)) : s.waits p ≤ 4 := by
  rcases p with _ | i
  · have := hs.main_valid
    simp only [State.waits, Barrier.view_none]
    generalize s.main = m at this ⊢
    cases m <;> simp only [MainPc.Valid, MainPc.waits] at this ⊢ <;> omega
  · have := hs.worker_valid i
    simp only [State.waits, Barrier.view_some]
    generalize s.worker i = w at this ⊢
    cases w <;> simp only [WorkerPc.Valid, WorkerPc.waits] at this ⊢ <;> omega

theorem State.Inv.worker_move {i : Fin n} (hc : s.main.created n = n) (he : s.worker i ≠ .exited)
    (hg : ∀ g, s.blockedIn (some i) = some g → g < s.gen) (hs : s.Inv) : ∃ s', Move s s' := by
  rcases hw : s.worker i with _ | k | ⟨k, g⟩ | k | k | _
  · exact absurd ((hs.unborn_iff i).mp hw) (by rw [hc]; exact not_le.mpr i.isLt)
  · exact ⟨_, .wait s i k hw⟩
  · exact ⟨_, .leave s i k g hw (hg g (by simp [State.blockedIn, hw, WorkerPc.blockedIn]))⟩
  · exact ⟨_, .start s i k hw⟩
  · exact ⟨_, .finish s i k hw⟩
  · exact absurd hw he

theorem State.Inv.gen_eq_four (hs : s.Inv) (hm : s.main.waits = 4)
    (hb : s.main.blockedIn = none) : s.gen = 4 :=
  hm ▸ (hs.barrier.waits_of_unblocked (p := none) hb).symm

theorem State.Inv.worker_move_of_gen (hs : s.Inv) (hgen : s.gen = 4) (hc : s.main.created n = n)
    {i : Fin n} (he : s.worker i ≠ .exited) : ∃ s', Move s s' :=
  hs.worker_move hc he fun g hg => by
    have h1 := hs.barrier.blocked_waits (some i) g hg
    have h2 := hs.waits_le_four (some i)
    simp only [barrier_waits] at h1
    omega

theorem State.Inv.exists_move (hs : s.Inv) (hf : ¬Finished s) : ∃ s', Move s s' := by
  rcases hm : s.main with i | j | ⟨j, g⟩ | i | _
  · by_cases hi : i < n
    exacts [⟨_, .create s i hi hm⟩, ⟨_, .createDone s i (not_lt.mp hi) hm⟩]
  · exact ⟨_, .mainWait s j hm⟩
  · by_cases hg : g < s.gen
    · exact ⟨_, .mainLeave s j g hm hg⟩
    -- the generation `start_threads` waits in is open: some worker has not arrived yet
    have hmg : g = s.gen := le_antisymm (hs.barrier.blocked_le (p := none)
      (by simp [State.blockedIn, hm, MainPc.blockedIn])) (not_lt.mp hg)
    have hmw := hs.barrier.blocked_waits none g (by simp [State.blockedIn, hm, MainPc.blockedIn])
    obtain ⟨_ | i, hp⟩ := hs.barrier.exists_behind
    · simp only [barrier_waits, barrier_gen] at hp hmw; omega
    have hlt := hs.main_lt (.inr ⟨g, hm⟩)
    simp only [barrier_waits, barrier_gen, State.waits, Barrier.view_none, Barrier.view_some, hm, MainPc.waits] at hp hmw
    refine hs.worker_move (by simp [hm]) (fun he => by rw [he, WorkerPc.waits] at hp; omega) fun g' hg' => ?_
    have := hs.barrier.blocked_waits (some i) g' hg'
    simp only [barrier_waits, State.waits, Barrier.view_some] at this
    omega
  · have hgen := hs.gen_eq_four (by simp [hm]) (by simp [hm, MainPc.blockedIn])
    by_cases hi : i < n
    · by_cases hx : s.worker ⟨i, hi⟩ = .exited
      exacts [⟨_, .join s i hi hm hx⟩, hs.worker_move_of_gen hgen (by simp [hm]) hx]
    · exact ⟨_, .joinDone s i (not_lt.mp hi) hm⟩
  · have hgen := hs.gen_eq_four (by simp [hm]) (by simp [hm, MainPc.blockedIn])
    obtain ⟨i, hi⟩ : ∃ i, s.worker i ≠ .exited := by
      by_contra hall
      push_neg at hall
      exact hf ⟨hm, hall⟩
    exact hs.worker_move_of_gen hgen (by simp [hm]) hi

theorem State.Inv.finished_reachable {s : State n} (hs : s.Inv) :
    ∃ t, Relation.ReflTransGen Step s t ∧ Finished t := by
  by_cases hf : Finished s
  · exact ⟨s, .refl, hf⟩
  obtain ⟨s', h⟩ := hs.exists_move hf
  have := h.potential_lt hs
  have := (hs.move h).potential_le
  obtain ⟨t, ht, hft⟩ := (hs.move h).finished_reachable
  exact ⟨t, .head (step_of_move h) ht, hft⟩
termination_by 19 * n + 10 - s.potential

end Progress

section Phases

variable {s : State n}

theorem State.Inv.arrivals_completed (hs : s.Inv) {p : Option (Fin n)} {g : ℕ} (hg : g < s.gen) :
    s.arrivals.count (p, g) = 1 := by
  have hc := hs.barrier.arrivals_count p g
  have hw := hs.barrier.waits_ge p
  simp only [barrier_arrivals, barrier_waits, barrier_gen] at hc hw
  rw [hc, if_pos (by omega)]

theorem State.Inv.gen_of_released (hs : s.Inv) {i : Fin n} {k : ℕ} (hw : s.worker i = .released k) :
    s.gen = k + 1 :=
  (hs.barrier.waits_of_unblocked (p := some i)
    (by simp [State.blockedIn, hw, WorkerPc.blockedIn])).symm.trans (by simp [State.waits, hw])

theorem WorkerPc.waits_le_finishedPhases (pc : WorkerPc) : pc.waits ≤ pc.finishedPhases + 1 := by
  cases pc <;> simp

theorem State.Inv.released_ahead (hs : s.Inv) {i : Fin n} {k : ℕ} (hw : s.worker i = .released k) :
    (∀ p, k + 1 ≤ s.waits p) ∧ ∀ j, k ≤ (s.worker j).finishedPhases := by
  have hall : ∀ p, k + 1 ≤ s.waits p := fun p => hs.gen_of_released hw ▸ hs.barrier.waits_ge p
  refine ⟨hall, fun j => ?_⟩
  have := (s.worker j).waits_le_finishedPhases
  have := hall (some j)
  simp only [State.waits, Barrier.view_some] at this
  omega

theorem start_threads_barrier (h : Reachable s) :
    (∀ p g, g < s.gen → s.arrivals.count (p, g) = 1) ∧
    (∀ i k, s.worker i = .released k →
      (∀ p, k + 1 ≤ s.waits p) ∧ ∀ j, k ≤ (s.worker j).finishedPhases) ∧
    ∃ t, Relation.ReflTransGen Step s t ∧ Finished t :=
  ⟨fun _ _ hg => h.inv.arrivals_completed hg, fun _ _ hw => h.inv.released_ahead hw,
    h.inv.finished_reachable⟩

theorem start_threads_barrier_two_workers :
    Reachable (init 2) ∧ ∃ t, Relation.ReflTransGen Step (init 2) t ∧ Finished t :=
  ⟨.refl, (start_threads_barrier .refl).2.2⟩

end Phases

end EnzianMemory.Harness
