import EnzianMemory.Barrier
import EnzianMemory.Handshake
import Mathlib.Tactic.FinCases

/-!
`do_c2c_test` with a second CPU: `thread_c2c_1`, `thread_c2c_2` and the orchestrator over a
barrier of three parties (`none`, `some 0`, `some 1`), with the mailboxes `c2c_data[0]` and
`c2c_data[16]` in sequentially consistent memory, where the fences order nothing more.
`log` is a ghost record of what the two threads do with the mailboxes.
-/

namespace EnzianMemory.CoreToCore

/-- `thread_c2c_1`: the two initialising stores, the barrier wait, then in round `i` of
`for (i = 1000; i >= 0; i--)` the store of `i` and the busy-wait for its echo. -/
inductive OnePc
  | unborn
  | init0
  | init16
  | wait
  | blocked (g : ℕ)
  | write (i : ℕ)
  | poll (i : ℕ)
  | exited
  deriving DecidableEq, Repr

/-- `thread_c2c_2`: the barrier wait, then `v = c2c_data[0]; c2c_data[16] = v;` until
`v == 0`. -/
inductive TwoPc
  | unborn
  | wait
  | blocked (g : ℕ)
  | read
  | echo (v : UInt64)
  | exited
  deriving DecidableEq, Repr

inductive MainPc
  | create1
  | create2
  | wait
  | blocked (g : ℕ)
  | join1
  | join2
  | done
  deriving DecidableEq, Repr

structure State where
  data0 : UInt64
  data16 : UInt64
  main : MainPc
  one : OnePc
  two : TwoPc
  count : ℕ
  gen : ℕ
  arrivals : List (Option (Fin 2) × ℕ)
  log : List Event

/-- The mailboxes hold whatever `a` and `b` were left there. -/
def init (a b : UInt64) : State :=
  ⟨a, b, .create1, .unborn, .unborn, 0, 0, [], []⟩

/-- `pthread_barrier_wait` on the barrier of `3`, as in `start_threads`. -/
def arrive (s : State) (p : Option (Fin 2)) : State :=
  if s.count + 1 = 3 then
    { s with count := 0, gen := s.gen + 1, arrivals := s.arrivals ++ [(p, s.gen)] }
  else
    { s with count := s.count + 1, arrivals := s.arrivals ++ [(p, s.gen)] }

inductive Action
  | create1
  | create2
  | mainWait
  | mainLeave
  | join1
  | join2
  | init0
  | init16
  | oneWait
  | oneLeave
  | write
  | poll
  | twoWait
  | twoLeave
  | read
  | echo
  deriving DecidableEq, Repr

def step (s : State) : Action → Option State
  | .create1 =>
    match s.main with
    | .create1 => some { s with main := .create2, one := .init0 }
    | _ => none
  | .create2 =>
    match s.main with
    | .create2 => some { s with main := .wait, two := .wait }
    | _ => none
  | .mainWait =>
    match s.main with
    | .wait => some { arrive s none with main := if s.count + 1 = 3 then .join1 else .blocked s.gen }
    | _ => none
  | .mainLeave =>
    match s.main with
    | .blocked g => if g < s.gen then some { s with main := .join1 } else none
    | _ => none
  | .join1 =>
    match s.main, s.one with
    | .join1, .exited => some { s with main := .join2 }
    | _, _ => none
  | .join2 =>
    match s.main, s.two with
    | .join2, .exited => some { s with main := .done }
    | _, _ => none
  | .init0 =>
    match s.one with
    | .init0 => some { s with data0 := 1, one := .init16, log := s.log ++ [.init0] }
    | _ => none
  | .init16 =>
    match s.one with
    | .init16 => some { s with data16 := 1, one := .wait, log := s.log ++ [.init16] }
    | _ => none
  | .oneWait =>
    match s.one with
    | .wait =>
      some { arrive s (some 0) with one := if s.count + 1 = 3 then .write 1000 else .blocked s.gen }
    | _ => none
  | .oneLeave =>
    match s.one with
    | .blocked g => if g < s.gen then some { s with one := .write 1000 } else none
    | _ => none
  | .write =>
    match s.one with
    | .write i =>
      some { s with data0 := UInt64.ofNat i, one := .poll i, log := s.log ++ [.write i] }
    | _ => none
  | .poll =>
    match s.one with
    | .poll i =>
      -- `while (i != c2c_data[16]);` then `i--` and the test `i >= 0`
      if s.data16 = UInt64.ofNat i then
        some { s with one := if i = 0 then .exited else .write (i - 1), log := s.log ++ [.leave i] }
      else none
    | _ => none
  | .twoWait =>
    match s.two with
    | .wait =>
      some { arrive s (some 1) with two := if s.count + 1 = 3 then .read else .blocked s.gen }
    | _ => none
  | .twoLeave =>
    match s.two with
    | .blocked g => if g < s.gen then some { s with two := .read } else none
    | _ => none
  | .read =>
    match s.two with
    | .read => some { s with two := .echo s.data0, log := s.log ++ [.read s.data0] }
    | _ => none
  | .echo =>
    match s.two with
    | .echo v =>
      some { s with data16 := v, two := if v = 0 then .exited else .read,
                    log := s.log ++ if v = 0 then [.echo v, .exit] else [.echo v] }
    | _ => none

def Step (s s' : State) : Prop :=
  ∃ a, step s a = some s'

def Reachable (a b : UInt64) (s : State) : Prop :=
  Relation.ReflTransGen Step (init a b) s

/-- Both threads have returned with the last echo in place, and `do_c2c_test` has joined
them. -/
def Finished (s : State) : Prop :=
  s.main = .done ∧ s.one = .exited ∧ s.two = .exited ∧ s.data16 = 0

theorem arrive_eq (s : State) (p : Option (Fin 2)) :
    arrive s p = { s with count := if s.count + 1 = 3 then 0 else s.count + 1,
                          gen := if s.count + 1 = 3 then s.gen + 1 else s.gen,
                          arrivals := s.arrivals ++ [(p, s.gen)] } := by
  unfold arrive; split_ifs <;> rfl

@[simp] theorem arrive_main (s : State) (p : Option (Fin 2)) : (arrive s p).main = s.main := by
  rw [arrive_eq]
@[simp] theorem arrive_one (s : State) (p : Option (Fin 2)) : (arrive s p).one = s.one := by
  rw [arrive_eq]
@[simp] theorem arrive_two (s : State) (p : Option (Fin 2)) : (arrive s p).two = s.two := by
  rw [arrive_eq]
@[simp] theorem arrive_data0 (s : State) (p : Option (Fin 2)) : (arrive s p).data0 = s.data0 := by
  rw [arrive_eq]
@[simp] theorem arrive_data16 (s : State) (p : Option (Fin 2)) :
    (arrive s p).data16 = s.data16 := by
  rw [arrive_eq]
@[simp] theorem arrive_log (s : State) (p : Option (Fin 2)) : (arrive s p).log = s.log := by
  rw [arrive_eq]

/-- The branches of `step`, each with the guard it tests. -/
inductive Move : State → State → Prop
  | create1 (s : State) : s.main = .create1 → Move s { s with main := .create2, one := .init0 }
  | create2 (s : State) : s.main = .create2 → Move s { s with main := .wait, two := .wait }
  | mainWait (s : State) : s.main = .wait →
      Move s { arrive s none with main := if s.count + 1 = 3 then .join1 else .blocked s.gen }
  | mainLeave (s : State) (g : ℕ) : s.main = .blocked g → g < s.gen →
      Move s { s with main := .join1 }
  | join1 (s : State) : s.main = .join1 → s.one = .exited → Move s { s with main := .join2 }
  | join2 (s : State) : s.main = .join2 → s.two = .exited → Move s { s with main := .done }
  | init0 (s : State) : s.one = .init0 →
      Move s { s with data0 := 1, one := .init16, log := s.log ++ [.init0] }
  | init16 (s : State) : s.one = .init16 →
      Move s { s with data16 := 1, one := .wait, log := s.log ++ [.init16] }
  | oneWait (s : State) : s.one = .wait →
      Move s { arrive s (some 0) with
        one := if s.count + 1 = 3 then .write 1000 else .blocked s.gen }
  | oneLeave (s : State) (g : ℕ) : s.one = .blocked g → g < s.gen →
      Move s { s with one := .write 1000 }
  | write (s : State) (i : ℕ) : s.one = .write i →
      Move s { s with data0 := UInt64.ofNat i, one := .poll i, log := s.log ++ [.write i] }
  | poll (s : State) (i : ℕ) : s.one = .poll i → s.data16 = UInt64.ofNat i →
      Move s { s with one := if i = 0 then .exited else .write (i - 1),
                      log := s.log ++ [.leave i] }
  | twoWait (s : State) : s.two = .wait →
      Move s { arrive s (some 1) with two := if s.count + 1 = 3 then .read else .blocked s.gen }
  | twoLeave (s : State) (g : ℕ) : s.two = .blocked g → g < s.gen →
      Move s { s with two := .read }
  | read (s : State) : s.two = .read →
      Move s { s with two := .echo s.data0, log := s.log ++ [.read s.data0] }
  | echo (s : State) (v : UInt64) : s.two = .echo v →
      Move s { s with data16 := v, two := if v = 0 then .exited else .read,
                      log := s.log ++ if v = 0 then [.echo v, .exit] else [.echo v] }

theorem step_move {s s' : State} {a : Action} (h : step s a = some s') : Move s s' := by
  cases a with
  | create1 =>
    rcases hm : s.main <;> simp only [step, hm, reduceCtorEq] at h
    cases h; exact .create1 s hm
  | create2 =>
    rcases hm : s.main <;> simp only [step, hm, reduceCtorEq] at h
    cases h; exact .create2 s hm
  | mainWait =>
    rcases hm : s.main <;> simp only [step, hm, reduceCtorEq] at h
    cases h; exact .mainWait s hm
  | mainLeave =>
    rcases hm : s.main with _ | _ | _ | g <;> simp only [step, hm, reduceCtorEq] at h
    split_ifs at h with hg
    cases h; exact .mainLeave s g hm hg
  | join1 =>
    rcases hm : s.main <;> rcases ho : s.one <;> simp only [step, hm, ho, reduceCtorEq] at h
    cases h
    have := Move.join1 s hm ho
    rwa [ho] at this
  | join2 =>
    rcases hm : s.main <;> rcases ht : s.two <;> simp only [step, hm, ht, reduceCtorEq] at h
    cases h
    have := Move.join2 s hm ht
    rwa [ht] at this
  | init0 =>
    rcases ho : s.one <;> simp only [step, ho, reduceCtorEq] at h
    cases h; exact .init0 s ho
  | init16 =>
    rcases ho : s.one <;> simp only [step, ho, reduceCtorEq] at h
    cases h; exact .init16 s ho
  | oneWait =>
    rcases ho : s.one <;> simp only [step, ho, reduceCtorEq] at h
    cases h; exact .oneWait s ho
  | oneLeave =>
    rcases ho : s.one with _ | _ | _ | _ | g <;> simp only [step, ho, reduceCtorEq] at h
    split_ifs at h with hg
    cases h; exact .oneLeave s g ho hg
  | write =>
    rcases ho : s.one with _ | _ | _ | _ | _ | i <;> simp only [step, ho, reduceCtorEq] at h
    cases h; exact .write s i ho
  | poll =>
    rcases ho : s.one with _ | _ | _ | _ | _ | _ | i <;> simp only [step, ho, reduceCtorEq] at h
    by_cases hd : s.data16 = UInt64.ofNat i
    · rw [if_pos hd] at h; cases h; exact .poll s i ho hd
    · rw [if_neg hd] at h; cases h
  | twoWait =>
    rcases ht : s.two <;> simp only [step, ht, reduceCtorEq] at h
    cases h; exact .twoWait s ht
  | twoLeave =>
    rcases ht : s.two with _ | _ | g <;> simp only [step, ht, reduceCtorEq] at h
    split_ifs at h with hg
    cases h; exact .twoLeave s g ht hg
  | read =>
    rcases ht : s.two <;> simp only [step, ht, reduceCtorEq] at h
    cases h; exact .read s ht
  | echo =>
    rcases ht : s.two with _ | _ | _ | _ | v <;> simp only [step, ht, reduceCtorEq] at h
    cases h; exact .echo s v ht

theorem step_of_move {s s' : State} (h : Move s s') : Step s s' := by
  cases h with
  | create1 hm => exact ⟨.create1, by simp [step, hm]⟩
  | create2 hm => exact ⟨.create2, by simp [step, hm]⟩
  | mainWait hm => exact ⟨.mainWait, by simp [step, hm]⟩
  | mainLeave g hm hg => exact ⟨.mainLeave, by simp [step, hm, hg]⟩
  | join1 hm ho => exact ⟨.join1, by simp [step, hm, ho]⟩
  | join2 hm ht => exact ⟨.join2, by simp [step, hm, ht]⟩
  | init0 ho => exact ⟨.init0, by simp [step, ho]⟩
  | init16 ho => exact ⟨.init16, by simp [step, ho]⟩
  | oneWait ho => exact ⟨.oneWait, by simp [step, ho]⟩
  | oneLeave g ho hg => exact ⟨.oneLeave, by simp [step, ho, hg]⟩
  | write i ho => exact ⟨.write, by simp [step, ho]⟩
  | poll i ho hd => exact ⟨.poll, by simp [step, ho, hd]⟩
  | twoWait ht => exact ⟨.twoWait, by simp [step, ht]⟩
  | twoLeave g ht hg => exact ⟨.twoLeave, by simp [step, ht, hg]⟩
  | read ht => exact ⟨.read, by simp [step, ht]⟩
  | echo v ht => exact ⟨.echo, by simp [step, ht]⟩

theorem step_iff_move {s s' : State} : Step s s' ↔ Move s s' :=
  ⟨fun ⟨_, h⟩ => step_move h, step_of_move⟩

@[simp] def MainPc.waits : MainPc → ℕ
  | .create1 | .create2 | .wait => 0
  | .blocked _ | .join1 | .join2 | .done => 1

@[simp] def OnePc.waits : OnePc → ℕ
  | .unborn | .init0 | .init16 | .wait => 0
  | .blocked _ | .write _ | .poll _ | .exited => 1

@[simp] def TwoPc.waits : TwoPc → ℕ
  | .unborn | .wait => 0
  | .blocked _ | .read | .echo _ | .exited => 1

@[simp] def MainPc.blockedIn : MainPc → Option ℕ
  | .blocked g => some g
  | .create1 | .create2 | .wait | .join1 | .join2 | .done => none

@[simp] def OnePc.blockedIn : OnePc → Option ℕ
  | .blocked g => some g
  | .unborn | .init0 | .init16 | .wait | .write _ | .poll _ | .exited => none

@[simp] def TwoPc.blockedIn : TwoPc → Option ℕ
  | .blocked g => some g
  | .unborn | .wait | .read | .echo _ | .exited => none

/-- One fact about each party: `none` is `do_c2c_test`, `some 0` is `thread_c2c_1` and
`some 1` is `thread_c2c_2`. -/
def State.view {α : Type} (fm : MainPc → α) (f1 : OnePc → α) (f2 : TwoPc → α) (s : State) :
    Option (Fin 2) → α :=
  Barrier.view (fm s.main) fun i => if i = 0 then f1 s.one else f2 s.two

def State.barrier (s : State) : Barrier 2 :=
  ⟨s.view MainPc.waits OnePc.waits TwoPc.waits,
    s.view MainPc.blockedIn OnePc.blockedIn TwoPc.blockedIn, s.count, s.gen, s.arrivals⟩

section View

variable {α : Type} {fm : MainPc → α} {f1 : OnePc → α} {f2 : TwoPc → α} {s s' : State}

@[simp] theorem view_none : s.view fm f1 f2 none = fm s.main := rfl
@[simp] theorem view_one : s.view fm f1 f2 (some 0) = f1 s.one := rfl
@[simp] theorem view_two : s.view fm f1 f2 (some 1) = f2 s.two := rfl

theorem view_frame {p : Option (Fin 2)} (hm : p ≠ none → s'.main = s.main)
    (h1 : p ≠ some 0 → s'.one = s.one) (h2 : p ≠ some 1 → s'.two = s.two) :
    s'.view fm f1 f2 = Function.update (s.view fm f1 f2) p (s'.view fm f1 f2 p) :=
  Barrier.view_update (fun h => by rw [hm h]) fun i hi => by
    fin_cases i
    · simp [h1 (Ne.symm hi)]
    · simp [h2 (Ne.symm hi)]

end View

theorem barrier_skip {s s' : State} (hm : s'.main.waits = s.main.waits ∧ s'.main.blockedIn = s.main.blockedIn)
    (h1 : s'.one.waits = s.one.waits ∧ s'.one.blockedIn = s.one.blockedIn)
    (h2 : s'.two.waits = s.two.waits ∧ s'.two.blockedIn = s.two.blockedIn)
    (hc : s'.count = s.count) (hg : s'.gen = s.gen) (ha : s'.arrivals = s.arrivals) :
    Barrier.Step s.barrier s'.barrier :=
  Barrier.step_of_skip (p := none)
    (Barrier.view_update (absurd rfl) fun _ _ => by simp only [h1.1, h2.1])
    (Barrier.view_update (absurd rfl) fun _ _ => by simp only [h1.2, h2.2]) hm.1 hm.2 hc hg ha

structure State.Inv (s : State) : Prop where
  barrier : s.barrier.Inv
  one_unborn : s.one = .unborn ↔ s.main = .create1
  two_unborn : s.two = .unborn ↔ s.main = .create1 ∨ s.main = .create2
  one_joined : s.main = .join2 ∨ s.main = .done → s.one = .exited
  two_joined : s.main = .done → s.two = .exited
  round_le : ∀ i, s.one = .write i ∨ s.one = .poll i → i ≤ 1000

theorem Move.barrier {s s' : State} (hs : s.Inv) (h : Move s s') :
    Barrier.Step s.barrier s'.barrier := by
  cases h with
  | create1 hm =>
    have ho := hs.one_unborn.mpr hm
    have ht := hs.two_unborn.mpr (.inl hm)
    exact barrier_skip (by simp [hm]) (by simp [ho]) (by simp [ht]) rfl rfl rfl
  | create2 hm =>
    have ht := hs.two_unborn.mpr (.inr hm)
    exact barrier_skip (by simp [hm]) (by simp) (by simp [ht]) rfl rfl rfl
  | mainWait hm =>
    rw [arrive_eq]
    refine Barrier.step_of_arrive (p := none) (view_frame (absurd rfl) (fun _ => rfl) fun _ => rfl)
      (view_frame (absurd rfl) (fun _ => rfl) fun _ => rfl) ?_
      (by simp [State.barrier, hm]) ?_ rfl rfl rfl <;> simp only [State.barrier] <;>
      split_ifs <;> simp [hm]
  | mainLeave g hm hg =>
    exact Barrier.step_of_leave (p := none) (view_frame (absurd rfl) (fun _ => rfl) fun _ => rfl)
      (view_frame (absurd rfl) (fun _ => rfl) fun _ => rfl) (by simp [State.barrier, hm]) rfl
      (by simp [State.barrier, hm]) hg rfl rfl rfl
  | join1 hm _ | join2 hm _ => exact barrier_skip (by simp [hm]) (by simp) (by simp) rfl rfl rfl
  | init0 ho | init16 ho | write _ ho =>
    exact barrier_skip (by simp) (by simp [ho]) (by simp) rfl rfl rfl
  | oneWait ho =>
    rw [arrive_eq]
    refine Barrier.step_of_arrive (p := some 0) (view_frame (fun _ => rfl) (absurd rfl) fun _ => rfl)
      (view_frame (fun _ => rfl) (absurd rfl) fun _ => rfl) ?_
      (by simp [State.barrier, ho]) ?_ rfl rfl rfl <;> simp only [State.barrier] <;>
      split_ifs <;> simp [ho]
  | oneLeave g ho hg =>
    exact Barrier.step_of_leave (p := some 0) (view_frame (fun _ => rfl) (absurd rfl) fun _ => rfl)
      (view_frame (fun _ => rfl) (absurd rfl) fun _ => rfl) (by simp [State.barrier, ho]) rfl
      (by simp [State.barrier, ho]) hg rfl rfl rfl
  | poll i ho hd =>
    exact barrier_skip (by simp) (by split_ifs <;> simp [ho]) (by simp) rfl rfl rfl
  | twoWait ht =>
    rw [arrive_eq]
    refine Barrier.step_of_arrive (p := some 1) (view_frame (fun _ => rfl) (fun _ => rfl) (absurd rfl))
      (view_frame (fun _ => rfl) (fun _ => rfl) (absurd rfl)) ?_
      (by simp [State.barrier, ht]) ?_ rfl rfl rfl <;> simp only [State.barrier] <;>
      split_ifs <;> simp [ht]
  | twoLeave g ht hg =>
    exact Barrier.step_of_leave (p := some 1) (view_frame (fun _ => rfl) (fun _ => rfl) (absurd rfl))
      (view_frame (fun _ => rfl) (fun _ => rfl) (absurd rfl)) (by simp [State.barrier, ht]) rfl
      (by simp [State.barrier, ht]) hg rfl rfl rfl
  | read ht => exact barrier_skip (by simp) (by simp) (by simp [ht]) rfl rfl rfl
  | echo v ht => exact barrier_skip (by simp) (by simp) (by split_ifs <;> simp [ht]) rfl rfl rfl

section Inv

variable {s s' : State}

theorem State.Inv.of_one (hs : s.Inv) (hm : s'.main = s.main) (ht : s'.two = s.two)
    (hu : s.one ≠ .unborn) (hu' : s'.one ≠ .unborn) (hx : s.one ≠ .exited)
    (hr : ∀ i, s'.one = .write i ∨ s'.one = .poll i → i ≤ 1000) (hb : s'.barrier.Inv) : s'.Inv where
  barrier := hb
  one_unborn := by rw [hm, ← hs.one_unborn]; exact iff_of_false hu' hu
  two_unborn := by rw [hm, ht]; exact hs.two_unborn
  one_joined h := absurd (hs.one_joined (hm ▸ h)) hx
  two_joined h := ht ▸ hs.two_joined (hm ▸ h)
  round_le := hr

theorem State.Inv.of_two (hs : s.Inv) (hm : s'.main = s.main) (ho : s'.one = s.one)
    (hu : s.two ≠ .unborn) (hu' : s'.two ≠ .unborn) (hx : s.two ≠ .exited) (hb : s'.barrier.Inv) :
    s'.Inv where
  barrier := hb
  one_unborn := by rw [hm, ho]; exact hs.one_unborn
  two_unborn := by rw [hm, ← hs.two_unborn]; exact iff_of_false hu' hu
  one_joined h := ho ▸ hs.one_joined (hm ▸ h)
  two_joined h := absurd (hs.two_joined (hm ▸ h)) hx
  round_le := ho ▸ hs.round_le

theorem State.Inv.move (hs : s.Inv) (h : Move s s') : s'.Inv := by
  have hb := hs.barrier.step (h.barrier hs)
  cases h with
  | create1 hm =>
    exact ⟨hb, by simp, by simp [hs.two_unborn.mpr (.inl hm)], by simp, by simp, by simp⟩
  | create2 hm =>
    have ho : s.one ≠ .unborn := fun h => by simp [hs.one_unborn.mp h] at hm
    exact ⟨hb, by simpa using ho, by simp, by simp, by simp, hs.round_le⟩
  | mainWait hm =>
    have ho : s.one ≠ .unborn := fun h => by simp [hs.one_unborn.mp h] at hm
    have ht : s.two ≠ .unborn := fun h => by rcases hs.two_unborn.mp h with h | h <;> simp [h] at hm
    refine ⟨hb, ?_, ?_, ?_, ?_, by simpa using hs.round_le⟩ <;> split_ifs <;> simp [ho, ht]
  | mainLeave g hm hg =>
    have ho : s.one ≠ .unborn := fun h => by simp [hs.one_unborn.mp h] at hm
    have ht : s.two ≠ .unborn := fun h => by rcases hs.two_unborn.mp h with h | h <;> simp [h] at hm
    exact ⟨hb, by simpa using ho, by simpa using ht, by simp, by simp, hs.round_le⟩
  | join1 hm ho =>
    have ht : s.two ≠ .unborn := fun h => by rcases hs.two_unborn.mp h with h | h <;> simp [h] at hm
    exact ⟨hb, by simp [ho], by simpa using ht, fun _ => ho, by simp, hs.round_le⟩
  | join2 hm ht =>
    exact ⟨hb, by simp [hs.one_joined (.inl hm)], by simp [ht], fun _ => hs.one_joined (.inl hm),
      fun _ => ht, hs.round_le⟩
  | init0 ho => exact hs.of_one rfl rfl (by simp [ho]) (by simp) (by simp [ho]) (by simp) hb
  | init16 ho => exact hs.of_one rfl rfl (by simp [ho]) (by simp) (by simp [ho]) (by simp) hb
  | oneWait ho =>
    refine hs.of_one (by simp) (by simp) (by simp [ho]) (by split_ifs <;> simp) (by simp [ho])
      ?_ hb
    split_ifs <;> simp
  | oneLeave g ho hg =>
    exact hs.of_one rfl rfl (by simp [ho]) (by simp) (by simp [ho]) (by simp) hb
  | write i ho =>
    exact hs.of_one rfl rfl (by simp [ho]) (by simp) (by simp [ho])
      (by simpa using hs.round_le i (.inl ho)) hb
  | poll i ho hd =>
    have := hs.round_le i (.inr ho)
    refine hs.of_one rfl rfl (by simp [ho]) (by split_ifs <;> simp) (by simp [ho]) ?_ hb
    split_ifs <;> simp; omega
  | twoWait ht =>
    exact hs.of_two (by simp) (by simp) (by simp [ht]) (by split_ifs <;> simp) (by simp [ht]) hb
  | twoLeave g ht hg => exact hs.of_two rfl rfl (by simp [ht]) (by simp) (by simp [ht]) hb
  | read ht => exact hs.of_two rfl rfl (by simp [ht]) (by simp) (by simp [ht]) hb
  | echo v ht =>
    exact hs.of_two rfl rfl (by simp [ht]) (by split_ifs <;> simp) (by simp [ht]) hb

theorem init_inv (a b : UInt64) : (init a b).Inv where
  barrier := by
    have : (init a b).barrier = Barrier.init 2 :=
      Barrier.ext (funext fun p => by rcases p with _ | i <;> [rfl; fin_cases i <;> rfl])
        (funext fun p => by rcases p with _ | i <;> [rfl; fin_cases i <;> rfl]) rfl rfl rfl
    exact this ▸ Barrier.init_inv
  one_unborn := by simp [init]
  two_unborn := by simp [init]
  one_joined h := by simp [init] at h
  two_joined h := by simp [init] at h
  round_le i h := by simp [init] at h

theorem Reachable.inv {a b : UInt64} (h : Reachable a b s) : s.Inv := by
  induction h with
  | refl => exact init_inv a b
  | tail _ hst ih => obtain ⟨_, h⟩ := hst; exact ih.move (step_move h)

end Inv

end EnzianMemory.CoreToCore
