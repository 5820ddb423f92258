import EnzianMemory.CoreToCore

/-!
`do_c2c_test` refines the mailbox protocol of `Handshake`: the barrier is what makes
`thread_c2c_2` read only after `thread_c2c_1` has initialised the mailboxes. From the
protocol's invariant come the ordering facts of every run; a measure that some statement
always lowers gives that every run can still finish.
-/

namespace EnzianMemory.CoreToCore

open scoped List

@[simp] def OnePc.ping : OnePc → Ping
  | .unborn | .init0 => .fresh
  | .init16 => .half
  | .wait | .blocked _ => .before 1000
  | .write i => .before i
  | .poll i => .after i
  | .exited => .finished

@[simp] def TwoPc.copy : TwoPc → Copy
  | .unborn | .wait | .blocked _ | .read => .idle
  | .echo v => .holding v
  | .exited => .gone

def State.handshake (s : State) : Handshake :=
  ⟨s.data0, s.data16, s.one.ping, s.two.copy, s.log⟩

theorem OnePc.ping_next (i : ℕ) :
    (if i = 0 then OnePc.exited else .write (i - 1)).ping =
      if i = 0 then .finished else .before (i - 1) := by
  split_ifs <;> rfl

theorem TwoPc.copy_next (v : UInt64) :
    (if v = 0 then TwoPc.exited else .read).copy = if v = 0 then .gone else .idle := by
  split_ifs <;> rfl

theorem OnePc.waits_le (o : OnePc) : o.waits ≤ 1 := by cases o <;> simp
theorem TwoPc.waits_le (t : TwoPc) : t.waits ≤ 1 := by cases t <;> simp
theorem MainPc.waits_le (m : MainPc) : m.waits ≤ 1 := by cases m <;> simp

theorem State.Inv.gen_of_left {s : State} (hs : s.Inv) {p : Option (Fin 2)}
    (hw : s.barrier.waits p = 1) (hb : s.barrier.blockedIn p = none) : s.gen = 1 :=
  (hw ▸ (hs.barrier.waits_of_unblocked hb).symm :)

theorem State.Inv.one_arrived {s : State} (hs : s.Inv) (hg : s.gen = 1) : s.one.waits = 1 := by
  have := hs.barrier.waits_ge (some 0)
  simp only [State.barrier, view_one] at this
  have := s.one.waits_le
  omega

theorem handshake_skip {s s' : State} (h0 : s'.data0 = s.data0) (h16 : s'.data16 = s.data16)
    (h1 : s'.one.ping = s.one.ping) (h2 : s'.two.copy = s.two.copy) (hl : s'.log = s.log) :
    Handshake.Step s.handshake s'.handshake := by
  have : s'.handshake = s.handshake := by simp only [State.handshake, h0, h16, h1, h2, hl]
  rw [this]; exact .skip _

theorem Move.handshake {s s' : State} (hs : s.Inv) (h : Move s s') :
    Handshake.Step s.handshake s'.handshake := by
  cases h with
  | create1 hm => exact handshake_skip rfl rfl (by rw [hs.one_unborn.mpr hm]; rfl) rfl rfl
  | create2 hm => exact handshake_skip rfl rfl rfl (by rw [hs.two_unborn.mpr (.inr hm)]; rfl) rfl
  | mainWait hm => exact handshake_skip (by simp) (by simp) (by simp) (by simp) (by simp)
  | mainLeave g hm hg => exact handshake_skip rfl rfl rfl rfl rfl
  | join1 hm ho => exact handshake_skip rfl rfl rfl rfl rfl
  | join2 hm ht => exact handshake_skip rfl rfl rfl rfl rfl
  | init0 ho => exact .init0 _ (by simp [State.handshake, ho])
  | init16 ho => exact .init16 _ (by simp [State.handshake, ho])
  | oneWait ho =>
    exact handshake_skip (by simp) (by simp) (by simp only [arrive_one, ho]; split_ifs <;> rfl)
      (by simp) (by simp)
  | oneLeave g ho hg => exact handshake_skip rfl rfl (by rw [ho]; rfl) rfl rfl
  | write i ho => exact .write _ i (by simp [State.handshake, ho])
  | poll i ho hd =>
    have := Handshake.Step.poll s.handshake i (by simp [State.handshake, ho]) hd
    rwa [← OnePc.ping_next] at this
  | twoWait ht =>
    exact handshake_skip (by simp) (by simp) (by simp)
      (by simp only [arrive_two, ht]; split_ifs <;> rfl) (by simp)
  | twoLeave g ht hg => exact handshake_skip rfl rfl rfl (by rw [ht]; rfl) rfl
  | read ht =>
    refine .read _ (by simp [State.handshake, ht]) ?_
    have := hs.one_arrived (hs.gen_of_left (p := some 1) (by simp [State.barrier, ht])
      (by simp [State.barrier, ht]))
    simp only [State.handshake]
    revert this; cases s.one <;> simp
  | echo v ht =>
    have := Handshake.Step.echo s.handshake v (by simp [State.handshake, ht])
    rwa [← TwoPc.copy_next] at this

theorem Reachable.handshake {a b : UInt64} {s : State} (h : Reachable a b s) :
    s.Inv ∧ Handshake.Reachable a b s.handshake := by
  induction h with
  | refl => exact ⟨init_inv a b, .refl⟩
  | tail _ hst ih =>
    obtain ⟨_, h⟩ := hst
    exact ⟨ih.1.move (step_move h), ih.2.tail ((step_move h).handshake ih.1)⟩

theorem c2c_rounds_round_trip {a b : UInt64} {s : State} (h : Reachable a b s) :
    ∀ i pre post, s.log = pre ++ .leave i :: post →
      [Event.write i, .read (UInt64.ofNat i), .echo (UInt64.ofNat i)] <+ pre :=
  h.handshake.2.values_history.2.leave_log

def run (s : State) : List Action → Option State
  | [] => some s
  | a :: as => (step s a).bind (run · as)

theorem run_reachable {s t : State} {l : List Action} (h : run s l = some t) :
    Relation.ReflTransGen Step s t := by
  induction l generalizing s with
  | nil => cases h; exact .refl
  | cons a l ih =>
    simp only [run, Option.bind_eq_some] at h
    obtain ⟨s', hs', ht⟩ := h
    exact .head ⟨a, hs'⟩ (ih ht)

theorem c2c_rounds_round_trip_first :
    ∃ s, Reachable 0 0 s ∧ ∃ pre post, s.log = pre ++ .leave 1000 :: post ∧
      [Event.write 1000, .read (UInt64.ofNat 1000), .echo (UInt64.ofNat 1000)] <+ pre :=
  have h := run_reachable (s := init 0 0) (l := [.create1, .create2, .init0, .init16, .oneWait,
    .twoWait, .mainWait, .oneLeave, .twoLeave, .write, .read, .echo, .poll]) rfl
  ⟨_, h, _, [], rfl, c2c_rounds_round_trip h 1000 _ _ rfl⟩

@[simp] def OnePc.rank : OnePc → ℕ
  | .unborn => 0
  | .init0 => 1
  | .init16 => 2
  | .wait => 3
  | .blocked _ => 4
  | .write i => 5 + 2 * (1000 - i)
  | .poll i => 6 + 2 * (1000 - i)
  | .exited => 2007

@[simp] def TwoPc.rank : TwoPc → ℕ
  | .unborn => 0
  | .wait => 1
  | .blocked _ => 2
  | .read | .echo _ => 3
  | .exited => 4

@[simp] def MainPc.rank : MainPc → ℕ
  | .create1 => 0
  | .create2 => 1
  | .wait => 2
  | .blocked _ => 3
  | .join1 => 4
  | .join2 => 5
  | .done => 6

/-- How far `thread_c2c_2` is from answering the round `thread_c2c_1` waits on. -/
def State.lag (s : State) : ℕ :=
  match s.one, s.two with
  | .poll i, .echo v =>
    if s.data16 = UInt64.ofNat i then 0 else if v = UInt64.ofNat i then 1 else 3
  | .poll i, .read => if s.data16 = UInt64.ofNat i then 0 else 2
  | .exited, .echo _ => 1
  | .exited, .read => 2
  | _, _ => 0

def State.measure (s : State) : ℕ :=
  4 * (2007 - s.one.rank) + 4 * (4 - s.two.rank) + (6 - s.main.rank) + s.lag

theorem State.lag_le (s : State) : s.lag ≤ 3 := by
  unfold State.lag
  split <;> (try split_ifs) <;> omega

theorem measure_lt {s s' : State} (h1 : s.one.rank ≤ s'.one.rank) (h2 : s.two.rank ≤ s'.two.rank)
    (hm : s.main.rank ≤ s'.main.rank)
    (hlt : s.one.rank < s'.one.rank ∨ s.two.rank < s'.two.rank ∨
      (s.main.rank < s'.main.rank ∧ s'.lag ≤ s.lag) ∨ s'.lag < s.lag) :
    s'.measure < s.measure := by
  have := s'.lag_le
  have : s'.one.rank ≤ 2007 := by cases s'.one <;> simp <;> omega
  have : s'.two.rank ≤ 4 := by cases s'.two <;> simp
  have : s'.main.rank ≤ 6 := by cases s'.main <;> simp
  unfold State.measure
  omega

theorem measure_lt_of_one {s s' : State} (hm : s'.main = s.main) (ht : s'.two = s.two)
    (hr : s.one.rank < s'.one.rank) : s'.measure < s.measure :=
  measure_lt hr.le (by rw [ht]) (by rw [hm]) (.inl hr)

theorem measure_lt_of_two {s s' : State} (hm : s'.main = s.main) (ho : s'.one = s.one)
    (hr : s.two.rank < s'.two.rank) : s'.measure < s.measure :=
  measure_lt (by rw [ho]) hr.le (by rw [hm]) (.inr (.inl hr))

theorem measure_lt_of_main {s s' : State} (ho : s'.one = s.one) (ht : s'.two = s.two)
    (hd : s'.data16 = s.data16) (hr : s.main.rank < s'.main.rank) : s'.measure < s.measure := by
  have : s'.lag = s.lag := by simp only [State.lag, ho, ht, hd]
  exact measure_lt (by rw [ho]) (by rw [ht]) hr.le (.inr (.inr (.inl ⟨hr, this.le⟩)))

section Progress

variable {s : State}

theorem State.Inv.gen_eq_one (hs : s.Inv) (hm : s.main.waits = 1) (h1 : s.one.waits = 1)
    (h2 : s.two.waits = 1) : s.gen = 1 := by
  obtain ⟨p, hp⟩ := hs.barrier.exists_behind
  rcases p with _ | i
  · change s.main.waits = s.gen at hp; omega
  · fin_cases i
    · change s.one.waits = s.gen at hp; omega
    · change s.two.waits = s.gen at hp; omega

theorem State.Inv.blocked_lt (hs : s.Inv) (hg : s.gen = 1) {p : Option (Fin 2)} {g : ℕ}
    (hp : s.barrier.blockedIn p = some g) : g < s.gen := by
  have hw := hs.barrier.blocked_waits p g hp
  have hle : s.barrier.waits p ≤ 1 := by
    rcases p with _ | i
    · exact MainPc.waits_le _
    · fin_cases i
      exacts [OnePc.waits_le _, TwoPc.waits_le _]
  change g < s.gen
  omega

theorem progress_poll (hv : s.handshake.Values) {i : ℕ} (ho : s.one = .poll i)
    (hd : s.data16 ≠ UInt64.ofNat i) (ht : s.two = .read ∨ (∃ v, s.two = .echo v) ∨ s.two = .exited) :
    ∃ s', Move s s' ∧ s'.measure < s.measure := by
  have h0 := hv.data0 (by simp [State.handshake, ho])
  simp only [State.handshake, ho, OnePc.ping, Ping.sent] at h0
  rcases ht with ht | ⟨v, ht⟩ | ht
  · refine ⟨_, .read s ht, measure_lt (by simp) (by simp [ht]) (by simp) (.inr (.inr (.inr ?_)))⟩
    simp [State.lag, ho, ht, hd, h0]
  · by_cases hv0 : v = 0
    · exact ⟨_, .echo s v ht, measure_lt_of_two rfl rfl (by simp [ht, hv0])⟩
    · refine ⟨_, .echo s v ht, measure_lt (by simp) (by simp [ht, hv0]) (by simp)
        (.inr (.inr (.inr ?_)))⟩
      simp only [State.lag, ho, ht, hd, hv0, if_false]
      split_ifs <;> omega
  · obtain ⟨h16, hp⟩ := hv.gone (by simp [State.handshake, ht])
    simp only [State.handshake, ho, OnePc.ping, Ping.after.injEq, reduceCtorEq, or_false] at h16 hp
    exact absurd (h16.trans (by rw [hp]; rfl)) hd

theorem progress_exited (hv : s.handshake.Values) (hf : ¬Finished s)
    (ho : s.one = .exited) (hm : s.main = .join1 ∨ s.main = .join2 ∨ s.main = .done)
    (ht : s.two = .read ∨ (∃ v, s.two = .echo v) ∨ s.two = .exited) :
    ∃ s', Move s s' ∧ s'.measure < s.measure := by
  rcases ht with ht | ⟨v, ht⟩ | ht
  · refine ⟨_, .read s ht, measure_lt (by simp) (by simp [ht]) (by simp) (.inr (.inr (.inr ?_)))⟩
    simp [State.lag, ho, ht]
  · have hv0 : v = 0 := by
      have := (hv.holding v (by simp [State.handshake, ht])).2
      simpa [State.handshake, ho] using this
    exact ⟨_, .echo s v ht, measure_lt_of_two rfl rfl (by simp [ht, hv0])⟩
  · rcases hm with hm | hm | hm
    · exact ⟨_, .join1 s hm ho, measure_lt_of_main rfl rfl rfl (by simp [hm])⟩
    · exact ⟨_, .join2 s hm ht, measure_lt_of_main rfl rfl rfl (by simp [hm])⟩
    · exact absurd ⟨hm, ho, ht, (hv.gone (by simp [State.handshake, ht])).1⟩ hf

theorem State.Inv.progress_arrived (hs : s.Inv) (hv : s.handshake.Values) (hf : ¬Finished s)
    (hm : s.main.waits = 1) (h1 : s.one.waits = 1) (h2 : s.two.waits = 1) :
    ∃ s', Move s s' ∧ s'.measure < s.measure := by
  have hg := hs.gen_eq_one hm h1 h2
  rcases hmb : s.main with _ | _ | _ | g | _ | _ | _ <;> simp [hmb] at hm
  case blocked =>
    have := hs.blocked_lt hg (p := none) (g := g) (by simp [State.barrier, hmb])
    exact ⟨_, .mainLeave s g hmb this, measure_lt_of_main rfl rfl rfl (by simp [hmb])⟩
  all_goals
    have hj : s.main = .join1 ∨ s.main = .join2 ∨ s.main = .done := by simp [hmb]
    rcases htb : s.two with _ | _ | g | _ | v | _ <;> simp [htb] at h2
    case blocked =>
      have := hs.blocked_lt hg (p := some 1) (g := g) (by simp [State.barrier, htb])
      exact ⟨_, .twoLeave s g htb this, measure_lt_of_two rfl rfl (by simp [htb])⟩
    all_goals
      have ht : s.two = .read ∨ (∃ v, s.two = .echo v) ∨ s.two = .exited := by simp [htb]
      rcases hob : s.one with _ | _ | _ | _ | g | i | i | _ <;> simp [hob] at h1
      case blocked =>
        have := hs.blocked_lt hg (p := some 0) (g := g) (by simp [State.barrier, hob])
        exact ⟨_, .oneLeave s g hob this, measure_lt_of_one rfl rfl (by simp [hob])⟩
      case write => exact ⟨_, .write s i hob, measure_lt_of_one rfl rfl (by simp [hob])⟩
      case poll =>
        by_cases hd : s.data16 = UInt64.ofNat i
        · have hi := hs.round_le i (.inr hob)
          exact ⟨_, .poll s i hob hd,
            measure_lt_of_one rfl rfl (by simp [hob]; split_ifs <;> simp <;> omega)⟩
        · exact progress_poll hv hob hd ht
      case exited => exact progress_exited hv hf hob hj ht

theorem State.Inv.exists_progress (hs : s.Inv) (hv : s.handshake.Values) (hf : ¬Finished s) :
    ∃ s', Move s s' ∧ s'.measure < s.measure := by
  -- `thread_c2c_1` before its barrier wait
  rcases ho : s.one with _ | _ | _ | _ | g | i | i | _
  case unborn =>
    have hm := hs.one_unborn.mp ho
    exact ⟨_, .create1 s hm, measure_lt (by simp [ho]) (by simp) (by simp [hm]) (.inl (by simp [ho]))⟩
  case init0 => exact ⟨_, .init0 s ho, measure_lt_of_one rfl rfl (by simp [ho])⟩
  case init16 => exact ⟨_, .init16 s ho, measure_lt_of_one rfl rfl (by simp [ho])⟩
  case wait =>
    exact ⟨_, .oneWait s ho, measure_lt_of_one (by simp) (by simp) (by simp [ho]; split_ifs <;> simp)⟩
  all_goals
    have h1 : s.one.waits = 1 := by simp [ho]
    -- `do_c2c_test` before its barrier wait
    rcases hm : s.main with _ | _ | _ | g' | _ | _ | _
    case create1 => exact absurd (hs.one_unborn.mpr hm) (by simp [ho])
    case create2 =>
      have ht := hs.two_unborn.mpr (.inr hm)
      exact ⟨_, .create2 s hm, measure_lt (by simp) (by simp [ht]) (by simp [hm]) (.inr (.inl (by simp [ht])))⟩
    case wait =>
      exact ⟨_, .mainWait s hm, measure_lt_of_main (by simp) (by simp) (by simp)
        (by simp [hm]; split_ifs <;> simp)⟩
    all_goals
      have hmw : s.main.waits = 1 := by simp [hm]
      -- `thread_c2c_2` before its barrier wait
      rcases ht : s.two with _ | _ | g'' | _ | v | _
      case unborn => exact absurd (hs.two_unborn.mp ht) (by simp [hm])
      case wait =>
        exact ⟨_, .twoWait s ht, measure_lt_of_two (by simp) (by simp) (by simp [ht]; split_ifs <;> simp)⟩
      all_goals exact hs.progress_arrived hv hf hmw h1 (by simp [ht])

theorem State.Inv.finished_reachable {s : State} (hs : s.Inv) (hv : s.handshake.Values) :
    ∃ t, Relation.ReflTransGen Step s t ∧ Finished t := by
  by_cases hf : Finished s
  · exact ⟨s, .refl, hf⟩
  obtain ⟨s', h, hlt⟩ := hs.exists_progress hv hf
  obtain ⟨t, ht, hft⟩ := (hs.move h).finished_reachable (hv.step (h.handshake hs))
  exact ⟨t, .head (step_of_move h) ht, hft⟩
termination_by s.measure

end Progress

theorem c2c_threads_return {a b : UInt64} {s : State} (h : Reachable a b s) :
    (∀ v pre post, s.log = pre ++ .read v :: post → [Event.init0, .init16] <+ pre) ∧
    (∀ pre post, s.log = pre ++ .exit :: post → Event.write 0 ∈ pre) ∧
    ∃ t, Relation.ReflTransGen Step s t ∧ Finished t := by
  obtain ⟨hs, hr⟩ := h.handshake
  obtain ⟨hv, hh⟩ := hr.values_history
  exact ⟨hh.read_log, hh.exit_log, hs.finished_reachable hv⟩

theorem c2c_threads_return_leftover_zero :
    Reachable 0 0 (init 0 0) ∧ ∃ t, Relation.ReflTransGen Step (init 0 0) t ∧ Finished t :=
  ⟨.refl, (c2c_threads_return .refl).2.2⟩

end EnzianMemory.CoreToCore
