import Vlsmc.Scheduler

/-!
# Exactly one thread runs

Every step of the kernel leaves one running thread, the current one, and every
switch is to a ready thread.
-/

set_option autoImplicit false

namespace Vlsmc.SchedulerRuns
open Vlsmc.Words Vlsmc.Scheduler

variable {s : System}

theorem modify_same (s : System) (i : ℕ) (f : Thread → Thread) :
    (s.modify i f).threads i = f (s.threads i) := if_pos rfl

theorem modify_ne (s : System) {i j : ℕ} (f : Thread → Thread) (h : j ≠ i) :
    (s.modify i f).threads j = s.threads j := if_neg h

theorem setCount_threads (s : System) (n : ℤ) : (s.setCount n).threads = s.threads := rfl

/-- What the first loop of `pick_next_thread` can do to a thread. -/
def Woken (current : Bool) (t t' : Thread) : Prop :=
  t'.priority = t.priority ∧ (t'.state = t.state ∨
    (t.state = .terminated ∧ t'.state = .unused ∧ current = false) ∨
    (t.state = .sleeping ∧ t'.state = .ready))

theorem Woken.refl (c : Bool) (t : Thread) : Woken c t t := ⟨rfl, Or.inl rfl⟩

theorem Woken.trans {c : Bool} {t t' t'' : Thread} (h : Woken c t t') (h' : Woken c t' t'') :
    Woken c t t'' := by
  obtain ⟨hp, h⟩ := h
  obtain ⟨hp', h'⟩ := h'
  refine ⟨hp'.trans hp, ?_⟩
  rcases h with h | ⟨h1, h2, h3⟩ | ⟨h1, h2⟩
  · rcases h' with h' | ⟨h1, h2, h3⟩ | ⟨h1, h2⟩
    · exact Or.inl (h'.trans h)
    · exact Or.inr (Or.inl ⟨h.symm.trans h1, h2, h3⟩)
    · exact Or.inr (Or.inr ⟨h.symm.trans h1, h2⟩)
  · rcases h' with h' | ⟨h4, -⟩ | ⟨h4, -⟩
    · exact Or.inr (Or.inl ⟨h1, h'.trans h2, h3⟩)
    · rw [h2] at h4
      exact absurd h4 (by simp)
    · rw [h2] at h4
      exact absurd h4 (by simp)
  · rcases h' with h' | ⟨h4, -⟩ | ⟨h4, -⟩
    · exact Or.inr (Or.inr ⟨h1, h'.trans h2⟩)
    · rw [h2] at h4
      exact absurd h4 (by simp)
    · rw [h2] at h4
      exact absurd h4 (by simp)

/-- What it leaves of the whole system. -/
structure Kept (s s' : System) : Prop where
  current : s'.currentTid = s.currentTid
  log : s'.switchedTo = s.switchedTo
  threads : ∀ j, Woken (j == s.currentTid) (s.threads j) (s'.threads j)

theorem kept_refl (s : System) : Kept s s := ⟨rfl, rfl, fun _ => Woken.refl _ _⟩

theorem kept_trans {s s' s'' : System} (h : Kept s s') (h' : Kept s' s'') : Kept s s'' := by
  refine ⟨h'.current.trans h.current, h'.log.trans h.log, fun j => ?_⟩
  have := h'.threads j
  rw [h.current] at this
  exact (h.threads j).trans this

theorem destroyAddressSpace_spec (s : System) (dir : ℕ) :
    (s.destroyAddressSpace dir).currentTid = s.currentTid ∧
    (s.destroyAddressSpace dir).switchedTo = s.switchedTo ∧
    (s.destroyAddressSpace dir).threads = s.threads := by
  unfold System.destroyAddressSpace
  split_ifs <;> exact ⟨rfl, rfl, rfl⟩

theorem dropDirectory_spec (s : System) (i : ℕ) :
    (s.dropDirectory i).currentTid = s.currentTid ∧
    (s.dropDirectory i).switchedTo = s.switchedTo ∧
    (∀ j, ((s.dropDirectory i).threads j).state = (s.threads j).state ∧
      ((s.dropDirectory i).threads j).priority = (s.threads j).priority) ∧
    ∀ j, j ≠ i → (s.dropDirectory i).threads j = s.threads j := by
  obtain ⟨h1, h2, h3⟩ := destroyAddressSpace_spec s (s.threads i).pageDirectoryPhys
  unfold System.dropDirectory
  dsimp only
  split_ifs
  · refine ⟨h1, h2, fun j => ?_, fun j hj => ?_⟩
    · by_cases hj : j = i
      · rw [hj, modify_same, h3]
        exact ⟨rfl, rfl⟩
      · rw [modify_ne _ _ hj, h3]
        exact ⟨rfl, rfl⟩
    · rw [modify_ne _ _ hj, h3]
  · exact ⟨rfl, rfl, fun _ => ⟨rfl, rfl⟩, fun _ _ => rfl⟩

theorem threadCleanup_spec (s : System) (i : ℕ) :
    (s.threadCleanup i).currentTid = s.currentTid ∧
    (s.threadCleanup i).switchedTo = s.switchedTo ∧
    ((s.threadCleanup i).threads i).state = .unused ∧
    ((s.threadCleanup i).threads i).priority = (s.threads i).priority ∧
    ∀ j, j ≠ i → (s.threadCleanup i).threads j = s.threads j := by
  obtain ⟨h1, h2, h3, h4⟩ := dropDirectory_spec s i
  unfold System.threadCleanup System.setState
  refine ⟨h1, h2, ?_, ?_, fun j hj => ?_⟩
  · rw [setCount_threads, modify_same]
  · rw [setCount_threads, modify_same]
    exact (h3 i).2
  · rw [setCount_threads, modify_ne _ _ hj, h4 j hj]

theorem wake_kept (s : System) (i : ℕ) : Kept s (s.wake i) := by
  have hclean : ∀ s : System, (s.threads i).state = .terminated ∧ i ≠ s.currentTid →
      Kept s (s.threadCleanup i) := by
    intro s h
    obtain ⟨h1, h2, h3, h4, h5⟩ := threadCleanup_spec s i
    refine ⟨h1, h2, fun j => ?_⟩
    by_cases hj : j = i
    · subst hj
      exact ⟨h4, Or.inr (Or.inl ⟨h.1, h3, by simpa using h.2⟩)⟩
    · rw [h5 j hj]
      exact Woken.refl _ _
  have hwake : ∀ s : System, (s.threads i).state = .sleeping →
      Kept s (s.modify i fun t => { t with state := .ready, blockedChannelId := -1 }) := by
    intro s h
    refine ⟨rfl, rfl, fun j => ?_⟩
    by_cases hj : j = i
    · subst hj
      rw [modify_same]
      exact ⟨rfl, Or.inr (Or.inr ⟨h, rfl⟩)⟩
    · rw [modify_ne _ _ hj]
      exact Woken.refl _ _
  unfold System.wake
  dsimp only
  by_cases h1 : (s.threads i).state = .terminated ∧ i ≠ s.currentTid
  · rw [if_pos h1]
    split_ifs with h2
    · exact kept_trans (hclean s h1) (hwake _ h2.1)
    · exact hclean s h1
  · rw [if_neg h1]
    split_ifs with h2
    · exact hwake s h2.1
    · exact kept_refl s

theorem wakeAll_kept (s : System) : Kept s s.wakeAll := by
  unfold System.wakeAll
  generalize List.range 32 = l
  induction l generalizing s with
  | nil => exact kept_refl s
  | cons i l ih => exact kept_trans (wake_kept s i) (ih _)

/-- A thread that the second loop may choose. -/
def Candidate (s : System) (i : ℕ) : Prop :=
  i < 32 ∧ i ≠ s.currentTid ∧ (s.threads i).state = .ready

theorem better_spec (s : System) (l : List ℕ) (hl : ∀ i ∈ l, i < 32) (b : ℕ × ℕ)
    (hb : b = (0, 255) ∨ Candidate s b.1 ∧ b.2 < 255) :
    (l.foldl s.better b = (0, 255) ∨
      Candidate s (l.foldl s.better b).1 ∧ (l.foldl s.better b).2 < 255) ∧
    (l.foldl s.better b).2 ≤ b.2 ∧
    ∀ i ∈ l, Candidate s i → (l.foldl s.better b).2 ≤ (s.threads i).priority := by
  induction l generalizing b with
  | nil => exact ⟨hb, le_rfl, by simp⟩
  | cons i l ih =>
    have hstep : (s.better b i = (0, 255) ∨ Candidate s (s.better b i).1 ∧ (s.better b i).2 < 255) ∧
        (s.better b i).2 ≤ b.2 ∧ (Candidate s i → (s.better b i).2 ≤ (s.threads i).priority) := by
      unfold System.better
      split_ifs with h1 h2
      · exact ⟨hb, le_rfl, fun hc => absurd h1 hc.2.1⟩
      · refine ⟨Or.inr ⟨⟨hl i (by simp), h1, h2.1⟩, ?_⟩, h2.2.le, fun _ => le_rfl⟩
        rcases hb with hb | hb
        · rw [hb] at h2
          exact h2.2
        · exact lt_trans h2.2 hb.2
      · refine ⟨hb, le_rfl, fun hc => ?_⟩
        by_contra hlt
        exact h2 ⟨hc.2.2, by omega⟩
    obtain ⟨h1, h2, h3⟩ := ih (fun j hj => hl j (by simp [hj])) (s.better b i) hstep.1
    refine ⟨h1, h2.trans hstep.2.1, fun j hj hc => ?_⟩
    rcases List.mem_cons.mp hj with rfl | hj
    · exact h2.trans (hstep.2.2 hc)
    · exact h3 j hj hc

/-- With a ready thread of priority below 255 other than the current one, the
choice is such a thread. -/
theorem bestReady_candidate (s : System) {i : ℕ} (hi : Candidate s i)
    (hp : (s.threads i).priority < 255) : Candidate s s.bestReady := by
  obtain ⟨h1, -, h3⟩ := better_spec s (List.range 32) (fun i hi => List.mem_range.mp hi) (0, 255)
    (Or.inl rfl)
  rcases h1 with h1 | h1
  · have := h3 i (List.mem_range.mpr hi.1) hi
    rw [h1] at this
    simp only at this
    omega
  · exact h1.1

theorem bestReady_cases (s : System) : s.bestReady = 0 ∨ Candidate s s.bestReady := by
  obtain ⟨h1, -, -⟩ := better_spec s (List.range 32) (fun i hi => List.mem_range.mp hi) (0, 255)
    (Or.inl rfl)
  rcases h1 with h1 | h1
  · exact Or.inl (congrArg Prod.fst h1)
  · exact Or.inr h1.1

/-- Exactly one thread runs, the current one. Thread 0 can always be chosen. -/
structure Single (s : System) : Prop where
  current : s.currentTid < 32
  running : (s.threads s.currentTid).state = .running
  only : ∀ i < 32, i ≠ s.currentTid → (s.threads i).state ≠ .running
  boot : (s.threads 0).state = .ready ∨ (s.threads 0).state = .running
  bootPriority : (s.threads 0).priority = 128
  log : ∀ t ∈ s.switchedTo, t = .ready

/-- In the middle of a switch no thread runs. -/
structure Idle (s : System) : Prop where
  current : s.currentTid < 32
  none : ∀ i < 32, (s.threads i).state ≠ .running
  boot : (s.threads 0).state = .ready
  bootPriority : (s.threads 0).priority = 128
  log : ∀ t ∈ s.switchedTo, t = .ready

theorem single_boot (h : Single s) (h0 : s.currentTid ≠ 0) : (s.threads 0).state = .ready :=
  h.boot.resolve_right (h.only 0 (by decide) (Ne.symm h0))

theorem woken_running {c : Bool} {t t' : Thread} (h : Woken c t t') (ht : t.state ≠ .running) :
    t'.state ≠ .running := by
  rcases h.2 with h1 | ⟨-, h1, -⟩ | ⟨-, h1⟩
  · rwa [h1]
  · rw [h1]
    simp
  · rw [h1]
    simp

theorem woken_ready {c : Bool} {t t' : Thread} (h : Woken c t t') (ht : t.state = .ready) :
    t'.state = .ready := by
  rcases h.2 with h1 | ⟨h1, -⟩ | ⟨h1, -⟩
  · rwa [h1]
  · rw [ht] at h1
    exact absurd h1 (by simp)
  · rw [ht] at h1
    exact absurd h1 (by simp)

theorem wakeAll_idle (h : Idle s) : Idle s.wakeAll := by
  have hk := wakeAll_kept s
  refine ⟨by rw [hk.current]; exact h.current, fun i hi => ?_, woken_ready (hk.threads 0) h.boot,
    (hk.threads 0).1.trans h.bootPriority, by rw [hk.log]; exact h.log⟩
  exact woken_running (hk.threads i) (h.none i hi)

theorem switchTo_threads (s : System) (next j : ℕ) :
    (s.switchTo next).threads j =
      if j = next then { s.threads j with state := .running, quantumRemaining := 5 }
      else s.threads j := by
  unfold System.switchTo
  dsimp only
  split <;> rfl

theorem switchTo_states (s : System) (next : ℕ) :
    (s.switchTo next).currentTid = next ∧
    (s.switchTo next).switchedTo = (s.threads next).state::s.switchedTo ∧
    ((s.switchTo next).threads next).state = .running ∧
    ((s.switchTo next).threads next).priority = (s.threads next).priority ∧
    ∀ j, j ≠ next → (s.switchTo next).threads j = s.threads j := by
  refine ⟨?_, ?_, ?_, ?_, fun j hj => ?_⟩
  · unfold System.switchTo System.switchAddressSpace
    dsimp only
    split_ifs <;> rfl
  · unfold System.switchTo System.switchAddressSpace
    dsimp only
    split_ifs <;> rfl
  · rw [switchTo_threads, if_pos rfl]
  · rw [switchTo_threads, if_pos rfl]
  · rw [switchTo_threads, if_neg hj]

theorem switchTo_single (h : Idle s) {next : ℕ} (hn : Candidate s next) :
    Single (s.switchTo next) := by
  obtain ⟨h1, h2, h3, h4, h5⟩ := switchTo_states s next
  refine ⟨by rw [h1]; exact hn.1, by rw [h1]; exact h3, ?_, ?_, ?_, ?_⟩
  · intro i hi hne
    rw [h1] at hne
    rw [h5 i hne]
    exact h.none i hi
  · by_cases h0 : 0 = next
    · rw [h0]
      exact Or.inr h3
    · rw [h5 0 h0]
      exact Or.inl h.boot
  · by_cases h0 : 0 = next
    · rw [h0, h4, ← h0]
      exact h.bootPriority
    · rw [h5 0 h0]
      exact h.bootPriority
  · rw [h2]
    intro t ht
    rcases List.mem_cons.mp ht with rfl | ht
    · exact hn.2.2
    · exact h.log t ht

theorem boot_candidate (h : Idle s) (h0 : s.currentTid ≠ 0) : Candidate s 0 :=
  ⟨by decide, Ne.symm h0, h.boot⟩

/-- Once no thread runs, a choice other than the current thread is ready. -/
theorem pickNextThread_idle (h : Idle s) :
    s.pickNextThread = (s.wakeAll.bestReady, s.wakeAll) := by
  unfold System.pickNextThread
  dsimp only
  rw [if_neg]
  rintro ⟨-, hr⟩
  exact (wakeAll_idle h).none _ (wakeAll_idle h).current hr

theorem giveUp_single (h : Idle s) (h0 : s.currentTid ≠ 0) : Single s.giveUp := by
  have hw := wakeAll_idle h
  have hcur : s.wakeAll.currentTid ≠ 0 := by rwa [(wakeAll_kept s).current]
  have hc := bestReady_candidate s.wakeAll (boot_candidate hw hcur)
    (by rw [hw.bootPriority]; decide)
  unfold System.giveUp
  rw [pickNextThread_idle h]
  dsimp only
  rw [if_pos hc.2.1]
  exact switchTo_single hw hc

theorem reschedule_single (h : Idle s) (hr : (s.threads s.currentTid).state = .ready) :
    Single s.reschedule := by
  have hw := wakeAll_idle h
  have hk := wakeAll_kept s
  have hr' : (s.wakeAll.threads s.wakeAll.currentTid).state = .ready := by
    rw [hk.current]
    exact woken_ready (hk.threads _) hr
  unfold System.reschedule
  rw [pickNextThread_idle h]
  dsimp only
  generalize s.wakeAll = w at *
  rcases bestReady_cases w with hb | hc
  · by_cases h0 : w.currentTid = 0
    · -- nobody else is ready: the current thread goes on
      rw [if_pos ⟨hb.trans h0.symm, hr'⟩]
      refine ⟨hw.current, ?_, ?_, ?_, ?_, hw.log⟩
      · exact congrArg Thread.state (modify_same _ _ _)
      · intro i hi hne
        have hne' : i ≠ w.currentTid := hne
        rw [modify_ne _ _ hne']
        exact hw.none i hi
      · right
        rw [← h0]
        exact congrArg Thread.state (modify_same _ _ _)
      · rw [← h0]
        exact (congrArg Thread.priority (modify_same _ _ _)).trans (h0.symm ▸ hw.bootPriority)
    · have hc := bestReady_candidate w (boot_candidate hw h0)
        (by rw [hw.bootPriority]; decide)
      rw [if_neg (fun hh => hc.2.1 hh.1), if_neg hc.2.1]
      exact switchTo_single hw hc
  · rw [if_neg (fun hh => hc.2.1 hh.1), if_neg hc.2.1]
    exact switchTo_single hw hc

/-- The invariant only reads states, the priority of thread 0 and the record. -/
theorem single_congr (h : Single s) {s' : System} (hc : s'.currentTid = s.currentTid)
    (hlog : s'.switchedTo = s.switchedTo)
    (hst : ∀ i < 32, (s'.threads i).state = (s.threads i).state)
    (hp : (s'.threads 0).priority = (s.threads 0).priority) : Single s' := by
  refine ⟨by rw [hc]; exact h.current, ?_, ?_, ?_, hp.trans h.bootPriority,
    by rw [hlog]; exact h.log⟩
  · rw [hc, hst _ h.current]
    exact h.running
  · intro i hi hne
    rw [hst i hi]
    exact h.only i hi (by rwa [hc] at hne)
  · rw [hst 0 (by decide)]
    exact h.boot

/-- The current thread leaves: it may become anything but running. -/
theorem idle_leave (h : Single s) (h0 : s.currentTid ≠ 0) {f : Thread → Thread}
    (hf : (f (s.threads s.currentTid)).state ≠ .running) : Idle (s.modify s.currentTid f) := by
  refine ⟨h.current, fun i hi => ?_, ?_, ?_, h.log⟩
  · by_cases hic : i = s.currentTid
    · rw [hic, modify_same]
      exact hf
    · rw [modify_ne _ _ hic]
      exact h.only i hi hic
  · rw [modify_ne _ _ (Ne.symm h0)]
    exact single_boot h h0
  · rw [modify_ne _ _ (Ne.symm h0)]
    exact h.bootPriority

theorem age_single (h : Single s) : Single s.age := by
  unfold System.age
  split_ifs
  · exact single_congr h rfl rfl (fun _ _ => rfl) rfl
  · refine single_congr h rfl rfl (fun i _ => ?_) ?_
    · dsimp only
      split_ifs <;> rfl
    · dsimp only
      rw [if_neg (by omega)]

theorem schedule_single (h : Single s) : Single s.schedule := by
  have ha := age_single h
  unfold System.schedule
  generalize s.age = a at *
  dsimp only
  rw [if_pos ha.running]
  have hq : Single (a.modify a.currentTid fun t => { t with
      quantumRemaining := sub32 t.quantumRemaining 1
      totalTicks := u32 (t.totalTicks+1) }) := by
    refine single_congr ha rfl rfl (fun i _ => ?_) ?_
    · unfold System.modify
      dsimp only
      split_ifs <;> rfl
    · unfold System.modify
      dsimp only
      split_ifs <;> rfl
  generalize a.modify a.currentTid _ = b at *
  split_ifs
  · exact hq
  · apply reschedule_single
    · refine ⟨hq.current, fun i hi => ?_, ?_, ?_, hq.log⟩
      · by_cases hic : i = b.currentTid
        · rw [hic, modify_same]
          simp
        · rw [modify_ne _ _ hic]
          exact hq.only i hi hic
      · by_cases h0 : 0 = b.currentTid
        · rw [h0]
          exact congrArg Thread.state (modify_same _ _ _)
        · rw [modify_ne _ _ h0]
          exact single_boot hq (Ne.symm h0)
      · by_cases h0 : 0 = b.currentTid
        · rw [h0]
          exact (congrArg Thread.priority (modify_same _ _ _)).trans (h0 ▸ hq.bootPriority)
        · rw [modify_ne _ _ h0]
          exact hq.bootPriority
    · exact congrArg Thread.state (modify_same _ _ _)

theorem tick_single (h : Single s) : Single s.tick :=
  schedule_single (single_congr h rfl rfl (fun _ _ => rfl) rfl)

theorem blockCurrent_single (h : Single s) (h0 : s.currentTid ≠ 0) (channelId : ℤ) :
    Single (s.blockCurrent channelId) := by
  unfold System.blockCurrent
  exact giveUp_single (idle_leave h h0 (by simp)) h0

theorem sleepCurrent_single (h : Single s) (h0 : s.currentTid ≠ 0) (ms : ℕ) :
    Single (s.sleepCurrent ms) := by
  unfold System.sleepCurrent
  dsimp only
  generalize u32 (s.ticks+_) = wakeTick
  exact giveUp_single (idle_leave h h0 (by simp)) h0

theorem terminateCurrent_single (h : Single s) (h0 : s.currentTid ≠ 0) :
    Single s.terminateCurrent := by
  unfold System.terminateCurrent System.setState
  exact giveUp_single (idle_leave h h0 (by simp)) h0

/-- A thread that does not run changes to another state, not to running. -/
theorem single_modify (h : Single s) {i : ℕ} (hr : (s.threads i).state ≠ .running) (h0 : i ≠ 0)
    {f : Thread → Thread} (hf : (f (s.threads i)).state ≠ .running) : Single (s.modify i f) := by
  have hic : i ≠ s.currentTid := fun he => hr (he ▸ h.running)
  refine ⟨h.current, ?_, ?_, ?_, ?_, h.log⟩
  · exact (congrArg Thread.state (modify_ne s f (Ne.symm hic))).trans h.running
  · intro j hj hne
    by_cases hji : j = i
    · rw [hji, modify_same]
      exact hf
    · rw [modify_ne _ _ hji]
      exact h.only j hj hne
  · rw [modify_ne _ _ (Ne.symm h0)]
    exact h.boot
  · rw [modify_ne _ _ (Ne.symm h0)]
    exact h.bootPriority

theorem idle_modify (h : Idle s) {i : ℕ} (h0 : i ≠ 0) {f : Thread → Thread}
    (hf : (f (s.threads i)).state ≠ .running) : Idle (s.modify i f) := by
  refine ⟨h.current, fun j hj => ?_, ?_, ?_, h.log⟩
  · by_cases hji : j = i
    · rw [hji, modify_same]
      exact hf
    · rw [modify_ne _ _ hji]
      exact h.none j hj
  · rw [modify_ne _ _ (Ne.symm h0)]
    exact h.boot
  · rw [modify_ne _ _ (Ne.symm h0)]
    exact h.bootPriority

theorem unblock_single (h : Single s) (tid : ℤ) : Single (s.unblock tid) := by
  unfold System.unblock
  split_ifs with h1 h2
  · exact h
  · apply single_modify h
    · rw [h2]
      simp
    · intro h0
      rw [h0] at h2
      rcases h.boot with hb | hb <;> rw [h2] at hb <;> exact absurd hb (by simp)
    · simp
  · exact h

theorem unblock_idle (h : Idle s) (tid : ℤ) :
    Idle (s.unblock tid) ∧ (s.unblock tid).currentTid = s.currentTid := by
  unfold System.unblock
  split_ifs with h1 h2
  · exact ⟨h, rfl⟩
  · refine ⟨idle_modify h ?_ (by simp), rfl⟩
    intro h0
    rw [h0, h.boot] at h2
    exact absurd h2 (by simp)
  · exact ⟨h, rfl⟩

theorem findUnused_some {i : ℕ} (h : s.findUnused = some i) :
    i < 32 ∧ i ≠ 0 ∧ (s.threads i).state = .unused := by
  have hmem := List.mem_of_find?_eq_some h
  have hp := List.find?_some h
  rw [List.mem_range] at hmem
  simp only [decide_eq_true_eq] at hp
  exact ⟨hmem, by omega, hp.2⟩

theorem single_setCount (h : Single s) (n : ℤ) : Single (s.setCount n) :=
  single_congr h rfl rfl (fun _ _ => rfl) rfl

theorem threadCreate_single (h : Single s) (priority : ℕ) : Single (s.threadCreate priority) := by
  unfold System.threadCreate
  cases hf : s.findUnused with
  | none => exact h
  | some i =>
    obtain ⟨-, h2, h3⟩ := findUnused_some hf
    exact single_setCount (single_modify h (by rw [h3]; simp) h2 (by simp)) _

theorem sysFork_single (h : Single s) (newDir : ℕ) : Single (s.sysFork newDir) := by
  unfold System.sysFork
  cases hf : s.findUnused with
  | none => exact h
  | some i =>
    obtain ⟨-, h2, h3⟩ := findUnused_some hf
    dsimp only
    split_ifs
    · apply single_modify _ _ h2 (by simp)
      · exact single_modify h (by rw [h3]; simp) h2 (by simp)
      · rw [modify_same]
        simp
    · apply single_setCount
      apply single_modify _ _ h2
      · rw [modify_same]
        simp
      · exact single_modify h (by rw [h3]; simp) h2 (by simp)
      · rw [modify_same]
        simp

theorem sysWait_single (h : Single s) (h0 : s.currentTid ≠ 0) : Single s.sysWait := by
  unfold System.sysWait
  split
  · rename_i child hc
    have hmem := List.mem_of_find?_eq_some hc
    have hp := List.find?_some hc
    rw [List.mem_range] at hmem
    simp only [decide_eq_true_eq] at hp
    exact single_setCount (single_modify h (by rw [hp.2.2]; simp) (by omega) (by simp)) _
  · split_ifs
    · exact blockCurrent_single h h0 _
    · exact h

theorem dropDirectory_single (h : Single s) (i : ℕ) : Single (s.dropDirectory i) := by
  obtain ⟨h1, h2, h3, -⟩ := dropDirectory_spec s i
  exact single_congr h h1 h2 (fun j _ => (h3 j).1) (h3 0).2

theorem sysExit_single (h : Single s) (h0 : s.currentTid ≠ 0) (exitCode : ℕ) :
    Single (s.sysExit exitCode) := by
  have h1 : Single (s.modify s.currentTid fun t => { t with exitCode := exitCode }) := by
    refine single_congr h rfl rfl (fun j _ => ?_) ?_
    · by_cases hj : j = s.currentTid
      · rw [hj, modify_same]
      · rw [modify_ne _ _ hj]
    · rw [modify_ne _ _ (Ne.symm h0)]
  have h2 := dropDirectory_single h1 s.currentTid
  have hcur : ((s.modify s.currentTid fun t => { t with exitCode := exitCode }).dropDirectory
      s.currentTid).currentTid = s.currentTid := (dropDirectory_spec _ _).1
  unfold System.sysExit
  dsimp only
  generalize (s.modify s.currentTid fun t => { t with exitCode := exitCode }).dropDirectory
    s.currentTid = a at *
  rw [← hcur] at h0 ⊢
  split
  · have hidle : Idle (a.setState a.currentTid .zombie) := idle_leave h2 h0 (by simp)
    have hcur' : (a.setState a.currentTid .zombie).currentTid = a.currentTid := rfl
    generalize a.setState a.currentTid .zombie = b at *
    rw [← hcur'] at h0
    split
    · obtain ⟨h3, h4⟩ := unblock_idle hidle (a.threads a.currentTid).parentTid
      exact giveUp_single h3 (by rwa [h4])
    · exact giveUp_single hidle h0
  · exact terminateCurrent_single h2 h0

inductive Step where
  | tick
  | block (channelId : ℤ)
  | unblock (tid : ℤ)
  | sleep (ms : ℕ)
  | terminate
  | create (priority : ℕ)
  | fork (newDir : ℕ)
  | exit (exitCode : ℕ)
  | wait
  deriving DecidableEq, Repr

/-- Thread 0 only runs the idle loop of `kernel_main`. -/
def Allowed (s : System) : Step → Prop
  | .block _ | .sleep _ | .terminate | .exit _ | .wait => s.currentTid ≠ 0
  | .tick | .unblock _ | .create _ | .fork _ => True

def step (s : System) : Step → System
  | .tick => s.tick
  | .block channelId => s.blockCurrent channelId
  | .unblock tid => s.unblock tid
  | .sleep ms => s.sleepCurrent ms
  | .terminate => s.terminateCurrent
  | .create priority => s.threadCreate priority
  | .fork newDir => s.sysFork newDir
  | .exit exitCode => s.sysExit exitCode
  | .wait => s.sysWait

def run (s : System) (steps : List Step) : System := steps.foldl step s

def AllowedRun (s : System) : List Step → Prop
  | [] => True
  | a::as => Allowed s a ∧ AllowedRun (step s a) as

theorem step_single (h : Single s) (a : Step) (ha : Allowed s a) : Single (step s a) := by
  cases a with
  | tick => exact tick_single h
  | block channelId => exact blockCurrent_single h ha channelId
  | unblock tid => exact unblock_single h tid
  | sleep ms => exact sleepCurrent_single h ha ms
  | terminate => exact terminateCurrent_single h ha
  | create priority => exact threadCreate_single h priority
  | fork newDir => exact sysFork_single h newDir
  | exit exitCode => exact sysExit_single h ha exitCode
  | wait => exact sysWait_single h ha

theorem run_single (h : Single s) (steps : List Step) (hs : AllowedRun s steps) :
    Single (run s steps) := by
  induction steps generalizing s with
  | nil => exact h
  | cons a as ih => exact ih (step_single h a hs.1) hs.2

theorem threadInit_single (kernelDirectory ticks : ℕ) (messages : ℕ → ℕ → IpcMessage) :
    Single (System.threadInit kernelDirectory ticks messages) := by
  refine ⟨show 0 < 32 by decide, rfl, fun i _ hi => ?_, Or.inr rfl, rfl,
    by simp [System.threadInit]⟩
  have hi' : i ≠ 0 := hi
  simp [System.threadInit, hi']

/-- In every state that a run from `thread_init` reaches, exactly one thread has
state Running and it is the current one, thread 0 is ready or running, and every
switch so far was to a ready thread. -/
theorem one_thread_runs (kernelDirectory ticks : ℕ) (messages : ℕ → ℕ → IpcMessage)
    (steps : List Step)
    (hs : AllowedRun (System.threadInit kernelDirectory ticks messages) steps) (s : System)
    (h : s = run (System.threadInit kernelDirectory ticks messages) steps) :
    (∀ i < 32, (s.threads i).state = .running ↔ i = s.currentTid) ∧ s.currentTid < 32 ∧
    ((s.threads 0).state = .ready ∨ (s.threads 0).state = .running) ∧
    ∀ t ∈ s.switchedTo, t = .ready := by
  have h1 := run_single (threadInit_single kernelDirectory ticks messages) steps hs
  rw [← h] at h1
  refine ⟨fun i hi => ⟨fun hr => ?_, fun he => he ▸ h1.running⟩, h1.current, h1.boot, h1.log⟩
  by_contra hne
  exact h1.only i hi hne hr

def noMessage : IpcMessage := ⟨0, 0, fun _ => 0⟩

/-- A thread is created, gets the processor and ends in a fork, a wait and an exit. -/
theorem one_thread_runs_create : ∃ s, s = run (System.threadInit 1 0 fun _ _ => noMessage)
      [.create 5, .tick, .tick, .tick, .tick, .tick, .fork 9, .wait, .exit 0] ∧
    (∀ i < 32, (s.threads i).state = .running ↔ i = s.currentTid) ∧ s.currentTid < 32 ∧
    ((s.threads 0).state = .ready ∨ (s.threads 0).state = .running) ∧
    ∀ t ∈ s.switchedTo, t = .ready := by
  have hs : AllowedRun (System.threadInit 1 0 fun _ _ => noMessage)
      [.create 5, .tick, .tick, .tick, .tick, .tick, .fork 9, .wait, .exit 0] := by
    refine ⟨trivial, trivial, trivial, trivial, trivial, trivial, trivial, ?_, ?_, trivial⟩
    · change System.currentTid _ ≠ 0
      decide +kernel
    · change System.currentTid _ ≠ 0
      decide +kernel
  exact ⟨_, rfl, one_thread_runs 1 0 (fun _ _ => noMessage) _ hs _ rfl⟩

end Vlsmc.SchedulerRuns
