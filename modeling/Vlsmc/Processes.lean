import Vlsmc.SchedulerRuns

/-!
# Processes, parents and children

A thread slot is used by one process after another, while `parent_tid` is a
slot number. The history beside the thread table numbers the processes in the
order in which they start and records who forked whom, which processes ended in
`sys_exit` and what `sys_wait` reported.
-/

set_option autoImplicit false

namespace Vlsmc.Processes
open Vlsmc.Words Vlsmc.Scheduler Vlsmc.SchedulerRuns

/-- `thread_terminate`; a thread that ends itself yields. -/
def threadTerminate (s : System) (tid : ℤ) : System :=
  if tid < 0 ∨ 32 ≤ tid then s
  else
    let s := s.setState tid.toNat .terminated
    if tid.toNat = s.currentTid then s.schedule else s

/-- The child that a round of `sys_wait` finds. -/
def zombieChild (s : System) : Option ℕ :=
  (List.range 32).find? fun i => 1 ≤ i ∧ (s.threads i).parentTid = s.currentTid ∧
    (s.threads i).state = .zombie

def hasChildren (s : System) : Bool :=
  (List.range 32).any fun i => 1 ≤ i ∧ (s.threads i).parentTid = s.currentTid

/-- What a round of `sys_wait` returns, `none` when the caller blocks and
another round follows. -/
def waitResult (s : System) : Option ℤ :=
  match zombieChild s with
  | some child => some child
  | none => if hasChildren s then none else some (-1)

theorem sysWait_eq (s : System) :
    s.sysWait = match zombieChild s with
      | some child => (s.setState child .unused).setCount (s.threadCount-1)
      | none => if hasChildren s then s.blockCurrent (-2) else s := rfl

inductive Event where
  | step (a : Step)
  | kill (tid : ℤ)
  | yield
  deriving DecidableEq, Repr

def act (s : System) : Event → System
  | .step a => SchedulerRuns.step s a
  | .kill tid => threadTerminate s tid
  | .yield => s.schedule

/-- Thread 0 only runs the idle loop, and only `sys_wait` blocks on channel -2. -/
def Allowed (s : System) : Event → Prop
  | .step (.block channelId) => s.currentTid ≠ 0 ∧ channelId ≠ -2
  | .step a => SchedulerRuns.Allowed s a
  | .kill _ | .yield => True

/-- `child` exited with `status`, which `sys_wait` handed to `caller`. -/
structure Report where
  caller : ℕ
  child : ℕ
  status : ℕ
  deriving DecidableEq, Repr

/-- `process i` is the process that uses slot `i`, or used it last; `creator p`
is the process whose `sys_fork` made `p`. -/
structure History where
  sys : System
  process : ℕ → ℕ
  creator : ℕ → Option ℕ
  next : ℕ
  exits : List (ℕ × ℕ)
  reports : List Report

namespace History

def current (h : History) : ℕ := h.process h.sys.currentTid

def start (h : History) (tid : ℕ) (creator : Option ℕ) : History :=
  { h with
    process := fun i => if i = tid then h.next else h.process i
    creator := fun p => if p = h.next then creator else h.creator p
    next := h.next+1 }

/-- The records that an event adds. -/
def record (h : History) : Event → History
  | .step (.create _) =>
    match h.sys.findUnused with
    | none => h
    | some tid => h.start tid none
  | .step (.fork newDir) =>
    match h.sys.findUnused with
    | none => h
    | some tid => if newDir = 0 then h else h.start tid (some h.current)
  | .step (.exit exitCode) => { h with exits := (h.current, exitCode)::h.exits }
  | .step .wait =>
    match zombieChild h.sys with
    | none => h
    | some child =>
      { h with reports := ⟨h.current, h.process child, (h.sys.threads child).exitCode⟩::h.reports }
  | _ => h

def step (h : History) (e : Event) : History := { h.record e with sys := act h.sys e }

def run (h : History) (events : List Event) : History := events.foldl step h

/-- Slots that were never used count as processes without a creator. -/
def init (kernelDirectory ticks : ℕ) (messages : ℕ → ℕ → IpcMessage) : History where
  sys := System.threadInit kernelDirectory ticks messages
  process := id
  creator := fun _ => none
  next := 32
  exits := []
  reports := []

end History

def AllowedRun (h : History) : List Event → Prop
  | [] => True
  | e::es => Allowed h.sys e ∧ AllowedRun (h.step e) es

instance decidableAllowed (s : System) : (e : Event) → Decidable (Allowed s e)
  | .step .tick | .step (.unblock _) | .step (.create _) | .step (.fork _) | .kill _ | .yield =>
    inferInstanceAs (Decidable True)
  | .step (.block channelId) => inferInstanceAs (Decidable (s.currentTid ≠ 0 ∧ channelId ≠ -2))
  | .step (.sleep _) | .step .terminate | .step (.exit _) | .step .wait =>
    inferInstanceAs (Decidable (s.currentTid ≠ 0))

instance decidableAllowedRun : (h : History) → (es : List Event) → Decidable (AllowedRun h es)
  | _, [] => inferInstanceAs (Decidable True)
  | h, e::es =>
    have := decidableAllowedRun (h.step e) es
    inferInstanceAs (Decidable (Allowed h.sys e ∧ AllowedRun (h.step e) es))

/-! ## What scheduling does to a slot -/

/-- Neither Zombie, Terminated nor Unused. -/
def Alive (t : Thread) : Prop := t.state ≠ .zombie ∧ t.state ≠ .terminated ∧ t.state ≠ .unused

/-- Blocked in `sys_wait`. -/
def Waiting (t : Thread) : Prop := t.state = .blocked ∧ t.blockedChannelId = -2

def Runnable (state : ThreadState) : Prop :=
  state = .ready ∨ state = .running ∨ state = .sleeping

/-- A thread is scheduled or woken, or cleaned up after its end. -/
structure Moved (t t' : Thread) : Prop where
  parentTid : t'.parentTid = t.parentTid
  exitCode : t'.exitCode = t.exitCode
  state : t'.state = t.state ∧ t'.blockedChannelId = t.blockedChannelId ∨
    t.state = .terminated ∧ t'.state = .unused ∨ Alive t ∧ Runnable t'.state

instance (t : Thread) : Decidable (Alive t) := inferInstanceAs (Decidable (_ ∧ _ ∧ _))

instance (t : Thread) : Decidable (Waiting t) := inferInstanceAs (Decidable (_ ∧ _))

variable {t t' t'' : Thread}

theorem Runnable.alive (h : Runnable t.state) : Alive t := by
  unfold Alive
  rcases h with h | h | h <;> simp [h]

theorem Moved.refl (t : Thread) : Moved t t := ⟨rfl, rfl, Or.inl ⟨rfl, rfl⟩⟩

theorem Moved.trans (h : Moved t t') (h' : Moved t' t'') : Moved t t'' := by
  refine ⟨h'.parentTid.trans h.parentTid, h'.exitCode.trans h.exitCode, ?_⟩
  rcases h.state with ⟨h1, h2⟩ | ⟨h1, h2⟩ | ⟨h1, h2⟩
  · have := h'.state
    unfold Alive at this ⊢
    rwa [h1, h2] at this
  · rcases h'.state with ⟨h3, -⟩ | ⟨h3, -⟩ | ⟨h3, -⟩
    · exact Or.inr (Or.inl ⟨h1, h3.trans h2⟩)
    · rw [h2] at h3
      exact absurd h3 (by simp)
    · exact absurd h2 h3.2.2
  · rcases h'.state with ⟨h3, -⟩ | ⟨h3, -⟩ | ⟨-, h3⟩
    · exact Or.inr (Or.inr ⟨h1, h3.symm ▸ h2⟩)
    · rw [h3] at h2
      exact absurd h2 (by simp [Runnable])
    · exact Or.inr (Or.inr ⟨h1, h3⟩)

theorem Moved.alive (h : Moved t t') (ht : Alive t) : Alive t' := by
  rcases h.state with ⟨h1, -⟩ | ⟨h1, -⟩ | ⟨-, h1⟩
  · unfold Alive
    rwa [h1]
  · exact absurd h1 ht.2.1
  · exact h1.alive

theorem Moved.waiting (h : Moved t t') (ht : Waiting t') : Waiting t := by
  rcases h.state with ⟨h1, h2⟩ | ⟨-, h1⟩ | ⟨-, h1⟩
  · exact ⟨h1.symm.trans ht.1, h2.symm.trans ht.2⟩
  · rw [ht.1] at h1
    exact absurd h1 (by simp)
  · rw [ht.1] at h1
    exact absurd h1 (by simp [Runnable])

theorem Moved.zombie (h : Moved t t') (ht : t'.state = .zombie) : t.state = .zombie := by
  rcases h.state with ⟨h1, -⟩ | ⟨-, h1⟩ | ⟨-, h1⟩
  · exact h1.symm.trans ht
  · rw [ht] at h1
    exact absurd h1 (by simp)
  · rw [ht] at h1
    exact absurd h1 (by simp [Runnable])

theorem Moved.alive_back (h : Moved t t') (ht : Alive t') : Alive t := by
  rcases h.state with ⟨h1, -⟩ | ⟨-, h1⟩ | ⟨h1, -⟩
  · unfold Alive at ht ⊢
    rwa [h1] at ht
  · exact absurd h1 ht.2.2
  · exact h1

theorem Moved.blocked (h : Moved t t') (ht : t'.state = .blocked) : t.state = .blocked := by
  rcases h.state with ⟨h1, -⟩ | ⟨-, h1⟩ | ⟨-, h1⟩
  · exact h1.symm.trans ht
  · rw [ht] at h1
    exact absurd h1 (by simp)
  · rw [ht] at h1
    exact absurd h1 (by simp [Runnable])

/-- Every slot but that of the idle thread is only scheduled. The idle thread is
also taken up again after it was killed. -/
structure Scheduled (s s' : System) : Prop where
  moved : ∀ j, j ≠ 0 → Moved (s.threads j) (s'.threads j)
  boot : (s'.threads 0).state = .blocked → (s.threads 0).state = .blocked

variable {s s' s'' : System}

theorem scheduled_trans (h : Scheduled s s') (h' : Scheduled s' s'') : Scheduled s s'' :=
  ⟨fun j hj => (h.moved j hj).trans (h'.moved j hj), fun hb => h.boot (h'.boot hb)⟩

theorem scheduled_of_moved (h : ∀ j, Moved (s.threads j) (s'.threads j)) : Scheduled s s' :=
  ⟨fun j _ => h j, (h 0).blocked⟩

theorem scheduled_of_eq (h : s'.threads = s.threads) : Scheduled s s' := by
  refine scheduled_of_moved fun j => ?_
  rw [h]
  exact Moved.refl _

theorem scheduled_refl (s : System) : Scheduled s s := scheduled_of_eq rfl

theorem modify_scheduled {i : ℕ} {f : Thread → Thread}
    (h : Moved (s.threads i) (f (s.threads i))) : Scheduled s (s.modify i f) := by
  refine scheduled_of_moved fun j => ?_
  by_cases hj : j = i
  · rw [hj, modify_same]
    exact h
  · rw [modify_ne _ _ hj]
    exact Moved.refl _

theorem dropDirectory_threads (s : System) (i j : ℕ) :
    (s.dropDirectory i).threads j = s.threads j ∨
    (s.dropDirectory i).threads j =
      { s.threads j with pageDirectoryPhys := s.kernelDirectoryPhys } := by
  unfold System.dropDirectory
  dsimp only
  split_ifs with h
  · by_cases hj : j = i
    · rw [hj, modify_same, (destroyAddressSpace_spec _ _).2.2]
      exact Or.inr rfl
    · rw [modify_ne _ _ hj, (destroyAddressSpace_spec _ _).2.2]
      exact Or.inl rfl
  · exact Or.inl rfl

theorem dropDirectory_scheduled (s : System) (i : ℕ) : Scheduled s (s.dropDirectory i) := by
  refine scheduled_of_moved fun j => ?_
  rcases dropDirectory_threads s i j with h | h
  · rw [h]
    exact Moved.refl _
  · rw [h]
    exact ⟨rfl, rfl, Or.inl ⟨rfl, rfl⟩⟩

theorem threadCleanup_scheduled {i : ℕ} (h : (s.threads i).state = .terminated) :
    Scheduled s (s.threadCleanup i) := by
  have hd : ((s.dropDirectory i).threads i).state = .terminated :=
    ((dropDirectory_spec s i).2.2.1 i).1.trans h
  have hset : Scheduled (s.dropDirectory i) ((s.dropDirectory i).setState i .unused) :=
    modify_scheduled ⟨rfl, rfl, Or.inr (Or.inl ⟨hd, rfl⟩)⟩
  exact scheduled_trans (dropDirectory_scheduled s i)
    (scheduled_trans hset (scheduled_of_eq (setCount_threads _ _)))

theorem wake_scheduled (s : System) (i : ℕ) : Scheduled s (s.wake i) := by
  have hwake : ∀ s : System, (s.threads i).state = .sleeping →
      Scheduled s (s.modify i fun t => { t with state := .ready, blockedChannelId := -1 }) := by
    intro s h
    exact modify_scheduled ⟨rfl, rfl, Or.inr (Or.inr ⟨by simp [Alive, h], by simp [Runnable]⟩)⟩
  unfold System.wake
  dsimp only
  by_cases h1 : (s.threads i).state = .terminated ∧ i ≠ s.currentTid
  · rw [if_pos h1]
    split_ifs with h2
    · exact scheduled_trans (threadCleanup_scheduled h1.1) (hwake _ h2.1)
    · exact threadCleanup_scheduled h1.1
  · rw [if_neg h1]
    split_ifs with h2
    · exact hwake s h2.1
    · exact scheduled_refl s

theorem wakeAll_scheduled (s : System) : Scheduled s s.wakeAll := by
  unfold System.wakeAll
  generalize List.range 32 = l
  induction l generalizing s with
  | nil => exact scheduled_refl s
  | cons i l ih => exact scheduled_trans (wake_scheduled s i) (ih _)

theorem switchTo_scheduled {next : ℕ} (h : next = 0 ∨ Candidate s next) :
    Scheduled s (s.switchTo next) := by
  refine ⟨fun j hj => ?_, fun hb => ?_⟩
  · rw [switchTo_threads]
    split_ifs with hn
    · rcases h with h | h
      · exact absurd (hn.trans h) hj
      · rw [hn]
        exact ⟨rfl, rfl, Or.inr (Or.inr ⟨by simp [Alive, h.2.2], by simp [Runnable]⟩)⟩
    · exact Moved.refl _
  · rw [switchTo_threads] at hb
    split_ifs at hb
    exact hb

/-- `pick_next_thread` keeps the running thread or chooses a ready one or thread 0. -/
theorem pickNextThread_choice (s : System) :
    s.pickNextThread.2 = s.wakeAll ∧ s.wakeAll.currentTid = s.currentTid ∧
    (s.pickNextThread.1 = s.currentTid ∧ (s.wakeAll.threads s.currentTid).state = .running ∨
      s.pickNextThread.1 = 0 ∨ Candidate s.wakeAll s.pickNextThread.1) := by
  have hcur := (wakeAll_kept s).current
  unfold System.pickNextThread
  dsimp only
  generalize s.wakeAll = w at *
  rw [hcur]
  split_ifs with h
  · exact ⟨rfl, rfl, Or.inl ⟨rfl, h.2⟩⟩
  · exact ⟨rfl, rfl, Or.inr (bestReady_cases _)⟩

/-- The current thread runs, unless it is thread 0, which may have been killed. -/
def CurrentRuns (s : System) : Prop :=
  s.currentTid < 32 ∧ (s.currentTid ≠ 0 → (s.threads s.currentTid).state = .running)

theorem switchTo_currentRuns {next : ℕ} (h : next = 0 ∨ Candidate s next) :
    CurrentRuns (s.switchTo next) := by
  obtain ⟨h1, -, h3, -⟩ := switchTo_states s next
  refine ⟨?_, fun _ => by rw [h1]; exact h3⟩
  rw [h1]
  rcases h with h | h
  · omega
  · exact h.1

theorem giveUp_spec (hc : s.currentTid < 32) : Scheduled s s.giveUp ∧ CurrentRuns s.giveUp := by
  obtain ⟨h1, h2, h3⟩ := pickNextThread_choice s
  have hw := wakeAll_scheduled s
  unfold System.giveUp
  dsimp only
  rw [h1, h2]
  split_ifs with h
  · have h4 := h3.resolve_left (fun hh => h hh.1)
    exact ⟨scheduled_trans hw (switchTo_scheduled h4), switchTo_currentRuns h4⟩
  · rw [not_not] at h
    refine ⟨hw, by rwa [h2], fun h0 => ?_⟩
    rw [h2] at h0 ⊢
    rcases h3 with h3 | h3 | h3
    · exact h3.2
    · exact absurd (h.symm.trans h3) h0
    · rw [h, ← h2] at h3
      exact absurd rfl h3.2.1

theorem reschedule_spec (hc : s.currentTid < 32) :
    Scheduled s s.reschedule ∧ CurrentRuns s.reschedule := by
  obtain ⟨h1, h2, h3⟩ := pickNextThread_choice s
  have hw := wakeAll_scheduled s
  unfold System.reschedule
  dsimp only
  rw [h1, h2]
  generalize s.wakeAll = w at *
  split_ifs with h h'
  · refine ⟨scheduled_trans hw (modify_scheduled ⟨rfl, rfl, Or.inr (Or.inr ⟨?_, ?_⟩)⟩), ?_⟩
    · simp [Alive, h.2]
    · simp [Runnable]
    · refine ⟨show w.currentTid < 32 by rwa [h2], fun _ => ?_⟩
      change ((w.modify s.currentTid _).threads w.currentTid).state = .running
      rw [h2, modify_same]
  · refine ⟨hw, by rwa [h2], fun h0 => ?_⟩
    rw [h2] at h0 ⊢
    rcases h3 with h3 | h3 | h3
    · exact h3.2
    · exact absurd (h'.symm.trans h3) h0
    · rw [h', ← h2] at h3
      exact absurd rfl h3.2.1
  · have h4 := h3.resolve_left (fun hh => h' hh.1)
    exact ⟨scheduled_trans hw (switchTo_scheduled h4), switchTo_currentRuns h4⟩

theorem age_spec (s : System) : Scheduled s s.age ∧ s.age.currentTid = s.currentTid := by
  unfold System.age
  split_ifs
  · exact ⟨scheduled_of_eq rfl, rfl⟩
  · refine ⟨scheduled_of_moved fun j => ?_, rfl⟩
    dsimp only
    split_ifs
    · exact ⟨rfl, rfl, Or.inl ⟨rfl, rfl⟩⟩
    · exact Moved.refl _

theorem schedule_spec (hc : s.currentTid < 32) :
    Scheduled s s.schedule ∧ CurrentRuns s.schedule := by
  obtain ⟨ha, hcur⟩ := age_spec s
  rw [← hcur] at hc
  unfold System.schedule
  generalize s.age = a at *
  dsimp only
  split_ifs with h1 h2
  · refine ⟨scheduled_trans ha (modify_scheduled ⟨rfl, rfl, Or.inl ⟨rfl, rfl⟩⟩), hc, fun _ => ?_⟩
    exact (congrArg Thread.state (modify_same _ _ _)).trans h1
  · have hq : Scheduled a (a.modify a.currentTid fun t => { t with
        quantumRemaining := sub32 t.quantumRemaining 1
        totalTicks := u32 (t.totalTicks+1) }) :=
      modify_scheduled ⟨rfl, rfl, Or.inl ⟨rfl, rfl⟩⟩
    have hst := (congrArg Thread.state (modify_same a a.currentTid fun t => { t with
        quantumRemaining := sub32 t.quantumRemaining 1
        totalTicks := u32 (t.totalTicks+1) })).trans h1
    have hcur' : (a.modify a.currentTid fun t => { t with
        quantumRemaining := sub32 t.quantumRemaining 1
        totalTicks := u32 (t.totalTicks+1) }).currentTid = a.currentTid := rfl
    generalize a.modify a.currentTid _ = b at *
    rw [← hcur'] at hst hc
    have hr : Scheduled b (b.modify b.currentTid fun t =>
        { t with state := .ready, quantumRemaining := 5 }) :=
      modify_scheduled ⟨rfl, rfl, Or.inr (Or.inr ⟨by simp [Alive, hst], by simp [Runnable]⟩)⟩
    obtain ⟨h3, h4⟩ := reschedule_spec (s := b.modify b.currentTid fun t =>
        { t with state := .ready, quantumRemaining := 5 }) hc
    exact ⟨scheduled_trans (scheduled_trans ha hq) (scheduled_trans hr h3), h4⟩
  · obtain ⟨h3, h4⟩ := reschedule_spec hc
    exact ⟨scheduled_trans ha h3, h4⟩

theorem tick_spec (hc : s.currentTid < 32) : Scheduled s s.tick ∧ CurrentRuns s.tick := by
  obtain ⟨h1, h2⟩ := schedule_spec (s := { s with ticks := u32 (s.ticks+1) }) hc
  have h3 : Scheduled s { s with ticks := u32 (s.ticks+1) } := scheduled_of_eq rfl
  exact ⟨scheduled_trans h3 h1, h2⟩

theorem unblock_scheduled (s : System) (tid : ℤ) : Scheduled s (s.unblock tid) := by
  unfold System.unblock
  split_ifs with h1 h2
  · exact scheduled_refl s
  · exact modify_scheduled ⟨rfl, rfl, Or.inr (Or.inr ⟨by simp [Alive, h2], by simp [Runnable]⟩)⟩
  · exact scheduled_refl s

theorem unblock_currentTid (s : System) (tid : ℤ) : (s.unblock tid).currentTid = s.currentTid := by
  unfold System.unblock
  split_ifs <;> rfl

theorem unblock_currentRuns (hc : CurrentRuns s) (tid : ℤ) : CurrentRuns (s.unblock tid) := by
  refine ⟨by rw [unblock_currentTid]; exact hc.1, fun h0 => ?_⟩
  rw [unblock_currentTid] at h0 ⊢
  have hr := hc.2 h0
  unfold System.unblock
  split_ifs with h1 h2
  · exact hr
  · have hne : s.currentTid ≠ tid.toNat := by
      intro he
      rw [he, h2] at hr
      exact absurd hr (by simp)
    rw [modify_ne _ _ hne]
    exact hr
  · exact hr

/-- One slot changes, the others are scheduled. -/
structure Changed (s : System) (i : ℕ) (t : Thread) (s' : System) : Prop where
  slot : i ≠ 0 → Moved t (s'.threads i)
  others : ∀ j, j ≠ 0 → j ≠ i → Moved (s.threads j) (s'.threads j)
  boot : (s'.threads 0).state = .blocked →
    i = 0 ∧ t.state = .blocked ∨ (s.threads 0).state = .blocked

theorem changed_of_scheduled {i : ℕ} {f : Thread → Thread} (h : Scheduled (s.modify i f) s') :
    Changed s i (f (s.threads i)) s' := by
  refine ⟨fun hi => ?_, fun j h0 hj => ?_, fun hb => ?_⟩
  · have := h.moved i hi
    rwa [modify_same] at this
  · have := h.moved j h0
    rwa [modify_ne _ _ hj] at this
  · have := h.boot hb
    by_cases hi : 0 = i
    · rw [hi, modify_same] at this
      exact Or.inl ⟨hi.symm, this⟩
    · rw [modify_ne _ _ hi] at this
      exact Or.inr this

theorem blockCurrent_spec (hc : s.currentTid < 32) (channelId : ℤ) :
    Changed s s.currentTid
      { s.threads s.currentTid with state := .blocked, blockedChannelId := channelId }
      (s.blockCurrent channelId) ∧ CurrentRuns (s.blockCurrent channelId) := by
  obtain ⟨h1, h2⟩ := giveUp_spec (s := s.modify s.currentTid fun t =>
    { t with state := .blocked, blockedChannelId := channelId }) hc
  exact ⟨changed_of_scheduled h1, h2⟩

theorem sleepCurrent_spec (hc : CurrentRuns s) (h0 : s.currentTid ≠ 0) (ms : ℕ) :
    Scheduled s (s.sleepCurrent ms) ∧ CurrentRuns (s.sleepCurrent ms) := by
  unfold System.sleepCurrent
  dsimp only
  generalize u32 (s.ticks+_) = wakeTick
  obtain ⟨h1, h2⟩ := giveUp_spec (s := s.modify s.currentTid fun t =>
    { t with state := .sleeping, sleepUntil := wakeTick }) hc.1
  refine ⟨scheduled_trans (modify_scheduled ⟨rfl, rfl, Or.inr (Or.inr ⟨?_, ?_⟩)⟩) h1, h2⟩
  · simp [Alive, hc.2 h0]
  · simp [Runnable]

theorem terminateCurrent_spec (hc : s.currentTid < 32) :
    Changed s s.currentTid { s.threads s.currentTid with state := .terminated }
      s.terminateCurrent ∧ CurrentRuns s.terminateCurrent := by
  obtain ⟨h1, h2⟩ := giveUp_spec (s := s.setState s.currentTid .terminated) hc
  exact ⟨changed_of_scheduled h1, h2⟩

theorem threadTerminate_spec (hc : CurrentRuns s) (tid : ℤ) :
    (Scheduled s (threadTerminate s tid) ∧ (tid < 0 ∨ 32 ≤ tid) ∨
      Changed s tid.toNat { s.threads tid.toNat with state := .terminated }
        (threadTerminate s tid)) ∧ CurrentRuns (threadTerminate s tid) := by
  unfold threadTerminate
  dsimp only
  split_ifs with h1 h2
  · exact ⟨Or.inl ⟨scheduled_refl s, h1⟩, hc⟩
  · obtain ⟨h3, h4⟩ := schedule_spec (s := s.setState tid.toNat .terminated) hc.1
    exact ⟨Or.inr (changed_of_scheduled h3), h4⟩
  · have h3 : Scheduled (s.modify tid.toNat fun t => { t with state := .terminated })
        (s.setState tid.toNat .terminated) := scheduled_refl _
    refine ⟨Or.inr (changed_of_scheduled h3), hc.1, fun h0 => ?_⟩
    have hne : s.currentTid ≠ tid.toNat := Ne.symm h2
    exact (congrArg Thread.state (modify_ne _ _ hne)).trans (hc.2 h0)

theorem changed_fill {tid : ℕ} (h0 : tid ≠ 0) (hs : ∀ j, j ≠ tid → s'.threads j = s.threads j) :
    Changed s tid (s'.threads tid) s' := by
  refine ⟨fun _ => Moved.refl _, fun j _ hj => ?_, fun hb => ?_⟩
  · rw [hs j hj]
    exact Moved.refl _
  · rw [hs 0 (Ne.symm h0)] at hb
    exact Or.inr hb

/-- An unused slot is filled. -/
theorem currentRuns_fill (hc : CurrentRuns s) {tid : ℕ} (hf : s.findUnused = some tid)
    (hcur : s'.currentTid = s.currentTid)
    (hs : ∀ j, j ≠ tid → s'.threads j = s.threads j) : CurrentRuns s' := by
  refine ⟨by rw [hcur]; exact hc.1, fun h0 => ?_⟩
  rw [hcur] at h0 ⊢
  have hne : s.currentTid ≠ tid := by
    intro he
    have h1 := hc.2 h0
    rw [he, (findUnused_some hf).2.2] at h1
    exact absurd h1 (by simp)
  rw [hs _ hne]
  exact hc.2 h0

theorem threadCreate_full (hf : s.findUnused = none) (priority : ℕ) :
    s.threadCreate priority = s := by
  unfold System.threadCreate
  rw [hf]

theorem sysFork_full (hf : s.findUnused = none) (newDir : ℕ) : s.sysFork newDir = s := by
  unfold System.sysFork
  rw [hf]

theorem threadCreate_spec (hc : CurrentRuns s) {tid : ℕ} (hf : s.findUnused = some tid)
    (priority : ℕ) :
    (∃ t, Changed s tid t (s.threadCreate priority) ∧ t.state = .ready) ∧
    CurrentRuns (s.threadCreate priority) := by
  have hne : ∀ j, j ≠ tid → (s.threadCreate priority).threads j = s.threads j := by
    intro j hj
    unfold System.threadCreate
    rw [hf]
    dsimp only
    rw [setCount_threads, modify_ne _ _ hj]
  have hsame : ((s.threadCreate priority).threads tid).state = .ready ∧
      (s.threadCreate priority).currentTid = s.currentTid := by
    unfold System.threadCreate
    rw [hf]
    dsimp only
    rw [setCount_threads, modify_same]
    exact ⟨rfl, rfl⟩
  exact ⟨⟨_, changed_fill (findUnused_some hf).2.1 hne, hsame.1⟩,
    currentRuns_fill hc hf hsame.2 hne⟩

theorem sysFork_threads {child : ℕ} (hf : s.findUnused = some child) (newDir : ℕ) :
    (s.sysFork newDir).currentTid = s.currentTid ∧
    (∀ j, j ≠ child → (s.sysFork newDir).threads j = s.threads j) ∧
    ((s.sysFork newDir).threads child).parentTid = s.currentTid ∧
    ((s.sysFork newDir).threads child).state = if newDir = 0 then .unused else .ready := by
  unfold System.sysFork System.setState
  rw [hf]
  dsimp only
  split_ifs with h
  · refine ⟨rfl, fun j hj => ?_, ?_, ?_⟩
    · rw [modify_ne _ _ hj, modify_ne _ _ hj]
    · rw [modify_same, modify_same]
    · rw [modify_same]
  · refine ⟨rfl, fun j hj => ?_, ?_, ?_⟩
    · rw [setCount_threads, modify_ne _ _ hj, modify_ne _ _ hj]
    · rw [setCount_threads, modify_same, modify_same]
    · rw [setCount_threads, modify_same, modify_same]

theorem sysFork_spec (hc : CurrentRuns s) {child : ℕ} (hf : s.findUnused = some child)
    (newDir : ℕ) :
    (∃ t, Changed s child t (s.sysFork newDir) ∧ t.parentTid = s.currentTid ∧
      t.state = if newDir = 0 then .unused else .ready) ∧ CurrentRuns (s.sysFork newDir) := by
  obtain ⟨h1, h2, h3, h4⟩ := sysFork_threads hf newDir
  exact ⟨⟨_, changed_fill (findUnused_some hf).2.1 h2, h3, h4⟩, currentRuns_fill hc hf h1 h2⟩

/-- `sys_exit` leaves a Zombie behind when the slot of the parent is in use, and
then wakes a parent that is waiting. -/
def leavesZombie (s : System) : Prop :=
  0 ≤ (s.threads s.currentTid).parentTid ∧ (s.threads s.currentTid).parentTid < 32 ∧
    (s.threads (s.threads s.currentTid).parentTid.toNat).state ≠ .unused

/-- The beginning of `sys_exit`. -/
theorem exit_threads (s : System) (exitCode : ℕ) (a : System)
    (ha : a = (s.modify s.currentTid fun t => { t with exitCode := exitCode }).dropDirectory
      s.currentTid) :
    a.currentTid = s.currentTid ∧ (∀ j, j ≠ s.currentTid → a.threads j = s.threads j) ∧
    (a.threads s.currentTid).parentTid = (s.threads s.currentTid).parentTid ∧
    (a.threads s.currentTid).exitCode = exitCode ∧
    (a.threads s.currentTid).blockedChannelId = (s.threads s.currentTid).blockedChannelId ∧
    (a.threads s.currentTid).state = (s.threads s.currentTid).state := by
  obtain ⟨h1, -, -, h4⟩ := dropDirectory_spec
    (s.modify s.currentTid fun t => { t with exitCode := exitCode }) s.currentTid
  subst ha
  refine ⟨h1, fun j hj => (h4 j hj).trans (modify_ne _ _ hj), ?_⟩
  rcases dropDirectory_threads (s.modify s.currentTid fun t => { t with exitCode := exitCode })
    s.currentTid s.currentTid with h | h
  · rw [h, modify_same]
    exact ⟨rfl, rfl, rfl, rfl⟩
  · rw [h, modify_same]
    exact ⟨rfl, rfl, rfl, rfl⟩

theorem sysExit_spec (hc : s.currentTid < 32) (exitCode : ℕ) :
    CurrentRuns (s.sysExit exitCode) ∧
    (leavesZombie s ∧ Changed s s.currentTid
        { s.threads s.currentTid with state := .zombie, exitCode := exitCode }
        (s.sysExit exitCode) ∧
        ((s.threads s.currentTid).parentTid.toNat ≠ 0 →
          ¬Waiting ((s.sysExit exitCode).threads (s.threads s.currentTid).parentTid.toNat)) ∨
      ¬leavesZombie s ∧ Changed s s.currentTid
        { s.threads s.currentTid with state := .terminated, exitCode := exitCode }
        (s.sysExit exitCode)) := by
  unfold System.sysExit
  dsimp only
  generalize ha : (s.modify s.currentTid fun t => { t with exitCode := exitCode }).dropDirectory
    s.currentTid = a
  obtain ⟨hcur, hne, hparent, hcode, hchan, hstate⟩ := exit_threads s exitCode a ha.symm
  have hcond : (0 ≤ (a.threads s.currentTid).parentTid ∧ (a.threads s.currentTid).parentTid < 32 ∧
      (a.threads (a.threads s.currentTid).parentTid.toNat).state ≠ .unused) ↔ leavesZombie s := by
    unfold leavesZombie
    rw [hparent]
    by_cases hj : (s.threads s.currentTid).parentTid.toNat = s.currentTid
    · rw [hj, hstate]
    · rw [hne _ hj]
  -- the thread leaves with the state `state` and the others are scheduled
  have hleave : ∀ (state : ThreadState) (s' : System),
      Scheduled (a.setState s.currentTid state) s' →
      Changed s s.currentTid { s.threads s.currentTid with state := state, exitCode := exitCode }
        s' := by
    intro state s' hs
    have h1 := changed_of_scheduled hs
    refine ⟨fun h0 => Moved.trans ?_ (h1.slot h0), fun j h0 hj => ?_, fun hb => ?_⟩
    · exact ⟨hparent, hcode, Or.inl ⟨rfl, hchan⟩⟩
    · rw [← hne j hj]
      exact h1.others j h0 hj
    · refine (h1.boot hb).imp_right fun hb' => ?_
      by_cases h0 : 0 = s.currentTid
      · rw [h0] at hb' ⊢
        rwa [← hstate]
      · rwa [← hne 0 h0]
  have hcz : (a.setState s.currentTid .zombie).currentTid < 32 := by
    rw [show (a.setState s.currentTid .zombie).currentTid = a.currentTid from rfl, hcur]
    exact hc
  split_ifs with h1 h2
  · have hu := unblock_scheduled (a.setState s.currentTid .zombie)
      (a.threads s.currentTid).parentTid
    obtain ⟨h3, h4⟩ := giveUp_spec (s := (a.setState s.currentTid .zombie).unblock
      (a.threads s.currentTid).parentTid) (by rwa [unblock_currentTid])
    refine ⟨h4, Or.inl ⟨hcond.mp h1, hleave _ _ (scheduled_trans hu h3), fun h0 hw => ?_⟩⟩
    have hw' := (h3.moved _ h0).waiting hw
    rw [← hparent] at hw'
    unfold System.unblock at hw'
    rw [if_neg (by omega), if_pos h2.1, modify_same] at hw'
    exact absurd hw'.1 (by simp)
  · obtain ⟨h3, h4⟩ := giveUp_spec (s := a.setState s.currentTid .zombie) hcz
    refine ⟨h4, Or.inl ⟨hcond.mp h1, hleave _ _ h3, fun h0 hw => h2 ?_⟩⟩
    rw [hparent]
    exact (h3.moved _ h0).waiting hw
  · rw [← hcur] at hc
    obtain ⟨h3, h4⟩ := giveUp_spec (s := a.setState a.currentTid .terminated) hc
    refine ⟨h4, Or.inr ⟨fun hz => h1 (hcond.mpr hz), hleave _ _ ?_⟩⟩
    rw [← hcur]
    exact h3

theorem zombieChild_some {child : ℕ} (h : zombieChild s = some child) :
    child < 32 ∧ child ≠ 0 ∧ (s.threads child).parentTid = s.currentTid ∧
    (s.threads child).state = .zombie := by
  have hmem := List.mem_of_find?_eq_some h
  have hp := List.find?_some h
  rw [List.mem_range] at hmem
  simp only [decide_eq_true_eq] at hp
  exact ⟨hmem, by omega, hp.2⟩

theorem zombieChild_none (h : zombieChild s = none) {j : ℕ} (hj : j < 32) (h0 : j ≠ 0)
    (hp : (s.threads j).parentTid = s.currentTid) : (s.threads j).state ≠ .zombie := by
  intro hz
  have := List.find?_eq_none.mp h j (List.mem_range.mpr hj)
  simp only [decide_eq_true_eq, not_and] at this
  exact this (by omega) hp hz

theorem hasChildren_of_zombie {child : ℕ} (h : zombieChild s = some child) :
    hasChildren s = true := by
  obtain ⟨h1, h2, h3, -⟩ := zombieChild_some h
  unfold hasChildren
  rw [List.any_eq_true]
  exact ⟨child, List.mem_range.mpr h1, by simpa [h3] using (by omega : 1 ≤ child)⟩

/-- A child is reaped, or the caller blocks, or it has no child. -/
theorem sysWait_spec (hc : CurrentRuns s) (h0 : s.currentTid ≠ 0) :
    CurrentRuns s.sysWait ∧
    ((∃ child, zombieChild s = some child ∧
        Changed s child { s.threads child with state := .unused } s.sysWait) ∨
      (zombieChild s = none ∧ hasChildren s = true ∧
        Changed s s.currentTid
          { s.threads s.currentTid with state := .blocked, blockedChannelId := -2 } s.sysWait) ∨
      zombieChild s = none ∧ hasChildren s = false ∧ s.sysWait = s) := by
  rw [sysWait_eq]
  cases hz : zombieChild s with
  | some child =>
    obtain ⟨-, -, -, hst⟩ := zombieChild_some hz
    dsimp only
    have hs : Scheduled (s.modify child fun t => { t with state := .unused })
        ((s.setState child .unused).setCount (s.threadCount-1)) := scheduled_of_eq rfl
    refine ⟨⟨hc.1, fun _ => ?_⟩, Or.inl ⟨child, rfl, changed_of_scheduled hs⟩⟩
    have hne : s.currentTid ≠ child := by
      intro he
      have := hc.2 h0
      rw [he, hst] at this
      exact absurd this (by simp)
    change ((s.setState child .unused).threads s.currentTid).state = .running
    unfold System.setState
    rw [modify_ne _ _ hne]
    exact hc.2 h0
  | none =>
    dsimp only
    cases hh : hasChildren s with
    | true =>
      obtain ⟨h1, h2⟩ := blockCurrent_spec hc.1 (-2)
      rw [if_pos rfl]
      exact ⟨h2, Or.inr (Or.inl ⟨rfl, rfl, h1⟩)⟩
    | false =>
      rw [if_neg (by simp)]
      exact ⟨hc, Or.inr (Or.inr ⟨rfl, rfl, rfl⟩)⟩

/-! ## Who forked whom -/

/-- Alive or Zombie. -/
def Unreaped (t : Thread) : Prop := Alive t ∨ t.state = .zombie

instance (t : Thread) : Decidable (Unreaped t) := inferInstanceAs (Decidable (_ ∨ _))

theorem Moved.unreaped (h : Moved t t') (ht : Unreaped t') : Unreaped t :=
  ht.imp h.alive_back h.zombie

/-- Slot `j` holds, or held last, a process that the process of slot `i` forked. -/
def Child (h : History) (i j : ℕ) : Prop :=
  j < 32 ∧ j ≠ 0 ∧ h.creator (h.process j) = some (h.process i)

instance (h : History) (i j : ℕ) : Decidable (Child h i j) :=
  inferInstanceAs (Decidable (_ ∧ _ ∧ _))

/-- While a process is there, its children bear the number of its slot. -/
structure Linked (h : History) : Prop where
  running : CurrentRuns h.sys
  boot : (h.sys.threads 0).state ≠ .blocked
  distinct : ∀ i < 32, ∀ j < 32, h.process i = h.process j → i = j
  older : ∀ i < 32, h.process i < h.next
  forked : ∀ p q, h.creator p = some q → p < h.next ∧ q < h.next
  parent : ∀ i < 32, ∀ j, Child h i j → Unreaped (h.sys.threads j) →
    (h.sys.threads j).parentTid = i

/-- No slot comes to hold an unreaped process. -/
structure Carried (s s' : System) : Prop where
  slots : ∀ j, j ≠ 0 → Unreaped (s'.threads j) →
    Unreaped (s.threads j) ∧ (s'.threads j).parentTid = (s.threads j).parentTid
  boot : (s'.threads 0).state = .blocked → (s.threads 0).state = .blocked

theorem scheduled_carried (h : Scheduled s s') : Carried s s' :=
  ⟨fun j hj hu => ⟨(h.moved j hj).unreaped hu, (h.moved j hj).parentTid⟩, h.boot⟩

theorem changed_carried {i : ℕ} (h : Changed s i t s') (hi : t.state = .blocked → i ≠ 0)
    (ht : Unreaped t → Unreaped (s.threads i) ∧ t.parentTid = (s.threads i).parentTid) :
    Carried s s' := by
  refine ⟨fun j h0 hu => ?_, fun hb => (h.boot hb).resolve_left fun hh => hi hh.2 hh.1⟩
  by_cases hj : j = i
  · subst hj
    have hm := h.slot h0
    obtain ⟨h1, h2⟩ := ht (hm.unreaped hu)
    exact ⟨h1, hm.parentTid.trans h2⟩
  · have hm := h.others j h0 hj
    exact ⟨hm.unreaped hu, hm.parentTid⟩

variable {h : History}

theorem linked_carried (hl : Linked h) (hr : CurrentRuns s) (hs : Carried h.sys s)
    (exits : List (ℕ × ℕ)) (reports : List Report) :
    Linked { h with sys := s, exits := exits, reports := reports } := by
  refine ⟨hr, fun hb => hl.boot (hs.boot hb), hl.distinct, hl.older, hl.forked,
    fun i hi j hj hu => ?_⟩
  obtain ⟨h1, h2⟩ := hs.slots j hj.2.1 hu
  exact h2.trans (hl.parent i hi j hj h1)

/-- A new process in slot `tid`. -/
theorem linked_start (hl : Linked h) (hr : CurrentRuns s) {tid : ℕ}
    (hf : h.sys.findUnused = some tid) (hs : Changed h.sys tid t s) (creator : Option ℕ)
    (hp : ∀ p, creator = some p → p = h.current ∧ t.parentTid = h.sys.currentTid) :
    Linked { h.start tid creator with sys := s } := by
  obtain ⟨ht, ht0, -⟩ := findUnused_some hf
  refine ⟨hr, fun hb => ?_, fun i hi j hj he => ?_, fun i hi => ?_, fun p q hpq => ?_,
    fun i hi j hj hu => ?_⟩
  · exact hl.boot ((hs.boot hb).resolve_left fun hh => ht0 hh.1)
  · have h1 := hl.older i hi
    have h2 := hl.older j hj
    have h3 := hl.distinct i hi j hj
    dsimp only [History.start] at he
    split_ifs at he <;> omega
  · have h1 := hl.older i hi
    dsimp only [History.start]
    split_ifs <;> omega
  · have h1 := hl.older _ hl.running.1
    dsimp only [History.start] at hpq ⊢
    split_ifs at hpq with hpn
    · have := (hp q hpq).1
      unfold History.current at this
      omega
    · have := hl.forked p q hpq
      omega
  · obtain ⟨hj, hj0, hc⟩ := hj
    have hio := hl.older i hi
    have hjo := hl.older j hj
    dsimp only [History.start] at hc hu ⊢
    by_cases hjt : j = tid
    · rw [if_pos hjt, if_pos rfl] at hc
      obtain ⟨h1, h2⟩ := hp _ hc
      have hcur := hl.older _ hl.running.1
      rw [hjt, (hs.slot ht0).parentTid, h2]
      unfold History.current at h1
      split_ifs at h1 with hit
      · omega
      · rw [hl.distinct i hi _ hl.running.1 h1]
    · rw [if_neg hjt, if_neg (by omega)] at hc
      have hm := hs.others j hj0 hjt
      split_ifs at hc with hit
      · have := (hl.forked _ _ hc).2
        omega
      · rw [hm.parentTid]
        exact hl.parent i hi j ⟨hj, hj0, hc⟩ (hm.unreaped hu)

/-- No Zombie appears. -/
def Quiet (s s' : System) : Prop :=
  ∀ j, j ≠ 0 → (s'.threads j).state = .zombie → (s.threads j).state = .zombie ∧
    (s'.threads j).exitCode = (s.threads j).exitCode ∧
    (s'.threads j).parentTid = (s.threads j).parentTid

theorem scheduled_quiet (hs : Scheduled s s') : Quiet s s' :=
  fun j hj hz => ⟨(hs.moved j hj).zombie hz, (hs.moved j hj).exitCode, (hs.moved j hj).parentTid⟩

theorem changed_quiet {i : ℕ} (hs : Changed s i t s') (ht : t.state ≠ .zombie) : Quiet s s' := by
  intro j h0 hz
  by_cases hj : j = i
  · subst hj
    exact absurd ((hs.slot h0).zombie hz) ht
  · have hm := hs.others j h0 hj
    exact ⟨hm.zombie hz, hm.exitCode, hm.parentTid⟩

/-- Nothing is recorded: no process starts, exits or is reported. -/
def Plain (h : History) (e : Event) : Prop :=
  h.record e = h ∧ Quiet h.sys (act h.sys e) ∧ Carried h.sys (act h.sys e)

/-- A process starts in the unused slot `tid`. -/
def Starts (h : History) (e : Event) (tid : ℕ) (creator : Option ℕ) : Prop :=
  ((∃ priority, e = .step (.create priority)) ∨ ∃ newDir, e = .step (.fork newDir)) ∧
  h.sys.findUnused = some tid ∧ h.record e = h.start tid creator ∧
  ∃ t, Changed h.sys tid t (act h.sys e) ∧ t.state = .ready ∧
    ∀ p, creator = some p → p = h.current ∧ t.parentTid = h.sys.currentTid

theorem plain_scheduled {e : Event} (hrec : h.record e = h)
    (hs : Scheduled h.sys (act h.sys e)) : Plain h e :=
  ⟨hrec, scheduled_quiet hs, scheduled_carried hs⟩

theorem plain_ended {e : Event} {i : ℕ} (hrec : h.record e = h)
    (hs : Changed h.sys i t (act h.sys e)) (ht : t.state = .terminated ∨ t.state = .unused) :
    Plain h e := by
  refine ⟨hrec, changed_quiet hs ?_, changed_carried hs ?_ ?_⟩
  · rcases ht with ht | ht <;> simp [ht]
  · rcases ht with ht | ht <;> simp [ht]
  · rcases ht with ht | ht <;> simp [Unreaped, Alive, ht]

theorem plain_blocked (hr : CurrentRuns h.sys) (h0 : h.sys.currentTid ≠ 0) {e : Event}
    {channelId : ℤ} (hrec : h.record e = h)
    (hs : Changed h.sys h.sys.currentTid
      { h.sys.threads h.sys.currentTid with state := .blocked, blockedChannelId := channelId }
      (act h.sys e)) : Plain h e := by
  refine ⟨hrec, changed_quiet hs (by simp), changed_carried hs (fun _ => h0) fun _ => ?_⟩
  exact ⟨Or.inl (by simp [Alive, hr.2 h0]), rfl⟩

theorem create_cases (hr : CurrentRuns h.sys) (priority : ℕ) :
    CurrentRuns (act h.sys (.step (.create priority))) ∧
    (Plain h (.step (.create priority)) ∨
      ∃ tid, Starts h (.step (.create priority)) tid none) := by
  cases hf : h.sys.findUnused with
  | none =>
    have hs : act h.sys (.step (.create priority)) = h.sys := threadCreate_full hf priority
    have hrec : h.record (.step (.create priority)) = h := by
      unfold History.record
      rw [hf]
    refine ⟨by rw [hs]; exact hr, Or.inl (plain_scheduled hrec ?_)⟩
    rw [hs]
    exact scheduled_refl _
  | some tid =>
    obtain ⟨⟨t, h1, h2⟩, h3⟩ := threadCreate_spec hr hf priority
    have hrec : h.record (.step (.create priority)) = h.start tid none := by
      unfold History.record
      rw [hf]
    exact ⟨h3, Or.inr ⟨tid, Or.inl ⟨priority, rfl⟩, hf, hrec, t, h1, h2, by simp⟩⟩

theorem fork_cases (hr : CurrentRuns h.sys) (newDir : ℕ) :
    CurrentRuns (act h.sys (.step (.fork newDir))) ∧
    (Plain h (.step (.fork newDir)) ∨
      ∃ tid, Starts h (.step (.fork newDir)) tid (some h.current)) := by
  cases hf : h.sys.findUnused with
  | none =>
    have hs : act h.sys (.step (.fork newDir)) = h.sys := sysFork_full hf newDir
    have hrec : h.record (.step (.fork newDir)) = h := by
      unfold History.record
      rw [hf]
    refine ⟨by rw [hs]; exact hr, Or.inl (plain_scheduled hrec ?_)⟩
    rw [hs]
    exact scheduled_refl _
  | some tid =>
    obtain ⟨⟨t, h1, h2, h3⟩, h4⟩ := sysFork_spec hr hf newDir
    refine ⟨h4, ?_⟩
    by_cases hd : newDir = 0
    · have hrec : h.record (.step (.fork newDir)) = h := by
        unfold History.record
        rw [hf]
        exact if_pos hd
      rw [if_pos hd] at h3
      exact Or.inl (plain_ended hrec h1 (Or.inr h3))
    · have hrec : h.record (.step (.fork newDir)) = h.start tid (some h.current) := by
        unfold History.record
        rw [hf]
        exact if_neg hd
      rw [if_neg hd] at h3
      exact Or.inr ⟨tid, Or.inr ⟨newDir, rfl⟩, hf, hrec, t, h1, h3, by simp [h2]⟩

theorem wait_cases (hr : CurrentRuns h.sys) (h0 : h.sys.currentTid ≠ 0) :
    CurrentRuns h.sys.sysWait ∧
    (Plain h (.step .wait) ∨ ∃ child, zombieChild h.sys = some child ∧
      Changed h.sys child { h.sys.threads child with state := .unused } h.sys.sysWait) := by
  obtain ⟨h1, ⟨child, h2, h3⟩ | ⟨h2, -, h3⟩ | ⟨h2, -, h3⟩⟩ := sysWait_spec hr h0
  · exact ⟨h1, Or.inr ⟨child, h2, h3⟩⟩
  · have hrec : h.record (.step .wait) = h := by
      unfold History.record
      rw [h2]
    exact ⟨h1, Or.inl (plain_blocked hr h0 hrec h3)⟩
  · have hrec : h.record (.step .wait) = h := by
      unfold History.record
      rw [h2]
    refine ⟨h1, Or.inl (plain_scheduled hrec ?_)⟩
    rw [show act h.sys (.step .wait) = h.sys from h3]
    exact scheduled_refl _

/-- What an event can do to the records. -/
theorem step_cases (hr : CurrentRuns h.sys) (e : Event) (ha : Allowed h.sys e) :
    CurrentRuns (act h.sys e) ∧
    (Plain h e ∨ (∃ tid creator, Starts h e tid creator) ∨
      (∃ exitCode, e = .step (.exit exitCode) ∧ h.sys.currentTid ≠ 0) ∨
      ∃ child, e = .step .wait ∧ zombieChild h.sys = some child ∧
        Changed h.sys child { h.sys.threads child with state := .unused } (act h.sys e)) := by
  cases e with
  | yield =>
    obtain ⟨h1, h2⟩ := schedule_spec hr.1
    exact ⟨h2, Or.inl (plain_scheduled rfl h1)⟩
  | kill tid =>
    obtain ⟨⟨h1, -⟩ | h1, h2⟩ := threadTerminate_spec hr tid
    · exact ⟨h2, Or.inl (plain_scheduled rfl h1)⟩
    · exact ⟨h2, Or.inl (plain_ended rfl h1 (Or.inl rfl))⟩
  | step a =>
    cases a with
    | tick =>
      obtain ⟨h1, h2⟩ := tick_spec hr.1
      exact ⟨h2, Or.inl (plain_scheduled rfl h1)⟩
    | block channelId =>
      obtain ⟨h1, h2⟩ := blockCurrent_spec hr.1 channelId
      exact ⟨h2, Or.inl (plain_blocked hr ha.1 rfl h1)⟩
    | unblock tid =>
      exact ⟨unblock_currentRuns hr tid, Or.inl (plain_scheduled rfl (unblock_scheduled _ tid))⟩
    | sleep ms =>
      obtain ⟨h1, h2⟩ := sleepCurrent_spec hr ha ms
      exact ⟨h2, Or.inl (plain_scheduled rfl h1)⟩
    | terminate =>
      obtain ⟨h1, h2⟩ := terminateCurrent_spec hr.1
      exact ⟨h2, Or.inl (plain_ended rfl h1 (Or.inl rfl))⟩
    | create priority =>
      obtain ⟨h1, h2 | ⟨tid, h2⟩⟩ := create_cases hr priority
      · exact ⟨h1, Or.inl h2⟩
      · exact ⟨h1, Or.inr (Or.inl ⟨tid, none, h2⟩)⟩
    | fork newDir =>
      obtain ⟨h1, h2 | ⟨tid, h2⟩⟩ := fork_cases hr newDir
      · exact ⟨h1, Or.inl h2⟩
      · exact ⟨h1, Or.inr (Or.inl ⟨tid, _, h2⟩)⟩
    | exit exitCode =>
      exact ⟨(sysExit_spec hr.1 exitCode).1, Or.inr (Or.inr (Or.inl ⟨exitCode, rfl, ha⟩))⟩
    | wait =>
      obtain ⟨h1, h2 | ⟨child, h2, h3⟩⟩ := wait_cases hr ha
      · exact ⟨h1, Or.inl h2⟩
      · exact ⟨h1, Or.inr (Or.inr (Or.inr ⟨child, rfl, h2, h3⟩))⟩

theorem linked_step (hl : Linked h) (e : Event) (ha : Allowed h.sys e) : Linked (h.step e) := by
  unfold History.step
  obtain ⟨hr, ⟨h1, -, h3⟩ | ⟨tid, creator, -, h2, h3, t, h4, -, h5⟩ | ⟨exitCode, h1, h2⟩ |
    ⟨child, h1, h2, h3⟩⟩ := step_cases hl.running e ha
  · rw [h1]
    exact linked_carried hl hr h3 _ _
  · rw [h3]
    exact linked_start hl hr h2 h4 creator h5
  · subst h1
    have hcur : Alive (h.sys.threads h.sys.currentTid) := by simp [Alive, hl.running.2 h2]
    refine linked_carried hl hr ?_ _ _
    obtain ⟨-, ⟨-, h3, -⟩ | ⟨-, h3⟩⟩ := sysExit_spec hl.running.1 exitCode
    · exact changed_carried h3 (by simp) fun _ => ⟨Or.inl hcur, rfl⟩
    · exact changed_carried h3 (by simp) (by simp [Unreaped, Alive])
  · subst h1
    have hc := changed_carried h3 (by simp) (by simp [Unreaped, Alive])
    unfold History.record
    rw [h2]
    exact linked_carried hl hr hc _ _

theorem init_linked (kernelDirectory ticks : ℕ) (messages : ℕ → ℕ → IpcMessage) :
    Linked (History.init kernelDirectory ticks messages) := by
  refine ⟨⟨show 0 < 32 by decide, fun h0 => absurd rfl h0⟩, by simp [History.init,
    System.threadInit], fun i _ j _ he => he, fun i hi => hi, fun p q hpq => ?_, fun i _ j hj => ?_⟩
  · exact absurd hpq (by simp [History.init])
  · exact absurd hj.2.2 (by simp [History.init])

end Vlsmc.Processes
