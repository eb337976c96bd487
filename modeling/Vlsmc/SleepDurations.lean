import Vlsmc.SleepingThreads

/-!
# How long a thread sleeps

`sleep_current` computes the time at which the thread is due from a 32-bit product and a
32-bit sum. Where neither wraps the thread is due in time; where one of them wraps there
is a run that wakes the thread early.
-/

set_option autoImplicit false

namespace Vlsmc.SleepDurations
open Vlsmc.Words Vlsmc.Scheduler Vlsmc.SchedulerRuns Vlsmc.RoundRobin Vlsmc.SleepingThreads

/-- A thread that sleeps `ms` milliseconds from tick `count` on still sleeps after fewer than
`max 1 (ms/10)` further ticks, in every run of the system. -/
def NeverEarly (ms count : ℕ) : Prop :=
  ∀ kernelDirectory ticks messages before after, ticks < 4294967296 →
    AllowedRun (System.threadInit kernelDirectory ticks messages) before →
    (run (System.threadInit kernelDirectory ticks messages) before).ticks = count →
    (run (System.threadInit kernelDirectory ticks messages) before).currentTid ≠ 0 →
    AllowedRun ((run (System.threadInit kernelDirectory ticks messages) before).sleepCurrent ms)
      after →
    after.count Step.tick < max 1 (ms/10) →
    ((run ((run (System.threadInit kernelDirectory ticks messages) before).sleepCurrent ms)
      after).threads
        (run (System.threadInit kernelDirectory ticks messages) before).currentTid).state =
      .sleeping

/-- The tick at which a thread is due. -/
def dueTick (ms count : ℕ) : ℕ :=
  u32 (count+if u32 (ms*100)/1000 = 0 then 1 else u32 (ms*100)/1000)

theorem sleepCurrent_eq (s : System) (ms : ℕ) : s.sleepCurrent ms =
    (s.modify s.currentTid fun t =>
      { t with state := .sleeping, sleepUntil := dueTick ms s.ticks }).giveUp := rfl

/-- The thread that has just gone to sleep. -/
theorem dormant_slept (s : System) (ms : ℕ) (h0 : s.currentTid ≠ 0) :
    Dormant s.currentTid (dueTick ms s.ticks) s.ticks (s.modify s.currentTid fun t =>
      { t with state := .sleeping, sleepUntil := dueTick ms s.ticks }) := by
  constructor
  · exact h0
  · rw [modify_same]
  · rw [modify_same]
  · rfl

theorem never_early_of {ms count : ℕ} (hms : ms*100 < 4294967296)
    (hcount : count+max 1 (ms/10) < 4294967296) : NeverEarly ms count := by
  intro kernelDirectory ticks messages before after _ _ hnow h0 _ hticks
  generalize run (System.threadInit kernelDirectory ticks messages) before = s at *
  have hdue : dueTick ms s.ticks = s.ticks+max 1 (ms/10) := by
    unfold dueTick
    rw [u32_of_lt hms, hnow]
    have hlen : (if ms*100/1000 = 0 then 1 else ms*100/1000) = max 1 (ms/10) := by
      split_ifs <;> omega
    rw [hlen]
    exact u32_of_lt hcount
  have hslept := (dormant_slept s ms h0).giveUp (by omega)
  rw [← sleepCurrent_eq] at hslept
  exact (asleep_run hslept after (by omega) (by omega)).sleeps

/-- Thread 1 sleeps, thread `c` runs with `q` ticks left, and only thread 0 is ready. -/
structure Resting (c q u t : ℕ) (s : System) : Prop extends Dormant 1 u t s where
  current : s.currentTid = c
  runs : (s.threads c).state = .running
  quantum : (s.threads c).quantumRemaining = q
  rest : ∀ j < 32, j ≠ c → j ≠ 1 → (s.threads j).state = .ready ∧ j = 0 ∨
    (s.threads j).state = .unused ∨ (s.threads j).state = .blocked

section Idling

variable {c q u t : ℕ} {s : System}

/-- What a tick does first: it counts, and takes from the quantum. -/
def spent (s : System) : System :=
  { s with ticks := u32 (s.ticks+1) }.age.modify s.currentTid fun t =>
    { t with quantumRemaining := sub32 t.quantumRemaining 1, totalTicks := u32 (t.totalTicks+1) }

theorem spent_thread (s : System) (j : ℕ) :
    ((spent s).threads j).state = (s.threads j).state ∧
      ((spent s).threads j).sleepUntil = (s.threads j).sleepUntil := by
  have hage := age_thread { s with ticks := u32 (s.ticks+1) } j
  have hdue := age_sleepUntil { s with ticks := u32 (s.ticks+1) } j
  unfold spent
  by_cases hj : j = s.currentTid
  · rw [hj, modify_same]
    rw [hj] at hage hdue
    exact ⟨hage.1, hdue⟩
  · rw [modify_ne _ _ hj]
    exact ⟨hage.1, hdue⟩

theorem spent_quantum (s : System) : ((spent s).threads s.currentTid).quantumRemaining =
    sub32 (s.threads s.currentTid).quantumRemaining 1 := by
  have hage := age_thread { s with ticks := u32 (s.ticks+1) } s.currentTid
  unfold spent
  rw [modify_same]
  exact congrArg (sub32 · 1) hage.2.1

theorem tick_eq (hrun : (s.threads s.currentTid).state = .running) : s.tick =
    if 0 < ((spent s).threads s.currentTid).quantumRemaining then spent s
    else ((spent s).modify s.currentTid fun t =>
      { t with state := .ready, quantumRemaining := 5 }).reschedule := by
  have hage := (age_thread { s with ticks := u32 (s.ticks+1) } s.currentTid).1
  have hcur := age_current { s with ticks := u32 (s.ticks+1) }
  unfold System.tick System.schedule spent
  dsimp only at hage hcur ⊢
  generalize System.age { s with ticks := u32 (s.ticks+1) } = w at hage hcur ⊢
  rw [hcur, if_pos (hage.trans hrun)]
  simp only [modify_current, hcur]

theorem Resting.spent (h : Resting c q u t s) (hq : 1 ≤ q) (hqq : q ≤ 5) (ht : t+1 < 4294967296) :
    Resting c (q-1) u (t+1) (spent s) := by
  have hcur : (SleepDurations.spent s).currentTid = c := (age_current _).trans h.current
  constructor
  · constructor
    · exact h.other
    · exact (spent_thread s 1).1.trans h.sleeps
    · exact (spent_thread s 1).2.trans h.due
    · refine (age_ticks _).trans ?_
      rw [h.now]
      exact u32_of_lt ht
  · exact hcur
  · exact (spent_thread s c).1.trans h.runs
  · have hquantum := spent_quantum s
    rw [h.current, h.quantum, sub32_of_le hq (by omega)] at hquantum
    exact hquantum
  · intro j hj hc h1
    rw [(spent_thread s j).1]
    exact h.rest j hj hc h1

theorem Resting.rest_all (h : Resting c q u t s) (f : Thread → Thread)
    (hf : (f (s.threads c)).state = .ready ∨ (f (s.threads c)).state = .blocked)
    (ht : t < u) : (s.modify c f).wakeAll = s.modify c f := by
  apply wakeAll_rest
  intro j hj
  by_cases hjc : j = c
  · rw [hjc, modify_same]
    rcases hf with hf | hf
    · rw [hf]
      exact ⟨nofun, nofun⟩
    · rw [hf]
      exact ⟨nofun, nofun⟩
  rw [modify_ne _ _ hjc]
  by_cases hj1 : j = 1
  · rw [hj1, h.sleeps, h.due]
    exact ⟨nofun, fun _ => h.now ▸ ht⟩
  · rcases h.rest j hj hjc hj1 with ⟨hs, -⟩ | hs | hs
    · rw [hs]
      exact ⟨nofun, nofun⟩
    · rw [hs]
      exact ⟨nofun, nofun⟩
    · rw [hs]
      exact ⟨nofun, nofun⟩

/-- With nothing else ready, thread 0 is chosen. -/
theorem Resting.picks_zero (h : Resting c q u t s) (f : Thread → Thread)
    (hf : (f (s.threads c)).state = .ready ∨ (f (s.threads c)).state = .blocked)
    (ht : t < u) : (s.modify c f).pickNextThread = (0, s.modify c f) := by
  have hwake := h.rest_all f hf ht
  have hbest : (s.modify c f).bestReady = 0 := by
    rcases bestReady_cases (s.modify c f) with hb | ⟨hlt, hne, hready⟩
    · exact hb
    · have hne : (s.modify c f).bestReady ≠ c := h.current ▸ hne
      rw [modify_ne _ _ hne] at hready
      have hne1 : (s.modify c f).bestReady ≠ 1 := by
        intro h1
        rw [h1, h.sleeps] at hready
        cases hready
      rcases h.rest _ hlt hne hne1 with ⟨-, h0⟩ | hs | hs
      · exact h0
      · rw [hs] at hready
        cases hready
      · rw [hs] at hready
        cases hready
  have hstate : ((s.modify c f).threads (s.modify c f).currentTid).state ≠ .running := by
    rw [modify_current, h.current, modify_same]
    rcases hf with hf | hf
    · rw [hf]
      exact nofun
    · rw [hf]
      exact nofun
  unfold System.pickNextThread
  rw [hwake]
  dsimp only
  rw [if_neg fun hboth => hstate hboth.2, hbest]

theorem Resting.away (h : Resting c q u t s) : 1 ≠ c := by
  intro hc
  have hruns := h.runs
  rw [← hc, h.sleeps] at hruns
  cases hruns

/-- A tick within the quantum. -/
theorem Resting.tick (h : Resting c q u t s) (hq : 2 ≤ q) (hqq : q ≤ 5) (ht : t+1 < 4294967296) :
    Resting c (q-1) u (t+1) s.tick := by
  have hspent := h.spent (by omega) hqq ht
  have hquantum := hspent.quantum
  rw [tick_eq (h.current ▸ h.runs), h.current, hquantum, if_pos (by omega)]
  exact hspent

/-- The tick that ends the quantum of thread 0, and the next quantum. -/
theorem Resting.tick_again (h : Resting 0 1 u t s) (ht : t+1 < u) (hu : u < 4294967296) :
    Resting 0 5 u (t+1) s.tick := by
  have hspent := h.spent (le_refl 1) (by omega) (by omega)
  have hpick := hspent.picks_zero (fun t => { t with state := .ready, quantumRemaining := 5 })
    (.inl rfl) ht
  have hready := modify_same (SleepDurations.spent s) 0
    (fun t => { t with state := .ready, quantumRemaining := 5 })
  have hcur := (modify_current (SleepDurations.spent s) 0
    (fun t => { t with state := .ready, quantumRemaining := 5 })).trans hspent.current
  have hdormant := hspent.toDormant.modify
    (fun t => { t with state := .ready, quantumRemaining := 5 }) hspent.away
  have hother (j : ℕ) (hj : j ≠ 0) := modify_ne (SleepDurations.spent s)
    (fun t => { t with state := .ready, quantumRemaining := 5 }) hj
  rw [tick_eq (h.current ▸ h.runs), h.current, hspent.quantum, if_neg (by omega)]
  unfold System.reschedule
  rw [hpick]
  generalize (SleepDurations.spent s).modify 0 _ = x at hready hcur hdormant hother
  dsimp only
  rw [hcur, if_pos ⟨rfl, by rw [hready]⟩]
  constructor
  · exact hdormant.modify _ hspent.away
  · exact hcur
  · rw [modify_same]
  · rw [modify_same]
  · intro j hj h0 h1
    rw [modify_ne _ _ h0, hother j h0]
    exact hspent.rest j hj h0 h1

/-- The tick at which the thread is due, when it ends a quantum. -/
theorem Resting.tick_due (h : Resting c 1 u t s) (ht : t+1 = u) (hu : u < 4294967296) :
    (s.tick.threads 1).state ≠ .sleeping := by
  have hspent := h.spent (le_refl 1) (by omega) (by omega)
  rw [tick_eq (h.current ▸ h.runs), h.current, hspent.quantum, if_neg (by omega)]
  apply reschedule_awake
  rw [(hspent.toDormant.modify _ hspent.away).wakeAll_due (by decide) (by omega)]
  exact nofun

/-- The running thread blocks, and thread 0 is next. -/
theorem Resting.block (h : Resting c q u t s) (hc : c ≠ 0) (ht : t < u) :
    Resting 0 5 u t (s.blockCurrent 0) := by
  have hpick := h.picks_zero (fun t => { t with state := .blocked, blockedChannelId := 0 })
    (.inr rfl) ht
  have hdormant := h.toDormant.modify
    (fun t => { t with state := .blocked, blockedChannelId := 0 }) h.away
  have hblocked := modify_same s c (fun t => { t with state := .blocked, blockedChannelId := 0 })
  have hother (j : ℕ) (hj : j ≠ c) := modify_ne s
    (fun t => { t with state := .blocked, blockedChannelId := 0 }) hj
  have hcur := (modify_current s c
    (fun t => { t with state := .blocked, blockedChannelId := 0 })).trans h.current
  unfold System.blockCurrent System.giveUp
  rw [h.current, hpick]
  generalize s.modify c _ = x at hdormant hblocked hother hcur
  dsimp only
  rw [hcur, if_pos hc.symm]
  have hswitched := hdormant.switchTo (show 0 ≠ 1 by decide)
  constructor
  · exact hswitched.toDormant
  · exact (switchTo_states x 0).1
  · exact (switchTo_states x 0).2.2.1
  · rw [switchTo_threads, if_pos rfl]
  · intro j hj h0 h1
    rw [switchTo_threads, if_neg h0]
    by_cases hjc : j = c
    · rw [hjc, hblocked]
      exact .inr (.inr rfl)
    · rw [hother j hjc]
      exact h.rest j hj hjc h1

theorem Resting.block_due (h : Resting c q u t s) (ht : u ≤ t) :
    ((s.blockCurrent 0).threads 1).state ≠ .sleeping := by
  unfold System.blockCurrent
  rw [h.current]
  apply giveUp_awake
  rw [(h.toDormant.modify _ h.away).wakeAll_due (by decide) ht]
  exact nofun

theorem Resting.ticks (h : Resting c 5 u t s) {r : ℕ} (hr : r ≤ 4) (ht : t+r < 4294967296) :
    Resting c (5-r) u (t+r) (run s (List.replicate r .tick)) := by
  induction r with
  | zero => exact h
  | succ r ih =>
    have hbefore := ih (by omega) (by omega)
    have hrun : run s (List.replicate (r+1) .tick) =
        (run s (List.replicate r .tick)).tick := by
      rw [List.replicate_succ', run, List.foldl_append]
      rfl
    rw [hrun]
    exact hbefore.tick (by omega) (by omega) (by omega)

/-- Thread 0 idles until the thread is due at the end of a quantum. -/
theorem Resting.idles {n : ℕ} (h : Resting 0 q u t s) (hq : 1 ≤ q) (hqq : q ≤ 5)
    (hn : 1 ≤ n) (hphase : n%5 = q%5) (ht : t+n = u) (hu : u < 4294967296) :
    ((run s (List.replicate n .tick)).threads 1).state ≠ .sleeping := by
  induction n generalizing q t s with
  | zero => omega
  | succ n ih =>
    rw [List.replicate_succ]
    change ((run s.tick (List.replicate n .tick)).threads 1).state ≠ .sleeping
    by_cases hlast : q = 1
    · subst hlast
      by_cases hzero : n = 0
      · subst hzero
        exact h.tick_due ht hu
      · exact ih (h.tick_again (by omega) hu) (by omega) (by omega) (by omega) (by omega)
          (by omega)
    · exact ih (h.tick (by omega) hqq (by omega)) (by omega) (by omega) (by omega) (by omega)
        (by omega)

theorem allowed_ticks (s : System) (n : ℕ) : AllowedRun s (List.replicate n .tick) := by
  induction n generalizing s with
  | zero => trivial
  | succ n ih => exact ⟨trivial, ih _⟩

theorem allowedRun_append {as bs : List Step} (h : AllowedRun s as) (h' : AllowedRun (run s as) bs) :
    AllowedRun s (as++bs) := by
  induction as generalizing s with
  | nil => exact h'
  | cons a as ih => exact ⟨h.1, ih h.2 h'⟩

theorem run_append (s : System) (as bs : List Step) : run s (as++bs) = run (run s as) bs :=
  List.foldl_append

theorem run_nil (s : System) : run s [] = s := rfl

theorem run_cons (s : System) (a : Step) (as : List Step) : run s (a::as) = run (step s a) as :=
  rfl

/-- A run that wakes the thread at the tick it is due. -/
theorem Resting.wakes {n : ℕ} (h : Resting c 5 u t s) (hc : c ≠ 0) (hn : 1 ≤ n) (ht : t+n = u)
    (hu : u < 4294967296) : ∃ after, AllowedRun s after ∧ after.count Step.tick = n ∧
      ((run s after).threads 1).state ≠ .sleeping := by
  have hfirst := h.ticks (show n%5 ≤ 4 by omega) (by omega)
  have hblock : AllowedRun (run s (List.replicate (n%5) .tick))
      (.block 0::List.replicate (n/5*5) .tick) := by
    constructor
    · change System.currentTid _ ≠ 0
      rw [hfirst.current]
      exact hc
    · exact allowed_ticks _ _
  have hcount : (List.replicate (n%5) Step.tick++
      Step.block 0::List.replicate (n/5*5) Step.tick).count Step.tick = n := by
    rw [List.count_append, List.count_cons_of_ne (by decide), List.count_replicate_self,
      List.count_replicate_self]
    omega
  refine ⟨_, allowedRun_append (allowed_ticks s (n%5)) hblock, hcount, ?_⟩
  rw [run_append, run_cons, step]
  by_cases hdue : n/5 = 0
  · have hlast := hfirst.block_due (by omega)
    rw [hdue, Nat.zero_mul, List.replicate_zero, run_nil]
    exact hlast
  · have hblocked := hfirst.block hc (by omega)
    have hphase : n/5*5%5 = 5%5 := by omega
    have hend : t+n%5+n/5*5 = u := by omega
    exact hblocked.idles (by decide) (le_refl 5) (by omega) hphase hend hu

end Idling

section Counting

variable {s : System}

/-- The same system at another tick count. -/
def setTicks (s : System) (t : ℕ) : System := { s with ticks := t }

theorem setTicks_current (s : System) (t : ℕ) : (setTicks s t).currentTid = s.currentTid := rfl

theorem setTicks_threads (s : System) (t : ℕ) : (setTicks s t).threads = s.threads := rfl

theorem setTicks_ticks (s : System) (t : ℕ) : (setTicks s t).ticks = t := rfl

/-- Nobody sleeps and nobody ended: the tick count is not looked at. -/
def Wakeful (s : System) : Prop :=
  ∀ j < 32, (s.threads j).state ≠ .terminated ∧ (s.threads j).state ≠ .sleeping

instance (s : System) : Decidable (Wakeful s) :=
  inferInstanceAs (Decidable (∀ j < 32,
    (s.threads j).state ≠ .terminated ∧ (s.threads j).state ≠ .sleeping))

theorem wakeAll_wakeful (h : Wakeful s) (t : ℕ) : (setTicks s t).wakeAll = setTicks s t :=
  wakeAll_rest fun j hj => ⟨(h j hj).1, fun hs => absurd hs (h j hj).2⟩

/-- The thread that is switched to, before the address space. -/
def entered (s : System) (next : ℕ) : System :=
  { s with currentTid := next, switchedTo := (s.threads next).state::s.switchedTo }.modify next
    fun t => { t with state := .running, quantumRemaining := 5 }

theorem switchTo_eq (s : System) (next : ℕ) : s.switchTo next =
    if ((entered s next).threads next).pageDirectoryPhys ≠
        ((entered s next).threads s.currentTid).pageDirectoryPhys then
      (entered s next).switchAddressSpace ((entered s next).threads next).pageDirectoryPhys
    else entered s next := rfl

theorem switchTo_setTicks (s : System) (next t : ℕ) :
    (setTicks s t).switchTo next = setTicks (s.switchTo next) t := by
  have hentered : entered (setTicks s t) next = setTicks (entered s next) t := rfl
  rw [switchTo_eq, switchTo_eq, hentered, setTicks_threads, setTicks_current]
  split_ifs
  · rfl
  · rfl

theorem pickNextThread_setTicks (h : Wakeful s) (t : ℕ) :
    (setTicks s t).pickNextThread = (s.pickNextThread.1, setTicks s.pickNextThread.2 t) := by
  have hhere : s.wakeAll = s := wakeAll_wakeful h s.ticks
  have hbest : (setTicks s t).bestReady = s.bestReady := rfl
  unfold System.pickNextThread
  rw [wakeAll_wakeful h t, hhere]
  dsimp only
  rw [hbest, setTicks_threads, setTicks_current]
  split_ifs <;> rfl

theorem reschedule_setTicks (h : Wakeful s) (t : ℕ) :
    (setTicks s t).reschedule = setTicks s.reschedule t := by
  unfold System.reschedule
  rw [pickNextThread_setTicks h t]
  generalize s.pickNextThread = p
  dsimp only
  rw [switchTo_setTicks]
  have hcases (next : ℕ) (x : System) : (if next = (setTicks x t).currentTid ∧
      ((setTicks x t).threads (setTicks x t).currentTid).state = .ready then
      (setTicks x t).modify (setTicks x t).currentTid fun t =>
        { t with state := .running, quantumRemaining := 5 }
      else if next = (setTicks x t).currentTid then setTicks x t
      else setTicks (x.switchTo next) t) =
      setTicks (if next = x.currentTid ∧ (x.threads x.currentTid).state = .ready then
        x.modify x.currentTid fun t => { t with state := .running, quantumRemaining := 5 }
      else if next = x.currentTid then x else x.switchTo next) t := by
    rw [setTicks_threads, setTicks_current]
    split_ifs <;> rfl
  exact hcases p.1 p.2

theorem age_setTicks (s : System) (t : ℕ) : (setTicks s t).age = setTicks s.age t := by
  have hcount : (setTicks s t).agingCounter = s.agingCounter := rfl
  unfold System.age
  rw [hcount]
  split_ifs <;> rfl

theorem wakeful_spent (h : Wakeful s) : Wakeful (spent s) := by
  intro j hj
  rw [(spent_thread s j).1]
  exact h j hj

/-- The tick count passes through a tick. -/
theorem tick_setTicks (h : Wakeful s) (hrun : (s.threads s.currentTid).state = .running) (t : ℕ) :
    (setTicks s t).tick = setTicks s.tick (u32 (t+1)) := by
  have hspent : spent (setTicks s t) = setTicks (spent s) (u32 (t+1)) := by
    have hage := age_setTicks { s with ticks := u32 (s.ticks+1) } (u32 (t+1))
    unfold spent
    exact congrArg (fun x => System.modify x s.currentTid _) hage
  have hready : Wakeful ((spent s).modify s.currentTid fun t =>
      { t with state := .ready, quantumRemaining := 5 }) := by
    intro j hj
    by_cases hc : j = s.currentTid
    · rw [hc, modify_same]
      exact ⟨nofun, nofun⟩
    · rw [modify_ne _ _ hc]
      exact wakeful_spent h j hj
  have hmodify : (setTicks (spent s) (u32 (t+1))).modify s.currentTid (fun t =>
      { t with state := .ready, quantumRemaining := 5 }) = setTicks ((spent s).modify s.currentTid
        fun t => { t with state := .ready, quantumRemaining := 5 }) (u32 (t+1)) := rfl
  have hlate := reschedule_setTicks hready (u32 (t+1))
  rw [tick_eq hrun, tick_eq (s := setTicks s t) hrun, hspent, setTicks_current, hmodify,
    setTicks_threads, hlate]
  split_ifs
  · rfl
  · rfl

theorem threadCreate_setTicks (s : System) (priority t : ℕ) :
    (setTicks s t).threadCreate priority = setTicks (s.threadCreate priority) t := by
  have hfind : (setTicks s t).findUnused = s.findUnused := rfl
  unfold System.threadCreate
  rw [hfind]
  cases s.findUnused with
  | none => rfl
  | some tid => rfl

end Counting

/-- Two threads are created, and the first of them gets the processor. -/
def twoSteps : List Step := [.create 1, .create 1, .tick, .tick, .tick, .tick, .tick]

def two (ticks : ℕ) : System := System.threadInit 1 ticks fun _ _ => noMessage

/-- Before each tick a thread runs and nobody sleeps; where the created threads stand after the
last one. -/
theorem two_stand : (∀ n < 5, Wakeful (ticks (((two 0).threadCreate 1).threadCreate 1) n) ∧
      (let s := ticks (((two 0).threadCreate 1).threadCreate 1) n
       (s.threads s.currentTid).state = .running)) ∧
    (∀ j < 32, ((run (two 0) twoSteps).threads j).state =
      if j = 0 then .ready else if j = 1 then .running else if j = 2 then .ready else .unused) ∧
    (run (two 0) twoSteps).currentTid = 1 ∧
    ((run (two 0) twoSteps).threads 0).priority = 128 ∧
    ((run (two 0) twoSteps).threads 2).priority = 1 := by decide +kernel

theorem two_run {count : ℕ} (h : count < 4294967296) :
    run (two ((count+4294967291)%4294967296)) twoSteps =
      setTicks (run (two 0) twoSteps) count := by
  have htick (n t : ℕ) (hn : n < 5) :
      (setTicks (ticks (((two 0).threadCreate 1).threadCreate 1) n) t).tick =
        setTicks (ticks (((two 0).threadCreate 1).threadCreate 1) (n+1)) (u32 (t+1)) := by
    obtain ⟨hwakeful, hrunning⟩ := two_stand.1 n hn
    rw [ticks_succ]
    exact tick_setTicks hwakeful hrunning t
  have hstart (t : ℕ) : ((two t).threadCreate 1).threadCreate 1 =
      setTicks (ticks (((two 0).threadCreate 1).threadCreate 1) 0) t := by
    have h0 : two t = setTicks (two 0) t := rfl
    rw [h0, threadCreate_setTicks, threadCreate_setTicks]
    rfl
  have hcount : u32 (u32 (u32 (u32 (u32 ((count+4294967291)%4294967296+1)+1)+1)+1)+1) = count := by
    unfold u32
    omega
  have hrun (s : System) : run s twoSteps =
      ((s.threadCreate 1).threadCreate 1).tick.tick.tick.tick.tick := by
    have hcreate (x : System) : step x (.create 1) = x.threadCreate 1 := rfl
    have htick (x : System) : step x .tick = x.tick := rfl
    simp only [twoSteps, run_cons, hcreate, htick]
    rw [run_nil]
  have hnone (s : System) : ticks s 0 = s := rfl
  have hfive (s : System) : ticks s 5 = s.tick.tick.tick.tick.tick := by
    rw [ticks_succ s 4, ticks_succ s 3, ticks_succ s 2, ticks_succ s 1, ticks_succ s 0, hnone]
  rw [hrun, hrun (two 0), hstart, htick 0 _ (by decide), htick 1 _ (by decide),
    htick 2 _ (by decide), htick 3 _ (by decide), htick 4 _ (by decide), hcount, hfive]

/-- The length of a sleep in ticks, as `sleep_current` computes it. -/
def sleepTicks (ms : ℕ) : ℕ := if u32 (ms*100)/1000 = 0 then 1 else u32 (ms*100)/1000

theorem dueTick_eq (ms count : ℕ) : dueTick ms count = u32 (count+sleepTicks ms) := rfl

theorem sleepTicks_bounds (ms : ℕ) : 1 ≤ sleepTicks ms ∧ sleepTicks ms ≤ 4294967 := by
  unfold sleepTicks u32
  split_ifs <;> omega

/-- The product wraps exactly when the sleep is too short. -/
theorem sleepTicks_exact {ms : ℕ} (h : ms*100 < 4294967296) : sleepTicks ms = max 1 (ms/10) := by
  unfold sleepTicks
  rw [u32_of_lt h]
  split_ifs <;> omega

theorem sleepTicks_iff (ms : ℕ) : max 1 (ms/10) ≤ sleepTicks ms ↔ ms*100 < 4294967296 := by
  constructor
  · intro h
    by_contra hwrap
    have hquotient : 1 ≤ ms*100/4294967296 := Nat.div_pos (by omega) (by decide)
    have hrest : u32 (ms*100) ≤ ms*100-4294967296 := by
      unfold u32
      omega
    unfold sleepTicks at h
    split_ifs at h <;> omega
  · intro h
    rw [sleepTicks_exact h]

/-- The first created thread goes to sleep, and the second one runs. -/
theorem two_sleeps {ms count : ℕ} (hlater : count < dueTick ms count) :
    Resting 2 5 (dueTick ms count) count
      ((setTicks (run (two 0) twoSteps) count).sleepCurrent ms) := by
  have hstates := two_stand.2
  generalize run (two 0) twoSteps = x at hstates
  obtain ⟨hstate, hcur, hzero, htwo⟩ := hstates
  have hslept := dormant_slept (setTicks x count) ms (by
    change x.currentTid ≠ 0
    rw [hcur]
    decide)
  have hnow : (setTicks x count).ticks = count := rfl
  have hfirst : (setTicks x count).currentTid = 1 := hcur
  have hother (j : ℕ) (hj : j ≠ 1) :=
    modify_ne (setTicks x count) (fun t =>
      { t with state := .sleeping, sleepUntil := dueTick ms (setTicks x count).ticks }) hj
  have hthread (j : ℕ) : (setTicks x count).threads j = x.threads j := rfl
  rw [hnow, hfirst] at hslept
  rw [hnow] at hother
  rw [sleepCurrent_eq, hnow, hfirst]
  have hleft := (modify_current (setTicks x count) 1 (fun t =>
      { t with state := .sleeping, sleepUntil := dueTick ms count })).trans hfirst
  generalize (setTicks x count).modify 1 _ = w at hslept hother hleft
  have hrest : w.wakeAll = w := by
    apply wakeAll_rest
    intro j hj
    by_cases h1 : j = 1
    · rw [h1, hslept.sleeps, hslept.due, hslept.now]
      exact ⟨nofun, fun _ => hlater⟩
    · rw [hother j h1, hthread, hstate j hj, if_neg h1]
      split_ifs
      · exact ⟨nofun, nofun⟩
      · exact ⟨nofun, nofun⟩
      · exact ⟨nofun, nofun⟩
  have hsecond : Candidate w 2 := by
    refine ⟨by decide, by rw [hleft]; decide, ?_⟩
    rw [hother 2 (by decide), hthread, hstate 2 (by decide)]
    rfl
  have hprio : (w.threads 2).priority = 1 := by rw [hother 2 (by decide), hthread, htwo]
  have hbest : w.bestReady = 2 := by
    obtain ⟨⟨hlt, hne, hready⟩, hpri⟩ := bestReady_first hsecond (by rw [hprio]; decide)
    rw [hleft] at hne
    rw [hother _ hne, hthread, hstate _ hlt, if_neg hne] at hready
    rw [hprio, hother _ hne, hthread] at hpri
    by_cases h0 : w.bestReady = 0
    · rw [h0, hzero] at hpri
      omega
    · rw [if_neg h0] at hready
      by_contra h2
      rw [if_neg h2] at hready
      cases hready
  have hpick : w.pickNextThread = (2, w) := by
    unfold System.pickNextThread
    rw [hrest]
    dsimp only
    rw [hbest, if_neg fun hboth => absurd hboth.1 (by decide)]
  unfold System.giveUp
  rw [hpick]
  dsimp only
  rw [hleft, if_pos (by decide)]
  constructor
  · exact (hslept.switchTo (show 2 ≠ 1 by decide)).toDormant
  · exact (switchTo_states w 2).1
  · exact (switchTo_states w 2).2.2.1
  · rw [switchTo_threads, if_pos rfl]
  · intro j hj h2 h1
    rw [switchTo_threads, if_neg h2, hother j h1, hthread, hstate j hj, if_neg h1, if_neg h2]
    split_ifs with h0
    · exact .inl ⟨rfl, h0⟩
    · exact .inr (.inl rfl)

theorem two_allowed (ticks : ℕ) : AllowedRun (two ticks) twoSteps :=
  ⟨trivial, trivial, trivial, trivial, trivial, trivial, trivial, trivial⟩

/-- What the property says of the created threads. -/
theorem two_never_early {ms count : ℕ} (h : NeverEarly ms count) (hcount : count < 4294967296)
    (after : List Step)
    (hafter : AllowedRun ((setTicks (run (two 0) twoSteps) count).sleepCurrent ms) after)
    (hticks : after.count Step.tick < max 1 (ms/10)) :
    ((run ((setTicks (run (two 0) twoSteps) count).sleepCurrent ms) after).threads 1).state =
      .sleeping := by
  have hcur := (setTicks_current (run (two 0) twoSteps) count).trans two_stand.2.2.1
  have hrun := two_run hcount
  have hearly := h 1 ((count+4294967291)%4294967296) (fun _ _ => noMessage) twoSteps after
    (Nat.mod_lt _ (by decide)) (two_allowed _)
  change (run (two _) twoSteps).ticks = count → (run (two _) twoSteps).currentTid ≠ 0 →
    AllowedRun ((run (two _) twoSteps).sleepCurrent ms) after → _ →
    ((run ((run (two _) twoSteps).sleepCurrent ms) after).threads
      (run (two _) twoSteps).currentTid).state = _ at hearly
  rw [hrun, hcur] at hearly
  exact hearly rfl (by decide) hafter hticks

/-- A sleep never ends early exactly if neither the product nor the sum wraps. -/
theorem never_early_iff (ms count : UInt32) : NeverEarly ms.toNat count.toNat ↔
    ms.toNat*100 < 4294967296 ∧ count.toNat+max 1 (ms.toNat/10) < 4294967296 := by
  have hcount : count.toNat < 4294967296 := count.toNat_lt
  generalize ms.toNat = m, count.toNat = n at *
  constructor
  · intro h
    have hbounds := sleepTicks_bounds m
    by_cases hwrap : n+sleepTicks m < 4294967296
    · have hdue : dueTick m n = n+sleepTicks m := (dueTick_eq m n).trans (u32_of_lt hwrap)
      have hresting := two_sleeps (show n < dueTick m n by omega)
      obtain ⟨after, hallowed, hticks, hawake⟩ :=
        hresting.wakes (by decide) hbounds.1 hdue.symm (by omega)
      have hlong : max 1 (m/10) ≤ sleepTicks m := by
        by_contra hshort
        exact hawake (two_never_early h hcount after hallowed (by omega))
      have hms := (sleepTicks_iff m).mp hlong
      exact ⟨hms, sleepTicks_exact hms ▸ hwrap⟩
    · have hdue : dueTick m n ≤ n := by
        rw [dueTick_eq]
        unfold u32
        omega
      have hnow := setTicks_ticks (run (two 0) twoSteps) n
      have hcur := (setTicks_current (run (two 0) twoSteps) n).trans two_stand.2.2.1
      have hslept := dormant_slept (setTicks (run (two 0) twoSteps) n) m (by rw [hcur]; decide)
      have hawake := two_never_early h hcount [] trivial (by simp)
      rw [hnow, hcur] at hslept
      rw [run_nil, sleepCurrent_eq, hnow, hcur] at hawake
      refine absurd hawake (giveUp_awake ?_)
      rw [hslept.wakeAll_due (by decide) hdue]
      exact nofun
  · exact fun h => never_early_of h.1 h.2

/-- Five seconds before the tick count wraps, and twelve hours at any time, end at once. -/
theorem sleeps_end_early : ¬NeverEarly 5000 4294967196 ∧ ¬NeverEarly 42949673 5 := by
  constructor
  · intro h
    have hsleeps := h 1 4294967191 (fun _ _ => noMessage) twoSteps []
      (by decide) (two_allowed _) (by decide +kernel) (by decide +kernel) trivial (by decide)
    exact absurd hsleeps (by decide +kernel)
  · intro h
    have hsleeps := h 1 0 (fun _ _ => noMessage) twoSteps [.tick, .tick, .tick, .tick, .tick]
      (by decide) (two_allowed _) (by decide +kernel) (by decide +kernel)
      ⟨trivial, trivial, trivial, trivial, trivial, trivial⟩ (by decide)
    exact absurd hsleeps (by decide +kernel)

end Vlsmc.SleepDurations
