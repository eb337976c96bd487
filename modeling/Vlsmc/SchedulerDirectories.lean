import Vlsmc.SchedulerRuns

/-!
# The loaded address space

Which directory is in CR3 when threads are switched, started and replaced. The
scheduler follows the current thread and tears down other threads' directories
only; `sys_exit` and `sys_exec` tear down the caller's own while it is loaded.
-/

set_option autoImplicit false

namespace Vlsmc.SchedulerDirectories
open Vlsmc.Words Vlsmc.Scheduler Vlsmc.SchedulerRuns

inductive Action where
  | sched (a : Step)
  | exec (newDir : ℕ)
  | elfEntry (newDir : ℕ)
  deriving DecidableEq, Repr

def act (s : System) : Action → System
  | .sched a => step s a
  | .exec newDir => s.sysExec newDir
  | .elfEntry newDir => s.elfThreadEntry newDir

def runActions (s : System) (as : List Action) : System := as.foldl act s

/-- What `create_address_space` and `clone_directory` return: nothing, or a frame
that no thread uses as its directory. -/
def FreshDir (s : System) (dir : ℕ) : Prop :=
  dir = 0 ∨ dir ≠ s.kernelDirectoryPhys ∧ ∀ i < 32, (s.threads i).pageDirectoryPhys ≠ dir

/-- The current thread has no address space of its own. -/
def OnKernelDirectory (s : System) : Prop :=
  (s.threads s.currentTid).pageDirectoryPhys = s.kernelDirectoryPhys ∨
    (s.threads s.currentTid).pageDirectoryPhys = 0

/-- Thread 0 only runs the idle loop of `kernel_main`. -/
def AllowedAction (s : System) : Action → Prop
  | .sched a => Allowed s a
  | .exec _ | .elfEntry _ => True

/-- New directories are fresh, and only threads without an address space of their
own exit or replace it. -/
def Careful (s : System) : Action → Prop
  | .sched (.fork newDir) => FreshDir s newDir
  | .sched (.exit _) => OnKernelDirectory s
  | .sched _ => True
  | .exec newDir => FreshDir s newDir ∧ OnKernelDirectory s
  | .elfEntry newDir => FreshDir s newDir

def CarefulRun (s : System) : List Action → Prop
  | [] => True
  | a::as => (AllowedAction s a ∧ Careful s a) ∧ CarefulRun (act s a) as

instance (s : System) (dir : ℕ) : Decidable (FreshDir s dir) := inferInstanceAs (Decidable (_ ∨ _))

instance (s : System) : Decidable (OnKernelDirectory s) := inferInstanceAs (Decidable (_ ∨ _))

instance (s : System) (a : Action) : Decidable (AllowedAction s a) := by
  rcases a with (_ | _ | _ | _ | _ | _ | _ | _ | _) | _ | _ <;>
    unfold AllowedAction <;> first | infer_instance | (unfold Allowed; infer_instance)

instance (s : System) (a : Action) : Decidable (Careful s a) := by
  rcases a with (_ | _ | _ | _ | _ | _ | _ | _ | _) | _ | _ <;> unfold Careful <;> infer_instance

instance CarefulRun.decidable (s : System) : (as : List Action) → Decidable (CarefulRun s as)
  | [] => isTrue trivial
  | a::as =>
    have := CarefulRun.decidable (act s a) as
    inferInstanceAs (Decidable ((AllowedAction s a ∧ Careful s a) ∧ CarefulRun (act s a) as))

/-- CR3 holds the current thread's directory, and no directory was torn down while
it was loaded. -/
def Loaded (s : System) : Prop :=
  s.currentDirectoryPhys = (s.threads s.currentTid).pageDirectoryPhys ∧ s.tornDownLoaded = false

instance (s : System) : Decidable (Loaded s) := inferInstanceAs (Decidable (_ ∧ _))

/-- `Loaded`, and directories of their own are not shared by threads. -/
structure Directories (s : System) : Prop where
  loaded : s.currentDirectoryPhys = (s.threads s.currentTid).pageDirectoryPhys
  safe : s.tornDownLoaded = false
  current : s.currentTid < 32
  own : ∀ i < 32, ∀ j < 32, i ≠ j → (s.threads i).pageDirectoryPhys = (s.threads j).pageDirectoryPhys →
    (s.threads i).pageDirectoryPhys = s.kernelDirectoryPhys ∨
      (s.threads i).pageDirectoryPhys = 0

variable {s s' : System}

/-- The parts of the state that concern directories. -/
structure SameDirectories (s s' : System) : Prop where
  dirs : ∀ i, (s'.threads i).pageDirectoryPhys = (s.threads i).pageDirectoryPhys
  tid : s'.currentTid = s.currentTid
  loaded : s'.currentDirectoryPhys = s.currentDirectoryPhys
  kernel : s'.kernelDirectoryPhys = s.kernelDirectoryPhys
  torn : s'.tornDownLoaded = s.tornDownLoaded

theorem Directories.same (h : Directories s) (hs : SameDirectories s s') : Directories s' := by
  refine ⟨?_, ?_, ?_, ?_⟩
  · rw [hs.loaded, hs.tid, hs.dirs, h.loaded]
  · rw [hs.torn, h.safe]
  · rw [hs.tid]
    exact h.current
  · intro i hi j hj hij he
    rw [hs.dirs, hs.dirs] at he
    rw [hs.dirs, hs.kernel]
    exact h.own i hi j hj hij he

theorem SameDirectories.refl (s : System) : SameDirectories s s :=
  ⟨fun _ => rfl, rfl, rfl, rfl, rfl⟩

theorem SameDirectories.trans {s'' : System} (h : SameDirectories s s')
    (h' : SameDirectories s' s'') : SameDirectories s s'' where
  dirs i := (h'.dirs i).trans (h.dirs i)
  tid := h'.tid.trans h.tid
  loaded := h'.loaded.trans h.loaded
  kernel := h'.kernel.trans h.kernel
  torn := h'.torn.trans h.torn

/-- Changing a thread but not its directory. -/
theorem same_modify (s : System) (i : ℕ) {f : Thread → Thread}
    (hf : (f (s.threads i)).pageDirectoryPhys = (s.threads i).pageDirectoryPhys) :
    SameDirectories s (s.modify i f) := by
  refine ⟨fun j => ?_, rfl, rfl, rfl, rfl⟩
  by_cases hj : j = i
  · rw [hj, modify_same, hf]
  · rw [modify_ne _ _ hj]

theorem same_setState (s : System) (i : ℕ) (state : ThreadState) :
    SameDirectories s (s.setState i state) := same_modify s i rfl

theorem same_setCount (s : System) (n : ℤ) : SameDirectories s (s.setCount n) :=
  ⟨fun _ => rfl, rfl, rfl, rfl, rfl⟩

theorem same_unblock (s : System) (tid : ℤ) : SameDirectories s (s.unblock tid) := by
  unfold System.unblock
  split
  · exact .refl s
  split
  · exact same_modify s _ rfl
  · exact .refl s

theorem same_age (s : System) : SameDirectories s s.age := by
  unfold System.age
  split
  · exact ⟨fun _ => rfl, rfl, rfl, rfl, rfl⟩
  · refine ⟨fun i => ?_, rfl, rfl, rfl, rfl⟩
    dsimp only
    split <;> rfl

/-- A thread without a directory of its own drops none. -/
theorem dropDirectory_kernel {i : ℕ}
    (h : (s.threads i).pageDirectoryPhys = s.kernelDirectoryPhys ∨
      (s.threads i).pageDirectoryPhys = 0) : s.dropDirectory i = s := by
  unfold System.dropDirectory
  dsimp only
  rw [if_neg (by tauto)]

/-- Another thread's directory is not the loaded one. -/
theorem dropDirectory_directories (h : Directories s) {i : ℕ} (hi : i ≠ s.currentTid)
    (hlt : i < 32) : Directories (s.dropDirectory i) ∧ (s.dropDirectory i).currentTid = s.currentTid := by
  by_cases hk : (s.threads i).pageDirectoryPhys = s.kernelDirectoryPhys ∨
      (s.threads i).pageDirectoryPhys = 0
  · rw [dropDirectory_kernel hk]
    exact ⟨h, rfl⟩
  push Not at hk
  have hne : (s.threads i).pageDirectoryPhys ≠ s.currentDirectoryPhys := by
    intro he
    rw [h.loaded] at he
    rcases h.own i hlt _ h.current hi he with hc | hc
    · exact hk.1 hc
    · exact hk.2 hc
  unfold System.dropDirectory System.destroyAddressSpace
  dsimp only
  rw [if_pos hk, if_neg hk.2, if_neg hk.1]
  refine ⟨⟨?_, ?_, h.current, ?_⟩, rfl⟩
  · have hcur := modify_ne { s with
        tornDownLoaded := s.tornDownLoaded ||
          (s.threads i).pageDirectoryPhys == s.currentDirectoryPhys }
      (fun t => { t with pageDirectoryPhys := s.kernelDirectoryPhys }) (Ne.symm hi)
    exact h.loaded.trans (congrArg Thread.pageDirectoryPhys hcur).symm
  · show (s.tornDownLoaded || _) = false
    rw [h.safe, Bool.false_or, beq_eq_false_iff_ne]
    exact hne
  · intro j hj32 k hk32 hjk he
    by_cases hj : j = i
    · subst hj
      rw [modify_same]
      exact .inl rfl
    rw [modify_ne _ _ hj] at he ⊢
    by_cases hki : k = i
    · subst hki
      rw [modify_same] at he
      exact .inl he
    · rw [modify_ne _ _ hki] at he
      exact h.own j hj32 k hk32 hjk he

theorem wake_directories (h : Directories s) {i : ℕ} (hlt : i < 32) :
    Directories (s.wake i) ∧ (s.wake i).currentTid = s.currentTid := by
  have hclean : Directories (if (s.threads i).state = .terminated ∧ i ≠ s.currentTid then
      s.threadCleanup i else s) ∧ (if (s.threads i).state = .terminated ∧ i ≠ s.currentTid then
      s.threadCleanup i else s).currentTid = s.currentTid := by
    split
    · next hc =>
      obtain ⟨hd, ht⟩ := dropDirectory_directories h hc.2 hlt
      exact ⟨(hd.same (same_setState _ i _)).same (same_setCount _ _), ht⟩
    · exact ⟨h, rfl⟩
  unfold System.wake
  dsimp only
  generalize (if (s.threads i).state = .terminated ∧ i ≠ s.currentTid then
      s.threadCleanup i else s) = b at hclean
  split
  · exact ⟨hclean.1.same (same_modify b i rfl), hclean.2⟩
  · exact hclean

theorem wakeAll_directories (h : Directories s) :
    Directories s.wakeAll ∧ s.wakeAll.currentTid = s.currentTid := by
  unfold System.wakeAll
  have hl : ∀ i ∈ List.range 32, i < 32 := fun i hi => List.mem_range.mp hi
  generalize List.range 32 = l at hl
  induction l generalizing s with
  | nil => exact ⟨h, rfl⟩
  | cons i l ih =>
    obtain ⟨h1, h2⟩ := wake_directories h (hl i List.mem_cons_self)
    obtain ⟨h3, h4⟩ := ih h1 fun j hj => hl j (List.mem_cons_of_mem i hj)
    exact ⟨h3, h4.trans h2⟩

theorem pickNextThread_directories (h : Directories s) :
    Directories s.pickNextThread.2 ∧ s.pickNextThread.1 < 32 := by
  have hw := (wakeAll_directories h).1
  have hb : s.wakeAll.bestReady < 32 := by
    rcases bestReady_cases s.wakeAll with h0 | hc
    · rw [h0]
      decide
    · exact hc.1
  unfold System.pickNextThread
  generalize s.wakeAll = w at hw hb
  dsimp only
  split
  · exact ⟨hw, hw.current⟩
  · exact ⟨hw, hb⟩

/-- After a switch CR3 holds the directory of the thread switched to. -/
theorem switchTo_directories (h : Directories s) {next : ℕ} (hn : next < 32) :
    Directories (s.switchTo next) := by
  have hpd : ∀ i, ((s.switchTo next).threads i).pageDirectoryPhys =
      (s.threads i).pageDirectoryPhys := by
    intro i
    rw [switchTo_threads]
    split <;> rfl
  have hk : (s.switchTo next).kernelDirectoryPhys = s.kernelDirectoryPhys := by
    unfold System.switchTo
    dsimp only
    split <;> rfl
  have htid : (s.switchTo next).currentTid = next := (switchTo_states s next).1
  refine ⟨?_, ?_, by rw [htid]; exact hn, ?_⟩
  · rw [htid, hpd]
    unfold System.switchTo
    dsimp only
    split
    · rw [modify_same]
      rfl
    · next hsame =>
      rw [not_not, modify_same] at hsame
      show s.currentDirectoryPhys = _
      rw [h.loaded]
      by_cases hc : s.currentTid = next
      · rw [hc]
      · rw [modify_ne _ _ hc] at hsame
        exact hsame.symm
  · unfold System.switchTo
    dsimp only
    split <;> exact h.safe
  · intro i hi j hj hij he
    rw [hpd, hpd] at he
    rw [hpd, hk]
    exact h.own i hi j hj hij he

theorem giveUp_directories (h : Directories s) : Directories s.giveUp := by
  have hp := pickNextThread_directories h
  unfold System.giveUp
  generalize s.pickNextThread = p at hp
  dsimp only
  split
  · exact switchTo_directories hp.1 hp.2
  · exact hp.1

theorem blockCurrent_directories (h : Directories s) (channelId : ℤ) :
    Directories (s.blockCurrent channelId) := by
  unfold System.blockCurrent
  apply giveUp_directories
  exact h.same (same_modify s _ rfl)

theorem sleepCurrent_directories (h : Directories s) (ms : ℕ) :
    Directories (s.sleepCurrent ms) := by
  unfold System.sleepCurrent
  dsimp only
  generalize u32 (s.ticks+_) = wakeTick
  apply giveUp_directories
  exact h.same (same_modify s _ rfl)

theorem terminateCurrent_directories (h : Directories s) : Directories s.terminateCurrent := by
  unfold System.terminateCurrent
  apply giveUp_directories
  exact h.same (same_setState s _ _)

theorem reschedule_directories (h : Directories s) : Directories s.reschedule := by
  have hp := pickNextThread_directories h
  unfold System.reschedule
  generalize s.pickNextThread = p at hp
  dsimp only
  split
  · exact hp.1.same (same_modify _ _ rfl)
  split
  · exact hp.1
  · exact switchTo_directories hp.1 hp.2

theorem schedule_directories (h : Directories s) : Directories s.schedule := by
  have ha := h.same (same_age s)
  unfold System.schedule
  dsimp only
  split
  · split
    · exact ha.same (same_modify _ _ rfl)
    · exact reschedule_directories ((ha.same (same_modify _ _ rfl)).same (same_modify _ _ rfl))
  · exact reschedule_directories ha

theorem tick_directories (h : Directories s) : Directories s.tick := by
  unfold System.tick
  apply schedule_directories
  exact h.same ⟨fun _ => rfl, rfl, rfl, rfl, rfl⟩

/-- A thread gets the kernel's directory or a fresh one. -/
theorem own_modify (h : Directories s) {i dir : ℕ} {f : Thread → Thread}
    (hf : (f (s.threads i)).pageDirectoryPhys = dir)
    (hd : dir = s.kernelDirectoryPhys ∨ FreshDir s dir) :
    ∀ j < 32, ∀ k < 32, j ≠ k →
      ((s.modify i f).threads j).pageDirectoryPhys = ((s.modify i f).threads k).pageDirectoryPhys →
      ((s.modify i f).threads j).pageDirectoryPhys = s.kernelDirectoryPhys ∨
        ((s.modify i f).threads j).pageDirectoryPhys = 0 := by
  intro j hj32 k hk32 hjk he
  by_cases hj : j = i
  · subst hj
    rw [modify_same, hf] at he ⊢
    rw [modify_ne _ _ (Ne.symm hjk)] at he
    rcases hd with hd | hd | hd
    · exact .inl hd
    · exact .inr hd
    · exact absurd he.symm (hd.2 k hk32)
  rw [modify_ne _ _ hj] at he ⊢
  by_cases hk : k = i
  · subst hk
    rw [modify_same, hf] at he
    rcases hd with hd | hd | hd
    · exact .inl (he.trans hd)
    · exact .inr (he.trans hd)
    · exact absurd he (hd.2 j hj32)
  · rw [modify_ne _ _ hk] at he
    exact h.own j hj32 k hk32 hjk he

theorem modify_directories (h : Directories s) {i dir : ℕ} (hi : i ≠ s.currentTid)
    {f : Thread → Thread} (hf : (f (s.threads i)).pageDirectoryPhys = dir)
    (hd : dir = s.kernelDirectoryPhys ∨ FreshDir s dir) : Directories (s.modify i f) := by
  refine ⟨?_, h.safe, h.current, own_modify h hf hd⟩
  rw [show (s.modify i f).currentTid = s.currentTid from rfl, modify_ne _ _ (Ne.symm hi)]
  exact h.loaded

theorem unused_not_current (hs : Single s) {i : ℕ} (h : (s.threads i).state = .unused) :
    i ≠ s.currentTid := by
  intro he
  rw [he, hs.running] at h
  cases h

theorem threadCreate_directories (h : Directories s) (hs : Single s) (priority : ℕ) :
    Directories (s.threadCreate priority) := by
  unfold System.threadCreate
  cases hf : s.findUnused with
  | none => exact h
  | some tid =>
    have hi := unused_not_current hs (findUnused_some hf).2.2
    exact (modify_directories h hi rfl (.inl rfl)).same (same_setCount _ _)

theorem sysFork_directories (h : Directories s) (hs : Single s) {newDir : ℕ}
    (hd : FreshDir s newDir) : Directories (s.sysFork newDir) := by
  unfold System.sysFork
  cases hf : s.findUnused with
  | none => exact h
  | some child =>
    have hi := unused_not_current hs (findUnused_some hf).2.2
    dsimp only
    split
    · exact (h.same (same_modify s child rfl)).same (same_setState _ _ _)
    · refine Directories.same ?_ (same_setCount _ _)
      have h1 := h.same (same_modify s child (f := fun t => { t with
        state := .ready
        priority := (s.threads s.currentTid).priority
        sleepUntil := 0
        blockedChannelId := -1
        quantumRemaining := 5
        totalTicks := 0
        msgHead := 0
        msgTail := 0
        msgCount := 0
        waitingForMsg := false
        parentTid := s.currentTid
        exitCode := 0 }) rfl)
      refine modify_directories h1 hi rfl (.inr ?_)
      refine hd.imp_right fun hd => ⟨hd.1, fun i hi32 => ?_⟩
      by_cases hic : i = child
      · subst hic
        rw [modify_same]
        exact hd.2 i hi32
      · rw [modify_ne _ _ hic]
        exact hd.2 i hi32

theorem sysWait_directories (h : Directories s) : Directories s.sysWait := by
  unfold System.sysWait
  split
  · exact (h.same (same_setState s _ _)).same (same_setCount _ _)
  · split
    · exact giveUp_directories (h.same (same_modify s _ rfl))
    · exact h

/-- A thread without an address space of its own exits. -/
theorem sysExit_directories (h : Directories s) (hk : OnKernelDirectory s) (exitCode : ℕ) :
    Directories (s.sysExit exitCode) := by
  have h1 := h.same (same_modify s s.currentTid
    (f := fun t => { t with exitCode := exitCode }) rfl)
  have hdrop : (s.modify s.currentTid fun t => { t with exitCode := exitCode }).dropDirectory
      s.currentTid = s.modify s.currentTid fun t => { t with exitCode := exitCode } := by
    apply dropDirectory_kernel
    rw [modify_same]
    exact hk
  unfold System.sysExit
  dsimp only
  rw [hdrop]
  generalize (s.modify s.currentTid fun t => { t with exitCode := exitCode }) = a at h1
  split
  · apply giveUp_directories
    have h2 := h1.same (same_setState a s.currentTid .zombie)
    split
    · exact h2.same (same_unblock _ _)
    · exact h2
  · exact giveUp_directories (h1.same (same_setState a _ _))

/-- The current thread starts on a fresh directory. -/
theorem enter_directories (h : Directories s) {newDir : ℕ} (hd : FreshDir s newDir) :
    Directories (((s.modify s.currentTid fun t =>
      { t with pageDirectoryPhys := newDir }).switchAddressSpace newDir)) := by
  have hcur := modify_same s s.currentTid fun t => { t with pageDirectoryPhys := newDir }
  have hown := own_modify h (i := s.currentTid) (f := fun t => { t with pageDirectoryPhys := newDir })
    rfl (.inr hd)
  exact ⟨(congrArg Thread.pageDirectoryPhys hcur).symm, h.safe, h.current, hown⟩

theorem elfThreadEntry_directories (h : Directories s) {newDir : ℕ} (hd : FreshDir s newDir) :
    Directories (s.elfThreadEntry newDir) := by
  unfold System.elfThreadEntry
  split
  · exact h
  · exact enter_directories h hd

/-- Without an address space to tear down, `sys_exec` enters the new one as a
starting thread does. -/
theorem sysExec_kernel (newDir : ℕ) (hk : OnKernelDirectory s) :
    s.sysExec newDir = s.elfThreadEntry newDir := by
  have hkeep : (if (s.threads s.currentTid).pageDirectoryPhys ≠ s.kernelDirectoryPhys then
      s.destroyAddressSpace (s.threads s.currentTid).pageDirectoryPhys else s) = s := by
    rcases hk with hk | hk
    · rw [if_neg (not_not.mpr hk)]
    · unfold System.destroyAddressSpace
      rw [if_pos hk, ite_self]
  unfold System.sysExec
  dsimp only
  rw [hkeep]
  rfl

/-! ## Runs -/

theorem directory_single (h : Single s) (dir : ℕ) : Single ((s.modify s.currentTid fun t =>
    { t with pageDirectoryPhys := dir }).switchAddressSpace dir) := by
  have hsame : ∀ i, ((s.modify s.currentTid fun t => { t with pageDirectoryPhys := dir }).threads
      i).state = (s.threads i).state ∧ ((s.modify s.currentTid fun t =>
        { t with pageDirectoryPhys := dir }).threads i).priority = (s.threads i).priority := by
    intro i
    by_cases hi : i = s.currentTid
    · subst hi
      rw [modify_same]
      exact ⟨rfl, rfl⟩
    · rw [modify_ne _ _ hi]
      exact ⟨rfl, rfl⟩
  exact single_congr h rfl rfl (fun i _ => (hsame i).1) (hsame 0).2

theorem elfThreadEntry_single (h : Single s) (newDir : ℕ) : Single (s.elfThreadEntry newDir) := by
  unfold System.elfThreadEntry
  split
  · exact h
  · exact directory_single h newDir

theorem act_single (h : Single s) (a : Action) (ha : AllowedAction s a) (hc : Careful s a) :
    Single (act s a) := by
  cases a with
  | sched a => exact step_single h a ha
  | exec newDir =>
    show Single (s.sysExec newDir)
    rw [sysExec_kernel newDir hc.2]
    exact elfThreadEntry_single h newDir
  | elfEntry newDir => exact elfThreadEntry_single h newDir

theorem act_directories (h : Directories s) (hs : Single s) (a : Action) (ha : Careful s a) :
    Directories (act s a) := by
  cases a with
  | sched a =>
    unfold act
    cases a with
    | tick => exact tick_directories h
    | block channelId => exact blockCurrent_directories h channelId
    | unblock tid => exact h.same (same_unblock s tid)
    | sleep ms => exact sleepCurrent_directories h ms
    | terminate =>
      unfold step
      exact terminateCurrent_directories h
    | create priority => exact threadCreate_directories h hs priority
    | fork newDir => exact sysFork_directories h hs ha
    | exit exitCode => exact sysExit_directories h ha exitCode
    | wait => exact sysWait_directories h
  | exec newDir =>
    show Directories (s.sysExec newDir)
    rw [sysExec_kernel newDir ha.2]
    exact elfThreadEntry_directories h ha.1
  | elfEntry newDir => exact elfThreadEntry_directories h ha

theorem runActions_directories (h : Directories s) (hs : Single s) (as : List Action)
    (ha : CarefulRun s as) : Directories (runActions s as) := by
  induction as generalizing s with
  | nil => exact h
  | cons a as ih =>
    exact ih (act_directories h hs a ha.1.2) (act_single hs a ha.1.1 ha.1.2) ha.2

theorem threadInit_directories (kernelDirectory ticks : ℕ) (messages : ℕ → ℕ → IpcMessage) :
    Directories (System.threadInit kernelDirectory ticks messages) := by
  refine ⟨rfl, rfl, show 0 < 32 by decide, fun i _ j _ _ _ => ?_⟩
  show (if i = 0 then kernelDirectory else 0) = kernelDirectory ∨ _ = 0
  by_cases hi : i = 0
  · exact .inl (if_pos hi)
  · exact .inr (if_neg hi)

/-- In every state of a run from boot in which threads exit and replace their
address space only without one of their own, CR3 holds the current thread's
directory and no loaded directory was torn down. -/
theorem loaded_directory_current (kernelDirectory ticks : ℕ) (messages : ℕ → ℕ → IpcMessage)
    (as : List Action)
    (ha : CarefulRun (System.threadInit kernelDirectory ticks messages) as) :
    Loaded (runActions (System.threadInit kernelDirectory ticks messages) as) := by
  have h := runActions_directories (threadInit_directories kernelDirectory ticks messages)
    (threadInit_single kernelDirectory ticks messages) as ha
  exact ⟨h.loaded, h.safe⟩

/-- A thread is created, gets the processor, starts on directory 7 and forks. -/
def sampleActions : List Action :=
  [.sched (.create 5), .sched .tick, .sched .tick, .sched .tick, .sched .tick, .sched .tick,
    .elfEntry 7, .sched (.fork 9)]

theorem loaded_directory_current_fork :
    Loaded (runActions (System.threadInit 1 0 fun _ _ => noMessage) sampleActions) :=
  loaded_directory_current 1 0 (fun _ _ => noMessage) sampleActions (by decide +kernel)

/-- The same thread exits: its directory is torn down while it is loaded, and CR3
goes on pointing at it. -/
theorem exit_tears_down_loaded :
    ¬Loaded (runActions (System.threadInit 1 0 fun _ _ => noMessage)
      [.sched (.create 5), .sched .tick, .sched .tick, .sched .tick, .sched .tick, .sched .tick,
        .elfEntry 7, .sched (.exit 0)]) := by
  decide +kernel

end Vlsmc.SchedulerDirectories
