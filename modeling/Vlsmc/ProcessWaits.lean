import Vlsmc.Processes

/-!
# No thread waits for a child that cannot answer

`sys_wait` takes every slot that bears the number of the caller for a child,
also a slot that is unused by now, and only `sys_exit` wakes the parent. Where
neither is met, a thread blocked in `sys_wait` has a live child.
-/

set_option autoImplicit false

namespace Vlsmc.ProcessWaits
open Vlsmc.Words Vlsmc.Scheduler Vlsmc.SchedulerRuns Vlsmc.Processes

variable {h : History} {s s' : System} {t : Thread}

/-- Every thread that is blocked in `sys_wait` has a live child of its own. -/
def Answerable (h : History) : Prop :=
  ∀ i < 32, Waiting (h.sys.threads i) → ∃ j, Child h i j ∧ Alive (h.sys.threads j)

/-- Whoever else is blocked in `sys_wait` has a live child other than `k`. -/
def Spared (h : History) (k : ℕ) : Prop :=
  ∀ i < 32, i ≠ k → Waiting (h.sys.threads i) →
    ∃ j, j ≠ k ∧ Child h i j ∧ Alive (h.sys.threads j)

/-- No thread ends, other than by `sys_exit`, as the last live child of a thread
that waits, and `sys_wait` is called with an unreaped child or when no slot
bears the number of the caller. -/
def Careful (h : History) : Event → Prop
  | .step .wait => (∃ j, Child h h.sys.currentTid j ∧ Unreaped (h.sys.threads j)) ∨
      hasChildren h.sys = false
  | .step .terminate => Spared h h.sys.currentTid
  | .kill tid => Spared h tid.toNat
  | _ => True

def CarefulRun (h : History) : List Event → Prop
  | [] => True
  | e::es => Careful h e ∧ CarefulRun (h.step e) es

theorem carefulRun_append {before after : List Event} : CarefulRun h (before++after) ↔
    CarefulRun h before ∧ CarefulRun (h.run before) after := by
  induction before generalizing h with
  | nil => exact (and_iff_right trivial).symm
  | cons e es ih =>
    change Careful h e ∧ CarefulRun (h.step e) (es++after) ↔ (Careful h e ∧ _) ∧ _
    rw [ih, and_assoc]
    rfl

/-- With the records of `h`, the slots as in `s`. -/
theorem answerable_scheduled (ha : Answerable h) (hs : Scheduled h.sys s)
    (hb : (h.sys.threads 0).state ≠ .blocked) (exits : List (ℕ × ℕ)) (reports : List Report) :
    Answerable { h with sys := s, exits := exits, reports := reports } := by
  intro i hi hw
  have hi0 : i ≠ 0 := fun h0 => hb (hs.boot (h0 ▸ hw.1))
  obtain ⟨j, hj, hal⟩ := ha i hi ((hs.moved i hi0).waiting hw)
  exact ⟨j, hj, (hs.moved j hj.2.1).alive hal⟩

theorem changed_alive {k j : ℕ} (hs : Changed s k t s') (hj : j ≠ 0) (hal : Alive (s.threads j))
    (ht : j = k → Alive t) : Alive (s'.threads j) := by
  by_cases hjk : j = k
  · subst hjk
    exact (hs.slot hj).alive (ht rfl)
  · exact (hs.others j hj hjk).alive hal

/-- Slot `k` changes: whoever waits afterwards must have a live child. -/
theorem answerable_changed {k : ℕ} (hs : Changed h.sys k t s)
    (hb : (h.sys.threads 0).state ≠ .blocked) (hk0 : k = 0 → t.state ≠ .blocked)
    (hother : ∀ i < 32, i ≠ k → Waiting (s.threads i) → Waiting (h.sys.threads i) →
      ∃ j, Child h i j ∧ Alive (s.threads j))
    (hk : Waiting t → ∃ j, Child h k j ∧ Alive (s.threads j))
    (exits : List (ℕ × ℕ)) (reports : List Report) :
    Answerable { h with sys := s, exits := exits, reports := reports } := by
  intro i hi hw
  have hi0 : i ≠ 0 := by
    intro h0
    subst h0
    rcases hs.boot hw.1 with ⟨h1, h2⟩ | h1
    · exact hk0 h1 h2
    · exact hb h1
  by_cases hik : i = k
  · subst hik
    exact hk ((hs.slot hi0).waiting hw)
  · exact hother i hi hik hw ((hs.others i hi0 hik).waiting hw)

/-- Slot `k` ends and does not wait. -/
theorem answerable_end {k : ℕ} (hs : Changed h.sys k t s)
    (hb : (h.sys.threads 0).state ≠ .blocked) (ht : t.state ≠ .blocked)
    (hother : ∀ i < 32, i ≠ k → Waiting (s.threads i) → Waiting (h.sys.threads i) →
      ∃ j, j ≠ k ∧ Child h i j ∧ Alive (h.sys.threads j))
    (exits : List (ℕ × ℕ)) (reports : List Report) :
    Answerable { h with sys := s, exits := exits, reports := reports } := by
  refine answerable_changed hs hb (fun _ => ht) (fun i hi hik hw hw' => ?_)
    (fun hw => absurd hw.1 ht) _ _
  obtain ⟨j, hjk, hj, hal⟩ := hother i hi hik hw hw'
  exact ⟨j, hj, changed_alive hs hj.2.1 hal fun he => absurd he hjk⟩

/-- The current thread blocks and stays alive. -/
theorem answerable_block (hA : Answerable h) (h0 : h.sys.currentTid ≠ 0) {channelId : ℤ}
    (hs : Changed h.sys h.sys.currentTid
      { h.sys.threads h.sys.currentTid with state := .blocked, blockedChannelId := channelId } s)
    (hb : (h.sys.threads 0).state ≠ .blocked)
    (hk : channelId = -2 → ∃ j, Child h h.sys.currentTid j ∧ Alive (h.sys.threads j)) :
    Answerable { h with sys := s } := by
  have halive : ∀ j, j ≠ 0 → Alive (h.sys.threads j) → Alive (s.threads j) := by
    intro j hj hal
    exact changed_alive hs hj hal fun _ => by simp [Alive]
  refine answerable_changed hs hb (fun he => absurd he h0) (fun i hi _ _ hw => ?_)
    (fun hw => ?_) _ _
  · obtain ⟨j, hj, hal⟩ := hA i hi hw
    exact ⟨j, hj, halive j hj.2.1 hal⟩
  · obtain ⟨j, hj, hal⟩ := hk hw.2
    exact ⟨j, hj, halive j hj.2.1 hal⟩

/-- A new process in an unused slot. -/
theorem answerable_start (hl : Linked h) (ha : Answerable h) {tid : ℕ}
    (hf : h.sys.findUnused = some tid) (hs : Changed h.sys tid t s) (ht : t.state = .ready)
    (hb : (h.sys.threads 0).state ≠ .blocked) (creator : Option ℕ) :
    Answerable { h.start tid creator with sys := s } := by
  obtain ⟨-, ht0, hun⟩ := findUnused_some hf
  intro i hi hw
  have hi0 : i ≠ 0 := by
    intro h0
    subst h0
    rcases hs.boot hw.1 with ⟨h1, -⟩ | h1
    · exact ht0 h1
    · exact hb h1
  have hit : i ≠ tid := by
    intro he
    subst he
    have := ((hs.slot hi0).waiting hw).1
    rw [ht] at this
    exact absurd this (by simp)
  obtain ⟨j, ⟨hj, hj0, hc⟩, hal⟩ := ha i hi ((hs.others i hi0 hit).waiting hw)
  have hjt : j ≠ tid := fun he => hal.2.2 (he ▸ hun)
  refine ⟨j, ⟨hj, hj0, ?_⟩, (hs.others j hj0 hjt).alive hal⟩
  have hold := hl.older j hj
  dsimp only [History.start]
  rw [if_neg hjt, if_neg hit, if_neg (by omega)]
  exact hc

theorem waiter_parent (hl : Linked h) {i j : ℕ} (hi : i < 32) (hc : Child h i j)
    (hal : Alive (h.sys.threads j)) : (h.sys.threads j).parentTid.toNat = i := by
  rw [hl.parent i hi j hc (Or.inl hal), Int.toNat_natCast]

/-- Whoever waits for the exiting thread is woken. -/
theorem answerable_exit (hl : Linked h) (hA : Answerable h) (h0 : h.sys.currentTid ≠ 0)
    (hb : (h.sys.threads 0).state ≠ .blocked) (exitCode : ℕ) (exits : List (ℕ × ℕ)) :
    Answerable { h with sys := h.sys.sysExit exitCode, exits := exits } := by
  have hr := hl.running
  have hcur : Alive (h.sys.threads h.sys.currentTid) := by simp [Alive, hr.2 h0]
  obtain ⟨-, ⟨-, hs, hw⟩ | ⟨hz, hs⟩⟩ := sysExit_spec hr.1 exitCode
  · refine answerable_end hs hb (by simp) (fun i hi hik hwi hwi' => ?_) _ _
    obtain ⟨j, hj, hal⟩ := hA i hi hwi'
    refine ⟨j, fun hjc => ?_, hj, hal⟩
    rw [hjc] at hj
    have hi0 : i ≠ 0 := fun he => hb (he ▸ hwi'.1)
    rw [waiter_parent hl hi hj hcur] at hw
    exact hw hi0 hwi
  · refine answerable_end hs hb (by simp) (fun i hi hik _ hwi' => ?_) _ _
    obtain ⟨j, hj, hal⟩ := hA i hi hwi'
    refine ⟨j, fun hjc => hz ?_, hj, hal⟩
    rw [hjc] at hj
    have hp := hl.parent i hi _ hj (Or.inl hcur)
    unfold leavesZombie
    rw [hp, Int.toNat_natCast, hwi'.1]
    exact ⟨by omega, by omega, by simp⟩

/-- A careful call of `sys_wait` that blocks has a live child. -/
theorem wait_child (hl : Linked h) (hz : zombieChild h.sys = none)
    (hh : hasChildren h.sys = true) (hc : Careful h (.step .wait)) :
    ∃ j, Child h h.sys.currentTid j ∧ Alive (h.sys.threads j) := by
  rcases hc with ⟨j, hj, hu⟩ | hc
  · have hp := hl.parent _ hl.running.1 j hj hu
    exact ⟨j, hj, hu.resolve_right (zombieChild_none hz hj.1 hj.2.1 hp)⟩
  · rw [hh] at hc
    exact absurd hc (by simp)

theorem answerable_step (hl : Linked h) (hA : Answerable h) (e : Event) (ha : Allowed h.sys e)
    (hc : Careful h e) : Answerable (h.step e) := by
  have hr := hl.running
  have hb := hl.boot
  cases e with
  | yield => exact answerable_scheduled hA (schedule_spec hr.1).1 hb _ _
  | kill tid =>
    obtain ⟨⟨hs, -⟩ | hs, -⟩ := threadTerminate_spec hr tid
    · exact answerable_scheduled hA hs hb _ _
    · exact answerable_end hs hb (by simp) (fun i hi hik _ hw => hc i hi hik hw) _ _
  | step a =>
    cases a with
    | tick => exact answerable_scheduled hA (tick_spec hr.1).1 hb _ _
    | block channelId =>
      exact answerable_block hA ha.1 (blockCurrent_spec hr.1 channelId).1 hb
        fun he => absurd he ha.2
    | unblock tid => exact answerable_scheduled hA (unblock_scheduled h.sys tid) hb _ _
    | sleep ms => exact answerable_scheduled hA (sleepCurrent_spec hr ha ms).1 hb _ _
    | terminate =>
      exact answerable_end (terminateCurrent_spec hr.1).1 hb (by simp)
        (fun i hi hik _ hw => hc i hi hik hw) _ _
    | create priority =>
      unfold History.step History.record
      cases hf : h.sys.findUnused with
      | none =>
        have hs : act h.sys (.step (.create priority)) = h.sys := threadCreate_full hf priority
        rw [hs]
        exact hA
      | some tid =>
        obtain ⟨⟨t, hs, ht⟩, -⟩ := threadCreate_spec hr hf priority
        exact answerable_start hl hA hf hs ht hb none
    | fork newDir =>
      unfold History.step History.record
      cases hf : h.sys.findUnused with
      | none =>
        have hs : act h.sys (.step (.fork newDir)) = h.sys := sysFork_full hf newDir
        rw [hs]
        exact hA
      | some tid =>
        obtain ⟨⟨t, hs, -, ht⟩, -⟩ := sysFork_spec hr hf newDir
        dsimp only
        split_ifs with hd
        · rw [if_pos hd] at ht
          refine answerable_end hs hb (by simp [ht]) (fun i hi _ _ hw => ?_) _ _
          obtain ⟨j, hj, hal⟩ := hA i hi hw
          exact ⟨j, fun he => hal.2.2 (he ▸ (findUnused_some hf).2.2), hj, hal⟩
        · rw [if_neg hd] at ht
          exact answerable_start hl hA hf hs ht hb _
    | exit exitCode => exact answerable_exit hl hA ha hb exitCode _
    | wait =>
      unfold History.step History.record
      dsimp only
      obtain ⟨-, ⟨child, hz, hs⟩ | ⟨hz, hh, hs⟩ | ⟨hz, -, hs⟩⟩ := sysWait_spec hr ha
      · rw [hz]
        refine answerable_end hs hb (by simp) (fun i hi _ _ hw => ?_) _ _
        obtain ⟨j, hj, hal⟩ := hA i hi hw
        exact ⟨j, fun he => hal.1 (he ▸ (zombieChild_some hz).2.2.2), hj, hal⟩
      · rw [hz]
        exact answerable_block hA ha hs hb fun _ => wait_child hl hz hh hc
      · rw [hz]
        have hs' : act h.sys (.step .wait) = h.sys := hs
        rw [hs']
        exact hA

theorem answerable_run (hl : Linked h) (hA : Answerable h) (events : List Event)
    (ha : AllowedRun h events) (hc : CarefulRun h events) :
    Linked (h.run events) ∧ Answerable (h.run events) := by
  induction events generalizing h with
  | nil => exact ⟨hl, hA⟩
  | cons e es ih =>
    exact ih (linked_step hl e ha.1) (answerable_step hl hA e ha.1 hc.1) ha.2 hc.2

theorem init_answerable (kernelDirectory ticks : ℕ) (messages : ℕ → ℕ → IpcMessage) :
    Answerable (History.init kernelDirectory ticks messages) := by
  intro i _ hw
  have h1 : (if i = 0 then ThreadState.running else .unused) = .blocked := hw.1
  split_ifs at h1

/-- In every run in which no thread ends, other than by `sys_exit`, as the last
live child of a thread that waits, and in which `sys_wait` is called with an
unreaped child or when no slot bears the caller's number, every thread blocked
in `sys_wait` has a live child of its own. In such a state `sys_wait` blocks
only with a live child and returns -1 when there is no unreaped child. -/
theorem waiters_have_live_child (kernelDirectory ticks : ℕ) (messages : ℕ → ℕ → IpcMessage)
    (events : List Event) (ha : AllowedRun (History.init kernelDirectory ticks messages) events)
    (hc : CarefulRun (History.init kernelDirectory ticks messages) events) (h : History)
    (hh : h = (History.init kernelDirectory ticks messages).run events) :
    (∀ i < 32, Waiting (h.sys.threads i) → ∃ j, Child h i j ∧ Alive (h.sys.threads j)) ∧
    (Careful h (.step .wait) →
      (waitResult h.sys = none →
        ∃ j, Child h h.sys.currentTid j ∧ Alive (h.sys.threads j)) ∧
      ((¬∃ j, Child h h.sys.currentTid j ∧ Unreaped (h.sys.threads j)) →
        waitResult h.sys = some (-1))) := by
  obtain ⟨hl, hA⟩ := answerable_run (init_linked kernelDirectory ticks messages)
    (init_answerable kernelDirectory ticks messages) events ha hc
  rw [← hh] at hl hA
  refine ⟨hA, fun hcw => ⟨fun hn => ?_, fun hno => ?_⟩⟩
  · unfold waitResult at hn
    cases hz : zombieChild h.sys with
    | some child =>
      rw [hz] at hn
      exact absurd hn (by simp)
    | none =>
      rw [hz] at hn
      dsimp only at hn
      split_ifs at hn with hch
      exact wait_child hl hz hch hcw
  · have hch := hcw.resolve_left hno
    unfold waitResult
    cases hz : zombieChild h.sys with
    | some child =>
      rw [hasChildren_of_zombie hz] at hch
      exact absurd hch (by simp)
    | none =>
      dsimp only
      rw [if_neg (by simp [hch])]

/-- A thread is created, gets the processor, forks and waits for its child. -/
def forkAndWait : List Event :=
  [.step (.create 5), .step .tick, .step .tick, .step .tick, .step .tick, .step .tick,
    .step (.fork 9), .step .wait]

/-- In `sys_wait` the caller has an unreaped child, and waits. It still waits when the child has
crashed, and when it has reaped the child and calls once more, but no live child is left then. -/
theorem forkAndWait_runs :
    (let h := (History.init 1 0 fun _ _ => noMessage).run (forkAndWait.take 7)
     Child h h.sys.currentTid 2 ∧ Unreaped (h.sys.threads 2)) ∧
    (∀ rest ∈ [[], [.step .terminate], [.step (.exit 7), .step .wait, .step .wait]],
      AllowedRun (History.init 1 0 fun _ _ => noMessage) (forkAndWait++rest) ∧
      Waiting (((History.init 1 0 fun _ _ => noMessage).run (forkAndWait++rest)).sys.threads 1)) ∧
    ∀ rest ∈ [[.step .terminate], [.step (.exit 7), .step .wait, .step .wait]],
      let h := (History.init 1 0 fun _ _ => noMessage).run (forkAndWait++rest)
      ∀ j < 32, ¬(Child h 1 j ∧ Alive (h.sys.threads j)) := by
  decide +kernel

theorem waiters_have_live_child_fork :
    ∃ j, Child ((History.init 1 0 fun _ _ => noMessage).run forkAndWait) 1 j ∧
      Alive (((History.init 1 0 fun _ _ => noMessage).run forkAndWait).sys.threads j) := by
  obtain ⟨hchild, hruns, -⟩ := forkAndWait_runs
  obtain ⟨ha, hwaits⟩ := hruns [] (by simp)
  rw [List.append_nil] at ha hwaits
  have hc : CarefulRun (History.init 1 0 fun _ _ => noMessage) forkAndWait :=
    (@carefulRun_append _ (forkAndWait.take 7) _).mpr
      ⟨⟨trivial, trivial, trivial, trivial, trivial, trivial, trivial, trivial⟩,
        Or.inl ⟨2, hchild⟩, trivial⟩
  exact (waiters_have_live_child 1 0 (fun _ _ => noMessage) forkAndWait ha hc _ rfl).1 1
    (by decide) hwaits

/-- The child crashes while its parent waits for it, and a parent that has
reaped its only child waits once more: both block for ever. -/
theorem waiter_hangs :
    (AllowedRun (History.init 1 0 fun _ _ => noMessage) (forkAndWait ++ [.step .terminate]) ∧
      ¬Answerable ((History.init 1 0 fun _ _ => noMessage).run
        (forkAndWait ++ [.step .terminate]))) ∧
    AllowedRun (History.init 1 0 fun _ _ => noMessage)
      (forkAndWait ++ [.step (.exit 7), .step .wait, .step .wait]) ∧
    ¬Answerable ((History.init 1 0 fun _ _ => noMessage).run
      (forkAndWait ++ [.step (.exit 7), .step .wait, .step .wait])) := by
  have hno : ∀ events, Waiting (((History.init 1 0 fun _ _ => noMessage).run events).sys.threads 1) →
      (∀ j < 32, ¬(Child ((History.init 1 0 fun _ _ => noMessage).run events) 1 j ∧
        Alive (((History.init 1 0 fun _ _ => noMessage).run events).sys.threads j))) →
      ¬Answerable ((History.init 1 0 fun _ _ => noMessage).run events) := by
    intro events hw hj hA
    obtain ⟨j, hc, hal⟩ := hA 1 (by decide) hw
    exact hj j hc.1 ⟨hc, hal⟩
  obtain ⟨-, hruns, hleft⟩ := forkAndWait_runs
  obtain ⟨hcrash, hcrashed⟩ := hruns [.step .terminate] (by simp)
  obtain ⟨hagain, hwaits⟩ := hruns [.step (.exit 7), .step .wait, .step .wait] (by simp)
  exact ⟨⟨hcrash, hno _ hcrashed (hleft _ (by simp))⟩, hagain, hno _ hwaits (hleft _ (by simp))⟩

end Vlsmc.ProcessWaits
