import Vlsmc.Processes

/-!
# Whose exit status `sys_wait` reports

`sys_exit` only looks at the slot that bears the number of the parent, and
`sys_wait` at the numbers of the children. While no orphan exits to a slot that
another process uses, and no slot is reused while a Zombie bears its number,
every report goes to the process that forked the child.
-/

set_option autoImplicit false

namespace Vlsmc.ProcessReports
open Vlsmc.Words Vlsmc.Scheduler Vlsmc.SchedulerRuns Vlsmc.Processes

variable {h : History} {s s' : System} {t : Thread}

/-- Every report went to the process that forked the child. -/
def OwnChildren (h : History) : Prop := ∀ r ∈ h.reports, h.creator r.child = some r.caller

/-- A reported status is one that the child exited with, and no child is
reported twice. -/
def Genuine (h : History) : Prop :=
  (∀ r ∈ h.reports, (r.child, r.status) ∈ h.exits) ∧ (h.reports.map Report.child).Nodup

/-- No Zombie bears the number of the slot that is taken next. -/
def SlotFree (h : History) : Prop :=
  ∀ tid, h.sys.findUnused = some tid → ∀ j < 32, j ≠ 0 → (h.sys.threads j).state = .zombie →
    (h.sys.threads j).parentTid ≠ tid

/-- A thread exits to a slot that is unused or used by its parent. -/
def Careful (h : History) : Event → Prop
  | .step (.exit _) => leavesZombie h.sys →
      Child h (h.sys.threads h.sys.currentTid).parentTid.toNat h.sys.currentTid
  | .step (.create _) => SlotFree h
  | .step (.fork _) => SlotFree h
  | _ => True

def CarefulRun (h : History) : List Event → Prop
  | [] => True
  | e::es => Careful h e ∧ CarefulRun (h.step e) es

/-- A Zombie that waits for its report. -/
structure Pending (h : History) (j : ℕ) : Prop where
  exited : (h.process j, (h.sys.threads j).exitCode) ∈ h.exits
  range : 0 ≤ (h.sys.threads j).parentTid ∧ (h.sys.threads j).parentTid < 32

/-- What holds whether or not slots are reused with care. -/
structure Recorded (h : History) : Prop where
  pending : ∀ j < 32, j ≠ 0 → (h.sys.threads j).state = .zombie → Pending h j
  gone : ∀ r ∈ h.reports, r.child < h.next ∧
    ∀ j < 32, h.process j = r.child → j ≠ 0 ∧ ¬Unreaped (h.sys.threads j)
  genuine : Genuine h

/-- The process in the slot of a Zombie's parent is the one that forked it. -/
def Owned (h : History) : Prop :=
  ∀ j < 32, j ≠ 0 → (h.sys.threads j).state = .zombie →
    h.creator (h.process j) = some (h.process (h.sys.threads j).parentTid.toNat)

theorem recorded_quiet (hr : Recorded h) (hq : Quiet h.sys s) (hc : Carried h.sys s) :
    Recorded { h with sys := s } := by
  refine ⟨fun j hj h0 hz => ?_, fun r hrep => ⟨(hr.gone r hrep).1, fun j hj he => ?_⟩, hr.genuine⟩
  · obtain ⟨h1, h2, h3⟩ := hq j h0 hz
    obtain ⟨h4, h5⟩ := hr.pending j hj h0 h1
    refine ⟨?_, ?_⟩
    · rw [← h2] at h4
      exact h4
    · rw [← h3] at h5
      exact h5
  · obtain ⟨h0, hu⟩ := (hr.gone r hrep).2 j hj he
    exact ⟨h0, fun hu' => hu (hc.slots j h0 hu').1⟩

theorem owned_quiet (ho : Owned h) (hq : Quiet h.sys s) (exits : List (ℕ × ℕ))
    (reports : List Report) : Owned { h with sys := s, exits := exits, reports := reports } := by
  intro j hj h0 hz
  obtain ⟨h1, -, h3⟩ := hq j h0 hz
  have := ho j hj h0 h1
  rw [← h3] at this
  exact this

theorem zombie_ne {tid j : ℕ} (hf : s.findUnused = some tid)
    (hz : (s.threads j).state = .zombie) : j ≠ tid := by
  intro he
  rw [he, (findUnused_some hf).2.2] at hz
  exact absurd hz (by simp)

/-- A new process in an unused slot. -/
theorem recorded_start (hr : Recorded h) {tid : ℕ}
    (hf : h.sys.findUnused = some tid) (hs : Changed h.sys tid t s) (ht : t.state = .ready)
    (creator : Option ℕ) : Recorded { h.start tid creator with sys := s } := by
  have hq := changed_quiet hs (by simp [ht])
  refine ⟨fun j hj h0 hz => ?_, fun r hrep => ⟨?_, fun j hj he => ?_⟩, hr.genuine⟩
  · obtain ⟨h1, h2, h3⟩ := hq j h0 hz
    have hjt : j ≠ tid := zombie_ne hf h1
    obtain ⟨h4, h5⟩ := hr.pending j hj h0 h1
    refine ⟨?_, ?_⟩
    · dsimp only [History.start]
      rw [if_neg hjt, h2]
      exact h4
    · dsimp only [History.start]
      rw [h3]
      exact h5
  · have := (hr.gone r hrep).1
    dsimp only [History.start]
    omega
  · dsimp only [History.start] at he
    have hlt := (hr.gone r hrep).1
    split_ifs at he with hjt
    · omega
    · obtain ⟨h0, hu⟩ := (hr.gone r hrep).2 j hj he
      exact ⟨h0, fun hu' => hu ((hs.others j h0 hjt).unreaped hu')⟩

theorem owned_start (hl : Linked h) (ho : Owned h) (hr : Recorded h) {tid : ℕ}
    (hf : h.sys.findUnused = some tid) (hs : Changed h.sys tid t s) (ht : t.state = .ready)
    (hfree : SlotFree h) (creator : Option ℕ) : Owned { h.start tid creator with sys := s } := by
  have hq := changed_quiet hs (by simp [ht])
  intro j hj h0 hz
  obtain ⟨h1, -, h3⟩ := hq j h0 hz
  have hjt : j ≠ tid := zombie_ne hf h1
  have hpt := hfree tid hf j hj h0 h1
  have hrange := (hr.pending j hj h0 h1).range
  have hold := hl.older j hj
  dsimp only [History.start]
  rw [if_neg hjt, if_neg (by omega), h3, if_neg (by omega)]
  exact ho j hj h0 h1

/-- The exiting thread becomes a Zombie or ends for good. -/
theorem exit_zombie (hc : s.currentTid < 32) (exitCode : ℕ) {j : ℕ} (h0 : j ≠ 0)
    (hz : ((s.sysExit exitCode).threads j).state = .zombie) :
    ((s.sysExit exitCode).threads j).parentTid = (s.threads j).parentTid ∧
    (j = s.currentTid ∧ leavesZombie s ∧ ((s.sysExit exitCode).threads j).exitCode = exitCode ∨
      j ≠ s.currentTid ∧ (s.threads j).state = .zombie ∧
        ((s.sysExit exitCode).threads j).exitCode = (s.threads j).exitCode) := by
  obtain ⟨-, ⟨hl, hs, -⟩ | ⟨-, hs⟩⟩ := sysExit_spec hc exitCode
  · by_cases hj : j = s.currentTid
    · subst hj
      have hm := hs.slot h0
      exact ⟨hm.parentTid, Or.inl ⟨rfl, hl, hm.exitCode⟩⟩
    · have hm := hs.others j h0 hj
      exact ⟨hm.parentTid, Or.inr ⟨hj, hm.zombie hz, hm.exitCode⟩⟩
  · by_cases hj : j = s.currentTid
    · subst hj
      have := (hs.slot h0).zombie hz
      exact absurd this (by simp)
    · have hm := hs.others j h0 hj
      exact ⟨hm.parentTid, Or.inr ⟨hj, hm.zombie hz, hm.exitCode⟩⟩

theorem recorded_exit (hl : Linked h) (hr : Recorded h) (h0 : h.sys.currentTid ≠ 0)
    (exitCode : ℕ) : Recorded (h.step (.step (.exit exitCode))) := by
  have hcur : Alive (h.sys.threads h.sys.currentTid) := by simp [Alive, hl.running.2 h0]
  have hc : Carried h.sys (h.sys.sysExit exitCode) := by
    obtain ⟨-, ⟨-, hs, -⟩ | ⟨-, hs⟩⟩ := sysExit_spec hl.running.1 exitCode
    · exact changed_carried hs (by simp) fun _ => ⟨Or.inl hcur, rfl⟩
    · exact changed_carried hs (by simp) (by simp [Unreaped, Alive])
  refine ⟨fun j hj hj0 hz => ?_, fun r hrep => ⟨(hr.gone r hrep).1, fun j hj he => ?_⟩, ?_, ?_⟩
  · obtain ⟨h1, ⟨h2, h3, h4⟩ | ⟨-, h2, h3⟩⟩ := exit_zombie hl.running.1 exitCode hj0 hz
    · subst h2
      refine ⟨?_, ?_⟩
      · change (_, ((h.sys.sysExit exitCode).threads h.sys.currentTid).exitCode) ∈ _
        rw [h4]
        exact List.mem_cons_self
      · change 0 ≤ ((h.sys.sysExit exitCode).threads _).parentTid ∧
          ((h.sys.sysExit exitCode).threads _).parentTid < 32
        rw [h1]
        exact ⟨h3.1, h3.2.1⟩
    · obtain ⟨h4, h5⟩ := hr.pending j hj hj0 h2
      refine ⟨?_, ?_⟩
      · change (_, ((h.sys.sysExit exitCode).threads j).exitCode) ∈ _
        rw [h3]
        exact List.mem_cons_of_mem _ h4
      · change 0 ≤ ((h.sys.sysExit exitCode).threads _).parentTid ∧
          ((h.sys.sysExit exitCode).threads _).parentTid < 32
        rw [h1]
        exact h5
  · obtain ⟨hj0, hu⟩ := (hr.gone r hrep).2 j hj he
    exact ⟨hj0, fun hu' => hu (hc.slots j hj0 hu').1⟩
  · intro r hrep
    exact List.mem_cons_of_mem _ (hr.genuine.1 r hrep)
  · exact hr.genuine.2

theorem owned_exit (hl : Linked h) (ho : Owned h) (exitCode : ℕ)
    (hc : Careful h (.step (.exit exitCode))) : Owned (h.step (.step (.exit exitCode))) := by
  intro j hj hj0 hz
  obtain ⟨h1, h2⟩ := exit_zombie hl.running.1 exitCode hj0 hz
  change h.creator (h.process j) =
    some (h.process ((h.sys.sysExit exitCode).threads j).parentTid.toNat)
  rw [h1]
  rcases h2 with ⟨h2, h3, -⟩ | ⟨-, h2, -⟩
  · subst h2
    exact (hc h3).2.2
  · exact ho j hj hj0 h2

/-- A child is reaped and its status reported. -/
theorem recorded_reap (hl : Linked h) (hr : Recorded h) {child : ℕ}
    (hz : zombieChild h.sys = some child)
    (hs : Changed h.sys child { h.sys.threads child with state := .unused } s) :
    Recorded { h with
      sys := s
      reports := ⟨h.current, h.process child, (h.sys.threads child).exitCode⟩::h.reports } := by
  obtain ⟨hlt, hc0, -, hst⟩ := zombieChild_some hz
  have hold := recorded_quiet hr (changed_quiet hs (by simp))
    (changed_carried hs (by simp) (by simp [Unreaped, Alive]))
  refine ⟨fun j hj hj0 hzj => ?_, fun r hrep => ?_, ?_, ?_⟩
  · obtain ⟨h1, h2⟩ := hold.pending j hj hj0 hzj
    exact ⟨h1, h2⟩
  · rcases List.mem_cons.mp hrep with rfl | hrep
    · refine ⟨hl.older child hlt, fun j hj he => ?_⟩
      have hje := hl.distinct j hj child hlt he
      subst hje
      refine ⟨hc0, fun hu => ?_⟩
      have := (hs.slot hc0).unreaped hu
      simp [Unreaped, Alive] at this
    · exact hold.gone r hrep
  · intro r hrep
    rcases List.mem_cons.mp hrep with rfl | hrep
    · exact (hr.pending child hlt hc0 hst).exited
    · exact hr.genuine.1 r hrep
  · rw [List.map_cons, List.nodup_cons]
    refine ⟨fun hmem => ?_, hr.genuine.2⟩
    obtain ⟨r, hrep, he⟩ := List.mem_map.mp hmem
    exact ((hr.gone r hrep).2 child hlt he.symm).2 (Or.inr hst)

theorem recorded_step (hl : Linked h) (hr : Recorded h) (e : Event) (ha : Allowed h.sys e) :
    Recorded (h.step e) := by
  obtain ⟨-, ⟨h1, h2, h3⟩ | ⟨tid, creator, -, h2, h3, t, h4, h5, -⟩ | ⟨exitCode, h1, h2⟩ |
    ⟨child, h1, h2, h3⟩⟩ := step_cases hl.running e ha
  · unfold History.step
    rw [h1]
    exact recorded_quiet hr h2 h3
  · unfold History.step
    rw [h3]
    exact recorded_start hr h2 h4 h5 creator
  · subst h1
    exact recorded_exit hl hr h2 exitCode
  · subst h1
    unfold History.step History.record
    dsimp only
    rw [h2]
    exact recorded_reap hl hr h2 h3

theorem owned_step (hl : Linked h) (hr : Recorded h) (ho : Owned h) (hown : OwnChildren h)
    (e : Event) (ha : Allowed h.sys e) (hc : Careful h e) :
    Owned (h.step e) ∧ OwnChildren (h.step e) := by
  obtain ⟨-, ⟨h1, h2, -⟩ | ⟨tid, creator, h1, h2, h3, t, h4, h5, -⟩ | ⟨exitCode, h1, -⟩ |
    ⟨child, h1, h2, h3⟩⟩ := step_cases hl.running e ha
  · unfold History.step
    rw [h1]
    exact ⟨owned_quiet ho h2 _ _, hown⟩
  · have hfree : SlotFree h := by
      rcases h1 with ⟨priority, rfl⟩ | ⟨newDir, rfl⟩
      · exact hc
      · exact hc
    unfold History.step
    rw [h3]
    refine ⟨owned_start hl ho hr h2 h4 h5 hfree creator, fun r hrep => ?_⟩
    have hlt := (hr.gone r hrep).1
    dsimp only [History.start]
    rw [if_neg (by omega)]
    exact hown r hrep
  · subst h1
    exact ⟨owned_exit hl ho exitCode hc, hown⟩
  · subst h1
    obtain ⟨hlt, hc0, hp, hst⟩ := zombieChild_some h2
    unfold History.step History.record
    dsimp only
    rw [h2]
    refine ⟨owned_quiet ho (changed_quiet h3 (by simp)) _ _, fun r hrep => ?_⟩
    rcases List.mem_cons.mp hrep with rfl | hrep
    · have := ho child hlt hc0 hst
      rw [hp, Int.toNat_natCast] at this
      exact this
    · exact hown r hrep

theorem recorded_run (hl : Linked h) (hr : Recorded h) (events : List Event)
    (ha : AllowedRun h events) : Recorded (h.run events) := by
  induction events generalizing h with
  | nil => exact hr
  | cons e es ih => exact ih (linked_step hl e ha.1) (recorded_step hl hr e ha.1) ha.2

theorem owned_run (hl : Linked h) (hr : Recorded h) (ho : Owned h) (hown : OwnChildren h)
    (events : List Event) (ha : AllowedRun h events) (hc : CarefulRun h events) :
    OwnChildren (h.run events) := by
  induction events generalizing h with
  | nil => exact hown
  | cons e es ih =>
    obtain ⟨h1, h2⟩ := owned_step hl hr ho hown e ha.1 hc.1
    exact ih (linked_step hl e ha.1) (recorded_step hl hr e ha.1) h1 h2 ha.2 hc.2

theorem init_zombie (kernelDirectory ticks : ℕ) (messages : ℕ → ℕ → IpcMessage) (j : ℕ) :
    ((History.init kernelDirectory ticks messages).sys.threads j).state ≠ .zombie := by
  change (if j = 0 then ThreadState.running else .unused) ≠ .zombie
  split_ifs <;> simp

theorem init_recorded (kernelDirectory ticks : ℕ) (messages : ℕ → ℕ → IpcMessage) :
    Recorded (History.init kernelDirectory ticks messages) :=
  ⟨fun j _ _ hz => absurd hz (init_zombie _ _ _ j), by simp [History.init],
    by simp [History.init], by simp [History.init]⟩

/-- In every run each status that `sys_wait` reports is one its child exited
with, and no child is reported twice. If threads exit to a slot that is unused
or used by their parent, and no slot is reused while a Zombie bears its number,
every report goes to the process that forked the child. -/
theorem reports_own_children (kernelDirectory ticks : ℕ) (messages : ℕ → ℕ → IpcMessage)
    (events : List Event) (ha : AllowedRun (History.init kernelDirectory ticks messages) events)
    (h : History) (hh : h = (History.init kernelDirectory ticks messages).run events) :
    Genuine h ∧
    (CarefulRun (History.init kernelDirectory ticks messages) events → OwnChildren h) := by
  have hl := init_linked kernelDirectory ticks messages
  have hr := init_recorded kernelDirectory ticks messages
  have ho : Owned (History.init kernelDirectory ticks messages) :=
    fun j _ _ hz => absurd hz (init_zombie _ _ _ j)
  subst hh
  exact ⟨(recorded_run hl hr events ha).genuine,
    owned_run hl hr ho (by simp [OwnChildren, History.init]) events ha⟩

/-- A thread forks, its child exits and is reported to it. -/
def forkAndReap : List Event :=
  [.step (.create 5), .step .tick, .step .tick, .step .tick, .step .tick, .step .tick,
    .step (.fork 9), .step .wait, .step (.exit 7), .step .wait]

theorem reports_own_children_fork :
    ((History.init 1 0 fun _ _ => noMessage).run forkAndReap).reports = [⟨32, 33, 7⟩] ∧
    OwnChildren ((History.init 1 0 fun _ _ => noMessage).run forkAndReap) := by
  have ha : AllowedRun (History.init 1 0 fun _ _ => noMessage) forkAndReap := by decide +kernel
  have hfree : ∀ h : History, (∀ j < 32, (h.sys.threads j).state ≠ .zombie) → SlotFree h :=
    fun h hz tid _ j hj _ hzj => absurd hzj (hz j hj)
  have hc : CarefulRun (History.init 1 0 fun _ _ => noMessage) forkAndReap := by
    refine ⟨hfree _ ?_, trivial, trivial, trivial, trivial, trivial, hfree _ ?_, trivial,
      fun _ => ?_, trivial, trivial⟩
    · decide +kernel
    · decide +kernel
    · decide +kernel
  exact ⟨by decide +kernel,
    (reports_own_children 1 0 (fun _ _ => noMessage) forkAndReap ha _ rfl).2 hc⟩

/-- The shell starts a program, which forks and exits, and then another one in
the same slot, which waits: it gets the status of the orphan. -/
def orphan : List Event :=
  [.step (.create 5), .step .tick, .step .tick, .step .tick, .step .tick, .step .tick,
    .step (.create 5), .step (.block 0), .step (.fork 9), .step (.exit 0), .step (.unblock 1),
    .step .tick, .step .tick, .step .tick, .step .tick, .step .tick,
    .step (.create 5), .step (.block 0), .step .wait, .step (.exit 7), .step .wait]

theorem orphan_reported :
    AllowedRun (History.init 1 0 fun _ _ => noMessage) orphan ∧
    ((History.init 1 0 fun _ _ => noMessage).run orphan).reports = [⟨35, 34, 7⟩] ∧
    ((History.init 1 0 fun _ _ => noMessage).run orphan).creator 34 = some 33 ∧
    ¬OwnChildren ((History.init 1 0 fun _ _ => noMessage).run orphan) := by
  have hreports : ((History.init 1 0 fun _ _ => noMessage).run orphan).reports = [⟨35, 34, 7⟩] := by
    decide +kernel
  have hcreator : ((History.init 1 0 fun _ _ => noMessage).run orphan).creator 34 = some 33 := by
    decide +kernel
  refine ⟨by decide +kernel, hreports, hcreator, fun hown => ?_⟩
  generalize (History.init 1 0 fun _ _ => noMessage).run orphan = h at hreports hcreator hown
  have := hown ⟨35, 34, 7⟩ (by simp [hreports])
  simp [hcreator] at this

end Vlsmc.ProcessReports
