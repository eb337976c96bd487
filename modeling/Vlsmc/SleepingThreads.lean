import Vlsmc.RoundRobin
import Vlsmc.EventWaits

/-!
# Sleeping threads

A thread sleeps until the tick count reaches the time it is due. No step of the system
wakes it before, and the first loop of `pick_next_thread` wakes it from then on.
-/

set_option autoImplicit false

namespace Vlsmc.SleepingThreads
open Vlsmc.Words Vlsmc.Scheduler Vlsmc.SchedulerRuns Vlsmc.RoundRobin
open Vlsmc.EventWaits (pickNextThread_snd)

/-- Thread `i` sleeps until `u`, and `t` ticks are counted. -/
structure Dormant (i u t : ℕ) (s : System) : Prop where
  other : i ≠ 0
  sleeps : (s.threads i).state = .sleeping
  due : (s.threads i).sleepUntil = u
  now : s.ticks = t

/-- Another thread runs meanwhile. -/
structure Asleep (i u t : ℕ) (s : System) : Prop extends Dormant i u t s where
  away : s.currentTid ≠ i

section Sleeping

variable {i u t : ℕ} {s : System}

theorem Dormant.congr (h : Dormant i u t s) {s' : System}
    (hs : (s'.threads i).state = (s.threads i).state)
    (hd : (s'.threads i).sleepUntil = (s.threads i).sleepUntil) (ht : s'.ticks = s.ticks) :
    Dormant i u t s' := ⟨h.other, hs.trans h.sleeps, hd.trans h.due, ht.trans h.now⟩

theorem Dormant.modify (h : Dormant i u t s) {j : ℕ} (f : Thread → Thread) (hj : i ≠ j) :
    Dormant i u t (s.modify j f) :=
  h.congr (by rw [modify_ne s f hj]) (by rw [modify_ne s f hj]) rfl

theorem Dormant.awake (h : Dormant i u t s) {j : ℕ} (hj : (s.threads j).state ≠ .sleeping) :
    i ≠ j := fun he => hj (he ▸ h.sleeps)

theorem destroyAddressSpace_ticks (s : System) (dir : ℕ) :
    (s.destroyAddressSpace dir).ticks = s.ticks := by
  unfold System.destroyAddressSpace
  split_ifs <;> rfl

theorem Dormant.drop (h : Dormant i u t s) (j : ℕ) : Dormant i u t (s.dropDirectory j) := by
  have hd := destroyAddressSpace_spec s (s.threads j).pageDirectoryPhys
  have hkept : Dormant i u t (s.destroyAddressSpace (s.threads j).pageDirectoryPhys) :=
    h.congr (by rw [hd.2.2]) (by rw [hd.2.2]) (destroyAddressSpace_ticks s _)
  unfold System.dropDirectory
  dsimp only
  split_ifs
  · apply hkept.congr
    · by_cases hij : i = j
      · rw [hij, modify_same]
      · rw [modify_ne _ _ hij]
    · by_cases hij : i = j
      · rw [hij, modify_same]
      · rw [modify_ne _ _ hij]
    · rfl
  · exact h

theorem Dormant.cleanup (h : Dormant i u t s) {j : ℕ} (hj : i ≠ j) :
    Dormant i u t (s.threadCleanup j) :=
  ((h.drop j).modify (fun t => { t with state := .unused }) hj).congr rfl rfl rfl

/-- Before it is due, the first loop leaves the thread asleep. -/
theorem Dormant.wake (h : Dormant i u t s) {j : ℕ} (ht : i = j → t < u) :
    Dormant i u t (s.wake j) := by
  have hwoken {s : System} (h : Dormant i u t s) :
      Dormant i u t (if (s.threads j).state = .sleeping ∧ (s.threads j).sleepUntil ≤ s.ticks then
        s.modify j fun t => { t with state := .ready, blockedChannelId := -1 } else s) := by
    split_ifs with hdue
    · apply h.modify
      intro hij
      have hle := hdue.2
      rw [← hij, h.due, h.now] at hle
      have hlt := ht hij
      omega
    · exact h
  unfold System.wake
  dsimp only
  by_cases hended : (s.threads j).state = .terminated ∧ j ≠ s.currentTid
  · rw [if_pos hended]
    exact hwoken (h.cleanup (h.awake (by rw [hended.1]; exact nofun)))
  · rw [if_neg hended]
    exact hwoken h

theorem Dormant.wakeAll (h : Dormant i u t s) (ht : t < u) : Dormant i u t s.wakeAll := by
  unfold System.wakeAll
  generalize List.range 32 = l
  induction l generalizing s with
  | nil => exact h
  | cons j l ih => exact ih (h.wake fun _ => ht)

theorem Dormant.not_picked (h : Dormant i u t s) : s.bestReady ≠ i := by
  rcases bestReady_cases s with hb | hb
  · rw [hb]
    exact h.other.symm
  · exact (h.awake (by rw [hb.2.2]; exact nofun)).symm

theorem Dormant.switchTo (h : Dormant i u t s) {next : ℕ} (hn : next ≠ i) :
    Asleep i u t (s.switchTo next) := by
  have hthread := (switchTo_states s next).2.2.2.2 i hn.symm
  have hticks : (s.switchTo next).ticks = s.ticks := by
    unfold System.switchTo System.switchAddressSpace
    dsimp only
    split_ifs <;> rfl
  constructor
  · exact h.congr (by rw [hthread]) (by rw [hthread]) hticks
  · rw [(switchTo_states s next).1]
    exact hn

/-- What `pick_next_thread` returns is not the sleeping thread. -/
theorem Dormant.pick (h : Dormant i u t s) (ht : t < u) :
    Dormant i u t s.pickNextThread.2 ∧ s.pickNextThread.1 ≠ i := by
  have hw := h.wakeAll ht
  unfold System.pickNextThread
  generalize s.wakeAll = w at hw ⊢
  dsimp only
  split_ifs with hrun
  · exact ⟨hw, (hw.awake (by rw [hrun.2]; exact nofun)).symm⟩
  · exact ⟨hw, hw.not_picked⟩

theorem Dormant.giveUp (h : Dormant i u t s) (ht : t < u) : Asleep i u t s.giveUp := by
  have hp := h.pick ht
  unfold System.giveUp
  generalize s.pickNextThread = p at hp
  dsimp only
  split_ifs with hnext
  · exact hp.1.switchTo hp.2
  · exact ⟨hp.1, not_not.mp hnext ▸ hp.2⟩

theorem Dormant.reschedule (h : Dormant i u t s) (ht : t < u) : Asleep i u t s.reschedule := by
  have hp := h.pick ht
  unfold System.reschedule
  generalize s.pickNextThread = p at hp
  dsimp only
  split_ifs with hsame hstay
  · have hcur : p.2.currentTid ≠ i := hsame.1 ▸ hp.2
    exact ⟨hp.1.modify _ hcur.symm, hcur⟩
  · exact ⟨hp.1, hstay ▸ hp.2⟩
  · exact hp.1.switchTo hp.2

theorem age_sleepUntil (s : System) (j : ℕ) :
    (s.age.threads j).sleepUntil = (s.threads j).sleepUntil := by
  unfold System.age
  split_ifs
  · rfl
  · dsimp only
    split_ifs <;> rfl

theorem age_ticks (s : System) : s.age.ticks = s.ticks := by
  unfold System.age
  split_ifs <;> rfl

theorem Asleep.tick (h : Asleep i u t s) (ht : t+1 < u) (hu : u < 4294967296) :
    Asleep i u (t+1) s.tick := by
  have hage : Asleep i u (t+1) { s with ticks := u32 (s.ticks+1) }.age := by
    constructor
    · constructor
      · exact h.other
      · exact (age_thread _ i).1.trans h.sleeps
      · exact (age_sleepUntil _ i).trans h.due
      · rw [age_ticks, h.now]
        exact u32_of_lt (by omega)
    · rw [age_current]
      exact h.away
  unfold System.tick System.schedule
  dsimp only
  generalize System.age { s with ticks := u32 (s.ticks+1) } = w at hage
  have hquantum := hage.toDormant.modify (fun t => { t with
    quantumRemaining := sub32 t.quantumRemaining 1, totalTicks := u32 (t.totalTicks+1) })
    hage.away.symm
  split_ifs
  · exact ⟨hquantum, hage.away⟩
  · exact (hquantum.modify _ hage.away.symm).reschedule ht
  · exact hage.reschedule ht

theorem Asleep.unblock (h : Asleep i u t s) (tid : ℤ) : Asleep i u t (s.unblock tid) := by
  unfold System.unblock
  split_ifs with hrange hblocked
  · exact h
  · exact ⟨h.modify _ (h.awake (by rw [hblocked]; exact nofun)), h.away⟩
  · exact h

theorem Asleep.setCount (h : Asleep i u t s) (n : ℤ) : Asleep i u t (s.setCount n) :=
  ⟨h.congr rfl rfl rfl, h.away⟩

theorem Asleep.modify (h : Asleep i u t s) {j : ℕ} (f : Thread → Thread) (hj : i ≠ j) :
    Asleep i u t (s.modify j f) := ⟨h.toDormant.modify f hj, h.away⟩

theorem findUnused_awake {j : ℕ} (h : Dormant i u t s) (hj : s.findUnused = some j) : i ≠ j :=
  h.awake (by rw [(findUnused_some hj).2.2]; exact nofun)

theorem Asleep.create (h : Asleep i u t s) (priority : ℕ) :
    Asleep i u t (s.threadCreate priority) := by
  unfold System.threadCreate
  split
  · exact h
  · case h_2 j hj => exact (h.modify _ (findUnused_awake h.toDormant hj)).setCount _

theorem Asleep.fork (h : Asleep i u t s) (newDir : ℕ) : Asleep i u t (s.sysFork newDir) := by
  unfold System.sysFork
  split
  · exact h
  · case h_2 j hj =>
    have hij := findUnused_awake h.toDormant hj
    dsimp only
    split_ifs
    · exact (h.modify _ hij).modify _ hij
    · exact ((h.modify _ hij).modify _ hij).setCount _

theorem Asleep.terminate (h : Asleep i u t s) (ht : t < u) : Asleep i u t s.terminateCurrent :=
  (h.toDormant.modify _ h.away.symm).giveUp ht

theorem Asleep.block (h : Asleep i u t s) (ht : t < u) (channelId : ℤ) :
    Asleep i u t (s.blockCurrent channelId) :=
  (h.toDormant.modify _ h.away.symm).giveUp ht

theorem Asleep.sleep (h : Asleep i u t s) (ht : t < u) (ms : ℕ) :
    Asleep i u t (s.sleepCurrent ms) := by
  unfold System.sleepCurrent
  apply Dormant.giveUp _ ht
  exact h.toDormant.modify _ h.away.symm

theorem dropDirectory_current (s : System) (j : ℕ) :
    (s.dropDirectory j).currentTid = s.currentTid := (dropDirectory_spec s j).1

theorem Asleep.exit (h : Asleep i u t s) (ht : t < u) (exitCode : ℕ) :
    Asleep i u t (s.sysExit exitCode) := by
  have hleft : Asleep i u t ((s.modify s.currentTid fun t =>
      { t with exitCode := exitCode }).dropDirectory s.currentTid) := by
    have hm := h.modify (fun t => { t with exitCode := exitCode }) h.away.symm
    constructor
    · exact hm.toDormant.drop _
    · rw [dropDirectory_current]
      exact hm.away
  have hcur := h.away.symm
  unfold System.sysExit
  dsimp only
  generalize System.dropDirectory _ _ = w at hleft ⊢
  split_ifs
  · exact ((hleft.modify _ hcur).unblock _).toDormant.giveUp ht
  · exact (hleft.modify _ hcur).toDormant.giveUp ht
  · exact hleft.terminate ht

theorem Asleep.wait (h : Asleep i u t s) (ht : t < u) : Asleep i u t s.sysWait := by
  unfold System.sysWait
  split
  · case h_1 child hfind =>
    have hzombie := List.find?_some hfind
    simp only [decide_eq_true_eq] at hzombie
    have hchild := h.awake (j := child) (by rw [hzombie.2.2]; exact nofun)
    exact (h.modify _ hchild).setCount _
  · split_ifs
    · exact h.block ht _
    · exact h

/-- No step wakes a thread before it is due. -/
theorem asleep_step (h : Asleep i u t s) (a : Step) (hu : u < 4294967296)
    (ht : t+[a].count .tick < u) : Asleep i u (t+[a].count .tick) (step s a) := by
  cases a with
  | tick => exact h.tick ht hu
  | block channelId => exact h.block ht channelId
  | unblock tid => exact h.unblock tid
  | sleep ms => exact h.sleep ht ms
  | terminate => exact h.terminate ht
  | create priority => exact h.create priority
  | fork newDir => exact h.fork newDir
  | exit exitCode => exact h.exit ht exitCode
  | wait => exact h.wait ht

theorem asleep_run (h : Asleep i u t s) (as : List Step) (hu : u < 4294967296)
    (ht : t+as.count .tick < u) : Asleep i u (t+as.count .tick) (run s as) := by
  induction as generalizing s t with
  | nil => exact h
  | cons a as ih =>
    have hcount : (a::as).count Step.tick = [a].count .tick+as.count .tick := by
      rw [← List.count_append]
      rfl
    rw [hcount] at ht ⊢
    rw [← Nat.add_assoc] at ht ⊢
    exact ih (asleep_step h a hu (by omega)) ht

end Sleeping

section Waking

variable {i u t : ℕ} {s : System}

theorem Dormant.wake_due (h : Dormant i u t s) (hdue : u ≤ t) :
    ((s.wake i).threads i).state = .ready := by
  have hended : ¬((s.threads i).state = .terminated ∧ i ≠ s.currentTid) := by
    rw [h.sleeps]
    exact fun hboth => nomatch hboth.1
  have hsleep : (s.threads i).state = .sleeping ∧ (s.threads i).sleepUntil ≤ s.ticks := by
    rw [h.due, h.now]
    exact ⟨h.sleeps, hdue⟩
  unfold System.wake
  dsimp only
  rw [if_neg hended, if_pos hsleep, modify_same]

/-- The first loop wakes a thread that is due. -/
theorem Dormant.wakeAll_due (h : Dormant i u t s) (hi : i < 32) (hdue : u ≤ t) :
    (s.wakeAll.threads i).state = .ready := by
  have hstays (l : List ℕ) {s : System} (hs : (s.threads i).state = .ready) :
      ((l.foldl System.wake s).threads i).state = .ready := by
    induction l generalizing s with
    | nil => exact hs
    | cons j l ih => exact ih (woken_ready ((wake_kept s j).threads i) hs)
  have hmem : i ∈ List.range 32 := List.mem_range.mpr hi
  unfold System.wakeAll
  generalize List.range 32 = l at hmem
  induction l generalizing s with
  | nil => exact absurd hmem List.not_mem_nil
  | cons j l ih =>
    by_cases hij : i = j
    · rw [← hij]
      exact hstays l (h.wake_due hdue)
    · exact ih (h.wake fun he => absurd he hij) ((List.mem_cons.mp hmem).resolve_left hij)

theorem switchTo_awake {next : ℕ} (h : (s.threads i).state ≠ .sleeping) :
    ((s.switchTo next).threads i).state ≠ .sleeping := by
  rw [switchTo_threads]
  split_ifs
  · exact nofun
  · exact h

theorem giveUp_awake (h : (s.wakeAll.threads i).state ≠ .sleeping) :
    (s.giveUp.threads i).state ≠ .sleeping := by
  unfold System.giveUp
  rw [← pickNextThread_snd] at h
  generalize s.pickNextThread = p at h
  dsimp only
  split_ifs
  · exact switchTo_awake h
  · exact h

theorem reschedule_awake (h : (s.wakeAll.threads i).state ≠ .sleeping) :
    (s.reschedule.threads i).state ≠ .sleeping := by
  unfold System.reschedule
  rw [← pickNextThread_snd] at h
  generalize s.pickNextThread = p at h
  dsimp only
  split_ifs
  · by_cases hi : i = p.2.currentTid
    · rw [hi, modify_same]
      exact nofun
    · rw [modify_ne _ _ hi]
      exact h
  · exact h
  · exact switchTo_awake h

/-- Nothing is due and nothing ended: the first loop changes nothing. -/
theorem wakeAll_rest (h : ∀ j < 32, (s.threads j).state ≠ .terminated ∧
    ((s.threads j).state = .sleeping → s.ticks < (s.threads j).sleepUntil)) :
    s.wakeAll = s := by
  have hwake (j : ℕ) (hj : j < 32) : s.wake j = s := by
    have hended : ¬((s.threads j).state = .terminated ∧ j ≠ s.currentTid) :=
      fun hboth => (h j hj).1 hboth.1
    have hdue : ¬((s.threads j).state = .sleeping ∧ (s.threads j).sleepUntil ≤ s.ticks) :=
      fun hboth => absurd ((h j hj).2 hboth.1) (Nat.not_lt.mpr hboth.2)
    unfold System.wake
    dsimp only
    rw [if_neg hended, if_neg hdue]
  have hfold (l : List ℕ) (hl : ∀ j ∈ l, j < 32) : l.foldl System.wake s = s := by
    induction l with
    | nil => rfl
    | cons j l ih =>
      rw [List.foldl_cons, hwake j (hl j List.mem_cons_self)]
      exact ih fun k hk => hl k (List.mem_cons_of_mem j hk)
  exact hfold _ fun j hj => List.mem_range.mp hj

end Waking

end Vlsmc.SleepingThreads
