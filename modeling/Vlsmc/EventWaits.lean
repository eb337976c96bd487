import Vlsmc.EventChannels

/-!
# Waiting threads are written down

As long as every `wait` finds a place in the table, and no event arrives on a
channel while a thread stands between the two parts of its `wait` there, a thread
blocked on a channel is in the channel's table, and the next event wakes it.
-/

set_option autoImplicit false

namespace Vlsmc.EventWaits
open Vlsmc.Words Vlsmc.Scheduler Vlsmc.SchedulerRuns Vlsmc.EventChannels

/-- No thread starts to wait for a channel. -/
def NoNewWait (s s' : System) : Prop :=
  ∀ i, (s'.threads i).state = .blocked →
    ((s.threads i).state = .blocked ∧
      (s'.threads i).blockedChannelId = (s.threads i).blockedChannelId) ∨
    (s'.threads i).blockedChannelId < 0

variable {s s' s'' : System}

theorem NoNewWait.refl (s : System) : NoNewWait s s := fun _ h => .inl ⟨h, rfl⟩

theorem NoNewWait.trans (h : NoNewWait s s') (h' : NoNewWait s' s'') : NoNewWait s s'' := by
  intro i hi
  rcases h' i hi with ⟨hb, hc⟩ | hneg
  · rcases h i hb with ⟨hb', hc'⟩ | hneg
    · exact .inl ⟨hb', hc.trans hc'⟩
    · exact .inr (hc ▸ hneg)
  · exact .inr hneg

theorem noNewWait_threads (h : NoNewWait s s') (ht : s''.threads = s'.threads) :
    NoNewWait s s'' := by
  intro i hi
  rw [ht] at hi ⊢
  exact h i hi

theorem noNewWait_modify (h : NoNewWait s s') {i : ℕ} {f : Thread → Thread}
    (hf : (f (s'.threads i)).state = .blocked →
      ((s'.threads i).state = .blocked ∧
        (f (s'.threads i)).blockedChannelId = (s'.threads i).blockedChannelId) ∨
      (f (s'.threads i)).blockedChannelId < 0) : NoNewWait s (s'.modify i f) := by
  refine h.trans fun j hj => ?_
  by_cases hji : j = i
  · subst hji
    rw [modify_same] at hj ⊢
    exact hf hj
  · rw [modify_ne _ _ hji] at hj ⊢
    exact .inl ⟨hj, rfl⟩

/-- A change that leaves the thread in another state than `Blocked`. -/
theorem noNewWait_leave (h : NoNewWait s s') {i : ℕ} {f : Thread → Thread}
    (hf : (f (s'.threads i)).state ≠ .blocked) : NoNewWait s (s'.modify i f) :=
  noNewWait_modify h fun hb => absurd hb hf

/-- A change to other fields. -/
theorem noNewWait_fields (h : NoNewWait s s') {i : ℕ} {f : Thread → Thread}
    (hs : (f (s'.threads i)).state = (s'.threads i).state)
    (hc : (f (s'.threads i)).blockedChannelId = (s'.threads i).blockedChannelId) :
    NoNewWait s (s'.modify i f) :=
  noNewWait_modify h fun hb => .inl ⟨hs ▸ hb, hc⟩

theorem noNewWait_drop (h : NoNewWait s s') (i : ℕ) : NoNewWait s (s'.dropDirectory i) := by
  unfold System.dropDirectory
  dsimp only
  split_ifs
  · exact noNewWait_fields (noNewWait_threads h (destroyAddressSpace_spec s' _).2.2) rfl rfl
  · exact h

theorem noNewWait_wake (s : System) (i : ℕ) : NoNewWait s (s.wake i) := by
  have hclean : NoNewWait s (s.threadCleanup i) :=
    noNewWait_threads (noNewWait_leave (noNewWait_drop (.refl s) i)
      (f := fun t => { t with state := .unused }) nofun) rfl
  unfold System.wake
  dsimp only
  split_ifs
  · exact noNewWait_leave hclean nofun
  · exact hclean
  · exact noNewWait_leave (.refl s) nofun
  · exact .refl s

theorem noNewWait_wakeAll (s : System) : NoNewWait s s.wakeAll := by
  unfold System.wakeAll
  generalize List.range 32 = l
  induction l generalizing s with
  | nil => exact .refl s
  | cons i l ih => exact (noNewWait_wake s i).trans (ih _)

theorem pickNextThread_snd (s : System) : s.pickNextThread.2 = s.wakeAll := by
  unfold System.pickNextThread
  generalize s.wakeAll = w
  dsimp only
  split_ifs <;> rfl

theorem noNewWait_switchTo (h : NoNewWait s s') (next : ℕ) :
    NoNewWait s (s'.switchTo next) := by
  refine h.trans fun i hi => ?_
  rw [switchTo_threads] at hi ⊢
  split at hi
  · cases hi
  · case isFalse hne =>
    rw [if_neg hne]
    exact .inl ⟨hi, rfl⟩

theorem noNewWait_age (s : System) : NoNewWait s s.age := by
  intro i
  unfold System.age
  split_ifs
  · exact fun hi => .inl ⟨hi, rfl⟩
  · dsimp only
    split_ifs
    · exact fun hi => .inl ⟨hi, rfl⟩
    · exact fun hi => .inl ⟨hi, rfl⟩

theorem noNewWait_reschedule (h : NoNewWait s s') : NoNewWait s s'.reschedule := by
  have hw := h.trans (noNewWait_wakeAll s')
  unfold System.reschedule
  rw [pickNextThread_snd]
  generalize s'.wakeAll = w at hw
  dsimp only
  split_ifs
  · exact noNewWait_leave hw nofun
  · exact hw
  · exact noNewWait_switchTo hw _

theorem noNewWait_tick (s : System) : NoNewWait s s.tick := by
  have hage : NoNewWait s { s with ticks := u32 (s.ticks+1) }.age :=
    (noNewWait_threads (.refl s) rfl).trans (noNewWait_age _)
  unfold System.tick System.schedule
  dsimp only
  generalize System.age { s with ticks := u32 (s.ticks+1) } = w at hage
  split_ifs
  · exact noNewWait_fields hage rfl rfl
  · exact noNewWait_reschedule (noNewWait_leave (noNewWait_fields hage rfl rfl) nofun)
  · exact noNewWait_reschedule hage

theorem noNewWait_giveUp (h : NoNewWait s s') : NoNewWait s s'.giveUp := by
  have hw := h.trans (noNewWait_wakeAll s')
  unfold System.giveUp
  rw [pickNextThread_snd]
  generalize s'.wakeAll = w at hw
  dsimp only
  split_ifs
  · exact noNewWait_switchTo hw _
  · exact hw

theorem noNewWait_unblock (h : NoNewWait s s') (tid : ℤ) : NoNewWait s (s'.unblock tid) := by
  unfold System.unblock
  split_ifs
  · exact h
  · exact noNewWait_leave h nofun
  · exact h

theorem noNewWait_block (s : System) {channelId : ℤ} (h : channelId < 0) :
    NoNewWait s (s.blockCurrent channelId) :=
  noNewWait_giveUp (noNewWait_modify (.refl s) fun _ => .inr h)

theorem noNewWait_terminate (h : NoNewWait s s') : NoNewWait s s'.terminateCurrent :=
  noNewWait_giveUp (noNewWait_leave h nofun)

theorem noNewWait_sleep (s : System) (ms : ℕ) : NoNewWait s (s.sleepCurrent ms) := by
  unfold System.sleepCurrent
  refine noNewWait_giveUp ?_
  exact noNewWait_leave (.refl s) nofun

theorem noNewWait_create (s : System) (priority : ℕ) : NoNewWait s (s.threadCreate priority) := by
  unfold System.threadCreate
  split
  · exact .refl s
  · refine noNewWait_threads ?_ (setCount_threads _ _)
    exact noNewWait_leave (.refl s) nofun

theorem noNewWait_fork (s : System) (newDir : ℕ) : NoNewWait s (s.sysFork newDir) := by
  unfold System.sysFork
  split
  · exact .refl s
  · dsimp only
    split_ifs
    · refine noNewWait_leave ?_ nofun
      exact noNewWait_leave (.refl s) nofun
    · refine noNewWait_threads ?_ (setCount_threads _ _)
      refine noNewWait_fields ?_ rfl rfl
      exact noNewWait_leave (.refl s) nofun

theorem noNewWait_exit (s : System) (exitCode : ℕ) : NoNewWait s (s.sysExit exitCode) := by
  have hleft : NoNewWait s ((s.modify s.currentTid fun t =>
      { t with exitCode := exitCode }).dropDirectory s.currentTid) :=
    noNewWait_drop (noNewWait_fields (.refl s) rfl rfl) _
  unfold System.sysExit
  dsimp only
  generalize System.dropDirectory _ _ = w at hleft
  split_ifs
  · refine noNewWait_giveUp (noNewWait_unblock ?_ _)
    exact noNewWait_leave hleft nofun
  · refine noNewWait_giveUp ?_
    exact noNewWait_leave hleft nofun
  · exact noNewWait_terminate hleft

theorem noNewWait_wait (s : System) : NoNewWait s s.sysWait := by
  unfold System.sysWait
  split
  · refine noNewWait_threads ?_ (setCount_threads _ _)
    exact noNewWait_leave (.refl s) nofun
  · split_ifs
    · exact noNewWait_block s (by decide)
    · exact .refl s

/-- The callers of `block_current` other than `EventSystem::wait` pass a negative number. -/
def OtherBlock : Step → Prop
  | .block channelId => channelId < 0
  | _ => True

theorem noNewWait_step (s : System) {a : Step} (ha : OtherBlock a) : NoNewWait s (step s a) := by
  cases a with
  | tick => exact noNewWait_tick s
  | block channelId => exact noNewWait_block s ha
  | unblock tid => exact noNewWait_unblock (.refl s) tid
  | sleep ms => exact noNewWait_sleep s ms
  | terminate => exact noNewWait_terminate (.refl s)
  | create priority => exact noNewWait_create s priority
  | fork newDir => exact noNewWait_fork s newDir
  | exit exitCode => exact noNewWait_exit s exitCode
  | wait => exact noNewWait_wait s

theorem unblock_thread (s : System) (tid : ℤ) (i : ℕ) :
    (s.unblock tid).threads i = s.threads i ∨
      (s.threads i).state = .blocked ∧ ((s.unblock tid).threads i).state = .ready := by
  unfold System.unblock
  split_ifs with hrange hblocked
  · exact .inl rfl
  · by_cases hi : i = tid.toNat
    · rw [hi, modify_same]
      exact .inr ⟨hblocked, rfl⟩
    · exact .inl (modify_ne _ _ hi)
  · exact .inl rfl

theorem unblock_ready (s : System) {i : ℕ} (hi : i < 32) (h : (s.threads i).state = .blocked) :
    ((s.unblock i).threads i).state = .ready := by
  unfold System.unblock
  rw [if_neg (by omega), Int.toNat_natCast, if_pos h, modify_same]

/-- Unblocking a list of threads makes those of them ready that were blocked. -/
theorem unblockAll_state (l : List ℕ) (s : System) (i : ℕ) :
    ((l.foldl (fun s t => s.unblock (t : ℤ)) s).threads i = s.threads i ∨
      (s.threads i).state = .blocked ∧
        ((l.foldl (fun s t => s.unblock (t : ℤ)) s).threads i).state = .ready) ∧
    (i < 32 → i ∈ l → (s.threads i).state = .blocked →
      ((l.foldl (fun s t => s.unblock (t : ℤ)) s).threads i).state = .ready) := by
  induction l generalizing s with
  | nil => exact ⟨.inl rfl, fun _ h => nomatch h⟩
  | cons t l ih =>
    obtain ⟨hstep, hready⟩ := ih (s.unblock t)
    rw [List.foldl_cons]
    constructor
    · rcases unblock_thread s t i with h | ⟨hb, hr⟩
      · rwa [h] at hstep
      · rcases hstep with h | ⟨h, -⟩
        · exact .inr ⟨hb, by rw [h]; exact hr⟩
        · rw [hr] at h
          cases h
    · intro hi hmem hb
      rcases unblock_thread s t i with h | ⟨-, hr⟩
      · rcases List.mem_cons.mp hmem with rfl | hmem
        · have hr := unblock_ready s hi hb
          rw [h, hb] at hr
          cases hr
        · exact hready hi hmem (by rw [h]; exact hb)
      · rcases hstep with h | ⟨h, -⟩
        · rw [h]
          exact hr
        · rw [hr] at h
          cases h

/-- Thread `i` is in the table of channel `c`. -/
def Registered (w : World) (c i : ℕ) : Prop :=
  ∃ k < (w.channels c).waiterCount, (w.channels c).waitingTids k = i

theorem unblockWaiters_eq (s : System) (ch : EventChannel) :
    World.unblockWaiters s ch =
      ((List.range ch.waiterCount).map ch.waitingTids).foldl (fun s t => s.unblock (t : ℤ)) s := by
  unfold World.unblockWaiters
  rw [List.foldl_map]

theorem unblockWaiters_ready {w : World} {c i : ℕ} (hi : i < 32) (hr : Registered w c i)
    (hb : (w.system.threads i).state = .blocked) :
    ((World.unblockWaiters w.system (w.channels c)).threads i).state = .ready := by
  rw [unblockWaiters_eq]
  obtain ⟨k, hk, hki⟩ := hr
  exact (unblockAll_state _ w.system i).2 hi
    (List.mem_map.mpr ⟨k, List.mem_range.mpr hk, hki⟩) hb

theorem unblockWaiters_blocked {ch : EventChannel} {i : ℕ}
    (h : ((World.unblockWaiters s ch).threads i).state = .blocked) :
    (World.unblockWaiters s ch).threads i = s.threads i := by
  rw [unblockWaiters_eq] at h ⊢
  rcases (unblockAll_state ((List.range ch.waiterCount).map ch.waitingTids) s i).1 with he | ⟨-, hr⟩
  · exact he
  · rw [hr] at h
    cases h

/-- Every thread that waits, or is about to, is in the table of its channel. -/
structure Recorded (w : World) : Prop where
  blocked : ∀ i < 32, (w.system.threads i).state = .blocked → ∀ c : ℕ,
    (w.system.threads i).blockedChannelId = c → c < 32 ∧ Registered w c i
  pending : ∀ i c, w.pending i = some c → c < 32 ∧ Registered w c i
  active : ∀ c, 0 < (w.channels c).waiterCount → (w.channels c).active = true

/-- What a step has to leave alone: a `wait` that goes on to block finds a place in the table,
and no event arrives on a channel between the two parts of a `wait` there. -/
def Careful (w : World) : Event → Prop
  | .scheduler a => OtherBlock a
  | .waitCheck c => 0 ≤ c → c < 32 → (w.channels c.toNat).active = true →
      (w.channels c.toNat).head = (w.channels c.toNat).tail →
      (w.channels c.toNat).waiterCount < maxWaiters
  | .push c _ => ∀ i p, w.pending i = some p → (p:ℤ) ≠ c
  | .destroy c => ∀ i p, w.pending i = some p → (p:ℤ) ≠ c
  | .waitBlock => True
  | .pop _ => True
  | .create => True

def CarefulRun (w : World) : List Event → Prop
  | [] => True
  | e::es => Careful w e ∧ CarefulRun (event w e) es

variable {w : World}

/-- A change of one channel that keeps its table. -/
theorem recorded_setChannel (h : Recorded w) {c : ℕ} {q : EventChannel}
    (hcount : (w.channels c).waiterCount ≤ q.waiterCount)
    (htids : ∀ k < (w.channels c).waiterCount, q.waitingTids k = (w.channels c).waitingTids k)
    (hactive : 0 < q.waiterCount → q.active = true) : Recorded (w.setChannel c q) := by
  have keep : ∀ d i, Registered w d i → Registered (w.setChannel c q) d i := by
    rintro d i ⟨k, hk, hki⟩
    unfold Registered World.setChannel
    dsimp only
    by_cases hd : d = c
    · rw [if_pos hd]
      rw [hd] at hk hki
      exact ⟨k, by omega, (htids k hk).trans hki⟩
    · rw [if_neg hd]
      exact ⟨k, hk, hki⟩
  refine ⟨fun i hi hb d hd => ?_, fun i d hd => ?_, fun d hd => ?_⟩
  · obtain ⟨hlt, hr⟩ := h.blocked i hi hb d hd
    exact ⟨hlt, keep d i hr⟩
  · obtain ⟨hlt, hr⟩ := h.pending i d hd
    exact ⟨hlt, keep d i hr⟩
  · unfold World.setChannel at hd ⊢
    dsimp only at hd ⊢
    split_ifs at hd ⊢
    · exact hactive hd
    · exact h.active d hd

/-- An event on channel `c` empties its table and wakes the threads in it. -/
theorem recorded_event (h : Recorded w) {c : ℕ} {q : EventChannel}
    (hp : ∀ i p, w.pending i = some p → p ≠ c) (hcount : q.waiterCount = 0) :
    Recorded { w.setChannel c q with
      system := World.unblockWaiters w.system (w.channels c) } := by
  have keep : ∀ d i, d ≠ c → Registered w d i →
      Registered { w.setChannel c q with
        system := World.unblockWaiters w.system (w.channels c) } d i := by
    intro d i hd hr
    unfold Registered World.setChannel
    dsimp only
    rw [if_neg hd]
    exact hr
  refine ⟨fun i hi hb d hd => ?_, fun i d hd => ?_, fun d hd => ?_⟩
  · dsimp only at hb hd
    have hsame := unblockWaiters_blocked hb
    have hb' : (w.system.threads i).state = .blocked := hsame ▸ hb
    rw [hsame] at hd
    obtain ⟨hlt, hr⟩ := h.blocked i hi hb' d hd
    refine ⟨hlt, keep d i ?_ hr⟩
    rintro rfl
    rw [unblockWaiters_ready hi hr hb'] at hb
    cases hb
  · obtain ⟨hlt, hr⟩ := h.pending i d hd
    exact ⟨hlt, keep d i (hp i d hd) hr⟩
  · unfold World.setChannel at hd ⊢
    dsimp only at hd ⊢
    split_ifs at hd ⊢
    · omega
    · exact h.active d hd

/-- A change of the threads, none of which starts to wait without being in the table. -/
theorem recorded_system (h : Recorded w) {v : System} {pending : ℕ → Option ℕ}
    (hb : ∀ i < 32, (v.threads i).state = .blocked → ∀ c : ℕ,
      (v.threads i).blockedChannelId = c → c < 32 ∧ Registered w c i)
    (hp : ∀ i c, pending i = some c → w.pending i = some c) :
    Recorded ⟨v, w.channels, pending⟩ :=
  ⟨hb, fun i c hc => h.pending i c (hp i c hc), h.active⟩

theorem recorded_scheduler (h : Recorded w) {a : Step} (ha : OtherBlock a) :
    Recorded { w with system := step w.system a } := by
  refine recorded_system h (fun i hi hb c hc => ?_) fun _ _ hp => hp
  rcases noNewWait_step w.system ha i hb with ⟨hb', hc'⟩ | hneg
  · exact h.blocked i hi hb' c (hc'.symm.trans hc)
  · omega

theorem recorded_waitCheck (h : Recorded w) {c : ℤ} (hc : Careful w (.waitCheck c)) :
    Recorded (w.waitCheck c).2 := by
  unfold World.waitCheck maxChannels
  split_ifs with hrange
  · exact h
  dsimp only
  generalize hch : w.channels c.toNat = ch
  split_ifs with hact hring hroom
  · exact h
  · subst hch
    exact recorded_setChannel h (le_refl _) (fun _ _ => rfl) (h.active _)
  · -- the thread is written down behind the others
    subst hch
    have hset := recorded_setChannel h (c := c.toNat) (q := { w.channels c.toNat with
        waitingTids := fun i => if i = (w.channels c.toNat).waiterCount then w.system.currentTid
          else (w.channels c.toNat).waitingTids i
        waiterCount := (w.channels c.toNat).waiterCount+1 }) (Nat.le_succ _)
      (fun k hk => if_neg (by omega)) (fun _ => Bool.not_eq_false _ ▸ hact)
    refine ⟨hset.blocked, fun i d hd => ?_, hset.active⟩
    dsimp only at hd
    split_ifs at hd with hi
    · cases hd
      refine ⟨by omega, (w.channels c.toNat).waiterCount, ?_, ?_⟩
      · simp [World.setChannel]
      · simp [World.setChannel] at hi ⊢
        exact hi.symm
    · exact hset.pending i d hd
  · subst hch
    exact absurd (hc (by omega) (by omega) (Bool.not_eq_false _ ▸ hact) (not_not.mp hring)) hroom

theorem blockCurrent_blocked (s : System) (c : ℤ) {i : ℕ}
    (h : ((s.blockCurrent c).threads i).state = .blocked) :
    (i = s.currentTid ∧ ((s.blockCurrent c).threads i).blockedChannelId = c) ∨
    ((s.threads i).state = .blocked ∧
      ((s.blockCurrent c).threads i).blockedChannelId = (s.threads i).blockedChannelId) ∨
    ((s.blockCurrent c).threads i).blockedChannelId < 0 := by
  have hgive : NoNewWait (s.modify s.currentTid fun t =>
      { t with state := .blocked, blockedChannelId := c }) (s.blockCurrent c) :=
    noNewWait_giveUp (.refl _)
  rcases hgive i h with ⟨hb, hc⟩ | hneg
  · by_cases hcur : i = s.currentTid
    · rw [hcur, modify_same] at hc
      exact .inl ⟨hcur, hcur ▸ hc⟩
    · rw [modify_ne _ _ hcur] at hb hc
      exact .inr (.inl ⟨hb, hc⟩)
  · exact .inr (.inr hneg)

theorem recorded_waitBlock (h : Recorded w) : Recorded w.waitBlock := by
  unfold World.waitBlock
  split
  · exact h
  · case h_2 c hpend =>
    obtain ⟨hlt, hreg⟩ := h.pending _ c hpend
    refine recorded_system h (fun i hi hb d hd => ?_) fun i d hd => ?_
    · rcases blockCurrent_blocked w.system c hb with ⟨hcur, hc⟩ | ⟨hb', hc⟩ | hneg
      · have hcd : c = d := by
          rw [hd] at hc
          exact_mod_cast hc.symm
        rw [← hcd, hcur]
        exact ⟨hlt, hreg⟩
      · exact h.blocked i hi hb' d (hc.symm.trans hd)
      · omega
    · split_ifs at hd
      exact hd

theorem recorded_push (h : Recorded w) {c : ℤ} {data : ℕ} (hc : Careful w (.push c data)) :
    Recorded (w.push c data).2 := by
  unfold World.push
  by_cases hrange : c < 0 ∨ (maxChannels:ℤ) ≤ c
  · rw [if_pos hrange]
    exact h
  rw [if_neg hrange]
  dsimp only
  by_cases hact : (w.channels c.toNat).active = false
  · rw [if_pos hact]
    exact h
  · rw [if_neg hact]
    exact recorded_event h (fun i p hp heq => hc i p hp (by omega)) rfl

theorem recorded_destroy (h : Recorded w) {c : ℤ} (hc : Careful w (.destroy c)) :
    Recorded (w.destroyChannel c) := by
  unfold World.destroyChannel
  split_ifs with hrange
  · exact h
  · exact recorded_event h (fun i p hp heq => hc i p hp (by omega)) rfl

theorem recorded_pop (h : Recorded w) (c : ℤ) : Recorded (w.pop c).2 := by
  unfold World.pop
  dsimp only
  split_ifs
  · exact h
  · exact h
  · exact h
  · exact recorded_setChannel h (le_refl _) (fun _ _ => rfl) (h.active _)

theorem recorded_create (h : Recorded w) : Recorded w.createChannel.2 := by
  unfold World.createChannel
  split
  · exact h
  · case h_2 i hi =>
    have hinactive : (w.channels i).active = false := by simpa using List.find?_some hi
    have hnone : (w.channels i).waiterCount = 0 := by
      by_contra hpos
      have := h.active i (by omega)
      rw [hinactive] at this
      cases this
    exact recorded_setChannel h hnone.le (fun k hk => by omega) fun _ => rfl

theorem event_recorded (h : Recorded w) {e : Event} (he : Careful w e) :
    Recorded (event w e) := by
  cases e with
  | scheduler a => exact recorded_scheduler h he
  | waitCheck c => exact recorded_waitCheck h he
  | waitBlock => exact recorded_waitBlock h
  | push c data => exact recorded_push h he
  | pop c => exact recorded_pop h c
  | create => exact recorded_create h
  | destroy c => exact recorded_destroy h he

theorem events_recorded (h : Recorded w) {es : List Event} (he : CarefulRun w es) :
    Recorded (events w es) := by
  induction es generalizing w with
  | nil => exact h
  | cons e es ih => exact ih (event_recorded h he.1) he.2

theorem push_ready (h : Recorded w) {i c : ℕ} (hi : i < 32)
    (hb : (w.system.threads i).state = .blocked)
    (hc : (w.system.threads i).blockedChannelId = c) (data : ℕ) :
    ((w.push c data).2.system.threads i).state = .ready := by
  obtain ⟨hlt, hr⟩ := h.blocked i hi hb c hc
  have hact := h.active c (by obtain ⟨k, hk, -⟩ := hr; omega)
  unfold World.push maxChannels
  rw [if_neg (by omega)]
  dsimp only
  rw [Int.toNat_natCast, if_neg (by rw [hact]; decide)]
  exact unblockWaiters_ready hi hr hb

theorem destroy_ready (h : Recorded w) {i c : ℕ} (hi : i < 32)
    (hb : (w.system.threads i).state = .blocked)
    (hc : (w.system.threads i).blockedChannelId = c) :
    ((w.destroyChannel c).system.threads i).state = .ready := by
  obtain ⟨hlt, hr⟩ := h.blocked i hi hb c hc
  unfold World.destroyChannel maxChannels
  rw [if_neg (by omega)]
  exact unblockWaiters_ready hi hr hb

/-- Every thread blocked on a channel is in the channel's table, and an event on the channel
or its end makes the thread ready. -/
def NoLostWakeUp (w : World) : Prop :=
  ∀ i < 32, (w.system.threads i).state = .blocked → ∀ c : ℕ,
    (w.system.threads i).blockedChannelId = c →
    Registered w c i ∧
      (∀ data, ((w.push c data).2.system.threads i).state = .ready) ∧
      ((w.destroyChannel c).system.threads i).state = .ready

theorem eventInit_recorded {s : System} (hs : ∀ i < 32, (s.threads i).state ≠ .blocked)
    (buffers waiting : ℕ → ℕ → ℕ) : Recorded (World.eventInit s buffers waiting) :=
  ⟨fun i hi hb => absurd hb (hs i hi), nofun, fun _ hc => absurd hc (lt_irrefl 0)⟩

/-- In every run whose steps are careful no wake-up is lost. -/
theorem careful_run_wakes {s : System} (hs : ∀ i < 32, (s.threads i).state ≠ .blocked)
    (buffers waiting : ℕ → ℕ → ℕ) {es : List Event}
    (he : CarefulRun (World.eventInit s buffers waiting) es) :
    NoLostWakeUp (events (World.eventInit s buffers waiting) es) := by
  have h := events_recorded (eventInit_recorded hs buffers waiting) he
  intro i hi hb c hc
  exact ⟨(h.blocked i hi hb c hc).2, push_ready h hi hb hc, destroy_ready h hi hb hc⟩

/-- The boot thread alone, with the channels of the interrupts. -/
def booted : World :=
  World.eventInit (System.threadInit 1 0 fun _ _ => noMessage) (fun _ _ => 0) fun _ _ => 0

theorem booted_unblocked : ∀ i < 32, (booted.system.threads i).state ≠ .blocked := by
  intro i _
  change (if i = 0 then ThreadState.running else .unused) ≠ .blocked
  split_ifs <;> decide

/-- A thread is created and gets its turn. -/
def threadRuns : List Event :=
  .scheduler (.create 5)::List.replicate 5 (.scheduler .tick)

theorem carefulRun_append (es es' : List Event) (w : World) :
    CarefulRun w (es++es') ↔ CarefulRun w es ∧ CarefulRun (events w es) es' := by
  induction es generalizing w with
  | nil => exact ⟨fun h => ⟨trivial, h⟩, fun h => h.2⟩
  | cons e es ih => exact (and_congr_right fun _ => ih (event w e)).trans and_assoc.symm

theorem threadRuns_careful (w : World) : CarefulRun w threadRuns :=
  ⟨trivial, trivial, trivial, trivial, trivial, trivial, trivial⟩

theorem careful_run_wakes_keyboard :
    NoLostWakeUp (events booted (threadRuns++[.waitCheck 1, .waitBlock])) := by
  have hroom : ((events booted threadRuns).channels 1).waiterCount < maxWaiters := by
    decide +kernel
  have hcareful : CarefulRun booted (threadRuns++[.waitCheck 1, .waitBlock]) :=
    (carefulRun_append _ _ _).mpr
      ⟨threadRuns_careful _, fun _ _ _ _ => hroom, trivial, trivial⟩
  exact careful_run_wakes booted_unblocked (fun _ _ => 0) (fun _ _ => 0) hcareful

/-- The keyboard interrupt arrives between the two parts of the `wait`: thread 1 blocks on
channel 1, whose table is empty. -/
theorem wake_up_lost :
    ¬ NoLostWakeUp (events booted (threadRuns++[.waitCheck 1, .push 1 1, .waitBlock])) := by
  intro h
  obtain ⟨⟨k, hk, -⟩, -⟩ := h 1 (by decide) (by decide +kernel) 1 (by decide +kernel)
  have hnone : ((events booted (threadRuns++[.waitCheck 1, .push 1 1, .waitBlock])).channels
      1).waiterCount = 0 := by decide +kernel
  omega

end Vlsmc.EventWaits
