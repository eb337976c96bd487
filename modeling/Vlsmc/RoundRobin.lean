import Vlsmc.CountedLoops
import Vlsmc.SchedulerRuns
import Mathlib.Data.Finset.Max
import Mathlib.Data.Finset.Card
import Mathlib.Logic.Function.Iterate

/-!
# Turns at equal priority

A switch goes to the lowest of the runnable threads of best priority, the current
one excepted. Two threads of equal priority alternate; with three, the two lowest
alternate and the others wait.
-/

set_option autoImplicit false

namespace Vlsmc.RoundRobin
open Vlsmc.CountedLoops
open Vlsmc.Words Vlsmc.Scheduler Vlsmc.SchedulerRuns

/-- The system after `n` timer ticks. -/
def ticks (s : System) (n : ℕ) : System := System.tick^[n] s

/-- The threads of `S` have priority 1 and can run, the current one perhaps running; no
other runnable thread has priority 1 or better. -/
structure Held (S : Finset ℕ) (s : System) : Prop where
  slot : ∀ i ∈ S, i < 32
  priority : ∀ i ∈ S, (s.threads i).priority = 1
  runnable : ∀ i ∈ S, (s.threads i).state = .ready ∨
    (s.threads i).state = .running ∧ i = s.currentTid
  highest : ∀ i < 32, i ∉ S → (s.threads i).state = .ready ∨ (s.threads i).state = .running →
    1 < (s.threads i).priority

/-- The `n`th tick switches to thread `a`. -/
def SwitchesTo (s : System) (a n : ℕ) : Prop :=
  (ticks s n).currentTid ≠ a ∧ (ticks s (n+1)).currentTid = a

instance (S : Finset ℕ) (s : System) : Decidable (Held S s) :=
  decidable_of_iff ((∀ i ∈ S, i < 32) ∧ (∀ i ∈ S, (s.threads i).priority = 1) ∧
    (∀ i ∈ S, (s.threads i).state = .ready ∨ (s.threads i).state = .running ∧ i = s.currentTid) ∧
    (∀ i < 32, i ∉ S → (s.threads i).state = .ready ∨ (s.threads i).state = .running →
      1 < (s.threads i).priority))
    ⟨fun h => ⟨h.1, h.2.1, h.2.2.1, h.2.2.2⟩, fun h => ⟨h.1, h.2, h.3, h.4⟩⟩

instance (s : System) (a n : ℕ) : Decidable (SwitchesTo s a n) := inferInstanceAs (Decidable (_ ∧ _))

/-- Among the first `N` ticks, between consecutive switches to one thread of `S` there is a
switch to every other one. -/
def TakesTurns (S : Finset ℕ) (s : System) (N : ℕ) : Prop :=
  ∀ a ∈ S, ∀ b ∈ S, b ≠ a → ∀ n m, n < m → m < N → SwitchesTo s a n → SwitchesTo s a m →
    (∀ k, n < k → k < m → ¬ SwitchesTo s a k) → ∃ k, n < k ∧ k < m ∧ SwitchesTo s b k

/-- The thread a switch away from `c` goes to. -/
def IsNext (S : Finset ℕ) (c d : ℕ) : Prop := d ∈ S ∧ d ≠ c ∧ ∀ i ∈ S, i ≠ c → d ≤ i

variable {S : Finset ℕ} {s : System}

theorem ticks_succ (s : System) (n : ℕ) : ticks s (n+1) = (ticks s n).tick :=
  Function.iterate_succ_apply' System.tick n s

theorem modify_current (s : System) (i : ℕ) (f : Thread → Thread) :
    (s.modify i f).currentTid = s.currentTid := rfl

/-- What the second loop of `pick_next_thread` has found below `n`: the first of the best. -/
structure FirstBest (s : System) (n : ℕ) (b : ℕ × ℕ) : Prop where
  below : b.1 ≤ n
  found : b = (0, 255) ∨ Candidate s b.1 ∧ b.2 = (s.threads b.1).priority
  first : ∀ i < n, Candidate s i → (s.threads i).priority < 255 →
    b.2 < (s.threads i).priority ∨ b.2 = (s.threads i).priority ∧ b.1 ≤ i

theorem firstBest_better {n : ℕ} {b : ℕ × ℕ} (h : FirstBest s n b) (hn : n < 32) :
    FirstBest s (n+1) (s.better b n) := by
  have hbelow := h.below
  unfold System.better
  split_ifs with hcur hless
  · refine ⟨by omega, h.found, fun i hi hc hp => ?_⟩
    by_cases hin : i = n
    · exact absurd (hin.trans hcur) hc.2.1
    · exact h.first i (by omega) hc hp
  · refine ⟨by dsimp only; omega, .inr ⟨⟨hn, hcur, hless.1⟩, rfl⟩, fun i hi hc hp => ?_⟩
    by_cases hin : i = n
    · exact .inr ⟨by rw [hin], by omega⟩
    · rcases h.first i (by omega) hc hp with hf | ⟨hf, -⟩
      · exact .inl (by dsimp only; omega)
      · exact .inl (by dsimp only; omega)
  · refine ⟨by omega, h.found, fun i hi hc hp => ?_⟩
    by_cases hin : i = n
    · have hle : b.2 ≤ (s.threads i).priority := by
        by_contra hlt
        exact hless ⟨hin ▸ hc.2.2, hin ▸ by omega⟩
      rcases Nat.lt_or_eq_of_le hle with hlt | heq
      · exact .inl hlt
      · exact .inr ⟨heq, by omega⟩
    · exact h.first i (by omega) hc hp

theorem firstBest_range (s : System) (n : ℕ) (hn : n ≤ 32) :
    FirstBest s n ((List.range n).foldl s.better (0, 255)) := by
  have hstart : FirstBest s 0 (0, 255) := ⟨le_refl _, .inl rfl, fun i hi => by omega⟩
  exact foldl_range hstart n fun i hi b hb => firstBest_better hb (by omega)

/-- The choice among ready threads: one of best priority, and the lowest of these. -/
theorem bestReady_first {i : ℕ} (hi : Candidate s i) (hp : (s.threads i).priority < 255) :
    Candidate s s.bestReady ∧
      ((s.threads s.bestReady).priority < (s.threads i).priority ∨
        (s.threads s.bestReady).priority = (s.threads i).priority ∧ s.bestReady ≤ i) := by
  have h := firstBest_range s 32 (le_refl _)
  have hfirst := h.first i hi.1 hi hp
  unfold System.bestReady
  generalize (List.range 32).foldl s.better (0, 255) = b at h hfirst
  rcases h.found with hb | ⟨hc, hb⟩
  · rw [hb] at hfirst
    dsimp only at hfirst
    omega
  · rw [hb] at hfirst
    exact ⟨hc, hfirst⟩

/-- A switch in `schedule` goes to what the second loop finds. -/
theorem reschedule_cases (s : System) :
    (s.reschedule.currentTid = s.currentTid ∧ (s.wakeAll.bestReady = s.wakeAll.currentTid ∨
      (s.wakeAll.threads s.wakeAll.currentTid).state = .running)) ∨
    s.reschedule = s.wakeAll.switchTo s.wakeAll.bestReady := by
  have hk := (wakeAll_kept s).current
  unfold System.reschedule System.pickNextThread
  dsimp only
  generalize s.wakeAll = w at *
  by_cases hstay : w.bestReady = 0 ∧ (w.threads w.currentTid).state = .running
  · left
    rw [if_pos hstay]
    dsimp only
    rw [if_pos rfl]
    refine ⟨?_, .inr hstay.2⟩
    split_ifs <;> exact hk
  · rw [if_neg hstay]
    dsimp only
    by_cases hsame : w.bestReady = w.currentTid
    · left
      refine ⟨?_, .inl hsame⟩
      rw [if_pos hsame]
      split_ifs <;> exact hk
    · right
      rw [if_neg fun h => hsame h.1, if_neg hsame]

/-- The thread table as the tail of `schedule` finds it: aged, and the current thread's
quantum taken away when it was running. -/
def preempted (s : System) : System :=
  let s := { s with ticks := u32 (s.ticks+1) }.age
  if (s.threads s.currentTid).state = .running then
    (s.modify s.currentTid fun t =>
      { t with quantumRemaining := sub32 t.quantumRemaining 1, totalTicks := u32 (t.totalTicks+1) }
      ).modify s.currentTid fun t => { t with state := .ready, quantumRemaining := 5 }
  else s

theorem age_thread (s : System) (j : ℕ) :
    (s.age.threads j).state = (s.threads j).state ∧
    (s.age.threads j).quantumRemaining = (s.threads j).quantumRemaining ∧
    ((s.threads j).priority = 1 → (s.age.threads j).priority = 1) := by
  unfold System.age
  split_ifs
  · exact ⟨rfl, rfl, fun h => h⟩
  · dsimp only
    split_ifs with h
    · exact ⟨rfl, rfl, fun h1 => by omega⟩
    · exact ⟨rfl, rfl, fun h => h⟩

theorem age_current (s : System) : s.age.currentTid = s.currentTid := by
  unfold System.age
  split_ifs <;> rfl

theorem preempted_current (s : System) : (preempted s).currentTid = s.currentTid := by
  unfold preempted
  dsimp only
  split_ifs
  · exact age_current _
  · exact age_current _

theorem preempted_thread (s : System) {j : ℕ} (hj : j ≠ s.currentTid) :
    ((preempted s).threads j).state = (s.threads j).state ∧
    ((s.threads j).priority = 1 → ((preempted s).threads j).priority = 1) := by
  have hcur := age_current { s with ticks := u32 (s.ticks+1) }
  have hage := age_thread { s with ticks := u32 (s.ticks+1) } j
  unfold preempted
  dsimp only
  split_ifs
  · rw [modify_ne _ _ (by rw [hcur]; exact hj), modify_ne _ _ (by rw [hcur]; exact hj)]
    exact ⟨hage.1, hage.2.2⟩
  · exact ⟨hage.1, hage.2.2⟩

theorem preempted_waits (s : System) :
    ((preempted s).threads s.currentTid).state ≠ .running := by
  have hcur := age_current { s with ticks := u32 (s.ticks+1) }
  unfold preempted
  dsimp only
  split_ifs with hrun
  · rw [hcur, modify_same]
    exact nofun
  · rw [hcur] at hrun
    exact hrun

/-- A tick takes one from the quantum of a running thread, or reschedules. -/
theorem tick_cases (s : System) :
    (s.tick.currentTid = s.currentTid ∧
      (s.tick.threads s.currentTid).state = .running ∧
      (s.tick.threads s.currentTid).quantumRemaining =
        sub32 (s.threads s.currentTid).quantumRemaining 1 ∧
      0 < sub32 (s.threads s.currentTid).quantumRemaining 1) ∨
    s.tick = (preempted s).reschedule := by
  have hcur := age_current { s with ticks := u32 (s.ticks+1) }
  have hage := age_thread { s with ticks := u32 (s.ticks+1) } s.currentTid
  unfold System.tick System.schedule preempted
  dsimp only
  generalize System.age { s with ticks := u32 (s.ticks+1) } = w at *
  dsimp only at hcur hage
  rw [← hcur] at hage ⊢
  by_cases hrun : (w.threads w.currentTid).state = .running
  · rw [if_pos hrun, if_pos hrun]
    obtain ⟨v, hv⟩ : ∃ v, v = w.modify w.currentTid fun t => { t with
        quantumRemaining := sub32 t.quantumRemaining 1, totalTicks := u32 (t.totalTicks+1) } :=
      ⟨_, rfl⟩
    have hcv : v.currentTid = w.currentTid := by rw [hv, modify_current]
    have hstate : (v.threads w.currentTid).state = .running := by
      rw [hv, modify_same]
      exact hrun
    have hquantum : (v.threads w.currentTid).quantumRemaining =
        sub32 (s.threads w.currentTid).quantumRemaining 1 := by
      rw [hv, modify_same, ← hage.2.1]
    rw [← hv, hcv, ← hquantum]
    by_cases hq : 0 < (v.threads w.currentTid).quantumRemaining
    · left
      rw [if_pos hq]
      exact ⟨hcv, hstate, rfl, hq⟩
    · right
      rw [if_neg hq]
  · right
    rw [if_neg hrun, if_neg hrun]

theorem switch_next (h : Held S s.tick) (hsw : s.tick.currentTid ≠ s.currentTid) {i : ℕ}
    (hi : i ∈ S) (hne : i ≠ s.currentTid) : IsNext S s.currentTid s.tick.currentTid := by
  obtain ⟨hstay, -⟩ | htick := tick_cases s
  · exact absurd hstay hsw
  obtain ⟨hstay, -⟩ | hto := reschedule_cases (preempted s)
  · rw [htick, hstay] at hsw
    exact absurd (preempted_current s) hsw
  have hcur : (preempted s).wakeAll.currentTid = s.currentTid :=
    (wakeAll_kept (preempted s)).current.trans (preempted_current s)
  rw [← htick] at hto
  generalize (preempted s).wakeAll = w at *
  obtain ⟨h1, -, h3, h4, h5⟩ := switchTo_states w w.bestReady
  rw [← hto] at h1 h3 h4 h5
  have cand : ∀ j ∈ S, j ≠ s.currentTid → j ≠ w.bestReady →
      Candidate w j ∧ (w.threads j).priority = 1 := by
    intro j hj hjc hjb
    rw [← h5 j hjb]
    refine ⟨⟨h.slot j hj, by rwa [hcur], ?_⟩, h.priority j hj⟩
    rw [← h5 j hjb]
    exact (h.runnable j hj).resolve_right fun hr => hjb (hr.2.trans h1)
  have hmem : w.bestReady ∈ S := by
    by_cases hib : i = w.bestReady
    · exact hib ▸ hi
    · obtain ⟨hc, hp⟩ := cand i hi hne hib
      obtain ⟨hcb, hpb⟩ := bestReady_first hc (by omega)
      by_contra hout
      have := h.highest _ hcb.1 hout (.inr h3)
      omega
  have hprio : (w.threads w.bestReady).priority = 1 := h4 ▸ h.priority _ hmem
  rw [h1]
  refine ⟨hmem, fun he => hsw (h1.trans he), fun j hj hjc => ?_⟩
  by_cases hjb : j = w.bestReady
  · exact hjb.ge
  · obtain ⟨hc, hp⟩ := cand j hj hjc hjb
    have := (bestReady_first hc (by omega)).2
    omega

/-- While another thread of `S` waits, a tick without a switch only spends quantum. -/
theorem tick_progress (h : Held S s) {i : ℕ} (hi : i ∈ S) (hne : i ≠ s.currentTid)
    (hstay : s.tick.currentTid = s.currentTid) :
    (s.tick.threads s.currentTid).quantumRemaining =
        sub32 (s.threads s.currentTid).quantumRemaining 1 ∧
      0 < sub32 (s.threads s.currentTid).quantumRemaining 1 := by
  obtain ⟨-, -, hq, hpos⟩ | htick := tick_cases s
  · exact ⟨hq, hpos⟩
  exfalso
  have hk := wakeAll_kept (preempted s)
  obtain ⟨hst, hpr⟩ := preempted_thread s hne
  have hready : (s.threads i).state = .ready :=
    (h.runnable i hi).resolve_right fun hr => hne hr.2
  have hcur : (preempted s).wakeAll.currentTid = s.currentTid :=
    hk.current.trans (preempted_current s)
  have hc : Candidate (preempted s).wakeAll i :=
    ⟨h.slot i hi, by rwa [hcur], woken_ready (hk.threads i) (hst.trans hready)⟩
  have hp : ((preempted s).wakeAll.threads i).priority = 1 :=
    (hk.threads i).1.trans (hpr (h.priority i hi))
  have hbest := (bestReady_first hc (by omega)).1
  obtain ⟨-, hb | hrun⟩ | hto := reschedule_cases (preempted s)
  · exact hbest.2.1 hb
  · rw [hcur] at hrun
    exact woken_running (hk.threads s.currentTid) (preempted_waits s) hrun
  · rw [htick, hto, (switchTo_states _ _).1] at hstay
    exact hbest.2.1 (hstay.trans hcur.symm)

/-- The last moment before a value changes for the first time. -/
theorem first_change {f : ℕ → ℕ} {n m : ℕ} (hnm : n ≤ m) (h : f m ≠ f n) :
    ∃ k, n ≤ k ∧ k < m ∧ (∀ j, n ≤ j → j ≤ k → f j = f n) ∧ f (k+1) ≠ f n := by
  have hex : ∃ j, n ≤ j ∧ f j ≠ f n := ⟨m, hnm, h⟩
  obtain ⟨j, ⟨hnj, hne⟩, hmin⟩ : ∃ j, (n ≤ j ∧ f j ≠ f n) ∧ ∀ k < j, ¬ (n ≤ k ∧ f k ≠ f n) :=
    ⟨Nat.find hex, Nat.find_spec hex, fun k hk => Nat.find_min hex hk⟩
  have hlt : n < j := lt_of_le_of_ne hnj fun he => hne (by rw [he])
  have hjm : j ≤ m := by
    by_contra hmj
    exact hmin m (by omega) ⟨hnm, h⟩
  refine ⟨j-1, by omega, by omega, fun k hk hkj => ?_, ?_⟩
  · exact not_not.mp fun hk' => hmin k (by omega) ⟨hk, hk'⟩
  · rwa [show j-1+1 = j by omega]

theorem isNext_two {a b d : ℕ} (hS : S.card ≤ 2) (ha : a ∈ S) (hb : b ∈ S) (hab : b ≠ a)
    (h : IsNext S a d) : d = b := by
  by_contra hdb
  have hsub : ({a, b, d} : Finset ℕ) ⊆ S := by
    intro x hx
    rcases Finset.mem_insert.mp hx with rfl | hx
    · exact ha
    rcases Finset.mem_insert.mp hx with rfl | hx
    · exact hb
    · exact Finset.mem_singleton.mp hx ▸ h.1
  have hthree : ({a, b, d} : Finset ℕ).card = 3 :=
    Finset.card_eq_three.mpr ⟨a, b, d, hab.symm, h.2.1.symm, fun he => hdb he.symm, rfl⟩
  have := Finset.card_le_card hsub
  omega

/-- Two threads take turns. -/
theorem two_take_turns (hS : S.card ≤ 2) {N : ℕ} (h : ∀ n ≤ N, Held S (ticks s n)) :
    TakesTurns S s N := by
  intro a ha b hb hab n m hnm hmN hn hm _
  obtain ⟨k, hk, hkm, hall, hchange⟩ := first_change (f := fun j => (ticks s j).currentTid)
    (n := n+1) (m := m) (by omega) (by rw [hn.2]; exact hm.1)
  have hka : (ticks s k).currentTid = a := (hall k hk (le_refl _)).trans hn.2
  rw [hn.2] at hchange
  have hnext : IsNext S a (ticks s (k+1)).currentTid := by
    have hheld := h (k+1) (by omega)
    rw [ticks_succ] at hheld hchange ⊢
    rw [← hka]
    exact switch_next hheld (by rw [hka]; exact hchange) hb (by rw [hka]; exact hab)
  refine ⟨k, by omega, hkm, ?_, isNext_two hS ha hb hab hnext⟩
  rw [hka]
  exact hab.symm

theorem sub32_lt (a b : ℕ) : sub32 a b < 4294967296 := by
  unfold sub32
  omega

/-- A quantum lasts finitely many ticks: the current thread changes again. -/
theorem switches_again (h : ∀ n, Held S (ticks s n)) (hS : ∀ c, ∃ i ∈ S, i ≠ c) (n : ℕ) :
    ∃ m, n ≤ m ∧ (∀ k, n ≤ k → k ≤ m → (ticks s k).currentTid = (ticks s n).currentTid) ∧
      IsNext S (ticks s n).currentTid (ticks s (m+1)).currentTid := by
  obtain ⟨i, hi, hne⟩ := hS (ticks s n).currentTid
  have hex : ∃ m, n ≤ m ∧ (ticks s m).currentTid ≠ (ticks s n).currentTid := by
    by_contra hno
    have hsame : ∀ m, n ≤ m → (ticks s m).currentTid = (ticks s n).currentTid :=
      fun m hm => not_not.mp fun hne => hno ⟨m, hm, hne⟩
    generalize (ticks s n).currentTid = c at hne hsame
    have hspend : ∀ m, n ≤ m → ((ticks s (m+1)).threads c).quantumRemaining =
        sub32 ((ticks s m).threads c).quantumRemaining 1 ∧
        0 < sub32 ((ticks s m).threads c).quantumRemaining 1 := by
      intro m hm
      have hc := hsame m hm
      have hstay : (ticks s m).tick.currentTid = (ticks s m).currentTid := by
        rw [← ticks_succ, hsame (m+1) (by omega), hc]
      have := tick_progress (h m) hi (by rwa [hc]) hstay
      rwa [hc, ← ticks_succ] at this
    -- the quantum counts down from its value one tick later
    obtain ⟨q, hq⟩ : ∃ q, ((ticks s (n+1)).threads c).quantumRemaining = q := ⟨_, rfl⟩
    have hdown : ∀ j, ((ticks s (n+1+j)).threads c).quantumRemaining+j = q := by
      intro j
      induction j with
      | zero => exact hq
      | succ j ih =>
        have h0 := hspend (n+j) (by omega)
        have h1 := hspend (n+1+j) (by omega)
        have hlt := sub32_lt ((ticks s (n+j)).threads c).quantumRemaining 1
        rw [show n+j+1 = n+1+j by omega] at h0
        rw [show n+1+(j+1) = n+1+j+1 by omega, h1.1, sub32_of_le (by omega) (by omega)]
        omega
    have h0 := hdown (q+1)
    omega
  obtain ⟨m, hm, hne'⟩ := hex
  obtain ⟨k, hk, -, hall, hchange⟩ :=
    first_change (f := fun j => (ticks s j).currentTid) hm hne'
  refine ⟨k, hk, hall, ?_⟩
  have hck := hall k hk (le_refl _)
  have hheld := h (k+1)
  rw [ticks_succ] at hheld hchange ⊢
  rw [← hck] at hchange hne ⊢
  exact switch_next hheld hchange hi hne

/-- With three threads or more, the two lowest run in turn and the others are bypassed. -/
theorem third_bypassed (h : ∀ n, Held S (ticks s n)) (hS : 2 < S.card) :
    ∃ N, ¬ TakesTurns S s N := by
  have hother : ∀ c, ∃ i ∈ S, i ≠ c := by
    intro c
    obtain ⟨i, hi, hic⟩ := Finset.exists_mem_notMem_of_card_lt_card
      (s := {c}) (t := S) (by rw [Finset.card_singleton]; omega)
    exact ⟨i, hi, fun he => hic (Finset.mem_singleton.mpr he)⟩
  have hne : S.Nonempty := Finset.card_pos.mp (by omega)
  obtain ⟨p, hp, hpmin⟩ : ∃ p ∈ S, ∀ i ∈ S, p ≤ i :=
    ⟨S.min' hne, S.min'_mem hne, fun i hi => S.min'_le i hi⟩
  have toLowest : ∀ c d, c ≠ p → IsNext S c d → d = p := fun c d hc hd =>
    le_antisymm (hd.2.2 p hp fun he => hc he.symm) (hpmin d hd.1)
  have hstart : ∃ t, SwitchesTo s p t := by
    obtain ⟨m, -, hall, hnext⟩ := switches_again h hother 0
    by_cases h0 : (ticks s 0).currentTid = p
    · obtain ⟨m', hm', hall', hnext'⟩ := switches_again h hother (m+1)
      have hcp : (ticks s (m+1)).currentTid ≠ p := h0 ▸ hnext.2.1
      exact ⟨m', by rw [hall' m' hm' (le_refl _)]; exact hcp, toLowest _ _ hcp hnext'⟩
    · exact ⟨m, by rw [hall m (Nat.zero_le _) (le_refl _)]; exact h0, toLowest _ _ h0 hnext⟩
  obtain ⟨t, ht⟩ := hstart
  obtain ⟨t', ht', hp', hnext⟩ := switches_again h hother (t+1)
  obtain ⟨t'', ht'', hq', hnext'⟩ := switches_again h hother (t'+1)
  rw [ht.2] at hp' hnext
  obtain ⟨q, hq⟩ : ∃ q, (ticks s (t'+1)).currentTid = q := ⟨_, rfl⟩
  rw [hq] at hq' hnext hnext'
  have hback := toLowest q _ hnext.2.1 hnext'
  obtain ⟨r, hr, hrpq⟩ := Finset.exists_mem_notMem_of_card_lt_card
    (s := {p, q}) (t := S) (lt_of_le_of_lt Finset.card_le_two hS)
  rw [Finset.mem_insert, Finset.mem_singleton, not_or] at hrpq
  have hbetween : ∀ k, t < k → k ≤ t'' →
      (ticks s k).currentTid = p ∨ (ticks s k).currentTid = q := by
    intro k hk hk'
    by_cases hle : k ≤ t'
    · exact .inl (hp' k (by omega) hle)
    · exact .inr (hq' k (by omega) hk')
  refine ⟨t''+1, fun hturns => ?_⟩
  have hagain : SwitchesTo s p t'' := by
    refine ⟨?_, hback⟩
    rw [hq' t'' ht'' (le_refl _)]
    exact hnext.2.1
  have hnone : ∀ k, t < k → k < t'' → ¬ SwitchesTo s p k := by
    rintro k hk hk' ⟨h1, h2⟩
    rcases hbetween k hk (by omega) with he | he
    · exact h1 he
    · have : t' < k := by
        by_contra hle
        exact h1 (hp' k (by omega) (by omega))
      rw [hq' (k+1) (by omega) (by omega)] at h2
      exact hnext.2.1 h2
  obtain ⟨k, hk, hk', -, hkr⟩ := hturns p hp r hr hrpq.1 t t'' (by omega) (by omega) ht hagain hnone
  rcases hbetween (k+1) (by omega) (by omega) with he | he
  · exact hrpq.1 (hkr.symm.trans he)
  · exact hrpq.2 (hkr.symm.trans he)

/-- Threads of equal priority take their turns in every run exactly when there are at most
two of them. -/
theorem takes_turns_iff (S : Finset ℕ) (s : System) :
    (S.card ≤ 2 → ∀ N, (∀ n ≤ N, Held S (ticks s n)) → TakesTurns S s N) ∧
      (2 < S.card → (∀ n, Held S (ticks s n)) → ∃ N, ¬ TakesTurns S s N) :=
  ⟨fun hS _ h => two_take_turns hS h, fun hS h => third_bypassed h hS⟩

/-- The boot thread and `n` threads of priority 1. -/
def equalThreads (n : ℕ) : System :=
  (List.range n).foldl (fun s _ => s.threadCreate 1) (System.threadInit 1 0 fun _ _ => noMessage)

theorem two_threads_take_turns :
    (∀ n ≤ 16, Held {1, 2} (ticks (equalThreads 2) n)) ∧ TakesTurns {1, 2} (equalThreads 2) 16 :=
  have h : ∀ n ≤ 16, Held {1, 2} (ticks (equalThreads 2) n) := by decide +kernel
  ⟨h, (takes_turns_iff {1, 2} (equalThreads 2)).1 (by decide) 16 h⟩

/-- Thread 1 is switched to by the ticks 4 and 14, and thread 3 never. -/
theorem third_thread_waits :
    (∀ n ≤ 16, Held {1, 2, 3} (ticks (equalThreads 3) n)) ∧
      ¬ TakesTurns {1, 2, 3} (equalThreads 3) 16 := by
  refine ⟨by decide +kernel, fun h => ?_⟩
  have hnone : ∀ k < 14, 4 < k →
      ¬ SwitchesTo (equalThreads 3) 1 k ∧ ¬ SwitchesTo (equalThreads 3) 3 k := by
    decide +kernel
  obtain ⟨k, hk, hk', hsw⟩ := h 1 (by decide) 3 (by decide) (by decide) 4 14 (by decide)
    (by decide) (by decide +kernel) (by decide +kernel) fun k hk hk' => (hnone k hk' hk).1
  exact (hnone k hk' hk).2 hsw

end Vlsmc.RoundRobin
