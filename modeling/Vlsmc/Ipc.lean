import Vlsmc.SchedulerRuns

/-!
# Messages between threads

The ring of four messages of each thread, `sys_send_msg` and one round of the
loop in `sys_recv_msg`, over the scheduler.
-/

set_option autoImplicit false

namespace Vlsmc.Ipc
open Vlsmc.Words Vlsmc.Scheduler Vlsmc.SchedulerRuns

/-- `true` when the call returns 0. Only `size` bytes of `data` are read. -/
def sysSendMsg (s : System) (targetTid : ℤ) (data : ℕ → ℕ) (size : ℕ) : Bool × System :=
  if targetTid < 0 ∨ 32 ≤ targetTid ∨ 512 < size then (false, s)
  else
    let target := s.threads targetTid.toNat
    if target.state = .unused ∨ target.state = .terminated then (false, s)
    else if 4 ≤ target.msgCount then (false, s)
    else
      let old := target.messages target.msgTail
      let msg : IpcMessage := ⟨s.currentTid, size, fun i => if i < size then data i else old.data i⟩
      let s := s.modify targetTid.toNat fun t => { t with
        messages := fun i => if i = t.msgTail then msg else t.messages i
        msgTail := (t.msgTail+1)%4
        msgCount := t.msgCount+1 }
      if (s.threads targetTid.toNat).waitingForMsg then
        (true, (s.modify targetTid.toNat fun t => { t with waitingForMsg := false }).unblock
          targetTid)
      else (true, s)

/-- The sender and the bytes that were copied, or `none` when the thread blocked. -/
def sysRecvMsg (s : System) (maxSize : ℕ) : Option (ℕ × List ℕ) × System :=
  let cur := s.threads s.currentTid
  if 0 < cur.msgCount then
    let msg := cur.messages cur.msgHead
    let copySz := if msg.size < maxSize then msg.size else maxSize
    (some (msg.senderTid, (List.range copySz).map msg.data),
      s.modify s.currentTid fun t => { t with
        msgHead := (t.msgHead+1)%4
        msgCount := t.msgCount-1 })
  else
    (none, (s.modify s.currentTid fun t => { t with waitingForMsg := true }).blockCurrent (-1))

def Live (state : ThreadState) : Prop := state ≠ .unused ∧ state ≠ .terminated ∧ state ≠ .zombie

/-- What the scheduler leaves of a thread: its messages, its life, and it is not
blocked anew. -/
structure Undisturbed (t t' : Thread) : Prop where
  messages : t'.messages = t.messages
  head : t'.msgHead = t.msgHead
  tail : t'.msgTail = t.msgTail
  count : t'.msgCount = t.msgCount
  waiting : t'.waitingForMsg = t.waitingForMsg
  blocked : t'.state = .blocked → t.state = .blocked
  live : Live t.state → Live t'.state

theorem Undisturbed.refl (t : Thread) : Undisturbed t t :=
  ⟨rfl, rfl, rfl, rfl, rfl, id, id⟩

theorem Undisturbed.trans {t t' t'' : Thread} (h : Undisturbed t t') (h' : Undisturbed t' t'') :
    Undisturbed t t'' :=
  ⟨h'.messages.trans h.messages, h'.head.trans h.head, h'.tail.trans h.tail,
    h'.count.trans h.count, h'.waiting.trans h.waiting, fun hb => h.blocked (h'.blocked hb),
    fun hl => h'.live (h.live hl)⟩

def Quiet (s s' : System) : Prop := ∀ j, Undisturbed (s.threads j) (s'.threads j)

variable {s : System}

theorem quiet_refl (s : System) : Quiet s s := fun _ => Undisturbed.refl _

theorem quiet_trans {s s' s'' : System} (h : Quiet s s') (h' : Quiet s' s'') : Quiet s s'' :=
  fun j => (h j).trans (h' j)

theorem quiet_modify {i : ℕ} {f : Thread → Thread} (h : Undisturbed (s.threads i) (f (s.threads i))) :
    Quiet s (s.modify i f) := by
  intro j
  by_cases hj : j = i
  · rw [hj, modify_same]
    exact h
  · rw [modify_ne _ _ hj]
    exact Undisturbed.refl _

theorem quiet_setCount (s : System) (n : ℤ) : Quiet s (s.setCount n) :=
  fun _ => Undisturbed.refl _

/-- A thread becomes ready or running. -/
theorem undisturbed_state (t : Thread) {t' : Thread} (hm : t'.messages = t.messages)
    (hh : t'.msgHead = t.msgHead) (ht : t'.msgTail = t.msgTail) (hc : t'.msgCount = t.msgCount)
    (hw : t'.waitingForMsg = t.waitingForMsg) (hs : t'.state = .ready ∨ t'.state = .running) :
    Undisturbed t t' := by
  refine ⟨hm, hh, ht, hc, hw, fun hb => ?_, fun _ => ?_⟩
  · rcases hs with hs | hs <;> rw [hs] at hb <;> exact absurd hb (by simp)
  · rcases hs with hs | hs <;> rw [hs] <;> exact ⟨by simp, by simp, by simp⟩

theorem quiet_dropDirectory (s : System) (i : ℕ) : Quiet s (s.dropDirectory i) := by
  have h3 := (destroyAddressSpace_spec s (s.threads i).pageDirectoryPhys).2.2
  unfold System.dropDirectory
  dsimp only
  split_ifs
  · apply quiet_trans (fun j => by rw [h3]; exact Undisturbed.refl _)
    apply quiet_modify
    exact ⟨rfl, rfl, rfl, rfl, rfl, id, id⟩
  · exact quiet_refl s

theorem quiet_wake (s : System) (i : ℕ) : Quiet s (s.wake i) := by
  have hready : ∀ s : System,
      Quiet s (s.modify i fun t => { t with state := .ready, blockedChannelId := -1 }) := by
    intro s
    apply quiet_modify
    exact undisturbed_state _ rfl rfl rfl rfl rfl (Or.inl rfl)
  have hclean : (s.threads i).state = .terminated → Quiet s (s.threadCleanup i) := by
    intro ht
    unfold System.threadCleanup System.setState
    apply quiet_trans (quiet_dropDirectory s i)
    apply quiet_trans _ (quiet_setCount _ _)
    apply quiet_modify
    refine ⟨rfl, rfl, rfl, rfl, rfl, fun hb => by simp at hb, fun hl => ?_⟩
    rw [((dropDirectory_spec s i).2.2.1 i).1, ht] at hl
    exact absurd rfl hl.2.1
  unfold System.wake
  dsimp only
  by_cases h1 : (s.threads i).state = .terminated ∧ i ≠ s.currentTid
  · rw [if_pos h1]
    split_ifs
    · exact quiet_trans (hclean h1.1) (hready _)
    · exact hclean h1.1
  · rw [if_neg h1]
    split_ifs
    · exact hready s
    · exact quiet_refl s

theorem quiet_wakeAll (s : System) : Quiet s s.wakeAll := by
  unfold System.wakeAll
  generalize List.range 32 = l
  induction l generalizing s with
  | nil => exact quiet_refl s
  | cons i l ih => exact quiet_trans (quiet_wake s i) (ih _)

theorem quiet_pickNextThread (s : System) : Quiet s s.pickNextThread.2 := by
  have h := quiet_wakeAll s
  unfold System.pickNextThread
  generalize s.wakeAll = w at *
  dsimp only
  split_ifs <;> exact h

theorem quiet_switchTo (s : System) (next : ℕ) : Quiet s (s.switchTo next) := by
  intro j
  rw [switchTo_threads]
  split_ifs
  · exact undisturbed_state _ rfl rfl rfl rfl rfl (Or.inr rfl)
  · exact Undisturbed.refl _

theorem quiet_giveUp (s : System) : Quiet s s.giveUp := by
  have h := quiet_pickNextThread s
  unfold System.giveUp
  dsimp only
  generalize s.pickNextThread = r at *
  split_ifs
  · exact quiet_trans h (quiet_switchTo _ _)
  · exact h

theorem quiet_reschedule (s : System) : Quiet s s.reschedule := by
  have h := quiet_pickNextThread s
  unfold System.reschedule
  dsimp only
  generalize s.pickNextThread = r at *
  split_ifs
  · apply quiet_trans h
    apply quiet_modify
    exact undisturbed_state _ rfl rfl rfl rfl rfl (Or.inr rfl)
  · exact h
  · exact quiet_trans h (quiet_switchTo _ _)

theorem quiet_age (s : System) : Quiet s s.age := by
  unfold System.age
  split_ifs
  · exact fun _ => Undisturbed.refl _
  · intro j
    dsimp only
    split_ifs
    · exact ⟨rfl, rfl, rfl, rfl, rfl, id, id⟩
    · exact Undisturbed.refl _

theorem quiet_schedule (s : System) : Quiet s s.schedule := by
  have ha := quiet_age s
  unfold System.schedule
  generalize s.age = a at *
  dsimp only
  split
  · have hq : Quiet a (a.modify a.currentTid fun t => { t with
        quantumRemaining := sub32 t.quantumRemaining 1
        totalTicks := u32 (t.totalTicks+1) }) := by
      apply quiet_modify
      exact ⟨rfl, rfl, rfl, rfl, rfl, id, id⟩
    generalize a.modify a.currentTid _ = b at *
    split
    · exact quiet_trans ha hq
    · apply quiet_trans (quiet_trans ha hq)
      apply quiet_trans _ (quiet_reschedule _)
      apply quiet_modify
      exact undisturbed_state _ rfl rfl rfl rfl rfl (Or.inl rfl)
  · exact quiet_trans ha (quiet_reschedule _)

theorem quiet_tick (s : System) : Quiet s s.tick := by
  unfold System.tick
  apply quiet_trans _ (quiet_schedule _)
  exact fun _ => Undisturbed.refl _

theorem quiet_unblock (s : System) (tid : ℤ) : Quiet s (s.unblock tid) := by
  unfold System.unblock
  split_ifs
  · exact quiet_refl s
  · apply quiet_modify
    exact undisturbed_state _ rfl rfl rfl rfl rfl (Or.inl rfl)
  · exact quiet_refl s

end Vlsmc.Ipc
