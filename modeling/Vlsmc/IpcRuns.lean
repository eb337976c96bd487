import Mathlib.Data.List.Forall2
import Vlsmc.RingQueue
import Vlsmc.Ipc

/-!
# Every message is delivered once and in order

One thread receives while any thread may send. The record of a run holds the
messages whose send succeeded and what the receives returned.
-/

set_option autoImplicit false

namespace Vlsmc.IpcRuns
open Vlsmc.Words Vlsmc.Scheduler Vlsmc.SchedulerRuns Vlsmc.Ipc

/-- A sender and the bytes it sent. -/
abbrev Letter := ℕ × List ℕ

def letterOf (m : IpcMessage) : Letter := (m.senderTid, (List.range m.size).map m.data)

/-- The messages that wait for a thread, oldest first. -/
def queueOf (t : Thread) : List Letter :=
  (RingQueue.entries t.messages t.msgHead t.msgCount 4).map letterOf

/-- What a receive with room for `r.1` bytes returns of a letter. -/
def Received (m : Letter) (r : ℕ × Letter) : Prop := r.2 = (m.1, m.2.take r.1)

/-- `receiving` is the room of the receive that the thread is inside of. -/
structure Traffic where
  system : System
  receiving : Option ℕ
  sent : List Letter
  received : List (ℕ × Letter)

inductive Move where
  | send (targetTid : ℤ) (data : ℕ → ℕ) (size : ℕ)
  | recv (maxSize : ℕ)
  | other (a : Step)

/-- What a thread inside of its receive loop can do: go on with the loop, or be
interrupted. -/
def Inside (maxSize : ℕ) : Move → Prop
  | .recv m => m = maxSize
  | .other .tick | .other (.unblock _) => True
  | _ => False

/-- The receiver stays alive. -/
def Stays : Move → Prop
  | .other .terminate | .other (.exit _) => False
  | _ => True

def AllowedMove (tid : ℕ) (r : Traffic) (m : Move) : Prop :=
  r.system.currentTid = tid → Stays m ∧ ∀ maxSize ∈ r.receiving, Inside maxSize m

def move (tid : ℕ) (r : Traffic) : Move → Traffic
  | .send targetTid data size =>
    let result := sysSendMsg r.system targetTid data size
    { r with
      system := result.2
      sent :=
        if result.1 ∧ targetTid = tid then
          r.sent++[(r.system.currentTid, (List.range size).map data)]
        else r.sent }
  | .recv maxSize =>
    let result := sysRecvMsg r.system maxSize
    if r.system.currentTid = tid then
      match result.1 with
      | some letter =>
        { r with
          system := result.2
          receiving := none
          received := r.received++[(maxSize, letter)] }
      | none => { r with system := result.2, receiving := some maxSize }
    else { r with system := result.2 }
  | .other a => { r with system := step r.system a }

def moves (tid : ℕ) (r : Traffic) (ms : List Move) : Traffic := ms.foldl (move tid) r

def AllowedMoves (tid : ℕ) (r : Traffic) : List Move → Prop
  | [] => True
  | m::ms => AllowedMove tid r m ∧ AllowedMoves tid (move tid r m) ms

/-- The receiver between two moves. -/
structure Delivering (t : Thread) (receiving : Option ℕ) (sent : List Letter)
    (received : List (ℕ × Letter)) : Prop where
  live : Live t.state
  head : t.msgHead < 4
  tail : t.msgTail = (t.msgHead+t.msgCount)%4
  count : t.msgCount ≤ 4
  history : ∃ taken, sent = taken++queueOf t ∧ List.Forall₂ Received taken received
  waiting : t.waitingForMsg = true → t.msgCount = 0
  asleep : receiving ≠ none → t.state = .blocked → t.waitingForMsg = true

variable {t t' : Thread} {receiving : Option ℕ} {sent : List Letter}
variable {received : List (ℕ × Letter)} {s s' : System} {tid : ℕ}

theorem delivering_undisturbed (h : Delivering t receiving sent received)
    (hu : Undisturbed t t') : Delivering t' receiving sent received := by
  refine ⟨hu.live h.live, ?_, ?_, ?_, ?_, ?_, ?_⟩
  · rw [hu.head]
    exact h.head
  · rw [hu.tail, hu.head, hu.count]
    exact h.tail
  · rw [hu.count]
    exact h.count
  · unfold queueOf
    rw [hu.messages, hu.head, hu.count]
    exact h.history
  · rw [hu.waiting, hu.count]
    exact h.waiting
  · intro hr hb
    rw [hu.waiting]
    exact h.asleep hr (hu.blocked hb)

/-- Outside of a receive the thread may also block for another reason. -/
theorem delivering_busy (h : Delivering t none sent received) (hl : Live t'.state)
    (hm : t'.messages = t.messages) (hh : t'.msgHead = t.msgHead) (ht : t'.msgTail = t.msgTail)
    (hc : t'.msgCount = t.msgCount) (hw : t'.waitingForMsg = t.waitingForMsg) :
    Delivering t' none sent received := by
  refine ⟨hl, ?_, ?_, ?_, ?_, ?_, fun hr => absurd rfl hr⟩
  · rw [hh]
    exact h.head
  · rw [ht, hh, hc]
    exact h.tail
  · rw [hc]
    exact h.count
  · unfold queueOf
    rw [hm, hh, hc]
    exact h.history
  · rw [hw, hc]
    exact h.waiting

theorem undisturbed_modify_ne {i : ℕ} (f : Thread → Thread) (h : tid ≠ i) :
    Undisturbed (s.threads tid) ((s.modify i f).threads tid) := by
  rw [modify_ne _ _ h]
  exact Undisturbed.refl _

/-- The current thread leaves, whatever it becomes. -/
theorem undisturbed_leave (f : Thread → Thread) (h : tid ≠ s.currentTid) :
    Undisturbed (s.threads tid) ((s.modify s.currentTid f).giveUp.threads tid) :=
  (undisturbed_modify_ne f h).trans (quiet_giveUp _ _)

theorem not_unused_of_live {i : ℕ} (hl : Live (s.threads tid).state)
    (hi : (s.threads i).state = .unused) : tid ≠ i := by
  intro he
  rw [he] at hl
  exact hl.1 hi

theorem undisturbed_threadCreate (hl : Live (s.threads tid).state) (priority : ℕ) :
    Undisturbed (s.threads tid) ((s.threadCreate priority).threads tid) := by
  unfold System.threadCreate
  cases hf : s.findUnused with
  | none => exact Undisturbed.refl _
  | some i =>
    dsimp only
    rw [setCount_threads]
    exact undisturbed_modify_ne _ (not_unused_of_live hl (findUnused_some hf).2.2)

theorem undisturbed_sysFork (hl : Live (s.threads tid).state) (newDir : ℕ) :
    Undisturbed (s.threads tid) ((s.sysFork newDir).threads tid) := by
  unfold System.sysFork
  cases hf : s.findUnused with
  | none => exact Undisturbed.refl _
  | some i =>
    have hne := not_unused_of_live hl (findUnused_some hf).2.2
    dsimp only
    split_ifs
    · exact (undisturbed_modify_ne _ hne).trans (undisturbed_modify_ne _ hne)
    · rw [setCount_threads]
      exact (undisturbed_modify_ne _ hne).trans (undisturbed_modify_ne _ hne)

theorem undisturbed_blockCurrent (h : tid ≠ s.currentTid) (channelId : ℤ) :
    Undisturbed (s.threads tid) ((s.blockCurrent channelId).threads tid) := by
  unfold System.blockCurrent
  exact undisturbed_leave _ h

theorem undisturbed_sleepCurrent (h : tid ≠ s.currentTid) (ms : ℕ) :
    Undisturbed (s.threads tid) ((s.sleepCurrent ms).threads tid) := by
  unfold System.sleepCurrent
  dsimp only
  generalize u32 (s.ticks+_) = wakeTick
  exact undisturbed_leave _ h

theorem undisturbed_terminateCurrent (h : tid ≠ s.currentTid) :
    Undisturbed (s.threads tid) (s.terminateCurrent.threads tid) := by
  unfold System.terminateCurrent System.setState
  exact undisturbed_leave _ h

theorem undisturbed_sysExit (h : tid ≠ s.currentTid) (exitCode : ℕ) :
    Undisturbed (s.threads tid) ((s.sysExit exitCode).threads tid) := by
  have h1 : Undisturbed (s.threads tid) (((s.modify s.currentTid fun t =>
      { t with exitCode := exitCode }).dropDirectory s.currentTid).threads tid) :=
    (undisturbed_modify_ne _ h).trans (quiet_dropDirectory _ _ _)
  have hcur : ((s.modify s.currentTid fun t => { t with exitCode := exitCode }).dropDirectory
      s.currentTid).currentTid = s.currentTid := (dropDirectory_spec _ _).1
  unfold System.sysExit
  dsimp only
  generalize (s.modify s.currentTid fun t => { t with exitCode := exitCode }).dropDirectory
    s.currentTid = a at *
  rw [← hcur] at h ⊢
  apply h1.trans
  split
  · have h2 : Undisturbed (a.threads tid) ((a.setState a.currentTid .zombie).threads tid) :=
      undisturbed_modify_ne _ h
    generalize a.setState a.currentTid .zombie = b at *
    apply h2.trans
    split
    · exact (quiet_unblock _ _ _).trans (quiet_giveUp _ _)
    · exact quiet_giveUp _ _
  · exact undisturbed_terminateCurrent h

/-- Waiting for a child, seen from another thread. -/
theorem undisturbed_sysWait (hl : Live (s.threads tid).state) (h : tid ≠ s.currentTid) :
    Undisturbed (s.threads tid) (s.sysWait.threads tid) := by
  unfold System.sysWait
  split
  · rename_i child hc
    have hp := List.find?_some hc
    simp only [decide_eq_true_eq] at hp
    rw [setCount_threads]
    unfold System.setState
    apply undisturbed_modify_ne
    intro he
    rw [he] at hl
    exact hl.2.2 hp.2.2
  · split_ifs
    · exact undisturbed_blockCurrent h _
    · exact Undisturbed.refl _

/-- The receiver itself leaves, outside of a receive. -/
theorem delivering_leave (h : Delivering (s.threads s.currentTid) none sent received)
    {f : Thread → Thread} (hl : Live (f (s.threads s.currentTid)).state)
    (hf : ∀ t, (f t).messages = t.messages ∧ (f t).msgHead = t.msgHead ∧
      (f t).msgTail = t.msgTail ∧ (f t).msgCount = t.msgCount ∧
      (f t).waitingForMsg = t.waitingForMsg) :
    Delivering ((s.modify s.currentTid f).giveUp.threads s.currentTid) none sent received := by
  obtain ⟨h1, h2, h3, h4, h5⟩ := hf (s.threads s.currentTid)
  have h6 := delivering_busy h hl h1 h2 h3 h4 h5
  rw [← modify_same s s.currentTid f] at h6
  exact delivering_undisturbed h6 (quiet_giveUp _ _)

theorem delivering_blockCurrent (h : Delivering (s.threads s.currentTid) none sent received)
    (channelId : ℤ) :
    Delivering ((s.blockCurrent channelId).threads s.currentTid) none sent received := by
  unfold System.blockCurrent
  exact delivering_leave h ⟨by simp, by simp, by simp⟩ (fun _ => ⟨rfl, rfl, rfl, rfl, rfl⟩)

theorem delivering_sleepCurrent (h : Delivering (s.threads s.currentTid) none sent received)
    (ms : ℕ) : Delivering ((s.sleepCurrent ms).threads s.currentTid) none sent received := by
  unfold System.sleepCurrent
  dsimp only
  generalize u32 (s.ticks+_) = wakeTick
  exact delivering_leave h ⟨by simp, by simp, by simp⟩ (fun _ => ⟨rfl, rfl, rfl, rfl, rfl⟩)

theorem delivering_sysWait (h : Delivering (s.threads s.currentTid) none sent received) :
    Delivering (s.sysWait.threads s.currentTid) none sent received := by
  unfold System.sysWait
  split
  · rename_i child hc
    have hp := List.find?_some hc
    simp only [decide_eq_true_eq] at hp
    apply delivering_undisturbed h
    rw [setCount_threads]
    unfold System.setState
    apply undisturbed_modify_ne
    intro he
    have hl := h.live
    rw [he] at hl
    exact hl.2.2 hp.2.2
  · split_ifs
    · exact delivering_blockCurrent h _
    · exact h

/-- Every step of the scheduler that another thread takes. -/
theorem undisturbed_step (hl : Live (s.threads tid).state) (h : tid ≠ s.currentTid) (a : Step) :
    Undisturbed (s.threads tid) ((step s a).threads tid) := by
  cases a with simp only [step]
  | tick => exact quiet_tick s tid
  | block channelId => exact undisturbed_blockCurrent h channelId
  | unblock i => exact quiet_unblock s i tid
  | sleep ms => exact undisturbed_sleepCurrent h ms
  | terminate => exact undisturbed_terminateCurrent h
  | create priority => exact undisturbed_threadCreate hl priority
  | fork newDir => exact undisturbed_sysFork hl newDir
  | exit exitCode => exact undisturbed_sysExit h exitCode
  | wait => exact undisturbed_sysWait hl h

theorem delivering_other (h : Delivering (s.threads tid) receiving sent received) (a : Step)
    (ha : s.currentTid = tid → Stays (.other a) ∧ ∀ maxSize ∈ receiving, Inside maxSize (.other a)) :
    Delivering ((step s a).threads tid) receiving sent received := by
  by_cases hc : tid = s.currentTid
  · obtain ⟨hstays, hin⟩ := ha hc.symm
    cases receiving with
    | some maxSize =>
      have := hin maxSize rfl
      cases a with
      | tick => exact delivering_undisturbed h (quiet_tick s tid)
      | unblock i => exact delivering_undisturbed h (quiet_unblock s i tid)
      | _ => exact absurd this id
    | none =>
      subst hc
      cases a with simp only [step]
      | tick => exact delivering_undisturbed h (quiet_tick s _)
      | unblock i => exact delivering_undisturbed h (quiet_unblock s i _)
      | block channelId => exact delivering_blockCurrent h channelId
      | sleep ms => exact delivering_sleepCurrent h ms
      | create priority => exact delivering_undisturbed h (undisturbed_threadCreate h.live priority)
      | fork newDir => exact delivering_undisturbed h (undisturbed_sysFork h.live newDir)
      | wait => exact delivering_sysWait h
      | terminate => exact absurd hstays id
      | exit exitCode => exact absurd hstays id
  · exact delivering_undisturbed h (undisturbed_step h.live hc a)

theorem queueOf_push {m : IpcMessage} (hc : t.msgCount < 4)
    (ht : t.msgTail = (t.msgHead+t.msgCount)%4)
    (hm : t'.messages = fun i => if i = t.msgTail then m else t.messages i)
    (hh : t'.msgHead = t.msgHead) (hc' : t'.msgCount = t.msgCount+1) :
    queueOf t' = queueOf t++[letterOf m] := by
  have hpush : RingQueue.entries t'.messages t.msgHead (t.msgCount+1) 4 =
      RingQueue.entries t.messages t.msgHead t.msgCount 4++[m] := by
    apply RingQueue.entries_push hc
    · rw [hm, ← ht]
      exact if_pos rfl
    · intro i hi
      rw [hm]
      rw [← ht] at hi
      exact if_neg hi
  unfold queueOf
  rw [hh, hc', hpush, List.map_append, List.map_singleton]

/-- A message is put behind the others and a sleeping receiver is woken. -/
theorem delivering_push (h : Delivering t receiving sent received) {m : IpcMessage}
    (hc : t.msgCount < 4) (hl : Live t'.state)
    (hm : t'.messages = fun i => if i = t.msgTail then m else t.messages i)
    (hh : t'.msgHead = t.msgHead) (ht : t'.msgTail = (t.msgTail+1)%4)
    (hc' : t'.msgCount = t.msgCount+1) (hw : t'.waitingForMsg = false)
    (hb : receiving ≠ none → t'.state ≠ .blocked) :
    Delivering t' receiving (sent++[letterOf m]) received := by
  obtain ⟨taken, h1, h2⟩ := h.history
  refine ⟨hl, by rw [hh]; exact h.head, ?_, by omega, ⟨taken, ?_, h2⟩, ?_, ?_⟩
  · rw [ht, hh, hc', h.tail]
    omega
  · rw [queueOf_push hc h.tail hm hh hc', h1, List.append_assoc]
  · rw [hw]
    simp
  · intro hr hblocked
    exact absurd hblocked (hb hr)

theorem undisturbed_send {targetTid : ℤ} (hne : targetTid ≠ tid) (data : ℕ → ℕ) (size : ℕ) :
    Undisturbed (s.threads tid) ((sysSendMsg s targetTid data size).2.threads tid) := by
  unfold sysSendMsg
  by_cases h0 : targetTid < 0 ∨ 32 ≤ targetTid ∨ 512 < size
  · rw [if_pos h0]
    exact Undisturbed.refl _
  have hne' : tid ≠ targetTid.toNat := by omega
  rw [if_neg h0]
  dsimp only
  split_ifs
  · exact Undisturbed.refl _
  · exact Undisturbed.refl _
  · dsimp only
    apply Undisturbed.trans _ (quiet_unblock _ _ _)
    exact (undisturbed_modify_ne _ hne').trans (undisturbed_modify_ne _ hne')
  · dsimp only
    exact undisturbed_modify_ne _ hne'

/-- A send to a live thread fails when the ring is full, and only then. -/
theorem send_fails (h : Delivering (s.threads tid) receiving sent received) (ht : tid < 32)
    (data : ℕ → ℕ) {size : ℕ} (hs : size ≤ 512) :
    (sysSendMsg s tid data size).1 = false ↔ (s.threads tid).msgCount = 4 := by
  have hcount := h.count
  unfold sysSendMsg
  rw [if_neg (by omega)]
  dsimp only
  rw [Int.toNat_natCast, if_neg (by rintro (hu | hu); exacts [h.live.1 hu, h.live.2.1 hu])]
  by_cases hfull : 4 ≤ (s.threads tid).msgCount
  · rw [if_pos hfull]
    exact ⟨fun _ => by omega, fun _ => rfl⟩
  · rw [if_neg hfull]
    have hne : (s.threads tid).msgCount ≠ 4 := by omega
    constructor
    · intro hf
      split_ifs at hf
    · intro hf
      exact absurd hf hne

theorem send_failed {targetTid : ℤ} {data : ℕ → ℕ} {size : ℕ}
    (h : (sysSendMsg s targetTid data size).1 = false) :
    (sysSendMsg s targetTid data size).2 = s := by
  unfold sysSendMsg at *
  dsimp only at *
  split_ifs at * <;> rfl

theorem letterOf_message (i size : ℕ) (data old : ℕ → ℕ) :
    letterOf ⟨i, size, fun j => if j < size then data j else old j⟩ =
      (i, (List.range size).map data) := by
  unfold letterOf
  dsimp only
  congr 1
  apply List.map_congr_left
  intro j hj
  exact if_pos (List.mem_range.mp hj)

/-- A send that succeeds. -/
theorem delivering_send (h : Delivering (s.threads tid) receiving sent received)
    {data : ℕ → ℕ} {size : ℕ} (hr : (sysSendMsg s tid data size).1 = true) :
    Delivering ((sysSendMsg s tid data size).2.threads tid) receiving
      (sent++[(s.currentTid, (List.range size).map data)]) received := by
  unfold sysSendMsg at *
  by_cases h0 : (tid : ℤ) < 0 ∨ 32 ≤ (tid : ℤ) ∨ 512 < size
  · rw [if_pos h0] at hr
    exact absurd hr (by simp)
  rw [if_neg h0] at *
  dsimp only at *
  rw [Int.toNat_natCast] at *
  rw [if_neg (by rintro (hu | hu); exacts [h.live.1 hu, h.live.2.1 hu])] at *
  by_cases hfull : 4 ≤ (s.threads tid).msgCount
  · rw [if_pos hfull] at hr
    exact absurd hr (by simp)
  rw [if_neg hfull] at *
  rw [← letterOf_message _ _ _ ((s.threads tid).messages (s.threads tid).msgTail).data]
  clear hr
  generalize (⟨_, _, _⟩ : IpcMessage) = m
  have hcount : (s.threads tid).msgCount < 4 := by omega
  have hsame := modify_same s tid fun t => { t with
    messages := fun i => if i = t.msgTail then m else t.messages i
    msgTail := (t.msgTail+1)%4
    msgCount := t.msgCount+1 }
  generalize s.modify tid _ = s1 at *
  by_cases hw : (s1.threads tid).waitingForMsg = true
  · rw [if_pos hw]
    dsimp only
    have hsame' := modify_same s1 tid fun t => { t with waitingForMsg := false }
    generalize s1.modify tid _ = s2 at *
    have hstate : (s2.threads tid).state = (s.threads tid).state := by rw [hsame', hsame]
    unfold System.unblock
    rw [if_neg (by omega), Int.toNat_natCast]
    split_ifs with hb
    · rw [modify_same, hsame', hsame]
      exact delivering_push h hcount ⟨by simp, by simp, by simp⟩ rfl rfl rfl rfl rfl (by simp)
    · rw [hstate] at hb
      rw [hsame', hsame]
      exact delivering_push h hcount h.live rfl rfl rfl rfl rfl (fun _ => hb)
  · rw [if_neg hw]
    dsimp only
    rw [hsame] at hw ⊢
    refine delivering_push h hcount h.live rfl rfl rfl rfl (Bool.not_eq_true _ ▸ hw) ?_
    intro hr hb
    exact hw (h.asleep hr hb)

theorem queueOf_pop (hh : t.msgHead < 4) (hc : 0 < t.msgCount) (hm : t'.messages = t.messages)
    (hh' : t'.msgHead = (t.msgHead+1)%4) (hc' : t'.msgCount = t.msgCount-1) :
    queueOf t = letterOf (t.messages t.msgHead)::queueOf t' := by
  obtain ⟨n, hn⟩ : ∃ n, t.msgCount = n+1 := ⟨t.msgCount-1, by omega⟩
  unfold queueOf
  rw [hm, hh', hc', hn, RingQueue.entries_pop _ hh, List.map_cons, Nat.add_sub_cancel]

/-- The oldest message is taken. -/
theorem delivering_pop (h : Delivering t receiving sent received) (hc : 0 < t.msgCount)
    (hl : t'.state = t.state) (hm : t'.messages = t.messages)
    (hh : t'.msgHead = (t.msgHead+1)%4) (ht : t'.msgTail = t.msgTail)
    (hc' : t'.msgCount = t.msgCount-1) (hw : t'.waitingForMsg = t.waitingForMsg)
    {r : ℕ × Letter} (hr : Received (letterOf (t.messages t.msgHead)) r) :
    Delivering t' none sent (received++[r]) := by
  obtain ⟨taken, h1, h2⟩ := h.history
  have hhead := h.head
  refine ⟨by rw [hl]; exact h.live, by omega, ?_, by have := h.count; omega,
    ⟨taken++[letterOf (t.messages t.msgHead)], ?_, ?_⟩, ?_, fun hn => absurd rfl hn⟩
  · rw [ht, hh, hc', h.tail]
    omega
  · rw [h1, queueOf_pop h.head hc hm hh hc', List.append_assoc]
    rfl
  · exact List.rel_append h2 (List.Forall₂.cons hr List.Forall₂.nil)
  · intro hw'
    rw [hw] at hw'
    have := h.waiting hw'
    omega

theorem take_letter (m : IpcMessage) (maxSize : ℕ) :
    (List.range (if m.size < maxSize then m.size else maxSize)).map m.data =
      (letterOf m).2.take maxSize := by
  unfold letterOf
  dsimp only
  rw [← List.map_take, List.take_range]
  congr 2
  split_ifs <;> omega

theorem sysRecvMsg_some (s : System) (maxSize : ℕ)
    (hc : 0 < (s.threads s.currentTid).msgCount) :
    sysRecvMsg s maxSize =
      (some ((letterOf ((s.threads s.currentTid).messages (s.threads s.currentTid).msgHead)).1,
        (letterOf ((s.threads s.currentTid).messages (s.threads s.currentTid).msgHead)).2.take
          maxSize),
      s.modify s.currentTid fun t => { t with
        msgHead := (t.msgHead+1)%4
        msgCount := t.msgCount-1 }) := by
  unfold sysRecvMsg
  dsimp only
  rw [if_pos hc, take_letter]
  rfl

theorem sysRecvMsg_none (s : System) (maxSize : ℕ)
    (hc : ¬0 < (s.threads s.currentTid).msgCount) :
    sysRecvMsg s maxSize =
      (none, (s.modify s.currentTid fun t => { t with waitingForMsg := true }).blockCurrent (-1)) := by
  unfold sysRecvMsg
  dsimp only
  rw [if_neg hc]

theorem undisturbed_recv (h : tid ≠ s.currentTid) (maxSize : ℕ) :
    Undisturbed (s.threads tid) ((sysRecvMsg s maxSize).2.threads tid) := by
  by_cases hc : 0 < (s.threads s.currentTid).msgCount
  · rw [sysRecvMsg_some s maxSize hc]
    dsimp only
    exact undisturbed_modify_ne _ h
  · rw [sysRecvMsg_none s maxSize hc]
    dsimp only
    have h1 : Undisturbed (s.threads tid) ((s.modify s.currentTid fun t =>
      { t with waitingForMsg := true }).threads tid) := undisturbed_modify_ne _ h
    have hcur : (s.modify s.currentTid fun t => { t with waitingForMsg := true }).currentTid =
      s.currentTid := rfl
    generalize (s.modify s.currentTid fun t => { t with waitingForMsg := true }) = s1 at *
    rw [← hcur] at h
    exact h1.trans (undisturbed_blockCurrent h _)

/-- The receiver goes to sleep on an empty ring. -/
theorem delivering_sleep (h : Delivering (s.threads s.currentTid) receiving sent received)
    (hc : ¬0 < (s.threads s.currentTid).msgCount) (maxSize : ℕ) :
    Delivering (((s.modify s.currentTid fun t =>
      { t with waitingForMsg := true }).blockCurrent (-1)).threads s.currentTid)
      (some maxSize) sent received := by
  have hsame := modify_same s s.currentTid fun t => { t with waitingForMsg := true }
  have hcur : (s.modify s.currentTid fun t => { t with waitingForMsg := true }).currentTid =
    s.currentTid := rfl
  unfold System.blockCurrent
  generalize (s.modify s.currentTid fun t => { t with waitingForMsg := true }) = s1 at *
  rw [← hcur] at hsame ⊢
  apply delivering_undisturbed _ (quiet_giveUp _ _)
  rw [modify_same, hsame, hcur]
  exact ⟨⟨by simp, by simp, by simp⟩, h.head, h.tail, h.count, h.history,
    fun _ => Nat.eq_zero_of_not_pos hc, fun _ _ => rfl⟩

/-- The receiver of a record, between two moves. -/
def DeliveringTo (tid : ℕ) (r : Traffic) : Prop :=
  Delivering (r.system.threads tid) r.receiving r.sent r.received

theorem move_delivering {r : Traffic} (h : DeliveringTo tid r) (m : Move)
    (hm : AllowedMove tid r m) : DeliveringTo tid (move tid r m) := by
  unfold DeliveringTo at *
  cases m with
  | send targetTid data size =>
    unfold move
    dsimp only
    by_cases ht : targetTid = tid
    · subst ht
      cases hr : (sysSendMsg r.system tid data size).1 with
      | true =>
        rw [if_pos (by simp)]
        exact delivering_send h hr
      | false =>
        rw [if_neg (by simp), send_failed hr]
        exact h
    · rw [if_neg (fun hh => ht hh.2)]
      exact delivering_undisturbed h (undisturbed_send ht data size)
  | recv maxSize =>
    unfold move
    dsimp only
    by_cases hc : r.system.currentTid = tid
    · rw [if_pos hc]
      subst hc
      by_cases hcount : 0 < (r.system.threads r.system.currentTid).msgCount
      · rw [sysRecvMsg_some _ maxSize hcount]
        dsimp only
        rw [modify_same]
        apply delivering_pop h hcount <;> rfl
      · rw [sysRecvMsg_none _ maxSize hcount]
        dsimp only
        exact delivering_sleep h hcount maxSize
    · rw [if_neg hc]
      exact delivering_undisturbed h (undisturbed_recv (Ne.symm hc) maxSize)
  | other a => exact delivering_other h a hm

theorem moves_delivering {r : Traffic} (h : DeliveringTo tid r) (ms : List Move)
    (hm : AllowedMoves tid r ms) : DeliveringTo tid (moves tid r ms) := by
  induction ms generalizing r with
  | nil => exact h
  | cons m ms ih => exact ih (move_delivering h m hm.1) hm.2

/-- A live thread as `thread_create` and `sys_fork` leave it. -/
structure Fresh (t : Thread) : Prop where
  live : Live t.state
  head : t.msgHead = 0
  tail : t.msgTail = 0
  count : t.msgCount = 0
  waiting : t.waitingForMsg = false

theorem delivering_fresh (h : Fresh t) : Delivering t none [] [] := by
  refine ⟨h.live, by rw [h.head]; decide, by rw [h.tail, h.head, h.count], by rw [h.count]; decide,
    ⟨[], ?_, List.Forall₂.nil⟩, fun _ => h.count, fun hr => absurd rfl hr⟩
  unfold queueOf RingQueue.entries
  rw [h.count]
  rfl

theorem queueOf_length (t : Thread) : (queueOf t).length = t.msgCount := by
  unfold queueOf
  rw [List.length_map, RingQueue.length_entries]

/-- In every interleaving of sends by any thread, receives by the thread `tid`
and other steps, what the thread received are the first of the messages whose
send succeeded, in order, and the others are in its queue. A send fails exactly
on a full queue, a receive sleeps exactly on an empty one, and a thread asleep
in a receive has an empty queue and is to be woken. -/
theorem messages_delivered (tid : ℕ) (ht : tid < 32) (start : System)
    (hstart : Fresh (start.threads tid)) (ms : List Move)
    (hm : AllowedMoves tid ⟨start, none, [], []⟩ ms) (r : Traffic)
    (hr : r = moves tid ⟨start, none, [], []⟩ ms) :
    (∃ taken, r.sent = taken++queueOf (r.system.threads tid) ∧
      List.Forall₂ Received taken r.received) ∧
    (∀ data, ∀ size ≤ 512, (sysSendMsg r.system tid data size).1 = false ↔
      (queueOf (r.system.threads tid)).length = 4) ∧
    (r.system.currentTid = tid → ∀ maxSize, (sysRecvMsg r.system maxSize).1 = none ↔
      queueOf (r.system.threads tid) = []) ∧
    (r.receiving ≠ none → (r.system.threads tid).state = .blocked →
      queueOf (r.system.threads tid) = [] ∧ (r.system.threads tid).waitingForMsg = true) := by
  have h : DeliveringTo tid r := by
    rw [hr]
    refine moves_delivering ?_ ms hm
    exact delivering_fresh hstart
  unfold DeliveringTo at h
  refine ⟨h.history, fun data size hs => ?_, fun hc maxSize => ?_, fun hin hb => ?_⟩
  · rw [queueOf_length]
    exact send_fails h ht data hs
  · rw [← List.length_eq_zero_iff, queueOf_length, ← hc]
    by_cases hcount : 0 < (r.system.threads r.system.currentTid).msgCount
    · rw [sysRecvMsg_some _ maxSize hcount]
      exact ⟨fun hn => absurd hn (by simp), fun hn => absurd hn (by omega)⟩
    · rw [sysRecvMsg_none _ maxSize hcount]
      exact ⟨fun _ => by omega, fun _ => rfl⟩
  · have hw := h.asleep hin hb
    rw [← List.length_eq_zero_iff, queueOf_length]
    exact ⟨h.waiting hw, hw⟩

/-- Thread 1 has the processor, thread 0 is ready. -/
def twoThreads : System :=
  run (System.threadInit 1 0 fun _ _ => noMessage) [.create 5, .tick, .tick, .tick, .tick, .tick]

/-- Thread 1 sleeps in a receive, thread 0 sends four bytes, thread 1 takes three. -/
def oneLetter : List Move :=
  [.recv 3, .send 1 (fun i => i+7) 4, .other .tick, .other .tick, .other .tick, .other .tick,
    .other .tick, .recv 3]

theorem messages_delivered_oneLetter :
    (moves 1 ⟨twoThreads, none, [], []⟩ oneLetter).received = [(3, (0, [7, 8, 9]))] ∧
    ∃ taken, (moves 1 ⟨twoThreads, none, [], []⟩ oneLetter).sent =
      taken++queueOf ((moves 1 ⟨twoThreads, none, [], []⟩ oneLetter).system.threads 1) ∧
      List.Forall₂ Received taken (moves 1 ⟨twoThreads, none, [], []⟩ oneLetter).received := by
  have hfresh : Fresh (twoThreads.threads 1) :=
    ⟨⟨by decide +kernel, by decide +kernel, by decide +kernel⟩, by decide +kernel,
      by decide +kernel, by decide +kernel, by decide +kernel⟩
  have hallowed : AllowedMoves 1 ⟨twoThreads, none, [], []⟩ oneLetter := by
    refine ⟨?_, ?_, ?_, ?_, ?_, ?_, ?_, ?_, trivial⟩
    · exact fun _ => ⟨trivial, fun _ h => absurd h (by simp)⟩
    · intro hc
      exact absurd hc (by decide +kernel)
    · exact fun _ => ⟨trivial, fun _ _ => trivial⟩
    · exact fun _ => ⟨trivial, fun _ _ => trivial⟩
    · exact fun _ => ⟨trivial, fun _ _ => trivial⟩
    · exact fun _ => ⟨trivial, fun _ _ => trivial⟩
    · exact fun _ => ⟨trivial, fun _ _ => trivial⟩
    · refine fun _ => ⟨trivial, fun maxSize hm => ?_⟩
      have h3 : (moves 1 ⟨twoThreads, none, [], []⟩ (oneLetter.take 7)).receiving = some 3 := by
        decide +kernel
      exact (Option.some.inj (h3.symm.trans hm))
  exact ⟨by decide +kernel,
    (messages_delivered 1 (by decide) twoThreads hfresh oneLetter hallowed _ rfl).1⟩

end Vlsmc.IpcRuns
