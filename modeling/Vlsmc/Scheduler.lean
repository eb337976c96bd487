import Vlsmc.Words

/-!
# Threads and the scheduler

The thread table, `pick_next_thread` and the five places that switch threads.
A switch is a completed transfer of control: afterwards the system runs as the
thread that was switched to. Two records are kept beside the kernel's state:
the states of the threads that were switched to, and whether a loaded
directory was ever torn down.
-/

set_option autoImplicit false

namespace Vlsmc.Scheduler
open Vlsmc.Words

inductive ThreadState where
  | unused
  | ready
  | running
  | blocked
  | sleeping
  | terminated
  | zombie
  deriving DecidableEq, Repr

structure IpcMessage where
  senderTid : ℕ
  size : ℕ
  data : ℕ → ℕ

/-- `messages` has four places. -/
structure Thread where
  state : ThreadState
  priority : ℕ
  sleepUntil : ℕ
  blockedChannelId : ℤ
  quantumRemaining : ℕ
  totalTicks : ℕ
  pageDirectoryPhys : ℕ
  parentTid : ℤ
  exitCode : ℕ
  messages : ℕ → IpcMessage
  msgHead : ℕ
  msgTail : ℕ
  msgCount : ℕ
  waitingForMsg : Bool

structure System where
  threads : ℕ → Thread
  currentTid : ℕ
  threadCount : ℤ
  ticks : ℕ
  agingCounter : ℕ
  kernelDirectoryPhys : ℕ
  currentDirectoryPhys : ℕ
  switchedTo : List ThreadState
  tornDownLoaded : Bool

namespace System

def modify (s : System) (tid : ℕ) (f : Thread → Thread) : System :=
  { s with threads := fun i => if i = tid then f (s.threads i) else s.threads i }

def setState (s : System) (tid : ℕ) (state : ThreadState) : System :=
  s.modify tid fun t => { t with state := state }

def setCount (s : System) (n : ℤ) : System := { s with threadCount := n }

def switchAddressSpace (s : System) (dir : ℕ) : System := { s with currentDirectoryPhys := dir }

def destroyAddressSpace (s : System) (dir : ℕ) : System :=
  if dir = 0 then s
  else if dir = s.kernelDirectoryPhys then s
  else { s with tornDownLoaded := s.tornDownLoaded || dir == s.currentDirectoryPhys }

/-- The thread falls back to the kernel's directory. -/
def dropDirectory (s : System) (tid : ℕ) : System :=
  let dir := (s.threads tid).pageDirectoryPhys
  if dir ≠ s.kernelDirectoryPhys ∧ dir ≠ 0 then
    (s.destroyAddressSpace dir).modify tid fun t =>
      { t with pageDirectoryPhys := s.kernelDirectoryPhys }
  else s

def threadCleanup (s : System) (tid : ℕ) : System :=
  ((s.dropDirectory tid).setState tid .unused).setCount (s.threadCount-1)

/-- The first loop of `pick_next_thread`, for thread `i`. -/
def wake (s : System) (i : ℕ) : System :=
  let s := if (s.threads i).state = .terminated ∧ i ≠ s.currentTid then s.threadCleanup i else s
  if (s.threads i).state = .sleeping ∧ (s.threads i).sleepUntil ≤ s.ticks then
    s.modify i fun t => { t with state := .ready, blockedChannelId := -1 }
  else s

/-- The second loop, with `best_tid` and `best_priority`. -/
def better (s : System) (best : ℕ × ℕ) (i : ℕ) : ℕ × ℕ :=
  if i = s.currentTid then best
  else if (s.threads i).state = .ready ∧ (s.threads i).priority < best.2 then
    (i, (s.threads i).priority)
  else best

def wakeAll (s : System) : System := (List.range 32).foldl wake s

def bestReady (s : System) : ℕ := ((List.range 32).foldl s.better (0, 255)).1

def pickNextThread (s : System) : ℕ × System :=
  let s := s.wakeAll
  if s.bestReady = 0 ∧ (s.threads s.currentTid).state = .running then (s.currentTid, s)
  else (s.bestReady, s)

def switchTo (s : System) (next : ℕ) : System :=
  let old := s.currentTid
  let s := { s with
    currentTid := next
    switchedTo := (s.threads next).state::s.switchedTo }
  let s := s.modify next fun t => { t with state := .running, quantumRemaining := 5 }
  if (s.threads next).pageDirectoryPhys ≠ (s.threads old).pageDirectoryPhys then
    s.switchAddressSpace (s.threads next).pageDirectoryPhys
  else s

def age (s : System) : System :=
  if s.agingCounter+1 < 50 then { s with agingCounter := s.agingCounter+1 }
  else
    { s with
      agingCounter := 0
      threads := fun i =>
        let t := s.threads i
        if 1 ≤ i ∧ i < 32 ∧ t.state = .ready ∧ 1 < t.priority then
          { t with priority := t.priority-1 }
        else t }

/-- The tail of `schedule`, once the quantum of the current thread is over. -/
def reschedule (s : System) : System :=
  let next := s.pickNextThread.1
  let s := s.pickNextThread.2
  if next = s.currentTid ∧ (s.threads s.currentTid).state = .ready then
    s.modify s.currentTid fun t => { t with state := .running, quantumRemaining := 5 }
  else if next = s.currentTid then s
  else s.switchTo next

def schedule (s : System) : System :=
  let s := s.age
  if (s.threads s.currentTid).state = .running then
    let s := s.modify s.currentTid fun t =>
      { t with quantumRemaining := sub32 t.quantumRemaining 1, totalTicks := u32 (t.totalTicks+1) }
    if 0 < (s.threads s.currentTid).quantumRemaining then s
    else
      (s.modify s.currentTid fun t => { t with state := .ready, quantumRemaining := 5 }).reschedule
  else s.reschedule

/-- The timer interrupt. -/
def tick (s : System) : System := { s with ticks := u32 (s.ticks+1) }.schedule

/-- What follows when the current thread can no longer run. -/
def giveUp (s : System) : System :=
  let next := s.pickNextThread.1
  let s := s.pickNextThread.2
  if next ≠ s.currentTid then s.switchTo next else s

def blockCurrent (s : System) (channelId : ℤ) : System :=
  (s.modify s.currentTid fun t =>
    { t with state := .blocked, blockedChannelId := channelId }).giveUp

def unblock (s : System) (tid : ℤ) : System :=
  if tid < 0 ∨ 32 ≤ tid then s
  else if (s.threads tid.toNat).state = .blocked then
    s.modify tid.toNat fun t => { t with state := .ready, blockedChannelId := -1 }
  else s

def sleepCurrent (s : System) (ms : ℕ) : System :=
  let ticksToSleep := if u32 (ms*100)/1000 = 0 then 1 else u32 (ms*100)/1000
  (s.modify s.currentTid fun t =>
    { t with state := .sleeping, sleepUntil := u32 (s.ticks+ticksToSleep) }).giveUp

def terminateCurrent (s : System) : System := (s.setState s.currentTid .terminated).giveUp

/-- The first unused thread from 1 on. -/
def findUnused (s : System) : Option ℕ :=
  (List.range 32).find? fun i => 1 ≤ i ∧ (s.threads i).state = .unused

def threadCreate (s : System) (priority : ℕ) : System :=
  match s.findUnused with
  | none => s
  | some tid =>
    (s.modify tid fun t => { t with
      state := .ready
      priority := priority
      sleepUntil := 0
      blockedChannelId := -1
      quantumRemaining := 5
      totalTicks := 0
      pageDirectoryPhys := s.kernelDirectoryPhys
      msgHead := 0
      msgTail := 0
      msgCount := 0
      waitingForMsg := false
      parentTid := -1
      exitCode := 0 }).setCount (s.threadCount+1)

/-- `newDir` is what `clone_directory` returns, zero when it fails. -/
def sysFork (s : System) (newDir : ℕ) : System :=
  match s.findUnused with
  | none => s
  | some child =>
    let s := s.modify child fun t => { t with
      state := .ready
      priority := (s.threads s.currentTid).priority
      sleepUntil := 0
      blockedChannelId := -1
      quantumRemaining := 5
      totalTicks := 0
      msgHead := 0
      msgTail := 0
      msgCount := 0
      waitingForMsg := false
      parentTid := s.currentTid
      exitCode := 0 }
    if newDir = 0 then s.setState child .unused
    else
      (s.modify child fun t => { t with pageDirectoryPhys := newDir }).setCount (s.threadCount+1)

def sysExit (s : System) (exitCode : ℕ) : System :=
  let cur := s.currentTid
  let s := (s.modify cur fun t => { t with exitCode := exitCode }).dropDirectory cur
  let parent := (s.threads cur).parentTid
  if 0 ≤ parent ∧ parent < 32 ∧ (s.threads parent.toNat).state ≠ .unused then
    let s := s.setState cur .zombie
    let s :=
      if (s.threads parent.toNat).state = .blocked ∧
          (s.threads parent.toNat).blockedChannelId = -2 then s.unblock parent
      else s
    s.giveUp
  else s.terminateCurrent

/-- One round of the loop in `sys_wait`. -/
def sysWait (s : System) : System :=
  match (List.range 32).find? fun i => 1 ≤ i ∧ (s.threads i).parentTid = s.currentTid ∧
      (s.threads i).state = .zombie with
  | some child => (s.setState child .unused).setCount (s.threadCount-1)
  | none =>
    if ((List.range 32).any fun i => 1 ≤ i ∧ (s.threads i).parentTid = s.currentTid) then
      s.blockCurrent (-2)
    else s

/-- The replacement of the address space in `sys_exec`, once the file was found
to be usable; `newDir` is what `create_address_space` returns. -/
def sysExec (s : System) (newDir : ℕ) : System :=
  let dir := (s.threads s.currentTid).pageDirectoryPhys
  let s := if dir ≠ s.kernelDirectoryPhys then s.destroyAddressSpace dir else s
  if newDir = 0 then s
  else
    (s.modify s.currentTid fun t => { t with pageDirectoryPhys := newDir }).switchAddressSpace
      newDir

/-- The first steps of a thread that `elf_exec` created. -/
def elfThreadEntry (s : System) (newDir : ℕ) : System :=
  if newDir = 0 then s
  else
    (s.modify s.currentTid fun t => { t with pageDirectoryPhys := newDir }).switchAddressSpace
      newDir

/-- `thread_init`, after `VMM::init` has loaded the kernel's directory. -/
def threadInit (kernelDirectory ticks : ℕ) (messages : ℕ → ℕ → IpcMessage) : System where
  threads := fun i =>
    { state := if i = 0 then .running else .unused
      priority := if i = 0 then 128 else 255
      sleepUntil := 0
      blockedChannelId := -1
      quantumRemaining := 5
      totalTicks := 0
      pageDirectoryPhys := if i = 0 then kernelDirectory else 0
      parentTid := 0
      exitCode := 0
      messages := messages i
      msgHead := 0
      msgTail := 0
      msgCount := 0
      waitingForMsg := false }
  currentTid := 0
  threadCount := 1
  ticks := ticks
  agingCounter := 0
  kernelDirectoryPhys := kernelDirectory
  currentDirectoryPhys := kernelDirectory
  switchedTo := []
  tornDownLoaded := false

end System

end Vlsmc.Scheduler
