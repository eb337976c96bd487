import Vlsmc.SchedulerRuns

/-!
# Event channels

A channel is a ring of events and a table of the threads that wait for one. `wait`
has two parts: under the interrupt guard it looks into the ring and writes the
thread down, then, with interrupts open again, it blocks. A thread between the two
is kept in `pending`.
-/

set_option autoImplicit false

namespace Vlsmc.EventChannels
open Vlsmc.Scheduler Vlsmc.SchedulerRuns

def maxChannels : ℕ := 32
def channelBufferSize : ℕ := 64
def maxWaiters : ℕ := 8

structure EventChannel where
  active : Bool
  buffer : ℕ → ℕ
  head : ℕ
  tail : ℕ
  waitingTids : ℕ → ℕ
  waiterCount : ℕ

structure World where
  system : System
  channels : ℕ → EventChannel
  pending : ℕ → Option ℕ

namespace World

def setChannel (w : World) (c : ℕ) (ch : EventChannel) : World :=
  { w with channels := fun i => if i = c then ch else w.channels i }

/-- The loop that unblocks the threads written down. -/
def unblockWaiters (s : System) (ch : EventChannel) : System :=
  (List.range ch.waiterCount).foldl (fun s i => s.unblock (ch.waitingTids i)) s

def createChannel (w : World) : ℤ × World :=
  match (List.range' 16 16).find? fun i => !(w.channels i).active with
  | none => (-1, w)
  | some i => (i, w.setChannel i
      { w.channels i with active := true, head := 0, tail := 0, waiterCount := 0 })

def destroyChannel (w : World) (channelId : ℤ) : World :=
  if channelId < 0 ∨ maxChannels ≤ channelId then w
  else
    let ch := w.channels channelId.toNat
    { w.setChannel channelId.toNat { ch with waiterCount := 0, active := false } with
      system := unblockWaiters w.system ch }

def push (w : World) (channelId : ℤ) (eventData : ℕ) : Bool × World :=
  if channelId < 0 ∨ maxChannels ≤ channelId then (false, w)
  else
    let ch := w.channels channelId.toNat
    if ch.active = false then (false, w)
    else
      let nextHead := (ch.head+1)%channelBufferSize
      let tail := if nextHead = ch.tail then (ch.tail+1)%channelBufferSize else ch.tail
      (true, { w.setChannel channelId.toNat { ch with
          tail := tail
          buffer := fun i => if i = ch.head then eventData else ch.buffer i
          head := nextHead
          waiterCount := 0 } with
        system := unblockWaiters w.system ch })

def pop (w : World) (channelId : ℤ) : ℕ × World :=
  if channelId < 0 ∨ maxChannels ≤ channelId then (0, w)
  else
    let ch := w.channels channelId.toNat
    if ch.active = false then (0, w)
    else if ch.head = ch.tail then (0, w)
    else (ch.buffer ch.tail,
      w.setChannel channelId.toNat { ch with tail := (ch.tail+1)%channelBufferSize })

/-- The guarded part of one round of `wait`: `some data` when it returns, `none` when the
thread goes on to block. -/
def waitCheck (w : World) (channelId : ℤ) : Option ℕ × World :=
  if channelId < 0 ∨ maxChannels ≤ channelId then (some 0, w)
  else
    let ch := w.channels channelId.toNat
    if ch.active = false then (some 0, w)
    else if ch.head ≠ ch.tail then
      (some (ch.buffer ch.tail),
        w.setChannel channelId.toNat { ch with tail := (ch.tail+1)%channelBufferSize })
    else
      let w := if ch.waiterCount < maxWaiters then
          w.setChannel channelId.toNat { ch with
            waitingTids := fun i =>
              if i = ch.waiterCount then w.system.currentTid else ch.waitingTids i
            waiterCount := ch.waiterCount+1 }
        else w
      (none, { w with pending := fun i =>
        if i = w.system.currentTid then some channelId.toNat else w.pending i })

/-- The other part, `block_current(channel_id)`. -/
def waitBlock (w : World) : World :=
  match w.pending w.system.currentTid with
  | none => w
  | some c =>
    { w with
      system := w.system.blockCurrent c
      pending := fun i => if i = w.system.currentTid then none else w.pending i }

/-- `EventSystem::init`, in a system where no thread waits. -/
def eventInit (s : System) (buffers waiting : ℕ → ℕ → ℕ) : World where
  system := s
  channels := fun i => ⟨i < 16, buffers i, 0, 0, waiting i, 0⟩
  pending := fun _ => none

end World

/-- What threads and interrupts do. A thread that returns from `block_current` goes round the
loop of `wait`, with another `waitCheck`. -/
inductive Event
  | scheduler (a : Step)
  | waitCheck (channelId : ℤ)
  | waitBlock
  | push (channelId : ℤ) (eventData : ℕ)
  | pop (channelId : ℤ)
  | create
  | destroy (channelId : ℤ)

def event (w : World) : Event → World
  | .scheduler a => { w with system := step w.system a }
  | .waitCheck channelId => (w.waitCheck channelId).2
  | .waitBlock => w.waitBlock
  | .push channelId eventData => (w.push channelId eventData).2
  | .pop channelId => (w.pop channelId).2
  | .create => w.createChannel.2
  | .destroy channelId => w.destroyChannel channelId

def events (w : World) (es : List Event) : World := es.foldl event w

end Vlsmc.EventChannels
