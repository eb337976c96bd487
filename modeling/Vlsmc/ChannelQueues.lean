import Vlsmc.EventChannels
import Vlsmc.DropOldest

/-!
# Channels are drop-oldest queues

An active channel holds at most 63 events. Along every run, what `push`, `pop` and the
guarded part of `wait` answer is what such queues, one for each active channel, answer.
-/

set_option autoImplicit false

namespace Vlsmc.ChannelQueues
open Vlsmc.EventChannels Vlsmc.DropOldest Vlsmc.Scheduler

/-- A queue for each active channel. -/
abbrev Queues := ℕ → Option (Queue ℕ 63)

/-- What a caller is told. -/
inductive Reply
  | pushed (done : Bool)
  | popped (data : ℕ)
  | waited (data : Option ℕ)
  | created (channelId : ℤ)
  | nothing
deriving DecidableEq

def reply (w : World) : Event → Reply
  | .push channelId eventData => .pushed (w.push channelId eventData).1
  | .pop channelId => .popped (w.pop channelId).1
  | .waitCheck channelId => .waited (w.waitCheck channelId).1
  | .create => .created w.createChannel.1
  | _ => .nothing

/-- What the callers are told along a run. -/
def replies : World → List Event → List Reply
  | _, [] => []
  | w, e::es => reply w e::replies (event w e) es

/-- The queues that a state of the channels stands for. -/
def queues (w : World) : Queues := fun i =>
  if (w.channels i).active then
    some (ring (w.channels i).buffer (w.channels i).head (w.channels i).tail 63)
  else none

namespace Queues

/-- The queue of a channel number, if there is such an active channel. -/
def at? (q : Queues) (channelId : ℤ) : Option (Queue ℕ 63) :=
  if channelId < 0 ∨ maxChannels ≤ channelId then none else q channelId.toNat

def set (q : Queues) (i : ℕ) (c : Option (Queue ℕ 63)) : Queues :=
  fun j => if j = i then c else q j

/-- What an event does to the queues. -/
def step (q : Queues) : Event → Queues
  | .push channelId eventData =>
    match q.at? channelId with
    | none => q
    | some c => q.set channelId.toNat (some (c.push eventData))
  | .pop channelId | .waitCheck channelId =>
    match q.at? channelId with
    | none => q
    | some c => q.set channelId.toNat (some c.pop.2)
  | .create =>
    match (List.range' 16 16).find? fun i => (q i).isNone with
    | none => q
    | some i => q.set i (some .empty)
  | .destroy channelId =>
    match q.at? channelId with
    | none => q
    | some _ => q.set channelId.toNat none
  | .scheduler _ | .waitBlock => q

/-- What the callers are to be told. -/
def answer (q : Queues) : Event → Reply
  | .push channelId _ => .pushed (q.at? channelId).isSome
  | .pop channelId =>
    match q.at? channelId with
    | none => .popped 0
    | some c => .popped (c.pop.1.getD 0)
  | .waitCheck channelId =>
    match q.at? channelId with
    | none => .waited (some 0)
    | some c => .waited c.pop.1
  | .create =>
    match (List.range' 16 16).find? fun i => (q i).isNone with
    | none => .created (-1)
    | some i => .created i
  | _ => .nothing

def run (q : Queues) (es : List Event) : Queues := es.foldl step q

def answers : Queues → List Event → List Reply
  | _, [] => []
  | q, e::es => q.answer e::answers (q.step e) es

/-- The interrupt channels are there from the start. -/
def initial : Queues := fun i => if i < 16 then some .empty else none

end Queues

/-- The indices of every channel lie in its buffer. -/
def Indexed (w : World) : Prop :=
  ∀ i, (w.channels i).head < channelBufferSize ∧ (w.channels i).tail < channelBufferSize

/-- The channel an event is for. -/
def target (q : Queues) : Event → Option ℕ
  | .push channelId _ | .pop channelId | .waitCheck channelId | .destroy channelId =>
    some channelId.toNat
  | .create => (List.range' 16 16).find? fun i => (q i).isNone
  | .scheduler _ | .waitBlock => none

section Channels

variable (w : World)

theorem queues_active {i : ℕ} (h : (w.channels i).active = true) :
    queues w i =
      some (ring (w.channels i).buffer (w.channels i).head (w.channels i).tail 63) := by
  rw [queues, if_pos h]

theorem queues_inactive {i : ℕ} (h : (w.channels i).active = false) : queues w i = none := by
  rw [queues, h]
  exact if_neg Bool.false_ne_true

theorem isNone_queues (i : ℕ) : (queues w i).isNone = !(w.channels i).active := by
  cases h : (w.channels i).active with
  | true => rw [queues_active w h]; rfl
  | false => rw [queues_inactive w h]; rfl

theorem queues_congr {w w' : World} (h : w'.channels = w.channels) : queues w' = queues w := by
  unfold queues
  rw [h]

theorem queues_setChannel (c : ℕ) (ch : EventChannel) :
    queues (w.setChannel c ch) = Queues.set (queues w) c
      (if ch.active then some (ring ch.buffer ch.head ch.tail 63) else none) := by
  ext1 i
  by_cases h : i = c
  · simp [queues, World.setChannel, Queues.set, h]
  · simp [queues, World.setChannel, Queues.set, h]

theorem indexed_setChannel {w : World} (hw : Indexed w) (c : ℕ) {ch : EventChannel}
    (hh : ch.head < channelBufferSize) (ht : ch.tail < channelBufferSize) :
    Indexed (w.setChannel c ch) := by
  intro i
  by_cases h : i = c
  · simp [World.setChannel, h, hh, ht]
  · simpa [World.setChannel, h] using hw i

theorem at_out {channelId : ℤ} (h : channelId < 0 ∨ maxChannels ≤ channelId) :
    (queues w).at? channelId = none := if_pos h

theorem at_inactive {channelId : ℤ} (h : (w.channels channelId.toNat).active = false) :
    (queues w).at? channelId = none := by
  unfold Queues.at?
  split_ifs
  · rfl
  · exact queues_inactive w h

theorem at_active {channelId : ℤ} (h : ¬(channelId < 0 ∨ maxChannels ≤ channelId))
    (ha : ¬(w.channels channelId.toNat).active = false) :
    (queues w).at? channelId =
      some (ring (w.channels channelId.toNat).buffer (w.channels channelId.toNat).head
        (w.channels channelId.toNat).tail 63) := by
  unfold Queues.at?
  rw [if_neg h]
  exact queues_active w (Bool.not_eq_false _ ▸ ha)

end Channels

section Places

variable {w : World} (hw : Indexed w)
include hw

/-- The buffer and the indices after `push`. -/
theorem ring_pushed (i eventData : ℕ) :
    ring (fun j => if j = (w.channels i).head then eventData else (w.channels i).buffer j)
        (((w.channels i).head+1)%channelBufferSize)
        (if ((w.channels i).head+1)%channelBufferSize = (w.channels i).tail then
          ((w.channels i).tail+1)%channelBufferSize else (w.channels i).tail) 63 =
      (ring (w.channels i).buffer (w.channels i).head (w.channels i).tail 63).push eventData :=
  ring_write (hw i).1 (hw i).2 (if_pos rfl) fun _ hj => if_neg hj

theorem ring_popped {i : ℕ} (hne : (w.channels i).head ≠ (w.channels i).tail) :
    (ring (w.channels i).buffer (w.channels i).head (w.channels i).tail 63).pop =
      (some ((w.channels i).buffer (w.channels i).tail),
        ring (w.channels i).buffer (w.channels i).head
          (((w.channels i).tail+1)%channelBufferSize) 63) :=
  ring_read _ (hw i).1 (hw i).2 hne

omit hw in
theorem ring_drained {i : ℕ} (he : (w.channels i).head = (w.channels i).tail) :
    (ring (w.channels i).buffer (w.channels i).head (w.channels i).tail 63).pop =
      (none, ring (w.channels i).buffer (w.channels i).head (w.channels i).tail 63) := by
  apply Queue.pop_empty_items
  rw [he, ring_empty]
  rfl

omit hw in
theorem set_same {q : Queues} {i : ℕ} {c : Option (Queue ℕ 63)} (h : q i = c) :
    q.set i c = q := by
  ext1 j
  by_cases hj : j = i
  · simp [Queues.set, hj, h]
  · simp [Queues.set, hj]

end Places

/-- One event: the same answer, and the queues follow. -/
def Follows (w : World) (e : Event) : Prop :=
  reply w e = (queues w).answer e ∧ queues (event w e) = (queues w).step e ∧
    Indexed (event w e)

section Events

variable {w : World} (hw : Indexed w)
include hw

theorem push_follows (channelId : ℤ) (eventData : ℕ) :
    Follows w (.push channelId eventData) := by
  show Reply.pushed (w.push channelId eventData).1 =
      .pushed ((queues w).at? channelId).isSome ∧
    queues (w.push channelId eventData).2 = (match (queues w).at? channelId with
      | none => queues w
      | some c => (queues w).set channelId.toNat (some (c.push eventData))) ∧
    Indexed (w.push channelId eventData).2
  unfold World.push
  dsimp only
  by_cases hout : channelId < 0 ∨ maxChannels ≤ channelId
  · rw [if_pos hout, at_out w hout]
    exact ⟨rfl, rfl, hw⟩
  by_cases hact : (w.channels channelId.toNat).active = false
  · rw [if_neg hout, if_pos hact, at_inactive w hact]
    exact ⟨rfl, rfl, hw⟩
  · rw [if_neg hout, if_neg hact, at_active w hout hact]
    have hindex (n : ℕ) : n%channelBufferSize < channelBufferSize := Nat.mod_lt _ (by decide)
    constructor
    · rfl
    constructor
    · have ha : (w.channels channelId.toNat).active = true := Bool.not_eq_false _ ▸ hact
      refine (queues_setChannel w channelId.toNat _).trans ?_
      exact congrArg _ ((if_pos ha).trans (congrArg some (ring_pushed hw _ _)))
    · apply indexed_setChannel hw
      · exact hindex _
      · dsimp only
        split_ifs
        · exact hindex _
        · exact (hw _).2

theorem pop_follows (channelId : ℤ) : Follows w (.pop channelId) := by
  show Reply.popped (w.pop channelId).1 = (match (queues w).at? channelId with
      | none => .popped 0
      | some c => .popped (c.pop.1.getD 0)) ∧
    queues (w.pop channelId).2 = (match (queues w).at? channelId with
      | none => queues w
      | some c => (queues w).set channelId.toNat (some c.pop.2)) ∧
    Indexed (w.pop channelId).2
  unfold World.pop
  dsimp only
  by_cases hout : channelId < 0 ∨ maxChannels ≤ channelId
  · rw [if_pos hout, at_out w hout]
    exact ⟨rfl, rfl, hw⟩
  by_cases hact : (w.channels channelId.toNat).active = false
  · rw [if_neg hout, if_pos hact, at_inactive w hact]
    exact ⟨rfl, rfl, hw⟩
  rw [if_neg hout, if_neg hact, at_active w hout hact]
  have ha : (w.channels channelId.toNat).active = true := Bool.not_eq_false _ ▸ hact
  by_cases hempty : (w.channels channelId.toNat).head = (w.channels channelId.toNat).tail
  · simp only [if_pos hempty, ring_drained hempty]
    exact ⟨rfl, (set_same (queues_active w ha)).symm, hw⟩
  · simp only [if_neg hempty, ring_popped hw hempty]
    constructor
    · rfl
    constructor
    · refine (queues_setChannel w channelId.toNat _).trans ?_
      exact congrArg _ (if_pos ha)
    · exact indexed_setChannel hw _ (hw _).1 (Nat.mod_lt _ (by decide))

theorem waitCheck_follows (channelId : ℤ) : Follows w (.waitCheck channelId) := by
  show Reply.waited (w.waitCheck channelId).1 = (match (queues w).at? channelId with
      | none => .waited (some 0)
      | some c => .waited c.pop.1) ∧
    queues (w.waitCheck channelId).2 = (match (queues w).at? channelId with
      | none => queues w
      | some c => (queues w).set channelId.toNat (some c.pop.2)) ∧
    Indexed (w.waitCheck channelId).2
  unfold World.waitCheck
  dsimp only
  by_cases hout : channelId < 0 ∨ maxChannels ≤ channelId
  · rw [if_pos hout, at_out w hout]
    exact ⟨rfl, rfl, hw⟩
  by_cases hact : (w.channels channelId.toNat).active = false
  · rw [if_neg hout, if_pos hact, at_inactive w hact]
    exact ⟨rfl, rfl, hw⟩
  rw [if_neg hout, if_neg hact, at_active w hout hact]
  have ha : (w.channels channelId.toNat).active = true := Bool.not_eq_false _ ▸ hact
  by_cases hempty : (w.channels channelId.toNat).head = (w.channels channelId.toNat).tail
  · have hwait (waiting : ℕ → ℕ) (n : ℕ) :
        queues (w.setChannel channelId.toNat { w.channels channelId.toNat with
          waitingTids := waiting, waiterCount := n }) = queues w := by
      rw [queues_setChannel]
      exact set_same ((queues_active w ha).trans (if_pos ha).symm)
    simp only [if_neg (not_not.mpr hempty), ring_drained hempty]
    constructor
    · trivial
    constructor
    · rw [set_same (queues_active w ha)]
      split_ifs
      · exact (queues_congr rfl).trans (hwait _ _)
      · exact queues_congr rfl
    · split_ifs
      · exact indexed_setChannel hw _ (hw _).1 (hw _).2
      · exact hw
  · simp only [if_pos hempty, ring_popped hw hempty]
    constructor
    · trivial
    constructor
    · refine (queues_setChannel w channelId.toNat _).trans ?_
      exact congrArg _ (if_pos ha)
    · exact indexed_setChannel hw _ (hw _).1 (Nat.mod_lt _ (by decide))

theorem create_follows : Follows w .create := by
  show Reply.created w.createChannel.1 =
      (match (List.range' 16 16).find? fun i => (queues w i).isNone with
      | none => .created (-1)
      | some i => .created i) ∧
    queues w.createChannel.2 =
      (match (List.range' 16 16).find? fun i => (queues w i).isNone with
      | none => queues w
      | some i => (queues w).set i (some .empty)) ∧
    Indexed w.createChannel.2
  unfold World.createChannel
  simp only [isNone_queues]
  cases (List.range' 16 16).find? fun i => !(w.channels i).active with
  | none => exact ⟨rfl, rfl, hw⟩
  | some i =>
    constructor
    · rfl
    constructor
    · refine (queues_setChannel w i _).trans ?_
      exact congrArg _ ((if_pos rfl).trans (congrArg some (ring_empty _ _)))
    · exact indexed_setChannel hw i (Nat.succ_pos 63) (Nat.succ_pos 63)

theorem destroy_follows (channelId : ℤ) : Follows w (.destroy channelId) := by
  show Reply.nothing = .nothing ∧
    queues (w.destroyChannel channelId) = (match (queues w).at? channelId with
      | none => queues w
      | some _ => (queues w).set channelId.toNat none) ∧
    Indexed (w.destroyChannel channelId)
  unfold World.destroyChannel
  dsimp only
  by_cases hout : channelId < 0 ∨ maxChannels ≤ channelId
  · rw [if_pos hout, at_out w hout]
    exact ⟨rfl, rfl, hw⟩
  rw [if_neg hout]
  have hgone : queues (w.destroyChannel channelId) =
      (queues w).set channelId.toNat none := by
    unfold World.destroyChannel
    rw [if_neg hout]
    refine (queues_setChannel w channelId.toNat _).trans ?_
    exact congrArg _ (if_neg Bool.false_ne_true)
  have hindexed : Indexed (w.destroyChannel channelId) := by
    unfold World.destroyChannel
    rw [if_neg hout]
    exact indexed_setChannel hw _ (hw _).1 (hw _).2
  unfold World.destroyChannel at hgone hindexed
  rw [if_neg hout] at hgone hindexed
  by_cases hact : (w.channels channelId.toNat).active = false
  · rw [at_inactive w hact]
    exact ⟨rfl, hgone.trans (set_same (queues_inactive w hact)), hindexed⟩
  · rw [at_active w hout hact]
    exact ⟨rfl, hgone, hindexed⟩

/-- Every event is one step of the queues. -/
theorem event_follows (e : Event) : Follows w e := by
  cases e with
  | scheduler a => exact ⟨rfl, rfl, hw⟩
  | waitCheck channelId => exact waitCheck_follows hw channelId
  | waitBlock =>
    have hsame : w.waitBlock.channels = w.channels := by
      unfold World.waitBlock
      split
      · rfl
      · rfl
    constructor
    · rfl
    constructor
    · exact queues_congr hsame
    · intro i
      change (w.waitBlock.channels i).head < _ ∧ (w.waitBlock.channels i).tail < _
      rw [hsame]
      exact hw i
  | push channelId eventData => exact push_follows hw channelId eventData
  | pop channelId => exact pop_follows hw channelId
  | create => exact create_follows hw
  | destroy channelId => exact destroy_follows hw channelId

theorem indexed_run (es : List Event) : Indexed (events w es) := by
  induction es generalizing w with
  | nil => exact hw
  | cons e es ih => exact ih (event_follows hw e).2.2

/-- Over a run: the same answers, and the queues at the end. -/
theorem run_follows (es : List Event) :
    replies w es = (queues w).answers es ∧ queues (events w es) = (queues w).run es := by
  induction es generalizing w with
  | nil => exact ⟨rfl, rfl⟩
  | cons e es ih =>
    have he := event_follows hw e
    have hrest := ih he.2.2
    rw [he.2.1] at hrest
    constructor
    · rw [replies, Queues.answers, he.1, hrest.1]
    · exact hrest.2

end Events

/-- A step leaves the queues of the other channels. -/
theorem step_other (q : Queues) (e : Event) {i : ℕ} (hi : target q e ≠ some i) :
    q.step e i = q i := by
  have hset (c : ℕ) (v : Option (Queue ℕ 63)) (hc : c ≠ i) : q.set c v i = q i :=
    if_neg (Ne.symm hc)
  cases e with
  | scheduler a => rfl
  | waitBlock => rfl
  | push channelId _ | pop channelId | waitCheck channelId | destroy channelId =>
    have hc : channelId.toNat ≠ i := fun h => hi (congrArg some h)
    simp only [Queues.step]
    cases q.at? channelId with
    | none => rfl
    | some c => exact hset _ _ hc
  | create =>
    simp only [Queues.step]
    simp only [target] at hi
    cases hfind : (List.range' 16 16).find? fun i => (q i).isNone with
    | none => rfl
    | some c => exact hset _ _ fun h => hi (hfind.trans (congrArg some h))

theorem eventInit_indexed (s : System) (buffers waiting : ℕ → ℕ → ℕ) :
    Indexed (World.eventInit s buffers waiting) :=
  fun _ => ⟨Nat.succ_pos 63, Nat.succ_pos 63⟩

theorem eventInit_queues (s : System) (buffers waiting : ℕ → ℕ → ℕ) :
    queues (World.eventInit s buffers waiting) = Queues.initial := by
  ext1 i
  by_cases h : i < 16
  · simp [queues, World.eventInit, Queues.initial, h, ring_empty]
  · simp [queues, World.eventInit, Queues.initial, h]

/-- Channels are drop-oldest queues of at most 63 events: from the start on, every run of the
system answers as the queues do and leaves their values, and an event for one channel
leaves the queue of every other. -/
theorem channels_are_queues (s : System) (buffers waiting : ℕ → ℕ → ℕ) (es : List Event) :
    replies (World.eventInit s buffers waiting) es = Queues.initial.answers es ∧
    queues (events (World.eventInit s buffers waiting) es) = Queues.initial.run es ∧
    ∀ e i, target (queues (events (World.eventInit s buffers waiting) es)) e ≠ some i →
      queues (event (events (World.eventInit s buffers waiting) es) e) i =
        queues (events (World.eventInit s buffers waiting) es) i := by
  have hindexed := eventInit_indexed s buffers waiting
  have hrun := run_follows hindexed es
  rw [eventInit_queues] at hrun
  constructor
  · exact hrun.1
  constructor
  · exact hrun.2
  · intro e i hi
    rw [(event_follows (indexed_run hindexed es) e).2.1]
    exact step_other _ e hi

end Vlsmc.ChannelQueues
