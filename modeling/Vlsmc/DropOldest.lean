import Vlsmc.RingQueue

/-!
# Drop-oldest queues

A list of at most `cap` values. A value pushed on a full one takes the place of the
oldest. A ring of `cap+1` places with a read and a write index is such a list.
-/

set_option autoImplicit false

namespace Vlsmc.DropOldest
open Vlsmc.RingQueue

variable {α : Type*}

@[ext] structure Queue (α : Type*) (cap : ℕ) where
  items : List α
  bound : items.length ≤ cap

namespace Queue

variable {cap : ℕ}

def empty : Queue α cap := ⟨[], Nat.zero_le _⟩

def push [NeZero cap] (q : Queue α cap) (x : α) : Queue α cap where
  items := if q.items.length < cap then q.items++[x] else q.items.tail++[x]
  bound := by
    have hpos := Nat.pos_of_ne_zero (NeZero.ne cap)
    have hb := q.bound
    split_ifs
    · rw [List.length_append, List.length_singleton]
      omega
    · rw [List.length_append, List.length_tail, List.length_singleton]
      omega

def pop (q : Queue α cap) : Option α × Queue α cap :=
  (q.items.head?, ⟨q.items.tail, by
    have hb := q.bound
    rw [List.length_tail]
    omega⟩)

theorem push_items_room [NeZero cap] {q : Queue α cap} (h : q.items.length < cap) (x : α) :
    (q.push x).items = q.items++[x] := if_pos h

theorem push_items_full [NeZero cap] {q : Queue α cap} (h : ¬q.items.length < cap) (x : α) :
    (q.push x).items = q.items.tail++[x] := if_neg h

@[simp] theorem pop_empty_items (q : Queue α cap) (h : q.items = []) : q.pop = (none, q) := by
  apply Prod.ext
  · simp [pop, h]
  · apply Queue.ext
    simp [pop, h]

end Queue

section Ring

variable (slots : ℕ → α) (head tail cap : ℕ)

/-- The values from `tail` up to `head`, in a ring of `cap+1` places. -/
def ring : Queue α cap where
  items := entries slots tail ((head+(cap+1)-tail)%(cap+1)) (cap+1)
  bound := by
    rw [length_entries]
    exact Nat.le_of_lt_succ (Nat.mod_lt _ (Nat.succ_pos cap))

end Ring

variable {slots : ℕ → α} {head tail cap : ℕ}

theorem ring_empty (slots : ℕ → α) (i : ℕ) : ring slots i i cap = .empty := by
  apply Queue.ext
  have h : (i+(cap+1)-i)%(cap+1) = 0 := by rw [Nat.add_sub_cancel_left, Nat.mod_self]
  simp only [ring, h]
  rfl

/-- The number of values held: from `tail` to `head`, around the end if `head` is before. -/
theorem distance_cases (hh : head < cap+1) (ht : tail < cap+1) :
    tail ≤ head ∧ (head+(cap+1)-tail)%(cap+1) = head-tail ∨
      head < tail ∧ (head+(cap+1)-tail)%(cap+1) = head+(cap+1)-tail := by
  by_cases h : tail ≤ head
  · apply Or.inl
    have hsum : head+(cap+1)-tail = head-tail+(cap+1) := by omega
    rw [hsum, Nat.add_mod_right, Nat.mod_eq_of_lt (by omega)]
    exact ⟨h, rfl⟩
  · apply Or.inr
    rw [Nat.mod_eq_of_lt (by omega)]
    exact ⟨by omega, rfl⟩

theorem next_cases (hh : head < cap+1) :
    head < cap ∧ (head+1)%(cap+1) = head+1 ∨ head = cap ∧ (head+1)%(cap+1) = 0 := by
  by_cases h : head < cap
  · exact .inl ⟨h, Nat.mod_eq_of_lt (by omega)⟩
  · have he : head = cap := by omega
    subst he
    exact .inr ⟨rfl, Nat.mod_self _⟩

/-- The place of the write index is behind the last value. -/
theorem write_place (hh : head < cap+1) (ht : tail < cap+1) :
    (tail+(head+(cap+1)-tail)%(cap+1))%(cap+1) = head := by
  rcases distance_cases hh ht with ⟨h, hd⟩ | ⟨h, hd⟩
  · rw [hd, Nat.add_sub_cancel' h, Nat.mod_eq_of_lt hh]
  · have hsum : tail+(head+(cap+1)-tail) = head+(cap+1) := by omega
    rw [hd, hsum, Nat.add_mod_right, Nat.mod_eq_of_lt hh]

/-- The read index moves past the oldest value. -/
theorem ring_read (slots : ℕ → α) (hh : head < cap+1) (ht : tail < cap+1) (hne : head ≠ tail) :
    (ring slots head tail cap).pop =
      (some (slots tail), ring slots head ((tail+1)%(cap+1)) cap) := by
  have hitems : (ring slots head tail cap).items =
      slots tail::(ring slots head ((tail+1)%(cap+1)) cap).items := by
    have hcount : (head+(cap+1)-tail)%(cap+1) =
        (head+(cap+1)-(tail+1)%(cap+1))%(cap+1)+1 := by
      have hnext : (tail+1)%(cap+1) < cap+1 := Nat.mod_lt _ (Nat.succ_pos cap)
      rcases distance_cases hh ht with ⟨h, hd⟩ | ⟨h, hd⟩ <;>
      rcases distance_cases hh hnext with ⟨h', hd'⟩ | ⟨h', hd'⟩ <;>
      rcases next_cases ht with ⟨hn, he⟩ | ⟨hn, he⟩ <;> omega
    simp only [ring, hcount]
    exact entries_pop slots ht
  apply Prod.ext
  · simp [Queue.pop, hitems]
  · apply Queue.ext
    simp [Queue.pop, hitems]

/-- A full ring has its write index just before the read index. -/
theorem ring_full_iff (slots : ℕ → α) (hh : head < cap+1) (ht : tail < cap+1) :
    (head+1)%(cap+1) = tail ↔ ¬(ring slots head tail cap).items.length < cap := by
  have hlen : (ring slots head tail cap).items.length = (head+(cap+1)-tail)%(cap+1) :=
    length_entries _ _ _ _
  rw [hlen]
  rcases distance_cases hh ht with ⟨h, hd⟩ | ⟨h, hd⟩ <;>
  rcases next_cases hh with ⟨hn, he⟩ | ⟨hn, he⟩ <;> omega

theorem ring_write_room {slots' : ℕ → α} {x : α} (hh : head < cap+1) (ht : tail < cap+1)
    (hx : slots' head = x) (h : ∀ i, i ≠ head → slots' i = slots i)
    (hroom : (head+1)%(cap+1) ≠ tail) :
    (ring slots' ((head+1)%(cap+1)) tail cap).items = (ring slots head tail cap).items++[x] := by
  have hcount : ((head+1)%(cap+1)+(cap+1)-tail)%(cap+1) = (head+(cap+1)-tail)%(cap+1)+1 := by
    have hnext : (head+1)%(cap+1) < cap+1 := Nat.mod_lt _ (Nat.succ_pos cap)
    rcases distance_cases hh ht with ⟨h, hd⟩ | ⟨h, hd⟩ <;>
    rcases distance_cases hnext ht with ⟨h', hd'⟩ | ⟨h', hd'⟩ <;>
    rcases next_cases hh with ⟨hn, he⟩ | ⟨hn, he⟩ <;> omega
  have hcap : (head+(cap+1)-tail)%(cap+1) < cap+1 := Nat.mod_lt _ (Nat.succ_pos cap)
  simp only [ring, hcount]
  apply entries_push hcap
  · rw [write_place hh ht]
    exact hx
  · intro i hi
    rw [write_place hh ht] at hi
    exact h i hi

/-- A value written at the write index is pushed; when the ring is full the read index moves
too. -/
theorem ring_write [NeZero cap] {slots' : ℕ → α} {x : α} (hh : head < cap+1)
    (ht : tail < cap+1) (hx : slots' head = x) (h : ∀ i, i ≠ head → slots' i = slots i) :
    ring slots' ((head+1)%(cap+1))
        (if (head+1)%(cap+1) = tail then (tail+1)%(cap+1) else tail) cap =
      (ring slots head tail cap).push x := by
  have hpos := Nat.pos_of_ne_zero (NeZero.ne cap)
  have hfull := ring_full_iff slots hh ht
  apply Queue.ext
  split_ifs with hnext
  · rw [Queue.push_items_full (hfull.mp hnext)]
    have hne : head ≠ tail := by
      rcases next_cases hh with ⟨hn, he⟩ | ⟨hn, he⟩ <;> omega
    have hmoved : (head+1)%(cap+1) ≠ (tail+1)%(cap+1) := by
      rcases next_cases hh with ⟨hn, he⟩ | ⟨hn, he⟩ <;>
      rcases next_cases ht with ⟨hn', he'⟩ | ⟨hn', he'⟩ <;> omega
    have hread : (ring slots head tail cap).items.tail =
        (ring slots head ((tail+1)%(cap+1)) cap).items :=
      congrArg (fun r : Option α × Queue α cap => r.2.items) (ring_read slots hh ht hne)
    rw [hread]
    exact ring_write_room hh (Nat.mod_lt _ (Nat.succ_pos cap)) hx h hmoved
  · rw [Queue.push_items_room (not_not.mp fun hno => hnext (hfull.mpr hno))]
    exact ring_write_room hh ht hx h hnext

end Vlsmc.DropOldest
