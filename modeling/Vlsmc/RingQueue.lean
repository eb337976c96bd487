import Mathlib.Data.Nat.ModEq

/-!
# Rings

A queue in `cap` places, from `head` on, with its length beside it, or the newest values before
`head`.
-/

set_option autoImplicit false

namespace Vlsmc.RingQueue

variable {α : Type*}

/-- The entries of a ring, oldest first. -/
def entries (slots : ℕ → α) (head count cap : ℕ) : List α :=
  (List.range count).map fun i => slots ((head+i)%cap)

theorem length_entries (slots : ℕ → α) (head count cap : ℕ) :
    (entries slots head count cap).length = count := by simp [entries]

theorem mod_ne_of_lt (head : ℕ) {i n cap : ℕ} (hi : i < n) (hn : n < cap) :
    (head+i)%cap ≠ (head+n)%cap := by
  intro h
  have h1 : (head+i) ≡ (head+n) [MOD cap] := h
  have h2 := Nat.ModEq.add_left_cancel' head h1
  have h3 := Nat.ModEq.eq_of_lt_of_lt h2 (by omega) hn
  omega

/-- Writing behind the last entry appends. -/
theorem entries_push {slots slots' : ℕ → α} {head count cap : ℕ} {x : α} (hc : count < cap)
    (hx : slots' ((head+count)%cap) = x)
    (h : ∀ i, i ≠ (head+count)%cap → slots' i = slots i) :
    entries slots' head (count+1) cap = entries slots head count cap++[x] := by
  unfold entries
  rw [List.range_succ, List.map_append, List.map_singleton, hx]
  congr 1
  apply List.map_congr_left
  intro i hi
  exact h _ (mod_ne_of_lt _ (List.mem_range.mp hi) hc)

/-- Moving the head takes the first entry. -/
theorem entries_pop (slots : ℕ → α) {head count cap : ℕ} (hh : head < cap) :
    entries slots head (count+1) cap = slots head::entries slots ((head+1)%cap) count cap := by
  unfold entries
  rw [List.range_succ_eq_map, List.map_cons, List.map_map, Nat.add_zero, Nat.mod_eq_of_lt hh]
  congr 1
  apply List.map_congr_left
  intro i _
  simp only [Function.comp_apply, Nat.succ_eq_add_one, Nat.mod_add_mod]
  congr 2
  omega

/-- Before `head`, newest first, the places hold the values of a list. -/
def Newest (holds : ℕ → α → Prop) (head cap : ℕ) (l : List α) : Prop :=
  ∀ k (h : k < l.length), holds ((head+(cap-1-k))%cap) l[k]

/-- Writing at the head puts a value in front, and the oldest of a full ring goes. -/
theorem newest_push {holds holds' : ℕ → α → Prop} {head cap : ℕ} {l : List α} {x : α}
    (hh : head < cap) (hx : holds' head x)
    (hold : ∀ i < cap, i ≠ head → ∀ y, holds i y → holds' i y) (h : Newest holds head cap l) :
    Newest holds' ((head+1)%cap) cap ((x::l).take cap) := by
  intro k hk
  rw [List.length_take, List.length_cons] at hk
  rw [List.getElem_take, Nat.mod_add_mod]
  cases k with
  | zero =>
    rw [show head+1+(cap-1-0) = head+cap by omega, Nat.add_mod_right, Nat.mod_eq_of_lt hh]
    exact hx
  | succ k =>
    have hplace : head+1+(cap-1-(k+1)) = head+(cap-1-k) := by omega
    rw [hplace, List.getElem_cons_succ]
    have hne : (head+(cap-1-k))%cap ≠ head := by
      intro heq
      have hmod := mod_ne_of_lt (head+(cap-1-k)) (Nat.succ_pos k)
        (show k+1 < cap by omega)
      rw [Nat.add_zero, show head+(cap-1-k)+(k+1) = head+cap by omega, Nat.add_mod_right,
        Nat.mod_eq_of_lt hh] at hmod
      exact hmod heq
    exact hold _ (Nat.mod_lt _ (by omega)) hne _ (h k (by omega))

end Vlsmc.RingQueue
