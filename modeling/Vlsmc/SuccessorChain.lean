import Mathlib.Data.List.Nodup
import Mathlib.Data.List.Lemmas

/-!
# Chains in a successor table

A successor table `next` stores, for every cell, the cell that follows it.
A finite chain is the list of cells visited from a start value until a stop
value is read. Chains are functional: the table determines the list, and a
chain that ends never visits a cell twice. Loops over a chain are modelled
with fuel, and a chain shorter than the fuel is walked completely.
-/

set_option autoImplicit false

namespace Vlsmc.SuccessorChain

variable {α β : Type*}

/-- Following `next` from the given value visits exactly the listed cells, all
of them `live`, and then reads a `stop` value. -/
def Linked (next : α → α) (live stop : α → Prop) : α → List α → Prop
  | a, [] => stop a
  | a, x::l => a = x ∧ live x ∧ Linked next live stop (next x) l

variable {next next' : α → α} {live stop : α → Prop}

theorem linked_live {a : α} {l : List α} (h : Linked next live stop a l) :
    ∀ x ∈ l, live x := by
  induction l generalizing a with
  | nil => simp
  | cons y l ih =>
    intro x hx
    rcases List.mem_cons.mp hx with rfl | hx
    · exact h.2.1
    · exact ih h.2.2 x hx

/-- Only the successors of the listed cells matter. -/
theorem linked_congr {a : α} {l : List α} (h : Linked next live stop a l)
    (he : ∀ x ∈ l, next' x = next x) : Linked next' live stop a l := by
  induction l generalizing a with
  | nil => exact h
  | cons y l ih =>
    refine ⟨h.1, h.2.1, ?_⟩
    rw [he y (by simp)]
    exact ih h.2.2 (fun x hx => he x (by simp [hx]))

theorem linked_unique (hd : ∀ x, live x → ¬ stop x) {a : α} {l m : List α}
    (hl : Linked next live stop a l) (hm : Linked next live stop a m) : l = m := by
  induction l generalizing a m with
  | nil =>
    cases m with
    | nil => rfl
    | cons y m =>
      obtain ⟨rfl, hy, -⟩ := hm
      exact absurd hl (hd a hy)
  | cons x l ih =>
    obtain ⟨rfl, hx, hl⟩ := hl
    cases m with
    | nil => exact absurd hm (hd a hx)
    | cons y m =>
      obtain ⟨rfl, -, hm⟩ := hm
      rw [ih hl hm]

/-- A chain contains, for each of its cells, the chain that starts there. -/
theorem linked_suffix {a x : α} {l : List α} (h : Linked next live stop a l)
    (hx : x ∈ l) : ∃ m, Linked next live stop x m ∧ m.length ≤ l.length ∧ m ⊆ l := by
  induction l generalizing a with
  | nil => simp at hx
  | cons y l ih =>
    rcases List.mem_cons.mp hx with rfl | hx
    · exact ⟨x::l, ⟨rfl, h.2⟩, le_refl _, fun _ hz => hz⟩
    · obtain ⟨m, hm, hlen, hsub⟩ := ih h.2.2 hx
      exact ⟨m, hm, by simp; omega, fun z hz => by simp [hsub hz]⟩

theorem linked_nodup (hd : ∀ x, live x → ¬ stop x) {a : α} {l : List α}
    (h : Linked next live stop a l) : l.Nodup := by
  induction l generalizing a with
  | nil => simp
  | cons x l ih =>
    obtain ⟨rfl, hx, hl⟩ := h
    refine List.nodup_cons.mpr ⟨fun hmem => ?_, ih hl⟩
    -- a repeated cell would give the same start two chains of different length
    obtain ⟨m, hm, hlen, -⟩ := linked_suffix hl hmem
    have hwhole : Linked next live stop a (a::l) := ⟨rfl, hx, hl⟩
    have := congrArg List.length (linked_unique hd hm hwhole)
    simp only [List.length_cons] at this
    omega

/-- Linking the last cell of a chain to a new end appends that end. -/
theorem linked_append {a b : α} {l m : List α} (h : Linked next live stop a l)
    (hne : l ≠ []) (hlast : next' (l.getLast hne) = b)
    (he : ∀ x ∈ l.dropLast, next' x = next x) (hm : Linked next' live stop b m) :
    Linked next' live stop a (l++m) := by
  induction l generalizing a with
  | nil => exact absurd rfl hne
  | cons x l ih =>
    refine ⟨h.1, h.2.1, ?_⟩
    cases l with
    | nil => simpa [← hlast] using hm
    | cons y l =>
      rw [he x (by simp)]
      exact ih h.2.2 (by simp) (by simpa using hlast)
        (fun z hz => he z (by simp [List.dropLast_cons_of_ne_nil, hz]))

/-- The loop `while (go a) { body; prev = a; a = next a; }`, leaving early with
the value `body` returns. `none` means that the fuel was used up. -/
def walk (next : α → α) (go : α → Bool) (body : α → Option β) :
    ℕ → α → α → Option (β ⊕ α)
  | 0, _, _ => none
  | fuel+1, prev, a =>
    if go a then
      match body a with
      | some b => some (.inl b)
      | none => walk next go body fuel a (next a)
    else some (.inr prev)

theorem walk_linked (go : α → Bool) (body : α → Option β)
    (hgo : ∀ x, live x → go x = true) (hstop : ∀ x, stop x → go x = false)
    {a : α} {l : List α} (h : Linked next live stop a l) (fuel : ℕ)
    (hf : l.length < fuel) (prev : α) :
    walk next go body fuel prev a =
      some (match l.findSome? body with
        | some b => .inl b
        | none => .inr (l.getLastD prev)) := by
  induction l generalizing a fuel prev with
  | nil =>
    obtain ⟨fuel, rfl⟩ : ∃ k, fuel = k+1 := ⟨fuel-1, by simp at hf; omega⟩
    simp [walk, hstop a h]
  | cons x l ih =>
    obtain ⟨rfl, hx, hl⟩ := h
    obtain ⟨fuel, rfl⟩ : ∃ k, fuel = k+1 := ⟨fuel-1, by simp at hf; omega⟩
    have hlen : l.length < fuel := by simp at hf; omega
    simp only [walk, hgo a hx, if_true, List.findSome?_cons]
    cases hb : body a with
    | some b => rfl
    | none =>
      rw [ih hl fuel hlen]
      cases l <;> rfl

/-- A value that the loop returns comes from one of its cells. -/
theorem walk_returns {go : α → Bool} {body : α → Option β} {fuel : ℕ} {prev a : α} {b : β}
    (h : walk next go body fuel prev a = some (.inl b)) : ∃ x, body x = some b := by
  induction fuel generalizing prev a with
  | zero => exact absurd h (by simp [walk])
  | succ fuel ih =>
    unfold walk at h
    split at h
    · split at h
      · next b' hb =>
        obtain rfl := Sum.inl.inj (Option.some.inj h)
        exact ⟨a, hb⟩
      · exact ih h
    · exact absurd h (by simp)

end Vlsmc.SuccessorChain
