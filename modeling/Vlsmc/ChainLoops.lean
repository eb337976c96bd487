import Vlsmc.SuccessorChain
import Mathlib.Logic.Function.Iterate
import Mathlib.Data.Nat.Find
import Mathlib.Data.Finset.Card

/-!
# Loops along a successor function

A loop goes from cell to cell and carries further variables. It stops when its test fails, and may
leave early from its body. It returns when some number of rounds is enough: along a chain that
stops, or when a measure of the variables decreases. It runs forever when an invariant keeps its
test true.
-/

set_option autoImplicit false

namespace Vlsmc.ChainLoops
open Vlsmc.SuccessorChain

/-- `while (go a b) { body; a = next a; }`, where the body returns a result or changes `b`. -/
structure Loop (α β ρ : Type*) where
  next : α → α
  go : α → β → Bool
  body : α → β → ρ ⊕ β
  result : α → β → ρ

namespace Loop

variable {α β ρ : Type*} (L : Loop α β ρ)

/-- At most that many tests of the loop; `none` when they were not enough. -/
def run : ℕ → α → β → Option ρ
  | 0, _, _ => none
  | fuel+1, a, b =>
    if L.go a b then
      match L.body a b with
      | .inl r => some r
      | .inr b' => run fuel (L.next a) b'
    else some (L.result a b)

def Returns (a : α) (b : β) : Prop := ∃ fuel r, L.run fuel a b = some r

variable {L} {a : α} {b b' : β} {r : ρ}

theorem run_done (fuel : ℕ) (h : L.go a b = false) : L.run (fuel+1) a b = some (L.result a b) := by
  change (if L.go a b then _ else some (L.result a b)) = _
  rw [h]
  rfl

theorem run_early (fuel : ℕ) (hgo : L.go a b = true) (h : L.body a b = .inl r) :
    L.run (fuel+1) a b = some r := by
  change (if L.go a b then _ else _) = _
  rw [if_pos hgo, h]

theorem run_next (fuel : ℕ) (hgo : L.go a b = true) (h : L.body a b = .inr b') :
    L.run (fuel+1) a b = L.run fuel (L.next a) b' := by
  change (if L.go a b then _ else _) = _
  rw [if_pos hgo, h]

theorem returns_stop (h : L.go a b = false) : L.Returns a b := ⟨1, L.result a b, run_done 0 h⟩

theorem returns_early (h : L.body a b = .inl r) : L.Returns a b := by
  by_cases hgo : L.go a b = true
  · exact ⟨1, r, run_early 0 hgo h⟩
  · exact returns_stop (by simpa using hgo)

theorem returns_next (hgo : L.go a b = true) (h : L.body a b = .inr b') :
    L.Returns a b ↔ L.Returns (L.next a) b' := by
  constructor
  · rintro ⟨fuel, r, hr⟩
    cases fuel with
    | zero => cases hr
    | succ fuel =>
      rw [run_next fuel hgo h] at hr
      exact ⟨fuel, r, hr⟩
  · rintro ⟨fuel, r, hr⟩
    exact ⟨fuel+1, r, (run_next fuel hgo h).trans hr⟩

theorem run_mono {fuel fuel' : ℕ} (h : L.run fuel a b = some r) (hle : fuel ≤ fuel') :
    L.run fuel' a b = some r := by
  induction fuel generalizing fuel' a b with
  | zero => cases h
  | succ fuel ih =>
    obtain ⟨fuel', rfl⟩ : ∃ k, fuel' = k+1 := ⟨fuel'-1, by omega⟩
    rw [run] at h ⊢
    split_ifs at h ⊢
    · cases hb : L.body a b with
      | inl r' => rwa [hb] at h
      | inr b' =>
        rw [hb] at h
        exact ih h (by omega)
    · exact h

/-- What holds where the loop stops, and before a round when it holds after it, holds wherever the
loop returns. -/
theorem returns_rec {P : α → β → Prop} (hstop : ∀ a b, L.go a b = false → P a b)
    (hearly : ∀ a b r, L.go a b = true → L.body a b = .inl r → P a b)
    (hnext : ∀ a b b', L.go a b = true → L.body a b = .inr b' → P (L.next a) b' → P a b)
    (h : L.Returns a b) : P a b := by
  obtain ⟨fuel, r, hr⟩ := h
  induction fuel generalizing a b with
  | zero => cases hr
  | succ fuel ih =>
    by_cases hgo : L.go a b = true
    · cases hb : L.body a b with
      | inl r' => exact hearly a b r' hgo hb
      | inr b' =>
        rw [run_next fuel hgo hb] at hr
        exact hnext a b b' hgo hb (ih hr)
    · exact hstop a b (by simpa using hgo)

/-- A loop returns when its chain leads to a cell at which it stops. -/
theorem returns_chain {stop : α → Prop} (hstop : ∀ a b, stop a → L.go a b = false) (n : ℕ)
    (h : stop (L.next^[n] a)) : L.Returns a b := by
  induction n generalizing a b with
  | zero => exact returns_stop (hstop a b h)
  | succ n ih =>
    by_cases hgo : L.go a b = true
    · cases hb : L.body a b with
      | inl r => exact returns_early hb
      | inr b' => exact (returns_next hgo hb).mpr (ih h)
    · exact returns_stop (by simpa using hgo)

/-- A loop returns when a measure of its variables decreases in every round. -/
theorem returns_measure {P : α → β → Prop} (μ : β → ℕ)
    (hdec : ∀ a b b', P a b → L.go a b = true → L.body a b = .inr b' → P (L.next a) b' ∧ μ b' < μ b)
    (h : P a b) : L.Returns a b := by
  induction hn : μ b using Nat.strongRecOn generalizing a b with
  | ind n ih =>
    by_cases hgo : L.go a b = true
    · cases hb : L.body a b with
      | inl r => exact returns_early hb
      | inr b' =>
        obtain ⟨hp, hlt⟩ := hdec a b b' h hgo hb
        exact (returns_next hgo hb).mpr (ih (μ b') (hn ▸ hlt) hp rfl)
    · exact returns_stop (by simpa using hgo)

/-- The cells whose successors the first rounds look up. -/
def visits (L : Loop α β ρ) : ℕ → α → β → List α
  | 0, _, _ => []
  | fuel+1, a, b =>
    if L.go a b then
      match L.body a b with
      | .inl _ => []
      | .inr b' => a::visits L fuel (L.next a) b'
    else []

/-- The variables after that many rounds; `none` when the loop has been left before. -/
def after (L : Loop α β ρ) : ℕ → α → β → Option β
  | 0, _, b => some b
  | n+1, a, b =>
    if L.go a b then
      match L.body a b with
      | .inl _ => none
      | .inr b' => after L n (L.next a) b'
    else none

theorem after_next {n : ℕ} (hgo : L.go a b = true) (h : L.body a b = .inr b') :
    L.after (n+1) a b = L.after n (L.next a) b' := by
  change (if L.go a b then _ else _) = _
  rw [if_pos hgo, h]

theorem after_succ {n : ℕ} : L.after (n+1) a b = (L.after n a b).bind fun b' =>
    if L.go (L.next^[n] a) b' then (L.body (L.next^[n] a) b').getRight? else none := by
  induction n generalizing a b with
  | zero =>
    rw [after, after, Option.bind_some, Function.iterate_zero_apply]
    cases L.body a b <;> rfl
  | succ n ih =>
    rw [after]
    conv_rhs => rw [after]
    by_cases hgo : L.go a b = true
    · rw [if_pos hgo, if_pos hgo]
      cases hb : L.body a b with
      | inl r => rfl
      | inr b' => exact ih
    · rw [if_neg hgo, if_neg hgo]
      rfl

/-- Where a loop that returns has come to, when its body never returns. -/
theorem run_result {fuel : ℕ} (hbody : ∀ a b, ¬ ∃ r, L.body a b = .inl r)
    (h : L.run fuel a b = some r) :
    ∃ n < fuel, ∃ b', L.after n a b = some b' ∧ L.go (L.next^[n] a) b' = false ∧
      r = L.result (L.next^[n] a) b' := by
  induction fuel generalizing a b with
  | zero => cases h
  | succ fuel ih =>
    by_cases hgo : L.go a b = true
    · cases hb : L.body a b with
      | inl r' => exact absurd ⟨r', hb⟩ (hbody a b)
      | inr b' =>
        rw [run_next fuel hgo hb] at h
        obtain ⟨n, hlt, b'', hafter, hstop, hr⟩ := ih h
        refine ⟨n+1, Nat.succ_lt_succ hlt, b'', ?_, hstop, hr⟩
        rw [after_next hgo hb]
        exact hafter
    · have hstop : L.go a b = false := by simpa using hgo
      rw [run_done fuel hstop] at h
      exact ⟨0, Nat.succ_pos fuel, b, rfl, hstop, (Option.some.inj h).symm⟩

/-- A loop that stops after some rounds returns, with any larger number of rounds. -/
theorem run_stop {n fuel : ℕ} {b' : β} (h : L.after n a b = some b')
    (hstop : L.go (L.next^[n] a) b' = false) (hlt : n < fuel) :
    L.run fuel a b = some (L.result (L.next^[n] a) b') := by
  induction n generalizing fuel a b with
  | zero =>
    obtain ⟨fuel, rfl⟩ : ∃ k, fuel = k+1 := ⟨fuel-1, by omega⟩
    obtain rfl := Option.some.inj h
    exact run_done fuel hstop
  | succ n ih =>
    obtain ⟨fuel, rfl⟩ : ∃ k, fuel = k+1 := ⟨fuel-1, by omega⟩
    by_cases hgo : L.go a b = true
    · cases hb : L.body a b with
      | inl r' =>
        rw [after, if_pos hgo, hb] at h
        cases h
      | inr b'' =>
        rw [after_next hgo hb] at h
        rw [run_next fuel hgo hb]
        exact ih h hstop (by omega)
    · rw [after, if_neg hgo] at h
      cases h

/-- A cell is looked up from in a round that the loop gets through. -/
theorem mem_visits {fuel : ℕ} {x : α} : x ∈ L.visits fuel a b ↔
    ∃ n < fuel, x = L.next^[n] a ∧ (L.after (n+1) a b).isSome = true := by
  induction fuel generalizing a b with
  | zero => simp [visits]
  | succ fuel ih =>
    rw [visits]
    by_cases hgo : L.go a b = true
    · cases hb : L.body a b with
      | inl r =>
        simp only [hgo, if_true, List.not_mem_nil, false_iff]
        rintro ⟨n, -, -, hn⟩
        simp [after, hgo, hb] at hn
      | inr b' =>
        simp only [hgo, if_true, List.mem_cons, ih, after_next hgo hb]
        constructor
        · rintro (rfl | ⟨n, hn, rfl, hs⟩)
          · exact ⟨0, Nat.succ_pos _, rfl, rfl⟩
          · exact ⟨n+1, by omega, rfl, hs⟩
        · rintro ⟨n, hn, rfl, hs⟩
          cases n with
          | zero => exact Or.inl rfl
          | succ n => exact Or.inr ⟨n, by omega, rfl, hs⟩
    · rw [if_neg hgo]
      simp only [List.not_mem_nil, false_iff]
      rintro ⟨n, -, -, hn⟩
      simp [after, hgo] at hn

end Loop

section Walks

variable {α β : Type*} {next : α → α} {go : α → Bool} {body : α → Option β} {prev a : α}

/-- The walk stops at a cell: it is not live, or the body returns. -/
def Stops (go : α → Bool) (body : α → Option β) (a : α) : Prop :=
  go a = false ∨ (body a).isSome = true

theorem walk_within {n fuel : ℕ} (h : Stops go body (next^[n] a)) (hf : n < fuel) :
    ∃ r, walk next go body fuel prev a = some r := by
  induction n generalizing fuel prev a with
  | zero =>
    obtain ⟨fuel, rfl⟩ : ∃ k, fuel = k+1 := ⟨fuel-1, by omega⟩
    rw [walk]
    rcases h with hstop | hbody
    · exact ⟨_, if_neg (by simp [show go a = false from hstop])⟩
    · obtain ⟨b, hb⟩ := Option.isSome_iff_exists.mp hbody
      have ha : body a = some b := hb
      by_cases hgo : go a = true <;> simp [hgo, ha]
  | succ n ih =>
    obtain ⟨fuel, rfl⟩ : ∃ k, fuel = k+1 := ⟨fuel-1, by omega⟩
    rw [walk]
    split_ifs
    · cases hb : body a with
      | some b => exact ⟨_, rfl⟩
      | none => exact ih h (by omega)
    · exact ⟨_, rfl⟩

/-- A walk returns when its chain leads to a cell at which it stops. -/
theorem walk_returns_iff : (∃ fuel r, walk next go body fuel prev a = some r) ↔
    ∃ n, Stops go body (next^[n] a) := by
  constructor
  · rintro ⟨fuel, r, hr⟩
    induction fuel generalizing prev a with
    | zero => cases hr
    | succ fuel ih =>
      by_cases hgo : go a = true
      · rw [walk, if_pos hgo] at hr
        cases hb : body a with
        | some b => exact ⟨0, Or.inr (by simp [hb])⟩
        | none =>
          rw [hb] at hr
          obtain ⟨n, hn⟩ := ih hr
          exact ⟨n+1, hn⟩
      · exact ⟨0, Or.inl (by simpa using hgo)⟩
  · rintro ⟨n, hn⟩
    exact ⟨n+1, walk_within hn (Nat.lt_succ_self n)⟩

/-- The cells whose successors the first rounds of a walk look up. -/
def walkVisits (next : α → α) (go : α → Bool) (body : α → Option β) : ℕ → α → List α
  | 0, _ => []
  | fuel+1, a =>
    if go a then
      match body a with
      | some _ => []
      | none => a::walkVisits next go body fuel (next a)
    else []

theorem mem_walkVisits {fuel : ℕ} {x : α} : x ∈ walkVisits next go body fuel a ↔
    ∃ n < fuel, x = next^[n] a ∧ ∀ k ≤ n, ¬ Stops go body (next^[k] a) := by
  induction fuel generalizing a with
  | zero => simp [walkVisits]
  | succ fuel ih =>
    rw [walkVisits]
    by_cases hstop : Stops go body a
    · have hnil : (if go a = true then
          match body a with
          | some _ => []
          | none => a::walkVisits next go body fuel (next a)
        else []) = [] := by
        rcases hstop with hgo | hbody
        · rw [if_neg (by simp [hgo])]
        · obtain ⟨r, hr⟩ := Option.isSome_iff_exists.mp hbody
          rw [hr]
          split <;> rfl
      rw [hnil]
      simp only [List.not_mem_nil, false_iff]
      rintro ⟨n, -, -, hn⟩
      exact hn 0 (Nat.zero_le n) hstop
    · obtain ⟨hgo, hbody⟩ := not_or.mp hstop
      rw [if_pos (by simpa using hgo), show body a = none by simpa using hbody]
      simp only [List.mem_cons, ih]
      constructor
      · rintro (rfl | ⟨n, hn, rfl, hs⟩)
        · refine ⟨0, Nat.succ_pos _, rfl, fun k hk => ?_⟩
          obtain rfl : k = 0 := by omega
          exact hstop
        · refine ⟨n+1, by omega, rfl, fun k hk => ?_⟩
          cases k with
          | zero => exact hstop
          | succ k => exact hs k (by omega)
      · rintro ⟨n, hn, rfl, hs⟩
        cases n with
        | zero => exact Or.inl rfl
        | succ n => exact Or.inr ⟨n, by omega, rfl, fun k hk => hs (k+1) (by omega)⟩

/-- Where a walk that returns has come to. -/
theorem walk_result {fuel : ℕ} {r : β ⊕ α} (h : walk next go body fuel prev a = some r) :
    ∃ n < fuel, (∀ k < n, ¬ Stops go body (next^[k] a)) ∧
      ((∃ b, r = .inl b ∧ go (next^[n] a) = true ∧ body (next^[n] a) = some b) ∨
        go (next^[n] a) = false ∧ r = .inr (if n = 0 then prev else next^[n-1] a)) := by
  induction fuel generalizing prev a with
  | zero => cases h
  | succ fuel ih =>
    rw [walk] at h
    by_cases hgo : go a = true
    · rw [if_pos hgo] at h
      cases hb : body a with
      | some b =>
        rw [hb] at h
        refine ⟨0, Nat.succ_pos fuel, fun k hk => absurd hk (Nat.not_lt_zero k),
          Or.inl ⟨b, ?_, hgo, hb⟩⟩
        exact (Option.some.inj h).symm
      | none =>
        rw [hb] at h
        obtain ⟨n, hlt, hn, hr⟩ := ih h
        refine ⟨n+1, Nat.succ_lt_succ hlt, fun k hk => ?_, ?_⟩
        · cases k with
          | zero => simp [Stops, hgo, hb]
          | succ k => exact hn k (by omega)
        · rcases hr with hr | ⟨hstop, hr⟩
          · exact Or.inl hr
          · refine Or.inr ⟨hstop, hr.trans ?_⟩
            cases n <;> rfl
    · rw [if_neg hgo] at h
      refine ⟨0, Nat.succ_pos fuel, fun k hk => absurd hk (Nat.not_lt_zero k),
        Or.inr ⟨by simpa using hgo, ?_⟩⟩
      exact (Option.some.inj h).symm

/-- A walk that returns has come to the first cell at which it stops. -/
theorem walk_stop {n fuel : ℕ} {r : β ⊕ α} (hpass : ∀ k < n, ¬ Stops go body (next^[k] a))
    (hstop : Stops go body (next^[n] a)) (h : walk next go body fuel prev a = some r) :
    (∃ b, r = .inl b ∧ go (next^[n] a) = true ∧ body (next^[n] a) = some b) ∨
      go (next^[n] a) = false ∧ r = .inr (if n = 0 then prev else next^[n-1] a) := by
  obtain ⟨m, -, hfirst, hend⟩ := walk_result h
  have hmn : m = n := by
    rcases Nat.lt_trichotomy m n with hless | heq | hmore
    · refine absurd ?_ (hpass m hless)
      rcases hend with ⟨b, -, -, hb⟩ | ⟨hgo, -⟩
      · exact Or.inr (by simp [hb])
      · exact Or.inl hgo
    · exact heq
    · exact absurd hstop (hfirst n hmore)
  rwa [hmn] at hend

theorem walk_mono {fuel fuel' : ℕ} {r : β ⊕ α} (h : walk next go body fuel prev a = some r)
    (hle : fuel ≤ fuel') : walk next go body fuel' prev a = some r := by
  induction fuel generalizing fuel' prev a with
  | zero => cases h
  | succ fuel ih =>
    obtain ⟨fuel', rfl⟩ : ∃ k, fuel' = k+1 := ⟨fuel'-1, by omega⟩
    rw [walk] at h ⊢
    split_ifs at h ⊢
    · cases hb : body a with
      | some b => rwa [hb] at h
      | none =>
        rw [hb] at h
        exact ih h (by omega)
    · exact h

/-- A walk over fewer than `n` live cells that returns does so within `n` rounds and one: a longer
one has come back to a cell. -/
theorem walk_bound {next : ℕ → ℕ} {go : ℕ → Bool} {body : ℕ → Option β} {prev a n : ℕ}
    (hlive : ∀ x, go x = true → x < n) :
    (∃ fuel r, walk next go body fuel prev a = some r) ↔
      ∃ r, walk next go body (n+1) prev a = some r := by
  classical
  refine ⟨fun h => ?_, fun ⟨r, hr⟩ => ⟨n+1, r, hr⟩⟩
  have hex := walk_returns_iff.mp h
  have hmin := fun k (hk : k < Nat.find hex) => Nat.find_min hex hk
  refine walk_within (Nat.find_spec hex) ?_
  by_contra hlong
  have hmaps : ∀ k ∈ Finset.range (Nat.find hex), next^[k] a ∈ Finset.range n := by
    intro k hk
    apply Finset.mem_range.mpr
    apply hlive
    by_contra hgo
    exact hmin k (Finset.mem_range.mp hk) (Or.inl (by simpa using hgo))
  have hcard : (Finset.range n).card < (Finset.range (Nat.find hex)).card := by
    rw [Finset.card_range, Finset.card_range]
    omega
  obtain ⟨i, hi, j, hj, hij, heq⟩ := Finset.exists_ne_map_eq_of_card_lt_of_maps_to hcard hmaps
  have hback : ∀ {i j : ℕ}, i < j → j < Nat.find hex → next^[i] a = next^[j] a → False := by
    intro i j hlt hj heq
    apply hmin (Nat.find hex-j+i) (by omega)
    have hsame : next^[Nat.find hex-j+i] a = next^[Nat.find hex] a := by
      rw [Function.iterate_add_apply, heq, ← Function.iterate_add_apply, Nat.sub_add_cancel hj.le]
    rw [hsame]
    exact Nat.find_spec hex
  rcases Nat.lt_or_gt_of_ne hij with hlt | hlt
  · exact hback hlt (Finset.mem_range.mp hj) heq
  · exact hback hlt (Finset.mem_range.mp hi) heq.symm

end Walks

end Vlsmc.ChainLoops
