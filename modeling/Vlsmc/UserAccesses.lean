import Mathlib.Data.Nat.Notation

/-!
# Code that loads and stores bytes of a paged memory

A piece of code is a tree of loads and stores, and its addresses may depend on the bytes loaded
before. A paged memory says which addresses are at hand; an access to another one is a fault,
which is resolved or ends the run.
-/

set_option autoImplicit false

namespace Vlsmc.UserAccesses

inductive Code (α : Type) where
  | done (a : α)
  | load (addr : ℕ) (next : UInt8 → Code α)
  | store (addr : ℕ) (byte : UInt8) (next : Code α)

variable {α β σ : Type}

def Code.bind : Code α → (α → Code β) → Code β
  | .done a, f => f a
  | .load addr next, f => .load addr fun b => (next b).bind f
  | .store addr byte next, f => .store addr byte (next.bind f)

/-- All addresses have the property, whatever is loaded. -/
def Code.Within (P : ℕ → Prop) : Code α → Prop
  | .done _ => True
  | .load addr next => P addr ∧ ∀ b, (next b).Within P
  | .store addr _ next => P addr ∧ next.Within P

/-- A memory with pages at hand and others. `fault` resolves a fault at the address, by a store
if the flag is set. -/
structure Pager (σ : Type) where
  present : σ → ℕ → Bool
  load : σ → ℕ → UInt8
  store : σ → ℕ → UInt8 → σ
  fault : σ → ℕ → Bool → Option σ

namespace Pager

def touch (M : Pager σ) (s : σ) (addr : ℕ) (isWrite : Bool) : Option σ :=
  if M.present s addr then some s else M.fault s addr isWrite

/-- The run with its faults; `none` when one is not resolved. -/
def run (M : Pager σ) : Code α → σ → Option (α × σ)
  | .done a, s => some (a, s)
  | .load addr next, s => (M.touch s addr false).bind fun s => M.run (next (M.load s addr)) s
  | .store addr byte next, s => (M.touch s addr true).bind fun s =>
    M.run next (M.store s addr byte)

/-- The run that looks at no fault. -/
def plain (M : Pager σ) : Code α → σ → α × σ
  | .done a, s => (a, s)
  | .load addr next, s => M.plain (next (M.load s addr)) s
  | .store addr byte next, s => M.plain next (M.store s addr byte)

/-- The addresses of that run. -/
def touched (M : Pager σ) : Code α → σ → List ℕ
  | .done _, _ => []
  | .load addr next, s => addr::M.touched (next (M.load s addr)) s
  | .store addr byte next, s => addr::M.touched next (M.store s addr byte)

variable {M : Pager σ}

theorem touch_of_present {s : σ} {addr : ℕ} (h : M.present s addr = true) (isWrite : Bool) :
    M.touch s addr isWrite = some s := if_pos h

theorem touched_bind (c : Code α) (f : α → Code β) (s : σ) : M.touched (c.bind f) s =
    M.touched c s++M.touched (f (M.plain c s).1) (M.plain c s).2 := by
  induction c generalizing s with
  | done a => rfl
  | load addr next ih => exact congrArg (addr::·) (ih (M.load s addr) s)
  | store addr byte next ih => exact congrArg (addr::·) (ih (M.store s addr byte))

/-- With all addresses at hand there is no fault. -/
theorem run_of_present (hstore : ∀ s addr byte x, M.present (M.store s addr byte) x = M.present s x)
    (c : Code α) {s : σ} (h : ∀ x ∈ M.touched c s, M.present s x = true) :
    M.run c s = some (M.plain c s) := by
  induction c generalizing s with
  | done a => rfl
  | load addr next ih =>
    rw [run, touch_of_present (h addr List.mem_cons_self), Option.bind_some]
    exact ih _ fun x hx => h x (List.mem_cons_of_mem addr hx)
  | store addr byte next ih =>
    rw [run, touch_of_present (h addr List.mem_cons_self), Option.bind_some]
    refine ih fun x hx => ?_
    rw [hstore]
    exact h x (List.mem_cons_of_mem addr hx)

/-- When no fault is resolved, a run that ends had all its addresses at hand. -/
theorem present_of_run (hfault : ∀ s addr isWrite, M.fault s addr isWrite = none)
    (hstore : ∀ s addr byte x, M.present (M.store s addr byte) x = M.present s x)
    (c : Code α) {s : σ} {r : α × σ} (h : M.run c s = some r) :
    ∀ x ∈ M.touched c s, M.present s x = true := by
  have hthere : ∀ {s s' : σ} {addr : ℕ} {isWrite : Bool}, M.touch s addr isWrite = some s' →
      s' = s ∧ M.present s addr = true := by
    intro s s' addr isWrite ht
    unfold touch at ht
    split at ht
    · rename_i hp
      exact ⟨(Option.some.inj ht).symm, hp⟩
    · rw [hfault] at ht
      exact absurd ht.symm (Option.some_ne_none _)
  induction c generalizing s with
  | done a => intro x hx; exact absurd hx List.not_mem_nil
  | load addr next ih =>
    obtain ⟨s', ht, hr⟩ := Option.bind_eq_some_iff.mp h
    obtain ⟨rfl, hp⟩ := hthere ht
    intro x hx
    rcases List.mem_cons.mp hx with rfl | hx
    · exact hp
    · exact ih _ hr x hx
  | store addr byte next ih =>
    obtain ⟨s', ht, hr⟩ := Option.bind_eq_some_iff.mp h
    obtain ⟨rfl, hp⟩ := hthere ht
    intro x hx
    rcases List.mem_cons.mp hx with rfl | hx
    · exact hp
    · rw [← hstore s' addr byte x]
      exact ih hr x hx

/-- Two states that agree where the first has its addresses at hand. -/
theorem plain_related {R : σ → σ → Prop}
    (hpresent : ∀ s t addr, R s t → M.present s addr = true → M.present t addr = true)
    (hload : ∀ s t addr, R s t → M.present s addr = true → M.load t addr = M.load s addr)
    (hrel : ∀ s t addr byte, R s t → M.present s addr = true →
      R (M.store s addr byte) (M.store t addr byte))
    (hstore : ∀ s addr byte x, M.present (M.store s addr byte) x = M.present s x)
    (c : Code α) {s t : σ} (h : R s t) (hs : ∀ x ∈ M.touched c s, M.present s x = true) :
    (∀ x ∈ M.touched c t, M.present t x = true) ∧ (M.plain c t).1 = (M.plain c s).1 ∧
      R (M.plain c s).2 (M.plain c t).2 := by
  induction c generalizing s t with
  | done a => exact ⟨fun x hx => absurd hx List.not_mem_nil, rfl, h⟩
  | load addr next ih =>
    have hp := hs addr List.mem_cons_self
    have heq := hload s t addr h hp
    obtain ⟨ht, hr, hrel'⟩ := ih (M.load s addr) h fun x hx => hs x (List.mem_cons_of_mem addr hx)
    refine ⟨fun x hx => ?_, ?_, ?_⟩
    · rw [touched, heq] at hx
      rcases List.mem_cons.mp hx with rfl | hx
      · exact hpresent s t x h hp
      · exact ht x hx
    · rw [plain, plain, heq, hr]
    · rw [plain, plain, heq]
      exact hrel'
  | store addr byte next ih =>
    have hp := hs addr List.mem_cons_self
    obtain ⟨ht, hr, hrel'⟩ := ih (hrel s t addr byte h hp) fun x hx => by
      rw [hstore]
      exact hs x (List.mem_cons_of_mem addr hx)
    refine ⟨fun x hx => ?_, hr, hrel'⟩
    rcases List.mem_cons.mp hx with rfl | hx
    · exact hpresent s t x h hp
    · rw [← hstore t addr byte x]
      exact ht x hx

end Pager
end Vlsmc.UserAccesses
