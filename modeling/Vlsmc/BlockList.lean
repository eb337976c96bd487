import Mathlib.Data.List.Basic
import Mathlib.Order.Nat

/-!
# Lists of blocks

A region of addresses cut into blocks, each free or in use, and linked by
headers that record the neighbours.
-/

set_option autoImplicit false

namespace Vlsmc.BlockList

structure Block where
  addr : ℕ
  size : ℕ
  free : Bool
  deriving DecidableEq, Repr

/-- The address of the first block, or what comes behind the list. -/
def firstAddr : List Block → ℕ → ℕ
  | [], next => next
  | b::_, _ => b.addr

/-- The address of the last block, or what comes before the list. -/
def lastAddr : ℕ → List Block → ℕ
  | prev, [] => prev
  | _, b::bs => lastAddr b.addr bs

/-- Whether the first block, or what comes behind the list, is free. -/
def firstFree : List Block → Bool → Bool
  | [], behind => behind
  | b::_, _ => b.free

/-- `Header b next prev` holds of every block and its neighbours. -/
def Linked (Header : Block → ℕ → ℕ → Prop) : ℕ → List Block → ℕ → Prop
  | _, [], _ => True
  | prev, b::bs, next => Header b (firstAddr bs next) prev ∧ Linked Header b.addr bs next

/-- The blocks lie in order between two addresses, each larger than `least`. -/
def Ordered (least : ℕ) : ℕ → List Block → ℕ → Prop
  | lo, [], hi => lo ≤ hi
  | lo, b::bs, hi => lo ≤ b.addr ∧ least < b.size ∧ Ordered least (b.addr+b.size) bs hi

/-- The blocks fill the region. -/
def Tiled : ℕ → List Block → ℕ → Prop
  | lo, [], hi => lo = hi
  | lo, b::bs, hi => b.addr = lo ∧ Tiled (lo+b.size) bs hi

/-- Behind every free block comes one in use; `behind` stands for what follows
the list. -/
def Settled : List Block → Bool → Prop
  | [], _ => True
  | b::bs, behind => (b.free = true → firstFree bs behind = false) ∧ Settled bs behind

variable {Header Header' : Block → ℕ → ℕ → Prop} {b : Block} {bs xs ys : List Block}
variable {least lo mid hi prev next : ℕ} {behind : Bool}

theorem firstAddr_append (xs ys : List Block) (next : ℕ) :
    firstAddr (xs++ys) next = firstAddr xs (firstAddr ys next) := by
  cases xs <;> rfl

theorem lastAddr_append (prev : ℕ) (xs ys : List Block) :
    lastAddr prev (xs++ys) = lastAddr (lastAddr prev xs) ys := by
  induction xs generalizing prev with
  | nil => rfl
  | cons b xs ih => exact ih b.addr

theorem firstFree_append (xs ys : List Block) (behind : Bool) :
    firstFree (xs++ys) behind = firstFree xs (firstFree ys behind) := by
  cases xs <;> rfl

theorem linked_append : Linked Header prev (xs++ys) next ↔
    Linked Header prev xs (firstAddr ys next) ∧ Linked Header (lastAddr prev xs) ys next := by
  induction xs generalizing prev with
  | nil => exact ⟨fun h => ⟨trivial, h⟩, fun h => h.2⟩
  | cons b xs ih =>
    simp only [List.cons_append, Linked, lastAddr, ih, firstAddr_append, and_assoc]

theorem linked_imp (h : ∀ b ∈ bs, ∀ n p, Header b n p → Header' b n p)
    (hl : Linked Header prev bs next) : Linked Header' prev bs next := by
  induction bs generalizing prev with
  | nil => trivial
  | cons b bs ih =>
    exact ⟨h b (by simp) _ _ hl.1, ih (fun c hc => h c (by simp [hc])) hl.2⟩

theorem ordered_le (h : Ordered least lo bs hi) : lo ≤ hi := by
  induction bs generalizing lo with
  | nil => exact h
  | cons b bs ih =>
    have h1 := ih h.2.2
    have h2 := h.1
    omega

theorem ordered_append : Ordered least lo (xs++ys) hi ↔
    ∃ mid, Ordered least lo xs mid ∧ Ordered least mid ys hi := by
  induction xs generalizing lo with
  | nil =>
    constructor
    · intro h
      exact ⟨lo, le_rfl, h⟩
    · rintro ⟨mid, h1, h2⟩
      have h1' : lo ≤ mid := h1
      cases ys with
      | nil =>
        have h2' : mid ≤ hi := h2
        exact h1'.trans h2'
      | cons b ys => exact ⟨h1'.trans h2.1, h2.2⟩
  | cons b xs ih =>
    constructor
    · rintro ⟨h1, h2, h3⟩
      obtain ⟨mid, h4, h5⟩ := ih.mp h3
      exact ⟨mid, ⟨h1, h2, h4⟩, h5⟩
    · rintro ⟨mid, ⟨h1, h2, h3⟩, h4⟩
      exact ⟨h1, h2, ih.mpr ⟨mid, h3, h4⟩⟩

theorem ordered_mem (h : Ordered least lo bs hi) (hb : b ∈ bs) :
    lo ≤ b.addr ∧ b.addr+b.size ≤ hi ∧ least < b.size := by
  induction bs generalizing lo with
  | nil => simp at hb
  | cons c bs ih =>
    rcases List.mem_cons.mp hb with rfl | hb
    · exact ⟨h.1, ordered_le h.2.2, h.2.1⟩
    · obtain ⟨h1, h2, h3⟩ := ih h.2.2 hb
      have h4 := h.1
      exact ⟨by omega, h2, h3⟩

theorem ordered_mono {lo' hi' : ℕ} (h : Ordered least lo bs hi) (hlo : lo' ≤ lo) (hhi : hi ≤ hi') :
    Ordered least lo' bs hi' := by
  induction bs generalizing lo lo' with
  | nil =>
    have h1 : lo ≤ hi := h
    exact hlo.trans (h1.trans hhi)
  | cons b bs ih => exact ⟨hlo.trans h.1, h.2.1, ih h.2.2 le_rfl⟩

/-- Two blocks of an ordered list do not meet. -/
theorem ordered_apart {c : Block} (h : Ordered least lo bs hi) (hb : b ∈ bs) (hc : c ∈ bs)
    (hne : b ≠ c) : b.addr+b.size ≤ c.addr ∨ c.addr+c.size ≤ b.addr := by
  induction bs generalizing lo with
  | nil => simp at hb
  | cons d bs ih =>
    rcases List.mem_cons.mp hb with rfl | hb'
    · rcases List.mem_cons.mp hc with rfl | hc'
      · exact absurd rfl hne
      · exact Or.inl (ordered_mem h.2.2 hc').1
    · rcases List.mem_cons.mp hc with rfl | hc'
      · exact Or.inr (ordered_mem h.2.2 hb').1
      · exact ih h.2.2 hb' hc'

theorem ordered_length (h : Ordered least lo bs hi) : lo+bs.length ≤ hi := by
  induction bs generalizing lo with
  | nil => exact h
  | cons b bs ih =>
    have h1 := ih h.2.2
    have h2 := h.1
    have h3 := h.2.1
    simp only [List.length_cons]
    omega

theorem tiled_append : Tiled lo (xs++ys) hi ↔ ∃ mid, Tiled lo xs mid ∧ Tiled mid ys hi := by
  induction xs generalizing lo with
  | nil => exact ⟨fun h => ⟨lo, rfl, h⟩, fun ⟨mid, h1, h2⟩ => h1 ▸ h2⟩
  | cons b xs ih =>
    constructor
    · rintro ⟨h1, h2⟩
      obtain ⟨mid, h3, h4⟩ := ih.mp h2
      exact ⟨mid, ⟨h1, h3⟩, h4⟩
    · rintro ⟨mid, ⟨h1, h2⟩, h3⟩
      exact ⟨h1, ih.mpr ⟨mid, h2, h3⟩⟩

theorem settled_append : Settled (xs++ys) behind ↔
    Settled xs (firstFree ys behind) ∧ Settled ys behind := by
  induction xs with
  | nil => exact ⟨fun h => ⟨trivial, h⟩, fun h => h.2⟩
  | cons b xs ih => simp only [List.cons_append, Settled, ih, firstFree_append, and_assoc]

theorem settled_used (h : Settled bs behind) : Settled bs false := by
  induction bs with
  | nil => trivial
  | cons b bs ih =>
    refine ⟨fun hb => ?_, ih h.2⟩
    cases bs with
    | nil => rfl
    | cons c bs => exact h.1 hb

/-- A settled list of free blocks only is empty. -/
theorem settled_nil (h : Settled bs true) (hf : ∀ b ∈ bs, b.free = true) : bs = [] := by
  cases bs with
  | nil => rfl
  | cons b bs =>
    exfalso
    induction bs generalizing b with
    | nil => exact absurd (h.1 (hf b (by simp))) (by simp [firstFree])
    | cons c bs ih => exact ih c h.2 (fun d hd => hf d (by simp [hd]))

/-- A block takes in the free block behind it. -/
def joinNext (b : Block) : List Block → Block × List Block
  | [] => (b, [])
  | c::zs => if c.free then ({ b with size := b.size+c.size }, zs) else (b, c::zs)

/-- The free block before it takes a block in. -/
def joinPrev (xs : List Block) (b : Block) : List Block × Block :=
  match xs.getLast? with
  | none => (xs, b)
  | some a => if a.free then (xs.dropLast, { a with size := a.size+b.size }) else (xs, b)

/-- A block is cut in two when enough is left for the second. -/
def cut (b : Block) (size rest : ℕ) : List Block :=
  if size+rest < b.size then [⟨b.addr, size, false⟩, ⟨b.addr+size, b.size-size, true⟩]
  else [{ b with free := false }]

theorem joinNext_cons (b c : Block) (zs : List Block) :
    joinNext b (c::zs) =
      if c.free then ({ b with size := b.size+c.size }, zs) else (b, c::zs) := rfl

theorem joinPrev_concat (xs : List Block) (a b : Block) :
    joinPrev (xs++[a]) b =
      if a.free then (xs, { a with size := a.size+b.size }) else (xs++[a], b) := by
  unfold joinPrev
  rw [List.getLast?_append_of_ne_nil _ (by simp), List.dropLast_concat]
  rfl

theorem joinNext_addr (b : Block) (ys : List Block) : (joinNext b ys).1.addr = b.addr := by
  cases ys with
  | nil => rfl
  | cons c zs =>
    rw [joinNext_cons]
    split_ifs <;> rfl

theorem joinNext_free (b : Block) (ys : List Block) : (joinNext b ys).1.free = b.free := by
  cases ys with
  | nil => rfl
  | cons c zs =>
    rw [joinNext_cons]
    split_ifs <;> rfl

theorem joinPrev_free (xs : List Block) {b : Block} (hb : b.free = true) :
    (joinPrev xs b).2.free = true := by
  rcases List.eq_nil_or_concat' xs with rfl | ⟨xs, a, rfl⟩
  · exact hb
  · rw [joinPrev_concat]
    split_ifs with ha
    · exact ha
    · exact hb

theorem ordered_joinNext (h : Ordered least lo (b::ys) hi) :
    Ordered least lo ((joinNext b ys).1::(joinNext b ys).2) hi := by
  cases ys with
  | nil => exact h
  | cons c zs =>
    rw [joinNext_cons]
    split_ifs
    · obtain ⟨h1, h2, h3, h4, h5⟩ := h
      refine ⟨h1, ?_, ordered_mono h5 ?_ le_rfl⟩ <;> dsimp only <;> omega
    · exact h

theorem ordered_joinPrev (h : Ordered least lo (xs++b::ys) hi) :
    Ordered least lo ((joinPrev xs b).1++(joinPrev xs b).2::ys) hi := by
  rcases List.eq_nil_or_concat' xs with rfl | ⟨xs, a, rfl⟩
  · exact h
  · rw [joinPrev_concat]
    split_ifs
    · rw [List.append_assoc, List.singleton_append] at h
      obtain ⟨mid, h1, h2⟩ := ordered_append.mp h
      refine ordered_append.mpr ⟨mid, h1, ?_⟩
      obtain ⟨h3, h4, h5, h6, h7⟩ := h2
      refine ⟨h3, ?_, ordered_mono h7 ?_ le_rfl⟩ <;> dsimp only <;> omega
    · exact h

theorem tiled_joinNext (h : Tiled lo (b::ys) hi) :
    Tiled lo ((joinNext b ys).1::(joinNext b ys).2) hi := by
  cases ys with
  | nil => exact h
  | cons c zs =>
    rw [joinNext_cons]
    split_ifs
    · obtain ⟨h1, h2, h3⟩ := h
      refine ⟨h1, ?_⟩
      dsimp only
      rw [← Nat.add_assoc]
      exact h3
    · exact h

theorem tiled_joinPrev (h : Tiled lo (xs++b::ys) hi) :
    Tiled lo ((joinPrev xs b).1++(joinPrev xs b).2::ys) hi := by
  rcases List.eq_nil_or_concat' xs with rfl | ⟨xs, a, rfl⟩
  · exact h
  · rw [joinPrev_concat]
    split_ifs
    · rw [List.append_assoc, List.singleton_append] at h
      obtain ⟨mid, h1, h2, h3, h4⟩ := tiled_append.mp h
      refine tiled_append.mpr ⟨mid, h1, h2, ?_⟩
      dsimp only
      rw [← Nat.add_assoc]
      exact h4
    · exact h

/-- Behind a block that was joined comes a block in use, or nothing. -/
theorem settled_joinNext (h : Settled ys true) :
    Settled (joinNext b ys).2 true ∧
      ((joinNext b ys).2 = [] ∨ firstFree (joinNext b ys).2 true = false) := by
  cases ys with
  | nil => exact ⟨trivial, Or.inl rfl⟩
  | cons c zs =>
    rw [joinNext_cons]
    split_ifs with hc
    · exact ⟨h.2, Or.inr (h.1 hc)⟩
    · exact ⟨h, Or.inr (Bool.not_eq_true _ ▸ hc)⟩

/-- Before it comes a block in use, or nothing. -/
theorem settled_joinPrev (h : Settled xs false) : Settled (joinPrev xs b).1 true := by
  rcases List.eq_nil_or_concat' xs with rfl | ⟨xs, a, rfl⟩
  · exact h
  · rw [joinPrev_concat]
    obtain ⟨h1, h2⟩ := settled_append.mp h
    split_ifs with ha
    · have h3 : Settled xs a.free := h1
      rwa [ha] at h3
    · exact settled_append.mpr ⟨h1, fun hf => absurd hf ha, trivial⟩

/-- Joining removes free blocks only. -/
theorem mem_joinNext {d : Block} (hb : b.free = true) (hd : d.free = false) :
    d ∈ (joinNext b ys).1::(joinNext b ys).2 ↔ d ∈ ys := by
  have hne : ∀ c : Block, c.free = true → d ≠ c := by
    rintro c hc rfl
    exact absurd hc (by simp [hd])
  rw [List.mem_cons, or_iff_right (hne _ (by rw [joinNext_free]; exact hb))]
  cases ys with
  | nil => rfl
  | cons c zs =>
    rw [joinNext_cons]
    split_ifs with hc
    · rw [List.mem_cons, or_iff_right (hne c hc)]
    · rfl

theorem mem_joinPrev {d : Block} (hd : d.free = false) : d ∈ (joinPrev xs b).1 ↔ d ∈ xs := by
  rcases List.eq_nil_or_concat' xs with rfl | ⟨xs, a, rfl⟩
  · rfl
  · rw [joinPrev_concat]
    split_ifs with ha
    · rw [List.mem_append, List.mem_singleton, or_iff_left]
      rintro rfl
      exact absurd ha (by simp [hd])
    · rfl

/-- A block becomes free and is joined with its neighbours; at the end of the
list it goes. -/
def freed (xs : List Block) (b : Block) (ys : List Block) : List Block :=
  let r := joinNext { b with free := true } ys
  if r.2 = [] then (joinPrev xs r.1).1 else (joinPrev xs r.1).1++(joinPrev xs r.1).2::r.2

/-- What goes when a block becomes free. -/
def released (xs : List Block) (b : Block) (ys : List Block) : ℕ :=
  let r := joinNext { b with free := true } ys
  if r.2 = [] then (joinPrev xs r.1).2.size else 0

theorem mem_freed {d : Block} (hd : d.free = false) : d ∈ freed xs b ys ↔ d ∈ xs++ys := by
  have hnext : d ∈ (joinNext { b with free := true } ys).1::
      (joinNext { b with free := true } ys).2 ↔ d ∈ ys := mem_joinNext rfl hd
  have hne : d ≠ (joinPrev xs (joinNext { b with free := true } ys).1).2 := by
    intro he
    have := joinPrev_free xs (b := (joinNext { b with free := true } ys).1)
      (by rw [joinNext_free])
    rw [← he, hd] at this
    exact absurd this (by simp)
  have hne' : d ≠ (joinNext { b with free := true } ys).1 := by
    intro he
    have := joinNext_free { b with free := true } ys
    rw [← he, hd] at this
    exact absurd this (by simp)
  rw [List.mem_cons, or_iff_right hne'] at hnext
  unfold freed
  dsimp only
  split_ifs with hy
  · rw [hy] at hnext
    rw [mem_joinPrev hd, List.mem_append, ← hnext]
    simp
  · rw [List.mem_append, mem_joinPrev hd, List.mem_cons, or_iff_right hne, List.mem_append, hnext]

theorem settled_freed (h : Settled (xs++b::ys) true) (hb : b.free = false) :
    Settled (freed xs b ys) true := by
  obtain ⟨h1, -, h2⟩ := settled_append.mp h
  have h1' : Settled xs false := by
    rw [← hb]
    exact h1
  obtain ⟨h3, h4⟩ := settled_joinNext (b := { b with free := true }) h2
  have h5 := settled_joinPrev (b := (joinNext { b with free := true } ys).1) h1'
  unfold freed
  dsimp only
  split_ifs with hy
  · exact h5
  · refine settled_append.mpr ⟨?_, fun _ => h4.resolve_left hy, h3⟩
    rw [firstFree, joinPrev_free xs (by rw [joinNext_free])]
    exact h5

theorem tiled_freed (h : Tiled lo (xs++b::ys) hi) :
    Tiled lo (freed xs b ys) (hi-released xs b ys) := by
  obtain ⟨mid, h1, h2⟩ := tiled_append.mp h
  have h3 : Tiled lo (xs++(joinNext { b with free := true } ys).1::
      (joinNext { b with free := true } ys).2) hi :=
    tiled_append.mpr ⟨mid, h1, tiled_joinNext (b := { b with free := true }) h2⟩
  have h4 := tiled_joinPrev h3
  unfold freed released
  dsimp only
  split_ifs with hy
  · rw [hy] at h4
    obtain ⟨mid, h5, h6, h7⟩ := tiled_append.mp h4
    have h8 : mid+_ = hi := h7
    rw [← h8, Nat.add_sub_cancel]
    exact h5
  · exact h4

/-- Cutting a free block leaves no two free neighbours. -/
theorem settled_cut {size rest : ℕ} (h : Settled (xs++b::ys) true) (hb : b.free = true) :
    Settled (xs++(cut b size rest++ys)) true := by
  obtain ⟨h1, h2, h3⟩ := settled_append.mp h
  unfold cut
  split_ifs
  · exact settled_append.mpr ⟨settled_used h1, fun hf => absurd hf (by simp), fun _ => h2 hb, h3⟩
  · exact settled_append.mpr ⟨settled_used h1, fun hf => absurd hf (by simp), h3⟩

theorem tiled_cut {size rest : ℕ} (h : Tiled lo (xs++b::ys) hi) :
    Tiled lo (xs++(cut b size rest++ys)) hi := by
  obtain ⟨mid, h1, h2, h3⟩ := tiled_append.mp h
  unfold cut
  split_ifs
  · refine tiled_append.mpr ⟨mid, h1, h2, ?_, ?_⟩
    · dsimp only
      rw [h2]
    · dsimp only
      rw [Nat.add_assoc, Nat.add_sub_cancel' (by omega)]
      exact h3
  · exact tiled_append.mpr ⟨mid, h1, h2, h3⟩

/-- One of the pieces is in use. -/
theorem mem_cut {size rest : ℕ} {d : Block} (hd : d.free = false) :
    d ∈ cut b size rest ↔ d = ⟨b.addr, if size+rest < b.size then size else b.size, false⟩ := by
  unfold cut
  split_ifs
  · have hne : d ≠ ⟨b.addr+size, b.size-size, true⟩ := by
      rintro rfl
      exact absurd hd (by simp)
    simp only [List.mem_cons, List.not_mem_nil, or_false, hne]
  · rw [List.mem_singleton]

/-- No other block in use changes. -/
theorem mem_append_cut {size rest : ℕ} {d : Block} (hb : b.free = true) (hd : d.free = false) :
    d ∈ xs++(cut b size rest++ys) ↔
      d = ⟨b.addr, if size+rest < b.size then size else b.size, false⟩ ∨ d ∈ xs++b::ys := by
  have hne : d ≠ b := by
    rintro rfl
    exact absurd hb (by simp [hd])
  rw [List.mem_append, List.mem_append, mem_cut hd, List.mem_append, List.mem_cons,
    or_iff_right hne, or_left_comm]

end Vlsmc.BlockList
