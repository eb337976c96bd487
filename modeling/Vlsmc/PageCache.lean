import Vlsmc.Words

/-!
# The page cache

An open-addressing table of 256 entries, probed four times. An entry names a
frame; the cache holds no reference of its own to it.
-/

set_option autoImplicit false

namespace Vlsmc.PageCache
open Vlsmc.Words

structure Entry where
  inode : ℕ
  offset : ℕ
  physFrame : ℕ
  valid : Bool

abbrev Cache := ℕ → Entry

def init : Cache := fun _ => ⟨0, 0, 0, false⟩

def hash (inode offset : ℕ) : ℕ := u32 (u32 (inode*2654435761)+offset/4096)%256

def Entry.isFor (e : Entry) (inode offset : ℕ) : Bool :=
  e.inode == inode && e.offset == offset

/-- Where the entry of a page may stand. -/
def probes (inode offset : ℕ) : List ℕ :=
  (List.range 4).map fun i => (hash inode offset+i)%256

/-- The frame of a page, or zero. -/
def lookup (c : Cache) (inode offset : ℕ) : ℕ :=
  match (probes inode offset).find? fun idx => (c idx).valid && (c idx).isFor inode offset with
  | some idx => (c idx).physFrame
  | none => 0

def setEntry (c : Cache) (idx : ℕ) (e : Entry) : Cache := fun i => if i = idx then e else c i

def insert (c : Cache) (inode offset frame : ℕ) : Cache :=
  match (probes inode offset).find? fun idx => !(c idx).valid || (c idx).isFor inode offset with
  | some idx => setEntry c idx ⟨inode, offset, frame, true⟩
  | none => setEntry c (hash inode offset%256) ⟨inode, offset, frame, true⟩

/-- Some valid entry holds the frame. -/
def Names (c : Cache) (frame : ℕ) : Prop := ∃ i, (c i).valid = true ∧ (c i).physFrame = frame

variable {c : Cache} {inode offset frame f : ℕ}

theorem not_names_init (f : ℕ) : ¬Names init f := by
  rintro ⟨i, h, -⟩
  exact absurd h (by simp [init])

/-- The entry that a lookup finds. -/
theorem lookup_entry (h : lookup c inode offset ≠ 0) : ∃ i, (c i).valid = true ∧
    (c i).inode = inode ∧ (c i).offset = offset ∧ (c i).physFrame = lookup c inode offset := by
  unfold lookup at h ⊢
  cases hfind : (probes inode offset).find? fun idx =>
      (c idx).valid && (c idx).isFor inode offset with
  | none =>
    rw [hfind] at h
    exact absurd rfl h
  | some idx =>
    have := List.find?_some hfind
    simp only [Entry.isFor, Bool.and_eq_true, beq_iff_eq] at this
    exact ⟨idx, this.1, this.2.1, this.2.2, rfl⟩

theorem lookup_names (h : lookup c inode offset ≠ 0) : Names c (lookup c inode offset) := by
  obtain ⟨i, h1, -, -, h2⟩ := lookup_entry h
  exact ⟨i, h1, h2⟩

/-- An insertion changes one entry. -/
theorem insert_entry (c : Cache) (inode offset frame i : ℕ) :
    insert c inode offset frame i = c i ∨
      insert c inode offset frame i = ⟨inode, offset, frame, true⟩ := by
  have hset : ∀ idx, setEntry c idx ⟨inode, offset, frame, true⟩ i = c i ∨
      setEntry c idx ⟨inode, offset, frame, true⟩ i = ⟨inode, offset, frame, true⟩ := by
    intro idx
    unfold setEntry
    split_ifs
    · exact Or.inr rfl
    · exact Or.inl rfl
  unfold insert
  cases (probes inode offset).find? fun idx => !(c idx).valid || (c idx).isFor inode offset with
  | none => exact hset _
  | some idx => exact hset idx

theorem insert_names (h : Names (insert c inode offset frame) f) : f = frame ∨ Names c f := by
  obtain ⟨i, h1, h2⟩ := h
  rcases insert_entry c inode offset frame i with he | he
  · rw [he] at h1 h2
    exact Or.inr ⟨i, h1, h2⟩
  · rw [he] at h2
    exact Or.inl h2.symm

end Vlsmc.PageCache
