import Mathlib.Tactic.IntervalCases
import Mathlib.Tactic.Ring

/-!
# Sectors, directory entries and table sectors

A sector is 512 bytes, read either as sixteen packed directory entries of
32 bytes or as 256 little-endian table entries. Positions from 512 on are
never read. Storing an entry and reading it back is the identity, and it
leaves the other fifteen entries of the sector alone.
-/

set_option autoImplicit false

namespace Vlsmc.Fat16Layout

abbrev Sector := ℕ → UInt8

def zeroSector : Sector := fun _ => 0

def byteOf (n j : ℕ) : UInt8 := UInt8.ofNat (n/256^j)

def word16 (s : Sector) (k : ℕ) : UInt16 :=
  UInt16.ofNat ((s k).toNat+256*(s (k+1)).toNat)

def word32 (s : Sector) (k : ℕ) : UInt32 :=
  UInt32.ofNat ((s k).toNat+256*(s (k+1)).toNat+65536*(s (k+2)).toNat+
    16777216*(s (k+3)).toNat)

theorem word16_bytes (s : Sector) (k : ℕ) (w : UInt16)
    (h0 : s k = byteOf w.toNat 0) (h1 : s (k+1) = byteOf w.toNat 1) : word16 s k = w := by
  apply UInt16.toNat_inj.mp
  have hw := w.toNat_lt
  simp only [word16, h0, h1, byteOf, UInt8.toNat_ofNat', UInt16.toNat_ofNat']
  omega

theorem word32_bytes (s : Sector) (k : ℕ) (w : UInt32)
    (h0 : s k = byteOf w.toNat 0) (h1 : s (k+1) = byteOf w.toNat 1)
    (h2 : s (k+2) = byteOf w.toNat 2) (h3 : s (k+3) = byteOf w.toNat 3) :
    word32 s k = w := by
  apply UInt32.toNat_inj.mp
  have hw := w.toNat_lt
  simp only [word32, h0, h1, h2, h3, byteOf, UInt8.toNat_ofNat', UInt32.toNat_ofNat']
  omega

/-- `FAT16_DirEntry`, a packed record of 32 bytes. -/
structure DirEntry where
  name : Fin 8 → UInt8
  ext : Fin 3 → UInt8
  attributes : UInt8
  reserved : Fin 10 → UInt8
  time : UInt16
  date : UInt16
  firstCluster : UInt16
  fileSize : UInt32

def attrDirectory : UInt8 := 0x10
def attrArchive : UInt8 := 0x20
def attrProtectModify : UInt8 := 0x40
def attrProtectDelete : UInt8 := 0x80

/-- `FAT_ATTR_LFN | FAT_ATTR_VOLUME_ID`: entries with one of these bits are skipped. -/
def attrHiddenMask : UInt8 := 0x0F

namespace DirEntry

def isEnd (e : DirEntry) : Prop := e.name 0 = 0x00

def isDeleted (e : DirEntry) : Prop := e.name 0 = 0xE5

def isDirectory (e : DirEntry) : Prop := e.attributes &&& attrDirectory ≠ 0

instance (e : DirEntry) : Decidable e.isEnd := inferInstanceAs (Decidable (_ = _))
instance (e : DirEntry) : Decidable e.isDeleted := inferInstanceAs (Decidable (_ = _))
instance (e : DirEntry) : Decidable e.isDirectory := inferInstanceAs (Decidable (_ ≠ _))

/-- The first cluster as a table index. -/
def cluster (e : DirEntry) : ℕ := e.firstCluster.toNat

/-- `name[0] = 0xE5`. -/
def markDeleted (e : DirEntry) : DirEntry :=
  { e with name := fun k => if k = 0 then 0xE5 else e.name k }

/-- Byte `k` of the packed record. -/
def byte (e : DirEntry) (k : ℕ) : UInt8 :=
  if h : k < 8 then e.name ⟨k,h⟩
  else if h : k-8 < 3 then e.ext ⟨k-8,h⟩
  else if k = 11 then e.attributes
  else if h : k-12 < 10 then e.reserved ⟨k-12,h⟩
  else if k < 24 then byteOf e.time.toNat (k-22)
  else if k < 26 then byteOf e.date.toNat (k-24)
  else if k < 28 then byteOf e.firstCluster.toNat (k-26)
  else byteOf e.fileSize.toNat (k-28)

end DirEntry

/-- Records are equal when their fields are. -/
theorem dirEntry_eq {a b : DirEntry} (h0 : ∀ k, a.name k = b.name k)
    (h1 : ∀ k, a.ext k = b.ext k) (h2 : a.attributes = b.attributes)
    (h3 : ∀ k, a.reserved k = b.reserved k) (h4 : a.time = b.time) (h5 : a.date = b.date)
    (h6 : a.firstCluster = b.firstCluster) (h7 : a.fileSize = b.fileSize) : a = b := by
  cases a
  cases b
  simp_all [funext_iff]

/-- `((FAT16_DirEntry*)buffer)[i]`. -/
def getEntry (s : Sector) (i : ℕ) : DirEntry where
  name := fun k => s (32*i+k)
  ext := fun k => s (32*i+8+k)
  attributes := s (32*i+11)
  reserved := fun k => s (32*i+12+k)
  time := word16 s (32*i+22)
  date := word16 s (32*i+24)
  firstCluster := word16 s (32*i+26)
  fileSize := word32 s (32*i+28)

def setEntry (s : Sector) (i : ℕ) (e : DirEntry) : Sector :=
  fun k => if k/32 = i then e.byte (k%32) else s k

theorem setEntry_same (s : Sector) (i : ℕ) (e : DirEntry) (j : ℕ) (hj : j < 32) :
    setEntry s i e (32*i+j) = e.byte j := by
  have hd : (32*i+j)/32 = i := by omega
  have hm : (32*i+j)%32 = j := by omega
  simp [setEntry, hd, hm]

theorem setEntry_other (s : Sector) (i j : ℕ) (e : DirEntry) (k : ℕ) (hk : k < 32)
    (h : i ≠ j) : setEntry s i e (32*j+k) = s (32*j+k) := by
  have hd : (32*j+k)/32 = j := by omega
  simp [setEntry, hd, h.symm]

/-- Storing a record and reading the same place returns the record. -/
theorem getEntry_setEntry (s : Sector) (i : ℕ) (e : DirEntry) :
    getEntry (setEntry s i e) i = e := by
  have hb : ∀ j < 32, setEntry s i e (32*i+j) = e.byte j := setEntry_same s i e
  apply dirEntry_eq
  · intro k
    have hk := k.isLt
    simp [getEntry, hb k (by omega), DirEntry.byte]
  · intro k
    have hk := k.isLt
    simp only [getEntry]
    rw [add_assoc, hb (8+k) (by omega)]
    simp [DirEntry.byte, hk]
  · simp [getEntry, hb 11 (by decide), DirEntry.byte]
  · intro k
    have hk := k.isLt
    simp only [getEntry]
    rw [add_assoc, hb (12+k) (by omega)]
    simp [DirEntry.byte, hk, show ¬ 12+(k:ℕ) < 8 by omega,
      show ¬ 12+(k:ℕ)-8 < 3 by omega, show ¬ 12+(k:ℕ) = 11 by omega]
  · exact word16_bytes _ _ _ (by rw [hb 22 (by decide)]; rfl)
      (by rw [add_assoc, hb 23 (by decide)]; rfl)
  · exact word16_bytes _ _ _ (by rw [hb 24 (by decide)]; rfl)
      (by rw [add_assoc, hb 25 (by decide)]; rfl)
  · exact word16_bytes _ _ _ (by rw [hb 26 (by decide)]; rfl)
      (by rw [add_assoc, hb 27 (by decide)]; rfl)
  · exact word32_bytes _ _ _ (by rw [hb 28 (by decide)]; rfl)
      (by rw [add_assoc, hb 29 (by decide)]; rfl)
      (by rw [add_assoc, hb 30 (by decide)]; rfl) (by rw [add_assoc, hb 31 (by decide)]; rfl)

theorem getEntry_congr (s t : Sector) (i : ℕ)
    (h : ∀ k < 32, s (32*i+k) = t (32*i+k)) : getEntry s i = getEntry t i := by
  have h16 : ∀ k < 31, word16 s (32*i+k) = word16 t (32*i+k) := by
    intro k hk
    simp only [word16, add_assoc, h k (by omega), h (k+1) (by omega)]
  apply dirEntry_eq
  · exact fun k => h k (by omega)
  · intro k
    simpa [getEntry, add_assoc] using h (8+k) (by omega)
  · exact h 11 (by decide)
  · intro k
    simpa [getEntry, add_assoc] using h (12+k) (by omega)
  · exact h16 22 (by decide)
  · exact h16 24 (by decide)
  · exact h16 26 (by decide)
  · simp only [getEntry, word32, add_assoc, h 28 (by decide), h (28+1) (by decide),
      h (28+2) (by decide), h (28+3) (by decide)]

theorem getEntry_setEntry_ne (s : Sector) (i j : ℕ) (e : DirEntry) (h : i ≠ j) :
    getEntry (setEntry s i e) j = getEntry s j :=
  getEntry_congr _ _ j (fun k hk => setEntry_other s i j e k hk h)

theorem getEntry_zero (i : ℕ) : (getEntry zeroSector i).isEnd := rfl

/-- `((uint16_t*)buffer)[i]` over a table sector. -/
def tableEntry (s : Sector) (i : ℕ) : UInt16 := word16 s (2*i)

/-- The sector that holds the 256 given table entries. -/
def tableSector (f : ℕ → UInt16) : Sector := fun k => byteOf (f (k/2)).toNat (k%2)

theorem tableEntry_tableSector (f : ℕ → UInt16) (i : ℕ) :
    tableEntry (tableSector f) i = f i := by
  apply word16_bytes
  · simp [tableSector]
  · have h : (2*i+1)/2 = i := by omega
    have hm : (2*i+1)%2 = 1 := by omega
    simp [tableSector, h, hm]

/-- A sector taken apart into table entries and put together again. -/
theorem tableSector_tableEntry (s : Sector) (k : ℕ) : tableSector (tableEntry s) k = s k := by
  apply UInt8.toNat_inj.mp
  have h0 := (s (2*(k/2))).toNat_lt
  have h1 := (s (2*(k/2)+1)).toNat_lt
  simp only [tableSector, tableEntry, word16, byteOf, UInt8.toNat_ofNat', UInt16.toNat_ofNat']
  rcases Nat.mod_two_eq_zero_or_one k with hk | hk
  · have he : 2*(k/2) = k := by omega
    rw [he] at h0 h1 ⊢
    rw [hk, pow_zero]
    omega
  · have he : 2*(k/2)+1 = k := by omega
    rw [he] at h1 ⊢
    rw [hk, pow_one]
    omega

theorem tableSector_zero (k : ℕ) : tableSector (fun _ => 0) k = 0 := by
  simp [tableSector, byteOf]

end Vlsmc.Fat16Layout
