import Vlsmc.BitFields
import Vlsmc.CountedLoops
import Vlsmc.PciBus

/-!
# The scan of the bus

The scan enters the functions that are there, in the order of their addresses, as far as the table
goes. Sizing a register writes ones into it and then what it held, so the scan leaves all
functions as it found them; what it computes from the ones is the size of the register's range.
-/

set_option autoImplicit false

namespace Vlsmc.PciScan
open Vlsmc.BitFields Vlsmc.CountedLoops Vlsmc.PciBus

variable {p : Pci} {space : Space} {c : Config} {b s f o k n : ℕ} {v w : BitVec 32}

section Accesses

/-- The address of a function and an offset names them. -/
theorem target_address (hb : b < 256) (hs : s < 32) (hf : f < 8) (ho : o < 256) :
    target (configAddress b s f o) = (b, s, f, o/4) ∧ configAddress b s f o/2147483648 = 1 := by
  have hfunc : f <<< 8 ||| o/4*4 = f*256+o/4*4 := shiftLeft_or (by omega)
  have hslot : s <<< 11 ||| (f*256+o/4*4) = s*2048+(f*256+o/4*4) := shiftLeft_or (by omega)
  have hbus : b <<< 16 ||| (s*2048+(f*256+o/4*4)) = b*65536+(s*2048+(f*256+o/4*4)) :=
    shiftLeft_or (by omega)
  have henable : 1 <<< 31 ||| (b*65536+(s*2048+(f*256+o/4*4))) =
      1*2^31+(b*65536+(s*2048+(f*256+o/4*4))) := shiftLeft_or (by omega)
  have haddress : configAddress b s f o = 2147483648+(b*65536+(s*2048+(f*256+o/4*4))) := by
    unfold configAddress
    rw [Nat.mod_eq_of_lt hb, Nat.mod_eq_of_lt hs, Nat.mod_eq_of_lt hf, Nat.mod_eq_of_lt ho,
      Nat.or_assoc, Nat.or_assoc, Nat.or_assoc, ← Nat.or_assoc (f <<< 8), hfunc, ← Nat.or_assoc (s <<< 11),
      hslot, ← Nat.or_assoc (b <<< 16), hbus, Nat.or_comm]
    exact henable
  unfold target
  rw [haddress]
  refine ⟨?_, by omega⟩
  refine Prod.mk.injEq .. |>.mpr ⟨by omega, Prod.mk.injEq .. |>.mpr ⟨by omega, Prod.mk.injEq .. |>.mpr ⟨?_, ?_⟩⟩⟩
  · omega
  · omega

/-- What a register reads. -/
def look (space : Space) (b s f r : ℕ) : BitVec 32 :=
  ((space b s f).map fun c => c.reg r).getD (BitVec.allOnes 32)

theorem readDword_spec (p : Pci) (hb : b < 256) (hs : s < 32) (hf : f < 8) (ho : o < 256) :
    (configReadDword p b s f o).1 = look p.space b s f (o/4) ∧
      (configReadDword p b s f o).2.space = p.space := by
  obtain ⟨htarget, henable⟩ := target_address hb hs hf ho
  refine ⟨?_, rfl⟩
  change inData { p with address := configAddress b s f o } = _
  unfold inData
  simp only [htarget, henable, if_true]
  rfl

theorem writeDword_spec (p : Pci) (v : BitVec 32) (hb : b < 256) (hs : s < 32) (hf : f < 8) (ho : o < 256) :
    (configWriteDword p b s f o v).space = fun b' s' f' => if b' = b ∧ s' = s ∧ f' = f then
      (p.space b s f).map fun c => c.write (o/4) v else p.space b' s' f' := by
  obtain ⟨htarget, henable⟩ := target_address hb hs hf ho
  unfold configWriteDword outData
  simp only [htarget, henable, if_true]

end Accesses

section Sizes

/-- Writing ones and then what was there gives what was there. -/
theorem write_back (v w : BitVec 32) :
    v &&& w ||| (BitVec.allOnes 32 &&& w ||| v &&& ~~~w) &&& ~~~w = v := by
  ext i hi
  simp only [BitVec.getElem_or, BitVec.getElem_and, BitVec.getElem_not, BitVec.getElem_allOnes]
  cases v[i] <;> cases w[i] <;> rfl

theorem write_restores (c : Config) (r : ℕ) : (c.write r (BitVec.allOnes 32)).write r (c.reg r) = c := by
  obtain ⟨reg, writable⟩ := c
  unfold Config.write
  simp only [Config.mk.injEq, and_true, if_true]
  funext k
  by_cases hk : k = r
  · rw [if_pos hk, write_back, hk]
  · rw [if_neg hk, if_neg hk]

/-- The size that the driver finds for a register, from what it holds and which bits can be written. -/
def sizeOf (v w : BitVec 32) : BitVec 32 :=
  let m := BitVec.allOnes 32 &&& w ||| v &&& ~~~w
  if m = 0 ∨ m = BitVec.allOnes 32 then 0
  else if v &&& 0x01 = 0x01 then ~~~(m &&& 0xFFFFFFFC)+1
  else ~~~(m &&& 0xFFFFFFF0)+1

theorem getBarSize_spec (p : Pci) (hc : p.space b s f = some c) (hb : b < 256) (hs : s < 32) (hf : f < 8)
    (hk : k < 6) : (getBarSize p b s f k).1 = sizeOf (c.reg (4+k)) (c.writable (4+k)) ∧
      (getBarSize p b s f k).2.space = p.space := by
  have ho : 0x10+k*4 < 256 := by omega
  have hr : (0x10+k*4)/4 = 4+k := by omega
  obtain ⟨orig, horig⟩ : ∃ x, x = configReadDword p b s f (0x10+k*4) := ⟨_, rfl⟩
  obtain ⟨q, hq⟩ : ∃ q, q = configWriteDword orig.2 b s f (0x10+k*4) (BitVec.allOnes 32) := ⟨_, rfl⟩
  obtain ⟨size, hsize⟩ : ∃ x, x = configReadDword q b s f (0x10+k*4) := ⟨_, rfl⟩
  obtain ⟨q', hq'⟩ : ∃ q', q' = configWriteDword size.2 b s f (0x10+k*4) orig.1 := ⟨_, rfl⟩
  obtain ⟨hvalue, hspace⟩ := readDword_spec p hb hs hf ho
  rw [← horig, hr] at hvalue
  rw [← horig] at hspace
  have horiginal : orig.1 = c.reg (4+k) := by
    rw [hvalue, look, hc]
    rfl
  have hones := writeDword_spec orig.2 (BitVec.allOnes 32) hb hs hf ho
  rw [← hq, hspace, hr] at hones
  have hchanged : q.space b s f = some (c.write (4+k) (BitVec.allOnes 32)) := by
    rw [hones]
    simp only [and_self, if_true, hc, Option.map_some]
  obtain ⟨hmask, hsame⟩ := readDword_spec q hb hs hf ho
  rw [← hsize, hr, look, hchanged] at hmask
  rw [← hsize] at hsame
  have hback := writeDword_spec size.2 orig.1 hb hs hf ho
  rw [← hq', hsame, hr] at hback
  have hrestored : q'.space = p.space := by
    funext b' s' f'
    rw [hback, hchanged, hones, horiginal]
    dsimp only
    by_cases hat : b' = b ∧ s' = s ∧ f' = f
    · obtain ⟨rfl, rfl, rfl⟩ := hat
      rw [if_pos ⟨rfl, rfl, rfl⟩, Option.map_some, write_restores, hc]
    · rw [if_neg hat, if_neg hat]
  have hmask : size.1 = BitVec.allOnes 32 &&& c.writable (4+k) ||| c.reg (4+k) &&& ~~~c.writable (4+k) := by
    rw [hmask]
    exact if_pos rfl
  have hall : getBarSize p b s f k = (sizeOf (c.reg (4+k)) (c.writable (4+k)), q') := by
    unfold getBarSize
    simp only [← horig, ← hq, ← hsize, ← hq']
    unfold sizeOf
    rw [← hmask, ← horiginal]
    dsimp only
    split_ifs <;> rfl
  rw [hall]
  exact ⟨rfl, hrestored⟩

end Sizes

section Table

/-- What a register of a range becomes in the table. -/
def barOf (old : Bar) (v w : BitVec 32) : Bar :=
  if v = 0 then { old with size := 0 }
  else if v &&& 0x01 ≠ 0 then ⟨true, v &&& 0xFFFFFFFC, false, false, sizeOf v w⟩
  else ⟨false, v &&& 0xFFFFFFF0, decide (v >>> 1 &&& 0x03 = 0x02), decide (v &&& 0x08 ≠ 0), sizeOf v w⟩

def setBar (dev : Device) (k : ℕ) (b : Bar) : Device :=
  { dev with bar := fun i => if i = k then b else dev.bar i }

theorem parseBar_spec (dev : Device) (p : Pci) (hc : p.space dev.bus dev.slot dev.func = some c)
    (hb : dev.bus < 256) (hs : dev.slot < 32) (hf : dev.func < 8) (hk : k < 6) :
    (parseBar (dev, p) k).1 = setBar dev k (barOf (dev.bar k) (c.reg (4+k)) (c.writable (4+k))) ∧
      (parseBar (dev, p) k).2.space = p.space := by
  obtain ⟨hvalue, hspace⟩ := readDword_spec (o := 0x10+k*4) p hb hs hf (by omega)
  have hr : (0x10+k*4)/4 = 4+k := by omega
  rw [hr, look, hc] at hvalue
  obtain ⟨val, hval⟩ : ∃ x, x = configReadDword p dev.bus dev.slot dev.func (0x10+k*4) := ⟨_, rfl⟩
  rw [← hval] at hvalue hspace
  have hheld : val.1 = c.reg (4+k) := hvalue
  obtain ⟨hsize, hsame⟩ := getBarSize_spec val.2 (by rw [hspace]; exact hc) hb hs hf hk
  unfold parseBar barOf
  simp only [← hval, hheld]
  by_cases hzero : c.reg (4+k) = 0
  · simp only [if_pos hzero]
    exact ⟨rfl, hspace⟩
  by_cases hio : c.reg (4+k) &&& 0x01 ≠ 0
  · simp only [if_neg hzero, if_pos hio, hsize]
    exact ⟨rfl, hsame.trans hspace⟩
  · simp only [if_neg hzero, if_neg hio, hsize]
    exact ⟨rfl, hsame.trans hspace⟩

/-- The first `k` ranges of a function in the table. -/
def barsOf (k : ℕ) (old : ℕ → Bar) (c : Config) : ℕ → Bar := fun i =>
  if i < k then barOf (old i) (c.reg (4+i)) (c.writable (4+i)) else old i

theorem parseBars_spec (dev : Device) (p : Pci) (hc : p.space dev.bus dev.slot dev.func = some c)
    (hb : dev.bus < 256) (hs : dev.slot < 32) (hf : dev.func < 8) :
    (parseBars dev p).1 = { dev with bar := barsOf 6 dev.bar c } ∧ (parseBars dev p).2.space = p.space := by
  let P : ℕ → Device×Pci → Prop := fun k x => x.1 = { dev with bar := barsOf k dev.bar c } ∧
    x.2.space = p.space
  have hstart : P 0 (dev, p) := by
    refine ⟨?_, rfl⟩
    have hnone : barsOf 0 dev.bar c = dev.bar := by
      funext i
      exact if_neg (Nat.not_lt_zero i)
    dsimp only
    rw [hnone]
  have hround : ∀ k < 6, ∀ x, P k x → P (k+1) (parseBar x k) := by
    intro k hk x hx
    obtain ⟨hdev, hspace⟩ := hx
    obtain ⟨dev', p'⟩ := x
    dsimp only at hdev hspace
    subst hdev
    obtain ⟨hbars, hsame⟩ := parseBar_spec { dev with bar := barsOf k dev.bar c } p' (by rw [hspace]; exact hc) hb hs hf hk
    refine ⟨?_, hsame.trans hspace⟩
    have hnext : ∀ i, (if i = k then barOf (barsOf k dev.bar c k) (c.reg (4+k)) (c.writable (4+k))
        else barsOf k dev.bar c i) = barsOf (k+1) dev.bar c i := by
      intro i
      unfold barsOf
      by_cases hi : i = k
      · subst hi
        rw [if_pos rfl, if_pos (Nat.lt_succ_self i), if_neg (Nat.lt_irrefl i)]
      · rw [if_neg hi]
        have hiff : i < k ↔ i < k+1 := by omega
        simp only [hiff]
    rw [hbars]
    unfold setBar
    simp only [hnext]
  exact foldl_range hstart 6 hround

def wordOf (v : BitVec 32) (o : ℕ) : ℕ := v.toNat >>> (o/2%2*16)%65536

def byteOf (v : BitVec 32) (o : ℕ) : ℕ := v.toNat >>> (o%4*8)%256

theorem readWord_spec (p : Pci) (hb : b < 256) (hs : s < 32) (hf : f < 8) (ho : o < 256) :
    (configReadWord p b s f o).1 = wordOf (look p.space b s f (o/4)) o ∧
      (configReadWord p b s f o).2.space = p.space := by
  obtain ⟨hvalue, hspace⟩ := readDword_spec p hb hs hf ho
  unfold configReadWord wordOf
  rw [← hvalue]
  exact ⟨rfl, hspace⟩

theorem readByte_spec (p : Pci) (hb : b < 256) (hs : s < 32) (hf : f < 8) (ho : o < 256) :
    (configReadByte p b s f o).1 = byteOf (look p.space b s f (o/4)) o ∧
      (configReadByte p b s f o).2.space = p.space := by
  obtain ⟨hvalue, hspace⟩ := readDword_spec p hb hs hf ho
  unfold configReadByte byteOf
  rw [← hvalue]
  exact ⟨rfl, hspace⟩

/-- What the table holds about a function; `old` is what its place held before. -/
def deviceOf (old : ℕ → Bar) (c : Config) (b s f : ℕ) : Device where
  bus := b
  slot := s
  func := f
  vendorId := wordOf (c.reg 0) 0
  deviceId := wordOf (c.reg 0) 2
  classId := byteOf (c.reg 2) 0x0B
  subclass := byteOf (c.reg 2) 0x0A
  progIf := byteOf (c.reg 2) 0x09
  irq := byteOf (c.reg 15) 0x3C
  bar := barsOf 6 old c

abbrev Table := ℕ×(ℕ → Device)

def enter (space : Space) (t : Table) (x : ℕ×ℕ×ℕ) : Table :=
  match space x.1 x.2.1 x.2.2 with
  | none => t
  | some c =>
    if t.1 < 32 then (t.1+1, fun k => if k = t.1 then deviceOf (t.2 t.1).bar c x.1 x.2.1 x.2.2 else t.2 k)
    else t

def tableOf (x : Scan) : Table := (x.count, x.devices)

/-- A function that is there is entered. -/
theorem record_spec (x : Scan) (hc : x.pci.space b s f = some c) (hb : b < 256) (hs : s < 32) (hf : f < 8) :
    (record x b s f (wordOf (c.reg 0) 0)).pci.space = x.pci.space ∧
      tableOf (record x b s f (wordOf (c.reg 0) 0)) = enter x.pci.space (tableOf x) (b, s, f) := by
  have hlook : ∀ r, look x.pci.space b s f r = c.reg r := by
    intro r
    rw [look, hc]
    rfl
  obtain ⟨p₁, hp₁⟩ : ∃ q, q = configReadWord x.pci b s f 0x02 := ⟨_, rfl⟩
  obtain ⟨p₂, hp₂⟩ : ∃ q, q = configReadByte p₁.2 b s f 0x0B := ⟨_, rfl⟩
  obtain ⟨p₃, hp₃⟩ : ∃ q, q = configReadByte p₂.2 b s f 0x0A := ⟨_, rfl⟩
  obtain ⟨p₄, hp₄⟩ : ∃ q, q = configReadByte p₃.2 b s f 0x09 := ⟨_, rfl⟩
  obtain ⟨p₅, hp₅⟩ : ∃ q, q = configReadByte p₄.2 b s f 0x3C := ⟨_, rfl⟩
  obtain ⟨h₁, k₁⟩ := readWord_spec (o := 0x02) x.pci hb hs hf (by decide)
  obtain ⟨h₂, k₂⟩ := readByte_spec (o := 0x0B) p₁.2 hb hs hf (by decide)
  obtain ⟨h₃, k₃⟩ := readByte_spec (o := 0x0A) p₂.2 hb hs hf (by decide)
  obtain ⟨h₄, k₄⟩ := readByte_spec (o := 0x09) p₃.2 hb hs hf (by decide)
  obtain ⟨h₅, k₅⟩ := readByte_spec (o := 0x3C) p₄.2 hb hs hf (by decide)
  rw [← hp₁] at h₁ k₁
  rw [← hp₂, k₁] at h₂ k₂
  rw [← hp₃, k₂] at h₃ k₃
  rw [← hp₄, k₃] at h₄ k₄
  rw [← hp₅, k₄] at h₅ k₅
  rw [hlook] at h₁ h₂ h₃ h₄ h₅
  unfold record enter tableOf
  simp only [← hp₁, ← hp₂, ← hp₃, ← hp₄, ← hp₅, hc]
  by_cases hroom : x.count < 32
  · obtain ⟨hbars, hsame⟩ := parseBars_spec ⟨b, s, f, wordOf (c.reg 0) 0, p₁.1, p₂.1, p₃.1, p₄.1, p₅.1,
      (x.devices x.count).bar⟩ p₅.2 (by rw [k₅]; exact hc) hb hs hf
    simp only [h₁, h₂, h₃, h₄, h₅] at hbars hsame
    simp only [if_pos hroom, h₁, h₂, h₃, h₄, h₅, hbars]
    exact ⟨hsame.trans k₅, rfl⟩
  · simp only [if_neg hroom]
    exact ⟨k₅, trivial⟩

end Table

section Functions

/-- Functions answer with a vendor; where none is the vendor reads as all ones. -/
def present (space : Space) (b s f : ℕ) : Bool :=
  match space b s f with
  | none => false
  | some c => decide (wordOf (c.reg 0) 0 ≠ 0xFFFF)

/-- The first function of a slot says that there may be others. -/
def multi (space : Space) (b s : ℕ) : Bool :=
  match space b s 0 with
  | none => false
  | some c => decide (byteOf (c.reg 3) 0x0E &&& 0x80 ≠ 0)

/-- The functions of a slot that answer; the others count only beside a first one with the bit. -/
def slotFunctions (space : Space) (b s : ℕ) : List ℕ :=
  (List.range 8).filter fun f =>
    present space b s f && (decide (f = 0) || present space b s 0 && multi space b s)

/-- All functions in the order of their addresses. -/
def found (space : Space) : List (ℕ×ℕ×ℕ) :=
  (List.range 256).flatMap fun b => (List.range 32).flatMap fun s =>
    (slotFunctions space b s).map fun f => (b, s, f)

theorem vendor_spec (p : Pci) (hb : b < 256) (hs : s < 32) (hf : f < 8) :
    (configReadWord p b s f 0x00).2.space = p.space ∧
      (present p.space b s f = false → (configReadWord p b s f 0x00).1 = 0xFFFF) ∧
      (present p.space b s f = true → (configReadWord p b s f 0x00).1 ≠ 0xFFFF ∧
        ∃ c, p.space b s f = some c ∧ (configReadWord p b s f 0x00).1 = wordOf (c.reg 0) 0) := by
  obtain ⟨hvalue, hspace⟩ := readWord_spec (o := 0x00) p hb hs hf (by decide)
  unfold present
  cases hc : p.space b s f with
  | none =>
    rw [look, hc] at hvalue
    refine ⟨hspace, fun _ => ?_, nofun⟩
    rw [hvalue]
    decide
  | some c =>
    rw [look, hc] at hvalue
    refine ⟨hspace, ?_, ?_⟩
    · intro hno
      rw [hvalue]
      exact not_not.mp (of_decide_eq_false hno)
    · intro hyes
      refine ⟨?_, c, rfl, hvalue⟩
      rw [hvalue]
      exact of_decide_eq_true hyes

/-- The functions after the first one. -/
theorem later_functions (x : Scan) (hb : b < 256) (hs : s < 32) (hf : 0 < f) (hn : f+n ≤ 8) :
    (scanFunctions b s n f x).pci.space = x.pci.space ∧
      tableOf (scanFunctions b s n f x) = ((List.range' f n).filter fun f => present x.pci.space b s f).foldl
        (fun t f => enter x.pci.space t (b, s, f)) (tableOf x) := by
  induction n generalizing f x with
  | zero => exact ⟨rfl, rfl⟩
  | succ n ih =>
    obtain ⟨hspace, hno, hyes⟩ := vendor_spec x.pci hb hs (show f < 8 by omega)
    obtain ⟨vendor, hvendor⟩ : ∃ v, v = configReadWord x.pci b s f 0x00 := ⟨_, rfl⟩
    rw [← hvendor] at hspace hno hyes
    obtain ⟨y, hy⟩ : ∃ y : Scan, y = { x with pci := vendor.2 } := ⟨_, rfl⟩
    have hyspace : y.pci.space = x.pci.space := by
      rw [hy]
      exact hspace
    have hytable : tableOf y = tableOf x := by
      rw [hy]
      rfl
    rw [List.range'_succ]
    cases hp : present x.pci.space b s f with
    | false =>
      have hnext : scanFunctions b s (n+1) f x = scanFunctions b s n (f+1) y := by
        rw [scanFunctions]
        simp only [← hvendor, ← hy, hno hp, if_true, if_neg (Nat.ne_of_gt hf)]
      obtain ⟨hsame, htable⟩ := ih y (Nat.succ_pos f) (by omega)
      rw [hnext, hsame, htable, hyspace, hytable, List.filter_cons_of_neg (by simp [hp])]
      exact ⟨rfl, rfl⟩
    | true =>
      obtain ⟨hne, c, hc, hid⟩ := hyes hp
      rw [hid] at hne
      have hnext : scanFunctions b s (n+1) f x =
          scanFunctions b s n (f+1) (record y b s f (wordOf (c.reg 0) 0)) := by
        rw [scanFunctions]
        simp only [← hvendor, ← hy, if_neg hne, if_neg (Nat.ne_of_gt hf), hid]
      obtain ⟨hkept, hentered⟩ := record_spec y (by rw [hyspace]; exact hc) hb hs (by omega)
      obtain ⟨hsame, htable⟩ := ih (record y b s f (wordOf (c.reg 0) 0)) (Nat.succ_pos f) (by omega)
      rw [hnext, hsame, htable, hkept, hentered, hyspace, hytable,
        List.filter_cons_of_pos (by simp [hp]), List.foldl_cons]
      exact ⟨rfl, rfl⟩

/-- A slot: nothing without a first function, only that one without the bit. -/
theorem slot_functions (x : Scan) (hb : b < 256) (hs : s < 32) :
    (scanFunctions b s 8 0 x).pci.space = x.pci.space ∧
      tableOf (scanFunctions b s 8 0 x) = (slotFunctions x.pci.space b s).foldl
        (fun t f => enter x.pci.space t (b, s, f)) (tableOf x) := by
  obtain ⟨hspace, hno, hyes⟩ := vendor_spec x.pci hb hs (show 0 < 8 by decide)
  obtain ⟨vendor, hvendor⟩ : ∃ v, v = configReadWord x.pci b s 0 0x00 := ⟨_, rfl⟩
  rw [← hvendor] at hspace hno hyes
  obtain ⟨y, hy⟩ : ∃ y : Scan, y = { x with pci := vendor.2 } := ⟨_, rfl⟩
  have hyspace : y.pci.space = x.pci.space := by
    rw [hy]
    exact hspace
  have hytable : tableOf y = tableOf x := by
    rw [hy]
    rfl
  have hrange : List.range 8 = 0::List.range' 1 7 := rfl
  unfold slotFunctions
  rw [hrange]
  cases hp : present x.pci.space b s 0 with
  | false =>
    have hnext : scanFunctions b s 8 0 x = y := by
      rw [scanFunctions]
      simp only [← hvendor, ← hy, hno hp, if_true]
    have hnone : ((0::List.range' 1 7).filter fun f => present x.pci.space b s f &&
        (decide (f = 0) || false && multi x.pci.space b s)) = [] := by
      apply List.filter_eq_nil_iff.mpr
      intro f _
      by_cases hf : f = 0
      · rw [hf, hp]
        simp
      · simp [hf]
    rw [hnext, hnone]
    exact ⟨hyspace, hytable⟩
  | true =>
    obtain ⟨hne, c, hc, hid⟩ := hyes hp
    rw [hid] at hne
    obtain ⟨hkept, hentered⟩ := record_spec y (by rw [hyspace]; exact hc) hb hs (show 0 < 8 by decide)
    obtain ⟨z, hz⟩ : ∃ z, z = record y b s 0 (wordOf (c.reg 0) 0) := ⟨_, rfl⟩
    rw [← hz, hyspace] at hkept hentered
    obtain ⟨hbyte, hsame⟩ := readByte_spec (o := 0x0E) z.pci hb hs (show 0 < 8 by decide) (by decide)
    obtain ⟨header, hheader⟩ : ∃ v, v = configReadByte z.pci b s 0 0x0E := ⟨_, rfl⟩
    rw [← hheader, hkept] at hbyte hsame
    have hbit : (header.1 &&& 0x80 = 0) ↔ multi x.pci.space b s = false := by
      rw [hbyte, look, multi, hc]
      simp
    obtain ⟨u, hu⟩ : ∃ u : Scan, u = { z with pci := header.2 } := ⟨_, rfl⟩
    have huspace : u.pci.space = x.pci.space := by
      rw [hu]
      exact hsame
    have hutable : tableOf u = enter x.pci.space (tableOf x) (b, s, 0) := by
      rw [← hytable, ← hentered, hu]
      rfl
    cases hm : multi x.pci.space b s with
    | false =>
      have hnext : scanFunctions b s 8 0 x = u := by
        rw [scanFunctions]
        simp only [← hvendor, ← hy, hid, if_neg hne, ← hz, if_true, ← hheader, ← hu]
        exact if_pos (hbit.mpr hm)
      have hone : ((0::List.range' 1 7).filter fun f => present x.pci.space b s f &&
          (decide (f = 0) || true && false)) = [0] := by
        rw [List.filter_cons_of_pos (by simp [hp])]
        congr 1
        apply List.filter_eq_nil_iff.mpr
        intro f hf
        have hpos := (List.mem_range'_1.mp hf).1
        simp [Nat.ne_of_gt hpos]
      rw [hnext, hone]
      exact ⟨huspace, hutable⟩
    | true =>
      have hnext : scanFunctions b s 8 0 x = scanFunctions b s 7 1 u := by
        rw [scanFunctions]
        simp only [← hvendor, ← hy, hid, if_neg hne, ← hz, if_true, ← hheader, ← hu]
        exact if_neg fun h => by simp [hbit.mp h] at hm
      obtain ⟨hrest, htable⟩ := later_functions u hb hs (f := 1) (n := 7) (by decide) (by decide)
      rw [hnext, hrest, htable, huspace, hutable, List.filter_cons_of_pos (by simp [hp]), List.foldl_cons]
      simp

/-- Loops that keep the space and enter lists enter the lists one after the other. -/
theorem enter_loop {loop : Scan → ℕ → Scan} {list : ℕ → List (ℕ×ℕ×ℕ)} (space : Space) (ls : List ℕ)
    (h : ∀ l ∈ ls, ∀ x : Scan, x.pci.space = space → (loop x l).pci.space = space ∧
      tableOf (loop x l) = (list l).foldl (enter space) (tableOf x))
    (x : Scan) (hx : x.pci.space = space) : (ls.foldl loop x).pci.space = space ∧
      tableOf (ls.foldl loop x) = (ls.flatMap list).foldl (enter space) (tableOf x) := by
  induction ls generalizing x with
  | nil => exact ⟨hx, rfl⟩
  | cons l ls ih =>
    obtain ⟨hspace, htable⟩ := h l List.mem_cons_self x hx
    obtain ⟨hrest, hall⟩ := ih (fun k hk => h k (List.mem_cons_of_mem l hk)) (loop x l) hspace
    rw [List.foldl_cons, List.flatMap_cons, List.foldl_append, ← htable]
    exact ⟨hrest, hall⟩

theorem scan_enters (devices : ℕ → Device) (p : Pci) : (scanBus devices p).pci.space = p.space ∧
    tableOf (scanBus devices p) = (found p.space).foldl (enter p.space) (0, devices) := by
  apply enter_loop p.space (List.range 256)
  · intro b hb x hx
    apply enter_loop p.space (List.range 32)
    · intro s hs y hy
      obtain ⟨hspace, htable⟩ := slot_functions y (List.mem_range.mp hb) (List.mem_range.mp hs)
      rw [hspace, htable, hy, List.foldl_map]
      exact ⟨rfl, rfl⟩
    · exact hx
  · rfl

theorem found_present (space : Space) {x : ℕ×ℕ×ℕ} (hx : x ∈ found space) :
    ∃ c, space x.1 x.2.1 x.2.2 = some c := by
  obtain ⟨b, -, hx⟩ := List.mem_flatMap.mp hx
  obtain ⟨s, -, hx⟩ := List.mem_flatMap.mp hx
  obtain ⟨f, hf, rfl⟩ := List.mem_map.mp hx
  have hp := (List.mem_filter.mp hf).2
  cases hc : space b s f with
  | none => simp [present, hc] at hp
  | some c => exact ⟨c, rfl⟩

/-- Entering a list fills the table from where it is, as far as it goes. -/
theorem enter_fold (space : Space) (ls : List (ℕ×ℕ×ℕ)) (h : ∀ x ∈ ls, ∃ c, space x.1 x.2.1 x.2.2 = some c)
    (t : Table) (ht : t.1 ≤ 32) :
    (ls.foldl (enter space) t).1 = min 32 (t.1+ls.length) ∧
      ∀ k, (ls.foldl (enter space) t).2 k = if t.1 ≤ k ∧ k < 32 then
        ((ls[k-t.1]?).bind fun x => (space x.1 x.2.1 x.2.2).map fun c =>
          deviceOf (t.2 k).bar c x.1 x.2.1 x.2.2).getD (t.2 k) else t.2 k := by
  induction ls generalizing t with
  | nil =>
    refine ⟨by simp [Nat.min_eq_right ht], ?_⟩
    intro k
    simp
  | cons x ls ih =>
    obtain ⟨c, hc⟩ := h x List.mem_cons_self
    have hrest := fun y hy => h y (List.mem_cons_of_mem x hy)
    rw [List.foldl_cons]
    by_cases hroom : t.1 < 32
    · have hentered : enter space t x =
          (t.1+1, fun k => if k = t.1 then deviceOf (t.2 t.1).bar c x.1 x.2.1 x.2.2 else t.2 k) := by
        unfold enter
        rw [hc]
        exact if_pos hroom
      obtain ⟨hcount, hdevices⟩ := ih hrest (enter space t x) (by rw [hentered]; exact hroom)
      rw [hentered] at hcount hdevices ⊢
      refine ⟨by rw [hcount, List.length_cons]; omega, ?_⟩
      intro k
      rw [hdevices]
      dsimp only
      by_cases hk : k = t.1
      · rw [if_neg (by omega), if_pos hk, if_pos (by omega), hk, Nat.sub_self, List.getElem?_cons_zero,
          Option.bind_some, hc, Option.map_some, Option.getD_some]
      · rw [if_neg hk]
        by_cases hin : t.1 ≤ k ∧ k < 32
        · have hsub : k-t.1 = k-(t.1+1)+1 := by omega
          rw [if_pos (by omega), if_pos hin, hsub, List.getElem?_cons_succ]
        · rw [if_neg (by omega), if_neg hin]
    · have hfull : enter space t x = t := by
        unfold enter
        rw [hc]
        exact if_neg hroom
      obtain ⟨hcount, hdevices⟩ := ih hrest t ht
      rw [hfull]
      refine ⟨by rw [hcount, List.length_cons]; omega, ?_⟩
      intro k
      rw [hdevices, if_neg (by omega), if_neg (by omega)]

theorem scan_lists (devices : ℕ → Device) (p : Pci) : (scanBus devices p).pci.space = p.space ∧
    (scanBus devices p).count = min 32 (found p.space).length ∧
    ∀ k x c, k < 32 → (found p.space)[k]? = some x → p.space x.1 x.2.1 x.2.2 = some c →
      (scanBus devices p).devices k = deviceOf (devices k).bar c x.1 x.2.1 x.2.2 := by
  obtain ⟨hspace, htable⟩ := scan_enters devices p
  obtain ⟨hcount, hdevices⟩ := enter_fold p.space (found p.space) (fun x hx => found_present p.space hx)
    (0, devices) (Nat.zero_le _)
  obtain ⟨r, hr⟩ : ∃ r, r = scanBus devices p := ⟨_, rfl⟩
  rw [← hr] at hspace htable ⊢
  rw [← htable, Nat.zero_add] at hcount
  rw [← htable] at hdevices
  refine ⟨hspace, hcount, ?_⟩
  intro k x c hk hx hc
  have hdevice := hdevices k
  rw [if_pos ⟨Nat.zero_le k, hk⟩] at hdevice
  rw [Nat.sub_zero, hx, Option.bind_some, hc, Option.map_some, Option.getD_some] at hdevice
  exact hdevice

end Functions

section Ranges

/-- A register for a range of `2^k` bytes of memory, which is somewhere. -/
structure Memory (v w : BitVec 32) (k : ℕ) : Prop where
  size : 4 ≤ k ∧ k < 32
  writable : w = BitVec.allOnes 32 <<< k
  placed : v ≠ 0
  kind : v.getLsbD 0 = false
  aligned : ∀ i, 4 ≤ i → i < k → v.getLsbD i = false

/-- A register for a range of `2^k` ports. -/
structure Ports (v w : BitVec 32) (k : ℕ) : Prop where
  size : 2 ≤ k ∧ k < 32
  writable : w = BitVec.allOnes 32 <<< k
  kind : v.getLsbD 0 = true
  aligned : ∀ i, 1 ≤ i → i < k → v.getLsbD i = false

theorem getLsbD_ones {i k : ℕ} (hi : i < 32) : (BitVec.allOnes 32 <<< k).getLsbD i = decide (k ≤ i) := by
  rw [BitVec.getLsbD_shiftLeft, BitVec.getLsbD_allOnes]
  by_cases hk : i < k
  · simp [hk]
  · have hle : k ≤ i := by omega
    have hlt : i-k < 32 := by omega
    simp [hi, hk, hle, hlt]

theorem size_ones : ∀ k < 32, ~~~(BitVec.allOnes 32 <<< k)+1#32 = 1#32 <<< k := by decide

/-- The bits of the mask that a register with `k` fixed bits gives, with the lowest `j` cleared. -/
theorem mask_ones {j k : ℕ} (hjk : j ≤ k) (h : ∀ i, j ≤ i → i < k → v.getLsbD i = false) :
    (BitVec.allOnes 32 &&& BitVec.allOnes 32 <<< k ||| v &&& ~~~(BitVec.allOnes 32 <<< k)) &&&
      BitVec.allOnes 32 <<< j = BitVec.allOnes 32 <<< k := by
  apply BitVec.eq_of_getLsbD_eq
  intro i hi
  rw [BitVec.getLsbD_and, BitVec.getLsbD_or, BitVec.getLsbD_and, BitVec.getLsbD_and, BitVec.getLsbD_not,
    getLsbD_ones hi, getLsbD_ones hi, BitVec.getLsbD_allOnes]
  by_cases hk : k ≤ i
  · have hj : j ≤ i := hjk.trans hk
    simp [hi, hk, hj]
  by_cases hj : j ≤ i
  · have hzero := h i hj (by omega)
    rw [hzero]
    simp [hk]
  · simp [hk, hj]

theorem address_ones {j k : ℕ} (hjk : j ≤ k) (h : ∀ i, j ≤ i → i < k → v.getLsbD i = false) :
    v &&& BitVec.allOnes 32 <<< j = v &&& BitVec.allOnes 32 <<< k := by
  apply BitVec.eq_of_getLsbD_eq
  intro i hi
  rw [BitVec.getLsbD_and, BitVec.getLsbD_and, getLsbD_ones hi, getLsbD_ones hi]
  by_cases hk : k ≤ i
  · have hj : j ≤ i := hjk.trans hk
    simp [hk, hj]
  by_cases hj : j ≤ i
  · rw [h i hj (by omega)]
    rfl
  · simp [hk, hj]

theorem low_bit (v : BitVec 32) : v &&& 0x01 = if v.getLsbD 0 then 0x01 else 0 := by
  have h := BitVec.and_one_eq_setWidth_ofBool_getLsbD (x := v)
  change v &&& 1#32 = _
  rw [h]
  cases v.getLsbD 0 <;> rfl

/-- With some bits fixed and some not the mask is neither all zeros nor all ones. -/
theorem sizeOf_eq {v w m : BitVec 32} {j k : ℕ} (hm : m = BitVec.allOnes 32 &&& w ||| v &&& ~~~w)
    (hw : w = BitVec.allOnes 32 <<< k) (hk : k < 32) (hjk : j < k) (hj : v.getLsbD j = false)
    (hlow : v &&& 0x01 = 0x01 → m &&& 0xFFFFFFFC = w) (hhigh : v &&& 0x01 ≠ 0x01 → m &&& 0xFFFFFFF0 = w) :
    sizeOf v w = 1#32 <<< k := by
  have htop : m.getLsbD 31 = true := by
    rw [hm, hw, BitVec.getLsbD_or, BitVec.getLsbD_and, getLsbD_ones (by decide), BitVec.getLsbD_allOnes]
    simp
    omega
  have hbottom : m.getLsbD j = false := by
    rw [hm, hw, BitVec.getLsbD_or, BitVec.getLsbD_and, BitVec.getLsbD_and, getLsbD_ones (by omega), hj]
    simp
    omega
  have hzero : m ≠ 0 := by
    intro h
    rw [h] at htop
    simp at htop
  have hones : m ≠ BitVec.allOnes 32 := by
    intro h
    rw [h, BitVec.getLsbD_allOnes] at hbottom
    simp at hbottom
    omega
  unfold sizeOf
  rw [← hm]
  dsimp only
  rw [if_neg fun h => h.elim hzero hones]
  split_ifs with hbit
  · rw [hlow hbit, hw]
    exact size_ones k hk
  · rw [hhigh hbit, hw]
    exact size_ones k hk

/-- A range of memory in the table. -/
theorem barOf_memory {k : ℕ} (old : Bar) (h : Memory v w k) : barOf old v w =
    ⟨false, v &&& w, decide (v >>> 1 &&& 0x03 = 0x02), decide (v &&& 0x08 ≠ 0), 1#32 <<< k⟩ := by
  obtain ⟨⟨hlow, hhigh⟩, hw, hplaced, hkind, haligned⟩ := h
  have hbit : v &&& 0x01 = 0 := by
    rw [low_bit, hkind]
    rfl
  have hmask := mask_ones hlow haligned
  have hsize : sizeOf v w = 1#32 <<< k := by
    apply sizeOf_eq rfl hw hhigh (show 0 < k by omega) hkind
    · intro hone
      rw [hbit] at hone
      exact absurd hone (by decide)
    · intro _
      rw [hw]
      exact hmask
  have haddress : v &&& 0xFFFFFFF0 = v &&& w := by
    rw [hw]
    exact address_ones hlow haligned
  unfold barOf
  rw [if_neg hplaced, if_neg (not_not.mpr hbit), hsize, haddress]

/-- A range of ports in the table. -/
theorem barOf_ports {k : ℕ} (old : Bar) (h : Ports v w k) :
    barOf old v w = ⟨true, v &&& w, false, false, 1#32 <<< k⟩ := by
  obtain ⟨⟨hlow, hhigh⟩, hw, hkind, haligned⟩ := h
  have haligned' : ∀ i, 2 ≤ i → i < k → v.getLsbD i = false := fun i hi => haligned i (by omega)
  have hbit : v &&& 0x01 = 0x01 := by
    rw [low_bit, hkind]
    rfl
  have hmask := mask_ones hlow haligned'
  have hsize : sizeOf v w = 1#32 <<< k := by
    apply sizeOf_eq rfl hw hhigh (show 1 < k by omega) (haligned 1 (Nat.le_refl 1) (by omega))
    · intro _
      rw [hw]
      exact hmask
    · intro hno
      exact absurd hbit hno
  have haddress : v &&& 0xFFFFFFFC = v &&& w := by
    rw [hw]
    exact address_ones hlow haligned'
  have hne : v &&& 0x01 ≠ 0 := by
    rw [hbit]
    decide
  have hplaced : v ≠ 0 := by
    intro hzero
    rw [hzero] at hkind
    simp at hkind
  unfold barOf
  rw [if_neg hplaced, if_pos hne, hsize, haddress]

/-- What the table says about a function. -/
structure Describes (d : Device) (c : Config) (x : ℕ×ℕ×ℕ) : Prop where
  place : (d.bus, d.slot, d.func) = x
  ids : (d.vendorId, d.deviceId) = (wordOf (c.reg 0) 0, wordOf (c.reg 0) 2)
  kind : (d.classId, d.subclass, d.progIf) =
    (byteOf (c.reg 2) 0x0B, byteOf (c.reg 2) 0x0A, byteOf (c.reg 2) 0x09)
  irq : d.irq = byteOf (c.reg 15) 0x3C
  memory : ∀ i k, i < 6 → Memory (c.reg (4+i)) (c.writable (4+i)) k → d.bar i =
    ⟨false, c.reg (4+i) &&& c.writable (4+i), decide (c.reg (4+i) >>> 1 &&& 0x03 = 0x02),
      decide (c.reg (4+i) &&& 0x08 ≠ 0), 1#32 <<< k⟩
  ports : ∀ i k, i < 6 → Ports (c.reg (4+i)) (c.writable (4+i)) k →
    d.bar i = ⟨true, c.reg (4+i) &&& c.writable (4+i), false, false, 1#32 <<< k⟩
  unused : ∀ i, i < 6 → c.reg (4+i) = 0 → (d.bar i).size = 0

theorem deviceOf_describes (old : ℕ → Bar) (c : Config) (b s f : ℕ) :
    Describes (deviceOf old c b s f) c (b, s, f) := by
  have hbar : ∀ i, i < 6 → (deviceOf old c b s f).bar i =
      barOf (old i) (c.reg (4+i)) (c.writable (4+i)) := fun i hi => if_pos hi
  constructor
  · rfl
  · rfl
  · rfl
  · rfl
  · intro i k hi h
    rw [hbar i hi, barOf_memory _ h]
  · intro i k hi h
    rw [hbar i hi, barOf_ports _ h]
  · intro i hi h
    rw [hbar i hi, barOf, if_pos h]

end Ranges

end Vlsmc.PciScan
