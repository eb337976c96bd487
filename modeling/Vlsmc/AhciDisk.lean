import Vlsmc.AhciDriver
import Vlsmc.AtaDisk

/-!
# The AHCI disk

What the driver writes into memory is, as the controller reads it, the command that was asked for;
so the driver and the controller are a disk, the same one that the other driver and its drive are.
The driver does not recover from an error: the request after a refused one never returns.
-/

set_option autoImplicit false

namespace Vlsmc.AhciDisk
open Vlsmc.ByteMemory Vlsmc.Fat16Volume Vlsmc.FuelLimits Vlsmc.AtaDisk Vlsmc.AhciDriver

section Encoding

variable {m : Memory} {h t code lba count buffer k : ℕ} {w : Bool}

theorem writeHeader_frame (m : Memory) (w : Bool) (hk : k < h ∨ h+4 ≤ k) : writeHeader m h w k = m k := by
  unfold writeHeader
  rw [write16_ne _ _ (by omega), write8_ne _ _ (by omega)]

theorem writeHeader_reads (m : Memory) (h : ℕ) (w : Bool) : (writeHeader m h w h).toNat%32 = 5 ∧
    decide ((writeHeader m h w h).toNat/64%2 = 1) = w ∧ read16 (writeHeader m h w) (h+2) = 1 := by
  have hbyte := (m h).toNat_lt
  have hflags : (writeHeader m h w h).toNat =
      ((m h).toNat/128*128+(if w then 64 else 0)+5)%256 := by
    unfold writeHeader
    rw [write16_ne _ _ (by omega), write8_same, UInt8.toNat_ofNat']
  refine ⟨?_, ?_, read16_write16 _ _ (by decide)⟩
  · rw [hflags]
    cases w <;> simp <;> omega
  · rw [hflags]
    cases w <;> simp <;> omega

theorem writeRegion_frame (m : Memory) (hk : k < t+128 ∨ t+144 ≤ k) :
    writeRegion m t count buffer k = m k := by
  unfold writeRegion
  rw [write32_ne _ _ (by omega), write32_ne _ _ (by omega), write32_ne _ _ (by omega)]

/-- The region of a command is the buffer. -/
theorem writeRegion_reads (m : Memory) (hbuffer : buffer < 4294967296) (hc : 0 < count ∧ count ≤ 8192) :
    regions (writeRegion m t count buffer) (t+128) 1 = [(buffer, 512*count)] := by
  have haddr : read32 (writeRegion m t count buffer) (t+128) = buffer := by
    unfold writeRegion
    rw [read32_write32_ne _ _ (by omega), read32_write32_ne _ _ (by omega), read32_write32 _ _ hbuffer]
  have hlength : read32 (writeRegion m t count buffer) (t+140) =
      (count*512+4294967295)%4194304+2147483648 := by
    unfold writeRegion
    rw [read32_write32 _ _ (by omega)]
  have hsize : ((count*512+4294967295)%4194304+2147483648)%4194304+1 = 512*count := by omega
  change [(read32 _ (t+128), read32 _ (t+140)%4194304+1)] = _
  rw [haddr, hlength, hsize]

theorem writeCommand_frame (m : Memory) (hk : k < t ∨ t+14 ≤ k) :
    writeCommand m t code lba count k = m k := by
  unfold writeCommand
  simp only [write8]
  rw [if_neg (by omega), if_neg (by omega), if_neg (by omega), if_neg (by omega), if_neg (by omega),
    if_neg (by omega), if_neg (by omega), if_neg (by omega), if_neg (by omega), if_neg (by omega),
    if_neg (by omega), if_neg (by omega)]

/-- The bytes of a command. -/
theorem writeCommand_reads (m : Memory) (t code lba count : ℕ) :
    let b (k : ℕ) : ℕ := (writeCommand m t code lba count (t+k)).toNat
    b 0 = 0x27 ∧ b 1 = 0x80 ∧ b 2 = code%256 ∧ b 7 = 0x40 ∧
      b 4+256*b 5+65536*b 6+16777216*b 8+4294967296*b 9+1099511627776*b 10 = lba%281474976710656 ∧
      b 12+256*b 13 = count%65536 := by
  simp [writeCommand, write8]
  omega

/-- What a transfer leaves in memory before the command is issued. -/
def built (m : Memory) (h : ℕ) (w : Bool) (code lba count buffer : ℕ) : Memory :=
  let m := writeHeader m h w
  let t := read32 m (h+8)
  writeCommand (writeRegion (zero256 m t) t count buffer) t code lba count

/-- The table of slot 0 is not in the way of its header. -/
def Separate (m : Memory) (h : ℕ) : Prop := read32 m (h+8)+256 ≤ h ∨ h+32 ≤ read32 m (h+8)

theorem header_table (m : Memory) (h : ℕ) (w : Bool) : read32 (writeHeader m h w) (h+8) = read32 m (h+8) := by
  apply read32_congr
  intro k hk _
  exact writeHeader_frame m w (by omega)

theorem built_frame (m : Memory) (hk : k < h ∨ h+4 ≤ k)
    (hk' : k < read32 m (h+8) ∨ read32 m (h+8)+256 ≤ k) : built m h w code lba count buffer k = m k := by
  unfold built
  rw [header_table, writeCommand_frame _ (by omega), writeRegion_frame _ (by omega),
    zero256, zero_ne _ _ _ (by omega), writeHeader_frame m w hk]

/-- In the table only the command and the region differ from zero; the header is as it was written. -/
theorem built_header (hs : Separate m h) (hk : h ≤ k) (hk' : k < h+32) :
    built m h w code lba count buffer k = writeHeader m h w k := by
  unfold Separate at hs
  unfold built
  rw [header_table, writeCommand_frame _ (by omega), writeRegion_frame _ (by omega),
    zero256, zero_ne _ _ _ (by omega)]

/-- The controller reads the command that was asked for. -/
theorem fetch_built (hs : Separate m h) (hcode : code < 256) (hlba : lba < 281474976710656)
    (hc : 0 < count ∧ count ≤ 8192) (hbuffer : buffer < 4294967296) :
    fetch (built m h w code lba count buffer) h 0 =
      ⟨5, w, 0x27, 0x80, code, 0x40, lba, count, [(buffer, 512*count)]⟩ := by
  obtain ⟨hlength, hwrite, hregions⟩ := writeHeader_reads m h w
  have hflags : built m h w code lba count buffer (h+32*0) = writeHeader m h w h :=
    built_header hs (le_refl h) (by omega)
  have hcount : read16 (built m h w code lba count buffer) (h+32*0+2) = 1 := by
    rw [← hregions]
    unfold read16
    rw [Nat.mul_zero, Nat.add_zero, built_header hs (by omega) (by omega),
      built_header hs (by omega) (by omega)]
  have htable : read32 (built m h w code lba count buffer) (h+32*0+8) = read32 m (h+8) := by
    rw [← header_table m h w]
    apply read32_congr
    intro k hk hk'
    exact built_header hs (by omega) (by omega)
  obtain ⟨t, ht⟩ : ∃ t, t = read32 m (h+8) := ⟨_, rfl⟩
  have hbuilt : built m h w code lba count buffer = writeCommand
      (writeRegion (zero256 (writeHeader m h w) t) t count buffer) t code lba count := by
    rw [ht, ← header_table m h w]
    rfl
  have hregion : regions (built m h w code lba count buffer) (t+128) 1 = [(buffer, 512*count)] := by
    rw [← writeRegion_reads (t := t) (zero256 (writeHeader m h w) t) hbuffer hc, hbuilt]
    have hsame : ∀ a, t+128 ≤ a → read32 (writeCommand (writeRegion (zero256 (writeHeader m h w) t) t
        count buffer) t code lba count) a =
          read32 (writeRegion (zero256 (writeHeader m h w) t) t count buffer) a := by
      intro a ha
      apply read32_congr
      intro k hk _
      exact writeCommand_frame _ (by omega)
    change [(_, _)] = [(_, _)]
    rw [hsame _ (le_refl _), hsame _ (by omega)]
  obtain ⟨h0, h1, h2, h7, hlow, hhigh⟩ := writeCommand_reads
    (writeRegion (zero256 (writeHeader m h w) t) t count buffer) t code lba count
  rw [← hbuilt] at h0 h1 h2 h7 hlow hhigh
  unfold fetch
  simp only [hflags, hcount, htable, ← ht, hregion, hlength, hwrite, h0, h1, h2, h7, hlow, hhigh]
  rw [if_neg (by omega), Nat.mod_eq_of_lt hcode, Nat.mod_eq_of_lt hlba, Nat.mod_eq_of_lt (by omega)]

end Encoding

section Transfers

variable {m : Memory} {d : Hba} {w : Bool} {lba count buffer limit : ℕ}

/-- A port that waits for a command and is never busy for too long. -/
structure Ready (d : Hba) : Prop where
  ci : d.ci = 0
  sact : d.sact = 0
  going : d.stopped = false
  ready : d.tfd &&& 0x88 = 0
  busy : d.busy < 1000000
  delays : ∀ i, (d.delays i).2 < 1000000

/-- A port that is set up, with room for `limit` sectors at `buffer`. -/
structure Prepared (m : Memory) (d : Hba) (buffer limit : ℕ) : Prop extends Ready d where
  separate : Separate m d.clb
  header : buffer+512*limit ≤ d.clb ∨ d.clb+32 ≤ buffer
  table : buffer+512*limit ≤ read32 m (d.clb+8) ∨ read32 m (d.clb+8)+256 ≤ buffer
  room : buffer+512*limit ≤ 4294967296
  most : limit ≤ 8192

theorem spin_ready (n : ℕ) (d : Hba) (hready : d.tfd &&& 0x88 = 0) (hbusy : d.busy < n) :
    spin n d = (true, { d with busy := 0 }) := by
  induction n generalizing d with
  | zero => omega
  | succ n ih =>
    unfold spin readTfd
    by_cases hwait : 0 < d.busy
    · have hset : (0x80 : ℕ) &&& 0x88 ≠ 0 := by decide
      rw [if_pos hwait, if_pos hset]
      exact ih { d with busy := d.busy-1 } hready (by change d.busy-1 < n; omega)
    · have hzero : d.busy = 0 := by omega
      rw [if_neg hwait, if_neg (by rw [hready]; decide)]
      obtain ⟨disk, clb, fb, interrupts, tfd, sact, ci, busy, left, stopped, delays⟩ := d
      exact congrArg (fun b => (true, (⟨disk, clb, fb, interrupts, tfd, sact, ci, b, left, stopped, delays⟩ : Hba)))
        hzero

/-- The wait ends when the command has been carried out, or has been refused. -/
theorem waitDone_ends {b : Bool} (hci : d.ci = 1) (hgoing : d.stopped = false) (hints : d.interrupts = 0)
    (hdone : b = true → (execute m { d with left := 0 } 0).2.ci &&& 2^0 = 0)
    (herror : b = false → (execute m { d with left := 0 } 0).2.ci &&& 2^0 ≠ 0 ∧
      (execute m { d with left := 0 } 0).2.interrupts &&& 2^30 ≠ 0) :
    Ends (fun n => waitDone 0 n m d) (b, execute m { d with left := 0 } 0) := by
  induction hl : d.left generalizing d with
  | zero =>
    have hself : ({ d with left := 0 } : Hba) = d := by rw [← hl]
    rw [hself] at hdone herror ⊢
    have hread : readCi m d 0 = ((execute m d 0).2.ci, execute m d 0) := by
      unfold readCi
      rw [if_neg (by simp [hci, hgoing]), if_neg (by omega)]
    refine ⟨1, ?_⟩
    intro k hk
    obtain ⟨e, rfl⟩ := Nat.exists_eq_add_of_le' hk
    change waitDone 0 (e+1) m d = _
    unfold waitDone
    rw [hread]
    cases b with
    | true => exact if_pos (hdone rfl)
    | false => exact (if_neg (herror rfl).1).trans (if_pos (herror rfl).2)
  | succ left ih =>
    have hread : readCi m d 0 = (1, m, { d with left := left }) := by
      unfold readCi
      rw [if_neg (by simp [hci, hgoing]), if_pos (by omega), hci, hl]
      rfl
    obtain ⟨n, hn⟩ := ih (d := { d with left := left }) hci hgoing hints hdone herror rfl
    refine ⟨n+1, ?_⟩
    intro k hk
    obtain ⟨e, rfl⟩ := Nat.exists_eq_add_of_le' hk
    change waitDone 0 (e+n+1) m d = _
    unfold waitDone
    rw [hread]
    change (if (1 : ℕ) &&& 2^0 = 0 then _ else if d.interrupts &&& 2^30 ≠ 0 then _ else
      waitDone 0 (e+n) m { d with left := left }) = _
    rw [if_neg (by decide), if_neg (by rw [hints]; decide)]
    exact hn (e+n) (Nat.le_add_left n e)

theorem readTfd_eq (d : Hba) :
    readTfd d = (if 0 < d.busy then 0x80 else d.tfd, { d with busy := d.busy-1 }) := by
  unfold readTfd
  by_cases hb : 0 < d.busy
  · rw [if_pos hb, if_pos hb]
  · have hzero : d.busy-1 = d.busy := by omega
    rw [if_neg hb, if_neg hb, hzero]

/-- The port in the state in which the wait for the command begins. -/
def issued (d : Hba) (slot : ℕ) : Hba := issue { d with interrupts := 0, busy := 0 } slot

theorem transfer_ready (hd : Ready d) (n : ℕ) (w : Bool) (code lba count buffer : ℕ) (m : Memory) :
    transfer n w code lba count buffer m d =
      (waitDone 0 n (built m d.clb w code lba count buffer) (issued d 0)).map fun x =>
        if x.1 = false then x else (decide ((readTfd x.2.2).1%2 = 0), x.2.1, (readTfd x.2.2).2) := by
  have hslot : findCmdslot { d with interrupts := 0 } = some 0 := by
    unfold findCmdslot
    rw [hd.sact, hd.ci]
    rfl
  have hspin := spin_ready 1000000 { d with interrupts := 0 } hd.ready hd.busy
  unfold transfer
  simp only [hslot, hspin]
  rfl

/-- The request of a transfer, as the controller finds it. -/
def request (w : Bool) (lba count buffer : ℕ) : Command :=
  ⟨5, w, 0x27, 0x80, if w then 0x35 else 0x24, 0x40, lba, count, [(buffer, 512*count)]⟩

/-- What the controller leaves: the data in the buffer, or on the disk. -/
def carried (m : Memory) (d : Hba) (w : Bool) (lba count buffer : ℕ) : Memory×Disk :=
  if w then (m, writeAll d.disk lba count fun k => if k < 512*count then m (buffer+k) else 0)
  else (place m buffer (512*count) fun k => d.disk.data (lba+k/512) (k%512), d.disk)

/-- The port after a command that was refused. -/
def refused (d : Hba) : Hba :=
  { d with left := 0, stopped := true, tfd := 0x41, interrupts := d.interrupts ||| 2^30 }

theorem scatter_one (m : Memory) (a n : ℕ) (f : ℕ → UInt8) : scatter [(a, n)] n f m = place m a n f := by
  change place m a (min n n) f = _
  rw [Nat.min_self]

/-- The port after a command. -/
def finished (d : Hba) (disk : Disk) : Hba := { d with left := 0, ci := d.ci-1, tfd := 0x50, disk := disk }

theorem execute_request (hf : fetch m d.clb 0 = request w lba count buffer)
    (hin : lba+count ≤ d.disk.size) : execute m { d with left := 0 } 0 =
      ((carried m d w lba count buffer).1, finished d (carried m d w lba count buffer).2) := by
  have hlegal : (request w lba count buffer).Legal d.disk.size := ⟨rfl, rfl, rfl, rfl, rfl, hin⟩
  unfold execute
  rw [hf]
  change (if (request w lba count buffer).Legal d.disk.size then _ else _) = _
  rw [if_pos hlegal]
  cases w with
  | true => rfl
  | false =>
    apply (if_neg Bool.false_ne_true).trans
    change (scatter [(buffer, 512*count)] (512*count) _ m, _) = _
    rw [scatter_one]
    rfl

theorem carried_write (m : Memory) (d : Hba) (lba count buffer : ℕ) : carried m d true lba count buffer =
    (m, writeAll d.disk lba count fun k => if k < 512*count then m (buffer+k) else 0) := if_pos rfl

theorem carried_read (m : Memory) (d : Hba) (lba count buffer : ℕ) : carried m d false lba count buffer =
    (place m buffer (512*count) (fun k => d.disk.data (lba+k/512) (k%512)), d.disk) :=
  if_neg Bool.false_ne_true

theorem carried_frame {k : ℕ} (h : k < buffer ∨ buffer+512*count ≤ k) :
    (carried m d w lba count buffer).1 k = m k := by
  cases w with
  | true => rw [carried_write]
  | false =>
    rw [carried_read]
    dsimp only
    exact place_ne m _ h

/-- A request for sectors that exist is carried out, and the port is ready for the next. -/
theorem transfer_ends (hp : Prepared m d buffer limit) (hc : 0 < count ∧ count ≤ limit)
    (hin : lba+count ≤ d.disk.size) (hsize : d.disk.size ≤ 281474976710656) (w : Bool) :
    ∃ m' d', Ends (fun n => transfer n w (if w then 0x35 else 0x24) lba count buffer m d) (true, m', d') ∧
      Prepared m' d' buffer limit ∧
      (w = true → d'.disk = writeAll d.disk lba count fun k => if k < 512*count then m (buffer+k) else 0) ∧
      (w = false → d'.disk = d.disk ∧
        ∀ k < 512*count, m' (buffer+k) = d.disk.data (lba+k/512) (k%512)) := by
  obtain ⟨m₁, hm₁⟩ : ∃ m₁, m₁ = built m d.clb w (if w then 0x35 else 0x24) lba count buffer := ⟨_, rfl⟩
  obtain ⟨d₁, hd₁⟩ : ∃ d₁, d₁ = issued d 0 := ⟨_, rfl⟩
  have hmost := hp.most
  have hroom := hp.room
  have hfetch : fetch m₁ d₁.clb 0 = request w lba count buffer := by
    rw [hm₁, hd₁]
    exact fetch_built hp.separate (by cases w <;> decide) (by omega) (by omega) (by omega)
  have hexec := execute_request hfetch (by rw [hd₁]; exact hin)
  have hci : d₁.ci = 1 := by
    rw [hd₁]
    change d.ci ||| 2^0 = 1
    rw [hp.ci]
    rfl
  have hcleared : (execute m₁ { d₁ with left := 0 } 0).2.ci &&& 2^0 = 0 := by
    rw [hexec]
    change (d₁.ci-1) &&& 2^0 = 0
    rw [hci]
    rfl
  have hwait := waitDone_ends (m := m₁) (b := true) hci (by rw [hd₁]; exact hp.going)
    (by rw [hd₁]; rfl) (fun _ => hcleared) nofun
  rw [hexec] at hwait
  have hcarried : carried m₁ d₁ w lba count buffer = carried m₁ d w lba count buffer := by
    rw [hd₁]
    rfl
  rw [hcarried] at hwait
  obtain ⟨r, hr⟩ : ∃ r, r = carried m₁ d w lba count buffer := ⟨_, rfl⟩
  rw [← hr] at hwait
  have hends : Ends (fun n => transfer n w (if w then 0x35 else 0x24) lba count buffer m d)
      (true, r.1, (readTfd (finished d₁ r.2)).2) := by
    have heven : (readTfd (finished d₁ r.2)).1%2 = 0 := by
      rw [readTfd_eq]
      change (if 0 < d₁.busy then 0x80 else 0x50)%2 = 0
      split_ifs <;> rfl
    have hresult := Ends.map hwait fun x => if x.1 = false then x
      else (decide ((readTfd x.2.2).1%2 = 0), x.2.1, (readTfd x.2.2).2)
    simp only [heven, decide_true, Bool.true_eq_false, if_false] at hresult
    apply Ends.congr hresult
    intro n
    rw [transfer_ready hp.toReady, hm₁, hd₁]
  have hheader := hp.header
  have htable := hp.table
  have hsame : ∀ k, d.clb+4 ≤ k → k < d.clb+32 → r.1 k = m k := by
    intro k hk hk'
    rw [hr, carried_frame (by omega), hm₁, built_header hp.separate (by omega) hk',
      writeHeader_frame m w (by omega)]
  have htables : read32 r.1 (d.clb+8) = read32 m (d.clb+8) := by
    apply read32_congr
    intro k hk hk'
    exact hsame k (by omega) (by omega)
  have hdone : (readTfd (finished d₁ r.2)).2 = { finished d₁ r.2 with busy := d₁.busy-1 } := by
    rw [readTfd_eq]
    rfl
  have hclb : d₁.clb = d.clb := by rw [hd₁]; rfl
  have hdelays : d₁.delays = fun i => d.delays (i+1) := by rw [hd₁]; rfl
  have hbusy : d₁.busy = (d.delays 0).2 := by rw [hd₁]; rfl
  rw [hdone] at hends
  refine ⟨r.1, _, hends, ?_, ?_, ?_⟩
  · exact {
      ci := by
        change d₁.ci-1 = 0
        rw [hci]
      sact := by
        change d₁.sact = 0
        rw [hd₁]
        exact hp.sact
      going := by
        change d₁.stopped = false
        rw [hd₁]
        exact hp.going
      ready := by
        change (0x50 : ℕ) &&& 0x88 = 0
        rfl
      busy := by
        have hlt := hp.delays 0
        change d₁.busy-1 < 1000000
        omega
      delays := by
        intro i
        change (d₁.delays i).2 < 1000000
        rw [hdelays]
        exact hp.delays (i+1)
      separate := by
        change Separate r.1 d₁.clb
        unfold Separate
        rw [hclb, htables]
        exact hp.separate
      header := by
        change _ ≤ d₁.clb ∨ d₁.clb+32 ≤ _
        rw [hclb]
        exact hheader
      table := by
        change _ ≤ read32 r.1 (d₁.clb+8) ∨ read32 r.1 (d₁.clb+8)+256 ≤ _
        rw [hclb, htables]
        exact htable
      room := hroom
      most := hmost }
  · intro hw
    change r.2 = _
    rw [hr, hw, carried_write]
    dsimp only
    congr 1
    funext k
    by_cases hk : k < 512*count
    · rw [if_pos hk, if_pos hk, hm₁]
      exact built_frame m (by omega) (by omega)
    · rw [if_neg hk, if_neg hk]
  · intro hw
    refine ⟨?_, ?_⟩
    · change r.2 = _
      rw [hr, hw, carried_read]
    · intro k hk
      rw [hr, hw, carried_read]
      dsimp only
      exact place_get m₁ _ hk

/-- A port after an error: it still has its command. -/
structure Hung (d : Hba) : Prop where
  stopped : d.stopped = true
  ci : d.ci = 1
  sact : d.sact = 0
  ready : d.tfd &&& 0x88 = 0
  busy : d.busy < 1000000

/-- The wait for a command that the controller does not even begin. -/
theorem waitDone_hung (hs : d.stopped = true) (hci : d.ci = 3) (hints : d.interrupts = 0) (n : ℕ) :
    waitDone 1 n m d = none := by
  induction n with
  | zero => rfl
  | succ n ih =>
    have hread : readCi m d 1 = (3, m, d) := by
      unfold readCi
      rw [if_pos (Or.inr hs), hci]
    unfold waitDone
    rw [hread]
    change (if (3 : ℕ) &&& 2^1 = 0 then _ else if d.interrupts &&& 2^30 ≠ 0 then _ else waitDone 1 n m d) = _
    rw [if_neg (by decide), if_neg (by rw [hints]; decide), ih]

theorem transfer_hung (hd : Hung d) (n : ℕ) (w : Bool) (code lba count buffer : ℕ) (m : Memory) :
    transfer n w code lba count buffer m d = none := by
  have hslot : findCmdslot { d with interrupts := 0 } = some 1 := by
    unfold findCmdslot
    rw [hd.sact, hd.ci]
    rfl
  have hspin := spin_ready 1000000 { d with interrupts := 0 } hd.ready hd.busy
  have hci : (issued d 1).ci = 3 := by
    change d.ci ||| 2^1 = 3
    rw [hd.ci]
    rfl
  have hwait := fun m => waitDone_hung (m := m) (d := issued d 1) hd.stopped hci rfl n
  unfold transfer
  simp only [hslot, hspin, Bool.true_eq_false, if_false]
  exact congrArg _ (hwait _)

/-- A request for a sector that does not exist is refused, and the port hangs from then on. -/
theorem transfer_refused (hp : Prepared m d buffer limit) (hc : 0 < count ∧ count ≤ limit)
    (hlba : lba < 281474976710656) (hout : d.disk.size < lba+count) (w : Bool) :
    ∃ m' d', Ends (fun n => transfer n w (if w then 0x35 else 0x24) lba count buffer m d) (false, m', d') ∧
      d'.disk = d.disk ∧ Hung d' := by
  obtain ⟨m₁, hm₁⟩ : ∃ m₁, m₁ = built m d.clb w (if w then 0x35 else 0x24) lba count buffer := ⟨_, rfl⟩
  obtain ⟨d₁, hd₁⟩ : ∃ d₁, d₁ = issued d 0 := ⟨_, rfl⟩
  have hmost := hp.most
  have hroom := hp.room
  have hfetch : fetch m₁ d₁.clb 0 = request w lba count buffer := by
    rw [hm₁, hd₁]
    exact fetch_built hp.separate (by cases w <;> decide) (by omega) (by omega) (by omega)
  have hillegal : ¬(request w lba count buffer).Legal d₁.disk.size := by
    intro hlegal
    have hin : lba+count ≤ d₁.disk.size := hlegal.2.2.2.2.2
    have hsame : d₁.disk = d.disk := by rw [hd₁]; rfl
    rw [hsame] at hin
    omega
  have hexec : execute m₁ { d₁ with left := 0 } 0 = (m₁, refused d₁) := by
    unfold execute
    rw [hfetch]
    exact if_neg hillegal
  have hci : d₁.ci = 1 := by
    rw [hd₁]
    change d.ci ||| 2^0 = 1
    rw [hp.ci]
    rfl
  have hints : d₁.interrupts = 0 := by rw [hd₁]; rfl
  have herror : (execute m₁ { d₁ with left := 0 } 0).2.ci &&& 2^0 ≠ 0 ∧
      (execute m₁ { d₁ with left := 0 } 0).2.interrupts &&& 2^30 ≠ 0 := by
    rw [hexec]
    change d₁.ci &&& 2^0 ≠ 0 ∧ (d₁.interrupts ||| 2^30) &&& 2^30 ≠ 0
    rw [hci, hints]
    decide
  have hwait := waitDone_ends (m := m₁) (b := false) hci (by rw [hd₁]; exact hp.going) hints nofun
    fun _ => herror
  rw [hexec] at hwait
  refine ⟨m₁, refused d₁, ?_, by rw [hd₁]; rfl, ?_⟩
  · have hresult := Ends.map hwait fun x => if x.1 = false then x
      else (decide ((readTfd x.2.2).1%2 = 0), x.2.1, (readTfd x.2.2).2)
    simp only [if_true] at hresult
    apply Ends.congr hresult
    intro n
    rw [transfer_ready hp.toReady, hm₁, hd₁]
  · exact {
      stopped := rfl
      ci := hci
      sact := by
        change d₁.sact = 0
        rw [hd₁]
        exact hp.sact
      ready := by
        change (0x41 : ℕ) &&& 0x88 = 0
        rfl
      busy := by
        change d₁.busy < 1000000
        rw [hd₁]
        exact hp.delays 0 }

end Transfers

section Requests

variable {m : Memory} {d : Hba} {disk : Disk} {buffer limit : ℕ}

/-- A request for up to `limit` sectors that exist. -/
def Fits (size limit : ℕ) : Request → Prop
  | .read lba count => 0 < count ∧ count ≤ limit ∧ lba+count ≤ size
  | .write lba count _ => 0 < count ∧ count ≤ limit ∧ lba+count ≤ size

/-- A request that begins at a sector with a 48-bit address and goes past the last sector. -/
def Misses (size limit : ℕ) : Request → Prop
  | .read lba count => 0 < count ∧ count ≤ limit ∧ lba < 281474976710656 ∧ size < lba+count
  | .write lba count _ => 0 < count ∧ count ≤ limit ∧ lba < 281474976710656 ∧ size < lba+count

/-- A request to the driver, with the data at `buffer`. -/
def serve (n buffer : ℕ) (m : Memory) (d : Hba) : Request → Option (Option (List UInt8)×Memory×Hba)
  | .read lba count => (AhciDriver.read n lba count buffer m d).map fun r =>
    (if r.1 then some ((List.range (512*count)).map fun k => r.2.1 (buffer+k)) else none, r.2)
  | .write lba count buf =>
    (AhciDriver.write n lba count buffer (place m buffer (512*count) buf) d).map fun r =>
      (if r.1 then some [] else none, r.2)

def serveAll (n buffer : ℕ) : List Request → Memory → Hba → Option (List (Option (List UInt8))×Memory×Hba)
  | [], m, d => some ([], m, d)
  | r::rs, m, d => (serve n buffer m d r).bind fun x =>
    (serveAll n buffer rs x.2.1 x.2.2).map fun y => (x.1::y.1, y.2)

/-- Data put into the buffer is not in the way of the port. -/
theorem Prepared.placed (hp : Prepared m d buffer limit) {count : ℕ} (hc : count ≤ limit) (f : ℕ → UInt8) :
    Prepared (place m buffer (512*count) f) d buffer limit := by
  have hheader := hp.header
  have htables : read32 (place m buffer (512*count) f) (d.clb+8) = read32 m (d.clb+8) := by
    apply read32_congr
    intro k hk hk'
    exact place_ne m f (by omega)
  have hseparate : Separate (place m buffer (512*count) f) d.clb := by
    unfold Separate
    rw [htables]
    exact hp.separate
  exact { hp with separate := hseparate, table := by rw [htables]; exact hp.table }

theorem agree_writeAll {x y : Disk} (h : Agree x y) {lba count : ℕ} {b c : ℕ → UInt8}
    (hb : ∀ k < 512*count, b k = c k) : Agree (writeAll x lba count b) (writeAll y lba count c) := by
  unfold writeAll
  induction count with
  | zero => exact h
  | succ count ih =>
    rw [List.range_succ, List.foldl_append, List.foldl_append]
    exact agree_write (ih fun k hk => hb k (by omega)) (fun k hk => hb _ (by omega)) _

theorem writeAll_size (disk : Disk) (lba count : ℕ) (b : ℕ → UInt8) :
    (writeAll disk lba count b).size = disk.size := by
  unfold writeAll
  induction count with
  | zero => rfl
  | succ count ih =>
    rw [List.range_succ, List.foldl_append]
    unfold Disk.write at ih ⊢
    rw [← ih]
    change (if _ then _ else _ : Disk).size = _
    split_ifs <;> rfl

/-- One request: the driver answers as the disk does. -/
theorem serve_ends (hp : Prepared m d buffer limit) (h : Agree d.disk disk)
    (hsize : disk.size ≤ 281474976710656) (r : Request) (hr : Fits disk.size limit r) :
    ∃ m' d', Ends (fun n => serve n buffer m d r) ((answer disk r).1, m', d') ∧
      Prepared m' d' buffer limit ∧ Agree d'.disk (answer disk r).2 ∧ (answer disk r).2.size = disk.size := by
  have hsame : d.disk.size = disk.size := h.1
  cases r with
  | read lba count =>
    obtain ⟨hc, hl, hin⟩ := hr
    obtain ⟨m', d', hends, hp', -, hread⟩ :=
      transfer_ends hp ⟨hc, hl⟩ (by rw [hsame]; exact hin) (by rw [hsame]; exact hsize) false
    obtain ⟨hdisk, hbytes⟩ := hread rfl
    refine ⟨m', d', ?_, hp', by rw [hdisk]; exact h, rfl⟩
    have hreply : some ((List.range (512*count)).map fun k => m' (buffer+k)) =
        (answer disk (.read lba count)).1 := by
      rw [answer_read hc, if_pos hin]
      congr 1
      apply List.map_congr_left
      intro k hk
      rw [hbytes k (List.mem_range.mp hk)]
      exact h.2 _ _ (Nat.mod_lt k (by decide))
    rw [← hreply]
    exact Ends.map hends fun r =>
      (if r.1 then some ((List.range (512*count)).map fun k => r.2.1 (buffer+k)) else none, r.2)
  | write lba count buf =>
    obtain ⟨hc, hl, hin⟩ := hr
    obtain ⟨m', d', hends, hp', hwrite, -⟩ := transfer_ends (hp.placed hl buf) ⟨hc, hl⟩
      (by rw [hsame]; exact hin) (by rw [hsame]; exact hsize) true
    refine ⟨m', d', Ends.map hends fun r => (if r.1 then some [] else none, r.2), hp', ?_, ?_⟩
    · rw [hwrite rfl]
      apply agree_writeAll h
      intro k hk
      rw [if_pos hk, place_get m buf hk]
    · exact writeAll_size disk lba count buf

theorem serveAll_ends (rs : List Request) (hp : Prepared m d buffer limit) (h : Agree d.disk disk)
    (hsize : disk.size ≤ 281474976710656) (hrs : ∀ r ∈ rs, Fits disk.size limit r) :
    ∃ m' d', Ends (fun n => serveAll n buffer rs m d) ((answers disk rs).1, m', d') ∧
      Agree d'.disk (answers disk rs).2 := by
  induction rs generalizing m d disk with
  | nil => exact ⟨m, d, ends_of_eq fun _ => rfl, h⟩
  | cons r rs ih =>
    obtain ⟨m₁, d₁, hends, hp₁, hagree, hsame⟩ := serve_ends hp h hsize r (hrs r List.mem_cons_self)
    obtain ⟨m', d', hrest, hfinal⟩ := ih hp₁ hagree (by rw [hsame]; exact hsize) fun q hq => by
      rw [hsame]
      exact hrs q (List.mem_cons_of_mem r hq)
    have hjoined := Ends.map hrest fun y => ((answer disk r).1::y.1, y.2)
    refine ⟨m', d', ?_, hfinal⟩
    have hall := Ends.bind (g := fun n x =>
      (serveAll n buffer rs x.2.1 x.2.2).map fun y => (x.1::y.1, y.2)) hends hjoined
    apply Ends.congr hall
    intro n
    rfl

theorem serve_refused (hp : Prepared m d buffer limit) (r : Request) (hr : Misses d.disk.size limit r) :
    ∃ m' d', Ends (fun n => serve n buffer m d r) (none, m', d') ∧ d'.disk = d.disk ∧ Hung d' := by
  cases r with
  | read lba count =>
    obtain ⟨hc, hl, hlba, hout⟩ := hr
    obtain ⟨m', d', hends, hdisk, hhung⟩ := transfer_refused hp ⟨hc, hl⟩ hlba hout false
    exact ⟨m', d', Ends.map hends fun r =>
      (if r.1 then some ((List.range (512*count)).map fun k => r.2.1 (buffer+k)) else none, r.2),
      hdisk, hhung⟩
  | write lba count buf =>
    obtain ⟨hc, hl, hlba, hout⟩ := hr
    obtain ⟨m', d', hends, hdisk, hhung⟩ := transfer_refused (hp.placed hl buf) ⟨hc, hl⟩ hlba hout true
    exact ⟨m', d', Ends.map hends fun r => (if r.1 then some [] else none, r.2), hdisk, hhung⟩

theorem serve_hung (hd : Hung d) (n : ℕ) (m : Memory) (r : Request) : serve n buffer m d r = none := by
  cases r with
  | read lba count => exact congrArg (Option.map _) (transfer_hung hd n false 0x24 lba count buffer m)
  | write lba count buf => exact congrArg (Option.map _) (transfer_hung hd n true 0x35 lba count buffer _)

theorem waitDone_more (slot n : ℕ) (m : Memory) (d : Hba) {x : Bool×Memory×Hba}
    (h : waitDone slot n m d = some x) : waitDone slot (n+1) m d = some x := by
  induction n generalizing m d with
  | zero => cases h
  | succ n ih =>
    unfold waitDone at h ⊢
    dsimp only at h ⊢
    split_ifs at h ⊢ with hci herror
    · exact h
    · exact h
    · exact ih _ _ h

theorem transfer_more (n : ℕ) (w : Bool) (code lba count : ℕ) (m : Memory) (d : Hba) {x : Bool×Memory×Hba}
    (h : transfer n w code lba count buffer m d = some x) :
    transfer (n+1) w code lba count buffer m d = some x := by
  unfold transfer at h ⊢
  cases hslot : findCmdslot { d with interrupts := 0 } with
  | none =>
    simp only [hslot] at h ⊢
    exact h
  | some slot =>
    simp only [hslot] at h ⊢
    split_ifs at h ⊢ with hspin
    · exact h
    · obtain ⟨y, hy, hx⟩ := Option.map_eq_some_iff.mp h
      exact Option.map_eq_some_iff.mpr ⟨y, waitDone_more _ _ _ _ hy, hx⟩

theorem serve_more (n : ℕ) (m : Memory) (d : Hba) (r : Request) {x : Option (List UInt8)×Memory×Hba}
    (h : serve n buffer m d r = some x) : serve (n+1) buffer m d r = some x := by
  cases r with
  | read lba count =>
    obtain ⟨y, hy, hx⟩ := Option.map_eq_some_iff.mp h
    exact Option.map_eq_some_iff.mpr ⟨y, transfer_more n false 0x24 lba count m d hy, hx⟩
  | write lba count buf =>
    obtain ⟨y, hy, hx⟩ := Option.map_eq_some_iff.mp h
    exact Option.map_eq_some_iff.mpr ⟨y, transfer_more n true 0x35 lba count _ d hy, hx⟩

/-- No run of requests gets past a request that follows a refused one. -/
theorem serveAll_stops (rs qs : List Request) (q r : Request) (hp : Prepared m d buffer limit)
    (hsize : d.disk.size ≤ 281474976710656) (hrs : ∀ r ∈ rs, Fits d.disk.size limit r)
    (hr : Misses d.disk.size limit r) (n : ℕ) : serveAll n buffer (rs++r::q::qs) m d = none := by
  induction rs generalizing m d with
  | nil =>
    obtain ⟨m', d', hends, -, hhung⟩ := serve_refused hp r hr
    change ((serve n buffer m d r).bind fun x => ((serve n buffer x.2.1 x.2.2 q).bind _).map _) = none
    cases hx : serve n buffer m d r with
    | none => rfl
    | some x =>
      have hdone := Ends.result hends (fun k _ => serve_more k m d r) hx
      rw [hdone, Option.bind_some, serve_hung hhung]
      rfl
  | cons p rs ih =>
    obtain ⟨m₁, d₁, hends, hp₁, hagree, hsame⟩ :=
      serve_ends hp (agree_refl d.disk) hsize p (hrs p List.mem_cons_self)
    have hkept : d₁.disk.size = d.disk.size := hagree.1.trans hsame
    have hrest := ih hp₁ (by rw [hkept]; exact hsize) (fun q hq => by
      rw [hkept]
      exact hrs q (List.mem_cons_of_mem p hq)) (by rw [hkept]; exact hr)
    change ((serve n buffer m d p).bind fun x => (serveAll n buffer (rs++r::q::qs) x.2.1 x.2.2).map _) = none
    cases hx : serve n buffer m d p with
    | none => rfl
    | some x =>
      have hdone := Ends.result hends (fun k _ => serve_more k m d p) hx
      rw [hdone, Option.bind_some, hrest]
      rfl

end Requests

section Sessions

variable {m : Memory} {d : Hba} {frame first second buffer limit : ℕ}

/-- Frames of their own for the headers and the tables, and room at `buffer`. -/
structure Apart (frame first second buffer limit : ℕ) : Prop where
  tables : first+4096 ≤ frame ∨ frame+4096 ≤ first
  others : second+4096 ≤ frame ∨ frame+4096 ≤ second
  header : buffer+512*limit ≤ frame ∨ frame+4096 ≤ buffer
  table : buffer+512*limit ≤ first ∨ first+4096 ≤ buffer
  address : first < 4294967296
  room : buffer+512*limit ≤ 4294967296
  most : limit ≤ 8192

theorem setHeader_frame (m : Memory) (table : ℕ) {clb i k : ℕ} (hk : k < clb+32*i) :
    setHeader m clb table i k = m k := by
  unfold setHeader
  rw [write32_ne _ _ (by omega), write32_ne _ _ (by omega), write16_ne _ _ (by omega)]

/-- The first header points to the first table, whatever the other headers are set to. -/
theorem setHeaders_table (m : Memory) (clb : ℕ) {table : ℕ} (ht : table < 4294967296) (n : ℕ) :
    read32 ((List.range (n+1)).foldl (fun m i => setHeader m clb table i) m) (clb+8) = table := by
  induction n with
  | zero =>
    change read32 (setHeader m clb table 0) (clb+8) = table
    unfold setHeader
    rw [read32_write32_ne _ _ (by omega)]
    exact read32_write32 _ _ ht
  | succ n ih =>
    rw [List.range_succ, List.foldl_append]
    refine Eq.trans (read32_congr ?_) ih
    intro k _ hk
    exact setHeader_frame _ _ (by omega)

theorem setHeaders_frame (m : Memory) (table : ℕ) {clb k : ℕ} (hk : k < clb+512) (n : ℕ) :
    (List.range n).foldl (fun m i => setHeader m clb table (16+i)) m k = m k := by
  induction n with
  | zero => rfl
  | succ n ih =>
    rw [List.range_succ, List.foldl_append, ← ih]
    exact setHeader_frame _ _ (by omega)

/-- Rebasing prepares the port. -/
theorem portRebase_prepared (hd : Ready d) (hf : Apart frame first second buffer limit) (m : Memory) :
    Prepared (portRebase frame first second m d).1 (portRebase frame first second m d).2 buffer limit := by
  obtain ⟨htables, hothers, hheader, htable, haddress, hroom, hmost⟩ := hf
  have hpointer : read32 (portRebase frame first second m d).1 (frame+8) = first := by
    obtain ⟨m₁, hm₁⟩ : ∃ m₁, m₁ = (List.range 16).foldl (fun m i => setHeader m frame first i)
      (zero (zero m frame 4096) first 4096) := ⟨_, rfl⟩
    have hrebase : (portRebase frame first second m d).1 =
        (List.range 16).foldl (fun m i => setHeader m frame second (16+i)) (zero m₁ second 4096) := by
      rw [hm₁]
      rfl
    have hfirst : read32 m₁ (frame+8) = first := by
      rw [hm₁]
      exact setHeaders_table _ frame haddress 15
    rw [hrebase]
    refine Eq.trans (read32_congr ?_) hfirst
    intro k hk hk'
    rw [setHeaders_frame _ second (by omega) 16, zero_ne _ second 4096 (by omega)]
  exact {
    ci := hd.ci
    sact := hd.sact
    going := hd.going
    ready := hd.ready
    busy := hd.busy
    delays := hd.delays
    separate := by
      change read32 _ (frame+8)+256 ≤ frame ∨ frame+32 ≤ read32 _ (frame+8)
      rw [hpointer]
      omega
    header := by
      change _ ≤ frame ∨ frame+32 ≤ _
      omega
    table := by
      change _ ≤ read32 _ (frame+8) ∨ read32 _ (frame+8)+256 ≤ _
      rw [hpointer]
      omega
    room := hroom
    most := hmost }

/-- The port from its setting up on. -/
def session (n frame first second buffer : ℕ) (rs : List Request) (m : Memory) (d : Hba) :
    Option (List (Option (List UInt8))×Memory×Hba) :=
  serveAll n buffer rs (portRebase frame first second m d).1 (portRebase frame first second m d).2

/-- A controller with a disk of three sectors, busy twice for each command and then late once. -/
def smallPort : Hba where
  disk := ⟨3, fun l k => UInt8.ofNat (l+k)⟩
  clb := 0
  fb := 0
  interrupts := 0
  tfd := 0x50
  sact := 0
  ci := 0
  busy := 0
  left := 0
  stopped := false
  delays := fun _ => (2, 1)

theorem smallPort_ready : Ready smallPort :=
  ⟨rfl, rfl, rfl, rfl, by decide, fun _ => Nat.one_lt_ofNat⟩

theorem small_apart : Apart 4096 8192 12288 16384 2 :=
  ⟨by decide, by decide, by decide, by decide, by decide, by decide, by decide⟩

/-- Two sectors written and read back. -/
def smallSession : List Request := [.write 1 2 fun k => UInt8.ofNat (k/512), .read 1 2]

theorem smallSession_fits : ∀ r ∈ smallSession, Fits smallPort.disk.size 2 r := by
  intro r hr
  rcases List.mem_cons.mp hr with rfl | hr
  · exact ⟨by decide, by decide, by decide⟩
  · rw [List.mem_singleton.mp hr]
    exact ⟨by decide, by decide, by decide⟩

end Sessions

end Vlsmc.AhciDisk
