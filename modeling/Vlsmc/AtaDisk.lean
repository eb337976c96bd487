import Vlsmc.AtaDriver
import Vlsmc.CountedLoops
import Vlsmc.FuelLimits

/-!
# The driver makes a disk of the drive

Whatever time the drive takes, every request for up to 255 sectors that exist comes to an
end, and a run of requests gives what the disk itself gives. A read of a sector that does
not exist fails; a write to one never returns.
-/

set_option autoImplicit false

namespace Vlsmc.AtaDisk
open Vlsmc.ByteMemory Vlsmc.Fat16Volume Vlsmc.AtaDriver Vlsmc.FuelLimits Vlsmc.CountedLoops

variable {d d' : Drive} {disk : Disk} {lba left s : ℕ} {buf : Memory}

section Waiting

/-- The drive some time later: it is no longer busy. -/
def Waited (d d' : Drive) : Prop := ∃ lag, d' = { d with busy := 0, lag := lag }

theorem status_busy (h : 0 < d.busy) : d.status = (0x80, { d with busy := d.busy-1 }) := if_pos h

theorem status_failed (h : d.busy = 0) (hf : d.failed = true) : d.status = (0x41, d) := by
  rw [Drive.status, if_neg (by omega), if_pos hf]

theorem status_idle (h : d.busy = 0) (hf : d.failed = false) (ht : d.transfer = .idle) :
    d.status = (0x40, d) := by
  rw [Drive.status, if_neg (by omega), if_neg (by simp [hf]), if_pos ht]

theorem status_lag (h : d.busy = 0) (hf : d.failed = false) (ht : d.transfer ≠ .idle)
    (hl : 0 < d.lag) : d.status = (0x40, { d with lag := d.lag-1 }) := by
  rw [Drive.status, if_neg (by omega), if_neg (by simp [hf]), if_neg ht, if_pos hl]

theorem status_ready (h : d.busy = 0) (hf : d.failed = false) (ht : d.transfer ≠ .idle)
    (hl : d.lag = 0) : d.status = (0x48, d) := by
  rw [Drive.status, if_neg (by omega), if_neg (by simp [hf]), if_neg ht, if_neg (by omega)]

/-- The status of a drive that is not busy shows the error bit when the last command failed. -/
theorem status_quiet (h : d.busy = 0) : Waited d d.status.2 ∧ d.status.1 &&& ataSrBsy = 0 ∧
    (d.status.1 &&& ataSrErr ≠ 0 ↔ d.failed = true) := by
  by_cases hf : d.failed = true
  · rw [status_failed h hf]
    exact ⟨⟨d.lag, by rw [← h]⟩, by simp [ataSrBsy], by simp [hf, ataSrErr]⟩
  rw [Bool.not_eq_true] at hf
  by_cases ht : d.transfer = .idle
  · rw [status_idle h hf ht]
    exact ⟨⟨d.lag, by rw [← h]⟩, by simp [ataSrBsy], by simp [hf, ataSrErr]⟩
  by_cases hl : 0 < d.lag
  · rw [status_lag h hf ht hl]
    exact ⟨⟨d.lag-1, by rw [← h]⟩, by simp [ataSrBsy], by simp [hf, ataSrErr]⟩
  · rw [status_ready h hf ht (by omega)]
    exact ⟨⟨d.lag, by rw [← h]⟩, by simp [ataSrBsy], by simp [hf, ataSrErr]⟩

/-- Each poll brings the end of the drive's work nearer. -/
theorem waitBsy_ends (d : Drive) : ∃ d', Waited d d' ∧ Ends (fun n => waitBsy n d) d' := by
  induction hb : d.busy generalizing d with
  | zero =>
    obtain ⟨hw, hbsy, -⟩ := status_quiet hb
    refine ⟨d.status.2, hw, 1, ?_⟩
    intro m hm
    obtain ⟨k, rfl⟩ := Nat.exists_eq_add_of_le' hm
    change waitBsy (k+1) d = _
    rw [waitBsy, if_neg (not_not.mpr hbsy)]
  | succ busy ih =>
    obtain ⟨d', ⟨lag, hd'⟩, n, hn⟩ := ih { d with busy := busy } rfl
    refine ⟨d', ⟨lag, hd'⟩, n+1, ?_⟩
    intro m hm
    obtain ⟨k, rfl⟩ := Nat.exists_eq_add_of_le' hm
    have hs := status_busy (d := d) (by omega)
    rw [hb, Nat.add_sub_cancel] at hs
    change waitBsy (k+n+1) d = _
    rw [waitBsy, hs, if_pos (by simp [ataSrBsy])]
    exact hn (k+n) (Nat.le_add_left n k)

theorem waitDrq_ends (h : d.busy = 0) (hf : d.failed = false) (ht : d.transfer ≠ .idle) :
    Ends (fun n => waitDrq n d) { d with lag := 0 } := by
  induction hl : d.lag generalizing d with
  | zero =>
    refine ⟨1, ?_⟩
    intro m hm
    obtain ⟨k, rfl⟩ := Nat.exists_eq_add_of_le' hm
    change waitDrq (k+1) d = _
    rw [waitDrq, status_ready h hf ht hl, if_neg (by simp [ataSrDrq]), ← hl]
  | succ lag ih =>
    obtain ⟨n, hn⟩ := ih (d := { d with lag := lag }) h hf ht rfl
    refine ⟨n+1, ?_⟩
    intro m hm
    obtain ⟨k, rfl⟩ := Nat.exists_eq_add_of_le' hm
    have hs := status_lag h hf ht (by omega)
    rw [hl, Nat.add_sub_cancel] at hs
    change waitDrq (k+n+1) d = _
    rw [waitDrq, hs, if_pos (by simp [ataSrDrq])]
    exact hn (k+n) (Nat.le_add_left n k)

/-- A drive that reports an error does not ask for data. -/
theorem waitDrq_never (h : d.busy = 0) (hf : d.failed = true) (n : ℕ) : waitDrq n d = none := by
  induction n with
  | zero => rfl
  | succ n ih => rw [waitDrq, status_failed h hf, if_pos (by simp [ataSrDrq]), ih]

end Waiting

section Words

theorem low_byte (a b : UInt8) : UInt8.ofNat (a.toNat+256*b.toNat) = a := by
  apply UInt8.toNat_inj.mp
  have ha := a.toNat_lt
  rw [UInt8.toNat_ofNat']
  omega

theorem high_byte (a b : UInt8) : UInt8.ofNat ((a.toNat+256*b.toNat)/256) = b := by
  have ha := a.toNat_lt
  have hdiv : (a.toNat+256*b.toNat)/256 = b.toNat := by omega
  rw [hdiv, UInt8.ofNat_toNat]

/-- A word copied from one memory to another. -/
theorem write16_read16 (m m' : Memory) (a b k : ℕ) : write16 m a (read16 m' b) k =
    if k = a then m' b else if k = a+1 then m' (b+1) else m k := by
  unfold write16 read16
  rw [low_byte, high_byte]

end Words

section Reading

/-- The drive has `left` sectors to give, from `lba` on, up to one that does not exist. -/
structure Reads (d : Drive) (disk : Disk) (lba left : ℕ) : Prop where
  same : d.disk = disk
  last : left = 0 → d.transfer = .idle ∧ d.failed = false
  next : 0 < left → lba < disk.size → d.transfer = .reading lba left 0 ∧ d.failed = false
  error : 0 < left → disk.size ≤ lba → d.transfer = .idle ∧ d.failed = true

theorem reads_nextRead (h : d.disk = disk) (hf : d.failed = false) (lba left : ℕ) :
    Reads (d.nextRead lba left) disk lba left := by
  unfold Drive.nextRead
  by_cases hl : left = 0
  · rw [if_pos hl]
    exact ⟨h, fun _ => ⟨rfl, hf⟩, fun h0 => by omega, fun h0 => by omega⟩
  rw [if_neg hl, h]
  by_cases hin : lba < disk.size
  · rw [if_pos hin]
    exact ⟨h, fun h0 => by omega, fun _ _ => ⟨rfl, hf⟩, fun _ hout => by omega⟩
  · rw [if_neg hin]
    exact ⟨h, fun h0 => by omega, fun _ hlt => by omega, fun _ _ => ⟨rfl, rfl⟩⟩

theorem Reads.waited (h : Reads d disk lba left) (hw : Waited d d') : Reads d' disk lba left := by
  obtain ⟨lag, rfl⟩ := hw
  exact ⟨h.same, h.last, h.next, h.error⟩

/-- Reading a word off a drive that is ready. -/
theorem inw_reading {word : ℕ} (hb : d.busy = 0) (hl : d.lag = 0) (hf : d.failed = false)
    (ht : d.transfer = .reading lba (left+1) word) :
    d.inw = (read16 (d.disk.data lba) (2*word),
      if word = 255 then d.nextRead (lba+1) left
      else { d with transfer := .reading lba (left+1) (word+1) }) := by
  have hready : d.ready = true := by simp [Drive.ready, hb, hl, hf]
  rw [Drive.inw, if_pos hready, ht]
  rfl

/-- The sector goes into its place in the buffer, and the drive goes on to the next. -/
theorem readWords_spec (s : ℕ) (buf : Memory) (hb : d.busy = 0) (hl : d.lag = 0)
    (hf : d.failed = false) (ht : d.transfer = .reading lba (left+1) 0) :
    (readWords s (buf, d)).2 =
        ({ d with transfer := .reading lba (left+1) 255 } : Drive).nextRead (lba+1) left ∧
      ∀ k, (readWords s (buf, d)).1 k =
        if 512*s ≤ k ∧ k < 512*s+512 then d.disk.data lba (k-512*s) else buf k := by
  let P : ℕ → Memory×Drive → Prop := fun i st =>
    st.2 = (if i < 256 then { d with transfer := .reading lba (left+1) i } else
      ({ d with transfer := .reading lba (left+1) 255 } : Drive).nextRead (lba+1) left) ∧
    ∀ k, st.1 k = if 512*s ≤ k ∧ k < 512*s+2*i then d.disk.data lba (k-512*s) else buf k
  have hstart : P 0 (buf, d) := by
    constructor
    · rw [if_pos (by decide), ← ht]
    · intro k
      rw [if_neg (by omega)]
  have hround : ∀ i < 256, ∀ st, P i st →
      P (i+1) (write16 st.1 (2*(s*256+i)) st.2.inw.1, st.2.inw.2) := by
    intro i hi st hst
    obtain ⟨hd, hbuf⟩ := hst
    rw [if_pos hi] at hd
    have htransfer : st.2.transfer = .reading lba (left+1) i := by rw [hd]
    have hinw := inw_reading (by rw [hd]; exact hb) (by rw [hd]; exact hl) (by rw [hd]; exact hf)
      htransfer
    constructor
    · rw [hinw, hd]
      by_cases hlast : i = 255
      · rw [if_pos hlast, if_neg (by omega), hlast]
      · rw [if_neg hlast, if_pos (by omega)]
    · intro k
      have hdata : st.2.disk = d.disk := by rw [hd]
      rw [hinw]
      change write16 st.1 (2*(s*256+i)) (read16 (st.2.disk.data lba) (2*i)) k = _
      rw [write16_read16, hdata]
      by_cases h1 : k = 2*(s*256+i)
      · rw [if_pos h1, if_pos (by omega)]
        congr 1
        omega
      by_cases h2 : k = 2*(s*256+i)+1
      · rw [if_neg h1, if_pos h2, if_pos (by omega)]
        congr 1
        omega
      · rw [if_neg h1, if_neg h2, hbuf]
        have hiff : (512*s ≤ k ∧ k < 512*s+2*i) ↔ (512*s ≤ k ∧ k < 512*s+2*(i+1)) := by omega
        simp only [hiff]
  exact foldl_range hstart 256 hround

/-- The buffer after sectors `s` to `s+left` were read from `lba` on. -/
def filled (disk : Disk) (lba s left : ℕ) (buf : Memory) : Memory := fun k =>
  if 512*s ≤ k ∧ k < 512*(s+left) then disk.data (lba+k/512) (k%512) else buf k

theorem readLoop_ends (lba left s : ℕ) (buf : Memory) (d : Drive) (h : Reads d disk (lba+s) left) :
    ∃ buf' d', Ends (fun n => readLoop n left s (buf, d))
        (decide (left = 0 ∨ lba+s+left ≤ disk.size), buf', d') ∧
      d'.disk = disk ∧ d'.transfer = .idle ∧
      (lba+s+left ≤ disk.size → buf' = filled disk lba s left buf) := by
  induction left generalizing s buf d with
  | zero =>
    refine ⟨buf, d, ends_of_eq fun m => by rw [readLoop]; simp, h.same, (h.last rfl).1, ?_⟩
    intro _
    funext k
    rw [filled, if_neg (by omega)]
  | succ left ih =>
    obtain ⟨d₁, hw₁, hbsy⟩ := waitBsy_ends d
    have h₁ := h.waited hw₁
    have hb₁ : d₁.busy = 0 := by
      obtain ⟨lag, rfl⟩ := hw₁
      rfl
    obtain ⟨hw₂, -, herr⟩ := status_quiet hb₁
    have h₂ := h₁.waited hw₂
    have hunfold : ∀ n, readLoop n (left+1) s (buf, d) = (waitBsy n d).bind fun d =>
        if d.status.1 &&& ataSrErr ≠ 0 then some (false, buf, d.status.2)
        else (waitDrq n d.status.2).bind fun d => readLoop n left (s+1) (readWords s (buf, d)) := by
      intro n
      rw [readLoop]
      rfl
    by_cases hin : lba+s < disk.size
    case neg =>
      -- the sector does not exist
      obtain ⟨hidle, hfail⟩ := h₂.error (Nat.succ_pos left) (by omega)
      have hfail₁ := (h₁.error (Nat.succ_pos left) (by omega)).2
      refine ⟨buf, d₁.status.2, ?_, h₂.same, hidle, fun hle => by omega⟩
      have hno : decide (left+1 = 0 ∨ lba+s+(left+1) ≤ disk.size) = false := by
        rw [decide_eq_false_iff_not]
        omega
      rw [hno]
      apply Ends.congr (Ends.bind hbsy (ends_of_eq _)) hunfold
      intro n
      exact if_pos (herr.mpr hfail₁)
    obtain ⟨hreading, hok⟩ := h₂.next (Nat.succ_pos left) hin
    have hok₁ := (h₁.next (Nat.succ_pos left) hin).2
    have hb₂ : d₁.status.2.busy = 0 := by
      obtain ⟨lag, he⟩ := hw₂
      rw [he]
    have hdrq := waitDrq_ends hb₂ hok (by rw [hreading]; simp)
    obtain ⟨d₃, hd₃⟩ : ∃ d₃ : Drive, d₃ = { d₁.status.2 with lag := 0 } := ⟨_, rfl⟩
    rw [← hd₃] at hdrq
    have hok₃ : d₃.failed = false := by rw [hd₃]; exact hok
    have hsame₃ : d₃.disk = disk := by rw [hd₃]; exact h₂.same
    have hreading₃ : d₃.transfer = .reading (lba+s) (left+1) 0 := by rw [hd₃]; exact hreading
    obtain ⟨hdrive, hbuf⟩ := readWords_spec s buf (by rw [hd₃]; exact hb₂) (by rw [hd₃]) hok₃ hreading₃
    have hnext : Reads (readWords s (buf, d₃)).2 disk (lba+(s+1)) left := by
      rw [hdrive]
      exact reads_nextRead (d := { d₃ with transfer := _ }) hsame₃ hok₃ _ _
    obtain ⟨buf', d', hends, hdisk, hidle, hfilled⟩ :=
      ih (s+1) (readWords s (buf, d₃)).1 (readWords s (buf, d₃)).2 hnext
    refine ⟨buf', d', ?_, hdisk, hidle, ?_⟩
    · have hsame : decide (left = 0 ∨ lba+(s+1)+left ≤ disk.size) =
          decide (left+1 = 0 ∨ lba+s+(left+1) ≤ disk.size) := by
        apply decide_eq_decide.mpr
        omega
      simp only [hsame, Prod.mk.eta] at hends
      have hrest : Ends (fun n => (waitDrq n d₁.status.2).bind fun d =>
          readLoop n left (s+1) (readWords s (buf, d)))
          (decide (left+1 = 0 ∨ lba+s+(left+1) ≤ disk.size), buf', d') :=
        Ends.bind (g := fun n d => readLoop n left (s+1) (readWords s (buf, d))) hdrq hends
      apply Ends.congr (Ends.bind hbsy (Ends.congr hrest _)) hunfold
      intro n
      exact if_neg (by rw [herr, hok₁]; simp)
    · intro hle
      rw [hfilled (by omega)]
      funext k
      unfold filled
      rw [hbuf, hsame₃]
      by_cases h1 : 512*(s+1) ≤ k ∧ k < 512*(s+1+left)
      · rw [if_pos h1, if_pos (by omega)]
      by_cases h2 : 512*s ≤ k ∧ k < 512*s+512
      · have hdiv : k/512 = s := by omega
        have hmod : k%512 = k-512*s := by omega
        rw [if_neg h1, if_pos h2, if_pos (by omega), hdiv, hmod]
      · rw [if_neg h1, if_neg h2, if_neg (by omega)]

end Reading

section Writing

/-- The drive takes `left` sectors, from `lba` on, up to one that does not exist. -/
structure Writes (d : Drive) (disk : Disk) (lba left : ℕ) : Prop where
  same : d.disk = disk
  last : left = 0 → d.transfer = .idle
  next : 0 < left → lba < disk.size → d.transfer = .writing lba left 0 ∧ d.failed = false
  error : 0 < left → disk.size ≤ lba → d.failed = true

theorem writes_nextWrite (h : d.disk = disk) (hf : d.failed = false) (lba left : ℕ) :
    Writes (d.nextWrite lba left) disk lba left := by
  unfold Drive.nextWrite
  by_cases hl : left = 0
  · rw [if_pos hl]
    exact ⟨h, fun _ => rfl, fun h0 => by omega, fun h0 => by omega⟩
  rw [if_neg hl, h]
  by_cases hin : lba < disk.size
  · rw [if_pos hin]
    exact ⟨h, fun h0 => by omega, fun _ _ => ⟨rfl, hf⟩, fun _ hout => by omega⟩
  · rw [if_neg hin]
    exact ⟨h, fun h0 => by omega, fun _ hlt => by omega, fun _ _ => rfl⟩

theorem Writes.waited (h : Writes d disk lba left) (hw : Waited d d') : Writes d' disk lba left := by
  obtain ⟨lag, rfl⟩ := hw
  exact ⟨h.same, h.last, h.next, h.error⟩

/-- Two disks with the same sectors. -/
def Agree (x y : Disk) : Prop := x.size = y.size ∧ ∀ l k, k < 512 → x.data l k = y.data l k

theorem agree_write {x y : Disk} {b c : Memory} (h : Agree x y) (hb : ∀ k < 512, b k = c k) (l : ℕ) :
    Agree (x.write l b) (y.write l c) := by
  unfold Disk.write
  rw [h.1]
  split_ifs
  · refine ⟨rfl, ?_⟩
    intro m k hk
    by_cases hm : m = l
    · simp only [hm, if_true]
      exact hb k hk
    · simp only [hm, if_false]
      exact h.2 m k hk
  · exact h

/-- Writing a word to a drive that is ready. -/
theorem outw_writing {word v : ℕ} (hb : d.busy = 0) (hl : d.lag = 0) (hf : d.failed = false)
    (ht : d.transfer = .writing lba (left+1) word) :
    d.outw v =
      let b := write16 d.buffer (2*word) v
      if word = 255 then
        ({ d with buffer := b, disk := d.disk.write lba b } : Drive).nextWrite (lba+1) left
      else { d with buffer := b, transfer := .writing lba (left+1) (word+1) } := by
  have hready : d.ready = true := by simp [Drive.ready, hb, hl, hf]
  rw [Drive.outw, if_pos hready, ht]
  rfl

/-- The sector goes from its place in the buffer to the disk. -/
theorem writeWords_spec (s : ℕ) (buf : Memory) (hb : d.busy = 0) (hl : d.lag = 0)
    (hf : d.failed = false) (ht : d.transfer = .writing lba (left+1) 0) :
    ∃ b, (∀ k < 512, b k = buf (512*s+k)) ∧ writeWords s buf d =
      ({ d with transfer := .writing lba (left+1) 255, buffer := b, disk :=
        d.disk.write lba b } : Drive).nextWrite (lba+1) left := by
  let P : ℕ → Drive → Prop := fun i r => ∃ b, (∀ k < 2*i, b k = buf (512*s+k)) ∧
    r = if i < 256 then { d with transfer := .writing lba (left+1) i, buffer := b } else
      ({ d with transfer := .writing lba (left+1) 255, buffer := b, disk :=
        d.disk.write lba b } : Drive).nextWrite (lba+1) left
  have hstart : P 0 d := by
    refine ⟨d.buffer, fun k hk => by omega, ?_⟩
    rw [if_pos (by decide), ← ht]
  have hround : ∀ i < 256, ∀ r, P i r → P (i+1) (r.outw (read16 buf (2*(s*256+i)))) := by
    intro i hi r hr
    obtain ⟨b, hbuf, hd⟩ := hr
    rw [if_pos hi] at hd
    have htransfer : r.transfer = .writing lba (left+1) i := by rw [hd]
    have hout := outw_writing (v := read16 buf (2*(s*256+i))) (by rw [hd]; exact hb)
      (by rw [hd]; exact hl) (by rw [hd]; exact hf) htransfer
    have hbuffer : r.buffer = b := by rw [hd]
    refine ⟨write16 b (2*i) (read16 buf (2*(s*256+i))), ?_, ?_⟩
    · intro k hk
      rw [write16_read16]
      by_cases h1 : k = 2*i
      · rw [if_pos h1]
        congr 1
        omega
      by_cases h2 : k = 2*i+1
      · rw [if_neg h1, if_pos h2]
        congr 1
        omega
      · rw [if_neg h1, if_neg h2]
        exact hbuf k (by omega)
    · rw [hout, hbuffer]
      by_cases hlast : i = 255
      · simp only [if_pos hlast]
        rw [if_neg (by omega), hd, hlast]
      · simp only [if_neg hlast]
        rw [if_pos (by omega), hd]
  exact foldl_range hstart 256 hround

/-- The disk after `left` sectors of the buffer, from `s` on, were written. -/
def writeRange (lba : ℕ) (buf : Memory) : ℕ → ℕ → Disk → Disk
  | 0, _, disk => disk
  | left+1, s, disk => writeRange lba buf left (s+1) (disk.write (lba+s) fun k => buf (512*s+k))

theorem agree_writeRange {x y : Disk} (h : Agree x y) (left s : ℕ) :
    Agree (writeRange lba buf left s x) (writeRange lba buf left s y) := by
  induction left generalizing s x y with
  | zero => exact h
  | succ left ih => exact ih (agree_write h (fun _ _ => rfl) _) (s+1)

theorem agree_refl (x : Disk) : Agree x x := ⟨rfl, fun _ _ _ => rfl⟩

theorem Agree.trans {x y z : Disk} (h : Agree x y) (h' : Agree y z) : Agree x z :=
  ⟨h.1.trans h'.1, fun l k hk => (h.2 l k hk).trans (h'.2 l k hk)⟩

theorem writeLoop_ends (buf : Memory) (lba left s : ℕ) (d : Drive) (h : Writes d disk (lba+s) left)
    (hin : lba+s+left ≤ disk.size) :
    ∃ d', Ends (fun n => writeLoop n buf left s d) d' ∧ d'.transfer = .idle ∧
      Agree d'.disk (writeRange lba buf left s disk) := by
  induction left generalizing s d disk with
  | zero =>
    refine ⟨d, ends_of_eq fun m => by rw [writeLoop], h.last rfl, ?_⟩
    rw [h.same]
    exact agree_refl disk
  | succ left ih =>
    obtain ⟨d₁, hw₁, hbsy⟩ := waitBsy_ends d
    have h₁ := h.waited hw₁
    obtain ⟨hwriting, hok⟩ := h₁.next (Nat.succ_pos left) (by omega)
    have hb₁ : d₁.busy = 0 := by
      obtain ⟨lag, rfl⟩ := hw₁
      rfl
    have hdrq := waitDrq_ends hb₁ hok (by rw [hwriting]; simp)
    obtain ⟨d₂, hd₂⟩ : ∃ d₂ : Drive, d₂ = { d₁ with lag := 0 } := ⟨_, rfl⟩
    rw [← hd₂] at hdrq
    have hok₂ : d₂.failed = false := by rw [hd₂]; exact hok
    have hsame₂ : d₂.disk = disk := by rw [hd₂]; exact h₁.same
    have hwriting₂ : d₂.transfer = .writing (lba+s) (left+1) 0 := by rw [hd₂]; exact hwriting
    obtain ⟨b, hb, hdrive⟩ := writeWords_spec s buf (by rw [hd₂]; exact hb₁) (by rw [hd₂]) hok₂ hwriting₂
    have hnext : Writes (writeWords s buf d₂) (disk.write (lba+s) b) (lba+(s+1)) left := by
      rw [hdrive, hsame₂]
      exact writes_nextWrite (d := { d₂ with transfer := _, buffer := b, disk := _ }) rfl hok₂ _ _
    have hsize : (disk.write (lba+s) b).size = disk.size := by
      unfold Disk.write
      split_ifs <;> rfl
    obtain ⟨d', hends, hidle, hagree⟩ := ih (s+1) (writeWords s buf d₂) hnext (by omega)
    refine ⟨d', ?_, hidle, ?_⟩
    · have hrest : Ends (fun n => (waitDrq n d₁).bind fun d =>
          writeLoop n buf left (s+1) (writeWords s buf d)) d' :=
        Ends.bind (g := fun n d => writeLoop n buf left (s+1) (writeWords s buf d)) hdrq hends
      apply Ends.congr (Ends.bind (g := fun n d => (waitDrq n d).bind fun d =>
        writeLoop n buf left (s+1) (writeWords s buf d)) hbsy hrest)
      intro n
      rw [writeLoop]
      rfl
    · exact hagree.trans (agree_writeRange (agree_write (agree_refl disk) hb _) left (s+1))

/-- A wait that ends finds the drive no longer busy. -/
theorem waitBsy_some {n : ℕ} (h : waitBsy n d = some d') : Waited d d' := by
  induction n generalizing d with
  | zero => cases h
  | succ n ih =>
    rw [waitBsy] at h
    by_cases hb : 0 < d.busy
    · have hs := status_busy hb
      rw [hs, if_pos (by simp [ataSrBsy])] at h
      obtain ⟨lag, hd'⟩ := ih h
      exact ⟨lag, hd'⟩
    · obtain ⟨hw, hbsy, -⟩ := status_quiet (d := d) (by omega)
      rw [if_neg (not_not.mpr hbsy)] at h
      rw [← Option.some.inj h]
      exact hw

theorem waitDrq_some {n : ℕ} (hb : d.busy = 0) (hf : d.failed = false) (ht : d.transfer ≠ .idle)
    (h : waitDrq n d = some d') : d' = { d with lag := 0 } := by
  obtain ⟨k, hk⟩ := waitDrq_ends hb hf ht
  have hmore : ∀ m, n ≤ m → waitDrq m d = some d' := by
    clear hk ht hf hb
    induction n generalizing d with
    | zero => cases h
    | succ n ih =>
      intro m hm
      obtain ⟨j, rfl⟩ : ∃ j, m = j+1 := ⟨m-1, by omega⟩
      rw [waitDrq] at h ⊢
      split_ifs at h ⊢
      · exact ih h j (by omega)
      · exact h
  have hl := hmore (max n k) (le_max_left n k)
  have hr := hk (max n k) (le_max_right n k)
  exact Option.some.inj (hl.symm.trans hr)

/-- The loop never gets past a sector that does not exist. -/
theorem writeLoop_never (lba left s : ℕ) (d : Drive) (h : Writes d disk (lba+s) left) (hl : 0 < left)
    (hout : disk.size < lba+s+left) (n : ℕ) : writeLoop n buf left s d = none := by
  induction left generalizing s d disk with
  | zero => exact absurd hl (Nat.lt_irrefl 0)
  | succ left ih =>
    have hunfold : writeLoop n buf (left+1) s d = (waitBsy n d).bind fun d => (waitDrq n d).bind
        fun d => writeLoop n buf left (s+1) (writeWords s buf d) := by
      rw [writeLoop]
      rfl
    rw [hunfold]
    cases hbsy : waitBsy n d with
    | none => rfl
    | some d₁ =>
      have hw₁ := waitBsy_some hbsy
      have h₁ := h.waited hw₁
      have hb₁ : d₁.busy = 0 := by
        obtain ⟨lag, rfl⟩ := hw₁
        rfl
      rw [Option.bind_some]
      by_cases hin : lba+s < disk.size
      case neg =>
        rw [waitDrq_never hb₁ (h₁.error hl (by omega)), Option.bind_none]
      obtain ⟨hwriting, hok⟩ := h₁.next hl hin
      cases hdrq : waitDrq n d₁ with
      | none => rfl
      | some d₂ =>
        have hd₂ := waitDrq_some hb₁ hok (by rw [hwriting]; simp) hdrq
        have hok₂ : d₂.failed = false := by rw [hd₂]; exact hok
        have hsame₂ : d₂.disk = disk := by rw [hd₂]; exact h₁.same
        have hwriting₂ : d₂.transfer = .writing (lba+s) (left+1) 0 := by rw [hd₂]; exact hwriting
        obtain ⟨b, hb, hdrive⟩ := writeWords_spec s buf (by rw [hd₂]; exact hb₁) (by rw [hd₂]) hok₂
          hwriting₂
        have hnext : Writes (writeWords s buf d₂) (disk.write (lba+s) b) (lba+(s+1)) left := by
          rw [hdrive, hsame₂]
          exact writes_nextWrite (d := { d₂ with transfer := _, buffer := b, disk := _ }) rfl hok₂ _ _
        have hsize : (disk.write (lba+s) b).size = disk.size := by
          unfold Disk.write
          split_ifs
          rfl
        rw [Option.bind_some]
        exact ih (s+1) _ hnext (by omega) (by omega)

end Writing

section Commands

theorem select_bits (x : ℕ) (h : x < 16) : (0xE0 ||| x)%16 = x := by
  interval_cases x <;> rfl

/-- The drive with the registers of a command. -/
def addressed (d : Drive) (lba count : ℕ) : Drive :=
  { d with
    select := 0xE0 ||| lba/16777216%16
    secCount := count
    lbaLo := lba%256
    lbaMid := lba/256%256
    lbaHi := lba/65536%256
    failed := false }

theorem issue_command (hb : d.busy = 0) (lba count c : ℕ) :
    issue d lba count c = (addressed d lba count).command c := by
  simp [issue, Drive.outb, hb, addressed, Drive.command]

/-- The drive decodes the address and the count that the driver encodes. -/
theorem addressed_decodes {count : ℕ} (hlba : lba < 2^28) (hc : 0 < count) :
    (addressed d lba count).lba = lba ∧ (addressed d lba count).count = count := by
  constructor
  · change lba%256+256*(lba/256%256)+65536*(lba/65536%256)+
      16777216*((0xE0 ||| lba/16777216%16)%16) = lba
    rw [select_bits _ (Nat.mod_lt _ (by decide))]
    omega
  · exact if_neg (by change count ≠ 0; omega)

theorem issue_reads (hd : d.disk = disk) (hb : d.busy = 0) {count : ℕ} (hlba : lba < 2^28)
    (hc : 0 < count) : Reads (issue d lba count 0x20) disk lba count := by
  obtain ⟨hl, hn⟩ := addressed_decodes (d := d) hlba hc
  have he : issue d lba count 0x20 = (addressed d lba count).nextRead lba count := by
    rw [issue_command hb]
    change (addressed d lba count).nextRead (addressed d lba count).lba
      (addressed d lba count).count = _
    rw [hl, hn]
  rw [he]
  exact reads_nextRead (d := addressed d lba count) hd rfl lba count

theorem issue_writes (hd : d.disk = disk) (hb : d.busy = 0) {count : ℕ} (hlba : lba < 2^28)
    (hc : 0 < count) : Writes (issue d lba count 0x30) disk lba count := by
  obtain ⟨hl, hn⟩ := addressed_decodes (d := d) hlba hc
  have he : issue d lba count 0x30 = (addressed d lba count).nextWrite lba count := by
    rw [issue_command hb]
    change (addressed d lba count).nextWrite (addressed d lba count).lba
      (addressed d lba count).count = _
    rw [hl, hn]
  rw [he]
  exact writes_nextWrite (d := addressed d lba count) hd rfl lba count

/-- A read ends; it succeeds when the sectors exist, and then the buffer has them. -/
theorem readSectors_ends (hd : d.disk = disk) {count : ℕ} (hlba : lba < 2^28) (hc : 0 < count)
    (buf : Memory) : ∃ buf' d', Ends (fun n => readSectors n true lba count buf d)
        (decide (lba+count ≤ disk.size), buf', d') ∧ d'.disk = disk ∧
      (lba+count ≤ disk.size → buf' = filled disk lba 0 count buf) := by
  obtain ⟨d₁, hw₁, hbsy⟩ := waitBsy_ends d
  obtain ⟨lag, rfl⟩ := hw₁
  have hreads := issue_reads (d := { d with busy := 0, lag := lag }) hd rfl hlba hc
  obtain ⟨buf', d', hends, hdisk, -, hfilled⟩ := readLoop_ends lba count 0 buf _ hreads
  refine ⟨buf', d', ?_, hdisk, hfilled⟩
  have hok : decide (count = 0 ∨ lba+0+count ≤ disk.size) = decide (lba+count ≤ disk.size) := by
    apply decide_eq_decide.mpr
    omega
  rw [hok] at hends
  exact Ends.bind (g := fun n d => readLoop n count 0 (buf, issue d lba count 0x20)) hbsy hends

/-- A write to sectors that exist ends, and the disk has them. -/
theorem writeSectors_ends (hd : d.disk = disk) {count : ℕ} (hlba : lba < 2^28) (hc : 0 < count)
    (hin : lba+count ≤ disk.size) (buf : Memory) :
    ∃ d', Ends (fun n => writeSectors n true lba count buf d) (true, d') ∧
      Agree d'.disk (writeRange lba buf count 0 disk) := by
  obtain ⟨d₁, hw₁, hbsy⟩ := waitBsy_ends d
  obtain ⟨lag, rfl⟩ := hw₁
  have hwrites := issue_writes (d := { d with busy := 0, lag := lag }) hd rfl hlba hc
  obtain ⟨d₂, hends, -, hagree⟩ := writeLoop_ends buf lba count 0 _ hwrites hin
  obtain ⟨d₃, hw₃, hbsy₃⟩ := waitBsy_ends d₂
  obtain ⟨lag₃, rfl⟩ := hw₃
  obtain ⟨d₄, hw₄, hbsy₄⟩ := waitBsy_ends (({ d₂ with busy := 0, lag := lag₃ } : Drive).outb 7 0xE7)
  refine ⟨d₄, ?_, ?_⟩
  · have hflush : Ends (fun n => (waitBsy n (({ d₂ with busy := 0, lag := lag₃ } : Drive).outb 7 0xE7)).bind
        fun d => some (true, d)) (true, d₄) := Ends.bind hbsy₄ (ends_of_eq fun _ => rfl)
    have hrest := Ends.bind (g := fun n d => (waitBsy n (d.outb 7 0xE7)).bind fun d =>
      some (true, d)) hbsy₃ hflush
    have hloop := Ends.bind (g := fun n d => (waitBsy n d).bind fun d =>
      (waitBsy n (d.outb 7 0xE7)).bind fun d => some (true, d)) hends hrest
    exact Ends.bind (g := fun n d => (writeLoop n buf count 0 (issue d lba count 0x30)).bind fun d =>
      (waitBsy n d).bind fun d => (waitBsy n (d.outb 7 0xE7)).bind fun d => some (true, d)) hbsy hloop
  · obtain ⟨lag₄, rfl⟩ := hw₄
    exact hagree

/-- A write that goes past the end of the drive never returns. -/
theorem writeSectors_never (hd : d.disk = disk) {count : ℕ} (hlba : lba < 2^28) (hc : 0 < count)
    (hout : disk.size < lba+count) (buf : Memory) (n : ℕ) :
    writeSectors n true lba count buf d = none := by
  have hunfold : writeSectors n true lba count buf d = (waitBsy n d).bind fun d =>
      (writeLoop n buf count 0 (issue d lba count 0x30)).bind fun d =>
        (waitBsy n d).bind fun d => (waitBsy n (d.outb 7 0xE7)).bind fun d => some (true, d) := rfl
  rw [hunfold]
  cases hbsy : waitBsy n d with
  | none => rfl
  | some d₁ =>
    obtain ⟨lag, rfl⟩ := waitBsy_some hbsy
    have hwrites := issue_writes (d := { d with busy := 0, lag := lag }) hd rfl hlba hc
    rw [Option.bind_some, writeLoop_never lba count 0 _ hwrites hc hout n, Option.bind_none]

end Commands

section Identification

theorem status_frame (d : Drive) : d.status.1 ≠ 0 ∧
    ∃ busy lag, d.status.2 = { d with busy := busy, lag := lag } := by
  unfold Drive.status
  split_ifs
  · exact ⟨Nat.succ_ne_zero _, d.busy-1, d.lag, rfl⟩
  · exact ⟨Nat.succ_ne_zero _, d.busy, d.lag, rfl⟩
  · exact ⟨Nat.succ_ne_zero _, d.busy, d.lag, rfl⟩
  · exact ⟨Nat.succ_ne_zero _, d.busy, d.lag-1, rfl⟩
  · exact ⟨Nat.succ_ne_zero _, d.busy, d.lag, rfl⟩

theorem waitIdentify_ends (h : d.busy = 0) (hf : d.failed = false) (ht : d.transfer ≠ .idle) :
    Ends (fun n => waitIdentify n d) (true, { d with lag := 0 }) := by
  induction hl : d.lag generalizing d with
  | zero =>
    refine ⟨1, ?_⟩
    intro m hm
    obtain ⟨k, rfl⟩ := Nat.exists_eq_add_of_le' hm
    change waitIdentify (k+1) d = _
    rw [waitIdentify, status_ready h hf ht hl, if_neg (by simp [ataSrErr]),
      if_pos (by simp [ataSrDrq]), ← hl]
  | succ lag ih =>
    obtain ⟨n, hn⟩ := ih (d := { d with lag := lag }) h hf ht rfl
    refine ⟨n+1, ?_⟩
    intro m hm
    obtain ⟨k, rfl⟩ := Nat.exists_eq_add_of_le' hm
    have hs := status_lag h hf ht (by omega)
    rw [hl, Nat.add_sub_cancel] at hs
    change waitIdentify (k+n+1) d = _
    rw [waitIdentify, hs, if_neg (by simp [ataSrErr]), if_neg (by simp [ataSrDrq])]
    exact hn (k+n) (Nat.le_add_left n k)

theorem skipWords_idle (hb : d.busy = 0) (hl : d.lag = 0) (hf : d.failed = false)
    (ht : d.transfer = .identifying 0) : skipWords d = { d with transfer := .idle } := by
  let P : ℕ → Drive → Prop := fun i r =>
    r = { d with transfer := if i < 256 then .identifying i else .idle }
  have hstart : P 0 d := by
    change d = { d with transfer := _ }
    rw [if_pos (by decide), ← ht]
  have hround : ∀ i < 256, ∀ r, P i r → P (i+1) r.inw.2 := by
    intro i hi r hr
    change r = _ at hr
    rw [if_pos hi] at hr
    have hready : r.ready = true := by
      rw [hr]
      simp [Drive.ready, hb, hl, hf]
    have htransfer : r.transfer = .identifying i := by rw [hr]
    change r.inw.2 = _
    rw [Drive.inw, if_pos hready, htransfer]
    by_cases hlast : i = 255
    · simp only [if_pos hlast, hr]
      rw [if_neg (by omega)]
    · simp only [if_neg hlast, hr]
      rw [if_pos (by omega)]
  have hend := foldl_range hstart 256 hround
  change _ = { d with transfer := _ } at hend
  rwa [if_neg (by decide)] at hend

/-- `init` finds the drive, if it is not busy at that time. -/
theorem init_ends (hb : d.busy = 0) : ∃ d', Ends (fun n => init n d) (true, d') ∧ d'.disk = d.disk := by
  have hissued : (identify d).disk = d.disk ∧ (identify d).transfer = .identifying 0 ∧
      (identify d).failed = false ∧ (identify d).lbaMid = 0 ∧ (identify d).lbaHi = 0 := by
    simp [identify, Drive.outb, hb, Drive.command, Drive.work]
  obtain ⟨e, he⟩ : ∃ e, e = identify d := ⟨_, rfl⟩
  rw [← he] at hissued
  obtain ⟨hdisk, htransfer, hok, hmid, hhi⟩ := hissued
  obtain ⟨hne, busy, lag, hd₁⟩ := status_frame e
  obtain ⟨d₂, ⟨lag₂, hd₂⟩, n, hn⟩ := waitBsy_ends e.status.2
  rw [hd₁] at hd₂
  obtain ⟨d₃, hd₃⟩ : ∃ d₃ : Drive, d₃ = { d₂ with lag := 0 } := ⟨_, rfl⟩
  obtain ⟨k, hk⟩ := waitIdentify_ends (d := d₂) (by rw [hd₂]) (by rw [hd₂]; exact hok)
    (by rw [hd₂]; simp [htransfer])
  have hskip := skipWords_idle (d := d₃) (by rw [hd₃, hd₂]) (by rw [hd₃]) (by rw [hd₃, hd₂]; exact hok)
    (by rw [hd₃, hd₂]; exact htransfer)
  have hsignature : ¬(d₂.lbaMid ≠ 0 ∨ d₂.lbaHi ≠ 0) := by
    rw [hd₂]
    simp [hmid, hhi]
  refine ⟨skipWords d₃, ⟨n+k, ?_⟩, ?_⟩
  · intro i hi
    have hwait : waitBsy i e.status.2 = some d₂ := hn i (by omega)
    have hfound : waitIdentify i d₂ = some (true, d₃) := by
      rw [hd₃]
      exact hk i (by omega)
    change init i d = _
    unfold init
    dsimp only
    rw [← he, if_neg hne, hwait, Option.bind_some, if_neg hsignature, hfound, Option.map_some]
    simp only [if_true]
  · rw [hskip, hd₃, hd₂]
    exact hdisk

end Identification

section Requests

inductive Request
  | read (lba count : ℕ)
  | write (lba count : ℕ) (buf : Memory)

/-- What the drive can address, and for a write also what there is. -/
def Request.Fits (size : ℕ) : Request → Prop
  | .read lba count => lba < 2^28 ∧ 0 < count ∧ count < 256
  | .write lba count _ => lba < 2^28 ∧ 0 < count ∧ count < 256 ∧ lba+count ≤ size

def bytes (s : Memory) : List UInt8 := (List.range 512).map s

/-- A request to the driver: the bytes read, or none when it fails. -/
def serve (n : ℕ) (d : Drive) : Request → Option (Option (List UInt8)×Drive)
  | .read lba count => (readSectors n true lba count (fun _ => 0) d).bind fun r =>
    some (if r.1 then some ((List.range (512*count)).map r.2.1) else none, r.2.2)
  | .write lba count buf => (writeSectors n true lba count buf d).bind fun r =>
    some (if r.1 then some [] else none, r.2)

def serveAll (n : ℕ) : List Request → Drive → Option (List (Option (List UInt8))×Drive)
  | [], d => some ([], d)
  | r::rs, d => (serve n d r).bind fun x => (serveAll n rs x.2).bind fun y => some (x.1::y.1, y.2)

/-- The same request to the disk, one sector after the other. -/
def answer (disk : Disk) : Request → Option (List UInt8)×Disk
  | .read lba count =>
    (((List.range count).mapM fun s => disk.read (lba+s)).map fun ss => ss.flatMap bytes, disk)
  | .write lba count buf => (some [], (List.range count).foldl (fun disk s =>
    disk.write (lba+s) fun k => buf (512*s+k)) disk)

def answers : Disk → List Request → List (Option (List UInt8))×Disk
  | disk, [] => ([], disk)
  | disk, r::rs =>
    ((answer disk r).1::(answers (answer disk r).2 rs).1, (answers (answer disk r).2 rs).2)

theorem readAll (disk : Disk) (ls : List ℕ) : ls.mapM disk.read =
    if ∀ l ∈ ls, l < disk.size then some (ls.map disk.data) else none := by
  induction ls with
  | nil => simp
  | cons l ls ih =>
    rw [List.mapM_cons, ih]
    by_cases hl : l < disk.size
    · have hread : disk.read l = some (disk.data l) := if_pos hl
      by_cases hls : ∀ m ∈ ls, m < disk.size
      · rw [hread, if_pos hls, if_pos (by simpa using ⟨hl, hls⟩)]
        rfl
      · rw [hread, if_neg hls, if_neg fun hall => hls fun m hm => hall m (List.mem_cons_of_mem l hm)]
        rfl
    · have hread : disk.read l = none := if_neg hl
      have hno : ¬∀ m ∈ l::ls, m < disk.size := fun hall => hl (hall l List.mem_cons_self)
      rw [if_neg hno, hread]
      rfl

theorem bytes_flat {f : ℕ → UInt8} {g : ℕ → Memory} (count : ℕ)
    (h : ∀ k < 512*count, f k = g (k/512) (k%512)) :
    (List.range (512*count)).map f = (List.range count).flatMap fun s => bytes (g s) := by
  induction count with
  | zero => rfl
  | succ count ih =>
    have hlast : List.range (count+1) = List.range count++[count] := List.range_succ
    have hsector : ((List.range 512).map fun k => 512*count+k).map f = bytes (g count) := by
      rw [List.map_map, bytes]
      apply List.map_congr_left
      intro k hk
      have hk := List.mem_range.mp hk
      have hdiv : (512*count+k)/512 = count := by omega
      have hmod : (512*count+k)%512 = k := by omega
      rw [Function.comp, h _ (by omega), hdiv, hmod]
    rw [Nat.mul_succ, List.range_add, List.map_append, ih fun k hk => h k (by omega), hlast,
      List.flatMap_append, List.flatMap_singleton, hsector]

/-- A read of the disk as one range of bytes. -/
theorem answer_read {count : ℕ} (hc : 0 < count) : (answer disk (.read lba count)).1 =
    if lba+count ≤ disk.size then
      some ((List.range (512*count)).map fun k => disk.data (lba+k/512) (k%512)) else none := by
  have hmap : (List.range count).mapM (fun s => disk.read (lba+s)) =
      ((List.range count).map fun s => lba+s).mapM disk.read := by
    rw [List.mapM_map]
    rfl
  have hall : (∀ l ∈ (List.range count).map fun s => lba+s, l < disk.size) ↔
      lba+count ≤ disk.size := by
    simp only [List.mem_map, List.mem_range]
    constructor
    · intro h
      have hlast := h (lba+(count-1)) ⟨count-1, by omega, rfl⟩
      omega
    · rintro h l ⟨s, hs, rfl⟩
      omega
  rw [answer, hmap, readAll]
  simp only [hall]
  split_ifs
  · rw [Option.map_some, List.map_map, List.flatMap_map]
    congr 1
    exact (bytes_flat (g := fun s => disk.data (lba+s)) count fun k hk => rfl).symm
  · rfl

theorem foldl_writeRange (count : ℕ) : (List.range count).foldl (fun disk s =>
    disk.write (lba+s) fun k => buf (512*s+k)) disk = writeRange lba buf count 0 disk := by
  have hgen : ∀ count s disk, (List.range' s count).foldl (fun disk s =>
      disk.write (lba+s) fun k => buf (512*s+k)) disk = writeRange lba buf count s disk := by
    intro count
    induction count with
    | zero => exact fun s disk => rfl
    | succ count ih =>
      intro s disk
      rw [List.range'_succ, List.foldl_cons, ih, writeRange]
  rw [List.range_eq_range']
  exact hgen count 0 disk

theorem writeRange_size (count s : ℕ) (disk : Disk) :
    (writeRange lba buf count s disk).size = disk.size := by
  induction count generalizing s disk with
  | zero => rfl
  | succ count ih =>
    rw [writeRange, ih]
    unfold Disk.write
    split_ifs <;> rfl

/-- One request: the driver answers as the disk does. -/
theorem serve_ends (h : Agree d.disk disk) (r : Request) (hr : r.Fits disk.size) :
    ∃ d', Ends (fun n => serve n d r) ((answer disk r).1, d') ∧ Agree d'.disk (answer disk r).2 ∧
      (answer disk r).2.size = disk.size := by
  cases r with
  | read lba count =>
    obtain ⟨hlba, hc, -⟩ := hr
    obtain ⟨buf', d', hends, hdisk, hfilled⟩ := readSectors_ends (d := d) rfl hlba hc fun _ => 0
    have hsize : d.disk.size = disk.size := h.1
    refine ⟨d', ?_, by rw [hdisk]; exact h, rfl⟩
    have hreply : (if decide (lba+count ≤ d.disk.size) = true then
        some ((List.range (512*count)).map buf') else none) = (answer disk (.read lba count)).1 := by
      rw [answer_read hc, hsize]
      simp only [decide_eq_true_iff]
      by_cases hin : lba+count ≤ disk.size
      · rw [if_pos hin, if_pos hin, hfilled (by omega)]
        congr 1
        apply List.map_congr_left
        intro k hk
        have hk := List.mem_range.mp hk
        rw [filled, if_pos (by omega)]
        exact h.2 _ _ (Nat.mod_lt k (by decide))
      · rw [if_neg hin, if_neg hin]
    rw [← hreply]
    exact Ends.bind hends (ends_of_eq fun _ => rfl)
  | write lba count buf =>
    obtain ⟨hlba, hc, -, hin⟩ := hr
    obtain ⟨d', hends, hagree⟩ := writeSectors_ends (d := d) rfl hlba hc (by rw [h.1]; exact hin) buf
    have hdisk : (answer disk (.write lba count buf)).2 = writeRange lba buf count 0 disk :=
      foldl_writeRange count
    refine ⟨d', Ends.bind hends (ends_of_eq fun _ => rfl), ?_, ?_⟩
    · rw [hdisk]
      exact hagree.trans (agree_writeRange h count 0)
    · rw [hdisk, writeRange_size]

theorem serveAll_ends (rs : List Request) (h : Agree d.disk disk)
    (hrs : ∀ r ∈ rs, r.Fits disk.size) :
    ∃ d', Ends (fun n => serveAll n rs d) ((answers disk rs).1, d') ∧
      Agree d'.disk (answers disk rs).2 := by
  induction rs generalizing d disk with
  | nil => exact ⟨d, ends_of_eq fun _ => rfl, h⟩
  | cons r rs ih =>
    obtain ⟨d₁, hends, hagree, hsize⟩ := serve_ends h r (hrs r List.mem_cons_self)
    obtain ⟨d', hrest, hfinal⟩ := ih hagree fun q hq => by
      rw [hsize]
      exact hrs q (List.mem_cons_of_mem r hq)
    refine ⟨d', ?_, hfinal⟩
    have hjoined : Ends (fun n => (serveAll n rs d₁).bind fun y => some ((answer disk r).1::y.1, y.2))
        ((answers disk (r::rs)).1, d') := Ends.bind hrest (ends_of_eq fun _ => rfl)
    have hall := Ends.bind (g := fun n x => (serveAll n rs x.2).bind fun y => some (x.1::y.1, y.2))
      hends hjoined
    apply Ends.congr hall
    intro n
    rfl

/-- The system from the detection of the drive on. -/
def session (n : ℕ) (rs : List Request) (d : Drive) : Option (List (Option (List UInt8))×Drive) :=
  (init n d).bind fun r => if r.1 then serveAll n rs r.2 else none

/-- A drive of three sectors that is busy twice and then late once for each piece of work. -/
def smallDrive : Drive where
  disk := ⟨3, fun l k => UInt8.ofNat (l+k)⟩
  select := 0
  secCount := 0
  lbaLo := 0
  lbaMid := 0
  lbaHi := 0
  transfer := .idle
  failed := false
  buffer := fun _ => 0
  busy := 0
  lag := 0
  delays := fun _ => (2, 1)

/-- Two sectors written and read back, and a read past the end. -/
def smallRequests : List Request :=
  [.write 1 2 fun k => UInt8.ofNat (k/512), .read 1 2, .read 2 2]

theorem smallRequests_fit : ∀ r ∈ smallRequests, r.Fits smallDrive.disk.size := by
  intro r hr
  rcases List.mem_cons.mp hr with rfl | hr
  · exact ⟨by decide, by decide, by decide, by decide⟩
  · rcases List.mem_cons.mp hr with rfl | hr
    · exact ⟨by decide, by decide, by decide⟩
    · rw [List.mem_singleton.mp hr]
      exact ⟨by decide, by decide, by decide⟩

end Requests

end Vlsmc.AtaDisk
