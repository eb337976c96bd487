import Vlsmc.BitFields
import Vlsmc.FuelLimits
import Vlsmc.RtcClock
import Vlsmc.SnapshotReads
import Mathlib.Tactic.IntervalCases

/-!
# The clock is read at a moment

Though seconds may pass between the registers, the driver returns a time that the clock showed as
a whole during the call, in whatever format it showed it. Two rounds that agree are a snapshot,
and with a second passing now and then some two rounds do agree.
-/

set_option autoImplicit false

namespace Vlsmc.RtcMoments
open Vlsmc.BitFields Vlsmc.FuelLimits Vlsmc.RtcClock Vlsmc.SnapshotReads

variable {d d' d'' : Rtc} {most n m century : ℕ}

section Time

/-- The seconds that pass in `n` accesses. -/
def elapsed (p : ℕ → ℕ) : ℕ → ℕ
  | 0 => 0
  | n+1 => p 0+elapsed (fun i => p (i+1)) n

theorem elapsed_add (p : ℕ → ℕ) (n m : ℕ) :
    elapsed p (n+m) = elapsed p n+elapsed (fun i => p (n+i)) m := by
  induction n generalizing p with
  | zero => simp [elapsed]
  | succ n ih =>
    have hshift : (fun i => p (n+i+1)) = fun i => p (n+1+i) := by
      funext i
      congr 1
      omega
    rw [Nat.succ_add, elapsed, elapsed, ih, hshift, Nat.add_assoc]

theorem elapsed_mono (p : ℕ → ℕ) (h : n ≤ m) : elapsed p n ≤ elapsed p m := by
  obtain ⟨k, rfl⟩ := Nat.exists_eq_add_of_le h
  rw [elapsed_add]
  exact Nat.le_add_right _ _

/-- The same chip. -/
structure Same (d d' : Rtc) : Prop where
  binary : d'.binary = d.binary
  hours24 : d'.hours24 = d.hours24
  century : d'.century = d.century
  ram : d'.ram = d.ram
  calendar : d'.calendar = d.calendar

theorem Same.value (h : Same d d') : d'.value = d.value := by
  funext t r
  simp only [Rtc.value, Rtc.code, Rtc.hourCode, h.binary, h.hours24, h.century, h.ram, h.calendar]

theorem Same.trans (h : Same d d') (h' : Same d' d'') : Same d d'' where
  binary := h'.binary.trans h.binary
  hours24 := h'.hours24.trans h.hours24
  century := h'.century.trans h.century
  ram := h'.ram.trans h.ram
  calendar := h'.calendar.trans h.calendar

/-- The same chip `n` accesses later. -/
structure Later (n : ℕ) (d d' : Rtc) : Prop extends Same d d' where
  now : d'.now = d.now+elapsed d.passing n
  passing : d'.passing = fun i => d.passing (n+i)

theorem Later.trans (h : Later n d d') (h' : Later m d' d'') : Later (n+m) d d'' where
  toSame := h.toSame.trans h'.toSame
  now := by rw [h'.now, h.now, h.passing, elapsed_add, Nat.add_assoc]
  passing := by
    rw [h'.passing, h.passing]
    simp only [Nat.add_assoc]

theorem later_one (hs : Same d d') (hn : d'.now = d.pass.now) (hp : d'.passing = d.pass.passing) :
    Later 1 d d' where
  toSame := hs
  now := hn
  passing := by
    rw [hp]
    funext i
    rw [Nat.add_comm]
    rfl

theorem later_pass (d : Rtc) : Later 1 d d.pass := later_one ⟨rfl, rfl, rfl, rfl, rfl⟩ rfl rfl

theorem Later.le (h : Later n d d') : d.now ≤ d'.now := by
  rw [h.now]
  exact Nat.le_add_right _ _

/-- No update takes more polls than `most`. -/
def Bounded (most : ℕ) (d : Rtc) : Prop := d.busy ≤ most ∧ ∀ i, d.waits i ≤ most

/-- Over four rounds at most one second passes. -/
def Slow (most : ℕ) (d : Rtc) : Prop := ∀ k, elapsed (fun i => d.passing (k+i)) (4*(most+8)) ≤ 1

theorem Slow.later (hs : Slow most d) (h : Later n d d') : Slow most d' := by
  intro k
  rw [h.passing]
  simpa only [Nat.add_assoc] using hs (n+k)

theorem Slow.now (hs : Slow most d) (h : Later n d d') (hn : n ≤ 4*(most+8)) : d'.now ≤ d.now+1 := by
  have hle : elapsed d.passing (4*(most+8)) ≤ 1 := by simpa only [Nat.zero_add] using hs 0
  have hmono := elapsed_mono d.passing hn
  rw [h.now]
  omega

end Time

section Rounds

theorem later_readRegister (r : ℕ) (d : Rtc) : Later 1 d (readRegister r d).2 := later_pass d

theorem readRegisters_pass (most : ℕ) (rs : List ℕ) (d : Rtc) : Later rs.length d (readRegisters rs d).2 ∧
    Pass d.value d.now rs (readRegisters rs d).1 (readRegisters rs d).2.now ∧
    (Bounded most d → Bounded most (readRegisters rs d).2) := by
  induction rs generalizing d with
  | nil =>
    refine ⟨⟨⟨rfl, rfl, rfl, rfl, rfl⟩, rfl, ?_⟩, .done d.now, id⟩
    funext i
    rw [List.length_nil, Nat.zero_add]
    rfl
  | cons r rs ih =>
    obtain ⟨hlater, hpass, hbounded⟩ := ih d.pass
    have hfirst := later_pass d
    rw [hfirst.value] at hpass
    refine ⟨?_, .read hfirst.le hpass, hbounded⟩
    rw [List.length_cons, Nat.add_comm]
    exact hfirst.trans hlater

/-- The wait for an update ends. -/
theorem waitUpdate_ends (hb : Bounded most d) : ∃ d', Ends (fun n => waitUpdate n d) d' ∧
    Later (d.busy+1) d d' ∧ Bounded most d' := by
  induction hbusy : d.busy generalizing d with
  | zero =>
    have hpoll : isUpdating d = (false, (isUpdating d).2) := by
      unfold isUpdating
      rw [if_neg (by omega)]
    refine ⟨(isUpdating d).2, ⟨1, ?_⟩, ?_, ?_⟩
    · intro k hk
      obtain ⟨e, rfl⟩ := Nat.exists_eq_add_of_le' hk
      change waitUpdate (e+1) d = _
      rw [waitUpdate, hpoll]
      rfl
    · unfold isUpdating
      rw [if_neg (by omega)]
      exact later_one ⟨rfl, rfl, rfl, rfl, rfl⟩ rfl rfl
    · unfold isUpdating
      rw [if_neg (by omega)]
      exact ⟨hb.2 0, fun i => hb.2 (i+1)⟩
  | succ busy ih =>
    have hpoll : isUpdating d = (true, { d.pass with busy := busy }) := by
      unfold isUpdating
      rw [if_pos (by omega), hbusy]
      rfl
    have hsmaller : busy ≤ most := by
      have := hb.1
      omega
    obtain ⟨d', ⟨n, hn⟩, hlater, hbounded⟩ := ih (d := { d.pass with busy := busy }) ⟨hsmaller, hb.2⟩ rfl
    refine ⟨d', ⟨n+1, ?_⟩, ?_, hbounded⟩
    · intro k hk
      obtain ⟨e, rfl⟩ := Nat.exists_eq_add_of_le' hk
      change waitUpdate (e+n+1) d = _
      rw [waitUpdate, hpoll]
      exact hn (e+n) (Nat.le_add_left n e)
    · have hfirst : Later 1 d { d.pass with busy := busy } := later_one ⟨rfl, rfl, rfl, rfl, rfl⟩ rfl rfl
      rw [Nat.add_comm]
      exact hfirst.trans hlater

theorem code_inj {a b : ℕ} (h : d.code a = d.code b) : a = b := by
  unfold Rtc.code at h
  split_ifs at h <;> omega

/-- The other registers change with the minute only. -/
theorem value_minute {r t u : ℕ} (hr : r ≠ 0) (h : t/60 = u/60) : d.value t r = d.value u r := by
  unfold Rtc.value
  rw [if_neg hr, if_neg hr, h]

/-- Within a minute no register comes back to a value. -/
theorem steady_value (d : Rtc) {a b : ℕ} (h : b < a+60) : Steady d.value a b := by
  intro r t u s hat htu hus hsb hback
  by_cases hr : r = 0
  · have hsame : d.code (t%60) = d.code (s%60) := by
      rw [hr] at hback
      exact hback
    have hmod := code_inj hsame
    have hu : u = t := by omega
    rw [hu]
  · by_cases hminute : u/60 = t/60
    · exact value_minute hr hminute
    · have hlate : u/60 = s/60 := by omega
      exact (value_minute hr hlate).trans hback.symm

/-- A wait and a pass. -/
theorem round_ends (century : ℕ) (hb : Bounded most d) : ∃ d₁, Ends (fun n => waitUpdate n d) d₁ ∧
    ∃ k a, k ≤ most+8 ∧ d.now ≤ a ∧
      Later k d (readRegisters (registers century) d₁).2 ∧
      Bounded most (readRegisters (registers century) d₁).2 ∧
      Pass d.value a (registers century) (readRegisters (registers century) d₁).1
        (readRegisters (registers century) d₁).2.now := by
  obtain ⟨d₁, hwait, hlater, hb₁⟩ := waitUpdate_ends hb
  obtain ⟨hlater₂, hpass, hb₂⟩ := readRegisters_pass most (registers century) d₁
  rw [hlater.value] at hpass
  have hlength : (registers century).length ≤ 7 := by
    unfold registers
    split_ifs <;> simp
  have hbusy := hb.1
  exact ⟨d₁, hwait, _, d₁.now, by omega, hlater.le, hlater.trans hlater₂, hb₂ hb₁, hpass⟩

theorem settle_same {d₁ : Rtc} (hwait : Ends (fun n => waitUpdate n d) d₁) :
    Ends (fun n => settle century n (readRegisters (registers century) d₁).1 d)
      (readRegisters (registers century) d₁) := by
  obtain ⟨n, hn⟩ := hwait
  refine ⟨n+1, ?_⟩
  intro k hk
  obtain ⟨e, rfl⟩ := Nat.exists_eq_add_of_le' hk
  have hthen : waitUpdate (e+n) d = some d₁ := hn (e+n) (Nat.le_add_left n e)
  change settle century (e+n+1) _ d = _
  rw [settle, hthen, Option.bind_some]
  exact if_pos rfl

theorem settle_other {d₁ : Rtc} {last : List ℕ} {x : List ℕ×Rtc} (hwait : Ends (fun n => waitUpdate n d) d₁)
    (hne : (readRegisters (registers century) d₁).1 ≠ last)
    (hx : Ends (fun n => settle century n (readRegisters (registers century) d₁).1
      (readRegisters (registers century) d₁).2) x) :
    Ends (fun n => settle century n last d) x := by
  obtain ⟨n, hn⟩ := hwait
  obtain ⟨m, hm⟩ := hx
  refine ⟨n+m+1, ?_⟩
  intro k hk
  obtain ⟨e, rfl⟩ := Nat.exists_eq_add_of_le' hk
  have hthen : waitUpdate (e+(n+m)) d = some d₁ := hn (e+(n+m)) (by omega)
  change settle century (e+(n+m)+1) last d = _
  rw [settle, hthen, Option.bind_some]
  exact (if_neg hne).trans (hm (e+(n+m)) (by omega))

/-- The rounds end at the latest with the second that reads nothing but the time after the tick. -/
theorem settle_ends {start a : ℕ} {last : List ℕ} (hb : Bounded most d)
    (hlast : Pass d.value a (registers century) last d.now) (ha : start ≤ a)
    (hslow : ∀ k d', k ≤ 3*(most+8) → Later k d d' → d'.now ≤ start+1) :
    ∃ r k, Ends (fun n => settle century n last d) r ∧ Later k d r.2 ∧ Bounded most r.2 ∧
      ∃ m, start ≤ m ∧ m ≤ r.2.now ∧ r.1 = (registers century).map (d.value m) := by
  obtain ⟨d₂, hwait₂, k₂, a₂, hk₂, ha₂, hlater₂, hb₂, hpass₂⟩ := round_ends century hb
  obtain ⟨r₂, hr₂⟩ : ∃ r₂, r₂ = readRegisters (registers century) d₂ := ⟨_, rfl⟩
  rw [← hr₂] at hlater₂ hb₂ hpass₂
  have hend₂ := hslow k₂ r₂.2 (by omega) hlater₂
  have hle := hlast.le
  have hle₂ := hpass₂.le
  by_cases hsame : r₂.1 = last
  · refine ⟨r₂, k₂, ?_, hlater₂, hb₂, d.now, by omega, by omega, ?_⟩
    · rw [← hsame, hr₂]
      exact settle_same hwait₂
    · rw [hsame]
      rw [hsame] at hpass₂
      exact hlast.snapshot hpass₂ (Nat.le_refl _) ha₂ (steady_value d (by omega))
  -- a second has passed, so none passes until the end
  have htick : r₂.2.now = start+1 := by
    by_contra hno
    have hq : ∀ t, start ≤ t → t ≤ r₂.2.now → d.value t = d.value start := by
      intro t ht ht'
      have hstart : t = start := by omega
      rw [hstart]
    have hone := hlast.quiet fun t ht ht' => (hq t (by omega) (by omega)).trans (hq a ha (by omega)).symm
    have htwo := hpass₂.quiet fun t ht ht' => (hq t (by omega) (by omega)).trans (hq a₂ (by omega) (by omega)).symm
    rw [hq a ha (by omega)] at hone
    rw [hq a₂ (by omega) (by omega)] at htwo
    exact hsame (htwo.trans hone.symm)
  obtain ⟨d₃, hwait₃, k₃, a₃, hk₃, ha₃, hlater₃, hb₃, hpass₃⟩ := round_ends century hb₂
  obtain ⟨r₃, hr₃⟩ : ∃ r₃, r₃ = readRegisters (registers century) d₃ := ⟨_, rfl⟩
  rw [← hr₃] at hlater₃ hb₃ hpass₃
  have hlater₂₃ := hlater₂.trans hlater₃
  have hend₃ := hslow (k₂+k₃) r₃.2 (by omega) hlater₂₃
  have hle₃ := hpass₃.le
  have hthree : r₃.1 = (registers century).map (d.value a₃) := by
    rw [hlater₂.value] at hpass₃
    apply hpass₃.quiet
    intro t ht ht'
    have hstart : t = a₃ := by omega
    rw [hstart]
  by_cases hsame' : r₃.1 = r₂.1
  · refine ⟨r₃, k₂+k₃, ?_, hlater₂₃, hb₃, a₃, by omega, by omega, hthree⟩
    apply settle_other hwait₂ (by rw [← hr₂]; exact hsame)
    rw [← hr₂, ← hsame', hr₃]
    exact settle_same hwait₃
  obtain ⟨d₄, hwait₄, k₄, a₄, hk₄, ha₄, hlater₄, hb₄, hpass₄⟩ := round_ends century hb₃
  obtain ⟨r₄, hr₄⟩ : ∃ r₄, r₄ = readRegisters (registers century) d₄ := ⟨_, rfl⟩
  rw [← hr₄] at hlater₄ hb₄ hpass₄
  have hlater₂₄ := hlater₂₃.trans hlater₄
  have hend₄ := hslow (k₂+k₃+k₄) r₄.2 (by omega) hlater₂₄
  have hle₄ := hpass₄.le
  have hfour : r₄.1 = (registers century).map (d.value a₄) := by
    rw [hlater₂₃.value] at hpass₄
    apply hpass₄.quiet
    intro t ht ht'
    have hstart : t = a₄ := by omega
    rw [hstart]
  have hagree : r₄.1 = r₃.1 := by
    have hmoment : a₄ = a₃ := by omega
    rw [hfour, hthree, hmoment]
  refine ⟨r₄, k₂+k₃+k₄, ?_, hlater₂₄, hb₄, a₄, by omega, by omega, hfour⟩
  apply settle_other hwait₂ (by rw [← hr₂]; exact hsame)
  rw [← hr₂]
  apply settle_other hwait₃ (by rw [← hr₃]; exact hsame')
  rw [← hr₃, ← hagree, hr₄]
  exact settle_same hwait₄

/-- The register that tells the mode. -/
def modes (d : Rtc) : ℕ := (if d.binary then 4 else 0)+(if d.hours24 then 2 else 0)

/-- What is left of a reading after the rounds. -/
def finish (century : ℕ) (r : List ℕ×Rtc) : DateTime×Rtc :=
  (convert century (readRegister 0x0B r.2).1 r.1, (readRegister 0x0D (readRegister 0x0B r.2).2).2)

theorem read_ends (century : ℕ) (hb : Bounded most d) (hs : Slow most d) :
    ∃ d' m, d.now ≤ m ∧ m ≤ d'.now ∧ Same d d' ∧ Bounded most d' ∧ Slow most d' ∧
      Ends (fun n => read n century d)
        (convert century (modes d) ((registers century).map (d.value m)), d') := by
  obtain ⟨d₁, hwait, k, a, hk, ha, hlater, hb₁, hpass⟩ := round_ends century hb
  obtain ⟨r₁, hr₁⟩ : ∃ r₁, r₁ = readRegisters (registers century) d₁ := ⟨_, rfl⟩
  rw [← hr₁] at hlater hb₁ hpass
  have hslow : ∀ k' d', k' ≤ 3*(most+8) → Later k' r₁.2 d' → d'.now ≤ d.now+1 := by
    intro k' d' hk' hlater'
    exact hs.now (hlater.trans hlater') (by omega)
  rw [← hlater.value] at hpass
  obtain ⟨r, k', hsettle, hlater', hb', m, hm, hm', hvalues⟩ := settle_ends hb₁ hpass ha hslow
  rw [hlater.value] at hvalues
  have hall := hlater.trans hlater'
  have hlast := hall.trans ((later_pass r.2).trans (later_pass r.2.pass))
  have hmode : (readRegister 0x0B r.2).1 = modes d := by
    unfold readRegister
    dsimp only
    rw [(later_pass r.2).value, hall.value]
    rfl
  have hfinish : finish century r =
      (convert century (modes d) ((registers century).map (d.value m)), r.2.pass.pass) := by
    unfold finish
    rw [hmode, hvalues]
    rfl
  refine ⟨r.2.pass.pass, m, hm, ?_, hlast.toSame, hb', hs.later hlast, ?_⟩
  · have hfirst := (later_pass r.2).le
    have hsecond := (later_pass r.2.pass).le
    omega
  · have hresult := Ends.map hsettle (finish century)
    rw [hfinish, hr₁] at hresult
    apply Ends.congr (Ends.bind (g := fun n d => (settle century n (readRegisters (registers century) d).1
      (readRegisters (registers century) d).2).map (finish century)) hwait hresult)
    intro n
    rfl

end Rounds

section Conversion

/-- The date and time at second `t`. -/
def shown (d : Rtc) (t : ℕ) : DateTime :=
  let c := d.calendar (t/60)
  ⟨t%60, c.minutes, c.hours, c.day, c.month, c.year⟩

/-- A time of day and a date, of a year that the chip can show with or without a century. -/
structure Civil (d : Rtc) (c : Moment) : Prop where
  minutes : c.minutes < 60
  hours : c.hours < 24
  day : c.day < 32
  month : c.month < 13
  year : (1970 ≤ c.year ∧ c.year < 2070) ∨ (d.binary = false ∧
    (d.century = some 0x32 ∨ d.century = some 0x37) ∧ 1900 ≤ c.year ∧ c.year < 2200)

/-- A register that is not for the century does not look like one. -/
def Plain (d : Rtc) : Prop := ∀ r, r = 0x32 ∨ r = 0x37 → d.century ≠ some r → looksCentury (d.ram r) = false

theorem bcdToBin_code {v : ℕ} : bcdToBin (v/10*16+v%10) = v := by
  unfold bcdToBin
  omega

/-- A register that is not the hours, converted. -/
def plain (d : Rtc) (v : ℕ) : ℕ := if decide (modes d/4%2 = 0) then bcdToBin v else v

theorem code_plain (d : Rtc) (v : ℕ) : plain d (d.code v) = v := by
  unfold plain
  have hbcd : decide (modes d/4%2 = 0) = !d.binary := by
    unfold modes
    cases d.binary <;> cases d.hours24 <;> rfl
  rw [hbcd]
  unfold Rtc.code
  cases d.binary with
  | true => rfl
  | false => exact bcdToBin_code

/-- The twelve hours before and after noon. -/
theorem convertHour_hourCode (d : Rtc) {h : ℕ} (hh : h < 24) :
    convertHour (decide (modes d/4%2 = 0)) (decide (modes d/2%2 = 0)) (d.hourCode h) = h := by
  unfold convertHour Rtc.hourCode Rtc.code modes bcdToBin
  interval_cases h <;> cases d.binary <;> cases d.hours24 <;> rfl

/-- The register that the driver takes for the century shows it, and without one the year tells. -/
def Found (d : Rtc) (century : ℕ) : Prop :=
  (century = 0x32 ∨ century = 0x37) ∧ d.century = some century ∨
    century = 0 ∧ ∀ t, 1970 ≤ (d.calendar t).year ∧ (d.calendar t).year < 2070

theorem value_century {r : ℕ} (hr : r = 0x32 ∨ r = 0x37) (t : ℕ) :
    d.value t r = if d.century = some r then d.code ((d.calendar (t/60)).year/100) else d.ram r := by
  unfold Rtc.value
  rcases hr with rfl | rfl <;> rfl

theorem looksCentury_code {v : ℕ} (hv : 19 ≤ v ∧ v < 22) : looksCentury (d.code v) = !d.binary := by
  unfold looksCentury Rtc.code bcdToBin
  cases d.binary with
  | true => simp; omega
  | false => simp; omega

/-- The detection finds the register of the century, unless the chip is in binary mode. -/
theorem init_found (hp : Plain d) (hc : ∀ t, Civil d (d.calendar t)) : Found d (init d).1 := by
  have hyear : ∀ t, 19 ≤ (d.calendar t).year/100 ∧ (d.calendar t).year/100 < 22 := by
    intro t
    rcases (hc t).year with h | ⟨-, -, h⟩ <;> omega
  have hread : ∀ t r, r = 0x32 ∨ r = 0x37 →
      looksCentury (d.value t r) = (decide (d.century = some r) && !d.binary) := by
    intro t r hr
    rw [value_century hr]
    by_cases hcentury : d.century = some r
    · rw [if_pos hcentury, looksCentury_code (hyear _), hcentury]
      simp
    · rw [if_neg hcentury, hp r hr hcentury]
      simp [hcentury]
  have hfirst : (readRegister 0x32 d).1 = d.value d.pass.now 0x32 := rfl
  have hsecond : (readRegister 0x37 (readRegister 0x32 d).2).1 = d.value d.pass.pass.now 0x37 := rfl
  have hdetected : (init d).1 = if looksCentury (readRegister 0x32 d).1 then 0x32
      else if looksCentury (readRegister 0x37 (readRegister 0x32 d).2).1 then 0x37 else 0 := by
    unfold init detectCenturyRegister
    by_cases hone : looksCentury (readRegister 0x32 d).1 = true
    · simp only [hone, if_true]
    by_cases htwo : looksCentury (readRegister 0x37 (readRegister 0x32 d).2).1 = true
    · simp [hone, htwo]
    · simp [hone, htwo]
  rw [hdetected, hfirst, hsecond, hread _ _ (Or.inl rfl), hread _ _ (Or.inr rfl)]
  by_cases hlow : d.century = some 0x32 ∧ d.binary = false
  · rw [if_pos (by simp [hlow])]
    exact Or.inl ⟨Or.inl rfl, hlow.1⟩
  by_cases hhigh : d.century = some 0x37 ∧ d.binary = false
  · rw [if_neg (by simp [hhigh]), if_pos (by simp [hhigh])]
    exact Or.inl ⟨Or.inr rfl, hhigh.1⟩
  · rw [if_neg (by simpa using hlow), if_neg (by simpa using hhigh)]
    refine Or.inr ⟨rfl, ?_⟩
    intro t
    rcases (hc t).year with h | ⟨hb, h | h, -⟩
    · exact h
    · exact absurd ⟨h, hb⟩ hlow
    · exact absurd ⟨h, hb⟩ hhigh

/-- The registers of a moment convert to its date and time. -/
theorem convert_shown (hf : Found d century) (t : ℕ) (hc : Civil d (d.calendar (t/60))) :
    convert century (modes d) ((registers century).map (d.value t)) = shown d t := by
  have hplain := code_plain d
  have hhour := convertHour_hourCode d hc.hours
  rcases hf with ⟨hregister, hfound⟩ | ⟨rfl, hyear⟩
  · have hcentury := value_century (d := d) hregister t
    rw [if_pos hfound] at hcentury
    have hrange : 19 ≤ (d.calendar (t/60)).year/100 ∧ (d.calendar (t/60)).year/100 ≤ 21 := by
      rcases hc.year with h | ⟨-, -, h⟩ <;> omega
    have hne : century ≠ 0 := by
      rcases hregister with rfl | rfl <;> decide
    have hregs : registers century = [0x00, 0x02, 0x04, 0x07, 0x08, 0x09, century] := by
      unfold registers
      rw [if_pos hne]
      rfl
    have hlast : plain d (d.value t century) = (d.calendar (t/60)).year/100 := by
      rw [hcentury]
      exact hplain _
    rw [hregs]
    apply DateTime.mk.injEq .. |>.mpr
    refine ⟨hplain _, hplain _, hhour, hplain _, hplain _, ?_⟩
    change (if century ≠ 0 ∧ 19 ≤ plain d (d.value t century) ∧ plain d (d.value t century) ≤ 21 then
      plain d (d.value t century)*100+plain d (d.code ((d.calendar (t/60)).year%100)) else _) = _
    rw [hlast, hplain, if_pos ⟨hne, hrange⟩]
    exact Nat.div_add_mod' _ _
  · apply DateTime.mk.injEq .. |>.mpr
    refine ⟨hplain _, hplain _, hhour, hplain _, hplain _, ?_⟩
    change (if 70 ≤ plain d (d.code ((d.calendar (t/60)).year%100)) then
      1900+plain d (d.code ((d.calendar (t/60)).year%100)) else
      2000+plain d (d.code ((d.calendar (t/60)).year%100))) = _
    obtain ⟨hlow, hhigh⟩ := hyear (t/60)
    rw [hplain]
    split_ifs <;> omega

theorem time_fields {a : DateTime} (hh : a.hours < 24) (hm : a.minutes < 60) (hs : a.seconds < 60) :
    fatTime a >>> 11 = a.hours ∧ fatTime a >>> 5 &&& 0x3F = a.minutes ∧ fatTime a &&& 0x1F = a.seconds/2 := by
  obtain ⟨k, hk⟩ : ∃ k, k = a.hours <<< 11 ||| a.minutes <<< 5 ||| a.seconds/2 := ⟨_, rfl⟩
  obtain ⟨h₁, h₂, h₃, h₄⟩ := fields (i := 6) (j := 5) hk (by omega) (by omega)
  have hstamp : fatTime a = k := by
    unfold fatTime
    rw [← hk]
    exact Nat.mod_eq_of_lt (by omega)
  rw [hstamp]
  exact ⟨h₁, h₂, h₃⟩

theorem date_fields {b : DateTime} (hlow : 1980 ≤ b.year) (hhigh : b.year < 2108) (hm : b.month < 13)
    (hd : b.day < 32) : fatDate b >>> 9 = b.year-1980 ∧ fatDate b >>> 5 &&& 0xF = b.month ∧
      fatDate b &&& 0x1F = b.day := by
  obtain ⟨k, hk⟩ : ∃ k, k = (b.year-1980) <<< 9 ||| b.month <<< 5 ||| b.day := ⟨_, rfl⟩
  obtain ⟨h₁, h₂, h₃, h₄⟩ := fields (i := 4) (j := 5) hk (by omega) (by omega)
  have hstamp : fatDate b = k := by
    unfold fatDate
    rw [if_pos hlow, ← hk]
    exact Nat.mod_eq_of_lt (by omega)
  rw [hstamp]
  exact ⟨h₁, h₂, h₃⟩

/-- What is stamped is listed, but for an odd second. -/
theorem stamp_text {a b : DateTime} (hh : a.hours < 24) (hm : a.minutes < 60) (hs : a.seconds < 60)
    (hlow : 1980 ≤ b.year) (hhigh : b.year < 2108) (hmonth : b.month < 13) (hday : b.day < 32) :
    statText (fatTime a) (fatDate b) =
      ((b.year, b.month, b.day), (a.hours, a.minutes, a.seconds/2*2)) := by
  obtain ⟨h₁, h₂, h₃⟩ := time_fields hh hm hs
  obtain ⟨g₁, g₂, g₃⟩ := date_fields hlow hhigh hmonth hday
  have hback : 1980+(b.year-1980) = b.year := by omega
  unfold statText
  rw [h₁, h₂, h₃, g₁, g₂, g₃, hback]

end Conversion

section Moments

/-- A chip that runs through civil times. -/
structure Proper (d : Rtc) : Prop where
  plain : Plain d
  civil : ∀ t, Civil d (d.calendar t)

/-- What the driver reads the clock showed at one moment of the call, however the call is interrupted. -/
theorem reading_ends {d₁ : Rtc} (hd : Proper d) (hsame : Same d d₁) (hb : Bounded most d₁)
    (hs : Slow most d₁) :
    ∃ d' m, d₁.now ≤ m ∧ m ≤ d'.now ∧ Same d d' ∧ Bounded most d' ∧ Slow most d' ∧
      Ends (fun n => read n (init d).1 d₁) (shown d m, d') := by
  obtain ⟨d', m, hm, hm', hsame', hb', hs', hends⟩ := read_ends (init d).1 hb hs
  have hmodes : modes d₁ = modes d := by
    unfold modes
    rw [hsame.binary, hsame.hours24]
  rw [hsame.value, hmodes, convert_shown (init_found hd.plain hd.civil) m (hd.civil _)] at hends
  exact ⟨d', m, hm, hm', hsame.trans hsame', hb', hs', hends⟩

/-- Readings of the clock, one after the other. -/
def readAll (n century : ℕ) : ℕ → Rtc → Option (List DateTime×Rtc)
  | 0, d => some ([], d)
  | k+1, d => (read n century d).bind fun r =>
    (readAll n century k r.2).map fun rs => (r.1::rs.1, rs.2)

/-- A chip in the old format, about to leave the century, that ticks in the first pass. -/
def newYear : Rtc where
  binary := false
  hours24 := false
  century := some 0x32
  ram := fun _ => 0
  calendar := fun t => if t = 0 then ⟨59, 23, 31, 12, 1999⟩ else ⟨0, 0, 1, 1, 2000⟩
  now := 59
  busy := 1
  passing := fun i => if i = 4 then 1 else 0
  waits := fun _ => 1

theorem elapsed_once (k j n : ℕ) : elapsed (fun i => if k+i = j then 1 else 0) n ≤ if k ≤ j then 1 else 0 := by
  induction n generalizing k with
  | zero => exact Nat.zero_le _
  | succ n ih =>
    have hrest := ih (k+1)
    have hshift : (fun i => if k+(i+1) = j then 1 else 0) = fun i => if k+1+i = j then 1 else 0 := by
      funext i
      congr 1
      rw [Nat.add_comm i 1, Nat.add_assoc]
    rw [elapsed, hshift]
    split_ifs at hrest ⊢ <;> omega

theorem newYear_proper : Proper newYear := by
  constructor
  · intro r _ _
    change looksCentury 0 = false
    decide
  · intro t
    by_cases ht : t = 0
    · subst ht
      exact ⟨by decide, by decide, by decide, by decide, Or.inl (by decide)⟩
    · have hc : newYear.calendar t = ⟨0, 0, 1, 1, 2000⟩ := if_neg ht
      rw [hc]
      exact ⟨by decide, by decide, by decide, by decide, Or.inl (by decide)⟩

theorem newYear_slow : Slow 1 newYear := by
  intro k
  refine Nat.le_trans (elapsed_once k 4 (4*(1+8))) ?_
  split_ifs <;> decide

theorem newYear_bounded : Bounded 1 newYear := ⟨Nat.le_refl 1, fun _ => Nat.le_refl 1⟩

end Moments

end Vlsmc.RtcMoments
