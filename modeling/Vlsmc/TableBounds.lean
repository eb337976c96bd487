import Vlsmc.TableAccesses

/-!
# Which chains stay in the table

Every loop of the driver follows a chain up to some cell. All indices of a call lie in the table
exactly when the chain stays in it up to that cell, for each of the chains that the call follows.
-/

set_option autoImplicit false

namespace Vlsmc.TableBounds
open Vlsmc.Fat16Layout Vlsmc.Fat16Names Vlsmc.Fat16Volume Vlsmc.Fat16Geometry Vlsmc.Fat16Chains
open Vlsmc.Fat16Directory Vlsmc.DirectoryListings Vlsmc.DirectoryScans Vlsmc.Words
open Vlsmc.SuccessorChain Vlsmc.ChainLoops Vlsmc.ChainCalls Vlsmc.ChainListings
open Vlsmc.ChainTermination Vlsmc.DirectoryEdits Vlsmc.FirstFit Vlsmc.TableAccesses
open Vlsmc.Fat16Files hiding readEntry fat16Read

section Conditions

variable (v : Volume)

/-- Up to where it stops, the chain stays in the table. -/
def InTable (stops : ℕ → Prop) (c : ℕ) : Prop :=
  ∀ n, (∀ k ≤ n, ¬ stops (v.fat^[k] c)) → v.fat^[n] c < Bpb.maxFatEntries

/-- What stops the search for a name. -/
def FindStops (name : List UInt8) (c : ℕ) : Prop :=
  inChain c = false ∨ ∃ p ∈ readableSlots v c, (v.entryAt p).isEnd ∨ Matches v name p

/-- What stops the search for a slot. -/
def FreeStops (c : ℕ) : Prop :=
  inChain c = false ∨ ∃ p ∈ readableSlots v c, (v.entryAt p).isEnd ∨ (v.entryAt p).isDeleted

def FindInTable (dir : ℕ) (name : List UInt8) : Prop :=
  v.mounted = false ∨ dir = 0 ∨ InTable v (FindStops v name) (dir%65536)

/-- A number above 0xFFF7 is followed nowhere, but a cluster would be linked to it. -/
def FreeInTable (dir : ℕ) : Prop :=
  v.mounted = false ∨ dir = 0 ∨
    InTable v (FreeStops v) (dir%65536) ∧ (0xFFF8 ≤ dir%65536 → freeList v = [])

/-- Listing goes on after so many clusters: they leave room, and the next one has no end slot or
fills the buffer before it. -/
def ListGoes (maxEntries c n : ℕ) : Prop :=
  (∀ k ≤ n, inChain (v.fat^[k] c) = true) ∧ ¬ ListStops v maxEntries n c [] ∧
    ¬ (reachesEnd v (walkedSlots v (n+1) c) = true ∧
      (records v (walkedSlots v (n+1) c)).length < maxEntries)

def ReaddirInTable (dir maxEntries : ℕ) : Prop :=
  v.mounted = false ∨ dir = 0 ∨
    ∀ n, ListGoes v maxEntries (dir%65536) n → v.fat^[n] (dir%65536) < Bpb.maxFatEntries

/-- The bytes read and the current offset of `fat16_read` after one more sector. -/
def advance (offset want : ℕ) (b : ℕ × ℕ) : ℕ × ℕ :=
  if b.1 < want then
    if b.2 < offset ∧ 512 ≤ offset-b.2 then (b.1, u32 (b.2+512))
    else
      let start := if b.2 < offset then offset-b.2 else 0
      (b.1+if want < u32 (b.1+(512-start)) then want-b.1 else 512-start, u32 (b.2+512))
  else b

/-- The seek loop goes on after so many clusters. -/
def SeekGoes (offset c n : ℕ) : Prop :=
  ∀ k < n, inChain (v.fat^[k] c) = true ∧ u32 ((k+1)*(v.bpb.spc*512)) ≤ offset

instance (offset c n : ℕ) : Decidable (SeekGoes v offset c n) :=
  inferInstanceAs (Decidable (∀ k < n, _))

/-- The read loop goes on after so many clusters: bytes are missing before each of them, and the
sectors that are read can be. -/
def ReadGoes (offset want c : ℕ) (b : ℕ × ℕ) (n : ℕ) : Prop :=
  ∀ k < n, inChain (v.fat^[k] c) = true ∧ ((advance offset want)^[k*v.bpb.spc] b).1 < want ∧
    ∀ j < v.bpb.spc, ((advance offset want)^[k*v.bpb.spc+j] b).1 < want →
      u32 (v.bpb.clusterToLba (v.fat^[k] c)+j) < v.disk.size

/-- The chain of a file stays in the table over the clusters that are skipped and those that are
read. -/
def EntryInTable (e : DirEntry) (offset size : ℕ) : Prop :=
  e.fileSize.toNat ≤ offset ∨
    (∀ n, SeekGoes v offset e.cluster (n+1) → v.fat^[n] e.cluster < Bpb.maxFatEntries) ∧
    ∀ q, SeekGoes v offset e.cluster q → offset < u32 ((q+1)*(v.bpb.spc*512)) → ∀ n,
      ReadGoes v offset
        (if e.fileSize.toNat < u32 (offset+size) then e.fileSize.toNat-offset else size)
        (v.fat^[q] e.cluster) (0, u32 (q*(v.bpb.spc*512))) (n+1) →
      v.fat^[n] (v.fat^[q] e.cluster) < Bpb.maxFatEntries

def ReadInTable (vn : Vnode) (offset size : ℕ) : Prop :=
  v.mounted = false ∨ vn.type ≠ .file ∨ ∀ name parent, vn.nodeData = some (name, parent) →
    FindInTable v parent name ∧ ∀ p, v.findDirEntry parent name = some (some p) →
      EntryInTable v (v.loadEntry p) offset size

/-- The whole chain lies in the table. -/
def ChainInTable (c : ℕ) : Prop := InTable v (fun x => inChain x = false) c

end Conditions

section Searches

variable {v : Volume}

theorem visits_inTable {β : Type*} {body : ℕ → Option β} {stops : ℕ → Prop} {c : ℕ}
    (h : ∀ x, Stops inChain body x ↔ stops x) :
    (∀ fuel, ∀ i ∈ walkVisits v.fat inChain body fuel c, i < Bpb.maxFatEntries) ↔
      InTable v stops c := by
  simp only [mem_walkVisits, h]
  constructor
  · intro hall n hn
    exact hall (n+1) _ ⟨n, Nat.lt_succ_self n, rfl, hn⟩
  · rintro hin fuel _ ⟨n, -, rfl, hn⟩
    exact hin n hn

theorem find_inTable (dir : ℕ) (name : List UInt8) :
    (∀ fuel, ∀ i ∈ findAccesses fuel v dir name, i < Bpb.maxFatEntries) ↔
      FindInTable v dir name := by
  by_cases hm : v.mounted = false
  · exact iff_of_true (fun fuel i hi => by simp [findAccesses, hm] at hi) (Or.inl hm)
  by_cases hd : dir = 0
  · exact iff_of_true (fun fuel i hi => by simp [findAccesses, hm, hd] at hi) (Or.inr (Or.inl hd))
  rw [FindInTable, or_iff_right hm, or_iff_right hd]
  simp only [findAccesses, if_neg hm, if_neg hd]
  exact visits_inTable fun x => find_stops name

theorem alloc_inTable : ∀ i ∈ allocAccesses v, i < Bpb.maxFatEntries := by
  intro i hi
  have hmem := List.mem_of_mem_take hi
  rw [List.mem_range'_1] at hmem
  have htotal : v.bpb.total ≤ Bpb.maxFatEntries := total_le v.bpb
  omega

theorem flush_inTable : ∀ i ∈ flushAccesses v, i < Bpb.maxFatEntries := by
  intro i hi
  simpa using (List.mem_filter.mp hi).2

/-- The number that a new cluster is linked to: a cell of the chain, or the number that was passed
when there is none. -/
theorem linked_last {body : ℕ → Option Slot} {fuel c prev : ℕ}
    (h : walk v.fat inChain body fuel c c = some (.inr prev)) :
    (prev ∈ walkVisits v.fat inChain body fuel c ∨ prev = c ∧ inChain c = false) := by
  obtain ⟨n, hlt, hn, ⟨b, hb, -⟩ | ⟨hstop, hprev⟩⟩ := walk_result h
  · cases hb
  · obtain rfl := Sum.inr.inj hprev
    cases n with
    | zero => exact Or.inr ⟨rfl, hstop⟩
    | succ n => exact Or.inl (mem_walkVisits.mpr ⟨n, by omega, rfl, fun k hk => hn k (by omega)⟩)

theorem inChain_false {c : ℕ} (h : inChain c = false) : c < 2 ∨ 0xFFF8 ≤ c := by
  by_contra hmid
  have htrue : inChain c = true := by
    simp only [inChain, Bool.and_eq_true, decide_eq_true_eq]
    omega
  rw [h] at htrue
  cases htrue

theorem free_inTable (dir : ℕ) :
    (∀ fuel, ∀ i ∈ findFreeAccesses fuel v dir, i < Bpb.maxFatEntries) ↔ FreeInTable v dir := by
  by_cases hm : v.mounted = false
  · exact iff_of_true (fun fuel i hi => by simp [findFreeAccesses, hm] at hi) (Or.inl hm)
  by_cases hd : dir = 0
  · refine iff_of_true (fun fuel i hi => ?_) (Or.inr (Or.inl hd))
    simp [findFreeAccesses, hm, hd] at hi
  have hvisits := @visits_inTable v _ _ _ (dir%65536) fun x => free_stops (v := v) (c := x)
  rw [FreeInTable, or_iff_right hm, or_iff_right hd]
  simp only [findFreeAccesses, if_neg hm, if_neg hd, List.mem_append]
  constructor
  · intro hall
    refine ⟨hvisits.mp fun fuel i hi => hall fuel i (Or.inl hi), fun hhigh => ?_⟩
    -- no round is needed to see that the number is no cluster
    cases hfree : freeList v with
    | nil => rfl
    | cons c rest =>
      exfalso
      have hstop : inChain (dir%65536) = false := by simp [inChain]; omega
      have hc : c ∈ freeList v := by
        rw [hfree]
        exact List.mem_cons_self
      have hge := (mem_freeList.mp hc).1.1
      obtain ⟨k, rfl⟩ : ∃ k, c = k+1 := ⟨c-1, by omega⟩
      have hbad := hall 1 (dir%65536) (Or.inr (by
        rw [walk, if_neg (by simp [hstop]), allocCluster_head, hfree]
        exact List.mem_append_right _ List.mem_cons_self))
      unfold Bpb.maxFatEntries at hbad
      omega
  · rintro ⟨hin, hhigh⟩ fuel i (hi | hi)
    · exact hvisits.mpr hin fuel i hi
    · split at hi
      · next prev hwalk =>
        rcases List.mem_append.mp hi with hi | hi
        · exact alloc_inTable i hi
        · rw [allocCluster_head] at hi
          cases hfree : freeList v with
          | nil =>
            rw [hfree] at hi
            cases hi
          | cons c rest =>
            have hc : c ∈ freeList v := by
              rw [hfree]
              exact List.mem_cons_self
            have hge := (mem_freeList.mp hc).1.1
            obtain ⟨k, rfl⟩ : ∃ k, c = k+1 := ⟨c-1, by omega⟩
            rw [hfree] at hi
            rcases List.mem_cons.mp hi with rfl | hi
            · rcases linked_last hwalk with hcell | ⟨rfl, hstop⟩
              · exact hvisits.mpr hin fuel i hcell
              · rcases inChain_false hstop with hlow | hlast
                · unfold Bpb.maxFatEntries
                  omega
                · rw [hhigh hlast] at hfree
                  cases hfree
            · exact flush_inTable i hi
      · cases hi

/-- `free_chain` follows the chain to its end. -/
theorem chain_inTable (c : ℕ) :
    (∀ i ∈ chainFrom chainFuel v c, i < Bpb.maxFatEntries) ↔ ChainInTable v c := by
  constructor
  · intro hall n hn
    obtain ⟨w, hw⟩ := freeChain_returns v c
    exact hall _ (orbit_chainFrom hw fun k hk => by simpa using hn k hk)
  · intro hin i hi
    obtain ⟨n, rfl, hn⟩ := chainFrom_orbit hi
    exact hin n fun k hk => by simp [hn k hk]

theorem freeChain_inTable (c : ℕ) :
    (∀ fuel, ∀ i ∈ chainFrom fuel v c, i < Bpb.maxFatEntries) ↔ ChainInTable v c := by
  refine ⟨fun hall => (chain_inTable c).mp (hall chainFuel), fun hin fuel i hi => ?_⟩
  obtain ⟨n, rfl, hn⟩ := chainFrom_orbit hi
  exact hin n fun k hk => by simp [hn k hk]

end Searches

section Listings

variable {v : Volume} {maxEntries : ℕ}

/-- A round of the listing ends at an end slot that it meets with room left. -/
theorem listLoop_body (c : ℕ) (out : List VfsDirEntry) :
    ∃ out', ((listLoop v maxEntries).body c out = .inr out' ∧
        Passes v maxEntries (readableSlots v c) out (false, out')) ∨
      (listLoop v maxEntries).body c out = .inl out' ∧
        reachesEnd v (readableSlots v c) = true ∧
        out.length+(records v (readableSlots v c)).length < maxEntries := by
  have hp : Passes v maxEntries (readableSlots v c) out _ := listSectors_passes (v.bpb.clusterLbas c) out
  cases hr : listSectors v maxEntries (v.bpb.clusterLbas c) out with
  | mk stopped out' =>
    rw [hr] at hp
    cases stopped with
    | false => exact ⟨out', Or.inl ⟨by simp only [listLoop, hr], hp⟩⟩
    | true =>
      refine ⟨out', Or.inr ⟨by simp only [listLoop, hr], ?_⟩⟩
      rcases hp with ⟨-, -, hout⟩ | ⟨hend, hlt, -⟩ | ⟨-, hgo, -⟩
      · cases hout
      · exact ⟨hend, hlt⟩
      · cases hgo

/-- Which rounds the listing gets through, from records that it has. -/
theorem list_after_iff {n c : ℕ} {out : List VfsDirEntry} :
    ((listLoop v maxEntries).after (n+1) c out).isSome = true ↔
      (∀ k ≤ n, inChain (v.fat^[k] c) = true) ∧ ¬ ListStops v maxEntries n c out ∧
        ¬ (reachesEnd v (walkedSlots v (n+1) c) = true ∧
          out.length+(records v (walkedSlots v (n+1) c)).length < maxEntries) := by
  induction n generalizing c out with
  | zero =>
    have hone : walkedSlots v 1 c = readableSlots v c := List.append_nil _
    rw [hone, Loop.after]
    by_cases hgo : inChain c = true ∧ out.length < maxEntries
    · have hstart : ¬ ListStops v maxEntries 0 c out := by
        rintro (hend | hfull)
        · cases hend
        · exact absurd hfull (Nat.not_le.mpr hgo.2)
      have hchain : ∀ k ≤ 0, inChain (v.fat^[k] c) = true := fun k hk => by
        obtain rfl : k = 0 := by omega
        exact hgo.1
      rw [if_pos (show (listLoop v maxEntries).go c out = true from decide_eq_true hgo)]
      obtain ⟨out', ⟨hb, hp⟩ | ⟨hb, hend, hlt⟩⟩ := @listLoop_body v maxEntries c out
      · rw [hb]
        refine iff_of_true rfl ⟨hchain, hstart, fun h => ?_⟩
        rcases hp with ⟨hend, -, -⟩ | ⟨-, -, hstop⟩ | ⟨hlong, -, -⟩
        · rw [hend] at h
          cases h.1
        · cases hstop
        · exact absurd hlong (Nat.not_le.mpr h.2)
      · rw [hb]
        exact iff_of_false (by simp) fun h => h.2.2 ⟨hend, hlt⟩
    · rw [if_neg (by simpa [listLoop] using hgo)]
      refine iff_of_false (by simp) fun h => hgo ⟨h.1 0 le_rfl, ?_⟩
      by_contra hfull
      exact h.2.1 (Or.inr (Nat.le_of_not_lt hfull))
  | succ n ih =>
    rw [Loop.after]
    by_cases hgo : inChain c = true ∧ out.length < maxEntries
    · have hchain : (∀ k ≤ n+1, inChain (v.fat^[k] c) = true) ↔
          ∀ k ≤ n, inChain (v.fat^[k] (v.fat c)) = true := by
        refine ⟨fun h k hk => h (k+1) (by omega), fun h k hk => ?_⟩
        cases k with
        | zero => exact hgo.1
        | succ k => exact h k (by omega)
      rw [if_pos (show (listLoop v maxEntries).go c out = true from decide_eq_true hgo)]
      obtain ⟨out', ⟨hb, hp⟩ | ⟨hb, hend, hlt⟩⟩ := @listLoop_body v maxEntries c out
      · rw [hb]
        by_cases hroom : out'.length < maxEntries
        · rw [hchain, listStops_next hp hroom, (walked_next (n := n+1) hp hroom).1,
            (walked_next (n := n+1) hp hroom).2]
          exact ih
        · have hfull := listStops_one hp (Or.inr (Nat.le_of_not_lt hroom))
          dsimp only
          rw [Loop.after, if_neg (by simp [listLoop, hroom])]
          exact iff_of_false (by simp) fun h => h.2.1 (listStops_mono hfull (by omega))
      · rw [hb]
        refine iff_of_false (by simp) fun h => h.2.1 (listStops_mono (n := 1) ?_ (by omega))
        refine Or.inl ?_
        rw [walkedSlots, reachesEnd_append, hend, Bool.true_or]
    · rw [if_neg (by simpa [listLoop] using hgo)]
      refine iff_of_false (by simp) fun h => hgo ⟨h.1 0 (Nat.zero_le _), ?_⟩
      by_contra hfull
      exact h.2.1 (listStops_mono (n := 0) (Or.inr (Nat.le_of_not_lt hfull)) (Nat.zero_le _))

theorem readdir_inTable (dir : ℕ) :
    (∀ fuel, ∀ i ∈ readdirAccesses fuel v dir maxEntries, i < Bpb.maxFatEntries) ↔
      ReaddirInTable v dir maxEntries := by
  by_cases hm : v.mounted = false
  · exact iff_of_true (fun fuel i hi => by simp [readdirAccesses, hm] at hi) (Or.inl hm)
  by_cases hd : dir = 0
  · refine iff_of_true (fun fuel i hi => ?_) (Or.inr (Or.inl hd))
    simp [readdirAccesses, hm, hd] at hi
  have hgoes : ∀ n, ((listLoop v maxEntries).after (n+1) (dir%65536) []).isSome = true ↔
      ListGoes v maxEntries (dir%65536) n := fun n => by
    rw [list_after_iff, List.length_nil, Nat.zero_add]
    rfl
  rw [ReaddirInTable, or_iff_right hm, or_iff_right hd]
  simp only [readdirAccesses, if_neg hm, if_neg hd, Loop.mem_visits, hgoes]
  constructor
  · intro hall n hn
    exact hall (n+1) _ ⟨n, Nat.lt_succ_self n, rfl, hn⟩
  · rintro hin fuel _ ⟨n, -, rfl, hn⟩
    exact hin n hn

end Listings

section Reading

variable {v : Volume} {offset want : ℕ}

theorem seek_after {n c : ℕ} : (seeking v offset).after n c 0 =
    if SeekGoes v offset c n then some (u32 (n*(v.bpb.spc*512))) else none := by
  induction n with
  | zero =>
    have hstart : SeekGoes v offset c 0 := fun k hk => absurd hk (Nat.not_lt_zero k)
    rw [if_pos hstart, Nat.zero_mul]
    rfl
  | succ n ih =>
    have hsplit : SeekGoes v offset c (n+1) ↔ SeekGoes v offset c n ∧
        inChain (v.fat^[n] c) = true ∧ u32 ((n+1)*(v.bpb.spc*512)) ≤ offset := by
      refine ⟨fun h => ⟨fun k hk => h k (by omega), h n (Nat.lt_succ_self n)⟩, fun h k hk => ?_⟩
      rcases Nat.lt_succ_iff_lt_or_eq.mp hk with hlt | rfl
      · exact h.1 k hlt
      · exact h.2
    have hcur : u32 (u32 (n*(v.bpb.spc*512))+v.bpb.spc*512) = u32 ((n+1)*(v.bpb.spc*512)) := by
      rw [u32, u32, u32, Nat.mod_add_mod, Nat.succ_mul]
    rw [Loop.after_succ, ih]
    by_cases hn : SeekGoes v offset c n
    · rw [if_pos hn, Option.bind_some]
      change (if (decide (inChain (v.fat^[n] c) = true ∧
        u32 (u32 (n*(v.bpb.spc*512))+v.bpb.spc*512) ≤ offset)) = true then
          some (u32 (u32 (n*(v.bpb.spc*512))+v.bpb.spc*512)) else none) = _
      rw [hcur]
      simp only [hsplit, hn, true_and, decide_eq_true_eq]
    · rw [if_neg hn, if_neg fun h => hn (hsplit.mp h).1]
      rfl

/-- The read loop over the sectors of a cluster. -/
theorem readSectors_advance {d : Disk} {lba n s cur : ℕ} {buf : List UInt8} :
    ((∀ j < n, ((advance offset want)^[j] (buf.length, cur)).1 < want →
        u32 (lba+(s+j)) < d.size) ∧
      ∃ b, readSectors d lba offset want n s buf cur = .ok b ∧
        (b.1.length, b.2) = (advance offset want)^[n] (buf.length, cur)) ∨
    (¬ ∀ j < n, ((advance offset want)^[j] (buf.length, cur)).1 < want →
        u32 (lba+(s+j)) < d.size) ∧
      ∃ b, readSectors d lba offset want n s buf cur = .error b := by
  induction n generalizing s buf cur with
  | zero => exact Or.inl ⟨fun j hj => absurd hj (Nat.not_lt_zero j), (buf, cur), rfl, rfl⟩
  | succ n ih =>
    by_cases hlt : buf.length < want
    · by_cases hread : u32 (lba+s) < d.size
      · -- one sector, and then the others
        obtain ⟨buf', cur', hstep, hsame⟩ : ∃ buf' cur',
            readSectors d lba offset want (n+1) s buf cur =
              readSectors d lba offset want n (s+1) buf' cur' ∧
            (buf'.length, cur') = advance offset want (buf.length, cur) := by
          rw [readSectors, if_pos hlt, Disk.read, if_pos hread, advance, if_pos hlt]
          dsimp only
          by_cases hskip : cur < offset ∧ 512 ≤ offset-cur
          · exact ⟨buf, _, by rw [if_pos hskip], by rw [if_pos hskip]⟩
          · refine ⟨_, _, by rw [if_neg hskip], ?_⟩
            rw [if_neg hskip, List.length_append, List.length_map, List.length_range]
        have hshift : ∀ j, u32 (lba+(s+1+j)) = u32 (lba+(s+(j+1))) := fun j => by
          rw [Nat.add_assoc s, Nat.add_comm 1]
        have hall : (∀ j < n+1, ((advance offset want)^[j] (buf.length, cur)).1 < want →
            u32 (lba+(s+j)) < d.size) ↔
            ∀ j < n, ((advance offset want)^[j] (buf'.length, cur')).1 < want →
              u32 (lba+(s+1+j)) < d.size := by
          simp only [hshift, hsame, ← Function.iterate_succ_apply]
          refine ⟨fun h j hj => h (j+1) (by omega), fun h j hj => ?_⟩
          cases j with
          | zero => exact fun _ => hread
          | succ j => exact h j (by omega)
        rw [hall, hstep, Function.iterate_succ_apply, ← hsame]
        exact ih
      · refine Or.inr ⟨fun h => hread (h 0 (Nat.succ_pos n) hlt), buf, ?_⟩
        rw [readSectors, if_pos hlt, Disk.read, if_neg hread]
    · have hone : advance offset want (buf.length, cur) = (buf.length, cur) := if_neg hlt
      have hfix : ∀ j, (advance offset want)^[j] (buf.length, cur) = (buf.length, cur) := fun j =>
        Function.iterate_fixed hone j
      refine Or.inl ⟨fun j _ hj => ?_, (buf, cur), ?_, (hfix (n+1)).symm⟩
      · rw [hfix] at hj
        exact absurd hj hlt
      · rw [readSectors, if_neg hlt]

theorem read_after {n c : ℕ} {b : List UInt8 × ℕ} :
    (ReadGoes v offset want c (b.1.length, b.2) n ∧ ∃ b', (reading v offset want).after n c b =
        some b' ∧ (b'.1.length, b'.2) = (advance offset want)^[n*v.bpb.spc] (b.1.length, b.2)) ∨
      ¬ ReadGoes v offset want c (b.1.length, b.2) n ∧
        (reading v offset want).after n c b = none := by
  induction n with
  | zero =>
    refine Or.inl ⟨fun k hk => absurd hk (Nat.not_lt_zero k), b, rfl, ?_⟩
    rw [Nat.zero_mul]
    rfl
  | succ n ih =>
    have hsplit : ReadGoes v offset want c (b.1.length, b.2) (n+1) ↔
        ReadGoes v offset want c (b.1.length, b.2) n ∧ inChain (v.fat^[n] c) = true ∧
          ((advance offset want)^[n*v.bpb.spc] (b.1.length, b.2)).1 < want ∧
          ∀ j < v.bpb.spc, ((advance offset want)^[n*v.bpb.spc+j] (b.1.length, b.2)).1 < want →
            u32 (v.bpb.clusterToLba (v.fat^[n] c)+j) < v.disk.size := by
      refine ⟨fun h => ⟨fun k hk => h k (by omega), h n (Nat.lt_succ_self n)⟩, fun h k hk => ?_⟩
      rcases Nat.lt_succ_iff_lt_or_eq.mp hk with hlt | rfl
      · exact h.1 k hlt
      · exact h.2
    rw [Loop.after_succ]
    rcases ih with ⟨hgoes, b', hb', hadv⟩ | ⟨hnot, hnone⟩
    · rw [hb', Option.bind_some, hsplit]
      have hmany : ∀ j, (advance offset want)^[n*v.bpb.spc+j] (b.1.length, b.2) =
          (advance offset want)^[j] (b'.1.length, b'.2) := fun j => by
        rw [Nat.add_comm, Function.iterate_add_apply, hadv]
      simp only [hmany, ← hadv, hgoes, true_and]
      rw [show (n+1)*v.bpb.spc = n*v.bpb.spc+v.bpb.spc from Nat.succ_mul _ _, hmany]
      by_cases hgo : b'.1.length < want ∧ inChain (v.fat^[n] c) = true
      · have hround : (reading v offset want).go ((reading v offset want).next^[n] c) b' = true :=
          decide_eq_true hgo
        rw [if_pos hround]
        have hbody := @readSectors_advance offset want v.disk
          (v.bpb.clusterToLba (v.fat^[n] c)) v.bpb.spc 0 b'.2 b'.1
        simp only [Nat.zero_add] at hbody
        rcases hbody with ⟨hall, b'', hok, hlen⟩ | ⟨hfail, b'', herr⟩
        · refine Or.inl ⟨⟨hgo.2, hgo.1, hall⟩, b'', ?_, hlen⟩
          change ((reading v offset want).body (v.fat^[n] c) b').getRight? = some b''
          simp only [reading, hok]
          rfl
        · refine Or.inr ⟨fun h => hfail h.2.2, ?_⟩
          change ((reading v offset want).body (v.fat^[n] c) b').getRight? = none
          simp only [reading, herr]
          rfl
      · have hround : ¬ (reading v offset want).go ((reading v offset want).next^[n] c) b' = true :=
          fun h => hgo (of_decide_eq_true h)
        rw [if_neg hround]
        exact Or.inr ⟨fun h => hgo ⟨h.2.1, h.1⟩, rfl⟩
    · rw [hnone]
      exact Or.inr ⟨fun h => hnot (hsplit.mp h).1, rfl⟩

/-- Where the seek loop has come to when it ends. -/
theorem seek_result {fuel c c' cur : ℕ} (h : seekLoop v offset fuel c 0 = some (c', cur)) :
    ∃ q, SeekGoes v offset c q ∧ c' = v.fat^[q] c ∧ cur = u32 (q*(v.bpb.spc*512)) ∧
      (inChain c' = true → offset < u32 ((q+1)*(v.bpb.spc*512))) := by
  rw [seeking_run] at h
  have hbody : ∀ c cur, ¬ ∃ r, (seeking v offset).body c cur = .inl r := fun c cur hr => by
    obtain ⟨r, hr⟩ := hr
    cases hr
  obtain ⟨q, -, b, hafter, hstop, hres⟩ := Loop.run_result hbody h
  rw [seek_after] at hafter
  split_ifs at hafter with hgoes
  obtain rfl := Option.some.inj hafter
  obtain ⟨rfl, rfl⟩ := Prod.mk.inj hres
  refine ⟨q, hgoes, rfl, rfl, fun hc => ?_⟩
  by_contra hle
  have hnext : u32 (u32 (q*(v.bpb.spc*512))+v.bpb.spc*512) ≤ offset := by
    rw [u32, u32, Nat.mod_add_mod, ← Nat.succ_mul]
    exact Nat.le_of_not_lt hle
  exact of_decide_eq_false hstop ⟨hc, hnext⟩

theorem seek_stop {q c : ℕ} (h : SeekGoes v offset c q) (hstop : offset < u32 ((q+1)*(v.bpb.spc*512)))
    {fuel : ℕ} (hlt : q < fuel) :
    seekLoop v offset fuel c 0 = some (v.fat^[q] c, u32 (q*(v.bpb.spc*512))) := by
  have hgo : (seeking v offset).go ((seeking v offset).next^[q] c) (u32 (q*(v.bpb.spc*512))) =
      false := by
    apply decide_eq_false
    rintro ⟨-, hle⟩
    rw [u32, u32, Nat.mod_add_mod, ← Nat.succ_mul] at hle
    exact absurd hle (Nat.not_le.mpr hstop)
  rw [seeking_run]
  exact Loop.run_stop (by rw [seek_after, if_pos h]) hgo hlt

theorem seek_visits {fuel c x : ℕ} : x ∈ (seeking v offset).visits fuel c 0 ↔
    ∃ n < fuel, x = v.fat^[n] c ∧ SeekGoes v offset c (n+1) := by
  rw [Loop.mem_visits]
  apply exists_congr
  intro n
  apply and_congr_right
  intro _
  apply and_congr_right
  intro _
  rw [seek_after]
  by_cases h : SeekGoes v offset c (n+1) <;> simp [h]

theorem read_visits {fuel c x : ℕ} {b : List UInt8 × ℕ} :
    x ∈ (reading v offset want).visits fuel c b ↔
      ∃ n < fuel, x = v.fat^[n] c ∧ ReadGoes v offset want c (b.1.length, b.2) (n+1) := by
  rw [Loop.mem_visits]
  apply exists_congr
  intro n
  apply and_congr_right
  intro _
  apply and_congr_right
  intro _
  rcases @read_after v offset want (n+1) c b with ⟨hgoes, b', hb', -⟩ | ⟨hnot, hnone⟩
  · rw [hb']
    exact iff_of_true rfl hgoes
  · rw [hnone]
    exact iff_of_false (by simp) hnot

theorem entry_inTable (e : DirEntry) (offset size : ℕ) :
    (∀ fuel, ∀ i ∈ entryAccesses fuel v e offset size, i < Bpb.maxFatEntries) ↔
      EntryInTable v e offset size := by
  by_cases hpast : e.fileSize.toNat ≤ offset
  · exact iff_of_true (fun fuel i hi => by simp [entryAccesses, hpast] at hi) (Or.inl hpast)
  rw [EntryInTable, or_iff_right hpast]
  generalize hwant : (if e.fileSize.toNat < u32 (offset+size) then e.fileSize.toNat-offset
    else size) = want
  have hlost : ∀ fuel, seekLoop v offset fuel e.cluster 0 = none →
      entryAccesses fuel v e offset size = (seeking v offset).visits fuel e.cluster 0 := by
    intro fuel hs
    rw [entryAccesses, if_neg hpast, hs]
    exact List.append_nil _
  have hsought : ∀ fuel c cur, seekLoop v offset fuel e.cluster 0 = some (c, cur) →
      entryAccesses fuel v e offset size = (seeking v offset).visits fuel e.cluster 0++
        if inChain c then (reading v offset want).visits fuel c ([], cur) else [] := by
    intro fuel c cur hs
    rw [entryAccesses, if_neg hpast, hs]
    dsimp only
    rw [hwant]
  have hseeking : ∀ fuel, ∀ i ∈ (seeking v offset).visits fuel e.cluster 0,
      i ∈ entryAccesses fuel v e offset size := by
    intro fuel i hi
    cases hs : seekLoop v offset fuel e.cluster 0 with
    | none =>
      rw [hlost fuel hs]
      exact hi
    | some r =>
      rw [hsought fuel r.1 r.2 hs]
      exact List.mem_append_left _ hi
  constructor
  · intro hall
    refine ⟨fun n hn => ?_, fun q hq hstop n hn => ?_⟩
    · exact hall (n+1) _ (hseeking _ _ (seek_visits.mpr ⟨n, Nat.lt_succ_self n, rfl, hn⟩))
    · have hc : inChain (v.fat^[q] e.cluster) = true := (hn 0 (Nat.succ_pos n)).1
      refine hall (max (q+1) (n+1)) _ ?_
      rw [hsought _ _ _ (seek_stop hq hstop (Nat.le_max_left _ _)), if_pos hc]
      exact List.mem_append_right _ (read_visits.mpr ⟨n, Nat.le_max_right _ _, rfl, hn⟩)
  · rintro ⟨hseek, hread⟩ fuel i hi
    have hfirst : i ∈ (seeking v offset).visits fuel e.cluster 0 → i < Bpb.maxFatEntries := by
      intro hi
      obtain ⟨n, -, rfl, hn⟩ := seek_visits.mp hi
      exact hseek n hn
    cases hs : seekLoop v offset fuel e.cluster 0 with
    | none =>
      rw [hlost fuel hs] at hi
      exact hfirst hi
    | some r =>
      obtain ⟨c, cur⟩ := r
      rw [hsought fuel c cur hs] at hi
      obtain ⟨q, hq, rfl, rfl, hstop⟩ := seek_result hs
      rcases List.mem_append.mp hi with hi | hi
      · exact hfirst hi
      · split_ifs at hi with hc
        · obtain ⟨n, -, rfl, hn⟩ := read_visits.mp hi
          exact hread q hq (hstop hc) n hn
        · cases hi

/-- More rounds only add indices. -/
theorem entry_more {e : DirEntry} {offset size fuel fuel' i : ℕ}
    (h : i ∈ entryAccesses fuel v e offset size) (hle : fuel ≤ fuel') :
    i ∈ entryAccesses fuel' v e offset size := by
  unfold entryAccesses at h ⊢
  by_cases hpast : e.fileSize.toNat ≤ offset
  · rw [if_pos hpast] at h
    cases h
  · rw [if_neg hpast] at h ⊢
    dsimp only at h ⊢
    rcases List.mem_append.mp h with h | h
    · obtain ⟨n, hn, rfl, hgoes⟩ := seek_visits.mp h
      exact List.mem_append_left _ (seek_visits.mpr ⟨n, by omega, rfl, hgoes⟩)
    · apply List.mem_append_right
      cases hs : seekLoop v offset fuel e.cluster 0 with
      | none =>
        rw [hs] at h
        cases h
      | some found =>
        obtain ⟨c, cur⟩ := found
        rw [hs] at h
        rw [seeking_run] at hs
        rw [seeking_run, Loop.run_mono hs hle]
        dsimp only at h ⊢
        by_cases hc : inChain c = true
        · rw [if_pos hc] at h ⊢
          obtain ⟨n, hn, rfl, hgoes⟩ := read_visits.mp h
          exact read_visits.mpr ⟨n, by omega, rfl, hgoes⟩
        · rw [if_neg hc] at h
          cases h

theorem read_inTable (vn : Vnode) (offset size : ℕ) :
    (∀ fuel, ∀ i ∈ readAccesses fuel v vn offset size, i < Bpb.maxFatEntries) ↔
      ReadInTable v vn offset size := by
  by_cases hm : v.mounted = false
  · exact iff_of_true (fun fuel i hi => by simp [readAccesses, hm] at hi) (Or.inl hm)
  by_cases ht : vn.type ≠ .file
  · refine iff_of_true (fun fuel i hi => ?_) (Or.inr (Or.inl ht))
    rw [readAccesses, if_neg hm, if_pos ht] at hi
    cases hi
  rw [ReadInTable, or_iff_right hm, or_iff_right ht]
  cases hdata : vn.nodeData with
  | none =>
    refine iff_of_true (fun fuel i hi => ?_) (fun name parent h => by cases h)
    rw [readAccesses, if_neg hm, if_neg ht, hdata] at hi
    cases hi
  | some data =>
    obtain ⟨name, parent⟩ := data
    have hmissed : ∀ fuel, (∀ p, findDirEntry fuel v parent name ≠ some (some p)) →
        readAccesses fuel v vn offset size = findAccesses fuel v parent name := by
      intro fuel hno
      rw [readAccesses, hdata, if_neg hm, if_neg ht]
      dsimp only
      cases hf : findDirEntry fuel v parent name with
      | none => exact List.append_nil _
      | some found =>
        cases found with
        | none => exact List.append_nil _
        | some p => exact absurd hf (hno p)
    have hfound : ∀ fuel p, findDirEntry fuel v parent name = some (some p) →
        readAccesses fuel v vn offset size = findAccesses fuel v parent name++
          entryAccesses fuel v (v.loadEntry p) offset size := by
      intro fuel p hf
      rw [readAccesses, hdata, if_neg hm, if_neg ht]
      dsimp only
      rw [hf]
    have hlooked : ∀ fuel, ∀ i ∈ findAccesses fuel v parent name,
        i ∈ readAccesses fuel v vn offset size := by
      intro fuel i hi
      by_cases hf : ∃ p, findDirEntry fuel v parent name = some (some p)
      · obtain ⟨p, hf⟩ := hf
        rw [hfound fuel p hf]
        exact List.mem_append_left _ hi
      · rw [hmissed fuel (not_exists.mp hf)]
        exact hi
    constructor
    · intro hall name' parent' hsame
      obtain ⟨rfl, rfl⟩ := Prod.mk.inj (Option.some.inj hsame)
      refine ⟨(find_inTable parent name).mp fun fuel i hi => hall fuel i (hlooked fuel i hi),
        fun p hp => ?_⟩
      refine (entry_inTable _ offset size).mp fun fuel i hi => ?_
      have hmodel : findDirEntry chainFuel v parent name = some (some p) := hp
      refine hall (max fuel chainFuel) i ?_
      rw [hfound _ p (find_mono hmodel (Nat.le_max_right fuel chainFuel))]
      exact List.mem_append_right _ (entry_more hi (Nat.le_max_left fuel chainFuel))
    · intro hin fuel i hi
      obtain ⟨hfind, hentry⟩ := hin name parent rfl
      by_cases hf : ∃ p, findDirEntry fuel v parent name = some (some p)
      · obtain ⟨p, hf⟩ := hf
        rw [hfound fuel p hf] at hi
        rcases List.mem_append.mp hi with hi | hi
        · exact (find_inTable parent name).mpr hfind fuel i hi
        · exact (entry_inTable _ offset size).mpr (hentry p (find_model hf)) fuel i hi
      · rw [hmissed fuel (not_exists.mp hf)] at hi
        exact (find_inTable parent name).mpr hfind fuel i hi

end Reading

section Clearing

variable {v : Volume} {c start : ℕ}

/-- Every entry of the table is an index of it or an end mark; 0 and 1 are indices too. -/
def EntriesValid (v : Volume) : Prop :=
  ∀ i < Bpb.maxFatEntries, v.fat i < Bpb.maxFatEntries ∨ 0xFFF8 ≤ v.fat i

/-- The entry of the first cluster leads to the second. -/
def LeadsTo (v : Volume) (c d : ℕ) : Prop := v.fat c = d ∧ inChain d = true

theorem leads_iterate (hs : inChain start = true) : Relation.ReflTransGen (LeadsTo v) start c ↔
    ∃ n, c = v.fat^[n] start ∧ ∀ k ≤ n, inChain (v.fat^[k] start) = true := by
  constructor
  · intro h
    induction h with
    | refl =>
      refine ⟨0, rfl, fun k hk => ?_⟩
      obtain rfl : k = 0 := by omega
      exact hs
    | tail _ hlast ih =>
      obtain ⟨n, rfl, hn⟩ := ih
      obtain ⟨rfl, hin⟩ := hlast
      refine ⟨n+1, (Function.iterate_succ_apply' _ _ _).symm, fun k hk => ?_⟩
      rcases Nat.lt_or_eq_of_le hk with hlt | rfl
      · exact hn k (by omega)
      · rwa [Function.iterate_succ_apply']
  · rintro ⟨n, rfl, hn⟩
    induction n with
    | zero => exact .refl
    | succ n ih =>
      have hlive := hn (n+1) le_rfl
      rw [Function.iterate_succ_apply'] at hlive ⊢
      exact .tail (ih fun k hk => hn k (by omega)) ⟨rfl, hlive⟩

/-- Following entries from a cluster of the table never leaves it. -/
theorem leads_inTable (h : EntriesValid v) (hs : start < Bpb.maxFatEntries)
    (hr : Relation.ReflTransGen (LeadsTo v) start c) : c < Bpb.maxFatEntries := by
  induction hr with
  | refl => exact hs
  | tail _ hlast ih =>
    obtain ⟨rfl, hin⟩ := hlast
    simp only [inChain, Bool.and_eq_true, decide_eq_true_eq] at hin
    exact (h _ ih).resolve_right (by omega)

/-- What `free_chain` clears is what can be reached, also where the entries lead back to a
cluster or into another chain. -/
theorem freeChain_reachable (v : Volume) (start : ℕ) (h : EntriesValid v) (h2 : 2 ≤ start)
    (hs : start < Bpb.maxFatEntries) :
    ∃ w, v.freeChain start = some w ∧
      (∀ i ∈ chainFrom chainFuel v start, i < Bpb.maxFatEntries) ∧
      (∀ c, Relation.ReflTransGen (LeadsTo v) start c → w.fat c = 0) ∧
      (∀ c, ¬ Relation.ReflTransGen (LeadsTo v) start c → w.fat c = v.fat c) ∧
      w.bpb = v.bpb ∧ w.disk = v.disk ∧ w.mounted = v.mounted := by
  have hin : inChain start = true := by
    unfold Bpb.maxFatEntries at hs
    simp only [inChain, Bool.and_eq_true, decide_eq_true_eq]
    omega
  obtain ⟨w, hw⟩ := freeChain_returns v start
  obtain ⟨hb, hd, hm, hfat⟩ := freeLoop_frees hw
  have hcells : ∀ c, c ∈ chainFrom chainFuel v start ↔
      Relation.ReflTransGen (LeadsTo v) start c := by
    intro c
    rw [leads_iterate hin]
    constructor
    · exact chainFrom_orbit
    · rintro ⟨n, rfl, hn⟩
      exact orbit_chainFrom hw hn
  refine ⟨w, hw, fun i hi => leads_inTable h hs ((hcells i).mp hi), fun c hc => ?_, fun c hc => ?_,
    hb, hd, hm⟩
  · rw [hfat, if_pos ((hcells c).mpr hc)]
  · rw [hfat, if_neg (mt (hcells c).mp hc)]

/-- The chain 2, 3, 4 leads back to 3, and 5 leads into it. -/
def cyclicVolume : Volume where
  bpb := ⟨1, 1, 1, 16, 1⟩
  mounted := true
  fatTable c := if c = 2 then 3 else if c = 3 then 4 else if c = 4 ∨ c = 5 then 3 else 0
  disk := ⟨0, fun _ => zeroSector⟩

theorem freeChain_reachable_cyclic : ∃ w, cyclicVolume.freeChain 2 = some w ∧
    w.fat 2 = 0 ∧ w.fat 3 = 0 ∧ w.fat 4 = 0 ∧ w.fat 5 = 3 := by
  have hvalid : EntriesValid cyclicVolume := by
    intro i _
    refine Or.inl ?_
    unfold Volume.fat cyclicVolume Bpb.maxFatEntries
    dsimp only
    split_ifs <;> decide
  have h3 : LeadsTo cyclicVolume 2 3 := ⟨rfl, rfl⟩
  have h4 : LeadsTo cyclicVolume 3 4 := ⟨rfl, rfl⟩
  have hfive : ∀ c, Relation.ReflTransGen (LeadsTo cyclicVolume) 2 c → c = 2 ∨ c = 3 ∨ c = 4 := by
    intro c hc
    induction hc with
    | refl => exact Or.inl rfl
    | tail _ hlast ih =>
      rcases ih with rfl | rfl | rfl
      · exact Or.inr (Or.inl hlast.1.symm)
      · exact Or.inr (Or.inr hlast.1.symm)
      · exact Or.inr (Or.inl hlast.1.symm)
  obtain ⟨w, hw, -, hclear, hkeep, -⟩ := freeChain_reachable cyclicVolume 2 hvalid (by decide)
    (by decide)
  refine ⟨w, hw, hclear 2 .refl, hclear 3 (.single h3),
    hclear 4 ((Relation.ReflTransGen.single h3).tail h4), hkeep 5 fun h => ?_⟩
  rcases hfive 5 h with h | h | h
  all_goals cases h

end Clearing

end Vlsmc.TableBounds
