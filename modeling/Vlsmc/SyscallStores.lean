import Vlsmc.CowRuns

/-!
# What system calls store through pointers of the caller

The processor runs system calls in ring 0, where `CR0.WP` is clear: a store goes
to every present page. The stores of `sys_recv_msg`, `sys_fread` and `sys_wait`
are compared with the same stores in user mode.
-/

set_option autoImplicit false

namespace Vlsmc.SyscallStores
open Vlsmc.Words Vlsmc.SharedFrames Vlsmc.PhysicalMemory Vlsmc.Paging Vlsmc.CowClone
open Vlsmc.CowProcesses Vlsmc.CowRefinement Vlsmc.CowRuns

/-- A system call with the pointers it got and what it has to store: the message
received, the bytes the file system read, the exit code of the child. -/
inductive Syscall where
  | recvMsg (senderTidOut buffer senderTid : ℕ) (data : List ℕ)
  | fread (buffer : ℕ) (data : List ℕ)
  | wait (statusPtr exitCode : ℕ)
  deriving DecidableEq, Repr

/-- A `uint32_t` in memory. -/
def bytesOf (value : ℕ) : List ℕ := (List.range 4).map fun i => value/256^i%256

/-- `ptr[i] = data[i]` in order: addresses and bytes. -/
def copyOut (ptr : ℕ) (data : List ℕ) : List (ℕ × ℕ) :=
  data.zipIdx.map fun x => (u32 (ptr+x.2), x.1)

def stores : Syscall → List (ℕ × ℕ)
  | .recvMsg senderTidOut buffer senderTid data =>
    (if senderTidOut = 0 then [] else copyOut senderTidOut (bytesOf senderTid))++copyOut buffer data
  | .fread buffer data => copyOut buffer data
  | .wait statusPtr exitCode => if statusPtr = 0 then [] else copyOut statusPtr (bytesOf exitCode)

/-- Byte `k` of a word is replaced. -/
def putByte (word k byte : ℕ) : ℕ := word-word/256^k%256*256^k+byte*256^k

/-- Where a store in ring 0 goes, or `none` for a page fault. -/
def kernelAccess (m : Machine) (virt : ℕ) : Option (ℕ × ℕ) :=
  if present (m.walk virt).1 && present (m.walk virt).2 then
    some (frameOf (m.walk virt).2, virt%4096/4)
  else none

/-- A page fault in ring 0 is not handled: the machine stops. -/
def kernelStore (m : Machine) (virt byte : ℕ) : Option Machine :=
  (kernelAccess m virt).map fun l => m.write l (putByte (m.read l) (virt%4) byte)

def kernelStores (m : Machine) : List (ℕ × ℕ) → Option Machine
  | [] => some m
  | x::xs => (kernelStore m x.1 x.2).bind fun m' => kernelStores m' xs

/-- The same store in user mode, with its page fault. -/
def userStore (m : Machine) (virt byte : ℕ) : Option (Machine × Outcome) :=
  storeWord m virt (putByte (m.mem (frameOf (m.walk virt).2) (virt%4096/4)) (virt%4) byte)

inductive Event where
  | user (a : Action)
  | syscall (p : ℕ) (c : Syscall)

def step (s : World) : Event → Option (World × Outcome)
  | .user a => CowProcesses.step s a
  | .syscall p c =>
    (s.procs p).bind fun d =>
      (kernelStores (s.machine.switchAddressSpace d) (stores c)).map fun m => (⟨m, s.procs⟩, .done)

def run (s : World) : List Event → Option (World × List Outcome)
  | [] => some (s, [])
  | e::es => (step s e).bind fun r => (run r.1 es).map fun r' => (r'.1, r.2::r'.2)

/-- A store of a byte in user mode, as the reference has it. -/
def referenceByte (p : ℕ) (r : Reference) (x : ℕ × ℕ) : Reference :=
  match r.page (p, x.1/4096) with
  | some g =>
    if g.writable then
      { r with page := setSlot r.page (p, x.1/4096) (some (g.set (wordIndex x.1)
        (putByte (g.data (wordIndex x.1)) (x.1%4) x.2))) }
    else r
  | none => r

def referenceStep (r : Reference) : Event → Option (Reference × Outcome)
  | .user a => CowProcesses.referenceStep r a
  | .syscall p c =>
    if r.live p then some ((stores c).foldl (referenceByte p) r, .done) else none

def referenceRun (r : Reference) : List Event → Option (Reference × List Outcome)
  | [] => some (r, [])
  | e::es => (referenceStep r e).bind fun q =>
      (referenceRun q.1 es).map fun q' => (q'.1, q.2::q'.2)

/-- Each store in ring 0 is one that user mode allows without a fault. -/
def PermittedStores (m : Machine) : List (ℕ × ℕ) → Prop
  | [] => True
  | x::xs => (∀ l ∈ kernelAccess m x.1, (m.userAccess x.1 true).isSome) ∧
    ∀ m' ∈ kernelStore m x.1 x.2, PermittedStores m' xs

instance decidablePermittedStores : (m : Machine) → (xs : List (ℕ × ℕ)) →
    Decidable (PermittedStores m xs)
  | _, [] => .isTrue trivial
  | m, x::xs =>
    have := fun m' => decidablePermittedStores m' xs
    inferInstanceAs (Decidable ((∀ l ∈ kernelAccess m x.1, (m.userAccess x.1 true).isSome) ∧
      ∀ m' ∈ kernelStore m x.1 x.2, PermittedStores m' xs))

def Permitted (s : World) : Event → Prop
  | .user _ => True
  | .syscall p c => ∀ d, s.procs p = some d →
    PermittedStores (s.machine.switchAddressSpace d) (stores c)

def PermittedRun (s : World) : List Event → Prop
  | [] => True
  | e::es => Permitted s e ∧ ∀ r, step s e = some r → PermittedRun r.1 es

/-- Each store does what it does in user mode. -/
def AsUserStores (m : Machine) : List (ℕ × ℕ) → Prop
  | [] => True
  | x::xs => ∀ m', kernelStore m x.1 x.2 = some m' →
    userStore m x.1 x.2 = some (m', .done) ∧ AsUserStores m' xs

def AsUser (s : World) : Event → Prop
  | .user _ => True
  | .syscall p c => ∀ d, s.procs p = some d →
    AsUserStores (s.machine.switchAddressSpace d) (stores c)

def AsUserRun (s : World) : List Event → Prop
  | [] => True
  | e::es => AsUser s e ∧ ∀ r, step s e = some r → AsUserRun r.1 es

variable {reserved : ℕ → Prop} {s : World} {m m' : Machine} {p d virt byte : ℕ}

theorem userAccess_kernelAccess {l : ℕ × ℕ} (h : m.userAccess virt true = some l) :
    kernelAccess m virt = some l ∧ l = (frameOf (m.walk virt).2, virt%4096/4) := by
  unfold Machine.userAccess at h
  unfold kernelAccess
  dsimp only at h
  split_ifs at h with hc
  simp only [Bool.and_eq_true] at hc
  rw [hc.1.1.1.1, hc.1.1.2]
  exact ⟨h, (Option.some.inj h).symm⟩

/-- A permitted store is the store of user mode. -/
theorem kernelStore_user (h : kernelStore m virt byte = some m')
    (hp : ∀ l, kernelAccess m virt = some l → (m.userAccess virt true).isSome) :
    ∃ l, m.userAccess virt true = some l ∧ l = (frameOf (m.walk virt).2, virt%4096/4) ∧
      m' = m.write l (putByte (m.read l) (virt%4) byte) ∧
      userStore m virt byte = some (m', .done) := by
  obtain ⟨l, hl, rfl⟩ := Option.map_eq_some_iff.mp h
  obtain ⟨l', hl'⟩ := Option.isSome_iff_exists.mp (hp l hl)
  obtain ⟨h1, h2⟩ := userAccess_kernelAccess hl'
  obtain rfl : l = l' := Option.some.inj (hl.symm.trans h1)
  refine ⟨l, hl', h2, rfl, ?_⟩
  unfold userStore storeWord
  rw [hl', h2]
  rfl

theorem asUser_of_permitted {xs : List (ℕ × ℕ)} (h : PermittedStores m xs) :
    AsUserStores m xs := by
  induction xs generalizing m with
  | nil => trivial
  | cons x xs ih =>
    intro m' hm
    obtain ⟨l, -, -, -, hu⟩ := kernelStore_user hm h.1
    exact ⟨hu, ih (h.2 m' hm)⟩

/-- The page of a store that user mode allows belongs to the process. -/
theorem running_of_userAccess (hs : Sound reserved s) (hd : s.procs p = some d)
    (hc : s.machine.cr3 = d) (hv : virt < 4294967296)
    (h : (s.machine.userAccess virt true).isSome) :
    ∃ t w, Running s p (virt/4096) d t w ∧ writable w = true := by
  obtain ⟨l, hl⟩ := Option.isSome_iff_exists.mp h
  unfold Machine.userAccess at hl
  dsimp only at hl
  split_ifs at hl with hcond
  simp only [Bool.and_eq_true, Bool.not_true, Bool.false_or] at hcond
  obtain ⟨⟨⟨⟨h1, h2⟩, h3⟩, h4⟩, h5, h6⟩ := hcond
  unfold Machine.walk at h1 h2 h3 h4 h5 h6
  dsimp only at h1 h2 h3 h4 h5 h6
  rw [hc] at h1 h2 h3 h4 h5 h6
  have hdiv : virt/4194304 = virt/4096/1024 := by omega
  rw [hdiv] at h1 h2 h3 h4 h5 h6
  have hi : virt/4096/1024 < 1023 := by
    by_contra hge
    have h1023 : virt/4096/1024 = 1023 := by omega
    rw [h1023, (hs.layout.dir p d hd).2.2.2, user_entry _ (by decide)] at h2
    exact absurd h2 (by decide)
  exact ⟨_, _, ⟨hd, hc, tableAt_of hi h1 h2, rfl, h3⟩, h6⟩

/-- One permitted store keeps the invariant and changes the caller's page alone. -/
theorem kernelStore_spec (hs : Sound reserved s) (hd : s.procs p = some d)
    (hc : s.machine.cr3 = d) (hv : virt < 4294967296)
    (h : kernelStore s.machine virt byte = some m')
    (hp : ∀ l, kernelAccess s.machine virt = some l → (s.machine.userAccess virt true).isSome) :
    Sound reserved ⟨m', s.procs⟩ ∧ m'.cr3 = d ∧
      view ⟨m', s.procs⟩ = referenceByte p (view s) (virt, byte) := by
  obtain ⟨l, hl, hloc, rfl, -⟩ := kernelStore_user h hp
  obtain ⟨t, w, hrun, hw⟩ := running_of_userAccess hs hd hc hv (by rw [hl]; rfl)
  have hwalk : (s.machine.walk virt).2 = w := by rw [running_walk hrun]
  rw [hwalk] at hloc
  obtain ⟨h1, h2⟩ := write_spec hs hrun hw (wordIndex virt)
    (putByte (s.machine.read (frameOf w, virt%4096/4)) (virt%4) byte)
  rw [hloc]
  refine ⟨h1, hc, h2.trans ?_⟩
  have hpage := view_page (running_ptes hrun)
  have hwr : (pageOf s.machine w).writable = true := by
    simp [pageOf, hw]
  unfold referenceByte
  dsimp only
  rw [hpage]
  dsimp only
  rw [if_pos hwr]
  rfl

theorem stores_lt {c : Syscall} {x : ℕ × ℕ} (h : x ∈ stores c) : x.1 < 4294967296 := by
  have hcopy : ∀ ptr data, x ∈ copyOut ptr data → x.1 < 4294967296 := by
    intro ptr data hx
    obtain ⟨y, -, rfl⟩ := List.mem_map.mp hx
    exact Nat.mod_lt _ (by decide)
  cases c with
  | recvMsg senderTidOut buffer senderTid data =>
    rw [stores, List.mem_append] at h
    rcases h with h | h
    · split_ifs at h
      · exact absurd h (by simp)
      · exact hcopy _ _ h
    · exact hcopy _ _ h
  | fread buffer data => exact hcopy _ _ h
  | wait statusPtr exitCode =>
    rw [stores] at h
    split_ifs at h
    · exact absurd h (by simp)
    · exact hcopy _ _ h

theorem kernelStores_spec {xs : List (ℕ × ℕ)} (hs : Sound reserved s) (hd : s.procs p = some d)
    (hc : s.machine.cr3 = d) (hv : ∀ x ∈ xs, x.1 < 4294967296)
    (h : kernelStores s.machine xs = some m') (hp : PermittedStores s.machine xs) :
    Sound reserved ⟨m', s.procs⟩ ∧ view ⟨m', s.procs⟩ = xs.foldl (referenceByte p) (view s) := by
  induction xs generalizing s with
  | nil =>
    obtain rfl := Option.some.inj h
    exact ⟨hs, rfl⟩
  | cons x xs ih =>
    obtain ⟨m₁, hm₁, h⟩ := Option.bind_eq_some_iff.mp h
    obtain ⟨h1, h2, h3⟩ := kernelStore_spec hs hd hc (hv x List.mem_cons_self) hm₁ hp.1
    obtain ⟨h4, h5⟩ := ih h1 hd h2 (fun y hy => hv y (List.mem_cons_of_mem _ hy)) h (hp.2 m₁ hm₁)
    refine ⟨h4, h5.trans ?_⟩
    rw [h3]
    rfl

theorem step_refines (hs : Sound reserved s) (e : Event) {r : World × Outcome}
    (h : step s e = some r) (hp : Permitted s e) :
    Sound reserved r.1 ∧ referenceStep (view s) e = some (view r.1, r.2) ∧ AsUser s e := by
  cases e with
  | user a =>
    obtain ⟨h1, h2⟩ := CowRuns.step_refines hs a h
    exact ⟨h1, h2, trivial⟩
  | syscall p c =>
    obtain ⟨d, hd, h⟩ := Option.bind_eq_some_iff.mp h
    obtain ⟨m, hm, rfl⟩ := Option.map_eq_some_iff.mp h
    obtain ⟨h1, h2⟩ := kernelStores_spec (sound_switch hs d) hd rfl (fun x hx => stores_lt hx) hm
      (hp d hd)
    refine ⟨h1, ?_, fun d' hd' => asUser_of_permitted (hp d' hd')⟩
    rw [referenceStep, if_pos (view_live hd)]
    exact congrArg (fun v => some (v, Outcome.done)) h2.symm

theorem run_refines (hs : Sound reserved s) (es : List Event) {r : World × List Outcome}
    (h : run s es = some r) (hp : PermittedRun s es) :
    referenceRun (view s) es = some (view r.1, r.2) ∧ AsUserRun s es := by
  induction es generalizing s r with
  | nil =>
    obtain rfl := Option.some.inj h
    exact ⟨rfl, trivial⟩
  | cons e es ih =>
    obtain ⟨r1, h1, h⟩ := Option.bind_eq_some_iff.mp h
    obtain ⟨r2, h2, rfl⟩ := Option.map_eq_some_iff.mp h
    obtain ⟨hs1, href, hu⟩ := step_refines hs e h1 hp.1
    obtain ⟨hrun, hus⟩ := ih hs1 h2 (hp.2 r1 h1)
    refine ⟨?_, hu, fun r hr => ?_⟩
    · rw [referenceRun, href, Option.bind_some, hrun]
      rfl
    · obtain rfl := Option.some.inj (h1.symm.trans hr)
      exact hus

/-- Where every page that a system call stores to can be written in user mode, the
stores are those of user mode: no other process and no kernel page changes. -/
theorem stores_respect_protection (reserved : ℕ → Prop) (s : World) (hs : Anonymous reserved s)
    (es : List Event) (s' : World) (outs : List Outcome) (h : run s es = some (s', outs))
    (hp : PermittedRun s es) :
    referenceRun (view s) es = some (view s', outs) ∧ AsUserRun s es :=
  run_refines (sound_of_anonymous hs) es h hp

/-- The status of a child goes to the page of process 1. -/
theorem stores_respect_protection_onePage :
    ∃ s', run onePage [.syscall 1 (.wait 0x2000000 7)] = some (s', [.done]) ∧
      referenceRun (view onePage) [.syscall 1 (.wait 0x2000000 7)] = some (view s', [.done]) ∧
      AsUserRun onePage [.syscall 1 (.wait 0x2000000 7)] := by
  have hrun : (run onePage [.syscall 1 (.wait 0x2000000 7)]).map Prod.snd = some [.done] := by
    decide +kernel
  obtain ⟨⟨s', outs⟩, hr, rfl⟩ := Option.map_eq_some_iff.mp hrun
  refine ⟨s', hr, stores_respect_protection _ onePage onePage_anonymous _ s' _ hr
    ⟨fun d hd => ?_, fun r _ => trivial⟩⟩
  obtain ⟨-, rfl⟩ := onePage_procs hd
  decide +kernel

/-- `sys_wait` is given the address of an entry of the caller's page directory: in
user mode the store faults, in ring 0 it removes a page table. -/
theorem wait_writes_directory :
    ¬∀ (reserved : ℕ → Prop) (s : World), Anonymous reserved s → ∀ es s' outs,
      run s es = some (s', outs) →
      referenceRun (view s) es = some (view s', outs) ∧ AsUserRun s es := by
  intro hall
  have hrun : (run onePage [.syscall 1 (.wait 0xFFFFF020 0)]).map
      (fun r => (r.2, ((view r.1).page (1, 8192)).isSome)) = some ([.done], false) := by
    decide +kernel
  obtain ⟨⟨s', outs⟩, hr, heq⟩ := Option.map_eq_some_iff.mp hrun
  obtain ⟨h1, -⟩ := hall _ onePage onePage_anonymous _ s' outs hr
  have href : ((referenceRun (view onePage) [.syscall 1 (.wait 0xFFFFF020 0)]).map
      fun r => (r.1.page (1, 8192)).isSome) = some true := by
    decide +kernel
  rw [h1, Option.map_some] at href
  exact absurd ((Prod.mk.inj heq).2.symm.trans (Option.some.inj href)) (by decide)

end Vlsmc.SyscallStores
