import Franklin.Exec.Lemmas.Args
import Franklin.Fs.Lemmas.Released

/-!
This module contains the steps of `exec`, and what is left of them when the file cannot be executed.
-/

open Radix

namespace Franklin
namespace Exec

open Vmm (Addr Mem Vm P2V)
open Pmm (bitmap_test FreeRun setRun)

section Kept

variable {s s' s'' : State} {vm : Vm}

structure Kept (s s' : State) : Prop where
  held : Held s s'
  heap : s'.heap = s.heap
  slabs : s'.slabs = s.slabs

theorem Kept.refl (s : State) : Kept s s :=
  ⟨Held.refl s, rfl, rfl⟩

theorem Kept.trans (h : Kept s s') (h' : Kept s' s'') : Kept s s'' where
  held := h.held.trans h'.held
  heap := by rw [h'.heap, h.heap]
  slabs := by rw [h'.slabs, h.slabs]

theorem Kept.withVm (s : State) (vm : Vm) : Kept s (s.withVm vm) :=
  ⟨Held.withVm s vm, rfl, rfl⟩

end Kept

def NeverFrees {α : Type} (x : Prog α) : Prop :=
  ∀ s, wp x (fun _ s' => Held s s') (fun _ s' => Held s s') s

def LeavesHeap {α : Type} (x : Prog α) : Prop :=
  ∀ s, wp x (fun _ s' => Kept s s') (fun _ s' => Kept s s') s

namespace LeavesHeap

variable {α β : Type} {fuel n : Nat} {vmap paddr : Addr} {vaddr flags bytes offset count : BitVec 64}
variable {vn : Fs.File} {elf phdr buf : Block} {locals : Locals} {name : Fs.Name} {argv : List Arg} {aux : Auxval}

theorem neverFrees {x : Prog α} (hx : LeavesHeap x) : NeverFrees x := by
  intro s
  apply wp_mono (hx s)
  . intro a s' h
    exact h.held
  . intro e s' h
    exact h.held

theorem pure (a : α) : LeavesHeap (pure a : Prog α) :=
  Kept.refl

theorem throw (e : Fs.Stop) : LeavesHeap (throw e : Prog α) :=
  Kept.refl

theorem bind {x : Prog α} {f : α → Prog β} (hx : LeavesHeap x) (hf : ∀ a, LeavesHeap (f a)) : LeavesHeap (x >>= f) := by
  intro s
  apply wp_bind_mono (hx s)
  . intro e s' h
    exact h
  . intro a s' h
    apply wp_mono (hf a s')
    . intro b s''
      exact h.trans
    . intro e s''
      exact h.trans

theorem modify {f : State → State} (hf : ∀ s, Kept s (f s)) : LeavesHeap (modify f : Prog PUnit) :=
  hf

theorem palloc (hn : n ≤ 2 ^ 52) : LeavesHeap (palloc n) := by
  intro s
  apply wp_mono (palloc_wp s hn)
  . rintro _ s' ⟨p, _, _, rfl, _⟩
    exact ⟨Held.of_setRun rfl, rfl, rfl⟩
  . rintro _ s' rfl
    exact Kept.refl s'

theorem newvm_map.copy {kernel_top : Addr} : LeavesHeap (newvm_map.copy kernel_top) := by
  intro s
  unfold wp Exec.newvm_map.copy
  dsimp only
  cases Vmm.newvm_map s.vm kernel_top with
  | none => exact Kept.refl s
  | some res => exact Kept.withVm s res.2

theorem mappages : LeavesHeap (mappages vmap vaddr paddr bytes flags) := by
  intro s
  unfold wp Exec.mappages
  dsimp only
  cases Vmm.mappages s.vm vmap vaddr paddr bytes flags with
  | none => exact Kept.refl s
  | some res => exact Kept.withVm s res.2

theorem vfs_open : LeavesHeap (vfs_open name fuel) := by
  intro s
  unfold wp Exec.vfs_open
  dsimp only
  cases Fs.vfs_open name .VNON false fuel s.fs with
  | ok res fs => exact ⟨Held.of_eq rfl, rfl, rfl⟩
  | error e fs => exact ⟨Held.of_eq rfl, rfl, rfl⟩

theorem readLocal : LeavesHeap (readLocal vn buf offset count) := by
  intro s
  unfold wp Exec.readLocal
  dsimp only
  cases Fs.vfs_read buf offset count vn with
  | ok res vn' => exact Kept.refl s
  | error e vn' => exact Kept.refl s

theorem readPages : LeavesHeap (readPages vn paddr n offset count) := by
  intro s
  unfold wp Exec.readPages
  dsimp only
  cases Fs.vfs_read (window s.mem (P2V paddr) count.toNat) offset count vn with
  | ok res vn' => exact ⟨Held.of_eq rfl, rfl, rfl⟩
  | error e vn' => exact ⟨Held.of_eq rfl, rfl, rfl⟩

theorem segment : LeavesHeap (loadelf.segment vmap vn phdr) := by
  have hpages := pagecount_lt phdr
  exact bind (palloc (by omega)) fun _ => bind mappages fun _ => readPages

theorem loop (i : Nat) : LeavesHeap (loadelf.loop vmap vn elf phdr aux i n) := by
  induction n generalizing phdr aux i with
  | zero => exact pure aux
  | succ n ih =>
    unfold loadelf.loop
    apply bind readLocal
    intro phdr
    split
    . exact bind segment fun _ => ih (i + 1)
    . split
      . exact ih (i + 1)
      . exact ih (i + 1)

theorem file : LeavesHeap (loadelf.file locals vmap vn) :=
  bind readLocal fun _ => bind (loop 0) fun _ => pure _

theorem loadelf : LeavesHeap (loadelf fuel locals name vmap) := by
  apply bind vfs_open
  intro vn
  split
  . exact throw .fault
  . exact file

theorem putargs : LeavesHeap (exec.putargs paddr argv aux) := by
  intro s
  unfold wp exec.putargs
  dsimp only
  cases copyargs (P2V 0#64) (exec.below s paddr) paddr.toNat argv aux with
  | none => exact Kept.refl s
  | some res => exact ⟨Held.of_eq rfl, rfl, rfl⟩

end LeavesHeap

namespace NeverFrees

variable {α β : Type} {size fuel : Nat}

theorem after {x : Prog α} (hx : NeverFrees x) {s s' : State} (h : Held s s')
    : wp x (fun _ s'' => Held s s'') (fun _ s'' => Held s s'') s' := by
  apply wp_mono (hx s')
  . intro a s''
    exact h.trans
  . intro e s''
    exact h.trans

theorem bind {x : Prog α} {f : α → Prog β} (hx : NeverFrees x) (hf : ∀ a, NeverFrees (f a)) : NeverFrees (x >>= f) := by
  intro s
  apply wp_bind_mono (hx s)
  . intro e s' h
    exact h
  . intro a s'
    exact (hf a).after

theorem kalloc : NeverFrees (kalloc size fuel) := by
  intro s
  rw [wp_iff]
  constructor
  . intro ptr s' h
    rcases kalloc_ok h with ⟨p, n, heap, slabs, id, _, rfl⟩
    exact Held.of_setRun rfl
  . intro e s' h
    unfold Exec.kalloc at h
    split at h
    . cases h
      exact Held.refl s
    . cases h

theorem newvm_map {kernel_top : Addr} : NeverFrees (newvm_map fuel kernel_top) :=
  bind kalloc fun _ => LeavesHeap.newvm_map.copy.neverFrees

end NeverFrees

section Steps

variable {s s' s₁ : State} {fuel : Nat} {locals : Locals} {kernel_top vmap stack top sp : Addr} {name : Fs.Name}
variable {argv : List Arg} {aux : Auxval}

structure Prepared (fuel : Nat) (locals : Locals) (kernel_top : Addr) (name : Fs.Name) (s : State) (vmap stack : Addr)
    (aux : Auxval) (s' : State) : Prop where
  newvm : ∃ s₁, newvm_map fuel kernel_top s = .ok vmap s₁ ∧ Kept s₁ s'
  stack : ∃ p, stack = frame p ∧ FreeRun s.bm p (STACKSIZE / PGSIZE)
  vmap : s'.vmap = vmap
  rsp : s'.regs.rsp = exec.stackva + BitVec.ofNat 64 STACKSIZE

theorem exec.load_ok (h : exec.load fuel locals kernel_top name s = .ok (vmap, stack, aux) s')
    : Prepared fuel locals kernel_top name s vmap stack aux s' := by
  unfold exec.load at h
  rcases ok_of_bind h with ⟨top, s₁, hnew, h⟩
  rcases ok_of_bind h with ⟨aux', s₂, hload, h⟩
  rcases ok_of_bind h with ⟨paddr, s₃, hpalloc, h⟩
  rcases ok_of_bind h with ⟨_, s₄, hmap, h⟩
  rcases ok_of_bind h with ⟨_, s₅, hmodify, h⟩
  cases hmodify
  cases h
  have hheld : Held s s₁ := (wp_of_ok hnew).mp (NeverFrees.newvm_map s)
  have hkept₂ : Kept s₁ s₂ := (wp_of_ok hload).mp (LeavesHeap.loadelf s₁)
  have hkept₃ : Kept s₂ s₃ := (wp_of_ok hpalloc).mp (LeavesHeap.palloc (by decide) s₂)
  have hkept₄ : Kept s₃ s₄ := (wp_of_ok hmap).mp (LeavesHeap.mappages s₃)
  constructor
  case newvm => exact ⟨s₁, hnew, (hkept₂.trans (hkept₃.trans hkept₄)).trans ⟨Held.of_eq rfl, rfl, rfl⟩⟩
  case stack =>
    rcases (wp_of_ok hpalloc).mp (palloc_wp s₂ (by decide)) with ⟨p, hp, hrun, _⟩
    exact ⟨p, hp, (hheld.trans hkept₂.held).freeRun hrun⟩
  case vmap => rfl
  case rsp => rfl

theorem putargs_ok {paddr : Addr} (h : exec.putargs paddr argv aux s = .ok sp s') : ∃ mem, s' = { s with mem } := by
  unfold exec.putargs at h
  split at h
  . cases h
  . cases h
    exact ⟨_, rfl⟩

structure Starts (fuel : Nat) (locals : Locals) (kernel_top : Addr) (name : Fs.Name) (argv : List Arg) (s : State)
    (stack : Addr) (aux : Auxval) (s₁ : State) (sp : Addr) (s' : State) : Prop where
  load : exec.load fuel locals kernel_top name s = .ok (s₁.vmap, stack, aux) s₁
  putargs : exec.putargs (stack + BitVec.ofNat 64 STACKSIZE) argv aux s₁ = .ok sp { s₁ with mem := s'.mem }
  vmap : s'.vmap = s₁.vmap
  rsp : s'.regs.rsp = s₁.regs.rsp - (P2V (stack + BitVec.ofNat 64 STACKSIZE) - sp)

theorem exec_ok (h : exec fuel locals kernel_top name argv s = .ok sp s')
    : ∃ stack aux s₁, Starts fuel locals kernel_top name argv s stack aux s₁ sp s' := by
  unfold exec at h
  rcases ok_of_bind h with ⟨⟨vmap, stack, aux⟩, s₁, hload, h⟩
  dsimp only at h
  rcases ok_of_bind h with ⟨sp', s₂, hargs, h⟩
  rcases ok_of_bind h with ⟨_, s₃, hmodify, h⟩
  rcases ok_of_bind h with ⟨ptr, s₄, hkalloc, h⟩
  rcases ok_of_bind h with ⟨page, s₅, hpalloc, h⟩
  rcases ok_of_bind h with ⟨_, s₆, hmodify', h⟩
  cases h
  cases hmodify
  cases hmodify'
  rcases putargs_ok hargs with ⟨mem, rfl⟩
  rcases kalloc_ok hkalloc with ⟨p, n, heap, slabs, id, _, rfl⟩
  rcases (wp_of_ok hpalloc).mp (palloc_wp _ (by decide)) with ⟨q, _, _, rfl, _⟩
  have hvmap := (exec.load_ok hload).vmap
  refine ⟨stack, aux, s₁, ?_, hargs, rfl, rfl⟩
  rw [hvmap]
  exact hload

theorem newvm_map_new (h : newvm_map fuel kernel_top s = .ok top s₁) : ∃ p, New s s₁ p := by
  rcases newvm_map_ok h with ⟨ptr, s₀, hkalloc, hcopy⟩
  have hheld : Held s s₀ := (wp_of_ok hkalloc).mp (NeverFrees.kalloc s)
  rcases newvm_map.copy_ok hcopy with ⟨page, supply, hsupply, _, rfl⟩
  have hnodup : s₀.vm.supply.Nodup := supply_nodup _ _
  rw [hsupply, List.nodup_cons] at hnodup
  have hmem : page ∈ s₀.vm.supply := by
    rw [hsupply]
    exact List.mem_cons_self
  rcases @new_of_used s₀ ⟨Vmm.newvm_map.copyKernel s₀.mem (P2V page) kernel_top, supply⟩ ⟨[page], hsupply⟩ (P2V page)
    ⟨page, hmem, hnodup.1, rfl⟩ with ⟨p, hp, _⟩
  exact ⟨p, hheld.new hp⟩

theorem exec.load_held (hnew : newvm_map fuel kernel_top s = .ok top s₁)
    : wp (exec.load fuel locals kernel_top name) (fun _ s' => Held s₁ s') (fun _ s' => Held s₁ s') s := by
  unfold exec.load
  rw [wp_bind, wp_of_ok hnew]
  apply LeavesHeap.neverFrees
  apply LeavesHeap.bind LeavesHeap.loadelf
  intro aux
  apply LeavesHeap.bind (LeavesHeap.palloc (by decide))
  intro stack
  apply LeavesHeap.bind LeavesHeap.mappages
  intro _
  exact LeavesHeap.bind (LeavesHeap.modify fun _ => ⟨Held.of_eq rfl, rfl, rfl⟩) fun _ => LeavesHeap.pure _

theorem exec_held (hnew : newvm_map fuel kernel_top s = .ok top s₁)
    : wp (exec fuel locals kernel_top name argv) (fun _ s' => Held s₁ s') (fun _ s' => Held s₁ s') s := by
  unfold exec
  apply wp_bind_mono (exec.load_held hnew)
  . intro e s' h
    exact h
  . rintro ⟨vmap, stack, aux⟩ s₂
    apply NeverFrees.after
    apply NeverFrees.bind LeavesHeap.putargs.neverFrees
    intro sp
    apply NeverFrees.bind
    . apply LeavesHeap.neverFrees
      apply LeavesHeap.modify
      intro s
      exact ⟨Held.of_eq rfl, rfl, rfl⟩
    . intro _
      apply NeverFrees.bind NeverFrees.kalloc
      intro ptr
      apply LeavesHeap.neverFrees
      apply LeavesHeap.bind (LeavesHeap.palloc (by decide))
      intro page
      exact LeavesHeap.bind (LeavesHeap.modify fun _ => ⟨Held.of_eq rfl, rfl, rfl⟩) fun _ => LeavesHeap.pure sp

theorem Prepared.stack_toNat (h : Prepared fuel locals kernel_top name s vmap stack aux s')
    : stack.toNat + STACKSIZE < 2 ^ 64 := by
  rcases h.stack with ⟨p, rfl, hrun⟩
  have hle := hrun.1
  have hlt := s.bm.pages_lt
  have hpages : STACKSIZE / PGSIZE = 64 := by decide
  rw [hpages] at hle
  rw [frame_toNat (by omega)]
  unfold STACKSIZE PGSIZE
  omega

/--
The arguments stay inside of the stack exactly if the bytes that `copyargs` pushes are not more than the stack has,
nothing checks that.
-/
theorem exec_argsInside_iff (h : exec.load fuel locals kernel_top name s = .ok (vmap, stack, aux) s')
    : ArgsInside stack argv aux s' ↔ imageSize argv ≤ STACKSIZE :=
  argsInside_iff (exec.load_ok h).stack_toNat

end Steps

section Returns

open Vmm (Good single)

variable {s s₁ s₂ : State} {fuel q n : Nat} {locals : Locals} {kernel_top top : Addr} {name : Fs.Name}
variable {argv : List Arg} {aux : Auxval}

theorem kalloc_returns {size : Nat} (hsize : size ≤ PGSIZE) (hlink : s.heap s.slabs = 0)
    (hroom : FreeRun s.bm q (n + 1)) (fuel : Nat)
    : ∃ ptr s' q', kalloc size (fuel + 2) s = .ok ptr s' ∧ FreeRun s'.bm q' n := by
  rcases palloc_room hroom (show 1 ≤ n + 1 by omega) with ⟨p, q', hpalloc, _, hrest⟩
  rw [Nat.add_sub_cancel] at hrest
  rcases @Slab.Heap.kalloc_isSome { mem := s.heap, slabs := s.slabs, id := s.id, bm := s.bm } size (fuel + 2) _ _ hsize
    (Slab.Heap.findSlab_of_link hlink) hpalloc with ⟨ptr, heap, hkalloc, hbm⟩
  have hrun : kalloc size (fuel + 2) s =
      .ok ptr { s with heap := heap.mem, slabs := heap.slabs, id := heap.id, bm := heap.bm } := by
    unfold kalloc
    rw [hkalloc]
  rcases hbm with hbm | hbm
  . refine ⟨ptr, _, q, hrun, ?_⟩
    dsimp only
    rw [hbm]
    exact freeRun_sub hroom (Nat.le_refl q) (by omega)
  . refine ⟨ptr, _, q', hrun, ?_⟩
    dsimp only
    rw [hbm]
    exact hrest

theorem exec.load_returns (hnew : newvm_map fuel kernel_top s = .ok top s₁)
    (hload : loadelf fuel locals name top s₁ = .ok aux s₂) (hgood : Good (single top) s₂.vm)
    (hroom : FreeRun s₂.bm q (4 * (STACKSIZE / PGSIZE) + n))
    : ∃ stack s' q', exec.load fuel locals kernel_top name s = .ok (top, stack, aux) s' ∧ FreeRun s'.bm q' n := by
  have hsize : (BitVec.ofNat 64 STACKSIZE).toNat / PGSIZE = STACKSIZE / PGSIZE := by
    decide
  rcases map_returns hgood hsize hroom exec.stackva (Vmm.PTE_PRESENT ||| Vmm.PTE_RW ||| Vmm.PTE_USER) with
    ⟨p, s₃, s₄, q', hpalloc, hmap, hrest⟩
  unfold exec.load
  rw [bind_of_ok hnew, bind_of_ok hload, bind_of_ok hpalloc, bind_of_ok hmap]
  exact ⟨_, _, q', rfl, hrest⟩

theorem exec_returns {stack : Addr} (hload : exec.load (fuel + 2) locals kernel_top name s = .ok (top, stack, aux) s₁)
    (hfit : imageSize argv ≤ (stack + BitVec.ofNat 64 STACKSIZE).toNat) (hlink : s₁.heap s₁.slabs = 0)
    (hroom : FreeRun s₁.bm q 2) : ∃ sp s', exec (fuel + 2) locals kernel_top name argv s = .ok sp s' := by
  rcases @putargs_eq s₁ (stack + BitVec.ofNat 64 STACKSIZE) argv aux hfit with ⟨mem, hargs, _⟩
  generalize P2V 0#64 + BitVec.ofNat 64 (imageStart (stack + BitVec.ofNat 64 STACKSIZE) argv) = sp at hargs
  let s₂ : State :=
    { s₁ with
      mem
      regs := { s₁.regs with rsp := s₁.regs.rsp - (P2V (stack + BitVec.ofNat 64 STACKSIZE) - sp) } }
  rcases @kalloc_returns s₂ q 1 _ (show exec.sizeofTss ≤ PGSIZE by decide) hlink hroom fuel with
    ⟨ptr, s₃, q', hkalloc, hrest⟩
  rcases palloc_room hrest (Nat.le_refl 1) with ⟨p, _, hpalloc, _⟩
  have hpages := palloc_eq hpalloc
  refine ⟨sp, { s₃ with bm := setRun s₃.bm p 1, rsp0 := P2V (frame p + pgsize) }, ?_⟩
  unfold exec
  rw [bind_of_ok hload]
  dsimp only
  rw [bind_of_ok hargs, bind_of_ok (show (modify _ : Prog PUnit) _ = .ok ⟨⟩ s₂ from rfl), bind_of_ok hkalloc,
    bind_of_ok hpages]
  rfl

end Returns

section Started

variable {s s' s₁ : State} {fuel : Nat} {locals : Locals} {kernel_top stack sp : Addr} {name : Fs.Name}
variable {argv : List Arg} {arg : Arg} {aux : Auxval}

structure Points (s : State) (ptr : BitVec 64) (arg : Arg) : Prop where
  low : exec.stackva ≤ ptr
  high : ptr < exec.stackva + BitVec.ofNat 64 STACKSIZE
  string : ∀ (k : Nat) c, (arg.text ++ [0])[k]? = some c →
    readVirt s.mem s.vmap (ptr + BitVec.ofNat 64 k) = some c

/--
The program can use its stack, `sp` is what the kernel calls the address in `rsp`.
-/
structure Usable (sp : Addr) (argv : List Arg) (s : State) : Prop where
  aligned : s.regs.rsp.toNat % 16 = 0
  pointer : ∀ (i : Nat) arg, argv[i]? = some arg → Points s (readWord s.mem (sp + BitVec.ofNat 64 (8 * (i + 1)))) arg

theorem Starts.image (h : Starts fuel locals kernel_top name argv s stack aux s₁ sp s')
    : imageSize argv ≤ (stack + BitVec.ofNat 64 STACKSIZE).toNat
        ∧ sp = P2V 0#64 + BitVec.ofNat 64 (imageStart (stack + BitVec.ofNat 64 STACKSIZE) argv)
        ∧ Written (stack + BitVec.ofNat 64 STACKSIZE) argv s₁.mem s'.mem := by
  have hargs := h.putargs
  by_cases hfit : imageSize argv ≤ (stack + BitVec.ofNat 64 STACKSIZE).toNat
  . rcases @putargs_eq s₁ _ argv aux hfit with ⟨mem, hrun, hwritten⟩
    rw [hrun] at hargs
    rcases EStateM.Result.ok.inj hargs with ⟨hsp, hstate⟩
    have hmem := congrArg State.mem hstate
    dsimp only at hmem
    rw [← hmem]
    exact ⟨hfit, hsp.symm, hwritten⟩
  . rw [putargs_error hfit] at hargs
    cases hargs

theorem P2V_sub {paddr : Addr} (hfit : imageSize argv ≤ paddr.toNat)
    : P2V paddr - (P2V 0#64 + BitVec.ofNat 64 (imageStart paddr argv)) = BitVec.ofNat 64 (imageSize argv) := by
  have hlt := paddr.isLt
  have hpaddr : P2V paddr = P2V 0#64 + paddr := by
    rw [← P2V_add, BitVec.zero_add]
  rw [hpaddr, add_sub_add_left_eq_sub]
  apply BitVec.eq_of_toNat_eq
  unfold imageStart
  rw [BitVec.toNat_sub, BitVec.toNat_ofNat, BitVec.toNat_ofNat]
  omega

theorem Starts.rsp_eq (h : Starts fuel locals kernel_top name argv s stack aux s₁ sp s')
    : s'.regs.rsp = exec.stackva + BitVec.ofNat 64 STACKSIZE - BitVec.ofNat 64 (imageSize argv) := by
  rcases h.image with ⟨hfit, hsp, _⟩
  rw [h.rsp, (exec.load_ok h.load).rsp, hsp, P2V_sub hfit]

theorem stack_le_address {k : Int} (hk : 0 ≤ k) (hlt : k < 2 ^ 47)
    : exec.stackva + BitVec.ofNat 64 STACKSIZE ≤ address (P2V 0#64) k := by
  rw [BitVec.le_def]
  unfold address exec.stackva STACKSIZE P2V Vmm.HHDM_OFFSET
  simp only [BitVec.toNat_add, BitVec.toNat_ofNat, BitVec.toNat_ofInt]
  omega

theorem Starts.pointer_ge (h : Starts fuel locals kernel_top name argv s stack aux s₁ sp s')
    (hpages : s.bm.pages ≤ 2 ^ 35) {i : Nat} (hi : argv[i]? = some arg)
    : exec.stackva + BitVec.ofNat 64 STACKSIZE ≤ readWord s'.mem (sp + BitVec.ofNat 64 (8 * (i + 1))) := by
  rcases h.image with ⟨hfit, hsp, hwritten⟩
  rcases (exec.load_ok h.load).stack with ⟨p, hp, hrun⟩
  have hle := hrun.1
  have hend := stackEnd_toNat (exec.load_ok h.load).stack_toNat
  have hbound : (stack + BitVec.ofNat 64 STACKSIZE).toNat ≤ 2 ^ 47 := by
    have hsize : STACKSIZE / PGSIZE = 64 := by decide
    rw [hsize] at hle
    rw [hend, hp, frame_toNat (by omega)]
    unfold STACKSIZE PGSIZE
    omega
  have hlow := @stringSize_le_place (stack + BitVec.ofNat 64 STACKSIZE).toNat arg argv i hi
  have hhigh := @place_lt (stack + BitVec.ofNat 64 STACKSIZE).toNat arg argv i hi
  have hptr := hwritten.pointer i arg hi
  rw [BitVec.ofNat_add, ← BitVec.add_assoc, ← hsp] at hptr
  rw [hptr]
  unfold imageSize at hfit
  exact stack_le_address (by omega) (by omega)

theorem exec_usable_iff (h : exec fuel locals kernel_top name argv s = .ok sp s')
    : (argv = [] → Usable sp argv s') ∧ (s.bm.pages ≤ 2 ^ 35 → Usable sp argv s' → argv = []) := by
  rcases exec_ok h with ⟨stack, aux, s₁, hstarts⟩
  constructor
  . rintro rfl
    constructor
    case aligned =>
      rw [hstarts.rsp_eq]
      decide
    case pointer =>
      intro i arg hi
      cases hi
  . intro hpages husable
    cases argv with
    | nil => rfl
    | cons arg argv =>
      have hhigh := (husable.pointer 0 arg rfl).high
      have hge := hstarts.pointer_ge hpages (show (arg :: argv)[0]? = some arg from rfl)
      exact absurd hhigh (BitVec.not_lt.mpr hge)

end Started

section Undone

variable {s s' s₁ : State} {fuel : Nat} {locals : Locals} {kernel_top top : Addr} {name : Fs.Name} {argv : List Arg}

structure Undone (s s' : State) : Prop where
  vmap : s'.vmap = s.vmap
  regs : s'.regs = s.regs
  pages : ∀ p, p < s.bm.pages → bitmap_test s.bm p = false → bitmap_test s'.bm p = false

structure HoldsHeaders (vn : Fs.File) : Prop where
  regular : vn.type = .VREG
  header : sizeofEhdr ≤ vn.size.toNat
  headers : (e_phoff vn.data.mem).toNat + (e_phnum vn.data.mem).toNat * sizeofPhdr ≤ vn.size.toNat

def Executable (fuel : Nat) (name : Fs.Name) (s : State) : Prop :=
  ∃ v fs, Fs.vfs_open name .VNON false fuel s.fs = .ok (none, some v) fs ∧ HoldsHeaders (s.file v)

/--
If the file cannot be executed, nothing is left of the call, however it ends.
-/
def Undoes (fuel : Nat) (locals : Locals) (kernel_top : Addr) (name : Fs.Name) (argv : List Arg) (s : State) : Prop :=
  ¬ Executable fuel name s →
    wp (exec fuel locals kernel_top name argv) (fun _ s' => Undone s s') (fun _ s' => Undone s s') s

theorem exec_not_undone (hnew : newvm_map fuel kernel_top s = .ok top s₁)
    : ¬ wp (exec fuel locals kernel_top name argv) (fun _ s' => Undone s s') (fun _ s' => Undone s s') s := by
  rcases newvm_map_new hnew with ⟨p, hlt, hclear, hset⟩
  have hheld : Held s s₁ := (wp_of_ok hnew).mp (NeverFrees.newvm_map s)
  have hnot : ∀ s', Held s₁ s' → ¬ Undone s s' := by
    intro s' hkept hundone
    have hfree := hundone.pages p hlt hclear
    rw [hkept.bits p (by rw [hheld.pages]; exact hlt) hset] at hfree
    cases hfree
  have hkept := @exec_held s s₁ fuel locals kernel_top top name argv hnew
  intro hundone
  rw [wp_iff] at hundone hkept
  cases hexec : exec fuel locals kernel_top name argv s with
  | ok sp s' => exact hnot s' (hkept.1 sp s' hexec) (hundone.1 sp s' hexec)
  | error e s' => exact hnot s' (hkept.2 e s' hexec) (hundone.2 e s' hexec)

/--
`exec` undoes nothing, and a process for which it returns runs in the new address space.
-/
theorem exec_undoes_iff (hnew : newvm_map fuel kernel_top s = .ok top s₁)
    : (Undoes fuel locals kernel_top name argv s ↔ Executable fuel name s)
        ∧ ∀ sp s', exec fuel locals kernel_top name argv s = .ok sp s' → s'.vmap = top := by
  refine ⟨⟨?_, ?_⟩, ?_⟩
  . intro h
    by_contra hbad
    exact exec_not_undone hnew (h hbad)
  . intro h hbad
    exact absurd h hbad
  . intro sp s' h
    rcases exec_ok h with ⟨stack, aux, s₂, hstarts⟩
    rcases (exec.load_ok hstarts.load).newvm with ⟨s₁', hnew', _⟩
    rw [hnew] at hnew'
    rw [hstarts.vmap]
    cases hnew'
    rfl

end Undone

section Sample

open Vmm (Good single KernelState)

variable {s s₁ s₂ s₃ : State} {kernel_top top : Addr} {vn : Fs.File} {aux : Auxval} {q : Nat}

def samplePath : Fs.Name :=
  "/f".toList

structure Opened (vn : Fs.File) (s : State) (kernel_top top : Addr) (s₁ s₂ : State) : Prop where
  newvm : newvm_map 2 kernel_top s = .ok top s₁
  file : ∃ fs, Fs.vfs_open samplePath .VNON false 2 s.fs = .ok (none, some 1) fs ∧ s.file 1 = vn
  opens : vfs_open samplePath 2 s₁ = .ok (some vn) s₂
  good : Good (single top) s₂.vm
  link : s₁.heap s₁.slabs = 0
  room : ∃ q, FreeRun s₂.bm q 510
  zero : bitmap_test s.bm 0 = true
  pages : s.bm.pages = 2 ^ 22
  rsp : s.regs.rsp = 0#64

theorem newvm_map_files {fuel : Nat} (h : newvm_map fuel kernel_top s = .ok top s₁)
    : s₁.fs = s.fs ∧ s₁.file = s.file := by
  rcases newvm_map_ok h with ⟨ptr, s₀, hkalloc, hcopy⟩
  rcases kalloc_ok hkalloc with ⟨p, n, heap, slabs, id, _, rfl⟩
  rcases newvm_map.copy_ok hcopy with ⟨page, supply, _, _, rfl⟩
  exact ⟨rfl, rfl⟩

theorem samplePath_opens
    : Fs.vfs_open samplePath .VNON false 2 Fs.targetFile =
        .ok (none, some 1) (Fs.after (Fs.vfs_open samplePath .VNON false 2) Fs.targetFile) := by
  apply Fs.ok_of_result
  decide +kernel

theorem exists_opened (vn : Fs.File) : ∃ s kernel_top top s₁ s₂, Opened vn s kernel_top top s₁ s₂ := by
  rcases exists_clear bigState_page bigState_room rfl with
    ⟨s₀, kernel_top, q, hstate, hclear, hslabs, hroom, _, hheld⟩
  have hzero : bitmap_test s₀.bm 0 = true := by
    apply hheld.bits 0
    . exact Nat.lt_of_lt_of_eq (by decide) bigBitmap_pages.symm
    . exact (bigState_test 0).mpr rfl
  let s : State := { s₀ with fs := Fs.targetFile, file := fun _ => vn, regs := { s₀.regs with rsp := 0#64 } }
  rcases @newvm_map_first s kernel_top q 510 _ 1 hstate ⟨hclear.words⟩ hslabs hroom with
    ⟨top, s₁, hnew, _, hmap, hfresh, _, hlink, q', hroom'⟩
  rcases newvm_map_files hnew with ⟨hfs, hfile⟩
  have hopens : vfs_open samplePath 2 s₁ =
      .ok (some vn) { s₁ with fs := Fs.after (Fs.vfs_open samplePath .VNON false 2) Fs.targetFile } := by
    unfold vfs_open
    rw [hfs, hfile, samplePath_opens]
    rfl
  exact ⟨s, kernel_top, top, s₁, _, hnew, ⟨_, samplePath_opens, rfl⟩, hopens, hmap.good hfresh, hlink, ⟨q', hroom'⟩,
    hzero, hheld.pages.trans bigBitmap_pages, rfl⟩

variable {locals : Locals} {argv : List Arg} {stack : Addr}

theorem Opened.loadelf (h : Opened vn s kernel_top top s₁ s₂) (hfile : loadelf.file locals top vn s₂ = .ok aux s₃)
    : loadelf 2 locals samplePath top s₁ = .ok aux s₃ := by
  unfold Exec.loadelf
  rw [bind_of_ok h.opens]
  exact hfile

theorem Opened.exec_returns (h : Opened vn s kernel_top top s₁ s₂)
    (hload : exec.load 2 locals kernel_top samplePath s = .ok (top, stack, aux) s₃) (hroom : FreeRun s₃.bm q 2)
    (hfit : imageSize argv ≤ STACKSIZE + PGSIZE) : ∃ sp s', exec 2 locals kernel_top samplePath argv s = .ok sp s' := by
  have hprepared := exec.load_ok hload
  rcases hprepared.newvm with ⟨s₁', hnew, hkept⟩
  rw [h.newvm] at hnew
  cases hnew
  have hlink : s₃.heap s₃.slabs = 0 := by
    rw [hkept.heap, hkept.slabs]
    exact h.link
  have hpage : PGSIZE ≤ stack.toNat := by
    rcases hprepared.stack with ⟨p, rfl, hrun⟩
    have hle := hrun.1
    have hsize : STACKSIZE / PGSIZE = 64 := by decide
    have hpos : p ≠ 0 := by
      rintro rfl
      have hclear := hrun.2 0 (Nat.le_refl 0) (by decide)
      rw [h.zero] at hclear
      cases hclear
    rw [h.pages, hsize] at hle
    rw [frame_toNat (by omega)]
    exact Nat.le_mul_of_pos_left PGSIZE (Nat.pos_of_ne_zero hpos)
  apply Exec.exec_returns hload _ hlink hroom
  rw [stackEnd_toNat hprepared.stack_toNat]
  omega

def sampleFile : Fs.File :=
  oneSegment 0#64 0x400000#64 16#64 16#64

theorem Opened.load (h : Opened sampleFile s kernel_top top s₁ s₂)
    : ∃ stack aux s₃ q, exec.load 2 sampleLocals kernel_top samplePath s = .ok (top, stack, aux) s₃
        ∧ FreeRun s₃.bm q 2 := by
  have hpages : (DIV_ROUNDUP 16#64 pgsize).toNat = 1 := by
    decide
  rcases h.room with ⟨q, hroom⟩
  rcases @oneSegment_returns 0#64 0x400000#64 16#64 16#64 s₂ top q 506 sampleLocals h.good (by decide) (by decide)
    (by rw [hpages]; exact hroom) with ⟨phdr, hheader, hsegments, aux, s₃, hrun, q', hroom'⟩
  have hfit := fits_of_header hheader hsegments (by decide)
  rcases (wp_of_ok hrun).mp (file_wp h.good hfit) with ⟨rest, _, hloaded⟩
  rcases exec.load_returns h.newvm (h.loadelf hrun) hloaded.within.good
    (freeRun_sub hroom' (Nat.le_refl q') (show q' + (4 * (STACKSIZE / PGSIZE) + 2) ≤ _ by
      have hsize : STACKSIZE / PGSIZE = 64 := by decide
      omega)) with ⟨stack, s₄, q'', hload, hrest⟩
  exact ⟨stack, aux, s₄, q'', hload, hrest⟩

theorem exec_argsInside_oneArg
    : ∃ s kernel_top vmap stack aux s',
        exec.load 2 sampleLocals kernel_top samplePath s = .ok (vmap, stack, aux) s'
          ∧ ArgsInside stack [oneArg] aux s' := by
  rcases exists_opened sampleFile with ⟨s, kernel_top, top, s₁, s₂, hopened⟩
  rcases hopened.load with ⟨stack, aux, s₃, q, hload, _⟩
  refine ⟨s, kernel_top, top, stack, aux, s₃, hload, (exec_argsInside_iff hload).mpr ?_⟩
  rw [imageSize_oneArg]
  decide

def longArg : Arg where
  byte k := if k < STACKSIZE then 97 else 0
  ends := by
    refine ⟨STACKSIZE, by decide, ?_⟩
    rw [if_neg (Nat.lt_irrefl STACKSIZE)]

theorem longArg_length : longArg.length = STACKSIZE := by
  unfold Arg.length
  rw [Nat.find_eq_iff]
  unfold longArg
  dsimp only
  constructor
  . rw [if_neg (Nat.lt_irrefl STACKSIZE)]
    exact ⟨by decide, rfl⟩
  . rintro n hn ⟨_, hzero⟩
    rw [if_pos hn] at hzero
    cases hzero

theorem imageSize_singleton (arg : Arg) : imageSize [arg] = arg.length + 105 := by
  unfold imageSize
  rw [stringSize_cons, List.length_singleton]
  unfold stringSize
  omega

theorem exec_args_outside
    : ∃ s kernel_top vmap stack aux s₁ sp s',
        exec.load 2 sampleLocals kernel_top samplePath s = .ok (vmap, stack, aux) s₁
          ∧ exec 2 sampleLocals kernel_top samplePath [longArg] s = .ok sp s'
          ∧ ¬ ArgsInside stack [longArg] aux s₁ := by
  rcases exists_opened sampleFile with ⟨s, kernel_top, top, s₁, s₂, hopened⟩
  rcases hopened.load with ⟨stack, aux, s₃, q, hload, hroom⟩
  have hfit : imageSize [longArg] ≤ STACKSIZE + PGSIZE := by
    rw [imageSize_singleton, longArg_length]
    exact Nat.add_le_add_left (by decide) STACKSIZE
  rcases hopened.exec_returns hload hroom hfit with ⟨sp, s', hexec⟩
  refine ⟨s, kernel_top, top, stack, aux, s₃, sp, s', hload, hexec, ?_⟩
  rw [argsInside_iff (exec.load_ok hload).stack_toNat, imageSize_singleton, longArg_length]
  exact Nat.not_le.mpr (Nat.lt_add_of_pos_right (by decide))

theorem exec_usable_noArgs
    : ∃ s kernel_top sp s', exec 2 sampleLocals kernel_top samplePath [] s = .ok sp s' ∧ Usable sp [] s' := by
  rcases exists_opened sampleFile with ⟨s, kernel_top, top, s₁, s₂, hopened⟩
  rcases hopened.load with ⟨stack, aux, s₃, q, hload, hroom⟩
  have hfit : imageSize [] ≤ STACKSIZE + PGSIZE := by
    decide
  rcases hopened.exec_returns hload hroom hfit with ⟨sp, s', hexec⟩
  exact ⟨s, kernel_top, sp, s', hexec, (exec_usable_iff hexec).1 rfl⟩

theorem exec_unusable_oneArg
    : ∃ s kernel_top sp s', exec 2 sampleLocals kernel_top samplePath [oneArg] s = .ok sp s'
        ∧ ¬ Usable sp [oneArg] s' := by
  rcases exists_opened sampleFile with ⟨s, kernel_top, top, s₁, s₂, hopened⟩
  rcases hopened.load with ⟨stack, aux, s₃, q, hload, hroom⟩
  have hfit : imageSize [oneArg] ≤ STACKSIZE + PGSIZE := by
    rw [imageSize_oneArg]
    decide
  rcases hopened.exec_returns hload hroom hfit with ⟨sp, s', hexec⟩
  rcases exec_ok hexec with ⟨stack', aux', s₄, hstarts⟩
  refine ⟨s, kernel_top, sp, s', hexec, fun husable => ?_⟩
  have hhigh := (husable.pointer 0 oneArg rfl).high
  have hge := hstarts.pointer_ge (by rw [hopened.pages]; decide) (show [oneArg][0]? = some oneArg from rfl)
  exact absurd hhigh (BitVec.not_lt.mpr hge)

theorem exec_undoes_sampleFile
    : ∃ s kernel_top, Executable 2 samplePath s ∧ Undoes 2 sampleLocals kernel_top samplePath [] s := by
  rcases exists_opened sampleFile with ⟨s, kernel_top, top, s₁, s₂, hopened⟩
  have hexecutable : Executable 2 samplePath s := by
    rcases hopened.file with ⟨fs, hopen, hvn⟩
    refine ⟨1, fs, hopen, ?_⟩
    rw [hvn]
    exact ⟨rfl, by decide, by decide +kernel⟩
  exact ⟨s, kernel_top, hexecutable, (exec_undoes_iff hopened.newvm).1.mpr hexecutable⟩

def emptyFile : Fs.File where
  type := .VREG
  lock := false
  ramlock := false
  data := .null
  size := 0#64

theorem Opened.not_executable (h : Opened emptyFile s kernel_top top s₁ s₂) : ¬ Executable 2 samplePath s := by
  rintro ⟨v, fs, hopen, hheaders⟩
  rcases h.file with ⟨fs', hopen', hvn⟩
  rw [hopen'] at hopen
  cases hopen
  rw [hvn] at hheaders
  exact absurd hheaders.header (by decide)

theorem Opened.load_empty (h : Opened emptyFile s kernel_top top s₁ s₂)
    : ∃ stack aux s₃ q, exec.load 2 sampleLocals kernel_top samplePath s = .ok (top, stack, aux) s₃
        ∧ FreeRun s₃.bm q 2 := by
  have hfile : ∃ aux, loadelf.file sampleLocals top emptyFile s₂ = .ok aux s₂ := ⟨_, rfl⟩
  rcases hfile with ⟨aux, hrun⟩
  rcases h.room with ⟨q, hroom⟩
  rcases exec.load_returns h.newvm (h.loadelf hrun) h.good
    (freeRun_sub hroom (Nat.le_refl q) (show q + (4 * (STACKSIZE / PGSIZE) + 2) ≤ _ by
      have hsize : STACKSIZE / PGSIZE = 64 := by decide
      omega)) with ⟨stack, s₄, q'', hload, hrest⟩
  exact ⟨stack, aux, s₄, q'', hload, hrest⟩

theorem exec_emptyFile
    : ∃ s kernel_top sp s', ¬ Executable 2 samplePath s ∧ exec 2 sampleLocals kernel_top samplePath [] s = .ok sp s'
        ∧ s'.regs ≠ s.regs ∧ ¬ Undoes 2 sampleLocals kernel_top samplePath [] s := by
  rcases exists_opened emptyFile with ⟨s, kernel_top, top, s₁, s₂, hopened⟩
  rcases hopened.load_empty with ⟨stack, aux, s₃, q, hload, hroom⟩
  have hfit : imageSize [] ≤ STACKSIZE + PGSIZE := by
    decide
  rcases hopened.exec_returns hload hroom hfit with ⟨sp, s', hexec⟩
  have hbad := hopened.not_executable
  refine ⟨s, kernel_top, sp, s', hbad, hexec, ?_, fun h => exec_not_undone hopened.newvm (h hbad)⟩
  rcases exec_ok hexec with ⟨stack', aux', s₄, hstarts⟩
  intro hregs
  have hrsp := hstarts.rsp_eq
  rw [hregs, hopened.rsp] at hrsp
  exact absurd hrsp (by decide)

end Sample

end Exec
end Franklin
