import Mathlib.Data.Finset.Card
import OvsbMk.ProcessCalls

/-!
# What the shell's programs leave behind

The commands `run` and `exec` of the shell with everything they allocate: the
buffer of the file, the user stack, the slot of the process and its kernel stack.
A command is followed to its end, with the program between the switch to it and
its exit. The buffer and the user stack are freed; the slot and the kernel stack
are not, so that every program costs one slot and one block for good.
-/

namespace OvsbMk.ExecResources

open Processes ProcessCalls

/-- The process table and the addresses of the blocks that `kmalloc` has handed
out and `kfree` has not taken back. -/
structure Kernel where
  /-- The process table. -/
  table : Table Unit
  /-- The live blocks. -/
  live : Finset ℕ

/-- A block is handed out. -/
def Kernel.alloc (k : Kernel) (address : ℕ) : Kernel := { k with live := insert address k.live }

/-- A block is taken back. -/
def Kernel.free (k : Kernel) (address : ℕ) : Kernel := { k with live := k.live.erase address }

/-- `process_create_user` with its allocation; `kmalloc` is only asked once there
is a slot. -/
def createUser (k : Kernel) (kstack : Option ℕ) (pml4 : ℕ) : ℤ×Kernel :=
  let r := processCreateUser k.table kstack pml4 ()
  match kstack with
  | some stack => (r.1,⟨r.2,if r.1<0 then k.live else insert stack k.live⟩)
  | none => (r.1,⟨r.2,k.live⟩)

/-- The switch to a program and its exit, provided that the program gets the
processor and its exit resumes the shell. -/
def runProgram (t : Table Unit) (slot : ℕ) (pid code : ℤ) : Option (Table Unit) :=
  let entered := processSwitchTo t pid ()
  if entered.resumed=some slot then
    let left := processExitCurrent entered.table code ()
    if left.resumed=some 0 then some left.table else none
  else none

/-- What a command meets: the answers of `kmalloc` and of the file system, the
page table and the exit code of the program. -/
structure Request where
  /-- The file is there and has at least 32 bytes. -/
  found : Bool
  /-- Block for the file. -/
  buffer : Option ℕ
  /-- The file can be read. -/
  read : Bool
  /-- The image can be loaded. -/
  loaded : Bool
  /-- Block for the user stack. -/
  ustack : Option ℕ
  /-- Block for the kernel stack. -/
  kstack : Option ℕ
  /-- Current page table. -/
  pml4 : ℕ
  /-- Exit code of the program. -/
  code : ℤ

/-- The rest of a command once its process has been created: the program runs and
ends. -/
def finish (k : Kernel) (slot : ℕ) (pid code : ℤ) : Option Kernel :=
  (runProgram k.table slot pid code).map fun t => { k with table := t }

/-- The command `run`: the kernel when it returns and whether there was a program,
which has ended then; `none` if its program does not end. -/
def cmdRun (k : Kernel) (r : Request) : Option (Kernel×Bool) :=
  let c := createUser k r.kstack r.pml4
  if c.1<0 then some (c.2,false)
  else (finish c.2 k.table.pcbCount c.1 r.code).map fun k => (k,true)

/-- The command `exec`, likewise. -/
def cmdExec (k : Kernel) (r : Request) : Option (Kernel×Bool) :=
  if r.found then
    match r.buffer with
    | none => some (k,false)
    | some buffer =>
      let k1 := k.alloc buffer
      if r.read && r.loaded then
        match r.ustack with
        | none => some (k1.free buffer,false)
        | some ustack =>
          let c := createUser (k1.alloc ustack) r.kstack r.pml4
          if c.1<0 then some ((c.2.free buffer).free ustack,false)
          else (finish (c.2.free buffer) k.table.pcbCount c.1 r.code).map fun k =>
            (k.free ustack,true)
      else some (k1.free buffer,false)
  else some (k,false)

/-- The two commands. -/
inductive Command
  /-- The built-in program, on a static stack. -/
  | run
  /-- A program from the disk. -/
  | exec

/-- The effect of a command. -/
def perform (k : Kernel) : Command → Request → Option (Kernel×Bool)
  | .run, r => cmdRun k r
  | .exec, r => cmdExec k r

/-- The blocks that `kmalloc` hands out during a command are not live yet. -/
structure Unused (k : Kernel) (r : Request) : Prop where
  /-- The buffer is new. -/
  buffer : ∀ a, r.buffer=some a → a∉k.live
  /-- The user stack is new. -/
  ustack : ∀ a, r.ustack=some a → a∉k.live ∧ r.buffer≠some a
  /-- The kernel stack is new. -/
  kstack : ∀ a, r.kstack=some a → a∉k.live ∧ r.buffer≠some a ∧ r.ustack≠some a

/-- A number of successive commands whose programs all end. -/
inductive Completed : ℕ → Kernel → Kernel → Prop
  /-- No command. -/
  | zero (k : Kernel) : Completed 0 k k
  /-- One more command. -/
  | succ {n : ℕ} {k k' k'' : Kernel} (h : Completed n k k') (command : Command) (r : Request)
      (hunused : Unused k' r) (hdone : perform k' command r=some (k'',true)) :
      Completed (n+1) k k''

/-- Slots that `process_create_user` can still hand out. -/
def usableSlots (t : Table Unit) : ℕ := maxProc-t.pcbCount

/-- The slots and blocks are as before. -/
def GivesBack (k k' : Kernel) : Prop :=
  usableSlots k'.table=usableSlots k.table ∧ k'.live=k.live

variable {k k' k'' : Kernel} {r : Request} {n slot : ℕ} {pid code : ℤ}

/-- The number of slots handed out during a program. -/
theorem runProgram_count {t t' : Table Unit} (h : runProgram t slot pid code=some t') :
    t'.pcbCount=t.pcbCount := by
  rw [runProgram] at h
  split at h
  next =>
    dsimp only at h
    split at h
    next =>
      obtain rfl := Option.some.inj h
      have hswitch : (processSwitchTo t pid ()).table.pcbCount=t.pcbCount := by
        rcases processSwitchTo_cases t pid () with hout | ⟨t1,cur,next,_,_,hout,hs⟩
        · rw [hout]
        · rw [hout]
          exact hs.same.pcbCount
      rcases processExitCurrent_cases (processSwitchTo t pid ()).table code () with
        ⟨_,hout⟩ | ⟨t1,p,_,hout,hs⟩
      · rw [hout]
        exact hswitch
      · rw [hout]
        exact hs.same.pcbCount.trans hswitch
    next => cases h
  next => cases h

/-- A program costs no block. -/
theorem finish_cost (h : finish k slot pid code=some k') :
    k'.table.pcbCount=k.table.pcbCount ∧ k'.live=k.live := by
  obtain ⟨t,ht,rfl⟩ := Option.map_eq_some_iff.mp h
  exact ⟨runProgram_count ht,rfl⟩

/-- A creation that returns a number costs a slot and a block. -/
theorem createUser_cost {kstack : Option ℕ} {pml4 : ℕ} (h : ¬(createUser k kstack pml4).1<0) :
    ∃ stack, kstack=some stack ∧ k.table.pcbCount < maxProc ∧
      (createUser k kstack pml4).2.table.pcbCount=k.table.pcbCount+1 ∧
      (createUser k kstack pml4).2.live=insert stack k.live := by
  rcases createUser_cases k.table kstack pml4 () with ⟨_,hout⟩ | ⟨_,rfl,hout⟩ |
    ⟨stack,hroom,rfl,hout⟩
  · cases kstack with
    | none =>
      rw [createUser,hout] at h
      exact (h (show (-1 : ℤ)<0 by decide)).elim
    | some stack =>
      rw [createUser,hout] at h
      exact (h (show (-1 : ℤ)<0 by decide)).elim
  · rw [createUser,hout] at h
    exact (h (show (-1 : ℤ)<0 by decide)).elim
  · refine ⟨stack,rfl,hroom,?_⟩
    rw [createUser,hout] at h ⊢
    exact ⟨rfl,if_neg h⟩

/-- What a completed command costs: one slot and the kernel stack. -/
structure Cost (k k' : Kernel) : Prop where
  /-- There was a slot. -/
  room : k.table.pcbCount < maxProc
  /-- It is gone. -/
  slot : k'.table.pcbCount=k.table.pcbCount+1
  /-- One block is left over. -/
  block : ∃ stack, stack∉k.live ∧ k'.live=insert stack k.live

/-- The cost of `run`. -/
theorem cmdRun_cost (hunused : Unused k r) (h : cmdRun k r=some (k',true)) : Cost k k' := by
  rw [cmdRun] at h
  split at h
  next => cases h
  next hcreated =>
    obtain ⟨stack,hstack,hroom,hcount,hlive⟩ := createUser_cost hcreated
    obtain ⟨k1,hfinish,hk1⟩ := Option.map_eq_some_iff.mp h
    obtain rfl : k1=k' := congrArg Prod.fst hk1
    obtain ⟨hcount',hlive'⟩ := finish_cost hfinish
    exact ⟨hroom,hcount'.trans hcount,stack,(hunused.kstack stack hstack).1,hlive'.trans hlive⟩

/-- The cost of `exec`. -/
theorem cmdExec_cost (hunused : Unused k r) (h : cmdExec k r=some (k',true)) : Cost k k' := by
  rw [cmdExec] at h
  split at h
  next =>
    split at h
    next => cases h
    next buffer hbuffer =>
      dsimp only at h
      split at h
      next =>
        split at h
        next => cases h
        next ustack hustack =>
          split at h
          next => cases h
          next hcreated =>
            obtain ⟨stack,hstack,hroom,hcount,hlive⟩ := createUser_cost hcreated
            obtain ⟨k1,hfinish,hk1⟩ := Option.map_eq_some_iff.mp h
            obtain rfl : k1.free ustack=k' := congrArg Prod.fst hk1
            obtain ⟨hcount',hlive'⟩ := finish_cost hfinish
            obtain ⟨hs1,hs2,hs3⟩ := hunused.kstack stack hstack
            obtain ⟨hu1,hu2⟩ := hunused.ustack ustack hustack
            have hb := hunused.buffer buffer hbuffer
            refine ⟨hroom,hcount'.trans hcount,stack,hs1,?_⟩
            have hsb : stack≠buffer := by
              rintro rfl
              exact hs2 hbuffer
            have hsu : stack≠ustack := by
              rintro rfl
              exact hs3 hustack
            have hub : ustack≠buffer := by
              rintro rfl
              exact hu2 hbuffer
            rw [Kernel.free,hlive',Kernel.free,hlive,Kernel.alloc,Kernel.alloc]
            ext a
            simp only [Finset.mem_erase,Finset.mem_insert]
            constructor
            · rintro ⟨h1,h2,h3 | h3 | h3 | h3⟩
              · exact .inl h3
              · exact (h1 h3).elim
              · exact (h2 h3).elim
              · exact .inr h3
            · rintro (rfl | h3)
              · exact ⟨hsu,hsb,.inl rfl⟩
              · refine ⟨?_,?_,.inr (.inr (.inr h3))⟩
                · rintro rfl
                  exact hu1 h3
                · rintro rfl
                  exact hb h3
      next => cases h
  next => cases h

/-- The cost of a command. -/
theorem perform_cost {command : Command} (hunused : Unused k r)
    (h : perform k command r=some (k',true)) : Cost k k' := by
  cases command with
  | run => exact cmdRun_cost hunused h
  | exec => exact cmdExec_cost hunused h

/-- The cost of a number of commands: as many slots and as many blocks. -/
theorem Completed.cost (h : Completed n k k') :
    k'.table.pcbCount=k.table.pcbCount+n ∧ (n≠0 → k'.table.pcbCount ≤ maxProc) ∧
      k.live⊆k'.live ∧ k'.live.card=k.live.card+n := by
  induction h with
  | zero => exact ⟨rfl,fun h => (h rfl).elim,Finset.Subset.refl _,rfl⟩
  | @succ n k k' k'' _ command r hunused hdone ih =>
    obtain ⟨hcount,_,hsub,hcard⟩ := ih
    obtain ⟨hroom,hslot,stack,hnew,hlive⟩ := perform_cost hunused hdone
    refine ⟨by omega,fun _ => by omega,?_,?_⟩
    · rw [hlive]
      exact hsub.trans (Finset.subset_insert _ _)
    · rw [hlive,Finset.card_insert_of_notMem hnew,hcard]
      omega

/-- After some commands whose programs have ended the slots and blocks are as
before only if there was no command; and once the commands have used up the slots,
no process can be created whatever memory there is. -/
theorem completed_givesBack_iff (h : Completed n k k') :
    (GivesBack k k' ↔ n=0) ∧ (maxProc≤k.table.pcbCount+n →
      ∀ kstack pml4, (processCreateUser k'.table kstack pml4 ()).1=-1) := by
  obtain ⟨hcount,hle,hsub,hcard⟩ := h.cost
  refine ⟨⟨fun hback => ?_,?_⟩,fun hfull kstack pml4 => ?_⟩
  · rw [hback.2] at hcard
    omega
  · rintro rfl
    refine ⟨?_,(Finset.eq_of_subset_of_card_le hsub (by omega)).symm⟩
    rw [usableSlots,usableSlots,hcount,Nat.add_zero]
  · rw [processCreateUser,allocPcb,if_pos (by omega)]

/-- A kernel right after boot. -/
def sampleKernel : Kernel := ⟨processInit (some 0x900000) 0x1000 (),{0x900000}⟩

/-- A program of 4096 bytes is executed. -/
def sampleRequest : Request :=
  ⟨true,some 0x910000,true,true,some 0x920000,some 0x940000,0x1000,0⟩

/-- No block of the sample request is live. -/
theorem sampleRequest_unused : Unused sampleKernel sampleRequest := by
  refine ⟨?_,?_,?_⟩ <;>
  · intro a ha
    obtain rfl := Option.some.inj ha
    decide

/-- The kernel after one program has been executed. -/
def sampleAfter : Kernel :=
  ((perform sampleKernel .exec sampleRequest).getD (sampleKernel,false)).1

/-- One program has been executed. -/
theorem sample_completed : Completed 1 sampleKernel sampleAfter := by
  have hended : (perform sampleKernel .exec sampleRequest).map Prod.snd=some true := by decide
  refine .succ (.zero _) .exec sampleRequest sampleRequest_unused ?_
  obtain ⟨r,hr,htrue⟩ := Option.map_eq_some_iff.mp hended
  rw [sampleAfter,hr,Option.getD_some,←htrue]

/-- One program costs a slot or a block. -/
theorem sample_not_givesBack : ¬GivesBack sampleKernel sampleAfter := fun h =>
  absurd ((completed_givesBack_iff sample_completed).1.mp h) (by decide)

/-- After one program that has ended there is a slot less, and the kernel stack is
still live. -/
theorem sample_leaks : Completed 1 sampleKernel sampleAfter ∧ (sampleAfter.table.pcbs 1).state=.zombie ∧
    usableSlots sampleKernel.table=63 ∧ usableSlots sampleAfter.table=62 ∧
    sampleAfter.live={0x900000,0x940000} ∧ ¬GivesBack sampleKernel sampleAfter := by
  have hslots : usableSlots sampleKernel.table=63 ∧ usableSlots sampleAfter.table=62 := by decide
  refine ⟨sample_completed,by decide,hslots.1,hslots.2,by decide,fun h => ?_⟩
  have heq := h.1
  rw [hslots.1,hslots.2] at heq
  exact absurd heq (by decide)

end OvsbMk.ExecResources
