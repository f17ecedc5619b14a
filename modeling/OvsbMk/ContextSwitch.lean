import OvsbMk.ByteMemory
import OvsbMk.SyscallEntry
import OvsbMk.Processes

/-!
# The context switch

`context_switch` of `switch.asm` as the instructions it consists of, on a
machine with the general registers, the interrupt frame registers, the page
table register and a byte memory. The save side stores the six callee-saved
registers and the stack pointer in the control block of the caller; the restore
side loads those of the next process and leaves either by `ret` or, for a user
process, by fifteen pops and `iretq`. The code a process runs between two
switches is arbitrary as long as it leaves the saved part of the others alone.
-/

namespace OvsbMk.ContextSwitch

open ByteMemory SyscallEntry Processes

/-- The processor and its memory. -/
structure Machine where
  /-- General-purpose registers. -/
  regs : Registers
  /-- Instruction pointer. -/
  rip : UInt64
  /-- Code segment. -/
  cs : UInt64
  /-- Flags. -/
  rflags : UInt64
  /-- Stack segment. -/
  ss : UInt64
  /-- Page table register. -/
  cr3 : UInt64
  /-- Memory. -/
  memory : Bytes

/-- The instructions of `context_switch` before its branch and its exit. -/
inductive Instr
  /-- Store a register at an offset from another. -/
  | store (base : Reg) (offset : ℕ) (source : Reg)
  /-- Load a register from an offset from another. -/
  | load (target base : Reg) (offset : ℕ)
  /-- Store a register at a fixed address. -/
  | storeAt (address : ℕ) (source : Reg)
  /-- Load the page table register. -/
  | setCr3 (source : Reg)
  /-- Pop a register. -/
  | pop (target : Reg)

/-- The 64-bit word at an address. -/
def word (memory : Bytes) (address : ℕ) : UInt64 := UInt64.ofNat (load64 memory address)

/-- Change one register. -/
def Machine.set (m : Machine) (r : Reg) (value : UInt64) : Machine :=
  { m with regs := Function.update m.regs r value }

/-- One instruction. -/
def exec (m : Machine) : Instr → Machine
  | .store base offset source =>
    { m with memory := store64 m.memory ((m.regs base).toNat+offset) (m.regs source).toNat }
  | .load target base offset => m.set target (word m.memory ((m.regs base).toNat+offset))
  | .storeAt address source => { m with memory := store64 m.memory address (m.regs source).toNat }
  | .setCr3 source => { m with cr3 := m.regs source }
  | .pop target => (m.set target (word m.memory (m.regs .rsp).toNat)).set .rsp (m.regs .rsp+8)

/-- Straight-line code. -/
def execAll (m : Machine) (code : List Instr) : Machine := code.foldl exec m

/-- Offset of `is_user` in a control block. -/
abbrev isUserOffset : ℕ := 0x28

/-- Offset of `kernel_rsp`. -/
abbrev kernelRspOffset : ℕ := 0x30

/-- Offset of `rsp0`. -/
abbrev rsp0Offset : ℕ := 0x38

/-- Offset of `pml4`. -/
abbrev pml4Offset : ℕ := 0x40

/-- Offset of `parent_pid`, the first field behind the saved registers. -/
abbrev parentPidOffset : ℕ := 0x90

/-- Bytes of a control block. -/
abbrev pcbSize : ℕ := 168

/-- The registers a switch saves, with the offsets of their fields. -/
def savedFields : List (Reg×ℕ) :=
  [(.rbx,0x60),(.rbp,0x68),(.r12,0x70),(.r13,0x78),(.r14,0x80),(.r15,0x88)]

/-- Save the current process. -/
def saveCode : List Instr :=
  .store .rdi kernelRspOffset .rsp::savedFields.map fun f => .store .rdi f.2 f.1

/-- Load the next process; `tss` is the address of the task state segment. -/
def loadCode (tss : ℕ) : List Instr :=
  [.load .rsp .rsi kernelRspOffset,.load .rax .rsi pml4Offset,.setCr3 .rax,
    .load .rax .rsi rsp0Offset,.storeAt (tss+4) .rax]++
    savedFields.map fun f => .load f.1 .rsi f.2

/-- The pops of the user path. -/
def userPops : List Reg :=
  [.r15,.r14,.r13,.r12,.rbp,.rbx,.r11,.r10,.r9,.r8,.rdi,.rsi,.rdx,.rcx,.rax]

/-- Return from a call. -/
def ret (m : Machine) : Machine :=
  { m.set .rsp (m.regs .rsp+8) with rip := word m.memory (m.regs .rsp).toNat }

/-- Return from an interrupt to ring 3. The checks of the selectors, which can
only refuse the transfer, are left out. -/
def iretq (m : Machine) : Machine :=
  let top := (m.regs .rsp).toNat
  { m.set .rsp (word m.memory (top+24)) with
    rip := word m.memory top,cs := word m.memory (top+8),rflags := word m.memory (top+16),
    ss := word m.memory (top+32) }

/-- The exit of the switch, chosen by `is_user` of the next process. -/
def leave (m : Machine) : Machine :=
  if load32 m.memory ((m.regs .rsi).toNat+isUserOffset)=0 then ret m
  else iretq (execAll m (userPops.map .pop))

/-- The whole routine, entered with the two control blocks in `rdi` and `rsi`. -/
def contextSwitch (tss : ℕ) (m : Machine) : Machine :=
  leave (execAll (execAll m saveCode) (loadCode tss))

/-! ### The pops -/

variable {m : Machine} {rs : List Reg} {r : Reg}

/-- Pops leave the memory alone. -/
theorem pops_memory (rs : List Reg) (m : Machine) :
    (execAll m (rs.map .pop)).memory=m.memory := by
  induction rs generalizing m with
  | nil => rfl
  | cons r rs ih => exact (ih _).trans rfl

/-- The stack pointer after some pops. -/
theorem pops_rsp (rs : List Reg) (m : Machine) :
    (execAll m (rs.map .pop)).regs .rsp=m.regs .rsp+UInt64.ofNat (8*rs.length) := by
  induction rs generalizing m with
  | nil => simp [execAll]
  | cons r rs ih =>
    have hstep : (exec m (.pop r)).regs .rsp=m.regs .rsp+8 := by simp [exec,Machine.set]
    have hlen : UInt64.ofNat (8*(r::rs).length)=8+UInt64.ofNat (8*rs.length) := by
      rw [List.length_cons,Nat.mul_succ,Nat.add_comm,UInt64.ofNat_add]
      rfl
    have hrest := ih (exec m (.pop r))
    rw [hstep] at hrest
    rw [hlen,←UInt64.add_assoc]
    exact hrest

/-- Pops leave the other registers alone. -/
theorem pops_other (hr : r≠.rsp) (h : r∉rs) (m : Machine) :
    (execAll m (rs.map .pop)).regs r=m.regs r := by
  induction rs generalizing m with
  | nil => rfl
  | cons s rs ih =>
    have hne : r≠s := fun he => h (he ▸ List.mem_cons_self)
    have hrest : r∉rs := fun he => h (List.mem_cons_of_mem s he)
    have hstep : (exec m (.pop s)).regs r=m.regs r := by
      simp [exec,Machine.set,Function.update_of_ne hr,Function.update_of_ne hne]
    exact (ih hrest _).trans hstep

/-- What each pop takes from the stack. -/
theorem pops_popped {k : ℕ} (hnodup : rs.Nodup) (hrsp : .rsp∉rs) (hk : rs[k]? = some r)
    (hroom : (m.regs .rsp).toNat+8*rs.length≤2^64) :
    (execAll m (rs.map .pop)).regs r=word m.memory ((m.regs .rsp).toNat+8*k) := by
  induction rs generalizing m k with
  | nil => simp at hk
  | cons s rs ih =>
    obtain ⟨hs,hrs⟩ := List.nodup_cons.mp hnodup
    have hlen : (s::rs).length=rs.length+1 := rfl
    cases k with
    | zero =>
      have hr : s=r := by simpa using hk
      subst hr
      have hne : s≠.rsp := fun he => hrsp (he ▸ List.mem_cons_self)
      have hstep : (exec m (.pop s)).regs s=word m.memory (m.regs .rsp).toNat := by
        simp [exec,Machine.set,Function.update_of_ne hne]
      exact (pops_other hne hs _).trans hstep
    | succ k =>
      have hpos : 0<rs.length := by
        rcases rs with _ | ⟨t,rs⟩
        · simp at hk
        · simp
      have htop : ((exec m (.pop s)).regs .rsp).toNat=(m.regs .rsp).toNat+8 := by
        have hadd : (exec m (.pop s)).regs .rsp=m.regs .rsp+8 := by simp [exec,Machine.set]
        have height : (8 : UInt64).toNat=8 := rfl
        rw [hadd,UInt64.toNat_add,height,Nat.mod_eq_of_lt (by omega)]
      have hrest := ih (m:=exec m (.pop s)) hrs (fun h => hrsp (List.mem_cons_of_mem s h))
        (by simpa using hk) (by rw [htop]; omega)
      rw [htop] at hrest
      have haddr : (m.regs .rsp).toNat+8*(k+1)=(m.regs .rsp).toNat+8+8*k := by omega
      rw [haddr]
      exact hrest

/-! ### The two halves of a switch -/

variable {tss a offset : ℕ}

/-- A word is the value that was stored. -/
theorem word_of_load {memory : Bytes} {address : ℕ} {value : UInt64}
    (h : load64 memory address=value.toNat) : word memory address=value := by
  rw [word,h,UInt64.ofNat_toNat]

/-- Saving writes the saved fields of the current process only. -/
theorem save_outside
    (h : a<(m.regs .rdi).toNat+kernelRspOffset ∨ (m.regs .rdi).toNat+parentPidOffset≤a) :
    (execAll m saveCode).memory a=m.memory a := by
  simp only [kernelRspOffset,parentPidOffset] at h
  simp only [execAll,saveCode,savedFields,List.map,List.foldl,exec,kernelRspOffset]
  iterate 7 rw [store64_outside (by omega)]

/-- The stack pointer is saved. -/
theorem save_rsp : load64 (execAll m saveCode).memory ((m.regs .rdi).toNat+kernelRspOffset)=
    (m.regs .rsp).toNat := by
  simp only [execAll,saveCode,savedFields,List.map,List.foldl,exec,kernelRspOffset]
  iterate 6 rw [load64_store64_disjoint (by omega)]
  exact load64_store64_same (m.regs .rsp).toNat_lt

/-- The callee-saved registers are saved. -/
theorem save_field (h : (r,offset)∈savedFields) :
    load64 (execAll m saveCode).memory ((m.regs .rdi).toNat+offset)=(m.regs r).toNat := by
  simp only [execAll,saveCode,savedFields,List.map,List.foldl,exec,kernelRspOffset]
  simp only [savedFields,List.mem_cons,Prod.mk.injEq,List.not_mem_nil,or_false] at h
  rcases h with ⟨rfl,rfl⟩ | ⟨rfl,rfl⟩ | ⟨rfl,rfl⟩ | ⟨rfl,rfl⟩ | ⟨rfl,rfl⟩ | ⟨rfl,rfl⟩ <;>
  · repeat rw [load64_store64_disjoint (by omega)]
    exact load64_store64_same (UInt64.toNat_lt _)

/-- Loading writes the task state segment only. -/
theorem load_outside (h : a<tss+4 ∨ tss+12≤a) :
    (execAll m (loadCode tss)).memory a=m.memory a :=
  store64_outside (by omega)

/-- The stack pointer of the next process. -/
theorem load_rsp : (execAll m (loadCode tss)).regs .rsp=
    word m.memory ((m.regs .rsi).toNat+kernelRspOffset) := by
  simp [execAll,loadCode,savedFields,exec,Machine.set]

/-- The control block of the next process stays in its register. -/
theorem load_rsi : (execAll m (loadCode tss)).regs .rsi=m.regs .rsi := by
  simp [execAll,loadCode,savedFields,exec,Machine.set]

/-- The callee-saved registers of the next process. -/
theorem load_field (h : (r,offset)∈savedFields)
    (htss : (m.regs .rsi).toNat+offset+8≤tss+4 ∨ tss+12≤(m.regs .rsi).toNat+offset) :
    (execAll m (loadCode tss)).regs r=word m.memory ((m.regs .rsi).toNat+offset) := by
  have hkeep : ∀ value, word (store64 m.memory (tss+4) value) ((m.regs .rsi).toNat+offset)=
      word m.memory ((m.regs .rsi).toNat+offset) := by
    intro value
    rw [word,load64_store64_disjoint (by omega),word]
  simp only [savedFields,List.mem_cons,Prod.mk.injEq,List.not_mem_nil,or_false] at h
  rcases h with ⟨rfl,rfl⟩ | ⟨rfl,rfl⟩ | ⟨rfl,rfl⟩ | ⟨rfl,rfl⟩ | ⟨rfl,rfl⟩ | ⟨rfl,rfl⟩ <;>
  · simp [execAll,loadCode,savedFields,exec,Machine.set,hkeep]

/-! ### What a suspended process leaves behind -/

/-- Where the process table and the task state segment are in memory. -/
structure Layout where
  /-- Address of `pcb_table`. -/
  table : ℕ
  /-- Address of `tss`. -/
  tss : ℕ
  /-- The two objects do not overlap. -/
  apart : tss+12≤table ∨ table+maxProc*pcbSize≤tss+4

/-- Address of a control block. -/
def Layout.pcb (L : Layout) (slot : ℕ) : ℕ := L.table+pcbSize*slot

/-- The arguments of a call of `context_switch`. -/
structure Calls (L : Layout) (m : Machine) (current next : ℕ) : Prop where
  /-- The current process is in the table. -/
  current_lt : current < maxProc
  /-- The next process is in the table. -/
  next_lt : next < maxProc
  /-- First argument. -/
  rdi : (m.regs .rdi).toNat=L.pcb current
  /-- Second argument. -/
  rsi : (m.regs .rsi).toNat=L.pcb next

/-- A part of a kernel stack, apart from the two objects a switch writes. -/
structure StackRange (L : Layout) (bottom top : ℕ) : Prop where
  /-- The stack is inside the address space. -/
  room : top≤2^64
  /-- Apart from the process table. -/
  table : top≤L.table ∨ L.table+maxProc*pcbSize≤bottom
  /-- Apart from the task state segment. -/
  tss : top≤L.tss+4 ∨ L.tss+12≤bottom

/-- The bytes a suspended process needs: the part of its control block that a
switch reads, and its stack. -/
def Protected (L : Layout) (p bottom top a : ℕ) : Prop :=
  (L.pcb p+isUserOffset≤a ∧ a<L.pcb p+parentPidOffset) ∨ (bottom≤a ∧ a<top)

/-- Two memories agree on the bytes a suspended process needs. -/
def Keeps (L : Layout) (p bottom top : ℕ) (memory memory' : Bytes) : Prop :=
  ∀ a, Protected L p bottom top a → memory' a=memory a

/-- The memory holds the state in which a process made its call. -/
structure Suspended (L : Layout) (p top : ℕ) (call : Machine) (memory : Bytes) : Prop where
  /-- The saved stack pointer. -/
  rsp : load64 memory (L.pcb p+kernelRspOffset)=(call.regs .rsp).toNat
  /-- The saved registers. -/
  saved : ∀ f∈savedFields, load64 memory (L.pcb p+f.2)=(call.regs f.1).toNat
  /-- The kind of the process. -/
  isUser : load32 memory (L.pcb p+isUserOffset)=load32 call.memory (L.pcb p+isUserOffset)
  /-- The stack from the call on. -/
  stack : ∀ a, (call.regs .rsp).toNat≤a → a<top → memory a=call.memory a

variable {L : Layout} {p q current next bottom top : ℕ} {call : Machine} {memory memory' : Bytes}

/-- Offsets of the saved registers. -/
theorem savedFields_bounds : ∀ f∈savedFields, 0x60≤f.2 ∧ f.2+8≤parentPidOffset := by decide

/-- Control blocks of different slots are apart. -/
theorem Layout.pcb_apart (L : Layout) (h : p≠q) :
    L.pcb p+pcbSize≤L.pcb q ∨ L.pcb q+pcbSize≤L.pcb p := by
  simp only [Layout.pcb,pcbSize]
  omega

/-- Control blocks are in the table. -/
theorem Layout.pcb_bounds (L : Layout) (h : p < maxProc) :
    L.table≤L.pcb p ∧ L.pcb p+pcbSize≤L.table+maxProc*pcbSize := by
  simp only [Layout.pcb,pcbSize,maxProc] at h ⊢
  omega

/-- A suspended process stays so when its bytes are kept. -/
theorem Suspended.keeps (h : Suspended L p top call memory)
    (hkeep : Keeps L p (call.regs .rsp).toNat top memory memory') :
    Suspended L p top call memory' := by
  have hblock : ∀ a, L.pcb p+isUserOffset≤a → a<L.pcb p+parentPidOffset → memory' a=memory a :=
    fun a h1 h2 => hkeep a (.inl ⟨h1,h2⟩)
  simp only [isUserOffset,parentPidOffset] at hblock
  refine ⟨?_,?_,?_,?_⟩
  · rw [←h.rsp]
    simp only [kernelRspOffset]
    exact load64_congr fun a h1 h2 => hblock a (by omega) (by omega)
  · intro f hf
    have hf2 := savedFields_bounds f hf
    simp only [parentPidOffset] at hf2
    rw [←h.saved f hf]
    exact load64_congr fun a h1 h2 => hblock a (by omega) (by omega)
  · rw [←h.isUser]
    simp only [isUserOffset]
    exact loadBytes_congr fun a h1 h2 => hblock a (by omega) (by omega)
  · intro a h1 h2
    exact (hkeep a (.inr ⟨h1,h2⟩)).trans (h.stack a h1 h2)

/-- The save half suspends the caller. -/
theorem suspended_save (hcall : Calls L call p next)
    (hstack : StackRange L (call.regs .rsp).toNat top) :
    Suspended L p top call (execAll call saveCode).memory := by
  have hb := L.pcb_bounds hcall.current_lt
  have ht := hstack.table
  simp only [pcbSize] at hb ht
  refine ⟨?_,?_,?_,?_⟩
  · rw [←hcall.rdi]
    exact save_rsp
  · intro f hf
    rw [←hcall.rdi]
    exact save_field hf
  · refine loadBytes_congr fun a h1 h2 => save_outside (.inl ?_)
    rw [hcall.rdi]
    simp only [isUserOffset,kernelRspOffset] at h2 ⊢
    omega
  · intro a h1 h2
    refine save_outside ?_
    rw [hcall.rdi]
    simp only [kernelRspOffset,parentPidOffset]
    omega

/-- Saving another process keeps the bytes. -/
theorem keeps_save (hcall : Calls L m current next) (hne : current≠p)
    (hstack : StackRange L bottom top) :
    Keeps L p bottom top m.memory (execAll m saveCode).memory := by
  intro a ha
  have hb := L.pcb_bounds hcall.current_lt
  have hapart := L.pcb_apart hne
  have ht := hstack.table
  refine save_outside ?_
  rw [hcall.rdi]
  simp only [Protected,isUserOffset,kernelRspOffset,parentPidOffset,pcbSize] at ha hb hapart ht ⊢
  omega

/-- Loading a process keeps the bytes. -/
theorem keeps_load (hp : p < maxProc) (hstack : StackRange L bottom top) :
    Keeps L p bottom top m.memory (execAll m (loadCode L.tss)).memory := by
  intro a ha
  have hb := L.pcb_bounds hp
  have ht := hstack.tss
  have hapart := L.apart
  refine load_outside ?_
  simp only [Protected,isUserOffset,parentPidOffset,pcbSize] at ha hb hapart
  omega

/-- Returning from an interrupt leaves the memory alone. -/
theorem iretq_memory (m : Machine) : (iretq m).memory=m.memory := rfl

/-- The exit of a switch leaves the memory alone. -/
theorem leave_memory (m : Machine) : (leave m).memory=m.memory := by
  rw [leave]
  split
  · rfl
  · rw [iretq_memory,pops_memory]

/-- A switch between other processes keeps the bytes. -/
theorem keeps_contextSwitch (hp : p < maxProc) (hcall : Calls L m current next)
    (hne : current≠p) (hstack : StackRange L bottom top) :
    Keeps L p bottom top m.memory (contextSwitch L.tss m).memory := by
  intro a ha
  rw [contextSwitch,leave_memory,keeps_load hp hstack a ha,keeps_save hcall hne hstack a ha]

/-! ### Resuming a suspended process -/

/-- What other processes do while a process is suspended. -/
inductive Away (L : Layout) (p bottom top : ℕ) : Machine → Machine → Prop
  /-- Nothing yet. -/
  | refl (m : Machine) : Away L p bottom top m m
  /-- Code of another process runs. -/
  | work {m m' m'' : Machine} (h : Away L p bottom top m m')
      (hkeep : Keeps L p bottom top m'.memory m''.memory) : Away L p bottom top m m''
  /-- Another process switches to another process. -/
  | switch {m m' : Machine} {current next : ℕ} (h : Away L p bottom top m m')
      (hcall : Calls L m' current next) (hcurrent : current≠p) (hnext : next≠p) :
      Away L p bottom top m (contextSwitch L.tss m')

/-- The machine right after a switch that resumes the process that made the
call. -/
inductive Resumption (L : Layout) (p top : ℕ) (call : Machine) : Machine → Prop
  /-- The process switched to itself. -/
  | self (h : Calls L call p p) : Resumption L p top call (contextSwitch L.tss call)
  /-- Another process got the processor and some process switched back. -/
  | later {q r : ℕ} {m : Machine} (h : Calls L call p q) (hq : q≠p)
      (away : Away L p (call.regs .rsp).toNat top (contextSwitch L.tss call) m)
      (hback : Calls L m r p) (hr : r≠p) : Resumption L p top call (contextSwitch L.tss m)

/-- The process goes on behind its call, with the stack pointer and the
callee-saved registers it had. -/
structure Resumes (call resumed : Machine) : Prop where
  /-- At the return address. -/
  rip : resumed.rip=word call.memory (call.regs .rsp).toNat
  /-- With the return address popped. -/
  rsp : resumed.regs .rsp=call.regs .rsp+8
  /-- With the same callee-saved registers. -/
  saved : ∀ r∈[.rbx,.rbp,.r12,.r13,.r14,.r15], resumed.regs r=call.regs r

/-- A word of the stack of a call. -/
def stackWord (m : Machine) (k : ℕ) : UInt64 := word m.memory ((m.regs .rsp).toNat+8*k)

/-- The stack of a call happens to start with a user frame that describes the
call itself. -/
structure FrameAtCall (call : Machine) : Prop where
  /-- The six lowest words are the callee-saved registers. -/
  saved : stackWord call 0=call.regs .r15 ∧ stackWord call 1=call.regs .r14 ∧
    stackWord call 2=call.regs .r13 ∧ stackWord call 3=call.regs .r12 ∧
    stackWord call 4=call.regs .rbp ∧ stackWord call 5=call.regs .rbx
  /-- The return address is there again in the place of the instruction
  pointer. -/
  rip : stackWord call 15=stackWord call 0
  /-- The stack pointer behind the call is in its place. -/
  rsp : stackWord call 18=call.regs .rsp+8

/-- The process is resumed by the plain return. -/
def KernelProcess (L : Layout) (p : ℕ) (m : Machine) : Prop :=
  load32 m.memory (L.pcb p+isUserOffset)=0

/-- The bytes of a process are kept while it is away. -/
theorem Away.keeps {m m' : Machine} (h : Away L p bottom top m m') (hp : p < maxProc)
    (hstack : StackRange L bottom top) : Keeps L p bottom top m.memory m'.memory := by
  induction h with
  | refl => exact fun _ _ => rfl
  | work _ hkeep ih => exact fun a ha => (hkeep a ha).trans (ih a ha)
  | switch _ hcall hcurrent _ ih =>
    exact fun a ha => (keeps_contextSwitch hp hcall hcurrent hstack a ha).trans (ih a ha)

/-- A word of the stack is the one the process left. -/
theorem Suspended.word_eq {k : ℕ} (h : Suspended L p top call memory)
    (hk : (call.regs .rsp).toNat+8*k+8≤top) :
    word memory ((call.regs .rsp).toNat+8*k)=stackWord call k := by
  rw [stackWord,word,word,load64_congr fun a h1 h2 => h.stack a (by omega) (by omega)]

/-- What the load half leaves to the exit of the switch. -/
structure Reloaded (L : Layout) (p top : ℕ) (call m : Machine) : Prop where
  /-- The memory still has the suspended process. -/
  suspended : Suspended L p top call m.memory
  /-- The control block is in its register. -/
  rsi : (m.regs .rsi).toNat=L.pcb p
  /-- The stack pointer is that of the call. -/
  rsp : m.regs .rsp=call.regs .rsp
  /-- The callee-saved registers are those of the call. -/
  saved : ∀ f∈savedFields, m.regs f.1=call.regs f.1

/-- The load half restores a suspended process. -/
theorem Suspended.reloaded (h : Suspended L p top call m.memory) (hp : p < maxProc)
    (hrsi : (m.regs .rsi).toNat=L.pcb p) (hstack : StackRange L (call.regs .rsp).toNat top) :
    Reloaded L p top call (execAll m (loadCode L.tss)) := by
  have hb := L.pcb_bounds hp
  have hapart := L.apart
  refine ⟨h.keeps (keeps_load hp hstack),?_,?_,?_⟩
  · rw [load_rsi]
    exact hrsi
  · rw [load_rsp,hrsi]
    exact word_of_load h.rsp
  · intro f hf
    have hf2 := savedFields_bounds f hf
    simp only [parentPidOffset,pcbSize] at hf2 hb hapart
    rw [load_field hf (by rw [hrsi]; omega),hrsi]
    exact word_of_load (h.saved f hf)

/-- The plain return resumes a reloaded process. -/
theorem Reloaded.resumes_ret (h : Reloaded L p top call m)
    (htop : (call.regs .rsp).toNat+8≤top) : Resumes call (ret m) := by
  have hrip : word m.memory (call.regs .rsp).toNat=word call.memory (call.regs .rsp).toNat :=
    h.suspended.word_eq (k:=0) (by omega)
  refine ⟨?_,?_,?_⟩
  · rw [ret,h.rsp]
    exact hrip
  · simp [ret,Machine.set,h.rsp]
  · have hsaved := h.saved
    simp only [savedFields,List.forall_mem_cons] at hsaved
    intro r hr
    simp only [List.mem_cons,List.not_mem_nil,or_false] at hr
    rcases hr with rfl | rfl | rfl | rfl | rfl | rfl <;> simp [ret,Machine.set,hsaved]

/-- What the user path takes from the stack. -/
structure FromFrame (m entered : Machine) : Prop where
  /-- The general registers. -/
  regs : ∀ k r, userPops[k]? = some r → entered.regs r=stackWord m k
  /-- Instruction pointer. -/
  rip : entered.rip=stackWord m 15
  /-- Code segment. -/
  cs : entered.cs=stackWord m 16
  /-- Flags. -/
  rflags : entered.rflags=stackWord m 17
  /-- Stack pointer. -/
  rsp : entered.regs .rsp=stackWord m 18
  /-- Stack segment. -/
  ss : entered.ss=stackWord m 19

/-- The user path takes its twenty words in order. -/
theorem fromFrame (hroom : (m.regs .rsp).toNat+160≤2^64) :
    FromFrame m (iretq (execAll m (userPops.map .pop))) := by
  have hlen : userPops.length=15 := rfl
  have hnodup : userPops.Nodup := by decide
  have hrsp : Reg.rsp∉userPops := by decide
  have hmemory := pops_memory userPops m
  have htop : ((execAll m (userPops.map .pop)).regs .rsp).toNat=(m.regs .rsp).toNat+120 := by
    have h120 : (UInt64.ofNat (8*userPops.length)).toNat=120 := rfl
    rw [pops_rsp,UInt64.toNat_add,h120,Nat.mod_eq_of_lt (by omega)]
  refine ⟨?_,?_,?_,?_,?_,?_⟩
  · intro k r hk
    have hne : r≠.rsp := by
      rintro rfl
      exact hrsp (List.mem_of_getElem? hk)
    have hpop := pops_popped hnodup hrsp hk (m:=m) (by omega)
    simp only [iretq,Machine.set,Function.update_of_ne hne]
    exact hpop
  all_goals simp only [iretq,Machine.set,Function.update_self,hmemory,htop,stackWord]

/-- The user path resumes a process only if its stack happens to start with the
frame of its own call. -/
theorem Reloaded.resumes_user_iff (h : Reloaded L p top call m)
    (hroom : (call.regs .rsp).toNat+160≤top) (hstack : StackRange L (call.regs .rsp).toNat top) :
    Resumes call (iretq (execAll m (userPops.map .pop))) ↔ FrameAtCall call := by
  have hr := hstack.room
  have hframe := fromFrame (m:=m) (by rw [h.rsp]; omega)
  have hword : ∀ k, k<20 → stackWord m k=stackWord call k := by
    intro k hk
    rw [stackWord,h.rsp]
    exact h.suspended.word_eq (by omega)
  have h0 : stackWord call 0=word call.memory (call.regs .rsp).toNat := rfl
  have hregs : ∀ k r, k<20 → userPops[k]? = some r →
      (iretq (execAll m (userPops.map .pop))).regs r=stackWord call k := fun k r hk hkr =>
    (hframe.regs k r hkr).trans (hword k hk)
  have h15 := hregs 0 .r15 (by omega) rfl
  have h14 := hregs 1 .r14 (by omega) rfl
  have h13 := hregs 2 .r13 (by omega) rfl
  have h12 := hregs 3 .r12 (by omega) rfl
  have hbp := hregs 4 .rbp (by omega) rfl
  have hbx := hregs 5 .rbx (by omega) rfl
  have hrip := hframe.rip.trans (hword 15 (by omega))
  have hrsp := hframe.rsp.trans (hword 18 (by omega))
  constructor
  · intro hres
    have hsaved := hres.saved
    simp only [List.forall_mem_cons,h15,h14,h13,h12,hbp,hbx] at hsaved
    obtain ⟨e5,e4,e3,e2,e1,e0,_⟩ := hsaved
    exact ⟨⟨e0,e1,e2,e3,e4,e5⟩,hrip.symm.trans (hres.rip.trans h0.symm),
      hrsp.symm.trans hres.rsp⟩
  · intro hcoin
    obtain ⟨e0,e1,e2,e3,e4,e5⟩ := hcoin.saved
    refine ⟨hrip.trans (hcoin.rip.trans h0),hrsp.trans hcoin.rsp,?_⟩
    simp only [List.forall_mem_cons,h15,h14,h13,h12,hbp,hbx]
    exact ⟨e5,e4,e3,e2,e1,e0,List.forall_mem_nil _⟩

/-- Room on the stack of a call: the return address, and above it the twenty
words of the interrupt frame through which a user process entered the kernel. -/
structure StackRoom (L : Layout) (p top : ℕ) (call : Machine) : Prop where
  /-- The return address is on the stack. -/
  kernel : (call.regs .rsp).toNat+8≤top
  /-- The frame of a user process is on the stack. -/
  user : ¬KernelProcess L p call → (call.regs .rsp).toNat+160≤top

/-- When the exit of the switch resumes a suspended process. -/
theorem Suspended.resumes_iff (h : Suspended L p top call m.memory) (hp : p < maxProc)
    (hrsi : (m.regs .rsi).toNat=L.pcb p) (hstack : StackRange L (call.regs .rsp).toNat top)
    (hroom : StackRoom L p top call) :
    Resumes call (leave (execAll m (loadCode L.tss))) ↔
      KernelProcess L p call ∨ FrameAtCall call := by
  have hre := h.reloaded hp hrsi hstack
  rw [leave,hre.rsi,hre.suspended.isUser]
  by_cases hkernel : KernelProcess L p call
  · have hzero : load32 call.memory (L.pcb p+isUserOffset)=0 := hkernel
    rw [if_pos hzero]
    exact ⟨fun _ => .inl hkernel,fun _ => hre.resumes_ret hroom.kernel⟩
  · have hnonzero : load32 call.memory (L.pcb p+isUserOffset)≠0 := hkernel
    rw [if_neg hnonzero,hre.resumes_user_iff (hroom.user hkernel) hstack]
    exact ⟨.inr,fun h => h.resolve_left hkernel⟩

/-- A switch back resumes what the process suspended exactly if it is a kernel
process or its stack happens to start with the frame of its own call. -/
theorem resumption_resumes_iff {resumed : Machine} (hp : p < maxProc)
    (hstack : StackRange L (call.regs .rsp).toNat top) (hroom : StackRoom L p top call)
    (h : Resumption L p top call resumed) :
    Resumes call resumed ↔ KernelProcess L p call ∨ FrameAtCall call := by
  cases h with
  | self hcall =>
    exact (suspended_save hcall hstack).resumes_iff hp hcall.rsi hstack hroom
  | @later q r m hcall hq away hback hr =>
    have hsave := suspended_save hcall hstack
    have hswitched : Suspended L p top call (contextSwitch L.tss call).memory := by
      rw [contextSwitch,leave_memory]
      exact hsave.keeps (keeps_load hp hstack)
    have haway := hswitched.keeps (away.keeps hp hstack)
    have hback' := haway.keeps (keeps_save hback hr hstack)
    exact hback'.resumes_iff hp hback.rsi hstack hroom

/-- Push words on a stack: the memory and the stack pointer. -/
def pushWords (memory : Bytes) (sp : ℕ) : List ℕ → Bytes×ℕ
  | [] => (memory,sp)
  | value::rest => pushWords (store64 memory (sp-8) value) (sp-8) rest

/-- A place for the table and the task state segment. -/
def sampleLayout : Layout := ⟨0x110000,0x10F000,by decide⟩

/-- A call of `context_switch` from the kernel. -/
def callFrom (memory : Bytes) (rsp current next : ℕ) : Machine where
  regs
    | .rsp => UInt64.ofNat rsp
    | .rdi => UInt64.ofNat (sampleLayout.pcb current)
    | .rsi => UInt64.ofNat (sampleLayout.pcb next)
    | _ => 0
  rip := 0x107000
  cs := 8
  rflags := 0x202
  ss := 0x10
  cr3 := 0
  memory := memory

/-- The kernel stack of a user process that the timer interrupted: the frame of
the interrupt, the pushes of `irq0` and the return addresses of the handler, the
scheduler and the switch. -/
def tickStack : List ℕ :=
  [0x23,0x304000,0x202,0x1B,0x200100,1,2,3,4,5,6,7,8,9,10,11,12,13,14,15,0x105000,0x106000,0x107000]

/-- A kernel process in slot 0 that is suspended and a user process in slot 1
that the timer interrupted. -/
def tickMemory : Bytes :=
  store64 (store64 (store32 (pushWords (fun _ => 0) 0x182000 tickStack).1
    (sampleLayout.pcb 1+isUserOffset) 1) (sampleLayout.pcb 0+kernelRspOffset) 0x170000)
    0x170000 0x107000

/-- The tick switches from the user process to the kernel process. -/
def preempted : Machine := callFrom tickMemory (0x182000-8*tickStack.length) 1 0

/-- Later the kernel process switches back. -/
def switchedBack : Machine := callFrom (contextSwitch sampleLayout.tss preempted).memory 0x16F000 0 1

/-- The kernel process calls the switch and the user process switches back. -/
def kernelCall : Machine := callFrom tickMemory 0x170000 0 1

/-- The kernel process goes on behind its call. -/
theorem kernelCall_resumes : Resumes kernelCall (contextSwitch sampleLayout.tss
    (callFrom (contextSwitch sampleLayout.tss kernelCall).memory 0x181000 1 0)) := by
  have hrsp : (kernelCall.regs .rsp).toNat=0x170000 := by decide
  have hkernel : KernelProcess sampleLayout 0 kernelCall := by
    rw [KernelProcess]
    decide +kernel
  have hback : Resumption sampleLayout 0 0x171000 kernelCall (contextSwitch sampleLayout.tss
      (callFrom (contextSwitch sampleLayout.tss kernelCall).memory 0x181000 1 0)) :=
    .later (q:=1) (r:=1) ⟨by decide,by decide,by decide,by decide⟩ (by decide)
      (.work (.refl _) fun _ _ => rfl) ⟨by decide,by decide,by decide,by decide⟩ (by decide)
  have hstack : StackRange sampleLayout (kernelCall.regs .rsp).toNat 0x171000 := by
    rw [hrsp]
    exact ⟨by decide,by decide,by decide⟩
  have hroom : StackRoom sampleLayout 0 0x171000 kernelCall :=
    ⟨by rw [hrsp]; decide,fun h => absurd hkernel h⟩
  exact (resumption_resumes_iff (by decide) hstack hroom hback).mpr (.inl hkernel)

/-- A user process that a tick interrupted does not go on behind its call: the
switch back takes the third register of the interrupt for its address. -/
theorem preempted_not_resumed :
    Resumption sampleLayout 1 0x182000 preempted (contextSwitch sampleLayout.tss switchedBack) ∧
    ¬Resumes preempted (contextSwitch sampleLayout.tss switchedBack) := by
  constructor
  · exact .later (q:=0) (r:=0) ⟨by decide,by decide,by decide,by decide⟩ (by decide)
      (.work (.refl _) fun _ _ => rfl) ⟨by decide,by decide,by decide,by decide⟩ (by decide)
  · intro h
    exact absurd h.rip (by decide +kernel)

/-! ### The frames of new processes -/

/-- Build the frame of a process made by `process_create_user`. -/
def setupUserStack (memory : Bytes) (pcb entry ustack ustackSize : ℕ) : Bytes :=
  let pushed := pushWords memory (load64 memory (pcb+kernelRspOffset))
    ([0x23,(ustack+ustackSize)%2^64,0x202,0x1B,entry]++List.replicate 16 0)
  store64 pushed.1 (pcb+kernelRspOffset) pushed.2

/-- The characters of a process name that fit in its field. -/
def nameChars (name : List UInt8) : List UInt8 := (name.takeWhile (·≠0)).take 31

/-- Write bytes in the name field. -/
def writeName (memory : Bytes) (pcb : ℕ) (chars : List UInt8) : Bytes :=
  copyRange memory (pcb+8) chars.length fun i => chars.getD i 0

/-- The control block and the stack that `process_create_user` writes once it
has its slot and its kernel stack. -/
def processCreateUserBytes (memory : Bytes) (pcb kstack pid parentPid pml4 : ℕ)
    (name : List UInt8) (entry ustack ustackSize : ℕ) : Bytes :=
  let m := store32 (store32 (store32 memory pcb pid) (pcb+4) 1) (pcb+isUserOffset) 1
  let m := writeName m pcb (nameChars name)
  let m := store64 (store64 m (pcb+kernelRspOffset) (kstack+stackSize))
    (pcb+rsp0Offset) (kstack+stackSize)
  let m := store32 (store32 (store64 m (pcb+pml4Offset) pml4) (pcb+parentPidOffset) parentPid)
    (pcb+0x94) 0
  let m := store64 (store64 m (pcb+0x98) 0x201000) (pcb+0xA0) 0x201000
  setupUserStack m pcb entry ustack ustackSize

/-- The control block and the stack that `proc_spawn` writes once it has its
slot, its kernel stack and its page table. -/
def procSpawnBytes (memory : Bytes) (pcb kstack pid parentPid pml4 : ℕ)
    (name : List UInt8) (entry userStackTop : ℕ) : Bytes :=
  let m := store32 (store32 (store32 memory pcb pid) (pcb+4) 1) (pcb+isUserOffset) 1
  let m := writeName m pcb (nameChars name++[0])
  let m := store64 (store64 m (pcb+rsp0Offset) (kstack+stackSize)) (pcb+pml4Offset) pml4
  let m := store32 (store32 m (pcb+parentPidOffset) parentPid) (pcb+0x94) 0
  let m := store64 (store64 m (pcb+0x98) 0x201000) (pcb+0xA0) 0x201000
  let pushed := pushWords m (load64 m (pcb+rsp0Offset))
    ([0x23,userStackTop,0x202,0x1B,entry]++List.replicate 14 0)
  let m := store64 pushed.1 (pcb+kernelRspOffset) pushed.2
  savedFields.foldl (fun m f => store64 m (pcb+f.2) 0) m

/-- The stack pointer after some pushes. -/
theorem pushWords_sp (memory : Bytes) (sp : ℕ) (ws : List ℕ) :
    (pushWords memory sp ws).2=sp-8*ws.length := by
  induction ws generalizing memory sp with
  | nil => simp [pushWords]
  | cons w ws ih =>
    rw [pushWords,ih,List.length_cons]
    omega

/-- Pushes write below the old stack pointer and from the new one on. -/
theorem pushWords_outside {sp : ℕ} {ws : List ℕ} (hroom : 8*ws.length ≤ sp)
    (h : a<sp-8*ws.length ∨ sp≤a) : (pushWords memory sp ws).1 a=memory a := by
  induction ws generalizing memory sp with
  | nil => rfl
  | cons w ws ih =>
    simp only [List.length_cons] at hroom h
    rw [pushWords,ih (by omega) (by omega),store64_outside (by omega)]

/-- The words that were pushed. -/
theorem pushWords_word {sp k value : ℕ} {ws : List ℕ} (hroom : 8*ws.length ≤ sp)
    (hk : ws[k]? = some value) :
    load64 (pushWords memory sp ws).1 (sp-8*(k+1))=value%2^64 := by
  induction ws generalizing memory sp k with
  | nil => simp at hk
  | cons w ws ih =>
    simp only [List.length_cons] at hroom
    cases k with
    | zero =>
      have hw : w=value := by simpa using hk
      subst hw
      have hkeep : load64 (pushWords (store64 memory (sp-8) w) (sp-8) ws).1 (sp-8*(0+1))=
          load64 (store64 memory (sp-8) w) (sp-8*(0+1)) :=
        load64_congr fun a h1 h2 => pushWords_outside (by omega) (by omega)
      rw [pushWords,hkeep]
      exact loadBytes_storeBytes_same
    | succ k =>
      have haddr : sp-8*(k+1+1)=sp-8-8*(k+1) := by omega
      rw [pushWords,haddr]
      exact ih (by omega) (by simpa using hk)

/-- A control block of a user process whose kernel stack holds pushed words. -/
structure Built (memory : Bytes) (pcb top : ℕ) (ws : List ℕ) : Prop where
  /-- It is resumed by the user path. -/
  isUser : load32 memory (pcb+isUserOffset)≠0
  /-- Its stack pointer is at the last word. -/
  rsp : load64 memory (pcb+kernelRspOffset)=top-8*ws.length
  /-- The words are on the stack. -/
  words : ∀ k value, ws[k]? = some value → load64 memory (top-8*(k+1))=value%2^64

variable {pcb kstack slot other : ℕ} {ws : List ℕ}

/-- Names are written in their field only. -/
theorem writeName_outside {chars : List UInt8} (hlen : chars.length≤32)
    (h : a<pcb+8 ∨ pcb+40≤a) : writeName memory pcb chars a=memory a :=
  copyRange_outside (by omega)

/-- The characters of a name fit in its field. -/
theorem nameChars_length (name : List UInt8) : (nameChars name).length≤31 := by
  rw [nameChars]
  exact List.length_take_le _ _

/-- The pushes and the stack pointer of a new process. -/
theorem built_push (huser : load32 memory (pcb+isUserOffset)≠0)
    (hroom : 8*ws.length ≤ stackSize) (htop : kstack+stackSize<2^64)
    (hapart : kstack+stackSize≤pcb ∨ pcb+pcbSize≤kstack) :
    Built (store64 (pushWords memory (kstack+stackSize) ws).1 (pcb+kernelRspOffset)
      (pushWords memory (kstack+stackSize) ws).2) pcb (kstack+stackSize) ws := by
  simp only [stackSize,pcbSize] at hroom htop hapart
  refine ⟨?_,?_,?_⟩
  · rw [load32,loadBytes_storeBytes_disjoint (by simp only [isUserOffset,kernelRspOffset]; omega)]
    rw [loadBytes_congr fun a h1 h2 => pushWords_outside (by simp only [stackSize]; omega)
      (by simp only [isUserOffset,stackSize] at h1 h2 ⊢; omega)]
    exact huser
  · rw [pushWords_sp,load64_store64_same (by simp only [stackSize]; omega)]
  · intro k value hk
    have hlt : k<ws.length := (List.getElem?_eq_some_iff.mp hk).1
    rw [load64_store64_disjoint (by simp only [stackSize,kernelRspOffset]; omega)]
    exact pushWords_word (by simp only [stackSize]; omega) hk

/-- What `process_create_user` builds. -/
theorem built_createUser (memory : Bytes) (pid parentPid pml4 : ℕ) (name : List UInt8)
    (entry ustack ustackSize : ℕ) (htop : kstack+stackSize<2^64)
    (hapart : kstack+stackSize≤pcb ∨ pcb+pcbSize≤kstack) :
    Built (processCreateUserBytes memory pcb kstack pid parentPid pml4 name entry ustack ustackSize)
      pcb (kstack+stackSize)
      ([0x23,(ustack+ustackSize)%2^64,0x202,0x1B,entry]++List.replicate 16 0) := by
  have hname := nameChars_length name
  rw [processCreateUserBytes,setupUserStack]
  have hrsp : ∀ m : Bytes, load64 (store64 (store64 (store32 (store32 (store64 (store64 (store64 m
      (pcb+kernelRspOffset) (kstack+stackSize)) (pcb+rsp0Offset) (kstack+stackSize))
      (pcb+pml4Offset) pml4) (pcb+parentPidOffset) parentPid) (pcb+0x94) 0) (pcb+0x98) 0x201000)
      (pcb+0xA0) 0x201000) (pcb+kernelRspOffset)=kstack+stackSize := by
    intro m
    simp only [kernelRspOffset,rsp0Offset,pml4Offset,parentPidOffset,load64]
    iterate 6 rw [loadBytes_storeBytes_disjoint (by omega)]
    exact load64_store64_same htop
  rw [hrsp]
  refine built_push ?_ (by simp [stackSize]) htop hapart
  simp only [kernelRspOffset,rsp0Offset,pml4Offset,parentPidOffset,isUserOffset,load32]
  iterate 7 rw [loadBytes_storeBytes_disjoint (by omega)]
  rw [loadBytes_congr fun a h1 h2 => writeName_outside (by omega) (by omega)]
  rw [loadBytes_storeBytes_same]
  norm_num

/-- Clearing the saved registers of a new process keeps what was built. -/
theorem built_clear (h : Built memory pcb top ws)
    (hapart : top≤pcb ∨ pcb+pcbSize+8*ws.length≤top) :
    Built (savedFields.foldl (fun m f => store64 m (pcb+f.2) 0) memory) pcb top ws := by
  simp only [savedFields,List.foldl,pcbSize] at hapart ⊢
  refine ⟨?_,?_,?_⟩
  · simp only [load32]
    iterate 6 rw [loadBytes_storeBytes_disjoint (by simp only [isUserOffset]; omega)]
    exact h.isUser
  · iterate 6 rw [load64_store64_disjoint (by simp only [kernelRspOffset]; omega)]
    exact h.rsp
  · intro k value hk
    have hlt : k<ws.length := (List.getElem?_eq_some_iff.mp hk).1
    iterate 6 rw [load64_store64_disjoint (by omega)]
    exact h.words k value hk

/-- What `proc_spawn` builds. -/
theorem built_spawn (memory : Bytes) (pid parentPid pml4 : ℕ) (name : List UInt8) (entry userStackTop : ℕ)
    (htop : kstack+stackSize<2^64) (hapart : kstack+stackSize≤pcb ∨ pcb+pcbSize≤kstack) :
    Built (procSpawnBytes memory pcb kstack pid parentPid pml4 name entry userStackTop)
      pcb (kstack+stackSize)
      ([0x23,userStackTop,0x202,0x1B,entry]++List.replicate 14 0) := by
  have hname := nameChars_length name
  rw [procSpawnBytes]
  refine built_clear ?_ (by simp only [List.length_append,List.length_replicate,List.length_cons,
    List.length_nil,stackSize,pcbSize] at hapart ⊢; omega)
  have hrsp0 : ∀ m : Bytes, load64 (store64 (store64 (store32 (store32 (store64 (store64 m
      (pcb+rsp0Offset) (kstack+stackSize)) (pcb+pml4Offset) pml4)
      (pcb+parentPidOffset) parentPid) (pcb+0x94) 0) (pcb+0x98) 0x201000)
      (pcb+0xA0) 0x201000) (pcb+rsp0Offset)=kstack+stackSize := by
    intro m
    simp only [rsp0Offset,pml4Offset,parentPidOffset,load64]
    iterate 5 rw [loadBytes_storeBytes_disjoint (by omega)]
    exact load64_store64_same htop
  rw [hrsp0]
  refine built_push ?_ (by simp [stackSize]) htop hapart
  simp only [rsp0Offset,pml4Offset,parentPidOffset,isUserOffset,load32]
  iterate 6 rw [loadBytes_storeBytes_disjoint (by omega)]
  rw [loadBytes_congr fun a h1 h2 => writeName_outside
    (by rw [List.length_append,List.length_singleton]; omega) (by omega)]
  rw [loadBytes_storeBytes_same]
  norm_num

/-- What was built stays while its bytes are kept. -/
theorem Built.keeps (h : Built memory (L.pcb slot) top ws) (hroom : bottom+8*ws.length≤top)
    (hkeep : Keeps L slot bottom top memory memory') : Built memory' (L.pcb slot) top ws := by
  have hblock : ∀ a, L.pcb slot+isUserOffset≤a → a<L.pcb slot+parentPidOffset →
      memory' a=memory a := fun a h1 h2 => hkeep a (.inl ⟨h1,h2⟩)
  simp only [isUserOffset,parentPidOffset] at hblock
  refine ⟨?_,?_,?_⟩
  · rw [load32,loadBytes_congr fun a h1 h2 => hblock a (by simp only [isUserOffset] at h1; omega)
      (by simp only [isUserOffset] at h2; omega)]
    exact h.isUser
  · rw [load64_congr fun a h1 h2 => hblock a (by simp only [kernelRspOffset] at h1; omega)
      (by simp only [kernelRspOffset] at h2; omega)]
    exact h.rsp
  · intro k value hk
    have hlt : k<ws.length := (List.getElem?_eq_some_iff.mp hk).1
    rw [load64_congr fun a h1 h2 => hkeep a (.inr ⟨by omega,by omega⟩)]
    exact h.words k value hk

/-- The first switch to a new process takes its twenty words from the end of
what was pushed. -/
theorem Built.dispatch (h : Built m.memory (L.pcb slot) top ws) (hcall : Calls L m other slot)
    (hne : other≠slot) (hstack : StackRange L bottom top) (hroom : bottom+8*ws.length≤top)
    (htop : top-8*ws.length+160≤2^64) :
    ∃ r, FromFrame r (contextSwitch L.tss m) ∧ ∀ k value, k<ws.length →
      ws[ws.length-1-k]? = some value → stackWord r k=UInt64.ofNat value := by
  have hsaved : Built (execAll m saveCode).memory (L.pcb slot) top ws :=
    h.keeps hroom (keeps_save hcall hne hstack)
  have hload : Built (execAll (execAll m saveCode) (loadCode L.tss)).memory (L.pcb slot) top ws :=
    hsaved.keeps hroom (keeps_load hcall.next_lt hstack)
  have hrsi : ((execAll m saveCode).regs .rsi).toNat=L.pcb slot := hcall.rsi
  have hloadrsi : ((execAll (execAll m saveCode) (loadCode L.tss)).regs .rsi).toNat=L.pcb slot := by
    rw [load_rsi]
    exact hrsi
  have hrsp : ((execAll (execAll m saveCode) (loadCode L.tss)).regs .rsp).toNat=
      top-8*ws.length := by
    rw [load_rsp,hrsi,word,hsaved.rsp,UInt64.toNat_ofNat',Nat.mod_eq_of_lt (by omega)]
  refine ⟨execAll (execAll m saveCode) (loadCode L.tss),?_,?_⟩
  · rw [contextSwitch,leave,hloadrsi,if_neg hload.isUser]
    exact fromFrame (by rw [hrsp]; exact htop)
  · intro k value hk hvalue
    have hroom' : 8*ws.length≤top := by omega
    have haddr : top-8*ws.length+8*k=top-8*(ws.length-1-k+1) := by omega
    rw [stackWord,hrsp,haddr,word,hload.words _ _ hvalue]
    exact UInt64.toNat_inj.mp (by simp)

/-- Control is at the entry of a program with a fresh user context. -/
structure Enters (entry top : ℕ) (m : Machine) : Prop where
  /-- At the entry. -/
  rip : m.rip=UInt64.ofNat entry
  /-- User code segment. -/
  cs : m.cs=0x1B
  /-- Interrupts enabled. -/
  rflags : m.rflags=0x202
  /-- Top of the user stack. -/
  rsp : m.regs .rsp=UInt64.ofNat top
  /-- User data segment. -/
  ss : m.ss=0x23
  /-- All other registers are zero. -/
  regs : ∀ r∈userPops, m.regs r=0

/-- Neither creator builds a frame that enters the program: one pushes a word
too many and one a word too few for the pops. -/
theorem first_dispatch_misses (pid parentPid pml4 : ℕ) (name : List UInt8)
    (entry ustack ustackSize userStackTop : ℕ) (hcall : Calls L m other slot) (hne : other≠slot)
    (hstack : StackRange L kstack (kstack+stackSize)) (htop : kstack+stackSize+8≤2^64) :
    (Keeps L slot kstack (kstack+stackSize) (processCreateUserBytes memory (L.pcb slot) kstack pid
        parentPid pml4 name entry ustack ustackSize) m.memory →
      ¬Enters entry (ustack+ustackSize) (contextSwitch L.tss m)) ∧
    (Keeps L slot kstack (kstack+stackSize) (procSpawnBytes memory (L.pcb slot) kstack pid
        parentPid pml4 name entry userStackTop) m.memory →
      ¬Enters entry userStackTop (contextSwitch L.tss m)) := by
  have hb := L.pcb_bounds hcall.next_lt
  have ht := hstack.table
  have hapart : kstack+stackSize≤L.pcb slot ∨ L.pcb slot+pcbSize≤kstack := by omega
  constructor
  · intro hkeep henters
    have hbuilt := (built_createUser memory pid parentPid pml4 name entry ustack
      ustackSize (by omega) hapart).keeps (by simp [stackSize]) hkeep
    obtain ⟨r,hframe,hwords⟩ := hbuilt.dispatch hcall hne hstack (by simp [stackSize])
      (by simp only [List.length_append,List.length_replicate,List.length_cons,List.length_nil]
          omega)
    have hflags := hframe.rflags.trans (hwords 17 0x1B (by simp) (by simp))
    rw [henters.rflags] at hflags
    exact absurd hflags (by decide)
  · intro hkeep henters
    have hbuilt := (built_spawn memory pid parentPid pml4 name entry userStackTop
      (by omega) hapart).keeps (by simp [stackSize]) hkeep
    obtain ⟨r,hframe,hwords⟩ := hbuilt.dispatch hcall hne hstack (by simp [stackSize])
      (by simp only [List.length_append,List.length_replicate,List.length_cons,List.length_nil]
          omega)
    have hcs := hframe.cs.trans (hwords 16 0x202 (by simp) (by simp))
    rw [henters.cs] at hcs
    exact absurd hcs (by decide)

/-- Slot 1 just made by `process_create_user`, and slot 0 switching to it. -/
def createdMachine : Machine :=
  callFrom (processCreateUserBytes (fun _ => 0) (sampleLayout.pcb 1) 0x180000 1 0 0x1000 []
    0x200000 0x300000 0x4000) 0x16F000 0 1

/-- Slot 1 just made by `proc_spawn`, and slot 0 switching to it. -/
def spawnedMachine : Machine :=
  callFrom (procSpawnBytes (fun _ => 0) (sampleLayout.pcb 1) 0x180000 1 0 0x1000 []
    0x200000 0x304000) 0x16F000 0 1

/-- Both new processes miss their entry. -/
theorem sample_dispatch_misses :
    ¬Enters 0x200000 (0x300000+0x4000) (contextSwitch sampleLayout.tss createdMachine) ∧
    ¬Enters 0x200000 0x304000 (contextSwitch sampleLayout.tss spawnedMachine) :=
  have hstack : StackRange sampleLayout 0x180000 (0x180000+stackSize) :=
    ⟨by decide,by decide,by decide⟩
  have hcreated : Calls sampleLayout createdMachine 0 1 := ⟨by decide,by decide,by decide,by decide⟩
  have hspawned : Calls sampleLayout spawnedMachine 0 1 := ⟨by decide,by decide,by decide,by decide⟩
  ⟨(first_dispatch_misses 1 0 0x1000 [] 0x200000 0x300000 0x4000 0 hcreated (by decide) hstack
      (by decide)).1 fun _ _ => rfl,
    (first_dispatch_misses 1 0 0x1000 [] 0x200000 0 0 0x304000 hspawned (by decide) hstack
      (by decide)).2 fun _ _ => rfl⟩

/-- The created process starts at address 0 with its entry as code segment; the
spawned one starts at 0x1B with its entry in the accumulator. -/
theorem sample_dispatch_state :
    (contextSwitch sampleLayout.tss createdMachine).rip=0 ∧
    (contextSwitch sampleLayout.tss createdMachine).cs=0x200000 ∧
    ¬Enters 0x200000 (0x300000+0x4000) (contextSwitch sampleLayout.tss createdMachine) ∧
    (contextSwitch sampleLayout.tss spawnedMachine).rip=0x1B ∧
    (contextSwitch sampleLayout.tss spawnedMachine).regs .rax=0x200000 ∧
    ¬Enters 0x200000 0x304000 (contextSwitch sampleLayout.tss spawnedMachine) := by
  refine ⟨by decide +kernel,by decide +kernel,fun h => absurd h.rip (by decide +kernel),
    by decide +kernel,by decide +kernel,fun h => absurd h.rip (by decide +kernel)⟩

end OvsbMk.ContextSwitch
