import Mathlib.Tactic

/-!
# The system call path

`int 0x80` as a ring 3 program sees it: the interrupt frame the processor
pushes, the register frame `syscall_isr` builds below it, the slots
`syscall_handler` reads and writes in that frame, and the way back through
the pops and `iretq`. The calls that only return a constant are part of the
dispatcher; all others are a parameter of it, together with the kernel state
they work on. Registers that the compiled handler clobbers are arbitrary.
-/

namespace OvsbMk.SyscallEntry

/-- The general-purpose registers. -/
inductive Reg where
  /-- Accumulator. -/
  | rax
  /-- Counter. -/
  | rcx
  /-- Data. -/
  | rdx
  /-- Base. -/
  | rbx
  /-- Stack pointer. -/
  | rsp
  /-- Frame pointer. -/
  | rbp
  /-- Source index. -/
  | rsi
  /-- Destination index. -/
  | rdi
  /-- Numbered register. -/
  | r8
  /-- Numbered register. -/
  | r9
  /-- Numbered register. -/
  | r10
  /-- Numbered register. -/
  | r11
  /-- Numbered register. -/
  | r12
  /-- Numbered register. -/
  | r13
  /-- Numbered register. -/
  | r14
  /-- Numbered register. -/
  | r15
  deriving DecidableEq

/-- Contents of the general-purpose registers. -/
abbrev Registers := Reg → UInt64

/-- The processor: registers, the rest of the interrupt frame and the kernel
stack, top first. -/
structure Cpu where
  /-- General-purpose registers. -/
  regs : Registers
  /-- Instruction pointer. -/
  rip : UInt64
  /-- Code segment. -/
  cs : UInt64
  /-- Flags. -/
  rflags : UInt64
  /-- Stack segment. -/
  ss : UInt64
  /-- Words on the kernel stack. -/
  stack : List UInt64

/-- Entry through the interrupt gate. -/
def interrupt (cpu : Cpu) : Cpu :=
  { cpu with stack := cpu.rip::cpu.cs::cpu.rflags::cpu.regs .rsp::cpu.ss::cpu.stack }

/-- Return from an interrupt. -/
def iretq (cpu : Cpu) : Option Cpu :=
  match cpu.stack with
  | rip::cs::rflags::rsp::ss::rest =>
    some ⟨Function.update cpu.regs .rsp rsp,rip,cs,rflags,ss,rest⟩
  | _ => none

/-- Push registers in the given order. -/
def pushAll : List Reg → Registers → List UInt64 → List UInt64
  | [], _, stack => stack
  | r::rest, regs, stack => pushAll rest regs (regs r::stack)

/-- Pop registers in the given order. -/
def popAll : List Reg → Registers → List UInt64 → Option (Registers × List UInt64)
  | [], regs, stack => some (regs,stack)
  | r::rest, regs, word::stack => popAll rest (Function.update regs r word) stack
  | _::_, _, [] => none

/-- The pushes of `syscall_isr`. -/
def saveOrder : List Reg :=
  [.r15,.r14,.r13,.r12,.rbp,.rbx,.r11,.r10,.r9,.r8,.rdi,.rsi,.rdx,.rcx,.rax]

/-- The pops of `syscall_isr`. -/
def restoreOrder : List Reg :=
  [.rax,.rcx,.rdx,.rsi,.rdi,.r8,.r9,.r10,.r11,.rbx,.rbp,.r12,.r13,.r14,.r15]

/-- The system calls with a number of their own. -/
inductive Syscall where
  /-- End the process. -/
  | exit
  /-- Read from a descriptor. -/
  | read
  /-- Write to a descriptor. -/
  | write
  /-- Open a path. -/
  | open
  /-- Close a descriptor. -/
  | close
  /-- Delete a file. -/
  | unlink
  /-- The caller's process id. -/
  | getpid
  /-- The user id. -/
  | getuid
  /-- The effective user id. -/
  | geteuid
  /-- Check a path. -/
  | access
  /-- The group id. -/
  | getgid
  /-- The effective group id. -/
  | getegid
  /-- Device control. -/
  | ioctl
  /-- Unmap pages. -/
  | munmap
  /-- Change page protection. -/
  | mprotect
  /-- Time of day. -/
  | gettimeofday
  /-- Set a signal action. -/
  | sigaction
  /-- Make a directory. -/
  | mkdir2
  /-- Remove a directory. -/
  | rmdir2
  /-- Return from a signal. -/
  | sigreturn
  /-- Status of a path. -/
  | stat
  /-- Status of a descriptor. -/
  | fstat
  /-- Map pages. -/
  | mmap
  /-- Whether a key is available. -/
  | kbhit
  /-- Status of a path, links included. -/
  | lstat
  /-- Move a descriptor's position. -/
  | lseek
  /-- Map the framebuffer. -/
  | dispGetFb
  /-- Copy a back buffer to the framebuffer. -/
  | dispFlush
  deriving DecidableEq

/-- The numbers of `syscall.h`. -/
def Syscall.ofNumber (num : UInt64) : Option Syscall :=
  match num.toNat with
  | 1 => some .exit
  | 3 => some .read
  | 4 => some .write
  | 5 => some .open
  | 6 => some .close
  | 10 => some .unlink
  | 20 => some .getpid
  | 24 => some .getuid
  | 25 => some .geteuid
  | 33 => some .access
  | 47 => some .getgid
  | 48 => some .getegid
  | 54 => some .ioctl
  | 73 => some .munmap
  | 74 => some .mprotect
  | 116 => some .gettimeofday
  | 134 => some .sigaction
  | 136 => some .mkdir2
  | 137 => some .rmdir2
  | 173 => some .sigreturn
  | 188 => some .stat
  | 189 => some .fstat
  | 197 => some .mmap
  | 198 => some .kbhit
  | 199 => some .lstat
  | 200 => some .lseek
  | 202 => some .dispGetFb
  | 203 => some .dispFlush
  | _ => none

/-- The arguments of a call. -/
structure Arguments where
  /-- First argument. -/
  a1 : UInt64
  /-- Second argument. -/
  a2 : UInt64
  /-- Third argument. -/
  a3 : UInt64
  /-- Fourth argument. -/
  a4 : UInt64

/-- The calls that use kernel state: the result and the state they leave, or
nothing when the call does not return. -/
abbrev Services (σ : Type) := Syscall → Arguments → σ → Option (UInt64 × σ)

variable {σ : Type}

/-- The switch of `syscall_handler`: the value of `ret` and the kernel state
at its end. `exit` does not return, unknown numbers give all ones. -/
def dispatch (services : Services σ) (num : UInt64) (args : Arguments) (kernel : σ) :
    Option (UInt64 × σ) :=
  match Syscall.ofNumber num with
  | none => some (-1,kernel)
  | some .exit => none
  | some .access | some .mprotect | some .getuid | some .geteuid | some .getgid | some .getegid
  | some .ioctl | some .sigaction | some .sigreturn => some (0,kernel)
  | some call => services call args kernel

/-- The handler reads number and arguments from the register frame and stores
the result in its slot 14. -/
def syscallHandler (services : Services σ) (regs : List UInt64) (kernel : σ) :
    Option (List UInt64 × σ) :=
  let args := ⟨regs.getD 4 0,regs.getD 3 0,regs.getD 2 0,regs.getD 1 0⟩
  match dispatch services (regs.getD 0 0) args kernel with
  | none => none
  | some (ret,kernel') => some (regs.set 14 ret,kernel')

/-- The interrupt handler; the handler's compiled code leaves any contents in
the registers. -/
def syscallIsr (services : Services σ) (clobbered : Registers) (cpu : Cpu) (kernel : σ) :
    Option (Cpu × σ) :=
  match syscallHandler services (pushAll saveOrder cpu.regs cpu.stack) kernel with
  | none => none
  | some (stack,kernel') =>
    match popAll restoreOrder clobbered stack with
    | none => none
    | some (regs,rest) => (iretq { cpu with regs := regs, stack := rest }).map fun c => (c,kernel')

/-- `int 0x80` from ring 3. -/
def int80 (services : Services σ) (clobbered : Registers) (cpu : Cpu) (kernel : σ) :
    Option (Cpu × σ) :=
  syscallIsr services clobbered (interrupt cpu) kernel

/-- Number and arguments in the registers that the libc wrapper asks for. -/
def callRegisters (regs : Registers) (num : UInt64) (args : Arguments) : Registers :=
  let r1 := Function.update regs .rax num
  let r2 := Function.update r1 .rdi args.a1
  let r3 := Function.update r2 .rsi args.a2
  let r4 := Function.update r3 .rdx args.a3
  Function.update r4 .rcx args.a4

/-- The libc wrapper: the result is read from RAX. -/
def libcSyscall (services : Services σ) (clobbered : Registers) (cpu : Cpu) (kernel : σ)
    (num : UInt64) (args : Arguments) : Option UInt64 :=
  (int80 services clobbered { cpu with regs := callRegisters cpu.regs num args } kernel).map
    fun r => r.1.regs .rax

/-- Pushing leaves the registers on the stack, the last one on top. -/
theorem pushAll_eq (order : List Reg) (regs : Registers) (stack : List UInt64) :
    pushAll order regs stack=order.reverse.map regs++stack := by
  induction order generalizing stack with
  | nil => rfl
  | cons r rest ih => simp [pushAll,ih]

/-- Popping words that were taken from registers restores these registers. -/
theorem popAll_map (order : List Reg) (saved regs : Registers) (rest : List UInt64) :
    ∃ regs', popAll order regs (order.map saved++rest)=some (regs',rest) ∧
      ∀ r, regs' r=if r∈order then saved r else regs r := by
  induction order generalizing regs with
  | nil => exact ⟨regs,rfl,fun r => by simp⟩
  | cons x order ih =>
    obtain ⟨regs',heq,hregs⟩ := ih (Function.update regs x (saved x))
    refine ⟨regs',heq,fun r => ?_⟩
    rw [hregs r]
    by_cases hr : r=x
    · subst hr
      simp
    · simp [hr]

/-- The slot the handler writes belongs to R15. -/
theorem frame_set (regs : Registers) (rest : List UInt64) (ret : UInt64) :
    (restoreOrder.map regs++rest).set 14 ret=
      restoreOrder.map (Function.update regs .r15 ret)++rest := by
  simp [restoreOrder]

/-- Effect of a returning call on the caller: R15 holds the result and every
other register is as before. -/
theorem int80_regs {services : Services σ} (clobbered : Registers) (cpu : Cpu) {kernel kernel' : σ}
    {ret : UInt64}
    (h : dispatch services (cpu.regs .rax)
      ⟨cpu.regs .rdi,cpu.regs .rsi,cpu.regs .rdx,cpu.regs .rcx⟩ kernel=some (ret,kernel')) :
    ∃ cpu', int80 services clobbered cpu kernel=some (cpu',kernel') ∧
      cpu'.regs=Function.update cpu.regs .r15 ret := by
  have hframe : pushAll saveOrder cpu.regs (interrupt cpu).stack=
      restoreOrder.map cpu.regs++(interrupt cpu).stack := pushAll_eq _ _ _
  obtain ⟨regs,hpop,hregs⟩ := popAll_map restoreOrder (Function.update cpu.regs .r15 ret) clobbered
    (interrupt cpu).stack
  have hhandler : syscallHandler services (restoreOrder.map cpu.regs++(interrupt cpu).stack) kernel=
      some (restoreOrder.map (Function.update cpu.regs .r15 ret)++(interrupt cpu).stack,kernel') := by
    rw [syscallHandler,← frame_set]
    have hdispatch : dispatch services
        ((restoreOrder.map cpu.regs++(interrupt cpu).stack).getD 0 0)
        ⟨(restoreOrder.map cpu.regs++(interrupt cpu).stack).getD 4 0,
          (restoreOrder.map cpu.regs++(interrupt cpu).stack).getD 3 0,
          (restoreOrder.map cpu.regs++(interrupt cpu).stack).getD 2 0,
          (restoreOrder.map cpu.regs++(interrupt cpu).stack).getD 1 0⟩ kernel=
        some (ret,kernel') := h
    simp only [hdispatch]
  refine ⟨⟨Function.update regs .rsp (cpu.regs .rsp),cpu.rip,cpu.cs,cpu.rflags,cpu.ss,cpu.stack⟩,
    ?_,?_⟩
  · have hint : (interrupt cpu).regs=cpu.regs := rfl
    rw [int80,syscallIsr,hint,hframe,hhandler]
    simp only [hpop]
    rfl
  · funext r
    by_cases hr : r=.rsp
    · subst hr
      simp
    · have hmem : r∈restoreOrder := by
        cases r <;> first | exact (hr rfl).elim | decide
      simp only [Function.update_of_ne hr,hregs r,if_pos hmem]

/-- The libc wrapper returns the call number, whatever the result. -/
theorem libcSyscall_eq {services : Services σ} {clobbered : Registers} {cpu : Cpu}
    {kernel kernel' : σ} {num ret : UInt64} {args : Arguments}
    (h : dispatch services num args kernel=some (ret,kernel')) :
    libcSyscall services clobbered cpu kernel num args=some num := by
  obtain ⟨cpu',heq,hregs⟩ := int80_regs clobbered
    { cpu with regs := callRegisters cpu.regs num args } h
  rw [libcSyscall,heq,Option.map_some,hregs]
  rfl

end OvsbMk.SyscallEntry
