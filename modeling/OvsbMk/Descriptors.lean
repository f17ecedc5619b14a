import OvsbMk.FatSteps

/-!
# File descriptors

The system calls on file descriptors. One table serves all processes; a
descriptor holds a name, which every call looks up again, and a position. Reading
goes through a static buffer that is filled from the start of the file each time.
-/

namespace OvsbMk.Descriptors

open ByteMemory BlockDisk Fat32 FatTable FatData FatDirectory FatFiles FatSteps

/-- Entries of the table. -/
abbrev maxFds : ℕ := 16

/-- Bytes of the static buffer. -/
abbrev tmpSize : ℕ := 4096

/-- An entry of the table. -/
structure Descriptor where
  /-- It is in use. -/
  used : Bool
  /-- Name of the file. -/
  name : Text
  /-- Position, a 32-bit number without sign. -/
  pos : ℕ

/-- What the calls work on. -/
structure Kernel where
  /-- The disk. -/
  disk : Disk
  /-- First cluster of the current directory. -/
  cwd : ℕ
  /-- The table, of which the numbers below sixteen are used. -/
  fds : ℕ → Descriptor
  /-- The static buffer, from index zero, and the memory around it. -/
  tmp : ℤ → UInt8

/-- A number that wraps like a signed one of 32 bits. -/
def wrapInt (x : ℤ) : ℤ := toInt (x%2^32).toNat

/-- The number is that of a descriptor in use. -/
def isOpen (s : Kernel) (fd : ℤ) : Bool :=
  decide (3≤fd) && decide (fd < maxFds) && (s.fds fd.toNat).used

/-- Change an entry of the table. -/
def Kernel.set (s : Kernel) (fd : ℕ) (e : Descriptor) : Kernel :=
  { s with fds := Function.update s.fds fd e }

/-- Numbers of the table that can be given out. -/
def numbers : List ℕ := List.range' 3 13

/-- Clear the table. -/
def fdsCleanup (s : Kernel) : Kernel :=
  { s with fds := fun fd => if fd∈numbers then { s.fds fd with used := false } else s.fds fd }

/-- The first number that is not in use. -/
def allocFd (s : Kernel) : Option ℕ := numbers.find? fun fd => !(s.fds fd).used

/-- Make a number free. -/
def closeFd (fd : ℤ) (s : Kernel) : Kernel :=
  if 3≤fd ∧ fd < maxFds then s.set fd.toNat { s.fds fd.toNat with used := false } else s

/-- The name `/dev/tty`. -/
def devTty : List UInt8 := [0x2F,0x64,0x65,0x76,0x2F,0x74,0x74,0x79]

/-- The name `/dev/stdin`. -/
def devStdin : List UInt8 := [0x2F,0x64,0x65,0x76,0x2F,0x73,0x74,0x64,0x69,0x6E]

/-- The name `/dev/stdout`. -/
def devStdout : List UInt8 := [0x2F,0x64,0x65,0x76,0x2F,0x73,0x74,0x64,0x6F,0x75,0x74]

/-- The name `/dev/stderr`. -/
def devStderr : List UInt8 := [0x2F,0x64,0x65,0x76,0x2F,0x73,0x74,0x64,0x65,0x72,0x72]

/-- The part of a path that a descriptor holds. -/
def stored (path : Text) : Text := ⟨path.1.take 255,fun h => path.2 (List.mem_of_mem_take h)⟩

/-- `SYS_open`. The file need not exist. -/
def sysOpen (path : Text) (s : Kernel) : ℤ×Kernel :=
  if path.1=devTty ∨ path.1=devStdin then (0,s)
  else if path.1=devStdout then (1,s)
  else if path.1=devStderr then (2,s)
  else
    match allocFd s with
    | none => (-1,s)
    | some fd => ((fd : ℤ),s.set fd ⟨true,stored path,0⟩)

/-- `SYS_close`. -/
def sysClose (fd : ℤ) (s : Kernel) : ℤ×Kernel := (0,closeFd fd s)

/-- The result of a read. -/
structure ReadResult where
  /-- Returned number. -/
  ret : ℤ
  /-- Bytes delivered to the caller's buffer. -/
  data : List UInt8
  /-- Indices at which the static buffer was read. -/
  indices : List ℤ
  /-- Bytes that were just stored in the static buffer, or minus one. -/
  filled : ℤ
  /-- The state afterwards. -/
  state : Kernel

/-- Read from a descriptor in use. -/
def readDescriptor (v : Volume) (s : Kernel) (fd : ℕ) (count : ℤ) : Option ReadResult :=
  match fat32ReadFile v s.cwd (s.fds fd).name (fun i => s.tmp i) tmpSize s.disk with
  | none => none
  | some (r,buffer,d) =>
    let tmp : ℤ → UInt8 := fun i => if 0 ≤ i then buffer i.toNat else s.tmp i
    let s1 : Kernel := { s with disk := d, tmp := tmp }
    if r<0 then some ⟨-1,[],[],r,s1⟩
    else
      let off := toInt (s.fds fd).pos
      let n := if count<wrapInt (r-off) then count else wrapInt (r-off)
      if n<0 then some ⟨0,[],[],r,s1⟩
      else
        let indices := (List.range n.toNat).map fun i : ℕ => off+(i : ℤ)
        some ⟨n,indices.map tmp,indices,r,
          s1.set fd { s.fds fd with pos := ((s.fds fd).pos+n.toNat)%2^32 }⟩

/-- `SYS_read`; what reading the keyboard answers is given. -/
def sysRead (v : Volume) (keyboard : ℤ → ℤ×List UInt8) (s : Kernel) (fd count : ℤ) :
    Option ReadResult :=
  if fd=0 ∧ 0<count then some ⟨(keyboard count).1,(keyboard count).2,[],-1,s⟩
  else if isOpen s fd then readDescriptor v s fd.toNat count
  else some ⟨-1,[],[],-1,s⟩

/-- The entry of a name. -/
def fat32Stat (v : Volume) (cwd : ℕ) (name : List UInt8) (d : Disk) : Option (Option DirEntry×Disk) :=
  match findEntry v cwd name d with
  | none => none
  | some ((_,none),d) => some (none,d)
  | some ((r,some e),d) => if r<0 then some (none,d) else some (some e,d)

/-- `SYS_lseek`. Without a file under the name, and for other ways to count, the
position stays. -/
def sysLseek (v : Volume) (s : Kernel) (fd off whence : ℤ) : Option (ℤ×Kernel) :=
  if isOpen s fd then
    let e := s.fds fd.toNat
    if whence=0 then some ((off%2^32).toNat,s.set fd.toNat { e with pos := (off%2^32).toNat })
    else if whence=1 then
      some (((e.pos+off)%2^32).toNat,s.set fd.toNat { e with pos := ((e.pos+off)%2^32).toNat })
    else if whence=2 then
      match fat32Stat v s.cwd e.name s.disk with
      | none => none
      | some (none,d) => some (e.pos,{ s with disk := d })
      | some (some entry,d) =>
        some (((entry.size+off)%2^32).toNat,
          { s with disk := d }.set fd.toNat { e with pos := ((entry.size+off)%2^32).toNat })
    else some (e.pos,s)
  else some (-1,s)

/-- `SYS_write`. The length becomes a number without sign for the file system. -/
def sysWrite (v : Volume) (s : Kernel) (fd : ℤ) (buffer : Bytes) (count : ℤ) : Option (ℤ×Kernel) :=
  if isOpen s fd then
    match fat32WriteFile v s.cwd (s.fds fd.toNat).name buffer (count%2^32).toNat s.disk with
    | none => none
    | some (r,d) => some (if 0≤r then count else -1,{ s with disk := d })
  else if fd=1 ∨ fd=2 then some (count,s)
  else some (-1,s)

/-- Calls on descriptors that leave the disk alone, with their registers. -/
inductive Request where
  /-- `SYS_open`. -/
  | openFile (path : Text)
  /-- `SYS_close`. -/
  | close (a1 : UInt64)
  /-- `SYS_read`. -/
  | read (a1 a3 : UInt64)
  /-- `SYS_lseek`. -/
  | lseek (a1 a2 a3 : UInt64)
  /-- `SYS_exit`, as far as the table goes. -/
  | exit

/-- A register as a signed 32-bit number. -/
def argument (a : UInt64) : ℤ := toInt a.toNat

/-- Perform a call: its result and the state after it. -/
def Request.perform (v : Volume) (keyboard : ℤ → ℤ×List UInt8) (s : Kernel) :
    Request → Option (ℤ×Kernel)
  | openFile path => some (sysOpen path s)
  | close a1 => some (sysClose (argument a1) s)
  | read a1 a3 => (sysRead v keyboard s (argument a1) (argument a3)).map fun r => (r.ret,r.state)
  | lseek a1 a2 a3 => sysLseek v s (argument a1) (argument a2) (argument a3)
  | exit => some (0,fdsCleanup s)

variable {v : Volume} {keyboard : ℤ → ℤ×List UInt8} {s s' : Kernel} {fd : ℕ} {e : Descriptor}

/-- Range of a signed number. -/
theorem toInt_range (x : ℕ) : -2^31≤toInt x ∧ toInt x<2^31 := by
  rw [toInt]
  split <;> omega

/-- Numbers in range do not wrap. -/
theorem wrapInt_of_range {x : ℤ} (h1 : -2^31≤x) (h2 : x<2^31) : wrapInt x=x := by
  rw [wrapInt,toInt]
  split <;> omega

/-- The number of a descriptor in use. -/
theorem isOpen_iff {n : ℤ} : isOpen s n=true ↔ n.toNat∈numbers ∧ (s.fds n.toNat).used=true := by
  have hmem : n.toNat∈numbers ↔ 3≤n ∧ n < maxFds := by
    rw [numbers,List.mem_range'_1]
    simp only [maxFds]
    omega
  rw [isOpen,Bool.and_eq_true,Bool.and_eq_true,decide_eq_true_eq,decide_eq_true_eq,hmem]

/-- The entry that was set. -/
theorem set_same : (s.set fd e).fds fd=e := by simp only [Kernel.set,Function.update_self]

/-- Other entries stay. -/
theorem set_other {n : ℕ} (h : n≠fd) : (s.set fd e).fds n=s.fds n := by
  simp only [Kernel.set,Function.update_apply,if_neg h]

/-- Numbers given out were not in use. -/
theorem allocFd_spec (h : allocFd s=some fd) : fd∈numbers ∧ (s.fds fd).used=false := by
  refine ⟨List.mem_of_find?_eq_some h,?_⟩
  have := List.find?_some h
  simpa using this

end OvsbMk.Descriptors
