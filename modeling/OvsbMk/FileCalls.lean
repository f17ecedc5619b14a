import Mathlib.Data.List.GetD
import OvsbMk.DescriptorReads
import OvsbMk.FatSessions

/-!
# File system calls

The system calls of programs on files, with one table of descriptors for all of them. A
run of such calls is one of a store of files with names and positions: a descriptor stands
for the name it was opened with, and every call looks that name up again.
-/

namespace OvsbMk.FileCalls

open ByteMemory BlockDisk Fat32 FatTable FatDirectory FatTree FatFiles FatSteps FatRuns FatStore
  FileStore FatRequests FatService FatSessions Descriptors DescriptorReads LabelledRuns

/-- The calls, with their arguments. Where a call stores a status, the pointer to it is given. -/
inductive Syscall where
  /-- `SYS_open`. -/
  | openFile (path : Text)
  /-- `SYS_close`. -/
  | close (fd : ℤ)
  /-- `SYS_read`. -/
  | read (fd count : ℤ)
  /-- `SYS_write`. -/
  | write (fd : ℤ) (buffer : Bytes) (count : ℤ)
  /-- `SYS_lseek`. -/
  | lseek (fd off whence : ℤ)
  /-- `SYS_fstat`. -/
  | fstat (fd : ℤ) (st : ℕ)
  /-- `SYS_stat` and `SYS_lstat`. -/
  | stat (path : Text) (st : ℕ)
  /-- `SYS_unlink`. -/
  | unlink (path : Text)
  /-- `SYS_mkdir2`. -/
  | mkdir2 (path : Text)
  /-- `SYS_rmdir2`. -/
  | rmdir2 (path : Text)
  /-- `SYS_exit`, as far as the table goes. -/
  | exit

/-- What a call gives back. -/
structure Returned where
  /-- The returned number. -/
  ret : ℤ
  /-- The bytes delivered to the caller's buffer. -/
  data : List UInt8
  /-- The size stored in the caller's status. -/
  size : Option ℕ

/-- Only a number is given back. -/
def number (ret : ℤ) : Returned := ⟨ret,[],none⟩

/-- What the calls see of the file system. -/
def driver (k : Kernel) : State := ⟨k.disk,k.cwd⟩

/-- `SYS_stat`. -/
def sysStat (v : Volume) (k : Kernel) (path : Text) (st : ℕ) : Option (Returned×Kernel) :=
  if st=0 then some (number (-1),k)
  else
    (fat32Stat v k.cwd path k.disk).map fun r =>
      match r.1 with
      | some e => (⟨0,[],some e.size⟩,{ k with disk := r.2 })
      | none => (number (-1),{ k with disk := r.2 })

/-- `SYS_fstat`. -/
def sysFstat (v : Volume) (k : Kernel) (fd : ℤ) (st : ℕ) : Option (Returned×Kernel) :=
  if st=0 then some (number (-1),k)
  else if isOpen k fd then sysStat v k (k.fds fd.toNat).name st
  else if 0≤fd ∧ fd≤2 then some (⟨0,[],some 0⟩,k)
  else some (number (-1),k)

/-- The calls that return 0 when the driver does, and -1 otherwise. -/
def driverCall (v : Volume) (k : Kernel) (c : Call) : Option (Returned×Kernel) :=
  (c.perform v (driver k)).map fun r =>
    (number (if r.1=0 then 0 else -1),{ k with disk := r.2.disk })

/-- `SYS_unlink`. -/
def sysUnlink (v : Volume) (k : Kernel) (path : Text) : Option (Returned×Kernel) :=
  driverCall v k (.deleteFile path)

/-- `SYS_mkdir2`. -/
def sysMkdir2 (v : Volume) (k : Kernel) (path : Text) : Option (Returned×Kernel) :=
  driverCall v k (.mkdir path)

/-- `SYS_rmdir2`. -/
def sysRmdir2 (v : Volume) (k : Kernel) (path : Text) : Option (Returned×Kernel) :=
  driverCall v k (.rmdir path)

/-- Perform a call. What reading the keyboard answers is given. -/
def Syscall.perform (v : Volume) (keyboard : ℤ → ℤ×List UInt8) (k : Kernel) :
    Syscall → Option (Returned×Kernel)
  | openFile path => some (number (sysOpen path k).1,(sysOpen path k).2)
  | close fd => some (number (sysClose fd k).1,(sysClose fd k).2)
  | read fd count => (sysRead v keyboard k fd count).map fun r => (⟨r.ret,r.data,none⟩,r.state)
  | write fd buffer count => (sysWrite v k fd buffer count).map fun r => (number r.1,r.2)
  | lseek fd off whence => (sysLseek v k fd off whence).map fun r => (number r.1,r.2)
  | fstat fd st => sysFstat v k fd st
  | stat path st => sysStat v k path st
  | unlink path => sysUnlink v k path
  | mkdir2 path => sysMkdir2 v k path
  | rmdir2 path => sysRmdir2 v k path
  | exit => some (number 0,fdsCleanup k)

/-! ### Files with descriptors -/

/-- A store of files, the current directory, and the descriptors. -/
structure Session where
  /-- The files. -/
  files : Files
  /-- The current directory. -/
  cwd : ℕ
  /-- The table. -/
  fds : ℕ → Descriptor

/-- Change an entry of the table. -/
def Session.set (a : Session) (fd : ℕ) (e : Descriptor) : Session :=
  { a with fds := Function.update a.fds fd e }

/-- The number is that of a descriptor in use. -/
def Session.Open (a : Session) (fd : ℤ) : Prop := fd.toNat∈numbers ∧ (a.fds fd.toNat).used=true

/-- What the name of a descriptor stands for. -/
def Session.node (a : Session) (fd : ℤ) : Option (Node ℕ UInt8) :=
  a.files a.cwd (nameTo83 (a.fds fd.toNat).name)

/-- The names of devices and their numbers. -/
def device (path : List UInt8) : Option ℤ :=
  if path=devTty ∨ path=devStdin then some 0
  else if path=devStdout then some 1
  else if path=devStderr then some 2
  else none

/-- Bytes between a position and the end of what a read sees of a file: its first 4096. -/
def left (text : List UInt8) (pos : ℕ) : ℤ := min tmpSize text.length-pos

/-- The position after a seek. Without a file there is no end to count from. -/
inductive Sought (node : Option (Node ℕ UInt8)) (pos : ℕ) (off : ℤ) : ℤ → ℕ → Prop where
  /-- From the start. -/
  | start : Sought node pos off 0 (off%2^32).toNat
  /-- From the position. -/
  | current : Sought node pos off 1 ((pos+off)%2^32).toNat
  /-- From the end. -/
  | fromEnd (text : List UInt8) (h : node=some (.file text)) :
    Sought node pos off 2 ((text.length+off)%2^32).toNat
  /-- From some size of a directory. -/
  | folder (q size : ℕ) (h : node=some (.folder q)) : Sought node pos off 2 ((size+off)%2^32).toNat
  /-- There is no file. -/
  | missing (h : node=none) : Sought node pos off 2 pos
  /-- Another way to count. -/
  | other (whence : ℤ) (h : whence≠0 ∧ whence≠1 ∧ whence≠2) : Sought node pos off whence pos

/-- What files with descriptors give back to a call. -/
inductive Provides (root : ℕ) (a : Session) : Syscall → Returned → Session → Prop where
  /-- A device has its number. -/
  | device (path : Text) (n : ℤ) (h : device path.1=some n) :
    Provides root a (.openFile path) (number n) a
  /-- All numbers are in use. -/
  | openFull (path : Text) (hdevice : device path.1=none)
    (h : ∀ fd∈numbers, (a.fds fd).used=true) : Provides root a (.openFile path) (number (-1)) a
  /-- The first free number stands for the name. -/
  | opened (path : Text) (fd : ℕ) (hdevice : device path.1=none) (hfd : fd∈numbers)
    (hfree : (a.fds fd).used=false) (hfirst : ∀ n∈numbers, n<fd → (a.fds n).used=true) :
    Provides root a (.openFile path) (number fd) (a.set fd ⟨true,stored path,0⟩)
  /-- A number becomes free. -/
  | closed (fd : ℕ) (h : fd∈numbers) :
    Provides root a (.close fd) (number 0) (a.set fd { a.fds fd with used := false })
  /-- A number that is none of the table. -/
  | closeOther (fd : ℤ) (h : ∀ n∈numbers, (n : ℤ)≠fd) : Provides root a (.close fd) (number 0) a
  /-- The keyboard is read. -/
  | typed (count r : ℤ) (data : List UInt8) (h : 0<count) :
    Provides root a (.read 0 count) ⟨r,data,none⟩ a
  /-- Nothing is read through a number that is not in use. -/
  | readClosed (fd count : ℤ) (h : ¬(fd=0 ∧ 0<count)) (hclosed : ¬a.Open fd) :
    Provides root a (.read fd count) (number (-1)) a
  /-- The name is no longer there. -/
  | readMissing (fd count : ℤ) (hopen : a.Open fd) (h : a.node fd=none) :
    Provides root a (.read fd count) (number (-1)) a
  /-- The position is behind the end or before the start, or less than nothing is asked for. -/
  | readNone (fd count : ℤ) (text : List UInt8) (hopen : a.Open fd)
    (h : a.node fd=some (.file text))
    (hnone : 2^31≤(a.fds fd.toNat).pos ∨ count<0 ∨ left text (a.fds fd.toNat).pos<0) :
    Provides root a (.read fd count) (number 0) a
  /-- What follows the position is read, and the position moves on. -/
  | readPart (fd count : ℤ) (text : List UInt8) (n : ℕ) (hopen : a.Open fd)
    (h : a.node fd=some (.file text)) (hpos : (a.fds fd.toNat).pos<2^31)
    (hn : (n : ℤ)=min count (left text (a.fds fd.toNat).pos)) :
    Provides root a (.read fd count) ⟨n,(text.drop (a.fds fd.toNat).pos).take n,none⟩
      (a.set fd.toNat { a.fds fd.toNat with pos := (a.fds fd.toNat).pos+n })
  /-- Before the start of the file something is read. -/
  | readBefore (fd count : ℤ) (text : List UInt8) (n : ℕ) (data : List UInt8) (hopen : a.Open fd)
    (h : a.node fd=some (.file text)) (hpos : 2^31≤(a.fds fd.toNat).pos) (hdata : data.length=n) :
    Provides root a (.read fd count) ⟨n,data,none⟩
      (a.set fd.toNat { a.fds fd.toNat with pos := ((a.fds fd.toNat).pos+n)%2^32 })
  /-- The console is written. -/
  | printed (fd : ℤ) (buffer : Bytes) (count : ℤ) (h : fd=1 ∨ fd=2) :
    Provides root a (.write fd buffer count) (number count) a
  /-- Nothing is written through a number that is not in use. -/
  | writeClosed (fd : ℤ) (buffer : Bytes) (count : ℤ) (h : ¬(fd=1 ∨ fd=2)) (hclosed : ¬a.Open fd) :
    Provides root a (.write fd buffer count) (number (-1)) a
  /-- The file gets a new text, wherever the position is. -/
  | written (fd : ℤ) (buffer : Bytes) (count r : ℤ) (files : Files) (hopen : a.Open fd)
    (h : Serves root a.files a.cwd (.call (.writeFile (a.fds fd.toNat).name buffer
      (UInt32.ofNat (count%2^32).toNat))) (.status r) files a.cwd) :
    Provides root a (.write fd buffer count) (number (if 0≤r then count else -1))
      { a with files := files }
  /-- Nothing is sought through a number that is not in use. -/
  | seekClosed (fd off whence : ℤ) (hclosed : ¬a.Open fd) :
    Provides root a (.lseek fd off whence) (number (-1)) a
  /-- The position is moved and given back. -/
  | sought (fd off whence : ℤ) (pos : ℕ) (hopen : a.Open fd)
    (h : Sought (a.node fd) (a.fds fd.toNat).pos off whence pos) :
    Provides root a (.lseek fd off whence) (number pos)
      (a.set fd.toNat { a.fds fd.toNat with pos := pos })
  /-- There is no place for a status. -/
  | fstatNull (fd : ℤ) : Provides root a (.fstat fd 0) (number (-1)) a
  /-- The status of a device. -/
  | fstatDevice (fd : ℤ) (st : ℕ) (hst : st≠0) (h : 0≤fd ∧ fd≤2) :
    Provides root a (.fstat fd st) ⟨0,[],some 0⟩ a
  /-- There is no status of a number that is not in use. -/
  | fstatClosed (fd : ℤ) (st : ℕ) (h : ¬(0≤fd ∧ fd≤2)) (hclosed : ¬a.Open fd) :
    Provides root a (.fstat fd st) (number (-1)) a
  /-- The status of a name that a descriptor has. -/
  | fstat (fd : ℤ) (st : ℕ) (r : Returned) (hst : st≠0) (hopen : a.Open fd)
    (h : Provides root a (.stat (a.fds fd.toNat).name st) r a) : Provides root a (.fstat fd st) r a
  /-- There is no place for a status. -/
  | statNull (path : Text) : Provides root a (.stat path 0) (number (-1)) a
  /-- The status of a name. -/
  | stat (path : Text) (st : ℕ) (folder : Bool) (size : ℕ) (hst : st≠0)
    (h : Serves root a.files a.cwd (.stat path) (.entry (some (folder,size))) a.files a.cwd) :
    Provides root a (.stat path st) ⟨0,[],some size⟩ a
  /-- There is no such name. -/
  | statMissing (path : Text) (st : ℕ) (hst : st≠0)
    (h : Serves root a.files a.cwd (.stat path) (.entry none) a.files a.cwd) :
    Provides root a (.stat path st) (number (-1)) a
  /-- A name is deleted, or it is not there. -/
  | unlinked (path : Text) (r : ℤ) (files : Files)
    (h : Serves root a.files a.cwd (.call (.deleteFile path)) (.status r) files a.cwd) :
    Provides root a (.unlink path) (number (if r=0 then 0 else -1)) { a with files := files }
  /-- A directory is made, or not. -/
  | made (path : Text) (r : ℤ) (files : Files)
    (h : Serves root a.files a.cwd (.call (.mkdir path)) (.status r) files a.cwd) :
    Provides root a (.mkdir2 path) (number (if r=0 then 0 else -1)) { a with files := files }
  /-- A directory is removed, or not. -/
  | removed (path : Text) (r : ℤ) (files : Files)
    (h : Serves root a.files a.cwd (.call (.rmdir path)) (.status r) files a.cwd) :
    Provides root a (.rmdir2 path) (number (if r=0 then 0 else -1)) { a with files := files }
  /-- All numbers become free. -/
  | exited : Provides root a .exit (number 0)
      { a with fds := fun fd => if fd∈numbers then { a.fds fd with used := false } else a.fds fd }

/-- The call takes no directory for a file, and asks the driver for what is admissible. -/
def Proper (v : Volume) (k : Kernel) : Syscall → Prop
  | .read fd _ => isOpen k fd=true → Regular v k.disk.bytes k.cwd (k.fds fd.toNat).name
  | .write fd buffer count => isOpen k fd=true → Admissible v (driver k)
    (.call (.writeFile (k.fds fd.toNat).name buffer (UInt32.ofNat (count%2^32).toNat)))
  | .mkdir2 path => Admissible v (driver k) (.call (.mkdir path))
  | .rmdir2 path => Admissible v (driver k) (.call (.rmdir path))
  | .unlink path => Admissible v (driver k) (.call (.deleteFile path))
  | _ => True

/-- The kernel performs a proper call. -/
def Performs (v : Volume) (keyboard : ℤ → ℤ×List UInt8) (k : Kernel) (l : Syscall×Returned)
    (k' : Kernel) : Prop :=
  Proper v k l.1 ∧ l.1.perform v keyboard k=some (l.2,k')

/-- The files and descriptors after a call. -/
def Gives (root : ℕ) (a : Session) (l : Syscall×Returned) (a' : Session) : Prop :=
  Provides root a l.1 l.2 a'

/-- The files with the directory and the table of the kernel. -/
def view (k : Kernel) (files : Files) : Session := ⟨files,k.cwd,k.fds⟩

/-- The disk stands for the files, and the directory and the table are the same. -/
def Stored (v : Volume) (k : Kernel) (a : Session) : Prop :=
  Represented v (driver k) (a.files,k.cwd) ∧ a=view k a.files

variable {v : Volume} {keyboard : ℤ → ℤ×List UInt8} {k k' : Kernel} {files : Files} {fd : ℤ}
  {r : Returned}

/-- The files after a call, which its result and the state after it are those of. -/
def Answered (v : Volume) (k : Kernel) (files : Files) (call : Syscall) (r : Returned)
    (k' : Kernel) :
    Prop :=
  ∃ files', Provides v.rootCluster (view k files) call r (view k' files') ∧
    Represented v (driver k') (files',k'.cwd)

/-- A descriptor in use. -/
theorem open_iff : isOpen k fd=true ↔ (view k files).Open fd := isOpen_iff

/-- The driver's answer to an admissible request is the store's. -/
theorem driver_serves (hv : Mounted v) (h : Represented v (driver k) (files,k.cwd)) {s : State}
    {reply : Reply} (request : FatRequests.Request) (hok : Admissible v (driver k) request)
    (hperform : request.perform v (driver k)=some (reply,s)) :
    ∃ files', Serves v.rootCluster files k.cwd request reply files' s.cwd ∧
      Represented v s (files',s.cwd) := by
  obtain ⟨⟨t,hstands⟩,_⟩ := h
  obtain ⟨reply',s',t',files',hperform',hserves,hstands'⟩ := request_answered hv hstands hok
  rw [hperform,Option.some.injEq,Prod.mk.injEq] at hperform'
  obtain ⟨rfl,rfl⟩ := hperform'
  exact ⟨files',hserves,⟨t',hstands'⟩,rfl⟩

/-- The first free number is found. -/
theorem allocFd_first {fd : ℕ} (h : allocFd k=some fd) :
    ∀ n∈numbers, n<fd → (k.fds n).used=true := by
  obtain ⟨_,before,after,hsplit,hbefore⟩ := List.find?_eq_some_iff_append.mp h
  have hsorted : (before++fd::after).Pairwise (·<·) := hsplit▸List.pairwise_lt_range'
  intro n hn hlt
  rw [hsplit] at hn
  rcases List.mem_append.mp hn with hn | hn
  · have hused := hbefore n hn
    rwa [Bool.not_not] at hused
  · rcases List.mem_cons.mp hn with rfl | hn
    · exact (Nat.lt_irrefl _ hlt).elim
    · have := List.rel_of_pairwise_cons (List.pairwise_append.mp hsorted).2.1 hn
      omega

/-- Opening a name. -/
theorem open_answered (h : Represented v (driver k) (files,k.cwd)) (path : Text) :
    Answered v k files (.openFile path) (number (sysOpen path k).1) (sysOpen path k).2 := by
  have hdevice : ∀ n, device path.1=some n → sysOpen path k=(n,k) := by
    intro n hn
    unfold device at hn
    unfold sysOpen
    split_ifs at hn ⊢ <;> cases hn <;> rfl
  cases hdev : device path.1 with
  | some n =>
    rw [hdevice n hdev]
    exact ⟨files,.device path n hdev,h⟩
  | none =>
    cases halloc : allocFd k with
    | none =>
      have hopen : sysOpen path k=(-1,k) := by
        unfold device at hdev
        unfold sysOpen
        rw [halloc]
        split_ifs at hdev ⊢
        rfl
      rw [hopen]
      refine ⟨files,.openFull path hdev fun fd hfd => ?_,h⟩
      have hused := List.find?_eq_none.mp halloc fd hfd
      simpa [view] using hused
    | some fd =>
      have hopen : sysOpen path k=((fd : ℤ),k.set fd ⟨true,stored path,0⟩) := by
        unfold device at hdev
        unfold sysOpen
        rw [halloc]
        split_ifs at hdev ⊢
        rfl
      rw [hopen]
      obtain ⟨hfd,hfree⟩ := allocFd_spec halloc
      exact ⟨files,.opened path fd hdev hfd hfree (allocFd_first halloc),h⟩

/-- Closing a number. -/
theorem close_answered (h : Represented v (driver k) (files,k.cwd)) (fd : ℤ) :
    Answered v k files (.close fd) (number 0) (closeFd fd k) := by
  unfold closeFd
  split_ifs with hfd
  · obtain ⟨n,rfl⟩ : ∃ n : ℕ, fd=n := ⟨fd.toNat,by omega⟩
    refine ⟨files,.closed n ?_,h⟩
    rw [numbers,List.mem_range'_1]
    simp only [maxFds] at hfd
    omega
  · refine ⟨files,.closeOther fd fun n hn heq => hfd ?_,h⟩
    rw [numbers,List.mem_range'_1] at hn
    simp only [maxFds]
    omega

/-- The part of a file that a read copies. -/
theorem copied_data {text : List UInt8} {buffer : Bytes} {tmp : ℤ → UInt8} {pos m : ℕ}
    (hm : pos+m ≤ min tmpSize text.length) :
    ((List.range m).map fun i : ℕ => (pos : ℤ)+(i : ℤ)).map
      (fun i : ℤ => if 0 ≤ i then copyRange buffer 0 (min tmpSize text.length)
        (fun i => text.getD i 0) i.toNat else tmp i)=(text.drop pos).take m := by
  refine List.ext_getElem ?_ fun i hi hi' => ?_
  · simp only [List.length_map,List.length_range,List.length_take,List.length_drop]
    omega
  · simp only [List.length_map,List.length_range] at hi
    rw [List.getElem_map,List.getElem_map,List.getElem_range,if_pos (by omega),List.getElem_take,
      List.getElem_drop,show ((pos : ℤ)+(i : ℤ)).toNat=0+(pos+i) by omega,
      copyRange_inside (by omega),List.getD_eq_getElem]

/-- Reading a descriptor in use. -/
theorem read_answered (hv : Mounted v) (h : Represented v (driver k) (files,k.cwd)) {count : ℤ}
    {r : ReadResult} (hopen : isOpen k fd=true)
    (hok : Regular v k.disk.bytes k.cwd (k.fds fd.toNat).name)
    (hread : readDescriptor v k fd.toNat count=some r) :
    Answered v k files (.read fd count) ⟨r.ret,r.data,none⟩ r.state := by
  have hopen' : (view k files).Open fd := open_iff.mp hopen
  unfold readDescriptor at hread
  cases hfile : fat32ReadFile v k.cwd (k.fds fd.toNat).name (fun i => k.tmp i) tmpSize k.disk with
  | none =>
    rw [hfile] at hread
    cases hread
  | some x =>
    obtain ⟨n,buffer,d⟩ := x
    obtain ⟨files',hserves,hrep⟩ := @driver_serves v k files hv h ⟨d,k.cwd⟩ (.contents n buffer)
      (.read (k.fds fd.toNat).name (fun i => k.tmp i) 4096) hok (congrArg (Option.map _) hfile)
    rw [hfile] at hread
    dsimp only at hread
    cases hserves with
    | readMissing _ _ _ hnone =>
      rw [if_pos (by norm_num),Option.some.injEq] at hread
      subst hread
      exact ⟨files,.readMissing fd count hopen' hnone,hrep⟩
    | read _ _ _ text htext =>
      have hsize : (4096 : UInt32).toNat=tmpSize := rfl
      rw [if_neg (by omega),hsize] at hread
      by_cases hpos : (k.fds fd.toNat).pos<2^31
      · obtain ⟨hoff,hwrap⟩ := @copied_of_range (min tmpSize text.length : ℕ) _ (by omega)
          (by omega) hpos
        have hleft : ((min tmpSize text.length : ℕ) : ℤ)-(k.fds fd.toNat).pos=
            left text (k.fds fd.toNat).pos := by
          rw [left,Nat.cast_min]
        have hmin : (if count<left text (k.fds fd.toNat).pos then count
            else left text (k.fds fd.toNat).pos)=min count (left text (k.fds fd.toNat).pos) := by
          rw [min_def]
          split_ifs <;> omega
        rw [hwrap,hoff,hleft,hmin] at hread
        split_ifs at hread with hneg
        · rw [Option.some.injEq] at hread
          subst hread
          exact ⟨files,.readNone fd count text hopen' htext (Or.inr (min_lt_iff.mp hneg)),hrep⟩
        · rw [Option.some.injEq] at hread
          subst hread
          obtain ⟨m,hm⟩ := Int.eq_ofNat_of_zero_le (Int.not_lt.mp hneg)
          have hend : (m : ℤ)≤left text (k.fds fd.toNat).pos := hm▸min_le_right _ _
          rw [← hleft] at hend
          have hlow : ((k.fds fd.toNat).pos+m)%2^32=(k.fds fd.toNat).pos+m := by
            simp only [tmpSize] at hend
            omega
          refine ⟨files,?_,hrep⟩
          dsimp only
          rw [hm,Int.toNat_natCast,hlow,copied_data (by omega)]
          exact .readPart fd count text m hopen' htext hpos hm.symm
      · generalize (if count<wrapInt (((min tmpSize text.length : ℕ) : ℤ)-
          toInt (k.fds fd.toNat).pos) then count else wrapInt (((min tmpSize text.length : ℕ) : ℤ)-
          toInt (k.fds fd.toNat).pos))=n at hread
        split_ifs at hread with hneg
        · rw [Option.some.injEq] at hread
          subst hread
          exact ⟨files,.readNone fd count text hopen' htext (Or.inl (Nat.not_lt.mp hpos)),hrep⟩
        · rw [Option.some.injEq] at hread
          subst hread
          obtain ⟨m,hm⟩ := Int.eq_ofNat_of_zero_le (Int.not_lt.mp hneg)
          refine ⟨files,?_,hrep⟩
          dsimp only
          rw [hm,Int.toNat_natCast]
          refine .readBefore fd count text m _ hopen' htext (Nat.not_lt.mp hpos) ?_
          rw [List.length_map,List.length_map,List.length_range]

/-- A length as the file system gets it. -/
theorem count_toNat (count : ℤ) :
    (UInt32.ofNat (count%2^32).toNat).toNat=(count%2^32).toNat :=
  UInt32.toNat_ofNat_of_lt' (by simp only [UInt32.size]; omega)

/-- Writing a descriptor in use. -/
theorem write_answered (hv : Mounted v) (h : Represented v (driver k) (files,k.cwd))
    {buffer : Bytes}
    {count ret : ℤ} (hok : Proper v k (.write fd buffer count))
    (hwrite : sysWrite v k fd buffer count=some (ret,k')) :
    Answered v k files (.write fd buffer count) (number ret) k' := by
  unfold sysWrite at hwrite
  split at hwrite
  case isTrue hopen =>
    cases hfile : fat32WriteFile v k.cwd (k.fds fd.toNat).name buffer (count%2^32).toNat k.disk with
    | none =>
      rw [hfile] at hwrite
      cases hwrite
    | some x =>
      obtain ⟨r,d⟩ := x
      have hperform : (FatRequests.Request.call (.writeFile (k.fds fd.toNat).name buffer
          (UInt32.ofNat (count%2^32).toNat))).perform v (driver k)=some (.status r,⟨d,k.cwd⟩) := by
        unfold FatRequests.Request.perform Call.perform
        dsimp only [driver]
        rw [count_toNat,hfile]
        rfl
      obtain ⟨files',hserves,hrep⟩ := driver_serves hv h _ (hok hopen) hperform
      rw [hfile] at hwrite
      obtain ⟨rfl,rfl⟩ := Prod.mk.inj (Option.some.inj hwrite)
      exact ⟨files',.written fd buffer count r files' (open_iff.mp hopen) hserves,hrep⟩
  case isFalse hclosed =>
    split at hwrite
    case isTrue hstd =>
      obtain ⟨rfl,rfl⟩ := Prod.mk.inj (Option.some.inj hwrite)
      exact ⟨files,.printed fd buffer _ hstd,h⟩
    case isFalse hstd =>
      obtain ⟨rfl,rfl⟩ := Prod.mk.inj (Option.some.inj hwrite)
      exact ⟨files,.writeClosed fd buffer count hstd fun hopen => hclosed (open_iff.mpr hopen),h⟩

/-- Looking a name up. -/
theorem lookup_served (hv : Mounted v) (h : Represented v (driver k) (files,k.cwd)) {path : Text}
    {found : Option DirEntry} {d : Disk}
    (hstat : Descriptors.fat32Stat v k.cwd path k.disk=some (found,d)) :
    Serves v.rootCluster files k.cwd (.stat path)
      (.entry (found.map fun e => (isDirectory e,e.size))) files k.cwd ∧
      Represented v ⟨d,k.cwd⟩ (files,k.cwd) := by
  obtain ⟨files',hserves,hrep⟩ := @driver_serves v k files hv h ⟨d,k.cwd⟩
    (.entry (found.map fun e => (isDirectory e,e.size))) (.stat path) trivial
    (congrArg (Option.map _) hstat)
  obtain ⟨rfl,_⟩ := stat_same hserves
  exact ⟨hserves,hrep⟩

/-- Seeking. -/
theorem lseek_answered (hv : Mounted v) (h : Represented v (driver k) (files,k.cwd))
    {off whence ret : ℤ} (hseek : sysLseek v k fd off whence=some (ret,k')) :
    Answered v k files (.lseek fd off whence) (number ret) k' := by
  unfold sysLseek at hseek
  split at hseek
  case isFalse hclosed =>
    obtain ⟨rfl,rfl⟩ := Prod.mk.inj (Option.some.inj hseek)
    exact ⟨files,.seekClosed fd off whence fun hopen => hclosed (open_iff.mpr hopen),h⟩
  case isTrue hopen =>
    have hopen' : (view k files).Open fd := open_iff.mp hopen
    have hstay : ∀ d, view { k with disk := d } files=(view k files).set fd.toNat
        { k.fds fd.toNat with pos := (k.fds fd.toNat).pos } := fun d => by
      unfold Session.set view
      exact congrArg (Session.mk files k.cwd) (Function.update_eq_self _ _).symm
    dsimp only at hseek
    split_ifs at hseek with h0 h1 h2
    · obtain ⟨rfl,rfl⟩ := Prod.mk.inj (Option.some.inj hseek)
      subst h0
      exact ⟨files,.sought fd off 0 _ hopen' .start,h⟩
    · obtain ⟨rfl,rfl⟩ := Prod.mk.inj (Option.some.inj hseek)
      subst h1
      exact ⟨files,.sought fd off 1 _ hopen' .current,h⟩
    · subst h2
      cases hstat : Descriptors.fat32Stat v k.cwd (k.fds fd.toNat).name k.disk with
      | none =>
        rw [hstat] at hseek
        cases hseek
      | some x =>
        obtain ⟨found,d⟩ := x
        obtain ⟨hserves,hrep⟩ := lookup_served hv h hstat
        rw [hstat] at hseek
        cases found with
        | none =>
          obtain ⟨rfl,rfl⟩ := Prod.mk.inj (Option.some.inj hseek)
          refine ⟨files,?_,hrep⟩
          rw [hstay d]
          cases hserves with
          | statMissing _ hnone => exact .sought fd off 2 _ hopen' (.missing hnone)
        | some e =>
          obtain ⟨rfl,rfl⟩ := Prod.mk.inj (Option.some.inj hseek)
          refine ⟨files,?_,hrep⟩
          generalize hentry : Option.map (fun e => (isDirectory e,e.size)) (some e)=entry at hserves
          cases hserves with
          | statFile _ text htext =>
            obtain ⟨_,hsize⟩ := Prod.mk.inj (Option.some.inj hentry)
            rw [hsize]
            exact .sought fd off 2 _ hopen' (.fromEnd text htext)
          | statFolder _ q size hq =>
            obtain ⟨_,hsize⟩ := Prod.mk.inj (Option.some.inj hentry)
            rw [hsize]
            exact .sought fd off 2 _ hopen' (.folder q size hq)
          | statMissing _ _ => cases hentry
    · obtain ⟨rfl,rfl⟩ := Prod.mk.inj (Option.some.inj hseek)
      refine ⟨files,?_,h⟩
      have hsought := @Provides.sought v.rootCluster (view k files) fd off whence _ hopen'
        (.other whence ⟨h0,h1,h2⟩)
      rwa [show (view k files).fds=k.fds from rfl,← hstay k.disk] at hsought

/-- The status of a name. -/
theorem stat_answered (hv : Mounted v) (h : Represented v (driver k) (files,k.cwd)) {path : Text}
    {st : ℕ} (hstat : sysStat v k path st=some (r,k')) :
    Answered v k files (.stat path st) r k' := by
  unfold sysStat at hstat
  split at hstat
  case isTrue hst =>
    obtain ⟨rfl,rfl⟩ := Prod.mk.inj (Option.some.inj hstat)
    subst hst
    exact ⟨files,.statNull path,h⟩
  case isFalse hst =>
    obtain ⟨⟨found,d⟩,hfound,hr⟩ := Option.map_eq_some_iff.mp hstat
    obtain ⟨hserves,hrep⟩ := lookup_served hv h hfound
    cases found with
    | none =>
      obtain ⟨rfl,rfl⟩ := Prod.mk.inj hr
      exact ⟨files,.statMissing path st hst hserves,hrep⟩
    | some e =>
      obtain ⟨rfl,rfl⟩ := Prod.mk.inj hr
      exact ⟨files,.stat path st (isDirectory e) e.size hst hserves,hrep⟩

/-- Looking a name up keeps the directory, the table and the files. -/
theorem stat_view {path : Text} {st : ℕ} (hstat : sysStat v k path st=some (r,k')) :
    view k' files=view k files := by
  unfold sysStat at hstat
  split at hstat
  case isTrue =>
    obtain ⟨_,rfl⟩ := Prod.mk.inj (Option.some.inj hstat)
    rfl
  case isFalse =>
    obtain ⟨⟨found,d⟩,_,hr⟩ := Option.map_eq_some_iff.mp hstat
    cases found with
    | none =>
      obtain ⟨_,rfl⟩ := Prod.mk.inj hr
      rfl
    | some e =>
      obtain ⟨_,rfl⟩ := Prod.mk.inj hr
      rfl

/-- The status of a descriptor. -/
theorem fstat_answered (hv : Mounted v) (h : Represented v (driver k) (files,k.cwd)) {st : ℕ}
    (hstat : sysFstat v k fd st=some (r,k')) : Answered v k files (.fstat fd st) r k' := by
  unfold sysFstat at hstat
  split_ifs at hstat with hst hopen hstd
  · obtain ⟨rfl,rfl⟩ := Prod.mk.inj (Option.some.inj hstat)
    subst hst
    exact ⟨files,.fstatNull fd,h⟩
  · obtain ⟨files',hprovides,hrep⟩ := stat_answered hv h hstat
    have hsame : files'=files := by
      generalize hcall : Syscall.stat (k.fds fd.toNat).name st=call at hprovides
      generalize hafter : view k' files'=after at hprovides
      cases hprovides <;> cases hcall <;> exact congrArg Session.files hafter
    subst hsame
    rw [stat_view hstat] at hprovides
    refine ⟨files',?_,hrep⟩
    rw [stat_view hstat]
    exact .fstat fd st r hst (open_iff.mp hopen) hprovides
  · obtain ⟨rfl,rfl⟩ := Prod.mk.inj (Option.some.inj hstat)
    exact ⟨files,.fstatDevice fd st hst hstd,h⟩
  · obtain ⟨rfl,rfl⟩ := Prod.mk.inj (Option.some.inj hstat)
    exact ⟨files,.fstatClosed fd st hstd fun hopen' => hopen (open_iff.mpr hopen'),h⟩

/-- A call of the driver that keeps the directory. -/
theorem driver_answered (hv : Mounted v) (h : Represented v (driver k) (files,k.cwd)) {c : Call}
    (hcwd : ∀ r s, c.perform v (driver k)=some (r,s) → s.cwd=k.cwd)
    (hok : Admissible v (driver k) (.call c)) (hcall : driverCall v k c=some (r,k')) :
    ∃ files' n, Serves v.rootCluster files k.cwd (.call c) (.status n) files' k.cwd ∧
      r=number (if n=0 then 0 else -1) ∧ view k' files'={ view k files with files := files' } ∧
      Represented v (driver k') (files',k'.cwd) := by
  obtain ⟨⟨n,s⟩,hperform,hr⟩ := Option.map_eq_some_iff.mp hcall
  obtain ⟨rfl,rfl⟩ := Prod.mk.inj hr
  obtain ⟨files',hserves,hrep⟩ := driver_serves hv h (.call c) hok
    (show (FatRequests.Request.call c).perform v (driver k)=some (.status n,s) from
      (congrArg (Option.map _) hperform))
  obtain ⟨disk,cwd⟩ := s
  obtain rfl := hcwd n _ hperform
  exact ⟨files',n,hserves,rfl,rfl,hrep⟩

/-- Every proper call is answered as the files with descriptors provide. -/
theorem calls_simulate (hv : Mounted v) :
    Simulates (Performs v keyboard) (Gives v.rootCluster) (Stored v) := by
  rintro k ⟨call,r⟩ k' a ⟨h,ha⟩ ⟨hok,hperform⟩
  have hanswered : Answered v k a.files call r k' := by
    cases call with
    | openFile path =>
      obtain ⟨rfl,rfl⟩ := Prod.mk.inj (Option.some.inj hperform)
      exact open_answered h path
    | close fd =>
      obtain ⟨rfl,rfl⟩ := Prod.mk.inj (Option.some.inj hperform)
      exact close_answered h fd
    | read fd count =>
      obtain ⟨x,hread,hr⟩ := Option.map_eq_some_iff.mp hperform
      obtain ⟨rfl,rfl⟩ := Prod.mk.inj hr
      unfold sysRead at hread
      split_ifs at hread with hkeys hopen
      · obtain rfl := Option.some.inj hread
        obtain ⟨rfl,hcount⟩ := hkeys
        exact ⟨a.files,.typed count _ _ hcount,h⟩
      · exact read_answered hv h hopen (hok hopen) hread
      · obtain rfl := Option.some.inj hread
        exact ⟨a.files,.readClosed fd count hkeys fun hopen' => hopen (open_iff.mpr hopen'),h⟩
    | write fd buffer count =>
      obtain ⟨⟨ret,k₁⟩,hwrite,hr⟩ := Option.map_eq_some_iff.mp hperform
      obtain ⟨rfl,rfl⟩ := Prod.mk.inj hr
      exact write_answered hv h hok hwrite
    | lseek fd off whence =>
      obtain ⟨⟨ret,k₁⟩,hseek,hr⟩ := Option.map_eq_some_iff.mp hperform
      obtain ⟨rfl,rfl⟩ := Prod.mk.inj hr
      exact lseek_answered hv h hseek
    | fstat fd st => exact fstat_answered hv h hperform
    | stat path st => exact stat_answered hv h hperform
    | unlink path =>
      obtain ⟨files',n,hserves,rfl,hview,hrep⟩ := driver_answered hv h (fun n s hn => by
        obtain ⟨x,_,hx⟩ := Option.map_eq_some_iff.mp hn
        exact (congrArg (fun y => y.2.cwd) hx).symm) hok hperform
      exact ⟨files',hview ▸ .unlinked path n files' hserves,hrep⟩
    | mkdir2 path =>
      obtain ⟨files',n,hserves,rfl,hview,hrep⟩ := driver_answered hv h (fun n s hn => by
        obtain ⟨x,_,hx⟩ := Option.map_eq_some_iff.mp hn
        exact (congrArg (fun y => y.2.cwd) hx).symm) hok hperform
      exact ⟨files',hview ▸ .made path n files' hserves,hrep⟩
    | rmdir2 path =>
      obtain ⟨files',n,hserves,rfl,hview,hrep⟩ := driver_answered hv h (fun n s hn => by
        obtain ⟨x,_,hx⟩ := Option.map_eq_some_iff.mp hn
        exact (congrArg (fun y => y.2.cwd) hx).symm) hok hperform
      exact ⟨files',hview ▸ .removed path n files' hserves,hrep⟩
    | exit =>
      obtain ⟨rfl,rfl⟩ := Prod.mk.inj (Option.some.inj hperform)
      exact ⟨a.files,.exited,h⟩
  obtain ⟨files',hprovides,hrep⟩ := hanswered
  rw [← ha] at hprovides
  exact ⟨view k' files',hprovides,hrep,rfl⟩

variable {a a' : Session} {text : List UInt8} {pos : ℕ} {labels : List (Syscall×Returned)}

/-- A descriptor stands for a file, at a position. -/
structure Reading (a : Session) (fd : ℤ) (name : Text) (text : List UInt8) (pos : ℕ) : Prop where
  /-- The number is one of the table. -/
  number : fd.toNat∈numbers
  /-- The entry. -/
  entry : a.fds fd.toNat=⟨true,name,pos⟩
  /-- The file. -/
  file : a.files a.cwd (nameTo83 name)=some (.file text)
  /-- The position is not before the start. -/
  forward : pos<2^31

variable {name : Text}

/-- The descriptor is in use. -/
theorem Reading.isOpen (h : Reading a fd name text pos) : a.Open fd :=
  ⟨h.number,by rw [h.entry]⟩

/-- It stands for the file. -/
theorem Reading.node (h : Reading a fd name text pos) : a.node fd=some (.file text) := by
  rw [Session.node,h.entry]
  exact h.file

/-- A call neither moves nor closes the descriptor, and neither writes nor deletes the file. -/
def Quiet (fds : ℕ → Descriptor) (fd : ℤ) (name : Text) : Syscall → Prop
  | .close n => n≠fd
  | .lseek n _ _ => n≠fd
  | .write n _ _ => nameTo83 (fds n.toNat).name≠nameTo83 name
  | .unlink path => nameTo83 path≠nameTo83 name
  | .exit => False
  | _ => True

/-- Another entry leaves the descriptor. -/
theorem Reading.other {n : ℕ} {e : Descriptor} (h : Reading a fd name text pos) (hn : n≠fd.toNat) :
    Reading (a.set n e) fd name text pos :=
  ⟨h.number,(Function.update_of_ne (Ne.symm hn) _ _).trans h.entry,h.file,h.forward⟩

variable {s : State}

end OvsbMk.FileCalls
