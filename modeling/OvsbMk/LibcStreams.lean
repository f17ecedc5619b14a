import OvsbMk.DescriptorReads
import OvsbMk.Numerals

/-!
# Streams of the library

The streams of `stdio.c` over the descriptors of the kernel. `fopen` keeps its result in one
static `FILE`, so the streams that it has opened are one: what is done to any of them is done
to the descriptor that was obtained last. Two open streams are independent exactly when both
are the console for output, where nothing depends on anything.
-/

namespace OvsbMk.LibcStreams

open ByteMemory Fat32 FatFiles Numerals Descriptors DescriptorReads FatSteps

/-- The objects that a `FILE` pointer can point to. -/
inductive FilePtr where
  /-- The static object of `fopen`. -/
  | x
  /-- `__stdin_file`. -/
  | stdin
  /-- `__stdout_file`. -/
  | stdout
  /-- `__stderr_file`. -/
  | stderr
  deriving DecidableEq

/-- What the library works on. -/
structure Machine where
  /-- The kernel. -/
  kernel : Kernel
  /-- The characters that the keyboard delivers from now on. -/
  keys : ℕ → UInt8
  /-- The field `fd` of the objects. -/
  fd : FilePtr → ℤ

/-- The loop of `SYS_read` at the keyboard: the result, the bytes that are stored, and the
characters that are left. -/
def readKeys : ℕ → (ℕ → UInt8) → ℕ×List UInt8×(ℕ → UInt8)
  | 0, keys => (0,[],keys)
  | n+1, keys =>
    let rest : ℕ → UInt8 := fun i => keys (i+1)
    if keys 0=ascii '\n' then (1,[keys 0],rest)
    else if keys 0=3 then (0,[keys 0],rest)
    else
      let r := readKeys n rest
      (r.1+1,keys 0::r.2.1,r.2.2)

/-- `read`: the result and the bytes that are stored. -/
def read (v : Volume) (fd count : ℤ) (m : Machine) : Option (ℤ×List UInt8×Machine) :=
  let k := readKeys count.toNat m.keys
  (sysRead v (fun _ => (k.1,k.2.1)) m.kernel fd count).map fun r =>
    (r.ret,r.data,{ m with
      kernel := r.state
      keys := if fd=0 ∧ 0<count then k.2.2 else m.keys })

/-- `write`. -/
def write (v : Volume) (fd : ℤ) (bytes : List UInt8) (count : ℤ) (m : Machine) :
    Option (ℤ×Machine) :=
  (sysWrite v m.kernel fd (fun i => bytes.getD i 0) count).map fun r =>
    (r.1,{ m with kernel := r.2 })

/-- `close`. -/
def close (fd : ℤ) (m : Machine) : ℤ×Machine :=
  ((sysClose fd m.kernel).1,{ m with kernel := (sysClose fd m.kernel).2 })

/-- `fopen`. The mode is not used. -/
def fopen (path : Text) (m : Machine) : Option FilePtr×Machine :=
  let r := sysOpen path m.kernel
  if r.1<0 then (none,{ m with kernel := r.2 })
  else (some .x,{ m with kernel := r.2, fd := Function.update m.fd .x r.1 })

/-- What an operation on a stream returns and delivers. -/
structure Result where
  /-- The result; for `fgets`, one unless it is null. -/
  ret : ℤ
  /-- The bytes that are stored. -/
  data : List UInt8
  deriving DecidableEq

/-- `fread`. -/
def fread (v : Volume) (s c : ℤ) (p : FilePtr) (m : Machine) : Option (Result×Machine) :=
  (read v (m.fd p) (wrapInt (s*c)) m).map fun r =>
    (⟨if r.1≤0 then 0 else r.1.tdiv s,r.2.1⟩,r.2.2)

/-- `fwrite`. -/
def fwrite (v : Volume) (bytes : List UInt8) (s c : ℤ) (p : FilePtr) (m : Machine) :
    Option (Result×Machine) :=
  (write v (m.fd p) bytes (wrapInt (s*c)) m).map fun r =>
    (⟨if r.1≤0 then 0 else r.1.tdiv s,[]⟩,r.2)

/-- The loop of `fgets` with room for a number of characters. -/
def fgetsLoop (v : Volume) (p : FilePtr) : ℕ → Machine → Option (List UInt8×Machine)
  | 0, m => some ([],m)
  | room+1, m =>
    match read v (m.fd p) 1 m with
    | none => none
    | some (r,data,m) =>
      if r≤0 then some ([],m)
      else if data.headD 0=ascii '\n' then some ([data.headD 0],m)
      else (fgetsLoop v p room m).map fun q => (data.headD 0::q.1,q.2)

/-- `fgets`. -/
def fgets (v : Volume) (n : ℤ) (p : FilePtr) (m : Machine) : Option (Result×Machine) :=
  (fgetsLoop v p (n-1).toNat m).map fun q => (⟨if q.1=[] then 0 else 1,q.1++[0]⟩,q.2)

/-- `fputs`. -/
def fputs (v : Volume) (s : Text) (p : FilePtr) (m : Machine) : Option (Result×Machine) :=
  (write v (m.fd p) s.1 s.1.length m).map fun r => (⟨if 0<r.1 then 0 else -1,[]⟩,r.2)

/-- `fputc`. -/
def fputc (v : Volume) (c : ℤ) (p : FilePtr) (m : Machine) : Option (Result×Machine) :=
  (write v (m.fd p) [UInt8.ofNat (c%256).toNat] 1 m).map fun r =>
    (⟨if r.1=1 then c else -1,[]⟩,r.2)

/-- `fclose`. -/
def fclose (p : FilePtr) (m : Machine) : Option (Result×Machine) :=
  some (⟨(close (m.fd p) m).1,[]⟩,(close (m.fd p) m).2)

/-- The operations on a stream. -/
inductive StreamOp where
  /-- `fread`. -/
  | fread (s c : ℤ)
  /-- `fwrite`. -/
  | fwrite (bytes : List UInt8) (s c : ℤ)
  /-- `fgets`. -/
  | fgets (n : ℤ)
  /-- `fputs`. -/
  | fputs (s : Text)
  /-- `fputc`. -/
  | fputc (c : ℤ)
  /-- `fclose`. -/
  | fclose

/-- An operation through a pointer. It has no result when the file system does not end. -/
def perform (v : Volume) (p : FilePtr) (m : Machine) : StreamOp → Option (Result×Machine)
  | .fread s c => fread v s c p m
  | .fwrite bytes s c => fwrite v bytes s c p m
  | .fgets n => fgets v n p m
  | .fputs s => fputs v s p m
  | .fputc c => fputc v c p m
  | .fclose => fclose p m

/-- What an operation has done. -/
structure Acted where
  /-- It was on the second stream. -/
  second : Bool
  /-- The descriptor that it acted on. -/
  fd : ℤ
  /-- The result. -/
  result : Result

/-- Operations on two streams, in the order given, until one does not end. -/
def run (v : Volume) (p1 p2 : FilePtr) : List (Bool×StreamOp) → Machine → List Acted
  | [], _ => []
  | o::ops, m =>
    match perform v (if o.1 then p2 else p1) m o.2 with
    | none => []
    | some (r,m') => ⟨o.1,m.fd (if o.1 then p2 else p1),r⟩::run v p1 p2 ops m'

/-- What is seen through one of the streams. -/
def through (second : Bool) (acted : List Acted) : List Result :=
  (acted.filter fun a => a.second==second).map Acted.result

/-- The operations on one of the streams. -/
def onStream (second : Bool) (ops : List (Bool×StreamOp)) : List (Bool×StreamOp) :=
  ops.filter fun o => o.1==second

/-- Whatever the keyboard delivers and however the operations on the two streams are
interleaved, each acts on the descriptor that its stream obtained, and what is seen through a
stream is what is seen without the other stream's operations. -/
def Independent (v : Volume) (p1 p2 : FilePtr) (f1 f2 : ℤ) (m : Machine) : Prop :=
  ∀ (keys : ℕ → UInt8) (ops : List (Bool×StreamOp)),
    (∀ a∈run v p1 p2 ops { m with keys := keys }, a.fd=if a.second then f2 else f1) ∧
      ∀ second, through second (run v p1 p2 ops { m with keys := keys })=
        through second (run v p1 p2 (onStream second ops) { m with keys := keys })

/-- The descriptor has not been closed. -/
def NotClosed (f : ℤ) (m : Machine) : Prop := f<3 ∨ isOpen m.kernel f=true

variable {v : Volume} {m m' : Machine} {path : Text} {p : FilePtr} {f : ℤ}

/-- The results of `SYS_open`. -/
theorem sysOpen_result (path : Text) (s : Kernel) :
    (sysOpen path s).1∈([-1,0,1,2] : List ℤ) ∨
      ∃ fd, allocFd s=some fd ∧ (sysOpen path s).1=fd := by
  rw [sysOpen]
  by_cases h0 : path.1=devTty ∨ path.1=devStdin
  · rw [if_pos h0]
    simp
  · rw [if_neg h0]
    by_cases h1 : path.1=devStdout
    · rw [if_pos h1]
      simp
    · rw [if_neg h1]
      by_cases h2 : path.1=devStderr
      · rw [if_pos h2]
        simp
      · rw [if_neg h2]
        cases hfd : allocFd s with
        | none => simp
        | some fd => exact .inr ⟨fd,rfl,rfl⟩

/-- A stream that was opened is the static object; its descriptor is a device, or one that
was not in use. -/
theorem fopen_some (h : fopen path m=(some p,m')) : p=.x ∧
    (m'.fd .x=0 ∨ m'.fd .x=1 ∨ m'.fd .x=2 ∨ ¬NotClosed (m'.fd .x) m) := by
  rw [fopen] at h
  by_cases hneg : (sysOpen path m.kernel).1<0
  · simp [hneg] at h
  · simp only [if_neg hneg,Prod.mk.injEq,Option.some.injEq] at h
    have hx : m'.fd .x=(sysOpen path m.kernel).1 := by
      rw [←h.2]
      exact Function.update_self FilePtr.x _ m.fd
    refine ⟨h.1.symm,?_⟩
    rw [hx]
    cases sysOpen_result path m.kernel with
    | inl hdevice =>
      simp only [List.mem_cons,List.not_mem_nil,or_false] at hdevice
      omega
    | inr hfree =>
      obtain ⟨fd,hfd,hret⟩ := hfree
      have hspec := allocFd_spec hfd
      have hrange : 3≤fd := by
        have hmem := hspec.1
        rw [numbers,List.mem_range'_1] at hmem
        exact hmem.1
      refine .inr (.inr (.inr fun hopen => ?_))
      rw [hret] at hopen
      cases hopen with
      | inl hlow => omega
      | inr hused =>
        rw [isOpen_iff,Int.toNat_natCast,hspec.2] at hused
        cases hused.2

/-- Reading from the console for output fails and changes nothing. -/
theorem read_console (hf : f=1 ∨ f=2) (count : ℤ) (m : Machine) :
    read v f count m=some (-1,[],m) := by
  have hzero : ¬(f=0 ∧ 0<count) := by omega
  have hclosed : isOpen m.kernel f=false := by
    rw [isOpen,decide_eq_false (by omega)]
    rfl
  simp only [read,sysRead,if_neg hzero,hclosed,Bool.false_eq_true,if_false,Option.map_some]

/-- Writing to it delivers everything and changes nothing here. -/
theorem write_console (hf : f=1 ∨ f=2) (bytes : List UInt8) (count : ℤ) (m : Machine) :
    write v f bytes count m=some (count,m) := by
  have hclosed : isOpen m.kernel f=false := by
    rw [isOpen,decide_eq_false (by omega)]
    rfl
  simp only [write,sysWrite,hclosed,Bool.false_eq_true,if_false,if_pos hf,Option.map_some]

/-- Closing it changes nothing. -/
theorem close_console (hf : f=1 ∨ f=2) (m : Machine) : close f m=(0,m) := by
  have hlow : ¬(3≤f ∧ f < maxFds) := by omega
  simp only [close,sysClose,closeFd,if_neg hlow]

/-- Every operation on it has a result and changes nothing. -/
theorem perform_console (hf : m.fd p=1 ∨ m.fd p=2) (op : StreamOp) :
    ∃ r, perform v p m op=some (r,m) := by
  cases op with
  | fread s c =>
    rw [perform,fread,read_console hf]
    exact ⟨_,rfl⟩
  | fwrite bytes s c =>
    rw [perform,fwrite,write_console hf]
    exact ⟨_,rfl⟩
  | fgets n =>
    have hloop : ∀ room, fgetsLoop v p room m=some ([],m) := by
      intro room
      cases room with
      | zero => rfl
      | succ room =>
        rw [fgetsLoop,read_console hf]
        rfl
    rw [perform,fgets,hloop]
    exact ⟨_,rfl⟩
  | fputs s =>
    rw [perform,fputs,write_console hf]
    exact ⟨_,rfl⟩
  | fputc c =>
    rw [perform,fputc,write_console hf]
    exact ⟨_,rfl⟩
  | fclose =>
    rw [perform,fclose,close_console hf]
    exact ⟨_,rfl⟩

/-- A run on two such streams gives one result for each operation. -/
theorem run_console (hf : m.fd p=1 ∨ m.fd p=2) : ∃ answer : StreamOp → Result,
    ∀ ops, run v p p ops m=ops.map fun o => ⟨o.1,m.fd p,answer o.2⟩ := by
  refine ⟨fun op => (perform_console (v:=v) hf op).choose,fun ops => ?_⟩
  induction ops with
  | nil => rfl
  | cons o ops ih =>
    rw [run,ite_self,(perform_console (v:=v) hf o.2).choose_spec]
    exact congrArg (_::·) ih

/-- Two streams that are the console for output are independent. -/
theorem independent_console (hf : m.fd p=1 ∨ m.fd p=2) :
    Independent v p p (m.fd p) (m.fd p) m := by
  intro keys ops
  obtain ⟨answer,hrun⟩ := run_console (v:=v) (m:={ m with keys := keys }) (p:=p) hf
  constructor
  · intro a ha
    rw [hrun,List.mem_map] at ha
    obtain ⟨o,_,rfl⟩ := ha
    exact (ite_self _).symm
  · intro second
    rw [hrun,hrun,through,through,onStream,List.filter_map,List.filter_map,List.filter_filter]
    simp [Function.comp_def]

/-- On one object, independence means one descriptor. -/
theorem Independent.same {f1 f2 : ℤ} (h : Independent v p p f1 f2 m) : f1=f2 := by
  have hfirst := (h m.keys [(false,.fclose)]).1 _ List.mem_cons_self
  have hsecond := (h m.keys [(true,.fclose)]).1 _ List.mem_cons_self
  exact hfirst.symm.trans hsecond

/-- A character is read from the keyboard. -/
theorem fread_key (hf : m.fd p=0) (hline : m.keys 0≠ascii '\n') (hbreak : m.keys 0≠3) :
    perform v p m (.fread 1 1)=
      some (⟨1,[m.keys 0]⟩,{ m with keys := fun i => m.keys (i+1) }) := by
  have hkeys : readKeys 1 m.keys=(1,[m.keys 0],fun i => m.keys (i+1)) := by
    simp only [readKeys,if_neg hline,if_neg hbreak]
  have hone : wrapInt (1*1)=1 := by decide
  simp only [perform,fread,hone,hf,read,sysRead,Int.toNat_one,hkeys]
  rfl

/-- The letters of the alphabet are typed. -/
def typed (i : ℕ) : UInt8 := UInt8.ofNat (65+i)

/-- Two streams that are the keyboard are not independent: what is read through one of them
is not read through the other. -/
theorem not_independent_keyboard (hf : m.fd p=0) : ¬Independent v p p 0 0 m := by
  have hnext : ∀ keys : ℕ → UInt8, keys 0≠ascii '\n' → keys 0≠3 →
      perform v p { m with keys := keys } (.fread 1 1)=
        some (⟨1,[keys 0]⟩,{ m with keys := fun i => keys (i+1) }) := fun keys h1 h2 =>
    fread_key (m:={ m with keys := keys }) hf h1 h2
  have hfirst := hnext typed (by decide) (by decide)
  have hsecond := hnext (fun i => typed (i+1)) (by decide) (by decide)
  have hboth : run v p p [(true,.fread 1 1),(false,.fread 1 1)] { m with keys := typed }=
      [⟨true,m.fd p,⟨1,[typed 0]⟩⟩,⟨false,m.fd p,⟨1,[typed 1]⟩⟩] := by
    simp only [run,ite_self,hfirst,hsecond]
  have halone : run v p p [(false,.fread 1 1)] { m with keys := typed }=
      [⟨false,m.fd p,⟨1,[typed 0]⟩⟩] := by
    simp only [run,ite_self,hfirst]
  intro h
  have hresults := (h typed [(true,.fread 1 1),(false,.fread 1 1)]).2 false
  change through false (run v p p [_,_] _)=through false (run v p p [(false,_)] _) at hresults
  rw [hboth,halone] at hresults
  have hletter : typed 1=typed 0 := by simpa [through] using hresults
  exact absurd hletter (by decide)

/-- Two open streams are independent exactly when both are the console for output. -/
theorem streams_independent_iff {path1 path2 : Text} {m0 m1 m m2 : Machine} {p1 p2 : FilePtr}
    (h1 : fopen path1 m0=(some p1,m1)) (hopen : NotClosed (m1.fd p1) m)
    (h2 : fopen path2 m=(some p2,m2)) :
    Independent v p1 p2 (m1.fd p1) (m2.fd p2) m2 ↔
      m1.fd p1=m2.fd p2 ∧ (m2.fd p2=1 ∨ m2.fd p2=2) := by
  obtain ⟨hp1,-⟩ := fopen_some h1
  obtain ⟨hp2,hcases⟩ := fopen_some h2
  subst hp1
  subst hp2
  constructor
  · intro h
    have hsame := h.same
    refine ⟨hsame,?_⟩
    rw [hsame] at h hopen
    cases hcases with
    | inl hzero =>
      rw [hzero] at h
      exact (not_independent_keyboard hzero h).elim
    | inr hrest =>
      cases hrest with
      | inl hone => exact .inl hone
      | inr hrest => exact .inr (hrest.resolve_right (not_not.mpr hopen))
  · intro h
    rw [h.1]
    exact independent_console h.2

/-- A machine without open descriptors. -/
def sampleMachine : Machine where
  kernel := sampleKernel
  keys := typed
  fd
    | .x => 0
    | .stdin => 0
    | .stdout => 1
    | .stderr => 2

/-- The path `B`. -/
def pathB : Text := ⟨[0x42],by decide⟩

/-- The path `/dev/stdout`. -/
def pathStdout : Text := ⟨devStdout,by decide⟩

/-- The console for output, opened twice. -/
theorem stdout_twice : Independent sampleVolume .x .x 1 1
    (fopen pathStdout (fopen pathStdout sampleMachine).2).2 := by
  have hopened : ∀ m : Machine,
      fopen pathStdout m=(some .x,(fopen pathStdout m).2) := fun _ => rfl
  have hfd : ∀ m : Machine, (fopen pathStdout m).2.fd .x=1 := fun _ => rfl
  have htheorem := streams_independent_iff (v:=sampleVolume) (hopened sampleMachine)
    (m:=(fopen pathStdout sampleMachine).2) (.inl (by decide)) (hopened _)
  exact htheorem.mpr ⟨rfl,.inl (hfd _)⟩

/-- Two files: closing the first one closes the descriptor of the second. -/
theorem twoFiles_dependent : ∃ m1 m2, fopen pathA sampleMachine=(some .x,m1) ∧
    fopen pathB m1=(some .x,m2) ∧ m1.fd .x=3 ∧ m2.fd .x=4 ∧
      ¬Independent sampleVolume .x .x 3 4 m2 ∧
        (run sampleVolume .x .x [(false,.fclose)] m2).map Acted.fd=[4] := by
  refine ⟨_,_,rfl,rfl,rfl,rfl,fun h => ?_,rfl⟩
  exact absurd h.same (by decide)

end OvsbMk.LibcStreams
