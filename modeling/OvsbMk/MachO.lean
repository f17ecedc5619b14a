import OvsbMk.ByteMemory

/-!
# The Mach-O loader

Translation of `mach_o_load` and of the packing tool. The image is read and
copied in the same memory, so every field is read at the moment the source
reads it: the file may be overwritten by the segments that are being loaded.
The result also lists the addresses that were written.
-/

namespace OvsbMk.MachO

open ByteMemory

/-- Magic number of a 64-bit image. -/
abbrev mhMagic64 : ℕ := 0xFEEDFACF

/-- The same in the other byte order. -/
abbrev mhCigam64 : ℕ := 0xCFFAEDFE

/-- Magic number of a multi-architecture file. -/
abbrev fatMagic : ℕ := 0xCAFEBABE

/-- The same in the other byte order. -/
abbrev fatCigam : ℕ := 0xBEBAFECA

/-- Segment load command. -/
abbrev lcSegment64 : ℕ := 0x19

/-- Entry point load command. -/
abbrev lcMain : ℕ := 0x80000028

/-- Thread state load command. -/
abbrev lcUnixthread : ℕ := 0x05

/-- Bytes of the file header. -/
abbrev headerSize : ℕ := 32

/-- Address of the first loaded segment. -/
abbrev slide : ℕ := 0x2000000

/-- The loader's variables, its memory and the addresses written so far. -/
structure LoadState where
  /-- All memory. -/
  memory : Bytes
  /-- Address of the current load command. -/
  cmds : ℕ
  /-- Entry point found so far, null at first. -/
  entry : ℕ
  /-- Lowest address of the image in its own terms, zero until a segment sets it. -/
  fileBase : ℕ
  /-- Addresses written, the last one first. -/
  written : List ℕ

/-- Copy the segment's file bytes; the size is read again in every round. -/
def copyLoop (dst src : ℕ) : ℕ → ℕ → LoadState → LoadState
  | 0, _, st => st
  | fuel+1, j, st =>
    if j<load64 st.memory (st.cmds+48) then
      copyLoop dst src fuel (j+1) { st with
        memory := Function.update st.memory ((dst+j)%2^64) (st.memory ((src+j)%2^64)),
        written := (dst+j)%2^64::st.written }
    else st

/-- Clear the rest of the segment; its size is read again in every round. -/
def zeroLoop (dst : ℕ) : ℕ → ℕ → LoadState → LoadState
  | 0, _, st => st
  | fuel+1, j, st =>
    if j<load64 st.memory (st.cmds+32) then
      zeroLoop dst fuel (j+1) { st with
        memory := Function.update st.memory ((dst+j)%2^64) 0,
        written := (dst+j)%2^64::st.written }
    else st

/-- Load one segment. Segments without file bytes are skipped. Both loops count
in 64 bits, so `2^64` rounds bound them. -/
def loadSegment (data : ℕ) (st : LoadState) : LoadState :=
  if load64 st.memory (st.cmds+48)>0 then
    let vmaddr := load64 st.memory (st.cmds+24)
    let st1 := if st.fileBase=0 then { st with fileBase := vmaddr } else st
    let src := (data+load64 st1.memory (st1.cmds+40))%2^64
    let dst := (vmaddr+2^64-st1.fileBase+slide)%2^64
    let st2 := copyLoop dst src (2^64) 0 st1
    zeroLoop dst (2^64) (load64 st2.memory (st2.cmds+48)) st2
  else st

/-- Entry point of a thread state command. -/
def threadEntry (st : LoadState) : ℕ :=
  let original := load64 st.memory (st.cmds+48)
  if st.fileBase≠0 then (original+2^64-st.fileBase+slide)%2^64 else original

/-- Handle one load command and go on to the next. -/
def stepCommand (data : ℕ) (st : LoadState) : LoadState :=
  let cmd := load32 st.memory st.cmds
  let st' :=
    if cmd=lcSegment64 then loadSegment data st
    else if cmd=lcMain then
      { st with entry := (slide+load64 st.memory (st.cmds+8))%2^64 }
    else if cmd=lcUnixthread then { st with entry := threadEntry st }
    else st
  { st' with cmds := (st'.cmds+load32 st'.memory (st'.cmds+4))%2^64 }

/-- All load commands; their number is read again in every round. -/
def commandLoop (data : ℕ) : ℕ → ℕ → LoadState → LoadState
  | 0, _, st => st
  | fuel+1, i, st =>
    if i<load32 st.memory (data+16) then commandLoop data fuel (i+1) (stepCommand data st) else st

/-- The file starts with a magic number the loader takes. -/
def goodMagic (m : Bytes) (data : ℕ) : Bool :=
  let magic := load32 m data
  decide (magic≠fatMagic ∧ magic≠fatCigam) && decide (magic=mhMagic64 ∨ magic=mhCigam64)

/-- The loader; its length argument is not used. The entry point is null for
files that are not taken. The command counter has 32 bits. -/
def machOLoad (m : Bytes) (data : ℕ) : LoadState :=
  if goodMagic m data then commandLoop data (2^32) 0 ⟨m,data+headerSize,0,0,[]⟩
  else ⟨m,data+headerSize,0,0,[]⟩

/-- Little-endian bytes of a number. -/
def leBytes (value : ℕ) : ℕ → List UInt8
  | 0 => []
  | width+1 => UInt8.ofNat value::leBytes (value/256) width

/-- The packing tool: a header, one segment at the slide address, the entry
point and the code. -/
def pack (code : List UInt8) (entryOffset : ℕ) : List UInt8 :=
  let segname : List UInt8 := [0x5F,0x5F,0x54,0x45,0x58,0x54,0,0,0,0,0,0,0,0,0,0]
  let totalCmdsSize := 72+24
  let codeOff := 32+totalCmdsSize
  let header := leBytes mhMagic64 4++leBytes 0x01000007 4++leBytes 0x80000003 4++leBytes 2 4++
    leBytes 2 4++leBytes totalCmdsSize 4++leBytes 0x200085 4++leBytes 0 4
  let seg := leBytes lcSegment64 4++leBytes 72 4++segname++leBytes 0x2000000 8++
    leBytes code.length 8++leBytes codeOff 8++leBytes code.length 8++leBytes 7 4++leBytes 5 4++
    leBytes 0 4++leBytes 0 4
  let mainCmd := leBytes lcMain 4++leBytes 24 4++leBytes entryOffset 8++leBytes 0 8
  header++seg++mainCmd++code

/-- A memory with a file at an address. -/
def placed (m : Bytes) (data : ℕ) (file : List UInt8) : Bytes := fun a =>
  if data≤a ∧ a<data+file.length then file.getD (a-data) 0 else m a

/-- Address of a load command, when no file byte has been overwritten. -/
def commandAddr (m : Bytes) (data : ℕ) : ℕ → ℕ
  | 0 => data+headerSize
  | i+1 => (commandAddr m data i+load32 m (commandAddr m data i+4))%2^64

/-- One load command is a segment with file bytes. -/
def Loads (m : Bytes) (data i : ℕ) : Prop :=
  load32 m (commandAddr m data i)=lcSegment64 ∧ 0<load64 m (commandAddr m data i+48)

/-- The file is taken and has a segment with file bytes. -/
def HasContents (m : Bytes) (data : ℕ) : Prop :=
  goodMagic m data=true ∧ ∃ i, i<load32 m (data+16) ∧ Loads m data i

/-- Later writes add to the list, and everything that changed is on it. -/
structure Extends (st st' : LoadState) : Prop where
  /-- Addresses stay on the list. -/
  keeps : ∀ a∈st.written, a∈st'.written
  /-- Other addresses keep their contents. -/
  frame : ∀ a, a∉st'.written → st'.memory a=st.memory a

/-- Doing nothing. -/
theorem Extends.refl (st : LoadState) : Extends st st := ⟨fun _ h => h,fun _ _ => rfl⟩

/-- One thing after the other. -/
theorem Extends.trans {st st' st'' : LoadState} (h : Extends st st') (h' : Extends st' st'') :
    Extends st st'' :=
  ⟨fun a ha => h'.keeps a (h.keeps a ha),fun a ha =>
    (h'.frame a ha).trans (h.frame a fun hmem => ha (h'.keeps a hmem))⟩

/-- Writing one byte. -/
theorem extends_write (st : LoadState) (addr : ℕ) (value : UInt8) :
    Extends st { st with memory := Function.update st.memory addr value,
                         written := addr::st.written } := by
  refine ⟨fun a ha => List.mem_cons_of_mem _ ha,fun a ha => Function.update_of_ne ?_ _ _⟩
  rintro rfl
  exact ha (by simp)

/-- Variables of the loader are not memory. -/
theorem extends_of_eq {st st' : LoadState} (hm : st'.memory=st.memory)
    (hw : st'.written=st.written) : Extends st st' :=
  ⟨fun a ha => hw ▸ ha,fun a _ => by rw [hm]⟩

/-- The copy loop writes what it lists. -/
theorem copyLoop_extends (dst src fuel j : ℕ) (st : LoadState) :
    Extends st (copyLoop dst src fuel j st) := by
  induction fuel generalizing j st with
  | zero => exact Extends.refl st
  | succ fuel ih =>
    rw [copyLoop]
    split
    · exact (extends_write st _ _).trans (ih (j+1) _)
    · exact Extends.refl st

/-- The clearing loop writes what it lists. -/
theorem zeroLoop_extends (dst fuel j : ℕ) (st : LoadState) :
    Extends st (zeroLoop dst fuel j st) := by
  induction fuel generalizing j st with
  | zero => exact Extends.refl st
  | succ fuel ih =>
    rw [zeroLoop]
    split
    · exact (extends_write st _ _).trans (ih (j+1) _)
    · exact Extends.refl st

/-- A segment with file bytes writes the first byte of its destination. -/
theorem copyLoop_first {dst src fuel : ℕ} {st : LoadState} (hfuel : 0<fuel)
    (hsize : 0<load64 st.memory (st.cmds+48)) : dst%2^64∈(copyLoop dst src fuel 0 st).written := by
  obtain ⟨fuel,rfl⟩ := Nat.exists_eq_succ_of_ne_zero hfuel.ne'
  rw [Nat.succ_eq_add_one,copyLoop,if_pos hsize]
  exact (copyLoop_extends dst src fuel 1 _).keeps _ (by simp)

/-- Setting the base changes no memory. -/
theorem setBase_extends (st : LoadState) (base : ℕ) :
    Extends st (if st.fileBase=0 then { st with fileBase := base } else st) := by
  split
  · exact extends_of_eq rfl rfl
  · exact Extends.refl st

/-- Loading a segment writes what it lists. -/
theorem loadSegment_extends (data : ℕ) (st : LoadState) : Extends st (loadSegment data st) := by
  rw [loadSegment]
  split
  · exact ((setBase_extends st _).trans (copyLoop_extends _ _ _ _ _)).trans
      (zeroLoop_extends _ _ _ _)
  · exact Extends.refl st

/-- The first segment with file bytes is loaded at the slide address. -/
theorem loadSegment_first {data : ℕ} {st : LoadState} (hbase : st.fileBase=0)
    (hsize : 0<load64 st.memory (st.cmds+48)) : slide∈(loadSegment data st).written := by
  rw [loadSegment,if_pos hsize]
  dsimp only
  rw [if_pos hbase]
  refine (zeroLoop_extends _ _ _ _).keeps _ ?_
  have hdst : (load64 st.memory (st.cmds+24)+2^64-load64 st.memory (st.cmds+24)+slide)%2^64%2^64=
      slide := by
    simp only [slide]
    omega
  have hfirst := @copyLoop_first ((load64 st.memory (st.cmds+24)+2^64-
    load64 st.memory (st.cmds+24)+slide)%2^64)
    ((data+load64 st.memory (st.cmds+40))%2^64) (2^64)
    { st with fileBase := load64 st.memory (st.cmds+24) } (by norm_num) hsize
  rw [hdst] at hfirst
  exact hfirst

/-- One load command writes what it lists. -/
theorem stepCommand_extends (data : ℕ) (st : LoadState) : Extends st (stepCommand data st) := by
  have hset : ∀ st' cmds, Extends st st' → Extends st { st' with cmds := cmds } :=
    fun st' _ h => h.trans (extends_of_eq rfl rfl)
  rw [stepCommand]
  refine hset _ _ ?_
  split
  · exact loadSegment_extends data st
  · split
    · exact extends_of_eq rfl rfl
    · split
      · exact extends_of_eq rfl rfl
      · exact Extends.refl st

/-- All load commands write what they list. -/
theorem commandLoop_extends (data fuel i : ℕ) (st : LoadState) :
    Extends st (commandLoop data fuel i st) := by
  induction fuel generalizing i st with
  | zero => exact Extends.refl st
  | succ fuel ih =>
    rw [commandLoop]
    split
    · exact (stepCommand_extends data st).trans (ih (i+1) _)
    · exact Extends.refl st

/-- Memory changes at the listed addresses only. -/
theorem machOLoad_frame (m : Bytes) (data a : ℕ) (h : a∉(machOLoad m data).written) :
    (machOLoad m data).memory a=m a := by
  unfold machOLoad at h ⊢
  split at h
  · next hg =>
    rw [if_pos hg]
    exact (commandLoop_extends data (2^32) 0 _).frame a h
  · next hg => rw [if_neg hg]

/-- Before anything is loaded, a command that loads nothing only moves on. -/
theorem stepCommand_quiet {m : Bytes} {data i : ℕ} (entry : ℕ) (h : ¬Loads m data i) :
    ∃ entry', stepCommand data ⟨m,commandAddr m data i,entry,0,[]⟩=
      ⟨m,commandAddr m data (i+1),entry',0,[]⟩ := by
  unfold stepCommand
  dsimp only
  by_cases hseg : load32 m (commandAddr m data i)=lcSegment64
  · have hsize : ¬load64 m (commandAddr m data i+48)>0 := fun hs => h ⟨hseg,hs⟩
    rw [if_pos hseg,loadSegment,if_neg hsize]
    exact ⟨entry,rfl⟩
  · rw [if_neg hseg]
    by_cases hmain : load32 m (commandAddr m data i)=lcMain
    · rw [if_pos hmain]
      exact ⟨_,rfl⟩
    · rw [if_neg hmain]
      by_cases hthread : load32 m (commandAddr m data i)=lcUnixthread
      · rw [if_pos hthread]
        exact ⟨_,rfl⟩
      · rw [if_neg hthread]
        exact ⟨entry,rfl⟩

/-- The first command that loads something loads it at the slide address. -/
theorem stepCommand_loads {m : Bytes} {data i entry : ℕ} (h : Loads m data i) :
    slide∈(stepCommand data ⟨m,commandAddr m data i,entry,0,[]⟩).written := by
  unfold stepCommand
  dsimp only
  rw [if_pos h.1]
  exact loadSegment_first rfl h.2

/-- Nothing is written before the first command that loads, and that one
writes at the slide address. -/
theorem commandLoop_written {m : Bytes} {data i entry : ℕ} (fuel : ℕ)
    (hfuel : load32 m (data+16) ≤ i+fuel) :
    ((∃ j, i≤j ∧ j<load32 m (data+16) ∧ Loads m data j) →
      slide∈(commandLoop data fuel i ⟨m,commandAddr m data i,entry,0,[]⟩).written) ∧
    ((∀ j, i≤j → j<load32 m (data+16) → ¬Loads m data j) →
      (commandLoop data fuel i ⟨m,commandAddr m data i,entry,0,[]⟩).written=[]) := by
  induction fuel generalizing i entry with
  | zero =>
    refine ⟨?_,fun _ => rfl⟩
    rintro ⟨j,h1,h2,_⟩
    omega
  | succ fuel ih =>
    rw [commandLoop]
    by_cases hi : i<load32 m (data+16)
    · rw [if_pos hi]
      by_cases hloads : Loads m data i
      · refine ⟨fun _ => ?_,fun h => (h i le_rfl hi hloads).elim⟩
        exact (commandLoop_extends data fuel (i+1) _).keeps _ (stepCommand_loads hloads)
      · obtain ⟨entry',hstep⟩ := stepCommand_quiet entry hloads
        rw [hstep]
        obtain ⟨h1,h2⟩ := @ih (i+1) entry' (by omega)
        refine ⟨?_,fun h => h2 fun j hj hn => h j (by omega) hn⟩
        rintro ⟨j,hj,hn,hl⟩
        refine h1 ⟨j,?_,hn,hl⟩
        rcases Nat.eq_or_lt_of_le hj with rfl | hlt
        · exact (hloads hl).elim
        · exact hlt
    · rw [if_neg hi]
      refine ⟨?_,fun _ => rfl⟩
      rintro ⟨j,h1,h2,_⟩
      omega

/-- The loader writes at the slide address when the file has contents, and
nowhere otherwise. -/
theorem machOLoad_written (m : Bytes) (data : ℕ) :
    (HasContents m data → slide∈(machOLoad m data).written) ∧
      (¬HasContents m data → (machOLoad m data).written=[]) := by
  have hfuel : load32 m (data+16)≤0+2^32 := by
    have := load32_lt m (data+16)
    omega
  obtain ⟨h1,h2⟩ := @commandLoop_written m data 0 0 (2^32) hfuel
  have hstart : commandAddr m data 0=data+headerSize := rfl
  rw [hstart] at h1 h2
  unfold machOLoad
  constructor
  · rintro ⟨hgood,i,hi,hl⟩
    rw [if_pos hgood]
    exact h1 ⟨i,Nat.zero_le i,hi,hl⟩
  · intro hnone
    by_cases hgood : goodMagic m data=true
    · rw [if_pos hgood]
      exact h2 fun j _ hj hl => hnone ⟨hgood,j,hj,hl⟩
    · rw [if_neg hgood]

/-- A number stored little-endian in a placed file is read back. -/
theorem load_placed {m : Bytes} {data value : ℕ} (width : ℕ) (before after : List UInt8) :
    loadBytes (placed m data (before++(leBytes value width++after))) (data+before.length) width=
      value%256^width := by
  induction width generalizing before value with
  | zero => simp [loadBytes,Nat.mod_one]
  | succ width ih =>
    have hsplit : before++(leBytes value (width+1)++after)=
        (before++[UInt8.ofNat value])++(leBytes (value/256) width++after) := by
      simp [leBytes]
    have hbyte : placed m data (before++(leBytes value (width+1)++after)) (data+before.length)=
        UInt8.ofNat value := by
      rw [placed,if_pos (by simp [leBytes]),Nat.add_sub_cancel_left]
      simp [leBytes]
    have hrest := @ih (value/256) (before++[UInt8.ofNat value])
    rw [← hsplit,List.length_append,List.length_singleton,← Nat.add_assoc] at hrest
    rw [loadBytes,hbyte,hrest,Nat.pow_succ',Nat.mod_mul]
    simp

/-- A number that stands at an offset of a placed file. -/
theorem load_field {m : Bytes} {data offset value width : ℕ} {file : List UInt8}
    (hoff : offset≤file.length) (h : (file.drop offset).take width=leBytes value width)
    (hvalue : value<256^width) : loadBytes (placed m data file) (data+offset) width=value := by
  have hfile : file=file.take offset++(leBytes value width++(file.drop offset).drop width) := by
    rw [← h,List.take_append_drop,List.take_append_drop]
  have hload := @load_placed m data value width (file.take offset)
    ((file.drop offset).drop width)
  rw [← hfile,List.length_take,Nat.min_eq_left hoff] at hload
  rw [hload,Nat.mod_eq_of_lt hvalue]

variable {m : Bytes} {data entryOffset : ℕ} {code : List UInt8}

/-- The fixed part of a packed file has 128 bytes. -/
theorem pack_length : (pack code entryOffset).length=128+code.length := by
  simp [pack,leBytes]
  omega

/-- Fields of a packed file that the loader reads. -/
theorem pack_fields (hcode : code.length<2^64) (hentry : entryOffset<2^64) :
    let mem := placed m data (pack code entryOffset)
    load32 mem (data+0)=mhMagic64 ∧ load32 mem (data+16)=2 ∧ load32 mem (data+32)=lcSegment64 ∧
      load32 mem (data+36)=72 ∧ load64 mem (data+56)=slide ∧ load64 mem (data+64)=code.length ∧
      load64 mem (data+72)=128 ∧ load64 mem (data+80)=code.length ∧
      load32 mem (data+104)=lcMain ∧ load64 mem (data+112)=entryOffset := by
  have hlen := @pack_length entryOffset code
  have hcode' : code.length<256^8 := hcode.trans_eq (by norm_num)
  have hentry' : entryOffset<256^8 := hentry.trans_eq (by norm_num)
  have hsmall : ∀ v, v<2^32 → v<256^4 := fun v hv => hv.trans_eq (by norm_num)
  refine ⟨load_field (by omega) ?_ (hsmall _ (by norm_num)),
    load_field (by omega) ?_ (hsmall _ (by norm_num)),
    load_field (by omega) ?_ (hsmall _ (by norm_num)),
    load_field (by omega) ?_ (hsmall _ (by norm_num)),load_field (by omega) ?_ (by norm_num),
    load_field (by omega) ?_ hcode',load_field (by omega) ?_ (by norm_num),
    load_field (by omega) ?_ hcode',load_field (by omega) ?_ (hsmall _ (by norm_num)),
    load_field (by omega) ?_ hentry'⟩
  all_goals
    simp only [pack,leBytes,List.cons_append,List.nil_append,List.drop_succ_cons,List.drop_zero,
      List.take_succ_cons,List.take_zero]

/-- A copy that reaches neither the segment command nor its source copies as many
bytes as the command says and writes nothing else. -/
theorem copyLoop_spec {dst src n j : ℕ} {st : LoadState} (fuel : ℕ)
    (hsize : load64 st.memory (st.cmds+48)=n) (hroom : dst+n≤2^64) (hsrc : src+n≤2^64)
    (hapart : dst+n ≤ st.cmds+48 ∨ st.cmds+56≤dst) (hover : dst+n ≤ src ∨ src+n≤dst) (hj : j≤n)
    (hfuel : n≤j+fuel) :
    let r := copyLoop dst src fuel j st
    (r.cmds=st.cmds ∧ r.entry=st.entry ∧ r.fileBase=st.fileBase) ∧
      (∀ i, j ≤ i → i<n → r.memory (dst+i)=st.memory (src+i)) ∧
      (∀ a, a<dst+j ∨ dst+n≤a → r.memory a=st.memory a) ∧
      ∀ a∈r.written, a∈st.written ∨ dst≤a ∧ a<dst+n := by
  induction fuel generalizing j st with
  | zero => exact ⟨⟨rfl,rfl,rfl⟩,fun i h1 h2 => by omega,fun _ _ => rfl,fun _ ha => Or.inl ha⟩
  | succ fuel ih =>
    rw [copyLoop,hsize]
    by_cases hlt : j<n
    · rw [if_pos hlt]
      have hwrap : (dst+j)%2^64=dst+j := Nat.mod_eq_of_lt (by omega)
      have hwrap' : (src+j)%2^64=src+j := Nat.mod_eq_of_lt (by omega)
      rw [hwrap,hwrap']
      have hother : ∀ a, a≠dst+j →
          Function.update st.memory (dst+j) (st.memory (src+j)) a=st.memory a :=
        fun a ha => Function.update_of_ne ha _ _
      have hsize' : load64 (Function.update st.memory (dst+j) (st.memory (src+j))) (st.cmds+48)=n :=
        (load64_congr fun a ha1 ha2 => hother a (by omega)).trans hsize
      obtain ⟨h1,h2,h3,h4⟩ := @ih (j+1)
        { st with memory := Function.update st.memory (dst+j) (st.memory (src+j)),
                  written := (dst+j)::st.written } hsize' hapart (by omega) (by omega)
      refine ⟨h1,fun i hi hin => ?_,fun a ha => ?_,fun a ha => ?_⟩
      · rcases Nat.eq_or_lt_of_le hi with rfl | hji
        · rw [h3 _ (by omega)]
          exact Function.update_self _ _ _
        · rw [h2 i hji hin]
          exact hother _ (by omega)
      · rw [h3 a (by omega)]
        exact hother a (by omega)
      · rcases h4 a ha with hmem | hin
        · rcases List.mem_cons.mp hmem with rfl | hmem
          · exact Or.inr ⟨by omega,by omega⟩
          · exact Or.inl hmem
        · exact Or.inr hin
    · rw [if_neg hlt]
      exact ⟨⟨rfl,rfl,rfl⟩,fun i h1 h2 => by omega,fun _ _ => rfl,fun _ ha => Or.inl ha⟩

/-- Nothing is left to clear once the counter has reached the segment's size. -/
theorem zeroLoop_done {dst fuel j : ℕ} {st : LoadState}
    (h : load64 st.memory (st.cmds+32)≤j) : zeroLoop dst fuel j st=st := by
  cases fuel with
  | zero => rfl
  | succ fuel => rw [zeroLoop,if_neg (by omega)]

/-- The file in memory keeps its fields while other memory changes. -/
theorem load_kept {m m' : Bytes} {data n : ℕ} (h : ∀ a, data≤a → a<data+n → m' a=m a)
    {offset width : ℕ} (hoff : offset+width≤n) :
    loadBytes m' (data+offset) width=loadBytes m (data+offset) width :=
  loadBytes_congr fun a h1 h2 => h a (by omega) (by omega)

/-- The code of a packed file. -/
theorem placed_code {i : ℕ} (hi : i<code.length) :
    placed m data (pack code entryOffset) (data+128+i)=code.getD i 0 := by
  rw [placed,if_pos (by rw [pack_length]; omega),show data+128+i-data=128+i by omega,
    Nat.add_comm 128 i]
  simp only [pack,leBytes,List.cons_append,List.nil_append,List.getD_cons_succ]

/-- What loading the segment of a packed file next to it leaves. -/
structure Segment (m : Bytes) (data : ℕ) (code : List UInt8) (r : LoadState) : Prop where
  /-- The current command is still the segment. -/
  cmds : r.cmds=data+headerSize
  /-- The code has been copied. -/
  copied : ∀ i, i<code.length → r.memory (slide+i)=code.getD i 0
  /-- Other memory has not changed. -/
  frame : ∀ a, a<slide ∨ slide+code.length≤a → r.memory a=m a
  /-- Nothing else has been written. -/
  written : ∀ a∈r.written, slide≤a ∧ a<slide+code.length

/-- Buffer and destination fit into the address space. -/
theorem room_of_apart (hdata : data+(128+code.length)≤2^64)
    (hapart : data+(128+code.length) ≤ slide ∨ slide+code.length≤data) :
    slide+code.length≤2^64 := by
  simp only [slide] at hapart ⊢
  omega

/-- Loading the segment of a packed file next to it. -/
theorem loadSegment_pack (hentry : entryOffset<2^64) (hdata : data+(128+code.length)≤2^64)
    (hapart : data+(128+code.length) ≤ slide ∨ slide+code.length≤data) :
    Segment (placed m data (pack code entryOffset)) data code
      (loadSegment data ⟨placed m data (pack code entryOffset),data+headerSize,0,0,[]⟩) := by
  have hroom := room_of_apart hdata hapart
  have hcode : code.length<2^64 := by omega
  have hbytes := fun i => @placed_code m data entryOffset code i
  obtain ⟨_,_,_,_,hvmaddr,hvmsize,hoff,hsize,_,_⟩ :=
    @pack_fields m data entryOffset code hcode hentry
  simp only [slide] at hroom hapart hvmaddr
  generalize placed m data (pack code entryOffset)=mem at *
  have h48 : data+headerSize+48=data+80 := by simp only [headerSize]
  have h40 : data+headerSize+40=data+72 := by simp only [headerSize]
  have h32 : data+headerSize+32=data+64 := by simp only [headerSize]
  have h24 : data+headerSize+24=data+56 := by simp only [headerSize]
  rw [loadSegment]
  dsimp only
  by_cases hpos : code.length=0
  · rw [h48,hsize,if_neg (by omega)]
    exact ⟨rfl,fun i hi => by omega,fun _ _ => rfl,fun a ha => (by cases ha)⟩
  rw [h48,h24,hsize,hvmaddr,if_pos (by omega),if_pos rfl]
  have hdst : (0x2000000+2^64-0x2000000+slide)%2^64=slide := by norm_num
  have hsrc : (data+128)%2^64=data+128 := Nat.mod_eq_of_lt (by omega)
  dsimp only
  rw [hdst,h40,hoff,hsrc]
  obtain ⟨⟨hcmds,_,_⟩,hcopied,hmem,hwritten⟩ := @copyLoop_spec slide (data+128) code.length 0
    ⟨mem,data+headerSize,0,0x2000000,[]⟩ (2^64) (by rw [h48]; exact hsize) hroom (by omega)
    (by simp only [slide,headerSize]; omega) (by simp only [slide]; omega) (Nat.zero_le _) (by omega)
  dsimp only at hcmds hcopied hmem hwritten
  generalize copyLoop slide _ (2^64) 0 _=r at *
  have hkept : ∀ offset, offset+8≤128 → load64 r.memory (data+offset)=load64 mem (data+offset) :=
    fun offset ho => load_kept (n:=128) (fun a _ _ => hmem a (by simp only [slide]; omega)) ho
  rw [hcmds,h48,hkept 80 (by norm_num),hsize,zeroLoop_done]
  · refine ⟨hcmds,fun i hi => ?_,fun a ha => hmem a (by simp only [slide] at ha ⊢; omega),
      fun a ha => (hwritten a ha).resolve_left List.not_mem_nil⟩
    rw [hcopied i (Nat.zero_le i) hi,hbytes i hi]
  · rw [hcmds,h32,hkept 64 (by norm_num),hvmsize]

/-- The loader on a packed file: the segment, then the entry point. -/
theorem machOLoad_pack_steps (hentry : entryOffset<2^64) (hdata : data+(128+code.length)≤2^64)
    (hapart : data+(128+code.length) ≤ slide ∨ slide+code.length≤data) :
    let mem := placed m data (pack code entryOffset)
    let r := loadSegment data ⟨mem,data+headerSize,0,0,[]⟩
    (machOLoad mem data).entry=(slide+entryOffset)%2^64 ∧ (machOLoad mem data).memory=r.memory ∧
      (machOLoad mem data).written=r.written := by
  have hroom := room_of_apart hdata hapart
  obtain ⟨hmagic,hncmds,hseg,hsegsize,_,_,_,_,hmain,hoff⟩ :=
    @pack_fields m data entryOffset code (by simp only [slide] at hroom; omega) hentry
  have hsegment := loadSegment_pack (m:=m) hentry hdata hapart
  generalize placed m data (pack code entryOffset)=mem at *
  have hgood : goodMagic mem data=true := by
    rw [Nat.add_zero] at hmagic
    rw [goodMagic,hmagic]
    decide
  obtain ⟨fuel,hfuel⟩ : ∃ fuel, 2^32=fuel+1+1+1 := ⟨2^32-3,by norm_num⟩
  have hseg' : load32 mem (data+headerSize)=lcSegment64 := hseg
  dsimp only
  rw [machOLoad,if_pos hgood,hfuel,commandLoop]
  dsimp only
  rw [if_pos (by rw [hncmds]; norm_num),stepCommand]
  dsimp only
  rw [if_pos hseg']
  generalize loadSegment data ⟨mem,data+headerSize,0,0,[]⟩=r at *
  have hkeep : ∀ a, data≤a → a<data+128 → r.memory a=mem a :=
    fun a _ _ => hsegment.frame a (by simp only [slide] at hapart ⊢; omega)
  have hkept : ∀ {offset width}, offset+width≤128 →
      loadBytes r.memory (data+offset) width=loadBytes mem (data+offset) width :=
    fun ho => load_kept (n:=128) hkeep ho
  have hnext : (r.cmds+load32 r.memory (r.cmds+4))%2^64=data+104 := by
    have h36 : load32 r.memory (data+headerSize+4)=72 := (@hkept 36 4 (by norm_num)).trans hsegsize
    rw [hsegment.cmds,h36,Nat.mod_eq_of_lt]
    simp only [headerSize]
    omega
  have hcount : load32 r.memory (data+16)=2 := (hkept (by norm_num)).trans hncmds
  rw [commandLoop]
  dsimp only
  rw [hnext,hcount,if_pos (by norm_num),stepCommand]
  dsimp only
  have hmain' : load32 r.memory (data+104)=lcMain := (hkept (by norm_num)).trans hmain
  have hoff' : load64 r.memory (data+104+8)=entryOffset := (hkept (by norm_num)).trans hoff
  rw [hmain',if_neg (by norm_num),if_pos rfl,commandLoop]
  dsimp only
  rw [hcount,if_neg (by norm_num),hoff']
  exact ⟨rfl,rfl,rfl⟩

/-- A packed program that does not overlap its own image is taken, and its
entry point is the offset from the slide address. -/
theorem machOLoad_pack (hpos : 0<code.length) (hroom : slide+code.length≤2^64)
    (hentry : entryOffset<2^64) (hdata : data+(128+code.length)≤2^64)
    (hapart : data+(128+code.length) ≤ slide ∨ slide+code.length≤data) :
    HasContents (placed m data (pack code entryOffset)) data ∧
      (machOLoad (placed m data (pack code entryOffset)) data).entry=(slide+entryOffset)%2^64 := by
  refine ⟨?_,(machOLoad_pack_steps hentry hdata hapart).1⟩
  obtain ⟨hmagic,hncmds,hseg,_,_,_,_,hsize,_,_⟩ :=
    @pack_fields m data entryOffset code (by simp only [slide] at hroom; omega) hentry
  refine ⟨?_,0,by rw [hncmds]; norm_num,hseg,?_⟩
  · rw [Nat.add_zero] at hmagic
    rw [goodMagic,hmagic]
    decide
  · rw [show commandAddr (placed m data (pack code entryOffset)) data 0+48=data+80 from rfl,hsize]
    exact hpos

/-- Packed programs load as packed: the entry point is the offset from the slide
address, the code stands at the slide address, and nothing else is written. -/
theorem machOLoad_packed (m : Bytes) (data : ℕ) (code : List UInt8) (entryOffset : UInt64)
    (hdata : data+(pack code entryOffset.toNat).length≤2^64)
    (hapart : data+(pack code entryOffset.toNat).length ≤ slide ∨ slide+code.length≤data) :
    let mem := placed m data (pack code entryOffset.toNat)
    (machOLoad mem data).entry=(slide+entryOffset.toNat)%2^64 ∧
      (∀ i, i<code.length → (machOLoad mem data).memory (slide+i)=code.getD i 0) ∧
      (∀ a, a<slide ∨ slide+code.length≤a → (machOLoad mem data).memory a=mem a) ∧
      ∀ a∈(machOLoad mem data).written, slide≤a ∧ a<slide+code.length := by
  rw [pack_length] at hdata hapart
  obtain ⟨h1,h2,h3⟩ := machOLoad_pack_steps (m:=m) entryOffset.toNat_lt hdata hapart
  have hsegment := loadSegment_pack (m:=m) entryOffset.toNat_lt hdata hapart
  dsimp only at h1 h2 h3 ⊢
  refine ⟨h1,?_,?_,?_⟩
  · rw [h2]
    exact hsegment.copied
  · rw [h2]
    exact hsegment.frame
  · rw [h3]
    exact hsegment.written

/-- A program of one byte, placed below its destination. -/
theorem machOLoad_packed_byte :
    let mem := placed (fun _ => 0) 0x1000 (pack [0xC3] (0 : UInt64).toNat)
    (machOLoad mem 0x1000).entry=(slide+(0 : UInt64).toNat)%2^64 ∧
      (machOLoad mem 0x1000).memory (slide+0)=[0xC3].getD 0 0 := by
  have hlen : (pack [0xC3] (0 : UInt64).toNat).length=129 := pack_length
  have hdata : 0x1000+(pack [0xC3] (0 : UInt64).toNat).length≤2^64 := by
    rw [hlen]
    norm_num
  have hapart : 0x1000+(pack [0xC3] (0 : UInt64).toNat).length ≤ slide := by
    rw [hlen]
    norm_num
  obtain ⟨h1,h2,_⟩ := machOLoad_packed (fun _ => 0) 0x1000 [0xC3] 0 hdata (Or.inl hapart)
  exact ⟨h1,h2 0 (by norm_num)⟩

end OvsbMk.MachO
