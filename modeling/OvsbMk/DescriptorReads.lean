import OvsbMk.Descriptors

/-!
# Reads through descriptors

A read fills a static buffer of fixed size with the start of the file and copies
from the position on. It delivers what the file has there when that lies inside
the buffer, and stays inside the bytes just stored as long as no seek makes the
position negative.
-/

namespace OvsbMk.DescriptorReads

open ByteMemory BlockDisk Fat32 FatTable FatData FatDirectory FatFiles FatSteps Descriptors

variable {v : Volume} {keyboard : ℤ → ℤ×List UInt8} {s s' : Kernel} {fd : ℕ} {count : ℤ}
  {r : ReadResult}

/-- A chain is read up to a size, or a transfer fails. -/
theorem readChain_bound {size fuel cluster offset : ℕ} {buffer buffer' : Bytes} {d d' : Disk} {n : ℤ}
    (hsize : size<2^31) (hoff : offset ≤ size)
    (h : readChain v size fuel cluster offset buffer d=some (n,buffer',d')) : n=-1 ∨ 0≤n ∧ n ≤ size := by
  induction fuel generalizing cluster offset buffer d with
  | zero =>
    rw [readChain] at h
    split at h
    · cases h
    · simp only [Option.some.injEq,Prod.mk.injEq] at h
      rw [toInt_of_lt (by omega)] at h
      omega
  | succ fuel ih =>
    rw [readChain] at h
    split at h
    next hin =>
      dsimp only at h
      split at h
      · simp only [Option.some.injEq,Prod.mk.injEq] at h
        omega
      · split at h
        · simp only [Option.some.injEq,Prod.mk.injEq] at h
          omega
        · exact ih (by omega) h
    next hin =>
      simp only [Option.some.injEq,Prod.mk.injEq] at h
      rw [toInt_of_lt (by omega)] at h
      omega

/-- Reading a file answers at most the size asked for. -/
theorem fat32ReadFile_bound {cwd size : ℕ} {name : List UInt8} {buffer buffer' : Bytes} {d d' : Disk}
    {n : ℤ} (hsize : size<2^31)
    (h : fat32ReadFile v cwd name buffer size d=some (n,buffer',d')) : n=-1 ∨ 0≤n ∧ n ≤ size := by
  rw [fat32ReadFile] at h
  split at h
  · cases h
  · simp only [Option.some.injEq,Prod.mk.injEq] at h
    omega
  · split at h
    · simp only [Option.some.injEq,Prod.mk.injEq] at h
      omega
    · split at h
      · simp only [Option.some.injEq,Prod.mk.injEq] at h
        omega
      · have hmin := readChain_bound (lt_of_le_of_lt (Nat.min_le_left _ _) hsize) (Nat.zero_le _) h
        have := Nat.min_le_left size
        omega

/-- Between two states all entries of the table but one stay, and that one keeps its
name. -/
structure Moved (s s' : Kernel) (fd : ℕ) : Prop where
  /-- The current directory stays. -/
  cwd : s'.cwd=s.cwd
  /-- Other entries stay. -/
  other : ∀ n, n≠fd → s'.fds n=s.fds n
  /-- The entry stays in use or not. -/
  used : (s'.fds fd).used=(s.fds fd).used
  /-- The entry keeps its name. -/
  name : (s'.fds fd).name=(s.fds fd).name

/-- Nothing moved. -/
theorem Moved.same {d : Disk} {tmp : ℤ → UInt8} : Moved s { s with disk := d, tmp := tmp } fd :=
  ⟨rfl,fun _ _ => rfl,rfl,rfl⟩

/-- A new position. -/
theorem Moved.seek {d : Disk} {tmp : ℤ → UInt8} (pos : ℕ) :
    Moved s (Kernel.set { s with disk := d, tmp := tmp } fd { s.fds fd with pos := pos }) fd := by
  refine ⟨rfl,fun n hn => set_other hn,?_,?_⟩
  · rw [set_same]
  · rw [set_same]

/-- The number of bytes a read copies, from those stored in the buffer. -/
theorem copied_of_range {n : ℤ} {pos : ℕ} (h1 : 0≤n) (h2 : n≤tmpSize) (hpos : pos<2^31) :
    toInt pos=pos ∧ wrapInt (n-toInt pos)=n-pos := by
  simp only [tmpSize] at h2
  have hoff := toInt_of_lt hpos
  refine ⟨hoff,?_⟩
  rw [hoff,wrapInt_of_range (by omega) (by omega)]

/-- What a read does to the state: the disk is what reading the file leaves of it, and at most
the position of the entry changes. -/
theorem readDescriptor_state (h : readDescriptor v s fd count=some r) :
    ∃ n buffer d tmp,
      fat32ReadFile v s.cwd (s.fds fd).name (fun i => s.tmp i) tmpSize s.disk=some (n,buffer,d) ∧
      (r.state={ s with disk := d, tmp := tmp } ∨
        ∃ pos, r.state=Kernel.set { s with disk := d, tmp := tmp } fd
          { s.fds fd with pos := pos }) := by
  rw [readDescriptor] at h
  split at h
  · cases h
  next n buffer d hread =>
    dsimp only at h
    generalize (if count<wrapInt (n-toInt (s.fds fd).pos) then count
      else wrapInt (n-toInt (s.fds fd).pos))=k at h
    split at h
    · rw [Option.some.injEq] at h
      subst h
      exact ⟨n,buffer,d,_,hread,Or.inl rfl⟩
    split at h
    · rw [Option.some.injEq] at h
      subst h
      exact ⟨n,buffer,d,_,hread,Or.inl rfl⟩
    · rw [Option.some.injEq] at h
      subst h
      exact ⟨n,buffer,d,_,hread,Or.inr ⟨_,rfl⟩⟩

/-- A read moves the position of its entry. -/
theorem readDescriptor_moved (h : readDescriptor v s fd count=some r) : Moved s r.state fd := by
  obtain ⟨n,buffer,d,tmp,_,hstate | ⟨pos,hstate⟩⟩ := readDescriptor_state h
  · rw [hstate]
    exact Moved.same
  · rw [hstate]
    exact Moved.seek pos

/-- A read at a position that is not negative stays inside the bytes just stored,
and the position stays like that. -/
theorem readDescriptor_within (hpos : (s.fds fd).pos<2^31)
    (h : readDescriptor v s fd count=some r) :
    (∀ i∈r.indices, 0 ≤ i ∧ i<r.filled) ∧ (r.state.fds fd).pos<2^31 := by
  rw [readDescriptor] at h
  split at h
  · cases h
  next n buffer d hread =>
    dsimp only at h
    have hbound := fat32ReadFile_bound (by norm_num) hread
    by_cases hneg : n<0
    · rw [if_pos hneg,Option.some.injEq] at h
      subst h
      exact ⟨fun i hi => (by cases hi),hpos⟩
    obtain ⟨hoff,hroom⟩ := copied_of_range (by omega) (hbound.resolve_left (by omega)).2 hpos
    have hle := (hbound.resolve_left (by omega)).2
    simp only [tmpSize] at hle
    rw [if_neg hneg,hroom] at h
    generalize hk : (if count<n-(s.fds fd).pos then count else n-(s.fds fd).pos)=k at h
    have hkn : k≤n-(s.fds fd).pos := by
      rw [← hk]
      split <;> omega
    by_cases hstop : k<0
    · rw [if_pos hstop,Option.some.injEq] at h
      subst h
      exact ⟨fun i hi => (by cases hi),hpos⟩
    · rw [if_neg hstop,Option.some.injEq] at h
      subst h
      refine ⟨fun i hi => ?_,?_⟩
      · obtain ⟨j,hj,rfl⟩ := List.mem_map.mp hi
        have := List.mem_range.mp hj
        dsimp only
        rw [hoff]
        omega
      · dsimp only
        rw [set_same]
        dsimp only
        omega

/-- The positions of descriptors in use are not negative as signed numbers. -/
def Steady (s : Kernel) : Prop := ∀ fd, (s.fds fd).used=true → (s.fds fd).pos<2^31

/-- Moving one position keeps the others. -/
theorem Steady.moved (h : Steady s) (hm : Moved s s' fd) (hpos : (s'.fds fd).pos<2^31) :
    Steady s' := by
  intro n hn
  by_cases hnf : n=fd
  · rw [hnf]
    exact hpos
  · rw [hm.other n hnf] at hn ⊢
    exact h n hn

/-- A seek leaves a position that is not negative. -/
def Forward (v : Volume) (s : Kernel) : Request → Prop
  | .lseek a1 a2 a3 => isOpen s (argument a1)=true →
      (argument a3=0 → 0≤argument a2) ∧
      (argument a3=1 → 0≤(s.fds (argument a1).toNat).pos+argument a2 ∧
        (s.fds (argument a1).toNat).pos+argument a2<2^31) ∧
      (argument a3=2 → ∀ e d, fat32Stat v s.cwd (s.fds (argument a1).toNat).name s.disk=
        some (some e,d) → ((e.size : ℤ)+argument a2)%2^32<2^31)
  | _ => True

/-- A call that passes a test returns. -/
def Step (v : Volume) (keyboard : ℤ → ℤ×List UInt8) (ok : Kernel → Request → Prop)
    (s s' : Kernel) : Prop :=
  ∃ request ret, ok s request ∧ request.perform v keyboard s=some (ret,s')

/-- A read keeps the positions. -/
theorem sysRead_steady {n : ℤ} (h : Steady s) (hread : sysRead v keyboard s n count=some r) :
    (∀ i∈r.indices, 0 ≤ i ∧ i<r.filled) ∧ Steady r.state := by
  rw [sysRead] at hread
  split at hread
  · rw [Option.some.injEq] at hread
    subst hread
    exact ⟨fun i hi => (by cases hi),h⟩
  · split at hread
    next hopen =>
      obtain ⟨h1,h2⟩ := readDescriptor_within (h _ (isOpen_iff.mp hopen).2) hread
      exact ⟨h1,h.moved (readDescriptor_moved hread) h2⟩
    next hopen =>
      rw [Option.some.injEq] at hread
      subst hread
      exact ⟨fun i hi => (by cases hi),h⟩

/-- What a seek makes of the position: the offset counts from the start, from the
position or from the end. -/
def Target (v : Volume) (s : Kernel) (fd : ℕ) (off whence : ℤ) (d : Disk) (pos : ℕ) : Prop :=
  whence=0 ∧ pos=(off%2^32).toNat ∨
  whence=1 ∧ pos=(((s.fds fd).pos+off)%2^32).toNat ∨
  whence=2 ∧ ∃ e, fat32Stat v s.cwd (s.fds fd).name s.disk=some (some e,d) ∧
    pos=((e.size+off)%2^32).toNat

/-- All a seek does: it may look the name up, and may move one position. -/
theorem sysLseek_cases {n off whence ret : ℤ} (h : sysLseek v s n off whence=some (ret,s')) :
    ∃ d, (d=s.disk ∨ ∃ answer, fat32Stat v s.cwd (s.fds n.toNat).name s.disk=some (answer,d)) ∧
      (s'={ s with disk := d } ∨ isOpen s n=true ∧ ∃ pos, Target v s n.toNat off whence d pos ∧
        s'=Kernel.set { s with disk := d } n.toNat { s.fds n.toNat with pos := pos }) := by
  rw [sysLseek] at h
  split at h
  next hopen =>
    dsimp only at h
    split at h
    next hw =>
      simp only [Option.some.injEq,Prod.mk.injEq] at h
      exact ⟨s.disk,Or.inl rfl,Or.inr ⟨hopen,_,Or.inl ⟨hw,rfl⟩,h.2.symm⟩⟩
    split at h
    next hw =>
      simp only [Option.some.injEq,Prod.mk.injEq] at h
      exact ⟨s.disk,Or.inl rfl,Or.inr ⟨hopen,_,Or.inr (Or.inl ⟨hw,rfl⟩),h.2.symm⟩⟩
    split at h
    next hw =>
      split at h
      · cases h
      next d hstat =>
        simp only [Option.some.injEq,Prod.mk.injEq] at h
        exact ⟨d,Or.inr ⟨_,hstat⟩,Or.inl h.2.symm⟩
      next e d hstat =>
        simp only [Option.some.injEq,Prod.mk.injEq] at h
        exact ⟨d,Or.inr ⟨_,hstat⟩,Or.inr ⟨hopen,_,Or.inr (Or.inr ⟨hw,e,hstat,rfl⟩),h.2.symm⟩⟩
    · simp only [Option.some.injEq,Prod.mk.injEq] at h
      exact ⟨s.disk,Or.inl rfl,Or.inl h.2.symm⟩
  · simp only [Option.some.injEq,Prod.mk.injEq] at h
    exact ⟨s.disk,Or.inl rfl,Or.inl h.2.symm⟩

/-- A seek moves the position of its entry. -/
theorem sysLseek_moved {n off whence ret : ℤ} (h : sysLseek v s n off whence=some (ret,s')) :
    Moved s s' n.toNat := by
  obtain ⟨d,_,rfl | ⟨_,pos,_,rfl⟩⟩ := sysLseek_cases h
  · exact Moved.same
  · exact Moved.seek pos

/-- A forward seek leaves a position that is not negative. -/
theorem sysLseek_forward {a1 a2 a3 : UInt64} {ret : ℤ} (hf : Forward v s (.lseek a1 a2 a3))
    (hpos : (s.fds (argument a1).toNat).pos<2^31)
    (h : sysLseek v s (argument a1) (argument a2) (argument a3)=some (ret,s')) :
    (s'.fds (argument a1).toNat).pos<2^31 := by
  have hrange := toInt_range a2.toNat
  obtain ⟨d,_,rfl | ⟨hopen,pos,ht,rfl⟩⟩ := sysLseek_cases h
  · exact hpos
  obtain ⟨h0,h1,h2⟩ := hf hopen
  rw [set_same]
  dsimp only
  rcases ht with ⟨hw,rfl⟩ | ⟨hw,rfl⟩ | ⟨hw,e,hstat,rfl⟩
  · have := h0 hw
    rw [argument] at *
    omega
  · have := h1 hw
    omega
  · have := h2 hw e d hstat
    omega

/-- Opening keeps the positions. -/
theorem sysOpen_steady (h : Steady s) (path : Text) : Steady (sysOpen path s).2 := by
  rw [sysOpen]
  split
  · exact h
  split
  · exact h
  split
  · exact h
  split
  · exact h
  next fd _ =>
    intro n hn
    by_cases hnf : n=fd
    · rw [hnf,set_same]
      norm_num
    · rw [set_other hnf] at hn ⊢
      exact h n hn

/-- Freeing entries keeps the positions. -/
theorem Steady.free (h : Steady s) (hkeep : ∀ n, (s'.fds n).used=true → s'.fds n=s.fds n) :
    Steady s' := by
  intro n hn
  have heq := hkeep n hn
  rw [heq] at hn ⊢
  exact h n hn

/-- Closing leaves the other entries. -/
theorem closeFd_keep {a : ℤ} {n : ℕ} (hn : ((closeFd a s).fds n).used=true) :
    (closeFd a s).fds n=s.fds n := by
  rw [closeFd] at hn ⊢
  split at hn
  next hin =>
    rw [if_pos hin]
    by_cases hna : n=a.toNat
    · rw [hna,set_same] at hn
      cases hn
    · exact set_other hna
  next hin => rw [if_neg hin]

/-- Clearing the table leaves no entry in use that it changes. -/
theorem fdsCleanup_keep {n : ℕ} (hn : ((fdsCleanup s).fds n).used=true) :
    (fdsCleanup s).fds n=s.fds n := by
  simp only [fdsCleanup] at hn ⊢
  split at hn
  · cases hn
  next hin => rw [if_neg hin]

/-- A call whose seeks are forward keeps the positions. -/
theorem step_steady (h : Steady s) (hstep : Step v keyboard (Forward v) s s') : Steady s' := by
  obtain ⟨request,ret,hf,hrun⟩ := hstep
  cases request with
  | openFile path =>
    simp only [Request.perform,Option.some.injEq] at hrun
    rw [show s'=(sysOpen path s).2 by rw [hrun]]
    exact sysOpen_steady h path
  | close a1 =>
    simp only [Request.perform,sysClose,Option.some.injEq,Prod.mk.injEq] at hrun
    obtain ⟨_,rfl⟩ := hrun
    exact h.free fun n hn => closeFd_keep hn
  | read a1 a3 =>
    obtain ⟨r,hread,hr⟩ := Option.map_eq_some_iff.mp hrun
    simp only [Prod.mk.injEq] at hr
    obtain ⟨_,rfl⟩ := hr
    exact (sysRead_steady h hread).2
  | lseek a1 a2 a3 =>
    by_cases hopen : isOpen s (argument a1)=true
    · exact h.moved (sysLseek_moved hrun) (sysLseek_forward hf (h _ (isOpen_iff.mp hopen).2) hrun)
    · rw [Request.perform,sysLseek,if_neg hopen] at hrun
      simp only [Option.some.injEq,Prod.mk.injEq] at hrun
      obtain ⟨_,rfl⟩ := hrun
      exact h
  | exit =>
    simp only [Request.perform,Option.some.injEq,Prod.mk.injEq] at hrun
    obtain ⟨_,rfl⟩ := hrun
    exact h.free fun n hn => fdsCleanup_keep hn

/-- In a run whose seeks never make a position negative every read stays inside the
bytes that were just stored in the static buffer. -/
theorem forward_run_within (hs : ∀ fd, (s.fds fd).used=false)
    (hrun : Relation.ReflTransGen (Step v keyboard (Forward v)) s s') (a1 a3 : UInt64)
    (hread : sysRead v keyboard s' (argument a1) (argument a3)=some r) :
    ∀ i∈r.indices, 0 ≤ i ∧ i<r.filled := by
  have hall : Steady s' := by
    clear hread
    induction hrun with
    | refl =>
      intro n hn
      rw [hs n] at hn
      cases hn
    | tail _ hstep ih => exact step_steady ih hstep
  exact (sysRead_steady hall hread).1

/-- A read goes to the entry of its number. -/
theorem sysRead_descriptor {n : ℤ} (hopen : isOpen s n=true) :
    sysRead v keyboard s n count=readDescriptor v s n.toNat count := by
  have hmem := (isOpen_iff.mp hopen).1
  rw [numbers,List.mem_range'_1] at hmem
  rw [sysRead,if_neg (by omega),if_pos hopen]

/-- What a file has from a position on, cut to a length. -/
def piece (text : ℕ → UInt8) (pos len : ℕ) : List UInt8 := (List.range len).map fun i => text (pos+i)

/-- A read of a file delivers what the buffer has of it from the position on, and
goes on by as much. -/
theorem readDescriptor_file (hv : Mounted v) (hd : Faultless s.disk) {dir nodes : List ℕ} {a size : ℕ}
    {text : ℕ → UInt8} (hfile : FileAt v s.disk.bytes s.cwd dir (nameTo83 (s.fds fd).name) a nodes
      text size) (hpos : (s.fds fd).pos<2^31) {k : ℕ} (hk : k<2^31) :
    ∃ r, readDescriptor v s fd k=some r ∧
      r.ret=(min k (min tmpSize size-(s.fds fd).pos) : ℕ) ∧
      r.data=piece text (s.fds fd).pos (min k (min tmpSize size-(s.fds fd).pos)) ∧
      (r.state.fds fd).pos=(s.fds fd).pos+min k (min tmpSize size-(s.fds fd).pos) ∧
      r.state.disk=s.disk := by
  have hmin := Nat.min_le_left tmpSize size
  have hread := FileAt.read hv hd hfile (fun i => s.tmp i) (k:=tmpSize)
    (by simp only [tmpSize] at hmin ⊢; omega)
  rw [readDescriptor,hread]
  dsimp only
  obtain ⟨hoff,hroom⟩ := copied_of_range (n:=(min tmpSize size : ℕ)) (by omega) (by omega) hpos
  rw [if_neg (by omega),hroom,hoff]
  by_cases hpast : min tmpSize size<(s.fds fd).pos
  · have hzero : min k (min tmpSize size-(s.fds fd).pos)=0 := by omega
    rw [if_neg (show ¬(k : ℤ)<((min tmpSize size : ℕ) : ℤ)-(s.fds fd).pos by omega),
      if_pos (by omega),hzero]
    exact ⟨_,rfl,rfl,rfl,rfl,rfl⟩
  · generalize hm : min k (min tmpSize size-(s.fds fd).pos)=n
    have hn : (if (k : ℤ)<((min tmpSize size : ℕ) : ℤ)-(s.fds fd).pos then (k : ℤ)
        else ((min tmpSize size : ℕ) : ℤ)-(s.fds fd).pos)=(n : ℤ) := by
      split <;> omega
    rw [hn,if_neg (by omega)]
    refine ⟨_,rfl,rfl,?_,?_,rfl⟩
    · dsimp only
      rw [Int.toNat_natCast,List.map_map,piece]
      refine List.map_congr_left fun i hi => ?_
      have hi' := List.mem_range.mp hi
      rw [Function.comp_apply,if_pos (by omega),show ((s.fds fd).pos+(i : ℤ)).toNat=
        (s.fds fd).pos+i by omega,copyRange,if_pos (by omega),Nat.sub_zero]
    · dsimp only
      rw [set_same]
      dsimp only
      simp only [tmpSize] at hm
      rw [Int.toNat_natCast,Nat.mod_eq_of_lt (by omega)]

/-- Whole sectors are read. -/
theorem readSectors_ok {d : Disk} (hd : Faultless d) (sector offset count i : ℕ) (buffer : Bytes) :
    ∃ buffer', readSectors sector offset count i buffer d=(true,buffer',d) := by
  induction count generalizing i buffer with
  | zero => exact ⟨buffer,rfl⟩
  | succ count ih =>
    rw [readSectors,hd.read]
    exact ih _ _

/-- A part of a sector is read. -/
theorem readRemainder_ok {d : Disk} (hd : Faultless d) (sector offset rest : ℕ) (buffer : Bytes) :
    ∃ buffer', readRemainder sector offset rest buffer d=(true,buffer',d) := by
  rw [readRemainder]
  split
  · rw [hd.read]
    exact ⟨_,rfl⟩
  · exact ⟨buffer,rfl⟩

/-- Reading a chain leaves the disk. -/
theorem readChain_disk {size fuel cluster offset : ℕ} {buffer buffer' : Bytes} {d d' : Disk} {n : ℤ}
    (hd : Faultless d) (h : readChain v size fuel cluster offset buffer d=some (n,buffer',d')) :
    d'=d := by
  have hstop : ∀ {x : ℤ} {b : Bytes}, some (x,b,d)=some (n,buffer',d') → d'=d := by
    intro x b hx
    simp only [Option.some.injEq,Prod.mk.injEq] at hx
    exact hx.2.2.symm
  induction fuel generalizing cluster offset buffer with
  | zero =>
    rw [readChain] at h
    split at h
    · cases h
    · exact hstop h
  | succ fuel ih =>
    rw [readChain] at h
    split at h
    · obtain ⟨b1,h1⟩ := readSectors_ok hd (clusterToSector v cluster) offset
        (min (size-offset) (clusterBytes v)/512) 0 buffer
      obtain ⟨b2,h2⟩ := readRemainder_ok hd
        (clusterToSector v cluster+min (size-offset) (clusterBytes v)/512)
        (offset+min (size-offset) (clusterBytes v)/512*512)
        (min (size-offset) (clusterBytes v)%512) b1
      dsimp only at h
      rw [h1] at h
      dsimp only at h
      rw [h2] at h
      dsimp only at h
      rw [fatReadEntry,hd.read] at h
      exact ih h
    · exact hstop h

/-- Finding a name leaves the disk. -/
theorem findEntry_disk (hv : Mounted v) {d : Disk} {cwd : ℕ} {dir : List ℕ} (hd : Faultless d)
    (hdir : FileChain v d.bytes cwd dir) (name : List UInt8) :
    ∃ answer, findEntry v cwd name d=some (answer,d) := by
  rw [findEntry_eq hv hd hdir]
  cases (slots v dir).find? (stopTest (nameTo83 name) d.bytes) with
  | none => exact ⟨_,rfl⟩
  | some a =>
    dsimp only
    rw [findAnswer]
    split
    · exact ⟨_,rfl⟩
    · exact ⟨_,rfl⟩

/-- Reading a file leaves the disk. -/
theorem fat32ReadFile_disk (hv : Mounted v) {d d' : Disk} {cwd size : ℕ} {dir : List ℕ}
    {name : List UInt8} {buffer buffer' : Bytes} {n : ℤ} (hd : Faultless d)
    (hdir : FileChain v d.bytes cwd dir)
    (h : fat32ReadFile v cwd name buffer size d=some (n,buffer',d')) : d'=d := by
  obtain ⟨⟨r,entry⟩,hfind⟩ := findEntry_disk hv hd hdir name
  rw [fat32ReadFile,hfind] at h
  cases entry with
  | none =>
    simp only [Option.some.injEq,Prod.mk.injEq] at h
    exact h.2.2.symm
  | some e =>
    dsimp only at h
    split at h
    · simp only [Option.some.injEq,Prod.mk.injEq] at h
      exact h.2.2.symm
    split at h
    · simp only [Option.some.injEq,Prod.mk.injEq] at h
      exact h.2.2.symm
    · exact readChain_disk hd h

/-- Looking a name up leaves the disk. -/
theorem fat32Stat_disk (hv : Mounted v) {d d' : Disk} {cwd : ℕ} {dir : List ℕ}
    {name : List UInt8} {answer : Option DirEntry} (hd : Faultless d)
    (hdir : FileChain v d.bytes cwd dir) (h : fat32Stat v cwd name d=some (answer,d')) : d'=d := by
  obtain ⟨⟨r,entry⟩,hfind⟩ := findEntry_disk hv hd hdir name
  rw [fat32Stat,hfind] at h
  cases entry with
  | none =>
    simp only [Option.some.injEq,Prod.mk.injEq] at h
    exact h.2.symm
  | some e =>
    dsimp only at h
    split at h
    · simp only [Option.some.injEq,Prod.mk.injEq] at h
      exact h.2.symm
    · simp only [Option.some.injEq,Prod.mk.injEq] at h
      exact h.2.symm

/-- A read leaves the disk. -/
theorem readDescriptor_disk (hv : Mounted v) (hd : Faultless s.disk) {dir : List ℕ}
    (hdir : FileChain v s.disk.bytes s.cwd dir) (h : readDescriptor v s fd count=some r) :
    r.state.disk=s.disk := by
  obtain ⟨n,buffer,d,tmp,hread,hstate | ⟨pos,hstate⟩⟩ := readDescriptor_state h
  · rw [hstate]
    exact fat32ReadFile_disk hv hd hdir hread
  · rw [hstate]
    exact fat32ReadFile_disk hv hd hdir hread

/-- A seek leaves the disk. -/
theorem sysLseek_disk (hv : Mounted v) (hd : Faultless s.disk) {dir : List ℕ}
    (hdir : FileChain v s.disk.bytes s.cwd dir) {n off whence ret : ℤ}
    (h : sysLseek v s n off whence=some (ret,s')) : s'.disk=s.disk := by
  obtain ⟨d,hdisk,hs⟩ := sysLseek_cases h
  have hsame : d=s.disk := by
    rcases hdisk with h | ⟨answer,hstat⟩
    · exact h
    · exact fat32Stat_disk hv hd hdir hstat
  rcases hs with rfl | ⟨_,pos,_,rfl⟩
  · exact hsame
  · exact hsame

/-- Calls that neither free a descriptor nor make its position negative: the counts
of its reads are not negative, and its seeks are forward. -/
def Follows (v : Volume) (fd : ℕ) (s : Kernel) : Request → Prop
  | .openFile _ => True
  | .close a1 => argument a1≠fd
  | .read a1 a3 => argument a1=fd → 0≤argument a3
  | .lseek a1 a2 a3 => argument a1=fd → Forward v s (.lseek a1 a2 a3)
  | .exit => False

/-- A descriptor is in use under a name, at a position that is not negative, over a
disk and a current directory. -/
structure Opened (s : Kernel) (fd : ℕ) (name : Text) (d : Disk) (cwd : ℕ) : Prop where
  /-- Its number can be given out. -/
  number : fd∈numbers
  /-- It is in use. -/
  used : (s.fds fd).used=true
  /-- Its name. -/
  name : (s.fds fd).name=name
  /-- Its position. -/
  pos : (s.fds fd).pos<2^31
  /-- The disk. -/
  disk : s.disk=d
  /-- The current directory. -/
  cwd : s.cwd=cwd

/-- The descriptor's number in a register. -/
theorem Opened.isOpen {d : Disk} {cwd : ℕ} {name : Text} (h : Opened s fd name d cwd) :
    isOpen s fd=true := isOpen_iff.mpr ⟨h.number,h.used⟩

/-- Moving an entry keeps a descriptor when its position stays not negative. -/
theorem Opened.moved {d : Disk} {cwd n : ℕ} {name : Text} (h : Opened s fd name d cwd)
    (hm : Moved s s' n) (hdisk : s'.disk=s.disk) (hpos : n=fd → (s'.fds fd).pos<2^31) :
    Opened s' fd name d cwd := by
  by_cases hn : n=fd
  · subst hn
    exact ⟨h.number,hm.used.trans h.used,hm.name.trans h.name,hpos rfl,hdisk.trans h.disk,
      hm.cwd.trans h.cwd⟩
  · have heq := hm.other fd (Ne.symm hn)
    exact ⟨h.number,(congrArg _ heq).trans h.used,(congrArg _ heq).trans h.name,
      heq ▸ h.pos,hdisk.trans h.disk,hm.cwd.trans h.cwd⟩

/-- Opening takes a number that was not in use, for the stored path at position
zero. -/
theorem sysOpen_cases {path : Text} {ret : ℤ} (h : sysOpen path s=(ret,s')) :
    ret<3 ∧ s'=s ∨ ∃ n, allocFd s=some n ∧ ret=n ∧ s'=s.set n ⟨true,stored path,0⟩ := by
  have hrefused : ∀ answer : ℤ, answer<3 → (answer,s)=(ret,s') → ret<3 ∧ s'=s := by
    rintro answer hlt heq
    obtain ⟨rfl,rfl⟩ := Prod.mk.inj heq
    exact ⟨hlt,rfl⟩
  rw [sysOpen] at h
  split at h
  · exact Or.inl (hrefused _ (by norm_num) h)
  split at h
  · exact Or.inl (hrefused _ (by norm_num) h)
  split at h
  · exact Or.inl (hrefused _ (by norm_num) h)
  split at h
  · exact Or.inl (hrefused _ (by norm_num) h)
  next n hn =>
    simp only [Prod.mk.injEq] at h
    exact Or.inr ⟨n,hn,h.1.symm,h.2.symm⟩

/-- A new descriptor is in use under its path. -/
theorem opened_of_sysOpen {path : Text} (hfd : 3≤fd) (h : sysOpen path s=((fd : ℤ),s')) :
    Opened s' fd (stored path) s.disk s.cwd := by
  rcases sysOpen_cases h with ⟨hlt,_⟩ | ⟨n,hn,hret,rfl⟩
  · omega
  · obtain rfl : fd=n := by omega
    refine ⟨(allocFd_spec hn).1,?_,?_,?_,rfl,rfl⟩
    · rw [set_same]
    · rw [set_same]
    · rw [set_same]
      norm_num

/-- A call that follows a descriptor keeps it. -/
theorem Opened.step (hv : Mounted v) {d : Disk} {cwd : ℕ} {name : Text} (hd : Faultless d)
    {dir : List ℕ} (hdir : FileChain v d.bytes cwd dir) (h : Opened s fd name d cwd)
    (hstep : Step v keyboard (Follows v fd) s s') : Opened s' fd name d cwd := by
  obtain ⟨request,ret,hf,hrun⟩ := hstep
  have hd' : Faultless s.disk := h.disk ▸ hd
  have hdir' : FileChain v s.disk.bytes s.cwd dir := by
    rw [h.disk,h.cwd]
    exact hdir
  have hsame : ∀ n : ℕ, n≠fd → ∀ e, Opened (s.set n e) fd name d cwd := by
    intro n hn e
    have heq : (s.set n e).fds fd=s.fds fd := set_other (Ne.symm hn)
    exact ⟨h.number,(congrArg _ heq).trans h.used,(congrArg _ heq).trans h.name,heq ▸ h.pos,
      h.disk,h.cwd⟩
  cases request with
  | openFile path =>
    rw [Request.perform,Option.some.injEq] at hrun
    rcases sysOpen_cases hrun with ⟨_,rfl⟩ | ⟨n,hn,_,rfl⟩
    · exact h
    · refine hsame n ?_ _
      rintro rfl
      have := (allocFd_spec hn).2
      rw [h.used] at this
      cases this
  | close a1 =>
    simp only [Request.perform,sysClose,Option.some.injEq,Prod.mk.injEq] at hrun
    obtain ⟨_,rfl⟩ := hrun
    rw [closeFd]
    split
    next hin => exact hsame _ (by rw [Follows] at hf; omega) _
    next => exact h
  | read a1 a3 =>
    obtain ⟨r,hread,hr⟩ := Option.map_eq_some_iff.mp hrun
    simp only [Prod.mk.injEq] at hr
    obtain ⟨_,rfl⟩ := hr
    by_cases hopen : Descriptors.isOpen s (argument a1)=true
    · rw [sysRead_descriptor hopen] at hread
      refine h.moved (readDescriptor_moved hread) (readDescriptor_disk hv hd' hdir' hread) ?_
      intro hn
      rw [hn] at hread
      exact (readDescriptor_within h.pos hread).2
    · rw [sysRead,if_neg hopen] at hread
      split at hread
      · rw [Option.some.injEq] at hread
        subst hread
        exact h
      · rw [Option.some.injEq] at hread
        subst hread
        exact h
  | lseek a1 a2 a3 =>
    refine h.moved (sysLseek_moved hrun) (sysLseek_disk hv hd' hdir' hrun) fun hn => ?_
    have hnum := h.number
    rw [numbers,List.mem_range'_1] at hnum
    have hfollow := hf (by omega)
    have := sysLseek_forward hfollow (by rw [hn]; exact h.pos) hrun
    rwa [hn] at this
  | exit => exact hf.elim

/-- A run that follows a descriptor keeps it. -/
theorem Opened.run (hv : Mounted v) {d : Disk} {cwd : ℕ} {name : Text} (hd : Faultless d)
    {dir : List ℕ} (hdir : FileChain v d.bytes cwd dir) (h : Opened s fd name d cwd)
    (hrun : Relation.ReflTransGen (Step v keyboard (Follows v fd)) s s') :
    Opened s' fd name d cwd := by
  induction hrun with
  | refl => exact h
  | tail _ hstep ih => exact ih.step hv hd hdir hstep

/-- A read of a descriptor on a file delivers what the buffer has of the file from the
position on, and goes on by as much. -/
theorem Opened.read (hv : Mounted v) {d : Disk} {cwd : ℕ} {name : Text} (hd : Faultless d)
    {dir nodes : List ℕ} {a size : ℕ} {text : ℕ → UInt8} (h : Opened s fd name d cwd)
    (hfile : FileAt v d.bytes cwd dir (nameTo83 name) a nodes text size) {k : ℕ} (hk : k<2^31) :
    ∃ r, sysRead v keyboard s fd k=some r ∧
      r.ret=(min k (min tmpSize size-(s.fds fd).pos) : ℕ) ∧
      r.data=piece text (s.fds fd).pos (min k (min tmpSize size-(s.fds fd).pos)) ∧
      (r.state.fds fd).pos=(s.fds fd).pos+min k (min tmpSize size-(s.fds fd).pos) ∧
      Opened r.state fd name d cwd := by
  have hfile' : FileAt v s.disk.bytes s.cwd dir (nameTo83 (s.fds fd).name) a nodes text size := by
    rw [h.disk,h.cwd,h.name]
    exact hfile
  obtain ⟨r,hread,hret,hdata,hpos,hdisk⟩ :=
    readDescriptor_file hv (h.disk ▸ hd) hfile' h.pos hk
  rw [sysRead_descriptor h.isOpen,Int.toNat_natCast]
  exact ⟨r,hread,hret,hdata,hpos,h.moved (readDescriptor_moved hread) hdisk fun _ =>
    (readDescriptor_within h.pos hread).2⟩

/-- Read in chunks until nothing is delivered: all that was delivered, once a read
has answered zero. -/
def readUntilZero (v : Volume) (keyboard : ℤ → ℤ×List UInt8) (fd : ℤ) :
    List ℕ → Kernel → Option (List UInt8)
  | [], _ => none
  | count::rest, s =>
    match sysRead v keyboard s fd count with
    | none => none
    | some r => if r.ret=0 then some [] else (readUntilZero v keyboard fd rest r.state).map (r.data++·)

/-- Two pieces one after the other. -/
theorem piece_add (text : ℕ → UInt8) (pos a b : ℕ) :
    piece text pos a++piece text (pos+a) b=piece text pos (a+b) := by
  rw [piece,piece,piece,List.range_add,List.map_append,List.map_map]
  congr 1
  refine List.map_congr_left fun i _ => ?_
  rw [Function.comp_apply,Nat.add_assoc]

/-- Chunks of any sizes deliver what the buffer has of the file from the position on. -/
theorem Opened.readUntilZero (hv : Mounted v) {d : Disk} {cwd : ℕ} {name : Text} (hd : Faultless d)
    {dir nodes : List ℕ} {a size : ℕ} {text : ℕ → UInt8} (h : Opened s fd name d cwd)
    (hfile : FileAt v d.bytes cwd dir (nameTo83 name) a nodes text size) {counts : List ℕ}
    (hcounts : ∀ k∈counts, 0<k ∧ k<2^31) {data : List UInt8}
    (hread : readUntilZero v keyboard fd counts s=some data) :
    data=piece text (s.fds fd).pos (min tmpSize size-(s.fds fd).pos) := by
  induction counts generalizing s data with
  | nil => cases hread
  | cons k rest ih =>
    obtain ⟨hk0,hk⟩ := hcounts k List.mem_cons_self
    obtain ⟨r,hr,hret,hdata,hpos,hnext⟩ := @Opened.read _ keyboard _ _ hv _ _ _ hd _ _ _ _ _ h hfile _ hk
    rw [DescriptorReads.readUntilZero,hr] at hread
    dsimp only at hread
    split at hread
    next hzero =>
      rw [hret] at hzero
      rw [Option.some.injEq] at hread
      rw [← hread,show min tmpSize size-(s.fds fd).pos=0 by omega]
      rfl
    next hzero =>
      obtain ⟨tail,htail,rfl⟩ := Option.map_eq_some_iff.mp hread
      rw [ih hnext (fun k hk => hcounts k (List.mem_cons_of_mem _ hk)) htail,hdata,hpos,piece_add]
      congr 1
      omega

/-- No keyboard. -/
def noKeys : ℤ → ℤ×List UInt8 := fun _ => (0,[])

/-- A table without descriptors over the disk with the empty file `A`. -/
def sampleKernel : Kernel :=
  ⟨sampleDisk,2,fun _ => ⟨false,⟨[],by decide⟩,0⟩,fun _ => 0⟩

/-- The path `A`. -/
def pathA : Text := ⟨[0x41],by decide⟩

/-- Perform calls one after the other. -/
def performAll (v : Volume) (keyboard : ℤ → ℤ×List UInt8) : List Request → Kernel → Option Kernel
  | [], s => some s
  | request::rest, s =>
    match request.perform v keyboard s with
    | none => none
    | some r => performAll v keyboard rest r.2

/-- Calls performed one after the other are a run. -/
theorem performAll_run {ok : Kernel → Request → Prop} {requests : List Request}
    (hok : ∀ s, ∀ request∈requests, ok s request)
    (h : performAll v keyboard requests s=some s') :
    Relation.ReflTransGen (Step v keyboard ok) s s' := by
  induction requests generalizing s with
  | nil =>
    rw [performAll,Option.some.injEq] at h
    rw [h]
  | cons request rest ih =>
    rw [performAll] at h
    cases hcall : request.perform v keyboard s with
    | none =>
      rw [hcall] at h
      cases h
    | some r =>
      rw [hcall] at h
      exact Relation.ReflTransGen.head ⟨request,r.1,hok s request (by simp),hcall⟩
        (ih (fun s request hr => hok s request (by simp [hr])) h)

/-- Opening and reading the empty file. -/
theorem sampleKernel_read_within : ∃ s' r, Relation.ReflTransGen
    (Step sampleVolume noKeys (Forward sampleVolume)) sampleKernel s' ∧
      sysRead sampleVolume noKeys s' (argument 3) (argument 10)=some r ∧
        ∀ i∈r.indices, 0 ≤ i ∧ i<r.filled := by
  have hresult : ((performAll sampleVolume noKeys [.openFile pathA] sampleKernel).bind fun s =>
      sysRead sampleVolume noKeys s (argument 3) (argument 10)).isSome=true := by decide +kernel
  obtain ⟨r,hr⟩ := Option.isSome_iff_exists.mp hresult
  obtain ⟨s',hopen,hread⟩ := Option.bind_eq_some_iff.mp hr
  have hrun := @performAll_run _ _ _ _ (Forward sampleVolume) _ (fun s request hmem => by
    rw [List.mem_singleton.mp hmem]
    trivial) hopen
  exact ⟨s',r,hrun,hread,forward_run_within (fun _ => rfl) hrun 3 10 hread⟩

/-- After a seek to minus one a read takes the byte before the static buffer. -/
theorem negative_seek_not_within : ∃ s' r, Relation.ReflTransGen
    (Step sampleVolume noKeys fun _ _ => True) sampleKernel s' ∧
      sysRead sampleVolume noKeys s' (argument 3) (argument 1)=some r ∧
        ¬∀ i∈r.indices, 0 ≤ i ∧ i<r.filled := by
  have hresult : ((performAll sampleVolume noKeys [.openFile pathA,.lseek 3 0xFFFFFFFF 0]
      sampleKernel).bind fun s => (sysRead sampleVolume noKeys s (argument 3) (argument 1)).map
        fun r => r.indices)=some [-1] := by decide +kernel
  obtain ⟨s',hopen,hrest⟩ := Option.bind_eq_some_iff.mp hresult
  obtain ⟨r,hread,hindices⟩ := Option.map_eq_some_iff.mp hrest
  refine ⟨s',r,performAll_run (fun _ _ _ => trivial) hopen,hread,fun h => ?_⟩
  have hbad := (h (-1) (by rw [hindices]; exact List.mem_cons_self)).1
  omega

/-- In every state that calls which follow a descriptor on a file reach, a read delivers
what the file has from the position on if and only if that is nothing or ends within the
static buffer. Reading in chunks from the start delivers the whole file if and only if
the buffer holds it. -/
theorem followed_read (hv : Mounted v) {s0 s1 : Kernel} (hd : Faultless s0.disk) {path : Text}
    {dir nodes : List ℕ} {a size : ℕ} {text : ℕ → UInt8}
    (hfile : FileAt v s0.disk.bytes s0.cwd dir (nameTo83 (stored path)) a nodes text size)
    (hfd : 3≤fd) (hopen : sysOpen path s0=((fd : ℤ),s1))
    (hrun : Relation.ReflTransGen (Step v keyboard (Follows v fd)) s1 s) :
    (∀ a3 : UInt64, 0≤argument a3 → ∃ r, sysRead v keyboard s fd (argument a3)=some r ∧
      ((r.ret=(min (argument a3).toNat (size-(s.fds fd).pos) : ℕ) ∧
        r.data=piece text (s.fds fd).pos (min (argument a3).toNat (size-(s.fds fd).pos)) ∧
        (r.state.fds fd).pos=(s.fds fd).pos+min (argument a3).toNat (size-(s.fds fd).pos)) ↔
      min (argument a3).toNat (size-(s.fds fd).pos)=0 ∨
        (s.fds fd).pos+min (argument a3).toNat (size-(s.fds fd).pos)≤tmpSize)) ∧
    ∀ counts data, (∀ k∈counts, 0<k ∧ k<2^31) → (s.fds fd).pos=0 →
      readUntilZero v keyboard fd counts s=some data → (data=piece text 0 size ↔ size≤tmpSize) := by
  have hat := (opened_of_sysOpen hfd hopen).run hv hd hfile.directory hrun
  refine ⟨fun a3 hcount => ?_,fun counts data hcounts hzero hread => ?_⟩
  · have hrange := toInt_range a3.toNat
    have hk : (argument a3).toNat<2^31 := by
      rw [argument]
      omega
    obtain ⟨r,hread,hret,hdata,hpos,_⟩ := @Opened.read _ keyboard _ _ hv _ _ _ hd _ _ _ _ _ hat hfile _ hk
    rw [Int.toNat_of_nonneg hcount] at hread
    refine ⟨r,hread,?_⟩
    generalize (argument a3).toNat=k at *
    constructor
    · rintro ⟨h,_,_⟩
      omega
    · intro h
      have hsame : min k (min tmpSize size-(s.fds fd).pos)=min k (size-(s.fds fd).pos) := by omega
      rw [hsame] at hret hdata hpos
      exact ⟨hret,hdata,hpos⟩
  · have hdata := hat.readUntilZero hv hd hfile hcounts hread
    rw [hzero,Nat.sub_zero] at hdata
    have hlen : data.length=min tmpSize size := by
      rw [hdata,piece,List.length_map,List.length_range]
    constructor
    · intro h
      rw [h,piece,List.length_map,List.length_range] at hlen
      omega
    · intro h
      rw [hdata,Nat.min_eq_right h]

/-- A volume of eight clusters with sixteen sectors each. -/
def wideVolume : Volume where
  sectorsPerCluster := 16
  fatStartSector := 1
  sectorsPerFat32 := 1
  firstDataSector := 2
  totalSectors32 := 130
  rootCluster := 2
  sectorsPerCluster_lt := by norm_num
  fatStartSector_lt := sampleVolume.fatStartSector_lt
  sectorsPerFat32_lt := sampleVolume.sectorsPerFat32_lt
  firstDataSector_lt := sampleVolume.firstDataSector_lt
  totalSectors32_lt := by norm_num
  rootCluster_lt := sampleVolume.rootCluster_lt

/-- The wide volume is well-formed and within reach of the driver. -/
theorem wideVolume_mounted : Mounted wideVolume where
  cluster_pos := by decide
  data_le := by decide
  links := by decide +kernel
  apart := by decide
  addressed := by
    simp only [Addressed,wideVolume,addressable]
    norm_num

/-- A disk whose root directory has one file of 4097 bytes, under the name `A`. -/
def wideDisk : Disk :=
  ⟨copyRange (storeBytes (storeBytes (fun _ => 0) 520 4 endMark) 524 4 endMark) 1024 32
    fun i => ([0x41,0x20,0x20,0x20,0x20,0x20,0x20,0x20,0x20,0x20,0x20,0x20,0,0,0,0,0,0,0,0,0,0,
      0,0,0,0,3,0,1,0x10,0,0] : List UInt8).getD i 0,fun _ _ _ => false⟩

/-- A table without descriptors over the wide disk. -/
def wideKernel : Kernel := ⟨wideDisk,2,fun _ => ⟨false,⟨[],by decide⟩,0⟩,fun _ => 0⟩

/-- The state after the file on the wide disk was opened. -/
def wideOpened : Kernel := wideKernel.set 3 ⟨true,stored pathA,0⟩

/-- The first number is given out. -/
theorem wideKernel_open : sysOpen pathA wideKernel=(((3 : ℕ) : ℤ),wideOpened) := rfl

/-- The text of the file on the wide disk. -/
def wideText (i : ℕ) : UInt8 := wideDisk.bytes (dataAddr wideVolume 3+i)

/-- The file on the wide disk. -/
theorem wideDisk_file : FileAt wideVolume wideDisk.bytes 2 [2] (nameTo83 (stored pathA)) 1024 [3]
    wideText 4097 := by
  have hchain : ∀ c, c=2 ∨ c=3 → FileChain wideVolume wideDisk.bytes c [c] := by
    intro c hc
    have hrange : InRange wideVolume c := by
      rcases hc with rfl | rfl
      · exact ⟨le_rfl,by decide +kernel⟩
      · exact ⟨by omega,by decide +kernel⟩
    have hlink : link wideVolume wideDisk.bytes c=endMark := by
      rcases hc with rfl | rfl <;> decide +kernel
    refine (fileChain_cons wideVolume_mounted).mpr ⟨rfl,hrange,fileChain_nil.mpr ?_⟩
    rw [hlink]
    norm_num
  have hfirst : firstClusterOf (entryAt wideDisk.bytes 1024)=3 := by decide +kernel
  refine ⟨hchain 2 (Or.inl rfl),⟨by decide +kernel,by decide +kernel⟩,?_,by decide,
    by decide +kernel,fun i hi => ⟨3,?_,?_⟩⟩
  · rw [hfirst]
    exact Or.inr ⟨by omega,List.cons_ne_nil _ _,hchain 3 (Or.inr rfl)⟩
  · have hbytes : clusterBytes wideVolume=8192 := rfl
    rw [hbytes,Nat.div_eq_of_lt (by omega)]
    rfl
  · have hbytes : clusterBytes wideVolume=8192 := rfl
    rw [hbytes,Nat.mod_eq_of_lt (by omega)]
    rfl

/-- The first ten bytes of the file are read. -/
theorem wideKernel_read : ∃ r, sysRead wideVolume noKeys wideOpened (3 : ℕ) (argument 10)=some r ∧
    r.ret=10 ∧ r.data=piece wideText 0 10 := by
  obtain ⟨r,hread,hiff⟩ := (followed_read wideVolume_mounted (show Faultless wideKernel.disk from rfl)
    wideDisk_file le_rfl wideKernel_open Relation.ReflTransGen.refl).1 10 (by decide)
  have hzero : (wideOpened.fds 3).pos=0 := by
    rw [wideOpened,set_same]
  rw [hzero] at hiff
  obtain ⟨hret,hdata,_⟩ := hiff.mpr (by decide)
  exact ⟨r,hread,hret,hdata⟩

/-- At the last byte of the file, at position 4096, a read delivers nothing. -/
theorem wideKernel_read_short : ∃ s r, sysOpen pathA wideKernel=(((3 : ℕ) : ℤ),wideOpened) ∧
    Relation.ReflTransGen (Step wideVolume noKeys (Follows wideVolume 3)) wideOpened s ∧
      (s.fds 3).pos=4096 ∧ sysRead wideVolume noKeys s (3 : ℕ) (argument 1)=some r ∧
        r.ret≠(min (argument 1).toNat (4097-(s.fds 3).pos) : ℕ) := by
  have hrun : Relation.ReflTransGen (Step wideVolume noKeys (Follows wideVolume 3)) wideOpened
      (wideOpened.set 3 ⟨true,stored pathA,4096⟩) :=
    Relation.ReflTransGen.single ⟨.lseek 3 4096 0,4096,fun _ _ =>
      ⟨fun _ => by decide,fun h => absurd h (by decide),fun h => absurd h (by decide)⟩,rfl⟩
  have hat := (opened_of_sysOpen le_rfl wideKernel_open).run wideVolume_mounted
    (show Faultless wideKernel.disk from rfl) wideDisk_file.directory hrun
  obtain ⟨r,hread,hret,_⟩ := hat.read (k := 1) wideVolume_mounted
    (show Faultless wideKernel.disk from rfl) wideDisk_file (by norm_num)
  refine ⟨_,r,wideKernel_open,hrun,by rw [set_same],hread,?_⟩
  rw [hret,set_same]
  decide

end OvsbMk.DescriptorReads
