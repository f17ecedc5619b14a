import OvsbMk.DescriptorReads

/-!
# Writes through descriptors

A write replaces the whole file and ignores the position, so after several writes the
file holds the last one. A negative length becomes a large one for the file system: the
call fails, but not before it has filled the volume from the caller's memory.
-/

namespace OvsbMk.DescriptorWrites

open ByteMemory BlockDisk Fat32 Chains FatTable FatData FatDirectory FatFiles FatEntries FatChanges
  FatFaults FatOperations FatSteps Descriptors DescriptorReads

variable {v : Volume} {d : Disk} {m m' : Bytes} {cwd a c size : ℕ} {nodes rest dir free : List ℕ}
  {name : List UInt8} {text : ℕ → UInt8}

/-- A write would leave the clusters of a file as they are: they hold the bytes as far
as they go, and if more are needed none is free. -/
def Settled (v : Volume) (m : Bytes) (nodes : List ℕ) (text : ℕ → UInt8) (size : ℕ) : Prop :=
  (nodes.length*clusterBytes v<size → ∀ x, InRange v x → link v m x≠0) ∧
    Holds v m nodes text (min size (nodes.length*clusterBytes v))

/-- One cluster is enough. -/
theorem settled_single (hsize : size≤clusterBytes v) :
    Settled v m (c::rest) text size ↔ ∀ i, i<size → m (dataAddr v c+i)=text i := by
  have hlen : clusterBytes v≤(c::rest).length*clusterBytes v :=
    Nat.le_mul_of_pos_left _ (by simp)
  rw [Settled,Nat.min_eq_left (by omega)]
  constructor
  · intro h i hi
    exact Holds.head h.2 hi (by omega)
  · intro h
    exact ⟨fun hlt => by omega,holds_single hsize h⟩

/-- A full cluster and the others. -/
theorem settled_cons (hv : Mounted v) (hsize : clusterBytes v<size) :
    Settled v m (c::rest) text size ↔ (∀ i, i<clusterBytes v → m (dataAddr v c+i)=text i) ∧
      Settled v m rest (fun i => text (clusterBytes v+i)) (size-clusterBytes v) := by
  have hlen : (c::rest).length*clusterBytes v=clusterBytes v+rest.length*clusterBytes v := by
    rw [List.length_cons,Nat.succ_mul,Nat.add_comm]
  have hmin : min size (clusterBytes v+rest.length*clusterBytes v)=
      clusterBytes v+min (size-clusterBytes v) (rest.length*clusterBytes v) := by omega
  rw [Settled,Settled,hlen,hmin]
  constructor
  · rintro ⟨h1,h2⟩
    exact ⟨fun i hi => Holds.head h2 (by omega) hi,fun hlt => h1 (by omega),Holds.tail hv h2⟩
  · rintro ⟨h1,h2,h3⟩
    exact ⟨fun hlt => h2 (by omega),holds_cons hv h1 h3⟩

/-- Storing what is there changes nothing. -/
theorem copyRange_same {memory source : Bytes} {address count : ℕ} :
    copyRange memory address count source=memory ↔
      ∀ i, i<count → memory (address+i)=source i := by
  constructor
  · intro h i hi
    rw [← @copyRange_inside memory source address _ _ hi,h]
  · intro h
    funext x
    by_cases hx : x<address ∨ address+count≤x
    · exact copyRange_outside hx
    · obtain ⟨i,rfl⟩ := Nat.exists_eq_add_of_le (show address≤x by omega)
      rw [copyRange_inside (by omega),h i (by omega)]

/-- The write loop leaves the disk as it is if and only if the clusters are settled. -/
theorem writeChain_settled (hv : Mounted v) (buffer : Bytes) {fuel cluster : ℕ} (offset : ℕ)
    (hd : Faultless d) (hchain : FileChain v d.bytes cluster (cluster::rest)) (hpos : 0<size)
    (hfuel : size≤fuel) {r : ℤ} {d' : Disk}
    (h : writeChain v buffer fuel cluster offset size d=some (r,d')) :
    d'.bytes=d.bytes ↔ Settled v d.bytes (cluster::rest) (fun i => buffer (offset+i)) size := by
  induction fuel generalizing cluster rest offset size d with
  | zero => omega
  | succ fuel ih =>
    obtain ⟨_,hc,_⟩ := (fileChain_cons hv).mp hchain
    have hcb := clusterBytes_pos hv
    by_cases hmore : clusterBytes v<size
    swap
    · rw [writeChain_round hv hd hc buffer fuel offset hpos,if_neg hmore] at h
      simp only [Option.some.injEq,Prod.mk.injEq] at h
      obtain ⟨_,rfl⟩ := h
      rw [with_bytes,copyRange_same,settled_single (by omega)]
    have hsame := @copyRange_same d.bytes (fun i => buffer (offset+i)) (dataAddr v cluster)
      (clusterBytes v)
    have hnil : Settled v d.bytes [] (fun i => buffer (offset+(clusterBytes v+i)))
        (size-clusterBytes v) ↔ ∀ x, InRange v x → link v d.bytes x≠0 := by
      rw [Settled,List.length_nil,Nat.zero_mul,Nat.min_zero]
      exact ⟨fun hs => hs.1 (by omega),fun hs => ⟨fun _ => hs,fun i hi => by omega⟩⟩
    rw [settled_cons hv hmore,← hsame]
    rcases writeChain_more hv hd hchain buffer fuel offset hmore with
      ⟨m2,next,tail,hrun,hadv⟩ | ⟨rfl,hrun,hfull⟩
    · rw [hrun] at h
      have hw := writeChain_wrote hv (hd.with m2) hadv.chain (by omega) (by omega) h
      rw [with_bytes] at hw
      rcases hadv.source with ⟨rfl,hm⟩ | ⟨rfl,rfl,hfr,hfz⟩
      · have hiff := ih (offset+clusterBytes v) (hd.with m2) hadv.chain (by omega) (by omega) h
        have htext : (fun i => buffer (offset+clusterBytes v+i))=
            fun i => buffer (offset+(clusterBytes v+i)) := by
          funext i
          rw [Nat.add_assoc]
        rw [with_bytes,htext] at hiff
        rw [← hm]
        constructor
        · intro heq
          have hm2 : m2=d.bytes := by
            funext x
            by_cases hx : DataByte v cluster x
            · rw [← hadv.kept hv hc hw (Or.inl hx),heq]
            · rw [hm]
              refine copyRange_outside ?_
              rw [DataByte] at hx
              omega
          rw [hm2] at hiff
          exact ⟨hm2,hiff.mp heq⟩
        · rintro ⟨hm2,hsettled⟩
          rw [hm2] at hiff
          exact hiff.mpr hsettled
      · rw [hnil]
        constructor
        · intro heq
          rw [heq] at hw
          refine (grows_used hw.grows hfr ?_ hfz).elim
          exact hadv.chain.link_ne_zero hv List.mem_cons_self
        · rintro ⟨_,hfull⟩
          exact (hfull next hfr hfz).elim
    · rw [hrun] at h
      simp only [Option.some.injEq,Prod.mk.injEq] at h
      obtain ⟨_,rfl⟩ := h
      rw [hnil,with_bytes]
      exact ⟨fun heq => ⟨heq,hfull⟩,fun heq => heq.1⟩

/-- The write loop answers a number below zero for a length with the sign bit. -/
theorem writeChain_negative (hv : Mounted v) (hd : Faultless d) (buffer : Bytes)
    (hchain : FileChain v d.bytes c (c::rest)) (hlow : 2^31 ≤ size) (hsize : size<2^32) :
    ∃ k m2, writeChain v buffer transferRounds c 0 size d=some (k,d.with m2) ∧ k<0 ∧
      Wrote v d.bytes m2 (c::rest) := by
  obtain ⟨m2,hw,hret⟩ := writeChain_outcome hv buffer 0 hd hchain (show 0<size by omega)
    (show size≤transferRounds from hsize.le)
  rcases hret with ⟨h,_⟩ | ⟨h,_⟩
  · refine ⟨_,m2,h,?_,hw⟩
    rw [toInt]
    split <;> omega
  · exact ⟨_,m2,h,by norm_num,hw⟩

/-- A length with the sign bit never is written with success, and the disk stays as it
is if and only if the file's clusters are settled. -/
theorem fat32WriteFile_settled (hv : Mounted v) (hd : Faultless d)
    (hdir : FileChain v d.bytes cwd dir) (hres : Resolves v d.bytes dir (nameTo83 name) a)
    (hnodes : HasChain v d.bytes (firstClusterOf (entryAt d.bytes a)) nodes)
    (hlow : 2^31 ≤ size) (hsize : size<2^32) (buffer : Bytes) :
    ∃ r m2, fat32WriteFile v cwd name buffer size d=some (r,d.with m2) ∧ r<0 ∧
      (m2=d.bytes ↔ Settled v d.bytes nodes buffer size) := by
  obtain ⟨r,hr,hfind⟩ := Resolves.findEntry hv hd hdir hres
  have hempty : ∀ x, Settled v d.bytes [] x size ↔ ∀ y, InRange v y → link v d.bytes y≠0 := by
    intro x
    rw [Settled,List.length_nil,Nat.zero_mul,Nat.min_zero]
    exact ⟨fun hs => hs.1 (by omega),fun hs => ⟨fun _ => hs,fun i hi => by omega⟩⟩
  have hnil : firstClusterOf (entryAt d.bytes a)=0 → nodes=[] := by
    intro hz
    rcases hnodes with ⟨_,h⟩ | ⟨h,_⟩
    · exact h
    · exact (h hz).elim
  rw [fat32WriteFile,hfind]
  dsimp only
  rw [if_neg (by omega)]
  rcases startCluster_cases hv hd (entryAt d.bytes a) with
    ⟨hz,free,hstart,hfr,hfz⟩ | ⟨hz,hstart,hnone⟩ | ⟨hne,hstart⟩
  · obtain ⟨_,hchain⟩ := wrote_fresh hv [] hfr hfz
    obtain ⟨k,m2,hwrite,hk,hw⟩ := writeChain_negative hv
      (hd.with (setLink v d.bytes free endMark)) buffer hchain hlow hsize
    rw [hstart]
    dsimp only
    rw [hwrite,with_with]
    dsimp only
    rw [if_pos hk,hnil hz,hempty]
    refine ⟨k,m2,rfl,hk,fun heq => ?_,fun hfull => (hfull free hfr hfz).elim⟩
    have hused : link v m2 free≠0 := by
      refine grows_used hw.grows hfr ?_
      rw [with_bytes,link_setLink_same]
      norm_num
    rw [heq] at hused
    exact (hused hfz).elim
  · rw [hstart,hnil hz,hempty]
    exact ⟨-1,d.bytes,rfl,by norm_num,fun _ => hnone,fun _ => rfl⟩
  · rw [hstart]
    dsimp only
    rcases hnodes with ⟨h,_⟩ | ⟨_,hne',hchain⟩
    · exact (hne h).elim
    obtain ⟨x,rest,rfl⟩ := List.exists_cons_of_ne_nil hne'
    obtain ⟨rfl,_⟩ := (fileChain_cons hv).mp hchain
    obtain ⟨k,m2,hwrite,hk,_⟩ := writeChain_negative hv hd buffer hchain hlow hsize
    have hiff := writeChain_settled hv buffer 0 hd hchain (by omega) hsize.le hwrite
    rw [with_bytes] at hiff
    simp only [Nat.zero_add] at hiff
    rw [hwrite]
    dsimp only
    rw [if_pos hk]
    exact ⟨k,m2,rfl,hk,hiff⟩

/-- There is room for a file: free clusters that suffice together with its own. -/
structure Room (v : Volume) (m : Bytes) (nodes free : List ℕ) (size : ℕ) : Prop where
  /-- The clusters are different. -/
  nodup : free.Nodup
  /-- They are free. -/
  fresh : ∀ x∈free, InRange v x ∧ link v m x=0
  /-- They suffice. -/
  enough : size≤(nodes.length+free.length)*clusterBytes v

/-- Clusters that are in use after a file has grown are among the new ones. -/
theorem Grown.used {added : List ℕ} (hv : Mounted v) (h : Grown v m m' nodes added)
    (hnodes : ∀ x∈nodes, link v m x≠0) {x : ℕ} (hx : InRange v x) (hz : link v m x=0)
    (hused : link v m' x≠0) : x∈added := by
  by_contra hn
  refine hused ((h.link_eq hv hx fun hmem => ?_).trans hz)
  rcases List.mem_append.mp hmem with hmem | hmem
  · exact hnodes x hmem hz
  · exact hn hmem

/-- The clusters of a file are in use. -/
theorem HasChain.used (hv : Mounted v) {first : ℕ} (h : HasChain v m first nodes) :
    ∀ x∈nodes, link v m x≠0 := by
  intro x hx
  rcases h with ⟨_,rfl⟩ | ⟨_,_,hchain⟩
  · cases hx
  · exact hchain.link_ne_zero hv hx

/-- When a file did not get the clusters it needs, there was no room for it. -/
theorem Room.grown (hv : Mounted v) (hroom : Room v m nodes free size) {added : List ℕ}
    (hgrown : Grown v m m' nodes added) (hnodes : ∀ x∈nodes, link v m x≠0)
    (hfull : ∀ x, InRange v x → link v m' x≠0) :
    size≤(nodes++added).length*clusterBytes v := by
  have hsub : free⊆added := fun x hx =>
    Grown.used hv hgrown hnodes (hroom.fresh x hx).1 (hroom.fresh x hx).2
      (hfull x (hroom.fresh x hx).1)
  have hlen : free.length≤added.length := (hroom.nodup.subperm hsub).length_le
  have hmul : (nodes.length+free.length)*clusterBytes v≤(nodes++added).length*clusterBytes v := by
    rw [List.length_append]
    exact Nat.mul_le_mul_right _ (by omega)
  exact hroom.enough.trans hmul

/-- With room a file is written as a whole: its chain grows and its entry is updated. -/
theorem write_room (hv : Mounted v) (hd : Faultless d) (hdir : FileChain v d.bytes cwd dir)
    (hres : Resolves v d.bytes dir (nameTo83 name) a)
    (hnodes : HasChain v d.bytes (firstClusterOf (entryAt d.bytes a)) nodes)
    (hapart : ∀ x∈nodes, x∉dir) (hsize : size<2^31) (hroom : Room v d.bytes nodes free size)
    (hsome : nodes≠[] ∨ free≠[]) (buffer : Bytes) :
    ∃ m2 f added, Stored v d.bytes m2 nodes added (firstClusterOf (entryAt d.bytes a)) f ∧
      fat32WriteFile v cwd name buffer size d=
        some ((size : ℤ),d.with (updatedEntry f size m2 a)) := by
  obtain ⟨r,hr,hfind⟩ := Resolves.findEntry hv hd hdir hres
  have hused := HasChain.used hv hnodes
  rcases store_outcome hv (sparesTable_of_faultless hd) buffer hnodes
    (show size<2^32 by omega) with
    ⟨d',hstart,_⟩ | ⟨f,d1,k,d2,added,hstart,hwrite,hl,hstored,hk⟩
  · exfalso
    rcases startCluster_cases hv hd (entryAt d.bytes a) with
      ⟨_,x,h,_⟩ | ⟨hz,_,hnone⟩ | ⟨_,h⟩
    · rw [h] at hstart
      cases hstart
    · rcases hsome with h | h
      · rcases hnodes with ⟨_,hnil⟩ | ⟨hne,_⟩
        · exact h hnil
        · exact hne hz
      · obtain ⟨x,hx⟩ := List.exists_mem_of_ne_nil free h
        exact hnone x (hroom.fresh x hx).1 (hroom.fresh x hx).2
    · rw [h] at hstart
      cases hstart
  have hlen : k=size := by
    rcases hk with rfl | ⟨_,hfail | hbig | ⟨hfull,hlt⟩⟩
    · exact toInt_of_lt hsize
    · obtain ⟨write,lba,n,hfail⟩ := hfail
      rw [hd] at hfail
      cases hfail
    · omega
    · have := hroom.grown hv hstored.grown hused hfull
      omega
  have hd2 : d2=d.with d2.bytes := hl.eq_with hd
  obtain ⟨hdir2,hres2,_⟩ := Grown.resolves hv hdir hstored.grown hapart hres
  refine ⟨d2.bytes,f,added,hstored,?_⟩
  rw [hlen] at hwrite
  rw [fat32WriteFile_stored hfind (by omega) hstart hwrite (Int.natCast_nonneg _)]
  generalize d2.bytes=m2 at *
  rw [hd2,update_eq hv (hd.with m2) hdir2 hres2,with_bytes,with_with]
  rfl

/-- A chain is determined by its start. -/
theorem fileChain_unique {start : ℕ} {other : List ℕ} (h : FileChain v m start nodes)
    (h' : FileChain v m start other) : nodes=other := h.chain.unique h'.chain

/-- After a write there is room for what there was room for. -/
theorem write_keeps_room (hv : Mounted v) (hd : Faultless d)
    (hfile : FileAt v d.bytes cwd dir (nameTo83 name) a nodes text size) {n total : ℕ}
    (hn : n<2^31) (hroom : Room v d.bytes nodes free n) (htotal : Room v d.bytes nodes free total)
    (hsome : nodes≠[] ∨ free≠[]) (buffer : Bytes) :
    ∃ m3 added free', fat32WriteFile v cwd name buffer n d=some ((n : ℤ),d.with m3) ∧
      FileAt v m3 cwd dir (nameTo83 name) a (nodes++added) buffer n ∧ nodes++added≠[] ∧
      Room v m3 (nodes++added) free' total := by
  obtain ⟨m2,f,added,hstored,hwrite⟩ := write_room hv hd hfile.directory hfile.found hfile.chain
    hfile.apart hn hroom hsome buffer
  obtain ⟨m3,added',hm3,hadd,hfile3⟩ := write_fileAt hv hd hfile.directory hfile.found hfile.chain
    hfile.apart hn buffer hwrite
  have hm3' := with_inj hm3
  have hlinks : ∀ x, InRange v x → link v m3 x=link v m2 x := by
    intro x hx
    rw [← hm3']
    refine link_congr fun b hb => updated_outside hfile.found.mem fun c hc => ?_
    exact hv.link_not_data hx.2 (hfile.directory.inRange c hc) hb
  have hfr : InRange v f := by
    obtain ⟨x,l,hl⟩ := List.exists_cons_of_ne_nil hstored.nonempty
    have hchain := hstored.chain
    rw [hl] at hchain
    obtain ⟨rfl,hfr,_⟩ := (fileChain_cons hv).mp hchain
    exact hfr
  have hf32 : f<2^32 := by
    have := FatTree.inRange_lt hv hfr
    omega
  have hsame : nodes++added'=nodes++added := by
    have hchain : FileChain v m3 f (nodes++added) :=
      hstored.chain.congr fun x hx => hlinks x (hstored.chain.inRange x hx)
    have hchain3 := hfile3.chain
    rw [← hm3',(entryAt_updated hf32 hn).1,hm3'] at hchain3
    rcases hchain3 with ⟨hz,_⟩ | ⟨_,_,hchain3⟩
    · have := hfr.1
      omega
    · exact fileChain_unique hchain3 hchain
  rw [hsame] at hfile3
  refine ⟨m3,added,free.filter (·∉added),by rw [hwrite,hm3],hfile3,hstored.nonempty,?_,?_,?_⟩
  · exact htotal.nodup.filter _
  · intro x hx
    obtain ⟨hx1,hx2⟩ := List.mem_filter.mp hx
    obtain ⟨hxr,hxz⟩ := htotal.fresh x hx1
    refine ⟨hxr,?_⟩
    rw [hlinks x hxr]
    by_contra hused
    have hmem := Grown.used hv hstored.grown (HasChain.used hv hfile.chain) hxr hxz hused
    simp [hmem] at hx2
  · have hsplit := List.length_eq_length_filter_add (l := free) (·∈added)
    have hsub : (free.filter (·∈added)).length≤added.length :=
      ((htotal.nodup.filter _).subperm fun x hx => by simpa using (List.mem_filter.mp hx).2).length_le
    have hnot : free.filter (fun x => !decide (x∈added))=free.filter (·∉added) :=
      List.filter_congr fun x _ => by simp
    rw [hnot] at hsplit
    refine htotal.enough.trans (Nat.mul_le_mul_right _ ?_)
    rw [List.length_append]
    omega

/-- A call to `SYS_write`: the caller's memory from its pointer on, and the length. -/
structure WriteCall where
  /-- Memory from the pointer on. -/
  buffer : Bytes
  /-- Length. -/
  count : ℕ

/-- The byte string that is written. -/
def WriteCall.bytes (w : WriteCall) : List UInt8 := piece w.buffer 0 w.count

/-- Write one after the other: the results and the state afterwards. -/
def writeAll (v : Volume) (fd : ℤ) : List WriteCall → Kernel → Option (List ℤ×Kernel)
  | [], s => some ([],s)
  | w::rest, s =>
    match sysWrite v s fd w.buffer w.count with
    | none => none
    | some (r,s) => (writeAll v fd rest s).map fun p => (r::p.1,p.2)

/-- What reading a whole file delivers. -/
def contents (v : Volume) (s : Kernel) (name : List UInt8) : Option (List UInt8) :=
  (fat32ReadFile v s.cwd name (fun _ => 0) (2^31-1) s.disk).map fun r => piece r.2.1 0 r.1.toNat

variable {s s' : Kernel} {fd : ℕ} {path : Text} {w : WriteCall} {calls : List WriteCall}

/-- Reading a whole file delivers its text. -/
theorem contents_eq (hv : Mounted v) (hd : Faultless d) (h : Opened s fd path d cwd)
    (hfile : FileAt v d.bytes cwd dir (nameTo83 path) a nodes text size) (hsize : size<2^31) :
    contents v s path=some (piece text 0 size) := by
  have hmin : min (2^31-1) size=size := by omega
  have hread := FileAt.read hv hd hfile (fun _ => 0) (k := 2^31-1) (by omega)
  rw [hmin] at hread
  rw [contents,h.cwd,h.disk,hread,Option.map_some,Int.toNat_natCast]
  refine congrArg some (List.map_congr_left fun i hi => ?_)
  rw [Nat.zero_add]
  have h := @copyRange_inside (fun _ => 0) text 0 size i (List.mem_range.mp hi)
  rwa [Nat.zero_add] at h

/-- The descriptor over another disk. -/
theorem opened_stored {d' : Disk} (h : Opened s fd path d cwd) :
    Opened { s with disk := d' } fd path d' cwd :=
  ⟨h.number,h.used,h.name,h.pos,rfl,h.cwd⟩

/-- What a write through a descriptor answers. -/
theorem sysWrite_eq (h : Opened s fd path d cwd) {buffer : Bytes} {count r : ℤ} {d' : Disk}
    (hwrite : fat32WriteFile v cwd path buffer (count%2^32).toNat d=some (r,d')) :
    sysWrite v s fd buffer count=some (if 0≤r then count else -1,{ s with disk := d' }) := by
  rw [sysWrite,if_pos h.isOpen,Int.toNat_natCast,h.cwd,h.name,h.disk,hwrite]

/-- With room all writes through a descriptor answer their lengths, and the last one
stays. -/
theorem writeAll_eq (hv : Mounted v) (hd : Faultless d) (h : Opened s fd path d cwd)
    (hfile : FileAt v d.bytes cwd dir (nameTo83 path) a nodes text size) (hsize : size<2^31)
    {total : ℕ} (hcalls : ∀ w∈calls, w.count<2^31 ∧ w.count≤total)
    (hroom : Room v d.bytes nodes free total) (hsome : nodes≠[] ∨ free≠[]) :
    ∃ s' m3 nodes' text' size', writeAll v fd calls s=some (calls.map fun w => (w.count : ℤ),s') ∧
      Opened s' fd path (d.with m3) cwd ∧
      FileAt v m3 cwd dir (nameTo83 path) a nodes' text' size' ∧ size'<2^31 ∧
      piece text' 0 size'=(calls.getLast?.map WriteCall.bytes).getD (piece text 0 size) := by
  induction calls generalizing s d nodes free text size with
  | nil => exact ⟨s,d.bytes,nodes,text,size,rfl,h,hfile,hsize,rfl⟩
  | cons w rest ih =>
    obtain ⟨hw,hwt⟩ := hcalls w List.mem_cons_self
    obtain ⟨m1,added,free',hwrite,hfile1,hne,hroom1⟩ := write_keeps_room hv hd hfile hw
      ⟨hroom.nodup,hroom.fresh,hwt.trans hroom.enough⟩ hroom hsome w.buffer
    have hmod : ((w.count : ℤ)%2^32).toNat=w.count := by omega
    have hcall := sysWrite_eq (v := v) (r := (w.count : ℤ)) h
      (by rw [hmod]; exact hwrite)
    rw [if_pos (by omega)] at hcall
    obtain ⟨s',m3,nodes',text',size',hrest,hopen,hfile3,hsize3,htext⟩ := ih (hd.with m1) (opened_stored h)
      (by rw [with_bytes]; exact hfile1) hw (fun w hw => hcalls w (List.mem_cons_of_mem _ hw))
      (by rw [with_bytes]; exact hroom1) (Or.inl hne)
    rw [with_with] at hopen
    refine ⟨s',m3,nodes',text',size',?_,hopen,hfile3,hsize3,?_⟩
    · rw [writeAll,hcall]
      dsimp only
      rw [hrest]
      rfl
    · rw [htext]
      cases rest with
      | nil => rfl
      | cons x tail => rw [List.getLast?_cons_cons,List.getLast?_cons]; rfl

/-- A write to a file without clusters fails when no cluster is free. -/
theorem sysWrite_no_cluster (hv : Mounted v) (hd : Faultless d) (h : Opened s fd path d cwd)
    (hfile : FileAt v d.bytes cwd dir (nameTo83 path) a [] text size)
    (hfull : ∀ x, InRange v x → link v d.bytes x≠0) (buffer : Bytes) (count : ℤ) :
    sysWrite v s fd buffer count=some (-1,s) := by
  obtain ⟨r,hr,hfind⟩ := Resolves.findEntry hv hd hfile.directory hfile.found
  have hstart : startCluster v (entryAt d.bytes a) d=(none,d) := by
    rcases startCluster_cases hv hd (entryAt d.bytes a) with
      ⟨_,x,_,hx,hz⟩ | ⟨_,h,_⟩ | ⟨hne,_⟩
    · exact (hfull x hx hz).elim
    · exact h
    · rcases hfile.chain with ⟨hz,_⟩ | ⟨_,hnil,_⟩
      · exact (hne hz).elim
      · exact (hnil rfl).elim
  have hwrite : fat32WriteFile v cwd path buffer (count%2^32).toNat d=some (-1,d) :=
    fat32WriteFile_refused hfind hr hstart
  rw [sysWrite_eq h hwrite,if_neg (by norm_num),← h.disk]

/-- Writes that all fail leave the state. -/
theorem writeAll_failed (hfail : ∀ w∈calls, sysWrite v s fd w.buffer w.count=some (-1,s)) :
    writeAll v fd calls s=some (calls.map fun _ => -1,s) := by
  induction calls with
  | nil => rfl
  | cons w rest ih =>
    rw [writeAll,hfail w List.mem_cons_self]
    dsimp only
    rw [ih fun w hw => hfail w (List.mem_cons_of_mem _ hw)]
    rfl

/-- A write of a negative length fails, and leaves the disk if and only if the file's
clusters are settled. -/
theorem sysWrite_negative (hv : Mounted v) (hd : Faultless d) (h : Opened s fd path d cwd)
    (hfile : FileAt v d.bytes cwd dir (nameTo83 path) a nodes text size) {count : ℤ}
    (hlow : -2^31≤count) (hneg : count<0) (buffer : Bytes) :
    ∃ d', sysWrite v s fd buffer count=some (-1,{ s with disk := d' }) ∧
      (d'=s.disk ↔ Settled v s.disk.bytes nodes buffer (count%2^32).toNat) := by
  obtain ⟨r,m2,hwrite,hr,hiff⟩ := fat32WriteFile_settled hv hd hfile.directory hfile.found
    hfile.chain (show 2^31≤(count%2^32).toNat by omega) (by omega) buffer
  refine ⟨d.with m2,?_,?_⟩
  · rw [sysWrite_eq h hwrite,if_neg (by omega)]
  · rw [h.disk,← hiff]
    constructor
    · intro heq
      have := congrArg Disk.bytes heq
      rwa [with_bytes] at this
    · intro heq
      rw [heq]
      rfl

/-- All strings together are the last one if and only if the others are empty. -/
theorem flatten_eq_last (hne : calls≠[]) (default : List UInt8) :
    (calls.map WriteCall.bytes).flatten=(calls.getLast?.map WriteCall.bytes).getD default ↔
      ∀ w∈calls.dropLast, w.count=0 := by
  obtain ⟨front,last,rfl⟩ : ∃ front last, calls=front++[last] :=
    ⟨calls.dropLast,calls.getLast hne,(List.dropLast_append_getLast hne).symm⟩
  have hlen : ∀ w : WriteCall, w.bytes=[] ↔ w.count=0 := by
    intro w
    rw [WriteCall.bytes,piece,List.map_eq_nil_iff,List.range_eq_nil]
  rw [List.dropLast_concat,List.getLast?_concat,Option.map_some,Option.getD_some,List.map_append,
    List.flatten_append,List.map_singleton,List.flatten_singleton,List.append_left_eq_self,
    List.flatten_eq_nil_iff]
  constructor
  · intro h w hw
    exact (hlen w).mp (h _ (List.mem_map_of_mem hw))
  · intro h l hl
    obtain ⟨w,hw,rfl⟩ := List.mem_map.mp hl
    exact (hlen w).mpr (h w hw)

/-- Writes through a new descriptor on an empty file answer their lengths and leave all
strings together if and only if the strings before the last one are empty, provided the
file has a cluster or can get one. After any writes a write of a negative length fails,
and it leaves the disk if and only if the clusters that the file then has are settled. -/
theorem writes_accumulate_iff (hv : Mounted v) {s0 : Kernel} (hd : Faultless s0.disk)
    (hfile : FileAt v s0.disk.bytes s0.cwd dir (nameTo83 (stored path)) a nodes text 0)
    (hfd : 3≤fd) (hopen : sysOpen path s0=((fd : ℤ),s)) (hcalls : ∀ w∈calls, w.count<2^31)
    (hroom : Room v s0.disk.bytes nodes free (calls.map WriteCall.count).sum) :
    ((∃ s', writeAll v fd calls s=some (calls.map fun w => (w.count : ℤ),s') ∧
        contents v s' (stored path)=some (calls.map WriteCall.bytes).flatten) ↔
      (calls=[] ∨ nodes≠[] ∨ ∃ x, InRange v x ∧ link v s0.disk.bytes x=0) ∧
        ∀ w∈calls.dropLast, w.count=0) ∧
    ∃ results s' nodes' text' size', writeAll v fd calls s=some (results,s') ∧
      FileAt v s'.disk.bytes s'.cwd dir (nameTo83 (stored path)) a nodes' text' size' ∧
      ∀ (buffer : Bytes) (count : ℤ), -2^31≤count → count<0 →
        ∃ d', sysWrite v s' fd buffer count=some (-1,{ s' with disk := d' }) ∧
          (d'=s'.disk ↔ Settled v s'.disk.bytes nodes' buffer (count%2^32).toNat) := by
  have hat := opened_of_sysOpen hfd hopen
  have hall : ∀ w∈calls, w.count<2^31 ∧ w.count≤(calls.map WriteCall.count).sum := fun w hw =>
    ⟨hcalls w hw,List.single_le_sum (fun _ _ => Nat.zero_le _) _ (List.mem_map_of_mem hw)⟩
  by_cases hsome : nodes≠[] ∨ ∃ x, InRange v x ∧ link v s0.disk.bytes x=0
  · obtain ⟨free',hroom',hsome'⟩ : ∃ free', Room v s0.disk.bytes nodes free'
        (calls.map WriteCall.count).sum ∧ (nodes≠[] ∨ free'≠[]) := by
      by_cases hfree : free=[]
      · rcases hsome with h | ⟨x,hx,hz⟩
        · exact ⟨free,hroom,Or.inl h⟩
        · refine ⟨[x],⟨List.nodup_singleton x,?_,hroom.enough.trans ?_⟩,
            Or.inr (List.cons_ne_nil x [])⟩
          · intro y hy
            rw [List.mem_singleton.mp hy]
            exact ⟨hx,hz⟩
          · rw [hfree]
            exact Nat.mul_le_mul_right _ (by simp)
      · exact ⟨free,hroom,Or.inr hfree⟩
    obtain ⟨s',m3,nodes',text',size',hrun,hopen',hfile',hsize',htext⟩ :=
      writeAll_eq hv hd hat hfile (by norm_num) hall hroom' hsome'
    have hfault := hd.with m3
    have hcontents := contents_eq hv hfault hopen' (by rw [with_bytes]; exact hfile') hsize'
    have hfile2 : FileAt v s'.disk.bytes s'.cwd dir (nameTo83 (stored path)) a nodes' text'
        size' := by
      rw [hopen'.disk,hopen'.cwd,with_bytes]
      exact hfile'
    refine ⟨?_,_,s',nodes',text',size',hrun,hfile2,fun buffer count hlow hneg =>
      sysWrite_negative hv hfault hopen' (by rw [with_bytes]; exact hfile') hlow hneg buffer⟩
    have hiff : contents v s' (stored path)=some (calls.map WriteCall.bytes).flatten ↔
        ∀ w∈calls.dropLast, w.count=0 := by
      rw [hcontents,htext,Option.some.injEq,eq_comm]
      by_cases hnil : calls=[]
      · subst hnil
        simp [piece]
      · exact flatten_eq_last hnil _
    constructor
    · rintro ⟨s2,hrun2,hcontents2⟩
      rw [hrun,Option.some.injEq,Prod.mk.injEq] at hrun2
      rw [← hrun2.2] at hcontents2
      exact ⟨Or.inr hsome,hiff.mp hcontents2⟩
    · rintro ⟨_,hempty⟩
      exact ⟨s',hrun,hiff.mpr hempty⟩
  · push Not at hsome
    obtain ⟨rfl,hfull⟩ := hsome
    have hstuck : ∀ (buffer : Bytes) (count : ℤ), sysWrite v s fd buffer count=some (-1,s) :=
      fun buffer count => sysWrite_no_cluster hv hd hat hfile hfull buffer count
    have hrun := @writeAll_failed v s fd calls
      fun w _ => hstuck w.buffer w.count
    have hfile2 : FileAt v s.disk.bytes s.cwd dir (nameTo83 (stored path)) a [] text 0 := by
      rw [hat.disk,hat.cwd]
      exact hfile
    refine ⟨?_,_,s,[],text,0,hrun,hfile2,fun buffer count hlow hneg =>
      sysWrite_negative hv hd hat hfile hlow hneg buffer⟩
    constructor
    · rintro ⟨s2,hrun2,_⟩
      cases calls with
      | nil => exact ⟨Or.inl rfl,fun w hw => by cases hw⟩
      | cons w rest =>
        rw [hrun,Option.some.injEq,Prod.mk.injEq,List.map_cons,List.map_cons,List.cons.injEq] at hrun2
        omega
    · rintro ⟨h | h | ⟨x,hx,hz⟩,_⟩
      · subst h
        exact ⟨s,rfl,contents_eq hv hd hat hfile (by norm_num)⟩
      · exact (h rfl).elim
      · exact (hfull x hx hz).elim

/-- The state after the empty file on the sample disk was opened. -/
def sampleOpened : Kernel := sampleKernel.set 3 ⟨true,stored pathA,0⟩

/-- The first number is given out. -/
theorem sampleKernel_open : sysOpen pathA sampleKernel=(((3 : ℕ) : ℤ),sampleOpened) := rfl

/-- The empty file on the sample disk. -/
theorem sampleDisk_file : FileAt sampleVolume sampleDisk.bytes 2 [2] (nameTo83 (stored pathA)) 1024
    [] (fun _ => 0) 0 :=
  ⟨sampleDisk_root,⟨by decide +kernel,by decide +kernel⟩,Or.inl ⟨by decide +kernel,rfl⟩,
    (fun x hx => by cases hx),by decide +kernel,fun i hi => by omega⟩

/-- The string `a`. -/
def writeA : WriteCall := ⟨fun _ => 0x61,1⟩

/-- The string `b`. -/
def writeB : WriteCall := ⟨fun _ => 0x62,1⟩

/-- There is room for two bytes on the sample disk. -/
theorem sampleDisk_room {total : ℕ} (h : total≤512) :
    Room sampleVolume sampleDisk.bytes [] [3] total := by
  refine ⟨List.nodup_singleton 3,fun x hx => ?_,h⟩
  rw [List.mem_singleton.mp hx]
  exact ⟨⟨by norm_num,by decide +kernel⟩,by decide +kernel⟩

/-- Writing `a` to the empty file. -/
theorem sampleKernel_write : ∃ s', writeAll sampleVolume (3 : ℕ) [writeA] sampleOpened=
    some ([1],s') ∧ contents sampleVolume s' (stored pathA)=some [0x61] :=
  (writes_accumulate_iff sampleVolume_mounted (show Faultless sampleKernel.disk from rfl)
    sampleDisk_file le_rfl sampleKernel_open (show ∀ w∈[writeA], w.count<2^31 by simp [writeA])
    (sampleDisk_room (by decide))).1.mpr
    ⟨Or.inr (Or.inr ⟨3,⟨by norm_num,by decide +kernel⟩,by decide +kernel⟩),fun w hw => by cases hw⟩

/-- After `a` and `b` were written the file does not hold both. -/
theorem sampleKernel_write_twice : ¬∃ s', writeAll sampleVolume (3 : ℕ) [writeA,writeB] sampleOpened=
    some ([1,1],s') ∧ contents sampleVolume s' (stored pathA)=some [0x61,0x62] := by
  rintro ⟨s',hrun,hcontents⟩
  have hresult : ((writeAll sampleVolume (3 : ℕ) [writeA,writeB] sampleOpened).bind fun r =>
      contents sampleVolume r.2 (stored pathA))=some [0x62] := by decide +kernel
  rw [hrun,Option.bind_some,hcontents] at hresult
  cases hresult

end OvsbMk.DescriptorWrites
