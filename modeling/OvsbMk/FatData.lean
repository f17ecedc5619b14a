import OvsbMk.FatTable

/-!
# Reading and writing along a chain

On a faultless disk a cluster is read or written as one range, whatever the
split into whole sectors and a remainder. The write loop is specified by what
it leaves alone, by the chain it leaves behind and by the bytes on it; the read
loop gives these bytes back.
-/

namespace OvsbMk.FatData

open ByteMemory BlockDisk Fat32 Chains FatTable

variable {v : Volume} {m m' : Bytes} {d : Disk} {c c' a start : ℕ} {nodes rest : List ℕ}

/-- A walk along a chain ends here. -/
def Ends (c : ℕ) : Prop := ¬(2≤c ∧ c<endOfChain)

/-- The clusters of a chain that stays in range and ends in an end mark. Such a
chain has no repetitions. -/
structure FileChain (v : Volume) (m : Bytes) (start : ℕ) (nodes : List ℕ) : Prop where
  /-- The links lead through the clusters to an end mark. -/
  path : ∃ finish, Path (link v m) Ends start nodes finish ∧ endOfChain≤finish
  /-- The clusters belong to the volume. -/
  inRange : ∀ c∈nodes, InRange v c

/-- A cluster of the volume does not end a walk. -/
theorem not_ends (h : Mounted v) (hc : InRange v c) : ¬Ends c := by
  have := h.clusters_lt
  have := hc.1
  have := hc.2
  simp only [Ends]
  omega

/-- The chain of clusters as a chain of nodes. -/
theorem FileChain.chain (h : FileChain v m start nodes) : Chain (link v m) Ends start nodes := by
  obtain ⟨finish,hp,hf⟩ := h.path
  exact ⟨finish,hp,by simp only [Ends]; omega⟩

/-- No cluster occurs twice. -/
theorem FileChain.nodup (h : FileChain v m start nodes) : nodes.Nodup := h.chain.nodup

/-- An empty chain. -/
theorem fileChain_nil : FileChain v m start [] ↔ endOfChain ≤ start := by
  constructor
  · rintro ⟨⟨finish,rfl,hf⟩,_⟩
    exact hf
  · intro h
    exact ⟨⟨start,rfl,h⟩,fun c hc => by cases hc⟩

/-- A chain with a first cluster. -/
theorem fileChain_cons (h : Mounted v) :
    FileChain v m start (c::rest) ↔
      start=c ∧ InRange v c ∧ FileChain v m (link v m c) rest := by
  constructor
  · rintro ⟨⟨finish,⟨h1,_,h3⟩,hf⟩,hr⟩
    exact ⟨h1,hr c (by simp),⟨finish,h3,hf⟩,fun x hx => hr x (by simp [hx])⟩
  · rintro ⟨rfl,hc,⟨finish,hp,hf⟩,hr⟩
    refine ⟨⟨finish,⟨rfl,not_ends h hc,hp⟩,hf⟩,fun x hx => ?_⟩
    rcases List.mem_cons.mp hx with rfl | hx
    · exact hc
    · exact hr x hx

/-- A chain depends on the links of its clusters. -/
theorem FileChain.congr (h : FileChain v m start nodes)
    (heq : ∀ c∈nodes, link v m' c=link v m c) : FileChain v m' start nodes := by
  obtain ⟨⟨finish,hp,hf⟩,hr⟩ := h
  exact ⟨⟨finish,hp.congr heq,hf⟩,hr⟩

/-- The clusters of a chain are not free. -/
theorem FileChain.link_ne_zero (hv : Mounted v) (h : FileChain v m start nodes) (hc : c∈nodes) :
    link v m c≠0 := by
  induction nodes generalizing start with
  | nil => cases hc
  | cons x rest ih =>
    obtain ⟨rfl,_,hrest⟩ := (fileChain_cons hv).mp h
    rcases List.mem_cons.mp hc with rfl | hc
    · intro hzero
      cases rest with
      | nil =>
        have := fileChain_nil.mp hrest
        simp only [endOfChain] at this
        omega
      | cons y rest =>
        obtain ⟨h1,h2,_⟩ := (fileChain_cons hv).mp hrest
        have := h2.1
        omega
    · exact ih hrest hc

/-- Address of a sector of a cluster. -/
theorem sector_addr (h : Mounted v) (hc : InRange v c) {s : ℕ}
    (hs : s<v.sectorsPerCluster) :
    sectorAddr ((Fat32.clusterToSector v c+s)%2^32)=dataAddr v c+s*512 := by
  have h1 := h.cluster_le hc
  have h2 : v.totalSectors32≤2^28 := h.addressed
  rw [h.clusterToSector hc,Nat.mod_eq_of_lt (by omega),
    sectorAddr_of_lt (by simp only [addressable]; omega),dataAddr]
  simp only [sectorSize]
  ring

/-- Whole sectors are written as one range. -/
theorem writeSectors_eq (h : Mounted v) (hd : Faultless d) (hc : InRange v c) {buffer : Bytes}
    {offset count s : ℕ} (hs : s+count≤v.sectorsPerCluster) :
    Fat32.writeSectors (Fat32.clusterToSector v c) offset buffer count s d=
      (true,d.with (copyRange d.bytes (dataAddr v c+s*512) (count*512)
        fun i => buffer (offset+s*512+i))) := by
  induction count generalizing s d with
  | zero =>
    rw [Fat32.writeSectors,Nat.zero_mul,copyRange_zero,with_self]
  | succ count ih =>
    rw [Fat32.writeSectors,hd.write]
    dsimp only
    rw [ih (hd.with _) (by omega),sector_addr h hc (by omega)]
    have happ := copyRange_append d.bytes (fun i => buffer (offset+s*512+i)) (dataAddr v c+s*512)
      512 (count*512)
    have h1 : dataAddr v c+(s+1)*512=dataAddr v c+s*512+512 := by ring
    have h2 : (fun i => buffer (offset+(s+1)*512+i))=fun i => buffer (offset+s*512+(512+i)) := by
      funext i
      exact congrArg buffer (by ring)
    have h3 : (count+1)*512=512+count*512 := by ring
    rw [with_bytes,with_with,h1,h2,h3,happ]

/-- Writing back a sector with its beginning replaced is a shorter copy. -/
theorem copyRange_shorter {address size count : ℕ} {source : Bytes} (h : count ≤ size) :
    copyRange m address size (copyRange (fun b => m (address+b)) 0 count source)=
      copyRange m address count source := by
  funext a
  simp only [copyRange]
  by_cases hin : address≤a ∧ a<address+size
  · rw [if_pos hin]
    by_cases hin' : a<address+count
    · rw [if_pos (by omega),if_pos (by omega),Nat.sub_zero]
    · rw [if_neg (by omega),if_neg (by omega),show address+(a-address)=a by omega]
  · rw [if_neg hin,if_neg (by omega)]

/-- The remainder is written as a range. -/
theorem writeRemainder_eq (h : Mounted v) (hd : Faultless d) (hc : InRange v c)
    {buffer : Bytes} {offset s remainder : ℕ} (hs : 0<remainder → s<v.sectorsPerCluster)
    (hr : remainder<512) :
    Fat32.writeRemainder (Fat32.clusterToSector v c+s) offset remainder buffer d=
      (true,d.with (copyRange d.bytes (dataAddr v c+s*512) remainder
        fun i => buffer (offset+i))) := by
  rw [Fat32.writeRemainder]
  by_cases hpos : 0<remainder
  · rw [if_pos hpos,hd.read]
    dsimp only
    rw [hd.write,copyRange_shorter (by simp only [sectorSize]; omega),sector_addr h hc (hs hpos)]
  · obtain rfl : remainder=0 := by omega
    rw [if_neg (by omega),copyRange_zero,with_self]

/-- Sectors and remainder of a part of a cluster. -/
theorem sectors_of_bytes {count : ℕ} (h : count≤clusterBytes v) :
    count/512≤v.sectorsPerCluster ∧ (0<count%512 → count/512<v.sectorsPerCluster) ∧
      count/512*512+count%512=count := by
  simp only [clusterBytes,sectorSize] at h
  omega

/-- A part of a cluster is written as one range. -/
theorem writeCluster_eq (h : Mounted v) (hd : Faultless d) (hc : InRange v c)
    (buffer : Bytes) (offset : ℕ) {count : ℕ} (hcount : count≤clusterBytes v) :
    ∃ d', Fat32.writeSectors (Fat32.clusterToSector v c) offset buffer (count/512) 0 d=(true,d') ∧
      Fat32.writeRemainder (Fat32.clusterToSector v c+count/512) (offset+count/512*512) (count%512)
        buffer d'=
        (true,d.with (copyRange d.bytes (dataAddr v c) count fun i => buffer (offset+i))) := by
  obtain ⟨h1,h2,h3⟩ := sectors_of_bytes hcount
  refine ⟨_,writeSectors_eq h hd hc (by omega),?_⟩
  rw [writeRemainder_eq h (hd.with _) hc h2 (Nat.mod_lt _ (by norm_num)),with_bytes,with_with]
  have happ := copyRange_append d.bytes (fun i => buffer (offset+i)) (dataAddr v c) (count/512*512)
    (count%512)
  rw [h3] at happ
  have h4 : (fun i => buffer (offset+0*512+i))=fun i => buffer (offset+i) := by
    funext i
    exact congrArg buffer (by omega)
  have h5 : (fun i => buffer (offset+count/512*512+i))=
      fun i => buffer (offset+(count/512*512+i)) := by
    funext i
    exact congrArg buffer (by omega)
  rw [h4,h5,Nat.zero_mul,Nat.add_zero,happ]

/-- Whole sectors are read as one range. -/
theorem readSectors_eq (h : Mounted v) (hd : Faultless d) (hc : InRange v c) {buffer : Bytes}
    {offset count s : ℕ} (hs : s+count≤v.sectorsPerCluster) :
    Fat32.readSectors (Fat32.clusterToSector v c) offset count s buffer d=
      (true,copyRange buffer (offset+s*512) (count*512) (fun i => d.bytes (dataAddr v c+s*512+i)),
        d) := by
  induction count generalizing s buffer with
  | zero =>
    rw [Fat32.readSectors,Nat.zero_mul,copyRange_zero]
  | succ count ih =>
    rw [Fat32.readSectors,hd.read]
    dsimp only
    rw [ih (by omega),sector_addr h hc (by omega)]
    have happ := copyRange_append buffer (fun i => d.bytes (dataAddr v c+s*512+i)) (offset+s*512)
      512 (count*512)
    have h1 : offset+(s+1)*512=offset+s*512+512 := by ring
    have h2 : (fun i => d.bytes (dataAddr v c+(s+1)*512+i))=
        fun i => d.bytes (dataAddr v c+s*512+(512+i)) := by
      funext i
      exact congrArg d.bytes (by ring)
    have h3 : (count+1)*512=512+count*512 := by ring
    rw [h1,h2,h3,happ]

/-- The remainder is read as a range. -/
theorem readRemainder_eq (h : Mounted v) (hd : Faultless d) (hc : InRange v c)
    {buffer : Bytes} {offset s remainder : ℕ} (hs : 0<remainder → s<v.sectorsPerCluster) :
    Fat32.readRemainder (Fat32.clusterToSector v c+s) offset remainder buffer d=
      (true,copyRange buffer offset remainder (fun i => d.bytes (dataAddr v c+s*512+i)),d) := by
  rw [Fat32.readRemainder]
  by_cases hpos : 0<remainder
  · rw [if_pos hpos,hd.read]
    dsimp only
    rw [sector_addr h hc (hs hpos)]
  · obtain rfl : remainder=0 := by omega
    rw [if_neg (by omega),copyRange_zero]

/-- A part of a cluster is read as one range. -/
theorem readCluster_eq (h : Mounted v) (hd : Faultless d) (hc : InRange v c)
    (buffer : Bytes) (offset : ℕ) {count : ℕ} (hcount : count≤clusterBytes v) :
    ∃ buffer', Fat32.readSectors (Fat32.clusterToSector v c) offset (count/512) 0 buffer d=
        (true,buffer',d) ∧
      Fat32.readRemainder (Fat32.clusterToSector v c+count/512) (offset+count/512*512) (count%512)
        buffer' d=
        (true,copyRange buffer offset count (fun i => d.bytes (dataAddr v c+i)),d) := by
  obtain ⟨h1,h2,h3⟩ := sectors_of_bytes hcount
  refine ⟨_,readSectors_eq h hd hc (by omega),?_⟩
  rw [readRemainder_eq h hd hc h2]
  have happ := copyRange_append buffer (fun i => d.bytes (dataAddr v c+i)) offset (count/512*512)
    (count%512)
  rw [h3] at happ
  have h4 : (fun i => d.bytes (dataAddr v c+0*512+i))=fun i => d.bytes (dataAddr v c+i) := by
    funext i
    exact congrArg d.bytes (by omega)
  have h5 : (fun i => d.bytes (dataAddr v c+count/512*512+i))=
      fun i => d.bytes (dataAddr v c+(count/512*512+i)) := by
    funext i
    exact congrArg d.bytes (by omega)
  rw [h4,h5,Nat.zero_mul,Nat.add_zero,happ]

/-- One change of the table while a file grows: none, a free cluster becomes a
chain of its own, or a free cluster is put after the last one of a chain. -/
inductive Grow (v : Volume) (m m' : Bytes) : Prop
  /-- No link changes. -/
  | same (h : ∀ c, InRange v c → link v m' c=link v m c) : Grow v m m'
  /-- A free cluster becomes a chain. -/
  | fresh (free : ℕ) (hf : InRange v free) (hfree : link v m free=0)
    (h : ∀ c, InRange v c → link v m' c=if c=free then endMark else link v m c) : Grow v m m'
  /-- A free cluster is put after the last one of a chain. -/
  | extend (last free : ℕ) (hl : InRange v last) (hf : InRange v free)
    (hlast : endOfChain≤link v m last) (hfree : link v m free=0)
    (h : ∀ c, InRange v c → link v m' c=
      if c=free then endMark else if c=last then free else link v m c) : Grow v m m'

/-- Clusters in use stay in use. -/
theorem Grow.used (h : Grow v m m') (hc : InRange v c) (hz : link v m c≠0) :
    link v m' c≠0 := by
  cases h with
  | same h => rwa [h c hc]
  | fresh free hf hfree h =>
    rw [h c hc]
    split
    · norm_num
    · exact hz
  | extend last free hl hf hlast hfree h =>
    rw [h c hc]
    split
    · norm_num
    · split
      · have := hf.1
        omega
      · exact hz

/-- Clusters in use stay in use over any number of changes. -/
theorem grows_used (h : Relation.ReflTransGen (Grow v) m m') (hc : InRange v c)
    (hz : link v m c≠0) : link v m' c≠0 := by
  induction h with
  | refl => exact hz
  | tail _ hstep ih => exact hstep.used hc ih

/-- A write to a file may change the byte: it belongs to one of the file's
clusters, or to a cluster that is free. -/
def Touched (v : Volume) (m : Bytes) (nodes : List ℕ) (a : ℕ) : Prop :=
  ∃ c, (c∈nodes ∨ InRange v c ∧ link v m c=0) ∧ (DataByte v c a ∨ LinkByte v c a)

/-- What a write to a file does to the disk. -/
structure Wrote (v : Volume) (m m' : Bytes) (nodes : List ℕ) : Prop where
  /-- Other bytes stay. -/
  frame : ∀ a, ¬Touched v m nodes a → m' a=m a
  /-- The table changes step by step. -/
  grows : Relation.ReflTransGen (Grow v) m m'

/-- Nothing written. -/
theorem Wrote.refl (v : Volume) (m : Bytes) (nodes : List ℕ) : Wrote v m m nodes :=
  ⟨fun _ _ => rfl,Relation.ReflTransGen.refl⟩

/-- One write after the other. -/
theorem Wrote.trans {m'' : Bytes} {nodes' : List ℕ} (h : Wrote v m m' nodes)
    (h' : Wrote v m' m'' nodes')
    (hnodes : ∀ c∈nodes', c∈nodes ∨ InRange v c ∧ link v m c=0) : Wrote v m m'' nodes := by
  refine ⟨fun a ha => ?_,h.grows.trans h'.grows⟩
  refine (h'.frame a ?_).trans (h.frame a ha)
  rintro ⟨c,hc | ⟨hr,hz⟩,hbyte⟩
  · exact ha ⟨c,hnodes c hc,hbyte⟩
  · refine ha ⟨c,Or.inr ⟨hr,?_⟩,hbyte⟩
    by_contra hne
    exact grows_used h.grows hr hne hz

/-- Clusters of other chains are not touched. -/
theorem not_touched (hv : Mounted v) (hc : InRange v c) (hn : c∉nodes) (hz : link v m c≠0)
    (hr : ∀ x∈nodes, InRange v x) (ha : DataByte v c a ∨ LinkByte v c a) :
    ¬Touched v m nodes a := by
  rintro ⟨x,hx,hbyte⟩
  have hxr : InRange v x := by
    rcases hx with hx | hx
    · exact hr x hx
    · exact hx.1
  have hne : c≠x := by
    rintro rfl
    rcases hx with hx | hx
    · exact hn hx
    · exact hz hx.2
  rcases ha with ha | ha <;> rcases hbyte with hbyte | hbyte
  · exact data_disjoint hc hxr hne ha hbyte
  · exact hv.link_not_data hxr.2 hc hbyte ha
  · exact hv.link_not_data hc.2 hxr ha hbyte
  · exact link_disjoint hne ha hbyte

/-- Other chains keep their links. -/
theorem Wrote.link_eq (hv : Mounted v) (h : Wrote v m m' nodes) (hc : InRange v c) (hn : c∉nodes)
    (hz : link v m c≠0) (hr : ∀ x∈nodes, InRange v x) : link v m' c=link v m c :=
  link_congr fun a ha => h.frame a (not_touched hv hc hn hz hr (Or.inr ha))

/-- Writing contents does not change links. -/
theorem link_copyRange (hv : Mounted v) (hc : InRange v c) {count : ℕ} {source : Bytes}
    (hcount : count≤clusterBytes v) (hc' : c'<totalClusters v+2) :
    link v (copyRange m (dataAddr v c) count source) c'=link v m c' := by
  refine link_congr fun a ha => copyRange_outside ?_
  have := hv.link_not_data hc' hc ha
  simp only [DataByte] at this
  omega

/-- Writing the contents of a cluster of the file. -/
theorem wrote_data (hv : Mounted v) (hc : InRange v c) (hmem : c∈nodes) {count : ℕ}
    (source : Bytes) (hcount : count≤clusterBytes v) :
    Wrote v m (copyRange m (dataAddr v c) count source) nodes := by
  refine ⟨fun a ha => copyRange_outside ?_,
    Relation.ReflTransGen.single (.same fun x hx => link_copyRange hv hc hcount hx.2)⟩
  by_contra hin
  exact ha ⟨c,Or.inl hmem,Or.inl ⟨by omega,by omega⟩⟩

/-- Putting a free cluster after the last one of the file. -/
theorem wrote_extend (hc : InRange v c) (hmem : c∈nodes) (hlast : endOfChain≤link v m c)
    {free : ℕ} (hf : InRange v free) (hfree : link v m free=0) (hlt : free<2^28) :
    Wrote v m (setLink v (setLink v m c free) free endMark) nodes ∧
      link v (setLink v (setLink v m c free) free endMark) free=endMark ∧
      link v (setLink v (setLink v m c free) free endMark) c=free := by
  have hne : c≠free := by
    rintro rfl
    simp only [endOfChain] at hlast
    omega
  have hlinks : link v (setLink v (setLink v m c free) free endMark)=
      Function.update (Function.update (link v m) c free) free endMark := by
    rw [link_setLink (by norm_num),link_setLink hlt]
  refine ⟨⟨fun a ha => ?_,Relation.ReflTransGen.single
    (.extend c free hc hf hlast hfree fun x _ => ?_)⟩,?_,?_⟩
  · rw [setLink_outside fun hb => ha ⟨free,Or.inr ⟨hf,hfree⟩,Or.inr hb⟩,
      setLink_outside fun hb => ha ⟨c,Or.inl hmem,Or.inr hb⟩]
  · rw [hlinks,Function.update_apply,Function.update_apply]
  · rw [hlinks,Function.update_self]
  · rw [hlinks,Function.update_of_ne hne,Function.update_self]

/-- The first bytes along the chain are those of a string. -/
def Holds (v : Volume) (m : Bytes) (nodes : List ℕ) (text : ℕ → UInt8) (size : ℕ) : Prop :=
  ∀ i, i<size → ∃ c, nodes[i/clusterBytes v]?=some c ∧ m (dataAddr v c+i%clusterBytes v)=text i

/-- Clusters are not empty. -/
theorem clusterBytes_pos (hv : Mounted v) : 0<clusterBytes v := by
  have := hv.cluster_pos
  simp only [clusterBytes,sectorSize]
  omega

/-- A string in one cluster. -/
theorem holds_single {text : ℕ → UInt8} {size : ℕ} (hsize : size≤clusterBytes v)
    (h : ∀ i, i<size → m (dataAddr v c+i)=text i) : Holds v m (c::rest) text size := by
  intro i hi
  refine ⟨c,?_,?_⟩
  · rw [Nat.div_eq_of_lt (by omega)]
    rfl
  · rw [Nat.mod_eq_of_lt (by omega)]
    exact h i hi

/-- A string that starts with a full cluster. -/
theorem holds_cons (hv : Mounted v) {text : ℕ → UInt8} {size : ℕ}
    (h : ∀ i, i<clusterBytes v → m (dataAddr v c+i)=text i)
    (hrest : Holds v m rest (fun i => text (clusterBytes v+i)) size) :
    Holds v m (c::rest) text (clusterBytes v+size) := by
  have hpos := clusterBytes_pos hv
  intro i hi
  rcases Nat.lt_or_ge i (clusterBytes v) with hlt | hge
  · refine ⟨c,?_,?_⟩
    · rw [Nat.div_eq_of_lt hlt]
      rfl
    · rw [Nat.mod_eq_of_lt hlt]
      exact h i hlt
  · obtain ⟨j,rfl⟩ := Nat.exists_eq_add_of_le hge
    obtain ⟨x,hx,htext⟩ := hrest j (by omega)
    refine ⟨x,?_,?_⟩
    · rw [Nat.add_div_left _ hpos,List.getElem?_cons_succ]
      exact hx
    · rw [Nat.add_mod_left]
      exact htext

/-- A write leaves disjoint chains alone. -/
theorem Wrote.keeps (hv : Mounted v) (h : Wrote v m m' nodes) (hr : ∀ x∈nodes, InRange v x)
    {other : List ℕ} {start : ℕ} (hother : FileChain v m start other)
    (hdisj : ∀ x∈other, x∉nodes) (hc : c∈other) (ha : DataByte v c a ∨ LinkByte v c a) :
    m' a=m a :=
  h.frame a (not_touched hv (hother.inRange c hc) (hdisj c hc) (hother.link_ne_zero hv hc) hr ha)

/-- A chain whose links are left alone. -/
theorem FileChain.kept {other : List ℕ} {start : ℕ} (h : FileChain v m start other)
    (hkeep : ∀ c∈other, ∀ a, LinkByte v c a → m' a=m a) : FileChain v m' start other :=
  h.congr fun c hc => link_congr (hkeep c hc)

/-- Going on inside a chain. -/
theorem nextCluster_inside (hv : Mounted v) (hd : Faultless d) (hc : InRange v c)
    (hnext : InRange v (link v d.bytes c)) :
    nextCluster v c d=(some (link v d.bytes c),d) := by
  have := hv.clusters_lt
  have := hnext.1
  have := hnext.2
  rw [nextCluster,hv.readEntry hd hc.2]
  dsimp only
  rw [if_neg (by omega)]

/-- Going on past the end of a chain. -/
theorem nextCluster_end (hv : Mounted v) (hd : Faultless d) (hc : InRange v c)
    (hend : endOfChain≤link v d.bytes c) :
    (∃ free, nextCluster v c d=
        (some free,d.with (setLink v (setLink v d.bytes c free) free endMark)) ∧
      InRange v free ∧ link v d.bytes free=0) ∨
    (nextCluster v c d=(none,d) ∧ ∀ x, InRange v x → link v d.bytes x≠0) := by
  rw [nextCluster,hv.readEntry hd hc.2]
  dsimp only
  rw [if_pos (Or.inr hend)]
  rcases hv.findFree hd with ⟨f,hf,hr,hz,_⟩ | ⟨hf,hnone⟩
  · left
    refine ⟨f,?_,hr,hz⟩
    have hpos := hr.1
    rw [hf]
    dsimp only
    rw [if_neg (by omega),hv.writeEntry hd hc.2]
    dsimp only
    rw [hv.writeEntry (hd.with _) hr.2,with_bytes,with_with]
  · right
    rw [hf]
    dsimp only
    rw [if_pos rfl]
    exact ⟨rfl,hnone⟩

/-- The write loop has nothing to write. -/
theorem writeChain_zero {buffer : Bytes} {fuel offset : ℕ} :
    writeChain v buffer fuel c offset 0 d=some (toInt offset,d) := by
  cases fuel with
  | zero => rw [writeChain,if_neg (by omega)]
  | succ fuel => rw [writeChain,if_neg (by omega)]

/-- One round of the write loop: a part of the cluster is written, and when bytes are
left over the loop looks for the cluster after it. -/
theorem writeChain_round (hv : Mounted v) (hd : Faultless d) (hc : InRange v c) (buffer : Bytes)
    (fuel offset : ℕ) {size : ℕ} (hpos : 0<size) :
    writeChain v buffer (fuel+1) c offset size d=
      if clusterBytes v<size then
        match nextCluster v c (d.with (copyRange d.bytes (dataAddr v c) (clusterBytes v)
            fun i => buffer (offset+i))) with
        | (none,d) => some (-1,d)
        | (some next,d) =>
          writeChain v buffer fuel next (offset+clusterBytes v) (size-clusterBytes v) d
      else some (toInt (offset+size),d.with (copyRange d.bytes (dataAddr v c) size
        fun i => buffer (offset+i))) := by
  obtain ⟨d1,hs,hr⟩ := writeCluster_eq hv hd hc buffer offset (Nat.min_le_right size (clusterBytes v))
  rw [writeChain,if_pos hpos]
  dsimp only
  rw [hs]
  dsimp only
  rw [hr]
  dsimp only
  by_cases hmore : clusterBytes v<size
  · rw [Nat.min_eq_right hmore.le,if_pos (by omega)]
    exact (if_pos hmore).symm
  · rw [Nat.min_eq_left (by omega),if_neg (by omega),if_neg hmore]

/-- A round of the write loop that leaves bytes over: the cluster is full and leads to
the next one, which followed in the chain or was free. -/
structure Advance (v : Volume) (m m2 : Bytes) (cluster next : ℕ) (rest tail : List ℕ)
    (text : ℕ → UInt8) : Prop where
  /-- Only the cluster and the links to a free one have changed. -/
  wrote : Wrote v m m2 (cluster::rest)
  /-- The cluster holds the text. -/
  data : ∀ i, i<clusterBytes v → m2 (dataAddr v cluster+i)=text i
  /-- It leads to the next one. -/
  step : link v m2 cluster=next
  /-- The loop goes on with a chain. -/
  chain : FileChain v m2 next (next::tail)
  /-- The cluster is not on it. -/
  notMem : cluster∉next::tail
  /-- The chain went on, or a free cluster was put after its end. -/
  source : rest=next::tail ∧ m2=copyRange m (dataAddr v cluster) (clusterBytes v) text ∨
    rest=[] ∧ tail=[] ∧ InRange v next ∧ link v m next=0

/-- A round of the write loop inside a chain. -/
theorem advance_inside (hv : Mounted v) {next : ℕ} {tail : List ℕ} (text : ℕ → UInt8)
    (hchain : FileChain v m c (c::next::tail)) :
    Advance v m (copyRange m (dataAddr v c) (clusterBytes v) text) c next (next::tail) tail text := by
  obtain ⟨_,hc,hrest⟩ := (fileChain_cons hv).mp hchain
  have hlinks : ∀ x, x<totalClusters v+2 →
      link v (copyRange m (dataAddr v c) (clusterBytes v) text) x=link v m x :=
    fun x hx => link_copyRange hv hc le_rfl hx
  have hnext : link v m c=next := ((fileChain_cons hv).mp hrest).1
  rw [hnext] at hrest
  exact ⟨wrote_data hv hc List.mem_cons_self text le_rfl,fun i hi => copyRange_inside hi,
    (hlinks c hc.2).trans hnext,hrest.congr fun x hx => hlinks x (hrest.inRange x hx).2,
    (List.nodup_cons.mp hchain.nodup).1,Or.inl ⟨rfl,rfl⟩⟩

/-- A round of the write loop at the end of a chain, with a free cluster. -/
theorem advance_fresh (hv : Mounted v) {free : ℕ} (text : ℕ → UInt8) (hchain : FileChain v m c [c])
    (hfr : InRange v free) (hfz : link v m free=0) :
    Advance v m (setLink v (setLink v (copyRange m (dataAddr v c) (clusterBytes v) text) c free)
      free endMark) c free [] [] text := by
  obtain ⟨_,hc,hrest⟩ := (fileChain_cons hv).mp hchain
  have hend : endOfChain≤link v m c := fileChain_nil.mp hrest
  have hlinks : ∀ x, x<totalClusters v+2 →
      link v (copyRange m (dataAddr v c) (clusterBytes v) text) x=link v m x :=
    fun x hx => link_copyRange hv hc le_rfl hx
  have hdata : ∀ i, i<clusterBytes v →
      copyRange m (dataAddr v c) (clusterBytes v) text (dataAddr v c+i)=text i :=
    fun i hi => copyRange_inside hi
  have hw := wrote_data hv hc (m:=m) (List.mem_singleton_self c) text le_rfl
  generalize copyRange m (dataAddr v c) (clusterBytes v) text=m1 at *
  have hflt : free<2^28 := by
    have hlt := hv.clusters_lt
    have hfree := hfr.2
    simp only [endOfChain] at hlt
    omega
  obtain ⟨hw2,hfmark,hflink⟩ := wrote_extend hc (m:=m1) (List.mem_singleton_self c)
    (by rw [hlinks c hc.2]; exact hend) hfr (by rw [hlinks free hfr.2]; exact hfz) hflt
  have hne : c≠free := by
    rintro rfl
    simp only [endOfChain] at hend
    omega
  refine ⟨hw.trans hw2 fun x hx => Or.inl hx,fun i hi => ?_,hflink,?_,by simpa using hne,
    Or.inr ⟨rfl,rfl,hfr,hfz⟩⟩
  · have hbyte : DataByte v c (dataAddr v c+i) := ⟨by omega,by omega⟩
    rw [setLink_outside fun hb => hv.link_not_data hfr.2 hc hb hbyte,
      setLink_outside fun hb => hv.link_not_data hc.2 hc hb hbyte]
    exact hdata i hi
  · refine (fileChain_cons hv).mpr ⟨rfl,hfr,fileChain_nil.mpr ?_⟩
    rw [hfmark]
    norm_num

/-- A round of the write loop that leaves bytes over goes on, or no cluster is free. -/
theorem writeChain_more (hv : Mounted v) (hd : Faultless d)
    (hchain : FileChain v d.bytes c (c::rest)) (buffer : Bytes) (fuel offset : ℕ) {size : ℕ}
    (hmore : clusterBytes v<size) :
    (∃ m2 next tail, writeChain v buffer (fuel+1) c offset size d=
        writeChain v buffer fuel next (offset+clusterBytes v) (size-clusterBytes v) (d.with m2) ∧
      Advance v d.bytes m2 c next rest tail fun i => buffer (offset+i)) ∨
    (rest=[] ∧ writeChain v buffer (fuel+1) c offset size d=
        some (-1,d.with (copyRange d.bytes (dataAddr v c) (clusterBytes v)
          fun i => buffer (offset+i))) ∧
      ∀ x, InRange v x → link v d.bytes x≠0) := by
  obtain ⟨_,hc,hrest⟩ := (fileChain_cons hv).mp hchain
  have hlinks : ∀ x, x<totalClusters v+2 → link v (copyRange d.bytes (dataAddr v c)
      (clusterBytes v) fun i => buffer (offset+i)) x=link v d.bytes x :=
    fun x hx => link_copyRange hv hc le_rfl hx
  rw [writeChain_round hv hd hc buffer fuel offset (by omega),if_pos hmore]
  cases rest with
  | cons next tail =>
    obtain ⟨hnext,hnr,_⟩ := (fileChain_cons hv).mp hrest
    have hadvance := advance_inside hv (fun i => buffer (offset+i)) hchain
    have hstep := nextCluster_inside hv (hd.with (copyRange d.bytes (dataAddr v c)
      (clusterBytes v) fun i => buffer (offset+i))) hc
      (by rw [with_bytes,hlinks c hc.2,hnext]; exact hnr)
    rw [with_bytes,hlinks c hc.2,hnext] at hstep
    rw [hstep]
    exact Or.inl ⟨_,next,tail,rfl,hadvance⟩
  | nil =>
    have hend : endOfChain≤link v d.bytes c := fileChain_nil.mp hrest
    rcases nextCluster_end hv (hd.with (copyRange d.bytes (dataAddr v c) (clusterBytes v)
      fun i => buffer (offset+i))) hc (by rw [with_bytes,hlinks c hc.2]; exact hend) with
      ⟨free,hstep,hfr,hfz⟩ | ⟨hstep,hfull⟩
    · rw [with_bytes,hlinks free hfr.2] at hfz
      rw [hstep,with_bytes,with_with]
      exact Or.inl ⟨_,free,[],rfl,advance_fresh hv (fun i => buffer (offset+i)) hchain hfr hfz⟩
    · rw [with_bytes] at hfull
      rw [hstep]
      exact Or.inr ⟨rfl,rfl,fun x hx => by rw [← hlinks x hx.2]; exact hfull x hx⟩

/-- What the write loop leaves behind: it returns the length with the bytes on
the chain, which may have grown, or minus one when no cluster is free. -/
def WriteOutcome (v : Volume) (d : Disk) (nodes : List ℕ) (text : ℕ → UInt8) (cluster offset size : ℕ)
    (result : Option (ℤ×Disk)) : Prop :=
  ∃ m', Wrote v d.bytes m' nodes ∧
    ((result=some (toInt (offset+size),d.with m') ∧
        ∃ added, FileChain v m' cluster (nodes++added) ∧
          (∀ x∈added, InRange v x ∧ link v d.bytes x=0) ∧ Holds v m' (nodes++added) text size) ∨
      (result=some (-1,d.with m') ∧ ∀ x, InRange v x → link v m' x≠0))

/-- The write loop after a full cluster, from the outcome of the rest. -/
theorem WriteOutcome.cons (hv : Mounted v) {text : ℕ → UInt8} {m2 : Bytes} {next offset size : ℕ}
    {tail : List ℕ} {result : Option (ℤ×Disk)} (hc : InRange v c)
    (hfirst : Wrote v d.bytes m2 nodes)
    (hdata : ∀ i, i<clusterBytes v → m2 (dataAddr v c+i)=text i)
    (hlink : link v m2 c=next) (hcn : c∉next::tail)
    (htail : ∀ x∈next::tail, x∈nodes ∨ InRange v x ∧ link v d.bytes x=0)
    (hnodes : ∃ fresh, (∀ x∈fresh, InRange v x ∧ link v d.bytes x=0) ∧ c::next::tail=nodes++fresh)
    (hr : ∀ x∈next::tail, InRange v x)
    (h : WriteOutcome v (d.with m2) (next::tail) (fun i => text (clusterBytes v+i)) next
      (offset+clusterBytes v) size result) :
    WriteOutcome v d nodes text c offset (clusterBytes v+size) result := by
  obtain ⟨m',hw,hres⟩ := h
  have hz : link v m2 c≠0 := by
    rw [hlink]
    have := (hr next (by simp)).1
    omega
  have hkeep : ∀ a, DataByte v c a ∨ LinkByte v c a → m' a=m2 a :=
    fun a ha => hw.frame a (not_touched hv hc hcn hz hr ha)
  have hlink' : link v m' c=next := by
    rw [link_congr fun a ha => hkeep a (Or.inr ha)]
    exact hlink
  refine ⟨m',hfirst.trans hw htail,?_⟩
  rcases hres with ⟨hret,added,hchain,hadded,hholds⟩ | ⟨hret,hfull⟩
  · left
    obtain ⟨fresh,hfresh,hsplit⟩ := hnodes
    have happ : nodes++(fresh++added)=c::(next::tail++added) := by
      rw [← List.append_assoc,← hsplit]
      rfl
    refine ⟨?_,fresh++added,?_,?_,?_⟩
    · rw [hret,Nat.add_assoc]
      rfl
    · rw [happ]
      refine (fileChain_cons hv).mpr ⟨rfl,hc,?_⟩
      rw [hlink']
      exact hchain
    · intro x hx
      rcases List.mem_append.mp hx with hx | hx
      · exact hfresh x hx
      · obtain ⟨hxr,hxz⟩ := hadded x hx
        refine ⟨hxr,?_⟩
        by_contra hne
        exact grows_used hfirst.grows hxr hne hxz
    · rw [happ]
      refine holds_cons hv (fun i hi => ?_) hholds
      rw [hkeep _ (Or.inl ⟨by omega,by omega⟩)]
      exact hdata i hi
  · exact Or.inr ⟨hret,hfull⟩

/-- The write loop. -/
theorem writeChain_outcome (hv : Mounted v) (buffer : Bytes) {fuel cluster : ℕ} (offset : ℕ)
    {size : ℕ}
    (hd : Faultless d) (hchain : FileChain v d.bytes cluster (cluster::rest)) (hpos : 0<size)
    (hfuel : size≤fuel) :
    WriteOutcome v d (cluster::rest) (fun i => buffer (offset+i)) cluster offset size
      (writeChain v buffer fuel cluster offset size d) := by
  induction fuel generalizing cluster rest offset size d with
  | zero => omega
  | succ fuel ih =>
    obtain ⟨_,hc,_⟩ := (fileChain_cons hv).mp hchain
    have hcb := clusterBytes_pos hv
    by_cases hmore : clusterBytes v<size
    · have hsize : size=clusterBytes v+(size-clusterBytes v) := by omega
      rcases writeChain_more hv hd hchain buffer fuel offset hmore with
        ⟨m2,next,tail,hrun,hadv⟩ | ⟨rfl,hrun,hfull⟩
      · have htext : (fun i => buffer (offset+clusterBytes v+i))=
            fun i => buffer (offset+(clusterBytes v+i)) := by
          funext i
          rw [Nat.add_assoc]
        have hout := @ih (d.with m2) _ _ (offset+clusterBytes v) (size-clusterBytes v)
          (hd.with m2) hadv.chain (by omega) (by omega)
        rw [htext] at hout
        have hsource : (∀ x∈next::tail, x∈cluster::rest ∨ InRange v x ∧ link v d.bytes x=0) ∧
            ∃ fresh, (∀ x∈fresh, InRange v x ∧ link v d.bytes x=0) ∧
              cluster::next::tail=cluster::rest++fresh := by
          rcases hadv.source with ⟨rfl,_⟩ | ⟨rfl,rfl,hfree⟩
          · exact ⟨fun x hx => Or.inl (List.mem_cons_of_mem _ hx),[],by simp,by simp⟩
          · refine ⟨fun x hx => Or.inr ?_,[next],fun x hx => ?_,rfl⟩
            all_goals
              rw [List.mem_singleton.mp hx]
              exact hfree
        have := WriteOutcome.cons hv hc hadv.wrote hadv.data hadv.step hadv.notMem hsource.1
          hsource.2 hadv.chain.inRange hout
        rwa [hrun,hsize,Nat.add_sub_cancel_left]
      · rw [hrun]
        refine ⟨_,wrote_data hv hc List.mem_cons_self _ le_rfl,Or.inr ⟨rfl,fun x hx => ?_⟩⟩
        rw [link_copyRange hv hc le_rfl hx.2]
        exact hfull x hx
    · have hle : size≤clusterBytes v := by omega
      rw [writeChain_round hv hd hc buffer fuel offset hpos,if_neg hmore]
      refine ⟨_,wrote_data hv hc List.mem_cons_self _ hle,Or.inl ⟨rfl,[],?_,by simp,?_⟩⟩
      · rw [List.append_nil]
        exact hchain.congr fun x hx => link_copyRange hv hc hle (hchain.inRange x hx).2
      · rw [List.append_nil]
        exact holds_single hle fun i hi => copyRange_inside hi

/-- What the write loop does to the disk, whatever it answers. -/
theorem writeChain_wrote (hv : Mounted v) {buffer : Bytes} {fuel cluster offset size : ℕ}
    (hd : Faultless d) (hchain : FileChain v d.bytes cluster (cluster::rest)) (hpos : 0<size)
    (hfuel : size≤fuel) {r : ℤ} {d' : Disk}
    (h : writeChain v buffer fuel cluster offset size d=some (r,d')) :
    Wrote v d.bytes d'.bytes (cluster::rest) := by
  obtain ⟨m2,hw,hres⟩ := writeChain_outcome hv buffer offset hd hchain hpos hfuel
  have hd' : d'=d.with m2 := by
    rw [h] at hres
    rcases hres with ⟨hres,_⟩ | ⟨hres,_⟩
    all_goals
      simp only [Option.some.injEq,Prod.mk.injEq] at hres
      exact hres.2
  rwa [hd',with_bytes]

/-- After a round the loop leaves the full cluster and its link alone. -/
theorem Advance.kept (hv : Mounted v) {next : ℕ} {tail : List ℕ} {text : ℕ → UInt8}
    (hc : InRange v c) (h : Advance v m m' c next rest tail text) {m3 : Bytes}
    (hw : Wrote v m' m3 (next::tail)) (ha : DataByte v c a ∨ LinkByte v c a) : m3 a=m' a := by
  refine hw.frame a (not_touched hv hc h.notMem ?_ h.chain.inRange ha)
  rw [h.step]
  have := (h.chain.inRange next List.mem_cons_self).1
  omega

/-- The part of a string after the first cluster. -/
theorem Holds.tail (hv : Mounted v) {text : ℕ → UInt8} {size : ℕ}
    (h : Holds v m (c::rest) text (clusterBytes v+size)) :
    Holds v m rest (fun i => text (clusterBytes v+i)) size := by
  have hpos := clusterBytes_pos hv
  intro i hi
  obtain ⟨x,hx,htext⟩ := h (clusterBytes v+i) (by omega)
  rw [Nat.add_div_left _ hpos,List.getElem?_cons_succ] at hx
  rw [Nat.add_mod_left] at htext
  exact ⟨x,hx,htext⟩

/-- The part of a string in the first cluster. -/
theorem Holds.head {text : ℕ → UInt8} {size i : ℕ} (h : Holds v m (c::rest) text size)
    (hi : i<size) (hlt : i<clusterBytes v) : m (dataAddr v c+i)=text i := by
  obtain ⟨x,hx,htext⟩ := h i hi
  rw [Nat.div_eq_of_lt hlt] at hx
  rw [Nat.mod_eq_of_lt hlt] at htext
  cases hx
  exact htext

/-- The beginning of a string. -/
theorem Holds.mono {text : ℕ → UInt8} {size size' : ℕ} (h : Holds v m nodes text size)
    (hle : size' ≤ size) : Holds v m nodes text size' := fun i hi => h i (by omega)

/-- The read loop stops. -/
theorem readChain_stop {fuel offset size : ℕ} {buffer : Bytes}
    (h : ¬(2≤c ∧ c<endOfChain ∧ offset<size)) :
    readChain v size fuel c offset buffer d=some (toInt offset,buffer,d) := by
  cases fuel with
  | zero => rw [readChain,if_neg h]
  | succ fuel => rw [readChain,if_neg h]

/-- One round of the read loop. -/
theorem readChain_round (hv : Mounted v) (hd : Faultless d) (hc : InRange v c) (buffer : Bytes)
    (fuel : ℕ) {offset size : ℕ} (hlt : offset<size) :
    readChain v size (fuel+1) c offset buffer d=
      readChain v size fuel (link v d.bytes c) (offset+min (size-offset) (clusterBytes v))
        (copyRange buffer offset (min (size-offset) (clusterBytes v))
          fun i => d.bytes (dataAddr v c+i)) d := by
  obtain ⟨buffer',hs,hr⟩ := readCluster_eq hv hd hc buffer offset
    (Nat.min_le_right (size-offset) (clusterBytes v))
  rw [readChain,if_pos ⟨hc.1,hc.2.trans_le hv.clusters_lt,hlt⟩]
  dsimp only
  rw [hs]
  dsimp only
  rw [hr]
  dsimp only
  rw [hv.readEntry hd hc.2]

/-- The read loop gives back the string on the chain and stores nothing else. -/
theorem readChain_eq (hv : Mounted v) (buffer : Bytes) (text : ℕ → UInt8)
    {fuel cluster : ℕ} (offset size : ℕ) (hd : Faultless d) (hchain : FileChain v d.bytes cluster nodes)
    (hoff : offset ≤ size) (hholds : Holds v d.bytes nodes (fun i => text (offset+i)) (size-offset))
    (hfuel : size-offset≤fuel) :
    readChain v size fuel cluster offset buffer d=
      some (toInt size,copyRange buffer offset (size-offset) (fun i => text (offset+i)),d) := by
  induction fuel generalizing cluster offset nodes buffer with
  | zero =>
    obtain rfl : offset=size := by omega
    rw [readChain_stop (by omega),Nat.sub_self,copyRange_zero]
  | succ fuel ih =>
    rcases Nat.eq_or_lt_of_le hoff with rfl | hlt
    · rw [readChain_stop (by omega),Nat.sub_self,copyRange_zero]
    · have hcb := clusterBytes_pos hv
      cases nodes with
      | nil =>
        obtain ⟨x,hx,_⟩ := hholds 0 (by omega)
        simp at hx
      | cons c rest =>
        obtain ⟨rfl,hc,hrest⟩ := (fileChain_cons hv).mp hchain
        have hfirst : copyRange buffer offset (min (size-offset) (clusterBytes v))
            (fun i => d.bytes (dataAddr v cluster+i))=
            copyRange buffer offset (min (size-offset) (clusterBytes v))
              (fun i => text (offset+i)) :=
          copyRange_congr fun i hi => hholds.head (by omega) (by omega)
        have hshift : (fun i => text (offset+min (size-offset) (clusterBytes v)+i))=
            fun i => text (offset+(min (size-offset) (clusterBytes v)+i)) := by
          funext i
          rw [Nat.add_assoc]
        have hnext : Holds v d.bytes rest
            (fun i => text (offset+min (size-offset) (clusterBytes v)+i))
            (size-(offset+min (size-offset) (clusterBytes v))) := by
          rcases Nat.lt_or_ge (clusterBytes v) (size-offset) with hbig | hsmall
          · have hmin : min (size-offset) (clusterBytes v)=clusterBytes v := by omega
            rw [hshift,hmin]
            exact Holds.tail hv (hholds.mono (by omega))
          · intro i hi
            omega
        rw [readChain_round hv hd hc buffer fuel hlt,ih _ _ hrest (by omega) hnext (by omega),
          hfirst,hshift]
        have happ := copyRange_append buffer (fun i => text (offset+i)) offset
          (min (size-offset) (clusterBytes v)) (size-(offset+min (size-offset) (clusterBytes v)))
        rw [happ,show min (size-offset) (clusterBytes v)+
          (size-(offset+min (size-offset) (clusterBytes v)))=size-offset by omega]

end OvsbMk.FatData
