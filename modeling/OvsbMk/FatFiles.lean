import OvsbMk.FatDirectory

/-!
# Writing and reading files

A write stores the bytes on the file's chain, which may take free clusters, and
then puts the size and the first cluster into the file's entry. Reading the file
afterwards gives the bytes back, and chains of other files and directories are
left alone but for these two fields.
-/

namespace OvsbMk.FatFiles

open ByteMemory BlockDisk Fat32 Chains FatTable FatData FatDirectory

variable {v : Volume} {m m' : Bytes} {d : Disk} {c a b cwd size : ℕ} {nodes dir : List ℕ}
  {name83 name : List UInt8}

/-- The entry after a write. -/
def updatedEntry (cluster : ℕ) (result : ℤ) (m : Bytes) (a : ℕ) : Bytes :=
  setFirstCluster (store32 m (a+28) (result%2^32).toNat) a cluster

/-- The update changes the slot only. -/
theorem editor_updated (cluster : ℕ) (result : ℤ) : Editor (updatedEntry cluster result) :=
  (editor_store 28 4 (by norm_num)).comp (editor_setFirstCluster cluster)

/-- Of the slot, the update changes the first cluster and the size only. -/
theorem updatedEntry_outside {cluster : ℕ} {result : ℤ}
    (h : ¬(a+20≤b ∧ b<a+22) ∧ ¬(a+26≤b ∧ b<a+32)) : updatedEntry cluster result m a b=m b := by
  rw [updatedEntry,setFirstCluster,storeBytes_outside (by omega),storeBytes_outside (by omega),
    store32,storeBytes_outside (by omega)]

/-- The first cluster and the size of the updated entry. -/
theorem entryAt_updated {cluster : ℕ} (hc : cluster<2^32) (hs : size<2^31) :
    firstClusterOf (entryAt (updatedEntry cluster size m a) a)=cluster ∧
      (entryAt (updatedEntry cluster size m a) a).size=size := by
  have hsize : ((size : ℤ)%2^32).toNat=size := by omega
  have hhigh : loadBytes (updatedEntry cluster size m a) (a+20) 2=cluster/2^16 := by
    rw [updatedEntry,setFirstCluster,loadBytes_storeBytes_same]
    omega
  have hlow : loadBytes (updatedEntry cluster size m a) (a+26) 2=cluster%2^16 := by
    rw [updatedEntry,setFirstCluster,loadBytes_storeBytes_disjoint (by omega),
      loadBytes_storeBytes_same]
    omega
  have hfield : loadBytes (updatedEntry cluster size m a) (a+28) 4=size := by
    rw [updatedEntry,setFirstCluster,loadBytes_storeBytes_disjoint (by omega),
      loadBytes_storeBytes_disjoint (by omega),hsize,store32,loadBytes_storeBytes_same]
    omega
  refine ⟨?_,hfield⟩
  simp only [firstClusterOf,entryAt,hhigh,hlow]
  omega

/-- The visitor that updates the entry. -/
theorem updateVisit_acts (hd : Faultless d) (name83 : List UInt8) (cluster : ℕ) (result : ℤ) :
    ActsOn (updateVisit name83 cluster result) d (slotHit name83 d.bytes)
      fun a => (result,d.with (updatedEntry cluster result d.bytes a)) := by
  rw [updateVisit_search]
  apply searchVisit_acts hd (movable_hit name83)
  intro lba x hlba hx
  rw [hd.write,sectorAddr_of_lt hlba]
  exact congrArg (fun m => (some result,d.with m)) ((editor_updated cluster result).writeBack hx)

/-- The first cluster of a file, or a new one for an empty file. -/
theorem startCluster_cases (hv : Mounted v) (hd : Faultless d) (e : DirEntry) :
    (firstClusterOf e=0 ∧ ∃ free, startCluster v e d=
        (some free,d.with (setLink v d.bytes free endMark)) ∧ InRange v free ∧
        link v d.bytes free=0) ∨
    (firstClusterOf e=0 ∧ startCluster v e d=(none,d) ∧ ∀ x, InRange v x → link v d.bytes x≠0) ∨
    (firstClusterOf e≠0 ∧ startCluster v e d=(some (firstClusterOf e),d)) := by
  rw [startCluster]
  by_cases hzero : firstClusterOf e=0
  · rw [if_pos hzero]
    dsimp only
    rcases hv.findFree hd with ⟨f,hf,hr,hz,_⟩ | ⟨hf,hnone⟩
    · have hpos := hr.1
      rw [hf]
      dsimp only
      rw [if_neg (by omega),hv.writeEntry hd hr.2]
      exact Or.inl ⟨hzero,f,rfl,hr,hz⟩
    · rw [hf]
      dsimp only
      rw [if_pos rfl]
      exact Or.inr (Or.inl ⟨hzero,rfl,hnone⟩)
  · rw [if_neg hzero]
    exact Or.inr (Or.inr ⟨hzero,rfl⟩)

/-- A new chain of one free cluster. -/
theorem wrote_fresh (hv : Mounted v) (nodes : List ℕ) {free : ℕ} (hf : InRange v free) (hz : link v m free=0) :
    Wrote v m (setLink v m free endMark) nodes ∧
      FileChain v (setLink v m free endMark) free [free] := by
  have hlinks : link v (setLink v m free endMark)=Function.update (link v m) free endMark :=
    link_setLink (by norm_num)
  refine ⟨⟨fun a ha => setLink_outside fun hb => ha ⟨free,Or.inr ⟨hf,hz⟩,Or.inr hb⟩,
    Relation.ReflTransGen.single (.fresh free hf hz fun x _ => ?_)⟩,?_⟩
  · rw [hlinks,Function.update_apply]
  · refine (fileChain_cons hv).mpr ⟨rfl,hf,fileChain_nil.mpr ?_⟩
    rw [hlinks,Function.update_self]
    norm_num

/-- The write loop for any number of bytes, none included. -/
theorem writeChain_any (hv : Mounted v) (buffer : Bytes) {fuel cluster : ℕ} (hd : Faultless d)
    {rest : List ℕ} (hchain : FileChain v d.bytes cluster (cluster::rest)) (hfuel : size≤fuel) :
    WriteOutcome v d (cluster::rest) buffer cluster 0 size
      (writeChain v buffer fuel cluster 0 size d) := by
  rcases Nat.eq_zero_or_pos size with rfl | hpos
  · rw [writeChain_zero]
    refine ⟨d.bytes,Wrote.refl _ _ _,Or.inl ⟨rfl,[],?_,by simp,fun i hi => by omega⟩⟩
    rw [List.append_nil]
    exact hchain
  · have h := writeChain_outcome hv buffer 0 hd hchain hpos hfuel
    simp only [Nat.zero_add] at h
    exact h

/-- The file's chain: none for first cluster zero, else a chain with at least one
cluster. -/
def HasChain (v : Volume) (m : Bytes) (first : ℕ) (nodes : List ℕ) : Prop :=
  first=0 ∧ nodes=[] ∨ first≠0 ∧ nodes≠[] ∧ FileChain v m first nodes

/-- A write before the entry is updated: no cluster was free, or the bytes are on
the chain, which starts with the old one. -/
theorem write_stored (hv : Mounted v) (hd : Faultless d) (hsize : size≤transferRounds)
    (buffer : Bytes) {e : DirEntry} (hnodes : HasChain v d.bytes (firstClusterOf e) nodes) :
    (∀ x, InRange v x → link v d.bytes x≠0) ∧ startCluster v e d=(none,d) ∨
    ∃ cluster d1 m2, startCluster v e d=(some cluster,d1) ∧ Wrote v d.bytes m2 nodes ∧
      (writeChain v buffer transferRounds cluster 0 size d1=some (-1,d.with m2) ∨
        writeChain v buffer transferRounds cluster 0 size d1=some (toInt size,d.with m2) ∧
        ∃ added, (∀ x∈added, InRange v x ∧ link v d.bytes x=0) ∧ InRange v cluster ∧
          FileChain v m2 cluster (nodes++added) ∧ Holds v m2 (nodes++added) buffer size) := by
  rcases startCluster_cases hv hd e with ⟨hzero,free,hs,hr,hz⟩ | ⟨_,hs,hnone⟩ | ⟨hne,hs⟩
  · right
    obtain ⟨rfl⟩ : nodes=[] := by
      rcases hnodes with ⟨_,h⟩ | ⟨h,_⟩
      · exact h
      · exact (h hzero).elim
    obtain ⟨hw,hchain⟩ := wrote_fresh hv [] hr hz
    obtain ⟨m2,hw2,hres⟩ := writeChain_any hv buffer
      (hd.with (setLink v d.bytes free endMark)) hchain hsize
    rw [with_bytes] at hw2
    refine ⟨free,_,m2,hs,hw.trans hw2 fun x hx => ?_,?_⟩
    · rw [List.mem_singleton.mp hx]
      exact Or.inr ⟨hr,hz⟩
    · rcases hres with ⟨hret,added,hch,hadd,hholds⟩ | ⟨hret,_⟩
      · right
        refine ⟨by rw [hret,Nat.zero_add]; rfl,free::added,fun x hx => ?_,hr,hch,hholds⟩
        rcases List.mem_cons.mp hx with rfl | hx
        · exact ⟨hr,hz⟩
        · obtain ⟨hxr,hxz⟩ := hadd x hx
          refine ⟨hxr,?_⟩
          by_contra hxne
          exact grows_used hw.grows hxr hxne hxz
      · exact Or.inl hret
  · exact Or.inl ⟨hnone,hs⟩
  · right
    rcases hnodes with ⟨h,_⟩ | ⟨_,hnil,hchain⟩
    · exact (hne h).elim
    · obtain ⟨x,rest,rfl⟩ := List.exists_cons_of_ne_nil hnil
      obtain ⟨heq,hxr,_⟩ := (fileChain_cons hv).mp hchain
      subst heq
      obtain ⟨m2,hw2,hres⟩ := writeChain_any hv buffer hd hchain hsize
      refine ⟨_,d,m2,hs,hw2,?_⟩
      rcases hres with ⟨hret,added,hch,hadd,hholds⟩ | ⟨hret,_⟩
      · right
        exact ⟨by rw [hret,Nat.zero_add],added,hadd,hxr,hch,hholds⟩
      · exact Or.inl hret

/-- The clusters of a file's chain are in range. -/
theorem HasChain.inRange {first : ℕ} (h : HasChain v m first nodes) : ∀ x∈nodes, InRange v x := by
  rcases h with ⟨_,rfl⟩ | ⟨_,_,h⟩
  · intro x hx
    cases hx
  · exact h.inRange

/-- A signed result of at most 31 bits. -/
theorem toInt_of_lt (h : size<2^31) : toInt size=size := by
  rw [toInt,Nat.mod_eq_of_lt (by omega),if_pos h]

section WriteFile

variable {e : DirEntry} {r result : ℤ} {d0 d1 d2 : Disk} {cluster n : ℕ} {buffer : Bytes}

/-- A write for which there is no first cluster fails. -/
theorem fat32WriteFile_refused (hfind : findEntry v cwd name d=some ((r,some e),d0)) (hr : 0≤r)
    (hstart : startCluster v e d0=(none,d1)) :
    fat32WriteFile v cwd name buffer n d=some (-1,d1) := by
  rw [fat32WriteFile,hfind]
  dsimp only
  rw [if_neg (not_lt.mpr hr),hstart]

/-- A write for which the clusters do not suffice fails. -/
theorem fat32WriteFile_failed (hfind : findEntry v cwd name d=some ((r,some e),d0)) (hr : 0≤r)
    (hstart : startCluster v e d0=(some cluster,d1))
    (hwrite : writeChain v buffer transferRounds cluster 0 n d1=some (result,d2))
    (hneg : result<0) : fat32WriteFile v cwd name buffer n d=some (result,d2) := by
  rw [fat32WriteFile,hfind]
  dsimp only
  rw [if_neg (not_lt.mpr hr),hstart]
  dsimp only
  rw [hwrite]
  dsimp only
  rw [if_pos hneg]

/-- Any other write ends with the update of the entry. -/
theorem fat32WriteFile_stored (hfind : findEntry v cwd name d=some ((r,some e),d0)) (hr : 0≤r)
    (hstart : startCluster v e d0=(some cluster,d1))
    (hwrite : writeChain v buffer transferRounds cluster 0 n d1=some (result,d2))
    (hpos : 0≤result) :
    fat32WriteFile v cwd name buffer n d=
      (walkChain v (updateVisit (nameTo83 name) cluster result) chainRounds cwd d2).map
        fun w => (w.1.getD result,w.2) := by
  rw [fat32WriteFile,hfind]
  dsimp only
  rw [if_neg (not_lt.mpr hr),hstart]
  dsimp only
  rw [hwrite]
  dsimp only
  rw [if_neg (not_lt.mpr hpos)]
  cases hwalk : walkChain v (updateVisit (nameTo83 name) cluster result) chainRounds cwd d2 with
  | none => rfl
  | some w =>
    cases w with
    | mk found d3 => cases found <;> rfl

end WriteFile

/-- All ways a write can go up to the update of the entry. -/
theorem fat32WriteFile_cases (hv : Mounted v) (hd : Faultless d) (hsize : size<2^32)
    (buffer : Bytes) {e : DirEntry} {r : ℤ} (hfind : findEntry v cwd name d=some ((r,some e),d))
    (hr : 0≤r) (hnodes : HasChain v d.bytes (firstClusterOf e) nodes) :
    ∃ m2, Wrote v d.bytes m2 nodes ∧
      (fat32WriteFile v cwd name buffer size d=some (-1,d.with m2) ∨
        (2^31 ≤ size ∧ fat32WriteFile v cwd name buffer size d=some (toInt size,d.with m2)) ∨
        size<2^31 ∧ ∃ cluster added, (∀ x∈added, InRange v x ∧ link v d.bytes x=0) ∧
          InRange v cluster ∧ FileChain v m2 cluster (nodes++added) ∧
          Holds v m2 (nodes++added) buffer size ∧
          ∀ w, walkChain v (updateVisit (nameTo83 name) cluster size) chainRounds cwd
              (d.with m2)=some w →
            fat32WriteFile v cwd name buffer size d=some (w.1.getD size,w.2)) := by
  rcases write_stored hv hd hsize.le buffer hnodes with
    ⟨_,hs⟩ | ⟨cluster,d1,m2,hs,hw,hret | ⟨hret,added,hadd,hcr,hchain,hholds⟩⟩
  · exact ⟨d.bytes,Wrote.refl _ _ _,Or.inl (fat32WriteFile_refused hfind hr hs)⟩
  · exact ⟨m2,hw,Or.inl (fat32WriteFile_failed hfind hr hs hret (by norm_num))⟩
  · refine ⟨m2,hw,Or.inr ?_⟩
    rcases Nat.lt_or_ge size (2^31) with hlt | hge
    · refine Or.inr ⟨hlt,cluster,added,hadd,hcr,hchain,hholds,fun w hwalk => ?_⟩
      rw [toInt_of_lt hlt] at hret
      rw [fat32WriteFile_stored hfind hr hs hret (Int.natCast_nonneg size),hwalk]
      rfl
    · have hneg : toInt size<0 := by
        rw [toInt,Nat.mod_eq_of_lt hsize,if_neg (by omega)]
        omega
      exact Or.inl ⟨hge,fat32WriteFile_failed hfind hr hs hret hneg⟩

/-- The update finds the entry of the name in a directory whose slots have not
changed. -/
theorem update_eq (hv : Mounted v) (hd : Faultless d) {cluster : ℕ} {result : ℤ}
    (hdir : FileChain v d.bytes cwd dir) (hres : Resolves v d.bytes dir name83 a) :
    walkChain v (updateVisit name83 cluster result) chainRounds cwd d=
      some (some result,d.with (updatedEntry cluster result d.bytes a)) := by
  rw [walkChain_eq hv hd (updateVisit_acts hd name83 cluster result) hdir
    (FileChain.length_le hv hdir),hres.first_hit]

/-- After an update the name is found in the same slot. -/
theorem Resolves.updated (hres : Resolves v m dir name83 a) (cluster : ℕ) (result : ℤ) :
    Resolves v (updatedEntry cluster result m a) dir name83 a := by
  refine hres.congr fun b hb i hi => updatedEntry_outside ?_
  rcases eq_or_ne b a with rfl | hne
  · omega
  · rcases slots_apart hb hres.mem hne with h | h <;> omega

/-- An update changes contents of a cluster of the directory only. -/
theorem updated_outside (ha : a∈slots v dir) {cluster : ℕ} {result : ℤ}
    (hb : ∀ c∈dir, ¬DataByte v c b) : updatedEntry cluster result m a b=m b := by
  obtain ⟨c,hc,hbyte⟩ := slot_dataByte ha
  refine (editor_updated cluster result).outside m a b ?_
  by_contra hin
  have := hbyte (b-a) (by omega)
  rw [show a+(b-a)=b by omega] at this
  exact hb c hc this

/-- A file of a directory: its entry is found under the name, its clusters are no
clusters of the directory, and they hold the text. -/
structure FileAt (v : Volume) (m : Bytes) (cwd : ℕ) (dir : List ℕ) (name83 : List UInt8) (a : ℕ)
    (nodes : List ℕ) (text : ℕ → UInt8) (size : ℕ) : Prop where
  /-- Chain of the directory. -/
  directory : FileChain v m cwd dir
  /-- Slot of the entry. -/
  found : Resolves v m dir name83 a
  /-- Chain of the file. -/
  chain : HasChain v m (firstClusterOf (entryAt m a)) nodes
  /-- The file and its directory are apart. -/
  apart : ∀ x∈nodes, x∉dir
  /-- The size in the entry. -/
  length : (entryAt m a).size=size
  /-- The clusters hold the text. -/
  holds : Holds v m nodes text size

/-- Reading a file gives the beginning of its text. -/
theorem FileAt.read (hv : Mounted v) (hd : Faultless d) {text : ℕ → UInt8}
    (h : FileAt v d.bytes cwd dir (nameTo83 name) a nodes text size) (buffer : Bytes) {k : ℕ}
    (hk : min k size<2^31) : fat32ReadFile v cwd name buffer k d=
      some (((min k size : ℕ) : ℤ),copyRange buffer 0 (min k size) text,d) := by
  obtain ⟨r,hr,hfind⟩ := Resolves.findEntry hv hd h.directory h.found
  rw [fat32ReadFile,hfind]
  dsimp only
  rw [if_neg (by omega),h.length]
  rcases h.chain with ⟨hzero,rfl⟩ | ⟨hne,_,hchain⟩
  · obtain rfl : size=0 := by
      by_contra hpos
      obtain ⟨x,hx,_⟩ := h.holds 0 (by omega)
      simp at hx
    rw [if_pos hzero,Nat.min_zero,copyRange_zero]
    rfl
  · have hread := @readChain_eq v _ _ hv buffer text transferRounds _ 0 (min k size) hd hchain
      (Nat.zero_le _)
      (by
        simp only [Nat.zero_add,Nat.sub_zero]
        exact h.holds.mono (Nat.min_le_right _ _))
      (by simp only [transferRounds]; omega)
    simp only [Nat.zero_add,Nat.sub_zero] at hread
    rw [if_neg hne,hread,toInt_of_lt hk]

/-- After a write that succeeds the file holds what was written, on its old clusters
and on some that were free. -/
theorem write_fileAt (hv : Mounted v) (hd : Faultless d) (hdir : FileChain v d.bytes cwd dir)
    (hres : Resolves v d.bytes dir (nameTo83 name) a)
    (hnodes : HasChain v d.bytes (firstClusterOf (entryAt d.bytes a)) nodes)
    (hdisj : ∀ x∈nodes, x∉dir) {n : ℕ} (hn : n<2^31) (text : Bytes) {d2 : Disk}
    (hwrite : fat32WriteFile v cwd name text n d=some ((n : ℤ),d2)) :
    ∃ m3 added, d2=d.with m3 ∧ (∀ x∈added, InRange v x ∧ link v d.bytes x=0) ∧
      FileAt v m3 cwd dir (nameTo83 name) a (nodes++added) text n := by
  obtain ⟨r,hr,hfind⟩ := Resolves.findEntry hv hd hdir hres
  have hlt : n<2^32 := by omega
  obtain ⟨m2,hw,hcases⟩ := fat32WriteFile_cases hv hd hlt text hfind hr hnodes
  rcases hcases with hret | ⟨hbig,_⟩ | ⟨_,cluster,added,hadd,hcr,hchain,hholds,hret⟩
  · rw [hret] at hwrite
    simp only [Option.some.injEq,Prod.mk.injEq] at hwrite
    omega
  · omega
  have hkeep : ∀ c∈dir, ∀ x, DataByte v c x ∨ LinkByte v c x → m2 x=d.bytes x :=
    fun c hc x hx => hw.keeps hv hnodes.inRange hdir (fun y hy hy' => hdisj y hy' hy) hc hx
  have hdir2 : FileChain v m2 cwd dir := hdir.kept fun c hc x hx => hkeep c hc x (Or.inr hx)
  have hres2 : Resolves v m2 dir (nameTo83 name) a := by
    refine hres.congr fun b hb i hi => ?_
    obtain ⟨c,hc,hbyte⟩ := slot_dataByte hb
    exact hkeep c hc _ (Or.inl (hbyte i (by omega)))
  have hret2 := hret _ (update_eq hv (hd.with m2) hdir2 hres2)
  rw [with_bytes,with_with] at hret2
  rw [hret2] at hwrite
  simp only [Option.some.injEq,Prod.mk.injEq] at hwrite
  obtain ⟨_,rfl⟩ := hwrite
  have hnot : ∀ x∈nodes++added, x∉dir := by
    intro x hx hxd
    rcases List.mem_append.mp hx with hx | hx
    · exact hdisj x hx hxd
    · exact hdir.link_ne_zero hv hxd (hadd x hx).2
  have hkeep3 : ∀ b, (∀ c∈dir, ¬DataByte v c b) →
      updatedEntry cluster n m2 a b=m2 b := fun b hb => updated_outside hres.mem hb
  have hlinks : ∀ c, InRange v c → ∀ b, LinkByte v c b → updatedEntry cluster n m2 a b=m2 b :=
    fun c hc b hb => hkeep3 b fun c' hc' => hv.link_not_data hc.2 (hdir.inRange c' hc') hb
  have hchain3 : FileChain v (updatedEntry cluster n m2 a) cluster (nodes++added) :=
    hchain.kept fun c hc => hlinks c (hchain.inRange c hc)
  have hclt : cluster<2^32 := by
    have h1 := hv.clusters_lt
    have h2 := hcr.2
    simp only [endOfChain] at h1
    omega
  obtain ⟨hfirst,hfield⟩ := entryAt_updated (m:=m2) (a:=a) hclt hn
  refine ⟨_,added,rfl,hadd,?_,Resolves.updated hres2 cluster n,?_,hnot,hfield,?_⟩
  · exact hdir2.kept fun c hc => hlinks c (hdir.inRange c hc)
  · have hpos := hcr.1
    rw [hfirst]
    refine Or.inr ⟨by omega,?_,hchain3⟩
    intro hnil
    rw [hnil] at hchain3
    have hend := fileChain_nil.mp hchain3
    have h1 := hv.clusters_lt
    have h2 := hcr.2
    omega
  · intro i hi
    obtain ⟨c,hc,htext⟩ := hholds i hi
    have hmem : c∈nodes++added := List.mem_of_getElem? hc
    refine ⟨c,hc,(hkeep3 _ fun c' hc' hbyte => ?_).trans htext⟩
    have hpos := clusterBytes_pos hv
    have hmod := Nat.mod_lt i hpos
    refine data_disjoint (hchain.inRange c hmem) (hdir.inRange c' hc') ?_ ⟨by omega,by omega⟩ hbyte
    rintro rfl
    exact hnot c hmem hc'

/-- What was written to a file is what is read from it. -/
theorem write_then_read (hv : Mounted v) (hd : Faultless d) (hdir : FileChain v d.bytes cwd dir)
    {e : DirEntry} {r : ℤ} {d1 d2 : Disk} (hfind : findEntry v cwd name d=some ((r,some e),d1))
    (hr : 0≤r) (hnodes : HasChain v d.bytes (firstClusterOf e) nodes) (hdisj : ∀ x∈nodes, x∉dir)
    {n : ℕ} (hn : n<2^31) (text : Bytes)
    (hwrite : fat32WriteFile v cwd name text n d=some ((n : ℤ),d2)) (buffer : Bytes) (k : ℕ) :
    fat32ReadFile v cwd name buffer k d2=
      some (((min k n : ℕ) : ℤ),copyRange buffer 0 (min k n) text,d2) := by
  obtain ⟨a,hres,rfl,rfl⟩ := resolves_of_findEntry hv hd hdir hfind
  obtain ⟨m3,added,rfl,_,hfile⟩ := write_fileAt hv hd hdir hres hnodes hdisj hn text hwrite
  exact FileAt.read hv (hd.with m3) hfile buffer (by omega)

/-- A volume of eight clusters. -/
def sampleVolume : Volume where
  sectorsPerCluster := 1
  fatStartSector := 1
  sectorsPerFat32 := 1
  firstDataSector := 2
  totalSectors32 := 10
  rootCluster := 2
  sectorsPerCluster_lt := by norm_num
  fatStartSector_lt := by norm_num
  sectorsPerFat32_lt := by norm_num
  firstDataSector_lt := by norm_num
  totalSectors32_lt := by norm_num
  rootCluster_lt := by norm_num

/-- The sample volume is well-formed and within reach of the driver. -/
theorem sampleVolume_mounted : Mounted sampleVolume where
  cluster_pos := by decide
  data_le := by decide
  links := by decide +kernel
  apart := by decide
  addressed := by
    simp only [Addressed,sampleVolume,addressable]
    norm_num

/-- A disk whose root directory has one empty file, under the name `A`. -/
def sampleDisk : Disk :=
  ⟨copyRange (storeBytes (fun _ => 0) 520 4 endMark) 1024 12
    fun i => ([0x41,0x20,0x20,0x20,0x20,0x20,0x20,0x20,0x20,0x20,0x20,0x20] : List UInt8).getD i 0,
    fun _ _ _ => false⟩

/-- The root directory of the sample disk is its first cluster. -/
theorem sampleDisk_root : FileChain sampleVolume sampleDisk.bytes 2 [2] := by
  have hrange : InRange sampleVolume 2 := ⟨le_rfl,by decide +kernel⟩
  have hlink : link sampleVolume sampleDisk.bytes 2=endMark := by decide +kernel
  refine (fileChain_cons sampleVolume_mounted).mpr ⟨rfl,hrange,fileChain_nil.mpr ?_⟩
  rw [hlink]
  norm_num

/-- The file is found in the sample disk and is empty. -/
theorem sampleDisk_find : ∃ e, findEntry sampleVolume 2 [0x41] sampleDisk=
    some ((2,some e),sampleDisk) ∧ firstClusterOf e=0 := by
  have hsearch : (slots sampleVolume [2]).find? (stopTest (nameTo83 [0x41]) sampleDisk.bytes)=
      some 1024 := by decide +kernel
  have hlive : slotEnd sampleDisk.bytes 1024=false := by decide +kernel
  have hzero : firstClusterOf (entryAt sampleDisk.bytes 1024)=0 := by decide +kernel
  refine ⟨entryAt sampleDisk.bytes 1024,?_,hzero⟩
  rw [findEntry_eq sampleVolume_mounted (show Faultless sampleDisk from rfl) sampleDisk_root,hsearch]
  dsimp only
  rw [findAnswer,hlive,if_neg (by decide)]
  rfl

/-- A thousand bytes written to the file, of which seven hundred are read back. -/
theorem sampleDisk_write_then_read :
    ∃ d2, fat32WriteFile sampleVolume 2 [0x41] UInt8.ofNat 1000 sampleDisk=
        some (((1000 : ℕ) : ℤ),d2) ∧
      fat32ReadFile sampleVolume 2 [0x41] (fun _ => 0) 700 d2=
        some (((min 700 1000 : ℕ) : ℤ),copyRange (fun _ => 0) 0 (min 700 1000) UInt8.ofNat,d2) := by
  have hresult : (fat32WriteFile sampleVolume 2 [0x41] UInt8.ofNat 1000 sampleDisk).map (·.1)=
      some 1000 := by decide +kernel
  obtain ⟨⟨r,d2⟩,hwrite,hr⟩ := Option.map_eq_some_iff.mp hresult
  obtain rfl : r=1000 := hr
  obtain ⟨e,hfind,hzero⟩ := sampleDisk_find
  exact ⟨d2,hwrite,write_then_read sampleVolume_mounted (show Faultless sampleDisk from rfl)
    sampleDisk_root hfind (by norm_num) (Or.inl ⟨hzero,rfl⟩) (fun x hx => by cases hx)
    (by norm_num) UInt8.ofNat hwrite (fun _ => 0) 700⟩

/-- The part of a chain from one of its clusters on. -/
theorem FileChain.suffix (hv : Mounted v) {start : ℕ} {before after : List ℕ}
    (h : FileChain v m start (before++c::after)) : FileChain v m c (c::after) := by
  induction before generalizing start with
  | nil =>
    obtain ⟨rfl,_⟩ := (fileChain_cons hv).mp h
    exact h
  | cons x before ih => exact ih ((fileChain_cons hv).mp h).2.2

/-- Chains with a common cluster end in the same cluster. -/
theorem FileChain.last_eq (hv : Mounted v) {start start' : ℕ} {other : List ℕ}
    (h : FileChain v m start nodes) (h' : FileChain v m start' other) (hc : c∈nodes)
    (hc' : c∈other) : nodes.getLast?=other.getLast? := by
  obtain ⟨before,after,rfl⟩ := List.append_of_mem hc
  obtain ⟨before',after',rfl⟩ := List.append_of_mem hc'
  have h1 := FileChain.suffix hv h
  have h2 := FileChain.suffix hv h'
  obtain rfl : after=after' := by
    have := h1.chain.unique h2.chain
    simpa using this
  rw [List.getLast?_append,List.getLast?_append]
  rfl

/-- A directory that runs into the file's chain grows with it. -/
theorem grown_chain (hv : Mounted v) {first start : ℕ} {added : List ℕ}
    (hnodes : FileChain v m first nodes) (hgrown : FileChain v m' first (nodes++added))
    (hkeep : ∀ c∈dir, c∉nodes → link v m' c=link v m c) (hdir : FileChain v m start dir)
    (hmeet : ∃ x∈dir, x∈nodes) : FileChain v m' start (dir++added) := by
  induction dir generalizing start with
  | nil =>
    obtain ⟨x,hx,_⟩ := hmeet
    cases hx
  | cons y rest ih =>
    obtain ⟨rfl,hy,hrest⟩ := (fileChain_cons hv).mp hdir
    by_cases hmem : start∈nodes
    · obtain ⟨before,after,rfl⟩ := List.append_of_mem hmem
      have h1 := FileChain.suffix hv hnodes
      obtain rfl : rest=after := by
        have := hdir.chain.unique h1.chain
        simpa using this
      rw [List.append_assoc] at hgrown
      exact FileChain.suffix hv hgrown
    · refine (fileChain_cons hv).mpr ⟨rfl,hy,?_⟩
      rw [hkeep start (by simp) hmem]
      refine ih (fun c hc => hkeep c (by simp [hc])) hrest ?_
      obtain ⟨x,hx,hxn⟩ := hmeet
      rcases List.mem_cons.mp hx with rfl | hx
      · exact (hmem hxn).elim
      · exact ⟨x,hx,hxn⟩

/-- A link to another cluster. -/
def Points (x : ℕ) : Prop := x≠0 ∧ x<endOfChain

/-- The table is a set of disjoint chains: links lead to clusters of the volume
that are in use, no cluster has two predecessors, and there are no cycles. -/
structure LinksOk (v : Volume) (m : Bytes) : Prop where
  /-- Links lead to clusters in use. -/
  target : ∀ c, InRange v c → Points (link v m c) →
    InRange v (link v m c) ∧ link v m (link v m c)≠0
  /-- No cluster has two predecessors. -/
  single : ∀ c c', InRange v c → InRange v c' → Points (link v m c) →
    link v m c=link v m c' → c=c'
  /-- There are no cycles. -/
  acyclic : ∀ c, ¬Relation.TransGen (fun x y => InRange v x ∧ Points (link v m x) ∧ link v m x=y) c c

/-- Ends of chains do not point. -/
theorem not_points_end : ¬Points endMark := by
  rintro ⟨_,h⟩
  norm_num at h

/-- The same links, the same structure. -/
theorem LinksOk.congr (h : LinksOk v m) (heq : ∀ c, InRange v c → link v m' c=link v m c) :
    LinksOk v m' := by
  refine ⟨fun c hc hp => ?_,fun c c' hc hc' hp he => ?_,fun c hcycle => h.acyclic c ?_⟩
  · rw [heq c hc] at hp ⊢
    obtain ⟨h1,h2⟩ := h.target c hc hp
    exact ⟨h1,by rwa [heq _ h1]⟩
  · rw [heq c hc] at hp
    rw [heq c hc,heq c' hc'] at he
    exact h.single c c' hc hc' hp he
  · refine hcycle.lift id fun x y hxy => ?_
    obtain ⟨h1,h2,h3⟩ := hxy
    rw [heq x h1] at h2 h3
    exact ⟨h1,h2,h3⟩

/-- A table that differs in clusters without successors, and in links to one new
cluster without other predecessors, has no new cycle. -/
theorem acyclic_of_sink {r r' : ℕ → ℕ → Prop} (free : ℕ) (hsink : ∀ y, ¬r' free y)
    (hstep : ∀ x y, r' x y → y=free ∨ r x y) (hr : ∀ c, ¬Relation.TransGen r c c) (c : ℕ) :
    ¬Relation.TransGen r' c c := by
  have hfree : ∀ y, ¬Relation.TransGen r' free y := by
    intro y h
    obtain ⟨z,hz,_⟩ := Relation.TransGen.head'_iff.mp h
    exact hsink z hz
  have hlift : ∀ x y, Relation.TransGen r' x y → y=free ∨ Relation.TransGen r x y := by
    intro x y h
    induction h with
    | single h => exact (hstep _ _ h).imp id Relation.TransGen.single
    | tail _ h ih =>
      rcases hstep _ _ h with rfl | h'
      · exact Or.inl rfl
      · rcases ih with rfl | ih
        · exact (hsink _ h).elim
        · exact Or.inr (ih.tail h')
  intro h
  rcases hlift c c h with rfl | h'
  · exact hfree _ h
  · exact hr c h'

/-- No link leads to a free cluster. -/
theorem LinksOk.ne_free {free : ℕ} (hok : LinksOk v m) (hfree : link v m free=0) (hc : InRange v c)
    (hp : Points (link v m c)) : link v m c≠free := by
  intro he
  exact (hok.target c hc hp).2 (by rw [he]; exact hfree)

/-- A free cluster that becomes a chain keeps the table a set of disjoint chains. -/
theorem LinksOk.fresh {free : ℕ} (hok : LinksOk v m) (hfree : link v m free=0)
    (heq : ∀ c, InRange v c → link v m' c=if c=free then endMark else link v m c) :
    LinksOk v m' := by
  have hlink : ∀ c, InRange v c → Points (link v m' c) → c≠free ∧ link v m' c=link v m c := by
    intro c hc hp
    have hcf : c≠free := by
      rintro rfl
      rw [heq c hc,if_pos rfl] at hp
      exact not_points_end hp
    exact ⟨hcf,by rw [heq c hc,if_neg hcf]⟩
  refine ⟨fun c hc hp => ?_,fun c c' hc hc' hp he => ?_,?_⟩
  · obtain ⟨_,hl⟩ := hlink c hc hp
    rw [hl] at hp ⊢
    obtain ⟨h1,h2⟩ := hok.target c hc hp
    refine ⟨h1,?_⟩
    rw [heq _ h1,if_neg (hok.ne_free hfree hc hp)]
    exact h2
  · obtain ⟨_,hl⟩ := hlink c hc hp
    have hp' : Points (link v m' c') := he ▸ hp
    obtain ⟨_,hl'⟩ := hlink c' hc' hp'
    rw [hl] at hp
    rw [hl,hl'] at he
    exact hok.single c c' hc hc' hp he
  · refine acyclic_of_sink free ?_ ?_ hok.acyclic
    · rintro y ⟨h1,h2,_⟩
      exact (hlink free h1 h2).1 rfl
    · rintro x y ⟨h1,h2,h3⟩
      obtain ⟨_,hl⟩ := hlink x h1 h2
      rw [hl] at h2 h3
      exact Or.inr ⟨h1,h2,h3⟩

/-- A free cluster that is put after the last one of a chain keeps the table a set of
disjoint chains. -/
theorem LinksOk.extend {last free : ℕ} (hok : LinksOk v m) (hf : InRange v free)
    (hfree : link v m free=0) (heq : ∀ c, InRange v c → link v m' c=
      if c=free then endMark else if c=last then free else link v m c) : LinksOk v m' := by
  have hlink : ∀ c, InRange v c → Points (link v m' c) → c≠free ∧
      (c=last ∧ link v m' c=free ∨ c≠last ∧ link v m' c=link v m c) := by
    intro c hc hp
    have hcf : c≠free := by
      rintro rfl
      rw [heq c hc,if_pos rfl] at hp
      exact not_points_end hp
    refine ⟨hcf,?_⟩
    rw [heq c hc,if_neg hcf]
    by_cases hcl : c=last
    · rw [if_pos hcl]
      exact Or.inl ⟨hcl,rfl⟩
    · rw [if_neg hcl]
      exact Or.inr ⟨hcl,rfl⟩
  refine ⟨fun c hc hp => ?_,fun c c' hc hc' hp he => ?_,?_⟩
  · rcases (hlink c hc hp).2 with ⟨_,he⟩ | ⟨_,he⟩
    · rw [he]
      refine ⟨hf,?_⟩
      rw [heq free hf,if_pos rfl]
      norm_num
    · rw [he] at hp ⊢
      obtain ⟨h1,h2⟩ := hok.target c hc hp
      refine ⟨h1,?_⟩
      rw [heq _ h1,if_neg (hok.ne_free hfree hc hp)]
      split
      · have := hf.1
        omega
      · exact h2
  · have hp' : Points (link v m' c') := he ▸ hp
    rcases (hlink c hc hp).2 with ⟨h1,h2⟩ | ⟨h1,h2⟩ <;>
      rcases (hlink c' hc' hp').2 with ⟨h3,h4⟩ | ⟨h3,h4⟩
    · exact h1.trans h3.symm
    · rw [h4] at hp' he
      exact (hok.ne_free hfree hc' hp' (he.symm.trans h2)).elim
    · rw [h2] at hp he
      exact (hok.ne_free hfree hc hp (he.trans h4)).elim
    · rw [h2] at hp he
      rw [h4] at he
      exact hok.single c c' hc hc' hp he
  · refine acyclic_of_sink free ?_ ?_ hok.acyclic
    · rintro y ⟨h1,h2,_⟩
      exact (hlink free h1 h2).1 rfl
    · rintro x y ⟨h1,h2,h3⟩
      rcases (hlink x h1 h2).2 with ⟨_,he⟩ | ⟨_,he⟩
      · exact Or.inl (h3.symm.trans he)
      · rw [he] at h2 h3
        exact Or.inr ⟨h1,h2,h3⟩

/-- Growing a file keeps the table a set of disjoint chains. -/
theorem Grow.linksOk (h : Grow v m m') (hok : LinksOk v m) : LinksOk v m' := by
  cases h with
  | same heq => exact hok.congr heq
  | fresh free hf hfree heq => exact hok.fresh hfree heq
  | extend last free hl hf hlast hfree heq => exact hok.extend hf hfree heq

/-- Growing in several steps. -/
theorem grows_linksOk (h : Relation.ReflTransGen (Grow v) m m') (hok : LinksOk v m) :
    LinksOk v m' := by
  induction h with
  | refl => exact hok
  | tail _ hstep ih => exact Grow.linksOk hstep ih

/-- The bytes of the first cluster and the size of the entry in a slot. -/
def EntryField (slot a : ℕ) : Prop := slot+20≤a ∧ a<slot+22 ∨ slot+26≤a ∧ a<slot+32

/-- Between two states of the disk a chain keeps its links, and its contents but
for the first cluster and the size in one slot. -/
def ChainKept (v : Volume) (m m' : Bytes) (slot : ℕ) (other : List ℕ) : Prop :=
  ∀ c∈other, (∀ a, LinkByte v c a → m' a=m a) ∧
    ∀ a, DataByte v c a → ¬EntryField slot a → m' a=m a

/-- An update of an entry of a directory changes no link. -/
theorem link_updated (hv : Mounted v) (hdir : ∀ x∈dir, InRange v x) (ha : a∈slots v dir)
    {cluster : ℕ} {result : ℤ} (hc : InRange v c) :
    link v (updatedEntry cluster result m a) c=link v m c :=
  link_congr fun _ hb => updated_outside ha fun _ hx => hv.link_not_data hc.2 (hdir _ hx) hb

/-- A chain whose links and contents are as before is kept. -/
theorem chainKept_of_same {slot : ℕ} {other : List ℕ}
    (hkeep : ∀ c∈other, ∀ b, DataByte v c b ∨ LinkByte v c b → m' b=m b) :
    ChainKept v m m' slot other := by
  refine fun c hc => ⟨fun b hb => ?_,fun b hb _ => ?_⟩
  · exact hkeep c hc b (Or.inr hb)
  · exact hkeep c hc b (Or.inl hb)

/-- The disk after a write whose update found the entry in its old slot. -/
theorem updated_kept (hv : Mounted v) (hdir : ∀ x∈dir, InRange v x) (ha : a∈slots v dir)
    {cluster : ℕ} {result : ℤ} {other : List ℕ} {start : ℕ} (hother : FileChain v m start other)
    (hkeep : ∀ c∈other, ∀ b, DataByte v c b ∨ LinkByte v c b → m' b=m b) :
    ChainKept v m (updatedEntry cluster result m' a) a other := by
  refine fun c hc => ⟨fun b hb => ?_,fun b hb hfield => ?_⟩
  · rw [updated_outside ha fun x hx =>
      hv.link_not_data (hother.inRange c hc).2 (hdir x hx) hb]
    exact hkeep c hc b (Or.inr hb)
  · rw [updatedEntry_outside (by simp only [EntryField] at hfield; omega)]
    exact hkeep c hc b (Or.inl hb)

/-- The disk after a write whose update went to some slot outside the chain. -/
theorem updated_kept_apart (hv : Mounted v) (hdir : ∀ x∈dir, InRange v x) (hb : b∈slots v dir)
    {cluster slot : ℕ} {result : ℤ} {other : List ℕ} {start : ℕ}
    (hother : FileChain v m start other) (happart : ∀ c∈other, c∉dir)
    (hkeep : ∀ c∈other, ∀ b, DataByte v c b ∨ LinkByte v c b → m' b=m b) :
    ChainKept v m (updatedEntry cluster result m' b) slot other := by
  refine chainKept_of_same fun c hc y hy => ?_
  rw [updated_outside hb fun z hz hzy => ?_]
  · exact hkeep c hc y hy
  · have hcr := hother.inRange c hc
    rcases hy with hy | hy
    · have hne : c≠z := fun heq => happart c hc (heq ▸ hz)
      exact data_disjoint hcr (hdir z hz) hne hy hzy
    · exact hv.link_not_data hcr.2 (hdir z hz) hy hzy

/-- A file with clusters keeps its first one when its chain grows. -/
theorem HasChain.first_of_grown (hv : Mounted v) {first cluster : ℕ} {added : List ℕ}
    (h : HasChain v m first nodes) (hne : nodes≠[]) (hgrown : FileChain v m' cluster (nodes++added)) :
    FileChain v m cluster nodes := by
  obtain ⟨_,hnil⟩ | ⟨_,_,hfile⟩ := h
  · exact (hne hnil).elim
  · obtain ⟨y,rest,rfl⟩ := List.exists_cons_of_ne_nil hne
    have h1 := ((fileChain_cons hv).mp hfile).1
    have h2 := ((fileChain_cons hv).mp hgrown).1
    rw [h1] at hfile
    rwa [h2]

/-- A chain disjoint from one of two chains that meet is disjoint from the other one,
also after that has grown by free clusters. -/
theorem FileChain.apart_of_meet (hv : Mounted v) {start start' : ℕ} {other added : List ℕ}
    (hdir : FileChain v m cwd dir) (hfile : FileChain v m start nodes) (hcd : c∈dir) (hcn : c∈nodes)
    (hfree : ∀ x∈added, link v m x=0) (hother : FileChain v m start' other)
    (hdisj : ∀ x∈other, x∉nodes) : ∀ x∈other, x∉dir++added := by
  intro x hx hmem
  rcases List.mem_append.mp hmem with hmem | hmem
  · have h1 := FileChain.last_eq hv hother hdir hx hmem
    have h2 := FileChain.last_eq hv hdir hfile hcd hcn
    obtain ⟨z,hz⟩ := Option.isSome_iff_exists.mp
      (List.getLast?_isSome.mpr (List.ne_nil_of_mem hx))
    have hz' : z∈nodes := List.mem_of_getLast? ((h1.trans h2).symm.trans hz)
    exact hdisj z (List.mem_of_getLast? hz) hz'
  · exact hother.link_ne_zero hv hx (hfree x hmem)

/-- Writing a file leaves all chains disjoint from its own alone, but for the
first cluster and the size in its entry, and keeps the table a set of disjoint
chains. -/
theorem write_leaves_others (hv : Mounted v) (hd : Faultless d) (hdir : FileChain v d.bytes cwd dir)
    {e : DirEntry} {r : ℤ} {d1 : Disk} (hfind : findEntry v cwd name d=some ((r,some e),d1))
    (hr : 0≤r) (hnodes : HasChain v d.bytes (firstClusterOf e) nodes) (hsize : size<2^32)
    (text : Bytes) :
    ∃ ret d2, fat32WriteFile v cwd name text size d=some (ret,d2) ∧
      (size<2^31 → ret=size ∨ ret=-1) ∧
      (∃ slot∈slots v dir, entryAt d.bytes slot=e ∧ ∀ start other,
        FileChain v d.bytes start other → (∀ x∈other, x∉nodes) →
          ChainKept v d.bytes d2.bytes slot other) ∧
      (LinksOk v d.bytes → LinksOk v d2.bytes) := by
  obtain ⟨a,hres,rfl,rfl⟩ := resolves_of_findEntry hv hd hdir hfind
  obtain ⟨m2,hw,hcases⟩ := fat32WriteFile_cases hv hd hsize text hfind hr hnodes
  have hkeep : ∀ start other, FileChain v d1.bytes start other → (∀ x∈other, x∉nodes) →
      ∀ c∈other, ∀ b, DataByte v c b ∨ LinkByte v c b → m2 b=d1.bytes b :=
    fun start other hother hdisj c hc b hb => hw.keeps hv hnodes.inRange hother hdisj hc hb
  have hok : LinksOk v d1.bytes → LinksOk v m2 := grows_linksOk hw.grows
  have hplain : ∀ ret, fat32WriteFile v cwd name text size d1=some (ret,d1.with m2) →
      (size<2^31 → ret=size ∨ ret=-1) → ∃ ret d2, fat32WriteFile v cwd name text size d1=
        some (ret,d2) ∧ (size<2^31 → ret=size ∨ ret=-1) ∧
      (∃ slot∈slots v dir, entryAt d1.bytes slot=entryAt d1.bytes a ∧ ∀ start other,
        FileChain v d1.bytes start other → (∀ x∈other, x∉nodes) →
          ChainKept v d1.bytes d2.bytes slot other) ∧
      (LinksOk v d1.bytes → LinksOk v d2.bytes) := by
    intro ret hret hval
    refine ⟨ret,_,hret,hval,⟨a,hres.mem,rfl,fun start other hother hdisj => ?_⟩,hok⟩
    exact chainKept_of_same (hkeep start other hother hdisj)
  rcases hcases with hret | ⟨hbig,hret⟩ | ⟨_,cluster,added,hadd,hcr,hchain,_,hret⟩
  · exact hplain _ hret fun _ => Or.inr rfl
  · exact hplain _ hret fun h => by omega
  · by_cases hmeet : ∃ x∈dir, x∈nodes
    · obtain ⟨x,hxd,hxn⟩ := hmeet
      have hfile := HasChain.first_of_grown hv hnodes (List.ne_nil_of_mem hxn) hchain
      have hdir2 : FileChain v m2 cwd (dir++added) := by
        refine grown_chain hv hfile hchain (fun c hc hcn => ?_) hdir ⟨x,hxd,hxn⟩
        exact hw.link_eq hv (hdir.inRange c hc) hcn (hdir.link_ne_zero hv hc) hnodes.inRange
      have hwalk := walkChain_eq hv (hd.with m2)
        (updateVisit_acts (hd.with m2) (nameTo83 name) cluster size) hdir2
        (FileChain.length_le hv hdir2)
      rw [with_bytes] at hwalk
      cases hslot : (slots v (dir++added)).find? (slotHit (nameTo83 name) m2) with
      | none =>
        rw [hslot] at hwalk
        exact hplain _ (hret _ hwalk) fun _ => Or.inl rfl
      | some b =>
        rw [hslot] at hwalk
        dsimp only at hwalk
        rw [with_with] at hwalk
        have hb : b∈slots v (dir++added) := List.mem_of_find?_eq_some hslot
        refine ⟨_,_,hret _ hwalk,fun _ => Or.inl rfl,⟨a,hres.mem,rfl,?_⟩,fun hl => ?_⟩
        · intro start other hother hdisj
          have happart := FileChain.apart_of_meet hv hdir hfile hxd hxn (fun y hy => (hadd y hy).2)
            hother hdisj
          exact updated_kept_apart hv hdir2.inRange hb hother happart (hkeep start other hother hdisj)
        · exact (hok hl).congr fun c hc => link_updated hv hdir2.inRange hb hc
    · have hdisj : ∀ x∈dir, x∉nodes := fun x hx hxn => hmeet ⟨x,hx,hxn⟩
      have hkeepdir := hkeep cwd dir hdir hdisj
      have hdir2 : FileChain v m2 cwd dir :=
        hdir.kept fun c hc x hx => hkeepdir c hc x (Or.inr hx)
      have hres2 : Resolves v m2 dir (nameTo83 name) a := by
        refine hres.congr fun b hb i hi => ?_
        obtain ⟨c,hc,hbyte⟩ := slot_dataByte hb
        exact hkeepdir c hc _ (Or.inl (hbyte i (by omega)))
      have hret2 := hret _ (update_eq hv (hd.with m2) hdir2 hres2)
      rw [with_bytes,with_with] at hret2
      refine ⟨_,_,hret2,fun _ => Or.inl rfl,⟨a,hres.mem,rfl,?_⟩,fun hl => ?_⟩
      · exact fun start other hother hdo => updated_kept hv hdir.inRange hres.mem hother
          (hkeep start other hother hdo)
      · exact (hok hl).congr fun c hc => link_updated hv hdir.inRange hres.mem hc

/-- Writing the file of the sample disk. -/
theorem sampleDisk_leaves_others :
    ∃ ret d2, fat32WriteFile sampleVolume 2 [0x41] UInt8.ofNat 1000 sampleDisk=some (ret,d2) ∧
      ∃ slot∈slots sampleVolume [2],
        ChainKept sampleVolume sampleDisk.bytes d2.bytes slot [2] := by
  obtain ⟨e,hfind,hzero⟩ := sampleDisk_find
  obtain ⟨ret,d2,hret,_,⟨slot,hslot,_,hkept⟩,_⟩ := write_leaves_others sampleVolume_mounted
    (show Faultless sampleDisk from rfl) sampleDisk_root hfind (by norm_num)
    (Or.inl ⟨hzero,rfl⟩) (show 1000<2^32 by norm_num) UInt8.ofNat
  exact ⟨ret,d2,hret,slot,hslot,hkept 2 [2] sampleDisk_root fun x _ hx => by cases hx⟩

/-- A volume of more sectors than the driver can address. -/
def largeVolume : Volume where
  sectorsPerCluster := 128
  fatStartSector := 32
  sectorsPerFat32 := 16512
  firstDataSector := 16544
  totalSectors32 := 2^28+2^20
  rootCluster := 2
  sectorsPerCluster_lt := by norm_num
  fatStartSector_lt := by norm_num
  sectorsPerFat32_lt := by norm_num
  firstDataSector_lt := by norm_num
  totalSectors32_lt := by norm_num
  rootCluster_lt := by norm_num

/-- A disk with a file of one cluster, whose sector has a number from `2^28` on. -/
def largeDisk : Disk :=
  ⟨setFirstCluster (copyRange (storeBytes (storeBytes (storeBytes (fun _ => 0) 16392 4 endMark)
      16404 4 endMark) 8405012 4 endMark) 8470528 12 fun i =>
      ([0x41,0x20,0x20,0x20,0x20,0x20,0x20,0x20,0x20,0x20,0x20,0x20] : List UInt8).getD i 0)
    8470528 2097157,fun _ _ _ => false⟩

/-- Clusters of the large disk that are chains of their own. -/
theorem largeDisk_chain {x : ℕ} (hx : InRange largeVolume x) (hend : ¬Ends x)
    (hlink : link largeVolume largeDisk.bytes x=endMark) :
    FileChain largeVolume largeDisk.bytes x [x] := by
  refine ⟨⟨endMark,⟨rfl,hend,hlink⟩,by norm_num⟩,fun y hy => ?_⟩
  rw [List.mem_singleton.mp hy]
  exact hx

/-- On a volume that is larger than the driver can address, a write to one file
changes the contents of a chain disjoint from it. -/
theorem largeDisk_write_hits_other :
    WellFormed largeVolume ∧ Faultless largeDisk ∧
      FileChain largeVolume largeDisk.bytes 2 [2] ∧
      FileChain largeVolume largeDisk.bytes 2097157 [2097157] ∧
      FileChain largeVolume largeDisk.bytes 5 [5] ∧
      ((findEntry largeVolume 2 [0x41] largeDisk).map fun w => (w.1.1,w.1.2.map firstClusterOf))=
        some (16544,some 2097157) ∧
      ∃ d2, fat32WriteFile largeVolume 2 [0x41] (fun _ => 1) 1 largeDisk=some (1,d2) ∧
        ∀ slot∈slots largeVolume [2], ¬ChainKept largeVolume largeDisk.bytes d2.bytes slot [5] := by
  have hends : ∀ {x}, 2≤x ∧ x<endOfChain → ¬Ends x := fun h h' => h' h
  have hwf : WellFormed largeVolume :=
    ⟨by decide,by decide +kernel,by decide +kernel,by decide +kernel⟩
  refine ⟨hwf,rfl,largeDisk_chain ⟨le_rfl,by decide +kernel⟩ (hends (by norm_num))
    (by decide +kernel),largeDisk_chain ⟨by norm_num,by decide +kernel⟩ (hends (by norm_num))
    (by decide +kernel),largeDisk_chain ⟨by norm_num,by decide +kernel⟩ (hends (by norm_num))
    (by decide +kernel),by decide +kernel,?_⟩
  have hresult : ((fat32WriteFile largeVolume 2 [0x41] (fun _ => 1) 1 largeDisk).map
      fun w => (w.1,w.2.bytes 8667136))=some (1,1) := by decide +kernel
  obtain ⟨⟨ret,d2⟩,hwrite,hr⟩ := Option.map_eq_some_iff.mp hresult
  obtain ⟨rfl,hbyte⟩ := Prod.mk.inj hr
  refine ⟨d2,hwrite,fun slot hslot hkept => ?_⟩
  have hdata : DataByte largeVolume 5 8667136 := by
    simp only [DataByte,dataAddr,clusterBytes,largeVolume]
    norm_num
  have hfield : ¬EntryField slot 8667136 := by
    obtain ⟨c,hc,j,hj,rfl⟩ := mem_slots hslot
    rw [List.mem_singleton.mp hc]
    simp only [EntryField,dataAddr,largeVolume] at hj ⊢
    omega
  have hold : largeDisk.bytes 8667136=0 := by decide +kernel
  have hnew : d2.bytes 8667136=0 := ((hkept 5 (by simp)).2 8667136 hdata hfield).trans hold
  rw [hbyte] at hnew
  exact absurd hnew (by decide)

end OvsbMk.FatFiles
