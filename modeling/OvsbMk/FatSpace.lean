import OvsbMk.DescriptorWrites

/-!
# Space for a write

The write loop looks for a free cluster whenever the chain ends before the bytes do, and
never computes beforehand how many it needs. On a disk without failures it succeeds exactly
when enough clusters are free, and takes exactly those it needs. When they run out it has
overwritten the file's clusters and keeps the free ones it took.
-/

namespace OvsbMk.FatSpace

open ByteMemory BlockDisk Fat32 Chains FatTable FatData FatDirectory FatFiles FatEntries FatChanges
  FatFaults FatOperations Descriptors DescriptorReads DescriptorWrites

variable {v : Volume} {d d' : Disk} {m m' : Bytes} {cwd a c n k count size offset start : ℕ}
  {nodes rest dir added all : List ℕ} {name : List UInt8} {text : ℕ → UInt8} {r : ℤ}

/-- Clusters that hold a number of bytes. -/
def clustersFor (v : Volume) (n : ℕ) : ℕ := (n+clusterBytes v-1)/clusterBytes v

/-- Clusters that a write takes from the free ones for a file with some clusters. -/
def need (v : Volume) (n count : ℕ) : ℕ :=
  if count=0 then max 1 (clustersFor v n) else clustersFor v n-count

/-- The free clusters of a volume. -/
def freeClusters (v : Volume) (m : Bytes) : Finset ℕ :=
  (Finset.range (totalClusters v+2)).filter fun c => 2≤c ∧ link v m c=0

/-- A free cluster is a cluster of the volume with link zero. -/
theorem mem_freeClusters : c∈freeClusters v m ↔ InRange v c ∧ link v m c=0 := by
  rw [freeClusters,Finset.mem_filter,Finset.mem_range,InRange]
  exact ⟨fun h => ⟨⟨h.2.1,h.1⟩,h.2.2⟩,fun h => ⟨h.1.2,h.1.1,h.2⟩⟩

/-- No cluster is free on a full volume. -/
theorem freeClusters_full (h : ∀ x, InRange v x → link v m x≠0) : freeClusters v m=∅ := by
  refine Finset.eq_empty_of_forall_notMem fun c hc => ?_
  obtain ⟨h1,h2⟩ := mem_freeClusters.mp hc
  exact h c h1 h2

/-- The clusters for a number of bytes are the fewest that hold them. -/
theorem clustersFor_le (hv : Mounted v) : clustersFor v n≤k ↔ n≤k*clusterBytes v := by
  have hcb := clusterBytes_pos hv
  rw [clustersFor,Nat.div_le_iff_le_mul_add_pred hcb,Nat.mul_comm]
  omega

/-- A file gets enough clusters if and only if they hold the bytes and there is a first
one. -/
theorem need_le (hv : Mounted v) :
    need v n count≤k ↔ n≤(count+k)*clusterBytes v ∧ (count=0 → 0<k) := by
  rw [need,← clustersFor_le hv]
  split <;> omega

/-- A file needs the clusters without which bytes are left over. -/
theorem le_need (hv : Mounted v)
    (h : k=0 ∨ count=0 ∧ k≤1 ∨ (count+k)*clusterBytes v<n+clusterBytes v) :
    k≤need v n count := by
  by_contra hlt
  have hle : need v n count≤k-1 := by omega
  rw [need_le hv] at hle
  rcases h with h | ⟨h0,h1⟩ | h
  · omega
  · omega
  · have hk : count+k=count+(k-1)+1 := by omega
    rw [hk,Nat.succ_mul] at h
    omega

/-- What the write loop leaves on a disk without failures: as many bytes as the chain
holds, on no more clusters than were there or are needed. -/
structure Filled (v : Volume) (m : Bytes) (all : List ℕ) (count : ℕ) (text : ℕ → UInt8)
    (offset size : ℕ) (r : ℤ) : Prop where
  /-- The bytes are on the chain as far as it goes. -/
  holds : Holds v m all text (min size (all.length*clusterBytes v))
  /-- The last cluster was there or is needed. -/
  frugal : all.length≤count ∨ all.length*clusterBytes v<size+clusterBytes v
  /-- All is written, or no cluster is free. -/
  answer : r=toInt (offset+size) ∧ size≤all.length*clusterBytes v ∨
    r=-1 ∧ all.length*clusterBytes v<size ∧ ∀ x, InRange v x → link v m x≠0

/-- Nothing to write. -/
theorem filled_nothing {buffer : Bytes} {fuel cluster : ℕ}
    (hchain : FileChain v d.bytes cluster (cluster::rest))
    (h : writeChain v buffer fuel cluster offset 0 d=some (r,d'))
    (hall : FileChain v d'.bytes cluster all) :
    Filled v d'.bytes all (rest.length+1) text offset 0 r := by
  rw [writeChain_zero,Option.some.injEq,Prod.mk.injEq] at h
  obtain ⟨rfl,rfl⟩ := h
  have hsame : all=cluster::rest := fileChain_unique hall hchain
  exact ⟨fun i hi => by omega,Or.inl (by rw [hsame]; exact le_rfl),Or.inl ⟨rfl,Nat.zero_le _⟩⟩

/-- The last round of the write loop. -/
theorem filled_last (hv : Mounted v) (hc : InRange v c) (hchain : FileChain v m c (c::rest))
    (hsize : size≤clusterBytes v)
    (hall : FileChain v (copyRange m (dataAddr v c) size text) c all) :
    Filled v (copyRange m (dataAddr v c) size text) all (rest.length+1) text offset size
      (toInt (offset+size)) := by
  have hsame : all=c::rest := fileChain_unique hall
    (hchain.congr fun x hx => link_copyRange hv hc hsize (hchain.inRange x hx).2)
  have hlen : size≤all.length*clusterBytes v := by
    rw [hsame,List.length_cons,Nat.succ_mul]
    omega
  refine ⟨?_,Or.inl (by rw [hsame]; exact le_rfl),Or.inl ⟨rfl,hlen⟩⟩
  rw [Nat.min_eq_left hlen,hsame]
  exact holds_single hsize fun i hi => copyRange_inside hi

/-- A round of the write loop before others. -/
theorem Filled.cons (hv : Mounted v) {tail : List ℕ}
    (hdata : ∀ i, i<clusterBytes v → m (dataAddr v c+i)=text i) (hmore : clusterBytes v<size)
    (hsource : rest.length=tail.length+1 ∨ tail=[])
    (h : Filled v m all (tail.length+1) (fun i => text (clusterBytes v+i)) (offset+clusterBytes v)
      (size-clusterBytes v) r) : Filled v m (c::all) (rest.length+1) text offset size r := by
  have hlen : (c::all).length*clusterBytes v=clusterBytes v+all.length*clusterBytes v := by
    rw [List.length_cons,Nat.succ_mul,Nat.add_comm]
  have hmin : min size (clusterBytes v+all.length*clusterBytes v)=
      clusterBytes v+min (size-clusterBytes v) (all.length*clusterBytes v) := by omega
  refine ⟨?_,?_,?_⟩
  · rw [hlen,hmin]
    exact holds_cons hv hdata h.holds
  · rw [hlen]
    rcases h.frugal with hcount | hcount
    · rcases hsource with hsource | rfl
      · rw [List.length_cons]
        omega
      · have : all.length*clusterBytes v≤1*clusterBytes v := Nat.mul_le_mul_right _ (by simpa using hcount)
        omega
    · omega
  · rw [hlen]
    refine h.answer.imp (fun hr => ⟨?_,by omega⟩) fun hr => ⟨hr.1,by omega,hr.2.2⟩
    rw [hr.1,Nat.add_assoc,Nat.add_sub_cancel' hmore.le]

/-- The first cluster of a chain. -/
theorem chain_first (hv : Mounted v) (hc : InRange v c) (h : FileChain v m c all) :
    ∃ tail, all=c::tail ∧ FileChain v m (link v m c) tail := by
  cases all with
  | nil =>
    have hend := fileChain_nil.mp h
    have hlt := hv.clusters_lt
    have := hc.2
    omega
  | cons x tail =>
    obtain ⟨rfl,_,htail⟩ := (fileChain_cons hv).mp h
    exact ⟨tail,rfl,htail⟩

/-- The write loop fills the chain it leaves behind. -/
theorem writeChain_fills (hv : Mounted v) (buffer : Bytes) {fuel cluster : ℕ} (offset : ℕ)
    (hd : Faultless d) (hchain : FileChain v d.bytes cluster (cluster::rest)) (hfuel : size≤fuel)
    (h : writeChain v buffer fuel cluster offset size d=some (r,d'))
    (hall : FileChain v d'.bytes cluster all) :
    Filled v d'.bytes all (rest.length+1) (fun i => buffer (offset+i)) offset size r := by
  induction fuel generalizing cluster rest offset size d all with
  | zero =>
    obtain rfl : size=0 := by omega
    exact filled_nothing hchain h hall
  | succ fuel ih =>
    rcases Nat.eq_zero_or_pos size with rfl | hpos
    · exact filled_nothing hchain h hall
    obtain ⟨_,hc,_⟩ := (fileChain_cons hv).mp hchain
    have hcb := clusterBytes_pos hv
    by_cases hmore : clusterBytes v<size
    swap
    · rw [writeChain_round hv hd hc buffer fuel offset hpos,if_neg hmore,Option.some.injEq,
        Prod.mk.injEq] at h
      obtain ⟨rfl,rfl⟩ := h
      rw [with_bytes] at hall ⊢
      exact filled_last hv hc hchain (by omega) hall
    rcases writeChain_more hv hd hchain buffer fuel offset hmore with
      ⟨m2,next,tail,hrun,hadv⟩ | ⟨rfl,hrun,hfull⟩
    · rw [hrun] at h
      have hw := writeChain_wrote hv (hd.with m2) hadv.chain (by omega) (by omega) h
      rw [with_bytes] at hw
      have hlink : link v d'.bytes cluster=next :=
        (link_congr fun x hx => hadv.kept hv hc hw (Or.inr hx)).trans hadv.step
      obtain ⟨all,rfl,htail⟩ := chain_first hv hc hall
      rw [hlink] at htail
      have hfill := ih (offset+clusterBytes v) (hd.with m2) hadv.chain (by omega) h htail
      have htext : (fun i => buffer (offset+clusterBytes v+i))=
          fun i => buffer (offset+(clusterBytes v+i)) := by
        funext i
        rw [Nat.add_assoc]
      rw [htext] at hfill
      refine Filled.cons hv (fun i hi => ?_) hmore ?_ hfill
      · rw [hadv.kept hv hc hw (Or.inl ⟨by omega,by omega⟩)]
        exact hadv.data i hi
      · rcases hadv.source with ⟨rfl,_⟩ | ⟨_,rfl,_⟩
        · exact Or.inl rfl
        · exact Or.inr rfl
    · rw [hrun,Option.some.injEq,Prod.mk.injEq] at h
      obtain ⟨rfl,rfl⟩ := h
      rw [with_bytes] at hall ⊢
      have hsame : all=[cluster] := fileChain_unique hall
        (hchain.congr fun x hx => link_copyRange hv hc le_rfl (hchain.inRange x hx).2)
      subst hsame
      refine ⟨?_,Or.inl le_rfl,Or.inr ⟨rfl,?_,fun x hx => ?_⟩⟩
      · rw [List.length_singleton,Nat.one_mul,Nat.min_eq_right hmore.le]
        exact holds_single le_rfl fun i hi => copyRange_inside hi
      · rw [List.length_singleton,Nat.one_mul]
        exact hmore
      · rw [link_copyRange hv hc le_rfl hx.2]
        exact hfull x hx

/-- A write before its entry is updated: what it stored, and the clusters it took. -/
structure Placed (v : Volume) (m m2 : Bytes) (nodes added : List ℕ) (old f n : ℕ)
    (buffer : ℕ → UInt8) : Prop where
  /-- The file's chain has grown. -/
  stored : Stored v m m2 nodes added old f
  /-- The bytes are on the chain as far as it goes. -/
  holds : Holds v m2 (nodes++added) buffer (min n ((nodes++added).length*clusterBytes v))
  /-- It took no more clusters than it needs. -/
  frugal : added.length≤need v n nodes.length

/-- A chain has grown from what it was: clusters and answer. -/
theorem Filled.placed (hv : Mounted v) {m2 : Bytes} {old f : ℕ}
    (hstored : Stored v m m2 nodes added old f) (hcount : count=nodes.length ∨ count=1 ∧ nodes=[])
    (h : Filled v m2 (nodes++added) count text 0 n r) :
    Placed v m m2 nodes added old f n text ∧
      (r=toInt n ∧ need v n nodes.length≤added.length ∨
        r=-1 ∧ (∀ x, InRange v x → link v m2 x≠0) ∧ added.length<need v n nodes.length) := by
  have hlen : (nodes++added).length=nodes.length+added.length := List.length_append
  refine ⟨⟨hstored,h.holds,?_⟩,?_⟩
  · have hfrugal := h.frugal
    rw [hlen] at hfrugal
    refine le_need hv ?_
    rcases hfrugal with hle | hlt
    · rcases hcount with rfl | ⟨rfl,rfl⟩
      · exact Or.inl (by omega)
      · rw [List.length_nil] at hle ⊢
        exact Or.inr (Or.inl ⟨rfl,by omega⟩)
    · exact Or.inr (Or.inr hlt)
  · have hfirst : nodes.length=0 → 0<added.length := by
      intro hz
      have hne := List.length_pos_of_ne_nil hstored.nonempty
      omega
    have hanswer := h.answer
    rw [hlen,Nat.zero_add] at hanswer
    refine hanswer.imp (fun hr => ⟨hr.1,(need_le hv).mpr ⟨hr.2,hfirst⟩⟩) fun hr => ⟨hr.1,hr.2.2,?_⟩
    by_contra hle
    have := ((need_le hv).mp (Nat.le_of_not_lt hle)).1
    omega

/-- A write from a first cluster that is there or has been taken. -/
theorem store_started (hv : Mounted v) (hd : Faultless d) (buffer : Bytes) {e : DirEntry} {f : ℕ}
    {d1 : Disk} {rest : List ℕ} (hnodes : HasChain v d.bytes (firstClusterOf e) nodes) (hn : n<2^32)
    (hstart : startCluster v e d=(some f,d1)) (hd1 : Faultless d1)
    (hchain : FileChain v d1.bytes f (f::rest))
    (hcount : rest.length+1=nodes.length ∨ rest.length+1=1 ∧ nodes=[]) :
    ∃ r m2 added, writeChain v buffer transferRounds f 0 n d1=some (r,d.with m2) ∧
      Placed v d.bytes m2 nodes added (firstClusterOf e) f n buffer ∧
      (r=toInt n ∧ need v n nodes.length≤added.length ∨
        r=-1 ∧ (∀ x, InRange v x → link v m2 x≠0) ∧ added.length<need v n nodes.length) := by
  have hstore := store_outcome hv (sparesTable_of_faultless hd) buffer hnodes hn
  rw [hstart] at hstore
  cases hstore with
  | inl hnone =>
    obtain ⟨_,h,_⟩ := hnone
    cases h
  | inr hsome =>
    obtain ⟨f',d1',r,d2,added,hs,hwrite,hlater,hstored,_⟩ := hsome
    rw [Prod.mk.injEq,Option.some.injEq] at hs
    obtain ⟨rfl,rfl⟩ := hs
    have hend : d2=d.with d2.bytes := hlater.eq_with hd
    have hfill := writeChain_fills hv buffer 0 hd1 hchain hn.le hwrite hstored.chain
    simp only [Nat.zero_add] at hfill
    refine ⟨r,d2.bytes,added,?_,Filled.placed hv hstored hcount hfill⟩
    rw [←hend]
    exact hwrite

/-- A write up to the update of the entry, with the clusters it takes. -/
theorem store_exact (hv : Mounted v) (hd : Faultless d) (buffer : Bytes) {e : DirEntry}
    (hnodes : HasChain v d.bytes (firstClusterOf e) nodes) (hn : n<2^32) :
    (nodes=[] ∧ startCluster v e d=(none,d) ∧ ∀ x, InRange v x → link v d.bytes x≠0) ∨
    ∃ f d1 r m2 added, startCluster v e d=(some f,d1) ∧
      writeChain v buffer transferRounds f 0 n d1=some (r,d.with m2) ∧
      Placed v d.bytes m2 nodes added (firstClusterOf e) f n buffer ∧
      (r=toInt n ∧ need v n nodes.length≤added.length ∨
        r=-1 ∧ (∀ x, InRange v x → link v m2 x≠0) ∧ added.length<need v n nodes.length) := by
  have hnil : firstClusterOf e=0 → nodes=[] := by
    intro hz
    rcases hnodes with ⟨_,h⟩ | ⟨h,_⟩
    · exact h
    · exact (h hz).elim
  rcases startCluster_cases hv hd e with ⟨hz,free,hstart,hfr,hfz⟩ | ⟨hz,hstart,hnone⟩ | ⟨hne,hstart⟩
  · have hfresh := (wrote_fresh hv [] hfr hfz).2
    obtain ⟨r,m2,added,hwrite,hplaced⟩ := store_started hv hd buffer hnodes hn hstart (hd.with _)
      hfresh (Or.inr ⟨rfl,hnil hz⟩)
    exact Or.inr ⟨free,_,r,m2,added,hstart,hwrite,hplaced⟩
  · exact Or.inl ⟨hnil hz,hstart,hnone⟩
  · rcases hnodes with ⟨h,_⟩ | ⟨_,hne',hchain⟩
    · exact (hne h).elim
    obtain ⟨x,rest,rfl⟩ := List.exists_cons_of_ne_nil hne'
    obtain ⟨rfl,_⟩ := (fileChain_cons hv).mp hchain
    obtain ⟨r,m2,added,hwrite,hplaced⟩ := store_started hv hd buffer (Or.inr ⟨hne,hne',hchain⟩) hn
      hstart hd hchain (Or.inl rfl)
    exact Or.inr ⟨_,d,r,m2,added,hstart,hwrite,hplaced⟩

/-- The clusters that a write takes are free before and in use after it, and no others
change. -/
theorem Stored.freeClusters_eq (hv : Mounted v) {m2 : Bytes} {f : ℕ}
    (h : Stored v m m2 nodes added (firstClusterOf (entryAt m a)) f)
    (hnodes : HasChain v m (firstClusterOf (entryAt m a)) nodes) :
    added.toFinset⊆freeClusters v m ∧ freeClusters v m2=freeClusters v m \ added.toFinset := by
  have hfresh : ∀ c∈added, c∈freeClusters v m := fun c hc => mem_freeClusters.mpr (h.grown.fresh c hc)
  refine ⟨fun c hc => hfresh c (List.mem_toFinset.mp hc),?_⟩
  ext c
  rw [Finset.mem_sdiff,mem_freeClusters,mem_freeClusters,List.mem_toFinset]
  constructor
  · rintro ⟨hc,hz⟩
    have hnot : c∉nodes++added := fun hmem => h.chain.link_ne_zero hv hmem hz
    rw [h.grown.link_eq hv hc hnot] at hz
    exact ⟨⟨hc,hz⟩,fun hmem => hnot (List.mem_append_right _ hmem)⟩
  · rintro ⟨⟨hc,hz⟩,hnot⟩
    refine ⟨hc,?_⟩
    by_contra hused
    exact hnot (Grown.used hv h.grown (HasChain.used hv hnodes) hc hz hused)

/-- The clusters that a write takes are different. -/
theorem Stored.card_added {m2 : Bytes} {old f : ℕ} (h : Stored v m m2 nodes added old f) :
    added.toFinset.card=added.length :=
  List.toFinset_card_of_nodup (List.nodup_append.mp h.chain.nodup).2.1

/-- Chains stay chains when the table grows; one that ends in the grown file's last
cluster goes on with the new one. -/
theorem Grow.fileChain (hv : Mounted v) (h : Grow v m m') (hchain : FileChain v m start nodes) :
    ∃ nodes', FileChain v m' start nodes' := by
  have hkeep : ∀ {free : ℕ}, link v m free=0 → free∉nodes :=
    fun hz hmem => hchain.link_ne_zero hv hmem hz
  cases h with
  | same h => exact ⟨nodes,hchain.congr fun c hc => h c (hchain.inRange c hc)⟩
  | fresh free hf hfree h =>
    refine ⟨nodes,hchain.congr fun c hc => ?_⟩
    rw [h c (hchain.inRange c hc),if_neg]
    rintro rfl
    exact hkeep hfree hc
  | extend last free hl hf hlast hfree h =>
    clear hkeep
    induction nodes generalizing start with
    | nil => exact ⟨[],fileChain_nil.mpr (fileChain_nil.mp hchain)⟩
    | cons c rest ih =>
      have hz := hchain.link_ne_zero hv List.mem_cons_self
      obtain ⟨rfl,hc,hrest⟩ := (fileChain_cons hv).mp hchain
      have hne : start≠free := by
        rintro rfl
        exact hz hfree
      by_cases heq : start=last
      · subst heq
        refine ⟨[start,free],(fileChain_cons hv).mpr ⟨rfl,hc,(fileChain_cons hv).mpr
          ⟨?_,hf,fileChain_nil.mpr ?_⟩⟩⟩
        · rw [h start hc,if_neg hne,if_pos rfl]
        · rw [h free hf,if_pos rfl]
          norm_num
      · obtain ⟨rest',hrest'⟩ := ih hrest
        refine ⟨start::rest',(fileChain_cons hv).mpr ⟨rfl,hc,?_⟩⟩
        rwa [h start hc,if_neg hne,if_neg heq]

/-- Chains stay chains while a file grows. -/
theorem grows_fileChain (hv : Mounted v) (h : Relation.ReflTransGen (Grow v) m m')
    (hchain : FileChain v m start nodes) : ∃ nodes', FileChain v m' start nodes' := by
  induction h with
  | refl => exact ⟨nodes,hchain⟩
  | tail _ hstep ih =>
    obtain ⟨nodes',hnodes'⟩ := ih
    exact Grow.fileChain hv hstep hnodes'

/-- The walk that updates the entry answers the result and leaves the table alone. -/
theorem update_walk (hv : Mounted v) (hd : Faultless d) {cluster : ℕ} {result : ℤ}
    (hdir : FileChain v d.bytes cwd dir) (name83 : List UInt8) :
    ∃ w d', walkChain v (updateVisit name83 cluster result) chainRounds cwd d=some (w,d') ∧
      w.getD result=result ∧ freeClusters v d'.bytes=freeClusters v d.bytes := by
  rw [walkChain_eq hv hd (updateVisit_acts hd name83 cluster result) hdir
    (FileChain.length_le hv hdir)]
  cases hfind : (slots v dir).find? (slotHit name83 d.bytes) with
  | none => exact ⟨none,d,rfl,rfl,rfl⟩
  | some b =>
    refine ⟨_,_,rfl,rfl,Finset.ext fun c => ?_⟩
    rw [mem_freeClusters,mem_freeClusters]
    refine and_congr_right fun hc => ?_
    rw [with_bytes,link_congr fun x hx => updated_outside (List.mem_of_find?_eq_some hfind)
      fun y hy => hv.link_not_data hc.2 (hdir.inRange y hy) hx]

/-- A write of at most 31 bits to a file whose chain is well formed succeeds if and only
if as many clusters are free as the file needs, else it fails. When it succeeds that many
clusters are no longer free, and none has become free. -/
theorem fat32WriteFile_room_iff (hv : Mounted v) (hd : Faultless d)
    (hdir : FileChain v d.bytes cwd dir) (hres : Resolves v d.bytes dir (nameTo83 name) a)
    (hnodes : HasChain v d.bytes (firstClusterOf (entryAt d.bytes a)) nodes) (hn : n<2^31)
    (buffer : Bytes) :
    ∃ r d', fat32WriteFile v cwd name buffer n d=some (r,d') ∧
      (r=n ↔ need v n nodes.length≤(freeClusters v d.bytes).card) ∧ (r≠n → r=-1) ∧
      (r=n → (freeClusters v d.bytes \ freeClusters v d'.bytes).card=need v n nodes.length ∧
        freeClusters v d'.bytes⊆freeClusters v d.bytes) := by
  obtain ⟨k,hk,hfind⟩ := Resolves.findEntry hv hd hdir hres
  rw [fat32WriteFile,hfind]
  dsimp only
  rw [if_neg (by omega)]
  rcases store_exact hv hd buffer hnodes (show n<2^32 by omega) with
    ⟨rfl,hstart,hnone⟩ | ⟨f,d1,r,m2,added,hstart,hwrite,hplaced,hr⟩
  · rw [hstart]
    have hempty : freeClusters v d.bytes=∅ := freeClusters_full hnone
    have hneed : ¬need v n ([] : List ℕ).length≤0 := by
      rw [need_le hv,List.length_nil]
      omega
    refine ⟨-1,d,rfl,?_,fun _ => rfl,fun h => by omega⟩
    rw [hempty,Finset.card_empty]
    exact iff_of_false (by omega) hneed
  · obtain ⟨hsub,hfree⟩ := Stored.freeClusters_eq hv hplaced.stored hnodes
    have hcard := Stored.card_added hplaced.stored
    rw [hstart]
    dsimp only
    rw [hwrite]
    dsimp only
    rcases hr with ⟨rfl,henough⟩ | ⟨rfl,hfull,hshort⟩
    · rw [toInt_of_lt hn,if_neg (by omega)]
      obtain ⟨dir',hdir'⟩ := grows_fileChain hv hplaced.stored.grows hdir
      obtain ⟨w,d',hw,hget,hlinks⟩ := @update_walk v (d.with m2) _ _ hv (hd.with m2) f n hdir'
        (nameTo83 name)
      rw [with_bytes] at hlinks
      have hneed : need v n nodes.length=added.length := le_antisymm henough hplaced.frugal
      have hle : added.length≤(freeClusters v d.bytes).card := hcard ▸ Finset.card_le_card hsub
      rw [hw]
      refine ⟨w.getD n,d',?_,?_,fun h => (h hget).elim,fun _ => ?_⟩
      · cases w <;> rfl
      · exact iff_of_true hget (hneed ▸ hle)
      · rw [hlinks,hfree,Finset.sdiff_sdiff_eq_self hsub,hcard]
        exact ⟨hneed.symm,Finset.sdiff_subset⟩
    · rw [if_pos (by norm_num)]
      have hempty : freeClusters v m2=∅ := freeClusters_full hfull
      have hall : freeClusters v d.bytes⊆added.toFinset := by
        rw [← Finset.sdiff_eq_empty_iff_subset,← hfree,hempty]
      have hle := Finset.card_le_card hall
      refine ⟨-1,_,rfl,iff_of_false (by omega) (by omega),fun _ => rfl,fun h => by omega⟩

/-- A byte is written to the empty file on the sample disk, and takes a free cluster. -/
theorem sampleDisk_write_byte : ∃ d', fat32WriteFile sampleVolume 2 (stored pathA) (fun _ => 0x61) 1
    sampleDisk=some (1,d') ∧
      (freeClusters sampleVolume sampleDisk.bytes \ freeClusters sampleVolume d'.bytes).card=1 := by
  obtain ⟨r,d',hwrite,hiff,_,htakes⟩ := fat32WriteFile_room_iff sampleVolume_mounted
    (show Faultless sampleDisk from rfl) sampleDisk_root sampleDisk_file.found sampleDisk_file.chain
    (show 1<2^31 by norm_num) fun _ => 0x61
  have hroom : r=((1 : ℕ) : ℤ) := hiff.mpr (by decide +kernel)
  subst hroom
  have hneed : need sampleVolume 1 0=1 := by decide +kernel
  rw [Nat.cast_one] at hwrite
  exact ⟨d',hwrite,(htakes rfl).1.trans hneed⟩

/-- A byte along the clusters of a file. -/
def chainByte (v : Volume) (m : Bytes) (nodes : List ℕ) (i : ℕ) : UInt8 :=
  m (dataAddr v (nodes.getD (i/clusterBytes v) 0)+i%clusterBytes v)

/-- The clusters hold a string if and only if they are enough and the bytes along them are
the string. -/
theorem holds_iff (hv : Mounted v) :
    Holds v m nodes text n ↔
      n≤nodes.length*clusterBytes v ∧ ∀ i, i<n → chainByte v m nodes i=text i := by
  have hcb := clusterBytes_pos hv
  have hindex : ∀ i, i/clusterBytes v<nodes.length ↔ i<nodes.length*clusterBytes v :=
    fun i => Nat.div_lt_iff_lt_mul hcb
  constructor
  · intro h
    refine ⟨?_,fun i hi => ?_⟩
    · by_contra hlt
      obtain ⟨c,hc,_⟩ := h (n-1) (by omega)
      have hmem := (List.getElem?_eq_some_iff.mp hc).1
      rw [hindex] at hmem
      omega
    · obtain ⟨c,hc,htext⟩ := h i hi
      rw [chainByte,List.getD_eq_getElem?_getD,hc]
      exact htext
  · rintro ⟨hlen,htext⟩ i hi
    have hlt := (hindex i).mpr (by omega)
    refine ⟨nodes[i/clusterBytes v],List.getElem?_eq_getElem hlt,?_⟩
    rw [← htext i hi,chainByte,List.getD_eq_getElem?_getD,List.getElem?_eq_getElem hlt]
    rfl

/-- Reading more than the clusters hold is reading what they hold. -/
theorem readChain_capped (hv : Mounted v) (hd : Faultless d) {fuel cluster : ℕ} (buffer : Bytes)
    (hchain : FileChain v d.bytes cluster nodes)
    (hsize : offset+nodes.length*clusterBytes v ≤ size) :
    readChain v size fuel cluster offset buffer d=
      readChain v (offset+nodes.length*clusterBytes v) fuel cluster offset buffer d := by
  have hcb := clusterBytes_pos hv
  induction nodes generalizing fuel cluster offset buffer with
  | nil =>
    have hend := fileChain_nil.mp hchain
    rw [readChain_stop (by omega),readChain_stop (by omega)]
  | cons c rest ih =>
    obtain ⟨rfl,hc,hrest⟩ := (fileChain_cons hv).mp hchain
    have hlen : offset+(cluster::rest).length*clusterBytes v=
        offset+clusterBytes v+rest.length*clusterBytes v := by
      rw [List.length_cons,Nat.succ_mul]
      omega
    rw [hlen] at hsize ⊢
    cases fuel with
    | zero =>
      have hin : 2≤cluster ∧ cluster<endOfChain := ⟨hc.1,hc.2.trans_le hv.clusters_lt⟩
      rw [readChain,if_pos ⟨hin.1,hin.2,by omega⟩,readChain,if_pos ⟨hin.1,hin.2,by omega⟩]
    | succ fuel =>
      rw [readChain_round hv hd hc buffer fuel (by omega),readChain_round hv hd hc buffer fuel
        (by omega),Nat.min_eq_right (by omega),Nat.min_eq_right (by omega)]
      exact ih _ hrest hsize

/-- Reading a file delivers its bytes as far as its size, its clusters and the buffer go. -/
theorem fat32ReadFile_eq (hv : Mounted v) (hd : Faultless d) (hdir : FileChain v d.bytes cwd dir)
    (hres : Resolves v d.bytes dir (nameTo83 name) a)
    (hnodes : HasChain v d.bytes (firstClusterOf (entryAt d.bytes a)) nodes) (buffer : Bytes)
    (hk : k<2^32) {len : ℕ}
    (hlen : len=min (min k (entryAt d.bytes a).size) (nodes.length*clusterBytes v)) :
    fat32ReadFile v cwd name buffer k d=
      some (toInt len,copyRange buffer 0 len (chainByte v d.bytes nodes),d) := by
  obtain ⟨r,hr,hfind⟩ := Resolves.findEntry hv hd hdir hres
  rw [fat32ReadFile,hfind]
  dsimp only
  rw [if_neg (by omega)]
  rcases hnodes with ⟨hzero,rfl⟩ | ⟨hne,_,hchain⟩
  · rw [List.length_nil,Nat.zero_mul,Nat.min_zero] at hlen
    rw [if_pos hzero,hlen,copyRange_zero]
    rfl
  · rw [if_neg hne]
    have hread := @readChain_eq v _ _ hv buffer (chainByte v d.bytes nodes) transferRounds _ 0 len hd
      hchain (Nat.zero_le _)
      (by
        simp only [Nat.zero_add,Nat.sub_zero]
        exact (holds_iff hv).mpr ⟨by omega,fun _ _ => rfl⟩)
      (by simp only [transferRounds]; omega)
    simp only [Nat.zero_add,Nat.sub_zero] at hread
    rw [← hread]
    rcases Nat.lt_or_ge (nodes.length*clusterBytes v) (min k (entryAt d.bytes a).size) with hlt | hge
    · have hcap : len=0+nodes.length*clusterBytes v := by omega
      rw [hcap]
      exact readChain_capped hv hd buffer hchain (by omega)
    · rw [show min k (entryAt d.bytes a).size=len by omega]

/-- A call leaves a file and the free clusters as they were: reading the file gives the same
answer and the same bytes, and the same clusters are free. -/
def Unharmed (v : Volume) (cwd : ℕ) (name : List UInt8) (d d' : Disk) : Prop :=
  (∀ buffer k, k<2^32 →
    (fat32ReadFile v cwd name buffer k d').map (fun r => (r.1,r.2.1))=
      (fat32ReadFile v cwd name buffer k d).map fun r => (r.1,r.2.1)) ∧
    freeClusters v d'.bytes=freeClusters v d.bytes

/-- Two disks with the same entry and the same clusters give the same file if and only if
the bytes along the clusters agree. -/
theorem read_same_iff (hv : Mounted v) (hd : Faultless d) (hd' : Faultless d')
    (hdir : FileChain v d.bytes cwd dir) (hdir' : FileChain v d'.bytes cwd dir)
    (hres : Resolves v d.bytes dir (nameTo83 name) a)
    (hres' : Resolves v d'.bytes dir (nameTo83 name) a)
    (hnodes : HasChain v d.bytes (firstClusterOf (entryAt d.bytes a)) nodes)
    (hnodes' : HasChain v d'.bytes (firstClusterOf (entryAt d.bytes a)) nodes)
    (hentry : entryAt d'.bytes a=entryAt d.bytes a) :
    (∀ buffer k, k<2^32 →
      (fat32ReadFile v cwd name buffer k d').map (fun r => (r.1,r.2.1))=
        (fat32ReadFile v cwd name buffer k d).map fun r => (r.1,r.2.1)) ↔
      ∀ i, i < min (entryAt d.bytes a).size (nodes.length*clusterBytes v) →
        chainByte v d'.bytes nodes i=chainByte v d.bytes nodes i := by
  have hread := fun (buffer : Bytes) (k : ℕ) (hk : k<2^32) =>
    fat32ReadFile_eq hv hd hdir hres hnodes buffer hk rfl
  have hread' := fun (buffer : Bytes) (k : ℕ) (hk : k<2^32) =>
    fat32ReadFile_eq hv hd' hdir' hres' (by rw [hentry]; exact hnodes') buffer hk rfl
  simp only [hentry] at hread'
  constructor
  · intro h i hi
    have hsize : (entryAt d.bytes a).size<2^32 := loadBytes_lt _ _ _
    have hsame := h (fun _ => 0) _ hsize
    rw [hread' _ _ hsize,hread _ _ hsize,Option.map_some,Option.map_some,Option.some.injEq,
      Prod.mk.injEq,Nat.min_self] at hsame
    have hbyte := congrFun hsame.2 (0+i)
    dsimp only at hbyte
    rwa [copyRange_inside hi,copyRange_inside hi] at hbyte
  · intro h buffer k hk
    rw [hread' buffer k hk,hread buffer k hk,Option.map_some,Option.map_some]
    exact congrArg some (Prod.ext rfl (copyRange_congr fun i hi => h i (by omega)))

/-- When too few clusters are free a write fails. It leaves the file and the free clusters
as they were if and only if no cluster was free and the file's bytes are the first ones of
the buffer. -/
theorem shortage_unharmed_iff (hv : Mounted v) (hd : Faultless d)
    (hdir : FileChain v d.bytes cwd dir) (hres : Resolves v d.bytes dir (nameTo83 name) a)
    (hnodes : HasChain v d.bytes (firstClusterOf (entryAt d.bytes a)) nodes)
    (hapart : ∀ x∈nodes, x∉dir) (hn : n<2^32) (buffer : Bytes)
    (hshort : (freeClusters v d.bytes).card<need v n nodes.length) :
    ∃ d', fat32WriteFile v cwd name buffer n d=some (-1,d') ∧
      (Unharmed v cwd name d d' ↔ freeClusters v d.bytes=∅ ∧
        Holds v d.bytes nodes buffer
          (min (entryAt d.bytes a).size (nodes.length*clusterBytes v))) := by
  obtain ⟨k,hk,hfind⟩ := Resolves.findEntry hv hd hdir hres
  rw [fat32WriteFile,hfind]
  dsimp only
  rw [if_neg (by omega)]
  rcases store_exact hv hd buffer hnodes hn with
    ⟨rfl,hstart,hnone⟩ | ⟨f,d1,r,m2,added,hstart,hwrite,hplaced,hr⟩
  · rw [hstart]
    refine ⟨d,rfl,fun _ => ⟨freeClusters_full hnone,fun i hi => ?_⟩,fun _ => ⟨fun _ _ _ => rfl,rfl⟩⟩
    rw [List.length_nil,Nat.zero_mul,Nat.min_zero] at hi
    omega
  · obtain ⟨hsub,hfree⟩ := Stored.freeClusters_eq hv hplaced.stored hnodes
    have hle : added.length≤(freeClusters v d.bytes).card :=
      Stored.card_added hplaced.stored ▸ Finset.card_le_card hsub
    obtain ⟨rfl,hfull,_⟩ := hr.resolve_left fun h => by omega
    rw [hstart]
    dsimp only
    rw [hwrite]
    dsimp only
    rw [if_pos (by norm_num)]
    refine ⟨d.with m2,rfl,?_⟩
    have hempty : freeClusters v m2=∅ := freeClusters_full hfull
    by_cases hused : freeClusters v d.bytes=∅
    swap
    · refine iff_of_false (fun h => hused ?_) fun h => hused h.1
      rw [← h.2,with_bytes,hempty]
    obtain rfl : added=[] := by
      rw [hused,Finset.card_empty] at hle
      exact List.length_eq_zero_iff.mp (by omega)
    rw [hused,Finset.card_empty] at hshort
    have hchain := hplaced.stored.chain
    have hholds := hplaced.holds
    have hne := hplaced.stored.nonempty
    rw [List.append_nil] at hchain hholds hne
    have hlong : nodes.length*clusterBytes v<n := by
      by_contra hlt
      have hneed : need v n nodes.length≤0 :=
        (need_le hv).mpr ⟨by rw [Nat.add_zero]; omega,fun h => (hne (List.length_eq_zero_iff.mp h)).elim⟩
      omega
    rw [Nat.min_eq_right hlong.le,holds_iff hv] at hholds
    obtain ⟨hdir2,hres2,hentry⟩ := Grown.resolves hv hdir hplaced.stored.grown hapart hres
    have hnodes2 : HasChain v m2 (firstClusterOf (entryAt d.bytes a)) nodes := by
      rcases hnodes with ⟨_,hnil⟩ | ⟨hfirst,hne',_⟩
      · exact (hne hnil).elim
      · rw [hplaced.stored.first hfirst] at hchain
        exact Or.inr ⟨hfirst,hne',hchain⟩
    rw [Unharmed,read_same_iff hv hd (hd.with m2) hdir hdir2 hres hres2 hnodes hnodes2 hentry,
      holds_iff hv,with_bytes,hempty,hused]
    constructor
    · rintro ⟨hsame,_⟩
      exact ⟨rfl,by omega,fun i hi => (hsame i hi).symm.trans (hholds.2 i (by omega))⟩
    · rintro ⟨_,_,htext⟩
      exact ⟨fun i hi => (hholds.2 i (by omega)).trans (htext i hi).symm,rfl⟩

/-- Seven clusters and a byte do not fit on the sample disk. -/
theorem sampleDisk_write_shortage : ∃ d', fat32WriteFile sampleVolume 2 (stored pathA)
    (fun _ => 0x61) 3585 sampleDisk=some (-1,d') ∧
      (Unharmed sampleVolume 2 (stored pathA) sampleDisk d' ↔
        freeClusters sampleVolume sampleDisk.bytes=∅ ∧ Holds sampleVolume sampleDisk.bytes []
          (fun _ => 0x61) (min (entryAt sampleDisk.bytes 1024).size (0*clusterBytes sampleVolume))) :=
  shortage_unharmed_iff sampleVolume_mounted (show Faultless sampleDisk from rfl) sampleDisk_root
    sampleDisk_file.found sampleDisk_file.chain (fun x hx => by cases hx) (by norm_num) _
    (by decide +kernel)

/-- The write that does not fit fails and keeps the clusters it took. -/
theorem sampleDisk_shortage_harms : ∃ d', fat32WriteFile sampleVolume 2 (stored pathA)
    (fun _ => 0x61) 3585 sampleDisk=some (-1,d') ∧
      ¬Unharmed sampleVolume 2 (stored pathA) sampleDisk d' := by
  have hresult : (fat32WriteFile sampleVolume 2 (stored pathA) (fun _ => 0x61) 3585 sampleDisk).map
      (fun r => (r.1,decide (3∈freeClusters sampleVolume r.2.bytes)))=some (-1,false) := by
    decide +kernel
  have hfree : 3∈freeClusters sampleVolume sampleDisk.bytes := by decide +kernel
  obtain ⟨⟨r,d'⟩,hwrite,hr⟩ := Option.map_eq_some_iff.mp hresult
  rw [Prod.mk.injEq] at hr
  obtain ⟨rfl,htaken⟩ := hr
  refine ⟨d',hwrite,fun h => ?_⟩
  rw [← h.2] at hfree
  exact of_decide_eq_false htaken hfree

end OvsbMk.FatSpace
