import OvsbMk.FatTree
import OvsbMk.FatFiles

/-!
# Changes of the tree

The changes of the disk from which the operations of the driver are made, each
with what it makes of the tree: an entry is filled, erased, renamed or updated,
a file grows or gets its first clusters, a directory gets its cluster or loses
its clusters.
-/

namespace OvsbMk.FatChanges

open ByteMemory BlockDisk Fat32 Chains FatTable FatData FatDirectory FatEntries RootedTree FatTree
  FatFiles

variable {v : Volume} {m m' : Bytes} {t : Tree} {holes : Set ℕ} {a b c f g p q : ℕ}
  {l added : List ℕ} {name83 : List UInt8} {edit : Bytes → ℕ → Bytes}

/-- The bytes of a slot are not those of a link. -/
theorem slot_not_link (hv : Mounted v) (hr : ∀ x∈l, InRange v x) (ha : a∈slots v l)
    (hc : InRange v c) (hb : LinkByte v c b) : b<a ∨ a+32≤b := by
  obtain ⟨x,hx,hbyte⟩ := slot_dataByte ha
  by_contra hin
  have hdata := hbyte (b-a) (by omega)
  rw [show a+(b-a)=b by omega] at hdata
  exact hv.link_not_data hc.2 (hr x hx) hb hdata

/-- A change of one slot keeps the entries of others. -/
theorem edit_keeps (he : Editor edit) {nodes other : List ℕ} (ha : a∈slots v nodes)
    (hb : b∈slots v other) (hne : b≠a) : slotLive (edit m a) b=slotLive m b ∧
      target (edit m a) b=target m b ∧ folderAt (edit m a) b=folderAt m b ∧
      nameAt (edit m a) b=nameAt m b := by
  refine slot_congr fun i hi => he.outside m a _ ?_
  have := slots_disjoint hb ha hne
  omega

/-- A change of one slot agrees on all others. -/
theorem agree_edit (hv : Mounted v) (h : Draws v m t holes) (hp : t.Folder p)
    (ha : a∈slots v (t.chain p)) (he : Editor edit) : Agree v m (edit m a) t {a} where
  links := fun f hf c hc => link_congr fun b hb => he.outside m a b
    (slot_not_link hv (h.chain p hp.1).inRange ha ((h.chain f hf).inRange c hc) hb)
  slots := by
    intro q hq b hb hne i hi
    refine he.outside m a _ ?_
    have := slots_disjoint hb ha hne
    omega

/-- A change of one slot that keeps it in the tree. -/
theorem Draws.editSlot (hv : Mounted v) (h : Draws v m t ∅) (hp : t.Folder p)
    (ha : a∈slots v (t.chain p)) (he : Editor edit)
    (hown : ∀ f∈t.nodes, f≠t.root → t.slot f=a → slotLive (edit m a) a=true ∧
      target (edit m a) a=f ∧ (folderAt (edit m a) a=true ↔ f∈t.folder))
    (hplace : slotLive (edit m a) a=true → Placed t (edit m a) p a)
    (hdense : Dense (edit m a) (slots v (t.chain p))) : Draws v (edit m a) t ∅ := by
  have hag := agree_edit hv h hp ha he
  refine ((h.open {a}).edit hag (fun f hf hne hslot => ?_) fun q hq => ?_).close fun q hq hq' => ?_
  · rw [Set.mem_singleton_iff] at hslot
    rw [hslot]
    exact hown f hf hne hslot
  · by_cases hqp : q=p
    · rw [hqp]
      exact hdense
    · refine (h.dense q hq).congr fun b hb => ?_
      have hba : b∉({a} : Set ℕ) := by
        rintro rfl
        exact hqp (h.slot_unique hq.1 hp.1 hb ha)
      rw [show edit m a b=m b from hag.slots q hq b hb hba 0 (by norm_num)]
  · rw [h.slot_unique hq.1 hp.1 hq' ha]
    exact hplace

/-- A change of one slot whose entry has been removed from the tree. -/
theorem Draws.editRemoved (hv : Mounted v) (h : Draws v m t ∅) (hp : t.Folder p)
    (ha : a∈slots v (t.chain p)) (he : Editor edit)
    (hzero : edit m a a=0 ↔ m a=0) : Draws v (edit m a) (t.without a) {a} := by
  have hp' := h.folder_without hp ha
  have hag := agree_edit hv (h.without a) hp' ha he
  refine (h.without a).edit hag (fun f hf hne hslot => ?_) fun q hq => ?_
  · exact (Tree.without_slot hf hne hslot).elim
  · refine (h.dense q ⟨hq.1.1,hq.2⟩).congr fun b hb => ?_
    by_cases hba : b=a
    · rw [hba]
      exact hzero
    · rw [show edit m a b=m b from hag.slots q hq b hb hba 0 (by norm_num)]

/-- A new entry in the first free slot of a directory. -/
theorem Draws.fill (hv : Mounted v) (h : Draws v m t ∅) (hp : t.Folder p) {attr : ℕ}
    (hfind : (slots v (t.chain p)).find? (slotFree m)=some a) (hlen : name83.length=11)
    (hhead : name83.headD 0≠0) (hattr : attr<256) : Draws v (setEntry name83 attr m a) t ∅ := by
  have ha := List.mem_of_find?_eq_some hfind
  have hfree := not_live_of_free (List.find?_some hfind)
  obtain ⟨hname,htarget,_⟩ := setEntry_spec (m:=m) (a:=a) hlen hattr
  refine Draws.editSlot hv h hp ha (editor_setEntry name83 attr) (fun f hf hne hslot => ?_)
    (fun _ => Or.inl htarget) ?_
  · have hlive := (h.entry f hf hne).1
    rw [hslot,hfree] at hlive
    cases hlive
  · refine (h.dense p hp).fill (h.slots_nodup hp.1) hfind ?_ fun b hb hne => ?_
    · rw [first_of_name hname]
      exact hhead
    · exact (editor_setEntry name83 attr).outside m a b (by
        have := slots_disjoint hb ha hne
        omega)

/-- A deleted entry. -/
theorem Draws.erase (hv : Mounted v) (h : Draws v m t ∅) (hp : t.Folder p)
    (ha : a∈slots v (t.chain p)) (hlive : slotLive m a=true) :
    Draws v (eraseEntry m a) (t.without a) ∅ := by
  have hne := (live_iff.mp hlive).1
  refine (Draws.editRemoved hv h hp ha editor_eraseEntry ?_).close fun q _ _ hlive' => ?_
  · rw [eraseEntry_first]
    exact iff_of_false (by decide) hne
  · exact ((live_iff.mp hlive').2.1 eraseEntry_first).elim

/-- A renamed entry. -/
theorem Draws.rename (hv : Mounted v) (h : Draws v m t ∅) (hp : t.Folder p)
    (ha : a∈slots v (t.chain p)) (hlive : slotLive m a=true) (hold : nameAt m a∉dotNames)
    (hlen : name83.length=11) (hhead : name83.headD 0≠0) (hkept : name83.headD 0≠0xE5) :
    Draws v (setName m a name83) t ∅ := by
  obtain ⟨hname,htarget,hattr⟩ := setName_spec (m:=m) (a:=a) hlen
  have hfirst : setName m a name83 a=name83.headD 0 := first_of_name hname
  have hlive' : slotLive (setName m a name83) a=true := by
    rw [live_iff,hfirst,hattr]
    exact ⟨hhead,hkept,(live_iff.mp hlive).2.2⟩
  have hdir : folderAt (setName m a name83) a=folderAt m a := by
    rw [folderAt,folderAt,isDirectory,isDirectory,hattr]
  refine Draws.editSlot hv h hp ha (editor_setName name83) (fun f hf hne hslot => ?_)
    (fun _ => ?_) ?_
  · have hentry := h.entry f hf hne
    rw [hslot] at hentry
    exact ⟨hlive',htarget.trans hentry.2.1,by rw [hdir]; exact hentry.2.2⟩
  · show target (setName m a name83) a=0 ∨ _
    rw [htarget]
    rcases h.placed p hp a ha (Set.notMem_empty a) hlive with hz | hown | hback
    · exact Or.inl hz
    · exact Or.inr (Or.inl hown)
    · exact (hold hback.2.2).elim
  · refine (h.dense p hp).congr fun b hb => ?_
    by_cases hba : b=a
    · rw [hba]
      exact iff_of_false (by rw [hfirst]; exact hhead) (live_iff.mp hlive).1
    · rw [(editor_setName name83).outside m a b (by
        have := slots_disjoint hb ha hba
        omega)]

/-- An entry that is renamed to a deleted one. -/
theorem Draws.renameAway (hv : Mounted v) (h : Draws v m t ∅) (hp : t.Folder p)
    (ha : a∈slots v (t.chain p)) (hlive : slotLive m a=true) (hlen : name83.length=11)
    (haway : name83.headD 0=0xE5) : Draws v (setName m a name83) (t.without a) ∅ := by
  have hfirst : setName m a name83 a=0xE5 :=
    (first_of_name (nameAt_setName hlen)).trans haway
  refine (Draws.editRemoved hv h hp ha (editor_setName name83) ?_).close fun q _ _ hlive' => ?_
  · rw [hfirst]
    exact iff_of_false (by decide) (live_iff.mp hlive).1
  · exact ((live_iff.mp hlive').2.1 hfirst).elim

/-- A file has grown: only bytes of its clusters and of the new ones, which were
free, have changed. -/
structure Grown (v : Volume) (m m' : Bytes) (nodes added : List ℕ) : Prop where
  /-- The file's clusters are in range. -/
  inRange : ∀ c∈nodes, InRange v c
  /-- The new clusters were free. -/
  fresh : ∀ c∈added, InRange v c ∧ link v m c=0
  /-- Other bytes stay. -/
  frame : ∀ b, (∀ c∈nodes++added, ¬DataByte v c b ∧ ¬LinkByte v c b) → m' b=m b

/-- Bytes of other clusters do not change when a file grows. -/
theorem Grown.keeps (hv : Mounted v) (h : Grown v m m' l added) (hc : InRange v c)
    (hn : c∉l++added) (hb : DataByte v c b ∨ LinkByte v c b) : m' b=m b := by
  refine h.frame b fun x hx => ?_
  have hxr : InRange v x := by
    rcases List.mem_append.mp hx with hx | hx
    · exact h.inRange x hx
    · exact (h.fresh x hx).1
  have hne : c≠x := by
    rintro rfl
    exact hn hx
  rcases hb with hb | hb
  · exact ⟨data_disjoint hc hxr hne hb,fun hl => hv.link_not_data hxr.2 hc hl hb⟩
  · exact ⟨hv.link_not_data hc.2 hxr hb,link_disjoint hne hb⟩

/-- Links of other clusters do not change when a file grows. -/
theorem Grown.link_eq (hv : Mounted v) (h : Grown v m m' l added) (hc : InRange v c)
    (hn : c∉l++added) : link v m' c=link v m c :=
  link_congr fun _ hb => h.keeps hv hc hn (Or.inr hb)

/-- Slots of other objects do not change when a file grows. -/
theorem Grown.slot_eq (hv : Mounted v) (h : Grown v m m' l added) {nodes : List ℕ}
    (hr : ∀ c∈nodes, InRange v c) (hn : ∀ c∈nodes, c∉l++added) (ha : a∈slots v nodes) {i : ℕ}
    (hi : i<32) : m' (a+i)=m (a+i) := by
  obtain ⟨c,hc,hbyte⟩ := slot_dataByte ha
  exact h.keeps hv (hr c hc) (hn c hc) (Or.inl (hbyte i hi))

/-- A file whose clusters are apart from its directory is found in the same slot after it
has grown, with the same entry. -/
theorem Grown.resolves (hv : Mounted v) {dir : List ℕ} {cwd : ℕ} (hdir : FileChain v m cwd dir)
    (h : Grown v m m' l added) (hapart : ∀ x∈l, x∉dir) (hres : Resolves v m dir name83 a) :
    FileChain v m' cwd dir ∧ Resolves v m' dir name83 a ∧ entryAt m' a=entryAt m a := by
  have hout : ∀ x∈dir, x∉l++added := by
    intro x hx hmem
    rcases List.mem_append.mp hmem with hmem | hmem
    · exact hapart x hmem hx
    · exact hdir.link_ne_zero hv hx (h.fresh x hmem).2
  exact ⟨hdir.congr fun x hx => h.link_eq hv (hdir.inRange x hx) (hout x hx),
    hres.congr fun b hb i hi => h.slot_eq hv hdir.inRange hout hb (by omega),
    entryAt_congr fun i hi => h.slot_eq hv hdir.inRange hout hres.mem hi⟩

/-- Growing objects do not meet others. -/
theorem Grown.not_mem (hv : Mounted v) (h : Draws v m t holes) (hgrown : Grown v m m' l added)
    (hg : g∈t.nodes) (hl : ∀ c∈l, c∉t.chain g) (hc : c∈t.chain g) : c∉l++added := by
  intro hmem
  rcases List.mem_append.mp hmem with hmem | hmem
  · exact hl c hmem hc
  · exact h.link_ne_zero hv hg hc (hgrown.fresh c hmem).2

/-- A file of the tree has grown. -/
theorem Draws.grow (hv : Mounted v) (h : Draws v m t ∅) (hf : f∈t.nodes) (hfile : f∉t.folder)
    (hgrown : Grown v m m' (t.chain f) added) (hchain : FileChain v m' f (t.chain f++added)) :
    Draws v m' (t.setChain f (t.chain f++added)) ∅ := by
  have hout : ∀ g∈t.nodes, g≠f → ∀ c∈t.chain g, c∉t.chain f++added := fun g hg hne c hc =>
    hgrown.not_mem hv h hg (h.apart f hf g hg (Ne.symm hne)) hc
  refine h.setChain hfile (fun g hg hne c hc => ?_) (fun p hp b hb i hi => ?_) hchain ?_
    fun g hg hne c hc hcg => hout g hg hne c hcg hc
  · exact hgrown.link_eq hv ((h.chain g hg).inRange c hc) (hout g hg hne c hc)
  · have hne : p≠f := by
      rintro rfl
      exact hfile hp.2
    exact hgrown.slot_eq hv (h.chain p hp.1).inRange (hout p hp.1 hne) hb hi
  · exact List.append_ne_nil_of_left_ne_nil (h.nonempty f hf) added

/-- Free clusters have become a chain that belongs to no object. -/
theorem Draws.waste (hv : Mounted v) (h : Draws v m t ∅) (hgrown : Grown v m m' [] added) :
    Draws v m' t ∅ := by
  have hout : ∀ g∈t.nodes, ∀ c∈t.chain g, c∉[]++added := fun g hg c hc =>
    hgrown.not_mem hv h hg (fun x hx => by cases hx) hc
  refine h.congr ⟨fun g hg c hc => ?_,fun p hp b hb _ i hi => ?_⟩
  · exact hgrown.link_eq hv ((h.chain g hg).inRange c hc) (hout g hg c hc)
  · exact hgrown.slot_eq hv (h.chain p hp.1).inRange (hout p hp.1) hb hi

/-- Name, state and attributes of an updated entry. -/
theorem updated_keeps {cluster : ℕ} {result : ℤ} :
    nameAt (updatedEntry cluster result m a) a=nameAt m a ∧
      slotLive (updatedEntry cluster result m a) a=slotLive m a ∧
      folderAt (updatedEntry cluster result m a) a=folderAt m a := by
  obtain ⟨h1,h2,h3⟩ := @setFirstCluster_keeps (store32 m (a+28) (result%2^32).toNat) a cluster
  have hname : nameAt (store32 m (a+28) (result%2^32).toNat) a=nameAt m a :=
    nameAt_congr fun i hi => storeBytes_outside (by omega)
  have hattr : (entryAt (store32 m (a+28) (result%2^32).toNat) a).attr=(entryAt m a).attr :=
    attr_congr (storeBytes_outside (by omega))
  refine ⟨h1.trans hname,h3.trans ?_,?_⟩
  · rw [slotLive,slotLive,slotEnd,slotEnd,slotShort,slotShort,hattr,store32,
      storeBytes_outside (by omega)]
  · rw [folderAt,folderAt,isDirectory,isDirectory,← hattr,← h2]
    rfl

/-- The entry of a file is updated. -/
theorem Draws.resize (hv : Mounted v) (h : Draws v m t ∅) (hp : t.Folder p)
    (ha : a∈slots v (t.chain p)) (hlive : slotLive m a=true) (hf : target m a=f)
    (hown : f∈t.nodes ∧ f≠t.root ∧ t.slot f=a) (result : ℤ) :
    Draws v (updatedEntry f result m a) t ∅ := by
  obtain ⟨_,h2,h3⟩ := @updated_keeps m a f result
  have htarget : target (updatedEntry f result m a) a=f :=
    target_setFirstCluster ((inRange_lt hv (h.inRange hv hown.1)).trans (by norm_num))
  refine Draws.editSlot hv h hp ha (editor_updated f result) (fun g hg hne hslot => ?_)
    (fun _ => Or.inr (Or.inl (by rw [htarget]; exact hown))) ?_
  · have hentry := h.entry g hg hne
    rw [hslot] at hentry
    rw [h2,h3,htarget]
    exact ⟨hlive,hf.symm.trans hentry.2.1,hentry.2.2⟩
  · refine (h.dense p hp).congr fun b hb => ?_
    by_cases hba : b=a
    · rw [hba,updatedEntry_outside (by omega)]
    · rw [(editor_updated f result).outside m a b (by
        have := slots_disjoint hb ha hba
        omega)]

/-- A file without clusters gets a chain that belongs to no object. -/
theorem Draws.adopt (hv : Mounted v) (h : Draws v m t ∅) (hp : t.Folder p)
    (ha : a∈slots v (t.chain p)) (hlive : slotLive m a=true) (hz : target m a=0)
    (hfile : folderAt m a=false) (hchain : FileChain v m f l) (hl : l≠[])
    (hapart : ∀ g∈t.nodes, ∀ c∈l, c∉t.chain g) (hf : f∉t.nodes) (result : ℤ) :
    Draws v (updatedEntry f result m a) (t.add f p a l False hf hp.1) ∅ := by
  obtain ⟨_,h2,h3⟩ := @updated_keeps m a f result
  obtain ⟨x,rest,hx⟩ := List.exists_cons_of_ne_nil hl
  have hfr : InRange v f := by
    rw [hx] at hchain
    obtain ⟨rfl,hr,_⟩ := (fileChain_cons hv).mp hchain
    exact hr
  have htarget : target (updatedEntry f result m a) a=f :=
    target_setFirstCluster ((inRange_lt hv hfr).trans (by norm_num))
  have hag := agree_edit hv (h.open {a}) hp ha (editor_updated f result)
  have hopen : Draws v (updatedEntry f result m a) t {a} := by
    refine (h.open {a}).edit hag (fun g hg hne hslot => ?_) fun q hq => ?_
    · have hentry := (h.entry g hg hne).2.1
      rw [Set.mem_singleton_iff.mp hslot,hz] at hentry
      exact (h.ne_zero hv hg hentry.symm).elim
    · refine (h.dense q hq).congr fun b hb => ?_
      by_cases hba : b=a
      · rw [hba,updatedEntry_outside (by omega)]
      · rw [show updatedEntry f result m a b=m b from hag.slots q hq b hb hba 0 (by norm_num)]
  refine hopen.add hf hp ha (by rw [h2]; exact hlive) htarget (by rw [h3,hfile]; simp) ?_ hl hapart
    fun hfalse => hfalse.elim
  exact hchain.congr fun c hc => link_updated hv (h.chain p hp.1).inRange ha (hchain.inRange c hc)

/-- Storing a dot entry changes its slot only. -/
theorem editor_setDotEntry (name : List UInt8) (cluster : ℕ) :
    Editor fun m a => setDotEntry m a name cluster :=
  ((editor_setName (padded name 11)).comp (editor_store 11 1 (by norm_num))).comp
    (editor_setFirstCluster cluster)

/-- A dot entry. -/
theorem setDotEntry_spec {name : List UInt8} {cluster : ℕ} (h : cluster<2^32) :
    nameAt (setDotEntry m a name cluster) a=padded name 11 ∧
      target (setDotEntry m a name cluster) a=cluster ∧
      folderAt (setDotEntry m a name cluster) a=true := by
  obtain ⟨h1,h2,_⟩ := @setFirstCluster_keeps
    (storeBytes (setName m a (padded name 11)) (a+11) 1 0x10) a cluster
  refine ⟨h1.trans (Eq.trans (nameAt_congr fun i hi => storeBytes_outside (by omega))
    (nameAt_setName (m:=m) (padded_length name 11))),target_setFirstCluster h,?_⟩
  have hattr : (entryAt (setDotEntry m a name cluster) a).attr=0x10 := by
    refine h2.trans ?_
    simp only [entryAt]
    rw [loadBytes_storeBytes_same]
    norm_num
  rw [folderAt,isDirectory,hattr]
  decide

/-- The two entries of a new directory lead to it and to its parent. -/
theorem newDirectory_dots (hf : f<2^32) (hp : p<2^32) :
    (nameAt (newDirectory f p) 0=padded [0x2E] 11 ∧ target (newDirectory f p) 0=f ∧
      folderAt (newDirectory f p) 0=true) ∧
    (nameAt (newDirectory f p) 32=padded [0x2E,0x2E] 11 ∧ target (newDirectory f p) 32=p ∧
      folderAt (newDirectory f p) 32=true) := by
  obtain ⟨h1,h2,h3⟩ := @setDotEntry_spec (fun _ => 0) 0 [0x2E] _ hf
  obtain ⟨h4,h5,h6⟩ := @setDotEntry_spec (setDotEntry (fun _ => 0) 0 [0x2E] f) 32
    [0x2E,0x2E] _ hp
  obtain ⟨_,k1,k2,k3⟩ := @slot_congr (setDotEntry (fun _ => 0) 0 [0x2E] f) (newDirectory f p) 0
    fun i hi => (editor_setDotEntry [0x2E,0x2E] p).outside _ 32 _ (by omega)
  exact ⟨⟨k3.trans h1,k1.trans h2,k2.trans h3⟩,h4,h5,h6⟩

/-- The other slots of a new directory were never used. -/
theorem newDirectory_rest {i : ℕ} (hi : 64 ≤ i) : newDirectory f p i=0 := by
  rw [newDirectory,(editor_setDotEntry [0x2E,0x2E] p).outside _ 32 i (by omega),
    (editor_setDotEntry [0x2E] f).outside _ 0 i (by omega)]

/-- The cluster is blank after its first sector. -/
def Blank (v : Volume) (m : Bytes) (c : ℕ) : Prop :=
  ∀ i, 512 ≤ i → i<clusterBytes v → m (dataAddr v c+i)=0

/-- No slot after the first sector of the cluster was ever used. -/
def FreshTail (v : Volume) (m : Bytes) (c : ℕ) : Prop :=
  ∀ j, 16 ≤ j → j<16*v.sectorsPerCluster → m (dataAddr v c+32*j)=0

/-- A blank cluster has no used slots after its first sector. -/
theorem Blank.freshTail (h : Blank v m c) : FreshTail v m c := fun j h1 h2 =>
  h (32*j) (by omega) (by simp only [clusterBytes,sectorSize]; omega)

/-- A live slot of a new directory is one of its two dot entries. -/
def DotSlot (v : Volume) (m : Bytes) (f p b : ℕ) : Prop :=
  folderAt m b=true ∧
    (b=dataAddr v f ∧ nameAt m b=padded [0x2E] 11 ∧ target m b=f ∨
      b=dataAddr v f+32 ∧ nameAt m b=padded [0x2E,0x2E] 11 ∧ target m b=p)

/-- The two entries of a copy of a new directory. -/
theorem dots_copied {base : ℕ} (hf : f<2^32) (hp : p<2^32)
    (hcopy : ∀ i, i<512 → m (base+i)=newDirectory f p i) :
    (nameAt m base=padded [0x2E] 11 ∧ target m base=f ∧ folderAt m base=true) ∧
      (nameAt m (base+32)=padded [0x2E,0x2E] 11 ∧ target m (base+32)=p ∧
        folderAt m (base+32)=true) := by
  have hread : ∀ x, x+32≤512 → target m (base+x)=target (newDirectory f p) x ∧
      folderAt m (base+x)=folderAt (newDirectory f p) x ∧
      nameAt m (base+x)=nameAt (newDirectory f p) x := by
    intro x hx
    obtain ⟨_,h1,h2,h3⟩ := @slot_congr (newDirectory f p) (fun y => m (base+y)) x
      fun i hi => hcopy _ (by omega)
    simp only [target,folderAt,nameAt] at h1 h2 h3 ⊢
    rw [entryAt_move] at h1 h2 h3
    exact ⟨h1,h2,h3⟩
  have hself := hread 0 (by norm_num)
  have hparent := hread 32 (by norm_num)
  rw [Nat.add_zero] at hself
  rw [hself.1,hself.2.1,hself.2.2,hparent.1,hparent.2.1,hparent.2.2]
  exact newDirectory_dots hf hp

/-- The contents of a new directory. -/
theorem new_contents (hv : Mounted v) (hf : InRange v f) (hp : p<2^32)
    (hfirst : ∀ i, i<512 → m (dataAddr v f+i)=newDirectory f p i) (htail : FreshTail v m f) :
    Dense m (slots v [f]) ∧ ∀ b∈slots v [f], slotLive m b=true → DotSlot v m f p b := by
  have hslots : slots v [f]=rangeSlots (dataAddr v f) v.sectorsPerCluster := by
    rw [slots_cons,slots,List.flatMap_nil,List.append_nil]
  have hzero : ∀ j, 2≤j → j<16*v.sectorsPerCluster → m (dataAddr v f+32*j)=0 := by
    intro j h1 h2
    by_cases hj : 32*j<512
    · rw [hfirst _ hj,newDirectory_rest (by omega)]
    · exact htail j (by omega) h2
  obtain ⟨⟨hname,htarget,hfolder⟩,hname2,htarget2,hfolder2⟩ :=
    dots_copied ((inRange_lt hv hf).trans (by norm_num)) hp hfirst
  rw [hslots]
  refine ⟨⟨[dataAddr v f,dataAddr v f+32],
    (List.range (16*v.sectorsPerCluster-2)).map fun j => dataAddr v f+32*(2+j),?_,?_,?_⟩,?_⟩
  · have hpos := hv.cluster_pos
    have hsplit : 16*v.sectorsPerCluster=2+(16*v.sectorsPerCluster-2) := by omega
    have htwo : (List.range 2).map (fun j => dataAddr v f+32*j)=[dataAddr v f,dataAddr v f+32] := by
      simp [List.range_succ]
    rw [rangeSlots,hsplit,List.range_add,List.map_append,List.map_map,htwo,← hsplit]
    exact congrArg _ (List.map_congr_left fun j _ => rfl)
  · intro b hb
    simp only [List.mem_cons,List.not_mem_nil,or_false] at hb
    rcases hb with rfl | rfl
    · rw [first_of_name hname]
      decide
    · rw [first_of_name hname2]
      decide
  · intro b hb
    obtain ⟨j,hj,rfl⟩ := List.mem_map.mp hb
    have hlt := List.mem_range.mp hj
    exact hzero (2+j) (Nat.le_add_right 2 j) (by omega)
  · intro b hb hlive
    obtain ⟨j,hj,rfl⟩ := List.mem_map.mp hb
    have hlt := List.mem_range.mp hj
    have hj2 : j=0 ∨ j=1 := by
      by_contra hne
      exact (live_iff.mp hlive).1 (hzero j (by omega) hlt)
    rcases hj2 with rfl | rfl
    · rw [Nat.mul_zero,Nat.add_zero]
      exact ⟨hfolder,Or.inl ⟨rfl,hname,htarget⟩⟩
    · rw [Nat.mul_one]
      exact ⟨hfolder2,Or.inr ⟨rfl,hname2,htarget2⟩⟩

/-- The disk after a directory has got its cluster. -/
def attached (v : Volume) (m : Bytes) (a f p : ℕ) : Bytes :=
  copyRange (setLink v (setFirstCluster m a f) f endMark) (dataAddr v f) 512 (newDirectory f p)

/-- Bytes of other clusters do not change. -/
theorem attached_outside (hv : Mounted v) (ha : b<a ∨ a+32≤b) (hd : ¬DataByte v f b)
    (hl : ¬LinkByte v f b) : attached v m a f p b=m b := by
  have hpos := hv.cluster_pos
  simp only [DataByte,clusterBytes,sectorSize] at hd
  rw [attached,copyRange_outside (by omega),setLink_outside hl,
    (editor_setFirstCluster f).outside m a b ha]

/-- The links after a directory has got its cluster. -/
theorem link_attached (hv : Mounted v) (hr : ∀ x∈l, InRange v x) (ha : a∈slots v l)
    (hf : InRange v f) (hc : InRange v c) :
    link v (attached v m a f p) c=if c=f then endMark else link v m c := by
  have hpos := hv.cluster_pos
  have hlink : link v (setFirstCluster m a f) c=link v m c := link_congr fun b hb =>
    (editor_setFirstCluster f).outside m a b (slot_not_link hv hr ha hc hb)
  rw [attached,link_copyRange hv hf (by simp only [clusterBytes,sectorSize]; omega) hc.2]
  by_cases hcf : c=f
  · rw [if_pos hcf,hcf,link_setLink_same]
    norm_num
  · rw [if_neg hcf,link_setLink_other hcf,hlink]

/-- The entry of a directory that has got its cluster. -/
theorem attached_slot (hv : Mounted v) (hr : ∀ x∈l, InRange v x) (ha : a∈slots v l)
    (hf : InRange v f) (hfl : f∉l) {i : ℕ} (hi : i<32) :
    attached v m a f p (a+i)=setFirstCluster m a f (a+i) := by
  obtain ⟨x,hx,hbyte⟩ := slot_dataByte ha
  have hpos := hv.cluster_pos
  have hne : x≠f := by
    rintro rfl
    exact hfl hx
  have hd := data_disjoint (hr x hx) hf hne (hbyte i hi)
  simp only [DataByte,clusterBytes,sectorSize] at hd
  rw [attached,copyRange_outside (by omega),
    setLink_outside fun hb => hv.link_not_data hf.2 (hr x hx) hb (hbyte i hi)]

/-- Other entries do not change when a directory gets its cluster. -/
theorem attached_other (hv : Mounted v) {nodes other : List ℕ} (ha : a∈slots v nodes)
    (hr : ∀ x∈other, InRange v x) (hf : InRange v f) (hfo : f∉other) (hb : b∈slots v other)
    (hne : b≠a) {i : ℕ} (hi : i<32) : attached v m a f p (b+i)=m (b+i) := by
  obtain ⟨x,hx,hbyte⟩ := slot_dataByte hb
  have hxf : x≠f := by
    rintro rfl
    exact hfo hx
  refine attached_outside hv ?_ (data_disjoint (hr x hx) hf hxf (hbyte i hi))
    fun hl => hv.link_not_data hf.2 (hr x hx) hl (hbyte i hi)
  have := slots_disjoint hb ha hne
  omega

/-- A slot of a directory is apart from a free cluster. -/
theorem slot_apart_free (hv : Mounted v) (h : Draws v m t ∅) (hp : t.Folder p)
    (ha : a∈slots v (t.chain p)) (hf : InRange v f) (hz : link v m f=0) {b : ℕ}
    (hb : DataByte v f b) : ¬(a≤b ∧ b<a+32) := by
  intro hin
  obtain ⟨x,hx,hslot⟩ := slot_dataByte ha
  have hne : x≠f := by
    intro he
    exact h.not_mem_of_free hv hz hp.1 (he ▸ hx)
  have hdata := hslot (b-a) (by omega)
  rw [Nat.add_sub_cancel' hin.1] at hdata
  exact data_disjoint ((h.chain p hp.1).inRange x hx) hf hne hdata hb

/-- The contents of the cluster that a directory has got. -/
theorem attached_contents (hv : Mounted v) (h : Draws v m t ∅) (hp : t.Folder p)
    (ha : a∈slots v (t.chain p)) (hf : InRange v f) (hz : link v m f=0) (htail : FreshTail v m f) :
    Dense (attached v m a f p) (slots v [f]) ∧ ∀ b∈slots v [f],
      slotLive (attached v m a f p) b=true → DotSlot v (attached v m a f p) f p b := by
  have hpr := inRange_lt hv (h.inRange hv hp.1)
  refine new_contents hv hf (hpr.trans (by norm_num)) (fun i hi => copyRange_inside hi)
    fun j h1 h2 => ?_
  have hbyte : DataByte v f (dataAddr v f+32*j) :=
    ⟨Nat.le_add_right _ _,by simp only [clusterBytes,sectorSize]; omega⟩
  rw [attached,copyRange_outside (by omega),
    setLink_outside fun hb => hv.link_not_data hf.2 hf hb hbyte,
    (editor_setFirstCluster f).outside m a _ ?_]
  · exact htail j h1 h2
  · have hapart := slot_apart_free hv h hp ha hf hz hbyte
    omega

/-- A directory gets its cluster. -/
theorem Draws.attach (hv : Mounted v) (h : Draws v m t ∅) (hp : t.Folder p)
    (ha : a∈slots v (t.chain p)) (hlive : slotLive m a=true) (hdir : folderAt m a=true)
    (hf : InRange v f) (hz : link v m f=0) (htail : FreshTail v m f) :
    Draws v (attached v m a f p) ((t.without a).add f p a [f] True
      (fun hn => h.fresh hv hz hn.1) (h.folder_without hp ha).1) ∅ := by
  have hp' := h.folder_without hp ha
  have hpr := (h.chain p hp.1).inRange
  have hfp := h.not_mem_of_free hv hz hp.1
  have hout : ∀ g∈t.nodes, ∀ c∈t.chain g, c≠f := by
    rintro g hg c hc rfl
    exact h.not_mem_of_free hv hz hg hc
  have hag : Agree v m (attached v m a f p) (t.without a) {a} := by
    refine ⟨fun g hg c hc => ?_,fun q hq b hb hne i hi => ?_⟩
    · rw [link_attached hv hpr ha hf ((h.chain g hg.1).inRange c hc),if_neg (hout g hg.1 c hc)]
    · exact attached_other hv ha (h.chain q hq.1.1).inRange hf (h.not_mem_of_free hv hz hq.1.1) hb
        hne hi
  obtain ⟨k1,_,k3,_⟩ := slot_congr fun i hi => attached_slot (m:=m) (p:=p) hv hpr ha hf hfp hi
  have htarget : target (attached v m a f p) a=f := by
    rw [target_congr fun i _ hi => attached_slot (m:=m) (p:=p) hv hpr ha hf hfp (by omega)]
    exact target_setFirstCluster ((inRange_lt hv hf).trans (by norm_num))
  obtain ⟨hdense,hdots⟩ := attached_contents hv h hp ha hf hz htail
  have hopen : Draws v (attached v m a f p) (t.without a) {a} := by
    refine (h.without a).edit hag (fun g hg hne hslot => ?_) fun q hq => ?_
    · exact (Tree.without_slot hg hne hslot).elim
    · refine (h.dense q ⟨hq.1.1,hq.2⟩).congr fun b hb => ?_
      by_cases hba : b=a
      · rw [hba,show attached v m a f p a=setFirstCluster m a f a from
          attached_slot hv hpr ha hf hfp (i:=0) (by norm_num),setFirstCluster_outside (by omega)]
      · rw [show attached v m a f p b=m b from hag.slots q hq b hb hba 0 (by norm_num)]
  refine hopen.add _ hp' ha ?_ htarget ?_ ?_ (by simp) (fun g hg c hc hcg => ?_) fun _ =>
    ⟨hdense,fun b hb hlive' => ?_⟩
  · rw [k1,setFirstCluster_keeps.2.2]
    exact hlive
  · rw [k3,folderAt,isDirectory,setFirstCluster_keeps.2.1]
    exact iff_of_true hdir trivial
  · refine (fileChain_cons hv).mpr ⟨rfl,hf,fileChain_nil.mpr ?_⟩
    rw [link_attached hv hpr ha hf hf,if_pos rfl]
    norm_num
  · rw [List.mem_singleton.mp hc] at hcg
    exact hout g hg.1 f hcg rfl
  · obtain ⟨h1,⟨_,h2,h3⟩ | ⟨_,h2,h3⟩⟩ := hdots b hb hlive'
    · exact ⟨h1,Or.inl h3,by rw [h2]; exact List.mem_cons_self⟩
    · exact ⟨h1,Or.inr h3,by rw [h2]; exact List.mem_cons_of_mem _ List.mem_cons_self⟩

/-- The disk after some clusters have been freed. -/
def freeLinks (v : Volume) (m : Bytes) (l : List ℕ) : Bytes := l.foldl (fun m c => setLink v m c 0) m

/-- Other bytes do not change. -/
theorem freeLinks_outside (h : ∀ c∈l, ¬LinkByte v c b) : freeLinks v m l b=m b := by
  induction l generalizing m with
  | nil => rfl
  | cons c rest ih =>
    rw [freeLinks,List.foldl_cons]
    exact (ih fun x hx => h x (by simp [hx])).trans (setLink_outside (h c (by simp)))

/-- The links after some clusters have been freed. -/
theorem link_freeLinks : link v (freeLinks v m l) c=if c∈l then 0 else link v m c := by
  induction l generalizing m with
  | nil => rfl
  | cons x rest ih =>
    rw [freeLinks,List.foldl_cons]
    refine ih.trans ?_
    by_cases hx : c=x
    · subst hx
      rw [link_setLink_same,if_pos List.mem_cons_self]
      split <;> rfl
    · rw [link_setLink_other hx]
      simp [hx]

/-- Slots do not change when clusters are freed. -/
theorem freeLinks_slot (hv : Mounted v) {nodes : List ℕ} (hr : ∀ c∈nodes, InRange v c)
    (hl : ∀ c∈l, InRange v c) (ha : a∈slots v nodes) {i : ℕ} (hi : i<32) :
    freeLinks v m l (a+i)=m (a+i) := by
  obtain ⟨x,hx,hbyte⟩ := slot_dataByte ha
  exact freeLinks_outside fun c hc hb => hv.link_not_data (hl c hc).2 (hr x hx) hb (hbyte i hi)

/-- A directory is removed with its clusters. -/
theorem Draws.remove (hv : Mounted v) (h : Draws v m t ∅) (hp : t.Folder p)
    (ha : a∈slots v (t.chain p)) (hlive : slotLive m a=true)
    (hown : f∈t.nodes ∧ f≠t.root ∧ t.slot f=a) :
    Draws v (eraseEntry (freeLinks v m (t.chain f)) a) (t.without a) ∅ := by
  obtain ⟨hf,hne,hslot⟩ := hown
  have hfr := (h.chain f hf).inRange
  have hp' := h.folder_without hp ha
  have hfn : f∉(t.without a).nodes := fun hn => hn.2 ⟨f,hf,hne,hslot,t.above_refl f⟩
  have hag : Agree v m (freeLinks v m (t.chain f)) (t.without a) {a} := by
    refine ⟨fun g hg c hc => ?_,fun q hq b hb _ i hi =>
      freeLinks_slot hv (h.chain q hq.1.1).inRange hfr hb hi⟩
    rw [link_freeLinks,if_neg]
    intro hcf
    refine hfn ?_
    rw [h.chain_unique hf hg.1 hcf hc]
    exact hg
  have hfirst : ∀ q, t.Folder q → ∀ b∈slots v (t.chain q), freeLinks v m (t.chain f) b=m b :=
    fun q hq b hb => freeLinks_slot hv (h.chain q hq.1).inRange hfr hb (i:=0) (by norm_num)
  have hfreed : Draws v (freeLinks v m (t.chain f)) (t.without a) {a} := by
    refine (h.without a).edit hag (fun g hg hgne hgs => ?_) fun q hq => ?_
    · exact (Tree.without_slot hg hgne hgs).elim
    · refine (h.dense q ⟨hq.1.1,hq.2⟩).congr fun b hb => ?_
      rw [hfirst q ⟨hq.1.1,hq.2⟩ b hb]
  have hag' := agree_edit hv hfreed hp' ha editor_eraseEntry
  refine Draws.close (hfreed.edit hag' (fun g hg hgne hgs => ?_) fun q hq => ?_)
    fun q _ _ hlive' => ?_
  · exact (Tree.without_slot hg hgne hgs).elim
  · refine (hfreed.dense q hq).congr fun b hb => ?_
    by_cases hba : b=a
    · rw [hba,eraseEntry_first,hfirst p hp a ha]
      exact iff_of_false (by decide) (live_iff.mp hlive).1
    · rw [show eraseEntry (freeLinks v m (t.chain f)) a b=freeLinks v m (t.chain f) b from
        hag'.slots q hq b hb hba 0 (by norm_num)]
  · exact ((live_iff.mp hlive').2.1 eraseEntry_first).elim

end OvsbMk.FatChanges
