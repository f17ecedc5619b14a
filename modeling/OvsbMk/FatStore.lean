import OvsbMk.FatNames
import OvsbMk.FatSpace
import OvsbMk.FileStore

/-!
# The volume as a store of files

What the driver is for: the directories of a volume are a store of files, in which
names are the eleven bytes of an entry. The store shows the live entries of all
directories that are reached, and for each file the text on its clusters. A change of
one slot that keeps the bytes of all other slots and of their files is a change of the
store at one name.
-/

namespace OvsbMk.FatStore

open ByteMemory BlockDisk Fat32 Chains FatTable FatData FatDirectory FatEntries RootedTree FatTree
  FatFiles FatChanges FatFaults FatOperations FatSteps FatRuns FatNames FileStore

variable {v : Volume} {m m' m'' : Bytes} {t t' t'' : Tree} {a b f p cwd : ℕ} {l added : List ℕ}
  {name : List UInt8} {node : Node ℕ UInt8}

/-- The store of a volume: directories are known by their first clusters. -/
abbrev Files : Type := Store ℕ (List UInt8) UInt8

/-- The directory a cluster of an entry leads to; zero stands for the root. -/
def leadsTo (v : Volume) (cluster : ℕ) : ℕ := if cluster=0 then v.rootCluster else cluster

/-- The entry in the slot is that of the file or the directory. -/
def Shows (v : Volume) (m : Bytes) (t : Tree) (a : ℕ) : Node ℕ UInt8 → Prop
  | .file text => folderAt m a=false ∧ text.length<2^31 ∧ (entryAt m a).size=text.length ∧
      Holds v m (clusters t (target m a)) (fun i => text.getD i 0) text.length
  | .folder q => folderAt m a=true ∧ q=leadsTo v (target m a)

/-- The slots of a directory list its names. -/
structure Lists (v : Volume) (m : Bytes) (t : Tree) (l : List ℕ)
    (entries : List UInt8 → Option (Node ℕ UInt8)) : Prop where
  /-- A name is that of a live slot, which shows what it stands for. -/
  shown : ∀ name node, entries name=some node →
    ∃ a∈l, slotLive m a=true ∧ nameAt m a=name ∧ Shows v m t a node
  /-- The name of a live slot stands for something. -/
  listed : ∀ a∈l, slotLive m a=true → entries (nameAt m a)≠none

/-- The directories of the tree list the names of the store. -/
def Represents (v : Volume) (m : Bytes) (t : Tree) (fs : Files) : Prop :=
  ∀ p, t.Folder p → Lists v m t (slots v (t.chain p)) (fs p)

/-- A name in use is found in a slot that shows what it stands for, and a name that is not
in use is not found. -/
theorem Lists.lookup {entries : List UInt8 → Option (Node ℕ UInt8)} (h : Lists v m t l entries)
    (hu : Distinct m l) (name : List UInt8) :
    (∃ a node, l.find? (slotNamed name m)=some a ∧ slotLive m a=true ∧ nameAt m a=name ∧
      entries name=some node ∧ Shows v m t a node) ∨
    l.find? (slotNamed name m)=none ∧ entries name=none ∧
      ∀ b∈l, slotLive m b=true → nameAt m b≠name := by
  cases hfind : l.find? (slotNamed name m) with
  | some a =>
    have hmem := List.mem_of_find?_eq_some hfind
    obtain ⟨hlive,hname⟩ := named_iff.mp (List.find?_some hfind)
    obtain ⟨node,hnode⟩ := Option.ne_none_iff_exists'.mp (h.listed a hmem hlive)
    rw [hname] at hnode
    obtain ⟨b,hb,hlb,hnb,hshow⟩ := h.shown name node hnode
    obtain rfl := hu b hb a hmem hlb hlive (hnb.trans hname.symm)
    exact Or.inl ⟨b,node,rfl,hlive,hname,hnode,hshow⟩
  | none =>
    have hnot : ∀ b∈l, slotLive m b=true → nameAt m b≠name := by
      intro b hb hlive hname
      exact List.find?_eq_none.mp hfind b hb (named_iff.mpr ⟨hlive,hname⟩)
    refine Or.inr ⟨rfl,?_,hnot⟩
    cases hentry : entries name with
    | none => rfl
    | some node =>
      obtain ⟨b,hb,hlb,hnb,_⟩ := h.shown name node hentry
      exact (hnot b hb hlb hnb).elim

/-- The names of a directory after a change of one slot. -/
def edited (m m' : Bytes) (a : ℕ) (node : Node ℕ UInt8)
    (entries : List UInt8 → Option (Node ℕ UInt8)) (name : List UInt8) : Option (Node ℕ UInt8) :=
  if slotLive m' a=true ∧ name=nameAt m' a then some node
  else if slotLive m a=true ∧ name=nameAt m a then none else entries name

/-- A directory that keeps its slots lists the same names. -/
theorem Lists.keep {entries : List UInt8 → Option (Node ℕ UInt8)} (h : Lists v m t l entries)
    (hkeep : ∀ b∈l, slotLive m' b=slotLive m b ∧ nameAt m' b=nameAt m b ∧
      (slotLive m b=true → ∀ node, Shows v m t b node → Shows v m' t' b node)) :
    Lists v m' t' l entries := by
  refine ⟨fun name node hnode => ?_,fun b hb hlive => ?_⟩
  · obtain ⟨b,hb,hlive,hname,hshow⟩ := h.shown name node hnode
    obtain ⟨h1,h2,h3⟩ := hkeep b hb
    exact ⟨b,hb,h1.trans hlive,h2.trans hname,h3 hlive node hshow⟩
  · obtain ⟨h1,h2,_⟩ := hkeep b hb
    rw [h2]
    exact h.listed b hb (h1.symm.trans hlive)

/-- A change of one slot is a change of its name. -/
theorem Lists.edit {entries : List UInt8 → Option (Node ℕ UInt8)} (h : Lists v m t l entries)
    (hu : Distinct m l) (ha : a∈l)
    (hkeep : ∀ b∈l, b≠a → slotLive m' b=slotLive m b ∧ nameAt m' b=nameAt m b ∧
      (slotLive m b=true → ∀ node, Shows v m t b node → Shows v m' t' b node))
    (hnew : slotLive m' a=true → Shows v m' t' a node) :
    Lists v m' t' l (edited m m' a node entries) := by
  refine ⟨fun name x hx => ?_,fun b hb hlive => ?_⟩
  · unfold edited at hx
    split at hx
    next hnow =>
      rw [Option.some.injEq] at hx
      subst hx
      exact ⟨a,ha,hnow.1,hnow.2.symm,hnew hnow.1⟩
    next hnow =>
      split at hx
      next => cases hx
      next hold =>
        obtain ⟨b,hb,hlive,hname,hshow⟩ := h.shown name x hx
        have hne : b≠a := by
          intro he
          subst he
          exact hold ⟨hlive,hname.symm⟩
        obtain ⟨h1,h2,h3⟩ := hkeep b hb hne
        exact ⟨b,hb,h1.trans hlive,h2.trans hname,h3 hlive x hshow⟩
  · unfold edited
    by_cases hba : b=a
    · rw [hba] at hlive ⊢
      rw [if_pos ⟨hlive,rfl⟩]
      exact Option.some_ne_none node
    · obtain ⟨h1,h2,_⟩ := hkeep b hb hba
      have hold := h1.symm.trans hlive
      split
      next => exact Option.some_ne_none node
      next =>
        rw [h2,if_neg]
        · exact h.listed b hb hold
        · rintro ⟨hla,hname⟩
          exact hba (hu b hb a ha hold hla hname)

/-- What a change keeps when it is about the entry in one slot: the bytes of all other
slots, and the clusters of the files that have their entries there. -/
structure Kept (v : Volume) (m m' : Bytes) (t t' : Tree) (a : ℕ) : Prop where
  /-- Other slots. -/
  slot : ∀ p, t.Folder p → ∀ b∈slots v (t.chain p), b≠a → ∀ i, i<32 → m' (b+i)=m (b+i)
  /-- Their files. -/
  data : ∀ p, t.Folder p → ∀ b∈slots v (t.chain p), b≠a → slotLive m b=true → folderAt m b=false →
    clusters t' (target m b)=clusters t (target m b) ∧
      ∀ c∈clusters t (target m b), ∀ x, DataByte v c x → m' x=m x

/-- A text along clusters that keep their bytes. -/
theorem holds_congr (hv : Mounted v) {text : ℕ → UInt8} {size : ℕ} (h : Holds v m l text size)
    (hkeep : ∀ c∈l, ∀ x, DataByte v c x → m' x=m x) : Holds v m' l text size := by
  intro i hi
  obtain ⟨c,hc,htext⟩ := h i hi
  refine ⟨c,hc,(hkeep c (List.mem_of_getElem? hc) _ ⟨Nat.le_add_right _ _,?_⟩).trans htext⟩
  exact Nat.add_lt_add_left (Nat.mod_lt _ (clusterBytes_pos hv)) _

/-- Other slots show what they showed. -/
theorem Kept.shows (hv : Mounted v) (h : Kept v m m' t t' a) (hp : t.Folder p)
    (hb : b∈slots v (t.chain p)) (hne : b≠a) (hlive : slotLive m b=true)
    (hshow : Shows v m t b node) : Shows v m' t' b node := by
  obtain ⟨_,htarget,hfolder,_⟩ := slot_congr (h.slot p hp b hb hne)
  cases node with
  | file text =>
    obtain ⟨h1,h2,h3,h4⟩ := hshow
    obtain ⟨hsame,hdata⟩ := h.data p hp b hb hne hlive h1
    refine ⟨hfolder.trans h1,h2,?_,?_⟩
    · rw [entryAt_congr (h.slot p hp b hb hne)]
      exact h3
    · rw [htarget,hsame]
      exact holds_congr hv h4 hdata
  | folder q =>
    obtain ⟨h1,h2⟩ := hshow
    refine ⟨hfolder.trans h1,?_⟩
    rw [htarget]
    exact h2

/-- The other slots of the directories that are left. -/
theorem Kept.other (hv : Mounted v) (h : Kept v m m' t t' a) (hp : t.Folder p)
    (hb : b∈slots v (t.chain p)) (hne : b≠a) : slotLive m' b=slotLive m b ∧
      nameAt m' b=nameAt m b ∧
      (slotLive m b=true → ∀ node, Shows v m t b node → Shows v m' t' b node) := by
  obtain ⟨h1,_,_,h4⟩ := slot_congr (h.slot p hp b hb hne)
  exact ⟨h1,h4,fun hlive _ hshow => h.shows hv hp hb hne hlive hshow⟩

/-- Two changes about one entry, one after the other. -/
theorem Kept.trans (h : Kept v m m' t t' a) (h' : Kept v m' m'' t' t'' a)
    (hsub : ∀ p, t.Folder p → t'.Folder p ∧ t'.chain p=t.chain p) : Kept v m m'' t t'' a := by
  refine ⟨fun p hp b hb hne i hi => ?_,fun p hp b hb hne hlive hfile => ?_⟩
  · obtain ⟨hp',hchain⟩ := hsub p hp
    exact (h'.slot p hp' b (hchain ▸ hb) hne i hi).trans (h.slot p hp b hb hne i hi)
  · obtain ⟨hp',hchain⟩ := hsub p hp
    obtain ⟨h1,h2,h3,_⟩ := slot_congr (h.slot p hp b hb hne)
    obtain ⟨hsame,hdata⟩ := h.data p hp b hb hne hlive hfile
    obtain ⟨hsame',hdata'⟩ := h'.data p hp' b (hchain ▸ hb) hne (h1.trans hlive) (h3.trans hfile)
    rw [h2,hsame] at hdata'
    rw [h2] at hsame'
    exact ⟨hsame'.trans hsame,fun c hc x hx => (hdata' c hc x hx).trans (hdata c hc x hx)⟩

/-- The clusters of a file are those of its object, which is no directory. -/
theorem file_clusters (hv : Mounted v) (h : Draws v m t ∅) (hp : t.Folder p)
    (hb : b∈slots v (t.chain p)) (hlive : slotLive m b=true) (hfile : folderAt m b=false) :
    clusters t (target m b)=[] ∧ target m b=0 ∨ Owns t m b ∧ target m b∉t.folder ∧
      clusters t (target m b)=t.chain (target m b) := by
  rcases Draws.place h hp hb hlive (Or.inl hfile) with hz | hown
  · exact Or.inl ⟨by rw [clusters,if_pos hz],hz⟩
  · refine Or.inr ⟨hown,fun hmem => ?_,by rw [clusters,if_neg (h.ne_zero hv hown.1)]⟩
    have hentry := (h.entry _ hown.1 hown.2.1).2.2.mpr hmem
    rw [hown.2.2,hfile] at hentry
    cases hentry

/-- The contents of files are apart from the slots of directories. -/
theorem file_apart (h : Draws v m t ∅) (hcwd : t.Folder cwd) (ha : a∈slots v (t.chain cwd))
    (hf : f∈t.nodes) (hfile : f∉t.folder) {c x : ℕ} (hc : c∈t.chain f) (hx : DataByte v c x) :
    x<a ∨ a+32≤x := by
  by_contra hin
  obtain ⟨y,hy,hbyte⟩ := slot_dataByte ha
  have hslot := hbyte (x-a) (by omega)
  rw [show a+(x-a)=x by omega] at hslot
  have hne : c≠y := by
    intro heq
    subst heq
    exact hfile (h.chain_unique hf hcwd.1 hc hy ▸ hcwd.2)
  exact data_disjoint ((h.chain _ hf).inRange c hc) ((h.chain _ hcwd.1).inRange y hy) hne hx hslot

/-- A change of the slot itself keeps the others and their files. -/
theorem Kept.edit (hv : Mounted v) (h : Draws v m t ∅) (hcwd : t.Folder cwd)
    (ha : a∈slots v (t.chain cwd)) (hk : Kept v m m' t t' a) {edit : Bytes → ℕ → Bytes}
    (he : Editor edit) (t'' : Tree) (hsame : ∀ x, clusters t'' x=clusters t' x) :
    Kept v m (edit m' a) t t'' a := by
  refine ⟨fun p hp b hb hne i hi => ?_,fun p hp b hb hne hlive hfile => ?_⟩
  · have hapart := slots_disjoint hb ha hne
    rw [he.outside m' a _ (by omega)]
    exact hk.slot p hp b hb hne i hi
  · obtain ⟨hclusters,hdata⟩ := hk.data p hp b hb hne hlive hfile
    refine ⟨(hsame _).trans hclusters,fun c hc x hx => ?_⟩
    rcases file_clusters hv h hp hb hlive hfile with ⟨hnil,_⟩ | ⟨hown,hnot,hchain⟩
    · rw [hnil] at hc
      cases hc
    · rw [hchain] at hc hdata
      rw [he.outside m' a x (file_apart h hcwd ha hown.1 hnot hc hx)]
      exact hdata c hc x hx

/-- Nothing is changed. -/
theorem Kept.refl (v : Volume) (m : Bytes) (t : Tree) (a : ℕ) : Kept v m m t t a :=
  ⟨fun _ _ _ _ _ _ _ => rfl,fun _ _ _ _ _ _ _ => ⟨rfl,fun _ _ _ _ => rfl⟩⟩

/-- The growth of a file keeps the other slots and their files. -/
theorem kept_grown (hv : Mounted v) (h : Draws v m t ∅) (hgrown : Grown v m m' l added)
    (hfolder : ∀ p, t.Folder p → ∀ c∈l, c∉t.chain p)
    (hother : ∀ x∈t.nodes, t.slot x≠a → (∀ c∈l, c∉t.chain x) ∧ t'.chain x=t.chain x) :
    Kept v m m' t t' a := by
  refine ⟨fun p hp b hb _ i hi => ?_,fun p hp b hb hne hlive hfile => ?_⟩
  · exact hgrown.slot_eq hv (h.chain p hp.1).inRange
      (fun c hc => hgrown.not_mem hv h hp.1 (hfolder p hp) hc) hb hi
  · rcases file_clusters hv h hp hb hlive hfile with ⟨hnil,hz⟩ | ⟨hown,_,hchain⟩
    · rw [hnil]
      refine ⟨?_,fun c hc => by cases hc⟩
      rw [hz,clusters,if_pos rfl]
    · obtain ⟨hl,hsame⟩ := hother _ hown.1 (by rw [hown.2.2]; exact hne)
      rw [hchain]
      refine ⟨?_,fun c hc x hx => ?_⟩
      · rw [clusters,if_neg (h.ne_zero hv hown.1)]
        exact hsame
      · exact hgrown.keeps hv ((h.chain _ hown.1).inRange c hc) (hgrown.not_mem hv h hown.1 hl hc)
          (Or.inl hx)

/-- Freeing clusters keeps all slots and files. -/
theorem kept_free (hv : Mounted v) (h : Draws v m t ∅) (hl : ∀ c∈l, InRange v c)
    (hsame : ∀ x, clusters t' x=clusters t x) : Kept v m (freeLinks v m l) t t' a := by
  refine ⟨fun p hp b hb _ i hi => ?_,fun p hp b hb _ hlive hfile => ⟨hsame _,fun c hc x hx => ?_⟩⟩
  · exact freeLinks_slot hv (h.chain p hp.1).inRange hl hb hi
  · rcases file_clusters hv h hp hb hlive hfile with ⟨hnil,_⟩ | ⟨hown,_,hchain⟩
    · rw [hnil] at hc
      cases hc
    rw [hchain] at hc
    exact freeLinks_outside fun y hy hlink =>
      hv.link_not_data (hl y hy).2 ((h.chain _ hown.1).inRange c hc) hlink hx

/-- A directory that gets its cluster keeps the other slots and their files. -/
theorem kept_attached (hv : Mounted v) (h : Draws v m t ∅) (hcwd : t.Folder cwd)
    (ha : a∈slots v (t.chain cwd)) (hf : InRange v f) (hz : link v m f=0)
    (hsame : ∀ x∈t.nodes, t'.chain x=t.chain x) : Kept v m (attached v m a f p) t t' a := by
  have hedit := (Kept.refl v m t a).edit hv h hcwd ha (editor_setFirstCluster f) t fun _ => rfl
  refine ⟨fun q hq b hb hne i hi => ?_,fun q hq b hb hne hlive hfile => ?_⟩
  · exact attached_other hv ha (h.chain q hq.1).inRange hf (h.not_mem_of_free hv hz hq.1) hb hne hi
  · rcases file_clusters hv h hq hb hlive hfile with ⟨hnil,hzero⟩ | ⟨hown,_,hchain⟩
    · rw [hnil]
      refine ⟨?_,fun c hc => by cases hc⟩
      rw [hzero,clusters,if_pos rfl]
    · have hkeep := (hedit.data q hq b hb hne hlive hfile).2
      rw [hchain] at hkeep ⊢
      refine ⟨?_,fun c hc x hx => ?_⟩
      · rw [clusters,if_neg (h.ne_zero hv hown.1)]
        exact hsame _ hown.1
      · have hcr := (h.chain _ hown.1).inRange c hc
        have hcf : c≠f := fun he => h.link_ne_zero hv hown.1 hc (he ▸ hz)
        have hpos := hv.cluster_pos
        have hdata : ¬DataByte v f x := fun hin => data_disjoint hcr hf hcf hx hin
        have hlink : ¬LinkByte v f x := fun hlink => hv.link_not_data hf.2 hcr hlink hx
        simp only [DataByte,clusterBytes,sectorSize] at hdata
        rw [attached,copyRange_outside (by omega),setLink_outside hlink]
        exact hkeep c hc x hx

/-- A directory that is left lists its names, with a change at one name in the current
directory. -/
theorem Represents.lists (hv : Mounted v) (h : Draws v m t ∅) {fs fs' : Files} (node : Node ℕ UInt8)
    (hrep : Represents v m t fs) (hu : Unique v m t) (hcwd : t.Folder cwd)
    (ha : a∈slots v (t.chain cwd)) (hk : Kept v m m' t t' a)
    (hnew : slotLive m' a=true → Shows v m' t' a node)
    (hfs : fs' cwd=edited m m' a node (fs cwd)) (hp : t.Folder p) (hother : p≠cwd → fs' p=fs p) :
    Lists v m' t' (slots v (t.chain p)) (fs' p) := by
  by_cases hpc : p=cwd
  · rw [hpc,hfs]
    exact (hrep cwd hcwd).edit (hu cwd hcwd) ha (fun b hb hne => hk.other hv hcwd hb hne) hnew
  · rw [hother hpc]
    refine (hrep p hp).keep fun b hb => hk.other hv hp hb ?_
    intro he
    subst he
    exact hpc (h.slot_unique hp.1 hcwd.1 hb ha)

/-- A change of one slot, with no new directory. -/
theorem Represents.change (hv : Mounted v) (h : Draws v m t ∅) {fs fs' : Files}
    (hrep : Represents v m t fs) (hu : Unique v m t) (hcwd : t.Folder cwd)
    (ha : a∈slots v (t.chain cwd)) (hk : Kept v m m' t t' a)
    (hsub : ∀ p, t'.Folder p → t.Folder p ∧ t'.chain p=t.chain p)
    (hnew : slotLive m' a=true → Shows v m' t' a node)
    (hfs : fs' cwd=edited m m' a node (fs cwd)) (hother : ∀ p, p≠cwd → fs' p=fs p) :
    Represents v m' t' fs' := by
  intro p hp
  obtain ⟨hp',hchain⟩ := hsub p hp
  rw [hchain]
  exact hrep.lists hv h node hu hcwd ha hk hnew hfs hp' (hother p)

end OvsbMk.FatStore
