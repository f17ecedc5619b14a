import OvsbMk.FatEntries
import OvsbMk.RootedTree

/-!
# The tree on a volume

A tree of files and directories, each with its chain and the slot of its entry,
and when the bytes of a volume draw it: chains do not share clusters, live
entries lead to objects of the tree in whose slot they are, or are dot entries
that lead back, or have no clusters. A slot may be left open while it is changed.
-/

namespace OvsbMk.FatTree

open ByteMemory BlockDisk Fat32 Chains FatTable FatData FatDirectory FatEntries RootedTree

/-- Files and directories that have clusters, under their first clusters. -/
structure Tree extends Rooted ℕ where
  /-- The clusters of an object. -/
  chain : ℕ → List ℕ
  /-- The slot of its entry. -/
  slot : ℕ → ℕ
  /-- The directories. -/
  folder : Set ℕ

variable {v : Volume} {m m' : Bytes} {t : Tree} {holes : Set ℕ} {a b c f g p q : ℕ}
  {l nodes other : List ℕ}

/-- The object is a directory of the tree. -/
def Tree.Folder (t : Tree) (p : ℕ) : Prop := p∈t.nodes ∧ p∈t.folder

/-- A live entry of a directory has no clusters, or is the entry of an object, or
is a dot entry that leads back. -/
def Placed (t : Tree) (m : Bytes) (p a : ℕ) : Prop :=
  target m a=0 ∨ (target m a∈t.nodes ∧ target m a≠t.root ∧ t.slot (target m a)=a) ∨
    (folderAt m a=true ∧ t.Above (target m a) p ∧ nameAt m a∈dotNames)

/-- The bytes of a volume draw the tree, but for the entries in some slots. -/
structure Draws (v : Volume) (m : Bytes) (t : Tree) (holes : Set ℕ) : Prop where
  /-- The root directory of the volume is the root. -/
  root : t.root=v.rootCluster
  /-- The root is a directory. -/
  root_folder : t.root∈t.folder
  /-- Objects are chains. -/
  chain : ∀ f∈t.nodes, FileChain v m f (t.chain f)
  /-- Objects have clusters. -/
  nonempty : ∀ f∈t.nodes, t.chain f≠[]
  /-- Objects share no cluster. -/
  apart : ∀ f∈t.nodes, ∀ g∈t.nodes, f≠g → ∀ c∈t.chain f, c∉t.chain g
  /-- Parents are directories. -/
  parent_folder : ∀ f∈t.nodes, t.parent f∈t.folder
  /-- The entry of an object is in its parent. -/
  slot_mem : ∀ f∈t.nodes, f≠t.root → t.slot f∈slots v (t.chain (t.parent f))
  /-- The entry leads to the object and tells whether it is a directory. -/
  entry : ∀ f∈t.nodes, f≠t.root → slotLive m (t.slot f)=true ∧ target m (t.slot f)=f ∧
    (folderAt m (t.slot f)=true ↔ f∈t.folder)
  /-- All live entries belong to the tree. -/
  placed : ∀ p, t.Folder p → ∀ a∈slots v (t.chain p), a∉holes → slotLive m a=true → Placed t m p a
  /-- Directories are used from their beginning. -/
  dense : ∀ p, t.Folder p → Dense m (slots v (t.chain p))

/-- An object starts with its first cluster. -/
theorem Draws.first_mem (hv : Mounted v) (h : Draws v m t holes) (hf : f∈t.nodes) :
    f∈t.chain f := by
  obtain ⟨x,rest,hx⟩ := List.exists_cons_of_ne_nil (h.nonempty f hf)
  have hchain := h.chain f hf
  rw [hx] at hchain ⊢
  obtain ⟨rfl,_⟩ := (fileChain_cons hv).mp hchain
  exact List.mem_cons_self

/-- First clusters are in range. -/
theorem Draws.inRange (hv : Mounted v) (h : Draws v m t holes) (hf : f∈t.nodes) : InRange v f :=
  (h.chain f hf).inRange f (h.first_mem hv hf)

/-- Clusters of objects are in use. -/
theorem Draws.link_ne_zero (hv : Mounted v) (h : Draws v m t holes) (hf : f∈t.nodes)
    (hc : c∈t.chain f) : link v m c≠0 :=
  (h.chain f hf).link_ne_zero hv hc

/-- A free cluster does not belong to an object. -/
theorem Draws.not_mem_of_free (hv : Mounted v) (h : Draws v m t holes) (hz : link v m c=0)
    (hf : f∈t.nodes) : c∉t.chain f := fun hc => h.link_ne_zero hv hf hc hz

/-- A free cluster is not an object. -/
theorem Draws.fresh (hv : Mounted v) (h : Draws v m t holes) (hz : link v m f=0) : f∉t.nodes :=
  fun hf => h.link_ne_zero hv hf (h.first_mem hv hf) hz

/-- The first cluster of an object is not zero. -/
theorem Draws.ne_zero (hv : Mounted v) (h : Draws v m t holes) (hf : f∈t.nodes) : f≠0 := by
  have := (h.inRange hv hf).1
  omega

/-- First clusters fit into an entry. -/
theorem inRange_lt (hv : Mounted v) (hc : InRange v c) : c<2^28 := by
  have h1 := hv.clusters_lt
  have h2 := hc.2
  simp only [endOfChain] at h1
  omega

/-- A cluster belongs to one object. -/
theorem Draws.chain_unique (h : Draws v m t holes) (hf : f∈t.nodes) (hg : g∈t.nodes)
    (hc : c∈t.chain f) (hc' : c∈t.chain g) : f=g := by
  by_contra hne
  exact h.apart f hf g hg hne c hc hc'

/-- A slot belongs to one object. -/
theorem Draws.slot_unique (h : Draws v m t holes) (hf : f∈t.nodes) (hg : g∈t.nodes)
    (ha : a∈slots v (t.chain f)) (ha' : a∈slots v (t.chain g)) : f=g := by
  obtain ⟨c,hc,hbyte⟩ := slot_dataByte ha
  obtain ⟨c',hc',hbyte'⟩ := slot_dataByte ha'
  obtain rfl : c=c' := by
    by_contra hne
    exact data_disjoint ((h.chain f hf).inRange c hc) ((h.chain g hg).inRange c' hc') hne
      (hbyte 0 (by norm_num)) (hbyte' 0 (by norm_num))
  exact h.chain_unique hf hg hc hc'

/-- Slots of two directories do not overlap. -/
theorem slots_disjoint (ha : a∈slots v nodes) (hb : b∈slots v other) (hne : a≠b) :
    a+32≤b ∨ b+32≤a := by
  obtain ⟨_,_,j,_,rfl⟩ := mem_slots ha
  obtain ⟨_,_,i,_,rfl⟩ := mem_slots hb
  simp only [dataAddr] at hne ⊢
  omega

/-- The parent of the object whose entry is in the slot. -/
theorem Draws.parent_eq (h : Draws v m t holes) (hp : t.Folder p) (ha : a∈slots v (t.chain p))
    (hf : f∈t.nodes) (hne : f≠t.root) (hslot : t.slot f=a) : t.parent f=p :=
  h.slot_unique (t.parent_mem f hf) hp.1 (by rw [← hslot] at ha ⊢; exact h.slot_mem f hf hne) ha

/-- What is above a directory is a directory. -/
theorem Draws.above_folder (h : Draws v m t holes) (hp : t.Folder p) (hq : t.Above q p) :
    t.Folder q := by
  refine ⟨hq.mem hp.1,?_⟩
  obtain ⟨n,rfl⟩ := hq
  cases n with
  | zero => exact hp.2
  | succ n =>
    rw [Function.iterate_succ_apply']
    exact h.parent_folder _ (Rooted.iterate_mem hp.1 n)

/-- Slots of a directory occur once. -/
theorem Draws.slots_nodup (h : Draws v m t holes) (hp : p∈t.nodes) : (slots v (t.chain p)).Nodup :=
  FatEntries.slots_nodup (h.chain p hp).inRange (h.chain p hp).nodup

/-- Two states of the disk agree on the links of a tree and on its directories,
but for some slots. -/
structure Agree (v : Volume) (m m' : Bytes) (t : Tree) (holes : Set ℕ) : Prop where
  /-- Links of the tree are the same. -/
  links : ∀ f∈t.nodes, ∀ c∈t.chain f, link v m' c=link v m c
  /-- The other slots are the same. -/
  slots : ∀ p, t.Folder p → ∀ b∈slots v (t.chain p), b∉holes → ∀ i, i<32 → m' (b+i)=m (b+i)

/-- The tree after a change of open slots. -/
theorem Draws.edit (h : Draws v m t holes) (hag : Agree v m m' t holes)
    (hown : ∀ f∈t.nodes, f≠t.root → t.slot f∈holes → slotLive m' (t.slot f)=true ∧
      target m' (t.slot f)=f ∧ (folderAt m' (t.slot f)=true ↔ f∈t.folder))
    (hdense : ∀ p, t.Folder p → Dense m' (FatDirectory.slots v (t.chain p))) :
    Draws v m' t holes where
  root := h.root
  root_folder := h.root_folder
  chain := fun f hf => (h.chain f hf).congr (hag.links f hf)
  nonempty := h.nonempty
  apart := h.apart
  parent_folder := h.parent_folder
  slot_mem := h.slot_mem
  entry := by
    intro f hf hne
    by_cases hopen : t.slot f∈holes
    · exact hown f hf hne hopen
    · obtain ⟨h1,h2,h3,_⟩ := slot_congr (hag.slots _ ⟨t.parent_mem f hf,h.parent_folder f hf⟩ _
        (h.slot_mem f hf hne) hopen)
      rw [h1,h2,h3]
      exact h.entry f hf hne
  placed := by
    intro p hp a ha hopen hlive
    obtain ⟨h1,h2,h3,h4⟩ := slot_congr (hag.slots p hp a ha hopen)
    rw [h1] at hlive
    rw [Placed,h2,h3,h4]
    exact h.placed p hp a ha hopen hlive
  dense := hdense

/-- The tree on a disk that agrees on it. -/
theorem Draws.congr (h : Draws v m t ∅) (hag : Agree v m m' t ∅) : Draws v m' t ∅ :=
  h.edit hag (fun _ _ _ hempty => hempty.elim) fun p hp => (h.dense p hp).congr fun a ha => by
    rw [show m' a=m a from hag.slots p hp a ha (Set.notMem_empty a) 0 (by norm_num)]

/-- A slot that is changed is left open. -/
theorem Draws.open (h : Draws v m t ∅) (holes : Set ℕ) : Draws v m t holes :=
  { h with placed := fun p hp a ha _ => h.placed p hp a ha (Set.notMem_empty a) }

/-- An open slot is closed when its entry belongs to the tree. -/
theorem Draws.close (h : Draws v m t {a})
    (hplace : ∀ p, t.Folder p → a∈slots v (t.chain p) → slotLive m a=true → Placed t m p a) :
    Draws v m t ∅ := by
  refine { h with placed := fun p hp b hb _ hlive => ?_ }
  by_cases hba : b=a
  · subst hba
    exact hplace p hp hb hlive
  · exact h.placed p hp b hb hba hlive

/-- The objects in or below the entry in a slot. -/
def Tree.inSlot (t : Tree) (a : ℕ) : Set ℕ :=
  {x | ∃ f∈t.nodes, f≠t.root ∧ t.slot f=a ∧ t.Above f x}

/-- They can be dropped. -/
theorem Tree.inSlot_lower (t : Tree) (a : ℕ) : t.Lower (t.inSlot a) where
  root := by
    rintro ⟨f,_,hne,_,habove⟩
    exact hne (Rooted.above_root habove)
  below := by
    rintro x _ ⟨f,hf,hne,hslot,habove⟩
    exact ⟨f,hf,hne,hslot,habove.of_parent⟩

/-- The tree without the entry in a slot. -/
def Tree.without (t : Tree) (a : ℕ) : Tree :=
  { t with toRooted := t.drop (t.inSlot a) (t.inSlot_lower a) }

/-- The objects that remain. -/
theorem Tree.mem_without : f∈(t.without a).nodes ↔ f∈t.nodes ∧ f∉t.inSlot a := Iff.rfl

/-- The directory of a slot remains when its entry is removed. -/
theorem Draws.folder_without (h : Draws v m t holes) (hp : t.Folder p) (ha : a∈slots v (t.chain p)) :
    (t.without a).Folder p := by
  refine ⟨⟨hp.1,?_⟩,hp.2⟩
  rintro ⟨f,hf,hne,hslot,habove⟩
  rw [← h.parent_eq hp ha hf hne hslot] at habove
  exact Rooted.not_above_parent hf hne habove

/-- Removing an entry leaves its slot open. -/
theorem Draws.without (h : Draws v m t ∅) (a : ℕ) : Draws v m (t.without a) {a} where
  root := h.root
  root_folder := h.root_folder
  chain := fun f hf => h.chain f hf.1
  nonempty := fun f hf => h.nonempty f hf.1
  apart := fun f hf g hg => h.apart f hf.1 g hg.1
  parent_folder := fun f hf => h.parent_folder f hf.1
  slot_mem := fun f hf => h.slot_mem f hf.1
  entry := fun f hf => h.entry f hf.1
  placed := by
    intro p hp b hb hba hlive
    rcases h.placed p ⟨hp.1.1,hp.2⟩ b hb (Set.notMem_empty b) hlive with hz | ⟨h1,h2,h3⟩ | ⟨h1,h2,h3⟩
    · exact Or.inl hz
    · refine Or.inr (Or.inl ⟨⟨h1,?_⟩,h2,h3⟩)
      rintro ⟨f,hf,hne,hslot,habove⟩
      rcases Rooted.above_cases habove with rfl | habove
      · exact hba (h3.symm.trans hslot)
      · rw [h.parent_eq ⟨hp.1.1,hp.2⟩ hb h1 h2 h3] at habove
        exact hp.1.2 ⟨f,hf,hne,hslot,habove⟩
    · exact Or.inr (Or.inr ⟨h1,h2,h3⟩)
  dense := fun p hp => h.dense p ⟨hp.1.1,hp.2⟩

/-- No object is left in the slot of a removed entry. -/
theorem Tree.without_slot (hf : f∈(t.without a).nodes) (hne : f≠t.root) : t.slot f≠a :=
  fun hslot => hf.2 ⟨f,hf.1,hne,hslot,t.above_refl f⟩

/-- The tree with one more object, whose entry is in a slot of a directory. -/
noncomputable def Tree.add (t : Tree) (f p a : ℕ) (l : List ℕ) (dir : Prop) (hf : f∉t.nodes)
    (hp : p∈t.nodes) : Tree where
  toRooted := t.toRooted.add f p hf hp
  chain := Function.update t.chain f l
  slot := Function.update t.slot f a
  folder := {x | x≠f ∧ x∈t.folder ∨ x=f ∧ dir}

/-- The old objects in a tree with one more. -/
theorem Tree.add_old {dir : Prop} (hf : f∉t.nodes) (hp : p∈t.nodes) (hg : g∈t.nodes) :
    (t.add f p a l dir hf hp).chain g=t.chain g ∧ (t.add f p a l dir hf hp).slot g=t.slot g ∧
      (t.add f p a l dir hf hp).parent g=t.parent g ∧
      (g∈(t.add f p a l dir hf hp).folder ↔ g∈t.folder) := by
  have hne : g≠f := Rooted.ne_new hf hg
  refine ⟨?_,?_,Rooted.add_parent_old hf hp hg,?_,fun h => Or.inl ⟨hne,h⟩⟩
  · exact Function.update_of_ne hne l t.chain
  · exact Function.update_of_ne hne a t.slot
  · rintro (h | h)
    · exact h.2
    · exact (hne h.1).elim

/-- The new object in a tree with one more. -/
theorem Tree.add_new {dir : Prop} (hf : f∉t.nodes) (hp : p∈t.nodes) :
    (t.add f p a l dir hf hp).chain f=l ∧ (t.add f p a l dir hf hp).slot f=a ∧
      (t.add f p a l dir hf hp).parent f=p ∧ (f∈(t.add f p a l dir hf hp).folder ↔ dir) := by
  refine ⟨?_,?_,Rooted.add_parent_new hf hp,?_,fun h => Or.inr ⟨rfl,h⟩⟩
  · exact Function.update_self f l t.chain
  · exact Function.update_self f a t.slot
  · rintro (h | h)
    · exact (h.1 rfl).elim
    · exact h.2

/-- A new object in an open slot. -/
theorem Draws.add (h : Draws v m t {a}) {dir : Prop} (hf : f∉t.nodes) (hp : t.Folder p)
    (ha : a∈slots v (t.chain p)) (hlive : slotLive m a=true) (htarget : target m a=f)
    (hdir : folderAt m a=true ↔ dir) (hchain : FileChain v m f l) (hl : l≠[])
    (hapart : ∀ g∈t.nodes, ∀ c∈l, c∉t.chain g)
    (hinside : dir → Dense m (slots v l) ∧ ∀ b∈slots v l, slotLive m b=true →
      folderAt m b=true ∧ (target m b=f ∨ target m b=p) ∧ nameAt m b∈dotNames) :
    Draws v m (t.add f p a l dir hf hp.1) ∅ := by
  have hne : ∀ {x}, x∈t.nodes → x≠f := fun hx => Rooted.ne_new hf hx
  obtain ⟨hchf,hslf,hparf,hfoldf⟩ := @Tree.add_new t a f p l dir hf hp.1
  have hold := fun (x : ℕ) => @Tree.add_old t a f x p l dir hf hp.1
  have hch := fun {x : ℕ} (hx : x∈t.nodes) => (hold x hx).1
  have hsl := fun {x : ℕ} (hx : x∈t.nodes) => (hold x hx).2.1
  have hpar := fun {x : ℕ} (hx : x∈t.nodes) => (hold x hx).2.2.1
  have hfold := fun {x : ℕ} (hx : x∈t.nodes) => (hold x hx).2.2.2
  refine ⟨h.root,(hfold t.root_mem).mpr h.root_folder,?_,?_,?_,?_,?_,?_,?_,?_⟩
  · rintro x (rfl | hx)
    · rwa [hchf]
    · rw [hch hx]
      exact h.chain x hx
  · rintro x (rfl | hx)
    · rwa [hchf]
    · rw [hch hx]
      exact h.nonempty x hx
  · rintro x (rfl | hx) y (rfl | hy) hxy c hc
    · exact (hxy rfl).elim
    · rw [hchf] at hc
      rw [hch hy]
      exact hapart y hy c hc
    · rw [hch hx] at hc
      rw [hchf]
      exact fun hcl => hapart x hx c hcl hc
    · rw [hch hx] at hc
      rw [hch hy]
      exact h.apart x hx y hy hxy c hc
  · rintro x (rfl | hx)
    · rw [hparf]
      exact (hfold hp.1).mpr hp.2
    · rw [hpar hx]
      exact (hfold (t.parent_mem x hx)).mpr (h.parent_folder x hx)
  · rintro x (rfl | hx) hxr
    · rw [hparf,hslf,hch hp.1]
      exact ha
    · rw [hpar hx,hsl hx,hch (t.parent_mem x hx)]
      exact h.slot_mem x hx hxr
  · rintro x (rfl | hx) hxr
    · rw [hslf]
      exact ⟨hlive,htarget,hdir.trans hfoldf.symm⟩
    · rw [hsl hx,hfold hx]
      exact h.entry x hx hxr
  · rintro x ⟨rfl | hx,hxf⟩ b hb _ hb'
    · rw [hchf] at hb
      obtain ⟨h1,h2,h3⟩ := (hinside (hfoldf.mp hxf)).2 b hb hb'
      refine Or.inr (Or.inr ⟨h1,?_,h3⟩)
      rcases h2 with h2 | h2 <;> rw [h2]
      · exact Rooted.above_refl _ _
      · have := (t.add x p a l dir hf hp.1).above_parent x
        rwa [hparf] at this
    · rw [hch hx] at hb
      by_cases hba : b=a
      · subst hba
        refine Or.inr (Or.inl ?_)
        rw [htarget]
        exact ⟨Or.inl rfl,fun he => (hne t.root_mem he.symm),hslf⟩
      · rcases h.placed x ⟨hx,(hfold hx).mp hxf⟩ b hb hba hb' with hz | ⟨h1,h2,h3⟩ | ⟨h1,h2,h3⟩
        · exact Or.inl hz
        · exact Or.inr (Or.inl ⟨Or.inr h1,h2,by rw [hsl h1]; exact h3⟩)
        · exact Or.inr (Or.inr ⟨h1,h2.add hf hp.1 hx,h3⟩)
  · rintro x ⟨rfl | hx,hxf⟩
    · rw [hchf]
      exact (hinside (hfoldf.mp hxf)).1
    · rw [hch hx]
      exact h.dense x ⟨hx,(hfold hx).mp hxf⟩

/-- The tree with another chain of a file. -/
def Tree.setChain (t : Tree) (f : ℕ) (l : List ℕ) : Tree :=
  { t with chain := Function.update t.chain f l }

/-- A file with another chain. -/
theorem Draws.setChain (h : Draws v m t ∅) (hfile : f∉t.folder)
    (hlinks : ∀ g∈t.nodes, g≠f → ∀ c∈t.chain g, link v m' c=link v m c)
    (hslots : ∀ p, t.Folder p → ∀ b∈slots v (t.chain p), ∀ i, i<32 → m' (b+i)=m (b+i))
    (hchain : FileChain v m' f l) (hl : l≠[])
    (hapart : ∀ g∈t.nodes, g≠f → ∀ c∈l, c∉t.chain g) : Draws v m' (t.setChain f l) ∅ := by
  have hch : ∀ {x : ℕ}, x≠f → (t.setChain f l).chain x=t.chain x := by
    intro x hx
    exact Function.update_of_ne hx l t.chain
  have hchf : (t.setChain f l).chain f=l := by
    exact Function.update_self f l t.chain
  have hfold : ∀ {x : ℕ}, x∈t.folder → x≠f := by
    rintro x hx rfl
    exact hfile hx
  refine ⟨h.root,h.root_folder,?_,?_,?_,h.parent_folder,?_,?_,?_,?_⟩
  · intro x hx
    by_cases hxf : x=f
    · rw [hxf,hchf]
      exact hchain
    · rw [hch hxf]
      exact (h.chain x hx).congr (hlinks x hx hxf)
  · intro x hx
    by_cases hxf : x=f
    · rwa [hxf,hchf]
    · rw [hch hxf]
      exact h.nonempty x hx
  · intro x hx y hy hxy c hc
    by_cases hxf : x=f
    · subst hxf
      rw [hchf] at hc
      rw [hch (Ne.symm hxy)]
      exact hapart y hy (Ne.symm hxy) c hc
    · rw [hch hxf] at hc
      by_cases hyf : y=f
      · subst hyf
        rw [hchf]
        exact fun hcl => hapart x hx hxf c hcl hc
      · rw [hch hyf]
        exact h.apart x hx y hy hxy c hc
  · intro x hx hxr
    have hpar : (t.setChain f l).chain (t.parent x)=t.chain (t.parent x) :=
      hch (hfold (h.parent_folder x hx))
    exact hpar ▸ h.slot_mem x hx hxr
  · intro x hx hxr
    obtain ⟨h1,h2,h3,_⟩ := slot_congr (hslots _ ⟨t.parent_mem x hx,h.parent_folder x hx⟩ _
      (h.slot_mem x hx hxr))
    exact ⟨h1.trans (h.entry x hx hxr).1,h2.trans (h.entry x hx hxr).2.1,
      h3 ▸ (h.entry x hx hxr).2.2⟩
  · intro x hx a ha _ hlive
    rw [hch (hfold hx.2)] at ha
    obtain ⟨h1,h2,h3,h4⟩ := slot_congr (hslots x hx a ha)
    rw [h1] at hlive
    rw [Placed,h2,h3,h4]
    exact h.placed x hx a ha (Set.notMem_empty a) hlive
  · intro x hx
    rw [hch (hfold hx.2)]
    refine (h.dense x hx).congr fun a ha => ?_
    rw [show m' a=m a from hslots x hx a ha 0 (by norm_num)]

end OvsbMk.FatTree
