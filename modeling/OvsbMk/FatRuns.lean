import OvsbMk.FatSteps

/-!
# Runs of the driver

What can be said of a disk without the tree it draws: which directories and
entries are reached from the root and which clusters belong to a chain. In runs
of careful calls from a formatted volume every reached entry keeps its clusters
to itself.
-/

namespace OvsbMk.FatRuns

open ByteMemory BlockDisk Fat32 Chains FatTable FatData FatDirectory FatEntries RootedTree FatTree
  FatFiles FatChanges FatFaults FatWalks FatOperations FatSteps

variable {v : Volume} {m m' : Bytes} {s s' : State} {call : Call} {t t' : Tree} {a b c f p : ℕ}
  {l : List ℕ}

/-- The cluster is met on the walk from a first cluster. -/
def OnChain (v : Volume) (m : Bytes) (first c : ℕ) : Prop :=
  Relation.ReflTransGen (fun x y => ¬Ends x ∧ link v m x=y) first c ∧ ¬Ends c

/-- The slot is one of the directory that starts with the cluster. -/
def InDirectory (v : Volume) (m : Bytes) (p a : ℕ) : Prop := ∃ c, OnChain v m p c ∧ a∈slots v [c]

/-- The directory is reached from the root through live entries. -/
inductive DirReached (v : Volume) (m : Bytes) : ℕ → Prop where
  /-- The root. -/
  | root : DirReached v m v.rootCluster
  /-- A directory in a reached one. An entry without a cluster leads to the root. -/
  | enter (p a : ℕ) (hp : DirReached v m p) (ha : InDirectory v m p a) (hlive : slotLive m a=true)
    (hdir : folderAt m a=true) :
    DirReached v m (if target m a=0 then v.rootCluster else target m a)

/-- The live entry is in a reached directory. -/
def EntryReached (v : Volume) (m : Bytes) (a : ℕ) : Prop :=
  ∃ p, DirReached v m p ∧ InDirectory v m p a ∧ slotLive m a=true

/-- The clusters of a chain are those met on the walk. -/
theorem onChain_iff (hv : Mounted v) (h : FileChain v m f l) : OnChain v m f c ↔ c∈l := by
  induction l generalizing f with
  | nil =>
    have hend := fileChain_nil.mp h
    constructor
    · rintro ⟨hwalk,hc⟩
      rcases Relation.ReflTransGen.cases_head hwalk with rfl | ⟨x,⟨hx,_⟩,_⟩
      · exact (hc (by simp only [Ends]; omega)).elim
      · exact (hx (by simp only [Ends]; omega)).elim
    · intro hmem
      cases hmem
  | cons x rest ih =>
    obtain ⟨rfl,hx,hrest⟩ := (fileChain_cons hv).mp h
    constructor
    · rintro ⟨hwalk,hc⟩
      rcases Relation.ReflTransGen.cases_head hwalk with rfl | ⟨y,⟨_,rfl⟩,hwalk'⟩
      · exact List.mem_cons_self
      · exact List.mem_cons_of_mem _ ((ih hrest).mp ⟨hwalk',hc⟩)
    · intro hmem
      rcases List.mem_cons.mp hmem with rfl | hmem
      · exact ⟨Relation.ReflTransGen.refl,not_ends hv hx⟩
      · obtain ⟨hwalk,hc⟩ := (ih hrest).mpr hmem
        exact ⟨Relation.ReflTransGen.head ⟨not_ends hv hx,rfl⟩ hwalk,hc⟩

/-- The slots of a directory are those of its chain. -/
theorem inDirectory_iff (hv : Mounted v) (h : FileChain v m p l) :
    InDirectory v m p a ↔ a∈slots v l := by
  constructor
  · rintro ⟨c,hc,ha⟩
    rw [slots_cons,slots,List.flatMap_nil,List.append_nil] at ha
    exact List.mem_flatMap.mpr ⟨c,(onChain_iff hv h).mp hc,ha⟩
  · intro ha
    obtain ⟨c,hc,hin⟩ := List.mem_flatMap.mp ha
    refine ⟨c,(onChain_iff hv h).mpr hc,?_⟩
    rw [slots_cons,slots,List.flatMap_nil,List.append_nil]
    exact hin

/-- Reached directories belong to the tree. -/
theorem Draws.reached (hv : Mounted v) (h : Draws v m t ∅) (hp : DirReached v m p) :
    t.Folder p := by
  induction hp with
  | root => exact h.root ▸ ⟨t.root_mem,h.root_folder⟩
  | enter p a _ ha hlive hdir ih =>
    exact Draws.enter h ih ((inDirectory_iff hv (h.chain p ih.1)).mp ha) hlive hdir

/-- Reached entries are in directories of the tree. -/
theorem Draws.entryReached (hv : Mounted v) (h : Draws v m t ∅) (ha : EntryReached v m a) :
    ∃ p, t.Folder p ∧ a∈slots v (t.chain p) ∧ slotLive m a=true := by
  obtain ⟨p,hp,hin,hlive⟩ := ha
  have hfold := Draws.reached hv h hp
  exact ⟨p,hfold,(inDirectory_iff hv (h.chain p hfold.1)).mp hin,hlive⟩

/-- Directories of the tree are reached. -/
theorem Draws.folder_reached (hv : Mounted v) (h : Draws v m t ∅) (hp : t.Folder p) :
    DirReached v m p := by
  have hall : p∈t.folder → DirReached v m p := by
    refine Rooted.induction (F:=t.toRooted) (P:=fun x => x∈t.folder → DirReached v m x) ?_ ?_ hp.1
    · rintro -
      rw [h.root]
      exact DirReached.root
    · intro x hx hne hpar hfold
      obtain ⟨hlive,htarget,hdir⟩ := h.entry x hx hne
      have hin := (inDirectory_iff hv (h.chain _ (t.parent_mem x hx))).mpr (h.slot_mem x hx hne)
      have hnext := DirReached.enter _ _ (hpar (h.parent_folder x hx)) hin hlive (hdir.mpr hfold)
      rwa [htarget,if_neg (h.ne_zero hv hx)] at hnext
  exact hall hp.2

/-- Reached live entries lead to clusters in use, and entries other than the dot
entries share no cluster. -/
structure Owned (v : Volume) (m : Bytes) : Prop where
  /-- Entries lead to clusters in use. -/
  used : ∀ a, EntryReached v m a → target m a≠0 → link v m (target m a)≠0
  /-- Chains of two entries are disjoint. -/
  apart : ∀ a b, EntryReached v m a → EntryReached v m b → a≠b → nameAt m a∉dotNames →
    nameAt m b∉dotNames → ∀ c, OnChain v m (target m a) c → ¬OnChain v m (target m b) c

/-- Nothing is met from cluster zero. -/
theorem not_onChain_zero : ¬OnChain v m 0 c := by
  rintro ⟨hwalk,hc⟩
  rcases Relation.ReflTransGen.cases_head hwalk with rfl | ⟨x,⟨hx,_⟩,_⟩
  · exact hc (by simp [Ends])
  · exact hx (by simp [Ends])

/-- On a volume that draws a tree entries keep their clusters to themselves. -/
theorem Draws.owned (hv : Mounted v) (h : Draws v m t ∅) : Owned v m := by
  refine ⟨fun a ha hne => ?_,fun a b ha hb hab hda hdb c hca hcb => ?_⟩
  · obtain ⟨p,hp,hin,hlive⟩ := Draws.entryReached hv h ha
    have hmem : target m a∈t.nodes := by
      rcases h.placed p hp a hin (Set.notMem_empty a) hlive with hz | hown | hback
      · exact (hne hz).elim
      · exact hown.1
      · exact hback.2.1.mem hp.1
    exact h.link_ne_zero hv hmem (h.first_mem hv hmem)
  · obtain ⟨p,hp,hin,hlive⟩ := Draws.entryReached hv h ha
    obtain ⟨q,hq,hinb,hliveb⟩ := Draws.entryReached hv h hb
    rcases Draws.place h hp hin hlive (Or.inr hda) with hz | hown
    · rw [hz] at hca
      exact not_onChain_zero hca
    rcases Draws.place h hq hinb hliveb (Or.inr hdb) with hz | hown'
    · rw [hz] at hcb
      exact not_onChain_zero hcb
    have heq := h.chain_unique hown.1 hown'.1 ((onChain_iff hv (h.chain _ hown.1)).mp hca)
      ((onChain_iff hv (h.chain _ hown'.1)).mp hcb)
    have hslots := hown.2.2
    rw [heq,hown'.2.2] at hslots
    exact hab hslots.symm

/-- A volume as it is after formatting: the root directory is one cluster whose
slots were never used, and all other clusters are free. -/
structure Formatted (v : Volume) (m : Bytes) : Prop where
  /-- The root directory is a cluster of the volume. -/
  root : InRange v v.rootCluster
  /-- It is a chain of its own. -/
  root_end : endOfChain≤link v m v.rootCluster
  /-- All other clusters are free. -/
  free : ∀ c, InRange v c → c≠v.rootCluster → link v m c=0
  /-- No slot was used. -/
  unused : ∀ a∈slots v [v.rootCluster], m a=0

/-- The tree of a formatted volume. -/
def formattedTree (v : Volume) : Tree where
  root := v.rootCluster
  nodes := {v.rootCluster}
  parent := fun _ => v.rootCluster
  root_mem := rfl
  parent_root := rfl
  parent_mem := fun _ _ => rfl
  rooted := fun _ hx => ⟨0,hx⟩
  chain := fun _ => [v.rootCluster]
  slot := fun _ => 0
  folder := {v.rootCluster}

/-- A formatted volume draws its root directory. -/
theorem Formatted.draws (hv : Mounted v) (h : Formatted v m) : Draws v m (formattedTree v) ∅ where
  root := rfl
  root_folder := rfl
  chain := by
    rintro f rfl
    exact (fileChain_cons hv).mpr ⟨rfl,h.root,fileChain_nil.mpr h.root_end⟩
  nonempty := fun _ _ => List.cons_ne_nil _ _
  apart := by
    rintro f rfl g rfl hne
    exact (hne rfl).elim
  parent_folder := fun _ _ => rfl
  slot_mem := fun f hf hne => (hne hf).elim
  entry := fun f hf hne => (hne hf).elim
  placed := fun p _ a ha _ hlive => ((live_iff.mp hlive).1 (h.unused a ha)).elim
  dense := fun p _ => ⟨[],_,rfl,fun a ha => (by cases ha),h.unused⟩

/-- A call that passes a test returns. -/
def Step (v : Volume) (ok : State → Call → Prop) (s s' : State) : Prop :=
  ∃ call r, ok s call ∧ call.perform v s=some (r,s')

/-- The disk is ideal and draws a tree with the current directory in it. -/
def Consistent (v : Volume) (s : State) : Prop :=
  Faultless s.disk ∧ ∃ t, Draws v s.disk.bytes t ∅ ∧ t.Folder s.cwd

/-- A careful call keeps the state consistent. -/
theorem step_consistent (hv : Mounted v) (h : Consistent v s) (hstep : Step v (Careful v) s s') :
    Consistent v s' := by
  obtain ⟨call,r,hc,hrun⟩ := hstep
  obtain ⟨hd,t,hdraws,hcwd⟩ := h
  obtain ⟨r1,s1,t1,hrun1,hl,_,h1,h2⟩ := step_effect hv (spared_of_faultless hd call) hc hdraws hcwd
  rw [hrun1,Option.some.injEq,Prod.mk.injEq] at hrun
  obtain ⟨_,rfl⟩ := hrun
  exact ⟨hd.later hl,t1,h1,h2⟩

/-- The volume has been formatted and nothing has failed. -/
structure Fresh (v : Volume) (s : State) : Prop where
  /-- No transfer fails. -/
  faultless : Faultless s.disk
  /-- The volume is formatted. -/
  formatted : Formatted v s.disk.bytes
  /-- The current directory is the root. -/
  cwd : s.cwd=v.rootCluster

/-- A fresh state is consistent. -/
theorem Fresh.consistent (hv : Mounted v) (h : Fresh v s) : Consistent v s :=
  ⟨h.faultless,_,h.formatted.draws hv,h.cwd ▸ ⟨rfl,rfl⟩⟩

/-- In a run of careful calls from a formatted volume entries keep their clusters
to themselves. -/
theorem careful_run_owned (hv : Mounted v) (hs : Fresh v s)
    (hrun : Relation.ReflTransGen (Step v (Careful v)) s s') : Owned v s'.disk.bytes := by
  have hall : Consistent v s' := by
    induction hrun with
    | refl => exact hs.consistent hv
    | tail _ hstep ih => exact step_consistent hv ih hstep
  obtain ⟨_,t,hdraws,_⟩ := hall
  exact Draws.owned hv hdraws

/-- Perform calls one after the other. -/
def performAll (v : Volume) : List Call → State → Option State
  | [], s => some s
  | call::rest, s =>
    match call.perform v s with
    | none => none
    | some r => performAll v rest r.2

/-- Calls performed one after the other are a run. -/
theorem performAll_run {calls : List Call} (h : performAll v calls s=some s') :
    Relation.ReflTransGen (Step v fun _ _ => True) s s' := by
  induction calls generalizing s with
  | nil =>
    rw [performAll,Option.some.injEq] at h
    rw [h]
  | cons call rest ih =>
    rw [performAll] at h
    cases hcall : call.perform v s with
    | none =>
      rw [hcall] at h
      cases h
    | some r =>
      rw [hcall] at h
      exact Relation.ReflTransGen.head ⟨call,r.1,trivial,hcall⟩ (ih h)

/-- The sample volume after formatting. -/
def freshState : State := ⟨⟨storeBytes (fun _ => 0) 520 4 endMark,fun _ _ _ => false⟩,2⟩

/-- The clusters of the sample volume. -/
theorem sampleVolume_range (h : InRange sampleVolume c) : 2≤c ∧ c<10 := by
  have hlt : c<totalClusters sampleVolume+2 := h.2
  have htotal : totalClusters sampleVolume=8 := by decide +kernel
  have hle := h.1
  omega

/-- It is fresh. -/
theorem freshState_fresh : Fresh sampleVolume freshState where
  faultless := rfl
  formatted := by
    refine ⟨⟨by decide,by decide +kernel⟩,by decide +kernel,fun c hc hne => ?_,by decide +kernel⟩
    obtain ⟨h1,h2⟩ := sampleVolume_range hc
    replace hne : c≠2 := hne
    interval_cases c <;> first | exact (hne rfl).elim | decide +kernel
  cwd := rfl

/-- The one letter of the name `A` is not the end of a string. -/
theorem letterA_text : (0 : UInt8)∉[0x41] := by decide

/-- The name `A`. -/
def nameA : Text := ⟨[0x41],letterA_text⟩

/-- The name of a directory in itself. -/
def nameDot : Text := ⟨[0x2E],by decide⟩

/-- Clusters of the sample volume have one sector. -/
theorem sampleVolume_blank : Blank sampleVolume m c := by
  intro i h1 h2
  simp only [clusterBytes,sampleVolume,sectorSize] at h2
  omega

/-- After making a directory the clusters are kept apart. -/
theorem freshState_mkdir_owned : ∃ s', Relation.ReflTransGen (Step sampleVolume (Careful sampleVolume))
    freshState s' ∧ Owned sampleVolume s'.disk.bytes := by
  have hresult : ((Call.mkdir nameA).perform sampleVolume freshState).isSome=true := by
    decide +kernel
  obtain ⟨⟨r,s'⟩,hs'⟩ := Option.isSome_iff_exists.mp hresult
  have hrun : Relation.ReflTransGen (Step sampleVolume (Careful sampleVolume)) freshState s' :=
    Relation.ReflTransGen.single ⟨.mkdir nameA,r,fun c _ _ => sampleVolume_blank,hs'⟩
  exact ⟨s',hrun,careful_run_owned sampleVolume_mounted freshState_fresh hrun⟩

/-- Removing the directory one is in frees its cluster and leaves its entry. -/
theorem removed_dot_not_owned : ∃ s', Relation.ReflTransGen (Step sampleVolume fun _ _ => True)
    freshState s' ∧ ¬Owned sampleVolume s'.disk.bytes := by
  have hresult : ((performAll sampleVolume [.mkdir nameA,.changeDir nameA,.rmdir nameDot]
      freshState).map fun s => (slotLive s.disk.bytes 1024,target s.disk.bytes 1024,
        link sampleVolume s.disk.bytes 3))=some (true,3,0) := by decide +kernel
  obtain ⟨s',hrun,hfacts⟩ := Option.map_eq_some_iff.mp hresult
  simp only [Prod.mk.injEq] at hfacts
  obtain ⟨hlive,htarget,hlink⟩ := hfacts
  refine ⟨s',performAll_run hrun,fun howned => ?_⟩
  have hroot : OnChain sampleVolume s'.disk.bytes 2 2 :=
    ⟨Relation.ReflTransGen.refl,fun h => h ⟨by decide,by decide⟩⟩
  have hslot : 1024∈slots sampleVolume [2] := by decide +kernel
  refine howned.used 1024 ⟨2,DirReached.root,⟨2,hroot,hslot⟩,hlive⟩ ?_ ?_
  · rw [htarget]
    decide
  · rw [htarget]
    exact hlink

end OvsbMk.FatRuns
