import OvsbMk.FatLeaks

/-!
# Names in a directory

Three calls bring names into a directory and one of them looks whether the name
is taken. The names of each reached directory stay distinct as long as files
are created and entries renamed under names that are not in use.
-/

namespace OvsbMk.FatNames

open ByteMemory BlockDisk Fat32 Chains FatTable FatData FatDirectory FatEntries RootedTree FatTree
  FatFiles FatChanges FatFaults FatWalks FatOperations FatSteps FatRuns FatLeaks

variable {v : Volume} {m m' : Bytes} {s s' : State} {call : Call} {t t' : Tree} {a b c f p cwd : ℕ}
  {l : List ℕ}

/-- No two live slots have the same name. -/
def Distinct (m : Bytes) (l : List ℕ) : Prop :=
  ∀ a∈l, ∀ b∈l, slotLive m a=true → slotLive m b=true → nameAt m a=nameAt m b → a=b

/-- No reached directory holds two live entries with the same name. -/
def NamesDistinct (v : Volume) (m : Bytes) : Prop :=
  ∀ p, DirReached v m p → ∀ a b, InDirectory v m p a → InDirectory v m p b → slotLive m a=true →
    slotLive m b=true → nameAt m a=nameAt m b → a=b

/-- No directory of the tree holds two live entries with the same name. -/
def Unique (v : Volume) (m : Bytes) (t : Tree) : Prop :=
  ∀ p, t.Folder p → Distinct m (slots v (t.chain p))

/-- The directories of the tree are the reached ones. -/
theorem unique_iff (hv : Mounted v) (h : Draws v m t ∅) : Unique v m t ↔ NamesDistinct v m := by
  constructor
  · intro hu p hp a b ha hb
    have hfold := Draws.reached hv h hp
    have hin := fun x => @inDirectory_iff v m x p (t.chain p) hv (h.chain p hfold.1)
    exact hu p hfold a ((hin a).mp ha) b ((hin b).mp hb)
  · intro hn p hp a ha b hb
    have hin := fun x => @inDirectory_iff v m x p (t.chain p) hv (h.chain p hp.1)
    exact hn p (Draws.folder_reached hv h hp) a b ((hin a).mpr ha) ((hin b).mpr hb)

/-- Names that stay or go stay distinct. -/
theorem Distinct.mono (h : Distinct m l) (hkeep : ∀ a∈l, slotLive m' a=true →
    slotLive m a=true ∧ nameAt m' a=nameAt m a) : Distinct m' l := by
  intro a ha b hb hla hlb hname
  obtain ⟨h1,h2⟩ := hkeep a ha hla
  obtain ⟨h3,h4⟩ := hkeep b hb hlb
  exact h a ha b hb h1 h3 (h2.symm.trans (hname.trans h4))

/-- A changed slot whose new name no other slot has. -/
theorem Distinct.edit (h : Distinct m l) (hother : ∀ b∈l, b≠a → slotLive m' b=slotLive m b ∧
    nameAt m' b=nameAt m b) (hnew : slotLive m' a=true → ∀ b∈l, b≠a → slotLive m b=true →
      nameAt m b≠nameAt m' a) : Distinct m' l := by
  intro x hx y hy hlx hly hname
  by_cases hxa : x=a
  · by_cases hya : y=a
    · rw [hxa,hya]
    · obtain ⟨h1,h2⟩ := hother y hy hya
      rw [hxa] at hlx hname
      exact (hnew hlx y hy hya (h1.symm.trans hly) (h2.symm.trans hname.symm)).elim
  · obtain ⟨h1,h2⟩ := hother x hx hxa
    by_cases hya : y=a
    · rw [hya] at hly hname
      exact (hnew hly x hx hxa (h1.symm.trans hlx) (h2.symm.trans hname)).elim
    · obtain ⟨h3,h4⟩ := hother y hy hya
      exact h x hx y hy (h1.symm.trans hlx) (h3.symm.trans hly) (h2.symm.trans (hname.trans h4))

/-- A changed slot of a directory. -/
theorem Unique.edit (hu : Unique v m t) (h : Draws v m t ∅) (hcwd : t.Folder cwd)
    (ha : a∈slots v (t.chain cwd)) {edit : Bytes → ℕ → Bytes} (he : Editor edit)
    (hnew : slotLive (edit m a) a=true → ∀ b∈slots v (t.chain cwd), b≠a → slotLive m b=true →
      nameAt m b≠nameAt (edit m a) a) : Unique v (edit m a) t := by
  intro p hp
  have hkeep : ∀ b∈slots v (t.chain p), b≠a → slotLive (edit m a) b=slotLive m b ∧
      nameAt (edit m a) b=nameAt m b := by
    intro b hb hne
    obtain ⟨h1,_,_,h4⟩ := edit_keeps (m:=m) he ha hb hne
    exact ⟨h1,h4⟩
  by_cases hpc : p=cwd
  · rw [hpc] at hkeep ⊢
    exact (hu cwd hcwd).edit hkeep hnew
  · refine (hu p hp).mono fun b hb hlive => ?_
    have hne : b≠a := by
      rintro rfl
      exact hpc (h.slot_unique hp.1 hcwd.1 hb ha)
    obtain ⟨h1,h2⟩ := hkeep b hb hne
    exact ⟨h1.symm.trans hlive,h2⟩

/-- A slot that keeps its name or is no longer live. -/
theorem Unique.keep (hu : Unique v m t) (h : Draws v m t ∅) (hcwd : t.Folder cwd)
    (ha : a∈slots v (t.chain cwd)) {edit : Bytes → ℕ → Bytes} (he : Editor edit)
    (hold : slotLive (edit m a) a=true → slotLive m a=true ∧ nameAt (edit m a) a=nameAt m a) :
    Unique v (edit m a) t := by
  refine hu.edit h hcwd ha he fun hlive b hb hne hlb hname => ?_
  obtain ⟨h1,h2⟩ := hold hlive
  exact hne (hu cwd hcwd b hb a ha hlb h1 (hname.trans h2))

/-- Fewer objects. -/
theorem Unique.without (hu : Unique v m t) (a : ℕ) : Unique v m (t.without a) :=
  fun p hp => hu p ⟨hp.1.1,hp.2⟩

/-- Entries that do not change. -/
theorem Unique.congr (hu : Unique v m t) (hkeep : ∀ p, t.Folder p → ∀ a∈slots v (t.chain p),
    ∀ i, i<32 → m' (a+i)=m (a+i)) : Unique v m' t := by
  intro p hp
  refine (hu p hp).mono fun a ha hlive => ?_
  obtain ⟨h1,_,_,h4⟩ := slot_congr (hkeep p hp a ha)
  exact ⟨h1.symm.trans hlive,h4⟩

/-- Directories do not change when a file grows. -/
theorem Unique.setChain (hu : Unique v m t) (hfile : f∉t.folder) : Unique v m (t.setChain f l) := by
  intro p hp
  rw [(setChain_folder hfile hp).2]
  exact hu p hp

/-- A new file is no directory. -/
theorem Unique.addFile (hu : Unique v m t) (hf : f∉t.nodes) (hp : p∈t.nodes) :
    Unique v m (t.add f p a l False hf hp) := by
  rintro q ⟨hq,⟨hqf,hfold⟩ | ⟨_,hfalse⟩⟩
  · have hmem : q∈t.nodes := hq.resolve_left hqf
    rw [(Tree.add_old hf hp hmem).1]
    exact hu q ⟨hmem,hfold⟩
  · exact hfalse.elim

/-- The slots of a directory do not change when a file has grown. -/
theorem Unique.stored (hv : Mounted v) (hu : Unique v m t) (h : Draws v m t ∅) {m2 : Bytes}
    {added : List ℕ} {old : ℕ} (hl : ∀ p, t.Folder p → ∀ c∈l, c∉t.chain p)
    (hstored : Stored v m m2 l added old f) : Unique v m2 t :=
  hu.congr fun p hp _ ha _ hi => hstored.grown.slot_eq hv (h.chain p hp.1).inRange
    (fun _ hc => hstored.grown.not_mem hv h hp.1 (hl p hp) hc) ha hi

/-- The names of the dot entries differ. -/
theorem dotSlot_unique (h : DotSlot v m f p a) (h' : DotSlot v m f p b) (hname : nameAt m a=nameAt m b) :
    a=b := by
  have hne : padded [0x2E] 11≠padded [0x2E,0x2E] 11 := by decide
  obtain ⟨_,⟨h1,h2,_⟩ | ⟨h1,h2,_⟩⟩ := h
  · obtain ⟨_,⟨h3,h4,_⟩ | ⟨h3,h4,_⟩⟩ := h'
    · exact h1.trans h3.symm
    · exact (hne (h2.symm.trans (hname.trans h4))).elim
  · obtain ⟨_,⟨h3,h4,_⟩ | ⟨h3,h4,_⟩⟩ := h'
    · exact (hne (h4.symm.trans (hname.symm.trans h2))).elim
    · exact h1.trans h3.symm

/-- A new directory holds its dot entries. -/
theorem Unique.attach (hv : Mounted v) (hu : Unique v m t) (h : Draws v m t ∅) (hcwd : t.Folder cwd)
    (ha : a∈slots v (t.chain cwd)) (hfr : InRange v f) (hz : link v m f=0) (htail : FreshTail v m f)
    (hf : f∉(t.without a).nodes) (hp : cwd∈(t.without a).nodes) :
    Unique v (attached v m a f cwd) ((t.without a).add f cwd a [f] True hf hp) := by
  rintro q ⟨hq,⟨hqf,hfold⟩ | ⟨hqf,_⟩⟩
  · have hmem : q∈(t.without a).nodes := hq.resolve_left hqf
    rw [(Tree.add_old hf hp hmem).1]
    refine (hu q ⟨hmem.1,hfold⟩).mono fun b hb hlive => ?_
    have hr := (h.chain q hmem.1).inRange
    have hfq := h.not_mem_of_free hv hz hmem.1
    by_cases hba : b=a
    · subst hba
      obtain ⟨h1,_,_,h4⟩ := slot_congr fun i hi => attached_slot (m:=m) (p:=cwd) hv hr hb hfr hfq hi
      rw [h1,setFirstCluster_keeps.2.2] at hlive
      exact ⟨hlive,h4.trans setFirstCluster_keeps.1⟩
    · obtain ⟨h1,_,_,h4⟩ := slot_congr fun i hi =>
        attached_other (m:=m) (p:=cwd) hv ha hr hfr hfq hb hba hi
      exact ⟨h1.symm.trans hlive,h4⟩
  · subst hqf
    rw [(Tree.add_new hf hp).1]
    obtain ⟨_,hdots⟩ := attached_contents hv h hcwd ha hfr hz htail
    exact fun x hx y hy hlx hly hname => dotSlot_unique (hdots x hx hlx) (hdots y hy hly) hname

/-- The call brings no name into the directory that is in use there. -/
def Novel (v : Volume) (s : State) : Call → Prop
  | .createFile name => ∀ nodes, FileChain v s.disk.bytes s.cwd nodes →
      (slots v nodes).find? (slotFree s.disk.bytes)≠none →
        ∀ b∈slots v nodes, slotLive s.disk.bytes b=true → nameAt s.disk.bytes b≠nameTo83 name
  | .rename oldname newname => ∀ nodes a, FileChain v s.disk.bytes s.cwd nodes →
      (slots v nodes).find? (slotNamed (nameTo83 oldname) s.disk.bytes)=some a →
        ∀ b∈slots v nodes, b≠a → slotLive s.disk.bytes b=true →
          nameAt s.disk.bytes b≠nameTo83 newname
  | _ => True

/-- A new directory entry under a missing name. -/
theorem Unique.enter (hu : Unique v m t) (h : Draws v m t ∅) (hcwd : t.Folder cwd) (name : Text)
    (hmiss : Missing v m (t.chain cwd) (nameTo83 name)) (ha : a∈slots v (t.chain cwd)) :
    Unique v (setEntry (nameTo83 name) 0x10 m a) t := by
  refine hu.edit h hcwd ha (editor_setEntry _ _) fun _ b hb _ hlb => ?_
  rw [(setEntry_spec (nameTo83_length _) (by norm_num)).1]
  exact missing_name h hcwd name hmiss hb hlb

/-- Freed clusters hold no entries. -/
theorem Unique.free (hv : Mounted v) (hu : Unique v (eraseEntry m a) t) (h : Draws v m t' ∅)
    (hsub : ∀ p, t.Folder p → t'.Folder p ∧ t.chain p=t'.chain p) (hl : ∀ c∈l, InRange v c) :
    Unique v (eraseEntry (freeLinks v m l) a) t := by
  refine hu.congr fun p hp b hb i hi => ?_
  obtain ⟨hp',hch⟩ := hsub p hp
  rw [hch] at hb
  rw [eraseEntry,eraseEntry,storeBytes,storeBytes]
  split
  · rfl
  · exact freeLinks_slot hv (h.chain p hp'.1).inRange hl hb hi

/-- An effect under a new name keeps the names distinct. -/
theorem effect_unique (hv : Mounted v) (hd : Faultless s.disk) (h : Draws v s.disk.bytes t ∅)
    (hcwd : t.Folder s.cwd) (hu : Unique v s.disk.bytes t) (hnovel : Novel v s call)
    (he : Effect v s.cwd s.disk t call m' t') : Unique v m' t' := by
  have hchain := h.chain _ hcwd.1
  have hapart : ∀ {a f : ℕ}, Owns t s.disk.bytes a → target s.disk.bytes a=f → f∉t.folder →
      ∀ p, t.Folder p → ∀ c∈t.chain f, c∉t.chain p := by
    rintro a _ hown rfl hfile p hp
    refine h.apart _ hown.1 p hp.1 ?_
    rintro rfl
    exact hfile hp.2
  cases he with
  | idle => exact hu
  | created name a hfind =>
    refine hu.edit h hcwd (List.mem_of_find?_eq_some hfind) (editor_setEntry _ _) fun _ b hb _ hlb => ?_
    rw [(setEntry_spec (nameTo83_length _) (by norm_num)).1]
    exact hnovel _ hchain (by rw [hfind]; exact Option.some_ne_none a) b hb hlb
  | deleted name a hres =>
    refine (hu.keep h hcwd hres.mem editor_eraseEntry fun hlive => ?_).without a
    exact ((live_iff.mp hlive).2.1 eraseEntry_first).elim
  | renamed oldname newname a hfind hdot hkept =>
    refine hu.edit h hcwd (List.mem_of_find?_eq_some hfind) (editor_setName _) fun _ b hb hne hlb => ?_
    rw [(setName_spec (nameTo83_length _)).1]
    exact hnovel _ a hchain hfind b hb hne hlb
  | renamedAway oldname newname a hfind haway =>
    refine (hu.keep h hcwd (List.mem_of_find?_eq_some hfind) (editor_setName _) fun hlive => ?_).without a
    exact ((live_iff.mp hlive).2.1
      ((first_of_name (nameAt_setName (nameTo83_length _))).trans haway)).elim
  | wasted name buffer size a f m2 added hres hz hstored hun =>
    exact hu.stored hv h (fun p _ c hc => by cases hc) hstored
  | grown name buffer size a f m2 added hres hf hown hfile hstored =>
    exact (hu.stored hv h (hapart hown hf hfile) hstored).setChain hfile
  | resized name buffer size a f m2 added hres hf hown hfile hstored result =>
    subst hf
    have hgrown := Draws.grow hv h hown.1 hfile hstored.grown hstored.chain
    obtain ⟨hfold,hch⟩ := @setChain_folder t _ s.cwd (t.chain (target s.disk.bytes a)++added) hfile hcwd
    have hu2 := (hu.stored hv h (hapart hown rfl hfile) hstored).setChain
      (l:=t.chain (target s.disk.bytes a)++added) hfile
    refine hu2.keep hgrown hfold (hch ▸ hres.mem) (editor_updated _ result) fun hlive => ?_
    rw [updated_keeps.2.1] at hlive
    exact ⟨hlive,updated_keeps.1⟩
  | adopted name buffer size a f m2 added hres hz hfile hstored hf hcwd' result =>
    have hu2 := hu.stored hv h (fun p _ c hc => by cases hc) hstored
    refine Unique.addFile ?_ hf hcwd'
    refine hu2.keep (Draws.waste hv h hstored.grown) hcwd hres.mem (editor_updated f result) fun hlive => ?_
    rw [updated_keeps.2.1] at hlive
    exact ⟨hlive,updated_keeps.1⟩
  | entered name a hfind hmiss =>
    exact hu.enter h hcwd name (hmiss.resolve_left hd.not_faulty) (List.mem_of_find?_eq_some hfind)
  | attached name a b f hfind hmiss hfind' hfr hfz hblank hf hcwd' =>
    have ha := List.mem_of_find?_eq_some hfind
    have hfill := Draws.fill hv h hcwd hfind (nameTo83_length _) (nameTo83_ne_zero name.2)
      (show 0x10<256 by norm_num)
    obtain ⟨hz1,htail1⟩ := setEntry_other hv h (nameTo83 name) 0x10 hcwd ha hfr hfz
    have hu1 := hu.enter h hcwd name (hmiss.resolve_left hd.not_faulty) ha
    exact hu1.attach hv hfill hcwd (List.mem_of_find?_eq_some hfind') hfr hz1 (htail1 hblank.freshTail) hf hcwd'
  | removed name a hfind hdir hdot hplace hempty =>
    have hu1 := (hu.keep h hcwd (List.mem_of_find?_eq_some hfind) editor_eraseEntry fun hlive =>
      ((live_iff.mp hlive).2.1 eraseEntry_first).elim).without a
    refine hu1.free hv h (fun p hp => ⟨⟨hp.1.1,hp.2⟩,rfl⟩) fun c hc => ?_
    rcases Draws.hasChain hv h hplace with ⟨_,hnil⟩ | ⟨_,_,hch⟩
    · rw [hnil] at hc
      cases hc
    · exact hch.inRange c hc

/-- A careful call under a new name keeps the names distinct. -/
theorem step_distinct (hv : Mounted v) (h : Consistent v s ∧ NamesDistinct v s.disk.bytes)
    (hstep : Step v (fun s call => Careful v s call ∧ Novel v s call) s s') :
    Consistent v s' ∧ NamesDistinct v s'.disk.bytes := by
  obtain ⟨call,r,⟨hc,hnovel⟩,hrun⟩ := hstep
  obtain ⟨⟨hd,t,hdraws,hcwd⟩,hn⟩ := h
  obtain ⟨r1,s1,t1,hrun1,hl,he,h1,h2⟩ := step_effect hv (spared_of_faultless hd call) hc hdraws hcwd
  rw [hrun1,Option.some.injEq,Prod.mk.injEq] at hrun
  obtain ⟨_,rfl⟩ := hrun
  refine ⟨⟨hd.later hl,t1,h1,h2⟩,(unique_iff hv h1).mp ?_⟩
  exact effect_unique hv hd hdraws hcwd ((unique_iff hv hdraws).mpr hn) hnovel he

/-- In a run of careful calls that bring in new names only, from a volume whose
directories hold no name twice, no directory ever holds a name twice. -/
theorem novel_run_distinct (hv : Mounted v) (hs : Consistent v s) (hn : NamesDistinct v s.disk.bytes)
    (hrun : Relation.ReflTransGen (Step v fun s call => Careful v s call ∧ Novel v s call) s s') :
    NamesDistinct v s'.disk.bytes := by
  have hall : Consistent v s' ∧ NamesDistinct v s'.disk.bytes := by
    induction hrun with
    | refl => exact ⟨hs,hn⟩
    | tail _ hstep ih => exact step_distinct hv ih hstep
  exact hall.2

/-- A formatted volume has no names. -/
theorem fresh_distinct (hv : Mounted v) (h : Fresh v s) : NamesDistinct v s.disk.bytes := by
  refine (unique_iff hv (h.formatted.draws hv)).mp fun p hp a ha b _ hlive => ?_
  exact ((live_iff.mp hlive).1 (h.formatted.unused a ha)).elim

/-- After making a directory the names are distinct. -/
theorem freshState_mkdir_distinct : ∃ s', Relation.ReflTransGen (Step sampleVolume fun s call =>
    Careful sampleVolume s call ∧ Novel sampleVolume s call) freshState s' ∧
      NamesDistinct sampleVolume s'.disk.bytes := by
  have hresult : ((Call.mkdir nameA).perform sampleVolume freshState).isSome=true := by
    decide +kernel
  obtain ⟨⟨r,s'⟩,hs'⟩ := Option.isSome_iff_exists.mp hresult
  have hrun : Relation.ReflTransGen (Step sampleVolume fun s call =>
      Careful sampleVolume s call ∧ Novel sampleVolume s call) freshState s' :=
    Relation.ReflTransGen.single ⟨.mkdir nameA,r,⟨fun c _ _ => sampleVolume_blank,trivial⟩,hs'⟩
  exact ⟨s',hrun,novel_run_distinct sampleVolume_mounted
    (freshState_fresh.consistent sampleVolume_mounted)
    (fresh_distinct sampleVolume_mounted freshState_fresh) hrun⟩

/-- A file created twice has two entries. -/
theorem created_twice_not_distinct : ∃ s', Relation.ReflTransGen (Step sampleVolume fun _ _ => True)
    freshState s' ∧ NamesDistinct sampleVolume freshState.disk.bytes ∧
      ¬NamesDistinct sampleVolume s'.disk.bytes := by
  have hresult : ((performAll sampleVolume [.createFile nameA,.createFile nameA]
      freshState).map fun s => (slotLive s.disk.bytes 1024,slotLive s.disk.bytes 1056,
        decide (nameAt s.disk.bytes 1024=nameAt s.disk.bytes 1056)))=some (true,true,true) := by
    decide +kernel
  obtain ⟨s',hrun,hfacts⟩ := Option.map_eq_some_iff.mp hresult
  simp only [Prod.mk.injEq,decide_eq_true_eq] at hfacts
  obtain ⟨h1,h2,h3⟩ := hfacts
  refine ⟨s',performAll_run hrun,fresh_distinct sampleVolume_mounted freshState_fresh,fun hn => ?_⟩
  have hroot : OnChain sampleVolume s'.disk.bytes 2 2 :=
    ⟨Relation.ReflTransGen.refl,fun h => h ⟨by decide,by decide⟩⟩
  have heq := hn 2 DirReached.root 1024 1056 ⟨2,hroot,by decide +kernel⟩ ⟨2,hroot,by decide +kernel⟩
    h1 h2 h3
  norm_num at heq

end OvsbMk.FatNames
