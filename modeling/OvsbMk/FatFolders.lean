import OvsbMk.FatOperations

/-!
# Making, entering and removing directories

A directory that was made without failures is in the first free slot of the current one,
where every later search finds it; it holds two entries, for itself and for its parent. The
removal finds the same slot, frees the one cluster and restores its link, so that all that is
left is a slot marked as deleted.
-/

namespace OvsbMk.FatFolders

open ByteMemory BlockDisk Fat32 Chains FatTable FatData FatDirectory FatEntries FatTree FatFiles
  FatChanges FatFaults FatWalks FatOperations

variable {v : Volume} {m m' : Bytes} {d d' : Disk} {a b c f cwd start : ℕ}
  {nodes dir : List ℕ} {name other name83 : List UInt8}

/-- A call that only used an ideal disk left it as it was. -/
theorem Idle.eq (hd : Faultless d) (h : Idle d d') : d'=d := by
  rw [h.1.eq_with hd,h.2,with_self]

/-- A name that the search does not find. -/
theorem findEntry_missing (hv : Mounted v) (hd : Faultless d)
    (hchain : FileChain v d.bytes start nodes) (h : Missing v d.bytes nodes (nameTo83 name)) :
    findEntry v start name d=some ((-1,none),d) := by
  rw [findEntry_eq hv hd hchain]
  cases hfind : (slots v nodes).find? (stopTest (nameTo83 name) d.bytes) with
  | none => rfl
  | some x =>
    dsimp only
    rw [findAnswer,if_pos (h x hfind)]

/-- Entering a directory that the search finds. -/
theorem enterDirectory_eq (hv : Mounted v) (hd : Faultless d)
    (hchain : FileChain v d.bytes start nodes) (hres : Resolves v d.bytes nodes (nameTo83 name) a)
    (hfolder : folderAt d.bytes a=true) (htarget : target d.bytes a≠0) :
    enterDirectory v start name d=some (0,target d.bytes a,d) := by
  obtain ⟨r,hr,hfind⟩ := Resolves.findEntry hv hd hchain hres
  have hdirectory : isDirectory (entryAt d.bytes a)=true := hfolder
  have hcluster : firstClusterOf (entryAt d.bytes a)≠0 := htarget
  rw [enterDirectory,hfind]
  dsimp only
  rw [if_neg (by omega),if_pos hdirectory,if_neg hcluster]
  rfl

/-- Before the first free slot no slot ends the directory or holds a name that is missing. -/
theorem missing_before (hmiss : Missing v m nodes name83)
    (hslot : (slots v nodes).find? (slotFree m)=some a) :
    ∃ before after, slots v nodes=before++a::after ∧
      ∀ x∈before, slotFree m x=false ∧ slotHit name83 m x=false := by
  obtain ⟨_,before,after,hsplit,hbefore⟩ := List.find?_eq_some_iff_append.mp hslot
  have hused : ∀ x∈before, slotFree m x=false := fun x hx => by simpa using hbefore x hx
  refine ⟨before,after,hsplit,fun x hx => ⟨hused x hx,?_⟩⟩
  by_contra hhit
  rw [Bool.not_eq_false] at hhit
  cases hfind : before.find? (stopTest name83 m) with
  | none =>
    have := List.find?_eq_none.mp hfind x hx
    simp [stopTest,hhit] at this
  | some y =>
    have hend := hmiss y (by rw [hsplit,List.find?_append,hfind]; rfl)
    have hy := hused y (List.mem_of_find?_eq_some hfind)
    have hend' : m y=0 := by simpa [slotEnd] using hend
    simp [slotFree,hend'] at hy

/-- The new entry is the first directory with its name, unless the name starts with the mark
of deleted entries; then there is none. -/
theorem folder_created (hlen : name83.length=11) (hmiss : Missing v m nodes name83)
    (hslot : (slots v nodes).find? (slotFree m)=some a)
    (hfolder : (slots v nodes).find? (slotFolder name83 (setEntry name83 0x10 m a))=some b) :
    b=a ∧ name83.headD 0≠0xE5 := by
  have hmem := List.mem_of_find?_eq_some hslot
  obtain ⟨hname,_,hattr⟩ := @setEntry_spec m a 0x10 name83 hlen (by norm_num)
  have hhead : name83.headD 0≠0xE5 := by
    intro hhead
    have hb := List.find?_some hfolder
    rw [slotFolder,Bool.and_eq_true,hit_iff] at hb
    exact hb.1.1 ((first_of_name hb.1.2.2).trans hhead)
  refine ⟨?_,hhead⟩
  obtain ⟨before,after,hsplit,hbefore⟩ := missing_before hmiss hslot
  have hfirst : (slots v nodes).find? (slotFolder name83 (setEntry name83 0x10 m a))=some a := by
    refine List.find?_eq_some_iff_append.mpr ⟨?_,before,after,hsplit,fun x hx => ?_⟩
    · rw [slotFolder,Bool.and_eq_true,hit_iff]
      refine ⟨⟨?_,?_,hname⟩,?_⟩
      · rw [first_of_name hname]
        exact hhead
      · rw [hattr]
        norm_num
      · rw [isDirectory,hattr]
        decide
    · have hne : x≠a := by
        rintro rfl
        have := List.find?_some hslot
        rw [(hbefore x hx).1] at this
        cases this
      have hx' : x∈slots v nodes := by
        rw [hsplit]
        exact List.mem_append_left _ hx
      have hapart := slots_apart hx' hmem hne
      have hsame := (@tests_congr m (setEntry name83 0x10 m a) x (fun i hi =>
        (editor_setEntry name83 0x10).outside m a (x+i) (by omega)) name83).2
      rw [slotFolder,hsame,(hbefore x hx).2]
      rfl
  rw [hfirst] at hfolder
  exact (Option.some.inj hfolder).symm

/-- A directory was made: what the disk held before, and what it holds now. -/
structure Made (v : Volume) (m m' : Bytes) (cwd : ℕ) (dir : List ℕ) (name83 : List UInt8)
    (a f : ℕ) : Prop where
  /-- Chain of the current directory. -/
  directory : FileChain v m cwd dir
  /-- The name was not there. -/
  missing : Missing v m dir name83
  /-- The first free slot. -/
  slot : (slots v dir).find? (slotFree m)=some a
  /-- The name has eleven bytes. -/
  length : name83.length=11
  /-- It does not start with the mark of deleted entries. -/
  head : name83.headD 0≠0xE5
  /-- The cluster was free. -/
  free : InRange v f ∧ link v m f=0
  /-- The entry and the cluster. -/
  result : m'=attached v (setEntry name83 0x10 m a) a f cwd

/-- A call of `fat32_mkdir` that succeeds makes a directory in the first free cluster. -/
theorem mkdir_made (hv : Mounted v) (hd : Faultless d) (hdir : FileChain v d.bytes cwd dir)
    (h : fat32Mkdir v cwd name d=some (0,d')) :
    ∃ a f, Made v d.bytes d'.bytes cwd dir (nameTo83 name) a f ∧ d'=d.with d'.bytes ∧
      (fatFindFree v d).1=f := by
  have hs := sparesTable_of_faultless hd (v := v)
  rw [fat32Mkdir] at h
  rcases hv.findFree hd with ⟨f,hf,hfr,hfz,_⟩ | ⟨hf,_⟩
  swap
  · rw [hf] at h
    simp at h
  have hpos := hfr.1
  rw [hf] at h
  dsimp only at h
  rw [if_neg (by omega)] at h
  obtain ⟨r1,d1,hfind,hidle,hfound⟩ := findEntry_outcome hv hs hdir name
  obtain rfl : d1=d := Idle.eq hd hidle
  rw [hfind] at h
  dsimp only at h
  rcases hfound with ⟨rfl,hmiss⟩ | ⟨_,_,_,hnonneg⟩
  swap
  · rw [if_pos hnonneg] at h
    simp at h
  have hmissing := hmiss.resolve_left hd.not_faulty
  rw [if_neg (by norm_num)] at h
  obtain ⟨r2,d2,hcreate,⟨_,hr⟩ | ⟨a,hslot,rfl,hl2,hb2⟩⟩ :=
    createEntryAt_outcome hv hs hdir name 0x10
  · rw [hcreate] at h
    dsimp only at h
    rw [if_pos hr] at h
    exact (hr (by simpa using congrArg (Option.map Prod.fst) h)).elim
  rw [hcreate] at h
  dsimp only at h
  rw [if_neg (by simp)] at h
  have hd2 := hd.later hl2
  have hdir2 : FileChain v d2.bytes cwd dir := by
    refine hdir.congr fun c hc => link_congr fun b hb => ?_
    rw [hb2]
    exact (editor_setEntry _ _).outside _ a b
      (slot_not_link hv hdir.inRange (List.mem_of_find?_eq_some hslot) (hdir.inRange c hc) hb)
  obtain ⟨w,d3,hw,hout⟩ := walk_directory hv (sparesTable_of_faultless hd2) hdir2
    (@mkdirVisit_visits _ _ _ hv (sparesTable_of_faultless hd2) cwd _ hfr
      (fun hf => hd2.not_faulty ⟨_,_,hf⟩) (nameTo83 name))
  rw [hw] at h
  rcases hout with ⟨rfl,_,_⟩ | ⟨r3,rfl,⟨_,hfail⟩ | ⟨b,hfolder,rfl,hl3,hb3⟩⟩
  · simp at h
  · exact (hd2.not_faulty hfail.2).elim
  · obtain rfl : d3=d' := by simpa using h
    rw [hb2] at hfolder hb3
    obtain ⟨rfl,hhead⟩ := folder_created (nameTo83_length name) hmissing hslot hfolder
    exact ⟨b,f,⟨hdir,hmissing,hslot,nameTo83_length name,hhead,⟨hfr,hfz⟩,hb3⟩,
      (hl2.trans hl3).eq_with hd,congrArg Prod.fst hf⟩

/-- The slot of the new entry is in the current directory. -/
theorem Made.mem (h : Made v m m' cwd dir name83 a f) : a∈slots v dir :=
  List.mem_of_find?_eq_some h.slot

/-- The new cluster is not one of the current directory. -/
theorem Made.notMem (hv : Mounted v) (h : Made v m m' cwd dir name83 a f) : f∉dir :=
  fun hmem => h.directory.link_ne_zero hv hmem h.free.2

/-- The links of the volume: the new cluster ends a chain. -/
theorem Made.link_eq (hv : Mounted v) (h : Made v m m' cwd dir name83 a f) (hc : InRange v c) :
    link v m' c=if c=f then endMark else link v m c := by
  rw [h.result,link_attached hv h.directory.inRange h.mem h.free.1 hc]
  refine if_congr Iff.rfl rfl (link_congr fun b hb => ?_)
  exact (editor_setEntry _ _).outside _ a b
    (slot_not_link hv h.directory.inRange h.mem hc hb)

/-- The current directory keeps its chain. -/
theorem Made.kept (hv : Mounted v) (h : Made v m m' cwd dir name83 a f) :
    FileChain v m' cwd dir := by
  refine h.directory.congr fun c hc => ?_
  rw [h.link_eq hv (h.directory.inRange c hc),if_neg]
  rintro rfl
  exact h.notMem hv hc

/-- The other slots of the current directory keep their bytes. -/
theorem Made.same (hv : Mounted v) (h : Made v m m' cwd dir name83 a f) (hb : b∈slots v dir)
    (hne : b≠a) {i : ℕ} (hi : i<32) : m' (b+i)=m (b+i) := by
  have hapart := slots_apart hb h.mem hne
  rw [h.result,attached_other hv h.mem h.directory.inRange h.free.1 (h.notMem hv) hb hne hi]
  exact (editor_setEntry name83 0x10).outside m a (b+i) (by omega)

/-- The new entry is a live directory with the name, and leads to the new cluster. -/
theorem Made.entry (hv : Mounted v) (h : Made v m m' cwd dir name83 a f) :
    nameAt m' a=name83 ∧ target m' a=f ∧ folderAt m' a=true ∧ (entryAt m' a).attr=0x10 := by
  obtain ⟨h1,_,h3⟩ := @setEntry_spec m a 0x10 name83 h.length (by norm_num)
  obtain ⟨h4,h5,_⟩ := @setFirstCluster_keeps (setEntry name83 0x10 m a) a f
  have hsame : ∀ i, i<32 → m' (a+i)=setFirstCluster (setEntry name83 0x10 m a) a f (a+i) := by
    intro i hi
    rw [h.result]
    exact attached_slot hv h.directory.inRange h.mem h.free.1 (h.notMem hv) hi
  have hentry := entryAt_congr hsame
  have hattr : (entryAt m' a).attr=0x10 := by rw [hentry,h5,h3]
  refine ⟨?_,?_,?_,hattr⟩
  · rw [nameAt,hentry]
    exact h4.trans h1
  · rw [target,hentry]
    exact target_setFirstCluster ((inRange_lt hv h.free.1).trans (by norm_num))
  · rw [folderAt,isDirectory,hattr]
    decide

/-- Later searches find the new entry. -/
theorem Made.resolves (hv : Mounted v) (h : Made v m m' cwd dir name83 a f)
    (hzero : name83.headD 0≠0) : Resolves v m' dir name83 a := by
  obtain ⟨hname,_,_,hattr⟩ := h.entry hv
  have hfirst := first_of_name hname
  have hlive : slotEnd m' a=false := by simpa [slotEnd,hfirst] using hzero
  refine ⟨?_,hlive⟩
  obtain ⟨before,after,hsplit,hbefore⟩ := missing_before h.missing h.slot
  refine List.find?_eq_some_iff_append.mpr ⟨?_,before,after,hsplit,fun x hx => ?_⟩
  · have hhit : slotHit name83 m' a=true :=
      hit_iff.mpr ⟨by rw [hfirst]; exact h.head,by rw [hattr]; norm_num,hname⟩
    rw [stopTest,hhit,Bool.or_true]
  · obtain ⟨hused,hmiss⟩ := hbefore x hx
    have hmem : x∈slots v dir := by
      rw [hsplit]
      exact List.mem_append_left _ hx
    have hne : x≠a := by
      rintro rfl
      have := List.find?_some h.slot
      rw [hused] at this
      cases this
    obtain ⟨hend,hhit⟩ := @tests_congr m m' x
      (fun i hi => h.same hv hmem hne (show i<32 by omega)) name83
    have hnot : slotEnd m x=false := by
      by_contra hend'
      rw [Bool.not_eq_false] at hend'
      have : m x=0 := by simpa [slotEnd] using hend'
      simp [slotFree,this] at hused
    rw [stopTest,hend,hhit,hnot,hmiss]
    rfl

/-- The first sector of the new cluster. -/
theorem Made.contents (h : Made v m m' cwd dir name83 a f) {i : ℕ} (hi : i<512) :
    m' (dataAddr v f+i)=newDirectory f cwd i := by
  rw [h.result]
  exact copyRange_inside hi

/-- The new cluster is the chain of the new directory. -/
theorem Made.chain (hv : Mounted v) (h : Made v m m' cwd dir name83 a f) :
    FileChain v m' f [f] := by
  refine (fileChain_cons hv).mpr ⟨rfl,h.free.1,fileChain_nil.mpr ?_⟩
  rw [h.link_eq hv h.free.1,if_pos rfl]
  norm_num

/-- The current directory is a cluster of the volume. -/
theorem Made.cwd_inRange (hv : Mounted v) (h : Made v m m' cwd dir name83 a f) : InRange v cwd := by
  have hmem := h.mem
  cases dir with
  | nil => cases hmem
  | cons c rest =>
    obtain ⟨rfl,hc,_⟩ := (fileChain_cons hv).mp h.directory
    exact hc

/-- The slots of a cluster start with three. -/
theorem slots_first (hv : Mounted v) : ∃ rest,
    slots v [f]=dataAddr v f::(dataAddr v f+32)::(dataAddr v f+64)::rest := by
  have hpos := hv.cluster_pos
  obtain ⟨k,hk⟩ : ∃ k, 16*v.sectorsPerCluster=3+k := ⟨16*v.sectorsPerCluster-3,by omega⟩
  have hthree : (List.range 3).map (fun j => dataAddr v f+32*j)=
      [dataAddr v f,dataAddr v f+32,dataAddr v f+64] := by
    simp [List.range_succ]
  refine ⟨((List.range k).map (3+·)).map fun j => dataAddr v f+32*j,?_⟩
  rw [slots_cons,slots,List.flatMap_nil,List.append_nil,rangeSlots,hk,List.range_add,List.map_append,
    hthree,List.cons_append,List.cons_append,List.cons_append,List.nil_append]

/-- The two entries of the new directory, and the end of the directory. -/
theorem Made.dots (hv : Mounted v) (h : Made v m m' cwd dir name83 a f) :
    (nameAt m' (dataAddr v f)=padded [0x2E] 11 ∧ target m' (dataAddr v f)=f ∧
      folderAt m' (dataAddr v f)=true) ∧
    (nameAt m' (dataAddr v f+32)=padded [0x2E,0x2E] 11 ∧ target m' (dataAddr v f+32)=cwd ∧
      folderAt m' (dataAddr v f+32)=true) ∧ m' (dataAddr v f+64)=0 := by
  have hcwd := (inRange_lt hv (h.cwd_inRange hv)).trans (show 2^28<2^32 by norm_num)
  have hf := (inRange_lt hv h.free.1).trans (show 2^28<2^32 by norm_num)
  have hdots := dots_copied hf hcwd fun i hi => h.contents hi
  refine ⟨hdots.1,hdots.2,?_⟩
  rw [h.contents (by norm_num),newDirectory_rest le_rfl]

/-- The search for a name stops at a directory with a proper name if and only if it has the
name. -/
theorem stop_folder {word : List UInt8} (hname : nameAt m a=word) (hfolder : folderAt m a=true)
    (hhead : word.headD 0≠0 ∧ word.headD 0≠0xE5) :
    stopTest name83 m a=decide (word=name83) ∧ slotEnd m a=false := by
  have hfirst := first_of_name hname
  have hend : slotEnd m a=false := by simpa [slotEnd,hfirst] using hhead.1
  refine ⟨?_,hend⟩
  rw [stopTest,hend,Bool.false_or,Bool.eq_iff_iff,hit_iff,hname,decide_eq_true_iff]
  have hattr : (entryAt m a).attr≠0x0F := by
    intro hattr
    rw [folderAt,isDirectory,hattr] at hfolder
    cases hfolder
  rw [hfirst]
  exact ⟨fun h => h.2.2,fun h => ⟨hhead.2,hattr,h⟩⟩

/-- In the new directory `.` and `..` are found in the first two slots. -/
theorem Made.dots_resolve (hv : Mounted v) (h : Made v m m' cwd dir name83 a f) :
    Resolves v m' [f] (nameTo83 [0x2E]) (dataAddr v f) ∧
      Resolves v m' [f] (nameTo83 [0x2E,0x2E]) (dataAddr v f+32) := by
  obtain ⟨⟨h1,_,h3⟩,⟨h4,_,h6⟩,_⟩ := h.dots hv
  obtain ⟨rest,hslots⟩ := slots_first (f := f) hv
  have hdot := fun word => @stop_folder _ _ word _ h1 h3 (by decide)
  have hdotdot := fun word => @stop_folder _ _ word _ h4 h6 (by decide)
  refine ⟨⟨?_,(hdot []).2⟩,?_,(hdotdot []).2⟩
  · rw [hslots,List.find?_cons,(hdot _).1]
    rfl
  · rw [hslots,List.find?_cons,(hdot _).1,List.find?_cons,(hdotdot _).1]
    rfl

/-- In the new directory no other name is found. -/
theorem Made.others_missing (hv : Mounted v) (h : Made v m m' cwd dir name83 a f)
    {word : List UInt8} (hword : word∉dotNames) : Missing v m' [f] word := by
  obtain ⟨⟨h1,_,h3⟩,⟨h4,_,h6⟩,hzero⟩ := h.dots hv
  obtain ⟨rest,hslots⟩ := slots_first (f := f) hv
  simp only [dotNames,List.mem_cons,List.not_mem_nil,or_false,not_or] at hword
  have hend : slotEnd m' (dataAddr v f+64)=true := by simp [slotEnd,hzero]
  intro x hx
  rw [hslots,List.find?_cons,(stop_folder h1 h3 (by decide)).1,decide_eq_false (Ne.symm hword.1),
    List.find?_cons,(stop_folder h4 h6 (by decide)).1,decide_eq_false (Ne.symm hword.2),
    List.find?_cons,stopTest,hend,Bool.true_or] at hx
  rw [← Option.some.inj hx]
  exact hend

/-- A directory that was made can be entered and left: the name then leads to a cluster
that was free, where only the two dot names are found, and the second leads back. -/
theorem mkdir_enter_leave (hv : Mounted v) (hd : Faultless d) (hdir : FileChain v d.bytes cwd dir)
    (hz : 0∉name) (hname : name≠[]) (hslash : name.head?≠some 0x2F)
    (h : fat32Mkdir v cwd name d=some (0,d')) :
    ∃ f, InRange v f ∧ link v d.bytes f=0 ∧ fat32ChangeDir v cwd name d'=some (0,f,d') ∧
      (∃ r e, findEntry v f [0x2E] d'=some ((r,some e),d') ∧ 0≤r ∧ firstClusterOf e=f) ∧
      (∃ r e, findEntry v f [0x2E,0x2E] d'=some ((r,some e),d') ∧ 0≤r ∧ firstClusterOf e=cwd) ∧
      (∀ other, 0∉other → other≠[0x2E] → other≠[0x2E,0x2E] →
        findEntry v f other d'=some ((-1,none),d')) ∧
      fat32ChangeDir v f [0x2E,0x2E] d'=some (0,cwd,d') := by
  obtain ⟨a,f,hmade,hd',_⟩ := mkdir_made hv hd hdir h
  have hfault : Faultless d' := by
    rw [hd']
    exact hd.with _
  obtain ⟨_,htarget,hfolder,_⟩ := hmade.entry hv
  obtain ⟨⟨_,hself,_⟩,⟨_,hparent,hparentFolder⟩,_⟩ := hmade.dots hv
  obtain ⟨hdot,hdotdot⟩ := hmade.dots_resolve hv
  have hchain := hmade.chain hv
  have hf := hmade.free.1.1
  have hcwd := (hmade.cwd_inRange hv).1
  have henter := enterDirectory_eq hv hfault (hmade.kept hv) (hmade.resolves hv (nameTo83_ne_zero hz))
    hfolder (by omega)
  have hleave := enterDirectory_eq hv hfault hchain hdotdot hparentFolder (by omega)
  rw [htarget] at henter
  rw [hparent] at hleave
  refine ⟨f,hmade.free.1,hmade.free.2,?_,?_,?_,fun other hother h1 h2 => ?_,?_⟩
  · cases name with
    | nil => exact (hname rfl).elim
    | cons c rest =>
      have hc : c≠0x2F := by
        rintro rfl
        exact hslash rfl
      rw [fat32ChangeDir,if_neg hc]
      exact henter
  · obtain ⟨r,hr,hfind⟩ := Resolves.findEntry hv hfault hchain hdot
    exact ⟨r,_,hfind,hr,hself⟩
  · obtain ⟨r,hr,hfind⟩ := Resolves.findEntry hv hfault hchain hdotdot
    exact ⟨r,_,hfind,hr,hparent⟩
  · exact findEntry_missing hv hfault hchain
      (hmade.others_missing hv (nameTo83_not_dot hother ⟨h1,h2⟩))
  · rw [fat32ChangeDir,if_neg (by decide)]
    exact hleave

/-- The directory `B` can be made on the sample disk. -/
theorem sampleDisk_mkdir : ∃ d', fat32Mkdir sampleVolume 2 [0x42] sampleDisk=some (0,d') := by
  have hresult : (fat32Mkdir sampleVolume 2 [0x42] sampleDisk).map Prod.fst=some 0 := by
    decide +kernel
  obtain ⟨⟨r,d'⟩,h,rfl⟩ := Option.map_eq_some_iff.mp hresult
  exact ⟨d',h⟩

/-- It can be entered and left. -/
theorem sampleDisk_enter_leave : ∃ d' f, fat32Mkdir sampleVolume 2 [0x42] sampleDisk=some (0,d') ∧
    fat32ChangeDir sampleVolume 2 [0x42] d'=some (0,f,d') ∧
      fat32ChangeDir sampleVolume f [0x2E,0x2E] d'=some (0,2,d') := by
  obtain ⟨d',h⟩ := sampleDisk_mkdir
  obtain ⟨f,_,_,henter,_,_,_,hleave⟩ := mkdir_enter_leave sampleVolume_mounted
    (show Faultless sampleDisk from rfl) sampleDisk_root (by decide) (by decide) (by decide) h
  exact ⟨d',f,h,henter,hleave⟩

/-- In a dense directory no slot before one in use ends the directory. -/
theorem dense_before {before after l : List ℕ} {x : ℕ} (h : Dense m l) (hsplit : l=before++a::after)
    (hlive : slotEnd m a=false) (hx : x∈before) : slotEnd m x=false := by
  obtain ⟨used,unused,heq,h1,h2⟩ := h
  rw [hsplit] at heq
  rcases List.append_eq_append_iff.mp heq with ⟨more,rfl,_⟩ | ⟨more,rfl,hmore⟩
  · simpa [slotEnd] using h1 x (List.mem_append_left more hx)
  · have hunused : a∈unused := by
      rw [hmore]
      exact List.mem_append_right more List.mem_cons_self
    have hzero := h2 a hunused
    rw [slotEnd,hzero] at hlive
    cases hlive

/-- In a dense directory a name is found in the first slot in use that has it. -/
theorem resolves_iff_named (h : Dense m (slots v nodes)) :
    Resolves v m nodes name83 a ↔ (slots v nodes).find? (slotNamed name83 m)=some a := by
  constructor
  · intro hres
    obtain ⟨_,before,after,hsplit,hbefore⟩ := List.find?_eq_some_iff_append.mp hres.first
    refine List.find?_eq_some_iff_append.mpr ⟨?_,before,after,hsplit,fun x hx => ?_⟩
    · rw [slotNamed,hres.live,hres.hit]
      rfl
    · have hstop := hbefore x hx
      rw [Bool.not_eq_true',stopTest,Bool.or_eq_false_iff] at hstop
      rw [slotNamed,hstop.2,Bool.and_false]
      rfl
  · intro hfind
    obtain ⟨hnamed,before,after,hsplit,hbefore⟩ := List.find?_eq_some_iff_append.mp hfind
    rw [slotNamed,Bool.and_eq_true,Bool.not_eq_true'] at hnamed
    refine ⟨List.find?_eq_some_iff_append.mpr ⟨?_,before,after,hsplit,fun x hx => ?_⟩,hnamed.1⟩
    · rw [stopTest,hnamed.2,Bool.or_true]
    · have hlive : slotEnd m x=false := dense_before h hsplit hnamed.1 hx
      have hx' := hbefore x hx
      rw [slotNamed,hlive,Bool.not_false,Bool.true_and] at hx'
      rw [stopTest,hlive,Bool.false_or]
      exact hx'

/-- Names that the same slots resolve to with the same entries have the same answers. -/
theorem findEntry_same (hv : Mounted v) (hd : Faultless d) (hd' : Faultless d')
    (hchain : FileChain v d.bytes start nodes) (hchain' : FileChain v d'.bytes start nodes)
    (hsame : ∀ b, Resolves v d'.bytes nodes (nameTo83 name) b ↔
      Resolves v d.bytes nodes (nameTo83 name) b)
    (hentry : ∀ b, Resolves v d.bytes nodes (nameTo83 name) b →
      entryAt d'.bytes b=entryAt d.bytes b) :
    (findEntry v start name d').map Prod.fst=(findEntry v start name d).map Prod.fst := by
  by_cases hres : ∃ b, Resolves v d.bytes nodes (nameTo83 name) b
  · obtain ⟨b,hb⟩ := hres
    have hb' := (hsame b).mpr hb
    rw [findEntry_eq hv hd' hchain',findEntry_eq hv hd hchain,hb.first,hb'.first]
    dsimp only
    rw [findAnswer,findAnswer,if_neg (by simp [hb'.live]),if_neg (by simp [hb.live]),hentry b hb]
    rfl
  · have hmissing : ∀ {x : Bytes}, (∀ b, ¬Resolves v x nodes (nameTo83 name) b) →
        Missing v x nodes (nameTo83 name) := by
      intro x hx b hb
      by_contra hend
      exact hx b ⟨hb,by simpa using hend⟩
    push Not at hres
    rw [findEntry_missing hv hd' hchain' (hmissing fun b hb => hres b ((hsame b).mp hb)),
      findEntry_missing hv hd hchain (hmissing hres)]
    rfl

/-- The disk after the new directory was removed again. -/
def removed (v : Volume) (m' : Bytes) (a f : ℕ) : Bytes := eraseEntry (freeLinks v m' [f]) a

/-- In a dense directory only the new entry has its name. -/
theorem Made.named_unique (hv : Mounted v) (h : Made v m m' cwd dir name83 a f)
    (hdense : Dense m (slots v dir)) (hzero : name83.headD 0≠0) (hb : b∈slots v dir)
    (hnamed : slotNamed name83 m' b=true) : b=a := by
  by_contra hne
  have hhit := (@tests_congr m m' b
    (fun i hi => h.same hv hb hne (show i<32 by omega)) name83).2
  rw [slotNamed,hhit,hdense.find_hit hzero h.missing hb,Bool.and_false] at hnamed
  cases hnamed

/-- The new directory looks empty. -/
theorem Made.showsEmpty (h : Made v m m' cwd dir name83 a f) : ShowsEmpty v m' f := by
  intro i hi
  have hzero : m' (dataAddr v f+32*(i+2))=0 := by
    rw [h.contents (by omega),newDirectory_rest (by omega)]
  rw [slotFree,hzero]
  rfl

/-- The removal of the new directory succeeds. -/
theorem Made.rmdir (hv : Mounted v) (hd : Faultless d) (h : Made v m d.bytes cwd dir (nameTo83 name) a f)
    (hdense : Dense m (slots v dir)) (hzero : (nameTo83 name).headD 0≠0) :
    fat32Rmdir v cwd name d=some (0,d.with (removed v d.bytes a f)) := by
  obtain ⟨_,htarget,hfolder,_⟩ := h.entry hv
  have hchain := h.kept hv
  have hfree : ∀ b∈slots v dir, slotNamed (nameTo83 name) d.bytes b=true →
      folderAt d.bytes b=true → target d.bytes b≠0 →
        FileChain v d.bytes (target d.bytes b) (if target d.bytes b=f then [f] else []) ∧
          (if target d.bytes b=f then [f] else [])≠[] := by
    intro b hb hnamed _ _
    obtain rfl := h.named_unique hv hdense hzero hb hnamed
    rw [htarget,if_pos rfl]
    exact ⟨h.chain hv,List.cons_ne_nil f []⟩
  have hf := h.free.1.1
  obtain ⟨w,d2,hw,hout⟩ := walk_directory hv (sparesTable_of_faultless hd) hchain
    (rmdirVisit_visits hv (sparesTable_of_faultless hd) (fun c => if c=f then [f] else [])
      hchain.inRange (if_neg (by omega)) hfree)
  have hnamed : slotNamed (nameTo83 name) d.bytes a=true := by
    have hres := h.resolves hv hzero
    rw [slotNamed,hres.live,hres.hit]
    rfl
  rw [fat32Rmdir,hw]
  rcases hout with ⟨rfl,hnone,_⟩ | ⟨r,rfl,⟨_,hfail⟩ | ⟨b,hfind,hremoval⟩⟩
  · exact (List.find?_eq_none.mp hnone a h.mem hnamed).elim
  · exact (hd.not_faulty hfail.2).elim
  · obtain rfl := h.named_unique hv hdense hzero (List.mem_of_find?_eq_some hfind)
      (List.find?_some hfind)
    rcases hremoval with ⟨_,_,hno⟩ | ⟨_,_,hno⟩ | ⟨_,hl,_,⟨_,_,hfail⟩ | ⟨rfl,hbytes⟩⟩
    · rw [hfolder] at hno
      cases hno
    · rw [htarget] at hno
      exact (hno h.showsEmpty).elim
    · exact (hd.not_faulty ⟨_,_,hfail⟩).elim
    · rw [htarget] at hbytes
      dsimp only at hbytes
      rw [if_pos rfl] at hbytes
      dsimp only
      rw [hl.eq_with hd,hbytes]
      rfl

/-- The slots of the current directory after the removal. -/
theorem Made.removed_slot (hv : Mounted v) (h : Made v m m' cwd dir name83 a f)
    (hb : b∈slots v dir) (hne : b≠a) {i : ℕ} (hi : i<32) :
    removed v m' a f (b+i)=m (b+i) := by
  have hapart := slots_apart hb h.mem hne
  rw [removed,editor_eraseEntry.outside _ a (b+i) (by omega),
    freeLinks_slot hv h.directory.inRange (fun c hc => by rw [List.mem_singleton.mp hc]; exact h.free.1)
      hb hi]
  exact h.same hv hb hne hi

/-- After the removal every name resolves to the slot it resolved to before the directory
was made. -/
theorem Made.removed_resolves (hv : Mounted v) (h : Made v m m' cwd dir name83 a f)
    (hdense : Dense m (slots v dir)) (word : List UInt8) :
    (Resolves v (removed v m' a f) dir word b ↔ Resolves v m dir word b) ∧
      (Resolves v m dir word b → entryAt (removed v m' a f) b=entryAt m b) := by
  have herased : removed v m' a f a=0xE5 := eraseEntry_first
  have hsame : ∀ x∈slots v dir, x≠a → removed v m' a f x=m x :=
    fun x hx hne => h.removed_slot hv hx hne (show 0<32 by norm_num)
  have hdense' : Dense (removed v m' a f) (slots v dir) :=
    hdense.fill (slots_nodup h.directory.inRange h.directory.nodup) h.slot
      (by rw [herased]; decide) hsame
  have hfree : slotNamed word m a=false := by
    have hlive := not_live_of_free (List.find?_some h.slot)
    by_contra hnamed
    rw [Bool.not_eq_false,named_iff,hlive] at hnamed
    cases hnamed.1
  have hnamed : ∀ x∈slots v dir, slotNamed word (removed v m' a f) x=slotNamed word m x := by
    intro x hx
    by_cases hne : x=a
    · subst hne
      rw [hfree]
      by_contra hnamed
      rw [Bool.not_eq_false,named_iff,live_iff,herased] at hnamed
      exact hnamed.1.2.1 rfl
    · obtain ⟨h1,h2⟩ := @tests_congr m (removed v m' a f) x
        (fun i hi => h.removed_slot hv hx hne (show i<32 by omega)) word
      rw [slotNamed,slotNamed,h1,h2]
  rw [resolves_iff_named hdense,resolves_iff_named hdense',find?_agree hnamed]
  refine ⟨Iff.rfl,fun hfind => entryAt_congr fun i hi => ?_⟩
  refine h.removed_slot hv (List.mem_of_find?_eq_some hfind) ?_ hi
  rintro rfl
  have := List.find?_some hfind
  rw [hfree] at this
  cases this

/-- Bytes that belong neither to the slot nor to the new cluster nor to its link. -/
theorem Made.frame (hv : Mounted v) (h : Made v m m' cwd dir name83 a f) (hb : b<a ∨ a+32≤b)
    (hdata : ¬DataByte v f b) (hlink : ¬LinkByte v f b) : m' b=m b := by
  rw [h.result,attached_outside hv hb hdata hlink]
  exact (editor_setEntry name83 0x10).outside m a b hb

/-- The table and the data area do not overlap. -/
theorem table_not_data (hv : Mounted v) (hc : c<v.sectorsPerFat32*128) (hf : InRange v f)
    (hb : LinkByte v c b) : ¬DataByte v f b := by
  have h1 := hv.cluster_le hf
  simp only [LinkByte,DataByte,linkAddr,dataAddr,clusterBytes,sectorSize] at hb ⊢
  rcases hv.apart with h2 | h2
  · have h3 := Nat.zero_le ((f-2)*v.sectorsPerCluster)
    omega
  · omega

/-- A link of the table is in no slot. -/
theorem table_not_slot (hv : Mounted v) (hr : ∀ x∈nodes, InRange v x) (ha : a∈slots v nodes)
    (hc : c<v.sectorsPerFat32*128) (hb : LinkByte v c b) : b<a ∨ a+32≤b := by
  obtain ⟨x,hx,hbyte⟩ := slot_dataByte ha
  by_contra hin
  refine table_not_data hv hc (hr x hx) hb ?_
  have := hbyte (b-a) (by omega)
  rwa [show a+(b-a)=b by omega] at this

/-- The stored link keeps its four upper bits. -/
theorem load32_setLink (value : ℕ) :
    load32 (setLink v m c value) (linkAddr v c)=load32 m (linkAddr v c)/2^28*2^28+value%2^28 := by
  have h1 := load32_lt m (linkAddr v c)
  have h2 : value%2^28<2^28 := Nat.mod_lt _ (by norm_num)
  rw [setLink,load32_store32_same (by omega)]

/-- A word of the table depends on its bytes. -/
theorem load32_congr (h : ∀ b, LinkByte v c b → m' b=m b) :
    load32 m' (linkAddr v c)=load32 m (linkAddr v c) :=
  loadBytes_congr fun b h1 h2 => h b ⟨h1,h2⟩

/-- After the removal every word of the table is what it was. -/
theorem Made.removed_table (hv : Mounted v) (h : Made v m m' cwd dir name83 a f)
    (hc : c<v.sectorsPerFat32*128) :
    load32 (removed v m' a f) (linkAddr v c)=load32 m (linkAddr v c) := by
  have hslot := fun b (hb : LinkByte v c b) =>
    table_not_slot hv h.directory.inRange h.mem hc hb
  have herase : load32 (removed v m' a f) (linkAddr v c)=load32 (setLink v m' f 0) (linkAddr v c) :=
    load32_congr fun b hb => editor_eraseEntry.outside _ a b (hslot b hb)
  rw [herase]
  by_cases hcf : c=f
  · subst hcf
    have hpos := hv.cluster_pos
    have hmade : load32 m' (linkAddr v c)=
        load32 (setLink v (setFirstCluster (setEntry name83 0x10 m a) a c) c endMark)
          (linkAddr v c) := by
      refine load32_congr fun b hb => ?_
      have hdata := table_not_data hv hc h.free.1 hb
      simp only [DataByte,clusterBytes,sectorSize] at hdata
      rw [h.result,attached,copyRange_outside (by omega)]
    have hedit : load32 (setFirstCluster (setEntry name83 0x10 m a) a c) (linkAddr v c)=
        load32 m (linkAddr v c) := by
      refine load32_congr fun b hb => ?_
      rw [(editor_setFirstCluster c).outside _ a b (hslot b hb),
        (editor_setEntry name83 0x10).outside m a b (hslot b hb)]
    have hfree : load32 m (linkAddr v c)%2^28=0 := h.free.2
    rw [load32_setLink,hmade,load32_setLink,hedit]
    omega
  · refine load32_congr fun b hb => ?_
    have hother := link_disjoint hcf hb
    rw [setLink_outside hother]
    exact h.frame hv (hslot b hb) (table_not_data hv hc h.free.1 hb) hother

/-- In a directory whose slots after the first unused one are all unused, the removal of a
directory that was just made succeeds and undoes it: every word of the table is what it was,
the name is not found, and all names are found where they were, with the same entries. -/
theorem rmdir_undoes_mkdir (hv : Mounted v) (hd : Faultless d) (hdir : FileChain v d.bytes cwd dir)
    (hdense : Dense d.bytes (slots v dir)) (hz : 0∉name)
    (h : fat32Mkdir v cwd name d=some (0,d')) :
    ∃ d2, fat32Rmdir v cwd name d'=some (0,d2) ∧
      (∀ c, c<v.sectorsPerFat32*128 →
        load32 d2.bytes (linkAddr v c)=load32 d.bytes (linkAddr v c)) ∧
      findEntry v cwd name d2=some ((-1,none),d2) ∧
      ∀ other, (findEntry v cwd other d2).map Prod.fst=(findEntry v cwd other d).map Prod.fst := by
  obtain ⟨a,f,hmade,hd',_⟩ := mkdir_made hv hd hdir h
  have hfault : Faultless d' := by
    rw [hd']
    exact hd.with _
  have hrmdir := hmade.rmdir hv hfault hdense (nameTo83_ne_zero hz)
  have hfault2 : Faultless (d'.with (removed v d'.bytes a f)) := hfault.with _
  have htable := fun c (hc : c<v.sectorsPerFat32*128) => hmade.removed_table hv hc
  have hchain : FileChain v (removed v d'.bytes a f) cwd dir := by
    refine hdir.congr fun c hc => ?_
    have hlt := (hdir.inRange c hc).2.trans_le hv.links
    rw [link,htable c hlt]
    rfl
  have hresolves := fun b word => hmade.removed_resolves (b := b) hv hdense word
  have hanswer : ∀ other, (findEntry v cwd other (d'.with (removed v d'.bytes a f))).map Prod.fst=
      (findEntry v cwd other d).map Prod.fst := fun other =>
    findEntry_same hv hd hfault2 hdir hchain (fun b => (hresolves b _).1) fun b => (hresolves b _).2
  refine ⟨_,hrmdir,htable,findEntry_missing hv hfault2 hchain fun b hb => ?_,hanswer⟩
  by_contra hend
  have hres := (hresolves b _).1.mp ⟨hb,by simpa using hend⟩
  have := hmade.missing b hres.first
  rw [hres.live] at this
  cases this

/-- The directory `B` on the sample disk is removed again. -/
theorem sampleDisk_rmdir : ∃ d' d2, fat32Mkdir sampleVolume 2 [0x42] sampleDisk=some (0,d') ∧
    fat32Rmdir sampleVolume 2 [0x42] d'=some (0,d2) ∧
      ∀ c, c<128 → load32 d2.bytes (linkAddr sampleVolume c)=
        load32 sampleDisk.bytes (linkAddr sampleVolume c) := by
  obtain ⟨d',h⟩ := sampleDisk_mkdir
  have hdense : Dense sampleDisk.bytes (slots sampleVolume [2]) :=
    ⟨[1024],(List.range 15).map fun j => 1056+32*j,by decide +kernel,by decide +kernel,
      by decide +kernel⟩
  obtain ⟨d2,hrmdir,htable,_,_⟩ := rmdir_undoes_mkdir sampleVolume_mounted
    (show Faultless sampleDisk from rfl) sampleDisk_root hdense (by decide) h
  exact ⟨d',d2,h,hrmdir,htable⟩

end OvsbMk.FatFolders
