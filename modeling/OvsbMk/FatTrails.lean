import OvsbMk.FatPaths

/-!
# Paths in runs of the driver

From the root one goes to directories, by their names or by dot entries, and makes
new ones on the way. The entries of all directories above the current one were
found under a name; as long as these names are words, the printed path leads back,
exactly when it fits on the stack.
-/

namespace OvsbMk.FatTrails

open ByteMemory BlockDisk Fat32 Chains FatTable FatData FatDirectory FatEntries RootedTree FatTree
  FatFiles FatChanges FatFaults FatOperations FatSteps FatRuns FatFolders FatViews FatScans FatClimbs FatPaths

variable {v : Volume} {m m' : Bytes} {d d' : Disk} {s s' : State} {t : Tree} {a c cwd f p x : ℕ}
  {levels : List ℕ} {name word : List UInt8}

/-- Change into directories one after the other: no cluster if one is refused. -/
def enterAll (v : Volume) : List (List UInt8) → ℕ → Disk → Option (ℕ×Disk)
  | [], cwd, d => some (cwd,d)
  | name::rest, cwd, d =>
    match fat32ChangeDir v cwd name d with
    | none => none
    | some (r,cwd,d) => if r=0 then enterAll v rest cwd d else none

/-- In an array that is large enough, `fat32_get_cwd_name` stores a slash and names
with slashes between them, and the names lead from the root to the current
directory. -/
def LeadsBack (v : Volume) (s : State) : Prop :=
  ∃ words, (∀ w∈words, w≠[] ∧ 0∉w ∧ 0x2F∉w) ∧
    (∀ maxlen, (pathText words).length < maxlen → ∃ rounds,
      fat32GetCwdName v s.cwd maxlen rounds s.disk=some (some (pathText words),s.disk)) ∧
    enterAll v words v.rootCluster s.disk=some (s.cwd,s.disk)

/-- The directory is found in its parent under a plain name. -/
def Enterable (v : Volume) (m : Bytes) (t : Tree) (c : ℕ) : Prop :=
  ∃ name, 0∉name ∧ Plain (nameTo83 name) ∧
    Resolves v m (t.chain (t.parent c)) (nameTo83 name) (t.slot c)

/-- The way from the root to the current directory. -/
structure OnTrail (v : Volume) (m : Bytes) (t : Tree) (cwd : ℕ) : Prop where
  /-- The disk draws the tree. -/
  draws : Draws v m t ∅
  /-- The current directory is one of the tree. -/
  folder : t.Folder cwd
  /-- Directories start with their dot entries. -/
  dotted : Dotted v m t
  /-- The directories on the way are found under their names. -/
  enterable : ∀ x, t.Above x cwd → x≠t.root → Enterable v m t x

/-- One more name. -/
theorem enterAll_snoc {words : List (List UInt8)} {start : ℕ}
    (h : enterAll v words start d=some (p,d')) (hname : fat32ChangeDir v p name d'=some (0,c,d')) :
    enterAll v (words++[name]) start d=some (c,d') := by
  induction words generalizing start d with
  | nil =>
    rw [enterAll,Option.some.injEq,Prod.mk.injEq] at h
    obtain ⟨rfl,rfl⟩ := h
    rw [List.nil_append,enterAll,hname]
    dsimp only
    rw [if_pos rfl,enterAll]
  | cons w rest ih =>
    rw [List.cons_append,enterAll]
    rw [enterAll] at h
    rcases hw : fat32ChangeDir v start w d with _ | ⟨r,x,d1⟩
    · rw [hw] at h
      cases h
    · rw [hw] at h
      dsimp only at h ⊢
      split at h
      next hr =>
        rw [if_pos hr]
        exact ih h
      next => cases h

/-- Names that lead down from the parents lead down the whole way. -/
theorem enterAll_levels {next : ℕ → ℕ} (label : ℕ → List UInt8)
    (hchain : Chain next (· = v.rootCluster) cwd levels)
    (hstep : ∀ c∈levels, fat32ChangeDir v (next c) (label c) d=some (0,c,d)) :
    enterAll v (levels.map label).reverse v.rootCluster d=some (cwd,d) := by
  induction levels generalizing cwd with
  | nil =>
    obtain rfl := chain_nil.mp hchain
    rfl
  | cons c rest ih =>
    obtain ⟨rfl,_,hrest⟩ := chain_cons.mp hchain
    rw [List.map_cons,List.reverse_cons]
    exact enterAll_snoc (ih hrest fun x hx => hstep x (List.mem_cons_of_mem _ hx))
      (hstep cwd List.mem_cons_self)

/-- The name of a directory in its parent. -/
def labelOf (m : Bytes) (t : Tree) (c : ℕ) : List UInt8 := nameAt m (t.slot c)

/-- The word that is printed for a directory leads to it from its parent. -/
theorem Enterable.enters (hv : Mounted v) (hd : Faultless d) (h : Draws v d.bytes t ∅)
    (hc : t.Folder c) (hne : c≠t.root) (hent : Enterable v d.bytes t c) :
    (printed (labelOf d.bytes t c)≠[] ∧ 0∉printed (labelOf d.bytes t c) ∧
      0x2F∉printed (labelOf d.bytes t c)) ∧
      fat32ChangeDir v (t.parent c) (printed (labelOf d.bytes t c)) d=some (0,c,d) := by
  obtain ⟨name,hz,⟨word,hword,hname⟩,hres⟩ := hent
  obtain ⟨hreads,hzero⟩ := plain_reads hz hword hname
  have hlabel : labelOf d.bytes t c=padded word 11 := (hit_iff.mp hres.hit).2.2.trans hname
  obtain ⟨_,htarget,hdir⟩ := h.entry c hc.1 hne
  rw [hlabel,printed_word hword]
  refine ⟨⟨hword.1,hzero,hword.2.2.2⟩,?_⟩
  rw [hname,← hreads] at hres
  have henter := enterDirectory_eq hv hd (h.chain _ (t.parent_mem c hc.1)) hres (hdir.mpr hc.2)
    (by rw [htarget]; exact h.ne_zero hv hc.1)
  rw [htarget] at henter
  obtain ⟨y,rest,rfl⟩ := List.exists_cons_of_ne_nil hword.1
  have hslash : y≠0x2F := fun heq => hword.2.2.2 (by rw [heq]; exact List.mem_cons_self)
  rw [fat32ChangeDir,if_neg hslash]
  exact henter

/-- On the way from the root the printed path leads back exactly when it fits on the
stack. -/
theorem OnTrail.leadsBack_iff (hv : Mounted v) (hd : Faultless s.disk)
    (h : OnTrail v s.disk.bytes t s.cwd) :
    ∃ levels, Chain (parentOf v s.disk.bytes) (· = v.rootCluster) s.cwd levels ∧
      (LeadsBack v s ↔ levels.length ≤ stackSize) := by
  obtain ⟨levels,hchain,hlevels⟩ := levels_exist hv h.draws h.dotted h.folder
  have hparent : ∀ c∈levels, parentOf v s.disk.bytes c=t.parent c := fun c hc =>
    parentOf_tree hv h.draws h.dotted (hlevels c hc).1 (hlevels c hc).2.1
  have hfound : ∀ c∈levels, ∃ rounds, nameChain v c rounds (parentOf v s.disk.bytes c) s.disk=
      some (some (labelOf s.disk.bytes t c),s.disk) := by
    intro c hc
    obtain ⟨hfold,hne,_⟩ := hlevels c hc
    rw [hparent c hc]
    exact ⟨_,nameChain_slots hv hd (h.draws.chain _ (t.parent_mem c hfold.1))
      (slotLeads_tree h.draws hv hfold.1 hne)⟩
  have henters := fun c (hc : c∈levels) => Enterable.enters hv hd h.draws (hlevels c hc).1
    (hlevels c hc).2.1 (h.enterable c (hlevels c hc).2.2 (hlevels c hc).2.1)
  refine ⟨levels,hchain,⟨?_,fun hlen => ?_⟩⟩
  · rintro ⟨words,_,hprints,_⟩
    obtain ⟨rounds,hrun⟩ := hprints _ (Nat.lt_succ_self _)
    rcases cwdName_climbs hrun with hroot | ⟨names,d1,hclimb⟩
    · rw [hchain.stop_iff.mp hroot]
      exact Nat.zero_le _
    · obtain ⟨levels',hchain',_,hroom⟩ := climb_arrives hd (Nat.zero_add stackSize) hclimb
      obtain rfl := hchain.unique hchain'
      refine hroom levels (List.Sublist.refl levels) fun c hc => ?_
      obtain ⟨rounds,hname⟩ := hfound c hc
      exact (nameChain_named hd hname).2.mp rfl
  · obtain ⟨rounds,hclimb⟩ := climb_names hd (labelOf s.disk.bytes t) hchain hfound
      (show ([] : List (List UInt8)).length+levels.length ≤ stackSize by
        rwa [List.length_nil,Nat.zero_add])
    rw [List.append_nil] at hclimb
    have hwords : (levels.map (labelOf s.disk.bytes t)).reverse.map printed=
        (levels.map fun c => printed (labelOf s.disk.bytes t c)).reverse := by
      rw [List.map_reverse,List.map_map]
      rfl
    refine ⟨_,?_,fun maxlen hroom => ⟨rounds,cwdName_eq hclimb hroom⟩,?_⟩
    · rw [hwords]
      intro w hw
      obtain ⟨c,hc,rfl⟩ := List.mem_map.mp (List.mem_reverse.mp hw)
      exact (henters c hc).1
    · rw [hwords]
      refine enterAll_levels _ hchain fun c hc => ?_
      rw [hparent c hc]
      exact (henters c hc).2

/-- The root is on the way to itself. -/
theorem OnTrail.root (h : OnTrail v m t cwd) : OnTrail v m t v.rootCluster where
  draws := h.draws
  folder := h.draws.root ▸ ⟨t.root_mem,h.draws.root_folder⟩
  dotted := h.dotted
  enterable := fun x hx hne => (hne (Rooted.above_root (by rwa [h.draws.root]))).elim

/-- Going to a directory that is found under a plain name stays on the way. -/
theorem OnTrail.enter (hv : Mounted v) (hd : Faultless d) (h : OnTrail v d.bytes t cwd) (hz : 0∉name)
    (hplain : Plain (nameTo83 name)) :
    ∃ r c, enterDirectory v cwd name d=some (r,c,d) ∧ OnTrail v d.bytes t c := by
  obtain ⟨r,c,d',hrun,hidle,hc⟩ := enterDirectory_outcome hv (sparesTable_of_faultless hd)
    (h.draws.chain _ h.folder.1) name
  obtain rfl : d'=d := Idle.eq hd hidle
  refine ⟨r,c,hrun,?_⟩
  rcases hc with rfl | ⟨a,hres,hdir,rfl⟩
  · exact h
  have hlive := live_of_hit (nameTo83_ne_zero hz) hres.hit
  have hfold := Draws.enter h.draws h.folder hres.mem hlive hdir
  by_cases hzero : target d'.bytes a=0
  · rw [if_pos hzero]
    exact h.root
  rw [if_neg hzero] at hfold ⊢
  refine ⟨h.draws,hfold,h.dotted,fun x hx hne => ?_⟩
  rcases h.draws.placed _ h.folder a hres.mem (Set.notMem_empty a) hlive with hz0 | hown | hback
  · exact (hzero hz0).elim
  · have hpar := h.draws.parent_eq h.folder hres.mem hown.1 hown.2.1 hown.2.2
    rcases Rooted.above_cases hx with rfl | hx
    · refine ⟨name,hz,hplain,?_⟩
      rw [hpar,hown.2.2]
      exact hres
    · rw [hpar] at hx
      exact h.enterable x hx hne
  · exact h.enterable x (hx.trans hback.2.1) hne

/-- A name without its leading slash. -/
def relative : List UInt8 → List UInt8
  | [] => []
  | c::rest => if c=0x2F then rest else c::rest

/-- Changing the directory by a name whose relative part is empty or plain stays on
the way. -/
theorem OnTrail.changeDir (hv : Mounted v) (hd : Faultless d) (h : OnTrail v d.bytes t cwd)
    (hz : 0∉name) (hplain : relative name=[] ∨ Plain (nameTo83 (relative name))) :
    ∃ r c, fat32ChangeDir v cwd name d=some (r,c,d) ∧ OnTrail v d.bytes t c := by
  cases name with
  | nil => exact ⟨0,_,rfl,h.root⟩
  | cons x rest =>
    rw [fat32ChangeDir]
    rw [relative] at hplain
    by_cases hx : x=0x2F
    · rw [if_pos hx] at hplain ⊢
      by_cases hrest : rest=[]
      · rw [if_pos hrest]
        exact ⟨0,_,rfl,h.root⟩
      · rw [if_neg hrest]
        exact h.root.enter hv hd (fun hmem => hz (List.mem_cons_of_mem _ hmem))
          (hplain.resolve_left hrest)
    · rw [if_neg hx] at hplain ⊢
      exact h.enter hv hd hz (hplain.resolve_left (List.cons_ne_nil _ _))

/-- No object has its entry in the slot of a new directory, so that all of them stay. -/
theorem made_keeps {dir : List ℕ} {name83 : List UInt8} (h : Draws v m t ∅)
    (hmade : Made v m m' cwd dir name83 a f) (hx : x∈t.nodes) : x∈(t.without a).nodes := by
  refine ⟨hx,?_⟩
  rintro ⟨g,hg,hne,hslot,_⟩
  have hlive := (h.entry g hg hne).1
  rw [hslot,not_live_of_free (List.find?_some hmade.slot)] at hlive
  cases hlive

section
variable {name83 : List UInt8} (hv : Mounted v) (h : Draws v m t ∅)
  (hmade : Made v m m' cwd (t.chain cwd) name83 a f)
include hv h hmade

/-- Slots of the tree but the new entry do not change when a directory is made. -/
theorem made_slot {b i : ℕ} (hp : p∈t.nodes) (hb : b∈slots v (t.chain p)) (hne : b≠a)
    (hi : i<32) : m' (b+i)=m (b+i) := by
  obtain ⟨y,hy,hbyte⟩ := slot_dataByte hb
  have hyr := (h.chain p hp).inRange y hy
  have hyf : y≠f := by
    rintro rfl
    exact h.not_mem_of_free hv hmade.free.2 hp hy
  have hapart := slots_disjoint hb hmade.mem hne
  exact hmade.frame hv (by omega) (data_disjoint hyr hmade.free.1 hyf (hbyte i hi))
    fun hl => hv.link_not_data hmade.free.1.2 hyr hl (hbyte i hi)

/-- Names are found where they were. -/
theorem made_resolves {b : ℕ} (hp : t.Folder p) (hcwd : t.Folder cwd)
    (hdense : Dense m' (slots v (t.chain p))) (hres : Resolves v m (t.chain p) word b) :
    Resolves v m' (t.chain p) word b := by
  have hfind := (resolves_iff_named (h.dense p hp)).mp hres
  refine (resolves_iff_named hdense).mpr ((find?_agree fun x hx => ?_).trans hfind)
  by_cases hxa : x=a
  · subst hxa
    obtain rfl := h.slot_unique hp.1 hcwd.1 hx hmade.mem
    have hlive := not_live_of_free (List.find?_some hmade.slot)
    have hold : slotNamed word m x=false := by
      by_contra hnamed
      rw [Bool.not_eq_false,named_iff,hlive] at hnamed
      cases hnamed.1
    rw [hold]
    by_contra hnamed
    rw [Bool.not_eq_false,named_iff,(hmade.entry hv).1] at hnamed
    obtain ⟨_,rfl⟩ := hnamed
    have := hmade.missing b hres.first
    rw [hres.live] at this
    cases this
  · obtain ⟨h1,h2⟩ := @tests_congr m m' x
      (fun i hi => made_slot hv h hmade hp.1 hx hxa (show i<32 by omega)) word
    rw [slotNamed,slotNamed,h1,h2]

/-- Directories keep their dot entries. -/
theorem made_dots (hp : t.Folder p) (hne : p≠t.root) (hdot : Dotted v m t) :
    nameAt m' (dataAddr v p)=padded [0x2E] 11 ∧ slotLive m' (dataAddr v p+32)=true ∧
      nameAt m' (dataAddr v p+32)=padded [0x2E,0x2E] 11 ∧
      denoted v (target m' (dataAddr v p+32))=t.parent p := by
  obtain ⟨hself,hlive,hup,hparent⟩ := hdot p hp hne
  obtain ⟨rest,hrest⟩ := @slots_first v p hv
  have hmem : ∀ b, b∈slots v [p] → b∈slots v (t.chain p) := by
    intro b hb
    rw [slots_cons,slots,List.flatMap_nil,List.append_nil] at hb
    exact List.mem_flatMap.mpr ⟨p,h.first_mem hv hp.1,hb⟩
  have hfree := List.find?_some hmade.slot
  have hfirst : dataAddr v p≠a := by
    rintro rfl
    have hbyte : m (dataAddr v p)=0x2E := first_of_name hself
    simp [slotFree,hbyte] at hfree
  have hsecond : dataAddr v p+32≠a := by
    rintro rfl
    rw [not_live_of_free hfree] at hlive
    cases hlive
  obtain ⟨_,_,_,h1⟩ := slot_congr fun i hi =>
    made_slot hv h hmade hp.1 (hmem (dataAddr v p) (by rw [hrest]; simp)) hfirst (i:=i) hi
  obtain ⟨h2,h3,_,h4⟩ := slot_congr fun i hi =>
    made_slot hv h hmade hp.1 (hmem (dataAddr v p+32) (by rw [hrest]; simp)) hsecond (i:=i) hi
  rw [h1,h2,h3,h4]
  exact ⟨hself,hlive,hup,hparent⟩

/-- The disk draws the tree with the new directory. -/
theorem made_draws (hcwd : t.Folder cwd) (hhead : name83.headD 0≠0) (htail : FreshTail v m f)
    (hnew : f∉(t.without a).nodes) (hp : cwd∈(t.without a).nodes) :
    Draws v m' ((t.without a).add f cwd a [f] True hnew hp) ∅ := by
  have hfill := Draws.fill hv h hcwd hmade.slot hmade.length hhead (show 0x10<256 by norm_num)
  obtain ⟨hz,htail'⟩ := setEntry_other hv h name83 0x10 hcwd hmade.mem hmade.free.1 hmade.free.2
  obtain ⟨hname,_,hattr⟩ := @setEntry_spec m a 0x10 name83 hmade.length (by norm_num)
  have hfirst := first_of_name hname
  have hlive : slotLive (setEntry name83 0x10 m a) a=true := by
    rw [live_iff,hfirst,hattr]
    exact ⟨hhead,hmade.head,by norm_num⟩
  have hdir : folderAt (setEntry name83 0x10 m a) a=true := by
    rw [folderAt,isDirectory,hattr]
    decide
  rw [hmade.result]
  exact Draws.attach hv hfill hcwd hmade.mem hlive hdir hmade.free.1 hz (htail' htail)

end

/-- Making a directory stays on the way. -/
theorem OnTrail.made (hv : Mounted v) (h : OnTrail v m t cwd) (hz : 0∉name)
    (hmade : Made v m m' cwd (t.chain cwd) (nameTo83 name) a f) (htail : FreshTail v m f) :
    ∃ t', OnTrail v m' t' cwd := by
  have hkeep := fun x (hx : x∈t.nodes) => made_keeps h.draws hmade hx
  have hcwd := hkeep cwd h.folder.1
  have hnew : f∉(t.without a).nodes := fun hn => h.draws.fresh hv hmade.free.2 hn.1
  have hold : ∀ x∈t.nodes, ((t.without a).add f cwd a [f] True hnew hcwd).chain x=t.chain x ∧
      ((t.without a).add f cwd a [f] True hnew hcwd).slot x=t.slot x ∧
      ((t.without a).add f cwd a [f] True hnew hcwd).parent x=t.parent x ∧
      (x∈((t.without a).add f cwd a [f] True hnew hcwd).folder ↔ x∈t.folder) :=
    fun x hx => Tree.add_old hnew hcwd (hkeep x hx)
  have hdraws := made_draws hv h.draws hmade h.folder (nameTo83_ne_zero hz) htail hnew hcwd
  have hfolder : ∀ p, t.Folder p → ((t.without a).add f cwd a [f] True hnew hcwd).Folder p :=
    fun p hp => ⟨Or.inr (hkeep p hp.1),(hold p hp.1).2.2.2.mpr hp.2⟩
  refine ⟨_,hdraws,hfolder cwd h.folder,?_,fun x hx hne => ?_⟩
  · rintro p ⟨rfl | hp,hfold⟩ hne
    · obtain ⟨⟨h1,_,_⟩,⟨h2,h3,h4⟩,_⟩ := hmade.dots hv
      have hcwd0 := h.draws.ne_zero hv h.folder.1
      refine ⟨h1,live_iff.mpr ?_,h2,?_⟩
      · rw [first_of_name h2]
        refine ⟨by decide,by decide,fun hattr => ?_⟩
        rw [folderAt,isDirectory,hattr] at h4
        cases h4
      · rw [h3,denoted,if_neg hcwd0]
        exact (Tree.add_new hnew hcwd).2.2.1.symm
    · obtain ⟨_,_,hpar,hfolds⟩ := hold p hp.1
      rw [hpar]
      exact made_dots hv h.draws hmade ⟨hp.1,hfolds.mp hfold⟩ hne h.dotted
  · have habove : t.Above x cwd := (Rooted.above_add hnew hcwd hcwd).mp hx
    have hxm := habove.mem h.folder.1
    obtain ⟨other,hzero,hplain,hres⟩ := h.enterable x habove hne
    obtain ⟨_,hslot,hpar,_⟩ := hold x hxm
    have hpm := t.parent_mem x hxm
    have hpf : t.Folder (t.parent x) := ⟨hpm,h.draws.parent_folder x hxm⟩
    have hch := (hold _ hpm).1
    have hdense := hdraws.dense _ (hfolder _ hpf)
    refine ⟨other,hzero,hplain,?_⟩
    rw [hslot,hpar,hch]
    rw [hch] at hdense
    exact made_resolves hv h.draws hmade hpf h.folder hdense hres

/-- A call that goes about: a new directory gets a cluster whose slots after the first
sector were never used, and the relative part of the name of a change is empty or
plain. -/
def GoesAbout (v : Volume) (s : State) : Call → Prop
  | .mkdir _ => FreshTail v s.disk.bytes (fatFindFree v s.disk).1
  | .changeDir name => relative name.1=[] ∨ Plain (nameTo83 (relative name.1))
  | _ => False

/-- Such a call succeeds. -/
def Goes (v : Volume) (s s' : State) : Prop :=
  ∃ call, GoesAbout v s call ∧ call.perform v s=some (0,s')

/-- The current directory is the root, the disk is ideal and draws a tree, and the
directories below the root start with their dot entries. -/
structure AtRoot (v : Volume) (s : State) : Prop where
  /-- No transfer fails. -/
  faultless : Faultless s.disk
  /-- The current directory is the root. -/
  cwd : s.cwd=v.rootCluster
  /-- The tree. -/
  tree : ∃ t, Draws v s.disk.bytes t ∅ ∧ Dotted v s.disk.bytes t

/-- A step stays on the way. -/
theorem goes_onTrail (hv : Mounted v) (hd : Faultless s.disk) (h : OnTrail v s.disk.bytes t s.cwd)
    (hstep : Goes v s s') : Faultless s'.disk ∧ ∃ t', OnTrail v s'.disk.bytes t' s'.cwd := by
  obtain ⟨call,hgoes,hrun⟩ := hstep
  cases call with
  | mkdir name =>
    rw [Call.perform,Option.map_eq_some_iff] at hrun
    obtain ⟨⟨r,d'⟩,hmkdir,hafter⟩ := hrun
    obtain ⟨rfl,rfl⟩ := Prod.mk.inj hafter
    obtain ⟨a,f,hmade,hd',hfirst⟩ := mkdir_made hv hd (h.draws.chain _ h.folder.1) hmkdir
    refine ⟨?_,h.made hv name.2 hmade (hfirst ▸ hgoes)⟩
    rw [hd']
    exact hd.with _
  | changeDir name =>
    rw [Call.perform,Option.map_eq_some_iff] at hrun
    obtain ⟨⟨r,c,d'⟩,hchange,hafter⟩ := hrun
    obtain ⟨rfl,rfl⟩ := Prod.mk.inj hafter
    obtain ⟨r1,c1,hchange1,htrail⟩ := h.changeDir hv hd name.2 hgoes
    rw [hchange] at hchange1
    simp only [Option.some.injEq,Prod.mk.injEq] at hchange1
    obtain ⟨_,rfl,rfl⟩ := hchange1
    exact ⟨hd,t,htrail⟩
  | createFile => exact hgoes.elim
  | deleteFile => exact hgoes.elim
  | writeFile => exact hgoes.elim
  | rename => exact hgoes.elim
  | rmdir => exact hgoes.elim

/-- Wherever one gets from the root by making directories and going to directories
with plain names, the printed path leads back exactly when the directories on the
way to the root fit on the stack. -/
theorem path_leads_back (hv : Mounted v) (hs : AtRoot v s)
    (hrun : Relation.ReflTransGen (Goes v) s s') :
    ∃ levels, Chain (parentOf v s'.disk.bytes) (· = v.rootCluster) s'.cwd levels ∧
      (LeadsBack v s' ↔ levels.length ≤ stackSize) := by
  have hall : Faultless s'.disk ∧ ∃ t, OnTrail v s'.disk.bytes t s'.cwd := by
    induction hrun with
    | refl =>
      obtain ⟨t,hdraws,hdot⟩ := hs.tree
      refine ⟨hs.faultless,t,hdraws,?_,hdot,fun x hx hne => ?_⟩
      · rw [hs.cwd,← hdraws.root]
        exact ⟨t.root_mem,hdraws.root_folder⟩
      · rw [hs.cwd,← hdraws.root] at hx
        exact (hne (Rooted.above_root hx)).elim
    | tail _ hstep ih =>
      obtain ⟨hd,t,htrail⟩ := ih
      exact goes_onTrail hv hd htrail hstep
  obtain ⟨hd,t,htrail⟩ := hall
  exact htrail.leadsBack_iff hv hd

/-- The root directory of the sample volume after formatting. -/
theorem freshState_atRoot : AtRoot sampleVolume freshState where
  faultless := freshState_fresh.faultless
  cwd := freshState_fresh.cwd
  tree := ⟨_,freshState_fresh.formatted.draws sampleVolume_mounted,fun _ hp hne => (hne hp.1).elim⟩

/-- The path of a new directory leads back to it. -/
theorem freshState_leads_back : ∃ s', Relation.ReflTransGen (Goes sampleVolume) freshState s' ∧
    s'.cwd=3 ∧ LeadsBack sampleVolume s' := by
  have hresult : (((Call.mkdir nameA).perform sampleVolume freshState).bind fun r =>
      ((Call.changeDir nameA).perform sampleVolume r.2).map fun q =>
        (r.1,q.1,q.2.cwd,parentOf sampleVolume q.2.disk.bytes 3))=some (0,0,3,2) := by decide +kernel
  obtain ⟨⟨r,s1⟩,h1,hrest⟩ := Option.bind_eq_some_iff.mp hresult
  obtain ⟨⟨q,s2⟩,h2,hfacts⟩ := Option.map_eq_some_iff.mp hrest
  simp only [Prod.mk.injEq] at hfacts
  obtain ⟨rfl,rfl,hcwd,hparent⟩ := hfacts
  have hplain : Plain (nameTo83 nameA.1) := ⟨[0x41],⟨by decide,by decide,by decide,by decide⟩,rfl⟩
  have hrun : Relation.ReflTransGen (Goes sampleVolume) freshState s2 :=
    (Relation.ReflTransGen.single ⟨.mkdir nameA,sampleVolume_blank.freshTail,h1⟩).tail
      ⟨.changeDir nameA,Or.inr hplain,h2⟩
  obtain ⟨levels,hchain,hiff⟩ := path_leads_back sampleVolume_mounted freshState_atRoot hrun
  have hlevels : levels=[3] := by
    refine hchain.unique (chain_cons.mpr ⟨hcwd,by decide,?_⟩)
    rw [hparent]
    exact chain_nil.mpr rfl
  refine ⟨s2,hrun,hcwd,hiff.mpr ?_⟩
  rw [hlevels]
  decide

/-- The name `A.B`. -/
def nameAB : Text := ⟨[0x41,0x2E,0x42],by decide⟩

/-- The path of a directory with an extension does not lead back to it. -/
theorem extension_lost : ∃ s1 s', (Call.mkdir nameAB).perform sampleVolume freshState=some (0,s1) ∧
    (Call.changeDir nameAB).perform sampleVolume s1=some (0,s') ∧ ¬LeadsBack sampleVolume s' := by
  have hresult : (((Call.mkdir nameAB).perform sampleVolume freshState).bind fun r =>
      ((Call.changeDir nameAB).perform sampleVolume r.2).map fun q =>
        (r.1,q.1,q.2.cwd,decide ((climb sampleVolume 3 q.2.cwd [] q.2.disk).map Prod.fst=
          some (some [nameTo83 nameAB.1])),(enterAll sampleVolume [[0x41]] 2 q.2.disk).isSome))=
      some (0,0,3,true,false) := by decide +kernel
  obtain ⟨⟨r,s1⟩,h1,hrest⟩ := Option.bind_eq_some_iff.mp hresult
  obtain ⟨⟨q,s2⟩,h2,hfacts⟩ := Option.map_eq_some_iff.mp hrest
  simp only [Prod.mk.injEq] at hfacts
  obtain ⟨rfl,rfl,hcwd,hclimb,henter⟩ := hfacts
  refine ⟨s1,s2,h1,h2,?_⟩
  rintro ⟨words,hwords,hprints,hleads⟩
  obtain ⟨⟨names,d'⟩,hnames,heq⟩ := Option.map_eq_some_iff.mp (of_decide_eq_true hclimb)
  obtain rfl : names=some [nameTo83 nameAB.1] := heq
  have hfault : Faultless s2.disk := by
    have hfirst := step_consistent sampleVolume_mounted
      (freshState_fresh.consistent sampleVolume_mounted)
      ⟨.mkdir nameAB,0,fun c _ _ => sampleVolume_blank,h1⟩
    exact (step_consistent sampleVolume_mounted hfirst ⟨.changeDir nameAB,0,trivial,h2⟩).1
  obtain ⟨rounds,hrun⟩ := hprints ((pathText words).length+3) (by omega)
  have hroom : (pathText ([nameTo83 nameAB.1].map printed)).length < (pathText words).length+3 := by
    have hlen : (pathText ([nameTo83 nameAB.1].map printed)).length=2 := by decide
    omega
  have htext := cwdName_text hfault hnames (by rw [hcwd]; decide) hroom hrun
  have hword : words=[[0x41]] := pathText_injective (fun w hw => ⟨(hwords w hw).1,(hwords w hw).2.2⟩)
    (by decide) (htext.trans (by decide))
  have hroot : sampleVolume.rootCluster=2 := rfl
  rw [hword,hroot] at hleads
  rw [hleads] at henter
  cases henter

end OvsbMk.FatTrails
