import OvsbMk.FatRuns

/-!
# Clusters that are used belong to an entry

The driver allocates clusters in several calls and frees them in one. On a
volume without leaks every cluster in use is met on the chain of the root or of
an entry that is reached from it. Runs keep it so as long as no entry with
clusters of its own is deleted, no directory is removed that holds entries
behind its first sector, and writes find room.
-/

namespace OvsbMk.FatLeaks

open ByteMemory BlockDisk Fat32 Chains FatTable FatData FatDirectory FatEntries RootedTree FatTree
  FatFiles FatChanges FatFaults FatWalks FatOperations FatSteps FatRuns

variable {v : Volume} {m m' : Bytes} {s s' : State} {call : Call} {t t' : Tree} {a b c f p cwd : ℕ}
  {l : List ℕ}

/-- Every cluster in use is on the chain of the root or of a reached entry. -/
def NoLeak (v : Volume) (m : Bytes) : Prop :=
  ∀ c, InRange v c → link v m c≠0 →
    OnChain v m v.rootCluster c ∨ ∃ a, EntryReached v m a ∧ OnChain v m (target m a) c

/-- Every cluster in use belongs to an object of the tree. -/
def Full (v : Volume) (m : Bytes) (t : Tree) : Prop :=
  ∀ c, InRange v c → link v m c≠0 → ∃ f∈t.nodes, c∈t.chain f

/-- The objects of the tree are the root and those of reached entries. -/
theorem Full.noLeak (hv : Mounted v) (h : Draws v m t ∅) (hfull : Full v m t) : NoLeak v m := by
  intro c hc hne
  obtain ⟨f,hf,hmem⟩ := hfull c hc hne
  have hon : OnChain v m f c := (onChain_iff hv (h.chain f hf)).mpr hmem
  by_cases hroot : f=t.root
  · left
    rw [← h.root,← hroot]
    exact hon
  · right
    obtain ⟨hlive,htarget,_⟩ := h.entry f hf hroot
    have hpar := t.parent_mem f hf
    refine ⟨t.slot f,⟨t.parent f,?_,?_,hlive⟩,?_⟩
    · exact Draws.folder_reached hv h ⟨hpar,h.parent_folder f hf⟩
    · exact (inDirectory_iff hv (h.chain _ hpar)).mpr (h.slot_mem f hf hroot)
    · rw [htarget]
      exact hon

/-- A change of a slot changes no link. -/
theorem Full.edit (hv : Mounted v) (h : Full v m t) {edit : Bytes → ℕ → Bytes} (he : Editor edit)
    (hr : ∀ c∈l, InRange v c) (ha : a∈slots v l) : Full v (edit m a) t := by
  intro c hc hne
  refine h c hc ?_
  rwa [link_congr fun b hb => he.outside m a b (slot_not_link hv hr ha hc hb)] at hne

/-- A slot without an object can be dropped. -/
theorem Full.without (h : Full v m t) (hn : ∀ f∈t.nodes, f≠t.root → t.slot f≠a) :
    Full v m (t.without a) := by
  intro c hc hne
  obtain ⟨f,hf,hmem⟩ := h c hc hne
  refine ⟨f,⟨hf,?_⟩,hmem⟩
  rintro ⟨g,hg,hgne,hslot,_⟩
  exact hn g hg hgne hslot

/-- New clusters of an object. -/
theorem Full.grow (hv : Mounted v) (h : Full v m t) (hf : f∈t.nodes) {added : List ℕ}
    (hgrown : Grown v m m' (t.chain f) added) : Full v m' (t.setChain f (t.chain f++added)) := by
  intro c hc hne
  have hself : (t.setChain f (t.chain f++added)).chain f=t.chain f++added :=
    Function.update_self f _ t.chain
  by_cases hmem : c∈t.chain f++added
  · refine ⟨f,hf,?_⟩
    rw [hself]
    exact hmem
  · rw [hgrown.link_eq hv hc hmem] at hne
    obtain ⟨g,hg,hcg⟩ := h c hc hne
    have hgf : g≠f := by
      rintro rfl
      exact hmem (List.mem_append_left _ hcg)
    refine ⟨g,hg,?_⟩
    rw [show (t.setChain f (t.chain f++added)).chain g=t.chain g from
      Function.update_of_ne hgf _ t.chain]
    exact hcg

/-- The clusters of a new object. -/
theorem Full.add (h : Full v m t) {dir : Prop} (hf : f∉t.nodes) (hp : p∈t.nodes)
    (hlink : ∀ c, InRange v c → c∉l → link v m' c=link v m c) :
    Full v m' (t.add f p a l dir hf hp) := by
  intro c hc hne
  by_cases hmem : c∈l
  · exact ⟨f,Or.inl rfl,by rw [(Tree.add_new hf hp).1]; exact hmem⟩
  · rw [hlink c hc hmem] at hne
    obtain ⟨g,hg,hcg⟩ := h c hc hne
    exact ⟨g,Or.inr hg,by rw [(Tree.add_old hf hp hg).1]; exact hcg⟩

/-- The entry leads back: to the directory it is in, or to one that holds the
entry of that directory. -/
def LeadsBack (v : Volume) (m : Bytes) (cwd a : ℕ) : Prop :=
  folderAt m a=true ∧ (target m a=cwd ∨ ∃ b, InDirectory v m (target m a) b ∧ slotLive m b=true ∧
    nameAt m b∉dotNames ∧ target m b=cwd)

/-- An entry that leads back is not that of an object. -/
theorem LeadsBack.not_owns (hv : Mounted v) (h : Draws v m t ∅) (hcwd : t.Folder cwd)
    (ha : a∈slots v (t.chain cwd)) (hback : LeadsBack v m cwd a) : ¬Owns t m a := by
  rintro ⟨hmem,hne,hslot⟩
  have hpar : t.parent (target m a)=cwd := h.parent_eq hcwd ha hmem hne hslot
  have hnot : ¬t.Above (target m a) cwd := by
    rw [← hpar]
    exact Rooted.not_above_parent hmem hne
  obtain ⟨hdir,heq | ⟨b,hb,hlive,hname,htarget⟩⟩ := hback
  · rw [heq] at hnot
    exact hnot (t.above_refl cwd)
  · have hentry := (h.entry _ hmem hne).2.2
    rw [hslot] at hentry
    have hfold : t.Folder (target m a) := ⟨hmem,hentry.mp hdir⟩
    have hb' := (inDirectory_iff hv (h.chain _ hmem)).mp hb
    rcases Draws.place h hfold hb' hlive (Or.inr hname) with hz | ⟨h1,h2,h3⟩
    · exact h.ne_zero hv hcwd.1 (htarget.symm.trans hz)
    · have hup := h.parent_eq hfold hb' h1 h2 h3
      rw [htarget] at hup
      refine hnot ?_
      rw [← hup]
      exact t.above_parent cwd

/-- No object is in a slot whose entry owns none. -/
theorem slot_ne_of_not_owns (h : Draws v m t ∅) (hn : ¬Owns t m a) :
    ∀ f∈t.nodes, f≠t.root → t.slot f≠a := by
  rintro f hf hne rfl
  refine hn ?_
  have htarget := (h.entry f hf hne).2.1
  rw [Owns,htarget]
  exact ⟨hf,hne,rfl⟩

/-- There are free clusters for a number of bytes. -/
def Enough (v : Volume) (m : Bytes) (size : ℕ) : Prop :=
  ∃ l : List ℕ, l.Nodup ∧ (∀ c∈l, InRange v c ∧ link v m c=0) ∧ size≤l.length*clusterBytes v

/-- A write that finds room updates the entry. -/
theorem Enough.attached (hv : Mounted v) {d : Disk} {size : ℕ} {added : List ℕ}
    (henough : Enough v d.bytes size) (hd : Faultless d) (hsize : size<2^31)
    (hgrown : Grown v d.bytes m' [] added) : ¬Unattached v d m' size added := by
  rintro (hfault | hbig | ⟨hused,hshort⟩)
  · exact hd.not_faulty hfault
  · omega
  · obtain ⟨l,hnodup,hfree,hroom⟩ := henough
    have hsub : l⊆added := by
      intro c hc
      by_contra hn
      refine hused c (hfree c hc).1 ?_
      rw [hgrown.link_eq hv (hfree c hc).1 hn]
      exact (hfree c hc).2
    have hlen := (hnodup.subperm hsub).length_le
    have := Nat.mul_le_mul_right (clusterBytes v) hlen
    omega

/-- The call wastes no clusters: deleted entries have none of their own, removed
directories that show no entries have none, and writes find room. -/
def Thrifty (v : Volume) (s : State) : Call → Prop
  | .deleteFile name => ∀ nodes a, FileChain v s.disk.bytes s.cwd nodes →
      Resolves v s.disk.bytes nodes (nameTo83 name) a →
        target s.disk.bytes a=0 ∨ LeadsBack v s.disk.bytes s.cwd a
  | .writeFile _ _ size => size.toNat<2^31 ∧ Enough v s.disk.bytes size.toNat
  | .rename _ newname => (nameTo83 newname).headD 0≠0xE5
  | .rmdir name => ∀ nodes a, FileChain v s.disk.bytes s.cwd nodes →
      (slots v nodes).find? (slotNamed (nameTo83 name) s.disk.bytes)=some a →
        ShowsEmpty v s.disk.bytes (target s.disk.bytes a) →
          ∀ b, InDirectory v s.disk.bytes (target s.disk.bytes a) b →
            slotLive s.disk.bytes b=true → target s.disk.bytes b=0 ∨
              target s.disk.bytes b=target s.disk.bytes a ∨ target s.disk.bytes b=s.cwd
  | _ => True

/-- Nothing is below a directory whose entries lead nowhere or back. -/
theorem alone_of_back (hv : Mounted v) (h : Draws v m t ∅) (hown : Owns t m a)
    (hpar : t.parent (target m a)=cwd) (hfold : t.Folder (target m a))
    (hback : ∀ b, InDirectory v m (target m a) b → slotLive m b=true →
      target m b=0 ∨ target m b=target m a ∨ target m b=cwd) :
    ∀ x∈t.nodes, x∈t.inSlot a → x=target m a := by
  obtain ⟨hmem,hne,hslot⟩ := hown
  have hleaf : ∀ x∈t.nodes, x≠t.root → t.parent x≠target m a := by
    intro x hx hxne hxp
    obtain ⟨hlive,htarget,_⟩ := h.entry x hx hxne
    have hin : InDirectory v m (target m a) (t.slot x) := by
      refine (inDirectory_iff hv (h.chain _ hmem)).mpr ?_
      rw [← hxp]
      exact h.slot_mem x hx hxne
    rcases hback _ hin hlive with hz | heq | heq
    · exact h.ne_zero hv hx (htarget.symm.trans hz)
    · rw [htarget] at heq
      exact Rooted.parent_ne hx hxne (hxp.trans heq.symm)
    · rw [htarget] at heq
      refine Rooted.not_above_parent hmem hne ?_
      rw [hpar,← heq,← hxp]
      exact t.above_parent x
  rintro x hx ⟨g,hg,hgne,rfl,habove⟩
  rw [(h.entry g hg hgne).2.1] at hleaf ⊢
  exact Rooted.above_leaf hleaf hx habove

/-- The clusters of a removed directory are free. -/
theorem Full.remove (hv : Mounted v) (hfull : Full v m t) (h : Draws v m t ∅)
    (hcwd : t.Folder cwd) (ha : a∈slots v (t.chain cwd))
    (honly : ∀ x∈t.nodes, x∈t.inSlot a → x=target m a) :
    Full v (eraseEntry (freeLinks v m (clusters t (target m a))) a) (t.without a) := by
  refine Full.edit hv (l:=t.chain cwd) ?_ editor_eraseEntry (h.chain cwd hcwd.1).inRange ha
  intro c hc hne
  rw [link_freeLinks] at hne
  by_cases hmem : c∈clusters t (target m a)
  · rw [if_pos hmem] at hne
    exact (hne rfl).elim
  rw [if_neg hmem] at hne
  obtain ⟨f,hf,hcf⟩ := hfull c hc hne
  refine ⟨f,⟨hf,fun hin => ?_⟩,hcf⟩
  obtain rfl := honly f hf hin
  rw [clusters,if_neg (h.ne_zero hv hf)] at hmem
  exact hmem hcf

/-- A name that is missing is not in use. -/
theorem missing_name (h : Draws v m t ∅) (hcwd : t.Folder cwd) (name : Text)
    (hmiss : Missing v m (t.chain cwd) (nameTo83 name)) (hb : b∈slots v (t.chain cwd))
    (hlive : slotLive m b=true) : nameAt m b≠nameTo83 name := by
  intro hname
  have hhit := hit_of_live hlive hname
  rw [(h.dense cwd hcwd).find_hit (nameTo83_ne_zero name.2) hmiss hb] at hhit
  cases hhit

/-- A new directory is found in the slot of its entry. -/
theorem missing_slot_eq (h : Draws v m t ∅) (hcwd : t.Folder cwd) (name : Text)
    (hmiss : Missing v m (t.chain cwd) (nameTo83 name)) (ha : a∈slots v (t.chain cwd))
    (hb : b∈slots v (t.chain cwd))
    (hhit : slotFolder (nameTo83 name) (setEntry (nameTo83 name) 0x10 m a) b=true) : b=a := by
  by_contra hne
  rw [slotFolder,Bool.and_eq_true] at hhit
  have hlive := live_of_hit (nameTo83_ne_zero name.2) hhit.1
  have hname := (hit_iff.mp hhit.1).2.2
  obtain ⟨h1,_,_,h4⟩ := edit_keeps (m:=m) (editor_setEntry (nameTo83 name) 0x10) ha hb hne
  exact missing_name h hcwd name hmiss hb (h1.symm.trans hlive) (h4.symm.trans hname)

/-- A thrifty effect leaves every cluster in use with an object. -/
theorem effect_full (hv : Mounted v) (hd : Faultless s.disk) (h : Draws v s.disk.bytes t ∅)
    (hcwd : t.Folder s.cwd) (hfull : Full v s.disk.bytes t) (hth : Thrifty v s call)
    (he : Effect v s.cwd s.disk t call m' t') : Full v m' t' := by
  have hchain := h.chain _ hcwd.1
  have hr := hchain.inRange
  cases he with
  | idle => exact hfull
  | created name a hfind =>
    exact hfull.edit hv (editor_setEntry _ _) hr (List.mem_of_find?_eq_some hfind)
  | deleted name a hres =>
    refine (hfull.without (slot_ne_of_not_owns h ?_)).edit hv editor_eraseEntry hr hres.mem
    rcases hth _ a hchain hres with hz | hback
    · exact fun hown => h.ne_zero hv hown.1 hz
    · exact hback.not_owns hv h hcwd hres.mem
  | renamed oldname newname a hfind hdot hkept =>
    exact hfull.edit hv (editor_setName _) hr (List.mem_of_find?_eq_some hfind)
  | renamedAway oldname newname a hfind haway => exact (hth haway).elim
  | wasted name buffer size a f m2 added hres hz hstored hun =>
    exact (hth.2.attached hv hd hth.1 hstored.grown hun).elim
  | grown name buffer size a f m2 added hres hf hown hfile hstored =>
    exact hfull.grow hv (hf ▸ hown.1) hstored.grown
  | resized name buffer size a f m2 added hres hf hown hfile hstored result =>
    exact (hfull.grow hv (hf ▸ hown.1) hstored.grown).edit hv (editor_updated f result) hr hres.mem
  | adopted name buffer size a f m2 added hres hz hfile hstored hf hcwd' result =>
    refine Full.edit hv ?_ (editor_updated f result) hr hres.mem
    exact hfull.add hf hcwd' fun c hc hn => hstored.grown.link_eq hv hc hn
  | entered name a hfind hmiss =>
    exact hfull.edit hv (editor_setEntry _ _) hr (List.mem_of_find?_eq_some hfind)
  | attached name a b f hfind hmiss hfind' hfr hfz hblank hf hcwd' =>
    have ha := List.mem_of_find?_eq_some hfind
    have hb := List.mem_of_find?_eq_some hfind'
    have hba : b=a := missing_slot_eq h hcwd name (hmiss.resolve_left hd.not_faulty) ha hb
      (List.find?_some hfind')
    have hempty : ∀ g∈t.nodes, g≠t.root → t.slot g≠b := by
      intro g hg hne hslot
      have hlive := (h.entry g hg hne).1
      rw [hslot,hba,not_live_of_free (List.find?_some hfind)] at hlive
      cases hlive
    have hedit := (hfull.edit hv (editor_setEntry (nameTo83 name) 0x10) hr ha).without hempty
    refine hedit.add hf hcwd' fun c hc hn => ?_
    rw [link_attached hv hr hb hfr hc,if_neg fun he => hn (List.mem_singleton.mpr he)]
  | removed name a hfind hdir hdot hplace hempty =>
    have ha := List.mem_of_find?_eq_some hfind
    refine Full.remove hv hfull h hcwd ha ?_
    intro x hx hin
    rcases hplace with hz | hown
    · obtain ⟨g,hg,hne,rfl,_⟩ := hin
      rw [(h.entry g hg hne).2.1] at hz
      exact (h.ne_zero hv hg hz).elim
    · have hentry := (h.entry _ hown.1 hown.2.1).2.2
      rw [hown.2.2] at hentry
      have hshow := (hempty (h.ne_zero hv hown.1)).resolve_left fun hf => hd.not_faulty ⟨_,_,hf⟩
      exact alone_of_back hv h hown (h.parent_eq hcwd ha hown.1 hown.2.1 hown.2.2)
        ⟨hown.1,hentry.mp hdir⟩ (hth _ a hchain hfind hshow) x hx hin

/-- The state is consistent and every cluster in use belongs to an object. -/
def Tight (v : Volume) (s : State) : Prop :=
  Faultless s.disk ∧ ∃ t, Draws v s.disk.bytes t ∅ ∧ t.Folder s.cwd ∧ Full v s.disk.bytes t

/-- A careful and thrifty call leaves no cluster behind. -/
theorem step_tight (hv : Mounted v) (h : Tight v s)
    (hstep : Step v (fun s call => Careful v s call ∧ Thrifty v s call) s s') : Tight v s' := by
  obtain ⟨call,r,⟨hc,hth⟩,hrun⟩ := hstep
  obtain ⟨hd,t,hdraws,hcwd,hfull⟩ := h
  obtain ⟨r1,s1,t1,hrun1,hl,he,h1,h2⟩ := step_effect hv (spared_of_faultless hd call) hc hdraws hcwd
  rw [hrun1,Option.some.injEq,Prod.mk.injEq] at hrun
  obtain ⟨_,rfl⟩ := hrun
  exact ⟨hd.later hl,t1,h1,h2,effect_full hv hd hdraws hcwd hfull hth he⟩

/-- A fresh state has no leak. -/
theorem fresh_tight (hv : Mounted v) (h : Fresh v s) : Tight v s := by
  refine ⟨h.faultless,_,h.formatted.draws hv,h.cwd ▸ ⟨rfl,rfl⟩,fun c hc hne => ?_⟩
  by_cases hroot : c=v.rootCluster
  · exact ⟨v.rootCluster,rfl,List.mem_singleton.mpr hroot⟩
  · exact (hne (h.formatted.free c hc hroot)).elim

/-- In a run of careful and thrifty calls from a formatted volume every cluster
in use is on the chain of the root or of a reached entry. -/
theorem thrifty_run_noLeak (hv : Mounted v) (hs : Fresh v s)
    (hrun : Relation.ReflTransGen (Step v fun s call => Careful v s call ∧ Thrifty v s call) s s') :
    NoLeak v s'.disk.bytes := by
  have hall : Tight v s' := by
    induction hrun with
    | refl => exact fresh_tight hv hs
    | tail _ hstep ih => exact step_tight hv ih hstep
  obtain ⟨_,t,hdraws,_,hfull⟩ := hall
  exact hfull.noLeak hv hdraws

/-- The cluster of a new directory belongs to its entry. -/
theorem freshState_mkdir_noLeak : ∃ s', Relation.ReflTransGen (Step sampleVolume fun s call =>
    Careful sampleVolume s call ∧ Thrifty sampleVolume s call) freshState s' ∧
      NoLeak sampleVolume s'.disk.bytes := by
  have hresult : ((Call.mkdir nameA).perform sampleVolume freshState).isSome=true := by
    decide +kernel
  obtain ⟨⟨r,s'⟩,hs'⟩ := Option.isSome_iff_exists.mp hresult
  have hrun : Relation.ReflTransGen (Step sampleVolume fun s call =>
      Careful sampleVolume s call ∧ Thrifty sampleVolume s call) freshState s' :=
    Relation.ReflTransGen.single ⟨.mkdir nameA,r,⟨fun c _ _ => sampleVolume_blank,trivial⟩,hs'⟩
  exact ⟨s',hrun,thrifty_run_noLeak sampleVolume_mounted freshState_fresh hrun⟩

/-- Nothing is reached from a root directory without live slots. -/
theorem not_entryReached (hchain : FileChain v m v.rootCluster l) (hv : Mounted v)
    (hdead : ∀ a∈slots v l, slotLive m a=false) : ¬EntryReached v m a := by
  have hroot : ∀ {p}, DirReached v m p → p=v.rootCluster := by
    intro p hp
    induction hp with
    | root => rfl
    | enter p a _ ha hlive _ ih =>
      rw [ih] at ha
      rw [hdead a ((inDirectory_iff hv hchain).mp ha)] at hlive
      cases hlive
  rintro ⟨p,hp,ha,hlive⟩
  rw [hroot hp] at ha
  rw [hdead a ((inDirectory_iff hv hchain).mp ha)] at hlive
  cases hlive

/-- Deleting a file leaves its cluster in use without an entry. -/
theorem deleted_file_leaks : ∃ s', Relation.ReflTransGen (Step sampleVolume fun _ _ => True)
    freshState s' ∧ ¬NoLeak sampleVolume s'.disk.bytes := by
  have hresult : ((performAll sampleVolume [.createFile nameA,.writeFile nameA (fun _ => 1) 1,
      .deleteFile nameA] freshState).map fun s => (link sampleVolume s.disk.bytes 2,
        link sampleVolume s.disk.bytes 3,(slots sampleVolume [2]).all fun a =>
          !slotLive s.disk.bytes a))=some (0x0FFFFFFF,0x0FFFFFFF,true) := by decide +kernel
  obtain ⟨s',hrun,hfacts⟩ := Option.map_eq_some_iff.mp hresult
  simp only [Prod.mk.injEq,List.all_eq_true,Bool.not_eq_true'] at hfacts
  obtain ⟨hroot,hused,hdead⟩ := hfacts
  have hrange : ∀ c, 2≤c → c<10 → InRange sampleVolume c := by
    intro c h1 h2
    have htotal : totalClusters sampleVolume=8 := by decide +kernel
    exact ⟨h1,by rw [htotal]; omega⟩
  have hchain : FileChain sampleVolume s'.disk.bytes sampleVolume.rootCluster [2] := by
    refine (fileChain_cons sampleVolume_mounted).mpr ⟨rfl,hrange 2 (by omega) (by omega),?_⟩
    rw [fileChain_nil,hroot]
    decide
  refine ⟨s',performAll_run hrun,fun hno => ?_⟩
  rcases hno 3 (hrange 3 (by omega) (by omega)) (by rw [hused]; decide) with hon | ⟨a,ha,_⟩
  · have hmem := (onChain_iff sampleVolume_mounted hchain).mp hon
    simp at hmem
  · exact not_entryReached hchain sampleVolume_mounted hdead ha

end OvsbMk.FatLeaks
