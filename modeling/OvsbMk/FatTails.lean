import OvsbMk.DescriptorReads
import OvsbMk.FatFolders
import OvsbMk.FatRuns

/-!
# The unused ends of directories

Half of the scans stop at the first slot that was never used and half skip it.
They see the same entries as long as only unused slots follow it. A new directory
gets the first free cluster of the volume, and only its first sector is cleared:
what an earlier owner left in the other sectors comes up as entries. In runs in
which that cluster holds no used slot there, all directories keep the shape.
-/

namespace OvsbMk.FatTails

open ByteMemory BlockDisk Fat32 Chains FatTable FatData FatDirectory FatEntries RootedTree FatTree
  FatFiles FatChanges FatFaults FatWalks FatOperations FatSteps FatRuns DescriptorReads

variable {v : Volume} {m : Bytes} {s s' : State} {call : Call} {t : Tree} {p : ℕ} {l : List ℕ}

/-- In a directory only unused slots follow the first unused one, so that the
searches that stop there and those that go on find the same slots. -/
def Tidy (v : Volume) (m : Bytes) (nodes : List ℕ) : Prop :=
  Dense m (slots v nodes) ∧ ∀ name83 a, Resolves v m nodes name83 a ↔
    (slots v nodes).find? (slotNamed name83 m)=some a

/-- All directories that are reached from the root are chains of this shape. -/
def TailsClean (v : Volume) (m : Bytes) : Prop :=
  ∀ p, DirReached v m p → ∃ nodes, FileChain v m p nodes ∧ Tidy v m nodes

/-- The disk draws a tree with the current directory in it. -/
def Drawn (v : Volume) (s : State) : Prop := ∃ t, Draws v s.disk.bytes t ∅ ∧ t.Folder s.cwd

/-- The cluster that a new directory gets is not used after its first sector, no
directory is written like a file, and no dot entry is renamed or removed. The
transfers of the table do not fail, nor do the first write to a new directory and
the deletion of the entry of a removed one. -/
def Preserves (v : Volume) (s : State) (call : Call) : Prop :=
  SparesTable v s.disk ∧
    match call with
    | .writeFile name _ _ => Regular v s.disk.bytes s.cwd name
    | .mkdir _ => (fatFindFree v s.disk).1≠0 →
        ¬s.disk.Fails true (clusterToSector v (fatFindFree v s.disk).1) ∧
          FreshTail v s.disk.bytes (fatFindFree v s.disk).1
    | .rename oldname _ => ¬IsDot oldname
    | .rmdir name => ¬IsDot name ∧ ∀ nodes a, FileChain v s.disk.bytes s.cwd nodes →
        (slots v nodes).find? (slotNamed (nameTo83 name) s.disk.bytes)=some a →
          ¬s.disk.Fails true (a/512)
    | _ => True

/-- Dense directories are tidy. -/
theorem tidy_of_dense (h : Dense m (slots v l)) : Tidy v m l :=
  ⟨h,fun _ _ => FatFolders.resolves_iff_named h⟩

/-- On a volume that draws a tree all directories are tidy. -/
theorem Draws.tailsClean (hv : Mounted v) (h : Draws v m t ∅) : TailsClean v m := by
  intro p hp
  have hfold := Draws.reached hv h hp
  exact ⟨t.chain p,h.chain p hfold.1,tidy_of_dense (h.dense p hfold)⟩

/-- A directory that gets a cluster without used slots is added to the tree. -/
theorem mkdir_drawn (hv : Mounted v) (hs : SparesTable v s.disk) (h : Draws v s.disk.bytes t ∅)
    (hcwd : t.Folder s.cwd) (name : Text)
    (hfirst : (fatFindFree v s.disk).1≠0 →
      ¬s.disk.Fails true (clusterToSector v (fatFindFree v s.disk).1) ∧
        FreshTail v s.disk.bytes (fatFindFree v s.disk).1) :
    ∃ r s', (Call.mkdir name).perform v s=some (r,s') ∧ Drawn v s' := by
  obtain ⟨r,d',hrun,hcases⟩ := mkdir_outcome hv hs (h.chain _ hcwd.1) name fun hne => (hfirst hne).1
  refine ⟨r,⟨d',s.cwd⟩,by rw [Call.perform,hrun]; rfl,?_⟩
  rcases hcases with hidle | ⟨a,hfind,_,_,hb | ⟨b,f,hfind',hf,hfr,hfz,hb⟩⟩
  · exact ⟨t,hidle.2 ▸ h,hcwd⟩
  · refine ⟨t,?_,hcwd⟩
    rw [hb]
    exact Draws.fill hv h hcwd hfind (nameTo83_length _) (nameTo83_ne_zero name.2) (by norm_num)
  · have hpos := hfr.1
    have htail := (hfirst (by omega)).2
    rw [hf] at htail
    have hp := (h.folder_without hcwd (List.mem_of_find?_eq_some hfind')).1
    have hnew := Draws.mkdir hv h hcwd name hfind hfind' hfr hfz htail
      (fun hn => h.fresh hv hfz hn.1) hp
    refine ⟨_,?_,hnew.2⟩
    rw [hb]
    exact hnew.1

/-- A call that meets the condition leaves a tree drawn. -/
theorem step_drawn (hv : Mounted v) (h : Drawn v s) (hstep : Step v (Preserves v) s s') :
    Drawn v s' := by
  obtain ⟨call,r,⟨hs,hc⟩,hrun⟩ := hstep
  obtain ⟨t,hdraws,hcwd⟩ := h
  have hfinish : Spared v s call → Careful v s call → Drawn v s' := by
    intro hspared hcareful
    obtain ⟨r1,s1,t1,hrun1,_,_,h1,h2⟩ := step_effect hv hspared hcareful hdraws hcwd
    rw [hrun,Option.some.injEq,Prod.mk.injEq] at hrun1
    obtain ⟨_,rfl⟩ := hrun1
    exact ⟨t1,h1,h2⟩
  cases call with
  | createFile name => exact hfinish ⟨hs,trivial⟩ trivial
  | deleteFile name => exact hfinish ⟨hs,trivial⟩ trivial
  | writeFile name buffer size => exact hfinish ⟨hs,trivial⟩ hc
  | mkdir name =>
    obtain ⟨r1,s1,hrun1,hdrawn⟩ := mkdir_drawn hv hs hdraws hcwd name hc
    rw [hrun,Option.some.injEq,Prod.mk.injEq] at hrun1
    obtain ⟨_,rfl⟩ := hrun1
    exact hdrawn
  | rename oldname newname => exact hfinish ⟨hs,trivial⟩ hc
  | rmdir name => exact hfinish ⟨hs,hc.2⟩ hc.1
  | changeDir name => exact hfinish ⟨hs,trivial⟩ trivial

/-- In every run of calls that meet the condition, all directories keep their
unused slots at the end. -/
theorem run_tailsClean (hv : Mounted v) (hs : Drawn v s)
    (hrun : Relation.ReflTransGen (Step v (Preserves v)) s s') : TailsClean v s'.disk.bytes := by
  have hall : Drawn v s' := by
    induction hrun with
    | refl => exact hs
    | tail _ hstep ih => exact step_drawn hv ih hstep
  obtain ⟨t,hdraws,_⟩ := hall
  exact Draws.tailsClean hv hdraws

/-- Making a directory on the sample volume keeps the shape. -/
theorem freshState_tailsClean : ∃ s',
    Relation.ReflTransGen (Step sampleVolume (Preserves sampleVolume)) freshState s' ∧
      TailsClean sampleVolume s'.disk.bytes := by
  have hresult : ((Call.mkdir nameA).perform sampleVolume freshState).isSome=true := by
    decide +kernel
  obtain ⟨⟨r,s'⟩,hs'⟩ := Option.isSome_iff_exists.mp hresult
  have hfaultless : Faultless freshState.disk := freshState_fresh.faultless
  have hrun : Relation.ReflTransGen (Step sampleVolume (Preserves sampleVolume)) freshState s' :=
    Relation.ReflTransGen.single ⟨.mkdir nameA,r,⟨sparesTable_of_faultless hfaultless,
      fun _ => ⟨fun hf => hfaultless.not_faulty ⟨_,_,hf⟩,sampleVolume_blank.freshTail⟩⟩,hs'⟩
  exact ⟨s',hrun,run_tailsClean sampleVolume_mounted
    (freshState_fresh.consistent sampleVolume_mounted).2 hrun⟩

/-- A formatted volume of clusters with sixteen sectors. The second sector of the
first free cluster starts with a byte that an earlier owner left. -/
def staleState : State :=
  ⟨⟨storeBytes (storeBytes (fun _ => 0) 520 4 endMark) 9728 1 0x41,fun _ _ _ => false⟩,2⟩

/-- It is formatted: all directories are tidy. -/
theorem staleState_formatted : Formatted wideVolume staleState.disk.bytes := by
  refine ⟨⟨by decide,by decide +kernel⟩,by decide +kernel,fun c hc hne => ?_,by decide +kernel⟩
  have htotal : totalClusters wideVolume=8 := by decide +kernel
  have h1 : 2≤c := hc.1
  have h2 : c<totalClusters wideVolume+2 := hc.2
  replace hne : c≠2 := hne
  rw [htotal] at h2
  interval_cases c <;> first | exact (hne rfl).elim | decide +kernel

/-- One new directory on this volume has a used slot after an unused one. -/
theorem recycled_cluster_untidy : Drawn wideVolume staleState ∧
    TailsClean wideVolume staleState.disk.bytes ∧
      ∃ s', performAll wideVolume [.mkdir nameA] staleState=some s' ∧
        ¬TailsClean wideVolume s'.disk.bytes := by
  have hdraws := staleState_formatted.draws wideVolume_mounted
  refine ⟨⟨_,hdraws,rfl,rfl⟩,Draws.tailsClean wideVolume_mounted hdraws,?_⟩
  have hresult : ((performAll wideVolume [.mkdir nameA] staleState).map fun s =>
      (slotLive s.disk.bytes 1024,folderAt s.disk.bytes 1024,target s.disk.bytes 1024,
        link wideVolume s.disk.bytes 3,slotEnd s.disk.bytes 9280,slotEnd s.disk.bytes 9728))=
      some (true,true,3,endMark,true,false) := by decide +kernel
  obtain ⟨s',hrun,hfacts⟩ := Option.map_eq_some_iff.mp hresult
  simp only [Prod.mk.injEq] at hfacts
  obtain ⟨hlive,hdir,htarget,hlink,hunused,hused⟩ := hfacts
  refine ⟨s',hrun,fun hclean => ?_⟩
  have hroot : OnChain wideVolume s'.disk.bytes 2 2 :=
    ⟨Relation.ReflTransGen.refl,fun h => h ⟨by decide,by decide⟩⟩
  have hslot : 1024∈slots wideVolume [2] := by decide +kernel
  have hreached := DirReached.enter 2 1024 DirReached.root ⟨2,hroot,hslot⟩ hlive hdir
  rw [htarget,if_neg (by norm_num)] at hreached
  obtain ⟨nodes,hchain,⟨hdense,_⟩⟩ := hclean 3 hreached
  have hthree : FileChain wideVolume s'.disk.bytes 3 [3] := by
    refine (fileChain_cons wideVolume_mounted).mpr ⟨rfl,⟨by norm_num,by decide +kernel⟩,?_⟩
    rw [hlink]
    exact fileChain_nil.mpr (by norm_num)
  rw [hchain.chain.unique hthree.chain] at hdense
  obtain ⟨after,hsplit⟩ : ∃ after, slots wideVolume [3]=
      ((List.range 16).map fun j => 9216+32*j)++9728::after :=
    ⟨(List.range 239).map fun j => 9760+32*j,by decide +kernel⟩
  have hbefore := FatFolders.dense_before hdense hsplit hused
    (List.mem_map.mpr ⟨2,by decide,rfl⟩ : 9280∈_)
  rw [hunused] at hbefore
  cases hbefore

end OvsbMk.FatTails
