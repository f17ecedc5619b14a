import OvsbMk.FatHalts

/-!
# Failed changes of the current directory

An absolute name makes the root the current directory before the rest of the name
is looked up. The search goes along the chain of a directory until something stops
it, and the change fails unless this is the slot of a directory. What stops it is
told by the contents of the disk and the transfers that fail.
-/

namespace OvsbMk.FatMoves

open ByteMemory BlockDisk Fat32 Chains FatTable FatData FatDirectory FatFiles FatScans FatLookups
open FatHalts

variable {v : Volume} {m : Bytes} {d : Disk} {c k s a n count sector start cwd : ℕ}
  {nodes : List ℕ} {name name83 : List UInt8} {test : Bytes → ℕ → Bool}

/-- A walk comes to a slot of a cluster. -/
structure Meets (v : Volume) (d : Disk) (test : Bytes → ℕ → Bool) (k c s a : ℕ) : Prop where
  /-- The chain has the cluster. -/
  inRange : ¬Ends c
  /-- The cluster has the sector. -/
  inside : s<v.sectorsPerCluster
  /-- Nothing stops the walk in the sectors before. -/
  free : ¬Blocked d test k (clusterToSector v c) 0 s
  /-- The sector is read. -/
  read : d.faults (k+s) false ((clusterToSector v c+s)%2^32)=false
  /-- The slot is the first of the sector that passes. -/
  found : firstSlot test (sectorOf d.bytes ((clusterToSector v c+s)%2^32))=some a

/-- A round of a search is the last one. -/
def LastRound (v : Volume) (d : Disk) (test : Bytes → ℕ → Bool) (start n : ℕ) : Prop :=
  Halts v d test (n*(v.sectorsPerCluster+1)) ((link v d.bytes)^[n] start)

/-- No round of a search is the last one, in more rounds than there are clusters. -/
def GoesOn (v : Volume) (d : Disk) (test : Bytes → ℕ → Bool) (start : ℕ) : Prop :=
  ∀ n<chainRounds, ¬LastRound v d test start n

/-- A slot is that of a directory, in a sector whose number is an answer. -/
def FolderAt (m : Bytes) (p : Place) : Prop :=
  onPlace slotEnd m p=false ∧ 0≤toInt p.1 ∧ isDirectory (entryAt (sectorOf m p.1) p.2)=true

/-- The search for a name in the root directory ends at a directory, if it
ends. -/
def LeadsFromRoot (v : Volume) (d : Disk) (name : List UInt8) : Prop :=
  ∀ r, findEntry v v.rootCluster name d=some r →
    0≤r.1.1 ∧ ∃ e, r.1.2=some e ∧ isDirectory e=true

/-- The last round of a search comes to the slot of a directory. -/
def MeetsFolder (v : Volume) (d : Disk) (name83 : List UInt8) (start : ℕ) : Prop :=
  ∃ n s a, n<chainRounds ∧ (∀ i<n, ¬LastRound v d (stopTest name83) start i) ∧
    Meets v d (stopTest name83) (n*(v.sectorsPerCluster+1)) ((link v d.bytes)^[n] start) s a ∧
    FolderAt d.bytes ((clusterToSector v ((link v d.bytes)^[n] start)+s)%2^32,a)

section
variable {ρ : Type} {visit : ℕ → Disk → Option ρ×Disk}

/-- The loop over sectors goes on to the first one where something stops it. -/
theorem walkSectors_on (h : Reads visit test) (hfree : ¬Blocked d test k sector s n) (count : ℕ) :
    walkSectors visit sector (n+count) s (after d k)=
      walkSectors visit sector count (s+n) (after d (k+n)) := by
  induction n generalizing s k with
  | zero => rw [Nat.zero_add]; rfl
  | succ n ih =>
    rw [blocked_succ,not_or,not_or,Bool.not_eq_true,not_not] at hfree
    obtain ⟨⟨hread,hnone⟩,hfree⟩ := hfree
    have hvisit := h.pass ((sector+s)%2^32) (after d k) (by rwa [after_faults]) hnone
    rw [show n+1+count=n+count+1 by omega,walkSectors,hvisit,after_used]
    dsimp only
    rw [ih hfree,show s+1+n=s+(n+1) by omega,show k+1+n=k+(n+1) by omega]

/-- The walk goes on to its last round. -/
theorem walkChain_rounds (h : Reads visit test) (hgo : ∀ i<n, ¬LastRound v d test start i)
    (rounds : ℕ) : walkChain v visit (n+rounds) start d=
      walkChain v visit rounds ((link v d.bytes)^[n] start)
        (after d (n*(v.sectorsPerCluster+1))) := by
  induction n generalizing rounds with
  | zero => rw [Nat.zero_add,Nat.zero_mul,after_zero]; rfl
  | succ n ih =>
    have hbefore := ih (fun i hi => hgo i (Nat.lt_succ_of_lt hi)) (rounds+1)
    rw [show n+1+rounds=n+(rounds+1) by omega,hbefore,walkChain_on h (hgo n (Nat.lt_succ_self n)),
      Function.iterate_succ_apply',Nat.succ_mul]

end

/-- The first of the sectors where something stops the walk. -/
theorem blocked_first (h : Blocked d test k sector s count) :
    ∃ j<count, ¬Blocked d test k sector s j ∧
      (d.faults (k+j) false ((sector+(s+j))%2^32)=true ∨
        firstSlot test (sectorOf d.bytes ((sector+(s+j))%2^32))≠none) := by
  induction count generalizing s k with
  | zero => exact (not_blocked_zero h).elim
  | succ count ih =>
    by_cases hhere : d.faults k false ((sector+s)%2^32)=true ∨
        firstSlot test (sectorOf d.bytes ((sector+s)%2^32))≠none
    · exact ⟨0,Nat.succ_pos count,not_blocked_zero,hhere⟩
    · obtain ⟨j,hj,hfree,hstop⟩ := ih ((blocked_succ.mp h).resolve_left hhere)
      refine ⟨j+1,Nat.succ_lt_succ hj,fun hb => ?_,?_⟩
      · exact (blocked_succ.mp hb).elim hhere hfree
      · rwa [show k+(j+1)=k+1+j by omega,show s+(j+1)=s+1+j by omega]

/-- The first last round of a search that has one. -/
theorem last_round (h : ¬GoesOn v d test start) :
    ∃ n<chainRounds, LastRound v d test start n ∧ ∀ i<n, ¬LastRound v d test start i := by
  simp only [GoesOn,not_forall,not_not] at h
  obtain ⟨n,hn,hlast⟩ := h
  induction n using Nat.strong_induction_on with
  | _ n ih =>
    by_cases hbefore : ∃ i<n, LastRound v d test start i
    · obtain ⟨i,hi,hlast'⟩ := hbefore
      exact ih i hi (hi.trans hn) hlast'
    · exact ⟨n,hn,hlast,fun i hi h => hbefore ⟨i,hi,h⟩⟩

/-- A search goes round in a ring, and never comes to the end of the chain. -/
theorem GoesOn.not_ends (h : GoesOn v d test start) (n : ℕ) : ¬Ends ((link v d.bytes)^[n] start) := by
  intro hends
  obtain ⟨nodes,hchain⟩ := chain_iff_iterate.mpr ⟨n,hends⟩
  exact h nodes.length (chain_length_lt hchain fun _ h => h) (Or.inl hchain.stop_iterate)

/-- On an ideal disk such a search never stops, however many rounds it is given. -/
theorem goesOn_iff (hd : Faultless d) : GoesOn v d test start ↔ ¬Arrives v d test start := by
  have hfails : ∀ k c, ¬Fails v d k c := by
    rintro k c (⟨_,_,hf⟩ | hf) <;> exact absurd (congrFun₃ hd _ _ _ ▸ hf) Bool.false_ne_true
  have hlast : ∀ k c, Halts v d test k c ↔
      Ends c ∨ ∃ p∈clusterPlaces v c, onPlace test d.bytes p=true := by
    intro k c
    rw [Halts,or_iff_left (hfails k c)]
  constructor
  · rintro h ⟨n,hn⟩
    obtain ⟨nodes,hchain⟩ : ∃ nodes, Chain (link v d.bytes)
        (fun c => Ends c ∨ ∃ p∈clusterPlaces v c, onPlace test d.bytes p=true) start nodes :=
      chain_iff_iterate.mpr ⟨n,(hlast _ _).mp hn⟩
    exact h nodes.length (chain_length_lt hchain fun _ h => Or.inl h)
      ((hlast _ _).mpr hchain.stop_iterate)
  · exact fun h n _ hn => h ⟨n,hn⟩

/-- A slot of a directory is what a change of directory asks of the answer. -/
theorem folderAt_iff {p : Place} : FolderAt d.bytes p ↔
    0≤(answerAt d p).1.1 ∧ ∃ e, (answerAt d p).1.2=some e ∧ isDirectory e=true := by
  rw [FolderAt,answerAt]
  cases onPlace slotEnd d.bytes p with
  | true => simp
  | false => simp

/-- The last round of a search that comes to a slot. -/
theorem find_meets (h : Meets v d (stopTest name83) k c s a) (rounds : ℕ) :
    ∃ d', walkChain v (findVisit name83) (rounds+1) c (after d k)=
      some (some (answerAt d ((clusterToSector v c+s)%2^32,a)).1,d') := by
  obtain ⟨left,hleft⟩ : ∃ left, v.sectorsPerCluster=s+(left+1) :=
    ⟨v.sectorsPerCluster-s-1,by have := h.inside; omega⟩
  have hread : (after d (k+s)).faults 0 false ((clusterToSector v c+s)%2^32)=false := by
    rw [after_faults,h.read]
  have hfound : firstSlot (fun m a => slotEnd m a || slotHit name83 m a)
      (fun b => (after d (k+s)).bytes (sectorAddr ((clusterToSector v c+s)%2^32)+b))=some a := h.found
  have hvisit : ∃ d', findVisit name83 ((clusterToSector v c+s)%2^32) (after d (k+s))=
      (some (answerAt d ((clusterToSector v c+s)%2^32,a)).1,d') := by
    rw [findVisit,ataReadSector,hread,if_neg Bool.false_ne_true]
    dsimp only
    rw [hfound,answerAt,onPlace]
    dsimp only
    by_cases hend : slotEnd (sectorOf d.bytes ((clusterToSector v c+s)%2^32)) a=true
    · exact ⟨_,by rw [if_pos hend]; exact if_pos hend⟩
    · exact ⟨_,by rw [if_neg hend]; exact if_neg hend⟩
  obtain ⟨d',hvisit⟩ := hvisit
  rw [walkChain,if_pos (not_not.mp h.inRange)]
  dsimp only
  rw [hleft,walkSectors_on (findVisit_reads name83) h.free,walkSectors,Nat.zero_add,hvisit]
  exact ⟨d',rfl⟩

/-- The last round of a search that comes to no slot. -/
theorem find_misses (hlast : Halts v d (stopTest name83) k c)
    (hmeets : ∀ s a, ¬Meets v d (stopTest name83) k c s a) (rounds : ℕ) :
    ∃ w d', walkChain v (findVisit name83) (rounds+1) c (after d k)=some (w,d') ∧
      (w=none ∨ w=some (-1,none)) := by
  by_cases hends : Ends c
  · exact ⟨none,_,walkChain_ends hends _,Or.inl rfl⟩
  have hreads := findVisit_reads name83
  rw [walkChain,if_pos (not_not.mp hends)]
  dsimp only
  by_cases hb : Blocked d (stopTest name83) k (clusterToSector v c) 0 v.sectorsPerCluster
  · obtain ⟨j,hj,hfree,hstop⟩ := blocked_first hb
    rw [Nat.zero_add] at hstop
    obtain ⟨left,hleft⟩ : ∃ left, v.sectorsPerCluster=j+(left+1) :=
      ⟨v.sectorsPerCluster-j-1,by omega⟩
    cases hread : d.faults (k+j) false ((clusterToSector v c+j)%2^32) with
    | true =>
      rw [hleft,walkSectors_on hreads hfree,walkSectors,Nat.zero_add,findVisit,ataReadSector,
        after_faults,hread,if_pos rfl]
      exact ⟨_,_,rfl,Or.inr rfl⟩
    | false =>
      obtain ⟨a,ha⟩ := Option.ne_none_iff_exists'.mp
        (hstop.resolve_left (by rw [hread]; exact Bool.false_ne_true))
      exact (hmeets j a ⟨hends,hj,hfree,hread,ha⟩).elim
  · have hfat := ((halts_blocked.mp hlast).resolve_left hends).resolve_left hb
    have hwalk := walkSectors_on hreads hb 0
    rw [Nat.add_zero,walkSectors] at hwalk
    rw [hwalk]
    dsimp only
    rw [readEntry_after,hfat,if_pos rfl]
    exact ⟨none,_,walkChain_ends (by simp [Ends]) _,Or.inl rfl⟩

/-- A search that goes on has no answer. -/
theorem findEntry_goesOn (h : GoesOn v d (stopTest (nameTo83 name)) start) :
    findEntry v start name d=none := by
  have hwalk := walkChain_rounds (findVisit_reads (nameTo83 name)) h 0
  rw [Nat.add_zero,walkChain,if_pos (not_not.mp (h.not_ends chainRounds))] at hwalk
  rw [findEntry,hwalk]

/-- What a search answers that comes to a slot. -/
theorem findEntry_meets (hn : n<chainRounds)
    (hbefore : ∀ i<n, ¬LastRound v d (stopTest (nameTo83 name)) start i)
    (hm : Meets v d (stopTest (nameTo83 name)) (n*(v.sectorsPerCluster+1))
      ((link v d.bytes)^[n] start) s a) :
    ∃ d', findEntry v start name d=
      some ((answerAt d ((clusterToSector v ((link v d.bytes)^[n] start)+s)%2^32,a)).1,d') := by
  obtain ⟨left,hleft⟩ : ∃ left, chainRounds=n+(left+1) := ⟨chainRounds-n-1,by omega⟩
  obtain ⟨d',hfind⟩ := find_meets hm left
  exact ⟨d',by rw [findEntry,hleft,walkChain_rounds (findVisit_reads _) hbefore,hfind]⟩

/-- What a search answers that comes to no slot. -/
theorem findEntry_misses (hn : n<chainRounds)
    (hbefore : ∀ i<n, ¬LastRound v d (stopTest (nameTo83 name)) start i)
    (hlast : LastRound v d (stopTest (nameTo83 name)) start n)
    (hmeets : ∀ s a, ¬Meets v d (stopTest (nameTo83 name)) (n*(v.sectorsPerCluster+1))
      ((link v d.bytes)^[n] start) s a) :
    ∃ d', findEntry v start name d=some ((-1,none),d') := by
  obtain ⟨left,hleft⟩ : ∃ left, chainRounds=n+(left+1) := ⟨chainRounds-n-1,by omega⟩
  obtain ⟨w,d',hfind,hw⟩ := find_misses hlast hmeets left
  refine ⟨d',?_⟩
  rw [findEntry,hleft,walkChain_rounds (findVisit_reads _) hbefore,hfind]
  rcases hw with rfl | rfl
  · rfl
  · rfl

/-- A search from the root leads to a directory, if anywhere, exactly when it goes
on for ever or its last round comes to the slot of a directory. -/
theorem leadsFromRoot_meets : LeadsFromRoot v d name ↔
    GoesOn v d (stopTest (nameTo83 name)) v.rootCluster ∨
      MeetsFolder v d (nameTo83 name) v.rootCluster := by
  constructor
  · intro h
    by_cases hgo : GoesOn v d (stopTest (nameTo83 name)) v.rootCluster
    · exact Or.inl hgo
    obtain ⟨n,hn,hlast,hbefore⟩ := last_round hgo
    by_cases hmeets : ∃ s a, Meets v d (stopTest (nameTo83 name)) (n*(v.sectorsPerCluster+1))
        ((link v d.bytes)^[n] v.rootCluster) s a
    · obtain ⟨s,a,hm⟩ := hmeets
      obtain ⟨d',hfind⟩ := findEntry_meets hn hbefore hm
      exact Or.inr ⟨n,s,a,hn,hbefore,hm,folderAt_iff.mpr (h (_,d') hfind)⟩
    · obtain ⟨d',hfind⟩ := findEntry_misses hn hbefore hlast fun s a hm => hmeets ⟨s,a,hm⟩
      have hneg : (0 : ℤ)≤-1 := (h _ hfind).1
      omega
  · rintro (hgo | ⟨n,s,a,hn,hbefore,hm,hfolder⟩) r hr
    · rw [findEntry_goesOn hgo] at hr
      cases hr
    · obtain ⟨d',hfind⟩ := findEntry_meets hn hbefore hm
      rw [hfind] at hr
      obtain rfl := Option.some.inj hr
      exact folderAt_iff.mp hfolder

/-- On an ideal disk and for a root directory with an end: the first slot where the
search stops is that of a directory. -/
theorem leadsFromRoot_iff (hd : Faultless d) (hchain : Chain (link v d.bytes) Ends v.rootCluster nodes) :
    LeadsFromRoot v d name ↔
      ∃ p, (places v nodes).find? (onPlace (stopTest (nameTo83 name)) d.bytes)=some p ∧
        FolderAt d.bytes p := by
  have hfind : findEntry v v.rootCluster name d=some (chosen d (-1,none) (answerAt d)
      ((places v nodes).find? (onPlace (stopTest (nameTo83 name)) d.bytes))) := by
    rw [findEntry,walkChain_places hd (findVisit_selects hd) hchain
      (chain_length_lt hchain fun _ h => h).le]
    cases (places v nodes).find? (onPlace (stopTest (nameTo83 name)) d.bytes) <;> rfl
  constructor
  · intro h
    obtain ⟨hpos,e,hentry,hdir⟩ := h _ hfind
    cases hp : (places v nodes).find? (onPlace (stopTest (nameTo83 name)) d.bytes) with
    | none =>
      rw [hp] at hentry
      cases hentry
    | some p =>
      rw [hp] at hpos hentry
      exact ⟨p,rfl,folderAt_iff.mpr ⟨hpos,e,hentry,hdir⟩⟩
  · rintro ⟨p,hp,hfolder⟩ r hr
    rw [hfind,hp,Option.some.injEq] at hr
    subst hr
    exact folderAt_iff.mp hfolder

/-- A failed search for a directory leaves the current directory alone. -/
theorem enterDirectory_keeps {r : ℤ} {cwd' : ℕ} {d' : Disk}
    (h : enterDirectory v cwd name d=some (r,cwd',d')) (hr : r≠0) : cwd'=cwd := by
  rw [enterDirectory] at h
  split at h
  · cases h
  · simp only [Option.some.injEq,Prod.mk.injEq] at h
    exact h.2.1.symm
  · split at h
    · simp only [Option.some.injEq,Prod.mk.injEq] at h
      exact h.2.1.symm
    · split at h
      · simp only [Option.some.injEq,Prod.mk.injEq] at h
        exact (hr h.1.symm).elim
      · simp only [Option.some.injEq,Prod.mk.injEq] at h
        exact h.2.1.symm

/-- A search fails exactly when it ends at no directory. -/
theorem enterDirectory_fails : (∃ r cwd' d', enterDirectory v cwd name d=some (r,cwd',d') ∧ r≠0) ↔
    ∃ r, findEntry v cwd name d=some r ∧ ¬(0≤r.1.1 ∧ ∃ e, r.1.2=some e ∧ isDirectory e=true) := by
  rw [enterDirectory]
  rcases findEntry v cwd name d with _ | ⟨⟨r,e⟩,d'⟩
  · simp
  · cases e with
    | none => simp [fatErrNotfound]
    | some e =>
      by_cases hr : r<0
      · simp [hr,fatErrNotfound]
      · by_cases hdir : isDirectory e=true
        · simp [hr,hdir,not_lt.mp hr]
        · simp [hr,hdir,fatErrNotdir]

/-- A failed change of directory leaves the current directory alone, unless the
name is absolute, the current directory is not the root and the search for the rest
of the name from there stops, but not at the slot of a directory. -/
theorem changeDir_keeps_iff (v : Volume) (cwd : ℕ) (name : List UInt8) (d : Disk) :
    (∀ r cwd' d', fat32ChangeDir v cwd name d=some (r,cwd',d') → r≠0 → cwd'=cwd) ↔
      name.head?≠some 0x2F ∨ name=[0x2F] ∨ cwd=v.rootCluster ∨
        GoesOn v d (stopTest (nameTo83 name.tail)) v.rootCluster ∨
        MeetsFolder v d (nameTo83 name.tail) v.rootCluster := by
  rw [← leadsFromRoot_meets]
  cases name with
  | nil =>
    refine iff_of_true (fun r cwd' d' h hr => ?_) (Or.inl (by simp))
    simp only [fat32ChangeDir,Option.some.injEq,Prod.mk.injEq] at h
    exact (hr h.1.symm).elim
  | cons c rest =>
    by_cases hslash : c=0x2F
    · subst hslash
      by_cases hrest : rest=[]
      · subst hrest
        refine iff_of_true (fun r cwd' d' h hr => ?_) (Or.inr (Or.inl rfl))
        simp only [fat32ChangeDir,if_true,Option.some.injEq,Prod.mk.injEq] at h
        exact (hr h.1.symm).elim
      · have hchange : fat32ChangeDir v cwd (0x2F::rest) d=
            enterDirectory v v.rootCluster rest d := by
          rw [fat32ChangeDir,if_pos rfl,if_neg hrest]
        rw [hchange]
        constructor
        · intro h
          by_cases hroot : cwd=v.rootCluster
          · exact Or.inr (Or.inr (Or.inl hroot))
          · refine Or.inr (Or.inr (Or.inr fun r hr => ?_))
            by_contra hnot
            obtain ⟨r',cwd',d',henter,hne⟩ := enterDirectory_fails.mpr ⟨r,hr,hnot⟩
            exact hroot ((h r' cwd' d' henter hne).symm.trans (enterDirectory_keeps henter hne))
        · rintro (h | h | h | h) r cwd' d' henter hne
          · exact (h rfl).elim
          · exact (hrest (List.cons.inj h).2).elim
          · exact (enterDirectory_keeps henter hne).trans h.symm
          · obtain ⟨r',hr',hnot⟩ := enterDirectory_fails.mp ⟨r,cwd',d',henter,hne⟩
            exact (hnot (h r' hr')).elim
    · refine iff_of_true (fun r cwd' d' h hr => ?_) (Or.inl (by simpa using hslash))
      rw [fat32ChangeDir,if_neg hslash] at h
      exact enterDirectory_keeps h hr

/-- A directory is made and entered; an absolute name that is not found then leads
to the root. -/
theorem changeDir_leaves : ¬∀ (v : Volume) (d : Disk) (cwd : ℕ) (name : List UInt8) (r : ℤ)
    (cwd' : ℕ) (d' : Disk), fat32ChangeDir v cwd name d=some (r,cwd',d') → r≠0 → cwd'=cwd := by
  intro h
  have hrun : ((fat32Mkdir sampleVolume 2 [0x42] sampleDisk).bind fun made =>
      (fat32ChangeDir sampleVolume 2 [0x42] made.2).bind fun entered =>
        (fat32ChangeDir sampleVolume entered.2.1 [0x2F,0x43] entered.2.2).map fun failed =>
          (made.1,entered.1,entered.2.1,failed.1,failed.2.1))=some (0,0,3,-1,2) := by decide +kernel
  obtain ⟨made,_,hrun⟩ := Option.bind_eq_some_iff.mp hrun
  obtain ⟨entered,_,hrun⟩ := Option.bind_eq_some_iff.mp hrun
  obtain ⟨⟨r,cwd',d'⟩,hfailed,hrun⟩ := Option.map_eq_some_iff.mp hrun
  simp only [Prod.mk.injEq] at hrun
  obtain ⟨_,_,hcwd,hr,hcwd'⟩ := hrun
  have := h _ _ _ _ r cwd' d' hfailed (by omega)
  omega

end OvsbMk.FatMoves
