import OvsbMk.FatFolders
import OvsbMk.FatSpace

/-!
# What the calls answer on an ideal disk

Without failures every walk ends, acts on the first slot that passes its test or on
none, and each call of the driver has one answer for each case. Sizes and clusters
apart, these are all the outcomes there are.
-/

namespace OvsbMk.FatAnswers

open ByteMemory BlockDisk Fat32 Chains FatTable FatData FatDirectory FatEntries FatFiles FatChanges
  FatFaults FatWalks FatOperations FatFolders FatSpace

variable {v : Volume} {m : Bytes} {d d' : Disk} {a b cwd f : ℕ} {nodes : List ℕ}
  {name name83 oldname newname : List UInt8}

/-- A walk on an ideal disk finds no slot and leaves the disk alone, or acts on the first
slot that passes. -/
theorem ideal_walk {ρ : Type} {visit : ℕ → Disk → Option ρ×Disk} {p : ℕ → Bool}
    {bad : ρ → Disk → Prop} {act : ℕ → ρ → Disk → Prop} (hv : Mounted v) (hd : Faultless d)
    (hchain : FileChain v d.bytes cwd nodes) (h : Visits visit (slots v nodes) d p bad act)
    (hbad : ∀ r d', bad r d' → d.Faulty) :
    ((slots v nodes).find? p=none ∧ walkChain v visit chainRounds cwd d=some (none,d)) ∨
      ∃ a r d', (slots v nodes).find? p=some a ∧
        walkChain v visit chainRounds cwd d=some (some r,d') ∧ act a r d' := by
  obtain ⟨w,d',hw,hout⟩ := walk_directory hv (sparesTable_of_faultless hd) hchain h
  cases hout with
  | inl hnone =>
    obtain ⟨rfl,hfind,hidle⟩ := hnone
    rw [Idle.eq hd hidle] at hw
    exact Or.inl ⟨hfind,hw⟩
  | inr hsome =>
    obtain ⟨r,rfl,hend⟩ := hsome
    cases hend with
    | inl hfail => exact (hd.not_faulty (hbad r d' hfail)).elim
    | inr hact =>
      obtain ⟨a,hfind,hact⟩ := hact
      exact Or.inr ⟨a,r,d',hfind,hw,hact⟩

/-- Creating an entry fills the first free slot, if there is one. -/
theorem createEntryAt_answer (hv : Mounted v) (hd : Faultless d)
    (hchain : FileChain v d.bytes cwd nodes) (name : List UInt8) (attr : ℕ) :
    ((slots v nodes).find? (slotFree d.bytes)=none ∧
      createEntryAt v cwd name attr d=some (fatErrNospace,d)) ∨
    ∃ a, (slots v nodes).find? (slotFree d.bytes)=some a ∧
      createEntryAt v cwd name attr d=
        some (0,d.with (setEntry (nameTo83 name) attr d.bytes a)) := by
  have hvisit := @editVisit_visits d (slots v nodes) slotFree (setEntry (nameTo83 name) attr)
    movable_free (editor_setEntry (nameTo83 name) attr) fatErrIo fatErrIo 0
  unfold createEntryAt
  rw [createVisit_eq]
  cases ideal_walk hv hd hchain hvisit (fun _ _ hfail => hfail.2.2) with
  | inl hnone =>
    rw [hnone.2]
    exact Or.inl ⟨hnone.1,rfl⟩
  | inr hsome =>
    obtain ⟨a,r,d',hfind,hw,rfl,hl,hb⟩ := hsome
    rw [hw,hl.eq_with hd,hb]
    exact Or.inr ⟨a,hfind,rfl⟩

/-- Deleting an entry erases the slot where the name is found. -/
theorem deleteFile_found (hv : Mounted v) (hd : Faultless d)
    (hchain : FileChain v d.bytes cwd nodes) (hres : Resolves v d.bytes nodes (nameTo83 name) a) :
    fat32DeleteFile v cwd name d=some (0,d.with (eraseEntry d.bytes a)) := by
  unfold fat32DeleteFile deleteEntryAt
  cases ideal_walk hv hd hchain (deleteVisit_visits (nameTo83 name)) (fun _ _ hfail => hfail.2.2)
      with
  | inl hnone =>
    rw [hres.first] at hnone
    cases hnone.1
  | inr hsome =>
    obtain ⟨b,r,d',hfind,hw,hact⟩ := hsome
    rw [hres.first,Option.some.injEq] at hfind
    subst hfind
    cases hact with
    | inl hend =>
      rw [hres.live] at hend
      cases hend.1
    | inr hlive =>
      obtain ⟨_,rfl,hl,hb⟩ := hlive
      rw [hw,hl.eq_with hd,hb]

/-- Deleting a name that is not found changes nothing. -/
theorem deleteFile_missing (hv : Mounted v) (hd : Faultless d)
    (hchain : FileChain v d.bytes cwd nodes) (hmiss : Missing v d.bytes nodes (nameTo83 name)) :
    fat32DeleteFile v cwd name d=some (-1,d) := by
  unfold fat32DeleteFile deleteEntryAt
  cases ideal_walk hv hd hchain (deleteVisit_visits (nameTo83 name)) (fun _ _ hfail => hfail.2.2)
      with
  | inl hnone => rw [hnone.2]
  | inr hsome =>
    obtain ⟨b,r,d',hfind,hw,hact⟩ := hsome
    have hend := hmiss b hfind
    cases hact with
    | inl hidle =>
      obtain ⟨_,rfl,hidle⟩ := hidle
      rw [hw,Idle.eq hd hidle]
    | inr hlive =>
      rw [hend] at hlive
      cases hlive.1

/-- Renaming changes the name in the first slot in use that has the old one. -/
theorem rename_answer (hv : Mounted v) (hd : Faultless d) (hchain : FileChain v d.bytes cwd nodes)
    (oldname newname : List UInt8) :
    ((slots v nodes).find? (slotNamed (nameTo83 oldname) d.bytes)=none ∧
      fat32Rename v cwd oldname newname d=some (fatErrNotfound,d)) ∨
    ∃ a, (slots v nodes).find? (slotNamed (nameTo83 oldname) d.bytes)=some a ∧
      fat32Rename v cwd oldname newname d=
        some (0,d.with (setName d.bytes a (nameTo83 newname))) := by
  have hvisit := @editVisit_visits d (slots v nodes) (slotNamed (nameTo83 oldname))
    (fun m a => setName m a (nameTo83 newname)) (movable_named (nameTo83 oldname))
    (editor_setName (nameTo83 newname)) fatErrIo fatErrIo 0
  unfold fat32Rename
  rw [renameVisit_eq]
  cases ideal_walk hv hd hchain hvisit (fun _ _ hfail => hfail.2.2) with
  | inl hnone =>
    rw [hnone.2]
    exact Or.inl ⟨hnone.1,rfl⟩
  | inr hsome =>
    obtain ⟨a,r,d',hfind,hw,rfl,hl,hb⟩ := hsome
    rw [hw,hl.eq_with hd,hb]
    exact Or.inr ⟨a,hfind,rfl⟩

/-- The visitor of `fat32_rmdir` does not touch files. -/
theorem rmdirVisit_file {l : List ℕ} (name83 : List UInt8) :
    Visits (rmdirVisit v name83) l d (slotNamed name83 d.bytes)
      (fun r d' => r=some fatErrIo ∧ Failed d d')
      fun a r _ => folderAt d.bytes a=false → r=some fatErrNotdir := by
  rw [rmdirVisit_search]
  apply searchVisit_visits (movable_named name83) (fun _ hfailed => ⟨rfl,hfailed⟩)
  intro lba x d1 hlba hx hsub hfirst hidle
  rw [entryAt_move]
  cases hdir : isDirectory (entryAt d.bytes (lba*512+x)) with
  | false =>
    rw [if_neg Bool.false_ne_true]
    exact ⟨_,_,rfl,Or.inr fun _ => rfl⟩
  | true =>
    rw [if_pos rfl]
    have hvoid : ∀ r : Option ℤ, folderAt d.bytes (lba*512+x)=false → r=some fatErrNotdir := by
      intro r hfile
      rw [folderAt,hdir] at hfile
      cases hfile
    split
    next => exact ⟨_,_,rfl,Or.inr (hvoid _)⟩
    next => exact ⟨_,_,rfl,Or.inr (hvoid _)⟩
    next =>
      split
      next => exact ⟨_,_,rfl,Or.inr (hvoid _)⟩
      next => exact ⟨_,_,rfl,Or.inr (hvoid _)⟩

/-- Removing a directory: it is not there, is a file, shows entries, or goes with its
clusters. -/
theorem rmdir_answer (hv : Mounted v) (hd : Faultless d) (hchain : FileChain v d.bytes cwd nodes)
    (name : List UInt8) (chain : ℕ → List ℕ) (hzero : chain 0=[])
    (hobject : ∀ a∈slots v nodes, slotNamed (nameTo83 name) d.bytes a=true →
      folderAt d.bytes a=true → target d.bytes a≠0 →
        FileChain v d.bytes (target d.bytes a) (chain (target d.bytes a)) ∧
          chain (target d.bytes a)≠[]) :
    ((slots v nodes).find? (slotNamed (nameTo83 name) d.bytes)=none ∧
      fat32Rmdir v cwd name d=some (fatErrNotfound,d)) ∨
    ∃ a, (slots v nodes).find? (slotNamed (nameTo83 name) d.bytes)=some a ∧
      (folderAt d.bytes a=false ∧ fat32Rmdir v cwd name d=some (fatErrNotdir,d) ∨
        folderAt d.bytes a=true ∧ ¬ShowsEmpty v d.bytes (target d.bytes a) ∧
          fat32Rmdir v cwd name d=some (fatErrNotempty,d) ∨
        folderAt d.bytes a=true ∧
          (target d.bytes a≠0 → ShowsEmpty v d.bytes (target d.bytes a)) ∧
          fat32Rmdir v cwd name d=some (0,d.with
            (eraseEntry (freeLinks v d.bytes (chain (target d.bytes a))) a))) := by
  have hvisit := rmdirVisit_visits hv (sparesTable_of_faultless hd) chain hchain.inRange hzero
      hobject
  have hfiles := @rmdirVisit_file v d (slots v nodes) (nameTo83 name)
  unfold fat32Rmdir
  cases ideal_walk hv hd hchain hvisit (fun _ _ hfail => hfail.2.2) with
  | inl hnone =>
    rw [hnone.2]
    exact Or.inl ⟨hnone.1,rfl⟩
  | inr hsome =>
    obtain ⟨a,r,d',hfind,hw,hact⟩ := hsome
    have hkind : folderAt d.bytes a=false → r=some fatErrNotdir := by
      rcases ideal_walk hv hd hchain hfiles (fun _ _ hfail => hfail.2.2) with
        ⟨hnone,_⟩ | ⟨b,r',d2,hfind',hw',hfile⟩
      · rw [hfind] at hnone
        cases hnone
      · rw [hfind,Option.some.injEq] at hfind'
        subst hfind'
        rw [hw,Option.some.injEq,Prod.mk.injEq,Option.some.injEq] at hw'
        rw [hw'.1]
        exact hfile
    refine Or.inr ⟨a,hfind,?_⟩
    rw [hw]
    rcases hact with ⟨rfl,hidle,hfile⟩ | ⟨rfl,hidle,hshows⟩ |
      ⟨hfold,hl,hempty,⟨_,_,hfail⟩ | ⟨rfl,hb⟩⟩
    · rw [Idle.eq hd hidle]
      exact Or.inl ⟨hfile,rfl⟩
    · rw [Idle.eq hd hidle]
      refine Or.inr (Or.inl ⟨?_,hshows,rfl⟩)
      rw [← Bool.not_eq_false]
      intro hfile
      exact absurd (hkind hfile) (by decide)
    · exact (hd.not_faulty ⟨_,_,hfail⟩).elim
    · rw [hl.eq_with hd,hb]
      exact Or.inr (Or.inr ⟨hfold,fun hne => (hempty hne).resolve_left
        fun hfail => hd.not_faulty ⟨_,_,hfail⟩,rfl⟩)

/-- The new entry of a directory is found, unless its name starts with the mark of deleted
entries. -/
theorem folder_entered (hmiss : Missing v m nodes name83) (hlen : name83.length=11)
    (hhead : name83.headD 0≠0xE5) (hslot : (slots v nodes).find? (slotFree m)=some a) :
    (slots v nodes).find? (slotFolder name83 (setEntry name83 0x10 m a))=some a := by
  cases hfind : (slots v nodes).find? (slotFolder name83 (setEntry name83 0x10 m a)) with
  | some b => rw [(folder_created hlen hmiss hslot hfind).1]
  | none =>
    have hnot := List.find?_eq_none.mp hfind a (List.mem_of_find?_eq_some hslot)
    obtain ⟨hname,_,hattr⟩ := @setEntry_spec m a 0x10 name83 hlen (by norm_num)
    refine (hnot ?_).elim
    rw [slotFolder,Bool.and_eq_true,hit_iff]
    refine ⟨⟨?_,?_,hname⟩,?_⟩
    · rw [first_of_name hname]
      exact hhead
    · rw [hattr]
      norm_num
    · rw [isDirectory,hattr]
      rfl

/-- What making a directory answers. -/
inductive MkdirAnswer (v : Volume) (d : Disk) (cwd : ℕ) (nodes : List ℕ) (name83 : List UInt8) :
    ℤ → Disk → Prop where
  /-- No cluster is free. -/
  | noCluster (h : ∀ x, InRange v x → link v d.bytes x≠0) :
    MkdirAnswer v d cwd nodes name83 fatErrNospace d
  /-- The name is there. -/
  | exists (a : ℕ) (h : Resolves v d.bytes nodes name83 a) :
    MkdirAnswer v d cwd nodes name83 fatErrExists d
  /-- No slot is free. -/
  | noSlot (h : Missing v d.bytes nodes name83)
    (hslot : (slots v nodes).find? (slotFree d.bytes)=none) :
    MkdirAnswer v d cwd nodes name83 fatErrNospace d
  /-- The entry looks deleted at once. -/
  | lost (a : ℕ) (h : Missing v d.bytes nodes name83)
    (hslot : (slots v nodes).find? (slotFree d.bytes)=some a) (hhead : name83.headD 0=0xE5) :
    MkdirAnswer v d cwd nodes name83 (-1) (d.with (setEntry name83 0x10 d.bytes a))
  /-- The directory is made. -/
  | made (a f : ℕ) (h : Missing v d.bytes nodes name83)
    (hslot : (slots v nodes).find? (slotFree d.bytes)=some a) (hhead : name83.headD 0≠0xE5)
    (hf : InRange v f) (hz : link v d.bytes f=0) :
    MkdirAnswer v d cwd nodes name83 0
      (d.with (attached v (setEntry name83 0x10 d.bytes a) a f cwd))

/-- The walk of `fat32_mkdir` that gives the new entry its cluster. -/
theorem mkdirWalk_answer (hv : Mounted v) (hd : Faultless d)
    (hchain : FileChain v d.bytes cwd nodes) (hf : InRange v f)
    (name83 : List UInt8) :
    ((slots v nodes).find? (slotFolder name83 d.bytes)=none ∧
      walkChain v (mkdirVisit v cwd f name83) chainRounds cwd d=some (none,d)) ∨
    ∃ b, (slots v nodes).find? (slotFolder name83 d.bytes)=some b ∧
      walkChain v (mkdirVisit v cwd f name83) chainRounds cwd d=
        some (some 0,d.with (attached v d.bytes b f cwd)) := by
  have hvisit := @mkdirVisit_visits v d (slots v nodes) hv (sparesTable_of_faultless hd) cwd f hf
    (fun hfail => hd.not_faulty ⟨_,_,hfail⟩) name83
  cases ideal_walk hv hd hchain hvisit (fun _ _ hfail => hfail.2.2) with
  | inl hnone => exact Or.inl hnone
  | inr hsome =>
    obtain ⟨b,r,d',hfind,hw,rfl,hl,hb⟩ := hsome
    rw [hl.eq_with hd,hb] at hw
    exact Or.inr ⟨b,hfind,hw⟩

/-- Making a directory has one of these answers. -/
theorem mkdir_answer (hv : Mounted v) (hd : Faultless d) (hchain : FileChain v d.bytes cwd nodes)
    (name : List UInt8) : ∃ r d', fat32Mkdir v cwd name d=some (r,d') ∧
      MkdirAnswer v d cwd nodes (nameTo83 name) r d' := by
  unfold fat32Mkdir
  rcases hv.findFree hd with ⟨f,hf,hfr,hfz,_⟩ | ⟨hf,hnone⟩
  swap
  · rw [hf]
    exact ⟨_,d,rfl,.noCluster hnone⟩
  have hpos := hfr.1
  rw [hf]
  dsimp only
  rw [if_neg (by omega)]
  obtain ⟨r1,d1,hfind,hidle,hfound⟩ := findEntry_outcome hv (sparesTable_of_faultless hd) hchain
      name
  have hsame := Idle.eq hd hidle
  subst hsame
  rw [hfind]
  dsimp only
  rcases hfound with ⟨rfl,hmiss⟩ | ⟨a,hres,_,hnonneg⟩
  swap
  · rw [if_pos hnonneg]
    exact ⟨_,d1,rfl,.exists a hres⟩
  have hmissing := hmiss.resolve_left hd.not_faulty
  rw [if_neg (by norm_num)]
  cases createEntryAt_answer hv hd hchain name 0x10 with
  | inl hfull =>
    rw [hfull.2]
    exact ⟨_,d1,rfl,.noSlot hmissing hfull.1⟩
  | inr hfree =>
    obtain ⟨a,hslot,hcreate⟩ := hfree
    rw [hcreate]
    dsimp only
    rw [if_neg (by simp)]
    have hmem := List.mem_of_find?_eq_some hslot
    have hchain2 :
        FileChain v (d1.with (setEntry (nameTo83 name) 0x10 d1.bytes a)).bytes cwd nodes :=
      hchain.congr fun c hc => link_congr fun b hb => (editor_setEntry _ _).outside _ a b
        (slot_not_link hv hchain.inRange hmem (hchain.inRange c hc) hb)
    have hwalk := mkdirWalk_answer hv (hd.with (setEntry (nameTo83 name) 0x10 d1.bytes a)) hchain2
        hfr
      (nameTo83 name)
    rw [with_bytes] at hwalk
    cases hwalk with
    | inl hlost =>
      rw [hlost.2]
      refine ⟨_,_,rfl,.lost a hmissing hslot ?_⟩
      by_contra hhead
      rw [folder_entered hmissing (nameTo83_length name) hhead hslot] at hlost
      cases hlost.1
    | inr hmade =>
      obtain ⟨b,hfolder,hw⟩ := hmade
      obtain ⟨rfl,hhead⟩ := folder_created (nameTo83_length name) hmissing hslot hfolder
      rw [hw]
      exact ⟨_,_,rfl,.made b f hmissing hslot hhead hfr hfz⟩

/-- A text along the beginning of a chain. -/
theorem holds_prefix {l added : List ℕ} {text : ℕ → UInt8} {n k : ℕ}
    (hv : Mounted v) (h : Holds v m (l++added) text n) (hk : k≤n)
    (hfit : k≤l.length*clusterBytes v) :
    Holds v m l text k := by
  intro i hi
  obtain ⟨c,hc,htext⟩ := h i (by omega)
  have hlt : i/clusterBytes v<l.length :=
    (Nat.div_lt_iff_lt_mul (clusterBytes_pos hv)).mpr (by omega)
  rw [List.getElem?_append_left hlt] at hc
  exact ⟨c,hc,htext⟩

/-- What a write to a file answers, and what it leaves on the clusters. -/
inductive WriteAnswer (v : Volume) (d : Disk) (a n : ℕ) (l : List ℕ) (buffer : ℕ → UInt8) :
    ℤ → Disk → Prop where
  /-- An empty file got no cluster. -/
  | noCluster (hl : l=[]) : WriteAnswer v d a n l buffer (-1) d
  /-- The bytes went to the chain as far as it goes, and the entry was not updated. -/
  | cut (r : ℤ) (f : ℕ) (m2 : Bytes) (added : List ℕ) (hr : r<0)
    (hstored : Stored v d.bytes m2 l added (target d.bytes a) f)
    (hun : Unattached v d m2 n (l++added))
    (hholds : ∀ k, k<2^31 → k≤l.length*clusterBytes v → Holds v m2 l buffer k) :
    WriteAnswer v d a n l buffer r (d.with m2)
  /-- All bytes are on the chain and the entry was updated. -/
  | done (f : ℕ) (m2 : Bytes) (added : List ℕ) (hn : n<2^31)
    (hstored : Stored v d.bytes m2 l added (target d.bytes a) f)
    (hholds : Holds v m2 (l++added) buffer n) :
    WriteAnswer v d a n l buffer n (d.with (updatedEntry f n m2 a))

/-- Writing a file whose clusters are apart from its directory has one of these answers. -/
theorem writeFile_answer (hv : Mounted v) (hd : Faultless d)
    (hchain : FileChain v d.bytes cwd nodes)
    (hres : Resolves v d.bytes nodes (nameTo83 name) a) {l : List ℕ}
    (hl : HasChain v d.bytes (target d.bytes a) l) (hapart : ∀ x∈l, x∉nodes) {n : ℕ} (hn : n<2^32)
    (buffer : Bytes) : ∃ r d', fat32WriteFile v cwd name buffer n d=some (r,d') ∧
      WriteAnswer v d a n l buffer r d' := by
  obtain ⟨k,hk,hfind⟩ := Resolves.findEntry hv hd hchain hres
  rcases store_exact hv hd buffer hl hn with
    ⟨rfl,hstart,hnone⟩ | ⟨f,d1,r,m2,added,hstart,hwrite,hplaced,hr⟩
  · exact ⟨_,d,fat32WriteFile_refused hfind hk hstart,.noCluster rfl⟩
  have hneed := @need_le v n added.length l.length hv
  rw [← List.length_append] at hneed
  have hholds := hplaced.holds
  rcases hr with ⟨rfl,henough⟩ | ⟨rfl,hfull,hshort⟩
  · have hfit := (hneed.mp henough).1
    rw [Nat.min_eq_left hfit] at hholds
    by_cases hsmall : n<2^31
    · have hpos : 0≤toInt n := by
        rw [toInt_of_lt hsmall]
        omega
      obtain ⟨hdir2,hres2,_⟩ := Grown.resolves hv hchain hplaced.stored.grown hapart hres
      have hend := fat32WriteFile_stored hfind hk hstart hwrite hpos
      rw [update_eq hv (hd.with m2) hdir2 hres2,toInt_of_lt hsmall] at hend
      exact ⟨_,_,hend,.done f m2 added hsmall hplaced.stored hholds⟩
    · have hneg : toInt n<0 := by
        rw [toInt,Nat.mod_eq_of_lt hn]
        split <;> omega
      exact ⟨_,_,fat32WriteFile_failed hfind hk hstart hwrite hneg,.cut _ f m2 added hneg
        hplaced.stored (Or.inr (Or.inl (by omega))) fun k hk hle =>
          holds_prefix hv hholds (by omega) hle⟩
  · have hlong : (l++added).length*clusterBytes v<n := by
      by_contra hge
      refine absurd (hneed.mpr ⟨by omega,fun hempty => Nat.pos_of_ne_zero fun hzero => ?_⟩)
          (by omega)
      apply hplaced.stored.nonempty
      rw [List.length_eq_zero_iff.mp hempty,List.length_eq_zero_iff.mp hzero,List.append_nil]
    rw [Nat.min_eq_right hlong.le] at hholds
    refine ⟨_,_,fat32WriteFile_failed hfind hk hstart hwrite (by norm_num),.cut _ f m2 added
      (by norm_num) hplaced.stored (Or.inr (Or.inr ⟨hfull,hlong⟩)) fun k _ hle => ?_⟩
    refine holds_prefix hv hholds ?_ hle
    rw [List.length_append,Nat.add_mul]
    omega

end OvsbMk.FatAnswers
