import OvsbMk.FatWalks

/-!
# What the operations of the driver do

For each operation, all it can do to a disk whose table can be transferred: an
error that leaves the contents alone, or one or two of the changes of the tree.
-/

namespace OvsbMk.FatOperations

open ByteMemory BlockDisk Fat32 Chains FatTable FatData FatDirectory FatEntries FatTree FatFiles
  FatChanges FatFaults FatWalks

variable {v : Volume} {m : Bytes} {d : Disk} {a cwd attr size : ℕ} {nodes : List ℕ}
  {name oldname newname : List UInt8} {t : Tree}

/-- A walk of the driver through a directory. -/
theorem walk_directory {ρ : Type} {visit : ℕ → Disk → Option ρ×Disk} {p : ℕ → Bool}
    {bad : ρ → Disk → Prop} {act : ℕ → ρ → Disk → Prop} (hv : Mounted v) (hs : SparesTable v d)
    (hchain : FileChain v d.bytes cwd nodes) (h : Visits visit (slots v nodes) d p bad act) :
    ∃ w d', walkChain v visit chainRounds cwd d=some (w,d') ∧
      Outcome (slots v nodes) p d bad act w d' :=
  walkChain_visits hv hs h hchain (FileChain.length_le hv hchain) (fun _ ha => ha) (Idle.refl d)

/-- The sector of a slot as a result. -/
theorem slot_result_nonneg (hv : Mounted v) (hr : ∀ c∈nodes, InRange v c) (ha : a∈slots v nodes) :
    0≤toInt (a/512) := by
  obtain ⟨c,hc,hbyte⟩ := slot_dataByte ha
  have h1 := (hbyte 0 (by norm_num)).2
  have h2 := hv.cluster_le (hr c hc)
  have h3 : v.totalSectors32≤2^28 := hv.addressed
  simp only [dataAddr,clusterBytes,sectorSize] at h1
  rw [toInt,if_pos (by omega)]
  exact Int.natCast_nonneg _

/-- The name is not found: the search stops at the end of the directory or does
not stop. -/
def Missing (v : Volume) (m : Bytes) (nodes : List ℕ) (name83 : List UInt8) : Prop :=
  ∀ a, (slots v nodes).find? (stopTest name83 m)=some a → slotEnd m a=true

/-- What `find_entry` answers. -/
theorem findEntry_outcome (hv : Mounted v) (hs : SparesTable v d)
    (hchain : FileChain v d.bytes cwd nodes) (name : List UInt8) :
    ∃ r d', findEntry v cwd name d=some (r,d') ∧ Idle d d' ∧
      (r=(-1,none) ∧ (d.Faulty ∨ Missing v d.bytes nodes (nameTo83 name)) ∨
        ∃ a, Resolves v d.bytes nodes (nameTo83 name) a ∧ r.2=some (entryAt d.bytes a) ∧ 0≤r.1) := by
  obtain ⟨w,d',hw,hout⟩ := walk_directory hv hs hchain (findVisit_visits (nameTo83 name))
  rw [findEntry,hw]
  rcases hout with ⟨rfl,hnone,hidle⟩ | ⟨r,rfl,⟨rfl,hfail⟩ | ⟨a,hfind,rfl,hidle⟩⟩
  · refine ⟨_,d',rfl,hidle,Or.inl ⟨rfl,Or.inr fun a ha => ?_⟩⟩
    rw [hnone] at ha
    cases ha
  · exact ⟨_,d',rfl,hfail.1,Or.inl ⟨rfl,Or.inl hfail.2⟩⟩
  · refine ⟨_,d',rfl,hidle,?_⟩
    cases hend : slotEnd d.bytes a with
    | true =>
      refine Or.inl ⟨by rw [findAnswer,if_pos hend],Or.inr fun b hb => ?_⟩
      rw [hfind] at hb
      obtain rfl : a=b := by simpa using hb
      exact hend
    | false =>
      rw [findAnswer,if_neg (by rw [hend]; exact Bool.false_ne_true)]
      exact Or.inr ⟨a,⟨hfind,hend⟩,rfl,
        slot_result_nonneg hv hchain.inRange (List.mem_of_find?_eq_some hfind)⟩

/-- The visitor of `create_entry_at` changes one slot. -/
theorem createVisit_eq (name83 : List UInt8) (attr : ℕ) :
    createVisit name83 attr=editVisit slotFree (setEntry name83 attr) fatErrIo fatErrIo 0 := rfl

/-- What `create_entry_at` does. -/
theorem createEntryAt_outcome (hv : Mounted v) (hs : SparesTable v d)
    (hchain : FileChain v d.bytes cwd nodes) (name : List UInt8) (attr : ℕ) :
    ∃ r d', createEntryAt v cwd name attr d=some (r,d') ∧ (Idle d d' ∧ r≠0 ∨
      ∃ a, (slots v nodes).find? (slotFree d.bytes)=some a ∧ r=0 ∧ Later d d' ∧
        d'.bytes=setEntry (nameTo83 name) attr d.bytes a) := by
  have hvisit := @editVisit_visits d (slots v nodes) slotFree (setEntry (nameTo83 name) attr)
    movable_free (editor_setEntry (nameTo83 name) attr) fatErrIo fatErrIo 0
  obtain ⟨w,d',hw,hout⟩ := walk_directory hv hs hchain hvisit
  rw [createEntryAt,createVisit_eq,hw]
  rcases hout with ⟨rfl,hnone,hidle⟩ | ⟨r,rfl,⟨hr,hfail⟩ | ⟨a,hfind,rfl,hl,hb⟩⟩
  · exact ⟨_,d',rfl,Or.inl ⟨hidle,by decide⟩⟩
  · refine ⟨r,d',rfl,Or.inl ⟨hfail.1,?_⟩⟩
    rcases hr with rfl | rfl <;> decide
  · exact ⟨0,d',rfl,Or.inr ⟨a,hfind,rfl,hl,hb⟩⟩

/-- What `fat32_delete_file` does. -/
theorem deleteFile_outcome (hv : Mounted v) (hs : SparesTable v d)
    (hchain : FileChain v d.bytes cwd nodes) (name : List UInt8) :
    ∃ r d', fat32DeleteFile v cwd name d=some (r,d') ∧ (Idle d d' ∨
      ∃ a, Resolves v d.bytes nodes (nameTo83 name) a ∧ Later d d' ∧
        d'.bytes=eraseEntry d.bytes a) := by
  obtain ⟨w,d',hw,hout⟩ := walk_directory hv hs hchain (deleteVisit_visits (nameTo83 name))
  rw [fat32DeleteFile,deleteEntryAt,hw]
  rcases hout with ⟨rfl,_,hidle⟩ | ⟨r,rfl,⟨_,hfail⟩ | ⟨a,hfind,⟨_,_,hidle⟩ | ⟨hend,_,hl,hb⟩⟩⟩
  · exact ⟨_,d',rfl,Or.inl hidle⟩
  · exact ⟨_,d',rfl,Or.inl hfail.1⟩
  · exact ⟨_,d',rfl,Or.inl hidle⟩
  · exact ⟨_,d',rfl,Or.inr ⟨a,⟨hfind,hend⟩,hl,hb⟩⟩

/-- The visitor of `fat32_rename` changes one slot. -/
theorem renameVisit_eq (old83 new83 : List UInt8) :
    renameVisit old83 new83=
      editVisit (slotNamed old83) (fun m a => setName m a new83) fatErrIo fatErrIo 0 := rfl

/-- What `fat32_rename` does. -/
theorem rename_outcome (hv : Mounted v) (hs : SparesTable v d)
    (hchain : FileChain v d.bytes cwd nodes) (oldname newname : List UInt8) :
    ∃ r d', fat32Rename v cwd oldname newname d=some (r,d') ∧ (Idle d d' ∨
      ∃ a, (slots v nodes).find? (slotNamed (nameTo83 oldname) d.bytes)=some a ∧ Later d d' ∧
        d'.bytes=setName d.bytes a (nameTo83 newname)) := by
  have hvisit := @editVisit_visits d (slots v nodes) (slotNamed (nameTo83 oldname))
    (fun m a => setName m a (nameTo83 newname)) (movable_named (nameTo83 oldname))
    (editor_setName (nameTo83 newname)) fatErrIo fatErrIo 0
  obtain ⟨w,d',hw,hout⟩ := walk_directory hv hs hchain hvisit
  rw [fat32Rename,renameVisit_eq,hw]
  rcases hout with ⟨rfl,_,hidle⟩ | ⟨r,rfl,⟨_,hfail⟩ | ⟨a,hfind,_,hl,hb⟩⟩
  · exact ⟨_,d',rfl,Or.inl hidle⟩
  · exact ⟨_,d',rfl,Or.inl hfail.1⟩
  · exact ⟨_,d',rfl,Or.inr ⟨a,hfind,hl,hb⟩⟩

/-- What `fat32_mkdir` does: nothing, a new entry without a cluster, or a new entry
and a cluster for the first directory with the name. -/
theorem mkdir_outcome (hv : Mounted v) (hs : SparesTable v d)
    (hchain : FileChain v d.bytes cwd nodes) (name : List UInt8)
    (hwrite : (fatFindFree v d).1≠0 → ¬d.Fails true (clusterToSector v (fatFindFree v d).1)) :
    ∃ r d', fat32Mkdir v cwd name d=some (r,d') ∧ (Idle d d' ∨
      ∃ a, (slots v nodes).find? (slotFree d.bytes)=some a ∧ Later d d' ∧
        (d.Faulty ∨ Missing v d.bytes nodes (nameTo83 name)) ∧
        (d'.bytes=setEntry (nameTo83 name) 0x10 d.bytes a ∨
          ∃ b f, (slots v nodes).find? (slotFolder (nameTo83 name)
              (setEntry (nameTo83 name) 0x10 d.bytes a))=some b ∧
            (fatFindFree v d).1=f ∧ InRange v f ∧ link v d.bytes f=0 ∧
            d'.bytes=attached v (setEntry (nameTo83 name) 0x10 d.bytes a) b f cwd)) := by
  rw [fat32Mkdir]
  obtain ⟨f,d1,hfree,hidle1,hcases⟩ := hs.findFree hv
  rw [hfree] at hwrite ⊢
  dsimp only at hwrite ⊢
  rcases hcases with ⟨hfr,hfz⟩ | ⟨rfl,_⟩
  · have hpos := hfr.1
    rw [if_neg (by omega)]
    have hchain1 : FileChain v d1.bytes cwd nodes := hidle1.2 ▸ hchain
    obtain ⟨r2,d2,hfind,hidle2,hfound⟩ := findEntry_outcome hv (hs.later hidle1.1) hchain1 name
    rw [hfind]
    dsimp only
    rcases hfound with ⟨rfl,hmiss⟩ | ⟨a,_,_,hnonneg⟩
    · rw [if_neg (show ¬(0 : ℤ)≤-1 by decide)]
      have hl2 : Idle d d2 := hidle1.trans hidle2
      have hchain2 : FileChain v d2.bytes cwd nodes := hl2.2 ▸ hchain
      obtain ⟨r3,d3,hcreate,hmade⟩ := createEntryAt_outcome hv (hs.later hl2.1) hchain2 name 0x10
      rw [hcreate]
      dsimp only
      rcases hmade with ⟨hidle3,hr⟩ | ⟨a,ha,rfl,hl3,hb3⟩
      · rw [if_pos hr]
        exact ⟨r3,d3,rfl,Or.inl (hl2.trans hidle3)⟩
      · rw [if_neg (by simp)]
        rw [hl2.2] at ha hb3
        have hlater : Later d d3 := hl2.1.trans hl3
        have hmiss' : d.Faulty ∨ Missing v d.bytes nodes (nameTo83 name) := by
          rw [hidle1.2] at hmiss
          exact hmiss.imp hidle1.1.faulty id
        have hmem := List.mem_of_find?_eq_some ha
        have hchain3 : FileChain v d3.bytes cwd nodes := by
          refine hchain.congr fun c hc => link_congr fun b hb => ?_
          rw [hb3]
          exact (editor_setEntry _ _).outside _ a b
            (slot_not_link hv hchain.inRange hmem (hchain.inRange c hc) hb)
        obtain ⟨w,d4,hw,hout⟩ := walk_directory hv (hs.later hlater) hchain3
          (@mkdirVisit_visits _ _ _ hv (hs.later hlater) cwd _ hfr
            (fun hf => hwrite (by omega) (hlater.fails hf)) (nameTo83 name))
        rw [hw]
        rcases hout with ⟨rfl,_,hidle⟩ | ⟨r,rfl,⟨_,hfail⟩ | ⟨b,hb,_,hl4,hb4⟩⟩
        · exact ⟨_,d4,rfl,Or.inr ⟨a,ha,hlater.trans hidle.1,hmiss',Or.inl (hidle.2.trans hb3)⟩⟩
        · exact ⟨_,d4,rfl,Or.inr ⟨a,ha,hlater.trans hfail.1.1,hmiss',
            Or.inl (hfail.1.2.trans hb3)⟩⟩
        · rw [hb3] at hb hb4
          exact ⟨_,d4,rfl,Or.inr ⟨a,ha,hlater.trans hl4,hmiss',Or.inr ⟨b,f,hb,rfl,hfr,hfz,hb4⟩⟩⟩
    · rw [if_pos hnonneg]
      exact ⟨_,d2,rfl,Or.inl (hidle1.trans hidle2)⟩
  · rw [if_pos rfl]
    exact ⟨_,d1,rfl,Or.inl hidle1⟩

/-- What `fat32_rmdir` does. -/
theorem rmdir_outcome (hv : Mounted v) (hs : SparesTable v d)
    (hchain : FileChain v d.bytes cwd nodes) (name : List UInt8) (chain : ℕ → List ℕ)
    (hzero : chain 0=[])
    (hobject : ∀ a∈slots v nodes, slotNamed (nameTo83 name) d.bytes a=true →
      folderAt d.bytes a=true → target d.bytes a≠0 →
        FileChain v d.bytes (target d.bytes a) (chain (target d.bytes a)) ∧
          chain (target d.bytes a)≠[]) :
    ∃ r d', fat32Rmdir v cwd name d=some (r,d') ∧ (Idle d d' ∨
      ∃ a, (slots v nodes).find? (slotNamed (nameTo83 name) d.bytes)=some a ∧
        Removal v chain d a (some r) d') := by
  obtain ⟨w,d',hw,hout⟩ := walk_directory hv hs hchain
    (rmdirVisit_visits hv hs chain hchain.inRange hzero hobject)
  rw [fat32Rmdir,hw]
  rcases hout with ⟨rfl,_,hidle⟩ | ⟨r,rfl,⟨rfl,hfail⟩ | ⟨a,hfind,hremoval⟩⟩
  · exact ⟨_,d',rfl,Or.inl hidle⟩
  · exact ⟨_,d',rfl,Or.inl hfail.1⟩
  · obtain ⟨k,rfl⟩ : ∃ k, r=some k := by
      rcases hremoval with ⟨h,_⟩ | ⟨h,_⟩ | ⟨_,_,_,⟨h,_⟩ | ⟨h,_⟩⟩ <;> exact ⟨_,h⟩
    exact ⟨k,d',rfl,Or.inr ⟨a,hfind,hremoval⟩⟩

/-- The first cluster of a file, or a new one for an empty file. -/
theorem startCluster_outcome (hv : Mounted v) (hs : SparesTable v d) (e : DirEntry) :
    (∃ d', startCluster v e d=(none,d') ∧ Idle d d') ∨
    (firstClusterOf e=0 ∧ ∃ f d', startCluster v e d=(some f,d') ∧ Later d d' ∧ InRange v f ∧
      link v d.bytes f=0 ∧ d'.bytes=setLink v d.bytes f endMark) ∨
    (firstClusterOf e≠0 ∧ startCluster v e d=(some (firstClusterOf e),d)) := by
  rw [startCluster]
  by_cases hzero : firstClusterOf e=0
  · rw [if_pos hzero]
    dsimp only
    obtain ⟨f,d1,hf,hidle,⟨hr,hz⟩ | ⟨rfl,_⟩⟩ := hs.findFree hv
    · have hpos := hr.1
      rw [hf]
      dsimp only
      rw [if_neg (by omega),(hs.later hidle.1).writeEntry hv hr.2]
      refine Or.inr (Or.inl ⟨hzero,f,_,rfl,(hidle.1.used.used).with _,hr,hz,?_⟩)
      rw [with_bytes,hidle.2]
    · rw [hf]
      exact Or.inl ⟨d1,rfl,hidle⟩
  · rw [if_neg hzero]
    exact Or.inr (Or.inr ⟨hzero,rfl⟩)

/-- A new chain that has grown. -/
theorem grown_first {f : ℕ} {m' : Bytes} {added : List ℕ} (hf : InRange v f) (hz : link v m f=0)
    (h : Grown v (setLink v m f endMark) m' [f] added) : Grown v m m' [] (f::added) where
  inRange := fun c hc => by cases hc
  fresh := by
    intro c hc
    rcases List.mem_cons.mp hc with rfl | hc
    · exact ⟨hf,hz⟩
    · obtain ⟨h1,h2⟩ := h.fresh c hc
      refine ⟨h1,?_⟩
      rwa [link_setLink_other] at h2
      rintro rfl
      rw [link_setLink_same] at h2
      norm_num at h2
  frame := fun b hb => (h.frame b fun c hc => hb c (by simpa using hc)).trans
    (setLink_outside (hb f (by simp)).2)

/-- A file has been written but its entry not been updated. -/
def Unattached (v : Volume) (d : Disk) (m2 : Bytes) (size : ℕ) (added : List ℕ) : Prop :=
  d.Faulty ∨ 2^31 ≤ size ∨
    (∀ x, InRange v x → link v m2 x≠0) ∧ added.length*clusterBytes v<size

/-- What a write has stored before the entry is updated: the file's chain has
grown from what it was. -/
structure Stored (v : Volume) (m m2 : Bytes) (nodes added : List ℕ) (old f : ℕ) : Prop where
  /-- Only the file's clusters and free ones have changed. -/
  grown : Grown v m m2 nodes added
  /-- The table grew. -/
  grows : Relation.ReflTransGen (Grow v) m m2
  /-- The chain starts where it did. -/
  first : old≠0 → f=old
  /-- The file's chain. -/
  chain : FileChain v m2 f (nodes++added)
  /-- It is not empty. -/
  nonempty : nodes++added≠[]

/-- A write up to the update of the entry. -/
theorem store_outcome (hv : Mounted v) (hs : SparesTable v d) (buffer : Bytes) {e : DirEntry}
    {l : List ℕ} (hl : HasChain v d.bytes (firstClusterOf e) l) (hsize : size<2^32) :
    (∃ d', startCluster v e d=(none,d') ∧ Idle d d') ∨
    ∃ f d1 r d2 added, startCluster v e d=(some f,d1) ∧
      writeChain v buffer transferRounds f 0 size d1=some (r,d2) ∧ Later d d2 ∧
      Stored v d.bytes d2.bytes l added (firstClusterOf e) f ∧
      (r=toInt size ∨ r=-1 ∧ Unattached v d d2.bytes size (l++added)) := by
  rcases startCluster_outcome hv hs e with hnone | ⟨hz,f,d1,hstart,hl1,hfr,hfz,hb1⟩ | ⟨hne,hstart⟩
  · exact Or.inl hnone
  · right
    obtain rfl : l=[] := by
      rcases hl with ⟨_,h⟩ | ⟨h,_⟩
      · exact h
      · exact (h hz).elim
    obtain ⟨hw,hchain⟩ := wrote_fresh hv [] hfr hfz
    rw [← hb1] at hw hchain
    obtain ⟨r,d2,added,hres,hl2,hgrown,hgrow,hch,hr⟩ := writeChain_extended hv buffer 0
      (hs.later hl1) hchain (show size≤transferRounds from hsize.le)
    rw [hb1] at hgrown
    refine ⟨f,d1,r,d2,f::added,hstart,hres,hl1.trans hl2,⟨grown_first hfr hfz hgrown,
      hw.grows.trans hgrow,fun h => (h hz).elim,hch,by simp⟩,?_⟩
    rw [Nat.zero_add] at hr
    refine hr.imp id fun h => ⟨h.1,h.2.imp hl1.faulty fun h' => Or.inr ⟨h'.1,?_⟩⟩
    rw [List.nil_append,List.length_cons,Nat.add_comm]
    exact h'.2
  · right
    rcases hl with ⟨h,_⟩ | ⟨_,hnil,hchain⟩
    · exact (hne h).elim
    · obtain ⟨x,rest,rfl⟩ := List.exists_cons_of_ne_nil hnil
      obtain ⟨rfl,_⟩ := (fileChain_cons hv).mp hchain
      obtain ⟨r,d2,added,hres,hl2,hgrown,hgrow,hch,hr⟩ := writeChain_extended hv buffer 0 hs hchain
        (show size≤transferRounds from hsize.le)
      refine ⟨_,d,r,d2,added,hstart,hres,hl2,⟨hgrown,hgrow,fun _ => rfl,hch,by simp⟩,?_⟩
      rw [Nat.zero_add] at hr
      refine hr.imp id fun h => ⟨h.1,h.2.imp id fun h' => Or.inr ⟨h'.1,?_⟩⟩
      rw [List.length_append]
      exact h'.2

/-- The visitor that updates the entry changes one slot. -/
theorem updateVisit_eq (name83 : List UInt8) (cluster : ℕ) (result : ℤ) :
    updateVisit name83 cluster result=
      editVisit (slotHit name83) (updatedEntry cluster result) result (-1) result := rfl

/-- What `fat32_write_file` does: nothing, or it stores the bytes on the file's
chain and may then update its entry. -/
theorem writeFile_outcome (hv : Mounted v) (hs : SparesTable v d)
    (hdir : FileChain v d.bytes cwd nodes) (name : List UInt8) (buffer : Bytes) (hsize : size<2^32)
    (chain : ℕ → List ℕ)
    (hfile : ∀ a, Resolves v d.bytes nodes (nameTo83 name) a →
      HasChain v d.bytes (target d.bytes a) (chain (target d.bytes a)) ∧
        ∀ x∈nodes, x∉chain (target d.bytes a)) :
    ∃ r d', fat32WriteFile v cwd name buffer size d=some (r,d') ∧ (Idle d d' ∨
      ∃ a m2 f added, Resolves v d.bytes nodes (nameTo83 name) a ∧ Later d d' ∧
        Stored v d.bytes m2 (chain (target d.bytes a)) added (target d.bytes a) f ∧
        (d'.bytes=m2 ∧ Unattached v d m2 size (chain (target d.bytes a)++added) ∨
          ∃ result, d'.bytes=updatedEntry f result m2 a)) := by
  rw [fat32WriteFile]
  obtain ⟨r1,d1,hfind,hidle,⟨rfl,_⟩ | ⟨a,hres,he,hnonneg⟩⟩ := findEntry_outcome hv hs hdir name
  · rw [hfind]
    exact ⟨_,d1,rfl,Or.inl hidle⟩
  obtain ⟨r1,e1⟩ := r1
  dsimp only at he hnonneg
  subst he
  rw [hfind]
  dsimp only
  rw [if_neg (by omega)]
  obtain ⟨hl,hdisj⟩ := hfile a hres
  have hl1 : HasChain v d1.bytes (firstClusterOf (entryAt d.bytes a)) (chain (target d.bytes a)) := by
    rw [hidle.2]
    exact hl
  rcases store_outcome hv (hs.later hidle.1) buffer hl1 hsize with
    ⟨d2,hstart,hidle2⟩ | ⟨f,d2,r,d3,added,hstart,hwrite,hl3,hstored,hr⟩
  · rw [hstart]
    exact ⟨_,d2,rfl,Or.inl (hidle.trans hidle2)⟩
  rw [hstart]
  dsimp only
  rw [hwrite]
  dsimp only
  rw [hidle.2] at hstored
  have hlater : Later d d3 := hidle.1.trans hl3
  have hstop : r<0 → Unattached v d d3.bytes size (chain (target d.bytes a)++added) := by
    intro hneg
    rcases hr with rfl | ⟨_,h⟩
    · refine Or.inr (Or.inl ?_)
      by_contra hlt
      rw [toInt_of_lt (by omega)] at hneg
      omega
    · exact h.imp hidle.1.faulty id
  by_cases hneg : r<0
  · rw [if_pos hneg]
    exact ⟨r,d3,rfl,Or.inr ⟨a,_,f,added,hres,hlater,hstored,Or.inl ⟨rfl,hstop hneg⟩⟩⟩
  rw [if_neg hneg]
  obtain ⟨hdir3,hres3,_⟩ := Grown.resolves hv hdir hstored.grown
    (fun x hx hmem => hdisj x hmem hx) hres
  have hvisit := @editVisit_visits d3 (slots v nodes) (slotHit (nameTo83 name))
    (updatedEntry f r) (movable_hit (nameTo83 name)) (editor_updated f r) r (-1) r
  obtain ⟨w,d4,hw,hwalk⟩ := walk_directory hv (hs.later hlater) hdir3 hvisit
  rw [updateVisit_eq,hw]
  have hfirst := hres3.first_hit
  rcases hwalk with ⟨_,hnone,_⟩ | ⟨r',rfl,⟨_,hfail⟩ | ⟨b,hb,_,hl4,hb4⟩⟩
  · rw [hfirst] at hnone
    cases hnone
  · refine ⟨r',d4,rfl,Or.inr ⟨a,_,f,added,hres,hlater.trans hfail.1.1,hstored,
      Or.inl ⟨hfail.1.2,Or.inl (hlater.faulty hfail.2)⟩⟩⟩
  · rw [hfirst] at hb
    obtain rfl : a=b := by simpa using hb
    exact ⟨r',d4,rfl,Or.inr ⟨a,_,f,added,hres,hlater.trans hl4,hstored,Or.inr ⟨r,hb4⟩⟩⟩

/-- What `fat32_change_dir` does: the current directory is the root, the old one,
or the directory a found entry leads to. -/
theorem enterDirectory_outcome (hv : Mounted v) (hs : SparesTable v d)
    (hchain : FileChain v d.bytes cwd nodes) (name : List UInt8) :
    ∃ r c d', enterDirectory v cwd name d=some (r,c,d') ∧ Idle d d' ∧
      (c=cwd ∨ ∃ a, Resolves v d.bytes nodes (nameTo83 name) a ∧ folderAt d.bytes a=true ∧
        c=if target d.bytes a=0 then v.rootCluster else target d.bytes a) := by
  rw [enterDirectory]
  obtain ⟨⟨r1,e1⟩,d1,hfind,hidle,⟨he,_⟩ | ⟨a,hres,he,hnonneg⟩⟩ := findEntry_outcome hv hs hchain name
  · rw [Prod.mk.injEq] at he
    obtain ⟨rfl,rfl⟩ := he
    rw [hfind]
    exact ⟨_,cwd,d1,rfl,hidle,Or.inl rfl⟩
  · dsimp only at he hnonneg
    subst he
    rw [hfind]
    dsimp only
    rw [if_neg (by omega)]
    cases hdir : isDirectory (entryAt d.bytes a) with
    | true =>
      rw [if_pos rfl]
      exact ⟨0,_,d1,rfl,hidle,Or.inr ⟨a,hres,hdir,rfl⟩⟩
    | false =>
      rw [if_neg Bool.false_ne_true]
      exact ⟨_,cwd,d1,rfl,hidle,Or.inl rfl⟩

end OvsbMk.FatOperations
