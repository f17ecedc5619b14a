import OvsbMk.FatFaults

/-!
# Walks through directories on a disk whose transfers may fail

A walk stops at the first sector that has a slot for the visitor or cannot be
read. Each visitor of the driver either changes the disk as it would without
failures, or leaves the contents alone and reports a failure; the exception is
the removal of a directory, whose last write comes after its clusters are freed.
-/

namespace OvsbMk.FatWalks

open ByteMemory BlockDisk Fat32 Chains FatTable FatData FatDirectory FatEntries FatFiles FatChanges
  FatFaults

variable {ρ : Type} {v : Volume} {m : Bytes} {d d0 d' : Disk} {c a start : ℕ} {nodes l : List ℕ}
  {name83 : List UInt8} {p : ℕ → Bool} {visit : ℕ → Disk → Option ρ×Disk}
  {bad : ρ → Disk → Prop} {act : ℕ → ρ → Disk → Prop}

/-- A walk found no slot and changed nothing, or it ended badly, or it acted on
the first slot that passes the test. -/
def Outcome (l : List ℕ) (p : ℕ → Bool) (d0 : Disk) (bad : ρ → Disk → Prop)
    (act : ℕ → ρ → Disk → Prop) (w : Option ρ) (d : Disk) : Prop :=
  w=none ∧ l.find? p=none ∧ Idle d0 d ∨
    ∃ r, w=some r ∧ (bad r d ∨ ∃ a, l.find? p=some a ∧ act a r d)

/-- A walk goes on only if it found no slot and changed nothing. -/
theorem outcome_none : Outcome l p d0 bad act none d ↔ l.find? p=none ∧ Idle d0 d := by
  constructor
  · rintro (⟨_,h⟩ | ⟨_,h,_⟩)
    · exact h
    · cases h
  · exact fun h => Or.inl ⟨rfl,h⟩

/-- A walk that ended in the first slots has ended in all of them. -/
theorem Outcome.ended {r : ρ} (h : Outcome l p d0 bad act (some r) d) (l' : List ℕ) :
    Outcome (l++l') p d0 bad act (some r) d := by
  obtain ⟨h,_⟩ | ⟨r',hr,h⟩ := h
  · cases h
  · refine Or.inr ⟨r',hr,h.imp_right ?_⟩
    rintro ⟨a,ha,hact⟩
    refine ⟨a,?_,hact⟩
    rw [List.find?_append,ha,Option.some_or]

/-- A walk that found nothing in the first slots ends as in the rest of them. -/
theorem Outcome.after {l' : List ℕ} {w : Option ρ} (hl : l.find? p=none)
    (h : Outcome l' p d0 bad act w d) : Outcome (l++l') p d0 bad act w d := by
  rw [Outcome,List.find?_append,hl,Option.none_or]
  exact h

/-- What a visitor does in each sector of a list of slots. -/
def Visits (visit : ℕ → Disk → Option ρ×Disk) (l : List ℕ) (d0 : Disk) (p : ℕ → Bool)
    (bad : ρ → Disk → Prop) (act : ℕ → ρ → Disk → Prop) : Prop :=
  ∀ lba d, lba<addressable → (∀ a∈sectorSlots (lba*512), a∈l) → Idle d0 d →
    Outcome (sectorSlots (lba*512)) p d0 bad act (visit lba d).1 (visit lba d).2

/-- The loop over the sectors of a cluster. -/
theorem walkSectors_visits (hv : Mounted v) (hc : InRange v c) (h : Visits visit l d0 p bad act)
    {count s : ℕ} (hs : s+count≤v.sectorsPerCluster)
    (hsub : ∀ a∈rangeSlots (dataAddr v c+s*512) count, a∈l) (hd : Idle d0 d) :
    Outcome (rangeSlots (dataAddr v c+s*512) count) p d0 bad act
      (walkSectors visit (clusterToSector v c) count s d).1
      (walkSectors visit (clusterToSector v c) count s d).2 := by
  induction count generalizing s d with
  | zero => exact Or.inl ⟨rfl,rfl,hd⟩
  | succ count ih =>
    have hplace := sector_place hv hc (show s<v.sectorsPerCluster by omega)
    have hlba := hplace.1
    have haddr := hplace.2
    rw [rangeSlots_succ] at hsub
    have hvisit := h _ d hlba (by rw [haddr]; exact fun a ha => hsub a (by simp [ha])) hd
    rw [haddr] at hvisit
    rw [walkSectors,rangeSlots_succ]
    rcases hr : visit ((clusterToSector v c+s)%2^32) d with ⟨w,d1⟩
    rw [hr] at hvisit
    cases w with
    | none =>
      obtain ⟨hnone,hidle⟩ := outcome_none.mp hvisit
      have hstep : dataAddr v c+(s+1)*512=dataAddr v c+s*512+512 := by ring
      have hih := ih (s:=s+1) (by omega) (by rw [hstep]; exact fun a ha => hsub a (by simp [ha]))
        hidle
      rw [hstep] at hih
      exact hih.after hnone
    | some r => exact hvisit.ended _

/-- The loop over a chain. -/
theorem walkChain_visits (hv : Mounted v) (hs : SparesTable v d0) (h : Visits visit l d0 p bad act)
    {fuel : ℕ} (hchain : FileChain v d0.bytes start nodes) (hfuel : nodes.length≤fuel)
    (hsub : ∀ a∈slots v nodes, a∈l) (hd : Idle d0 d) :
    ∃ w d', walkChain v visit fuel start d=some (w,d') ∧ Outcome (slots v nodes) p d0 bad act w d' := by
  induction nodes generalizing start fuel d with
  | nil =>
    have hend := fileChain_nil.mp hchain
    have hstop : ¬(2 ≤ start ∧ start<endOfChain) := by omega
    refine ⟨none,d,?_,Or.inl ⟨rfl,rfl,hd⟩⟩
    cases fuel with
    | zero => rw [walkChain,if_neg hstop]
    | succ fuel => rw [walkChain,if_neg hstop]
  | cons c rest ih =>
    obtain ⟨rfl,hc,hrest⟩ := (fileChain_cons hv).mp hchain
    have hin : 2 ≤ start ∧ start<endOfChain := ⟨hc.1,hc.2.trans_le hv.clusters_lt⟩
    obtain ⟨fuel,rfl⟩ : ∃ k, fuel=k+1 := ⟨fuel-1,by rw [List.length_cons] at hfuel; omega⟩
    rw [walkChain,if_pos hin]
    dsimp only
    rw [slots_cons] at hsub
    have hsec := @walkSectors_visits _ v d d0 start l p visit bad act hv hc h v.sectorsPerCluster 0
      (by omega) (by rw [Nat.zero_mul,Nat.add_zero]; exact fun a ha => hsub a (by simp [ha])) hd
    rw [Nat.zero_mul,Nat.add_zero] at hsec
    rcases hr : walkSectors visit (clusterToSector v start) v.sectorsPerCluster 0 d with ⟨w,d1⟩
    rw [hr] at hsec
    rw [slots_cons]
    cases w with
    | none =>
      obtain ⟨hnone,hidle⟩ := outcome_none.mp hsec
      have hlink := (hs.later hidle.1).readEntry hv hc.2
      rw [hidle.2] at hlink
      dsimp only
      rw [hlink]
      obtain ⟨w,d',h1,h2⟩ := ih hrest (Nat.le_of_succ_le_succ hfuel)
        (fun a ha => hsub a (by simp [ha])) hidle.used
      exact ⟨w,d',h1,h2.after hnone⟩
    | some r => exact ⟨some r,d1,rfl,hsec.ended _⟩

/-- A failure that has left the contents alone. -/
def Failed (d0 d : Disk) : Prop := Idle d0 d ∧ d0.Faulty

/-- A read failed. -/
theorem failed_read {lba : ℕ} (hd : Idle d0 d) (hf : d.Fails false lba) : Failed d0 d.used :=
  ⟨hd.used,hd.1.faulty ⟨_,_,hf⟩⟩

/-- A write failed. -/
theorem failed_write {lba : ℕ} (hd : Idle d0 d) (hf : d.Fails true lba) : Failed d0 d.used :=
  ⟨hd.used,hd.1.faulty ⟨_,_,hf⟩⟩

/-- The sector of a slot, as it is read. -/
theorem read_sector (hd : Idle d0 d) {lba : ℕ} (hlba : lba<addressable) :
    (fun b => d.bytes (sectorAddr lba+b))=fun b => d0.bytes (lba*512+b) := by
  rw [sectorAddr_of_lt hlba,hd.2]

/-- A changed sector, as it is written back. -/
theorem write_back {edit : Bytes → ℕ → Bytes} (he : Editor edit) {lba x : ℕ} (hlba : lba<addressable)
    (hx : x+32≤512) :
    copyRange m (sectorAddr lba) sectorSize (edit (fun b => m (lba*512+b)) x)=edit m (lba*512+x) := by
  rw [sectorAddr_of_lt hlba]
  exact he.writeBack hx

/-- The contents after a changed sector has been written back. -/
theorem written_back {edit : Bytes → ℕ → Bytes} (hd : Idle d0 d) (he : Editor edit) {lba x : ℕ}
    (hlba : lba<addressable) (hx : x+32≤512) :
    (d.used.with (copyRange d.bytes (sectorAddr lba) sectorSize
      (edit (fun b => d0.bytes (lba*512+b)) x))).bytes=edit d0.bytes (lba*512+x) := by
  rw [with_bytes,hd.2]
  exact write_back he hlba hx

/-- What a visitor that searches does at a slot tells what it does in a sector. -/
theorem searchVisit_visits {test : Bytes → ℕ → Bool} {unread : ρ}
    {next : ℕ → Bytes → ℕ → Disk → Option ρ×Disk} (ht : Movable test)
    (hunread : ∀ d, Failed d0 d → bad unread d)
    (hnext : ∀ lba x d, lba<addressable → x+32≤512 → (∀ a∈sectorSlots (lba*512), a∈l) →
      (sectorSlots (lba*512)).find? (test d0.bytes)=some (lba*512+x) → Idle d0 d →
      ∃ r d', next lba (fun b => d0.bytes (lba*512+b)) x d=(some r,d') ∧
        (bad r d' ∨ act (lba*512+x) r d')) :
    Visits (searchVisit test unread next) l d0 (test d0.bytes) bad act := by
  intro lba d hlba hsub hd
  rw [searchVisit]
  cases read_cases d lba with
  | inl hfailed =>
    rw [hfailed.1]
    exact Or.inr ⟨unread,rfl,Or.inl (hunread _ (failed_read hd hfailed.2))⟩
  | inr hread =>
    rw [hread,read_sector hd hlba]
    dsimp only
    cases find_offset ht d0.bytes lba with
    | inl hnone =>
      rw [hnone.1]
      exact Or.inl ⟨rfl,hnone.2,hd.used⟩
    | inr hfound =>
      obtain ⟨x,hslot,hfirst,_,hx⟩ := hfound
      rw [hslot]
      dsimp only
      obtain ⟨r,d',hr,hend⟩ := hnext lba x d.used hlba hx hsub hfirst hd.used
      rw [hr]
      exact Or.inr ⟨r,rfl,hend.imp_right fun hact => ⟨_,hfirst,hact⟩⟩

/-- A visitor that changes the first slot of a sector that passes a test; the
results stand for a sector that cannot be read, one that cannot be written, and
one that was written. -/
def editVisit (test : Bytes → ℕ → Bool) (edit : Bytes → ℕ → Bytes) (unread unwritten written : ℤ)
    (lba : ℕ) (d : Disk) : Option ℤ×Disk :=
  match ataReadSector lba d with
  | (none,d) => (some unread,d)
  | (some buf,d) =>
    match firstSlot test buf with
    | none => (none,d)
    | some a =>
      match ataWriteSector lba (edit buf a) d with
      | (false,d) => (some unwritten,d)
      | (true,d) => (some written,d)

/-- The visitor changes the first slot or fails. -/
theorem editVisit_visits {test : Bytes → ℕ → Bool} {edit : Bytes → ℕ → Bytes} (ht : Movable test)
    (he : Editor edit) (unread unwritten written : ℤ) :
    Visits (editVisit test edit unread unwritten written) l d0 (test d0.bytes)
      (fun r d => (r=unread ∨ r=unwritten) ∧ Failed d0 d)
      fun a r d => r=written ∧ Later d0 d ∧ d.bytes=edit d0.bytes a := by
  have hsearch : editVisit test edit unread unwritten written=
      searchVisit test unread fun lba buf x d =>
        match ataWriteSector lba (edit buf x) d with
        | (false,d) => (some unwritten,d)
        | (true,d) => (some written,d) := rfl
  rw [hsearch]
  apply searchVisit_visits ht (fun _ hfailed => ⟨Or.inl rfl,hfailed⟩)
  intro lba x d hlba hx _ _ hd
  cases write_cases d lba (edit (fun b => d0.bytes (lba*512+b)) x) with
  | inl hfailed =>
    rw [hfailed.1]
    exact ⟨unwritten,_,rfl,Or.inl ⟨Or.inr rfl,failed_write hd hfailed.2⟩⟩
  | inr hwrite =>
    rw [hwrite]
    exact ⟨written,_,rfl,Or.inr ⟨rfl,hd.1.used.with _,written_back hd he hlba hx⟩⟩

/-- The test for a free slot can be moved. -/
theorem movable_free : Movable slotFree := fun _ _ _ => rfl

/-- The test for an entry in use can be moved. -/
theorem movable_named (name83 : List UInt8) : Movable (slotNamed name83) := by
  intro m base a
  rw [slotNamed,slotNamed,movable_end,movable_hit]

/-- The test for a directory can be moved. -/
theorem movable_folder (name83 : List UInt8) : Movable (slotFolder name83) := by
  intro m base a
  rw [slotFolder,slotFolder,movable_hit,entryAt_move]

/-- The visitor of `find_entry`. -/
theorem findVisit_visits (name83 : List UInt8) :
    Visits (findVisit name83) l d0 (stopTest name83 d0.bytes) (fun r d => r=(-1,none) ∧ Failed d0 d)
      fun a r d => r=(findAnswer d0.bytes d0 a).1 ∧ Idle d0 d := by
  rw [findVisit_search]
  apply searchVisit_visits (movable_end.or (movable_hit name83)) (fun _ hfailed => ⟨rfl,hfailed⟩)
  intro lba x d hlba hx _ _ hd
  have hplace : (lba*512+x)/512=lba := by omega
  refine ⟨(findAnswer d0.bytes d0 (lba*512+x)).1,d,?_,Or.inr ⟨rfl,hd⟩⟩
  rw [findAnswer,hplace,movable_end d0.bytes (lba*512) x,entryAt_move]
  split <;> rfl

/-- The visitor of `delete_entry_at`. -/
theorem deleteVisit_visits (name83 : List UInt8) :
    Visits (deleteVisit name83) l d0 (stopTest name83 d0.bytes) (fun r d => r=-1 ∧ Failed d0 d)
      fun a r d => slotEnd d0.bytes a=true ∧ r=-1 ∧ Idle d0 d ∨
        slotEnd d0.bytes a=false ∧ r=0 ∧ Later d0 d ∧ d.bytes=eraseEntry d0.bytes a := by
  rw [deleteVisit_search]
  apply searchVisit_visits (movable_end.or (movable_hit name83)) (fun _ hfailed => ⟨rfl,hfailed⟩)
  intro lba x d hlba hx _ _ hd
  rw [movable_end d0.bytes (lba*512) x]
  cases hend : slotEnd d0.bytes (lba*512+x) with
  | true =>
    rw [if_pos rfl]
    exact ⟨-1,d,rfl,Or.inr (Or.inl ⟨rfl,rfl,hd⟩)⟩
  | false =>
    rw [if_neg Bool.false_ne_true]
    cases write_cases d lba (eraseEntry (fun b => d0.bytes (lba*512+b)) x) with
    | inl hfailed =>
      rw [hfailed.1]
      exact ⟨-1,_,rfl,Or.inl ⟨rfl,failed_write hd hfailed.2⟩⟩
    | inr hwrite =>
      rw [hwrite]
      exact ⟨0,_,rfl,Or.inr (Or.inr ⟨rfl,rfl,hd.1.used.with _,
        written_back hd editor_eraseEntry hlba hx⟩)⟩

/-- The first sector of a cluster. -/
theorem first_sector (hv : Mounted v) (hc : InRange v c) :
    sectorAddr (clusterToSector v c)=dataAddr v c := by
  have h1 := hv.cluster_le hc
  have h2 : v.totalSectors32≤2^28 := hv.addressed
  have h3 := hv.cluster_pos
  rw [hv.clusterToSector hc,sectorAddr_of_lt (by simp only [addressable]; omega)]
  rfl

/-- The visitor of `fat32_mkdir`. -/
theorem mkdirVisit_visits (hv : Mounted v) (hs : SparesTable v d0) {cwd f : ℕ} (hf : InRange v f)
    (hw : ¬d0.Fails true (clusterToSector v f)) (name83 : List UInt8) :
    Visits (mkdirVisit v cwd f name83) l d0 (slotFolder name83 d0.bytes)
      (fun r d => r=fatErrIo ∧ Failed d0 d)
      fun a r d => r=0 ∧ Later d0 d ∧ d.bytes=attached v d0.bytes a f cwd := by
  rw [mkdirVisit_search]
  apply searchVisit_visits (movable_folder name83) (fun _ hfailed => ⟨rfl,hfailed⟩)
  intro lba x d hlba hx _ _ hd
  cases write_cases d lba (setFirstCluster (fun b => d0.bytes (lba*512+b)) x f) with
  | inl hfailed =>
    rw [hfailed.1]
    exact ⟨_,_,rfl,Or.inl ⟨rfl,failed_write hd hfailed.2⟩⟩
  | inr hwrite =>
    rw [hwrite]
    dsimp only
    have hl := hd.1.used.with (copyRange d.bytes (sectorAddr lba) sectorSize
      (setFirstCluster (fun b => d0.bytes (lba*512+b)) x f))
    rw [(hs.later hl).writeEntry hv hf.2]
    dsimp only
    rw [write_of_not_fails fun hfail => hw ((hl.used.used.with _).fails hfail)]
    refine ⟨0,_,rfl,Or.inr ⟨rfl,(hl.used.used.with _).used.with _,?_⟩⟩
    rw [with_bytes,with_bytes,written_back hd (editor_setFirstCluster f) hlba hx,
      first_sector hv hf]
    rfl

/-- The first sector of a directory shows no entries after the first two slots. -/
def ShowsEmpty (v : Volume) (m : Bytes) (cl : ℕ) : Prop :=
  ∀ i, i<14 → slotFree m (dataAddr v cl+32*(i+2))=true

/-- Clearing a directory. -/
theorem clearDirectory_cases (hv : Mounted v) (hs : SparesTable v d0) (hd : Idle d0 d) {cl : ℕ}
    (hchain : FileChain v d0.bytes cl l) (hl : l≠[]) :
    (∃ d', clearDirectory v cl d=some (false,d') ∧ Idle d0 d' ∧ ¬ShowsEmpty v d0.bytes cl) ∨
      ∃ d', clearDirectory v cl d=some (true,d') ∧ Later d0 d' ∧ d'.bytes=freeLinks v d0.bytes l ∧
        (d0.Fails false (clusterToSector v cl) ∨ ShowsEmpty v d0.bytes cl) := by
  obtain ⟨x,rest,rfl⟩ := List.exists_cons_of_ne_nil hl
  obtain ⟨rfl,hc,_⟩ := (fileChain_cons hv).mp hchain
  have hpos := hc.1
  have hfree : ∃ d', freeChain v chainRounds cl d.used=some d' ∧ Later d0 d' ∧
      d'.bytes=freeLinks v d0.bytes (cl::rest) := by
    have hchain' : FileChain v d.used.bytes cl (cl::rest) := by
      rw [show d.used.bytes=d0.bytes from hd.2]
      exact hchain
    obtain ⟨d',h1,h2,h3⟩ := (hs.later hd.1.used).freeChain hv hchain' hl
      (FileChain.length_le hv hchain')
    refine ⟨d',h1,hd.1.used.trans h2,?_⟩
    rw [h3,show d.used.bytes=d0.bytes from hd.2]
  obtain ⟨d',h1,h2,h3⟩ := hfree
  rw [clearDirectory,if_neg (by omega)]
  rcases read_cases d (clusterToSector v cl) with ⟨hr,hf⟩ | hr
  · rw [looksEmpty,hr]
    dsimp only
    rw [if_pos rfl,h1]
    exact Or.inr ⟨d',rfl,h2,h3,Or.inl (hd.1.fails hf)⟩
  · have hshows : ((List.range 14).all fun i => slotFree (fun b => d.bytes (sectorAddr
        (clusterToSector v cl)+b)) (32*(i+2)))=true ↔ ShowsEmpty v d0.bytes cl := by
      rw [List.all_eq_true]
      simp only [List.mem_range]
      refine forall₂_congr fun i _ => ?_
      rw [movable_free,first_sector hv hc,hd.2]
    rw [looksEmpty,hr]
    dsimp only
    by_cases hempty : ShowsEmpty v d0.bytes cl
    · rw [if_pos (hshows.mpr hempty),h1]
      exact Or.inr ⟨d',rfl,h2,h3,Or.inr hempty⟩
    · rw [if_neg fun h => hempty (hshows.mp h)]
      exact Or.inl ⟨_,rfl,hd.used,hempty⟩

/-- What the removal of the directory in a slot does: nothing for a file or a
directory that shows entries; else its clusters are freed and its entry is
deleted, unless that last write fails. -/
def Removal (v : Volume) (chain : ℕ → List ℕ) (d0 : Disk) (a : ℕ) (r : Option ℤ) (d : Disk) : Prop :=
  r=some fatErrNotdir ∧ Idle d0 d ∧ folderAt d0.bytes a=false ∨
    r=some fatErrNotempty ∧ Idle d0 d ∧ ¬ShowsEmpty v d0.bytes (target d0.bytes a) ∨
    folderAt d0.bytes a=true ∧ Later d0 d ∧
      (target d0.bytes a≠0 → d0.Fails false (clusterToSector v (target d0.bytes a)) ∨
        ShowsEmpty v d0.bytes (target d0.bytes a)) ∧
      (r=some fatErrIo ∧ d.bytes=freeLinks v d0.bytes (chain (target d0.bytes a)) ∧
          d0.Fails true (a/512) ∨
        r=some 0 ∧ d.bytes=eraseEntry (freeLinks v d0.bytes (chain (target d0.bytes a))) a)

/-- Freeing clusters does not change the sectors of a directory. -/
theorem freeLinks_sector (hv : Mounted v) (hr : ∀ c∈nodes, InRange v c) (hl : ∀ c∈l, InRange v c)
    {lba i : ℕ} (hsub : ∀ a∈sectorSlots (lba*512), a∈slots v nodes) (hi : i<512) :
    freeLinks v m l (lba*512+i)=m (lba*512+i) := by
  have ha : lba*512+32*(i/32)∈sectorSlots (lba*512) :=
    List.mem_map.mpr ⟨i/32,List.mem_range.mpr (by omega),rfl⟩
  have h := @freeLinks_slot v m (lba*512+32*(i/32)) l hv nodes hr hl (hsub _ ha) (i%32)
    (Nat.mod_lt _ (by norm_num))
  rwa [show lba*512+32*(i/32)+i%32=lba*512+i by omega] at h

/-- The sector of a deleted entry, written back after clusters have been freed. -/
theorem write_back_freed (hv : Mounted v) (hr : ∀ c∈nodes, InRange v c) (hl : ∀ c∈l, InRange v c)
    {lba x : ℕ} (hsub : ∀ a∈sectorSlots (lba*512), a∈slots v nodes) (hlba : lba<addressable)
    (hx : x+32≤512) :
    copyRange (freeLinks v m l) (sectorAddr lba) sectorSize
      (eraseEntry (fun b => m (lba*512+b)) x)=eraseEntry (freeLinks v m l) (lba*512+x) := by
  rw [← write_back editor_eraseEntry hlba hx]
  refine copyRange_congr fun i hi => ?_
  simp only [eraseEntry,storeBytes]
  split
  · rfl
  · exact (freeLinks_sector hv hr hl hsub hi).symm

/-- Clearing a directory that may have no clusters. -/
theorem clearTarget_cases (hv : Mounted v) (hs : SparesTable v d0) (hd : Idle d0 d)
    {chain : ℕ → List ℕ} (hzero : chain 0=[]) {cl : ℕ}
    (hchain : cl≠0 → FileChain v d0.bytes cl (chain cl) ∧ chain cl≠[]) :
    (∃ d', clearDirectory v cl d=some (false,d') ∧ Idle d0 d' ∧ ¬ShowsEmpty v d0.bytes cl) ∨
      ∃ d', clearDirectory v cl d=some (true,d') ∧ Later d0 d' ∧
        d'.bytes=freeLinks v d0.bytes (chain cl) ∧
        (cl≠0 → d0.Fails false (clusterToSector v cl) ∨ ShowsEmpty v d0.bytes cl) := by
  by_cases hz : cl=0
  · rw [hz,hzero]
    exact Or.inr ⟨d,rfl,hd.1,hd.2,fun h => (h rfl).elim⟩
  · cases clearDirectory_cases hv hs hd (hchain hz).1 (hchain hz).2 with
    | inl hkept => exact Or.inl hkept
    | inr hcleared =>
      obtain ⟨d',hclear,hlater,hbytes,hseen⟩ := hcleared
      exact Or.inr ⟨d',hclear,hlater,hbytes,fun _ => hseen⟩

/-- The visitor of `fat32_rmdir`. -/
theorem rmdirVisit_visits (hv : Mounted v) (hs : SparesTable v d0) (chain : ℕ → List ℕ)
    (hr : ∀ c∈nodes, InRange v c) (hzero : chain 0=[])
    (hchain : ∀ a∈slots v nodes, slotNamed name83 d0.bytes a=true → folderAt d0.bytes a=true →
      target d0.bytes a≠0 → FileChain v d0.bytes (target d0.bytes a) (chain (target d0.bytes a)) ∧
        chain (target d0.bytes a)≠[]) :
    Visits (rmdirVisit v name83) (slots v nodes) d0 (slotNamed name83 d0.bytes)
      (fun r d => r=some fatErrIo ∧ Failed d0 d) (Removal v chain d0) := by
  rw [rmdirVisit_search]
  apply searchVisit_visits (movable_named name83) (fun _ hfailed => ⟨rfl,hfailed⟩)
  intro lba x d hlba hx hsub hfirst hd
  rw [entryAt_move]
  have hmem := hsub _ (List.mem_of_find?_eq_some hfirst)
  have hnamed := List.find?_some hfirst
  have htarget : firstClusterOf (entryAt d0.bytes (lba*512+x))=target d0.bytes (lba*512+x) := rfl
  rw [htarget]
  cases hdir : isDirectory (entryAt d0.bytes (lba*512+x)) with
  | false =>
    rw [if_neg Bool.false_ne_true]
    exact ⟨_,_,rfl,Or.inr (Or.inl ⟨rfl,hd,hdir⟩)⟩
  | true =>
    rw [if_pos rfl]
    have hown := hchain _ hmem hnamed hdir
    cases clearTarget_cases hv hs hd hzero hown with
    | inl hkept =>
      obtain ⟨d',hclear,hidle,hshows⟩ := hkept
      rw [hclear]
      exact ⟨_,_,rfl,Or.inr (Or.inr (Or.inl ⟨rfl,hidle,hshows⟩))⟩
    | inr hcleared =>
      obtain ⟨d',hclear,hlater,hbytes,hseen⟩ := hcleared
      rw [hclear]
      dsimp only
      cases write_cases d' lba (eraseEntry (fun b => d0.bytes (lba*512+b)) x) with
      | inl hfailed =>
        have hplace : (lba*512+x)/512=lba := by omega
        have hfails : d0.Fails true ((lba*512+x)/512) := by
          rw [hplace]
          exact hlater.fails hfailed.2
        rw [hfailed.1]
        exact ⟨_,_,rfl,Or.inr (Or.inr (Or.inr
          ⟨hdir,hlater.used,hseen,Or.inl ⟨rfl,hbytes,hfails⟩⟩))⟩
      | inr hwrite =>
        have hinside : ∀ c∈chain (target d0.bytes (lba*512+x)), InRange v c := by
          by_cases hz : target d0.bytes (lba*512+x)=0
          · rw [hz,hzero]
            exact fun c hc => absurd hc List.not_mem_nil
          · exact (hown hz).1.inRange
        rw [hwrite]
        refine ⟨_,_,rfl,Or.inr (Or.inr (Or.inr ⟨hdir,hlater.used.with _,hseen,Or.inr ⟨rfl,?_⟩⟩))⟩
        rw [with_bytes,hbytes]
        exact write_back_freed hv hr hinside hsub hlba hx

end OvsbMk.FatWalks
