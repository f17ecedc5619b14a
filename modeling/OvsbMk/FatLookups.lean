import OvsbMk.FatScans
import OvsbMk.FatEntries
import OvsbMk.FatFiles

/-!
# Looking names up

The five loops that look a name up, on directories of any volume: where nothing
but unused slots follows the first unused slot, all of them act on the first live
entry with the name.
-/

namespace OvsbMk.FatLookups

open ByteMemory BlockDisk Fat32 Chains FatTable FatData FatDirectory FatEntries FatFiles FatScans

variable {v : Volume} {m : Bytes} {d : Disk} {start : ℕ} {nodes : List ℕ} {l : List Place}
  {name name83 : List UInt8}

/-- The first live entry with a name. -/
def lookup (m : Bytes) (l : List Place) (name83 : List UInt8) : Option Place :=
  l.find? fun p =>
    onPlace slotLive m p && decide ((entryAt (sectorOf m p.1) p.2).name=name83)

/-- Only unused slots follow the first unused slot. -/
def TailUnused (m : Bytes) (l : List Place) : Prop :=
  ∃ used unused, l=used++unused ∧ (∀ p∈used, onPlace slotEnd m p=false) ∧
    ∀ p∈unused, onPlace slotEnd m p=true

/-- The test for a live entry with a name. -/
theorem onPlace_named (m : Bytes) (p : Place) :
    onPlace (slotNamed name83) m p=
      (onPlace slotLive m p && decide ((entryAt (sectorOf m p.1) p.2).name=name83)) := by
  simp only [onPlace,slotNamed,slotHit,slotLive,Bool.and_assoc]

/-- Searching for a live entry with a name. -/
theorem find_named (m : Bytes) (l : List Place) :
    l.find? (onPlace (slotNamed name83) m)=lookup m l name83 :=
  find?_agree fun p _ => onPlace_named m p

/-- The test that does not look for the end sees live entries only. -/
theorem find_hit (hhead : name83.headD 0≠0) (m : Bytes) (l : List Place) :
    l.find? (onPlace (slotHit name83) m)=lookup m l name83 := by
  rw [← find_named]
  refine find?_agree fun p _ => ?_
  simp only [onPlace]
  rw [Bool.eq_iff_iff]
  constructor
  · intro h
    exact named_iff.mpr ⟨live_of_hit hhead h,(hit_iff.mp h).2.2⟩
  · intro h
    obtain ⟨hlive,hname⟩ := named_iff.mp h
    exact hit_of_live hlive hname

/-- The search that stops at the end of the directory. -/
theorem find_stop (htail : TailUnused m l) :
    (∃ p, lookup m l name83=some p ∧ l.find? (onPlace (stopTest name83) m)=some p ∧
        onPlace slotEnd m p=false) ∨
      lookup m l name83=none ∧ ∀ p, l.find? (onPlace (stopTest name83) m)=some p →
        onPlace slotEnd m p=true := by
  obtain ⟨used,unused,rfl,hused,hunused⟩ := htail
  have hagree : used.find? (onPlace (stopTest name83) m)=lookup m used name83 := by
    rw [← find_named]
    refine find?_agree fun p hp => ?_
    have hp' : slotEnd (sectorOf m p.1) p.2=false := hused p hp
    simp only [onPlace,stopTest,slotNamed,hp',Bool.false_or,Bool.not_false,Bool.true_and]
  have hnone : lookup m unused name83=none := by
    rw [lookup,List.find?_eq_none]
    intro p hp
    have hp' : slotEnd (sectorOf m p.1) p.2=true := hunused p hp
    simp only [onPlace,slotLive,hp']
    exact Bool.false_ne_true
  have hsplit : lookup m (used++unused) name83=lookup m used name83 := by
    have happ : lookup m (used++unused) name83=
      (lookup m used name83).or (lookup m unused name83) := List.find?_append
    rw [happ,hnone,Option.or_none]
  rw [hsplit,List.find?_append,hagree]
  cases hfound : lookup m used name83 with
  | some p => exact Or.inl ⟨p,rfl,rfl,hused p (List.mem_of_find?_eq_some hfound)⟩
  | none =>
    refine Or.inr ⟨rfl,fun p hp => ?_⟩
    rw [Option.none_or] at hp
    exact hunused p (List.mem_of_find?_eq_some hp)

/-- The disk with a sector replaced. -/
def putSector (d : Disk) (lba : ℕ) (buf : Bytes) : Disk :=
  d.with (copyRange d.bytes (sectorAddr lba) sectorSize buf)

/-- What `find_entry` answers at a slot. -/
def answerAt (d : Disk) (p : Place) : (ℤ×Option DirEntry)×Disk :=
  if onPlace slotEnd d.bytes p then ((-1,none),d)
  else ((toInt p.1,some (entryAt (sectorOf d.bytes p.1) p.2)),d)

/-- What `delete_entry_at` does at a slot. -/
def deleteAt (d : Disk) (p : Place) : ℤ×Disk :=
  if onPlace slotEnd d.bytes p then (-1,d)
  else (0,putSector d p.1 (eraseEntry (sectorOf d.bytes p.1) p.2))

/-- What the update loop of `fat32_write_file` does at a slot. -/
def updateAt (cluster : ℕ) (result : ℤ) (d : Disk) (p : Place) : ℤ×Disk :=
  (result,putSector d p.1 (setFirstCluster
    (store32 (sectorOf d.bytes p.1) (p.2+28) (result%2^32).toNat) p.2 cluster))

/-- What `fat32_rename` does at a slot. -/
def renameAt (new83 : List UInt8) (d : Disk) (p : Place) : ℤ×Disk :=
  (0,putSector d p.1 (setName (sectorOf d.bytes p.1) p.2 new83))

/-- What `fat32_rmdir` does at a slot: no answer stands for a loop that does not
end. -/
def removeAt (v : Volume) (d : Disk) (p : Place) : Option ℤ×Disk :=
  if isDirectory (entryAt (sectorOf d.bytes p.1) p.2) then
    match clearDirectory v (firstClusterOf (entryAt (sectorOf d.bytes p.1) p.2)) d with
    | none => (none,d)
    | some (false,d) => (some fatErrNotempty,d)
    | some (true,d') => (some 0,putSector d' p.1 (eraseEntry (sectorOf d.bytes p.1) p.2))
  else (some fatErrNotdir,d)

/-- The contents of a sector that was read. -/
theorem sector_eq (m : Bytes) (lba : ℕ) : (fun b => m (sectorAddr lba+b))=sectorOf m lba := rfl

/-- A visitor that searches acts as it goes on at a slot. -/
theorem searchVisit_selects {ρ : Type} {test : Bytes → ℕ → Bool} {unread : ρ}
    {next : ℕ → Bytes → ℕ → Disk → Option ρ×Disk} {act : Place → ρ×Disk} (hd : Faultless d)
    (hnext : ∀ lba a, next lba (sectorOf d.bytes lba) a d=
      (some (act (lba,a)).1,(act (lba,a)).2)) :
    Selects (searchVisit test unread next) d test act := by
  intro lba
  rw [searchVisit,hd.read]
  dsimp only
  rw [sector_eq]
  cases firstSlot test (sectorOf d.bytes lba) with
  | none => rfl
  | some a => exact hnext lba a

/-- The visitor of `find_entry`. -/
theorem findVisit_selects (hd : Faultless d) :
    Selects (findVisit name83) d (stopTest name83) (answerAt d) := by
  rw [findVisit_search]
  apply searchVisit_selects hd
  intro lba a
  have hend : onPlace slotEnd d.bytes (lba,a)=slotEnd (sectorOf d.bytes lba) a := rfl
  rw [answerAt,hend]
  by_cases h : slotEnd (sectorOf d.bytes lba) a=true
  · rw [if_pos h,if_pos h]
  · rw [if_neg h,if_neg h]

/-- The visitor of `delete_entry_at`. -/
theorem deleteVisit_selects (hd : Faultless d) :
    Selects (deleteVisit name83) d (stopTest name83) (deleteAt d) := by
  rw [deleteVisit_search]
  apply searchVisit_selects hd
  intro lba a
  have hend : onPlace slotEnd d.bytes (lba,a)=slotEnd (sectorOf d.bytes lba) a := rfl
  rw [deleteAt,hend,hd.write]
  by_cases h : slotEnd (sectorOf d.bytes lba) a=true
  · rw [if_pos h,if_pos h]
  · rw [if_neg h,if_neg h]
    rfl

/-- The visitor of the update loop. -/
theorem updateVisit_selects (hd : Faultless d) (cluster : ℕ) (result : ℤ) :
    Selects (updateVisit name83 cluster result) d (slotHit name83) (updateAt cluster result d) := by
  rw [updateVisit_search]
  apply searchVisit_selects hd
  intro lba a
  rw [hd.write]
  rfl

/-- The visitor of `fat32_rename`. -/
theorem renameVisit_selects (hd : Faultless d) (new83 : List UInt8) :
    Selects (renameVisit name83 new83) d (slotNamed name83) (renameAt new83 d) := by
  rw [renameVisit_search]
  apply searchVisit_selects hd
  intro lba a
  rw [hd.write]
  rfl

/-- Freeing a chain does not make transfers fail. -/
theorem freeChain_faultless (hd : Faultless d) {fuel cl : ℕ} {d' : Disk}
    (h : freeChain v fuel cl d=some d') : Faultless d' := by
  induction fuel generalizing cl d with
  | zero => cases h
  | succ fuel ih =>
    rw [freeChain,readEntry_faultless hd,writeEntry_faultless hd] at h
    split at h
    · exact ih (hd.with _) h
    · rw [← Option.some.inj h]
      exact hd.with _

/-- Clearing a directory does not make transfers fail; the disk is left alone when
the directory does not look empty. -/
theorem clearDirectory_faultless (hd : Faultless d) {cl : ℕ} {b : Bool} {d' : Disk}
    (h : clearDirectory v cl d=some (b,d')) : Faultless d' ∧ (b=false → d'=d) := by
  rw [clearDirectory] at h
  split at h
  · simp only [Option.some.injEq,Prod.mk.injEq] at h
    obtain ⟨rfl,rfl⟩ := h
    exact ⟨hd,fun h => by cases h⟩
  · dsimp only at h
    have hlook : (looksEmpty v cl d).2=d := by rw [looksEmpty,hd.read]
    rw [hlook] at h
    split at h
    · obtain ⟨d'',hfree,heq⟩ := Option.map_eq_some_iff.mp h
      simp only [Prod.mk.injEq] at heq
      obtain ⟨rfl,rfl⟩ := heq
      exact ⟨freeChain_faultless hd hfree,fun h => by cases h⟩
    · simp only [Option.some.injEq,Prod.mk.injEq] at h
      obtain ⟨rfl,rfl⟩ := h
      exact ⟨hd,fun _ => rfl⟩

/-- The visitor of `fat32_rmdir`. -/
theorem rmdirVisit_selects (hd : Faultless d) :
    Selects (rmdirVisit v name83) d (slotNamed name83) (removeAt v d) := by
  rw [rmdirVisit_search]
  apply searchVisit_selects hd
  intro lba a
  simp only [removeAt]
  cases isDirectory (entryAt (sectorOf d.bytes lba) a) with
  | false => rfl
  | true =>
    rw [if_pos rfl,if_pos rfl]
    rcases hclear : clearDirectory v (firstClusterOf (entryAt (sectorOf d.bytes lba) a)) d with
      _ | ⟨b,d'⟩
    · rfl
    · cases b with
      | false => rfl
      | true =>
        dsimp only
        rw [(clearDirectory_faultless hd hclear).1.write]
        rfl

/-- What a function returns for the entry selected, or when there is none. -/
def chosen {ρ : Type} (d : Disk) (missing : ρ) (act : Place → ρ×Disk) : Option Place → ρ×Disk
  | none => (missing,d)
  | some p => act p

/-- What the lookup loops do with the entry they select, or when they select
none. -/
structure Agreement (v : Volume) (d : Disk) (start : ℕ) (name : List UInt8) (found : Option Place) :
    Prop where
  /-- `find_entry` returns the sector and the entry. -/
  find : findEntry v start name d=some (chosen d (-1,none)
    (fun p => ((toInt p.1,some (entryAt (sectorOf d.bytes p.1) p.2)),d)) found)
  /-- `delete_entry_at` marks the entry as deleted. -/
  delete : deleteEntryAt v start name d=some (chosen d (-1)
    (fun p => (0,putSector d p.1 (eraseEntry (sectorOf d.bytes p.1) p.2))) found)
  /-- The update loop of `fat32_write_file` stores size and cluster in the entry. -/
  update : ∀ cluster result,
    walkChain v (updateVisit (nameTo83 name) cluster result) chainRounds start d=
      some (acted d (updateAt cluster result d) found)
  /-- `fat32_rename` replaces the name of the entry. -/
  rename : ∀ newname, fat32Rename v start name newname d=
    some (chosen d fatErrNotfound (renameAt (nameTo83 newname) d) found)
  /-- `fat32_rmdir` removes the entry, if it is a directory that looks empty. -/
  remove : fat32Rmdir v start name d=
    (chosen d (some fatErrNotfound) (removeAt v d) found).1.map fun r =>
      (r,(chosen d (some fatErrNotfound) (removeAt v d) found).2)

/-- `fat32_rmdir` acts on the first live entry with the name, whatever follows the
first unused slot. -/
theorem fat32Rmdir_eq (hd : Faultless d) (hchain : Chain (link v d.bytes) Ends start nodes)
    (name : List UInt8) : fat32Rmdir v start name d=
      (chosen d (some fatErrNotfound) (removeAt v d)
        (lookup d.bytes (places v nodes) (nameTo83 name))).1.map fun r =>
          (r,(chosen d (some fatErrNotfound) (removeAt v d)
            (lookup d.bytes (places v nodes) (nameTo83 name))).2) := by
  rw [fat32Rmdir,walkChain_places hd (rmdirVisit_selects hd) hchain
    (chain_length_lt hchain fun _ h => h).le,find_named]
  cases lookup d.bytes (places v nodes) (nameTo83 name) with
  | none => rfl
  | some p =>
    dsimp only [acted,chosen]
    cases (removeAt v d p).1 <;> rfl

/-- In a directory with only unused slots after the first one, all lookup loops
select the first live entry with the name, or none. -/
theorem lookups_agree (hd : Faultless d) (hchain : Chain (link v d.bytes) Ends start nodes)
    (htail : TailUnused d.bytes (places v nodes)) (hname : 0∉name) :
    Agreement v d start name (lookup d.bytes (places v nodes) (nameTo83 name)) := by
  have hlen := (chain_length_lt hchain fun _ h => h).le
  have hhead := nameTo83_ne_zero hname
  have hfind := @find_stop _ _ (nameTo83 name) htail
  refine ⟨?_,?_,fun cluster result => ?_,fun newname => ?_,?_⟩
  · rw [findEntry,walkChain_places hd (findVisit_selects hd) hchain hlen]
    rcases hfind with ⟨p,h1,h2,h3⟩ | ⟨h1,h2⟩
    · rw [h1,h2]
      dsimp only [acted,chosen]
      rw [answerAt,if_neg (by rw [h3]; exact Bool.false_ne_true)]
    · rw [h1]
      cases hp : (places v nodes).find? (onPlace (stopTest (nameTo83 name)) d.bytes) with
      | none => rfl
      | some p =>
        dsimp only [acted,chosen]
        rw [answerAt,if_pos (h2 p hp)]
  · rw [deleteEntryAt,walkChain_places hd (deleteVisit_selects hd) hchain hlen]
    rcases hfind with ⟨p,h1,h2,h3⟩ | ⟨h1,h2⟩
    · rw [h1,h2]
      dsimp only [acted,chosen]
      rw [deleteAt,if_neg (by rw [h3]; exact Bool.false_ne_true)]
    · rw [h1]
      cases hp : (places v nodes).find? (onPlace (stopTest (nameTo83 name)) d.bytes) with
      | none => rfl
      | some p =>
        dsimp only [acted,chosen]
        rw [deleteAt,if_pos (h2 p hp)]
  · rw [walkChain_places hd (updateVisit_selects hd cluster result) hchain hlen,find_hit hhead]
  · rw [fat32Rename,walkChain_places hd (renameVisit_selects hd (nameTo83 newname)) hchain hlen,
      find_named]
    cases lookup d.bytes (places v nodes) (nameTo83 name) <;> rfl
  · exact fat32Rmdir_eq hd hchain name

/-- On the sample disk the loops agree about the name `A`. -/
theorem sampleDisk_agree : Agreement sampleVolume sampleDisk 2 [0x41]
    (lookup sampleDisk.bytes (places sampleVolume [2]) (nameTo83 [0x41])) :=
  lookups_agree (show Faultless sampleDisk from rfl) sampleDisk_root.chain
    ⟨(places sampleVolume [2]).take 1,(places sampleVolume [2]).drop 1,by decide +kernel,
      by decide +kernel,by decide +kernel⟩ (by decide)

end OvsbMk.FatLookups
