import OvsbMk.FatEndings
import Mathlib.Data.List.TakeWhile

/-!
# Removed directories

`fat32_rmdir` looks at the last fourteen slots of a directory's first sector and
at no others, and at none for an entry without a cluster, which stands for the
root. What it removes is empty exactly when the other slots hold nothing.
-/

namespace OvsbMk.FatRemovals

open ByteMemory BlockDisk Fat32 Chains FatTable FatData FatEntries FatFiles FatScans FatLookups
open FatEndings

variable {v : Volume} {m : Bytes} {d : Disk} {cwd cl : ℕ} {nodes : List ℕ} {l : List Place}
  {name : List UInt8}

/-- The slots of a directory up to its end. -/
def listed (m : Bytes) (l : List Place) : List Place := l.takeWhile fun p => !onPlace slotEnd m p

/-- The slot holds no entry, or a dot entry. -/
def Spare (m : Bytes) (p : Place) : Prop :=
  sectorOf m p.1 p.2=0xE5 ∨ (entryAt (sectorOf m p.1) p.2).name∈dotNames

/-- A directory holds no entries but the dot entries. -/
def HoldsNothing (m : Bytes) (l : List Place) : Prop := ∀ p∈listed m l, Spare m p

/-- The slots of a directory that `fat32_rmdir` looks at. -/
def window (v : Volume) (cl : ℕ) : List Place :=
  (List.range 14).map fun i => (clusterToSector v cl,32*(i+2))

/-- They are all free. -/
def WindowFree (v : Volume) (m : Bytes) (cl : ℕ) : Prop :=
  ∀ p∈window v cl, onPlace slotFree m p=true

/-- A directory that is removed held no entries but the dot entries. -/
def RemovesEmpty (v : Volume) (d : Disk) (cwd : ℕ) (nodes : List ℕ) (name : List UInt8) : Prop :=
  ∀ d', fat32Rmdir v cwd name d=some (0,d') →
    ∀ p, lookup d.bytes (places v nodes) (nameTo83 name)=some p →
      ∀ chain, Chain (link v d.bytes) Ends (denoted v (leadsTo d.bytes p)) chain →
        HoldsNothing d.bytes (places v chain)

/-- The slots that are not looked at hold no entries but the dot entries. -/
def UncheckedSpare (v : Volume) (m : Bytes) (cl : ℕ) (l : List Place) : Prop :=
  ∀ p∈listed m l, p∉window v cl → Spare m p

/-- A slot before the end of a directory is not unused. -/
theorem listed_used {p : Place} (h : p∈listed m l) : onPlace slotEnd m p=false := by
  have := List.mem_takeWhile_imp h
  simpa using this

/-- When the slots that are looked at are free, the others decide. -/
theorem holdsNothing_iff (hfree : WindowFree v m cl) :
    HoldsNothing m l ↔ UncheckedSpare v m cl l := by
  constructor
  · exact fun h p hp _ => h p hp
  · intro h p hp
    by_cases hw : p∈window v cl
    · have hused := listed_used hp
      have hslot := hfree p hw
      simp only [onPlace,slotEnd,decide_eq_false_iff_not] at hused
      simp only [onPlace,slotFree,Bool.or_eq_true,decide_eq_true_eq] at hslot
      exact Or.inl (hslot.resolve_left hused)
    · exact h p hp hw

/-- What looks empty on a faultless disk. -/
theorem looksEmpty_eq (hd : Faultless d) (v : Volume) (cl : ℕ) :
    ∃ b, looksEmpty v cl d=(b,d) ∧ (b=true ↔ WindowFree v d.bytes cl) := by
  refine ⟨_,by rw [looksEmpty,hd.read],?_⟩
  simp only [WindowFree,window,List.mem_map,List.all_eq_true,forall_exists_index,and_imp,
    forall_apply_eq_imp_iff₂]
  rfl

/-- An entry is removed exactly when it is that of a directory that looks empty, or
has no cluster. -/
theorem removeAt_zero_iff (hd : Faultless d) (v : Volume) (p : Place) :
    (removeAt v d p).1=some 0 ↔ isDirectory (entryAt (sectorOf d.bytes p.1) p.2)=true ∧
      (leadsTo d.bytes p=0 ∨ WindowFree v d.bytes (leadsTo d.bytes p)) := by
  rw [removeAt]
  cases isDirectory (entryAt (sectorOf d.bytes p.1) p.2) with
  | false => simp [fatErrNotdir]
  | true =>
    rw [if_pos rfl]
    have hlead : firstClusterOf (entryAt (sectorOf d.bytes p.1) p.2)=leadsTo d.bytes p := rfl
    rw [hlead,clearDirectory]
    by_cases hzero : leadsTo d.bytes p=0
    · rw [if_pos hzero]
      exact iff_of_true rfl ⟨rfl,Or.inl hzero⟩
    · obtain ⟨b,hlook,hb⟩ := looksEmpty_eq hd v (leadsTo d.bytes p)
      rw [if_neg hzero,hlook]
      dsimp only
      by_cases hfree : WindowFree v d.bytes (leadsTo d.bytes p)
      · obtain ⟨m',hchain,_⟩ := freeChain_ends hd v (leadsTo d.bytes p)
        rw [if_pos (hb.mpr hfree),hchain]
        exact iff_of_true rfl ⟨rfl,Or.inr hfree⟩
      · rw [if_neg fun h => hfree (hb.mp h)]
        refine iff_of_false (by simp [fatErrNotempty]) ?_
        rintro ⟨_,h | h⟩
        · exact hzero h
        · exact hfree h

/-- `fat32_rmdir` removes nothing but empty directories exactly when the entry is
not that of a directory, or stands for the root, which is empty, or leads to a
directory that shows entries where it is looked at or has none elsewhere. -/
theorem rmdir_empty_iff (hd : Faultless d) (hchain : Chain (link v d.bytes) Ends cwd nodes) :
    RemovesEmpty v d cwd nodes name ↔
      ∀ p, lookup d.bytes (places v nodes) (nameTo83 name)=some p →
        isDirectory (entryAt (sectorOf d.bytes p.1) p.2)=true →
          ∀ chain, Chain (link v d.bytes) Ends (denoted v (leadsTo d.bytes p)) chain →
            (leadsTo d.bytes p=0 → HoldsNothing d.bytes (places v chain)) ∧
            (leadsTo d.bytes p≠0 → ¬WindowFree v d.bytes (leadsTo d.bytes p) ∨
              UncheckedSpare v d.bytes (leadsTo d.bytes p) (places v chain)) := by
  have hresult : ∀ p, lookup d.bytes (places v nodes) (nameTo83 name)=some p →
      fat32Rmdir v cwd name d=(removeAt v d p).1.map fun r => (r,(removeAt v d p).2) := by
    intro p hp
    rw [fat32Rmdir_eq hd hchain,hp]
    rfl
  constructor
  · intro h p hp hdir chain hc
    refine ⟨fun hzero => ?_,fun _ => ?_⟩
    · have hret := (removeAt_zero_iff hd v p).mpr ⟨hdir,Or.inl hzero⟩
      exact h _ (by rw [hresult p hp,hret]; rfl) p hp chain hc
    · by_cases hfree : WindowFree v d.bytes (leadsTo d.bytes p)
      · have hret := (removeAt_zero_iff hd v p).mpr ⟨hdir,Or.inr hfree⟩
        exact Or.inr ((holdsNothing_iff hfree).mp
          (h _ (by rw [hresult p hp,hret]; rfl) p hp chain hc))
      · exact Or.inl hfree
  · intro h d' hrun p hp chain hc
    rw [hresult p hp] at hrun
    obtain ⟨r,hr,heq⟩ := Option.map_eq_some_iff.mp hrun
    obtain rfl : r=0 := (Prod.mk.inj heq).1
    obtain ⟨hdir,hcase⟩ := (removeAt_zero_iff hd v p).mp hr
    obtain ⟨hroot,hother⟩ := h p hp hdir chain hc
    by_cases hzero : leadsTo d.bytes p=0
    · exact hroot hzero
    · have hfree := hcase.resolve_left hzero
      exact (holdsNothing_iff hfree).mpr ((hother hzero).resolve_left (not_not.mpr hfree))

/-- The sample disk after a directory `B` has been made next to the file `A`. -/
def madeDisk : Disk := sampleDisk.with
  ((fat32Mkdir sampleVolume 2 [0x42] sampleDisk).elim sampleDisk.bytes fun r => r.2.bytes)

/-- The new directory has one cluster. -/
theorem madeDisk_chain {c : ℕ} (hc : c=2 ∨ c=3) :
    Chain (link sampleVolume madeDisk.bytes) Ends c [c] := by
  have hlinks : link sampleVolume madeDisk.bytes 2=endMark ∧
      link sampleVolume madeDisk.bytes 3=endMark := by decide +kernel
  rcases hc with rfl | rfl
  · exact chain_cons.mpr ⟨rfl,by norm_num [Ends],chain_nil.mpr (by rw [hlinks.1]; norm_num [Ends])⟩
  · exact chain_cons.mpr ⟨rfl,by norm_num [Ends],chain_nil.mpr (by rw [hlinks.2]; norm_num [Ends])⟩

/-- Removing the new directory removes an empty one. -/
theorem madeDisk_removes_empty : RemovesEmpty sampleVolume madeDisk 2 [2] [0x42] := by
  refine (rmdir_empty_iff (show Faultless madeDisk from rfl) (madeDisk_chain (Or.inl rfl))).mpr
    fun p hp _ chain hc => ?_
  have hfound : lookup madeDisk.bytes (places sampleVolume [2]) (nameTo83 [0x42])=some (2,32) := by
    decide +kernel
  obtain rfl : (2,32)=p := Option.some.inj (hfound.symm.trans hp)
  have hlead : leadsTo madeDisk.bytes (2,32)=3 := by decide +kernel
  have hroot : denoted sampleVolume 3=3 := rfl
  rw [hlead] at hc ⊢
  rw [hroot] at hc
  obtain rfl := (madeDisk_chain (Or.inr rfl)).unique hc
  have hspare : ∀ p∈listed madeDisk.bytes (places sampleVolume [3]),
      (entryAt (sectorOf madeDisk.bytes p.1) p.2).name∈dotNames := by decide +kernel
  exact ⟨fun h => (Nat.succ_ne_zero 2 h).elim,fun _ => Or.inr fun q hq _ => Or.inr (hspare q hq)⟩

/-- From the new directory its parent, the root with a file and a directory in its
first two slots, is removed under the name `..`. -/
theorem parent_removed : Faultless madeDisk ∧
    Chain (link sampleVolume madeDisk.bytes) Ends 3 [3] ∧
      ¬RemovesEmpty sampleVolume madeDisk 3 [3] [0x2E,0x2E] := by
  refine ⟨rfl,madeDisk_chain (Or.inr rfl),fun h => ?_⟩
  have hrun : (fat32Rmdir sampleVolume 3 [0x2E,0x2E] madeDisk).map Prod.fst=some 0 := by
    decide +kernel
  obtain ⟨⟨r,d'⟩,hrun,hr⟩ := Option.map_eq_some_iff.mp hrun
  obtain rfl : r=0 := hr
  have hfound : lookup madeDisk.bytes (places sampleVolume [3]) (nameTo83 [0x2E,0x2E])=some (3,32) := by
    decide +kernel
  have hlead : denoted sampleVolume (leadsTo madeDisk.bytes (3,32))=2 := by decide +kernel
  have hempty := h d' hrun (3,32) hfound [2] (by rw [hlead]; exact madeDisk_chain (Or.inl rfl))
  have hentry : (2,0)∈listed madeDisk.bytes (places sampleVolume [2]) ∧
      sectorOf madeDisk.bytes 2 0≠0xE5 ∧
      (entryAt (sectorOf madeDisk.bytes 2) 0).name∉dotNames := by decide +kernel
  rcases hempty (2,0) hentry.1 with hfree | hdot
  · exact hentry.2.1 hfree
  · exact hentry.2.2 hdot

end OvsbMk.FatRemovals
