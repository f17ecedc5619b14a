import OvsbMk.FatData
import OvsbMk.FatViews

/-!
# Loops over any directory

The loops of the driver on volumes of any geometry and disks of any contents.
A slot is a sector number with an offset, a directory the list of the slots of
its clusters, however its sectors overlap on the disk. On a faultless disk a
loop that acts once acts on the first slot that passes its test, and a loop that
collects goes through the list.
-/

namespace OvsbMk.FatScans

open ByteMemory BlockDisk Fat32 Chains FatTable FatData FatViews

variable {v : Volume} {m : Bytes} {d : Disk} {c lba start value : ℕ} {nodes : List ℕ}

/-- A slot: the number of its sector and the offset there. -/
abbrev Place := ℕ×ℕ

/-- The contents of a sector. -/
def sectorOf (m : Bytes) (lba : ℕ) : Bytes := fun b => m (sectorAddr lba+b)

/-- The slots of a sector. -/
def sectorPlaces (lba : ℕ) : List Place := (List.range 16).map fun i => (lba,32*i)

/-- The slots of consecutive sectors. -/
def runPlaces (sector s count : ℕ) : List Place :=
  (List.range' s count).flatMap fun s => sectorPlaces ((sector+s)%2^32)

/-- The slots of a cluster. -/
def clusterPlaces (v : Volume) (c : ℕ) : List Place :=
  runPlaces (clusterToSector v c) 0 v.sectorsPerCluster

/-- The slots of a directory. -/
def places (v : Volume) (nodes : List ℕ) : List Place := nodes.flatMap (clusterPlaces v)

/-- A test of a slot, on the contents of the disk. -/
def onPlace (test : Bytes → ℕ → Bool) (m : Bytes) (p : Place) : Bool := test (sectorOf m p.1) p.2

/-- The directory an entry leads to: the root for an entry without a cluster. -/
def denoted (v : Volume) (cl : ℕ) : ℕ := if cl=0 then v.rootCluster else cl

/-- The cluster of the entry in a slot. -/
def leadsTo (m : Bytes) (p : Place) : ℕ := firstClusterOf (entryAt (sectorOf m p.1) p.2)

/-- Slots of one sector more. -/
theorem runPlaces_succ (sector s count : ℕ) : runPlaces sector s (count+1)=
    sectorPlaces ((sector+s)%2^32)++runPlaces sector (s+1) count := by
  rw [runPlaces,List.range'_succ,List.flatMap_cons]
  rfl

/-- Slots of one cluster more. -/
theorem places_cons : places v (c::nodes)=clusterPlaces v c++places v nodes := by
  rw [places,List.flatMap_cons]
  rfl

/-- The first slot of a sector that passes a test. -/
theorem firstSlot_sector (test : Bytes → ℕ → Bool) (m : Bytes) (lba : ℕ) :
    firstSlot test (sectorOf m lba)=((sectorPlaces lba).find? (onPlace test m)).map Prod.snd := by
  rw [firstSlot,sectorPlaces,List.find?_map,Option.map_map]
  rfl

/-- A slot of a sector knows its sector. -/
theorem sector_of_mem {p : Place} (h : p∈sectorPlaces lba) : p.1=lba ∧ p.2+32≤512 := by
  obtain ⟨i,hi,rfl⟩ := List.mem_map.mp h
  have := List.mem_range.mp hi
  exact ⟨rfl,by dsimp only; omega⟩

/-- The slots of a sector up to the first one that passes a test. -/
theorem firstSlot_cases (test : Bytes → ℕ → Bool) (m : Bytes) (lba : ℕ) :
    firstSlot test (sectorOf m lba)=none ∧ (sectorPlaces lba).find? (onPlace test m)=none ∨
      ∃ a, firstSlot test (sectorOf m lba)=some a ∧
        (sectorPlaces lba).find? (onPlace test m)=some (lba,a) := by
  rw [firstSlot_sector]
  cases h : (sectorPlaces lba).find? (onPlace test m) with
  | none => exact Or.inl ⟨rfl,rfl⟩
  | some p =>
    obtain ⟨h1,_⟩ := sector_of_mem (List.mem_of_find?_eq_some h)
    exact Or.inr ⟨p.2,rfl,by rw [← h1]⟩

/-- The sector of any link can be addressed; the number of the cluster counts
modulo `2^30`. -/
theorem fatSector_any (v : Volume) (c : ℕ) :
    sectorAddr (fatSector v c)+c*4%2^32%512=linkAddr v (c%2^30) ∧ c*4%2^32%512+4≤512 := by
  have h1 := v.fatStartSector_lt
  have h2 : fatSector v c<addressable := by
    simp only [fatSector,addressable]
    omega
  rw [sectorAddr_of_lt h2,linkAddr,fatSector]
  simp only [sectorSize]
  omega

/-- Reading any link of a disk. -/
theorem readEntry_any (v : Volume) (c : ℕ) (d : Disk) :
    fatReadEntry v c d=
      (if d.faults 0 false (fatSector v c) then 0 else link v d.bytes (c%2^30),d.used) := by
  obtain ⟨h1,_⟩ := fatSector_any v c
  rw [fatReadEntry,ataReadSector]
  cases d.faults 0 false (fatSector v c) with
  | true => rfl
  | false =>
    rw [if_neg Bool.false_ne_true,if_neg Bool.false_ne_true]
    dsimp only
    rw [load32,loadBytes_sector,h1]
    rfl

/-- Reading any link of a faultless disk. -/
theorem readEntry_faultless (hd : Faultless d) (v : Volume) (c : ℕ) :
    fatReadEntry v c d=(link v d.bytes (c%2^30),d) := by
  rw [readEntry_any,hd.used,show d.faults=fun _ _ _ => false from hd]
  rfl

/-- Writing any link of a faultless disk. -/
theorem writeEntry_faultless (hd : Faultless d) (v : Volume) (c value : ℕ) :
    fatWriteEntry v c value d=(true,d.with (setLink v d.bytes (c%2^30) value)) := by
  obtain ⟨h1,h2⟩ := fatSector_any v c
  rw [fatWriteEntry,hd.read]
  dsimp only
  rw [hd.write,load32,store32,loadBytes_sector,copyRange_store h2,h1]
  rfl

/-- Numbers that do not end a walk count as they are. -/
theorem mod_of_not_ends (h : ¬Ends c) : c%2^30=c := by
  simp only [Ends,endOfChain] at h
  omega

/-- Going on along a chain. -/
theorem readEntry_next (hd : Faultless d) (h : ¬Ends c) :
    fatReadEntry v c d=(link v d.bytes c,d) := by
  rw [readEntry_faultless hd,mod_of_not_ends h]

/-- A chain, whatever its clusters, has no more of them than there are numbers. -/
theorem chain_length_lt {next : ℕ → ℕ} {stop : ℕ → Prop} (h : Chain next stop start nodes)
    (hstop : ∀ c, Ends c → stop c) : nodes.length<chainRounds := by
  have hsub : nodes⊆List.range endOfChain := by
    intro c hc
    have := mt (hstop c) (h.not_stop hc)
    simp only [Ends] at this
    rw [List.mem_range]
    omega
  have hle := (List.subperm_of_subset h.nodup hsub).length_le
  rw [List.length_range] at hle
  exact hle.trans_lt (by norm_num)

/-- A visitor that acts on the first slot of a sector that passes a test and else
leaves the disk alone. -/
def Selects {ρ : Type} (visit : ℕ → Disk → Option ρ×Disk) (d : Disk)
    (test : Bytes → ℕ → Bool) (act : Place → ρ×Disk) : Prop :=
  ∀ lba, visit lba d=
    match firstSlot test (sectorOf d.bytes lba) with
    | none => (none,d)
    | some a => (some (act (lba,a)).1,(act (lba,a)).2)

/-- What a loop that acts once makes of the first slot that passes. -/
def acted {ρ : Type} (d : Disk) (act : Place → ρ×Disk) : Option Place → Option ρ×Disk
  | none => (none,d)
  | some p => (some (act p).1,(act p).2)

section
variable {ρ : Type} {visit : ℕ → Disk → Option ρ×Disk} {test : Bytes → ℕ → Bool}
  {act : Place → ρ×Disk}

/-- The loop over sectors acts on the first slot that passes. -/
theorem walkSectors_places (h : Selects visit d test act) (sector count s : ℕ) :
    walkSectors visit sector count s d=
      acted d act ((runPlaces sector s count).find? (onPlace test d.bytes)) := by
  induction count generalizing s with
  | zero => rfl
  | succ count ih =>
    rw [walkSectors,h,runPlaces_succ,List.find?_append]
    rcases firstSlot_cases test d.bytes ((sector+s)%2^32) with ⟨h1,h2⟩ | ⟨a,h1,h2⟩
    · rw [h1,h2,Option.none_or]
      exact ih (s+1)
    · rw [h1,h2]
      rfl

/-- A loop that starts at the end of a chain. -/
theorem walkChain_ends (h : Ends start) (fuel : ℕ) :
    walkChain v visit fuel start d=some (none,d) := by
  cases fuel with
  | zero => rw [walkChain,if_neg h]
  | succ fuel => rw [walkChain,if_neg h]

/-- The loop over a chain acts on the first slot that passes. -/
theorem walkChain_places (hd : Faultless d) (h : Selects visit d test act)
    (hchain : Chain (link v d.bytes) Ends start nodes) {fuel : ℕ} (hfuel : nodes.length≤fuel) :
    walkChain v visit fuel start d=
      some (acted d act ((places v nodes).find? (onPlace test d.bytes))) := by
  induction nodes generalizing start fuel with
  | nil =>
    exact walkChain_ends (chain_nil.mp hchain) fuel
  | cons c rest ih =>
    obtain ⟨rfl,hc,hrest⟩ := chain_cons.mp hchain
    have hin : 2 ≤ start ∧ start<endOfChain := not_not.mp hc
    obtain ⟨fuel,rfl⟩ : ∃ k, fuel=k+1 := ⟨fuel-1,by rw [List.length_cons] at hfuel; omega⟩
    rw [walkChain,if_pos hin]
    dsimp only
    have hplaces : clusterPlaces v start=runPlaces (clusterToSector v start) 0 v.sectorsPerCluster :=
      rfl
    rw [walkSectors_places h,places_cons,List.find?_append,hplaces]
    cases (runPlaces (clusterToSector v start) 0 v.sectorsPerCluster).find?
        (onPlace test d.bytes) with
    | none =>
      rw [Option.none_or]
      dsimp only [acted]
      rw [readEntry_next hd hc]
      exact ih hrest (by rw [List.length_cons] at hfuel; omega)
    | some p => rfl

end

section
variable {σ : Type} {more : σ → Bool} {enter : Bytes → ℕ → σ → σ} {fail : σ → σ}

/-- Go through slots while there is more to do, up to the end of the directory:
whether it was met, and what was collected. -/
def scanPlaces (more : σ → Bool) (enter : Bytes → ℕ → σ → σ) (m : Bytes) :
    List Place → σ → Bool×σ
  | [], seen => (false,seen)
  | p::rest, seen =>
    if more seen then
      if onPlace slotEnd m p then (true,seen)
      else scanPlaces more enter m rest
        (if onPlace slotShort m p then enter (sectorOf m p.1) p.2 seen else seen)
    else (false,seen)

/-- A loop that has nothing to do. -/
theorem scanPlaces_idle {seen : σ} (h : more seen=false) (l : List Place) :
    scanPlaces more enter m l seen=(false,seen) := by
  cases l with
  | nil => rfl
  | cons p rest => rw [scanPlaces,h,if_neg Bool.false_ne_true]

/-- Going through two lists of slots. -/
theorem scanPlaces_append (l l' : List Place) (seen : σ) :
    scanPlaces more enter m (l++l') seen=
      if (scanPlaces more enter m l seen).1 then scanPlaces more enter m l seen
      else scanPlaces more enter m l' (scanPlaces more enter m l seen).2 := by
  induction l generalizing seen with
  | nil => rfl
  | cons p rest ih =>
    rw [List.cons_append,scanPlaces,scanPlaces]
    cases hmore : more seen with
    | false =>
      rw [if_neg Bool.false_ne_true,if_neg Bool.false_ne_true,if_neg Bool.false_ne_true,
        scanPlaces_idle hmore]
    | true =>
      rw [if_pos rfl,if_pos rfl]
      cases onPlace slotEnd m p with
      | true => rfl
      | false =>
        rw [if_neg Bool.false_ne_true,if_neg Bool.false_ne_true]
        exact ih _

/-- Going through the slots of a sector. -/
theorem scanSlots_sector (more : σ → Bool) (enter : Bytes → ℕ → σ → σ) (lba count i : ℕ) (seen : σ) :
    scanSlots more enter (sectorOf m lba) count i seen=
      scanPlaces more enter m ((List.range' i count).map fun i => (lba,32*i)) seen := by
  induction count generalizing i seen with
  | zero => rfl
  | succ count ih =>
    rw [scanSlots,List.range'_succ,List.map_cons,scanPlaces]
    simp only [ih]
    rfl

/-- Going through all slots of a sector. -/
theorem scanSlots_places (lba : ℕ) (seen : σ) :
    scanSlots more enter (fun b => m (sectorAddr lba+b)) 16 0 seen=
      scanPlaces more enter m (sectorPlaces lba) seen := by
  have hslots := scanSlots_sector more enter (m:=m) lba 16 0 seen
  rw [← List.range_eq_range'] at hslots
  exact hslots

/-- Going through consecutive sectors. -/
theorem scanSectors_places (hd : Faultless d) (sector count s : ℕ) (seen : σ) :
    scanSectors more enter fail sector count s seen d=
      ((scanPlaces more enter d.bytes (runPlaces sector s count) seen).1,
        (scanPlaces more enter d.bytes (runPlaces sector s count) seen).2,d) := by
  induction count generalizing s seen with
  | zero => rfl
  | succ count ih =>
    rw [scanSectors,runPlaces_succ,scanPlaces_append]
    cases hmore : more seen with
    | false =>
      rw [if_neg Bool.false_ne_true,scanPlaces_idle hmore,if_neg Bool.false_ne_true,
        scanPlaces_idle hmore]
    | true =>
      rw [if_pos rfl,hd.read]
      dsimp only
      rw [scanSlots_places]
      rcases hscan : scanPlaces more enter d.bytes (sectorPlaces ((sector+s)%2^32)) seen with ⟨b,seen'⟩
      cases b with
      | true => rfl
      | false =>
        dsimp only
        rw [ih,if_neg Bool.false_ne_true]

/-- A loop that starts at the end of a chain or has nothing to do. -/
theorem scanChain_ends {seen : σ} (h : Ends start ∨ more seen=false) (rounds : ℕ) :
    scanChain v more enter fail rounds start seen d=some (seen,d) := by
  have hnot : ¬(2 ≤ start ∧ start<endOfChain ∧ more seen=true) := by
    rintro ⟨h1,h2,h3⟩
    rcases h with h | h
    · exact h ⟨h1,h2⟩
    · rw [h] at h3
      cases h3
  cases rounds with
  | zero => rw [scanChain,if_neg hnot]
  | succ rounds => rw [scanChain,if_neg hnot]

/-- Going through a directory. -/
theorem scanChain_places (hd : Faultless d) (hchain : Chain (link v d.bytes) Ends start nodes)
    {rounds : ℕ} (hrounds : nodes.length≤rounds) (seen : σ) :
    scanChain v more enter fail rounds start seen d=
      some ((scanPlaces more enter d.bytes (places v nodes) seen).2,d) := by
  induction nodes generalizing start rounds seen with
  | nil =>
    exact scanChain_ends (Or.inl (chain_nil.mp hchain)) rounds
  | cons c rest ih =>
    obtain ⟨rfl,hc,hrest⟩ := chain_cons.mp hchain
    have hin : 2 ≤ start ∧ start<endOfChain := not_not.mp hc
    obtain ⟨rounds,rfl⟩ : ∃ k, rounds=k+1 :=
      ⟨rounds-1,by rw [List.length_cons] at hrounds; omega⟩
    rw [places_cons,scanPlaces_append]
    cases hmore : more seen with
    | false =>
      rw [scanChain_ends (Or.inr hmore),scanPlaces_idle hmore,if_neg Bool.false_ne_true,
        scanPlaces_idle hmore]
    | true =>
      rw [scanChain,if_pos ⟨hin.1,hin.2,hmore⟩]
      dsimp only
      have hplaces : clusterPlaces v start=
        runPlaces (clusterToSector v start) 0 v.sectorsPerCluster := rfl
      rw [scanSectors_places hd,hplaces]
      rcases scanPlaces more enter d.bytes (runPlaces (clusterToSector v start) 0 v.sectorsPerCluster)
        seen with ⟨b,seen'⟩
      cases b with
      | true => rfl
      | false =>
        dsimp only
        rw [readEntry_next hd hc,if_neg Bool.false_ne_true]
        exact ih hrest (by rw [List.length_cons] at hrounds; omega) seen'

end

end OvsbMk.FatScans
