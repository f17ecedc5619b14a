import OvsbMk.FatData

/-!
# Directories

A directory is the list of its slots, in the order of its chain. On a faultless
disk every directory function acts on the first slot of this list that passes
its test: one lemma about the shared loop, and one equation for each visitor.
-/

namespace OvsbMk.FatDirectory

open ByteMemory BlockDisk Fat32 Chains FatTable FatData

variable {v : Volume} {m m' : Bytes} {d : Disk} {c a b start : ℕ} {nodes rest : List ℕ}
  {name83 : List UInt8}

/-- Addresses of the slots of a sector. -/
def sectorSlots (base : ℕ) : List ℕ := (List.range 16).map fun i => base+32*i

/-- Addresses of the slots of consecutive sectors. -/
def rangeSlots (base count : ℕ) : List ℕ := (List.range (16*count)).map fun j => base+32*j

/-- Addresses of the slots of a directory. -/
def slots (v : Volume) (nodes : List ℕ) : List ℕ :=
  nodes.flatMap fun c => rangeSlots (dataAddr v c) v.sectorsPerCluster

/-- Slots of one sector more. -/
theorem rangeSlots_succ (base count : ℕ) :
    rangeSlots base (count+1)=sectorSlots base++rangeSlots (base+512) count := by
  rw [rangeSlots,show 16*(count+1)=16+16*count by ring,List.range_add,List.map_append,List.map_map]
  refine congrArg (sectorSlots base++·) (List.map_congr_left fun j _ => ?_)
  simp only [Function.comp]
  ring

/-- Slots of a directory with a first cluster. -/
theorem slots_cons : slots v (c::rest)=rangeSlots (dataAddr v c) v.sectorsPerCluster++slots v rest := by
  rw [slots,List.flatMap_cons]
  rfl

/-- A slot lies in a cluster of the directory, at a multiple of its size. -/
theorem mem_slots (ha : a∈slots v nodes) :
    ∃ c∈nodes, ∃ j, j<16*v.sectorsPerCluster ∧ a=dataAddr v c+32*j := by
  obtain ⟨c,hc,hin⟩ := List.mem_flatMap.mp ha
  obtain ⟨j,hj,rfl⟩ := List.mem_map.mp hin
  exact ⟨c,hc,j,List.mem_range.mp hj,rfl⟩

/-- The bytes of a slot belong to a cluster of the directory. -/
theorem slot_dataByte (ha : a∈slots v nodes) :
    ∃ c∈nodes, ∀ i, i<32 → DataByte v c (a+i) := by
  obtain ⟨c,hc,j,hj,rfl⟩ := mem_slots ha
  refine ⟨c,hc,fun i hi => ?_⟩
  simp only [DataByte,clusterBytes,sectorSize]
  omega

/-- Slots do not overlap. -/
theorem slots_apart (ha : a∈slots v nodes) (hb : b∈slots v nodes) (h : a≠b) :
    a+32≤b ∨ b+32≤a := by
  obtain ⟨_,_,j,_,rfl⟩ := mem_slots ha
  obtain ⟨_,_,i,_,rfl⟩ := mem_slots hb
  simp only [dataAddr] at h ⊢
  omega

/-- A test that looks at the bytes from its address on, wherever they are. -/
def Movable (test : Bytes → ℕ → Bool) : Prop :=
  ∀ (m : Bytes) (base a : ℕ), test (fun x => m (base+x)) a=test m (base+a)

/-- An entry does not depend on where its sector is. -/
theorem entryAt_move (m : Bytes) (base a : ℕ) :
    entryAt (fun x => m (base+x)) a=entryAt m (base+a) := by
  simp only [entryAt,loadBytes_sector,Nat.add_assoc]

/-- The end test can be moved. -/
theorem movable_end : Movable slotEnd := fun _ _ _ => rfl

/-- The test for a short entry can be moved. -/
theorem movable_short : Movable slotShort := by
  intro m base a
  rw [slotShort,slotShort,entryAt_move]

/-- The test for a name can be moved. -/
theorem movable_hit (name83 : List UInt8) : Movable (slotHit name83) := by
  intro m base a
  rw [slotHit,slotHit,movable_short,entryAt_move]

/-- Two tests that can be moved. -/
theorem Movable.or {p q : Bytes → ℕ → Bool} (hp : Movable p) (hq : Movable q) :
    Movable fun m a => p m a || q m a := by
  intro m base a
  simp only [hp m base a,hq m base a]

/-- The first slot of a sector in terms of the disk. -/
theorem firstSlot_eq {test : Bytes → ℕ → Bool} (h : Movable test) (m : Bytes) (base : ℕ) :
    (firstSlot test fun x => m (base+x)).map (base+·)=(sectorSlots base).find? (test m) := by
  rw [firstSlot,Option.map_map,sectorSlots,List.find?_map]
  have htest : (fun i => test (fun x => m (base+x)) (32*i))=test m ∘ fun i => base+32*i := by
    funext i
    exact h m base (32*i)
  rw [htest]
  rfl

/-- A visitor that acts on the first slot of a sector that passes a test and else
leaves the disk alone. -/
def ActsOn {ρ : Type} (visit : ℕ → Disk → Option ρ×Disk) (d : Disk) (p : ℕ → Bool)
    (act : ℕ → ρ×Disk) : Prop :=
  ∀ lba, lba<addressable → visit lba d=
    match (sectorSlots (lba*512)).find? p with
    | none => (none,d)
    | some a => (some (act a).1,(act a).2)

/-- The place of a sector of a cluster. -/
theorem sector_place (hv : Mounted v) (hc : InRange v c) {s : ℕ} (hs : s<v.sectorsPerCluster) :
    (clusterToSector v c+s)%2^32<addressable ∧
      (clusterToSector v c+s)%2^32*512=dataAddr v c+s*512 := by
  have hcluster := hv.cluster_le hc
  have htotal : v.totalSectors32≤2^28 := hv.addressed
  have hlba : (clusterToSector v c+s)%2^32<addressable := by
    rw [hv.clusterToSector hc,Nat.mod_eq_of_lt (by omega)]
    simp only [addressable]
    omega
  constructor
  · exact hlba
  · rw [←sector_addr hv hc hs,sectorAddr_of_lt hlba]

/-- The loop over the sectors of a cluster acts on the first slot that passes. -/
theorem walkSectors_eq {ρ : Type} {visit : ℕ → Disk → Option ρ×Disk} {p : ℕ → Bool}
    {act : ℕ → ρ×Disk} (hv : Mounted v) (hc : InRange v c) (h : ActsOn visit d p act)
    {count s : ℕ} (hs : s+count≤v.sectorsPerCluster) :
    walkSectors visit (clusterToSector v c) count s d=
      match (rangeSlots (dataAddr v c+s*512) count).find? p with
      | none => (none,d)
      | some a => (some (act a).1,(act a).2) := by
  induction count generalizing s with
  | zero => rfl
  | succ count ih =>
    have hplace := sector_place hv hc (show s<v.sectorsPerCluster by omega)
    have hlba := hplace.1
    have haddr := hplace.2
    rw [walkSectors,h _ hlba,haddr,rangeSlots_succ,List.find?_append]
    cases (sectorSlots (dataAddr v c+s*512)).find? p with
    | none =>
      dsimp only
      rw [ih (s:=s+1) (by omega),show dataAddr v c+(s+1)*512=dataAddr v c+s*512+512 by ring,
        Option.none_or]
    | some a => rfl

/-- The loop over a chain acts on the first slot of the directory that passes. -/
theorem walkChain_eq {ρ : Type} {visit : ℕ → Disk → Option ρ×Disk} {p : ℕ → Bool}
    {act : ℕ → ρ×Disk} (hv : Mounted v) (hd : Faultless d) (h : ActsOn visit d p act)
    {fuel : ℕ} (hchain : FileChain v d.bytes start nodes) (hfuel : nodes.length≤fuel) :
    walkChain v visit fuel start d=some
      (match (slots v nodes).find? p with
      | none => (none,d)
      | some a => (some (act a).1,(act a).2)) := by
  induction nodes generalizing start fuel with
  | nil =>
    have hend := fileChain_nil.mp hchain
    have hstop : ¬(2 ≤ start ∧ start<endOfChain) := by omega
    cases fuel with
    | zero =>
      rw [walkChain,if_neg hstop]
      rfl
    | succ fuel =>
      rw [walkChain,if_neg hstop]
      rfl
  | cons c rest ih =>
    obtain ⟨rfl,hc,hrest⟩ := (fileChain_cons hv).mp hchain
    have hin : 2 ≤ start ∧ start<endOfChain := ⟨hc.1,hc.2.trans_le hv.clusters_lt⟩
    obtain ⟨fuel,rfl⟩ : ∃ k, fuel=k+1 := ⟨fuel-1,by rw [List.length_cons] at hfuel; omega⟩
    rw [walkChain,if_pos hin]
    dsimp only
    rw [walkSectors_eq hv hc h (by omega),Nat.zero_mul,Nat.add_zero,slots_cons,List.find?_append]
    cases (rangeSlots (dataAddr v start) v.sectorsPerCluster).find? p with
    | none =>
      dsimp only
      rw [hv.readEntry hd hc.2]
      dsimp only
      rw [ih hrest (by rw [List.length_cons] at hfuel; omega),Option.none_or]
    | some a => rfl

/-- A chain has no more clusters than there are numbers. -/
theorem FileChain.length_le (hv : Mounted v) (h : FileChain v m start nodes) :
    nodes.length≤chainRounds := by
  have hsub : nodes⊆List.range chainRounds := by
    intro c hc
    have h1 := (h.inRange c hc).2
    have h2 := hv.clusters_lt
    rw [List.mem_range]
    simp only [endOfChain,chainRounds] at h2 ⊢
    omega
  have hle := (List.subperm_of_subset h.nodup hsub).length_le
  rwa [List.length_range] at hle

/-- The test of `find_entry`. -/
def stopTest (name83 : List UInt8) (m : Bytes) (a : ℕ) : Bool := slotEnd m a || slotHit name83 m a

/-- What `find_entry` answers at the slot where it stops. -/
def findAnswer (m : Bytes) (d : Disk) (a : ℕ) : (ℤ×Option DirEntry)×Disk :=
  if slotEnd m a then ((-1,none),d) else ((toInt (a/512),some (entryAt m a)),d)

/-- The slot found in a sector tells the sector. -/
theorem slot_div {lba i : ℕ} (h : i∈sectorSlots (lba*512)) :
    i/512=lba ∧ i+32≤lba*512+512 := by
  obtain ⟨j,hj,rfl⟩ := List.mem_map.mp h
  have := List.mem_range.mp hj
  omega

/-- Addresses before and after the sector's offset. -/
theorem find_offset {test : Bytes → ℕ → Bool} (h : Movable test) (m : Bytes) (lba : ℕ) :
    (firstSlot test fun x => m (lba*512+x))=none ∧
        (sectorSlots (lba*512)).find? (test m)=none ∨
      ∃ x, (firstSlot test fun x => m (lba*512+x))=some x ∧
        (sectorSlots (lba*512)).find? (test m)=some (lba*512+x) ∧ (lba*512+x)/512=lba ∧
        x+32≤512 := by
  have heq := firstSlot_eq h m (lba*512)
  cases hf : firstSlot test fun x => m (lba*512+x) with
  | none =>
    rw [hf] at heq
    exact Or.inl ⟨rfl,heq.symm⟩
  | some x =>
    rw [hf] at heq
    have hfound : (sectorSlots (lba*512)).find? (test m)=some (lba*512+x) := heq.symm
    obtain ⟨hdiv,hle⟩ := slot_div (List.mem_of_find?_eq_some hfound)
    exact Or.inr ⟨x,rfl,hfound,hdiv,by omega⟩

/-- A visitor that reads the sector and goes on at the first slot of it that passes a test. -/
def searchVisit {ρ : Type} (test : Bytes → ℕ → Bool) (unread : ρ)
    (next : ℕ → Bytes → ℕ → Disk → Option ρ×Disk) (lba : ℕ) (d : Disk) : Option ρ×Disk :=
  match ataReadSector lba d with
  | (none,d) => (some unread,d)
  | (some buf,d) =>
    match firstSlot test buf with
    | none => (none,d)
    | some x => next lba buf x d

/-- The visitor of `find_entry` is one of them. -/
theorem findVisit_search (name83 : List UInt8) :
    findVisit name83=searchVisit (stopTest name83) (-1,none) fun lba buf x d =>
      if slotEnd buf x then (some (-1,none),d)
      else (some (toInt lba,some (entryAt buf x)),d) := rfl

/-- The visitor of `delete_entry_at`. -/
theorem deleteVisit_search (name83 : List UInt8) :
    deleteVisit name83=searchVisit (stopTest name83) (-1) fun lba buf x d =>
      if slotEnd buf x then (some (-1),d) else
        match ataWriteSector lba (eraseEntry buf x) d with
        | (false,d) => (some (-1),d)
        | (true,d) => (some 0,d) := rfl

/-- The visitor that updates the entry of a file. -/
theorem updateVisit_search (name83 : List UInt8) (cluster : ℕ) (result : ℤ) :
    updateVisit name83 cluster result=searchVisit (slotHit name83) result fun lba buf x d =>
      match ataWriteSector lba
          (setFirstCluster (store32 buf (x+28) (result%2^32).toNat) x cluster) d with
      | (false,d) => (some (-1),d)
      | (true,d) => (some result,d) := rfl

/-- The visitor of `fat32_rename`. -/
theorem renameVisit_search (old83 new83 : List UInt8) :
    renameVisit old83 new83=searchVisit (slotNamed old83) fatErrIo fun lba buf x d =>
      match ataWriteSector lba (setName buf x new83) d with
      | (false,d) => (some fatErrIo,d)
      | (true,d) => (some 0,d) := rfl

/-- The visitor of `fat32_mkdir`. -/
theorem mkdirVisit_search (v : Volume) (cwd f : ℕ) (name83 : List UInt8) :
    mkdirVisit v cwd f name83=searchVisit (slotFolder name83) fatErrIo fun lba buf x d =>
      match ataWriteSector lba (setFirstCluster buf x f) d with
      | (false,d) => (some fatErrIo,d)
      | (true,d) =>
        match fatWriteEntry v f endMark d with
        | (false,d) => (some fatErrIo,d)
        | (true,d) =>
          match ataWriteSector (clusterToSector v f) (newDirectory f cwd) d with
          | (false,d) => (some fatErrIo,d)
          | (true,d) => (some 0,d) := rfl

/-- The visitor of `fat32_rmdir`. -/
theorem rmdirVisit_search (v : Volume) (name83 : List UInt8) :
    rmdirVisit v name83=searchVisit (slotNamed name83) (some fatErrIo) fun lba buf x d =>
      if isDirectory (entryAt buf x) then
        match clearDirectory v (firstClusterOf (entryAt buf x)) d with
        | none => (some none,d)
        | some (false,d) => (some (some fatErrNotempty),d)
        | some (true,d) =>
          match ataWriteSector lba (eraseEntry buf x) d with
          | (false,d) => (some (some fatErrIo),d)
          | (true,d) => (some (some 0),d)
      else (some (some fatErrNotdir),d) := by
  funext lba d
  unfold rmdirVisit
  -- Both sides do the same with what the clearing returns, which need not be computed.
  obtain ⟨clear,hclear⟩ : ∃ clear, clear=clearDirectory v := ⟨_,rfl⟩
  rw [←hclear]
  rfl

/-- On a faultless disk such a visitor acts as it goes on at a slot. -/
theorem searchVisit_acts {ρ : Type} {test : Bytes → ℕ → Bool} {unread : ρ}
    {next : ℕ → Bytes → ℕ → Disk → Option ρ×Disk} {act : ℕ → ρ×Disk} (hd : Faultless d)
    (ht : Movable test)
    (hnext : ∀ lba x, lba<addressable → x+32≤512 → next lba (fun y => d.bytes (lba*512+y)) x d=
      (some (act (lba*512+x)).1,(act (lba*512+x)).2)) :
    ActsOn (searchVisit test unread next) d (test d.bytes) act := by
  intro lba hlba
  rw [searchVisit,hd.read,sectorAddr_of_lt hlba]
  dsimp only
  cases find_offset ht d.bytes lba with
  | inl hnone => rw [hnone.1,hnone.2]
  | inr hfound =>
    obtain ⟨x,hslot,hfirst,_,hx⟩ := hfound
    rw [hslot,hfirst]
    exact hnext lba x hlba hx

/-- The visitor of `find_entry`. -/
theorem findVisit_acts (hd : Faultless d) (name83 : List UInt8) :
    ActsOn (findVisit name83) d (stopTest name83 d.bytes) (findAnswer d.bytes d) := by
  rw [findVisit_search]
  apply searchVisit_acts hd (movable_end.or (movable_hit name83))
  intro lba x _ hx
  have hplace : (lba*512+x)/512=lba := by omega
  rw [findAnswer,hplace,movable_end d.bytes (lba*512) x,entryAt_move]
  split <;> rfl

/-- `find_entry` on a well-formed directory. -/
theorem findEntry_eq (hv : Mounted v) (hd : Faultless d) (hchain : FileChain v d.bytes start nodes)
    (name : List UInt8) :
    findEntry v start name d=some
      (match (slots v nodes).find? (stopTest (nameTo83 name) d.bytes) with
      | none => ((-1,none),d)
      | some a => findAnswer d.bytes d a) := by
  rw [findEntry,walkChain_eq hv hd (findVisit_acts hd _) hchain (FileChain.length_le hv hchain)]
  cases (slots v nodes).find? (stopTest (nameTo83 name) d.bytes) <;> rfl

/-- The name is found in the slot. -/
structure Resolves (v : Volume) (m : Bytes) (nodes : List ℕ) (name83 : List UInt8) (a : ℕ) : Prop where
  /-- The slot is the first one where the search stops. -/
  first : (slots v nodes).find? (stopTest name83 m)=some a
  /-- It does not end the directory. -/
  live : slotEnd m a=false

/-- A successful search. -/
theorem resolves_of_findEntry (hv : Mounted v) (hd : Faultless d)
    (hchain : FileChain v d.bytes start nodes) {name : List UInt8} {r : ℤ} {e : DirEntry} {d' : Disk}
    (h : findEntry v start name d=some ((r,some e),d')) :
    ∃ a, Resolves v d.bytes nodes (nameTo83 name) a ∧ e=entryAt d.bytes a ∧ d'=d := by
  rw [findEntry_eq hv hd hchain] at h
  cases hf : (slots v nodes).find? (stopTest (nameTo83 name) d.bytes) with
  | none =>
    rw [hf] at h
    simp at h
  | some a =>
    rw [hf] at h
    simp only [findAnswer,Option.some.injEq] at h
    split at h
    next hend => simp at h
    next hend =>
      simp only [Prod.mk.injEq,Option.some.injEq] at h
      exact ⟨a,⟨hf,by simpa using hend⟩,h.1.2.symm,h.2.symm⟩

/-- The slot of a found name. -/
theorem Resolves.mem (h : Resolves v m nodes name83 a) : a∈slots v nodes :=
  List.mem_of_find?_eq_some h.first

/-- A found slot has the name. -/
theorem Resolves.hit (h : Resolves v m nodes name83 a) : slotHit name83 m a=true := by
  have hstop := List.find?_some h.first
  simpa [stopTest,h.live] using hstop

/-- A found name is the first of the directory under that name, whatever ends the
directory. -/
theorem Resolves.first_hit (h : Resolves v m nodes name83 a) :
    (slots v nodes).find? (slotHit name83 m)=some a := by
  obtain ⟨hstop,before,after,hsplit,hbefore⟩ := List.find?_eq_some_iff_append.mp h.first
  refine List.find?_eq_some_iff_append.mpr ⟨h.hit,before,after,hsplit,fun x hx => ?_⟩
  have := hbefore x hx
  simp only [stopTest,Bool.not_eq_true',Bool.or_eq_false_iff] at this
  simp [this.2]

/-- Tests that agree on a list find the same. -/
theorem find?_agree {α : Type*} {l : List α} {p q : α → Bool} (h : ∀ x∈l, p x=q x) :
    l.find? p=l.find? q := by
  induction l with
  | nil => rfl
  | cons x l ih =>
    rw [List.find?_cons,List.find?_cons,h x (by simp),ih fun y hy => h y (by simp [hy])]

/-- Name and attributes of a slot decide the tests. -/
theorem tests_congr (h : ∀ i, i<12 → m' (a+i)=m (a+i)) (name83 : List UInt8) :
    slotEnd m' a=slotEnd m a ∧ slotHit name83 m' a=slotHit name83 m a := by
  have hname : (entryAt m' a).name=(entryAt m a).name := by
    simp only [entryAt]
    exact List.map_congr_left fun j hj => h j (by have := List.mem_range.mp hj; omega)
  have hattr : (entryAt m' a).attr=(entryAt m a).attr :=
    loadBytes_congr fun x h1 h2 => by
      obtain rfl : x=a+11 := by omega
      exact h 11 (by norm_num)
  have hfirst : m' a=m a := h 0 (by norm_num)
  refine ⟨by simp only [slotEnd,hfirst],?_⟩
  simp only [slotHit,slotShort,hname,hattr,hfirst]

/-- A search depends on names and attributes of the slots. -/
theorem Resolves.congr (h : Resolves v m nodes name83 a)
    (heq : ∀ b∈slots v nodes, ∀ i, i<12 → m' (b+i)=m (b+i)) : Resolves v m' nodes name83 a := by
  refine ⟨?_,?_⟩
  · rw [← h.first]
    refine find?_agree fun b hb => ?_
    obtain ⟨h1,h2⟩ := tests_congr (heq b hb) name83
    rw [stopTest,stopTest,h1,h2]
  · rw [(tests_congr (heq a h.mem) name83).1]
    exact h.live

/-- A found name, as the answer of `find_entry`. -/
theorem Resolves.findEntry (hv : Mounted v) (hd : Faultless d)
    (hchain : FileChain v d.bytes start nodes) {name : List UInt8}
    (h : Resolves v d.bytes nodes (nameTo83 name) a) :
    ∃ r : ℤ, 0≤r ∧ findEntry v start name d=some ((r,some (entryAt d.bytes a)),d) := by
  refine ⟨toInt (a/512),?_,?_⟩
  · rw [toInt]
    split
    · exact Int.natCast_nonneg _
    · obtain ⟨c,hc,hbyte⟩ := slot_dataByte h.mem
      have h1 := (hbyte 0 (by norm_num)).2
      have h2 := hv.cluster_le (hchain.inRange c hc)
      have h3 : v.totalSectors32≤2^28 := hv.addressed
      simp only [dataAddr,clusterBytes,sectorSize] at h1
      omega
  · rw [findEntry_eq hv hd hchain,h.first]
    dsimp only
    rw [findAnswer,if_neg (by simp [h.live])]

/-- A change of the entry in a slot: it leaves other bytes alone and does not
depend on where its sector is. -/
structure Editor (edit : Bytes → ℕ → Bytes) : Prop where
  /-- The sector may be anywhere. -/
  move : ∀ (m : Bytes) (base a : ℕ), edit (fun x => m (base+x)) a=fun x => edit m (base+a) (base+x)
  /-- Only the slot changes. -/
  outside : ∀ (m : Bytes) (a b : ℕ), b<a ∨ a+32≤b → edit m a b=m b

/-- Storing a field of an entry. -/
theorem editor_store (offset count : ℕ) {value : ℕ} (h : offset+count≤32) :
    Editor fun m a => storeBytes m (a+offset) count value := by
  refine ⟨fun m base a => ?_,fun m a b hb => storeBytes_outside (by omega)⟩
  funext x
  simp only [storeBytes]
  by_cases hin : a+offset≤x ∧ x<a+offset+count
  · rw [if_pos hin,if_pos (by omega),show base+x-(base+a+offset)=x-(a+offset) by omega]
  · rw [if_neg hin,if_neg (by omega)]

/-- Copying bytes to the beginning of an entry. -/
theorem editor_copy {count : ℕ} {source : Bytes} (h : count≤32) :
    Editor fun m a => copyRange m a count source := by
  refine ⟨fun m base a => ?_,fun m a b hb => copyRange_outside (by omega)⟩
  funext x
  simp only [copyRange]
  by_cases hin : a≤x ∧ x<a+count
  · rw [if_pos hin,if_pos (by omega),show base+x-(base+a)=x-a by omega]
  · rw [if_neg hin,if_neg (by omega)]

/-- One change after the other. -/
theorem Editor.comp {edit edit' : Bytes → ℕ → Bytes} (h : Editor edit) (h' : Editor edit') :
    Editor fun m a => edit' (edit m a) a := by
  refine ⟨fun m base a => ?_,fun m a b hb => ?_⟩
  · rw [h.move,h'.move]
  · exact (h'.outside _ a b hb).trans (h.outside m a b hb)

/-- Writing back the sector of a changed entry. -/
theorem Editor.writeBack {edit : Bytes → ℕ → Bytes} (h : Editor edit) {base x : ℕ}
    (hx : x+32≤512) : copyRange m base 512 (edit (fun y => m (base+y)) x)=edit m (base+x) := by
  rw [h.move]
  funext y
  by_cases hy : base≤y ∧ y<base+512
  · rw [copyRange,if_pos hy,show base+(y-base)=y by omega]
  · rw [copyRange_outside (by omega),h.outside m (base+x) y (by omega)]

/-- Storing the first cluster. -/
theorem editor_setFirstCluster (cluster : ℕ) :
    Editor fun m a => setFirstCluster m a cluster :=
  (editor_store 26 2 (by norm_num)).comp
    (editor_store 20 2 (by norm_num))

end OvsbMk.FatDirectory
