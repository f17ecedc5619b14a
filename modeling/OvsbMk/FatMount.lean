import OvsbMk.FatScans

/-!
# The geometry that is mounted

`fat32_init` takes the geometry from any sector with the mark of a boot sector.
What the later arithmetic needs follows from the fields exactly when clusters have
sectors, the data area starts inside the volume and the links of the clusters end
before the data area.
-/

namespace OvsbMk.FatMount

open ByteMemory BlockDisk Fat32 FatTable FatViews FatScans

variable {v : Volume} {d d' : Disk} {c x rounds : ℕ}

/-- The sectors between the boot sector and the data area, from the first table on:
those of the tables. -/
def InTables (v : Volume) (lba : ℕ) : Prop := v.fatStartSector≤lba ∧ lba<v.firstDataSector

/-- The sectors of the data area. -/
def InData (v : Volume) (lba : ℕ) : Prop := v.firstDataSector≤lba ∧ lba<v.totalSectors32

/-- The search for a free cluster can return the cluster: it does so on some disk. -/
def CanReturn (v : Volume) (c : ℕ) : Prop := c≠0 ∧ ∃ d, (fatFindFree v d).1=c

/-- The arithmetic with the geometry is well defined. -/
structure Sane (v : Volume) : Prop where
  /-- The search for a free cluster does not divide by zero. -/
  divisor : v.sectorsPerCluster≠0
  /-- Its difference is not negative. -/
  difference : v.firstDataSector≤v.totalSectors32
  /-- Reading and writing go on by more than nothing. -/
  bytes : 0<clusterBytes v
  /-- The links of the clusters it can return are in the tables. -/
  links : ∀ c, CanReturn v c → InTables v (fatSector v c)
  /-- Their sectors are in the data area. -/
  sectors : ∀ c, CanReturn v c → ∀ s, s<v.sectorsPerCluster →
    InData v ((clusterToSector v c+s)%2^32)

/-- What a search for a free cluster returns. -/
theorem findFreeLoop_range (v : Volume) (rounds c : ℕ) (d : Disk) :
    (findFreeLoop v rounds c d).1=0 ∨
      c≤(findFreeLoop v rounds c d).1 ∧ (findFreeLoop v rounds c d).1<c+rounds := by
  induction rounds generalizing c d with
  | zero => exact Or.inl rfl
  | succ rounds ih =>
    rw [findFreeLoop]
    split
    · exact Or.inr ⟨le_rfl,by omega⟩
    · rcases ih (c+1) (fatReadEntry v c d).2 with h | ⟨h1,h2⟩
      · exact Or.inl h
      · exact Or.inr ⟨by omega,by omega⟩

/-- A disk of ones whose transfer with a number fails. -/
def failingDisk (n : ℕ) : Disk := ⟨fun _ => 0xFF,fun k _ _ => decide (k=n)⟩

/-- Its links are not zero. -/
theorem failingDisk_link (v : Volume) (n c : ℕ) : link v (failingDisk n).bytes c≠0 := by
  have hword : load32 (failingDisk n).bytes (linkAddr v c)=2^32-1 := by
    simp [load32,loadBytes,failingDisk]
  rw [link,hword]
  norm_num

/-- The search returns the cluster whose link cannot be read. -/
theorem findFreeLoop_failing (v : Volume) (h1 : c≤x) (h2 : x<c+rounds) :
    (findFreeLoop v rounds c (failingDisk (x-c))).1=x := by
  induction rounds generalizing c with
  | zero => omega
  | succ rounds ih =>
    rw [findFreeLoop,readEntry_any]
    dsimp only
    by_cases heq : c=x
    · subst heq
      rw [Nat.sub_self,show (failingDisk 0).faults 0 false (fatSector v c)=true from rfl,if_pos rfl,
        if_pos rfl]
    · have hread : (failingDisk (x-c)).faults 0 false (fatSector v c)=false :=
        decide_eq_false (by omega)
      have hused : (failingDisk (x-c)).used=failingDisk (x-(c+1)) := by
        simp only [failingDisk,Disk.used]
        congr 1
        funext k _ _
        exact decide_eq_decide.mpr (by omega)
      rw [hread,if_neg Bool.false_ne_true,if_neg (failingDisk_link v _ _),hused]
      exact ih (by omega) (by omega)

/-- The clusters the search can return. -/
theorem canReturn_iff (v : Volume) (c : ℕ) :
    CanReturn v c ↔ 2≤c ∧ c<(totalClusters v+2)%2^32 := by
  constructor
  · rintro ⟨hc,d,rfl⟩
    rcases findFreeLoop_range v ((totalClusters v+2)%2^32-2) 2 d with h | ⟨h1,h2⟩
    · exact (hc h).elim
    · rw [fatFindFree]
      omega
  · rintro ⟨h1,h2⟩
    refine ⟨by omega,failingDisk (c-2),?_⟩
    exact findFreeLoop_failing v h1 (by omega)

/-- The sector of a link, without overflow. -/
theorem fatSector_add (v : Volume) (c : ℕ) :
    fatSector v c=v.fatStartSector+c%2^30/128 := by
  have h := v.fatStartSector_lt
  rw [fatSector]
  omega

/-- The links of a range of clusters are in the tables when the last of them is;
from `2^30` clusters on their places repeat. -/
theorem links_iff (htotal : totalClusters v≠0) (hsmall : totalClusters v<2^32-2) :
    (∀ c, 2≤c → c<(totalClusters v+2)%2^32 → InTables v (fatSector v c)) ↔
      v.fatStartSector+min (totalClusters v+1) (2^30-1)/128<v.firstDataSector := by
  rw [Nat.mod_eq_of_lt (by omega)]
  constructor
  · intro h
    have := (h (min (totalClusters v+1) (2^30-1)) (by omega) (by omega)).2
    rwa [fatSector_add,Nat.mod_eq_of_lt (by omega)] at this
  · intro h c _ hc
    rw [fatSector_add]
    exact ⟨by omega,by omega⟩

/-- The sectors of a cluster the search can return are in the data area. -/
theorem sectors_in_data (hle : v.firstDataSector≤v.totalSectors32) (h1 : 2≤c)
    (h2 : c<totalClusters v+2) {s : ℕ} (hs : s<v.sectorsPerCluster) :
    InData v ((clusterToSector v c+s)%2^32) := by
  have htotal := v.totalSectors32_lt
  have hdiff : (v.totalSectors32+2^32-v.firstDataSector)%2^32=
      v.totalSectors32-v.firstDataSector := by omega
  have hdiv := Nat.div_mul_le_self (v.totalSectors32-v.firstDataSector) v.sectorsPerCluster
  have hfit : (c-2+1)*v.sectorsPerCluster≤totalClusters v*v.sectorsPerCluster :=
    Nat.mul_le_mul_right _ (by omega)
  have hclusters : totalClusters v≤v.totalSectors32 := by
    rw [totalClusters,hdiff]
    exact (Nat.div_le_self _ _).trans (Nat.sub_le _ _)
  rw [Nat.succ_mul] at hfit
  have hupper : totalClusters v*v.sectorsPerCluster≤v.totalSectors32-v.firstDataSector := by
    rw [totalClusters,hdiff]
    exact hdiv
  have hindex : (c+2^32-2)%2^32=c-2 := by omega
  have hsector : (clusterToSector v c+s)%2^32=v.firstDataSector+(c-2)*v.sectorsPerCluster+s := by
    rw [clusterToSector,hindex,Nat.mod_add_mod,Nat.mod_eq_of_lt (by omega)]
  rw [hsector]
  exact ⟨by omega,by omega⟩

/-- The sector at which the data area begins, by the fields of a boot sector. -/
def dataStart (b : Boot) : ℕ := (b.reservedSectors+b.numFats*b.sectorsPerFat32)%2^32

/-- The clusters of the data area, by the fields of a boot sector. -/
def clusterCount (b : Boot) : ℕ := (b.totalSectors32-dataStart b)/b.sectorsPerCluster

/-- The fields describe a volume: clusters have sectors, the data area starts
inside the volume, and the links of the clusters end before it; no links are looked
at if there are no clusters or their number overflows. -/
structure Describes (b : Boot) : Prop where
  /-- Clusters have sectors. -/
  cluster : 0<b.sectorsPerCluster
  /-- The data area starts inside the volume. -/
  data : dataStart b≤b.totalSectors32
  /-- The links end before the data area. -/
  table : clusterCount b=0 ∨ 2^32-2≤clusterCount b ∨
    b.reservedSectors+min (clusterCount b+1) (2^30-1)/128<dataStart b

/-- The volume that is mounted. -/
theorem fat32Init_volume {cwd : ℕ} (h : fat32Init d=((0,some (v,cwd)),d')) :
    v=volumeOf (sectorOf d.bytes 0) := by
  rw [fat32Init] at h
  rcases read_cases d 0 with ⟨hr,_⟩ | hr
  · rw [hr] at h
    simp at h
  · rw [hr] at h
    dsimp only at h
    split at h
    · simp at h
    · simp only [Prod.mk.injEq,Option.some.injEq] at h
      exact h.1.2.1.symm

/-- A mounted volume is sane exactly when the fields of its boot sector describe a
volume. -/
theorem mounted_sane_iff {cwd : ℕ} (h : fat32Init d=((0,some (v,cwd)),d')) :
    Sane v ↔ Describes (bootAt (sectorOf d.bytes 0)) := by
  obtain rfl := fat32Init_volume h
  have hclusters : dataStart (bootAt (sectorOf d.bytes 0))≤
      (bootAt (sectorOf d.bytes 0)).totalSectors32 →
      totalClusters (volumeOf (sectorOf d.bytes 0))=clusterCount (bootAt (sectorOf d.bytes 0)) := by
    intro hle
    have h1 := (volumeOf (sectorOf d.bytes 0)).totalSectors32_lt
    have h2 : ∀ x y : ℕ, y≤x → x<2^32 → (x+2^32-y)%2^32=x-y := by omega
    rw [totalClusters,clusterCount]
    exact congrArg (· / _) (h2 _ _ hle h1)
  constructor
  · intro hsane
    refine ⟨Nat.pos_of_ne_zero hsane.divisor,hsane.difference,?_⟩
    rw [← hclusters hsane.difference]
    by_cases hzero : totalClusters (volumeOf (sectorOf d.bytes 0))=0
    · exact Or.inl hzero
    by_cases hbig : 2^32-2≤totalClusters (volumeOf (sectorOf d.bytes 0))
    · exact Or.inr (Or.inl hbig)
    · exact Or.inr (Or.inr ((links_iff hzero (by omega)).mp fun c h1 h2 =>
        hsane.links c ((canReturn_iff _ c).mpr ⟨h1,h2⟩)))
  · intro hdesc
    have hle : (volumeOf (sectorOf d.bytes 0)).firstDataSector≤
      (volumeOf (sectorOf d.bytes 0)).totalSectors32 := hdesc.data
    have hpos : 0<(volumeOf (sectorOf d.bytes 0)).sectorsPerCluster := hdesc.cluster
    have htotal : totalClusters (volumeOf (sectorOf d.bytes 0))<2^32 := by
      refine (Nat.div_le_self _ _).trans_lt ?_
      exact Nat.mod_lt _ (Nat.two_pow_pos 32)
    have hnone : totalClusters (volumeOf (sectorOf d.bytes 0))=0 ∨
        2^32-2≤totalClusters (volumeOf (sectorOf d.bytes 0)) →
        ∀ c, ¬CanReturn (volumeOf (sectorOf d.bytes 0)) c := by
      intro hcase c hc
      obtain ⟨h1,h2⟩ := (canReturn_iff _ c).mp hc
      omega
    have htable := hdesc.table
    rw [← hclusters hdesc.data] at htable
    refine ⟨hpos.ne',hle,Nat.mul_pos hpos (by norm_num),fun c hc => ?_,fun c hc s hs => ?_⟩
    · have hsome := fun hcase => hnone hcase c hc
      obtain ⟨h1,h2⟩ := (canReturn_iff _ c).mp hc
      exact (links_iff (fun hzero => hsome (Or.inl hzero)) (by
        by_contra hbig
        exact hsome (Or.inr (by omega)))).mpr (htable.resolve_left
          (fun hzero => hsome (Or.inl hzero)) |>.resolve_left fun hbig => hsome (Or.inr hbig)) c h1 h2
    · obtain ⟨h1,h2⟩ := (canReturn_iff _ c).mp hc
      exact sectors_in_data hle h1 (by omega) hs

/-- A disk whose boot sector describes a volume of ten sectors. -/
def bootDisk : Disk :=
  ⟨[(13,1,1),(14,2,1),(16,1,1),(32,4,10),(36,4,1),(44,4,2),(510,2,0xAA55)].foldl
    (fun m field => storeBytes m field.1 field.2.1 field.2.2) fun _ => 0,fun _ _ _ => false⟩

/-- It is mounted and sane. -/
theorem bootDisk_sane : Sane (volumeOf (sectorOf bootDisk.bytes 0)) := by
  have hmark : (bootAt (sectorOf bootDisk.bytes 0)).bootSectorSignature=0xAA55 := by decide +kernel
  have hinit : fat32Init bootDisk=
      ((0,some (volumeOf (sectorOf bootDisk.bytes 0),(bootAt (sectorOf bootDisk.bytes 0)).rootCluster)),
        bootDisk) := by
    rw [fat32Init,(show Faultless bootDisk from rfl).read]
    exact if_neg (not_not.mpr hmark)
  exact (mounted_sane_iff hinit).mpr ⟨by decide +kernel,by decide +kernel,by decide +kernel⟩

/-- A disk whose boot sector has the mark and zeros. -/
def blankDisk : Disk := ⟨storeBytes (fun _ => 0) 510 2 0xAA55,fun _ _ _ => false⟩

/-- It is mounted, and its clusters have no sectors. -/
theorem blankDisk_mounted : ∃ v cwd d', fat32Init blankDisk=((0,some (v,cwd)),d') ∧ ¬Sane v := by
  have hmark : (bootAt (sectorOf blankDisk.bytes 0)).bootSectorSignature=0xAA55 := by decide +kernel
  have hzero : (volumeOf (sectorOf blankDisk.bytes 0)).sectorsPerCluster=0 := by decide +kernel
  refine ⟨volumeOf (sectorOf blankDisk.bytes 0),(bootAt (sectorOf blankDisk.bytes 0)).rootCluster,
    blankDisk,?_,fun h => h.divisor hzero⟩
  rw [fat32Init,(show Faultless blankDisk from rfl).read]
  exact if_neg (not_not.mpr hmark)

end OvsbMk.FatMount
