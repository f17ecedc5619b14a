import OvsbMk.Fat32
import OvsbMk.Chains

/-!
# The table of links

On a well-formed volume whose sectors can all be addressed, the links are the
words of one range of the disk and the clusters are disjoint ranges after it.
Each access to the table is one load or one store there, and the search for a
free cluster finds one exactly when there is one.
-/

namespace OvsbMk.FatTable

open ByteMemory BlockDisk Fat32 Chains

/-- The geometry of a well-formed volume. -/
structure WellFormed (v : Volume) : Prop where
  /-- Clusters are not empty. -/
  cluster_pos : 0<v.sectorsPerCluster
  /-- The data area starts inside the volume. -/
  data_le : v.firstDataSector≤v.totalSectors32
  /-- The table has a link for every cluster. -/
  links : totalClusters v+2≤v.sectorsPerFat32*128
  /-- The table and the data area are disjoint. -/
  apart : v.fatStartSector+v.sectorsPerFat32≤v.firstDataSector ∨
    v.totalSectors32≤v.fatStartSector

/-- The driver reaches every sector of the volume under its own number, so that a
sector read is what was last written to that sector. -/
def Addressed (v : Volume) : Prop := v.totalSectors32≤addressable

/-- A well-formed volume on a disk that returns what was stored. -/
structure Mounted (v : Volume) : Prop extends WellFormed v where
  /-- Sectors are distinct. -/
  addressed : Addressed v

/-- The number of a cluster of the volume. -/
def InRange (v : Volume) (c : ℕ) : Prop := 2≤c ∧ c<totalClusters v+2

/-- Address of the link of a cluster. -/
def linkAddr (v : Volume) (c : ℕ) : ℕ := v.fatStartSector*512+4*c

/-- The link of a cluster. -/
def link (v : Volume) (m : Bytes) (c : ℕ) : ℕ := load32 m (linkAddr v c)%2^28

/-- A disk with another link at a cluster. -/
def setLink (v : Volume) (m : Bytes) (c value : ℕ) : Bytes :=
  store32 m (linkAddr v c) (load32 m (linkAddr v c)/2^28*2^28+value%2^28)

/-- Address of the contents of a cluster. -/
def dataAddr (v : Volume) (c : ℕ) : ℕ := (v.firstDataSector+(c-2)*v.sectorsPerCluster)*512

/-- The byte belongs to the contents of a cluster. -/
def DataByte (v : Volume) (c a : ℕ) : Prop := dataAddr v c≤a ∧ a<dataAddr v c+clusterBytes v

/-- The byte belongs to the link of a cluster. -/
def LinkByte (v : Volume) (c a : ℕ) : Prop := linkAddr v c≤a ∧ a<linkAddr v c+4

variable {v : Volume} {m m' : Bytes} {d : Disk} {c c' a value : ℕ}

/-- The clusters fill the data area. -/
theorem Mounted.clusters_fit (h : Mounted v) :
    v.firstDataSector+totalClusters v*v.sectorsPerCluster≤v.totalSectors32 := by
  have h1 := h.data_le
  have h2 := v.totalSectors32_lt
  have h3 : (v.totalSectors32+2^32-v.firstDataSector)%2^32=v.totalSectors32-v.firstDataSector := by
    omega
  have h4 := Nat.div_mul_le_self (v.totalSectors32-v.firstDataSector) v.sectorsPerCluster
  rw [totalClusters,h3]
  omega

/-- There are no more clusters than sectors. -/
theorem Mounted.clusters_le (h : Mounted v) :
    v.firstDataSector+totalClusters v≤v.totalSectors32 := by
  have h1 := h.clusters_fit
  have h2 := Nat.le_mul_of_pos_right (totalClusters v) h.cluster_pos
  omega

/-- Cluster numbers are below the marks for the end of a chain. -/
theorem Mounted.clusters_lt (h : Mounted v) : totalClusters v+2≤endOfChain := by
  have h1 := h.clusters_le
  have h2 : v.totalSectors32≤2^28 := h.addressed
  have h3 := h.links
  have h4 := v.fatStartSector_lt
  simp only [endOfChain]
  rcases h.apart with h5 | h5 <;> omega

/-- The last sector of a cluster is in the volume. -/
theorem Mounted.cluster_le (h : Mounted v) (hc : InRange v c) :
    v.firstDataSector+(c-2)*v.sectorsPerCluster+v.sectorsPerCluster≤v.totalSectors32 := by
  have h1 := h.clusters_fit
  have h2 : (c-2+1)*v.sectorsPerCluster≤totalClusters v*v.sectorsPerCluster :=
    Nat.mul_le_mul_right _ (by have := hc.1; have := hc.2; omega)
  rw [Nat.succ_mul] at h2
  omega

/-- First sector of a cluster of the volume. -/
theorem Mounted.clusterToSector (h : Mounted v) (hc : InRange v c) :
    clusterToSector v c=v.firstDataSector+(c-2)*v.sectorsPerCluster := by
  have h1 := h.cluster_le hc
  have h2 := v.totalSectors32_lt
  have h3 := h.clusters_lt
  obtain ⟨hc1,hc2⟩ := hc
  have h4 : (c+2^32-2)%2^32=c-2 := by
    simp only [endOfChain] at h3
    omega
  rw [Fat32.clusterToSector,h4,Nat.mod_eq_of_lt (by omega)]

/-- The sector of a link can be addressed. -/
theorem Mounted.fatSector (h : Mounted v) (hc : c<totalClusters v+2) :
    fatSector v c=v.fatStartSector+c/128 ∧ v.fatStartSector+c/128<addressable := by
  have h1 := h.clusters_le
  have h2 : v.totalSectors32≤2^28 := h.addressed
  have h3 := h.links
  have h4 := v.fatStartSector_lt
  have h5 := h.clusters_lt
  simp only [endOfChain] at h5
  have h6 : v.fatStartSector+c/128<addressable := by
    simp only [addressable]
    rcases h.apart with h7 | h7 <;> omega
  refine ⟨?_,h6⟩
  simp only [addressable] at h6
  rw [Fat32.fatSector]
  omega

/-- The bytes of a link in its sector. -/
theorem Mounted.linkAddr_eq (h : Mounted v) (hc : c<totalClusters v+2) :
    sectorAddr (Fat32.fatSector v c)+c*4%2^32%512=linkAddr v c ∧ c*4%2^32%512+4≤512 := by
  obtain ⟨h1,h2⟩ := h.fatSector hc
  have h3 := h.clusters_lt
  simp only [endOfChain] at h3
  rw [h1,sectorAddr_of_lt h2,linkAddr]
  simp only [sectorSize]
  omega

/-- Writing back a sector with a few bytes replaced is a store to the disk. -/
theorem copyRange_store {address size offset count : ℕ} (h : offset+count ≤ size) :
    copyRange m address size (storeBytes (fun b => m (address+b)) offset count value)=
      storeBytes m (address+offset) count value := by
  funext a
  simp only [copyRange,storeBytes]
  by_cases hin : address≤a ∧ a<address+size
  · rw [if_pos hin]
    by_cases hin' : offset≤a-address ∧ a-address<offset+count
    · rw [if_pos hin',if_pos (by omega),show a-address-offset=a-(address+offset) by omega]
    · rw [if_neg hin',if_neg (by omega),show address+(a-address)=a by omega]
  · rw [if_neg hin,if_neg (by omega)]

/-- Loading from a sector is loading from the disk. -/
theorem loadBytes_sector {address offset count : ℕ} :
    loadBytes (fun b => m (address+b)) offset count=loadBytes m (address+offset) count := by
  induction count generalizing offset with
  | zero => rfl
  | succ count ih =>
    simp only [loadBytes]
    rw [ih,Nat.add_assoc]

/-- Reading a link. -/
theorem Mounted.readEntry (h : Mounted v) (hd : Faultless d) (hc : c<totalClusters v+2) :
    fatReadEntry v c d=(link v d.bytes c,d) := by
  obtain ⟨h1,_⟩ := h.linkAddr_eq hc
  rw [fatReadEntry,hd.read]
  dsimp only
  rw [load32,loadBytes_sector,h1]
  rfl

/-- Writing a link. -/
theorem Mounted.writeEntry (h : Mounted v) (hd : Faultless d) (hc : c<totalClusters v+2) :
    fatWriteEntry v c value d=(true,d.with (setLink v d.bytes c value)) := by
  obtain ⟨h1,h2⟩ := h.linkAddr_eq hc
  rw [fatWriteEntry,hd.read]
  dsimp only
  rw [hd.write,load32,store32,loadBytes_sector,copyRange_store h2,h1]
  rfl

/-- The link that was written. -/
theorem link_setLink_same : link v (setLink v m c value) c=value%2^28 := by
  have h1 := load32_lt m (linkAddr v c)
  have h2 : value%2^28<2^28 := Nat.mod_lt _ (by norm_num)
  rw [link,setLink,load32_store32_same (by omega)]
  omega

/-- The other links. -/
theorem link_setLink_other (h : c'≠c) : link v (setLink v m c value) c'=link v m c' := by
  rw [link,setLink,load32,store32,
    loadBytes_storeBytes_disjoint (by simp only [linkAddr]; omega)]
  rfl

/-- Bytes outside the link that was written. -/
theorem setLink_outside (h : ¬LinkByte v c a) : setLink v m c value a=m a := by
  rw [setLink,store32,storeBytes_outside]
  simp only [LinkByte] at h
  omega

/-- The links as a function, after a write. -/
theorem link_setLink (hv : value<2^28) :
    link v (setLink v m c value)=Function.update (link v m) c value := by
  funext x
  by_cases hx : x=c
  · subst hx
    rw [link_setLink_same,Function.update_self,Nat.mod_eq_of_lt hv]
  · rw [link_setLink_other hx,Function.update_of_ne hx]

/-- A link depends on its own bytes. -/
theorem link_congr (h : ∀ a, LinkByte v c a → m' a=m a) : link v m' c=link v m c := by
  rw [link,link,load32,loadBytes_congr fun a h1 h2 => h a ⟨h1,h2⟩]

/-- Links and contents do not overlap. -/
theorem Mounted.link_not_data (h : Mounted v) (hc : c<totalClusters v+2) (hc' : InRange v c')
    (ha : LinkByte v c a) : ¬DataByte v c' a := by
  have h1 := h.cluster_le hc'
  have h2 := h.links
  simp only [LinkByte,DataByte,linkAddr,dataAddr,clusterBytes,sectorSize] at ha ⊢
  rcases h.apart with h3 | h3
  · have h4 := Nat.zero_le ((c'-2)*v.sectorsPerCluster)
    omega
  · omega

/-- Contents of distinct clusters do not overlap. -/
theorem data_disjoint (hc : InRange v c) (hc' : InRange v c') (h : c≠c') (ha : DataByte v c a) :
    ¬DataByte v c' a := by
  have h1 := hc.1
  have h2 := hc'.1
  have key : ∀ {x y : ℕ}, x<y → x*v.sectorsPerCluster+v.sectorsPerCluster≤y*v.sectorsPerCluster := by
    intro x y hxy
    have := Nat.mul_le_mul_right v.sectorsPerCluster (show x+1≤y from hxy)
    rwa [Nat.succ_mul] at this
  simp only [DataByte,dataAddr,clusterBytes,sectorSize] at ha ⊢
  rcases Nat.lt_or_gt_of_ne h with hlt | hlt
  · have := key (show c-2<c'-2 by omega)
    omega
  · have := key (show c'-2<c-2 by omega)
    omega

/-- Distinct links do not overlap. -/
theorem link_disjoint (h : c≠c') (ha : LinkByte v c a) : ¬LinkByte v c' a := by
  simp only [LinkByte,linkAddr] at ha ⊢
  omega

/-- What the search for a free cluster finds. -/
theorem Mounted.findFreeLoop (h : Mounted v) (hd : Faultless d) (rounds : ℕ) (hc : 2≤c)
    (hend : c+rounds=totalClusters v+2) :
    (∃ f, Fat32.findFreeLoop v rounds c d=(f,d) ∧ c≤f ∧ f<totalClusters v+2 ∧
      link v d.bytes f=0 ∧ ∀ x, c≤x → x<f → link v d.bytes x≠0) ∨
    (Fat32.findFreeLoop v rounds c d=(0,d) ∧
      ∀ x, c≤x → x<totalClusters v+2 → link v d.bytes x≠0) := by
  induction rounds generalizing c with
  | zero => exact Or.inr ⟨rfl,fun x h1 h2 => by omega⟩
  | succ rounds ih =>
    rw [Fat32.findFreeLoop,h.readEntry hd (by omega)]
    dsimp only
    by_cases hzero : link v d.bytes c=0
    · rw [if_pos hzero]
      exact Or.inl ⟨c,rfl,le_rfl,by omega,hzero,fun x h1 h2 => by omega⟩
    · rw [if_neg hzero]
      rcases ih (c:=c+1) (by omega) (by omega) with ⟨f,h1,h2,h3,h4,h5⟩ | ⟨h1,h2⟩
      · refine Or.inl ⟨f,h1,by omega,h3,h4,fun x hx hx' => ?_⟩
        rcases Nat.eq_or_lt_of_le hx with rfl | hx
        · exact hzero
        · exact h5 x hx hx'
      · refine Or.inr ⟨h1,fun x hx hx' => ?_⟩
        rcases Nat.eq_or_lt_of_le hx with rfl | hx
        · exact hzero
        · exact h2 x hx hx'

/-- The search finds the first free cluster, or there is none. -/
theorem Mounted.findFree (h : Mounted v) (hd : Faultless d) :
    (∃ f, fatFindFree v d=(f,d) ∧ InRange v f ∧ link v d.bytes f=0 ∧
      ∀ x, 2≤x → x<f → link v d.bytes x≠0) ∨
    (fatFindFree v d=(0,d) ∧ ∀ x, InRange v x → link v d.bytes x≠0) := by
  have h1 := h.clusters_lt
  simp only [endOfChain] at h1
  have h2 : (totalClusters v+2)%2^32-2=totalClusters v := by omega
  rw [fatFindFree,h2]
  rcases h.findFreeLoop hd (c:=2) (totalClusters v) le_rfl (by omega) with
    ⟨f,h3,h4,h5,h6,h7⟩ | ⟨h3,h4⟩
  · exact Or.inl ⟨f,h3,⟨h4,h5⟩,h6,h7⟩
  · exact Or.inr ⟨h3,fun x hx => h4 x hx.1 hx.2⟩

end OvsbMk.FatTable
