import OvsbMk.FatDirectory

/-!
# Entries of directories

What the stores of the driver make of an entry: its name, whether it is live,
the cluster it leads to and its attributes. The driver fills a directory from
its beginning, so that the slots that were never used are its last ones.
-/

namespace OvsbMk.FatEntries

open ByteMemory BlockDisk Fat32 Chains FatTable FatData FatDirectory

variable {v : Volume} {m m' : Bytes} {a b c attr cluster : ℕ} {nodes l : List ℕ}
  {name name83 : List UInt8}

/-- The slot holds a short entry that is in use. -/
def slotLive (m : Bytes) (a : ℕ) : Bool := !slotEnd m a && slotShort m a

/-- The cluster the entry in a slot leads to. -/
def target (m : Bytes) (a : ℕ) : ℕ := firstClusterOf (entryAt m a)

/-- The entry in a slot is a directory. -/
def folderAt (m : Bytes) (a : ℕ) : Bool := isDirectory (entryAt m a)

/-- The name in a slot. -/
def nameAt (m : Bytes) (a : ℕ) : List UInt8 := (entryAt m a).name

/-- The two dot names. -/
def dotNames : List (List UInt8) := [padded [0x2E] 11,padded [0x2E,0x2E] 11]

/-- Live slots, byte by byte. -/
theorem live_iff : slotLive m a=true ↔ m a≠0 ∧ m a≠0xE5 ∧ (entryAt m a).attr≠0x0F := by
  simp [slotLive,slotEnd,slotShort]

/-- Slots with a name, byte by byte. -/
theorem hit_iff : slotHit name83 m a=true ↔
    m a≠0xE5 ∧ (entryAt m a).attr≠0x0F ∧ nameAt m a=name83 := by
  simp [slotHit,slotShort,nameAt,and_assoc]

/-- A live entry is found under its name. -/
theorem hit_of_live (h : slotLive m a=true) (hname : nameAt m a=name83) :
    slotHit name83 m a=true := by
  obtain ⟨_,hused,hshort⟩ := live_iff.mp h
  exact hit_iff.mpr ⟨hused,hshort,hname⟩

/-- Slots in use with a name. -/
theorem named_iff : slotNamed name83 m a=true ↔ slotLive m a=true ∧ nameAt m a=name83 := by
  rw [live_iff]
  simp [slotNamed,slotEnd,slotHit,slotShort,nameAt,and_assoc]

/-- The first byte of a slot is that of the name. -/
theorem first_of_name (h : nameAt m a=name83) : m a=name83.headD 0 := by
  rw [← h]
  rfl

/-- A slot with a name that does not start with zero is live. -/
theorem live_of_hit (hhead : name83.headD 0≠0) (h : slotHit name83 m a=true) :
    slotLive m a=true := by
  obtain ⟨h1,h2,h3⟩ := hit_iff.mp h
  refine live_iff.mpr ⟨?_,h1,h2⟩
  rw [first_of_name h3]
  exact hhead

/-- A free slot is not live. -/
theorem not_live_of_free (h : slotFree m a=true) : slotLive m a=false := by
  by_contra hlive
  obtain ⟨h1,h2,_⟩ := live_iff.mp (Bool.not_eq_false _ |>.mp hlive)
  simp [slotFree,h1,h2] at h

/-- Length of padded text. -/
theorem padded_length (text : List UInt8) (length : ℕ) : (padded text length).length=length := by
  rw [padded,List.length_append,List.length_take,List.length_replicate]
  omega

/-- Names in directories have eleven bytes. -/
theorem nameTo83_length (name : List UInt8) : (nameTo83 name).length=11 := by
  rw [nameTo83]
  split
  · exact padded_length _ _
  · rw [List.length_append,padded_length,padded_length]

/-- Upper case does not make a zero or a dot. -/
theorem upper_ne {x : UInt8} (h0 : x≠0) (hdot : x≠0x2E) : upper x≠0 ∧ upper x≠0x2E := by
  rw [upper]
  split
  next h =>
    have h1 : 0x61≤x.toNat := UInt8.le_iff_toNat_le.mp h.1
    have h2 : x.toNat≤0x7A := UInt8.le_iff_toNat_le.mp h.2
    have h3 : (x-0x20).toNat=x.toNat-0x20 :=
      UInt8.toNat_sub_of_le _ _ (UInt8.le_iff_toNat_le.mpr (by simp; omega))
    refine ⟨fun he => ?_,fun he => ?_⟩
    · rw [he] at h3
      simp at h3
      omega
    · rw [he] at h3
      simp at h3
      omega
  · exact ⟨h0,hdot⟩

/-- A name other than the dot names does not start with a zero or a dot in a
directory. -/
theorem nameTo83_head (hz : 0∉name) (hdot : name≠[0x2E] ∧ name≠[0x2E,0x2E]) :
    (nameTo83 name).headD 0≠0 ∧ (nameTo83 name).headD 0≠0x2E := by
  rw [nameTo83,if_neg (by rintro (h | h); exacts [hdot.1 h,hdot.2 h])]
  cases name with
  | nil => decide
  | cons x rest =>
    by_cases hx : x=0x2E
    · subst hx
      simp [padded]
    · have hz' : x≠0 := fun h => hz (by simp [h])
      simpa [padded,hx] using upper_ne hz' hx

/-- No name starts with a zero in a directory. -/
theorem nameTo83_ne_zero (hz : 0∉name) : (nameTo83 name).headD 0≠0 := by
  by_cases hdot : name≠[0x2E] ∧ name≠[0x2E,0x2E]
  · exact (nameTo83_head hz hdot).1
  · rw [not_and_or,not_not,not_not] at hdot
    rcases hdot with rfl | rfl <;> decide

/-- A name other than the dot names is none of them in a directory. -/
theorem nameTo83_not_dot (hz : 0∉name) (hdot : name≠[0x2E] ∧ name≠[0x2E,0x2E]) :
    nameTo83 name∉dotNames := by
  intro h
  refine (nameTo83_head hz hdot).2 ?_
  simp only [dotNames,List.mem_cons,List.not_mem_nil,or_false] at h
  rcases h with h | h <;> rw [h] <;> decide

/-- An entry depends on the bytes of its slot. -/
theorem entryAt_congr (h : ∀ i, i<32 → m' (a+i)=m (a+i)) : entryAt m' a=entryAt m a := by
  have hload : ∀ k n, k+n≤32 → loadBytes m' (a+k) n=loadBytes m (a+k) n := by
    intro k n hk
    refine loadBytes_congr fun x h1 h2 => ?_
    have := h (x-a) (by omega)
    rwa [show a+(x-a)=x by omega] at this
  rw [entryAt,entryAt,hload 11 1 (by norm_num),hload 20 2 (by norm_num),hload 26 2 (by norm_num),
    hload 28 4 (by norm_num)]
  refine congrArg (fun x => DirEntry.mk x _ _ _ _) (List.map_congr_left fun j hj => ?_)
  exact h j (by have := List.mem_range.mp hj; omega)

/-- What the driver looks at in a slot depends on the bytes of the slot. -/
theorem slot_congr (h : ∀ i, i<32 → m' (a+i)=m (a+i)) :
    slotLive m' a=slotLive m a ∧ target m' a=target m a ∧ folderAt m' a=folderAt m a ∧
      nameAt m' a=nameAt m a := by
  have hfirst : m' a=m a := h 0 (by norm_num)
  have hentry := entryAt_congr h
  refine ⟨?_,by rw [target,target,hentry],by rw [folderAt,folderAt,hentry],
    by rw [nameAt,nameAt,hentry]⟩
  rw [slotLive,slotLive,slotEnd,slotEnd,slotShort,slotShort,hfirst,hentry]

/-- A stored name is read back. -/
theorem nameAt_setName (hlen : name83.length=11) : nameAt (setName m a name83) a=name83 := by
  have hbytes : (List.range 11).map (fun j => setName m a name83 (a+j))=
      (List.range 11).map fun j => name83.getD j 0 :=
    List.map_congr_left fun j hj => copyRange_inside (List.mem_range.mp hj)
  refine hbytes.trans (List.ext_getElem (by simp [hlen]) fun i h1 h2 => ?_)
  simp [h2]

/-- The name in a slot depends on its bytes. -/
theorem nameAt_congr (h : ∀ i, i<11 → m' (a+i)=m (a+i)) : nameAt m' a=nameAt m a :=
  List.map_congr_left fun j hj => h j (List.mem_range.mp hj)

/-- The cluster of an entry depends on its bytes. -/
theorem target_congr (h : ∀ i, 20 ≤ i → i<28 → m' (a+i)=m (a+i)) : target m' a=target m a := by
  have hload : ∀ k, 20≤k → k+2≤28 → loadBytes m' (a+k) 2=loadBytes m (a+k) 2 := by
    intro k h1 h2
    refine loadBytes_congr fun x h3 h4 => ?_
    have := h (x-a) (by omega) (by omega)
    rwa [show a+(x-a)=x by omega] at this
  simp only [target,firstClusterOf,entryAt]
  rw [hload 20 (by norm_num) (by norm_num),hload 26 (by norm_num) (by norm_num)]

/-- The attributes of an entry are one byte. -/
theorem attr_congr (h : m' (a+11)=m (a+11)) : (entryAt m' a).attr=(entryAt m a).attr :=
  loadBytes_congr fun x h1 h2 => by
    obtain rfl : x=a+11 := by omega
    exact h

/-- Bytes of an entry outside the cluster fields. -/
theorem setFirstCluster_outside (h : ¬(a+20≤b ∧ b<a+22) ∧ ¬(a+26≤b ∧ b<a+28)) :
    setFirstCluster m a cluster b=m b := by
  rw [setFirstCluster,storeBytes_outside (by omega),storeBytes_outside (by omega)]

/-- The stored cluster is read back. -/
theorem target_setFirstCluster (h : cluster<2^32) :
    target (setFirstCluster m a cluster) a=cluster := by
  have hhigh : loadBytes (setFirstCluster m a cluster) (a+20) 2=cluster/2^16 := by
    rw [setFirstCluster,loadBytes_storeBytes_same]
    omega
  have hlow : loadBytes (setFirstCluster m a cluster) (a+26) 2=cluster%2^16 := by
    rw [setFirstCluster,loadBytes_storeBytes_disjoint (by omega),loadBytes_storeBytes_same]
    omega
  simp only [target,firstClusterOf,entryAt,hhigh,hlow]
  omega

/-- Name, state and attributes of an entry with another cluster. -/
theorem setFirstCluster_keeps : nameAt (setFirstCluster m a cluster) a=nameAt m a ∧
    (entryAt (setFirstCluster m a cluster) a).attr=(entryAt m a).attr ∧
    slotLive (setFirstCluster m a cluster) a=slotLive m a := by
  have hname : nameAt (setFirstCluster m a cluster) a=nameAt m a :=
    nameAt_congr fun i hi => setFirstCluster_outside (by omega)
  have hattr : (entryAt (setFirstCluster m a cluster) a).attr=(entryAt m a).attr :=
    attr_congr (setFirstCluster_outside (by omega))
  refine ⟨hname,hattr,?_⟩
  rw [slotLive,slotLive,slotEnd,slotEnd,slotShort,slotShort,hattr,
    setFirstCluster_outside (by omega)]

/-- Storing a new entry changes its slot only. -/
theorem editor_setEntry (name83 : List UInt8) (attr : ℕ) : Editor (setEntry name83 attr) :=
  (((editor_copy (by norm_num)).comp (editor_store 11 1 (by norm_num))).comp
    (editor_store 28 4 (by norm_num))).comp (editor_setFirstCluster 0)

/-- Deleting an entry changes its slot only. -/
theorem editor_eraseEntry : Editor eraseEntry := editor_store 0 1 (by norm_num)

/-- Renaming an entry changes its slot only. -/
theorem editor_setName (name83 : List UInt8) : Editor fun m a => setName m a name83 :=
  editor_copy (by norm_num)

/-- The new entry. -/
theorem setEntry_spec (hlen : name83.length=11) (hattr : attr<256) :
    nameAt (setEntry name83 attr m a) a=name83 ∧ target (setEntry name83 attr m a) a=0 ∧
      (entryAt (setEntry name83 attr m a) a).attr=attr := by
  refine ⟨?_,target_setFirstCluster (by norm_num),?_⟩
  · rw [setEntry,setFirstCluster_keeps.1]
    refine Eq.trans (nameAt_congr fun i hi => ?_) (nameAt_setName (m:=m) hlen)
    rw [store32,storeBytes_outside (by omega),storeBytes_outside (by omega)]
  · rw [setEntry,setFirstCluster_keeps.2.1]
    simp only [entryAt]
    rw [store32,loadBytes_storeBytes_disjoint (by omega),loadBytes_storeBytes_same]
    omega

/-- The deleted entry. -/
theorem eraseEntry_first : eraseEntry m a a=0xE5 := by
  rw [eraseEntry,storeBytes,if_pos (by omega)]
  simp

/-- The renamed entry. -/
theorem setName_spec (hlen : name83.length=11) :
    nameAt (setName m a name83) a=name83 ∧ target (setName m a name83) a=target m a ∧
      (entryAt (setName m a name83) a).attr=(entryAt m a).attr :=
  ⟨nameAt_setName hlen,target_congr fun i h1 h2 => copyRange_outside (by omega),
    attr_congr (copyRange_outside (by omega))⟩

/-- The slots that were never used are the last ones. -/
def Dense (m : Bytes) (l : List ℕ) : Prop :=
  ∃ used unused, l=used++unused ∧ (∀ a∈used, m a≠0) ∧ ∀ a∈unused, m a=0

/-- Density depends on which slots were never used. -/
theorem Dense.congr (h : Dense m l) (heq : ∀ a∈l, m' a=0 ↔ m a=0) : Dense m' l := by
  obtain ⟨used,unused,rfl,h1,h2⟩ := h
  refine ⟨used,unused,rfl,fun a ha => ?_,fun a ha => ?_⟩
  · rw [Ne,heq a (by simp [ha])]
    exact h1 a ha
  · rw [heq a (by simp [ha])]
    exact h2 a ha

/-- Using the first free slot keeps a directory dense. -/
theorem Dense.fill (h : Dense m l) (hnodup : l.Nodup) (hfind : l.find? (slotFree m)=some a)
    (ha : m' a≠0) (hother : ∀ b∈l, b≠a → m' b=m b) : Dense m' l := by
  by_cases hzero : m a=0
  · obtain ⟨used,unused,rfl,h1,h2⟩ := h
    have hused : a∉used := fun hmem => h1 a hmem hzero
    obtain ⟨rest,rfl⟩ : ∃ rest, unused=a::rest := by
      rw [List.find?_append] at hfind
      cases hu : used.find? (slotFree m) with
      | some x =>
        rw [hu] at hfind
        obtain rfl : x=a := by simpa using hfind
        exact (hused (List.mem_of_find?_eq_some hu)).elim
      | none =>
        rw [hu,Option.none_or] at hfind
        cases unused with
        | nil => cases hfind
        | cons x rest =>
          rw [List.find?_cons,show slotFree m x=true by simp [slotFree,h2 x]] at hfind
          exact ⟨rest,by simpa using hfind⟩
    have hrest : a∉rest := by
      have := (List.nodup_append.mp hnodup).2.1
      exact (List.nodup_cons.mp this).1
    refine ⟨used++[a],rest,by simp,fun b hb => ?_,fun b hb => ?_⟩
    · rcases List.mem_append.mp hb with hb | hb
      · have hne : b≠a := fun h => hused (h ▸ hb)
        rw [hother b (by simp [hb]) hne]
        exact h1 b hb
      · rw [List.mem_singleton.mp hb]
        exact ha
    · have hne : b≠a := fun h => hrest (h ▸ hb)
      rw [hother b (by simp [hb]) hne]
      exact h2 b (by simp [hb])
  · refine h.congr fun b hb => ?_
    by_cases hba : b=a
    · rw [hba]
      exact iff_of_false ha hzero
    · rw [hother b hb hba]

/-- In a dense directory the search for a name finds the first slot with it. -/
theorem Dense.find_hit (h : Dense m l) (hhead : name83.headD 0≠0)
    (hstop : ∀ a, l.find? (stopTest name83 m)=some a → slotEnd m a=true) (ha : a∈l) :
    slotHit name83 m a=false := by
  obtain ⟨used,unused,rfl,h1,h2⟩ := h
  by_contra hhit
  rw [Bool.not_eq_false] at hhit
  have hlive := (live_iff.mp (live_of_hit hhead hhit)).1
  have hmem : a∈used := by
    rcases List.mem_append.mp ha with hmem | hmem
    · exact hmem
    · exact (hlive (h2 a hmem)).elim
  cases hf : used.find? (stopTest name83 m) with
  | none =>
    have := List.find?_eq_none.mp hf a hmem
    simp [stopTest,hhit] at this
  | some x =>
    have hend := hstop x (by rw [List.find?_append,hf]; rfl)
    refine h1 x (List.mem_of_find?_eq_some hf) ?_
    simpa [slotEnd] using hend

/-- A directory has no slot twice. -/
theorem slots_nodup (hr : ∀ c∈nodes, InRange v c) (hnodup : nodes.Nodup) : (slots v nodes).Nodup := by
  induction nodes with
  | nil => exact List.nodup_nil
  | cons c rest ih =>
    rw [slots_cons]
    refine List.nodup_append.mpr ⟨?_,ih (fun x hx => hr x (by simp [hx]))
      (List.nodup_cons.mp hnodup).2,?_⟩
    · rw [rangeSlots]
      exact List.nodup_range.map fun i j hij => by simpa using hij
    · rintro x hx y hy rfl
      have hx' : x∈slots v [c] := by
        rw [slots_cons]
        exact List.mem_append_left _ hx
      obtain ⟨c1,hc1,hbyte1⟩ := slot_dataByte hx'
      obtain ⟨c2,hc2,hbyte2⟩ := slot_dataByte hy
      rw [List.mem_singleton.mp hc1] at hbyte1
      have hne : c≠c2 := by
        rintro rfl
        exact (List.nodup_cons.mp hnodup).1 hc2
      exact data_disjoint (hr c (by simp)) (hr c2 (by simp [hc2])) hne (hbyte1 0 (by norm_num))
        (hbyte2 0 (by norm_num))

end OvsbMk.FatEntries
