import OvsbMk.FatChanges

/-!
# The driver on a disk whose transfers may fail

As long as no transfer of the table fails, searches for entries and free
clusters give the right answer or an error, a write to a file leaves a chain
that starts with the old one, and a walk through a directory acts on the slot it
would act on without failures, or ends with an error.
-/

namespace OvsbMk.FatFaults

open ByteMemory BlockDisk Fat32 Chains FatTable FatData FatDirectory FatEntries FatFiles FatChanges

variable {v : Volume} {m m' : Bytes} {d d0 d' : Disk} {c a start : ℕ} {nodes rest : List ℕ}

/-- No transfer of the table fails. -/
def SparesTable (v : Volume) (d : Disk) : Prop :=
  ∀ write lba, v.fatStartSector≤lba → lba<v.fatStartSector+v.sectorsPerFat32 → ¬d.Fails write lba

/-- The table is spared later, too. -/
theorem SparesTable.later (h : SparesTable v d) (hl : Later d d') : SparesTable v d' :=
  fun write lba h1 h2 hf => h write lba h1 h2 (hl.fails hf)

/-- An ideal disk spares the table. -/
theorem sparesTable_of_faultless (h : Faultless d) : SparesTable v d :=
  fun write lba _ _ hf => h.not_faulty ⟨write,lba,hf⟩

/-- The sector of a link does not fail. -/
theorem SparesTable.not_fails (hv : Mounted v) (h : SparesTable v d) (hc : c<totalClusters v+2)
    (write : Bool) : ¬d.Fails write (fatSector v c) := by
  have h1 := (hv.fatSector hc).1
  have h2 := hv.links
  exact h write _ (by omega) (by omega)

/-- Reading a link. -/
theorem SparesTable.readEntry (hv : Mounted v) (h : SparesTable v d) (hc : c<totalClusters v+2) :
    fatReadEntry v c d=(link v d.bytes c,d.used) := by
  obtain ⟨h1,_⟩ := hv.linkAddr_eq hc
  rcases read_cases d (fatSector v c) with ⟨_,hf⟩ | hr
  · exact (h.not_fails hv hc false hf).elim
  · rw [fatReadEntry,hr]
    dsimp only
    rw [load32,loadBytes_sector,h1]
    rfl

/-- Writing a link. -/
theorem SparesTable.writeEntry (hv : Mounted v) (h : SparesTable v d) (hc : c<totalClusters v+2)
    (value : ℕ) :
    fatWriteEntry v c value d=(true,d.used.used.with (setLink v d.bytes c value)) := by
  obtain ⟨h1,h2⟩ := hv.linkAddr_eq hc
  rcases read_cases d (fatSector v c) with ⟨_,hf⟩ | hr
  · exact (h.not_fails hv hc false hf).elim
  · rw [fatWriteEntry,hr]
    dsimp only
    rcases write_cases d.used (fatSector v c)
      (store32 (fun b => d.bytes (sectorAddr (fatSector v c)+b)) (c*4%2^32%512)
        (load32 (fun b => d.bytes (sectorAddr (fatSector v c)+b)) (c*4%2^32%512)/2^28*2^28+
          value%2^28)) with ⟨_,hf⟩ | hw
    · exact (h.not_fails hv hc true ((Later.refl d).used.fails hf)).elim
    · rw [hw,load32,store32,loadBytes_sector]
      show (true,d.used.used.with (copyRange d.bytes _ _ _))=_
      rw [copyRange_store h2,h1]
      rfl

/-- What the search for a free cluster finds. -/
theorem SparesTable.findFreeLoop (hv : Mounted v) (h : SparesTable v d) (rounds : ℕ) (hc : 2≤c)
    (hend : c+rounds=totalClusters v+2) :
    ∃ f d', findFreeLoop v rounds c d=(f,d') ∧ Idle d d' ∧
      (InRange v f ∧ link v d.bytes f=0 ∨
        f=0 ∧ ∀ x, c≤x → x<totalClusters v+2 → link v d.bytes x≠0) := by
  induction rounds generalizing c d with
  | zero => exact ⟨0,d,rfl,Idle.refl d,Or.inr ⟨rfl,fun x h1 h2 => by omega⟩⟩
  | succ rounds ih =>
    rw [Fat32.findFreeLoop,h.readEntry hv (by omega)]
    dsimp only
    by_cases hzero : link v d.bytes c=0
    · rw [if_pos hzero]
      exact ⟨c,_,rfl,(Idle.refl d).used,Or.inl ⟨⟨hc,by omega⟩,hzero⟩⟩
    · rw [if_neg hzero]
      have hused : Idle d d.used := (Idle.refl d).used
      obtain ⟨f,d',h1,h2,h3⟩ := ih (h.later hused.1) (c:=c+1) (by omega) (by omega)
      refine ⟨f,d',h1,hused.trans h2,h3.imp id fun h4 => ⟨h4.1,fun x hx hx' => ?_⟩⟩
      rcases Nat.eq_or_lt_of_le hx with rfl | hx
      · exact hzero
      · exact h4.2 x hx hx'

/-- The search finds a free cluster, or there is none. -/
theorem SparesTable.findFree (hv : Mounted v) (h : SparesTable v d) :
    ∃ f d', fatFindFree v d=(f,d') ∧ Idle d d' ∧
      (InRange v f ∧ link v d.bytes f=0 ∨ f=0 ∧ ∀ x, InRange v x → link v d.bytes x≠0) := by
  have h1 := hv.clusters_lt
  simp only [endOfChain] at h1
  have h2 : (totalClusters v+2)%2^32-2=totalClusters v := by omega
  rw [fatFindFree,h2]
  obtain ⟨f,d',h3,h4,h5⟩ := h.findFreeLoop hv (c:=2) (totalClusters v) le_rfl (by omega)
  exact ⟨f,d',h3,h4,h5.imp id fun h6 => ⟨h6.1,fun x hx => h6.2 x hx.1 hx.2⟩⟩

/-- Freeing a chain. -/
theorem SparesTable.freeChain (hv : Mounted v) (h : SparesTable v d) {fuel : ℕ}
    (hchain : FileChain v d.bytes start nodes) (hne : nodes≠[]) (hfuel : nodes.length≤fuel) :
    ∃ d', freeChain v fuel start d=some d' ∧ Later d d' ∧ d'.bytes=freeLinks v d.bytes nodes := by
  induction nodes generalizing start fuel d with
  | nil => exact (hne rfl).elim
  | cons c rest ih =>
    obtain ⟨rfl,hc,hrest⟩ := (fileChain_cons hv).mp hchain
    obtain ⟨fuel,rfl⟩ : ∃ k, fuel=k+1 := ⟨fuel-1,by rw [List.length_cons] at hfuel; omega⟩
    have hlater : Later d d.used := (Later.refl d).used
    rw [Fat32.freeChain,h.readEntry hv hc.2]
    dsimp only
    rw [(h.later hlater).writeEntry hv hc.2]
    dsimp only
    have hlater' : Later d (d.used.used.used.with (setLink v d.used.bytes start 0)) :=
      hlater.used.used.with _
    cases rest with
    | nil =>
      have hend := fileChain_nil.mp hrest
      rw [if_neg (by omega)]
      exact ⟨_,rfl,hlater',rfl⟩
    | cons next tail =>
      obtain ⟨hnext,hnr,_⟩ := (fileChain_cons hv).mp hrest
      have hlt := hnr.2.trans_le hv.clusters_lt
      rw [hnext,if_pos ⟨hnr.1,hlt⟩]
      rw [hnext] at hrest
      have hnot := (List.nodup_cons.mp hchain.nodup).1
      have hrest' : FileChain v (setLink v d.used.bytes start 0) next (next::tail) :=
        hrest.congr fun x hx => link_setLink_other (by rintro rfl; exact hnot hx)
      have hlen : (next::tail).length≤fuel := Nat.le_of_succ_le_succ hfuel
      obtain ⟨d',h1,h2,h3⟩ := ih (h.later hlater') hrest' (by simp) hlen
      exact ⟨d',h1,hlater'.trans h2,h3⟩

/-- A write of one sector of a cluster. -/
theorem write_sector (hv : Mounted v) (hc : InRange v c) {s : ℕ} (hs : s<v.sectorsPerCluster)
    (buffer : Bytes) :
    ∃ ok d', ataWriteSector ((Fat32.clusterToSector v c+s)%2^32) buffer d=(ok,d') ∧ Later d d' ∧
      (∀ b, ¬DataByte v c b → d'.bytes b=d.bytes b) ∧ (ok=false → d.Faulty) := by
  rcases write_cases d ((Fat32.clusterToSector v c+s)%2^32) buffer with ⟨hw,hf⟩ | hw
  · exact ⟨_,_,hw,(Later.refl d).used,fun _ _ => rfl,fun _ => ⟨_,_,hf⟩⟩
  · refine ⟨_,_,hw,(Later.refl d).used.with _,fun b hb => copyRange_outside ?_,fun h => by cases h⟩
    rw [sector_addr hv hc hs]
    simp only [DataByte,clusterBytes,sectorSize] at hb ⊢
    have : (s+1)*512≤v.sectorsPerCluster*512 := Nat.mul_le_mul_right 512 hs
    omega

/-- Writes of whole sectors of a cluster. -/
theorem writeSectors_frame (hv : Mounted v) (hc : InRange v c) (buffer : Bytes) (offset : ℕ)
    {count s : ℕ} (hs : s+count≤v.sectorsPerCluster) :
    ∃ ok d', writeSectors (Fat32.clusterToSector v c) offset buffer count s d=(ok,d') ∧
      Later d d' ∧ (∀ b, ¬DataByte v c b → d'.bytes b=d.bytes b) ∧ (ok=false → d.Faulty) := by
  induction count generalizing s d with
  | zero => exact ⟨true,d,rfl,Later.refl d,fun _ _ => rfl,fun h => by cases h⟩
  | succ count ih =>
    obtain ⟨ok,d1,h1,h2,h3,h4⟩ := write_sector (d:=d) hv hc (show s<v.sectorsPerCluster by omega)
      fun b => buffer (offset+s*512+b)
    rw [writeSectors,h1]
    cases ok with
    | false => exact ⟨false,d1,rfl,h2,h3,h4⟩
    | true =>
      obtain ⟨ok,d2,h5,h6,h7,h8⟩ := ih (s:=s+1) (d:=d1) (by omega)
      exact ⟨ok,d2,h5,h2.trans h6,fun b hb => (h7 b hb).trans (h3 b hb),
        fun hok => h2.faulty (h8 hok)⟩

/-- The write of the remainder of a cluster. -/
theorem writeRemainder_frame (hv : Mounted v) (hc : InRange v c) (buffer : Bytes)
    (offset : ℕ) {s remainder : ℕ} (hs : 0<remainder → s<v.sectorsPerCluster) :
    ∃ ok d', writeRemainder (Fat32.clusterToSector v c+s) offset remainder buffer d=(ok,d') ∧
      Later d d' ∧ (∀ b, ¬DataByte v c b → d'.bytes b=d.bytes b) ∧ (ok=false → d.Faulty) := by
  rw [writeRemainder]
  by_cases hpos : 0<remainder
  · rw [if_pos hpos]
    rcases read_cases d ((Fat32.clusterToSector v c+s)%2^32) with ⟨hr,hf⟩ | hr
    · rw [hr]
      exact ⟨false,_,rfl,(Later.refl d).used,fun _ _ => rfl,fun _ => ⟨_,_,hf⟩⟩
    · rw [hr]
      dsimp only
      obtain ⟨ok,d1,h1,h2,h3,h4⟩ := write_sector (d:=d.used) hv hc (hs hpos)
        (copyRange (fun b => d.bytes (sectorAddr ((Fat32.clusterToSector v c+s)%2^32)+b)) 0 remainder
          fun b => buffer (offset+b))
      exact ⟨ok,d1,h1,(Later.refl d).used.trans h2,h3,fun hok => (Later.refl d).used.faulty (h4 hok)⟩
  · rw [if_neg hpos]
    exact ⟨true,d,rfl,Later.refl d,fun _ _ => rfl,fun h => by cases h⟩

/-- A change of the contents of one cluster changes no link. -/
theorem link_data (hv : Mounted v) (hc : InRange v c) (hb : ∀ b, ¬DataByte v c b → m' b=m b) {x : ℕ}
    (hx : x<totalClusters v+2) : link v m' x=link v m x :=
  link_congr fun b hl => hb b (hv.link_not_data hx hc hl)

/-- Going on inside a chain. -/
theorem SparesTable.next_inside (hv : Mounted v) (h : SparesTable v d) (hc : InRange v c)
    (hnext : InRange v (link v d.bytes c)) :
    nextCluster v c d=(some (link v d.bytes c),d.used) := by
  have := hv.clusters_lt
  have := hnext.1
  have := hnext.2
  rw [nextCluster,h.readEntry hv hc.2]
  dsimp only
  rw [if_neg (by omega)]

/-- Going on past the end of a chain. -/
theorem SparesTable.next_end (hv : Mounted v) (h : SparesTable v d) (hc : InRange v c)
    (hend : endOfChain≤link v d.bytes c) :
    (∃ free d', nextCluster v c d=(some free,d') ∧ Later d d' ∧ InRange v free ∧
      link v d.bytes free=0 ∧ d'.bytes=setLink v (setLink v d.bytes c free) free endMark) ∨
    ∃ d', nextCluster v c d=(none,d') ∧ Idle d d' ∧ ∀ x, InRange v x → link v d.bytes x≠0 := by
  have hused : Idle d d.used := (Idle.refl d).used
  rw [nextCluster,h.readEntry hv hc.2]
  dsimp only
  rw [if_pos (Or.inr hend)]
  obtain ⟨f,d1,hf,hidle,⟨hr,hz⟩ | ⟨rfl,hnone⟩⟩ := (h.later hused.1).findFree hv
  · left
    have hpos := hr.1
    have hl1 : Later d d1 := hused.1.trans hidle.1
    rw [hf]
    dsimp only
    rw [if_neg (by omega),(h.later hl1).writeEntry hv hc.2]
    dsimp only
    have hl2 : Later d (d1.used.used.with (setLink v d1.bytes c f)) := hl1.used.used.with _
    rw [(h.later hl2).writeEntry hv hr.2]
    refine ⟨f,_,rfl,hl2.used.used.with _,hr,hz,?_⟩
    rw [with_bytes,with_bytes,hidle.2]
    rfl
  · right
    rw [hf]
    dsimp only
    rw [if_pos rfl]
    exact ⟨d1,rfl,hused.trans hidle,hnone⟩

/-- What the write loop leaves behind: the chain has grown, and all is written, or
a transfer failed, or all clusters are in use. -/
def Extended (v : Volume) (d : Disk) (nodes : List ℕ) (cluster offset size : ℕ)
    (result : Option (ℤ×Disk)) : Prop :=
  ∃ r d' added, result=some (r,d') ∧ Later d d' ∧ Grown v d.bytes d'.bytes nodes added ∧
    Relation.ReflTransGen (Grow v) d.bytes d'.bytes ∧ FileChain v d'.bytes cluster (nodes++added) ∧
    (r=toInt (offset+size) ∨ r=-1 ∧ (d.Faulty ∨ (∀ x, InRange v x → link v d'.bytes x≠0) ∧
      (nodes.length+added.length)*clusterBytes v<size))

/-- The write loop after a change of the contents of the first cluster only. -/
theorem extended_data (hv : Mounted v) {cluster offset size : ℕ} {r : ℤ}
    (hchain : FileChain v d.bytes cluster (cluster::rest)) (hl : Later d d')
    (hb : ∀ b, ¬DataByte v cluster b → d'.bytes b=d.bytes b)
    (hr : r=toInt (offset+size) ∨ r=-1 ∧ (d.Faulty ∨ (∀ x, InRange v x → link v d'.bytes x≠0) ∧
      (cluster::rest).length*clusterBytes v<size)) :
    Extended v d (cluster::rest) cluster offset size (some (r,d')) := by
  have hc : InRange v cluster := hchain.inRange cluster (by simp)
  have hlinks : ∀ x, InRange v x → link v d'.bytes x=link v d.bytes x :=
    fun x hx => link_data hv hc hb hx.2
  refine ⟨r,d',[],rfl,hl,⟨hchain.inRange,fun x hx => (by cases hx),fun b h => ?_⟩,
    Relation.ReflTransGen.single (.same hlinks),?_,?_⟩
  · exact hb b (h cluster (by simp)).1
  · rw [List.append_nil]
    exact hchain.congr fun x hx => hlinks x (hchain.inRange x hx)
  · rw [List.length_nil,Nat.add_zero]
    exact hr

/-- The write loop goes on to the rest of the chain. -/
theorem Extended.inside (hv : Mounted v) {cluster next offset size : ℕ} {d2 : Disk}
    {result : Option (ℤ×Disk)} (hchain : FileChain v d.bytes cluster (cluster::next::rest))
    (hl : Later d d2) (hb : ∀ b, ¬DataByte v cluster b → d2.bytes b=d.bytes b)
    (h : Extended v d2 (next::rest) next (offset+clusterBytes v) size result) :
    Extended v d (cluster::next::rest) cluster offset (clusterBytes v+size) result := by
  obtain ⟨r,d',added,hres,hl',hgrown,hgrow,hch,hr⟩ := h
  have hc : InRange v cluster := hchain.inRange cluster (by simp)
  have hlinks : ∀ x, InRange v x → link v d2.bytes x=link v d.bytes x :=
    fun x hx => link_data hv hc hb hx.2
  have hnext := ((fileChain_cons hv).mp ((fileChain_cons hv).mp hchain).2.2).1
  have hnot : cluster∉next::rest++added := by
    intro hmem
    rcases List.mem_append.mp hmem with hmem | hmem
    · exact (List.nodup_cons.mp hchain.nodup).1 hmem
    · have hz := (hgrown.fresh cluster hmem).2
      rw [hlinks cluster hc] at hz
      exact hchain.link_ne_zero hv (by simp) hz
  refine ⟨r,d',added,hres,hl.trans hl',⟨hchain.inRange,fun x hx => ?_,fun b hb' => ?_⟩,
    (Relation.ReflTransGen.single (.same hlinks)).trans hgrow,?_,?_⟩
  · have hx' := hgrown.fresh x hx
    exact ⟨hx'.1,by rw [← hlinks x hx'.1]; exact hx'.2⟩
  · exact (hgrown.frame b fun x hx => hb' x (List.mem_cons_of_mem cluster hx)).trans
      (hb b (hb' cluster (by simp)).1)
  · refine (fileChain_cons hv).mpr ⟨rfl,hc,?_⟩
    rw [hgrown.link_eq hv hc hnot,hlinks cluster hc,hnext]
    exact hch
  · rw [← Nat.add_assoc]
    refine hr.imp id fun h => ⟨h.1,h.2.imp hl.faulty fun h' => ⟨h'.1,?_⟩⟩
    rw [List.length_cons,Nat.add_right_comm,Nat.succ_mul]
    omega

/-- The write loop goes on with a new cluster. -/
theorem Extended.fresh (hv : Mounted v) {cluster free offset size : ℕ} {d2 d3 : Disk}
    {result : Option (ℤ×Disk)} (hchain : FileChain v d.bytes cluster [cluster])
    (hl : Later d d2) (hb : ∀ b, ¬DataByte v cluster b → d2.bytes b=d.bytes b)
    (hl3 : Later d2 d3) (hfr : InRange v free) (hfz : link v d2.bytes free=0)
    (hb3 : d3.bytes=setLink v (setLink v d2.bytes cluster free) free endMark)
    (h : Extended v d3 [free] free (offset+clusterBytes v) size result) :
    Extended v d [cluster] cluster offset (clusterBytes v+size) result := by
  obtain ⟨r,d',added,hres,hl',hgrown,hgrow,hch,hr⟩ := h
  have hc : InRange v cluster := hchain.inRange cluster (by simp)
  have hlinks : ∀ x, InRange v x → link v d2.bytes x=link v d.bytes x :=
    fun x hx => link_data hv hc hb hx.2
  have hend : endOfChain≤link v d2.bytes cluster := by
    rw [hlinks cluster hc]
    exact fileChain_nil.mp ((fileChain_cons hv).mp hchain).2.2
  obtain ⟨hw,_,hflink⟩ := wrote_extend hc (m:=d2.bytes) (List.mem_singleton_self cluster) hend hfr
    hfz (FatTree.inRange_lt hv hfr)
  rw [← hb3] at hw hflink
  have hne : cluster≠free := by
    rintro rfl
    simp only [endOfChain] at hend
    omega
  have hback : ∀ x, InRange v x → link v d3.bytes x=0 → link v d.bytes x=0 := by
    intro x hx hz
    rw [← hlinks x hx]
    by_contra hxz
    exact grows_used hw.grows hx hxz hz
  have hfz' : link v d.bytes free=0 := by
    rw [← hlinks free hfr]
    exact hfz
  have hnot : cluster∉[free]++added := by
    intro hmem
    rcases List.mem_append.mp hmem with hmem | hmem
    · exact hne (List.mem_singleton.mp hmem)
    · exact hchain.link_ne_zero hv (by simp) (hback cluster hc (hgrown.fresh cluster hmem).2)
  refine ⟨r,d',free::added,hres,hl.trans (hl3.trans hl'),⟨hchain.inRange,fun x hx => ?_,
    fun b hb' => ?_⟩,(Relation.ReflTransGen.single (.same hlinks)).trans (hw.grows.trans hgrow),?_,?_⟩
  · rcases List.mem_cons.mp hx with rfl | hx
    · exact ⟨hfr,hfz'⟩
    · have hx' := hgrown.fresh x hx
      exact ⟨hx'.1,hback x hx'.1 hx'.2⟩
  · have hstep : d3.bytes b=d2.bytes b := by
      rw [hb3,setLink_outside (hb' free (by simp)).2,setLink_outside (hb' cluster (by simp)).2]
    exact (hgrown.frame b fun x hx => hb' x (List.mem_cons_of_mem cluster hx)).trans
      (hstep.trans (hb b (hb' cluster (by simp)).1))
  · refine (fileChain_cons hv).mpr ⟨rfl,hc,?_⟩
    rw [hgrown.link_eq hv hc hnot,hflink]
    exact hch
  · rw [← Nat.add_assoc]
    refine hr.imp id fun h => ⟨h.1,h.2.imp (fun hf => hl.faulty (hl3.faulty hf)) fun h' => ⟨h'.1,?_⟩⟩
    have hlen : [cluster].length+(free::added).length=([free].length+added.length)+1 := by
      simp only [List.length_cons,List.length_nil]
      omega
    rw [hlen,Nat.succ_mul]
    omega

/-- One round of the write loop: at most the contents of its cluster change, and it fails
because a transfer failed, or it goes on when bytes are left over. -/
theorem writeChain_round_frame (hv : Mounted v) (hc : InRange v c) (buffer : Bytes)
    (fuel offset : ℕ) {size : ℕ} (hpos : 0<size) :
    ∃ d2, Later d d2 ∧ (∀ b, ¬DataByte v c b → d2.bytes b=d.bytes b) ∧
      (writeChain v buffer (fuel+1) c offset size d=some (-1,d2) ∧ d.Faulty ∨
        writeChain v buffer (fuel+1) c offset size d=
          if clusterBytes v<size then
            match nextCluster v c d2 with
            | (none,d) => some (-1,d)
            | (some next,d) =>
              writeChain v buffer fuel next (offset+clusterBytes v) (size-clusterBytes v) d
          else some (toInt (offset+size),d2)) := by
  obtain ⟨k1,k2,_⟩ := sectors_of_bytes (v:=v) (Nat.min_le_right size (clusterBytes v))
  rw [writeChain,if_pos hpos]
  dsimp only
  obtain ⟨ok,d1,h1,h2,h3,h4⟩ := writeSectors_frame (d:=d) hv hc buffer offset
    (show 0+min size (clusterBytes v)/512≤v.sectorsPerCluster by omega)
  rw [h1]
  cases ok with
  | false => exact ⟨d1,h2,h3,Or.inl ⟨rfl,h4 rfl⟩⟩
  | true =>
    dsimp only
    obtain ⟨ok,d2,h5,h6,h7,h8⟩ := writeRemainder_frame (d:=d1) hv hc buffer
      (offset+min size (clusterBytes v)/512*512) k2
    rw [h5]
    refine ⟨d2,h2.trans h6,fun b hb => (h7 b hb).trans (h3 b hb),?_⟩
    cases ok with
    | false => exact Or.inl ⟨rfl,h2.faulty (h8 rfl)⟩
    | true =>
      refine Or.inr ?_
      dsimp only
      by_cases hmore : clusterBytes v<size
      · rw [Nat.min_eq_right hmore.le,if_pos (by omega)]
        exact (if_pos hmore).symm
      · rw [Nat.min_eq_left (by omega),if_neg (by omega),if_neg hmore]

/-- The write loop. -/
theorem writeChain_extended (hv : Mounted v) (buffer : Bytes) {fuel cluster : ℕ} (offset : ℕ)
    {size : ℕ} (hs : SparesTable v d) (hchain : FileChain v d.bytes cluster (cluster::rest))
    (hfuel : size≤fuel) :
    Extended v d (cluster::rest) cluster offset size
      (writeChain v buffer fuel cluster offset size d) := by
  induction fuel generalizing cluster rest offset size d with
  | zero =>
    obtain rfl : size=0 := by omega
    rw [writeChain,if_neg (by omega)]
    exact extended_data hv hchain (Later.refl d) (fun _ _ => rfl) (Or.inl rfl)
  | succ fuel ih =>
    rcases Nat.eq_zero_or_pos size with rfl | hpos
    · rw [writeChain,if_neg (by omega)]
      exact extended_data hv hchain (Later.refl d) (fun _ _ => rfl) (Or.inl rfl)
    obtain ⟨_,hc,hafter⟩ := (fileChain_cons hv).mp hchain
    have hcb := clusterBytes_pos hv
    obtain ⟨d2,hl2,hb2,⟨hrun,hfault⟩ | hrun⟩ :=
      @writeChain_round_frame v d cluster hv hc buffer fuel offset size hpos
    · rw [hrun]
      exact extended_data hv hchain hl2 hb2 (Or.inr ⟨rfl,Or.inl hfault⟩)
    rw [hrun]
    by_cases hmore : clusterBytes v<size
    swap
    · rw [if_neg hmore]
      exact extended_data hv hchain hl2 hb2 (Or.inl rfl)
    rw [if_pos hmore]
    have hsize : size=clusterBytes v+(size-clusterBytes v) := by omega
    have hlink := link_data hv hc hb2 hc.2
    cases rest with
    | cons next tail =>
      obtain ⟨hnext,hnr,_⟩ := (fileChain_cons hv).mp hafter
      have hstep := (hs.later hl2).next_inside hv hc (by rw [hlink,hnext]; exact hnr)
      rw [hlink,hnext] at hstep
      rw [hstep]
      rw [hnext] at hafter
      have hchain2 : FileChain v d2.used.bytes next (next::tail) :=
        hafter.congr fun x hx => link_data hv hc hb2 (hafter.inRange x hx).2
      have hout := @ih d2.used tail next (offset+clusterBytes v) (size-clusterBytes v)
        (hs.later hl2.used) hchain2 (by omega)
      have := Extended.inside hv hchain hl2.used hb2 hout
      rwa [← hsize] at this
    | nil =>
      have hend : endOfChain≤link v d2.bytes cluster := by
        rw [hlink]
        exact fileChain_nil.mp hafter
      rcases (hs.later hl2).next_end hv hc hend with
        ⟨free,d3,hstep,hl3,hfr,hfz,hb3⟩ | ⟨d3,hstep,hidle,hfull⟩
      · rw [hstep]
        have hchain3 : FileChain v d3.bytes free [free] := by
          refine (fileChain_cons hv).mpr ⟨rfl,hfr,fileChain_nil.mpr ?_⟩
          rw [hb3,link_setLink_same]
          norm_num
        have hout := @ih d3 [] free (offset+clusterBytes v) (size-clusterBytes v)
          (hs.later (hl2.trans hl3)) hchain3 (by omega)
        have := Extended.fresh hv hchain hl2 hb2 hl3 hfr hfz hb3 hout
        rwa [← hsize] at this
      · rw [hstep]
        refine extended_data hv hchain (hl2.trans hidle.1) (fun b hb => ?_)
          (Or.inr ⟨rfl,Or.inr ⟨fun x hx => ?_,?_⟩⟩)
        · rw [hidle.2]
          exact hb2 b hb
        · rw [hidle.2]
          exact hfull x hx
        · rw [List.length_singleton,Nat.one_mul]
          omega

end OvsbMk.FatFaults
