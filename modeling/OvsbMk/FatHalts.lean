import OvsbMk.FatEndings
import OvsbMk.FatCompletion

/-!
# Which walks through directories end

The loops over directories stop at the end of a chain, at a slot they look for or
at a failed transfer, and at nothing else. A walk ends exactly when following the
links from its start leads there; a chain that runs into itself without such a
slot keeps it going for ever.
-/

namespace OvsbMk.FatHalts

open ByteMemory BlockDisk Fat32 Chains FatTable FatData FatDirectory FatFiles FatViews FatScans
open FatCompletion

variable {v : Volume} {m : Bytes} {d : Disk} {c k s count sector start : ℕ} {name : List UInt8}
  {test : Bytes → ℕ → Bool}

/-- The disk after a number of transfers that stored nothing. -/
def after (d : Disk) (k : ℕ) : Disk := { d with faults := fun n => d.faults (n+k) }

/-- No transfer. -/
theorem after_zero (d : Disk) : after d 0=d := rfl

/-- One transfer more. -/
theorem after_used (d : Disk) (k : ℕ) : (after d k).used=after d (k+1) := by
  simp only [after,Disk.used,Nat.add_right_comm,Nat.add_assoc]

/-- The contents stay as they are. -/
@[simp] theorem after_bytes (d : Disk) (k : ℕ) : (after d k).bytes=d.bytes := rfl

/-- The next transfer. -/
theorem after_faults (d : Disk) (k : ℕ) (write : Bool) (lba : ℕ) :
    (after d k).faults 0 write lba=d.faults k write lba := by
  simp only [after,Nat.zero_add]

/-- A round of a walk that starts after some transfers meets a failure: of a
sector of the cluster, or of the link after it. -/
def Fails (v : Volume) (d : Disk) (k c : ℕ) : Prop :=
  (∃ j, j<v.sectorsPerCluster ∧ d.faults (k+j) false ((clusterToSector v c+j)%2^32)=true) ∨
    d.faults (k+v.sectorsPerCluster) false (fatSector v c)=true

/-- A round of a walk is the last one: the chain ends here, or a slot of the
cluster passes the test, or a transfer fails. -/
def Halts (v : Volume) (d : Disk) (test : Bytes → ℕ → Bool) (k c : ℕ) : Prop :=
  Ends c ∨ (∃ p∈clusterPlaces v c, onPlace test d.bytes p=true) ∨ Fails v d k c

/-- Following the links from a cluster leads to a round that is the last one. -/
def Arrives (v : Volume) (d : Disk) (test : Bytes → ℕ → Bool) (start : ℕ) : Prop :=
  ∃ n, Halts v d test (n*(v.sectorsPerCluster+1)) ((link v d.bytes)^[n] start)

/-- A visitor that goes on from a sector it can read if no slot there passes. -/
structure Reads {ρ : Type} (visit : ℕ → Disk → Option ρ×Disk) (test : Bytes → ℕ → Bool) : Prop where
  /-- It goes on. -/
  pass : ∀ lba d, d.faults 0 false lba=false → firstSlot test (sectorOf d.bytes lba)=none →
    visit lba d=(none,d.used)
  /-- It stops. -/
  stop : ∀ lba d, d.faults 0 false lba=true ∨ firstSlot test (sectorOf d.bytes lba)≠none →
    ∃ r d', visit lba d=(some r,d')

/-- A sector without a slot that passes. -/
theorem firstSlot_none {lba : ℕ} : firstSlot test (sectorOf m lba)=none ↔
    ∀ p∈sectorPlaces lba, ¬onPlace test m p=true := by
  rw [firstSlot_sector,Option.map_eq_none_iff,List.find?_eq_none]

/-- Something stops the loop over sectors. -/
def Blocked (d : Disk) (test : Bytes → ℕ → Bool) (k sector s count : ℕ) : Prop :=
  (∃ j, j<count ∧ d.faults (k+j) false ((sector+(s+j))%2^32)=true) ∨
    ∃ p∈runPlaces sector s count, onPlace test d.bytes p=true

/-- Nothing stops the loop over no sectors. -/
theorem not_blocked_zero : ¬Blocked d test k sector s 0 := by
  rintro (⟨j,hj,_⟩ | ⟨p,hp,_⟩)
  · omega
  · cases hp

/-- What stops the loop over sectors is in the first one or in the others. -/
theorem blocked_succ : Blocked d test k sector s (count+1) ↔
    (d.faults k false ((sector+s)%2^32)=true ∨
      firstSlot test (sectorOf d.bytes ((sector+s)%2^32))≠none) ∨
    Blocked d test (k+1) sector (s+1) count := by
  rw [Ne,firstSlot_none,Blocked,Blocked,runPlaces_succ]
  simp only [List.mem_append]
  constructor
  · rintro (⟨j,hj,hf⟩ | ⟨p,hp | hp,ht⟩)
    · cases j with
      | zero => exact Or.inl (Or.inl hf)
      | succ j =>
        refine Or.inr (Or.inl ⟨j,by omega,?_⟩)
        rwa [show k+1+j=k+(j+1) by omega,show s+1+j=s+(j+1) by omega]
    · exact Or.inl (Or.inr fun h => h p hp ht)
    · exact Or.inr (Or.inr ⟨p,hp,ht⟩)
  · rintro ((hf | hn) | (⟨j,hj,hf⟩ | ⟨p,hp,ht⟩))
    · exact Or.inl ⟨0,by omega,hf⟩
    · push Not at hn
      obtain ⟨p,hp,ht⟩ := hn
      exact Or.inr ⟨p,Or.inl hp,ht⟩
    · refine Or.inl ⟨j+1,by omega,?_⟩
      rwa [show k+(j+1)=k+1+j by omega,show s+(j+1)=s+1+j by omega]
    · exact Or.inr ⟨p,Or.inr hp,ht⟩

section
variable {ρ : Type} {visit : ℕ → Disk → Option ρ×Disk}

/-- The loop over sectors goes on or stops. -/
theorem walkSectors_blocked (h : Reads visit test) (d : Disk) (sector count s k : ℕ) :
    (¬Blocked d test k sector s count ∧
        walkSectors visit sector count s (after d k)=(none,after d (k+count))) ∨
      Blocked d test k sector s count ∧
        ∃ r d', walkSectors visit sector count s (after d k)=(some r,d') := by
  induction count generalizing s k with
  | zero => exact Or.inl ⟨not_blocked_zero,rfl⟩
  | succ count ih =>
    rw [walkSectors,blocked_succ]
    by_cases hfirst : d.faults k false ((sector+s)%2^32)=true ∨
        firstSlot test (sectorOf d.bytes ((sector+s)%2^32))≠none
    · obtain ⟨r,d',hvisit⟩ := h.stop ((sector+s)%2^32) (after d k) (by
        rw [after_faults]
        exact hfirst)
      exact Or.inr ⟨Or.inl hfirst,r,d',by rw [hvisit]⟩
    · rw [not_or,Bool.not_eq_true,not_not] at hfirst
      have hvisit := h.pass ((sector+s)%2^32) (after d k) (by
        rw [after_faults]
        exact hfirst.1) hfirst.2
      rw [hvisit,after_used]
      rcases ih (s+1) (k+1) with ⟨hfree,hwalk⟩ | ⟨hblocked,r,d',hwalk⟩
      · refine Or.inl ⟨?_,?_⟩
        · rintro ((hf | hn) | hb)
          · rw [hfirst.1] at hf
            cases hf
          · exact hn hfirst.2
          · exact hfree hb
        · dsimp only
          rw [hwalk,show k+1+count=k+(count+1) by omega]
      · exact Or.inr ⟨Or.inr hblocked,r,d',hwalk⟩

/-- What stops the loop over the sectors of a cluster stops the walk. -/
theorem halts_blocked : Halts v d test k c ↔ Ends c ∨
    Blocked d test k (clusterToSector v c) 0 v.sectorsPerCluster ∨
      d.faults (k+v.sectorsPerCluster) false (fatSector v c)=true := by
  simp only [Halts,Fails,Blocked,clusterPlaces,Nat.zero_add]
  refine or_congr Iff.rfl ?_
  rw [or_left_comm,or_assoc]

/-- A link read after some transfers. -/
theorem readEntry_after (v : Volume) (d : Disk) (k c : ℕ) : fatReadEntry v c (after d k)=
    (if d.faults k false (fatSector v c) then 0 else link v d.bytes (c%2^30),after d (k+1)) := by
  rw [readEntry_any,after_faults,after_used]
  rfl

/-- A round that is not the last one. -/
theorem walkChain_on (h : Reads visit test) (hgo : ¬Halts v d test k c) (rounds : ℕ) :
    walkChain v visit (rounds+1) c (after d k)=
      walkChain v visit rounds (link v d.bytes c) (after d (k+(v.sectorsPerCluster+1))) := by
  rw [halts_blocked,not_or,not_or,Bool.not_eq_true] at hgo
  obtain ⟨hends,hfree,hfat⟩ := hgo
  rw [walkChain,if_pos (not_not.mp hends)]
  rcases walkSectors_blocked h d (clusterToSector v c) v.sectorsPerCluster 0 k with
    ⟨_,hwalk⟩ | ⟨hblocked,_⟩
  · rw [hwalk]
    dsimp only
    rw [readEntry_after,hfat,mod_of_not_ends hends]
    rfl
  · exact (hfree hblocked).elim

/-- The last round. -/
theorem walkChain_last (h : Reads visit test) (hstop : Halts v d test k c) (rounds : ℕ) :
    ∃ r, walkChain v visit (rounds+1) c (after d k)=some r := by
  by_cases hends : Ends c
  · exact ⟨_,walkChain_ends hends _⟩
  rw [walkChain,if_pos (not_not.mp hends)]
  rcases walkSectors_blocked h d (clusterToSector v c) v.sectorsPerCluster 0 k with
    ⟨hfree,hwalk⟩ | ⟨_,r,d',hwalk⟩
  · rw [hwalk]
    dsimp only
    have hfat := ((halts_blocked.mp hstop).resolve_left hends).resolve_left hfree
    rw [readEntry_after,hfat,if_pos rfl]
    exact ⟨_,walkChain_ends (by simp [Ends]) _⟩
  · rw [hwalk]
    exact ⟨_,rfl⟩

/-- A walk that starts after some transfers ends exactly when it comes to a last
round. -/
theorem walkChain_halts (h : Reads visit test) (v : Volume) (d : Disk) (start k : ℕ) :
    (∃ rounds r, walkChain v visit rounds start (after d k)=some r) ↔
      ∃ n, Halts v d test (k+n*(v.sectorsPerCluster+1)) ((link v d.bytes)^[n] start) := by
  constructor
  · rintro ⟨rounds,r,hwalk⟩
    induction rounds generalizing start k with
    | zero =>
      refine ⟨0,Or.inl fun hin : 2 ≤ start ∧ start<endOfChain => ?_⟩
      rw [walkChain,if_pos hin] at hwalk
      cases hwalk
    | succ rounds ih =>
      by_cases hstop : Halts v d test k start
      · exact ⟨0,by rwa [Nat.zero_mul]⟩
      · rw [walkChain_on h hstop] at hwalk
        obtain ⟨n,hn⟩ := ih _ _ hwalk
        refine ⟨n+1,?_⟩
        rw [Function.iterate_succ_apply]
        rwa [show k+(v.sectorsPerCluster+1)+n*(v.sectorsPerCluster+1)=
          k+(n+1)*(v.sectorsPerCluster+1) by ring] at hn
  · rintro ⟨n,hn⟩
    induction n generalizing start k with
    | zero =>
      rw [Nat.zero_mul] at hn
      exact ⟨1,walkChain_last h hn 0⟩
    | succ n ih =>
      by_cases hstop : Halts v d test k start
      · exact ⟨1,walkChain_last h hstop 0⟩
      · rw [Function.iterate_succ_apply,show k+(n+1)*(v.sectorsPerCluster+1)=
          k+(v.sectorsPerCluster+1)+n*(v.sectorsPerCluster+1) by ring] at hn
        obtain ⟨rounds,r,hwalk⟩ := ih _ _ hn
        exact ⟨rounds+1,r,by rw [walkChain_on h hstop,hwalk]⟩

/-- A walk ends exactly when the links lead to a last round. -/
theorem walkChain_arrives (h : Reads visit test) (v : Volume) (d : Disk) (start : ℕ) :
    (∃ rounds r, walkChain v visit rounds start d=some r) ↔ Arrives v d test start := by
  have hwalk := walkChain_halts h v d start 0
  rw [after_zero] at hwalk
  simpa only [Nat.zero_add,Arrives] using hwalk

end

/-- A visitor that reads the sector, fails if it cannot, and acts on the first slot
that passes. -/
theorem reads_of_act {ρ : Type} {visit : ℕ → Disk → Option ρ×Disk} (bad : ρ)
    (act : ℕ → Bytes → ℕ → Disk → ρ×Disk)
    (h : ∀ lba d, visit lba d=
      match ataReadSector lba d with
      | (none,d) => (some bad,d)
      | (some buf,d) =>
        match firstSlot test buf with
        | none => (none,d)
        | some a => (some (act lba buf a d).1,(act lba buf a d).2)) : Reads visit test where
  pass lba d hread hnone := by
    have hnone' : firstSlot test (fun b => d.bytes (sectorAddr lba+b))=none := hnone
    rw [h,ataReadSector,hread,if_neg Bool.false_ne_true]
    dsimp only
    rw [hnone']
  stop lba d hstop := by
    rw [h,ataReadSector]
    cases hread : d.faults 0 false lba with
    | true => exact ⟨_,_,rfl⟩
    | false =>
      obtain ⟨a,ha⟩ := Option.ne_none_iff_exists'.mp
        (hstop.resolve_left (by rw [hread]; exact Bool.false_ne_true))
      have ha' : firstSlot test (fun b => d.bytes (sectorAddr lba+b))=some a := ha
      rw [if_neg Bool.false_ne_true]
      dsimp only
      rw [ha']
      exact ⟨_,_,rfl⟩

/-- The visitor of `find_entry` goes on from sectors without the name or the end. -/
theorem findVisit_reads (name83 : List UInt8) : Reads (findVisit name83) (stopTest name83) := by
  refine reads_of_act (-1,none) (fun lba buf a d =>
    if slotEnd buf a then ((-1,none),d) else ((toInt lba,some (entryAt buf a)),d)) fun lba d => ?_
  rw [findVisit]
  rcases ataReadSector lba d with ⟨_ | buf,d'⟩
  · rfl
  · change (match firstSlot (stopTest name83) buf with
      | none => (none,d')
      | some a => if slotEnd buf a then (some (-1,none),d')
          else (some (toInt lba,some (entryAt buf a)),d'))=_
    dsimp only
    cases firstSlot (stopTest name83) buf with
    | none => rfl
    | some a =>
      dsimp only
      split <;> rfl

/-- A sector written back. -/
theorem write_answer {ρ : Type} (lba : ℕ) (buf : Bytes) (d : Disk) (bad good : ρ) :
    (match ataWriteSector lba buf d with
      | (false,d) => (some bad,d)
      | (true,d) => (some good,d))=
      (some (if (ataWriteSector lba buf d).1 then good else bad),(ataWriteSector lba buf d).2) := by
  rcases ataWriteSector lba buf d with ⟨b,d'⟩
  cases b <;> rfl

/-- The visitor of `create_entry_at` goes on from sectors without a free slot. -/
theorem createVisit_reads (name83 : List UInt8) (attr : ℕ) :
    Reads (createVisit name83 attr) slotFree := by
  refine reads_of_act fatErrIo (fun lba buf a d =>
    (if (ataWriteSector lba (setEntry name83 attr buf a) d).1 then 0 else fatErrIo,
      (ataWriteSector lba (setEntry name83 attr buf a) d).2)) fun lba d => ?_
  rw [createVisit]
  rcases ataReadSector lba d with ⟨_ | buf,d'⟩
  · rfl
  · dsimp only
    cases firstSlot slotFree buf with
    | none => rfl
    | some a => exact write_answer _ _ _ _ _

/-- The visitor of `fat32_rename` goes on from sectors without the name. -/
theorem renameVisit_reads (old83 new83 : List UInt8) :
    Reads (renameVisit old83 new83) (slotNamed old83) := by
  refine reads_of_act fatErrIo (fun lba buf a d =>
    (if (ataWriteSector lba (setName buf a new83) d).1 then 0 else fatErrIo,
      (ataWriteSector lba (setName buf a new83) d).2)) fun lba d => ?_
  rw [renameVisit]
  rcases ataReadSector lba d with ⟨_ | buf,d'⟩
  · rfl
  · dsimp only
    cases firstSlot (slotNamed old83) buf with
    | none => rfl
    | some a => exact write_answer _ _ _ _ _

section
variable {σ : Type} {more : σ → Bool} {enter : Bytes → ℕ → σ → σ} {fail : σ → σ}

/-- The end of a directory was met at a slot. -/
theorem scanPlaces_met {l : List Place} {seen : σ}
    (h : (scanPlaces more enter m l seen).1=true) : ∃ p∈l, onPlace slotEnd m p=true := by
  induction l generalizing seen with
  | nil => cases h
  | cons p rest ih =>
    rw [scanPlaces] at h
    cases hmore : more seen with
    | false =>
      rw [hmore,if_neg Bool.false_ne_true] at h
      cases h
    | true =>
      rw [hmore,if_pos rfl] at h
      cases hend : onPlace slotEnd m p with
      | true => exact ⟨p,List.mem_cons_self,hend⟩
      | false =>
        rw [hend,if_neg Bool.false_ne_true] at h
        obtain ⟨q,hq,ht⟩ := ih h
        exact ⟨q,List.mem_cons_of_mem p hq,ht⟩

/-- A loop that still has more to do has met all slots, none of which ends the
directory. -/
theorem scanPlaces_all {l : List Place} {seen : σ}
    (h : (scanPlaces more enter m l seen).1=false)
    (hmore : more (scanPlaces more enter m l seen).2=true) :
    ∀ p∈l, ¬onPlace slotEnd m p=true := by
  induction l generalizing seen with
  | nil => exact fun p hp => by cases hp
  | cons p rest ih =>
    rw [scanPlaces] at h hmore
    cases hseen : more seen with
    | false =>
      rw [hseen,if_neg Bool.false_ne_true,hseen] at hmore
      cases hmore
    | true =>
      rw [hseen,if_pos rfl] at h hmore
      cases hend : onPlace slotEnd m p with
      | true =>
        rw [hend,if_pos rfl] at h
        cases h
      | false =>
        rw [hend,if_neg Bool.false_ne_true] at h hmore
        intro q hq
        rcases List.mem_cons.mp hq with rfl | hq
        · rw [hend]
          exact Bool.false_ne_true
        · exact ih h hmore q hq

/-- The loop over sectors is stopped, has nothing more to do, or goes on. -/
theorem scanSectors_cases (more : σ → Bool) (enter : Bytes → ℕ → σ → σ) (fail : σ → σ) (d : Disk)
    (sector count s k : ℕ) (seen : σ) :
    (Blocked d slotEnd k sector s count ∧
        ∃ seen' d', scanSectors more enter fail sector count s seen (after d k)=(true,seen',d')) ∨
      (more (scanPlaces more enter d.bytes (runPlaces sector s count) seen).2=false ∧
        ∃ d', scanSectors more enter fail sector count s seen (after d k)=
          (false,(scanPlaces more enter d.bytes (runPlaces sector s count) seen).2,d')) ∨
      (¬Blocked d slotEnd k sector s count ∧
        scanSectors more enter fail sector count s seen (after d k)=
          (false,(scanPlaces more enter d.bytes (runPlaces sector s count) seen).2,
            after d (k+count))) := by
  induction count generalizing s k seen with
  | zero => exact Or.inr (Or.inr ⟨not_blocked_zero,rfl⟩)
  | succ count ih =>
    rw [scanSectors,blocked_succ,runPlaces_succ,scanPlaces_append]
    cases hmore : more seen with
    | false =>
      rw [if_neg Bool.false_ne_true,scanPlaces_idle hmore,if_neg Bool.false_ne_true,
        scanPlaces_idle hmore]
      exact Or.inr (Or.inl ⟨hmore,_,rfl⟩)
    | true =>
      rw [if_pos rfl]
      rw [ataReadSector,after_faults]
      cases hread : d.faults k false ((sector+s)%2^32) with
      | true => exact Or.inl ⟨Or.inl (Or.inl rfl),_,_,rfl⟩
      | false =>
        rw [if_neg Bool.false_ne_true,after_used,after_bytes]
        dsimp only
        rw [scanSlots_places]
        rcases hscan : scanPlaces more enter d.bytes (sectorPlaces ((sector+s)%2^32)) seen with
          ⟨b,seen'⟩
        cases b with
        | true =>
          obtain ⟨p,hp,ht⟩ := scanPlaces_met (show (scanPlaces more enter d.bytes
            (sectorPlaces ((sector+s)%2^32)) seen).1=true by rw [hscan])
          refine Or.inl ⟨Or.inl (Or.inr fun h => ?_),_,_,rfl⟩
          exact firstSlot_none.mp h p hp ht
        | false =>
          rw [if_neg Bool.false_ne_true]
          dsimp only
          cases hmore' : more seen' with
          | false =>
            refine Or.inr (Or.inl ?_)
            rw [scanPlaces_idle hmore']
            refine ⟨hmore',after d (k+1),?_⟩
            cases count with
            | zero => rfl
            | succ count => rw [scanSectors,hmore',if_neg Bool.false_ne_true]
          | true =>
            have hunmet : (scanPlaces more enter d.bytes
              (sectorPlaces ((sector+s)%2^32)) seen).1=false := by rw [hscan]
            have hnone : firstSlot slotEnd (sectorOf d.bytes ((sector+s)%2^32))=none :=
              firstSlot_none.mpr (scanPlaces_all hunmet (by rw [hscan]; exact hmore'))
            rcases ih (s+1) (k+1) seen' with ⟨hb,h⟩ | ⟨hm,h⟩ | ⟨hb,h⟩
            · exact Or.inl ⟨Or.inr hb,h⟩
            · exact Or.inr (Or.inl ⟨hm,h⟩)
            · refine Or.inr (Or.inr ⟨?_,?_⟩)
              · rintro ((hf | hn) | hb')
                · cases hf
                · exact hn hnone
                · exact hb hb'
              · rw [h,show k+1+count=k+(count+1) by omega]

/-- What a loop that collects has collected after a number of clusters. -/
def gathered (v : Volume) (more : σ → Bool) (enter : Bytes → ℕ → σ → σ) (m : Bytes) :
    ℕ → σ → ℕ → σ
  | _, seen, 0 => seen
  | c, seen, n+1 =>
    gathered v more enter m (link v m c) (scanPlaces more enter m (clusterPlaces v c) seen).2 n

/-- A round after which there is more to do. -/
theorem scanChain_on {seen : σ} (hgo : ¬Halts v d slotEnd k c) (hmore : more seen=true)
    (hmore' : more (scanPlaces more enter d.bytes (clusterPlaces v c) seen).2=true) (rounds : ℕ) :
    scanChain v more enter fail (rounds+1) c seen (after d k)=
      scanChain v more enter fail rounds (link v d.bytes c)
        (scanPlaces more enter d.bytes (clusterPlaces v c) seen).2
        (after d (k+(v.sectorsPerCluster+1))) := by
  rw [halts_blocked,not_or,not_or,Bool.not_eq_true] at hgo
  obtain ⟨hends,hfree,hfat⟩ := hgo
  have hin : 2≤c ∧ c<endOfChain := not_not.mp hends
  rw [scanChain,if_pos ⟨hin.1,hin.2,hmore⟩]
  rcases scanSectors_cases more enter fail d (clusterToSector v c)
    v.sectorsPerCluster 0 k seen with ⟨hb,_⟩ | ⟨hm,_⟩ | ⟨_,h⟩
  · exact (hfree hb).elim
  · rw [show runPlaces (clusterToSector v c) 0 v.sectorsPerCluster=clusterPlaces v c from rfl,
      hmore'] at hm
    cases hm
  · rw [h]
    dsimp only
    rw [readEntry_after,hfat,mod_of_not_ends hends]
    rfl

/-- The last round. -/
theorem scanChain_last {seen : σ} (hstop : Halts v d slotEnd k c ∨ more seen=false ∨
      more (scanPlaces more enter d.bytes (clusterPlaces v c) seen).2=false) (rounds : ℕ) :
    ∃ r, scanChain v more enter fail (rounds+1) c seen (after d k)=some r := by
  by_cases hends : Ends c
  · exact ⟨_,scanChain_ends (Or.inl hends) _⟩
  cases hmore : more seen with
  | false => exact ⟨_,scanChain_ends (Or.inr hmore) _⟩
  | true =>
    have hin : 2≤c ∧ c<endOfChain := not_not.mp hends
    rw [scanChain,if_pos ⟨hin.1,hin.2,hmore⟩]
    rcases scanSectors_cases more enter fail d (clusterToSector v c)
      v.sectorsPerCluster 0 k seen with ⟨_,seen',d',h⟩ | ⟨hm,d',h⟩ | ⟨hb,h⟩
    · rw [h]
      exact ⟨_,rfl⟩
    · rw [h]
      exact ⟨_,scanChain_ends (Or.inr hm) _⟩
    · rw [h]
      dsimp only
      rw [readEntry_after]
      rcases hstop with hstop | hm | hm
      · have hfat := ((halts_blocked.mp hstop).resolve_left hends).resolve_left hb
        rw [hfat,if_pos rfl]
        exact ⟨_,scanChain_ends (Or.inl (by simp [Ends])) _⟩
      · rw [hmore] at hm
        cases hm
      · exact ⟨_,scanChain_ends (Or.inr hm) _⟩

/-- A loop that collects ends exactly when it comes to a last round or has nothing
more to do. -/
theorem scanChain_halts (more : σ → Bool) (enter : Bytes → ℕ → σ → σ) (fail : σ → σ) (v : Volume)
    (d : Disk) (start k : ℕ) (seen : σ) :
    (∃ rounds r, scanChain v more enter fail rounds start seen (after d k)=some r) ↔
      ∃ n, Halts v d slotEnd (k+n*(v.sectorsPerCluster+1)) ((link v d.bytes)^[n] start) ∨
        more (gathered v more enter d.bytes start seen n)=false := by
  constructor
  · rintro ⟨rounds,r,hscan⟩
    induction rounds generalizing start k seen with
    | zero =>
      cases hmore : more seen with
      | false => exact ⟨0,Or.inr hmore⟩
      | true =>
        refine ⟨0,Or.inl (Or.inl fun hin : 2 ≤ start ∧ start<endOfChain => ?_)⟩
        rw [scanChain,if_pos ⟨hin.1,hin.2,hmore⟩] at hscan
        cases hscan
    | succ rounds ih =>
      by_cases hstop : Halts v d slotEnd k start
      · exact ⟨0,Or.inl (by rwa [Nat.zero_mul])⟩
      cases hmore : more seen with
      | false => exact ⟨0,Or.inr hmore⟩
      | true =>
        cases hmore' : more (scanPlaces more enter d.bytes (clusterPlaces v start) seen).2 with
        | false => exact ⟨1,Or.inr hmore'⟩
        | true =>
          rw [scanChain_on hstop hmore hmore'] at hscan
          obtain ⟨n,hn⟩ := ih _ _ _ hscan
          refine ⟨n+1,?_⟩
          rw [Function.iterate_succ_apply,gathered]
          rwa [show k+(v.sectorsPerCluster+1)+n*(v.sectorsPerCluster+1)=
            k+(n+1)*(v.sectorsPerCluster+1) by ring] at hn
  · rintro ⟨n,hn⟩
    induction n generalizing start k seen with
    | zero =>
      rw [Nat.zero_mul] at hn
      exact ⟨1,scanChain_last (hn.imp id Or.inl) 0⟩
    | succ n ih =>
      by_cases hstop : Halts v d slotEnd k start ∨ more seen=false ∨
          more (scanPlaces more enter d.bytes (clusterPlaces v start) seen).2=false
      · exact ⟨1,scanChain_last hstop 0⟩
      · rw [not_or,not_or,Bool.not_eq_false,Bool.not_eq_false] at hstop
        obtain ⟨hgo,hmore,hmore'⟩ := hstop
        rw [Function.iterate_succ_apply,gathered,show k+(n+1)*(v.sectorsPerCluster+1)=
          k+(v.sectorsPerCluster+1)+n*(v.sectorsPerCluster+1) by ring] at hn
        obtain ⟨rounds,r,hscan⟩ := ih _ _ _ hn
        exact ⟨rounds+1,r,by rw [scanChain_on hgo hmore hmore',hscan]⟩

end

/-- The loop of `list_dir_at` ends exactly when the links lead to a last round. -/
theorem listDirAt_arrives (v : Volume) (d : Disk) (start : ℕ) :
    (∃ rounds r, listDirAt v start rounds d=some r) ↔ Arrives v d slotEnd start := by
  have h := scanChain_halts (fun _ : ℤ×List Shown => true)
    (fun buf a seen => (seen.1+1,seen.2++entryLine buf a))
    (fun seen => (-1,seen.2)) v d start 0 (0,[])
  rw [after_zero] at h
  simpa only [Nat.zero_add,Bool.true_eq_false,or_false,Arrives,listDirAt] using h

/-- What `fat32_match_prefix` has counted after a number of clusters. -/
theorem gathered_count {pre : List UInt8} (hpre : 0∉pre) (maxEntries start n k : ℕ)
    (entries : ℕ → Dirent) :
    (gathered v (fun seen => decide (seen.1 < maxEntries)) (matchEnter pre) m start (k,entries) n).1=
      k+min (∑ i∈Finset.range n,
        (matching m pre (clusterPlaces v ((link v m)^[i] start))).length) (maxEntries-k) := by
  induction n generalizing start k entries with
  | zero =>
    rw [gathered,Finset.range_zero,Finset.sum_empty,Nat.zero_min]
    rfl
  | succ n ih =>
    rw [gathered,scan_matching hpre,ih,Finset.sum_range_succ',List.length_take]
    simp only [Function.iterate_succ_apply,Function.iterate_zero_apply]
    omega

/-- The loop of `fat32_match_prefix` ends exactly when the links lead to a last
round or past enough entries that match. -/
theorem matchPrefix_arrives {pre : List UInt8} (hpre : 0∉pre) (v : Volume) (d : Disk) (start : ℕ)
    (entries : ℕ → Dirent) (maxEntries : ℕ) :
    (∃ rounds r, fat32MatchPrefix v pre start entries maxEntries rounds d=some r) ↔
      ∃ n, Halts v d slotEnd (n*(v.sectorsPerCluster+1)) ((link v d.bytes)^[n] start) ∨
        maxEntries≤∑ i∈Finset.range n,
          (matching d.bytes pre (clusterPlaces v ((link v d.bytes)^[i] start))).length := by
  have h := scanChain_halts (fun seen : ℕ×(ℕ → Dirent) => decide (seen.1 < maxEntries))
    (matchEnter pre) id v d start 0 (0,entries)
  rw [after_zero] at h
  refine h.trans (exists_congr fun n => ?_)
  rw [Nat.zero_add,decide_eq_false_iff_not,gathered_count hpre,Nat.zero_add,Nat.sub_zero]
  refine or_congr Iff.rfl ?_
  omega

end OvsbMk.FatHalts
