import OvsbMk.FatLookups

/-!
# Transfers and releases end

Nothing is supposed of the table: its links may form any graph. Reading and
writing end because bytes run out, freeing because every round zeroes a link.
-/

namespace OvsbMk.FatEndings

open ByteMemory BlockDisk Fat32 Chains FatTable FatData FatFiles FatScans

variable {v : Volume} {m m' : Bytes} {d : Disk} {c start : ℕ} {buffer : Bytes}

/-- Clusters are not empty. -/
theorem bytes_pos (hv : 0<v.sectorsPerCluster) : 0<clusterBytes v :=
  Nat.mul_pos hv (by norm_num)

/-- Reading ends when there are as many rounds as bytes left to read. -/
theorem readChain_ends (hv : 0<v.sectorsPerCluster) (size : ℕ) {fuel offset : ℕ}
    (hfuel : size-offset≤fuel) (cluster : ℕ) (buffer : Bytes) (d : Disk) :
    ∃ r, readChain v size fuel cluster offset buffer d=some r := by
  induction fuel generalizing cluster offset buffer d with
  | zero => exact ⟨_,readChain_stop (by omega)⟩
  | succ fuel ih =>
    rw [readChain]
    by_cases hmore : 2≤cluster ∧ cluster<endOfChain ∧ offset<size
    · rw [if_pos hmore]
      dsimp only
      have hpos := bytes_pos hv
      split
      · exact ⟨_,rfl⟩
      · split
        · exact ⟨_,rfl⟩
        · exact ih (by omega) _ _ _
    · rw [if_neg hmore]
      exact ⟨_,rfl⟩

/-- Writing ends when there are as many rounds as bytes left to write. -/
theorem writeChain_ends (hv : 0<v.sectorsPerCluster) (buffer : Bytes) {fuel size : ℕ}
    (hfuel : size≤fuel) (cluster offset : ℕ) (d : Disk) :
    ∃ r, writeChain v buffer fuel cluster offset size d=some r := by
  induction fuel generalizing cluster offset size d with
  | zero =>
    obtain rfl : size=0 := by omega
    exact ⟨_,writeChain_zero⟩
  | succ fuel ih =>
    rw [writeChain]
    by_cases hmore : 0<size
    · rw [if_pos hmore]
      dsimp only
      have hpos := bytes_pos hv
      split
      · exact ⟨_,rfl⟩
      · split
        · exact ⟨_,rfl⟩
        · split
          · split
            · exact ⟨_,rfl⟩
            · exact ih (by omega) _ _ _
          · exact ⟨_,rfl⟩
    · rw [if_neg hmore]
      exact ⟨_,rfl⟩

/-- The links of the clusters of a set are zero, their upper bits and all other
bytes as before. -/
structure Freed (v : Volume) (m : Bytes) (R : ℕ → Prop) (m' : Bytes) : Prop where
  /-- The links. -/
  links : ∀ c, R c → load32 m' (linkAddr v c)=load32 m (linkAddr v c)/2^28*2^28
  /-- The other bytes. -/
  frame : ∀ a, (∀ c, R c → ¬LinkByte v c a) → m' a=m a

/-- One link written. -/
theorem freed_single (v : Volume) (m : Bytes) (c : ℕ) :
    Freed v m (· = c) (setLink v m c 0) where
  links := by
    rintro x rfl
    have h := load32_lt m (linkAddr v x)
    rw [setLink,load32_store32_same (by omega)]
    omega
  frame a ha := setLink_outside (ha c rfl)

/-- A link depends on its bytes. -/
theorem load_link_congr (h : ∀ a, LinkByte v c a → m' a=m a) :
    load32 m' (linkAddr v c)=load32 m (linkAddr v c) :=
  loadBytes_congr fun a h1 h2 => h a ⟨h1,h2⟩

/-- A link outside the freed ones keeps its word. -/
theorem Freed.load_other {R : ℕ → Prop} (h : Freed v m R m') (hc : ¬R c) :
    load32 m' (linkAddr v c)=load32 m (linkAddr v c) := by
  refine load_link_congr fun a ha => h.frame a fun x hx => ?_
  have hne : c≠x := by
    rintro rfl
    exact hc hx
  exact link_disjoint hne ha

/-- Links freed after others. -/
theorem Freed.trans {m'' : Bytes} {R R' : ℕ → Prop} (h : Freed v m R m') (h' : Freed v m' R' m'') :
    Freed v m (fun c => R c ∨ R' c) m'' where
  links := by
    intro c hc
    by_cases hc' : R' c
    · rw [h'.links c hc']
      by_cases hr : R c
      · rw [h.links c hr]
        omega
      · rw [h.load_other hr]
    · rw [h'.load_other hc']
      exact h.links c (hc.resolve_right hc')
  frame a ha := (h'.frame a fun c hc => ha c (Or.inr hc)).trans
    (h.frame a fun c hc => ha c (Or.inl hc))

/-- Freed links are zero. -/
theorem Freed.link_zero {R : ℕ → Prop} (h : Freed v m R m') (hc : R c) : link v m' c=0 := by
  rw [link,h.links c hc]
  omega

/-- The clusters with a link, as far as their numbers can occur in a chain. -/
def linked (v : Volume) (m : Bytes) : Finset ℕ :=
  (Finset.range endOfChain).filter fun c => link v m c≠0

/-- A zeroed link is one less. -/
theorem linked_setLink (hc : c<endOfChain) (hlink : link v m c≠0) :
    (linked v (setLink v m c 0)).card<(linked v m).card := by
  refine Finset.card_lt_card (Finset.ssubset_iff_subset_ne.mpr ⟨fun x hx => ?_,fun heq => ?_⟩)
  · obtain ⟨h1,h2⟩ := Finset.mem_filter.mp hx
    refine Finset.mem_filter.mpr ⟨h1,?_⟩
    by_cases hxc : x=c
    · rw [hxc]
      exact hlink
    · rwa [link_setLink_other hxc] at h2
  · have hin : c∈linked v m := Finset.mem_filter.mpr ⟨Finset.mem_range.mpr hc,hlink⟩
    rw [← heq] at hin
    exact (Finset.mem_filter.mp hin).2 link_setLink_same

/-- Zeroing a link adds none. -/
theorem linked_setLink_le (v : Volume) (m : Bytes) (c : ℕ) :
    (linked v (setLink v m c 0)).card≤(linked v m).card := by
  refine Finset.card_le_card fun x hx => ?_
  obtain ⟨h1,h2⟩ := Finset.mem_filter.mp hx
  refine Finset.mem_filter.mpr ⟨h1,fun h => h2 ?_⟩
  by_cases hxc : x=c
  · rw [hxc,link_setLink_same]
    rfl
  · rw [link_setLink_other hxc,h]

/-- Freeing ends when there are more rounds than links, and frees the clusters
within reach. The number of the first cluster counts modulo `2^30`, as its place
in the table does. -/
theorem freeChain_freed (hd : Faultless d) {fuel cl : ℕ}
    (hfuel : (linked v d.bytes).card+2≤fuel ∨
      cl<endOfChain ∧ (linked v d.bytes).card+1≤fuel) :
    ∃ m', freeChain v fuel cl d=some (d.with m') ∧
      Freed v d.bytes (Reaches (link v d.bytes) Ends (cl%2^30)) m' := by
  induction fuel generalizing cl d with
  | zero => omega
  | succ fuel ih =>
    rw [freeChain,readEntry_faultless hd,writeEntry_faultless hd]
    have hreach : ∀ x, Reaches (link v d.bytes) Ends (cl%2^30) x ↔ _ := fun x =>
      reaches_update (show Ends 0 by simp [Ends])
    have hone := freed_single v d.bytes (cl%2^30)
    have hupdate := @link_setLink v d.bytes (cl%2^30) 0 (by norm_num)
    dsimp only
    by_cases hnext : 2≤link v d.bytes (cl%2^30) ∧ link v d.bytes (cl%2^30)<endOfChain
    · have hends : ¬Ends (link v d.bytes (cl%2^30)) := not_not.mpr hnext
      rw [if_pos hnext]
      obtain ⟨m',hfree,hfreed⟩ := @ih _
        (hd.with (setLink v d.bytes (cl%2^30) 0)) (link v d.bytes (cl%2^30)) (Or.inr ⟨hnext.2,by
          rw [with_bytes]
          rcases hfuel with hfuel | ⟨hcl,hfuel⟩
          · have := linked_setLink_le v d.bytes (cl%2^30)
            omega
          · have := linked_setLink (v:=v) (m:=d.bytes) (c:=cl%2^30)
              ((Nat.mod_le _ _).trans_lt hcl) (by omega)
            omega⟩)
      rw [with_bytes,mod_of_not_ends hends,hupdate] at hfreed
      refine ⟨m',hfree,?_⟩
      have htrans := hone.trans hfreed
      have hsame : (fun x => x=cl%2^30 ∨ Reaches (Function.update (link v d.bytes) (cl%2^30) 0)
          Ends (link v d.bytes (cl%2^30)) x)=Reaches (link v d.bytes) Ends (cl%2^30) := by
        funext x
        refine propext (Iff.trans ?_ (hreach x).symm)
        exact or_congr Iff.rfl ⟨fun h => ⟨hends,h⟩,fun h => h.2⟩
      rwa [hsame] at htrans
    · have hends : Ends (link v d.bytes (cl%2^30)) := hnext
      rw [if_neg hnext]
      refine ⟨setLink v d.bytes (cl%2^30) 0,rfl,?_⟩
      have hsame : (· = cl%2^30)=Reaches (link v d.bytes) Ends (cl%2^30) := by
        funext x
        refine propext (Iff.trans ?_ (hreach x).symm)
        exact ⟨Or.inl,fun h => h.elim id fun h => (h.1 hends).elim⟩
      rwa [hsame] at hone

/-- The rounds of the model are enough for any table. -/
theorem freeChain_ends (hd : Faultless d) (v : Volume) (cl : ℕ) :
    ∃ m', freeChain v chainRounds cl d=some (d.with m') ∧
      Freed v d.bytes (Reaches (link v d.bytes) Ends (cl%2^30)) m' := by
  refine freeChain_freed hd (Or.inl ?_)
  have hle : (linked v d.bytes).card≤endOfChain :=
    (Finset.card_filter_le _ _).trans_eq (Finset.card_range _)
  exact (Nat.add_le_add_right hle 2).trans (by norm_num)

/-- Whatever the table, reading and writing end, and so does freeing, after it has
zeroed the links of exactly the clusters within reach of the start. -/
theorem transfers_end (hd : Faultless d) (hv : 0<v.sectorsPerCluster) (start size : ℕ)
    (hsize : size<2^32) (buffer : Bytes) :
    (∃ r, readChain v size transferRounds start 0 buffer d=some r) ∧
      (∃ r, writeChain v buffer transferRounds start 0 size d=some r) ∧
      ∃ m', freeChain v chainRounds start d=some (d.with m') ∧
        Freed v d.bytes (Reaches (link v d.bytes) Ends (start%2^30)) m' :=
  ⟨readChain_ends hv size hsize.le start buffer d,writeChain_ends hv buffer hsize.le start 0 d,
    freeChain_ends hd v start⟩

/-- A disk with two clusters that lead to each other. -/
def ringDisk : Disk := ⟨storeBytes (storeBytes (fun _ => 0) 520 4 3) 524 4 2,fun _ _ _ => false⟩

/-- Transfers along the ring end, and freeing it zeroes both links. -/
theorem ringDisk_transfers :
    (∃ r, readChain sampleVolume 5000 transferRounds 2 0 (fun _ => 0) ringDisk=some r) ∧
      (∃ r, writeChain sampleVolume (fun _ => 0) transferRounds 2 0 5000 ringDisk=some r) ∧
      ∃ m', freeChain sampleVolume chainRounds 2 ringDisk=some (ringDisk.with m') ∧
        link sampleVolume m' 2=0 ∧ link sampleVolume m' 3=0 := by
  obtain ⟨hread,hwrite,m',hfree,hfreed⟩ := @transfers_end sampleVolume ringDisk
    (show Faultless ringDisk from rfl) (by decide) 2 5000 (by norm_num) fun _ => 0
  have hnext : link sampleVolume ringDisk.bytes 2=3 := by decide +kernel
  have htwo : Reaches (link sampleVolume ringDisk.bytes) Ends 2 2 := Relation.ReflTransGen.refl
  have hthree : Reaches (link sampleVolume ringDisk.bytes) Ends 2 3 :=
    htwo.tail ⟨hnext,by norm_num [Ends]⟩
  exact ⟨hread,hwrite,m',hfree,hfreed.link_zero htwo,hfreed.link_zero hthree⟩

end OvsbMk.FatEndings
