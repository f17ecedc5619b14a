import OvsbMk.BuddyOperations
import OvsbMk.Chains

/-!
# One slab page

A slab page is a header followed by object slots of one size. The invariant of
a page ties the header to the live objects: the free list that starts in the
header visits exactly the slots without a live object, and the counters are
the numbers of live objects and of slots. Taking the first free object,
returning an object and carving a fresh page keep or establish it.
-/

namespace OvsbMk.SlabPages

open ByteMemory IntrusiveList KernelMemory Chains

/-- Object size of a cache. -/
def cacheSize (c : ℕ) : ℕ := cacheSizes.getD c 0

/-- Number of object slots in a page of a cache. -/
def slotCount (c : ℕ) : ℕ := (frameSize-slabHeader)/cacheSize c

/-- Address of one object slot. -/
def slotAddr (c s j : ℕ) : ℕ := s+slabHeader+cacheSize c*j

/-- All object slots of a page. -/
def slots (c s : ℕ) : List ℕ := (List.range (slotCount c)).map (slotAddr c s)

/-- Requested size of every live object, by address. -/
abbrev ObjectMap := ℕ → Option ℕ

/-- Slots without a live object. -/
def freeSlots (objs : ObjectMap) (c s : ℕ) : List ℕ := (slots c s).filter fun p => (objs p).isNone

/-- Slots with a live object. -/
def liveSlots (objs : ObjectMap) (c s : ℕ) : List ℕ := (slots c s).filter fun p => (objs p).isSome

/-- Object sizes are between 16 and 2048 bytes. -/
theorem cacheSize_bounds {c : ℕ} (hc : c<cacheCount) : 16≤cacheSize c ∧ cacheSize c≤2048 := by
  simp only [cacheCount] at hc
  interval_cases c <;> decide

/-- Every page has a slot, and few enough for its 16-bit counter. -/
theorem slotCount_bounds {c : ℕ} (hc : c<cacheCount) : 0<slotCount c ∧ slotCount c<2^16 := by
  simp only [cacheCount] at hc
  interval_cases c <;> decide

/-- The slots of a page, by number. -/
theorem mem_slots {c s p : ℕ} : p∈slots c s ↔ ∃ j, j<slotCount c ∧ p=slotAddr c s j := by
  simp only [slots,List.mem_map,List.mem_range]
  constructor
  · rintro ⟨j,hj,rfl⟩
    exact ⟨j,hj,rfl⟩
  · rintro ⟨j,hj,rfl⟩
    exact ⟨j,hj,rfl⟩

/-- Numbered slots end inside the page. -/
theorem slotAddr_le {c s j : ℕ} (hj : j<slotCount c) :
    slotAddr c s j+cacheSize c ≤ s+frameSize := by
  have h1 : cacheSize c*(j+1)≤cacheSize c*slotCount c := Nat.mul_le_mul_left _ hj
  have h2 : cacheSize c*slotCount c≤frameSize-slabHeader := Nat.mul_div_le _ _
  have h3 : cacheSize c*(j+1)=cacheSize c*j+cacheSize c := Nat.mul_succ _ _
  simp only [slotAddr,frameSize,slabHeader] at *
  omega

/-- Slots lie between the header and the end of the page. -/
theorem slot_bounds {c s p : ℕ} (hp : p∈slots c s) :
    s+slabHeader≤p ∧ p+cacheSize c ≤ s+frameSize := by
  obtain ⟨j,hj,rfl⟩ := mem_slots.mp hp
  refine ⟨?_,slotAddr_le hj⟩
  simp only [slotAddr]
  omega

/-- Different slot numbers are disjoint ranges. -/
theorem slotAddr_apart {c s j l : ℕ} (h : j<l) :
    slotAddr c s j+cacheSize c ≤ slotAddr c s l := by
  have h1 : cacheSize c*(j+1)≤cacheSize c*l := Nat.mul_le_mul_left _ h
  have h2 : cacheSize c*(j+1)=cacheSize c*j+cacheSize c := Nat.mul_succ _ _
  simp only [slotAddr]
  omega

/-- Different slots are disjoint ranges. -/
theorem slots_apart {c s p q : ℕ} (hp : p∈slots c s) (hq : q∈slots c s) (hne : p≠q) :
    Apart p (cacheSize c) q (cacheSize c) := by
  obtain ⟨j,_,rfl⟩ := mem_slots.mp hp
  obtain ⟨l,_,rfl⟩ := mem_slots.mp hq
  rcases Nat.lt_trichotomy j l with h | rfl | h
  · exact Or.inl (slotAddr_apart h)
  · exact (hne rfl).elim
  · exact Or.inr (slotAddr_apart h)

/-- No slot is listed twice. -/
theorem slots_nodup {c : ℕ} (hc : c<cacheCount) (s : ℕ) : (slots c s).Nodup := by
  refine List.nodup_range.map ?_
  intro j l h
  have hsize := (cacheSize_bounds hc).1
  rcases Nat.lt_trichotomy j l with hlt | heq | hlt
  · have := slotAddr_apart (c:=c) (s:=s) hlt
    omega
  · exact heq
  · have := slotAddr_apart (c:=c) (s:=s) hlt
    omega

/-- Every slot is either free or live. -/
theorem live_add_free (objs : ObjectMap) (c s : ℕ) :
    (liveSlots objs c s).length+(freeSlots objs c s).length=slotCount c := by
  have h := List.length_eq_length_filter_add (l:=slots c s) fun p => (objs p).isSome
  have hlen : (slots c s).length=slotCount c := by simp [slots]
  have hneg : (fun p => !(objs p).isSome)=fun p => (objs p).isNone := by
    funext p
    cases objs p <;> rfl
  rw [hlen,hneg] at h
  exact h.symm

/-- A slot without a live object. -/
theorem mem_freeSlots {objs : ObjectMap} {c s p : ℕ} :
    p∈freeSlots objs c s ↔ p∈slots c s ∧ objs p=none := by
  simp [freeSlots]

/-- A slot with a live object. -/
theorem mem_liveSlots {objs : ObjectMap} {c s p : ℕ} :
    p∈liveSlots objs c s ↔ p∈slots c s ∧ ∃ n, objs p=some n := by
  simp [liveSlots,Option.isSome_iff_exists]

/-- A new live object takes its slot out of the free ones. -/
theorem freeSlots_update (objs : ObjectMap) {c p n : ℕ} (hc : c<cacheCount) (s : ℕ) :
    freeSlots (Function.update objs p (some n)) c s=(freeSlots objs c s).erase p := by
  have hnd : (freeSlots objs c s).Nodup := (slots_nodup hc s).filter _
  rw [hnd.erase_eq_filter,freeSlots,freeSlots,List.filter_filter]
  refine List.filter_congr fun q _ => ?_
  by_cases hq : q=p
  · simp [hq]
  · simp [hq]

/-- Changes elsewhere do not move slots between free and live. -/
theorem freeSlots_congr {objs objs' : ObjectMap} {c s : ℕ}
    (h : ∀ p∈slots c s, (objs' p).isNone=(objs p).isNone) :
    freeSlots objs' c s=freeSlots objs c s :=
  List.filter_congr h

/-- The header of a slab page describes its live objects. -/
structure SlabPage (L : Layout) (m : Bytes) (objs : ObjectMap) (c s : ℕ) : Prop where
  /-- The page is marked as a slab. -/
  magic : load32 m s=slabMagic
  /-- The use counter is the number of live objects. -/
  inUse : load32 m (s+4)=(liveSlots objs c s).length
  /-- The slot counter. -/
  total : loadBytes m (s+8) 2=slotCount c
  /-- The page knows its cache. -/
  cache : load64 m (s+40)=cacheAddr L c
  /-- The free list visits exactly the slots without a live object. -/
  free : ∃ nodes, Chain (load64 m) (fun x => x=0) (load64 m (s+16)) nodes ∧
    nodes.Perm (freeSlots objs c s)

variable {L : Layout} {m m' : Bytes} {objs objs' : ObjectMap} {c s p n : ℕ}

/-- The page depends on its header and on the first words of its free slots. -/
theorem SlabPage.transport (h : SlabPage L m objs c s)
    (hheader : ∀ a, s≤a → a<s+24 ∨ s+40≤a → a<s+slabHeader → m' a=m a)
    (hfree : ∀ x∈freeSlots objs c s, ∀ a, x≤a → a<x+8 → m' a=m a)
    (hobjs : ∀ p∈slots c s, (objs' p).isNone=(objs p).isNone) : SlabPage L m' objs' c s := by
  have hword : ∀ (b n : ℕ), s≤b → b+n ≤ s+24 ∨ s+40≤b → b+n ≤ s+slabHeader →
      loadBytes m' b n=loadBytes m b n := by
    intro b n h1 h2 h3
    refine loadBytes_congr fun a ha1 ha2 => hheader a (by omega) (by omega) (by omega)
  have hsame := freeSlots_congr hobjs
  have hlive : (liveSlots objs' c s).length=(liveSlots objs c s).length := by
    have h1 := live_add_free objs c s
    have h2 := live_add_free objs' c s
    rw [hsame] at h2
    omega
  obtain ⟨nodes,hchain,hperm⟩ := h.free
  refine ⟨?_,?_,?_,?_,nodes,?_,by rwa [hsame]⟩
  · exact (hword s 4 (by omega) (by omega) (by simp only [slabHeader]; omega)).trans h.magic
  · rw [hlive]
    exact (hword (s+4) 4 (by omega) (by omega) (by simp only [slabHeader]; omega)).trans h.inUse
  · exact (hword (s+8) 2 (by omega) (by omega) (by simp only [slabHeader]; omega)).trans h.total
  · exact (hword (s+40) 8 (by omega) (by omega) (by simp only [slabHeader]; omega)).trans h.cache
  · have hhead : load64 m' (s+16)=load64 m (s+16) :=
      hword (s+16) 8 (by omega) (by omega) (by simp only [slabHeader]; omega)
    rw [hhead]
    refine hchain.congr fun x hx => ?_
    exact load64_congr (hfree x (hperm.mem_iff.mp hx))

/-- Live counts stay far below the width of the use counter. -/
theorem liveSlots_lt (hc : c<cacheCount) (objs : ObjectMap) (s : ℕ) :
    (liveSlots objs c s).length<2^16 := by
  have h1 := live_add_free objs c s
  have h2 := (slotCount_bounds hc).2
  omega

/-- Taking an object writes the use counter and the free list head only. -/
theorem popObject_frame {v a : ℕ} (h4 : a<s+4 ∨ s+8≤a) (h16 : a<s+16 ∨ s+24≤a) :
    store32 (popObject m s).2 (s+4) v a=m a := by
  unfold store32 popObject
  rw [storeBytes_outside (by omega)]
  exact store64_outside (by omega)

/-- Taking the first free object of a page and counting it. -/
theorem SlabPage.pop (h : SlabPage L m objs c s) (hc : c<cacheCount)
    (hne : load64 m (s+16)≠0) (n : ℕ) :
    load64 m (s+16)∈freeSlots objs c s ∧
      SlabPage L (store32 (popObject m s).2 (s+4) ((liveSlots objs c s).length+1))
        (Function.update objs (load64 m (s+16)) (some n)) c s ∧
      (liveSlots (Function.update objs (load64 m (s+16)) (some n)) c s).length=
        (liveSlots objs c s).length+1 := by
  obtain ⟨nodes,hchain,hperm⟩ := h.free
  cases nodes with
  | nil =>
    have hzero := chain_nil.mp hchain
    exact (hne hzero).elim
  | cons x rest =>
    obtain ⟨hx,_,hrest⟩ := chain_cons.mp hchain
    rw [hx]
    obtain ⟨hmem,hperm'⟩ := List.cons_perm_iff_perm_erase.mp hperm
    have hfree := freeSlots_update objs (p:=x) (n:=n) hc s
    have hlive : (liveSlots (Function.update objs x (some n)) c s).length=
        (liveSlots objs c s).length+1 := by
      have h1 := live_add_free objs c s
      have h2 := live_add_free (Function.update objs x (some n)) c s
      have h3 := List.length_erase_of_mem hmem
      have h4 := List.length_pos_of_mem hmem
      rw [hfree] at h2
      omega
    have hlt := liveSlots_lt hc objs s
    have hkeep : ∀ (b k : ℕ), b+k ≤ s+4 ∨ s+8≤b → b+k ≤ s+16 ∨ s+24≤b →
        loadBytes (store32 (popObject m s).2 (s+4) ((liveSlots objs c s).length+1)) b k=
          loadBytes m b k := by
      intro b k h1 h2
      exact loadBytes_congr fun a ha1 ha2 => popObject_frame (by omega) (by omega)
    have hword : ∀ y∈freeSlots objs c s,
        load64 (store32 (popObject m s).2 (s+4) ((liveSlots objs c s).length+1)) y=load64 m y := by
      intro y hy
      have := (slot_bounds (mem_freeSlots.mp hy).1).1
      simp only [slabHeader] at this
      exact hkeep y 8 (by omega) (by omega)
    refine ⟨hmem,⟨?_,?_,?_,?_,rest,?_,?_⟩,hlive⟩
    · exact (hkeep s 4 (by omega) (by omega)).trans h.magic
    · rw [hlive]
      exact load32_store32_same (by omega)
    · exact (hkeep (s+8) 2 (by omega) (by omega)).trans h.total
    · exact (hkeep (s+40) 8 (by omega) (by omega)).trans h.cache
    · have hhead : load64 (store32 (popObject m s).2 (s+4) ((liveSlots objs c s).length+1))
          (s+16)=load64 m x := by
        have h1 : load64 (store32 (popObject m s).2 (s+4) ((liveSlots objs c s).length+1)) (s+16)=
            load64 (popObject m s).2 (s+16) :=
          load64_congr fun a ha1 ha2 => storeBytes_outside (by omega)
        rw [h1,popObject,hx]
        exact load64_store64_same (load64_lt m x)
      rw [hhead]
      refine hrest.congr fun y hy => hword y ?_
      exact List.mem_of_mem_erase (hperm'.mem_iff.mp hy)
    · rw [hfree]
      exact hperm'

/-- Put an object in front of its page's free list and count it as returned. -/
def pushObject (m : Bytes) (s ptr : ℕ) : Bytes :=
  let m1 := store64 m ptr (load64 m (s+16))
  let m2 := store64 m1 (s+16) ptr
  store32 m2 (s+4) ((load32 m2 (s+4)+2^32-1)%2^32)

/-- Returning an object writes the object, the use counter and the free list
head only. -/
theorem pushObject_frame {a : ℕ} (hptr : a<p ∨ p+8≤a) (h4 : a<s+4 ∨ s+8≤a)
    (h16 : a<s+16 ∨ s+24≤a) : pushObject m s p a=m a := by
  simp only [pushObject,store32]
  rw [storeBytes_outside (by omega),store64_outside (by omega),store64_outside (by omega)]

/-- Returning a live object makes its slot free again. -/
theorem SlabPage.push (h : SlabPage L m objs c s) (hc : c<cacheCount) (hbound : s+frameSize≤2^64)
    (hs : p∈slots c s) (hp : objs p=some n) :
    SlabPage L (pushObject m s p) (Function.update objs p none) c s ∧
      (liveSlots objs c s).length=(liveSlots (Function.update objs p none) c s).length+1 := by
  obtain ⟨nodes,hchain,hperm⟩ := h.free
  obtain ⟨hlow,hhigh⟩ := slot_bounds hs
  have hsize := (cacheSize_bounds hc).1
  simp only [slabHeader,frameSize] at hlow hhigh hbound
  have hback : objs=Function.update (Function.update objs p none) p (some n) := by
    rw [Function.update_idem,← hp,Function.update_eq_self]
  have hfree : freeSlots objs c s=(freeSlots (Function.update objs p none) c s).erase p := by
    have := freeSlots_update (Function.update objs p none) (p:=p) (n:=n) hc s
    rwa [← hback] at this
  have hmem : p∈freeSlots (Function.update objs p none) c s :=
    mem_freeSlots.mpr ⟨hs,by simp⟩
  have hlive : (liveSlots objs c s).length=
      (liveSlots (Function.update objs p none) c s).length+1 := by
    have h1 := live_add_free objs c s
    have h2 := live_add_free (Function.update objs p none) c s
    have h3 := List.length_erase_of_mem hmem
    have h4 := List.length_pos_of_mem hmem
    rw [hfree] at h1
    omega
  have hlt := liveSlots_lt hc objs s
  have hkeep : ∀ (b k : ℕ), b+k≤p ∨ p+8≤b → b+k ≤ s+4 ∨ s+8≤b → b+k ≤ s+16 ∨ s+24≤b →
      loadBytes (pushObject m s p) b k=loadBytes m b k := by
    intro b k h1 h2 h3
    exact loadBytes_congr fun a ha1 ha2 => pushObject_frame (by omega) (by omega) (by omega)
  have hhead : load64 (pushObject m s p) (s+16)=p := by
    have h1 : load64 (pushObject m s p) (s+16)=
        load64 (store64 (store64 m p (load64 m (s+16))) (s+16) p) (s+16) :=
      load64_congr fun a ha1 ha2 => storeBytes_outside (by omega)
    rw [h1]
    exact load64_store64_same (by omega)
  have hlink : load64 (pushObject m s p) p=load64 m (s+16) := by
    have h1 : load64 (pushObject m s p) p=load64 (store64 m p (load64 m (s+16))) p := by
      refine load64_congr fun a ha1 ha2 => ?_
      simp only [pushObject,store32]
      rw [storeBytes_outside (by omega),store64_outside (by omega)]
    rw [h1]
    exact load64_store64_same (load64_lt m (s+16))
  have hcount : load32 (store64 (store64 m p (load64 m (s+16))) (s+16) p) (s+4)=
      (liveSlots objs c s).length := by
    rw [← h.inUse]
    refine loadBytes_congr fun a ha1 ha2 => ?_
    rw [store64_outside (by omega),store64_outside (by omega)]
  refine ⟨⟨?_,?_,?_,?_,p::nodes,?_,?_⟩,hlive⟩
  · exact (hkeep s 4 (by omega) (by omega) (by omega)).trans h.magic
  · simp only [pushObject]
    rw [hcount,load32_store32_same (Nat.mod_lt _ (by norm_num))]
    omega
  · exact (hkeep (s+8) 2 (by omega) (by omega) (by omega)).trans h.total
  · exact (hkeep (s+40) 8 (by omega) (by omega) (by omega)).trans h.cache
  · refine chain_cons.mpr ⟨hhead,by omega,?_⟩
    rw [hlink]
    refine hchain.congr fun x hx => ?_
    obtain ⟨hxs,hxn⟩ := mem_freeSlots.mp (hperm.mem_iff.mp hx)
    have hne : x≠p := by
      rintro rfl
      rw [hp] at hxn
      cases hxn
    have hap := slots_apart hxs hs hne
    have hx1 := (slot_bounds hxs).1
    simp only [Apart,slabHeader] at hap hx1
    exact hkeep x 8 (by omega) (by omega) (by omega)
  · refine List.cons_perm_iff_perm_erase.mpr ⟨hmem,?_⟩
    rwa [← hfree]

/-- The free list after carving the first slots: the last one comes first. -/
def carvedSlots (c s j : ℕ) : List ℕ := ((List.range j).map (slotAddr c s)).reverse

/-- Carving one more slot puts it in front. -/
theorem carvedSlots_succ (c s j : ℕ) :
    carvedSlots c s (j+1)=slotAddr c s j::carvedSlots c s j := by
  simp [carvedSlots,List.range_succ]

/-- The carving loop threads every remaining slot onto the free list and
writes inside slots only. -/
theorem carveSlab_spec {j : ℕ} (hc : c<cacheCount) (hbound : s+frameSize≤2^64)
    (fuel : ℕ) (hj : j ≤ slotCount c) (hfuel : slotCount c≤j+fuel) {head : ℕ}
    (hchain : Chain (load64 m) (fun x => x=0) head (carvedSlots c s j)) (hhead : head<2^64) :
    ∃ head' m', carveSlab (cacheSize c) (s+frameSize) fuel (slotAddr c s j) head j m=
        (head',slotCount c,m') ∧ head'<2^64 ∧
      Chain (load64 m') (fun x => x=0) head' (carvedSlots c s (slotCount c)) ∧
      ∀ a, a<s+slabHeader ∨ s+frameSize≤a → m' a=m a := by
  have hsize := (cacheSize_bounds hc).1
  have hstop : ∀ {j}, j=slotCount c → ¬slotAddr c s j+cacheSize c ≤ s+frameSize := by
    rintro j rfl hle
    have hdiv := Nat.lt_mul_div_succ (frameSize-slabHeader) (show 0<cacheSize c by omega)
    have hsucc : cacheSize c*(slotCount c+1)=cacheSize c*slotCount c+cacheSize c :=
      Nat.mul_succ _ _
    have hdiv' : frameSize-slabHeader<cacheSize c*(slotCount c+1) := hdiv
    simp only [slotAddr,frameSize,slabHeader] at hle hdiv'
    omega
  induction fuel generalizing j m head with
  | zero =>
    obtain rfl : j=slotCount c := by omega
    exact ⟨head,m,rfl,hhead,hchain,fun _ _ => rfl⟩
  | succ fuel ih =>
    rw [carveSlab]
    by_cases hlast : j=slotCount c
    · rw [if_neg (hstop hlast)]
      subst hlast
      exact ⟨head,m,rfl,hhead,hchain,fun _ _ => rfl⟩
    · have hlt : j<slotCount c := by omega
      have hroom := slotAddr_le (s:=s) hlt
      rw [if_pos hroom]
      have hnext : slotAddr c s j+cacheSize c=slotAddr c s (j+1) := by
        simp only [slotAddr,Nat.mul_succ]
        omega
      have hpos : s+slabHeader ≤ slotAddr c s j := by
        simp only [slotAddr]
        omega
      simp only [slabHeader,frameSize] at hroom hbound hpos
      have hchain' : Chain (load64 (store64 m (slotAddr c s j) head)) (fun x => x=0)
          (slotAddr c s j) (carvedSlots c s (j+1)) := by
        rw [carvedSlots_succ]
        refine chain_cons.mpr ⟨rfl,by omega,?_⟩
        rw [load64_store64_same hhead]
        refine hchain.congr fun x hx => load64_store64_disjoint ?_
        simp only [carvedSlots,List.mem_reverse,List.mem_map,List.mem_range] at hx
        obtain ⟨l,hl,rfl⟩ := hx
        have := slotAddr_apart (c:=c) (s:=s) hl
        omega
      obtain ⟨head',m',heq,hlt',hch,hframe⟩ :=
        ih (by omega) (by omega) hchain' (by omega)
      rw [hnext]
      refine ⟨head',m',heq,hlt',hch,fun a ha => ?_⟩
      rw [hframe a ha]
      refine store64_outside ?_
      simp only [slabHeader,frameSize] at ha
      omega

/-- Carve a page whose header is filled in, and store the list head and the
number of slots. -/
def carvePage (m : Bytes) (cache s : ℕ) : Bytes :=
  let (head,count,m9) := carveSlab (load64 m cache) (s+frameSize) frameSize (s+slabHeader) 0 0 m
  storeBytes (store64 m9 (s+16) head) (s+8) 2 count

/-- A carved page is a slab page without live objects, and has a free one. -/
theorem carvePage_spec (hc : c<cacheCount) (hbound : s+frameSize≤2^64)
    (hmagic : load32 m s=slabMagic) (hinUse : load32 m (s+4)=0)
    (hcache : load64 m (s+40)=cacheAddr L c) (hsize : load64 m (cacheAddr L c)=cacheSize c)
    (hobjs : ∀ p∈slots c s, objs p=none) :
    SlabPage L (carvePage m (cacheAddr L c) s) objs c s ∧
      (liveSlots objs c s).length=0 ∧ load64 (carvePage m (cacheAddr L c) s) (s+16)≠0 ∧
      ∀ a, a<s+8 ∨ s+24≤a → a<s+slabHeader ∨ s+frameSize≤a →
        carvePage m (cacheAddr L c) s a=m a := by
  have hcount := slotCount_bounds hc
  have hminsize := (cacheSize_bounds hc).1
  have hfuel : slotCount c≤0+frameSize := by
    have : slotCount c≤frameSize-slabHeader := Nat.div_le_self _ _
    omega
  have hstart : s+slabHeader=slotAddr c s 0 := by simp [slotAddr]
  obtain ⟨head,m9,hcarve,hhead,hchain,hframe⟩ := carveSlab_spec (m:=m) (s:=s) (j:=0) hc hbound
    frameSize (Nat.zero_le _) hfuel (chain_nil.mpr (rfl : 0=0)) (by norm_num)
  have hpage : carvePage m (cacheAddr L c) s=
      storeBytes (store64 m9 (s+16) head) (s+8) 2 (slotCount c) := by
    rw [carvePage,hsize,hstart,hcarve]
  have hall : freeSlots objs c s=slots c s := by
    refine List.filter_eq_self.mpr fun p hp => ?_
    simp [hobjs p hp]
  have hnone : (liveSlots objs c s).length=0 := by
    have h1 := live_add_free objs c s
    have h2 : (slots c s).length=slotCount c := by simp [slots]
    rw [hall] at h1
    omega
  have hkeep : ∀ a, a<s+8 ∨ s+24≤a → a<s+slabHeader ∨ s+frameSize≤a →
      carvePage m (cacheAddr L c) s a=m a := by
    intro a h1 h2
    rw [hpage,storeBytes_outside (by omega),store64_outside (by omega)]
    exact hframe a h2
  have hload : ∀ b k, b+k ≤ s+8 ∨ s+24≤b → b+k ≤ s+slabHeader →
      loadBytes (carvePage m (cacheAddr L c) s) b k=loadBytes m b k := by
    intro b k h1 h2
    exact loadBytes_congr fun a ha1 ha2 => hkeep a (by omega) (by omega)
  have hfirst : load64 (carvePage m (cacheAddr L c) s) (s+16)=head := by
    rw [hpage]
    exact (load64_congr fun a h1 h2 => storeBytes_outside (by omega)).trans
      (load64_store64_same hhead)
  have hslot : ∀ x∈slots c s, load64 (carvePage m (cacheAddr L c) s) x=load64 m9 x := by
    intro x hx
    have := (slot_bounds hx).1
    simp only [slabHeader] at this
    rw [hpage]
    exact load64_congr fun a h1 h2 => by
      rw [storeBytes_outside (by omega),store64_outside (by omega)]
  have hmem : ∀ x, x∈carvedSlots c s (slotCount c) ↔ x∈slots c s := by
    intro x
    simp [carvedSlots,slots]
  refine ⟨⟨?_,?_,?_,?_,carvedSlots c s (slotCount c),?_,?_⟩,hnone,?_,hkeep⟩
  · exact (hload s 4 (by omega) (by simp only [slabHeader]; omega)).trans hmagic
  · rw [hnone]
    exact (hload (s+4) 4 (by omega) (by simp only [slabHeader]; omega)).trans hinUse
  · rw [hpage,loadBytes_storeBytes_same,Nat.mod_eq_of_lt]
    exact hcount.2.trans_eq (by norm_num)
  · exact (hload (s+40) 8 (by omega) (by simp only [slabHeader]; omega)).trans hcache
  · rw [hfirst]
    exact hchain.congr fun x hx => hslot x ((hmem x).mp hx)
  · rw [hall]
    exact List.reverse_perm _
  · rw [hfirst]
    intro hzero
    have hnil := hchain.stop_iff.mp hzero
    have hlen := congrArg List.length hnil
    simp [carvedSlots] at hlen
    omega

end OvsbMk.SlabPages
