import OvsbMk.BuddyRuns
import OvsbMk.SlabPages

/-!
# The slab layer on top of the page allocator

Each cache keeps a doubly linked list of slab pages, and each page is one live
block of order 0. The invariant of the layer collects the lists, the pages and
the place of every live object; it depends on the cache records and on the
slab pages only, and every change inside one page is a change of that page's
own invariant.
-/

namespace OvsbMk.SlabInvariant

open ByteMemory IntrusiveList KernelMemory Chains BuddyFreeLists BuddyInvariant BuddyOperations
  BuddyRuns SlabPages

/-- First cache from an index on whose objects hold the size. -/
def cacheFrom (size : ℕ) : ℕ → ℕ → Option ℕ
  | 0, _ => none
  | count+1, c => if cacheSize c≥size then some c else cacheFrom size count (c+1)

/-- The cache that serves a request. -/
def cacheFor (n : ℕ) : Option ℕ := cacheFrom (if n<16 then 16 else n) cacheCount 0

/-- Bytes an owner gets for a small request. -/
def objectSize (n : ℕ) : ℕ := ((cacheFor n).map cacheSize).getD 0

/-- The search through the cache records finds the serving cache. -/
theorem findCache_eq {L : Layout} {m : Bytes} {size : ℕ}
    (h : ∀ c, c<cacheCount → load64 m (cacheAddr L c)=cacheSize c) (count : ℕ) {c : ℕ}
    (hc : c+count≤cacheCount) : findCache L m size count c=cacheFrom size count c := by
  induction count generalizing c with
  | zero => rfl
  | succ count ih => rw [findCache,cacheFrom,h c (by omega),ih (by omega)]

/-- A cache found for a size is in range and large enough. -/
theorem cacheFrom_spec {size count c d : ℕ} (h : cacheFrom size count c=some d) :
    d<c+count ∧ size≤cacheSize d := by
  induction count generalizing c with
  | zero => cases h
  | succ count ih =>
    rw [cacheFrom] at h
    split at h
    · next hsize =>
      obtain rfl := Option.some.inj h
      exact ⟨by omega,hsize⟩
    · obtain ⟨h1,h2⟩ := ih h
      exact ⟨by omega,h2⟩

/-- Sizes up to the largest object are found. -/
theorem cacheFrom_isSome {size c count : ℕ} (hsize : size≤2048) (hc : c+count=cacheCount)
    (hpos : 0<count) : ∃ d, cacheFrom size count c=some d := by
  induction count generalizing c with
  | zero => omega
  | succ count ih =>
    rw [cacheFrom]
    split
    · exact ⟨c,rfl⟩
    · next hsmall =>
      rcases Nat.eq_zero_or_pos count with rfl | hcount
      · have hlast : c=7 := by
          simp only [cacheCount] at hc
          omega
        subst hlast
        exact (hsmall hsize).elim
      · exact ih (by omega) hcount

/-- The serving cache of a request. -/
theorem cacheFor_spec {n c : ℕ} (h : cacheFor n=some c) : c<cacheCount ∧ n≤cacheSize c := by
  obtain ⟨h1,h2⟩ := cacheFrom_spec h
  refine ⟨by omega,?_⟩
  split at h2 <;> omega

/-- The slab layer describes the live objects. -/
structure Slabs (L : Layout) (m : Bytes) (live : LiveMap) (slabs : ℕ → List ℕ)
    (objs : ObjectMap) : Prop where
  /-- Every cache record holds its object size. -/
  sizes : ∀ c, c<cacheCount → load64 m (cacheAddr L c)=cacheSize c
  /-- The slab list of every cache is intact in memory. -/
  listed : ∀ c, c<cacheCount →
    Listed slabLinks m (cacheAddr L c+8) ((slabs c).map frameToAddr)
  /-- There are no slabs past the last cache. -/
  cache_lt : ∀ {c i}, i∈slabs c → c<cacheCount
  /-- No page is on two lists. -/
  unique : ∀ {c c' i}, i∈slabs c → i∈slabs c' → c=c'
  /-- Slabs are pages of the heap. -/
  inside : ∀ {c i}, i∈slabs c → i<frameCount
  /-- Every slab is a live block of one page. -/
  live : ∀ {c i}, i∈slabs c → live i=some (0,false)
  /-- Every page describes its live objects. -/
  page : ∀ {c i}, i∈slabs c → SlabPage L m objs c (frameToAddr i)
  /-- Every live object sits in a slot of its serving cache. -/
  object : ∀ {p n}, objs p=some n →
    ∃ c i, i∈slabs c ∧ p∈slots c (frameToAddr i) ∧ cacheFor n=some c

/-- Every slab has a live object. -/
def Used (slabs : ℕ → List ℕ) (objs : ObjectMap) : Prop :=
  ∀ c i, i∈slabs c → 0<(liveSlots objs c (frameToAddr i)).length

variable {L : Layout} {m m' : Bytes} {free : ℕ → List ℕ} {live live' : LiveMap}
  {slabs : ℕ → List ℕ} {objs objs' : ObjectMap} {c i p n : ℕ}

/-- The byte belongs to the page of a frame. -/
def PageByte (i a : ℕ) : Prop := frameToAddr i≤a ∧ a<frameToAddr i+frameSize

/-- Pages of different frames are disjoint. -/
theorem pageByte_unique {j a : ℕ} (h : PageByte i a) (h' : PageByte j a) : i=j := by
  simp only [PageByte,frameToAddr_eq,frameSize] at h h'
  omega

/-- Pages of frames lie inside the heap. -/
theorem pageByte_heap {a : ℕ} (hi : i<frameCount) (h : PageByte i a) :
    heapPhys≤a ∧ a<heapPhys+heapSize := by
  have hi' : i<16384 := hi
  simp only [PageByte,frameToAddr_eq,frameSize,heapPhys,heapSize] at h ⊢
  omega

/-- Heap pages hold no cache record. -/
theorem pageByte_not_cache {a : ℕ} (hi : i<frameCount) (h : PageByte i a) : ¬CacheByte L a :=
  not_cacheByte (Or.inr (Or.inr (pageByte_heap hi h)))

/-- The words of a cache record are cache bytes. -/
theorem cacheByte_of_record {a : ℕ} (hc : c<cacheCount) (h1 : cacheAddr L c≤a)
    (h2 : a<cacheAddr L c+cacheRecord) : CacheByte L a := by
  have hc' : c<8 := hc
  simp only [CacheByte,cacheAddr,cacheRecord,cacheCount] at h1 h2 ⊢
  omega

/-- Slots of a page are bytes of the page. -/
theorem pageByte_slot {a : ℕ} (hp : p∈slots c (frameToAddr i)) (h1 : p≤a)
    (h2 : a<p+cacheSize c) : PageByte i a := by
  obtain ⟨hlow,hhigh⟩ := slot_bounds hp
  exact ⟨by omega,by omega⟩

/-- A slot belongs to one page only. -/
theorem slot_page {d j : ℕ} (hc : c<cacheCount) (hd : d<cacheCount)
    (hp : p∈slots c (frameToAddr i)) (hq : p∈slots d (frameToAddr j)) : i=j := by
  have h1 := (cacheSize_bounds hc).1
  have h2 := (cacheSize_bounds hd).1
  exact pageByte_unique (pageByte_slot hp le_rfl (by omega)) (pageByte_slot hq le_rfl (by omega))

/-- The layer depends on the cache records and the slab pages only. -/
theorem Slabs.transport (h : Slabs L m live slabs objs)
    (hcache : ∀ a, CacheByte L a → m' a=m a)
    (hpage : ∀ c i, i∈slabs c → ∀ a, PageByte i a → m' a=m a)
    (hlive : ∀ c i, i∈slabs c → live' i=some (0,false)) : Slabs L m' live' slabs objs := by
  refine ⟨?_,?_,h.cache_lt,h.unique,h.inside,fun hi => hlive _ _ hi,?_,h.object⟩
  · intro c hc
    rw [← h.sizes c hc]
    refine load64_congr fun a h1 h2 => hcache a (cacheByte_of_record hc h1 ?_)
    simp only [cacheRecord]
    omega
  · intro c hc
    refine (h.listed c hc).transport ?_ ?_
    · intro a h1 h2
      refine hcache a (cacheByte_of_record hc (by omega) ?_)
      simp only [cacheRecord]
      omega
    · intro x hx a h1 h2
      obtain ⟨i,hi,rfl⟩ := List.mem_map.mp hx
      have hspan : slabLinks.span=48 := rfl
      refine hpage c i hi a ⟨h1,?_⟩
      simp only [frameSize]
      omega
  · intro c i hi
    have hsize := (cacheSize_bounds (h.cache_lt hi)).1
    refine (h.page hi).transport ?_ ?_ (fun _ _ => rfl)
    · intro a h1 _ h2
      refine hpage c i hi a ⟨h1,?_⟩
      simp only [slabHeader,frameSize] at h2 ⊢
      omega
    · intro x hx a h1 h2
      exact hpage c i hi a (pageByte_slot (mem_freeSlots.mp hx).1 h1 (by omega))

/-- A change inside one page, to its counters and free list or inside its
slots, is a change of that page's own invariant. -/
theorem Slabs.update_page (h : Slabs L m live slabs objs) (hi : i∈slabs c)
    (hout : ∀ a, ¬PageByte i a → m' a=m a)
    (hlinks : ∀ a, frameToAddr i+24≤a → a<frameToAddr i+40 → m' a=m a)
    (hobjs : ∀ q, q∉slots c (frameToAddr i) → objs' q=objs q)
    (hobject : ∀ q n, q∈slots c (frameToAddr i) → objs' q=some n → cacheFor n=some c)
    (hpage : SlabPage L m' objs' c (frameToAddr i)) : Slabs L m' live slabs objs' := by
  have hc := h.cache_lt hi
  have hother : ∀ {j a}, j≠i → PageByte j a → m' a=m a := by
    intro j a hne ha
    exact hout a fun ha' => hne (pageByte_unique ha ha')
  have hrecord : ∀ a, CacheByte L a → m' a=m a := by
    intro a ha
    exact hout a fun ha' => pageByte_not_cache (h.inside hi) ha' ha
  refine ⟨?_,?_,h.cache_lt,h.unique,h.inside,h.live,?_,?_⟩
  · intro d hd
    rw [← h.sizes d hd]
    refine load64_congr fun a h1 h2 => hrecord a (cacheByte_of_record hd h1 ?_)
    simp only [cacheRecord]
    omega
  · intro d hd
    have hword : ∀ j, j∈slabs d → ∀ a, frameToAddr j+24≤a → a<frameToAddr j+40 → m' a=m a := by
      intro j hj a h1 h2
      by_cases hji : j=i
      · subst hji
        exact hlinks a h1 h2
      · refine hother hji ⟨by omega,?_⟩
        simp only [frameSize]
        omega
    refine (h.listed d hd).transport_words ?_ ?_ ?_
    · refine load64_congr fun a h1 h2 => hrecord a (cacheByte_of_record hd (by omega) ?_)
      simp only [cacheRecord]
      omega
    · intro x hx
      obtain ⟨j,hj,rfl⟩ := List.mem_map.mp hx
      have hn : slabLinks.next=24 := rfl
      exact load64_congr fun a h1 h2 => hword j hj a (by omega) (by omega)
    · intro x hx
      obtain ⟨j,hj,rfl⟩ := List.mem_map.mp hx
      have hn : slabLinks.prev=32 := rfl
      exact load64_congr fun a h1 h2 => hword j hj a (by omega) (by omega)
  · intro d j hj
    by_cases hji : j=i
    · subst hji
      rw [h.unique hj hi]
      exact hpage
    · have hd := h.cache_lt hj
      have hsize := (cacheSize_bounds hd).1
      refine (h.page hj).transport ?_ ?_ ?_
      · intro a h1 _ h2
        refine hother hji ⟨h1,?_⟩
        simp only [slabHeader,frameSize] at h2 ⊢
        omega
      · intro x hx a h1 h2
        exact hother hji (pageByte_slot (mem_freeSlots.mp hx).1 h1 (by omega))
      · intro q hq
        rw [hobjs q fun hq' => hji (slot_page hd hc hq hq')]
  · intro q n hq
    by_cases hslot : q∈slots c (frameToAddr i)
    · exact ⟨c,i,hi,hslot,hobject q n hslot hq⟩
    · rw [hobjs q hslot] at hq
      exact h.object hq

/-- The head word of a slab list is part of its cache record. -/
theorem cacheByte_head {a : ℕ} (hc : c<cacheCount) (h1 : cacheAddr L c+8≤a)
    (h2 : a<cacheAddr L c+8+8) : CacheByte L a := by
  refine cacheByte_of_record hc (by omega) ?_
  simp only [cacheRecord]
  omega

/-- The records of different caches are disjoint. -/
theorem cacheAddr_apart {d : ℕ} (h : c≠d) :
    cacheAddr L c+cacheRecord≤cacheAddr L d ∨ cacheAddr L d+cacheRecord≤cacheAddr L c := by
  simp only [cacheAddr,cacheRecord]
  omega

/-- Header cells do not meet the head words of the slab lists. -/
theorem header_head_apart (hi : i<frameCount) (hc : c<cacheCount) :
    Apart (frameToAddr i) slabLinks.span (cacheAddr L c+8) 8 := by
  have h := L.caches_heap
  have hi' : i<16384 := hi
  have hc' : c<8 := hc
  have hspan : slabLinks.span=48 := rfl
  simp only [Apart,frameToAddr_eq,cacheAddr,cacheRecord,cacheCount,heapPhys,heapSize] at *
  omega

/-- The list node at the start of a page lies inside the page. -/
theorem pageByte_node {a : ℕ} (h1 : frameToAddr i≤a) (h2 : a<frameToAddr i+48) : PageByte i a := by
  refine ⟨h1,?_⟩
  simp only [frameSize]
  omega

/-- The list of one cache was written: of the cache records only its head word, and of the
slab pages only the link words of its own slabs. -/
structure ListWrite (L : Layout) (m m' : Bytes) (slabs : ℕ → List ℕ) (c : ℕ) : Prop where
  /-- The rest of the cache records. -/
  record : ∀ {a}, CacheByte L a → ¬(cacheAddr L c+8≤a ∧ a<cacheAddr L c+16) → m' a=m a
  /-- The rest of the slab pages. -/
  page : ∀ {d j a}, j∈slabs d → PageByte j a →
    a<frameToAddr j+24 ∨ frameToAddr j+40≤a ∨ d≠c → m' a=m a

/-- A write that spares all words but the list's own, and else only touches bytes of no
record and no slab, is a write to the list. -/
theorem ListWrite.of_words (h : Slabs L m live slabs objs) (hc : c<cacheCount)
    {P : ℕ → Prop} (hcache : ∀ a, P a → ¬CacheByte L a)
    (hpages : ∀ d, ∀ j∈slabs d, ∀ a, P a → ¬PageByte j a)
    (hwords : ∀ a, ¬P a → ¬(cacheAddr L c+8≤a ∧ a<cacheAddr L c+16) →
      (∀ j∈slabs c, ¬(frameToAddr j+24≤a ∧ a<frameToAddr j+40)) → m' a=m a) :
    ListWrite L m m' slabs c := by
  constructor
  · intro a ha hhead
    refine hwords a (fun hs => hcache a hs ha) hhead fun j hj hw => ?_
    exact pageByte_not_cache (h.inside hj) (pageByte_node (by omega) (by omega)) ha
  · intro d j a hj ha hword
    refine hwords a (fun hs => hpages d j hj a hs ha) ?_ ?_
    · intro hh
      exact pageByte_not_cache (h.inside hj) ha (cacheByte_head hc hh.1 hh.2)
    · intro l hl hw
      obtain rfl : j=l := pageByte_unique ha (pageByte_node (by omega) (by omega))
      have := h.unique hj hl
      omega

/-- The object sizes stay in the records. -/
theorem ListWrite.sizes (hw : ListWrite L m m' slabs c) (h : Slabs L m live slabs objs) {d : ℕ}
    (hd : d<cacheCount) : load64 m' (cacheAddr L d)=cacheSize d := by
  rw [← h.sizes d hd]
  refine load64_congr fun a h1 h2 => hw.record ?_ ?_
  · exact cacheByte_of_record hd h1 (by simp only [cacheRecord]; omega)
  · by_cases hdc : d=c
    · subst hdc
      omega
    · have := cacheAddr_apart (L:=L) hdc
      simp only [cacheRecord] at this
      omega

/-- The lists of the other caches stay intact. -/
theorem ListWrite.listed (hw : ListWrite L m m' slabs c) (h : Slabs L m live slabs objs) {d : ℕ}
    (hd : d<cacheCount) (hdc : d≠c) :
    Listed slabLinks m' (cacheAddr L d+8) ((slabs d).map frameToAddr) := by
  refine (h.listed d hd).transport ?_ ?_
  · intro a h1 h2
    refine hw.record (cacheByte_head hd h1 h2) ?_
    have := cacheAddr_apart (L:=L) hdc
    simp only [cacheRecord] at this
    omega
  · intro x hx a h1 h2
    obtain ⟨j,hj,rfl⟩ := List.mem_map.mp hx
    exact hw.page hj (pageByte_node h1 h2) (Or.inr (Or.inr hdc))

/-- Every slab still describes its live objects. -/
theorem ListWrite.slabPage (hw : ListWrite L m m' slabs c) (h : Slabs L m live slabs objs)
    {d j : ℕ} (hj : j∈slabs d) (hobjs : ∀ q∈slots d (frameToAddr j), objs' q=objs q) :
    SlabPage L m' objs' d (frameToAddr j) := by
  have hsize := (cacheSize_bounds (h.cache_lt hj)).1
  refine (h.page hj).transport ?_ ?_ fun q hq => by rw [hobjs q hq]
  · intro a h1 h2 h3
    simp only [slabHeader] at h3
    exact hw.page hj (pageByte_node h1 h3) (by omega)
  · intro x hx a h1 h2
    have hslot := (mem_freeSlots.mp hx).1
    have hb := (slot_bounds hslot).1
    simp only [slabHeader] at hb
    exact hw.page hj (pageByte_slot hslot h1 (by omega)) (by omega)

/-- Putting a page that is no slab on a list writes only the list and the page. -/
theorem Slabs.push_write (h : Slabs L m live slabs objs) (hc : c<cacheCount) (hi : i<frameCount)
    (hnew : ∀ d, i∉slabs d)
    (hout : ∀ a, ¬PageByte i a →
      m' a=pushFront slabLinks m (cacheAddr L c+8) (frameToAddr i) a) :
    ListWrite L m m' slabs c := by
  have hnext : slabLinks.next=24 := rfl
  have hprev : slabLinks.prev=32 := rfl
  refine ListWrite.of_words h hc (P:=PageByte i) (fun a => pageByte_not_cache hi) ?_ ?_
  · exact fun d j hj a ha ha' => hnew d (pageByte_unique ha ha' ▸ hj)
  · intro a ha hhead hwords
    rw [hout a ha]
    simp only [PageByte,frameSize] at ha
    refine pushFront_frame_words (h.listed c hc) (header_head_apart hi hc) (by omega)
      (by omega) (by omega) ?_
    intro x hx
    obtain ⟨j,hj,rfl⟩ := List.mem_map.mp hx
    have := hwords j hj
    omega

/-- The list of the cache starts with the page that was put on it. -/
theorem Slabs.push_listed (h : Slabs L m live slabs objs) (hc : c<cacheCount) (hi : i<frameCount)
    (hnew : ∀ d, i∉slabs d)
    (hout : ∀ a, ¬PageByte i a →
      m' a=pushFront slabLinks m (cacheAddr L c+8) (frameToAddr i) a)
    (hlinks : ∀ a, frameToAddr i+24≤a → a<frameToAddr i+40 →
      m' a=pushFront slabLinks m (cacheAddr L c+8) (frameToAddr i) a) :
    Listed slabLinks m' (cacheAddr L c+8) ((i::slabs c).map frameToAddr) := by
  have hnext : slabLinks.next=24 := rfl
  have hprev : slabLinks.prev=32 := rfl
  have hspan : slabLinks.span=48 := rfl
  have hbound : frameToAddr i<2^64 ∧ frameToAddr i≠0 := by
    have hi' : i<16384 := hi
    rw [frameToAddr_eq]
    omega
  have hcell : ∀ x∈(slabs c).map frameToAddr,
      Apart (frameToAddr i) slabLinks.span x slabLinks.span := by
    intro x hx
    obtain ⟨j,hj,rfl⟩ := List.mem_map.mp hx
    have hne : i≠j := fun heq => hnew c (heq ▸ hj)
    simp only [Apart,frameToAddr_eq]
    omega
  have hword : ∀ x∈frameToAddr i::(slabs c).map frameToAddr, ∀ a, x+24≤a → a<x+40 →
      m' a=pushFront slabLinks m (cacheAddr L c+8) (frameToAddr i) a := by
    intro x hx a h1 h2
    rcases List.mem_cons.mp hx with rfl | hx
    · exact hlinks a h1 h2
    · obtain ⟨j,hj,rfl⟩ := List.mem_map.mp hx
      refine hout a fun ha => hnew c ?_
      rw [← pageByte_unique (pageByte_node (i:=j) (by omega) (by omega)) ha]
      exact hj
  have hpushed := listed_pushFront (h.listed c hc) hbound.2 hbound.1 hcell
    (header_head_apart (L:=L) hi hc)
  rw [List.map_cons]
  refine hpushed.transport_words ?_ ?_ ?_
  · refine load64_congr fun a h1 h2 => hout a fun ha => ?_
    exact pageByte_not_cache hi ha (cacheByte_head hc h1 h2)
  · exact fun x hx => load64_congr fun a h1 h2 => hword x hx a (by omega) (by omega)
  · exact fun x hx => load64_congr fun a h1 h2 => hword x hx a (by omega) (by omega)

/-- A new page in front of a cache's list. -/
theorem Slabs.add (h : Slabs L m live slabs objs) (hc : c<cacheCount) (hi : i<frameCount)
    (hnew : ∀ d, i∉slabs d) (hlive : live i=some (0,false))
    (hout : ∀ a, ¬PageByte i a →
      m' a=pushFront slabLinks m (cacheAddr L c+8) (frameToAddr i) a)
    (hlinks : ∀ a, frameToAddr i+24≤a → a<frameToAddr i+40 →
      m' a=pushFront slabLinks m (cacheAddr L c+8) (frameToAddr i) a)
    (hobjs : ∀ q, q∉slots c (frameToAddr i) → objs' q=objs q)
    (hobject : ∀ q n, q∈slots c (frameToAddr i) → objs' q=some n → cacheFor n=some c)
    (hpage : SlabPage L m' objs' c (frameToAddr i)) :
    Slabs L m' live (Function.update slabs c (i::slabs c)) objs' := by
  have hmem : ∀ {d j}, j∈Function.update slabs c (i::slabs c) d ↔ j∈slabs d ∨ j=i ∧ d=c :=
    mem_update_cons
  have hw := h.push_write hc hi hnew hout
  refine ⟨fun d hd => hw.sizes h hd,?_,?_,?_,?_,?_,?_,?_⟩
  · intro d hd
    by_cases hdc : d=c
    · subst hdc
      rw [Function.update_self]
      exact h.push_listed hd hi hnew hout hlinks
    · rw [Function.update_of_ne hdc]
      exact hw.listed h hd hdc
  · intro d j hj
    rcases hmem.mp hj with hj | ⟨_,rfl⟩
    · exact h.cache_lt hj
    · exact hc
  · intro d d' j hj hj'
    rcases hmem.mp hj with hold | ⟨hji,hd⟩
    · rcases hmem.mp hj' with hold' | ⟨hji,_⟩
      · exact h.unique hold hold'
      · exact (hnew d (hji ▸ hold)).elim
    · rcases hmem.mp hj' with hold' | ⟨_,hd'⟩
      · exact (hnew d' (hji ▸ hold')).elim
      · exact hd.trans hd'.symm
  · intro d j hj
    rcases hmem.mp hj with hj | ⟨rfl,_⟩
    · exact h.inside hj
    · exact hi
  · intro d j hj
    rcases hmem.mp hj with hj | ⟨rfl,_⟩
    · exact h.live hj
    · exact hlive
  · intro d j hj
    rcases hmem.mp hj with hj | ⟨rfl,rfl⟩
    · refine hw.slabPage h hj fun q hq => hobjs q fun hq' => ?_
      exact hnew d (slot_page (h.cache_lt hj) hc hq hq' ▸ hj)
    · exact hpage
  · intro q n hq
    by_cases hslot : q∈slots c (frameToAddr i)
    · exact ⟨c,i,hmem.mpr (Or.inr ⟨rfl,rfl⟩),hslot,hobject q n hslot hq⟩
    · rw [hobjs q hslot] at hq
      obtain ⟨d,j,hj,hq1,hq2⟩ := h.object hq
      exact ⟨d,j,hmem.mpr (Or.inl hj),hq1,hq2⟩

/-- A page is on its list once. -/
theorem Slabs.nodup (h : Slabs L m live slabs objs) (c : ℕ) : (slabs c).Nodup := by
  rcases Nat.lt_or_ge c cacheCount with hc | hc
  · exact (h.listed c hc).nodup.of_map _
  · have hnil : slabs c=[] := by
      refine List.eq_nil_iff_forall_not_mem.mpr fun i hi => ?_
      have := h.cache_lt hi
      omega
    rw [hnil]
    exact List.nodup_nil

/-- Taking a page off a list writes only the list. -/
theorem Slabs.unlink_write (h : Slabs L m live slabs objs) (hi : i∈slabs c) :
    ListWrite L m (unlink slabLinks m (cacheAddr L c+8) (frameToAddr i)) slabs c := by
  have hnext : slabLinks.next=24 := rfl
  have hprev : slabLinks.prev=32 := rfl
  have hc := h.cache_lt hi
  refine ListWrite.of_words h hc (P:=fun _ => False) (fun _ h => h.elim) (fun _ _ _ _ h => h.elim) ?_
  intro a _ hhead hwords
  refine unlink_map_frame_words (h.listed c hc) hi (by omega) ?_ ?_
  · intro j hj
    have := hwords j hj
    omega
  · intro j hj
    have := hwords j hj
    omega

/-- Taking a page without live objects off its cache's list. -/
theorem Slabs.drop (h : Slabs L m live slabs objs) (hi : i∈slabs c)
    (hnone : ∀ q∈slots c (frameToAddr i), objs q=none) :
    Slabs L (unlink slabLinks m (cacheAddr L c+8) (frameToAddr i)) live
      (Function.update slabs c ((slabs c).erase i)) objs := by
  have hmem : ∀ {d j}, j∈Function.update slabs c ((slabs c).erase i) d ↔ j∈slabs d ∧ ¬(j=i ∧ d=c) :=
    mem_update_erase (h.nodup c)
  have hw := h.unlink_write hi
  refine ⟨fun d hd => hw.sizes h hd,?_,?_,?_,?_,?_,?_,?_⟩
  · intro d hd
    by_cases hdc : d=c
    · subst hdc
      rw [Function.update_self]
      exact listed_unlink_map (h.listed d hd) hi
    · rw [Function.update_of_ne hdc]
      exact hw.listed h hd hdc
  · intro d j hj
    exact h.cache_lt (hmem.mp hj).1
  · intro d d' j hj hj'
    exact h.unique (hmem.mp hj).1 (hmem.mp hj').1
  · intro d j hj
    exact h.inside (hmem.mp hj).1
  · intro d j hj
    exact h.live (hmem.mp hj).1
  · intro d j hj
    exact hw.slabPage h (hmem.mp hj).1 fun _ _ => rfl
  · intro q n hq
    obtain ⟨d,j,hj,hq1,hq2⟩ := h.object hq
    refine ⟨d,j,hmem.mpr ⟨hj,?_⟩,hq1,hq2⟩
    rintro ⟨rfl,rfl⟩
    rw [hnone q hq1] at hq
    cases hq

end OvsbMk.SlabInvariant
