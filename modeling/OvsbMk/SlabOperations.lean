import OvsbMk.SlabInvariant

/-!
# Slab allocation and release

One specification for each slab operation, over any state in which the page
allocator and the slab layer are consistent: `slab_alloc` hands out one free
slot of the cache, growing the cache by a page when no slab has one, and
`slab_free` returns a live object and gives the page back when it was the
last.
-/

namespace OvsbMk.SlabOperations

open ByteMemory IntrusiveList KernelMemory Chains BuddyFreeLists BuddyInvariant BuddyOperations
  BuddyRuns SlabPages SlabInvariant

variable {L : Layout} {m m' : Bytes} {free : ℕ → List ℕ} {live live' : LiveMap}
  {slabs : ℕ → List ℕ} {objs objs' : ObjectMap} {c i p n : ℕ}

/-- The search visits the list up to the first slab with a free object. -/
theorem findSlab_cases {start : ℕ} {nodes : List ℕ} (fuel : ℕ)
    (h : Chain (fun x => load64 m (x+24)) (fun x => x=0) start nodes)
    (hfuel : nodes.length<fuel) :
    (findSlab m fuel start=.exhausted ∧ ∀ x∈nodes, load64 m (x+16)=0) ∨
      ∃ x, x∈nodes ∧ findSlab m fuel start=.found x ∧ load64 m (x+16)≠0 := by
  induction fuel generalizing start nodes with
  | zero => omega
  | succ fuel ih =>
    rw [findSlab]
    cases nodes with
    | nil =>
      have hzero := chain_nil.mp h
      rw [if_pos hzero]
      exact Or.inl ⟨rfl,by simp⟩
    | cons x rest =>
      obtain ⟨rfl,hx,hrest⟩ := chain_cons.mp h
      rw [if_neg hx]
      by_cases hfree : load64 m (start+16)=0
      · rw [if_neg (not_not.mpr hfree)]
        rcases ih hrest (by simpa using hfuel) with ⟨heq,hall⟩ | ⟨y,hy,heq,hne⟩
        · refine Or.inl ⟨heq,fun y hy => ?_⟩
          rcases List.mem_cons.mp hy with rfl | hy
          · exact hfree
          · exact hall y hy
        · exact Or.inr ⟨y,List.mem_cons_of_mem _ hy,heq,hne⟩
      · rw [if_pos hfree]
        exact Or.inr ⟨start,by simp,rfl,hfree⟩

/-- A list without repetitions is no longer than a bound of its entries. -/
theorem length_le_of_lt {l : List ℕ} {bound : ℕ} (hnd : l.Nodup) (h : ∀ i∈l, i<bound) :
    l.length≤bound := by
  have hsub : l⊆List.range bound := fun i hi => List.mem_range.mpr (h i hi)
  have := (hnd.subperm hsub).length_le
  rwa [List.length_range] at this

/-- The pages of live one-page blocks belong to their owners. -/
theorem owned_of_pageByte {a : ℕ} {user : Bool} (hl : live i=some (0,user)) (h : PageByte i a) :
    Owned live a := by
  obtain ⟨h1,h2⟩ := h
  refine ⟨i,0,user,hl,h1,lt_of_lt_of_eq h2 ?_⟩
  simp only [frameToAddr_eq,frameSize,pow_zero]
  ring

/-- The page allocator does not use the cache records. -/
theorem foreign_of_cacheByte {a : ℕ} (h : CacheByte L a) : Foreign L a :=
  ⟨fun hf => not_cacheByte (Or.inl hf) h,fun hh => not_cacheByte (Or.inr (Or.inl hh)) h,
    fun hw => not_cacheByte (Or.inr (Or.inr hw)) h⟩

/-- A frame of the heap is a page of addresses below `2^32`. -/
theorem frame_bounds (hi : i<frameCount) :
    0<frameToAddr i ∧ frameToAddr i+frameSize≤2^32 ∧ frameToAddr i%4096=0 := by
  have hi' : i<16384 := hi
  simp only [frameToAddr_eq,frameSize]
  omega

/-- Fill in the header of a new slab page, links and free list apart. -/
def freshHeader (m : Bytes) (s cache : ℕ) : Bytes :=
  let m1 := store32 m s slabMagic
  let m2 := store32 m1 (s+4) 0
  let m3 := storeBytes m2 (s+8) 2 (load32 m2 (cache+16))
  store64 m3 (s+40) cache

/-- The header of a new page, link words apart. -/
theorem freshHeader_spec {s cache : ℕ} (hcache : cache<2^64) :
    load32 (freshHeader m s cache) s=slabMagic ∧ load32 (freshHeader m s cache) (s+4)=0 ∧
      load64 (freshHeader m s cache) (s+40)=cache ∧
      ∀ a, a<s ∨ s+slabHeader≤a → freshHeader m s cache a=m a := by
  refine ⟨?_,?_,?_,?_⟩
  · have h1 : load32 (freshHeader m s cache) s=load32 (store32 m s slabMagic) s := by
      refine loadBytes_congr fun a h1 h2 => ?_
      simp only [freshHeader,store32]
      rw [store64_outside (by omega),storeBytes_outside (by omega),storeBytes_outside (by omega)]
    rw [h1]
    exact load32_store32_same (by norm_num)
  · have h1 : load32 (freshHeader m s cache) (s+4)=
        load32 (store32 (store32 m s slabMagic) (s+4) 0) (s+4) := by
      refine loadBytes_congr fun a h1 h2 => ?_
      simp only [freshHeader]
      rw [store64_outside (by omega),storeBytes_outside (by omega)]
    rw [h1]
    exact load32_store32_same (by norm_num)
  · exact load64_store64_same hcache
  · intro a ha
    simp only [slabHeader] at ha
    simp only [freshHeader,store32]
    rw [store64_outside (by omega),storeBytes_outside (by omega),storeBytes_outside (by omega),
      storeBytes_outside (by omega)]

/-- The source's path for a new page, in terms of the list insertion and the
carving loop. -/
theorem slabAlloc_fresh {cache s : ℕ} {m0 : Bytes} (hcache : cache≠0)
    (hfind : findSlab m (frameCount+1) (load64 m (cache+8))=.exhausted)
    (hpage : buddyAlloc L m 0 false=(s,m0)) (hs : s≠0) :
    slabAlloc L m cache=
      let m11 := carvePage (pushFront slabLinks (freshHeader m0 s cache) (cache+8) s) cache s
      some (load64 m11 (s+16),store32 (popObject m11 s).2 (s+4) 1) := by
  rw [slabAlloc,if_neg hcache,hfind]
  dsimp only
  rw [hpage]
  dsimp only
  rw [if_neg hs]
  have hnext : slabLinks.next=24 := rfl
  have hprev : slabLinks.prev=32 := rfl
  simp only [carvePage,popObject,freshHeader,pushFront,hnext,hprev]

/-- More live objects keep every slab in use. -/
theorem Used.update (h : Used slabs objs) (p n : ℕ) :
    Used slabs (Function.update objs p (some n)) := by
  intro c i hi
  obtain ⟨q,hq⟩ := List.length_pos_iff_exists_mem.mp (h c i hi)
  obtain ⟨hslot,k,hk⟩ := mem_liveSlots.mp hq
  refine List.length_pos_iff_exists_mem.mpr ⟨q,mem_liveSlots.mpr ⟨hslot,?_⟩⟩
  by_cases hqp : q=p
  · exact ⟨n,by rw [hqp,Function.update_self]⟩
  · exact ⟨k,by rw [Function.update_of_ne hqp,hk]⟩

/-- Changes inside slab pages and cache records keep the page allocator
consistent. -/
theorem sound_of_slabs (hs : Sound L m free live none)
    (h : ∀ a, (∀ i user, live i=some (0,user) → ¬PageByte i a) → ¬CacheByte L a → m' a=m a) :
    Sound L m' free live none := by
  refine sound_of_writes hs fun a ha => h a ?_ ?_
  · intro i user hl hp
    exact ha (Or.inl (owned_of_pageByte hl hp))
  · intro hc
    exact ha (Or.inr (foreign_of_cacheByte hc))

/-- The use counter after taking an object, as the source computes it. -/
theorem popObject_count (h : SlabPage L m objs c p) (hc : c<cacheCount) :
    (load32 (popObject m p).2 (p+4)+1)%2^32=(liveSlots objs c p).length+1 := by
  have hload : load32 (popObject m p).2 (p+4)=load32 m (p+4) :=
    loadBytes_congr fun a h1 h2 => store64_outside (by omega)
  have hlt := liveSlots_lt hc objs p
  rw [hload,h.inUse]
  omega

/-- Taking an object from a slab that has one. -/
theorem pop_spec (hs : Sound L m free live none) (h : Slabs L m live slabs objs) (hi : i∈slabs c)
    (hne : load64 m (frameToAddr i+16)≠0) (hn : cacheFor n=some c) :
    objs (load64 m (frameToAddr i+16))=none ∧
      Sound L (store32 (popObject m (frameToAddr i)).2 (frameToAddr i+4)
        ((liveSlots objs c (frameToAddr i)).length+1)) free live none ∧
      Slabs L (store32 (popObject m (frameToAddr i)).2 (frameToAddr i+4)
        ((liveSlots objs c (frameToAddr i)).length+1)) live slabs
        (Function.update objs (load64 m (frameToAddr i+16)) (some n)) := by
  have hc := h.cache_lt hi
  obtain ⟨hfree,hpage,_⟩ := (h.page hi).pop hc hne n
  obtain ⟨hslot,hnone⟩ := mem_freeSlots.mp hfree
  have hout : ∀ a, ¬PageByte i a → store32 (popObject m (frameToAddr i)).2 (frameToAddr i+4)
      ((liveSlots objs c (frameToAddr i)).length+1) a=m a := by
    intro a ha
    simp only [PageByte,frameSize] at ha
    exact popObject_frame (by omega) (by omega)
  refine ⟨hnone,?_,?_⟩
  · exact sound_of_slabs hs fun a ha _ => hout a (ha i false (h.live hi))
  · refine h.update_page hi hout ?_ ?_ ?_ hpage
    · intro a h1 h2
      exact popObject_frame (by omega) (by omega)
    · intro q hq
      refine Function.update_of_ne ?_ _ _
      rintro rfl
      exact hq hslot
    · intro q k hq hk
      by_cases hqp : q=load64 m (frameToAddr i+16)
      · rw [hqp,Function.update_self] at hk
        rw [← Option.some.inj hk]
        exact hn
      · rw [Function.update_of_ne hqp] at hk
        obtain ⟨d,j,hj,hq',hd⟩ := h.object hk
        obtain rfl := slot_page (h.cache_lt hj) hc hq' hq
        rw [h.unique hj hi] at hd
        exact hd

/-- A slab allocation leaves the pages alone or adds one new page to the cache. -/
def Grown (live : LiveMap) (slabs : ℕ → List ℕ) (c : ℕ) (live' : LiveMap)
    (slabs' : ℕ → List ℕ) : Prop :=
  live'=live ∧ slabs'=slabs ∨
    ∃ i, live i=none ∧ live'=Function.update live i (some (0,false)) ∧
      slabs'=Function.update slabs c (i::slabs c)

/-- Listing a new page writes its links, the head word and the pages already
on the list. -/
theorem pushSlab_frame {a : ℕ} (h : Slabs L m live slabs objs) (hc : c<cacheCount)
    (hi : i<frameCount) (hlinks : a<frameToAddr i+24 ∨ frameToAddr i+40≤a)
    (hhead : a<cacheAddr L c+8 ∨ cacheAddr L c+16≤a) (hpages : ∀ j∈slabs c, ¬PageByte j a) :
    pushFront slabLinks m (cacheAddr L c+8) (frameToAddr i) a=m a := by
  have hnext : slabLinks.next=24 := rfl
  have hprev : slabLinks.prev=32 := rfl
  refine pushFront_frame_words (h.listed c hc) (header_head_apart hi hc) (by omega)
    (by omega) (by omega) ?_
  intro x hx
  obtain ⟨j,hj,rfl⟩ := List.mem_map.mp hx
  have := hpages j hj
  simp only [PageByte,frameSize] at this
  omega

/-- An unlisted page with a filled header, once listed and carved, is a slab
page with free objects only; link words apart, nothing else changes in it. -/
theorem carve_listed (h : Slabs L m live slabs objs) (hc : c<cacheCount) (hi : i<frameCount)
    (hnew : ∀ d, i∉slabs d) (hmagic : load32 m (frameToAddr i)=slabMagic)
    (hinUse : load32 m (frameToAddr i+4)=0)
    (hcache : load64 m (frameToAddr i+40)=cacheAddr L c)
    (hobjs : ∀ q∈slots c (frameToAddr i), objs q=none) :
    let pushed := pushFront slabLinks m (cacheAddr L c+8) (frameToAddr i)
    let carved := carvePage pushed (cacheAddr L c) (frameToAddr i)
    SlabPage L carved objs c (frameToAddr i) ∧ (liveSlots objs c (frameToAddr i)).length=0 ∧
      load64 carved (frameToAddr i+16)≠0 ∧
      ∀ a, a<frameToAddr i+8 ∨ frameToAddr i+24≤a →
        a<frameToAddr i+slabHeader ∨ frameToAddr i+frameSize≤a → carved a=pushed a := by
  have hself : ∀ b k, frameToAddr i≤b → b+k≤frameToAddr i+24 ∨ frameToAddr i+40≤b →
      b+k≤frameToAddr i+slabHeader →
      loadBytes (pushFront slabLinks m (cacheAddr L c+8) (frameToAddr i)) b k=loadBytes m b k := by
    intro b k h1 h2 h3
    simp only [slabHeader] at h3
    refine loadBytes_congr fun a ha1 ha2 => ?_
    have ha : PageByte i a := ⟨by omega,by simp only [frameSize]; omega⟩
    refine pushSlab_frame h hc hi (by omega) ?_ fun j hj hp => ?_
    · by_contra hh
      exact pageByte_not_cache (L:=L) hi ha (cacheByte_head hc (by omega) (by omega))
    · exact hnew c (pageByte_unique ha hp ▸ hj)
  have hsize : load64 (pushFront slabLinks m (cacheAddr L c+8) (frameToAddr i))
      (cacheAddr L c)=cacheSize c := by
    rw [← h.sizes c hc]
    refine load64_congr fun a h1 h2 => ?_
    have hrecord : CacheByte L a := cacheByte_of_record hc h1 (by simp only [cacheRecord]; omega)
    refine pushSlab_frame h hc hi ?_ (by omega) fun j hj hp => ?_
    · by_contra hh
      refine pageByte_not_cache hi ⟨by omega,?_⟩ hrecord
      simp only [frameSize]
      omega
    · exact pageByte_not_cache (h.inside hj) hp hrecord
  have hle : frameToAddr i+frameSize≤2^64 := by
    have := (frame_bounds hi).2.1
    omega
  exact carvePage_spec hc hle
    ((hself (frameToAddr i) 4 (by omega) (by omega) (by simp only [slabHeader]; omega)).trans hmagic)
    ((hself (frameToAddr i+4) 4 (by omega) (by omega)
      (by simp only [slabHeader]; omega)).trans hinUse)
    ((hself (frameToAddr i+40) 8 (by omega) (by omega)
      (by simp only [slabHeader]; omega)).trans hcache) hsize hobjs

/-- An unlisted page keeps the layer as it is, whatever is written to it. -/
theorem Slabs.of_unlisted (h : Slabs L m live slabs objs) (hi : i<frameCount)
    (hnew : ∀ d, i∉slabs d) (hout : ∀ a, ¬PageByte i a → m' a=m a) :
    Slabs L m' live slabs objs := by
  refine h.transport ?_ ?_ (fun d j hj => h.live hj)
  · intro a ha
    exact hout a fun hp => pageByte_not_cache hi hp ha
  · intro d j hj a ha
    exact hout a fun hp => hnew d (pageByte_unique ha hp ▸ hj)

/-- A page allocation does not disturb the slab layer. -/
theorem Slabs.of_alloc {b : ℕ × Bool} (h : Slabs L m live slabs objs)
    (hs : Sound L m free live none) (hlive : live i=none)
    (hkeep : ∀ a, Safe L live a → m' a=m a) :
    Slabs L m' (Function.update live i (some b)) slabs objs := by
  refine h.transport ?_ ?_ ?_
  · intro a ha
    exact hkeep a (safe_of_write hs (Or.inr (foreign_of_cacheByte ha)))
  · intro d j hj a ha
    exact hkeep a (safe_of_write hs (Or.inl (owned_of_pageByte (h.live hj) ha)))
  · intro d j hj
    have hji : j≠i := by
      rintro rfl
      rw [h.live hj] at hlive
      cases hlive
    rw [Function.update_of_ne hji]
    exact h.live hj

/-- A new page serves the first object of an exhausted cache. -/
theorem fresh_spec {m0 : Bytes} {free0 : ℕ → List ℕ}
    (h : Slabs L m live slabs objs) (hs : Sound L m free live none)
    (hlive : live i=none) (hi : i<frameCount)
    (hs0 : Sound L m0 free0 (Function.update live i (some (0,false))) none)
    (hkeep : ∀ a, Safe L live a → m0 a=m a) (hc : c<cacheCount) (hn : cacheFor n=some c) :
    let m11 := carvePage (pushFront slabLinks (freshHeader m0 (frameToAddr i) (cacheAddr L c))
      (cacheAddr L c+8) (frameToAddr i)) (cacheAddr L c) (frameToAddr i)
    let obj := load64 m11 (frameToAddr i+16)
    let m' := store32 (popObject m11 (frameToAddr i)).2 (frameToAddr i+4) 1
    obj≠0 ∧ objs obj=none ∧ Sound L m' free0 (Function.update live i (some (0,false))) none ∧
      Slabs L m' (Function.update live i (some (0,false)))
        (Function.update slabs c (i::slabs c)) (Function.update objs obj (some n)) ∧
      0<(liveSlots (Function.update objs obj (some n)) c (frameToAddr i)).length := by
  have hnew : ∀ d, i∉slabs d := by
    intro d hd
    rw [h.live hd] at hlive
    cases hlive
  have hrec : cacheAddr L c<2^64 := by
    have := L.caches_bound
    have hc' : c<8 := hc
    simp only [cacheAddr,cacheRecord,cacheCount] at this ⊢
    omega
  have hobjs : ∀ q∈slots c (frameToAddr i), objs q=none := by
    intro q hq
    cases hk : objs q with
    | none => rfl
    | some k =>
      obtain ⟨d,j,hj,hq',_⟩ := h.object hk
      have hji := slot_page (h.cache_lt hj) hc hq' hq
      exact (hnew d (hji ▸ hj)).elim
  have hlive0 : Function.update live i (some (0,false)) i=some (0,false) := by simp
  obtain ⟨hmagic,hzero,hcache,hheader⟩ :=
    @freshHeader_spec m0 (frameToAddr i) (cacheAddr L c) hrec
  have hout4 : ∀ a, ¬PageByte i a →
      freshHeader m0 (frameToAddr i) (cacheAddr L c) a=m0 a := by
    intro a ha
    refine hheader a ?_
    simp only [PageByte,frameSize,slabHeader] at ha ⊢
    omega
  have h4 := Slabs.of_unlisted (Slabs.of_alloc (b:=(0,false)) h hs hlive hkeep) hi hnew hout4
  generalize hm4 : freshHeader m0 (frameToAddr i) (cacheAddr L c)=m4 at *
  obtain ⟨hpage,hcount,hsome,hframe⟩ := carve_listed h4 hc hi hnew hmagic hzero hcache hobjs
  dsimp only at hpage hcount hsome hframe ⊢
  generalize hm11 : carvePage (pushFront slabLinks m4 (cacheAddr L c+8) (frameToAddr i))
    (cacheAddr L c) (frameToAddr i)=m11 at *
  obtain ⟨hfree,hpage',hlen⟩ := hpage.pop hc hsome n
  obtain ⟨hslot,hnone⟩ := mem_freeSlots.mp hfree
  rw [hcount] at hpage' hlen
  have hframe' : ∀ a, ¬PageByte i a ∨ frameToAddr i+24≤a ∧ a<frameToAddr i+40 →
      store32 (popObject m11 (frameToAddr i)).2 (frameToAddr i+4) 1 a=
        pushFront slabLinks m4 (cacheAddr L c+8) (frameToAddr i) a := by
    intro a ha
    simp only [PageByte,frameSize] at ha
    rw [popObject_frame (by omega) (by omega)]
    refine hframe a (by omega) ?_
    simp only [slabHeader,frameSize]
    omega
  refine ⟨hsome,hnone,?_,?_,by omega⟩
  · refine sound_of_slabs hs0 fun a ha hca => ?_
    have hai := ha i false hlive0
    rw [hframe' a (Or.inl hai),pushSlab_frame h4 hc hi ?_ ?_ fun j hj => ha j false (h4.live hj)]
    · exact hout4 a hai
    · simp only [PageByte,frameSize] at hai
      omega
    · by_contra hh
      exact hca (cacheByte_head hc (by omega) (by omega))
  · refine h4.add hc hi hnew hlive0 (fun a ha => hframe' a (Or.inl ha))
      (fun a h1 h2 => hframe' a (Or.inr ⟨h1,h2⟩)) ?_ ?_ hpage'
    · intro q hq
      refine Function.update_of_ne ?_ _ _
      rintro rfl
      exact hq hslot
    · intro q k hq hk
      by_cases hqp : q=load64 m11 (frameToAddr i+16)
      · rw [hqp,Function.update_self] at hk
        rw [← Option.some.inj hk]
        exact hn
      · rw [Function.update_of_ne hqp,hobjs q hq] at hk
        cases hk

/-- Allocation from a cache returns, and hands out a free slot unless the heap
has no page left. -/
theorem slabAlloc_spec (hs : Sound L m free live none) (h : Slabs L m live slabs objs)
    (hu : Used slabs objs) (hn : cacheFor n=some c) :
    ∃ p m', slabAlloc L m (cacheAddr L c)=some (p,m') ∧
      (p=0 ∧ m'=m ∨ p≠0 ∧ objs p=none ∧ ∃ free' live' slabs', Sound L m' free' live' none ∧
        Slabs L m' live' slabs' (Function.update objs p (some n)) ∧
        Used slabs' (Function.update objs p (some n)) ∧ Grown live slabs c live' slabs') := by
  have hc := (cacheFor_spec hn).1
  have hcache : cacheAddr L c≠0 := by
    have := L.caches_pos
    simp only [cacheAddr]
    omega
  have hlen : ((slabs c).map frameToAddr).length<frameCount+1 := by
    rw [List.length_map]
    exact Nat.lt_succ_of_le (length_le_of_lt (h.nodup c) fun i hi => h.inside hi)
  rcases findSlab_cases (frameCount+1) (h.listed c hc).chain hlen with
    ⟨hfind,_⟩ | ⟨x,hx,hfind,hne⟩
  · rcases buddyAlloc_cases hs 0 false with ⟨heq,_⟩ | ⟨i,m0,free0,_,_,heq,hi,hlive,_,hs0,_⟩
    · refine ⟨0,m,?_,Or.inl ⟨rfl,rfl⟩⟩
      rw [slabAlloc,if_neg hcache,hfind]
      dsimp only
      rw [heq]
      dsimp only
      rw [if_pos rfl]
    · have hpos := (frame_bounds hi).1
      have hkeep : ∀ a, Safe L live a → m0 a=m a := by
        intro a ha
        have := buddyAlloc_safe hs 0 false ha
        rwa [heq] at this
      obtain ⟨hobj,hnone,hs',h',hpos'⟩ := fresh_spec h hs hlive hi hs0 hkeep hc hn
      refine ⟨_,_,slabAlloc_fresh hcache hfind heq (by omega),Or.inr ⟨hobj,hnone,free0,_,_,hs',h',?_,
        Or.inr ⟨i,hlive,rfl,rfl⟩⟩⟩
      intro d j hj
      rcases mem_update_cons.mp hj with hj | ⟨rfl,rfl⟩
      · exact Used.update hu _ n d j hj
      · exact hpos'
  · obtain ⟨i,hi,rfl⟩ := List.mem_map.mp hx
    obtain ⟨hnone,hs',h'⟩ := pop_spec hs h hi hne hn
    refine ⟨_,_,?_,Or.inr ⟨hne,hnone,free,live,slabs,hs',h',Used.update hu _ n,Or.inl ⟨rfl,rfl⟩⟩⟩
    rw [slabAlloc,if_neg hcache,hfind]
    dsimp only
    rw [← popObject_count (h.page hi) hc]
    rfl

/-- The mask of the source clears the offset of an address below `2^32`. -/
theorem pageOf_eq {base : ℕ} (halign : base%4096=0) (h1 : base≤p) (h2 : p<base+4096)
    (h32 : base+4096≤2^32) : pageOf p=base := by
  have hmask : 0xFFFFF000=(2^20-1)<<<12 := by decide
  have hshift : base=(p>>>12)<<<12 := by
    rw [Nat.shiftRight_eq_div_pow,Nat.shiftLeft_eq]
    omega
  rw [pageOf,hmask]
  apply Nat.eq_of_testBit_eq
  intro j
  rw [Nat.testBit_and,Nat.testBit_shiftLeft,hshift,Nat.testBit_shiftLeft,
    Nat.testBit_two_pow_sub_one,Nat.testBit_shiftRight]
  by_cases hj : 12≤j
  · have hidx : 12+(j-12)=j := by omega
    rw [hidx]
    by_cases hhigh : j-12<20
    · simp [hj,hhigh]
    · have hp : p<2^j := by
        have : 2^32≤2^j := Nat.pow_le_pow_right (by norm_num) (by omega)
        omega
      simp [Nat.testBit_lt_two_pow hp]
  · simp [hj]

/-- Take a slab off its list through its own links, as `slab_free` does. -/
def unlinkSlab (m : Bytes) (s : ℕ) : Bytes :=
  let m4 :=
    if load64 m (s+24)≠0 then store64 m ((load64 m (s+24)+32)%2^64) (load64 m (s+32)) else m
  if load64 m4 (s+32)≠0 then store64 m4 ((load64 m4 (s+32)+24)%2^64) (load64 m4 (s+24))
  else if load64 m (s+40)≠0 then store64 m4 ((load64 m (s+40)+8)%2^64) (load64 m4 (s+24))
  else m4

/-- A slab object is released by pushing it on its page's free list; the page
goes back to the page allocator with its last object. -/
theorem slabFree_eq (hp : p≠0) (hmagic : load32 m (pageOf p)=slabMagic) :
    slabFree L m p=
      if load32 (pushObject m (pageOf p) p) (pageOf p+4)=0 then
        buddyFree L (unlinkSlab (pushObject m (pageOf p) p) (pageOf p)) (pageOf p) 0
      else pushObject m (pageOf p) p := by
  rw [slabFree,if_neg hp]
  dsimp only
  rw [if_neg (not_not.mpr hmagic)]
  rfl

/-- Members of a slab list, the null end aside, are pages of the heap. -/
theorem listed_page {x : ℕ} (h : Slabs L m live slabs objs) (hx : x∈(slabs c).map frameToAddr) :
    x+48≤2^32 ∧ ∃ j, j∈slabs c ∧ x=frameToAddr j := by
  obtain ⟨j,hj,rfl⟩ := List.mem_map.mp hx
  have := (frame_bounds (h.inside hj)).2.1
  simp only [frameSize] at this
  exact ⟨by omega,j,hj,rfl⟩

/-- The removal of the source is the generic one. -/
theorem unlinkSlab_eq (h : Slabs L m live slabs objs) (hi : i∈slabs c) :
    unlinkSlab m (frameToAddr i)=unlink slabLinks m (cacheAddr L c+8) (frameToAddr i) := by
  have hc := h.cache_lt hi
  obtain ⟨before,after,hsplit⟩ := List.append_of_mem hi
  have hl := h.listed c hc
  have hmem : ∀ {x}, x∈before.map frameToAddr ∨ x∈after.map frameToAddr →
      x∈(slabs c).map frameToAddr := by
    intro x hx
    rw [hsplit,List.map_append,List.map_cons]
    simp only [List.mem_append,List.mem_cons]
    tauto
  have hafter : ∀ {x}, x∈after.map frameToAddr → x+48≤frameToAddr i ∨ frameToAddr i+48≤x := by
    intro x hx
    obtain ⟨_,j,hj,rfl⟩ := listed_page h (hmem (Or.inr hx))
    have hne : j≠i := by
      rintro rfl
      have hnd := h.nodup c
      rw [hsplit] at hnd
      obtain ⟨l,hl,hlj⟩ := List.mem_map.mp hx
      have hli : l=j := by
        simp only [frameToAddr_eq] at hlj
        omega
      rw [hli] at hl
      exact (List.nodup_cons.mp (List.nodup_append.mp hnd).2.1).1 hl
    simp only [frameToAddr_eq]
    omega
  rw [hsplit,List.map_append,List.map_cons] at hl
  obtain ⟨hprev,hnext⟩ := hl.neighbours
  have hprev' : load64 m (frameToAddr i+32)=(before.map frameToAddr).getLastD 0 := hprev
  have hnext' : load64 m (frameToAddr i+24)=(after.map frameToAddr).headD 0 := hnext
  have hcache : load64 m (frameToAddr i+40)=cacheAddr L c := (h.page hi).cache
  have hrec := L.caches_pos
  have hrec' := L.caches_bound
  have hc' : c<8 := hc
  simp only [cacheCount,cacheRecord] at hrec'
  rw [unlink_eq_swap hl,unlinkSlab,hnext',hprev',hcache]
  have hstore : (if (after.map frameToAddr).headD 0≠0 then
      store64 m (((after.map frameToAddr).headD 0+32)%2^64) ((before.map frameToAddr).getLastD 0)
      else m)=
      if (after.map frameToAddr).headD 0≠0 then
        store64 m ((after.map frameToAddr).headD 0+slabLinks.prev)
          ((before.map frameToAddr).getLastD 0) else m := by
    by_cases hz : (after.map frameToAddr).headD 0=0
    · rw [if_neg (not_not.mpr hz),if_neg (not_not.mpr hz)]
    · have hb := (listed_page h (hmem (Or.inr (headD_mem hz)))).1
      rw [if_pos hz,if_pos hz,Nat.mod_eq_of_lt (by omega)]
      rfl
  have hkeep : ∀ b, frameToAddr i≤b → b+8≤frameToAddr i+48 →
      load64 (if (after.map frameToAddr).headD 0≠0 then
        store64 m ((after.map frameToAddr).headD 0+slabLinks.prev)
          ((before.map frameToAddr).getLastD 0) else m) b=load64 m b := by
    intro b h1 h2
    have hp : slabLinks.prev=32 := rfl
    split
    · next hz =>
      have := hafter (headD_mem hz)
      exact load64_store64_disjoint (by omega)
    · rfl
  rw [hstore,hkeep _ (by omega) (by omega),hkeep _ (by omega) (by omega),hnext',hprev']
  unfold setSuccessor
  by_cases hx : (before.map frameToAddr).getLastD 0=0
  · rw [if_neg (not_not.mpr hx),if_pos hx]
    have hne : cacheAddr L c≠0 := by
      simp only [cacheAddr]
      omega
    rw [if_pos hne,Nat.mod_eq_of_lt]
    simp only [cacheAddr,cacheRecord]
    omega
  · have hb := (listed_page h (hmem (Or.inl (getLastD_mem hx)))).1
    rw [if_pos hx,if_neg hx,Nat.mod_eq_of_lt (by omega)]
    rfl

/-- Unlisting a page writes cache records and listed pages only. -/
theorem unlinkSlab_frame {a : ℕ} (h : Slabs L m live slabs objs) (hi : i∈slabs c)
    (hca : ¬CacheByte L a) (hpages : ∀ j∈slabs c, ¬PageByte j a) :
    unlink slabLinks m (cacheAddr L c+8) (frameToAddr i) a=m a := by
  have hc := h.cache_lt hi
  have hspan : slabLinks.span=48 := rfl
  refine unlink_map_frame (h.listed c hc) hi ?_ fun j hj => ?_
  · by_contra hh
    exact hca (cacheByte_head hc (by omega) (by omega))
  · have := hpages j hj
    simp only [PageByte,frameSize] at this
    omega

/-- A slab release leaves the pages alone or gives one page back. -/
def Shrunk (live : LiveMap) (slabs : ℕ → List ℕ) (live' : LiveMap) (slabs' : ℕ → List ℕ) : Prop :=
  live'=live ∧ slabs'=slabs ∨
    ∃ c i, i∈slabs c ∧ live'=Function.update live i none ∧
      slabs'=Function.update slabs c ((slabs c).erase i)

/-- Returning an object, before the page is looked at. -/
theorem push_spec (hs : Sound L m free live none) (h : Slabs L m live slabs objs) (hi : i∈slabs c)
    (hslot : p∈slots c (frameToAddr i)) (hp : objs p=some n) :
    Sound L (pushObject m (frameToAddr i) p) free live none ∧
      Slabs L (pushObject m (frameToAddr i) p) live slabs (Function.update objs p none) := by
  have hc := h.cache_lt hi
  have hsize := (cacheSize_bounds hc).1
  have hle : frameToAddr i+frameSize≤2^64 := by
    have := (frame_bounds (h.inside hi)).2.1
    omega
  obtain ⟨hpage,_⟩ := (h.page hi).push hc hle hslot hp
  have hout : ∀ a, ¬PageByte i a → pushObject m (frameToAddr i) p a=m a := by
    intro a ha
    have hb := slot_bounds hslot
    simp only [PageByte,frameSize,slabHeader] at ha hb
    exact pushObject_frame (by omega) (by omega) (by omega)
  refine ⟨sound_of_slabs hs fun a ha _ => hout a (ha i false (h.live hi)),
    h.update_page hi hout ?_ ?_ ?_ hpage⟩
  · intro a h1 h2
    have hb := (slot_bounds hslot).1
    simp only [slabHeader] at hb
    exact pushObject_frame (by omega) (by omega) (by omega)
  · intro q hq
    refine Function.update_of_ne ?_ _ _
    rintro rfl
    exact hq hslot
  · intro q k hq hk
    by_cases hqp : q=p
    · rw [hqp,Function.update_self] at hk
      cases hk
    · rw [Function.update_of_ne hqp] at hk
      obtain ⟨d,j,hj,hq',hd⟩ := h.object hk
      obtain rfl := slot_page (h.cache_lt hj) hc hq' hq
      rw [h.unique hj hi] at hd
      exact hd

/-- The other slabs of the heap stay in use when an object is returned. -/
theorem Used.drop_object {j d : ℕ} (hu : Used slabs objs) (h : Slabs L m live slabs objs)
    (hi : i∈slabs c) (hslot : p∈slots c (frameToAddr i)) (hj : j∈slabs d) (hji : j≠i) :
    0<(liveSlots (Function.update objs p none) d (frameToAddr j)).length := by
  obtain ⟨q,hq⟩ := List.length_pos_iff_exists_mem.mp (hu d j hj)
  obtain ⟨hq1,k,hk⟩ := mem_liveSlots.mp hq
  refine List.length_pos_iff_exists_mem.mpr ⟨q,mem_liveSlots.mpr ⟨hq1,k,?_⟩⟩
  rw [Function.update_of_ne]
  · exact hk
  · rintro rfl
    exact hji (slot_page (h.cache_lt hj) (h.cache_lt hi) hq1 hslot)

/-- Releasing a block that is no slab page does not disturb the slab layer. -/
theorem Slabs.of_released {addr : ℕ} (h : Slabs L m live slabs objs)
    (hs : Sound L m free live none) (hr : Released L m live addr m')
    (hnew : ∀ d i, i∈slabs d → frameToAddr i≠addr) :
    Slabs L m' (releaseAt live addr) slabs objs := by
  obtain ⟨free',hs',_⟩ := Released.sound hs hr
  have hlive : ∀ d j, j∈slabs d → releaseAt live addr j=some (0,false) := by
    intro d j hj
    rw [releaseAt,if_neg (hnew d j hj)]
    exact h.live hj
  refine h.transport ?_ ?_ hlive
  · intro a ha
    exact hr.safe hs (safe_of_write hs' (Or.inr (foreign_of_cacheByte ha)))
  · intro d j hj a ha
    exact hr.safe hs (safe_of_write hs' (Or.inl (owned_of_pageByte (hlive d j hj) ha)))

/-- The page of an object, as the source computes it. -/
theorem pageOf_slot (hc : c<cacheCount) (hi : i<frameCount) (hslot : p∈slots c (frameToAddr i)) :
    pageOf p=frameToAddr i ∧ heapPhys≤p ∧ p<heapPhys+heapSize := by
  have hsize := (cacheSize_bounds hc).1
  obtain ⟨_,hend,halign⟩ := frame_bounds hi
  obtain ⟨hlow,hhigh⟩ := slot_bounds hslot
  have hi' : i<16384 := hi
  simp only [slabHeader,frameSize] at hlow hhigh hend
  refine ⟨pageOf_eq halign (by omega) (by omega) hend,?_,?_⟩
  · simp only [frameToAddr_eq,heapPhys] at hlow ⊢
    omega
  · simp only [frameToAddr_eq,heapPhys,heapSize] at hhigh ⊢
    omega

/-- Releasing a live object frees its slot, and its page when it was the last
object there. -/
theorem slabFree_spec (hs : Sound L m free live none) (h : Slabs L m live slabs objs)
    (hu : Used slabs objs) (hp : objs p=some n) :
    ∃ free' live' slabs', Sound L (slabFree L m p) free' live' none ∧
      Slabs L (slabFree L m p) live' slabs' (Function.update objs p none) ∧
      Used slabs' (Function.update objs p none) ∧ Shrunk live slabs live' slabs' := by
  obtain ⟨c,i,hi,hslot,_⟩ := h.object hp
  have hc := h.cache_lt hi
  obtain ⟨hpage,hlow,_⟩ := pageOf_slot hc (h.inside hi) hslot
  have hp0 : p≠0 := by
    simp only [heapPhys] at hlow
    omega
  obtain ⟨hs',h'⟩ := push_spec hs h hi hslot hp
  have hcount := (h'.page hi).inUse
  have heq := slabFree_eq (L:=L) hp0 (by rw [hpage]; exact (h.page hi).magic)
  rw [hpage,hcount] at heq
  by_cases hlast : (liveSlots (Function.update objs p none) c (frameToAddr i)).length=0
  · rw [if_pos hlast,unlinkSlab_eq h' hi] at heq
    have hnone : ∀ q∈slots c (frameToAddr i), Function.update objs p none q=none := by
      intro q hq
      cases hk : Function.update objs p none q with
      | none => rfl
      | some k =>
        have hmem : q∈liveSlots (Function.update objs p none) c (frameToAddr i) :=
          mem_liveSlots.mpr ⟨hq,k,hk⟩
        rw [List.length_eq_zero_iff.mp hlast] at hmem
        cases hmem
    have hdrop := h'.drop hi hnone
    have hsound : Sound L (unlink slabLinks (pushObject m (frameToAddr i) p) (cacheAddr L c+8)
        (frameToAddr i)) free live none := by
      refine sound_of_slabs hs' fun a ha hca => ?_
      exact unlinkSlab_frame h' hi hca fun j hj => ha j false (h'.live hj)
    have hli := h.live hi
    have hnew : ∀ d j, j∈Function.update slabs c ((slabs c).erase i) d →
        frameToAddr j≠frameToAddr i := by
      intro d j hj haddr
      obtain ⟨hj1,hj2⟩ := (mem_update_erase (h.nodup c)).mp hj
      obtain rfl : j=i := by
        simp only [frameToAddr_eq] at haddr
        omega
      exact hj2 ⟨rfl,h.unique hj1 hi⟩
    have hrel : Released L (unlink slabLinks (pushObject m (frameToAddr i) p) (cacheAddr L c+8)
        (frameToAddr i)) live (frameToAddr i) (slabFree L m p) :=
      Or.inr ⟨i,0,false,rfl,hli,heq.trans (buddyFree_live hsound hli)⟩
    obtain ⟨free',hs'',_⟩ := Released.sound hsound hrel
    refine ⟨free',_,_,hs'',Slabs.of_released hdrop hsound hrel hnew,?_,
      Or.inr ⟨c,i,hi,releaseAt_frame live i,rfl⟩⟩
    intro d j hj
    obtain ⟨hj1,hj2⟩ := (mem_update_erase (h.nodup c)).mp hj
    refine Used.drop_object hu h hi hslot hj1 ?_
    rintro rfl
    exact hj2 ⟨rfl,h.unique hj1 hi⟩
  · rw [if_neg hlast] at heq
    rw [heq]
    refine ⟨free,live,slabs,hs',h',?_,Or.inl ⟨rfl,rfl⟩⟩
    intro d j hj
    by_cases hji : j=i
    · subst hji
      rw [h.unique hj hi]
      omega
    · exact Used.drop_object hu h hi hslot hj hji

/-- `kfree` of a live object is a slab release. -/
theorem kfree_object (h : Slabs L m live slabs objs) (hp : objs p=some n) :
    kfree L m p=slabFree L m p := by
  obtain ⟨c,i,hi,hslot,_⟩ := h.object hp
  obtain ⟨hpage,hlow,hhigh⟩ := pageOf_slot (h.cache_lt hi) (h.inside hi) hslot
  have hp0 : p≠0 := by
    simp only [heapPhys] at hlow
    omega
  have hwin : ¬(p<heapPhys ∨ p≥heapPhys+heapSize) := by omega
  rw [kfree,if_neg hp0,if_neg hwin,hpage,if_pos (h.page hi).magic]

/-- A small `kmalloc` is an allocation from the serving cache. -/
theorem kmalloc_small {size : ℕ} (h : Slabs L m live slabs objs) (hpos : 1 ≤ size)
    (hsmall : size≤2047) :
    ∃ c, cacheFor size=some c ∧ kmalloc L m size=slabAlloc L m (cacheAddr L c) := by
  obtain ⟨c,hc⟩ := @cacheFrom_isSome (if size<16 then 16 else size) 0
    cacheCount (by split <;> omega) (by omega) (by norm_num)
  refine ⟨c,hc,?_⟩
  rw [kmalloc,if_neg (by omega)]
  dsimp only
  rw [if_neg (by split <;> omega),findCache_eq h.sizes cacheCount (by omega),hc]

end OvsbMk.SlabOperations
