import OvsbMk.SlabRuns

/-!
# Sizes of allocations

The regions that the allocation calls hand out against the sizes they were asked for.
Requests are rounded to pages in 64-bit arithmetic, so the highest ones become one page;
the product of a count and a size is not checked.
-/

namespace OvsbMk.AllocationSizes

open ByteMemory KernelMemory Chains BuddyFreeLists BuddyInvariant BuddyOperations SlabPages
  SlabInvariant SlabOperations SlabRuns
open BuddyRuns (granted kmalloc_large buddyAlloc_initial memoryInit_sound)

/-- Write zeros from an address on. -/
def zeroBytes (m : Bytes) (p : ℕ) : ℕ → Bytes
  | 0 => m
  | i+1 => Function.update (zeroBytes m p i) (p+i) 0

variable {L : Layout}

variable (L) in
/-- The size that `kcalloc` computes again for the loop that clears. -/
def allocSize (m : Bytes) (total : ℕ) : ℕ :=
  if total<2048 then
    match findCache L m total cacheCount 0 with
    | some i => load64 m (cacheAddr L i)
    | none => total
  else 1<<<orderFor (pagesFor total) 64 0*frameSize%2^64

variable (L) in
/-- Allocate cleared memory for a number of objects. -/
def kcalloc (m : Bytes) (count size : ℕ) : Option (ℕ×Bytes) :=
  let total := count*size%2^64
  match kmalloc L m total with
  | none => none
  | some (p,m') => if p=0 then some (0,m') else some (p,zeroBytes m' p (allocSize L m' total))

/-- What the owners hold after a kernel allocation. -/
def taken (s : State) (size : ℕ) (r : ℕ×Bytes) : State :=
  if size<2048 then ⟨r.2,s.blocks,served s.objects r.1 size⟩
  else ⟨r.2,granted s.blocks r.1 (orderFor (pagesFor size) 64 0) false,s.objects⟩

variable (L) in
/-- A kernel allocation on a state. -/
def kmallocCall (s : State) (size : ℕ) : Option (ℕ×State) :=
  (kmalloc L s.memory size).map fun r => (r.1,taken s size r)

variable (L) in
/-- A cleared allocation on a state. -/
def kcallocCall (s : State) (count size : ℕ) : Option (ℕ×State) :=
  (kcalloc L s.memory count size).map fun r => (r.1,taken s (count*size%2^64) r)

variable (L) in
/-- A user mapping on a state. -/
def mmapUserCall (s : State) (length : ℕ) : ℕ×State :=
  ((mmapUser L s.memory length).1,⟨(mmapUser L s.memory length).2,
    granted s.blocks (mmapUser L s.memory length).1
      (orderFor (if pagesFor length=0 then 1 else pagesFor length) 64 0) true,s.objects⟩)

/-- An owner holds a region of some size from an address on. -/
inductive Region (s : State) (p : ℕ) : ℕ → Prop
  /-- A small object. -/
  | object (n : ℕ) (hlive : s.objects p=some n) : Region s p (objectSize n)
  /-- A block of pages. -/
  | block (i k : ℕ) (user : Bool) (hp : p=frameToAddr i) (hlive : s.blocks i=some (k,user)) :
    Region s p (frameSize*2^k)

variable {s s' : State} {m m' : Bytes} {free : ℕ → List ℕ} {live : LiveMap}
  {slabs : ℕ → List ℕ} {objs : ObjectMap} {c n p : ℕ}

/-- The cleared bytes are zero, and no others change. -/
theorem zeroBytes_apply (m : Bytes) (p count a : ℕ) :
    zeroBytes m p count a=if p ≤ a ∧ a<p+count then 0 else m a := by
  induction count with
  | zero => rw [if_neg (by omega)]; rfl
  | succ count ih =>
    rw [zeroBytes,Function.update_apply,ih]
    split_ifs <;> first | rfl | omega

/-- The order found holds the pages, unless the steps have run out. -/
theorem orderFor_enough (pages fuel order : ℕ) :
    pages≤2^orderFor pages fuel order ∨ orderFor pages fuel order=order+fuel := by
  induction fuel generalizing order with
  | zero => exact Or.inr rfl
  | succ fuel ih =>
    rw [orderFor]
    split_ifs with h
    · rcases ih (order+1) with h' | h'
      · exact Or.inl h'
      · exact Or.inr (by omega)
    · rw [Nat.one_shiftLeft] at h
      exact Or.inl (by omega)

/-- No larger order is found than one that holds the pages. -/
theorem orderFor_le {pages k : ℕ} (h : pages≤2^k) {fuel order : ℕ} (ho : order≤k) :
    orderFor pages fuel order≤k := by
  induction fuel generalizing order with
  | zero => exact ho
  | succ fuel ih =>
    rw [orderFor]
    split_ifs with hlt
    · refine ih (Nat.lt_of_le_of_ne ho ?_)
      rintro rfl
      rw [Nat.one_shiftLeft] at hlt
      omega
    · exact ho

/-- Requests that do not wrap around get as many pages as they need. -/
theorem pagesFor_eq {size : ℕ} (h : size≤2^64-4096) :
    size≤frameSize*pagesFor size ∧ frameSize*pagesFor size<size+frameSize := by
  simp only [pagesFor,frameSize]
  omega

/-- Requests that wrap around get no page. -/
theorem pagesFor_wrap {size : ℕ} (h : 2^64-4096<size) (hsize : size<2^64) : pagesFor size=0 := by
  simp only [pagesFor,frameSize]
  omega

/-- A block of the order found for a request that does not wrap around. -/
theorem orderFor_size {size : ℕ} (h : size≤2^64-4096) (ho : orderFor (pagesFor size) 64 0 ≤ maxOrder) :
    size≤frameSize*2^orderFor (pagesFor size) 64 0 := by
  have hpages := (pagesFor_eq h).1
  rcases orderFor_enough (pagesFor size) 64 0 with hle | hfuel
  · exact hpages.trans (Nat.mul_le_mul_left _ hle)
  · simp only [maxOrder] at ho
    omega

/-- A page is found for no page. -/
theorem orderFor_none : orderFor 0 64 0=0 :=
  Nat.le_zero.mp (orderFor_le (Nat.zero_le _) le_rfl)

/-- An allocation that gives a block is of an order of the allocator. -/
theorem buddyAlloc_order {k : ℕ} {user : Bool} (h : (buddyAlloc L m k user).1≠0) : k ≤ maxOrder := by
  by_contra hbig
  rw [buddyAlloc,if_pos (Or.inr (by omega))] at h
  exact h rfl

/-- The block that an allocation gives is held. -/
theorem granted_block (hs : Sound L m free live none) (blocks : LiveMap) {k : ℕ} {user : Bool}
    (h : (buddyAlloc L m k user).1≠0) :
    ∃ i, (buddyAlloc L m k user).1=frameToAddr i ∧
      granted blocks (buddyAlloc L m k user).1 k user i=some (k,user) := by
  rcases buddyAlloc_cases hs k user with ⟨heq,_⟩ | ⟨i,m',_,_,_,heq,hi,_⟩
  · rw [heq] at h
    exact (h rfl).elim
  · refine ⟨i,by rw [heq],?_⟩
    rw [granted,if_neg h,heq,addrToFrame_frameToAddr hi,Function.update_self]

/-- Bytes that a kernel allocation gives. -/
def grantedSize (size : ℕ) : ℕ :=
  if size<2048 then objectSize size else frameSize*2^orderFor (pagesFor size) 64 0

/-- Small requests are served by a cache. -/
theorem cacheFor_small (h : n<2048) : ∃ c, cacheFor n=some c :=
  cacheFrom_isSome (by split <;> omega) rfl (by norm_num)

/-- Requests that do not wrap around get as many bytes as they need. -/
theorem le_grantedSize {size : ℕ} (h : size≤2^64-4096)
    (ho : 2048 ≤ size → orderFor (pagesFor size) 64 0 ≤ maxOrder) : size≤grantedSize size := by
  rw [grantedSize]
  split_ifs with hsmall
  · obtain ⟨c,hc⟩ := cacheFor_small hsmall
    rw [objectSize_eq hc]
    exact (cacheFor_spec hc).2
  · exact orderFor_size h (ho (by omega))

/-- What a kernel allocation gives belongs to the caller, and the run goes on. -/
theorem kmallocCall_spec {size : ℕ} (hsize : size<2^64) (hreach : Reachable L s)
    (hcall : kmallocCall L s size=some (p,s')) (hp : p≠0) :
    size≠0 ∧ Reachable L s' ∧ Region s' p (grantedSize size) ∧
      (2048 ≤ size → orderFor (pagesFor size) 64 0 ≤ maxOrder) := by
  obtain ⟨⟨p',m'⟩,hk,hr⟩ := Option.map_eq_some_iff.mp hcall
  obtain ⟨rfl,rfl⟩ := Prod.mk.inj hr
  have hzero : size≠0 := by
    rintro rfl
    rw [kmalloc,if_pos rfl] at hk
    exact hp (Prod.mk.inj (Option.some.inj hk)).1.symm
  obtain ⟨m,hrun⟩ := hreach
  refine ⟨hzero,?_⟩
  rcases Nat.lt_or_ge size 2048 with hsmall | hlarge
  · simp only [taken,grantedSize,if_pos hsmall]
    refine ⟨⟨m,hrun.tail (Step.kmalloc s size p' m' (by omega) (by omega) hk)⟩,?_,by omega⟩
    exact Region.object size (by simp only [served,if_neg hp,Function.update_self])
  · have hnot : ¬size<2048 := by omega
    simp only [taken,grantedSize,if_neg hnot]
    refine ⟨⟨m,hrun.tail (Step.kmallocPages s size p' m' hlarge hsize hk)⟩,?_⟩
    rw [kmalloc_large hlarge] at hk
    obtain ⟨rfl,rfl⟩ := Prod.mk.inj (Option.some.inj hk)
    obtain ⟨free,live,slabs,hs,_⟩ := Reachable.consistent ⟨m,hrun⟩
    obtain ⟨i,hi,hblock⟩ := granted_block hs s.blocks hp
    exact ⟨Region.block i _ false hi hblock,fun _ => buddyAlloc_order hp⟩

/-- The region of an owner fits into the heap. -/
theorem region_le (hreach : Reachable L s) (h : Region s p n) : n≤heapSize := by
  obtain ⟨free,live,slabs,hs,hslabs,_,hj⟩ := hreach.consistent
  cases h with
  | object k hlive =>
    obtain ⟨c,i,hi,_,hc⟩ := hslabs.object hlive
    rw [objectSize_eq hc]
    exact (cacheSize_bounds (cacheFor_spec hc).1).2.trans (by norm_num)
  | block i k user hp hlive =>
    have hk := hs.live_order (hj.live_of_block hlive)
    have hpow : 2^k≤2^14 := Nat.pow_le_pow_right (by norm_num) hk
    simp only [heapSize,frameSize]
    omega

/-- `kcalloc` computes the size that has been given. -/
theorem allocSize_eq {size : ℕ} (hreach : Reachable L s)
    (ho : 2048 ≤ size → orderFor (pagesFor size) 64 0 ≤ maxOrder) :
    allocSize L s.memory size=grantedSize size := by
  obtain ⟨free,live,slabs,_,hslabs,_⟩ := hreach.consistent
  rw [allocSize,grantedSize]
  split_ifs with hsmall
  · obtain ⟨c,hc⟩ := cacheFor_small hsmall
    have hfind : findCache L s.memory size cacheCount 0=some c := by
      rw [findCache_eq hslabs.sizes cacheCount (by omega)]
      rw [cacheFor] at hc
      split_ifs at hc with h16
      · have hfirst : cacheFrom 16 cacheCount 0=some 0 := by decide
        have hle : cacheSize 0≥size := le_of_lt h16
        rw [hfirst] at hc
        rw [← hc]
        exact if_pos hle
      · exact hc
    rw [hfind,objectSize_eq hc]
    exact hslabs.sizes c (cacheFor_spec hc).1
  · have hk := ho (by omega)
    have hpow : 2^orderFor (pagesFor size) 64 0≤2^14 := Nat.pow_le_pow_right (by norm_num) hk
    rw [Nat.one_shiftLeft,Nat.mul_comm,Nat.mod_eq_of_lt (by simp only [frameSize]; omega)]

/-- The bytes of a region are its owner's. -/
theorem Region.owner {a : ℕ} (h : Region s p n) (h1 : p≤a) (h2 : a<p+n) :
    ObjectByte s.objects a ∨ BuddyRuns.Owned s.blocks a := by
  cases h with
  | object k hlive => exact Or.inl ⟨p,k,hlive,h1,h2⟩
  | block i k user hp hlive =>
    refine Or.inr ⟨i,k,user,hlive,?_⟩
    simp only [BuddyRuns.BlockByte,frameToAddr_eq,frameSize] at *
    omega

/-- Clearing a region is a run of writes of its owner. -/
theorem zeroBytes_reachable (hreach : Reachable L s) (h : Region s p n) {count : ℕ}
    (hcount : count≤n) : Reachable L ⟨zeroBytes s.memory p count,s.blocks,s.objects⟩ := by
  induction count with
  | zero => exact hreach
  | succ count ih =>
    obtain ⟨m,hrun⟩ := ih (by omega)
    refine ⟨m,hrun.tail (Step.write ⟨zeroBytes s.memory p count,s.blocks,s.objects⟩ (p+count) 0 ?_)⟩
    rcases h.owner (a:=p+count) (by omega) (by omega) with ho | ho
    · exact Or.inl ho
    · exact Or.inr (Or.inl ho)

/-- A region depends on what is held only. -/
theorem Region.congr (h : Region s p n) (hb : s'.blocks=s.blocks) (ho : s'.objects=s.objects) :
    Region s' p n := by
  cases h with
  | object k hlive => exact Region.object k (ho ▸ hlive)
  | block i k user hp hlive => exact Region.block i k user hp (hb ▸ hlive)

/-- A cleared allocation is a kernel allocation whose whole region is cleared. -/
theorem kcallocCall_spec {count size : ℕ} (hreach : Reachable L s)
    (hcall : kcallocCall L s count size=some (p,s')) (hp : p≠0) :
    ∃ t, kmallocCall L s (count*size%2^64)=some (p,t) ∧ s'.blocks=t.blocks ∧ s'.objects=t.objects ∧
      allocSize L t.memory (count*size%2^64)=grantedSize (count*size%2^64) ∧
      s'.memory=zeroBytes t.memory p (grantedSize (count*size%2^64)) := by
  obtain ⟨⟨p',m'⟩,hk,hr⟩ := Option.map_eq_some_iff.mp hcall
  obtain ⟨rfl,rfl⟩ := Prod.mk.inj hr
  rw [kcalloc] at hk
  cases hm : kmalloc L s.memory (count*size%2^64) with
  | none =>
    rw [hm] at hk
    cases hk
  | some r =>
    obtain ⟨q,m⟩ := r
    rw [hm] at hk
    dsimp only at hk
    split_ifs at hk with hq
    · exact (hp (Prod.mk.inj (Option.some.inj hk)).1.symm).elim
    · obtain ⟨rfl,rfl⟩ := Prod.mk.inj (Option.some.inj hk)
      have hcall' : kmallocCall L s (count*size%2^64)=some (q,taken s (count*size%2^64) (q,m)) := by
        rw [kmallocCall,hm]
        rfl
      have htotal : count*size%2^64<2^64 := Nat.mod_lt _ (by norm_num)
      obtain ⟨_,hreach',_,ho⟩ := kmallocCall_spec htotal hreach hcall' hp
      have hmem : (taken s (count*size%2^64) (q,m)).memory=m := by
        rw [taken]
        split_ifs <;> rfl
      have hsize := allocSize_eq hreach' ho
      refine ⟨_,hcall',?_,?_,hsize,?_⟩
      · simp only [taken]
        split_ifs <;> rfl
      · simp only [taken]
        split_ifs <;> rfl
      · rw [← hsize,hmem]
        simp only [taken]
        split_ifs <;> rfl

/-- The run goes on after a cleared allocation. -/
theorem kcallocCall_reachable {count size : ℕ} (hreach : Reachable L s)
    (hcall : kcallocCall L s count size=some (p,s')) (hp : p≠0) : Reachable L s' := by
  obtain ⟨t,hk,hb,ho,_,hm⟩ := kcallocCall_spec hreach hcall hp
  obtain ⟨_,hreach',hregion,_⟩ := kmallocCall_spec (Nat.mod_lt _ (by norm_num)) hreach hk hp
  have hclear := zeroBytes_reachable hreach' hregion le_rfl
  rw [← hm,← hb,← ho] at hclear
  exact hclear

/-- A fresh heap has a block of every order. -/
theorem buddyAlloc_fresh (L : Layout) (m : Bytes) {k : ℕ} (hk : k ≤ maxOrder) (user : Bool) :
    (buddyAlloc L (memoryInit L m) k user).1≠0 := by
  rcases buddyAlloc_cases (memoryInit_sound L m) k user with
    ⟨_,hneg | hbig | hnil⟩ | ⟨i,_,_,_,_,heq,hi,_⟩
  · omega
  · omega
  · have hlast := hnil maxOrder (by omega)
    simp [BuddyRuns.initialFree] at hlast
  · have hpos := (frame_bounds hi).1
    rw [heq]
    omega

/-- An object is missing only when there is no page for it. -/
theorem slabAlloc_null (hs : Sound L m free live none) (h : Slabs L m live slabs objs)
    (hc : cacheFor n=some c) (hnull : slabAlloc L m (cacheAddr L c)=some (0,m')) :
    (buddyAlloc L m 0 false).1=0 := by
  have hcount := (cacheFor_spec hc).1
  have hcache : cacheAddr L c≠0 := by
    have hpos := L.caches_pos
    simp only [cacheAddr]
    omega
  have hlen : ((slabs c).map frameToAddr).length<frameCount+1 := by
    rw [List.length_map]
    exact Nat.lt_succ_of_le (length_le_of_lt (h.nodup c) fun i hi => h.inside hi)
  rcases findSlab_cases (frameCount+1) (h.listed c hcount).chain hlen with
    ⟨hfind,_⟩ | ⟨x,_,hfind,hne⟩
  · rcases buddyAlloc_cases hs 0 false with ⟨heq,_⟩ | ⟨i,m0,free0,_,_,heq,hi,hlive,_,hs0,_⟩
    · rw [heq]
    · have hpos := (frame_bounds hi).1
      have hkeep : ∀ a, Safe L live a → m0 a=m a := by
        intro a ha
        have hsafe := buddyAlloc_safe hs 0 false ha
        rwa [heq] at hsafe
      have hobj := (fresh_spec h hs hlive hi hs0 hkeep hcount hc).1
      rw [slabAlloc_fresh hcache hfind heq (by omega)] at hnull
      exact (hobj (Prod.mk.inj (Option.some.inj hnull)).1).elim
  · rw [slabAlloc,if_neg hcache,hfind] at hnull
    exact (hne (Prod.mk.inj (Option.some.inj hnull)).1).elim

/-- The order found for a request that fits into the heap, or wraps around. -/
theorem orderFor_heap {size : ℕ} (hsize : size<2^64) (h : size≤heapSize ∨ 2^64-4096<size) :
    orderFor (pagesFor size) 64 0 ≤ maxOrder := by
  refine orderFor_le ?_ (Nat.zero_le _)
  rcases h with h | h
  · have hpages := (pagesFor_eq (by simp only [heapSize] at h; omega : size ≤ 2^64-4096)).2
    simp only [heapSize,frameSize,maxOrder] at *
    omega
  · rw [pagesFor_wrap h hsize]
    exact Nat.zero_le _

/-- A fresh heap serves requests that fit into it, and those that wrap around. -/
theorem kmallocCall_fresh (L : Layout) (m : Bytes) {size : ℕ} (hzero : size≠0) (hsize : size<2^64)
    (h : size≤heapSize ∨ 2^64-4096<size) :
    ∃ p t, kmallocCall L (initial L m) size=some (p,t) ∧ p≠0 := by
  rcases Nat.lt_or_ge size 2048 with hsmall | hlarge
  · obtain ⟨free,live,slabs,hs,hslabs,hu,_⟩ := initial_consistent L m
    obtain ⟨c,hc,heq⟩ := kmalloc_small hslabs (by omega : 1 ≤ size) (by omega)
    obtain ⟨p,m',hcall,_⟩ := slabAlloc_spec hs hslabs hu hc
    refine ⟨p,_,by rw [kmallocCall,heq,hcall]; rfl,?_⟩
    rintro rfl
    exact buddyAlloc_fresh L m (Nat.zero_le _) false (slabAlloc_null hs hslabs hc hcall)
  · refine ⟨_,_,by rw [kmallocCall,kmalloc_large hlarge]; rfl,?_⟩
    exact buddyAlloc_fresh L m (orderFor_heap hsize h) false

/-- When nothing else is held, a region is the block that was just granted. -/
theorem region_granted {addr k : ℕ} {user : Bool}
    (h : Region ⟨m,granted (fun _ => none) addr k user,fun _ => none⟩ p n) : n=frameSize*2^k := by
  cases h with
  | object _ hlive => cases hlive
  | block i k' user' hp hlive =>
    simp only [granted] at hlive
    split_ifs at hlive
    rw [Function.update_apply] at hlive
    split_ifs at hlive
    obtain ⟨rfl,-⟩ := Prod.mk.inj (Option.some.inj hlive)
    rfl

/-- A request that wraps around gets one page of a fresh heap. -/
theorem kmallocCall_wrap {size : ℕ} {t : State} (h : 2^64-4096<size) (hsize : size<2^64)
    (hcall : kmallocCall L (initial L m) size=some (p,t)) (hregion : Region t p n) : n=frameSize := by
  have hlarge : 2048 ≤ size := by omega
  rw [kmallocCall,kmalloc_large hlarge] at hcall
  obtain ⟨rfl,rfl⟩ := Prod.mk.inj (Option.some.inj hcall)
  rw [pagesFor_wrap h hsize,orderFor_none] at hregion
  have hnot : ¬size<2048 := by omega
  simp only [taken,if_neg hnot,pagesFor_wrap h hsize,orderFor_none,initial] at hregion
  exact region_granted hregion

variable (L) in
/-- Kernel allocations of a size are as large as requested. -/
def KmallocLarge (size : ℕ) : Prop :=
  ∀ s, Reachable L s → ∀ p t, kmallocCall L s size=some (p,t) → p≠0 → ∃ n, Region t p n ∧ size≤n

variable (L) in
/-- User mappings of a length are as large as requested. -/
def MmapUserLarge (length : ℕ) : Prop :=
  ∀ s, Reachable L s → (mmapUserCall L s length).1≠0 →
    ∃ n, Region (mmapUserCall L s length).2 (mmapUserCall L s length).1 n ∧ length≤n

variable (L) in
/-- Cleared allocations are as large as the product, hold zeros only, and clear nothing
else. -/
def KcallocLarge (count size : ℕ) : Prop :=
  ∀ s, Reachable L s → ∀ p t, kcallocCall L s count size=some (p,t) → p≠0 →
    ∃ n, Region t p n ∧ count*size≤n ∧ (∀ i, i<count*size → t.memory (p+i)=0) ∧
      ∀ u, kmallocCall L s (count*size%2^64)=some (p,u) → allocSize L u.memory (count*size%2^64)≤n

/-- Kernel allocations are large enough unless the rounding wraps around. -/
theorem kmalloc_large_iff (L : Layout) {size : ℕ} (hsize : size<2^64) :
    KmallocLarge L size ↔ size≤2^64-4096 := by
  constructor
  · intro h
    by_contra hwrap
    obtain ⟨p,t,hcall,hp⟩ := kmallocCall_fresh L (fun _ => 0) (by omega : size≠0) hsize
      (Or.inr (by omega))
    obtain ⟨n,hregion,hle⟩ := h _ ⟨fun _ => 0,Relation.ReflTransGen.refl⟩ p t hcall hp
    have hn := kmallocCall_wrap (by omega) hsize hcall hregion
    simp only [frameSize] at hn
    omega
  · intro h s hreach p t hcall hp
    obtain ⟨_,_,hregion,ho⟩ := kmallocCall_spec hsize hreach hcall hp
    exact ⟨_,hregion,le_grantedSize h ho⟩

/-- User mappings are large enough unless the rounding wraps around. -/
theorem mmapUser_large_iff (L : Layout) {length : ℕ} (hlength : length<2^64) :
    MmapUserLarge L length ↔ length≤2^64-4096 := by
  constructor
  · intro h
    by_contra hwrap
    have hone : orderFor 1 64 0=0 := Nat.le_zero.mp (orderFor_le (by norm_num) le_rfl)
    have hpages := pagesFor_wrap (by omega : 2^64-4096<length) hlength
    have hcall : mmapUser L (memoryInit L fun _ => 0) length=
        buddyAlloc L (memoryInit L fun _ => 0) 0 true := by
      rw [mmapUser,hpages,if_pos rfl,hone]
      rfl
    have hne := buddyAlloc_fresh L (fun _ => 0) (Nat.zero_le maxOrder) true
    obtain ⟨n,hregion,hle⟩ := h (initial L fun _ => 0) ⟨fun _ => 0,Relation.ReflTransGen.refl⟩
      (by simp only [mmapUserCall,initial,hcall]; exact hne)
    simp only [mmapUserCall,initial,hpages,if_pos,hone] at hregion
    have hn := region_granted hregion
    simp only [frameSize,pow_zero,Nat.mul_one] at hn
    omega
  · intro h s hreach hp
    obtain ⟨free,live,slabs,hs,_⟩ := hreach.consistent
    simp only [mmapUserCall,mmapUser] at hp ⊢
    obtain ⟨i,hi,hblock⟩ := granted_block hs s.blocks hp
    refine ⟨_,Region.block i _ true hi hblock,?_⟩
    have hpages := (pagesFor_eq h).1
    have ho := buddyAlloc_order hp
    rcases orderFor_enough (if pagesFor length=0 then 1 else pagesFor length) 64 0 with hle | hfuel
    · refine hpages.trans (Nat.mul_le_mul_left _ (le_trans ?_ hle))
      split_ifs <;> omega
    · simp only [maxOrder] at ho
      omega

/-- Cleared allocations are large enough unless the product wraps around to a size that
can be had, or the rounding wraps around. -/
theorem kcalloc_large_iff (L : Layout) (count size : ℕ) :
    KcallocLarge L count size ↔ count*size≤2^64-4096 ∨ count*size%2^64=0 ∨
      heapSize<count*size%2^64 ∧ count*size%2^64≤2^64-4096 := by
  have htotal : count*size%2^64<2^64 := Nat.mod_lt _ (by norm_num)
  constructor
  · intro h
    by_contra hbad
    simp only [not_or,not_and_or,Nat.not_lt,Nat.not_le] at hbad
    obtain ⟨hbig,hzero,hserved⟩ := hbad
    obtain ⟨p,u,hk,hp⟩ := kmallocCall_fresh L (fun _ => 0) hzero htotal hserved
    have hreach : Reachable L (initial L fun _ => 0) := ⟨fun _ => 0,Relation.ReflTransGen.refl⟩
    obtain ⟨r,hr,hmap⟩ := Option.map_eq_some_iff.mp hk
    have hpr := (Prod.mk.inj hmap).1
    have hcall : ∃ t, kcallocCall L (initial L fun _ => 0) count size=some (p,t) := by
      rw [kcallocCall,kcalloc,hr]
      dsimp only
      rw [hpr,if_neg hp]
      exact ⟨_,rfl⟩
    obtain ⟨t,hcall⟩ := hcall
    obtain ⟨n,hregion,hle,_⟩ := h _ hreach p t hcall hp
    obtain ⟨u',hk',hb,ho,_⟩ := kcallocCall_spec hreach hcall hp
    have hregion' := hregion.congr hb.symm ho.symm
    obtain ⟨_,hreach',_⟩ := kmallocCall_spec htotal hreach hk' hp
    have hheap := region_le hreach' hregion'
    simp only [heapSize] at hserved hheap
    omega
  · intro h s hreach p t hcall hp
    obtain ⟨u,hk,hb,ho,hsize,hm⟩ := kcallocCall_spec hreach hcall hp
    obtain ⟨hzero,_,hregion,hord⟩ := kmallocCall_spec htotal hreach hk hp
    have hfit : count*size≤2^64-4096 := by
      rcases h with h | h | ⟨hlow,hhigh⟩
      · exact h
      · exact (hzero h).elim
      · have hle := le_grantedSize hhigh hord
        have hheap := region_le (kmallocCall_spec htotal hreach hk hp).2.1 hregion
        omega
    have hmod : count*size%2^64=count*size := Nat.mod_eq_of_lt (by omega)
    have hle : count*size≤grantedSize (count*size%2^64) := by
      have hle := le_grantedSize (by omega : count*size%2^64 ≤ 2^64-4096) hord
      rwa [hmod] at hle ⊢
    refine ⟨_,hregion.congr hb ho,hle,fun i hi => ?_,fun u' hu' => ?_⟩
    · rw [hm,zeroBytes_apply,if_pos (by omega)]
    · obtain ⟨-,rfl⟩ := Prod.mk.inj (Option.some.inj (hk.symm.trans hu'))
      exact hsize.le

/-- For which sizes the allocation calls give as much as they were asked for. -/
theorem allocations_large_iff (L : Layout) (size length count each : UInt64) :
    (KmallocLarge L size.toNat ↔ size.toNat≤2^64-4096) ∧
    (MmapUserLarge L length.toNat ↔ length.toNat≤2^64-4096) ∧
    (KcallocLarge L count.toNat each.toNat ↔ count.toNat*each.toNat≤2^64-4096 ∨
      count.toNat*each.toNat%2^64=0 ∨
      heapSize<count.toNat*each.toNat%2^64 ∧ count.toNat*each.toNat%2^64≤2^64-4096) :=
  ⟨kmalloc_large_iff L size.toNat_lt,mmapUser_large_iff L length.toNat_lt,
    kcalloc_large_iff L count.toNat each.toNat⟩

/-- The highest size gets one page, and so does a product that wraps around. -/
theorem allocations_small :
    ¬KmallocLarge BuddyRuns.sampleLayout (2^64-1) ∧
      ¬MmapUserLarge BuddyRuns.sampleLayout (2^64-1) ∧
      ¬KcallocLarge BuddyRuns.sampleLayout (2^16) (2^48+1) := by
  refine ⟨?_,?_,?_⟩
  · rw [kmalloc_large_iff _ (by norm_num)]
    norm_num
  · rw [mmapUser_large_iff _ (by norm_num)]
    norm_num
  · rw [kcalloc_large_iff]
    norm_num

end OvsbMk.AllocationSizes
