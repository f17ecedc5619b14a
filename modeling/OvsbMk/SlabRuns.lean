import OvsbMk.SlabOperations

/-!
# Runs of the kernel heap

Both layers together. A state is the memory, the page-level blocks and the
small objects that owners hold; slab pages belong to the slab layer and are
no one's block. A step is a call of `kmalloc`, `kfree` or a page-level entry
point on something live, or one byte written by an owner. In every reachable
state the small objects are disjoint from each other and from everything
else, and every slab page accounts for all of its slots.
-/

namespace OvsbMk.SlabRuns

open ByteMemory IntrusiveList KernelMemory Chains BuddyFreeLists DyadicTiling BuddyInvariant
  BuddyOperations BuddyRuns SlabPages SlabInvariant SlabOperations

/-- The memory and what owners hold of it. -/
structure State where
  /-- All memory, the allocator's data included. -/
  memory : Bytes
  /-- The live page-level blocks, slab pages excluded. -/
  blocks : LiveMap
  /-- The live small objects. -/
  objects : ObjectMap

/-- The owners' view of a small allocation: a null pointer is no object. -/
def served (objs : ObjectMap) (p size : ℕ) : ObjectMap :=
  if p=0 then objs else Function.update objs p (some size)

/-- The byte lies inside a live object. -/
def ObjectByte (objs : ObjectMap) (a : ℕ) : Prop :=
  ∃ p n, objs p=some n ∧ p≤a ∧ a<p+objectSize n

/-- One call on live memory, or one byte written by an owner. -/
inductive Step (L : Layout) : State → State → Prop
  /-- A small allocation. -/
  | kmalloc (s : State) (size p : ℕ) (m : Bytes) (hpos : 1 ≤ size) (hsmall : size≤2047)
    (hcall : kmalloc L s.memory size=some (p,m)) :
    Step L s ⟨m,s.blocks,served s.objects p size⟩
  /-- Release of a live object. -/
  | kfree (s : State) (p n : ℕ) (hlive : s.objects p=some n) :
    Step L s ⟨kfree L s.memory p,s.blocks,Function.update s.objects p none⟩
  /-- A direct page allocation. -/
  | buddyAlloc (s : State) (order : ℤ) (user : Bool) :
    Step L s ⟨(buddyAlloc L s.memory order user).2,
      granted s.blocks (buddyAlloc L s.memory order user).1 order.toNat user,s.objects⟩
  /-- A kernel allocation large enough for whole pages. -/
  | kmallocPages (s : State) (size p : ℕ) (m : Bytes) (hlarge : 2048 ≤ size) (hsize : size<2^64)
    (hcall : KernelMemory.kmalloc L s.memory size=some (p,m)) :
    Step L s ⟨m,granted s.blocks p (orderFor (pagesFor size) 64 0) false,s.objects⟩
  /-- A user mapping. -/
  | mmapUser (s : State) (length : ℕ) (hlength : length<2^64) :
    Step L s ⟨(mmapUser L s.memory length).2,granted s.blocks (mmapUser L s.memory length).1
      (orderFor (if pagesFor length=0 then 1 else pagesFor length) 64 0) true,s.objects⟩
  /-- Release of a live block that does not start with the slab mark. -/
  | kfreePages (s : State) (i k : ℕ) (user : Bool) (hlive : s.blocks i=some (k,user))
    (hmark : load32 s.memory (frameToAddr i)≠slabMagic) :
    Step L s ⟨KernelMemory.kfree L s.memory (frameToAddr i),Function.update s.blocks i none,
      s.objects⟩
  /-- Unmapping a live block. -/
  | munmapUser (s : State) (i k : ℕ) (user : Bool) (hlive : s.blocks i=some (k,user)) :
    Step L s ⟨(munmapUser L s.memory (frameToAddr i)).2,Function.update s.blocks i none,
      s.objects⟩
  /-- Unmapping everything allocated for users. -/
  | munmapAllUser (s : State) :
    Step L s ⟨munmapAllUser L s.memory,dropUser 0 s.blocks,s.objects⟩
  /-- Releasing a live page. -/
  | pageFree (s : State) (i : ℕ) (user : Bool) (hlive : s.blocks i=some (0,user)) :
    Step L s ⟨pageFree L s.memory (frameToAddr i),Function.update s.blocks i none,s.objects⟩
  /-- An owner writes a byte of its object, of its block, or of memory that is not the
  allocator's. -/
  | write (s : State) (a : ℕ) (value : UInt8)
    (howner : ObjectByte s.objects a ∨ Owned s.blocks a ∨ Foreign L a ∧ ¬CacheByte L a) :
    Step L s ⟨Function.update s.memory a value,s.blocks,s.objects⟩

/-- The state right after initialisation. -/
def initial (L : Layout) (m : Bytes) : State := ⟨memoryInit L m,fun _ => none,fun _ => none⟩

/-- The states of all finite runs. -/
def Reachable (L : Layout) (s : State) : Prop :=
  ∃ m, Relation.ReflTransGen (Step L) (initial L m) s

/-- The live blocks of the page allocator are the owners' blocks and the slab
pages, which are different blocks. -/
structure Joined (blocks live : LiveMap) (slabs : ℕ → List ℕ) : Prop where
  /-- Every live block has exactly these two kinds of owners. -/
  live_iff : ∀ i b, live i=some b ↔ blocks i=some b ∨ b=(0,false) ∧ ∃ c, i∈slabs c
  /-- No slab page is an owner's block. -/
  apart : ∀ c i, i∈slabs c → blocks i=none

/-- The invariant of a state: both layers are consistent. -/
def Consistent (L : Layout) (s : State) : Prop :=
  ∃ free live slabs, Sound L s.memory free live none ∧
    Slabs L s.memory live slabs s.objects ∧ Used slabs s.objects ∧ Joined s.blocks live slabs

variable {L : Layout} {m m' : Bytes} {free : ℕ → List ℕ} {live live' blocks : LiveMap}
  {slabs slabs' : ℕ → List ℕ} {objs : ObjectMap} {c i k p n : ℕ} {user : Bool}

/-- An owner's block is a live block. -/
theorem Joined.live_of_block (h : Joined blocks live slabs) {b : ℕ × Bool} (hb : blocks i=some b) :
    live i=some b :=
  (h.live_iff i b).mpr (Or.inl hb)

/-- A frame that starts no live block starts no owner's block. -/
theorem Joined.blocks_none (h : Joined blocks live slabs) (hn : live i=none) :
    blocks i=none := by
  cases hb : blocks i with
  | none => rfl
  | some b =>
    rw [h.live_of_block hb] at hn
    cases hn

/-- A slab page is at another address than an owner's block. -/
theorem Joined.slab_ne (h : Joined blocks live slabs) {b : ℕ × Bool} (hb : blocks i=some b) :
    ∀ d j, j∈slabs d → frameToAddr j≠frameToAddr i := by
  intro d j hd haddr
  have hji : j=i := by
    simp only [frameToAddr_eq] at haddr
    omega
  rw [←hji,h.apart d j hd] at hb
  cases hb

/-- The owners' blocks and the live ones change together at a frame that is no slab page. -/
theorem Joined.update_iff (h : Joined blocks live slabs) (hslab : ∀ c, i∉slabs c)
    (b : Option (ℕ × Bool)) (j : ℕ) (b' : ℕ × Bool) :
    Function.update live i b j=some b' ↔
      Function.update blocks i b j=some b' ∨ b'=(0,false) ∧ ∃ c, j∈slabs c := by
  by_cases hj : j=i
  · subst hj
    simp [hslab]
  · rw [Function.update_of_ne hj,Function.update_of_ne hj]
    exact h.live_iff j b'

/-- A block handed out by the page allocator joins the owners' blocks. -/
theorem Joined.grant (h : Joined blocks live slabs) (hn : live i=none) (b : ℕ × Bool) :
    Joined (Function.update blocks i (some b)) (Function.update live i (some b)) slabs := by
  have hslab : ∀ c, i∉slabs c := by
    intro c hc
    rw [(h.live_iff i (0,false)).mpr (Or.inr ⟨rfl,c,hc⟩)] at hn
    cases hn
  refine ⟨h.update_iff hslab _,?_⟩
  · intro c j hj
    have hji : j≠i := by
      rintro rfl
      exact hslab c hj
    rw [Function.update_of_ne hji]
    exact h.apart c j hj

/-- A released block leaves the owners' blocks. -/
theorem Joined.release (h : Joined blocks live slabs) {b : ℕ × Bool} (hb : blocks i=some b) :
    Joined (Function.update blocks i none) (Function.update live i none) slabs := by
  have hslab : ∀ c, i∉slabs c := by
    intro c hc
    rw [h.apart c i hc] at hb
    cases hb
  refine ⟨h.update_iff hslab _,?_⟩
  · intro c j hj
    by_cases hji : j=i
    · rw [hji,Function.update_self]
    · rw [Function.update_of_ne hji]
      exact h.apart c j hj

/-- Slab growth adds slab pages only. -/
theorem Joined.grown (h : Joined blocks live slabs) (hg : Grown live slabs c live' slabs') :
    Joined blocks live' slabs' := by
  rcases hg with ⟨rfl,rfl⟩ | ⟨i,hn,rfl,rfl⟩
  · exact h
  · refine ⟨?_,?_⟩
    · intro j b
      by_cases hj : j=i
      · subst hj
        rw [Function.update_self,h.blocks_none hn]
        constructor
        · intro hb
          exact Or.inr ⟨(Option.some.inj hb).symm,c,by simp⟩
        · rintro (hb | ⟨rfl,_⟩)
          · cases hb
          · rfl
      · rw [Function.update_of_ne hj,h.live_iff j b]
        have hmem : (∃ d, j∈slabs d) ↔ ∃ d, j∈Function.update slabs c (i::slabs c) d := by
          simp only [mem_update_cons,hj,false_and,or_false]
        rw [hmem]
    · intro d j hj
      rcases mem_update_cons.mp hj with hj | ⟨rfl,_⟩
      · exact h.apart d j hj
      · exact h.blocks_none hn

/-- Slab release removes slab pages only. -/
theorem Joined.shrunk (h : Joined blocks live slabs) (hs : Slabs L m live slabs objs)
    (hg : Shrunk live slabs live' slabs') : Joined blocks live' slabs' := by
  rcases hg with ⟨rfl,rfl⟩ | ⟨c,i,hi,rfl,rfl⟩
  · exact h
  · have hmem : ∀ {d j}, j∈Function.update slabs c ((slabs c).erase i) d ↔
        j∈slabs d ∧ ¬(j=i ∧ d=c) := mem_update_erase (hs.nodup c)
    refine ⟨?_,?_⟩
    · intro j b
      by_cases hj : j=i
      · subst hj
        rw [Function.update_self,h.apart c j hi]
        constructor
        · intro hb
          cases hb
        · rintro (hb | ⟨_,d,hd⟩)
          · cases hb
          · obtain ⟨hd1,hd2⟩ := hmem.mp hd
            exact (hd2 ⟨rfl,hs.unique hd1 hi⟩).elim
      · rw [Function.update_of_ne hj,h.live_iff j b]
        simp only [hmem,hj,false_and,not_false_iff,and_true]
    · intro d j hj
      exact h.apart d j (hmem.mp hj).1

/-- Frames that start no slab page are live exactly when an owner holds them. -/
theorem Joined.live_eq (h : Joined blocks live slabs) (hn : ∀ c, i∉slabs c) :
    live i=blocks i := by
  refine Option.ext fun b => ?_
  rw [h.live_iff i b]
  simp [hn]

/-- Dropping the users' blocks drops no slab page. -/
theorem Joined.dropUser (h : Joined blocks live slabs) :
    Joined (dropUser 0 blocks) (dropUser 0 live) slabs := by
  refine ⟨?_,?_⟩
  · intro i b
    by_cases hslab : ∃ c, i∈slabs c
    · obtain ⟨c,hc⟩ := hslab
      have hl : live i=some (0,false) := (h.live_iff i _).mpr (Or.inr ⟨rfl,c,hc⟩)
      have hdl : BuddyOperations.dropUser 0 live i=some (0,false) := by
        rw [BuddyOperations.dropUser,hl,if_neg (by simp)]
      have hdb : BuddyOperations.dropUser 0 blocks i=none := by
        rw [BuddyOperations.dropUser,h.apart c i hc,if_neg (by simp)]
      rw [hdl,hdb]
      constructor
      · intro hb
        exact Or.inr ⟨(Option.some.inj hb).symm,c,hc⟩
      · rintro (hb | ⟨rfl,_⟩)
        · cases hb
        · rfl
    · have hn : ∀ c, i∉slabs c := fun c hc => hslab ⟨c,hc⟩
      rw [BuddyOperations.dropUser,BuddyOperations.dropUser,h.live_eq hn]
      simp [hslab]
  · intro c i hi
    rw [BuddyOperations.dropUser,h.apart c i hi,if_neg (by simp)]

/-- The page allocator hands out a block. -/
theorem buddyAlloc_step {s : State} (h : Consistent L s) (order : ℤ) (user : Bool) :
    Consistent L ⟨(buddyAlloc L s.memory order user).2,
      granted s.blocks (buddyAlloc L s.memory order user).1 order.toNat user,s.objects⟩ := by
  obtain ⟨free,live,slabs,hs,h,hu,hj⟩ := h
  rcases buddyAlloc_cases hs order user with ⟨heq,_⟩ | ⟨i,m',free',_,_,heq,hi,hnone,_,hs',_⟩
  · rw [heq]
    exact ⟨free,live,slabs,hs,h,hu,hj⟩
  · have hkeep : ∀ a, Safe L live a → m' a=s.memory a := by
      intro a ha
      have := buddyAlloc_safe hs order user ha
      rwa [heq] at this
    have hne : frameToAddr i≠0 := by
      have := (frame_bounds hi).1
      omega
    rw [heq]
    simp only [granted]
    rw [if_neg hne,addrToFrame_frameToAddr hi]
    exact ⟨free',_,slabs,hs',Slabs.of_alloc h hs hnone hkeep,hu,hj.grant hnone _⟩

/-- The owner of a block gives it back. -/
theorem release_step {s : State} (hs : Sound L s.memory free live none)
    (h : Slabs L s.memory live slabs s.objects) (hu : Used slabs s.objects)
    (hj : Joined s.blocks live slabs) (hb : s.blocks i=some (k,user))
    (hr : Released L s.memory live (frameToAddr i) m') :
    Consistent L ⟨m',Function.update s.blocks i none,s.objects⟩ := by
  obtain ⟨free',hs',_⟩ := Released.sound hs hr
  have hnew := hj.slab_ne hb
  have h' := Slabs.of_released h hs hr hnew
  rw [releaseAt_frame] at hs' h'
  exact ⟨free',_,slabs,hs',h',hu,hj.release hb⟩

/-- A write inside a live object keeps its page. -/
theorem object_write {a : ℕ} (value : UInt8) (h : Slabs L m live slabs objs)
    (ha : ObjectByte objs a) : Slabs L (Function.update m a value) live slabs objs ∧
      ∃ i, live i=some (0,false) ∧ PageByte i a := by
  obtain ⟨p,n,hp,h1,h2⟩ := ha
  obtain ⟨c,i,hi,hslot,hn⟩ := h.object hp
  have hc := h.cache_lt hi
  have hsize : objectSize n=cacheSize c := by simp [objectSize,hn]
  rw [hsize] at h2
  have hpage : PageByte i a := pageByte_slot hslot h1 h2
  have hne : ∀ {b}, b≠a → Function.update m a value b=m b := fun hb => Function.update_of_ne hb _ _
  have hlow := (slot_bounds hslot).1
  simp only [slabHeader] at hlow
  refine ⟨h.update_page hi ?_ ?_ (fun _ _ => rfl) ?_ ((h.page hi).transport ?_ ?_ fun _ _ => rfl),
    i,h.live hi,hpage⟩
  · intro b hb
    refine hne ?_
    rintro rfl
    exact hb hpage
  · intro b hb1 hb2
    exact hne (by omega)
  · intro q k hq hk
    obtain ⟨d,j,hj,hq',hd⟩ := h.object hk
    obtain rfl := slot_page (h.cache_lt hj) hc hq' hq
    rw [h.unique hj hi] at hd
    exact hd
  · intro b hb1 _ hb2
    simp only [slabHeader] at hb2
    exact hne (by omega)
  · intro x hx b hb1 hb2
    obtain ⟨hxs,hxn⟩ := mem_freeSlots.mp hx
    have hxp : x≠p := by
      rintro rfl
      rw [hp] at hxn
      cases hxn
    have hap := slots_apart hxs hslot hxp
    have hmin := (cacheSize_bounds hc).1
    simp only [Apart] at hap
    exact hne (by omega)

/-- Slab pages are disjoint from the owners' blocks. -/
theorem slab_not_owned {a : ℕ} (hs : Sound L m free live none) (h : Slabs L m live slabs objs)
    (hj : Joined blocks live slabs) (hi : i∈slabs c) (ha : PageByte i a) : ¬Owned blocks a := by
  rintro ⟨j,k,user,hb,h1,h2⟩
  have hcover : Covers j k i := by
    simp only [PageByte,frameToAddr_eq,frameSize] at ha h1 h2
    exact ⟨by omega,by omega⟩
  have heq := (hs.tiling.unique (c:=.live false) (d:=.live user) (h.live hi)
    (hj.live_of_block hb) (covers_head i 0) hcover).2.1
  subst heq
  rw [hj.apart c i hi] at hb
  cases hb

/-- Unmapping the users' blocks leaves the slab pages, which are the kernel's. -/
theorem munmapAllUser_step {s : State} (h : Consistent L s) :
    Consistent L ⟨munmapAllUser L s.memory,dropUser 0 s.blocks,s.objects⟩ := by
  obtain ⟨free,live,slabs,hs,h,hu,hj⟩ := h
  obtain ⟨free',hs',hkeep⟩ := munmapAllFrom_sound frameCount (i:=0) hs (by omega)
  have hlive : ∀ c i, i∈slabs c → dropUser 0 live i=some (0,false) := by
    intro c i hi
    rw [dropUser,h.live hi,if_neg (by simp)]
  rw [munmapAllUser]
  refine ⟨free',_,slabs,hs',h.transport ?_ ?_ hlive,hu,hj.dropUser⟩
  · intro a ha
    exact hkeep a (safe_of_write hs' (Or.inr (foreign_of_cacheByte ha)))
  · intro c i hi a ha
    exact hkeep a (safe_of_write hs' (Or.inl (owned_of_pageByte (hlive c i hi) ha)))

/-- An owner's write disturbs neither layer. -/
theorem write_step {s : State} {a : ℕ} {value : UInt8} (h : Consistent L s)
    (ha : ObjectByte s.objects a ∨ Owned s.blocks a ∨ Foreign L a ∧ ¬CacheByte L a) :
    Consistent L ⟨Function.update s.memory a value,s.blocks,s.objects⟩ := by
  obtain ⟨free,live,slabs,hs,h,hu,hj⟩ := h
  have hne : ∀ {b}, b≠a → Function.update s.memory a value b=s.memory b :=
    fun hb => Function.update_of_ne hb _ _
  have hsound : Owned live a ∨ Foreign L a →
      Sound L (Function.update s.memory a value) free live none := by
    intro how
    refine sound_of_writes hs fun b hb => hne ?_
    rintro rfl
    exact hb how
  have houtside : (∀ c i, i∈slabs c → ¬PageByte i a) → ¬CacheByte L a →
      Slabs L (Function.update s.memory a value) live slabs s.objects := by
    intro hpages hcache
    refine h.transport ?_ ?_ (fun c i hi => h.live hi)
    · intro b hb
      refine hne ?_
      rintro rfl
      exact hcache hb
    · intro c i hi b hb
      refine hne ?_
      rintro rfl
      exact hpages c i hi hb
  rcases ha with ha | ha | ⟨ha,hcache⟩
  · obtain ⟨h',i,hl,hp⟩ := object_write value h ha
    exact ⟨free,live,slabs,hsound (Or.inl (owned_of_pageByte hl hp)),h',hu,hj⟩
  · have hown : Owned live a := by
      obtain ⟨i,k,user,hb,h1,h2⟩ := ha
      exact ⟨i,k,user,hj.live_of_block hb,h1,h2⟩
    refine ⟨free,live,slabs,hsound (Or.inl hown),houtside ?_ ?_,hu,hj⟩
    · intro c i hi hp
      exact slab_not_owned hs h hj hi hp ha
    · exact not_cacheByte (Or.inr (Or.inr (owned_heap hs hown)))
  · refine ⟨free,live,slabs,hsound (Or.inr ha),houtside ?_ hcache,hu,hj⟩
    intro c i hi hp
    exact ha.2.2 (pageByte_heap (h.inside hi) hp)

/-- Every step keeps the invariant. -/
theorem step_consistent {s s' : State} (hcons : Consistent L s) (hstep : Step L s s') :
    Consistent L s' := by
  have hcons' := hcons
  obtain ⟨free,live,slabs,hs,h,hu,hj⟩ := hcons
  cases hstep with
  | kmalloc size p m hpos hsmall hcall =>
    obtain ⟨c,hn,hkmalloc⟩ := kmalloc_small h hpos hsmall
    obtain ⟨p',m',heq,hres⟩ := slabAlloc_spec hs h hu hn
    rw [hkmalloc,heq] at hcall
    obtain ⟨rfl,rfl⟩ := Prod.mk.inj (Option.some.inj hcall)
    rcases hres with ⟨rfl,rfl⟩ | ⟨hp,_,free',live',slabs',hs',h',hu',hg⟩
    · exact hcons'
    · rw [served,if_neg hp]
      exact ⟨free',live',slabs',hs',h',hu',hj.grown hg⟩
  | kfree p n hlive =>
    obtain ⟨free',live',slabs',hs',h',hu',hg⟩ := slabFree_spec hs h hu hlive
    rw [kfree_object h hlive]
    exact ⟨free',live',slabs',hs',h',hu',hj.shrunk h hg⟩
  | buddyAlloc order user => exact buddyAlloc_step hcons' order user
  | kmallocPages size p m hlarge hsize hcall =>
    rw [kmalloc_large hlarge] at hcall
    obtain ⟨rfl,rfl⟩ := Prod.mk.inj (Option.some.inj hcall)
    exact buddyAlloc_step hcons' _ false
  | mmapUser length hlength => exact buddyAlloc_step hcons' _ true
  | kfreePages i k user hlive hmark =>
    have hl := hj.live_of_block hlive
    obtain ⟨_,hend,halign⟩ := frame_bounds (hs.live_lt hl)
    refine release_step hs h hu hj hlive (kfree_released hs (by omega) fun _ _ => ?_)
    rwa [pageOf_eq halign le_rfl (by omega) hend]
  | munmapUser i k user hlive =>
    have hl := hj.live_of_block hlive
    obtain ⟨_,hend,_⟩ := frame_bounds (hs.live_lt hl)
    exact release_step hs h hu hj hlive (munmapUser_released hs (by omega))
  | munmapAllUser => exact munmapAllUser_step hcons'
  | pageFree i user hlive =>
    have hl := hj.live_of_block hlive
    exact release_step hs h hu hj hlive (Or.inr ⟨i,0,user,rfl,hl,buddyFree_live hs hl⟩)
  | write a value howner => exact write_step hcons' howner

/-- Setting up a cache fills its record and leaves the others alone. -/
theorem initCache_record {d : ℕ} (hc : c<cacheCount) :
    (load64 (initCache L m c) (cacheAddr L c)=cacheSize c ∧
      load64 (initCache L m c) (cacheAddr L c+8)=0) ∧
    (d≠c → load64 (initCache L m d) (cacheAddr L c)=load64 m (cacheAddr L c) ∧
      load64 (initCache L m d) (cacheAddr L c+8)=load64 m (cacheAddr L c+8)) := by
  have hsize := (cacheSize_bounds hc).2
  have hlow : ∀ (b : ℕ) (m : Bytes) (value : ℕ), b=cacheAddr L c ∨ b=cacheAddr L c+8 →
      load64 (store32 m (cacheAddr L c+16) value) b=load64 m b := by
    intro b m value hb
    exact load64_congr fun a h1 h2 => storeBytes_outside (by omega)
  refine ⟨⟨?_,?_⟩,fun hd => ?_⟩
  · rw [initCache,hlow _ _ _ (Or.inl rfl),load64_store64_disjoint (by omega)]
    exact load64_store64_same (show cacheSize c<2^64 by omega)
  · rw [initCache,hlow _ _ _ (Or.inr rfl)]
    exact load64_store64_same (by norm_num)
  · have hap := cacheAddr_apart (L:=L) hd
    simp only [cacheRecord] at hap
    have hout : ∀ a, cacheAddr L c≤a → a<cacheAddr L c+16 → initCache L m d a=m a := by
      intro a h1 h2
      simp only [initCache,store32]
      rw [storeBytes_outside (by omega),store64_outside (by omega),store64_outside (by omega)]
    exact ⟨load64_congr fun a h1 h2 => hout a h1 (by omega),
      load64_congr fun a h1 h2 => hout a (by omega) (by omega)⟩

/-- Initialisation fills the cache records with empty lists. -/
theorem memoryInit_record (hc : c<cacheCount) :
    load64 (memoryInit L m) (cacheAddr L c)=cacheSize c ∧
      load64 (memoryInit L m) (cacheAddr L c+8)=0 := by
  unfold memoryInit
  refine foldl_range_establish
    (P:=fun m => load64 m (cacheAddr L c)=cacheSize c ∧ load64 m (cacheAddr L c+8)=0) hc
    (fun m' => (initCache_record (d:=c) hc).1) ?_
  intro m' d _ h
  by_cases hd : d=c
  · subst hd
    exact (initCache_record (d:=d) hc).1
  · obtain ⟨h1,h2⟩ := (initCache_record (L:=L) (m:=m') hc).2 hd
    rw [h1,h2]
    exact h

/-- Initialisation establishes the invariant. -/
theorem initial_consistent (L : Layout) (m : Bytes) : Consistent L (initial L m) := by
  refine ⟨initialFree,fun _ => none,fun _ => [],memoryInit_sound L m,
    ⟨?_,?_,?_,?_,?_,?_,?_,?_⟩,?_,?_,?_⟩
  · intro c hc
    exact (memoryInit_record hc).1
  · intro c hc
    exact listed_nil_iff.mpr (memoryInit_record hc).2
  · intro c i hi
    cases hi
  · intro c d i hi
    cases hi
  · intro c i hi
    cases hi
  · intro c i hi
    cases hi
  · intro c i hi
    cases hi
  · intro p n hp
    cases hp
  · intro c i hi
    cases hi
  · intro i b
    simp [initial]
  · intro c i hi
    cases hi

/-- Every reachable state is consistent. -/
theorem Reachable.consistent {s : State} (h : Reachable L s) : Consistent L s := by
  obtain ⟨m,hrun⟩ := h
  induction hrun with
  | refl => exact initial_consistent L m
  | tail _ hstep ih => exact step_consistent ih hstep

/-- What the two layers guarantee about the live objects and the slab pages. -/
structure SlabLayer (L : Layout) (s : State) (slabs : ℕ → List ℕ) : Prop where
  /-- Live objects are pairwise disjoint. -/
  objects : ∀ p q n k, s.objects p=some n → s.objects q=some k → p≠q →
    Apart p (objectSize n) q (objectSize k)
  /-- Live objects meet no slab header. -/
  headers : ∀ p n c i, s.objects p=some n → i∈slabs c →
    Apart p (objectSize n) (frameToAddr i) slabHeader
  /-- Live objects meet no page-level block. -/
  blocks : ∀ p n i k user, s.objects p=some n → s.blocks i=some (k,user) →
    Apart p (objectSize n) (frameToAddr i) (frameSize*2^k)
  /-- A live object is a slot of a slab of its cache and at least as large as requested. -/
  size : ∀ p n, s.objects p=some n → n≤objectSize n ∧
    ∃ c i, i∈slabs c ∧ p∈slots c (frameToAddr i) ∧
      load64 s.memory (cacheAddr L c)=objectSize n
  /-- The use counter of a slab counts its live objects, and there is one. -/
  inUse : ∀ c i, i∈slabs c →
    load32 s.memory (frameToAddr i+4)=(liveSlots s.objects c (frameToAddr i)).length ∧
      1≤load32 s.memory (frameToAddr i+4)
  /-- Live objects and free list nodes are the slots of the slab, each exactly once. -/
  slots : ∀ c i, i∈slabs c → ∃ nodes,
    Chain (load64 s.memory) (fun x => x=0) (load64 s.memory (frameToAddr i+16)) nodes ∧
      (liveSlots s.objects c (frameToAddr i)++nodes).Perm (slots c (frameToAddr i)) ∧
      (slots c (frameToAddr i)).Nodup ∧
      loadBytes s.memory (frameToAddr i+8) 2=(slots c (frameToAddr i)).length
  /-- Slabs are live pages of the page allocator, next to the owners' blocks. -/
  pages : ∃ free live, Partition L ⟨s.memory,live⟩ free ∧ Joined s.blocks live slabs
  /-- No page is on two slab lists. -/
  single : ∀ c d i, i∈slabs c → i∈slabs d → c=d
  /-- The slab list of every cache is intact, in both directions. -/
  listed : ∀ c, c<cacheCount → Listed slabLinks s.memory (cacheAddr L c+8)
    ((slabs c).map frameToAddr)
  /-- Every allocation returns. -/
  returns : ∀ size, ∃ r, kmalloc L s.memory size=some r

/-- The size of an object is the object size of its cache. -/
theorem objectSize_eq (h : cacheFor n=some c) : objectSize n=cacheSize c := by
  simp [objectSize,h]

/-- Ranges inside different pages are disjoint. -/
theorem page_apart {j q a b : ℕ} (hij : i≠j) (hp : frameToAddr i≤p) (hpe : p+a≤frameToAddr i+4096)
    (hq : frameToAddr j≤q) (hqe : q+b≤frameToAddr j+4096) : Apart p a q b := by
  simp only [Apart,frameToAddr_eq] at *
  omega

/-- Requests of every size return. -/
theorem kmalloc_returns (hs : Sound L m free live none) (h : Slabs L m live slabs objs)
    (hu : Used slabs objs) (size : ℕ) : ∃ r, kmalloc L m size=some r := by
  rcases Nat.eq_zero_or_pos size with rfl | hpos
  · exact ⟨(0,m),rfl⟩
  · rcases Nat.lt_or_ge size 2048 with hsmall | hlarge
    · obtain ⟨c,hn,heq⟩ := kmalloc_small h hpos (by omega)
      obtain ⟨p,m',hcall,_⟩ := slabAlloc_spec hs h hu hn
      exact ⟨(p,m'),heq.trans hcall⟩
    · exact ⟨_,kmalloc_large hlarge⟩

/-- The slab layer in every reachable state: disjoint objects, exact
accounting of every slab, and consistent slab lists. -/
theorem reachable_slabLayer {s : State} (hreach : Reachable L s) :
    ∃ slabs, SlabLayer L s slabs := by
  obtain ⟨free,live,slabs,hs,h,hu,hj⟩ := hreach.consistent
  have hplace : ∀ {p n}, s.objects p=some n → ∃ c i, i∈slabs c ∧ p∈SlabPages.slots c (frameToAddr i) ∧
      objectSize n=cacheSize c ∧ c<cacheCount ∧ frameToAddr i+slabHeader≤p ∧
      p+objectSize n≤frameToAddr i+4096 := by
    intro p n hp
    obtain ⟨c,i,hi,hslot,hn⟩ := h.object hp
    have hsize := objectSize_eq hn
    obtain ⟨hlow,hhigh⟩ := slot_bounds hslot
    exact ⟨c,i,hi,hslot,hsize,h.cache_lt hi,hlow,by rw [hsize]; exact hhigh⟩
  refine ⟨slabs,?_,?_,?_,?_,?_,?_,?_,?_,?_,?_⟩
  · intro p q n k hp hq hne
    obtain ⟨c,i,hi,hslot,hsize,hc,hlow,hhigh⟩ := hplace hp
    obtain ⟨d,j,hj',hslot',hsize',_,hlow',hhigh'⟩ := hplace hq
    by_cases hij : i=j
    · subst hij
      obtain rfl := h.unique hi hj'
      rw [hsize,hsize']
      exact slots_apart hslot hslot' hne
    · exact page_apart hij (by omega) hhigh (by omega) hhigh'
  · intro p n d j hp hj'
    obtain ⟨c,i,hi,_,_,_,hlow,hhigh⟩ := hplace hp
    by_cases hij : i=j
    · subst hij
      exact Or.inr hlow
    · exact page_apart hij (by omega) hhigh le_rfl (by simp only [slabHeader]; omega)
  · intro p n j k user hp hb
    obtain ⟨c,i,hi,hslot,_,hc,hlow,hhigh⟩ := hplace hp
    have hcover : ¬Covers j k i := by
      intro hcov
      have heq := (hs.tiling.unique (c:=.live false) (d:=.live user) (h.live hi)
        (hj.live_of_block hb) (covers_head i 0) hcov).2.1
      rw [← heq,hj.apart c i hi] at hb
      cases hb
    simp only [Covers,not_and,not_lt] at hcover
    simp only [Apart,frameToAddr_eq,slabHeader,frameSize] at hlow hhigh ⊢
    rcases Nat.lt_or_ge i j with hij | hij
    · left
      omega
    · right
      have := hcover hij
      omega
  · intro p n hp
    obtain ⟨c,i,hi,hslot,hn⟩ := h.object hp
    have hsize := objectSize_eq hn
    rw [hsize]
    exact ⟨(cacheFor_spec hn).2,c,i,hi,hslot,h.sizes c (h.cache_lt hi)⟩
  · intro c i hi
    have := hu c i hi
    rw [(h.page hi).inUse]
    exact ⟨rfl,this⟩
  · intro c i hi
    obtain ⟨nodes,hchain,hperm⟩ := (h.page hi).free
    refine ⟨nodes,hchain,?_,slots_nodup (h.cache_lt hi) _,?_⟩
    · refine (List.Perm.append_left _ hperm).trans ?_
      have := List.filter_append_perm (fun p => (s.objects p).isSome)
        (SlabPages.slots c (frameToAddr i))
      have hneg : (fun p => !(s.objects p).isSome)=fun p => (s.objects p).isNone := by
        funext p
        cases s.objects p <;> rfl
      rwa [hneg] at this
    · rw [(h.page hi).total]
      simp [SlabPages.slots]
  · exact ⟨free,live,partition_of_sound (s:=⟨s.memory,live⟩) hs,hj⟩
  · intro c d i hi hi'
    exact h.unique hi hi'
  · exact h.listed
  · exact kmalloc_returns hs h hu

/-- A fresh heap after one small request. -/
def afterKmalloc (L : Layout) (m : Bytes) (size : ℕ) : State :=
  match kmalloc L (memoryInit L m) size with
  | some (p,m') => ⟨m',fun _ => none,served (fun _ => none) p size⟩
  | none => initial L m

/-- The state after one small request is reachable. -/
theorem afterKmalloc_reachable (L : Layout) (m : Bytes) {size : ℕ} (hpos : 1 ≤ size)
    (hsmall : size≤2047) : Reachable L (afterKmalloc L m size) := by
  refine ⟨m,?_⟩
  unfold afterKmalloc
  cases hcall : kmalloc L (memoryInit L m) size with
  | none => exact Relation.ReflTransGen.refl
  | some r =>
    obtain ⟨p,m'⟩ := r
    exact Relation.ReflTransGen.single (Step.kmalloc (initial L m) size p m' hpos hsmall hcall)

/-- The slab layer after a request of 100 bytes. -/
theorem afterKmalloc_slabLayer :
    ∃ slabs, SlabLayer sampleLayout (afterKmalloc sampleLayout (fun _ => 0) 100) slabs :=
  reachable_slabLayer (afterKmalloc_reachable sampleLayout (fun _ => 0) (by norm_num) (by norm_num))

end OvsbMk.SlabRuns
