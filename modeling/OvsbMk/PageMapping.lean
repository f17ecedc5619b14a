import OvsbMk.PageTables

/-!
# Mapping physical memory

One round of the loop maps one page: the tree grows, and one entry of a page directory
is written. After all rounds the pages of the range are mapped and every other walk ends
where it ended before.
-/

namespace OvsbMk.PageMapping

open ByteMemory RadixTree PageTables

/-- The indices of the entry that maps a page of 2 MiB. -/
def pagePath (va : ℕ) : List (Fin 512) := [pml4Idx va,pdptIdx va,pdIdx va]

/-- The flags are the same for both kinds of mappings. -/
theorem entryFlags_eq (writable : Bool) : entryFlags writable=0x87 := by
  cases writable <;> rfl

/-- Bits of an entry that the loop writes. -/
theorem page_bits (pa : ℕ) :
    (pa|||0x87).testBit 0=true ∧ (pa|||0x87).testBit 1=true ∧ (pa|||0x87).testBit 2=true ∧
      (pa|||0x87).testBit 7=true := by
  simp only [Nat.testBit_or]
  refine ⟨?_,?_,?_,?_⟩ <;> rw [Bool.or_eq_true] <;> exact Or.inr (by decide)

/-- An entry that the loop writes maps a page. -/
theorem page_leaf (pa : ℕ) : decode 1 (pa|||0x87)=.leaf := by
  obtain ⟨h0,_,_,h7⟩ := page_bits pa
  rw [decode,if_pos h0,if_pos (Or.inr ⟨by norm_num,h7⟩)]

/-- What mapping a page does to the walks and to the entries. -/
structure Maps (root va e : ℕ) (t t' : ℕ → Fin 512 → ℕ) : Prop where
  /-- Walks to the page end at the entry. -/
  inside : ∀ x, walk decode t' root (pagePath va++[x])=some (e,1)
  /-- Other walks end where they ended. -/
  outside : ∀ q : List (Fin 512), q.length=4 → ¬pagePath va<+:q →
    walk decode t' root q=walk decode t root q
  /-- The entry. -/
  entry_eq : entry decode t' 4 root [pml4Idx va,pdptIdx va] (pdIdx va)=some e
  /-- Other entries of the upper three levels that were present. -/
  kept : ∀ p j e, p.length<3 → p++[j]≠pagePath va → entry decode t 4 root p j=some e →
    e.testBit 0=true → entry decode t' 4 root p j=some e
  /-- Entries of the upper two levels that are new. -/
  new : ∀ p j e, p.length<2 → entry decode t' 4 root p j=some e →
    entry decode t 4 root p j=some e ∨ e.testBit 2=false ∧ e.testBit 7=false

/-- One round of the loop. -/
theorem mapPage_maps {root va pa : ℕ} {s s' : State} (hs : Sound root s) (hpa : pa<2^64)
    (hlarge : ∀ e, entry decode (tables s.memory) 4 root [pml4Idx va] (pdptIdx va)=some e →
      decode 2 e≠.leaf)
    (h : mapPage (4096*root) va pa 0x87 s=.done () s') :
    Sound root s' ∧ Maps root va (pa|||0x87) (tables s.memory) (tables s'.memory) ∧
      ∀ f, Owned root s' f → Owned root s f := by
  obtain ⟨s₁,pd,hs₁,hg,ho,rfl,hway⟩ := mapPage_spec hs h
  have hpd : reach decode (tables s₁.memory) 4 root [pml4Idx va,pdptIdx va]=some pd := by
    rcases hway with hpd | ⟨e,he,hleaf,_⟩
    · exact hpd
    · exact (hlarge e he hleaf).elim
  have hu := hs₁.unshared
  have hlt : [pml4Idx va,pdptIdx va].length<4 := by simp
  have he := Nat.or_lt_two_pow hpa (show 0x87<2^64 by norm_num)
  have hset := @tables_store s₁.memory pd (pa|||0x87) (pdIdx va) he
  have hentry := @entry_set_same _ _ _ decode _ 4 root pd _ (pdIdx va) (pa|||0x87) _ _ hu hpd hlt
  obtain ⟨hs',ho'⟩ := hs₁.write_leaf (i:=pdIdx va) hpd hlt he (page_leaf pa)
  refine ⟨hs',?_,fun f hf => ho f (ho' f hf)⟩
  dsimp only
  rw [hset]
  refine ⟨fun x => ?_,fun q hq hnot => ?_,hentry,fun p j e hp hne he hbit => ?_,fun p j e hp he => ?_⟩
  · exact walk_leaf (p:=[pml4Idx va,pdptIdx va]) (by simp) hentry (page_leaf pa)
  · rw [walk_set_other hu hpd hlt hq hnot]
    exact hg.walk_eq q hq
  · rw [entry_set_other hu hpd hlt (by omega)]
    · exact hg.kept p j e (by omega) he hbit
    · intro hpre
      refine hne (hpre.eq_of_length_le ?_).symm
      simp
      omega
  · rw [entry_set_other hu hpd hlt (by omega)] at he
    · exact hg.new p j e (by omega) he
    · intro hpre
      have := hpre.length_le
      simp at this
      omega

/-- A page of 1 GiB on the way to an address does not begin with a table or with a page
that the allocator will hand out: the code takes its begin for a page directory. -/
def PathApart (s : State) (root va : ℕ) : Prop :=
  ∀ e, entry decode (tables s.memory) 4 root [pml4Idx va] (pdptIdx va)=some e →
    decode 2 e=.leaf → ¬Owned root s (e/4096)

/-- What mapping leaves of the tree where there may be pages of 1 GiB: in the upper two
levels nothing is new that is open to the user. -/
structure Upper (root : ℕ) (s s' : State) : Prop where
  /-- The tree is sound. -/
  sound : Sound root s'
  /-- It owns no frame that is new. -/
  owned : ∀ f, Owned root s' f → Owned root s f
  /-- Entries that are new. -/
  new : ∀ p j e, p.length<2 → entry decode (tables s'.memory) 4 root p j=some e →
    entry decode (tables s.memory) 4 root p j=some e ∨ e.testBit 2=false ∧ e.testBit 7=false

/-- Mapping more leaves as much. -/
theorem Upper.trans {root : ℕ} {s s' s'' : State} (h : Upper root s s') (h' : Upper root s' s'') :
    Upper root s s'' := by
  refine ⟨h'.sound,fun f hf => h.owned f (h'.owned f hf),fun p j e hp he => ?_⟩
  rcases h'.new p j e hp he with hold | hnew
  · exact h.new p j e hp hold
  · exact Or.inr hnew

/-- Pages of 1 GiB stay apart. -/
theorem PathApart.upper {root va : ℕ} {s s' : State} (hapart : PathApart s root va)
    (h : Upper root s s') : PathApart s' root va := by
  intro e he hleaf hown
  rcases h.new _ _ _ (by simp) he with hold | ⟨_,h7⟩
  · exact hapart e hold hleaf (h.owned _ hown)
  · exact decode_small h7 hleaf

/-- One round. -/
theorem mapPage_upper {root va pa : ℕ} {s s' : State} (hs : Sound root s) (hpa : pa<2^64)
    (hapart : PathApart s root va) (h : mapPage (4096*root) va pa 0x87 s=.done () s') :
    Upper root s s' := by
  by_cases hlarge : ∀ e, entry decode (tables s.memory) 4 root [pml4Idx va] (pdptIdx va)=some e →
      decode 2 e≠.leaf
  · obtain ⟨hs',hm,ho⟩ := mapPage_maps hs hpa hlarge h
    exact ⟨hs',ho,hm.new⟩
  push Not at hlarge
  obtain ⟨e,he,hleaf⟩ := hlarge
  obtain ⟨s₁,pd,hs₁,hg,ho,rfl,hway⟩ := mapPage_spec hs h
  have hpd : pd=e/4096 := by
    rcases hway with hpd | ⟨e',he',_,hpd⟩
    · have he₁ := hg.kept _ _ _ (by simp) he (leaf_present hleaf)
      obtain ⟨a,ha,hae⟩ := Option.map_eq_some_iff.mp he₁
      rw [show [pml4Idx va,pdptIdx va]=[pml4Idx va]++[pdptIdx va] from rfl,reach_snoc ha (by simp),hae,
        show 4-[pml4Idx va].length-1=2 from rfl,hleaf] at hpd
      cases hpd
    · rw [he,Option.some.injEq] at he'
      rw [hpd,he']
  have hfree : ¬Owned root s₁ pd := fun hpo => hapart e he hleaf (hpd▸ho pd hpo)
  obtain ⟨hs',ho',he'⟩ := hs₁.write_unowned (i:=pdIdx va) (v:=pa|||0x87)
    (Nat.or_lt_two_pow hpa (by norm_num)) hfree
  refine ⟨hs',fun f hf => ho f (ho' f hf),fun p j x hp hx => ?_⟩
  rw [he' p j (by omega)] at hx
  exact hg.new p j x (by omega) hx

/-- What every round keeps holds when the loop ends. -/
theorem mapLoop_run {pml4 virt phys size flags rounds offset : ℕ} {P : ℕ → State → Prop}
    {s s' : State}
    (hstep : ∀ offset s s', offset<size → P offset s →
      mapPage pml4 ((virt+offset)%2^64) ((phys+offset)%2^64) flags s=.done () s' →
      P ((offset+pageSize)%2^64) s')
    (h : mapLoop pml4 virt phys size flags rounds offset s=.done () s') (h0 : P offset s) :
    ∃ offset', size≤offset' ∧ P offset' s' := by
  induction rounds generalizing offset s with
  | zero => cases h
  | succ rounds ih =>
    rw [mapLoop] at h
    split at h
    case isTrue hlt =>
      obtain ⟨_,s₁,h₁,h⟩ := Outcome.bind_done h
      exact ih h (hstep offset s s₁ hlt h0 h₁)
    case isFalse hlt =>
      rw [Outcome.done.injEq] at h
      exact ⟨offset,by omega,h.2▸h0⟩

/-- No page of 1 GiB is on the way to an address. -/
def PathSmall (memory : Bytes) (root va : ℕ) : Prop :=
  ∀ e, entry decode (tables memory) 4 root [pml4Idx va] (pdptIdx va)=some e → decode 2 e≠.leaf

/-- The offset of a page that the loop has mapped before an offset. -/
def Before (offset k : ℕ) : Prop := k<offset ∧ k%pageSize=0

/-- What the loop has done before an offset. -/
structure Progress (root virt phys size : ℕ) (s₀ : State) (offset : ℕ) (s : State) : Prop where
  /-- Offsets are those of pages. -/
  aligned : offset%pageSize=0
  /-- No page is mapped that begins after the range. -/
  bounded : offset<size+pageSize
  /-- The tree is sound. -/
  sound : Sound root s
  /-- The ways to the range are free of large pages. -/
  small : ∀ k, k<size → PathSmall s.memory root ((virt+k)%2^64)
  /-- A walk ends at a page that has been mapped, or where it ended. -/
  walks : ∀ q, q.length=4 →
    (∃ k, Before offset k ∧ pagePath ((virt+k)%2^64)<+:q ∧
      walk decode (tables s.memory) root q=some ((phys+k)%2^64|||0x87,1)) ∨
    (∀ k, Before offset k → ¬pagePath ((virt+k)%2^64)<+:q) ∧
      walk decode (tables s.memory) root q=walk decode (tables s₀.memory) root q
  /-- The entries of the pages that have been mapped. -/
  entries : ∀ k, Before offset k → ∃ pa,
    entry decode (tables s.memory) 4 root [pml4Idx ((virt+k)%2^64),pdptIdx ((virt+k)%2^64)]
      (pdIdx ((virt+k)%2^64))=some (pa|||0x87)
  /-- Entries of the upper two levels that were present. -/
  kept : ∀ p j e, p.length<2 → entry decode (tables s₀.memory) 4 root p j=some e →
    e.testBit 0=true → entry decode (tables s.memory) 4 root p j=some e
  /-- Entries of the upper two levels that are new. -/
  new : ∀ p j e, p.length<2 → entry decode (tables s.memory) 4 root p j=some e →
    entry decode (tables s₀.memory) 4 root p j=some e ∨ e.testBit 2=false ∧ e.testBit 7=false

/-- Nothing has been done before the first round. -/
theorem Progress.start {root virt phys size : ℕ} {s : State} (hs : Sound root s)
    (hsmall : ∀ k, k<size → PathSmall s.memory root ((virt+k)%2^64)) :
    Progress root virt phys size s 0 s :=
  ⟨rfl,by simp only [pageSize]; omega,hs,hsmall,fun _ _ => Or.inr ⟨fun _ h => (Nat.not_lt_zero _ h.1).elim,rfl⟩,
    fun _ h => (Nat.not_lt_zero _ h.1).elim,fun _ _ _ _ h _ => h,fun _ _ _ _ h => Or.inl h⟩

/-- A page that has been mapped before the next offset is the last one, or has been
mapped before. -/
theorem Before.cases {offset k : ℕ} (h : Before (offset+pageSize) k) (ho : offset%pageSize=0) :
    k=offset ∨ Before offset k := by
  obtain ⟨hlt,hk⟩ := h
  simp only [pageSize] at hlt hk ho
  by_cases hko : k<offset
  · exact Or.inr ⟨hko,hk⟩
  · exact Or.inl (by omega)

/-- One round. -/
theorem Progress.step {root virt phys size offset : ℕ} {s₀ s s' : State}
    (hp : Progress root virt phys size s₀ offset s) (hlt : offset<size) (hsize : size+pageSize≤2^64)
    (h : mapPage (4096*root) ((virt+offset)%2^64) ((phys+offset)%2^64) 0x87 s=.done () s') :
    Progress root virt phys size s₀ ((offset+pageSize)%2^64) s' := by
  have hwrap : (offset+pageSize)%2^64=offset+pageSize := Nat.mod_eq_of_lt (by omega)
  obtain ⟨hs,hm,_⟩ := mapPage_maps hp.sound (Nat.mod_lt _ (by norm_num)) (hp.small offset hlt) h
  have hlast : Before (offset+pageSize) offset :=
    ⟨by simp only [pageSize]; omega,hp.aligned⟩
  have hmore : ∀ k, Before offset k → Before (offset+pageSize) k :=
    fun k hk => ⟨by have := hk.1; omega,hk.2⟩
  rw [hwrap]
  refine ⟨?_,by omega,hs,fun k hk e he => ?_,fun q hq => ?_,fun k hk => ?_,fun p j e hlen he hbit => ?_,
    fun p j e hlen he => ?_⟩
  · have := hp.aligned
    simp only [pageSize] at this ⊢
    omega
  · rcases hm.new _ _ _ (by simp) he with hold | ⟨_,h7⟩
    · exact hp.small k hk e hold
    · exact decode_small h7
  · by_cases hpre : pagePath ((virt+offset)%2^64)<+:q
    · obtain ⟨r,rfl⟩ := hpre
      rw [List.length_append,show (pagePath _).length=3 from rfl] at hq
      obtain ⟨x,rfl⟩ : ∃ x, r=[x] := List.length_eq_one_iff.mp (by omega)
      exact Or.inl ⟨offset,hlast,⟨[x],rfl⟩,hm.inside x⟩
    · rw [hm.outside q hq hpre]
      rcases hp.walks q hq with ⟨k,hk,hkq,hw⟩ | ⟨hno,hw⟩
      · exact Or.inl ⟨k,hmore k hk,hkq,hw⟩
      · refine Or.inr ⟨fun k hk => ?_,hw⟩
        rcases hk.cases hp.aligned with rfl | hk
        · exact hpre
        · exact hno k hk
  · by_cases hsame : pagePath ((virt+k)%2^64)=pagePath ((virt+offset)%2^64)
    · simp only [pagePath,List.cons.injEq,and_true] at hsame
      obtain ⟨h4,h3,h2⟩ := hsame
      rw [h4,h3,h2]
      exact ⟨_,hm.entry_eq⟩
    · rcases hk.cases hp.aligned with rfl | hk
      · exact (hsame rfl).elim
      · obtain ⟨pa,he⟩ := hp.entries k hk
        exact ⟨pa,hm.kept _ _ _ (by simp) hsame he (page_bits pa).1⟩
  · refine hm.kept p j e (by omega) ?_ (hp.kept p j e hlen he hbit) hbit
    intro heq
    have := congrArg List.length heq
    simp [pagePath] at this
    omega
  · rcases hm.new p j e hlen he with hold | hnew
    · exact hp.new p j e hlen hold
    · exact Or.inr hnew

/-- A mapping that returns 0 has run the loop to its end. -/
theorem pml4MapPhys_loop {pml4 virt phys size : ℕ} {writable : Bool} {s s' : State}
    (h : pml4MapPhys pml4 virt phys size writable s=some (0,s')) :
    mapLoop pml4 virt phys size 0x87 mapRounds 0 s=.done () s' := by
  rw [pml4MapPhys,entryFlags_eq] at h
  split at h
  case h_1 _ s₁ hloop =>
    simp only [Option.some.injEq,Prod.mk.injEq,true_and] at h
    rw [hloop,h]
  case h_2 => simp at h
  case h_3 => cases h

/-- All rounds. -/
theorem pml4MapPhys_upper {pml4 virt phys size : ℕ} {writable : Bool} {s s' : State}
    (hroot : pml4%4096=0) (hs : Sound (pml4/4096) s)
    (hapart : ∀ k, k<size → PathApart s (pml4/4096) ((virt+k)%2^64))
    (h : pml4MapPhys pml4 virt phys size writable s=some (0,s')) : Upper (pml4/4096) s s' := by
  have hpml4 : pml4=4096*(pml4/4096) := by omega
  have hrun : ∃ offset, size≤offset ∧ Upper (pml4/4096) s s' := by
    refine mapLoop_run (P:=fun _ s₁ => Upper (pml4/4096) s s₁)
      (fun offset s₁ s₂ hlt hp hmap => ?_) (pml4MapPhys_loop h)
      ⟨hs,fun _ h => h,fun _ _ _ _ h => Or.inl h⟩
    rw [hpml4] at hmap
    exact hp.trans (mapPage_upper hp.sound (Nat.mod_lt _ (by norm_num))
      ((hapart offset hlt).upper hp) hmap)
  obtain ⟨_,_,hupper⟩ := hrun
  exact hupper

/-- What the loop has done when it returns 0. -/
theorem pml4MapPhys_progress {pml4 virt phys size : ℕ} {writable : Bool} {s s' : State}
    (hroot : pml4%4096=0) (hs : Sound (pml4/4096) s) (hsize : size+pageSize≤2^64)
    (hsmall : ∀ k, k<size → PathSmall s.memory (pml4/4096) ((virt+k)%2^64))
    (h : pml4MapPhys pml4 virt phys size writable s=some (0,s')) :
    ∃ offset, size≤offset ∧ Progress (pml4/4096) virt phys size s offset s' := by
  have hpml4 : pml4=4096*(pml4/4096) := by omega
  refine mapLoop_run (fun offset s s' hlt hp hmap => ?_) (pml4MapPhys_loop h)
    (Progress.start hs hsmall)
  rw [hpml4] at hmap
  exact hp.step hlt hsize hmap

/-- Addresses whose upper bits repeat bit 47. -/
def Canonical (va : ℕ) : Prop := va<2^47 ∨ 2^64-2^47≤va ∧ va<2^64

/-- A size in whole pages. -/
def roundUp (size : ℕ) : ℕ := (size+0x1FFFFF)/pageSize*pageSize

/-- Addresses with the same path are on one page. -/
theorem page_of_path {va va' : ℕ} (hva : Canonical va) (hva' : Canonical va')
    (h : pagePath va=pagePath va') : va/pageSize=va'/pageSize := by
  simp only [pagePath,List.cons.injEq,and_true,pml4Idx,pdptIdx,pdIdx,Fin.mk.injEq] at h
  obtain ⟨h4,h3,h2⟩ := h
  rcases hva with hva | hva <;> rcases hva' with hva' | hva' <;> simp only [pageSize] <;> omega

/-- Addresses on one page have the same path. -/
theorem path_of_page {va va' : ℕ} (h : va/pageSize=va'/pageSize) : pagePath va=pagePath va' := by
  simp only [pageSize] at h
  simp only [pagePath,List.cons.injEq,and_true,pml4Idx,pdptIdx,pdIdx,Fin.mk.injEq]
  omega

/-- The first indices of an address are those of its page. -/
theorem pagePath_indices {va va' : ℕ} : pagePath va<+:indices va' ↔ pagePath va=pagePath va' := by
  refine ⟨fun h => ?_,fun h => ?_⟩
  · have hself : pagePath va'<+:indices va' := ⟨[ptIdx va'],rfl⟩
    exact (List.prefix_of_prefix_length_le h hself le_rfl).eq_of_length rfl
  · rw [h]
    exact ⟨[ptIdx va'],rfl⟩

/-- The memory that an entry for a page maps. -/
theorem page_base {pa : ℕ} (halign : pa%pageSize=0) (hlow : pa<2^52) :
    frameBase (pa|||0x87) 1=pa := by
  simp only [pageSize] at halign
  have hor := @Nat.two_pow_add_eq_or_of_lt 21 0x87 (by norm_num) (pa/2^21)
  rw [Nat.mul_div_cancel' (Nat.dvd_of_mod_eq_zero (show pa%2^21=0 from halign))] at hor
  rw [← hor,frameBase]
  omega

/-- A canonical range of whole pages is within one half of the addresses. -/
theorem size_of_canonical {virt size : ℕ} (hwrap : virt+roundUp size≤2^64)
    (hcanonical : ∀ v, virt≤v → v<virt+roundUp size → Canonical v) : roundUp size≤2^47 := by
  by_contra hlarge
  rcases hcanonical virt le_rfl (by omega) with hlow | hhigh
  · rcases hcanonical (2^47) (by omega) (by omega) with h | h <;> omega
  · omega

/-- Mapping is exact: the range is mapped, and every other canonical address is
translated as before. -/
theorem pml4MapPhys_exact {pml4 virt phys size : ℕ} {writable : Bool} {s s' : State}
    (hroot : pml4%4096=0) (htree : Unshared decode (tables s.memory) 4 (pml4/4096))
    (hfresh : Fresh (pml4/4096) s) (hvirt : virt%pageSize=0) (hphys : phys%pageSize=0)
    (hwrap : virt+roundUp size≤2^64)
    (hcanonical : ∀ v, virt≤v → v<virt+roundUp size → Canonical v) (hend : phys+size≤2^52)
    (hsmall : ∀ v, virt≤v → v<virt+roundUp size → PathSmall s.memory (pml4/4096) v)
    (h : pml4MapPhys pml4 virt phys size writable s=some (0,s')) :
    (∀ v, virt≤v → v<virt+size → translate s'.memory pml4 v=some (phys+(v-virt))) ∧
      ∀ v, Canonical v → ¬(virt≤v ∧ v<virt+roundUp size) →
        translate s'.memory pml4 v=translate s.memory pml4 v := by
  have hround : size≤roundUp size := by
    simp only [roundUp,pageSize]
    omega
  have hsize := size_of_canonical hwrap hcanonical
  have hmod : ∀ k, k<roundUp size → (virt+k)%2^64=virt+k := fun k hk =>
    Nat.mod_eq_of_lt (by omega)
  obtain ⟨offset,hle,hp⟩ := pml4MapPhys_progress hroot ⟨htree,hfresh⟩
    (by simp only [pageSize]; omega)
    (fun k hk => by
      rw [hmod k (by omega)]
      exact hsmall _ (by omega) (by omega)) h
  have hbefore : ∀ k, Before offset k → k<size := fun k hk => by
    have hb := hp.bounded
    have ha := hp.aligned
    have hk' := hk.2
    have hlt := hk.1
    simp only [pageSize] at hb ha hk'
    omega
  refine ⟨fun v hv hlt => ?_,fun v hv hout => ?_⟩
  · have hvc := hcanonical v hv (by omega)
    rcases hp.walks (indices v) rfl with ⟨k,hk,hpre,hw⟩ | ⟨hno,_⟩
    · have hks := hbefore k hk
      rw [hmod k (by omega),pagePath_indices] at hpre
      have hpage := page_of_path (hcanonical (virt+k) (by omega) (by omega)) hvc hpre
      have hka := hk.2
      simp only [pageSize] at hpage hvirt hphys hka
      rw [Nat.mod_eq_of_lt (show phys+k<2^64 by omega)] at hw
      rw [PageTables.translate,hw,Option.map_some]
      dsimp only
      rw [page_base (by simp only [pageSize]; omega) (by omega),Option.some.injEq,
        show 12+9*1=21 from rfl]
      omega
    · refine (hno ((v-virt)/pageSize*pageSize) ⟨?_,?_⟩ ?_).elim
      · simp only [pageSize]
        omega
      · simp only [pageSize]
        omega
      · rw [hmod _ (by simp only [pageSize]; omega),pagePath_indices]
        refine path_of_page ?_
        simp only [pageSize] at hvirt ⊢
        omega
  · rcases hp.walks (indices v) rfl with ⟨k,hk,hpre,_⟩ | ⟨_,hw⟩
    · have hks := hbefore k hk
      rw [hmod k (by omega),pagePath_indices] at hpre
      have hpage := page_of_path (hcanonical (virt+k) (by omega) (by omega)) hv hpre
      have hka := hk.2
      simp only [pageSize] at hpage hvirt hka
      simp only [roundUp,pageSize] at hout
      omega
    · rw [PageTables.translate,hw,PageTables.translate]

/-- Tables without entries, and pages for more. -/
def emptyState (pages : List ℕ) : State := ⟨fun _ => 0,pages⟩

/-- Their entries. -/
theorem emptyState_absent (pages : List ℕ) (root : ℕ) (i : Fin 512) (level : ℕ) :
    decode level (tables (emptyState pages).memory root i)=.absent := by
  refine decode_absent ?_
  have hzero : tables (emptyState pages).memory root i=0 := by
    simp [tables,load64,loadBytes,emptyState]
  rw [hzero]
  rfl

/-- Any of them is a tree, and the pages are fresh. -/
theorem emptyState_sound {root : ℕ} {pages : List ℕ} (hnodup : pages.Nodup)
    (hpages : ∀ page∈pages, page%4096=0 ∧ page<physicalEnd ∧ page/4096≠root) :
    Sound root (emptyState pages) := by
  refine ⟨Unshared.empty (emptyState_absent pages root),hnodup,fun page h => (hpages page h).1,
    fun page h => (hpages page h).2.1,fun page h p _ hp => ?_⟩
  have hnil := reach_empty (emptyState_absent pages root) hp
  rw [hnil,reach_nil,Option.some.injEq] at hp
  exact (hpages page h).2.2 hp.symm

/-- No way is long enough for a large page. -/
theorem emptyState_small (pages : List ℕ) (root va : ℕ) :
    PathSmall (emptyState pages).memory root va := by
  intro e he
  rw [entry,show [pml4Idx va]=[]++[pml4Idx va] from rfl,reach_snoc reach_nil (by simp),
    emptyState_absent] at he
  cases he

/-- A mapping that needs three new tables returns 0. -/
theorem crossing_returns : ∃ s', pml4MapPhys 0x1000 0x3FE00000 0x80000000 0x400000 true
    (emptyState [0x2000,0x3000,0x4000])=some (0,s') := by
  have hreturn : (pml4MapPhys 0x1000 0x3FE00000 0x80000000 0x400000 true
      (emptyState [0x2000,0x3000,0x4000])).map Prod.fst=some 0 := by decide +kernel
  obtain ⟨⟨r,s'⟩,h,hr⟩ := Option.map_eq_some_iff.mp hreturn
  exact ⟨s',by rw [h]; exact congrArg some (Prod.ext hr rfl)⟩

/-- A range on both sides of 1 GiB, in a tree without tables. -/
theorem crossing_mapped :
    ∃ s', pml4MapPhys 0x1000 0x3FE00000 0x80000000 0x400000 true
        (emptyState [0x2000,0x3000,0x4000])=some (0,s') ∧
      (∀ v, 0x3FE00000≤v → v<0x3FE00000+0x400000 →
        translate s'.memory 0x1000 v=some (0x80000000+(v-0x3FE00000))) ∧
      ∀ v, Canonical v → ¬(0x3FE00000≤v ∧ v<0x3FE00000+roundUp 0x400000) →
        translate s'.memory 0x1000 v=
          translate (emptyState [0x2000,0x3000,0x4000]).memory 0x1000 v := by
  obtain ⟨s',h⟩ := crossing_returns
  have hround : roundUp 0x400000=0x400000 := by decide
  have hsound : Sound (0x1000/4096) (emptyState [0x2000,0x3000,0x4000]) :=
    emptyState_sound (by decide) (by decide)
  refine ⟨s',h,pml4MapPhys_exact (by decide) hsound.unshared hsound.fresh (by decide) (by decide)
    (by rw [hround]; norm_num) (fun v _ hlt => ?_) (by norm_num)
    (fun v _ _ => emptyState_small _ _ v) h⟩
  rw [hround] at hlt
  exact Or.inl (by omega)

end OvsbMk.PageMapping
