import OvsbMk.Framebuffer
import OvsbMk.RadixForest
import OvsbMk.SharedMaps

/-!
# The tables of all processes

A new process gets a copy of the table of the fourth level, so that its address space has
the tables below in common with the one it was made from. The tables of all processes are
a forest that the allocator's pages stay out of; it shows which slots of the fourth level
are in common, and what each space maps. Mapping a page is putting it into a slot.
-/

namespace OvsbMk.PageForests

open ByteMemory RadixTree RadixForest PageTables PageMapping Framebuffer SharedMaps

variable {s s' : State} {roots : List ℕ} {root r r' a b table va pa : ℕ} {p q : List (Fin 512)}
  {i j k : Fin 512} {m : Bytes} {rest : List ℕ}

/-- The tables of address spaces, and the pages that may become tables. -/
structure Kept (roots : List ℕ) (s : State) : Prop where
  /-- Tables are in common below common entries of the fourth level only. -/
  forest : Forest decode (tables s.memory) 4 roots
  /-- There are no pages of 1 GiB. -/
  small : ∀ r∈roots, ∀ i c j, reach decode (tables s.memory) 4 r [i]=some c →
    decode 2 (tables s.memory c j)≠.leaf
  /-- No page comes twice. -/
  nodup : s.pages.Nodup
  /-- They are whole pages. -/
  aligned : ∀ page∈s.pages, page%4096=0
  /-- They are identity-mapped. -/
  low : ∀ page∈s.pages, page<physicalEnd
  /-- They are not in use as tables. -/
  free : ∀ page∈s.pages, Free decode (tables s.memory) 4 roots (page/4096)

/-- The slot is present in the one table, and the same in the other. -/
def Common (memory : Bytes) (r r' : ℕ) (k : Fin 512) : Prop :=
  (tables memory r k).testBit 0=true ∧ tables memory r' k=tables memory r k

/-- The tables show what spaces map and what they have in common. -/
structure Shows (s : State) (A : Spaces ℕ (Fin 512) ℕ ℕ) : Prop where
  /-- The tables are kept. -/
  kept : Kept A.live s
  /-- Addresses are translated as the spaces say. -/
  look : ∀ r∈A.live, ∀ va, A.look r va=translate s.memory (4096*r) va
  /-- Slots are in common as they say. -/
  common : ∀ r∈A.live, ∀ r'∈A.live, ∀ k, A.common r r' k ↔ Common s.memory r r' k

/-- The addresses of the page of an address, where they are mapped. -/
def pageValues (va pa : ℕ) : ℕ → Option ℕ := fun v =>
  if pagePath v=pagePath va then some (pa%2^52/pageSize*pageSize+v%pageSize) else none

variable {A : Spaces ℕ (Fin 512) ℕ ℕ}

/-- From each root the tables are a tree. -/
theorem Kept.sound (h : Kept roots s) (hr : r∈roots) : Sound r s :=
  ⟨h.forest.unshared hr,h.nodup,h.aligned,h.low,fun page hpage => h.free page hpage r hr⟩

/-- Translation is the walk from the root. -/
theorem translate_root : translate m (4096*r) va=
    (walk decode (tables m) r (indices va)).map
      fun x => frameBase x.1 x.2+va%2^(12+9*x.2) := by
  rw [PageTables.translate,Nat.mul_div_cancel_left _ (by norm_num)]

/-- Tables that walks and slots are the same for show the same. -/
theorem Shows.same (h : Shows s A) (hkept : Kept A.live s')
    (hwalk : ∀ r∈A.live, ∀ q, q.length=4 →
      walk decode (tables s'.memory) r q=walk decode (tables s.memory) r q)
    (hcommon : ∀ r∈A.live, ∀ r'∈A.live, ∀ k, Common s'.memory r r' k ↔ Common s.memory r r' k) :
    Shows s' A := by
  refine ⟨hkept,fun r hr va => ?_,fun r hr r' hr' k => ?_⟩
  · rw [h.look r hr va,translate_root,translate_root,hwalk r hr _ rfl]
  · rw [h.common r hr r' hr' k,hcommon r hr r' hr' k]

/-- Fewer pages are left. -/
theorem Shows.fewer (h : Shows s A) : Shows ⟨s.memory,s.pages.tail⟩ A := by
  have hsub : ∀ page∈s.pages.tail, page∈s.pages := fun page hpage => List.mem_of_mem_tail hpage
  have hkept := h.kept
  exact h.same ⟨hkept.forest,hkept.small,hkept.nodup.tail,
    fun page hpage => hkept.aligned page (hsub page hpage),
    fun page hpage => hkept.low page (hsub page hpage),
    fun page hpage => hkept.free page (hsub page hpage)⟩ (fun _ _ _ _ => rfl)
    fun _ _ _ _ _ => Iff.rfl

/-- A page of the allocator may be linked in. -/
theorem Kept.grafts (h : Kept roots s) (hroot : root∈roots) (hlen : p.length<2)
    (hp : reach decode (tables s.memory) 4 root p=some a)
    (habsent : (tables s.memory a i).testBit 0=false) (hb : b<2^40)
    (hfree : Free decode (tables s.memory) 4 roots b) :
    Grafts decode (fill (tables s.memory) b 0) 4 roots root p a i (4096*b|||0x03) b := by
  have hlink := link_fill (h.forest.unshared hroot) hp hlen habsent hb (hfree root hroot)
  exact ⟨h.forest.update hfree (by norm_num),hroot,hlink.reached,hlink.below,hlink.absent,
    hlink.child,hfree.update hfree,hlink.empty⟩

/-- With a new table the tables are kept. -/
theorem Kept.link (h : Kept roots s) (hpages : s.pages=4096*b::rest)
    (hg : Grafts decode (fill (tables s.memory) b 0) 4 roots root p a i (4096*b|||0x03) b)
    (hm : tables m=set (fill (tables s.memory) b 0) a i (4096*b|||0x03)) :
    Kept roots ⟨m,rest⟩ := by
  have hmem : ∀ page∈rest, page∈s.pages := fun page hpage => hpages▸List.mem_cons_of_mem _ hpage
  have hnodup := h.nodup
  rw [hpages,List.nodup_cons] at hnodup
  have hfree : Free decode (tables s.memory) 4 roots b := by
    have := h.free (4096*b) (hpages▸List.mem_cons_self)
    rwa [Nat.mul_div_cancel_left _ (by norm_num)] at this
  refine ⟨hm▸hg.forest_set,fun r hr l c j hc => ?_,hnodup.2,
    fun page hpage => h.aligned page (hmem page hpage),
    fun page hpage => h.low page (hmem page hpage),fun page hpage => ?_⟩
  · dsimp only at hc ⊢
    rw [hm] at hc ⊢
    rcases hg.reach_cases hr (by simp) hc with hc | ⟨hsees,_,rfl⟩
    · rw [reach_update (hfree r hr) (by simp)] at hc
      by_cases hself : c=a ∧ j=i
      · obtain ⟨rfl,rfl⟩ := hself
        rw [set_same]
        exact decode_small link_bits.2.2
      · rw [set_other hself,fill,update_reached (hfree r hr) (by simp) hc]
        exact h.small r hr l c j hc
    · rw [(hg.link hr hsees).new_entry,fill,Function.update_self]
      exact decode_small (Nat.zero_testBit 7)
  · dsimp only
    rw [hm]
    refine hg.free_set ((h.free page (hmem page hpage)).update hfree) ?_
    intro heq
    have haligned := h.aligned page (hmem page hpage)
    exact hnodup.1 ((show page=4096*b by omega)▸hpage)

/-- A new table below the fourth level leaves the slots as they are. -/
theorem common_below
    (hg : Grafts decode (fill (tables s.memory) b 0) 4 roots root (k::p) a i (4096*b|||0x03) b)
    (hm : tables m=set (fill (tables s.memory) b 0) a i (4096*b|||0x03)) (hr : r∈roots)
    (hr' : r'∈roots) : Common m r r' j ↔ Common s.memory r r' j := by
  have hbelow := hg.below
  have hroot : ∀ x∈roots, tables m x=tables s.memory x := fun x hx => by
    rw [hm,hg.forest.roots_below hg.mem hx (by omega) hg.reached,fill,
      Function.update_of_ne (hg.free.not_root (by norm_num) hx)]
  rw [Common,Common,hroot r hr,hroot r' hr']

/-- A new table in a slot of the fourth level is not in common with other spaces. -/
theorem common_slot (hfree : Free decode (tables s.memory) 4 roots b) (hb : b<2^40)
    (habsent : (tables s.memory root i).testBit 0=false)
    (hm : tables m=set (fill (tables s.memory) b 0) root i (4096*b|||0x03)) (hroot : root∈roots)
    (hr : r∈roots) (hr' : r'∈roots) :
    Common m r r' j ↔ Common s.memory r r' j ∨ r=root ∧ r'=root ∧ j=i := by
  have hold : ∀ x∈roots, ¬(x=root ∧ j=i) → tables m x j=tables s.memory x j := fun x hx hne => by
    rw [hm,set_other hne,fill,Function.update_of_ne (hfree.not_root (by norm_num) hx)]
  have hnew : tables m root i=4096*b|||0x03 := by rw [hm,set_same]
  have hother : ∀ x∈roots, tables s.memory x i≠4096*b|||0x03 := by
    intro x hx heq
    refine hfree x hx [i] (by simp) (reach_cons_iff.mpr ⟨b,?_,reach_nil⟩)
    rw [heq,decode_child link_bits.1 (decode_root _),link_eq]
    congr 1
    omega
  rw [Common,Common]
  by_cases hj : j=i
  · subst hj
    by_cases hrr : r=root <;> by_cases hrr' : r'=root
    · subst hrr hrr'
      rw [hnew]
      simp only [link_bits.1,and_self,or_true]
    · subst hrr
      rw [hnew,hold r' hr' fun h => hrr' h.1,habsent]
      simp only [hother r' hr',hrr',and_false,false_and,Bool.false_eq_true,or_self]
    · subst hrr'
      rw [hnew,hold r hr fun h => hrr h.1]
      simp only [hrr,false_and,or_false]
      constructor
      · rintro ⟨_,heq⟩
        exact (hother r hr heq.symm).elim
      · rintro ⟨hbit,heq⟩
        rw [← heq,habsent] at hbit
        cases hbit
    · rw [hold r hr fun h => hrr h.1,hold r' hr' fun h => hrr' h.1]
      simp only [hrr,false_and,or_false]
  · rw [hold r hr fun h => hj h.2,hold r' hr' fun h => hj h.2]
    simp only [hj,and_false,or_false]

/-- Where no page is left, the search for a table fails with the memory unchanged. -/
theorem nextTable_failed (h : nextTable table i s=.failed s') : s'=⟨s.memory,s.pages.tail⟩ := by
  unfold nextTable at h
  split at h
  · cases h
  · split at h
    · dsimp only at h
      split at h
      · exact (Outcome.failed.inj h).symm
      · cases h
    · cases h

/-- A table out of the identity-mapped memory is not read. -/
theorem nextTable_low {next : ℕ} (h : nextTable table i s=.done next s') : table<physicalEnd := by
  unfold nextTable at h
  split at h
  case isTrue => cases h
  case isFalse hlow => exact Nat.lt_of_not_le hlow

/-- What linking a page in as a new table leaves: the slots that are in common are to be
shown for it. -/
theorem Shows.linked (h : Shows s A) (hroot : root∈A.live) (hlen : p.length<2)
    (hp : reach decode (tables s.memory) 4 root p=some a)
    (habsent : (tables s.memory a i).testBit 0=false) {page : ℕ} (hpages : s.pages=page::rest) :
    ∃ b, page=4096*b ∧ b<2^40 ∧ Free decode (tables s.memory) 4 A.live b ∧
      Grafts decode (fill (tables s.memory) b 0) 4 A.live root p a i (4096*b|||0x03) b ∧
      tables (store64 (zeroTable s.memory page) (slot (4096*a) i) (page|||0x03))=
        set (fill (tables s.memory) b 0) a i (4096*b|||0x03) := by
  have hmem : page∈s.pages := hpages▸List.mem_cons_self
  have haligned := h.kept.aligned page hmem
  have hlow := h.kept.low page hmem
  obtain ⟨b,rfl⟩ : ∃ b, page=4096*b := ⟨page/4096,by omega⟩
  have hb : b<2^40 := by
    simp only [physicalEnd] at hlow
    omega
  have hfree := h.kept.free _ hmem
  rw [Nat.mul_div_cancel_left _ (by norm_num)] at hfree
  refine ⟨b,rfl,hb,hfree,h.kept.grafts hroot hlen hp habsent hb hfree,?_⟩
  rw [tables_store (by rw [link_eq]; omega),tables_zero]

/-- Walks do not see the new table, and the zeroed page was not seen. -/
theorem walk_linked
    (hg : Grafts decode (fill (tables s.memory) b 0) 4 roots root p a i (4096*b|||0x03) b)
    (hfree : Free decode (tables s.memory) 4 roots b)
    (hm : tables m=set (fill (tables s.memory) b 0) a i (4096*b|||0x03)) (hr : r∈roots)
    (hq : q.length=4) : walk decode (tables m) r q=walk decode (tables s.memory) r q := by
  rw [hm,hg.walk_eq hr hq,walk_update (hfree r hr) hq]

/-- A search in the table of the fourth level brings its slot into use. -/
theorem Shows.first (h : Shows s A) (hroot : root∈A.live)
    (hn : nextTable (4096*root) i s=.done table s') : Shows s' (A.grant root i) := by
  rcases nextTable_cases hn with ⟨hbit,rfl,_⟩ | ⟨habsent,page,rest,hpages,rfl,_⟩
  · refine ⟨h.kept,h.look,fun r hr r' hr' k => ?_⟩
    rw [← h.common r hr r' hr' k]
    refine or_iff_left_of_imp ?_
    rintro ⟨hr,hr',hk⟩
    rw [hr,hr',hk]
    exact (h.common root hroot root hroot i).mpr ⟨hbit,rfl⟩
  · obtain ⟨b,rfl,hb,hfree,hg,hm⟩ := h.linked (p:=[]) hroot (by simp) reach_nil habsent hpages
    refine ⟨h.kept.link hpages hg hm,fun r hr va => ?_,fun r hr r' hr' k => ?_⟩
    · rw [show (A.grant root i).look=A.look from rfl,h.look r hr va,translate_root,translate_root,
        walk_linked hg hfree hm hr rfl]
    · rw [common_slot hfree hb habsent hm hroot hr hr',← h.common r hr r' hr' k]
      exact Iff.rfl

/-- A search in a table of the third level leaves everything in view. -/
theorem Shows.second (h : Shows s A) (hroot : root∈A.live)
    (hp : reach decode (tables s.memory) 4 root [k]=some a)
    (hn : nextTable (4096*a) i s=.done table s') : Shows s' A := by
  rcases nextTable_cases hn with ⟨_,rfl,_⟩ | ⟨habsent,page,rest,hpages,rfl,_⟩
  · exact h
  · obtain ⟨b,rfl,_,hfree,hg,hm⟩ := h.linked hroot (by simp) hp habsent hpages
    exact h.same (h.kept.link hpages hg hm)
      (fun r hr q hq => walk_linked hg hfree hm hr hq)
      fun r hr r' hr' j => common_below hg hm hr hr'

/-- The memory that the entry of a page maps. -/
theorem page_frame (pa : ℕ) : frameBase (pa|||0x87) 1=pa%2^52/pageSize*pageSize := by
  have hdiv : (pa|||0x87)/2^21=pa/2^21 := by
    rw [← Nat.shiftRight_eq_div_pow,Nat.shiftRight_or_distrib,Nat.shiftRight_eq_div_pow]
    exact Nat.or_zero _
  simp only [frameBase,pageSize]
  omega

/-- The slot on the way to a page directory is in use. -/
theorem reach_present {l : List (Fin 512)} (h : reach decode (tables m) 4 root (k::l)=some a) :
    (tables m root k).testBit 0=true := by
  obtain ⟨c,hc,_⟩ := reach_cons_iff.mp h
  by_contra hbit
  rw [decode_absent (Bool.eq_false_iff.mpr hbit)] at hc
  cases hc

/-- With the entry of a page in a page directory the tables are kept. -/
theorem Kept.write (h : Kept roots s) (hroot : root∈roots)
    (hpd : reach decode (tables s.memory) 4 root [k,j]=some a) (hpa : pa<2^64) :
    Kept roots ⟨store64 s.memory (slot (4096*a) i) (pa|||0x87),s.pages⟩ := by
  have he := Nat.or_lt_two_pow hpa (show 0x87<2^64 by norm_num)
  have hlt : [k,j].length<4 := by simp
  have hold : ∀ r∈roots, ∀ q c, q.length≤4 →
      reach decode (set (tables s.memory) a i (pa|||0x87)) 4 r q=some c →
      reach decode (tables s.memory) 4 r q=some c := fun r hr q c hq hc =>
    h.forest.reach_leaf hroot hr hlt hpd (page_leaf pa) hq hc
  refine ⟨?_,fun r hr l c n hc => ?_,h.nodup,h.aligned,h.low,fun page hpage r hr q hq hc => ?_⟩
  · dsimp only
    rw [tables_store he]
    exact h.forest.leaf hroot hlt hpd (page_leaf pa)
  · dsimp only at hc ⊢
    rw [tables_store he] at hc ⊢
    have hlc := hold r hr [l] c (by simp) hc
    rw [set_other]
    · exact h.small r hr l c n hlc
    · rintro ⟨rfl,_⟩
      cases (h.forest.sees hroot hr hlt (by simp) hpd hlc).1
  · dsimp only at hc
    rw [tables_store he] at hc
    exact h.free page hpage r hr q hq (hold r hr _ _ hq.le hc)

/-- Writing the entry of a page puts the page into its slot. -/
theorem Shows.write (h : Shows s (A.grant root (pml4Idx va))) (hroot : root∈A.live)
    (hpd : reach decode (tables s.memory) 4 root [pml4Idx va,pdptIdx va]=some a) (hpa : pa<2^64) :
    Shows ⟨store64 s.memory (slot (4096*a) (pdIdx va)) (pa|||0x87),s.pages⟩
      (A.act (.put root (pml4Idx va) (pageValues va pa))) := by
  have he := Nat.or_lt_two_pow hpa (show 0x87<2^64 by norm_num)
  have hlt : [pml4Idx va,pdptIdx va].length<4 := by simp
  have hforest := h.kept.forest
  have hpresent := reach_present hpd
  refine ⟨h.kept.write hroot hpd hpa,fun r hr v => ?_,fun r hr r' hr' k => ?_⟩
  · have hsees : (A.grant root (pml4Idx va)).common root r (pml4Idx va) ↔
        Sees (tables s.memory) root [pml4Idx va,pdptIdx va] r :=
      (h.common root hroot r hr _).trans (and_iff_right hpresent)
    rw [translate_root]
    dsimp only [Spaces.act]
    rw [tables_store he]
    by_cases hseen : Sees (tables s.memory) root [pml4Idx va,pdptIdx va] r ∧ pagePath v=pagePath va
    · obtain ⟨hs,hpage⟩ := hseen
      have hreach : reach decode (tables s.memory) 4 r [pml4Idx va,pdptIdx va]=some a :=
        (hs.reach_eq ⟨[],rfl⟩ hlt.le).trans hpd
      have hentry := entry_set_same (i:=pdIdx va) (e:=pa|||0x87) (hforest.unshared hr) hreach hlt
      have hindices : indices v=[pml4Idx va,pdptIdx va]++pdIdx va::[ptIdx v] := by
        rw [show indices v=pagePath v++[ptIdx v] from rfl,hpage]
        rfl
      have hleaf : decode [ptIdx v].length (pa|||0x87)=.leaf := page_leaf pa
      rw [if_pos (hsees.mpr hs),pageValues,if_pos hpage,hindices,
        walk_leaf (by simp) hentry hleaf,Option.some_or,Option.map_some,Option.some.injEq]
      exact congrArg (·+v%pageSize) (page_frame pa).symm
    · have hnot : ¬(Sees (tables s.memory) root [pml4Idx va,pdptIdx va] r ∧
          [pml4Idx va,pdptIdx va]++[pdIdx va]<+:indices v) := by
        rintro ⟨hs,hpre⟩
        exact hseen ⟨hs,(pagePath_indices.mp hpre).symm⟩
      rw [hforest.walk_unseen hroot hr hlt hpd rfl hnot,← translate_root,← h.look r hr v]
      split
      case isFalse => rfl
      case isTrue hc =>
        rw [pageValues,if_neg fun hpage => hseen ⟨hsees.mp hc,hpage⟩,Option.none_or]
        rfl
  · have hroots : ∀ x∈A.live, set (tables s.memory) a (pdIdx va) (pa|||0x87) x=tables s.memory x :=
      fun x hx => hforest.roots_below hroot hx hlt hpd
    refine (h.common r hr r' hr' k).trans ?_
    rw [Common,Common,tables_store he,hroots r hr,hroots r' hr']

/-- The page of a new table of the fourth level is a page of the allocator. -/
theorem pml4Create_cases {current page : ℕ} (h : pml4Create (4096*current) s=(page,s')) :
    page=0 ∧ s'=⟨s.memory,s.pages.tail⟩ ∨ page≠0 ∧ ∃ rest, s.pages=page::rest ∧
      s'=⟨copyTable s.memory (4096*current) page 512,rest⟩ := by
  obtain ⟨memory,pages⟩ := s
  unfold pml4Create mmapUser at h
  dsimp only at h
  split at h
  case isTrue => exact Or.inl ⟨(Prod.mk.inj h).1.symm,(Prod.mk.inj h).2.symm⟩
  case isFalse hne =>
    obtain ⟨rfl,rfl⟩ := Prod.mk.inj h
    cases pages with
    | nil => exact (hne rfl).elim
    | cons page rest => exact Or.inr ⟨hne,rest,rfl,rfl⟩

/-- With a copy of a root the tables are kept. -/
theorem Kept.copy (h : Kept roots s) (hroot : root∈roots) (hpages : s.pages=4096*b::rest)
    (hfree : Free decode (tables s.memory) 4 roots b)
    (hm : tables m=Function.update (tables s.memory) b (tables s.memory root)) :
    Kept (b::roots) ⟨m,rest⟩ := by
  have hmem : ∀ page∈rest, page∈s.pages := fun page hpage => hpages▸List.mem_cons_of_mem _ hpage
  have hnodup := h.nodup
  rw [hpages,List.nodup_cons] at hnodup
  refine ⟨hm▸h.forest.copy hroot hfree (by norm_num),fun r hr l c j hc => ?_,hnodup.2,
    fun page hpage => h.aligned page (hmem page hpage),
    fun page hpage => h.low page (hmem page hpage),fun page hpage r hr q hq hc => ?_⟩
  · dsimp only at hc ⊢
    rw [hm] at hc ⊢
    rcases List.mem_cons.mp hr with rfl | hr
    · rw [reach_copy (hfree root hroot) (by simp)] at hc
      rw [update_reached (hfree root hroot) (by simp) hc]
      exact h.small root hroot l c j hc
    · rw [reach_update (hfree r hr) (by simp)] at hc
      rw [update_reached (hfree r hr) (by simp) hc]
      exact h.small r hr l c j hc
  · dsimp only at hc
    rw [hm] at hc
    have hold := h.free page (hmem page hpage)
    rcases List.mem_cons.mp hr with rfl | hr
    · cases q with
      | nil =>
        rw [reach_nil,Option.some.injEq] at hc
        have haligned := h.aligned page (hmem page hpage)
        exact hnodup.1 ((show page=4096*r by omega)▸hpage)
      | cons i q =>
        rw [reach_copy (hfree root hroot) hq.le] at hc
        exact hold root hroot _ hq hc
    · rw [reach_update (hfree r hr) hq.le] at hc
      exact hold r hr q hq hc

/-- A new address space is created from the current one. -/
theorem Shows.create {current page : ℕ} (h : Shows s A) (hcurrent : current∈A.live)
    (hc : pml4Create (4096*current) s=(page,s')) :
    page=0 ∧ Shows s' A ∨ page≠0 ∧ page=4096*(page/4096) ∧ page/4096∉A.live ∧
      Shows s' (A.act (.create current (page/4096))) := by
  rcases pml4Create_cases hc with ⟨hpage,rfl⟩ | ⟨hpage,rest,hpages,rfl⟩
  · exact Or.inl ⟨hpage,h.fewer⟩
  have hmem : page∈s.pages := hpages▸List.mem_cons_self
  have haligned := h.kept.aligned page hmem
  obtain ⟨b,rfl⟩ : ∃ b, page=4096*b := ⟨page/4096,by omega⟩
  have hfree := h.kept.free _ hmem
  rw [Nat.mul_div_cancel_left _ (by norm_num)] at hfree ⊢
  have hnot : b∉A.live := fun hb => hfree.not_root (by norm_num) hb rfl
  have hne : current≠b := fun heq => hnot (heq▸hcurrent)
  have hm := tables_copy (m:=s.memory) hne
  refine Or.inr ⟨hpage,rfl,hnot,h.kept.copy hcurrent hpages hfree hm,fun r hr va => ?_,
    fun r hr r' hr' k => ?_⟩
  · dsimp only [Spaces.act]
    rw [translate_root,hm]
    rcases List.mem_cons.mp hr with rfl | hr
    · rw [if_pos rfl,walk_copy (hfree current hcurrent) rfl,← translate_root]
      exact h.look current hcurrent va
    · rw [if_neg (hfree.not_root (by norm_num) hr),walk_update (hfree r hr) rfl,← translate_root]
      exact h.look r hr va
  · -- the table of a space is that of the space it is a copy of
    have htable : ∀ x∈b::A.live, tables (copyTable s.memory (4096*current) (4096*b) 512) x=
        tables s.memory (if x=b then current else x) ∧ (if x=b then current else x)∈A.live := by
      intro x hx
      rw [hm]
      rcases List.mem_cons.mp hx with rfl | hx
      · rw [if_pos rfl,Function.update_self]
        exact ⟨rfl,hcurrent⟩
      · have hxb := hfree.not_root (by norm_num) hx
        rw [if_neg hxb,Function.update_of_ne hxb]
        exact ⟨rfl,hx⟩
    obtain ⟨ht,hlive⟩ := htable r hr
    obtain ⟨ht',hlive'⟩ := htable r' hr'
    dsimp only [Spaces.act]
    rw [h.common _ hlive _ hlive',Common,Common,ht,ht']

/-- Where the tables of fewer spaces are unchanged, and no page is one of them, they are kept. -/
theorem Kept.untouched {fewer : List ℕ} (h : Kept roots s) (hsub : ∀ r∈fewer, r∈roots)
    (htrees : ∀ r∈fewer, ∀ p c, p.length<4 → reach decode (tables s.memory) 4 r p=some c →
      tables s'.memory c=tables s.memory c)
    (hnodup : s'.pages.Nodup) (haligned : ∀ page∈s'.pages, page%4096=0)
    (hlow : ∀ page∈s'.pages, page<physicalEnd)
    (hfree : ∀ page∈s'.pages, Free decode (tables s.memory) 4 fewer (page/4096)) :
    Kept fewer s' := by
  refine ⟨(h.forest.subset hsub).kept (by norm_num) htrees,fun r hr l c j hc => ?_,hnodup,haligned,
    hlow,fun page hpage r hr q hq hc => ?_⟩
  · rw [reach_kept (htrees r hr) (by simp)] at hc
    rw [htrees r hr [l] c (by simp) hc]
    exact h.small r (hsub r hr) l c j hc
  · rw [reach_kept (htrees r hr) hq.le] at hc
    exact hfree page hpage r hr q hq hc

/-- Such tables show what they showed of the spaces that are left. -/
theorem Shows.untouched {B : Spaces ℕ (Fin 512) ℕ ℕ} (h : Shows s A) (hkept : Kept B.live s')
    (hsub : ∀ r∈B.live, r∈A.live) (hlook : B.look=A.look) (hcommon : B.common=A.common)
    (htrees : ∀ r∈B.live, ∀ p c, p.length<4 → reach decode (tables s.memory) 4 r p=some c →
      tables s'.memory c=tables s.memory c) : Shows s' B := by
  refine ⟨hkept,fun r hr va => ?_,fun r hr r' hr' k => ?_⟩
  · rw [hlook,h.look r (hsub r hr) va,translate_root,translate_root,walk_kept (htrees r hr) rfl]
  · rw [hcommon,h.common r (hsub r hr) r' (hsub r' hr') k,Common,Common,
      htrees r hr [] r (by norm_num) reach_nil,htrees r' hr' [] r' (by norm_num) reach_nil]

end OvsbMk.PageForests
