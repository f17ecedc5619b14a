import OvsbMk.PageMapping

/-!
# The framebuffer in a process

A process gets a copy of the table of the fourth level, and asks for the framebuffer to
be mapped for it. The entries of the pages are open to the user; the entries that lead
to them are so only if they have been there before.
-/

namespace OvsbMk.Framebuffer

open ByteMemory RadixTree PageTables PageMapping

/-- The framebuffer that the boot loader has set up. -/
structure Geometry where
  /-- Its physical address. -/
  addr : UInt64
  /-- Bytes of a line. -/
  pitch : UInt32
  /-- Pixels of a line. -/
  width : UInt32
  /-- Lines. -/
  height : UInt32
  /-- Bits of a pixel. -/
  bpp : UInt8

/-- Where a process finds the framebuffer. -/
abbrev userFbVa : ℕ := 0xFFFFFFFF80000000

/-- Bytes of the framebuffer, in whole pages. -/
def fbSize (fb : Geometry) : ℕ :=
  (fb.pitch.toNat*fb.height.toNat%2^64+0x1FFFFF)%2^64/pageSize*pageSize

/-- Store a word, unless the pointer is null. -/
def storeOut (user : Bytes) (pointer count value : ℕ) : Bytes :=
  if pointer=0 then user else storeBytes user pointer count value

/-- The system call: the result, the memory of the caller, and the tables. -/
def sysDispGetFb (active : Bool) (fb : Geometry) (pml4 a1 a2 a3 a4 : ℕ) (user : Bytes)
    (s : State) : Option (ℤ×Bytes×State) :=
  if active=false ∨ fb.bpp≠32 then some (-1,user,s)
  else
    match pml4MapPhys pml4 userFbVa fb.addr.toNat (fbSize fb) true s with
    | none => none
    | some (r,s') =>
      if r<0 then some (-1,user,s')
      else
        let user := storeOut user a1 8 userFbVa
        let user := storeOut user a2 4 fb.width.toNat
        let user := storeOut user a3 4 fb.height.toNat
        some (0,storeOut user a4 4 fb.pitch.toNat,s')

/-- An address of the mapping. -/
def fbVa (off : ℕ) : ℕ := (userFbVa+off)%2^64

/-- An entry is present, writable and open to the user. -/
def UserBits (e : ℕ) : Prop := e.testBit 0=true ∧ e.testBit 1=true ∧ e.testBit 2=true

/-- An address is translated, and its walk is open to the user at every level. -/
def Usable (memory : Bytes) (pml4 va : ℕ) : Prop :=
  (∃ pa, translate memory pml4 va=some pa) ∧ ∃ e4 e3 e2,
    entry decode (tables memory) 4 (pml4/4096) [] (pml4Idx va)=some e4 ∧
    entry decode (tables memory) 4 (pml4/4096) [pml4Idx va] (pdptIdx va)=some e3 ∧
    entry decode (tables memory) 4 (pml4/4096) [pml4Idx va,pdptIdx va] (pdIdx va)=some e2 ∧
    UserBits e4 ∧ UserBits e3 ∧ UserBits e2

/-- The way to the page directory of an address is there and open to the user. -/
def Granted (memory : Bytes) (pml4 va : ℕ) : Prop :=
  ∃ e4 e3, entry decode (tables memory) 4 (pml4/4096) [] (pml4Idx va)=some e4 ∧
    entry decode (tables memory) 4 (pml4/4096) [pml4Idx va] (pdptIdx va)=some e3 ∧
    UserBits e4 ∧ UserBits e3 ∧ decode 2 e3≠.leaf

/-- The size of a framebuffer leaves room for one page more. -/
theorem fbSize_room (fb : Geometry) : fbSize fb+pageSize≤2^64 := by
  have hp := fb.pitch.toNat_lt
  have hh := fb.height.toNat_lt
  have hmul : fb.pitch.toNat*fb.height.toNat≤(2^32-1)*(2^32-1) :=
    Nat.mul_le_mul (by omega) (by omega)
  simp only [fbSize,pageSize]
  omega

/-- A call that returns 0 has mapped the framebuffer. -/
theorem sysDispGetFb_cases {active : Bool} {fb : Geometry} {pml4 a1 a2 a3 a4 : ℕ}
    {user user' : Bytes} {s s' : State}
    (h : sysDispGetFb active fb pml4 a1 a2 a3 a4 user s=some (0,user',s')) :
    pml4MapPhys pml4 userFbVa fb.addr.toNat (fbSize fb) true s=some (0,s') := by
  rw [sysDispGetFb] at h
  split at h
  · simp at h
  split at h
  · cases h
  case h_2 _ r s₁ hmap =>
    split at h
    · simp at h
    case isFalse hr =>
      simp only [Option.some.injEq,Prod.mk.injEq,true_and] at h
      obtain ⟨_,rfl⟩ := h
      rw [hmap,Option.some.injEq,Prod.mk.injEq]
      refine ⟨?_,rfl⟩
      rw [pml4MapPhys] at hmap
      split at hmap
      · simp only [Option.some.injEq,Prod.mk.injEq] at hmap
        exact hmap.1.symm
      · simp only [Option.some.injEq,Prod.mk.injEq] at hmap
        omega
      · cases hmap

/-- The page of an offset of the framebuffer. -/
theorem fbVa_page (off : ℕ) :
    pagePath ((userFbVa+off/pageSize*pageSize)%2^64)=pagePath (fbVa off) := by
  refine path_of_page ?_
  simp only [fbVa,pageSize,userFbVa]
  omega

/-- An address is usable after the loop if the way to its page directory was open. -/
theorem usable_of_granted {pml4 size phys offset off : ℕ} {s s' : State}
    (hp : Progress (pml4/4096) userFbVa phys size s offset s') (hoff : off<offset)
    (hgranted : Granted s.memory pml4 (fbVa off)) : Usable s'.memory pml4 (fbVa off) := by
  have hpage : Before offset (off/pageSize*pageSize) := by
    simp only [Before,pageSize]
    omega
  have hpath := fbVa_page off
  obtain ⟨e4,e3,h4,h3,u4,u3,_⟩ := hgranted
  obtain ⟨pa,he⟩ := hp.entries _ hpage
  have hidx := hpath
  simp only [pagePath,List.cons.injEq,and_true] at hidx
  rw [hidx.1,hidx.2.1,hidx.2.2] at he
  obtain ⟨b0,b1,b2,_⟩ := page_bits pa
  refine ⟨?_,e4,e3,_,hp.kept _ _ _ (by simp) h4 u4.1,hp.kept _ _ _ (by simp) h3 u3.1,he,u4,u3,
    b0,b1,b2⟩
  rcases hp.walks (indices (fbVa off)) rfl with ⟨k,_,_,hw⟩ | ⟨hno,_⟩
  · exact ⟨_,by rw [PageTables.translate,hw,Option.map_some]⟩
  · refine (hno _ hpage ?_).elim
    rw [pagePath_indices]
    exact hpath

/-- The way to the page directory of a usable address was open before. -/
theorem granted_of_usable {pml4 va : ℕ} {s s' : State} (hup : Upper (pml4/4096) s s')
    (h : Usable s'.memory pml4 va) : Granted s.memory pml4 va := by
  obtain ⟨_,e4,e3,e2,h4,h3,h2,u4,u3,_⟩ := h
  have hold : ∀ p j e, p.length<2 → entry decode (tables s'.memory) 4 (pml4/4096) p j=some e →
      UserBits e → entry decode (tables s.memory) 4 (pml4/4096) p j=some e := by
    intro p j e hp he hu
    rcases hup.new p j e hp he with hold | ⟨hno,_⟩
    · exact hold
    · rw [hu.2.2] at hno
      cases hno
  refine ⟨e4,e3,hold _ _ _ (by simp) h4 u4,hold _ _ _ (by simp) h3 u3,u4,u3,fun hleaf => ?_⟩
  obtain ⟨a,ha,hae⟩ := Option.map_eq_some_iff.mp h3
  obtain ⟨b,hb,_⟩ := Option.map_eq_some_iff.mp h2
  rw [show [pml4Idx va,pdptIdx va]=[pml4Idx va]++[pdptIdx va] from rfl,reach_snoc ha (by simp),hae,
    show 4-[pml4Idx va].length-1=2 from rfl,hleaf] at hb
  cases hb

/-- Copy the entries of a table. -/
def copyTable (memory : Bytes) (source target : ℕ) (count : ℕ) : Bytes :=
  (List.range count).foldl (fun m i => store64 m (target+8*i) (load64 m (source+8*i))) memory

/-- A new table of the fourth level with the entries of the current one, or 0. -/
def pml4Create (current : ℕ) (s : State) : ℕ×State :=
  let (page,s) := mmapUser s
  if page=0 then (0,s) else (page,⟨copyTable s.memory current page 512,s.pages⟩)

/-- Copied entries. -/
theorem copyTable_load {m : Bytes} {a b count : ℕ} (hne : a≠b) (hcount : count≤512) (f : ℕ)
    (j : Fin 512) :
    tables (copyTable m (4096*a) (4096*b) count) f j=
      if f=b ∧ j.val<count then tables m a j else tables m f j := by
  induction count generalizing f j with
  | zero =>
    rw [if_neg (by omega)]
    rfl
  | succ count ih =>
    have hj := j.isLt
    have hsource : load64 (copyTable m (4096*a) (4096*b) count) (4096*a+8*count)=
        tables m a ⟨count,by omega⟩ := by
      have h := ih (by omega) a ⟨count,by omega⟩
      rw [if_neg fun h => hne h.1] at h
      exact h
    rw [copyTable,List.range_succ,List.foldl_append,List.foldl_cons,List.foldl_nil]
    change tables (store64 (copyTable m (4096*a) (4096*b) count) (4096*b+8*count)
      (load64 (copyTable m (4096*a) (4096*b) count) (4096*a+8*count))) f j=_
    rw [hsource]
    by_cases hlast : f=b ∧ j.val=count
    · obtain ⟨rfl,hjc⟩ := hlast
      rw [if_pos ⟨rfl,by omega⟩,tables,show slot (4096*f) j=4096*f+8*count by rw [slot,hjc],
        load64_store64_same (show tables m a ⟨count,by omega⟩<2^64 from load64_lt _ _)]
      exact congrArg (tables m a) (Fin.ext hjc.symm)
    · rw [tables,load64_store64_disjoint (by simp only [slot]; omega)]
      refine (ih (by omega) f j).trans ?_
      by_cases hin : f=b ∧ j.val<count
      · rw [if_pos hin,if_pos ⟨hin.1,by omega⟩]
      · rw [if_neg hin,if_neg (by omega)]

/-- The tables of a new process. -/
theorem tables_copy {m : Bytes} {a b : ℕ} (hne : a≠b) :
    tables (copyTable m (4096*a) (4096*b) 512)=Function.update (tables m) b (tables m a) := by
  funext f j
  rw [copyTable_load hne le_rfl]
  by_cases hf : f=b
  · subst hf
    rw [if_pos ⟨rfl,j.isLt⟩,Function.update_self]
  · rw [if_neg fun h => hf h.1,Function.update_of_ne hf]

/-- The tables of a new process are a tree like the current one: its addresses are
translated in the same way, and the ways to page directories are as open. -/
theorem pml4Create_spec {current page : ℕ} {s s' : State} (hcurrent : current%4096=0)
    (hs : Sound (current/4096) s) (h : pml4Create current s=(page,s')) (hpage : page≠0) :
    page%4096=0 ∧ Sound (page/4096) s' ∧
      (∀ va, translate s'.memory page va=translate s.memory current va) ∧
      ∀ va, Granted s'.memory page va ↔ Granted s.memory current va := by
  cases hpages : s.pages with
  | nil =>
    simp only [pml4Create,mmapUser,hpages,List.headD_nil,if_true,Prod.mk.injEq] at h
    exact (hpage h.1.symm).elim
  | cons first rest =>
    simp only [pml4Create,mmapUser,hpages,List.headD_cons,List.tail_cons] at h
    split at h
    · rw [Prod.mk.injEq] at h
      exact (hpage h.1.symm).elim
    rw [Prod.mk.injEq] at h
    obtain ⟨rfl,rfl⟩ := h
    have hmem : first∈s.pages := by
      rw [hpages]
      exact List.mem_cons_self
    have halign := hs.fresh.aligned first hmem
    have hunused := hs.fresh.unused first hmem
    obtain ⟨c,rfl⟩ : ∃ c, current=4096*c := ⟨current/4096,by omega⟩
    obtain ⟨b,rfl⟩ : ∃ b, first=4096*b := ⟨first/4096,by omega⟩
    simp only [Nat.mul_div_cancel_left _ (show 0<4096 by norm_num)] at hunused hs ⊢
    have hne : c≠b := by
      rintro rfl
      exact hunused [] (by simp) reach_nil
    have htables := @tables_copy s.memory c b hne
    have hnodup := hs.fresh.nodup
    rw [hpages,List.nodup_cons] at hnodup
    have hrest : ∀ page∈rest, page∈s.pages := fun page hp => by
      rw [hpages]
      exact List.mem_cons_of_mem _ hp
    refine ⟨by omega,⟨?_,hnodup.2,fun page hp => hs.fresh.aligned page (hrest page hp),
      fun page hp => hs.fresh.low page (hrest page hp),fun page hp q hq hreach => ?_⟩,fun va => ?_,
      fun va => ?_⟩
    · dsimp only
      rw [htables]
      exact hs.unshared.copy hunused
    · dsimp only at hreach
      rw [htables] at hreach
      cases q with
      | nil =>
        rw [reach_nil,Option.some.injEq] at hreach
        have haligned := hs.fresh.aligned page (hrest page hp)
        have hsame : page=4096*b := by omega
        exact hnodup.1 (hsame▸hp)
      | cons i q =>
        rw [reach_copy hunused hq.le] at hreach
        exact hs.fresh.unused page (hrest page hp) _ hq hreach
    · simp only [PageTables.translate,Nat.mul_div_cancel_left _ (show 0<4096 by norm_num)]
      rw [htables,walk_copy hunused rfl]
    · simp only [Granted,Nat.mul_div_cancel_left _ (show 0<4096 by norm_num)]
      rw [htables,entry_copy hunused (by simp),entry_copy hunused (by simp)]

/-- Entries that lead to one page directory, open to the user, in an empty memory. -/
def wayTables (pml4 pdp pd : ℕ) (i4 i3 : Fin 512) : Bytes :=
  store64 (store64 (fun _ => 0) (slot pml4 i4) (pdp+7)) (slot pdp i3) (pd+7)

/-- The tables that the boot code sets up: the first 1 GiB is where it is. -/
def bootTables (pml4 pdp pd : ℕ) : Bytes :=
  (List.range 512).foldl (fun m i => store64 m (pd+8*i) (i*0x200000+0x87)) (wayTables pml4 pdp pd 0 0)

/-- An entry that is open to the user leads to its table. -/
theorem way_bits {b : ℕ} (level : ℕ) (hb : b<2^40) (hlevel : level=2 ∨ level=3) :
    UserBits (4096*b+7) ∧ decode level (4096*b+7)=.child b := by
  have hbit : ∀ k, k<3 → (4096*b+7).testBit k=true := by
    intro k hk
    interval_cases k <;> simp only [Nat.testBit_eq_decide_div_mod_eq,decide_eq_true_eq] <;> omega
  have h7 : (4096*b+7).testBit 7=false := by
    simp only [Nat.testBit_eq_decide_div_mod_eq,decide_eq_false_iff_not]
    omega
  have hzero : ¬(level=0 ∨ level≤2 ∧ false=true) := by
    simp only [Bool.false_eq_true,and_false,or_false]
    omega
  refine ⟨⟨hbit 0 (by norm_num),hbit 1 (by norm_num),hbit 2 (by norm_num)⟩,?_⟩
  rw [decode,if_pos (hbit 0 (by norm_num)),h7,if_neg hzero]
  congr 1
  omega

/-- The way is a tree, and leads to the page directory. -/
theorem way_sound {root b c : ℕ} {i4 i3 : Fin 512} {pages : List ℕ} (hb : b<2^40) (hc : c<2^40)
    (hrb : root≠b) (hrc : root≠c) (hbc : b≠c) (hnodup : pages.Nodup)
    (hpages : ∀ page∈pages, page%4096=0 ∧ page<physicalEnd ∧ page/4096≠root ∧ page/4096≠b ∧
      page/4096≠c) :
    Sound root ⟨wayTables (4096*root) (4096*b) (4096*c) i4 i3,pages⟩ ∧
      entry decode (tables (wayTables (4096*root) (4096*b) (4096*c) i4 i3)) 4 root [] i4=
        some (4096*b+7) ∧
      entry decode (tables (wayTables (4096*root) (4096*b) (4096*c) i4 i3)) 4 root [i4] i3=
        some (4096*c+7) ∧
      reach decode (tables (wayTables (4096*root) (4096*b) (4096*c) i4 i3)) 4 root [i4,i3]=some c := by
  have hzero := emptyState_absent pages
  have hempty : ∀ p f, reach decode (tables (emptyState pages).memory) 4 root p=some f → p=[] ∧ f=root := by
    intro p f h
    have hp := reach_empty (hzero root) h
    rw [hp,reach_nil,Option.some.injEq] at h
    exact ⟨hp,h.symm⟩
  have h₁ : Link decode (tables (emptyState pages).memory) 4 root [] root i4 (4096*b+7) b :=
    ⟨Unshared.empty (hzero root),reach_nil,by simp,hzero _ _ _,(way_bits 3 hb (Or.inr rfl)).2,
      fun q _ hq => hrb (hempty q b hq).2.symm,fun j => hzero _ _ _⟩
  have hother : ∀ f j, f≠root →
      set (tables (emptyState pages).memory) root i4 (4096*b+7) f j=
        tables (emptyState pages).memory f j := fun f j hf => set_other fun h => hf h.1
  have hreach₁ : ∀ q f, q.length<4 →
      reach decode (set (tables (emptyState pages).memory) root i4 (4096*b+7)) 4 root q=some f →
      f=root ∨ f=b := by
    intro q f hq h
    by_cases hqi : q=[]++[i4]
    · rw [hqi,h₁.reach_new,Option.some.injEq] at h
      exact Or.inr h.symm
    · rw [h₁.reach_eq hq.le hqi] at h
      exact Or.inl (hempty q f h).2
  have h₂ : Link decode (set (tables (emptyState pages).memory) root i4 (4096*b+7)) 4 root [i4] b i3
      (4096*c+7) c := by
    refine ⟨h₁.unshared_set,h₁.reach_new,by simp,?_,(way_bits 2 hc (Or.inl rfl)).2,fun q hq h => ?_,
      fun j => ?_⟩
    · rw [hother b i3 hrb.symm]
      exact hzero _ _ _
    · rcases hreach₁ q c hq h with hf | hf
      · exact hrc hf.symm
      · exact hbc hf.symm
    · rw [hother c j hrc.symm]
      exact hzero _ _ _
  have htables : tables (wayTables (4096*root) (4096*b) (4096*c) i4 i3)=
      set (set (tables (emptyState pages).memory) root i4 (4096*b+7)) b i3 (4096*c+7) := by
    rw [wayTables,tables_store (by omega),tables_store (by omega)]
    rfl
  have hreach₂ : ∀ q f, q.length<4 →
      reach decode (tables (wayTables (4096*root) (4096*b) (4096*c) i4 i3)) 4 root q=some f →
      f=root ∨ f=b ∨ f=c := by
    intro q f hq h
    rw [htables] at h
    by_cases hqi : q=[i4]++[i3]
    · rw [hqi,h₂.reach_new,Option.some.injEq] at h
      exact Or.inr (Or.inr h.symm)
    · rw [h₂.reach_eq hq.le hqi] at h
      rcases hreach₁ q f hq h with hf | hf
      · exact Or.inl hf
      · exact Or.inr (Or.inl hf)
  refine ⟨⟨?_,hnodup,fun page h => (hpages page h).1,fun page h => (hpages page h).2.1,
    fun page h q hq hreach => ?_⟩,?_,?_,?_⟩
  · dsimp only
    rw [htables]
    exact h₂.unshared_set
  · obtain ⟨_,_,hr,hb',hc'⟩ := hpages page h
    rcases hreach₂ q _ hq hreach with hf | hf | hf
    · exact hr hf
    · exact hb' hf
    · exact hc' hf
  · rw [htables]
    refine h₂.entry_kept (by simp) ?_ h₁.entry_new
    intro heq
    have := congrArg List.length heq
    simp at this
  · rw [htables]
    exact h₂.entry_new
  · rw [htables]
    exact h₂.reach_new

/-- The tables of the boot code are a tree. -/
theorem boot_sound {root b c : ℕ} {pages : List ℕ} (hb : b<2^40) (hc : c<2^40)
    (hrb : root≠b) (hrc : root≠c) (hbc : b≠c) (hnodup : pages.Nodup)
    (hpages : ∀ page∈pages, page%4096=0 ∧ page<physicalEnd ∧ page/4096≠root ∧ page/4096≠b ∧
      page/4096≠c) : Sound root ⟨bootTables (4096*root) (4096*b) (4096*c),pages⟩ := by
  obtain ⟨hs,_,_,hreach⟩ := @way_sound root b c 0 0 pages hb hc hrb hrc hbc hnodup hpages
  have hloop : Sound root ⟨bootTables (4096*root) (4096*b) (4096*c),pages⟩ ∧
      reach decode (tables (bootTables (4096*root) (4096*b) (4096*c))) 4 root [0,0]=some c := by
    refine foldl_range_keep (P:=fun m => Sound root ⟨m,pages⟩ ∧
      reach decode (tables m) 4 root [0,0]=some c) ⟨hs,hreach⟩ fun m i hi hm => ?_
    have hentry : i*0x200000+0x87=i*0x200000|||0x87 := by
      rw [Nat.mul_comm]
      exact @Nat.two_pow_add_eq_or_of_lt 21 0x87 (by norm_num) i
    have hleaf : decode (4-[(0 : Fin 512),0].length-1) (i*0x200000+0x87)=.leaf := by
      rw [hentry]
      exact page_leaf _
    have hslot : 4096*c+8*i=slot (4096*c) ⟨i,hi⟩ := rfl
    rw [hslot]
    refine ⟨(hm.1.write_leaf hm.2 (by simp) (by omega) hleaf).1,?_⟩
    rw [tables_store (by omega)]
    exact reach_set_self hm.1.unshared hm.2 (by simp)
  exact hloop.1

/-- When the call returns 0, the framebuffer is usable if and only if the ways to its page
directories were there before, open to the user. -/
theorem framebuffer_usable_iff {active : Bool} {fb : Geometry} {pml4 a1 a2 a3 a4 : ℕ}
    {user user' : Bytes} {s s' : State} (hroot : pml4%4096=0)
    (htree : Unshared decode (tables s.memory) 4 (pml4/4096)) (hfresh : Fresh (pml4/4096) s)
    (hapart : ∀ off, off<fbSize fb → PathApart s (pml4/4096) (fbVa off))
    (h : sysDispGetFb active fb pml4 a1 a2 a3 a4 user s=some (0,user',s')) :
    (∀ off, off<fbSize fb → Usable s'.memory pml4 (fbVa off)) ↔
      ∀ off, off<fbSize fb → Granted s.memory pml4 (fbVa off) := by
  have hmap := sysDispGetFb_cases h
  have hs : Sound (pml4/4096) s := ⟨htree,hfresh⟩
  constructor
  · intro husable off hoff
    exact granted_of_usable (pml4MapPhys_upper hroot hs hapart hmap) (husable off hoff)
  · intro hgranted off hoff
    have hsmall : ∀ k, k<fbSize fb → PathSmall s.memory (pml4/4096) (fbVa k) := by
      intro k hk e he
      obtain ⟨_,e3,_,h3,_,_,hleaf⟩ := hgranted k hk
      rw [h3,Option.some.injEq] at he
      exact he▸hleaf
    obtain ⟨offset,hle,hp⟩ := pml4MapPhys_progress hroot hs (fbSize_room fb) hsmall hmap
    exact usable_of_granted hp (by omega) (hgranted off hoff)


/-- A display of 1024 times 768 pixels. -/
def display : Geometry := ⟨0xFD000000,4096,1024,768,32⟩

/-- Its addresses go through one page directory. -/
theorem display_way {off : ℕ} (h : off<fbSize display) :
    pml4Idx (fbVa off)=511 ∧ pdptIdx (fbVa off)=510 := by
  have hsize : fbSize display=0x400000 := by decide
  rw [hsize] at h
  simp only [pml4Idx,pdptIdx,fbVa,userFbVa]
  exact ⟨Fin.ext (by dsimp only; omega),Fin.ext (by dsimp only; omega)⟩

/-- Tables with the way to the framebuffer, open to the user. -/
def openState : State := ⟨wayTables 0x1000 0x2000 0x3000 511 510,[0x4000]⟩

/-- The call returns 0 for them. -/
theorem openState_returns : ∃ user' s',
    sysDispGetFb true display 0x1000 0 0 0 0 (fun _ => 0) openState=some (0,user',s') := by
  have hreturn : (sysDispGetFb true display 0x1000 0 0 0 0 (fun _ => 0) openState).map Prod.fst=
      some 0 := by decide +kernel
  obtain ⟨⟨r,user',s'⟩,h,hr⟩ := Option.map_eq_some_iff.mp hreturn
  exact ⟨user',s',by rw [h]; exact congrArg some (Prod.ext hr rfl)⟩

/-- With the way there the framebuffer is usable. -/
theorem openState_usable : ∃ user' s',
    sysDispGetFb true display 0x1000 0 0 0 0 (fun _ => 0) openState=some (0,user',s') ∧
      ∀ off, off<fbSize display → Usable s'.memory 0x1000 (fbVa off) := by
  obtain ⟨user',s',h⟩ := openState_returns
  obtain ⟨hs,h4,h3,_⟩ := @way_sound 1 2 3 511 510 [0x4000] (by norm_num) (by norm_num) (by norm_num)
    (by norm_num) (by norm_num) (by decide) (by decide)
  obtain ⟨u4,_⟩ := @way_bits 2 3 (by norm_num) (Or.inr rfl)
  obtain ⟨u3,hchild⟩ := @way_bits 3 2 (by norm_num) (Or.inl rfl)
  have hgranted : ∀ off, off<fbSize display → Granted openState.memory 0x1000 (fbVa off) := by
    intro off hoff
    obtain ⟨hi4,hi3⟩ := display_way hoff
    rw [Granted,hi4,hi3]
    exact ⟨_,_,h4,h3,u4,u3,fun hleaf => by rw [hchild] at hleaf; cases hleaf⟩
  have hapart : ∀ off, off<fbSize display → PathApart openState (0x1000/4096) (fbVa off) := by
    intro off hoff e he hleaf
    obtain ⟨_,e3,_,he3,_,_,hnot⟩ := hgranted off hoff
    rw [he3,Option.some.injEq] at he
    exact (hnot (he▸hleaf)).elim
  exact ⟨user',s',h,(framebuffer_usable_iff (by decide) hs.unshared hs.fresh hapart h).mpr hgranted⟩

/-- Tables of a process that has been created with those of the boot code. -/
def spawnedState : ℕ×State :=
  pml4Create 0x1000 ⟨bootTables 0x1000 0x2000 0x3000,[0x4000,0x5000,0x6000]⟩

/-- The call returns 0 for the process, and the framebuffer is not usable. -/
theorem spawned_not_usable : ∃ user' s',
    sysDispGetFb true display spawnedState.1 0 0 0 0 (fun _ => 0) spawnedState.2=some (0,user',s') ∧
      ¬∀ off, off<fbSize display → Usable s'.memory spawnedState.1 (fbVa off) := by
  have hreturn : (sysDispGetFb true display spawnedState.1 0 0 0 0 (fun _ => 0) spawnedState.2).map
      (fun x => (x.1,(tables x.2.2.memory (spawnedState.1/4096) 511).testBit 2))=some (0,false) := by
    decide +kernel
  obtain ⟨⟨r,user',s'⟩,h,hr⟩ := Option.map_eq_some_iff.mp hreturn
  rw [Prod.mk.injEq] at hr
  refine ⟨user',s',by rw [h]; exact congrArg some (Prod.ext hr.1 rfl),fun husable => ?_⟩
  have hzero : 0<fbSize display := by decide
  obtain ⟨_,e4,_,_,h4,_,_,u4,_⟩ := husable 0 hzero
  rw [entry,reach_nil,Option.map_some,Option.some.injEq,(display_way hzero).1] at h4
  have hbit := u4.2.2
  rw [← h4,hr.2] at hbit
  cases hbit

end OvsbMk.Framebuffer
