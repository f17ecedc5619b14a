import OvsbMk.LabelledRuns
import OvsbMk.PageForests

/-!
# Address spaces

Runs of the calls that make, change and destroy address spaces are runs of maps with slots
in common. So the slots that a process is created with stay in common with its creator,
while what is mapped into other slots, as the framebuffer is, is seen by nobody else.
-/

namespace OvsbMk.AddressSpaces

open ByteMemory RadixTree RadixForest PageTables PageMapping Framebuffer SharedMaps PageForests
  LabelledRuns

variable {s s' : State} {A A' : Spaces ℕ (Fin 512) ℕ ℕ} {root va pa virt phys size : ℕ}

/-- Mapping a page puts it into its slot. -/
theorem page_done (h : Shows s A) (hroot : root∈A.live) (hpa : pa<2^64)
    (hmap : mapPage (4096*root) va pa 0x87 s=.done () s') :
    Shows s' (A.act (.put root (pml4Idx va) (pageValues va pa))) := by
  unfold mapPage at hmap
  obtain ⟨pdpt,s₁,hn₁,hmap⟩ := Outcome.bind_done hmap
  obtain ⟨pd,s₂,hn₂,hw⟩ := Outcome.bind_done hmap
  have h₁ := h.first hroot hn₁
  obtain ⟨_,_,ha₁,hreach₁,_⟩ := nextTable_spec (h.kept.sound hroot) (p:=[]) (by simp) reach_nil
    (decode_root _) hn₁
  obtain ⟨c,rfl⟩ : ∃ c, pdpt=4096*c := ⟨pdpt/4096,by omega⟩
  have hc := hreach₁ (nextTable_low hn₂)
  rw [Nat.mul_div_cancel_left _ (by norm_num)] at hc
  have h₂ := h₁.second hroot hc hn₂
  obtain ⟨_,_,ha₂,hreach₂,_⟩ := nextTable_spec (h₁.kept.sound hroot) (by simp) hc
    (h₁.kept.small root hroot _ c _ hc) hn₂
  obtain ⟨d,rfl⟩ : ∃ d, pd=4096*d := ⟨pd/4096,by omega⟩
  unfold writeEntry at hw
  split at hw
  case isTrue => cases hw
  case isFalse hlow =>
    obtain ⟨_,rfl⟩ := Outcome.done.inj hw
    have hd := hreach₂ (Nat.lt_of_not_le hlow)
    rw [Nat.mul_div_cancel_left _ (by norm_num)] at hd
    exact h₂.write hroot hd hpa

/-- Mapping a page may fail for want of a table, with its slot in use or not. -/
theorem page_failed (h : Shows s A) (hroot : root∈A.live)
    (hmap : mapPage (4096*root) va pa 0x87 s=.failed s') :
    Shows s' A ∨ Shows s' (A.grant root (pml4Idx va)) := by
  unfold mapPage at hmap
  cases hn₁ : nextTable (4096*root) (pml4Idx va) s with
  | stuck =>
    rw [hn₁] at hmap
    cases hmap
  | failed s₁ =>
    rw [hn₁,Outcome.bind,Outcome.failed.injEq] at hmap
    rw [← hmap,nextTable_failed hn₁]
    exact Or.inl h.fewer
  | done pdpt s₁ =>
    rw [hn₁,Outcome.bind] at hmap
    have h₁ := h.first hroot hn₁
    cases hn₂ : nextTable pdpt (pdptIdx va) s₁ with
    | stuck =>
      rw [hn₂] at hmap
      cases hmap
    | failed s₂ =>
      rw [hn₂,Outcome.bind,Outcome.failed.injEq] at hmap
      rw [← hmap,nextTable_failed hn₂]
      exact Or.inr h₁.fewer
    | done pd s₂ =>
      rw [hn₂,Outcome.bind,writeEntry] at hmap
      split at hmap <;> cases hmap

/-- The page of a range with a number. -/
def pageAct (root virt phys k : ℕ) : Act ℕ (Fin 512) ℕ ℕ :=
  .put root (pml4Idx ((virt+k*pageSize)%2^64))
    (pageValues ((virt+k*pageSize)%2^64) ((phys+k*pageSize)%2^64))

/-- Pages of a range from a number on. -/
def pageActs (root virt phys k n : ℕ) : List (Act ℕ (Fin 512) ℕ ℕ) :=
  (List.range' k n).map (pageAct root virt phys)

/-- The pages are of a range of a size: offsets of pages wrap around. -/
def Within (size k n : ℕ) : Prop := ∀ l, k≤l → l<k+n → l*pageSize%2^64<size

/-- No pages are of every range. -/
theorem Within.none (size k : ℕ) : Within size k 0 := fun _ hkl hl =>
  (Nat.not_lt.mpr hkl hl).elim

/-- What the loop has done to the spaces when it ends, and when it fails. -/
theorem mapLoop_acts (h : Shows s A) (hroot : root∈A.live) {rounds k : ℕ} :
    (∀ s', mapLoop (4096*root) virt phys size 0x87 rounds (k*pageSize%2^64) s=.done () s' →
      ∃ n, Within size k n ∧ size≤(k+n)*pageSize%2^64 ∧
        Shows s' (A.acts (pageActs root virt phys k n))) ∧
    ∀ s', mapLoop (4096*root) virt phys size 0x87 rounds (k*pageSize%2^64) s=.failed s' →
      ∃ n, Within size k n ∧ (Shows s' (A.acts (pageActs root virt phys k n)) ∨
        Shows s' ((A.acts (pageActs root virt phys k n)).grant root
          (pml4Idx ((virt+(k+n)*pageSize)%2^64)))) := by
  induction rounds generalizing k s A with
  | zero => exact ⟨fun _ hl => (by cases hl),fun _ hl => (by cases hl)⟩
  | succ rounds ih =>
    have hva : ∀ x, (x+k*pageSize%2^64)%2^64=(x+k*pageSize)%2^64 := fun x => by omega
    have hnext : (k*pageSize%2^64+pageSize)%2^64=(k+1)*pageSize%2^64 := by
      rw [Nat.succ_mul,Nat.mod_add_mod]
    have hwithin : ∀ n, k*pageSize%2^64<size → Within size (k+1) n → Within size k (n+1) := by
      intro n hlt hn l hkl hl
      rcases Nat.eq_or_lt_of_le hkl with rfl | hkl
      · exact hlt
      · exact hn l hkl (by omega)
    have hcons : ∀ n, pageActs root virt phys k (n+1)=
        pageAct root virt phys k::pageActs root virt phys (k+1) n := fun n => rfl
    have hcount : ∀ n, k+(n+1)=k+1+n := fun n => by omega
    rw [mapLoop,hva,hva,hnext]
    by_cases hlt : k*pageSize%2^64<size
    · rw [if_pos hlt]
      cases hp : mapPage (4096*root) ((virt+k*pageSize)%2^64) ((phys+k*pageSize)%2^64) 0x87 s with
      | stuck => exact ⟨fun _ hl => (by cases hl),fun _ hl => (by cases hl)⟩
      | failed s₁ =>
        refine ⟨fun _ hl => (by cases hl),fun s' hl => ⟨0,.none size k,?_⟩⟩
        rw [Outcome.bind,Outcome.failed.injEq] at hl
        rw [← hl]
        exact page_failed h hroot hp
      | done _ s₁ =>
        obtain ⟨hdone,hfailed⟩ := ih (page_done h hroot (Nat.mod_lt _ (by norm_num)) hp) hroot
          (k:=k+1)
        refine ⟨fun s' hl => ?_,fun s' hl => ?_⟩
        · obtain ⟨n,hn,hend,hshows⟩ := hdone s' hl
          refine ⟨n+1,hwithin n hlt hn,?_,?_⟩
          · rwa [hcount n]
          · rw [hcons]
            exact hshows
        · obtain ⟨n,hn,hshows⟩ := hfailed s' hl
          refine ⟨n+1,hwithin n hlt hn,?_⟩
          rw [hcons,hcount n]
          exact hshows
    · rw [if_neg hlt]
      refine ⟨fun s' hl => ⟨0,.none size k,?_,?_⟩,fun _ hl => (by cases hl)⟩
      · rw [Nat.add_zero]
        exact Nat.le_of_not_lt hlt
      · obtain ⟨_,rfl⟩ := Outcome.done.inj hl
        exact h

/-- Pages of a size. -/
def pageCount (size : ℕ) : ℕ := (size+(pageSize-1))/pageSize

/-- A loop that ends has mapped the pages of its range. -/
theorem pageCount_eq {n : ℕ} (hn : Within size 0 n) (hend : size≤(0+n)*pageSize%2^64) :
    n=pageCount size := by
  have hlast := hn (n-1)
  have hwrap := hn (2^43-1)
  simp only [pageCount,pageSize] at *
  omega

/-- A call on address spaces, with its result. -/
inductive Call where
  /-- `pml4_create` with the current table of the fourth level has returned a page. -/
  | create (current page : ℕ)
  /-- `pml4_map_phys` has returned. -/
  | map (root virt phys size : ℕ) (writable : Bool) (result : ℤ)
  /-- `pml4_destroy`. -/
  | destroy (root : ℕ)
  /-- Whatever else the kernel does. -/
  | other

/-- The memory, and the tables of the fourth level that are in use. -/
structure Kernel where
  /-- The memory and the pages of the allocator. -/
  state : State
  /-- The frames of the tables of the fourth level. -/
  roots : List ℕ

/-- What the calls do. Other code writes to no table of a space, and pages that it gives
back are not in use as tables. -/
inductive Step : Kernel → Call → Kernel → Prop where
  /-- A new table, or null. -/
  | create {s s' : State} {roots : List ℕ} {current page : ℕ} (running : current∈roots)
    (result : pml4Create (4096*current) s=(page,s')) :
    Step ⟨s,roots⟩ (.create current page) ⟨s',if page=0 then roots else page/4096::roots⟩
  /-- A mapping, or -1. -/
  | map {s s' : State} {roots : List ℕ} {root virt phys size : ℕ} {writable : Bool} {r : ℤ}
    (space : root∈roots)
    (result : pml4MapPhys (4096*root) virt phys size writable s=some (r,s')) :
    Step ⟨s,roots⟩ (.map root virt phys size writable r) ⟨s',roots⟩
  /-- The page of a table goes back to the allocator, which writes its links into it. -/
  | destroy {s s' : State} {roots : List ℕ} {root : ℕ} (space : root∈roots)
    (kept : ∀ c, c≠root → tables s'.memory c=tables s.memory c) (nodup : s'.pages.Nodup)
    (pages : ∀ page∈s'.pages, page∈s.pages ∨ page=4096*root ∧ page<physicalEnd) :
    Step ⟨s,roots⟩ (.destroy root) ⟨s',roots.filter (·≠root)⟩
  /-- Other code. -/
  | other {s s' : State} {roots : List ℕ}
    (kept : ∀ r∈roots, ∀ p c, p.length<4 → reach decode (tables s.memory) 4 r p=some c →
      tables s'.memory c=tables s.memory c)
    (nodup : s'.pages.Nodup) (aligned : ∀ page∈s'.pages, page%4096=0)
    (low : ∀ page∈s'.pages, page<physicalEnd)
    (free : ∀ page∈s'.pages, Free decode (tables s.memory) 4 roots (page/4096)) :
    Step ⟨s,roots⟩ .other ⟨s',roots⟩

/-- The acts on spaces that a call stands for: a mapping that fails has put some pages of
its range, and the slot of the next may have come into use. -/
def Performs (A : Spaces ℕ (Fin 512) ℕ ℕ) : Call → List (Act ℕ (Fin 512) ℕ ℕ) → Prop
  | .create current page, acts =>
    page=0 ∧ acts=[] ∨ page≠0 ∧ page/4096∉A.live ∧ acts=[.create current (page/4096)]
  | .map root virt phys size _ result, acts => ∃ n, Within size 0 n ∧
    (result=0 ∧ n=pageCount size ∧ acts=pageActs root virt phys 0 n ∨
      result=-1 ∧ (acts=pageActs root virt phys 0 n ∨
        acts=pageActs root virt phys 0 n++[.grant root (pml4Idx ((virt+n*pageSize)%2^64))]))
  | .destroy root, acts => acts=[.drop root]
  | .other, acts => acts=[]

/-- What the calls do to spaces. -/
def SpacesStep (A : Spaces ℕ (Fin 512) ℕ ℕ) (l : Call) (A' : Spaces ℕ (Fin 512) ℕ ℕ) : Prop :=
  ∃ acts, Performs A l acts ∧ A'=A.acts acts

/-- The tables in use show the spaces. -/
def Models (K : Kernel) (A : Spaces ℕ (Fin 512) ℕ ℕ) : Prop := A.live=K.roots ∧ Shows K.state A

/-- A mapping puts pages. -/
theorem map_acts (h : Shows s A) (hroot : root∈A.live) {writable : Bool} {r : ℤ}
    (hmap : pml4MapPhys (4096*root) virt phys size writable s=some (r,s')) :
    ∃ acts, Performs A (.map root virt phys size writable r) acts ∧ Shows s' (A.acts acts) := by
  obtain ⟨hdone,hfailed⟩ := @mapLoop_acts s A root virt phys size h hroot mapRounds 0
  rw [Nat.zero_mul,Nat.zero_mod] at hdone hfailed
  unfold pml4MapPhys at hmap
  rw [entryFlags_eq] at hmap
  split at hmap
  case h_1 s₁ hloop =>
    obtain ⟨rfl,rfl⟩ := Prod.mk.inj (Option.some.inj hmap)
    obtain ⟨n,hn,hend,hshows⟩ := hdone _ hloop
    exact ⟨_,⟨n,hn,Or.inl ⟨rfl,pageCount_eq hn hend,rfl⟩⟩,hshows⟩
  case h_2 s₁ hloop =>
    obtain ⟨rfl,rfl⟩ := Prod.mk.inj (Option.some.inj hmap)
    obtain ⟨n,hn,hshows | hshows⟩ := hfailed _ hloop
    · exact ⟨_,⟨n,hn,Or.inr ⟨rfl,Or.inl rfl⟩⟩,hshows⟩
    · refine ⟨_,⟨n,hn,Or.inr ⟨rfl,Or.inr rfl⟩⟩,?_⟩
      rw [Nat.zero_add] at hshows
      rw [Spaces.acts,List.foldl_append]
      exact hshows
  case h_3 => cases hmap

/-- Putting pages leaves the spaces that there are. -/
theorem pageActs_live (root virt phys k n : ℕ) :
    (A.acts (pageActs root virt phys k n)).live=A.live := by
  induction n generalizing A k with
  | zero => rfl
  | succ n ih =>
    show ((A.act (pageAct root virt phys k)).acts (pageActs root virt phys (k+1) n)).live=A.live
    exact ih (k+1)

/-- A mapping leaves the spaces that there are. -/
theorem map_live {writable : Bool} {r : ℤ} {acts : List (Act ℕ (Fin 512) ℕ ℕ)}
    (h : Performs A (.map root virt phys size writable r) acts) : (A.acts acts).live=A.live := by
  obtain ⟨n,_,⟨_,_,rfl⟩ | ⟨_,rfl | rfl⟩⟩ := h
  · exact pageActs_live ..
  · exact pageActs_live ..
  · rw [Spaces.acts,List.foldl_append]
    exact pageActs_live ..

/-- The calls do to the spaces that the tables show what they do to the tables. -/
theorem calls_simulate : Simulates Step SpacesStep Models := by
  rintro K l K' A ⟨hlive,h⟩ hstep
  cases hstep with
  | @create s s' roots current page running result =>
    rcases h.create (hlive▸running) result with ⟨rfl,h'⟩ | ⟨hpage,_,hnot,h'⟩
    · exact ⟨A,⟨[],Or.inl ⟨rfl,rfl⟩,rfl⟩,hlive,h'⟩
    · refine ⟨_,⟨_,Or.inr ⟨hpage,hnot,rfl⟩,rfl⟩,?_,h'⟩
      dsimp only
      rw [if_neg hpage]
      exact congrArg (page/4096::·) hlive
  | map space result =>
    obtain ⟨acts,hperforms,h'⟩ := map_acts h (hlive▸space) result
    exact ⟨_,⟨acts,hperforms,rfl⟩,(map_live hperforms).trans hlive,h'⟩
  | @destroy s s' roots root space kept nodup pages =>
    obtain rfl : A.live=roots := hlive
    have hsub : ∀ r∈A.live.filter (·≠root), r∈A.live := fun r hr => List.mem_of_mem_filter hr
    have hne : ∀ r∈A.live.filter (·≠root), r≠root := fun r hr =>
      of_decide_eq_true (List.mem_filter.mp hr).2
    have hfree : Free decode (tables s.memory) 4 (A.live.filter (·≠root)) root := by
      intro r hr q hq hc
      exact hne r hr ((h.kept.forest.sees space (hsub r hr) (p:=[]) (by norm_num) hq reach_nil
        hc).2)
    have htrees : ∀ r∈A.live.filter (·≠root), ∀ p c, p.length<4 →
        reach decode (tables s.memory) 4 r p=some c → tables s'.memory c=tables s.memory c :=
      fun r hr p c hp hc => kept c fun heq => hfree r hr p hp (heq▸hc)
    have hkept : Kept (A.live.filter (·≠root)) s' := by
      refine h.kept.untouched hsub htrees nodup (fun page hpage => ?_) (fun page hpage => ?_)
        fun page hpage => ?_
      · rcases pages page hpage with hold | ⟨rfl,_⟩
        · exact h.kept.aligned page hold
        · omega
      · rcases pages page hpage with hold | ⟨_,hlow⟩
        · exact h.kept.low page hold
        · exact hlow
      · rcases pages page hpage with hold | ⟨rfl,_⟩
        · exact fun r hr => h.kept.free page hold r (hsub r hr)
        · rwa [Nat.mul_div_cancel_left _ (by norm_num)]
    exact ⟨_,⟨_,rfl,rfl⟩,rfl,h.untouched (B:=A.act (.drop root)) hkept hsub rfl rfl htrees⟩
  | other kept nodup aligned low free =>
    obtain rfl := hlive
    exact ⟨A,⟨[],rfl,rfl⟩,rfl,h.untouched (h.kept.untouched (fun _ hr => hr) kept nodup aligned low
      free) (fun _ hr => hr) rfl rfl kept⟩

/-- A tree without pages of 1 GiB is kept. -/
theorem kept_single (h : Sound root s)
    (hsmall : ∀ i c j, reach decode (tables s.memory) 4 root [i]=some c →
      decode 2 (tables s.memory c j)≠.leaf) : Kept [root] s := by
  refine ⟨.single h.unshared,fun r hr => ?_,h.fresh.nodup,h.fresh.aligned,h.fresh.low,
    fun page hpage r hr => ?_⟩
  · obtain rfl := List.mem_singleton.mp hr
    exact hsmall
  · obtain rfl := List.mem_singleton.mp hr
    exact h.fresh.unused page hpage

/-- Entries of the way to one page directory are no pages of 1 GiB. -/
theorem way_small {b c : ℕ} {i4 i3 : Fin 512} (hb : b<2^40) (hc : c<2^40) (f : ℕ) (j : Fin 512) :
    decode 2 (tables (wayTables (4096*root) (4096*b) (4096*c) i4 i3) f j)≠.leaf := by
  have hway : ∀ x, x<2^40 → decode 2 (4096*x+7)≠.leaf := fun x hx hleaf => by
    rw [(way_bits 2 hx (Or.inl rfl)).2] at hleaf
    cases hleaf
  rw [wayTables,tables_store (by omega),tables_store (by omega)]
  by_cases hf : f=b ∧ j=i3
  · rw [hf.1,hf.2,set_same]
    exact hway c hc
  · rw [set_other hf]
    by_cases hf' : f=root ∧ j=i4
    · rw [hf'.1,hf'.2,set_same]
      exact hway b hb
    · rw [set_other hf']
      intro hleaf
      have habsent := emptyState_absent [] f j 2
      rw [show tables (fun _ => 0) f j=tables (emptyState []).memory f j from rfl,habsent] at hleaf
      cases hleaf

/-- The tables of the boot code are kept. -/
theorem boot_kept {b c : ℕ} {pages : List ℕ} (hb : b<2^40) (hc : c<2^40) (hrb : root≠b)
    (hrc : root≠c) (hbc : b≠c) (hnodup : pages.Nodup)
    (hpages : ∀ page∈pages, page%4096=0 ∧ page<physicalEnd ∧ page/4096≠root ∧ page/4096≠b ∧
      page/4096≠c) : Kept [root] ⟨bootTables (4096*root) (4096*b) (4096*c),pages⟩ := by
  obtain ⟨hs,_,_,hreach⟩ := @way_sound root b c 0 0 pages hb hc hrb hrc hbc hnodup hpages
  have hloop : Kept [root] ⟨bootTables (4096*root) (4096*b) (4096*c),pages⟩ ∧
      reach decode (tables (bootTables (4096*root) (4096*b) (4096*c))) 4 root [0,0]=some c := by
    refine foldl_range_keep (P:=fun m => Kept [root] ⟨m,pages⟩ ∧
      reach decode (tables m) 4 root [0,0]=some c)
      ⟨kept_single hs fun _ f j _ => way_small hb hc f j,hreach⟩ fun m i hi hm => ?_
    have hentry : i*0x200000+0x87=i*0x200000|||0x87 := by
      rw [Nat.mul_comm]
      exact @Nat.two_pow_add_eq_or_of_lt 21 0x87 (by norm_num) i
    have hslot : 4096*c+8*i=slot (4096*c) ⟨i,hi⟩ := rfl
    rw [hslot,hentry]
    refine ⟨hm.1.write List.mem_cons_self hm.2 (by omega),?_⟩
    rw [tables_store (by rw [← hentry]; omega)]
    exact reach_set_self (hm.1.forest.unshared List.mem_cons_self) hm.2 (by simp)
  exact hloop.1

/-- The spaces that the tables in use show. -/
def Kernel.spaces (K : Kernel) : Spaces ℕ (Fin 512) ℕ ℕ :=
  ⟨K.roots,fun r va => translate K.state.memory (4096*r) va,Common K.state.memory⟩

/-- Tables that are kept show their spaces. -/
theorem models_spaces {K : Kernel} (h : Kept K.roots K.state) : Models K K.spaces :=
  ⟨rfl,h,fun _ _ _ => rfl,fun _ _ _ _ _ => Iff.rfl⟩

/-- Whatever calls are made, in any order and with any results, each does to the address
spaces what it stands for: a new space has the slots in use in common with the current one,
a mapping puts the pages of its range, and no space sees anything else. -/
theorem spaces_refine {K K' : Kernel} {labels : List Call} (h : Kept K.roots K.state)
    (hrun : Run Step K labels K') : ∃ A', Run SpacesStep K.spaces labels A' ∧ Models K' A' :=
  calls_simulate.run (models_spaces h) hrun

/-- The tables of the boot code, with three pages left. -/
def bootKernel : Kernel := ⟨⟨bootTables 0x1000 0x2000 0x3000,[0x4000,0x5000,0x6000]⟩,[1]⟩

/-- They are kept. -/
theorem bootKernel_kept : Kept bootKernel.roots bootKernel.state :=
  @boot_kept 1 2 3 [0x4000,0x5000,0x6000] (by norm_num) (by norm_num) (by norm_num) (by norm_num)
    (by norm_num) (by decide) (by decide)

/-- The tables with those of a new process. -/
def pairKernel : Kernel := ⟨(pml4Create 0x1000 bootKernel.state).2,[4,1]⟩

/-- The process is created. -/
theorem pairKernel_created : Step bootKernel (.create 1 0x4000) pairKernel :=
  @Step.create bootKernel.state pairKernel.state [1] 1 0x4000 (by decide)
    (Prod.ext (by decide +kernel) rfl)

/-- It gets a framebuffer of 4 MiB. -/
theorem pairKernel_mapped : ∃ s', pml4MapPhys (4096*4) userFbVa 0xFD000000 0x400000 true
    pairKernel.state=some (0,s') := by
  have hreturn : (pml4MapPhys (4096*4) userFbVa 0xFD000000 0x400000 true pairKernel.state).map
      Prod.fst=some 0 := by decide +kernel
  obtain ⟨⟨r,s'⟩,h,hr⟩ := Option.map_eq_some_iff.mp hreturn
  exact ⟨s',h.trans (congrArg some (Prod.ext hr rfl))⟩

/-- The spaces after both calls. -/
theorem bootKernel_spaces : ∃ K' A', Run SpacesStep bootKernel.spaces
    [.create 1 0x4000,.map 4 userFbVa 0xFD000000 0x400000 true 0] A' ∧ Models K' A' := by
  obtain ⟨s',hmap⟩ := pairKernel_mapped
  have hrun : Run Step bootKernel [.create 1 0x4000,.map 4 userFbVa 0xFD000000 0x400000 true 0]
      ⟨s',[4,1]⟩ := .go pairKernel_created (.single (.map (by decide) hmap))
  obtain ⟨A',hspaces,hmodels⟩ := spaces_refine bootKernel_kept hrun
  exact ⟨_,A',hspaces,hmodels⟩

/-- One call, between the spaces shown before and after. -/
theorem step_acts {K K' : Kernel} {l : Call} (h : Kept K.roots K.state) (hstep : Step K l K') :
    ∃ acts, Performs K.spaces l acts ∧ Models K' (K.spaces.acts acts) := by
  obtain ⟨_,⟨acts,hperforms,rfl⟩,hmodels⟩ := calls_simulate K l K' _ (models_spaces h) hstep
  exact ⟨acts,hperforms,hmodels⟩

/-- A call that does not destroy a space leaves it alone. -/
theorem performs_spares {x : ℕ} {l : Call} {acts : List (Act ℕ (Fin 512) ℕ ℕ)} (hx : x∈A.live)
    (h : Performs A l acts) (hl : l≠.destroy x) : ∀ act∈acts, act.Spares x := by
  have hpages : ∀ root virt phys n, ∀ act∈pageActs root virt phys 0 n, act.Spares x := by
    intro root virt phys n act hact
    obtain ⟨k,_,rfl⟩ := List.mem_map.mp hact
    trivial
  cases l with
  | create current page =>
    rcases h with ⟨_,rfl⟩ | ⟨_,hnot,rfl⟩
    · exact List.forall_mem_nil _
    · exact List.forall_mem_singleton.mpr fun heq => hnot (heq▸hx)
  | map root virt phys size writable r =>
    obtain ⟨n,_,⟨_,_,rfl⟩ | ⟨_,rfl | rfl⟩⟩ := h
    · exact hpages root virt phys n
    · exact hpages root virt phys n
    · exact List.forall_mem_append.mpr ⟨hpages root virt phys n,List.forall_mem_singleton.mpr
        trivial⟩
  | destroy root =>
    rw [show acts=[.drop root] from h]
    exact List.forall_mem_singleton.mpr fun heq => hl (heq▸rfl)
  | other =>
    rw [show acts=[] from h]
    exact List.forall_mem_nil _

/-- A space that a call does not destroy is still there, with its tables kept. -/
theorem step_lives {K K' : Kernel} {l : Call} {x : ℕ} (h : Kept K.roots K.state)
    (hstep : Step K l K') (hx : x∈K.roots) (hl : l≠.destroy x) :
    Kept K'.roots K'.state ∧ x∈K'.roots := by
  obtain ⟨acts,hperforms,hlive,hshows⟩ := step_acts h hstep
  rw [← hlive]
  exact ⟨hshows.kept,Spaces.live_acts (performs_spares hx hperforms hl) hx⟩

/-- A call leaves what two spaces have in common. -/
theorem common_step {K K' : Kernel} {l : Call} {x y : ℕ} (k : Fin 512) (h : Kept K.roots K.state)
    (hx : x∈K.roots) (hy : y∈K.roots) (hne : x≠y) (hstep : Step K l K') (hlx : l≠.destroy x)
    (hly : l≠.destroy y) : Common K'.state.memory x y k ↔ Common K.state.memory x y k := by
  obtain ⟨acts,hperforms,hlive,hshows⟩ := step_acts h hstep
  have hspares : ∀ act∈acts, act.Spares x ∧ act.Spares y := fun act hact =>
    ⟨performs_spares hx hperforms hlx act hact,performs_spares hy hperforms hly act hact⟩
  have hxl : x∈(K.spaces.acts acts).live :=
    Spaces.live_acts (fun act hact => (hspares act hact).1) hx
  have hyl : y∈(K.spaces.acts acts).live :=
    Spaces.live_acts (fun act hact => (hspares act hact).2) hy
  exact (hshows.common x hxl y hyl k).symm.trans (Spaces.common_acts hne hspares)

/-- Two processes have a slot of the fourth level in common at the end of a run if and only
if they had it at its beginning, whatever the kernel has mapped for them or for others, as
long as both are there. -/
theorem common_slots_fixed {K K' : Kernel} {labels : List Call} {x y : ℕ} (k : Fin 512)
    (h : Kept K.roots K.state) (hx : x∈K.roots) (hy : y∈K.roots) (hne : x≠y)
    (hrun : Run Step K labels K') (hlabels : ∀ l∈labels, l≠.destroy x ∧ l≠.destroy y) :
    Common K'.state.memory x y k ↔ Common K.state.memory x y k := by
  have hstart : Kept K.roots K.state ∧ x∈K.roots ∧ y∈K.roots ∧
      (Common K.state.memory x y k ↔ Common K.state.memory x y k) := ⟨h,hx,hy,Iff.rfl⟩
  have hrestricted := hrun.restrict hlabels
  have hkeeps := hrestricted.keeps (P:=fun K₁ => Kept K₁.roots K₁.state ∧ x∈K₁.roots ∧ y∈K₁.roots ∧
      (Common K₁.state.memory x y k ↔ Common K.state.memory x y k)) ?_ hstart
  · exact hkeeps.2.2.2
  · rintro K₁ l K₂ ⟨h₁,hx₁,hy₁,hc₁⟩ ⟨hstep,hlx,hly⟩
    exact ⟨(step_lives h₁ hstep hx₁ hlx).1,(step_lives h₁ hstep hx₁ hlx).2,
      (step_lives h₁ hstep hy₁ hly).2,(common_step k h₁ hx₁ hy₁ hne hstep hlx hly).trans hc₁⟩

/-- The process and its creator have the slots in common that they had before the mapping. -/
theorem pairKernel_common : ∃ K', Run Step pairKernel
    [.map 4 userFbVa 0xFD000000 0x400000 true 0] K' ∧
    ∀ k, Common K'.state.memory 4 1 k ↔ Common pairKernel.state.memory 4 1 k := by
  obtain ⟨s',hmap⟩ := pairKernel_mapped
  have hrun : Run Step pairKernel [.map 4 userFbVa 0xFD000000 0x400000 true 0] ⟨s',[4,1]⟩ :=
    .single (.map (by decide) hmap)
  have hkept := (step_lives (x:=1) bootKernel_kept pairKernel_created (by decide)
      Call.noConfusion).1
  exact ⟨_,hrun,fun k => common_slots_fixed k hkept (by decide) (by decide) (by decide) hrun
    fun l hl => by rw [List.mem_singleton.mp hl]; exact ⟨Call.noConfusion,Call.noConfusion⟩⟩

/-- The call maps no page at an address through a slot that a space uses, and does not
destroy the space. -/
def Spares (K : Kernel) (x va : ℕ) : Call → Prop
  | .map root virt _ size _ _ => root=x ∨ Common K.state.memory root x (pml4Idx va) →
    ∀ offset, offset<size → pagePath ((virt+offset)%2^64)≠pagePath va
  | .destroy root => root≠x
  | _ => True

/-- Pages that are not at an address, or not in a slot that a space uses, are not seen there. -/
theorem pageActs_look {x k n : ℕ}
    (h : root=x ∨ A.common root x (pml4Idx va) → ∀ l, k≤l → l<k+n →
      pagePath ((virt+l*pageSize)%2^64)≠pagePath va) :
    (A.acts (pageActs root virt phys k n)).look x va=A.look x va := by
  induction n generalizing A k with
  | zero => rfl
  | succ n ih =>
    have hfirst : (A.act (pageAct root virt phys k)).look x va=A.look x va := by
      refine Spaces.look_put fun hcommon => if_neg fun hpage => ?_
      have hslot : pml4Idx ((virt+k*pageSize)%2^64)=pml4Idx va := (List.cons.inj hpage).1.symm
      refine h ?_ k le_rfl (by omega) hpage.symm
      rcases hcommon with hold | ⟨_,hx,_⟩
      · exact Or.inr (hslot▸hold)
      · exact Or.inl hx.symm
    refine (ih (k:=k+1) fun hcommon l hkl hl => h ?_ l (by omega) (by omega)).trans hfirst
    rcases hcommon with hx | hold | ⟨_,hx,_⟩
    · exact Or.inl hx
    · exact Or.inr hold
    · exact Or.inl hx.symm

/-- A call that spares an address of a space leaves the space, and what the address is
translated to. -/
theorem translate_step {K K' : Kernel} {l : Call} {x : ℕ} (h : Kept K.roots K.state)
    (hx : x∈K.roots) (hstep : Step K l K') (hspares : Spares K x va l) :
    Kept K'.roots K'.state ∧ x∈K'.roots ∧
      translate K'.state.memory (4096*x) va=translate K.state.memory (4096*x) va := by
  have hl : l≠.destroy x := by
    rintro rfl
    exact hspares rfl
  obtain ⟨hkept,hx'⟩ := step_lives h hstep hx hl
  obtain ⟨acts,hperforms,hlive,hshows⟩ := step_acts h hstep
  have hxl : x∈(K.spaces.acts acts).live := by rwa [hlive]
  refine ⟨hkept,hx',?_⟩
  rw [← hshows.look x hxl va]
  show (K.spaces.acts acts).look x va=K.spaces.look x va
  cases l with
  | create current page =>
    rcases hperforms with ⟨_,rfl⟩ | ⟨_,hnot,rfl⟩
    · rfl
    · show K.spaces.look (if x=page/4096 then current else x) va=K.spaces.look x va
      rw [if_neg fun heq : x=page/4096 => hnot (heq▸hx)]
  | map root virt phys size writable r =>
    obtain ⟨n,hn,hacts⟩ := hperforms
    have hpages : (K.spaces.acts (pageActs root virt phys 0 n)).look x va=K.spaces.look x va := by
      refine pageActs_look fun hcommon l _ hl => ?_
      rw [← Nat.add_mod_mod]
      exact hspares hcommon _ (hn l (Nat.zero_le l) hl)
    rcases hacts with ⟨_,_,rfl⟩ | ⟨_,rfl | rfl⟩
    · exact hpages
    · exact hpages
    · rw [Spaces.acts,List.foldl_append]
      exact hpages
  | destroy root =>
    rw [show acts=[.drop root] from hperforms]
    rfl
  | other =>
    rw [show acts=[] from hperforms]
    rfl

/-- What an address is translated to in one process changes only when a page is mapped
there for it, or for another process that has the slot of the address in common with it:
every other mapping, whether it succeeds or fails, and every creation and destruction of
other processes leaves it as it is. -/
theorem foreign_calls_unseen {K K' : Kernel} {labels : List Call} {x : ℕ} (va : ℕ)
    (h : Kept K.roots K.state) (hx : x∈K.roots)
    (hrun : Run (fun K l K' => Step K l K' ∧ Spares K x va l) K labels K') :
    x∈K'.roots ∧ translate K'.state.memory (4096*x) va=translate K.state.memory (4096*x) va := by
  have hstart : Kept K.roots K.state ∧ x∈K.roots ∧
      translate K.state.memory (4096*x) va=translate K.state.memory (4096*x) va := ⟨h,hx,rfl⟩
  refine (hrun.keeps (P:=fun K₁ => Kept K₁.roots K₁.state ∧ x∈K₁.roots ∧
      translate K₁.state.memory (4096*x) va=translate K.state.memory (4096*x) va) ?_ hstart).2
  rintro K₁ l K₂ ⟨h₁,hx₁,ht₁⟩ ⟨hstep,hspares⟩
  obtain ⟨hkept,hx₂,ht₂⟩ := translate_step h₁ hx₁ hstep hspares
  exact ⟨hkept,hx₂,ht₂.trans ht₁⟩

/-- The creator does not see the framebuffer of the process. -/
theorem pairKernel_unseen : ∃ K', Step pairKernel (.map 4 userFbVa 0xFD000000 0x400000 true 0) K' ∧
    translate K'.state.memory (4096*1) userFbVa=
      translate pairKernel.state.memory (4096*1) userFbVa := by
  obtain ⟨s',hmap⟩ := pairKernel_mapped
  have hstep : Step pairKernel (.map 4 userFbVa 0xFD000000 0x400000 true 0) ⟨s',[4,1]⟩ :=
    .map (by decide) hmap
  have hkept := (step_lives (x:=1) bootKernel_kept pairKernel_created (by decide)
      Call.noConfusion).1
  have hbit : (tables pairKernel.state.memory 4 511).testBit 0=false := by decide +kernel
  have hspares : Spares pairKernel 1 userFbVa (.map 4 userFbVa 0xFD000000 0x400000 true 0) := by
    rintro (heq | ⟨hpresent,_⟩)
    · cases heq
    · rw [show pml4Idx userFbVa=511 by decide,hbit] at hpresent
      cases hpresent
  exact ⟨_,hstep,(foreign_calls_unseen userFbVa hkept (by decide) (.single ⟨hstep,hspares⟩)).2⟩

end OvsbMk.AddressSpaces
