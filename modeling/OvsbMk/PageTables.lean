import OvsbMk.ByteMemory
import OvsbMk.RadixTree

/-!
# Page tables

The kernel maps physical memory in pages of 2 MiB: it walks the tables of four levels to
the page directory, puts an empty table wherever the way ends before, and writes one
entry. The tables are read here as a radix tree over the frames of the memory, the way
the processor does: bit 0 of an entry says that it is present, and bit 7 that it maps a
page of 1 GiB or of 2 MiB where it stands on the two levels that may. Bits that the
processor reserves are not checked.
-/

namespace OvsbMk.PageTables

open ByteMemory RadixTree

/-- The memory that holds the tables, and what `mmap_user` will return before it returns
null. -/
structure State where
  /-- The memory, at its physical addresses. -/
  memory : Bytes
  /-- The pages that are left. -/
  pages : List ℕ

/-- How code on the tables ends. -/
inductive Outcome (α : Type) where
  /-- It goes on with a value. -/
  | done (value : α) (s : State)
  /-- It has returned -1. -/
  | failed (s : State)
  /-- It does not return: an access that faults, or a loop without an end. -/
  | stuck

/-- Go on with the value. -/
def Outcome.bind {α β : Type} (x : Outcome α) (f : α → State → Outcome β) : Outcome β :=
  match x with
  | .done value s => f value s
  | .failed s => .failed s
  | .stuck => .stuck

/-- What goes on has gone on before. -/
theorem Outcome.bind_done {α β : Type} {x : Outcome α} {f : α → State → Outcome β} {b : β}
    {s' : State} (h : x.bind f=.done b s') : ∃ a s, x=.done a s ∧ f a s=.done b s' := by
  cases x with
  | done a s => exact ⟨a,s,rfl,h⟩
  | failed s => cases h
  | stuck => cases h

/-- Index into the table of the fourth level. -/
def pml4Idx (va : ℕ) : Fin 512 := ⟨va/2^39%512,Nat.mod_lt _ (by decide)⟩

/-- Index into the table of the third level. -/
def pdptIdx (va : ℕ) : Fin 512 := ⟨va/2^30%512,Nat.mod_lt _ (by decide)⟩

/-- Index into the table of the second level. -/
def pdIdx (va : ℕ) : Fin 512 := ⟨va/2^21%512,Nat.mod_lt _ (by decide)⟩

/-- Index into the table of the first level, which the code does not use. -/
def ptIdx (va : ℕ) : Fin 512 := ⟨va/2^12%512,Nat.mod_lt _ (by decide)⟩

/-- The entry at an index of a table. -/
def slot (table : ℕ) (i : Fin 512) : ℕ := table+8*i.val

/-- Bytes of a page that the code maps. -/
abbrev pageSize : ℕ := 0x200000

/-- Physical addresses are below; others are not identity-mapped. -/
abbrev physicalEnd : ℕ := 2^52

/-- Zero the entries of a table. -/
def zeroTable (memory : Bytes) (table : ℕ) : Bytes :=
  (List.range 512).foldl (fun m i => store64 m (table+8*i) 0) memory

/-- The table that an entry points to. -/
def pointed (memory : Bytes) (address : ℕ) : ℕ := load64 memory address/4096*4096

/-- A page from the kernel's allocator, or null. -/
def mmapUser (s : State) : ℕ×State := (s.pages.headD 0,⟨s.memory,s.pages.tail⟩)

/-- The next table on the way, a new one where the entry is not present. -/
def nextTable (table : ℕ) (i : Fin 512) (s : State) : Outcome ℕ :=
  if physicalEnd≤table then .stuck
  else if load64 s.memory (slot table i)&&&1=0 then
    let (page,s) := mmapUser s
    if page=0 then .failed s
    else
      let memory := store64 (zeroTable s.memory page) (slot table i) (page|||0x03)
      .done (pointed memory (slot table i)) ⟨memory,s.pages⟩
  else .done (pointed s.memory (slot table i)) s

/-- Write an entry. -/
def writeEntry (table : ℕ) (i : Fin 512) (e : ℕ) (s : State) : Outcome Unit :=
  if physicalEnd≤table then .stuck
  else .done () ⟨store64 s.memory (slot table i) e,s.pages⟩

/-- Map one page. -/
def mapPage (pml4 va pa flags : ℕ) (s : State) : Outcome Unit :=
  (nextTable pml4 (pml4Idx va) s).bind fun pdpt s =>
    (nextTable pdpt (pdptIdx va) s).bind fun pd s =>
      writeEntry pd (pdIdx va) (pa|||flags) s

/-- Map the pages from an offset on. -/
def mapLoop (pml4 virt phys size flags : ℕ) : ℕ → ℕ → State → Outcome Unit
  | 0, _, _ => .stuck
  | rounds+1, offset, s =>
    if offset<size then
      (mapPage pml4 ((virt+offset)%2^64) ((phys+offset)%2^64) flags s).bind fun _ s =>
        mapLoop pml4 virt phys size flags rounds ((offset+pageSize)%2^64) s
    else .done () s

/-- Flags of the entries that are written. -/
def entryFlags (writable : Bool) : ℕ := if writable then 0x87|||0x04 else 0x87

/-- Rounds after which the offset has come back to 0. -/
abbrev mapRounds : ℕ := 2^43

/-- Map physical memory. -/
def pml4MapPhys (pml4 virt phys size : ℕ) (writable : Bool) (s : State) : Option (ℤ×State) :=
  match mapLoop pml4 virt phys size (entryFlags writable) mapRounds 0 s with
  | .done _ s => some (0,s)
  | .failed s => some (-1,s)
  | .stuck => none

/-- The tables of a memory: the entries of every frame. -/
def tables (memory : Bytes) (frame : ℕ) (i : Fin 512) : ℕ := load64 memory (slot (4096*frame) i)

/-- What an entry means with a number of levels below it. -/
def decode (level e : ℕ) : Target ℕ :=
  if e.testBit 0 then
    if level=0 ∨ level≤2 ∧ e.testBit 7 then .leaf else .child (e/4096%2^40)
  else .absent

/-- The indices of an address. -/
def indices (va : ℕ) : List (Fin 512) := [pml4Idx va,pdptIdx va,pdIdx va,ptIdx va]

/-- The memory that a leaf maps. -/
def frameBase (e level : ℕ) : ℕ := e%2^52/2^(12+9*level)*2^(12+9*level)

/-- The physical address that the processor finds. -/
def translate (memory : Bytes) (pml4 va : ℕ) : Option ℕ :=
  (walk decode (tables memory) (pml4/4096) (indices va)).map fun x =>
    frameBase x.1 x.2+va%2^(12+9*x.2)

/-- A store to a slot is a change of the entry. -/
theorem tables_store {m : Bytes} {a v : ℕ} {i : Fin 512} (hv : v<2^64) :
    tables (store64 m (slot (4096*a) i) v)=set (tables m) a i v := by
  funext b j
  have hi := i.isLt
  have hj := j.isLt
  by_cases h : b=a ∧ j=i
  · obtain ⟨rfl,rfl⟩ := h
    rw [set_same,tables,load64_store64_same hv]
  · have hne : ¬(b=a ∧ j.val=i.val) := fun hb => h ⟨hb.1,Fin.ext hb.2⟩
    rw [set_other h,tables,tables,load64_store64_disjoint]
    simp only [slot]
    omega

/-- Zeroing a page fills the table with entries that are not present. -/
theorem tables_zero {m : Bytes} {a : ℕ} : tables (zeroTable m (4096*a))=fill (tables m) a 0 := by
  funext b j
  have hj := j.isLt
  by_cases hb : b=a
  · subst hb
    rw [fill,Function.update_self]
    refine foldl_range_establish (P:=fun m' => load64 m' (slot (4096*b) j)=0) (j:=j.val) hj
      (fun m' => load64_store64_same (by norm_num)) fun m' i _ h => ?_
    by_cases hi : i=j.val
    · subst hi
      exact load64_store64_same (by norm_num)
    · rw [load64_store64_disjoint (by simp only [slot]; omega)]
      exact h
  · rw [fill,Function.update_of_ne hb]
    refine foldl_range_keep (P:=fun m' => load64 m' (slot (4096*b) j)=tables m b j) rfl
      fun m' i hi h => ?_
    rw [load64_store64_disjoint (by simp only [slot]; omega)]
    exact h

/-- The bit that the code tests. -/
theorem present_iff {e : ℕ} : e&&&1=0 ↔ e.testBit 0=false := by
  rw [Nat.and_one_is_mod,Nat.testBit_zero,decide_eq_false_iff_not]
  omega

/-- An entry for a new table. -/
theorem link_eq {b : ℕ} : 4096*b|||0x03=4096*b+3 :=
  (@Nat.two_pow_add_eq_or_of_lt 12 3 (by norm_num) b).symm

/-- An entry for a new table is present and not a page, and has no User bit. -/
theorem link_bits {b : ℕ} :
    (4096*b|||0x03).testBit 0=true ∧ (4096*b|||0x03).testBit 2=false ∧
      (4096*b|||0x03).testBit 7=false := by
  rw [link_eq]
  refine ⟨?_,?_,?_⟩ <;> simp only [Nat.testBit_eq_decide_div_mod_eq,decide_eq_true_eq,
    decide_eq_false_iff_not] <;> omega

/-- An entry that is present and not a page leads to a table. -/
theorem decode_child {level e : ℕ} (hpresent : e.testBit 0=true) (hleaf : decode level e≠.leaf) :
    decode level e=.child (e/4096%2^40) := by
  rw [decode,if_pos hpresent] at hleaf ⊢
  by_cases h : level=0 ∨ level≤2 ∧ e.testBit 7
  · rw [if_pos h] at hleaf
    exact (hleaf rfl).elim
  · rw [if_neg h]

/-- Entries without the bit are absent. -/
theorem decode_absent {level e : ℕ} (h : e.testBit 0=false) : decode level e=.absent := by
  rw [decode,h]
  rfl

/-- Entries that a level reads as absent do not have the bit. -/
theorem absent_iff {level e : ℕ} : decode level e=.absent ↔ e.testBit 0=false := by
  refine ⟨fun h => ?_,decode_absent⟩
  by_contra hne
  rw [Bool.not_eq_false] at hne
  rw [decode,if_pos hne] at h
  split at h <;> cases h

/-- What the allocator promises of the pages it hands out: they are different pages of
the identity-mapped memory, and none of them is a table of the tree. -/
structure Fresh (root : ℕ) (s : State) : Prop where
  /-- No page comes twice. -/
  nodup : s.pages.Nodup
  /-- They are whole pages. -/
  aligned : ∀ page∈s.pages, page%4096=0
  /-- They are identity-mapped. -/
  low : ∀ page∈s.pages, page<physicalEnd
  /-- They are not in use as tables. -/
  unused : ∀ page∈s.pages, ∀ p, p.length<4 →
    reach decode (tables s.memory) 4 root p≠some (page/4096)

/-- The tables are a tree, and there are fresh pages for more. -/
structure Sound (root : ℕ) (s : State) : Prop where
  /-- No table is referenced twice. -/
  unshared : Unshared decode (tables s.memory) 4 root
  /-- New pages. -/
  fresh : Fresh root s

/-- A frame is a table of the tree, or one that the allocator will hand out. -/
def Owned (root : ℕ) (s : State) (frame : ℕ) : Prop :=
  (∃ p, p.length<4 ∧ reach decode (tables s.memory) 4 root p=some frame) ∨ 4096*frame∈s.pages

/-- The tree has got new empty tables only: what was present is still there, what is new
is neither a page nor open to the user, and every walk ends where it ended. -/
structure Grows (root : ℕ) (t t' : ℕ → Fin 512 → ℕ) : Prop where
  /-- Walks. -/
  walk_eq : ∀ q : List (Fin 512), q.length=4 → walk decode t' root q=walk decode t root q
  /-- Entries that were present. -/
  kept : ∀ p j e, p.length<4 → entry decode t 4 root p j=some e → e.testBit 0=true →
    entry decode t' 4 root p j=some e
  /-- Entries that are new. -/
  new : ∀ p j e, p.length<4 → entry decode t' 4 root p j=some e →
    entry decode t 4 root p j=some e ∨ e.testBit 2=false ∧ e.testBit 7=false

/-- Nothing is new. -/
theorem Grows.refl (root : ℕ) (t : ℕ → Fin 512 → ℕ) : Grows root t t :=
  ⟨fun _ _ => rfl,fun _ _ _ _ h _ => h,fun _ _ _ _ h => Or.inl h⟩

/-- Trees grow further. -/
theorem Grows.trans {root : ℕ} {t t' t'' : ℕ → Fin 512 → ℕ} (h : Grows root t t')
    (h' : Grows root t' t'') : Grows root t t'' := by
  refine ⟨fun q hq => (h'.walk_eq q hq).trans (h.walk_eq q hq),?_,?_⟩
  · intro p j e hp he hbit
    exact h'.kept p j e hp (h.kept p j e hp he hbit) hbit
  · intro p j e hp he
    rcases h'.new p j e hp he with hold | hnew
    · exact h.new p j e hp hold
    · exact Or.inr hnew

/-- A new table is linked into a filled page. -/
theorem link_fill {root a b : ℕ} {t : ℕ → Fin 512 → ℕ} {p : List (Fin 512)} {i : Fin 512}
    (hu : Unshared decode t 4 root) (hp : reach decode t 4 root p=some a) (hlen : p.length<2)
    (habsent : (t a i).testBit 0=false) (hb : b<2^40)
    (hfresh : ∀ q, q.length<4 → reach decode t 4 root q≠some b) :
    Link decode (fill t b 0) 4 root p a i (4096*b|||0x03) b where
  unshared := hu.update hfresh
  reached := (reach_update hfresh (by omega)).trans hp
  below := by omega
  absent := by
    rw [fill,Function.update_of_ne]
    · exact decode_absent habsent
    · rintro rfl
      exact hfresh p (by omega) hp
  child := by
    obtain ⟨h0,_,h7⟩ := @link_bits b
    have hlevel : ¬(4-p.length-1=0 ∨ 4-p.length-1≤2 ∧ false=true) := by
      simp only [Bool.false_eq_true,and_false,or_false]
      omega
    rw [decode,if_pos h0,h7,if_neg hlevel,link_eq]
    congr 1
    omega
  fresh := fun q hq => by
    rw [reach_update hfresh hq.le]
    exact hfresh q hq
  empty := fun j => by
    rw [fill,Function.update_self]
    exact decode_absent rfl

/-- With a new table the tree has grown. -/
theorem grows_link {root a b : ℕ} {t : ℕ → Fin 512 → ℕ} {p : List (Fin 512)} {i : Fin 512}
    (hfresh : ∀ q, q.length<4 → reach decode t 4 root q≠some b)
    (h : Link decode (fill t b 0) 4 root p a i (4096*b|||0x03) b) :
    Grows root t (set (fill t b 0) a i (4096*b|||0x03)) where
  walk_eq := fun q hq => (h.walk_eq hq).trans (walk_update hfresh hq)
  kept := fun q j e hq he hbit => by
    rw [← entry_update hfresh hq] at he
    refine h.entry_kept hq ?_ he
    intro heq
    obtain ⟨rfl,hj⟩ := List.append_inj' heq rfl
    rw [List.singleton_inj] at hj
    rw [entry,h.reached,Option.map_some,Option.some.injEq] at he
    have habsent := absent_iff.mp h.absent
    rw [← hj,show fill t b 0 a j=e from he,hbit] at habsent
    cases habsent
  new := fun q j e hq he => by
    rcases h.entry_cases hq he with rfl | rfl | hold
    · exact Or.inr link_bits.2
    · rw [fill,Function.update_self]
      exact Or.inr ⟨rfl,rfl⟩
    · rw [entry_update hfresh hq] at hold
      exact Or.inl hold

/-- A sound tree is still sound with a new table. -/
theorem Sound.link {root a b : ℕ} {p : List (Fin 512)} {i : Fin 512} {s : State} {m : Bytes}
    {rest : List ℕ} (hs : Sound root s) (hpages : s.pages=4096*b::rest)
    (h : Link decode (fill (tables s.memory) b 0) 4 root p a i (4096*b|||0x03) b)
    (hm : tables m=set (fill (tables s.memory) b 0) a i (4096*b|||0x03)) :
    Sound root ⟨m,rest⟩ := by
  have hmem : ∀ page∈rest, page∈s.pages := fun page hpage => by
    rw [hpages]
    exact List.mem_cons_of_mem _ hpage
  have hfresh := hs.fresh.unused (4096*b) (by rw [hpages]; exact List.mem_cons_self)
  rw [Nat.mul_div_cancel_left b (by norm_num)] at hfresh
  have hnodup := hs.fresh.nodup
  rw [hpages,List.nodup_cons] at hnodup
  refine ⟨by rw [hm]; exact h.unshared_set,hnodup.2,fun page hp => hs.fresh.aligned page (hmem page hp),
    fun page hp => hs.fresh.low page (hmem page hp),?_⟩
  intro page hpage q hq
  rw [show tables (State.mk m rest).memory=tables m from rfl,hm]
  by_cases hqi : q=p++[i]
  · rw [hqi,h.reach_new]
    intro heq
    rw [Option.some.injEq] at heq
    have haligned := hs.fresh.aligned page (hmem page hpage)
    have hsame : page=4096*b := by omega
    exact hnodup.1 (hsame▸hpage)
  · rw [h.reach_eq hq.le hqi,reach_update hfresh hq.le]
    exact hs.fresh.unused page (hmem page hpage) q hq

/-- A new table was one of the allocator's pages. -/
theorem Owned.of_link {root a b f : ℕ} {p : List (Fin 512)} {i : Fin 512} {s : State} {m : Bytes}
    {rest : List ℕ} (hpages : s.pages=4096*b::rest)
    (h : Link decode (fill (tables s.memory) b 0) 4 root p a i (4096*b|||0x03) b)
    (hfresh : ∀ q, q.length<4 → reach decode (tables s.memory) 4 root q≠some b)
    (hm : tables m=set (fill (tables s.memory) b 0) a i (4096*b|||0x03))
    (ho : Owned root ⟨m,rest⟩ f) : Owned root s f := by
  rcases ho with ⟨q,hq,hreach⟩ | hmem
  · rw [show tables (State.mk m rest).memory=tables m from rfl,hm] at hreach
    by_cases hqi : q=p++[i]
    · rw [hqi,h.reach_new,Option.some.injEq] at hreach
      rw [← hreach]
      exact Or.inr (by rw [hpages]; exact List.mem_cons_self)
    · rw [h.reach_eq hq.le hqi,reach_update hfresh hq.le] at hreach
      exact Or.inl ⟨q,hq,hreach⟩
  · exact Or.inr (by rw [hpages]; exact List.mem_cons_of_mem _ hmem)

/-- The next table is the one that the entry points to, or the next page. -/
theorem nextTable_cases {a table : ℕ} {i : Fin 512} {s s' : State}
    (h : nextTable (4096*a) i s=.done table s') :
    (tables s.memory a i).testBit 0=true ∧ s'=s ∧ table=tables s.memory a i/4096*4096 ∨
    (tables s.memory a i).testBit 0=false ∧ ∃ page rest, s.pages=page::rest ∧
      s'=⟨store64 (zeroTable s.memory page) (slot (4096*a) i) (page|||0x03),rest⟩ ∧
      table=tables s'.memory a i/4096*4096 := by
  rw [nextTable] at h
  split at h
  · cases h
  split at h
  case isTrue htest =>
    rw [present_iff] at htest
    dsimp only [mmapUser] at h
    split at h
    · cases h
    case isFalse hpage =>
    cases hpages : s.pages with
    | nil =>
      rw [hpages] at hpage
      exact (hpage rfl).elim
    | cons page rest =>
      rw [hpages,List.headD_cons,List.tail_cons,Outcome.done.injEq] at h
      obtain ⟨rfl,rfl⟩ := h
      exact Or.inr ⟨htest,page,rest,rfl,rfl,rfl⟩
  case isFalse htest =>
    rw [present_iff,Bool.not_eq_false] at htest
    rw [Outcome.done.injEq] at h
    obtain ⟨rfl,rfl⟩ := h
    exact Or.inl ⟨htest,rfl,rfl⟩

/-- What looking for the next table does to a sound tree: it grows, and the way leads on
to the table, unless that is out of the identity-mapped memory. No other frame gets into
it. -/
theorem nextTable_spec {root a table : ℕ} {p : List (Fin 512)} {i : Fin 512} {s s' : State}
    (hs : Sound root s) (hlen : p.length<2)
    (hp : reach decode (tables s.memory) 4 root p=some a)
    (hleaf : decode (4-p.length-1) (tables s.memory a i)≠.leaf)
    (h : nextTable (4096*a) i s=.done table s') :
    Sound root s' ∧ Grows root (tables s.memory) (tables s'.memory) ∧ table%4096=0 ∧
      (table<physicalEnd → reach decode (tables s'.memory) 4 root (p++[i])=some (table/4096)) ∧
      ∀ f, Owned root s' f → Owned root s f := by
  rcases nextTable_cases h with ⟨hbit,rfl,rfl⟩ | ⟨hbit,page,rest,hpages,rfl,htable⟩
  · refine ⟨hs,Grows.refl _ _,by omega,fun hlow => ?_,fun _ h => h⟩
    rw [reach_snoc hp (by omega),decode_child hbit hleaf]
    dsimp only
    rw [Option.some.injEq]
    simp only [physicalEnd] at hlow
    omega
  · have hmem : page∈s.pages := by
      rw [hpages]
      exact List.mem_cons_self
    have haligned := hs.fresh.aligned page hmem
    have hlow := hs.fresh.low page hmem
    have hfresh := hs.fresh.unused page hmem
    obtain ⟨b,rfl⟩ : ∃ b, page=4096*b := ⟨page/4096,by omega⟩
    simp only [physicalEnd] at hlow
    rw [Nat.mul_div_cancel_left b (by norm_num)] at hfresh
    have hlink := @link_fill root a b _ p i hs.unshared hp hlen hbit (by omega) hfresh
    have hnew : tables (store64 (zeroTable s.memory (4096*b)) (slot (4096*a) i) (4096*b|||0x03))=
        set (fill (tables s.memory) b 0) a i (4096*b|||0x03) := by
      rw [tables_store (by rw [link_eq]; omega),tables_zero]
    have hb : table=4096*b := by
      rw [htable,hnew,set_same,link_eq]
      omega
    rw [hb,hnew]
    refine ⟨hs.link hpages hlink hnew,grows_link hfresh hlink,by omega,fun _ => ?_,
      fun f ho => ho.of_link hpages hlink hfresh hnew⟩
    rw [Nat.mul_div_cancel_left b (by norm_num)]
    exact hlink.reach_new

/-- A tree does not see a change in a frame that it does not own. -/
theorem Sound.write_unowned {root frame v : ℕ} {i : Fin 512} {s : State} (hs : Sound root s)
    (hv : v<2^64) (hfree : ¬Owned root s frame) :
    Sound root ⟨store64 s.memory (slot (4096*frame) i) v,s.pages⟩ ∧
      (∀ f, Owned root ⟨store64 s.memory (slot (4096*frame) i) v,s.pages⟩ f → Owned root s f) ∧
      ∀ p j, p.length<4 → entry decode (tables (store64 s.memory (slot (4096*frame) i) v)) 4 root p j=
        entry decode (tables s.memory) 4 root p j := by
  have hb : ∀ p, p.length<4 → reach decode (tables s.memory) 4 root p≠some frame :=
    fun p hp hreach => hfree (Or.inl ⟨p,hp,hreach⟩)
  have hset := @tables_store s.memory frame v i hv
  rw [RadixTree.set] at hset
  have hreach : ∀ p, p.length<4 →
      reach decode (tables (store64 s.memory (slot (4096*frame) i) v)) 4 root p=
        reach decode (tables s.memory) 4 root p := fun p hp => by
    rw [hset,reach_update hb hp.le]
  refine ⟨⟨?_,hs.fresh.nodup,hs.fresh.aligned,hs.fresh.low,fun page hpage p hp hr => ?_⟩,
    fun f hf => ?_,fun p j hp => ?_⟩
  · dsimp only
    rw [hset]
    exact hs.unshared.update hb
  · dsimp only at hr
    rw [hreach p hp] at hr
    exact hs.fresh.unused page hpage p hp hr
  · rcases hf with ⟨p,hp,hr⟩ | hmem
    · dsimp only at hr
      rw [hreach p hp] at hr
      exact Or.inl ⟨p,hp,hr⟩
    · exact Or.inr hmem
  · rw [hset,entry_update hb hp]

/-- A sound tree is still sound with a leaf in the place of an entry. -/
theorem Sound.write_leaf {root a e : ℕ} {p : List (Fin 512)} {i : Fin 512} {s : State}
    (hs : Sound root s) (hp : reach decode (tables s.memory) 4 root p=some a) (hlen : p.length<4)
    (he : e<2^64) (hleaf : decode (4-p.length-1) e=.leaf) :
    Sound root ⟨store64 s.memory (slot (4096*a) i) e,s.pages⟩ ∧
      ∀ f, Owned root ⟨store64 s.memory (slot (4096*a) i) e,s.pages⟩ f → Owned root s f := by
  have hu := hs.unshared
  have hset := @tables_store s.memory a e i he
  refine ⟨⟨?_,hs.fresh.nodup,hs.fresh.aligned,hs.fresh.low,fun page hpage q hq hreach => ?_⟩,
    fun f hf => ?_⟩
  · dsimp only
    rw [hset]
    exact hu.leaf hp hlen hleaf
  · dsimp only at hreach
    rw [hset] at hreach
    exact hs.fresh.unused page hpage q hq (reach_leaf hu hp hlen hleaf hq.le hreach)
  · rcases hf with ⟨q,hq,hreach⟩ | hmem
    · dsimp only at hreach
      rw [hset] at hreach
      exact Or.inl ⟨q,hq,reach_leaf hu hp hlen hleaf hq.le hreach⟩
    · exact Or.inr hmem

/-- The fourth level has no pages. -/
theorem decode_root (e : ℕ) : decode 3 e≠.leaf := by
  rw [decode]
  split
  · rw [if_neg (by simp)]
    exact fun h => by cases h
  · exact fun h => by cases h

/-- An entry without bit 7 maps no large page. -/
theorem decode_small {e : ℕ} (h7 : e.testBit 7=false) : decode 2 e≠.leaf := by
  rw [decode,h7]
  split
  · rw [if_neg (by simp)]
    exact fun h => by cases h
  · exact fun h => by cases h

/-- A page is present. -/
theorem leaf_present {level e : ℕ} (h : decode level e=.leaf) : e.testBit 0=true := by
  by_contra hne
  rw [Bool.not_eq_true] at hne
  rw [decode_absent hne] at h
  cases h

/-- What mapping one page does to a sound tree: it grows, and then one entry is written,
in the page directory, or in the memory of a page of 1 GiB that is taken for one. -/
theorem mapPage_spec {root va pa flags : ℕ} {s s' : State} (hs : Sound root s)
    (h : mapPage (4096*root) va pa flags s=.done () s') :
    ∃ s₁ pd, Sound root s₁ ∧ Grows root (tables s.memory) (tables s₁.memory) ∧
      (∀ f, Owned root s₁ f → Owned root s f) ∧
      s'=⟨store64 s₁.memory (slot (4096*pd) (pdIdx va)) (pa|||flags),s₁.pages⟩ ∧
      (reach decode (tables s₁.memory) 4 root [pml4Idx va,pdptIdx va]=some pd ∨
        ∃ e, entry decode (tables s.memory) 4 root [pml4Idx va] (pdptIdx va)=some e ∧
          decode 2 e=.leaf ∧ pd=e/4096) := by
  obtain ⟨pdpt,s₁,h₁,h⟩ := Outcome.bind_done h
  obtain ⟨pd,s₂,h₂,h⟩ := Outcome.bind_done h
  obtain ⟨hs₁,hg₁,halign₁,hreach₁,ho₁⟩ := nextTable_spec hs (by simp) reach_nil (decode_root _) h₁
  have hlow₁ : pdpt<physicalEnd := by
    rw [nextTable] at h₂
    split at h₂
    · cases h₂
    · omega
  have hp₁ : reach decode (tables s₁.memory) 4 root [pml4Idx va]=some (pdpt/4096) := hreach₁ hlow₁
  have hpdpt : pdpt=4096*(pdpt/4096) := by omega
  rw [hpdpt] at h₂
  rw [writeEntry] at h
  split at h
  · cases h
  rw [Outcome.done.injEq] at h
  have he : entry decode (tables s₁.memory) 4 root [pml4Idx va] (pdptIdx va)=
      some (tables s₁.memory (pdpt/4096) (pdptIdx va)) := by
    rw [entry,hp₁,Option.map_some]
  by_cases hleaf : decode 2 (tables s₁.memory (pdpt/4096) (pdptIdx va))=.leaf
  · rcases nextTable_cases h₂ with ⟨_,rfl,rfl⟩ | ⟨hbit,_⟩
    · refine ⟨s₂,tables s₂.memory (pdpt/4096) (pdptIdx va)/4096,hs₁,hg₁,ho₁,?_,Or.inr ⟨_,?_,hleaf,rfl⟩⟩
      · rw [Nat.mul_comm 4096]
        exact h.2.symm
      · rcases hg₁.new _ _ _ (by simp) he with hold | ⟨_,h7⟩
        · exact hold
        · exact (decode_small h7 hleaf).elim
    · rw [leaf_present hleaf] at hbit
      cases hbit
  · obtain ⟨hs₂,hg₂,halign₂,hreach₂,ho₂⟩ := nextTable_spec hs₁ (by simp) hp₁ hleaf h₂
    have hpd : pd=4096*(pd/4096) := by omega
    exact ⟨s₂,pd/4096,hs₂,hg₁.trans hg₂,fun f ho => ho₁ f (ho₂ f ho),by rw [← hpd,h.2],
      Or.inl (hreach₂ (by omega))⟩

end OvsbMk.PageTables
