import OvsbMk.Descriptors

/-!
# Memory allocation in user space

The library's allocator keeps the free blocks of a static array on a ring in the order
of their addresses, with the links inside the blocks. The ring has no element of its
own, and the first request takes the only block of it: the block stays on the ring, and
the ring's link stays in the memory of its owner.
-/

namespace OvsbMk.UserMalloc

open ByteMemory Fat32 Descriptors

/-- Bytes of the static array. -/
abbrev heapSize : ℕ := 65536

/-- Bytes of the header of a block. -/
abbrev hdrSz : ℕ := 8

/-- Requests from this size on get pages of their own. -/
abbrev mmapThresh : ℤ := 2048

/-- Rounds that bound every walk around the ring that ends: there are not more
addresses. -/
abbrev ringRounds : ℕ := 2^64

/-- The library's data. -/
structure Heap where
  /-- The memory of the process. -/
  mem : Bytes
  /-- The ring has been set up. -/
  hinit : Bool
  /-- Where searches start. -/
  freep : ℕ

/-- The size in a header, without the bit for used blocks. -/
def sizeOf (header : ℕ) : ℕ := header/2*2

/-- A header with the bit for used blocks. -/
def setUsed (header : ℕ) : ℕ := header/2*2+1

/-- The link of a block. -/
def next (mem : Bytes) (block : ℕ) : ℕ := load64 mem (block+hdrSz)

/-- A pointer plus a signed number. -/
def offset (p : ℕ) (x : ℤ) : ℕ := ((p+x)%2^64).toNat

/-- Set the ring up. -/
def hinit (base : ℕ) (s : Heap) : Heap :=
  ⟨store64 (store64 s.mem base (heapSize-hdrSz)) (base+hdrSz) base,true,base⟩

/-- Look for a block around the ring, and take it or the front of it. -/
def search (need : ℤ) : ℕ → ℕ → ℕ → Heap → Option (ℕ×Heap)
  | 0, _, _, _ => none
  | rounds+1, prev, curr, s =>
    let csize := toInt (sizeOf (load64 s.mem curr))
    if need≤csize then
      if need+hdrSz+16≤csize then
        let new := offset curr need
        let mem := store64 s.mem new (csize-need).toNat
        let mem := store64 mem (new+hdrSz) (next mem curr)
        let mem := store64 mem curr (setUsed need.toNat)
        some (curr+hdrSz,{ s with mem := store64 mem (prev+hdrSz) new, freep := prev })
      else
        let mem := store64 s.mem curr (setUsed (load64 s.mem curr))
        some (curr+hdrSz,{ s with mem := store64 mem (prev+hdrSz) (next mem curr), freep := prev })
    else if next s.mem curr=s.freep then some (0,s)
    else search need rounds curr (next s.mem curr) s

/-- `malloc`: the address or zero. `mapped` gives the pages that the kernel maps for a
length. -/
def malloc (base : ℕ) (mapped : ℕ → ℕ) (n : ℤ) (s : Heap) : Option (ℕ×Heap) :=
  if n≤0 then some (0,s)
  else
    let s := if s.hinit then s else hinit base s
    if mmapThresh≤n then
      let total := wrapInt (n+hdrSz+4095)/4096*4096
      let h := mapped total.toNat
      if h=0 then some (0,s)
      else some (h+hdrSz,{ s with mem := store64 s.mem h (setUsed (total%2^64).toNat) })
    else search ((n+7)/8*8+hdrSz) ringRounds s.freep (next s.mem s.freep) s

/-- The neighbours of a block on the ring. -/
def place (mem : Bytes) (h freep : ℕ) : ℕ → ℕ → ℕ → Option (ℕ×ℕ)
  | 0, _, _ => none
  | rounds+1, prev, curr =>
    if prev<h ∧ h<curr then some (prev,curr)
    else if curr<prev ∧ (prev<h ∨ h<curr) then some (prev,curr)
    else if curr=freep then some (curr,next mem curr)
    else place mem h freep rounds curr (next mem curr)

/-- `free`. Pages outside the array go back to the kernel. -/
def free (base p : ℕ) (s : Heap) : Option Heap :=
  if p=0 then some s
  else
    let h := offset p (-hdrSz)
    if h<base ∨ base+heapSize≤h then some s
    else
      let mem := store64 s.mem h (sizeOf (load64 s.mem h))
      match place mem h s.freep ringRounds s.freep (next mem s.freep) with
      | none => none
      | some (prev,curr) =>
        let mem := store64 mem (h+hdrSz) curr
        let mem := store64 mem (prev+hdrSz) h
        let mem :=
          if offset h (toInt (sizeOf (load64 mem h)))=curr then
            let mem := store64 mem h (sizeOf (load64 mem h)+sizeOf (load64 mem curr))
            store64 mem (h+hdrSz) (next mem curr)
          else mem
        let mem :=
          if offset prev (toInt (sizeOf (load64 mem prev)))=h then
            let mem := store64 mem prev (sizeOf (load64 mem prev)+sizeOf (load64 mem h))
            store64 mem (prev+hdrSz) (next mem h)
          else mem
        some { s with mem := mem, freep := prev }

/-- `calloc`. -/
def calloc (base : ℕ) (mapped : ℕ → ℕ) (n size : ℤ) (s : Heap) : Option (ℕ×Heap) :=
  let t := wrapInt (n*size)
  match malloc base mapped t s with
  | none => none
  | some (p,s) =>
    if p=0 then some (0,s) else some (p,{ s with mem := copyRange s.mem p t.toNat fun _ => 0 })

/-- `realloc`. -/
def realloc (base : ℕ) (mapped : ℕ → ℕ) (p : ℕ) (n : ℤ) (s : Heap) : Option (ℕ×Heap) :=
  if p=0 then malloc base mapped n s
  else if n≤0 then (free base p s).map fun s => (0,s)
  else
    let old := wrapInt (toInt (sizeOf (load64 s.mem (offset p (-hdrSz))))-hdrSz)
    if n≤old then some (p,s)
    else
      match malloc base mapped n s with
      | none => none
      | some (new,s) =>
        if new=0 then some (0,s)
        else
          let copied := (List.range (if old<n then old else n).toNat).foldl
            (fun mem i => Function.update mem (new+i) (mem (p+i))) s.mem
          (free base p { s with mem := copied }).map fun s => (new,s)

/-- A block that was handed out and not freed. -/
structure Block where
  /-- Its address. -/
  addr : ℕ
  /-- Its size as it was asked for. -/
  size : ℕ
  /-- What its owner has stored in it, or found there. -/
  contents : ℕ → UInt8

/-- The library's data with the live blocks. -/
structure Program where
  /-- The library's data. -/
  heap : Heap
  /-- The live blocks. -/
  live : List Block

/-- What a program does with memory. -/
inductive Call where
  /-- `malloc`. -/
  | malloc (n : ℤ)
  /-- `calloc`. -/
  | calloc (n size : ℤ)
  /-- `realloc`. -/
  | realloc (p : ℕ) (n : ℤ)
  /-- `free`. -/
  | free (p : ℕ)
  /-- The owner of a block stores bytes from an offset on. -/
  | store (p off : ℕ) (data : List UInt8)

/-- A new block, unless there is none. -/
def Program.add (p size : ℕ) (heap : Heap) (s : Program) : Program :=
  if p=0 then { s with heap := heap }
  else ⟨heap,⟨p,size,fun i => heap.mem (p+i)⟩::s.live⟩

/-- The blocks other than that of an address. -/
def Program.others (p : ℕ) (s : Program) : List Block := s.live.filter fun b => b.addr≠p

/-- A block after the owner stored bytes. -/
def Block.store (b : Block) (off : ℕ) (data : List UInt8) : Block :=
  { b with contents := copyRange b.contents off data.length fun i => data.getD i 0 }

/-- A block that was moved or resized keeps what the owner had stored. -/
def Block.resized (b : Block) (q size : ℕ) (mem : Bytes) : Block :=
  ⟨q,size,fun i => if i<b.size then b.contents i else mem (q+i)⟩

/-- Perform a call; none if it does not return. -/
def Call.perform (base : ℕ) (mapped : ℕ → ℕ) (s : Program) : Call → Option Program
  | .malloc n => (UserMalloc.malloc base mapped n s.heap).map fun r => s.add r.1 n.toNat r.2
  | .calloc n size => (UserMalloc.calloc base mapped n size s.heap).map fun r =>
    s.add r.1 (wrapInt (n*size)).toNat r.2
  | .realloc p n => (UserMalloc.realloc base mapped p n s.heap).map fun r =>
    if p=0 then s.add r.1 n.toNat r.2
    else if n≤0 then ⟨r.2,s.others p⟩
    else if r.1=0 then { s with heap := r.2 }
    else ⟨r.2,(s.live.filter fun b => b.addr=p).map (fun b => b.resized r.1 n.toNat r.2.mem)++
      s.others p⟩
  | .free p => (UserMalloc.free base p s.heap).map fun heap => ⟨heap,s.others p⟩
  | .store p off data => some
    ⟨{ s.heap with mem := copyRange s.heap.mem (p+off) data.length fun i => data.getD i 0 },
      s.live.map fun b => if b.addr=p then b.store off data else b⟩

/-- The call asks for bytes. -/
def Call.Asks : Call → Prop
  | .malloc n => 0<n
  | .calloc n size => 0<wrapInt (n*size)
  | .realloc _ n => 0<n
  | _ => False

/-- The call stays below the size of requests with pages of their own, frees and resizes
live blocks only, and stores inside them only. -/
def Legal (s : Program) : Call → Prop
  | .malloc n => n < mmapThresh
  | .calloc n size => wrapInt (n*size) < mmapThresh
  | .realloc p n => n < mmapThresh ∧ (p=0 ∨ ∃ b∈s.live, b.addr=p)
  | .free p => p=0 ∨ ∃ b∈s.live, b.addr=p
  | .store p off data => ∃ b∈s.live, b.addr=p ∧ off+data.length≤b.size

/-- Each call is legal when it is made. -/
def LegalRun (base : ℕ) (mapped : ℕ → ℕ) : List Call → Program → Prop
  | [], _ => True
  | c::calls, s => Legal s c ∧ ∀ s', c.perform base mapped s=some s' → LegalRun base mapped calls s'

/-- A block is on the ring. -/
def OnRing (s : Heap) (block : ℕ) : Prop :=
  s.hinit=true ∧ Relation.ReflTransGen (fun a b => b=next s.mem a) s.freep block

/-- Two ranges have no byte in common. -/
def Apart (a len a' len' : ℕ) : Prop := a+len≤a' ∨ a'+len'≤a

/-- What owners of blocks rely on; blocks start with their headers. -/
structure Safe (base : ℕ) (s : Program) : Prop where
  /-- Blocks lie inside the array. -/
  inside : ∀ b∈s.live, base+hdrSz≤b.addr ∧ b.addr+b.size≤base+heapSize
  /-- Blocks are apart. -/
  apart : s.live.Pairwise fun b b' =>
    Apart (b.addr-hdrSz) (b.size+hdrSz) (b'.addr-hdrSz) (b'.size+hdrSz)
  /-- Blocks are apart from those on the ring. -/
  ring : ∀ b∈s.live, ∀ f, OnRing s.heap f →
    Apart (b.addr-hdrSz) (b.size+hdrSz) f (sizeOf (load64 s.heap.mem f))
  /-- Blocks hold what their owners stored. -/
  kept : ∀ b∈s.live, ∀ i, i<b.size → s.heap.mem (b.addr+i)=b.contents i

/-- The program is safe after each call. -/
def AlwaysSafe (base : ℕ) (mapped : ℕ → ℕ) : List Call → Program → Prop
  | [], s => Safe base s
  | c::calls, s => Safe base s ∧
    ∀ s', c.perform base mapped s=some s' → AlwaysSafe base mapped calls s'

variable {base : ℕ} {mapped : ℕ → ℕ} {mem : Bytes} {freep : ℕ} {n : ℤ} {s s' : Program} {c : Call}
  {calls : List Call}

/-- Before the first request. -/
def start (mem : Bytes) (freep : ℕ) : Program := ⟨⟨mem,false,freep⟩,[]⟩

/-- The program is safe at the start of a run that is always safe. -/
theorem AlwaysSafe.now (h : AlwaysSafe base mapped calls s) : Safe base s := by
  cases calls with
  | nil => exact h
  | cons c calls => exact h.1

/-- Without live blocks a program is safe. -/
theorem start_safe : Safe base (start mem freep) :=
  ⟨fun b hb => (by cases hb),List.Pairwise.nil,fun b hb => (by cases hb),fun b hb => (by cases hb)⟩

/-- The bit for used blocks does not count. -/
theorem sizeOf_setUsed (x : ℕ) : sizeOf (setUsed x)=x/2*2 := by
  rw [sizeOf,setUsed]
  omega

/-- A search that starts with a block which is larger than needed takes its front. -/
theorem search_split {need : ℤ} {rounds prev curr : ℕ} {s : Heap}
    (h : need+hdrSz+16≤toInt (sizeOf (load64 s.mem curr))) :
    search need (rounds+1) prev curr s=some (curr+hdrSz,
      { s with
        mem := store64 (store64 (store64 (store64 s.mem (offset curr need)
          (toInt (sizeOf (load64 s.mem curr))-need).toNat) (offset curr need+hdrSz)
          (next (store64 s.mem (offset curr need) (toInt (sizeOf (load64 s.mem curr))-need).toNat)
            curr)) curr (setUsed need.toNat)) (prev+hdrSz) (offset curr need)
        freep := prev }) := by
  rw [search]
  dsimp only
  rw [if_pos (by omega),if_pos h]

/-- The first request is granted from the start of the array, and the search goes on
from there. -/
theorem malloc_first (hbase : base+heapSize≤2^64) (hn : 0<n) (hlt : n < mmapThresh) :
    ∃ mem', malloc base mapped n ⟨mem,false,freep⟩=some (base+hdrSz,⟨mem',true,base⟩) ∧
      0<sizeOf (load64 mem' base) := by
  simp only [heapSize] at hbase
  simp only [mmapThresh] at hlt
  have hlink : next (hinit base ⟨mem,false,freep⟩).mem base=base := by
    rw [next,hinit]
    exact load64_store64_same (by omega)
  have hsize : toInt (sizeOf (load64 (hinit base ⟨mem,false,freep⟩).mem base))=65528 := by
    rw [hinit]
    dsimp only [hdrSz]
    rw [load64_store64_disjoint (by omega),load64_store64_same (by norm_num)]
    decide
  have hfit : (n+7)/8*8+hdrSz+hdrSz+16≤
      toInt (sizeOf (load64 (hinit base ⟨mem,false,freep⟩).mem base)) := by
    rw [hsize]
    simp only [hdrSz]
    omega
  rw [malloc,if_neg (by omega)]
  simp only [Bool.false_eq_true,if_false]
  rw [if_neg (by simp only [mmapThresh]; omega),
    show (hinit base ⟨mem,false,freep⟩).freep=base from rfl,hlink,
    show ringRounds=(2^64-1)+1 from rfl,search_split hfit]
  refine ⟨_,rfl,?_⟩
  dsimp only [hdrSz]
  rw [load64_store64_disjoint (by omega),load64_store64_same,sizeOf_setUsed]
  · omega
  · rw [setUsed]
    omega

/-- A program whose only block is that of the first request is not safe. -/
theorem first_not_safe {size : ℕ} {contents : ℕ → UInt8} (h : 0<sizeOf (load64 mem base)) :
    ¬Safe base ⟨⟨mem,true,base⟩,[⟨base+hdrSz,size,contents⟩]⟩ := by
  intro hsafe
  have hapart := hsafe.ring _ (List.mem_singleton_self _) base ⟨rfl,Relation.ReflTransGen.refl⟩
  simp only [Apart,hdrSz] at hapart
  omega

/-- The first call that asks for bytes ends safety. -/
theorem asks_not_safe (hbase : base+heapSize≤2^64) (hlegal : Legal (start mem freep) c)
    (hasks : c.Asks) : ∃ s', c.perform base mapped (start mem freep)=some s' ∧ ¬Safe base s' := by
  have hadd : ∀ {mem' : Bytes} (size : ℕ), 0<sizeOf (load64 mem' base) →
      ¬Safe base ((start mem freep).add (base+hdrSz) size ⟨mem',true,base⟩) := by
    intro mem' size hpos
    rw [Program.add,if_neg (by simp only [hdrSz]; omega)]
    exact first_not_safe hpos
  cases c with
  | malloc n =>
    obtain ⟨mem',hrun,hpos⟩ := @malloc_first base mapped mem freep n hbase hasks hlegal
    refine ⟨_,?_,hadd n.toNat hpos⟩
    rw [Call.perform,start,hrun]
    rfl
  | calloc n size =>
    obtain ⟨mem',hrun,hpos⟩ := @malloc_first base mapped mem freep _ hbase hasks hlegal
    refine ⟨(start mem freep).add (base+hdrSz) (wrapInt (n*size)).toNat
      ⟨copyRange mem' (base+hdrSz) (wrapInt (n*size)).toNat fun _ => 0,true,base⟩,?_,hadd _ ?_⟩
    · rw [Call.perform,start,calloc]
      dsimp only
      rw [hrun]
      dsimp only
      rw [if_neg (by simp only [hdrSz]; omega)]
      rfl
    · have hkeep : load64 (copyRange mem' (base+hdrSz) (wrapInt (n*size)).toNat fun _ => 0) base=
          load64 mem' base :=
        load64_congr fun a _ ha => copyRange_outside (Or.inl ha)
      rw [hkeep]
      exact hpos
  | realloc p n =>
    obtain ⟨hlt,hp⟩ := hlegal
    obtain rfl : p=0 := by
      rcases hp with hp | ⟨b,hb,_⟩
      · exact hp
      · cases hb
    obtain ⟨mem',hrun,hpos⟩ := @malloc_first base mapped mem freep n hbase hasks hlt
    refine ⟨_,?_,hadd n.toNat hpos⟩
    rw [Call.perform,start,realloc,if_pos rfl,hrun]
    rfl
  | free p => exact hasks.elim
  | store p off data => exact hasks.elim

/-- Before the first request other legal calls do nothing. -/
theorem idle_call (hlegal : Legal (start mem freep) c) (hasks : ¬c.Asks) :
    c.perform base mapped (start mem freep)=some (start mem freep) := by
  cases c with
  | malloc n =>
    rw [Call.perform,malloc,if_pos (not_lt.mp hasks)]
    rfl
  | calloc n size =>
    rw [Call.perform,calloc,malloc]
    dsimp only
    rw [if_pos (not_lt.mp hasks)]
    rfl
  | realloc p n =>
    obtain rfl : p=0 := by
      rcases hlegal.2 with hp | ⟨b,hb,_⟩
      · exact hp
      · cases hb
    rw [Call.perform,realloc,if_pos rfl,malloc,if_pos (not_lt.mp hasks)]
    rfl
  | free p =>
    obtain rfl : p=0 := by
      rcases hlegal with hp | ⟨b,hb,_⟩
      · exact hp
      · cases hb
    rfl
  | store p off data =>
    obtain ⟨b,hb,_⟩ := hlegal
    cases hb

/-- A run of legal calls is always safe if and only if none of them asks for bytes. -/
theorem alwaysSafe_iff (hbase : base+heapSize≤2^64)
    (hlegal : LegalRun base mapped calls (start mem freep)) :
    AlwaysSafe base mapped calls (start mem freep) ↔ ∀ c∈calls, ¬c.Asks := by
  induction calls with
  | nil => exact iff_of_true start_safe fun c hc => by cases hc
  | cons c calls ih =>
    obtain ⟨hnow,hlater⟩ := hlegal
    rw [List.forall_mem_cons]
    by_cases hasks : c.Asks
    · obtain ⟨s',hrun,hlost⟩ := asks_not_safe hbase hnow hasks
      exact iff_of_false (fun h => hlost (h.2 s' hrun).now) fun h => h.1 hasks
    · have hrun := @idle_call base mapped mem freep c hnow hasks
      have hiff := ih (hlater _ hrun)
      constructor
      · intro h
        exact ⟨hasks,hiff.mp (h.2 _ hrun)⟩
      · rintro ⟨_,h⟩
        refine ⟨start_safe,fun s' hs' => ?_⟩
        rw [hrun,Option.some.injEq] at hs'
        rw [← hs']
        exact hiff.mpr h

/-- No pages from the kernel. -/
def noPages : ℕ → ℕ := fun _ => 0

/-- Before the first request, with an array of zeros. -/
def fresh : Program := start (fun _ => 0) 0

/-- A run that frees the null pointer is always safe. -/
theorem fresh_free_safe : AlwaysSafe 4096 noPages [.free 0] fresh := by
  have hlegal : LegalRun 4096 noPages [.free 0] fresh := ⟨Or.inl rfl,fun _ _ => trivial⟩
  refine (alwaysSafe_iff (by norm_num) hlegal).mpr fun c hc => ?_
  rw [List.mem_singleton.mp hc]
  exact id

/-- A request, the owner stores eight bytes, and a second request. -/
def twoRequests : List Call :=
  [.malloc 16,.store 4104 0 [0x18,0x10,0,0,0,0,0,0],.malloc 16]

/-- Perform calls one after the other. -/
def performAll (base : ℕ) (mapped : ℕ → ℕ) : List Call → Program → Option Program
  | [], s => some s
  | c::calls, s =>
    match c.perform base mapped s with
    | none => none
    | some s => performAll base mapped calls s

/-- The blocks with what they should hold first and what they hold. -/
def firstBytes (s : Program) : List (ℕ×ℕ×UInt8×UInt8) :=
  s.live.map fun b => (b.addr,b.size,b.contents 0,s.heap.mem b.addr)

/-- The run is legal, and after it the first block does not hold what its owner stored. -/
theorem twoRequests_not_kept : LegalRun 4096 noPages twoRequests fresh ∧
    ∃ s', performAll 4096 noPages twoRequests fresh=some s' ∧ ¬Safe 4096 s' := by
  have hrun : (performAll 4096 noPages twoRequests fresh).map firstBytes=
      some [(4128,16,0,0),(4104,16,0x18,0x30)] := by decide +kernel
  have hfirst : (Call.perform 4096 noPages fresh (.malloc 16)).map firstBytes=
      some [(4104,16,0x18,0x18)] := by decide +kernel
  constructor
  · have hsmall : (16 : ℤ) < mmapThresh := by decide
    refine ⟨hsmall,fun s1 h1 => ⟨?_,fun s2 _ => ⟨hsmall,fun _ _ => trivial⟩⟩⟩
    rw [h1,Option.map_some,Option.some.injEq] at hfirst
    obtain ⟨b,hb,heq⟩ : ∃ b∈s1.live, (b.addr,b.size,b.contents 0,s1.heap.mem b.addr)=
        (4104,16,0x18,0x18) := by
      have hmem : ((4104,16,0x18,0x18) : ℕ×ℕ×UInt8×UInt8)∈firstBytes s1 := by
        rw [hfirst]
        exact List.mem_singleton_self _
      exact List.mem_map.mp hmem
    simp only [Prod.mk.injEq] at heq
    exact ⟨b,hb,heq.1,by rw [heq.2.1]; decide⟩
  · obtain ⟨s',hs',hbytes⟩ := Option.map_eq_some_iff.mp hrun
    refine ⟨s',hs',fun hsafe => ?_⟩
    obtain ⟨b,hb,heq⟩ : ∃ b∈s'.live, (b.addr,b.size,b.contents 0,s'.heap.mem b.addr)=
        (4104,16,0x18,0x30) := by
      have hmem : ((4104,16,0x18,0x30) : ℕ×ℕ×UInt8×UInt8)∈firstBytes s' := by
        rw [hbytes]
        exact List.mem_cons_of_mem _ (List.mem_singleton_self _)
      exact List.mem_map.mp hmem
    simp only [Prod.mk.injEq] at heq
    have hkept := hsafe.kept b hb 0 (by omega)
    rw [Nat.add_zero,heq.2.2.1,heq.2.2.2] at hkept
    exact absurd hkept (by decide)

end OvsbMk.UserMalloc
