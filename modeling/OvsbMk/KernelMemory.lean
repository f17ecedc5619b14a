import OvsbMk.IntrusiveList

/-!
# The kernel heap: buddy allocator and slab caches

Translation of the allocator of `kernel/memory.c`. All of its data, static
variables included, lives in one byte memory: the frame table, the free-list
heads and the cache records sit at addresses the linker chooses, and the
links of free blocks and slabs sit inside the blocks themselves. Every
function takes the memory and returns the memory it leaves. The spin lock is
left out: the kernel runs on one core and no function takes it twice.
-/

namespace OvsbMk.KernelMemory

open ByteMemory IntrusiveList

/-- Start of the heap window. -/
abbrev heapPhys : ℕ := 0x900000

/-- Bytes in the heap window. -/
abbrev heapSize : ℕ := 64*1024*1024

/-- Bytes in a frame. -/
abbrev frameSize : ℕ := 4096

/-- Address bits inside a frame. -/
abbrev frameShift : ℕ := 12

/-- Frames in the heap. -/
abbrev frameCount : ℕ := heapSize/frameSize

/-- Order of the block that is the whole heap. -/
abbrev maxOrder : ℕ := 14

/-- Tag bit of the head of a live block. -/
abbrev frameAlloc : ℕ := 0x80

/-- Tag bit of a block allocated for a user. -/
abbrev frameUser : ℕ := 0x40

/-- Tag bits that record the order. -/
abbrev frameOrder : ℕ := 0x3F

/-- First word of every slab page. -/
abbrev slabMagic : ℕ := 0x534C4142

/-- Number of slab caches. -/
abbrev cacheCount : ℕ := 8

/-- Bytes of a slab header. -/
abbrev slabHeader : ℕ := 48

/-- Bytes of a cache record. -/
abbrev cacheRecord : ℕ := 24

/-- Where the linker put the static variables: three regions that overlap
neither each other nor the heap window. -/
structure Layout where
  /-- Address of the frame table, one byte a frame. -/
  frames : ℕ
  /-- Address of the free-list heads, one pointer an order. -/
  freeArea : ℕ
  /-- Address of the cache records. -/
  kmallocCaches : ℕ
  /-- The first cache record is not at the null address. -/
  caches_pos : 0<kmallocCaches
  /-- All records are addressable. -/
  caches_bound : kmallocCaches+cacheCount*cacheRecord≤2^64
  /-- The frame table lies outside the heap. -/
  frames_heap : Apart frames frameCount heapPhys heapSize
  /-- The list heads lie outside the heap. -/
  freeArea_heap : Apart freeArea (8*(maxOrder+1)) heapPhys heapSize
  /-- The cache records lie outside the heap. -/
  caches_heap : Apart kmallocCaches (cacheCount*cacheRecord) heapPhys heapSize
  /-- Frame table and list heads do not overlap. -/
  frames_freeArea : Apart frames frameCount freeArea (8*(maxOrder+1))
  /-- Frame table and cache records do not overlap. -/
  frames_caches : Apart frames frameCount kmallocCaches (cacheCount*cacheRecord)
  /-- List heads and cache records do not overlap. -/
  freeArea_caches : Apart freeArea (8*(maxOrder+1)) kmallocCaches (cacheCount*cacheRecord)

/-- Links of a free block: next at its first word, previous at the second. -/
def freeBlockLinks : LinkLayout := ⟨0,8,16,by norm_num,by norm_num,by norm_num⟩

/-- Links of a slab, inside its header. -/
def slabLinks : LinkLayout := ⟨24,32,slabHeader,by norm_num,by norm_num,by norm_num⟩

/-- Frame index of an address, in 64-bit wrap-around arithmetic. -/
def addrToFrame (addr : ℕ) : ℕ := ((addr+2^64-heapPhys)%2^64)>>>frameShift

/-- Address of a frame. -/
def frameToAddr (idx : ℕ) : ℕ := heapPhys+idx<<<frameShift

/-- Start of the page of an address. The mask is a 32-bit constant in the
source, so the upper half of the address is cleared with the offset. -/
def pageOf (addr : ℕ) : ℕ := addr&&&0xFFFFF000

variable (L : Layout)

/-- Address of the list head of one order. -/
def areaHead (order : ℕ) : ℕ := L.freeArea+8*order

/-- Address of one cache record. -/
def cacheAddr (i : ℕ) : ℕ := L.kmallocCaches+cacheRecord*i

/-- The tag byte of a frame. -/
def frameTag (m : Bytes) (idx : ℕ) : ℕ := loadBytes m (L.frames+idx) 1

/-- Replace the tag byte of a frame. -/
def setFrame (m : Bytes) (idx value : ℕ) : Bytes := storeBytes m (L.frames+idx) 1 value

/-- Put a block in front of a free list. -/
def listAdd (m : Bytes) (head blk : ℕ) : Bytes :=
  let m1 := store64 m (blk+0) (load64 m head)
  let m2 := store64 m1 (blk+8) 0
  let m3 := if load64 m2 head≠0 then store64 m2 (load64 m2 head+8) blk else m2
  store64 m3 head blk

/-- Take a block off a free list, through its own links. -/
def listRemove (m : Bytes) (head blk : ℕ) : Bytes :=
  let m1 :=
    if load64 m (blk+8)≠0 then store64 m (load64 m (blk+8)+0) (load64 m (blk+0))
    else store64 m head (load64 m (blk+0))
  if load64 m1 (blk+0)≠0 then store64 m1 (load64 m1 (blk+0)+8) (load64 m1 (blk+8)) else m1

/-- First order with a non-empty list, over the given number of orders. -/
def foundOrder (m : Bytes) : ℕ → ℕ → Option ℕ
  | 0, _ => none
  | count+1, o => if load64 m (areaHead L o)≠0 then some o else foundOrder m count (o+1)

/-- Split a block of the given order down to the requested one; the upper
half of every split goes to its free list. -/
def splitBlock (blockIdx order : ℕ) : ℕ → Bytes → Bytes
  | 0, m => m
  | o+1, m =>
    if order<o+1 then
      let buddyIdx := blockIdx^^^(1<<<o)
      let m1 := setFrame L m buddyIdx o
      splitBlock blockIdx order o (listAdd m1 (areaHead L o) (frameToAddr buddyIdx))
    else m

/-- Allocate a block of `2^order` frames; the null pointer when none is left
or the order is out of range. -/
def buddyAlloc (m : Bytes) (order : ℤ) (user : Bool) : ℕ × Bytes :=
  if order<0 ∨ order>maxOrder then (0,m) else
    let k := order.toNat
    match foundOrder L m (maxOrder+1-k) k with
    | none => (0,m)
    | some found =>
      let block := load64 m (areaHead L found)
      let m1 := listRemove m (areaHead L found) block
      let blockIdx := addrToFrame block
      let m2 := splitBlock L blockIdx k found m1
      let m3 := setFrame L m2 blockIdx (k|||frameAlloc)
      let m4 := if user then setFrame L m3 blockIdx (frameTag L m3 blockIdx|||frameUser) else m3
      (frameToAddr blockIdx,m4)

/-- Merge a freed block with its free buddies, for at most the given number
of orders; the final head, order and memory. The loop stands twice in the
source, in `buddy_free` and in `munmap_all_user`. -/
def coalesce : ℕ → ℕ → ℕ → Bytes → ℕ × ℕ × Bytes
  | 0, idx, order, m => (idx,order,m)
  | count+1, idx, order, m =>
    let buddyIdx := idx^^^(1<<<order)
    if frameTag L m buddyIdx&&&(frameAlloc|||frameOrder)=order then
      let m1 := listRemove m (areaHead L order) (frameToAddr buddyIdx)
      let idx' := if idx<buddyIdx then idx else buddyIdx
      coalesce count idx' (order+1) (setFrame L m1 idx' (order+1))
    else (idx,order,m)

/-- Merge a freed block and put the result on its free list. -/
def releaseBlock (m : Bytes) (idx order : ℕ) : Bytes :=
  let m1 := setFrame L m idx order
  let (idx',order',m2) := coalesce L (maxOrder-order) idx order m1
  listAdd m2 (areaHead L order') (frameToAddr idx')

/-- Release a block of the given order. Null, out of range or unaligned
addresses are ignored; whether the block is live is not checked. -/
def buddyFree (m : Bytes) (addr : ℕ) (order : ℤ) : Bytes :=
  if addr=0 ∨ order<0 ∨ order>maxOrder then m
  else if addr<heapPhys ∨ addr≥heapPhys+heapSize then m
  else if addr&&&(frameSize-1)≠0 then m
  else releaseBlock L m (addrToFrame addr) order.toNat

/-- Outcome of a search through a cache's slabs. -/
inductive SlabSearch where
  /-- A slab with a free object. -/
  | found (slab : ℕ)
  /-- The end of the list without one. -/
  | exhausted
  /-- More steps than allowed; the list has a cycle. -/
  | diverged
  deriving DecidableEq

/-- Walk a slab list to the first slab with a free object. -/
def findSlab (m : Bytes) : ℕ → ℕ → SlabSearch
  | 0, _ => .diverged
  | fuel+1, s =>
    if s=0 then .exhausted
    else if load64 m (s+16)≠0 then .found s
    else findSlab m fuel (load64 m (s+24))

/-- Take the first object off a slab's free list; the count is stored by the
caller. -/
def popObject (m : Bytes) (s : ℕ) : ℕ × Bytes :=
  let obj := load64 m (s+16)
  (obj,store64 m (s+16) (load64 m obj))

/-- Thread a free list through the objects of a fresh slab page: the list
head, the number of objects and the memory. -/
def carveSlab (objSize limit : ℕ) : ℕ → ℕ → ℕ → ℕ → Bytes → ℕ × ℕ × Bytes
  | 0, _, head, count, m => (head,count,m)
  | fuel+1, data, head, count, m =>
    if data+objSize≤limit then
      carveSlab objSize limit fuel (data+objSize) data (count+1) (store64 m data head)
    else (head,count,m)

/-- Allocate one object of a cache. No result means that the slab list does
not end. -/
def slabAlloc (m : Bytes) (cache : ℕ) : Option (ℕ × Bytes) :=
  if cache=0 then some (0,m) else
    match findSlab m (frameCount+1) (load64 m (cache+8)) with
    | .diverged => none
    | .found s =>
      let (obj,m1) := popObject m s
      some (obj,store32 m1 (s+4) ((load32 m1 (s+4)+1)%2^32))
    | .exhausted =>
      let (page,m0) := buddyAlloc L m 0 false
      if page=0 then some (0,m0) else
        let s := page
        let m1 := store32 m0 s slabMagic
        let m2 := store32 m1 (s+4) 0
        let m3 := storeBytes m2 (s+8) 2 (load32 m2 (cache+16))
        let m4 := store64 m3 (s+40) cache
        let m5 := store64 m4 (s+24) (load64 m4 (cache+8))
        let m6 := store64 m5 (s+32) 0
        let m7 := if load64 m6 (cache+8)≠0 then store64 m6 (load64 m6 (cache+8)+32) s else m6
        let m8 := store64 m7 (cache+8) s
        let (head,count,m9) :=
          carveSlab (load64 m8 cache) (s+frameSize) frameSize (s+slabHeader) 0 0 m8
        let m10 := store64 m9 (s+16) head
        let m11 := storeBytes m10 (s+8) 2 count
        let (obj,m12) := popObject m11 s
        some (obj,store32 m12 (s+4) 1)

/-- Return one object to its slab, and the slab page to the buddy allocator
when it was the last one. -/
def slabFree (m : Bytes) (ptr : ℕ) : Bytes :=
  if ptr=0 then m else
    let s := pageOf ptr
    if load32 m s≠slabMagic then m else
      let m1 := store64 m ptr (load64 m (s+16))
      let m2 := store64 m1 (s+16) ptr
      let m3 := store32 m2 (s+4) ((load32 m2 (s+4)+2^32-1)%2^32)
      if load32 m3 (s+4)=0 then
        let cache := load64 m3 (s+40)
        let m4 :=
          if load64 m3 (s+24)≠0 then
            store64 m3 ((load64 m3 (s+24)+32)%2^64) (load64 m3 (s+32))
          else m3
        let m5 :=
          if load64 m4 (s+32)≠0 then
            store64 m4 ((load64 m4 (s+32)+24)%2^64) (load64 m4 (s+24))
          else if cache≠0 then store64 m4 ((cache+8)%2^64) (load64 m4 (s+24))
          else m4
        buddyFree L m5 s 0
      else m3

/-- Object sizes of the caches. -/
def cacheSizes : List ℕ := [16,32,64,128,256,512,1024,2048]

/-- Reset one cache record. -/
def initCache (m : Bytes) (i : ℕ) : Bytes :=
  let size := cacheSizes.getD i 0
  let m1 := store64 m (cacheAddr L i) size
  let m2 := store64 m1 (cacheAddr L i+8) 0
  store32 m2 (cacheAddr L i+16) ((frameSize-slabHeader)/size)

/-- Set up an allocator with the whole heap free and all caches empty. -/
def memoryInit (m : Bytes) : Bytes :=
  let m1 := (List.range (maxOrder+1)).foldl (fun m i => store64 m (areaHead L i) 0) m
  let m2 := (List.range frameCount).foldl (fun m i => setFrame L m i 0) m1
  let m3 := store64 m2 (heapPhys+0) 0
  let m4 := store64 m3 (heapPhys+8) 0
  let m5 := store64 m4 (areaHead L maxOrder) heapPhys
  let m6 := setFrame L m5 0 maxOrder
  (List.range cacheCount).foldl (initCache L) m6

/-- Smallest order from the given one on whose block holds the pages; at most
the given number of steps. -/
def orderFor (pages : ℕ) : ℕ → ℕ → ℕ
  | 0, order => order
  | fuel+1, order => if 1<<<order<pages then orderFor pages fuel (order+1) else order

/-- Pages of a request, rounded up in 64-bit arithmetic. -/
def pagesFor (size : ℕ) : ℕ := ((size+frameSize-1)%2^64)/frameSize

/-- First cache whose objects are large enough. -/
def findCache (m : Bytes) (size : ℕ) : ℕ → ℕ → Option ℕ
  | 0, _ => none
  | count+1, i =>
    if load64 m (cacheAddr L i)≥size then some i else findCache m size count (i+1)

/-- Allocate kernel memory: whole pages from 2048 bytes on, a slab object
below. No result means that a slab list does not end. -/
def kmalloc (m : Bytes) (size : ℕ) : Option (ℕ × Bytes) :=
  if size=0 then some (0,m) else
    let size := if size<16 then 16 else size
    if size≥2048 then some (buddyAlloc L m (orderFor (pagesFor size) 64 0) false)
    else
      match findCache L m size cacheCount 0 with
      | some i => slabAlloc L m (cacheAddr L i)
      | none => some (0,m)

/-- Release kernel memory. The page's first word decides between the slab
and the page path. -/
def kfree (m : Bytes) (ptr : ℕ) : Bytes :=
  if ptr=0 then m
  else if ptr<heapPhys ∨ ptr≥heapPhys+heapSize then m
  else if load32 m (pageOf ptr)=slabMagic then slabFree L m ptr
  else if ptr&&&(frameSize-1)≠0 then m
  else if addrToFrame ptr≥frameCount then m
  else if frameTag L m (addrToFrame ptr)&&&frameAlloc=0 then m
  else buddyFree L m ptr (frameTag L m (addrToFrame ptr)&&&frameOrder)

/-- Allocate pages for a user; address, protection and flags are ignored. -/
def mmapUser (m : Bytes) (length : ℕ) : ℕ × Bytes :=
  let pages := if pagesFor length=0 then 1 else pagesFor length
  buddyAlloc L m (orderFor pages 64 0) true

/-- Release the live block at an address; the length is ignored, and so is
whether the block was allocated for a user. -/
def munmapUser (m : Bytes) (addr : ℕ) : ℤ × Bytes :=
  if addr=0 then (0,m)
  else if addr&&&(frameSize-1)≠0 then (-1,m)
  else if addrToFrame addr≥frameCount then (-1,m)
  else if frameTag L m (addrToFrame addr)&&&frameAlloc=0 then (0,m)
  else (0,buddyFree L m addr (frameTag L m (addrToFrame addr)&&&frameOrder))

/-- Scan the frame table from an index on and release every live user block. -/
def munmapAllFrom : ℕ → ℕ → Bytes → Bytes
  | 0, _, m => m
  | fuel+1, i, m =>
    if i<frameCount then
      if frameTag L m i&&&(frameAlloc|||frameUser)=frameAlloc|||frameUser then
        let order := frameTag L m i&&&frameOrder
        munmapAllFrom fuel (i+1<<<order) (releaseBlock L m i order)
      else munmapAllFrom fuel (i+1) m
    else m

/-- Release every live user block. Each round advances by at least one frame,
so the frame count bounds the rounds. -/
def munmapAllUser (m : Bytes) : Bytes := munmapAllFrom L frameCount 0 m

/-- Release one page. -/
def pageFree (m : Bytes) (addr : ℕ) : Bytes := buddyFree L m addr 0

end OvsbMk.KernelMemory
