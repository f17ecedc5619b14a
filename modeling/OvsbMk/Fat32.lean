import OvsbMk.BlockDisk

/-!
# The FAT32 driver

Translation of `fat32.c`. The static variables set by `fat32_init` form a
volume; the current directory is passed along. Sector and cluster arithmetic is
in 32 bits. A loop over a cluster chain that meets a cluster twice never ends,
since nothing it reads changes, so `2^28` rounds bound the loops that end; a
function whose loop does not end has no result.
-/

namespace OvsbMk.Fat32

open ByteMemory BlockDisk

/-- Links from here on end a chain. -/
abbrev endOfChain : ℕ := 0x0FFFFFF8

/-- The link written at the end of a chain. -/
abbrev endMark : ℕ := 0x0FFFFFFF

/-- Error: no such entry. -/
abbrev fatErrNotfound : ℤ := -1

/-- Error: the entry exists already. -/
abbrev fatErrExists : ℤ := -2

/-- Error: a transfer failed. -/
abbrev fatErrIo : ℤ := -3

/-- Error: no free cluster or slot. -/
abbrev fatErrNospace : ℤ := -4

/-- Error: the entry is not a directory. -/
abbrev fatErrNotdir : ℤ := -5

/-- Error: the directory is not empty. -/
abbrev fatErrNotempty : ℤ := -6

/-- The geometry of the mounted volume, in the widths of the boot sector. -/
structure Volume where
  /-- Sectors of a cluster. -/
  sectorsPerCluster : ℕ
  /-- First sector of the first table. -/
  fatStartSector : ℕ
  /-- Sectors of one table. -/
  sectorsPerFat32 : ℕ
  /-- First sector of the data area. -/
  firstDataSector : ℕ
  /-- Sectors of the volume. -/
  totalSectors32 : ℕ
  /-- First cluster of the root directory. -/
  rootCluster : ℕ
  /-- One byte. -/
  sectorsPerCluster_lt : sectorsPerCluster<2^8
  /-- One word. -/
  fatStartSector_lt : fatStartSector<2^16
  /-- Two words. -/
  sectorsPerFat32_lt : sectorsPerFat32<2^32
  /-- Two words. -/
  firstDataSector_lt : firstDataSector<2^32
  /-- Two words. -/
  totalSectors32_lt : totalSectors32<2^32
  /-- Two words. -/
  rootCluster_lt : rootCluster<2^32

/-- A 32-bit result as a signed number. -/
def toInt (x : ℕ) : ℤ := if x%2^32<2^31 then (x%2^32 : ℕ) else (x%2^32 : ℕ)-2^32

/-- Upper case of a letter. -/
def upper (c : UInt8) : UInt8 := if 0x61≤c ∧ c≤0x7A then c-0x20 else c

/-- Text filled up with blanks, or cut, to a length. -/
def padded (text : List UInt8) (length : ℕ) : List UInt8 :=
  text.take length++List.replicate (length-text.length) 0x20

/-- The eleven bytes of a name in a directory: eight before the first dot and
three after it, in upper case. The two dot names stand for themselves. -/
def nameTo83 (name : List UInt8) : List UInt8 :=
  if name=[0x2E] ∨ name=[0x2E,0x2E] then padded name 11
  else
    let base := name.takeWhile (· ≠ 0x2E)
    let extension := (name.dropWhile (· ≠ 0x2E)).drop 1
    padded (base.map upper) 8++padded (extension.map upper) 3

/-- First sector of a cluster. -/
def clusterToSector (v : Volume) (cluster : ℕ) : ℕ :=
  (v.firstDataSector+(cluster+2^32-2)%2^32*v.sectorsPerCluster)%2^32

/-- Bytes of a cluster. -/
def clusterBytes (v : Volume) : ℕ := v.sectorsPerCluster*sectorSize

/-- Clusters of the data area. -/
def totalClusters (v : Volume) : ℕ :=
  (v.totalSectors32+2^32-v.firstDataSector)%2^32/v.sectorsPerCluster

/-- Sector of the table that holds a cluster's link. -/
def fatSector (v : Volume) (cluster : ℕ) : ℕ := (v.fatStartSector+cluster*4%2^32/512)%2^32

/-- Read the link of a cluster; zero if the sector cannot be read. -/
def fatReadEntry (v : Volume) (cluster : ℕ) (d : Disk) : ℕ×Disk :=
  match ataReadSector (fatSector v cluster) d with
  | (none,d) => (0,d)
  | (some sector,d) => (load32 sector (cluster*4%2^32%512)%2^28,d)

/-- Write the link of a cluster, keeping its four upper bits. -/
def fatWriteEntry (v : Volume) (cluster value : ℕ) (d : Disk) : Bool×Disk :=
  match ataReadSector (fatSector v cluster) d with
  | (none,d) => (false,d)
  | (some sector,d) =>
    let offset := cluster*4%2^32%512
    ataWriteSector (fatSector v cluster)
      (store32 sector offset (load32 sector offset/2^28*2^28+value%2^28)) d

/-- Search the table for a free cluster. -/
def findFreeLoop (v : Volume) : ℕ → ℕ → Disk → ℕ×Disk
  | 0, _, d => (0,d)
  | rounds+1, c, d =>
    let r := fatReadEntry v c d
    if r.1=0 then (c,r.2) else findFreeLoop v rounds (c+1) r.2

/-- The first free cluster, or zero. -/
def fatFindFree (v : Volume) (d : Disk) : ℕ×Disk :=
  findFreeLoop v ((totalClusters v+2)%2^32-2) 2 d

/-- Read whole sectors into the buffer. -/
def readSectors (sector offset : ℕ) : ℕ → ℕ → Bytes → Disk → Bool×Bytes×Disk
  | 0, _, buffer, d => (true,buffer,d)
  | count+1, s, buffer, d =>
    match ataReadSector ((sector+s)%2^32) d with
    | (none,d) => (false,buffer,d)
    | (some data,d) =>
      readSectors sector offset count (s+1) (copyRange buffer (offset+s*512) 512 data) d

/-- Read the bytes of a part of a sector into the buffer. -/
def readRemainder (sector offset remainder : ℕ) (buffer : Bytes) (d : Disk) : Bool×Bytes×Disk :=
  if 0<remainder then
    match ataReadSector (sector%2^32) d with
    | (none,d) => (false,buffer,d)
    | (some data,d) => (true,copyRange buffer offset remainder data,d)
  else (true,buffer,d)

/-- Read from a chain into the buffer. -/
def readChain (v : Volume) (size : ℕ) : ℕ → ℕ → ℕ → Bytes → Disk → Option (ℤ×Bytes×Disk)
  | fuel, cluster, offset, buffer, d =>
    if 2≤cluster ∧ cluster<endOfChain ∧ offset<size then
      match fuel with
      | 0 => none
      | fuel+1 =>
        let sector := clusterToSector v cluster
        let toRead := min (size-offset) (clusterBytes v)
        match readSectors sector offset (toRead/512) 0 buffer d with
        | (false,buffer,d) => some (-1,buffer,d)
        | (true,buffer,d) =>
          match readRemainder (sector+toRead/512) (offset+toRead/512*512) (toRead%512) buffer d with
          | (false,buffer,d) => some (-1,buffer,d)
          | (true,buffer,d) =>
            let r := fatReadEntry v cluster d
            readChain v size fuel r.1 (offset+toRead) buffer r.2
    else some (toInt offset,buffer,d)

/-- Write whole sectors from the buffer. -/
def writeSectors (sector offset : ℕ) (buffer : Bytes) : ℕ → ℕ → Disk → Bool×Disk
  | 0, _, d => (true,d)
  | count+1, s, d =>
    match ataWriteSector ((sector+s)%2^32) (fun b => buffer (offset+s*512+b)) d with
    | (false,d) => (false,d)
    | (true,d) => writeSectors sector offset buffer count (s+1) d

/-- Write a part of a sector from the buffer, keeping the rest of it. -/
def writeRemainder (sector offset remainder : ℕ) (buffer : Bytes) (d : Disk) : Bool×Disk :=
  if 0<remainder then
    match ataReadSector (sector%2^32) d with
    | (none,d) => (false,d)
    | (some data,d) =>
      ataWriteSector (sector%2^32) (copyRange data 0 remainder fun b => buffer (offset+b)) d
  else (true,d)

/-- The cluster after this one, taken from the free ones at the end of the
chain. -/
def nextCluster (v : Volume) (cluster : ℕ) (d : Disk) : Option ℕ×Disk :=
  let next := fatReadEntry v cluster d
  if next.1=0 ∨ endOfChain≤next.1 then
    let free := fatFindFree v next.2
    if free.1=0 then (none,free.2) else
      match fatWriteEntry v cluster free.1 free.2 with
      | (false,d) => (none,d)
      | (true,d) =>
        match fatWriteEntry v free.1 endMark d with
        | (false,d) => (none,d)
        | (true,d) => (some free.1,d)
  else (some next.1,next.2)

/-- Write the buffer to a chain, extending it as needed. -/
def writeChain (v : Volume) (buffer : Bytes) : ℕ → ℕ → ℕ → ℕ → Disk → Option (ℤ×Disk)
  | fuel, cluster, offset, size, d =>
    if 0<size then
      match fuel with
      | 0 => none
      | fuel+1 =>
        let sector := clusterToSector v cluster
        let toWrite := min size (clusterBytes v)
        match writeSectors sector offset buffer (toWrite/512) 0 d with
        | (false,d) => some (-1,d)
        | (true,d) =>
          match writeRemainder (sector+toWrite/512) (offset+toWrite/512*512) (toWrite%512)
              buffer d with
          | (false,d) => some (-1,d)
          | (true,d) =>
            if 0<size-toWrite then
              match nextCluster v cluster d with
              | (none,d) => some (-1,d)
              | (some next,d) => writeChain v buffer fuel next (offset+toWrite) (size-toWrite) d
            else some (toInt (offset+toWrite),d)
    else some (toInt offset,d)

/-- Rounds that bound every walk along a chain that ends. -/
abbrev chainRounds : ℕ := 2^28

/-- Rounds that bound every transfer along a chain that ends. -/
abbrev transferRounds : ℕ := 2^32

/-- Call a visitor on the sectors of a cluster until it has a result. -/
def walkSectors {ρ : Type} (visit : ℕ → Disk → Option ρ×Disk) (sector : ℕ) :
    ℕ → ℕ → Disk → Option ρ×Disk
  | 0, _, d => (none,d)
  | count+1, s, d =>
    match visit ((sector+s)%2^32) d with
    | (some r,d) => (some r,d)
    | (none,d) => walkSectors visit sector count (s+1) d

/-- Call a visitor on the sectors of a chain until it has a result: the loop all
directory functions share. -/
def walkChain {ρ : Type} (v : Volume) (visit : ℕ → Disk → Option ρ×Disk) :
    ℕ → ℕ → Disk → Option (Option ρ×Disk)
  | fuel, cluster, d =>
    if 2≤cluster ∧ cluster<endOfChain then
      match fuel with
      | 0 => none
      | fuel+1 =>
        match walkSectors visit (clusterToSector v cluster) v.sectorsPerCluster 0 d with
        | (some r,d) => some (some r,d)
        | (none,d) =>
          let r := fatReadEntry v cluster d
          walkChain v visit fuel r.1 r.2
    else some (none,d)

/-- A directory entry, in a sector at 32 times its slot. -/
structure DirEntry where
  /-- The eleven bytes of the name. -/
  name : List UInt8
  /-- Attributes. -/
  attr : ℕ
  /-- Upper half of the first cluster. -/
  firstClusterHigh : ℕ
  /-- Lower half of the first cluster. -/
  firstClusterLow : ℕ
  /-- Size of the file. -/
  size : ℕ

/-- The entry at an address. -/
def entryAt (m : Bytes) (a : ℕ) : DirEntry :=
  ⟨(List.range 11).map fun j => m (a+j),loadBytes m (a+11) 1,loadBytes m (a+20) 2,
    loadBytes m (a+26) 2,loadBytes m (a+28) 4⟩

/-- The first cluster an entry names. -/
def firstClusterOf (e : DirEntry) : ℕ := e.firstClusterHigh*2^16+e.firstClusterLow

/-- The slot ends the directory. -/
def slotEnd (m : Bytes) (a : ℕ) : Bool := decide (m a=0x00)

/-- The slot holds a short entry that is not deleted, or ends the directory. -/
def slotShort (m : Bytes) (a : ℕ) : Bool :=
  decide (m a≠0xE5) && decide ((entryAt m a).attr≠0x0F)

/-- The slot holds a short entry with the name. -/
def slotHit (name83 : List UInt8) (m : Bytes) (a : ℕ) : Bool :=
  slotShort m a && decide ((entryAt m a).name=name83)

/-- The directory attribute. -/
def isDirectory (e : DirEntry) : Bool := decide (e.attr/16%2=1)

/-- The first slot of a sector that passes a test. -/
def firstSlot (test : Bytes → ℕ → Bool) (sector : Bytes) : Option ℕ :=
  ((List.range 16).find? fun i => test sector (32*i)).map (32*·)

/-- Store a first cluster in the entry at an address. -/
def setFirstCluster (m : Bytes) (a cluster : ℕ) : Bytes :=
  storeBytes (storeBytes m (a+26) 2 (cluster%2^16)) (a+20) 2 (cluster/2^16%2^16)

/-- Store a name in the entry at an address. -/
def setName (m : Bytes) (a : ℕ) (name83 : List UInt8) : Bytes :=
  copyRange m a 11 fun j => name83.getD j 0

/-- Look for a name: the sector of the entry and the entry, or minus one. -/
def findVisit (name83 : List UInt8) (lba : ℕ) (d : Disk) : Option (ℤ×Option DirEntry)×Disk :=
  match ataReadSector lba d with
  | (none,d) => (some (-1,none),d)
  | (some buf,d) =>
    match firstSlot (fun m a => slotEnd m a || slotHit name83 m a) buf with
    | none => (none,d)
    | some a => if slotEnd buf a then (some (-1,none),d) else (some (toInt lba,some (entryAt buf a)),d)

/-- Find a name in a directory. -/
def findEntry (v : Volume) (dirCluster : ℕ) (name : List UInt8) (d : Disk) :
    Option ((ℤ×Option DirEntry)×Disk) :=
  match walkChain v (findVisit (nameTo83 name)) chainRounds dirCluster d with
  | none => none
  | some (some r,d) => some (r,d)
  | some (none,d) => some ((-1,none),d)

/-- Read a file: the number of bytes or minus one, and the buffer. -/
def fat32ReadFile (v : Volume) (cwd : ℕ) (name : List UInt8) (buffer : Bytes) (size : ℕ)
    (d : Disk) : Option (ℤ×Bytes×Disk) :=
  match findEntry v cwd name d with
  | none => none
  | some ((_,none),d) => some (-1,buffer,d)
  | some ((r,some entry),d) =>
    if r<0 then some (-1,buffer,d)
    else if firstClusterOf entry=0 then some (0,buffer,d)
    else readChain v (min size entry.size) transferRounds (firstClusterOf entry) 0 buffer d

/-- Put size and first cluster into the first entry with the name. -/
def updateVisit (name83 : List UInt8) (cluster : ℕ) (result : ℤ) (lba : ℕ) (d : Disk) :
    Option ℤ×Disk :=
  match ataReadSector lba d with
  | (none,d) => (some result,d)
  | (some buf,d) =>
    match firstSlot (slotHit name83) buf with
    | none => (none,d)
    | some a =>
      match ataWriteSector lba
          (setFirstCluster (store32 buf (a+28) (result%2^32).toNat) a cluster) d with
      | (false,d) => (some (-1),d)
      | (true,d) => (some result,d)

/-- The first cluster of the file, taken from the free ones for an empty file. -/
def startCluster (v : Volume) (entry : DirEntry) (d : Disk) : Option ℕ×Disk :=
  if firstClusterOf entry=0 then
    let free := fatFindFree v d
    if free.1=0 then (none,free.2) else
      match fatWriteEntry v free.1 endMark free.2 with
      | (false,d) => (none,d)
      | (true,d) => (some free.1,d)
  else (some (firstClusterOf entry),d)

/-- Write a file: the number of bytes or minus one. -/
def fat32WriteFile (v : Volume) (cwd : ℕ) (name : List UInt8) (buffer : Bytes) (size : ℕ)
    (d : Disk) : Option (ℤ×Disk) :=
  match findEntry v cwd name d with
  | none => none
  | some ((_,none),d) => some (-1,d)
  | some ((r,some entry),d) =>
    if r<0 then some (-1,d) else
      match startCluster v entry d with
      | (none,d) => some (-1,d)
      | (some cluster,d) =>
        match writeChain v buffer transferRounds cluster 0 size d with
        | none => none
        | some (result,d) =>
          if result<0 then some (result,d) else
            match walkChain v (updateVisit (nameTo83 name) cluster result) chainRounds cwd d with
            | none => none
            | some (some r,d) => some (r,d)
            | some (none,d) => some (result,d)

/-- The slot is free: it was never used or its entry was deleted. -/
def slotFree (m : Bytes) (a : ℕ) : Bool := decide (m a=0x00) || decide (m a=0xE5)

/-- The slot holds a short entry with the name, and does not end the directory. -/
def slotNamed (name83 : List UInt8) (m : Bytes) (a : ℕ) : Bool :=
  !slotEnd m a && slotHit name83 m a

/-- The slot holds a short entry with the name and the directory attribute. -/
def slotFolder (name83 : List UInt8) (m : Bytes) (a : ℕ) : Bool :=
  slotHit name83 m a && isDirectory (entryAt m a)

/-- Store a new entry at an address: name, attributes, no size and no cluster. -/
def setEntry (name83 : List UInt8) (attr : ℕ) (m : Bytes) (a : ℕ) : Bytes :=
  setFirstCluster (store32 (storeBytes (setName m a name83) (a+11) 1 attr) (a+28) 0) a 0

/-- Mark the entry at an address as deleted. -/
def eraseEntry (m : Bytes) (a : ℕ) : Bytes := storeBytes m a 1 0xE5

/-- Put a new entry into the first free slot. -/
def createVisit (name83 : List UInt8) (attr : ℕ) (lba : ℕ) (d : Disk) : Option ℤ×Disk :=
  match ataReadSector lba d with
  | (none,d) => (some fatErrIo,d)
  | (some buf,d) =>
    match firstSlot slotFree buf with
    | none => (none,d)
    | some a =>
      match ataWriteSector lba (setEntry name83 attr buf a) d with
      | (false,d) => (some fatErrIo,d)
      | (true,d) => (some 0,d)

/-- Create an entry in a directory. -/
def createEntryAt (v : Volume) (dirCluster : ℕ) (name : List UInt8) (attr : ℕ) (d : Disk) :
    Option (ℤ×Disk) :=
  match walkChain v (createVisit (nameTo83 name) attr) chainRounds dirCluster d with
  | none => none
  | some (some r,d) => some (r,d)
  | some (none,d) => some (fatErrNospace,d)

/-- Mark the first entry with the name as deleted. -/
def deleteVisit (name83 : List UInt8) (lba : ℕ) (d : Disk) : Option ℤ×Disk :=
  match ataReadSector lba d with
  | (none,d) => (some (-1),d)
  | (some buf,d) =>
    match firstSlot (fun m a => slotEnd m a || slotHit name83 m a) buf with
    | none => (none,d)
    | some a =>
      if slotEnd buf a then (some (-1),d) else
        match ataWriteSector lba (eraseEntry buf a) d with
        | (false,d) => (some (-1),d)
        | (true,d) => (some 0,d)

/-- Delete an entry of a directory. -/
def deleteEntryAt (v : Volume) (dirCluster : ℕ) (name : List UInt8) (d : Disk) : Option (ℤ×Disk) :=
  match walkChain v (deleteVisit (nameTo83 name)) chainRounds dirCluster d with
  | none => none
  | some (some r,d) => some (r,d)
  | some (none,d) => some (-1,d)

/-- Create a file in the current directory. -/
def fat32CreateFile (v : Volume) (cwd : ℕ) (name : List UInt8) (d : Disk) : Option (ℤ×Disk) :=
  createEntryAt v cwd name 0x20 d

/-- Delete a file of the current directory. -/
def fat32DeleteFile (v : Volume) (cwd : ℕ) (name : List UInt8) (d : Disk) : Option (ℤ×Disk) :=
  deleteEntryAt v cwd name d

/-- Find the directory a name leads to: the result and the current directory. -/
def enterDirectory (v : Volume) (cwd : ℕ) (name : List UInt8) (d : Disk) : Option (ℤ×ℕ×Disk) :=
  match findEntry v cwd name d with
  | none => none
  | some ((_,none),d) => some (fatErrNotfound,cwd,d)
  | some ((r,some entry),d) =>
    if r<0 then some (fatErrNotfound,cwd,d)
    else if isDirectory entry then
      some (0,if firstClusterOf entry=0 then v.rootCluster else firstClusterOf entry,d)
    else some (fatErrNotdir,cwd,d)

/-- Change the current directory. A name that starts with a slash first changes
to the root, which stays the current directory when the rest is not found. -/
def fat32ChangeDir (v : Volume) (cwd : ℕ) (name : List UInt8) (d : Disk) : Option (ℤ×ℕ×Disk) :=
  match name with
  | [] => some (0,v.rootCluster,d)
  | c::rest =>
    if c=0x2F then
      if rest=[] then some (0,v.rootCluster,d) else enterDirectory v v.rootCluster rest d
    else enterDirectory v cwd name d

/-- Store an entry of a new directory: a dot name and the cluster it leads to. -/
def setDotEntry (m : Bytes) (a : ℕ) (name : List UInt8) (cluster : ℕ) : Bytes :=
  setFirstCluster (storeBytes (setName m a (padded name 11)) (a+11) 1 0x10) a cluster

/-- The first sector of a new directory. -/
def newDirectory (newCluster cwd : ℕ) : Bytes :=
  setDotEntry (setDotEntry (fun _ => 0) 0 [0x2E] newCluster) 32 [0x2E,0x2E] cwd

/-- Give the first directory with the name its cluster, take the cluster from the
free ones and store the dot entries. -/
def mkdirVisit (v : Volume) (cwd newCluster : ℕ) (name83 : List UInt8) (lba : ℕ) (d : Disk) :
    Option ℤ×Disk :=
  match ataReadSector lba d with
  | (none,d) => (some fatErrIo,d)
  | (some buf,d) =>
    match firstSlot (slotFolder name83) buf with
    | none => (none,d)
    | some a =>
      match ataWriteSector lba (setFirstCluster buf a newCluster) d with
      | (false,d) => (some fatErrIo,d)
      | (true,d) =>
        match fatWriteEntry v newCluster endMark d with
        | (false,d) => (some fatErrIo,d)
        | (true,d) =>
          match ataWriteSector (clusterToSector v newCluster) (newDirectory newCluster cwd) d with
          | (false,d) => (some fatErrIo,d)
          | (true,d) => (some 0,d)

/-- Make a directory in the current directory. -/
def fat32Mkdir (v : Volume) (cwd : ℕ) (name : List UInt8) (d : Disk) : Option (ℤ×Disk) :=
  let free := fatFindFree v d
  if free.1=0 then some (fatErrNospace,free.2) else
    match findEntry v cwd name free.2 with
    | none => none
    | some (r,d) =>
      if 0≤r.1 then some (fatErrExists,d) else
        match createEntryAt v cwd name 0x10 d with
        | none => none
        | some (r,d) =>
          if r≠0 then some (r,d) else
            match walkChain v (mkdirVisit v cwd free.1 (nameTo83 name)) chainRounds cwd d with
            | none => none
            | some (some r,d) => some (r,d)
            | some (none,d) => some (-1,d)

/-- Replace the name of the first entry with the old name. -/
def renameVisit (old83 new83 : List UInt8) (lba : ℕ) (d : Disk) : Option ℤ×Disk :=
  match ataReadSector lba d with
  | (none,d) => (some fatErrIo,d)
  | (some buf,d) =>
    match firstSlot (slotNamed old83) buf with
    | none => (none,d)
    | some a =>
      match ataWriteSector lba (setName buf a new83) d with
      | (false,d) => (some fatErrIo,d)
      | (true,d) => (some 0,d)

/-- Rename an entry of the current directory. -/
def fat32Rename (v : Volume) (cwd : ℕ) (oldname newname : List UInt8) (d : Disk) :
    Option (ℤ×Disk) :=
  match walkChain v (renameVisit (nameTo83 oldname) (nameTo83 newname)) chainRounds cwd d with
  | none => none
  | some (some r,d) => some (r,d)
  | some (none,d) => some (fatErrNotfound,d)

/-- A directory looks empty: the slots of its first sector after the first two
are free, or the sector cannot be read. -/
def looksEmpty (v : Volume) (cl : ℕ) (d : Disk) : Bool×Disk :=
  match ataReadSector (clusterToSector v cl) d with
  | (none,d) => (true,d)
  | (some db,d) => ((List.range 14).all fun i => slotFree db (32*(i+2)),d)

/-- Free the clusters of a chain, without a look at the outcome of the writes. -/
def freeChain (v : Volume) : ℕ → ℕ → Disk → Option Disk
  | 0, _, _ => none
  | fuel+1, cl, d =>
    let next := fatReadEntry v cl d
    let written := fatWriteEntry v cl 0 next.2
    if 2≤next.1 ∧ next.1<endOfChain then freeChain v fuel next.1 written.2 else some written.2

/-- Free the clusters of a directory that looks empty; an entry without clusters
has none to free. The answer is no for a directory that does not look empty. -/
def clearDirectory (v : Volume) (cl : ℕ) (d : Disk) : Option (Bool×Disk) :=
  if cl=0 then some (true,d) else
    let r := looksEmpty v cl d
    if r.1 then (freeChain v chainRounds cl r.2).map fun d => (true,d) else some (false,r.2)

/-- Remove the first entry with the name if it is a directory that looks empty.
No answer stands for a loop that does not end. -/
def rmdirVisit (v : Volume) (name83 : List UInt8) (lba : ℕ) (d : Disk) : Option (Option ℤ)×Disk :=
  match ataReadSector lba d with
  | (none,d) => (some (some fatErrIo),d)
  | (some buf,d) =>
    match firstSlot (slotNamed name83) buf with
    | none => (none,d)
    | some a =>
      if isDirectory (entryAt buf a) then
        match clearDirectory v (firstClusterOf (entryAt buf a)) d with
        | none => (some none,d)
        | some (false,d) => (some (some fatErrNotempty),d)
        | some (true,d) =>
          match ataWriteSector lba (eraseEntry buf a) d with
          | (false,d) => (some (some fatErrIo),d)
          | (true,d) => (some (some 0),d)
      else (some (some fatErrNotdir),d)

/-- Remove a directory of the current directory. -/
def fat32Rmdir (v : Volume) (cwd : ℕ) (name : List UInt8) (d : Disk) : Option (ℤ×Disk) :=
  match walkChain v (rmdirVisit v (nameTo83 name)) chainRounds cwd d with
  | none => none
  | some (some none,_) => none
  | some (some (some r),d) => some (r,d)
  | some (none,d) => some (fatErrNotfound,d)

end OvsbMk.Fat32
