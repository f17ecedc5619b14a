import OvsbMk.Fat32
import OvsbMk.Console

/-!
# Mounting, listing and naming directories

Translation of the rest of `fat32.c`: `fat32_init`, the loops that go through a
directory and collect what they see, and the printed path of the current
directory. A loop that may pass a cluster more than once gets its number of
rounds; no result stands for more rounds. A store outside an array ends
`fat32_get_cwd_name` without a text.
-/

namespace OvsbMk.FatViews

open ByteMemory BlockDisk Fat32

/-- What `fat32_init` takes from the boot sector. -/
structure Boot where
  /-- Sectors of a cluster. -/
  sectorsPerCluster : ℕ
  /-- Sectors before the first table. -/
  reservedSectors : ℕ
  /-- Number of tables. -/
  numFats : ℕ
  /-- Sectors of the volume. -/
  totalSectors32 : ℕ
  /-- Sectors of one table. -/
  sectorsPerFat32 : ℕ
  /-- First cluster of the root directory. -/
  rootCluster : ℕ
  /-- The mark of a boot sector. -/
  bootSectorSignature : ℕ

/-- The boot sector in the bytes of a sector. -/
def bootAt (sector : Bytes) : Boot where
  sectorsPerCluster := loadBytes sector 13 1
  reservedSectors := loadBytes sector 14 2
  numFats := loadBytes sector 16 1
  totalSectors32 := loadBytes sector 32 4
  sectorsPerFat32 := loadBytes sector 36 4
  rootCluster := loadBytes sector 44 4
  bootSectorSignature := loadBytes sector 510 2

/-- The volume of a boot sector. -/
def volumeOf (sector : Bytes) : Volume where
  sectorsPerCluster := (bootAt sector).sectorsPerCluster
  fatStartSector := (bootAt sector).reservedSectors
  sectorsPerFat32 := (bootAt sector).sectorsPerFat32
  firstDataSector :=
    ((bootAt sector).reservedSectors+(bootAt sector).numFats*(bootAt sector).sectorsPerFat32)%2^32
  totalSectors32 := (bootAt sector).totalSectors32
  rootCluster := (bootAt sector).rootCluster
  sectorsPerCluster_lt := loadBytes_lt sector 13 1
  fatStartSector_lt := loadBytes_lt sector 14 2
  sectorsPerFat32_lt := loadBytes_lt sector 36 4
  firstDataSector_lt := Nat.mod_lt _ (Nat.two_pow_pos 32)
  totalSectors32_lt := loadBytes_lt sector 32 4
  rootCluster_lt := loadBytes_lt sector 44 4

/-- Mount the volume: the result, and the volume with its root as the current
directory when the result is zero. -/
def fat32Init (d : Disk) : (ℤ×Option (Volume×ℕ))×Disk :=
  match ataReadSector 0 d with
  | (none,d) => ((-1,none),d)
  | (some sector,d) =>
    if (bootAt sector).bootSectorSignature≠0xAA55 then ((-1,none),d)
    else ((0,some (volumeOf sector,(bootAt sector).rootCluster)),d)

/-- The text shown for the eleven bytes of a name: the base up to its first
blank and, if neither part is blank, a dot and the extension up to its first
blank. -/
def displayName (name : List UInt8) : List UInt8 :=
  let base := (name.take 8).takeWhile (· ≠ 0x20)
  let extension := (name.drop 8).take 3
  if extension.any (· ≠ 0x20) ∧ 0<base.length then
    base++0x2E::extension.takeWhile (· ≠ 0x20)
  else base

/-- Compare at most so many bytes of two texts from a position on: the
difference of the first two that differ before both texts end. -/
def strncmp (a b : Bytes) : ℕ → ℕ → ℤ
  | 0, _ => 0
  | n+1, i =>
    if a i≠b i then Console.charValue (a i)-Console.charValue (b i)
    else if a i=0 then 0
    else strncmp a b n (i+1)

/-- A text in memory, with its terminator. -/
def textBytes (text : List UInt8) : Bytes := fun i => text.getD i 0

/-- Go through the slots of a sector while there is more to do: whether the
directory ended, and what was collected. -/
def scanSlots {σ : Type} (more : σ → Bool) (enter : Bytes → ℕ → σ → σ) (buf : Bytes) :
    ℕ → ℕ → σ → Bool×σ
  | 0, _, seen => (false,seen)
  | count+1, i, seen =>
    if more seen then
      if slotEnd buf (32*i) then (true,seen)
      else scanSlots more enter buf count (i+1)
        (if slotShort buf (32*i) then enter buf (32*i) seen else seen)
    else (false,seen)

/-- Go through the sectors of a cluster while there is more to do; a sector that
cannot be read ends the loops. -/
def scanSectors {σ : Type} (more : σ → Bool) (enter : Bytes → ℕ → σ → σ) (fail : σ → σ)
    (sector : ℕ) : ℕ → ℕ → σ → Disk → Bool×σ×Disk
  | 0, _, seen, d => (false,seen,d)
  | count+1, s, seen, d =>
    if more seen then
      match ataReadSector ((sector+s)%2^32) d with
      | (none,d) => (true,fail seen,d)
      | (some buf,d) =>
        match scanSlots more enter buf 16 0 seen with
        | (true,seen) => (true,seen,d)
        | (false,seen) => scanSectors more enter fail sector count (s+1) seen d
    else (false,seen,d)

/-- Go through the entries of a directory while there is more to do: the loops
that `list_dir_at` and `fat32_match_prefix` share. -/
def scanChain {σ : Type} (v : Volume) (more : σ → Bool) (enter : Bytes → ℕ → σ → σ)
    (fail : σ → σ) : ℕ → ℕ → σ → Disk → Option (σ×Disk)
  | rounds, cluster, seen, d =>
    if 2≤cluster ∧ cluster<endOfChain ∧ more seen then
      match rounds with
      | 0 => none
      | rounds+1 =>
        match scanSectors more enter fail (clusterToSector v cluster) v.sectorsPerCluster 0
            seen d with
        | (true,seen,d) => some (seen,d)
        | (false,seen,d) =>
          let r := fatReadEntry v cluster d
          scanChain v more enter fail rounds r.1 seen r.2
    else some (seen,d)

/-- An element of the array that `fat32_match_prefix` fills. -/
structure Dirent where
  /-- The text of the name. -/
  name : Bytes
  /-- Attributes. -/
  attr : ℕ

/-- Store a text and its terminator in an element, and the attributes. -/
def Dirent.store (e : Dirent) (text : List UInt8) (attr : ℕ) : Dirent :=
  ⟨copyRange e.name 0 (min text.length 63+1) (textBytes (text.take 63)),attr⟩

/-- Add an entry whose shown name starts with the prefix. -/
def matchEnter (pre : List UInt8) (buf : Bytes) (a : ℕ) (seen : ℕ×(ℕ → Dirent)) :
    ℕ×(ℕ → Dirent) :=
  let name := displayName (entryAt buf a).name
  if pre.length=0 ∨ strncmp (textBytes name) (textBytes pre) pre.length 0=0 then
    (seen.1+1,
      Function.update seen.2 seen.1 ((seen.2 seen.1).store name (entryAt buf a).attr))
  else seen

/-- Collect the entries of a directory whose shown names start with a prefix, up
to a number of them: the number, and the array. -/
def fat32MatchPrefix (v : Volume) (pre : List UInt8) (dirCluster : ℕ) (entries : ℕ → Dirent)
    (maxEntries rounds : ℕ) (d : Disk) : Option ((ℕ×(ℕ → Dirent))×Disk) :=
  scanChain v (fun seen => decide (seen.1 < maxEntries)) (matchEnter pre) id rounds dirCluster
    (0,entries) d

/-- What `list_dir_at` sends to the console. -/
inductive Shown where
  /-- Another colour. -/
  | colour (rgb : ℕ)
  /-- A character. -/
  | char (c : ℕ)

/-- Two decimal digits. -/
def twoDigits (n : ℕ) : List Shown := [.char (0x30+n/10),.char (0x30+n%10)]

/-- The line of an entry: its name without blanks, a slash behind a directory,
and month, day, hour and minute of its last change if it has a date. -/
def entryLine (buf : Bytes) (a : ℕ) : List Shown :=
  let e := entryAt buf a
  let mt := loadBytes buf (a+22) 2
  let md := loadBytes buf (a+24) 2
  .colour (if isDirectory e then 0xFF60FF60 else 0xFFC0C0C0)::
    ((e.name.filter (· ≠ 0x20)).map fun c => Shown.char c.toNat)++
    (if isDirectory e then [.char 0x2F] else [])++[.colour 0xFFC0C0C0]++
    (if md≠0 then
      .char 0x20::twoDigits (md/2^5%2^4)++.char 0x2D::twoDigits (md%2^5)++
        .char 0x20::twoDigits (mt/2^11%2^5)++.char 0x3A::twoDigits (mt/2^5%2^6)
    else [])++[.char 0x0A]

/-- List a directory: the number of its entries or minus one, and what was sent
to the console. -/
def listDirAt (v : Volume) (dirCluster rounds : ℕ) (d : Disk) :
    Option ((ℤ×List Shown)×Disk) :=
  scanChain v (fun _ => true) (fun buf a seen => (seen.1+1,seen.2++entryLine buf a))
    (fun seen => (-1,seen.2)) rounds dirCluster (0,[]) d

/-- The slot holds a short entry with two dots and a blank. -/
def slotParent (m : Bytes) (a : ℕ) : Bool :=
  slotShort m a && decide (m a=0x2E) && decide (m (a+1)=0x2E) && decide (m (a+2)=0x20)

/-- The cluster of the parent of a directory: the one its entry with two dots
leads to, the root if it has none in its first sector. -/
def parentCluster (v : Volume) (c : ℕ) (d : Disk) : ℕ×Disk :=
  match ataReadSector (clusterToSector v c) d with
  | (none,d) => (v.rootCluster,d)
  | (some buf,d) =>
    match firstSlot slotParent buf with
    | none => (v.rootCluster,d)
    | some a =>
      (if firstClusterOf (entryAt buf a)=0 then v.rootCluster else firstClusterOf (entryAt buf a),d)

/-- The slot holds a short entry in use that leads to a cluster. -/
def slotLeads (c : ℕ) (m : Bytes) (a : ℕ) : Bool :=
  !slotEnd m a && slotShort m a && decide (firstClusterOf (entryAt m a)=c)

/-- Search the sectors of a cluster for the name of a directory; a sector that
cannot be read ends the search in this cluster. -/
def nameSectors (c sector : ℕ) : ℕ → ℕ → Disk → Option (List UInt8)×Disk
  | 0, _, d => (none,d)
  | count+1, s, d =>
    match ataReadSector ((sector+s)%2^32) d with
    | (none,d) => (none,d)
    | (some pb,d) =>
      match firstSlot (slotLeads c) pb with
      | some a => (some (entryAt pb a).name,d)
      | none => nameSectors c sector count (s+1) d

/-- Search a directory for the name of one of its directories. The loop reads
one more link before it notices that the name was found. -/
def nameChain (v : Volume) (c : ℕ) : ℕ → ℕ → Disk → Option (Option (List UInt8)×Disk)
  | rounds, pc, d =>
    if 2≤pc ∧ pc<endOfChain then
      match rounds with
      | 0 => none
      | rounds+1 =>
        let r := nameSectors c (clusterToSector v pc) v.sectorsPerCluster 0 d
        let next := fatReadEntry v pc r.2
        match r.1 with
        | some name => some (some name,next.2)
        | none => nameChain v c rounds next.1 next.2
    else some (none,d)

/-- Places for names on the stack of `fat32_get_cwd_name`. -/
abbrev stackSize : ℕ := 16

/-- Follow the parents up to the root and push the names found, the last one
first: no names for a push outside the stack. -/
def climb (v : Volume) : ℕ → ℕ → List (List UInt8) → Disk →
    Option (Option (List (List UInt8))×Disk)
  | rounds, c, stack, d =>
    if c≠v.rootCluster then
      match rounds with
      | 0 => none
      | rounds+1 =>
        let parent := parentCluster v c d
        match nameChain v c rounds parent.1 parent.2 with
        | none => none
        | some (none,d) => climb v rounds parent.1 stack d
        | some (some name,d) =>
          if stack.length<stackSize then climb v rounds parent.1 (name::stack) d
          else some (none,d)
    else some (some stack,d)

/-- Append a character if there is room for it and the terminator. -/
def putChar (maxlen : ℕ) (out : List UInt8) (c : UInt8) : List UInt8 :=
  if out.length+1 < maxlen then out++[c] else out

/-- Append names with slashes between them. -/
def putNames (maxlen : ℕ) : List UInt8 → List (List UInt8) → List UInt8
  | out, [] => out
  | out, name::rest =>
    let out := ((name.take 11).takeWhile (· ≠ 0x20)).foldl (putChar maxlen) out
    putNames maxlen (if rest.length>0 then putChar maxlen out 0x2F else out) rest

/-- End the text: no text if the terminator is outside the array. -/
def terminate (maxlen : ℕ) (out : List UInt8) : Option (List UInt8) :=
  if out.length < maxlen then some out else none

/-- The path of the current directory in an array of the given length: the text
before the terminator, no text for a store outside the stack or the array. -/
def fat32GetCwdName (v : Volume) (cwd maxlen rounds : ℕ) (d : Disk) :
    Option (Option (List UInt8)×Disk) :=
  if cwd=v.rootCluster then some (terminate maxlen [0x2F],d)
  else
    match climb v rounds cwd [] d with
    | none => none
    | some (none,d) => some (none,d)
    | some (some stack,d) => some (terminate maxlen (putNames maxlen [0x2F] stack),d)

end OvsbMk.FatViews
