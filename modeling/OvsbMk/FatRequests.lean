import OvsbMk.FatAnswers
import OvsbMk.FatStore
import OvsbMk.Descriptors

/-!
# Requests to a store of files

The requests of clients, what a store of files answers to them, and when a disk stands
for a store. A request has one answer, but for room on the disk and for the number of a
new directory.
-/

namespace OvsbMk.FatRequests

open ByteMemory BlockDisk Fat32 Chains FatTable FatData FatDirectory FatEntries RootedTree FatTree
  FatFiles FatChanges FatFaults FatOperations FatSteps FatRuns FatNames FatAnswers FatStore
      FileStore

variable {v : Volume} {m m' : Bytes} {s s' : State} {t t' : Tree} {fs fs' : Files} {a cwd : ℕ}
  {name : List UInt8} {node : Node ℕ UInt8}

/-- What clients ask of the file system. -/
inductive Request where
  /-- A call that changes the disk or the current directory. -/
  | call (call : Call)
  /-- `fat32_read_file` into a buffer. -/
  | read (name : Text) (buffer : Bytes) (size : UInt32)
  /-- `fat32_stat`. -/
  | stat (name : Text)

/-- What they get back. -/
inductive Reply where
  /-- The result of a call. -/
  | status (result : ℤ)
  /-- The result of a read and the buffer after it. -/
  | contents (result : ℤ) (buffer : Bytes)
  /-- Whether the entry is a directory, and its size; nothing for no entry. -/
  | entry (found : Option (Bool×ℕ))

/-- Perform a request: the reply and the state after it. -/
def Request.perform (v : Volume) (s : State) : Request → Option (Reply×State)
  | call c => (c.perform v s).map fun r => (.status r.1,r.2)
  | read name buffer size =>
    (fat32ReadFile v s.cwd name buffer size.toNat s.disk).map fun r =>
      (.contents r.1 r.2.1,⟨r.2.2,s.cwd⟩)
  | stat name =>
    (Descriptors.fat32Stat v s.cwd name s.disk).map fun r =>
      (.entry (r.1.map fun e => (isDirectory e,e.size)),⟨r.2,s.cwd⟩)

/-- The bytes of a buffer as a text. -/
def textOf (buffer : Bytes) (size : ℕ) : List UInt8 := (List.range size).map buffer

/-- The store with a new name. A name that starts with the mark of deleted entries is lost
at once. -/
def enter (fs : Files) (p : ℕ) (name : List UInt8) (node : Node ℕ UInt8) : Files :=
  if name.headD 0=0xE5 then fs else fs.put p name (some node)

/-- The two names of a new directory. -/
def dots (q p : ℕ) (name : List UInt8) : Option (Node ℕ UInt8) :=
  if name=padded [0x2E] 11 then some (.folder q)
  else if name=padded [0x2E,0x2E] 11 then some (.folder p) else none

/-- Where a name leads from a directory, and the answer. -/
def goTo (fs : Files) (p : ℕ) (name : List UInt8) : ℤ×ℕ :=
  match fs p (nameTo83 name) with
  | none => (fatErrNotfound,p)
  | some (.file _) => (fatErrNotdir,p)
  | some (.folder q) => (0,q)

/-- Where a path leads. A slash at its beginning stands for the root; what follows it is one
name. -/
def destination (root : ℕ) (fs : Files) (p : ℕ) : List UInt8 → ℤ×ℕ
  | [] => (0,root)
  | c::rest =>
    if c=0x2F then if rest=[] then (0,root) else goTo fs root rest else goTo fs p (c::rest)

/-- What a store of files answers to a request in a directory, with the store and the
directory afterwards. -/
inductive Serves (root : ℕ) (fs : Files) (p : ℕ) : Request → Reply → Files → ℕ → Prop where
  /-- A new file is empty. -/
  | created (name : Text) (h : fs p (nameTo83 name)=none) :
    Serves root fs p (.call (.createFile name)) (.status 0)
      (enter fs p (nameTo83 name) (.file [])) p
  /-- The directory is full. -/
  | createFull (name : Text) :
    Serves root fs p (.call (.createFile name)) (.status fatErrNospace) fs p
  /-- A name is deleted. -/
  | deleted (name : Text) (h : fs p (nameTo83 name)≠none) :
    Serves root fs p (.call (.deleteFile name)) (.status 0) (fs.put p (nameTo83 name) none) p
  /-- No name to delete. -/
  | deleteMissing (name : Text) (h : fs p (nameTo83 name)=none) :
    Serves root fs p (.call (.deleteFile name)) (.status (-1)) fs p
  /-- A file is written. -/
  | written (name : Text) (buffer : Bytes) (size : UInt32) (old : List UInt8)
    (h : fs p (nameTo83 name)=some (.file old)) (hsize : size.toNat<2^31) :
    Serves root fs p (.call (.writeFile name buffer size)) (.status size.toNat)
      (fs.put p (nameTo83 name) (some (.file (textOf buffer size.toNat)))) p
  /-- A write that fails leaves the beginning of the text, in the old length. -/
  | writeCut (name : Text) (buffer : Bytes) (size : UInt32) (old : List UInt8) (r : ℤ) (hr : r<0)
    (h : fs p (nameTo83 name)=some (.file old)) (hlen : old.length ≤ size.toNat) :
    Serves root fs p (.call (.writeFile name buffer size)) (.status r)
      (fs.put p (nameTo83 name) (some (.file (textOf buffer old.length)))) p
  /-- No file to write. -/
  | writeMissing (name : Text) (buffer : Bytes) (size : UInt32) (h : fs p (nameTo83 name)=none) :
    Serves root fs p (.call (.writeFile name buffer size)) (.status (-1)) fs p
  /-- A new directory holds its two dot names. -/
  | made (name : Text) (q : ℕ) (h : fs p (nameTo83 name)=none)
    (hhead : (nameTo83 name).headD 0≠0xE5) (hq : ¬Reached root fs q) :
    Serves root fs p (.call (.mkdir name)) (.status 0)
      ((fs.put p (nameTo83 name) (some (.folder q))).fill q (dots q p)) p
  /-- A directory whose name is lost. -/
  | madeLost (name : Text) (hhead : (nameTo83 name).headD 0=0xE5) :
    Serves root fs p (.call (.mkdir name)) (.status (-1)) fs p
  /-- The name is in use. -/
  | makeExists (name : Text) (h : fs p (nameTo83 name)≠none) :
    Serves root fs p (.call (.mkdir name)) (.status fatErrExists) fs p
  /-- No room for a directory. -/
  | makeFull (name : Text) : Serves root fs p (.call (.mkdir name)) (.status fatErrNospace) fs p
  /-- A name is changed. -/
  | renamed (oldname newname : Text) (node : Node ℕ UInt8)
    (h : fs p (nameTo83 oldname)=some node)
    (hnew : nameTo83 newname=nameTo83 oldname ∨ fs p (nameTo83 newname)=none) :
    Serves root fs p (.call (.rename oldname newname)) (.status 0)
      (enter (fs.put p (nameTo83 oldname) none) p (nameTo83 newname) node) p
  /-- No name to change. -/
  | renameMissing (oldname newname : Text) (h : fs p (nameTo83 oldname)=none) :
    Serves root fs p (.call (.rename oldname newname)) (.status fatErrNotfound) fs p
  /-- A directory is removed. -/
  | removed (name : Text) (q : ℕ) (h : fs p (nameTo83 name)=some (.folder q)) :
    Serves root fs p (.call (.rmdir name)) (.status 0) (fs.put p (nameTo83 name) none) p
  /-- A directory in use stays. -/
  | removeUsed (name : Text) (q : ℕ) (h : fs p (nameTo83 name)=some (.folder q)) :
    Serves root fs p (.call (.rmdir name)) (.status fatErrNotempty) fs p
  /-- A file is not removed. -/
  | removeFile (name : Text) (text : List UInt8) (h : fs p (nameTo83 name)=some (.file text)) :
    Serves root fs p (.call (.rmdir name)) (.status fatErrNotdir) fs p
  /-- No directory to remove. -/
  | removeMissing (name : Text) (h : fs p (nameTo83 name)=none) :
    Serves root fs p (.call (.rmdir name)) (.status fatErrNotfound) fs p
  /-- The directory is changed. -/
  | changed (name : Text) :
    Serves root fs p (.call (.changeDir name)) (.status (destination root fs p name).1) fs
      (destination root fs p name).2
  /-- The beginning of a file is read. -/
  | read (name : Text) (buffer : Bytes) (size : UInt32) (text : List UInt8)
    (h : fs p (nameTo83 name)=some (.file text)) :
    Serves root fs p (.read name buffer size) (.contents (min size.toNat text.length : ℕ)
      (copyRange buffer 0 (min size.toNat text.length) fun i => text.getD i 0)) fs p
  /-- No file to read. -/
  | readMissing (name : Text) (buffer : Bytes) (size : UInt32) (h : fs p (nameTo83 name)=none) :
    Serves root fs p (.read name buffer size) (.contents (-1) buffer) fs p
  /-- The size of a file. -/
  | statFile (name : Text) (text : List UInt8) (h : fs p (nameTo83 name)=some (.file text)) :
    Serves root fs p (.stat name) (.entry (some (false,text.length))) fs p
  /-- A directory has some size in its entry. -/
  | statFolder (name : Text) (q size : ℕ) (h : fs p (nameTo83 name)=some (.folder q)) :
    Serves root fs p (.stat name) (.entry (some (true,size))) fs p
  /-- No entry. -/
  | statMissing (name : Text) (h : fs p (nameTo83 name)=none) :
    Serves root fs p (.stat name) (.entry none) fs p

/-- The request does not misuse a directory and brings no name into one twice. -/
def Admissible (v : Volume) (s : State) : Request → Prop
  | .call c => Careful v s c ∧ Novel v s c
  | .read name _ _ => Regular v s.disk.bytes s.cwd name
  | .stat _ => True

/-- The disk is ideal, draws a tree with distinct names, and represents the store. -/
structure Stands (v : Volume) (s : State) (t : Tree) (fs : Files) : Prop where
  /-- No transfer fails. -/
  ideal : Faultless s.disk
  /-- The disk draws the tree. -/
  draws : Draws v s.disk.bytes t ∅
  /-- The current directory belongs to it. -/
  cwd : t.Folder s.cwd
  /-- No directory has a name twice. -/
  names : Unique v s.disk.bytes t
  /-- The directories list the names of the store. -/
  shows : Represents v s.disk.bytes t fs

/-- The current directory has the name in a slot. -/
structure Found (v : Volume) (s : State) (t : Tree) (fs : Files) (name83 : List UInt8) (a : ℕ)
    (node : Node ℕ UInt8) : Prop where
  /-- The searches that stop at the end find the slot. -/
  resolves : Resolves v s.disk.bytes (t.chain s.cwd) name83 a
  /-- The searches that do not stop find it, too. -/
  first : (slots v (t.chain s.cwd)).find? (slotNamed name83 s.disk.bytes)=some a
  /-- The slot is live. -/
  live : slotLive s.disk.bytes a=true
  /-- It has the name. -/
  name : nameAt s.disk.bytes a=name83
  /-- The name in the store. -/
  entry : fs s.cwd name83=some node
  /-- The slot shows it. -/
  shows : Shows v s.disk.bytes t a node

/-- The slot is in the current directory. -/
theorem Found.mem {name83 : List UInt8} (h : Found v s t fs name83 a node) :
    a∈slots v (t.chain s.cwd) := h.resolves.mem

/-- The current directory does not have the name. -/
structure Lacks (v : Volume) (s : State) (t : Tree) (fs : Files) (name83 : List UInt8) : Prop where
  /-- The searches that stop at the end do not find it. -/
  missing : Missing v s.disk.bytes (t.chain s.cwd) name83
  /-- Nor do the others. -/
  none : (slots v (t.chain s.cwd)).find? (slotNamed name83 s.disk.bytes)=none
  /-- It is not in the store. -/
  entry : fs s.cwd name83=Option.none

/-- The current directory has a name or lacks it. -/
theorem Stands.lookup (h : Stands v s t fs) (name83 : List UInt8) :
    (∃ a node, Found v s t fs name83 a node) ∨ Lacks v s t fs name83 := by
  have hdense := h.draws.dense s.cwd h.cwd
  rcases (h.shows s.cwd h.cwd).lookup (h.names s.cwd h.cwd) name83 with
    ⟨a,node,hfind,hlive,hname,hentry,hshow⟩ | ⟨hfind,hentry,_⟩
  · exact Or.inl ⟨a,node,(FatFolders.resolves_iff_named hdense).mpr hfind,hfind,hlive,hname,hentry,
      hshow⟩
  · refine Or.inr ⟨fun a ha => ?_,hfind,hentry⟩
    by_contra hend
    have hres : Resolves v s.disk.bytes (t.chain s.cwd) name83 a := ⟨ha,by simpa using hend⟩
    rw [(FatFolders.resolves_iff_named hdense).mp hres] at hfind
    cases hfind

/-- What a change of one slot makes of the names of a directory. -/
theorem edited_put (fs : Files) (cwd : ℕ) : edited m m' a node (fs cwd)=
    if slotLive m' a=true then
      (if slotLive m a=true then fs.put cwd (nameAt m a) none else fs).put cwd (nameAt m' a)
        (some node) cwd
    else if slotLive m a=true then fs.put cwd (nameAt m a) none cwd else fs cwd := by
  funext name
  unfold edited
  have hput : ∀ (fs1 : Files) (x : List UInt8) (e : Option (Node ℕ UInt8)),
      fs1.put cwd x e cwd name=if name=x then e else fs1 cwd name := by
    intro fs1 x e
    split
    next h => rw [h,put_same]
    next h => exact put_name h
  split_ifs <;> simp_all

/-- The state after a call that keeps the current directory and changes one slot of it. -/
theorem Stands.change (hv : Mounted v) (h : Stands v s t fs) (node : Node ℕ UInt8)
    (hd : Draws v m' t' ∅) (hcwd : t'.Folder s.cwd) (hu : Unique v m' t')
    (ha : a∈slots v (t.chain s.cwd))
    (hk : Kept v s.disk.bytes m' t t' a)
    (hsub : ∀ p, t'.Folder p → t.Folder p ∧ t'.chain p=t.chain p)
    (hnew : slotLive m' a=true → Shows v m' t' a node)
    (hfs : fs' s.cwd=edited s.disk.bytes m' a node (fs s.cwd))
    (hother : ∀ p, p≠s.cwd → fs' p=fs p) :
    Stands v ⟨s.disk.with m',s.cwd⟩ t' fs' where
  ideal := h.ideal.with m'
  draws := hd
  cwd := hcwd
  names := hu
  shows := h.shows.change hv h.draws h.names h.cwd ha hk hsub hnew hfs hother

/-- The directories that remain without an entry. -/
theorem without_folder {p : ℕ} (hp : (t.without a).Folder p) :
    t.Folder p ∧ (t.without a).chain p=t.chain p := ⟨⟨hp.1.1,hp.2⟩,rfl⟩

end OvsbMk.FatRequests
