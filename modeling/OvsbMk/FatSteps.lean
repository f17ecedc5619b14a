import OvsbMk.FatOperations

/-!
# The driver as a system

The state of the driver is the disk and the current directory, its steps are the
calls that change them. On a volume that draws a tree, each call has one of a few
effects on the bytes and on the tree, as long as no directory is written like a
file, dot entries are neither renamed nor removed, and new directories get
clusters that are blank after their first sector.
-/

namespace OvsbMk.FatSteps

open ByteMemory BlockDisk Fat32 Chains FatTable FatData FatDirectory FatEntries RootedTree FatTree
  FatFiles FatChanges FatFaults FatWalks FatOperations

/-- The text of a string that ends with a zero. -/
abbrev Text : Type := {text : List UInt8 // (0 : UInt8)∉text}

/-- The disk and the current directory. -/
structure State where
  /-- The disk. -/
  disk : Disk
  /-- First cluster of the current directory. -/
  cwd : ℕ

/-- The calls that change the disk or the current directory. -/
inductive Call where
  /-- `fat32_create_file`. -/
  | createFile (name : Text)
  /-- `fat32_delete_file`. -/
  | deleteFile (name : Text)
  /-- `fat32_write_file`. -/
  | writeFile (name : Text) (buffer : Bytes) (size : UInt32)
  /-- `fat32_mkdir`. -/
  | mkdir (name : Text)
  /-- `fat32_rename`. -/
  | rename (oldname newname : Text)
  /-- `fat32_rmdir`. -/
  | rmdir (name : Text)
  /-- `fat32_change_dir`. -/
  | changeDir (name : Text)

/-- The state after a call that keeps the current directory. -/
def State.after (s : State) (r : ℤ×Disk) : ℤ×State := (r.1,⟨r.2,s.cwd⟩)

/-- Perform a call: its result and the state after it. -/
def Call.perform (v : Volume) (s : State) : Call → Option (ℤ×State)
  | createFile name => (fat32CreateFile v s.cwd name s.disk).map s.after
  | deleteFile name => (fat32DeleteFile v s.cwd name s.disk).map s.after
  | writeFile name buffer size =>
    (fat32WriteFile v s.cwd name buffer size.toNat s.disk).map s.after
  | mkdir name => (fat32Mkdir v s.cwd name s.disk).map s.after
  | rename oldname newname => (fat32Rename v s.cwd oldname newname s.disk).map s.after
  | rmdir name => (fat32Rmdir v s.cwd name s.disk).map s.after
  | changeDir name => (fat32ChangeDir v s.cwd name s.disk).map fun r => (r.1,⟨r.2.2,r.2.1⟩)

variable {v : Volume} {m m' : Bytes} {s s' : State} {call : Call} {cwd : ℕ} {t t' : Tree}

/-- The text is one of the two dot names. -/
def IsDot (name : Text) : Prop := name.1=[0x2E] ∨ name.1=[0x2E,0x2E]

/-- The entry found under the name is not a directory. -/
def Regular (v : Volume) (m : Bytes) (cwd : ℕ) (name : Text) : Prop :=
  ∀ nodes a, FileChain v m cwd nodes → Resolves v m nodes (nameTo83 name) a → folderAt m a=false

/-- The call does not misuse a directory: no directory is written like a file, no
dot entry is renamed or removed, and the free clusters a new directory may get
are blank after their first sector. -/
def Careful (v : Volume) (s : State) : Call → Prop
  | .writeFile name _ _ => Regular v s.disk.bytes s.cwd name
  | .mkdir _ => ∀ c, InRange v c → link v s.disk.bytes c=0 → Blank v s.disk.bytes c
  | .rename oldname _ => ¬IsDot oldname
  | .rmdir name => ¬IsDot name
  | _ => True

/-- The transfers a call relies on do not fail: those of the table, the write of
the first sector of a new directory, and the write that deletes the entry of a
removed one. -/
def Spared (v : Volume) (s : State) (call : Call) : Prop :=
  SparesTable v s.disk ∧
    match call with
    | .mkdir _ => ∀ f, InRange v f → link v s.disk.bytes f=0 →
        ¬s.disk.Fails true (clusterToSector v f)
    | .rmdir name => ∀ nodes a, FileChain v s.disk.bytes s.cwd nodes →
        (slots v nodes).find? (slotNamed (nameTo83 name) s.disk.bytes)=some a →
          ¬s.disk.Fails true (a/512)
    | _ => True

/-- An ideal disk is spared. -/
theorem spared_of_faultless (h : Faultless s.disk) (call : Call) : Spared v s call := by
  refine ⟨sparesTable_of_faultless h,?_⟩
  cases call <;> first | trivial | exact fun _ _ _ hf => h.not_faulty ⟨_,_,hf⟩ |
    exact fun _ _ _ _ hf => h.not_faulty ⟨_,_,hf⟩

/-- The clusters of the object an entry leads to. -/
def clusters (t : Tree) (x : ℕ) : List ℕ := if x=0 then [] else t.chain x

/-- The entry in the slot is that of an object. -/
def Owns (t : Tree) (m : Bytes) (a : ℕ) : Prop :=
  target m a∈t.nodes ∧ target m a≠t.root ∧ t.slot (target m a)=a

/-- The effects of the calls on the bytes and the tree. -/
inductive Effect (v : Volume) (cwd : ℕ) (d : Disk) (t : Tree) : Call → Bytes → Tree → Prop where
  /-- Nothing changes. -/
  | idle (call : Call) : Effect v cwd d t call d.bytes t
  /-- A new file without clusters. -/
  | created (name : Text) (a : ℕ) (hfind : (slots v (t.chain cwd)).find? (slotFree d.bytes)=some a) :
    Effect v cwd d t (.createFile name) (setEntry (nameTo83 name) 0x20 d.bytes a) t
  /-- A deleted entry. -/
  | deleted (name : Text) (a : ℕ) (hres : Resolves v d.bytes (t.chain cwd) (nameTo83 name) a) :
    Effect v cwd d t (.deleteFile name) (eraseEntry d.bytes a) (t.without a)
  /-- A renamed entry. -/
  | renamed (oldname newname : Text) (a : ℕ)
    (hfind : (slots v (t.chain cwd)).find? (slotNamed (nameTo83 oldname) d.bytes)=some a)
    (hdot : ¬IsDot oldname) (hkept : (nameTo83 newname).headD 0≠0xE5) :
    Effect v cwd d t (.rename oldname newname) (setName d.bytes a (nameTo83 newname)) t
  /-- An entry that looks deleted under its new name. -/
  | renamedAway (oldname newname : Text) (a : ℕ)
    (hfind : (slots v (t.chain cwd)).find? (slotNamed (nameTo83 oldname) d.bytes)=some a)
    (haway : (nameTo83 newname).headD 0=0xE5) :
    Effect v cwd d t (.rename oldname newname) (setName d.bytes a (nameTo83 newname)) (t.without a)
  /-- Clusters for an empty file whose entry is not updated. -/
  | wasted (name : Text) (buffer : Bytes) (size : UInt32) (a f : ℕ) (m2 : Bytes) (added : List ℕ)
    (hres : Resolves v d.bytes (t.chain cwd) (nameTo83 name) a) (hz : target d.bytes a=0)
    (hstored : Stored v d.bytes m2 [] added 0 f) (hun : Unattached v d m2 size.toNat added) :
    Effect v cwd d t (.writeFile name buffer size) m2 t
  /-- A file that has grown and whose entry is not updated. -/
  | grown (name : Text) (buffer : Bytes) (size : UInt32) (a f : ℕ) (m2 : Bytes) (added : List ℕ)
    (hres : Resolves v d.bytes (t.chain cwd) (nameTo83 name) a) (hf : target d.bytes a=f)
    (hown : Owns t d.bytes a) (hfile : f∉t.folder)
    (hstored : Stored v d.bytes m2 (t.chain f) added f f) :
    Effect v cwd d t (.writeFile name buffer size) m2 (t.setChain f (t.chain f++added))
  /-- A file that has been written. -/
  | resized (name : Text) (buffer : Bytes) (size : UInt32) (a f : ℕ) (m2 : Bytes) (added : List ℕ)
    (hres : Resolves v d.bytes (t.chain cwd) (nameTo83 name) a) (hf : target d.bytes a=f)
    (hown : Owns t d.bytes a) (hfile : f∉t.folder)
    (hstored : Stored v d.bytes m2 (t.chain f) added f f) (result : ℤ) :
    Effect v cwd d t (.writeFile name buffer size) (updatedEntry f result m2 a)
      (t.setChain f (t.chain f++added))
  /-- An empty file that has been written. -/
  | adopted (name : Text) (buffer : Bytes) (size : UInt32) (a f : ℕ) (m2 : Bytes) (added : List ℕ)
    (hres : Resolves v d.bytes (t.chain cwd) (nameTo83 name) a) (hz : target d.bytes a=0)
    (hfile : folderAt d.bytes a=false) (hstored : Stored v d.bytes m2 [] added 0 f)
    (hf : f∉t.nodes) (hcwd : cwd∈t.nodes) (result : ℤ) :
    Effect v cwd d t (.writeFile name buffer size) (updatedEntry f result m2 a)
      (t.add f cwd a added False hf hcwd)
  /-- The entry of a directory without a cluster. -/
  | entered (name : Text) (a : ℕ)
    (hfind : (slots v (t.chain cwd)).find? (slotFree d.bytes)=some a)
    (hmiss : d.Faulty ∨ Missing v d.bytes (t.chain cwd) (nameTo83 name)) :
    Effect v cwd d t (.mkdir name) (setEntry (nameTo83 name) 0x10 d.bytes a) t
  /-- A new directory. -/
  | attached (name : Text) (a b f : ℕ)
    (hfind : (slots v (t.chain cwd)).find? (slotFree d.bytes)=some a)
    (hmiss : d.Faulty ∨ Missing v d.bytes (t.chain cwd) (nameTo83 name))
    (hfind' : (slots v (t.chain cwd)).find? (slotFolder (nameTo83 name)
      (setEntry (nameTo83 name) 0x10 d.bytes a))=some b)
    (hfr : InRange v f) (hfz : link v d.bytes f=0) (hblank : Blank v d.bytes f)
    (hf : f∉(t.without b).nodes) (hcwd : cwd∈(t.without b).nodes) :
    Effect v cwd d t (.mkdir name) (FatChanges.attached v (setEntry (nameTo83 name) 0x10 d.bytes a) b
      f cwd) ((t.without b).add f cwd b [f] True hf hcwd)
  /-- A removed directory. -/
  | removed (name : Text) (a : ℕ)
    (hfind : (slots v (t.chain cwd)).find? (slotNamed (nameTo83 name) d.bytes)=some a)
    (hdir : folderAt d.bytes a=true) (hdot : ¬IsDot name)
    (hplace : target d.bytes a=0 ∨ Owns t d.bytes a)
    (hempty : target d.bytes a≠0 → d.Fails false (clusterToSector v (target d.bytes a)) ∨
      ShowsEmpty v d.bytes (target d.bytes a)) :
    Effect v cwd d t (.rmdir name)
      (eraseEntry (freeLinks v d.bytes (clusters t (target d.bytes a))) a) (t.without a)

/-- A slot found under a name is live. -/
theorem resolves_live {nodes : List ℕ} {a : ℕ} {name : Text}
    (h : Resolves v m nodes (nameTo83 name) a) : slotLive m a=true :=
  live_of_hit (nameTo83_ne_zero name.2) h.hit

/-- A live entry that is not a dot entry has no clusters or is that of an object. -/
theorem Draws.place (h : Draws v m t ∅) {p a : ℕ} (hp : t.Folder p) (ha : a∈slots v (t.chain p))
    (hlive : slotLive m a=true) (hnot : folderAt m a=false ∨ nameAt m a∉dotNames) :
    target m a=0 ∨ Owns t m a := by
  rcases h.placed p hp a ha (Set.notMem_empty a) hlive with hz | hown | hback
  · exact Or.inl hz
  · exact Or.inr hown
  · rcases hnot with hnot | hnot
    · rw [hback.1] at hnot
      cases hnot
    · exact (hnot hback.2.2).elim

/-- The chain of the object an entry leads to. -/
theorem Draws.hasChain (hv : Mounted v) (h : Draws v m t ∅) {a : ℕ}
    (hplace : target m a=0 ∨ Owns t m a) : HasChain v m (target m a) (clusters t (target m a)) := by
  rcases hplace with hz | hown
  · exact Or.inl ⟨hz,by rw [clusters,if_pos hz]⟩
  · have hne := h.ne_zero hv hown.1
    refine Or.inr ⟨hne,?_,?_⟩
    · rw [clusters,if_neg hne]
      exact h.nonempty _ hown.1
    · rw [clusters,if_neg hne]
      exact h.chain _ hown.1

/-- Effects of creating a file. -/
theorem create_effect (hv : Mounted v) (hs : SparesTable v s.disk) (h : Draws v s.disk.bytes t ∅)
    (hcwd : t.Folder s.cwd) (name : Text) :
    ∃ r s', (Call.createFile name).perform v s=some (r,s') ∧ Later s.disk s'.disk ∧ s'.cwd=s.cwd ∧
      Effect v s.cwd s.disk t (.createFile name) s'.disk.bytes t := by
  obtain ⟨r,d',hrun,hcases⟩ := createEntryAt_outcome hv hs (h.chain _ hcwd.1) name 0x20
  refine ⟨r,⟨d',s.cwd⟩,by rw [Call.perform,fat32CreateFile,hrun]; rfl,?_⟩
  rcases hcases with ⟨hidle,_⟩ | ⟨a,hfind,_,hl,hb⟩
  · exact ⟨hidle.1,rfl,hidle.2 ▸ Effect.idle _⟩
  · exact ⟨hl,rfl,hb ▸ Effect.created name a hfind⟩

/-- Effects of deleting a file. -/
theorem delete_effect (hv : Mounted v) (hs : SparesTable v s.disk) (h : Draws v s.disk.bytes t ∅)
    (hcwd : t.Folder s.cwd) (name : Text) :
    ∃ r s' t', (Call.deleteFile name).perform v s=some (r,s') ∧ Later s.disk s'.disk ∧
      s'.cwd=s.cwd ∧ Effect v s.cwd s.disk t (.deleteFile name) s'.disk.bytes t' := by
  obtain ⟨r,d',hrun,hcases⟩ := deleteFile_outcome hv hs (h.chain _ hcwd.1) name
  have hperf : (Call.deleteFile name).perform v s=some (r,⟨d',s.cwd⟩) := by
    rw [Call.perform,hrun]
    rfl
  rcases hcases with hidle | ⟨a,hres,hl,hb⟩
  · exact ⟨r,_,t,hperf,hidle.1,rfl,hidle.2 ▸ Effect.idle _⟩
  · exact ⟨r,_,_,hperf,hl,rfl,hb ▸ Effect.deleted name a hres⟩

/-- Effects of renaming. -/
theorem rename_effect (hv : Mounted v) (hs : SparesTable v s.disk) (h : Draws v s.disk.bytes t ∅)
    (hcwd : t.Folder s.cwd) {oldname : Text} (newname : Text) (hdot : ¬IsDot oldname) :
    ∃ r s' t', (Call.rename oldname newname).perform v s=some (r,s') ∧ Later s.disk s'.disk ∧
      s'.cwd=s.cwd ∧ Effect v s.cwd s.disk t (.rename oldname newname) s'.disk.bytes t' := by
  obtain ⟨r,d',hrun,hcases⟩ := rename_outcome hv hs (h.chain _ hcwd.1) oldname newname
  have hperf : (Call.rename oldname newname).perform v s=some (r,⟨d',s.cwd⟩) := by
    rw [Call.perform,hrun]
    rfl
  rcases hcases with hidle | ⟨a,hfind,hl,hb⟩
  · exact ⟨r,_,t,hperf,hidle.1,rfl,hidle.2 ▸ Effect.idle _⟩
  · by_cases haway : (nameTo83 newname).headD 0=0xE5
    · exact ⟨r,_,_,hperf,hl,rfl,hb ▸ Effect.renamedAway oldname newname a hfind haway⟩
    · exact ⟨r,_,_,hperf,hl,rfl,hb ▸ Effect.renamed oldname newname a hfind hdot haway⟩

/-- Effects of writing a file. -/
theorem write_effect (hv : Mounted v) (hs : SparesTable v s.disk) (h : Draws v s.disk.bytes t ∅)
    (hcwd : t.Folder s.cwd) {name : Text} (hreg : Regular v s.disk.bytes s.cwd name)
    (buffer : Bytes) (size : UInt32) :
    ∃ r s' t', (Call.writeFile name buffer size).perform v s=some (r,s') ∧ Later s.disk s'.disk ∧
      s'.cwd=s.cwd ∧ Effect v s.cwd s.disk t (.writeFile name buffer size) s'.disk.bytes t' := by
  have hdir := h.chain _ hcwd.1
  have hplace : ∀ a, Resolves v s.disk.bytes (t.chain s.cwd) (nameTo83 name) a →
      target s.disk.bytes a=0 ∨ Owns t s.disk.bytes a := fun a hres =>
    Draws.place h hcwd hres.mem (resolves_live hres) (Or.inl (hreg _ a hdir hres))
  have hfolder : ∀ a, Resolves v s.disk.bytes (t.chain s.cwd) (nameTo83 name) a →
      Owns t s.disk.bytes a → target s.disk.bytes a∉t.folder := by
    intro a hres hown hmem
    have hentry := (h.entry _ hown.1 hown.2.1).2.2
    rw [hown.2.2,hreg _ a hdir hres] at hentry
    exact Bool.false_ne_true (hentry.mpr hmem)
  obtain ⟨r,d',hrun,hcases⟩ := writeFile_outcome hv hs hdir name buffer size.toNat_lt (clusters t)
    fun a hres => by
      refine ⟨Draws.hasChain hv h (hplace a hres),fun x hx hmem => ?_⟩
      rcases hplace a hres with hz | hown
      · rw [hz,clusters,if_pos rfl] at hmem
        cases hmem
      · rw [clusters,if_neg (h.ne_zero hv hown.1)] at hmem
        have heq := h.chain_unique hcwd.1 hown.1 hx hmem
        exact hfolder a hres hown (heq ▸ hcwd.2)
  have hperf : (Call.writeFile name buffer size).perform v s=some (r,⟨d',s.cwd⟩) := by
    rw [Call.perform,hrun]
    rfl
  rcases hcases with hidle | ⟨a,m2,f,added,hres,hl,hstored,hend⟩
  · exact ⟨r,_,t,hperf,hidle.1,rfl,hidle.2 ▸ Effect.idle _⟩
  rcases hplace a hres with hz | hown
  · rw [hz,clusters,if_pos rfl] at hstored
    rcases hend with ⟨hb,hun⟩ | ⟨result,hb⟩
    · rw [hz,clusters,if_pos rfl,List.nil_append] at hun
      exact ⟨r,_,t,hperf,hl,rfl,hb ▸ Effect.wasted name buffer size a f m2 added hres hz hstored hun⟩
    · have hfadd : f∈added := by
        obtain ⟨x,rest,hx⟩ := List.exists_cons_of_ne_nil hstored.nonempty
        have hch := hstored.chain
        rw [hx] at hch
        obtain ⟨rfl,_⟩ := (fileChain_cons hv).mp hch
        rw [List.nil_append] at hx
        rw [hx]
        exact List.mem_cons_self
      exact ⟨r,_,_,hperf,hl,rfl,hb ▸ Effect.adopted name buffer size a f m2 added hres hz
        (hreg _ a hdir hres) hstored (h.fresh hv (hstored.grown.fresh f hfadd).2) hcwd.1 result⟩
  · have hne := h.ne_zero hv hown.1
    obtain rfl : f=target s.disk.bytes a := hstored.first hne
    rw [clusters,if_neg hne] at hstored
    rcases hend with ⟨hb,_⟩ | ⟨result,hb⟩
    · exact ⟨r,_,_,hperf,hl,rfl,hb ▸ Effect.grown name buffer size a _ m2 added hres rfl hown
        (hfolder a hres hown) hstored⟩
    · exact ⟨r,_,_,hperf,hl,rfl,hb ▸ Effect.resized name buffer size a _ m2 added hres rfl hown
        (hfolder a hres hown) hstored result⟩

/-- Effects of making a directory. -/
theorem mkdir_effect (hv : Mounted v) (hs : SparesTable v s.disk) (h : Draws v s.disk.bytes t ∅)
    (hcwd : t.Folder s.cwd) (name : Text)
    (hwrite : ∀ f, InRange v f → link v s.disk.bytes f=0 →
      ¬s.disk.Fails true (clusterToSector v f))
    (hblank : ∀ c, InRange v c → link v s.disk.bytes c=0 → Blank v s.disk.bytes c) :
    ∃ r s' t', (Call.mkdir name).perform v s=some (r,s') ∧ Later s.disk s'.disk ∧ s'.cwd=s.cwd ∧
      Effect v s.cwd s.disk t (.mkdir name) s'.disk.bytes t' := by
  have hfirst : (fatFindFree v s.disk).1≠0 →
      ¬s.disk.Fails true (clusterToSector v (fatFindFree v s.disk).1) := by
    intro hne
    obtain ⟨f,d1,hf,_,⟨hfr,hfz⟩ | ⟨hz,_⟩⟩ := hs.findFree hv
    · rw [hf]
      exact hwrite f hfr hfz
    · rw [hf] at hne
      exact (hne hz).elim
  obtain ⟨r,d',hrun,hcases⟩ := mkdir_outcome hv hs (h.chain _ hcwd.1) name hfirst
  have hperf : (Call.mkdir name).perform v s=some (r,⟨d',s.cwd⟩) := by
    rw [Call.perform,hrun]
    rfl
  rcases hcases with hidle | ⟨a,hfind,hl,hmiss,hb | ⟨b,f,hfind',_,hfr,hfz,hb⟩⟩
  · exact ⟨r,_,t,hperf,hidle.1,rfl,hidle.2 ▸ Effect.idle _⟩
  · exact ⟨r,_,t,hperf,hl,rfl,hb ▸ Effect.entered name a hfind hmiss⟩
  · have hb' := h.folder_without hcwd (List.mem_of_find?_eq_some hfind')
    exact ⟨r,_,_,hperf,hl,rfl,hb ▸ Effect.attached name a b f hfind hmiss hfind' hfr hfz
      (hblank f hfr hfz) (fun hn => h.fresh hv hfz hn.1) hb'.1⟩

/-- Effects of removing a directory. -/
theorem rmdir_effect (hv : Mounted v) (hs : SparesTable v s.disk) (h : Draws v s.disk.bytes t ∅)
    (hcwd : t.Folder s.cwd) {name : Text} (hdot : ¬IsDot name)
    (hwrite : ∀ nodes a, FileChain v s.disk.bytes s.cwd nodes →
      (slots v nodes).find? (slotNamed (nameTo83 name) s.disk.bytes)=some a →
        ¬s.disk.Fails true (a/512)) :
    ∃ r s' t', (Call.rmdir name).perform v s=some (r,s') ∧ Later s.disk s'.disk ∧ s'.cwd=s.cwd ∧
      Effect v s.cwd s.disk t (.rmdir name) s'.disk.bytes t' := by
  have hdir := h.chain _ hcwd.1
  have hplace : ∀ a∈slots v (t.chain s.cwd), slotNamed (nameTo83 name) s.disk.bytes a=true →
      target s.disk.bytes a=0 ∨ Owns t s.disk.bytes a := by
    intro a ha hnamed
    obtain ⟨hlive,hname⟩ := named_iff.mp hnamed
    refine Draws.place h hcwd ha hlive (Or.inr ?_)
    rw [hname]
    exact nameTo83_not_dot name.2 (not_or.mp hdot)
  obtain ⟨r,d',hrun,hcases⟩ := rmdir_outcome hv hs hdir name (clusters t)
    (by rw [clusters,if_pos rfl]) fun a ha hnamed _ hne => by
      rcases Draws.hasChain hv h (hplace a ha hnamed) with ⟨hz,_⟩ | ⟨_,hnil,hchain⟩
      · exact (hne hz).elim
      · exact ⟨hchain,hnil⟩
  have hperf : (Call.rmdir name).perform v s=some (r,⟨d',s.cwd⟩) := by
    rw [Call.perform,hrun]
    rfl
  rcases hcases with hidle | ⟨a,hfind,⟨_,hidle,_⟩ | ⟨_,hidle,_⟩ |
    ⟨hfold,hl,hempty,⟨_,_,hfail⟩ | ⟨_,hb⟩⟩⟩
  · exact ⟨r,_,t,hperf,hidle.1,rfl,hidle.2 ▸ Effect.idle _⟩
  · exact ⟨r,_,t,hperf,hidle.1,rfl,hidle.2 ▸ Effect.idle _⟩
  · exact ⟨r,_,t,hperf,hidle.1,rfl,hidle.2 ▸ Effect.idle _⟩
  · exact (hwrite _ a hdir hfind hfail).elim
  · exact ⟨r,_,_,hperf,hl,rfl,hb ▸ Effect.removed name a hfind hfold hdot
      (hplace a (List.mem_of_find?_eq_some hfind) (List.find?_some hfind)) hempty⟩

/-- A found directory belongs to the tree. -/
theorem Draws.enter (h : Draws v m t ∅) {p a : ℕ} (hp : t.Folder p)
    (ha : a∈slots v (t.chain p)) (hlive : slotLive m a=true) (hdir : folderAt m a=true) :
    t.Folder (if target m a=0 then v.rootCluster else target m a) := by
  split
  · rw [← h.root]
    exact ⟨t.root_mem,h.root_folder⟩
  next hne =>
    rcases h.placed p hp a ha (Set.notMem_empty a) hlive with hz | ⟨h1,h2,h3⟩ | ⟨_,h2,_⟩
    · exact (hne hz).elim
    · have hentry := (h.entry _ h1 h2).2.2
      rw [h3] at hentry
      exact ⟨h1,hentry.mp hdir⟩
    · exact h.above_folder hp h2

/-- Changing to a directory from one of the tree. -/
theorem enterDirectory_folder (hv : Mounted v) {d : Disk} (hs : SparesTable v d)
    (h : Draws v d.bytes t ∅) (hcwd : t.Folder cwd) (text : List UInt8) (hz : 0∉text) :
    ∃ r c d', enterDirectory v cwd text d=some (r,c,d') ∧ Idle d d' ∧ t.Folder c := by
  obtain ⟨r,c,d',hrun,hidle,hc⟩ := enterDirectory_outcome hv hs (h.chain _ hcwd.1) text
  refine ⟨r,c,d',hrun,hidle,?_⟩
  rcases hc with rfl | ⟨a,hres,hdir,rfl⟩
  · exact hcwd
  · exact Draws.enter h hcwd hres.mem (live_of_hit (nameTo83_ne_zero hz) hres.hit) hdir

/-- Changing the directory stays in the tree. -/
theorem changeDir_folder (hv : Mounted v) (hs : SparesTable v s.disk) (h : Draws v s.disk.bytes t ∅)
    (hcwd : t.Folder s.cwd) (name : Text) :
    ∃ r s', (Call.changeDir name).perform v s=some (r,s') ∧ Idle s.disk s'.disk ∧
      t.Folder s'.cwd := by
  have hroot : t.Folder v.rootCluster := h.root ▸ ⟨t.root_mem,h.root_folder⟩
  obtain ⟨text,hz⟩ := name
  rw [Call.perform]
  dsimp only
  cases text with
  | nil => exact ⟨0,⟨s.disk,v.rootCluster⟩,rfl,Idle.refl _,hroot⟩
  | cons x rest =>
    rw [fat32ChangeDir]
    by_cases hx : x=0x2F
    · rw [if_pos hx]
      by_cases hrest : rest=[]
      · rw [if_pos hrest]
        exact ⟨0,⟨s.disk,v.rootCluster⟩,rfl,Idle.refl _,hroot⟩
      · rw [if_neg hrest]
        obtain ⟨r,c,d',hrun,hidle,hc⟩ := enterDirectory_folder hv hs h hroot rest
          fun hmem => hz (by simp [hmem])
        rw [hrun]
        exact ⟨r,⟨d',c⟩,rfl,hidle,hc⟩
    · rw [if_neg hx]
      obtain ⟨r,c,d',hrun,hidle,hc⟩ := enterDirectory_folder hv hs h hcwd _ hz
      rw [hrun]
      exact ⟨r,⟨d',c⟩,rfl,hidle,hc⟩

/-- Directories keep their chains when a file grows. -/
theorem setChain_folder {f p : ℕ} {l : List ℕ} (hfile : f∉t.folder) (hp : t.Folder p) :
    (t.setChain f l).Folder p ∧ (t.setChain f l).chain p=t.chain p := by
  refine ⟨hp,?_⟩
  have hne : p≠f := by
    rintro rfl
    exact hfile hp.2
  exact Function.update_of_ne hne l t.chain

/-- The slots of a directory do not change when a file grows. -/
theorem stored_slot (hv : Mounted v) (h : Draws v m t ∅) {m2 : Bytes} {l added : List ℕ} {old f : ℕ}
    (hstored : Stored v m m2 l added old f) {p a : ℕ} (hp : p∈t.nodes)
    (hl : ∀ c∈l, c∉t.chain p) (ha : a∈slots v (t.chain p)) :
    slotLive m2 a=slotLive m a ∧ target m2 a=target m a ∧ folderAt m2 a=folderAt m a ∧
      nameAt m2 a=nameAt m a :=
  slot_congr fun _ hi => hstored.grown.slot_eq hv (h.chain p hp).inRange
    (fun _ hc => hstored.grown.not_mem hv h hp hl hc) ha hi

/-- A new entry changes no other cluster. -/
theorem setEntry_other (hv : Mounted v) (h : Draws v m t ∅) {p a f : ℕ} (name83 : List UInt8)
    (attr : ℕ) (hp : t.Folder p) (ha : a∈slots v (t.chain p)) (hf : InRange v f) (hz : link v m f=0) :
    link v (setEntry name83 attr m a) f=0 ∧
      (FreshTail v m f → FreshTail v (setEntry name83 attr m a) f) := by
  have hpr := (h.chain p hp.1).inRange
  refine ⟨?_,fun htail j h1 h2 => ?_⟩
  · rw [← hz]
    exact link_congr fun b hb => (editor_setEntry name83 attr).outside m a b
      (slot_not_link hv hpr ha hf hb)
  · rw [(editor_setEntry name83 attr).outside m a _ ?_]
    · exact htail j h1 h2
    · have hbyte : DataByte v f (dataAddr v f+32*j) :=
        ⟨Nat.le_add_right _ _,by simp only [clusterBytes,sectorSize]; omega⟩
      have hapart := slot_apart_free hv h hp ha hf hz hbyte
      omega

/-- A new directory, from its entry on. -/
theorem Draws.mkdir (hv : Mounted v) (h : Draws v m t ∅) (hcwd : t.Folder cwd) (name : Text)
    {a b f : ℕ} (hfind : (slots v (t.chain cwd)).find? (slotFree m)=some a)
    (hfind' : (slots v (t.chain cwd)).find? (slotFolder (nameTo83 name)
      (setEntry (nameTo83 name) 0x10 m a))=some b)
    (hfr : InRange v f) (hfz : link v m f=0) (htail : FreshTail v m f)
    (hf : f∉(t.without b).nodes) (hp : cwd∈(t.without b).nodes) :
    Draws v (FatChanges.attached v (setEntry (nameTo83 name) 0x10 m a) b f cwd)
      ((t.without b).add f cwd b [f] True hf hp) ∅ ∧
      ((t.without b).add f cwd b [f] True hf hp).Folder cwd := by
  have hfill := Draws.fill hv h hcwd hfind (nameTo83_length _) (nameTo83_ne_zero name.2)
    (show 0x10<256 by norm_num)
  obtain ⟨hz1,htail1⟩ := setEntry_other hv h (nameTo83 name) 0x10 hcwd
    (List.mem_of_find?_eq_some hfind) hfr hfz
  have hfolder := List.find?_some hfind'
  rw [slotFolder,Bool.and_eq_true] at hfolder
  exact ⟨Draws.attach hv hfill hcwd (List.mem_of_find?_eq_some hfind')
    (live_of_hit (nameTo83_ne_zero name.2) hfolder.1) hfolder.2 hfr hz1 (htail1 htail),
    Or.inr hp,(Tree.add_old hf hp hp).2.2.2.mpr hcwd.2⟩

/-- Every effect leaves a tree drawn, with the current directory in it. -/
theorem Effect.draws (hv : Mounted v) {d : Disk} (h : Draws v d.bytes t ∅) (hcwd : t.Folder cwd)
    (he : Effect v cwd d t call m' t') : Draws v m' t' ∅ ∧ t'.Folder cwd := by
  cases he with
  | idle => exact ⟨h,hcwd⟩
  | created name a hfind =>
    exact ⟨Draws.fill hv h hcwd hfind (nameTo83_length _) (nameTo83_ne_zero name.2) (by norm_num),
      hcwd⟩
  | deleted name a hres =>
    exact ⟨Draws.erase hv h hcwd hres.mem (resolves_live hres),h.folder_without hcwd hres.mem⟩
  | renamed oldname newname a hfind hdot hkept =>
    obtain ⟨hlive,hname⟩ := named_iff.mp (List.find?_some hfind)
    have hnot : nameAt d.bytes a∉dotNames := by
      rw [hname]
      exact nameTo83_not_dot oldname.2 (not_or.mp hdot)
    exact ⟨Draws.rename hv h hcwd (List.mem_of_find?_eq_some hfind) hlive hnot (nameTo83_length _)
      (nameTo83_ne_zero newname.2) hkept,hcwd⟩
  | renamedAway oldname newname a hfind haway =>
    have ha := List.mem_of_find?_eq_some hfind
    exact ⟨Draws.renameAway hv h hcwd ha (named_iff.mp (List.find?_some hfind)).1
      (nameTo83_length _) haway,h.folder_without hcwd ha⟩
  | wasted name buffer size a f m2 added hres hz hstored hun =>
    exact ⟨Draws.waste hv h hstored.grown,hcwd⟩
  | grown name buffer size a f m2 added hres hf hown hfile hstored =>
    subst hf
    exact ⟨Draws.grow hv h hown.1 hfile hstored.grown hstored.chain,(setChain_folder hfile hcwd).1⟩
  | resized name buffer size a f m2 added hres hf hown hfile hstored result =>
    subst hf
    have hgrown := Draws.grow hv h hown.1 hfile hstored.grown hstored.chain
    obtain ⟨hfold,hchain⟩ := setChain_folder (l:=t.chain (target d.bytes a)++added) hfile hcwd
    have hne : cwd≠target d.bytes a := by
      intro he
      exact hfile (he ▸ hcwd.2)
    obtain ⟨h1,h2,_⟩ := stored_slot hv h hstored hcwd.1
      (h.apart _ hown.1 _ hcwd.1 (Ne.symm hne)) hres.mem
    refine ⟨Draws.resize hv hgrown hfold ?_ (h1.trans (resolves_live hres)) h2 hown result,hfold⟩
    rw [hchain]
    exact hres.mem
  | adopted name buffer size a f m2 added hres hz hfile hstored hf hcwd' result =>
    have hwaste := Draws.waste hv h hstored.grown
    obtain ⟨h1,h2,h3,_⟩ := stored_slot hv h hstored hcwd.1 (fun c hc => by cases hc) hres.mem
    refine ⟨Draws.adopt hv hwaste hcwd hres.mem (h1.trans (resolves_live hres)) (h2.trans hz)
      (h3.trans hfile) hstored.chain hstored.nonempty (fun g hg c hc => ?_) hf result,?_⟩
    · exact h.not_mem_of_free hv (hstored.grown.fresh c hc).2 hg
    · exact ⟨Or.inr hcwd.1,(Tree.add_old hf hcwd' hcwd.1).2.2.2.mpr hcwd.2⟩
  | entered name a hfind hmiss =>
    exact ⟨Draws.fill hv h hcwd hfind (nameTo83_length _) (nameTo83_ne_zero name.2) (by norm_num),
      hcwd⟩
  | attached name a b f hfind hmiss hfind' hfr hfz hblank hf hcwd' =>
    exact Draws.mkdir hv h hcwd name hfind hfind' hfr hfz hblank.freshTail hf hcwd'
  | removed name a hfind hdir hdot hplace hempty =>
    have ha := List.mem_of_find?_eq_some hfind
    have hlive := (named_iff.mp (List.find?_some hfind)).1
    refine ⟨?_,h.folder_without hcwd ha⟩
    rcases hplace with hz | hown
    · rw [hz,clusters,if_pos rfl]
      exact Draws.erase hv h hcwd ha hlive
    · rw [clusters,if_neg (h.ne_zero hv hown.1)]
      exact Draws.remove hv h hcwd ha hlive hown

/-- A careful call on a disk that spares it returns, and has one of the effects. -/
theorem step_effect (hv : Mounted v) (hsp : Spared v s call) (hc : Careful v s call)
    (h : Draws v s.disk.bytes t ∅) (hcwd : t.Folder s.cwd) :
    ∃ r s' t', call.perform v s=some (r,s') ∧ Later s.disk s'.disk ∧
      Effect v s.cwd s.disk t call s'.disk.bytes t' ∧ Draws v s'.disk.bytes t' ∅ ∧
      t'.Folder s'.cwd := by
  have hfinish : ∀ {r s' t'}, call.perform v s=some (r,s') → Later s.disk s'.disk →
      s'.cwd=s.cwd → Effect v s.cwd s.disk t call s'.disk.bytes t' →
      ∃ r s' t', call.perform v s=some (r,s') ∧ Later s.disk s'.disk ∧
        Effect v s.cwd s.disk t call s'.disk.bytes t' ∧ Draws v s'.disk.bytes t' ∅ ∧
        t'.Folder s'.cwd := by
    intro r s' t' hrun hl hkeep he
    obtain ⟨h1,h2⟩ := Effect.draws hv h hcwd he
    exact ⟨r,s',t',hrun,hl,he,h1,hkeep ▸ h2⟩
  cases call with
  | createFile name =>
    obtain ⟨r,s',hrun,hl,hk,he⟩ := create_effect hv hsp.1 h hcwd name
    exact hfinish hrun hl hk he
  | deleteFile name =>
    obtain ⟨r,s',t',hrun,hl,hk,he⟩ := delete_effect hv hsp.1 h hcwd name
    exact hfinish hrun hl hk he
  | writeFile name buffer size =>
    obtain ⟨r,s',t',hrun,hl,hk,he⟩ := write_effect hv hsp.1 h hcwd hc buffer size
    exact hfinish hrun hl hk he
  | mkdir name =>
    obtain ⟨r,s',t',hrun,hl,hk,he⟩ := mkdir_effect hv hsp.1 h hcwd name hsp.2 hc
    exact hfinish hrun hl hk he
  | rename oldname newname =>
    obtain ⟨r,s',t',hrun,hl,hk,he⟩ := rename_effect hv hsp.1 h hcwd newname hc
    exact hfinish hrun hl hk he
  | rmdir name =>
    obtain ⟨r,s',t',hrun,hl,hk,he⟩ := rmdir_effect hv hsp.1 h hcwd hc hsp.2
    exact hfinish hrun hl hk he
  | changeDir name =>
    obtain ⟨r,s',hrun,hidle,hc'⟩ := changeDir_folder hv hsp.1 h hcwd name
    refine ⟨r,s',t,hrun,hidle.1,hidle.2 ▸ Effect.idle _,?_,hc'⟩
    rw [hidle.2]
    exact h

end OvsbMk.FatSteps
