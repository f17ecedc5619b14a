import OvsbMk.FatRequests

/-!
# The driver serves a store of files

On an ideal disk that stands for a store, every request that brings in no name twice
and does not misuse a directory returns, with an answer that the store allows, and
leaves a disk that stands for the store after it.
-/

namespace OvsbMk.FatService

open ByteMemory BlockDisk Fat32 Chains FatTable FatData FatDirectory FatEntries RootedTree FatTree
  FatFiles FatChanges FatFaults FatOperations FatSteps FatRuns FatNames FatAnswers FatStore
      FileStore
  FatRequests

variable {v : Volume} {m m' : Bytes} {s s' : State} {t t' : Tree} {fs fs' : Files} {a cwd : ℕ}
  {name : List UInt8} {node : Node ℕ UInt8}

/-- A request is answered as the store allows, and the state stands for the store after it. -/
def Answered (v : Volume) (s : State) (fs : Files) (request : Request) : Prop :=
  ∃ reply s' t' fs', request.perform v s=some (reply,s') ∧
    Serves v.rootCluster fs s.cwd request reply fs' s'.cwd ∧ Stands v s' t' fs'

/-- A state that stands for the store after a call answers it. -/
theorem Stands.answers {c : Call} {r : ℤ} (h : Stands v s' t' fs')
    (hrun : c.perform v s=some (r,s'))
    (hserves : Serves v.rootCluster fs s.cwd (.call c) (.status r) fs' s'.cwd) :
    Answered v s fs (.call c) := by
  refine ⟨.status r,s',t',fs',?_,hserves,h⟩
  unfold Request.perform
  dsimp only
  rw [hrun]
  rfl

/-- A new entry has size zero. -/
theorem setEntry_size {name83 : List UInt8} {attr : ℕ} :
    (entryAt (setEntry name83 attr m a) a).size=0 :=
  (@entryAt_updated (storeBytes (setName m a name83) (a+11) 1 attr) a 0 0 (by norm_num)
    (by norm_num)).2

/-- Creating a file. -/
theorem create_answered (hv : Mounted v) (h : Stands v s t fs) (name : Text)
    (hnovel : Novel v s (.createFile name)) : Answered v s fs (.call (.createFile name)) := by
  have hchain := h.draws.chain _ h.cwd.1
  rcases createEntryAt_answer hv h.ideal hchain name 0x20 with ⟨_,hrun⟩ | ⟨a,hfind,hrun⟩
  · refine Stands.answers h ?_ (.createFull name)
    rw [Call.perform,fat32CreateFile,hrun]
    rfl
  · have ha := List.mem_of_find?_eq_some hfind
    have hdead := not_live_of_free (List.find?_some hfind)
    have heffect : Effect v s.cwd s.disk t (.createFile name) _ t := Effect.created name a hfind
    obtain ⟨hdraws,hcwd⟩ := Effect.draws hv h.draws h.cwd heffect
    have hnames := effect_unique hv h.ideal h.draws h.cwd h.names hnovel heffect
    obtain ⟨hname,htarget,hattr⟩ := @setEntry_spec s.disk.bytes a 0x20 (nameTo83 name)
      (nameTo83_length _) (by norm_num)
    have hlacks : fs s.cwd (nameTo83 name)=none := by
      rcases h.lookup (nameTo83 name) with ⟨b,node,hb⟩ | hlacks
      · exact (hnovel _ hchain (by rw [hfind]; exact Option.some_ne_none a) b hb.mem hb.live
          hb.name).elim
      · exact hlacks.entry
    have hlive : slotLive (setEntry (nameTo83 name) 0x20 s.disk.bytes a) a=true ↔
        (nameTo83 name).headD 0≠0xE5 := by
      rw [live_iff,first_of_name hname,hattr]
      exact ⟨fun hl => hl.2.1,fun hl => ⟨nameTo83_ne_zero name.2,hl,by norm_num⟩⟩
    have hstands : Stands v ⟨s.disk.with (setEntry (nameTo83 name) 0x20 s.disk.bytes a),s.cwd⟩ t
        (enter fs s.cwd (nameTo83 name) (.file [])) := by
      refine h.change hv (.file []) hdraws hcwd hnames ha
        ((Kept.refl _ _ _ _).edit hv h.draws h.cwd ha (editor_setEntry _ _) t fun _ => rfl)
            (fun p hp => ⟨hp,rfl⟩)
        (fun _ => ?_) ?_ fun p hp => ?_
      · refine ⟨?_,by norm_num,setEntry_size,fun i hi => absurd hi (Nat.not_lt_zero i)⟩
        rw [folderAt,isDirectory,hattr]
        rfl
      · rw [edited_put,hdead,hname,enter]
        by_cases hhead : (nameTo83 name).headD 0=0xE5
        · rw [if_pos hhead,if_neg fun hl => hlive.mp hl hhead,if_neg Bool.false_ne_true]
        · rw [if_neg hhead,if_pos (hlive.mpr hhead),if_neg Bool.false_ne_true]
      · unfold enter
        split
        next => rfl
        next => exact put_folder hp
    refine Stands.answers hstands ?_ (.created name hlacks)
    rw [Call.perform,fat32CreateFile,hrun]
    rfl

/-- An erased entry is not live. -/
theorem erase_dead : slotLive (eraseEntry m a) a=false := by
  rw [← Bool.not_eq_true,live_iff]
  exact fun hlive => hlive.2.1 eraseEntry_first

/-- The names of a directory after a live slot has been lost. -/
theorem edited_lost (fs : Files) (cwd : ℕ) (hlive : slotLive m a=true)
    (hdead : slotLive m' a=false) :
    edited m m' a node (fs cwd)=fs.put cwd (nameAt m a) none cwd := by
  rw [edited_put,hdead,if_neg Bool.false_ne_true,if_pos hlive]

/-- Deleting a name. -/
theorem delete_answered (hv : Mounted v) (h : Stands v s t fs) (name : Text) :
    Answered v s fs (.call (.deleteFile name)) := by
  have hchain := h.draws.chain _ h.cwd.1
  rcases h.lookup (nameTo83 name) with ⟨a,node,hfound⟩ | hlacks
  · have hrun := deleteFile_found hv h.ideal hchain hfound.resolves
    have heffect : Effect v s.cwd s.disk t (.deleteFile name) (eraseEntry s.disk.bytes a)
      (t.without a) := Effect.deleted name a hfound.resolves
    obtain ⟨hdraws,hcwd⟩ := Effect.draws hv h.draws h.cwd heffect
    have hnovel : Novel v s (.deleteFile name) := trivial
    have hnames := effect_unique hv h.ideal h.draws h.cwd h.names hnovel heffect
    have hstands : Stands v ⟨s.disk.with (eraseEntry s.disk.bytes a),s.cwd⟩ (t.without a)
        (fs.put s.cwd (nameTo83 name) none) := by
      refine h.change hv node hdraws hcwd hnames hfound.mem
        ((Kept.refl _ _ _ _).edit hv h.draws h.cwd hfound.mem editor_eraseEntry _ fun _ => rfl)
        (fun p hp => without_folder hp) (fun hlive => ?_) ?_ fun p hp => put_folder hp
      · rw [erase_dead] at hlive
        cases hlive
      · rw [edited_lost fs s.cwd hfound.live erase_dead,hfound.name]
    refine Stands.answers hstands ?_ (.deleted name ?_)
    · rw [Call.perform,hrun]
      rfl
    · rw [hfound.entry]
      exact Option.some_ne_none node
  · refine Stands.answers h ?_ (.deleteMissing name hlacks.entry)
    rw [Call.perform,deleteFile_missing hv h.ideal hchain hlacks.missing]
    rfl

/-- A file or a directory under another name. -/
theorem shows_renamed {name83 : List UInt8} (hlen : name83.length=11) (hv : Mounted v)
    (h : Draws v m t ∅) (hcwd : t.Folder cwd) (ha : a∈slots v (t.chain cwd))
    (hlive : slotLive m a=true) (hshow : Shows v m t a node) (t' : Tree)
    (hsame : ∀ x, clusters t' x=clusters t x) : Shows v (setName m a name83) t' a node := by
  obtain ⟨_,htarget,hattr⟩ := @setName_spec m a name83 hlen
  have hfolder : folderAt (setName m a name83) a=folderAt m a := by
    unfold folderAt isDirectory
    rw [hattr]
  cases node with
  | file text =>
    obtain ⟨h1,h2,h3,h4⟩ := hshow
    refine ⟨hfolder.trans h1,h2,?_,?_⟩
    · rw [← h3]
      exact loadBytes_congr fun i h5 _ => copyRange_outside (by omega)
    · rw [htarget,hsame]
      refine holds_congr hv h4 fun c hc x hx => ?_
      rcases file_clusters hv h hcwd ha hlive h1 with ⟨hnil,_⟩ | ⟨hown,hnot,hchain⟩
      · rw [hnil] at hc
        cases hc
      · rw [hchain] at hc
        exact (editor_setName name83).outside m a x (file_apart h hcwd ha hown.1 hnot hc hx)
  | folder q =>
    refine ⟨hfolder.trans hshow.1,?_⟩
    rw [htarget]
    exact hshow.2

/-- Changing a name. -/
theorem rename_answered (hv : Mounted v) (h : Stands v s t fs) (oldname newname : Text)
    (hdot : ¬IsDot oldname) (hnovel : Novel v s (.rename oldname newname)) :
    Answered v s fs (.call (.rename oldname newname)) := by
  have hchain := h.draws.chain _ h.cwd.1
  have hlen := nameTo83_length newname.1
  rcases rename_answer hv h.ideal hchain oldname newname with ⟨hnone,hrun⟩ | ⟨a,hfind,hrun⟩
  · rcases h.lookup (nameTo83 oldname) with ⟨a,node,hfound⟩ | hlacks
    · rw [hfound.first] at hnone
      cases hnone
    · refine Stands.answers h ?_ (.renameMissing oldname newname hlacks.entry)
      rw [Call.perform,hrun]
      rfl
  rcases h.lookup (nameTo83 oldname) with ⟨b,node,hfound⟩ | hlacks
  swap
  · rw [hlacks.none] at hfind
    cases hfind
  have hab : b=a := Option.some.inj (hfound.first.symm.trans hfind)
  subst hab
  obtain ⟨hname,_,hattr⟩ := @setName_spec s.disk.bytes b (nameTo83 newname) hlen
  have hold := live_iff.mp hfound.live
  have hlive : slotLive (setName s.disk.bytes b (nameTo83 newname)) b=true ↔
      (nameTo83 newname).headD 0≠0xE5 := by
    rw [live_iff,first_of_name hname,hattr]
    exact ⟨fun hl => hl.2.1,fun hl => ⟨nameTo83_ne_zero newname.2,hl,hold.2.2⟩⟩
  have hnew : nameTo83 newname=nameTo83 oldname ∨ fs s.cwd (nameTo83 newname)=none := by
    rcases h.lookup (nameTo83 newname) with ⟨c,other,hc⟩ | hlacks
    · by_cases hcb : c=b
      · subst hcb
        exact Or.inl (hc.name.symm.trans hfound.name)
      · exact (hnovel _ b hchain hfind c hc.mem hcb hc.live hc.name).elim
    · exact Or.inr hlacks.entry
  have hstands : ∀ t', Draws v (setName s.disk.bytes b (nameTo83 newname)) t' ∅ → t'.Folder s.cwd →
      FatNames.Unique v (setName s.disk.bytes b (nameTo83 newname)) t' →
      (∀ x, clusters t' x=clusters t x) → (∀ p, t'.Folder p → t.Folder p ∧ t'.chain p=t.chain p) →
      Stands v ⟨s.disk.with (setName s.disk.bytes b (nameTo83 newname)),s.cwd⟩ t'
        (enter (fs.put s.cwd (nameTo83 oldname) none) s.cwd (nameTo83 newname) node) := by
    intro t' hdraws hcwd hnames hsame hsub
    refine h.change hv node hdraws hcwd hnames hfound.mem
      ((Kept.refl _ _ _ _).edit hv h.draws h.cwd hfound.mem (editor_setName _) _ hsame) hsub
          (fun _ =>
        shows_renamed hlen hv h.draws h.cwd hfound.mem hfound.live hfound.shows t' hsame) ?_
      fun p hp => ?_
    · rw [edited_put,hfound.live,hname,hfound.name,enter]
      by_cases hhead : (nameTo83 newname).headD 0=0xE5
      · rw [if_pos hhead,if_neg fun hl => hlive.mp hl hhead,if_pos rfl]
      · rw [if_neg hhead,if_pos (hlive.mpr hhead),if_pos rfl]
    · unfold enter
      split
      next => exact put_folder hp
      next => rw [put_folder hp,put_folder hp]
  have hanswer : ∀ t', Stands v ⟨s.disk.with (setName s.disk.bytes b (nameTo83 newname)),s.cwd⟩ t'
      (enter (fs.put s.cwd (nameTo83 oldname) none) s.cwd (nameTo83 newname) node) →
      Answered v s fs (.call (.rename oldname newname)) := by
    intro t' ht'
    refine Stands.answers ht' ?_ (.renamed oldname newname node hfound.entry hnew)
    rw [Call.perform,hrun]
    rfl
  by_cases hhead : (nameTo83 newname).headD 0=0xE5
  · have heffect : Effect v s.cwd s.disk t (.rename oldname newname) _ _ :=
      Effect.renamedAway oldname newname b hfind hhead
    obtain ⟨hdraws,hcwd⟩ := Effect.draws hv h.draws h.cwd heffect
    exact hanswer _ (hstands _ hdraws hcwd
      (effect_unique hv h.ideal h.draws h.cwd h.names hnovel heffect) (fun _ => rfl)
      fun p hp => without_folder hp)
  · have heffect : Effect v s.cwd s.disk t (.rename oldname newname) _ _ :=
      Effect.renamed oldname newname b hfind hdot hhead
    obtain ⟨hdraws,hcwd⟩ := Effect.draws hv h.draws h.cwd heffect
    exact hanswer _ (hstands _ hdraws hcwd
      (effect_unique hv h.ideal h.draws h.cwd h.names hnovel heffect) (fun _ => rfl)
      fun p hp => ⟨hp,rfl⟩)

/-- Removing a directory. -/
theorem rmdir_answered (hv : Mounted v) (h : Stands v s t fs) (name : Text) (hdot : ¬IsDot name) :
    Answered v s fs (.call (.rmdir name)) := by
  have hchain := h.draws.chain _ h.cwd.1
  have hplace : ∀ a∈slots v (t.chain s.cwd), slotNamed (nameTo83 name) s.disk.bytes a=true →
      target s.disk.bytes a=0 ∨ Owns t s.disk.bytes a := by
    intro a ha hnamed
    obtain ⟨hlive,hname⟩ := named_iff.mp hnamed
    refine Draws.place h.draws h.cwd ha hlive (Or.inr ?_)
    rw [hname]
    exact nameTo83_not_dot name.2 (not_or.mp hdot)
  have hobject : ∀ a∈slots v (t.chain s.cwd), slotNamed (nameTo83 name) s.disk.bytes a=true →
      folderAt s.disk.bytes a=true → target s.disk.bytes a≠0 →
        FileChain v s.disk.bytes (target s.disk.bytes a) (clusters t (target s.disk.bytes a)) ∧
          clusters t (target s.disk.bytes a)≠[] := by
    intro a ha hnamed _ hne
    rcases Draws.hasChain hv h.draws (hplace a ha hnamed) with ⟨hz,_⟩ | ⟨_,hnil,hch⟩
    · exact (hne hz).elim
    · exact ⟨hch,hnil⟩
  have hanswer := rmdir_answer hv h.ideal hchain name (clusters t) (by rw [clusters,if_pos rfl])
      hobject
  rcases h.lookup (nameTo83 name) with ⟨a,node,hfound⟩ | hlacks
  swap
  · rcases hanswer with ⟨_,hrun⟩ | ⟨a,hfind,_⟩
    · refine Stands.answers h ?_ (.removeMissing name hlacks.entry)
      rw [Call.perform,hrun]
      rfl
    · rw [hlacks.none] at hfind
      cases hfind
  rcases hanswer with ⟨hnone,_⟩ | ⟨b,hfind,hcases⟩
  · rw [hfound.first] at hnone
    cases hnone
  have hab : a=b := Option.some.inj (hfound.first.symm.trans hfind)
  subst hab
  cases hnode : node with
  | file text =>
    subst hnode
    have hfile := hfound.shows.1
    rcases hcases with ⟨_,hrun⟩ | ⟨hfold,_⟩ | ⟨hfold,_⟩
    · refine Stands.answers h ?_ (.removeFile name text hfound.entry)
      rw [Call.perform,hrun]
      rfl
    · rw [hfile] at hfold
      cases hfold
    · rw [hfile] at hfold
      cases hfold
  | folder q =>
    subst hnode
    rcases hcases with ⟨hfile,_⟩ | ⟨_,_,hrun⟩ | ⟨hfold,hempty,hrun⟩
    · rw [hfound.shows.1] at hfile
      cases hfile
    · refine Stands.answers h ?_ (.removeUsed name q hfound.entry)
      rw [Call.perform,hrun]
      rfl
    · have heffect : Effect v s.cwd s.disk t (.rmdir name) _ _ :=
        Effect.removed name a hfind hfold hdot (hplace a hfound.mem (List.find?_some hfind))
          fun hne => Or.inr (hempty hne)
      obtain ⟨hdraws,hcwd⟩ := Effect.draws hv h.draws h.cwd heffect
      have hnovel : Novel v s (.rmdir name) := trivial
      have hnames := effect_unique hv h.ideal h.draws h.cwd h.names hnovel heffect
      have hfree : Kept v s.disk.bytes
          (freeLinks v s.disk.bytes (clusters t (target s.disk.bytes a))) t t a := by
        refine kept_free hv h.draws (fun c hc => ?_) fun _ => rfl
        rcases Draws.hasChain hv h.draws (hplace a hfound.mem (List.find?_some hfind)) with
          ⟨_,hnil⟩ | ⟨_,_,hch⟩
        · rw [hnil] at hc
          cases hc
        · exact hch.inRange c hc
      have hkept := hfree.edit hv h.draws h.cwd hfound.mem editor_eraseEntry
        (t.without a) fun _ => rfl
      have hstands : Stands v ⟨s.disk.with (eraseEntry (freeLinks v s.disk.bytes
          (clusters t (target s.disk.bytes a))) a),s.cwd⟩ (t.without a)
          (fs.put s.cwd (nameTo83 name) none) := by
        refine h.change hv (.folder q) hdraws hcwd hnames hfound.mem hkept
          (fun p hp => without_folder hp) (fun hlive => ?_) ?_ fun p hp => put_folder hp
        · rw [erase_dead] at hlive
          cases hlive
        · rw [edited_lost fs s.cwd hfound.live erase_dead,hfound.name]
      refine Stands.answers hstands ?_ (.removed name q hfound.entry)
      rw [Call.perform,hrun]
      rfl

/-- The bytes of a text that was a buffer. -/
theorem textOf_getD {buffer : Bytes} {n i : ℕ} (h : i<n) : (textOf buffer n).getD i 0=buffer i := by
  unfold textOf
  rw [List.getD_eq_getElem?_getD,List.getElem?_map,List.getElem?_range h]
  rfl

/-- The length of a text that was a buffer. -/
@[simp] theorem textOf_length {buffer : Bytes} {n : ℕ} : (textOf buffer n).length=n := by
  unfold textOf
  rw [List.length_map,List.length_range]

/-- A buffer on clusters is its text on them. -/
theorem holds_textOf {l : List ℕ} {buffer : Bytes} {n : ℕ} (h : Holds v m l buffer n) :
    Holds v m l (fun i => (textOf buffer n).getD i 0) (textOf buffer n).length := by
  intro i hi
  rw [textOf_length] at hi
  obtain ⟨c,hc,htext⟩ := h i hi
  exact ⟨c,hc,htext.trans (textOf_getD hi).symm⟩

/-- A text on clusters is one on more of them. -/
theorem holds_append {l added : List ℕ} {text : ℕ → UInt8} {n : ℕ} (h : Holds v m l text n) :
    Holds v m (l++added) text n := by
  intro i hi
  obtain ⟨c,hc,htext⟩ := h i hi
  refine ⟨c,?_,htext⟩
  rw [List.getElem?_append_left (List.getElem?_eq_some_iff.mp hc).1]
  exact hc

/-- The file in a slot of the current directory before it is written. -/
structure Writable (v : Volume) (s : State) (t : Tree) (fs : Files) (name : Text) (a : ℕ)
    (old : List UInt8) : Prop where
  /-- The slot is found under the name. -/
  found : Found v s t fs (nameTo83 name) a (.file old)
  /-- It has no clusters or those of an object. -/
  place : target s.disk.bytes a=0 ∧ clusters t (target s.disk.bytes a)=[] ∨
    Owns t s.disk.bytes a ∧ target s.disk.bytes a∉t.folder ∧
      clusters t (target s.disk.bytes a)=t.chain (target s.disk.bytes a)

/-- A regular file of the current directory can be written, or there is none. -/
theorem Stands.writable (hv : Mounted v) (h : Stands v s t fs) {name : Text}
    (hreg : Regular v s.disk.bytes s.cwd name) :
    (∃ a old, Writable v s t fs name a old) ∨ Lacks v s t fs (nameTo83 name) := by
  rcases h.lookup (nameTo83 name) with ⟨a,node,hfound⟩ | hlacks
  swap
  · exact Or.inr hlacks
  have hfile := hreg _ a (h.draws.chain _ h.cwd.1) hfound.resolves
  cases node with
  | folder q =>
    have hfold := hfound.shows.1
    rw [hfile] at hfold
    cases hfold
  | file old =>
    refine Or.inl ⟨a,old,hfound,?_⟩
    rcases file_clusters hv h.draws h.cwd hfound.mem hfound.live hfile with ⟨hnil,hz⟩ | hown
    · exact Or.inl ⟨hz,hnil⟩
    · exact Or.inr hown

/-- The clusters of the file are apart from those of the directory. -/
theorem Writable.apart {name : Text} {old : List UInt8} (h : Stands v s t fs)
    (hw : Writable v s t fs name a old) {p : ℕ} (hp : t.Folder p) :
    ∀ x∈clusters t (target s.disk.bytes a), x∉t.chain p := by
  intro x hx hmem
  rcases hw.place with ⟨_,hnil⟩ | ⟨hown,hnot,hchain⟩
  · rw [hnil] at hx
    cases hx
  · rw [hchain] at hx
    exact hnot (h.draws.chain_unique hown.1 hp.1 hx hmem ▸ hp.2)

/-- The chain of the file. -/
theorem Writable.hasChain (hv : Mounted v) {name : Text} {old : List UInt8} (h : Stands v s t fs)
    (hw : Writable v s t fs name a old) :
    HasChain v s.disk.bytes (target s.disk.bytes a) (clusters t (target s.disk.bytes a)) :=
  Draws.hasChain hv h.draws (hw.place.imp And.left And.left)

/-- The slot of the file is the same before its entry is updated. -/
theorem Writable.slot (hv : Mounted v) {name : Text} {old : List UInt8} (h : Stands v s t fs)
    (hw : Writable v s t fs name a old) {m2 : Bytes} {added : List ℕ} {f : ℕ}
    (hstored : Stored v s.disk.bytes m2 (clusters t (target s.disk.bytes a)) added
      (target s.disk.bytes a) f) : ∀ i, i<32 → m2 (a+i)=s.disk.bytes (a+i) := by
  intro i hi
  exact hstored.grown.slot_eq hv (h.draws.chain _ h.cwd.1).inRange
    (fun c hc => hstored.grown.not_mem hv h.draws h.cwd.1 (hw.apart h h.cwd) hc) hw.found.mem hi

/-- What a write makes of the tree: only the file's chain is another one. -/
structure Regrown (v : Volume) (s : State) (t t' : Tree) (call : Call) (m' : Bytes) (a : ℕ) :
    Prop where
  /-- It is an effect of the call. -/
  effect : Effect v s.cwd s.disk t call m' t'
  /-- Other entries and files are kept. -/
  kept : Kept v s.disk.bytes m' t t' a
  /-- Directories are the same. -/
  folders : ∀ p, t'.Folder p → t.Folder p ∧ t'.chain p=t.chain p

/-- The objects other than a file keep their chains when it gets another one. -/
theorem setChain_kept {f : ℕ} {l : List ℕ} (hfile : f∉t.folder) :
    (∀ p, (t.setChain f l).Folder p → t.Folder p ∧ (t.setChain f l).chain p=t.chain p) ∧
      ∀ x, x≠f → (t.setChain f l).chain x=t.chain x := by
  refine ⟨fun p hp => ⟨hp,(setChain_folder hfile hp).2⟩,fun x hx => ?_⟩
  exact Function.update_of_ne hx l t.chain

/-- A new file adds no directory. -/
theorem add_kept {f p : ℕ} {l : List ℕ} (hf : f∉t.nodes) (hp : p∈t.nodes) :
    ∀ q, (t.add f p a l False hf hp).Folder q →
      t.Folder q ∧ (t.add f p a l False hf hp).chain q=t.chain q := by
  rintro q ⟨hq,⟨hqf,hfold⟩ | ⟨_,hfalse⟩⟩
  · have hmem : q∈t.nodes := hq.resolve_left hqf
    exact ⟨⟨hmem,hfold⟩,(Tree.add_old hf hp hmem).1⟩
  · exact hfalse.elim

section Written

variable {name text : Text} {old : List UInt8} {m2 : Bytes} {added : List ℕ} {f : ℕ}

/-- The growth of the file keeps the other entries and files. -/
theorem Writable.kept (hv : Mounted v) (h : Stands v s t fs) (hw : Writable v s t fs name a old)
    (hstored : Stored v s.disk.bytes m2 (clusters t (target s.disk.bytes a)) added
      (target s.disk.bytes a) f) (t' : Tree)
    (hsame : ∀ x∈t.nodes, x≠target s.disk.bytes a → t'.chain x=t.chain x) :
    Kept v s.disk.bytes m2 t t' a := by
  refine kept_grown hv h.draws hstored.grown (fun p hp => hw.apart h hp) fun x hx hslot => ?_
  rcases hw.place with ⟨hz,hnil⟩ | ⟨hown,_,hchain⟩
  · rw [hnil]
    exact ⟨fun c hc => (by cases hc),hsame x hx (hz ▸ h.draws.ne_zero hv hx)⟩
  · have hne : x≠target s.disk.bytes a := by
      intro he
      rw [he,hown.2.2] at hslot
      exact hslot rfl
    rw [hchain]
    exact ⟨fun c hc => h.draws.apart _ hown.1 x hx hne.symm c hc,hsame x hx hne⟩

/-- A write whose entry is not updated. -/
theorem Writable.cut (hv : Mounted v) (h : Stands v s t fs) (hw : Writable v s t fs name a old)
    (buffer : Bytes) (size : UInt32)
    (hstored : Stored v s.disk.bytes m2 (clusters t (target s.disk.bytes a)) added
      (target s.disk.bytes a) f)
    (hun : Unattached v s.disk m2 size.toNat (clusters t (target s.disk.bytes a)++added)) :
    ∃ t', Regrown v s t t' (.writeFile name buffer size) m2 a ∧
      ∃ more, clusters t' (target s.disk.bytes a)=clusters t (target s.disk.bytes a)++more := by
  have hstored0 := hstored
  rcases hw.place with ⟨hz,hnil⟩ | ⟨hown,hnot,hchain⟩
  · rw [hz] at hnil
    rw [hz,hnil] at hstored hun
    exact ⟨t,⟨.wasted name buffer size a f m2 added hw.found.resolves hz hstored hun,
      hw.kept hv h hstored0 t fun _ _ _ => rfl,fun p hp => ⟨hp,rfl⟩⟩,[],(List.append_nil _).symm⟩
  · obtain rfl : f=target s.disk.bytes a := hstored.first (h.draws.ne_zero hv hown.1)
    rw [hchain] at hstored
    obtain ⟨hsub,hother⟩ := @setChain_kept t _ (t.chain (target s.disk.bytes a)++added) hnot
    refine ⟨t.setChain (target s.disk.bytes a) (t.chain (target s.disk.bytes a)++added),
      ⟨.grown name buffer size a _ m2 added hw.found.resolves rfl hown hnot hstored,
        hw.kept hv h hstored0 _ fun x _ hx => hother x hx,hsub⟩,added,?_⟩
    rw [hchain,clusters,if_neg (h.draws.ne_zero hv hown.1)]
    exact Function.update_self _ _ _

/-- A write whose entry is updated. -/
theorem Writable.done (hv : Mounted v) (h : Stands v s t fs) (hw : Writable v s t fs name a old)
    (buffer : Bytes) (size : UInt32)
    (hstored : Stored v s.disk.bytes m2 (clusters t (target s.disk.bytes a)) added
      (target s.disk.bytes a) f) (result : ℤ) :
    ∃ t', Regrown v s t t' (.writeFile name buffer size) (updatedEntry f result m2 a) a ∧
      clusters t' f=clusters t (target s.disk.bytes a)++added := by
  have hstored0 := hstored
  have hadded : f∈clusters t (target s.disk.bytes a)++added := by
    obtain ⟨x,rest,hx⟩ := List.exists_cons_of_ne_nil hstored.nonempty
    have hch := hstored.chain
    rw [hx] at hch ⊢
    obtain ⟨rfl,_⟩ := (fileChain_cons hv).mp hch
    exact List.mem_cons_self
  have hf0 : f≠0 := by
    have hpos := (hstored.chain.inRange f hadded).1
    omega
  rcases hw.place with ⟨hz,hnil⟩ | ⟨hown,hnot,hchain⟩
  · have hfile := hw.found.shows.1
    rw [hz] at hnil
    rw [hz,hnil] at hstored hadded ⊢
    have hfresh := h.draws.fresh hv (hstored.grown.fresh f hadded).2
    have hkept := hw.kept hv h hstored0 (t.add f s.cwd a added False hfresh h.cwd.1)
      fun x hx _ => (Tree.add_old hfresh h.cwd.1 hx).1
    refine ⟨_,⟨.adopted name buffer size a f m2 added hw.found.resolves hz hfile hstored hfresh
        h.cwd.1
      result,hkept.edit hv h.draws h.cwd hw.found.mem (editor_updated f result) _ fun _ => rfl,
      add_kept hfresh h.cwd.1⟩,?_⟩
    rw [clusters,if_neg hf0]
    exact (Tree.add_new hfresh h.cwd.1).1
  · obtain rfl : f=target s.disk.bytes a := hstored.first (h.draws.ne_zero hv hown.1)
    rw [hchain] at hstored ⊢
    obtain ⟨hsub,hother⟩ := @setChain_kept t _ (t.chain (target s.disk.bytes a)++added) hnot
    have hkept := hw.kept hv h hstored0
      (t.setChain (target s.disk.bytes a) (t.chain (target s.disk.bytes a)++added))
      fun x _ hx => hother x hx
    refine ⟨_,⟨.resized name buffer size a _ m2 added hw.found.resolves rfl hown hnot hstored
        result,
      hkept.edit hv h.draws h.cwd hw.found.mem (editor_updated _ result) _ fun _ => rfl,hsub⟩,?_⟩
    rw [clusters,if_neg hf0]
    exact Function.update_self _ _ _

end Written

/-- The state after a write that left the slot live under its name. -/
theorem Writable.stands (hv : Mounted v) (h : Stands v s t fs) {name : Text} {old new : List UInt8}
    (hw : Writable v s t fs name a old) {call : Call} (hnovel : Novel v s call)
    (hre : Regrown v s t t' call m' a) (hlive : slotLive m' a=slotLive s.disk.bytes a)
    (hname : nameAt m' a=nameAt s.disk.bytes a) (hshow : Shows v m' t' a (.file new)) :
    Stands v ⟨s.disk.with m',s.cwd⟩ t' (fs.put s.cwd (nameTo83 name) (some (.file new))) := by
  obtain ⟨hdraws,hcwd⟩ := Effect.draws hv h.draws h.cwd hre.effect
  refine h.change hv (.file new) hdraws hcwd
    (effect_unique hv h.ideal h.draws h.cwd h.names hnovel hre.effect) hw.found.mem hre.kept
    hre.folders (fun _ => hshow) ?_ fun p hp => put_folder hp
  rw [edited_put,hlive,hname,hw.found.live,hw.found.name,if_pos rfl,if_pos rfl,put_put]

/-- Writing a file. -/
theorem write_answered (hv : Mounted v) (h : Stands v s t fs) (name : Text) (buffer : Bytes)
    (size : UInt32) (hreg : Regular v s.disk.bytes s.cwd name) :
    Answered v s fs (.call (.writeFile name buffer size)) := by
  have hchain := h.draws.chain _ h.cwd.1
  rcases Stands.writable hv h hreg with ⟨a,old,hw⟩ | hlacks
  swap
  · refine Stands.answers h ?_ (.writeMissing name buffer size hlacks.entry)
    rw [Call.perform,fat32WriteFile,FatFolders.findEntry_missing hv h.ideal hchain hlacks.missing]
    rfl
  have hnovel : Novel v s (.writeFile name buffer size) := trivial
  have hn : size.toNat<2^32 := size.toNat_lt
  obtain ⟨r,d',hrun,hcases⟩ := writeFile_answer hv h.ideal hchain hw.found.resolves
    (hw.hasChain hv h) (hw.apart h h.cwd) hn buffer
  have hperform : (Call.writeFile name buffer size).perform v s=some (r,⟨d',s.cwd⟩) := by
    rw [Call.perform,hrun]
    rfl
  obtain ⟨hfile,hshort,hsize,hold⟩ := hw.found.shows
  have hfit := ((FatSpace.holds_iff hv).mp hold).1
  cases hcases with
  | noCluster hl =>
    rw [hl,List.length_nil,Nat.zero_mul,Nat.le_zero,List.length_eq_zero_iff] at hfit
    have hentry := hw.found.entry
    have hserves := @Serves.writeCut v.rootCluster fs s.cwd name buffer size old (-1) (by norm_num)
      hentry (by rw [hfit]; exact Nat.zero_le _)
    have hsame : fs.put s.cwd (nameTo83 name) (some (.file (textOf buffer old.length)))=fs := by
      apply put_self
      rw [hentry,hfit]
      rfl
    rw [hsame] at hserves
    exact Stands.answers h hperform hserves
  | cut r f m2 added hr hstored hun hholds =>
    obtain ⟨t',hre,more,hmore⟩ := hw.cut hv h buffer size hstored hun
    have hlen : old.length ≤ size.toNat := by
      rcases hun with hfail | hbig | ⟨_,hlong⟩
      · exact (h.ideal.not_faulty hfail).elim
      · omega
      · rw [List.length_append,Nat.add_mul] at hlong
        omega
    have hslot := hw.slot hv h hstored
    obtain ⟨h1,h2,h3,h4⟩ := slot_congr hslot
    refine Stands.answers (hw.stands hv h hnovel hre h1 h4 ⟨h3.trans hfile,?_,?_,?_⟩) hperform
      (.writeCut name buffer size old r hr hw.found.entry hlen)
    · rw [textOf_length]
      exact hshort
    · rw [entryAt_congr hslot,textOf_length]
      exact hsize
    · rw [h2,hmore]
      exact holds_append (holds_textOf (hholds _ hshort hfit))
  | done f m2 added hsmall hstored hholds =>
    obtain ⟨t',hre,hclusters⟩ := hw.done hv h buffer size hstored size.toNat
    obtain ⟨h1,h2,h3,h4⟩ := slot_congr (hw.slot hv h hstored)
    obtain ⟨k1,k2,k3⟩ := @updated_keeps m2 a f size.toNat
    have hf : f<2^32 := by
      obtain ⟨x,rest,hx⟩ := List.exists_cons_of_ne_nil hstored.nonempty
      have hch := hstored.chain
      rw [hx] at hch
      obtain ⟨rfl,hr,_⟩ := (fileChain_cons hv).mp hch
      exact (inRange_lt hv hr).trans (by norm_num)
    obtain ⟨e1,e2⟩ := @entryAt_updated m2 a size.toNat f hf hsmall
    refine Stands.answers (hw.stands hv h hnovel hre (k2.trans h1) (k1.trans h4)
        ⟨(k3.trans h3).trans hfile,?_,?_,?_⟩)
      hperform (.written name buffer size old hw.found.entry hsmall)
    · rw [textOf_length]
      exact hsmall
    · rw [textOf_length]
      exact e2
    · rw [show target (updatedEntry f size.toNat m2 a) a=f from e1,hclusters]
      refine holds_congr hv (holds_textOf hholds) fun c hc x hx => ?_
      obtain ⟨y,hy,hbyte⟩ := slot_dataByte hw.found.mem
      have hcr := hstored.chain.inRange c hc
      have hcd : c∉t.chain s.cwd := by
        intro hmem
        exact hstored.grown.not_mem hv h.draws h.cwd.1 (hw.apart h h.cwd) hmem hc
      refine (editor_updated f size.toNat).outside m2 a x ?_
      by_contra hin
      have hslot := hbyte (x-a) (by omega)
      rw [show a+(x-a)=x by omega] at hslot
      exact data_disjoint hcr ((h.draws.chain _ h.cwd.1).inRange y hy)
        (fun he => hcd (he ▸ hy)) hx hslot

/-- Making a directory under a name that is lost at once. -/
theorem lost_stands (hv : Mounted v) (h : Stands v s t fs) (name : Text)
    (hmiss : Missing v s.disk.bytes (t.chain s.cwd) (nameTo83 name))
    (hslot : (slots v (t.chain s.cwd)).find? (slotFree s.disk.bytes)=some a)
    (hhead : (nameTo83 name).headD 0=0xE5) :
    Stands v ⟨s.disk.with (setEntry (nameTo83 name) 0x10 s.disk.bytes a),s.cwd⟩ t fs := by
  have ha := List.mem_of_find?_eq_some hslot
  have hdead := not_live_of_free (List.find?_some hslot)
  have heffect : Effect v s.cwd s.disk t (.mkdir name) _ t := Effect.entered name a hslot
      (Or.inr hmiss)
  obtain ⟨hdraws,hcwd⟩ := Effect.draws hv h.draws h.cwd heffect
  have hnovel : Novel v s (.mkdir name) := trivial
  have hname := (@setEntry_spec s.disk.bytes a 0x10 (nameTo83 name) (nameTo83_length _)
    (by norm_num)).1
  have hlost : slotLive (setEntry (nameTo83 name) 0x10 s.disk.bytes a) a=false := by
    rw [← Bool.not_eq_true,live_iff,first_of_name hname]
    exact fun hl => hl.2.1 hhead
  refine h.change hv (.folder 0) hdraws hcwd
    (effect_unique hv h.ideal h.draws h.cwd h.names hnovel heffect) ha
    ((Kept.refl _ _ _ _).edit hv h.draws h.cwd ha (editor_setEntry _ _) t fun _ => rfl)
    (fun p hp => ⟨hp,rfl⟩) (fun hlive => ?_) ?_ fun p hp => rfl
  · rw [hlost] at hlive
    cases hlive
  · rw [edited_put,hdead,hlost,if_neg Bool.false_ne_true,if_neg Bool.false_ne_true]

/-- The directories of the store are those of the tree. -/
theorem Stands.reached (h : Stands v s t fs) {p : ℕ} (hp : Reached v.rootCluster fs p) :
    t.Folder p := by
  induction hp with
  | root => exact h.draws.root ▸ ⟨t.root_mem,h.draws.root_folder⟩
  | enter p name q _ hentry ih =>
    obtain ⟨a,ha,hlive,_,hfold,rfl⟩ := (h.shows p ih).shown name _ hentry
    exact Draws.enter h.draws ih ha hlive hfold

/-- A new directory lists its two dot names. -/
theorem dots_listed {f p : ℕ} (hf0 : f≠0) (hp0 : p≠0) {l : List ℕ} {b c : ℕ} (hb : b∈l) (hc : c∈l)
    (h1 : slotLive m b=true ∧ nameAt m b=padded [0x2E] 11 ∧ target m b=f ∧ folderAt m b=true)
    (h2 : slotLive m c=true ∧ nameAt m c=padded [0x2E,0x2E] 11 ∧ target m c=p ∧ folderAt m c=true)
    (hall : ∀ x∈l, slotLive m x=true →
      nameAt m x=padded [0x2E] 11 ∨ nameAt m x=padded [0x2E,0x2E] 11) :
    Lists v m t l (dots f p) := by
  have hne : padded [0x2E,0x2E] 11≠padded [0x2E] 11 := by decide
  refine ⟨fun name node hnode => ?_,fun x hx hlive => ?_⟩
  · unfold dots at hnode
    split at hnode
    next hname =>
      rw [Option.some.injEq] at hnode
      subst hnode
      exact ⟨b,hb,h1.1,h1.2.1.trans hname.symm,h1.2.2.2,by rw [h1.2.2.1,leadsTo,if_neg hf0]⟩
    next =>
      split at hnode
      next hname =>
        rw [Option.some.injEq] at hnode
        subst hnode
        exact ⟨c,hc,h2.1,h2.2.1.trans hname.symm,h2.2.2.2,by rw [h2.2.2.1,leadsTo,if_neg hp0]⟩
      next => cases hnode
  · unfold dots
    rcases hall x hx hlive with hname | hname
    · rw [hname,if_pos rfl]
      exact Option.some_ne_none _
    · rw [hname,if_neg hne,if_pos rfl]
      exact Option.some_ne_none _

/-- A directory with a dot name in its slot is live. -/
theorem dot_live {c : UInt8} (hc : c=0x2E) (hname : (nameAt m a).headD 0=c)
    (hfold : folderAt m a=true) :
    slotLive m a=true := by
  subst hc
  have hfirst := first_of_name (m:=m) (a:=a) rfl
  rw [hname] at hfirst
  refine live_iff.mpr ⟨?_,?_,fun hattr => ?_⟩
  · rw [hfirst]
    decide
  · rw [hfirst]
    decide
  · rw [folderAt,isDirectory,hattr] at hfold
    cases hfold

/-- Making a directory that is found afterwards. -/
theorem made_stands (hv : Mounted v) (h : Stands v s t fs) (name : Text) {f : ℕ}
    (hmiss : Missing v s.disk.bytes (t.chain s.cwd) (nameTo83 name))
    (hslot : (slots v (t.chain s.cwd)).find? (slotFree s.disk.bytes)=some a)
    (hhead : (nameTo83 name).headD 0≠0xE5) (hf : InRange v f) (hz : link v s.disk.bytes f=0)
    (hblank : Blank v s.disk.bytes f) :
    ∃ t', Stands v
        ⟨s.disk.with (attached v (setEntry (nameTo83 name) 0x10 s.disk.bytes a) a f s.cwd),
      s.cwd⟩ t' ((fs.put s.cwd (nameTo83 name) (some (.folder f))).fill f (dots f s.cwd)) := by
  have hlen := nameTo83_length name.1
  have ha := List.mem_of_find?_eq_some hslot
  have hdead := not_live_of_free (List.find?_some hslot)
  have hfresh : f∉t.nodes := h.draws.fresh hv hz
  have hcf : s.cwd≠f := fun he => hfresh (he ▸ h.cwd.1)
  have hfw : f∉(t.without a).nodes := fun hmem => hfresh hmem.1
  have hcw := (h.draws.folder_without h.cwd ha).1
  have heffect : Effect v s.cwd s.disk t (.mkdir name) _ _ := Effect.attached name a a f hslot
    (Or.inr hmiss) (folder_entered hmiss hlen hhead hslot) hf hz hblank hfw hcw
  obtain ⟨hdraws,hcwd⟩ := Effect.draws hv h.draws h.cwd heffect
  have hnovel : Novel v s (.mkdir name) := trivial
  have hnames := effect_unique hv h.ideal h.draws h.cwd h.names hnovel heffect
  have hmade : FatFolders.Made v s.disk.bytes _ s.cwd (t.chain s.cwd) (nameTo83 name) a f :=
    ⟨h.draws.chain _ h.cwd.1,hmiss,hslot,hlen,hhead,⟨hf,hz⟩,rfl⟩
  obtain ⟨hname,htarget,hfold,hattr⟩ := hmade.entry hv
  have hlive :
      slotLive (attached v (setEntry (nameTo83 name) 0x10 s.disk.bytes a) a f s.cwd) a=true := by
    rw [live_iff,first_of_name hname,hattr]
    exact ⟨nameTo83_ne_zero name.2,hhead,by norm_num⟩
  have hfill := Draws.fill hv h.draws h.cwd hslot hlen (nameTo83_ne_zero name.2)
    (show 0x10<256 by norm_num)
  obtain ⟨hz1,htail1⟩ := setEntry_other hv h.draws (nameTo83 name) 0x10 h.cwd ha hf hz
  have hold : ∀ x∈t.nodes, ((t.without a).add f s.cwd a [f] True hfw hcw).chain x=t.chain x := by
    intro x hx
    have hne : x≠f := fun he => hfresh (he ▸ hx)
    exact Function.update_of_ne hne [f] t.chain
  have hk := ((Kept.refl _ _ _ _).edit hv h.draws h.cwd ha (editor_setEntry (nameTo83 name) 0x10) t
    fun _ => rfl).trans (kept_attached (p:=s.cwd) hv hfill h.cwd ha hf hz1 hold) fun p hp =>
        ⟨hp,rfl⟩
  refine ⟨_,h.ideal.with _,hdraws,hcwd,hnames,fun p hp => ?_⟩
  rw [with_bytes]
  by_cases hpf : p=f
  · subst hpf
    rw [fill_same,(Tree.add_new hfw hcw).1]
    obtain ⟨⟨n1,t1,f1⟩,⟨n2,t2,f2⟩,_⟩ := hmade.dots hv
    obtain ⟨rest,hrest⟩ := @FatFolders.slots_first v p hv
    have hdots := (attached_contents hv hfill h.cwd ha hf hz1 (htail1 hblank.freshTail)).2
    have hp0 := h.draws.ne_zero hv h.cwd.1
    have hf0 := hf.1
    refine dots_listed (by omega) hp0 (b:=dataAddr v p) (c:=dataAddr v p+32) (by rw [hrest]; simp)
      (by rw [hrest]; simp) ⟨dot_live rfl (by rw [n1]; rfl) f1,n1,t1,f1⟩
      ⟨dot_live rfl (by rw [n2]; rfl) f2,n2,t2,f2⟩ fun x hx hlx => ?_
    obtain ⟨_,⟨_,hx1,_⟩ | ⟨_,hx2,_⟩⟩ := hdots x hx hlx
    · exact Or.inl hx1
    · exact Or.inr hx2
  · have hpt : t.Folder p := by
      obtain ⟨hmem,⟨_,hfolder⟩ | ⟨he,_⟩⟩ := hp
      · exact ⟨(hmem.resolve_left hpf).1,hfolder⟩
      · exact (hpf he).elim
    rw [hold p hpt.1]
    refine h.shows.lists hv h.draws (.folder f) h.names h.cwd ha hk (fun _ => ⟨hfold,?_⟩) ?_ hpt
      fun hpc => ?_
    · have hf0 := hf.1
      rw [htarget,leadsTo,if_neg (by omega)]
    · rw [fill_folder hcf,edited_put,hlive,hdead,hname,if_pos rfl,if_neg Bool.false_ne_true]
    · rw [fill_folder hpf,put_folder hpc]

/-- Making a directory. -/
theorem mkdir_answered (hv : Mounted v) (h : Stands v s t fs) (name : Text)
    (hcare : Careful v s (.mkdir name)) : Answered v s fs (.call (.mkdir name)) := by
  have hchain := h.draws.chain _ h.cwd.1
  obtain ⟨r,d',hrun,hcases⟩ := mkdir_answer hv h.ideal hchain name
  have hperform : (Call.mkdir name).perform v s=some (r,⟨d',s.cwd⟩) := by
    rw [Call.perform,hrun]
    rfl
  have hentry : Missing v s.disk.bytes (t.chain s.cwd) (nameTo83 name) →
      fs s.cwd (nameTo83 name)=none := by
    intro hmiss
    rcases h.lookup (nameTo83 name) with ⟨a,node,hfound⟩ | hlacks
    · have hend := hmiss a hfound.resolves.first
      rw [hfound.resolves.live] at hend
      cases hend
    · exact hlacks.entry
  cases hcases with
  | noCluster hnone => exact Stands.answers h hperform (.makeFull name)
  | «exists» a hres =>
    refine Stands.answers h hperform (.makeExists name ?_)
    rcases h.lookup (nameTo83 name) with ⟨b,node,hfound⟩ | hlacks
    · rw [hfound.entry]
      exact Option.some_ne_none node
    · have hend := hlacks.missing a hres.first
      rw [hres.live] at hend
      cases hend
  | noSlot hmiss hslot => exact Stands.answers h hperform (.makeFull name)
  | lost a hmiss hslot hhead =>
    exact Stands.answers (lost_stands hv h name hmiss hslot hhead) hperform (.madeLost name hhead)
  | made a f hmiss hslot hhead hf hz =>
    obtain ⟨t',hstands⟩ := made_stands hv h name hmiss hslot hhead hf hz (hcare f hf hz)
    refine Stands.answers hstands hperform (.made name f (hentry hmiss) hhead fun hreach => ?_)
    exact h.draws.fresh hv hz (Stands.reached h hreach).1

/-- The state in another directory. -/
theorem Stands.move (h : Stands v s t fs) {p : ℕ} (hp : t.Folder p) : Stands v ⟨s.disk,p⟩ t fs :=
  ⟨h.ideal,h.draws,hp,h.names,h.shows⟩

/-- Going where one name leads. -/
theorem enter_goTo (hv : Mounted v) (h : Stands v s t fs) (text : List UInt8) :
    enterDirectory v s.cwd text s.disk=
        some ((goTo fs s.cwd text).1,(goTo fs s.cwd text).2,s.disk) ∧
      t.Folder (goTo fs s.cwd text).2 := by
  have hchain := h.draws.chain _ h.cwd.1
  unfold goTo enterDirectory
  rcases h.lookup (nameTo83 text) with ⟨a,node,hfound⟩ | hlacks
  · obtain ⟨r,hr,hfind⟩ := Resolves.findEntry hv h.ideal hchain hfound.resolves
    rw [hfind,hfound.entry]
    dsimp only
    rw [if_neg (by omega)]
    cases node with
    | file old =>
      have hfile := hfound.shows.1
      rw [folderAt] at hfile
      rw [hfile,if_neg Bool.false_ne_true]
      exact ⟨rfl,h.cwd⟩
    | folder q =>
      obtain ⟨hfold,rfl⟩ := hfound.shows
      have henter := Draws.enter h.draws h.cwd hfound.mem hfound.live hfold
      rw [folderAt] at hfold
      rw [hfold,if_pos rfl]
      exact ⟨rfl,henter⟩
  · rw [FatFolders.findEntry_missing hv h.ideal hchain hlacks.missing,hlacks.entry]
    exact ⟨rfl,h.cwd⟩

/-- Changing the current directory. -/
theorem changeDir_answered (hv : Mounted v) (h : Stands v s t fs) (name : Text) :
    Answered v s fs (.call (.changeDir name)) := by
  have hroot : t.Folder v.rootCluster := h.draws.root ▸ ⟨t.root_mem,h.draws.root_folder⟩
  have hgo : (Call.changeDir name).perform v s=some ((destination v.rootCluster fs s.cwd name).1,
        ⟨s.disk,(destination v.rootCluster fs s.cwd name).2⟩) ∧
      t.Folder (destination v.rootCluster fs s.cwd name).2 := by
    obtain ⟨text,_⟩ := name
    rw [Call.perform]
    dsimp only
    unfold fat32ChangeDir destination
    cases text with
    | nil => exact ⟨rfl,hroot⟩
    | cons x rest =>
      dsimp only
      by_cases hx : x=0x2F
      · rw [if_pos hx,if_pos hx]
        by_cases hrest : rest=[]
        · rw [if_pos hrest,if_pos hrest]
          exact ⟨rfl,hroot⟩
        · rw [if_neg hrest,if_neg hrest]
          obtain ⟨h1,h2⟩ := enter_goTo hv (Stands.move h hroot) rest
          dsimp only at h1 h2
          rw [h1]
          exact ⟨rfl,h2⟩
      · rw [if_neg hx,if_neg hx]
        obtain ⟨h1,h2⟩ := enter_goTo hv h (x::rest)
        rw [h1]
        exact ⟨rfl,h2⟩
  exact Stands.answers (Stands.move h hgo.2) hgo.1 (.changed name)

/-- The file as a read finds it. -/
theorem Writable.fileAt (hv : Mounted v) (h : Stands v s t fs) {name : Text} {old : List UInt8}
    (hw : Writable v s t fs name a old) :
      FileAt v s.disk.bytes s.cwd (t.chain s.cwd) (nameTo83 name) a
      (clusters t (target s.disk.bytes a)) (fun i => old.getD i 0) old.length :=
  ⟨h.draws.chain _ h.cwd.1,hw.found.resolves,hw.hasChain hv h,hw.apart h h.cwd,
    hw.found.shows.2.2.1,hw.found.shows.2.2.2⟩

/-- Reading a file. -/
theorem read_answered (hv : Mounted v) (h : Stands v s t fs) (name : Text) (buffer : Bytes)
    (size : UInt32) (hreg : Regular v s.disk.bytes s.cwd name) :
    Answered v s fs (.read name buffer size) := by
  have hchain := h.draws.chain _ h.cwd.1
  rcases Stands.writable hv h hreg with ⟨a,text,hw⟩ | hlacks
  · have hshort := hw.found.shows.2.1
    have hread := (hw.fileAt hv h).read hv h.ideal buffer (k:=size.toNat) (by omega)
    refine ⟨_,s,t,fs,?_,.read name buffer size text hw.found.entry,h⟩
    unfold Request.perform
    dsimp only
    rw [hread]
    rfl
  · refine ⟨_,s,t,fs,?_,.readMissing name buffer size hlacks.entry,h⟩
    unfold Request.perform fat32ReadFile
    dsimp only
    rw [FatFolders.findEntry_missing hv h.ideal hchain hlacks.missing]
    rfl

/-- `fat32_stat` of a name that is found. -/
theorem stat_found (hv : Mounted v) (h : Stands v s t fs) {name : Text}
    (hfound : Found v s t fs (nameTo83 name) a node) :
    Descriptors.fat32Stat v s.cwd name s.disk=some (some (entryAt s.disk.bytes a),s.disk) := by
  obtain ⟨r,hr,hfind⟩ := Resolves.findEntry hv h.ideal (h.draws.chain _ h.cwd.1) hfound.resolves
  unfold Descriptors.fat32Stat
  rw [hfind]
  dsimp only
  rw [if_neg (by omega)]

/-- Asking for the entry of a name. -/
theorem stat_answered (hv : Mounted v) (h : Stands v s t fs) (name : Text) :
    Answered v s fs (.stat name) := by
  have hchain := h.draws.chain _ h.cwd.1
  rcases h.lookup (nameTo83 name) with ⟨a,node,hfound⟩ | hlacks
  · have hperform : (Request.stat name).perform v s=
        some (.entry (some (folderAt s.disk.bytes a,(entryAt s.disk.bytes a).size)),s) := by
      unfold Request.perform
      dsimp only
      rw [stat_found hv h hfound]
      rfl
    cases node with
    | file text =>
      obtain ⟨hfile,_,hsize,_⟩ := hfound.shows
      rw [hfile,hsize] at hperform
      exact ⟨_,s,t,fs,hperform,.statFile name text hfound.entry,h⟩
    | folder q =>
      rw [hfound.shows.1] at hperform
      exact ⟨_,s,t,fs,hperform,.statFolder name q _ hfound.entry,h⟩
  · refine ⟨_,s,t,fs,?_,.statMissing name hlacks.entry,h⟩
    unfold Request.perform Descriptors.fat32Stat
    dsimp only
    rw [FatFolders.findEntry_missing hv h.ideal hchain hlacks.missing]
    rfl

/-- Every admissible request is answered as the store allows. -/
theorem request_answered (hv : Mounted v) (h : Stands v s t fs) {request : Request}
    (hok : Admissible v s request) : Answered v s fs request := by
  cases request with
  | read name buffer size => exact read_answered hv h name buffer size hok
  | stat name => exact stat_answered hv h name
  | call c =>
    cases c with
    | createFile name => exact create_answered hv h name hok.2
    | deleteFile name => exact delete_answered hv h name
    | writeFile name buffer size => exact write_answered hv h name buffer size hok.1
    | mkdir name => exact mkdir_answered hv h name hok.1
    | rename oldname newname => exact rename_answered hv h oldname newname hok.1 hok.2
    | rmdir name => exact rmdir_answered hv h name hok.1
    | changeDir name => exact changeDir_answered hv h name

end OvsbMk.FatService
