import OvsbMk.FatClimbs
import OvsbMk.FatFolders
import OvsbMk.FatRuns

/-!
# The path of the current directory

`fat32_get_cwd_name` climbs from the current directory to the root and prints the
names it met: of each the characters before the first blank. On a volume that
draws a tree, whose directories start with their two dot entries, the climb finds
the entries of all directories on the way. Names of one word of at most eight
characters are read back as they are printed.
-/

namespace OvsbMk.FatPaths

open ByteMemory BlockDisk Fat32 Chains FatTable FatData FatDirectory FatEntries RootedTree FatTree
  FatViews FatScans FatCompletion FatClimbs

variable {v : Volume} {m : Bytes} {d : Disk} {t : Tree} {a c p maxlen : ℕ} {nodes : List ℕ}
  {name name83 word text out : List UInt8} {names words : List (List UInt8)}

/-- What is printed of a name. -/
def printed (name83 : List UInt8) : List UInt8 := (name83.take 11).takeWhile (· ≠ 0x20)

/-- A path: a slash, and names with slashes between them. -/
def pathText (words : List (List UInt8)) : List UInt8 := 0x2F::[0x2F].intercalate words

/-- A word that a directory can have as its name: it has one to eight characters, no
blanks and no slashes. -/
def Word (word : List UInt8) : Prop := word≠[] ∧ word.length≤8 ∧ 0x20∉word ∧ 0x2F∉word

/-- The name in a directory is a word without an extension. -/
def Plain (name83 : List UInt8) : Prop := ∃ word, Word word ∧ name83=padded word 11

/-- The names in a path can be read off it. -/
theorem pathText_injective {other : List (List UInt8)} (h : ∀ w∈words, w≠[] ∧ 0x2F∉w)
    (h' : ∀ w∈other, w≠[] ∧ 0x2F∉w) (heq : pathText words=pathText other) : words=other := by
  have htext : [0x2F].intercalate words=[0x2F].intercalate other := (List.cons.inj heq).2
  have hnil : ∀ l : List (List UInt8), (∀ w∈l, w≠[] ∧ 0x2F∉w) → [0x2F].intercalate l=[] → l=[] := by
    intro l hl hempty
    cases l with
    | nil => rfl
    | cons w rest =>
      obtain ⟨x,y,rfl⟩ := List.exists_cons_of_ne_nil (hl w List.mem_cons_self).1
      rw [List.intercalate_cons_cons_left] at hempty
      cases hempty
  by_cases hne : words=[]
  · subst hne
    exact (hnil other h' htext.symm).symm
  by_cases hne' : other=[]
  · subst hne'
    exact hnil words h htext
  rw [← List.splitOn_intercalate 0x2F (fun w hw => (h w hw).2) hne,htext,
    List.splitOn_intercalate 0x2F (fun w hw => (h' w hw).2) hne']

/-- Characters are appended while there is room for the terminator. -/
theorem putChar_fold (h : out.length+text.length < maxlen) :
    text.foldl (putChar maxlen) out=out++text := by
  induction text generalizing out with
  | nil => rw [List.foldl_nil,List.append_nil]
  | cons x rest ih =>
    rw [List.length_cons] at h
    have hput : putChar maxlen out x=out++[x] := if_pos (by omega)
    rw [List.foldl_cons,hput,ih (by rw [List.length_append,List.length_singleton]; omega),
      List.append_assoc]
    rfl

/-- Names are appended with slashes between them. -/
theorem putNames_eq (h : out.length+([0x2F].intercalate (names.map printed)).length < maxlen) :
    putNames maxlen out names=out++[0x2F].intercalate (names.map printed) := by
  induction names generalizing out with
  | nil => rw [putNames,List.map_nil,List.intercalate_nil,List.append_nil]
  | cons name rest ih =>
    have hprinted : (name.take 11).takeWhile (· ≠ 0x20)=printed name := rfl
    rw [putNames,hprinted]
    cases rest with
    | nil =>
      rw [List.map_cons,List.map_nil,List.intercalate_singleton] at h ⊢
      rw [if_neg (by simp),putNames,putChar_fold h]
    | cons next rest =>
      rw [List.map_cons,List.map_cons,List.intercalate_cons_cons] at h ⊢
      rw [← List.map_cons] at h ⊢
      simp only [List.length_append,List.length_singleton] at h
      have hslash : putChar maxlen (out++printed name) 0x2F=out++printed name++[0x2F] :=
        if_pos (by rw [List.length_append]; omega)
      rw [if_pos (by simp),putChar_fold (by omega),hslash,ih (by
        simp only [List.length_append,List.length_singleton]
        omega)]
      simp only [List.append_assoc]

/-- The path that is printed after a climb, in an array that is large enough. -/
theorem cwdName_eq {rounds cwd : ℕ} {d' : Disk} (h : climb v rounds cwd [] d=some (some names,d'))
    (hroom : (pathText (names.map printed)).length < maxlen) :
    fat32GetCwdName v cwd maxlen rounds d=some (some (pathText (names.map printed)),d') := by
  rw [fat32GetCwdName]
  split
  next hroot =>
    rw [hroot,climb_root] at h
    simp only [Option.some.injEq,Prod.mk.injEq] at h
    obtain ⟨rfl,rfl⟩ := h
    have hend : terminate maxlen [0x2F]=some [0x2F] := if_pos hroom
    rw [hend]
    rfl
  next =>
    rw [h]
    dsimp only
    rw [pathText,List.length_cons] at hroom
    rw [putNames_eq (by rw [List.length_singleton]; omega),terminate,if_pos]
    · rfl
    · rw [List.length_append,List.length_singleton]
      omega

/-- A path is printed of the root or after a climb that ended. -/
theorem cwdName_climbs {rounds cwd : ℕ} {text : List UInt8} {d' : Disk}
    (h : fat32GetCwdName v cwd maxlen rounds d=some (some text,d')) :
    cwd=v.rootCluster ∨ ∃ names d1, climb v rounds cwd [] d=some (some names,d1) := by
  rw [fat32GetCwdName] at h
  split at h
  next hroot => exact Or.inl hroot
  next =>
    rcases hres : climb v rounds cwd [] d with _ | ⟨_ | names,d1⟩
    · rw [hres] at h
      cases h
    · rw [hres] at h
      cases h
    · exact Or.inr ⟨names,d1,rfl⟩

/-- Whatever the number of rounds, the path that is printed is that of a climb. -/
theorem cwdName_text (hd : Faultless d) {rounds rounds' cwd : ℕ} {d' d1 : Disk}
    (hclimb : climb v rounds cwd [] d=some (some names,d')) (hcwd : cwd≠v.rootCluster)
    (hroom : (pathText (names.map printed)).length < maxlen)
    (h : fat32GetCwdName v cwd maxlen rounds' d=some (some text,d1)) :
    text=pathText (names.map printed) := by
  obtain ⟨stack,d2,hother⟩ := (cwdName_climbs h).resolve_left hcwd
  have hmore := climb_mono hd hother rounds
  rw [Nat.add_comm,climb_mono hd hclimb rounds'] at hmore
  simp only [Option.some.injEq,Prod.mk.injEq] at hmore
  obtain ⟨rfl,rfl⟩ := hmore
  rw [cwdName_eq hother hroom] at h
  simp only [Option.some.injEq,Prod.mk.injEq] at h
  exact h.1.symm

/-- What is printed of a plain name is its word. -/
theorem printed_word (h : Word word) : printed (padded word 11)=word := by
  have hlen := h.2.1
  rw [printed,List.take_of_length_le (padded_length word 11).le]
  exact padded_takeWhile (by omega) h.2.2.1

/-- A short word fills the first eight bytes of a name. -/
theorem padded_eleven (h : word.length≤8) : padded word 11=padded word 8++padded [] 3 := by
  rw [padded,padded,padded,List.take_of_length_le h,List.take_of_length_le (by omega),
    List.append_assoc,List.take_nil,List.nil_append,List.length_nil,List.replicate_append_replicate]
  congr 2
  omega

/-- A plain name that a call was given is read back from its word. -/
theorem plain_reads (hz : 0∉name) (h : Word word) (hname : nameTo83 name=padded word 11) :
    nameTo83 word=padded word 11 ∧ 0∉word := by
  obtain ⟨hne,hlen,hblank,_⟩ := h
  by_cases hdot : name=[0x2E] ∨ name=[0x2E,0x2E]
  · have hself : nameTo83 name=padded name 11 := by rw [nameTo83,if_pos hdot]
    have hword : word=name := by
      rw [← @padded_takeWhile word 11 (by omega) hblank,← hname,hself]
      refine padded_takeWhile ?_ ?_ <;> rcases hdot with rfl | rfl <;> decide
    subst hword
    exact ⟨hname,hz⟩
  have hparts : nameTo83 name=padded ((name.takeWhile (· ≠ 0x2E)).map upper) 8++
      padded (((name.dropWhile (· ≠ 0x2E)).drop 1).map upper) 3 := by
    rw [nameTo83,if_neg hdot]
  rw [padded_eleven hlen,hparts] at hname
  have hbase := (List.append_inj hname (by rw [padded_length,padded_length])).1
  have hmem : ∀ x∈word, ∃ y∈name, y≠0x2E ∧ upper y=x := by
    intro x hx
    have hin : x∈padded ((name.takeWhile (· ≠ 0x2E)).map upper) 8 := by
      rw [hbase,padded,List.take_of_length_le hlen]
      exact List.mem_append_left _ hx
    rw [padded,List.mem_append] at hin
    rcases hin with hin | hin
    · obtain ⟨y,hy,rfl⟩ := List.mem_map.mp (List.mem_of_mem_take hin)
      exact ⟨y,(List.takeWhile_sublist _).subset hy,by simpa using List.mem_takeWhile_imp hy,rfl⟩
    · rw [(List.mem_replicate.mp hin).2] at hx
      exact (hblank hx).elim
  have hno : ∀ x∈word, x≠0 ∧ x≠0x2E ∧ upper x=x := by
    intro x hx
    obtain ⟨y,hy,hdoty,rfl⟩ := hmem x hx
    have hzero : y≠0 := fun h => hz (h ▸ hy)
    exact ⟨(upper_ne hzero hdoty).1,(upper_ne hzero hdoty).2,upper_upper y⟩
  refine ⟨?_,fun h => (hno 0 h).1 rfl⟩
  have hhead : ¬(word=[0x2E] ∨ word=[0x2E,0x2E]) := by
    rintro (rfl | rfl) <;> exact (hno 0x2E (by simp)).2.1 rfl
  have htake : word.takeWhile (· ≠ 0x2E)=word :=
    List.takeWhile_eq_self_iff.mpr fun x hx => by simpa using (hno x hx).2.1
  have hdrop : word.dropWhile (· ≠ 0x2E)=[] :=
    List.dropWhile_eq_nil_iff.mpr fun x hx => by simpa using (hno x hx).2.1
  have hupper : word.map upper=word :=
    (List.map_congr_left fun x hx => (hno x hx).2.2).trans (List.map_id word)
  rw [nameTo83,if_neg hhead,htake,hdrop]
  dsimp only
  rw [hupper,padded_eleven hlen]
  rfl

/-- The address of a slot. -/
def placeAddr (p : Place) : ℕ := sectorAddr p.1+p.2

/-- A test that can be moved, on a slot and at its address. -/
theorem onPlace_addr {test : Bytes → ℕ → Bool} (h : Movable test) (m : Bytes) (p : Place) :
    onPlace test m p=test m (placeAddr p) := h m (sectorAddr p.1) p.2

/-- The slots of a cluster of the volume. -/
theorem clusterPlaces_addr (hv : Mounted v) (hc : InRange v c) :
    (clusterPlaces v c).map placeAddr=rangeSlots (dataAddr v c) v.sectorsPerCluster := by
  have hrun : ∀ count s, s+count≤v.sectorsPerCluster →
      (runPlaces (clusterToSector v c) s count).map placeAddr=
        rangeSlots (dataAddr v c+s*512) count := by
    intro count
    induction count with
    | zero => exact fun _ _ => rfl
    | succ count ih =>
      intro s hs
      have haddr := sector_addr hv hc (show s<v.sectorsPerCluster by omega)
      rw [runPlaces_succ,List.map_append,ih (s+1) (by omega),rangeSlots_succ,Nat.succ_mul,
        ← Nat.add_assoc,← haddr,sectorPlaces,List.map_map,sectorSlots]
      rfl
  have := hrun v.sectorsPerCluster 0 (by omega)
  rwa [Nat.zero_mul,Nat.add_zero] at this

/-- The search for the name of a directory finds the first slot that leads to it. -/
theorem movable_leads (c : ℕ) : Movable (slotLeads c) := by
  intro m base a
  rw [slotLeads,slotLeads,movable_short,entryAt_move,movable_end]

/-- The search for the name of a directory, along a chain of the volume. -/
theorem nameChain_slots (hv : Mounted v) (hd : Faultless d) (hchain : FileChain v d.bytes p nodes)
    (hfind : (slots v nodes).find? (slotLeads c d.bytes)=some a) :
    nameChain v c nodes.length p d=some (some (nameAt d.bytes a),d) := by
  induction nodes generalizing p with
  | nil => cases hfind
  | cons x rest ih =>
    obtain ⟨rfl,hp,hrest⟩ := (fileChain_cons hv).mp hchain
    have hends : ¬Ends p := not_ends hv hp
    have htest : onPlace (slotLeads c) d.bytes=slotLeads c d.bytes ∘ placeAddr :=
      funext (onPlace_addr (movable_leads c) d.bytes)
    rw [slots_cons,List.find?_append,← clusterPlaces_addr hv hp,List.find?_map,← htest] at hfind
    rw [List.length_cons,nameChain_round hd hends]
    cases hplace : (clusterPlaces v p).find? (onPlace (slotLeads c) d.bytes) with
    | none =>
      rw [hplace] at hfind
      exact ih hrest hfind
    | some q =>
      rw [hplace] at hfind
      obtain rfl : placeAddr q=a := Option.some.inj hfind
      have hentry : entryAt (sectorOf d.bytes q.1) q.2=entryAt d.bytes (placeAddr q) :=
        entryAt_move d.bytes (sectorAddr q.1) q.2
      dsimp only
      rw [hentry]
      rfl

/-- A climb whose searches all find a name pushes the names while there is room. -/
theorem climb_names (hd : Faultless d) (label : ℕ → List UInt8) {cwd : ℕ} {levels : List ℕ}
    {stack : List (List UInt8)} (hchain : Chain (parentOf v d.bytes) (· = v.rootCluster) cwd levels)
    (hname : ∀ c∈levels, ∃ rounds, nameChain v c rounds (parentOf v d.bytes c) d=
      some (some (label c),d)) (hroom : stack.length+levels.length ≤ stackSize) :
    ∃ rounds, climb v rounds cwd stack d=some (some ((levels.map label).reverse++stack),d) := by
  induction levels generalizing cwd stack with
  | nil =>
    obtain rfl := chain_nil.mp hchain
    exact ⟨0,climb_root v 0 stack d⟩
  | cons c rest ih =>
    obtain ⟨rfl,hc,hrest⟩ := chain_cons.mp hchain
    obtain ⟨r1,h1⟩ := hname cwd List.mem_cons_self
    rw [List.length_cons] at hroom
    obtain ⟨r2,h2⟩ := @ih _ (label cwd::stack) hrest
      (fun x hx => hname x (List.mem_cons_of_mem _ hx)) (by rw [List.length_cons]; omega)
    refine ⟨r1+r2+1,?_⟩
    rw [climb_round hd hc,nameChain_mono hd h1]
    dsimp only
    rw [if_pos (by omega),Nat.add_comm r1 r2,climb_mono hd h2,List.map_cons,List.reverse_cons,
      List.append_assoc]
    rfl

/-- Every directory but the root starts with its two dot entries. -/
def Dotted (v : Volume) (m : Bytes) (t : Tree) : Prop :=
  ∀ p, t.Folder p → p≠t.root → nameAt m (dataAddr v p)=padded [0x2E] 11 ∧
    slotLive m (dataAddr v p+32)=true ∧ nameAt m (dataAddr v p+32)=padded [0x2E,0x2E] 11 ∧
    denoted v (target m (dataAddr v p+32))=t.parent p

/-- The parent of a directory in the tree is the one the climb finds. -/
theorem parentOf_tree (hv : Mounted v) (h : Draws v m t ∅) (hdot : Dotted v m t) (hp : t.Folder p)
    (hne : p≠t.root) : parentOf v m p=t.parent p := by
  obtain ⟨hself,hlive,hup,hparent⟩ := hdot p hp hne
  have haddr : sectorAddr (clusterToSector v p)=dataAddr v p := by
    have := sector_addr hv (h.inRange hv hp.1) hv.cluster_pos
    have hlt : clusterToSector v p<2^32 := Nat.mod_lt _ (by norm_num)
    rwa [Nat.add_zero,Nat.zero_mul,Nat.add_zero,Nat.mod_eq_of_lt hlt] at this
  have hmove : Movable slotParent := by
    intro m base a
    rw [slotParent,slotParent,movable_short]
    simp only [Nat.add_assoc]
  have hfirst : onPlace slotParent m (clusterToSector v p,0)=false := by
    rw [onPlace_addr hmove,placeAddr,haddr]
    have hsecond : m (dataAddr v p+1)=0x20 := congrArg (fun l => l.getD 1 0) hself
    simp [slotParent,hsecond]
  have hsecond : onPlace slotParent m (clusterToSector v p,32)=true := by
    rw [onPlace_addr hmove,placeAddr,haddr]
    have h0 : m (dataAddr v p+32)=0x2E := congrArg (fun l => l.getD 0 0) hup
    have h1 : m (dataAddr v p+32+1)=0x2E := congrArg (fun l => l.getD 1 0) hup
    have h2 : m (dataAddr v p+32+2)=0x20 := congrArg (fun l => l.getD 2 0) hup
    rw [slotLive,Bool.and_eq_true] at hlive
    simp [slotParent,h0,h1,h2,hlive.2]
  obtain ⟨rest,hplaces⟩ : ∃ rest, sectorPlaces (clusterToSector v p)=
      (clusterToSector v p,0)::(clusterToSector v p,32)::rest := ⟨_,rfl⟩
  have hfind : (sectorPlaces (clusterToSector v p)).find? (onPlace slotParent m)=
      some (clusterToSector v p,32) := by
    rw [hplaces,List.find?_cons_of_neg (by simp [hfirst]),List.find?_cons_of_pos hsecond]
  have hentry : leadsTo m (clusterToSector v p,32)=target m (dataAddr v p+32) := by
    rw [← haddr]
    exact congrArg firstClusterOf (entryAt_move m (sectorAddr (clusterToSector v p)) 32)
  rw [parentOf,hfind]
  dsimp only
  rw [hentry,hparent]

/-- The search in the parent of an object finds its entry only. -/
theorem slotLeads_tree (h : Draws v m t ∅) (hv : Mounted v) (hc : c∈t.nodes) (hne : c≠t.root) :
    (slots v (t.chain (t.parent c))).find? (slotLeads c m)=some (t.slot c) := by
  obtain ⟨hlive,htarget,_⟩ := h.entry c hc hne
  have hmem := h.slot_mem c hc hne
  have hpar : t.Folder (t.parent c) := ⟨t.parent_mem c hc,h.parent_folder c hc⟩
  have hpass : ∀ x, slotLeads c m x=true ↔ slotLive m x=true ∧ target m x=c := by
    intro x
    rw [slotLeads,Bool.and_eq_true,slotLive,decide_eq_true_iff,target]
  cases hfind : (slots v (t.chain (t.parent c))).find? (slotLeads c m) with
  | none => exact (List.find?_eq_none.mp hfind _ hmem ((hpass _).mpr ⟨hlive,htarget⟩)).elim
  | some x =>
    obtain ⟨hlivex,htargetx⟩ := (hpass x).mp (List.find?_some hfind)
    rcases h.placed _ hpar x (List.mem_of_find?_eq_some hfind) (Set.notMem_empty x) hlivex with
      hz | hown | hback
    · exact (h.ne_zero hv hc (htargetx.symm.trans hz)).elim
    · rw [← hown.2.2,htargetx]
    · rw [htargetx] at hback
      exact (Rooted.not_above_parent hc hne hback.2.1).elim

/-- The directories on the way to the root. -/
theorem levels_exist (hv : Mounted v) (h : Draws v m t ∅) (hdot : Dotted v m t) (hp : t.Folder p) :
    ∃ levels, Chain (parentOf v m) (· = v.rootCluster) p levels ∧
      ∀ x∈levels, t.Folder x ∧ x≠t.root ∧ t.Above x p := by
  have hall : p∈t.folder → ∃ levels, Chain (parentOf v m) (· = v.rootCluster) p levels ∧
      ∀ x∈levels, t.Folder x ∧ x≠t.root ∧ t.Above x p := by
    refine Rooted.induction (F:=t.toRooted) (P:=fun y => y∈t.folder → ∃ levels,
      Chain (parentOf v m) (· = v.rootCluster) y levels ∧
        ∀ x∈levels, t.Folder x ∧ x≠t.root ∧ t.Above x y) ?_ ?_ hp.1
    · exact fun _ => ⟨[],chain_nil.mpr h.root,fun x hx => by cases hx⟩
    · intro y hy hne ih hfold
      obtain ⟨levels,hchain,hlevels⟩ := ih (h.parent_folder y hy)
      refine ⟨y::levels,chain_cons.mpr ⟨rfl,fun heq => hne (heq.trans h.root.symm),?_⟩,?_⟩
      · rwa [parentOf_tree hv h hdot ⟨hy,hfold⟩ hne]
      · intro x hx
        rcases List.mem_cons.mp hx with rfl | hx
        · exact ⟨⟨hy,hfold⟩,hne,t.above_refl x⟩
        · obtain ⟨h1,h2,h3⟩ := hlevels x hx
          exact ⟨h1,h2,h3.of_parent⟩
  exact hall hp.2

end OvsbMk.FatPaths
