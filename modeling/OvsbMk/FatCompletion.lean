import OvsbMk.FatScans
import OvsbMk.FatFiles
import OvsbMk.FatEntries
import Mathlib.Data.List.TakeWhile
import Mathlib.Data.List.GetD

/-!
# Names shown and completed

A name is shown without its padding, and storing what is shown gives the name
again. Completion collects, in the order of the directory, the first entries
before its end whose shown names start with the prefix.
-/

namespace OvsbMk.FatCompletion

open ByteMemory BlockDisk Fat32 Chains FatTable FatData FatFiles FatEntries FatViews FatScans

/-- Upper case leaves a character alone or makes a letter. -/
theorem upper_cases (c : UInt8) :
    upper c=c ∧ ¬(0x61≤c ∧ c≤0x7A) ∨ 0x41≤(upper c).toNat ∧ (upper c).toNat≤0x5A := by
  rw [upper]
  split
  next h =>
    have h1 : 0x61≤c.toNat := UInt8.le_iff_toNat_le.mp h.1
    have h2 : c.toNat≤0x7A := UInt8.le_iff_toNat_le.mp h.2
    have h3 : (c-0x20).toNat=c.toNat-0x20 :=
      UInt8.toNat_sub_of_le _ _ (UInt8.le_iff_toNat_le.mpr (by simp; omega))
    right
    omega
  next h => exact Or.inl ⟨rfl,h⟩

/-- Upper case twice. -/
theorem upper_upper (c : UInt8) : upper (upper c)=upper c := by
  rcases upper_cases c with ⟨h,_⟩ | ⟨_,h⟩
  · rw [h,h]
  · have hnot : ¬(0x61≤upper c ∧ upper c≤0x7A) := by
      rintro ⟨h1,_⟩
      have h3 : 0x61≤(upper c).toNat := UInt8.le_iff_toNat_le.mp h1
      omega
    generalize upper c=x at hnot
    rw [upper,if_neg hnot]

/-- Upper case makes neither a blank nor a dot. -/
theorem upper_eq_mark {c x : UInt8} (hx : x.toNat<0x41) (h : upper c=x) : c=x := by
  rcases upper_cases c with ⟨hc,_⟩ | ⟨hc,_⟩
  · rw [← hc,h]
  · rw [h] at hc
    omega

/-- The base of a name that does not start with a dot. -/
def baseOf (name : List UInt8) : List UInt8 := ((name.takeWhile (· ≠ 0x2E)).map upper).take 8

/-- Its extension. -/
def extensionOf (name : List UInt8) : List UInt8 :=
  (((name.dropWhile (· ≠ 0x2E)).drop 1).map upper).take 3

/-- Cutting before filling up changes nothing. -/
theorem padded_take (text : List UInt8) (length : ℕ) :
    padded (text.take length) length=padded text length := by
  rw [padded,padded,List.take_take,Nat.min_self,List.length_take]
  congr 2
  omega

/-- A name that does not start with a dot, in its two parts. -/
theorem nameTo83_eq {name : List UInt8} (h : name.head?≠some 0x2E) :
    nameTo83 name=padded (baseOf name) 8++padded (extensionOf name) 3 := by
  rw [nameTo83,if_neg (by rintro (rfl | rfl) <;> exact h rfl),baseOf,extensionOf,padded_take,
    padded_take]

/-- Padded text before its first blank. -/
theorem padded_takeWhile {text : List UInt8} {length : ℕ} (hlen : text.length≤length)
    (hblank : 0x20∉text) : (padded text length).takeWhile (· ≠ 0x20)=text := by
  rw [padded,List.take_of_length_le hlen,List.takeWhile_append_of_pos,List.takeWhile_replicate]
  · simp
  · intro x hx
    simpa using fun h : x=0x20 => hblank (h ▸ hx)

/-- Padded text is blank exactly when there is none. -/
theorem padded_any {text : List UInt8} {length : ℕ} (hlen : text.length≤length)
    (hblank : 0x20∉text) : (padded text length).any (· ≠ 0x20)=true ↔ text≠[] := by
  rw [padded,List.take_of_length_le hlen,List.any_append]
  cases text with
  | nil => simp
  | cons x rest =>
    have : x≠0x20 := fun h => hblank (by simp [h])
    simp [this]

/-- What is shown for a name in two parts. -/
theorem displayName_padded {base extension : List UInt8} (hb : base.length≤8)
    (he : extension.length≤3) (hbase : base≠[]) (hbb : 0x20∉base) (heb : 0x20∉extension) :
    displayName (padded base 8++padded extension 3)=
      if extension=[] then base else base++0x2E::extension := by
  have hlen := padded_length base 8
  have hlen' := padded_length extension 3
  have hpos : 0<base.length := List.length_pos_iff.mpr hbase
  rw [displayName]
  simp only [List.take_left' hlen,List.drop_left' hlen,List.take_of_length_le hlen'.le,
    padded_takeWhile hb hbb,padded_takeWhile he heb,padded_any he heb,hpos,and_true]
  by_cases hext : extension=[] <;> simp [hext]

/-- The parts of a name contain no blank. -/
theorem parts_blank {name : List UInt8} (h : 0x20∉name) :
    0x20∉baseOf name ∧ 0x20∉extensionOf name := by
  refine ⟨fun hin => ?_,fun hin => ?_⟩
  · obtain ⟨c,hc,heq⟩ := List.mem_map.mp (List.mem_of_mem_take hin)
    obtain rfl := upper_eq_mark (by decide) heq
    exact h ((List.takeWhile_sublist _).subset hc)
  · obtain ⟨c,hc,heq⟩ := List.mem_map.mp (List.mem_of_mem_take hin)
    obtain rfl := upper_eq_mark (by decide) heq
    exact h ((List.dropWhile_sublist _).subset (List.mem_of_mem_drop hc))

/-- The base of a name contains no dot. -/
theorem base_dot (name : List UInt8) : 0x2E∉baseOf name := by
  intro hin
  obtain ⟨c,hc,heq⟩ := List.mem_map.mp (List.mem_of_mem_take hin)
  obtain rfl := upper_eq_mark (by decide) heq
  simpa using List.mem_takeWhile_imp hc

/-- Upper case changes no part of a name. -/
theorem parts_upper (name : List UInt8) :
    (baseOf name).map upper=baseOf name ∧ (extensionOf name).map upper=extensionOf name := by
  have key : ∀ (text : List UInt8) n, ((text.map upper).take n).map upper=(text.map upper).take n := by
    intro text n
    rw [← List.map_take,List.map_map]
    exact List.map_congr_left fun c _ => upper_upper c
  exact ⟨key _ _,key _ _⟩

/-- Putting the parts of a name together again gives the parts. -/
theorem parts_joined {base extension : List UInt8} (hbase : 0x2E∉base)
    (hub : base.map upper=base) (hue : extension.map upper=extension) (hb : base.length≤8)
    (he : extension.length≤3) :
    baseOf (base++0x2E::extension)=base ∧ extensionOf (base++0x2E::extension)=extension ∧
      baseOf base=base ∧ extensionOf base=[] := by
  have hpos : ∀ x∈base, decide (x≠0x2E)=true := fun x hx => by
    simpa using fun h : x=0x2E => hbase (h ▸ hx)
  have hstop : (0x2E::extension).takeWhile (· ≠ 0x2E)=[] := by simp
  have hstop' : (0x2E::extension).dropWhile (· ≠ 0x2E)=0x2E::extension := by simp
  refine ⟨?_,?_,?_,?_⟩
  · rw [baseOf,List.takeWhile_append_of_pos hpos,hstop,List.append_nil,hub,
      List.take_of_length_le hb]
  · rw [extensionOf,List.dropWhile_append_of_pos hpos,hstop',List.drop_one,List.tail_cons,hue,
      List.take_of_length_le he]
  · rw [baseOf,List.takeWhile_eq_self_iff.mpr hpos,hub,List.take_of_length_le hb]
  · rw [extensionOf,List.dropWhile_eq_nil_iff.mpr hpos]
    rfl

/-- A name shown and stored again: the dot names, and the names that do not start
with a dot, come back. -/
theorem shown_and_stored {name : List UInt8} (hblank : 0x20∉name)
    (hname : name=[0x2E] ∨ name=[0x2E,0x2E] ∨ name≠[] ∧ name.head?≠some 0x2E) :
    nameTo83 (displayName (nameTo83 name))=nameTo83 name := by
  rcases hname with rfl | rfl | ⟨hne,hhead⟩
  · decide
  · decide
  · have hb : (baseOf name).length≤8 := List.length_take_le _ _
    have he : (extensionOf name).length≤3 := List.length_take_le _ _
    obtain ⟨hbb,heb⟩ := parts_blank hblank
    obtain ⟨hub,hue⟩ := parts_upper name
    have hbase : baseOf name≠[] := by
      obtain ⟨c,rest,rfl⟩ := List.exists_cons_of_ne_nil hne
      have hc : c≠0x2E := fun h => hhead (by simp [h])
      simp [baseOf,hc]
    have hfirst : ∀ more, (baseOf name++more).head?≠some 0x2E := by
      intro more h
      obtain ⟨c,rest,hcons⟩ := List.exists_cons_of_ne_nil hbase
      rw [hcons] at h
      refine base_dot name ?_
      rw [hcons]
      simp_all
    obtain ⟨h1,h2,h3,h4⟩ := parts_joined (base_dot name) hub hue hb he
    rw [nameTo83_eq hhead,displayName_padded hb he hbase hbb heb]
    split
    next hext =>
      rw [nameTo83_eq (by simpa using hfirst []),h3,h4,hext]
    next hext => rw [nameTo83_eq (hfirst _),h1,h2]

/-- A name with a long extension is stored as it is shown. -/
theorem shown_and_stored_sample :
    nameTo83 (displayName (nameTo83 [0x61,0x2E,0x74,0x65,0x78,0x74]))=
      nameTo83 [0x61,0x2E,0x74,0x65,0x78,0x74] :=
  shown_and_stored (by decide) (Or.inr (Or.inr ⟨by decide,by decide⟩))

variable {v : Volume} {m : Bytes} {d : Disk} {start : ℕ} {nodes : List ℕ} {pre name : List UInt8}

/-- Equal characters have no difference. -/
theorem charValue_sub {x y : UInt8} :
    Console.charValue x-Console.charValue y=0 ↔ x=y := by
  constructor
  · intro h
    have hx := x.toNat_lt
    have hy := y.toNat_lt
    refine UInt8.toNat_inj.mp ?_
    simp only [Console.charValue,UInt8.lt_iff_toNat_lt] at h
    split at h <;> split at h <;> omega
  · rintro rfl
    exact Int.sub_self _

/-- Comparing with a text that does not end compares byte by byte. -/
theorem strncmp_eq_zero {a b : Bytes} {n i : ℕ} (hb : ∀ j, i≤j → j < i+n → b j≠0) :
    strncmp a b n i=0 ↔ ∀ j, i≤j → j < i+n → a j=b j := by
  induction n generalizing i with
  | zero => exact iff_of_true rfl fun j h1 h2 => by omega
  | succ n ih =>
    have hrest := ih (i:=i+1) fun j h1 h2 => hb j (by omega) (by omega)
    rw [strncmp]
    by_cases heq : a i=b i
    · have hne : a i≠0 := heq ▸ hb i le_rfl (by omega)
      rw [if_neg (not_not.mpr heq),if_neg hne,hrest]
      constructor
      · intro h j h1 h2
        rcases Nat.eq_or_lt_of_le h1 with rfl | h1
        · exact heq
        · exact h j h1 (by omega)
      · exact fun h j h1 h2 => h j (by omega) (by omega)
    · rw [if_pos heq,charValue_sub]
      exact iff_of_false heq fun h => heq (h i le_rfl (by omega))

/-- The comparison of `fat32_match_prefix` tests for a prefix. -/
theorem strncmp_starts (hpre : 0∉pre) :
    (pre.length=0 ∨ strncmp (textBytes name) (textBytes pre) pre.length 0=0) ↔ pre<+:name := by
  have hb : ∀ j, 0≤j → j<0+pre.length → textBytes pre j≠0 := by
    intro j _ hj h
    rw [Nat.zero_add] at hj
    rw [textBytes,List.getD_eq_getElem _ _ hj] at h
    exact hpre (h ▸ List.getElem_mem hj)
  rw [strncmp_eq_zero hb,List.prefix_iff_getElem]
  constructor
  · rintro (h | h)
    · exact ⟨by omega,fun i hi => by omega⟩
    · have hlen : pre.length≤name.length := by
        by_contra hlt
        have h1 := h name.length (Nat.zero_le _) (by omega)
        have h2 : textBytes name name.length=0 := List.getD_eq_default _ _ le_rfl
        exact hb name.length (Nat.zero_le _) (by omega) (by rw [← h1,h2])
      refine ⟨hlen,fun i hi => ?_⟩
      have h1 := h i (Nat.zero_le _) (by omega)
      simp only [textBytes] at h1
      rw [List.getD_eq_getElem _ _ (by omega),List.getD_eq_getElem _ _ hi] at h1
      exact h1.symm
  · rintro ⟨hlen,h⟩
    refine Or.inr fun j _ hj => ?_
    rw [Nat.zero_add] at hj
    simp only [textBytes]
    rw [List.getD_eq_getElem _ _ (by omega),List.getD_eq_getElem _ _ hj]
    exact (h j hj).symm

/-- The text shown for a slot. -/
def shownAt (m : Bytes) (p : Place) : List UInt8 := displayName (entryAt (sectorOf m p.1) p.2).name

/-- The attributes of a slot. -/
def attrAt (m : Bytes) (p : Place) : ℕ := (entryAt (sectorOf m p.1) p.2).attr

/-- The slots whose shown names start with a prefix: those of live entries before
the end of the directory. -/
def matching (m : Bytes) (pre : List UInt8) (l : List Place) : List Place :=
  (l.takeWhile fun p => !onPlace slotEnd m p).filter fun p =>
    onPlace slotLive m p && pre.isPrefixOf (shownAt m p)

/-- Store shown names and attributes in consecutive elements. -/
def fill (m : Bytes) (entries : ℕ → Dirent) : ℕ → List Place → ℕ → Dirent
  | _, [] => entries
  | k, p::rest =>
    fill m (Function.update entries k ((entries k).store (shownAt m p) (attrAt m p))) (k+1) rest

/-- A slot that does not end the directory is shown when its name matches. -/
theorem matching_cons {p : Place} {l : List Place} (hend : onPlace slotEnd m p=false) :
    matching m pre (p::l)=
      if onPlace slotShort m p=true ∧ pre<+:shownAt m p then p::matching m pre l
      else matching m pre l := by
  have hlive : onPlace slotLive m p=onPlace slotShort m p := by
    simp only [onPlace] at hend ⊢
    rw [slotLive,hend]
    rfl
  rw [matching,List.takeWhile_cons_of_pos (by rw [hend]; rfl),List.filter_cons,hlive]
  simp only [Bool.and_eq_true,List.isPrefixOf_iff_prefix]
  rfl

/-- Collecting goes through the matching slots. -/
theorem scan_matching (hpre : 0∉pre) (maxEntries : ℕ) (l : List Place) (k : ℕ)
    (entries : ℕ → Dirent) :
    (scanPlaces (fun seen => decide (seen.1 < maxEntries)) (matchEnter pre) m l (k,entries)).2=
      (k+((matching m pre l).take (maxEntries-k)).length,
        fill m entries k ((matching m pre l).take (maxEntries-k))) := by
  induction l generalizing k entries with
  | nil => simp [scanPlaces,matching,fill]
  | cons p rest ih =>
    rw [scanPlaces]
    by_cases hmore : k < maxEntries
    · rw [if_pos (decide_eq_true hmore)]
      cases hend : onPlace slotEnd m p with
      | true => simp [matching,hend,fill]
      | false =>
        rw [if_neg Bool.false_ne_true,matching_cons hend]
        obtain ⟨n,hn⟩ : ∃ n, maxEntries-k=n+1 := ⟨maxEntries-k-1,by omega⟩
        have hn' : maxEntries-(k+1)=n := by omega
        cases hshort : onPlace slotShort m p with
        | false =>
          rw [if_neg Bool.false_ne_true,if_neg fun h => Bool.false_ne_true h.1]
          exact ih k entries
        | true =>
          rw [if_pos rfl]
          by_cases hmatch : pre<+:shownAt m p
          · have henter : matchEnter pre (sectorOf m p.1) p.2 (k,entries)=(k+1,
                Function.update entries k ((entries k).store (shownAt m p) (attrAt m p))) := by
              rw [matchEnter]
              exact if_pos ((strncmp_starts hpre).mpr hmatch)
            rw [henter,ih,if_pos ⟨rfl,hmatch⟩,hn,hn',List.take_succ_cons,List.length_cons,fill]
            congr 1
            omega
          · have henter : matchEnter pre (sectorOf m p.1) p.2 (k,entries)=(k,entries) := by
              rw [matchEnter]
              exact if_neg fun h => hmatch ((strncmp_starts hpre).mp h)
            rw [henter,if_neg fun h => hmatch h.2]
            exact ih k entries
    · have hzero : maxEntries-k=0 := by omega
      rw [if_neg (by simpa using hmore),hzero]
      rfl

/-- The element holds a text, its terminator and attributes, and otherwise what it
held before. -/
structure Holding (old new : Dirent) (text : List UInt8) (attr : ℕ) : Prop where
  /-- The text. -/
  chars : ∀ i (h : i<text.length), new.name i=text[i]
  /-- The terminator. -/
  terminator : new.name text.length=0
  /-- The rest of the array. -/
  rest : ∀ i, text.length < i → new.name i=old.name i
  /-- The attributes. -/
  attrs : new.attr=attr

/-- Shown names have at most twelve characters. -/
theorem displayName_length (name : List UInt8) : (displayName name).length≤12 := by
  have h1 : ((name.take 8).takeWhile (· ≠ 0x20)).length≤8 :=
    (List.takeWhile_sublist _).length_le.trans (List.length_take_le _ _)
  have h2 : (((name.drop 8).take 3).takeWhile (· ≠ 0x20)).length≤3 :=
    (List.takeWhile_sublist _).length_le.trans (List.length_take_le _ _)
  rw [displayName]
  split
  · rw [List.length_append,List.length_cons]
    omega
  · omega

/-- A stored element. -/
theorem holding_store (old : Dirent) {text : List UInt8} (attr : ℕ) (h : text.length≤63) :
    Holding old (old.store text attr) text attr := by
  have htake : text.take 63=text := List.take_of_length_le h
  have hmin : min text.length 63=text.length := min_eq_left h
  have hbytes : ∀ i, i<text.length+1 → (old.store text attr).name i=textBytes text i := by
    intro i hi
    have := @copyRange_inside old.name (textBytes text) 0 (text.length+1) i hi
    rw [Nat.zero_add] at this
    rw [Dirent.store,htake,hmin]
    exact this
  refine ⟨fun i hi => ?_,?_,fun i hi => ?_,rfl⟩
  · rw [hbytes i (by omega),textBytes,List.getD_eq_getElem _ _ hi]
  · rw [hbytes _ (by omega),textBytes,List.getD_eq_default _ _ le_rfl]
  · rw [Dirent.store,hmin]
    exact copyRange_outside (by omega)

/-- Filling leaves the other elements alone. -/
theorem fill_outside {entries : ℕ → Dirent} {k i : ℕ} {l : List Place}
    (h : i<k ∨ k+l.length ≤ i) : fill m entries k l i=entries i := by
  induction l generalizing entries k with
  | nil => rfl
  | cons p rest ih =>
    rw [List.length_cons] at h
    rw [fill,ih (by omega),Function.update_of_ne (by omega)]

/-- Filling stores every slot in its element. -/
theorem fill_holding (entries : ℕ → Dirent) (k : ℕ) (l : List Place) (i : ℕ) (hi : i<l.length) :
    Holding (entries (k+i)) (fill m entries k l (k+i)) (shownAt m l[i]) (attrAt m l[i]) := by
  induction l generalizing entries k i with
  | nil => cases hi
  | cons p rest ih =>
    rw [fill]
    cases i with
    | zero =>
      rw [fill_outside (by omega),Nat.add_zero,Function.update_self]
      exact holding_store _ _ ((displayName_length _).trans (by norm_num))
    | succ i =>
      have h := ih (Function.update entries k ((entries k).store (shownAt m p) (attrAt m p)))
        (k+1) i (by simpa using hi)
      rw [Function.update_of_ne (by omega),show k+1+i=k+(i+1) by omega] at h
      exact h

/-- Completion lists the first entries before the end of the directory whose shown
names start with the prefix, and stores nothing else. -/
theorem completion_lists (hd : Faultless d) (hchain : Chain (link v d.bytes) Ends start nodes)
    (hpre : 0∉pre) (entries : ℕ → Dirent) (maxEntries : ℕ) {rounds : ℕ}
    (hrounds : nodes.length≤rounds) :
    ∃ entries', fat32MatchPrefix v pre start entries maxEntries rounds d=
        some ((((matching d.bytes pre (places v nodes)).take maxEntries).length,entries'),d) ∧
      (∀ i (hi : i<((matching d.bytes pre (places v nodes)).take maxEntries).length),
        Holding (entries i) (entries' i)
          (shownAt d.bytes ((matching d.bytes pre (places v nodes)).take maxEntries)[i])
          (attrAt d.bytes ((matching d.bytes pre (places v nodes)).take maxEntries)[i])) ∧
      ∀ i, ((matching d.bytes pre (places v nodes)).take maxEntries).length ≤ i →
        entries' i=entries i := by
  refine ⟨fill d.bytes entries 0 ((matching d.bytes pre (places v nodes)).take maxEntries),
    ?_,fun i hi => ?_,fun i hi => fill_outside (Or.inr (by omega))⟩
  · rw [fat32MatchPrefix,scanChain_places hd hchain hrounds,scan_matching hpre,Nat.sub_zero,
      Nat.zero_add]
  · have := fill_holding (m:=d.bytes) entries 0 _ i hi
    rwa [Nat.zero_add] at this

/-- Completion of the letter `A` on the sample disk. -/
theorem sampleDisk_completion : ∃ entries', fat32MatchPrefix sampleVolume [0x41] 2
      (fun _ => ⟨fun _ => 0x20,0⟩) 3 1 sampleDisk=some ((1,entries'),sampleDisk) ∧
    (entries' 0).name 0=0x41 ∧ (entries' 0).name 1=0 ∧ (entries' 1).name 0=0x20 := by
  have hfound : (matching sampleDisk.bytes [0x41]
      (places sampleVolume [2])).take 3=[(2,0)] := by decide +kernel
  have hshown : shownAt sampleDisk.bytes (2,0)=[0x41] := by decide +kernel
  obtain ⟨entries',hresult,hheld,hrest⟩ := completion_lists (show Faultless sampleDisk from rfl)
    sampleDisk_root.chain (show (0 : UInt8)∉[0x41] by decide)
    (fun _ => ⟨fun _ => 0x20,0⟩) 3 (show [2].length≤1 from le_rfl)
  rw [hfound] at hresult hrest
  have hzero := hheld 0 (by rw [hfound]; decide)
  simp only [hfound,List.getElem_cons_zero,hshown] at hzero
  refine ⟨entries',hresult,hzero.chars 0 (by decide),hzero.terminator,?_⟩
  rw [hrest 1 (by decide)]

end OvsbMk.FatCompletion
