import OvsbMk.FatHalts

/-!
# Climbing to the root

`fat32_get_cwd_name` goes from a directory to its parent and looks there for the
entry that leads back, until it is at the root. On a faultless disk every search
stops at the end of the parent's chain or at that entry, and the climb ends within
the stack exactly when the parents lead to the root, all searches end and the names
found fit. This completes the account of the walks that need not end.
-/

namespace OvsbMk.FatClimbs

open ByteMemory BlockDisk Fat32 Chains FatTable FatData FatDirectory FatFiles FatViews FatScans
open FatCompletion FatHalts

variable {v : Volume} {d : Disk} {c : ℕ} {test : Bytes → ℕ → Bool}

/-- The parent of a directory, by the entry with two dots in its first sector. -/
def parentOf (v : Volume) (m : Bytes) (c : ℕ) : ℕ :=
  match (sectorPlaces (clusterToSector v c)).find? (onPlace slotParent m) with
  | none => v.rootCluster
  | some p => denoted v (leadsTo m p)

/-- The parent that `fat32_get_cwd_name` finds. -/
theorem parentCluster_eq (hd : Faultless d) (v : Volume) (c : ℕ) :
    parentCluster v c d=(parentOf v d.bytes c,d) := by
  rw [parentCluster,hd.read,parentOf]
  rcases firstSlot_cases slotParent d.bytes (clusterToSector v c) with ⟨h1,h2⟩ | ⟨a,h1,h2⟩
  · rw [h2]
    have h1' : firstSlot slotParent (fun b => d.bytes (sectorAddr (clusterToSector v c)+b))=none := h1
    dsimp only
    rw [h1']
  · rw [h2]
    have h1' : firstSlot slotParent (fun b => d.bytes (sectorAddr (clusterToSector v c)+b))=
      some a := h1
    dsimp only
    rw [h1']
    rfl

/-- The search for the name of a directory stops at a cluster: the chain ends
here, or an entry leads to the directory. -/
def SearchStops (v : Volume) (m : Bytes) (c x : ℕ) : Prop :=
  Ends x ∨ ∃ p∈clusterPlaces v x, onPlace (slotLeads c) m p=true

/-- The search for the name of a directory is stopped by an entry. -/
def Named (v : Volume) (m : Bytes) (c pc : ℕ) : Prop :=
  ∃ n, (∀ i ≤ n, ¬Ends ((link v m)^[i] pc)) ∧
    ∃ p∈clusterPlaces v ((link v m)^[n] pc), onPlace (slotLeads c) m p=true

/-- The search in the sectors of a cluster. -/
theorem nameSectors_places (hd : Faultless d) (c sector count s : ℕ) :
    nameSectors c sector count s d=
      (((runPlaces sector s count).find? (onPlace (slotLeads c) d.bytes)).map fun p =>
        (entryAt (sectorOf d.bytes p.1) p.2).name,d) := by
  induction count generalizing s with
  | zero => rfl
  | succ count ih =>
    rw [nameSectors,hd.read,runPlaces_succ,List.find?_append]
    dsimp only
    rcases firstSlot_cases (slotLeads c) d.bytes ((sector+s)%2^32) with ⟨h1,h2⟩ | ⟨a,h1,h2⟩
    · have h1' : firstSlot (slotLeads c) (fun b => d.bytes (sectorAddr ((sector+s)%2^32)+b))=none :=
        h1
      rw [h1',h2,Option.none_or]
      exact ih (s+1)
    · have h1' : firstSlot (slotLeads c) (fun b => d.bytes (sectorAddr ((sector+s)%2^32)+b))=
        some a := h1
      rw [h1',h2]
      rfl

/-- A round of the search for a name. -/
theorem nameChain_round (hd : Faultless d) {c pc : ℕ} (hends : ¬Ends pc) (rounds : ℕ) :
    nameChain v c (rounds+1) pc d=
      match (clusterPlaces v pc).find? (onPlace (slotLeads c) d.bytes) with
      | some p => some (some (entryAt (sectorOf d.bytes p.1) p.2).name,d)
      | none => nameChain v c rounds (link v d.bytes pc) d := by
  have hplaces : clusterPlaces v pc=runPlaces (clusterToSector v pc) 0 v.sectorsPerCluster := rfl
  rw [nameChain,if_pos (not_not.mp hends),hplaces]
  dsimp only
  rw [nameSectors_places hd]
  cases (runPlaces (clusterToSector v pc) 0 v.sectorsPerCluster).find?
      (onPlace (slotLeads c) d.bytes) with
  | none =>
    dsimp only [Option.map]
    rw [readEntry_next hd hends]
  | some p =>
    dsimp only [Option.map]
    rw [readEntry_next hd hends]

/-- A search that starts at the end of a chain. -/
theorem nameChain_ends {pc : ℕ} (h : Ends pc) (rounds : ℕ) :
    nameChain v c rounds pc d=some (none,d) := by
  cases rounds with
  | zero => rw [nameChain,if_neg h]
  | succ rounds => rw [nameChain,if_neg h]

/-- The search for a name ends exactly when the links lead to a cluster where it
stops. -/
theorem nameChain_stops (hd : Faultless d) (v : Volume) (c pc : ℕ) :
    (∃ rounds r, nameChain v c rounds pc d=some r) ↔
      ∃ n, SearchStops v d.bytes c ((link v d.bytes)^[n] pc) := by
  constructor
  · rintro ⟨rounds,r,h⟩
    induction rounds generalizing pc with
    | zero =>
      refine ⟨0,Or.inl fun hin : 2≤pc ∧ pc<endOfChain => ?_⟩
      rw [nameChain,if_pos hin] at h
      cases h
    | succ rounds ih =>
      by_cases hends : Ends pc
      · exact ⟨0,Or.inl hends⟩
      rw [nameChain_round hd hends] at h
      cases hfind : (clusterPlaces v pc).find? (onPlace (slotLeads c) d.bytes) with
      | some p =>
        exact ⟨0,Or.inr ⟨p,List.mem_of_find?_eq_some hfind,List.find?_some hfind⟩⟩
      | none =>
        rw [hfind] at h
        obtain ⟨n,hn⟩ := ih _ h
        exact ⟨n+1,by rwa [Function.iterate_succ_apply]⟩
  · rintro ⟨n,h⟩
    induction n generalizing pc with
    | zero =>
      by_cases hends : Ends pc
      · exact ⟨0,_,nameChain_ends hends 0⟩
      refine ⟨1,?_⟩
      rw [nameChain_round hd hends]
      cases hfind : (clusterPlaces v pc).find? (onPlace (slotLeads c) d.bytes) with
      | some p => exact ⟨_,rfl⟩
      | none =>
        obtain ⟨p,hp,ht⟩ := h.resolve_left hends
        exact (List.find?_eq_none.mp hfind p hp ht).elim
    | succ n ih =>
      rw [Function.iterate_succ_apply] at h
      by_cases hends : Ends pc
      · exact ⟨0,_,nameChain_ends hends 0⟩
      obtain ⟨rounds,r,hr⟩ := ih _ h
      refine ⟨rounds+1,?_⟩
      rw [nameChain_round hd hends]
      cases (clusterPlaces v pc).find? (onPlace (slotLeads c) d.bytes) with
      | some p => exact ⟨_,rfl⟩
      | none => exact ⟨r,hr⟩

/-- More rounds do not change the result of a search. -/
theorem nameChain_mono (hd : Faultless d) {pc rounds : ℕ} {r : Option (List UInt8)×Disk}
    (h : nameChain v c rounds pc d=some r) (extra : ℕ) :
    nameChain v c (rounds+extra) pc d=some r := by
  induction rounds generalizing pc with
  | zero =>
    by_cases hends : Ends pc
    · rw [nameChain_ends hends] at h ⊢
      exact h
    · rw [nameChain,if_pos (not_not.mp hends)] at h
      cases h
  | succ rounds ih =>
    by_cases hends : Ends pc
    · rw [nameChain_ends hends] at h ⊢
      exact h
    · rw [Nat.add_right_comm]
      rw [nameChain_round hd hends] at h ⊢
      cases hfind : (clusterPlaces v pc).find? (onPlace (slotLeads c) d.bytes) with
      | some p =>
        rw [hfind] at h
        exact h
      | none =>
        rw [hfind] at h
        exact ih h

/-- Where a chain ends there is no name. -/
theorem not_named_of_ends {m : Bytes} {pc : ℕ} (hends : Ends pc) : ¬Named v m c pc := by
  rintro ⟨n,hn,_⟩
  exact hn 0 (Nat.zero_le n) hends

/-- Behind a cluster without a name, the name is that of the rest of the chain. -/
theorem named_next {m : Bytes} {pc : ℕ} (hends : ¬Ends pc)
    (hmiss : ∀ p∈clusterPlaces v pc, ¬onPlace (slotLeads c) m p=true) :
    Named v m c (link v m pc) ↔ Named v m c pc := by
  constructor
  · rintro ⟨n,hn,hp⟩
    refine ⟨n+1,fun i hi => ?_,by rwa [Function.iterate_succ_apply]⟩
    cases i with
    | zero => exact hends
    | succ i =>
      rw [Function.iterate_succ_apply]
      exact hn i (by omega)
  · rintro ⟨n,hn,hp⟩
    cases n with
    | zero =>
      obtain ⟨p,hmem,ht⟩ := hp
      exact (hmiss p hmem ht).elim
    | succ n =>
      refine ⟨n,fun i hi => ?_,by rwa [Function.iterate_succ_apply] at hp⟩
      have hnext := hn (i+1) (by omega)
      rwa [Function.iterate_succ_apply] at hnext

/-- A search that begins at the end of a chain finds nothing. -/
theorem nameChain_ended {pc rounds : ℕ} {r : Option (List UInt8)} {d' : Disk} (hends : Ends pc)
    (h : nameChain v c rounds pc d=some (r,d')) :
    d'=d ∧ (r.isSome=true ↔ Named v d.bytes c pc) := by
  rw [nameChain_ends hends] at h
  simp only [Option.some.injEq,Prod.mk.injEq] at h
  obtain ⟨rfl,rfl⟩ := h
  exact ⟨rfl,iff_of_false (by simp) (not_named_of_ends hends)⟩

/-- A search leaves the disk alone and has a name exactly when an entry stopped
it. -/
theorem nameChain_named (hd : Faultless d) {pc rounds : ℕ} {r : Option (List UInt8)} {d' : Disk}
    (h : nameChain v c rounds pc d=some (r,d')) :
    d'=d ∧ (r.isSome=true ↔ Named v d.bytes c pc) := by
  induction rounds generalizing pc with
  | zero =>
    by_cases hends : Ends pc
    · exact nameChain_ended hends h
    · rw [nameChain,if_pos (not_not.mp hends)] at h
      cases h
  | succ rounds ih =>
    by_cases hends : Ends pc
    · exact nameChain_ended hends h
    · rw [nameChain_round hd hends] at h
      cases hfind : (clusterPlaces v pc).find? (onPlace (slotLeads c) d.bytes) with
      | some p =>
        rw [hfind] at h
        simp only [Option.some.injEq,Prod.mk.injEq] at h
        obtain ⟨rfl,rfl⟩ := h
        refine ⟨rfl,iff_of_true rfl ⟨0,fun i hi => ?_,p,List.mem_of_find?_eq_some hfind,
          List.find?_some hfind⟩⟩
        obtain rfl : i=0 := by omega
        exact hends
      | none =>
        rw [hfind] at h
        obtain ⟨hdisk,hiff⟩ := ih h
        exact ⟨hdisk,hiff.trans (named_next hends (List.find?_eq_none.mp hfind))⟩

/-- Nothing is left to climb from the root. -/
theorem climb_root (v : Volume) (rounds : ℕ) (stack : List (List UInt8)) (d : Disk) :
    climb v rounds v.rootCluster stack d=some (some stack,d) := by
  cases rounds with
  | zero => rw [climb,if_neg (not_not.mpr rfl)]
  | succ rounds => rw [climb,if_neg (not_not.mpr rfl)]

/-- A round of the climb. -/
theorem climb_round (hd : Faultless d) {c : ℕ} (hc : c≠v.rootCluster) (rounds : ℕ)
    (stack : List (List UInt8)) : climb v (rounds+1) c stack d=
      match nameChain v c rounds (parentOf v d.bytes c) d with
      | none => none
      | some (none,d) => climb v rounds (parentOf v d.bytes c) stack d
      | some (some name,d) =>
        if stack.length < stackSize then climb v rounds (parentOf v d.bytes c) (name::stack) d
        else some (none,d) := by
  rw [climb,if_pos hc]
  dsimp only
  rw [parentCluster_eq hd]
  dsimp only
  rcases hname : nameChain v c rounds (parentOf v d.bytes c) d with _ | ⟨_ | name,d'⟩
  · rfl
  · obtain ⟨rfl,_⟩ := nameChain_named hd hname
    rfl
  · obtain ⟨rfl,_⟩ := nameChain_named hd hname
    rfl

/-- More rounds do not change the result of a climb. -/
theorem climb_mono (hd : Faultless d) {c rounds : ℕ} {stack : List (List UInt8)}
    {r : Option (List (List UInt8))×Disk} (h : climb v rounds c stack d=some r) (extra : ℕ) :
    climb v (rounds+extra) c stack d=some r := by
  induction rounds generalizing c stack with
  | zero =>
    by_cases hc : c=v.rootCluster
    · subst hc
      rw [climb_root] at h ⊢
      exact h
    · rw [climb,if_pos hc] at h
      cases h
  | succ rounds ih =>
    by_cases hc : c=v.rootCluster
    · subst hc
      rw [climb_root] at h ⊢
      exact h
    · rw [Nat.add_right_comm]
      rw [climb_round hd hc] at h ⊢
      rcases hname : nameChain v c rounds (parentOf v d.bytes c) d with _ | ⟨_ | name,d'⟩
      · rw [hname] at h
        cases h
      · obtain ⟨rfl,_⟩ := nameChain_named hd hname
        rw [hname] at h
        rw [nameChain_mono hd hname]
        exact ih h
      · obtain ⟨rfl,_⟩ := nameChain_named hd hname
        rw [hname] at h
        rw [nameChain_mono hd hname]
        dsimp only at h ⊢
        split at h
        next hroom =>
          rw [if_pos hroom]
          exact ih h
        next hroom =>
          rw [if_neg hroom]
          exact h

/-- The climb from a directory ends with its names on the stack. -/
def ClimbEnds (v : Volume) (m : Bytes) (cwd room : ℕ) : Prop :=
  ∃ levels, Chain (parentOf v m) (· = v.rootCluster) cwd levels ∧
    (∀ c∈levels, ∃ n, SearchStops v m c ((link v m)^[n] (parentOf v m c))) ∧
    ∀ named : List ℕ, named.Sublist levels → (∀ c∈named, Named v m c (parentOf v m c)) →
      named.length≤room

/-- Nothing is needed at the root. -/
theorem climbEnds_root (v : Volume) (m : Bytes) (room : ℕ) : ClimbEnds v m v.rootCluster room := by
  refine ⟨[],chain_nil.mpr rfl,(by simp),fun named hsub _ => ?_⟩
  rw [List.sublist_nil.mp hsub]
  exact Nat.zero_le _

/-- A directory whose name is found takes one place of the stack. -/
theorem climbEnds_named {m : Bytes} {cwd room : ℕ} (hc : cwd≠v.rootCluster)
    (hnamed : Named v m cwd (parentOf v m cwd)) : ClimbEnds v m cwd room ↔
      (∃ n, SearchStops v m cwd ((link v m)^[n] (parentOf v m cwd))) ∧
        ∃ left, room=left+1 ∧ ClimbEnds v m (parentOf v m cwd) left := by
  constructor
  · rintro ⟨levels,h1,h2,h3⟩
    obtain ⟨rest,rfl,hrest⟩ := h1.exists_cons hc
    have hall : ∀ named : List ℕ, named.Sublist rest →
        (∀ c∈named, Named v m c (parentOf v m c)) → named.length+1 ≤ room := by
      intro named hsub hall
      have := h3 (cwd::named) (hsub.cons_cons cwd) (List.forall_mem_cons.mpr ⟨hnamed,hall⟩)
      rwa [List.length_cons] at this
    have hone := hall [] (List.nil_sublist _) (by simp)
    obtain ⟨left,rfl⟩ : ∃ k, room=k+1 := ⟨room-1,by omega⟩
    exact ⟨h2 cwd List.mem_cons_self,left,rfl,rest,hrest,
      fun c hmem => h2 c (List.mem_cons_of_mem _ hmem),
      fun named hsub hn => Nat.le_of_succ_le_succ (hall named hsub hn)⟩
  · rintro ⟨hstop,left,rfl,levels,h1,h2,h3⟩
    refine ⟨cwd::levels,chain_cons.mpr ⟨rfl,hc,h1⟩,List.forall_mem_cons.mpr ⟨hstop,h2⟩,
      fun named hsub hall => ?_⟩
    cases hsub with
    | cons _ hsub => exact (h3 named hsub hall).trans (Nat.le_succ left)
    | cons_cons _ hsub =>
      rw [List.length_cons]
      exact Nat.succ_le_succ (h3 _ hsub fun c hmem => hall c (List.mem_cons_of_mem _ hmem))

/-- A directory whose name is not found takes none. -/
theorem climbEnds_unnamed {m : Bytes} {cwd room : ℕ} (hc : cwd≠v.rootCluster)
    (hnamed : ¬Named v m cwd (parentOf v m cwd)) : ClimbEnds v m cwd room ↔
      (∃ n, SearchStops v m cwd ((link v m)^[n] (parentOf v m cwd))) ∧
        ClimbEnds v m (parentOf v m cwd) room := by
  constructor
  · rintro ⟨levels,h1,h2,h3⟩
    obtain ⟨rest,rfl,hrest⟩ := h1.exists_cons hc
    exact ⟨h2 cwd List.mem_cons_self,rest,hrest,fun c hmem => h2 c (List.mem_cons_of_mem _ hmem),
      fun named hsub hall => h3 named (hsub.cons cwd) hall⟩
  · rintro ⟨hstop,levels,h1,h2,h3⟩
    refine ⟨cwd::levels,chain_cons.mpr ⟨rfl,hc,h1⟩,List.forall_mem_cons.mpr ⟨hstop,h2⟩,
      fun named hsub hall => ?_⟩
    cases hsub with
    | cons _ hsub => exact h3 named hsub hall
    | cons_cons _ _ => exact (hnamed (hall cwd List.mem_cons_self)).elim

/-- A climb that ends within the stack went from parent to parent to the root. -/
theorem climb_arrives (hd : Faultless d) {v : Volume} {rounds cwd room : ℕ}
    {stack names : List (List UInt8)} {d' : Disk} (hroom : stack.length+room=stackSize)
    (h : climb v rounds cwd stack d=some (some names,d')) : ClimbEnds v d.bytes cwd room := by
  induction rounds generalizing cwd stack room with
  | zero =>
    by_cases hc : cwd=v.rootCluster
    · rw [hc]
      exact climbEnds_root v d.bytes room
    · rw [climb,if_pos hc] at h
      cases h
  | succ rounds ih =>
    by_cases hc : cwd=v.rootCluster
    · rw [hc]
      exact climbEnds_root v d.bytes room
    rw [climb_round hd hc] at h
    rcases hname : nameChain v cwd rounds (parentOf v d.bytes cwd) d with _ | ⟨_ | name,d1⟩
    · rw [hname] at h
      cases h
    · obtain ⟨rfl,hnamed⟩ := nameChain_named hd hname
      rw [hname] at h
      exact (climbEnds_unnamed hc fun hn => by cases hnamed.mpr hn).mpr
        ⟨(nameChain_stops hd v cwd _).mp ⟨_,_,hname⟩,ih hroom h⟩
    · obtain ⟨rfl,hnamed⟩ := nameChain_named hd hname
      rw [hname] at h
      dsimp only at h
      split at h
      next hlt =>
        obtain ⟨left,rfl⟩ : ∃ k, room=k+1 := ⟨room-1,by omega⟩
        exact (climbEnds_named hc (hnamed.mp rfl)).mpr
          ⟨(nameChain_stops hd v cwd _).mp ⟨_,_,hname⟩,left,rfl,
            ih (show (name::stack).length+left=stackSize by rw [List.length_cons]; omega) h⟩
      next => cases h

/-- A climb whose searches end and whose names fit comes to the root. -/
theorem climb_completes (hd : Faultless d) {v : Volume} {cwd room : ℕ} {stack : List (List UInt8)}
    (hroom : stack.length+room=stackSize) (h : ClimbEnds v d.bytes cwd room) :
    ∃ rounds names d', climb v rounds cwd stack d=some (some names,d') := by
  obtain ⟨levels,hchain,-⟩ := id h
  induction levels generalizing cwd stack room with
  | nil =>
    obtain rfl := chain_nil.mp hchain
    exact ⟨0,stack,d,climb_root v 0 stack d⟩
  | cons c rest ih =>
    obtain ⟨rfl,hc,hrest⟩ := chain_cons.mp hchain
    by_cases hnamed : Named v d.bytes cwd (parentOf v d.bytes cwd)
    · obtain ⟨hstop,left,rfl,hends⟩ := (climbEnds_named hc hnamed).mp h
      obtain ⟨r1,⟨name,d1⟩,hname⟩ := (nameChain_stops hd v cwd _).mpr hstop
      obtain ⟨rfl,hsome⟩ := nameChain_named hd hname
      obtain ⟨name,rfl⟩ := Option.isSome_iff_exists.mp (hsome.mpr hnamed)
      obtain ⟨r2,names,d2,hclimb⟩ := ih
        (show (name::stack).length+left=stackSize by rw [List.length_cons]; omega) hends hrest
      refine ⟨r1+r2+1,names,d2,?_⟩
      rw [climb_round hd hc,nameChain_mono hd hname]
      dsimp only
      rw [if_pos (by omega),Nat.add_comm r1 r2]
      exact climb_mono hd hclimb r1
    · obtain ⟨hstop,hends⟩ := (climbEnds_unnamed hc hnamed).mp h
      obtain ⟨r1,⟨name,d1⟩,hname⟩ := (nameChain_stops hd v cwd _).mpr hstop
      obtain ⟨rfl,hsome⟩ := nameChain_named hd hname
      obtain rfl : name=none := Option.not_isSome_iff_eq_none.mp (hsome.not.mpr hnamed)
      obtain ⟨r2,names,d2,hclimb⟩ := ih hroom hends hrest
      refine ⟨r1+r2+1,names,d2,?_⟩
      rw [climb_round hd hc,nameChain_mono hd hname]
      dsimp only
      rw [Nat.add_comm r1 r2]
      exact climb_mono hd hclimb r1

/-- The climb ends within the stack exactly when the parents lead to the root, the
search for every name on the way ends and the names found fit on the stack. -/
theorem climb_ends (hd : Faultless d) (v : Volume) {cwd room : ℕ} {stack : List (List UInt8)}
    (hroom : stack.length+room=stackSize) :
    (∃ rounds names d', climb v rounds cwd stack d=some (some names,d')) ↔
      ClimbEnds v d.bytes cwd room :=
  ⟨fun ⟨_,_,_,h⟩ => climb_arrives hd hroom h,climb_completes hd hroom⟩

/-- The walks of the driver through directories end exactly when the links lead to
the end of a chain, to a failed transfer or to a slot that stops the walk: for a
search the name or the end of the directory, for a new entry a free slot, for a new
name the old one, for a list the end of the directory, for completion this or
enough matching entries; for the path, when the parents lead to the root, every
search on the way ends and the names found fit on the stack. -/
theorem walks_end_iff (v : Volume) (d : Disk) (start : ℕ) (name newname pre : List UInt8)
    (attr maxEntries : ℕ) (entries : ℕ → Dirent) (hpre : 0∉pre) :
    ((∃ rounds r, walkChain v (findVisit (nameTo83 name)) rounds start d=some r) ↔
        Arrives v d (stopTest (nameTo83 name)) start) ∧
      ((∃ rounds r, walkChain v (createVisit (nameTo83 name) attr) rounds start d=some r) ↔
        Arrives v d slotFree start) ∧
      ((∃ rounds r, walkChain v (renameVisit (nameTo83 name) (nameTo83 newname)) rounds start d=
          some r) ↔ Arrives v d (slotNamed (nameTo83 name)) start) ∧
      ((∃ rounds r, listDirAt v start rounds d=some r) ↔ Arrives v d slotEnd start) ∧
      ((∃ rounds r, fat32MatchPrefix v pre start entries maxEntries rounds d=some r) ↔
        ∃ n, Halts v d slotEnd (n*(v.sectorsPerCluster+1)) ((link v d.bytes)^[n] start) ∨
          maxEntries≤∑ i∈Finset.range n,
            (matching d.bytes pre (clusterPlaces v ((link v d.bytes)^[i] start))).length) ∧
      (Faultless d → ((∃ rounds names d', climb v rounds start [] d=some (some names,d')) ↔
        ClimbEnds v d.bytes start stackSize)) :=
  ⟨walkChain_arrives (findVisit_reads _) v d start,
    walkChain_arrives (createVisit_reads _ _) v d start,
    walkChain_arrives (renameVisit_reads _ _) v d start,listDirAt_arrives v d start,
    matchPrefix_arrives hpre v d start entries maxEntries,
    fun hd => climb_ends hd v (by rw [List.length_nil,Nat.zero_add])⟩

/-- The search for a name on the sample disk ends. -/
theorem sampleDisk_find_ends :
    ∃ rounds r, walkChain sampleVolume (findVisit (nameTo83 [0x42])) rounds 2 sampleDisk=some r :=
  (walks_end_iff sampleVolume sampleDisk 2 [0x42] [0x43] [0x41] 0x20 1 (fun _ => ⟨fun _ => 0,0⟩)
    (by decide)).1.mpr ⟨0,Or.inr (Or.inl ⟨(2,32),by decide +kernel,by decide +kernel⟩)⟩

/-- A disk whose root directory is full of files `A` and is followed by itself. -/
def fullDisk : Disk :=
  ⟨copyRange (storeBytes (fun _ => 0) 520 4 2) 1024 512 fun _ => 0x41,fun _ _ _ => false⟩

/-- The links of the full disk never leave its root. -/
theorem fullDisk_link (n : ℕ) : (link sampleVolume fullDisk.bytes)^[n] 2=2 :=
  Function.iterate_fixed (by decide +kernel) n

/-- A walk through the full root directory never comes to a last round. -/
theorem fullDisk_goes_on (h : ∀ p∈clusterPlaces sampleVolume 2, onPlace test fullDisk.bytes p=false)
    (n k : ℕ) : ¬Halts sampleVolume fullDisk test k ((link sampleVolume fullDisk.bytes)^[n] 2) := by
  rw [fullDisk_link]
  rintro (hends | ⟨p,hp,ht⟩ | (⟨j,_,hf⟩ | hf))
  · exact hends ⟨by decide,by decide⟩
  · rw [h p hp] at ht
    cases ht
  · cases hf
  · cases hf

/-- On the full disk no walk through the root directory ends, and none that looks
for the path of another one. -/
theorem fullDisk_never_ends :
    (¬∃ rounds r, walkChain sampleVolume (findVisit (nameTo83 [0x42])) rounds 2 fullDisk=some r) ∧
      (¬∃ rounds r, walkChain sampleVolume (createVisit (nameTo83 [0x42]) 0x20) rounds 2 fullDisk=
        some r) ∧
      (¬∃ rounds r, walkChain sampleVolume (renameVisit (nameTo83 [0x42]) (nameTo83 [0x43])) rounds 2
        fullDisk=some r) ∧
      (¬∃ rounds r, listDirAt sampleVolume 2 rounds fullDisk=some r) ∧
      (¬∃ rounds r, fat32MatchPrefix sampleVolume [0x42] 2 (fun _ => ⟨fun _ => 0,0⟩) 1 rounds fullDisk=
        some r) ∧
      ¬∃ rounds names d', climb sampleVolume rounds 3 [] fullDisk=some (some names,d') := by
  refine ⟨?_,?_,?_,?_,?_,?_⟩
  · rw [walkChain_arrives (findVisit_reads _)]
    rintro ⟨n,hn⟩
    exact fullDisk_goes_on (by decide +kernel) n _ hn
  · rw [walkChain_arrives (createVisit_reads _ _)]
    rintro ⟨n,hn⟩
    exact fullDisk_goes_on (by decide +kernel) n _ hn
  · rw [walkChain_arrives (renameVisit_reads _ _)]
    rintro ⟨n,hn⟩
    exact fullDisk_goes_on (by decide +kernel) n _ hn
  · rw [listDirAt_arrives]
    rintro ⟨n,hn⟩
    exact fullDisk_goes_on (by decide +kernel) n _ hn
  · rw [matchPrefix_arrives (by decide)]
    rintro ⟨n,hn | hn⟩
    · exact fullDisk_goes_on (by decide +kernel) n _ hn
    · have hnone : matching fullDisk.bytes [0x42] (clusterPlaces sampleVolume 2)=[] := by
        decide +kernel
      simp only [fullDisk_link,hnone,List.length_nil,Finset.sum_const_zero] at hn
      omega
  · rw [climb_ends (show Faultless fullDisk from rfl) sampleVolume (Nat.zero_add stackSize)]
    rintro ⟨levels,hchain,hsearch,_⟩
    have hroot : (3 : ℕ)≠sampleVolume.rootCluster := by decide
    obtain ⟨rest,rfl,_⟩ := hchain.exists_cons hroot
    obtain ⟨n,hn⟩ := hsearch 3 List.mem_cons_self
    have hparent : parentOf sampleVolume fullDisk.bytes 3=2 := by decide +kernel
    have hnone : ∀ p∈clusterPlaces sampleVolume 2, onPlace (slotLeads 3) fullDisk.bytes p=false := by
      decide +kernel
    rw [hparent,fullDisk_link] at hn
    rcases hn with hends | ⟨p,hp,ht⟩
    · exact hends ⟨by decide,by decide⟩
    · rw [hnone p hp] at ht
      cases ht

end OvsbMk.FatClimbs
