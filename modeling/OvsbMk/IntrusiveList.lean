import OvsbMk.ByteMemory
import OvsbMk.Chains

/-!
# Doubly linked lists threaded through their own nodes

A node is the address of a cell that holds a next and a previous word at
fixed offsets; zero is the null pointer and the list is entered through one
head word. The head word is treated as the next word of the null node, so a
list with members `nodes` is the linked sequence `0 :: nodes ++ [0]` and
insertion at the front and removal are the same kind of local edit. All facts
are stated for arbitrary offsets and for any memory with the edited words, so
they also cover programs that store these words in another order.
-/

namespace OvsbMk.IntrusiveList

open ByteMemory Chains

/-- Offsets of the two link words inside a cell, and the cell's width. -/
structure LinkLayout where
  /-- Offset of the next word. -/
  next : ℕ
  /-- Offset of the previous word. -/
  prev : ℕ
  /-- Width of the cell that holds both words. -/
  span : ℕ
  /-- The next word lies inside the cell. -/
  next_le : next+8 ≤ span
  /-- The previous word lies inside the cell. -/
  prev_le : prev+8 ≤ span
  /-- The two words do not overlap. -/
  apart : next+8≤prev ∨ prev+8≤next

/-- Two address ranges have no common byte. -/
def Apart (a m b n : ℕ) : Prop := a+m≤b ∨ b+n≤a

/-- The next word of a node; the null node's next word is the list head. -/
def successor (o : LinkLayout) (memory : Bytes) (head node : ℕ) : ℕ :=
  if node=0 then load64 memory head else load64 memory (node+o.next)

/-- Replace the next word of a node, or the head word for the null node. -/
def setSuccessor (o : LinkLayout) (memory : Bytes) (head node value : ℕ) : Bytes :=
  if node=0 then store64 memory head value else store64 memory (node+o.next) value

/-- Consecutive entries are linked in both directions. The null node at the
end of a list has no previous word. -/
def Links (o : LinkLayout) (memory : Bytes) (head : ℕ) : List ℕ → Prop
  | x::y::rest => successor o memory head x=y ∧ (y≠0 → load64 memory (y+o.prev)=x) ∧
      Links o memory head (y::rest)
  | _ => True

/-- The memory holds exactly the given members, in this order, on the list
entered through the head word, and no two link cells overlap. -/
structure Listed (o : LinkLayout) (memory : Bytes) (head : ℕ) (nodes : List ℕ) : Prop where
  /-- Both directions of every link, from the head word to the null end. -/
  links : Links o memory head (0::nodes++[0])
  /-- Members are not null. -/
  nonzero : ∀ x∈nodes, x≠0
  /-- Members fit a pointer. -/
  bound : ∀ x∈nodes, x<2^64
  /-- Member cells are pairwise disjoint. -/
  cells : nodes.Pairwise fun x y => Apart x o.span y o.span
  /-- No member cell covers the head word. -/
  headCell : ∀ x∈nodes, Apart x o.span head 8

variable {o : LinkLayout} {memory other : Bytes} {head : ℕ} {nodes before after : List ℕ}

/-- A non-null default-headed first entry is a member. -/
theorem headD_mem {l : List ℕ} (h : l.headD 0≠0) : l.headD 0∈l := by
  cases l with
  | nil => simp at h
  | cons x rest => simp

/-- A non-null default-ended last entry is a member. -/
theorem getLastD_mem {l : List ℕ} (h : l.getLastD 0≠0) : l.getLastD 0∈l := by
  rcases List.eq_nil_or_concat' l with rfl | ⟨front,x,rfl⟩
  · simp at h
  · simp

/-- The entries up to a member end in the entry before it. -/
theorem exists_getLastD (l : List ℕ) : ∃ front, 0::l=front++[l.getLastD 0] := by
  rcases List.eq_nil_or_concat' l with rfl | ⟨front,x,rfl⟩
  · exact ⟨[],rfl⟩
  · exact ⟨0::front,by simp⟩

/-- The entries behind a member begin with the entry after it. -/
theorem exists_headD (l : List ℕ) : ∃ back, l++[0]=l.headD 0::back := by
  cases l with
  | nil => exact ⟨[],rfl⟩
  | cons z back => exact ⟨back++[0],rfl⟩

/-- Links of a concatenation are the links of both halves and the seam. -/
theorem links_append (first : List ℕ) (x : ℕ) (rest : List ℕ) :
    Links o memory head (first++x::rest) ↔
      Links o memory head (first++[x]) ∧ Links o memory head (x::rest) := by
  induction first with
  | nil => simp [Links]
  | cons a tail ih =>
    cases tail with
    | nil => simp only [List.cons_append,List.nil_append,Links,and_true]; tauto
    | cons b tail =>
      simp only [List.cons_append,Links] at ih ⊢
      rw [ih]
      tauto

/-- Links read the next words of all entries but the last and the previous
words of all entries but the first. -/
theorem Links.transport {l : List ℕ} (h : Links o memory head l)
    (hs : ∀ x∈l.dropLast, successor o other head x=successor o memory head x)
    (hp : ∀ y∈l.tail, y≠0 → load64 other (y+o.prev)=load64 memory (y+o.prev)) :
    Links o other head l := by
  induction l with
  | nil => trivial
  | cons x tail ih =>
    cases tail with
    | nil => trivial
    | cons y rest =>
      obtain ⟨hx,hy,hrest⟩ := h
      refine ⟨(hs x (by simp)).trans hx,fun hne => (hp y (by simp) hne).trans (hy hne),?_⟩
      apply ih hrest
      · intro z hz
        exact hs z (by simp [hz])
      · intro z hz
        exact hp z (by simp at hz ⊢; exact Or.inr hz)

/-- Members of a list are distinct, since their cells are disjoint. -/
theorem Listed.nodup (h : Listed o memory head nodes) : nodes.Nodup := by
  apply List.Pairwise.imp _ h.cells
  intro a b hab heq
  have hn := o.next_le
  simp only [Apart,heq] at hab
  omega

/-- Distinct members have disjoint cells. -/
theorem Listed.apart (h : Listed o memory head nodes) {x y : ℕ} (hx : x∈nodes) (hy : y∈nodes)
    (hne : x≠y) : x+o.span≤y ∨ y+o.span≤x := by
  have hs : Std.Symm fun x y => Apart x o.span y o.span := ⟨fun _ _ hab => hab.symm⟩
  exact h.cells.forall hx hy hne

/-- The head word is the first member, or null for the empty list. -/
theorem Listed.head_eq (h : Listed o memory head nodes) : load64 memory head=nodes.headD 0 := by
  have hl := h.links
  cases nodes with
  | nil => simpa [Links,successor] using hl
  | cons x rest =>
    simp only [List.cons_append,Links,successor,if_true] at hl
    exact hl.1

/-- An empty list is a null head word. -/
theorem listed_nil_iff : Listed o memory head [] ↔ load64 memory head=0 := by
  constructor
  · intro h
    simpa using h.head_eq
  · intro h
    exact ⟨by simpa [Links,successor] using h,by simp,by simp,by simp,by simp⟩

/-- A list is given by its head word and the link words of its members. -/
theorem Listed.transport_words (h : Listed o memory head nodes)
    (hh : load64 other head=load64 memory head)
    (hn : ∀ x∈nodes, load64 other (x+o.next)=load64 memory (x+o.next))
    (hp : ∀ x∈nodes, load64 other (x+o.prev)=load64 memory (x+o.prev)) :
    Listed o other head nodes := by
  refine ⟨h.links.transport ?_ ?_,h.nonzero,h.bound,h.cells,h.headCell⟩
  · intro x hx
    have hmem : x=0 ∨ x∈nodes := by
      rw [List.dropLast_concat] at hx
      simpa using hx
    unfold successor
    split
    · exact hh
    · next hne => exact hn x (hmem.resolve_left hne)
  · intro y hy hne
    have hy' : y∈nodes := by
      simp only [List.cons_append,List.tail_cons,List.mem_append,List.mem_singleton] at hy
      exact hy.resolve_right hne
    exact hp y hy'

/-- A list survives every change outside its head word and member cells. -/
theorem Listed.transport (h : Listed o memory head nodes)
    (hh : ∀ a, head≤a → a<head+8 → other a=memory a)
    (hc : ∀ x∈nodes, ∀ a, x≤a → a<x+o.span → other a=memory a) :
    Listed o other head nodes := by
  have hn := o.next_le
  have hp := o.prev_le
  refine h.transport_words (load64_congr hh) ?_ ?_
  · intro x hx
    exact load64_congr fun a h1 h2 => hc x hx a (by omega) (by omega)
  · intro x hx
    exact load64_congr fun a h1 h2 => hc x hx a (by omega) (by omega)

/-- Following the next words from the head visits the members. -/
theorem Listed.chain (h : Listed o memory head nodes) :
    Chain (fun x => load64 memory (x+o.next)) (fun x => x=0) (load64 memory head) nodes := by
  have key : ∀ (x : ℕ) (l : List ℕ), (∀ y∈l, y≠0) → Links o memory head (x::l++[0]) →
      Chain (fun x => load64 memory (x+o.next)) (fun x => x=0) (successor o memory head x) l := by
    intro x l
    induction l generalizing x with
    | nil =>
      intro _ hl
      exact chain_nil.mpr hl.1
    | cons y rest ih =>
      intro hnz hl
      have hy : y≠0 := hnz y (by simp)
      have hrest := ih y (fun z hz => hnz z (by simp [hz])) hl.2.2
      rw [successor,if_neg hy] at hrest
      exact chain_cons.mpr ⟨hl.1,hy,hrest⟩
  have := key 0 nodes h.nonzero h.links
  rwa [successor,if_pos rfl] at this

/-- The link words of a member name its neighbours. -/
theorem Listed.neighbours {y : ℕ} (h : Listed o memory head (before++y::after)) :
    load64 memory (y+o.prev)=before.getLastD 0 ∧
      load64 memory (y+o.next)=after.headD 0 := by
  have hne := h.nonzero y (by simp)
  have hl := h.links
  constructor
  · rcases List.eq_nil_or_concat' before with rfl | ⟨front,x,rfl⟩
    · simp only [List.nil_append,List.cons_append,Links] at hl
      exact hl.2.1 hne
    · have he : 0::((front++[x])++y::after)++[0]=(0::front)++x::(y::(after++[0])) := by simp
      rw [he,links_append] at hl
      have hlast : (front++[x]).getLastD 0=x := by simp
      rw [hlast]
      exact hl.2.2.1 hne
  · have he : 0::(before++y::after)++[0]=(0::before)++y::(after++[0]) := by simp
    rw [he,links_append] at hl
    have hr := hl.2
    cases after with
    | nil =>
      simp only [List.nil_append,Links,successor,if_neg hne] at hr
      exact hr.1
    | cons z rest =>
      simp only [List.cons_append,Links,successor,if_neg hne] at hr
      exact hr.1

/-- Removing a member needs its predecessor's next word and its successor's
previous word replaced by each other; all other link words are kept. -/
theorem Listed.remove_of_words {y : ℕ} (h : Listed o memory head (before++y::after))
    (hnext : successor o other head (before.getLastD 0)=after.headD 0)
    (hprev : after.headD 0≠0 →
      load64 other (after.headD 0+o.prev)=before.getLastD 0)
    (hs : ∀ x, x=0 ∨ x∈before++after → x≠before.getLastD 0 →
      successor o other head x=successor o memory head x)
    (hp : ∀ x∈before++after, x≠after.headD 0 →
      load64 other (x+o.prev)=load64 memory (x+o.prev)) :
    Listed o other head (before++after) := by
  have hsub : (before++after).Sublist (before++y::after) :=
    List.Sublist.append_left (List.sublist_cons_self y after) before
  refine ⟨?_,fun x hx => h.nonzero x (hsub.subset hx),fun x hx => h.bound x (hsub.subset hx),
    h.cells.sublist hsub,fun x hx => h.headCell x (hsub.subset hx)⟩
  have hnd : (before++after).Nodup := h.nodup.sublist hsub
  have hnz : ∀ x∈before++after, x≠0 := fun x hx => h.nonzero x (hsub.subset hx)
  obtain ⟨front,hfront⟩ := exists_getLastD before
  obtain ⟨back,hback⟩ := exists_headD after
  generalize before.getLastD 0=x at hfront hnext hprev hs
  generalize after.headD 0=z at hback hnext hprev hp
  have hfull : 0::(before++y::after)++[0]=front++x::(y::z::back) := by
    calc 0::(before++y::after)++[0]=(0::before)++y::(after++[0]) := by simp
      _=front++x::(y::z::back) := by rw [hfront,hback]; simp
  have hgoal : 0::(before++after)++[0]=front++x::(z::back) := by
    calc 0::(before++after)++[0]=(0::before)++(after++[0]) := by simp
      _=front++x::(z::back) := by rw [hfront,hback]; simp
  have hl := h.links
  rw [hfull,links_append] at hl
  obtain ⟨hfrontLinks,_,_,_,_,hbackLinks⟩ := hl
  have hndFront : (front++[x]).Nodup := by
    rw [← hfront,List.nodup_cons]
    exact ⟨fun h0 => hnz 0 (by simp [h0]) rfl,(List.nodup_append.mp hnd).1⟩
  have hndBack : (z::back).Nodup := by
    rw [← hback,List.nodup_append]
    refine ⟨(List.nodup_append.mp hnd).2.1,by simp,?_⟩
    intro a ha b hb hab
    exact hnz a (by simp [ha]) (hab.trans (by simpa using hb))
  have hxMem : x=0 ∨ x∈before := by
    have : x∈0::before := by rw [hfront]; simp
    simpa using this
  have hzMem : z=0 ∨ z∈after := by
    have : z∈after++[0] := by rw [hback]; simp
    simpa [or_comm] using this
  have hcross : ∀ a∈before, ∀ b∈after, a≠b := fun a ha b hb => (List.nodup_append.mp hnd).2.2 a ha b hb
  rw [hgoal,links_append]
  refine ⟨hfrontLinks.transport ?_ ?_,hnext,hprev,hbackLinks.transport ?_ ?_⟩
  · intro w hw
    rw [List.dropLast_concat] at hw
    have hmem : w∈0::before := by rw [hfront]; simp [hw]
    refine hs w ?_ ?_
    · rcases List.mem_cons.mp hmem with h0 | hb
      · exact Or.inl h0
      · exact Or.inr (by simp [hb])
    · intro heq
      exact (List.nodup_append.mp hndFront).2.2 w hw x (by simp) heq
  · intro w hw hne
    have hmem : w∈before := by
      rw [← hfront,List.tail_cons] at hw
      exact hw
    refine hp w (by simp [hmem]) ?_
    rcases hzMem with rfl | hz'
    · exact hne
    · exact hcross w hmem z hz'
  · intro w hw
    have hmem : w∈after := by
      rw [← hback,List.dropLast_concat] at hw
      exact hw
    refine hs w (Or.inr (by simp [hmem])) ?_
    rcases hxMem with rfl | hx'
    · exact hnz w (by simp [hmem])
    · exact (hcross x hx' w hmem).symm
  · intro w hw hne
    rw [List.tail_cons] at hw
    have hmem : w∈after := by
      have : w∈after++[0] := by rw [hback]; simp [hw]
      simpa [hne] using this
    refine hp w (by simp [hmem]) ?_
    intro heq
    exact (List.nodup_cons.mp hndBack).1 (heq ▸ hw)

/-- Insertion at the front needs the head word and the four link words around
the new first node; all other link words are kept. -/
theorem Listed.push_of_words {y : ℕ} (h : Listed o memory head nodes)
    (hne : y≠0) (hbound : y<2^64) (hcell : ∀ x∈nodes, Apart y o.span x o.span)
    (hhead : Apart y o.span head 8)
    (hfirst : load64 other head=y) (hnext : load64 other (y+o.next)=nodes.headD 0)
    (hprev : load64 other (y+o.prev)=0)
    (hback : nodes.headD 0≠0 → load64 other (nodes.headD 0+o.prev)=y)
    (hs : ∀ x∈nodes, load64 other (x+o.next)=load64 memory (x+o.next))
    (hp : ∀ x∈nodes, x≠nodes.headD 0 →
      load64 other (x+o.prev)=load64 memory (x+o.prev)) :
    Listed o other head (y::nodes) := by
  have hcells : (y::nodes).Pairwise fun x z => Apart x o.span z o.span :=
    List.pairwise_cons.mpr ⟨hcell,h.cells⟩
  refine ⟨?_,?_,?_,hcells,?_⟩
  · have hl := h.links
    have hnd := h.nodup
    have hnz := h.nonzero
    cases nodes with
    | nil => simp_all [Links,successor]
    | cons z rest =>
      simp only [List.cons_append,Links,successor,if_true,List.headD_cons] at hl hnext hback ⊢
      have hz : z≠0 := hnz z (by simp)
      refine ⟨hfirst,fun _ => hprev,by rw [if_neg hne,hnext],hback,?_⟩
      apply hl.2.2.transport
      · intro w hw
        have hmem : w∈z::rest := by
          rw [← List.cons_append,List.dropLast_concat] at hw
          exact hw
        simp only [successor,if_neg (hnz w hmem)]
        exact hs w hmem
      · intro w hw hw0
        have hmem : w∈rest := by simpa [hw0] using hw
        refine hp w (by simp [hmem]) ?_
        intro heq
        simp only [List.headD_cons] at heq
        exact (List.nodup_cons.mp hnd).1 (heq ▸ hmem)
  · intro x hx
    rcases List.mem_cons.mp hx with rfl | hx
    · exact hne
    · exact h.nonzero x hx
  · intro x hx
    rcases List.mem_cons.mp hx with rfl | hx
    · exact hbound
    · exact h.bound x hx
  · intro x hx
    rcases List.mem_cons.mp hx with rfl | hx
    · exact hhead
    · exact h.headCell x hx

/-- The word that was replaced. -/
theorem successor_setSuccessor {x z : ℕ} (hz : z<2^64) :
    successor o (setSuccessor o memory head x z) head x=z := by
  unfold successor setSuccessor
  split
  · exact load64_store64_same hz
  · exact load64_store64_same hz

/-- Words apart from the one that is replaced are kept. -/
theorem load64_setSuccessor {x z b : ℕ} (hhead : x=0 → b+8≤head ∨ head+8≤b)
    (hcell : x≠0 → b+8≤x+o.next ∨ x+o.next+8≤b) :
    load64 (setSuccessor o memory head x z) b=load64 memory b := by
  unfold setSuccessor
  split
  · next h0 => exact load64_store64_disjoint (hhead h0)
  · next h0 => exact load64_store64_disjoint (hcell h0)

/-- Insert a node at the front: its own links first, then the old first
node's previous word, then the head. The head word is read again at each use. -/
def pushFront (o : LinkLayout) (memory : Bytes) (head node : ℕ) : Bytes :=
  let m1 := store64 memory (node+o.next) (load64 memory head)
  let m2 := store64 m1 (node+o.prev) 0
  let m3 := if load64 m2 head≠0 then store64 m2 (load64 m2 head+o.prev) node else m2
  store64 m3 head node

/-- Remove a node: the predecessor's next word, or the head when there is no
predecessor, and then the successor's previous word. -/
def unlink (o : LinkLayout) (memory : Bytes) (head node : ℕ) : Bytes :=
  let m1 :=
    if load64 memory (node+o.prev)≠0 then
      store64 memory (load64 memory (node+o.prev)+o.next) (load64 memory (node+o.next))
    else store64 memory head (load64 memory (node+o.next))
  if load64 m1 (node+o.next)≠0 then
    store64 m1 (load64 m1 (node+o.next)+o.prev) (load64 m1 (node+o.prev))
  else m1

/-- The memory after insertion: the new node's links, the previous word of the
old first node, and the head word. -/
theorem pushFront_eq {y : ℕ} (h : Listed o memory head nodes) (hhead : Apart y o.span head 8) :
    pushFront o memory head y=
      let m2 := store64 (store64 memory (y+o.next) (nodes.headD 0)) (y+o.prev) 0
      store64 (if nodes.headD 0≠0 then store64 m2 (nodes.headD 0+o.prev) y else m2) head y := by
  have hn := o.next_le
  have hp := o.prev_le
  simp only [Apart] at hhead
  have hm2 : load64 (store64 (store64 memory (y+o.next) (nodes.headD 0)) (y+o.prev) 0) head=
      nodes.headD 0 := by
    rw [load64_store64_disjoint (by omega),load64_store64_disjoint (by omega),h.head_eq]
  unfold pushFront
  simp only [h.head_eq,hm2]

/-- Insertion writes the head word, the new node's links and the old first
node's previous word only. -/
theorem pushFront_frame_words {y a : ℕ} (h : Listed o memory head nodes)
    (hhead : Apart y o.span head 8) (ha : a<head ∨ head+8≤a)
    (hnext : a<y+o.next ∨ y+o.next+8≤a) (hprev : a<y+o.prev ∨ y+o.prev+8≤a)
    (hfirst : ∀ x∈nodes, a<x+o.prev ∨ x+o.prev+8≤a) : pushFront o memory head y a=memory a := by
  rw [pushFront_eq h hhead]
  dsimp only
  rw [store64_outside ha]
  split
  · next hne =>
    have := hfirst _ (headD_mem hne)
    rw [store64_outside this,store64_outside hprev,store64_outside hnext]
  · rw [store64_outside hprev,store64_outside hnext]

/-- Insertion writes the head word, the new cell and the old first cell only. -/
theorem pushFront_frame {y a : ℕ} (h : Listed o memory head nodes)
    (hhead : Apart y o.span head 8) (ha : a<head ∨ head+8≤a) (hy : a<y ∨ y+o.span≤a)
    (hfirst : ∀ x∈nodes, a<x ∨ x+o.span≤a) : pushFront o memory head y a=memory a := by
  have hn := o.next_le
  have hp := o.prev_le
  refine pushFront_frame_words h hhead ha (by omega) (by omega) fun x hx => ?_
  have := hfirst x hx
  omega

/-- Insertion puts the node in front of the list. -/
theorem listed_pushFront {y : ℕ} (h : Listed o memory head nodes)
    (hne : y≠0) (hbound : y<2^64) (hcell : ∀ x∈nodes, Apart y o.span x o.span)
    (hhead : Apart y o.span head 8) :
    Listed o (pushFront o memory head y) head (y::nodes) := by
  have hn := o.next_le
  have hp := o.prev_le
  have hap := o.apart
  have hyh := hhead
  simp only [Apart] at hyh
  have hfirstBound : nodes.headD 0<2^64 := by
    rw [← h.head_eq]
    exact load64_lt _ _
  have hmem : nodes.headD 0≠0 → nodes.headD 0∈nodes := headD_mem
  have hword : ∀ b, (b+8≤head ∨ head+8≤b) →
      (nodes.headD 0≠0 → b+8≤nodes.headD 0+o.prev ∨ nodes.headD 0+o.prev+8≤b) →
      load64 (pushFront o memory head y) b=
        load64 (store64 (store64 memory (y+o.next) (nodes.headD 0)) (y+o.prev) 0) b := by
    intro b hb hb'
    rw [pushFront_eq h hhead]
    dsimp only
    rw [load64_store64_disjoint hb]
    split
    · next h0 => rw [load64_store64_disjoint (hb' h0)]
    · rfl
  have hold : ∀ x∈nodes, ∀ b, x≤b → b+8≤x+o.span →
      load64 (store64 (store64 memory (y+o.next) (nodes.headD 0)) (y+o.prev) 0) b=
        load64 memory b := by
    intro x hx b h1 h2
    have hc := hcell x hx
    simp only [Apart] at hc
    rw [load64_store64_disjoint (by omega),load64_store64_disjoint (by omega)]
  refine h.push_of_words hne hbound hcell hhead ?_ ?_ ?_ ?_ ?_ ?_
  · rw [pushFront_eq h hhead]
    exact load64_store64_same hbound
  · rw [hword _ (by omega) ?_,load64_store64_disjoint (by omega),load64_store64_same hfirstBound]
    intro h0
    have hc := hcell _ (hmem h0)
    simp only [Apart] at hc
    omega
  · rw [hword _ (by omega) ?_,load64_store64_same (by norm_num)]
    intro h0
    have hc := hcell _ (hmem h0)
    simp only [Apart] at hc
    omega
  · intro h0
    have hc := h.headCell _ (hmem h0)
    simp only [Apart] at hc
    rw [pushFront_eq h hhead]
    dsimp only
    rw [load64_store64_disjoint (by omega),if_pos h0,load64_store64_same hbound]
  · intro x hx
    have hh := h.headCell x hx
    simp only [Apart] at hh
    rw [hword _ (by omega) ?_,hold x hx _ (by omega) (by omega)]
    intro h0
    by_cases heq : x=nodes.headD 0
    · omega
    · have := h.apart hx (hmem h0) heq
      omega
  · intro x hx hxf
    have hh := h.headCell x hx
    simp only [Apart] at hh
    rw [hword _ (by omega) ?_,hold x hx _ (by omega) (by omega)]
    intro h0
    have := h.apart hx (hmem h0) hxf
    omega

/-- The memory after removing a member: the predecessor's next word (or the
head) and the successor's previous word are replaced, in this order. -/
theorem unlink_eq {y : ℕ} (h : Listed o memory head (before++y::after)) :
    unlink o memory head y=
      let m1 := setSuccessor o memory head (before.getLastD 0) (after.headD 0)
      if after.headD 0≠0 then store64 m1 (after.headD 0+o.prev) (before.getLastD 0) else m1 := by
  have hn := o.next_le
  have hp := o.prev_le
  obtain ⟨hprev,hnext⟩ := h.neighbours
  have hm1 : (if load64 memory (y+o.prev)≠0 then
      store64 memory (load64 memory (y+o.prev)+o.next) (load64 memory (y+o.next))
      else store64 memory head (load64 memory (y+o.next)))=
      setSuccessor o memory head (before.getLastD 0) (after.headD 0) := by
    rw [hprev,hnext,setSuccessor]
    split <;> simp_all
  have hkeep : ∀ b, y≤b → b+8≤y+o.span →
      load64 (setSuccessor o memory head (before.getLastD 0) (after.headD 0)) b=
        load64 memory b := by
    intro b h1 h2
    have hh := h.headCell y (by simp)
    simp only [Apart] at hh
    refine load64_setSuccessor (fun _ => by omega) fun hne => ?_
    have hmem := getLastD_mem hne
    have hnd := List.nodup_append.mp h.nodup
    have := h.apart (List.mem_append_left _ hmem) (by simp) (hnd.2.2 _ hmem y (by simp))
    omega
  unfold unlink
  rw [hm1]
  dsimp only
  rw [hkeep _ (by omega) (by omega),hkeep _ (by omega) (by omega),hprev,hnext]

/-- The two writes of a removal may be made in the other order. -/
theorem unlink_eq_swap {y : ℕ} (h : Listed o memory head (before++y::after)) :
    unlink o memory head y=
      setSuccessor o
        (if after.headD 0≠0 then store64 memory (after.headD 0+o.prev) (before.getLastD 0)
          else memory) head (before.getLastD 0) (after.headD 0) := by
  have hn := o.next_le
  have hp := o.prev_le
  have hap := o.apart
  rw [unlink_eq h]
  dsimp only
  by_cases hz : after.headD 0=0
  · rw [if_neg (not_not.mpr hz),if_neg (not_not.mpr hz)]
  · have hmem := headD_mem hz
    have hhead := h.headCell _ (List.mem_append_right before (List.mem_cons_of_mem y hmem))
    simp only [Apart] at hhead
    rw [if_pos hz,if_pos hz]
    unfold setSuccessor
    by_cases hx : before.getLastD 0=0
    · rw [if_pos hx,if_pos hx,store64_comm (by omega)]
    · have hmem' := getLastD_mem hx
      have hne := (List.nodup_append.mp h.nodup).2.2 _ hmem' _ (List.mem_cons_of_mem y hmem)
      have := h.apart (List.mem_append_left _ hmem')
        (List.mem_append_right before (List.mem_cons_of_mem y hmem)) hne
      rw [if_neg hx,if_neg hx,store64_comm (by omega)]

/-- Removal writes the head word, next words of earlier members and previous
words of later members only. -/
theorem unlink_frame_words {y a : ℕ} (h : Listed o memory head (before++y::after))
    (ha : a<head ∨ head+8≤a) (hnext : ∀ x∈before, a<x+o.next ∨ x+o.next+8≤a)
    (hprev : ∀ x∈after, a<x+o.prev ∨ x+o.prev+8≤a) :
    unlink o memory head y a=memory a := by
  have hm1 : setSuccessor o memory head (before.getLastD 0) (after.headD 0) a=memory a := by
    unfold setSuccessor
    split
    · exact store64_outside ha
    · next hne => exact store64_outside (hnext _ (getLastD_mem hne))
  rw [unlink_eq h]
  dsimp only
  split
  · next hne => rw [store64_outside (hprev _ (headD_mem hne)),hm1]
  · exact hm1

/-- Words apart from the previous word of the next member are those after the
first write of a removal. -/
theorem load64_unlink {y b : ℕ} (h : Listed o memory head (before++y::after))
    (hb : after.headD 0≠0 → b+8≤after.headD 0+o.prev ∨ after.headD 0+o.prev+8≤b) :
    load64 (unlink o memory head y) b=
      load64 (setSuccessor o memory head (before.getLastD 0) (after.headD 0)) b := by
  rw [unlink_eq h]
  dsimp only
  split
  · next hne => rw [load64_store64_disjoint (hb hne)]
  · rfl

/-- Removal takes exactly the node off the list. -/
theorem listed_unlink {y : ℕ} (h : Listed o memory head (before++y::after)) :
    Listed o (unlink o memory head y) head (before++after) := by
  have hn := o.next_le
  have hp := o.prev_le
  have hap := o.apart
  have hsub : ∀ w∈before++after, w∈before++y::after := by
    intro w hw
    simp only [List.mem_append,List.mem_cons] at hw ⊢
    tauto
  have hlast : before.getLastD 0≠0 → before.getLastD 0∈before++after := fun hne =>
    List.mem_append_left _ (getLastD_mem hne)
  have hfirst : after.headD 0≠0 → after.headD 0∈before++after := fun hne =>
    List.mem_append_right _ (headD_mem hne)
  have hafter : after.headD 0<2^64 := h.neighbours.2 ▸ load64_lt _ _
  have hbefore : before.getLastD 0<2^64 := h.neighbours.1 ▸ load64_lt _ _
  have hcross : before.getLastD 0≠0 → after.headD 0≠0 → before.getLastD 0≠after.headD 0 :=
    fun h1 h2 => (List.nodup_append.mp h.nodup).2.2 _ (getLastD_mem h1) _
      (List.mem_cons_of_mem _ (headD_mem h2))
  have happart : ∀ u∈before++after, ∀ v∈before++after, u≠v → u+o.span≤v ∨ v+o.span≤u :=
    fun u hu v hv hne => h.apart (hsub u hu) (hsub v hv) hne
  have hheadCell : ∀ u∈before++after, u+o.span≤head ∨ head+8≤u :=
    fun u hu => h.headCell u (hsub u hu)
  refine h.remove_of_words ?_ ?_ ?_ ?_
  · have hset : successor o (setSuccessor o memory head (before.getLastD 0) (after.headD 0)) head
        (before.getLastD 0)=after.headD 0 := successor_setSuccessor hafter
    refine Eq.trans ?_ hset
    unfold successor
    split
    · exact load64_unlink h fun hne => by have := hheadCell _ (hfirst hne); omega
    · next h0 =>
      refine load64_unlink h fun hne => ?_
      have := happart _ (hlast h0) _ (hfirst hne) (hcross h0 hne)
      omega
  · intro hne
    rw [unlink_eq h]
    dsimp only
    rw [if_pos hne,load64_store64_same hbefore]
  · intro w hw hwx
    unfold successor
    split
    · next h0 =>
      subst h0
      rw [load64_unlink h (fun hne => by have := hheadCell _ (hfirst hne); omega),
        load64_setSuccessor (fun h0 => absurd h0.symm hwx)
          (fun hne => by have := hheadCell _ (hlast hne); omega)]
    · next h0 =>
      have hmem := hw.resolve_left h0
      have hh := hheadCell w hmem
      rw [load64_unlink h ?_,load64_setSuccessor (fun _ => by omega) ?_]
      · intro hne
        have := happart w hmem _ (hlast hne) hwx
        omega
      · intro hne
        by_cases heq : w=after.headD 0
        · omega
        · have := happart w hmem _ (hfirst hne) heq
          omega
  · intro w hmem hwz
    have hh := hheadCell w hmem
    rw [load64_unlink h ?_,load64_setSuccessor (fun _ => by omega) ?_]
    · intro hne
      by_cases heq : w=before.getLastD 0
      · omega
      · have := happart w hmem _ (hlast hne) heq
        omega
    · intro hne
      have := happart w hmem _ (hfirst hne) hwz
      omega

section Named

variable {α : Type*} {cell : α → ℕ} {l : List α} {i : α}

/-- Removal takes one of the named cells off their list. -/
theorem listed_unlink_map [BEq α] [LawfulBEq α] (h : Listed o memory head (l.map cell))
    (hi : i∈l) : Listed o (unlink o memory head (cell i)) head ((l.erase i).map cell) := by
  obtain ⟨before,after,_,hl,herase⟩ := List.exists_erase_eq hi
  rw [hl,List.map_append,List.map_cons] at h
  rw [herase,List.map_append]
  exact listed_unlink h

/-- Removal of one of the named cells writes the head word and links of such cells only. -/
theorem unlink_map_frame_words {a : ℕ} (h : Listed o memory head (l.map cell)) (hi : i∈l)
    (ha : a<head ∨ head+8≤a) (hnext : ∀ j∈l, a<cell j+o.next ∨ cell j+o.next+8≤a)
    (hprev : ∀ j∈l, a<cell j+o.prev ∨ cell j+o.prev+8≤a) :
    unlink o memory head (cell i) a=memory a := by
  obtain ⟨before,after,rfl⟩ := List.append_of_mem hi
  rw [List.map_append,List.map_cons] at h
  refine unlink_frame_words h ha ?_ ?_
  · intro x hx
    obtain ⟨j,hj,rfl⟩ := List.mem_map.mp hx
    exact hnext j (List.mem_append_left _ hj)
  · intro x hx
    obtain ⟨j,hj,rfl⟩ := List.mem_map.mp hx
    exact hprev j (List.mem_append_right _ (List.mem_cons_of_mem _ hj))

/-- Removal of one of the named cells writes the head word and such cells only. -/
theorem unlink_map_frame {a : ℕ} (h : Listed o memory head (l.map cell)) (hi : i∈l)
    (ha : a<head ∨ head+8≤a) (hcells : ∀ j∈l, a<cell j ∨ cell j+o.span≤a) :
    unlink o memory head (cell i) a=memory a := by
  have hn := o.next_le
  have hp := o.prev_le
  refine unlink_map_frame_words h hi ha ?_ ?_
  · intro j hj
    have := hcells j hj
    omega
  · intro j hj
    have := hcells j hj
    omega

end Named

end OvsbMk.IntrusiveList
