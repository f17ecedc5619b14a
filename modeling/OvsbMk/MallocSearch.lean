import Mathlib.Data.Finset.Card
import Mathlib.Data.List.Chain
import Mathlib.Order.Interval.Finset.Nat
import OvsbMk.UserMalloc

/-!
# Searching the ring of free blocks

The search of `malloc` goes round the ring from the block behind the starting point
and stops when the next block is the starting point, before that block's size is
looked at. On a ring of two blocks or more the starting block is therefore never
considered; the theorem says when that makes a request fail that could be served.
-/

namespace OvsbMk.MallocSearch

open ByteMemory Fat32 UserMalloc

variable {base curr rounds : ℕ} {n : ℤ} {s : Heap} {l others : List ℕ}

/-- The free blocks form a ring inside the array that starts at the roving pointer. -/
structure Ring (base : ℕ) (s : Heap) (others : List ℕ) : Prop where
  /-- The ring has been set up. -/
  hinit : s.hinit=true
  /-- The links go round. -/
  linked : List.IsChain (fun b c => next s.mem b=c) (s.freep::others++[s.freep])
  /-- No block comes twice. -/
  nodup : (s.freep::others).Nodup
  /-- The blocks lie inside the array. -/
  inside : ∀ b∈s.freep::others,
    base≤b ∧ b<base+heapSize ∧ b+UserMalloc.sizeOf (load64 s.mem b)≤base+heapSize

/-- The block is large enough for the request: its size is at least
`ALIGN8(n) + HDR_SZ`. -/
def Fits (s : Heap) (n : ℤ) (b : ℕ) : Prop :=
  (n+7)/8*8+hdrSz≤(UserMalloc.sizeOf (load64 s.mem b) : ℤ)

/-- Sizes of blocks of the array are small numbers. -/
theorem Ring.size_le (h : Ring base s others) {b : ℕ} (hb : b∈s.freep::others) :
    UserMalloc.sizeOf (load64 s.mem b)≤heapSize := by
  obtain ⟨h1,_,h3⟩ := h.inside b hb
  omega

/-- The header's size read as an `int` is the size. -/
theorem Ring.toInt_size (h : Ring base s others) {b : ℕ} (hb : b∈s.freep::others) :
    toInt (UserMalloc.sizeOf (load64 s.mem b))=UserMalloc.sizeOf (load64 s.mem b) := by
  have hle := h.size_le hb
  simp only [heapSize] at hle
  rw [toInt,Nat.mod_eq_of_lt (by omega),if_pos (by omega)]

/-- A ring has not more blocks than the array has bytes. -/
theorem Ring.length_le (h : Ring base s others) : (s.freep::others).length≤heapSize := by
  have hsub : (s.freep::others).toFinset⊆Finset.Ico base (base+heapSize) := by
    intro b hb
    obtain ⟨h1,h2,_⟩ := h.inside b (List.mem_toFinset.mp hb)
    exact Finset.mem_Ico.mpr ⟨h1,h2⟩
  have hcard := Finset.card_le_card hsub
  rwa [List.toFinset_card_of_nodup h.nodup,Nat.card_Ico,Nat.add_sub_cancel_left] at hcard

/-- The search over a chain of blocks that leads to the starting point ends, and it
fails exactly when none of them is large enough. The induction is on the blocks that
are still to be looked at. -/
theorem search_chain (need : ℤ) (prev : ℕ) (hchain : List.IsChain (fun b c => next s.mem b=c) (curr::l++[s.freep]))
    (hstop : s.freep∉l) (hrounds : l.length<rounds) :
    ∃ r, search need rounds prev curr s=some r ∧
      (r.1=0 ↔ ∀ b∈curr::l, ¬need≤toInt (UserMalloc.sizeOf (load64 s.mem b))) := by
  induction l generalizing curr prev rounds with
  | nil =>
    obtain ⟨rounds,rfl⟩ := Nat.exists_eq_succ_of_ne_zero hrounds.ne_bot
    have hlast : next s.mem curr=s.freep := by simpa using hchain
    rw [search]
    dsimp only
    by_cases hfit : need≤toInt (UserMalloc.sizeOf (load64 s.mem curr))
    · rw [if_pos hfit]
      split <;> exact ⟨_,rfl,by simp [hfit,hdrSz]⟩
    · rw [if_neg hfit,if_pos hlast]
      exact ⟨_,rfl,by simpa using hfit⟩
  | cons c l ih =>
    obtain ⟨rounds,rfl⟩ := Nat.exists_eq_succ_of_ne_zero (Nat.ne_zero_of_lt hrounds)
    obtain ⟨hnext,htail⟩ : next s.mem curr=c ∧
        List.IsChain (fun b c => next s.mem b=c) (c::l++[s.freep]) := by
      simpa using hchain
    rw [List.mem_cons,not_or] at hstop
    rw [search]
    dsimp only
    by_cases hfit : need≤toInt (UserMalloc.sizeOf (load64 s.mem curr))
    · rw [if_pos hfit]
      split <;> exact ⟨_,rfl,by simp [hfit,hdrSz]⟩
    · rw [if_neg hfit,hnext,if_neg (Ne.symm hstop.1)]
      obtain ⟨r,hr,hzero⟩ := ih curr htail hstop.2 (Nat.lt_of_succ_lt_succ hrounds)
      refine ⟨r,hr,?_⟩
      rw [hzero,List.forall_mem_cons (a:=curr)]
      exact ⟨fun hall => ⟨hfit,hall⟩,fun hall => hall.2⟩

/-- The blocks that the search looks at: all but the starting one, unless that is the
only one. -/
def examined (s : Heap) : List ℕ → List ℕ
  | [] => [s.freep]
  | c::l => c::l

/-- The search looks at these blocks. -/
theorem malloc_examines (h : Ring base s others) (hn : 1 ≤ n) (hn' : n≤2047)
    (mapped : ℕ → ℕ) :
    ∃ r, malloc base mapped n s=some r ∧ (r.1=0 ↔ ∀ b∈examined s others, ¬Fits s n b) := by
  have hlength := h.length_le
  have hfits : ∀ b∈s.freep::others,
      ((n+7)/8*8+hdrSz≤toInt (UserMalloc.sizeOf (load64 s.mem b)) ↔ Fits s n b) := by
    intro b hb
    rw [h.toInt_size hb,Fits]
  have hchain := h.linked
  have hnodup := h.nodup
  rw [malloc,if_neg (by omega),h.hinit,if_pos rfl]
  dsimp only
  rw [if_neg (by simp only [mmapThresh]; omega)]
  cases others with
  | nil =>
    have hnext : next s.mem s.freep=s.freep := by simpa using hchain
    rw [hnext]
    obtain ⟨r,hr,hzero⟩ := search_chain ((n+7)/8*8+hdrSz) s.freep hchain (by simp)
      (by norm_num : ([] : List ℕ).length<ringRounds)
    refine ⟨r,hr,hzero.trans (forall₂_congr fun b hb => not_congr (hfits b hb))⟩
  | cons c l =>
    obtain ⟨hnext,htail⟩ : next s.mem s.freep=c ∧
        List.IsChain (fun b c => next s.mem b=c) (c::l++[s.freep]) := by
      simpa using hchain
    have hstop : s.freep∉l := fun hmem =>
      (List.nodup_cons.mp hnodup).1 (List.mem_cons_of_mem _ hmem)
    have hrounds : l.length<ringRounds := by
      simp only [List.length_cons,heapSize] at hlength
      simp only [ringRounds]
      omega
    rw [hnext]
    obtain ⟨r,hr,hzero⟩ := search_chain ((n+7)/8*8+hdrSz) s.freep htail hstop hrounds
    refine ⟨r,hr,hzero.trans (forall₂_congr fun b hb => not_congr (hfits b ?_))⟩
    exact List.mem_cons_of_mem _ hb

/-- The request is served if a block on the ring is large enough. -/
def FindsWhatFits (base : ℕ) (mapped : ℕ → ℕ) (n : ℤ) (s : Heap) (others : List ℕ) : Prop :=
  ∃ r, malloc base mapped n s=some r ∧ (r.1=0 → ∀ b∈s.freep::others, ¬Fits s n b)

/-- On every ring and for every small request, `malloc` finds what fits exactly when
the starting block is the only one, or is too small, or another one fits as well. -/
theorem findsWhatFits_iff (h : Ring base s others) (hn : 1 ≤ n) (hn' : n≤2047)
    (mapped : ℕ → ℕ) : FindsWhatFits base mapped n s others ↔
      others=[] ∨ ¬Fits s n s.freep ∨ ∃ b∈others, Fits s n b := by
  obtain ⟨r,hr,hzero⟩ := malloc_examines h hn hn' mapped
  have hfinds : FindsWhatFits base mapped n s others ↔
      ((∀ b∈examined s others, ¬Fits s n b) → ∀ b∈s.freep::others, ¬Fits s n b) := by
    constructor
    · rintro ⟨r',hr',hnone⟩ hall
      obtain rfl := Option.some.inj (hr.symm.trans hr')
      exact hnone (hzero.mpr hall)
    · exact fun himp => ⟨r,hr,fun h0 => himp (hzero.mp h0)⟩
  rw [hfinds]
  cases others with
  | nil => simp [examined]
  | cons c l =>
    rw [examined,List.forall_mem_cons (a:=s.freep)]
    constructor
    · intro himp
      by_cases hsome : ∃ b∈c::l, Fits s n b
      · exact .inr (.inr hsome)
      · exact .inr (.inl (himp fun b hb hfit => hsome ⟨b,hb,hfit⟩).1)
    · rintro (hnil | hsmall | ⟨b,hb,hfit⟩) hall
      · cases hnil
      · exact ⟨hsmall,hall⟩
      · exact (hall b hb hfit).elim

/-- The library's data after some calls of a program that stores nothing. -/
def heapAfter (calls : List Call) : Heap :=
  ((performAll 4096 noPages calls fresh).getD fresh).heap

/-- Three requests, of which the first and the last are freed. -/
def twoFreed : List Call := [.malloc 24,.malloc 100,.malloc 8,.free 4104,.free 4248]

/-- The ring after these calls: two blocks, the search starts at the larger one. -/
theorem twoFreed_ring : Ring 4096 (heapAfter twoFreed) [4240] ∧
    (heapAfter twoFreed).freep=4096 ∧ Fits (heapAfter twoFreed) 16 4096 := by
  have hheap : (heapAfter twoFreed).hinit=true ∧ (heapAfter twoFreed).freep=4096 ∧
      next (heapAfter twoFreed).mem 4096=4240 ∧ next (heapAfter twoFreed).mem 4240=4096 ∧
      load64 (heapAfter twoFreed).mem 4096=32 ∧ load64 (heapAfter twoFreed).mem 4240=16 := by
    decide +kernel
  obtain ⟨hinit,hfreep,h1,h2,h3,h4⟩ := hheap
  refine ⟨⟨hinit,?_,?_,?_⟩,hfreep,?_⟩
  · rw [hfreep]
    simp [h1,h2]
  · rw [hfreep]
    decide
  · rw [hfreep]
    intro b hb
    rcases List.mem_pair.mp hb with rfl | rfl
    · rw [h3]
      decide
    · rw [h4]
      decide
  · rw [Fits,h3]
    decide

/-- On this ring the condition decides a request of eight bytes. -/
theorem twoFreed_finds_iff : FindsWhatFits 4096 noPages 8 (heapAfter twoFreed) [4240] ↔
    [4240]=([] : List ℕ) ∨ ¬Fits (heapAfter twoFreed) 8 (heapAfter twoFreed).freep ∨
      ∃ b∈[4240], Fits (heapAfter twoFreed) 8 b :=
  findsWhatFits_iff twoFreed_ring.1 (by norm_num) (by norm_num) noPages

/-- A request of sixteen bytes fails on this ring, although its first block is large
enough. -/
theorem twoFreed_not_found : Ring 4096 (heapAfter twoFreed) [4240] ∧
    (malloc 4096 noPages 16 (heapAfter twoFreed)).map Prod.fst=some 0 ∧
    Fits (heapAfter twoFreed) 16 (heapAfter twoFreed).freep ∧
    ¬FindsWhatFits 4096 noPages 16 (heapAfter twoFreed) [4240] := by
  obtain ⟨hring,hfreep,hfits⟩ := twoFreed_ring
  have hzero : (malloc 4096 noPages 16 (heapAfter twoFreed)).map Prod.fst=some 0 := by
    decide +kernel
  refine ⟨hring,hzero,by rw [hfreep]; exact hfits,?_⟩
  rintro ⟨r,hr,hnone⟩
  rw [hr,Option.map_some,Option.some.injEq] at hzero
  exact hnone hzero 4096 (by rw [hfreep]; exact List.mem_cons_self) hfits

end OvsbMk.MallocSearch
