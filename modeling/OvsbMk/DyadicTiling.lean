import Mathlib.Tactic
import Mathlib.Data.Nat.Bitwise

/-!
# Coloured tilings by naturally aligned blocks

A block of order `k` starts at a multiple of `2^k` and covers `2^k` points. A
tiling of the first `2^top` points puts every point in exactly one block, and
a block carries a colour that says who holds it. The facts here are those a
buddy system rests on: the neighbour reached by flipping one bit is always a
block head, replacing blocks by others that cover the same points keeps a
tiling, and in a coalesced tiling an aligned run of one colour lies inside a
single block.
-/

namespace OvsbMk.DyadicTiling

/-- The point lies in the block with this head and order. -/
def Covers (head order point : ℕ) : Prop := head≤point ∧ point<head+2^order

/-- Head of the neighbouring block of the same order. -/
def buddy (head order : ℕ) : ℕ := head^^^2^order

/-- The neighbour follows an even block and precedes an odd one. -/
theorem buddy_cases {head order : ℕ} (h : 2^order∣head) :
    (2^(order+1)∣head ∧ buddy head order=head+2^order) ∨
      (2^(order+1)∣buddy head order ∧ head=buddy head order+2^order) := by
  obtain ⟨q,rfl⟩ := h
  have hx : buddy (2^order*q) order=2^order*(q^^^1) := by
    have := Nat.shiftLeft_xor_distrib (a:=q) (b:=1) (i:=order)
    simp only [Nat.shiftLeft_eq,one_mul] at this
    rw [buddy,Nat.mul_comm,← this,Nat.mul_comm]
  rcases Nat.even_or_odd q with he | ho
  · left
    rw [hx,Nat.xor_one_of_even he]
    obtain ⟨r,rfl⟩ := he
    exact ⟨⟨r,by ring⟩,by ring⟩
  · right
    rw [hx,Nat.xor_one_of_odd ho]
    obtain ⟨r,rfl⟩ := ho
    refine ⟨⟨r,?_⟩,?_⟩
    · simp only [Nat.add_sub_cancel]
      ring
    · simp only [Nat.add_sub_cancel]
      ring

/-- The neighbour of a block that is aligned for the next order follows it. -/
theorem buddy_of_aligned_succ {head order : ℕ} (h : 2^(order+1)∣head) :
    buddy head order=head+2^order := by
  have hak : 2^order∣head := (pow_dvd_pow 2 (Nat.le_succ order)).trans h
  rcases buddy_cases hak with ⟨_,he⟩ | ⟨hd,he⟩
  · exact he
  · have hdiv : 2^(order+1)∣2^order := (Nat.dvd_add_right hd).mp (he ▸ h)
    have hle := Nat.le_of_dvd (Nat.two_pow_pos order) hdiv
    have hpos := Nat.two_pow_pos order
    rw [pow_succ] at hle
    omega

/-- Flipping the same bit twice returns to the block. -/
theorem buddy_buddy (head order : ℕ) : buddy (buddy head order) order=head := by
  rw [buddy,buddy,Nat.xor_assoc,Nat.xor_self,Nat.xor_zero]

/-- The neighbour is aligned like the block. -/
theorem buddy_aligned {head order : ℕ} (h : 2^order∣head) : 2^order∣buddy head order := by
  rcases buddy_cases h with ⟨_,he⟩ | ⟨hd,_⟩
  · rw [he]
    exact (Nat.dvd_add_right h).mpr (dvd_refl _)
  · exact (pow_dvd_pow 2 (Nat.le_succ order)).trans hd

/-- The lower of two neighbours is aligned for the next order. -/
theorem min_buddy_aligned {head order : ℕ} (h : 2^order∣head) :
    2^(order+1)∣min head (buddy head order) := by
  have hp : 0<2^order := Nat.two_pow_pos order
  rcases buddy_cases h with ⟨hd,he⟩ | ⟨hd,he⟩
  · rwa [he,Nat.min_eq_left (by omega)]
  · rwa [Nat.min_eq_right (by omega)]

/-- Two neighbours together are the block of the next order at the lower head. -/
theorem covers_min_buddy {head order p : ℕ} (h : 2^order∣head) :
    Covers (min head (buddy head order)) (order+1) p ↔
      Covers head order p ∨ Covers (buddy head order) order p := by
  have hp : 2^(order+1)=2^order+2^order := by ring
  unfold Covers
  rcases buddy_cases h with ⟨_,he⟩ | ⟨_,he⟩
  · rw [he,Nat.min_eq_left (by omega)]
    omega
  · rw [Nat.min_eq_right (by omega)]
    omega

/-- An aligned head below the bound leaves room for its whole block. -/
theorem block_le {head order top : ℕ} (ha : 2^order∣head) (ho : order≤top)
    (hh : head<2^top) : head+2^order≤2^top := by
  obtain ⟨q,rfl⟩ := ha
  obtain ⟨r,hr⟩ := pow_dvd_pow 2 ho
  rw [hr] at hh ⊢
  have hq : q<r := Nat.lt_of_mul_lt_mul_left hh
  calc 2^order*q+2^order=2^order*(q+1) := by ring
    _≤2^order*r := Nat.mul_le_mul_left _ hq

/-- The neighbour of a block below the top order stays inside. -/
theorem buddy_lt {head order top : ℕ} (ha : 2^order∣head) (ho : order<top)
    (hh : head<2^top) : buddy head order<2^top := by
  have hp : 0<2^order := Nat.two_pow_pos order
  rcases buddy_cases ha with ⟨hd,he⟩ | ⟨_,he⟩
  · have := block_le hd ho hh
    have hs : 2^(order+1)=2^order+2^order := by ring
    omega
  · omega

/-- Of two aligned blocks that share a point the smaller lies in the larger. -/
theorem block_nested {i k j l p : ℕ} (hi : 2^k∣i) (hj : 2^l∣j) (hkl : k≤l)
    (hpi : Covers i k p) (hpj : Covers j l p) : j ≤ i ∧ i+2^k≤j+2^l := by
  have hd : 2^k∣j := (pow_dvd_pow 2 hkl).trans hj
  have hdl : 2^k∣2^l := pow_dvd_pow 2 hkl
  obtain ⟨a,rfl⟩ := hi
  obtain ⟨b,rfl⟩ := hd
  obtain ⟨c,hc⟩ := hdl
  obtain ⟨h1,h2⟩ := hpi
  obtain ⟨h3,h4⟩ := hpj
  rw [hc] at h4 ⊢
  have hba : b<a+1 := by
    apply Nat.lt_of_mul_lt_mul_left (a:=2^k)
    calc 2^k*b≤p := h3
      _<2^k*(a+1) := by rw [Nat.mul_add,mul_one]; exact h2
  have hac : a<b+c := by
    apply Nat.lt_of_mul_lt_mul_left (a:=2^k)
    calc 2^k*a≤p := h1
      _<2^k*(b+c) := by rw [Nat.mul_add]; exact h4
  constructor
  · exact Nat.mul_le_mul_left _ (by omega)
  · calc 2^k*a+2^k=2^k*(a+1) := by ring
      _≤2^k*(b+c) := Nat.mul_le_mul_left _ hac
      _=2^k*b+2^k*c := by ring

/-- Every point below `2^top` lies in exactly one block of the family, and
every block is aligned and inside. -/
structure Tiling {κ : Type*} (top : ℕ) (blocks : κ → ℕ → ℕ → Prop) : Prop where
  /-- No block exceeds the whole range. -/
  order_le : ∀ {c i k}, blocks c i k → k≤top
  /-- Blocks are naturally aligned. -/
  aligned : ∀ {c i k}, blocks c i k → 2^k∣i
  /-- Heads lie inside the range. -/
  inside : ∀ {c i k}, blocks c i k → i<2^top
  /-- Every point is covered. -/
  cover : ∀ {p}, p<2^top → ∃ c i k, blocks c i k ∧ Covers i k p
  /-- No point is covered twice, and no block has two colours. -/
  unique : ∀ {c i k d j l p}, blocks c i k → blocks d j l → Covers i k p → Covers j l p →
    c=d ∧ i=j ∧ k=l

variable {κ : Type*} {top : ℕ} {blocks other removed added : κ → ℕ → ℕ → Prop}

/-- The head of a block is one of its points. -/
theorem covers_head (i k : ℕ) : Covers i k i := ⟨le_rfl,Nat.lt_add_of_pos_right (Nat.two_pow_pos k)⟩

/-- Two blocks with one head are the same block. -/
theorem Tiling.head_unique (h : Tiling top blocks) {c d : κ} {i k l : ℕ}
    (h1 : blocks c i k) (h2 : blocks d i l) : c=d ∧ k=l := by
  obtain ⟨hc,_,hk⟩ := h.unique h1 h2 (covers_head i k) (covers_head i l)
  exact ⟨hc,hk⟩

/-- The neighbour of a block is the head of a block that is not larger. -/
theorem Tiling.buddy_head (h : Tiling top blocks) {c : κ} {i k : ℕ} (hb : blocks c i k)
    (hk : k<top) : ∃ c' l, l≤k ∧ blocks c' (buddy i k) l := by
  have ha := h.aligned hb
  have hba := buddy_aligned ha
  obtain ⟨c',j,l,hj,hcov⟩ := h.cover (buddy_lt ha hk (h.inside hb))
  have hself := covers_head (buddy i k) k
  have hsum := covers_min_buddy (p:=i) ha
  have hlk : l≤k := by
    by_contra hlt
    have hsub := block_nested (min_buddy_aligned ha) (h.aligned hj) (by omega)
      ((covers_min_buddy ha).mpr (Or.inr hself)) hcov
    have hi : Covers j l i := by
      have hin := hsum.mpr (Or.inl (covers_head i k))
      exact ⟨hsub.1.trans hin.1,lt_of_lt_of_le hin.2 hsub.2⟩
    obtain ⟨_,_,he⟩ := h.unique hb hj (covers_head i k) hi
    omega
  refine ⟨c',l,hlk,?_⟩
  have hn := block_nested (h.aligned hj) hba hlk hcov hself
  have he : buddy i k=j := le_antisymm hn.1 hcov.1
  rwa [he]

/-- Replacing blocks by others that cover the same points keeps a tiling. -/
theorem Tiling.replace (h : Tiling top blocks)
    (hother : ∀ c i k, other c i k ↔ (blocks c i k ∧ ¬removed c i k) ∨ added c i k)
    (hremoved : ∀ c i k, removed c i k → blocks c i k)
    (hadded : ∀ c i k, added c i k → k≤top ∧ 2^k∣i ∧ i<2^top)
    (hcover : ∀ p, (∃ c i k, removed c i k ∧ Covers i k p) ↔ ∃ c i k, added c i k ∧ Covers i k p)
    (hunique : ∀ c i k c' j l p, added c i k → added c' j l → Covers i k p → Covers j l p →
      c=c' ∧ i=j ∧ k=l) : Tiling top other where
  order_le := by
    intro c i k hb
    rcases (hother c i k).mp hb with ⟨hb,_⟩ | hb
    · exact h.order_le hb
    · exact (hadded c i k hb).1
  aligned := by
    intro c i k hb
    rcases (hother c i k).mp hb with ⟨hb,_⟩ | hb
    · exact h.aligned hb
    · exact (hadded c i k hb).2.1
  inside := by
    intro c i k hb
    rcases (hother c i k).mp hb with ⟨hb,_⟩ | hb
    · exact h.inside hb
    · exact (hadded c i k hb).2.2
  cover := by
    intro p hp
    obtain ⟨c,i,k,hb,hc⟩ := h.cover hp
    by_cases hr : removed c i k
    · obtain ⟨c',j,l,hn,hc'⟩ := (hcover p).mp ⟨c,i,k,hr,hc⟩
      exact ⟨c',j,l,(hother _ _ _).mpr (Or.inr hn),hc'⟩
    · exact ⟨c,i,k,(hother _ _ _).mpr (Or.inl ⟨hb,hr⟩),hc⟩
  unique := by
    intro c i k c' j l p h1 h2 hc1 hc2
    have mixed : ∀ {d a m d' b n}, blocks d a m → ¬removed d a m → added d' b n →
        Covers a m p → Covers b n p → False := by
      intro d a m d' b n hb hr hn ha hb'
      obtain ⟨d'',b',n',hrem,hcov⟩ := (hcover p).mpr ⟨d',b,n,hn,hb'⟩
      obtain ⟨rfl,rfl,rfl⟩ := h.unique hb (hremoved _ _ _ hrem) ha hcov
      exact hr hrem
    rcases (hother _ _ _).mp h1 with ⟨b1,r1⟩ | a1 <;> rcases (hother _ _ _).mp h2 with ⟨b2,r2⟩ | a2
    · exact h.unique b1 b2 hc1 hc2
    · exact (mixed b1 r1 a2 hc1 hc2).elim
    · exact (mixed b2 r2 a1 hc2 hc1).elim
    · exact hunique _ _ _ _ _ _ _ a1 a2 hc1 hc2

/-- Giving one block another colour keeps a tiling. -/
theorem Tiling.recolour (h : Tiling top blocks) {c e : κ} {i k : ℕ} (hb : blocks c i k)
    (hother : ∀ d j l, other d j l ↔
      (blocks d j l ∧ ¬(d=c ∧ j=i ∧ l=k)) ∨ (d=e ∧ j=i ∧ l=k)) : Tiling top other := by
  refine h.replace hother ?_ ?_ ?_ ?_
  · rintro d j l ⟨rfl,rfl,rfl⟩
    exact hb
  · rintro d j l ⟨rfl,rfl,rfl⟩
    exact ⟨h.order_le hb,h.aligned hb,h.inside hb⟩
  · intro p
    constructor
    · rintro ⟨d,j,l,⟨rfl,rfl,rfl⟩,hp⟩
      exact ⟨e,j,l,⟨rfl,rfl,rfl⟩,hp⟩
    · rintro ⟨d,j,l,⟨rfl,rfl,rfl⟩,hp⟩
      exact ⟨c,j,l,⟨rfl,rfl,rfl⟩,hp⟩
  · rintro d j l d' j' l' p ⟨rfl,rfl,rfl⟩ ⟨rfl,rfl,rfl⟩ _ _
    exact ⟨rfl,rfl,rfl⟩

/-- Neighbouring blocks of one order share no point. -/
theorem not_covers_both {i k p : ℕ} (ha : 2^k∣i) (h1 : Covers i k p)
    (h2 : Covers (buddy i k) k p) : False := by
  obtain ⟨h3,h4⟩ := h1
  obtain ⟨h5,h6⟩ := h2
  have hpos := Nat.two_pow_pos k
  rcases buddy_cases ha with ⟨_,he⟩ | ⟨_,he⟩ <;> omega

/-- Splitting a block into two neighbours of the next lower order keeps a
tiling, whatever colours the halves get. -/
theorem Tiling.split (h : Tiling top blocks) {c e f : κ} {i k : ℕ} (hb : blocks c i (k+1))
    (hother : ∀ d j l, other d j l ↔ (blocks d j l ∧ ¬(d=c ∧ j=i ∧ l=k+1)) ∨
      ((d=e ∧ j=i ∧ l=k) ∨ (d=f ∧ j=buddy i k ∧ l=k))) : Tiling top other := by
  have hle := h.order_le hb
  have hal := h.aligned hb
  have hin := h.inside hb
  have hak : 2^k∣i := (pow_dvd_pow 2 (Nat.le_succ k)).trans hal
  have hmin : min i (buddy i k)=i := by
    rw [buddy_of_aligned_succ hal]
    exact Nat.min_eq_left (Nat.le_add_right _ _)
  have hcov := fun p => covers_min_buddy (p:=p) hak
  simp only [hmin] at hcov
  refine h.replace hother ?_ ?_ ?_ ?_
  · rintro d j l ⟨rfl,rfl,rfl⟩
    exact hb
  · rintro d j l (⟨rfl,rfl,rfl⟩ | ⟨rfl,rfl,rfl⟩)
    · exact ⟨by omega,hak,hin⟩
    · exact ⟨by omega,buddy_aligned hak,buddy_lt hak (by omega) hin⟩
  · intro p
    constructor
    · rintro ⟨d,j,l,⟨rfl,rfl,rfl⟩,hp⟩
      rcases (hcov p).mp hp with hp | hp
      · exact ⟨e,j,k,Or.inl ⟨rfl,rfl,rfl⟩,hp⟩
      · exact ⟨f,_,k,Or.inr ⟨rfl,rfl,rfl⟩,hp⟩
    · rintro ⟨d,j,l,⟨rfl,rfl,rfl⟩ | ⟨rfl,rfl,rfl⟩,hp⟩
      · exact ⟨c,j,l+1,⟨rfl,rfl,rfl⟩,(hcov p).mpr (Or.inl hp)⟩
      · exact ⟨c,i,l+1,⟨rfl,rfl,rfl⟩,(hcov p).mpr (Or.inr hp)⟩
  · rintro d j l d' j' l' p (⟨rfl,rfl,rfl⟩ | ⟨rfl,rfl,rfl⟩) (⟨rfl,rfl,rfl⟩ | ⟨rfl,rfl,rfl⟩) h1 h2
    · exact ⟨rfl,rfl,rfl⟩
    · exact (not_covers_both hak h1 h2).elim
    · exact (not_covers_both hak h2 h1).elim
    · exact ⟨rfl,rfl,rfl⟩

/-- Merging two neighbours into the block of the next order keeps a tiling. -/
theorem Tiling.merge (h : Tiling top blocks) {c e f : κ} {i k : ℕ} (hb : blocks c i k)
    (hb' : blocks e (buddy i k) k) (hk : k<top)
    (hother : ∀ d j l, other d j l ↔
      (blocks d j l ∧ ¬((d=c ∧ j=i ∧ l=k) ∨ (d=e ∧ j=buddy i k ∧ l=k))) ∨
        (d=f ∧ j=min i (buddy i k) ∧ l=k+1)) : Tiling top other := by
  have hal := h.aligned hb
  refine h.replace hother ?_ ?_ ?_ ?_
  · rintro d j l (⟨rfl,rfl,rfl⟩ | ⟨rfl,rfl,rfl⟩)
    · exact hb
    · exact hb'
  · rintro d j l ⟨rfl,rfl,rfl⟩
    exact ⟨hk,min_buddy_aligned hal,lt_of_le_of_lt (Nat.min_le_left _ _) (h.inside hb)⟩
  · intro p
    constructor
    · rintro ⟨d,j,l,⟨rfl,rfl,rfl⟩ | ⟨rfl,rfl,rfl⟩,hp⟩
      · exact ⟨f,_,_,⟨rfl,rfl,rfl⟩,(covers_min_buddy hal).mpr (Or.inl hp)⟩
      · exact ⟨f,_,_,⟨rfl,rfl,rfl⟩,(covers_min_buddy hal).mpr (Or.inr hp)⟩
    · rintro ⟨d,j,l,⟨rfl,rfl,rfl⟩,hp⟩
      rcases (covers_min_buddy hal).mp hp with hp | hp
      · exact ⟨c,i,k,Or.inl ⟨rfl,rfl,rfl⟩,hp⟩
      · exact ⟨e,_,k,Or.inr ⟨rfl,rfl,rfl⟩,hp⟩
  · rintro d j l d' j' l' p ⟨rfl,rfl,rfl⟩ ⟨rfl,rfl,rfl⟩ _ _
    exact ⟨rfl,rfl,rfl⟩

/-- In a coalesced tiling an aligned run covered by blocks of one colour lies
inside a single block of that colour. -/
theorem Tiling.run_in_block (h : Tiling top blocks) {c : κ}
    (hco : ∀ i k, k<top → blocks c i k → ¬blocks c (buddy i k) k) {j k : ℕ} (hk : k≤top)
    (ha : 2^k∣j) (hj : j<2^top)
    (hrun : ∀ p, Covers j k p → ∃ i l, blocks c i l ∧ Covers i l p) :
    ∃ i l, k≤l ∧ blocks c i l ∧ Covers i l j := by
  induction k generalizing j with
  | zero =>
    obtain ⟨i,l,hb,hc⟩ := hrun j (covers_head j 0)
    exact ⟨i,l,Nat.zero_le l,hb,hc⟩
  | succ k ih =>
    have hpow : 2^(k+1)=2^k+2^k := by ring
    have hak : 2^k∣j := (pow_dvd_pow 2 (Nat.le_succ k)).trans ha
    have hroom := block_le ha hk hj
    have hbud := buddy_of_aligned_succ ha
    obtain ⟨i,l,hl,hb,hc⟩ := ih (by omega) hak hj
      (fun p hp => hrun p ⟨hp.1,by have := hp.2; omega⟩)
    rcases Nat.lt_or_ge k l with hlt | hge
    · exact ⟨i,l,hlt,hb,hc⟩
    · obtain rfl : l=k := by omega
      obtain ⟨i',l',hl',hb',hc'⟩ := ih (j:=j+2^l) (by omega) (hbud ▸ buddy_aligned hak) (by
          have := Nat.two_pow_pos l
          omega)
        (fun p hp => hrun p ⟨by have := hp.1; omega,by have := hp.2; omega⟩)
      have hij : i=j := by
        have h1 := block_nested (h.aligned hb) hak le_rfl hc (covers_head j l)
        omega
      subst hij
      rcases Nat.lt_or_ge l l' with hlt | hge'
      · refine ⟨i',l',hlt,hb',?_⟩
        have hnest := block_nested ha (h.aligned hb') hlt (p:=i+2^l)
          ⟨by omega,by have := Nat.two_pow_pos l; omega⟩ hc'
        exact ⟨hnest.1,by have := Nat.two_pow_pos (l+1); omega⟩
      · obtain rfl : l'=l := by omega
        have hi' : i'=i+2^l' := by
          have := block_nested (h.aligned hb') (hbud ▸ buddy_aligned hak) le_rfl hc'
            (covers_head (i+2^l') l')
          have := hc'.1
          omega
        exact (hco i l' (by omega) hb (by rw [hbud,← hi']; exact hb')).elim

end OvsbMk.DyadicTiling
