import Mathlib.Tactic

/-!
# Rows with a stride

A grid of words is kept row after row, with a stride between the beginnings of the rows
that may be larger than a row. Indices are computed modulo the number of words that an
index can name. The rows keep their places under this exactly when they all end before
the modulus, or the stride divides it.
-/

namespace OvsbMk.StridedRows

/-- The index is that of a word of the grid. -/
def OnGrid (stride w h i : ℕ) : Prop := ∃ x y, x<w ∧ y<h ∧ i=y*stride+x

/-- No row crosses the modulus, and all words of a row are in the columns of the grid. -/
def KeepsRows (modulus stride w h : ℕ) : Prop :=
  ∀ y<h, y*stride%modulus+w ≤ modulus ∧ ∀ x<w, (y*stride%modulus+x)%stride<w

/-- Words stored one after the other. -/
def applyWrites {α : Type*} (buf : ℕ → α) (writes : List (ℕ×α)) : ℕ → α :=
  writes.foldl (fun b wr => Function.update b wr.1 wr.2) buf

variable {α : Type*} {modulus stride w h i : ℕ} {writes writes' : List (ℕ×α)}

/-- The column and the row of a word. -/
theorem onGrid_iff (hw : w ≤ stride) : OnGrid stride w h i ↔ i%stride<w ∧ i/stride<h := by
  constructor
  · rintro ⟨x,y,hx,hy,rfl⟩
    have hlt : x<stride := by omega
    rw [Nat.mul_add_mod',Nat.mod_eq_of_lt hlt,Nat.add_comm,Nat.add_mul_div_right _ _ (by omega),
      Nat.div_eq_of_lt hlt,Nat.zero_add]
    exact ⟨hx,hy⟩
  · rintro ⟨hx,hy⟩
    exact ⟨i%stride,i/stride,hx,hy,by rw [Nat.mul_comm,Nat.div_add_mod]⟩

/-- A word whose index is computed modulo the modulus stays in the rows that there are. -/
theorem wrapped_row {x y : ℕ} (hw : w ≤ stride) (hx : x<w) (hy : y<h) :
    (y*stride%modulus+x)/stride<h := by
  refine lt_of_le_of_lt ?_ hy
  calc (y*stride%modulus+x)/stride≤(y*stride+x)/stride :=
        Nat.div_le_div_right (Nat.add_le_add_right (Nat.mod_le _ _) _)
    _=y := by
        rw [Nat.add_comm,Nat.add_mul_div_right _ _ (by omega),Nat.div_eq_of_lt (by omega),
          Nat.zero_add]

/-- Rows that end before the modulus keep their places. -/
theorem keepsRows_of_le (hw : w ≤ stride) (hend : (h-1)*stride+w ≤ modulus) :
    KeepsRows modulus stride w h := by
  intro y hy
  have hle : y*stride≤(h-1)*stride := Nat.mul_le_mul_right stride (by omega)
  refine ⟨(Nat.add_le_add_right (Nat.mod_le _ _) w).trans (by omega),fun x hx => ?_⟩
  rw [Nat.mod_eq_of_lt (a:=y*stride) (by omega),Nat.mul_add_mod',Nat.mod_eq_of_lt (by omega)]
  exact hx

/-- Rows with a stride that divides the modulus keep their places. -/
theorem keepsRows_of_dvd (hpos : 0 < modulus) (hw : w ≤ stride) (hdvd : stride∣modulus) :
    KeepsRows modulus stride w h := by
  obtain ⟨rows,rfl⟩ := hdvd
  have hrows : 0<rows := Nat.pos_of_ne_zero fun h0 => by simp [h0] at hpos
  intro y _
  have hlt := Nat.mod_lt y hrows
  have hend : (y%rows+1)*stride≤rows*stride := Nat.mul_le_mul_right stride hlt
  rw [Nat.mul_comm y,Nat.mul_mod_mul_left]
  refine ⟨?_,fun x hx => ?_⟩
  · rw [Nat.add_mul,Nat.one_mul] at hend
    rw [Nat.mul_comm stride,Nat.mul_comm stride]
    omega
  · rw [Nat.mul_add_mod,Nat.mod_eq_of_lt (by omega)]
    exact hx

/-- Rows that keep their places end before the modulus, or their stride divides it: the
first row behind the modulus begins inside the first row otherwise, in front of its end
by the remainder. -/
theorem KeepsRows.end_or_dvd (hkeeps : KeepsRows modulus stride w h) (hpos : 0<w)
    (hw : w ≤ stride) (hle : stride ≤ modulus) : (h-1)*stride+w ≤ modulus ∨ stride∣modulus := by
  by_contra hnot
  rw [not_or,not_le] at hnot
  obtain ⟨hend,hdvd⟩ := hnot
  have hrem : 0 < modulus%stride :=
    Nat.pos_of_ne_zero fun h0 => hdvd (Nat.dvd_of_mod_eq_zero h0)
  have hremlt := Nat.mod_lt modulus (show 0<stride by omega)
  have hsplit := Nat.div_add_mod' modulus stride
  generalize modulus/stride=rows at hsplit
  have hreach : rows≤h-1 := by
    by_contra hlt
    have hmul : (h-1+1)*stride≤rows*stride := Nat.mul_le_mul_right stride (by omega)
    rw [Nat.add_mul] at hmul
    omega
  have hsome : 0<h := by
    refine Nat.pos_of_ne_zero fun h0 => ?_
    rw [h0,Nat.zero_sub,Nat.zero_mul] at hend
    omega
  have hlast := (hkeeps rows (by omega)).1
  rw [Nat.mod_eq_of_lt (a:=rows*stride) (by omega)] at hlast
  have hnext : rows+1≤h-1 := by
    refine Nat.succ_le_of_lt (lt_of_le_of_ne hreach fun he => ?_)
    rw [←he] at hend
    omega
  have hbehind : (rows+1)*stride%modulus=stride-modulus%stride := by
    have hsum : (rows+1)*stride=modulus+(stride-modulus%stride) := by
      rw [Nat.add_mul,Nat.one_mul]
      omega
    rw [hsum,Nat.add_mod_left,Nat.mod_eq_of_lt (by omega)]
  have hcol := (hkeeps (rows+1) (by omega)).2 (w-1) (by omega)
  rw [hbehind,Nat.mod_eq_of_lt (by omega)] at hcol
  omega

/-- Words of one colour: what is stored is that colour at the indices of the list. -/
theorem applyWrites_apply {color : α} (hcolor : ∀ wr∈writes, wr.2=color) (buf : ℕ → α) (i : ℕ) :
    applyWrites buf writes i=if i∈writes.map Prod.fst then color else buf i := by
  induction writes generalizing buf with
  | nil => rfl
  | cons wr rest ih =>
    rw [applyWrites,List.foldl_cons,←applyWrites,
      ih (fun x hx => hcolor x (List.mem_cons_of_mem _ hx)),Function.update_apply,
      hcolor wr List.mem_cons_self]
    simp only [List.map_cons,List.mem_cons]
    by_cases hrest : i∈rest.map Prod.fst
    · rw [if_pos hrest,if_pos (Or.inr hrest)]
    · by_cases hfirst : i=wr.1
      · rw [if_neg hrest,if_pos hfirst,if_pos (Or.inl hfirst)]
      · rw [if_neg hrest,if_neg hfirst,if_neg (not_or.mpr ⟨hfirst,hrest⟩)]

/-- Words of one colour have the same effect on all contents exactly when their indices
are the same. -/
theorem applyWrites_eq_iff {color other : α} (hne : other≠color)
    (hcolor : ∀ wr∈writes, wr.2=color) (hcolor' : ∀ wr∈writes', wr.2=color) :
    (∀ buf, applyWrites buf writes=applyWrites buf writes') ↔
      ∀ i, i∈writes.map Prod.fst ↔ i∈writes'.map Prod.fst := by
  constructor
  · intro heq i
    have hi := congrFun (heq fun _ => other) i
    rw [applyWrites_apply hcolor,applyWrites_apply hcolor'] at hi
    by_cases hin : i∈writes.map Prod.fst
    · rw [if_pos hin] at hi
      refine iff_of_true hin (by_contra fun hout => ?_)
      rw [if_neg hout] at hi
      exact hne hi.symm
    · rw [if_neg hin] at hi
      refine iff_of_false hin fun hin' => ?_
      rw [if_pos hin'] at hi
      exact hne hi
  · intro hsame buf
    funext i
    rw [applyWrites_apply hcolor,applyWrites_apply hcolor']
    simp only [hsame i]

end OvsbMk.StridedRows
