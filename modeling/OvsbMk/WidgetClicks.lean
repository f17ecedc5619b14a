import Mathlib.Tactic

/-!
# Clicks on the rows of widgets

A list view, a combo box and a menu draw their items in rows, and find the row of a click
by dividing with truncation. The line just above the first row is divided to the first row,
too, and the list view does not ask whether the row is one of those it draws.
-/

namespace OvsbMk.WidgetClicks

/-- Position and size of a widget. -/
structure Base where
  /-- The column. -/
  x : Int32
  /-- The line. -/
  y : Int32
  /-- Columns. -/
  w : Int32
  /-- Lines. -/
  h : Int32

/-- The colours that the widgets use. -/
structure Theme where
  /-- Of the background. -/
  bgPrimary : UInt32
  /-- Of the background of a widget. -/
  bgSecondary : UInt32
  /-- Of a text. -/
  textPrimary : UInt32
  /-- Of a text that is not selected. -/
  textSecondary : UInt32
  /-- Of what is selected. -/
  accent : UInt32
  /-- Of a border. -/
  border : UInt32

/-- Items of a widget, which has room for a number of them, and the selected one. -/
structure Items (capacity : ℤ) where
  /-- The text at an index; what is found there when it is not the index of an item. -/
  text : Int32 → List UInt8
  /-- Number of items. -/
  count : Int32
  /-- The number is not negative. -/
  count_nonneg : 0≤count.toInt
  /-- There is room for the items. -/
  count_le : count.toInt≤capacity
  /-- Index of the selected item. -/
  selected : Int32

/-- A list view. -/
structure Listview where
  /-- Position and size. -/
  base : Base
  /-- The items. -/
  items : Items 32
  /-- Index of the item of the first row. -/
  scrollOffset : Int32

/-- A combo box. -/
structure Combobox where
  /-- Position and size. -/
  base : Base
  /-- The items. -/
  items : Items 16
  /-- The items are shown. -/
  isOpen : Bool

/-- A menu. The selected item is the one below the mouse. -/
structure Menu where
  /-- Position and size. -/
  base : Base
  /-- The items. -/
  items : Items 16
  /-- The items are shown. -/
  isOpen : Bool

/-- A call of the drawing library. -/
inductive Draw where
  /-- `owt_draw_rect`. -/
  | rect (x y w h : Int32) (color : UInt32)
  /-- `owt_draw_text`. -/
  | text (x y : Int32) (text : List UInt8) (color : UInt32)

/-- The lines that a call draws on: those of a rectangle, and the sixteen of a character. -/
def Draw.On : Draw → Int32 → Prop
  | .rect _ y _ h _, line => y≤line ∧ line<y+h
  | .text _ y _ _, line =>
    ∃ r : ℕ, r<8 ∧ (line=y+Int32.ofNat r*2 ∨ line=y+Int32.ofNat r*2+1)

/-! ### Drawing -/

/-- Rows for which a list view has room. -/
def Listview.visible (lv : Listview) : Int32 := (lv.base.h-4)/20

/-- The rows that the loop of `listview_draw` comes to, of some that are left. -/
def Listview.rowsFrom (lv : Listview) : ℕ → Int32 → List Int32
  | 0, _ => []
  | left+1, i => if i+lv.scrollOffset<lv.items.count then i::lv.rowsFrom left (i+1) else []

/-- The rows that `listview_draw` draws. -/
def Listview.rows (lv : Listview) : List Int32 := lv.rowsFrom lv.visible.toInt.toNat 0

/-- First line of a row of a list view. -/
def Listview.rowTop (lv : Listview) (i : Int32) : Int32 := lv.base.y+2+i*20

/-- A row of a list view. -/
def Listview.drawRow (t : Theme) (lv : Listview) (i : Int32) : List Draw :=
  let idx := i+lv.scrollOffset
  let y := lv.rowTop i
  if idx=lv.items.selected then
    [.rect (lv.base.x+2) y (lv.base.w-4) 18 t.accent,
      .text (lv.base.x+6) (y+2) (lv.items.text idx) t.textPrimary]
  else [.text (lv.base.x+6) (y+2) (lv.items.text idx) t.textSecondary]

/-- `listview_draw`. -/
def listviewDraw (t : Theme) (lv : Listview) : List Draw :=
  .rect lv.base.x lv.base.y lv.base.w lv.base.h t.bgSecondary::lv.rows.flatMap (lv.drawRow t)

/-- The indices of the items. -/
def Items.indices {capacity : ℤ} (items : Items capacity) : List Int32 :=
  (List.range items.count.toInt.toNat).map Int32.ofNat

/-- First line of an item of an open combo box. -/
def Combobox.rowTop (cb : Combobox) (i : Int32) : Int32 := cb.base.y+24+i*24

/-- An item of an open combo box. -/
def Combobox.drawRow (t : Theme) (cb : Combobox) (i : Int32) : List Draw :=
  [.rect cb.base.x (cb.rowTop i) cb.base.w 24
      (if i=cb.items.selected then t.accent else t.bgSecondary),
    .text (cb.base.x+4) (cb.base.y+28+i*24) (cb.items.text i) t.textPrimary]

/-- The text of an empty combo box. -/
def selecione : List UInt8 := [83,101,108,101,99,105,111,110,101,46,46,46]

/-- `combobox_draw`. -/
def comboboxDraw (t : Theme) (cb : Combobox) : List Draw :=
  [.rect cb.base.x cb.base.y cb.base.w 24 t.bgSecondary,
    .rect cb.base.x cb.base.y cb.base.w 1 t.border,
    .rect cb.base.x (cb.base.y+23) cb.base.w 1 t.border,
    .rect cb.base.x cb.base.y 1 24 t.border,
    .rect (cb.base.x+cb.base.w-1) cb.base.y 1 24 t.border,
    .text (cb.base.x+cb.base.w-20) (cb.base.y+4) [118] t.textPrimary,
    if 0≤cb.items.selected ∧ cb.items.selected<cb.items.count then
      .text (cb.base.x+4) (cb.base.y+4) (cb.items.text cb.items.selected) t.textPrimary
    else .text (cb.base.x+4) (cb.base.y+4) selecione t.textSecondary]++
  if cb.isOpen then
    .rect cb.base.x (cb.base.y+24) cb.base.w (cb.items.count*24) t.bgPrimary::
      cb.items.indices.flatMap (cb.drawRow t)
  else []

/-- First line of an item of an open menu. -/
def Menu.rowTop (m : Menu) (i : Int32) : Int32 := m.base.y+22+i*22

/-- An item of an open menu. -/
def Menu.drawRow (t : Theme) (m : Menu) (i : Int32) : List Draw :=
  [.rect m.base.x (m.rowTop i) 150 22 (if i=m.items.selected then t.accent else t.bgPrimary),
    .text (m.base.x+4) (m.base.y+25+i*22) (m.items.text i) t.textPrimary]

/-- The texts of the items side by side, from a column on; separators leave a gap. -/
def Menu.drawBar (t : Theme) (m : Menu) : Int32 → List Int32 → List Draw
  | _, [] => []
  | cx, i::rest =>
    if (m.items.text i).head?=some 45 then m.drawBar t (cx+16) rest
    else .text cx (m.base.y+3) (m.items.text i) t.textPrimary::
      m.drawBar t (cx+(Int32.ofNat (m.items.text i).length*8+16)) rest

/-- `menu_draw`. -/
def menuDraw (t : Theme) (m : Menu) : List Draw :=
  [.rect m.base.x m.base.y m.base.w 22 t.bgSecondary,
    .rect m.base.x (m.base.y+21) m.base.w 1 t.border]++
  m.drawBar t (m.base.x+4) m.items.indices++
  if m.isOpen then
    .rect m.base.x (m.base.y+22) 150 (m.items.count*22) t.bgPrimary::
      m.items.indices.flatMap (m.drawRow t)
  else []

/-! ### Clicks -/

/-- `owt_listview_click`: the item that is selected, if any. -/
def owtListviewClick (lv : Listview) (mouseY : Int32) : Option Int32×Listview :=
  let relY := mouseY-lv.base.y-2
  let index := relY/20+lv.scrollOffset
  if 0 ≤ index ∧ index<lv.items.count then
    (some index,{ lv with items := { lv.items with selected := index } })
  else (none,lv)

/-- `owt_combobox_click`: the item that is selected, if any. -/
def owtComboboxClick (cb : Combobox) (mouseY : Int32) : Option Int32×Combobox :=
  if !cb.isOpen then (none,{ cb with isOpen := true })
  else
    let relY := mouseY-cb.base.y-24
    let index := relY/24
    if 0 ≤ index ∧ index<cb.items.count then
      (some index,{ cb with items := { cb.items with selected := index }, isOpen := false })
    else (none,{ cb with isOpen := false })

/-- `owt_menu_click`: the item whose action is called, if any. -/
def owtMenuClick (m : Menu) (mouseY : Int32) : Option Int32×Menu :=
  if !m.isOpen then (none,{ m with isOpen := true })
  else
    let relY := mouseY-m.base.y-22
    let index := relY/22
    if 0 ≤ index ∧ index < m.items.count then (some index,{ m with isOpen := false })
    else (none,{ m with isOpen := false })

/-! ### The rows of items -/

/-- A line is one of some lines from a top on. -/
def InBand (top : Int32) (pitch : ℕ) (line : Int32) : Prop := ∃ j<pitch, line=top+Int32.ofNat j

/-- A list view draws an item in a row with a line: up to the top of the next row. -/
def Listview.Shows (lv : Listview) (item line : Int32) : Prop :=
  ∃ i∈lv.rows, i+lv.scrollOffset=item ∧ InBand (lv.rowTop i) 20 line

/-- An open combo box draws an item in a row with a line. -/
def Combobox.Shows (cb : Combobox) (item line : Int32) : Prop :=
  item∈cb.items.indices ∧ InBand (cb.rowTop item) 24 line

/-- An open menu draws an item in a row with a line. -/
def Menu.Shows (m : Menu) (item line : Int32) : Prop :=
  item∈m.items.indices ∧ InBand (m.rowTop item) 22 line

/-- A click picks an item if and only if it is on the row of the item. -/
def Hits {capacity : ℤ} (items : Items capacity) (picked : Option Int32)
    (shows_ : Int32 → Prop) : Prop :=
  (∀ item, 0 ≤ item → item < items.count → (picked=some item ↔ shows_ item)) ∧
    ∀ item, picked=some item → 0 ≤ item ∧ item < items.count

/-- A list view hits with a click. -/
def Listview.Hits (lv : Listview) (mouseY : Int32) : Prop :=
  WidgetClicks.Hits lv.items (owtListviewClick lv mouseY).1 (lv.Shows · mouseY)

/-- A combo box hits with a click. -/
def Combobox.Hits (cb : Combobox) (mouseY : Int32) : Prop :=
  WidgetClicks.Hits cb.items (owtComboboxClick cb mouseY).1 (cb.Shows · mouseY)

/-- A menu hits with a click. -/
def Menu.Hits (m : Menu) (mouseY : Int32) : Prop :=
  WidgetClicks.Hits m.items (owtMenuClick m mouseY).1 (m.Shows · mouseY)

/-! ### Lines and rows as numbers -/

variable {y a line : Int32} {c k p : ℤ}

/-- A line a number of lines below another one. -/
theorem line_iff (h1 : -2^31≤c) (h2 : c<2^31) : line=y+a+Int32.ofInt c ↔ (line-y-a).toInt=c := by
  rw [←Int32.toInt_ofInt_of_le h1 h2,Int32.toInt_inj,Int32.sub_eq_iff_eq_add,
    Int32.sub_eq_iff_eq_add,Int32.toInt_ofInt_of_le h1 h2,Int32.add_comm _ (Int32.ofInt c),
    Int32.add_comm y a,Int32.add_assoc]

/-- Division that truncates: the rows above the first one end at their top lines. -/
theorem tdiv_eq_iff {r : ℤ} (hp : 0<p) :
    r.tdiv p=k ↔ 0≤r ∧ k*p≤r ∧ r<k*p+p ∨ r<0 ∧ k*p-p<r ∧ r≤k*p := by
  by_cases hr : 0≤r
  · rw [Int.tdiv_eq_ediv_of_nonneg hr,Int.ediv_eq_iff_of_pos hp]
    omega
  · have hneg : r.tdiv p= -((-r)/p) := by
      rw [←Int.tdiv_eq_ediv_of_nonneg (by omega),Int.neg_tdiv,Int.neg_neg]
    have hquot : (-r)/p= -k ↔ -k*p≤ -r ∧ -r< -k*p+p := Int.ediv_eq_iff_of_pos hp
    rw [Int.neg_mul] at hquot
    rw [hneg]
    omega

/-- The lines of a row that has a number. -/
theorem inBand_iff {n : ℕ} (hk : 0≤k) (hlast : k*n+n≤2^31) :
    InBand (y+a+Int32.ofInt k*Int32.ofInt n) n line ↔
      k*n≤(line-y-a).toInt ∧ (line-y-a).toInt<k*n+n := by
  have hkn : 0≤k*n := Int.mul_nonneg hk (Int.natCast_nonneg n)
  have hline : ∀ j<n, line=y+a+Int32.ofInt k*Int32.ofInt n+Int32.ofNat j ↔
      (line-y-a).toInt=k*n+j := by
    intro j hj
    rw [←line_iff (by omega) (by omega),Int32.ofInt_add,Int32.ofInt_mul,Int32.add_assoc _ _
      (Int32.ofNat j)]
    simp only [Int32.ofInt_eq_ofNat]
  unfold InBand
  constructor
  · intro h
    obtain ⟨j,hj,heq⟩ := h
    have hr := (hline j hj).mp heq
    omega
  · intro h
    refine ⟨((line-y-a).toInt-k*n).toNat,by omega,(hline _ (by omega)).mpr (by omega)⟩

/-! ### The combo box and the menu -/

/-- The index of an item. -/
theorem mem_indices {capacity : ℤ} {items : Items capacity} {item : Int32} :
    item∈items.indices ↔ 0 ≤ item.toInt ∧ item.toInt < items.count.toInt := by
  have hcount := items.count.toInt_lt
  unfold Items.indices
  rw [List.mem_map]
  constructor
  · intro h
    obtain ⟨n,hn,rfl⟩ := h
    rw [List.mem_range] at hn
    rw [←Int32.ofInt_eq_ofNat,Int32.toInt_ofInt_of_le (by omega) (by omega)]
    omega
  · intro h
    refine ⟨item.toInt.toNat,List.mem_range.mpr (by omega),?_⟩
    rw [←Int32.ofInt_eq_ofNat,Int.toNat_of_nonneg h.1,Int32.ofInt_toInt]

/-- A row of sixteen that are drawn from a line on. -/
theorem shows_iff {items : Items 16} {item : Int32} {n : ℕ} (hn : n≤24) :
    (item∈items.indices ∧ InBand (y+a+item*Int32.ofInt n) n line) ↔
      0 ≤ item.toInt ∧ item.toInt < items.count.toInt ∧ item.toInt*n≤(line-y-a).toInt ∧
        (line-y-a).toInt < item.toInt*n+n := by
  have hroom := items.count_le
  rw [mem_indices,and_assoc]
  refine and_congr_right fun h0 => and_congr_right fun hlt => ?_
  have hmul : item.toInt*n≤15*n := Int.mul_le_mul_of_nonneg_right (by omega) (by omega)
  have hband : InBand (y+a+Int32.ofInt item.toInt*Int32.ofInt n) n line ↔ _ :=
    inBand_iff h0 (by omega)
  rw [Int32.ofInt_toInt] at hband
  exact hband

/-- The index that a click picks when there is an item with it. -/
def pick {capacity : ℤ} (items : Items capacity) (index : Int32) : Option Int32 :=
  if 0 ≤ index ∧ index < items.count then some index else none

/-- What is picked. -/
theorem pick_eq_some_iff {capacity : ℤ} {items : Items capacity} {index item : Int32} :
    pick items index=some item ↔
      0 ≤ item.toInt ∧ item.toInt < items.count.toInt ∧ item.toInt=index.toInt := by
  have hcond : 0 ≤ index ∧ index < items.count ↔
      0 ≤ index.toInt ∧ index.toInt < items.count.toInt := by
    rw [Int32.le_iff_toInt_le,Int32.lt_iff_toInt_lt,Int32.toInt_zero]
  unfold pick
  rw [Int32.toInt_inj]
  constructor
  · intro h
    split at h
    next hin =>
      rw [Option.some.injEq] at h
      subst h
      have hrange := hcond.mp hin
      exact ⟨hrange.1,hrange.2,rfl⟩
    next => cases h
  · intro h
    obtain ⟨h1,h2,rfl⟩ := h
    rw [if_pos (hcond.mpr ⟨h1,h2⟩)]

/-- A pick hits if it is that of the item that is shown. -/
theorem hits_pick_iff {capacity : ℤ} {items : Items capacity} {index : Int32}
    {shows_ : Int32 → Prop} : Hits items (pick items index) shows_ ↔
      ∀ item, 0 ≤ item.toInt → item.toInt < items.count.toInt →
        (item.toInt=index.toInt ↔ shows_ item) := by
  unfold Hits
  simp only [pick_eq_some_iff,Int32.le_iff_toInt_le,Int32.lt_iff_toInt_lt,Int32.toInt_zero]
  constructor
  · intro h item h1 h2
    rw [←h.1 item h1 h2]
    exact ⟨fun heq => ⟨h1,h2,heq⟩,fun hand => hand.2.2⟩
  · intro h
    refine ⟨fun item h1 h2 => ?_,fun item hand => ⟨hand.1,hand.2.1⟩⟩
    rw [←h item h1 h2]
    exact ⟨fun hand => hand.2.2,fun heq => ⟨h1,h2,heq⟩⟩

/-- Clicks on rows from a line on hit if and only if there is no item, or the click is not on
one of the lines above the first row that the division takes for it. -/
theorem rows_hit_iff {items : Items 16} {n : ℕ} (hpos : 0<n) (hn : n≤24) :
    Hits items (pick items ((line-y-a)/Int32.ofInt n))
        (fun item => item∈items.indices ∧ InBand (y+a+item*Int32.ofInt n) n line) ↔
      ¬(0 < items.count.toInt ∧ ∃ c : ℤ, -n<c ∧ c<0 ∧ line=y+a+Int32.ofInt c) := by
  have hroom := items.count_le
  have hsize : (Int32.ofInt n).toInt=n := Int32.toInt_ofInt_of_le (by omega) (by omega)
  have hquot : ((line-y-a)/Int32.ofInt n).toInt=(line-y-a).toInt.tdiv n := by
    rw [Int32.toInt_div_of_ne_right,hsize]
    intro hneg
    rw [hneg] at hsize
    revert hsize
    rw [show (-1 : Int32).toInt= -1 from rfl]
    omega
  have hline : (∃ c : ℤ, -n<c ∧ c<0 ∧ line=y+a+Int32.ofInt c) ↔
      -n<(line-y-a).toInt ∧ (line-y-a).toInt<0 := by
    constructor
    · intro h
      obtain ⟨c,h1,h2,heq⟩ := h
      rw [line_iff (by omega) (by omega)] at heq
      omega
    · intro h
      exact ⟨_,h.1,h.2,(line_iff (by omega) (by omega)).mpr rfl⟩
  rw [hits_pick_iff,hline,hquot]
  simp only [shows_iff hn]
  generalize (line-y-a).toInt=r
  constructor
  · intro h hbad
    -- the first item is picked
    have hzero := h 0 (by decide) hbad.1
    rw [Int32.toInt_zero,eq_comm,tdiv_eq_iff (by omega)] at hzero
    omega
  · intro h item h1 h2
    rw [eq_comm,tdiv_eq_iff (by omega)]
    by_cases hfirst : item.toInt=0
    · rw [hfirst]
      omega
    · have hmul : 1*(n : ℤ) ≤ item.toInt*n := Int.mul_le_mul_of_nonneg_right (by omega) (by omega)
      omega

/-! ### The list view -/

variable {lv : Listview}

/-- A sum that stays in range. -/
theorem toInt_add_eq_iff {x s item : Int32} (hx : x.toInt.natAbs≤2^29) (h0 : 0 ≤ item.toInt)
    (hitem : item.toInt≤2^30) : item.toInt=(x+s).toInt ↔ item.toInt=x.toInt+s.toInt := by
  have h1 := s.le_toInt
  have h2 := s.toInt_lt
  rw [Int32.toInt_add]
  unfold Int.bmod
  dsimp only
  split <;> omega

/-- There are not so many rows that their lines overflow. -/
theorem quotient_le {x : Int32} : (x/20).toInt.natAbs≤107374182 := by
  have h1 := x.le_toInt
  have h2 := x.toInt_lt
  have htwenty : (20 : Int32).toInt=20 := rfl
  rw [Int32.toInt_div_of_ne_right _ _ (by decide),htwenty]
  have hquot := (tdiv_eq_iff (by decide) : x.toInt.tdiv 20=x.toInt.tdiv 20 ↔ _).mp rfl
  omega

/-- The rows that the loop comes to are those before the first one without an item. -/
theorem mem_rowsFrom {left start : ℕ} {i : Int32} :
    i∈lv.rowsFrom left (Int32.ofNat start) ↔ ∃ d<left, i=Int32.ofNat (start+d) ∧
      ∀ e≤d, Int32.ofNat (start+e)+lv.scrollOffset<lv.items.count := by
  induction left generalizing start with
  | zero => simp [Listview.rowsFrom]
  | succ left ih =>
    have hnext : Int32.ofNat start+1=Int32.ofNat (start+1) := (Int32.ofNat_add start 1).symm
    unfold Listview.rowsFrom
    rw [hnext]
    constructor
    · intro h
      split at h
      next hin =>
        cases List.mem_cons.mp h with
        | inl heq =>
          refine ⟨0,by omega,heq,fun e he => ?_⟩
          rw [Nat.le_zero.mp he]
          exact hin
        | inr hmem =>
          obtain ⟨d,hd,heq,hall⟩ := ih.mp hmem
          refine ⟨d+1,by omega,by rw [heq,Nat.add_assoc,Nat.add_comm 1],fun e he => ?_⟩
          cases e with
          | zero => exact hin
          | succ e =>
            have hrow := hall e (by omega)
            rwa [Nat.add_assoc,Nat.add_comm 1] at hrow
      next => cases h
    · intro h
      obtain ⟨d,hd,heq,hall⟩ := h
      have hhead : Int32.ofNat start+lv.scrollOffset<lv.items.count := hall 0 (Nat.zero_le d)
      rw [if_pos hhead]
      cases d with
      | zero => exact heq ▸ List.mem_cons_self
      | succ d =>
        refine List.mem_cons_of_mem _ (ih.mpr ⟨d,by omega,?_,fun e he => ?_⟩)
        · rw [heq,Nat.add_assoc,Nat.add_comm 1]
        · rw [Nat.add_assoc,Nat.add_comm 1]
          exact hall (e+1) (by omega)

/-- The list view draws an item in the row with its distance from the first item drawn, if
there is room for the row. -/
theorem Listview.shows_iff {item : Int32} (h0 : 0 ≤ item.toInt)
    (hitem : item.toInt<lv.items.count.toInt) : lv.Shows item line ↔
      0 ≤ item.toInt-lv.scrollOffset.toInt ∧
      item.toInt-lv.scrollOffset.toInt<lv.visible.toInt ∧
      (item.toInt-lv.scrollOffset.toInt)*20≤(line-lv.base.y-2).toInt ∧
      (line-lv.base.y-2).toInt<(item.toInt-lv.scrollOffset.toInt)*20+20 := by
  have hroom := lv.items.count_le
  have hvisible : lv.visible.toInt.natAbs≤107374182 := quotient_le
  have hscroll := lv.scrollOffset.le_toInt
  have hnum : ∀ d : ℕ, d<lv.visible.toInt.toNat → (Int32.ofNat d).toInt=d := by
    intro d hd
    rw [←Int32.ofInt_eq_ofNat]
    exact Int32.toInt_ofInt_of_le (by omega) (by omega)
  have hband : ∀ d : ℕ, d<lv.visible.toInt.toNat → (InBand (lv.rowTop (Int32.ofNat d)) 20 line ↔
      d*20≤(line-lv.base.y-2).toInt ∧ (line-lv.base.y-2).toInt<d*20+20) := by
    intro d hd
    rw [←Int32.ofInt_eq_ofNat]
    exact inBand_iff (n:=20) (by omega) (by omega)
  have hrow : ∀ d : ℕ, d<lv.visible.toInt.toNat →
      (Int32.ofNat d+lv.scrollOffset=item ↔ item.toInt=d+lv.scrollOffset.toInt) := by
    intro d hd
    have hsum := toInt_add_eq_iff (x:=Int32.ofNat d) (s:=lv.scrollOffset)
      (by rw [hnum d hd]; omega) h0 (by omega)
    rw [hnum d hd] at hsum
    rw [←hsum,eq_comm,Int32.toInt_inj]
  have hzero : (0 : Int32)=Int32.ofNat 0 := rfl
  unfold Listview.Shows Listview.rows
  simp only [hzero,mem_rowsFrom,Nat.zero_add]
  constructor
  · intro h
    obtain ⟨i,⟨d,hd,rfl,_⟩,heq,hin⟩ := h
    have hpos := (hrow d hd).mp heq
    have hlines := (hband d hd).mp hin
    omega
  · intro h
    have hd : (item.toInt-lv.scrollOffset.toInt).toNat<lv.visible.toInt.toNat := by omega
    refine ⟨_,⟨_,hd,rfl,fun e he => ?_⟩,(hrow _ hd).mpr (by omega),(hband _ hd).mpr (by omega)⟩
    -- the rows before it have items, too, or are above the first item
    rw [Int32.lt_iff_toInt_lt,Int32.toInt_add,hnum e (by omega)]
    unfold Int.bmod
    dsimp only
    split <;> omega

/-- A click is beside the rows of a list view: it is on a line that the division takes for a
row which has an item but is not drawn. -/
def Listview.Beside (lv : Listview) (mouseY : Int32) : Prop :=
  ∃ k c : ℤ, 0≤k+lv.scrollOffset.toInt ∧ k+lv.scrollOffset.toInt<lv.items.count.toInt ∧
    -2^31≤c ∧ c<2^31 ∧ mouseY=lv.base.y+2+Int32.ofInt c ∧
    (0≤c ∧ k*20≤c ∧ c<k*20+20 ∧ lv.visible.toInt≤k ∨ c<0 ∧ k*20-20<c ∧ c≤k*20)

/-- A list view hits if and only if the click is not beside its rows. -/
theorem Listview.hits_iff (lv : Listview) (mouseY : Int32) :
    lv.Hits mouseY ↔ ¬lv.Beside mouseY := by
  have hroom := lv.items.count_le
  have htwenty : (20 : Int32).toInt=20 := rfl
  have hclick : (owtListviewClick lv mouseY).1=
      pick lv.items ((mouseY-lv.base.y-2)/20+lv.scrollOffset) := by
    unfold owtListviewClick pick
    dsimp only
    split <;> rfl
  have hindex : ∀ item : Int32, 0 ≤ item.toInt → item.toInt<lv.items.count.toInt →
      (item.toInt=((mouseY-lv.base.y-2)/20+lv.scrollOffset).toInt ↔
        (mouseY-lv.base.y-2).toInt.tdiv 20=item.toInt-lv.scrollOffset.toInt) := by
    intro item h1 h2
    have hquot : ((mouseY-lv.base.y-2)/20).toInt.natAbs≤107374182 := quotient_le
    rw [toInt_add_eq_iff (by omega) h1 (by omega),Int32.toInt_div_of_ne_right _ _ (by decide),
      htwenty]
    omega
  unfold Listview.Hits Listview.Beside
  rw [hclick,hits_pick_iff]
  constructor
  · intro h hbad
    obtain ⟨k,c,h1,h2,hc1,hc2,hline,hbeside⟩ := hbad
    rw [line_iff hc1 hc2] at hline
    have hitem : (Int32.ofInt (k+lv.scrollOffset.toInt)).toInt=k+lv.scrollOffset.toInt :=
      Int32.toInt_ofInt_of_le (by omega) (by omega)
    have hiff := h (Int32.ofInt (k+lv.scrollOffset.toInt)) (by omega) (by omega)
    rw [hindex _ (by omega) (by omega),Listview.shows_iff (by omega) (by omega),hitem,hline,
      tdiv_eq_iff (by decide)] at hiff
    omega
  · intro h item h1 h2
    rw [hindex item h1 h2,Listview.shows_iff h1 h2,tdiv_eq_iff (by decide)]
    have hnot : ¬_ := fun hbeside => h ⟨item.toInt-lv.scrollOffset.toInt,(mouseY-lv.base.y-2).toInt,
      by omega,by omega,Int32.le_toInt _,Int32.toInt_lt _,(line_iff (Int32.le_toInt _)
        (Int32.toInt_lt _)).mpr rfl,hbeside⟩
    omega

/-! ### What is drawn lies in the rows -/

variable {t : Theme} {d : Draw} {x w h top : Int32} {color : UInt32} {text : List UInt8} {n : ℕ}

/-- The lines of a rectangle are as many as it is high. -/
theorem rect_inBand (h0 : 0≤h.toInt) (hn : h.toInt≤n) (hon : (Draw.rect x top w h color).On line) :
    InBand top n line := by
  have hlow := Int32.le_iff_toInt_le.mp hon.1
  have hhigh := Int32.lt_iff_toInt_lt.mp hon.2
  have hline : line=top+Int32.ofInt (line.toInt-top.toInt) := by
    rw [Int32.ofInt_sub,Int32.ofInt_toInt,Int32.ofInt_toInt]
    grind
  rw [Int32.toInt_add] at hhigh
  unfold Int.bmod at hhigh
  dsimp only at hhigh
  have h1 := top.le_toInt
  have h2 := top.toInt_lt
  have h3 := h.le_toInt
  have h4 := h.toInt_lt
  refine ⟨(line.toInt-top.toInt).toNat,by split at hhigh <;> omega,?_⟩
  rw [←Int32.ofInt_eq_ofNat,Int.toNat_of_nonneg (by omega)]
  exact hline

/-- The lines of a text lie in a row that ends behind them. -/
theorem text_inBand {k : ℕ} (hk : k+16≤n)
    (hon : (Draw.text x (top+Int32.ofNat k) text color).On line) : InBand top n line := by
  have hsum : ∀ r : ℕ, Int32.ofNat (k+r*2)=Int32.ofNat k+Int32.ofNat r*2 := by
    intro r
    rw [Int32.ofNat_add,Int32.ofNat_mul]
    rfl
  obtain ⟨r,hr,heq⟩ := hon
  cases heq with
  | inl heq =>
    refine ⟨k+r*2,by omega,?_⟩
    rw [heq,hsum,Int32.add_assoc]
  | inr heq =>
    refine ⟨k+r*2+1,by omega,?_⟩
    rw [heq,Int32.ofNat_add,hsum]
    grind

/-- A rectangle and a text on it are drawn in the lines of the band. -/
theorem pair_inBand {k : ℕ} {x' : Int32} {color' : UInt32} (h0 : 0≤h.toInt)
    (hn : h.toInt≤n) (hk : k+16≤n)
    (hd : d∈[Draw.rect x top w h color,Draw.text x' (top+Int32.ofNat k) text color'])
    (hon : d.On line) : InBand top n line := by
  cases List.mem_cons.mp hd with
  | inl heq =>
    rw [heq] at hon
    exact rect_inBand h0 hn hon
  | inr hmem =>
    rw [List.mem_singleton.mp hmem] at hon
    exact text_inBand hk hon

/-- A row of a list view is drawn in its lines. -/
theorem Listview.drawRow_inBand {i : Int32} (hd : d∈lv.drawRow t i) (hon : d.On line) :
    InBand (lv.rowTop i) 20 line := by
  unfold Listview.drawRow at hd
  dsimp only at hd
  split at hd
  · exact pair_inBand (k:=2) (by decide) (by decide) (by decide) hd hon
  · rw [List.mem_singleton.mp hd] at hon
    exact text_inBand (k:=2) (by decide) hon

/-- A row of a combo box is drawn in its lines. -/
theorem Combobox.drawRow_inBand {cb : Combobox} {i : Int32} (hd : d∈cb.drawRow t i)
    (hon : d.On line) : InBand (cb.rowTop i) 24 line := by
  have htext : cb.base.y+28+i*24=cb.rowTop i+Int32.ofNat 4 := by
    unfold Combobox.rowTop
    grind
  unfold Combobox.drawRow at hd
  rw [htext] at hd
  exact pair_inBand (by decide) (by decide) (by decide) hd hon

/-- A row of a menu is drawn in its lines. -/
theorem Menu.drawRow_inBand {m : Menu} {i : Int32} (hd : d∈m.drawRow t i) (hon : d.On line) :
    InBand (m.rowTop i) 22 line := by
  have htext : m.base.y+25+i*22=m.rowTop i+Int32.ofNat 3 := by
    unfold Menu.rowTop
    grind
  unfold Menu.drawRow at hd
  rw [htext] at hd
  exact pair_inBand (by decide) (by decide) (by decide) hd hon

/-! ### The three widgets -/

/-- Lines just above the first row, as lines below the top of the widget. -/
theorem above_iff {n : ℕ} :
    (∃ c : ℤ, -n<c ∧ c<0 ∧ line=y+Int32.ofInt n+Int32.ofInt c) ↔
      ∃ j : ℕ, 0<j ∧ j<n ∧ line=y+Int32.ofNat j := by
  constructor
  · intro h
    obtain ⟨c,h1,h2,heq⟩ := h
    refine ⟨(n+c).toNat,by omega,by omega,?_⟩
    rw [heq,←Int32.ofInt_eq_ofNat,Int.toNat_of_nonneg (by omega),Int32.ofInt_add,Int32.add_assoc]
  · intro h
    obtain ⟨j,h1,h2,heq⟩ := h
    refine ⟨j-n,by omega,by omega,?_⟩
    rw [heq,←Int32.ofInt_eq_ofNat,Int32.ofInt_sub]
    grind

/-- An open combo box hits if and only if it has no item, or the click is not on the closed
part below its first line. -/
theorem Combobox.hits_iff {cb : Combobox} (hopen : cb.isOpen=true) (mouseY : Int32) :
    cb.Hits mouseY ↔ ¬(0<cb.items.count.toInt ∧
      ∃ j : ℕ, 0<j ∧ j<24 ∧ mouseY=cb.base.y+Int32.ofNat j) := by
  have hclick : (owtComboboxClick cb mouseY).1=
      pick cb.items ((mouseY-cb.base.y-24)/24) := by
    unfold owtComboboxClick pick
    rw [hopen,Bool.not_true,if_neg Bool.false_ne_true]
    dsimp only
    split <;> rfl
  unfold Combobox.Hits
  rw [hclick,←above_iff]
  exact rows_hit_iff (n:=24) (a:=24) (by decide) (Nat.le_refl 24)

/-- An open menu hits if and only if it has no item, or the click is not on the bar below
its first line. -/
theorem Menu.hits_iff {m : Menu} (hopen : m.isOpen=true) (mouseY : Int32) :
    m.Hits mouseY ↔ ¬(0 < m.items.count.toInt ∧
      ∃ j : ℕ, 0<j ∧ j<22 ∧ mouseY=m.base.y+Int32.ofNat j) := by
  have hclick : (owtMenuClick m mouseY).1=
      pick m.items ((mouseY-m.base.y-22)/22) := by
    unfold owtMenuClick pick
    rw [hopen,Bool.not_true,if_neg Bool.false_ne_true]
    dsimp only
    split <;> rfl
  unfold Menu.Hits
  rw [hclick,←above_iff]
  exact rows_hit_iff (n:=22) (a:=22) (by decide) (by decide)

/-- Exactly which clicks hit: on a list view those that are not beside its rows, on an open
combo box and an open menu those that are not on the lines from the second one of the widget
to its first row, while there is an item. -/
theorem clicks_hit_iff (lv : Listview) (cb : Combobox) (m : Menu) (mouseY : Int32)
    (hcb : cb.isOpen=true) (hm : m.isOpen=true) :
    (lv.Hits mouseY ↔ ¬lv.Beside mouseY) ∧
    (cb.Hits mouseY ↔ ¬(0<cb.items.count.toInt ∧
      ∃ j : ℕ, 0<j ∧ j<24 ∧ mouseY=cb.base.y+Int32.ofNat j)) ∧
    (m.Hits mouseY ↔ ¬(0 < m.items.count.toInt ∧
      ∃ j : ℕ, 0<j ∧ j<22 ∧ mouseY=m.base.y+Int32.ofNat j)) :=
  ⟨lv.hits_iff mouseY,Combobox.hits_iff hcb mouseY,Menu.hits_iff hm mouseY⟩

/-- Two items, of which none is selected. -/
def twoItems {capacity : ℤ} (h : 2≤capacity) : Items capacity :=
  ⟨fun _ => [65],2,by decide,h,-1⟩

/-- A list view with room for one row. -/
def sampleListview : Listview := ⟨⟨0,100,80,24⟩,twoItems (by decide),0⟩

/-- An open combo box. -/
def sampleCombobox : Combobox := ⟨⟨0,100,80,24⟩,twoItems (by decide),true⟩

/-- An open menu. -/
def sampleMenu : Menu := ⟨⟨0,100,80,22⟩,twoItems (by decide),true⟩

/-- Clicks on the first row of each. -/
theorem samples_hit : sampleListview.Hits 110 ∧ sampleCombobox.Hits 130 ∧ sampleMenu.Hits 130 := by
  have hcb : ∀ j<24, (130 : Int32)≠100+Int32.ofNat j := by decide
  have hm : ∀ j<22, (130 : Int32)≠100+Int32.ofNat j := by decide
  refine ⟨?_,?_,?_⟩
  · refine (clicks_hit_iff sampleListview sampleCombobox sampleMenu 110 rfl rfl).1.mpr ?_
    intro hbeside
    obtain ⟨k,c,_,_,h1,h2,hline,hrow⟩ := hbeside
    have hc : (8 : ℤ)=c := (line_iff h1 h2).mp hline
    have hvisible : sampleListview.visible.toInt=1 := by decide
    omega
  · refine (clicks_hit_iff sampleListview sampleCombobox sampleMenu 130 rfl rfl).2.1.mpr ?_
    exact fun hbad => hbad.2.elim fun j hj => hcb j hj.2.1 hj.2.2
  · refine (clicks_hit_iff sampleListview sampleCombobox sampleMenu 130 rfl rfl).2.2.mpr ?_
    exact fun hbad => hbad.2.elim fun j hj => hm j hj.2.1 hj.2.2

/-- A click below the row that is drawn selects the item that is not, and a click on the
closed part of the box or on the bar picks the first item. -/
theorem samples_miss :
    ¬sampleListview.Hits 125 ∧ ¬sampleCombobox.Hits 110 ∧ ¬sampleMenu.Hits 110 := by
  refine ⟨?_,?_,?_⟩
  · rw [Listview.hits_iff,not_not]
    exact ⟨1,23,by decide⟩
  · rw [Combobox.hits_iff rfl,not_not]
    exact ⟨by decide,10,by decide⟩
  · rw [Menu.hits_iff rfl,not_not]
    exact ⟨by decide,10,by decide⟩

end OvsbMk.WidgetClicks
