import OvsbMk.IntrusiveList

/-!
# Widgets from one pool

Widgets of every kind are taken from one pool of base records, though all kinds are larger
than a base record, and all children are kept in one list. A widget depends on its own
calls only as long as it is the only one.
-/

namespace OvsbMk.Widgets

open ByteMemory IntrusiveList

/-- The kinds of widgets. -/
inductive Kind where
  /-- A window. -/
  | window
  /-- A button. -/
  | button
  /-- A line of text to be edited. -/
  | textbox
  /-- A list of items. -/
  | listview
  /-- A list of items that opens. -/
  | combobox
  /-- A menu. -/
  | menu
  /-- A text. -/
  | label
  /-- A text at the bottom. -/
  | statusbar
  deriving DecidableEq

/-- Widgets in the pool. -/
abbrev poolSize : ℕ := 64

/-- Bytes of a base record. -/
abbrev recordSize : ℕ := 72

/-- Where the static variables and the code are. -/
structure Statics where
  /-- Address of the pool. -/
  widgets : ℕ
  /-- Address of the list of children. -/
  childPtrs : ℕ
  /-- The drawing function of a kind. -/
  drawOf : Kind → ℕ
  /-- The pool is not at the null address. -/
  widgets_pos : 0<widgets
  /-- The pool is addressable. -/
  widgets_bound : widgets+poolSize*recordSize≤2^64
  /-- The list is addressable. -/
  childPtrs_bound : childPtrs+8*poolSize≤2^64
  /-- Pool and list do not overlap. -/
  separate : Apart widgets (poolSize*recordSize) childPtrs (8*poolSize)

/-- The memory and the number of widgets taken. -/
structure State where
  /-- The memory. -/
  memory : Bytes
  /-- Widgets taken from the pool. -/
  count : ℕ

/-- Value of a word with a sign. -/
def intOf (n : ℕ) : ℤ := if n<2^31 then n else n-2^32

/-- Copy a string of at most the given length and end it: the memory and the length. -/
def copyText (m : Bytes) (dst : ℕ) : ℕ → List UInt8 → Bytes×ℕ
  | limit+1, c::text =>
    if c=0 then (Function.update m dst 0,0)
    else
      let rest := copyText (Function.update m dst c) (dst+1) limit text
      (rest.1,rest.2+1)
  | _, _ => (Function.update m dst 0,0)

/-- Set the fields of a base record. -/
def initBase (m : Bytes) (p : ℕ) (x y w h : UInt32) : Bytes :=
  let m := store32 m p x.toNat
  let m := store32 m (p+4) y.toNat
  let m := store32 m (p+8) w.toNat
  let m := store32 m (p+12) h.toNat
  let m := store32 m (p+16) 1
  let m := store32 m (p+20) 1
  let m := store32 m (p+40) 0
  let m := store64 m (p+48) 0
  let m := store64 m (p+56) 0
  let m := store64 m (p+64) 0
  let m := store64 m (p+24) 0
  store64 m (p+32) 0

variable (S : Statics)

/-- Address of a widget of the pool. -/
def slot (i : ℕ) : ℕ := S.widgets+recordSize*i

/-- Take a base record from the pool; the null pointer when all are taken. -/
def owtWidgetCreate (s : State) (x y w h : UInt32) : ℕ×State :=
  if s.count≥poolSize then (0,s)
  else (slot S s.count,⟨initBase s.memory (slot S s.count) x y w h,s.count+1⟩)

/-- Set the fields of a kind, if there is a record. -/
def finish (r : ℕ×State) (fields : Bytes → ℕ → Bytes) : ℕ×State :=
  if r.1=0 then (0,r.2) else (r.1,{ r.2 with memory := fields r.2.memory r.1 })

/-- Create a window. -/
def owtWindowCreate (s : State) (title : List UInt8) (x y w h : UInt32) : ℕ×State :=
  finish (owtWidgetCreate S s x y w h) fun m p =>
    store64 (copyText m (p+72) 127 title).1 (p+48) (S.drawOf .window)

/-- Create a button. -/
def owtButtonCreate (s : State) (text : List UInt8) (x y w h : UInt32) : ℕ×State :=
  finish (owtWidgetCreate S s x y w h) fun m p =>
    let m := (copyText m (p+72) 127 text).1
    let m := store32 m (p+200) 0
    let m := store32 m (p+204) 0
    let m := store64 m (p+208) 0
    store64 m (p+48) (S.drawOf .button)

/-- Create a line of text to be edited. -/
def owtTextboxCreate (s : State) (x y w : UInt32) : ℕ×State :=
  finish (owtWidgetCreate S s x y w 24) fun m p =>
    let m := Function.update m (p+72) 0
    let m := store32 m (p+328) 0
    let m := store32 m (p+332) 30
    let m := store64 m (p+336) 0
    store64 m (p+48) (S.drawOf .textbox)

/-- Create a list of items. -/
def owtListviewCreate (s : State) (x y w h : UInt32) : ℕ×State :=
  finish (owtWidgetCreate S s x y w h) fun m p =>
    let m := store32 m (p+2120) 0
    let m := store32 m (p+2124) (2^32-1)
    let m := store32 m (p+2128) 0
    let m := store64 m (p+2136) 0
    store64 m (p+48) (S.drawOf .listview)

/-- Set the fields of an empty list of sixteen items that is closed. -/
def closedList (kind : Kind) (m : Bytes) (p : ℕ) : Bytes :=
  let m := store32 m (p+1096) 0
  let m := store32 m (p+1100) (2^32-1)
  let m := store32 m (p+1104) 0
  let m := store64 m (p+1112) 0
  store64 m (p+48) (S.drawOf kind)

/-- Create a list of items that opens. -/
def owtComboboxCreate (s : State) (x y w : UInt32) : ℕ×State :=
  finish (owtWidgetCreate S s x y w 24) (closedList S .combobox)

/-- Create a menu. -/
def owtMenuCreate (s : State) (x y w : UInt32) : ℕ×State :=
  finish (owtWidgetCreate S s x y w 22) (closedList S .menu)

/-- Create a text. -/
def owtLabelCreate (s : State) (text : List UInt8) (x y : UInt32) : ℕ×State :=
  finish (owtWidgetCreate S s x y 200 20) fun m p =>
    store64 (copyText m (p+72) 255 text).1 (p+48) (S.drawOf .label)

/-- The first text of a text at the bottom. -/
def pronto : List UInt8 := [0x50,0x72,0x6F,0x6E,0x74,0x6F]

/-- Create a text at the bottom. -/
def owtStatusbarCreate (s : State) (x y w : UInt32) : ℕ×State :=
  finish (owtWidgetCreate S s x y w 20) fun m p =>
    store64 (copyText m (p+72) 255 pronto).1 (p+48) (S.drawOf .statusbar)

/-- A call that creates a widget. -/
inductive Create where
  /-- Of a window. -/
  | window (title : List UInt8) (x y w h : UInt32)
  /-- Of a button. -/
  | button (text : List UInt8) (x y w h : UInt32)
  /-- Of a line of text to be edited. -/
  | textbox (x y w : UInt32)
  /-- Of a list of items. -/
  | listview (x y w h : UInt32)
  /-- Of a list of items that opens. -/
  | combobox (x y w : UInt32)
  /-- Of a menu. -/
  | menu (x y w : UInt32)
  /-- Of a text. -/
  | label (text : List UInt8) (x y : UInt32)
  /-- Of a text at the bottom. -/
  | statusbar (x y w : UInt32)

/-- The kind that a call creates. -/
def Create.kind : Create → Kind
  | .window .. => .window
  | .button .. => .button
  | .textbox .. => .textbox
  | .listview .. => .listview
  | .combobox .. => .combobox
  | .menu .. => .menu
  | .label .. => .label
  | .statusbar .. => .statusbar

/-- Create a widget: the pointer and the state. -/
def create (s : State) : Create → ℕ×State
  | .window title x y w h => owtWindowCreate S s title x y w h
  | .button text x y w h => owtButtonCreate S s text x y w h
  | .textbox x y w => owtTextboxCreate S s x y w
  | .listview x y w h => owtListviewCreate S s x y w h
  | .combobox x y w => owtComboboxCreate S s x y w
  | .menu x y w => owtMenuCreate S s x y w
  | .label text x y => owtLabelCreate S s text x y
  | .statusbar x y w => owtStatusbarCreate S s x y w

/-- Address of an entry behind a pointer. -/
def entryAt (base : ℕ) (size : ℕ) (index : ℤ) : ℕ := ((base+size*index)%2^64).toNat

/-- Append a child to the children of a widget. -/
def owtWidgetAddChild (m : Bytes) (parent child : ℕ) : Bytes :=
  if intOf (load32 m (parent+40))<64 then
    let m := store64 m (parent+32) S.childPtrs
    let index := load32 m (parent+40)
    let m := store32 m (parent+40) ((index+1)%2^32)
    let m := store64 m (entryAt (load64 m (parent+32)) 8 (intOf index)) child
    store64 m (child+24) parent
  else m

/-- Set the text of a widget, up to a length. -/
def setText (limit : ℕ) (m : Bytes) (p : ℕ) (text : List UInt8) : Bytes :=
  (copyText m (p+72) limit text).1

/-- Set the text of a button. -/
def owtButtonSetText : Bytes → ℕ → List UInt8 → Bytes := setText 127

/-- Set the text of a label. -/
def owtLabelSetText : Bytes → ℕ → List UInt8 → Bytes := setText 255

/-- Set the text at the bottom. -/
def owtStatusbarSetText : Bytes → ℕ → List UInt8 → Bytes := setText 255

/-- Set the text to be edited, and go to its end. -/
def owtTextboxSetText (m : Bytes) (p : ℕ) (text : List UInt8) : Bytes :=
  let r := copyText m (p+72) 255 text
  store32 r.1 (p+328) r.2

/-- Append an item to a list whose number of items is at an offset. -/
def addItem (capacity offset : ℕ) (m : Bytes) (p : ℕ) (text : List UInt8) : Bytes :=
  if intOf (load32 m (p+offset))≥capacity then m
  else
    let m := (copyText m (entryAt (p+72) 64 (intOf (load32 m (p+offset)))) 63 text).1
    store32 m (p+offset) ((load32 m (p+offset)+1)%2^32)

/-- Append an item to a list of items. -/
def owtListviewAddItem : Bytes → ℕ → List UInt8 → Bytes := addItem 32 2120

/-- Append an item to a list that opens. -/
def owtComboboxAddItem : Bytes → ℕ → List UInt8 → Bytes := addItem 16 1096

/-- Append an item to a menu. -/
def owtMenuAddItem : Bytes → ℕ → List UInt8 → Bytes := addItem 16 1096

/-- Append a line to a menu. -/
def owtMenuAddSeparator (m : Bytes) (p : ℕ) : Bytes := owtMenuAddItem m p [0x2D]

/-- Remove the items of a list. -/
def owtListviewClear (m : Bytes) (p : ℕ) : Bytes :=
  store32 (store32 m (p+2120) 0) (p+2124) (2^32-1)

/-- A call on widgets, by their places in the pool. -/
inductive Call where
  /-- Append a child. -/
  | addChild (parent child : ℕ)
  /-- Set the text of a button. -/
  | buttonText (i : ℕ) (text : List UInt8)
  /-- Set the text to be edited. -/
  | textboxText (i : ℕ) (text : List UInt8)
  /-- Set a label. -/
  | labelText (i : ℕ) (text : List UInt8)
  /-- Set the text at the bottom. -/
  | statusbarText (i : ℕ) (text : List UInt8)
  /-- Append an item to a list of items. -/
  | listviewItem (i : ℕ) (text : List UInt8)
  /-- Remove the items of a list. -/
  | listviewClear (i : ℕ)
  /-- Append an item to a list that opens. -/
  | comboboxItem (i : ℕ) (text : List UInt8)
  /-- Append an item to a menu. -/
  | menuItem (i : ℕ) (text : List UInt8)
  /-- Append a line to a menu. -/
  | menuSeparator (i : ℕ)

/-- The call is made on a widget. -/
def Call.On (j : ℕ) : Call → Bool
  | .addChild parent child => parent==j || child==j
  | .buttonText i _ | .textboxText i _ | .labelText i _ | .statusbarText i _ | .listviewItem i _
  | .listviewClear i | .comboboxItem i _ | .menuItem i _ | .menuSeparator i => i==j

/-- The widgets of the call are there, and of its kind. -/
def Call.Typed (kinds : List Kind) : Call → Prop
  | .addChild parent child => parent<kinds.length ∧ child<kinds.length
  | .buttonText i _ => kinds[i]?=some .button
  | .textboxText i _ => kinds[i]?=some .textbox
  | .labelText i _ => kinds[i]?=some .label
  | .statusbarText i _ => kinds[i]?=some .statusbar
  | .listviewItem i _ | .listviewClear i => kinds[i]?=some .listview
  | .comboboxItem i _ => kinds[i]?=some .combobox
  | .menuItem i _ | .menuSeparator i => kinds[i]?=some .menu

/-- Make a call. -/
def call (m : Bytes) : Call → Bytes
  | .addChild parent child => owtWidgetAddChild S m (slot S parent) (slot S child)
  | .buttonText i text => owtButtonSetText m (slot S i) text
  | .textboxText i text => owtTextboxSetText m (slot S i) text
  | .labelText i text => owtLabelSetText m (slot S i) text
  | .statusbarText i text => owtStatusbarSetText m (slot S i) text
  | .listviewItem i text => owtListviewAddItem m (slot S i) text
  | .listviewClear i => owtListviewClear m (slot S i)
  | .comboboxItem i text => owtComboboxAddItem m (slot S i) text
  | .menuItem i text => owtMenuAddItem m (slot S i) text
  | .menuSeparator i => owtMenuAddSeparator m (slot S i)

/-- Offset and size of every field of a kind; a text or an item is one field. -/
def Kind.fields (kind : Kind) : List (ℕ×ℕ) :=
  [(0,4),(4,4),(8,4),(12,4),(16,4),(20,4),(24,8),(32,8),(40,4),(48,8),(56,8),(64,8)]++
  match kind with
  | .window => [(72,128),(200,4),(208,8)]
  | .button => [(72,128),(200,4),(204,4),(208,8)]
  | .textbox => [(72,256),(328,4),(332,4),(336,8)]
  | .listview => (List.range 32).map (fun i => (72+64*i,64))++[(2120,4),(2124,4),(2128,4),(2136,8)]
  | .combobox | .menu =>
    (List.range 16).map (fun i => (72+64*i,64))++[(1096,4),(1100,4),(1104,4),(1112,8)]
  | .label | .statusbar => [(72,256)]

/-- The children of a widget. -/
def children (m : Bytes) (p : ℕ) : List ℕ :=
  (List.range (intOf (load32 m (p+40))).toNat).map fun i => load64 m (load64 m (p+32)+8*i)

/-- Two memories have the same widget of a kind at an address. -/
def SameWidget (kind : Kind) (p : ℕ) (m m' : Bytes) : Prop :=
  (∀ f∈kind.fields, loadBytes m (p+f.1) f.2=loadBytes m' (p+f.1) f.2) ∧ children m p=children m' p

/-- Create widgets one after the other. -/
def createAll (s : State) (creates : List Create) : State :=
  creates.foldl (fun s c => (create S s c).2) s

/-- Make calls one after the other. -/
def callAll (m : Bytes) (calls : List Call) : Bytes := calls.foldl (call S) m

/-- Create widgets in a memory of zeros, and make calls on them. -/
def run (creates : List Create) (calls : List Call) : Bytes :=
  callAll S (createAll S ⟨fun _ => 0,0⟩ creates).memory calls

/-- Create one widget at its place of the pool without the others, and make the calls on it. -/
def soloRun (j : ℕ) (c : Create) (calls : List Call) : Bytes :=
  callAll S (createAll S ⟨fun _ => 0,j⟩ [c]).memory (calls.filter (Call.On j))

/-- After every sequence of calls, every widget is what its own calls make of it. -/
def Independent (creates : List Create) : Prop :=
  ∀ calls : List Call, (∀ c∈calls, c.Typed ((creates.take poolSize).map Create.kind)) →
    ∀ j c, (creates.take poolSize)[j]?=some c →
      SameWidget c.kind (slot S j) (run S creates calls) (soloRun S j c calls)

variable {S} {s : State} {m : Bytes} {p : ℕ}

/-- A text is written from its place on. -/
theorem copyText_below {dst a : ℕ} (limit : ℕ) (text : List UInt8) (h : a<dst) :
    (copyText m dst limit text).1 a=m a := by
  induction text generalizing m dst limit with
  | nil => cases limit <;> exact Function.update_of_ne (by omega) _ _
  | cons c text ih =>
    cases limit with
    | zero => exact Function.update_of_ne (by omega) _ _
    | succ limit =>
      rw [copyText]
      split_ifs
      · exact Function.update_of_ne (by omega) _ _
      · exact (ih limit (by omega)).trans (Function.update_of_ne (by omega) _ _)

/-- The fields lie behind the first ones of the base record. -/
def Above (fields : Bytes → ℕ → Bytes) : Prop := ∀ m p a, a<p+48 → fields m p a=m a

/-- A call that creates a widget takes the next place, and writes a base record there and
nothing below it. -/
def Takes (S : Statics) (s : State) (r : ℕ×State) : Prop :=
  r.1=slot S s.count ∧ r.2.count=s.count+1 ∧ ∃ x y w h, ∀ a, a<slot S s.count+48 →
    r.2.memory a=initBase s.memory (slot S s.count) x y w h a

/-- Places of the pool are not null. -/
theorem slot_pos (S : Statics) (i : ℕ) : slot S i≠0 := by
  have hw := S.widgets_pos
  simp only [slot]
  omega

/-- Setting the fields of a kind keeps the base record. -/
theorem finish_takes (hroom : s.count<poolSize) (x y w h : UInt32) {fields : Bytes → ℕ → Bytes}
    (habove : Above fields) : Takes S s (finish (owtWidgetCreate S s x y w h) fields) := by
  rw [owtWidgetCreate,if_neg (Nat.not_le.mpr hroom),finish,if_neg (slot_pos S s.count)]
  exact ⟨rfl,rfl,x,y,w,h,fun a ha => habove _ _ a ha⟩

/-- The fields of an empty list that is closed lie behind the first ones of the base record. -/
theorem closedList_above (S : Statics) (kind : Kind) : Above (closedList S kind) := by
  intro m p a ha
  simp only [closedList]
  rw [store64_outside (by omega),store64_outside (by omega),store32,storeBytes_outside (by omega),
    store32,storeBytes_outside (by omega),store32,storeBytes_outside (by omega)]

/-- Every kind keeps the base record. -/
theorem create_takes (hroom : s.count<poolSize) (c : Create) : Takes S s (create S s c) := by
  cases c with
  | window title x y w h =>
    refine finish_takes hroom x y w h fun m p a ha => ?_
    rw [store64_outside (by omega),copyText_below _ _ (by omega)]
  | button text x y w h =>
    refine finish_takes hroom x y w h fun m p a ha => ?_
    rw [store64_outside (by omega),store64_outside (by omega),store32,storeBytes_outside (by omega),
      store32,storeBytes_outside (by omega),copyText_below _ _ (by omega)]
  | textbox x y w =>
    refine finish_takes hroom x y w 24 fun m p a ha => ?_
    rw [store64_outside (by omega),store64_outside (by omega),store32,storeBytes_outside (by omega),
      store32,storeBytes_outside (by omega),Function.update_of_ne (by omega)]
  | listview x y w h =>
    refine finish_takes hroom x y w h fun m p a ha => ?_
    rw [store64_outside (by omega),store64_outside (by omega),store32,storeBytes_outside (by omega),
      store32,storeBytes_outside (by omega),store32,storeBytes_outside (by omega)]
  | combobox x y w => exact finish_takes hroom x y w 24 (closedList_above S _)
  | menu x y w => exact finish_takes hroom x y w 22 (closedList_above S _)
  | label text x y =>
    refine finish_takes hroom x y 200 20 fun m p a ha => ?_
    rw [store64_outside (by omega),copyText_below _ _ (by omega)]
  | statusbar x y w =>
    refine finish_takes hroom x y w 20 fun m p a ha => ?_
    rw [store64_outside (by omega),copyText_below _ _ (by omega)]

/-- A base record is set up inside itself. -/
theorem initBase_outside {a : ℕ} (x y w h : UInt32) (ha : a<p ∨ p+72≤a) :
    initBase m p x y w h a=m a := by
  simp only [initBase,store32]
  rw [store64_outside (by omega),store64_outside (by omega),store64_outside (by omega),
    store64_outside (by omega),store64_outside (by omega),storeBytes_outside (by omega),
    storeBytes_outside (by omega),storeBytes_outside (by omega),storeBytes_outside (by omega),
    storeBytes_outside (by omega),storeBytes_outside (by omega),storeBytes_outside (by omega)]

/-- A new base record has no children. -/
theorem initBase_count (m : Bytes) (p : ℕ) (x y w h : UInt32) :
    load32 (initBase m p x y w h) (p+40)=0 := by
  simp only [initBase]
  rw [load32,store64,loadBytes_storeBytes_disjoint (by omega),store64,
    loadBytes_storeBytes_disjoint (by omega),store64,loadBytes_storeBytes_disjoint (by omega),store64,
    loadBytes_storeBytes_disjoint (by omega),store64,loadBytes_storeBytes_disjoint (by omega),store32,
    loadBytes_storeBytes_same]
  rfl

/-- Nothing is created when all places are taken. -/
theorem create_full (hfull : ¬s.count<poolSize) (c : Create) : (create S s c).2=s := by
  cases c <;> simp only [create,owtWindowCreate,owtButtonCreate,owtTextboxCreate,owtListviewCreate,
    owtComboboxCreate,owtMenuCreate,owtLabelCreate,owtStatusbarCreate,finish,owtWidgetCreate,
    ge_iff_le,if_pos (Nat.le_of_not_lt hfull),if_true]

/-- Creating widgets takes places upwards, and keeps what is below the first. -/
theorem createAll_below (creates : List Create) {a : ℕ} (h : a<slot S s.count) :
    (createAll S s creates).memory a=s.memory a := by
  induction creates generalizing s with
  | nil => rfl
  | cons c creates ih =>
    have hcons : createAll S s (c::creates)=createAll S (create S s c).2 creates := rfl
    rw [hcons]
    by_cases hroom : s.count<poolSize
    · obtain ⟨_,hcount,x,y,w,h',hmem⟩ := create_takes hroom c
      have hnext : slot S s.count ≤ slot S (create S s c).2.count := by
        rw [hcount]
        simp only [slot,recordSize]
        omega
      rw [ih (by omega),hmem a (by omega),initBase_outside _ _ _ _ (Or.inl h)]
    · rw [create_full hroom]
      exact ih h

/-- Every widget starts without children, and keeps none while others are created. -/
theorem createAll_count (creates : List Create) {i : ℕ} (hi : i<creates.length)
    (hroom : s.count+i<poolSize) :
    load32 (createAll S s creates).memory (slot S (s.count+i)+40)=0 := by
  induction creates generalizing s i with
  | nil => simp at hi
  | cons c creates ih =>
    have hcons : createAll S s (c::creates)=createAll S (create S s c).2 creates := rfl
    obtain ⟨_,hcount,x,y,w,h,hmem⟩ := create_takes (S:=S) (by omega : s.count<poolSize) c
    rw [hcons]
    cases i with
    | zero =>
      have hnext : slot S s.count+72 ≤ slot S (create S s c).2.count := by
        rw [hcount]
        simp only [slot,recordSize]
        omega
      have hzero : s.count+0=s.count := rfl
      rw [hzero]
      refine (loadBytes_congr fun a h1 h2 => ?_).trans
        (initBase_count s.memory (slot S s.count) x y w h)
      rw [createAll_below creates (by omega),hmem a (by omega)]
    | succ i =>
      have hshift : s.count+(i+1)=(create S s c).2.count+i := by omega
      rw [hshift]
      exact ih (by simpa using hi) (by omega)

/-- Records of the pool lie outside the list of children. -/
theorem slot_apart {i : ℕ} (hi : i<poolSize) :
    slot S i+72≤S.childPtrs ∨ S.childPtrs+8*poolSize ≤ slot S i := by
  have hsep := S.separate
  simp only [Apart,slot,poolSize,recordSize] at *
  omega

/-- A widget that becomes its own first child. -/
theorem addChild_self {i : ℕ} (hi : i<poolSize) (hcount : load32 m (slot S i+40)=0) :
    load32 (owtWidgetAddChild S m (slot S i) (slot S i)) (slot S i+40)=1 ∧
      load64 (owtWidgetAddChild S m (slot S i) (slot S i)) (slot S i+32)=S.childPtrs ∧
      load64 (owtWidgetAddChild S m (slot S i) (slot S i)) S.childPtrs=slot S i ∧
      ∀ a, (a<slot S i ∨ slot S i+72≤a) → (a<S.childPtrs ∨ S.childPtrs+8≤a) →
        owtWidgetAddChild S m (slot S i) (slot S i) a=m a := by
  have hapart := slot_apart (S:=S) hi
  have hwb := S.widgets_bound
  have hcb := S.childPtrs_bound
  have hslot : slot S i<2^64 := by
    simp only [slot,poolSize,recordSize] at *
    omega
  simp only [poolSize] at hapart hcb
  have hkeep : load32 (store64 m (slot S i+32) S.childPtrs) (slot S i+40)=0 := by
    rw [load32,store64,loadBytes_storeBytes_disjoint (by omega)]
    exact hcount
  have hlist : load64 (store32 (store64 m (slot S i+32) S.childPtrs) (slot S i+40) 1) (slot S i+32)=
      S.childPtrs := by
    rw [load64,store32,loadBytes_storeBytes_disjoint (by omega)]
    exact load64_store64_same (by omega)
  have hentry : entryAt S.childPtrs 8 (intOf 0)=S.childPtrs := by
    simp only [entryAt,intOf]
    omega
  have heq : owtWidgetAddChild S m (slot S i) (slot S i)=
      store64 (store64 (store32 (store64 m (slot S i+32) S.childPtrs) (slot S i+40) 1)
        S.childPtrs (slot S i)) (slot S i+24) (slot S i) := by
    rw [owtWidgetAddChild,hcount,if_pos (by decide)]
    simp only [hkeep,Nat.zero_add,Nat.one_mod_eq_one.mpr (by norm_num : 2^32≠1),hlist,hentry]
  rw [heq]
  refine ⟨?_,?_,?_,fun a h1 h2 => ?_⟩
  · rw [load32,store64,loadBytes_storeBytes_disjoint (by omega),store64,
      loadBytes_storeBytes_disjoint (by omega)]
    exact load32_store32_same (by norm_num)
  · rw [load64_store64_disjoint (by omega),load64_store64_disjoint (by omega)]
    exact hlist
  · rw [load64_store64_disjoint (by omega)]
    exact load64_store64_same hslot
  · rw [store64_outside (by omega),store64_outside (by omega),store32,storeBytes_outside (by omega),
      store64_outside (by omega)]

/-- The list of a widget with one child. -/
theorem children_one {q : ℕ} (hcount : load32 m (p+40)=1) (hlist : load64 m (p+32)=S.childPtrs)
    (hfirst : load64 m S.childPtrs=q) : children m p=[q] := by
  have hone : (intOf 1).toNat=1 := by decide
  simp [children,hcount,hone,hlist,hfirst]

/-- Two widgets that both become their own child: the first has the second in its list. -/
theorem children_shared (h0 : load32 m (slot S 0+40)=0) (h1 : load32 m (slot S 1+40)=0) :
    children (owtWidgetAddChild S (owtWidgetAddChild S m (slot S 0) (slot S 0)) (slot S 1) (slot S 1))
      (slot S 0)=[slot S 1] := by
  have hnext : slot S 1=slot S 0+72 := by simp only [slot,recordSize]
  have hapart := slot_apart (S:=S) (i:=0) (by decide)
  have hapart' := slot_apart (S:=S) (i:=1) (by decide)
  simp only [poolSize] at hapart hapart'
  obtain ⟨hone,hlist,_,hframe⟩ := addChild_self (by decide : 0<poolSize) h0
  have hcount : load32 (owtWidgetAddChild S m (slot S 0) (slot S 0)) (slot S 1+40)=0 :=
    (loadBytes_congr fun a _ _ => hframe a (by omega) (by omega)).trans h1
  obtain ⟨_,_,hfirst,hframe'⟩ := addChild_self (by decide : 1<poolSize) hcount
  refine children_one ?_ ?_ hfirst
  · exact (loadBytes_congr fun a _ _ => hframe' a (by omega) (by omega)).trans hone
  · exact (loadBytes_congr fun a _ _ => hframe' a (by omega) (by omega)).trans hlist

/-- Two widgets share their children: what the second appends takes the place of what the
first has appended. -/
theorem not_independent {creates : List Create} (h : 2≤creates.length) : ¬Independent S creates := by
  intro hind
  obtain ⟨c,creates,rfl⟩ := List.exists_cons_of_length_pos (by omega : 0<creates.length)
  have hlen : ((c::creates).take poolSize).length=min poolSize (creates.length+1) := by
    rw [List.length_take,List.length_cons]
  have hcreates : 1 ≤ creates.length := by simpa using h
  have htyped : ∀ d∈[Call.addChild 0 0,Call.addChild 1 1],
      d.Typed (((c::creates).take poolSize).map Create.kind) := by
    intro d hd
    simp only [List.mem_cons,List.not_mem_nil,or_false] at hd
    rcases hd with rfl | rfl <;> simp only [Call.Typed,List.length_map,hlen,poolSize] <;> omega
  have hsame := (hind _ htyped 0 c rfl).2
  have hfull : ∀ i, i<2 → load32 (createAll S ⟨fun _ => 0,0⟩ (c::creates)).memory (slot S i+40)=0 := by
    intro i hi
    have hcount := createAll_count (S:=S) (s:=⟨fun _ => 0,0⟩) (c::creates) (i:=i)
      (by simp only [List.length_cons]; omega) (by simp only [poolSize]; omega)
    rwa [Nat.zero_add] at hcount
  have hsolo := createAll_count (S:=S) (s:=⟨fun _ => 0,0⟩) [c] (i:=0) (by simp) (by simp)
  simp only [run,soloRun,callAll,List.filter_cons,List.filter_nil,Call.On] at hsame
  have hother : (1==0)=false := rfl
  simp only [BEq.rfl,hother,Bool.or_self,Bool.false_eq_true,if_true,if_false,List.foldl_cons,
    List.foldl_nil,call] at hsame
  obtain ⟨hone,hlist,hfirst,_⟩ := addChild_self (by decide : 0<poolSize) hsolo
  rw [children_shared (hfull 0 (by omega)) (hfull 1 (by omega)),children_one hone hlist hfirst] at hsame
  have hslot := List.head_eq_of_cons_eq hsame
  simp only [slot,recordSize] at hslot
  omega

/-- A widget that is the only one is what its calls make of it. -/
theorem independent_single {creates : List Create} (h : creates.length≤1) : Independent S creates := by
  intro calls htyped j c hj
  have hone : creates=[c] ∧ j=0 := by
    obtain ⟨hlt,hget⟩ := List.getElem?_eq_some_iff.mp hj
    have hlen : (creates.take poolSize).length≤creates.length := List.length_take_le' _ _
    obtain ⟨d,rfl⟩ := List.length_eq_one_iff.mp (by omega : creates.length=1)
    obtain rfl : j=0 := by omega
    exact ⟨congrArg (fun d => [d]) hget,rfl⟩
  obtain ⟨rfl,rfl⟩ := hone
  have hall : calls.filter (Call.On 0)=calls := by
    refine List.filter_eq_self.mpr fun d hd => ?_
    have ht := htyped d hd
    have hkind : ∀ {i k}, ((([c].take poolSize).map Create.kind)[i]?=some k) → (i==0)=true := by
      intro i k hk
      obtain ⟨hlt,_⟩ := List.getElem?_eq_some_iff.mp hk
      simp only [List.length_map] at hlt
      have hlen : ([c].take poolSize).length≤1 := List.length_take_le' _ _
      exact beq_iff_eq.mpr (by omega)
    cases d with
    | addChild parent child =>
      have hlen : (([c].take poolSize).map Create.kind).length≤1 := by
        rw [List.length_map]
        exact List.length_take_le' _ _
      simp only [Call.Typed] at ht
      have hp : parent=0 := by omega
      simp [Call.On,hp]
    | buttonText | textboxText | labelText | statusbarText | listviewItem | listviewClear
    | comboboxItem | menuItem | menuSeparator => exact hkind ht
  have heq : run S [c] calls=soloRun S 0 c calls := by
    rw [soloRun,hall]
    rfl
  rw [heq]
  exact ⟨fun _ _ => rfl,rfl⟩

/-- Widgets do not interfere, whatever calls are made on them, if and only if there is no
more than one. -/
theorem independent_iff (S : Statics) (creates : List Create) :
    Independent S creates ↔ creates.length≤1 := by
  constructor
  · intro hind
    by_contra hmany
    exact not_independent (by omega) hind
  · exact independent_single

/-- One possible placement of the static variables. -/
def sampleStatics : Statics where
  widgets := 0x200000
  childPtrs := 0x300000
  drawOf _ := 0x100000
  widgets_pos := by norm_num
  widgets_bound := by norm_num
  childPtrs_bound := by norm_num
  separate := by norm_num [Apart]

/-- Two windows interfere. -/
theorem windows_interfere :
    ¬Independent sampleStatics [.window [0x41] 0 0 100 100,.window [0x42] 50 50 100 100] :=
  not_independent le_rfl

end OvsbMk.Widgets
