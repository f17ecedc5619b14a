import Mathlib.Tactic

/-!
# Stores of files

What a file system is for: directories give names to files, which are texts, and to
directories. A store can be changed at one name of one directory; a directory is
reached from the root when a path of names leads to it.
-/

namespace OvsbMk.FileStore

variable {ι ν α : Type*}

/-- What a name stands for. -/
inductive Node (ι α : Type*) where
  /-- A file with its text. -/
  | file (text : List α)
  /-- A directory. -/
  | folder (id : ι)

/-- Directories, each with what its names stand for. -/
abbrev Store (ι ν α : Type*) : Type _ := ι → ν → Option (Node ι α)

/-- A path of names leads from the root to the directory. -/
inductive Reached (root : ι) (fs : Store ι ν α) : ι → Prop where
  /-- The root. -/
  | root : Reached root fs root
  /-- A directory named in a reached one. -/
  | enter (p : ι) (name : ν) (q : ι) (hp : Reached root fs p) (h : fs p name=some (.folder q)) :
    Reached root fs q

variable [DecidableEq ι] {fs : Store ι ν α} {p q : ι} {entries : ν → Option (Node ι α)}

/-- The store with other contents of one directory. -/
def Store.fill (fs : Store ι ν α) (p : ι) (entries : ν → Option (Node ι α)) : Store ι ν α :=
  Function.update fs p entries

/-- The filled directory. -/
@[simp] theorem fill_same : fs.fill p entries p=entries := Function.update_self _ _ _

/-- Other directories. -/
@[simp] theorem fill_folder (h : q≠p) : fs.fill p entries q=fs q := Function.update_of_ne h _ _

variable [DecidableEq ν] {name other : ν} {node : Option (Node ι α)}

/-- The store with another meaning of one name in one directory. -/
def Store.put (fs : Store ι ν α) (p : ι) (name : ν) (node : Option (Node ι α)) : Store ι ν α :=
  Function.update fs p (Function.update (fs p) name node)

/-- The changed name. -/
@[simp] theorem put_same : fs.put p name node p name=node := by
  unfold Store.put
  rw [Function.update_self,Function.update_self]

/-- Other names of the directory. -/
@[simp] theorem put_name (h : other≠name) : fs.put p name node p other=fs p other := by
  unfold Store.put
  rw [Function.update_self,Function.update_of_ne h]

/-- Other directories. -/
@[simp] theorem put_folder (h : q≠p) : fs.put p name node q=fs q := Function.update_of_ne h _ _

/-- Only the last change of a name counts. -/
@[simp] theorem put_put {node' : Option (Node ι α)} :
    (fs.put p name node).put p name node'=fs.put p name node' := by
  unfold Store.put
  rw [Function.update_self,Function.update_idem,Function.update_idem]

/-- Giving a name the meaning it has changes nothing. -/
theorem put_self (h : fs p name=node) : fs.put p name node=fs := by
  unfold Store.put
  rw [← h,Function.update_eq_self,Function.update_eq_self]

end OvsbMk.FileStore
