import Strata.Bytes
import Strata.Error
import Strata.Lookup

/-!
# Directories

A directory holds files by name, in the order of their names. Files are replaced, removed, and
changed in place: bytes written over others, and the end cut off.
-/

namespace Strata

/-- The files of a directory, by ascending name. -/
structure Directory where
  files : List (String × Bytes) := []
deriving DecidableEq, Repr

namespace Directory

/-- The names of all files, ascending. -/
def names (d : Directory) : List String := d.files.map Prod.fst

/-- The bytes of a file, if there is one of that name. -/
def find? (d : Directory) (name : String) : Option Bytes := d.files.lookup name

/-- The bytes of a file. -/
def read (d : Directory) (name : String) : Except Error Bytes :=
  match d.find? name with
  | none => .error (.file .notFound)
  | some file => .ok file

theorem read_eq_ok_iff {d : Directory} {name : String} {file : Bytes} :
    d.read name = .ok file ↔ d.find? name = some file := by
  rw [read]
  cases d.find? name <;> simp

/-- Put a file in its place among files by ascending name. -/
def put (name : String) (file : Bytes) : List (String × Bytes) → List (String × Bytes)
  | [] => [(name, file)]
  | (other, bytes) :: rest =>
    if name < other then (name, file) :: (other, bytes) :: rest
    else if name = other then (name, file) :: rest
    else (other, bytes) :: put name file rest

theorem lookup_put (name other : String) (file : Bytes) (files : List (String × Bytes)) :
    (put name file files).lookup other =
      if other = name then some file else files.lookup other := by
  induction files with
  | nil => simp [put, Lookup.lookup_cons]
  | cons f rest ih =>
    obtain ⟨first, bytes⟩ := f
    simp only [put]
    split
    · exact Lookup.lookup_cons ..
    · split
      · rename_i h
        subst h
        by_cases h : other = name <;> simp [Lookup.lookup_cons, h]
      · rename_i hne
        rw [Lookup.lookup_cons, Lookup.lookup_cons, ih]
        by_cases h : other = first
        · simp [h, Ne.symm hne]
        · simp [h]

/-- The directory with a file written anew. -/
def write (d : Directory) (name : String) (file : Bytes) : Directory := ⟨put name file d.files⟩

@[simp] theorem find?_write (d : Directory) (name other : String) (file : Bytes) :
    (d.write name file).find? other = if other = name then some file else d.find? other :=
  lookup_put name other file d.files

/-- The directory without a file. -/
def erase (d : Directory) (name : String) : Directory := ⟨d.files.filter (·.1 ≠ name)⟩

@[simp] theorem find?_erase (d : Directory) (name other : String) :
    (d.erase name).find? other = if other = name then none else d.find? other :=
  Lookup.lookup_filter_ne name other d.files

/-- Remove a file that exists. -/
def remove (d : Directory) (name : String) : Except Error Directory := do
  let _ ← d.read name
  return d.erase name

/-- Cut a file off behind `length` bytes. One that has fewer stays as it is. -/
def cut (d : Directory) (name : String) (length : Nat) : Except Error Directory := do
  return d.write name ((← d.read name).take length)

/-- Write over bytes of a file, all of which must be there. A negative position counts from its
end. -/
def patch (d : Directory) (name : String) (position : Int) (new : Bytes) : Outcome Directory := do
  let file ← d.read name
  match (if position < 0 then position + file.length else position) with
  | .ofNat start =>
    if start + new.length ≤ file.length then
      return d.write name (Bytes.overwrite file start new)
    else throw .breach
  | .negSucc _ => throw .breach

end Directory

end Strata
