/-!
# Files

A session reads and writes files through `Files`, in whatever way effects are run. `Directory` is
a set of files with no world around it: `Directory.files` gives access to it in a state, so that a
session over it is a function from one directory to another. Reading what was written last gives
it back (`Directory.read_write`).

A path is followed name by name (`Directory.walk`): each name but the last has to lead to a
directory. A directory is there when a file lies in it; the working directory and those around it
are there in any case, though nothing is known to lie in them.
-/

namespace VectorUnit

namespace CommandLine

/-- The bytes of a file. -/
abbrev Content := List UInt8

/-- Why a file cannot be read or written. -/
inductive FileError where
  | notFound
  | notADirectory
  | isADirectory
  /-- A name, or the whole path, is too long. -/
  | nameTooLong
  | other (message : String)
deriving DecidableEq, Repr

/-- The text of the error, as the operating system words it. -/
def FileError.message : FileError → String
  | notFound => "No such file or directory (os error 2)"
  | notADirectory => "Not a directory (os error 20)"
  | isADirectory => "Is a directory (os error 21)"
  | nameTooLong => "File name too long (os error 36)"
  | other message => message

/-- Access to files. -/
structure Files (m : Type → Type) where
  read : (path : String) → m (Except FileError Content)
  write : (path : String) → Content → m (Except FileError PUnit)

/-! ### Paths -/

/-- Where a path begins, or where it stands before it goes down along names. -/
inductive Anchor where
  /-- So many directories above the working directory. -/
  | above (levels : Nat)
  /-- The directory that holds all others. -/
  | root
deriving DecidableEq, Repr

/-- A place in the tree of files: the names that lead down to it. -/
structure Place where
  anchor : Anchor
  names : List String
deriving DecidableEq, Repr

namespace Place

/-- The working directory. -/
def working : Place :=
  ⟨.above 0, []⟩

/-- The directory around a place. The root lies in itself. -/
def parent (p : Place) : Place :=
  match p.anchor, p.names with
  | .above levels, [] => ⟨.above (levels + 1), []⟩
  | anchor, names => ⟨anchor, names.dropLast⟩

/-- The place with a name in the directory at a place. -/
def child (p : Place) (name : String) : Place :=
  ⟨p.anchor, p.names ++ [name]⟩

/-- The place lies in the tree below another one, and is not that one. -/
def isBelow (p q : Place) : Bool :=
  p.anchor == q.anchor && q.names.isPrefixOf p.names && p.names != q.names

end Place

/-- A text that names a file, taken apart. -/
structure Path where
  /-- The place at which it begins. -/
  start : Place
  /-- The names along it, none of which is empty. -/
  names : List String
  /-- A slash stands at its end, so that only a directory can be meant. -/
  endsOpen : Bool
deriving DecidableEq, Repr

namespace Path

/-- The greatest length of a path, in bytes. -/
def maxLength : Nat := 4095

/-- The greatest length of a name, in bytes. -/
def maxNameLength : Nat := 255

/-- The path that a text gives. -/
def ofText (text : String) : Path :=
  let names := (text.toList.splitOn '/').map String.ofList
  { start := if 1 < names.length ∧ names.head? = some "" then ⟨.root, []⟩ else .working
    names := names.filter (· != "")
    endsOpen := names.getLast? == some "" }

/-- The name is one of those that lead to a directory which needs no look: a dot, or two. -/
def isDots (name : String) : Bool :=
  name == "." || name == ".."

end Path

/-! ### Directories -/

/-- A set of files. -/
structure Directory where
  entries : List (Place × Content)
deriving DecidableEq

namespace Directory

/-- The directory with the given files. -/
def ofFiles (files : List (String × Content)) : Directory :=
  ⟨files.map fun (name, content) => (⟨.above 0, (Path.ofText name).names⟩, content)⟩

/-- The file at a place. -/
def find? (d : Directory) (place : Place) : Option Content :=
  d.entries.lookup place

/-- A directory is at a place. -/
def hasDirectory (d : Directory) (place : Place) : Bool :=
  place.names.isEmpty || d.entries.any fun entry => entry.1.isBelow place

/-- Why no file can be read at a place where there is none. -/
def absence (d : Directory) (place : Place) : FileError :=
  if d.hasDirectory place then .isADirectory else .notFound

/-- The directory to which a name leads from the directory at a place. -/
def enter (d : Directory) (place : Place) (name : String) : Except FileError Place :=
  if name = "." then .ok place
  else if name = ".." then .ok place.parent
  else if Path.maxNameLength < name.utf8ByteSize then .error .nameTooLong
  else if d.hasDirectory (place.child name) then .ok (place.child name)
  else if (d.find? (place.child name)).isSome then .error .notADirectory
  else .error .notFound

/-- The directory to which names lead. -/
def walk (d : Directory) (place : Place) : List String → Except FileError Place
  | [] => .ok place
  | name :: rest =>
    match d.enter place name with
    | .ok next => walk d next rest
    | .error e => .error e

/-- The directory in which the last name of a path stands, and that name. Where there is no name the
path leads to a directory. -/
def locate (d : Directory) (text : String) : Except FileError (Place × String) :=
  if Path.maxLength < text.utf8ByteSize then .error .nameTooLong
  else
    let path := Path.ofText text
    match path.names.getLast? with
    | none => .error (if text.isEmpty then .notFound else .isADirectory)
    | some name =>
      match d.walk path.start path.names.dropLast with
      | .ok place => .ok (place, name)
      | .error e => .error e

/-- Reads a file. -/
def read (d : Directory) (text : String) : Except FileError Content :=
  match d.locate text with
  | .error e => .error e
  | .ok (place, name) =>
    if Path.isDots name then .error .isADirectory
    else if Path.maxNameLength < name.utf8ByteSize then .error .nameTooLong
    else
      match d.find? (place.child name) with
      | some content => if (Path.ofText text).endsOpen then .error .notADirectory else .ok content
      | none => .error (d.absence (place.child name))

/-- Writes a file, which is made if it is not there. -/
def write (d : Directory) (text : String) (content : Content) : Except FileError Directory :=
  match d.locate text with
  | .error e => .error e
  | .ok (place, name) =>
    if Path.isDots name || (Path.ofText text).endsOpen then .error .isADirectory
    else if Path.maxNameLength < name.utf8ByteSize then .error .nameTooLong
    else if d.hasDirectory (place.child name) then .error .isADirectory
    else .ok ⟨(place.child name, content) :: d.entries⟩

/-- Access to the files of a directory in a state. -/
def files : Files (StateM Directory) where
  read text := return (← get).read text
  write text content := do
    match (← get).write text content with
    | .ok d =>
      set d
      return .ok ⟨⟩
    | .error e => return .error e

/-! ### Reading what was written -/

/-- Another file takes no directory away. -/
theorem hasDirectory_cons {d : Directory} {place : Place} (entry : Place × Content)
    (h : d.hasDirectory place = true) : hasDirectory ⟨entry :: d.entries⟩ place = true := by
  simp only [hasDirectory, Bool.or_eq_true, List.any_cons] at h ⊢
  exact h.imp id Or.inr

theorem enter_cons {d : Directory} {place next : Place} {name : String} (entry : Place × Content)
    (h : d.enter place name = .ok next) : enter ⟨entry :: d.entries⟩ place name = .ok next := by
  simp only [enter] at h ⊢
  split at h
  · next hdot => rw [if_pos hdot]; exact h
  · next hdot =>
    rw [if_neg hdot]
    split at h
    · next hdots => rw [if_pos hdots]; exact h
    · next hdots =>
      rw [if_neg hdots]
      split at h
      · cases h
      · next hlength =>
        rw [if_neg hlength]
        split at h
        · next hdirectory => rw [if_pos (hasDirectory_cons entry hdirectory)]; exact h
        · split at h <;> cases h

theorem walk_cons {d : Directory} {place last : Place} {names : List String}
    (entry : Place × Content) (h : d.walk place names = .ok last) :
    walk ⟨entry :: d.entries⟩ place names = .ok last := by
  induction names generalizing place with
  | nil => exact h
  | cons name rest ih =>
    simp only [walk] at h ⊢
    split at h
    · next next hnext => rw [enter_cons entry hnext]; exact ih h
    · cases h

theorem locate_cons {d : Directory} {text : String} {found : Place × String}
    (entry : Place × Content) (h : d.locate text = .ok found) :
    locate ⟨entry :: d.entries⟩ text = .ok found := by
  simp only [locate] at h ⊢
  split at h
  · cases h
  · next hlength =>
    rw [if_neg hlength]
    split at h
    · cases h
    · split at h
      · next hwalk => rw [walk_cons entry hwalk]; exact h
      · cases h

/-- What was written last is what is read. -/
theorem read_write {d e : Directory} {text : String} {content : Content}
    (h : d.write text content = .ok e) : e.read text = .ok content := by
  simp only [write] at h
  split at h
  · cases h
  · next place name hlocate =>
    split at h
    · cases h
    · next hdots =>
      split at h
      · cases h
      · next hname =>
        split at h
        · cases h
        · cases h
          simp only [Bool.or_eq_true, not_or, Bool.not_eq_true] at hdots
          simp [read, locate_cons _ hlocate, hdots.1, hdots.2, hname, find?]

end Directory

end CommandLine

end VectorUnit
