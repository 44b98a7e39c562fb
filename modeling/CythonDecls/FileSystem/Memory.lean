import CythonDecls.FileSystem.Basic

/-!
# A file system as a value

Files and directories by their place below the root, which is a directory
that is always there. A path is followed piece by piece: every piece but the
last has to lead to a directory, and `..` leads to the one above it.
-/

namespace CythonDecls

/-- The names from the root down. -/
abbrev Place := List String

inductive FileEntry where
  | file (content : String)
  | directory
  deriving DecidableEq, Repr

def FileEntry.kind : FileEntry → EntryKind
  | file _ => .file
  | directory => .directory

structure FileSystem where
  entries : List (Place × FileEntry)
  deriving Repr

namespace FileSystem

def empty : FileSystem := ⟨[]⟩

def find? (fs : FileSystem) (place : Place) : Option FileEntry :=
  if place.isEmpty then some .directory else fs.entries.lookup place

def erase (fs : FileSystem) (place : Place) : FileSystem :=
  ⟨fs.entries.filter (·.1 ≠ place)⟩

def put (fs : FileSystem) (place : Place) (entry : FileEntry) : FileSystem :=
  ⟨(place, entry) :: (fs.erase place).entries⟩

/-! ## Following paths -/

/-- The longest name of a file, and the longest path, in bytes. -/
def nameLimit : Nat := 255

def pathLimit : Nat := 4095

/-- The place that a name leads to from a place. -/
def step (fs : FileSystem) (place : Place) (name : String) : Except OsError Place :=
  match fs.find? place with
  | none => .error .notFound
  | some (.file _) => .error .notDirectory
  | some .directory =>
    if name = "." then .ok place
    else if name = ".." then .ok place.dropLast
    else if nameLimit < name.utf8ByteSize then .error .nameTooLong
    else .ok (place ++ [name])

def names (p : Path) : List String := p.pieces.filter (!·.isEmpty)

def follow (fs : FileSystem) (names : List String) : Except OsError Place :=
  names.foldlM fs.step []

def admits (p : Path) : Except OsError Unit :=
  if p.text.toList.contains '\x00' then .error .nulByte
  else if p.text.isEmpty then .error .notFound
  else if pathLimit < p.text.utf8ByteSize then .error .nameTooLong
  else .ok ()

/-- The place of a path; after a slash at its end that place is a directory. -/
def place (fs : FileSystem) (p : Path) : Except OsError Place := do
  admits p
  let endsOpen := p.pieces.getLast?.any String.isEmpty
  fs.follow (if endsOpen then names p ++ ["."] else names p)

def lookup (fs : FileSystem) (p : Path) : Except OsError FileEntry := do
  match fs.find? (← fs.place p) with
  | some entry => return entry
  | none => .error .notFound

/-! ## Operations -/

def read (fs : FileSystem) (p : Path) : Except OsError String := do
  match ← fs.lookup p with
  | .file content => return content
  | .directory => .error .isDirectory

/-- The system after a write, or why there is none. -/
def write (fs : FileSystem) (p : Path) (content : String) : Except OsError FileSystem := do
  let place ← fs.place p
  match fs.find? place with
  | some .directory => .error .isDirectory
  | _ => return fs.put place (.file content)

def makeDir (fs : FileSystem) (p : Path) : Except OsError FileSystem := do
  admits p
  let place ← fs.follow (names p)
  match fs.find? place with
  | some _ => .error .fileExists
  | none => return fs.put place .directory

def remove (fs : FileSystem) (p : Path) : FileSystem :=
  match fs.place p with
  | .error _ => fs
  | .ok place =>
    match fs.find? place with
    | some (.file _) => fs.erase place
    | _ => fs

def kindOf (fs : FileSystem) (p : Path) : Option EntryKind :=
  match fs.lookup p with
  | .ok entry => some entry.kind
  | .error _ => none

def change (f : FileSystem → Except OsError FileSystem) :
    StateM FileSystem (Except OsError Unit) :=
  fun fs => match f fs with
    | .ok changed => (.ok (), changed)
    | .error e => (.error e, fs)

instance : Files (StateM FileSystem) where
  read p := do return (← get).read p
  write p content := change (·.write p content)
  makeDir p := change (·.makeDir p)
  remove p := modify (·.remove p)
  kindOf p := do return (← get).kindOf p

end FileSystem

end CythonDecls
