import SeaOfNodes.Error

/-!
Files written into a directory, under names that may be paths.

A path is followed one component at a time: an empty component and `.` stay where they are, `..`
goes up, and a name goes into what stands under it. Only the last name need not exist yet. Of what
lies outside, a directory knows the places above it and the files that were written there.
-/

namespace SeaOfNodes

/-! ### Paths -/

namespace Path

/-- What a component of a path does, if it does anything. -/
inductive Step where
  | up
  | into (name : String)
deriving DecidableEq

/-- Going up comes before any name; names are in order of their code points. -/
def Step.le : Step → Step → Bool
  | up, _ => true
  | into _, up => false
  | into a, into b => decide (a ≤ b)

def Step.ofComponent? (s : String) : Option Step :=
  if s = "" ∨ s = "." then none else if s = ".." then some up else some (into s)

/-- The first difference decides; a path comes before those that go on from it. -/
def stepsLe : List Step → List Step → Bool
  | [], _ => true
  | _ :: _, [] => false
  | a :: as, b :: bs => if a = b then stepsLe as bs else a.le b

end Path

/-- A path as far as it matters where it leads. -/
structure Path where
  /-- Whether it starts at the top, and not where the reader stands. -/
  rooted : Bool
  steps : List Path.Step
deriving DecidableEq

namespace Path

def parse (s : String) : Path where
  rooted := s.toList.head? == some '/'
  steps := (s.splitOn "/").filterMap Step.ofComponent?

/-- The order in which paths are listed. -/
def le (p q : Path) : Bool :=
  if p.rooted = q.rooted then stepsLe p.steps q.steps else p.rooted

/-- Longest name of a file, in bytes. -/
def maxName : Nat := 255

/-- Longest path, in bytes. -/
def maxLength : Nat := 4095

end Path

/-! ### Directories -/

/-- A place that holds files: the directory itself at level 0, those above it, or the top. -/
inductive Place where
  | above (levels : Nat)
  | top
deriving DecidableEq

def Place.up : Place → Place
  | above n => above (n + 1)
  | top => top

/-- Where a file lies. -/
structure Location where
  place : Place
  name : String
deriving DecidableEq

structure Directory where
  /-- The directory's own path, which goes in front of the names of its files. -/
  path : String
  /-- Whether the directory exists. -/
  present : Bool
  /-- The files written so far with their contents, the latest first. -/
  files : List (Location × String) := []
deriving DecidableEq

namespace Directory

/-- What the file at a location holds, if there is one. -/
def read? (d : Directory) (l : Location) : Option String := d.files.lookup l

/-- The path of a file of the given name. A rooted name stands for itself. -/
def pathOf (d : Directory) (name : String) : String :=
  if (Path.parse name).rooted then name else d.path ++ "/" ++ name

/-- Follows a path from a place to the location of a file. -/
def follow (d : Directory) : Place → List Path.Step → Except WriteFailure Location
  | _, [] => .error .isDirectory
  | p, .up :: rest => d.follow p.up rest
  | place, .into name :: rest =>
    if name.utf8ByteSize > Path.maxName then .error .nameTooLong
    else if rest = [] then .ok { place, name }
    else if (d.read? { place, name }).isSome then .error .notDirectory
    else .error .notFound

/-- Finds where a file of the given name goes. -/
def locate (d : Directory) (name : String) : Except WriteFailure Location :=
  let full := d.pathOf name
  let path := Path.parse name
  if full.toList.any (·.toNat == 0) then .error .nulInName
  else if full.utf8ByteSize > Path.maxLength then .error .nameTooLong
  else if path.rooted then d.follow .top path.steps
  else if d.present then d.follow (.above 0) path.steps
  else .error .notFound

/-- Writes a file, over one that lies there already, and tells where it went. -/
def write (d : Directory) (name contents : String) : Except WriteFailure (Location × Directory) := do
  let l ← d.locate name
  return (l, { d with files := (l, contents) :: d.files })

end Directory

end SeaOfNodes
