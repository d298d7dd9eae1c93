import LiveRules.Digest.Content
import LiveRules.Files.Find
import LiveRules.Naming
import LiveRules.Source.Declaration

/-!
Sources on a disk. A source is identified by the package that it declares and the stem of its file
name; a text that declares no package is identified by the stem alone.
-/

namespace LiveRules

structure Source where
  path : Path
  identifier : String
  hash : ContentHash
  /-- Whether there is a file, or anything else, at the path. -/
  isThere : Bool
  deriving DecidableEq

namespace Source

def identifierOf (d : Disk) (path : Path) : String :=
  let package? :=
    match d.readText path with
    | .ok text => (Declaration.packageOf? text.toList).filter fun p => !p.isEmpty
    | .error _ => none
  match package? with
  | some package => package ++ "." ++ path.stem
  | none => path.stem

def scan (d : Disk) (path : Path) : Source :=
  { path
    identifier := identifierOf d path
    hash := ContentHash.ofFile d path
    isThere := d.isThere path }

def name (s : Source) : String := s.path.stem

/-- Every source below a folder, hidden ones left out. -/
def scanTree (d : Disk) (folder : Path) : List Source :=
  (d.collect folder Naming.sourceExtension).map (scan d)

/-- The sources that lie directly in a folder. -/
def scanFolder (d : Disk) (folder : Path) : List Source :=
  (d.listed folder Naming.sourceExtension).map (scan d)

end Source

end LiveRules
