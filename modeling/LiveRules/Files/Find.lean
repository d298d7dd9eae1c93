import LiveRules.Files.Disk

/-!
Finding files by extension: `collect` goes down the whole tree and leaves out everything whose
name, or a folder's name on the way to it, starts with a point; `listed` takes the files that lie
directly in a folder, whatever their names. Both give paths in order.
-/

namespace LiveRules.Disk

def isHidden (name : String) : Bool := name.toList.head? == some '.'

def below (p : Path) (names : List String) : Path := names.foldl (fun q name => q.join ⟨name⟩) p

/-- The names that lead from a folder down to a place. -/
def namesBelow? (folder place : Place) : Option (List String) :=
  match folder.isPrefixOf? place with
  | some [] => none
  | other => other

/-- Whether every folder from a place down along some names can be listed. -/
def canList (d : Disk) (place : Place) : List String → Bool
  | [] => true
  | name :: rest => (d.trouble? .list place).isNone && canList d (place ++ [name]) rest

def isFileEntry : Entry → Bool
  | .file .. => true
  | .folder => false

/-- The visible files below a folder, as names from that folder on. -/
def visibleFiles (d : Disk) (folder : Place) : List (List String) :=
  d.entries.filterMap fun (place, e) => do
    let names ← namesBelow? folder place
    if isFileEntry e && !names.any isHidden && d.canList folder names then some names else none

/-- All files with an extension below a folder, hidden ones left out. -/
def collect (d : Disk) (p : Path) (ext : String) : List Path :=
  if !d.isFolder p then []
  else
    match d.place? p with
    | .error _ => []
    | .ok place =>
      Path.sort (((d.visibleFiles place).map (below p)).filter fun q => q.hasExtension ext)

/-- The files with an extension directly in a folder. -/
def listed (d : Disk) (p : Path) (ext : String) : List Path :=
  match d.list p with
  | .error _ => []
  | .ok entries =>
    let paths := entries.map fun entry => p.join ⟨entry.1⟩
    Path.sort (paths.filter fun q => d.isFile q && q.hasExtension ext)

end LiveRules.Disk
