import LiveRules.Compile.Link

/-!
The built-in compiler. Every source is checked by itself and the batch is linked; artifacts are
written only when nothing is wrong.
-/

namespace LiveRules.Builtin

/-- The sources that pass their checks, and the diagnostics about the others. -/
def checkAll (d : Disk) : List Source → List CheckedUnit × List Diagnostic
  | [] => ([], [])
  | s :: rest =>
    let (units, diagnostics) := checkAll d rest
    match Check.ofPath d s.path with
    | .ok p => (p :: units, diagnostics)
    | .error found => (units, found ++ diagnostics)

/-- Stores units in turn and gives their paths. -/
def writeAll (root : Path) : List Artifact → Disk → Except CompileError (List Path) × Disk
  | [], d => (.ok [], d)
  | a :: rest, d =>
    match a.write d root with
    | (.error e, d) => (.error (.artifact e), d)
    | (.ok path, d) =>
      match writeAll root rest d with
      | (.error e, d) => (.error e, d)
      | (.ok paths, d) => (.ok (path :: paths), d)

structure Result where
  outcome : Except CompileError Outcome
  disk : Disk
  notes : List Note := []

def compile (d : Disk) (sources : List Source) (cp : ClassPath) (root : Path) : Result :=
  let (batch, found) := checkAll d sources
  let scope := Link.Scope.of d cp batch
  let notes := if Link.asksClassPath scope batch then cp.itemNotes d else []
  match found ++ Link.problems scope batch with
  | [] =>
    match d.makeFolders root with
    | (.error e, d) => ⟨.error (.output root e), d, notes⟩
    | (.ok _, d) =>
      match writeAll root (batch.map (Link.linked scope)) d with
      | (.error e, d) => ⟨.error e, d, notes⟩
      | (.ok written, d) => ⟨.ok { sources := sources.length, written }, d, notes⟩
  | diagnostics =>
    let sorted := diagnostics.mergeSort Diagnostic.le
    ⟨.ok { sources := sources.length, diagnostics := sorted }, d, notes⟩

end LiveRules.Builtin
