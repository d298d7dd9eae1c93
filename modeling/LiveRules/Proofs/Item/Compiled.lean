import LiveRules.Proofs.Item.Packing
import LiveRules.Proofs.Json.Stored

/-!
Compiling one stub. Whatever the type and the label of an item are, its stub is accepted over every
class path, and its unit declares just that item.
-/

namespace LiveRules

open Disk

variable {d d' : Disk} {s : Source} {root path : Path} {base : String} {item : Item}

theorem Stub.stem_of_fileName (h : path.fileName? = some (fileName item.name)) :
    path.stem = unitName item.name := by
  rw [Path.stem, Path.stem?, h, Option.map_some, cutName_fileName, Option.getD_some]

/-- What the check of a stub at a path gives. -/
def Stub.checkedAt (path : Path) (base : String) (item : Item) : CheckedUnit :=
  { path, unit := unit base item, baseLine := 0, itemLines := [] }

namespace Builtin

/-- A stub is stored under its file name. -/
structure HasStub (d : Disk) (s : Source) (base : String) (item : Item) : Prop where
  fileName : s.path.fileName? = some (Stub.fileName item.name)
  read : d.read s.path = .ok (Text.encode (Stub.text base item))

/-- The check of a single stub gives the unit of its item. -/
theorem checkAll_stub (hstub : HasStub d s base item) (hbase : Naming.isNamespace base = true)
    (hname : Naming.isItemName item.name = true) :
    checkAll d [s] = ([Stub.checkedAt s.path base item], []) := by
  have hcheck := Stub.check_text hbase hname (Stub.stem_of_fileName hstub.fileName)
  rw [checkAll, checkAll, Check.ofPath, readText_of_encode hstub.read]
  simp only [hcheck]
  rfl

/-- A stub refers to nothing, so its compilation is to store its unit. -/
theorem compile_stub_eq (hstub : HasStub d s base item) (hbase : Naming.isNamespace base = true)
    (hname : Naming.isItemName item.name = true) (cp : ClassPath) (root : Path) :
    compile d [s] cp root =
      match d.makeFolders root with
      | (.error e, d) => ⟨.error (.output root e), d, []⟩
      | (.ok _, d) =>
        match (Stub.unit base item).write d root with
        | (.error e, d) => ⟨.error (.artifact e), d, []⟩
        | (.ok path, d) => ⟨.ok { sources := 1, written := [path] }, d, []⟩ := by
  have hcheck := checkAll_stub hstub hbase hname
  have hitems : Link.IsItems [Stub.checkedAt s.path base item] := by
    intro p hp
    rw [List.mem_singleton.mp hp]
    exact ⟨rfl, rfl, rfl⟩
  have hproblems := hitems.problems_eq_nil (List.nodup_singleton _)
    (Link.Scope.of d cp [Stub.checkedAt s.path base item])
  have hasks : Link.asksClassPath (Link.Scope.of d cp [Stub.checkedAt s.path base item])
      [Stub.checkedAt s.path base item] = false := rfl
  have hlinked : Link.linked (Link.Scope.of d cp [Stub.checkedAt s.path base item])
      (Stub.checkedAt s.path base item) = Stub.unit base item := rfl
  rw [compile, hcheck]
  simp only [hproblems, hasks, List.map_cons, List.map_nil, hlinked, List.append_nil, writeAll,
    Bool.false_eq_true, if_false]
  rcases d.makeFolders root with ⟨_ | _, made⟩
  · rfl
  · dsimp only
    rcases (Stub.unit base item).write made root with ⟨_ | _, stored⟩ <;> rfl

/-- The stub of an item with a proper name, in a proper namespace, whatever its type and its label,
is compiled over any class path without a diagnostic. The compilation ends well just when its folder
can be made and its unit be stored; then there is one artifact, which is read as a unit that
declares the item and is nothing else. -/
theorem compile_stub (d : Disk) (s : Source) (cp : ClassPath) (root : Path) (base : String)
    (item : Item) (hbase : Naming.isNamespace base = true)
    (hname : Naming.isItemName item.name = true) (hstub : HasStub d s base item) :
    (compile d [s] cp root).diagnostics = [] ∧
    ((∃ o, (compile d [s] cp root).outcome = .ok o) ↔
      ∃ made path stored, d.makeFolders root = (.ok (), made) ∧
        (Stub.unit base item).write made root = (.ok path, stored)) ∧
    ∀ o, (compile d [s] cp root).outcome = .ok o →
      o = { sources := 1, diagnostics := [],
            written := [Naming.artifactPath root (Stub.identifier base item.name)] } ∧
      ((compile d [s] cp root).disk.CanRead → ∃ a,
        Artifact.read (compile d [s] cp root).disk
          (Naming.artifactPath root (Stub.identifier base item.name)) = .ok a ∧
        a.identifier = Stub.identifier base item.name ∧ a.kind = .item ∧ a.isAbstract = false ∧
        a.constructible = false ∧ a.extends? = none ∧ a.methods = [] ∧ a.item = some item) := by
  rw [compile_stub_eq hstub hbase hname]
  -- only the two operations on the disk can fail
  rcases hmake : d.makeFolders root with ⟨e | ⟨⟩, made⟩
  · refine ⟨rfl, iff_of_false ?_ ?_, ?_⟩
    · rintro ⟨o, ho⟩
      cases ho
    · rintro ⟨_, _, _, hmade, -⟩
      cases hmade
    · intro o ho
      cases ho
  rcases hwrite : (Stub.unit base item).write made root with ⟨e | path, stored⟩
  · dsimp only
    rw [hwrite]
    refine ⟨rfl, iff_of_false ?_ ?_, ?_⟩
    · rintro ⟨o, ho⟩
      cases ho
    · rintro ⟨_, _, _, hmade, hstored⟩
      cases hmade
      rw [hwrite] at hstored
      cases hstored
    · intro o ho
      cases ho
  · dsimp only
    rw [hwrite]
    obtain rfl := Artifact.path_of_write hwrite
    refine ⟨rfl, iff_of_true ⟨_, rfl⟩ ⟨made, _, stored, rfl, hwrite⟩, fun o ho => ?_⟩
    cases ho
    refine ⟨rfl, fun hread => ⟨Stub.unit base item, ?_, rfl, rfl, rfl, rfl, rfl, rfl, rfl⟩⟩
    have hback := Artifact.read_of_write hwrite hread
    rwa [Artifact.reread_of_comesBack (Stub.comesBack_unit base item)] at hback

/-- An item with quotes, backslashes, line ends and control characters. -/
def quotedItem : Item := ⟨"Lamp", "", some "a \"b\" \x27\x27\x27c\\\r\n\x00\t"⟩

def quotedDisk : Disk where
  entries := [(["items"], .folder),
    (["items", "_Lamp.rule"], .file (Text.encode (Stub.text "org.items" quotedItem)) false)]

def quotedSource : Source := ⟨⟨"items/_Lamp.rule"⟩, "", ⟨[]⟩, true⟩

theorem hasStub_quoted : HasStub quotedDisk quotedSource "org.items" quotedItem where
  fileName := by decide +kernel
  read := CanRead.read (P := ["items", "_Lamp.rule"]) (fun _ => rfl) (by decide +kernel) rfl

theorem regular_quotedDisk : quotedDisk.Regular where
  tree := .of_entries (show (quotedDisk.entries.map Prod.fst).Nodup by decide)
    (show ∀ x ∈ quotedDisk.entries, x.1 ≠ [] ∧
      Disk.entry? quotedDisk x.1.dropLast = some .folder ∧
      ∀ name ∈ x.1.getLast?, Path.IsName name by decide)
  sound _ _ _ := rfl

/-- The stub of such an item is compiled, and its unit declares the item as it was. -/
theorem compile_stub_quoted :
    (compile quotedDisk [quotedSource] [] ⟨"out"⟩).outcome =
      .ok { sources := 1, diagnostics := [], written := [⟨"out/org/items/_Lamp.unit"⟩] } ∧
    ∃ a, Artifact.read (compile quotedDisk [quotedSource] [] ⟨"out"⟩).disk
      ⟨"out/org/items/_Lamp.unit"⟩ = .ok a ∧ a.item = some quotedItem := by
  obtain ⟨-, hends, hresult⟩ := compile_stub quotedDisk quotedSource [] ⟨"out"⟩ "org.items"
    quotedItem (by decide +kernel) (by decide +kernel) hasStub_quoted
  have hpath : Naming.artifactPath ⟨"out"⟩ (Stub.identifier "org.items" quotedItem.name) =
      ⟨"out/org/items/_Lamp.unit"⟩ := by decide +kernel
  have hmakes : (quotedDisk.makeFolders ⟨"out"⟩).1 = .ok () := by decide +kernel
  have hwrites : ((Stub.unit "org.items" quotedItem).write
      (quotedDisk.makeFolders ⟨"out"⟩).2 ⟨"out"⟩).1.isOk = true := by decide +kernel
  rcases hmake : quotedDisk.makeFolders ⟨"out"⟩ with ⟨e | ⟨⟩, made⟩ <;> rw [hmake] at hmakes hwrites
  · cases hmakes
  rcases hwrite : (Stub.unit "org.items" quotedItem).write made ⟨"out"⟩ with ⟨e | path, stored⟩ <;>
    rw [hwrite] at hwrites
  · cases hwrites
  obtain ⟨o, ho⟩ := hends.mpr ⟨made, path, stored, hmake, hwrite⟩
  obtain ⟨rfl, hread⟩ := hresult o ho
  -- nothing fails on the disk that is left, so the unit can be read from it
  have hmade := (makeFolders_spec regular_quotedDisk hmake).1
  obtain ⟨-, P, hstored⟩ := Artifact.write_spec hmade hwrite
  have hdisk : (compile quotedDisk [quotedSource] [] ⟨"out"⟩).disk = stored := by
    rw [compile_stub_eq hasStub_quoted (by decide +kernel) (by decide +kernel)]
    simp only [hmake, hwrite]
  obtain ⟨a, ha, -, -, -, -, -, -, hitem⟩ :=
    hread (hdisk ▸ fun Q => hstored.regular.sound _ _ Q)
  rw [hpath] at ha ho
  exact ⟨ho, a, ha, hitem⟩

end Builtin

end LiveRules
