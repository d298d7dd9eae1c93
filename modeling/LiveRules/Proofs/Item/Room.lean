import LiveRules.Item.Shelf
import LiveRules.Proofs.Compile.Confined
import LiveRules.Proofs.Compile.Dotted
import LiveRules.Proofs.Item.Stubs

/-!
Room for stubs. Stubs and their units lie in one folder below that of the items, and the pack of
the items lies beside its temporary file; a disk has room for the items of some names when all
these paths can take a file.
-/

namespace LiveRules

open Disk

namespace Path

variable {p : Path} {n ext : String}

/-- The path with another extension lies in the same folder. -/
theorem withExtension_join (h : IsName n) (h' : IsName ((cutName n).1 ++ "." ++ ext)) :
    (p.join ⟨n⟩).withExtension ext = p.join ⟨(cutName n).1 ++ "." ++ ext⟩ := by
  have hpieces := pieces_join (p := p) h'
  rw [withExtension, fileName?_join h]
  dsimp only
  rw [pieces_join h, trimPieces_concat h.not_idle, List.dropLast_concat, ← hpieces, pieces,
    Text.joined_split, String.ofList_toList]

end Path

namespace Stub

open Naming

variable {c : Config} {name other base : String} {I : Place}

/-- The name of the file that the unit of an item lies in. -/
def unitFile (item : String) : String := unitName item ++ "." ++ artifactExtension

/-- Where the stub of an item lies, below the place of the items. -/
def place (c : Config) (I : Place) (item : String) : Place :=
  I ++ (segments c.itemsNamespace ++ [fileName item])

def unitPlace (c : Config) (I : Place) (item : String) : Place :=
  I ++ (segments c.itemsNamespace ++ [unitFile item])

theorem not_mem_unitName (h : isItemName name = true) {c : Char}
    (hc : isLetterOrDigit c = false) : c ∉ (unitName name).toList := by
  intro hmem
  rw [unitName, mark, String.toList_append, List.mem_append] at hmem
  rcases hmem with hmem | hmem
  · obtain rfl : c = '_' := by simpa using hmem
    cases hc
  · rw [letters_of_isItemName h c hmem] at hc
    cases hc

theorem isName_fileName (h : isItemName name = true) : Path.IsName (fileName name) :=
  Naming.isName_fileName (not_mem_unitName h rfl) (by decide) (by decide)

theorem isName_unitFile (h : isItemName name = true) : Path.IsName (unitFile name) :=
  Naming.isName_fileName (not_mem_unitName h rfl) (by decide) (by decide)

theorem unitName_ne_empty (name : String) : unitName name ≠ "" := by
  intro h
  have := congrArg String.toList h
  simp [unitName, mark] at this

theorem unitName_injective (h : unitName name = unitName other) : name = other := by
  have hchars := congrArg String.toList h
  rw [unitName, unitName, String.toList_append, String.toList_append] at hchars
  exact String.toList_inj.mp (List.append_cancel_left hchars)

theorem point_mem_fileName (name : String) : '.' ∈ (fileName name).toList := by
  simp [fileName, String.toList_append]

theorem point_mem_unitFile (name : String) : '.' ∈ (unitFile name).toList := by
  simp [unitFile, String.toList_append]

theorem cutName_fileName (name : String) :
    Path.cutName (fileName name) = (unitName name, some sourceExtension) :=
  Path.cutName_append (unitName_ne_empty name) (by decide)

theorem cutName_unitFile (name : String) :
    Path.cutName (unitFile name) = (unitName name, some artifactExtension) :=
  Path.cutName_append (unitName_ne_empty name) (by decide)

theorem endsWith_fileName {front : List String} (name : String) :
    endsWith (front ++ [fileName name]) sourceExtension = true := by
  rw [endsWith, List.getLast?_concat, Option.bind_some, cutName_fileName]
  exact beq_self_eq_true _

theorem endsWith_unitFile {front : List String} (name : String) :
    endsWith (front ++ [unitFile name]) artifactExtension = true := by
  rw [endsWith, List.getLast?_concat, Option.bind_some, cutName_unitFile]
  exact beq_self_eq_true _

theorem fileName_injective (h : fileName name = fileName other) : name = other := by
  have := congrArg (fun n => (Path.cutName n).1) h
  rw [cutName_fileName, cutName_fileName] at this
  exact unitName_injective this

theorem unitFile_injective (h : unitFile name = unitFile other) : name = other := by
  have := congrArg (fun n => (Path.cutName n).1) h
  rw [cutName_unitFile, cutName_unitFile] at this
  exact unitName_injective this

theorem fileName_ne_unitFile (name other : String) : fileName name ≠ unitFile other := by
  intro h
  have := congrArg (fun n => (Path.cutName n).2) h
  rw [cutName_fileName, cutName_unitFile] at this
  exact absurd (Option.some.inj this) (by decide)

theorem place_ne_unitPlace (name other : String) : place c I name ≠ unitPlace c I other := by
  intro h
  have := List.append_cancel_left (List.append_cancel_left h)
  exact fileName_ne_unitFile name other (List.singleton_inj.mp this)

theorem place_injective (h : place c I name = place c I other) : name = other :=
  fileName_injective (List.singleton_inj.mp (List.append_cancel_left (List.append_cancel_left h)))

theorem unitPlace_injective (h : unitPlace c I name = unitPlace c I other) : name = other :=
  unitFile_injective (List.singleton_inj.mp (List.append_cancel_left (List.append_cancel_left h)))

theorem identifier_injective (h : isItemName name = true) (h' : isItemName other = true)
    (heq : identifier base name = identifier base other) : name = other := by
  have hname : splitIdentifier (base ++ "." ++ unitName name) = (base, unitName name) :=
    splitIdentifier_append (not_mem_unitName h rfl)
  have hother : splitIdentifier (base ++ "." ++ unitName other) = (base, unitName other) :=
    splitIdentifier_append (not_mem_unitName h' rfl)
  rw [identifier, identifier] at heq
  rw [heq, hother] at hname
  exact (unitName_injective (Prod.mk.inj hname).2).symm

theorem names_identifier (h : isItemName name = true) :
    names (identifier base name) = segments base ++ [unitFile name] := by
  rw [names, identifier, splitIdentifier_append (not_mem_unitName h rfl)]
  rfl

/-- The unit of an item lies beside its stub. -/
theorem unitPath_eq (h : isItemName name = true) :
    unitPath c name = c.stubFolder.join ⟨unitFile name⟩ := by
  rw [unitPath, artifactPath, identifier, splitIdentifier_append (not_mem_unitName h rfl)]
  rfl

theorem unitPath_eq_below (h : isItemName name = true) : unitPath c name =
    below c.folders.items (segments c.itemsNamespace ++ [unitFile name]) := by
  rw [unitPath, artifactPath_eq_below, names_identifier h]

theorem stem_path (h : isItemName name = true) : (path c name).stem = unitName name := by
  rw [Path.stem, path, stem?_join (isName_fileName h), cutName_fileName]
  rfl

theorem stem_unitPath (h : isItemName name = true) : (unitPath c name).stem = unitName name := by
  rw [unitPath_eq h, Path.stem, stem?_join (isName_unitFile h), cutName_unitFile]
  rfl

theorem path_injective (h : isItemName name = true) (h' : isItemName other = true)
    (heq : path c name = path c other) : name = other := by
  have hstem := congrArg Path.stem heq
  rw [stem_path h, stem_path h'] at hstem
  exact unitName_injective hstem

theorem unitPath_injective (h : isItemName name = true) (h' : isItemName other = true)
    (heq : unitPath c name = unitPath c other) : name = other := by
  have hstem := congrArg Path.stem heq
  rw [stem_unitPath h, stem_unitPath h'] at hstem
  exact unitName_injective hstem

end Stub

namespace Pack

def temporaryName : String := "items.pack.tmp"

theorem isName_itemsPackName : Path.IsName itemsPackName :=
  ⟨by decide, by decide, by decide, by decide⟩

theorem isName_temporaryName : Path.IsName temporaryName :=
  ⟨by decide, by decide, by decide, by decide⟩

theorem temporary_eq (p : Path) : temporary (p.join ⟨itemsPackName⟩) = p.join ⟨temporaryName⟩ :=
  Path.withExtension_join isName_itemsPackName
    (show Path.IsName ((Path.cutName itemsPackName).1 ++ "." ++ "pack.tmp") from isName_temporaryName)

end Pack

/-- A disk has room for the stubs and units of the items of some names below one place and for
their pack below another, and the folder of the rule units is at a third. -/
structure Room (c : Config) (I J K : Place) (N : String → Prop) (d : Disk) : Prop where
  regular : d.Regular
  items : d.place? c.folders.items = .ok I
  stubs : d.place? c.stubFolder = .ok (I ++ Naming.segments c.itemsNamespace)
  stubFolder : d.entry? (I ++ Naming.segments c.itemsNamespace) = some .folder
  stub : ∀ n, N n → d.Accepts (Stub.path c n) (Stub.place c I n)
  unit : ∀ n, N n → d.Accepts (Stub.unitPath c n) (Stub.unitPlace c I n)
  jar : d.place? c.folders.jar = .ok J
  jarFolder : d.entry? J = some .folder
  pack : d.Accepts c.itemsPack (J ++ [Pack.itemsPackName])
  temporary : d.Accepts (Pack.temporary c.itemsPack) (J ++ [Pack.temporaryName])
  classes : d.place? c.folders.ruleClasses = .ok K
  classFolder : d.entry? K = some .folder

namespace Room

variable {c : Config} {I J K : Place} {N : String → Prop} {d e : Disk}

/-- Room is left as long as folders stay and none comes whose name has a point. -/
theorem keep (h : Room c I J K N d) (he : e.Regular) (hcurrent : e.current = d.current)
    (hfolder : ∀ Q, d.entry? Q = some .folder → e.entry? Q = some .folder)
    (hpointed : ∀ (F : Place) (n : String), '.' ∈ n.toList →
      e.entry? (F ++ [n]) = some .folder → d.entry? (F ++ [n]) = some .folder) :
    Room c I J K N e := by
  have hplace {p : Path} {P : Place} (hp : d.place? p = .ok P) : e.place? p = .ok P :=
    place?_mono hcurrent hfolder hp
  have haccepts {p : Path} {F : Place} {n : String} (hn : '.' ∈ n.toList)
      (hp : d.Accepts p (F ++ [n])) : e.Accepts p (F ++ [n]) :=
    ⟨hplace hp.place, fun hQ => hp.free (hpointed F n hn hQ)⟩
  exact {
    regular := he
    items := hplace h.items
    stubs := hplace h.stubs
    stubFolder := hfolder _ h.stubFolder
    stub := fun n hn => by
      have hstub := h.stub n hn
      rw [Stub.place, ← List.append_assoc] at hstub ⊢
      exact haccepts (Stub.point_mem_fileName n) hstub
    unit := fun n hn => by
      have hunit := h.unit n hn
      rw [Stub.unitPlace, ← List.append_assoc] at hunit ⊢
      exact haccepts (Stub.point_mem_unitFile n) hunit
    jar := hplace h.jar
    jarFolder := hfolder _ h.jarFolder
    pack := haccepts (by decide) h.pack
    temporary := haccepts (by decide) h.temporary
    classes := hplace h.classes
    classFolder := hfolder _ h.classFolder }

theorem itemsFolder (h : Room c I J K N d) : d.entry? I = some .folder := by
  by_cases hnil : Naming.segments c.itemsNamespace = []
  · have hfolder := h.stubFolder
    rwa [hnil, List.append_nil] at hfolder
  · exact h.regular.tree.above hnil (by rw [h.stubFolder]; exact Option.some_ne_none _)

theorem sameFolders (h : Room c I J K N d) (he : e.Regular) (hsame : SameFolders d e) :
    Room c I J K N e :=
  h.keep he hsame.current (fun Q => (hsame.folder Q).mpr) fun _ _ _ => (hsame.folder _).mp

theorem sets {o : Option Entry} {P : Place} (h : Room c I J K N d) (he : e.Regular)
    (hsets : Sets P o d e) (hfree : d.entry? P ≠ some .folder) (ho : o ≠ some .folder) :
    Room c I J K N e :=
  h.sameFolders he (hsets.sameFolders hfree ho)

/-- Whatever a pass over rules does, it leaves room. -/
theorem confined {R : Place} (h : Room c I J K N d) (hd : Confined R d e) : Room c I J K N e :=
  h.keep hd.regular hd.current hd.folder fun _ _ => hd.folder_pointed

end Room

end LiveRules
