import LiveRules.Proofs.Compile.Thresholds
import LiveRules.Proofs.Load.Reports
import LiveRules.Proofs.Workspace.Meaning

/-!
Links at load time. The compiler looks for bases among the sources and in the archives, the loader
in the folder of units and then in the archives. Whatever the loader finds in the folder is a unit of
the batch, so the folder never hides a base with something that cannot be read; what it fails to find
is a base that an archive asks for.
-/

namespace LiveRules

open Disk

theorem Artifact.isFile_of_read {d : Disk} {p : Path} {a : Artifact} (h : d.Sound)
    (hread : Artifact.read d p = .ok a) : d.isFile p = true := by
  rw [Artifact.read] at hread
  cases htext : d.readText p with
  | error err => simp [htext] at hread
  | ok text =>
    obtain ⟨P, hP, content, x, hx⟩ := Pass.hasFile_of_readText h htext
    exact (isFile_iff h).mpr ⟨P, content, x, hP, hx⟩

/-- Units lie below a folder, and no others: at the path of each there is one of them, and each
visible file is at the path of one of them. -/
structure Offers (d : Disk) (root : Path) (units : List Artifact) : Prop where
  regular : d.Regular
  reads : ∀ a ∈ units, ∃ b ∈ units,
    Artifact.read d (Naming.artifactPath root a.identifier) = .ok b.reread
  only : ∀ path ∈ d.collect root Naming.artifactExtension, ∃ a ∈ units,
    Naming.NamesFile a.identifier ∧ path = Naming.artifactPath root a.identifier

namespace Offers

variable {d : Disk} {root : Path} {units : List Artifact} {a : Artifact} {name : String}
variable {more : ClassPath}

theorem find?_of_mem (h : Offers d root units) (ha : a ∈ units) : ∃ b ∈ units,
    (ClassPath.Entry.folder root).find? d a.identifier = .ok (some b.reread) := by
  obtain ⟨b, hb, hread⟩ := h.reads a ha
  refine ⟨b, hb, ?_⟩
  rw [ClassPath.Entry.find?]
  simp only [Artifact.isFile_of_read h.regular.sound hread, ↓reduceIte, hread]

/-- What the folder holds under a name is a unit of the batch, if it holds something. -/
theorem find?_cases (h : Offers d root units) (hroot : root.text ≠ "")
    (hname : Naming.NamesFile name) :
    (ClassPath.Entry.folder root).find? d name = .ok none ∨ ∃ b ∈ units,
      (ClassPath.Entry.folder root).find? d name = .ok (some b.reread) := by
  rw [ClassPath.Entry.find?]
  cases hfile : d.isFile (Naming.artifactPath root name) with
  | false => exact .inl rfl
  | true =>
    obtain ⟨P, content, x, hP, hx⟩ := (isFile_iff h.regular.sound).mp hfile
    rw [Naming.artifactPath_eq_below] at hP
    obtain ⟨F, hF, rfl⟩ := place?_below (Naming.isName_names hname.no_slash)
      Naming.names_ne_nil hroot hP
    have hmem : Naming.artifactPath root name ∈ d.collect root Naming.artifactExtension :=
      (mem_collect_units h.regular).mpr
        ⟨F, _, hF, hname.namesUnit, ⟨content, x, hx⟩, Naming.artifactPath_eq_below⟩
    obtain ⟨a, ha, -, hpath⟩ := h.only _ hmem
    obtain ⟨b, hb, hread⟩ := h.reads a ha
    refine .inr ⟨b, hb, ?_⟩
    simp only [↓reduceIte, hpath, hread]

/-- The loader resolves a name to a unit of the batch or to one of an archive. -/
theorem cases_of_resolve (h : Offers d root units) (hroot : root.text ≠ "")
    (hmore : more.IsPacked) (hname : Naming.NamesFile name)
    (ha : ClassPath.resolve d (.folder root :: more) name = .ok a) :
    (∃ b ∈ units, a = b.reread) ∨ ∃ p ∈ archives more, (name, a) ∈ p.units := by
  rw [ClassPath.resolve, ClassPath.find?] at ha
  rcases h.find?_cases hroot hname with hfind | ⟨b, hb, hfind⟩
  · simp only [hfind, hmore.find?_eq_findSome?] at ha
    split at ha
    · cases ha
    · cases ha
    · rename_i b hsome
      obtain rfl := Except.ok.inj ha
      obtain ⟨p, hp, hget⟩ := List.exists_of_findSome?_eq_some (Except.ok.inj hsome)
      exact .inr ⟨p, hp, Pack.mem_of_get? hget⟩
  · simp only [hfind] at ha
    exact .inl ⟨b, hb, (Except.ok.inj ha).symm⟩

/-- The loader resolves the identifiers of the batch and what the archives hold. -/
theorem exists_resolve (h : Offers d root units) (hroot : root.text ≠ "")
    (hname : Naming.NamesFile name)
    (hlink : name ∈ units.map (·.identifier) ∨ more.contains d name = true) :
    ∃ a, ClassPath.resolve d (.folder root :: more) name = .ok a := by
  rw [ClassPath.resolve, ClassPath.find?]
  rcases hlink with hmem | hcontains
  · obtain ⟨a, ha, rfl⟩ := List.mem_map.mp hmem
    obtain ⟨b, -, hfind⟩ := h.find?_of_mem ha
    exact ⟨b.reread, by simp only [hfind]⟩
  · rcases h.find?_cases hroot hname with hfind | ⟨b, -, hfind⟩
    · rw [ClassPath.contains] at hcontains
      split at hcontains
      · rename_i a hsome
        exact ⟨a, by simp only [hfind, hsome]⟩
      · cases hcontains
    · exact ⟨b.reread, by simp only [hfind]⟩

/-- When the folder is loaded, a base that is not found is one that an archive asks for, and no unit
of the batch. -/
theorem of_mem_failed (h : Offers d root units) (hroot : root.text ≠ "") (hmore : more.IsPacked)
    (hnames : ∀ a ∈ units, ∀ base ∈ a.extends?, Naming.NamesFile base)
    (hlinks : ∀ a ∈ units, ∀ base ∈ a.extends?,
      base ∈ units.map (·.identifier) ∨ more.contains d base = true)
    (harchives : ∀ p ∈ archives more, ∀ x ∈ p.units, ∀ base ∈ x.2.extends?,
      Naming.NamesFile base) {path : Path} {front identifier base : String}
    (hfailed : (path, LoadError.unresolvedBase identifier base) ∈
      (LoadReport.ofFolder d (.folder root :: more) root front true).failed) :
    (∃ p ∈ archives more, ∃ x ∈ p.units, x.2.identifier = identifier ∧
      x.2.extends? = some base) ∧ ∀ a ∈ units, a.extends? ≠ some base := by
  rw [LoadReport.failed_ofFolder, List.mem_flatMap] at hfailed
  obtain ⟨q, hq, hfailed⟩ := hfailed
  obtain ⟨a, hresolve, hchain⟩ :=
    LoadReport.chain_of_mem_failed hfailed (.unresolvedBase identifier base)
  -- the chain leads from units of the batch and of archives to such units
  let Known (b : Artifact) : Prop :=
    (∃ c ∈ units, b = c.reread) ∨ ∃ p ∈ archives more, ∃ name, (name, b) ∈ p.units
  have hstart : Known a := by
    rw [LoadReport.resolveAt] at hresolve
    split at hresolve
    · cases hresolve
    · rename_i name hderive
      obtain ⟨b, -, hfile, rfl⟩ := h.only q hq
      rcases h.cases_of_resolve hroot hmore (hfile.of_derive hderive) hresolve with
        hunit | ⟨p, hp, hmem⟩
      · exact .inl hunit
      · exact .inr ⟨p, hp, name, hmem⟩
  have hnext : ∀ b, Known b → ∀ base ∈ b.extends?, ∀ next,
      ClassPath.resolve d (.folder root :: more) base = .ok next → Known next := by
    intro b hb base hbase next hresolve
    have hname : Naming.NamesFile base := by
      rcases hb with ⟨c, hc, rfl⟩ | ⟨p, hp, name, hmem⟩
      · exact hnames c hc base hbase
      · exact harchives p hp _ hmem base hbase
    rcases h.cases_of_resolve hroot hmore hname hresolve with hunit | ⟨p, hp, hmem⟩
    · exact .inl hunit
    · exact .inr ⟨p, hp, base, hmem⟩
  obtain ⟨b, hb, hidentifier, hbase, e, he⟩ :=
    Instance.exists_of_unresolvedBase hnext hstart hchain
  have hnone : ∀ a ∈ units, a.extends? ≠ some base := by
    intro a ha hextends
    obtain ⟨next, hnext⟩ := h.exists_resolve hroot (hnames a ha base hextends)
      (hlinks a ha base hextends)
    rw [hnext] at he
    cases he
  refine ⟨?_, hnone⟩
  rcases hb with ⟨c, hc, rfl⟩ | ⟨p, hp, name, hmem⟩
  · exact absurd hbase (hnone c hc)
  · exact ⟨p, hp, _, hmem, hidentifier, hbase⟩

end Offers

theorem ClassPath.IsPacked.contains_of_subset {d e : Disk} {cp more : ClassPath} {name : String}
    (h : cp.IsPacked) (h' : more.IsPacked) (hsub : cp ⊆ more)
    (hc : cp.contains d name = true) : more.contains e name = true := by
  obtain ⟨p, hp, hget⟩ : ∃ p ∈ archives cp, (p.get? name).isSome = true := by
    rw [contains, h.find?_eq_findSome?] at hc
    cases hfind : (archives cp).findSome? fun p => p.get? name with
    | none => simp [hfind] at hc
    | some a =>
      obtain ⟨p, hp, hget⟩ := List.exists_of_findSome?_eq_some hfind
      exact ⟨p, hp, by rw [hget]; rfl⟩
  have hmem : p ∈ archives more := List.filterMap_subset _ hsub hp
  have hsome : ((archives more).findSome? fun p => p.get? name).isSome = true :=
    List.isSome_findSome?.trans (List.any_eq_true.mpr ⟨p, hmem, hget⟩)
  obtain ⟨a, ha⟩ := Option.isSome_iff_exists.mp hsome
  rw [contains, h'.find?_eq_findSome?, ha]

namespace Pass

variable {d d₁ d' : Disk} {c : Config} {o : Outcome} {batch : List CheckedUnit} {k : Nat}

/-- A pass that stores a batch leaves its units below their folder, and no others. Where the paths of
two units are the same, one of them is there. -/
theorem Compiles.offers (h : d.Regular) (hcompiles : Compiles c d₁ d' batch)
    (hremoved : removeUnits d c.folders.ruleClasses = (.ok k, d₁))
    (hplace : KeepsPlace c.folders.ruleClasses d d') (hroot : c.folders.ruleClasses.text ≠ "") :
    Offers d' c.folders.ruleClasses (linkedUnits c d₁ batch) := by
  obtain ⟨h₁, -, -⟩ := removeUnits_spec h hremoved
  obtain ⟨places, made, hstored⟩ := hcompiles.storedBatch h₁
  refine ⟨hstored.stored.regular, fun a ha => ?_, fun path hpath => ?_⟩
  · obtain ⟨P, hP, hat⟩ := Builtin.exists_of_forall₂_left hstored.stored.place a ha
    obtain ⟨b, hb, -, hread⟩ := hstored.stored.read hat hP
    exact ⟨b, hb, hread⟩
  · obtain ⟨F, names, hF, hnames, hfile, rfl⟩ :=
      (mem_collect_units hstored.stored.regular).mp hpath
    obtain ⟨a, ha, rfl⟩ := hcompiles.names_of_hasFile h hremoved hplace hroot hF hnames hfile
    obtain ⟨p, hp, rfl⟩ := List.mem_map.mp ha
    have hslash := Builtin.no_slash_of_checkAll hcompiles.checked p hp
    exact ⟨_, ha, .of_namesUnit hslash hnames, Naming.artifactPath_eq_below.symm⟩

/-- Each unit of a batch extends what its source says. -/
theorem exists_source_of_mem (hbatch : Builtin.checkAll d (ruleSources d c) = (batch, []))
    {a : Artifact} (ha : a ∈ linkedUnits c d₁ batch) : ∃ s ∈ ruleSources d c, ∃ x,
      Source.Declares d s x ∧ a.extends? = x.base?.map Toml.Marked.text := by
  obtain ⟨p, hp, rfl⟩ := List.mem_map.mp ha
  obtain ⟨s, hs, hsp⟩ :=
    Builtin.exists_of_forall₂_right (Builtin.forall₂_of_checkAll hbatch) p hp
  obtain ⟨-, x, -, -, hx, hmeans, -⟩ :=
    Builtin.exists_of_ofPath (.of d₁ (rulesPath d₁ c).1 batch) hsp
  exact ⟨s, hs, x, hx, hmeans.base⟩

theorem exists_unit_of_declares (hbatch : Builtin.checkAll d (ruleSources d c) = (batch, []))
    {s : Source} {x : Declaration} (hs : s ∈ ruleSources d c) (hx : Source.Declares d s x) :
    ∃ a ∈ linkedUnits c d₁ batch, a.extends? = x.base?.map Toml.Marked.text := by
  obtain ⟨p, hp, hsp⟩ :=
    Builtin.exists_of_forall₂_left (Builtin.forall₂_of_checkAll hbatch) s hs
  obtain ⟨-, x', -, -, hx', hmeans, -⟩ :=
    Builtin.exists_of_ofPath (.of d₁ (rulesPath d₁ c).1 batch) hsp
  obtain rfl := hx'.unique hx
  exact ⟨_, List.mem_map_of_mem hp, hmeans.base⟩

/-- What the units of a batch extend is in the batch or in the archives that rules are loaded with,
if the pass brings no other pack of built-in units within reach. -/
theorem Compiles.follows_links (h : d.Regular) (hcompiles : Compiles c d₁ d' batch)
    (hremoved : removeUnits d c.folders.ruleClasses = (.ok k, d₁))
    (hruntime : ∀ pack, Pack.read d' c.runtimePack = .ok pack →
      Pack.read d c.runtimePack = .ok pack) :
    ∀ a ∈ linkedUnits c d₁ batch, ∀ base ∈ a.extends?,
      base ∈ (linkedUnits c d₁ batch).map (·.identifier) ∨
        (rulesPath d' c).1.contains d' base = true := by
  obtain ⟨h₁, -, -⟩ := removeUnits_spec h hremoved
  obtain ⟨places, made, hstored⟩ := hcompiles.storedBatch h₁
  have h' := hstored.stored.regular
  have hsubset : (rulesPath d₁ c).1 ⊆ (rulesPath d' c).1 :=
    rulesPath_subset h₁ h' hstored.beside fun pack hread =>
      isPackName_runtime.readPack h h₁ (beside_of_removeUnits h hremoved) (hruntime pack hread)
  obtain ⟨-, hbases, -⟩ := (Link.problems_eq_nil_iff
    (Builtin.length_itemLines hcompiles.checked)).mp hcompiles.links
  intro a ha base hbase
  obtain ⟨p, hp, rfl⟩ := List.mem_map.mp ha
  rw [linkedUnits, List.map_map]
  refine (hbases _ (List.mem_map_of_mem hp) base hbase).imp id fun hcontains => ?_
  exact (isPacked_rulesPath h₁.sound).contains_of_subset (isPacked_rulesPath h'.sound) hsubset
    hcontains

/-- The sources of a pass that accepts them are declared. -/
theorem exists_declared (h : d.Regular) (hpass : rulesPass c d = (.ok o, d'))
    (hclean : o.diagnostics = []) :
    ∃ xs, List.Forall₂ (Source.Declares d) (ruleSources d c) xs := by
  obtain ⟨k, d₁, hremove, hfresh⟩ := rulesPass_cases hpass
  obtain ⟨h₁, -, -⟩ := removeUnits_spec h hremove
  rcases compileAfresh_cases hfresh with ⟨-, hnone⟩ | ⟨-, batch, hcompiles⟩
  · obtain ⟨hnil, -⟩ := hnone.resolve_right (not_not_intro hclean)
    rw [ruleSources, Source.scanTree] at hnil ⊢
    rw [List.map_eq_nil_iff] at hnil
    by_cases hcollect : d.collect c.folders.rules Naming.sourceExtension = []
    · exact ⟨[], by rw [hcollect]; exact .nil⟩
    · rw [collect_sources_eq h h₁ (beside_of_removeUnits h hremove) hcollect] at hnil
      exact absurd hnil hcollect
  · obtain ⟨hsources, htexts⟩ := ruleSources_eq h₁ h (beside_before_removeUnits h hremove)
      hcompiles.nonempty (Builtin.readable_of_checkAll hcompiles.checked)
    refine Builtin.checkAll_snd_eq_nil_iff.mp ?_
    rw [hsources, Builtin.checkAll_eq_of_readText htexts, hcompiles.checked]

/-- A pass accepts its sources, and whatever they or the archives extend has a dotted name. -/
structure AcceptsDotted (c : Config) (d d' : Disk) : Prop where
  regular : d.Regular
  accepted : ∃ o, rulesPass c d = (.ok o, d') ∧ o.diagnostics = []
  root : c.folders.ruleClasses.text ≠ ""
  sources : ∀ s ∈ ruleSources d c, ∀ x, Source.Declares d s x → ∀ base ∈ x.base?,
    Naming.IsDotted base.text
  archives : ∀ p ∈ archives (rulesPath d' c).1, ∀ x ∈ p.units, ∀ base ∈ x.2.extends?,
    Naming.IsDotted base

/-- An archive asks for the base of a unit, and no source asks for it. -/
structure IsForeignLink (c : Config) (d d' : Disk) (identifier base : String) : Prop where
  archive : ∃ p ∈ archives (rulesPath d' c).1, ∃ x ∈ p.units, x.2.identifier = identifier ∧
    x.2.extends? = some base
  sources : ∀ s ∈ ruleSources d c, ∀ x, Source.Declares d s x → ∀ y ∈ x.base?, y.text ≠ base

/-- What rules are loaded to after a pass. -/
def loadReport (c : Config) (d' : Disk) : LoadReport :=
  LoadReport.ofFolder d' (loaderPath d' c).1 c.folders.ruleClasses c.rulesNamespace true

/-- What the sources of an accepted batch extend is found when they are loaded; a base that is not
found is asked for by an archive. -/
theorem load_follows_links (h : AcceptsDotted c d d')
    (hplace : KeepsPlace c.folders.ruleClasses d d')
    (hruntime : ∀ pack, Pack.read d' c.runtimePack = .ok pack →
      Pack.read d c.runtimePack = .ok pack) {path : Path} {identifier base : String}
    (hfailed : (path, LoadError.unresolvedBase identifier base) ∈ (loadReport c d').failed) :
    IsForeignLink c d d' identifier base := by
  obtain ⟨o, hpass, hclean⟩ := h.accepted
  obtain ⟨xs, hxs⟩ := exists_declared h.regular hpass hclean
  rcases rulesPass_accepted h.regular hpass hclean hxs with
    ⟨-, hnone⟩ | ⟨k, d₁, batch, hremove, hcompiles, hbatch⟩
  · simp [loadReport, LoadReport.failed_ofFolder, hnone] at hfailed
  · have hoffers := hcompiles.offers h.regular hremove hplace h.root
    have hpacked := isPacked_rulesPath (c := c) hoffers.regular.sound
    have hnames : ∀ a ∈ linkedUnits c d₁ batch, ∀ base ∈ a.extends?, Naming.NamesFile base := by
      intro a ha base hbase
      obtain ⟨s, hs, x, hx, hextends⟩ := exists_source_of_mem hbatch ha
      rw [hextends] at hbase
      obtain ⟨y, hy, rfl⟩ := Option.map_eq_some_iff.mp hbase
      exact (h.sources s hs x hx y hy).namesFile
    rw [loadReport, fst_loaderPath hoffers.regular.sound] at hfailed
    obtain ⟨harchive, hnone⟩ := hoffers.of_mem_failed h.root hpacked hnames
      (hcompiles.follows_links h.regular hremove hruntime)
      (fun p hp x hx base hbase => (h.archives p hp x hx base hbase).namesFile) hfailed
    refine ⟨harchive, fun s hs x hx y hy hbase => ?_⟩
    obtain ⟨a, ha, hextends⟩ := exists_unit_of_declares hbatch hs hx
    exact hnone a ha (by rw [hextends, Option.mem_def.mp hy, Option.map_some, hbase])

/-! ### Links that are lost -/

section Lone

variable {w : Workspace} {base : String}

/-- The one source of a workspace declares the unit `p.A` and what it extends. -/
structure DeclaresHeir (d : Disk) (s : Source) (x : Declaration) (base : String) : Prop where
  declares : Source.Declares d s x
  identifier : x.identifier s.path.stem = "p.A"
  base : x.base?.map Toml.Marked.text = some base

theorem exists_heir (h : w.IsLone (some base)) :
    ∃ s ∈ ruleSources w.disk w.config, ∃ x, DeclaresHeir w.disk s x base := by
  obtain ⟨x, hxs, -, hx⟩ := h.exists_declared
  obtain ⟨s, hs, hdeclares⟩ :=
    Builtin.exists_of_forall₂_right hxs x (List.mem_singleton_self x)
  refine ⟨s, hs, x, hdeclares, ?_, hx.base⟩
  have hpath : s.path = ⟨"src/A.rule"⟩ := by
    have hmem := List.mem_map_of_mem (f := Source.path) hs
    rw [h.sources] at hmem
    exact List.mem_singleton.mp hmem
  obtain ⟨package, hpackage, htext⟩ := Option.map_eq_some_iff.mp hx.package
  rw [Declaration.identifier, hpackage, Option.elim_some, htext, hpath]
  decide

/-- The pass over a workspace with one source accepts it, and what is extended has dotted names. -/
theorem acceptsDotted_of_isLone (h : w.IsLone (some base)) (hregular : w.disk.Regular)
    (hbase : Naming.IsDotted base) (hroot : w.config.folders.ruleClasses.text ≠ "")
    (haccepted : (rulesPass w.config w.disk).1.toOption.map Outcome.diagnostics = some [])
    (harchives : ∀ p ∈ archives (rulesPath (rulesPass w.config w.disk).2 w.config).1,
      ∀ x ∈ p.units, ∀ base ∈ x.2.extends?, Naming.IsDotted base) :
    AcceptsDotted w.config w.disk (rulesPass w.config w.disk).2 := by
  refine ⟨hregular, ?_, hroot, fun s hs x hx y hy => ?_, harchives⟩
  · cases ho : (rulesPass w.config w.disk).1 with
    | error err => simp [ho, Except.toOption] at haccepted
    | ok o =>
      rw [ho] at haccepted
      exact ⟨o, Prod.ext ho rfl, Option.some.inj haccepted⟩
  · obtain ⟨x', hxs, -, hx'⟩ := h.exists_declared
    obtain ⟨x'', hmem, hdeclares⟩ := Builtin.exists_of_forall₂_left hxs s hs
    obtain rfl := List.mem_singleton.mp hmem
    obtain rfl := hdeclares.unique hx
    have htext := hx'.base
    rw [Option.mem_def.mp hy, Option.map_some, Option.some.injEq] at htext
    rwa [htext]

/-- The unit of the one source is read where the pass has stored it. -/
theorem read_of_isLone (h : w.IsLone (some base)) (haccepts : AcceptsDotted w.config w.disk d') :
    ∃ a, Workspace.IsBareUnit (some base) a ∧
      Artifact.read d' (Naming.artifactPath w.config.folders.ruleClasses "p.A") = .ok a := by
  obtain ⟨x, hxs, hdeclared, hx⟩ := h.exists_declared
  obtain ⟨o, hpass, hclean⟩ := haccepts.accepted
  rcases rulesPass_accepted haccepts.regular hpass hclean hxs with
    ⟨hempty, -⟩ | ⟨k, d₁, batch, hremove, hcompiles, hbatch⟩
  · have hsources := h.sources
    rw [hempty] at hsources
    cases hsources
  · obtain ⟨h₁, -, -⟩ := removeUnits_spec haccepts.regular hremove
    obtain ⟨places, made, hstored⟩ := hcompiles.storedBatch h₁
    have hmeans := means_linkedUnits (c := w.config) h₁ hxs hbatch
    rw [show declarations (ruleSources w.disk w.config) [x] = [("A", x)] from hdeclared] at hmeans
    obtain ⟨a, rest, ha, hrest, hunits⟩ := List.forall₂_cons_left_iff.mp hmeans
    obtain rfl := List.forall₂_nil_left_iff.mp hrest
    have hunit := hx.unit ha
    have hmem : a ∈ linkedUnits w.config d₁ batch := hunits ▸ List.mem_singleton_self a
    obtain ⟨P, hP, hat⟩ := Builtin.exists_of_forall₂_left hstored.stored.place a hmem
    obtain ⟨b, hb, -, hread⟩ := hstored.stored.read hat hP
    rw [hunits] at hb
    obtain rfl := List.mem_singleton.mp hb
    have hcomes : b.ComesBack := fun m hm => by
      rw [hunit.methods] at hm
      cases hm
    rw [hunit.identifier, Artifact.reread_of_comesBack hcomes] at hread
    exact ⟨b, hunit, hread⟩

/-- A path from which `p.A` is read off leads to a failure if the chain of its unit fails. -/
theorem mem_failed_of_isLone (h : w.IsLone (some base))
    (haccepts : AcceptsDotted w.config w.disk d') {path : Path} {e : LoadError}
    (hpath : path ∈ d'.collect w.config.folders.ruleClasses Naming.artifactExtension)
    (hderive : Naming.derive path w.config.rulesNamespace = .ok "p.A")
    (hchain : ∀ a, Workspace.IsBareUnit (some base) a → ∀ n,
      Instance.chain ((loaderPath d' w.config).1.resolve d') (n + 2) [] a = .error e) :
    (path, e) ∈ (loadReport w.config d').failed := by
  obtain ⟨a, ha, hread⟩ := read_of_isLone h haccepts
  obtain ⟨o, hpass, -⟩ := haccepts.accepted
  have h' := regular_of_rulesPass haccepts.regular hpass
  refine LoadReport.mem_failed_of_chain hpath ?_ ha.isAbstract ha.constructible
    (hchain a ha _)
  simp only [LoadReport.resolveAt, hderive, fst_loaderPath h'.sound, ClassPath.resolve,
    ClassPath.find?, ClassPath.Entry.find?, Artifact.isFile_of_read h'.sound hread, if_true, hread]

end Lone

/-- An archive with one unit. -/
def packOf (identifier extended : String) : Entry :=
  .file (Text.encode ("[\"\",\x7b\"" ++ identifier ++ "\":[\"" ++ identifier ++
    "\",\"rule\",false,true," ++ extended ++ "]\x7d]")) false

/-- A source that extends a unit of an archive, which extends what nobody has. -/
def foreign : Workspace :=
  .lone ⟨"out"⟩ "package=\"p\"\nextends=\"l.B\"" [(["ext", "l.pack"], packOf "l.B" "\"l.C\"")]

theorem load_follows_links_foreign : IsForeignLink foreign.config foreign.disk
    (rulesPass foreign.config foreign.disk).2 "l.B" "l.C" := by
  have hlone : foreign.IsLone (some "l.B") :=
    ⟨by decide +kernel, by decide +kernel, by decide +kernel⟩
  have hregular : foreign.disk.Regular :=
    ⟨.of_entries (by decide +kernel) (by decide +kernel), fun _ _ _ => rfl⟩
  have haccepts := acceptsDotted_of_isLone hlone hregular (by decide) (by decide)
    (by decide +kernel) (by decide +kernel)
  have hfailed : ((⟨"out/p/A.unit"⟩ : Path), LoadError.unresolvedBase "l.B" "l.C") ∈
      (loadReport foreign.config (rulesPass foreign.config foreign.disk).2).failed := by
    refine mem_failed_of_isLone hlone haccepts (by decide +kernel) (by decide +kernel) ?_
    have hnext : ((loaderPath (rulesPass foreign.config foreign.disk).2 foreign.config).1.resolve
        (rulesPass foreign.config foreign.disk).2 "l.B").toOption.map (fun b =>
          (b.identifier, b.extends?)) = some ("l.B", some "l.C") := by
      decide +kernel
    have hlast : (loaderPath (rulesPass foreign.config foreign.disk).2 foreign.config).1.resolve
        (rulesPass foreign.config foreign.disk).2 "l.C" = .error (.notFound "l.C") := by
      decide +kernel
    generalize (loaderPath (rulesPass foreign.config foreign.disk).2 foreign.config).1.resolve
      (rulesPass foreign.config foreign.disk).2 = resolve at hnext hlast ⊢
    intro a ha n
    cases hb : resolve "l.B" with
    | error err => simp [hb, Except.toOption] at hnext
    | ok b =>
      rw [hb] at hnext
      obtain ⟨hidentifier, hextends⟩ := Prod.mk.inj (Option.some.inj hnext)
      refine Instance.chain_of_resolve rfl ha.base hb ?_
      have hnew : [a.identifier].contains b.identifier = false := by
        rw [ha.identifier, show b.identifier = "l.B" from hidentifier]
        decide
      rw [Instance.chain_of_not_found hnew hextends hlast]
      exact congrArg (fun s => Except.error (LoadError.unresolvedBase s "l.C")) hidentifier
  have hout : (rulesPass foreign.config foreign.disk).2.place? ⟨"out"⟩ = .ok ["out"] ∧
      foreign.disk.place? ⟨"out"⟩ = .ok ["out"] := by
    decide +kernel
  have hnone : (Pack.read (rulesPass foreign.config foreign.disk).2
      foreign.config.runtimePack).isOk = false := by
    decide +kernel
  refine load_follows_links haccepts ?_ ?_ hfailed
  · intro F names hF _ _
    obtain rfl := Except.ok.inj (hout.1.symm.trans hF)
    exact hout.2
  · intro pack hread
    rw [hread] at hnone
    cases hnone

/-- An archive holds the base, and the folder of units, which is reached only after the pass, holds a
file that hides it and is no unit. -/
def hidden : Workspace :=
  .lone ⟨"new/../out"⟩ "package=\"p\"\nextends=\"p.B\"" [(["ext", "l.pack"], packOf "p.B" "null"),
    (["out"], .folder), (["out", "p"], .folder), (["out", "p", "B.unit"], .file (Text.encode "") false)]

/-- The source extends the built-in unit, and a pack of built-in units without it is reached only
after the pass. -/
def replaced : Workspace :=
  let w := Workspace.lone ⟨"new"⟩ ("package=\"p\"\nextends=\"" ++ Pack.runtimeBase ++ "\"")
    [(["jar"], .folder), (["jar", "runtime.pack"], packOf "l.B" "null")]
  { w with config.folders.jar := ⟨"new/../jar"⟩ }

/-- The base of the unit of an accepted source is not found when the unit is loaded. -/
def LosesLink (w : Workspace) : Prop :=
  AcceptsDotted w.config w.disk (rulesPass w.config w.disk).2 ∧
  ∃ s ∈ ruleSources w.disk w.config, ∃ x base path, DeclaresHeir w.disk s x base ∧
    (path, .unresolvedBase "p.A" base) ∈
      (loadReport w.config (rulesPass w.config w.disk).2).failed

theorem losesLink_of_isLone {w : Workspace} {base : String} (h : w.IsLone (some base))
    (haccepts : AcceptsDotted w.config w.disk (rulesPass w.config w.disk).2) {p : Path}
    (hpath : p ∈ (rulesPass w.config w.disk).2.collect w.config.folders.ruleClasses
      Naming.artifactExtension)
    (hderive : Naming.derive p w.config.rulesNamespace = .ok "p.A")
    (hnone : ((loaderPath (rulesPass w.config w.disk).2 w.config).1.resolve
      (rulesPass w.config w.disk).2 base).isOk = false) : LosesLink w := by
  obtain ⟨s, hs, x, hx⟩ := exists_heir h
  refine ⟨haccepts, s, hs, x, base, p, hx,
    mem_failed_of_isLone h haccepts hpath hderive fun a ha n => ?_⟩
  cases hresolve : (loaderPath (rulesPass w.config w.disk).2 w.config).1.resolve
      (rulesPass w.config w.disk).2 base with
  | error err => rw [Instance.chain_of_not_found rfl ha.base hresolve, ha.identifier]
  | ok b =>
    rw [hresolve] at hnone
    cases hnone

theorem losesLink_hidden : LosesLink hidden := by
  have hlone : hidden.IsLone (some "p.B") :=
    ⟨by decide +kernel, by decide +kernel, by decide +kernel⟩
  have hregular : hidden.disk.Regular :=
    ⟨.of_entries (by decide +kernel) (by decide +kernel), fun _ _ _ => rfl⟩
  have haccepts := acceptsDotted_of_isLone hlone hregular (by decide) (by decide)
    (by decide +kernel) (by decide +kernel)
  exact losesLink_of_isLone (p := ⟨"new/../out/p/A.unit"⟩) hlone haccepts
    (by decide +kernel) (by decide +kernel) (by decide +kernel)

theorem losesLink_replaced : LosesLink replaced := by
  have hlone : replaced.IsLone (some Pack.runtimeBase) :=
    ⟨by decide +kernel, by decide +kernel, by decide +kernel⟩
  have hregular : replaced.disk.Regular :=
    ⟨.of_entries (by decide +kernel) (by decide +kernel), fun _ _ _ => rfl⟩
  have haccepts := acceptsDotted_of_isLone hlone hregular (by decide) (by decide)
    (by decide +kernel) (by decide +kernel)
  exact losesLink_of_isLone (p := ⟨"new/p/A.unit"⟩) hlone haccepts
    (by decide +kernel) (by decide +kernel) (by decide +kernel)

/-- Links are lost when the folder of units or a pack of built-in units comes within reach only by
the pass. -/
theorem load_loses_links : LosesLink hidden ∧ LosesLink replaced :=
  ⟨losesLink_hidden, losesLink_replaced⟩

end Pass

end LiveRules
