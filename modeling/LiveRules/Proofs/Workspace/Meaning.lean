import LiveRules.Proofs.Compile.Meaning
import LiveRules.Proofs.Workspace.Reload

/-!
A reload keeps the meaning of rules. Between the texts of the sources and the contexts that fire
lie checking, linking, storing, finding and instantiating; what comes out is one context for each
rule of each active unit, own or inherited, that says what the rule says.
-/

namespace LiveRules

open Disk

namespace Pass

variable {d d₁ : Disk} {c : Config} {k : Nat}

theorem Beside.symm {e : Disk} (h : Beside d e) (hsame : SameFolders d e) : Beside e d := by
  refine ⟨h.current.symm, fun Q => ?_⟩
  rcases h.entry? Q with hq | ⟨hnone, hq⟩ | ⟨hname, hd, he⟩
  · exact .inl hq.symm
  · have hfolder := (hsame.folder Q).mp hq
    rw [hnone] at hfolder
    cases hfolder
  · exact .inr (.inr ⟨hname, he, hd⟩)

theorem beside_before_removeUnits {root : Path} (h : d.Regular)
    (hr : removeUnits d root = (.ok k, d₁)) : Beside d₁ d :=
  Beside.symm (beside_of_removeUnits h hr) (removeUnits_spec h hr).2.1

/-- Removing units changes nothing about what rules are compiled against. -/
theorem rulesPath_of_removeUnits {root : Path} (h : d.Regular)
    (hr : removeUnits d root = (.ok k, d₁)) : (rulesPath d₁ c).1 = (rulesPath d c).1 := by
  have h₁ := (removeUnits_spec h hr).1
  have hbeside := beside_of_removeUnits h hr
  obtain ⟨more, hmore⟩ := rulesPath_beside h h₁ hbeside
    (fun pack => isPackName_items.readPack_of_removeUnits h hr)
    (fun pack => isPackName_runtime.readPack_of_removeUnits h hr)
  obtain ⟨more', hmore'⟩ := rulesPath_beside h₁ h (beside_before_removeUnits h hr)
    (fun pack => isPackName_items.readPack h h₁ hbeside)
    (fun pack => isPackName_runtime.readPack h h₁ hbeside)
  have hnil : more' ++ more = [] := by
    have hlength := congrArg List.length hmore
    rw [hmore', List.length_append, List.length_append] at hlength
    rw [← List.length_eq_zero_iff, List.length_append]
    omega
  rw [hmore, (List.append_eq_nil_iff.mp hnil).2, List.append_nil]

/-- The stem of a source is not empty. -/
theorem stem_ne_empty {s : Source} (h : d.Regular) (hs : s ∈ ruleSources d c) :
    s.path.stem ≠ "" := by
  obtain ⟨q, hq, rfl⟩ := List.mem_map.mp hs
  obtain ⟨F, names, -, -, hne, hfile, -, hext, rfl⟩ := (mem_collect h).mp hq
  have hnames := isNames_of_hasFile h hfile
  obtain ⟨front, last, rfl⟩ := (List.eq_nil_or_concat' names).resolve_left hne
  rw [endsWith, List.getLast?_concat, Option.bind_some, beq_iff_eq] at hext
  show ((below c.folders.rules (front ++ [last])).stem?.getD "") ≠ ""
  rw [below_append]
  show (((below c.folders.rules front).join ⟨last⟩).stem?.getD "") ≠ ""
  rw [Naming.stem?_join (hnames last (by simp)), Option.getD_some]
  exact Path.stem_ne_of_cutName hext

theorem readable_of_declares {sources : List Source} {xs : List Declaration}
    (hxs : List.Forall₂ (Source.Declares d) sources xs) :
    ∀ s ∈ sources, ∃ text, d.readText s.path = .ok text := by
  intro s hs
  obtain ⟨x, -, text, htext, -⟩ := Builtin.exists_of_forall₂_left hxs s hs
  exact ⟨text, htext⟩

/-- A pass that accepts its sources finds none of them, or stores the whole batch of them. -/
theorem rulesPass_accepted {d' : Disk} {o : Outcome} {xs : List Declaration} (h : d.Regular)
    (hpass : rulesPass c d = (.ok o, d')) (hclean : o.diagnostics = [])
    (hxs : List.Forall₂ (Source.Declares d) (ruleSources d c) xs) :
    (ruleSources d c = [] ∧ d'.collect c.folders.ruleClasses Naming.artifactExtension = []) ∨
      ∃ k d₁ batch, removeUnits d c.folders.ruleClasses = (.ok k, d₁) ∧ Compiles c d₁ d' batch ∧
        Builtin.checkAll d (ruleSources d c) = (batch, []) := by
  obtain ⟨k, d₁, hremove, hfresh⟩ := rulesPass_cases hpass
  obtain ⟨h₁, -, -⟩ := removeUnits_spec h hremove
  rcases compileAfresh_cases hfresh with ⟨rfl, hnone⟩ | ⟨-, batch, hcompiles⟩
  · refine .inl ⟨?_, collect_after_removeUnits h hremove⟩
    by_contra hne
    have hsame := (ruleSources_eq h h₁ (beside_of_removeUnits h hremove) hne
      (readable_of_declares hxs)).1
    rcases hnone with ⟨hnil, -⟩ | hbad
    · exact hne (hsame ▸ hnil)
    · exact hbad hclean
  · have hsources := ruleSources_eq h₁ h (beside_before_removeUnits h hremove) hcompiles.nonempty
      (Builtin.readable_of_checkAll hcompiles.checked)
    refine .inr ⟨k, d₁, batch, hremove, hcompiles, ?_⟩
    rw [hsources.1, Builtin.checkAll_eq_of_readText hsources.2, hcompiles.checked]

end Pass

/-- Declarations and a folder of units under which the names of files say what is declared. -/
structure Fits (c : Config) (declared : List (String × Declaration)) : Prop where
  root : c.folders.ruleClasses.text ≠ ""
  stems : ∀ y ∈ declared, '.' ∉ y.1.toList
  packages : ∀ y ∈ declared, ∀ package ∈ y.2.package?,
    Naming.IsWithin c.rulesNamespace package.text ∧
      Naming.Begins c.rulesNamespace package.text
        (Naming.folder c.folders.ruleClasses package.text)
  thresholds : ∀ y ∈ declared, ∀ r ∈ y.2.rules, r.bounds.ComeBack

/-- Contexts are what declarations mean: each declaration means a unit, and the contexts are those
of the units in the order of their paths, one for each rule of an active unit. Items are found in
the archives that rules are linked with, bases in those that they are loaded with. -/
def AreMeant (c : Config) (declared : List (String × Declaration)) (linked loaded : List Pack)
    (contexts : List Context) : Prop :=
  ∃ (units ordered : List Artifact) (given : Artifact → List Context),
    List.Forall₂ (fun y a => Means (declaring declared linked) y.1 y.2 a) declared units ∧
    ordered.Perm units ∧
    (ordered.Pairwise fun a b => (Naming.artifactPath c.folders.ruleClasses a.identifier).le
      (Naming.artifactPath c.folders.ruleClasses b.identifier) = true) ∧
    (∀ a ∈ units, Gives (meant units loaded) a (given a)) ∧
    contexts = ordered.flatMap given

namespace Workspace

variable {w : Workspace} {xs : List Declaration}

/-- The declarations of the rules of a workspace, with the stems of their files. -/
def declared (w : Workspace) (xs : List Declaration) : List (String × Declaration) :=
  declarations (Pass.ruleSources w.disk w.config) xs

/-- A declared unit has a package, and its file has a stem that can be the name of a unit. -/
structure IsNamed (y : String × Declaration) : Prop where
  proper : y.2.IsProper y.1
  ne_empty : y.1 ≠ ""
  no_slash : '/' ∉ y.1.toList

theorem isNamed_of_declared (h : w.disk.Regular)
    (hxs : List.Forall₂ (Source.Declares w.disk) (Pass.ruleSources w.disk w.config) xs) :
    ∀ y ∈ w.declared xs, IsNamed y := by
  intro y hy
  obtain ⟨⟨s, x⟩, hmem, rfl⟩ := List.mem_map.mp hy
  obtain ⟨text, -, -, hproper⟩ := (List.forall₂_iff_zip.mp hxs).2 hmem
  exact ⟨hproper, Pass.stem_ne_empty h (List.of_mem_zip hmem).1, s.path.no_slash_stem⟩

section Unit

variable {c : Config} {declared : List (String × Declaration)} {y : String × Declaration}
variable {itemClass? : String → Option String} {a : Artifact}

theorem IsNamed.isDotted (h : IsNamed y) (hfits : Fits c declared) (hy : y ∈ declared)
    (ha : Means itemClass? y.1 y.2 a) : Naming.IsDotted a.identifier := by
  obtain ⟨package, hpackage, hnamespace⟩ := h.proper.package
  rw [ha.identifier, Declaration.identifier, hpackage]
  exact Naming.isDotted_append hnamespace h.no_slash (hfits.stems y hy) h.ne_empty

theorem IsNamed.derive (h : IsNamed y) (hfits : Fits c declared) (hy : y ∈ declared)
    (ha : Means itemClass? y.1 y.2 a) :
    Naming.derive (Naming.artifactPath c.folders.ruleClasses a.identifier) c.rulesNamespace =
      .ok a.identifier := by
  obtain ⟨package, hpackage, hnamespace⟩ := h.proper.package
  obtain ⟨hwithin, hbegins⟩ := hfits.packages y hy package hpackage
  rw [ha.identifier, Declaration.identifier, hpackage]
  exact (Naming.isDotted_append hnamespace h.no_slash (hfits.stems y hy)
    h.ne_empty).derive_artifactPath (hfits.stems y hy) hwithin.isPrefix hbegins

theorem comesBack_of_means (hfits : Fits c declared) (hy : y ∈ declared)
    (ha : Means itemClass? y.1 y.2 a) : a.ComesBack := by
  intro m hm
  obtain ⟨r, hr, hcarries⟩ := Builtin.exists_of_forall₂_right ha.rules m hm
  rw [hcarries.bounds]
  exact hfits.thresholds y hy r hr

end Unit

/-- Without sources there are no contexts. -/
theorem areMeant_nil (hempty : Pass.ruleSources w.disk w.config = []) {linked loaded : List Pack} :
    AreMeant w.config (w.declared xs) linked loaded [] :=
  ⟨[], [], fun _ => [], by simp [declared, declarations, hempty], .nil, .nil, by simp, rfl⟩

/-- When a workspace reloads rules that compile, the contexts are what the sources mean. -/
theorem reload_means (hw : w.CanReload) (haccepted : w.reload.rulesOk = true)
    (hxs : List.Forall₂ (Source.Declares w.disk) (Pass.ruleSources w.disk w.config) xs)
    (hfits : Fits w.config (w.declared xs))
    (hlinked : ∀ p ∈ archives (Pass.rulesPath w.disk w.config).1, p.IsProper)
    (hloaded : ∀ p ∈ archives (Pass.rulesPath w.reload.disk w.config).1, p.IsProper)
    (hplace : Pass.KeepsPlace w.config.folders.ruleClasses w.disk w.reload.disk) :
    AreMeant w.config (w.declared xs) (archives (Pass.rulesPath w.disk w.config).1)
      (archives (Pass.rulesPath w.reload.disk w.config).1) w.reload.engine.current.contexts := by
  have hreload := reloads hw.tool hw.phase
  obtain ⟨o, ho⟩ := hw.pass
  have hclean : o.diagnostics = [] := by
    have hok := hreload.rulesOk o (congrArg Prod.fst ho)
    rw [haccepted, Outcome.succeeded] at hok
    simpa using hok.symm
  rw [hreload.contexts]
  generalize w.reload.disk = d' at ho hloaded hplace ⊢
  rcases Pass.rulesPass_accepted hw.regular ho hclean hxs with
    ⟨hempty, hnone⟩ | ⟨k, d₁, batch, hremove, hcompiles, hbatch⟩
  · rw [contextsAt_of_collect hnone]
    exact areMeant_nil hempty
  · obtain ⟨h₁, -, -⟩ := Pass.removeUnits_spec hw.regular hremove
    -- the batch was linked with the archives that are there before the pass
    rw [← Pass.rulesPath_of_removeUnits hw.regular hremove] at hlinked ⊢
    have hmeans := Pass.means_linkedUnits (c := w.config) h₁ hxs hbatch
    have hnamed := isNamed_of_declared hw.regular hxs
    have hof := Builtin.exists_of_forall₂_right hmeans
    have hdotted : ∀ a ∈ Pass.linkedUnits w.config d₁ batch, Naming.IsDotted a.identifier := by
      intro a ha
      obtain ⟨y, hy, hya⟩ := hof a ha
      exact (hnamed y hy).isDotted hfits hy hya
    have hcomes : ∀ a ∈ Pass.linkedUnits w.config d₁ batch, a.ComesBack := by
      intro a ha
      obtain ⟨y, hy, hya⟩ := hof a ha
      exact comesBack_of_means hfits hy hya
    have hderive : ∀ a ∈ Pass.linkedUnits w.config d₁ batch, Naming.derive
        (Naming.artifactPath w.config.folders.ruleClasses a.identifier) w.config.rulesNamespace =
          .ok a.identifier := by
      intro a ha
      obtain ⟨y, hy, hya⟩ := hof a ha
      exact (hnamed y hy).derive hfits hy hya
    have hextends := hcompiles.isDotted_extends h₁ hdotted hlinked
    obtain ⟨F, hholds⟩ := hcompiles.holds hw.regular hremove hplace hfits.root hdotted hcomes
    obtain ⟨ordered, given, hperm, hsorted, hgives, hcontexts⟩ := hholds.contexts hfits.root
      (Pass.isPacked_rulesPath hholds.regular.sound) hextends hloaded hderive
    refine ⟨_, ordered, given, hmeans, hperm, hsorted, hgives, ?_⟩
    rw [contextsAt, Pass.fst_loaderPath hholds.regular.sound, hcontexts]

/-! ### Workspaces with one source -/

/-- A declaration without rules, in the package `p`. -/
structure IsBare (base : Option String) (x : Declaration) : Prop where
  package : x.package?.map Toml.Marked.text = some "p"
  base : x.base?.map Toml.Marked.text = base
  isAbstract : x.isAbstract = false
  constructible : x.constructible = true
  rules : x.rules = []

/-- What such a declaration in a file `A.rule` means. -/
structure IsBareUnit (base : Option String) (a : Artifact) : Prop where
  identifier : a.identifier = "p.A"
  base : a.extends? = base
  isAbstract : a.isAbstract = false
  constructible : a.constructible = true
  methods : a.methods = []

/-- A workspace whose one source holds such a declaration. -/
structure IsLone (w : Workspace) (base : Option String) : Prop where
  sources : (Pass.ruleSources w.disk w.config).map (·.path) = [⟨"src/A.rule"⟩]
  clean : (Builtin.checkAll w.disk (Pass.ruleSources w.disk w.config)).2 = []
  content : ((w.disk.readText ⟨"src/A.rule"⟩).toOption.bind fun text =>
    (Declaration.ofText text.toList).toOption).map (fun x => (x.package?.map Toml.Marked.text,
      x.base?.map Toml.Marked.text, x.isAbstract, x.constructible, x.rules.length)) =
    some (some "p", base, false, true, 0)

section Lone

variable {base : Option String} {linked loaded : List Pack} {contexts : List Context}

theorem IsLone.exists_declared (h : IsLone w base) : ∃ x,
    List.Forall₂ (Source.Declares w.disk) (Pass.ruleSources w.disk w.config) [x] ∧
      w.declared [x] = [("A", x)] ∧ IsBare base x := by
  obtain ⟨xs, hxs⟩ := Builtin.checkAll_snd_eq_nil_iff.mp h.clean
  have hsources := h.sources
  have hcontent := h.content
  generalize hs : Pass.ruleSources w.disk w.config = sources at hxs hsources
  obtain ⟨s, rfl, hpath⟩ := List.map_eq_singleton_iff.mp hsources
  obtain ⟨x, rfl⟩ : ∃ x, xs = [x] := List.length_eq_one_iff.mp hxs.length_eq.symm
  obtain ⟨text, htext, hspelled, -⟩ := (List.forall₂_cons.mp hxs).1
  rw [hpath] at htext
  rw [htext] at hcontent
  simp only [Except.toOption, Option.bind_some, Declaration.ofText_eq_ok_iff.mpr hspelled,
    Option.map_some, Option.some.injEq, Prod.mk.injEq, List.length_eq_zero_iff] at hcontent
  obtain ⟨hpackage, hbase, habstract, hconstructible, hrules⟩ := hcontent
  refine ⟨x, hxs, ?_, hpackage, hbase, habstract, hconstructible, hrules⟩
  simp only [declared, declarations, hs, List.zip_cons_cons, List.zip_nil_right, List.map_cons, List.map_nil, hpath]
  rfl

theorem IsBare.fits {c : Config} {x : Declaration} (h : IsBare base x)
    (hnamespace : c.rulesNamespace = "p") (hroot : c.folders.ruleClasses.text ≠ "")
    (hbegins : Naming.Begins "p" "p" (Naming.folder c.folders.ruleClasses "p")) :
    Fits c [("A", x)] := by
  refine ⟨hroot, ?_, ?_, ?_⟩ <;> intro y hy <;> obtain rfl := List.mem_singleton.mp hy
  · show '.' ∉ "A".toList
    decide
  · intro package hp
    have hpackage := h.package
    rw [hp, Option.map_some, Option.some.injEq] at hpackage
    rw [hpackage, hnamespace]
    exact ⟨.inl rfl, hbegins⟩
  · simp [h.rules]

theorem IsBare.unit {itemClass? : String → Option String} {x : Declaration} {a : Artifact}
    (hx : IsBare base x) (ha : Means itemClass? "A" x a) : IsBareUnit base a := by
  obtain ⟨package, hp, htext⟩ := Option.map_eq_some_iff.mp hx.package
  refine ⟨?_, ha.base.trans hx.base, ha.isAbstract.trans hx.isAbstract,
    ha.constructible.trans hx.constructible, ?_⟩
  · rw [ha.identifier, Declaration.identifier, hp, Option.elim_some, htext]
    rfl
  · have hmethods := ha.rules
    rw [hx.rules] at hmethods
    exact List.forall₂_nil_left_iff.mp hmethods

/-- The contexts that are meant are those of the one unit. -/
theorem IsBare.gives {c : Config} {x : Declaration} (hx : IsBare base x)
    (h : AreMeant c [("A", x)] linked loaded contexts) :
    ∃ a, IsBareUnit base a ∧ Gives (meant [a] loaded) a contexts := by
  obtain ⟨units, ordered, given, hmeans, hperm, -, hgives, rfl⟩ := h
  obtain ⟨a, rest, ha, hrest, rfl⟩ := List.forall₂_cons_left_iff.mp hmeans
  obtain rfl := List.forall₂_nil_left_iff.mp hrest
  obtain rfl := List.perm_singleton.mp hperm
  refine ⟨a, hx.unit ha, ?_⟩
  rw [List.flatMap_singleton]
  exact hgives a List.mem_cons_self

/-- Without a base and without rules there is no context. -/
theorem IsBareUnit.no_contexts {find : String → Option Artifact} {a : Artifact}
    (ha : IsBareUnit none a) (h : Gives find a contexts) : contexts = [] := by
  cases h with
  | active _ _ hchain =>
    rw [(Chain.last ha.base).unique hchain]
    simp [ha.methods, nearest]
  | passive => rfl

/-- All rules of a base that has no base itself are inherited. -/
theorem IsBareUnit.inherits {name : String} {a b : Artifact} (ha : IsBareUnit (some name) a)
    (hname : name ≠ "p.A") (hb : loaded.findSome? (fun p => p.get? name) = some b)
    (hbase : b.extends? = none) (h : Gives (meant [a] loaded) a contexts) :
    contexts = (nearest b.methods).map (Context.ofMethod "p.A") := by
  have hfind : meant [a] loaded name = some b := by
    rw [meant, List.find?_singleton, ha.identifier, if_neg (by simpa using hname.symm),
      Option.none_or, hb]
  have hchain := Chain.step ha.base hfind (.last hbase)
  cases h with
  | active _ _ hchain' =>
    rw [hchain.unique hchain', ha.identifier]
    simp [ha.methods]
  | passive hno =>
    rcases hno with hno | hno | hno
    · rw [ha.isAbstract] at hno
      cases hno
    · rw [ha.constructible] at hno
      cases hno
    · exact absurd hchain (hno _)

end Lone

/-- A workspace with one source and with further entries. -/
def lone (ruleClasses : Path) (text : String) (more : List (Place × Entry)) : Workspace :=
  .new
    { folders :=
        { items := ⟨"items"⟩, rules := ⟨"src"⟩, ruleClasses, extlib := ⟨"ext"⟩, jar := ⟨"jar"⟩ }
      rulesNamespace := "p"
      itemsNamespace := "q" }
    .builtin false {}
    { entries := [(["src"], .folder), (["src", "A.rule"], .file (Text.encode text) false),
        (["ext"], .folder)] ++ more }

/-- The source extends a unit of an archive, which has one rule and lies under a key of its own. -/
def heir (key identifier : String) : Workspace :=
  let method := "[\"m\",\"i\",null,\"changed\",null,null,null,null,null,null,null,false,[]]"
  let unit := "[\"" ++ identifier ++ "\",\"rule\",false,true,null,[" ++ method ++ "]]"
  lone ⟨"out"⟩ ("package=\"p\"\nextends=\"" ++ key ++ "\"") [(["ext", "l.pack"],
    .file (Text.encode ("[\"\",\x7b\"" ++ key ++ "\":" ++ unit ++ "\x7d]")) false)]

/-- The folder of units is reached only after the pass, and an older unit lies there. -/
def detour : Workspace :=
  lone ⟨"new/../out"⟩ "package=\"p\"" [(["out"], .folder), (["out", "p"], .folder),
    (["out", "p", "B.unit"], oldUnit)]

/-- Accepted rules whose contexts are not what their sources mean. -/
def IsMisread (w : Workspace) : Prop :=
  w.CanReload ∧ w.reload.rulesOk = true ∧ ∃ xs,
    List.Forall₂ (Source.Declares w.disk) (Pass.ruleSources w.disk w.config) xs ∧
    Fits w.config (w.declared xs) ∧
    ¬AreMeant w.config (w.declared xs) (archives (Pass.rulesPath w.disk w.config).1)
      (archives (Pass.rulesPath w.reload.disk w.config).1) w.reload.engine.current.contexts

theorem isMisread_detour : IsMisread detour := by
  have hreload : detour.CanReload :=
    canReload_new (by decide +kernel) (by decide +kernel) (fun _ _ _ => rfl)
      (exists_of_isOk (by decide +kernel))
  have hlone : IsLone detour none := ⟨by decide +kernel, by decide +kernel, by decide +kernel⟩
  obtain ⟨x, hxs, hdeclared, hx⟩ := hlone.exists_declared
  refine ⟨hreload, by decide +kernel, [x], hxs, ?_, ?_⟩
  · rw [hdeclared]
    exact hx.fits rfl (by decide) ⟨"new.out.".toList, by decide +kernel, by decide +kernel⟩
  · rw [hdeclared]
    intro h
    obtain ⟨a, ha, hgives⟩ := hx.gives h
    exact absurd (congrArg List.length (ha.no_contexts hgives)) (by decide +kernel)

theorem begins_out : Naming.Begins "p" "p" (Naming.folder ⟨"out"⟩ "p") :=
  ⟨"out.".toList, by decide +kernel, by decide +kernel⟩

/-- The loader takes the inherited unit for the source's own one. -/
theorem isMisread_heir {key identifier : String} (hreload : (heir key identifier).CanReload)
    (haccepted : (heir key identifier).reload.rulesOk = true)
    (hlone : IsLone (heir key identifier) (some key)) (hkey : key ≠ "p.A")
    (hfound : ((archives (Pass.rulesPath (heir key identifier).reload.disk
      (heir key identifier).config).1).findSome? fun p => p.get? key).map
        (fun b => (b.extends?, b.methods.length)) = some (none, 1))
    (hnone : (heir key identifier).reload.engine.current.contexts.length = 0) :
    IsMisread (heir key identifier) := by
  obtain ⟨x, hxs, hdeclared, hx⟩ := hlone.exists_declared
  refine ⟨hreload, haccepted, [x], hxs, ?_, ?_⟩
  · rw [hdeclared]
    exact hx.fits rfl (by show "out" ≠ ""; decide) begins_out
  · rw [hdeclared]
    intro h
    obtain ⟨a, ha, hgives⟩ := hx.gives h
    obtain ⟨b, hb, hsummary⟩ := Option.map_eq_some_iff.mp hfound
    rw [Prod.mk.injEq] at hsummary
    obtain ⟨m, hm⟩ := List.length_eq_one_iff.mp hsummary.2
    rw [ha.inherits hkey hb hsummary.1 hgives, hm] at hnone
    cases hnone

theorem canReload_heir {key identifier : String}
    (houtcome : (Pass.rulesPass (heir key identifier).config
      (heir key identifier).disk).1.isOk = true) : (heir key identifier).CanReload := by
  refine canReload_new ?_ ?_ (fun _ _ _ => rfl) (exists_of_isOk houtcome)
  · show ([["src"], ["src", "A.rule"], ["ext"], ["ext", "l.pack"]] : List Place).Nodup
    decide
  · intro entry hentry
    simp only [List.cons_append, List.nil_append, List.mem_cons, List.not_mem_nil, or_false] at hentry
    rcases hentry with rfl | rfl | rfl | rfl <;>
      exact ⟨by simp, rfl, by simp; decide⟩

theorem isMisread_foreign : IsMisread (heir "B" "p.A") :=
  isMisread_heir (canReload_heir (by decide +kernel)) (by decide +kernel)
    ⟨by decide +kernel, by decide +kernel, by decide +kernel⟩ (by decide) (by decide +kernel)
    (by decide +kernel)

theorem isMisread_path : IsMisread (heir "p..A" "p..A") :=
  isMisread_heir (canReload_heir (by decide +kernel)) (by decide +kernel)
    ⟨by decide +kernel, by decide +kernel, by decide +kernel⟩ (by decide) (by decide +kernel)
    (by decide +kernel)

/-- The contexts are not what the sources mean when the folder of units comes within reach only by
the pass and holds an older unit, when an archive holds a unit under a key that is not its
identifier, or when a key spells the path of another unit. -/
theorem reload_misreads : IsMisread detour ∧ IsMisread (heir "B" "p.A") ∧
    IsMisread (heir "p..A" "p..A") :=
  ⟨isMisread_detour, isMisread_foreign, isMisread_path⟩

/-- A source without rules has the one rule that it inherits from an archive. -/
theorem reload_means_inherited :
    (heir "l.B" "l.B").reload.engine.current.contexts.length = 1 := by
  have hreload : (heir "l.B" "l.B").CanReload := canReload_heir (by decide +kernel)
  have hlone : IsLone (heir "l.B" "l.B") (some "l.B") :=
    ⟨by decide +kernel, by decide +kernel, by decide +kernel⟩
  have hfound : ((archives (Pass.rulesPath (heir "l.B" "l.B").reload.disk
      (heir "l.B" "l.B").config).1).findSome? fun p => p.get? "l.B").map
        (fun b => (b.extends?, b.methods.length)) = some (none, 1) := by decide +kernel
  obtain ⟨x, hxs, hdeclared, hx⟩ := hlone.exists_declared
  have hmeant := reload_means hreload (by decide +kernel) hxs
    (by rw [hdeclared]; exact hx.fits rfl (by decide) begins_out)
    (by decide +kernel) (by decide +kernel)
    (by
      intro F names hF _ _
      have hout : (heir "l.B" "l.B").reload.disk.place? ⟨"out"⟩ = .ok ["out"] := by decide +kernel
      rw [show (heir "l.B" "l.B").config.folders.ruleClasses = ⟨"out"⟩ from rfl, hout] at hF
      cases hF
      decide +kernel)
  rw [hdeclared] at hmeant
  obtain ⟨a, ha, hgives⟩ := hx.gives hmeant
  obtain ⟨b, hb, hsummary⟩ := Option.map_eq_some_iff.mp hfound
  rw [Prod.mk.injEq] at hsummary
  obtain ⟨m, hm⟩ := List.length_eq_one_iff.mp hsummary.2
  rw [ha.inherits (by decide) hb hsummary.1 hgives, hm]
  rfl

end Workspace

end LiveRules
