import LiveRules.Proofs.Workspace.Items

/-!
Starting a workspace. The folders come first, then the items, and the rules last; what the rules
leave behind does not count among the items as long as no unit of theirs is stored below the
folder of the items.
-/

namespace LiveRules

open Disk

variable {c : Config} {I J K : Place} {N : String → Prop} {d e : Disk}
variable {kept : String → Option Item} {p : Path} {P : Place}

/-! ### Making folders -/

/-- No folder is lost from a disk, and new files lie only where some path leads. -/
structure Disk.KeepsUp (p : Path) (d e : Disk) : Prop where
  regular : e.Regular
  current : e.current = d.current
  folder : ∀ Q, d.entry? Q = some .folder → e.entry? Q = some .folder
  file : ∀ Q, e.HasFile Q → d.HasFile Q ∨ e.place? p = .ok Q

/-- A pack that is saved is the only new file. -/
theorem Pack.keepsUp_save {x : Pack} (hd : d.Regular) (h : x.save d p = (.ok (), e)) :
    KeepsUp p d e := by
  unfold save at h
  rcases hmake : d.makeFolders (p.parent?.getD ⟨""⟩) with ⟨err | ⟨⟩, d₁⟩
  · rw [hmake] at h
    cases h
  obtain ⟨h₁, hgrown, -⟩ := makeFolders_spec hd hmake
  rw [hmake] at h
  dsimp only at h
  rcases hwrite : d₁.write (temporary p) (Text.encode x.text) with ⟨err | ⟨⟩, d₂⟩
  · rw [hwrite] at h
    cases h
  rw [hwrite] at h
  dsimp only at h
  rcases hmove : d₂.move (temporary p) p with ⟨err | ⟨⟩, d₃⟩
  · rw [hmove] at h
    cases h
  rw [hmove] at h
  obtain rfl : d₃ = e := congrArg Prod.snd h
  obtain ⟨h₂, hwritten⟩ := write_spec h₁ hwrite
  obtain ⟨-, S, hS, hfree, hsets⟩ := hwritten.resolve_right fun hno => by
    obtain ⟨err, hno⟩ := hno.1
    cases hno
  obtain ⟨h₃, hmoved⟩ := move_spec h₂ hmove
  obtain ⟨-, S', T, hS', hT, hmoved⟩ := hmoved.resolve_right fun hno => by
    obtain ⟨err, hno⟩ := hno.1
    cases hno
  obtain rfl : S = S' := Except.ok.inj ((hsets.place? hfree hS).symm.trans hS')
  refine ⟨h₃, hmoved.current.trans (hsets.current.trans hgrown.current), fun Q hQ => ?_,
    fun Q hfile => ?_⟩
  · exact (hmoved.sameFolders.folder Q).mpr (hsets.folder hfree (hgrown.folder hQ))
  · obtain ⟨content, executable, hx⟩ := hfile
    by_cases hQ : Q = T
    · subst hQ
      exact .inr (hmoved.sameFolders.place?.mpr hT)
    · rw [hmoved.entry?, if_neg hQ] at hx
      split at hx
      · cases hx
      · rename_i hS
        rw [hsets.entry?, if_neg hS] at hx
        exact .inl ⟨content, executable, hgrown.file hx⟩

namespace Workspace

theorem makeAll_spec {paths : List Path} (hd : d.Regular) (h : makeAll d paths = (.ok (), e)) :
    e.Regular ∧ Grown d e ∧ ∀ p ∈ paths, p.text ≠ "" →
      ∃ P, e.place? p = .ok P ∧ e.entry? P = some .folder := by
  induction paths generalizing d with
  | nil =>
    cases h
    exact ⟨hd, .refl, by simp⟩
  | cons folder rest ih =>
    rw [makeAll] at h
    rcases hmake : d.makeFolders folder with ⟨err | ⟨⟩, d₁⟩
    · rw [hmake] at h
      cases h
    · rw [hmake] at h
      obtain ⟨h₁, hgrown, hfolder⟩ := makeFolders_spec hd hmake
      obtain ⟨he, hgrown', hrest⟩ := ih h₁ h
      refine ⟨he, hgrown.trans hgrown', fun p hp hne => ?_⟩
      rcases List.mem_cons.mp hp with rfl | hp
      · have hthere := (hfolder rfl).resolve_left fun hempty => hne (Path.isEmpty_iff.mp hempty)
        obtain ⟨P, hP, hentry⟩ := (isFolder_iff h₁.sound).mp hthere
        exact ⟨P, hgrown'.place? hP, hgrown'.folder hentry⟩
      · exact hrest p hp hne

/-- Setting up makes all folders, and installs the only new file. -/
theorem setUp_spec (hd : d.Regular) (h : setUp c d = (.ok (), e)) : KeepsUp c.runtimePack d e ∧
    ∀ p ∈ setupFolders c, p.text ≠ "" → ∃ P, e.place? p = .ok P ∧ e.entry? P = some .folder := by
  unfold setUp at h
  rcases hmake : makeAll d (setupFolders c) with ⟨err | ⟨⟩, d₁⟩
  · rw [hmake] at h
    cases h
  · rw [hmake] at h
    dsimp only at h
    obtain ⟨h₁, hgrown, hall⟩ := makeAll_spec hd hmake
    rcases hsave : Pack.runtime.save d₁ c.runtimePack with ⟨err | ⟨⟩, d₂⟩
    · rw [hsave] at h
      cases h
    · rw [hsave] at h
      obtain rfl : d₂ = e := congrArg Prod.snd h
      have hkeeps := Pack.keepsUp_save h₁ hsave
      refine ⟨⟨hkeeps.regular, hkeeps.current.trans hgrown.current,
        fun Q hQ => hkeeps.folder Q (hgrown.folder hQ), fun Q hQ => ?_⟩, fun p hp hne => ?_⟩
      · rcases hkeeps.file Q hQ with ⟨content, x, hx⟩ | hnew
        · exact .inl ⟨content, x, hgrown.file hx⟩
        · exact .inr hnew
      · obtain ⟨P, hP, hentry⟩ := hall p hp hne
        exact ⟨P, place?_mono hkeeps.current hkeeps.folder hP, hkeeps.folder P hentry⟩

/-! ### Room for items -/

/-- The paths at which the files of some items are put. -/
def IsItemFile (c : Config) (N : String → Prop) (p : Path) : Prop :=
  p = c.itemsPack ∨ p = Pack.temporary c.itemsPack ∨
    ∃ n, N n ∧ (p = Stub.path c n ∨ p = Stub.unitPath c n)

/-- Setting up makes room for items, if nothing is in the way of their files. -/
theorem room_of_setUp (hd : d.Regular) (h : setUp c d = (.ok (), e))
    (hbase : Naming.isNamespace c.itemsNamespace = true) (hitems : c.folders.items.text ≠ "")
    (hjar : c.folders.jar.text ≠ "") (hclasses : c.folders.ruleClasses.text ≠ "")
    (hvalid : ∀ n, N n → Naming.isItemName n = true)
    (hfiles : ∀ p, IsItemFile c N p → ∃ P, e.Accepts p P) : ∃ I J K, Room c I J K N e := by
  obtain ⟨hkeeps, hfolders⟩ := setUp_spec hd h
  have hslash := Naming.not_mem_of_isNamespace (c := '/') (by decide) (by decide) hbase
  have hpieces := Naming.ne_nil_of_isNamespace hbase
  have hnames : ∀ name ∈ Naming.segments c.itemsNamespace, Path.IsName name :=
    fun name => Naming.isName_segment hslash
  have hsegments := Naming.segments_ne_nil hpieces
  have hstubs : c.stubFolder.text ≠ "" := Naming.text_folder_ne_empty hslash hpieces
  obtain ⟨S, hS, hSfolder⟩ := hfolders c.stubFolder (by simp [setupFolders]) hstubs
  obtain ⟨J, hJ, hJfolder⟩ := hfolders c.folders.jar (by simp [setupFolders]) hjar
  obtain ⟨K, hK, hKfolder⟩ := hfolders c.folders.ruleClasses (by simp [setupFolders]) hclasses
  obtain ⟨I, hI, rfl⟩ := place?_below hnames hsegments hitems (by
    rw [← Naming.folder_eq_below]
    exact hS)
  have haccepts {q : Path} {F : Place} {n : String} (hq : q.text ≠ "") (hF : e.place? q = .ok F)
      (hn : Path.IsName n) (hfile : IsItemFile c N (q.join ⟨n⟩)) :
      e.Accepts (q.join ⟨n⟩) (F ++ [n]) := by
    obtain ⟨P, hP⟩ := hfiles _ hfile
    obtain ⟨F', hF', -, rfl⟩ := place?_join hn hq hP.place
    obtain rfl : F = F' := Except.ok.inj (hF.symm.trans hF')
    exact hP
  refine ⟨I, J, K, {
    regular := hkeeps.regular
    items := hI
    stubs := hS
    stubFolder := hSfolder
    stub := fun n hn => ?_
    unit := fun n hn => ?_
    jar := hJ
    jarFolder := hJfolder
    pack := haccepts hjar hJ Pack.isName_itemsPackName (.inl rfl)
    temporary := ?_
    classes := hK
    classFolder := hKfolder }⟩
  · have hstub := haccepts hstubs hS (Stub.isName_fileName (hvalid n hn))
      (.inr (.inr ⟨n, hn, .inl rfl⟩))
    rw [List.append_assoc] at hstub
    exact hstub
  · have hunit := haccepts hstubs hS (Stub.isName_unitFile (hvalid n hn))
      (.inr (.inr ⟨n, hn, .inr (Stub.unitPath_eq (hvalid n hn)).symm⟩))
    rw [List.append_assoc, ← Stub.unitPath_eq (hvalid n hn)] at hunit
    exact hunit
  · have htemporary := Pack.temporary_eq c.folders.jar
    have hfile := haccepts hjar hJ Pack.isName_temporaryName (.inr (.inl htemporary.symm))
    rw [← htemporary] at hfile
    exact hfile

/-- Where no source and no unit lay among the items, there is none after setting up. -/
theorem stocked_of_setUp (hd : d.Regular) (h : setUp c d = (.ok (), e)) (hroom : Room c I J K N e)
    (hempty : ∀ names, IsSourceOrUnit names → ¬d.HasFile (I ++ names)) :
    Stocked c I (RegistryEvent.keptAfter []) e := by
  rw [RegistryEvent.keptAfter_nil]
  refine ⟨fun n i hi => (by cases hi), fun n i hi => (by cases hi), fun names hnames hfile => ?_⟩
  rcases (setUp_spec hd h).1.file _ hfile with hold | hnew
  · exact absurd hold (hempty names hnames)
  · have hjar := (place?_eq_ok_iff.mp hroom.jar).1.ne_empty
    obtain ⟨F, -, -, heq⟩ := place?_join (n := Pack.runtimePackName)
      ⟨by decide, by decide, by decide, by decide⟩ hjar hnew
    exact absurd heq (hnames.ne_concat (by decide) (by decide))

/-! ### Items first -/

section Phases

open RegistryEvent

variable {w v : Workspace} {all : List RegistryEvent}

/-- What a workspace keeps besides its items does not count. -/
theorem InStep.of_eq (h : InStep c I J K N kept w) (hconfig : v.config = w.config)
    (htool : v.tool = w.tool) (hphase : v.phase ≠ .disposed) (hdisk : v.disk = w.disk)
    (hstale : v.itemsStale = w.itemsStale) : InStep c I J K N kept v where
  config := hconfig.trans h.config
  tool := htool.trans h.tool
  phase := hphase
  room := hdisk.symm ▸ h.room
  stocked := hdisk.symm ▸ h.stocked
  packed := by
    rw [hstale, hdisk]
    exact h.packed

/-- The stubs of the registry are brought in line, as if its items had just been added. -/
theorem InStep.generateStubs (h : InStep c I J K (Names all) (keptAfter []) w)
    (hstale : w.itemsStale = true) (hall : ∀ event ∈ w.registry.items.map .added, event ∈ all)
    (htells : TellsApart c.itemsNamespace (Tells all)) :
    InStep c I J K (Names all) (keptAfter (w.registry.items.map .added)) w.generateStubs := by
  obtain rfl := h.config
  obtain ⟨hroom, hstocked⟩ := Shelf.fill_spec h.room h.stocked hall htells
  unfold Workspace.generateStubs
  generalize Shelf.fill w.config w.disk w.registry.items = x at *
  refine ⟨rfl, h.tool, h.phase, hroom, hstocked, fun hno => ?_⟩
  dsimp only [tell, record] at hno
  rw [hstale, Bool.true_or] at hno
  cases hno

/-- The items of the registry are packed before the rules come up. -/
theorem InStep.prepareItems (h : InStep c I J K (Names all) (keptAfter []) w)
    (hstale : w.itemsStale = true) (hall : ∀ event ∈ w.registry.items.map .added, event ∈ all)
    (htells : TellsApart c.itemsNamespace (Tells all))
    (hbase : Naming.isNamespace c.itemsNamespace = true) :
    InStep c I J K (Names all) (keptAfter (w.registry.items.map .added)) w.prepareItems ∧
      w.prepareItems.itemsStale = false := by
  have hstubs := h.generateStubs hstale hall htells
  unfold Workspace.prepareItems
  dsimp only
  generalize w.generateStubs = v at *
  have hphase : InStep c I J K (Names all) (keptAfter (w.registry.items.map .added))
      { v with phase := .stubsGenerated } := hstubs.of_eq rfl rfl (by simp) rfl rfl
  obtain ⟨hfresh, hin, hnow⟩ := hphase.rebuildItems (areKept hall) (fun n hn => hn.1) hbase
  generalize Workspace.rebuildItems { v with phase := .stubsGenerated } = x at *
  obtain ⟨isFresh, x⟩ := x
  obtain rfl : isFresh = true := hfresh
  exact ⟨hin.of_eq rfl rfl (by simp) rfl rfl, hnow⟩

end Phases

end Workspace

/-! ### Rules elsewhere -/

/-- What units lie below a place on a disk lay there before. -/
def Disk.AddsNoUnit (I : Place) (d e : Disk) : Prop :=
  ∀ names, endsWith names Naming.artifactExtension = true → e.HasFile (I ++ names) →
    e.entry? (I ++ names) = d.entry? (I ++ names)

/-- A pass over rules that stores none of its units among those of the items leaves these in
line. -/
theorem Stocked.confined {R : Place} (h : Stocked c I kept d) (hd : Confined R d e)
    (hadds : AddsNoUnit I d e) : Stocked c I kept e := by
  have hsource {names : List String} (hnames : endsWith names Naming.sourceExtension = true) :
      e.entry? (I ++ names) = d.entry? (I ++ names) := hd.other hnames (by decide)
  refine ⟨fun n i hi => ?_, fun n i hi => ?_, fun names hnames hfile => ?_⟩
  · rw [Stub.place, hsource (Stub.endsWith_fileName n)]
    exact h.stub n i hi
  · rcases hentry : e.entry? (Stub.unitPlace c I n) with _ | ⟨content, x⟩ | _
    · exact .inl rfl
    · have hsame := hadds _ (Stub.endsWith_unitFile n) ⟨content, x, hentry⟩
      rw [← hentry, Stub.unitPlace, hsame]
      exact h.unit n i hi
    · rw [Stub.unitPlace, ← List.append_assoc] at hentry
      have hfolder := hd.folder_pointed (Stub.point_mem_unitFile n) hentry
      rw [List.append_assoc] at hfolder
      rcases h.unit n i hi with hno | ⟨x, hno⟩ <;> cases hno.symm.trans hfolder
  · have hsame : e.entry? (I ++ names) = d.entry? (I ++ names) := by
      rcases hnames with hnames | hnames
      · exact hsource hnames
      · exact hadds names hnames hfile
    obtain ⟨content, x, hx⟩ := hfile
    exact h.only names hnames ⟨content, x, hsame ▸ hx⟩

end LiveRules
