import Mathlib.Logic.Relation
import LiveRules.Proofs.Compile.Missing
import LiveRules.Proofs.Workspace.Life
import LiveRules.Proofs.Workspace.Stale

/-!
What events of the registry leave alone. Whatever names they give, whatever lies on the disk and
whatever fails there, the changes that a workspace makes for them lie at or below its items folder,
at its items pack or at the temporary file of that; all else is folders that were missing above
these paths. The rules and their engine are not touched.
-/

namespace LiveRules

open Disk

variable {c : Config} {d d' e : Disk} {p q : Path} {P Q I : Place} {names : List String}
variable {r : Except OsError Unit} {content : Text.Bytes}

/-- A path is one to which parents lead up from another, or that one itself. -/
def Path.IsAbove (q p : Path) : Prop := Relation.ReflTransGen (fun p q => p.parent? = some q) p q

theorem Path.isAbove_of_mem_ancestors (h : q ∈ p.ancestors) : q.IsAbove p := by
  rw [Path.ancestors] at h
  generalize p.pieces.length = fuel at h
  induction fuel generalizing p with
  | zero =>
    obtain rfl := List.mem_singleton.mp h
    exact .refl
  | succ fuel ih =>
    rw [Path.ancestorsFrom] at h
    cases hparent : p.parent? with
    | none =>
      rw [hparent] at h
      obtain rfl := List.mem_singleton.mp h
      exact .refl
    | some above =>
      rw [hparent] at h
      rcases List.mem_cons.mp h with rfl | h
      · exact .refl
      · exact .head hparent (ih h)

namespace Config

/-- The paths on which items are kept: those at or below the items folder, and the items pack. -/
def IsItemsPath (c : Config) (p : Path) : Prop :=
  p = c.itemsPack ∨ ∃ names, (∀ name ∈ names, Path.IsName name) ∧ p = below c.folders.items names

/-- The places where items are kept: those at or below the items folder, the items pack and the
temporary file of that. -/
def IsItemsPlace (c : Config) (d : Disk) (Q : Place) : Prop :=
  (∃ I, d.place? c.folders.items = .ok I ∧ I <+: Q) ∨ d.place? c.itemsPack = .ok Q ∨
    d.place? (Pack.temporary c.itemsPack) = .ok Q

/-- A folder on the way up from a path on which items are kept. -/
def IsAboveItems (c : Config) (d : Disk) (Q : Place) : Prop :=
  ∃ p q, c.IsItemsPath p ∧ q.IsAbove p ∧ d.place? q = .ok Q

/-- Places where items are kept stay so when folders are added. -/
theorem IsItemsPlace.mono (h : c.IsItemsPlace d Q) (hcurrent : e.current = d.current)
    (hfolder : ∀ Q, d.entry? Q = some .folder → e.entry? Q = some .folder) :
    c.IsItemsPlace e Q := by
  rcases h with ⟨I, hI, hbelow⟩ | hpack | htemporary
  · exact .inl ⟨I, place?_mono hcurrent hfolder hI, hbelow⟩
  · exact .inr (.inl (place?_mono hcurrent hfolder hpack))
  · exact .inr (.inr (place?_mono hcurrent hfolder htemporary))

theorem isItemsPath_path (hbase : Naming.isNamespace c.itemsNamespace = true) {name : String}
    (hname : Naming.isItemName name = true) : c.IsItemsPath (Stub.path c name) := by
  have hslash := Naming.not_mem_of_isNamespace (c := '/') (by decide) (by decide) hbase
  refine .inr ⟨Naming.segments c.itemsNamespace ++ [Stub.fileName name], fun n hn => ?_, ?_⟩
  · rcases List.mem_append.mp hn with hn | hn
    · exact Naming.isName_segment hslash hn
    · obtain rfl := List.mem_singleton.mp hn
      exact Stub.isName_fileName hname
  · rw [Stub.path, stubFolder, Naming.folder_eq_below, below_append]
    rfl

theorem isItemsPath_unitPath (hbase : Naming.isNamespace c.itemsNamespace = true) {name : String}
    (hname : Naming.isItemName name = true) : c.IsItemsPath (Stub.unitPath c name) := by
  have hslash := Naming.not_mem_of_isNamespace (c := '/') (by decide) (by decide) hbase
  refine .inr ⟨Naming.segments c.itemsNamespace ++ [Stub.unitFile name], fun n hn => ?_,
    Stub.unitPath_eq_below hname⟩
  rcases List.mem_append.mp hn with hn | hn
  · exact Naming.isName_segment hslash hn
  · obtain rfl := List.mem_singleton.mp hn
    exact Stub.isName_unitFile hname

/-- Nothing changed but where items are kept, and missing folders above were made. -/
structure TouchesItems (c : Config) (d e : Disk) : Prop where
  troubles : e.troubles = d.troubles
  regular : e.calm.Regular
  current : e.current = d.current
  folder : ∀ Q, d.entry? Q = some .folder → e.entry? Q = some .folder
  entry? : ∀ Q, e.entry? Q = d.entry? Q ∨ c.IsItemsPlace e Q ∨
    (d.entry? Q = none ∧ e.entry? Q = some .folder ∧ c.IsAboveItems e Q)

namespace TouchesItems

theorem place? (h : TouchesItems c d e) (hp : d.place? p = .ok P) : e.place? p = .ok P :=
  place?_mono h.current h.folder hp

theorem isItemsPlace (h : TouchesItems c d e) (hQ : c.IsItemsPlace d Q) : c.IsItemsPlace e Q :=
  hQ.mono h.current h.folder

theorem isAboveItems (h : TouchesItems c d e) (hQ : c.IsAboveItems d Q) : c.IsAboveItems e Q := by
  obtain ⟨p, q, hp, hq, hplace⟩ := hQ
  exact ⟨p, q, hp, hq, h.place? hplace⟩

theorem of_same (htroubles : e.troubles = d.troubles) (he : e.calm.Regular)
    (hsame : Same d.calm e.calm) : TouchesItems c d e :=
  ⟨htroubles, he, hsame.current, fun Q hQ => (hsame.entry? Q).trans hQ,
    fun Q => .inl (hsame.entry? Q)⟩

theorem refl (h : d.calm.Regular) : TouchesItems c d d := of_same rfl h .refl

theorem trans (h : TouchesItems c d d') (h' : TouchesItems c d' e) : TouchesItems c d e := by
  refine ⟨h'.troubles.trans h.troubles, h'.regular, h'.current.trans h.current,
    fun Q hQ => h'.folder Q (h.folder Q hQ), fun Q => ?_⟩
  rcases h'.entry? Q with hQ | hplace | ⟨hnone, hfolder, habove⟩
  · rw [hQ]
    rcases h.entry? Q with hQ | hplace | ⟨hnone, hfolder, habove⟩
    · exact .inl hQ
    · exact .inr (.inl (h'.isItemsPlace hplace))
    · exact .inr (.inr ⟨hnone, hfolder, h'.isAboveItems habove⟩)
  · exact .inr (.inl hplace)
  · -- a folder is made by one of the steps only, as it stays once it is there
    rcases h.entry? Q with hQ | hplace | ⟨-, hmade, -⟩
    · exact .inr (.inr ⟨hQ.symm.trans hnone, hfolder, habove⟩)
    · exact .inr (.inl (h'.isItemsPlace hplace))
    · cases hnone.symm.trans hmade

/-- One file was stored or removed. -/
theorem of_sets {o : Option Entry} (htroubles : e.troubles = d.troubles) (he : e.calm.Regular)
    (hsets : Sets P o d.calm e.calm) (hfree : d.entry? P ≠ some .folder)
    (hP : c.IsItemsPlace d P) : TouchesItems c d e := by
  have hfolder : ∀ Q, d.entry? Q = some .folder → e.entry? Q = some .folder :=
    fun Q hQ => hsets.folder hfree hQ
  refine ⟨htroubles, he, hsets.current, hfolder, fun Q => ?_⟩
  by_cases hQ : Q = P
  · exact .inr (.inl (hQ ▸ hP.mono hsets.current hfolder))
  · exact .inl ((hsets.entry? Q).trans (if_neg hQ))

/-- What was done in the items folder. -/
theorem of_stays (h : Stays I d e) (hI : d.place? c.folders.items = .ok I) :
    TouchesItems c d e := by
  refine ⟨h.troubles, h.regular, h.confined.current, fun Q => h.folder, fun Q => ?_⟩
  by_cases hQ : I <+: Q
  · exact .inr (.inl (.inl ⟨I, h.place? hI, hQ⟩))
  · exact .inl (h.confined.outside hQ)

end TouchesItems

/-! ### Operations on files -/

theorem touches_makeFolder (hd : d.calm.Regular) (hp : c.IsItemsPath p) (hq : q.IsAbove p)
    (hm : d.makeFolder q = (r, e)) : c.TouchesItems d e := by
  have htried := makeFolder_tried hm
  rcases htried.cases with hcalm | ⟨-, -, -, -, -, rfl⟩
  · obtain ⟨he, ⟨-, P, hP, hnone, hsets⟩ | ⟨-, hsame⟩⟩ := makeFolder_spec hd hcalm
    · have hgrown := hsets.grown hnone
      refine ⟨htried.troubles, he, hgrown.current, fun Q => hgrown.folder, fun Q => ?_⟩
      by_cases hQ : Q = P
      · subst hQ
        refine .inr (.inr ⟨hnone, (hsets.entry? Q).trans (if_pos rfl), p, q, hp, hq, ?_⟩)
        exact place?_calm.symm.trans (hgrown.place? hP)
      · exact .inl ((hsets.entry? Q).trans (if_neg hQ))
    · exact .of_same htried.troubles he hsame
  · exact .of_same htried.troubles hd.ticked same_ticked

/-- The folder of a path on which items are kept is made, with all that is missing above. -/
theorem touches_makeFolders (hd : d.calm.Regular) (hp : c.IsItemsPath p)
    (hm : d.makeFolders (p.parent?.getD ⟨""⟩) = (r, e)) : c.TouchesItems d e := by
  cases hparent : p.parent? with
  | none =>
    -- for an empty path no folder is made
    obtain ⟨above, habove⟩ := exists_ancestors ⟨""⟩
    rw [hparent, Option.getD_none, makeFolders, habove, makeChain, if_pos (by decide)] at hm
    cases hm
    exact .refl hd
  | some folder =>
    rw [hparent, Option.getD_some, makeFolders] at hm
    refine makeChain_induct (motive := c.TouchesItems d) (fun q hq x r y hx hy => ?_) (.refl hd) hm
    have habove : q.IsAbove p := .head hparent (Path.isAbove_of_mem_ancestors hq)
    exact hx.trans (touches_makeFolder hx.regular hp habove hy)

theorem touches_write (hd : d.calm.Regular) (hp : ∀ P, d.place? p = .ok P → c.IsItemsPlace d P)
    (hw : d.write p content = (r, e)) : c.TouchesItems d e := by
  obtain ⟨htroubles, he, ⟨-, hsame⟩ | ⟨P, part, x, hP, hfree, hsets, -⟩⟩ := sets_write hd hw
  · exact .of_same htroubles he hsame
  · exact .of_sets htroubles he hsets hfree (hp P hP)

theorem touches_removeIfThere {x : Except ShelfError Bool} (hd : d.calm.Regular)
    (hp : ∀ P, d.place? p = .ok P → c.IsItemsPlace d P)
    (hr : Stub.removeIfThere d p = (x, e)) : c.TouchesItems d e := by
  rcases hremove : d.removeFile p with ⟨r, d'⟩
  rw [Stub.removeIfThere_eq, hremove] at hr
  obtain ⟨-, rfl⟩ := Prod.mk.inj hr
  have htried := removeFile_tried hremove
  rcases htried.cases with hcalm | ⟨-, -, -, -, -, rfl⟩
  · obtain ⟨he, ⟨-, P, old, executable, hP, hfile, hsets⟩ | ⟨-, -, hsame, -⟩⟩ :=
      removeFile_spec hd hcalm
    · have hfree : d.entry? P ≠ some .folder := fun hno => by cases hfile.symm.trans hno
      exact .of_sets htried.troubles he hsets hfree (hp P (place?_calm.symm.trans hP))
    · exact .of_same htried.troubles he hsame
  · exact .of_same rfl hd.ticked same_ticked

theorem touches_move (hd : d.calm.Regular) (hp : ∀ P, d.place? p = .ok P → c.IsItemsPlace d P)
    (hq : ∀ P, d.place? q = .ok P → c.IsItemsPlace d P) (hm : d.move p q = (r, e)) :
    c.TouchesItems d e := by
  obtain ⟨htroubles, he, ⟨-, hsame⟩ | ⟨S, T, hS, hT, hmoved⟩⟩ := moved_move hd hm
  · exact .of_same htroubles he hsame
  · have hfolders := hmoved.sameFolders
    have hfolder : ∀ Q, d.entry? Q = some .folder → e.entry? Q = some .folder :=
      fun Q => (hfolders.folder Q).mpr
    refine ⟨htroubles, he, hfolders.current, hfolder, fun Q => ?_⟩
    by_cases hQT : Q = T
    · exact .inr (.inl (hQT ▸ (hq T hT).mono hfolders.current hfolder))
    · by_cases hQS : Q = S
      · exact .inr (.inl (hQS ▸ (hp S hS).mono hfolders.current hfolder))
      · exact .inl ((hmoved.entry? Q).trans (by rw [if_neg hQT, if_neg hQS]; rfl))

/-! ### Stubs and packs -/

variable {name : String} {item : Item}

theorem IsItemsPath.isItemsPlace (h : c.IsItemsPath p) (hitems : c.folders.items.text ≠ "")
    (hp : d.place? p = .ok P) : c.IsItemsPlace d P := by
  rcases h with rfl | ⟨names, hnames, rfl⟩
  · exact .inr (.inl hp)
  · by_cases hne : names = []
    · subst hne
      exact .inl ⟨P, hp, List.prefix_rfl⟩
    · obtain ⟨I, hI, rfl⟩ := place?_below hnames hne hitems hp
      exact .inl ⟨I, hI, List.prefix_append I names⟩

theorem touches_writeStub (hd : d.calm.Regular) (hitems : c.folders.items.text ≠ "")
    (hbase : Naming.isNamespace c.itemsNamespace = true)
    (hname : Naming.isItemName item.name = true) : c.TouchesItems d (Stub.write c d item).disk := by
  have hpath := isItemsPath_path hbase hname
  unfold Stub.write
  dsimp only
  split
  · exact .refl hd
  · rcases hmake : d.makeFolders ((Stub.path c item.name).parent?.getD ⟨""⟩) with ⟨made, d₁⟩
    have hmade := touches_makeFolders hd hpath hmake
    rcases made with err | ⟨⟩
    · exact hmade
    dsimp only
    rcases hwrite : d₁.write (Stub.path c item.name)
      (Text.encode (Stub.text c.itemsNamespace item)) with ⟨written, d₂⟩
    have hwritten := hmade.trans
      (touches_write hmade.regular (fun P hP => hpath.isItemsPlace hitems hP) hwrite)
    rcases written with err | ⟨⟩
    · exact hwritten
    dsimp only
    rcases hremove : Stub.removeIfThere d₂ (Stub.unitPath c item.name) with ⟨removed, d₃⟩
    have hremoved := hwritten.trans (touches_removeIfThere hwritten.regular
      (fun P hP => (isItemsPath_unitPath hbase hname).isItemsPlace hitems hP) hremove)
    rcases removed with err | b <;> exact hremoved

theorem touches_removeStub {x : Except ShelfError Bool} (hd : d.calm.Regular)
    (hitems : c.folders.items.text ≠ "") (hbase : Naming.isNamespace c.itemsNamespace = true)
    (hname : Naming.isItemName name = true) (hr : Stub.remove c d name = (x, e)) :
    c.TouchesItems d e := by
  unfold Stub.remove at hr
  rcases hstub : Stub.removeIfThere d (Stub.path c name) with ⟨stub, d₁⟩
  have hfirst := touches_removeIfThere hd
    (fun P hP => (isItemsPath_path hbase hname).isItemsPlace hitems hP) hstub
  rw [hstub] at hr
  rcases stub with err | b
  · cases hr
    exact hfirst
  dsimp only at hr
  rcases hunit : Stub.removeIfThere d₁ (Stub.unitPath c name) with ⟨unit, d₂⟩
  have hsecond := hfirst.trans (touches_removeIfThere hfirst.regular
    (fun P hP => (isItemsPath_unitPath hbase hname).isItemsPlace hitems hP) hunit)
  rw [hunit] at hr
  rcases unit with err | b <;> cases hr <;> exact hsecond

theorem touches_packFolder {x : Except PackError Nat} (hd : d.calm.Regular)
    (hp : Pack.packFolder d c.folders.items c.itemsPack = (x, e)) : c.TouchesItems d e := by
  unfold Pack.packFolder at hp
  split at hp
  · cases hp
    exact .refl hd
  · rename_i units hunits
    dsimp only at hp
    rcases hsave : (Pack.ofUnits units).save d c.itemsPack with ⟨saved, d'⟩
    have hd' : e = d' := by
      rw [hsave] at hp
      cases saved <;> exact (congrArg Prod.snd hp).symm
    subst hd'
    unfold Pack.save at hsave
    rcases hmake : d.makeFolders (c.itemsPack.parent?.getD ⟨""⟩) with ⟨made, d₁⟩
    have hmade := touches_makeFolders hd (.inl rfl) hmake
    rw [hmake] at hsave
    rcases made with err | ⟨⟩
    · cases hsave
      exact hmade
    dsimp only at hsave
    rcases hwrite : d₁.write (Pack.temporary c.itemsPack)
      (Text.encode (Pack.ofUnits units).text) with ⟨written, d₂⟩
    have hwritten := hmade.trans
      (touches_write hmade.regular (fun P hP => .inr (.inr hP)) hwrite)
    rw [hwrite] at hsave
    rcases written with err | ⟨⟩
    · cases hsave
      exact hwritten
    dsimp only at hsave
    rcases hmove : d₂.move (Pack.temporary c.itemsPack) c.itemsPack with ⟨moved, d₃⟩
    have hmoved := hwritten.trans (touches_move hwritten.regular (fun P hP => .inr (.inr hP))
      (fun P hP => .inr (.inl hP)) hmove)
    rw [hmove] at hsave
    rcases moved with err | ⟨⟩ <;> cases hsave <;> exact hmoved

/-- The stubs that have no unit are compiled into the items folder, which is there if there is any
stub. -/
theorem touches_compileItems (hd : d.calm.Regular) (hitems : c.folders.items.text ≠ "")
    (hbase : Naming.isNamespace c.itemsNamespace = true) :
    c.TouchesItems d (Pass.compileItems .builtin c d).disk := by
  unfold Pass.compileItems Pass.compileStale
  generalize Pass.itemsPath d c = cp
  dsimp only [Compiled.after]
  split
  · exact .refl hd
  · rename_i hsome
    obtain ⟨first, hfirst⟩ := List.exists_mem_of_ne_nil _ fun hno =>
      hsome (List.isEmpty_iff.mpr hno)
    obtain ⟨P, hP, hstubs⟩ := Source.folder_of_mem_scanFolder (List.mem_filter.mp hfirst).1
    obtain ⟨I, hI, hfolder⟩ := (hasFolder_root hd.tree hbase hP hstubs).resolve_left
      fun hempty => hitems (Path.isEmpty_iff.mp hempty)
    generalize Pass.stale d c.stubFolder = sources
    have hstays : Stays I d (Builtin.compile d sources cp.1 c.folders.items).disk :=
      Pass.stays_compile hd hI hfolder
    unfold Pass.compile
    split
    · exact .refl hd
    · exact .of_stays hstays hI

end Config

/-! ### Events -/

namespace Workspace

variable {w v : Workspace}

/-- What a workspace is besides its items. -/
def besides (w : Workspace) : Config × Tool × Phase × Bool × Nat × Engine :=
  (w.config, w.tool, w.phase, w.rulesOk, w.generation, w.engine)

/-- Nothing became of a workspace but of its items. -/
structure OnlyItems (w v : Workspace) : Prop where
  besides : v.besides = w.besides
  disk : w.config.TouchesItems w.disk v.disk

theorem OnlyItems.trans {x : Workspace} (h : w.OnlyItems v) (h' : v.OnlyItems x) :
    w.OnlyItems x := by
  have hconfig : v.config = w.config := congrArg Prod.fst h.besides
  exact ⟨h'.besides.trans h.besides, h.disk.trans (hconfig ▸ h'.disk)⟩

theorem besides_applyEvent (event : RegistryEvent) : (w.applyEvent event).besides = w.besides := by
  unfold applyEvent
  dsimp only
  split
  · rfl
  · split <;> rfl

theorem besides_packItems : w.packItems.2.besides = w.besides := by
  unfold packItems
  dsimp only
  split <;> rfl

/-- An event about a name that is none of an item changes nothing; any other one changes the stub of
that item and its unit. -/
theorem onlyItems_applyEvent (hd : w.disk.calm.Regular) (hitems : w.config.folders.items.text ≠ "")
    (hbase : Naming.isNamespace w.config.itemsNamespace = true) (event : RegistryEvent) :
    w.OnlyItems (w.applyEvent event) := by
  refine ⟨besides_applyEvent event, ?_⟩
  by_cases hvalid : Naming.isItemName event.name = true
  · cases hitem : event.item? with
    | some item =>
      obtain ⟨b, hcore, -⟩ := applyEvent_written (w := w) hitem hvalid
      rw [show (w.applyEvent event).disk = _ from congrArg (·.2.2.1) hcore]
      exact Config.touches_writeStub hd hitems hbase (RegistryEvent.name_of_item? hitem ▸ hvalid)
    | none =>
      cases event with
      | removed name =>
        rcases hremove : Stub.remove w.config w.disk name with ⟨r, d⟩
        obtain ⟨b, hcore, -⟩ := applyEvent_gone hvalid hremove
        rw [show (w.applyEvent (.removed name)).disk = d from congrArg (·.2.2.1) hcore]
        exact Config.touches_removeStub hd hitems hbase hvalid hremove
      | added item | updated item => cases hitem
  · unfold applyEvent
    dsimp only
    rw [if_pos (by simpa using hvalid)]
    exact .refl hd

theorem onlyItems_applyEvents (hd : w.disk.calm.Regular)
    (hitems : w.config.folders.items.text ≠ "")
    (hbase : Naming.isNamespace w.config.itemsNamespace = true) (events : List RegistryEvent) :
    w.OnlyItems (events.foldl applyEvent w) := by
  induction events generalizing w with
  | nil => exact ⟨rfl, .refl hd⟩
  | cons event rest ih =>
    have hfirst := onlyItems_applyEvent hd hitems hbase event
    have hconfig : (w.applyEvent event).config = w.config := congrArg Prod.fst hfirst.besides
    exact hfirst.trans (ih hfirst.disk.regular (hconfig ▸ hitems) (hconfig ▸ hbase))

theorem onlyItems_packItems (hd : w.disk.calm.Regular) : w.OnlyItems w.packItems.2 := by
  refine ⟨besides_packItems, ?_⟩
  unfold packItems
  dsimp only
  rcases hpack : Pack.packFolder w.disk w.config.folders.items w.config.itemsPack with ⟨r, d⟩
  have hpacked := Config.touches_packFolder hd hpack
  rcases r with err | n <;> exact hpacked

theorem onlyItems_rebuildItems (htool : w.tool = .builtin) (hd : w.disk.calm.Regular)
    (hitems : w.config.folders.items.text ≠ "")
    (hbase : Naming.isNamespace w.config.itemsNamespace = true) : w.OnlyItems w.rebuildItems.2 := by
  have hcompiled := Config.touches_compileItems (c := w.config) hd hitems hbase
  rw [← htool] at hcompiled
  unfold rebuildItems
  split
  · exact ⟨rfl, .refl hd⟩
  · generalize Pass.compileItems w.tool w.config w.disk = x at *
    have htold : w.OnlyItems ({ w with disk := x.disk }.tell x.notes) := ⟨rfl, hcompiled⟩
    dsimp only
    cases x.outcome with
    | error err => exact htold.trans ⟨rfl, .refl hcompiled.regular⟩
    | ok o =>
      dsimp only
      split
      · exact htold.trans (onlyItems_packItems hcompiled.regular)
      · exact htold

/-- Whatever a registry tells, and whatever fails meanwhile: the phase, the engine, the number of
its generation and what became of the last compilation of the rules stay, and so does all on the
disk but what lies where items are kept, and folders that were missing above. -/
theorem registryChanged_confined (w : Workspace) (events : List RegistryEvent)
    (htool : w.tool = .builtin) (hd : w.disk.IsTree) (hitems : w.config.folders.items.text ≠ "")
    (hbase : Naming.isNamespace w.config.itemsNamespace = true) :
    (w.registryChanged events).phase = w.phase ∧
    (w.registryChanged events).engine = w.engine ∧
    (w.registryChanged events).generation = w.generation ∧
    (w.registryChanged events).rulesOk = w.rulesOk ∧
    ∀ Q, (w.registryChanged events).disk.entry? Q = w.disk.entry? Q ∨
      w.config.IsItemsPlace (w.registryChanged events).disk Q ∨
      (w.disk.entry? Q = none ∧ (w.registryChanged events).disk.entry? Q = some .folder ∧
        w.config.IsAboveItems (w.registryChanged events).disk Q) := by
  have honly : w.OnlyItems (w.registryChanged events) := by
    unfold registryChanged
    split
    · exact ⟨rfl, .refl hd.regular_calm⟩
    · have happlied := onlyItems_applyEvents hd.regular_calm hitems hbase events
      have hbesides := happlied.besides
      simp only [besides, Prod.mk.injEq] at hbesides
      obtain ⟨hconfig, htool', -⟩ := hbesides
      exact happlied.trans (onlyItems_rebuildItems (htool'.trans htool) happlied.disk.regular
        (hconfig ▸ hitems) (hconfig ▸ hbase))
  have hbesides := honly.besides
  simp only [besides, Prod.mk.injEq] at hbesides
  obtain ⟨-, -, hphase, hok, hgeneration, hengine⟩ := hbesides
  exact ⟨hphase, hengine, hgeneration, hok, honly.disk.entry?⟩

/-- A name with separators and points in it leads nowhere out of the items folder, whatever other
events come with it. -/
theorem registryChanged_confined_escape : overNothing.disk.IsTree ∧
    ∃ w, w = overNothing.registryChanged
        [.added ⟨"../Escape", "Switch", none⟩, .added ⟨"Lamp", "Switch", none⟩, .removed ""] ∧
      w.rulesOk = overNothing.rulesOk ∧
      ∀ Q, w.disk.entry? Q = overNothing.disk.entry? Q ∨ overNothing.config.IsItemsPlace w.disk Q ∨
        (overNothing.disk.entry? Q = none ∧ w.disk.entry? Q = some .folder ∧
          overNothing.config.IsAboveItems w.disk Q) := by
  have htree : overNothing.disk.IsTree := .of_entries (by decide) (by decide)
  obtain ⟨-, -, -, hok, hplaces⟩ := registryChanged_confined overNothing
    [.added ⟨"../Escape", "Switch", none⟩, .added ⟨"Lamp", "Switch", none⟩, .removed ""]
    rfl htree (by decide) (by decide)
  exact ⟨htree, _, rfl, hok, hplaces⟩

end Workspace

end LiveRules
