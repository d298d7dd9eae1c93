import LiveRules.Proofs.Compile.Confined
import LiveRules.Proofs.Compile.Outputs
import LiveRules.Proofs.Compile.Written
import LiveRules.Proofs.Files.Endings

/-!
Compiling what is missing. Of the sources in a folder those are compiled that have no unit of the
same name beside them. If the sources belong to the namespace that the folder spells, their units
are stored in the folder itself: whatever fails, nothing that was there is changed, and after a
pass that ends well a second one finds nothing to do.
-/

namespace LiveRules

open Disk

variable {d d₁ e : Disk} {p q folder root : Path} {P Q F : Place} {n ext base stem : String}
variable {content : Text.Bytes} {a : Artifact} {units : List Artifact} {cp : ClassPath}
variable {s : Source} {sources : List Source}

/-! ### What lies in a folder -/

namespace Disk

/-- What is listed in a folder that can be looked at: the files with the extension that a path leads
to. -/
theorem Shows.mem_listed (h : d.Shows F) (hd : d.calm.Regular) (hF : d.place? p = .ok F) :
    q ∈ d.listed p ext ↔ ∃ n, q = p.join ⟨n⟩ ∧ d.place? q = .ok (F ++ [n]) ∧
      d.HasFile (F ++ [n]) ∧ (Path.cutName n).2 = some ext := by
  rw [h.listed_eq hd hF, Disk.mem_listed hd]
  constructor
  · rintro ⟨G, n, hG, -, hthere, rfl, hfile, hext⟩
    obtain rfl : F = G := Except.ok.inj (hF.symm.trans (place?_calm.symm.trans hG))
    have hn : Path.IsName n := hd.tree.isName hthere
    obtain ⟨P, content, x, hP, hx⟩ := (isFile_iff hd.sound).mp hfile
    rw [place?_calm] at hP
    obtain ⟨G, hG, -, rfl⟩ := place?_join hn (place?_eq_ok_iff.mp hF).1.ne_empty hP
    obtain rfl : F = G := Except.ok.inj (hF.symm.trans hG)
    rw [Path.hasExtension, extension?_join hn, beq_iff_eq] at hext
    exact ⟨n, rfl, hP, ⟨content, x, hx⟩, hext⟩
  · rintro ⟨n, rfl, hplace, hfile, hext⟩
    have hn : Path.IsName n := hd.tree.isNames_of_hasFile hfile n List.mem_cons_self
    obtain ⟨content, x, hx⟩ := hfile
    have hthere : d.calm.entry? (F ++ [n]) ≠ none := by
      rw [entry?_calm, hx]
      exact Option.some_ne_none _
    refine ⟨F, n, place?_calm.trans hF, hd.tree.parent hthere, hthere, rfl, ?_, ?_⟩
    · exact (isFile_iff hd.sound).mpr ⟨_, content, x, place?_calm.trans hplace, hx⟩
    · rw [Path.hasExtension, extension?_join hn, beq_iff_eq]
      exact hext

/-- A folder in which something is listed is there. -/
theorem folder_of_mem_listed (h : q ∈ d.listed p ext) :
    ∃ F, d.place? p = .ok F ∧ d.entry? F = some .folder := by
  rw [listed] at h
  cases hlist : d.list p with
  | error err =>
    rw [hlist] at h
    cases h
  | ok found =>
    rw [list] at hlist
    cases hF : d.place? p with
    | error err =>
      rw [hF] at hlist
      cases hlist
    | ok F =>
      refine ⟨F, rfl, ?_⟩
      simp only [hF, bind, Except.bind] at hlist
      split at hlist
      · cases hlist
      · split at hlist
        · assumption
        · cases hlist
        · cases hlist

/-- There is a unit with a stem directly in a folder. -/
def HasUnit (d : Disk) (folder : Path) (stem : String) : Prop :=
  ∃ F, d.place? folder = .ok F ∧ d.HasFile (F ++ [stem ++ "." ++ Naming.artifactExtension])

end Disk

/-- A source that is listed in a folder lies there under its name. -/
theorem Source.place_of_mem_scanFolder (hshows : d.Shows F) (hd : d.calm.Regular)
    (hF : d.place? folder = .ok F) (hs : s ∈ scanFolder d folder) :
    ∃ n, s.path = folder.join ⟨n⟩ ∧ d.place? s.path = .ok (F ++ [n]) ∧ d.HasFile (F ++ [n]) ∧
      n = s.name ++ "." ++ Naming.sourceExtension ∧ s.name ≠ "" := by
  obtain ⟨q, hq, rfl⟩ := List.mem_map.mp hs
  obtain ⟨n, rfl, hplace, hfile, hext⟩ := (hshows.mem_listed hd hF).mp hq
  have hn : Path.IsName n := hd.tree.isNames_of_hasFile hfile n List.mem_cons_self
  have hstem : (scan d (folder.join ⟨n⟩)).name = (Path.cutName n).1 := by
    rw [name, scan, Path.stem, Naming.stem?_join hn, Option.getD_some]
  rw [hstem]
  exact ⟨n, rfl, hplace, hfile, Path.eq_of_cutName hext, Path.stem_ne_of_cutName hext⟩

/-- A path leads to the unit of a source wherever one leads to the source. -/
theorem Source.mem_listed_units (hshows : d.Shows F) (hd : d.calm.Regular)
    (hF : d.place? folder = .ok F) (hs : s ∈ scanFolder d folder) :
    s.name ∈ (d.listed folder Naming.artifactExtension).map Path.stem ↔
      d.HasUnit folder s.name := by
  constructor
  · intro hmem
    obtain ⟨q, hq, hstem⟩ := List.mem_map.mp hmem
    obtain ⟨n, rfl, -, hfile, hext⟩ := (hshows.mem_listed hd hF).mp hq
    have hn : Path.IsName n := hd.tree.isNames_of_hasFile hfile n List.mem_cons_self
    rw [Path.stem, Naming.stem?_join hn, Option.getD_some] at hstem
    rw [← hstem]
    exact ⟨F, hF, Path.eq_of_cutName hext ▸ hfile⟩
  · rintro ⟨G, hG, hfile⟩
    obtain rfl : F = G := Except.ok.inj (hF.symm.trans hG)
    obtain ⟨m, hpath, hplace, hsource, hm, hne⟩ := place_of_mem_scanFolder hshows hd hF hs
    have hcut := Path.cutName_append hne (show '.' ∉ Naming.artifactExtension.toList by decide)
    generalize hunit : s.name ++ "." ++ Naming.artifactExtension = n at hfile hcut
    have hn : Path.IsName n := hd.tree.isNames_of_hasFile hfile n List.mem_cons_self
    have hm' : Path.IsName m := hd.tree.isNames_of_hasFile hsource m List.mem_cons_self
    have hunitPlace : d.place? (folder.join ⟨n⟩) = .ok (F ++ [n]) := by
      -- both extensions are equally long, so no limit tells the two names apart
      refine place?_join_of_le hm' hn (fun hnul => ?_) ?_ (hpath ▸ hplace)
      · rw [hm]
        rw [← hunit] at hnul
        simp only [String.toList_append, List.mem_append] at hnul ⊢
        exact .inl (hnul.resolve_right (by decide))
      · simp only [hm, ← hunit, String.utf8ByteSize_append]
        exact Nat.le_refl _
    refine List.mem_map.mpr ⟨folder.join ⟨n⟩, (hshows.mem_listed hd hF).mpr
      ⟨n, rfl, hunitPlace, hfile, by rw [hcut]⟩, ?_⟩
    rw [Path.stem, Naming.stem?_join hn, Option.getD_some, hcut]

theorem Source.folder_of_mem_scanFolder (hs : s ∈ scanFolder d folder) :
    ∃ F, d.place? folder = .ok F ∧ d.entry? F = some .folder := by
  obtain ⟨q, hq, -⟩ := List.mem_map.mp hs
  exact folder_of_mem_listed hq

/-- The sources of a folder that are stale are those that have no unit there. -/
theorem Pass.mem_stale (hd : d.calm.Regular)
    (hshows : ∀ F, d.place? folder = .ok F → d.Shows F) :
    s ∈ stale d folder ↔ s ∈ Source.scanFolder d folder ∧ ¬d.HasUnit folder s.name := by
  rw [stale, List.mem_filter]
  refine and_congr_right fun hs => ?_
  obtain ⟨F, hF, -⟩ := Source.folder_of_mem_scanFolder hs
  rw [← Source.mem_listed_units (hshows F hF) hd hF hs, Bool.not_eq_true', ← Bool.not_eq_true,
    List.contains_iff_mem]

/-! ### What storing units adds -/

/-- Where a unit lies in the folder of its namespace. -/
def Artifact.placeIn (F : Place) (a : Artifact) : Place :=
  F ++ [(Naming.splitIdentifier a.identifier).2 ++ "." ++ Naming.artifactExtension]

/-- Files were set where units lie in a folder, none of them in place of a folder, and nothing else
was changed. -/
structure Disk.Gains (F : Place) (units : List Artifact) (d e : Disk) : Prop where
  troubles : e.troubles = d.troubles
  regular : e.calm.Regular
  current : e.current = d.current
  entry? : ∀ Q, e.entry? Q = d.entry? Q ∨
    (∃ a ∈ units, Q = a.placeIn F) ∧ d.entry? Q ≠ some .folder ∧ e.HasFile Q

namespace Disk.Gains

theorem of_same (h : Same d.calm e.calm) (htroubles : e.troubles = d.troubles)
    (he : e.calm.Regular) : Gains F units d e :=
  ⟨htroubles, he, h.current, fun Q => .inl (h.entry? Q)⟩

theorem refl (h : d.calm.Regular) : Gains F units d d := of_same .refl rfl h

theorem trans (h : Gains F units d d₁) (h' : Gains F units d₁ e) : Gains F units d e := by
  refine ⟨h'.troubles.trans h.troubles, h'.regular, h'.current.trans h.current, fun Q => ?_⟩
  rcases h'.entry? Q with hQ | ⟨hunit, hfree, hfile⟩
  · rcases h.entry? Q with hold | ⟨hunit, hfree, hfile⟩
    · exact .inl (hQ.trans hold)
    · refine .inr ⟨hunit, hfree, ?_⟩
      rwa [HasFile, hQ]
  · rcases h.entry? Q with hold | ⟨-, hfree', -⟩
    · exact .inr ⟨hunit, hold ▸ hfree, hfile⟩
    · exact .inr ⟨hunit, hfree', hfile⟩

theorem mono {units' : List Artifact} (h : Gains F units d e) (hsub : units ⊆ units') :
    Gains F units' d e := by
  refine ⟨h.troubles, h.regular, h.current, fun Q => (h.entry? Q).imp_right ?_⟩
  rintro ⟨⟨a, ha, hQ⟩, hrest⟩
  exact ⟨⟨a, hsub ha, hQ⟩, hrest⟩

theorem sameFolders (h : Gains F units d e) : SameFolders d e := by
  refine ⟨h.current, fun Q => ?_⟩
  rcases h.entry? Q with hQ | ⟨-, hfree, content, x, hfile⟩
  · rw [hQ]
  · rw [hfile]
    exact ⟨fun hno => (by cases hno), fun hno => absurd hno hfree⟩

end Disk.Gains

/-- Storing the unit of a namespace sets at most its file in the folder of the namespace. -/
theorem Artifact.gains_write {r : Except ArtifactError Path} (hd : d.calm.Regular)
    (hF : d.place? (Naming.folder root base) = .ok F) (hfolder : d.entry? F = some .folder)
    (hbase : (Naming.splitIdentifier a.identifier).1 = base)
    (hslash : '/' ∉ (Naming.splitIdentifier a.identifier).2.toList)
    (hw : a.write d root = (r, e)) : Gains F [a] d e ∧
      ∀ path, r = .ok path → ∃ x, e.entry? (a.placeIn F) = some (.file (Text.encode a.text) x) := by
  have hn : Path.IsName ((Naming.splitIdentifier a.identifier).2 ++ "." ++
      Naming.artifactExtension) := Naming.isName_fileName hslash (by decide) (by decide)
  obtain ⟨made, d₁, hmake, hcases⟩ := write_cases hw
  rw [Naming.artifactPath] at hmake hcases
  dsimp only at hmake hcases
  rw [hbase] at hmake hcases
  generalize hname : (Naming.splitIdentifier a.identifier).2 ++ "." ++ Naming.artifactExtension = n
    at hmake hcases hn
  have hplace : a.placeIn F = F ++ [n] := by rw [placeIn, hname]
  obtain ⟨htroubles, h₁, hsame⟩ := makeFolders_parent_tried hd hn hF hfolder hmake
  have hmade : Gains F [a] d d₁ := .of_same hsame htroubles h₁
  rcases hcases with ⟨-, ⟨err, rfl⟩, rfl⟩ | ⟨-, written, hwrite, hcases⟩
  · exact ⟨hmade, fun path hno => (by cases hno)⟩
  have hok : ∀ path, r = .ok path → written = .ok () := by
    rintro path rfl
    rcases hcases with ⟨hok, -⟩ | ⟨-, err, hno⟩
    · exact hok
    · cases hno
  obtain ⟨htroubles', h₂, ⟨hfailed, hsame'⟩ | ⟨P, k, x, hP, hfree, hsets, hwhole⟩⟩ :=
    sets_write h₁ hwrite
  · exact ⟨hmade.trans (.of_same hsame' htroubles' h₂),
      fun path hr => absurd (hok path hr) hfailed⟩
  · obtain ⟨G, hG, -, rfl⟩ := place?_join hn (place?_eq_ok_iff.mp hF).1.ne_empty hP
    obtain rfl : F = G := Except.ok.inj (hF.symm.trans (hmade.sameFolders.place?.mp hG))
    have hfile : e.entry? (a.placeIn F) = some (.file ((Text.encode a.text).extract 0 k) x) := by
      rw [hplace]
      exact (hsets.entry? _).trans (if_pos rfl)
    refine ⟨hmade.trans ⟨htroubles', h₂, hsets.current, fun Q => ?_⟩, fun path hr => ?_⟩
    · by_cases hQ : Q = a.placeIn F
      · subst hQ
        exact .inr ⟨⟨a, List.mem_singleton_self a, rfl⟩, hplace ▸ hfree, _, x, hfile⟩
      · rw [hplace] at hQ
        exact .inl ((hsets.entry? Q).trans (if_neg hQ))
    · exact ⟨x, hwhole (hok path hr) ▸ hfile⟩

namespace Builtin

/-- Storing units of one namespace that have different names sets at most their files. -/
theorem gains_writeAll {r : Except CompileError (List Path)} (hd : d.calm.Regular)
    (hF : d.place? (Naming.folder root base) = .ok F) (hfolder : d.entry? F = some .folder)
    (hbase : ∀ a ∈ units, (Naming.splitIdentifier a.identifier).1 = base)
    (hslash : ∀ a ∈ units, '/' ∉ (Naming.splitIdentifier a.identifier).2.toList)
    (hnodup : (units.map (Artifact.placeIn F)).Nodup) (hw : writeAll root units d = (r, e)) :
    Gains F units d e ∧ ∀ written, r = .ok written →
      ∀ a ∈ units, ∃ x, e.entry? (a.placeIn F) = some (.file (Text.encode a.text) x) := by
  induction units generalizing d r with
  | nil =>
    cases hw
    exact ⟨.refl hd, by simp⟩
  | cons a rest ih =>
    rw [List.map_cons, List.nodup_cons] at hnodup
    rw [writeAll] at hw
    rcases ha : a.write d root with ⟨stored, d₁⟩
    obtain ⟨hfirst, hwhole⟩ := Artifact.gains_write hd hF hfolder (hbase a List.mem_cons_self)
      (hslash a List.mem_cons_self) ha
    have hhead : Gains F (a :: rest) d d₁ := hfirst.mono (by simp)
    rw [ha] at hw
    rcases stored with err | path
    · cases hw
      exact ⟨hhead, fun written hno => (by cases hno)⟩
    dsimp only at hw
    rcases hrest : writeAll root rest d₁ with ⟨more, d₂⟩
    rw [hrest] at hw
    obtain ⟨he, hok⟩ : e = d₂ ∧ ∀ written, r = .ok written → ∃ paths, more = .ok paths := by
      cases more <;> cases hw
      · exact ⟨rfl, fun written hno => (by cases hno)⟩
      · exact ⟨rfl, fun _ _ => ⟨_, rfl⟩⟩
    subst he
    obtain ⟨htail, hall⟩ := ih hfirst.regular (hfirst.sameFolders.place?.mpr hF)
      ((hfirst.sameFolders.folder F).mpr hfolder)
      (fun b hb => hbase b (List.mem_cons_of_mem a hb))
      (fun b hb => hslash b (List.mem_cons_of_mem a hb)) hnodup.2 hrest
    refine ⟨hhead.trans (htail.mono (List.subset_cons_self a rest)), fun written hr b hb => ?_⟩
    obtain ⟨paths, hmore⟩ := hok written hr
    rcases List.mem_cons.mp hb with rfl | hb
    · -- the other units have other names, so the file stays as it was written
      obtain ⟨x, hx⟩ := hwhole path rfl
      refine ⟨x, ?_⟩
      rcases htail.entry? (b.placeIn F) with hsame | ⟨⟨c, hc, hplace⟩, -⟩
      · rw [hsame, hx]
      · exact absurd (List.mem_map.mpr ⟨c, hc, hplace.symm⟩) hnodup.1
    · exact hall paths hmore b hb

end Builtin

/-! ### Compiling -/

namespace Source

/-- A source without a point in its name that declares no package but a certain one. -/
structure BelongsTo (d : Disk) (base : String) (s : Source) : Prop where
  no_point : '.' ∉ s.name.toList
  package : ∀ text x, d.readText s.path = .ok text → Declaration.ofText text.toList = .ok x →
    ∀ package ∈ x.package?, package.text = base

/-- A unit with the namespace, the name and the hash of a source. -/
def IsUnit (d : Disk) (base : String) (s : Source) (a : Artifact) : Prop :=
  a.identifier = base ++ "." ++ s.name ∧
    ∃ text, d.readText s.path = .ok text ∧ a.sourceHash = (ContentHash.ofText text).hex

theorem BelongsTo.isUnit {x : CheckedUnit} (h : s.BelongsTo d base) (scope : Link.Scope)
    (hok : Check.ofPath d s.path = .ok x) : s.IsUnit d base (Link.linked scope x) := by
  obtain ⟨text, x, htext, hx, hproper, rfl⟩ := Check.ofPath_eq_ok_iff.mp hok
  obtain ⟨package, hpackage, -⟩ := hproper.package
  refine ⟨?_, text, htext, rfl⟩
  show x.package?.elim "" Toml.Marked.text ++ "." ++ s.path.stem = _
  rw [hpackage, Option.elim_some, h.package text x htext hx package hpackage]
  rfl

theorem IsUnit.splitIdentifier (h : s.IsUnit d base a) (hs : s.BelongsTo d base) :
    Naming.splitIdentifier a.identifier = (base, s.name) := by
  rw [h.1, Naming.splitIdentifier_append hs.no_point]

theorem IsUnit.placeIn_eq (h : s.IsUnit d base a) (hs : s.BelongsTo d base) :
    a.placeIn F = F ++ [s.name ++ "." ++ Naming.artifactExtension] := by
  rw [Artifact.placeIn, h.splitIdentifier hs]

/-- Units of one namespace that have different identifiers have different places. -/
theorem nodup_placeIn (hof : ∀ a ∈ units, ∃ s ∈ sources, s.IsUnit d base a)
    (hsources : ∀ s ∈ sources, s.BelongsTo d base) (hnodup : (units.map (·.identifier)).Nodup) :
    (units.map (Artifact.placeIn F)).Nodup := by
  refine (List.Nodup.of_map _ hnodup).map_on fun a ha b hb heq => ?_
  refine List.inj_on_of_nodup_map hnodup ha hb ?_
  obtain ⟨s, hs, hsa⟩ := hof a ha
  obtain ⟨t, ht, htb⟩ := hof b hb
  rw [hsa.placeIn_eq (hsources s hs), htb.placeIn_eq (hsources t ht),
    List.append_cancel_left_eq, List.singleton_inj, String.append_assoc,
    String.append_assoc] at heq
  rw [hsa.1, htb.1, Naming.append_left_injective heq]

end Source

/-- Above the folder of a namespace there is the folder that it was made for. -/
theorem Disk.hasFolder_root (ht : d.calm.IsTree) (hbase : Naming.isNamespace base = true)
    (hF : d.place? (Naming.folder root base) = .ok F) (hfolder : d.entry? F = some .folder) :
    d.HasFolder root := by
  by_cases hroot : root.text = ""
  · exact .inl (Path.isEmpty_iff.mpr hroot)
  have hslash := Naming.not_mem_of_isNamespace (c := '/') (by decide) (by decide) hbase
  have hne := Naming.segments_ne_nil (Naming.ne_nil_of_isNamespace hbase)
  rw [Naming.folder_eq_below] at hF
  obtain ⟨R, hR, rfl⟩ := place?_below (fun _ hn => Naming.isName_segment hslash hn) hne hroot hF
  have hthere : d.calm.entry? (R ++ Naming.segments base) ≠ none := by
    rw [entry?_calm, hfolder]
    exact Option.some_ne_none _
  exact .inr ⟨R, hR, ht.above hne hthere⟩

/-- The sources of a namespace are compiled into its folder. Their units are all that is set there,
and they are all set if nothing is wrong and nothing fails. -/
theorem Builtin.gains_compile (cp : ClassPath) (hd : d.calm.Regular)
    (hbase : Naming.isNamespace base = true) (hF : d.place? (Naming.folder root base) = .ok F)
    (hfolder : d.entry? F = some .folder) (hsources : ∀ s ∈ sources, s.BelongsTo d base) : ∃ units,
      Gains F units d (compile d sources cp root).disk ∧
      (∀ a ∈ units, ∃ s ∈ sources, s.IsUnit d base a) ∧
      ∀ o, (compile d sources cp root).outcome = .ok o → o.diagnostics = [] →
        ∀ s ∈ sources, ∃ a ∈ units, s.IsUnit d base a ∧
          ∃ x, (compile d sources cp root).disk.entry? (a.placeIn F) =
            some (.file (Text.encode a.text) x) := by
  rcases hcheck : checkAll d sources with ⟨batch, found⟩
  simp only [compile, hcheck]
  cases hall : found ++ Link.problems (.of d cp batch) batch with
  | cons problem rest =>
    refine ⟨[], .refl hd, by simp, fun o ho hclean => ?_⟩
    cases ho
    have hlength := congrArg List.length hclean
    rw [List.length_mergeSort] at hlength
    cases hlength
  | nil =>
    obtain ⟨rfl, hlinks⟩ := List.append_eq_nil_iff.mp hall
    have hchecked := forall₂_of_checkAll hcheck
    have hnodup := Link.identifiers_nodup hlinks
    generalize hunits : batch.map (Link.linked (.of d cp batch)) = units at hnodup
    have hof : ∀ a ∈ units, ∃ s ∈ sources, s.IsUnit d base a := by
      intro a ha
      rw [← hunits] at ha
      obtain ⟨x, hx, rfl⟩ := List.mem_map.mp ha
      obtain ⟨s, hs, hsx⟩ := exists_of_forall₂_right hchecked x hx
      exact ⟨s, hs, (hsources s hs).isUnit _ hsx⟩
    have hsplit : ∀ a ∈ units, ∃ s ∈ sources,
        Naming.splitIdentifier a.identifier = (base, s.name) := by
      intro a ha
      obtain ⟨s, hs, hsa⟩ := hof a ha
      exact ⟨s, hs, hsa.splitIdentifier (hsources s hs)⟩
    have hplaces := Source.nodup_placeIn (F := F) hof hsources hnodup
    rcases hmake : d.makeFolders root with ⟨made, d₁⟩
    obtain ⟨htroubles, h₁, hsame⟩ := (hasFolder_root hd.tree hbase hF hfolder).makeFolders hd hmake
    have hmade : Gains F units d d₁ := .of_same hsame htroubles h₁
    rcases made with err | ⟨⟩
    · exact ⟨units, hmade, hof, fun o hno => (by cases hno)⟩
    dsimp only
    rcases hwrite : writeAll root units d₁ with ⟨stored, d₂⟩
    obtain ⟨hgains, hstored⟩ := gains_writeAll h₁ (hmade.sameFolders.place?.mpr hF)
      ((hmade.sameFolders.folder F).mpr hfolder)
      (fun a ha => by obtain ⟨s, -, hs⟩ := hsplit a ha; rw [hs])
      (fun a ha => by obtain ⟨s, -, hs⟩ := hsplit a ha; rw [hs]; exact s.path.no_slash_stem)
      hplaces hwrite
    rcases stored with err | written
    · exact ⟨units, hmade.trans hgains, hof, fun o hno => (by cases hno)⟩
    · refine ⟨units, hmade.trans hgains, hof, fun o _ _ s hs => ?_⟩
      obtain ⟨x, hx, hsx⟩ := exists_of_forall₂_left hchecked s hs
      have ha : Link.linked (.of d cp batch) x ∈ units := by
        rw [← hunits]
        exact List.mem_map_of_mem hx
      exact ⟨_, ha, (hsources s hs).isUnit _ hsx, hstored written rfl _ ha⟩

/-! ### The pass -/

/-- Where only the missing units of some sources are set, nothing was before. -/
theorem Disk.Gains.added (h : Gains F units d e) (hF : d.place? folder = .ok F)
    (hof : ∀ a ∈ units, ∃ s ∈ sources, s.IsUnit d base a)
    (hsources : ∀ s ∈ sources, s.BelongsTo d base)
    (hmissing : ∀ s ∈ sources, ¬d.HasUnit folder s.name) (hQ : e.entry? Q ≠ d.entry? Q) :
    d.entry? Q = none ∧
      ∃ s ∈ sources, Q = F ++ [s.name ++ "." ++ Naming.artifactExtension] := by
  obtain ⟨⟨a, ha, rfl⟩, hfree, -⟩ := (h.entry? Q).resolve_left hQ
  obtain ⟨s, hs, hsa⟩ := hof a ha
  rw [hsa.placeIn_eq (hsources s hs)] at hfree ⊢
  refine ⟨?_, s, hs, rfl⟩
  -- a file there would be the unit that is missing
  cases hentry : d.entry? (F ++ [s.name ++ "." ++ Naming.artifactExtension]) with
  | none => rfl
  | some entry =>
    cases entry with
    | folder => exact absurd hentry hfree
    | file content x => exact absurd ⟨F, hF, content, x, hentry⟩ (hmissing s hs)

/-- Sources are listed under the same names after units were set in their folder. -/
theorem Disk.Gains.exists_source (h : Gains F units d e) (hd : d.calm.Regular)
    (hshows : d.Shows F) (hF : d.place? folder = .ok F) (hs : s ∈ Source.scanFolder e folder) :
    ∃ t ∈ Source.scanFolder d folder, t.name = s.name := by
  obtain ⟨q, hq, rfl⟩ := List.mem_map.mp hs
  obtain ⟨n, rfl, hplace, hfile, hext⟩ := ((hshows.of_troubles h.troubles).mem_listed h.regular
    (h.sameFolders.place?.mpr hF)).mp hq
  refine ⟨Source.scan d (folder.join ⟨n⟩), List.mem_map_of_mem ((hshows.mem_listed hd hF).mpr
    ⟨n, rfl, h.sameFolders.place?.mp hplace, ?_, hext⟩), rfl⟩
  rcases h.entry? (F ++ [n]) with hsame | ⟨⟨a, -, hunit⟩, -⟩
  · rwa [HasFile, ← hsame]
  · -- a name with the extension of sources is not that of a unit
    obtain rfl := List.singleton_inj.mp (List.append_cancel_left hunit)
    exact absurd (Path.ext_of_cutName (by decide) hext) (by decide)

namespace Pass

/-- Compiles nothing. -/
def idle (d : Disk) (folder : Path) : Compiled :=
  ⟨.ok {}, d, [quietNote "compile" ("nothing stale in " ++ folder.text)]⟩

/-- The missing units of a folder were compiled. -/
structure Completes (d : Disk) (base : String) (folder root : Path) (cp : ClassPath)
    (x : Compiled) : Prop where
  /-- The compiler gets the sources without a unit, or it is not run at all. -/
  handed : ∃ sources, sources.Sublist (Source.scanFolder d folder) ∧
    (∀ s ∈ Source.scanFolder d folder, s ∈ sources ↔ ¬d.HasUnit folder s.name) ∧
    x = if sources = [] then idle d folder else compile .builtin d sources cp root
  /-- Whatever comes of it, all that was there stays as it was. -/
  kept : ∀ Q, d.entry? Q ≠ none → x.disk.entry? Q = d.entry? Q
  /-- Only units of those sources are added. -/
  added : ∀ Q, x.disk.entry? Q ≠ d.entry? Q → ∃ s ∈ Source.scanFolder d folder,
    ¬d.HasUnit folder s.name ∧ ∃ F, d.place? folder = .ok F ∧
      Q = F ++ [s.name ++ "." ++ Naming.artifactExtension]
  /-- When all is well every source has a unit. -/
  full : ∀ o, x.outcome = .ok o → o.diagnostics = [] →
    ∀ s ∈ Source.scanFolder d folder, x.disk.HasUnit folder s.name
  /-- When all is well the units that were missing are those of their sources. -/
  stored : ∀ o, x.outcome = .ok o → o.diagnostics = [] →
    ∀ s ∈ Source.scanFolder d folder, ¬d.HasUnit folder s.name → ∃ F a y,
      d.place? folder = .ok F ∧ s.IsUnit d base a ∧
        x.disk.entry? (F ++ [s.name ++ "." ++ Naming.artifactExtension]) =
          some (.file (Text.encode a.text) y)
  /-- When all is well there is nothing left to do. -/
  settled : ∀ o, x.outcome = .ok o → o.diagnostics = [] →
    ∀ cp, compileStale .builtin x.disk folder cp root = idle x.disk folder

theorem compileStale_eq (tool : Tool) (d : Disk) (folder : Path) (cp : ClassPath) (root : Path) :
    compileStale tool d folder cp root =
      if stale d folder = [] then idle d folder else compile tool d (stale d folder) cp root := by
  simp only [compileStale, List.isEmpty_iff]
  rfl

theorem compile_builtin (d : Disk) (cp : ClassPath) (root : Path) (h : sources ≠ []) :
    (compile .builtin d sources cp root).outcome =
        (Builtin.compile d sources cp root).outcome ∧
      (compile .builtin d sources cp root).disk = (Builtin.compile d sources cp root).disk := by
  rw [compile, if_neg (by simpa using h)]
  exact ⟨rfl, rfl⟩

/-- A pass over a folder whose sources all have units. -/
theorem completes_idle (hd : d.calm.Regular) (hshows : ∀ F, d.place? folder = .ok F → d.Shows F)
    (hstale : stale d folder = []) : Completes d base folder root cp (idle d folder) := by
  have hall : ∀ s ∈ Source.scanFolder d folder, d.HasUnit folder s.name := by
    intro s hs
    by_contra hno
    have hmem := (mem_stale hd hshows).mpr ⟨hs, hno⟩
    rw [hstale] at hmem
    cases hmem
  refine ⟨⟨[], List.nil_sublist _, fun s hs => ?_, (if_pos rfl).symm⟩, fun _ _ => rfl,
    fun Q hQ => absurd rfl hQ, fun _ _ _ => hall, fun _ _ _ s hs hno => absurd (hall s hs) hno,
    fun _ _ _ cp => ?_⟩
  · simp [hall s hs]
  · rw [compileStale_eq]
    exact if_pos hstale

/-- A pass over a folder in which some sources have no unit. -/
theorem completes_of_gains {x : Compiled} (hd : d.calm.Regular)
    (hshows : ∀ F, d.place? folder = .ok F → d.Shows F) (hF : d.place? folder = .ok F)
    (hsources : ∀ s ∈ Source.scanFolder d folder, s.BelongsTo d base)
    (hx : compileStale .builtin d folder cp root = x) (hgains : Gains F units d x.disk)
    (hof : ∀ a ∈ units, ∃ s ∈ stale d folder, s.IsUnit d base a)
    (hclean : ∀ o, x.outcome = .ok o → o.diagnostics = [] → ∀ s ∈ stale d folder, ∃ a ∈ units,
      s.IsUnit d base a ∧ ∃ y, x.disk.entry? (a.placeIn F) = some (.file (Text.encode a.text) y)) :
    Completes d base folder root cp x := by
  have hmem (s : Source) := mem_stale (s := s) hd hshows
  have hshown := hshows F hF
  have hF' : x.disk.place? folder = .ok F := hgains.sameFolders.place?.mpr hF
  have hadded {Q : Place} (hQ : x.disk.entry? Q ≠ d.entry? Q) :=
    hgains.added hF hof (fun s hs => hsources s ((hmem s).mp hs).1)
      (fun s hs => ((hmem s).mp hs).2) hQ
  have hkept : ∀ Q, d.entry? Q ≠ none → x.disk.entry? Q = d.entry? Q := fun Q hQ =>
    not_imp_comm.mp (fun hchanged => (hadded hchanged).1) hQ
  have hstored : ∀ o, x.outcome = .ok o → o.diagnostics = [] →
      ∀ s ∈ Source.scanFolder d folder, ¬d.HasUnit folder s.name → ∃ F a y,
        d.place? folder = .ok F ∧ s.IsUnit d base a ∧
          x.disk.entry? (F ++ [s.name ++ "." ++ Naming.artifactExtension]) =
            some (.file (Text.encode a.text) y) := by
    intro o ho hnone s hs hmissing
    obtain ⟨a, -, hsa, y, hentry⟩ := hclean o ho hnone s ((hmem s).mpr ⟨hs, hmissing⟩)
    exact ⟨F, a, y, hF, hsa, hsa.placeIn_eq (hsources s hs) ▸ hentry⟩
  have hfull : ∀ o, x.outcome = .ok o → o.diagnostics = [] →
      ∀ s ∈ Source.scanFolder d folder, x.disk.HasUnit folder s.name := by
    intro o ho hnone s hs
    by_cases hold : d.HasUnit folder s.name
    · obtain ⟨G, hG, content, y, hfile⟩ := hold
      refine ⟨G, hgains.sameFolders.place?.mpr hG, content, y, ?_⟩
      rw [hkept _ (by rw [hfile]; exact Option.some_ne_none _), hfile]
    · obtain ⟨G, a, y, hG, -, hentry⟩ := hstored o ho hnone s hs hold
      exact ⟨G, hgains.sameFolders.place?.mpr hG, _, y, hentry⟩
  refine ⟨⟨stale d folder, List.filter_sublist, fun s hs => (hmem s).trans (and_iff_right hs),
    hx.symm.trans (compileStale_eq .builtin d folder cp root)⟩, hkept, fun Q hQ => ?_, hfull,
    hstored, fun o ho hnone cp => ?_⟩
  · obtain ⟨-, s, hs, hplace⟩ := hadded hQ
    obtain ⟨hscanned, hmissing⟩ := (hmem s).mp hs
    exact ⟨s, hscanned, hmissing, F, hF, hplace⟩
  · rw [compileStale_eq]
    refine if_pos (List.eq_nil_iff_forall_not_mem.mpr fun s hs => ?_)
    have hshows' : ∀ G, x.disk.place? folder = .ok G → x.disk.Shows G := by
      intro G hG
      obtain rfl : F = G := Except.ok.inj (hF'.symm.trans hG)
      exact hshown.of_troubles hgains.troubles
    obtain ⟨hscanned, hmissing⟩ := (mem_stale hgains.regular hshows').mp hs
    obtain ⟨t, ht, hname⟩ := hgains.exists_source hd hshown hF hscanned
    exact hmissing (hname ▸ hfull o ho hnone t ht)

/-- Compiling the missing units of a folder changes nothing that was there, and if all is well
it is complete. -/
theorem compileStale_completes (ht : d.IsTree) (hbase : Naming.isNamespace base = true)
    (hshows : ∀ F, d.place? (Naming.folder root base) = .ok F → d.Shows F)
    (hsources : ∀ s ∈ Source.scanFolder d (Naming.folder root base), s.BelongsTo d base) :
    Completes d base (Naming.folder root base) root cp
      (compileStale .builtin d (Naming.folder root base) cp root) := by
  have hd := ht.regular_calm
  by_cases hstale : stale d (Naming.folder root base) = []
  · rw [compileStale_eq, if_pos hstale]
    exact completes_idle hd hshows hstale
  have hscanned : ∀ s ∈ stale d (Naming.folder root base),
      s ∈ Source.scanFolder d (Naming.folder root base) := fun s hs => (List.mem_filter.mp hs).1
  obtain ⟨first, hfirst⟩ := List.exists_mem_of_ne_nil _ hstale
  obtain ⟨F, hF, hfolder⟩ := Source.folder_of_mem_scanFolder (hscanned first hfirst)
  obtain ⟨units, hgains, hof, hclean⟩ := Builtin.gains_compile cp hd hbase hF hfolder
    fun s hs => hsources s (hscanned s hs)
  obtain ⟨houtcome, hdisk⟩ := compile_builtin d cp root hstale
  rw [← houtcome, ← hdisk] at hclean
  rw [← hdisk] at hgains
  have hx := (compileStale_eq .builtin d _ cp root).trans (if_neg hstale)
  rw [hx]
  exact completes_of_gains hd hshows hF hsources hx hgains hof hclean

/-- A folder of two sources, one of them with a unit beside it. -/
def halfCompiled : Disk where
  entries := [
    (["items"], .folder),
    (["items", "p"], .folder),
    (["items", "p", "A.rule"], .file (Text.encode "package=\"p\"") false),
    (["items", "p", "A.unit"], .file (Text.encode "old") false),
    (["items", "p", "B.rule"], .file (Text.encode "package=\"p\"") false)]

/-- What the missing unit is compiled to. -/
def completed : Compiled :=
  compileStale .builtin halfCompiled (Naming.folder ⟨"items"⟩ "p") [] ⟨"items"⟩

theorem compileStale_completes_half :
    completed.disk.entry? ["items", "p", "A.unit"] = some (.file (Text.encode "old") false) ∧
    completed.disk.HasUnit ⟨"items/p"⟩ "B" ∧
    compileStale .builtin completed.disk ⟨"items/p"⟩ [] ⟨"items"⟩ =
      idle completed.disk ⟨"items/p"⟩ := by
  have htree : halfCompiled.IsTree := .of_entries (by decide +kernel) (by decide +kernel)
  have hfolder : Naming.folder ⟨"items"⟩ "p" = ⟨"items/p"⟩ := by decide +kernel
  have hsources : ∀ s ∈ Source.scanFolder halfCompiled (Naming.folder ⟨"items"⟩ "p"),
      s.BelongsTo halfCompiled "p" := by
    have hread : ∀ s ∈ Source.scanFolder halfCompiled (Naming.folder ⟨"items"⟩ "p"),
        '.' ∉ s.name.toList ∧ ((halfCompiled.readText s.path).toOption.bind fun text =>
          (Declaration.ofText text.toList).toOption.map fun x =>
            x.package?.map Toml.Marked.text) = some (some "p") := by
      decide +kernel
    intro s hs
    obtain ⟨hpoint, hpackage⟩ := hread s hs
    refine ⟨hpoint, fun text x htext hx package hmem => ?_⟩
    rw [htext, Except.toOption, Option.bind_some, hx] at hpackage
    simpa [Except.toOption, Option.mem_def.mp hmem] using hpackage
  have hcompletes : Completes halfCompiled "p" (Naming.folder ⟨"items"⟩ "p") ⟨"items"⟩ []
      completed :=
    compileStale_completes htree (by decide) (fun _ _ => ⟨fun _ _ _ => rfl, fun _ _ _ => rfl⟩)
      hsources
  rw [hfolder] at hcompletes
  obtain ⟨o, ho, hclean⟩ := CompileError.exists_clean (x := completed.outcome) (by decide +kernel)
  have hB : ∃ s ∈ Source.scanFolder halfCompiled ⟨"items/p"⟩, s.name = "B" := by decide +kernel
  have hold : halfCompiled.entry? ["items", "p", "A.unit"] =
      some (.file (Text.encode "old") false) := by decide +kernel
  obtain ⟨s, hs, hname⟩ := hB
  refine ⟨?_, hname ▸ hcompletes.full o ho hclean s hs, hcompletes.settled o ho hclean []⟩
  rw [hcompletes.kept _ (by rw [hold]; exact Option.some_ne_none _), hold]

end Pass

end LiveRules
