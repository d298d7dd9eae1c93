import LiveRules.Proofs.Compile.Batches
import LiveRules.Proofs.Files.Troubles

/-!
A pass over rules stays in its folder. Whatever comes of it and whatever fails, nothing changes but
units below the folder of rule units, and folders on the way to these, whose names have no point.
-/

namespace LiveRules

open Disk

variable {d d' e : Disk} {R Q P : Place} {root p : Path} {names : List String} {c : Config}

namespace Disk

/-- What may change below a folder while units are stored and removed there. -/
def IsUnitOrWay (names : List String) : Prop :=
  names ≠ [] ∧ (IsUnitName names ∨ ∀ name ∈ names, '.' ∉ name.toList)

/-- Nothing changed outside a folder, and in it only units and folders on the way to units. -/
structure Confined (R : Place) (d e : Disk) : Prop where
  regular : e.Regular
  current : e.current = d.current
  folder : ∀ Q, d.entry? Q = some .folder → e.entry? Q = some .folder
  made : ∀ Q, e.entry? Q = some .folder → d.entry? Q = some .folder ∨
    ∃ names, names ≠ [] ∧ (∀ name ∈ names, '.' ∉ name.toList) ∧ Q = R ++ names
  entry? : ∀ Q, e.entry? Q = d.entry? Q ∨ ∃ names, IsUnitOrWay names ∧ Q = R ++ names

theorem Confined.place? (h : Confined R d e) (hp : d.place? p = .ok P) : e.place? p = .ok P :=
  place?_mono h.current h.folder hp

theorem Same.confined (h : Same d e) (he : e.Regular) : Confined R d e where
  regular := he
  current := h.current
  folder := fun Q hQ => (h.entry? Q).trans hQ
  made := fun Q hQ => .inl ((h.entry? Q).symm.trans hQ)
  entry? := fun Q => .inl (h.entry? Q)

theorem Confined.trans (h : Confined R d d') (h' : Confined R d' e) : Confined R d e := by
  refine ⟨h'.regular, h'.current.trans h.current, fun Q hQ => h'.folder Q (h.folder Q hQ),
    fun Q hQ => ?_, fun Q => ?_⟩
  · rcases h'.made Q hQ with hold | hway
    · exact h.made Q hold
    · exact .inr hway
  · rcases h'.entry? Q with hQ | hway
    · rw [hQ]
      exact h.entry? Q
    · exact .inr hway

/-- Storing or removing one file that is named like a unit. -/
theorem Sets.confined {o : Option Entry} (h : Sets (R ++ names) o d e) (he : e.Regular)
    (hfree : d.entry? (R ++ names) ≠ some .folder) (ho : o ≠ some .folder)
    (hnames : IsUnitOrWay names) : Confined R d e := by
  refine ⟨he, h.current, fun Q => h.folder hfree,
    fun Q hQ => .inl (((h.sameFolders hfree ho).folder Q).mp hQ), fun Q => ?_⟩
  by_cases hQ : Q = R ++ names
  · exact .inr ⟨names, hnames, hQ⟩
  · rw [h.entry?, if_neg hQ]
    exact .inl rfl

theorem OnTheWay.confined (h : OnTheWay R names d e) (he : e.Regular) (hgrown : Grown d e)
    (hnames : ∀ name ∈ names, '.' ∉ name.toList) : Confined R d e := by
  refine ⟨he, hgrown.current, fun Q => hgrown.folder, fun Q hfolder => ?_, fun Q => ?_⟩ <;>
    rcases h Q with hQ | ⟨front, hne, hfront, hQ⟩
  · exact .inl (hQ ▸ hfolder)
  · exact .inr ⟨front, hne, fun name hname => hnames name (hfront.subset hname), hQ⟩
  · exact .inl hQ
  · exact .inr ⟨front, ⟨hne, .inr fun name hname => hnames name (hfront.subset hname)⟩, hQ⟩

/-- What is not below the folder stays. -/
theorem Confined.outside (h : Confined R d e) (hQ : ¬R <+: Q) : e.entry? Q = d.entry? Q := by
  rcases h.entry? Q with hsame | ⟨names, -, rfl⟩
  · exact hsame
  · exact absurd (List.prefix_append R names) hQ

/-- No folder is made whose name has a point. -/
theorem Confined.folder_pointed {n : String} {F : Place} (h : Confined R d e)
    (hpoint : '.' ∈ n.toList) (hF : e.entry? (F ++ [n]) = some .folder) :
    d.entry? (F ++ [n]) = some .folder := by
  rcases h.made _ hF with hold | ⟨names, hne, hnames, hQ⟩
  · exact hold
  · have hlast := congrArg List.getLast? hQ
    rw [List.getLast?_concat, getLast?_append_of_ne hne] at hlast
    exact absurd hpoint (hnames n (List.mem_of_getLast? hlast.symm))

/-- Files with other extensions than that of units stay wherever they are. -/
theorem Confined.other {ext : String} {F : Place} (h : Confined R d e)
    (hends : endsWith names ext = true) (hext : ext ≠ Naming.artifactExtension) :
    e.entry? (F ++ names) = d.entry? (F ++ names) := by
  rcases h.entry? (F ++ names) with hsame | ⟨way, ⟨hne, hway⟩, hQ⟩
  · exact hsame
  · have hnames : names ≠ [] := by
      rintro rfl
      cases hends
    have hlast := congrArg List.getLast? hQ
    rw [getLast?_append_of_ne hnames, getLast?_append_of_ne hne] at hlast
    rcases hway with hunit | hway
    · obtain ⟨stem, hstem⟩ := hunit
      exact absurd ⟨stem, hlast.trans hstem⟩ (not_isUnitName (F := []) hnames hends hext)
    · cases hn : names.getLast? with
      | none => exact absurd (List.getLast?_eq_none_iff.mp hn) hnames
      | some n =>
        rw [endsWith, hn, Option.bind_some, beq_iff_eq] at hends
        have hpoint : '.' ∈ n.toList := by
          rw [Path.eq_of_cutName hends]
          simp [String.toList_append]
        exact absurd hpoint (hway n (List.mem_of_getLast? (hlast ▸ hn)))

end Disk

/-! ### Storing units -/

theorem Naming.isUnitName_names (identifier : String) : IsUnitName (Naming.names identifier) :=
  ⟨(splitIdentifier identifier).2, by rw [names, List.getLast?_concat]⟩

theorem Naming.isUnitOrWay_names (identifier : String) : IsUnitOrWay (Naming.names identifier) :=
  ⟨names_ne_nil, .inl (isUnitName_names identifier)⟩

theorem Naming.no_point_segments {base segment : String} (h : segment ∈ segments base) :
    '.' ∉ segment.toList := by
  obtain ⟨cs, hcs, rfl⟩ := List.mem_map.mp h
  rw [String.toList_ofList]
  exact Text.not_mem_of_mem_split (List.mem_filter.mp hcs).1

/-! ### Whatever fails -/

namespace Disk

/-- What was done on a disk stayed in a folder, whatever failed. -/
structure Stays (R : Place) (d e : Disk) : Prop where
  troubles : e.troubles = d.troubles
  confined : Confined R d.calm e.calm

theorem Stays.refl (h : d.calm.Regular) : Stays R d d := ⟨rfl, Same.refl.confined h⟩

theorem Stays.trans (h : Stays R d d') (h' : Stays R d' e) : Stays R d e :=
  ⟨h'.troubles.trans h.troubles, h.confined.trans h'.confined⟩

theorem Stays.regular (h : Stays R d e) : e.calm.Regular := h.confined.regular

theorem Stays.place? (h : Stays R d e) (hp : d.place? p = .ok P) : e.place? p = .ok P := by
  rw [← place?_calm] at hp ⊢
  exact h.confined.place? hp

theorem Stays.folder (h : Stays R d e) (hQ : d.entry? Q = some .folder) :
    e.entry? Q = some .folder :=
  h.confined.folder Q hQ

theorem Stays.hasFolder (h : Stays R d e) (hp : d.HasFolder p) : e.HasFolder p :=
  hp.mono h.confined.current fun _ => h.folder

/-- On a disk where nothing fails the troubles are out of the question. -/
theorem Stays.sound (h : Stays R d e) (hd : d.Sound) : Confined R d e := by
  have hconfined := h.confined
  rwa [hd.calm, (hd.of_troubles h.troubles).calm] at hconfined

theorem Tried.stays {op : FileOp} {calmly : Except OsError Unit × Disk} {r : Except OsError Unit}
    (h : Tried op p calmly d r e) (hd : d.calm.Regular)
    (hcalm : calmly = (r, e.calm) → Confined R d.calm e.calm) : Stays R d e :=
  ⟨h.troubles, h.elim hcalm (same_ticked.confined hd.ticked)⟩

/-- Making the folders that a file lies in below another folder. -/
theorem stays_makeFolders {n : String} {r : Except OsError Unit} (h : d.calm.Regular)
    (hnames : ∀ name ∈ names, Path.IsName name) (hpoint : ∀ name ∈ names, '.' ∉ name.toList)
    (hn : Path.IsName n) (hroot : d.place? root = .ok R) (hR : d.entry? R = some .folder)
    (hm : d.makeFolders ((below root (names ++ [n])).parent?.getD ⟨""⟩) = (r, e)) :
    Stays R d e := by
  have hempty := (place?_eq_ok_iff.mp hroot).1.ne_empty
  obtain ⟨q, hq, htrimmed⟩ := Path.exists_parent_join hn (text_below_ne_empty hnames hempty)
  have hbelow : below root (names ++ [n]) = (below root names).join ⟨n⟩ := below_append root names [n]
  rw [hbelow, hq, Option.getD_some, makeFolders] at hm
  refine makeChain_induct (motive := Stays R d) (fun p hp x r y hx hy => hx.trans ?_) (.refl h) hm
  rcases mem_ancestors_below hnames hroot hR htrimmed p hp with hfolder |
    ⟨front, hne, hbefore, rfl⟩
  · obtain ⟨htroubles, hy', hsame⟩ := (hx.hasFolder hfolder).makeFolder hx.regular hy
    exact ⟨htroubles, hsame.confined hy'⟩
  · have hfront := fun name hname => hnames name (hbefore.subset hname)
    refine (makeFolder_tried hy).stays hx.regular fun hcalm => ?_
    exact (onTheWay_makeFolder hx.regular hfront hne
      (place?_calm.trans (hx.place? hroot)) hcalm).confined (makeFolder_spec hx.regular hcalm).1
      (makeFolder_grown hcalm) fun name hname => hpoint name (hbefore.subset hname)

/-- Writing a file that is named like a unit, and be it in part. -/
theorem confined_write {content : Text.Bytes} {r : Except OsError Unit} (h : d.Regular)
    (hnames : ∀ name ∈ names, Path.IsName name) (hunit : IsUnitOrWay names)
    (hroot : d.place? root = .ok R) (hw : d.write (below root names) content = (r, e)) :
    Confined R d e := by
  obtain ⟨he, ⟨-, P, hP, hfree, hsets⟩ | ⟨-, -, hsame⟩⟩ := write_spec h hw
  · obtain ⟨F, hF, rfl⟩ := place?_below hnames hunit.1 (place?_eq_ok_iff.mp hroot).1.ne_empty hP
    obtain rfl : R = F := Except.ok.inj (hroot.symm.trans hF)
    exact hsets.confined he hfree (by simp) hunit
  · exact hsame.confined he

end Disk

/-- Storing a unit changes nothing elsewhere, even when it fails. -/
theorem Artifact.stays_write {a : Artifact} {r : Except ArtifactError Path} (h : d.calm.Regular)
    (hroot : d.place? root = .ok R) (hR : d.entry? R = some .folder)
    (hslash : '/' ∉ a.identifier.toList) (hw : a.write d root = (r, d')) : Stays R d d' := by
  have hnames := Naming.isName_names hslash
  obtain ⟨made, d₁, hmake, hcases⟩ := write_cases hw
  rw [Naming.artifactPath_eq_below] at hmake hcases
  have hmade : Stays R d d₁ := stays_makeFolders h
    (fun name hname => hnames name (List.mem_append_left _ hname))
    (fun name hname => Naming.no_point_segments hname) (hnames _ (by simp [Naming.names])) hroot hR
    hmake
  rcases hcases with ⟨-, -, rfl⟩ | ⟨-, written, hwrite, -⟩
  · exact hmade
  · have hconfined {content : Text.Bytes} {r : Except OsError Unit}
        (hw : d₁.calm.write (below root (Naming.names a.identifier)) content = (r, d'.calm)) :
        Confined R d₁.calm d'.calm :=
      Disk.confined_write hmade.regular hnames (Naming.isUnitOrWay_names _)
        (place?_calm.trans (hmade.place? hroot)) hw
    refine hmade.trans ?_
    rcases write_tried hwrite with htried | ⟨htroubles, -, -, part, -, -, -, -, htorn⟩
    · exact htried.stays hmade.regular hconfined
    · exact ⟨htroubles, hconfined htorn⟩

theorem Builtin.stays_writeAll {units : List Artifact} {r : Except CompileError (List Path)}
    (h : d.calm.Regular) (hroot : d.place? root = .ok R) (hR : d.entry? R = some .folder)
    (hslash : ∀ a ∈ units, '/' ∉ a.identifier.toList) (hw : writeAll root units d = (r, d')) :
    Stays R d d' := by
  induction units generalizing d d' r with
  | nil =>
    cases hw
    exact .refl h
  | cons a rest ih =>
    rw [writeAll] at hw
    rcases ha : a.write d root with ⟨written, d₁⟩
    have hfirst := Artifact.stays_write h hroot hR (hslash a List.mem_cons_self) ha
    rw [ha] at hw
    rcases written with err | path
    · cases hw
      exact hfirst
    · dsimp only at hw
      rcases hrest : writeAll root rest d₁ with ⟨more, d₂⟩
      have hmore := ih hfirst.regular (hfirst.place? hroot) (hfirst.folder hR)
        (fun b hb => hslash b (List.mem_cons_of_mem a hb)) hrest
      have hd' : d' = d₂ := by
        rw [hrest] at hw
        cases more <;> exact (congrArg Prod.snd hw).symm
      exact hd' ▸ hfirst.trans hmore

/-! ### Passes -/

namespace Pass

theorem stays_removeAll {paths : List Path} {r : Except CompileError Unit} (h : d.calm.Regular)
    (hroot : d.place? root = .ok R)
    (hpaths : ∀ p ∈ paths, ∃ names, p = below root names ∧ NamesUnit names ∧
      ∀ name ∈ names, Path.IsName name) (hr : removeAll d paths = (r, d')) : Stays R d d' := by
  induction paths generalizing d d' r with
  | nil =>
    cases hr
    exact .refl h
  | cons p rest ih =>
    rw [removeAll] at hr
    rcases hp : d.removeFile p with ⟨removed, d₁⟩
    have hfirst : Stays R d d₁ := by
      refine (removeFile_tried hp).stays h fun hcalm => ?_
      obtain ⟨h₁, ⟨-, P, content, x, hP, hx, hsets⟩ | ⟨-, -, hsame, -⟩⟩ := removeFile_spec h hcalm
      · obtain ⟨names, rfl, hunit, hnames⟩ := hpaths p List.mem_cons_self
        rw [place?_calm] at hP
        obtain ⟨F, hF, rfl⟩ :=
          place?_below hnames hunit.ne_nil (place?_eq_ok_iff.mp hroot).1.ne_empty hP
        obtain rfl : R = F := Except.ok.inj (hroot.symm.trans hF)
        exact hsets.confined h₁ (by simp [hx]) (by simp)
          ⟨hunit.ne_nil, .inl (hunit.isUnitName (F := []))⟩
      · exact hsame.confined h₁
    rw [hp] at hr
    rcases removed with err | ⟨⟩
    · cases hr
      exact hfirst
    · exact hfirst.trans (ih hfirst.regular (hfirst.place? hroot)
        (fun q hq => hpaths q (List.mem_cons_of_mem p hq)) hr)

theorem stays_removeUnits {r : Except CompileError Nat} (h : d.calm.Regular)
    (hroot : d.place? root = .ok R) (hr : removeUnits d root = (r, d')) : Stays R d d' := by
  rw [removeUnits] at hr
  rcases hall : removeAll d (d.collect root Naming.artifactExtension) with ⟨removed, d₁⟩
  have hremoved : Stays R d d₁ := by
    refine stays_removeAll h hroot (fun p hp => ?_) hall
    obtain ⟨F, names, -, hunit, hfile, rfl⟩ := (mem_collect_units h).mp (mem_collect_calm hp)
    exact ⟨names, rfl, hunit, isNames_of_hasFile h hfile⟩
  have hd' : d' = d₁ := by
    rw [hall] at hr
    cases removed <;> exact (congrArg Prod.snd hr).symm
  exact hd' ▸ hremoved

/-- The built-in compiler works in the folder that it stores units in. -/
theorem stays_compile {sources : List Source} {cp : ClassPath} (h : d.calm.Regular)
    (hroot : d.place? root = .ok R) (hR : d.entry? R = some .folder) :
    Stays R d (Builtin.compile d sources cp root).disk := by
  rcases hcheck : Builtin.checkAll d sources with ⟨batch, found⟩
  simp only [Builtin.compile, hcheck]
  cases hall : found ++ Link.problems (.of d cp batch) batch with
  | cons x rest => exact .refl h
  | nil =>
    obtain ⟨rfl, -⟩ := List.append_eq_nil_iff.mp hall
    rcases hmake : d.makeFolders root with ⟨made, d₁⟩
    obtain ⟨htroubles, h₁, hsame⟩ := HasFolder.makeFolders (.inr ⟨R, hroot, hR⟩) h hmake
    have hfirst : Stays R d d₁ := ⟨htroubles, hsame.confined h₁⟩
    have hslash : ∀ a ∈ batch.map (Link.linked (.of d cp batch)), '/' ∉ a.identifier.toList := by
      intro a ha
      obtain ⟨p, hp, rfl⟩ := List.mem_map.mp ha
      exact Builtin.no_slash_of_checkAll hcheck p hp
    rcases made with err | ⟨⟩
    · exact hfirst
    · dsimp only
      rcases hwrite : Builtin.writeAll root (batch.map (Link.linked (.of d cp batch))) d₁ with
        ⟨err | written, d₂⟩ <;>
      exact hfirst.trans (Builtin.stays_writeAll h₁ (hfirst.place? hroot) (hfirst.folder hR)
        hslash hwrite)

/-- A pass over rules works in the folder of the rule units. -/
theorem stays_compileRules (h : d.calm.Regular) (hroot : d.place? c.folders.ruleClasses = .ok R)
    (hR : d.entry? R = some .folder) : Stays R d (compileRules .builtin c d).disk := by
  have hdisk := congrArg Prod.snd (compileRules_builtin c d)
  rcases hremove : removeUnits d c.folders.ruleClasses with ⟨removed, d₁⟩
  have hfirst := stays_removeUnits h hroot hremove
  rw [hremove] at hdisk
  rcases removed with err | n
  · rw [show (compileRules .builtin c d).disk = d₁ from hdisk]
    exact hfirst
  · rw [show (compileRules .builtin c d).disk = (compileAfresh c d₁).2 from hdisk, compileAfresh]
    split
    · exact hfirst
    · exact hfirst.trans (stays_compile hfirst.regular (hfirst.place? hroot) (hfirst.folder hR))

theorem confined_compileRules (h : d.Regular) (hroot : d.place? c.folders.ruleClasses = .ok R)
    (hR : d.entry? R = some .folder) : Confined R d (compileRules .builtin c d).disk :=
  (stays_compileRules h.tree.regular_calm hroot hR).sound h.sound

end Pass

end LiveRules
