import LiveRules.Proofs.Compile.Confined

/-!
Places and files that are left alone. A path aims at one place whatever lies on the disk, and that is
where it leads if it leads anywhere. An operation, failing or not, leaves the files alone at all
places but those that its paths aim at, and so a pass over rules leaves alone all but rule units.
-/

namespace LiveRules

namespace Disk

variable {d d' e : Disk} {p q root : Path} {F P Q R : Place} {n : String} {names : List String}
variable {content : Text.Bytes} {r : Except OsError Unit} {A B : Place → Prop}

/-! ### Aims -/

/-- Where a piece of a path goes on to from a place. -/
def turn (F : Place) (piece : List Char) : Place :=
  if Path.isIdle piece then F
  else if piece = ['.', '.'] then F.dropLast
  else F ++ [.ofList piece]

/-- Where a path would lead if it led anywhere: its pieces alone tell. -/
def aim (d : Disk) (p : Path) : Place := p.pieces.foldl turn (d.start p)

theorem eq_foldl_of_walk {xs : List (List Char)} (h : d.walk F xs = .ok P) :
    P = xs.foldl turn F := by
  induction xs generalizing F with
  | nil => exact (Except.ok.inj h).symm
  | cons piece rest ih =>
    rw [List.foldl_cons, turn]
    obtain ⟨-, ⟨hidle, hw⟩ | ⟨hidle, hup, hw⟩ | ⟨hidle, hup, -, hw⟩⟩ := walk_cons_eq_ok h
    · rw [if_pos hidle]
      exact ih hw
    · rw [if_neg (by simp [hidle]), if_pos hup]
      exact ih hw
    · rw [if_neg (by simp [hidle]), if_neg hup]
      exact ih hw

/-- A path leads to no other place than the one that it aims at. -/
theorem eq_aim (h : d.place? p = .ok P) : P = d.aim p :=
  eq_foldl_of_walk (place?_eq_ok_iff.mp h).2

theorem aim_congr (h : e.current = d.current) : e.aim p = d.aim p := by
  rw [aim, aim, start, start, h]

theorem foldl_turn_idles {xs : List (List Char)} (h : ∀ piece ∈ xs, Path.isIdle piece = true) :
    xs.foldl turn F = F := by
  induction xs with
  | nil => rfl
  | cons piece rest ih =>
    rw [List.foldl_cons, turn, if_pos (h piece List.mem_cons_self)]
    exact ih fun q hq => h q (List.mem_cons_of_mem piece hq)

theorem aim_join (h : Path.IsName n) : d.aim (p.join ⟨n⟩) = d.aim p ++ [n] := by
  obtain ⟨idles, hidles, hall⟩ := Path.pieces_eq_openPieces (p := p)
  rw [aim, start_join h, Path.pieces_join h, List.foldl_concat, aim, hidles, List.foldl_append,
    foldl_turn_idles hall, turn, if_neg (by simp [h.not_idle]), if_neg h.ne_up_chars,
    String.ofList_toList]

theorem aim_below (h : ∀ name ∈ names, Path.IsName name) : d.aim (below p names) = d.aim p ++ names := by
  induction names generalizing p with
  | nil => exact (List.append_nil _).symm
  | cons name rest ih =>
    show d.aim (below (p.join ⟨name⟩) rest) = _
    rw [ih fun q hq => h q (List.mem_cons_of_mem name hq), aim_join (h name List.mem_cons_self),
      List.append_assoc, List.singleton_append]

/-- Where the path of a file leads, the path of one beside it with a name as long leads as well. -/
theorem place?_beside {m : String} (hn : Path.IsName n) (hm : Path.IsName m)
    (hnul : '\x00' ∉ m.toList) (hsize : m.utf8ByteSize = n.utf8ByteSize)
    (h : d.place? (p.join ⟨n⟩) = .ok P) : d.place? (p.join ⟨m⟩) = .ok (d.aim p ++ [m]) := by
  obtain ⟨hplain, hreach⟩ := place?_eq_ok_iff.mp h
  obtain ⟨F, hF, hfolder, hshort, -⟩ := (reach_join hn).mp hreach
  obtain rfl : F = d.aim p := eq_foldl_of_walk hF
  obtain ⟨front, hfront⟩ : ∃ front : String,
      ∀ name, Path.IsName name → (p.join ⟨name⟩).text = front ++ name := by
    refine ⟨if p.isEmpty || p.text.toList.getLast? == some '/' then p.text else p.text ++ "/",
      fun name hname => ?_⟩
    rw [Path.text_join hname]
    split <;> rfl
  have hplain' : (p.join ⟨m⟩).IsPlain := by
    refine ⟨fun hmem => ?_, Path.text_join_ne_empty hm, ?_⟩
    · rw [hfront m hm, String.toList_append] at hmem
      have hclean := hplain.no_nul
      rw [hfront n hn, String.toList_append, List.mem_append, not_or] at hclean
      exact (List.mem_append.mp hmem).elim hclean.1 hnul
    · have hlong := hplain.short
      rw [hfront n hn, String.utf8ByteSize_append] at hlong
      rw [hfront m hm, String.utf8ByteSize_append, hsize]
      exact hlong
  exact place?_eq_ok_iff.mpr
    ⟨hplain', (reach_join hm).mpr ⟨_, hF, hfolder, hsize ▸ hshort, rfl⟩⟩

/-! ### What is left alone -/

/-- From one disk to another all folders stay, and the files at some places stay as they are. -/
structure Leaves (A : Place → Prop) (d e : Disk) : Prop where
  troubles : e.troubles = d.troubles
  regular : e.calm.Regular
  current : e.current = d.current
  folder : ∀ Q, d.entry? Q = some .folder → e.entry? Q = some .folder
  file : ∀ Q content x, A Q →
    (e.entry? Q = some (.file content x) ↔ d.entry? Q = some (.file content x))

namespace Leaves

theorem trans (h : Leaves A d d') (h' : Leaves A d' e) : Leaves A d e :=
  ⟨h'.troubles.trans h.troubles, h'.regular, h'.current.trans h.current,
    fun Q hQ => h'.folder Q (h.folder Q hQ),
    fun Q content x hQ => (h'.file Q content x hQ).trans (h.file Q content x hQ)⟩

theorem mono (h : Leaves A d e) (hA : ∀ Q, B Q → A Q) : Leaves B d e :=
  ⟨h.troubles, h.regular, h.current, h.folder, fun Q content x hQ => h.file Q content x (hA Q hQ)⟩

theorem of_same (htroubles : e.troubles = d.troubles) (he : e.calm.Regular)
    (h : Same d.calm e.calm) : Leaves A d e := by
  refine ⟨htroubles, he, h.current, fun Q hQ => (h.entry? Q).trans hQ, fun Q content x _ => ?_⟩
  rw [← entry?_calm, h.entry?, entry?_calm]

theorem refl (h : d.calm.Regular) : Leaves A d d := of_same rfl h .refl

theorem of_grown (htroubles : e.troubles = d.troubles) (he : e.calm.Regular)
    (h : Grown d.calm e.calm) : Leaves A d e :=
  ⟨htroubles, he, h.current, fun _ => h.folder, fun _ _ _ _ => ⟨h.file, h.keeps⟩⟩

theorem of_sets {o : Option Entry} (htroubles : e.troubles = d.troubles) (he : e.calm.Regular)
    (h : Sets P o d.calm e.calm) (hfree : d.entry? P ≠ some .folder) : Leaves (· ≠ P) d e := by
  refine ⟨htroubles, he, h.current, fun Q => h.folder hfree, fun Q content x hQ => ?_⟩
  rw [← entry?_calm, h.entry?, if_neg hQ, entry?_calm]

theorem place? (h : Leaves A d e) (hp : d.place? p = .ok P) : e.place? p = .ok P :=
  place?_mono h.current h.folder hp

theorem aim_eq (h : Leaves A d e) (p : Path) : e.aim p = d.aim p := aim_congr h.current

/-- Where a file would be left alone, nothing changes but that a folder may come. -/
theorem entry? (h : Leaves A d e) (hQ : A Q) : e.entry? Q = d.entry? Q ∨
    (d.entry? Q = none ∧ e.entry? Q = some .folder) := by
  rcases hd : d.entry? Q with _ | ⟨content, x⟩ | _
  · rcases he : e.entry? Q with _ | ⟨content, x⟩ | _
    · exact .inl rfl
    · cases hd.symm.trans ((h.file Q content x hQ).mp he)
    · exact .inr ⟨rfl, rfl⟩
  · exact .inl ((h.file Q content x hQ).mpr hd)
  · exact .inl (h.folder Q hd)

theorem hasFile_iff (h : Leaves A d e) (hP : A P) : e.HasFile P ↔ d.HasFile P :=
  exists_congr fun content => exists_congr fun x => h.file P content x hP

end Leaves

/-! ### Making folders -/

/-- Whatever fails while a folder is made, all files stay. -/
theorem leaves_makeFolder (hd : d.calm.Regular) (h : d.makeFolder p = (r, e)) : Leaves A d e := by
  have htried := makeFolder_tried h
  rcases htried.cases with hcalm | ⟨-, -, -, -, rfl, rfl⟩
  · obtain ⟨he, ⟨-, P, -, hnone, hsets⟩ | ⟨-, hsame⟩⟩ := makeFolder_spec hd hcalm
    · exact .of_grown htried.troubles he (hsets.grown hnone)
    · exact .of_same htried.troubles he hsame
  · exact .of_same rfl hd.ticked same_ticked

theorem leaves_makeFolders (hd : d.calm.Regular) (h : d.makeFolders p = (r, e)) : Leaves A d e :=
  makeChain_induct (motive := Leaves A d)
    (fun _ _ _ _ _ hx hy => hx.trans (leaves_makeFolder hx.regular hy)) (.refl hd) h

/-! ### Removing and storing files -/

/-- The files elsewhere stay, and no file comes. -/
structure Removes (p : Path) (d e : Disk) : Prop where
  leaves : Leaves (· ≠ d.aim p) d e
  fewer : ∀ {Q}, e.HasFile Q → d.HasFile Q

theorem Removes.of_same (htroubles : e.troubles = d.troubles) (he : e.calm.Regular)
    (h : Same d.calm e.calm) : Removes p d e := by
  refine ⟨.of_same htroubles he h, fun {Q} hQ => ?_⟩
  obtain ⟨content, x, hx⟩ := hQ
  exact ⟨content, x, (h.entry? Q).symm.trans hx⟩

/-- No trouble of a disk says that a file is not there. -/
def IsHonest (d : Disk) (p : Path) : Prop :=
  ∀ P t, d.place? p = .ok P → d.trouble? .removeFile P = some t → t.error ≠ .notFound

/-- What becomes of removing a file: it is gone, or it fails and nothing has changed. -/
theorem removeFile_cases (hd : d.calm.Regular) (h : d.removeFile p = (r, e)) : Removes p d e ∧
    ((∃ err, r = .error err ∧ (d.IsHonest p → err ≠ .notFound)) ∧ Same d.calm e.calm ∨
      (r = .ok () ∨ r = .error .notFound) ∧ ∀ P, d.place? p = .ok P → ¬e.HasFile P) := by
  have htried := removeFile_tried h
  rcases htried.cases with hcalm | ⟨P, t, hP, ht, rfl, rfl⟩
  · obtain ⟨he, ⟨rfl, P, content, x, hP, hx, hsets⟩ | ⟨err, rfl, hsame, hwhy⟩⟩ :=
      removeFile_spec hd hcalm
    · rw [place?_calm] at hP
      rw [entry?_calm] at hx
      obtain rfl := eq_aim hP
      have hentry (Q : Place) : e.entry? Q = if Q = d.aim p then none else d.entry? Q :=
        hsets.entry? Q
      refine ⟨⟨.of_sets htried.troubles he hsets (by simp [hx]), fun {Q} hQ => ?_⟩,
        .inr ⟨.inl rfl, fun Q hQ hfile => ?_⟩⟩ <;>
      obtain ⟨content, x, hfile⟩ := ‹e.HasFile Q›
      · rw [hentry] at hfile
        split at hfile
        · cases hfile
        · exact ⟨content, x, hfile⟩
      · rw [hentry, if_pos (eq_aim hQ)] at hfile
        cases hfile
    · refine ⟨.of_same htried.troubles he hsame, ?_⟩
      by_cases herr : err = .notFound
      · refine .inr ⟨.inr (by rw [herr]), fun P hP hfile => ?_⟩
        obtain ⟨content, x, hx⟩ := hfile
        rw [← entry?_calm, hsame.entry?] at hx
        rcases hwhy P (place?_calm.trans hP) with ⟨hnone, -⟩ | hfolder
        · cases hx.symm.trans hnone
        · cases hx.symm.trans hfolder
      · exact .inl ⟨⟨err, rfl, fun _ => herr⟩, hsame⟩
  · exact ⟨.of_same rfl hd.ticked same_ticked,
      .inl ⟨⟨t.error, rfl, fun hp => hp P t hP ht⟩, same_ticked⟩⟩

/-- Whatever fails while a file is written, the files elsewhere stay. What is stored, if anything is,
is a beginning of the content, and all of it if the writing works. -/
theorem write_cases (hd : d.calm.Regular) (h : d.write p content = (r, e)) :
    Leaves (· ≠ d.aim p) d e ∧ (r ≠ .ok () ∧ Same d.calm e.calm ∨
      d.place? p = .ok (d.aim p) ∧ d.entry? (d.aim p) ≠ some .folder ∧
        ∃ k x, e.entry? (d.aim p) = some (.file (content.extract 0 k) x) ∧
          (r = .ok () → content.extract 0 k = content)) := by
  obtain ⟨htroubles, he, ⟨hr, hsame⟩ | ⟨P, k, x, hP, hfree, hsets, hwhole⟩⟩ := sets_write hd h
  · exact ⟨.of_same htroubles he hsame, .inl ⟨hr, hsame⟩⟩
  · obtain rfl := eq_aim hP
    exact ⟨.of_sets htroubles he hsets hfree, .inr ⟨hP, hfree, k, x,
      (hsets.entry? _).trans (if_pos rfl), hwhole⟩⟩

/-- A write that leaves nothing behind when it fails stores all of the content or nothing. -/
theorem write_cases_whole (hd : d.calm.Regular) (h : d.write p content = (r, e))
    (hwhole : ∀ P t, d.place? p = .ok P → d.trouble? .write P = some t → t.torn = none) :
    Leaves (· ≠ d.aim p) d e ∧ (r ≠ .ok () ∧ Same d.calm e.calm ∨
      r = .ok () ∧ d.place? p = .ok (d.aim p) ∧
        ∃ x, e.entry? (d.aim p) = some (.file content x)) := by
  have hleaves := (write_cases hd h).1
  rcases (write_tried_whole h hwhole).cases with hcalm | ⟨-, t, -, -, rfl, rfl⟩
  · obtain ⟨-, ⟨rfl, P, hP, -, hsets⟩ | ⟨⟨err, rfl⟩, -, hsame⟩⟩ := write_spec hd hcalm
    · rw [place?_calm] at hP
      obtain rfl := eq_aim hP
      exact ⟨hleaves, .inr ⟨rfl, hP, _, (hsets.entry? _).trans (if_pos rfl)⟩⟩
    · exact ⟨hleaves, .inl ⟨by simp, hsame⟩⟩
  · exact ⟨hleaves, .inl ⟨by simp, same_ticked⟩⟩

/-- Whatever fails while a file is moved, the files elsewhere stay, and it is moved if it works. -/
theorem move_cases (hd : d.calm.Regular) (h : d.move p q = (r, e)) :
    Leaves (fun Q => Q ≠ d.aim p ∧ Q ≠ d.aim q) d e ∧
      (r = .ok () → d.place? q = .ok (d.aim q) ∧ e.entry? (d.aim q) = d.entry? (d.aim p)) := by
  obtain ⟨htroubles, he, ⟨hr, hsame⟩ | ⟨S, T, hS, hT, hmoved⟩⟩ := moved_move hd h
  · exact ⟨.of_same htroubles he hsame, fun hok => absurd hok hr⟩
  · obtain rfl := eq_aim hS
    obtain rfl := eq_aim hT
    refine ⟨⟨htroubles, he, hmoved.current, fun Q => (hmoved.sameFolders.folder Q).mpr,
      fun Q content x hQ => ?_⟩, fun _ => ⟨hT, (hmoved.entry? _).trans (if_pos rfl)⟩⟩
    rw [← entry?_calm, hmoved.entry?, if_neg hQ.2, if_neg hQ.1, entry?_calm]

end Disk

/-! ### Passes over rules -/

open Disk

variable {d e : Disk} {root : Path} {Q R : Place} {c : Config}

/-- The places of units below a place. -/
def AmongUnits (R Q : Place) : Prop := ∃ names, IsUnitName names ∧ Q = R ++ names

/-- Whatever fails while a unit is stored, the files elsewhere stay. -/
theorem Artifact.leaves_write {a : Artifact} {r : Except ArtifactError Path} (hd : d.calm.Regular)
    (hslash : '/' ∉ a.identifier.toList) (hw : a.write d root = (r, e)) :
    Leaves (fun Q => ¬AmongUnits (d.aim root) Q) d e := by
  have hother {d' : Disk} {written : Except OsError Unit} (hd' : d'.calm.Regular)
      (haim : d'.aim root = d.aim root)
      (hwrite : d'.write (Naming.artifactPath root a.identifier) (Text.encode a.text) =
        (written, e)) : Leaves (fun Q => ¬AmongUnits (d.aim root) Q) d' e := by
    refine (Disk.write_cases hd' hwrite).1.mono fun Q hQ heq => hQ ?_
    rw [heq, Naming.artifactPath_eq_below, aim_below (Naming.isName_names hslash), haim]
    exact ⟨_, Naming.isUnitName_names _, rfl⟩
  obtain ⟨_, d₁, hmake, ⟨-, -, rfl⟩ | ⟨-, written, hwrite, -⟩⟩ := write_cases hw
  · exact leaves_makeFolders hd hmake
  · have hmade := leaves_makeFolders (A := fun Q => ¬AmongUnits (d.aim root) Q) hd hmake
    exact hmade.trans (hother hmade.regular (hmade.aim_eq root) hwrite)

theorem Builtin.leaves_writeAll {units : List Artifact} {r : Except CompileError (List Path)}
    (hd : d.calm.Regular) (hslash : ∀ a ∈ units, '/' ∉ a.identifier.toList)
    (hw : writeAll root units d = (r, e)) : Leaves (fun Q => ¬AmongUnits (d.aim root) Q) d e := by
  induction units generalizing d e r with
  | nil =>
    cases hw
    exact .refl hd
  | cons a rest ih =>
    rw [writeAll] at hw
    rcases ha : a.write d root with ⟨written, d₁⟩
    have hfirst := Artifact.leaves_write hd (hslash a List.mem_cons_self) ha
    rw [ha] at hw
    rcases written with err | path
    · cases hw
      exact hfirst
    · dsimp only at hw
      rcases hrest : writeAll root rest d₁ with ⟨more, d₂⟩
      have hmore := ih hfirst.regular (fun b hb => hslash b (List.mem_cons_of_mem a hb)) hrest
      rw [hfirst.aim_eq] at hmore
      obtain rfl : e = d₂ := by
        rw [hrest] at hw
        cases more <;> exact (congrArg Prod.snd hw).symm
      exact hfirst.trans hmore

/-- The built-in compiler leaves alone all files but units in its folder. -/
theorem Builtin.leaves_compile {sources : List Source} {cp : ClassPath} (hd : d.calm.Regular) :
    Leaves (fun Q => ¬AmongUnits (d.aim root) Q) d (compile d sources cp root).disk := by
  rcases hcheck : checkAll d sources with ⟨batch, found⟩
  simp only [compile, hcheck]
  cases hall : found ++ Link.problems (.of d cp batch) batch with
  | cons x rest => exact .refl hd
  | nil =>
    obtain ⟨rfl, -⟩ := List.append_eq_nil_iff.mp hall
    rcases hmake : d.makeFolders root with ⟨made, d₁⟩
    have hfirst := leaves_makeFolders (A := fun Q => ¬AmongUnits (d.aim root) Q) hd hmake
    have hslash : ∀ a ∈ batch.map (Link.linked (.of d cp batch)), '/' ∉ a.identifier.toList := by
      intro a ha
      obtain ⟨p, hp, rfl⟩ := List.mem_map.mp ha
      exact no_slash_of_checkAll hcheck p hp
    rcases made with err | ⟨⟩
    · exact hfirst
    · dsimp only
      rcases hwrite : writeAll root (batch.map (Link.linked (.of d cp batch))) d₁ with
        ⟨err | written, d₂⟩ <;>
      exact hfirst.trans (hfirst.aim_eq root ▸ leaves_writeAll hfirst.regular hslash hwrite)

namespace Pass

theorem leaves_removeAll {paths : List Path} {r : Except CompileError Unit} (hd : d.calm.Regular)
    (hpaths : ∀ p ∈ paths, AmongUnits R (d.aim p)) (hr : removeAll d paths = (r, e)) :
    Leaves (fun Q => ¬AmongUnits R Q) d e := by
  induction paths generalizing d r with
  | nil =>
    cases hr
    exact .refl hd
  | cons p rest ih =>
    rw [removeAll] at hr
    rcases hp : d.removeFile p with ⟨removed, d₁⟩
    have hfirst : Leaves (fun Q => ¬AmongUnits R Q) d d₁ :=
      (removeFile_cases hd hp).1.leaves.mono fun Q hQ heq =>
        hQ (heq ▸ hpaths p List.mem_cons_self)
    rw [hp] at hr
    rcases removed with err | ⟨⟩
    · cases hr
      exact hfirst
    · refine hfirst.trans (ih hfirst.regular (fun q hq => ?_) hr)
      rw [hfirst.aim_eq]
      exact hpaths q (List.mem_cons_of_mem p hq)

theorem leaves_removeUnits {r : Except CompileError Nat} (hd : d.calm.Regular)
    (hr : removeUnits d root = (r, e)) : Leaves (fun Q => ¬AmongUnits (d.aim root) Q) d e := by
  rw [removeUnits] at hr
  rcases hall : removeAll d (d.collect root Naming.artifactExtension) with ⟨removed, d₁⟩
  obtain rfl : e = d₁ := by
    rw [hall] at hr
    cases removed <;> exact (congrArg Prod.snd hr).symm
  refine leaves_removeAll hd (fun p hp => ?_) hall
  obtain ⟨F, names, -, hunit, hfile, rfl⟩ := (mem_collect_units hd).mp (mem_collect_calm hp)
  rw [aim_below (isNames_of_hasFile hd hfile)]
  exact ⟨names, hunit.isUnitName (F := []), rfl⟩

/-- Whatever fails in a pass over rules, it leaves alone all files but the units in their folder. -/
theorem leaves_compileRules (hd : d.calm.Regular) :
    Leaves (fun Q => ¬AmongUnits (d.aim c.folders.ruleClasses) Q) d
      (compileRules .builtin c d).disk := by
  have hdisk := congrArg Prod.snd (compileRules_builtin c d)
  rcases hremove : removeUnits d c.folders.ruleClasses with ⟨removed, d₁⟩
  have hfirst := leaves_removeUnits hd hremove
  rw [hremove] at hdisk
  rcases removed with err | n
  · rw [show (compileRules .builtin c d).disk = d₁ from hdisk]
    exact hfirst
  · rw [show (compileRules .builtin c d).disk = (compileAfresh c d₁).2 from hdisk, compileAfresh]
    split
    · exact hfirst
    · exact hfirst.trans (hfirst.aim_eq c.folders.ruleClasses ▸
        Builtin.leaves_compile hfirst.regular)

end Pass

end LiveRules
