import LiveRules.Proofs.Files.Putting

/-!
Operations that fail. What lies on a disk has nothing to do with the operations that fail there: an
operation does what it does on the disk without its troubles, or a trouble stops it and everything
is left as it was. Only a write that fails may leave the beginning of what was to be written.
-/

namespace LiveRules

namespace Disk

variable {d d' e : Disk} {p q root : Path} {P Q F R : Place} {n ext : String} {names : List String}
variable {op : FileOp} {content : Text.Bytes} {r : Except OsError Unit}

/-- The disk as it is when no operation fails of itself. -/
def calm (d : Disk) : Disk := { d with troubles := fun _ _ _ => none }

theorem sound_calm : d.calm.Sound := fun _ _ _ => rfl

@[simp] theorem entry?_calm : d.calm.entry? Q = d.entry? Q := rfl

theorem place?_calm : d.calm.place? p = d.place? p := place?_congr rfl fun _ => rfl

theorem IsTree.regular_calm (h : d.IsTree) : d.calm.Regular :=
  ⟨⟨h.distinct, h.rootless, fun hn => h.parent hn, fun hn => h.isName hn⟩, sound_calm⟩

theorem IsTree.of_calm (h : d.calm.IsTree) : d.IsTree :=
  ⟨h.distinct, h.rootless, fun hn => h.parent hn, fun hn => h.isName hn⟩

theorem Sound.calm (h : d.Sound) : d.calm = d := by
  have htroubles : d.troubles = fun _ _ _ => none := by
    funext n op P
    exact h n op P
  rw [Disk.calm, ← htroubles]

/-! ### Single operations -/

/-- An operation at the place of a path came out as it does on the calm disk, or a trouble stopped
it before anything was changed. -/
structure Tried (op : FileOp) (p : Path) (calmly : Except OsError Unit × Disk) (d : Disk)
    (r : Except OsError Unit) (e : Disk) : Prop where
  troubles : e.troubles = d.troubles
  cases : calmly = (r, e.calm) ∨ ∃ P t, d.place? p = .ok P ∧ d.trouble? op P = some t ∧
    r = .error t.error ∧ e = d.ticked

/-- A change is tried at a place. -/
theorem change_tried {act : Except OsError (List (Place × Entry))} (hP : d.place? p = .ok P)
    (h : d.change op P act = (r, e)) : Tried op p (d.calm.change op P act) d r e := by
  have hcalm : d.calm.trouble? op P = none := sound_calm.trouble? op P
  unfold change at h ⊢
  rw [hcalm]
  cases htrouble : d.trouble? op P with
  | some t =>
    simp only [htrouble, Prod.mk.injEq] at h
    obtain ⟨rfl, rfl⟩ := h
    exact ⟨rfl, .inr ⟨P, t, hP, htrouble, rfl, rfl⟩⟩
  | none =>
    cases act with
    | error err =>
      simp only [htrouble, Prod.mk.injEq] at h
      obtain ⟨rfl, rfl⟩ := h
      exact ⟨rfl, .inl rfl⟩
    | ok entries =>
      simp only [htrouble, Prod.mk.injEq] at h
      obtain ⟨rfl, rfl⟩ := h
      exact ⟨rfl, .inl rfl⟩

theorem makeFolder_tried (h : d.makeFolder p = (r, e)) :
    Tried .makeFolder p (d.calm.makeFolder p) d r e := by
  rw [makeFolder] at h ⊢
  rw [place?_calm]
  cases hP : d.place? p with
  | error err =>
    simp only [hP, Prod.mk.injEq] at h
    obtain ⟨rfl, rfl⟩ := h
    exact ⟨rfl, .inl rfl⟩
  | ok P =>
    simp only [hP] at h
    exact change_tried hP h

theorem removeFile_tried (h : d.removeFile p = (r, e)) :
    Tried .removeFile p (d.calm.removeFile p) d r e := by
  rw [removeFile] at h ⊢
  rw [place?_calm]
  cases hP : d.place? p with
  | error err =>
    simp only [hP, Prod.mk.injEq] at h
    obtain ⟨rfl, rfl⟩ := h
    exact ⟨rfl, .inl rfl⟩
  | ok P =>
    simp only [hP] at h
    exact change_tried hP h

theorem move_tried (h : d.move p q = (r, e)) : Tried .move q (d.calm.move p q) d r e := by
  rw [move] at h ⊢
  rw [place?_calm, place?_calm]
  cases hS : d.place? p with
  | error err =>
    simp only [hS, Prod.mk.injEq] at h
    obtain ⟨rfl, rfl⟩ := h
    exact ⟨rfl, .inl rfl⟩
  | ok S =>
    cases hT : d.place? q with
    | error err =>
      simp only [hS, hT, Prod.mk.injEq] at h
      obtain ⟨rfl, rfl⟩ := h
      exact ⟨rfl, .inl rfl⟩
    | ok T =>
      simp only [hS, hT] at h
      exact change_tried hT h

/-- A write that a trouble stops leaves everything as it was, or the beginning of what was to be
written where the trouble says so. -/
theorem write_tried (h : d.write p content = (r, e)) :
    Tried .write p (d.calm.write p content) d r e ∨
      (e.troubles = d.troubles ∧ ∃ P t k, d.place? p = .ok P ∧ d.trouble? .write P = some t ∧
        t.torn ≠ none ∧ r = .error t.error ∧
        d.calm.write p (content.extract 0 k) = (.ok (), e.calm)) := by
  have hcalm (P : Place) : d.calm.trouble? .write P = none := sound_calm.trouble? .write P
  rw [write] at h
  cases hP : d.place? p with
  | error err =>
    simp only [hP, Prod.mk.injEq] at h
    obtain ⟨rfl, rfl⟩ := h
    refine .inl ⟨rfl, .inl ?_⟩
    rw [write, place?_calm, hP]
    rfl
  | ok P =>
    simp only [hP] at h
    cases htrouble : d.trouble? .write P with
    | none =>
      simp only [htrouble] at h
      rw [write, place?_calm, hP]
      dsimp only
      rw [hcalm]
      exact .inl (change_tried hP h)
    | some t =>
      simp only [htrouble] at h
      cases htorn : t.torn with
      | none =>
        simp only [htorn, Prod.mk.injEq] at h
        obtain ⟨rfl, rfl⟩ := h
        exact .inl ⟨rfl, .inr ⟨P, t, hP, htrouble, rfl, rfl⟩⟩
      | some k =>
        simp only [htorn, Option.getD_some] at h
        cases hentries : d.writeEntries P (content.extract 0 k) with
        | error err =>
          simp only [hentries, Prod.mk.injEq] at h
          obtain ⟨rfl, rfl⟩ := h
          exact .inl ⟨rfl, .inr ⟨P, t, hP, htrouble, rfl, rfl⟩⟩
        | ok entries =>
          simp only [hentries, Prod.mk.injEq] at h
          obtain ⟨rfl, rfl⟩ := h
          refine .inr ⟨rfl, P, t, k, rfl, htrouble, by simp [htorn], rfl, ?_⟩
          rw [write, place?_calm, hP]
          dsimp only
          rw [hcalm]
          unfold change
          rw [hcalm]
          dsimp only
          rw [show d.calm.writeEntries P (content.extract 0 k) = .ok entries from hentries]
          rfl

/-- Whatever fails, a write sets one file to a beginning of the content, and to all of it if it
works, or nothing changes. -/
theorem sets_write (hd : d.calm.Regular) (h : d.write p content = (r, e)) :
    e.troubles = d.troubles ∧ e.calm.Regular ∧ ((r ≠ .ok () ∧ Same d.calm e.calm) ∨
      ∃ P k x, d.place? p = .ok P ∧ d.entry? P ≠ some .folder ∧
        Sets P (some (.file (content.extract 0 k) x)) d.calm e.calm ∧
        (r = .ok () → content.extract 0 k = content)) := by
  have hwhole : content.extract 0 content.size = content := ByteArray.extract_zero_size
  rcases write_tried h with htried | ⟨htroubles, -, t, k, -, -, -, rfl, hpart⟩
  · refine ⟨htried.troubles, ?_⟩
    rcases htried.cases with hcalm | ⟨P, t, -, -, rfl, rfl⟩
    · obtain ⟨he, ⟨rfl, P, hP, hfree, hsets⟩ | ⟨⟨err, rfl⟩, -, hsame⟩⟩ := write_spec hd hcalm
      · exact ⟨he, .inr ⟨P, content.size, _, place?_calm.symm.trans hP, hfree, hwhole.symm ▸ hsets,
          fun _ => hwhole⟩⟩
      · exact ⟨he, .inl ⟨by simp, hsame⟩⟩
    · exact ⟨hd.ticked, .inl ⟨by simp, same_ticked⟩⟩
  · obtain ⟨he, ⟨-, P, hP, hfree, hsets⟩ | ⟨⟨err, hno⟩, -⟩⟩ := write_spec hd hpart
    · exact ⟨htroubles, he, .inr ⟨P, k, _, place?_calm.symm.trans hP, hfree, hsets, by simp⟩⟩
    · cases hno

/-- Whatever fails, a file is moved, or nothing changes. -/
theorem moved_move (hd : d.calm.Regular) (h : d.move p q = (r, e)) :
    e.troubles = d.troubles ∧ e.calm.Regular ∧ ((r ≠ .ok () ∧ Same d.calm e.calm) ∨
      ∃ S T, d.place? p = .ok S ∧ d.place? q = .ok T ∧ Moved S T d.calm e.calm) := by
  have htried := move_tried h
  refine ⟨htried.troubles, ?_⟩
  rcases htried.cases with hcalm | ⟨P, t, -, -, rfl, rfl⟩
  · obtain ⟨he, ⟨-, S, T, hS, hT, hmoved⟩ | ⟨⟨err, rfl⟩, hsame, -⟩⟩ := move_spec hd hcalm
    · exact ⟨he, .inr ⟨S, T, place?_calm.symm.trans hS, place?_calm.symm.trans hT, hmoved⟩⟩
    · exact ⟨he, .inl ⟨by simp, hsame⟩⟩
  · exact ⟨hd.ticked, .inl ⟨by simp, same_ticked⟩⟩

theorem same_of_move_error {err : OsError} (hd : d.calm.Regular)
    (h : d.move p q = (.error err, e)) : Same d.calm e.calm := by
  rcases (move_tried h).cases with hcalm | ⟨-, -, -, -, -, rfl⟩
  · obtain ⟨-, ⟨hno, -⟩ | ⟨-, hsame, -⟩⟩ := move_spec hd hcalm
    · cases hno
    · exact hsame
  · exact same_ticked

/-- A write with no trouble that would leave a part is tried like any other operation. -/
theorem write_tried_whole (h : d.write p content = (r, e))
    (hwhole : ∀ P t, d.place? p = .ok P → d.trouble? .write P = some t → t.torn = none) :
    Tried .write p (d.calm.write p content) d r e := by
  rcases write_tried h with htried | ⟨-, P, t, part, hP, htrouble, htorn, -⟩
  · exact htried
  · exact absurd (hwhole P t hP htrouble) htorn

/-- What is so of all that an operation comes to on the calm disk, and of an attempt that changes
nothing, is so of every attempt. -/
theorem Tried.elim {calmly : Except OsError Unit × Disk} {motive : Disk → Prop}
    (h : Tried op p calmly d r e) (hcalm : calmly = (r, e.calm) → motive e.calm)
    (hticked : motive d.calm.ticked) : motive e.calm := by
  rcases h.cases with hdone | ⟨-, -, -, -, -, rfl⟩
  · exact hcalm hdone
  · exact hticked

/-! ### Making folders -/

/-- What every attempt to make a folder keeps, making a chain of folders keeps. -/
theorem makeChain_induct {motive : Disk → Prop} {paths : List Path}
    (hstep : ∀ p ∈ paths, ∀ x r y, motive x → x.makeFolder p = (r, y) → motive y) (hd : motive d)
    (hm : d.makeChain paths = (r, e)) : motive e := by
  induction paths generalizing d e r with
  | nil =>
    cases hm
    exact hd
  | cons p above ih =>
    have habove := fun q hq => hstep q (List.mem_cons_of_mem p hq)
    rw [makeChain] at hm
    split at hm
    · cases hm
      exact hd
    · rcases hfirst : d.makeFolder p with ⟨err | ⟨⟩, d₁⟩
      · have h₁ := hstep p List.mem_cons_self _ _ _ hd hfirst
        rw [hfirst] at hm
        by_cases herr : err = .notFound
        · subst herr
          dsimp only at hm
          rcases hrest : d₁.makeChain above with ⟨err | ⟨⟩, d₂⟩
          · rw [hrest] at hm
            cases hm
            exact ih habove h₁ hrest
          · rcases hsecond : d₂.makeFolder p with ⟨r₃, d₃⟩
            have h₃ := hstep p List.mem_cons_self _ _ _ (ih habove h₁ hrest) hsecond
            rw [hrest] at hm
            dsimp only at hm
            rw [hsecond] at hm
            have he : e = d₃ := by
              cases r₃ <;> exact (congrArg Prod.snd hm).symm
            exact he ▸ h₃
        · have he : e = d₁ := by
            cases err <;> first | exact absurd rfl herr | exact (congrArg Prod.snd hm).symm
          exact he ▸ h₁
      · rw [hfirst] at hm
        cases hm
        exact hstep p List.mem_cons_self _ _ _ hd hfirst

/-- A path that is empty or leads to a folder. -/
def HasFolder (d : Disk) (p : Path) : Prop :=
  p.isEmpty = true ∨ ∃ P, d.place? p = .ok P ∧ d.entry? P = some .folder

theorem HasFolder.mono (h : d.HasFolder p) (hcurrent : e.current = d.current)
    (hfolder : ∀ Q, d.entry? Q = some .folder → e.entry? Q = some .folder) : e.HasFolder p := by
  rcases h with hempty | ⟨P, hP, hentry⟩
  · exact .inl hempty
  · exact .inr ⟨P, place?_mono hcurrent hfolder hP, hfolder P hentry⟩

theorem HasFolder.same (h : d.HasFolder p) (hsame : Same d.calm e.calm) : e.HasFolder p :=
  h.mono hsame.current fun Q hQ => (hsame.entry? Q).trans hQ

/-- A folder that is there is not made. -/
theorem HasFolder.makeFolder (h : d.HasFolder p) (hd : d.calm.Regular)
    (hm : d.makeFolder p = (r, e)) :
    e.troubles = d.troubles ∧ e.calm.Regular ∧ Same d.calm e.calm := by
  have htried := makeFolder_tried hm
  refine ⟨htried.troubles, htried.elim (motive := fun x => x.Regular ∧ Same d.calm x)
    (fun hcalm => ?_) ⟨hd.ticked, same_ticked⟩⟩
  obtain ⟨he, ⟨-, P, hP, hnone, -⟩ | ⟨-, hsame⟩⟩ := makeFolder_spec hd hcalm
  · rw [place?_calm] at hP
    rcases h with hempty | ⟨F, hF, hfolder⟩
    · exact absurd (Path.isEmpty_iff.mp hempty) (place?_eq_ok_iff.mp hP).1.ne_empty
    · obtain rfl : F = P := Except.ok.inj (hF.symm.trans hP)
      cases hfolder.symm.trans hnone
  · exact ⟨he, hsame⟩

end Disk

namespace Path

variable {p q : Path}

/-- Of the pieces that are kept, the last one says something unless it is the only one. -/
theorem not_idle_of_trimPieces {pieces front : List (List Char)} {first last : List Char}
    (h : trimPieces pieces = first :: front ++ [last]) : isIdle last = false := by
  cases pieces with
  | nil => simp [trimPieces] at h
  | cons piece rest =>
    have hrest : (rest.reverse.dropWhile isIdle).reverse = front ++ [last] := (List.cons.inj h).2
    have hback : rest.reverse.dropWhile isIdle = last :: front.reverse := by
      rw [← List.reverse_inj, hrest, List.reverse_cons, List.reverse_reverse]
    have hhead := List.head?_dropWhile_not isIdle rest.reverse
    simpa [hback] using hhead

/-- The parent of a path is empty or goes along the pieces in front of the last one that says
something. -/
theorem exists_parent_pieces (h : p.parent? = some q) : q.isEmpty = true ∨
    ∃ front more idles, p.pieces = front ++ more ∧ (∃ piece ∈ more, isIdle piece = false) ∧
      q.pieces = front ++ idles ∧ (∀ piece ∈ idles, isIdle piece = true) ∧
      q.isAbsolute = p.isAbsolute ∧ q.text ≠ "" ∧ q.text.toList <+: p.text.toList := by
  obtain ⟨idles, hidles, -⟩ := eq_trimPieces p.pieces
  have hlast (first last : List Char) (front : List (List Char)) :
      trimPieces p.pieces = first :: front ++ [last] → isIdle last = false := not_idle_of_trimPieces
  unfold parent? at h
  dsimp only at h
  generalize trimPieces p.pieces = kept at *
  obtain rfl | ⟨init, last, rfl⟩ := List.eq_nil_or_concat' kept
  · cases h
  cases init with
  | nil =>
    rw [List.nil_append] at h
    dsimp only at h
    split at h
    · cases h
    · cases h
      exact .inl rfl
  | cons first rest =>
    obtain ⟨skipped, hskipped, -⟩ := eq_trimPieces (first :: rest)
    have hq : some (ofPieces p.isAbsolute (trimPieces (first :: rest))) = some q := by
      cases rest with
      | nil => exact h
      | cons second more =>
        rw [← h, List.cons_append, List.cons_append]
        dsimp only
        rw [← List.cons_append, ← List.cons_append, List.dropLast_concat]
    obtain rfl := Option.some.inj hq
    obtain ⟨front, hfront⟩ : ∃ front, trimPieces (first :: rest) = first :: front := ⟨_, rfl⟩
    have hpieces : p.pieces = (first :: front) ++ (skipped ++ (last :: idles)) := by
      rw [hidles, hskipped, hfront]
      simp
    have hmeans : ∃ piece ∈ skipped ++ (last :: idles), isIdle piece = false :=
      ⟨last, by simp, hlast first last rest rfl⟩
    have hmore : skipped ++ (last :: idles) ≠ [] := by simp
    refine .inr ?_
    rw [hfront]
    generalize skipped ++ (last :: idles) = more at *
    have htext : Text.joined ['/'] (first :: front) ++ '/' :: Text.joined ['/'] more =
        p.text.toList := by
      rw [← Text.joined_split '/' p.text.toList, ← pieces, hpieces,
        Text.joined_append (by simp) hmore]
      simp
    by_cases hroot : front = [] ∧ p.isAbsolute = true
    · obtain ⟨rfl, habs⟩ := hroot
      obtain ⟨tail, -, htail⟩ := isAbsolute_iff.mp habs
      obtain ⟨rfl, -⟩ := List.cons.inj (hpieces.symm.trans htail)
      rw [ofPieces, if_pos habs]
      refine ⟨[[]], more, [[]], hpieces, hmeans, by decide, by decide, habs.symm, by decide, ?_⟩
      exact ⟨Text.joined ['/'] more, htext⟩
    · have hslash : ∀ piece ∈ first :: front, '/' ∉ piece := fun piece hmem =>
        @Text.not_mem_of_mem_split _ p.text.toList _ (by
          rw [← pieces, hpieces]
          exact List.mem_append_left _ hmem)
      have hof : ofPieces p.isAbsolute (first :: front) =
          ⟨.ofList (Text.joined ['/'] (first :: front))⟩ := by
        cases front with
        | cons second others => rfl
        | nil =>
          have habs : p.isAbsolute = false := by simpa using hroot
          rw [ofPieces, if_neg (by simp [habs])]
          rfl
      have hqpieces : pieces ⟨.ofList (Text.joined ['/'] (first :: front))⟩ = first :: front := by
        rw [pieces, String.toList_ofList, Text.split_joined (by simp) hslash]
      have habsolute : isAbsolute ⟨.ofList (Text.joined ['/'] (first :: front))⟩ =
          p.isAbsolute := by
        rw [Bool.eq_iff_iff, isAbsolute_iff, isAbsolute_iff, hqpieces, hpieces]
        constructor
        · rintro ⟨tail, hne, htail⟩
          obtain ⟨rfl, rfl⟩ := List.cons.inj htail
          exact ⟨front ++ more, by simp [hne], rfl⟩
        · rintro ⟨tail, hne, htail⟩
          obtain ⟨rfl, rfl⟩ := List.cons.inj htail
          refine ⟨front, fun hnil => hroot ⟨hnil, ?_⟩, rfl⟩
          exact isAbsolute_iff.mpr ⟨_, hne, hpieces⟩
      rw [hof]
      refine ⟨first :: front, more, [], hpieces, hmeans, by rw [hqpieces, List.append_nil], by simp,
        habsolute, fun hempty => ?_, ?_⟩
      · -- an empty text has one empty piece, and so the path would be absolute
        have hnil := congrArg String.toList hempty
        rw [String.toList_ofList] at hnil
        rw [pieces, String.toList_ofList, hnil] at hqpieces
        obtain ⟨rfl, rfl⟩ := List.cons.inj (hqpieces : [[]] = first :: front)
        exact hroot ⟨rfl, isAbsolute_iff.mpr ⟨more, hmore, hpieces⟩⟩
      · rw [String.toList_ofList]
        exact ⟨_, htext⟩

end Path

namespace Disk

variable {d d' e : Disk} {p q root : Path} {P Q F R : Place} {n ext : String} {names : List String}
variable {content : Text.Bytes} {r : Except OsError Unit}

/-- Above a folder there are only folders. -/
theorem HasFolder.parent (h : d.HasFolder p) (hq : p.parent? = some q) : d.HasFolder q := by
  rcases Path.exists_parent_pieces hq with hempty | ⟨front, more, idles, hp, ⟨said, hsaid, -⟩,
    hpieces, hidles, habsolute, htext, hprefix⟩
  · exact .inl hempty
  · obtain ⟨P, hP, hfolder⟩ := h.resolve_left fun hempty => by
      have hnil := Path.isEmpty_iff.mp hempty
      rw [hnil] at hprefix
      exact htext (String.toList_eq_nil_iff.mp (List.prefix_nil.mp hprefix))
    obtain ⟨hplain, hreach⟩ := place?_eq_ok_iff.mp hP
    rw [reach, hp] at hreach
    obtain ⟨F, hF, hrest⟩ := walk_append.mp hreach
    obtain ⟨piece, rest, rfl⟩ := List.exists_cons_of_ne_nil (List.ne_nil_of_mem hsaid)
    have hfolderF := (walk_cons_eq_ok hrest).1
    refine .inr ⟨F, place?_eq_ok_iff.mpr ⟨hplain.of_prefix htext hprefix, ?_⟩, hfolderF⟩
    rw [reach, start, habsolute, hpieces]
    exact walk_append.mpr ⟨F, hF, walk_idles hidles hfolderF⟩

theorem HasFolder.ancestors (h : d.HasFolder p) {fuel : Nat} :
    ∀ q ∈ Path.ancestorsFrom fuel p, d.HasFolder q := by
  induction fuel generalizing p with
  | zero =>
    intro q hq
    obtain rfl := List.mem_singleton.mp hq
    exact h
  | succ fuel ih =>
    rw [Path.ancestorsFrom]
    cases hparent : p.parent? with
    | none =>
      intro q hq
      obtain rfl := List.mem_singleton.mp hq
      exact h
    | some above =>
      intro q hq
      rcases List.mem_cons.mp hq with rfl | hq
      · exact h
      · exact ih (h.parent hparent) q hq

/-- Where a folder is there, making it with all above it changes nothing, whatever fails. -/
theorem HasFolder.makeFolders (h : d.HasFolder p) (hd : d.calm.Regular)
    (hm : d.makeFolders p = (r, e)) :
    e.troubles = d.troubles ∧ e.calm.Regular ∧ Same d.calm e.calm := by
  rw [Disk.makeFolders] at hm
  refine makeChain_induct (motive := fun x => x.troubles = d.troubles ∧ x.calm.Regular ∧
    Same d.calm x.calm) (fun q hq x r y hx hy => ?_) ⟨rfl, hd, .refl⟩ hm
  obtain ⟨htroubles, hregular, hsame⟩ := hx
  obtain ⟨htroubles', hregular', hsame'⟩ := ((h.ancestors q hq).same hsame).makeFolder hregular hy
  exact ⟨htroubles'.trans htroubles, hregular', hsame.trans hsame'⟩

theorem makeFolders_parent_tried (hd : d.calm.Regular) (hn : Path.IsName n)
    (hp : d.place? p = .ok F) (hF : d.entry? F = some .folder)
    (hm : d.makeFolders ((p.join ⟨n⟩).parent?.getD ⟨""⟩) = (r, e)) :
    e.troubles = d.troubles ∧ e.calm.Regular ∧ Same d.calm e.calm := by
  obtain ⟨q, hq, htrimmed⟩ := Path.exists_parent_join hn (place?_eq_ok_iff.mp hp).1.ne_empty
  rw [hq, Option.getD_some] at hm
  exact HasFolder.makeFolders (.inr ⟨F, place?_trimmed htrimmed hF hp, hF⟩) hd hm

/-- What is made on the way down to a file are folders below the one that the way starts from; above
that one there are only folders. -/
theorem mem_ancestors_below (hnames : ∀ name ∈ names, Path.IsName name) (hroot : d.place? root = .ok R)
    (hR : d.entry? R = some .folder) {fuel : Nat} (hp : Path.IsTrimmed (below root names) p) :
    ∀ q ∈ Path.ancestorsFrom fuel p, d.HasFolder q ∨
      ∃ front, front ≠ [] ∧ front <+: names ∧ q = below root front := by
  induction names using List.reverseRecOn generalizing p fuel with
  | nil =>
    exact fun q hq => .inl (HasFolder.ancestors (.inr ⟨R, place?_trimmed hp hR hroot, hR⟩) q hq)
  | append_singleton front n ih =>
    have hn : Path.IsName n := hnames n (by simp)
    have hfront : ∀ name ∈ front, Path.IsName name := fun name hname =>
      hnames name (List.mem_append_left _ hname)
    have hbelow : below root (front ++ [n]) = (below root front).join ⟨n⟩ :=
      below_append root front [n]
    obtain rfl : p = below root (front ++ [n]) := by
      rw [hbelow] at hp ⊢
      exact hp.eq_join hn
    have hself : ∃ names, names ≠ [] ∧ names <+: front ++ [n] ∧
        below root (front ++ [n]) = below root names := ⟨_, by simp, List.prefix_rfl, rfl⟩
    intro q hq
    cases fuel with
    | zero =>
      obtain rfl := List.mem_singleton.mp hq
      exact .inr hself
    | succ fuel =>
      obtain ⟨above, habove, htrimmed⟩ := Path.exists_parent_join hn
        (text_below_ne_empty hfront (place?_eq_ok_iff.mp hroot).1.ne_empty)
      rw [Path.ancestorsFrom, hbelow, habove] at hq
      rcases List.mem_cons.mp hq with rfl | hq
      · rw [← hbelow]
        exact .inr hself
      · rcases ih hfront htrimmed q hq with hfolder | ⟨names, hne, hprefix, hbelow'⟩
        · exact .inl hfolder
        · exact .inr ⟨names, hne, hprefix.trans (List.prefix_append _ _), hbelow'⟩

/-! ### Looking -/

theorem read_calm (h : d.read p = .ok content) : d.calm.read p = .ok content := by
  rw [read] at h ⊢
  rw [place?_calm]
  cases hP : d.place? p with
  | error err =>
    rw [hP] at h
    cases h
  | ok P =>
    rw [hP] at h
    simp only [bind, Except.bind] at h ⊢
    rw [sound_calm.trouble?]
    cases htrouble : d.trouble? .read P with
    | some t =>
      rw [htrouble] at h
      cases h
    | none =>
      rw [htrouble] at h
      exact h

theorem readText_calm {s : String} (h : d.readText p = .ok s) : d.calm.readText p = .ok s := by
  rw [readText] at h ⊢
  cases hread : d.read p with
  | error err =>
    rw [hread] at h
    cases h
  | ok content =>
    rw [hread] at h
    rw [read_calm hread]
    exact h

theorem look_calm {x : Entry} (h : d.look p = .ok x) : d.calm.look p = .ok x := by
  rw [look] at h ⊢
  rw [place?_calm]
  cases hP : d.place? p with
  | error err =>
    rw [hP] at h
    cases h
  | ok P =>
    rw [hP] at h
    simp only [bind, Except.bind] at h ⊢
    rw [sound_calm.trouble?]
    cases htrouble : d.trouble? .look P with
    | some t =>
      rw [htrouble] at h
      cases h
    | none =>
      rw [htrouble] at h
      exact h

/-- What is collected when some folders cannot be listed is among what lies there. -/
theorem mem_collect_calm (h : q ∈ d.collect p ext) : q ∈ d.calm.collect p ext := by
  rw [collect] at h ⊢
  have hfolder : d.isFolder p = true := by
    by_contra hno
    rw [Bool.not_eq_true] at hno
    rw [hno] at h
    cases h
  have hcalm : d.calm.isFolder p = true := by
    rw [isFolder] at hfolder ⊢
    cases hlook : d.look p with
    | error err =>
      rw [hlook] at hfolder
      cases hfolder
    | ok x =>
      rw [hlook] at hfolder
      rw [look_calm hlook]
      exact hfolder
  rw [hfolder] at h
  rw [hcalm, place?_calm]
  cases hP : d.place? p with
  | error err =>
    rw [hP] at h
    cases h
  | ok P =>
    rw [hP] at h
    simp only [Bool.not_true, Bool.false_eq_true, ↓reduceIte, Path.mem_sort, List.mem_filter,
      List.mem_map] at h ⊢
    obtain ⟨⟨names, hnames, rfl⟩, hext⟩ := h
    refine ⟨⟨names, ?_, rfl⟩, hext⟩
    simp only [visibleFiles, List.mem_filterMap, Option.bind_eq_bind, Option.bind_eq_some_iff,
      Option.ite_none_right_eq_some, Bool.and_eq_true] at hnames ⊢
    obtain ⟨x, hx, found, hfound, ⟨hvisible, -⟩, hsome⟩ := hnames
    exact ⟨x, hx, found, hfound, ⟨hvisible, canList_of_sound sound_calm P found⟩, hsome⟩

/-- So is what is listed when some files cannot be looked at. -/
theorem mem_listed_calm (h : q ∈ d.listed p ext) : q ∈ d.calm.listed p ext := by
  rw [listed] at h ⊢
  cases hlist : d.list p with
  | error err =>
    rw [hlist] at h
    cases h
  | ok found =>
    have hcalm : d.calm.list p = .ok found := by
      rw [list] at hlist ⊢
      rw [place?_calm]
      cases hP : d.place? p with
      | error err =>
        rw [hP] at hlist
        cases hlist
      | ok P =>
        rw [hP] at hlist
        simp only [bind, Except.bind] at hlist ⊢
        rw [sound_calm.trouble?]
        cases htrouble : d.trouble? .list P with
        | some t =>
          rw [htrouble] at hlist
          cases hlist
        | none =>
          rw [htrouble] at hlist
          exact hlist
    rw [hlist] at h
    rw [hcalm]
    simp only [Path.mem_sort, List.mem_filter, Bool.and_eq_true] at h ⊢
    refine ⟨h.1, ?_, h.2.2⟩
    obtain ⟨content, x, hx⟩ := isFile_iff_look.mp h.2.1
    exact isFile_iff_look.mpr ⟨content, x, look_calm hx⟩
/-- All that lies at or below a place can be looked at and listed. -/
structure Shows (d : Disk) (F : Place) : Prop where
  look : ∀ n P, F <+: P → d.troubles n .look P = none
  list : ∀ n P, F <+: P → d.troubles n .list P = none

theorem Shows.of_troubles (h : d.Shows F) (heq : e.troubles = d.troubles) : e.Shows F :=
  ⟨heq ▸ h.look, heq ▸ h.list⟩

theorem Shows.mono (h : d.Shows F) (hF : F <+: Q) : d.Shows Q :=
  ⟨fun n P hP => h.look n P (hF.trans hP), fun n P hP => h.list n P (hF.trans hP)⟩

theorem Shows.look_eq (h : d.Shows F) (hp : ∀ P, d.place? p = .ok P → F <+: P) :
    d.look p = d.calm.look p := by
  rw [Disk.look, Disk.look, place?_calm]
  cases hP : d.place? p with
  | error err => rfl
  | ok P =>
    have hnone : d.trouble? .look P = none := h.look _ _ (hp P hP)
    simp only [bind, Except.bind, hnone, sound_calm.trouble?, entry?_calm]

theorem Shows.isFolder_eq (h : d.Shows F) (hp : ∀ P, d.place? p = .ok P → F <+: P) :
    d.isFolder p = d.calm.isFolder p := by
  rw [isFolder, isFolder, h.look_eq hp]

theorem Shows.isFile_eq (h : d.Shows F) (hp : ∀ P, d.place? p = .ok P → F <+: P) :
    d.isFile p = d.calm.isFile p := by
  rw [isFile, isFile, h.look_eq hp]

theorem Shows.list_eq (h : d.Shows F) (hp : d.place? p = .ok F) : d.list p = d.calm.list p := by
  have hnone : d.trouble? .list F = none := h.list _ _ List.prefix_rfl
  rw [Disk.list, Disk.list, place?_calm, hp]
  simp only [bind, Except.bind, hnone, sound_calm.trouble?]
  rfl

/-- The files of a folder are listed as if nothing could fail. -/
theorem Shows.listed_eq (h : d.Shows F) (hd : d.calm.Regular) (hp : d.place? p = .ok F) :
    d.listed p ext = d.calm.listed p ext := by
  rw [listed, listed, h.list_eq hp]
  cases hlist : d.calm.list p with
  | error err => rfl
  | ok found =>
    obtain ⟨G, -, -, rfl⟩ := (list_eq_ok sound_calm).mp hlist
    dsimp only
    refine congrArg Path.sort (List.filter_congr fun q hq => ?_)
    obtain ⟨⟨n, x⟩, hmem, rfl⟩ := List.mem_map.mp hq
    have hname : Path.IsName n := hd.tree.isName (by rw [(mem_children hd).mp hmem]; simp)
    rw [h.isFile_eq fun P hP => ?_]
    obtain ⟨F', hF', -, rfl⟩ := place?_join hname (place?_eq_ok_iff.mp hp).1.ne_empty hP
    obtain rfl : F = F' := Except.ok.inj (hp.symm.trans hF')
    exact List.prefix_append _ _

theorem Shows.canList (h : d.Shows F) (names : List String) : d.canList F names = true := by
  induction names generalizing F with
  | nil => rfl
  | cons name rest ih =>
    have hnone : d.trouble? .list F = none := h.list _ _ List.prefix_rfl
    rw [Disk.canList, hnone, ih (h.mono (List.prefix_append F [name]))]
    rfl

/-- Files are collected below a folder as if nothing could fail. -/
theorem Shows.collect_eq (h : d.Shows F) (hp : d.place? p = .ok F) :
    d.collect p ext = d.calm.collect p ext := by
  have hfiles : d.visibleFiles F = d.calm.visibleFiles F := by
    unfold visibleFiles
    refine List.filterMap_congr fun x _ => ?_
    simp only [h.canList, canList_of_sound sound_calm]
  rw [collect, collect, place?_calm, hp, h.isFolder_eq fun P hP => ?_]
  · dsimp only
    rw [hfiles]
  · obtain rfl : F = P := Except.ok.inj (hp.symm.trans hP)
    exact List.prefix_rfl

end Disk

end LiveRules
