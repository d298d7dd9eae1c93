import LiveRules.Proofs.Files.Troubles

/-!
How paths end. What stands last in a path, apart from pieces that say nothing, is a name or leads
up. In the first case the path leads into a folder, and with another extension it leads to another
place in the same folder; in the second case it leads to a folder. A path that never leads up leads
further down than every path above it.
-/

namespace LiveRules

namespace Path

variable {p q : Path} {n ext : String}

/-- Names are joined to a path behind one and the same text. -/
theorem exists_text_join (p : Path) :
    ∃ front, ∀ n, IsName n → (p.join ⟨n⟩).text = front ++ n := by
  by_cases hopen : (p.isEmpty || p.text.toList.getLast? == some '/') = true
  · exact ⟨p.text, fun n hn => by rw [text_join hn, if_pos hopen]⟩
  · exact ⟨p.text ++ "/", fun n hn => by rw [text_join hn, if_neg hopen]⟩

/-! ### The last piece -/

/-- The last piece that is kept; unless it is the first one as well, it says something. -/
theorem exists_last_piece (p : Path) : ∃ front y idles, trimPieces p.pieces = front ++ [y] ∧
    p.pieces = front ++ y :: idles ∧ (∀ piece ∈ idles, isIdle piece = true) ∧
      (front ≠ [] → isIdle y = false) := by
  obtain ⟨idles, hidles, hall⟩ := eq_trimPieces p.pieces
  obtain hnil | ⟨front, y, hkept⟩ := List.eq_nil_or_concat' (trimPieces p.pieces)
  · -- the first piece is always kept
    obtain ⟨first, rest, hpieces⟩ := List.exists_cons_of_ne_nil (pieces_ne_nil (p := p))
    rw [hpieces, trimPieces] at hnil
    cases hnil
  · refine ⟨front, y, idles, hkept, ?_, hall, fun hne => ?_⟩
    · rw [hidles, hkept, List.append_assoc, List.singleton_append]
    · obtain ⟨first, rest, rfl⟩ := List.exists_cons_of_ne_nil hne
      exact not_idle_of_trimPieces hkept

/-- The last piece is the file name, if it is a name. -/
theorem fileName?_eq {front idles : List (List Char)} {y : List Char}
    (hp : p.pieces = front ++ y :: idles) (hidles : ∀ piece ∈ idles, isIdle piece = true)
    (hy : front ≠ [] → isIdle y = false) :
    p.fileName? = if isIdle y ∨ y = ['.', '.'] then none else some (.ofList y) := by
  by_cases hidle : isIdle y = true
  · -- only the first piece can say nothing, and it stands for the root, for here or for no place
    obtain rfl : front = [] := by
      by_contra hne
      rw [hy hne] at hidle
      cases hidle
    rw [List.nil_append] at hp
    rw [fileName?, components_eq hp, filter_idle hidles, List.map_nil, List.append_nil,
      if_pos (.inl hidle)]
    simp only [isIdle, Bool.or_eq_true, List.isEmpty_iff, beq_iff_eq] at hidle
    unfold firstComponents
    rcases hidle with rfl | rfl
    · cases p.isAbsolute <;> rfl
    · cases p.isAbsolute <;> rfl
  · rw [Bool.not_eq_true] at hidle
    have hlast : p.components.getLast? = some (component y) := by
      cases front with
      | nil =>
        rw [List.nil_append] at hp
        have hrelative : p.isAbsolute = false := by
          rw [Bool.eq_false_iff, ne_eq, isAbsolute_iff]
          rintro ⟨rest, -, hrest⟩
          rw [(List.cons.inj (hp.symm.trans hrest)).1] at hidle
          cases hidle
        have hmeans := hidle
        simp only [isIdle, Bool.or_eq_false_iff, beq_eq_false_iff_ne] at hmeans
        simp [components_eq hp, filter_idle hidles, firstComponents, hrelative, hmeans.1, hmeans.2]
      | cons first rest =>
        rw [List.cons_append] at hp
        rw [components_eq hp, List.filter_append, List.filter_cons_of_pos (by simp [hidle]),
          filter_idle hidles, List.map_append, List.map_singleton, ← List.append_assoc,
          List.getLast?_concat]
    rw [fileName?, hlast, component]
    by_cases hup : y = ['.', '.']
    · simp [hup]
    · simp [hup, hidle]

/-- A path with a file name ends in it. -/
theorem exists_pieces_of_fileName? (h : p.fileName? = some n) : IsName n ∧ ∃ front idles,
    trimPieces p.pieces = front ++ [n.toList] ∧ p.pieces = front ++ n.toList :: idles ∧
      ∀ piece ∈ idles, isIdle piece = true := by
  obtain ⟨front, y, idles, hkept, hp, hidles, hy⟩ := exists_last_piece p
  rw [fileName?_eq hp hidles hy] at h
  split at h
  · cases h
  · rename_i hno
    rw [not_or, Bool.not_eq_true] at hno
    obtain rfl : String.ofList y = n := Option.some.inj h
    refine ⟨isName_of_mem_pieces (by rw [hp]; simp) hno.1 hno.2, front, idles, ?_⟩
    rw [String.toList_ofList]
    exact ⟨hkept, hp, hidles⟩

/-- A path without a file name ends in a piece that says nothing or leads up. -/
theorem exists_pieces_of_no_fileName (h : p.fileName? = none) : ∃ front y idles,
    p.pieces = front ++ y :: idles ∧ (isIdle y = true ∨ y = ['.', '.']) ∧
      ∀ piece ∈ idles, isIdle piece = true := by
  obtain ⟨front, y, idles, -, hp, hidles, hy⟩ := exists_last_piece p
  rw [fileName?_eq hp hidles hy] at h
  refine ⟨front, y, idles, hp, ?_, hidles⟩
  by_contra hno
  rw [if_neg hno] at h
  cases h

/-- With another extension a path keeps all its pieces but the last. -/
theorem pieces_withExtension (h : p.fileName? = some n)
    (hext : IsName ((cutName n).1 ++ "." ++ ext)) : ∃ front idles,
    p.pieces = front ++ n.toList :: idles ∧ (∀ piece ∈ idles, isIdle piece = true) ∧
      (p.withExtension ext).pieces = front ++ [((cutName n).1 ++ "." ++ ext).toList] ∧
      (p.withExtension ext).isAbsolute = p.isAbsolute := by
  obtain ⟨hn, front, idles, hkept, hp, hidles⟩ := exists_pieces_of_fileName? h
  have hslash : ∀ piece ∈ front ++ [((cutName n).1 ++ "." ++ ext).toList], '/' ∉ piece := by
    intro piece hmem
    rw [List.mem_append, List.mem_singleton] at hmem
    rcases hmem with hmem | rfl
    · exact @Text.not_mem_of_mem_split _ p.text.toList _ (by
        rw [← pieces, hp]
        exact List.mem_append_left _ hmem)
    · exact hext.no_slash
  have hpieces : (p.withExtension ext).pieces =
      front ++ [((cutName n).1 ++ "." ++ ext).toList] := by
    rw [withExtension, h]
    dsimp only
    rw [pieces, hkept, List.dropLast_concat, String.toList_ofList,
      Text.split_joined (by simp) hslash]
  refine ⟨front, idles, hp, hidles, hpieces, ?_⟩
  -- both are absolute if an empty piece stands first, and neither of the names is one
  rw [Bool.eq_iff_iff, isAbsolute_iff, isAbsolute_iff, hpieces, hp]
  cases front with
  | nil => simp [toList_ne_nil hn.ne_empty]
  | cons first rest =>
    constructor
    · rintro ⟨more, -, hmore⟩
      exact ⟨rest ++ n.toList :: idles, by simp, by rw [(List.cons.inj hmore).1]; rfl⟩
    · rintro ⟨more, -, hmore⟩
      exact ⟨rest ++ [((cutName n).1 ++ "." ++ ext).toList], by simp,
        by rw [(List.cons.inj hmore).1]; rfl⟩

/-! ### Paths above -/

/-- The pieces of a path that say something. -/
def steps (p : Path) : List (List Char) := p.pieces.filter fun piece => !isIdle piece

theorem steps_parent (h : p.parent? = some q) : q.isEmpty = true ∨
    q.isAbsolute = p.isAbsolute ∧ q.steps <+: p.steps ∧ q.steps.length < p.steps.length := by
  rcases exists_parent_pieces h with hempty | ⟨front, more, idles, hp, ⟨said, hsaid, hmeans⟩, hq,
    hidles, habsolute, -, -⟩
  · exact .inl hempty
  · have hmore : said ∈ more.filter fun piece => !isIdle piece :=
      List.mem_filter.mpr ⟨hsaid, by simp [hmeans]⟩
    refine .inr ⟨habsolute, ?_, ?_⟩
    · rw [steps, steps, hp, hq, List.filter_append, List.filter_append, filter_idle hidles,
        List.append_nil]
      exact List.prefix_append _ _
    · rw [steps, steps, hp, hq, List.filter_append, List.filter_append, filter_idle hidles,
        List.append_nil, List.length_append]
      exact Nat.lt_add_of_pos_right (List.length_pos_of_mem hmore)

theorem parent?_of_isEmpty (h : p.isEmpty = true) : p.parent? = none := by
  obtain rfl : p = ⟨""⟩ := congrArg Path.mk (isEmpty_iff.mp h)
  rfl

theorem eq_of_mem_ancestorsFrom_empty {fuel : Nat} (h : p.isEmpty = true)
    (hq : q ∈ ancestorsFrom fuel p) : q = p := by
  cases fuel with
  | zero => exact List.mem_singleton.mp hq
  | succ fuel =>
    rw [ancestorsFrom, parent?_of_isEmpty h] at hq
    exact List.mem_singleton.mp hq

/-- The paths above a path say the same things and stop earlier. -/
theorem steps_ancestors {fuel : Nat} (h : q ∈ ancestorsFrom fuel p) : q.isEmpty = true ∨
    q.isAbsolute = p.isAbsolute ∧ q.steps <+: p.steps := by
  induction fuel generalizing p with
  | zero =>
    obtain rfl := List.mem_singleton.mp h
    exact .inr ⟨rfl, List.prefix_refl _⟩
  | succ fuel ih =>
    rw [ancestorsFrom] at h
    cases hparent : p.parent? with
    | none =>
      rw [hparent] at h
      obtain rfl := List.mem_singleton.mp h
      exact .inr ⟨rfl, List.prefix_refl _⟩
    | some above =>
      rw [hparent] at h
      rcases List.mem_cons.mp h with rfl | h
      · exact .inr ⟨rfl, List.prefix_refl _⟩
      · rcases steps_parent hparent with hempty | ⟨habsolute, hsteps, -⟩
        · exact .inl (eq_of_mem_ancestorsFrom_empty hempty h ▸ hempty)
        · refine (ih h).imp_right fun hq => ?_
          exact ⟨hq.1.trans habsolute, hq.2.trans hsteps⟩

/-- The paths above the parent of a path say less than the path. -/
theorem steps_above {above : Path} (hparent : p.parent? = some above) (h : q ∈ above.ancestors) :
    q.isEmpty = true ∨
      q.isAbsolute = p.isAbsolute ∧ q.steps <+: p.steps ∧ q.steps.length < p.steps.length := by
  rcases steps_parent hparent with hempty | ⟨habsolute, hsteps, hlt⟩
  · exact .inl (eq_of_mem_ancestorsFrom_empty hempty h ▸ hempty)
  · refine (steps_ancestors h).imp_right fun hq => ?_
    exact ⟨hq.1.trans habsolute, hq.2.trans hsteps, Nat.lt_of_le_of_lt hq.2.length_le hlt⟩

theorem up_mem_steps_iff : ['.', '.'] ∈ p.steps ↔ ['.', '.'] ∈ p.pieces := by
  rw [steps, List.mem_filter]
  exact and_iff_left (by decide)

end Path

namespace Disk

variable {d e : Disk} {p q : Path} {P Q S F : Place} {n ext : String} {xs : List (List Char)}

/-- A path without a file name leads to a folder. -/
theorem folder_of_no_fileName (ht : d.IsTree) (h : p.fileName? = none) (hp : d.place? p = .ok P) :
    d.entry? P = some .folder := by
  obtain ⟨front, y, idles, hpieces, hy, hidles⟩ := Path.exists_pieces_of_no_fileName h
  obtain ⟨-, hreach⟩ := place?_eq_ok_iff.mp hp
  rw [reach, hpieces] at hreach
  obtain ⟨F, -, hrest⟩ := walk_append.mp hreach
  obtain ⟨hF, ⟨-, hend⟩ | ⟨-, -, hend⟩ | ⟨hmeans, hdown, -⟩⟩ := walk_cons_eq_ok hrest
  · obtain rfl := eq_of_walk_idles hidles hend
    exact hF
  · obtain rfl := eq_of_walk_idles hidles hend
    -- what lies above a folder is one
    rcases List.eq_nil_or_concat' F with rfl | ⟨G, name, rfl⟩
    · rfl
    · rw [List.dropLast_concat]
      exact ht.parent (by rw [hF]; simp)
  · rcases hy with hidle | hup
    · rw [hidle] at hmeans
      cases hmeans
    · exact absurd hup hdown

/-- With another extension, a path that leads into a folder leads to another place in it, if it
leads to a place at all. -/
theorem place?_withExtension (h : p.fileName? = some n)
    (hext : Path.IsName ((Path.cutName n).1 ++ "." ++ ext)) (hp : d.place? p = .ok P)
    (hs : d.place? (p.withExtension ext) = .ok S) :
    ∃ F, P = F ++ [n] ∧ S = F ++ [(Path.cutName n).1 ++ "." ++ ext] := by
  obtain ⟨hn, -⟩ := Path.exists_pieces_of_fileName? h
  obtain ⟨front, idles, hpieces, hidles, hpieces', habsolute⟩ := Path.pieces_withExtension h hext
  obtain ⟨-, hreach⟩ := place?_eq_ok_iff.mp hp
  obtain ⟨-, hreach'⟩ := place?_eq_ok_iff.mp hs
  rw [reach, hpieces] at hreach
  rw [reach, hpieces', start, habsolute, ← start] at hreach'
  obtain ⟨F, hF, hrest⟩ := walk_append.mp hreach
  obtain ⟨F', hF', hrest'⟩ := walk_append.mp hreach'
  obtain rfl : F = F' := Except.ok.inj (hF.symm.trans hF')
  refine ⟨F, ?_, ((walk_name_eq_ok_iff hext).mp hrest').2.2⟩
  have hsplit : d.walk F ([n.toList] ++ idles) = .ok P := hrest
  obtain ⟨G, hG, hend⟩ := walk_append.mp hsplit
  obtain ⟨-, -, rfl⟩ := (walk_name_eq_ok_iff hn).mp hG
  exact eq_of_walk_idles hidles hend

/-- Beside a name that a path leads to, paths lead to names that are no longer. -/
theorem place?_join_of_le {m : String} (hm : Path.IsName m) (hn : Path.IsName n)
    (hnul : '\x00' ∈ n.toList → '\x00' ∈ m.toList) (hle : n.utf8ByteSize ≤ m.utf8ByteSize)
    (h : d.place? (p.join ⟨m⟩) = .ok (F ++ [m])) : d.place? (p.join ⟨n⟩) = .ok (F ++ [n]) := by
  obtain ⟨⟨hchars, -, hshort⟩, hreach⟩ := place?_eq_ok_iff.mp h
  obtain ⟨G, hG, hfolder, hlimit, hplace⟩ := (reach_join hm).mp hreach
  obtain rfl := List.append_inj_left' hplace rfl
  obtain ⟨front, htext⟩ := Path.exists_text_join p
  rw [htext m hm, String.toList_append, List.mem_append] at hchars
  rw [htext m hm, String.utf8ByteSize_append] at hshort
  refine place?_eq_ok_iff.mpr ⟨⟨?_, Path.text_join_ne_empty hn, ?_⟩,
    (reach_join hn).mpr ⟨F, hG, hfolder, Nat.le_trans hle hlimit, rfl⟩⟩
  · rw [htext n hn, String.toList_append, List.mem_append]
    exact fun hmem => hchars (hmem.imp_right hnul)
  · rw [htext n hn, String.utf8ByteSize_append]
    omega

/-- Where no piece leads up, each one that says something leads one folder further down. -/
theorem eq_of_walk (hup : ['.', '.'] ∉ xs) (h : d.walk F xs = .ok P) :
    P = F ++ (xs.filter fun piece => !Path.isIdle piece).map String.ofList := by
  induction xs generalizing F with
  | nil =>
    cases h
    exact (List.append_nil _).symm
  | cons piece rest ih =>
    rw [List.mem_cons, not_or] at hup
    obtain ⟨-, ⟨hidle, hrest⟩ | ⟨-, hpiece, -⟩ | ⟨hmeans, -, -, hrest⟩⟩ := walk_cons_eq_ok h
    · rw [List.filter_cons_of_neg (by simp [hidle])]
      exact ih hup.2 hrest
    · exact absurd hpiece.symm hup.1
    · rw [List.filter_cons_of_pos (by simp [hmeans]), ih hup.2 hrest, List.append_assoc]
      rfl

theorem length_of_walk (hup : ['.', '.'] ∉ xs) (h : d.walk F xs = .ok P) :
    P.length = F.length + (xs.filter fun piece => !Path.isIdle piece).length := by
  rw [eq_of_walk hup h, List.length_append, List.length_map]

/-- A path that never leads up does not lead where a path above it leads. -/
theorem place?_ne_above {above : Path} (hup : ['.', '.'] ∉ p.pieces)
    (hparent : p.parent? = some above) (hq : q ∈ above.ancestors) (hp : d.place? p = .ok P)
    (hQ : d.place? q = .ok Q) : P ≠ Q := by
  rintro rfl
  obtain ⟨hplain, hreach⟩ := place?_eq_ok_iff.mp hp
  obtain ⟨hplain', hreach'⟩ := place?_eq_ok_iff.mp hQ
  rcases Path.steps_above hparent hq with hempty | ⟨habsolute, hsteps, hlt⟩
  · exact hplain'.ne_empty (Path.isEmpty_iff.mp hempty)
  · have hup' : ['.', '.'] ∉ q.pieces := fun hmem =>
      hup (Path.up_mem_steps_iff.mp (hsteps.subset (Path.up_mem_steps_iff.mpr hmem)))
    have hlength := length_of_walk hup hreach
    have hlength' := length_of_walk hup' hreach'
    rw [start, habsolute, ← start] at hlength'
    rw [Path.steps, Path.steps] at hlt
    omega

end Disk

end LiveRules
