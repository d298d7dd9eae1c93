import LiveRules.Files.Find
import LiveRules.Proofs.Text.Cutting

/-!
Paths made by joining names. A name that is joined to a path becomes its last piece and its last
component, and the parent of the joined path has the components of the path it was joined to.
-/

namespace LiveRules.Path

open Text

/-- A name as folders hold it. -/
structure IsName (s : String) : Prop where
  ne_empty : s ≠ ""
  no_slash : '/' ∉ s.toList
  ne_here : s ≠ "."
  ne_up : s ≠ ".."

instance {s : String} : Decidable (IsName s) :=
  decidable_of_iff (s ≠ "" ∧ '/' ∉ s.toList ∧ s ≠ "." ∧ s ≠ "..")
    ⟨fun ⟨he, hs, hh, hu⟩ => ⟨he, hs, hh, hu⟩, fun h => ⟨h.ne_empty, h.no_slash, h.ne_here, h.ne_up⟩⟩

variable {p : Path} {n : String}

theorem toList_ne_nil {s : String} (h : s ≠ "") : s.toList ≠ [] := by
  intro hs
  rw [← String.ofList_toList (s := s), hs] at h
  exact h rfl

theorem IsName.toList_ne {s : String} {cs : List Char} (h : s ≠ .ofList cs) : s.toList ≠ cs := by
  intro hs
  rw [← hs, String.ofList_toList] at h
  exact h rfl

theorem IsName.not_idle (h : IsName n) : isIdle n.toList = false := by
  have hempty := toList_ne_nil h.ne_empty
  have hhere : n.toList ≠ ['.'] := IsName.toList_ne h.ne_here
  simp [isIdle, hempty, hhere]

theorem IsName.ne_up_chars (h : IsName n) : n.toList ≠ ['.', '.'] := IsName.toList_ne h.ne_up

theorem IsName.component_eq (h : IsName n) : component n.toList = .name n := by
  rw [component, if_neg h.ne_up_chars, String.ofList_toList]

theorem IsName.not_absolute (h : IsName n) : isAbsolute ⟨n⟩ = false := by
  unfold isAbsolute
  cases hn : n.toList with
  | nil => rfl
  | cons c cs =>
    have hc : c ≠ '/' := by
      intro he
      exact h.no_slash (by rw [hn, he]; exact List.mem_cons_self)
    simpa using hc

/-- Every piece of a path that says something is a name, unless it leads up. -/
theorem isName_of_mem_pieces {piece : List Char} (h : piece ∈ p.pieces)
    (hidle : isIdle piece = false) (hup : piece ≠ ['.', '.']) : IsName (.ofList piece) := by
  simp only [isIdle, Bool.or_eq_false_iff, List.isEmpty_eq_false_iff, beq_eq_false_iff_ne] at hidle
  have hne {cs : List Char} (hc : piece ≠ cs) : String.ofList piece ≠ .ofList cs := by
    intro he
    exact hc (by simpa using congrArg String.toList he)
  refine ⟨hne hidle.1, ?_, hne hidle.2, hne hup⟩
  rw [String.toList_ofList]
  exact not_mem_of_mem_split h

/-! ### Joining -/

/-- The pieces of a path in front of a name that is joined to it. -/
def openPieces (p : Path) : List (List Char) :=
  if p.isEmpty || p.text.toList.getLast? == some '/' then p.pieces.dropLast else p.pieces

theorem isEmpty_iff : p.isEmpty = true ↔ p.text = "" := by
  simp [isEmpty]

theorem text_join (h : IsName n) : (p.join ⟨n⟩).text =
    if p.isEmpty || p.text.toList.getLast? == some '/' then p.text ++ n else p.text ++ "/" ++ n := by
  rw [join, if_neg (by simp [h.not_absolute])]
  split <;> rfl

/-- A path that ends in a separator, or says nothing, has an empty last piece. -/
theorem pieces_eq_of_open (h : (p.isEmpty || p.text.toList.getLast? == some '/') = true) :
    p.pieces = p.openPieces ++ [[]] := by
  rw [openPieces, if_pos h]
  rw [Bool.or_eq_true, isEmpty_iff, beq_iff_eq] at h
  rcases h with h | h
  · rw [pieces, h]
    rfl
  · obtain ⟨front, hfront⟩ : ∃ front, p.text.toList = front ++ ['/'] :=
      ⟨_, (List.dropLast_append_getLast? _ h).symm⟩
    rw [pieces, hfront, split_append_sep]
    simp [split]

/-- The pieces of a relative path come behind those of the path that it is joined to. -/
theorem pieces_join_relative {q : Path} (h : q.isAbsolute = false) :
    (p.join q).pieces = p.openPieces ++ q.pieces := by
  rw [join, if_neg (by simp [h])]
  split_ifs with hopen
  · have hpieces := pieces_eq_of_open hopen
    rw [Bool.or_eq_true, isEmpty_iff, beq_iff_eq] at hopen
    rcases hopen with hempty | hlast
    · rw [pieces, hempty] at hpieces
      rw [← List.append_cancel_right ((List.nil_append [[]]).trans hpieces), pieces, hempty,
        String.empty_append]
      rfl
    · obtain ⟨front, hfront⟩ : ∃ front, p.text.toList = front ++ ['/'] :=
        ⟨_, (List.dropLast_append_getLast? _ hlast).symm⟩
      rw [pieces, hfront, split_append_sep] at hpieces
      rw [← List.append_cancel_right hpieces, pieces, String.toList_append, hfront,
        List.append_assoc]
      exact split_append_sep
  · rw [openPieces, if_neg hopen, pieces, String.toList_append, String.toList_append,
      List.append_assoc]
    exact split_append_sep

theorem pieces_join (h : IsName n) : (p.join ⟨n⟩).pieces = p.openPieces ++ [n.toList] := by
  rw [pieces_join_relative h.not_absolute]
  exact congrArg _ (split_of_not_mem h.no_slash)

theorem pieces_ne_nil : p.pieces ≠ [] := split_ne_nil _ _

/-- An absolute path has an empty piece in front of its first separator. -/
theorem isAbsolute_iff : p.isAbsolute = true ↔ ∃ rest, rest ≠ [] ∧ p.pieces = [] :: rest := by
  rw [isAbsolute, beq_iff_eq, pieces]
  constructor
  · intro h
    obtain ⟨cs, hcs⟩ : ∃ cs, p.text.toList = '/' :: cs := List.head?_eq_some_iff.mp h
    exact ⟨split '/' cs, split_ne_nil _ _, by rw [hcs, split_cons_sep]⟩
  · rintro ⟨rest, hne, hrest⟩
    rw [← joined_split '/' p.text.toList, hrest, joined_cons hne]
    rfl

theorem isAbsolute_join_relative {q : Path} (h : q.isAbsolute = false) :
    (p.join q).isAbsolute = p.isAbsolute := by
  rw [join, if_neg (by simp [h])]
  by_cases hp : p.text = ""
  · obtain rfl : p = ⟨""⟩ := congrArg Path.mk hp
    have hempty : (⟨"" ++ q.text⟩ : Path).isAbsolute = false := by rwa [String.empty_append]
    exact hempty
  · obtain ⟨c, cs, hc⟩ := List.exists_cons_of_ne_nil (toList_ne_nil hp)
    split <;> simp [isAbsolute, String.toList_append, hc]

theorem isAbsolute_join (h : IsName n) : (p.join ⟨n⟩).isAbsolute = p.isAbsolute :=
  isAbsolute_join_relative h.not_absolute

theorem text_join_ne_empty (h : IsName n) : (p.join ⟨n⟩).text ≠ "" := by
  intro he
  have hpieces := pieces_join (p := p) h
  rw [pieces, he] at hpieces
  have hone : p.openPieces ++ [n.toList] = [] ++ [[]] := by simpa [split] using hpieces.symm
  exact toList_ne_nil h.ne_empty (List.append_inj_right' hone rfl |> List.singleton_inj.mp)

/-- What stands in front of a joined name differs from the path by a piece that says nothing. -/
theorem pieces_eq_openPieces : ∃ idles, p.pieces = p.openPieces ++ idles ∧
    ∀ piece ∈ idles, isIdle piece = true := by
  by_cases hopen : (p.isEmpty || p.text.toList.getLast? == some '/') = true
  · exact ⟨[[]], pieces_eq_of_open hopen, by simp [isIdle]⟩
  · exact ⟨[], by rw [openPieces, if_neg hopen, List.append_nil], by simp⟩

theorem openPieces_eq_nil_iff : p.openPieces = [] ↔ p.text = "" := by
  constructor
  · intro h
    by_cases hopen : (p.isEmpty || p.text.toList.getLast? == some '/') = true
    · have hpieces := pieces_eq_of_open hopen
      rw [h, List.nil_append, pieces] at hpieces
      have htext : p.text.toList = [] := by
        rw [← joined_split '/' p.text.toList, hpieces]
        rfl
      exact String.toList_eq_nil_iff.mp htext
    · rw [openPieces, if_neg hopen] at h
      exact absurd h pieces_ne_nil
  · intro h
    rw [openPieces, if_pos (by simp [isEmpty_iff.mpr h]), pieces, h]
    rfl

theorem prefix_join (h : IsName n) : p.text.toList <+: (p.join ⟨n⟩).text.toList := by
  rw [text_join h]
  split <;> simp [String.toList_append]

theorem prefix_below {names : List String} (h : ∀ name ∈ names, IsName name) :
    p.text.toList <+: (Disk.below p names).text.toList := by
  induction names generalizing p with
  | nil => exact List.prefix_rfl
  | cons name rest ih =>
    exact (prefix_join (h name List.mem_cons_self)).trans
      (ih fun q hq => h q (List.mem_cons_of_mem name hq))

/-! ### Components -/

/-- What the first piece contributes to the components. -/
def firstComponents (absolute : Bool) (first : List Char) : List Component :=
  if absolute then [.root]
  else if first.isEmpty then []
  else if first = ['.'] then [.here]
  else [component first]

theorem components_eq {first : List Char} {rest : List (List Char)}
    (h : p.pieces = first :: rest) : p.components =
      firstComponents p.isAbsolute first ++
        (rest.filter fun piece => !isIdle piece).map component := by
  unfold components firstComponents
  rw [h]
  dsimp only
  split_ifs <;> rfl

theorem filter_idle {idles : List (List Char)} (h : ∀ piece ∈ idles, isIdle piece = true) :
    idles.filter (fun piece => !isIdle piece) = [] := by
  rw [List.filter_eq_nil_iff]
  intro piece hmem
  simp [h piece hmem]

/-- Pieces at the end that say nothing do not change the components. -/
theorem components_eq_of_idle {q : Path} {kept i j : List (List Char)} (hne : kept ≠ [])
    (habs : q.isAbsolute = p.isAbsolute) (hp : p.pieces = kept ++ i) (hq : q.pieces = kept ++ j)
    (hi : ∀ piece ∈ i, isIdle piece = true) (hj : ∀ piece ∈ j, isIdle piece = true) :
    q.components = p.components := by
  obtain ⟨first, rest, rfl⟩ := List.exists_cons_of_ne_nil hne
  rw [List.cons_append] at hp hq
  rw [components_eq hp, components_eq hq, habs, List.filter_append, List.filter_append,
    filter_idle hi, filter_idle hj]

@[simp] theorem components_join (h : IsName n) :
    (p.join ⟨n⟩).components = p.components ++ [.name n] := by
  have hjoin := pieces_join (p := p) h
  have hlast : ([n.toList].filter fun piece => !isIdle piece).map component = [.name n] := by
    simp [h.not_idle, h.component_eq]
  obtain ⟨idles, hidles, hall⟩ := pieces_eq_openPieces (p := p)
  cases hopen : p.openPieces with
  | nil =>
    have htext := openPieces_eq_nil_iff.mp hopen
    have hempty : p.components = [] := by
      obtain rfl : p = ⟨""⟩ := congrArg Path.mk htext
      rfl
    rw [hopen, List.nil_append] at hjoin
    have hrel : (p.join ⟨n⟩).isAbsolute = false := by
      rw [isAbsolute_join h, isAbsolute, htext]
      rfl
    rw [components_eq hjoin, hempty, firstComponents, hrel, if_neg Bool.false_ne_true,
      if_neg (by simpa using toList_ne_nil h.ne_empty), if_neg (IsName.toList_ne h.ne_here),
      h.component_eq]
    rfl
  | cons first rest =>
    rw [hopen, List.cons_append] at hjoin hidles
    rw [components_eq hjoin, components_eq hidles, isAbsolute_join h, List.filter_append,
      List.map_append, hlast, List.filter_append, filter_idle hall, List.append_nil,
      List.append_assoc]

theorem fileName?_join (h : IsName n) : (p.join ⟨n⟩).fileName? = some n := by
  rw [fileName?, components_join h, List.getLast?_concat]

/-! ### The parent -/

/-- What is left out at the end of a list of pieces says nothing. -/
theorem eq_trimPieces (pieces : List (List Char)) : ∃ idles, pieces = trimPieces pieces ++ idles ∧
    ∀ piece ∈ idles, isIdle piece = true := by
  cases pieces with
  | nil => exact ⟨[], rfl, by simp⟩
  | cons first rest =>
    refine ⟨(rest.reverse.takeWhile isIdle).reverse, ?_, ?_⟩
    · rw [trimPieces, List.cons_append, ← List.reverse_append, List.takeWhile_append_dropWhile,
        List.reverse_reverse]
    · intro piece h
      exact List.all_eq_true.mp List.all_takeWhile piece (List.mem_reverse.mp h)

theorem trimPieces_concat {front : List (List Char)} {piece : List Char}
    (h : isIdle piece = false) : trimPieces (front ++ [piece]) = front ++ [piece] := by
  cases front with
  | nil => rfl
  | cons first rest =>
    rw [List.cons_append, trimPieces, List.reverse_concat, List.dropWhile_cons_of_neg (by simp [h]),
      List.reverse_cons, List.reverse_reverse]

theorem parent?_join (h : IsName n) : (p.join ⟨n⟩).parent? =
    some (if p.text = "" then ⟨""⟩ else ofPieces p.isAbsolute (trimPieces p.openPieces)) := by
  rw [parent?, pieces_join h, trimPieces_concat h.not_idle]
  cases hopen : p.openPieces with
  | nil =>
    have hempty : n.toList.isEmpty = false := by simpa using toList_ne_nil h.ne_empty
    simp only [List.nil_append, hempty, Bool.false_eq_true, ↓reduceIte,
      openPieces_eq_nil_iff.mp hopen]
  | cons first rest =>
    have hne : p.text ≠ "" := fun he => by simp [openPieces_eq_nil_iff.mpr he] at hopen
    rw [if_neg hne, isAbsolute_join h]
    cases hrest : rest ++ [n.toList] with
    | nil => simp at hrest
    | cons second more =>
      rw [List.cons_append, hrest]
      dsimp only
      rw [← hrest, ← List.cons_append, List.dropLast_concat]

/-- The parent of a joined path is the path itself but for separators at its end. -/
structure IsTrimmed (p q : Path) : Prop where
  isAbsolute : q.isAbsolute = p.isAbsolute
  text : q.text.toList <+: p.text.toList
  pieces : ∃ kept i j, kept ≠ [] ∧ p.pieces = kept ++ i ∧ q.pieces = kept ++ j ∧
    (∀ piece ∈ i, isIdle piece = true) ∧ ∀ piece ∈ j, isIdle piece = true

/-- The root is what is left of an absolute path without a name. -/
theorem isTrimmed_root (habs : p.isAbsolute = true) {idles : List (List Char)}
    (h : p.pieces = [[]] ++ idles) (hidle : ∀ piece ∈ idles, isIdle piece = true) :
    IsTrimmed p ⟨"/"⟩ where
  isAbsolute := habs.symm
  text := by
    rw [isAbsolute, beq_iff_eq] at habs
    obtain ⟨cs, hcs⟩ := List.head?_eq_some_iff.mp habs
    exact ⟨cs, by rw [hcs]; rfl⟩
  pieces := ⟨[[]], idles, [[]], by simp, h, by decide, hidle, by decide⟩

/-- Leaving out pieces that say nothing behind the first one. -/
theorem isTrimmed_joined {first : List Char} {rest idles : List (List Char)}
    (hrel : rest = [] → p.isAbsolute = false)
    (h : p.pieces = first :: rest ++ idles) (hidle : ∀ piece ∈ idles, isIdle piece = true) :
    IsTrimmed p ⟨.ofList (joined ['/'] (first :: rest))⟩ := by
  have hslash : ∀ piece ∈ first :: rest, '/' ∉ piece := by
    intro piece hmem
    exact @not_mem_of_mem_split _ p.text.toList _ (by
      rw [← Path.pieces, h]
      exact List.mem_append_left _ hmem)
  have hpieces : pieces ⟨.ofList (joined ['/'] (first :: rest))⟩ = first :: rest := by
    rw [pieces, String.toList_ofList, split_joined (by simp) hslash]
  have htext : joined ['/'] (first :: rest) <+: p.text.toList := by
    rw [← joined_split '/' p.text.toList, ← Path.pieces, h]
    by_cases hi : idles = []
    · simp [hi]
    · rw [joined_append (by simp) hi, List.append_assoc]
      exact List.prefix_append _ _
  refine ⟨?_, by rwa [String.toList_ofList], first :: rest, idles, [], by simp, h, ?_, hidle, by
    simp⟩
  · rw [Bool.eq_iff_iff, isAbsolute_iff, isAbsolute_iff, hpieces, h]
    constructor
    · rintro ⟨more, hne, hmore⟩
      obtain ⟨rfl, rfl⟩ := List.cons.inj hmore
      exact ⟨rest ++ idles, by simp [hne], rfl⟩
    · rintro ⟨more, hne, hmore⟩
      obtain ⟨rfl, rfl⟩ := List.cons.inj hmore
      refine ⟨rest, ?_, rfl⟩
      intro hrest
      have habs := isAbsolute_iff.mpr ⟨rest ++ idles, hne, h⟩
      rw [hrel hrest] at habs
      exact Bool.false_ne_true habs
  · rw [hpieces, List.append_nil]

/-- The parent of a joined path, if the path in front is not empty. -/
theorem exists_parent_join (h : IsName n) (hp : p.text ≠ "") :
    ∃ q, (p.join ⟨n⟩).parent? = some q ∧ IsTrimmed p q := by
  refine ⟨_, by rw [parent?_join h, if_neg hp], ?_⟩
  obtain ⟨i, hi, hidle⟩ := pieces_eq_openPieces (p := p)
  obtain ⟨j, hj, hjdle⟩ := eq_trimPieces p.openPieces
  have hpieces : p.pieces = trimPieces p.openPieces ++ (j ++ i) := by
    rw [← List.append_assoc, ← hj, ← hi]
  have hall : ∀ piece ∈ j ++ i, isIdle piece = true := by
    intro piece hmem
    rcases List.mem_append.mp hmem with hmem | hmem
    · exact hjdle piece hmem
    · exact hidle piece hmem
  cases htrim : trimPieces p.openPieces with
  | nil =>
    cases hopen : p.openPieces with
    | nil => exact absurd (openPieces_eq_nil_iff.mp hopen) hp
    | cons first rest => simp [hopen, trimPieces] at htrim
  | cons first rest =>
    rw [htrim] at hpieces
    cases rest with
    | cons second more => exact isTrimmed_joined (by simp) hpieces hall
    | nil =>
      by_cases habs : p.isAbsolute = true
      · obtain ⟨more, hne, hmore⟩ := isAbsolute_iff.mp habs
        obtain ⟨rfl, -⟩ := List.cons.inj (hpieces.symm.trans hmore)
        rw [ofPieces, if_pos habs]
        exact isTrimmed_root habs hpieces hall
      · rw [ofPieces, if_neg habs]
        have habs' : p.isAbsolute = false := by simpa using habs
        exact isTrimmed_joined (fun _ => habs') hpieces hall

theorem IsTrimmed.components_eq {q : Path} (h : IsTrimmed p q) : q.components = p.components := by
  obtain ⟨kept, i, j, hne, hp, hq, hi, hj⟩ := h.pieces
  exact components_eq_of_idle hne h.isAbsolute hp hq hi hj

theorem IsTrimmed.ne_empty {q : Path} (h : IsTrimmed p q) (hp : p.text ≠ "") : q.text ≠ "" := by
  intro hq
  obtain rfl : q = ⟨""⟩ := congrArg Path.mk hq
  obtain ⟨kept, i, j, hne, hpi, hqj, -, -⟩ := h.pieces
  obtain ⟨first, rest, rfl⟩ := List.exists_cons_of_ne_nil hne
  have hone : [[]] = first :: (rest ++ j) := hqj
  obtain ⟨rfl, hrest⟩ := List.cons.inj hone
  obtain ⟨rfl, -⟩ := List.append_eq_nil_iff.mp hrest.symm
  by_cases hi : i = []
  · rw [hi] at hpi
    apply hp
    rw [← String.toList_eq_nil_iff, ← joined_split '/' p.text.toList, ← Path.pieces, hpi]
    rfl
  · have habs := isAbsolute_iff.mpr ⟨i, hi, hpi⟩
    rw [← h.isAbsolute] at habs
    exact Bool.false_ne_true habs

/-! ### Endings of names -/

/-- An ending without a point, behind a stem that is not empty. -/
theorem cutName_append {stem ext : String} (hstem : stem ≠ "") (hext : '.' ∉ ext.toList) :
    cutName (stem ++ "." ++ ext) = (stem, some ext) := by
  have hcut : Text.splitLast? '.' (stem ++ "." ++ ext).toList = some (stem.toList, ext.toList) := by
    rw [String.toList_append, String.toList_append, List.append_assoc]
    exact splitLast?_append hext
  have hne : stem.toList.isEmpty = false := by simpa using toList_ne_nil hstem
  simp only [cutName, hcut, hne, Bool.false_eq_true, ↓reduceIte, String.ofList_toList]

theorem eq_of_cutName {ext : String} (h : (cutName n).2 = some ext) :
    n = (cutName n).1 ++ "." ++ ext := by
  rw [cutName] at h ⊢
  cases hcut : Text.splitLast? '.' n.toList with
  | none => simp [hcut] at h
  | some x =>
    obtain ⟨before, after⟩ := x
    simp only [hcut] at h ⊢
    split at h
    · cases h
    · rename_i hne
      obtain rfl := Option.some.inj h
      rw [if_neg hne, ← String.toList_inj]
      simp only [String.toList_append, String.toList_ofList, (eq_of_splitLast? hcut).1,
        List.append_assoc]
      rfl

/-- A name with an ending has something in front of it. -/
theorem stem_ne_of_cutName {ext : String} (h : (cutName n).2 = some ext) : (cutName n).1 ≠ "" := by
  rw [cutName] at h ⊢
  cases hcut : Text.splitLast? '.' n.toList with
  | none => simp [hcut] at h
  | some x =>
    obtain ⟨before, after⟩ := x
    simp only [hcut] at h ⊢
    split at h
    · cases h
    · rename_i hne
      rw [if_neg hne]
      intro hempty
      rw [← String.toList_eq_nil_iff, String.toList_ofList] at hempty
      exact hne (by rw [hempty]; rfl)

/-- A name with an ending has no other ending. -/
theorem ext_of_cutName {stem ext other : String} (hext : '.' ∉ ext.toList)
    (h : (cutName (stem ++ "." ++ ext)).2 = some other) : other = ext := by
  by_cases hstem : stem = ""
  · subst hstem
    have hcut : Text.splitLast? '.' ("" ++ "." ++ ext).toList = some ([], ext.toList) := by
      rw [String.toList_append, String.toList_append]
      exact @splitLast?_append '.' [] ext.toList hext
    simp only [cutName, hcut] at h
    cases h
  · rw [cutName_append hstem hext, Option.some.injEq] at h
    exact h.symm

end LiveRules.Path
