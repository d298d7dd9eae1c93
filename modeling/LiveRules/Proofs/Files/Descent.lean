import LiveRules.ClassPath
import LiveRules.Proofs.Files.Effects
import LiveRules.Proofs.Files.Endings
import LiveRules.Proofs.Files.Identifiers

/-!
Identifiers that lead down. An identifier of which no segment starts with a separator spells a path
below whatever root it is joined to, so units are looked up and stored there and nowhere else. Any
other identifier spells an absolute path, the same one for every root.
-/

namespace LiveRules

open Text

namespace Path

variable {p q root : Path} {more : List (List Char)}

/-! ### Paths below others -/

/-- A path lies under another one if it goes on from there, by names alone. -/
def Under (root p : Path) : Prop :=
  ∃ names : List String, names ≠ [] ∧ p.components = root.components ++ names.map .name

theorem not_under_self : ¬Under p p := by
  rintro ⟨names, hne, hnames⟩
  exact hne (List.map_eq_nil_iff.mp (List.append_right_eq_self.mp hnames.symm))

theorem isAbsolute_join_of_isAbsolute (h : p.isAbsolute = true) : (p.join q).isAbsolute = true := by
  cases hq : q.isAbsolute with
  | true => rw [join, if_pos hq, hq]
  | false => rw [isAbsolute_join_relative hq, h]

/-- In front of what is joined next stand the pieces so far, the last one of which may be left
out. -/
theorem openPieces_join_relative (h : q.isAbsolute = false) :
    ∃ kept, kept <+: q.pieces ∧ (p.join q).openPieces = p.openPieces ++ kept := by
  have hpieces := pieces_join_relative (p := p) h
  rw [openPieces.eq_def (p.join q)]
  split_ifs
  · refine ⟨q.pieces.dropLast, List.dropLast_prefix _, ?_⟩
    rw [hpieces, List.dropLast_append_of_ne_nil pieces_ne_nil]
  · exact ⟨q.pieces, List.prefix_rfl, hpieces⟩

/-- A piece that leads neither here nor up. -/
def IsDown (piece : List Char) : Prop := piece ≠ ['.'] ∧ piece ≠ ['.', '.']

/-- Longer pieces are names. -/
theorem isDown_of_length {piece : List Char} (h : 3 ≤ piece.length) :
    IsDown piece ∧ isIdle piece = false := by
  have hne {cs : List Char} (hcs : cs.length < 3) : piece ≠ cs := by
    rintro rfl
    omega
  refine ⟨⟨hne (by decide), hne (by decide)⟩, ?_⟩
  rw [isIdle, Bool.or_eq_false_iff, List.isEmpty_eq_false_iff, beq_eq_false_iff_ne]
  exact ⟨hne (by decide), hne (by decide)⟩

/-- Joining relative names, none of which leads elsewhere than down. -/
theorem openPieces_below (root : Path) {names : List String}
    (h : ∀ name ∈ names, isAbsolute ⟨name⟩ = false ∧ ∀ piece ∈ pieces ⟨name⟩, IsDown piece) :
    (Disk.below root names).isAbsolute = root.isAbsolute ∧ ∃ more,
      (Disk.below root names).openPieces = root.openPieces ++ more ∧
        ∀ piece ∈ more, IsDown piece := by
  induction names using List.reverseRecOn with
  | nil => exact ⟨rfl, [], by simp [Disk.below], by simp⟩
  | append_singleton front name ih =>
    obtain ⟨habsolute, more, hmore, hall⟩ := ih fun q hq => h q (List.mem_append_left _ hq)
    obtain ⟨hrelative, hdown⟩ := h name (by simp)
    have hbelow : Disk.below root (front ++ [name]) = (Disk.below root front).join ⟨name⟩ :=
      Disk.below_append root front [name]
    obtain ⟨kept, hkept, hpieces⟩ :=
      openPieces_join_relative (p := Disk.below root front) hrelative
    rw [hbelow]
    refine ⟨(isAbsolute_join_relative hrelative).trans habsolute, more ++ kept, ?_, ?_⟩
    · rw [hpieces, hmore, List.append_assoc]
    · intro piece hpiece
      rcases List.mem_append.mp hpiece with hpiece | hpiece
      · exact hall piece hpiece
      · exact hdown piece (hkept.subset hpiece)

/-- An absolute name among those that are joined takes the place of all in front of it. -/
theorem exists_below_absolute {names : List String}
    (h : ∃ name ∈ names, isAbsolute ⟨name⟩ = true) :
    ∃ p : Path, p.isAbsolute = true ∧ ∀ root, Disk.below root names = p := by
  induction names using List.reverseRecOn with
  | nil => simp at h
  | append_singleton front last ih =>
    have hbelow (root : Path) :
        Disk.below root (front ++ [last]) = (Disk.below root front).join ⟨last⟩ :=
      Disk.below_append root front [last]
    by_cases hlast : isAbsolute ⟨last⟩ = true
    · exact ⟨⟨last⟩, hlast, fun root => by rw [hbelow, join, if_pos hlast]⟩
    · obtain ⟨name, hname, habsolute⟩ := h
      rw [List.mem_append, List.mem_singleton] at hname
      have hfront : name ∈ front := hname.resolve_right fun he => hlast (he ▸ habsolute)
      obtain ⟨p, hp, hall⟩ := ih ⟨name, hfront, habsolute⟩
      exact ⟨p.join ⟨last⟩, isAbsolute_join_of_isAbsolute hp, fun root => by rw [hbelow, hall]⟩

/-- What goes on from a root by some pieces that lead down, one of which says something. -/
structure Continues (root p : Path) (more : List (List Char)) : Prop where
  isAbsolute : p.isAbsolute = root.isAbsolute
  pieces : p.pieces = root.openPieces ++ more
  down : ∀ piece ∈ more, IsDown piece
  speaks : ∃ piece ∈ more, isIdle piece = false

namespace Continues

/-- The names in the pieces. -/
def names (more : List (List Char)) : List String :=
  (more.filter fun piece => !isIdle piece).map String.ofList

theorem names_ne_nil (h : Continues root p more) : names more ≠ [] := by
  obtain ⟨piece, hpiece, hmeans⟩ := h.speaks
  refine List.ne_nil_of_mem (List.mem_map_of_mem (a := piece) (List.mem_filter.mpr ⟨hpiece, ?_⟩))
  rw [hmeans]
  rfl

theorem component_names (h : Continues root p more) :
    (more.filter fun piece => !isIdle piece).map component = (names more).map .name := by
  rw [names, List.map_map]
  refine List.map_congr_left fun piece hpiece => ?_
  rw [component, if_neg (h.down piece (List.mem_of_mem_filter hpiece)).2]
  rfl

theorem under (h : Continues root p more) : Under root p := by
  refine ⟨names more, h.names_ne_nil, ?_⟩
  rw [← h.component_names]
  obtain ⟨idles, hidles, hall⟩ := pieces_eq_openPieces (p := root)
  have hpieces := h.pieces
  cases hopen : root.openPieces with
  | nil =>
    -- the empty path has no components, and what continues it starts with a piece that leads down
    obtain rfl : root = ⟨""⟩ := congrArg Path.mk (openPieces_eq_nil_iff.mp hopen)
    obtain ⟨said, hsaid, -⟩ := h.speaks
    obtain ⟨first, rest, rfl⟩ := List.exists_cons_of_ne_nil (List.ne_nil_of_mem hsaid)
    have hrelative : p.isAbsolute = false := h.isAbsolute
    rw [hopen, List.nil_append] at hpieces
    rw [components_eq hpieces, firstComponents, hrelative, if_neg Bool.false_ne_true,
      if_neg (h.down first List.mem_cons_self).1]
    change _ = [] ++ _
    rw [List.nil_append]
    by_cases hempty : first.isEmpty = true
    · rw [if_pos hempty, List.filter_cons_of_neg (by simp [isIdle, hempty]), List.nil_append]
    · have hmeans : isIdle first = false := by
        simpa [isIdle, hempty] using (h.down first List.mem_cons_self).1
      rw [if_neg hempty, List.filter_cons_of_pos (by simp [hmeans])]
      rfl
  | cons first rest =>
    rw [hopen, List.cons_append] at hpieces hidles
    rw [components_eq hpieces, components_eq hidles, h.isAbsolute, List.filter_append,
      List.filter_append, filter_idle hall, List.append_nil, List.map_append, List.append_assoc]

end Continues

end Path

/-! ### Disks that agree below a path -/

namespace Disk

variable {d e : Disk} {p q root : Path} {P Q F R : Place} {xs more : List (List Char)}

/-- What a path continues leads to the folder from which the rest of the path goes down. -/
theorem reach_continues (h : Path.Continues root p more) : d.reach p = .ok P ↔
    ∃ R, d.reach root = .ok R ∧ d.walk R more = .ok P := by
  obtain ⟨idles, hidles, hall⟩ := Path.pieces_eq_openPieces (p := root)
  have hstart : d.start p = d.start root := by rw [start, start, h.isAbsolute]
  rw [reach, hstart, h.pieces, walk_append, reach, hidles]
  refine exists_congr fun R => and_congr_left fun hmore => ?_
  obtain ⟨said, hsaid, -⟩ := h.speaks
  obtain ⟨first, rest, rfl⟩ := List.exists_cons_of_ne_nil (List.ne_nil_of_mem hsaid)
  have hR := (walk_cons_eq_ok hmore).1
  constructor
  · exact fun hw => walk_append.mpr ⟨R, hw, walk_idles hall hR⟩
  · intro hw
    obtain ⟨G, hG, hi⟩ := walk_append.mp hw
    exact eq_of_walk_idles hall hi ▸ hG

theorem names_of_continues (h : Path.Continues root p more) (hp : d.reach p = .ok P) :
    ∃ R, d.reach root = .ok R ∧ P = R ++ Path.Continues.names more := by
  obtain ⟨R, hR, hw⟩ := (reach_continues h).mp hp
  exact ⟨R, hR, eq_of_walk (fun hup => (h.down _ hup).2 rfl) hw⟩

/-- Two disks on which a path leads to the same place, and all is the same from there on: what lies
there, and what fails. -/
structure AgreeBelow (root : Path) (d e : Disk) : Prop where
  reach : ∀ R, e.reach root = .ok R ↔ d.reach root = .ok R
  entry? : ∀ R names, d.reach root = .ok R → e.entry? (R ++ names) = d.entry? (R ++ names)
  trouble? : ∀ R names op, d.reach root = .ok R →
    e.trouble? op (R ++ names) = d.trouble? op (R ++ names)

/-- A walk down sees what lies below its start. -/
theorem walk_down_congr (hdown : ['.', '.'] ∉ xs)
    (h : ∀ names, e.entry? (F ++ names) = d.entry? (F ++ names)) : e.walk F xs = d.walk F xs := by
  induction xs generalizing F with
  | nil => rfl
  | cons piece rest ih =>
    rw [List.mem_cons, not_or] at hdown
    have hF : e.entry? F = d.entry? F := by simpa using h []
    have hdeeper : e.walk (F ++ [.ofList piece]) rest = d.walk (F ++ [.ofList piece]) rest :=
      ih hdown.2 fun names => by simpa using h (.ofList piece :: names)
    rw [walk, walk, hF, ih hdown.2 h]
    dsimp only
    rw [if_neg (Ne.symm hdown.1), if_neg (Ne.symm hdown.1), hdeeper]

namespace AgreeBelow

theorem place?_iff (hagree : AgreeBelow root d e) (h : Path.Continues root p more) :
    e.place? p = .ok P ↔ d.place? p = .ok P := by
  rw [place?_eq_ok_iff, place?_eq_ok_iff, reach_continues h, reach_continues h]
  refine and_congr_right fun _ => exists_congr fun R => ?_
  rw [hagree.reach]
  refine and_congr_right fun hR => ?_
  rw [walk_down_congr (fun hup => (h.down _ hup).2 rfl) fun names => hagree.entry? R names hR]

theorem at_place (hagree : AgreeBelow root d e) (h : Path.Continues root p more)
    (hP : d.place? p = .ok P) : e.entry? P = d.entry? P ∧
      ∀ op, e.trouble? op P = d.trouble? op P := by
  obtain ⟨R, hR, rfl⟩ := names_of_continues h (place?_eq_ok_iff.mp hP).2
  exact ⟨hagree.entry? R _ hR, fun op => hagree.trouble? R _ op hR⟩

theorem isFile (hagree : AgreeBelow root d e) (h : Path.Continues root p more) :
    e.isFile p = d.isFile p := by
  rw [Bool.eq_iff_iff, isFile_iff_look, isFile_iff_look]
  simp only [look_eq_ok_iff, hagree.place?_iff h]
  refine exists_congr fun content => exists_congr fun x => exists_congr fun P =>
    and_congr_right fun hP => ?_
  obtain ⟨hentry, htrouble⟩ := hagree.at_place h hP
  rw [hentry, htrouble]

theorem read (hagree : AgreeBelow root d e) (h : Path.Continues root p more)
    (hP : d.place? p = .ok P) : e.read p = d.read p := by
  obtain ⟨hentry, htrouble⟩ := hagree.at_place h hP
  simp only [Disk.read, hP, (hagree.place?_iff h).mpr hP, bind, Except.bind, hentry, htrouble]

end AgreeBelow

end Disk

/-! ### Identifiers -/

namespace Naming

open Disk

variable {d d' e : Disk} {root : Path} {identifier name : String}

/-- No segment of an identifier starts with a separator. -/
def IsRelative (identifier : String) : Prop :=
  ∀ segment ∈ split '.' identifier.toList, segment.head? ≠ some '/'

instance : Decidable (IsRelative identifier) :=
  inferInstanceAs (Decidable (∀ segment ∈ split '.' identifier.toList, segment.head? ≠ some '/'))

/-- The last segment is the simple name, and those in front of it spell the namespace. -/
theorem exists_split (identifier : String) : ∃ front,
    split '.' identifier.toList = front ++ [(splitIdentifier identifier).2.toList] ∧
      segments (splitIdentifier identifier).1 =
        (front.filter fun s => !s.isEmpty).map String.ofList := by
  rw [splitIdentifier]
  cases hcut : splitLast? '.' identifier.toList with
  | none => exact ⟨[], split_of_not_mem (splitLast?_eq_none_iff.mp hcut), rfl⟩
  | some x =>
    obtain ⟨before, after⟩ := x
    obtain ⟨hcs, hafter⟩ := eq_of_splitLast? hcut
    refine ⟨split '.' before, ?_, by rw [segments, String.toList_ofList]⟩
    rw [hcs, split_append_sep, split_of_not_mem hafter, String.toList_ofList]

theorem isAbsolute_fileName : Path.isAbsolute ⟨name ++ "." ++ artifactExtension⟩ = true ↔
    name.toList.head? = some '/' := by
  rw [Path.isAbsolute, beq_iff_eq, String.toList_append, String.toList_append, List.append_assoc]
  cases name.toList with
  | nil => decide
  | cons c cs => simp

theorem isRelative_iff : IsRelative identifier ↔
    ∀ name ∈ names identifier, Path.isAbsolute ⟨name⟩ = false := by
  obtain ⟨front, hsplit, hsegments⟩ := exists_split identifier
  simp only [IsRelative, hsplit, names, hsegments, List.mem_append, List.mem_singleton,
    List.mem_map, List.mem_filter, ← Bool.not_eq_true]
  constructor
  · rintro h name (⟨segment, ⟨hsegment, -⟩, rfl⟩ | rfl)
    · rw [Path.isAbsolute, String.toList_ofList, beq_iff_eq]
      exact h segment (.inl hsegment)
    · rw [isAbsolute_fileName]
      exact h _ (.inr rfl)
  · rintro h segment (hsegment | rfl) hhead
    · refine h (.ofList segment) (.inl ⟨segment, ⟨hsegment, ?_⟩, rfl⟩) ?_
      · cases segment with
        | nil => cases hhead
        | cons c cs => rfl
      · rw [Path.isAbsolute, String.toList_ofList, beq_iff_eq]
        exact hhead
    · exact h _ (.inr rfl) (isAbsolute_fileName.mpr hhead)

/-- Without a point in it, a text has no pieces that lead elsewhere than down. -/
theorem isDown_of_no_point {cs piece : List Char} (h : '.' ∉ cs) (hpiece : piece ∈ split '/' cs) :
    Path.IsDown piece := by
  have hpoint : '.' ∉ piece := by
    intro hmem
    rw [← joined_split '/' cs] at h
    exact h (mem_joined hpiece hmem)
  constructor
  · rintro rfl
    exact hpoint (by decide)
  · rintro rfl
    exact hpoint (by decide)

theorem isDown_segment {base segment : String} (h : segment ∈ segments base) :
    ∀ piece ∈ Path.pieces ⟨segment⟩, Path.IsDown piece := by
  obtain ⟨cs, hcs, rfl⟩ := List.mem_map.mp h
  intro piece hpiece
  rw [Path.pieces, String.toList_ofList] at hpiece
  exact isDown_of_no_point (not_mem_of_mem_split (List.mem_of_mem_filter hcs)) hpiece

/-- A file name without a point, with the ending of units behind it, leads down to a name. -/
theorem isDown_fileName (h : '.' ∉ name.toList) :
    (∀ piece ∈ Path.pieces ⟨name ++ "." ++ artifactExtension⟩, Path.IsDown piece) ∧
      ∃ piece ∈ Path.pieces ⟨name ++ "." ++ artifactExtension⟩, Path.isIdle piece = false := by
  obtain ⟨front, last, hlast⟩ := (List.eq_nil_or_concat' (split '/' name.toList)).resolve_left
    (split_ne_nil _ _)
  have hpieces : Path.pieces ⟨name ++ "." ++ artifactExtension⟩ =
      front ++ [last ++ ".unit".toList] := by
    rw [Path.pieces, String.toList_append, String.toList_append, List.append_assoc]
    exact split_append_of_not_mem hlast (by decide)
  obtain ⟨hdown, hmeans⟩ : Path.IsDown (last ++ ".unit".toList) ∧
      Path.isIdle (last ++ ".unit".toList) = false := by
    apply Path.isDown_of_length
    rw [List.length_append]
    exact Nat.le_add_left_of_le (by decide)
  rw [hpieces]
  refine ⟨fun piece hpiece => ?_, _, List.mem_append_right _ (List.mem_singleton_self _), hmeans⟩
  rcases List.mem_append.mp hpiece with hpiece | hpiece
  · exact isDown_of_no_point h (by rw [hlast]; exact List.mem_append_left _ hpiece)
  · exact List.mem_singleton.mp hpiece ▸ hdown

theorem no_point_name (identifier : String) : '.' ∉ (splitIdentifier identifier).2.toList := by
  obtain ⟨front, hsplit, -⟩ := exists_split identifier
  exact not_mem_of_mem_split (by rw [hsplit]; simp)

/-- The path of a relative identifier goes on from every root. -/
theorem IsRelative.continues (h : IsRelative identifier) (root : Path) :
    ∃ more, Path.Continues root (artifactPath root identifier) more := by
  rw [isRelative_iff, names] at h
  have hname := h _ (List.mem_append_right _ (List.mem_singleton_self _))
  obtain ⟨hdown, hspeaks⟩ := isDown_fileName (no_point_name identifier)
  obtain ⟨habsolute, front, hfront, hall⟩ := Path.openPieces_below root
    fun segment hsegment =>
      ⟨h segment (List.mem_append_left _ hsegment), isDown_segment hsegment⟩
  rw [← folder_eq_below] at habsolute hfront
  refine ⟨front ++ Path.pieces ⟨(splitIdentifier identifier).2 ++ "." ++ artifactExtension⟩,
    (Path.isAbsolute_join_relative hname).trans habsolute, ?_, ?_, ?_⟩
  · rw [← List.append_assoc, ← hfront]
    exact Path.pieces_join_relative hname
  · intro piece hpiece
    exact (List.mem_append.mp hpiece).elim (hall piece) (hdown piece)
  · obtain ⟨piece, hpiece, hmeans⟩ := hspeaks
    exact ⟨piece, List.mem_append_right _ hpiece, hmeans⟩

/-- The path of any other identifier is absolute and the same for all roots. -/
theorem exists_artifactPath_absolute (h : ¬IsRelative identifier) :
    ∃ p : Path, p.isAbsolute = true ∧ ∀ root, artifactPath root identifier = p := by
  rw [isRelative_iff] at h
  push Not at h
  obtain ⟨name, hname, habsolute⟩ := h
  obtain ⟨p, hp, hall⟩ := Path.exists_below_absolute ⟨name, hname, by simpa using habsolute⟩
  exact ⟨p, hp, fun root => artifactPath_eq_below.trans (hall root)⟩

theorem isRelative_iff_under :
    IsRelative identifier ↔ ∀ root, Path.Under root (artifactPath root identifier) := by
  constructor
  · intro h root
    obtain ⟨more, hmore⟩ := h.continues root
    exact hmore.under
  · intro hunder
    by_contra h
    obtain ⟨p, -, hall⟩ := exists_artifactPath_absolute h
    exact Path.not_under_self (hall p ▸ hunder p)

/-- A folder is searched below itself. -/
theorem IsRelative.find?_eq (h : IsRelative identifier) (hagree : AgreeBelow root d e) :
    (ClassPath.Entry.folder root).find? e identifier =
      (ClassPath.Entry.folder root).find? d identifier := by
  obtain ⟨more, hmore⟩ := h.continues root
  rw [ClassPath.Entry.find?, ClassPath.Entry.find?, hagree.isFile hmore]
  split_ifs with hfile
  · obtain ⟨content, x, hlook⟩ := isFile_iff_look.mp hfile
    obtain ⟨P, hP, -⟩ := look_eq_ok_iff.mp hlook
    rw [Artifact.read, Artifact.read, readText, readText, hagree.read hmore hP]
  · rfl

/-- Storing a unit makes folders, and beyond that changes nothing but what lies below the folder
that it is stored in. -/
theorem IsRelative.write (h : IsRelative identifier) {a : Artifact}
    {r : Except ArtifactError Path} (ha : a.identifier = identifier)
    (hwrite : a.write d root = (r, d')) (Q : Place) :
    d'.entry? Q = d.entry? Q ∨ (d.entry? Q = none ∧ d'.entry? Q = some .folder) ∨
      ∃ R names, names ≠ [] ∧ d'.reach root = .ok R ∧ Q = R ++ names := by
  subst ha
  obtain ⟨more, hmore⟩ := h.continues root
  obtain ⟨made, hgrown, ⟨-, hsame⟩ | ⟨P, part, hP, hfree, hsets, -⟩⟩ := Artifact.write_sets hwrite
  · rw [hsame.entry?]
    exact (hgrown.entry? Q).imp_right .inl
  · rw [hsets.entry?]
    by_cases hQ : Q = P
    · obtain ⟨R, hR, rfl⟩ := names_of_continues hmore (place?_eq_ok_iff.mp hP).2
      refine .inr (.inr ⟨R, _, hmore.names_ne_nil, ?_, hQ⟩)
      rw [reach, start, hsets.current, ← start]
      exact walk_mono (fun G hG => hsets.folder hfree hG) hR
    · rw [if_neg hQ]
      exact (hgrown.entry? Q).imp_right .inl

/-- Look-ups stay below their folder for just those identifiers of which no segment starts with a
separator: every root is continued by names alone, whatever lies elsewhere does not matter for what
is found, and storing a unit changes nothing elsewhere but for folders that are made. All other
identifiers lead to one absolute path, whatever the root is. -/
theorem artifactPath_stays_below (identifier : String) :
    (IsRelative identifier ↔ ∀ root, Path.Under root (artifactPath root identifier)) ∧
    (¬IsRelative identifier →
      ∃ p : Path, p.isAbsolute = true ∧ ∀ root, artifactPath root identifier = p) ∧
    (IsRelative identifier → ∀ root,
      (∀ d e, AgreeBelow root d e → (ClassPath.Entry.folder root).find? e identifier =
        (ClassPath.Entry.folder root).find? d identifier) ∧
      ∀ (a : Artifact) (d d' : Disk) r, a.identifier = identifier → a.write d root = (r, d') →
        ∀ Q, d'.entry? Q = d.entry? Q ∨ (d.entry? Q = none ∧ d'.entry? Q = some .folder) ∨
          ∃ R names, names ≠ [] ∧ d'.reach root = .ok R ∧ Q = R ++ names) := by
  refine ⟨isRelative_iff_under, exists_artifactPath_absolute, fun h root => ⟨?_, ?_⟩⟩
  · exact fun d e hagree => h.find?_eq hagree
  · exact fun a d d' r ha hwrite Q => h.write ha hwrite Q

/-- A disk with an empty folder of units, and a unit elsewhere. -/
def secretDisk : Disk where
  entries := [(["srv"], .folder), (["srv", "classes"], .folder), (["etc"], .folder),
    (["etc", "secret.unit"], .file (Text.encode
      "\x7b\"identifier\":\"Secret\",\"kind\":\"rule\",\"constructible\":true\x7d") false)]

/-- A unit with the identifier that leads there. -/
def secret : Artifact where
  identifier := "/etc/secret"
  kind := .rule
  constructible := true

/-- A separator inside a segment leads down like a point. -/
theorem artifactPath_stays_below_lamp : IsRelative "items.hall/Lamp" ∧
    (∀ root, Path.Under root (artifactPath root "items.hall/Lamp")) ∧
    artifactPath ⟨"/srv/classes"⟩ "items.hall/Lamp" = ⟨"/srv/classes/items/hall/Lamp.unit"⟩ ∧
    (∀ e, AgreeBelow ⟨"/srv/classes"⟩ secretDisk e →
      (ClassPath.Entry.folder ⟨"/srv/classes"⟩).find? e "items.hall/Lamp" = .ok none) ∧
    ∃ d', ({ secret with identifier := "items.hall/Lamp" } : Artifact).write secretDisk
        ⟨"/srv/classes"⟩ = (.ok ⟨"/srv/classes/items/hall/Lamp.unit"⟩, d') ∧
      ∀ Q, d'.entry? Q = secretDisk.entry? Q ∨
        (secretDisk.entry? Q = none ∧ d'.entry? Q = some .folder) ∨
        ∃ R names, names ≠ [] ∧ d'.reach ⟨"/srv/classes"⟩ = .ok R ∧ Q = R ++ names := by
  have hrelative : IsRelative "items.hall/Lamp" := by decide
  obtain ⟨hunder, -, hconfined⟩ := artifactPath_stays_below "items.hall/Lamp"
  obtain ⟨hfind, hwrite⟩ := hconfined hrelative ⟨"/srv/classes"⟩
  refine ⟨hrelative, hunder.mp hrelative, by decide +kernel, fun e he => ?_, ?_⟩
  · rw [hfind secretDisk e he]
    decide +kernel
  · have hstored : (({ secret with identifier := "items.hall/Lamp" } : Artifact).write secretDisk
        ⟨"/srv/classes"⟩).1 = .ok ⟨"/srv/classes/items/hall/Lamp.unit"⟩ := by
      decide +kernel
    exact ⟨_, Prod.ext hstored rfl, hwrite _ secretDisk _ _ rfl rfl⟩

/-- With a separator in front, a look-up finds a unit outside the folder that is searched, and
storing a unit replaces it. -/
theorem artifactPath_leaves :
    artifactPath ⟨"/srv/classes"⟩ "/etc/secret" = ⟨"/etc/secret.unit"⟩ ∧
    ¬Path.Under ⟨"/srv/classes"⟩ (artifactPath ⟨"/srv/classes"⟩ "/etc/secret") ∧
    (ClassPath.Entry.folder ⟨"/srv/classes"⟩).find? secretDisk "/etc/secret" =
      .ok (some { secret with identifier := "Secret" }) ∧
    ∃ d', secret.write secretDisk ⟨"/srv/classes"⟩ = (.ok ⟨"/etc/secret.unit"⟩, d') ∧
      d'.entry? ["etc", "secret.unit"] = some (.file (Text.encode secret.text) false) := by
  have hpath : artifactPath ⟨"/srv/classes"⟩ "/etc/secret" = ⟨"/etc/secret.unit"⟩ := by
    decide +kernel
  have hcomponents :
      ¬Path.components ⟨"/srv/classes"⟩ <+: Path.components ⟨"/etc/secret.unit"⟩ := by
    decide +kernel
  have hstored : (secret.write secretDisk ⟨"/srv/classes"⟩).1 = .ok ⟨"/etc/secret.unit"⟩ ∧
      Disk.entry? (secret.write secretDisk ⟨"/srv/classes"⟩).2 ["etc", "secret.unit"] =
        some (.file (Text.encode secret.text) false) := by
    decide +kernel
  refine ⟨hpath, ?_, by decide +kernel, _, Prod.ext hstored.1 rfl, hstored.2⟩
  rw [hpath]
  rintro ⟨names, -, hnames⟩
  exact hcomponents ⟨_, hnames.symm⟩

end Naming

end LiveRules
