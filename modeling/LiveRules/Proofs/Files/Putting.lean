import LiveRules.Proofs.Files.Finding

/-!
Paths that take files. Where a path leads to no folder a file can be put and taken away, and what
lies elsewhere stays; folders that are made on the way lie below the folder that the path starts
from.
-/

namespace LiveRules.Path

variable {p q : Path} {n : String}

/-- A path that ends in a name is trimmed already. -/
theorem IsTrimmed.eq_join (hn : IsName n) (h : IsTrimmed (p.join ⟨n⟩) q) : q = p.join ⟨n⟩ := by
  obtain ⟨kept, i, j, hne, hpi, hqj, hi, -⟩ := h.pieces
  have hnil : i = [] := by
    by_contra hno
    have hlast := congrArg List.getLast? hpi
    rw [pieces_join hn, List.getLast?_concat, List.getLast?_append_of_ne_nil _ hno] at hlast
    have hidle := hi _ (List.mem_of_getLast? hlast.symm)
    rw [hn.not_idle] at hidle
    cases hidle
  have htext (x : Path) : x.text.toList = Text.joined ['/'] x.pieces :=
    (Text.joined_split '/' x.text.toList).symm
  rw [hnil, List.append_nil] at hpi
  rw [← hpi] at hqj
  by_cases hj : j = []
  · rw [hj, List.append_nil] at hqj
    have heq := htext q
    rw [hqj, ← htext, String.toList_inj] at heq
    exact congrArg Path.mk heq
  · -- a longer path is no front of the path
    have hlength := h.text.length_le
    rw [htext q, hqj, Text.joined_append pieces_ne_nil hj, ← htext] at hlength
    rw [List.length_append, List.length_append, List.length_singleton] at hlength
    omega

end LiveRules.Path

namespace LiveRules.Disk

variable {d d' e : Disk} {p q root : Path} {P Q R F : Place} {n : String} {names : List String}
variable {content : Text.Bytes} {r : Except OsError Unit}

/-- A file can be put at a path: it leads to a place where no folder is. -/
structure Accepts (d : Disk) (p : Path) (P : Place) : Prop where
  place : d.place? p = .ok P
  free : d.entry? P ≠ some .folder

theorem Accepts.write (h : d.Accepts p P) (hd : d.Regular) (content : Text.Bytes) : ∃ d',
    d.write p content = (.ok (), d') ∧ d'.Regular ∧
      Sets P (some (.file content (d.isExecutable P))) d d' := by
  rcases hw : d.write p content with ⟨r, d'⟩
  obtain ⟨hd', ⟨rfl, Q, hQ, -, hsets⟩ | ⟨-, hno, -⟩⟩ := write_spec hd hw
  · obtain rfl : P = Q := Except.ok.inj (h.place.symm.trans hQ)
    exact ⟨d', rfl, hd', hsets⟩
  · exact absurd (hno P h.place) h.free

theorem Same.sets (h : Same d e) (hP : d.entry? P = none) : Sets P none d e := by
  refine ⟨h.current, h.troubles, fun Q => ?_⟩
  by_cases hQ : Q = P
  · rw [if_pos hQ, h.entry?, hQ, hP]
  · rw [if_neg hQ, h.entry?]

/-- Taking a file away fails only for want of a file. -/
theorem Accepts.removeFile (h : d.Accepts p P) (hd : d.Regular) : ∃ r d',
    d.removeFile p = (r, d') ∧ (r = .ok () ∨ r = .error .notFound) ∧ d'.Regular ∧
      Sets P none d d' := by
  rcases hr : d.removeFile p with ⟨r, d'⟩
  refine ⟨r, d', rfl, ?_⟩
  obtain ⟨hd', ⟨rfl, Q, old, x, hQ, -, hsets⟩ | ⟨err, rfl, hsame, hwhy⟩⟩ := removeFile_spec hd hr
  · obtain rfl : P = Q := Except.ok.inj (h.place.symm.trans hQ)
    exact ⟨.inl rfl, hd', hsets⟩
  · obtain ⟨hnone, rfl⟩ := (hwhy P h.place).resolve_right h.free
    exact ⟨.inr rfl, hd', hsame.sets hnone⟩

/-- Moving a file onto a path that accepts it. -/
theorem Accepts.move (h : d.Accepts q Q) (hd : d.Regular) (hp : d.place? p = .ok P)
    (hfile : d.HasFile P) : ∃ d', d.move p q = (.ok (), d') ∧ d'.Regular ∧ Moved P Q d d' := by
  rcases hm : d.move p q with ⟨r, d'⟩
  obtain ⟨hd', ⟨rfl, S, T, hS, hT, hmoved⟩ | ⟨-, -, hwhy⟩⟩ := move_spec hd hm
  · obtain rfl : P = S := Except.ok.inj (hp.symm.trans hS)
    obtain rfl : Q = T := Except.ok.inj (h.place.symm.trans hT)
    exact ⟨d', rfl, hd', hmoved⟩
  · obtain ⟨content, x, hx⟩ := hfile
    rcases hwhy P Q hp h.place with hno | hfolder
    · exact absurd hx (hno content x)
    · exact absurd hfolder h.free

theorem Accepts.read (h : d.Accepts p P) (hd : d.Sound) {x : Bool}
    (hfile : d.entry? P = some (.file content x)) : d.read p = .ok content :=
  (read_eq_ok_iff hd).mpr ⟨P, x, h.place, hfile⟩

/-! ### Folders on the way -/

/-- The folder that a file lies in need not be made. -/
theorem makeFolders_parent (hd : d.Regular) (hn : Path.IsName n) (hp : d.place? p = .ok F)
    (hF : d.entry? F = some .folder) : ∃ d',
      d.makeFolders ((p.join ⟨n⟩).parent?.getD ⟨""⟩) = (.ok (), d') ∧ d'.Regular ∧ Same d d' := by
  obtain ⟨q, hq, htrimmed⟩ := Path.exists_parent_join hn (place?_eq_ok_iff.mp hp).1.ne_empty
  rw [hq, Option.getD_some]
  apply makeFolders_of_isFolder hd
  exact .inr ((isFolder_iff hd.sound).mpr ⟨F, place?_trimmed htrimmed hF hp, hF⟩)

/-- Nothing changes but at the places on the way from a folder down along some names. -/
def OnTheWay (R : Place) (names : List String) (d e : Disk) : Prop :=
  ∀ Q, e.entry? Q = d.entry? Q ∨ ∃ front, front ≠ [] ∧ front <+: names ∧ Q = R ++ front

theorem Same.onTheWay (h : Same d e) : OnTheWay R names d e := fun Q => .inl (h.entry? Q)

theorem text_below_ne_empty (h : ∀ name ∈ names, Path.IsName name) (hroot : root.text ≠ "") :
    (below root names).text ≠ "" := by
  intro hno
  have hprefix := Path.prefix_below (p := root) h
  rw [hno] at hprefix
  exact hroot (String.toList_eq_nil_iff.mp (List.prefix_nil.mp hprefix))

theorem onTheWay_makeFolder (hd : d.Regular) (hnames : ∀ name ∈ names, Path.IsName name)
    (hne : names ≠ []) (hroot : d.place? root = .ok R)
    (hm : d.makeFolder (below root names) = (r, d')) : OnTheWay R names d d' := by
  obtain ⟨-, ⟨-, P, hP, -, hsets⟩ | ⟨-, hsame⟩⟩ := makeFolder_spec hd hm
  · obtain ⟨F, hF, rfl⟩ := place?_below hnames hne (place?_eq_ok_iff.mp hroot).1.ne_empty hP
    obtain rfl : R = F := Except.ok.inj (hroot.symm.trans hF)
    intro Q
    by_cases hQ : Q = R ++ names
    · exact .inr ⟨names, hne, List.prefix_rfl, hQ⟩
    · rw [hsets.entry?, if_neg hQ]
      exact .inl rfl
  · exact hsame.onTheWay

end LiveRules.Disk
