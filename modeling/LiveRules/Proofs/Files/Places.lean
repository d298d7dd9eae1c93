import LiveRules.Proofs.Files.Tree

/-!
Where paths lead. Following a path is a walk along its pieces; a name that is joined to a path is
one more step, from the folder that the path leads to. Places stay the same when folders are added
to a disk.
-/

namespace LiveRules

/-- The text of a path can be followed at all. -/
structure Path.IsPlain (p : Path) : Prop where
  no_nul : '\x00' ∉ p.text.toList
  ne_empty : p.text ≠ ""
  short : p.text.utf8ByteSize ≤ Disk.pathLimit

/-- What a path that can be followed starts with can be followed. -/
theorem Path.IsPlain.of_prefix {p q : Path} (h : q.IsPlain) (hp : p.text ≠ "")
    (hfront : p.text.toList <+: q.text.toList) : p.IsPlain := by
  refine ⟨fun hnul => h.no_nul (hfront.subset hnul), hp, ?_⟩
  obtain ⟨more, hmore⟩ := hfront
  have htext : q.text = p.text ++ .ofList more := by
    rw [← String.toList_inj, ← hmore, String.toList_append, String.toList_ofList]
  have hshort := h.short
  rw [htext, String.utf8ByteSize_append] at hshort
  omega

namespace Disk

variable {d e : Disk} {p q : Path} {P Q F : Place} {n : String} {xs ys : List (List Char)}

/-- Where following a path starts. -/
def start (d : Disk) (p : Path) : Place := if p.isAbsolute then [] else d.current

/-- Where the pieces of a path lead. -/
def reach (d : Disk) (p : Path) : Except OsError Place := d.walk (d.start p) p.pieces

/-! ### Walks -/

theorem walk_idle {piece : List Char} (hF : d.entry? F = some .folder)
    (h : Path.isIdle piece = true) : d.walk F (piece :: xs) = d.walk F xs := by
  rw [walk, hF]
  dsimp only
  rw [if_pos h]

/-- The first step of a walk: it stays, goes up or goes to a name. -/
theorem walk_cons_eq_ok {piece : List Char} (h : d.walk F (piece :: xs) = .ok P) :
    d.entry? F = some .folder ∧
      ((Path.isIdle piece = true ∧ d.walk F xs = .ok P) ∨
        (Path.isIdle piece = false ∧ piece = ['.', '.'] ∧ d.walk F.dropLast xs = .ok P) ∨
        (Path.isIdle piece = false ∧ piece ≠ ['.', '.'] ∧
          (String.ofList piece).utf8ByteSize ≤ nameLimit ∧
          d.walk (F ++ [.ofList piece]) xs = .ok P)) := by
  rw [walk] at h
  cases hF : d.entry? F with
  | none =>
    rw [hF] at h
    cases h
  | some entry =>
    cases entry with
    | file content executable =>
      rw [hF] at h
      cases h
    | folder =>
      rw [hF] at h
      dsimp only at h
      refine ⟨rfl, ?_⟩
      by_cases hidle : Path.isIdle piece = true
      · rw [if_pos hidle] at h
        exact .inl ⟨hidle, h⟩
      · have hidle' : Path.isIdle piece = false := by simpa using hidle
        rw [if_neg hidle] at h
        by_cases hup : piece = ['.', '.']
        · rw [if_pos hup] at h
          exact .inr (.inl ⟨hidle', hup, h⟩)
        · rw [if_neg hup] at h
          by_cases hlong : nameLimit < (String.ofList piece).utf8ByteSize
          · rw [if_pos hlong] at h
            cases h
          · rw [if_neg hlong] at h
            exact .inr (.inr ⟨hidle', hup, by omega, h⟩)

/-- A step to a name. -/
theorem walk_name (h : Path.IsName n) (hF : d.entry? F = some .folder)
    (hn : n.utf8ByteSize ≤ nameLimit) : d.walk F (n.toList :: xs) = d.walk (F ++ [n]) xs := by
  rw [walk, hF]
  dsimp only
  rw [if_neg (by simp [h.not_idle]), if_neg h.ne_up_chars, String.ofList_toList,
    if_neg (by omega)]

theorem walk_name_eq_ok_iff (h : Path.IsName n) : d.walk F [n.toList] = .ok P ↔
    d.entry? F = some .folder ∧ n.utf8ByteSize ≤ nameLimit ∧ P = F ++ [n] := by
  constructor
  · intro hw
    obtain ⟨hF, ⟨hidle, -⟩ | ⟨-, hup, -⟩ | ⟨-, -, hn, hw⟩⟩ := walk_cons_eq_ok hw
    · rw [h.not_idle] at hidle
      cases hidle
    · exact absurd hup h.ne_up_chars
    · rw [String.ofList_toList] at hn hw
      cases hw
      exact ⟨hF, hn, rfl⟩
  · rintro ⟨hF, hn, rfl⟩
    rw [walk_name h hF hn, walk]

theorem walk_append : d.walk F (xs ++ ys) = .ok P ↔
    ∃ Q, d.walk F xs = .ok Q ∧ d.walk Q ys = .ok P := by
  induction xs generalizing F with
  | nil => simp [walk]
  | cons piece rest ih =>
    rw [List.cons_append, walk, walk]
    cases d.entry? F with
    | none => simp
    | some entry =>
      cases entry with
      | file content executable => simp
      | folder =>
        dsimp only
        split_ifs
        · exact ih
        · exact ih
        · simp
        · exact ih

/-- Pieces that say nothing lead nowhere else. -/
theorem walk_idles (hxs : ∀ piece ∈ xs, Path.isIdle piece = true)
    (hF : d.entry? F = some .folder) : d.walk F xs = .ok F := by
  induction xs with
  | nil => rfl
  | cons piece rest ih =>
    rw [walk_idle hF (hxs piece List.mem_cons_self)]
    exact ih fun q hq => hxs q (List.mem_cons_of_mem piece hq)

theorem eq_of_walk_idles (hxs : ∀ piece ∈ xs, Path.isIdle piece = true)
    (h : d.walk F xs = .ok P) : P = F := by
  cases xs with
  | nil =>
    cases h
    rfl
  | cons piece rest =>
    have hF := (walk_cons_eq_ok h).1
    rw [walk_idles hxs hF] at h
    cases h
    rfl

/-- A walk ends in a folder or below one. -/
theorem walk_end (ht : d.IsTree) (hF : d.entry? F = some .folder)
    (hxs : ∀ piece ∈ xs, '/' ∉ piece) (h : d.walk F xs = .ok P) :
    d.entry? P = some .folder ∨ ∃ G n, P = G ++ [n] ∧ d.entry? G = some .folder ∧
      Path.IsName n ∧ n.utf8ByteSize ≤ nameLimit := by
  induction xs generalizing F with
  | nil =>
    cases h
    exact .inl hF
  | cons piece rest ih =>
    have hrest : ∀ q ∈ rest, '/' ∉ q := fun q hq => hxs q (List.mem_cons_of_mem piece hq)
    obtain ⟨-, ⟨-, hw⟩ | ⟨-, -, hw⟩ | ⟨hidle, hup, hn, hw⟩⟩ := walk_cons_eq_ok h
    · exact ih hF hrest hw
    · refine ih ?_ hrest hw
      induction F using List.reverseRecOn with
      | nil => rfl
      | append_singleton G name _ =>
        rw [List.dropLast_concat]
        exact ht.parent (by rw [hF]; simp)
    · have hname : Path.IsName (.ofList piece) := by
        refine Path.isName_of_mem_pieces (p := ⟨.ofList piece⟩) ?_ hidle hup
        rw [Path.pieces, String.toList_ofList, Text.split_of_not_mem (hxs piece List.mem_cons_self)]
        exact List.mem_singleton_self _
      cases rest with
      | nil =>
        cases hw
        exact .inr ⟨F, _, rfl, hF, hname, hn⟩
      | cons second more => exact ih (walk_cons_eq_ok hw).1 hrest hw

/-- Places stay where they are when folders are added. -/
theorem walk_mono (hfolder : ∀ Q, d.entry? Q = some .folder → e.entry? Q = some .folder)
    (h : d.walk F xs = .ok P) : e.walk F xs = .ok P := by
  induction xs generalizing F with
  | nil => exact h
  | cons piece rest ih =>
    obtain ⟨hF, hstep⟩ := walk_cons_eq_ok h
    rw [walk, hfolder F hF]
    dsimp only
    rcases hstep with ⟨hidle, hw⟩ | ⟨hidle, hup, hw⟩ | ⟨hidle, hup, hn, hw⟩
    · rw [if_pos hidle]
      exact ih hw
    · rw [if_neg (by simp [hidle]), if_pos hup]
      exact ih hw
    · rw [if_neg (by simp [hidle]), if_neg hup, if_neg (by omega)]
      exact ih hw

theorem walk_congr (h : ∀ Q, e.entry? Q = d.entry? Q) : e.walk F xs = d.walk F xs := by
  induction xs generalizing F with
  | nil => rfl
  | cons piece rest ih => simp only [walk, h, ih]

/-! ### Paths -/

theorem start_join (h : Path.IsName n) : d.start (p.join ⟨n⟩) = d.start p := by
  rw [start, start, Path.isAbsolute_join h]

theorem reach_join (h : Path.IsName n) : d.reach (p.join ⟨n⟩) = .ok P ↔
    ∃ F, d.reach p = .ok F ∧ d.entry? F = some .folder ∧ n.utf8ByteSize ≤ nameLimit ∧
      P = F ++ [n] := by
  obtain ⟨idles, hidles, hall⟩ := Path.pieces_eq_openPieces (p := p)
  rw [reach, start_join h, Path.pieces_join h, walk_append, reach, hidles]
  refine exists_congr fun F => ?_
  rw [walk_name_eq_ok_iff h]
  constructor
  · rintro ⟨hw, hF, hn, hP⟩
    exact ⟨walk_append.mpr ⟨F, hw, walk_idles hall hF⟩, hF, hn, hP⟩
  · rintro ⟨hw, hF, hn, hP⟩
    obtain ⟨G, hG, hi⟩ := walk_append.mp hw
    rw [eq_of_walk_idles hall hi]
    exact ⟨hG, eq_of_walk_idles hall hi ▸ hF, hn, eq_of_walk_idles hall hi ▸ hP⟩

/-- A path leads to the same folder without the separators at its end. -/
theorem reach_trimmed (h : Path.IsTrimmed p q) (hF : d.entry? F = some .folder)
    (hp : d.reach p = .ok F) : d.reach q = .ok F := by
  obtain ⟨kept, i, j, -, hpi, hqj, hi, hj⟩ := h.pieces
  rw [reach, hpi] at hp
  obtain ⟨G, hG, hw⟩ := walk_append.mp hp
  obtain rfl := eq_of_walk_idles hi hw
  have hstart : d.start q = d.start p := by rw [start, start, h.isAbsolute]
  rw [reach, hqj, hstart]
  exact walk_append.mpr ⟨F, hG, walk_idles hj hF⟩

theorem reach_below {names : List String} (hnames : ∀ name ∈ names, Path.IsName name)
    (hne : names ≠ []) (h : d.reach (below p names) = .ok P) :
    ∃ F, d.reach p = .ok F ∧ P = F ++ names := by
  induction names generalizing p with
  | nil => exact absurd rfl hne
  | cons name rest ih =>
    have hname := hnames name List.mem_cons_self
    by_cases hrest : rest = []
    · subst hrest
      obtain ⟨F, hF, -, -, hP⟩ := (reach_join hname).mp h
      exact ⟨F, hF, hP⟩
    · obtain ⟨G, hG, hP⟩ := ih (fun q hq => hnames q (List.mem_cons_of_mem name hq)) hrest h
      obtain ⟨F, hF, -, -, hGF⟩ := (reach_join hname).mp hG
      exact ⟨F, hF, by rw [hP, hGF, List.append_assoc]; rfl⟩

theorem place?_eq_ok_iff : d.place? p = .ok P ↔ p.IsPlain ∧ d.reach p = .ok P := by
  have hreach : (if p.isAbsolute then d.walk [] (p.pieces.drop 1) else d.walk d.current p.pieces) =
      d.reach p := by
    rw [reach, start]
    split <;> rename_i habs
    · obtain ⟨rest, -, hrest⟩ := Path.isAbsolute_iff.mp habs
      rw [hrest, walk_idle root_is_folder rfl]
      rfl
    · rfl
  unfold place?
  split_ifs with hnul hempty hlong habs
  · simp only [false_iff, not_and]
    exact fun h => absurd (List.contains_iff_mem.mp hnul) h.no_nul
  · simp only [false_iff, not_and]
    exact fun h => absurd (Path.isEmpty_iff.mp hempty) h.ne_empty
  · simp only [false_iff, not_and]
    exact fun h => absurd h.short (by omega)
  all_goals
    have hplain : p.IsPlain := by
      refine ⟨fun h => hnul (List.contains_iff_mem.mpr h), fun h => hempty ?_, by omega⟩
      exact Path.isEmpty_iff.mpr h
    simp only [← hreach, habs, hplain, true_and, if_true, if_false, Bool.false_eq_true]

theorem place?_mono (hcurrent : e.current = d.current)
    (hfolder : ∀ Q, d.entry? Q = some .folder → e.entry? Q = some .folder)
    (h : d.place? p = .ok P) : e.place? p = .ok P := by
  rw [place?_eq_ok_iff] at h ⊢
  refine ⟨h.1, ?_⟩
  rw [reach, start, hcurrent]
  exact walk_mono hfolder h.2

theorem place?_congr (hcurrent : e.current = d.current) (h : ∀ Q, e.entry? Q = d.entry? Q) :
    e.place? p = d.place? p := by
  simp only [place?, hcurrent, walk_congr h]

/-- A path leads to a folder or into one. -/
theorem place?_end (ht : d.IsTree) (h : d.place? p = .ok P) :
    d.entry? P = some .folder ∨ ∃ G n, P = G ++ [n] ∧ d.entry? G = some .folder ∧
      Path.IsName n ∧ n.utf8ByteSize ≤ nameLimit := by
  obtain ⟨-, hreach⟩ := place?_eq_ok_iff.mp h
  have hslash : ∀ piece ∈ p.pieces, '/' ∉ piece := fun _ h => Text.not_mem_of_mem_split h
  obtain ⟨first, rest, hpieces⟩ := List.exists_cons_of_ne_nil (Path.pieces_ne_nil (p := p))
  rw [reach, hpieces] at hreach
  rw [hpieces] at hslash
  exact walk_end ht (walk_cons_eq_ok hreach).1 hslash hreach

/-- A name that is joined to a path lies in the folder that the path leads to. -/
theorem place?_join (h : Path.IsName n) (hp : p.text ≠ "") (hj : d.place? (p.join ⟨n⟩) = .ok P) :
    ∃ F, d.place? p = .ok F ∧ d.entry? F = some .folder ∧ P = F ++ [n] := by
  obtain ⟨hplain, hreach⟩ := place?_eq_ok_iff.mp hj
  obtain ⟨F, hF, hfolder, -, hP⟩ := (reach_join h).mp hreach
  exact ⟨F, place?_eq_ok_iff.mpr ⟨hplain.of_prefix hp (Path.prefix_join h), hF⟩, hfolder, hP⟩

theorem place?_below {names : List String} (hnames : ∀ name ∈ names, Path.IsName name)
    (hne : names ≠ []) (hp : p.text ≠ "") (h : d.place? (below p names) = .ok P) :
    ∃ F, d.place? p = .ok F ∧ P = F ++ names := by
  obtain ⟨hplain, hreach⟩ := place?_eq_ok_iff.mp h
  obtain ⟨F, hF, hP⟩ := reach_below hnames hne hreach
  exact ⟨F, place?_eq_ok_iff.mpr ⟨hplain.of_prefix hp (Path.prefix_below hnames), hF⟩, hP⟩

theorem place?_trimmed (h : Path.IsTrimmed p q) (hF : d.entry? F = some .folder)
    (hp : d.place? p = .ok F) : d.place? q = .ok F := by
  obtain ⟨hplain, hreach⟩ := place?_eq_ok_iff.mp hp
  exact place?_eq_ok_iff.mpr
    ⟨hplain.of_prefix (h.ne_empty hplain.ne_empty) h.text, reach_trimmed h hF hreach⟩

end Disk

end LiveRules
