import LiveRules.Proofs.Files.Finding

/-!
Disks that differ in one file. The file is there on the first disk, and on the second one it may
have another content, be missing or fail to be read; nothing else is different. So every path leads
to the same place on both, what lies at another place is read alike, and a search collects the same
other paths.
-/

namespace LiveRules.Disk

variable {d e : Disk} {p q : Path} {P Q : Place} {ext : String}

structure DifferAt (P : Place) (d e : Disk) : Prop where
  left : d.IsTree
  right : e.IsTree
  current : e.current = d.current
  trouble? : ∀ op Q, (op = .read → Q ≠ P) → e.trouble? op Q = d.trouble? op Q
  entry? : ∀ Q, Q ≠ P → e.entry? Q = d.entry? Q
  hasFile : d.HasFile P
  noFolder : e.entry? P ≠ some .folder

namespace DifferAt

theorem trouble?_look (h : DifferAt P d e) (Q : Place) : e.trouble? .look Q = d.trouble? .look Q :=
  h.trouble? .look Q fun hread => by cases hread

theorem folder_iff (h : DifferAt P d e) :
    e.entry? Q = some .folder ↔ d.entry? Q = some .folder := by
  by_cases hQ : Q = P
  · subst hQ
    obtain ⟨content, x, hfile⟩ := h.hasFile
    simp [h.noFolder, hfile]
  · rw [h.entry? Q hQ]

theorem place?_iff (h : DifferAt P d e) : e.place? p = .ok Q ↔ d.place? p = .ok Q :=
  ⟨place?_mono h.current.symm fun _ => h.folder_iff.mp,
    place?_mono h.current fun _ => h.folder_iff.mpr⟩

theorem hasFile_iff (h : DifferAt P d e) (hQ : Q ≠ P) : e.HasFile Q ↔ d.HasFile Q := by
  rw [HasFile, HasFile, h.entry? Q hQ]

theorem read (h : DifferAt P d e) (hp : d.place? p = .ok Q) (hQ : Q ≠ P) :
    e.read p = d.read p := by
  simp only [Disk.read, h.place?_iff.mpr hp, hp, bind, Except.bind, h.trouble? .read Q fun _ => hQ,
    h.entry? Q hQ]

theorem isFolder (h : DifferAt P d e) (p : Path) : e.isFolder p = d.isFolder p := by
  rw [Bool.eq_iff_iff, isFolder_iff_look, isFolder_iff_look, look_eq_ok_iff, look_eq_ok_iff]
  simp only [h.place?_iff, h.trouble?_look, h.folder_iff]

/-- A path that does not lead to the place is a file on both disks or on none. One that does is a
file on the first disk if it is one on the second. -/
theorem isFile (h : DifferAt P d e) (hp : d.place? p = .ok P → d.isFile p = false) :
    e.isFile p = d.isFile p := by
  rw [Bool.eq_iff_iff, isFile_iff_look, isFile_iff_look]
  simp only [look_eq_ok_iff, h.place?_iff, h.trouble?_look]
  constructor
  · rintro ⟨content, x, Q, hQ, hlook, hfile⟩
    by_cases hne : Q = P
    · -- the file on the first disk can be looked at just as well
      subst hne
      obtain ⟨content', x', hfile'⟩ := h.hasFile
      exact ⟨content', x', Q, hQ, hlook, hfile'⟩
    · exact ⟨content, x, Q, hQ, hlook, by rw [← h.entry? Q hne, hfile]⟩
  · rintro ⟨content, x, Q, hQ, hlook, hfile⟩
    have hne : Q ≠ P := by
      rintro rfl
      have hno := hp hQ
      rw [isFile_iff_look.mpr ⟨content, x, look_eq_ok_iff.mpr ⟨Q, hQ, hlook, hfile⟩⟩] at hno
      cases hno
    exact ⟨content, x, Q, hQ, hlook, by rw [h.entry? Q hne, hfile]⟩

theorem canList (h : DifferAt P d e) (F : Place) (names : List String) :
    e.canList F names = d.canList F names := by
  induction names generalizing F with
  | nil => rfl
  | cons name rest ih =>
    have hlist : e.trouble? .list F = d.trouble? .list F :=
      h.trouble? .list F fun hread => by cases hread
    rw [Disk.canList, Disk.canList, hlist, ih]

/-- A search collects the same paths, but for the one that leads to the place. -/
theorem collect_filter (h : DifferAt P d e) (hp : p ∈ d.collect q ext)
    (hplace : d.place? p = .ok P) :
    (e.collect q ext).filter (· ≠ p) = (d.collect q ext).filter (· ≠ p) := by
  refine h.left.filter_collect_eq h.right _ fun r hr => ?_
  rw [decide_eq_true_eq] at hr
  obtain ⟨-, F, names, hF, hne, hfile, -, -, -, rfl⟩ := h.left.mem_collect.mp hp
  obtain ⟨G, hG, rfl⟩ := place?_below (h.left.isNames_of_hasFile hfile) hne
    (place?_eq_ok_iff.mp hF).1.ne_empty hplace
  rw [h.right.mem_collect, h.left.mem_collect, h.isFolder]
  apply and_congr_right'
  apply exists_congr
  intro F'
  rw [h.place?_iff]
  apply exists_congr
  intro more
  apply and_congr_right
  intro hF'
  -- other names lead to another place
  have hother (hmore : r = below q more) : F' ++ more ≠ G ++ names := by
    intro heq
    cases hG.symm.trans hF'
    exact hr (by rw [hmore, List.append_cancel_left heq])
  constructor
  · rintro ⟨hne, hfile, hvisible, hlist, hext, hmore⟩
    exact ⟨hne, (h.hasFile_iff (hother hmore)).mp hfile, hvisible, h.canList F' more ▸ hlist,
      hext, hmore⟩
  · rintro ⟨hne, hfile, hvisible, hlist, hext, hmore⟩
    exact ⟨hne, (h.hasFile_iff (hother hmore)).mpr hfile, hvisible, h.canList F' more ▸ hlist,
      hext, hmore⟩

end DifferAt

end LiveRules.Disk
