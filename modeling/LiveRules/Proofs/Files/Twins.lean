import LiveRules.Proofs.Files.Finding

/-!
Disks that hold the same. What is read from them is the same, whatever the order in which their
entries were made, and an operation does the same to both.
-/

namespace LiveRules.Disk

variable {d e : Disk} {p q : Path} {P : Place} {ext : String}

structure Twins (d e : Disk) : Prop where
  left : d.Regular
  right : e.Regular
  same : Same d e

theorem Twins.refl (h : d.Regular) : Twins d d := ⟨h, h, .refl⟩

theorem Same.symm (h : Same d e) : Same e d :=
  ⟨h.current.symm, h.troubles.symm, fun Q => (h.entry? Q).symm⟩

theorem Twins.symm (h : Twins d e) : Twins e d := ⟨h.right, h.left, h.same.symm⟩

theorem Twins.trans {c : Disk} (h : Twins d e) (h' : Twins e c) : Twins d c :=
  ⟨h.left, h'.right, h.same.trans h'.same⟩

/-- Sound disks have no troubles in common. -/
theorem Sound.troubles_eq (hd : d.Sound) (he : e.Sound) : e.troubles = d.troubles := by
  funext n op place
  rw [hd n op place, he n op place]

/-! ### Reading -/

namespace Twins

theorem place? (h : Twins d e) (p : Path) : e.place? p = d.place? p :=
  place?_congr h.same.current h.same.entry?

theorem look (h : Twins d e) (p : Path) : e.look p = d.look p := by
  simp only [Disk.look, h.place?, h.same.entry?, h.left.sound.trouble?, h.right.sound.trouble?]

theorem isFile (h : Twins d e) (p : Path) : e.isFile p = d.isFile p := by
  rw [Disk.isFile, Disk.isFile, h.look]

theorem isFolder (h : Twins d e) (p : Path) : e.isFolder p = d.isFolder p := by
  rw [Disk.isFolder, Disk.isFolder, h.look]

theorem isThere (h : Twins d e) (p : Path) : e.isThere p = d.isThere p := by
  rw [Disk.isThere, Disk.isThere, h.look]

theorem read (h : Twins d e) (p : Path) : e.read p = d.read p := by
  simp only [Disk.read, h.place?, h.same.entry?, h.left.sound.trouble?, h.right.sound.trouble?]

theorem readText (h : Twins d e) (p : Path) : e.readText p = d.readText p := by
  rw [Disk.readText, Disk.readText, h.read]

theorem hasFile (h : Twins d e) (P : Place) : e.HasFile P ↔ d.HasFile P := by
  simp only [HasFile, h.same.entry?]

theorem collect (h : Twins d e) (p : Path) (ext : String) : e.collect p ext = d.collect p ext :=
  collect_eq h.right h.left (fun F => by rw [h.place?, h.same.entry?])
    fun _ _ _ _ _ _ => h.hasFile _

theorem listed (h : Twins d e) (p : Path) (ext : String) : e.listed p ext = d.listed p ext :=
  listed_eq h.right h.left (fun F => by rw [h.place?, h.same.entry?])
    fun n _ _ => by rw [h.isFile]

/-- Twins have equally many entries. -/
theorem length_entries (h : Twins d e) : e.entries.length = d.entries.length := by
  refine ((List.perm_ext_iff_of_nodup (h.right.tree.distinct.of_map _)
    (h.left.tree.distinct.of_map _)).mpr ?_).length_eq
  rintro ⟨P, x⟩
  rw [h.right.tree.mem_iff, h.left.tree.mem_iff, h.same.entry?]

end Twins

/-! ### Changing -/

/-- An operation gives the same result on two disks and leaves twins behind. -/
structure Alike {α : Type} (x y : α × Disk) : Prop where
  result : y.1 = x.1
  disk : Twins x.2 y.2

theorem Alike.split {α : Type} {x y : α × Disk} (h : Alike x y) :
    ∃ r d' e', x = (r, d') ∧ y = (r, e') ∧ Twins d' e' := by
  obtain ⟨r, d'⟩ := x
  obtain ⟨s, e'⟩ := y
  obtain ⟨rfl, hdisk⟩ := h
  exact ⟨_, d', e', rfl, rfl, hdisk⟩

theorem Sets.same {o : Option Entry} {d' e' : Disk} (h : Sets P o d d') (h' : Sets P o e e')
    (hsame : Same d e) : Same d' e' where
  current := (h'.current.trans hsame.current).trans h.current.symm
  troubles := (h'.troubles.trans hsame.troubles).trans h.troubles.symm
  entry? Q := by rw [h.entry?, h'.entry?, hsame.entry?]

namespace Twins

theorem after_same {d' e' : Disk} (h : Twins d e) (hd : d'.Regular) (he : e'.Regular)
    (hd' : Same d d') (he' : Same e e') : Twins d' e' :=
  ⟨hd, he, (hd'.symm.trans h.same).trans he'⟩

theorem isExecutable (h : Twins d e) (P : Place) : e.isExecutable P = d.isExecutable P := by
  rw [Disk.isExecutable, Disk.isExecutable, h.same.entry?]

theorem write (h : Twins d e) (p : Path) (content : Text.Bytes) :
    Alike (d.write p content) (e.write p content) := by
  have hresult : (e.write p content).1 = (d.write p content).1 := by
    simp only [Disk.write, h.place?]
    cases d.place? p with
    | error err => rfl
    | ok P =>
      simp only [h.left.sound.trouble?, h.right.sound.trouble?, change, writeEntries,
        h.same.entry?]
      cases d.entry? P with
      | none => rfl
      | some entry => cases entry <;> rfl
  refine ⟨hresult, ?_⟩
  rcases hd : d.write p content with ⟨r, d'⟩
  rcases he : e.write p content with ⟨s, e'⟩
  rw [hd, he] at hresult
  dsimp only at hresult ⊢
  subst hresult
  obtain ⟨hd', hcase⟩ := write_spec h.left hd
  obtain ⟨he', hcase'⟩ := write_spec h.right he
  rcases hcase with ⟨hok, P, hP, -, hsets⟩ | ⟨⟨err, herr⟩, -, hsame⟩
  · rcases hcase' with ⟨-, Q, hQ, -, hsets'⟩ | ⟨⟨err, herr⟩, -⟩
    · rw [h.place?, hP] at hQ
      cases hQ
      rw [h.isExecutable] at hsets'
      exact ⟨hd', he', hsets.same hsets' h.same⟩
    · rw [hok] at herr
      cases herr
  · rcases hcase' with ⟨hok, -⟩ | ⟨-, -, hsame'⟩
    · rw [hok] at herr
      cases herr
    · exact h.after_same hd' he' hsame hsame'

theorem makeFolder (h : Twins d e) (p : Path) : Alike (d.makeFolder p) (e.makeFolder p) := by
  have hresult : (e.makeFolder p).1 = (d.makeFolder p).1 := by
    simp only [Disk.makeFolder, h.place?]
    cases d.place? p with
    | error err => rfl
    | ok P =>
      simp only [h.left.sound.trouble?, h.right.sound.trouble?, change, h.same.entry?]
      cases d.entry? P <;> rfl
  refine ⟨hresult, ?_⟩
  rcases hd : d.makeFolder p with ⟨r, d'⟩
  rcases he : e.makeFolder p with ⟨s, e'⟩
  rw [hd, he] at hresult
  dsimp only at hresult ⊢
  subst hresult
  obtain ⟨hd', hcase⟩ := makeFolder_spec h.left hd
  obtain ⟨he', hcase'⟩ := makeFolder_spec h.right he
  rcases hcase with ⟨hok, P, hP, -, hsets⟩ | ⟨⟨err, herr⟩, hsame⟩
  · rcases hcase' with ⟨-, Q, hQ, -, hsets'⟩ | ⟨⟨err, herr⟩, -⟩
    · rw [h.place?, hP] at hQ
      cases hQ
      exact ⟨hd', he', hsets.same hsets' h.same⟩
    · rw [hok] at herr
      cases herr
  · rcases hcase' with ⟨hok, -⟩ | ⟨-, hsame'⟩
    · rw [hok] at herr
      cases herr
    · exact h.after_same hd' he' hsame hsame'

theorem makeChain (h : Twins d e) (paths : List Path) :
    Alike (d.makeChain paths) (e.makeChain paths) := by
  induction paths generalizing d e with
  | nil => exact ⟨rfl, h⟩
  | cons p above ih =>
    rw [Disk.makeChain, Disk.makeChain]
    by_cases hempty : p.isEmpty = true
    · rw [if_pos hempty, if_pos hempty]
      exact ⟨rfl, h⟩
    · rw [if_neg hempty, if_neg hempty]
      obtain ⟨r, d₁, e₁, hd, he, h₁⟩ := (h.makeFolder p).split
      rw [hd, he]
      have hgiven {d e : Disk} (h : Twins d e) (err : OsError) :
          Alike (if d.isFolder p = true then (.ok () : Except OsError Unit) else .error err, d)
            (if e.isFolder p = true then (.ok () : Except OsError Unit) else .error err, e) := by
        rw [h.isFolder]
        exact ⟨rfl, h⟩
      cases r with
      | ok x => exact ⟨rfl, h₁⟩
      | error err =>
        cases err with
        | notFound =>
          obtain ⟨r₂, d₂, e₂, hd₂, he₂, h₂⟩ := (ih h₁).split
          dsimp only
          rw [hd₂, he₂]
          cases r₂ with
          | error err => exact ⟨rfl, h₂⟩
          | ok x =>
            obtain ⟨r₃, d₃, e₃, hd₃, he₃, h₃⟩ := (h₂.makeFolder p).split
            dsimp only
            rw [hd₃, he₃]
            cases r₃ with
            | ok x => exact ⟨rfl, h₃⟩
            | error err => exact hgiven h₃ err
        | _ => exact hgiven h₁ _

theorem makeFolders (h : Twins d e) (p : Path) : Alike (d.makeFolders p) (e.makeFolders p) :=
  h.makeChain p.ancestors

end Twins

end LiveRules.Disk
