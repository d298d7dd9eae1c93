import LiveRules.Proofs.Files.Places

/-!
What operations do to a disk that is a tree and fails only for a reason that is on it. Each one
either changes a single place, two for a move, or leaves all entries as they are; making folders
only adds folders.
-/

namespace LiveRules.Disk

variable {d d' d₁ e : Disk} {p q : Path} {P Q : Place} {content : Text.Bytes}
variable {r : Except OsError Unit}

/-- A tree on which no operation fails of itself. -/
structure Regular (d : Disk) : Prop where
  tree : d.IsTree
  sound : d.Sound

/-- All that a disk holds is there on another one, which may have further folders. -/
structure Grown (d e : Disk) : Prop where
  current : e.current = d.current
  troubles : e.troubles = d.troubles
  entry? : ∀ Q, e.entry? Q = d.entry? Q ∨ (d.entry? Q = none ∧ e.entry? Q = some .folder)

theorem Same.trans (h : Same d d₁) (h' : Same d₁ d') : Same d d' :=
  ⟨h'.current.trans h.current, h'.troubles.trans h.troubles,
    fun Q => (h'.entry? Q).trans (h.entry? Q)⟩

theorem Sets.trans_same {o : Option Entry} (h : Sets P o d d₁) (h' : Same d₁ d') :
    Sets P o d d' :=
  ⟨h'.current.trans h.current, h'.troubles.trans h.troubles,
    fun Q => (h'.entry? Q).trans (h.entry? Q)⟩

theorem Same.grown (h : Same d e) : Grown d e :=
  ⟨h.current, h.troubles, fun Q => .inl (h.entry? Q)⟩

theorem Grown.refl : Grown d d := Same.refl.grown

theorem Grown.folder (h : Grown d e) (hQ : d.entry? Q = some .folder) :
    e.entry? Q = some .folder := by
  rcases h.entry? Q with hq | ⟨-, hq⟩
  · rw [hq, hQ]
  · exact hq

theorem Grown.file {x : Bool} (h : Grown d e) (hQ : e.entry? Q = some (.file content x)) :
    d.entry? Q = some (.file content x) := by
  rcases h.entry? Q with hq | ⟨-, hq⟩
  · rw [← hq, hQ]
  · rw [hQ] at hq
    cases hq

theorem Grown.keeps {x : Entry} (h : Grown d e) (hQ : d.entry? Q = some x) :
    e.entry? Q = some x := by
  rcases h.entry? Q with hq | ⟨hnone, -⟩
  · rw [hq, hQ]
  · rw [hQ] at hnone
    cases hnone

theorem Grown.place? (h : Grown d e) (hp : d.place? p = .ok P) : e.place? p = .ok P :=
  place?_mono h.current (fun _ hQ => h.folder hQ) hp

theorem Grown.trans (h : Grown d d₁) (h' : Grown d₁ d') : Grown d d' := by
  refine ⟨h'.current.trans h.current, h'.troubles.trans h.troubles, fun Q => ?_⟩
  rcases h.entry? Q with hq | ⟨hnone, hq⟩
  · rcases h'.entry? Q with hq' | ⟨hnone', hq'⟩
    · exact .inl (hq'.trans hq)
    · exact .inr ⟨hq ▸ hnone', hq'⟩
  · exact .inr ⟨hnone, h'.folder hq⟩

theorem Sets.grown (h : Sets P (some .folder) d e) (hP : d.entry? P = none) : Grown d e := by
  refine ⟨h.current, h.troubles, fun Q => ?_⟩
  rw [h.entry? Q]
  split <;> rename_i hq
  · exact .inr ⟨hq ▸ hP, rfl⟩
  · exact .inl rfl

/-- A place that is set keeps all folders in place, if it was none. -/
theorem Sets.folder {o : Option Entry} (h : Sets P o d e) (hP : d.entry? P ≠ some .folder)
    (hQ : d.entry? Q = some .folder) : e.entry? Q = some .folder := by
  rw [h.entry?, if_neg (fun hq : Q = P => hP (hq ▸ hQ)), hQ]

theorem Sets.place? {o : Option Entry} (h : Sets P o d e) (hP : d.entry? P ≠ some .folder)
    (hp : d.place? p = .ok Q) : e.place? p = .ok Q :=
  place?_mono h.current (fun _ hQ => h.folder hP hQ) hp

theorem ne_root (h : d.entry? P ≠ some .folder) : P ≠ [] := by
  rintro rfl
  exact h root_is_folder

/-! ### Single operations -/

/-- Whether the file at a place may be run. -/
def isExecutable (d : Disk) (P : Place) : Bool :=
  match d.entry? P with
  | some (.file _ executable) => executable
  | _ => false

theorem Regular.ticked (h : d.Regular) : d.ticked.Regular :=
  ⟨h.tree.ticked, h.sound.of_troubles rfl⟩

theorem Regular.put {x : Entry} (h : d.Regular) (hp : d.place? p = .ok P)
    (hP : d.entry? P ≠ some .folder) :
    Regular { d.ticked with entries := Disk.put P x d.entries } := by
  rcases place?_end h.tree hp with hfolder | ⟨G, n, rfl, hG, hn, -⟩
  · exact absurd hfolder hP
  · exact ⟨h.tree.put hG hn (.inr hP), h.sound.of_troubles rfl⟩

theorem Regular.drop (h : d.Regular) (hP : d.entry? P ≠ some .folder) :
    Regular { d.ticked with entries := Disk.drop P d.entries } :=
  ⟨h.tree.drop (ne_root hP) hP, h.sound.of_troubles rfl⟩

/-- A write sets one file, or nothing changes because the path leads to none. -/
theorem write_spec (h : d.Regular) (hw : d.write p content = (r, d')) : d'.Regular ∧
    ((r = .ok () ∧ ∃ P, d.place? p = .ok P ∧ d.entry? P ≠ some .folder ∧
        Sets P (some (.file content (d.isExecutable P))) d d') ∨
      ((∃ err, r = .error err) ∧ (∀ P, d.place? p = .ok P → d.entry? P = some .folder) ∧
        Same d d')) := by
  rw [write] at hw
  cases hp : d.place? p with
  | error err =>
    simp only [hp, Prod.mk.injEq] at hw
    obtain ⟨rfl, rfl⟩ := hw
    exact ⟨h.ticked, .inr ⟨⟨err, rfl⟩, by simp, same_ticked⟩⟩
  | ok P =>
    simp only [hp, h.sound.trouble?, change, writeEntries] at hw
    cases hP : d.entry? P with
    | none =>
      simp only [hP, Prod.mk.injEq] at hw
      obtain ⟨rfl, rfl⟩ := hw
      have hne : d.entry? P ≠ some .folder := by simp [hP]
      have hx : d.isExecutable P = false := by rw [isExecutable, hP]
      exact ⟨h.put hp hne, .inl ⟨rfl, P, rfl, hne, hx ▸ sets_put (ne_root hne)⟩⟩
    | some entry =>
      cases entry with
      | folder =>
        simp only [hP, Prod.mk.injEq] at hw
        obtain ⟨rfl, rfl⟩ := hw
        refine ⟨h.ticked, .inr ⟨⟨_, rfl⟩, fun Q hQ => ?_, same_ticked⟩⟩
        cases hQ
        exact hP
      | file old executable =>
        simp only [hP, Prod.mk.injEq] at hw
        obtain ⟨rfl, rfl⟩ := hw
        have hne : d.entry? P ≠ some .folder := by simp [hP]
        have hx : d.isExecutable P = executable := by rw [isExecutable, hP]
        exact ⟨h.put hp hne, .inl ⟨rfl, P, rfl, hne, hx ▸ sets_put (ne_root hne)⟩⟩

theorem makeFolder_spec (h : d.Regular) (hm : d.makeFolder p = (r, d')) : d'.Regular ∧
    ((r = .ok () ∧ ∃ P, d.place? p = .ok P ∧ d.entry? P = none ∧ Sets P (some .folder) d d') ∨
      ((∃ err, r = .error err) ∧ Same d d')) := by
  rw [makeFolder] at hm
  cases hp : d.place? p with
  | error err =>
    simp only [hp, Prod.mk.injEq] at hm
    obtain ⟨rfl, rfl⟩ := hm
    exact ⟨h.ticked, .inr ⟨⟨err, rfl⟩, same_ticked⟩⟩
  | ok P =>
    simp only [hp, h.sound.trouble?, change] at hm
    cases hP : d.entry? P with
    | none =>
      simp only [hP, Prod.mk.injEq] at hm
      obtain ⟨rfl, rfl⟩ := hm
      have hne : d.entry? P ≠ some .folder := by simp [hP]
      exact ⟨h.put hp hne, .inl ⟨rfl, P, rfl, hP, sets_put (ne_root hne)⟩⟩
    | some entry =>
      simp only [hP, Prod.mk.injEq] at hm
      obtain ⟨rfl, rfl⟩ := hm
      exact ⟨h.ticked, .inr ⟨⟨_, rfl⟩, same_ticked⟩⟩

/-- Removing a file works where there is one, and finds nothing where there is no entry. -/
theorem removeFile_spec (h : d.Regular) (hr : d.removeFile p = (r, d')) : d'.Regular ∧
    ((r = .ok () ∧ ∃ P old executable, d.place? p = .ok P ∧
        d.entry? P = some (.file old executable) ∧ Sets P none d d') ∨
      (∃ err, r = .error err ∧ Same d d' ∧
        ∀ P, d.place? p = .ok P → d.entry? P = none ∧ err = .notFound ∨
          d.entry? P = some .folder)) := by
  rw [removeFile] at hr
  cases hp : d.place? p with
  | error err =>
    simp only [hp, Prod.mk.injEq] at hr
    obtain ⟨rfl, rfl⟩ := hr
    exact ⟨h.ticked, .inr ⟨err, rfl, same_ticked, by simp⟩⟩
  | ok P =>
    simp only [hp, h.sound.trouble?, change] at hr
    cases hP : d.entry? P with
    | none =>
      simp only [hP, Prod.mk.injEq] at hr
      obtain ⟨rfl, rfl⟩ := hr
      refine ⟨h.ticked, .inr ⟨_, rfl, same_ticked, fun Q hQ => ?_⟩⟩
      cases hQ
      exact .inl ⟨hP, rfl⟩
    | some entry =>
      cases entry with
      | folder =>
        simp only [hP, Prod.mk.injEq] at hr
        obtain ⟨rfl, rfl⟩ := hr
        refine ⟨h.ticked, .inr ⟨_, rfl, same_ticked, fun Q hQ => ?_⟩⟩
        cases hQ
        exact .inr hP
      | file old executable =>
        simp only [hP, Prod.mk.injEq] at hr
        obtain ⟨rfl, rfl⟩ := hr
        have hne : d.entry? P ≠ some .folder := by simp [hP]
        exact ⟨h.drop hne, .inl ⟨rfl, P, old, executable, rfl, hP, sets_drop (ne_root hne)⟩⟩

/-- A file that is moved is at its new place and nowhere else. -/
structure Moved (S T : Place) (d e : Disk) : Prop where
  current : e.current = d.current
  troubles : e.troubles = d.troubles
  file : ∃ content x, d.entry? S = some (.file content x)
  target : d.entry? T ≠ some .folder
  entry? : ∀ Q, e.entry? Q = if Q = T then d.entry? S else if Q = S then none else d.entry? Q

theorem move_spec (h : d.Regular) (hm : d.move p q = (r, d')) : d'.Regular ∧
    ((r = .ok () ∧ ∃ S T, d.place? p = .ok S ∧ d.place? q = .ok T ∧ Moved S T d d') ∨
      ((∃ err, r = .error err) ∧ Same d d' ∧ ∀ S T, d.place? p = .ok S → d.place? q = .ok T →
        (∀ content x, d.entry? S ≠ some (.file content x)) ∨ d.entry? T = some .folder)) := by
  rw [move] at hm
  cases hp : d.place? p with
  | error err =>
    simp only [hp, Prod.mk.injEq] at hm
    obtain ⟨rfl, rfl⟩ := hm
    exact ⟨h.ticked, .inr ⟨⟨err, rfl⟩, same_ticked, by simp⟩⟩
  | ok S =>
    cases hq : d.place? q with
    | error err =>
      simp only [hp, hq, Prod.mk.injEq] at hm
      obtain ⟨rfl, rfl⟩ := hm
      exact ⟨h.ticked, .inr ⟨⟨err, rfl⟩, same_ticked, by simp⟩⟩
    | ok T =>
      simp only [hp, hq, h.sound.trouble?, change] at hm
      have hstop (hno : (∀ content x, d.entry? S ≠ some (.file content x)) ∨
          d.entry? T = some .folder) : ∀ S' T', (Except.ok S : Except OsError Place) = .ok S' →
            (Except.ok T : Except OsError Place) = .ok T' →
            (∀ content x, d.entry? S' ≠ some (.file content x)) ∨ d.entry? T' = some .folder := by
        intro S' T' hS' hT'
        cases hS'
        cases hT'
        exact hno
      cases hS : d.entry? S with
      | none =>
        simp only [hS, Prod.mk.injEq] at hm
        obtain ⟨rfl, rfl⟩ := hm
        exact ⟨h.ticked, .inr ⟨⟨_, rfl⟩, same_ticked, hstop (.inl (by simp [hS]))⟩⟩
      | some entry =>
        cases entry with
        | folder =>
          simp only [hS, Prod.mk.injEq] at hm
          obtain ⟨rfl, rfl⟩ := hm
          exact ⟨h.ticked, .inr ⟨⟨_, rfl⟩, same_ticked, hstop (.inl (by simp [hS]))⟩⟩
        | file content executable =>
          have hSne : d.entry? S ≠ some .folder := by simp [hS]
          by_cases hT : d.entry? T = some .folder
          · simp only [hS, hT, Prod.mk.injEq] at hm
            obtain ⟨rfl, rfl⟩ := hm
            exact ⟨h.ticked, .inr ⟨⟨_, rfl⟩, same_ticked, hstop (.inr hT)⟩⟩
          · by_cases hST : S = T
            · subst hST
              simp only [hS, ↓reduceIte, Prod.mk.injEq] at hm
              obtain ⟨rfl, rfl⟩ := hm
              refine ⟨h.ticked, .inl ⟨rfl, S, S, rfl, rfl, rfl, rfl, ⟨_, _, hS⟩, hT, fun Q => ?_⟩⟩
              by_cases hQ : Q = S
              · rw [if_pos hQ, hQ]
                rfl
              · rw [if_neg hQ, if_neg hQ]
                rfl
            · have hdrop := sets_drop (d := d) (ne_root hSne)
              have hdropped := h.drop hSne
              have hT' : Disk.entry? { d.ticked with entries := Disk.drop S d.entries } T ≠
                  some .folder := by
                rw [hdrop.entry?, if_neg (Ne.symm hST)]
                exact hT
              have hput := sets_put (d := { d.ticked with entries := Disk.drop S d.entries })
                (x := .file content executable) (ne_root hT')
              have hregular := hdropped.put (p := q) (P := T) (x := .file content executable)
                (hdrop.place? hSne hq) hT'
              have hd' : r = .ok () ∧ d' = { d.ticked with
                  entries := Disk.put T (.file content executable) (Disk.drop S d.entries) } := by
                revert hm
                cases hTe : d.entry? T with
                | none => simp [hS, hST, eq_comm]
                | some target =>
                  cases target with
                  | folder => exact absurd hTe hT
                  | file old x => simp [hS, hST, eq_comm]
              obtain ⟨rfl, rfl⟩ := hd'
              refine ⟨⟨⟨hregular.tree.distinct, hregular.tree.rootless, hregular.tree.parent,
                hregular.tree.isName⟩, h.sound.of_troubles rfl⟩,
                .inl ⟨rfl, S, T, rfl, rfl, rfl, rfl, ⟨_, _, hS⟩, hT, fun Q => ?_⟩⟩
              rw [← hdrop.entry? Q, hS]
              exact hput.entry? Q

/-! ### Looking -/

theorem look_eq_ok_iff {x : Entry} : d.look p = .ok x ↔
    ∃ P, d.place? p = .ok P ∧ d.trouble? .look P = none ∧ d.entry? P = some x := by
  rw [look]
  cases d.place? p with
  | error err => simp [bind, Except.bind]
  | ok P =>
    simp only [bind, Except.bind, Except.ok.injEq, exists_eq_left']
    cases htrouble : d.trouble? .look P with
    | some t => simp
    | none => cases d.entry? P <;> simp

theorem isFolder_iff_look : d.isFolder p = true ↔ d.look p = .ok .folder := by
  rw [isFolder]
  cases d.look p with
  | error err => simp
  | ok x => cases x <;> simp

theorem isFile_iff_look : d.isFile p = true ↔ ∃ content x, d.look p = .ok (.file content x) := by
  rw [isFile]
  cases d.look p with
  | error err => simp
  | ok x => cases x <;> simp

theorem isFolder_iff (h : d.Sound) :
    d.isFolder p = true ↔ ∃ P, d.place? p = .ok P ∧ d.entry? P = some .folder := by
  simp only [isFolder_iff_look, look_eq_ok_iff, h.trouble?, true_and]

theorem isFile_iff (h : d.Sound) : d.isFile p = true ↔
    ∃ P content x, d.place? p = .ok P ∧ d.entry? P = some (.file content x) := by
  simp only [isFile_iff_look, look_eq_ok_iff, h.trouble?, true_and]
  constructor
  · rintro ⟨content, x, P, hP, hfile⟩
    exact ⟨P, content, x, hP, hfile⟩
  · rintro ⟨P, content, x, hP, hfile⟩
    exact ⟨content, x, P, hP, hfile⟩

theorem isThere_iff (h : d.Sound) :
    d.isThere p = true ↔ ∃ P, d.place? p = .ok P ∧ d.entry? P ≠ none := by
  have hlook : d.isThere p = true ↔ ∃ x, d.look p = .ok x := by
    rw [isThere]
    cases d.look p <;> simp
  simp only [hlook, look_eq_ok_iff, h.trouble?, true_and, Option.ne_none_iff_exists']
  exact exists_comm.trans (exists_congr fun P => exists_and_left)

theorem read_eq_ok_iff (h : d.Sound) : d.read p = .ok content ↔
    ∃ P x, d.place? p = .ok P ∧ d.entry? P = some (.file content x) := by
  rw [read]
  cases d.place? p with
  | error err => simp [bind, Except.bind]
  | ok P =>
    simp only [bind, Except.bind, h.trouble?, Except.ok.injEq]
    cases hP : d.entry? P with
    | none => simp [hP]
    | some entry => cases entry <;> simp [hP]

/-! ### Making folders -/

theorem isFolder_of_makeFolder (h : d.Regular) (hm : d.makeFolder p = (.ok (), d')) :
    d'.isFolder p = true := by
  obtain ⟨hregular, ⟨-, P, hp, hP, hsets⟩ | ⟨⟨err, he⟩, -⟩⟩ := makeFolder_spec h hm
  · rw [isFolder_iff hregular.sound]
    exact ⟨P, (hsets.grown hP).place? hp, by rw [hsets.entry?, if_pos rfl]⟩
  · cases he

/-- A folder that is made is all that is new, on any disk and whatever fails. -/
theorem makeFolder_grown (h : d.makeFolder p = (r, e)) : Grown d e := by
  rw [makeFolder] at h
  cases hP : d.place? p with
  | error err =>
    rw [hP] at h
    cases h
    exact same_ticked.grown
  | ok P =>
    rw [hP] at h
    dsimp only at h
    unfold change at h
    cases htrouble : d.trouble? .makeFolder P with
    | some t =>
      rw [htrouble] at h
      cases h
      exact same_ticked.grown
    | none =>
      rw [htrouble] at h
      cases hentry : d.entry? P with
      | some x =>
        rw [hentry] at h
        cases h
        exact same_ticked.grown
      | none =>
        rw [hentry] at h
        cases h
        have hfree : d.entry? P ≠ some .folder := by simp [hentry]
        exact (sets_put (ne_root hfree)).grown hentry

/-- Making a chain of folders only adds folders; when it works the first path leads to one. -/
theorem makeChain_spec {paths : List Path} (h : d.Regular) (hm : d.makeChain paths = (r, d')) :
    d'.Regular ∧ Grown d d' ∧
      (r = .ok () → ∀ p, paths.head? = some p → p.isEmpty = true ∨ d'.isFolder p = true) := by
  induction paths generalizing d d' r with
  | nil =>
    simp only [makeChain, Prod.mk.injEq] at hm
    obtain ⟨rfl, rfl⟩ := hm
    exact ⟨h, .refl, by simp⟩
  | cons p above ih =>
    rw [makeChain] at hm
    simp only [List.head?_cons, Option.some.injEq, forall_eq']
    by_cases hempty : p.isEmpty = true
    · rw [if_pos hempty, Prod.mk.injEq] at hm
      obtain ⟨rfl, rfl⟩ := hm
      exact ⟨h, .refl, fun _ => .inl hempty⟩
    · rw [if_neg hempty] at hm
      rcases hfirst : d.makeFolder p with ⟨err | ⟨⟩, d₁⟩
      · have hregular₁ := (makeFolder_spec h hfirst).1
        have hgrown₁ := makeFolder_grown hfirst
        have hgiven (hm : (if d₁.isFolder p = true then (.ok () : Except OsError Unit)
            else .error err, d₁) = (r, d')) : d'.Regular ∧ Grown d d' ∧
            (r = .ok () → p.isEmpty = true ∨ d'.isFolder p = true) := by
          rw [Prod.mk.injEq] at hm
          obtain ⟨hr, rfl⟩ := hm
          refine ⟨hregular₁, hgrown₁, fun hok => .inr ?_⟩
          by_contra hnot
          rw [if_neg hnot, hok] at hr
          cases hr
        by_cases herr : err = .notFound
        · subst herr
          simp only [hfirst] at hm
          rcases habove : d₁.makeChain above with ⟨err | ⟨⟩, d₂⟩
          · simp only [habove, Prod.mk.injEq] at hm
            obtain ⟨rfl, rfl⟩ := hm
            obtain ⟨hregular₂, hgrown₂, -⟩ := ih hregular₁ habove
            exact ⟨hregular₂, hgrown₁.trans hgrown₂, by simp⟩
          · simp only [habove] at hm
            obtain ⟨hregular₂, hgrown₂, -⟩ := ih hregular₁ habove
            rcases hsecond : d₂.makeFolder p with ⟨err | ⟨⟩, d₃⟩
            · simp only [hsecond, Prod.mk.injEq] at hm
              obtain ⟨hr, rfl⟩ := hm
              refine ⟨(makeFolder_spec hregular₂ hsecond).1,
                (hgrown₁.trans hgrown₂).trans (makeFolder_grown hsecond),
                fun hok => .inr ?_⟩
              by_contra hnot
              rw [if_neg hnot, hok] at hr
              cases hr
            · simp only [hsecond, Prod.mk.injEq] at hm
              obtain ⟨rfl, rfl⟩ := hm
              exact ⟨(makeFolder_spec hregular₂ hsecond).1,
                (hgrown₁.trans hgrown₂).trans (makeFolder_grown hsecond),
                fun _ => .inr (isFolder_of_makeFolder hregular₂ hsecond)⟩
        · refine hgiven ?_
          rw [hfirst] at hm
          cases err <;> first | exact absurd rfl herr | exact hm
      · simp only [hfirst, Prod.mk.injEq] at hm
        obtain ⟨rfl, rfl⟩ := hm
        exact ⟨(makeFolder_spec h hfirst).1, makeFolder_grown hfirst,
          fun _ => .inr (isFolder_of_makeFolder h hfirst)⟩

theorem exists_ancestors (p : Path) : ∃ above, p.ancestors = p :: above := by
  rw [Path.ancestors]
  cases p.pieces.length with
  | zero => exact ⟨[], rfl⟩
  | succ n =>
    rw [Path.ancestorsFrom]
    cases p.parent? with
    | none => exact ⟨[], rfl⟩
    | some q => exact ⟨_, rfl⟩

theorem makeFolders_spec (h : d.Regular) (hm : d.makeFolders p = (r, d')) :
    d'.Regular ∧ Grown d d' ∧ (r = .ok () → p.isEmpty = true ∨ d'.isFolder p = true) := by
  obtain ⟨above, habove⟩ := exists_ancestors p
  rw [makeFolders, habove] at hm
  obtain ⟨hregular, hgrown, hfolder⟩ := makeChain_spec h hm
  exact ⟨hregular, hgrown, fun hok => hfolder hok p rfl⟩

/-- A folder that is there is not made again. -/
theorem makeChain_of_isFolder (h : d.Regular) (hp : p.isEmpty = true ∨ d.isFolder p = true)
    (above : List Path) : ∃ d', d.makeChain (p :: above) = (.ok (), d') ∧ d'.Regular ∧ Same d d' := by
  rw [makeChain]
  by_cases hempty : p.isEmpty = true
  · rw [if_pos hempty]
    exact ⟨d, rfl, h, .refl⟩
  · obtain ⟨P, hplace, hP⟩ := (isFolder_iff h.sound).mp (hp.resolve_left hempty)
    have hmade : d.makeFolder p = (.error .exists, d.ticked) := by
      simp only [makeFolder, hplace, change, h.sound.trouble?, hP]
    have hfolder : d.ticked.isFolder p = true := by
      rw [isFolder_iff h.ticked.sound]
      exact ⟨P, same_ticked.grown.place? hplace, hP⟩
    rw [if_neg hempty, hmade]
    exact ⟨d.ticked, by simp only [hfolder, if_true], h.ticked, same_ticked⟩

theorem makeFolders_of_isFolder (h : d.Regular) (hp : p.isEmpty = true ∨ d.isFolder p = true) :
    ∃ d', d.makeFolders p = (.ok (), d') ∧ d'.Regular ∧ Same d d' := by
  obtain ⟨above, habove⟩ := exists_ancestors p
  rw [makeFolders, habove]
  exact makeChain_of_isFolder h hp above

end LiveRules.Disk
