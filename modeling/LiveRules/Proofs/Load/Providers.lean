import LiveRules.ClassPath.Session
import LiveRules.Proofs.Compile.Batches
import LiveRules.Proofs.Json.Stored

/-!
Who provides an item. The index of items goes through all units of a class path, whereas the look-up
of a unit ends at the first entry that has the identifier. So the unit that the index names for an
item declares it, but what is then found under its name may be another unit, in an entry before.
-/

namespace LiveRules

/-- What can be read at a place can be read through every path to it. -/
theorem Artifact.read_of_place?_eq {d : Disk} {p q : Path} {a : Artifact}
    (hplace : d.place? q = d.place? p) (h : read d p = .ok a) : read d q = .ok a := by
  have htext : d.readText q = d.readText p := by
    simp only [Disk.readText, Disk.read, hplace]
  rw [read] at h ⊢
  rw [htext]
  cases hread : d.readText p with
  | error e => simp [hread] at h
  | ok s =>
    cases hs : ofText? s with
    | none => simp [hread, hs] at h
    | some b => simpa [hread, hs] using h

namespace ClassPath

variable {d : Disk} {cp more : ClassPath} {entry : Entry} {a : Artifact}
variable {item identifier : String}

/-! ### The units of an entry -/

/-- The units of an entry, those of a folder as far as they can be read. -/
def Entry.units (d : Disk) : Entry → List Artifact
  | .folder path => (unitsOf d path).1
  | .pack _ content => content.units.map (·.2)

theorem Entry.items_eq (d : Disk) (entry : Entry) :
    entry.items d = (entry.units d).filterMap declared? := by
  cases entry with
  | folder path => rfl
  | pack path content =>
    rw [items, units, List.filterMap_map]
    rfl

/-- An entry in which every unit lies under its own identifier: in a folder in the file that the
identifier spells, in a pack under the one key. -/
def Entry.IsOrderly (d : Disk) : Entry → Prop
  | .folder path =>
    ∀ file ∈ d.collect path Naming.artifactExtension, ∀ a, Artifact.read d file = .ok a →
      d.isFile (Naming.artifactPath path a.identifier) = true ∧
      d.place? (Naming.artifactPath path a.identifier) = d.place? file
  | .pack _ content =>
    Pack.Increasing content.units ∧ ∀ x ∈ content.units, x.2.identifier = x.1

/-- In an orderly entry every unit is found by its identifier. -/
theorem Entry.IsOrderly.find?_eq (h : entry.IsOrderly d) (ha : a ∈ entry.units d) :
    entry.find? d a.identifier = .ok (some a) := by
  cases entry with
  | folder path =>
    obtain ⟨file, hfile, hread⟩ := mem_unitsOf.mp ha
    obtain ⟨hthere, hplace⟩ := h file hfile a hread
    rw [find?, if_pos hthere, Artifact.read_of_place?_eq hplace hread]
  | pack path content =>
    obtain ⟨x, hx, rfl⟩ := List.mem_map.mp ha
    have hown : (x.2.identifier, x.2) ∈ content.units := by
      rw [h.2 x hx]
      exact hx
    rw [find?, Pack.get?, h.1.find?_eq.mpr hown]

/-- Whether a unit declares an item. -/
def Provides (a : Artifact) (item : String) : Prop :=
  a.kind = .item ∧ ∃ i, a.item = some i ∧ i.name = item

theorem lookup_items_entry_isSome_iff : ((entry.items d).lookup item).isSome = true ↔
    ∃ a ∈ entry.units d, Provides a item := by
  rw [List.lookup_isSome_iff, Entry.items_eq]
  constructor
  · rintro ⟨⟨name, identifier⟩, hmem, hname⟩
    obtain rfl : item = name := beq_iff_eq.mp hname
    obtain ⟨a, ha, hdeclared⟩ := List.mem_filterMap.mp hmem
    obtain ⟨hkind, hitem, -⟩ := declared?_eq_some_iff.mp hdeclared
    exact ⟨a, ha, hkind, hitem⟩
  · rintro ⟨a, ha, hkind, hitem⟩
    have hdeclared := declared?_eq_some_iff.mpr ⟨hkind, hitem, rfl⟩
    exact ⟨_, List.mem_filterMap.mpr ⟨a, ha, hdeclared⟩, beq_self_eq_true item⟩

theorem exists_of_lookup_items (h : (entry.items d).lookup item = some identifier) :
    ∃ a ∈ entry.units d, Provides a item ∧ a.identifier = identifier := by
  obtain ⟨front, back, hitems, -⟩ := List.lookup_eq_some_iff.mp h
  have hmem : (item, identifier) ∈ entry.items d := by
    rw [hitems]
    simp
  rw [Entry.items_eq] at hmem
  obtain ⟨a, ha, hdeclared⟩ := List.mem_filterMap.mp hmem
  obtain ⟨hkind, hitem, hidentifier⟩ := declared?_eq_some_iff.mp hdeclared
  exact ⟨a, ha, ⟨hkind, hitem⟩, hidentifier⟩

/-! ### The two orders -/

/-- What the index names comes from the first entry that knows the item. -/
theorem lookup_items_cases (h : (cp.items d).lookup item = some identifier) :
    ∃ before entry after, cp = before ++ entry :: after ∧
      (∀ earlier ∈ before, (earlier.items d).lookup item = none) ∧
      (entry.items d).lookup item = some identifier := by
  induction cp with
  | nil => cases h
  | cons entry rest ih =>
    rw [items, List.flatMap_cons, List.lookup_append] at h
    cases hentry : (entry.items d).lookup item with
    | some found =>
      rw [hentry, Option.some_or] at h
      exact ⟨[], entry, rest, rfl, by simp, hentry.trans h⟩
    | none =>
      rw [hentry, Option.none_or] at h
      obtain ⟨before, later, after, rfl, hbefore, hlater⟩ := ih h
      refine ⟨entry :: before, later, after, rfl, ?_, hlater⟩
      intro earlier hearlier
      rcases List.mem_cons.mp hearlier with rfl | hearlier
      · exact hentry
      · exact hbefore earlier hearlier

theorem find?_append_of_eq (h : cp.find? d identifier = .ok none) :
    (cp ++ more).find? d identifier = more.find? d identifier := by
  induction cp with
  | nil => rfl
  | cons entry rest ih =>
    rw [find?] at h
    rw [List.cons_append, find?]
    cases hentry : entry.find? d identifier with
    | error e => simp [hentry] at h
    | ok found =>
      cases found with
      | some a => simp [hentry] at h
      | none =>
        rw [hentry] at h
        exact ih h

namespace Session

/-- The unit that is named for an item declares it, it is found by its name in its own entry, and no
entry before knows the item. When the entries before have nothing under that name it is what is
found; otherwise it is hidden, and what is found is what they have: no unit of theirs that can be
read, and so is in the index, declares the item. -/
theorem findItem_provider (s : Session) (d : Disk) (item identifier : String)
    (horderly : ∀ entry ∈ s.entries, entry.IsOrderly d)
    (hindex : ∀ items, s.items? = some items → items = s.entries.items d)
    (h : (s.findItem d item).1 = some identifier) :
    ∃ before entry after a, s.entries = before ++ entry :: after ∧
      (∀ earlier ∈ before, ∀ b ∈ earlier.units d, ¬Provides b item) ∧
      Provides a item ∧ entry.find? d identifier = .ok (some a) ∧
      (find? d identifier before = .ok none →
        s.entries.find? d identifier = .ok (some a)) ∧
      (find? d identifier before ≠ .ok none →
        s.entries.find? d identifier = find? d identifier before) := by
  -- the files are as they were, so the index is the one of now
  have hlookup : (s.entries.items d).lookup item = some identifier := by
    rw [findItem] at h
    cases hitems : s.items? with
    | none => simpa [hitems] using h
    | some items => simpa [hitems, hindex items hitems] using h
  obtain ⟨before, entry, after, hentries, hbefore, hentry⟩ := lookup_items_cases hlookup
  obtain ⟨a, ha, hprovides, rfl⟩ := exists_of_lookup_items hentry
  have hfind : entry.find? d a.identifier = .ok (some a) :=
    (horderly entry (hentries ▸ by simp)).find?_eq ha
  refine ⟨before, entry, after, a, hentries, ?_, hprovides, hfind,
    fun hfree => ?_, fun hhidden => ?_⟩
  · intro earlier hearlier b hb hprovides'
    have hknown := lookup_items_entry_isSome_iff.mpr ⟨b, hb, hprovides'⟩
    rw [hbefore earlier hearlier] at hknown
    cases hknown
  · rw [hentries, find?_append_of_eq hfree, ClassPath.find?, hfind]
  · rw [hentries, find?_append_of_ne hhidden]

/-- A unit that declares an item. -/
def lampOf (item : String) : Artifact where
  identifier := "items.Lamp"
  kind := .item
  constructible := false
  item := some ⟨item, "Switch", none⟩

theorem provides_lampOf {declared : String} :
    Provides (lampOf declared) item ↔ declared = item := by
  simp [Provides, lampOf]

/-- A folder with a unit that declares `Light`. -/
def lightDisk : Disk where
  entries := [(["units"], .folder), (["units", "items"], .folder),
    (["units", "items", "Lamp.unit"], .file (Text.encode (lampOf "Light").text) false)]

/-- After the folder comes a pack with an older unit, which declares `Lamp`. -/
def renamed : Session where
  entries := [.folder ⟨"units"⟩, .pack ⟨"old.pack"⟩ ⟨"", [("items.Lamp", lampOf "Lamp")]⟩]

theorem collect_lightDisk : lightDisk.collect ⟨"units"⟩ Naming.artifactExtension =
    [⟨"units/items/Lamp.unit"⟩] := by decide

theorem read_lightDisk {p : Path} (hp : lightDisk.place? p = .ok ["units", "items", "Lamp.unit"]) :
    Artifact.read lightDisk p = .ok (lampOf "Light") := by
  have hback : (lampOf "Light").ComesBack := by
    intro m hm
    cases hm
  exact Artifact.read_eq_ok hback (Disk.CanRead.read (fun P => rfl) hp rfl)

theorem isOrderly_renamed : ∀ entry ∈ renamed.entries, entry.IsOrderly lightDisk := by
  intro entry hentry
  rcases List.mem_cons.mp hentry with rfl | hentry
  · intro file hfile a ha
    rw [collect_lightDisk, List.mem_singleton] at hfile
    subst hfile
    rw [read_lightDisk (by decide)] at ha
    cases ha
    exact ⟨by decide, by decide⟩
  · rw [List.mem_singleton.mp hentry]
    exact ⟨List.pairwise_singleton _ _, by simp [lampOf]⟩

theorem findItem_renamed : (renamed.findItem lightDisk "Lamp").1 = some "items.Lamp" := by
  have hunits : unitsOf lightDisk ⟨"units"⟩ = ([lampOf "Light"], []) := by
    rw [unitsOf, collect_lightDisk, List.foldr_cons, read_lightDisk (by decide)]
    rfl
  simp only [findItem, renamed, Option.getD_none, items, List.flatMap_cons, Entry.items, hunits]
  decide

theorem find?_folder_renamed :
    Entry.find? lightDisk "items.Lamp" (.folder ⟨"units"⟩) = .ok (some (lampOf "Light")) := by
  rw [Entry.find?, if_pos (by decide), read_lightDisk (by decide)]

/-- The index names `items.Lamp` for `Lamp`, and under this name a unit is found that declares
another item. -/
theorem findItem_hidden : ∃ (s : Session) (d : Disk) (item identifier : String) (a : Artifact),
    (∀ entry ∈ s.entries, entry.IsOrderly d) ∧ s.items? = none ∧
    (s.findItem d item).1 = some identifier ∧
    s.entries.find? d identifier = .ok (some a) ∧ ¬Provides a item := by
  refine ⟨renamed, lightDisk, "Lamp", "items.Lamp", lampOf "Light", isOrderly_renamed, rfl,
    findItem_renamed, ?_, by simp [provides_lampOf]⟩
  rw [renamed, ClassPath.find?, find?_folder_renamed]

/-- The older unit declares `Lamp`, and the newer one hides it. -/
theorem findItem_provider_renamed :
    (renamed.findItem lightDisk "Lamp").1 = some "items.Lamp" ∧
    renamed.entries.find? lightDisk "items.Lamp" = .ok (some (lampOf "Light")) := by
  obtain ⟨before, entry, after, a, hentries, -, hprovides, hfind, -, hhidden⟩ :=
    findItem_provider renamed lightDisk "Lamp" "items.Lamp" isOrderly_renamed
      (by intro items hitems; cases hitems) findItem_renamed
  refine ⟨findItem_renamed, ?_⟩
  cases before with
  | nil =>
    -- the unit in the folder does not declare the item
    obtain ⟨rfl, -⟩ := List.cons.inj hentries
    rw [find?_folder_renamed] at hfind
    cases hfind
    simp [provides_lampOf] at hprovides
  | cons first before =>
    obtain ⟨rfl, -⟩ := List.cons.inj hentries
    have hfirst : find? lightDisk "items.Lamp" (.folder ⟨"units"⟩ :: before) =
        .ok (some (lampOf "Light")) := by
      rw [ClassPath.find?, find?_folder_renamed]
    rw [hhidden (by rw [hfirst]; simp), hfirst]

end Session

end ClassPath

end LiveRules
