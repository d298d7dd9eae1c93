import LiveRules.ClassPath.Session
import Mathlib.Data.List.Basic

/-!
Handles of a class path over time. A class path is pushed to, asked for units and items, and used
for instances, while files change. From one push to the next, what it has once given under a name
it gives again, and its index of items stays that of the first question for an item; what it could
not find leaves no trace. A push forgets all of this.
-/

namespace LiveRules

/-- What holds from each state to the next holds from the start of a walk to its end. -/
theorem Instance.climb_snd {σ : Type} {ask : String → σ → Except LoadError Artifact × σ}
    {leads : σ → σ → Prop} (hrefl : ∀ s, leads s s)
    (htrans : ∀ {s t u}, leads s t → leads t u → leads s u)
    (hask : ∀ name s, leads s (ask name s).2) (steps : Nat) (seen : List String) (a : Artifact)
    (s : σ) : leads s (climb ask steps seen a s).2 := by
  induction steps generalizing seen a s with
  | zero => exact hrefl s
  | succ steps ih =>
    rw [climb]
    split
    · exact hrefl s
    cases a.extends? with
    | none => exact hrefl s
    | some base =>
      -- the walk goes on in the state that the look-up of the base leaves
      have hbase := hask base s
      dsimp only
      rcases hanswer : ask base s with ⟨answer, t⟩
      rw [hanswer] at hbase
      cases answer with
      | error e => exact hbase
      | ok next =>
        have hnext := ih (a.identifier :: seen) next t
        dsimp only
        rcases habove : climb ask steps (a.identifier :: seen) next t with ⟨above, u⟩
        rw [habove] at hnext
        cases above <;> exact htrans hbase hnext

namespace ClassPath

namespace Session

variable {s t u : Session} {d : Disk} {name other item : String} {a b : Artifact} {n : Nat}
variable {units : List (String × Artifact)}

/-! ### Handles -/

/-- The unit that was resolved under a name, with the number of those resolved before it. -/
def numbered (name : String) : List (String × Artifact) → Option (Nat × Artifact)
  | [] => none
  | (other, a) :: before => if other = name then some (before.length, a) else numbered name before

/-- What a name stands for since it was resolved. Units are added to those resolved before, and
none is taken away or replaced, so the number tells it apart from all others. -/
def handle? (s : Session) (name : String) : Option (Nat × Artifact) := numbered name s.resolved

theorem map_snd_numbered : (numbered name units).map Prod.snd = units.lookup name := by
  induction units with
  | nil => rfl
  | cons x before ih =>
    rw [numbered, List.lookup_cons]
    by_cases hname : x.1 = name
    · simp [hname]
    · rw [if_neg hname, ih, beq_false_of_ne (Ne.symm hname)]

theorem lt_of_numbered (h : numbered name units = some (n, a)) : n < units.length := by
  induction units with
  | nil => cases h
  | cons x before ih =>
    rw [numbered] at h
    split at h
    · cases h
      exact Nat.lt_succ_self _
    · exact Nat.lt_succ_of_lt (ih h)

/-- Different names have different handles. -/
theorem name_eq_of_numbered (h : numbered name units = some (n, a))
    (h' : numbered other units = some (n, b)) : name = other := by
  induction units with
  | nil => cases h
  | cons x before ih =>
    rw [numbered] at h h'
    split at h <;> split at h'
    · rename_i hname hother
      exact hname.symm.trans hother
    · cases h
      exact absurd (lt_of_numbered h') (Nat.lt_irrefl _)
    · cases h'
      exact absurd (lt_of_numbered h) (Nat.lt_irrefl _)
    · exact ih h h'

theorem lookup_of_handle? (h : s.handle? name = some (n, a)) : s.resolved.lookup name = some a := by
  rw [← map_snd_numbered, ← handle?, h]
  rfl

theorem lookup_of_handle?_eq_none (h : s.handle? name = none) : s.resolved.lookup name = none := by
  rw [← map_snd_numbered, ← handle?, h]
  rfl

theorem handle?_of_lookup (h : s.resolved.lookup name = some a) :
    ∃ n, s.handle? name = some (n, a) := by
  rw [← map_snd_numbered] at h
  obtain ⟨⟨n, b⟩, hnumbered, rfl⟩ := Option.map_eq_some_iff.mp h
  exact ⟨n, hnumbered⟩

/-! ### What stays -/

/-- A class path with more resolved units than before, and otherwise the same. -/
structure Extends (s t : Session) : Prop where
  entries : t.entries = s.entries
  items : t.items? = s.items?
  handle : ∀ {name handle}, s.handle? name = some handle → t.handle? name = some handle

/-- A class path that still knows what it knew. -/
structure Keeps (s t : Session) : Prop where
  entries : t.entries = s.entries
  items : ∀ {items}, s.items? = some items → t.items? = some items
  handle : ∀ {name handle}, s.handle? name = some handle → t.handle? name = some handle

theorem Extends.refl (s : Session) : Extends s s := ⟨rfl, rfl, id⟩

theorem Extends.trans (h : Extends s t) (h' : Extends t u) : Extends s u :=
  ⟨h'.entries.trans h.entries, h'.items.trans h.items, fun hs => h'.handle (h.handle hs)⟩

theorem Extends.keeps (h : Extends s t) : Keeps s t :=
  ⟨h.entries, fun hs => h.items.trans hs, h.handle⟩

theorem Keeps.refl (s : Session) : Keeps s s := (Extends.refl s).keeps

theorem Keeps.trans (h : Keeps s t) (h' : Keeps t u) : Keeps s u :=
  ⟨h'.entries.trans h.entries, fun hs => h'.items (h.items hs), fun hs => h'.handle (h.handle hs)⟩

theorem extends_keep (s : Session) (name : String) (a : Artifact) : Extends s (s.keep name a) := by
  rw [keep]
  split
  · exact .refl s
  · rename_i hnew
    refine ⟨rfl, rfl, fun {other handle} hother => ?_⟩
    -- only a name without a handle is added
    have hne : name ≠ other := by
      rintro rfl
      exact hnew (by rw [lookup_of_handle? hother]; rfl)
    rw [handle?, numbered, if_neg hne]
    exact hother

theorem extends_resolve (s : Session) (d : Disk) (name : String) :
    Extends s (s.resolve d name).2 := by
  rw [resolve]
  cases s.lookup d name with
  | error e => exact .refl s
  | ok a => exact extends_keep s name a

theorem extends_create (s : Session) (d : Disk) (a : Artifact) : Extends s (s.create d a).2 := by
  rw [create, Finder.create]
  split
  · exact .refl s
  split
  · exact .refl s
  have hclimb := Instance.climb_snd Extends.refl Extends.trans
    (fun name s => extends_resolve s d name) ((finder d).bound s) [] a s
  change Extends s (Instance.climb (finder d).resolve ((finder d).bound s) [] a s).2 at hclimb
  rcases hunits : Instance.climb (finder d).resolve ((finder d).bound s) [] a s with ⟨answer, t⟩
  rw [hunits] at hclimb
  cases answer <;> exact hclimb

theorem extends_instantiate (s : Session) (d : Disk) (name : String) :
    Extends s (s.instantiate d name).2 := by
  have hresolve := s.extends_resolve d name
  rw [instantiate]
  rcases hanswer : s.resolve d name with ⟨answer, t⟩
  rw [hanswer] at hresolve
  cases answer with
  | error e => exact hresolve
  | ok a => exact hresolve.trans (t.extends_create d a)

theorem keeps_findItem (s : Session) (d : Disk) (item : String) :
    Keeps s (s.findItem d item).2 := by
  refine ⟨rfl, fun {items} hs => ?_, id⟩
  rw [findItem, hs]
  rfl

/-! ### One answer -/

/-- A name that was resolved gives its handle again, and nothing changes. -/
theorem resolve_of_handle? (h : s.handle? name = some (n, a)) (d : Disk) :
    s.resolve d name = (.ok a, s) := by
  have hlookup := lookup_of_handle? h
  simp only [resolve, lookup, keep, hlookup, Option.isSome_some, if_true]

/-- Any other name is looked for in the entries, over the files as they are. -/
theorem resolve_of_handle?_eq_none (h : s.handle? name = none) (d : Disk) :
    (s.resolve d name).1 = s.entries.resolve d name := by
  rw [resolve, lookup, lookup_of_handle?_eq_none h]
  dsimp only
  cases s.entries.resolve d name <;> rfl

theorem handle?_resolve (h : (s.resolve d name).1 = .ok a) :
    ∃ n, (s.resolve d name).2.handle? name = some (n, a) := by
  cases hhandle : s.handle? name with
  | some handle =>
    obtain ⟨n, b⟩ := handle
    rw [resolve_of_handle? hhandle] at h ⊢
    cases h
    exact ⟨n, hhandle⟩
  | none =>
    refine handle?_of_lookup ?_
    have hlookup := lookup_of_handle?_eq_none hhandle
    rw [resolve_of_handle?_eq_none hhandle] at h
    simp [resolve, lookup, keep, hlookup, h]

theorem resolve_of_error {e : LoadError} (h : (s.resolve d name).1 = .error e) :
    (s.resolve d name).2 = s ∧ s.handle? name = none := by
  cases hhandle : s.handle? name with
  | some handle =>
    rw [resolve_of_handle? (n := handle.1) (a := handle.2) hhandle] at h
    cases h
  | none =>
    refine ⟨?_, rfl⟩
    have hlookup := lookup_of_handle?_eq_none hhandle
    rw [resolve_of_handle?_eq_none hhandle] at h
    simp [resolve, lookup, hlookup, h]

theorem findItem_of_items {items : List (String × String)} (h : s.items? = some items) (d : Disk)
    (item : String) : (s.findItem d item).1 = items.lookup item := by
  rw [findItem, h]
  rfl

theorem findItem_of_items_eq_none (h : s.items? = none) (d : Disk) (item : String) :
    (s.findItem d item).1 = s.entries.findItem? d item ∧
      (s.findItem d item).2.items? = some (s.entries.items d) := by
  rw [findItem, h]
  exact ⟨rfl, rfl⟩

end Session

/-! ### A class path in a world of files -/

/-- A class path in use, and the files as they are. -/
structure World where
  session : Session
  disk : Disk

/-- What may be done with a class path, and what may happen to the files. -/
inductive Act where
  | push (entry : Entry)
  | pushPack (path : Path)
  | findUnit (name : String)
  | contains (name : String)
  | findItem (item : String)
  | resolve (name : String)
  | create (a : Artifact)
  | instantiate (name : String)
  | change (disk : Disk)

/-- Whether an act may resolve units. -/
def Act.Resolves : Act → Prop
  | .resolve _ | .create _ | .instantiate _ => True
  | _ => False

namespace World

variable {w v : World} {d : Disk} {act : Act} {acts : List Act} {name item : String}

/-- The entry that an act pushes. A pack that cannot be read is not pushed. -/
def pushed? (w : World) : Act → Option Entry
  | .push entry => some entry
  | .pushPack path =>
    match Pack.read w.disk path with
    | .ok pack => some (.pack path pack)
    | .error _ => none
  | _ => none

def perform (w : World) : Act → World
  | .push entry => { w with session := w.session.push entry }
  | .pushPack path =>
    match w.session.pushPack w.disk path with
    | .ok session => { w with session }
    | .error _ => w
  | .findUnit _ | .contains _ => w
  | .findItem item => { w with session := (w.session.findItem w.disk item).2 }
  | .resolve name => { w with session := (w.session.resolve w.disk name).2 }
  | .create a => { w with session := (w.session.create w.disk a).2 }
  | .instantiate name => { w with session := (w.session.instantiate w.disk name).2 }
  | .change disk => { w with disk }

def run (w : World) (acts : List Act) : World := acts.foldl perform w

/-- Whether no act of a run pushes anything. -/
def IsQuiet (w : World) : List Act → Prop
  | [] => True
  | act :: rest => w.pushed? act = none ∧ (w.perform act).IsQuiet rest

theorem session_perform_of_pushed {entry : Entry} (h : w.pushed? act = some entry) :
    (w.perform act).session = w.session.push entry := by
  cases act with
  | push => exact congrArg w.session.push (Option.some.inj h)
  | pushPack path =>
    rw [pushed?] at h
    rw [perform, Session.pushPack]
    cases hread : Pack.read w.disk path with
    | error e => simp [hread] at h
    | ok pack =>
      simp only [hread, Option.some.injEq] at h
      subst h
      rfl
  | _ => cases h

/-- A push that fails changes nothing. -/
theorem perform_pushPack_of_error {path : Path} {e : PackError}
    (h : Pack.read w.disk path = .error e) : w.perform (.pushPack path) = w := by
  rw [perform, Session.pushPack, h]

theorem perform_pushPack_of_pushed {path : Path} (h : w.pushed? (.pushPack path) = none) :
    w.perform (.pushPack path) = w := by
  rw [pushed?] at h
  cases hread : Pack.read w.disk path with
  | error e => exact perform_pushPack_of_error hread
  | ok pack => simp [hread] at h

/-- Without a push, what is known stays known. -/
theorem keeps_perform (h : w.pushed? act = none) : w.session.Keeps (w.perform act).session := by
  cases act with
  | push => cases h
  | pushPack path =>
    rw [perform_pushPack_of_pushed h]
    exact .refl _
  | findUnit | contains | change => exact .refl _
  | findItem item => exact w.session.keeps_findItem w.disk item
  | resolve name => exact (w.session.extends_resolve w.disk name).keeps
  | create a => exact (w.session.extends_create w.disk a).keeps
  | instantiate name => exact (w.session.extends_instantiate w.disk name).keeps

theorem keeps_run (h : w.IsQuiet acts) : w.session.Keeps (w.run acts).session := by
  induction acts generalizing w with
  | nil => exact .refl _
  | cons act rest ih => exact (keeps_perform h.1).trans (ih h.2)

/-- Only a question for an item makes an index. -/
theorem items_perform (h : w.pushed? act = none) (hact : ∀ item, act ≠ .findItem item) :
    (w.perform act).session.items? = w.session.items? := by
  cases act with
  | push => cases h
  | pushPack path => rw [perform_pushPack_of_pushed h]
  | findUnit | contains | change => rfl
  | findItem item => exact absurd rfl (hact item)
  | resolve name => exact (w.session.extends_resolve w.disk name).items
  | create a => exact (w.session.extends_create w.disk a).items
  | instantiate name => exact (w.session.extends_instantiate w.disk name).items

theorem items_run (h : w.IsQuiet acts) (hacts : ∀ item, .findItem item ∉ acts) :
    (w.run acts).session.items? = w.session.items? := by
  induction acts generalizing w with
  | nil => rfl
  | cons act rest ih =>
    have hfirst := items_perform h.1 fun item hact => hacts item (hact ▸ List.mem_cons_self)
    exact (ih h.2 fun item hitem => hacts item (List.mem_cons_of_mem _ hitem)).trans hfirst

/-- Only the acts that resolve units make handles. -/
theorem resolved_perform (h : w.pushed? act = none) (hact : ¬act.Resolves) :
    (w.perform act).session.resolved = w.session.resolved := by
  cases act with
  | push => cases h
  | pushPack path => rw [perform_pushPack_of_pushed h]
  | findUnit | contains | change | findItem => rfl
  | resolve | create | instantiate => exact absurd trivial hact

theorem resolved_run (h : w.IsQuiet acts) (hacts : ∀ act ∈ acts, ¬act.Resolves) :
    (w.run acts).session.resolved = w.session.resolved := by
  induction acts generalizing w with
  | nil => rfl
  | cons act rest ih =>
    have hfirst := resolved_perform h.1 (hacts act List.mem_cons_self)
    exact (ih h.2 fun act hact => hacts act (List.mem_cons_of_mem _ hact)).trans hfirst

/-- From one push to the next a name that was resolved once keeps its handle, which no other name
has, and is resolved to it whatever happens to the files; a name that could not be resolved leaves
everything as it was, and as long as it has no handle it is looked for again in the files as they
are. All questions for items are answered from the files as they were at the first of them. After a
push nothing of this is known any more, and a pack that cannot be read is not pushed and changes
nothing. -/
theorem handles_between_pushes (w : World) :
    (∀ name a acts, (w.session.resolve w.disk name).1 = .ok a →
      (w.perform (.resolve name)).IsQuiet acts →
      let v := (w.perform (.resolve name)).run acts
      ∃ n, (w.perform (.resolve name)).session.handle? name = some (n, a) ∧
        v.session.handle? name = some (n, a) ∧
        v.session.resolve v.disk name = (.ok a, v.session) ∧
        ∀ other b, v.session.handle? other = some (n, b) → other = name) ∧
    (∀ name e, (w.session.resolve w.disk name).1 = .error e →
      w.perform (.resolve name) = w ∧ w.session.handle? name = none) ∧
    (∀ acts, w.IsQuiet acts →
      let v := w.run acts
      v.session.entries = w.session.entries ∧
      ∀ name, v.session.handle? name = none →
        (v.session.resolve v.disk name).1 = w.session.entries.resolve v.disk name) ∧
    (w.session.items? = none → ∀ item acts, (w.perform (.findItem item)).IsQuiet acts →
      let v := (w.perform (.findItem item)).run acts
      (w.session.findItem w.disk item).1 = w.session.entries.findItem? w.disk item ∧
      ∀ other, (v.session.findItem v.disk other).1 = w.session.entries.findItem? w.disk other) ∧
    (∀ act entry acts, w.pushed? act = some entry → (w.perform act).IsQuiet acts →
      let v := (w.perform act).run acts
      v.session.entries = w.session.entries ++ [entry] ∧
      ((∀ act ∈ acts, ¬act.Resolves) → ∀ name, v.session.handle? name = none ∧
        (v.session.resolve v.disk name).1 =
          ClassPath.resolve v.disk (w.session.entries ++ [entry]) name) ∧
      ((∀ item, .findItem item ∉ acts) → v.session.items? = none ∧ ∀ item,
        (v.session.findItem v.disk item).1 =
          findItem? v.disk (w.session.entries ++ [entry]) item)) ∧
    (∀ path e, Pack.read w.disk path = .error e →
      w.session.pushPack w.disk path = .error e ∧ w.perform (.pushPack path) = w) := by
  -- a handle that is there is kept by every quiet act, and so is the index
  refine ⟨fun name a acts hok hquiet => ?_, fun name e herror => ?_, fun acts hquiet => ?_,
    fun hnone item acts hquiet => ?_, fun act entry acts hpush hquiet => ?_, fun path e hread => ?_⟩
  · obtain ⟨n, hhandle⟩ := Session.handle?_resolve hok
    have hkept := (keeps_run hquiet).handle hhandle
    exact ⟨n, hhandle, hkept, Session.resolve_of_handle? hkept _, fun other b hother =>
      Session.name_eq_of_numbered hother hkept⟩
  · obtain ⟨hsame, hhandle⟩ := Session.resolve_of_error herror
    exact ⟨by rw [perform, hsame], hhandle⟩
  · have hentries := (keeps_run hquiet).entries
    refine ⟨hentries, fun name hhandle => ?_⟩
    rw [Session.resolve_of_handle?_eq_none hhandle, hentries]
  · obtain ⟨hanswer, hitems⟩ := Session.findItem_of_items_eq_none hnone w.disk item
    refine ⟨hanswer, fun other => ?_⟩
    rw [Session.findItem_of_items ((keeps_run hquiet).items hitems)]
    rfl
  · have hsession := session_perform_of_pushed hpush
    have hentries := (keeps_run hquiet).entries
    rw [hsession] at hentries
    refine ⟨hentries, fun hacts name => ?_, fun hacts => ?_⟩
    · have hresolved := resolved_run hquiet hacts
      have hhandle : ((w.perform act).run acts).session.handle? name = none := by
        rw [Session.handle?, hresolved, hsession]
        rfl
      refine ⟨hhandle, ?_⟩
      rw [Session.resolve_of_handle?_eq_none hhandle, hentries]
      rfl
    · have hitems := items_run hquiet hacts
      rw [hsession] at hitems
      refine ⟨hitems, fun item => ?_⟩
      rw [(Session.findItem_of_items_eq_none hitems _ item).1, hentries]
      rfl
  · exact ⟨by rw [Session.pushPack, hread], perform_pushPack_of_error hread⟩

def packedUnit : Artifact := { identifier := "p.A", kind := .rule, constructible := true }

/-- A unit in a pack, and no files. -/
def packedWorld : World where
  session := { entries := [.folder ⟨"units"⟩, .pack ⟨"l.pack"⟩ ⟨"", [("p.A", packedUnit)]⟩] }
  disk := { entries := [] }

/-- A file that cannot be read, under the name of the unit. -/
def unreadableDisk : Disk where
  entries := [(["units"], .folder), (["units", "p"], .folder),
    (["units", "p", "A.unit"], .file ⟨#[]⟩ false)]

/-- The handle of the unit stays, although by now the unit could not be found. -/
theorem handles_between_pushes_packed :
    let v := (packedWorld.perform (.resolve "p.A")).run [.change unreadableDisk]
    (packedWorld.session.resolve packedWorld.disk "p.A").1 = .ok packedUnit ∧
    v.session.resolve v.disk "p.A" = (.ok packedUnit, v.session) ∧
    v.session.entries.contains v.disk "p.A" = false := by
  obtain ⟨hstays, -⟩ := handles_between_pushes packedWorld
  have hresolve : (packedWorld.session.resolve packedWorld.disk "p.A").1 = .ok packedUnit := by
    decide
  obtain ⟨n, -, -, hagain, -⟩ :=
    hstays "p.A" packedUnit [.change unreadableDisk] hresolve ⟨rfl, trivial⟩
  exact ⟨hresolve, hagain, by decide⟩

end World

end ClassPath

end LiveRules
