import LiveRules.Proofs.Files.Differing
import LiveRules.Proofs.Load.Alone

/-!
Loading isolates units. Each path of a folder makes one entry of the report, whatever becomes of the
others; and one file, whatever is wrong with it, has no part in the entries of the paths whose
look-ups do not come to it.
-/

namespace LiveRules

open Disk (DifferAt)

namespace ClassPath

variable {d e : Disk} {cp : ClassPath} {name : String} {a : Artifact} {P : Place}

/-- The file that a look-up comes to, unless a pack holds the unit or there is none. -/
def fileOf? (d : Disk) (name : String) : ClassPath → Option Path
  | [] => none
  | .folder path :: rest =>
    if d.isFile (Naming.artifactPath path name) then some (Naming.artifactPath path name)
    else fileOf? d name rest
  | .pack _ content :: rest =>
    if (content.get? name).isSome then none else fileOf? d name rest

/-- A look-up reads the file at a place. -/
def Draws (d : Disk) (cp : ClassPath) (name : String) (P : Place) : Prop :=
  ∃ file, cp.fileOf? d name = some file ∧ d.place? file = .ok P

/-- A file at which a look-up does not arrive does not matter to it. -/
theorem find?_differ (h : DifferAt P d e) (hdraws : ¬cp.Draws d name P) :
    cp.find? e name = cp.find? d name := by
  induction cp with
  | nil => rfl
  | cons entry cp ih =>
    cases entry with
    | folder path =>
      rw [find?, find?, Entry.find?, Entry.find?]
      cases hfile : d.isFile (Naming.artifactPath path name) with
      | true =>
        -- the look-up ends here, and so the file is another one
        have hother : ∀ Q, d.place? (Naming.artifactPath path name) = .ok Q → Q ≠ P := by
          rintro Q hQ rfl
          exact hdraws ⟨_, by rw [fileOf?, if_pos hfile], hQ⟩
        obtain ⟨content, x, hlook⟩ := Disk.isFile_iff_look.mp hfile
        obtain ⟨Q, hQ, -⟩ := Disk.look_eq_ok_iff.mp hlook
        have hread : Artifact.read e (Naming.artifactPath path name) =
            Artifact.read d (Naming.artifactPath path name) := by
          rw [Artifact.read, Artifact.read, Disk.readText, Disk.readText,
            h.read hQ (hother Q hQ)]
        rw [h.isFile fun hP => absurd rfl (hother P hP), hfile, hread]
        cases Artifact.read d (Naming.artifactPath path name) <;> rfl
      | false =>
        rw [h.isFile fun _ => hfile, hfile]
        refine ih fun hrest => hdraws ?_
        rwa [Draws, fileOf?, hfile, if_neg Bool.false_ne_true]
    | pack path content =>
      rw [find?, find?, Entry.find?, Entry.find?]
      cases hget : content.get? name with
      | some a => rfl
      | none =>
        refine ih fun hrest => hdraws ?_
        rwa [Draws, fileOf?, hget, Option.isSome_none, if_neg Bool.false_ne_true]

theorem resolve_differ (h : DifferAt P d e) (hdraws : ¬cp.Draws d name P) :
    cp.resolve e name = cp.resolve d name := by
  rw [resolve, resolve, find?_differ h hdraws]

/-- An instance depends on the bases that its unit leads to, and on nothing else that lies on the
disk: not even on how many files there are. -/
theorem instantiate_congr (hsame : ∀ passed c name, Leads (found (cp.resolve d)) a passed c →
    c.extends? = some name → cp.resolve e name = cp.resolve d name) :
    cp.instantiate e a = cp.instantiate d a := by
  by_cases habstract : a.isAbstract = true
  · simp [instantiate_eq, habstract]
  rw [Bool.not_eq_true] at habstract
  by_cases hconstructible : a.constructible = true
  · obtain ⟨passed, c, r, names, hleads, hdistinct, hends⟩ :=
      Session.exists_ends { entries := cp } d a
    have hfound (passed : List Artifact) (c : Artifact) (name : String)
        (hc : Leads (found (cp.resolve d)) a passed c) (hname : c.extends? = some name) :
        found (cp.resolve e) name = found (cp.resolve d) name := by
      rw [found, found, hsame passed c name hc hname]
    rw [instantiate_of_ends habstract hconstructible hleads hdistinct hends,
      instantiate_of_ends habstract hconstructible (hleads.congr hfound) hdistinct
        (hends.congr fun name => hfound passed c name hleads)]
  · rw [Bool.not_eq_true] at hconstructible
    simp [instantiate_eq, habstract, hconstructible]

end ClassPath

namespace LoadReport

variable {d e : Disk} {cp : ClassPath} {base : String} {path : Path} {P : Place}

/-- The unit at a path resolves to the file at a place, or has it on its chain of bases. -/
inductive Involves (d : Disk) (cp : ClassPath) (base : String) (path : Path) (P : Place) :
    Prop where
  | own {identifier : String} (hderive : Naming.derive path base = .ok identifier)
      (hdraws : cp.Draws d identifier P)
  | base {a c : Artifact} {passed : List Artifact} {name : String}
      (hresolve : resolveAt d cp base path = .ok a)
      (hleads : Leads (found (cp.resolve d)) a passed c) (hname : c.extends? = some name)
      (hdraws : cp.Draws d name P)

theorem ofPath_differ (h : DifferAt P d e) (hfree : ¬Involves d cp base path P)
    (instantiates : Bool) :
    ofPath e cp base instantiates path = ofPath d cp base instantiates path := by
  have hresolve : resolveAt e cp base path = resolveAt d cp base path := by
    rw [resolveAt, resolveAt]
    cases hderive : Naming.derive path base with
    | error err => rfl
    | ok identifier =>
      exact ClassPath.resolve_differ h fun hdraws => hfree (.own hderive hdraws)
  rw [ofPath_eq, ofPath_eq, hresolve]
  cases ha : resolveAt d cp base path with
  | error err => rfl
  | ok a =>
    have hsame : cp.instantiate e a = cp.instantiate d a :=
      ClassPath.instantiate_congr fun passed c name hleads hname =>
        ClassPath.resolve_differ h fun hdraws => hfree (.base ha hleads hname hdraws)
    simp only [ofUnit_eq, hsame]

/-- What loading gives for one path alone, over a class path that is new. -/
def alone (d : Disk) (cp : ClassPath) (base : String) (instantiates : Bool) (path : Path) :
    LoadReport :=
  ((ClassPath.Session.finder d).loadPaths base instantiates [path] { entries := cp }).1

theorem alone_eq (d : Disk) (cp : ClassPath) (base : String) (instantiates : Bool) (path : Path) :
    alone d cp base instantiates path = ofPath d cp base instantiates path := by
  rw [alone, (ClassPath.Session.recalls_new d cp).loadPaths]
  exact append_nil _

/-- Without instances, a path makes a type or a failure. -/
theorem alone_resolved (d : Disk) (cp : ClassPath) (base : String) (path : Path) :
    (alone d cp base false path).types.length + (alone d cp base false path).failed.length = 1 ∧
      (alone d cp base false path).instances = [] ∧ (alone d cp base false path).skipped = [] := by
  rw [alone_eq, ofPath_eq]
  cases resolveAt d cp base path with
  | error err => exact ⟨rfl, rfl, rfl⟩
  | ok a => exact ⟨rfl, rfl, rfl⟩

/-- With instances, a path makes an instance, or is left out, or fails. -/
theorem alone_instantiated (d : Disk) (cp : ClassPath) (base : String) (path : Path) :
    (alone d cp base true path).instances.length + (alone d cp base true path).skipped.length +
      (alone d cp base true path).failed.length = 1 := by
  rw [alone_eq, ofPath_eq]
  cases resolveAt d cp base path with
  | error err => rfl
  | ok a =>
    dsimp only
    rw [if_pos rfl, ofUnit_eq]
    split
    · rfl
    split
    · rfl
    cases cp.instantiate d a <;> rfl

/-- Loading a folder gives what its paths give one by one, each alone, in their order. Each path
makes one entry; and when one file is exchanged, taken away or made unreadable, the other paths stay
the same, and those that do not involve the file give the same entries. -/
theorem ofFolder_isolates (d : Disk) (cp : ClassPath) (folder : Path) (base : String)
    (instantiates : Bool) :
    ((d.collect folder Naming.artifactExtension).Pairwise fun p q => p.le q = true) ∧
    ofFolder d cp folder base instantiates = concat
      ((d.collect folder Naming.artifactExtension).map (alone d cp base instantiates)) ∧
    (∀ path, let r := alone d cp base instantiates path
      if instantiates then r.instances.length + r.skipped.length + r.failed.length = 1
      else r.types.length + r.failed.length = 1 ∧ r.instances = [] ∧ r.skipped = []) ∧
    ∀ e P spoilt, DifferAt P d e → spoilt ∈ d.collect folder Naming.artifactExtension →
      d.place? spoilt = .ok P →
        (e.collect folder Naming.artifactExtension).filter (· ≠ spoilt) =
          (d.collect folder Naming.artifactExtension).filter (· ≠ spoilt) ∧
        ∀ path, ¬Involves d cp base path P →
          alone e cp base instantiates path = alone d cp base instantiates path := by
  refine ⟨Disk.pairwise_collect d folder _, ?_, ?_, ?_⟩
  · rw [ofFolder_eq, funext (alone_eq d cp base instantiates)]
  · intro path
    cases instantiates with
    | false => exact alone_resolved d cp base path
    | true => exact alone_instantiated d cp base path
  · intro e P spoilt h hspoilt hplace
    refine ⟨h.collect_filter hspoilt hplace, fun path hfree => ?_⟩
    rw [alone_eq, alone_eq, ofPath_differ h hfree]

/-- A folder with one compiled unit, and maybe more in it. -/
def rulesDisk (more : List (Place × Entry)) : Disk where
  entries := (["rules"], .folder) :: (["rules", "A.unit"], .file ⟨#[]⟩ false) :: more

/-- A unit that cannot be read. -/
def broken : Place × Entry := (["rules", "B.unit"], .file ⟨#[]⟩ false)

theorem differAt_rulesDisk :
    DifferAt ["rules", "B.unit"] (rulesDisk [broken]) (rulesDisk []) where
  left := .of_entries (show ((rulesDisk [broken]).entries.map Prod.fst).Nodup by decide)
    (show ∀ x ∈ (rulesDisk [broken]).entries, x.1 ≠ [] ∧
      Disk.entry? (rulesDisk [broken]) x.1.dropLast = some .folder ∧
      ∀ name ∈ x.1.getLast?, Path.IsName name by decide)
  right := .of_entries (show ((rulesDisk []).entries.map Prod.fst).Nodup by decide)
    (show ∀ x ∈ (rulesDisk []).entries, x.1 ≠ [] ∧
      Disk.entry? (rulesDisk []) x.1.dropLast = some .folder ∧
      ∀ name ∈ x.1.getLast?, Path.IsName name by decide)
  current := rfl
  trouble? _ _ _ := rfl
  entry? Q hQ := by
    simp [Disk.entry?, Disk.lookup, rulesDisk, broken, hQ.symm]
  hasFile := ⟨_, _, rfl⟩
  noFolder := by decide

def lone : Artifact := { identifier := "rules.A", kind := .rule, constructible := true }

/-- A pack holds the first unit; the other one is looked for on the disk. -/
def loneFirst : ClassPath := [.pack ⟨"l.pack"⟩ ⟨"", [("rules.A", lone)]⟩, .folder ⟨"."⟩]

theorem lone_involves_nothing (P : Place) :
    ¬Involves (rulesDisk [broken]) loneFirst "rules" ⟨"rules/A.unit"⟩ P := by
  rintro (⟨hderive, file, hfile, -⟩ | ⟨hresolve, hleads, hname, -⟩)
  · obtain rfl := Except.ok.inj
      ((show Naming.derive ⟨"rules/A.unit"⟩ "rules" = .ok "rules.A" by decide).symm.trans hderive)
    rw [show loneFirst.fileOf? (rulesDisk [broken]) "rules.A" = none by decide] at hfile
    cases hfile
  · obtain rfl := Except.ok.inj ((show resolveAt (rulesDisk [broken]) loneFirst "rules"
      ⟨"rules/A.unit"⟩ = .ok lone by decide).symm.trans hresolve)
    -- the unit has no base
    cases hleads with
    | here => cases hname
    | up hbase => cases hbase

/-- The broken unit fails, and the other one has its instance with it and without it. -/
theorem ofFolder_isolates_lone :
    DifferAt ["rules", "B.unit"] (rulesDisk [broken]) (rulesDisk []) ∧
    ⟨"rules/B.unit"⟩ ∈ (rulesDisk [broken]).collect ⟨"rules"⟩ Naming.artifactExtension ∧
    (rulesDisk [broken]).place? ⟨"rules/B.unit"⟩ = .ok ["rules", "B.unit"] ∧
    (alone (rulesDisk [broken]) loneFirst "rules" true ⟨"rules/B.unit"⟩).failed ≠ [] ∧
    ¬Involves (rulesDisk [broken]) loneFirst "rules" ⟨"rules/A.unit"⟩ ["rules", "B.unit"] ∧
    (alone (rulesDisk []) loneFirst "rules" true ⟨"rules/A.unit"⟩).instances = [⟨lone, []⟩] := by
  have hmem : ⟨"rules/B.unit"⟩ ∈
      (rulesDisk [broken]).collect ⟨"rules"⟩ Naming.artifactExtension := by decide
  have hplace : (rulesDisk [broken]).place? ⟨"rules/B.unit"⟩ = .ok ["rules", "B.unit"] := by decide
  obtain ⟨-, -, -, hspared⟩ :=
    ofFolder_isolates (rulesDisk [broken]) loneFirst ⟨"rules"⟩ "rules" true
  obtain ⟨-, hsame⟩ := hspared _ _ _ differAt_rulesDisk hmem hplace
  refine ⟨differAt_rulesDisk, hmem, hplace, by decide, lone_involves_nothing _, ?_⟩
  rw [hsame _ (lone_involves_nothing _)]
  decide

end LoadReport

end LiveRules
