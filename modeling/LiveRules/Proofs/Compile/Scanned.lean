import LiveRules.Proofs.Compile.Thresholds
import LiveRules.Proofs.Toml.Keys

/-!
Sources before they are compiled. A scan asks a document for its package and lets everything else
pass, and so it can name a source that no compiler accepts. Where the built-in compiler accepts a
source, its unit has the identifier and the hash of the scan: an external compiler is expected to
write where the built-in one writes.
-/

namespace LiveRules

/-! ### Contents -/

theorem Text.encode_of_decode? {content : Text.Bytes} {s : String}
    (h : Text.decode? content = some s) : Text.encode s = content := by
  rw [decode?, String.fromUTF8?] at h
  split at h <;> cases h
  rfl

namespace Disk

variable {d d' : Disk} {path : Path} {text : String}

theorem read_of_readText (h : d.readText path = .ok text) :
    d.read path = .ok (Text.encode text) := by
  simp only [readText, bind, Except.bind] at h
  split at h
  · cases h
  · rename_i content hread
    split at h <;> cases h
    rename_i hdecode
    rw [hread, Text.encode_of_decode? hdecode]

theorem readText_congr (h : d'.read path = d.read path) : d'.readText path = d.readText path := by
  rw [readText, readText, h]

end Disk

/-! ### Packages -/

namespace Toml

variable {α : Type} {P : α → Prop} {names : List String} {field : α → String → Node → Fitted α}
variable {start x : α} {entries : Entries}

theorem Node.toMarked_eq_ok {node : Node} {m : Marked} (h : node.toMarked = .ok m) :
    ∃ mark, node = .string mark m.text := by
  cases node with
  | string mark s =>
    cases h
    exact ⟨mark, rfl⟩
  | table form mark entries =>
    rcases mark with _ | mark <;> rcases entries with _ | ⟨entry, rest⟩ <;> cases h
  | _ => cases h

/-- In a fold that ends well, what every step keeps holds at the end. -/
theorem foldlM_keeps {β : Type} {step : α → β → Fitted α} {ys : List β}
    (hkeeps : ∀ y ∈ ys, ∀ before after, P before → step before y = .ok after → P after)
    (hstart : P start) (h : ys.foldlM step start = .ok x) : P x := by
  induction ys generalizing start with
  | nil =>
    cases h
    exact hstart
  | cons y ys ih =>
    rw [List.foldlM_cons] at h
    cases hy : step start y with
    | error e =>
      rw [hy] at h
      cases h
    | ok next =>
      rw [hy] at h
      have hnext := hkeeps y List.mem_cons_self start next hstart hy
      exact ih (fun y hy => hkeeps y (List.mem_cons_of_mem _ hy)) hnext h

/-- What every field keeps is kept by a record that refuses unknown fields. -/
theorem Members.read_keeps
    (hfield : ∀ entry ∈ entries, ∀ before after, P before →
      field before entry.1.name entry.2 = .ok after → P after) (hstart : P start)
    (h : (Members.named entries).read names field (fun _ key => unknownField names key) start =
      .ok x) : P x := by
  refine foldlM_keeps ?_ hstart h
  rintro ⟨key, node⟩ hentry before after hbefore hstep
  dsimp only at hstep
  split at hstep
  · exact hfield _ hentry before after hbefore (placed_eq_ok_iff.mp hstep)
  · cases hstep

end Toml

namespace Declaration

open Toml

variable {entries : Entries} {name : String} {node : Node} {x y : Declaration} {m : Marked}
variable {text : String}

theorem exists_of_set {β : Type} {fitted : Fitted β} {set : β → Declaration}
    (h : (do return set (← fitted)) = .ok y) : ∃ v, y = set v := by
  cases fitted with
  | error e => cases h
  | ok v =>
    cases h
    exact ⟨v, rfl⟩

/-- Only its own key sets the package. -/
theorem package?_of_field (h : field x name node = .ok y) : y.package? = x.package? ∨
    name = "package" ∧ ∃ m, node.toMarked = .ok m ∧ y.package? = some m := by
  rw [field] at h
  split at h
  · rename_i hname
    cases hm : node.toMarked with
    | error e =>
      rw [hm] at h
      cases h
    | ok m =>
      rw [hm] at h
      cases h
      exact .inr ⟨hname, m, rfl, rfl⟩
  · -- the other fields leave the package alone
    split_ifs at h
    all_goals
      obtain ⟨_, rfl⟩ := exists_of_set h
      exact .inl rfl

/-- The package of a declaration is a text under its key. -/
def TakesPackage (entries : Entries) (x : Declaration) : Prop :=
  ∀ m, x.package? = some m → ∃ mark, Toml.get? "package" entries = some (.string mark m.text)

theorem takesPackage_of_ofEntries (hkeys : SingleKeys entries) (h : ofEntries entries = .ok x) :
    TakesPackage entries x := by
  have hstart : TakesPackage entries {} := fun m hm => nomatch hm
  refine Members.read_keeps ?_ hstart h
  intro entry hentry before after hbefore hfield m hm
  rcases package?_of_field hfield with hsame | ⟨hname, marked, hmarked, hpackage⟩
  · exact hbefore m (hsame ▸ hm)
  · obtain rfl := Option.some.inj (hpackage.symm.trans hm)
    obtain ⟨mark, hnode⟩ := Node.toMarked_eq_ok hmarked
    rw [← hname, get?_eq_some_of_mem hkeys hentry, hnode]
    exact ⟨mark, rfl⟩

/-- The lenient reading of a source finds the package that it declares. -/
theorem packageOf?_eq (h : ofText text.toList = .ok x) (hm : x.package? = some m) :
    packageOf? text.toList = some m.text := by
  obtain ⟨entries, hdocument, -, hx⟩ := ofText_eq_ok_iff.mp h
  obtain ⟨mark, hget⟩ := takesPackage_of_ofEntries (singleKeys_document hdocument) hx m hm
  simp only [packageOf?, hdocument, hget]

end Declaration

/-! ### Scans -/

namespace Source

variable {d d' : Disk} {path : Path} {p : CheckedUnit}

/-- A source is known by the identifier and the hash of its unit. -/
structure IsKnownAs (s : Source) (p : CheckedUnit) : Prop where
  identifier : s.identifier = p.unit.identifier
  hash : s.hash.hex = p.unit.sourceHash

theorem isKnownAs_scan (hread : d'.read path = d.read path) (h : Check.ofPath d path = .ok p) :
    (scan d' path).IsKnownAs p := by
  obtain ⟨text, x, htext, hx, hproper, rfl⟩ := Check.ofPath_eq_ok_iff.mp h
  obtain ⟨m, hm, hnamespace⟩ := hproper.package
  have htext' : d'.readText path = .ok text := (Disk.readText_congr hread).trans htext
  -- an empty package, which a scan leaves out, is no namespace
  have hne : m.text ≠ "" := by
    intro hempty
    rw [hempty] at hnamespace
    exact absurd hnamespace (by decide)
  constructor
  · have hpackage := Declaration.packageOf?_eq hx hm
    have hkept : (some m.text).filter (fun s => !s.isEmpty) = some m.text := by
      simpa [Option.filter_some] using hne
    simp only [scan, identifierOf, htext', hpackage, hkept, Check.checked, Check.unitOf, hm,
      Option.elim_some]
  · show (ContentHash.ofFile d' path).hex = (ContentHash.ofText text).hex
    rw [ContentHash.ofFile, hread, Disk.read_of_readText htext]
    rfl

theorem identifiers_scan {paths : List Path} {batch : List CheckedUnit}
    (hread : ∀ path ∈ paths, d'.read path = d.read path)
    (h : List.Forall₂ (fun path p => Check.ofPath d path = .ok p) paths batch) :
    (paths.map fun path => (scan d' path).identifier) = batch.map fun p => p.unit.identifier := by
  induction h with
  | nil => rfl
  | cons hp _ ih =>
    rw [List.map_cons, List.map_cons, ih fun q hq => hread q (List.mem_cons_of_mem _ hq),
      (isKnownAs_scan (hread _ List.mem_cons_self) hp).identifier]

end Source

/-! ### Places of artifacts -/

/-- An external compiler that succeeds is taken to have written those artifacts that are there. -/
theorem Tool.written_of_runExternal {tool : ExternalTool} {d : Disk} {sources : List Source}
    {cp : ClassPath} {root : Path} {o : Outcome}
    (h : (runExternal tool d sources cp root).outcome = .ok o) (hclean : o.diagnostics = []) :
    o.written = (sources.map fun s => Naming.artifactPath root s.identifier).filter
      (runExternal tool d sources cp root).disk.isFile := by
  rw [runExternal] at h ⊢
  rcases hmake : d.makeFolders root with ⟨e | ⟨⟩, made⟩ <;> simp only [hmake] at h ⊢
  · cases h
  · split at h
    · cases h
    · obtain rfl := Except.ok.inj h
      rw [ExternalTool.outcomeOf] at hclean ⊢
      split at hclean
      · rename_i hsucceeded
        rw [if_pos hsucceeded]
      · -- a failure is never without a diagnostic
        exact absurd hclean (by dsimp only; split_ifs <;> simp_all)

namespace Builtin

open Disk

variable {d d' : Disk} {paths : List Path} {cp : ClassPath} {root : Path} {o : Outcome}
variable {sources : List Source}

theorem written_of_scanned (hread : ∀ path ∈ paths, d'.read path = d.read path)
    (hok : (compile d (paths.map (Source.scan d')) cp root).outcome = .ok o)
    (hclean : o.diagnostics = []) :
    o.written = paths.map fun path =>
      Naming.artifactPath root (Source.scan d' path).identifier := by
  obtain ⟨batch, made, hcheck, -, -, hwrite⟩ := compile_accepted hok hclean
  have hchecked : List.Forall₂ (fun path p => Check.ofPath d path = .ok p) paths batch :=
    List.forall₂_map_left_iff.mp (forall₂_of_checkAll hcheck)
  calc o.written
      = (batch.map fun p => p.unit.identifier).map (Naming.artifactPath root) := by
        rw [written_of_writeAll hwrite, List.map_map, List.map_map]
        rfl
    _ = (paths.map fun path => (Source.scan d' path).identifier).map
          (Naming.artifactPath root) := by rw [Source.identifiers_scan hread hchecked]
    _ = paths.map fun path => Naming.artifactPath root (Source.scan d' path).identifier := by
        rw [List.map_map, Function.comp_def]

/-- Every path that an accepted batch reports is a file. -/
theorem isFile_of_written (hd : d.Regular) (hok : (compile d sources cp root).outcome = .ok o)
    (hclean : o.diagnostics = []) :
    ∀ path ∈ o.written, (compile d sources cp root).disk.isFile path = true := by
  obtain ⟨batch, made, -, -, hmake, hwrite⟩ := compile_accepted hok hclean
  obtain ⟨h₁, -, -⟩ := makeFolders_spec hd hmake
  obtain ⟨places, hstored⟩ := writeAll_spec h₁ hwrite
  rw [written_of_writeAll hwrite]
  intro path hpath
  obtain ⟨a, ha, rfl⟩ := List.mem_map.mp hpath
  obtain ⟨P, hP, hplace⟩ := exists_of_forall₂_left hstored.place a ha
  obtain ⟨b, hb⟩ :=
    Option.isSome_iff_exists.mp (lastAt_isSome_of_mem hstored.place.length_eq hP)
  exact (isFile_iff hstored.regular.sound).mpr ⟨P, _, _, hplace, (hstored.file P b hb).2⟩

end Builtin

/-- Where the built-in compiler accepts a source, a scan of the same file knows it by the identifier
and the hash of its unit. So the artifacts of an accepted batch are written where the identifiers of
the scan say, and an external compiler that succeeds is expected to write to the same paths. -/
theorem Source.scan_agrees (d d' : Disk) (paths : List Path)
    (hread : ∀ path ∈ paths, d'.read path = d.read path) :
    (∀ path ∈ paths, ∀ p, Check.ofPath d path = .ok p → (scan d' path).IsKnownAs p) ∧
    ∀ cp root o, (Builtin.compile d (paths.map (scan d')) cp root).outcome = .ok o →
      o.diagnostics = [] →
      o.written = paths.map (fun path => Naming.artifactPath root (scan d' path).identifier) ∧
      (d.Regular → ∀ path ∈ o.written,
        (Builtin.compile d (paths.map (scan d')) cp root).disk.isFile path = true) ∧
      ∀ tool e cp' o', (Tool.runExternal tool e (paths.map (scan d')) cp' root).outcome = .ok o' →
        o'.diagnostics = [] → o'.written = o.written.filter
          (Tool.runExternal tool e (paths.map (scan d')) cp' root).disk.isFile := by
  refine ⟨fun path hpath p hp => isKnownAs_scan (hread path hpath) hp, ?_⟩
  intro cp root o hok hclean
  have hwritten := Builtin.written_of_scanned hread hok hclean
  refine ⟨hwritten, fun hd => Builtin.isFile_of_written hd hok hclean, ?_⟩
  intro tool e cp' o' hok' hclean'
  rw [Tool.written_of_runExternal hok' hclean', hwritten, List.map_map]
  rfl

/-- A source, and a compiler that writes for it. -/
def lightsDisk : Disk where
  entries := [(["src"], .folder),
    (["src", "Lights.rule"], .file (Text.encode "package=\"p\"") false),
    (["rulec"], .file (Text.encode "#!/bin/sh\nmkdir -p out/p\ntouch out/p/Lights.unit\n") true)]

theorem regular_lightsDisk : lightsDisk.Regular :=
  ⟨.of_entries (show (lightsDisk.entries.map Prod.fst).Nodup by decide)
    (show ∀ x ∈ lightsDisk.entries, x.1 ≠ [] ∧ lightsDisk.entry? x.1.dropLast = some .folder ∧
      ∀ name ∈ x.1.getLast?, Path.IsName name by decide), fun _ _ _ => rfl⟩

def lightsPath : Path := ⟨"src/Lights.rule"⟩

def lightsBuilt : Builtin.Result :=
  Builtin.compile lightsDisk [Source.scan lightsDisk lightsPath] [] ⟨"out"⟩

def lightsRun : Compiled :=
  Tool.runExternal ⟨⟨"rulec"⟩, [], "rulec"⟩ lightsDisk [Source.scan lightsDisk lightsPath] [] ⟨"out"⟩

/-- Both compilers write to the same path. -/
theorem Source.scan_agrees_lights :
    (∃ p, Check.ofPath lightsDisk lightsPath = .ok p ∧
      (scan lightsDisk lightsPath).IsKnownAs p) ∧
    ∃ o o', lightsBuilt.outcome = .ok o ∧ lightsRun.outcome = .ok o' ∧
      o.written = [⟨"out/p/Lights.unit"⟩] ∧ lightsBuilt.disk.isFile ⟨"out/p/Lights.unit"⟩ = true ∧
      o'.written = [⟨"out/p/Lights.unit"⟩] := by
  obtain ⟨hscan, hcompile⟩ := scan_agrees lightsDisk lightsDisk [lightsPath] fun _ _ => rfl
  obtain ⟨o, ho, hclean⟩ := CompileError.exists_clean (x := lightsBuilt.outcome) (by decide +kernel)
  obtain ⟨o', ho', hclean'⟩ := CompileError.exists_clean (x := lightsRun.outcome)
    (by decide +kernel)
  obtain ⟨hwritten, hfile, hexternal⟩ := hcompile _ _ o ho hclean
  have hpath : o.written = [⟨"out/p/Lights.unit"⟩] := hwritten.trans (by decide +kernel)
  have hthere : lightsRun.disk.isFile ⟨"out/p/Lights.unit"⟩ = true := by decide +kernel
  refine ⟨?_, o, o', ho, ho', hpath, ?_, ?_⟩
  · have hok : (Check.ofPath lightsDisk lightsPath).toOption.isSome = true := by decide +kernel
    cases hp : Check.ofPath lightsDisk lightsPath with
    | error found => simp [hp, Except.toOption] at hok
    | ok p => exact ⟨p, rfl, hscan lightsPath (List.mem_singleton_self _) p hp⟩
  · exact hfile regular_lightsDisk _ (hpath ▸ List.mem_singleton_self _)
  · rw [hexternal ⟨⟨"rulec"⟩, [], "rulec"⟩ lightsDisk [] o' ho' hclean', hpath]
    exact List.filter_eq_self.mpr fun path hmem => List.mem_singleton.mp hmem ▸ hthere

end LiveRules
