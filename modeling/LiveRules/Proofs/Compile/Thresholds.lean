import LiveRules.Engine.Context
import LiveRules.Proofs.Compile.Written

/-!
What becomes of thresholds. The stored form of a unit has no spelling for numbers that are not
finite: such a threshold is accepted in a source and is not there when its unit is read back, while
every finite one is. A context is numeric just when its rule has a finite threshold.
-/

namespace LiveRules

/-- The thresholds that are finite numbers. -/
def Bounds.finite (b : Bounds) : Bounds :=
  ⟨b.lt.filter Float.isFinite, b.lte.filter Float.isFinite, b.gt.filter Float.isFinite,
    b.gte.filter Float.isFinite⟩

/-- Two lists of thresholds set the same ones. -/
structure Bounds.SetsSame (b c : Bounds) : Prop where
  lt : b.lt.isSome = c.lt.isSome
  lte : b.lte.isSome = c.lte.isSome
  gt : b.gt.isSome = c.gt.isSome
  gte : b.gte.isSome = c.gte.isSome

variable {b c : Bounds}

theorem Bounds.SetsSame.isSet (h : b.SetsSame c) : b.isSet = c.isSet := by
  rw [Bounds.isSet, Bounds.isSet, h.lt, h.lte, h.gt, h.gte]

theorem Json.isSome_bind_reread? (x : Option Float) :
    (x.bind reread?).isSome = (x.filter Float.isFinite).isSome := by
  cases x with
  | none => rfl
  | some t =>
    rw [Option.bind_some, isSome_reread?]
    cases h : t.isFinite with
    | true => simp [Option.filter, h]
    | false => simp [Option.filter, h]

/-- Just the finite thresholds are read where thresholds were stored. -/
theorem Bounds.reread_setsSame (b : Bounds) : b.reread.SetsSame b.finite :=
  ⟨Json.isSome_bind_reread? _, Json.isSome_bind_reread? _, Json.isSome_bind_reread? _,
    Json.isSome_bind_reread? _⟩

/-- A method has the finite thresholds of a rule, and no others, and so has each context that is
made of the method. -/
structure KeepsFinite (r : RuleDeclaration) (m : Method) : Prop where
  name : m.name = r.name.text
  bounds : m.bounds.SetsSame r.bounds.finite
  numeric : ∀ (i : Instance) (k : Nat), i.methods[k]? = some m →
    ∃ x, (Context.ofInstance i)[k]? = some x ∧ x.method.bounds.isSet = r.bounds.finite.isSet

theorem Carries.keepsFinite {itemClass? : String → Option String} {r : RuleDeclaration}
    {m : Method} (h : Carries itemClass? r m) : KeepsFinite r m.reread := by
  have hsame : m.reread.bounds.SetsSame r.bounds.finite := h.bounds ▸ m.bounds.reread_setsSame
  refine ⟨h.name, hsame, fun i k hk => ?_⟩
  rw [Context.ofInstance, List.getElem?_map, hk]
  exact ⟨_, rfl, hsame.isSet⟩

namespace Builtin

open Disk

variable {d d' : Disk} {root : Path} {sources : List Source} {cp : ClassPath} {o : Outcome}
variable {units : List Artifact} {places : List Place} {P : Place}

theorem lastAt_isSome_of_mem (hlength : units.length = places.length) (h : P ∈ places) :
    (lastAt P units places).isSome = true := by
  induction places generalizing units with
  | nil => cases h
  | cons Q places ih =>
    obtain ⟨a, units, rfl⟩ := List.exists_cons_of_length_eq_add_one hlength
    rw [lastAt, Option.isSome_or, Bool.or_eq_true]
    rcases List.mem_cons.mp h with rfl | h
    · exact .inr (by rw [if_pos rfl]; rfl)
    · exact .inl (ih (Nat.succ.inj hlength) h)

/-- Each path that leads to a place where units were stored is read as the last one of them. -/
theorem StoredAll.read (h : StoredAll root units places d d') {p : Path} (hp : d'.place? p = .ok P)
    (hP : P ∈ places) : ∃ a ∈ units, d'.place? (Naming.artifactPath root a.identifier) = .ok P ∧
      Artifact.read d' p = .ok a.reread := by
  obtain ⟨a, ha⟩ := Option.isSome_iff_exists.mp (lastAt_isSome_of_mem h.place.length_eq hP)
  obtain ⟨hmem, hplace⟩ := Pass.place_of_lastAt h.place ha
  refine ⟨a, hmem, hplace, Artifact.read_of_encode ((read_eq_ok_iff h.regular.sound).mpr ?_)⟩
  exact ⟨P, _, hp, (h.file P a ha).2⟩

/-- What is read at the path of a unit of an accepted batch: what was stored for it, or for a unit
that was stored at the same place after it. -/
theorem compile_reads (hd : d.Regular) (hok : (compile d sources cp root).outcome = .ok o)
    (hclean : o.diagnostics = []) : ∃ batch,
      List.Forall₂ (fun s p => Check.ofPath d s.path = .ok p) sources batch ∧
      o.written = batch.map (fun p => Naming.artifactPath root p.unit.identifier) ∧
      ∀ p ∈ batch, ∃ q ∈ batch,
        (compile d sources cp root).disk.place? (Naming.artifactPath root q.unit.identifier) =
          (compile d sources cp root).disk.place? (Naming.artifactPath root p.unit.identifier) ∧
        Artifact.read (compile d sources cp root).disk
            (Naming.artifactPath root p.unit.identifier) =
          .ok (Link.linked (.of d cp batch) q).reread := by
  obtain ⟨batch, made, hcheck, -, hmake, hwrite⟩ := compile_accepted hok hclean
  generalize (compile d sources cp root).disk = d' at hwrite ⊢
  obtain ⟨h₁, -, -⟩ := makeFolders_spec hd hmake
  obtain ⟨places, hstored⟩ := writeAll_spec h₁ hwrite
  refine ⟨batch, forall₂_of_checkAll hcheck, ?_, fun p hp => ?_⟩
  · rw [written_of_writeAll hwrite, List.map_map]
    rfl
  · obtain ⟨P, hP, hplace⟩ := exists_of_forall₂_left hstored.place _
      (List.mem_map_of_mem (f := Link.linked (.of d cp batch)) hp)
    obtain ⟨a, ha, hsame, hread⟩ := hstored.read hplace hP
    obtain ⟨q, hq, rfl⟩ := List.mem_map.mp ha
    exact ⟨q, hq, hsame.trans hplace.symm, hread⟩

/-- What is read at the path of a source: the unit of the source, or of one that was stored at the
same place after it. The unit has the finite thresholds of that source. -/
def KeepsThresholds (d d' : Disk) (root : Path) (sources : List Source) (s : Source) (p : Path) :
    Prop :=
  (∃ x, Source.Declares d s x ∧ p = Naming.artifactPath root (x.identifier s.path.stem)) ∧
  ∃ t ∈ sources, ∃ x a, Source.Declares d t x ∧
    d'.place? (Naming.artifactPath root (x.identifier t.path.stem)) = d'.place? p ∧
    Artifact.read d' p = .ok a ∧ a.identifier = x.identifier t.path.stem ∧
    List.Forall₂ KeepsFinite x.rules a.methods

/-- The unit that is read back for an accepted source sets just those thresholds of each rule that
the source sets to a finite number, and just then the context of the rule is numeric. -/
theorem compile_keeps_finite (hd : d.Regular) (hok : (compile d sources cp root).outcome = .ok o)
    (hclean : o.diagnostics = []) :
    List.Forall₂ (KeepsThresholds d (compile d sources cp root).disk root sources) sources
      o.written := by
  obtain ⟨batch, hchecked, hwritten, hreads⟩ := compile_reads hd hok hclean
  have hall := hchecked
  rw [List.forall₂_iff_zip] at hall
  rw [hwritten, List.forall₂_map_right_iff, List.forall₂_iff_zip]
  refine ⟨hall.1, fun {s p} hmem => ?_⟩
  obtain ⟨-, x, -, -, hdeclares, hmeans, -⟩ := exists_of_ofPath (.of d cp batch) (hall.2 hmem)
  obtain ⟨q, hq, hsame, hread⟩ := hreads p (List.of_mem_zip hmem).2
  obtain ⟨t, ht, htq⟩ := exists_of_forall₂_right hchecked q hq
  obtain ⟨-, y, -, -, hdeclares', hmeans', -⟩ := exists_of_ofPath (.of d cp batch) htq
  refine ⟨⟨x, hdeclares, by rw [← hmeans.identifier]; rfl⟩, t, ht, y, _, hdeclares', ?_, hread,
    hmeans'.identifier, ?_⟩
  · rw [← hmeans'.identifier]
    exact hsame
  · show List.Forall₂ KeepsFinite y.rules (List.map _ _)
    rw [List.forall₂_map_right_iff]
    exact hmeans'.rules.imp fun r m hrm => hrm.keepsFinite

/-! ### Endless thresholds -/

/-- An item with a rule for numbers below infinity, and a rule for those that are above one, too. -/
def endlessText : String :=
  "package=\"p\"\n[item]\nname=\"L\"\ntype=\"T\"\n" ++
    "[[rule]]\nname=\"any\"\nitem=\"L\"\ntrigger=\"changed\"\nlt=inf\n" ++
    "[[rule]]\nname=\"some\"\nitem=\"L\"\ntrigger=\"changed\"\nlt=inf\ngt=1.0\n"

def endlessDisk : Disk where
  entries := [(["src"], .folder), (["src", "A.rule"], .file (Text.encode endlessText) false)]

def endlessResult : Result :=
  compile endlessDisk (Source.scanTree endlessDisk ⟨"src"⟩) [] ⟨"out"⟩

theorem regular_endlessDisk : endlessDisk.Regular :=
  ⟨.of_entries (show (endlessDisk.entries.map Prod.fst).Nodup by decide)
    (show ∀ x ∈ endlessDisk.entries, x.1 ≠ [] ∧
      Disk.entry? endlessDisk x.1.dropLast = some .folder ∧
      ∀ name ∈ x.1.getLast?, Path.IsName name by decide), fun _ _ _ => rfl⟩

theorem exists_endlessResult :
    ∃ o, endlessResult.outcome = .ok o ∧ o.diagnostics = [] ∧ o.written = [⟨"out/p/A.unit"⟩] := by
  have hout : endlessResult.outcome.toOption = some ⟨1, [], [⟨"out/p/A.unit"⟩]⟩ := by
    decide +kernel
  cases ho : endlessResult.outcome with
  | error err =>
    rw [ho] at hout
    cases hout
  | ok o =>
    rw [ho] at hout
    cases hout
    exact ⟨_, rfl, rfl, rfl⟩

theorem compile_keeps_finite_endless : ∃ o, endlessResult.outcome = .ok o ∧
    o.diagnostics = [] ∧
    List.Forall₂ (KeepsThresholds endlessDisk endlessResult.disk ⟨"out"⟩
      (Source.scanTree endlessDisk ⟨"src"⟩)) (Source.scanTree endlessDisk ⟨"src"⟩) o.written := by
  obtain ⟨o, ho, hclean, -⟩ := exists_endlessResult
  exact ⟨o, ho, hclean, compile_keeps_finite regular_endlessDisk ho hclean⟩

/-- What is said of a threshold of a rule, and whether a context with the thresholds hits an event
whose state is no number. -/
def guards (b : Bounds) : Bool × Bool :=
  (b.lt.isSome, Context.boundsMatch b ⟨"L", .changed, "open", none⟩)

/-- A rule with an endless threshold is accepted, and the method that is read back does not have it.
Where it is the only one, the rule ought to miss every event whose state is no number, and hits. -/
theorem compile_forgets_endless : ∃ o, endlessResult.outcome = .ok o ∧ o.diagnostics = [] ∧
    o.written = [⟨"out/p/A.unit"⟩] ∧
    (Declaration.ofText endlessText.toList).toOption.map (fun x =>
      x.rules.map fun r => guards r.bounds) = some [(true, false), (true, false)] ∧
    ∃ a, Artifact.read endlessResult.disk ⟨"out/p/A.unit"⟩ = .ok a ∧
      a.methods.map (fun m => guards m.bounds) = [(false, true), (false, false)] := by
  obtain ⟨o, ho, hclean, hwritten⟩ := exists_endlessResult
  refine ⟨o, ho, hclean, hwritten, by decide +kernel, ?_⟩
  have hchecks : ∀ s ∈ Source.scanTree endlessDisk ⟨"src"⟩,
      (Check.ofPath endlessDisk s.path).toOption.map (fun q =>
        q.unit.methods.map fun m => guards m.bounds.reread) =
          some [(false, true), (false, false)] := by
    decide +kernel
  obtain ⟨batch, hchecked, hpaths, hreads⟩ := compile_reads regular_endlessDisk ho hclean
  have hpath : (⟨"out/p/A.unit"⟩ : Path) ∈
      batch.map fun p => Naming.artifactPath ⟨"out"⟩ p.unit.identifier := by
    rw [← hpaths, hwritten]
    exact List.mem_singleton_self _
  obtain ⟨p, hp, hpeq⟩ := List.mem_map.mp hpath
  obtain ⟨q, hq, -, hread⟩ := hreads p hp
  obtain ⟨s, hs, hsq⟩ := exists_of_forall₂_right hchecked q hq
  have hguards := hchecks s hs
  rw [hsq] at hguards
  refine ⟨_, hpeq ▸ hread, ?_⟩
  show List.map _ (List.map _ (List.map _ _)) = _
  rw [List.map_map, List.map_map]
  exact Option.some.inj hguards

end Builtin

end LiveRules
