import LiveRules.Artifact.Store
import LiveRules.Proofs.Compile.Units
import LiveRules.Proofs.Json.Packs

/-!
Reading undoes writing. A unit is read from the path that writing gave for it, and a pack from the
path that it was saved at, on any disk on which this write succeeded; of several units with one
identifier a pack holds the last.
-/

namespace LiveRules

namespace Disk

variable {d d' : Disk} {p q : Path} {content : Text.Bytes}

/-- No file fails of itself to be read now. -/
def CanRead (d : Disk) : Prop := ∀ P, d.trouble? .read P = none

theorem CanRead.read {P : Place} {x : Bool} (h : d.CanRead) (hp : d.place? p = .ok P)
    (hfile : d.entry? P = some (.file content x)) : d.read p = .ok content := by
  simp only [Disk.read, hp, bind, Except.bind, h P, hfile]

/-- A write that succeeds sets the file, on whatever disk. -/
theorem sets_of_write (hw : d.write p content = (.ok (), d')) : ∃ P x, d.place? p = .ok P ∧
    d.entry? P ≠ some .folder ∧ Sets P (some (.file content x)) d d' := by
  rw [write] at hw
  split at hw
  · cases hw
  · rename_i P hp
    split at hw
    · rename_i htrouble
      simp only [change, htrouble, writeEntries] at hw
      cases hP : d.entry? P with
      | none =>
        simp only [hP, Prod.mk.injEq, true_and] at hw
        have hne : d.entry? P ≠ some .folder := by simp [hP]
        exact ⟨P, false, hp, hne, hw ▸ sets_put (ne_root hne)⟩
      | some entry =>
        cases entry with
        | folder =>
          simp only [hP, Prod.mk.injEq] at hw
          cases hw.1
        | file old executable =>
          simp only [hP, Prod.mk.injEq, true_and] at hw
          have hne : d.entry? P ≠ some .folder := by simp [hP]
          exact ⟨P, executable, hp, hne, hw ▸ sets_put (ne_root hne)⟩
    · split at hw <;> cases hw

theorem read_of_write (hw : d.write p content = (.ok (), d')) (h : d'.CanRead) :
    d'.read p = .ok content := by
  obtain ⟨P, x, hp, hP, hsets⟩ := sets_of_write hw
  exact h.read (hsets.place? hP hp) (by rw [hsets.entry?, if_pos rfl])

/-- A move that succeeds takes a file along, on whatever disk. -/
theorem moved_of_move (hm : d.move p q = (.ok (), d')) :
    ∃ S T, d.place? p = .ok S ∧ d.place? q = .ok T ∧ Moved S T d d' := by
  rw [move] at hm
  split at hm
  · cases hm
  · cases hm
  rename_i S T hp hq
  refine ⟨S, T, hp, hq, ?_⟩
  unfold change at hm
  split at hm
  · cases hm
  cases hS : d.entry? S with
  | none =>
    simp only [hS] at hm
    cases hm
  | some entry =>
    cases entry with
    | folder =>
      simp only [hS] at hm
      cases hm
    | file content x =>
      have hS' : d.entry? S ≠ some .folder := by simp [hS]
      have hT : d.entry? T ≠ some .folder := by
        intro hfolder
        simp only [hS, hfolder] at hm
        cases hm
      by_cases hsame : S = T
      · -- the file stays where it is
        subst hsame
        simp only [hS, if_true, Prod.mk.injEq, true_and] at hm
        subst hm
        refine ⟨rfl, rfl, ⟨content, x, hS⟩, hT, fun Q => ?_⟩
        by_cases hQ : Q = S
        · rw [if_pos hQ, hQ]
          rfl
        · rw [if_neg hQ, if_neg hQ]
          rfl
      · have hdrop := sets_drop (d := d) (ne_root hS')
        have hput := sets_put (d := { d.ticked with entries := drop S d.entries })
          (x := .file content x) (ne_root hT)
        have hd' : d' = { d.ticked with entries := put T (.file content x) (drop S d.entries) } := by
          revert hm
          cases hTe : d.entry? T with
          | none => simp [hS, hsame, eq_comm]
          | some target =>
            cases target with
            | folder => exact absurd hTe hT
            | file old y => simp [hS, hsame, eq_comm]
        subst hd'
        refine ⟨rfl, rfl, ⟨content, x, hS⟩, hT, fun Q => ?_⟩
        rw [hS, ← hdrop.entry? Q]
        exact hput.entry? Q

theorem read_of_move {P : Place} {x : Bool} (hm : d.move p q = (.ok (), d'))
    (hp : d.place? p = .ok P) (hfile : d.entry? P = some (.file content x)) (h : d'.CanRead) :
    d'.read q = .ok content := by
  obtain ⟨S, T, hS, hT, hmoved⟩ := moved_of_move hm
  obtain rfl : P = S := Except.ok.inj (hp.symm.trans hS)
  have hplace := place?_mono hmoved.current (fun Q hQ => (hmoved.sameFolders.folder Q).mpr hQ) hT
  exact h.read hplace (by rw [hmoved.entry?, if_pos rfl, hfile])

end Disk

open Disk

/-- Where a unit was written, what is stored for it is read. -/
theorem Artifact.read_of_write {a : Artifact} {d d' : Disk} {root path : Path}
    (hw : a.write d root = (.ok path, d')) (h : d'.CanRead) : read d' path = .ok a.reread := by
  unfold write at hw
  dsimp only at hw
  rcases hmake : d.makeFolders ((Naming.artifactPath root a.identifier).parent?.getD ⟨""⟩) with
    ⟨err | ⟨⟩, d₁⟩
  · rw [hmake] at hw
    cases (Prod.mk.inj hw).1
  · rw [hmake] at hw
    dsimp only at hw
    rcases hwrite : d₁.write (Naming.artifactPath root a.identifier) (Text.encode a.text) with
      ⟨err | ⟨⟩, d₂⟩
    · rw [hwrite] at hw
      cases (Prod.mk.inj hw).1
    · rw [hwrite, Prod.mk.injEq, Except.ok.injEq] at hw
      obtain ⟨rfl, rfl⟩ := hw
      exact read_of_encode (Disk.read_of_write hwrite h)

namespace Pack

theorem read_of_save {p : Pack} {d d' : Disk} {path : Path} (hkeys : Increasing p.units)
    (hs : p.save d path = (.ok (), d')) (h : d'.CanRead) : read d' path = .ok p.reread := by
  rw [save] at hs
  split at hs
  · cases hs
  · split at hs
    · cases hs
    · rename_i hwrite
      split at hs
      · cases hs
      · rename_i hmove
        cases hs
        obtain ⟨P, x, hp, hP, hsets⟩ := sets_of_write hwrite
        exact read_of_encode hkeys (read_of_move hmove (hsets.place? hP hp)
          (by rw [hsets.entry?, if_pos rfl]) h)

/-! ### The last unit wins -/

variable {α : Type}

theorem mem_keyed_iff {xs : List (String × α)} {k : String} {v : α} :
    (k, v) ∈ keyed xs ↔ (xs.filter fun x => x.1 == k).getLast? = some (k, v) := by
  induction xs using List.reverseRecOn with
  | nil => simp [keyed]
  | append_singleton xs x ih =>
    rw [keyed_append, mem_insert (increasing_keyed xs), ih, List.filter_append]
    by_cases hk : x.1 = k
    · subst hk
      simp [Prod.ext_iff, eq_comm]
    · rw [List.filter_cons_of_neg (by simpa using hk), List.filter_nil, List.append_nil]
      exact ⟨fun h => (h.resolve_left fun hx => hk hx.1.symm).2, fun h => .inr ⟨Ne.symm hk, h⟩⟩

/-- The unit under a key is found. -/
theorem Increasing.find?_eq {m : List (String × α)} (h : Increasing m) {k : String} {v : α} :
    (m.find? fun x => x.1 == k).map (·.2) = some v ↔ (k, v) ∈ m := by
  rw [Option.map_eq_some_iff]
  constructor
  · rintro ⟨⟨j, w⟩, hfind, rfl⟩
    have hj : (j == k) = true := List.find?_some (p := fun x : String × α => x.1 == k) hfind
    exact beq_iff_eq.mp hj ▸ List.mem_of_find?_eq_some hfind
  · intro hmem
    cases hfind : m.find? fun x => x.1 == k with
    | none => exact absurd (beq_self_eq_true k) (List.find?_eq_none.mp hfind (k, v) hmem)
    | some x =>
      have hkey := List.find?_some hfind
      have hsame := List.inj_on_of_nodup_map h.nodup_keys (List.mem_of_find?_eq_some hfind) hmem
        (beq_iff_eq.mp hkey)
      exact ⟨x, rfl, by rw [hsame]⟩

/-- The unit that a pack holds for an identifier is the last that has it. -/
theorem get?_ofUnits (units : List Artifact) (k : String) :
    (ofUnits units).get? k = (units.filter fun a => a.identifier == k).getLast? := by
  refine Option.ext fun a => ?_
  rw [get?, Increasing.find?_eq (increasing_ofUnits units)]
  show (k, a) ∈ keyed (units.map fun a => (a.identifier, a)) ↔ _
  rw [mem_keyed_iff, List.filter_map, List.getLast?_map, Option.map_eq_some_iff]
  constructor
  · rintro ⟨b, hb, heq⟩
    exact (Prod.mk.inj heq).2 ▸ hb
  · intro ha
    have hk : (a.identifier == k) = true := (List.mem_filter.mp (List.mem_of_getLast? ha)).2
    exact ⟨a, ha, by rw [beq_iff_eq.mp hk]⟩

/-- Saving leaves a disk on which no operation fails of itself. -/
theorem regular_save {p : Pack} {d d' : Disk} {path : Path} (h : d.Regular)
    (hs : p.save d path = (.ok (), d')) : d'.Regular := by
  rw [save] at hs
  split at hs
  · cases hs
  rename_i hmake
  split at hs
  · cases hs
  rename_i hwrite
  split at hs
  · cases hs
  rename_i hmove
  cases hs
  exact (move_spec (write_spec (makeFolders_spec h hmake).1 hwrite).1 hmove).1

end Pack

/-! ### Units and packs -/

/-- Reading undoes writing. A unit whose thresholds come back from their spelling is read from the
path it was written to as it is; so is the pack of such units from the path it was saved at, and
this pack holds the last unit of each identifier. -/
theorem read_undoes_write :
    (∀ (a : Artifact) (d d' : Disk) (root path : Path), a.ComesBack →
      a.write d root = (.ok path, d') → d'.CanRead → Artifact.read d' path = .ok a) ∧
    ∀ (units : List Artifact) (d d' : Disk) (path : Path), (∀ a ∈ units, a.ComesBack) →
      (Pack.ofUnits units).save d path = (.ok (), d') → d'.CanRead →
      Pack.read d' path = .ok (Pack.ofUnits units) ∧
        ∀ k, (Pack.ofUnits units).get? k =
          (units.filter fun a => a.identifier == k).getLast? := by
  refine ⟨fun a d d' root path ha hw hread => ?_, fun units d d' path ha hs hread => ⟨?_, ?_⟩⟩
  · rw [Artifact.read_of_write hw hread, Artifact.reread_of_comesBack ha]
  · rw [Pack.read_of_save (Pack.increasing_ofUnits units) hs hread, Pack.reread_of_comesBack]
    exact fun x hx => ha x.2 (Pack.mem_of_mem_ofUnits hx)
  · exact Pack.get?_ofUnits units

/-- A unit with every kind of field and with characters that are escaped. -/
def sampleUnit : Artifact where
  identifier := "p.Tab\tand\"quotes\"\x01𝄞"
  kind := .rule
  isAbstract := true
  constructible := true
  extends? := some "back\\slash"
  methods := [
    { name := "on", item := "Lamp\n", trigger := .receivedCommand, takesEvent := true
      fromState := some "\x7f", toState := none, itemClass := some "", update := some "\x08"
      bounds := { lt := some 21.5, gte := some (-2.5e-7) }
      actions := [.command "Lamp" "\\\"", .update "Lamp" "\x0c", .log "\x1f\r"] },
    { name := "off", item := "", trigger := .changed, bounds := { lte := some 1e20 } }]
  item := some { name := "n", type := "t", label := some "\\u0041" }
  sourceHash := "h"

/-- The unit with an older form in front of it. -/
def sampleUnits : List Artifact := [{ sampleUnit with sourceHash := "" }, sampleUnit]

theorem read_undoes_write_sampleUnit :
    (∃ path d', sampleUnit.write { entries := [] } ⟨"out"⟩ = (.ok path, d') ∧
      Artifact.read d' path = .ok sampleUnit) ∧
    ∃ d', (Pack.ofUnits sampleUnits).save { entries := [] } ⟨"lib/x.pack"⟩ = (.ok (), d') ∧
      Pack.read d' ⟨"lib/x.pack"⟩ = .ok (Pack.ofUnits sampleUnits) ∧
      (Pack.ofUnits sampleUnits).get? sampleUnit.identifier = some sampleUnit := by
  have hcomes : sampleUnit.ComesBack := by
    have hnumbers : Json.Comes 21.5 ∧ Json.Comes (-2.5e-7) ∧ Json.Comes 1e20 := by
      unfold Json.Comes
      decide +kernel
    intro m hm
    simp only [sampleUnit, List.mem_cons, List.not_mem_nil, or_false] at hm
    obtain rfl | rfl := hm
    · refine ⟨?_, ?_, ?_, ?_⟩ <;> rintro _ ⟨⟩
      · exact hnumbers.1
      · exact hnumbers.2.1
    · refine ⟨?_, ?_, ?_, ?_⟩ <;> rintro _ ⟨⟩
      exact hnumbers.2.2
  have hempty : Regular { entries := [] } :=
    ⟨.of_entries List.nodup_nil (by rintro _ ⟨⟩), fun _ _ _ => rfl⟩
  have hread {d : Disk} (hd : d.Regular) : d.CanRead := fun P => hd.sound _ _ P
  constructor
  · have hok : (sampleUnit.write { entries := [] } ⟨"out"⟩).1.toOption.isSome = true := by
      decide +kernel
    rcases hw : sampleUnit.write { entries := [] } ⟨"out"⟩ with ⟨err | path, d'⟩
    · rw [hw] at hok
      cases hok
    · obtain ⟨-, P, hstored⟩ := Artifact.write_spec hempty hw
      exact ⟨path, d', rfl,
        read_undoes_write.1 _ _ _ _ _ hcomes hw (hread hstored.regular)⟩
  · have hok : ((Pack.ofUnits sampleUnits).save { entries := [] }
        ⟨"lib/x.pack"⟩).1.toOption.isSome = true := by
      decide +kernel
    rcases hs : (Pack.ofUnits sampleUnits).save { entries := [] } ⟨"lib/x.pack"⟩ with
      ⟨err | ⟨⟩, d'⟩
    · rw [hs] at hok
      cases hok
    · have hall : ∀ a ∈ sampleUnits, a.ComesBack := by
        simp only [sampleUnits, List.mem_cons, List.not_mem_nil, or_false, forall_eq_or_imp,
          forall_eq]
        exact ⟨hcomes, hcomes⟩
      obtain ⟨hpack, hlast⟩ :=
        read_undoes_write.2 _ _ _ _ hall hs (hread (Pack.regular_save hempty hs))
      refine ⟨d', rfl, hpack, ?_⟩
      rw [hlast]
      simp [sampleUnits]

end LiveRules
