import LiveRules.Artifact.Store
import LiveRules.Proofs.Files.Troubles

/-!
What operations leave of any disk, tree or not, whatever fails. Making folders only adds folders,
a write sets at most the place that its path leads to, and storing a unit does the one after the
other. A path leads to one and the same place on all disks where it leads to a place at all.
-/

namespace LiveRules

namespace Disk

variable {d e : Disk} {p : Path} {P Q F : Place} {content : Text.Bytes}
variable {r : Except OsError Unit} {xs : List (List Char)}

/-! ### Places -/

theorem makeFolders_grown (h : d.makeFolders p = (r, e)) : Grown d e :=
  makeChain_induct (motive := Grown d) (fun _ _ _ _ _ hx hstep => hx.trans (makeFolder_grown hstep))
    .refl h

theorem writeEntries_eq_ok {entries : List (Place × Entry)}
    (h : d.writeEntries P content = .ok entries) : d.entry? P ≠ some .folder ∧
      entries = put P (.file content (d.isExecutable P)) d.entries := by
  rw [writeEntries] at h
  rw [isExecutable]
  cases hentry : d.entry? P with
  | none =>
    rw [hentry] at h
    cases h
    exact ⟨by simp, rfl⟩
  | some x =>
    rw [hentry] at h
    cases x <;> cases h
    exact ⟨by simp, rfl⟩

/-- Whatever fails, a write sets one place that is no folder, to all of the content if it works, or
nothing changes. -/
theorem write_sets (h : d.write p content = (r, e)) : (r ≠ .ok () ∧ Same d e) ∨
    ∃ P part, d.place? p = .ok P ∧ d.entry? P ≠ some .folder ∧
      Sets P (some (.file part (d.isExecutable P))) d e ∧ (r = .ok () → part = content) := by
  rw [write] at h
  cases hP : d.place? p with
  | error err =>
    rw [hP] at h
    cases h
    exact .inl ⟨by simp, same_ticked⟩
  | ok P =>
    rw [hP] at h
    dsimp only at h
    have hsets {part : Text.Bytes} {entries : List (Place × Entry)}
        (hentries : d.writeEntries P part = .ok entries) : d.entry? P ≠ some .folder ∧
          Sets P (some (.file part (d.isExecutable P))) d { d.ticked with entries } := by
      obtain ⟨hfree, rfl⟩ := writeEntries_eq_ok hentries
      exact ⟨hfree, sets_put (ne_root hfree)⟩
    cases htrouble : d.trouble? .write P with
    | none =>
      rw [htrouble] at h
      dsimp only at h
      unfold change at h
      rw [htrouble] at h
      dsimp only at h
      cases hentries : d.writeEntries P content with
      | error err =>
        rw [hentries] at h
        cases h
        exact .inl ⟨by simp, same_ticked⟩
      | ok entries =>
        rw [hentries] at h
        cases h
        obtain ⟨hfree, hset⟩ := hsets hentries
        exact .inr ⟨P, content, rfl, hfree, hset, fun _ => rfl⟩
    | some t =>
      rw [htrouble] at h
      dsimp only at h
      split at h
      · rename_i hentries
        cases h
        obtain ⟨hfree, hset⟩ := hsets hentries
        exact .inr ⟨P, _, rfl, hfree, hset, by simp⟩
      · cases h
        exact .inl ⟨by simp, same_ticked⟩

end Disk

open Disk

variable {d d' : Disk} {root : Path} {a : Artifact} {r : Except ArtifactError Path}

/-- To store a unit, the folders above its file are made, and if that works the file is written. -/
theorem Artifact.write_cases (h : a.write d root = (r, d')) : ∃ made d₁,
    d.makeFolders ((Naming.artifactPath root a.identifier).parent?.getD ⟨""⟩) = (made, d₁) ∧
      ((made ≠ .ok () ∧ (∃ e, r = .error e) ∧ d' = d₁) ∨
        (made = .ok () ∧ ∃ written,
          d₁.write (Naming.artifactPath root a.identifier) (Text.encode a.text) = (written, d') ∧
            ((written = .ok () ∧ r = .ok (Naming.artifactPath root a.identifier)) ∨
              (written ≠ .ok () ∧ ∃ e, r = .error e)))) := by
  unfold Artifact.write at h
  dsimp only at h
  rcases hmake : d.makeFolders ((Naming.artifactPath root a.identifier).parent?.getD ⟨""⟩) with
    ⟨err | ⟨⟩, d₁⟩ <;> rw [hmake] at h
  · cases h
    exact ⟨_, _, rfl, .inl ⟨by simp, ⟨_, rfl⟩, rfl⟩⟩
  · dsimp only at h
    refine ⟨_, _, rfl, .inr ⟨rfl, ?_⟩⟩
    rcases hwrite : d₁.write (Naming.artifactPath root a.identifier) (Text.encode a.text) with
      ⟨err | ⟨⟩, d₂⟩ <;> rw [hwrite] at h <;> cases h
    · exact ⟨_, rfl, .inr ⟨by simp, _, rfl⟩⟩
    · exact ⟨_, rfl, .inl ⟨rfl, rfl⟩⟩

/-- Storing a unit makes folders and then sets at most the place of the unit, to all of the unit if
it works. -/
theorem Artifact.write_sets (h : a.write d root = (r, d')) : ∃ made, Grown d made ∧
    (((∃ e, r = .error e) ∧ Same made d') ∨
      ∃ P part, made.place? (Naming.artifactPath root a.identifier) = .ok P ∧
        made.entry? P ≠ some .folder ∧
        Sets P (some (.file part (made.isExecutable P))) made d' ∧
        ∀ path, r = .ok path →
          path = Naming.artifactPath root a.identifier ∧ part = Text.encode a.text) := by
  obtain ⟨_, made, hmake, ⟨-, herror, rfl⟩ | ⟨-, written, hwrite, hr⟩⟩ := write_cases h
  · exact ⟨d', makeFolders_grown hmake, .inl ⟨herror, .refl⟩⟩
  · refine ⟨made, makeFolders_grown hmake, ?_⟩
    rcases Disk.write_sets hwrite with ⟨hno, hsame⟩ | ⟨P, part, hP, hfree, hsets, hwhole⟩
    · exact .inl ⟨(hr.resolve_left fun hok => hno hok.1).2, hsame⟩
    · refine .inr ⟨P, part, hP, hfree, hsets, fun path hpath => ?_⟩
      rcases hr with ⟨hok, rfl⟩ | ⟨-, e, rfl⟩
      · exact ⟨(Except.ok.inj hpath).symm, hwhole hok⟩
      · cases hpath

end LiveRules
