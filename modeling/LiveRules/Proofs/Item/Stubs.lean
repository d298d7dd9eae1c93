import LiveRules.Item.Stub
import LiveRules.Proofs.Compile.Language
import LiveRules.Proofs.Files.Identifiers
import LiveRules.Proofs.Toml.Lines

/-!
What stubs say. The stub of an item declares that item and nothing else, so its unit is known from
the item, and two items with one stub are the same.
-/

namespace LiveRules.Stub

open Toml Naming

variable {base name : String} {item other : Item} {c : Char}

/-- The unit that the stub of an item is compiled into. -/
def unit (base : String) (item : Item) : Artifact :=
  { identifier := identifier base item.name
    kind := .item
    constructible := false
    item := some item
    sourceHash := (ContentHash.ofText (text base item)).hex }

theorem isVisible_of_isLetterOrDigit (h : isLetterOrDigit c = true) : isVisible c = true := by
  by_contra hv
  have hsmall := small_of_not_isVisible (by simpa using hv)
  have hall : ∀ n < 256, isLetterOrDigit (.ofNat n) = true → isVisible (.ofNat n) = true := by
    decide +kernel
  have := hall c.toNat hsmall
  rw [Char.ofNat_toNat] at this
  exact hv (this h)

/-- The name of an item is one segment. -/
theorem isSegment_of_isItemName (h : isItemName name = true) : isSegment name.toList = true := by
  rw [isItemName, Bool.and_eq_true, Bool.not_eq_true'] at h
  obtain ⟨hpoint, hnamespace⟩ := h
  have hpoint' : '.' ∉ name.toList := by
    intro hc
    rw [List.contains_iff_mem.mpr hc] at hpoint
    cases hpoint
  rw [isNamespace, Text.split_of_not_mem hpoint'] at hnamespace
  simpa using hnamespace

theorem letters_of_isItemName (h : isItemName name = true) :
    ∀ c ∈ name.toList, isLetterOrDigit c = true := by
  intro c hc
  by_contra hno
  exact not_mem_of_isSegment (by simpa using hno) (isSegment_of_isItemName h) hc

/-- The line of a key and its value, behind which some text goes on. -/
theorem toList_line (key value : String) (rest : List Char) : (line key value).toList ++ rest =
    key.toList ++ ' ' :: '=' :: ' ' :: (value.toList ++ '\n' :: rest) := by
  simp [line, String.toList_append]

/-- The line of the label, if there is one. -/
def labelLine (item : Item) : List Char :=
  item.label.elim [] fun label => (line "label" (writeText label)).toList

theorem toList_text (base : String) (item : Item) : (text base item).toList =
    '#' :: (" generated from entity `" ++ item.name ++ "`, do not edit").toList ++ '\n' ::
      ((line "package" (writeText base)).toList ++
        ((line "name" (writeText (unitName item.name))).toList ++
          ((line "kind" (writeText "item")).toList ++
            ((line "constructor" "false").toList ++
              '\n' :: '[' :: ("item".toList ++ ']' :: '\n' ::
                ((line "name" (writeText item.name)).toList ++
                  ((line "type" (writeText item.type)).toList ++ labelLine item))))))) := by
  have hfirst : "# generated from entity `".toList = '#' :: " generated from entity `".toList := by
    decide
  have hlast : "`, do not edit\n".toList = "`, do not edit".toList ++ ['\n'] := by
    decide
  have hheader : "\n[item]\n".toList = '\n' :: '[' :: ("item".toList ++ [']', '\n']) := by
    decide
  obtain ⟨name, type, _ | label⟩ := item <;>
    (unfold text
     simp only [String.toList_append, String.toList_empty, hfirst, hlast, hheader, UnitKind.word,
      labelLine, Option.elim_none, Option.elim_some, List.append_assoc, List.cons_append,
      List.nil_append, List.append_nil])

theorem states_label (item : Item) : ∃ mark mark' mark'', States (labelLine item)
    (item.label.elim [] fun label => [.pair mark [⟨"label", mark'⟩] (.string mark'' label)]) := by
  rw [labelLine]
  cases item.label with
  | none => exact ⟨0, 0, 0, states_nil⟩
  | some label =>
    obtain ⟨mark'', hvalue⟩ := exists_yields_text label []
    obtain ⟨mark, mark', hstates⟩ := states_nil.pair (show IsWord "label".toList by decide) hvalue
    refine ⟨mark, mark', mark'', ?_⟩
    have hline := toList_line "label" (writeText label) []
    rw [List.append_nil] at hline
    rw [Option.elim_some, hline]
    exact hstates

/-- A line with a text states a pair. -/
theorem states_line {rest : List Char} {found : List Statement} (h : States rest found)
    (key value : String) (hkey : IsWord key.toList) : ∃ mark mark' mark'',
      States ((line key (writeText value)).toList ++ rest)
        (.pair mark [⟨key, mark'⟩] (.string mark'' value) :: found) := by
  obtain ⟨mark'', hvalue⟩ := exists_yields_text value rest
  obtain ⟨mark, mark', hstates⟩ := h.pair hkey hvalue
  rw [String.ofList_toList] at hstates
  exact ⟨mark, mark', mark'', toList_line key (writeText value) rest ▸ hstates⟩

/-- The pair of a key and a text. -/
abbrev textPair (mark : Mark) (key : String) (mark' mark'' : Mark) (value : String) : Statement :=
  .pair mark [⟨key, mark'⟩] (.string mark'' value)

/-- The statements of a stub, wherever they stand. -/
theorem exists_states_text (base : String) (h : isItemName item.name = true) :
    ∃ (m : Nat → Mark), States (text base item).toList ([
      textPair (m 0) "package" (m 1) (m 2) base,
      textPair (m 3) "name" (m 4) (m 5) (unitName item.name),
      textPair (m 6) "kind" (m 7) (m 8) "item",
      .pair (m 9) [⟨"constructor", m 10⟩] (.boolean (m 11) false),
      .header (m 12) [⟨"item", m 13⟩],
      textPair (m 14) "name" (m 15) (m 16) item.name,
      textPair (m 17) "type" (m 18) (m 19) item.type] ++
        item.label.elim [] fun label => [textPair (m 20) "label" (m 21) (m 22) label]) := by
  obtain ⟨m20, m21, m22, hlabel⟩ := states_label item
  obtain ⟨m17, m18, m19, htype⟩ := states_line hlabel "type" item.type (by decide)
  obtain ⟨m14, m15, m16, hname⟩ := states_line htype "name" item.name (by decide)
  obtain ⟨m12, m13, hheader⟩ := hname.header (show IsWord "item".toList by decide)
  obtain ⟨m11, hfalse⟩ := yields_false ('\n' :: '[' :: ("item".toList ++ ']' :: '\n' ::
    ((line "name" (writeText item.name)).toList ++
      ((line "type" (writeText item.type)).toList ++ labelLine item))))
  obtain ⟨m9, m10, hconstructor⟩ := hheader.blank.pair
    (show IsWord "constructor".toList by decide) hfalse
  have hconstructor' := (toList_line "constructor" "false" _).symm ▸ hconstructor
  obtain ⟨m6, m7, m8, hkind⟩ := states_line hconstructor' "kind" "item" (by decide)
  obtain ⟨m3, m4, m5, hunit⟩ := states_line hkind "name" (unitName item.name) (by decide)
  obtain ⟨m0, m1, m2, hpackage⟩ := states_line hunit "package" base (by decide)
  have hcomment : ∀ c ∈ (" generated from entity `" ++ item.name ++ "`, do not edit").toList,
      isVisible c = true := by
    have hfront : (" generated from entity `".toList.all isVisible) = true := by decide
    have hback : ("`, do not edit".toList.all isVisible) = true := by decide
    intro c hc
    rw [String.toList_append, String.toList_append, List.mem_append, List.mem_append] at hc
    rcases hc with (hc | hc) | hc
    · exact List.all_eq_true.mp hfront c hc
    · exact isVisible_of_isLetterOrDigit (letters_of_isItemName h c hc)
    · exact List.all_eq_true.mp hback c hc
  refine ⟨fun n => [m0, m1, m2, m3, m4, m5, m6, m7, m8, m9, m10, m11, m12, m13, m14, m15, m16, m17,
    m18, m19, m20, m21, m22].getD n 0, ?_⟩
  rw [toList_text]
  exact hpackage.comment hcomment

/-- The stub of an item declares the item in a unit that no rule can be made of. -/
theorem ofText_text (base : String) (h : isItemName item.name = true) :
    ∃ m m', Declaration.ofText (text base item).toList = .ok {
      package? := some ⟨base, m⟩
      name? := some ⟨unitName item.name, m'⟩
      kind := .item
      constructible := false
      item := some item } := by
  obtain ⟨m, hstates⟩ := exists_states_text base h
  have htext := toList_text base item
  rw [List.cons_append] at htext
  rw [htext] at hstates ⊢
  have hdocument := hstates.document ⟨[
    (⟨"package", m 1⟩, .string (m 2) base),
    (⟨"name", m 4⟩, .string (m 5) (unitName item.name)),
    (⟨"kind", m 7⟩, .string (m 8) "item"),
    (⟨"constructor", m 10⟩, .boolean (m 11) false),
    (⟨"item", m 13⟩, .table .header (some (m 12)) ([
      (⟨"name", m 15⟩, .string (m 16) item.name),
      (⟨"type", m 18⟩, .string (m 19) item.type)] ++
        item.label.elim [] fun label => [(⟨"label", m 21⟩, .string (m 22) label)]))],
    [⟨"item", m 13⟩]⟩ (by decide) (by cases item.label <;> rfl)
  refine ⟨m 2, m 5, ?_⟩
  rw [Declaration.ofText, hdocument]
  obtain ⟨name, type, _ | label⟩ := item <;> rfl

/-- Items with one stub are one item. -/
theorem text_injective (h : isItemName item.name = true)
    (h' : isItemName other.name = true) (heq : text base item = text base other) :
    item = other := by
  obtain ⟨m, m', hitem⟩ := ofText_text base h
  obtain ⟨n, n', hother⟩ := ofText_text base h'
  rw [heq, hother, Except.ok.injEq] at hitem
  exact (Option.some.inj (congrArg Declaration.item hitem)).symm

/-- The check of a stub gives the unit of its item. -/
theorem check_text (hbase : isNamespace base = true) (h : isItemName item.name = true) {path : Path}
    (hpath : path.stem = unitName item.name) :
    Check.ofText path (text base item) = .ok
      { path, unit := unit base item, baseLine := 0, itemLines := [] } := by
  obtain ⟨m, m', htext⟩ := ofText_text base h
  refine Check.ofText_eq_ok_iff.mpr ⟨_, htext, ?_, ?_⟩
  · exact ⟨fun n hn => (Option.some.inj hn) ▸ hpath.symm, ⟨_, rfl, hbase⟩, fun _ => rfl,
      List.nodup_nil, by simp⟩
  · rw [Check.checked, Check.unitOf, hpath]
    rfl

end LiveRules.Stub
