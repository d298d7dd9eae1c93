import LiveRules.Proofs.Item.Room
import LiveRules.Proofs.Json.Stored
import LiveRules.Proofs.Text.Cutting
import Mathlib.Data.List.Infix

/-!
What the digest of a pack tells. The hash runs over the identifiers and source hashes, one behind
the other with nothing in between, so packs with the same source hashes under the same identifiers
share a digest, and so do packs whose texts only happen to run together to the same row. Where the
source hashes have one length, as those of compiled units have, rows can be cut in one way if the
identifiers are known, if no entry begins or none ends like another one, or if all identifiers lie
in one namespace; then the digest tells apart all that differs.
-/

namespace LiveRules

namespace ContentHash

/-! ### Hexadecimal digits -/

theorem digitChar_injective {m n : Nat} (hm : m < 16) (hn : n < 16)
    (h : Nat.digitChar m = Nat.digitChar n) : m = n := by
  have hall : ∀ i : Fin 16, ∀ j : Fin 16, Nat.digitChar i = Nat.digitChar j → i = j := by decide
  exact Fin.mk.inj (hall ⟨m, hm⟩ ⟨n, hn⟩ h)

theorem hexByte_injective {a b : UInt8} (h : hexByte a = hexByte b) : a = b := by
  have ha := a.toNat_lt
  have hb := b.toNat_lt
  obtain ⟨hhigh, hlow⟩ := List.cons.inj h
  have hquotient := digitChar_injective (by omega) (by omega) hhigh
  have hrest := digitChar_injective (Nat.mod_lt _ (by decide)) (Nat.mod_lt _ (by decide))
    (List.cons.inj hlow).1
  apply UInt8.toNat.inj
  omega

theorem eq_of_flatMap_hexByte {bs cs : List UInt8}
    (h : bs.flatMap hexByte = cs.flatMap hexByte) : bs = cs := by
  induction bs generalizing cs with
  | nil =>
    cases cs with
    | nil => rfl
    | cons c cs => cases h
  | cons b bs ih =>
    cases cs with
    | nil => cases h
    | cons c cs =>
      rw [List.flatMap_cons, List.flatMap_cons] at h
      obtain ⟨hfirst, hrest⟩ := List.append_inj h rfl
      rw [hexByte_injective hfirst, ih hrest]

/-- The digits tell the hash. -/
theorem hex_injective {x y : ContentHash} (h : x.hex = y.hex) : x = y := by
  obtain ⟨bytes⟩ := x
  obtain ⟨bytes'⟩ := y
  have hdigits : bytes.flatMap hexByte = bytes'.flatMap hexByte := String.ofList_injective h
  rw [eq_of_flatMap_hexByte hdigits]

theorem length_flatMap_hexByte (bs : List UInt8) :
    (bs.flatMap hexByte).length = 2 * bs.length := by
  induction bs with
  | nil => rfl
  | cons b bs ih =>
    have hbyte : (hexByte b).length = 2 := rfl
    rw [List.flatMap_cons, List.length_append, ih, List.length_cons, hbyte]
    omega

/-- The hash of a content has sixty-four digits. -/
theorem length_hex_of (content : Text.Bytes) : (of content).hex.toList.length = 64 := by
  rw [hex, String.toList_ofList, length_flatMap_hexByte, of, Digest.length_blake3]

theorem point_not_mem_hex (h : ContentHash) : '.' ∉ h.hex.toList := by
  have hdigit : ∀ i : Fin 16, '.' ≠ Nat.digitChar i := by decide
  rw [hex, String.toList_ofList, List.mem_flatMap]
  rintro ⟨b, -, hb⟩
  have hsmall := b.toNat_lt
  rcases List.mem_cons.mp hb with hhigh | hlow
  · exact hdigit ⟨b.toNat / 16, by omega⟩ hhigh
  · exact hdigit ⟨b.toNat % 16, by omega⟩ (List.mem_singleton.mp hlow)

end ContentHash

namespace Pack

/-! ### Rows -/

/-- An identifier and a source hash. -/
abbrev Stamp := String × String

/-- What a pair contributes to a row. -/
def Stamp.word (x : Stamp) : List Char := x.1.toList ++ x.2.toList

/-- Identifiers and source hashes one behind the other. -/
def row (xs : List Stamp) : List Char := xs.flatMap Stamp.word

/-- The source hashes of a pack under their identifiers. -/
def stamps (p : Pack) : List Stamp := p.units.map fun x => (x.1, x.2.sourceHash)

/-- Two packs have the same source hash under each identifier, or both none. -/
def SameHashes (p q : Pack) : Prop :=
  ∀ identifier, (p.get? identifier).map Artifact.sourceHash =
    (q.get? identifier).map Artifact.sourceHash

/-- The source hashes have one length, which is not zero. -/
def HashesOf (n : Nat) (xs : List Stamp) : Prop := 0 < n ∧ ∀ x ∈ xs, x.2.toList.length = n

/-- Rows over two lists of pairs can be cut in one way. -/
inductive Separable (xs ys : List Stamp) : Prop
  /-- The identifiers are the same, and so is their order. -/
  | identifiers (h : xs.map Prod.fst = ys.map Prod.fst)
  /-- No pair begins like a pair of the other list. -/
  | front (h : ∀ x ∈ xs, ∀ y ∈ ys, x.word <+: y.word ∨ y.word <+: x.word → x.word = y.word)
  /-- No pair ends like a pair of the other list. -/
  | back (h : ∀ x ∈ xs, ∀ y ∈ ys, x.word <:+ y.word ∨ y.word <:+ x.word → x.word = y.word)

variable {xs ys : List Stamp} {x y : Stamp} {n : Nat} {p q : Pack} {us vs : List Artifact}

theorem row_cons : row (x :: xs) = x.word ++ row xs := List.flatMap_cons

theorem HashesOf.of_subset (h : HashesOf n ys) (hsub : xs ⊆ ys) : HashesOf n xs :=
  ⟨h.1, fun x hx => h.2 x (hsub hx)⟩

theorem HashesOf.word_ne_nil (h : HashesOf n xs) (hx : x ∈ xs) : x.word ≠ [] := by
  have hlength := h.2 x hx
  have hpos := h.1
  intro hnil
  rw [(List.append_eq_nil_iff.mp hnil).2] at hlength
  exact absurd hlength (Nat.ne_of_lt hpos)

/-- With hashes of one length a word tells the pair. -/
theorem eq_of_word_eq (hlength : x.2.toList.length = y.2.toList.length) (h : x.word = y.word) :
    x = y := by
  obtain ⟨hfirst, hsecond⟩ := List.append_inj' h hlength
  exact Prod.ext (String.toList_injective hfirst) (String.toList_injective hsecond)

theorem HashesOf.eq_nil (h : HashesOf n xs) (hrow : row xs = []) : xs = [] := by
  cases xs with
  | nil => rfl
  | cons x xs =>
    exact absurd (List.append_eq_nil_iff.mp hrow).1 (h.word_ne_nil List.mem_cons_self)

/-- Two rows that agree have the same first pair if the first words have one length. -/
theorem cons_eq_of_row (hx : HashesOf n (x :: xs)) (hy : HashesOf n (y :: ys))
    (hwords : x.word.length = y.word.length) (h : row (x :: xs) = row (y :: ys))
    (hrest : row xs = row ys → xs = ys) : x :: xs = y :: ys := by
  have hlength := (hx.2 x List.mem_cons_self).trans (hy.2 y List.mem_cons_self).symm
  obtain ⟨hword, hrow⟩ := List.append_inj h hwords
  rw [eq_of_word_eq hlength hword, hrest hrow]

/-- Known identifiers leave only the hashes to be read. -/
theorem eq_of_row_of_identifiers (hx : HashesOf n xs) (hy : HashesOf n ys)
    (hids : xs.map Prod.fst = ys.map Prod.fst) (h : row xs = row ys) : xs = ys := by
  induction xs generalizing ys with
  | nil => exact (List.map_eq_nil_iff.mp hids.symm).symm
  | cons x xs ih =>
    cases ys with
    | nil => cases hids
    | cons y ys =>
      obtain ⟨hid, hids⟩ := List.cons.inj hids
      have hlength := (hx.2 x List.mem_cons_self).trans (hy.2 y List.mem_cons_self).symm
      have hwords : x.word.length = y.word.length := by
        rw [Stamp.word, Stamp.word, List.length_append, List.length_append, hlength, hid]
      apply cons_eq_of_row hx hy hwords h
      exact ih (hx.of_subset (List.subset_cons_self x xs))
        (hy.of_subset (List.subset_cons_self y ys)) hids

/-- Of two rows that agree one begins with the first word of the other. -/
theorem eq_of_row_of_front (hx : HashesOf n xs) (hy : HashesOf n ys)
    (hfront : ∀ x ∈ xs, ∀ y ∈ ys, x.word <+: y.word ∨ y.word <+: x.word → x.word = y.word)
    (h : row xs = row ys) : xs = ys := by
  induction xs generalizing ys with
  | nil => exact (hy.eq_nil h.symm).symm
  | cons x xs ih =>
    cases ys with
    | nil => exact hx.eq_nil h
    | cons y ys =>
      have hword : x.word = y.word := hfront x List.mem_cons_self y List.mem_cons_self
        (List.prefix_or_prefix_of_prefix (List.prefix_append x.word (row xs))
          ⟨row ys, h.symm⟩)
      apply cons_eq_of_row hx hy (congrArg List.length hword) h
      exact ih (hx.of_subset (List.subset_cons_self x xs))
        (hy.of_subset (List.subset_cons_self y ys))
        fun z hz w hw => hfront z (List.mem_cons_of_mem x hz) w (List.mem_cons_of_mem y hw)

/-- The same from the other end. -/
theorem eq_of_row_of_back (hx : HashesOf n xs) (hy : HashesOf n ys)
    (hback : ∀ x ∈ xs, ∀ y ∈ ys, x.word <:+ y.word ∨ y.word <:+ x.word → x.word = y.word)
    (h : row xs = row ys) : xs = ys := by
  induction xs using List.reverseRecOn generalizing ys with
  | nil => exact (hy.eq_nil h.symm).symm
  | append_singleton xs x ih =>
    rcases List.eq_nil_or_concat' ys with rfl | ⟨ys, y, rfl⟩
    · exact hx.eq_nil h
    · have hx' : x ∈ xs ++ [x] := List.mem_append_right xs (List.mem_singleton_self x)
      have hy' : y ∈ ys ++ [y] := List.mem_append_right ys (List.mem_singleton_self y)
      have hrows : row xs ++ x.word = row ys ++ y.word := by
        simpa only [row, List.flatMap_append, List.flatMap_cons, List.flatMap_nil,
          List.append_nil] using h
      have hword : x.word = y.word := hback x hx' y hy'
        (List.suffix_or_suffix_of_suffix (List.suffix_append (row xs) x.word)
          ⟨row ys, hrows.symm⟩)
      have hrest : row xs = row ys :=
        (List.append_inj' hrows (congrArg List.length hword)).1
      rw [eq_of_word_eq ((hx.2 x hx').trans (hy.2 y hy').symm) hword,
        ih (hx.of_subset (List.subset_append_left xs [x]))
          (hy.of_subset (List.subset_append_left ys [y]))
          (fun z hz w hw => hback z (List.mem_append_left [x] hz) w (List.mem_append_left [y] hw))
          hrest]

theorem Separable.eq_of_row (hsep : Separable xs ys) (hx : HashesOf n xs) (hy : HashesOf n ys)
    (h : row xs = row ys) : xs = ys := by
  cases hsep with
  | identifiers hids => exact eq_of_row_of_identifiers hx hy hids h
  | front hfront => exact eq_of_row_of_front hx hy hfront h
  | back hback => exact eq_of_row_of_back hx hy hback h

/-- The pair belongs to a unit of a namespace. -/
def Stamp.IsOf (base : String) (x : Stamp) : Prop :=
  ∃ name : String, x.1 = base ++ "." ++ name ∧ '.' ∉ name.toList ∧ '.' ∉ x.2.toList

/-- Behind the last point of such a word stand the name and the hash, so a word that ends another
one has nothing in front of its namespace. -/
theorem Stamp.IsOf.eq_of_suffix {base : String} (hx : x.IsOf base) (hy : y.IsOf base)
    (h : x.word <:+ y.word) : x.word = y.word := by
  have hcut : ∀ {z : Stamp}, z.IsOf base →
      ∃ after, z.word = base.toList ++ '.' :: after ∧ '.' ∉ after := by
    rintro z ⟨name, hz, hname, hhash⟩
    refine ⟨name.toList ++ z.2.toList, ?_, ?_⟩
    · rw [Stamp.word, hz, String.toList_append, String.toList_append, List.append_assoc,
        List.append_assoc]
      rfl
    · rw [List.mem_append, not_or]
      exact ⟨hname, hhash⟩
  obtain ⟨after, hxw, hafter⟩ := hcut hx
  obtain ⟨after', hyw, hafter'⟩ := hcut hy
  obtain ⟨front, hfront⟩ := h
  rw [hxw, hyw, ← List.append_assoc] at hfront
  have hlast : Text.splitLast? '.' (front ++ base.toList ++ '.' :: after) =
      some (front ++ base.toList, after) := Text.splitLast?_append hafter
  rw [hfront, Text.splitLast?_append hafter', Option.some.injEq, Prod.mk.injEq] at hlast
  rw [hxw, hyw, hlast.2]

/-- Units of one namespace, as those of the items, can be told apart. -/
theorem separable_of_namespace {base : String} (hx : ∀ x ∈ xs, x.IsOf base)
    (hy : ∀ y ∈ ys, y.IsOf base) : Separable xs ys := by
  refine .back fun x hmem y hmem' h => ?_
  rcases h with h | h
  · exact (hx x hmem).eq_of_suffix (hy y hmem') h
  · exact ((hy y hmem').eq_of_suffix (hx x hmem) h).symm

/-! ### Packs -/

theorem toList_foldl_stamp (units : List (String × Artifact)) (start : String) :
    (units.foldl (fun s x => s ++ x.1 ++ x.2.sourceHash) start).toList =
      start.toList ++ row (units.map fun x => (x.1, x.2.sourceHash)) := by
  induction units generalizing start with
  | nil => exact (List.append_nil _).symm
  | cons x units ih =>
    rw [List.foldl_cons, ih, String.toList_append, String.toList_append, List.map_cons, row_cons,
      Stamp.word, List.append_assoc, List.append_assoc, List.append_assoc]

theorem toList_digestInput (units : List (String × Artifact)) :
    (digestInput units).toList = row (units.map fun x => (x.1, x.2.sourceHash)) :=
  toList_foldl_stamp units ""

theorem digestInput_eq_iff :
    digestInput p.units = digestInput q.units ↔ row p.stamps = row q.stamps := by
  rw [← String.toList_inj, toList_digestInput, toList_digestInput]
  rfl

theorem digest_ofUnits (us : List Artifact) :
    (ofUnits us).digest = (ContentHash.ofText (digestInput (ofUnits us).units)).hex := rfl

/-- The hash of an identifier stands in the list if the pack has it. -/
theorem mem_stamps (hp : Increasing p.units) {identifier hash : String} :
    (identifier, hash) ∈ p.stamps ↔ (p.get? identifier).map Artifact.sourceHash = some hash := by
  rw [stamps, List.mem_map, Option.map_eq_some_iff]
  constructor
  · rintro ⟨x, hx, heq⟩
    obtain ⟨rfl, rfl⟩ := Prod.mk.inj heq
    exact ⟨x.2, hp.find?_eq.mpr hx, rfl⟩
  · rintro ⟨a, ha, rfl⟩
    exact ⟨(identifier, a), hp.find?_eq.mp ha, rfl⟩

theorem sameHashes_iff (hp : Increasing p.units) (hq : Increasing q.units) :
    SameHashes p q ↔ p.stamps = q.stamps := by
  constructor
  · intro h
    refine (hp.map Artifact.sourceHash).eq_of_mem_iff (hq.map Artifact.sourceHash) ?_
    rintro ⟨identifier, hash⟩
    exact (mem_stamps hp).trans ((h identifier).congr_left.trans (mem_stamps hq).symm)
  · intro h identifier
    refine Option.ext fun hash => ?_
    rw [← mem_stamps hp, ← mem_stamps hq, h]

/-- The hash does not take two texts for one. -/
def NoClash (s t : String) : Prop := ContentHash.ofText s = ContentHash.ofText t → s = t

theorem digest_eq_iff_row
    (hfree : NoClash (digestInput (ofUnits us).units) (digestInput (ofUnits vs).units)) :
    (ofUnits us).digest = (ofUnits vs).digest ↔
      row (ofUnits us).stamps = row (ofUnits vs).stamps := by
  rw [← digestInput_eq_iff, digest_ofUnits, digest_ofUnits]
  exact ⟨fun h => hfree (ContentHash.hex_injective h), fun h => by rw [h]⟩

theorem digest_eq_iff_sameHashes
    (hfree : NoClash (digestInput (ofUnits us).units) (digestInput (ofUnits vs).units))
    (hus : HashesOf n (ofUnits us).stamps) (hvs : HashesOf n (ofUnits vs).stamps)
    (hsep : Separable (ofUnits us).stamps (ofUnits vs).stamps) :
    (ofUnits us).digest = (ofUnits vs).digest ↔ SameHashes (ofUnits us) (ofUnits vs) := by
  rw [digest_eq_iff_row hfree, sameHashes_iff (increasing_ofUnits us) (increasing_ofUnits vs)]
  exact ⟨hsep.eq_of_row hus hvs, congrArg row⟩

/-! ### Packs of items -/

theorem exists_of_mem_stamps (h : x ∈ (ofUnits us).stamps) :
    ∃ a ∈ us, x = (a.identifier, a.sourceHash) := by
  obtain ⟨y, hy, rfl⟩ := List.mem_map.mp h
  obtain ⟨a, ha, heq⟩ := List.mem_map.mp (mem_of_mem_keyed hy)
  obtain ⟨hidentifier, hunit⟩ := Prod.mk.inj heq
  exact ⟨a, ha, by rw [hidentifier, hunit]⟩

/-- The units of items lie in one namespace, and their hashes have one length. -/
theorem stamps_of_items (base : String) {items : List Item}
    (h : ∀ item ∈ items, Naming.isItemName item.name = true) :
    HashesOf 64 (ofUnits (items.map (Stub.unit base))).stamps ∧
      ∀ x ∈ (ofUnits (items.map (Stub.unit base))).stamps, x.IsOf base := by
  have hitem : ∀ x ∈ (ofUnits (items.map (Stub.unit base))).stamps,
      ∃ item ∈ items, x = (Stub.identifier base item.name, (Stub.unit base item).sourceHash) := by
    intro x hx
    obtain ⟨a, ha, rfl⟩ := exists_of_mem_stamps hx
    obtain ⟨item, hitem, rfl⟩ := List.mem_map.mp ha
    exact ⟨item, hitem, rfl⟩
  refine ⟨⟨by decide, fun x hx => ?_⟩, fun x hx => ?_⟩ <;> obtain ⟨item, hmem, rfl⟩ := hitem x hx
  · exact ContentHash.length_hex_of _
  · exact ⟨Stub.unitName item.name, rfl, Stub.not_mem_unitName (h item hmem) rfl,
      ContentHash.point_not_mem_hex _⟩

/-- The digest of a pack of items identifies its contents. -/
theorem digest_eq_iff_of_items {base : String} {items others : List Item}
    (h : ∀ item ∈ items, Naming.isItemName item.name = true)
    (h' : ∀ item ∈ others, Naming.isItemName item.name = true)
    (hfree : NoClash (digestInput (ofUnits (items.map (Stub.unit base))).units)
      (digestInput (ofUnits (others.map (Stub.unit base))).units)) :
    (ofUnits (items.map (Stub.unit base))).digest =
        (ofUnits (others.map (Stub.unit base))).digest ↔
      SameHashes (ofUnits (items.map (Stub.unit base)))
        (ofUnits (others.map (Stub.unit base))) := by
  obtain ⟨hlength, hof⟩ := stamps_of_items base h
  obtain ⟨hlength', hof'⟩ := stamps_of_items base h'
  exact digest_eq_iff_sameHashes hfree hlength hlength' (separable_of_namespace hof hof')

/-! ### What the digest tells -/

/-- If the hash does not take the texts of two packs for one, the packs share a digest exactly if
the rows of their identifiers and source hashes agree. The same hashes under the same identifiers
always give the same digest, whatever the order of the units, and nothing else does where the hashes
have one length and rows can be cut in one way. -/
theorem digest_tells_hashes (us vs : List Artifact)
    (hfree : NoClash (digestInput (ofUnits us).units) (digestInput (ofUnits vs).units)) :
    ((ofUnits us).digest = (ofUnits vs).digest ↔
      row (ofUnits us).stamps = row (ofUnits vs).stamps) ∧
    (SameHashes (ofUnits us) (ofUnits vs) → (ofUnits us).digest = (ofUnits vs).digest) ∧
    (us.Perm vs → (us.map (·.identifier)).Nodup → (ofUnits us).digest = (ofUnits vs).digest) ∧
    ∀ n, HashesOf n (ofUnits us).stamps → HashesOf n (ofUnits vs).stamps →
      Separable (ofUnits us).stamps (ofUnits vs).stamps →
      ((ofUnits us).digest = (ofUnits vs).digest ↔ SameHashes (ofUnits us) (ofUnits vs)) := by
  refine ⟨digest_eq_iff_row hfree, fun h => ?_, fun hperm hdistinct => ?_,
    fun n hus hvs hsep => digest_eq_iff_sameHashes hfree hus hvs hsep⟩
  · have hstamps := (sameHashes_iff (increasing_ofUnits us) (increasing_ofUnits vs)).mp h
    exact (digest_eq_iff_row hfree).mpr (congrArg row hstamps)
  · rw [ofUnits_eq_of_perm hperm hdistinct]

/-- Units without rules, with some source hashes. -/
def plainUnits (stamps : List Stamp) : List Artifact :=
  stamps.map fun x =>
    { identifier := x.1, kind := .rule, constructible := true, sourceHash := x.2 }

/-- A source that changes gives the pack of its unit another digest. -/
theorem digest_tells_hashes_changed :
    ((ofUnits (plainUnits [("p.A", "1"), ("p.B", "2")])).digest =
        (ofUnits (plainUnits [("p.B", "3"), ("p.A", "1")])).digest ↔
      SameHashes (ofUnits (plainUnits [("p.A", "1"), ("p.B", "2")]))
        (ofUnits (plainUnits [("p.B", "3"), ("p.A", "1")]))) ∧
    (ofUnits (plainUnits [("p.A", "1"), ("p.B", "2")])).digest ≠
      (ofUnits (plainUnits [("p.B", "3"), ("p.A", "1")])).digest := by
  have hiff := (digest_tells_hashes (plainUnits [("p.A", "1"), ("p.B", "2")])
    (plainUnits [("p.B", "3"), ("p.A", "1")]) (fun h => absurd h (by decide +kernel))).2.2.2 1
    ⟨by decide, by decide⟩ ⟨by decide, by decide⟩ (.identifiers (by decide))
  exact ⟨hiff, fun h => absurd (hiff.mp h "p.B") (by decide)⟩

/-- What the text of a unit without rules in the package `p` is hashed to. -/
def plainHash : String := (ContentHash.ofText "package = \"p\"\n").hex

/-- Two units run together to the row of one whose name holds the hash of the first. -/
theorem digest_runs_together :
    digestInput (ofUnits (plainUnits [("p.A", plainHash), ("p.B", plainHash)])).units =
      digestInput (ofUnits (plainUnits [("p.A" ++ plainHash ++ "p.B", plainHash)])).units ∧
    (ofUnits (plainUnits [("p.A", plainHash), ("p.B", plainHash)])).digest =
      (ofUnits (plainUnits [("p.A" ++ plainHash ++ "p.B", plainHash)])).digest ∧
    ¬SameHashes (ofUnits (plainUnits [("p.A", plainHash), ("p.B", plainHash)]))
      (ofUnits (plainUnits [("p.A" ++ plainHash ++ "p.B", plainHash)])) := by
  have hinput : digestInput (ofUnits (plainUnits [("p.A", plainHash), ("p.B", plainHash)])).units =
      digestInput (ofUnits (plainUnits [("p.A" ++ plainHash ++ "p.B", plainHash)])).units := by
    decide +kernel
  refine ⟨hinput, ?_, fun h => ?_⟩
  · rw [digest_ofUnits, digest_ofUnits, hinput]
  · exact absurd (h "p.A") (by decide +kernel)

end Pack

end LiveRules
