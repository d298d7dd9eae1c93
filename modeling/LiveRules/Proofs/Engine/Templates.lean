import LiveRules.Engine.Context
import Mathlib.Data.List.Basic

/-!
What a template becomes. One scan from left to right cuts a template at its placeholders; filled
verbatim, it has the event's value in place of each. A method fills in one kind of placeholder after
the other, so what an earlier value brings along, or completes, is taken for a placeholder later on.
Where no value holds an opening brace and none stands behind the beginning of a later placeholder,
the two agree; for all events they agree only on templates without the first two placeholders.
-/

namespace LiveRules

inductive Placeholder where
  | item
  | state
  | previous
  deriving DecidableEq

namespace Placeholder

def brace : Char := '\x7b'

/-- What follows the opening brace. -/
def rest : Placeholder → List Char
  | item => ['i', 't', 'e', 'm', '\x7d']
  | state => ['s', 't', 'a', 't', 'e', '\x7d']
  | previous => ['p', 'r', 'e', 'v', 'i', 'o', 'u', 's', '\x7d']

def word (p : Placeholder) : List Char := brace :: p.rest

def value (e : Event) : Placeholder → List Char
  | item => e.item.toList
  | state => e.state.toList
  | previous => (e.previous.getD "").toList

/-- Which placeholders are filled in first. -/
def rank : Placeholder → Nat
  | item => 0
  | state => 1
  | previous => 2

theorem word_eq (p : Placeholder) : p.word = brace :: p.rest := rfl

theorem brace_not_mem_rest (p : Placeholder) : brace ∉ p.rest := by
  cases p <;> decide

/-- No placeholder is the beginning of another. -/
theorem eq_of_prefix {p q : Placeholder} {xs : List Char} (hp : p.word <+: xs)
    (hq : q.word <+: xs) : p = q := by
  rcases List.prefix_or_prefix_of_prefix hp hq with h | h
  · revert h
    cases p <;> cases q <;> decide
  · revert h
    cases p <;> cases q <;> decide

/-- The beginning of a placeholder, but not all of it, stands at the end of a text. -/
def Begun (p : Placeholder) (xs : List Char) : Prop :=
  ∃ n < p.word.length, 0 < n ∧ p.word.take n <:+ xs

instance (p : Placeholder) (xs : List Char) : Decidable (p.Begun xs) :=
  inferInstanceAs (Decidable (∃ n < p.word.length, 0 < n ∧ p.word.take n <:+ xs))

end Placeholder

inductive Piece where
  | char (c : Char)
  | hole (p : Placeholder)
  deriving DecidableEq

namespace Template

open Placeholder (brace)

variable {p q : Placeholder} {ps : List Piece} {xs ys v : List Char} {f : Placeholder → List Piece}

def starting? (cs : List Char) : Option Placeholder :=
  [.item, .state, .previous].find? fun p : Placeholder => p.word.isPrefixOf cs

/-- One scan over a template; `skip` characters of the last placeholder are still to be left out. -/
def piecesFrom : Nat → List Char → List Piece
  | _, [] => []
  | skip + 1, _ :: cs => piecesFrom skip cs
  | 0, c :: cs =>
    match starting? (c :: cs) with
    | some p => .hole p :: piecesFrom p.rest.length cs
    | none => .char c :: piecesFrom 0 cs

def pieces (template : String) : List Piece := piecesFrom 0 template.toList

/-- A template filled verbatim: what is put in is not looked at again. -/
def filled (e : Event) (template : String) : String :=
  .ofList <| (pieces template).flatMap fun
    | .char c => [c]
    | .hole p => p.value e

/-! ### Pieces -/

def spelled (ps : List Piece) : List Char :=
  ps.flatMap fun
    | .char c => [c]
    | .hole p => p.word

def plain (xs : List Char) : List Piece := xs.map .char

/-- Puts pieces in place of the placeholders. -/
def put (f : Placeholder → List Piece) (ps : List Piece) : List Piece :=
  ps.flatMap fun
    | .char c => [.char c]
    | .hole p => f p

@[simp] theorem spelled_nil : spelled [] = [] := rfl

@[simp] theorem spelled_char (c : Char) (ps : List Piece) :
    spelled (.char c :: ps) = c :: spelled ps := rfl

@[simp] theorem spelled_hole (p : Placeholder) (ps : List Piece) :
    spelled (.hole p :: ps) = p.word ++ spelled ps := rfl

@[simp] theorem spelled_append (ps qs : List Piece) :
    spelled (ps ++ qs) = spelled ps ++ spelled qs := List.flatMap_append

@[simp] theorem spelled_plain (xs : List Char) : spelled (plain xs) = xs := by
  induction xs with
  | nil => rfl
  | cons c xs ih =>
    rw [plain, List.map_cons, spelled_char]
    exact congrArg _ ih

@[simp] theorem put_nil : put f [] = [] := rfl

@[simp] theorem put_char (c : Char) (ps : List Piece) :
    put f (.char c :: ps) = .char c :: put f ps := rfl

@[simp] theorem put_hole (p : Placeholder) (ps : List Piece) :
    put f (.hole p :: ps) = f p ++ put f ps := rfl

@[simp] theorem put_append (ps qs : List Piece) : put f (ps ++ qs) = put f ps ++ put f qs :=
  List.flatMap_append

@[simp] theorem put_plain (xs : List Char) : put f (plain xs) = plain xs := by
  induction xs with
  | nil => rfl
  | cons c xs ih =>
    rw [plain, List.map_cons, put_char]
    exact congrArg _ ih

theorem put_put (g : Placeholder → List Piece) (ps : List Piece) :
    put g (put f ps) = put (fun p => put g (f p)) ps := by
  induction ps with
  | nil => rfl
  | cons piece ps ih => cases piece <;> simp [ih]

theorem filled_eq (e : Event) (template : String) :
    filled e template = .ofList (spelled (put (fun p => plain (p.value e)) (pieces template))) := by
  unfold filled
  induction pieces template with
  | nil => rfl
  | cons piece ps ih =>
    rw [String.ofList_inj] at ih ⊢
    cases piece <;> simp [ih]

/-! ### The scan -/

/-- No placeholder of a kind starts at a character of its own. -/
def Clear (q : Placeholder) : List Piece → Prop
  | [] => True
  | .char c :: ps => ¬ q.word <+: c :: spelled ps ∧ Clear q ps
  | .hole _ :: ps => Clear q ps

theorem starting?_eq_some (h : starting? xs = some p) : p.word <+: xs := by
  have hp := List.find?_some h
  exact List.isPrefixOf_iff_prefix.mp hp

theorem starting?_eq_none (h : starting? xs = none) (q : Placeholder) : ¬ q.word <+: xs := by
  rw [starting?, List.find?_eq_none] at h
  intro hq
  refine h q ?_ (List.isPrefixOf_iff_prefix.mpr hq)
  cases q <;> simp

theorem spelled_piecesFrom (skip : Nat) (xs : List Char) :
    spelled (piecesFrom skip xs) = xs.drop skip := by
  induction xs generalizing skip with
  | nil => simp [piecesFrom]
  | cons c cs ih =>
    cases skip with
    | succ skip => exact ih skip
    | zero =>
      rw [piecesFrom, List.drop_zero]
      cases hs : starting? (c :: cs) with
      | none => simp [ih]
      | some p =>
        obtain ⟨more, hmore⟩ := starting?_eq_some hs
        have hcs : cs = p.rest ++ more := (List.cons.inj hmore).2.symm
        rw [← hmore]
        simp only [spelled_hole, ih]
        rw [hcs, List.drop_left]

theorem clear_piecesFrom (q : Placeholder) (skip : Nat) (xs : List Char) :
    Clear q (piecesFrom skip xs) := by
  induction xs generalizing skip with
  | nil => trivial
  | cons c cs ih =>
    cases skip with
    | succ skip => exact ih skip
    | zero =>
      rw [piecesFrom]
      cases hs : starting? (c :: cs) with
      | none =>
        refine ⟨?_, ih 0⟩
        rw [spelled_piecesFrom, List.drop_zero]
        exact starting?_eq_none hs q
      | some p => exact ih p.rest.length

theorem spelled_pieces (template : String) : spelled (pieces template) = template.toList :=
  spelled_piecesFrom 0 template.toList

theorem clear_pieces (q : Placeholder) (template : String) : Clear q (pieces template) :=
  clear_piecesFrom q 0 template.toList

/-! ### Replacing -/

/-- Fills in one kind of placeholder. -/
def only (q : Placeholder) (vs : List Piece) (p : Placeholder) : List Piece :=
  if p = q then vs else [.hole p]

theorem replaceFrom_append (xs ys : List Char) (word : List Char) :
    Text.replaceFrom word v xs.length (xs ++ ys) = Text.replaceFrom word v 0 ys := by
  induction xs with
  | nil => rfl
  | cons x xs ih => exact ih

theorem replaceFrom_of_not_prefix {c : Char} {cs : List Char} (h : ¬ q.word <+: c :: cs) :
    Text.replaceFrom q.word v 0 (c :: cs) = c :: Text.replaceFrom q.word v 0 cs := by
  rw [Text.replaceFrom, if_neg (by rwa [List.isPrefixOf_iff_prefix])]

theorem not_prefix_of_ne {c : Char} {cs : List Char} (h : c ≠ brace) : ¬ q.word <+: c :: cs := by
  intro hprefix
  exact h (List.cons_prefix_cons.mp hprefix).1.symm

theorem replaceFrom_of_not_mem (h : brace ∉ xs) :
    Text.replaceFrom q.word v 0 (xs ++ ys) = xs ++ Text.replaceFrom q.word v 0 ys := by
  induction xs with
  | nil => rfl
  | cons x xs ih =>
    rw [List.mem_cons, not_or] at h
    rw [List.cons_append, replaceFrom_of_not_prefix (not_prefix_of_ne (Ne.symm h.1)), ih h.2,
      List.cons_append]

theorem replaceFrom_spelled (vs : List Piece) (h : Clear q ps) :
    Text.replaceFrom q.word (spelled vs) 0 (spelled ps) = spelled (put (only q vs) ps) := by
  induction ps with
  | nil => rfl
  | cons piece ps ih =>
    cases piece with
    | char c =>
      obtain ⟨hhere, hrest⟩ := h
      rw [spelled_char, replaceFrom_of_not_prefix hhere, ih hrest, put_char, spelled_char]
    | hole p =>
      rw [spelled_hole, put_hole, spelled_append]
      by_cases hpq : p = q
      · subst hpq
        have hhere : p.word.isPrefixOf (p.word ++ spelled ps) = true :=
          List.isPrefixOf_iff_prefix.mpr (List.prefix_append _ _)
        rw [p.word_eq, List.cons_append] at hhere ⊢
        rw [Text.replaceFrom, if_pos hhere, List.length_cons, Nat.add_sub_cancel,
          replaceFrom_append]
        exact congrArg₂ _ (by simp [only]) (ih h)
      · have hother : ¬ q.word <+: brace :: (p.rest ++ spelled ps) := fun hq =>
          hpq (Placeholder.eq_of_prefix (List.prefix_append p.word (spelled ps)) hq)
        have hstay : Text.replaceFrom q.word (spelled vs) 0 (p.word ++ spelled ps) =
            p.word ++ spelled (put (only q vs) ps) := by
          rw [← ih h, p.word_eq, List.cons_append, replaceFrom_of_not_prefix hother,
            replaceFrom_of_not_mem p.brace_not_mem_rest, List.cons_append]
        rw [hstay, only, if_neg hpq]
        simp

/-! ### What is put in -/

/-- What stands for a placeholder neither starts a placeholder of kind `q` nor completes one whose
beginning stands before it: it is a placeholder again, or a text without opening brace. -/
def Fits (q : Placeholder) (f : Placeholder → List Piece) (ps : List Piece) : Prop :=
  ∀ front p back, ps = front ++ .hole p :: back →
    (∃ r, f p = [.hole r]) ∨
      (∃ v, f p = plain v ∧ brace ∉ v) ∧ ¬ q.Begun (spelled front)

theorem Fits.tail {piece : Piece} (h : Fits q f (piece :: ps)) : Fits q f ps := by
  intro front p back hps
  refine (h (piece :: front) p back (by rw [hps, List.cons_append])).imp_right ?_
  rintro ⟨hv, hbegun⟩
  refine ⟨hv, fun hfront => hbegun ?_⟩
  obtain ⟨n, hn, hpos, hsuffix⟩ := hfront
  refine ⟨n, hn, hpos, hsuffix.trans ?_⟩
  have : spelled (piece :: front) = spelled [piece] ++ spelled front := spelled_append [piece] front
  rw [this]
  exact List.suffix_append _ _

theorem clear_plain_append (hv : brace ∉ v) (h : Clear q ps) : Clear q (plain v ++ ps) := by
  induction v with
  | nil => exact h
  | cons c v ih =>
    rw [List.mem_cons, not_or] at hv
    exact ⟨not_prefix_of_ne (Ne.symm hv.1), ih hv.2⟩

/-- A text without opening brace that begins what comes of a template either begins the template, or
the part of it before some placeholder stands there. -/
theorem prefix_put (hx : brace ∉ xs) (h : xs <+: spelled (put f ps)) :
    xs <+: spelled ps ∨ ∃ front p back, ps = front ++ .hole p :: back ∧ (∀ r, f p ≠ [.hole r]) ∧
      spelled front <+: xs ∧ spelled front ≠ xs := by
  induction ps generalizing xs with
  | nil => exact .inl h
  | cons piece ps ih =>
    cases xs with
    | nil => exact .inl List.nil_prefix
    | cons x xs =>
      rw [List.mem_cons, not_or] at hx
      cases piece with
      | char c =>
        rw [put_char, spelled_char, List.cons_prefix_cons] at h
        obtain ⟨rfl, h⟩ := h
        rcases ih hx.2 h with h | ⟨front, p, back, rfl, hp, hfront, hne⟩
        · exact .inl (List.cons_prefix_cons.mpr ⟨rfl, h⟩)
        · refine .inr ⟨.char x :: front, p, back, rfl, hp, ?_, ?_⟩
          · exact List.cons_prefix_cons.mpr ⟨rfl, hfront⟩
          · simpa using hne
      | hole p =>
        by_cases hp : ∃ r, f p = [.hole r]
        · -- a placeholder starts with a brace
          obtain ⟨r, hr⟩ := hp
          rw [put_hole, hr, List.singleton_append, spelled_hole, r.word_eq, List.cons_append,
            List.cons_prefix_cons] at h
          exact absurd h.1.symm hx.1
        · refine .inr ⟨[], p, ps, rfl, fun r hr => hp ⟨r, hr⟩, ?_, ?_⟩
          · exact List.nil_prefix
          · simp

theorem clear_put (h : Clear q ps) (hf : Fits q f ps) : Clear q (put f ps) := by
  induction ps with
  | nil => trivial
  | cons piece ps ih =>
    cases piece with
    | char c =>
      refine ⟨fun hword => ?_, ih h.2 hf.tail⟩
      obtain ⟨rfl, hrest⟩ := List.cons_prefix_cons.mp (q.word_eq ▸ hword)
      rcases prefix_put q.brace_not_mem_rest hrest with
        hold | ⟨front, p, back, rfl, hp, hfront, hne⟩
      · exact h.1 (List.cons_prefix_cons.mpr ⟨rfl, hold⟩)
      · -- the brace and what stands between it and the placeholder begin the word
        rcases hf (.char brace :: front) p back rfl with ⟨r, hr⟩ | ⟨-, hbegun⟩
        · exact hp r hr
        · apply hbegun
          have hshort : (spelled front).length < q.rest.length := by
            refine Nat.lt_of_le_of_ne hfront.length_le fun hlen => hne ?_
            exact hfront.eq_of_length hlen
          refine ⟨(spelled front).length + 1, ?_, Nat.succ_pos _, ?_⟩
          · rw [q.word_eq, List.length_cons]
            omega
          · have htake : q.word.take ((spelled front).length + 1) =
                spelled (.char brace :: front) := by
              rw [q.word_eq, List.take_succ_cons, ← List.prefix_iff_eq_take.mp hfront, spelled_char]
            exact htake ▸ List.suffix_refl _
    | hole p =>
      rw [put_hole]
      rcases hf [] p ps rfl with ⟨r, hr⟩ | ⟨⟨v, hv, hbrace⟩, -⟩
      · rw [hr]
        exact ih h hf.tail
      · rw [hv]
        exact clear_plain_append hbrace (ih h hf.tail)

/-! ### Filling -/

/-- What stands for a placeholder once the first two kinds are filled in. -/
def afterState (vs : Placeholder → List Piece) (p : Placeholder) : List Piece :=
  put (only .state (vs .state)) (only .item (vs .item) p)

/-- What stands for a placeholder in the end. -/
def atEnd (vs : Placeholder → List Piece) (p : Placeholder) : List Piece :=
  put (only .previous (vs .previous)) (afterState vs p)

/-- What the three replacements in turn make of a template, when none of them meets a placeholder
that an earlier one has brought about. -/
theorem fill_eq_of_clear {e : Event} {template : String} {vs : Placeholder → List Piece}
    (hvs : ∀ p, spelled (vs p) = p.value e)
    (hstate : Clear .state (put (only .item (vs .item)) (pieces template)))
    (hprevious : Clear .previous (put (afterState vs) (pieces template))) :
    Context.fill e template = .ofList (spelled (put (atEnd vs) (pieces template))) := by
  have hitem := replaceFrom_spelled (vs .item) (clear_pieces .item template)
  have hnext := replaceFrom_spelled (vs .state) hstate
  have hlast := replaceFrom_spelled (vs .previous) hprevious
  rw [hvs] at hitem hnext hlast
  rw [put_put] at hnext hlast
  rw [spelled_pieces] at hitem
  rw [show atEnd vs = fun p => put (only .previous (vs .previous)) (afterState vs p) from rfl,
    ← hlast, show afterState vs = fun p => put (only .state (vs .state)) (only .item (vs .item) p)
      from rfl, ← hnext, ← hitem]
  simp only [Context.fill, Text.replaceAll, String.toList_ofList]
  rfl

/-- No value of an event that is filled in before others holds an opening brace, and none stands
behind the beginning of a placeholder that is filled in later. -/
def Undisturbed (e : Event) (ps : List Piece) : Prop :=
  ∀ front p back, ps = front ++ .hole p :: back →
    ∀ q : Placeholder, p.rank < q.rank → brace ∉ p.value e ∧ ¬ q.Begun (spelled front)

theorem suffix_of_suffix_append (hys : brace ∉ ys) (h : brace :: v <:+ ys ++ xs) :
    brace :: v <:+ xs := by
  induction ys with
  | nil => exact h
  | cons y ys ih =>
    rw [List.mem_cons, not_or] at hys
    rcases List.suffix_cons_iff.mp h with hwhole | hrest
    · exact absurd (List.cons.inj hwhole).1 hys.1
    · exact ih hys.2 hrest

/-- Where a template has no opening brace of its own, each of its braces starts a placeholder. -/
theorem exists_word_of_suffix (hps : .char brace ∉ ps) (h : brace :: v <:+ spelled ps) :
    ∃ p : Placeholder, p.word <+: brace :: v := by
  induction ps with
  | nil => exact absurd (List.suffix_nil.mp h) (List.cons_ne_nil _ _)
  | cons piece ps ih =>
    rw [List.mem_cons, not_or] at hps
    cases piece with
    | char c =>
      rcases List.suffix_cons_iff.mp h with hwhole | hrest
      · exact absurd (congrArg Piece.char (List.cons.inj hwhole).1) hps.1
      · exact ih hps.2 hrest
    | hole p =>
      rcases List.suffix_cons_iff.mp h with hwhole | hrest
      · exact ⟨p, spelled ps, hwhole.symm⟩
      · exact ih hps.2 (suffix_of_suffix_append p.brace_not_mem_rest hrest)

/-- Events and templates without opening braces, those of the placeholders apart, are safe. -/
theorem undisturbed_of_no_brace {e : Event} (hps : .char brace ∉ ps)
    (he : ∀ p, p ≠ .previous → .hole p ∈ ps → brace ∉ p.value e) : Undisturbed e ps := by
  rintro front p back rfl q hpq
  refine ⟨he p ?_ (by simp), ?_⟩
  · rintro rfl
    revert hpq
    cases q <;> decide
  · rintro ⟨n, hn, hpos, hsuffix⟩
    have hfront : .char brace ∉ front := fun hmem => hps (List.mem_append_left _ hmem)
    obtain ⟨m, rfl⟩ := Nat.exists_eq_succ_of_ne_zero (Nat.ne_of_gt hpos)
    rw [q.word_eq, List.take_succ_cons] at hsuffix
    obtain ⟨r, hr⟩ := exists_word_of_suffix hfront hsuffix
    have hq : r.word <+: q.word := by
      refine hr.trans ?_
      rw [q.word_eq, List.cons_prefix_cons]
      exact ⟨rfl, List.take_prefix m q.rest⟩
    have hsame : r = q := Placeholder.eq_of_prefix hq (List.prefix_refl _)
    subst hsame
    have hlong := hr.length_le
    rw [List.length_cons, List.length_take] at hlong
    rw [r.word_eq, List.length_cons] at hn hlong
    omega

theorem fill_eq_filled {e : Event} {template : String} (h : Undisturbed e (pieces template)) :
    Context.fill e template = filled e template := by
  let vs (p : Placeholder) : List Piece := plain (p.value e)
  have hvs (p : Placeholder) : spelled (vs p) = p.value e := spelled_plain _
  have hstate : Clear .state (put (only .item (vs .item)) (pieces template)) := by
    apply clear_put (clear_pieces .state template)
    intro front p back hps
    cases p with
    | item =>
      obtain ⟨hbrace, hbegun⟩ := h front .item back hps .state (by decide)
      exact .inr ⟨⟨_, rfl, hbrace⟩, hbegun⟩
    | state => exact .inl ⟨.state, rfl⟩
    | previous => exact .inl ⟨.previous, rfl⟩
  have hprevious : Clear .previous (put (afterState vs) (pieces template)) := by
    apply clear_put (clear_pieces .previous template)
    intro front p back hps
    cases p with
    | item =>
      obtain ⟨hbrace, hbegun⟩ := h front .item back hps .previous (by decide)
      exact .inr ⟨⟨_, put_plain _, hbrace⟩, hbegun⟩
    | state =>
      obtain ⟨hbrace, hbegun⟩ := h front .state back hps .previous (by decide)
      exact .inr ⟨⟨_, List.append_nil _, hbrace⟩, hbegun⟩
    | previous => exact .inl ⟨.previous, rfl⟩
  have hend : atEnd vs = vs := by
    funext p
    cases p <;> simp [atEnd, afterState, only, vs]
  rw [fill_eq_of_clear hvs hstate hprevious, filled_eq, hend]

/-- An event whose values are placeholders themselves: all but the last are taken for it. -/
def disguised : Event where
  item := "\x7bprevious\x7d"
  kind := .changed
  state := "\x7bprevious\x7d"

/-- Of a template filled from the disguised event nothing is left but its own characters. -/
theorem fill_disguised (template : String) :
    Context.fill disguised template = .ofList (spelled (put (fun _ => []) (pieces template))) := by
  let vs : Placeholder → List Piece
    | .item => [.hole .previous]
    | .state => [.hole .previous]
    | .previous => []
  have hvs (p : Placeholder) : spelled (vs p) = p.value disguised := by
    cases p <;> decide
  have hfits (q : Placeholder) {f : Placeholder → List Piece} (hf : ∀ p, ∃ r, f p = [.hole r]) :
      Clear q (put f (pieces template)) := by
    apply clear_put (clear_pieces q template)
    intro front p back _
    exact .inl (hf p)
  have hstate : Clear .state (put (only .item (vs .item)) (pieces template)) := by
    apply hfits
    intro p
    cases p <;> exact ⟨_, rfl⟩
  have hprevious : Clear .previous (put (afterState vs) (pieces template)) := by
    apply hfits
    intro p
    cases p <;> exact ⟨_, rfl⟩
  have hend : atEnd vs = fun _ => [] := by
    funext p
    cases p <;> rfl
  rw [fill_eq_of_clear hvs hstate hprevious, hend]

theorem length_spelled_put_le (f : Placeholder → List Piece) (ps : List Piece) :
    (spelled (put (fun _ => []) ps)).length ≤ (spelled (put f ps)).length := by
  induction ps with
  | nil => exact Nat.le_refl 0
  | cons piece ps ih =>
    cases piece with
    | char c => simpa using ih
    | hole p =>
      simp only [put_hole, spelled_append, List.length_append]
      exact Nat.add_le_add (Nat.zero_le _) ih

theorem length_spelled_put_lt (hp : .hole p ∈ ps) (hf : spelled (f p) ≠ []) :
    (spelled (put (fun _ => []) ps)).length < (spelled (put f ps)).length := by
  obtain ⟨front, back, rfl⟩ := List.append_of_mem hp
  have hfront := length_spelled_put_le f front
  have hback := length_spelled_put_le f back
  have hhere := List.length_pos_iff.mpr hf
  simp only [put_append, put_hole, spelled_append, List.length_append, spelled_nil, List.length_nil]
  omega

/-- Only the placeholder that is filled in last can stand in a template that every event fills
verbatim. -/
theorem fill_eq_filled_iff (template : String) :
    (∀ e, Context.fill e template = filled e template) ↔
      ∀ p, .hole p ∈ pieces template → p = .previous := by
  constructor
  · intro h p hp
    by_contra hother
    have hlonger : spelled (plain (p.value disguised)) ≠ [] := by
      cases p with
      | item => decide
      | state => decide
      | previous => exact absurd rfl hother
    have hlt := length_spelled_put_lt (f := fun p => plain (p.value disguised)) hp hlonger
    have hsame := h disguised
    rw [fill_disguised, filled_eq, String.ofList_inj] at hsame
    rw [hsame] at hlt
    exact Nat.lt_irrefl _ hlt
  · intro h e
    apply fill_eq_filled
    intro front p back hps q hq
    have hp : p = .previous := h p (by rw [hps]; simp)
    subst hp
    cases q <;> exact absurd hq (by decide)

end Template

/-! ### Methods -/

/-- The texts of an action. -/
def Action.templates : Action → List String
  | .command item value => [item, value]
  | .update item value => [item, value]
  | .log text => [text]

/-- What an action does when its texts are rendered in some way. -/
def Action.effect (render : String → String) : Action → Effect
  | .command item value => .command (render item) (render value)
  | .update item value => .update (render item) (render value)
  | .log text => .log (render text)

theorem Action.effect_eq_iff (a : Action) (f g : String → String) :
    a.effect f = a.effect g ↔ ∀ template ∈ a.templates, f template = g template := by
  cases a <;> simp [Action.effect, Action.templates]

namespace Context

open Template (filled pieces Undisturbed fill_eq_filled fill_eq_filled_iff)

variable {c : Context} {e : Event}

def templates (c : Context) : List String := c.method.actions.flatMap Action.templates

/-- What a method does for an event when its templates are filled verbatim. -/
def verbatim (c : Context) (e : Event) : List Effect :=
  c.method.actions.map (Action.effect (filled e))

theorem invoke_eq (h : c.method.takesEvent = true) :
    c.invoke e = c.method.actions.map (Action.effect (fill e)) := by
  rw [invoke]
  apply List.map_congr_left
  intro a _
  cases a <;> simp [perform, Action.effect, render, h]

theorem invoke_eq_verbatim_iff (h : c.method.takesEvent = true) :
    c.invoke e = c.verbatim e ↔ ∀ template ∈ c.templates, fill e template = filled e template := by
  rw [invoke_eq h, verbatim, List.map_inj_left, templates, List.forall_mem_flatMap]
  simp only [Action.effect_eq_iff]

/-- The values of an event are inserted as they are when nothing that is put in disturbs a later
placeholder; they are for every event only if the last placeholder is the only one there is. -/
theorem invoke_verbatim (h : c.method.takesEvent = true) :
    (∀ e, (∀ template ∈ c.templates, Undisturbed e (pieces template)) →
      c.invoke e = c.verbatim e) ∧
    ((∀ e, c.invoke e = c.verbatim e) ↔
      ∀ template ∈ c.templates, ∀ p, .hole p ∈ pieces template → p = .previous) := by
  refine ⟨fun e he => ?_, ?_⟩
  · rw [invoke_eq_verbatim_iff h]
    intro template ht
    exact fill_eq_filled (he template ht)
  · simp only [invoke_eq_verbatim_iff h, ← fill_eq_filled_iff]
    constructor
    · intro hall template ht e
      exact hall e template ht
    · intro hall e template ht
      exact hall template ht e

/-- A method that passes on what it is told. -/
def echo : Context where
  owner := "org.hotrules.rules.user.Echo"
  method :=
    { name := "on", item := "Lamp", trigger := .changed, takesEvent := true
      actions :=
        [.update "Mirror" "\x7bstate\x7d", .log "\x7bitem\x7d was \x7bprevious\x7d"] }

/-- The state has a closing brace, and the state before spells a placeholder. -/
def nearly : Event :=
  { item := "Lamp", kind := .changed, state := "ON\x7d", previous := some "\x7bstate\x7d" }

theorem invoke_verbatim_echo : echo.invoke nearly =
    [.update "Mirror" "ON\x7d", .log "Lamp was \x7bstate\x7d"] := by
  apply (invoke_verbatim (c := echo) rfl).1
  intro template ht
  have hcases : template = "Mirror" ∨ template = "\x7bstate\x7d" ∨
      template = "\x7bitem\x7d was \x7bprevious\x7d" := by
    simpa [templates, echo, Action.templates] using ht
  apply Template.undisturbed_of_no_brace
  · rcases hcases with rfl | rfl | rfl <;> decide
  · -- only the last value has an opening brace
    intro p hp _
    cases p with
    | item => decide
    | state => decide
    | previous => exact absurd rfl hp

/-- A state that spells a placeholder. -/
def smuggled : Event :=
  { item := "Lamp", kind := .changed, state := "\x7bprevious\x7d", previous := some "OFF" }

theorem invoke_expands : echo.method.takesEvent = true ∧
    echo.invoke smuggled = [.update "Mirror" "OFF", .log "Lamp was OFF"] ∧
    echo.verbatim smuggled = [.update "Mirror" "\x7bprevious\x7d", .log "Lamp was OFF"] := by
  decide

end Context

end LiveRules
