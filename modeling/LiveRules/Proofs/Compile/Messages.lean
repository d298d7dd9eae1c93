import LiveRules.Compile.Messages
import LiveRules.Proofs.Text.Colours
import LiveRules.Proofs.Text.Cutting
import Mathlib.Data.List.Forall2

/-!
A compiler's diagnostics are read back as they were told. The output is a sequence of lines. Some
tell of a line of a file, with or without a column, with or without `error:` before the message; the
others have no colon, or a first colon that no digit follows. However the output is coloured, what
is read is what was told, in that order, and nothing else.
-/

namespace LiveRules.Messages

open Text

variable {xs : List Char}

/-- A text that can stand on one line: it holds something, no blank stands at its ends, and there is
neither a line feed nor an escape in it. -/
structure IsPhrase (xs : List Char) : Prop extends IsTrimmed xs where
  nonempty : xs ≠ []
  feed : '\n' ∉ xs
  escape : Text.escape ∉ xs

/-- A decimal number, leading zeros allowed. -/
structure IsNumber (xs : List Char) : Prop where
  nonempty : xs ≠ []
  digits : ∀ c ∈ xs, Decimal.isDigit c = true

/-- What a compiler tells about one line of a file, with the numbers as it spells them. -/
structure Told where
  file : String
  line : List Char
  column : Option (List Char)
  marked : Bool
  message : String
  file_phrase : IsPhrase file.toList
  file_colon : ':' ∉ file.toList
  line_number : IsNumber line
  line_fits : Decimal.valueOf line < UInt64.size
  column_number : ∀ digits ∈ column, IsNumber digits
  message_phrase : IsPhrase message.toList
  message_word : ¬ errorWord <+: message.toList

namespace Told

/-- The message with the word in front of it that some compilers put there. -/
def said (t : Told) : List Char :=
  (if t.marked then errorWord ++ [' '] else []) ++ t.message.toList

/-- What stands after the line number and its colon. -/
def tail (t : Told) : List Char :=
  match t.column with
  | none => ' ' :: t.said
  | some digits => digits ++ ':' :: ' ' :: t.said

def text (t : Told) : List Char := t.file.toList ++ ':' :: (t.line ++ ':' :: t.tail)

def diagnostic (t : Told) : Diagnostic := ⟨⟨t.file⟩, Decimal.valueOf t.line, t.message⟩

end Told

/-- A line of the output that is no diagnostic. -/
structure Remark where
  text : List Char
  feed : '\n' ∉ text
  escape : Text.escape ∉ text
  plain : ∀ before after, text = before ++ ':' :: after → ':' ∉ before →
    ∀ c ∈ after.head?, isDecimalDigit c = false

inductive Line
  | told (t : Told)
  | remark (r : Remark)

namespace Line

def text : Line → List Char
  | told t => t.text
  | remark r => r.text

def diagnostic? : Line → Option Diagnostic
  | told t => some t.diagnostic
  | remark _ => none

end Line

/-! ### Numbers -/

theorem isDecimalDigit_of_isDigit {c : Char} (h : Decimal.isDigit c = true) :
    isDecimalDigit c = true := by
  simp only [Decimal.isDigit, Bool.and_eq_true, decide_eq_true_eq, Char.le_def,
    UInt32.le_iff_toNat_le] at h
  refine List.any_eq_true.mpr ⟨0x30, by simp [zeros], ?_⟩
  simp only [Bool.and_eq_true, decide_eq_true_eq]
  exact h

theorem takeNumber?_of_isNumber (h : IsNumber xs) (rest : List Char) :
    takeNumber? (xs ++ ':' :: rest) = some (xs, rest) := by
  have hdigits (c : Char) (hc : c ∈ xs) : isDecimalDigit c = true :=
    isDecimalDigit_of_isDigit (h.digits c hc)
  have hcolon : isDecimalDigit ':' = false := by decide
  obtain ⟨d, ds, rfl⟩ := List.exists_cons_of_ne_nil h.nonempty
  rw [takeNumber?, List.takeWhile_append_of_pos hdigits, List.dropWhile_append_of_pos hdigits]
  simp [hcolon]

theorem takeNumber?_of_head (h : ∀ c ∈ xs.head?, isDecimalDigit c = false) :
    takeNumber? xs = none := by
  cases xs with
  | nil => rfl
  | cons c xs => simp [takeNumber?, h c rfl]

theorem lineNumber_of_isNumber (h : IsNumber xs) (hfits : Decimal.valueOf xs < UInt64.size) :
    lineNumber xs = Decimal.valueOf xs :=
  if_pos ⟨List.all_eq_true.mpr h.digits, hfits⟩

/-! ### Lines -/

theorem dropWhile_colon {name : List Char} (hname : ':' ∉ name) (rest : List Char) :
    (name ++ ':' :: rest).dropWhile (· ≠ ':') = ':' :: rest := by
  have hall (c : Char) (hc : c ∈ name) : decide (c ≠ ':') = true := by
    rw [decide_eq_true_eq]
    rintro rfl
    exact hname hc
  rw [List.dropWhile_append_of_pos hall]
  simp

theorem takeWhile_colon {name : List Char} (hname : ':' ∉ name) (rest : List Char) :
    (name ++ ':' :: rest).takeWhile (· ≠ ':') = name := by
  have hcut := List.takeWhile_append_dropWhile (p := (· ≠ ':')) (l := name ++ ':' :: rest)
  rw [dropWhile_colon hname] at hcut
  exact List.append_cancel_right hcut

/-- What is read from a line is decided by what stands around its first colon. -/
theorem ofLine?_of_cut {line name rest : List Char}
    (h : trimChars (stripFrom 0 line) = name ++ ':' :: rest) (hname : ':' ∉ name)
    (hne : name ≠ []) : ofLine? line = (takeNumber? rest).bind fun (digits, rest) =>
      (afterLine? rest).map fun message =>
        ⟨⟨.ofList (trimChars name)⟩, lineNumber digits, .ofList (trimChars message)⟩ := by
  have hbefore := takeWhile_colon hname rest
  obtain ⟨f, file, rfl⟩ := List.exists_cons_of_ne_nil hne
  simp only [ofLine?, h, hbefore, dropWhile_colon hname]
  cases takeNumber? rest <;> rfl

theorem ofLine?_eq_none {line : List Char} (h : ∀ name rest,
    trimChars (stripFrom 0 line) = name ++ ':' :: rest → ':' ∉ name → takeNumber? rest = none) :
    ofLine? line = none := by
  by_cases hcolon : ':' ∈ trimChars (stripFrom 0 line)
  · obtain ⟨name, rest, hcut, hname⟩ := List.eq_append_cons_of_mem hcolon
    by_cases hne : name = []
    · rw [hne, List.nil_append] at hcut
      simp [ofLine?, hcut]
    · rw [ofLine?_of_cut hcut hname hne, h name rest hcut hname, Option.bind_none]
  · have hend : (trimChars (stripFrom 0 line)).dropWhile (· ≠ ':') = [] := by
      rw [List.dropWhile_eq_nil_iff]
      intro c hc
      rw [decide_eq_true_eq]
      rintro rfl
      exact hcolon hc
    simp only [ofLine?, hend]
    cases (trimChars (stripFrom 0 line)).takeWhile (· ≠ ':') <;> rfl

namespace Told

variable (t : Told)

/-! ### The message -/

/-- The blank and the word before a message are taken off, and nothing of the message. -/
theorem message?_said : message? (' ' :: t.said) = some t.message.toList := by
  have hmessage : trimLeft t.message.toList = t.message.toList :=
    trimLeft_eq_self t.message_phrase.head
  have hblank : isBlank ' ' = true := by decide
  have hsome : t.message.toList.isEmpty = false := by
    simpa using t.message_phrase.nonempty
  have hskip (cs : List Char) : trimLeft (' ' :: cs) = trimLeft cs := by
    simp [trimLeft, hblank]
  cases hmarked : t.marked with
  | false =>
    have hword : errorWord.isPrefixOf t.message.toList = false := by
      rw [Bool.eq_false_iff, ne_eq, List.isPrefixOf_iff_prefix]
      exact t.message_word
    simp [message?, said, hmarked, hskip, hmessage, hword, hsome]
  | true =>
    have hfirst (cs : List Char) : trimLeft (errorWord ++ cs) = errorWord ++ cs :=
      trimLeft_of_not_blank (by decide)
    have hword (cs : List Char) : errorWord.isPrefixOf (errorWord ++ cs) = true := by
      rw [List.isPrefixOf_iff_prefix]
      exact List.prefix_append errorWord cs
    simp [message?, said, hmarked, hskip, hfirst, hword, hmessage, hsome]

/-- A column is told from a message by the blank in front of the message. -/
theorem afterLine?_tail : afterLine? t.tail = some t.message.toList := by
  cases hcolumn : t.column with
  | none =>
    have hblank : takeNumber? (' ' :: t.said) = none := by
      apply takeNumber?_of_head
      rintro c ⟨⟩
      decide
    simp only [tail, hcolumn, afterLine?, hblank]
    exact t.message?_said
  | some digits =>
    have hnumber := takeNumber?_of_isNumber (t.column_number digits hcolumn) (' ' :: t.said)
    simp only [tail, hcolumn, afterLine?, hnumber, t.message?_said, Option.some_or]

/-! ### The whole line -/

theorem not_mem_text {c : Char} (hfile : c ∉ t.file.toList) (hmessage : c ∉ t.message.toList)
    (hcolon : c ≠ ':') (hblank : c ≠ ' ') (hword : c ∉ errorWord)
    (hdigit : Decimal.isDigit c = false) : c ∉ t.text := by
  have hnumber {ds : List Char} (h : IsNumber ds) : c ∉ ds := fun hc => by
    have := h.digits c hc
    simp [hdigit] at this
  have hsaid : c ∉ t.said := by
    cases hmarked : t.marked <;> simp [said, hmarked, hmessage, hword, hblank]
  have htail : c ∉ t.tail := by
    cases hcolumn : t.column with
    | none => simp [tail, hcolumn, hblank, hsaid]
    | some digits =>
      simp [tail, hcolumn, hblank, hsaid, hcolon, hnumber (t.column_number digits hcolumn)]
  simp [text, hfile, hcolon, hnumber t.line_number, htail]

theorem feed_not_mem_text : '\n' ∉ t.text :=
  t.not_mem_text t.file_phrase.feed t.message_phrase.feed (by decide) (by decide) (by decide)
    (by decide)

theorem escape_not_mem_text : Text.escape ∉ t.text :=
  t.not_mem_text t.file_phrase.escape t.message_phrase.escape (by decide) (by decide) (by decide)
    (by decide)

/-- A told line ends with its message. -/
theorem getLast?_text {c : Char} (h : t.message.toList.getLast? = some c) :
    t.text.getLast? = some c := by
  have hsaid : t.said.getLast? = some c := by simp [said, List.getLast?_append, h]
  have htail : t.tail.getLast? = some c := by
    cases hcolumn : t.column <;>
      simp [tail, hcolumn, List.getLast?_append, List.getLast?_cons, hsaid]
  simp [text, List.getLast?_append, List.getLast?_cons, htail]

theorem isTrimmed_text : IsTrimmed t.text := by
  obtain ⟨f, file, hfile⟩ := List.exists_cons_of_ne_nil t.file_phrase.nonempty
  refine ⟨?_, ?_⟩
  · intro c hc
    apply t.file_phrase.head
    rw [hfile]
    simpa [text, hfile] using hc
  · intro c hc
    obtain ⟨e, he⟩ := Option.ne_none_iff_exists'.mp
      (mt List.getLast?_eq_none_iff.mp t.message_phrase.nonempty)
    apply t.message_phrase.last
    rw [he]
    rwa [t.getLast?_text he] at hc

theorem ofLine?_of_strip {shown : List Char} (h : stripFrom 0 shown = t.text) :
    ofLine? shown = some t.diagnostic := by
  have htext :
      trimChars (stripFrom 0 shown) = t.file.toList ++ ':' :: (t.line ++ ':' :: t.tail) := by
    rw [h, t.isTrimmed_text.trimChars_eq, text]
  have hbeyond : takeNumber? (t.line ++ ':' :: t.tail) = some (t.line, t.tail) :=
    takeNumber?_of_isNumber t.line_number t.tail
  rw [ofLine?_of_cut htext t.file_colon t.file_phrase.nonempty, hbeyond, Option.bind_some]
  simp only [t.afterLine?_tail, Option.map_some, t.file_phrase.trimChars_eq,
    t.message_phrase.trimChars_eq, lineNumber_of_isNumber t.line_number t.line_fits,
    String.ofList_toList, diagnostic]

end Told

/-! ### Remarks -/

/-- Trimming leaves a first colon, and puts nothing behind it. -/
theorem Remark.ofLine?_of_strip (r : Remark) {shown : List Char} (h : stripFrom 0 shown = r.text) :
    ofLine? shown = none := by
  apply ofLine?_eq_none
  intro name rest hcut hname
  obtain ⟨front, back, htext, hfront⟩ := eq_trimChars r.text
  have hlead : ':' ∉ front := fun hc => absurd (hfront ':' hc) (by decide)
  rw [← h, hcut, h] at htext
  apply takeNumber?_of_head
  intro c hc
  refine r.plain (front ++ name) (rest ++ back) ?_ ?_ c ?_
  · simp [htext]
  · simp [hlead, hname]
  · simp [List.head?_append, Option.mem_def.mp hc]

/-! ### Outputs -/

theorem ofLine?_concat_return (xs : List Char) : ofLine? (xs ++ ['\r']) = ofLine? xs := by
  unfold ofLine?
  rw [stripFrom_concat_return, trimChars_concat (by decide)]

theorem ofLine?_withoutReturn (xs : List Char) : ofLine? (withoutReturn xs) = ofLine? xs := by
  unfold withoutReturn
  split
  · rename_i h
    obtain ⟨front, rfl⟩ := List.getLast?_eq_some_iff.mp h
    rw [List.dropLast_concat, ofLine?_concat_return]
  · rfl

/-- Neither a carriage return nor an empty last line makes a difference to what is read. -/
theorem diagnostics_eq (output : String) :
    diagnostics output = (split '\n' output.toList).filterMap ofLine? := by
  unfold diagnostics lines
  induction split '\n' output.toList with
  | nil => rfl
  | cons line rest ih =>
    cases rest with
    | nil =>
      cases line with
      | nil => rfl
      | cons c line => rfl
    | cons next rest =>
      rw [linesOf, List.filterMap_cons, List.filterMap_cons, ofLine?_withoutReturn, ih]
      simp

namespace Line

variable {line : Line} {shown : List Char}

theorem feed_not_mem_text (line : Line) : '\n' ∉ line.text := by
  cases line with
  | told t => exact t.feed_not_mem_text
  | remark r => exact r.feed

theorem ofLine?_of_coloured (h : Coloured line.text shown) : ofLine? shown = line.diagnostic? := by
  cases line with
  | told t => exact t.ofLine?_of_strip (stripFrom_of_coloured h t.escape_not_mem_text)
  | remark r => exact r.ofLine?_of_strip (stripFrom_of_coloured h r.escape)

end Line

/-- What a compiler tells is read from its output, however it is coloured. -/
theorem diagnostics_coloured {told : List Line} {shown : List (List Char)}
    (h : List.Forall₂ (fun line text => Coloured line.text text) told shown) :
    diagnostics (.ofList (joined ['\n'] shown)) = told.filterMap Line.diagnostic? := by
  have hfeed : ∀ text ∈ shown, '\n' ∉ text := by
    induction h with
    | nil => simp
    | @cons line text _ _ hline _ ih =>
      have hfirst : '\n' ∉ text := hline.not_mem line.feed_not_mem_text (by decide) (by decide)
        (by decide) (by decide)
      exact List.forall_mem_cons.mpr ⟨hfirst, ih⟩
  have hlines : shown.filterMap ofLine? = told.filterMap Line.diagnostic? := by
    induction h with
    | nil => rfl
    | cons hline _ ih =>
      have hrest := ih fun text htext => hfeed text (List.mem_cons_of_mem _ htext)
      rw [List.filterMap_cons, List.filterMap_cons, Line.ofLine?_of_coloured hline, hrest]
  rw [diagnostics_eq, String.toList_ofList]
  by_cases hnone : shown = []
  · -- an output without lines still has one piece, which is empty
    rw [← hlines, hnone]
    rfl
  · rw [split_joined hnone hfeed, hlines]

/-- A diagnostic whose message could be taken for a column and a mark. -/
def Told.lights : Told where
  file := "rules/Lights.rule"
  line := ['0', '1', '2']
  column := some ['5']
  marked := true
  message := "12: error: unknown item"
  file_phrase :=
    ⟨⟨by rintro c ⟨⟩; decide, by rintro c ⟨⟩; decide⟩, by decide, by decide, by decide⟩
  file_colon := by decide
  line_number := ⟨by decide, List.all_eq_true.mp (by decide)⟩
  line_fits := by decide
  column_number := by
    rintro digits ⟨⟩
    exact ⟨by decide, List.all_eq_true.mp (by decide)⟩
  message_phrase :=
    ⟨⟨by rintro c ⟨⟩; decide, by rintro c ⟨⟩; decide⟩, by decide, by decide, by decide⟩
  message_word := by decide

def Remark.count : Remark where
  text := "warning: 3 of 4\r".toList
  feed := by decide
  escape := by decide
  plain := by
    intro before after h hbefore c hc
    -- what stands from the first colon on
    have hrest : ':' :: after = ": 3 of 4\r".toList := by
      rw [← dropWhile_colon hbefore, ← h]
      decide
    rw [(List.cons.inj hrest).2] at hc
    cases hc
    decide

theorem diagnostics_coloured_lights : diagnostics (.ofList (joined ['\n']
    ["\x1b[1;31mrules/Lights.rule:01\x1b[m2:5: error: 12: error: unknown item\x1b[0m".toList,
      "\x1b[33mwarning: 3 of 4\r".toList])) =
    [⟨⟨"rules/Lights.rule"⟩, 12, "12: error: unknown item"⟩] := by
  have hfirst : Coloured Told.lights.text
      "\x1b[1;31mrules/Lights.rule:01\x1b[m2:5: error: 12: error: unknown item\x1b[0m".toList :=
    (coloured_iff Told.lights.escape_not_mem_text).mpr (by decide)
  have hsecond : Coloured Remark.count.text "\x1b[33mwarning: 3 of 4\r".toList :=
    (coloured_iff Remark.count.escape).mpr (by decide)
  have h : List.Forall₂ (fun (line : Line) text => Coloured line.text text)
      [.told .lights, .remark .count] [_, _] := .cons hfirst (.cons hsecond .nil)
  exact diagnostics_coloured h

end LiveRules.Messages
