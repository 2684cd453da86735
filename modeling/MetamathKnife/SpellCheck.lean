import MetamathKnife.Verify.State
import Mathlib.Data.List.Infix

/-!
# Spell checking of comments

`spell_check.rs` goes through the statements of a database and spell-checks the text of heading
comments and of the comments of assertions, skipping italics and stopping at an assertion
comment's parentheticals. The comment parser, the regex engine and the `zspell` dictionary are
other crates: the comment parser is the list of items it yields, the dictionary its
`check_indices`, and the regex's Unicode classes are parameters (`CharClasses`).

`check_statement` is a loop over the comment's items that carries the italics flag, `break`s at the
first text item ending past the stop position, and pushes a `SpellingMistake` for each misspelled
word of a text item outside italics, at the `u32` span `start + pos .. start + pos + len`.
`spell_check` builds the dictionary of the bundled word list and the words of the `$j add_word`
commands, which may fail, and runs `check_statement` on the comments of the statements.

* `checkedSpans`: the text items the loop checks, written with `scanl` and `takeWhile` over the
  items; `mem_checkedSpans`: they are those it reaches (`Reached`), by `reached_cons`, one step;
* `checkItems_eq`: the run lemma of the loop, by induction over the items, one case per item: it
  pushes the diagnostics of the text items it checks, in order;
* `checkStatement_spec`: for a dictionary whose words are where it says and a comment whose text
  items are spans of its buffer, `check_statement` never panics and pushes `pushed`, one
  diagnostic per word the dictionary flags in the text items it checks, minus the ignored ones;
  these are each the span of the buffer that holds the word: its `u32` arithmetic never wraps;
* `spellCheck_spec`: when the dictionary builds, the diagnostics of the whole database, a
  heading comment checked to its end and an assertion's comment to its parentheticals, each
  diagnostic at the comment's address.
-/

namespace MetamathKnife.SpellCheck

open Verify (Fault StatementAddress)

/-- `FilePos`: a byte offset into a segment's buffer, a `u32`. -/
abbrev FilePos := UInt32

/-- `Span`: the bytes `start..end` of a segment's buffer; `stop` is the source's `end`. -/
structure Span where
  start : FilePos
  stop : FilePos
  deriving DecidableEq, Repr

/-- The bytes `buf[start..end]` of a span that lies in the buffer. -/
def spanBytes (buf : List UInt8) (span : Span) : List UInt8 :=
  (buf.take span.stop.toNat).drop span.start.toNat

/-- `Span::as_ref` (read through `span_text`): the slice `&buf[start..end]`, which panics unless
`start ≤ end ≤ buf.len()`. -/
def Span.asRef (span : Span) (buf : List UInt8) : Except Fault (List UInt8) :=
  Verify.slice buf ⟨span.start.toNat, span.stop.toNat⟩

theorem Span.asRef_of_le {span : Span} {buf : List UInt8} (h : span.start ≤ span.stop)
    (hb : span.stop.toNat ≤ buf.length) : span.asRef buf = .ok (spanBytes buf span) := by
  simp only [asRef, Verify.slice, spanBytes]
  rw [if_pos ⟨h, hb⟩]

/-- A `u32` sum that does not wrap. -/
theorem toNat_add_toUInt32 {a : FilePos} {n : Nat} (h : a.toNat + n < 2 ^ 32) :
    (a + n.toUInt32).toNat = a.toNat + n := by
  have hadd : (a + n.toUInt32).toNat = (a.toNat + n.toUInt32.toNat) % 2 ^ 32 :=
    BitVec.toNat_add _ _
  have hofNat : n.toUInt32.toNat = n % 2 ^ 32 := BitVec.toNat_ofNat _ _
  omega

theorem drop_take_eq_of_eq_append {B X pre word post : List UInt8}
    (h : B = X ++ (pre ++ word ++ post)) :
    (B.take (X.length + pre.length + word.length)).drop (X.length + pre.length) = word := by
  subst h
  rw [← List.append_assoc, ← List.append_assoc, ← List.length_append X pre,
    List.take_left' (by simp [Nat.add_assoc]), List.drop_left]

/-- A word at `pre.length` in the bytes of a span lies in the buffer at `start + pre.length`. -/
theorem spanBytes_sub {buf : List UInt8} {span : Span} (hle : span.start ≤ span.stop)
    (hb : span.stop.toNat ≤ buf.length) {pre word post : List UInt8}
    (h : spanBytes buf span = pre ++ word ++ post) :
    span.start.toNat + pre.length + word.length ≤ span.stop.toNat ∧
      (buf.take (span.start.toNat + pre.length + word.length)).drop
        (span.start.toNat + pre.length) = word := by
  have hs : span.start.toNat ≤ span.stop.toNat := hle
  have hlen := congrArg List.length h
  simp only [spanBytes, List.length_drop, List.length_take, List.length_append] at hlen
  refine ⟨by omega, ?_⟩
  have hX : (buf.take span.start.toNat).length = span.start.toNat := by simp; omega
  have hB : buf.take span.stop.toNat = buf.take span.start.toNat ++ (pre ++ word ++ post) := by
    rw [← h]
    conv_lhs => rw [← List.take_append_drop span.start.toNat (buf.take span.stop.toNat)]
    rw [List.take_take, Nat.min_eq_left hs]
    rfl
  have := drop_take_eq_of_eq_append hB
  rw [hX, List.take_take, Nat.min_eq_left (by omega)] at this
  exact this

/-- The one `Diagnostic` that `spell_check.rs` builds. -/
inductive Diagnostic
  | spellingMistake (span : Span)
  deriving DecidableEq, Repr

/-- An item of `comment_parser()`, as `check_statement` tells them apart. -/
inductive CommentItem
  /-- `Text(span)`: a run of plain text. -/
  | text (span : Span)
  /-- `StartItalic(pos)`. -/
  | startItalic (pos : FilePos)
  /-- `EndItalic(pos)`. -/
  | endItalic (pos : FilePos)
  /-- Any other item (math mode, labels, HTML, line breaks, ...): the loop skips it. -/
  | other
  deriving DecidableEq, Repr

/-- A comment statement as `check_statement` and `spell_check` read it. -/
structure CommentRef where
  /-- `address()`. -/
  address : StatementAddress
  /-- `span_full()`. -/
  spanFull : Span
  /-- The segment's buffer that the spans index. -/
  buffer : List UInt8
  /-- The items of `comment_parser()`. -/
  commentParser : List CommentItem
  /-- `parentheticals().full_span().map(|s| s.start)`. -/
  parentheticalsStart : Option FilePos

/-- Every text item of the comment is a span of its buffer, `start ≤ end ≤ len`, as
`span_text` needs. -/
def CommentRef.SpansInBuffer (stmt : CommentRef) : Prop :=
  ∀ span, .text span ∈ stmt.commentParser →
    span.start ≤ span.stop ∧ span.stop.toNat ≤ stmt.buffer.length

/-- A `zspell` dictionary, as `check_statement` reads it: `check_indices(text)`, the misspelled
words of `text`, each with its byte position. -/
structure Dictionary where
  checkIndices : List UInt8 → List (Nat × List UInt8)

/-- The dictionary's words are where it says: each word reported at `pos` is the text's bytes
from `pos` on. -/
def Dictionary.Located (dict : Dictionary) : Prop :=
  ∀ text pos word, (pos, word) ∈ dict.checkIndices text →
    ∃ pre post, text = pre ++ word ++ post ∧ pos = pre.length

/-- The Unicode classes of the `regex` crate that `ignore_words` uses: whether a byte string
spells one or more characters of class `\d`, and one or more of class `\w`. -/
structure CharClasses where
  digits : List UInt8 → Bool
  words : List UInt8 → Bool

/-- `ignore_words().is_match(word)`, the regex `^(\d+|[A-Z]\w+|-)$`: a number, a capitalized
word, or a dash. -/
def ignoreWords (cls : CharClasses) (word : List UInt8) : Bool :=
  cls.digits word ||
    (match word with
      | c :: rest => 'A'.toUInt8 ≤ c && c ≤ 'Z'.toUInt8 && cls.words rest
      | [] => false) ||
    word == ['-'.toUInt8]

section Check

variable (dict : Dictionary) (cls : CharClasses)

/-- The inner loop of `check_statement` over the misspelled words of one text item: a
`SpellingMistake` for each word `ignore_words` does not match, at `span.start + pos` with the
word's length, in `u32`. -/
def textDiagnostics (address : StatementAddress) (span : Span) (text : List UInt8) :
    List (StatementAddress × Diagnostic) :=
  (dict.checkIndices text).filterMap fun (pos, word) =>
    if ignoreWords cls word then none
    else
      let start := span.start + pos.toUInt32
      let stop := start + word.length.toUInt32
      some (address, .spellingMistake ⟨start, stop⟩)

/-- The loop of `check_statement` over the comment's items, with the italics flag and the
diagnostics pushed so far. A text item ending past `stopAt` ends the loop (`break`), also in
italics; a text item in italics is skipped (`continue`). -/
def checkItems (stmt : CommentRef) (stopAt : FilePos) (italics : Bool)
    (diags : List (StatementAddress × Diagnostic)) :
    List CommentItem → Except Fault (List (StatementAddress × Diagnostic))
  | [] => pure diags
  | .text span :: items =>
    if span.stop > stopAt then pure diags
    else if italics then checkItems stmt stopAt italics diags items
    else do
      let text ← span.asRef stmt.buffer
      checkItems stmt stopAt italics (diags ++ textDiagnostics dict cls stmt.address span text)
        items
  | .startItalic _ :: items => checkItems stmt stopAt true diags items
  | .endItalic _ :: items => checkItems stmt stopAt false diags items
  | .other :: items => checkItems stmt stopAt italics diags items

/-- `check_statement(stmt, stop_at, dict, diags)`: the loop from outside italics, stopping at
`stop_at`, or else at the end of the statement's full span. -/
def checkStatement (stmt : CommentRef) (stopAt : Option FilePos)
    (diags : List (StatementAddress × Diagnostic)) :
    Except Fault (List (StatementAddress × Diagnostic)) :=
  checkItems dict cls stmt (stopAt.getD stmt.spanFull.stop) false diags stmt.commentParser

/-! ## Which text items the loop checks -/

/-- The italics flag after one item: set by `StartItalic`, cleared by `EndItalic`. -/
def italicsStep (italics : Bool) : CommentItem → Bool
  | .startItalic _ => true
  | .endItalic _ => false
  | _ => italics

/-- The italics flag after the items `pre`, from `italics`. -/
def italicsAfter (italics : Bool) (pre : List CommentItem) : Bool := pre.foldl italicsStep italics

/-- The loop `break`s at a text item ending past `stopAt`. -/
def pastStop (stopAt : FilePos) : CommentItem → Bool
  | .text span => stopAt < span.stop
  | _ => false

/-- The text items the loop checks, in order: of the items before the first one it `break`s at,
each with the italics flag before it, the text items outside italics. -/
def checkedSpans (stopAt : FilePos) (italics : Bool) (items : List CommentItem) : List Span :=
  ((items.zip (items.scanl italicsStep italics)).takeWhile fun p => !pastStop stopAt p.1).filterMap
    fun
    | (.text span, false) => some span
    | _ => none

@[simp] theorem checkedSpans_nil (stopAt : FilePos) (italics : Bool) :
    checkedSpans stopAt italics [] = [] := rfl

theorem checkedSpans_text (stopAt : FilePos) (italics : Bool) (span : Span)
    (items : List CommentItem) :
    checkedSpans stopAt italics (.text span :: items) =
      if stopAt < span.stop then []
      else if italics then checkedSpans stopAt italics items
      else span :: checkedSpans stopAt italics items := by
  by_cases h : stopAt < span.stop <;> cases italics <;>
    simp [checkedSpans, italicsStep, pastStop, h]

theorem checkedSpans_of_not_text (stopAt : FilePos) (italics : Bool) {x : CommentItem}
    (hx : ∀ span, x ≠ .text span) (items : List CommentItem) :
    checkedSpans stopAt italics (x :: items) = checkedSpans stopAt (italicsStep italics x) items := by
  cases x with
  | text span => exact absurd rfl (hx span)
  | _ => simp [checkedSpans, pastStop]

/-- The text item `span` is checked by a loop over `items` from the flag `italics`: no text item
before it ends past `stopAt`, nor does it, and italics are closed at it. -/
def Reached (stopAt : FilePos) (italics : Bool) (items : List CommentItem) (span : Span) :
    Prop :=
  ∃ pre post, items = pre ++ .text span :: post ∧ (∀ s, .text s ∈ pre → s.stop ≤ stopAt) ∧
    span.stop ≤ stopAt ∧ italicsAfter italics pre = false

theorem not_reached_nil (stopAt : FilePos) (italics : Bool) (span : Span) :
    ¬Reached stopAt italics [] span := by
  rintro ⟨pre, post, h, -⟩
  simp at h

/-- **One step of the loop**: the text items reached from an item `x` are `x` itself, when it is a
text item within `stopAt` outside italics, and those the rest reaches from the flag after `x`,
when `x` is not a text item past `stopAt`. -/
theorem reached_cons {stopAt : FilePos} {italics : Bool} {x : CommentItem}
    {items : List CommentItem} {span : Span} :
    Reached stopAt italics (x :: items) span ↔
      (x = .text span ∧ span.stop ≤ stopAt ∧ italics = false) ∨
      ((∀ s, x = .text s → s.stop ≤ stopAt) ∧
        Reached stopAt (italicsStep italics x) items span) := by
  constructor
  · rintro ⟨_ | ⟨y, pre⟩, post, h, hpre, hs, hit⟩
    · obtain ⟨rfl, -⟩ := List.cons.inj h
      exact .inl ⟨rfl, hs, hit⟩
    · obtain ⟨rfl, rfl⟩ := List.cons.inj h
      exact .inr ⟨fun s hx => hpre s (hx ▸ List.mem_cons_self _ _),
        pre, post, rfl, fun s hs => hpre s (List.mem_cons_of_mem _ hs), hs, hit⟩
  · rintro (⟨rfl, hs, rfl⟩ | ⟨hx, pre, post, rfl, hpre, hs, hit⟩)
    · exact ⟨[], items, rfl, by simp, hs, rfl⟩
    · refine ⟨x :: pre, post, rfl, ?_, hs, hit⟩
      rintro s (hsx | ⟨-, hsp⟩)
      exacts [hx s rfl, hpre s hsp]

/-- **The text items the loop checks are those it reaches.** -/
theorem mem_checkedSpans {stopAt : FilePos} {span : Span} :
    ∀ {items : List CommentItem} {italics : Bool},
      span ∈ checkedSpans stopAt italics items ↔ Reached stopAt italics items span
  | [], _ => by simp [not_reached_nil]
  | .text s :: items, italics => by
    have hstep : italicsStep italics (.text s) = italics := rfl
    rw [checkedSpans_text, reached_cons, hstep, ← mem_checkedSpans]
    by_cases hpast : stopAt < s.stop
    · simp only [hpast, if_true, List.not_mem_nil, false_iff, CommentItem.text.injEq]
      rintro (⟨rfl, hle, -⟩ | ⟨hle, -⟩)
      exacts [UInt32.not_lt.mpr hle hpast, UInt32.not_lt.mpr (hle s rfl) hpast]
    have hle := UInt32.not_lt.mp hpast
    cases italics
    · simp only [hpast, if_false, List.mem_cons, CommentItem.text.injEq, forall_eq', hle,
        true_and, and_true, Bool.false_eq_true]
      exact or_congr_left ⟨fun h => ⟨h.symm, h ▸ hle⟩, fun h => h.1.symm⟩
    · simp [hpast, hle]
  | .startItalic _ :: items, _ | .endItalic _ :: items, _ | .other :: items, _ => by
    simp [checkedSpans_of_not_text, reached_cons, mem_checkedSpans]

/-- **The run lemma of the loop**: over items whose text spans lie in the buffer, the loop does
not panic, and it pushes the diagnostics of the text items it checks, one item after the
other. -/
theorem checkItems_eq (stmt : CommentRef) (stopAt : FilePos) :
    ∀ (items : List CommentItem) (italics : Bool) (diags : List (StatementAddress × Diagnostic)),
      (∀ span, .text span ∈ items →
        span.start ≤ span.stop ∧ span.stop.toNat ≤ stmt.buffer.length) →
      checkItems dict cls stmt stopAt italics diags items =
        .ok (diags ++ (checkedSpans stopAt italics items).flatMap fun span =>
          textDiagnostics dict cls stmt.address span (spanBytes stmt.buffer span))
  | [], italics, diags, _ => by simp [checkItems]
  | .text span :: items, italics, diags, hspans => by
    have hs : ∀ s, .text s ∈ items → _ := fun s hs => hspans s (List.mem_cons_of_mem _ hs)
    rw [checkItems, checkedSpans_text]
    by_cases hpast : stopAt < span.stop
    · simp [hpast]
    cases italics with
    | true => simpa [hpast] using checkItems_eq stmt stopAt items true diags hs
    | false =>
      obtain ⟨hle, hb⟩ := hspans span (List.mem_cons_self _ _)
      simpa [hpast, Span.asRef_of_le hle hb] using checkItems_eq stmt stopAt items false
        (diags ++ textDiagnostics dict cls stmt.address span (spanBytes stmt.buffer span)) hs
  | .startItalic _ :: items, italics, diags, hspans | .endItalic _ :: items, italics, diags, hspans
  | .other :: items, italics, diags, hspans => by
    simpa [checkItems, checkedSpans_of_not_text] using
      checkItems_eq stmt stopAt items _ diags fun s hs => hspans s (List.mem_cons_of_mem _ hs)

/-! ## What `check_statement` reports -/

/-- The words the loop flags, in order: in each text item it checks, each word the dictionary
reports that `ignore_words` does not match, with the item and the word's position. -/
def flaggedWords (stmt : CommentRef) (stopAt : FilePos) : List (Span × Nat × List UInt8) :=
  (checkedSpans stopAt false stmt.commentParser).flatMap fun span =>
    ((dict.checkIndices (spanBytes stmt.buffer span)).filter fun w => !ignoreWords cls w.2).map
      (span, ·)

/-- The `SpellingMistake` of a word at `pos` in a text item: the `u32` span
`start + pos .. start + pos + len`. -/
def mistakeAt (w : Span × Nat × List UInt8) : Diagnostic :=
  .spellingMistake ⟨w.1.start + w.2.1.toUInt32, w.1.start + w.2.1.toUInt32 + w.2.2.length.toUInt32⟩

/-- What `check_statement` pushes for the comment `stmt` checked up to `stopAt`: one diagnostic
per flagged word, at the comment's address. -/
def pushed (stmt : CommentRef) (stopAt : FilePos) : List (StatementAddress × Diagnostic) :=
  (flaggedWords dict cls stmt stopAt).map fun w => (stmt.address, mistakeAt w)

theorem textDiagnostics_eq (address : StatementAddress) (span : Span) (text : List UInt8) :
    textDiagnostics dict cls address span text =
      ((dict.checkIndices text).filter fun w => !ignoreWords cls w.2).map
        fun w => (address, mistakeAt (span, w)) := by
  rw [textDiagnostics]
  induction dict.checkIndices text with
  | nil => rfl
  | cons w ws ih => cases h : ignoreWords cls w.2 <;> simp [List.filter_cons, h, ih, mistakeAt]

/-- **`check_statement` pushes one diagnostic per flagged word.** -/
theorem checkStatement_eq {stmt : CommentRef} (hspans : stmt.SpansInBuffer)
    (stopAt : Option FilePos) (diags : List (StatementAddress × Diagnostic)) :
    checkStatement dict cls stmt stopAt diags =
      .ok (diags ++ pushed dict cls stmt (stopAt.getD stmt.spanFull.stop)) := by
  rw [checkStatement, checkItems_eq dict cls stmt _ stmt.commentParser false diags hspans]
  simp [pushed, flaggedWords, textDiagnostics_eq, List.map_flatMap, Function.comp_def]

/-- The diagnostic `d` reports a misspelled word of the comment `stmt` checked up to `stopAt`: a
word the dictionary flags in a text item the loop reaches outside italics and which `ignore_words`
does not match, as the span of the buffer that holds it, inside the item. -/
def Flagged (stmt : CommentRef) (stopAt : FilePos) (d : Diagnostic) : Prop :=
  ∃ span pos word, Reached stopAt false stmt.commentParser span ∧
    (pos, word) ∈ dict.checkIndices (spanBytes stmt.buffer span) ∧ ignoreWords cls word = false ∧
    ∃ start stop : FilePos, d = .spellingMistake ⟨start, stop⟩ ∧
      start.toNat = span.start.toNat + pos ∧ stop.toNat = start.toNat + word.length ∧
      stop ≤ span.stop ∧ spanBytes stmt.buffer ⟨start, stop⟩ = word

variable {dict}

/-- **A flagged word's span is the word's place in the buffer**: the `u32` sums do not wrap, and
the span they give lies inside the text item and holds the word. -/
theorem located_span (hdict : dict.Located) {buf : List UInt8} {span : Span}
    (hle : span.start ≤ span.stop) (hb : span.stop.toNat ≤ buf.length) {pos : Nat}
    {word : List UInt8} (hw : (pos, word) ∈ dict.checkIndices (spanBytes buf span)) :
    let start := span.start + pos.toUInt32
    let stop := start + word.length.toUInt32
    start.toNat = span.start.toNat + pos ∧ stop.toNat = start.toNat + word.length ∧
      stop ≤ span.stop ∧ spanBytes buf ⟨start, stop⟩ = word := by
  obtain ⟨pre, post, htext, rfl⟩ := hdict _ _ _ hw
  obtain ⟨hin, hword⟩ := spanBytes_sub hle hb htext
  have hlt : span.stop.toNat < 2 ^ 32 := span.stop.toNat_lt_size
  have hstart := toNat_add_toUInt32 (a := span.start) (n := pre.length) (by omega)
  have hstop := toNat_add_toUInt32 (a := span.start + pre.length.toUInt32) (n := word.length)
    (by omega)
  refine ⟨hstart, hstop, show UInt32.toNat _ ≤ UInt32.toNat _ by omega, ?_⟩
  simp only [spanBytes, hstop, hstart, hword]

theorem mem_of_reached {stopAt : FilePos} {italics : Bool} {items : List CommentItem}
    {span : Span} (h : Reached stopAt italics items span) : .text span ∈ items := by
  obtain ⟨pre, post, rfl, -⟩ := h
  simp

theorem mem_flaggedWords {stmt : CommentRef} {stopAt : FilePos} {span : Span} {pos : Nat}
    {word : List UInt8} :
    (span, pos, word) ∈ flaggedWords dict cls stmt stopAt ↔
      Reached stopAt false stmt.commentParser span ∧
        (pos, word) ∈ dict.checkIndices (spanBytes stmt.buffer span) ∧
        ignoreWords cls word = false := by
  simp [flaggedWords, mem_checkedSpans]

/-- **The diagnostics pushed are the flagged words**, for a dictionary whose words are where it
says and a comment whose text items are spans of its buffer. -/
theorem mem_pushed (hdict : dict.Located) {stmt : CommentRef} (hspans : stmt.SpansInBuffer)
    (stopAt : FilePos) (a : StatementAddress) (d : Diagnostic) :
    (a, d) ∈ pushed dict cls stmt stopAt ↔ a = stmt.address ∧ Flagged dict cls stmt stopAt d := by
  simp only [pushed, List.mem_map, Prod.exists, Prod.mk.injEq, mem_flaggedWords]
  constructor
  · rintro ⟨span, pos, word, ⟨hr, hw, hign⟩, rfl, rfl⟩
    obtain ⟨hle, hb⟩ := hspans span (mem_of_reached hr)
    exact ⟨rfl, span, pos, word, hr, hw, hign, _, _, rfl, located_span hdict hle hb hw⟩
  · rintro ⟨rfl, span, pos, word, hr, hw, hign, start, stop, rfl, hstart, hstop, -⟩
    obtain ⟨hle, hb⟩ := hspans span (mem_of_reached hr)
    obtain ⟨hstart', hstop', -⟩ := located_span hdict hle hb hw
    refine ⟨span, pos, word, ⟨hr, hw, hign⟩, rfl, ?_⟩
    have h1 : span.start + pos.toUInt32 = start := UInt32.toNat.inj (by omega)
    have h2 : span.start + pos.toUInt32 + word.length.toUInt32 = stop :=
      UInt32.toNat.inj (by omega)
    rw [mistakeAt, ← h2, ← h1]

/-- **What `check_statement` pushes**: for a dictionary whose words are where it says and a comment
whose text items are spans of its buffer, `check_statement` does not panic and pushes, at the
comment's address, one `SpellingMistake` per word flagged in the text items it reaches, and these
are exactly the flagged words, each as the span of the buffer that holds it. -/
theorem checkStatement_spec (hdict : dict.Located) {stmt : CommentRef}
    (hspans : stmt.SpansInBuffer) (stopAt : Option FilePos)
    (diags : List (StatementAddress × Diagnostic)) :
    checkStatement dict cls stmt stopAt diags =
        .ok (diags ++ pushed dict cls stmt (stopAt.getD stmt.spanFull.stop)) ∧
      ∀ a d, (a, d) ∈ pushed dict cls stmt (stopAt.getD stmt.spanFull.stop) ↔
        a = stmt.address ∧ Flagged dict cls stmt (stopAt.getD stmt.spanFull.stop) d :=
  ⟨checkStatement_eq dict cls hspans stopAt diags, mem_pushed cls hdict hspans _⟩

/-! ### A comment with italics and parentheticals -/

/-- A dictionary for which a text that starts with `teh` starts with a misspelled word. -/
def tehDictionary : Dictionary :=
  ⟨fun text => if text.take 3 = "teh".toList.map Char.toUInt8 then [(0, text.take 3)] else []⟩

theorem tehDictionary_located : tehDictionary.Located := by
  intro text pos word h
  simp only [tehDictionary] at h
  split at h
  · obtain ⟨rfl, rfl⟩ : pos = 0 ∧ word = text.take 3 := by simpa using h
    exact ⟨[], text.drop 3, by simp, rfl⟩
  · simp at h

/-- The ASCII digits and word characters. -/
def asciiClasses : CharClasses where
  digits w := w != [] && w.all fun b => '0'.toUInt8 ≤ b && b ≤ '9'.toUInt8
  words w := w != [] && w.all fun b => (Char.ofNat b.toNat).isAlphanum || b == '_'.toUInt8

/-- The comment `teh <i>teh</i>teh (teh)`, whose parentheticals start at byte 18. -/
def tehComment : CommentRef where
  address := ⟨0, 0⟩
  spanFull := ⟨0, 23⟩
  buffer := "teh <i>teh</i>teh (teh)".toList.map Char.toUInt8
  commentParser := [.text ⟨0, 4⟩, .startItalic 4, .text ⟨7, 10⟩, .endItalic 10, .text ⟨14, 23⟩]
  parentheticalsStart := some 18

theorem tehComment_spansInBuffer : tehComment.SpansInBuffer := by
  intro span h
  simp [tehComment] at h
  rcases h with rfl | rfl | rfl <;> decide

theorem tehComment_checkStatement :
    tehDictionary.Located ∧ tehComment.SpansInBuffer ∧
      checkStatement tehDictionary asciiClasses tehComment tehComment.parentheticalsStart [] =
        .ok ([] ++ pushed tehDictionary asciiClasses tehComment
          (tehComment.parentheticalsStart.getD tehComment.spanFull.stop)) ∧
      ∀ a d, (a, d) ∈ pushed tehDictionary asciiClasses tehComment
          (tehComment.parentheticalsStart.getD tehComment.spanFull.stop) ↔
        a = tehComment.address ∧ Flagged tehDictionary asciiClasses tehComment
          (tehComment.parentheticalsStart.getD tehComment.spanFull.stop) d :=
  ⟨tehDictionary_located, tehComment_spansInBuffer,
    checkStatement_spec asciiClasses tehDictionary_located tehComment_spansInBuffer _ []⟩

/-- The word in italics is skipped, and the text item that runs into the parentheticals ends the
check. -/
example : checkStatement tehDictionary asciiClasses tehComment tehComment.parentheticalsStart [] =
    .ok [(⟨0, 0⟩, .spellingMistake ⟨0, 3⟩)] := by
  rfl

end Check

/-! ## The statements of a database -/

/-- Modelled from the spec: a token of a `$j` command (`CommandToken`, in the parser, which is
not among the sources), with the bytes `value(buf)` reads. -/
inductive CommandToken
  /-- `Keyword(span)`. -/
  | keyword (value : List UInt8)
  /-- `String(span)`, its quotes and escapes read. -/
  | string (value : List UInt8)
  deriving DecidableEq, Repr

/-- `CommandToken::value(buf)`. -/
def CommandToken.value : CommandToken → List UInt8
  | .keyword v => v
  | .string v => v

/-- `join("\n")`. -/
def joinLines (lines : List (List UInt8)) : List UInt8 := ['\n'.toUInt8].intercalate lines

/-- `personal_dict(db)`: for each `$j` command `add_word w₁ w₂ …` its words, joined by newlines,
and these joined by newlines; `process_j_commands` is the list of the database's `$j` commands,
each read as its tokens. -/
def personalDict (jCommands : List (List CommandToken)) : List UInt8 :=
  joinLines (jCommands.filterMap fun
    | .keyword cmd :: words =>
      if cmd = "add_word".toList.map Char.toUInt8 then some (joinLines (words.map (·.value)))
      else none
    | _ => none)

/-- Modelled from the spec: what `spell_check` builds its dictionary with: the bundled word list
(`include_str!("dictionary/index.dic")`) and `zspell`'s builder over the bundled affix file
(`builder().config_str(aff_content).dict_str(dic).build()`), `none` where it returns an
error. -/
structure DictionarySource where
  dicContent : List UInt8
  build : List UInt8 → Option Dictionary

/-- A statement of the database as `spell_check` reads it. -/
structure SpellStatement where
  /-- `statement_type()` is `HeadingComment(_)`. -/
  isHeadingComment : Bool
  /-- `is_assertion()`. -/
  isAssertion : Bool
  /-- The statement itself, read as a comment. -/
  comment : CommentRef
  /-- `associated_comment()`. -/
  associatedComment : Option CommentRef

/-- The comment `spell_check` checks for a statement, with where the check stops: a heading
comment to the end of its span, the comment of an assertion to its parentheticals, or to its end
when it has none. -/
def checkedComment (stmt : SpellStatement) : Option (CommentRef × FilePos) :=
  if stmt.isHeadingComment then some (stmt.comment, stmt.comment.spanFull.stop)
  else if stmt.isAssertion then
    stmt.associatedComment.map fun c => (c, c.parentheticalsStart.getD c.spanFull.stop)
  else none

section Database

variable (dict : Dictionary) (cls : CharClasses)

/-- One iteration of the loop of `spell_check`: a heading comment is checked to its end, the
comment of an assertion up to its parentheticals; the diagnostics go on the comment. -/
def spellCheckStatement (diags : List (StatementAddress × Diagnostic)) (stmt : SpellStatement) :
    Except Fault (List (StatementAddress × Diagnostic)) :=
  if stmt.isHeadingComment then checkStatement dict cls stmt.comment none diags
  else if stmt.isAssertion then
    match stmt.associatedComment with
    | some comment => checkStatement dict cls comment comment.parentheticalsStart diags
    | none => pure diags
  else pure diags

/-- `spell_check(db)`: the dictionary built of the bundled word list followed by
`personal_dict(db)`, whose `expect` panics when `zspell` fails to build it, then the loop over the
statements. -/
def spellCheck (src : DictionarySource) (jCommands : List (List CommandToken))
    (statements : List SpellStatement) : Except Fault (List (StatementAddress × Diagnostic)) := do
  let dic := src.dicContent ++ personalDict jCommands
  let some dict := src.build dic | throw .panic
  statements.foldlM (spellCheckStatement dict cls) []

/-- What `spell_check` pushes for a statement: what `check_statement` pushes for the comment it
checks. -/
def statementDiagnostics (stmt : SpellStatement) : List (StatementAddress × Diagnostic) :=
  match checkedComment stmt with
  | some (c, stopAt) => pushed dict cls c stopAt
  | none => []

variable {dict}

theorem spellCheckStatement_eq {stmt : SpellStatement}
    (hspans : ∀ c stopAt, checkedComment stmt = some (c, stopAt) → c.SpansInBuffer)
    (diags : List (StatementAddress × Diagnostic)) :
    spellCheckStatement dict cls diags stmt = .ok (diags ++ statementDiagnostics dict cls stmt) := by
  unfold spellCheckStatement statementDiagnostics
  cases hh : stmt.isHeadingComment with
  | true =>
    simp only [checkedComment, hh, if_true] at hspans ⊢
    exact checkStatement_eq dict cls (hspans _ _ rfl) none diags
  | false =>
    cases ha : stmt.isAssertion with
    | false => simp [checkedComment, hh, ha]
    | true =>
      cases hc : stmt.associatedComment with
      | none => simp [checkedComment, hh, ha, hc]
      | some c =>
        simp only [checkedComment, hh, ha, hc, Option.map_some'] at hspans ⊢
        exact checkStatement_eq dict cls (hspans _ _ rfl) c.parentheticalsStart diags

/-- The run lemma of the loop of `spell_check`. -/
theorem foldlM_spellCheckStatement_eq :
    ∀ (l : List SpellStatement) (diags : List (StatementAddress × Diagnostic)),
      (∀ stmt ∈ l, ∀ c stopAt, checkedComment stmt = some (c, stopAt) → c.SpansInBuffer) →
      l.foldlM (spellCheckStatement dict cls) diags =
        .ok (diags ++ l.flatMap (statementDiagnostics dict cls))
  | [], diags, _ => by simp
  | stmt :: l, diags, hl => by
    rw [List.foldlM_cons, spellCheckStatement_eq cls (hl stmt (List.mem_cons_self _ _)), Verify.ok_bind,
      foldlM_spellCheckStatement_eq l _ fun s hs => hl s (List.mem_cons_of_mem _ hs)]
    simp

theorem mem_statementDiagnostics (hdict : dict.Located) {stmt : SpellStatement}
    (hspans : ∀ c stopAt, checkedComment stmt = some (c, stopAt) → c.SpansInBuffer)
    (a : StatementAddress) (d : Diagnostic) :
    (a, d) ∈ statementDiagnostics dict cls stmt ↔ ∃ c stopAt,
      checkedComment stmt = some (c, stopAt) ∧ a = c.address ∧ Flagged dict cls c stopAt d := by
  unfold statementDiagnostics
  cases h : checkedComment stmt with
  | none => simp
  | some p =>
    obtain ⟨c, stopAt⟩ := p
    simp [mem_pushed cls hdict (hspans _ _ h), and_assoc]

/-- **The diagnostics of a database**: when `zspell` builds a dictionary of the bundled word list
and the words of the `add_word` commands, whose words are where it says, and the comments checked
have their text items in their buffers, `spell_check` does not panic; it pushes, statement after
statement, what `check_statement` pushes for the comment it checks, and these are exactly the
words flagged in the heading comments up to their end and in the comments of assertions up to
their parentheticals, each at the comment's address. -/
theorem spellCheck_spec {src : DictionarySource} {jCommands : List (List CommandToken)}
    (hbuild : src.build (src.dicContent ++ personalDict jCommands) = some dict)
    (hdict : dict.Located) {statements : List SpellStatement}
    (hspans : ∀ stmt ∈ statements, ∀ c stopAt,
      checkedComment stmt = some (c, stopAt) → c.SpansInBuffer) :
    spellCheck cls src jCommands statements =
        .ok (statements.flatMap (statementDiagnostics dict cls)) ∧
      ∀ a d, (a, d) ∈ statements.flatMap (statementDiagnostics dict cls) ↔
        ∃ stmt ∈ statements, ∃ c stopAt, checkedComment stmt = some (c, stopAt) ∧
          a = c.address ∧ Flagged dict cls c stopAt d := by
  refine ⟨?_, fun a d => ?_⟩
  · rw [spellCheck]
    simp only [hbuild]
    exact (foldlM_spellCheckStatement_eq cls statements [] hspans).trans (by rw [List.nil_append])
  · simp only [List.mem_flatMap]
    exact exists_congr fun stmt => and_congr_right fun hs =>
      mem_statementDiagnostics cls hdict (hspans stmt hs) a d

end Database

/-- A heading comment, and an assertion whose comment is the same comment. -/
def tehStatements : List SpellStatement :=
  [⟨true, false, tehComment, none⟩, ⟨false, true, tehComment, some tehComment⟩]

/-- One command `$j add_word knife ;`. -/
def addKnife : List (List CommandToken) :=
  [[.keyword ("add_word".toList.map Char.toUInt8), .keyword ("knife".toList.map Char.toUInt8)]]

/-- An empty bundled word list, and a builder that makes `tehDictionary` of any word list. -/
def tehSource : DictionarySource := ⟨[], fun _ => some tehDictionary⟩

/-- Commands other than `add_word` are skipped, and the words are joined by newlines. -/
example : personalDict ([[.keyword ("other".toList.map Char.toUInt8)]] ++ addKnife ++ addKnife) =
    "knife\nknife".toList.map Char.toUInt8 := by
  decide

theorem tehStatements_spansInBuffer :
    ∀ stmt ∈ tehStatements, ∀ c stopAt, checkedComment stmt = some (c, stopAt) →
      c.SpansInBuffer := by
  intro stmt hs c stopAt hc
  simp only [tehStatements, List.mem_cons, List.mem_singleton, List.not_mem_nil, or_false] at hs
  rcases hs with rfl | rfl <;> simp [checkedComment] at hc <;> obtain ⟨rfl, -⟩ := hc <;>
    exact tehComment_spansInBuffer

theorem tehStatements_spellCheck :
    tehSource.build (tehSource.dicContent ++ personalDict addKnife) = some tehDictionary ∧
      tehDictionary.Located ∧
      (∀ stmt ∈ tehStatements, ∀ c stopAt, checkedComment stmt = some (c, stopAt) →
        c.SpansInBuffer) ∧
      spellCheck asciiClasses tehSource addKnife tehStatements =
        .ok (tehStatements.flatMap (statementDiagnostics tehDictionary asciiClasses)) ∧
      ∀ a d, (a, d) ∈ tehStatements.flatMap (statementDiagnostics tehDictionary asciiClasses) ↔
        ∃ stmt ∈ tehStatements, ∃ c stopAt, checkedComment stmt = some (c, stopAt) ∧
          a = c.address ∧ Flagged tehDictionary asciiClasses c stopAt d :=
  ⟨rfl, tehDictionary_located, tehStatements_spansInBuffer,
    spellCheck_spec asciiClasses rfl tehDictionary_located tehStatements_spansInBuffer⟩

end MetamathKnife.SpellCheck
