import MetamathKnife.Verify.Proof
import Mathlib.Data.List.Basic

/-!
# The compressed-step decoder

`verify_proof` reads the step string of a compressed proof byte by byte (`decodeByte`), with
the number `k` being read and the flag `can_save` as its state. `decodeByte_ok` says what one
byte can do; the run lemmas derive, by induction over the bytes read, what every state the
decoder reaches from `k = 0` satisfies:

* `decodeChunk_exact`: `k` is the value of the digits read since the last letter and at most
  `214748362`, so that no update of `k` exceeds `u32::MAX`, and the step a letter runs is the
  value of its digit string;
* `decodeChunk_grammar`: once no number is left unfinished (`k = 0`), the bytes read, those
  outside `A`..`Z` and `?` removed, are step numbers `[U-Y]*[A-T]`, each optionally followed by
  `Z`.
-/

namespace MetamathKnife.Verify

/-! ## Byte classes -/

/-- `A`..`T`: the last digit of a step number. -/
def IsLetter (ch : UInt8) : Prop := 'A'.toUInt8 ≤ ch ∧ ch ≤ 'T'.toUInt8

/-- `U`..`Y`: a leading digit of a step number. -/
def IsDigit (ch : UInt8) : Prop := 'U'.toUInt8 ≤ ch ∧ ch ≤ 'Y'.toUInt8

/-- The bytes the decoder does not pass over: `A`..`Z` and `?`. -/
def IsStepByte (ch : UInt8) : Prop := IsLetter ch ∨ IsDigit ch ∨ ch = 'Z'.toUInt8 ∨ ch = '?'.toUInt8

instance (ch : UInt8) : Decidable (IsLetter ch) := inferInstanceAs (Decidable (_ ∧ _))

instance (ch : UInt8) : Decidable (IsDigit ch) := inferInstanceAs (Decidable (_ ∧ _))

instance (ch : UInt8) : Decidable (IsStepByte ch) := inferInstanceAs (Decidable (_ ∨ _ ∨ _ ∨ _))

theorem not_isLetter_of_isDigit {ch : UInt8} (h : IsDigit ch) : ¬IsLetter ch := fun h' => by
  have h1 : 85 ≤ ch.toNat := h.1
  have h2 : ch.toNat ≤ 84 := h'.2
  omega

theorem isStepByte_save : IsStepByte 'Z'.toUInt8 := .inr (.inr (.inl rfl))

theorem not_isLetter_save : ¬IsLetter 'Z'.toUInt8 := by decide

theorem not_isDigit_save : ¬IsDigit 'Z'.toUInt8 := by decide

theorem letter_lt {ch : UInt8} (h : IsLetter ch) : (ch - 'A'.toUInt8).toNat < 20 := by
  rw [UInt8.toNat_sub_of_le _ _ h.1]
  have := h.2; change ch.toNat ≤ 84 at this; change ch.toNat - 65 < 20; omega

theorem digit_lt {ch : UInt8} (h : IsDigit ch) : (ch - 'U'.toUInt8).toNat < 5 := by
  rw [UInt8.toNat_sub_of_le _ _ h.1]
  have := h.2; change ch.toNat ≤ 89 at this; change ch.toNat - 85 < 5; omega

/-! ## One byte -/

theorem decodeByte_letter (d : Decoder) {ch : UInt8} (h : IsLetter ch) :
    decodeByte d ch =
      executeStep d.state (d.k * 20 + (ch - 'A'.toUInt8).toNat) >>= fun st => pure ⟨0, true, st⟩ := by
  rw [decodeByte, if_pos (show 'A'.toUInt8 ≤ ch ∧ ch ≤ 'T'.toUInt8 from h)]

theorem decodeByte_digit (d : Decoder) {ch : UInt8} (h : IsDigit ch) :
    decodeByte d ch =
      if d.k * 5 + 1 + (ch - 'U'.toUInt8).toNat ≥ u32Max / 20 - 1 then
        throw (.diag .proofMalformedVarint)
      else pure ⟨d.k * 5 + 1 + (ch - 'U'.toUInt8).toNat, false, d.state⟩ := by
  rw [decodeByte, if_neg (show ¬('A'.toUInt8 ≤ ch ∧ ch ≤ 'T'.toUInt8) from
    not_isLetter_of_isDigit h), if_pos (show 'U'.toUInt8 ≤ ch ∧ ch ≤ 'Y'.toUInt8 from h)]

theorem decodeByte_save (d : Decoder) :
    decodeByte d 'Z'.toUInt8 =
      if !d.canSave then throw (.diag .proofInvalidSave)
      else saveStep d.state >>= fun st => pure ⟨d.k, false, st⟩ := by
  rfl

/-- **What one byte does**: a letter ends a number and resets `k`, a digit continues one within
the bound, `Z` is honoured only when `can_save` is set, `?` always fails, and any other byte is
passed over. -/
theorem decodeByte_ok {d d' : Decoder} {ch : UInt8} (h : decodeByte d ch = .ok d') :
    (IsLetter ch ∧ d'.k = 0 ∧ d'.canSave = true) ∨
    (IsDigit ch ∧ d'.k = d.k * 5 + 1 + (ch - 'U'.toUInt8).toNat ∧ d'.k < u32Max / 20 - 1 ∧
      d'.canSave = false) ∨
    (ch = 'Z'.toUInt8 ∧ d.canSave = true ∧ d'.k = d.k ∧ d'.canSave = false) ∨
    (¬IsStepByte ch ∧ d' = d) := by
  unfold decodeByte at h
  split at h
  · obtain ⟨st, -, hst⟩ := bind_eq_ok h
    cases hst
    exact .inl ⟨‹_›, rfl, rfl⟩
  split at h
  · dsimp only at h
    split at h
    · cases h
    · cases h
      exact .inr (.inl ⟨‹_›, rfl, Nat.lt_of_not_le ‹_›, rfl⟩)
  split at h
  · split at h
    · cases h
    · obtain ⟨st, -, hst⟩ := bind_eq_ok h
      cases hst
      exact .inr (.inr (.inl ⟨‹_›, by simpa using ‹¬(!d.canSave) = true›, rfl, rfl⟩))
  split at h
  · split at h <;> cases h
  · cases h
    refine .inr (.inr (.inr ⟨?_, rfl⟩))
    unfold IsStepByte IsLetter IsDigit
    tauto

/-! ## Runs -/

theorem decodeChunk_append (d : Decoder) (xs ys : List UInt8) :
    decodeChunk d (xs ++ ys) = decodeChunk d xs >>= fun d' => decodeChunk d' ys := by
  induction xs generalizing d with
  | nil => rfl
  | cons x xs ih =>
    rw [List.cons_append, decodeChunk, decodeChunk, bind_assoc]
    simp only [ih]

theorem decodeChunks_eq (d : Decoder) (chunks : List Token) :
    decodeChunks d chunks = decodeChunk d chunks.flatten := by
  induction chunks generalizing d with
  | nil => rfl
  | cons c cs ih => simp only [decodeChunks, ih, List.flatten_cons, decodeChunk_append]

/-- The state after one more byte. -/
theorem decodeChunk_snoc {d d' : Decoder} {w : List UInt8} {ch : UInt8}
    (h : decodeChunk d (w ++ [ch]) = .ok d') :
    ∃ d₁, decodeChunk d w = .ok d₁ ∧ decodeByte d₁ ch = .ok d' := by
  rw [decodeChunk_append] at h
  obtain ⟨d₁, h₁, h₂⟩ := bind_eq_ok h
  obtain ⟨d₂, h₃, h₄⟩ := bind_eq_ok h₂
  cases h₄
  exact ⟨d₁, h₁, h₃⟩

/-! ## The value of a step number -/

/-- The value of the digits `U`..`Y` of a step number, read as bijective base 5 (`U` is 1). -/
def bij5Value (ds : List UInt8) : Nat :=
  ds.foldl (fun q d => q * 5 + 1 + (d - 'U'.toUInt8).toNat) 0

@[simp] theorem bij5Value_nil : bij5Value [] = 0 := rfl

theorem bij5Value_snoc (ds : List UInt8) (d : UInt8) :
    bij5Value (ds ++ [d]) = bij5Value ds * 5 + 1 + (d - 'U'.toUInt8).toNat := by
  simp [bij5Value, List.foldl_append]

/-- The digits of the number being read: those after the last letter. -/
def pendingDigits (w : List UInt8) : List UInt8 :=
  ((w.reverse.takeWhile fun b => !decide (IsLetter b)).reverse).filter fun b => decide (IsDigit b)

@[simp] theorem pendingDigits_nil : pendingDigits [] = [] := rfl

theorem pendingDigits_snoc (w : List UInt8) (ch : UInt8) :
    pendingDigits (w ++ [ch]) =
      if IsLetter ch then [] else if IsDigit ch then pendingDigits w ++ [ch] else pendingDigits w := by
  unfold pendingDigits
  by_cases hl : IsLetter ch
  · simp [hl]
  · by_cases hd : IsDigit ch <;> simp [hl, hd, List.filter_append]

/-- The decoder's number, read from `k = 0`, is the value of the pending digits, within the
bound of its check. -/
theorem decodeChunk_k {st : VerifyState} : ∀ {w : List UInt8} {d : Decoder},
    decodeChunk ⟨0, false, st⟩ w = .ok d → d.k = bij5Value (pendingDigits w) ∧ d.k ≤ 214748362 := by
  intro w
  induction w using List.reverseRecOn with
  | nil => intro d h; cases h; simp
  | append_singleton w ch ih =>
    intro d' h
    obtain ⟨d, hd, hch⟩ := decodeChunk_snoc h
    obtain ⟨hk, hb⟩ := ih hd
    rw [pendingDigits_snoc]
    rcases decodeByte_ok hch with ⟨hl, h0, -⟩ | ⟨hdg, hk', hlt, -⟩ | ⟨rfl, -, hk', -⟩ | ⟨hn, rfl⟩
    · simp [hl, h0]
    · rw [if_neg (not_isLetter_of_isDigit hdg), if_pos hdg, bij5Value_snoc, ← hk, hk']
      exact ⟨rfl, by unfold u32Max at hlt; omega⟩
    · rw [if_neg not_isLetter_save, if_neg not_isDigit_save, hk', hk]
      exact ⟨rfl, hk ▸ hb⟩
    · rw [if_neg fun h => hn (.inl h), if_neg fun h => hn (.inr (.inl h))]
      exact ⟨hk, hb⟩

/-- **Every state the decoder reaches has `k` exact and small**: `k` is the value of the digits
read since the last letter and at most `214748362`; the next digit makes it at most
`1073741815` and the next letter at most `4294967259`, both below `u32::MAX`, and that letter
runs the step whose number is the exact value of its digit string. -/
theorem decodeChunk_exact {st : VerifyState} {w : List UInt8} {d : Decoder}
    (h : decodeChunk ⟨0, false, st⟩ w = .ok d) :
    d.k = bij5Value (pendingDigits w) ∧ d.k ≤ 214748362 ∧
      (∀ ch, IsDigit ch → d.k * 5 + 1 + (ch - 'U'.toUInt8).toNat ≤ 1073741815) ∧
      (∀ ch, IsLetter ch → d.k * 20 + (ch - 'A'.toUInt8).toNat ≤ 4294967259 ∧
        decodeByte d ch =
          executeStep d.state (bij5Value (pendingDigits w) * 20 + (ch - 'A'.toUInt8).toNat) >>=
            fun st => pure ⟨0, true, st⟩) ∧
      1073741815 ≤ u32Max ∧ 4294967259 ≤ u32Max := by
  obtain ⟨hk, hb⟩ := decodeChunk_k h
  refine ⟨hk, hb, fun ch hd => ?_, fun ch hl => ⟨?_, ?_⟩, by decide, by decide⟩
  · have := digit_lt hd; omega
  · have := letter_lt hl; omega
  · rw [decodeByte_letter d hl, ← hk]

/-- The digits `UU` leave `k = 6`, the value of `UU`. -/
theorem decodeChunk_exact_UU :
    let w := ['U'.toUInt8, 'U'.toUInt8]
    let d : Decoder := ⟨6, false, VerifyState.empty⟩
    decodeChunk ⟨0, false, VerifyState.empty⟩ w = .ok d ∧
      (d.k = bij5Value (pendingDigits w) ∧ d.k ≤ 214748362 ∧
        (∀ ch, IsDigit ch → d.k * 5 + 1 + (ch - 'U'.toUInt8).toNat ≤ 1073741815) ∧
        (∀ ch, IsLetter ch → d.k * 20 + (ch - 'A'.toUInt8).toNat ≤ 4294967259 ∧
          decodeByte d ch =
            executeStep d.state (bij5Value (pendingDigits w) * 20 + (ch - 'A'.toUInt8).toNat) >>=
              fun st => pure ⟨0, true, st⟩) ∧
        1073741815 ≤ u32Max ∧ 4294967259 ≤ u32Max) :=
  ⟨rfl, decodeChunk_exact rfl⟩

/-! ## The grammar of step strings -/

/-- A step number, `[U-Y]*[A-T]`. -/
def IsNumber (n : List UInt8) : Prop :=
  ∃ ds ch, n = ds ++ [ch] ∧ (∀ d ∈ ds, IsDigit d) ∧ IsLetter ch

/-- The step strings `(N Z?)*`: step numbers, each optionally followed by `Z`. -/
inductive StepGrammar : List UInt8 → Prop
  | nil : StepGrammar []
  | number {w n : List UInt8} : StepGrammar w → IsNumber n → StepGrammar (w ++ n)
  | save {w n : List UInt8} : StepGrammar w → IsNumber n → StepGrammar (w ++ n ++ ['Z'.toUInt8])

/-- A step string ends with a letter or with `Z`. -/
theorem StepGrammar.last {w : List UInt8} (h : StepGrammar w) :
    w = [] ∨ ∃ u ch, w = u ++ [ch] ∧ (IsLetter ch ∨ ch = 'Z'.toUInt8) := by
  cases h with
  | nil => exact .inl rfl
  | @number w n _ hn =>
    obtain ⟨ds, ch, rfl, -, hl⟩ := hn
    exact .inr ⟨w ++ ds, ch, by simp, .inl hl⟩
  | save _ _ => exact .inr ⟨_, _, rfl, .inr rfl⟩

/-- What the decoder's state says of the step bytes read: after a letter (`can_save`), the bytes
are a step string followed by a number; with `k = 0` otherwise, a step string; with `k > 0`, a
step string followed by the digits of an unfinished number. -/
def DecodeInv (d : Decoder) (w : List UInt8) : Prop :=
  (d.canSave = true ∧ d.k = 0 ∧ ∃ u n, StepGrammar u ∧ IsNumber n ∧ w = u ++ n) ∨
  (d.canSave = false ∧ d.k = 0 ∧ StepGrammar w) ∨
  (d.canSave = false ∧ 0 < d.k ∧
    ∃ u ds, StepGrammar u ∧ ds ≠ [] ∧ (∀ x ∈ ds, IsDigit x) ∧ w = u ++ ds)

theorem DecodeInv.grammar {d : Decoder} {w : List UInt8} (h : DecodeInv d w) (hk : d.k = 0) :
    StepGrammar w := by
  rcases h with ⟨-, -, u, n, hu, hn, rfl⟩ | ⟨-, -, hw⟩ | ⟨-, hpos, -⟩
  · exact .number hu hn
  · exact hw
  · omega

/-- The step string read so far, up to a letter `ch` ending a number. -/
theorem DecodeInv.grammar_of_letter {d : Decoder} {w : List UInt8} (h : DecodeInv d w) {ch : UInt8}
    (hl : IsLetter ch) : ∃ u n, StepGrammar u ∧ IsNumber n ∧ w ++ [ch] = u ++ n := by
  rcases h with ⟨-, -, u, n, hu, hn, rfl⟩ | ⟨-, -, hw⟩ | ⟨-, -, u, ds, hu, -, hds, rfl⟩
  · exact ⟨u ++ n, [ch], .number hu hn, ⟨[], ch, rfl, by simp, hl⟩, rfl⟩
  · exact ⟨w, [ch], hw, ⟨[], ch, rfl, by simp, hl⟩, rfl⟩
  · exact ⟨u, ds ++ [ch], hu, ⟨ds, ch, rfl, hds, hl⟩, by simp⟩

/-- The step string read so far, up to a digit `ch` of an unfinished number. -/
theorem DecodeInv.grammar_of_digit {d : Decoder} {w : List UInt8} (h : DecodeInv d w) {ch : UInt8}
    (hd : IsDigit ch) : ∃ u ds, StepGrammar u ∧ ds ≠ [] ∧ (∀ x ∈ ds, IsDigit x) ∧
      w ++ [ch] = u ++ ds := by
  rcases h with ⟨-, -, u, n, hu, hn, rfl⟩ | ⟨-, -, hw⟩ | ⟨-, -, u, ds, hu, -, hds, rfl⟩
  · exact ⟨u ++ n, [ch], .number hu hn, by simp, by simpa using hd, rfl⟩
  · exact ⟨w, [ch], hw, by simp, by simpa using hd, rfl⟩
  · exact ⟨u, ds ++ [ch], hu, by simp, by simpa [or_imp, forall_and] using ⟨hds, hd⟩, by simp⟩

/-- **One byte keeps the invariant**, over the bytes the decoder does not pass over. -/
theorem DecodeInv.decodeByte {d d' : Decoder} {w : List UInt8} {ch : UInt8} (h : DecodeInv d w)
    (hch : decodeByte d ch = .ok d') :
    DecodeInv d' (w ++ [ch].filter fun b => decide (IsStepByte b)) := by
  rcases decodeByte_ok hch with ⟨hl, h0, hs⟩ | ⟨hd, hk, -, hs⟩ | ⟨rfl, hs, hk, hs'⟩ | ⟨hn, rfl⟩
  · rw [List.filter_singleton, decide_eq_true (show IsStepByte ch from .inl hl), cond_true]
    exact .inl ⟨hs, h0, h.grammar_of_letter hl⟩
  · rw [List.filter_singleton, decide_eq_true (show IsStepByte ch from .inr (.inl hd)),
      cond_true]
    exact .inr (.inr ⟨hs, by omega, h.grammar_of_digit hd⟩)
  · rw [List.filter_singleton, decide_eq_true isStepByte_save, cond_true]
    rcases h with ⟨-, h0, u, n, hu, hn, rfl⟩ | ⟨hc, -⟩ | ⟨hc, -⟩
    · exact .inr (.inl ⟨hs', hk.trans h0, .save hu hn⟩)
    · rw [hs] at hc; cases hc
    · rw [hs] at hc; cases hc
  · rw [List.filter_singleton, decide_eq_false hn, cond_false, List.append_nil]
    exact h

/-- The invariant over every run from `k = 0`. -/
theorem decodeChunk_decodeInv {st : VerifyState} : ∀ {w : List UInt8} {d : Decoder},
    decodeChunk ⟨0, false, st⟩ w = .ok d → DecodeInv d (w.filter fun b => decide (IsStepByte b)) := by
  intro w
  induction w using List.reverseRecOn with
  | nil => intro d h; cases h; exact .inr (.inl ⟨rfl, rfl, .nil⟩)
  | append_singleton w ch ih =>
    intro d' h
    obtain ⟨d, hd, hch⟩ := decodeChunk_snoc h
    rw [List.filter_append]
    exact (ih hd).decodeByte hch

/-- **A run from `k = 0` that leaves no number unfinished read a step string**, once the bytes
outside `A`..`Z` and `?` are removed. -/
theorem decodeChunk_grammar {st : VerifyState} {w : List UInt8} {d : Decoder}
    (h : decodeChunk ⟨0, false, st⟩ w = .ok d) (hk : d.k = 0) :
    StepGrammar (w.filter fun b => decide (IsStepByte b)) :=
  (decodeChunk_decodeInv h).grammar hk

end MetamathKnife.Verify
