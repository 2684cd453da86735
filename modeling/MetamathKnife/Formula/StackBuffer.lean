import MetamathKnife.Formula.Tree
import MetamathKnife.Verify.Simulation

/-!
# The stack buffer format of formulas

`FormulaRef::append_to_stack_buffer` writes the symbols a formula flattens to, each as its
bytes with the high bit `0x80` set on its last byte, and says that this is the format of the
verifier's buffers. The verifier's `finalize_step` compares the proof's last stack entry with
the target as `do_substitute_raw` writes it, and that function ends every variable with a
space.

* `appendToStackBuffer_eq`: on symbols with non-empty names, `append_to_stack_buffer` appends
  `canonicalEncoding` of the names and returns the range it wrote;
* `appendToStackBuffer_decode`: that format can be read back, the tokens being the runs of
  bytes ending at a byte with the high bit set, when no name has that bit set;
* `doSubstituteRaw_spaced`: the verifier writes the target in its own format, every token
  followed by a space, and for a target with a variable that is never the bytes
  `append_to_stack_buffer` writes, over names without spaces: the byte after the variable is a
  space in the one and the high bit is set on the variable's last byte in the other.
-/

namespace MetamathKnife

open Verify (Fault Token ExprFragment Range space doSubstituteRaw ok_bind bind_eq_ok)

/-! ## The format -/

/-- The format the spec names: a token's bytes, the high bit set on its last byte. -/
def markToken (t : Token) : List UInt8 := t.dropLast ++ (t.getLast?.map (· ||| 0x80)).toList

/-- The format the spec names: the tokens, each marked on its last byte. -/
def canonicalEncoding (ts : List Token) : List UInt8 := ts.flatMap markToken

@[simp] theorem canonicalEncoding_nil : canonicalEncoding [] = [] := rfl

@[simp] theorem canonicalEncoding_cons (t : Token) (ts : List Token) :
    canonicalEncoding (t :: ts) = markToken t ++ canonicalEncoding ts := rfl

/-- Bit 7 of a byte. -/
def highBit (b : UInt8) : Bool := b.toBitVec.getLsbD 7

theorem highBit_or_0x80 (b : UInt8) : highBit (b ||| 0x80) = true := by
  have h : (0x80 : UInt8).toBitVec.getLsbD 7 = true := by decide
  simp only [highBit, show (b ||| 0x80).toBitVec = b.toBitVec ||| (0x80 : UInt8).toBitVec from rfl,
    BitVec.getLsbD_or, h, Bool.or_true]

theorem highBit_space : highBit space = false := by decide

theorem or_0x80_ne_space (b : UInt8) : b ||| 0x80 ≠ space := fun h => by
  have := highBit_or_0x80 b
  rw [h, highBit_space] at this
  exact Bool.noConfusion this

theorem space_not_mem_markToken {t : Token} (ht : space ∉ t) : space ∉ markToken t := by
  simp only [markToken, List.mem_append, Option.mem_toList, Option.mem_def, Option.map_eq_some',
    not_or, not_exists, not_and]
  exact ⟨fun h => ht (List.dropLast_subset t h), fun b _ h => or_0x80_ne_space b h⟩

theorem space_not_mem_canonicalEncoding {ts : List Token} (hts : ∀ t ∈ ts, space ∉ t) :
    space ∉ canonicalEncoding ts := by
  simp only [canonicalEncoding, List.mem_flatMap, not_exists, not_and]
  exact fun t ht => space_not_mem_markToken (hts t ht)

/-! ## `append_to_stack_buffer` -/

/-- `*stack_buffer.last_mut().unwrap() |= 0x80`: `unwrap` panics on an empty buffer. -/
def markLast (buf : List UInt8) : Except Fault (List UInt8) :=
  match buf.getLast? with
  | some b => pure (buf.dropLast ++ [b ||| 0x80])
  | none => throw .panic

/-- The loop of `append_to_stack_buffer`: each symbol's name appended, then marked. -/
def appendSymbols (atomName : Atom → Token) : List Atom → List UInt8 → Except Fault (List UInt8)
  | [], stackBuffer => pure stackBuffer
  | symbol :: symbols, stackBuffer => do
    let stackBuffer ← markLast (stackBuffer ++ atomName symbol)
    appendSymbols atomName symbols stackBuffer

/-- `FormulaRef::append_to_stack_buffer`, over the symbols `for symbol in self` visits (the
formula flattened with the database's syntax axioms); `atomName` is `nset.atom_name`. -/
def appendToStackBuffer (atomName : Atom → Token) (symbols : List Atom)
    (stackBuffer : List UInt8) : Except Fault (List UInt8 × Range) := do
  let tos := stackBuffer.length
  let stackBuffer ← appendSymbols atomName symbols stackBuffer
  let nTos := stackBuffer.length
  pure (stackBuffer, ⟨tos, nTos⟩)

theorem markLast_append (buf : List UInt8) {t : Token} (ht : t ≠ []) :
    markLast (buf ++ t) = .ok (buf ++ markToken t) := by
  obtain ⟨b, hb⟩ := Option.ne_none_iff_exists'.mp (mt List.getLast?_eq_none_iff.mp ht)
  rw [markLast, List.getLast?_append, hb, Option.or_some, List.dropLast_append_of_ne_nil _ ht,
    markToken, hb]
  simp

theorem appendSymbols_eq (atomName : Atom → Token) {symbols : List Atom}
    (hne : ∀ s ∈ symbols, atomName s ≠ []) (stackBuffer : List UInt8) :
    appendSymbols atomName symbols stackBuffer =
      .ok (stackBuffer ++ canonicalEncoding (symbols.map atomName)) := by
  induction symbols generalizing stackBuffer with
  | nil => simp [appendSymbols]
  | cons s symbols ih =>
    rw [appendSymbols, markLast_append _ (hne s (List.mem_cons_self _ _)), ok_bind,
      ih (fun s' hs' => hne s' (List.mem_cons_of_mem _ hs'))]
    simp

/-- **`append_to_stack_buffer` writes the format**: on symbols with non-empty names it appends
their canonical encoding and returns the range it occupies. -/
theorem appendToStackBuffer_eq (atomName : Atom → Token) {symbols : List Atom}
    (hne : ∀ s ∈ symbols, atomName s ≠ []) (stackBuffer : List UInt8) :
    appendToStackBuffer atomName symbols stackBuffer =
      .ok (stackBuffer ++ canonicalEncoding (symbols.map atomName),
        ⟨stackBuffer.length, (stackBuffer ++ canonicalEncoding (symbols.map atomName)).length⟩) := by
  rw [appendToStackBuffer, appendSymbols_eq atomName hne, ok_bind]
  rfl

theorem slice_appendToStackBuffer (atomName : Atom → Token) {symbols : List Atom}
    (hne : ∀ s ∈ symbols, atomName s ≠ []) (stackBuffer : List UInt8) :
    ∃ buf r, appendToStackBuffer atomName symbols stackBuffer = .ok (buf, r) ∧
      Verify.slice buf r = .ok (canonicalEncoding (symbols.map atomName)) := by
  refine ⟨_, _, appendToStackBuffer_eq atomName hne stackBuffer, ?_⟩
  rw [Verify.slice, if_pos (by simp), List.take_length, List.drop_left]

/-! ## Reading the format back -/

/-- Reading the format back: each run of bytes up to one with the high bit set is a token, that
bit cleared; bytes after the last such byte are dropped. -/
def decodeCanonical (acc : List UInt8) : List UInt8 → List Token
  | [] => []
  | b :: bs =>
    if highBit b then (acc ++ [b &&& 0x7f]) :: decodeCanonical [] bs
    else decodeCanonical (acc ++ [b]) bs

theorem or_0x80_and_0x7f {b : UInt8} (h : highBit b = false) : (b ||| 0x80) &&& 0x7f = b := by
  apply UInt8.eq_of_toBitVec_eq
  apply BitVec.eq_of_getLsbD_eq
  rintro ⟨i, hi⟩
  show ((b.toBitVec ||| (0x80 : UInt8).toBitVec) &&& (0x7f : UInt8).toBitVec).getLsbD i = _
  rw [BitVec.getLsbD_and, BitVec.getLsbD_or]
  rw [highBit] at h
  rcases i with _ | _ | _ | _ | _ | _ | _ | _ | i <;> simp [h] at hi ⊢

theorem markToken_concat (init : Token) (b : UInt8) :
    markToken (init ++ [b]) = init ++ [b ||| 0x80] := by
  simp [markToken]

theorem decodeCanonical_append_plain (acc : List UInt8) {bs : List UInt8}
    (h : ∀ b ∈ bs, highBit b = false) (rest : List UInt8) :
    decodeCanonical acc (bs ++ rest) = decodeCanonical (acc ++ bs) rest := by
  induction bs generalizing acc with
  | nil => rw [List.nil_append, List.append_nil]
  | cons b bs ih =>
    rw [List.cons_append, decodeCanonical, if_neg (by simp [h b (List.mem_cons_self _ _)]),
      ih _ fun b' hb' => h b' (List.mem_cons_of_mem _ hb'), List.append_assoc, List.singleton_append]

theorem decodeCanonical_markToken (acc : List UInt8) {t : Token} (ht : t ≠ [])
    (h : ∀ b ∈ t, highBit b = false) (rest : List UInt8) :
    decodeCanonical acc (markToken t ++ rest) = (acc ++ t) :: decodeCanonical [] rest := by
  obtain ⟨init, b, rfl⟩ := (List.eq_nil_or_concat t).resolve_left ht
  rw [List.concat_eq_append] at h ⊢
  have hb : highBit b = false := h b (by simp)
  rw [markToken_concat, List.append_assoc,
    decodeCanonical_append_plain _ (fun b' hb' => h b' (List.mem_append_left _ hb')),
    List.singleton_append, decodeCanonical, if_pos (highBit_or_0x80 b), or_0x80_and_0x7f hb,
    List.append_assoc]

theorem decodeCanonical_canonicalEncoding {ts : List Token}
    (h : ∀ t ∈ ts, t ≠ [] ∧ ∀ b ∈ t, highBit b = false) :
    decodeCanonical [] (canonicalEncoding ts) = ts := by
  induction ts with
  | nil => rfl
  | cons t ts ih =>
    have ht := h t (List.mem_cons_self _ _)
    rw [canonicalEncoding_cons, decodeCanonical_markToken _ ht.1 ht.2, List.nil_append,
      ih fun t' ht' => h t' (List.mem_cons_of_mem _ ht')]

theorem space_mem_doSubstituteRaw {vars : List Token} :
    ∀ {tail : List ExprFragment} {temp : List UInt8}, (∃ ix, .var ix ∈ tail) →
      doSubstituteRaw vars tail = .ok temp → space ∈ temp
  | [], _, ⟨_, h⟩, _ => nomatch h
  | .var ix :: tail, temp, _, h => by
    rw [doSubstituteRaw] at h
    obtain ⟨v, -, h⟩ := bind_eq_ok h
    obtain ⟨rest, -, h⟩ := bind_eq_ok h
    cases h
    simp
  | .constant c :: tail, temp, ⟨ix, hix⟩, h => by
    rw [doSubstituteRaw] at h
    obtain ⟨rest, hr, h⟩ := bind_eq_ok h
    cases h
    exact List.mem_append_right _ (space_mem_doSubstituteRaw ⟨ix, by simpa using hix⟩ hr)

/-- **The verifier's final check and the formula layer write two formats**: whenever the
target has a variable, the bytes `do_substitute_raw` writes (a space after the variable) are
not the bytes `append_to_stack_buffer` writes for any symbols whose names have no space, those
of the target included. -/
theorem doSubstituteRaw_ne_appendToStackBuffer {atomName : Atom → Token} {vars : List Token}
    {tail : List ExprFragment} {symbols : List Atom} {stackBuffer temp buf : List UInt8}
    {r : Range} (hvar : ∃ ix, .var ix ∈ tail) (hne : ∀ s ∈ symbols, atomName s ≠ [])
    (hspace : ∀ s ∈ symbols, space ∉ atomName s)
    (htemp : doSubstituteRaw vars tail = .ok temp)
    (hbuf : appendToStackBuffer atomName symbols stackBuffer = .ok (buf, r)) :
    Verify.slice buf r ≠ .ok temp := by
  obtain ⟨buf', r', hbuf', hslice⟩ := slice_appendToStackBuffer atomName hne stackBuffer
  rw [hbuf] at hbuf'
  cases hbuf'
  rw [hslice]
  intro h
  cases h
  exact space_not_mem_canonicalEncoding (by simpa using hspace) (space_mem_doSubstituteRaw hvar htemp)

/-- **The verifier compares in its own format**: over a target whose constant fragments are
space-terminated tokens and whose variables are mandatory variables, `do_substitute_raw` writes
the target's tokens, each followed by a space; when the target has a variable, those bytes are
never the range `append_to_stack_buffer` writes for symbols whose names are non-empty and hold
no space. -/
theorem doSubstituteRaw_spaced {vars : List Token} {tail : List ExprFragment}
    (hlt : ∀ ix, .var ix ∈ tail → ix < vars.length)
    (hc : ∀ c, .constant c ∈ tail → Verify.Spaced c) :
    doSubstituteRaw vars tail = .ok (Verify.spaced (Verify.refSubst (fun ix => [vars.getD ix []]) tail)) ∧
    ((∃ ix, .var ix ∈ tail) → ∀ (atomName : Atom → Token) (symbols : List Atom)
      (stackBuffer buf : List UInt8) (r : Range),
      (∀ s ∈ symbols, atomName s ≠ []) → (∀ s ∈ symbols, space ∉ atomName s) →
      appendToStackBuffer atomName symbols stackBuffer = .ok (buf, r) →
      Verify.slice buf r ≠ .ok (Verify.spaced (Verify.refSubst (fun ix => [vars.getD ix []]) tail))) :=
  have htemp := Verify.doSubstituteRaw_spec hlt hc
  ⟨htemp, fun hvar _ _ _ _ _ hne hspace hbuf =>
    doSubstituteRaw_ne_appendToStackBuffer hvar hne hspace htemp hbuf⟩

/-- The target `( ph -> ( ps -> ph ) )` of `ax-1` under its mandatory variables `ph`, `ps`. -/
theorem ax1_target_spaced :
    (∀ ix, .var ix ∈ Verify.exampleTarget.tail →
      ix < [Verify.tokenOf "ph", Verify.tokenOf "ps"].length) ∧
    (∀ c, .constant c ∈ Verify.exampleTarget.tail → Verify.Spaced c) ∧
    doSubstituteRaw [Verify.tokenOf "ph", Verify.tokenOf "ps"] Verify.exampleTarget.tail =
      .ok (Verify.spaced (Verify.refSubst (fun ix => [[Verify.tokenOf "ph", Verify.tokenOf "ps"].getD ix []])
        Verify.exampleTarget.tail)) ∧
    ((∃ ix, .var ix ∈ Verify.exampleTarget.tail) → ∀ (atomName : Atom → Token) (symbols : List Atom)
      (stackBuffer buf : List UInt8) (r : Range),
      (∀ s ∈ symbols, atomName s ≠ []) → (∀ s ∈ symbols, space ∉ atomName s) →
      appendToStackBuffer atomName symbols stackBuffer = .ok (buf, r) →
      Verify.slice buf r ≠ .ok (Verify.spaced (Verify.refSubst
        (fun ix => [[Verify.tokenOf "ph", Verify.tokenOf "ps"].getD ix []]) Verify.exampleTarget.tail))) :=
  by
  refine ⟨?hlt, ?hc, doSubstituteRaw_spaced ?hlt ?hc⟩
  · simp [Verify.exampleTarget]
  · simp only [Verify.exampleTarget, List.mem_cons, ExprFragment.constant.injEq, reduceCtorEq,
      List.mem_nil_iff, false_or, or_false, forall_eq_or_imp, forall_eq]
    decide

/-- The target `ph` of a frame whose mandatory variable is `ph`, and the formula `ph`: the
verifier writes `ph` and a space, the formula layer `ph` with the high bit set on `h`. -/
theorem ph_target_formats_differ :
    doSubstituteRaw [Verify.tokenOf "ph"] [.var 0] = .ok (Verify.tokenOf "ph" ++ [space]) ∧
    appendToStackBuffer (fun _ => Verify.tokenOf "ph") [0] [] =
      .ok (markToken (Verify.tokenOf "ph"), ⟨0, 2⟩) ∧
    Verify.slice (markToken (Verify.tokenOf "ph")) ⟨0, 2⟩ ≠ .ok (Verify.tokenOf "ph" ++ [space]) :=
  ⟨rfl, rfl, @doSubstituteRaw_ne_appendToStackBuffer (fun _ => Verify.tokenOf "ph")
    [Verify.tokenOf "ph"] [.var 0] [0] [] _ _ _ ⟨0, List.mem_singleton_self _⟩ (by decide)
    (by decide) rfl rfl⟩

end MetamathKnife
