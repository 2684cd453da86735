import MetamathKnife.Verify.Reference
import Mathlib.Data.List.Forall2

/-!
# Invariants of the verifier's state

The facts every reachable `VerifyState` keeps, and what each operation does to them:

* `StackRep`: the stack slots tile `stack_buffer` from its start, slot by slot, each holding the
  bytes of an entry, so that the buffer is the entries' bytes one after another
  (`StackRep.buf_eq`). A push appends a tile (`StackRep.push`); the truncation of `execute_step`
  keeps a prefix of the tiles and discards exactly the bytes of the rest (`StackRep.take_last`,
  `StackRep.truncate`); every slot's bytes can be read back (`StackRep.get`).
* `VarTable`: `var2bit` maps each interned token to its position, and `dv_map` has one row per
  interned token; `map_var` keeps this and never changes an index once given
  (`VarTable.mapVar`).
* `DvTable`: row `b₁` of `dv_map` holds `b₂` exactly when the two tokens form a `$d` pair;
  `registerDv` establishes it (`registerDv_dvTable`) and `map_var` keeps it.
* `EntryVars`: a bitset is the set of indices of the variables of a token list.
-/

namespace MetamathKnife.Verify

/-! ## The stack tiles its buffer -/

/-- The slots tile `buf`, slot `i` holding `bytes` of entry `i` and related to it by `R`. -/
inductive StackRep {ε : Type} (bytes : ε → List UInt8) (R : StackSlot → ε → Prop) :
    List StackSlot → List ε → List UInt8 → Prop
  | nil : StackRep bytes R [] [] []
  | push {ss es buf slot e} : StackRep bytes R ss es buf → R slot e →
      slot.expr = ⟨buf.length, buf.length + (bytes e).length⟩ →
      StackRep bytes R (ss ++ [slot]) (es ++ [e]) (buf ++ bytes e)

namespace StackRep

variable {ε : Type} {bytes : ε → List UInt8} {R : StackSlot → ε → Prop}
  {ss : List StackSlot} {es : List ε} {buf : List UInt8}

theorem length_eq (h : StackRep bytes R ss es buf) : ss.length = es.length := by
  induction h with
  | nil => rfl
  | push _ _ _ ih => simp [ih]

theorem mono {R' : StackSlot → ε → Prop} (h : StackRep bytes R ss es buf)
    (hR : ∀ s e, R s e → R' s e) : StackRep bytes R' ss es buf := by
  induction h with
  | nil => exact .nil
  | push _ hr hx ih => exact .push ih (hR _ _ hr) hx

theorem stop_le (h : StackRep bytes R ss es buf) :
    ∀ slot ∈ ss, slot.expr.start ≤ slot.expr.stop ∧ slot.expr.stop ≤ buf.length := by
  induction h with
  | nil => simp
  | push _ _ hx ih =>
    intro slot hs
    rcases List.mem_append.mp hs with hs | hs
    · have := ih slot hs; simp only [List.length_append]; omega
    · simp only [List.mem_singleton] at hs; subst hs; simp [hx]

/-- **Each slot holds its entry's bytes.** -/
theorem get (h : StackRep bytes R ss es buf) {i : Nat} {slot : StackSlot}
    (hs : ss[i]? = some slot) :
    ∃ e, es[i]? = some e ∧ R slot e ∧ slice buf slot.expr = .ok (bytes e) := by
  induction h generalizing i with
  | nil => simp at hs
  | @push ss es buf slot' e h hr hx ih =>
    have hlen := h.length_eq
    by_cases hi : i < ss.length
    · rw [List.getElem?_append_left hi] at hs
      obtain ⟨e', he, hr', hsl⟩ := ih hs
      refine ⟨e', by rw [List.getElem?_append_left (hlen ▸ hi)]; exact he, hr', ?_⟩
      rw [slice_append_left (h.stop_le slot (List.getElem?_mem hs)).2, hsl]
    · rw [List.getElem?_append_right (by omega)] at hs
      have hi' : i - ss.length = 0 := by
        cases h' : i - ss.length with
        | zero => rfl
        | succ n => rw [h'] at hs; simp at hs
      rw [hi'] at hs
      simp only [List.getElem?_cons_zero, Option.some.injEq] at hs
      subst hs
      refine ⟨e, ?_, hr, by rw [hx]; exact slice_append_right buf (bytes e)⟩
      rw [List.getElem?_append_right (by omega), show i - es.length = 0 by omega]
      rfl

/-- Every slot's range reads its entry's bytes. -/
theorem forall₂_slice (h : StackRep bytes R ss es buf) :
    List.Forall₂ (fun slot e => slice buf slot.expr = .ok (bytes e)) ss es := by
  induction h with
  | nil => exact .nil
  | @push ss es buf slot e _ _ hx ih =>
    refine List.rel_append (ih.imp fun s e' hs => ?_) (.cons ?_ .nil)
    · rw [slice_append_left (stop_le_of_slice_eq_ok hs), hs]
    · rw [hx]; exact slice_append_right buf (bytes e)

/-- **The buffer is the entries' bytes, one after another.** -/
theorem buf_eq (h : StackRep bytes R ss es buf) : buf = (es.map bytes).flatten := by
  induction h with
  | nil => rfl
  | push _ _ _ ih => simp [ih]

theorem buf_eq_nil (h : StackRep bytes R [] es buf) : buf = [] := by
  rw [h.buf_eq, List.length_eq_zero.mp h.length_eq.symm]
  rfl

/-- The bottom slot starts at 0. -/
theorem head_start (h : StackRep bytes R ss es buf) {slot : StackSlot} (hs : ss.head? = some slot) :
    slot.expr.start = 0 := by
  induction h with
  | nil => cases hs
  | @push ss es buf slot' e h _ hx ih =>
    cases ss with
    | nil =>
      simp only [List.nil_append, List.head?_cons, Option.some.injEq] at hs
      rw [← hs, hx, h.buf_eq_nil]
      rfl
    | cons a ss => exact ih (by simpa using hs)

/-- The top slot ends at the end of the buffer. -/
theorem getLast_stop (h : StackRep bytes R ss es buf) {slot : StackSlot}
    (hs : ss.getLast? = some slot) : slot.expr.stop = buf.length := by
  cases h with
  | nil => cases hs
  | push _ _ hx =>
    rw [List.getLast?_append_of_ne_nil _ (List.cons_ne_nil _ _), List.getLast?_singleton,
      Option.some.injEq] at hs
    simp [← hs, hx]

/-- Each slot ends where the one above it starts. -/
theorem stop_eq_start (h : StackRep bytes R ss es buf) {i : Nat} {a b : StackSlot}
    (ha : ss[i]? = some a) (hb : ss[i + 1]? = some b) : a.expr.stop = b.expr.start := by
  induction h generalizing i with
  | nil => cases ha
  | @push ss es buf slot e h _ hx ih =>
    have hi : i < ss.length := by
      have := (List.getElem?_eq_some_iff.mp hb).1
      simp only [List.length_append, List.length_singleton] at this
      omega
    rw [List.getElem?_append_left hi] at ha
    by_cases hi' : i + 1 < ss.length
    · rw [List.getElem?_append_left hi'] at hb
      exact ih ha hb
    · rw [List.getElem?_append_right (by omega), show i + 1 - ss.length = 0 by omega] at hb
      simp only [List.getElem?_cons_zero, Option.some.injEq] at hb
      rw [← hb, hx, h.getLast_stop (by rw [List.getLast?_eq_getElem?, ← ha]; congr 1; omega)]

/-- **Truncating to the end of slot `k - 1` keeps the first `k` tiles.** -/
theorem take_last (h : StackRep bytes R ss es buf) {k : Nat} (hk : 0 < k)
    (hk' : k ≤ ss.length) : ∃ slot, (ss.take k)[k - 1]? = some slot ∧
      StackRep bytes R (ss.take k) (es.take k) (buf.take slot.expr.stop) := by
  induction h with
  | nil => simp at hk'; omega
  | @push ss es buf slot e h hr hx ih =>
    have hlen := h.length_eq
    simp only [List.length_append, List.length_singleton] at hk'
    by_cases hks : k ≤ ss.length
    · obtain ⟨slot', hs', h'⟩ := ih hks
      refine ⟨slot', ?_, ?_⟩
      · rwa [List.take_append_of_le_length hks]
      · have hmem : slot' ∈ ss := List.mem_of_mem_take (List.getElem?_mem hs')
        rw [List.take_append_of_le_length hks, List.take_append_of_le_length (hlen ▸ hks),
          List.take_append_of_le_length (h.stop_le slot' hmem).2]
        exact h'
    · have hk1 : k = ss.length + 1 := by omega
      subst hk1
      refine ⟨slot, ?_, ?_⟩
      · rw [List.take_of_length_le (by simp)]
        simp [List.getElem?_append_right]
      · rw [List.take_of_length_le (by simp), List.take_of_length_le (by simp [hlen]), hx,
          List.take_of_length_le (by simp)]
        exact .push h hr hx

/-- **The truncation of `execute_step`**: cutting the buffer where slot `k - 1` ends (at 0 when
`k = 0`) keeps the first `k` tiles and discards exactly the bytes of the entries above them. -/
theorem truncate (h : StackRep bytes R ss es buf) {k newLen : Nat} (hk : k ≤ ss.length)
    (hnew : k = 0 ∧ newLen = 0 ∨ ∃ top, (ss.take k)[k - 1]? = some top ∧ newLen = top.expr.stop) :
    StackRep bytes R (ss.take k) (es.take k) (buf.take newLen) ∧
      buf.drop newLen = ((es.drop k).map bytes).flatten := by
  have hrep : StackRep bytes R (ss.take k) (es.take k) (buf.take newLen) := by
    rcases hnew with ⟨rfl, rfl⟩ | ⟨top, htop, rfl⟩
    · simpa using (StackRep.nil : StackRep bytes R [] [] [])
    · have hk0 : 0 < k := Nat.pos_of_ne_zero fun hk0 => by simp [hk0] at htop
      obtain ⟨slot, hs, h'⟩ := h.take_last hk0 hk
      rw [hs] at htop
      cases htop
      exact h'
  have hsplit : buf.take newLen ++ buf.drop newLen =
      buf.take newLen ++ ((es.drop k).map bytes).flatten := by
    rw [List.take_append_drop, hrep.buf_eq, ← List.flatten_append, ← List.map_append,
      List.take_append_drop, ← h.buf_eq]
  exact ⟨hrep, List.append_cancel_left hsplit⟩

end StackRep

/-! ## The variable table -/

theorem lookup_append_singleton (l : List (Token × Nat)) (k : Token) (b : Nat) (v : Token) :
    (l ++ [(k, b)]).lookup v = match l.lookup v with
      | some x => some x
      | none => if v = k then some b else none := by
  rw [List.lookup_append]
  cases l.lookup v with
  | some x => rfl
  | none => by_cases h : v = k <;> simp [List.lookup_cons, h, beq_false_of_ne]

/-- `var2bit` maps each interned token to its position, and `dv_map` has a row per token. -/
structure VarTable (st : VerifyState) : Prop where
  index : ∀ v b, st.var2bit.lookup v = some b → st.var2bit[b]? = some (v, b)
  dvMap_length : st.dvMap.length = st.var2bit.length

namespace VarTable

variable {st : VerifyState}

theorem lt_of_lookup (h : VarTable st) {v : Token} {b : Nat} (hv : st.var2bit.lookup v = some b) :
    b < st.dvMap.length := by
  rw [h.dvMap_length]
  exact (List.getElem?_eq_some_iff.mp (h.index v b hv)).1

theorem inj (h : VarTable st) {v w : Token} {b : Nat} (hv : st.var2bit.lookup v = some b)
    (hw : st.var2bit.lookup w = some b) : v = w := by
  have := (h.index v b hv).symm.trans (h.index w b hw)
  simp only [Option.some.injEq, Prod.mk.injEq, and_true] at this
  exact this

theorem lookup_lt_length (h : VarTable st) {v : Token} {b : Nat}
    (hv : st.var2bit.lookup v = some b) : b < st.var2bit.length :=
  h.dvMap_length ▸ h.lt_of_lookup hv

end VarTable

section MapVar

variable {st : VerifyState} {t : Token}

theorem mapVar_of_lookup {b : Nat} (h : st.var2bit.lookup t = some b) : mapVar st t = (st, b) := by
  simp [mapVar, h]

theorem mapVar_of_lookup_none (h : st.var2bit.lookup t = none) :
    mapVar st t = ({ st with var2bit := st.var2bit ++ [(t, st.var2bit.length)],
                             dvMap := st.dvMap ++ [Bitset.new] }, st.var2bit.length) := by
  simp [mapVar, h]

@[simp] theorem mapVar_prepared : (mapVar st t).1.prepared = st.prepared := by
  unfold mapVar; split <;> rfl

@[simp] theorem mapVar_prepBuffer : (mapVar st t).1.prepBuffer = st.prepBuffer := by
  unfold mapVar; split <;> rfl

@[simp] theorem mapVar_stack : (mapVar st t).1.stack = st.stack := by
  unfold mapVar; split <;> rfl

@[simp] theorem mapVar_stackBuffer : (mapVar st t).1.stackBuffer = st.stackBuffer := by
  unfold mapVar; split <;> rfl

theorem length_dvMap_mapVar_le : st.dvMap.length ≤ (mapVar st t).1.dvMap.length := by
  unfold mapVar; split <;> simp

theorem lookup_mapVar_of_lookup {v : Token} {b : Nat} (hv : st.var2bit.lookup v = some b) :
    (mapVar st t).1.var2bit.lookup v = some b := by
  unfold mapVar
  split
  · exact hv
  · simp [lookup_append_singleton, hv]

/-- A token `map_var` knows afterwards was known before, or is `t`, new. -/
theorem lookup_mapVar {v : Token} {b : Nat} (hv : (mapVar st t).1.var2bit.lookup v = some b) :
    st.var2bit.lookup v = some b ∨ (v = t ∧ st.var2bit.lookup t = none ∧
      b = st.var2bit.length) := by
  cases hl : st.var2bit.lookup t with
  | some ix => rw [mapVar_of_lookup hl] at hv; exact .inl hv
  | none =>
    rw [mapVar_of_lookup_none hl] at hv
    simp only [lookup_append_singleton] at hv
    cases hv' : st.var2bit.lookup v with
    | some x => rw [hv'] at hv; exact .inl hv
    | none =>
      rw [hv'] at hv
      by_cases hvt : v = t
      · subst hvt; simp at hv; exact .inr ⟨rfl, rfl, hv.symm⟩
      · simp [hvt] at hv

theorem VarTable.mapVar (h : VarTable st) (t : Token) : VarTable (mapVar st t).1 := by
  cases hl : st.var2bit.lookup t with
  | some ix => rw [mapVar_of_lookup hl]; exact h
  | none =>
    rw [mapVar_of_lookup_none hl]
    refine ⟨fun v b hv => ?_, by simp [h.dvMap_length]⟩
    have hv'' : (Verify.mapVar st t).1.var2bit.lookup v = some b := by
      rw [mapVar_of_lookup_none hl]; exact hv
    rcases lookup_mapVar hv'' with hv' | ⟨rfl, -, rfl⟩
    · rw [List.getElem?_append_left (h.lookup_lt_length hv')]
      exact h.index v b hv'
    · simp

theorem lookup_mapVar_self :
    (mapVar st t).1.var2bit.lookup t = some (mapVar st t).2 := by
  cases hl : st.var2bit.lookup t with
  | some ix => rw [mapVar_of_lookup hl]; exact hl
  | none => rw [mapVar_of_lookup_none hl]; simp [lookup_append_singleton, hl]

end MapVar

/-! ## The `$d` table -/

/-- `$d v1 v2` is one of `pairs`, in either order. -/
def DvIn (pairs : List (Token × Token)) (v1 v2 : Token) : Prop :=
  (v1, v2) ∈ pairs ∨ (v2, v1) ∈ pairs

theorem DvIn.symm {pairs : List (Token × Token)} {v1 v2 : Token} (h : DvIn pairs v1 v2) :
    DvIn pairs v2 v1 :=
  Or.symm h

/-- Every token of `pairs` is interned, and row `b₁` of `dv_map` holds `b₂` exactly when the
tokens of the two indices form a pair of `pairs`. -/
structure DvTable (pairs : List (Token × Token)) (st : VerifyState) : Prop where
  interned : ∀ p ∈ pairs, (∃ b, st.var2bit.lookup p.1 = some b) ∧ ∃ b, st.var2bit.lookup p.2 = some b
  row : ∀ v1 b1, st.var2bit.lookup v1 = some b1 → ∀ row, st.dvMap[b1]? = some row → ∀ b2,
    row.hasBit b2 = true ↔ ∃ v2, st.var2bit.lookup v2 = some b2 ∧ DvIn pairs v1 v2

theorem DvTable.interned_of_dvIn {pairs : List (Token × Token)} {st : VerifyState}
    (h : DvTable pairs st) {v1 v2 : Token} (hd : DvIn pairs v1 v2) :
    (∃ b, st.var2bit.lookup v1 = some b) ∧ ∃ b, st.var2bit.lookup v2 = some b := by
  rcases hd with hd | hd
  · exact h.interned _ hd
  · exact (h.interned _ hd).symm

/-- `map_var` keeps the `$d` table: a new token is in no pair, and its row is empty. -/
theorem DvTable.mapVar {pairs : List (Token × Token)} {st : VerifyState} (h : DvTable pairs st)
    (ht : VarTable st) (t : Token) : DvTable pairs (mapVar st t).1 := by
  cases hl : st.var2bit.lookup t with
  | some ix => rw [mapVar_of_lookup hl]; exact h
  | none =>
    have hnew : ∀ v, ¬DvIn pairs v t := fun v hd => by
      obtain ⟨b, hb⟩ := (h.interned_of_dvIn hd).2; rw [hl] at hb; cases hb
    have hlook := fun {v b} (hv : (Verify.mapVar st t).1.var2bit.lookup v = some b) =>
      lookup_mapVar hv
    refine ⟨fun p hp => ?_, fun v1 b1 hv1 row hrow b2 => ?_⟩
    · obtain ⟨⟨b, hb⟩, ⟨b', hb'⟩⟩ := h.interned p hp
      exact ⟨⟨b, lookup_mapVar_of_lookup hb⟩, ⟨b', lookup_mapVar_of_lookup hb'⟩⟩
    · rw [mapVar_of_lookup_none hl] at hrow
      rcases hlook hv1 with hv1' | ⟨rfl, -, rfl⟩
      · have hb1 := ht.lookup_lt_length hv1'
        rw [List.getElem?_append_left (ht.dvMap_length ▸ hb1)] at hrow
        rw [h.row v1 b1 hv1' row hrow b2]
        constructor
        · rintro ⟨v2, hv2, hd⟩; exact ⟨v2, lookup_mapVar_of_lookup hv2, hd⟩
        · rintro ⟨v2, hv2, hd⟩
          rcases hlook hv2 with hv2' | ⟨rfl, -, -⟩
          · exact ⟨v2, hv2', hd⟩
          · exact absurd hd (hnew v1)
      · rw [List.getElem?_append_right (by rw [ht.dvMap_length]), ht.dvMap_length,
          Nat.sub_self] at hrow
        simp only [List.getElem?_cons_zero, Option.some.injEq] at hrow
        subst hrow
        simp only [Bitset.hasBit_new, Bool.false_eq_true, false_iff, not_exists, not_and]
        intro v2 _ hd
        rcases hd with hd | hd
        · exact hnew v2 (.inr hd)
        · exact hnew v2 (.inl hd)

/-! ## Interning a list of variables -/

section MapVars

variable {st : VerifyState} {vars : Bitset} {vs : List Token}

@[simp] theorem mapVars_prepared : (mapVars st vars vs).1.prepared = st.prepared := by
  induction vs generalizing st vars with
  | nil => rfl
  | cons v vs ih => simp [mapVars, ih]

@[simp] theorem mapVars_prepBuffer : (mapVars st vars vs).1.prepBuffer = st.prepBuffer := by
  induction vs generalizing st vars with
  | nil => rfl
  | cons v vs ih => simp [mapVars, ih]

@[simp] theorem mapVars_stack : (mapVars st vars vs).1.stack = st.stack := by
  induction vs generalizing st vars with
  | nil => rfl
  | cons v vs ih => simp [mapVars, ih]

@[simp] theorem mapVars_stackBuffer : (mapVars st vars vs).1.stackBuffer = st.stackBuffer := by
  induction vs generalizing st vars with
  | nil => rfl
  | cons v vs ih => simp [mapVars, ih]

theorem lookup_mapVars_of_lookup {v : Token} {b : Nat} (hv : st.var2bit.lookup v = some b) :
    (mapVars st vars vs).1.var2bit.lookup v = some b := by
  induction vs generalizing st vars with
  | nil => exact hv
  | cons w vs ih => exact ih (lookup_mapVar_of_lookup hv)

theorem VarTable.mapVars (h : VarTable st) : VarTable (mapVars st vars vs).1 := by
  induction vs generalizing st vars with
  | nil => exact h
  | cons v vs ih => exact ih (h.mapVar v)

theorem DvTable.mapVars {pairs : List (Token × Token)} (h : DvTable pairs st) (ht : VarTable st) :
    DvTable pairs (mapVars st vars vs).1 := by
  induction vs generalizing st vars with
  | nil => exact h
  | cons v vs ih => exact ih (h.mapVar ht v) (ht.mapVar v)

/-- The bits `mapVars` sets are the indices of the tokens it interns. -/
theorem hasBit_mapVars (b : Nat) : (mapVars st vars vs).2.hasBit b = true ↔
    vars.hasBit b = true ∨ ∃ v ∈ vs, (mapVars st vars vs).1.var2bit.lookup v = some b := by
  induction vs generalizing st vars with
  | nil => simp [mapVars]
  | cons v vs ih =>
    have hv : (mapVars (mapVar st v).1 (vars.setBit (mapVar st v).2) vs).1.var2bit.lookup v =
        some (mapVar st v).2 := lookup_mapVars_of_lookup lookup_mapVar_self
    simp only [mapVars, ih, Bitset.hasBit_setBit, Bool.or_eq_true, decide_eq_true_eq,
      List.mem_cons, exists_eq_or_imp, hv, Option.some.injEq]
    tauto

theorem lookup_mapVars_of_mem {v : Token} (hv : v ∈ vs) :
    ∃ b, (mapVars st vars vs).1.var2bit.lookup v = some b := by
  induction vs generalizing st vars with
  | nil => cases hv
  | cons w vs ih =>
    rw [mapVars]
    rcases List.mem_cons.mp hv with rfl | hv
    · exact ⟨_, lookup_mapVars_of_lookup lookup_mapVar_self⟩
    · exact ih hv

end MapVars

/-! ## Registering the optional `$d` pairs -/

/-- `setDvBit` sets one bit of one row. -/
theorem setDvBit_of_lt {dvMap : List Bitset} {ix : Nat} (h : ix < dvMap.length) (bit : Nat) :
    ∃ dvMap', setDvBit dvMap ix bit = .ok dvMap' ∧ dvMap'.length = dvMap.length ∧
      ∀ b1 row', dvMap'[b1]? = some row' → ∃ row, dvMap[b1]? = some row ∧
        ∀ b2, row'.hasBit b2 = (row.hasBit b2 || (b1 == ix && b2 == bit)) := by
  refine ⟨dvMap.set ix (dvMap[ix].setBit bit), ?_, by simp, fun b1 row' hrow => ?_⟩
  · simp [setDvBit, getIdx_of_lt h, setIdx_of_lt h]
  · rw [List.getElem?_set] at hrow
    by_cases hb : ix = b1
    · subst hb
      simp only [if_true, h, Option.some.injEq] at hrow
      subst hrow
      refine ⟨_, List.getElem?_eq_getElem h, fun b2 => ?_⟩
      rw [Bitset.hasBit_setBit]
      by_cases h2 : b2 = bit <;> simp [h2, Ne.symm]
    · rw [if_neg hb] at hrow
      exact ⟨row', hrow, fun b2 => by simp [Ne.symm hb]⟩

/-- **Registering the optional `$d` pairs builds the `$d` table, without a panic.** -/
theorem registerDv_spec {st : VerifyState} {done : List (Token × Token)} (ht : VarTable st)
    (hd : DvTable done st) (pairs : List (Token × Token)) :
    ∃ st', registerDv st pairs = .ok st' ∧ VarTable st' ∧ DvTable (done ++ pairs) st' ∧
      st'.prepared = st.prepared ∧ st'.prepBuffer = st.prepBuffer ∧ st'.stack = st.stack ∧
      st'.stackBuffer = st.stackBuffer := by
  induction pairs generalizing st done with
  | nil => exact ⟨st, rfl, ht, by simpa using hd, rfl, rfl, rfl, rfl⟩
  | cons p pairs ih =>
    obtain ⟨x, y⟩ := p
    let st1 := (mapVar st x).1
    let st2 := (mapVar st1 y).1
    have ht1 : VarTable st1 := ht.mapVar x
    have ht2 : VarTable st2 := ht1.mapVar y
    have hx : st2.var2bit.lookup x = some (mapVar st x).2 :=
      lookup_mapVar_of_lookup lookup_mapVar_self
    have hy : st2.var2bit.lookup y = some (mapVar st1 y).2 := lookup_mapVar_self
    obtain ⟨m3, h3, hl3, hr3⟩ := setDvBit_of_lt (ht2.lt_of_lookup hx) (mapVar st1 y).2
    obtain ⟨m4, h4, hl4, hr4⟩ := setDvBit_of_lt (hl3 ▸ ht2.lt_of_lookup hy) (mapVar st x).2
    have hd2 : DvTable done st2 := (hd.mapVar ht x).mapVar ht1 y
    have ht3 : VarTable { st2 with dvMap := m4 } := ⟨ht2.index, by simp [hl4, hl3, ht2.dvMap_length]⟩
    have hd3 : DvTable (done ++ [(x, y)]) { st2 with dvMap := m4 } := by
      refine ⟨fun q hq => ?_, fun v1 b1 hv1 row hrow b2 => ?_⟩
      · rcases List.mem_append.mp hq with hq | hq
        · exact hd2.interned q hq
        · simp only [List.mem_singleton] at hq; subst hq; exact ⟨⟨_, hx⟩, ⟨_, hy⟩⟩
      · obtain ⟨row3, hrow3, hb4⟩ := hr4 b1 row hrow
        obtain ⟨row2, hrow2, hb3⟩ := hr3 b1 row3 hrow3
        simp only at hv1
        rw [hb4, hb3, Bool.or_eq_true, Bool.or_eq_true, hd2.row v1 b1 hv1 row2 hrow2 b2]
        simp only [Bool.and_eq_true, beq_iff_eq, DvIn, List.mem_append, List.mem_singleton,
          Prod.mk.injEq]
        constructor
        · rintro ((⟨v2, hv2, hd⟩ | ⟨rfl, rfl⟩) | ⟨rfl, rfl⟩)
          · exact ⟨v2, hv2, hd.elim (fun h => .inl (.inl h)) (fun h => .inr (.inl h))⟩
          · exact ⟨y, hy, .inl (.inr ⟨ht2.inj hv1 hx, rfl⟩)⟩
          · exact ⟨x, hx, .inr (.inr ⟨rfl, ht2.inj hv1 hy⟩)⟩
        · rintro ⟨v2, hv2, (h | ⟨rfl, rfl⟩) | (h | ⟨rfl, rfl⟩)⟩
          · exact .inl (.inl ⟨v2, hv2, .inl h⟩)
          · rw [hv1] at hx; rw [hv2] at hy; cases hx; cases hy; exact .inl (.inr ⟨rfl, rfl⟩)
          · exact .inl (.inl ⟨v2, hv2, .inr h⟩)
          · rw [hv1] at hy; rw [hv2] at hx; cases hx; cases hy; exact .inr ⟨rfl, rfl⟩
    obtain ⟨st', hst', ht', hd', h1, h2, h3', h4'⟩ := ih ht3 hd3
    refine ⟨st', ?_, ht', by simpa using hd', by simp [h1, st2, st1], by simp [h2, st2, st1],
      by simp [h3', st2, st1], by simp [h4', st2, st1]⟩
    simp only [registerDv, h3, h4, ok_bind]
    exact hst'

/-! ## Variable sets -/

/-- `vars` is the set of the indices of the variables of `ts`, all interned; no token of `ts`
has a space. -/
structure EntryVars (isVar : Token → Bool) (var2bit : List (Token × Nat)) (vars : Bitset)
    (ts : List Token) : Prop where
  spaceFree : SpaceFree ts
  interned : ∀ v ∈ ts, isVar v = true → ∃ b, var2bit.lookup v = some b
  bits : ∀ b, vars.hasBit b = true ↔ ∃ v ∈ ts, isVar v = true ∧ var2bit.lookup v = some b

/-- Interning more tokens keeps a variable set: its tokens keep their indices. -/
theorem EntryVars.mono {isVar : Token → Bool} {l l' : List (Token × Nat)} {vars : Bitset}
    {ts : List Token} (h : EntryVars isVar l vars ts)
    (hl : ∀ v b, l.lookup v = some b → l'.lookup v = some b) : EntryVars isVar l' vars ts := by
  refine ⟨h.spaceFree, fun v hv hvar => ?_, fun b => ?_⟩
  · obtain ⟨b, hb⟩ := h.interned v hv hvar
    exact ⟨b, hl v b hb⟩
  · rw [h.bits]
    constructor
    · rintro ⟨v, hv, hvar, hb⟩; exact ⟨v, hv, hvar, hl v b hb⟩
    · rintro ⟨v, hv, hvar, hb⟩
      obtain ⟨b', hb'⟩ := h.interned v hv hvar
      rw [hl v b' hb'] at hb
      cases hb
      exact ⟨v, hv, hvar, hb'⟩

end MetamathKnife.Verify
