import MetamathKnife.Verify.Invariant

/-!
# Applying an assertion: the substitution passes

`execute_step` applies an assertion in passes over the slots it pops: the `$f` loop
(`checkFloats`) reads the substitution off the floating hypotheses into `subst_vars` and
`subst_exprs`, the `$e` loop (`checkEssentials`) compares each essential hypothesis under the
substitution with its slot, `do_substitute` and `do_substitute_vars` build the conclusion's
bytes and variable set, and the `$d` loop (`checkDv`) checks the mandatory `$d` pairs.

Each pass is matched with its part of the reference machine's `refExec`. While the stack holds
the reference entries (`SlotRep`) and `subst_vars` and `subst_exprs` hold the substitution `σ`
(`SubstRep`), a pass returns a diagnostic exactly when its part of the check fails, and never
panics:

* `checkFloats_spec`: the floating hypotheses' typecodes, and `σ` is `refFloats`;
* `checkEssentials_spec`: the essential hypotheses under `σ`;
* `doSubstitute_spec`, `doSubstituteVars_entryVars`: the conclusion under `σ`;
* `checkDv_spec`: the mandatory `$d` pairs, `DvOk`.
-/

namespace MetamathKnife.Verify

/-! ## Checks -/

/-- A check that succeeds when `P` holds and returns a diagnostic when it does not. -/
def Checks (P : Prop) (r : Except Fault Unit) : Prop := (P → r = .ok ()) ∧ (¬P → IsDiag r)

namespace Checks

variable {P Q : Prop} {x y : Except Fault Unit}

theorem of_iff (h : Checks P x) (hpq : P ↔ Q) : Checks Q x :=
  ⟨fun hq => h.1 (hpq.mpr hq), fun hq => h.2 (mt hpq.mp hq)⟩

theorem bind (hx : Checks P x) (hy : Checks Q y) : Checks (P ∧ Q) (x >>= fun _ => y) := by
  refine ⟨fun ⟨hp, hq⟩ => by rw [hx.1 hp, ok_bind, hy.1 hq], fun h => ?_⟩
  by_cases hp : P
  · rw [hx.1 hp, ok_bind]
    exact hy.2 fun hq => h ⟨hp, hq⟩
  · exact (hx.2 hp).bind _

/-- `if !b { return Some(d) }`. -/
theorem guard (b : Bool) (d : Diagnostic) :
    Checks (b = true) (if (!b) = true then throw (.diag d) else pure ()) := by
  cases b
  · exact ⟨fun h => (nomatch h), fun _ => ⟨d, rfl⟩⟩
  · exact ⟨fun _ => rfl, fun h => absurd rfl h⟩

/-- A loop of checks checks every element. -/
theorem forM {α : Type} {f : α → Except Fault Unit} {p : α → Prop} :
    ∀ {l : List α}, (∀ a ∈ l, Checks (p a) (f a)) → Checks (∀ a ∈ l, p a) (l.forM f)
  | [], _ => ⟨fun _ => rfl, fun h => absurd (fun a ha => nomatch ha) h⟩
  | a :: l, h => by
    rw [List.forM_cons']
    exact ((h a (List.mem_cons_self a l)).bind
      (forM fun b hb => h b (List.mem_cons_of_mem a hb))).of_iff List.forall_mem_cons.symm

end Checks

/-! ## What the stack and the substitution hold -/

/-- A stack slot holds a reference entry: its typecode, and the set of its variables. -/
structure SlotRep (isVar : Token → Bool) (var2bit : List (Token × Nat)) (slot : StackSlot)
    (e : RefEntry) : Prop where
  code : slot.code = e.1
  vars : EntryVars isVar var2bit slot.vars e.2

theorem SlotRep.mono {isVar : Token → Bool} {l l' : List (Token × Nat)} {slot : StackSlot}
    {e : RefEntry} (h : SlotRep isVar l slot e)
    (hl : ∀ v b, l.lookup v = some b → l'.lookup v = some b) : SlotRep isVar l' slot e :=
  ⟨h.code, h.vars.mono hl⟩

/-- The stack holds the entries `rs`, its slots tiling `buf` with their bytes. -/
abbrev StackHolds (isVar : Token → Bool) (var2bit : List (Token × Nat)) (stack : List StackSlot)
    (rs : List RefEntry) (buf : List UInt8) : Prop :=
  StackRep (fun e : RefEntry => spaced e.2) (SlotRep isVar var2bit) stack rs buf

/-- `subst_vars` and `subst_exprs` hold the substitution `σ` of `n` mandatory variables:
variable `ix`'s set, and the range of its bytes in `buf`. -/
structure SubstRep (isVar : Token → Bool) (var2bit : List (Token × Nat)) (buf : List UInt8)
    (n : Nat) (sv : List Bitset) (se : List Range) (σ : Nat → List Token) : Prop where
  length_vars : sv.length = n
  length_exprs : se.length = n
  vars : ∀ ix v, sv[ix]? = some v → EntryVars isVar var2bit v (σ ix)
  exprs : ∀ ix r, se[ix]? = some r → slice buf r = .ok (spaced (σ ix))

section Subst

variable {isVar : Token → Bool} {var2bit : List (Token × Nat)} {buf : List UInt8} {n : Nat}
  {sv : List Bitset} {se : List Range} {σ : Nat → List Token}

/-- The empty substitution of `execute_step`'s `resize`s. -/
theorem SubstRep.init (isVar : Token → Bool) (var2bit : List (Token × Nat)) (buf : List UInt8)
    (n : Nat) : SubstRep isVar var2bit buf n (List.replicate n Bitset.new)
      (List.replicate n ⟨0, 0⟩) fun _ => [] := by
  refine ⟨by simp, by simp, fun ix v hv => ?_, fun ix r hr => ?_⟩
  · rw [List.getElem?_replicate] at hv
    split at hv <;> cases hv
    exact ⟨fun _ h => (nomatch h), fun _ h => (nomatch h), by simp⟩
  · rw [List.getElem?_replicate] at hr
    split at hr <;> cases hr
    simp [slice]

theorem SubstRep.set (h : SubstRep isVar var2bit buf n sv se σ) {ix : Nat} (hix : ix < n)
    {v : Bitset} {r : Range} {ts : List Token} (hv : EntryVars isVar var2bit v ts)
    (hr : slice buf r = .ok (spaced ts)) :
    SubstRep isVar var2bit buf n (sv.set ix v) (se.set ix r) (Function.update σ ix ts) := by
  refine ⟨by simp [h.length_vars], by simp [h.length_exprs], fun j w hw => ?_, fun j q hq => ?_⟩
  · rw [List.getElem?_set] at hw
    by_cases hj : ix = j
    · subst hj
      simp only [if_true, h.length_vars, hix, Option.some.injEq] at hw
      subst hw
      simpa using hv
    · rw [if_neg hj] at hw
      simpa [Function.update_noteq (Ne.symm hj)] using h.vars j w hw
  · rw [List.getElem?_set] at hq
    by_cases hj : ix = j
    · subst hj
      simp only [if_true, h.length_exprs, hix, Option.some.injEq] at hq
      subst hq
      simpa using hr
    · rw [if_neg hj] at hq
      simpa [Function.update_noteq (Ne.symm hj)] using h.exprs j q hq

theorem SubstRep.getVars (h : SubstRep isVar var2bit buf n sv se σ) {ix : Nat} (hix : ix < n) :
    ∃ v, sv[ix]? = some v ∧ EntryVars isVar var2bit v (σ ix) := by
  have hix' : ix < sv.length := h.length_vars ▸ hix
  exact ⟨sv[ix], List.getElem?_eq_getElem hix', h.vars ix _ (List.getElem?_eq_getElem hix')⟩

theorem SubstRep.getExprs (h : SubstRep isVar var2bit buf n sv se σ) {ix : Nat} (hix : ix < n) :
    ∃ r, se[ix]? = some r ∧ slice buf r = .ok (spaced (σ ix)) := by
  have hix' : ix < se.length := h.length_exprs ▸ hix
  exact ⟨se[ix], List.getElem?_eq_getElem hix', h.exprs ix _ (List.getElem?_eq_getElem hix')⟩

/-! ## The conclusion under the substitution -/

/-- **`do_substitute` writes the fragments under `σ`.** -/
theorem doSubstitute_spec (h : SubstRep isVar var2bit buf n sv se σ) :
    ∀ {e : List ExprFragment}, (∀ ix, .var ix ∈ e → ix < n) → (∀ c, .constant c ∈ e → Spaced c) →
    doSubstitute se buf e = .ok (spaced (refSubst σ e))
  | [], _, _ => rfl
  | .var ix :: e, hlt, hc => by
    obtain ⟨r, hr, hsl⟩ := h.getExprs (hlt ix (List.mem_cons_self _ _))
    rw [doSubstitute, getIdx_of_get? hr, ok_bind, hsl, ok_bind,
      doSubstitute_spec h (fun j hj => hlt j (List.mem_cons_of_mem _ hj))
        (fun c hj => hc c (List.mem_cons_of_mem _ hj))]
    simp [refSubst]
  | .constant c :: e, hlt, hc => by
    rw [doSubstitute, doSubstitute_spec h (fun j hj => hlt j (List.mem_cons_of_mem _ hj))
        (fun c hj => hc c (List.mem_cons_of_mem _ hj))]
    have := (hc c (List.mem_cons_self _ _)).eq.1
    conv_lhs => rw [this]
    simp [refSubst]

theorem spaceFree_refSubst {e : List ExprFragment} (hσ : ∀ ix, .var ix ∈ e → SpaceFree (σ ix))
    (hc : ∀ c, .constant c ∈ e → Spaced c) : SpaceFree (refSubst σ e) := by
  induction e with
  | nil => exact fun _ h => nomatch h
  | cons f e ih =>
    have ih' := ih (fun ix hix => hσ ix (List.mem_cons_of_mem _ hix))
      (fun c hic => hc c (List.mem_cons_of_mem _ hic))
    cases f with
    | var ix => exact (hσ ix (List.mem_cons_self _ _)).append ih'
    | constant c => exact (hc c (List.mem_cons_self _ _)).eq.2.append ih'

/-- The variables of the fragments under `σ` are those of the variables' substitutes. -/
theorem mem_refSubst_isVar {e : List ExprFragment}
    (hc : ∀ c, .constant c ∈ e → ∀ t ∈ unspace c, isVar t = false) {v : Token} :
    v ∈ refSubst σ e ∧ isVar v = true ↔ ∃ ix, .var ix ∈ e ∧ v ∈ σ ix ∧ isVar v = true := by
  induction e with
  | nil => simp [refSubst]
  | cons f e ih =>
    have ih' := ih fun c hic => hc c (List.mem_cons_of_mem _ hic)
    cases f with
    | var ix =>
      simp only [refSubst, List.mem_append, or_and_right, ih', List.mem_cons, ExprFragment.var.injEq,
        exists_or, exists_eq_left]
    | constant c =>
      have hvar : ¬(v ∈ unspace c ∧ isVar v = true) := fun ⟨hv, hvv⟩ => by
        rw [hc c (List.mem_cons_self _ _) v hv] at hvv; cases hvv
      simp only [refSubst, List.mem_append, or_and_right, ih', hvar, false_or, List.mem_cons,
        reduceCtorEq, false_or]

/-- **`do_substitute_vars` collects the variable sets of the variables' substitutes.** -/
theorem doSubstituteVars_spec (h : SubstRep isVar var2bit buf n sv se σ) :
    ∀ {e : List ExprFragment} (out : Bitset), (∀ ix, .var ix ∈ e → ix < n) →
    ∃ r, doSubstituteVars sv out e = .ok r ∧ ∀ b, r.hasBit b = true ↔
      out.hasBit b = true ∨ ∃ ix, .var ix ∈ e ∧ ∃ v ∈ σ ix, isVar v = true ∧ var2bit.lookup v = some b
  | [], out, _ => ⟨out, rfl, by simp⟩
  | .var ix :: e, out, hlt => by
    obtain ⟨v, hv, hev⟩ := h.getVars (hlt ix (List.mem_cons_self _ _))
    obtain ⟨r, hr, hbits⟩ := doSubstituteVars_spec h (out.bitorAssign v)
      fun j hj => hlt j (List.mem_cons_of_mem _ hj)
    refine ⟨r, by rw [doSubstituteVars, getIdx_of_get? hv, ok_bind, hr], fun b => ?_⟩
    rw [hbits, Bitset.hasBit_bitorAssign, Bool.or_eq_true, hev.bits]
    simp only [List.mem_cons, ExprFragment.var.injEq]
    constructor
    · rintro ((h | h) | ⟨j, hj, h⟩)
      · exact .inl h
      · exact .inr ⟨ix, .inl rfl, h⟩
      · exact .inr ⟨j, .inr hj, h⟩
    · rintro (h | ⟨j, rfl | hj, h⟩)
      · exact .inl (.inl h)
      · exact .inl (.inr h)
      · exact .inr ⟨j, hj, h⟩
  | .constant c :: e, out, hlt => by
    obtain ⟨r, hr, hbits⟩ := doSubstituteVars_spec h out fun j hj => hlt j (List.mem_cons_of_mem _ hj)
    refine ⟨r, by rw [doSubstituteVars, hr], fun b => ?_⟩
    simp [hbits]

/-- The conclusion's variable set, as `execute_step` builds it. -/
theorem doSubstituteVars_entryVars (h : SubstRep isVar var2bit buf n sv se σ)
    {e : List ExprFragment} (hlt : ∀ ix, .var ix ∈ e → ix < n)
    (hc : ∀ c, .constant c ∈ e → Spaced c ∧ ∀ t ∈ unspace c, isVar t = false) :
    ∃ r, doSubstituteVars sv Bitset.new e = .ok r ∧ EntryVars isVar var2bit r (refSubst σ e) := by
  obtain ⟨r, hr, hbits⟩ := doSubstituteVars_spec h Bitset.new hlt
  have hentry : ∀ ix, .var ix ∈ e → ∃ w, EntryVars isVar var2bit w (σ ix) := fun ix hix =>
    (h.getVars (hlt ix hix)).imp fun _ h => h.2
  refine ⟨r, hr, spaceFree_refSubst (fun ix hix => (hentry ix hix).elim fun _ h => h.spaceFree)
    (fun c hic => (hc c hic).1), fun v hv hvar => ?_, fun b => ?_⟩
  · obtain ⟨ix, hix, hv', -⟩ := (mem_refSubst_isVar (fun c hic => (hc c hic).2)).mp ⟨hv, hvar⟩
    obtain ⟨w, hw⟩ := hentry ix hix
    exact hw.interned v hv' hvar
  · rw [hbits, Bitset.hasBit_new]
    simp only [Bool.false_eq_true, false_or]
    constructor
    · rintro ⟨ix, hix, v, hv, hvar, hb⟩
      exact ⟨v, ((mem_refSubst_isVar fun c hic => (hc c hic).2).mpr ⟨ix, hix, hv, hvar⟩).1, hvar, hb⟩
    · rintro ⟨v, hv, hvar, hb⟩
      obtain ⟨ix, hix, hv', -⟩ := (mem_refSubst_isVar (fun c hic => (hc c hic).2)).mp ⟨hv, hvar⟩
      exact ⟨ix, hix, v, hv', hvar, hb⟩

end Subst

/-! ## The hypotheses -/

/-- Each floating hypothesis's entry has the hypothesis's typecode. -/
def FloatsTyped (hyps : List Hyp) (args : List RefEntry) : Prop :=
  ∀ p ∈ hyps.zip args, p.1.isFloat = true → p.2.1 = p.1.expr.typecode

/-- Each essential hypothesis's entry is the hypothesis under `σ`, typecode included. -/
def EssentialsOk (σ : Nat → List Token) (hyps : List Hyp) (args : List RefEntry) : Prop :=
  ∀ p ∈ hyps.zip args, p.1.isFloat = false →
    p.2.1 = p.1.expr.typecode ∧ p.2.2 = refSubst σ p.1.expr.tail

theorem hypsOk_iff {σ : Nat → List Token} {hyps : List Hyp} {args : List RefEntry} :
    HypsOk σ hyps args ↔ FloatsTyped hyps args ∧ EssentialsOk σ hyps args := by
  simp only [HypsOk, FloatsTyped, EssentialsOk, ← forall_and, ← imp_and]
  refine forall₂_congr fun p _ => ?_
  cases p.1.isFloat <;> simp

@[simp] theorem floatsTyped_nil (args : List RefEntry) : FloatsTyped [] args := by
  simp [FloatsTyped]

@[simp] theorem floatsTyped_cons {h : Hyp} {hyps : List Hyp} {e : RefEntry} {args : List RefEntry} :
    FloatsTyped (h :: hyps) (e :: args) ↔
      (h.isFloat = true → e.1 = h.expr.typecode) ∧ FloatsTyped hyps args := by
  simp [FloatsTyped]

@[simp] theorem essentialsOk_nil (σ : Nat → List Token) (args : List RefEntry) :
    EssentialsOk σ [] args := by
  simp [EssentialsOk]

@[simp] theorem essentialsOk_cons {σ : Nat → List Token} {h : Hyp} {hyps : List Hyp} {e : RefEntry}
    {args : List RefEntry} : EssentialsOk σ (h :: hyps) (e :: args) ↔
      (h.isFloat = false → e.1 = h.expr.typecode ∧ e.2 = refSubst σ h.expr.tail) ∧
        EssentialsOk σ hyps args := by
  simp [EssentialsOk]

section Passes

variable {isVar : Token → Bool} {var2bit : List (Token × Nat)} {stack : List StackSlot}
  {rs : List RefEntry} {buf : List UInt8} {sbase n : Nat}

/-- The slot at `i` and the entry it holds. -/
theorem StackRep.getEntry (hs : StackHolds isVar var2bit stack rs buf) {i : Nat}
    (hi : i < rs.length) : ∃ slot, stack[i]? = some slot ∧ SlotRep isVar var2bit slot rs[i] ∧
      slice buf slot.expr = .ok (spaced rs[i].2) := by
  have hi' : i < stack.length := hs.length_eq ▸ hi
  obtain ⟨e, he, hr, hsl⟩ := hs.get (List.getElem?_eq_getElem hi')
  rw [List.getElem?_eq_getElem hi, Option.some.injEq] at he
  subst he
  exact ⟨_, List.getElem?_eq_getElem hi', hr, hsl⟩

/-- **The `$f` loop.** It fails, with a diagnostic, exactly when a floating hypothesis's slot
has another typecode; otherwise it leaves the substitution `refFloats` reads off the entries. -/
theorem checkFloats_spec (hs : StackHolds isVar var2bit stack rs buf) :
    ∀ {ix : Nat} {hyps : List Hyp} {sv : List Bitset} {se : List Range} {σ : Nat → List Token},
    SubstRep isVar var2bit buf n sv se σ →
    (∀ h ∈ hyps, h.isFloat = true → h.variableIndex < n) →
    sbase + ix + hyps.length = rs.length →
    (FloatsTyped hyps (rs.drop (sbase + ix)) → ∃ sv' se',
      checkFloats stack sbase ix hyps sv se = .ok (sv', se') ∧
      SubstRep isVar var2bit buf n sv' se' (refFloats hyps (rs.drop (sbase + ix)) σ)) ∧
    (¬FloatsTyped hyps (rs.drop (sbase + ix)) → IsDiag (checkFloats stack sbase ix hyps sv se))
  | _, [], sv, se, σ, hsub, _, _ => ⟨fun _ => ⟨sv, se, rfl, hsub⟩, fun h => absurd (by simp) h⟩
  | ix, hyp :: hyps, sv, se, σ, hsub, hlt, hlen => by
    have hi : sbase + ix < rs.length := by simp at hlen; omega
    obtain ⟨slot, hslot, hrep, hsl⟩ := hs.getEntry hi
    have hdrop : rs.drop (sbase + ix) = rs[sbase + ix] :: rs.drop (sbase + (ix + 1)) :=
      List.drop_eq_getElem_cons hi
    have hlen' : sbase + (ix + 1) + hyps.length = rs.length := by simp at hlen; omega
    have hlt' := fun h hh => hlt h (List.mem_cons_of_mem hyp hh)
    rw [hdrop, floatsTyped_cons]
    cases hf : hyp.isFloat
    · have ih := checkFloats_spec hs hsub hlt' hlen'
      simp only [checkFloats, hf, refFloats, Bool.false_eq_true, if_false, false_implies, true_and]
      exact ih
    · have hvi := hlt hyp (List.mem_cons_self _ _) hf
      simp only [checkFloats, hf, refFloats, if_true, getIdx_of_get? hslot, ok_bind, hrep.code,
        true_implies]
      by_cases hc : rs[sbase + ix].1 = hyp.expr.typecode
      · have ih := checkFloats_spec hs (hsub.set hvi hrep.vars hsl) hlt' hlen'
        simp only [hc, bne_self_eq_false, Bool.false_eq_true, if_false,
          setIdx_of_lt (hsub.length_vars ▸ hvi), setIdx_of_lt (hsub.length_exprs ▸ hvi), ok_bind,
          true_and]
        exact ih
      · simp only [hc, false_and, not_false_eq_true, false_implies, true_and, true_implies]
        rw [if_pos (by simpa using hc)]
        exact ⟨_, rfl⟩

/-- **The `$e` loop.** It fails, with a diagnostic, exactly when an essential hypothesis's slot
is not the hypothesis under `σ`. -/
theorem checkEssentials_spec (hs : StackHolds isVar var2bit stack rs buf) {sv : List Bitset}
    {se : List Range} {σ : Nat → List Token} (hsub : SubstRep isVar var2bit buf n sv se σ) :
    ∀ {ix : Nat} {hyps : List Hyp},
    (∀ h ∈ hyps, ∀ j, .var j ∈ h.expr.tail → j < n) →
    (∀ h ∈ hyps, ConstantsSpaced isVar h.expr) →
    sbase + ix + hyps.length = rs.length →
    Checks (EssentialsOk σ hyps (rs.drop (sbase + ix))) (checkEssentials stack buf se sbase ix hyps)
  | _, [], _, _, _ => ⟨fun _ => rfl, fun h => absurd (by simp) h⟩
  | ix, hyp :: hyps, hlt, hc, hlen => by
    have hi : sbase + ix < rs.length := by simp at hlen; omega
    obtain ⟨slot, hslot, hrep, hsl⟩ := hs.getEntry hi
    have hlen' : sbase + (ix + 1) + hyps.length = rs.length := by simp at hlen; omega
    have ih := checkEssentials_spec hs hsub (fun h hh => hlt h (List.mem_cons_of_mem hyp hh))
      (fun h hh => hc h (List.mem_cons_of_mem hyp hh)) hlen'
    rw [List.drop_eq_getElem_cons hi, essentialsOk_cons]
    cases hf : hyp.isFloat
    · have hlt0 := hlt hyp (List.mem_cons_self _ _)
      have hc0 := hc hyp (List.mem_cons_self _ _)
      have htemp := doSubstitute_spec hsub hlt0 fun c hic => (hc0 c hic).1
      have hfree : SpaceFree (refSubst σ hyp.expr.tail) :=
        spaceFree_refSubst (fun j hj => (hsub.getVars (hlt0 j hj)).elim fun _ h => h.2.spaceFree)
          fun c hic => (hc0 c hic).1
      simp only [checkEssentials, hf, Bool.not_false, if_true, getIdx_of_get? hslot, ok_bind,
        hrep.code, htemp, hsl, bne_iff_ne, ne_eq, spaced_eq_iff hrep.vars.spaceFree hfree,
        true_implies]
      by_cases htc : rs[sbase + ix].1 = hyp.expr.typecode
      · by_cases he : rs[sbase + ix].2 = refSubst σ hyp.expr.tail
        · simpa [htc, he] using ih
        · simp only [htc, he, not_false_eq_true, decide_True, if_true, if_false, throw_bind,
            and_false, false_and]
          exact ⟨fun h => h.elim, fun _ => ⟨_, rfl⟩⟩
      · simp only [htc, not_false_eq_true, decide_True, if_true, throw_bind, false_and]
        exact ⟨fun h => h.elim, fun _ => ⟨_, rfl⟩⟩
    · simpa [checkEssentials, hf] using ih

end Passes

/-! ## The `$d` pairs -/

section Dv

variable {isVar : Token → Bool} {cur : Frame} {st : VerifyState}

/-- The rows of `dv_map` that the `$d` loop reads say `DvPair` of the tokens. -/
theorem dvRows_iff (ht : VarTable st) (hd : DvTable cur.optionalDv st) {s1 s2 : Bitset}
    {ts1 ts2 : List Token} (h1 : EntryVars isVar st.var2bit s1 ts1)
    (h2 : EntryVars isVar st.var2bit s2 ts2) :
    (∀ b1 ∈ s1.items, ∀ b2 ∈ s2.items, ∀ row, st.dvMap[b1]? = some row → row.hasBit b2 = true) ↔
      ∀ v1 ∈ ts1, isVar v1 = true → ∀ v2 ∈ ts2, isVar v2 = true → DvPair cur v1 v2 := by
  simp only [Bitset.mem_items, h1.bits, h2.bits]
  constructor
  · intro h v1 hv1 hvar1 v2 hv2 hvar2
    obtain ⟨b1, hb1⟩ := h1.interned v1 hv1 hvar1
    obtain ⟨b2, hb2⟩ := h2.interned v2 hv2 hvar2
    have hlt := ht.lt_of_lookup hb1
    obtain ⟨w, hw, hdv⟩ := (hd.row v1 b1 hb1 _ (List.getElem?_eq_getElem hlt) b2).mp
      (h b1 ⟨v1, hv1, hvar1, hb1⟩ b2 ⟨v2, hv2, hvar2, hb2⟩ _ (List.getElem?_eq_getElem hlt))
    rwa [ht.inj hw hb2] at hdv
  · rintro h b1 ⟨v1, hv1, hvar1, hb1⟩ b2 ⟨v2, hv2, hvar2, hb2⟩ row hrow
    exact (hd.row v1 b1 hb1 row hrow b2).mpr ⟨v2, hb2, h v1 hv1 hvar1 v2 hv2 hvar2⟩

/-- **The `$d` loop.** It fails, with a diagnostic, exactly when two variables substituted for
a mandatory `$d` pair are not a `$d` pair of the statement being proved. -/
theorem checkDv_spec (ht : VarTable st) (hd : DvTable cur.optionalDv st) {buf : List UInt8}
    {n : Nat} {sv : List Bitset} {se : List Range} {σ : Nat → List Token}
    (hsub : SubstRep isVar st.var2bit buf n sv se σ) :
    ∀ {dvs : List (Nat × Nat)}, (∀ p ∈ dvs, p.1 < n ∧ p.2 < n) →
    Checks (DvOk isVar cur σ dvs) (checkDv st.dvMap sv dvs)
  | [], _ => ⟨fun _ => rfl, fun h => absurd (fun _ hp => nomatch hp) h⟩
  | (ix1, ix2) :: dvs, hlt => by
    obtain ⟨s1, hs1, he1⟩ := hsub.getVars (hlt _ (List.mem_cons_self _ _)).1
    obtain ⟨s2, hs2, he2⟩ := hsub.getVars (hlt _ (List.mem_cons_self _ _)).2
    have ih := checkDv_spec ht hd hsub fun p hp => hlt p (List.mem_cons_of_mem _ hp)
    rw [checkDv, getIdx_of_get? hs1, ok_bind]
    refine ((@Checks.forM _ _ (fun b1 => ∀ b2 ∈ s2.items, ∀ row, st.dvMap[b1]? = some row →
      row.hasBit b2 = true) _ fun b1 hb1 => ?_).bind ih).of_iff ?_
    · obtain ⟨v1, -, -, hb1⟩ := (he1.bits b1).mp ((Bitset.mem_items s1 b1).mp hb1)
      obtain ⟨row, hrow⟩ : ∃ row, st.dvMap[b1]? = some row :=
        ⟨_, List.getElem?_eq_getElem (ht.lt_of_lookup hb1)⟩
      rw [getIdx_of_get? hs2, ok_bind]
      refine (@Checks.forM _ _ (fun b2 => row.hasBit b2 = true) _ fun b2 _ => ?_).of_iff ?_
      · rw [getIdx_of_get? hrow, ok_bind]
        exact Checks.guard _ _
      · refine forall₂_congr fun b2 _ => ⟨fun h row' h' => ?_, fun h => h row hrow⟩
        rw [hrow, Option.some.injEq] at h'
        exact h' ▸ h
    · rw [dvRows_iff ht hd he1 he2]
      simp [DvOk]

end Dv

end MetamathKnife.Verify
