import MetamathKnife.Verify.Safety
import Mathlib.Data.List.Nodup

/-!
# Verifying a database

`verify` runs `verify_proof` on every statement of every segment, and keeps for each segment the
diagnostic of each statement that has one, by address; `VerifyResult::diagnostics` lists all of
them. Both loops are one loop over a `HashMap` (`collectInto`), modelled as the list of its
entries in no particular order.

* `collectInto_eq`: over fresh distinct keys and without a failure, the loop adds one entry per
  element that has a value; `collectInto_panics`: a panic of one element is a panic of the loop;
* `verify_spec`: `verify` panics when some `verify_proof` does, and otherwise, segment ids being
  distinct, reports exactly the statements whose proof fails, with their diagnostic, at their
  address;
* `verify_ok`: over frames that are well formed, when every `$p` statement has a proof of at
  least one token, `verify` does not panic.
-/

namespace MetamathKnife.Verify

/-! ## The loop over a map -/

section Collect

variable {α K V : Type} [DecidableEq K]

/-- `HashMap::insert`: the entry of the key replaced. -/
def mapInsert (m : List (K × V)) (k : K) (v : V) : List (K × V) :=
  m.filter (fun p => p.1 ≠ k) ++ [(k, v)]

theorem mapInsert_of_not_mem {m : List (K × V)} {k : K} (h : k ∉ m.map Prod.fst) (v : V) :
    mapInsert m k v = m ++ [(k, v)] := by
  rw [mapInsert, List.filter_eq_self.mpr]
  intro p hp
  simp only [decide_eq_true_eq]
  rintro rfl
  exact h (List.mem_map_of_mem Prod.fst hp)

/-- The loop `for a in l { if let Some(v) = f(a) { out.insert(key(a), v); } }`. -/
def collectInto (key : α → K) (f : α → Except Fault (Option V)) (l : List α)
    (out : List (K × V)) : Except Fault (List (K × V)) :=
  l.foldlM (fun out a => do
    match ← f a with
    | some v => pure (mapInsert out (key a) v)
    | none => pure out) out

/-- **The loop adds an entry per element with a value**, when the keys are distinct and not in
the map yet and no element fails. -/
theorem collectInto_eq (key : α → K) {f : α → Except Fault (Option V)} {g : α → Option V} :
    ∀ (l : List α) (out : List (K × V)), (l.map key).Nodup →
      (∀ a ∈ l, key a ∉ out.map Prod.fst) → (∀ a ∈ l, f a = .ok (g a)) →
      collectInto key f l out = .ok (out ++ l.filterMap fun a => (g a).map (key a, ·))
  | [], out, _, _, _ => by simp [collectInto]
  | a :: l, out, hnd, hfresh, hf => by
    rw [List.map_cons, List.nodup_cons] at hnd
    have hl : ∀ b ∈ l, f b = .ok (g b) := fun b hb => hf b (List.mem_cons_of_mem _ hb)
    rw [collectInto, List.foldlM_cons, hf a (List.mem_cons_self _ _), ok_bind]
    cases hg : g a with
    | none =>
      simp only [pure_bind]
      exact (collectInto_eq key (f := f) l out hnd.2
        (fun b hb => hfresh b (List.mem_cons_of_mem _ hb)) hl).trans (by simp [hg])
    | some v =>
      simp only [pure_bind, mapInsert_of_not_mem (hfresh a (List.mem_cons_self _ _))]
      refine (collectInto_eq key (f := f) l _ hnd.2 (fun b hb => ?_) hl).trans (by simp [hg])
      simp only [List.map_append, List.map_cons, List.map_nil, List.mem_append, List.mem_singleton,
        not_or]
      exact ⟨hfresh b (List.mem_cons_of_mem _ hb), fun he => hnd.1 (he ▸ List.mem_map_of_mem key hb)⟩

/-- **A panic of one element is a panic of the loop**, when the elements fail only by
panicking. -/
theorem collectInto_panics (key : α → K) {f : α → Except Fault (Option V)}
    (hf : ∀ a e, f a = .error e → e = .panic) :
    ∀ (l : List α) (out : List (K × V)), (∃ a ∈ l, f a = .error .panic) →
      collectInto key f l out = .error .panic
  | a :: l, out, ⟨b, hb, hpanic⟩ => by
    simp only [collectInto, List.foldlM_cons] at *
    cases ha : f a with
    | error e => rw [hf a e ha]; rfl
    | ok o =>
      rcases List.mem_cons.mp hb with rfl | hb
      · rw [ha] at hpanic; cases hpanic
      · rw [ok_bind]
        cases o <;> exact collectInto_panics key hf l _ ⟨b, hb, hpanic⟩

/-- The loop fails only as its elements do. -/
theorem collectInto_error (key : α → K) {f : α → Except Fault (Option V)}
    (hf : ∀ a e, f a = .error e → e = .panic) :
    ∀ (l : List α) (out : List (K × V)) {e : Fault}, collectInto key f l out = .error e →
      e = .panic
  | [], _, _, h => by cases h
  | a :: l, out, e, h => by
    simp only [collectInto, List.foldlM_cons] at h
    cases ha : f a with
    | error e' => rw [ha] at h; cases h; exact hf a _ ha
    | ok o =>
      rw [ha, ok_bind] at h
      cases o <;> exact collectInto_error key hf l _ h

end Collect

/-! ## `verify_segment` and `verify` -/

/-- Modelled from the spec: a segment of the `SegmentSet` as `verify` reads it, its id and its
statements in order, the `i`-th at the address `(id, i)`. -/
structure Segment where
  id : Nat
  statements : List StatementRef

/-- `VerifySegment`: the diagnostics of a segment, by address. -/
structure VerifySegment where
  diagnostics : List (StatementAddress × Diagnostic)

/-- `VerifyResult`: the verified segments, by id. -/
structure VerifyResult where
  segments : List (Nat × VerifySegment)

/-- What `verify_proof` returns: `Some(diag)` for a diagnostic, `None` for `.ok ()`, a panic
propagated. -/
def diagOf : Except Fault Unit → Except Fault (Option Diagnostic)
  | .ok () => pure none
  | .error (.diag d) => pure (some d)
  | .error .panic => throw .panic

/-- `verify_segment(sset, scopes, sid)`: the diagnostic of each statement of the segment that
has one, inserted at its address. -/
def verifySegment (order : SegmentOrder) (scopes : ScopeReader) (seg : Segment) :
    Except Fault VerifySegment := do
  let diagnostics ← collectInto (fun p => (⟨seg.id, p.1⟩ : StatementAddress))
    (fun p => diagOf (verifyProof order scopes p.2)) seg.statements.enum []
  pure ⟨diagnostics⟩

/-- `verify(segments, scope)`: each segment verified, inserted at its id. -/
def verify (order : SegmentOrder) (scopes : ScopeReader) (segments : List Segment) :
    Except Fault VerifyResult := do
  let segments ← collectInto Segment.id (fun sref => some <$> verifySegment order scopes sref)
    segments []
  pure ⟨segments⟩

/-- `VerifyResult::diagnostics`: the diagnostics of every segment. -/
def VerifyResult.diagnostics (self : VerifyResult) : List (StatementAddress × Diagnostic) :=
  self.segments.flatMap fun p => p.2.diagnostics

section Verify

variable (order : SegmentOrder) (scopes : ScopeReader)

/-- The diagnostic of a statement: `Some(d)` when its proof fails with `d`. -/
def failure (stmt : StatementRef) : Option Diagnostic :=
  match verifyProof order scopes stmt with
  | .error (.diag d) => some d
  | _ => none

theorem diagOf_eq {stmt : StatementRef} (h : verifyProof order scopes stmt ≠ .error .panic) :
    diagOf (verifyProof order scopes stmt) = .ok (failure order scopes stmt) := by
  rw [failure]
  split
  · next hd => rw [hd]; rfl
  · next hd => cases he : verifyProof order scopes stmt with
    | ok u => rfl
    | error e => cases e with
      | diag d => exact absurd he (hd d)
      | panic => exact absurd he h

theorem diagOf_error {r : Except Fault Unit} {e : Fault} (h : diagOf r = .error e) :
    e = .panic := by
  match r, h with
  | .error .panic, h => exact (Except.error.inj h).symm

variable {order scopes}

/-- A segment's diagnostics, when none of its proofs panics: one per failing statement, at its
address. -/
theorem verifySegment_eq {seg : Segment}
    (h : ∀ stmt ∈ seg.statements, verifyProof order scopes stmt ≠ .error .panic) :
    verifySegment order scopes seg = .ok ⟨seg.statements.enum.filterMap fun p =>
      (failure order scopes p.2).map ((⟨seg.id, p.1⟩ : StatementAddress), ·)⟩ := by
  rw [verifySegment, collectInto_eq _ _ [] ?_ (by simp) fun p hp => diagOf_eq order scopes
    (h p.2 (List.mem_iff_getElem?.mpr ⟨_, List.mem_enum_iff_getElem?.mp hp⟩))]
  · rfl
  · rw [show (fun p : Nat × StatementRef => (⟨seg.id, p.1⟩ : StatementAddress)) =
      (fun i : Nat => (⟨seg.id, i⟩ : StatementAddress)) ∘ Prod.fst from rfl, ← List.map_map,
      List.enum_map_fst]
    exact (List.nodup_range _).map fun i j hij => by simp at hij; omega

theorem failure_eq_some {stmt : StatementRef} {d : Diagnostic} :
    failure order scopes stmt = some d ↔ verifyProof order scopes stmt = .error (.diag d) := by
  rw [failure]
  split
  · next d' hd => rw [hd]; simp [eq_comm]
  · next hd => simpa using hd d

theorem verifySegment_error {seg : Segment} {e : Fault}
    (h : verifySegment order scopes seg = .error e) : e = .panic := by
  rw [verifySegment] at h
  cases hc : collectInto (fun p => (⟨seg.id, p.1⟩ : StatementAddress))
    (fun p => diagOf (verifyProof order scopes p.2)) seg.statements.enum [] with
  | ok x => rw [hc] at h; cases h
  | error e' => rw [hc] at h; cases h; exact collectInto_error _ (fun _ _ => diagOf_error) _ _ hc

theorem mem_filterMap_failure {seg : Segment} {sa : StatementAddress} {d : Diagnostic} :
    (sa, d) ∈ seg.statements.enum.filterMap (fun p =>
        (failure order scopes p.2).map ((⟨seg.id, p.1⟩ : StatementAddress), ·)) ↔
      ∃ (i : Nat) (stmt : StatementRef), seg.statements[i]? = some stmt ∧ sa = ⟨seg.id, i⟩ ∧
        verifyProof order scopes stmt = .error (.diag d) := by
  simp only [List.mem_filterMap, Option.map_eq_some', Prod.mk.injEq, Prod.exists,
    List.mem_enum_iff_getElem?, ← failure_eq_some]
  constructor
  · rintro ⟨i, stmt, hi, d', hd, rfl, rfl⟩
    exact ⟨i, stmt, hi, rfl, hd⟩
  · rintro ⟨i, stmt, hi, rfl, hd⟩
    exact ⟨i, stmt, hi, d, hd, rfl, rfl⟩

/-- The keys of the entries a `filterMap` keeps are those of the elements with a value. -/
theorem map_fst_filterMap {α β γ : Type} (key : α → β) (o : α → Option γ) (l : List α) :
    (l.filterMap fun a => (o a).map (key a, ·)).map Prod.fst =
      (l.filter fun a => (o a).isSome).map key := by
  induction l with
  | nil => rfl
  | cons a l ih => cases h : o a <;> simp [List.filterMap_cons, List.filter_cons, h, ih]

/-- No two diagnostics of the segments share an address: the statement indices of a segment are
distinct, and so are the segment ids. -/
theorem nodup_addresses {segments : List Segment} (hids : (segments.map Segment.id).Nodup) :
    ((segments.flatMap fun seg => seg.statements.enum.filterMap fun p =>
        (failure order scopes p.2).map ((⟨seg.id, p.1⟩ : StatementAddress), ·)).map
      Prod.fst).Nodup := by
  rw [List.map_flatMap]
  refine List.nodup_flatMap.mpr ⟨fun seg _ => ?_, ?_⟩
  · rw [map_fst_filterMap]
    refine ((List.filter_sublist _).map _).nodup ?_
    rw [show (fun p : Nat × StatementRef => (⟨seg.id, p.1⟩ : StatementAddress)) =
      (fun i : Nat => (⟨seg.id, i⟩ : StatementAddress)) ∘ Prod.fst from rfl, ← List.map_map,
      List.enum_map_fst]
    exact (List.nodup_range _).map fun i j hij => by simp at hij; omega
  · refine (List.pairwise_map.mp hids).imp fun {a b} hab x hxa hxb => hab ?_
    simp only [map_fst_filterMap, List.mem_map] at hxa hxb
    obtain ⟨_, -, rfl⟩ := hxa
    obtain ⟨_, -, hx⟩ := hxb
    exact (congrArg StatementAddress.segmentId hx).symm

/-- A panic of one `verify_proof` is a panic of `verify`. -/
theorem verify_panics {segments : List Segment}
    (h : ∃ seg ∈ segments, ∃ stmt ∈ seg.statements, verifyProof order scopes stmt = .error .panic) :
    verify order scopes segments = .error .panic := by
  obtain ⟨seg, hseg, stmt, hstmt, hpanic⟩ := h
  have hsegp : verifySegment order scopes seg = .error .panic := by
    obtain ⟨i, hi⟩ := List.mem_iff_getElem?.mp hstmt
    rw [verifySegment, collectInto_panics _ (fun _ _ => diagOf_error) _ _
      ⟨(i, stmt), List.mem_enum_iff_getElem?.mpr hi, by rw [hpanic]; rfl⟩]
    rfl
  rw [verify, collectInto_panics _ (fun sref e he => ?_) _ _ ⟨seg, hseg, by rw [hsegp]; rfl⟩]
  · rfl
  · cases hs : verifySegment order scopes sref with
    | ok _ => rw [hs] at he; cases he
    | error e' => rw [hs] at he; cases he; exact verifySegment_error hs

/-- Without a panic, over distinct segment ids, `verify` reports exactly the failing
statements. -/
theorem verify_eq_ok {segments : List Segment} (hids : (segments.map Segment.id).Nodup)
    (hnp : ∀ seg ∈ segments, ∀ stmt ∈ seg.statements, verifyProof order scopes stmt ≠ .error .panic) :
    ∃ res, verify order scopes segments = .ok res ∧ (res.diagnostics.map Prod.fst).Nodup ∧
      ∀ sa d, (sa, d) ∈ res.diagnostics ↔
        ∃ seg ∈ segments, ∃ (i : Nat) (stmt : StatementRef), seg.statements[i]? = some stmt ∧
          sa = ⟨seg.id, i⟩ ∧ verifyProof order scopes stmt = .error (.diag d) := by
  rw [verify, collectInto_eq _ _ [] hids (by simp) fun sref hsref => by
    rw [verifySegment_eq (hnp sref hsref)]; rfl]
  refine ⟨_, rfl, ?_, fun sa d => ?_⟩
  · simp only [VerifyResult.diagnostics, List.nil_append, Option.map_some',
      show ∀ f : Segment → Nat × VerifySegment, segments.filterMap (fun a => some (f a)) =
        segments.map f from fun f => congrFun (List.filterMap_eq_map f) segments, List.flatMap_map]
    exact nodup_addresses hids
  simp only [VerifyResult.diagnostics, List.nil_append, Option.map_some', List.mem_flatMap,
    List.mem_filterMap, Option.some.injEq]
  constructor
  · rintro ⟨_, ⟨seg, hseg, rfl⟩, hmem⟩
    exact ⟨seg, hseg, mem_filterMap_failure.mp hmem⟩
  · rintro ⟨seg, hseg, h⟩
    exact ⟨_, ⟨seg, hseg, rfl⟩, mem_filterMap_failure.mpr h⟩

/-- **What `verify` reports**: it panics when some `verify_proof` does; otherwise, segment ids
being distinct, its diagnostics are exactly the statements whose proof fails, with their
diagnostic, at their address, and no address is reported twice. -/
theorem verify_spec {segments : List Segment} (hids : (segments.map Segment.id).Nodup) :
    ((∃ seg ∈ segments, ∃ stmt ∈ seg.statements, verifyProof order scopes stmt = .error .panic) →
      verify order scopes segments = .error .panic) ∧
    ((∀ seg ∈ segments, ∀ stmt ∈ seg.statements, verifyProof order scopes stmt ≠ .error .panic) →
      ∃ res, verify order scopes segments = .ok res ∧ (res.diagnostics.map Prod.fst).Nodup ∧
        ∀ sa d, (sa, d) ∈ res.diagnostics ↔
          ∃ seg ∈ segments, ∃ (i : Nat) (stmt : StatementRef), seg.statements[i]? = some stmt ∧
            sa = ⟨seg.id, i⟩ ∧ verifyProof order scopes stmt = .error (.diag d)) :=
  ⟨verify_panics, verify_eq_ok hids⟩

/-- **`verify` does not panic on a database whose frames are well formed and whose `$p`
statements have proofs**: it reports exactly the statements whose proof fails. -/
theorem verify_ok {isVar : Token → Bool} {segments : List Segment}
    (hwf : ∀ l f, scopes l = some f → f.WellFormed isVar)
    (hne : ∀ seg ∈ segments, ∀ stmt ∈ seg.statements, stmt.stype = .provable → stmt.proof ≠ [])
    (hids : (segments.map Segment.id).Nodup) :
    ∃ res, verify order scopes segments = .ok res ∧ ∀ sa d, (sa, d) ∈ res.diagnostics ↔
      ∃ seg ∈ segments, ∃ (i : Nat) (stmt : StatementRef), seg.statements[i]? = some stmt ∧
        sa = ⟨seg.id, i⟩ ∧ verifyProof order scopes stmt = .error (.diag d) := by
  obtain ⟨res, hres, -, hmem⟩ := verify_eq_ok hids fun seg hseg stmt hstmt hpanic => by
    have h : Safe (fun _ => True) (verifyProof order scopes stmt) :=
      verifyProof_safe hwf (hne seg hseg stmt hstmt)
    rw [hpanic] at h
    exact h
  exact ⟨res, hres, hmem⟩

end Verify

/-! ## A segment proving `th1` twice -/

/-- A segment of two proofs of `th1`: `wph wps ax-1`, and `wph` alone. -/
def th1Segment : Segment :=
  ⟨0, [⟨.provable, tokenOf "th1", [tokenOf "wph", tokenOf "wps", tokenOf "ax-1"]⟩,
    ⟨.provable, tokenOf "th1", [tokenOf "wph"]⟩]⟩

/-- What `verify` reports on the segment, its one id being distinct. -/
theorem th1Segment_verify_spec :
    ([th1Segment].map Segment.id).Nodup ∧
    ((∃ seg ∈ [th1Segment], ∃ stmt ∈ seg.statements,
        verifyProof exampleOrder exampleScopes stmt = .error .panic) →
      verify exampleOrder exampleScopes [th1Segment] = .error .panic) ∧
    ((∀ seg ∈ [th1Segment], ∀ stmt ∈ seg.statements,
        verifyProof exampleOrder exampleScopes stmt ≠ .error .panic) →
      ∃ res, verify exampleOrder exampleScopes [th1Segment] = .ok res ∧
        (res.diagnostics.map Prod.fst).Nodup ∧ ∀ sa d,
        (sa, d) ∈ res.diagnostics ↔ ∃ seg ∈ [th1Segment], ∃ (i : Nat) (stmt : StatementRef),
          seg.statements[i]? = some stmt ∧ sa = ⟨seg.id, i⟩ ∧
          verifyProof exampleOrder exampleScopes stmt = .error (.diag d)) :=
  ⟨by decide, verify_spec (by decide)⟩

/-- `verify` does not panic on the segment. -/
theorem th1Segment_verify_ok :
    (∀ l f, exampleScopes l = some f → f.WellFormed exampleIsVar) ∧
    (∀ seg ∈ [th1Segment], ∀ stmt ∈ seg.statements, stmt.stype = .provable → stmt.proof ≠ []) ∧
    ([th1Segment].map Segment.id).Nodup ∧
    ∃ res, verify exampleOrder exampleScopes [th1Segment] = .ok res ∧ ∀ sa d,
      (sa, d) ∈ res.diagnostics ↔ ∃ seg ∈ [th1Segment], ∃ (i : Nat) (stmt : StatementRef),
        seg.statements[i]? = some stmt ∧ sa = ⟨seg.id, i⟩ ∧
        verifyProof exampleOrder exampleScopes stmt = .error (.diag d) :=
  ⟨exampleScopes_wellFormed, by decide, by decide,
    verify_ok exampleScopes_wellFormed (by decide) (by decide)⟩

end MetamathKnife.Verify
