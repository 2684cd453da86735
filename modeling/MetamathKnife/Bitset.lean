import Mathlib.Data.List.GetD
import Mathlib.Data.Nat.Bitwise
import Mathlib.Data.Finset.Sort

/-!
# Bitsets

The `Bitset` of `verify.rs`: a growable set of small naturals, its first word inline (`head`)
and further words in a tail vector allocated on the first set beyond the first word. Word `k`
of the tail holds bits `W (k + 1)` to `W (k + 2) - 1`, `W` the width of `usize`.

Every operation is characterized word by word (`word_setBit`, `word_bitorAssign`), and
membership is the bit of the word (`hasBit_eq_testBit`), so that:

* `hasBit_setBit`, `hasBit_bitorAssign`: `set_bit` inserts, `|=` is the union;
* `mem_items`, `sorted_items`: iterating a bitset (`BitsetIter`: the current word, an offset
  and the words left, the lowest bit taken by `trailing_zeros` and cleared by `bits & (bits - 1)`)
  yields exactly its members, in strictly ascending order;
* `BitsetOps.run_spec`: a bitset built from `Bitset::new()` by `set_bit` and `|=` holds exactly
  the finite set built by the same insertions and unions, and iterating it yields that set
  sorted.

Words are naturals below `2 ^ W`, a bound each bitset carries (`Bitset.word_lt`): no operation
of the source shifts a bit out of a word, so no word wraps.
-/

namespace MetamathKnife

/-- `bits_per_word()`: `usize::max_value().count_ones()`. The model fixes a 64-bit target, where
it is 64 (it is 32 on a 32-bit target, which is not modelled). -/
def bitsPerWord : Nat := 64

/-- Word `j` of a bitset given by its inline word and its tail: `head` for `j = 0`, else the
tail's word `j - 1`, zero past the tail's end. -/
def wordOf (head : Nat) (tail : Option (List Nat)) : Nat → Nat
  | 0 => head
  | j + 1 => (tail.getD []).getD j 0

/-- `Bitset`. -/
structure Bitset where
  head : Nat
  tail : Option (List Nat)
  word_lt : ∀ j, wordOf head tail j < 2 ^ bitsPerWord

namespace Bitset

/-- Word `j` of the bitset. -/
def word (b : Bitset) (j : Nat) : Nat := wordOf b.head b.tail j

theorem word_zero (b : Bitset) : b.word 0 = b.head := rfl

theorem word_succ (b : Bitset) (j : Nat) : b.word (j + 1) = (b.tail.getD []).getD j 0 := rfl

/-- `Bitset::new()`. -/
def new : Bitset := ⟨0, none, fun j => by cases j <;> simp [wordOf, bitsPerWord]⟩

@[simp] theorem word_new (j : Nat) : new.word j = 0 := by cases j <;> rfl

/-- `Vec::resize(n, v)`. -/
def resize (l : List Nat) (n v : Nat) : List Nat := l.take n ++ List.replicate (n - l.length) v

theorem getD_resize {l : List Nat} {n : Nat} (h : l.length ≤ n) (j : Nat) :
    (resize l n 0).getD j 0 = l.getD j 0 := by
  simp only [resize, List.take_of_length_le h, List.getD_eq_getElem?_getD, List.getElem?_append,
    List.getElem?_replicate]
  split_ifs <;> simp_all [List.getElem?_eq_none]

theorem length_resize (l : List Nat) (n v : Nat) : (resize l n v).length = n := by
  simp only [resize, List.length_append, List.length_take, List.length_replicate]
  omega

/-- The tail grown to hold word `w`, as `set_bit` grows it. -/
theorem getD_grow (t : List Nat) (w j : Nat) :
    (if w ≥ t.length then resize t (w + 1) 0 else t).getD j 0 = t.getD j 0 := by
  split_ifs with h
  · exact getD_resize (by omega) j
  · rfl

theorem lt_length_grow (t : List Nat) (w : Nat) :
    w < (if w ≥ t.length then resize t (w + 1) 0 else t).length := by
  split_ifs with h
  · rw [length_resize]; omega
  · omega

theorem getD_modify_or (l : List Nat) (x k j : Nat) (hk : k < l.length) :
    (l.modify (· ||| x) k).getD j 0 = if j = k then l.getD j 0 ||| x else l.getD j 0 := by
  simp only [List.getD_eq_getElem?_getD, List.getElem?_modify]
  by_cases hj : j = k
  · subst hj
    simp [List.getElem?_eq_getElem hk]
  · cases l[j]? <;> simp [hj, Ne.symm hj]

/-- `x & (1 << i) != 0` tests bit `i` of `x`. -/
theorem and_one_shiftLeft_ne_zero (x i : Nat) : (x &&& 1 <<< i != 0) = x.testBit i := by
  rw [Nat.one_shiftLeft]
  by_cases h : x.testBit i
  · simp only [h, bne_iff_ne, ne_eq]
    intro h0
    have := Nat.testBit_and x (2 ^ i) i
    simp [h0, h] at this
  · simp only [h, bne_eq_false_iff_eq]
    apply Nat.eq_of_testBit_eq
    intro j
    by_cases hj : i = j
    · subst hj
      simp [Nat.testBit_and, h]
    · simp [Nat.testBit_and, Nat.testBit_two_pow, hj]

theorem or_one_shiftLeft_lt {x i : Nat} (hx : x < 2 ^ bitsPerWord) (hi : i < bitsPerWord) :
    x ||| 1 <<< i < 2 ^ bitsPerWord :=
  Nat.or_lt_two_pow hx (by rw [Nat.one_shiftLeft]; exact Nat.pow_lt_pow_right (by decide) hi)

theorem and_wordMask (i : Nat) : i &&& (bitsPerWord - 1) = i % bitsPerWord :=
  Nat.and_pow_two_sub_one_eq_mod i 6

theorem div_wordSize_eq_succ {bit : Nat} (h : ¬bit < bitsPerWord) :
    bit / bitsPerWord = bit / bitsPerWord - 1 + 1 := by
  have := Nat.div_pos (Nat.le_of_not_lt h) (by decide : 0 < bitsPerWord)
  omega

/-! ## `set_bit` -/

/-- The tail after `set_bit` of a bit past the first word: `tail_mut`, grown to hold word
`bit / W - 1`, that word or-ed with the bit. -/
def setTail (tail : Option (List Nat)) (bit : Nat) : List Nat :=
  let word := bit / bitsPerWord - 1
  let tail := tail.getD []
  let tail := if word ≥ tail.length then resize tail (word + 1) 0 else tail
  tail.modify (· ||| 1 <<< (bit &&& (bitsPerWord - 1))) word

theorem getD_setTail (tail : Option (List Nat)) (bit j : Nat) :
    (setTail tail bit).getD j 0 = if j = bit / bitsPerWord - 1 then
      (tail.getD []).getD j 0 ||| 1 <<< (bit % bitsPerWord) else (tail.getD []).getD j 0 := by
  simp only [setTail, getD_modify_or _ _ _ _ (lt_length_grow _ _), getD_grow, and_wordMask]

/-- `set_bit`. -/
def setBit (b : Bitset) (bit : Nat) : Bitset :=
  if h : bit < bitsPerWord then
    ⟨b.head ||| 1 <<< bit, b.tail, fun j => by
      cases j with
      | zero => exact or_one_shiftLeft_lt (b.word_lt 0) h
      | succ j => exact b.word_lt (j + 1)⟩
  else
    ⟨b.head, some (setTail b.tail bit), fun j => by
      cases j with
      | zero => exact b.word_lt 0
      | succ j =>
        simp only [wordOf, Option.getD_some, getD_setTail]
        split_ifs
        · exact or_one_shiftLeft_lt (b.word_lt (j + 1)) (Nat.mod_lt _ (by decide))
        · exact b.word_lt (j + 1)⟩

theorem word_setBit (b : Bitset) (bit j : Nat) :
    (b.setBit bit).word j =
      if j = bit / bitsPerWord then b.word j ||| 1 <<< (bit % bitsPerWord) else b.word j := by
  by_cases h : bit < bitsPerWord
  · rw [setBit, dif_pos h, Nat.div_eq_of_lt h, Nat.mod_eq_of_lt h]
    cases j <;> simp [word, wordOf]
  · have hk := div_wordSize_eq_succ h
    rw [setBit, dif_neg h]
    cases j with
    | zero => simp only [word, wordOf, if_neg (by omega : 0 ≠ bit / bitsPerWord)]
    | succ j =>
      simp only [word, wordOf, Option.getD_some, getD_setTail]
      exact if_congr (by omega) rfl rfl

/-! ## `has_bit` -/

/-- `has_bit`. -/
def hasBit (b : Bitset) (bit : Nat) : Bool :=
  if bit < bitsPerWord then b.head &&& 1 <<< bit != 0
  else
    let word := bit / bitsPerWord - 1
    let tail := b.tail.getD []
    if word ≥ tail.length then false
    else tail.getD word 0 &&& 1 <<< (bit &&& (bitsPerWord - 1)) != 0

/-- Membership is the bit of the word. -/
theorem hasBit_eq_testBit (b : Bitset) (bit : Nat) :
    b.hasBit bit = (b.word (bit / bitsPerWord)).testBit (bit % bitsPerWord) := by
  by_cases h1 : bit < bitsPerWord
  · rw [hasBit, if_pos h1, and_one_shiftLeft_ne_zero, Nat.div_eq_of_lt h1, Nat.mod_eq_of_lt h1,
      word_zero]
  · rw [hasBit, if_neg h1]
    dsimp only
    rw [div_wordSize_eq_succ h1, word_succ, Nat.add_sub_cancel]
    split_ifs with h2
    · rw [List.getD_eq_default _ _ h2, Nat.zero_testBit]
    · rw [and_one_shiftLeft_ne_zero, and_wordMask]

@[simp] theorem hasBit_new (bit : Nat) : new.hasBit bit = false := by
  simp [hasBit_eq_testBit]

theorem testBit_or_one_shiftLeft (x m n : Nat) :
    (x ||| 1 <<< m).testBit n = (x.testBit n || decide (m = n)) := by
  rw [Nat.testBit_or, Nat.one_shiftLeft, Nat.testBit_two_pow]

/-- **`set_bit` inserts.** -/
@[simp] theorem hasBit_setBit (b : Bitset) (bit i : Nat) :
    (b.setBit bit).hasBit i = (b.hasBit i || decide (bit = i)) := by
  rw [hasBit_eq_testBit, hasBit_eq_testBit, word_setBit]
  split_ifs with h
  · rw [testBit_or_one_shiftLeft]
    congr 1
    apply decide_eq_decide.mpr
    unfold bitsPerWord at h ⊢
    omega
  · have : bit ≠ i := fun e => h (e ▸ rfl)
    simp [this]

/-! ## `|=` -/

/-- The loop `for i in 0..rtail.len() { stail[i] |= rtail[i] }`, on a tail grown to at least
the length of `rtail` (so the last case, where it would index past the tail, never runs). -/
def orInto : List Nat → List Nat → List Nat
  | s :: ss, r :: rs => (s ||| r) :: orInto ss rs
  | ss, [] => ss
  | [], _ :: _ => []

theorem getD_orInto : ∀ {ss rs : List Nat}, rs.length ≤ ss.length → ∀ j,
    (orInto ss rs).getD j 0 = ss.getD j 0 ||| rs.getD j 0
  | _, [], _, j => by simp [orInto]
  | [], _ :: _, h, _ => by simp at h
  | s :: ss, r :: rs, h, 0 => rfl
  | s :: ss, r :: rs, h, j + 1 => getD_orInto (by simpa using h) j

/-- The tail after `|=` by a bitset whose tail `rtail` is not empty. -/
def orTail (stail rtail : List Nat) : List Nat :=
  orInto (if rtail.length > stail.length then resize stail rtail.length 0 else stail) rtail

theorem getD_orTail (stail rtail : List Nat) (j : Nat) :
    (orTail stail rtail).getD j 0 = stail.getD j 0 ||| rtail.getD j 0 := by
  unfold orTail
  split_ifs with h
  · rw [getD_orInto (by rw [length_resize]) j, getD_resize (by omega)]
  · rw [getD_orInto (by omega) j]

/-- `self |= rhs` (`BitOrAssign`). -/
def bitorAssign (s r : Bitset) : Bitset :=
  if r.tail.getD [] = [] then
    ⟨s.head ||| r.head, s.tail, fun j => by
      cases j with
      | zero => exact Nat.or_lt_two_pow (s.word_lt 0) (r.word_lt 0)
      | succ j => exact s.word_lt (j + 1)⟩
  else
    ⟨s.head ||| r.head, some (orTail (s.tail.getD []) (r.tail.getD [])), fun j => by
      cases j with
      | zero => exact Nat.or_lt_two_pow (s.word_lt 0) (r.word_lt 0)
      | succ j =>
        simp only [wordOf, Option.getD_some, getD_orTail]
        exact Nat.or_lt_two_pow (s.word_lt (j + 1)) (r.word_lt (j + 1))⟩

theorem word_bitorAssign (s r : Bitset) (j : Nat) :
    (s.bitorAssign r).word j = s.word j ||| r.word j := by
  unfold bitorAssign
  split_ifs with h
  · cases j with
    | zero => rfl
    | succ j => simp [word, wordOf, h]
  · cases j with
    | zero => rfl
    | succ j => simp only [word, wordOf, Option.getD_some, getD_orTail]

/-- **`|=` is the union.** -/
@[simp] theorem hasBit_bitorAssign (s r : Bitset) (i : Nat) :
    (s.bitorAssign r).hasBit i = (s.hasBit i || r.hasBit i) := by
  simp only [hasBit_eq_testBit, word_bitorAssign, Nat.testBit_or]

/-! ## Iteration -/

/-- `usize::trailing_zeros`: the index of the lowest set bit, `W` for zero. -/
def trailingZeros (w : Nat) : Nat :=
  if w = 0 then bitsPerWord else if w % 2 = 1 then 0 else trailingZeros (w / 2) + 1
termination_by w
decreasing_by omega

theorem testBit_trailingZeros {w : Nat} (h : w ≠ 0) : w.testBit (trailingZeros w) = true := by
  induction w using Nat.strong_induction_on with
  | _ w ih =>
    rw [trailingZeros, if_neg h]
    split_ifs with hw
    · simp [Nat.testBit_zero, hw]
    · rw [Nat.testBit_succ]
      exact ih _ (by omega) (by omega)

/-- `bits & (bits - 1)` clears the lowest set bit. -/
theorem testBit_and_sub_one {w : Nat} (h : w ≠ 0) (i : Nat) :
    (w &&& (w - 1)).testBit i = (w.testBit i && decide (i ≠ trailingZeros w)) := by
  induction w using Nat.strong_induction_on generalizing i with
  | _ w ih =>
    rw [trailingZeros, if_neg h, Nat.testBit_and]
    split_ifs with hw
    · cases i with
      | zero => simp [Nat.testBit_zero]; omega
      | succ i =>
        simp only [Nat.testBit_succ, ne_eq, Nat.add_one_ne_zero, not_false_eq_true,
          decide_True, Bool.and_true]
        rw [show (w - 1) / 2 = w / 2 by omega, Bool.and_self]
    · cases i with
      | zero => simp [Nat.testBit_zero, hw]
      | succ i =>
        have := ih (w / 2) (by omega) (by omega) i
        rw [Nat.testBit_and] at this
        simp only [Nat.testBit_succ, show (w - 1) / 2 = w / 2 - 1 by omega, this]
        simp

theorem trailingZeros_lt {w : Nat} (h : w ≠ 0) (hw : w < 2 ^ bitsPerWord) :
    trailingZeros w < bitsPerWord := by
  by_contra hc
  have := Nat.testBit_lt_two_pow (Nat.lt_of_lt_of_le hw (Nat.pow_le_pow_right (by decide)
    (Nat.le_of_not_lt hc)))
  rw [testBit_trailingZeros h] at this
  exact Bool.noConfusion this

theorem and_sub_one_lt {w : Nat} (h : w ≠ 0) : w &&& (w - 1) < w :=
  Nat.lt_of_le_of_lt Nat.and_le_right (by omega)

/-- `BitsetIter`: the word being read, the index of its bit `0`, and the words left. -/
structure BitsetIter where
  bits : Nat
  offset : Nat
  buffer : List Nat

/-- `BitsetIter::next`: skip empty words, then yield the lowest bit of the current one and
clear it. -/
def BitsetIter.next : BitsetIter → Option (Nat × BitsetIter)
  | ⟨bits, offset, buffer⟩ =>
    if bits = 0 then
      match buffer with
      | [] => none
      | w :: ws => BitsetIter.next ⟨w, offset + bitsPerWord, ws⟩
    else some (trailingZeros bits + offset, ⟨bits &&& (bits - 1), offset, buffer⟩)
termination_by it => it.buffer.length

/-- Everything `next` yields, in order, until it returns `None`. -/
def BitsetIter.items (bits offset : Nat) (buffer : List Nat) : List Nat :=
  if h : bits = 0 then
    match buffer with
    | [] => []
    | w :: ws => BitsetIter.items w (offset + bitsPerWord) ws
  else (trailingZeros bits + offset) :: BitsetIter.items (bits &&& (bits - 1)) offset buffer
termination_by (buffer.length, bits)
decreasing_by
  · exact Prod.Lex.left _ _ (by simp)
  · exact Prod.Lex.right _ (and_sub_one_lt h)

/-- `items` is what repeated calls of `next` yield. -/
theorem BitsetIter.items_eq_next (bits offset : Nat) (buffer : List Nat) :
    BitsetIter.items bits offset buffer = match BitsetIter.next ⟨bits, offset, buffer⟩ with
      | none => []
      | some (x, it) => x :: BitsetIter.items it.bits it.offset it.buffer := by
  induction bits, offset, buffer using BitsetIter.items.induct with
  | case1 offset => rw [BitsetIter.items.eq_def, BitsetIter.next.eq_def]; rfl
  | case2 offset w ws ih => rw [BitsetIter.items.eq_def, BitsetIter.next.eq_def]; exact ih
  | case3 bits offset buffer hne _ =>
    rw [BitsetIter.items.eq_def, BitsetIter.next.eq_def, dif_neg hne]; simp only [if_neg hne]

/-- The members of a bitset, as `for x in &bitset` visits them. -/
def items (b : Bitset) : List Nat := BitsetIter.items b.head 0 (b.tail.getD [])

/-- What iterating from word `bits` at `offset` with the words `buffer` left yields. -/
theorem mem_iterItems {bits offset : Nat} {buffer : List Nat} (hb : bits < 2 ^ bitsPerWord)
    (hbuf : ∀ j, buffer.getD j 0 < 2 ^ bitsPerWord) (x : Nat) :
    x ∈ BitsetIter.items bits offset buffer ↔ offset ≤ x ∧
      (wordOf bits (some buffer) ((x - offset) / bitsPerWord)).testBit
        ((x - offset) % bitsPerWord) = true := by
  induction bits, offset, buffer using BitsetIter.items.induct with
  | case1 offset =>
    rw [BitsetIter.items.eq_def, dif_pos rfl]
    simp only [List.not_mem_nil, false_iff, not_and]
    intro _
    cases (x - offset) / bitsPerWord <;> simp [wordOf]
  | case2 offset w ws ih =>
    rw [BitsetIter.items.eq_def, dif_pos rfl]
    rw [ih (hbuf 0) (fun j => hbuf (j + 1))]
    by_cases hx : x - offset < bitsPerWord
    · have h1 : (x - offset) / bitsPerWord = 0 := Nat.div_eq_of_lt hx
      simp only [h1, wordOf, Nat.zero_testBit, Bool.false_eq_true, and_false, iff_false, not_and]
      unfold bitsPerWord at hx ⊢
      omega
    · have h2 : (x - offset) / bitsPerWord = (x - (offset + bitsPerWord)) / bitsPerWord + 1 := by
        unfold bitsPerWord at hx ⊢; omega
      have h3 : (x - offset) % bitsPerWord = (x - (offset + bitsPerWord)) % bitsPerWord := by
        unfold bitsPerWord at hx ⊢; omega
      have hw : ∀ q, wordOf 0 (some (w :: ws)) (q + 1) = wordOf w (some ws) q := by
        intro q; cases q <;> rfl
      rw [h2, h3, hw, show offset + bitsPerWord ≤ x ↔ offset ≤ x by omega]
  | case3 bits offset buffer hne ih =>
    rw [BitsetIter.items.eq_def, dif_neg hne, List.mem_cons,
      ih (Nat.lt_of_le_of_lt (Nat.le_of_lt (and_sub_one_lt hne)) hb) hbuf]
    have htz := trailingZeros_lt hne hb
    by_cases hx : x - offset < bitsPerWord
    · have h1 : (x - offset) / bitsPerWord = 0 := Nat.div_eq_of_lt hx
      simp only [h1, wordOf, testBit_and_sub_one hne, Nat.mod_eq_of_lt hx, Bool.and_eq_true,
        decide_eq_true_eq]
      constructor
      · rintro (rfl | ⟨h, hb, -⟩)
        · simp [testBit_trailingZeros hne]
        · exact ⟨h, hb⟩
      · rintro ⟨h, hb⟩
        by_cases e : x - offset = trailingZeros bits
        · left; omega
        · exact Or.inr ⟨h, hb, e⟩
    · have h2 : (x - offset) / bitsPerWord ≠ 0 := by
        intro h0; rw [Nat.div_eq_zero_iff (by decide)] at h0; exact hx h0
      obtain ⟨k, hk⟩ := Nat.exists_eq_succ_of_ne_zero h2
      rw [hk]
      simp only [wordOf]
      constructor
      · rintro (rfl | h)
        · omega
        · exact h
      · exact Or.inr

/-- **Iterating a bitset yields exactly its members.** -/
theorem mem_items (b : Bitset) (x : Nat) : x ∈ b.items ↔ b.hasBit x = true := by
  rw [items, mem_iterItems (show b.head < _ from b.word_lt 0) (fun j => b.word_lt (j + 1)),
    hasBit_eq_testBit]
  have hw : ∀ j, wordOf b.head (some (b.tail.getD [])) j = b.word j := by
    intro j; cases j <;> rfl
  simp only [Nat.sub_zero, Nat.zero_le, true_and, hw]

theorem trailingZeros_le_of_testBit {w i : Nat} (h : w.testBit i = true) : trailingZeros w ≤ i := by
  induction w using Nat.strong_induction_on generalizing i with
  | _ w ih =>
    have hw : w ≠ 0 := by rintro rfl; simp at h
    rw [trailingZeros, if_neg hw]
    split_ifs with hodd
    · exact Nat.zero_le i
    · cases i with
      | zero => simp [Nat.testBit_zero, hodd] at h
      | succ i =>
        rw [Nat.testBit_succ] at h
        exact Nat.succ_le_succ (ih _ (by omega) h)

/-- Iterating from word `bits` at `offset` yields its bits in strictly ascending order. -/
theorem sorted_iterItems {bits offset : Nat} {buffer : List Nat} (hb : bits < 2 ^ bitsPerWord)
    (hbuf : ∀ j, buffer.getD j 0 < 2 ^ bitsPerWord) :
    (BitsetIter.items bits offset buffer).Sorted (· < ·) := by
  induction bits, offset, buffer using BitsetIter.items.induct with
  | case1 offset => rw [BitsetIter.items.eq_def, dif_pos rfl]; exact List.sorted_nil
  | case2 offset w ws ih =>
    rw [BitsetIter.items.eq_def, dif_pos rfl]
    exact ih (hbuf 0) (fun j => hbuf (j + 1))
  | case3 bits offset buffer hne ih =>
    have hb' : bits &&& (bits - 1) < 2 ^ bitsPerWord := Nat.lt_trans (and_sub_one_lt hne) hb
    rw [BitsetIter.items.eq_def, dif_neg hne]
    refine List.sorted_cons.mpr ⟨fun y hy => ?_, ih hb' hbuf⟩
    obtain ⟨hoff, hy⟩ := (mem_iterItems hb' hbuf y).mp hy
    have htz := trailingZeros_lt hne hb
    by_cases hx : y - offset < bitsPerWord
    · rw [Nat.div_eq_of_lt hx, Nat.mod_eq_of_lt hx, wordOf, testBit_and_sub_one hne,
        Bool.and_eq_true, decide_eq_true_eq] at hy
      have := trailingZeros_le_of_testBit hy.1
      omega
    · omega

/-- **Iterating a bitset yields its members in strictly ascending order.** -/
theorem sorted_items (b : Bitset) : b.items.Sorted (· < ·) :=
  sorted_iterItems (b.word_lt 0) (fun j => b.word_lt (j + 1))

end Bitset

/-! ## Bitsets as finite sets -/

/-- The bitsets `verify.rs` builds: `Bitset::new()`, then `set_bit` and `|=` by such a bitset. -/
inductive BitsetOps
  | new
  | setBit (b : BitsetOps) (bit : Nat)
  | bitorAssign (b r : BitsetOps)

namespace BitsetOps

/-- The bitset the operations build. -/
def run : BitsetOps → Bitset
  | .new => Bitset.new
  | .setBit b bit => b.run.setBit bit
  | .bitorAssign b r => b.run.bitorAssign r.run

/-- The finite set the same insertions and unions build. -/
def set : BitsetOps → Finset Nat
  | .new => ∅
  | .setBit b bit => insert bit b.set
  | .bitorAssign b r => b.set ∪ r.set

@[simp] theorem hasBit_run (e : BitsetOps) (i : Nat) : e.run.hasBit i = true ↔ i ∈ e.set := by
  induction e with
  | new => simp [run, set]
  | setBit b bit ih =>
    rw [run, set, Bitset.hasBit_setBit, Bool.or_eq_true, ih, decide_eq_true_eq, Finset.mem_insert,
      or_comm, eq_comm]
  | bitorAssign b r ihb ihr => simp [run, set, ihb, ihr]

/-- **A bitset is the finite set built by the same operations**: `has_bit` is membership, and
iterating it yields the set's members, each once, in strictly ascending order. -/
theorem run_spec (e : BitsetOps) :
    (∀ i, e.run.hasBit i = true ↔ i ∈ e.set) ∧ e.run.items = e.set.sort (· ≤ ·) := by
  refine ⟨hasBit_run e, ?_⟩
  have hsorted := Bitset.sorted_items e.run
  have hset : e.run.items.toFinset = e.set := by
    ext i; rw [List.mem_toFinset, Bitset.mem_items, hasBit_run]
  rw [← hset]
  exact ((List.toFinset_sort _ hsorted.nodup).mpr hsorted.le_of_lt).symm

end BitsetOps

end MetamathKnife
