import Mathlib.Algebra.Order.Ring.Nat
import Mathlib.Data.List.DropRight
import Mathlib.Data.Nat.Digits.Defs
import Mathlib.Tactic.Linarith
import Mathlib.Tactic.Ring
import ProcessorFuzz.Library.Python
import ProcessorFuzz.Library.Text

/-!
# Reading text back

The other half of the string library: positions and slices, numerals, lines, and the splitting
methods. A numeral is read by `int`; the value of its digits is a left fold, so the law for
appended digits carries the round trips of all the padded formats at once.
-/

namespace ProcessorFuzz.Library.Text

section Positions

variable {α : Type*}

/-- `l[i]`; negative positions count from the end. -/
def item (l : List α) (i : ℤ) : Except PyError α :=
  let j := if i < 0 then i + l.length else i
  if j < 0 then .error .indexError
  else
    match l[j.toNat]? with
    | none => .error .indexError
    | some a => .ok a

/-- A bound of a slice: negative ones count from the end, and it is clamped to the list. -/
def sliceBound (length : ℕ) (i : ℤ) : ℕ :=
  if i < 0 then (i + length).toNat else min i.toNat length

/-- `l[a:b]`. -/
def slice (l : List α) (a b : ℤ) : List α :=
  (l.take (sliceBound l.length b)).drop (sliceBound l.length a)

theorem item_natCast (l : List α) (i : ℕ) :
    item l i = (match l[i]? with | none => .error .indexError | some a => .ok a) := by
  have hi : ¬((i : ℤ) < 0) := by omega
  unfold item
  simp only [hi, if_false, Int.toNat_natCast]

theorem item_of_getElem? {l : List α} {i : ℕ} {a : α} (h : l[i]? = some a) :
    item l i = .ok a := by
  rw [item_natCast, h]

theorem mem_of_item_eq_ok {l : List α} {i : ℤ} {a : α} (h : item l i = .ok a) : a ∈ l := by
  unfold item at h
  extract_lets j at h
  split at h
  · exact nomatch h
  · split at h
    · exact nomatch h
    · next hget =>
      obtain rfl := Except.ok.inj h
      exact List.mem_of_getElem? hget

theorem take_min_drop_min (l : List α) (a b : ℕ) :
    (l.take (min b l.length)).drop (min a l.length) = (l.take b).drop a := by
  have htake : l.take (min b l.length) = l.take b := by
    rcases Nat.le_total b l.length with hle | hle
    · rw [Nat.min_eq_left hle]
    · rw [Nat.min_eq_right hle, List.take_length, List.take_of_length_le hle]
  rw [htake]
  rcases Nat.le_total a l.length with hle | hle
  · rw [Nat.min_eq_left hle]
  · have hlength : (l.take b).length ≤ l.length := List.length_take_le' b l
    rw [Nat.min_eq_right hle, List.drop_eq_nil_of_le hlength,
      List.drop_eq_nil_of_le (hlength.trans hle)]

theorem slice_natCast (l : List α) (a b : ℕ) :
    slice l a b = (l.take b).drop a := by
  have ha : ¬((a : ℤ) < 0) := by omega
  have hb : ¬((b : ℤ) < 0) := by omega
  unfold slice sliceBound
  simp only [ha, hb, if_false, Int.toNat_natCast]
  exact take_min_drop_min l a b

/-- `l[a:-1]`. -/
theorem slice_neg_one (l : List α) (a : ℕ) : slice l a (-1) = l.dropLast.drop a := by
  have hstart : sliceBound l.length a = min a l.length := by
    rw [sliceBound, if_neg (Int.natCast_nonneg a).not_gt, Int.toNat_natCast]
  have hend : sliceBound l.length (-1) = l.length - 1 := by
    rw [sliceBound, if_pos (by decide)]
    omega
  rw [slice, hstart, hend, ← List.dropLast_eq_take]
  rcases Nat.le_total a l.length with hle | hle
  · rw [Nat.min_eq_left hle]
  · have hlength : l.dropLast.length ≤ l.length := by
      rw [List.length_dropLast]
      exact Nat.sub_le _ _
    rw [Nat.min_eq_right hle, List.drop_eq_nil_of_le hlength,
      List.drop_eq_nil_of_le (hlength.trans hle)]

/-- The middle part of a list, found by its position. -/
theorem slice_append_append {a b : ℕ} (left middle right : List α) (ha : left.length = a)
    (hb : left.length + middle.length = b) :
    slice (left ++ middle ++ right) a b = middle := by
  subst ha hb
  rw [slice_natCast, ← List.length_append, List.take_left, List.drop_left]

end Positions

/-- `c.isspace()`. -/
def isSpace (c : Char) : Bool :=
  let n := c.toNat
  (9 ≤ n && n ≤ 13) || (28 ≤ n && n ≤ 32) || n == 0x85 || n == 0xa0 || n == 0x1680 ||
    (0x2000 ≤ n && n ≤ 0x200a) || n == 0x2028 || n == 0x2029 || n == 0x202f || n == 0x205f ||
    n == 0x3000

/-- `text.rstrip()`. -/
def rstrip (text : Text) : Text := text.rdropWhile isSpace

/-- `text.strip()`. -/
def strip (text : Text) : Text := rstrip (text.dropWhile isSpace)

theorem rstrip_eq_self {text : Text} (h : ∀ c ∈ text.getLast?, isSpace c = false) :
    rstrip text = text := by
  rw [rstrip, List.rdropWhile_eq_self_iff]
  intro hne
  rw [h _ (List.getLast?_eq_some_getLast hne)]
  exact Bool.false_ne_true

/-- A text is its trimmed text and some whitespace behind it. -/
theorem exists_rstrip_append (text : Text) :
    ∃ blanks, text = rstrip text ++ blanks ∧ ∀ c ∈ blanks, isSpace c = true := by
  induction text using List.reverseRecOn with
  | nil => exact ⟨[], rfl, fun c hc ↦ absurd hc List.not_mem_nil⟩
  | append_singleton text c ih =>
    by_cases hc : isSpace c = true
    · obtain ⟨blanks, htext, hblanks⟩ := ih
      refine ⟨blanks ++ [c], ?_, ?_⟩
      · rw [rstrip, List.rdropWhile_concat_pos _ _ _ hc, ← List.append_assoc]
        exact congrArg (· ++ [c]) htext
      · intro d hd
        rcases List.mem_append.mp hd with hd | hd
        · exact hblanks d hd
        · rwa [List.mem_singleton.mp hd]
    · refine ⟨[], ?_, fun d hd ↦ absurd hd List.not_mem_nil⟩
      rw [rstrip, List.rdropWhile_concat_neg _ _ _ hc, List.append_nil]

theorem length_rstrip_le (text : Text) : (rstrip text).length ≤ text.length := by
  obtain ⟨blanks, htext, -⟩ := exists_rstrip_append text
  conv_rhs => rw [htext]
  rw [List.length_append]
  exact Nat.le_add_right _ _

theorem rstrip_append {text blanks : Text} (h : ∀ c ∈ blanks, isSpace c = true) :
    rstrip (text ++ blanks) = rstrip text := by
  induction blanks using List.reverseRecOn with
  | nil => rw [List.append_nil]
  | append_singleton blanks c ih =>
    have hc : isSpace c = true := h c (by simp)
    rw [← List.append_assoc, rstrip, List.rdropWhile_concat_pos _ _ _ hc]
    exact ih fun d hd ↦ h d (List.mem_append_left _ hd)

/-- Cutting off nothing but whitespace. -/
theorem rstrip_take {text : Text} {n : ℕ} (h : (rstrip text).length ≤ n) :
    rstrip (text.take n) = rstrip text := by
  obtain ⟨blanks, htext, hblanks⟩ := exists_rstrip_append text
  have htake : text.take n = rstrip text ++ blanks.take (n - (rstrip text).length) := by
    conv_lhs => rw [htext]
    rw [List.take_append, List.take_of_length_le h]
  rw [htake, rstrip_append fun c hc ↦ hblanks c (List.mem_of_mem_take hc)]
  exact List.rdropWhile_idempotent isSpace text

theorem strip_eq_self {text : Text} (h : ∀ c ∈ text, isSpace c = false) : strip text = text := by
  have hdrop : text.dropWhile isSpace = text := by
    cases text with
    | nil => rfl
    | cons c rest => simp [h c List.mem_cons_self]
  rw [strip, hdrop]
  exact rstrip_eq_self fun c hc ↦ h c (List.mem_of_getLast? hc)

/-- The value of an ASCII digit or letter in a numeral. -/
def digitValue (c : Char) : Option ℕ :=
  if c.isDigit then some (c.toNat - '0'.toNat)
  else if 'a' ≤ c ∧ c ≤ 'z' then some (c.toNat - 'a'.toNat + 10)
  else if 'A' ≤ c ∧ c ≤ 'Z' then some (c.toNat - 'A'.toNat + 10)
  else none

/-- Digits with single underscores between them; the flag tells that the last character was a
digit. -/
def readDigits (base : ℕ) : ℕ → Bool → Text → Option ℕ
  | acc, true, [] => some acc
  | _, false, [] => none
  | acc, afterDigit, c :: rest =>
    if c = '_' then
      if afterDigit then readDigits base acc false rest else none
    else
      match digitValue c with
      | none => none
      | some d => if d < base then readDigits base (acc * base + d) true rest else none

/-- The letter of the prefix that a numeral of this base may have after its first `0`. -/
def isRadixLetter (base : ℕ) (c : Char) : Bool :=
  (base == 2 && (c == 'b' || c == 'B')) || (base == 8 && (c == 'o' || c == 'O')) ||
    (base == 16 && (c == 'x' || c == 'X'))

def readUnsigned (base : ℕ) : Text → Option ℕ
  | '0' :: c :: rest =>
    if isRadixLetter base c then
      match rest with
      | '_' :: rest => readDigits base 0 false rest
      | rest => readDigits base 0 false rest
    else readDigits base 0 false ('0' :: c :: rest)
  | text => readDigits base 0 false text

def readSigned (base : ℕ) : Text → Option ℤ
  | '+' :: rest => (readUnsigned base rest).map fun n ↦ (n : ℤ)
  | '-' :: rest => (readUnsigned base rest).map fun n ↦ -(n : ℤ)
  | text => (readUnsigned base text).map fun n ↦ (n : ℤ)

/-- `int(text, base)`. -/
def int (base : ℕ) (text : Text) : Except PyError ℤ :=
  match readSigned base (strip text) with
  | none => .error .valueError
  | some n => .ok n

/-- A plain numeral: digits below the base only. -/
def IsNumeral (base : ℕ) (text : Text) : Prop := ∀ c ∈ text, ∃ d < base, digitValue c = some d

/-- The value of the digits, most significant first. -/
def numeralValue (base : ℕ) (text : Text) : ℕ :=
  text.foldl (fun acc c ↦ acc * base + (digitValue c).getD 0) 0

theorem foldl_digits (base acc : ℕ) (text : Text) :
    text.foldl (fun acc c ↦ acc * base + (digitValue c).getD 0) acc =
      acc * base ^ text.length + numeralValue base text := by
  induction text generalizing acc with
  | nil => simp [numeralValue]
  | cons c rest ih =>
    rw [numeralValue, List.foldl_cons, List.foldl_cons, ih, ih (0 * base + _), List.length_cons]
    ring

theorem numeralValue_append (base : ℕ) (left right : Text) :
    numeralValue base (left ++ right) =
      numeralValue base left * base ^ right.length + numeralValue base right := by
  calc
    numeralValue base (left ++ right) =
        right.foldl (fun acc c ↦ acc * base + (digitValue c).getD 0) (numeralValue base left) :=
      List.foldl_append
    _ = _ := foldl_digits base _ right

theorem numeralValue_replicate_zero (base k : ℕ) :
    numeralValue base (List.replicate k '0') = 0 := by
  induction k with
  | zero => rfl
  | succ k ih =>
    rw [List.replicate_succ, ← List.singleton_append, numeralValue_append, ih]
    have hzero : numeralValue base ['0'] = 0 := by simp [numeralValue, digitValue]
    rw [hzero, Nat.zero_mul]

theorem readDigits_eq {base : ℕ} {text : Text} (h : IsNumeral base text) (acc : ℕ) :
    readDigits base acc true text =
      some (text.foldl (fun acc c ↦ acc * base + (digitValue c).getD 0) acc) := by
  induction text generalizing acc with
  | nil => rfl
  | cons c rest ih =>
    obtain ⟨d, hd, hc⟩ := h c List.mem_cons_self
    have hne : c ≠ '_' := by
      rintro rfl
      exact absurd hc (by simp [digitValue])
    simp only [readDigits, hne, if_false, hc, hd, if_true, List.foldl_cons, Option.getD_some]
    exact ih (fun x hx ↦ h x (List.mem_cons_of_mem c hx)) _

theorem IsNumeral.ne_of_digitValue {base : ℕ} {text : Text} (h : IsNumeral base text) {x : Char}
    (hx : ∀ d < base, digitValue x ≠ some d) : ∀ c ∈ text, c ≠ x := by
  rintro c hc rfl
  obtain ⟨d, hd, hvalue⟩ := h c hc
  exact hx d hd hvalue

theorem isSpace_of_digitValue {c : Char} {d : ℕ} (h : digitValue c = some d) :
    isSpace c = false := by
  have hrange : (48 ≤ c.toNat ∧ c.toNat ≤ 57) ∨ (97 ≤ c.toNat ∧ c.toNat ≤ 122) ∨
      (65 ≤ c.toNat ∧ c.toNat ≤ 90) := by
    unfold digitValue at h
    split at h
    · next hdigit =>
      rw [Char.isDigit, Bool.and_eq_true, decide_eq_true_eq, decide_eq_true_eq] at hdigit
      exact .inl hdigit
    · split at h
      · next hlower => exact .inr (.inl hlower)
      · split at h
        · next hupper => exact .inr (.inr hupper)
        · exact nomatch h
  simp only [isSpace, Bool.or_eq_false_iff, Bool.and_eq_false_iff, decide_eq_false_iff_not,
    beq_eq_false_iff_ne]
  omega

theorem readDigits_numeral {base : ℕ} {text : Text} (hne : text ≠ []) (h : IsNumeral base text) :
    readDigits base 0 false text = some (numeralValue base text) := by
  cases text with
  | nil => exact absurd rfl hne
  | cons c rest =>
    have hflag : readDigits base 0 false (c :: rest) = readDigits base 0 true (c :: rest) := by
      obtain ⟨d, -, hc⟩ := h c List.mem_cons_self
      have hunderscore : c ≠ '_' := by
        rintro rfl
        exact absurd hc (by simp [digitValue])
      simp only [readDigits, hunderscore, if_false]
    rw [hflag, readDigits_eq h]
    rfl

theorem readUnsigned_numeral {base : ℕ} {text : Text} (hne : text ≠ [])
    (h : IsNumeral base text) :
    readUnsigned base text = some (numeralValue base text) := by
  have hdigits := readDigits_numeral hne h
  unfold readUnsigned
  split
  · next c rest =>
    have hletter : isRadixLetter base c = false := by
      obtain ⟨d, hd, hc⟩ := h c (by simp)
      by_contra hletter
      simp only [isRadixLetter, Bool.not_eq_false, Bool.or_eq_true, Bool.and_eq_true,
        beq_iff_eq] at hletter
      rcases hletter with (⟨rfl, rfl | rfl⟩ | ⟨rfl, rfl | rfl⟩) | ⟨rfl, rfl | rfl⟩ <;>
        simp [digitValue] at hc <;> omega
    rw [if_neg (by rw [hletter]; exact Bool.false_ne_true)]
    exact hdigits
  · exact hdigits

/-- A plain numeral is read as its value. -/
theorem int_numeral {base : ℕ} {text : Text} (hne : text ≠ []) (h : IsNumeral base text) :
    int base text = .ok (numeralValue base text : ℤ) := by
  have hstrip : strip text = text := by
    apply strip_eq_self
    intro c hc
    obtain ⟨d, -, hvalue⟩ := h c hc
    exact isSpace_of_digitValue hvalue
  have hsigned : readSigned base text = some (numeralValue base text : ℤ) := by
    have hplus : ∀ c ∈ text, c ≠ '+' := h.ne_of_digitValue fun d _ ↦ by simp [digitValue]
    have hminus : ∀ c ∈ text, c ≠ '-' := h.ne_of_digitValue fun d _ ↦ by simp [digitValue]
    unfold readSigned
    split
    · exact absurd rfl (hplus '+' List.mem_cons_self)
    · exact absurd rfl (hminus '-' List.mem_cons_self)
    · rw [readUnsigned_numeral hne h]
      rfl
  unfold int
  rw [hstrip, hsigned]

/-- A numeral of base 16 may have a prefix. -/
theorem int_hex_prefix {text : Text} (hne : text ≠ []) (h : IsNumeral 16 text) :
    int 16 ('0' :: 'x' :: text) = .ok (numeralValue 16 text : ℤ) := by
  have hspace : ∀ c ∈ '0' :: 'x' :: text, isSpace c = false := by
    intro c hc
    rcases List.mem_cons.mp hc with rfl | hc
    · decide
    · rcases List.mem_cons.mp hc with rfl | hc
      · decide
      · obtain ⟨d, -, hvalue⟩ := h c hc
        exact isSpace_of_digitValue hvalue
  have hunsigned : readUnsigned 16 ('0' :: 'x' :: text) = some (numeralValue 16 text) := by
    have hdigits := readDigits_numeral hne h
    have hletter : isRadixLetter 16 'x' = true := by decide
    simp only [readUnsigned, hletter, if_true]
    split
    · next rest =>
      exact absurd rfl (h.ne_of_digitValue (fun d _ ↦ by simp [digitValue]) '_' List.mem_cons_self)
    · exact hdigits
  unfold int
  rw [strip_eq_self hspace, readSigned, hunsigned]
  · rfl
  · exact fun rest heq ↦ absurd (List.cons.inj heq).1 (by decide)
  · exact fun rest heq ↦ absurd (List.cons.inj heq).1 (by decide)

theorem digitValue_digitChar {n : ℕ} (h : n < 16) : digitValue (Nat.digitChar n) = some n := by
  have hall : ∀ m < 16, digitValue (Nat.digitChar m) = some m := by decide
  exact hall n h

theorem isNumeral_toDigits {base : ℕ} (hone : 1 < base) (hbase : base ≤ 16) (n : ℕ) :
    IsNumeral base (Nat.toDigits base n) := by
  induction n using Nat.strong_induction_on with
  | _ n ih =>
    rw [Nat.toDigits_eq_if hone]
    split
    · next hlt =>
      intro c hc
      rw [List.mem_singleton.mp hc]
      exact ⟨n, hlt, digitValue_digitChar (by omega)⟩
    · next hle =>
      intro c hc
      have hmod : n % base < base := Nat.mod_lt n (by omega)
      rcases List.mem_append.mp hc with hc | hc
      · exact ih (n / base) (Nat.div_lt_self (by omega) hone) c hc
      · rw [List.mem_singleton.mp hc]
        exact ⟨n % base, hmod, digitValue_digitChar (by omega)⟩

theorem numeralValue_toDigits {base : ℕ} (hone : 1 < base) (hbase : base ≤ 16) (n : ℕ) :
    numeralValue base (Nat.toDigits base n) = n := by
  have hdigit : ∀ m < base, numeralValue base [Nat.digitChar m] = m := by
    intro m hm
    simp [numeralValue, digitValue_digitChar (show m < 16 by omega)]
  induction n using Nat.strong_induction_on with
  | _ n ih =>
    rw [Nat.toDigits_eq_if hone]
    split
    · next hlt => exact hdigit n hlt
    · next hle =>
      calc
        numeralValue base (Nat.toDigits base (n / base) ++ [Nat.digitChar (n % base)]) =
            n / base * base ^ 1 + n % base := by
          rw [numeralValue_append, ih (n / base) (Nat.div_lt_self (by omega) hone),
            hdigit _ (Nat.mod_lt n (by omega))]
          rfl
        _ = n := by
          rw [pow_one, Nat.mul_comm]
          exact Nat.div_add_mod n base

/-- The format fields `{:0<width>x}` and `{:0<width>b}`: pad with zeros on the left. -/
def zeroPad (base width n : ℕ) : Text :=
  List.replicate (width - (Nat.toDigits base n).length) '0' ++ Nat.toDigits base n

theorem hexPad_eq_zeroPad (width n : ℕ) : hexPad width n = zeroPad 16 width n := rfl

/-- `{:0<width>b}` of a natural number. -/
def binPad (width n : ℕ) : Text := zeroPad 2 width n

theorem zeroPad_ne_nil (base width n : ℕ) : zeroPad base width n ≠ [] := by
  intro h
  exact Nat.toDigits_ne_nil (List.append_eq_nil_iff.mp h).2

theorem isNumeral_zeroPad {base : ℕ} (hone : 1 < base) (hbase : base ≤ 16) (width n : ℕ) :
    IsNumeral base (zeroPad base width n) := by
  intro c hc
  rcases List.mem_append.mp hc with hc | hc
  · rw [List.eq_of_mem_replicate hc]
    exact ⟨0, by omega, by decide⟩
  · exact isNumeral_toDigits hone hbase n c hc

theorem numeralValue_zeroPad {base : ℕ} (hone : 1 < base) (hbase : base ≤ 16) (width n : ℕ) :
    numeralValue base (zeroPad base width n) = n := by
  rw [zeroPad, numeralValue_append, numeralValue_replicate_zero, Nat.zero_mul, Nat.zero_add,
    numeralValue_toDigits hone hbase]

theorem length_zeroPad {base width n : ℕ} (hone : 1 < base) (hwidth : 0 < width)
    (h : n < base ^ width) : (zeroPad base width n).length = width := by
  have hle : (Nat.toDigits base n).length ≤ width :=
    (Nat.length_toDigits_le_iff hone hwidth).mpr h
  rw [zeroPad, List.length_append, List.length_replicate]
  omega

/-- A number printed with leading zeros is read back. -/
theorem int_zeroPad {base : ℕ} (hone : 1 < base) (hbase : base ≤ 16) (width n : ℕ) :
    int base (zeroPad base width n) = .ok (n : ℤ) := by
  rw [int_numeral (zeroPad_ne_nil base width n) (isNumeral_zeroPad hone hbase width n),
    numeralValue_zeroPad hone hbase]

theorem length_hexPad {width n : ℕ} (hwidth : 0 < width) (h : n < 16 ^ width) :
    (hexPad width n).length = width :=
  length_zeroPad (by decide) hwidth h

theorem int_hexPad (width n : ℕ) : int 16 (hexPad width n) = .ok (n : ℤ) :=
  int_zeroPad (by decide) (by decide) width n

theorem int_binPad (width n : ℕ) : int 2 (binPad width n) = .ok (n : ℤ) :=
  int_zeroPad (by decide) (by decide) width n

theorem int_dec (n : ℕ) : int 10 (dec n) = .ok (n : ℤ) := by
  rw [int_numeral (dec_ne_nil n) (isNumeral_toDigits (by decide) (by decide) n),
    dec, numeralValue_toDigits (by decide) (by decide)]

/-- A numeral with a sign is read as the negative of its value. -/
theorem int_neg_dec (n : ℕ) : int 10 ('-' :: dec n) = .ok (-(n : ℤ)) := by
  have hnumeral : IsNumeral 10 (dec n) := isNumeral_toDigits (by decide) (by decide) n
  have hstrip : strip ('-' :: dec n) = '-' :: dec n := by
    apply strip_eq_self
    intro c hc
    rcases List.mem_cons.mp hc with rfl | hc
    · decide
    · obtain ⟨d, -, hvalue⟩ := hnumeral c hc
      exact isSpace_of_digitValue hvalue
  have hvalue : numeralValue 10 (dec n) = n := numeralValue_toDigits (by decide) (by decide) n
  have hsigned : readSigned 10 ('-' :: dec n) = some (-(n : ℤ)) := by
    rw [readSigned, readUnsigned_numeral (dec_ne_nil n) hnumeral, hvalue]
    rfl
  unfold int
  rw [hstrip, hsigned]

theorem IsNumeral.value_lt {base : ℕ} {text : Text} (h : IsNumeral base text) :
    numeralValue base text < base ^ text.length := by
  induction text with
  | nil => simp [numeralValue]
  | cons c rest ih =>
    obtain ⟨d, hd, hc⟩ := h c List.mem_cons_self
    have hrest := ih fun x hx ↦ h x (List.mem_cons_of_mem c hx)
    have hhead : numeralValue base [c] = d := by simp [numeralValue, hc]
    calc
      numeralValue base (c :: rest) = d * base ^ rest.length + numeralValue base rest := by
        rw [← List.singleton_append, numeralValue_append, hhead]
      _ < d * base ^ rest.length + base ^ rest.length := by omega
      _ = (d + 1) * base ^ rest.length := by ring
      _ ≤ base * base ^ rest.length := Nat.mul_le_mul_right _ hd
      _ = base ^ (c :: rest).length := by rw [List.length_cons, pow_succ, Nat.mul_comm]

/-- A lower-case hexadecimal digit is the digit of its value. -/
theorem exists_digitChar {c : Char} (h : isHexDigit c = true) : ∃ d < 16, c = Nat.digitChar d := by
  have hall : ∀ d < 16, (Nat.digitChar d).toNat = if d < 10 then 48 + d else 87 + d := by decide
  have hrange : (48 ≤ c.toNat ∧ c.toNat ≤ 57) ∨ (97 ≤ c.toNat ∧ c.toNat ≤ 102) := by
    simp only [isHexDigit, Char.isDigit, Bool.or_eq_true, Bool.and_eq_true,
      decide_eq_true_eq] at h
    exact h
  rcases hrange with hrange | hrange
  · refine ⟨c.toNat - 48, by omega, Char.toNat_inj.mp ?_⟩
    rw [hall _ (by omega), if_pos (by omega)]
    omega
  · refine ⟨c.toNat - 87, by omega, Char.toNat_inj.mp ?_⟩
    rw [hall _ (by omega), if_neg (by omega)]
    omega

theorem isNumeral_of_isHexDigit {text : Text} (h : ∀ c ∈ text, isHexDigit c = true) :
    IsNumeral 16 text := by
  intro c hc
  obtain ⟨d, hd, rfl⟩ := exists_digitChar (h c hc)
  exact ⟨d, hd, digitValue_digitChar hd⟩

/-- Lower-case numerals of one length are determined by their value. -/
theorem eq_of_numeralValue_eq {left right : Text} (hleft : ∀ c ∈ left, isHexDigit c = true)
    (hright : ∀ c ∈ right, isHexDigit c = true) (hlength : left.length = right.length)
    (hvalue : numeralValue 16 left = numeralValue 16 right) : left = right := by
  induction left generalizing right with
  | nil => exact (List.length_eq_zero_iff.mp hlength.symm).symm
  | cons c left ih =>
    cases right with
    | nil => exact absurd hlength (by simp)
    | cons d right =>
      have hlength' : left.length = right.length := Nat.succ.inj hlength
      have hleft' : ∀ x ∈ left, isHexDigit x = true := fun x hx ↦
        hleft x (List.mem_cons_of_mem c hx)
      have hright' : ∀ x ∈ right, isHexDigit x = true := fun x hx ↦
        hright x (List.mem_cons_of_mem d hx)
      obtain ⟨m, hm, rfl⟩ := exists_digitChar (hleft c List.mem_cons_self)
      obtain ⟨n, hn, rfl⟩ := exists_digitChar (hright d List.mem_cons_self)
      have hm' : numeralValue 16 [Nat.digitChar m] = m := by
        simp [numeralValue, digitValue_digitChar hm]
      have hn' : numeralValue 16 [Nat.digitChar n] = n := by
        simp [numeralValue, digitValue_digitChar hn]
      have hltLeft := (isNumeral_of_isHexDigit hleft').value_lt
      have hltRight := (isNumeral_of_isHexDigit hright').value_lt
      rw [← List.singleton_append, ← List.singleton_append (l := right), numeralValue_append,
        numeralValue_append, hm', hn', hlength'] at hvalue
      rw [hlength'] at hltLeft
      have hpos : 0 < 16 ^ right.length := Nat.pow_pos (by decide)
      have hdigit : m = n := by
        calc
          m = (m * 16 ^ right.length + numeralValue 16 left) / 16 ^ right.length := by
            rw [Nat.mul_comm, Nat.mul_add_div hpos, Nat.div_eq_of_lt hltLeft, Nat.add_zero]
          _ = (n * 16 ^ right.length + numeralValue 16 right) / 16 ^ right.length := by
            rw [hvalue]
          _ = n := by
            rw [Nat.mul_comm, Nat.mul_add_div hpos, Nat.div_eq_of_lt hltRight, Nat.add_zero]
      subst hdigit
      rw [ih hleft' hright' hlength' (Nat.add_left_cancel hvalue)]

/-- A number in base 256 is printed byte by byte, the most significant byte first. -/
theorem hexPad_ofDigits {bytes : List ℕ} (hne : bytes ≠ []) (h : ∀ b ∈ bytes, b < 256) :
    hexPad (2 * bytes.length) (Nat.ofDigits 256 bytes) = bytes.reverse.flatMap (hexPad 2) := by
  have hbyte : ∀ b ∈ bytes, (hexPad 2 b).length = 2 := fun b hb ↦
    length_hexPad (by decide) (h b hb)
  have hlength : (bytes.reverse.flatMap (hexPad 2)).length = 2 * bytes.length := by
    rw [List.length_flatMap, List.map_congr_left (g := fun _ ↦ 2)]
    · simp [Nat.mul_comm]
    · intro b hb
      exact hbyte b (List.mem_reverse.mp hb)
  have hvalue : numeralValue 16 (bytes.reverse.flatMap (hexPad 2)) = Nat.ofDigits 256 bytes := by
    clear hlength hne
    induction bytes with
    | nil => rfl
    | cons b bytes ih =>
      rw [List.reverse_cons, List.flatMap_append, List.flatMap_singleton, numeralValue_append,
        ih (fun x hx ↦ h x (List.mem_cons_of_mem b hx))
          (fun x hx ↦ hbyte x (List.mem_cons_of_mem b hx)),
        hbyte b List.mem_cons_self, hexPad_eq_zeroPad, numeralValue_zeroPad (by decide) (by decide),
        Nat.ofDigits_cons]
      omega
  have hlt : Nat.ofDigits 256 bytes < 16 ^ (2 * bytes.length) := by
    rw [pow_mul]
    exact Nat.ofDigits_lt_base_pow_length (by decide) h
  apply eq_of_numeralValue_eq
  · exact fun c hc ↦ isHexDigit_of_mem_hexPad hc
  · intro c hc
    obtain ⟨b, -, hc⟩ := List.mem_flatMap.mp hc
    exact isHexDigit_of_mem_hexPad hc
  · rw [hlength, length_hexPad _ hlt]
    have := List.length_pos_iff.mpr hne
    omega
  · rw [hvalue, hexPad_eq_zeroPad, numeralValue_zeroPad (by decide) (by decide)]

/-- `str(z)`. -/
def str : ℤ → Text
  | .ofNat n => dec n
  | .negSucc n => '-' :: dec (n + 1)

/-- The format fields `{:0<width>b}` and `{:0<width>x}`: the sign counts as a column. -/
def zeroPadInt (base width : ℕ) : ℤ → Text
  | .ofNat n => zeroPad base width n
  | .negSucc n => '-' :: zeroPad base (width - 1) (n + 1)

/-- What begins with another character than those on the left is found on the right. -/
theorem infix_append_iff_of_not_mem {c : Char} {pattern left right : Text} (hc : c ∉ left) :
    c :: pattern <:+: left ++ right ↔ c :: pattern <:+: right := by
  induction left with
  | nil => rfl
  | cons x left ih =>
    have hne : c ≠ x := fun h ↦ hc (h ▸ List.mem_cons_self)
    rw [List.cons_append, List.infix_cons_iff, ih fun h ↦ hc (List.mem_cons_of_mem x h)]
    constructor
    · rintro (h | h)
      · exact absurd (List.cons_prefix_cons.mp h).1 hne
      · exact h
    · exact Or.inr

/-- What ends with another character than those on the right is found on the left. -/
theorem infix_append_iff_of_not_mem_right {c : Char} {pattern left right : Text}
    (hc : c ∉ right) : pattern ++ [c] <:+: left ++ right ↔ pattern ++ [c] <:+: left := by
  rw [← List.reverse_infix, List.reverse_append, List.reverse_append, List.reverse_singleton,
    List.singleton_append, infix_append_iff_of_not_mem (by simpa using hc),
    ← @List.reverse_infix _ _ left, List.reverse_append, List.reverse_singleton,
    List.singleton_append]

/-- What begins the result without a character of the replacement began the text. -/
theorem prefix_of_prefix_replace {pattern old new text : Text} (hne : new ≠ [])
    (hnew : ∀ c ∈ pattern, c ∉ new) (h : pattern <+: replace old new text) :
    pattern <+: text := by
  induction pattern generalizing text with
  | nil => exact List.nil_prefix
  | cons p pattern ih =>
    obtain ⟨hp, hpattern⟩ := List.forall_mem_cons.mp hnew
    cases text with
    | nil => exact absurd (List.prefix_nil.mp h) (List.cons_ne_nil p pattern)
    | cons c rest =>
      rw [replace, replaceFrom] at h
      split at h
      · obtain ⟨d, tail, rfl⟩ := List.exists_cons_of_ne_nil hne
        exact absurd ((List.cons_prefix_cons.mp h).1 ▸ List.mem_cons_self) hp
      · obtain ⟨rfl, hrest⟩ := List.cons_prefix_cons.mp h
        exact List.cons_prefix_cons.mpr ⟨rfl, ih hpattern hrest⟩

/-- What shares no character with the replacement is found in the result only where it was found
before. -/
theorem infix_of_infix_replace {p : Char} {pattern old new text : Text} (hold : old ≠ [])
    (hne : new ≠ []) (hnew : ∀ c ∈ p :: pattern, c ∉ new)
    (h : p :: pattern <:+: replace old new text) : p :: pattern <:+: text := by
  induction hn : text.length using Nat.strong_induction_on generalizing text with
  | _ n ih =>
    subst hn
    cases text with
    | nil => exact absurd (List.infix_nil.mp h) (List.cons_ne_nil p pattern)
    | cons c rest =>
      by_cases hbegins : old <+: c :: rest
      · obtain ⟨tail, htail⟩ := hbegins
        have hlength : tail.length < (c :: rest).length := by
          have := List.length_pos_iff.mpr hold
          rw [← htail, List.length_append]
          omega
        rw [← htail, replace_prefix hold,
          infix_append_iff_of_not_mem (hnew p List.mem_cons_self)] at h
        rw [← htail]
        exact (ih tail.length hlength h rfl).trans (List.suffix_append old tail).isInfix
      · rw [replace_cons new hbegins] at h
        rcases List.infix_cons_iff.mp h with hprefix | hrest
        · rw [← replace_cons new hbegins] at hprefix
          exact (prefix_of_prefix_replace hne hnew hprefix).isInfix
        · exact (ih rest.length (Nat.lt_succ_self _) hrest rfl).trans
            (List.suffix_cons c rest).isInfix

/-- Universal newlines: every line break reads as `'\n'`. -/
def translateNewlines : Text → Text
  | [] => []
  | '\r' :: '\n' :: rest => '\n' :: translateNewlines rest
  | '\r' :: rest => '\n' :: translateNewlines rest
  | c :: rest => c :: translateNewlines rest

/-- The lines of a text, each with its line feed; `current` is the line being read. -/
def linesFrom : Text → Text → List Text
  | current, [] => if current.isEmpty then [] else [current]
  | current, c :: rest =>
    if c = '\n' then (current ++ [c]) :: linesFrom [] rest else linesFrom (current ++ [c]) rest

/-- `fd.readlines()` of a file opened in text mode, which is also what iterating over it gives. -/
def readlines (contents : Text) : List Text := linesFrom [] (translateNewlines contents)

/-- The characters that do not break a line. -/
def IsLineText (text : Text) : Prop := ∀ c ∈ text, c ≠ '\n' ∧ c ≠ '\r'

instance (text : Text) : Decidable (IsLineText text) :=
  inferInstanceAs (Decidable (∀ c ∈ text, c ≠ '\n' ∧ c ≠ '\r'))

theorem IsLineText.append {left right : Text} (hleft : IsLineText left)
    (hright : IsLineText right) : IsLineText (left ++ right) := by
  intro c hc
  rcases List.mem_append.mp hc with hc | hc
  · exact hleft c hc
  · exact hright c hc

theorem IsLineText.of_subset {text text' : Text} (h : IsLineText text) (hsub : text' ⊆ text) :
    IsLineText text' := fun c hc ↦ h c (hsub hc)

theorem isLineText_nil : IsLineText [] := nofun

theorem IsLineText.replace {old new text : Text} (htext : IsLineText text)
    (hnew : IsLineText new) : IsLineText (replace old new text) := by
  intro c hc
  rcases mem_replaceFrom hc with hc | hc
  · exact htext c hc
  · exact hnew c hc

theorem IsLineText.ljust {text : Text} (h : IsLineText text) (width : ℕ) :
    IsLineText (ljust width text) := by
  apply h.append
  intro c hc
  rw [List.eq_of_mem_replicate hc]
  decide

theorem isLineText_dec (n : ℕ) : IsLineText (dec n) := by
  intro c hc
  exact ⟨fun h ↦ not_mem_dec (by decide) (h ▸ hc), fun h ↦ not_mem_dec (by decide) (h ▸ hc)⟩

theorem IsLineText.cons {c : Char} {rest : Text} (hc : c ≠ '\n' ∧ c ≠ '\r')
    (h : IsLineText rest) : IsLineText (c :: rest) := List.forall_mem_cons.mpr ⟨hc, h⟩

theorem isLineText_str (z : ℤ) : IsLineText (str z) := by
  cases z with
  | ofNat n => exact isLineText_dec n
  | negSucc n => exact .cons (by decide) (isLineText_dec (n + 1))

theorem IsLineText.cons_inv {c : Char} {rest : Text} (h : IsLineText (c :: rest)) :
    (c ≠ '\n' ∧ c ≠ '\r') ∧ IsLineText rest :=
  ⟨h c List.mem_cons_self, fun x hx ↦ h x (List.mem_cons_of_mem c hx)⟩

theorem IsNumeral.isLineText {base : ℕ} {text : Text} (h : IsNumeral base text) :
    IsLineText text := by
  intro c hc
  exact ⟨h.ne_of_digitValue (fun d _ ↦ by simp [digitValue]) c hc,
    h.ne_of_digitValue (fun d _ ↦ by simp [digitValue]) c hc⟩

theorem isLineText_zeroPadInt {base : ℕ} (hone : 1 < base) (hbase : base ≤ 16) (width : ℕ) (z : ℤ) :
    IsLineText (zeroPadInt base width z) := by
  cases z with
  | ofNat n => exact (isNumeral_zeroPad hone hbase width n).isLineText
  | negSucc n =>
    exact .cons (by decide) (isNumeral_zeroPad hone hbase (width - 1) (n + 1)).isLineText

theorem isLineText_hexPad (width n : ℕ) : IsLineText (hexPad width n) :=
  (isNumeral_zeroPad (by decide) (by decide) width n).isLineText

theorem translateNewlines_cons {c : Char} (hc : c ≠ '\r') (rest : Text) :
    translateNewlines (c :: rest) = c :: translateNewlines rest := by
  rw [translateNewlines.eq_def]
  split
  · next heq => exact nomatch heq
  · next heq => exact absurd (List.cons.inj heq).1 hc
  · next heq => exact absurd (List.cons.inj heq).1 hc
  · next heq =>
    obtain ⟨rfl, rfl⟩ := List.cons.inj heq
    rfl

theorem translateNewlines_append {text : Text} (h : IsLineText text) (rest : Text) :
    translateNewlines (text ++ rest) = text ++ translateNewlines rest := by
  induction text with
  | nil => rfl
  | cons c text ih =>
    rw [List.cons_append, translateNewlines_cons h.cons_inv.1.2, ih h.cons_inv.2, List.cons_append]

theorem linesFrom_append {text : Text} (h : IsLineText text) (current rest : Text) :
    linesFrom current (text ++ rest) = linesFrom (current ++ text) rest := by
  induction text generalizing current with
  | nil => rw [List.nil_append, List.append_nil]
  | cons c text ih =>
    rw [List.cons_append, linesFrom, if_neg h.cons_inv.1.1, ih h.cons_inv.2, List.append_assoc,
      List.singleton_append]

theorem readlines_cons {line : Text} (h : IsLineText line) (rest : Text) :
    readlines (line ++ '\n' :: rest) = (line ++ ['\n']) :: readlines rest := by
  rw [readlines, translateNewlines_append h, translateNewlines_cons (by decide),
    linesFrom_append h, linesFrom, if_pos rfl]
  rfl

/-- Lines that were written one by one are read one by one. -/
theorem readlines_flatMap_append {lines : List Text} (h : ∀ line ∈ lines, IsLineText line)
    (rest : Text) : readlines ((lines.flatMap fun line ↦ line ++ ['\n']) ++ rest) =
      (lines.map fun line ↦ line ++ ['\n']) ++ readlines rest := by
  induction lines with
  | nil => rfl
  | cons line lines ih =>
    calc
      readlines (((line :: lines).flatMap fun line ↦ line ++ ['\n']) ++ rest) =
          readlines (line ++ '\n' :: ((lines.flatMap fun line ↦ line ++ ['\n']) ++ rest)) := by
        rw [List.flatMap_cons, List.append_assoc, List.append_assoc, List.singleton_append]
      _ = (line ++ ['\n']) :: readlines ((lines.flatMap fun line ↦ line ++ ['\n']) ++ rest) :=
        readlines_cons (h line List.mem_cons_self) _
      _ = ((line :: lines).map fun line ↦ line ++ ['\n']) ++ readlines rest := by
        rw [ih fun l hl ↦ h l (List.mem_cons_of_mem line hl), List.map_cons, List.cons_append]

theorem readlines_flatMap {lines : List Text} (h : ∀ line ∈ lines, IsLineText line) :
    readlines (lines.flatMap fun line ↦ line ++ ['\n']) =
      lines.map fun line ↦ line ++ ['\n'] := by
  have happend := readlines_flatMap_append h []
  rwa [List.append_nil, show readlines [] = [] from rfl, List.append_nil] at happend

/-- A last line without a line break. -/
theorem readlines_of_isLineText {line : Text} (hne : line ≠ []) (h : IsLineText line) :
    readlines line = [line] := by
  have htranslate := translateNewlines_append h []
  rw [List.append_nil, show translateNewlines [] = [] from rfl, List.append_nil] at htranslate
  have hlines := linesFrom_append h [] []
  rw [List.append_nil, List.nil_append] at hlines
  rw [readlines, htranslate, hlines, linesFrom, List.isEmpty_eq_false_iff.mpr hne]
  rfl

/-- The scan of `str.split`, with the number of characters still covered by the last separator and
the piece being read. -/
def splitFrom (sep : Text) : ℕ → Text → Text → List Text
  | _, current, [] => [current]
  | skip + 1, current, _ :: rest => splitFrom sep skip current rest
  | 0, current, c :: rest =>
    if sep.isPrefixOf (c :: rest) then current :: splitFrom sep (sep.length - 1) [] rest
    else splitFrom sep 0 (current ++ [c]) rest

/-- `text.split(sep)` for a nonempty separator. -/
def split (sep text : Text) : List Text := splitFrom sep 0 [] text

/-- The scan of `str.split` without a separator. -/
def wordsFrom : Text → Text → List Text
  | current, [] => if current.isEmpty then [] else [current]
  | current, c :: rest =>
    if isSpace c then
      if current.isEmpty then wordsFrom [] rest else current :: wordsFrom [] rest
    else wordsFrom (current ++ [c]) rest

/-- `text.split()`: the words between runs of whitespace. -/
def words (text : Text) : List Text := wordsFrom [] text

theorem splitFrom_append {sep : Text} (text rest : Text)
    (h : ∀ left right, text = left ++ right → right ≠ [] → ¬ sep <+: right ++ rest)
    (current : Text) :
    splitFrom sep 0 current (text ++ rest) = splitFrom sep 0 (current ++ text) rest := by
  induction text generalizing current with
  | nil => rw [List.nil_append, List.append_nil]
  | cons c text ih =>
    have hhead : ¬ sep <+: (c :: text) ++ rest := h [] (c :: text) rfl (List.cons_ne_nil c text)
    have htail : ∀ left right, text = left ++ right → right ≠ [] → ¬ sep <+: right ++ rest := by
      intro left right heq hne
      exact h (c :: left) right (by rw [heq, List.cons_append]) hne
    rw [List.cons_append, splitFrom, if_neg (by rwa [List.isPrefixOf_iff_prefix]), ih htail,
      List.append_assoc, List.singleton_append]

/-- Without the separator there is one piece. -/
theorem split_of_not_isInfix {sep text : Text} (h : ¬ sep <:+: text) :
    split sep text = [text] := by
  have hscan : splitFrom sep 0 [] (text ++ []) = splitFrom sep 0 text [] := by
    apply splitFrom_append text []
    intro left right heq _ hp
    apply h
    rw [heq]
    rw [List.append_nil] at hp
    exact hp.isInfix.trans (List.suffix_append left right).isInfix
  rw [List.append_nil] at hscan
  rw [split, hscan, splitFrom]

/-- A single character splits at its first occurrence. -/
theorem split_append_cons {c : Char} {left : Text} (h : c ∉ left) (right : Text) :
    split [c] (left ++ c :: right) = left :: split [c] right := by
  have hscan : splitFrom [c] 0 [] (left ++ c :: right) = splitFrom [c] 0 left (c :: right) := by
    apply splitFrom_append left (c :: right)
    intro before after heq hne hp
    cases after with
    | nil => exact hne rfl
    | cons d after =>
      obtain ⟨rfl, -⟩ := List.cons_prefix_cons.mp hp
      apply h
      rw [heq]
      simp
  rw [split, hscan, splitFrom, if_pos (by simp)]
  rfl

theorem splitFrom_eq_drop (sep : Text) (skip : ℕ) (text : Text) :
    splitFrom sep skip [] text = split sep (text.drop skip) := by
  induction text generalizing skip with
  | nil => cases skip <;> rfl
  | cons c rest ih =>
    cases skip with
    | zero => rfl
    | succ skip => exact ih skip

/-- A separator whose first character does not come again splits at its first occurrence. -/
theorem split_append {c : Char} {sep left : Text} (hc : c ∉ sep) (h : ¬ c :: sep <:+: left)
    (right : Text) :
    split (c :: sep) (left ++ c :: sep ++ right) = left :: split (c :: sep) right := by
  have hscan : splitFrom (c :: sep) 0 [] (left ++ c :: (sep ++ right)) =
      splitFrom (c :: sep) 0 left (c :: (sep ++ right)) := by
    apply splitFrom_append left
    intro before after heq hne hp
    cases after with
    | nil => exact hne rfl
    | cons d after =>
      obtain ⟨hhead, htail⟩ := List.cons_prefix_cons.mp hp
      apply h
      rw [heq]
      have hafter : c :: sep <+: d :: after :=
        List.cons_prefix_cons.mpr ⟨hhead, prefix_of_prefix_append_cons after hc htail⟩
      exact hafter.isInfix.trans (List.suffix_append before (d :: after)).isInfix
  have hbegins : (c :: sep).isPrefixOf (c :: (sep ++ right)) = true := by
    rw [List.isPrefixOf_iff_prefix]
    exact List.prefix_append (c :: sep) right
  rw [List.append_assoc, List.cons_append, split, hscan, splitFrom, if_pos hbegins,
    splitFrom_eq_drop, List.length_cons, Nat.add_sub_cancel, List.drop_left]

theorem split_of_not_mem {c : Char} {text : Text} (h : c ∉ text) : split [c] text = [text] :=
  split_of_not_isInfix fun hi ↦ h (hi.subset List.mem_cons_self)

theorem splitFrom_head (c : Char) (text current : Text) :
    (splitFrom [c] 0 current text)[0]? = some (current ++ text.takeWhile (· ≠ c)) := by
  induction text generalizing current with
  | nil => simp [splitFrom]
  | cons d rest ih =>
    by_cases h : d = c
    · subst h
      rw [splitFrom, if_pos (by simp)]
      simp
    · have hbegins : [c].isPrefixOf (d :: rest) = false := by
        simp [List.isPrefixOf, Ne.symm h]
      rw [splitFrom, if_neg (by rw [hbegins]; exact Bool.false_ne_true), ih]
      simp [h]

/-- The first piece ends at the separator. -/
theorem split_head (c : Char) (text : Text) :
    (split [c] text)[0]? = some (text.takeWhile (· ≠ c)) := by
  rw [split, splitFrom_head, List.nil_append]

theorem wordsFrom_append {word : Text} (h : ∀ c ∈ word, isSpace c = false) (current rest : Text) :
    wordsFrom current (word ++ rest) = wordsFrom (current ++ word) rest := by
  induction word generalizing current with
  | nil => rw [List.nil_append, List.append_nil]
  | cons c word ih =>
    have hc : ¬ isSpace c = true := by
      rw [h c List.mem_cons_self]
      exact Bool.false_ne_true
    rw [List.cons_append, wordsFrom, if_neg hc,
      ih (fun x hx ↦ h x (List.mem_cons_of_mem c hx)), List.append_assoc, List.singleton_append]

theorem words_cons_space {c : Char} (h : isSpace c = true) (rest : Text) :
    words (c :: rest) = words rest := by
  rw [words, wordsFrom, if_pos h]
  rfl

theorem words_replicate_space {c : Char} (h : isSpace c = true) (k : ℕ) (rest : Text) :
    words (List.replicate k c ++ rest) = words rest := by
  induction k with
  | zero => rfl
  | succ k ih => rw [List.replicate_succ, List.cons_append, words_cons_space h, ih]

theorem words_append_cons {word : Text} (hne : word ≠ []) (h : ∀ c ∈ word, isSpace c = false)
    {c : Char} (hc : isSpace c = true) (rest : Text) :
    words (word ++ c :: rest) = word :: words rest := by
  rw [words, wordsFrom_append h, List.nil_append, wordsFrom, if_pos hc,
    if_neg (by simpa using hne)]
  rfl

theorem isSpace_of_mem_wordsFrom {current text : Text} (h : ∀ c ∈ current, isSpace c = false) :
    ∀ word ∈ wordsFrom current text, ∀ c ∈ word, isSpace c = false := by
  induction text generalizing current with
  | nil =>
    rw [wordsFrom]
    split
    · exact nofun
    · exact List.forall_mem_singleton.mpr h
  | cons d rest ih =>
    rw [wordsFrom]
    split
    · split
      · exact ih nofun
      · exact List.forall_mem_cons.mpr ⟨h, ih nofun⟩
    · next hd =>
      apply ih
      intro c hc
      rcases List.mem_append.mp hc with hc | hc
      · exact h c hc
      · rw [List.mem_singleton.mp hc]
        exact Bool.eq_false_iff.mpr hd

theorem isSpace_of_mem_words {word text : Text} (h : word ∈ words text) :
    ∀ c ∈ word, isSpace c = false := by
  have hnil : ∀ c ∈ ([] : Text), isSpace c = false := nofun
  exact isSpace_of_mem_wordsFrom hnil word h

end ProcessorFuzz.Library.Text
