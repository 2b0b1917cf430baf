import Mathlib.Algebra.Group.Nat.Defs
import Mathlib.Data.List.Infix
import Mathlib.Data.List.TakeDrop
import Mathlib.Tactic.Common

/-!
# Python strings as character lists

The programs modelled here are string programs: they build instructions by formatting and rewrite
them by searching. A string is a list of characters, and the string methods in use (`str.replace`,
`str.split`, `str.ljust` through a format field, `int`) are structurally recursive functions on
it, so that they can be evaluated as well as reasoned about.

The rules at the heart of the library say when a search cannot see across a separator: a pattern
without the character `c` is found in `a ++ c :: b` exactly where it is found in `a` or in `b`.
-/

namespace ProcessorFuzz.Library

/-- A Python string. -/
abbrev Text := List Char

namespace Text

/-- Whether a text is a member of a list is decided by comparing texts. -/
instance lawfulBEq : LawfulBEq Text := inferInstanceAs (LawfulBEq (List Char))

/-- A property of all characters of a text is checked on the text, not on all characters. -/
instance (priority := high) decidableForallMem (p : Char → Prop) [DecidablePred p] (text : Text) :
    Decidable (∀ c ∈ text, p c) := List.decidableBAll p text

instance (priority := high) decidableExistsMem (p : Char → Prop) [DecidablePred p] (text : Text) :
    Decidable (∃ c ∈ text, p c) := List.decidableBEx p text

/-- The format fields `{:<width}` and `{:width}` of a string: pad with blanks on the right. -/
def ljust (width : ℕ) (text : Text) : Text :=
  text ++ List.replicate (width - text.length) ' '

/-- `str(n)` of a natural number. -/
def dec (n : ℕ) : Text := Nat.toDigits 10 n

theorem ljust_eq_append (width : ℕ) (text : Text) :
    ljust width text = text ++ List.replicate (width - text.length) ' ' := rfl

theorem length_ljust (width : ℕ) (text : Text) :
    (ljust width text).length = max width text.length := by
  simp [ljust]
  omega

theorem dec_ne_nil (n : ℕ) : dec n ≠ [] := Nat.toDigits_ne_nil

theorem isDigit_of_mem_dec {n : ℕ} {c : Char} (h : c ∈ dec n) : c.isDigit = true :=
  Nat.isDigit_of_mem_toDigits (by decide) (by decide) h

theorem not_mem_dec {n : ℕ} {c : Char} (hc : c.isDigit = false) : c ∉ dec n := by
  intro h
  rw [isDigit_of_mem_dec h] at hc
  exact Bool.noConfusion hc

theorem length_dec_le {n k : ℕ} (hk : 0 < k) (h : n < 10 ^ k) : (dec n).length ≤ k :=
  (Nat.length_toDigits_le_iff (by decide) hk).mpr h

/-- Reading the digits of a printed number back. -/
theorem ofDigitChars_dec (n : ℕ) : Nat.ofDigitChars 10 (dec n) 0 = n :=
  Nat.ofDigitChars_ten_toDigits

theorem dec_injective : Function.Injective dec := by
  intro m n h
  rw [← ofDigitChars_dec m, h, ofDigitChars_dec]

/-- `%x` of a natural number. -/
def hex (n : ℕ) : Text := Nat.toDigits 16 n

/-- The conversion `%0<width>x`. -/
def hexPad (width n : ℕ) : Text := List.replicate (width - (hex n).length) '0' ++ hex n

/-- The conversion `%<width>d` of a natural number. -/
def decPad (width n : ℕ) : Text := List.replicate (width - (dec n).length) ' ' ++ dec n

/-- The lower-case hexadecimal digits. -/
def isHexDigit (c : Char) : Bool := c.isDigit || ('a' ≤ c && c ≤ 'f')

theorem isHexDigit_digitChar {n : ℕ} (h : n < 16) : isHexDigit (Nat.digitChar n) = true := by
  have hall : ∀ m < 16, isHexDigit (Nat.digitChar m) = true := by decide
  exact hall n h

theorem isHexDigit_of_mem_hex {n : ℕ} {c : Char} (h : c ∈ hex n) : isHexDigit c = true := by
  induction n using Nat.strong_induction_on with
  | _ n ih =>
    rw [hex, Nat.toDigits_eq_if (by decide)] at h
    split at h
    · rename_i hlt
      rw [List.mem_singleton.mp h]
      exact isHexDigit_digitChar hlt
    · rename_i hle
      rcases List.mem_append.mp h with h | h
      · exact ih (n / 16) (by omega) h
      · rw [List.mem_singleton.mp h]
        exact isHexDigit_digitChar (Nat.mod_lt n (by decide))

theorem isHexDigit_of_mem_hexPad {width n : ℕ} {c : Char} (h : c ∈ hexPad width n) :
    isHexDigit c = true := by
  rcases List.mem_append.mp h with h | h
  · rw [List.eq_of_mem_replicate h]
    decide
  · exact isHexDigit_of_mem_hex h

/-- The scan of `str.replace`, with the number of characters still covered by the last match. -/
def replaceFrom (old new : Text) : ℕ → Text → Text
  | _, [] => []
  | skip + 1, _ :: rest => replaceFrom old new skip rest
  | 0, c :: rest =>
    if old.isPrefixOf (c :: rest) then new ++ replaceFrom old new (old.length - 1) rest
    else c :: replaceFrom old new 0 rest

/-- `text.replace(old, new)` for a nonempty `old`: leftmost matches, never overlapping. -/
def replace (old new text : Text) : Text := replaceFrom old new 0 text

theorem replaceFrom_eq_drop (old new : Text) (skip : ℕ) (text : Text) :
    replaceFrom old new skip text = replace old new (text.drop skip) := by
  induction text generalizing skip with
  | nil => cases skip <;> simp [replace, replaceFrom]
  | cons c rest ih =>
    cases skip with
    | zero => rfl
    | succ skip => simpa [replaceFrom] using ih skip

@[simp]
theorem replace_nil (old new : Text) : replace old new [] = [] := rfl

theorem replace_prefix {old : Text} (hold : old ≠ []) (new rest : Text) :
    replace old new (old ++ rest) = new ++ replace old new rest := by
  obtain ⟨c, tail, rfl⟩ := List.exists_cons_of_ne_nil hold
  have hbegins : (c :: tail).isPrefixOf (c :: (tail ++ rest)) = true := by
    rw [List.isPrefixOf_iff_prefix]
    exact List.prefix_append (c :: tail) rest
  rw [List.cons_append, replace, replaceFrom, if_pos hbegins, replaceFrom_eq_drop]
  simp

theorem replace_cons {old : Text} (new : Text) {c : Char} {rest : Text}
    (h : ¬ old <+: c :: rest) : replace old new (c :: rest) = c :: replace old new rest := by
  rw [replace, replaceFrom, if_neg (by rwa [List.isPrefixOf_iff_prefix])]
  rfl

/-- Without a match nothing changes. -/
theorem replace_of_not_isInfix {old : Text} (new : Text) {text : Text} (h : ¬ old <:+: text) :
    replace old new text = text := by
  induction text with
  | nil => rfl
  | cons c rest ih =>
    rw [replace_cons new (fun hp ↦ h hp.isInfix),
      ih fun hi ↦ h (hi.trans (List.suffix_cons c rest).isInfix)]

theorem not_infix_of_not_mem {pattern text : Text} {c : Char} (hc : c ∈ pattern)
    (h : c ∉ text) : ¬ pattern <:+: text :=
  fun hi ↦ h (hi.subset hc)

/-- A prefix without the separator ends before the separator. -/
theorem prefix_of_prefix_append_cons {pattern : Text} (left : Text) {right : Text} {c : Char}
    (hc : c ∉ pattern) (h : pattern <+: left ++ c :: right) : pattern <+: left := by
  induction pattern generalizing left with
  | nil => exact List.nil_prefix
  | cons p pattern ih =>
    obtain ⟨hne, htail⟩ : c ≠ p ∧ c ∉ pattern := by simpa using hc
    cases left with
    | nil => exact absurd (List.cons_prefix_cons.mp h).1.symm hne
    | cons d left =>
      obtain ⟨rfl, hrest⟩ := List.cons_prefix_cons.mp h
      exact List.cons_prefix_cons.mpr ⟨rfl, ih left htail hrest⟩

/-- A pattern without the separator lies on one side of it. -/
theorem infix_append_cons_iff {pattern left right : Text} {c : Char} (hc : c ∉ pattern) :
    pattern <:+: left ++ c :: right ↔ pattern <:+: left ∨ pattern <:+: right := by
  constructor
  · intro h
    induction left with
    | nil =>
      rcases List.infix_cons_iff.mp h with hp | hi
      · have hnil : pattern <+: [] := prefix_of_prefix_append_cons [] hc hp
        exact .inl hnil.isInfix
      · exact .inr hi
    | cons d left ih =>
      rcases List.infix_cons_iff.mp h with hp | hi
      · exact .inl (prefix_of_prefix_append_cons (d :: left) hc hp).isInfix
      · exact (ih hi).imp (fun hl ↦ hl.trans (List.suffix_cons d left).isInfix) id
  · rintro (h | h)
    · exact h.trans (List.prefix_append left (c :: right)).isInfix
    · exact h.trans ((List.suffix_cons c right).trans (List.suffix_append left _)).isInfix

/-- A search that cannot see across `c` replaces on both sides of it separately. -/
theorem replace_append_cons {old : Text} (hold : old ≠ []) (new : Text) {left right : Text}
    {c : Char} (hc : c ∉ old) :
    replace old new (left ++ c :: right) = replace old new left ++ c :: replace old new right := by
  induction hn : left.length using Nat.strong_induction_on generalizing left with
  | _ n ih =>
    subst hn
    cases left with
    | nil =>
      have hnot : ¬ old <+: c :: right := by
        intro hp
        exact hold (List.prefix_nil.mp (prefix_of_prefix_append_cons [] hc hp))
      simpa using replace_cons new hnot
    | cons d left =>
      by_cases hp : old <+: d :: left
      · obtain ⟨rest, hrest⟩ := hp
        have hlength : rest.length < (d :: left).length := by
          have := List.length_pos_iff.mpr hold
          rw [← hrest, List.length_append]
          omega
        rw [← hrest, List.append_assoc, replace_prefix hold, replace_prefix hold,
          ih rest.length hlength rfl, List.append_assoc]
      · have hnot : ¬ old <+: d :: (left ++ c :: right) := fun hp' ↦
          hp (prefix_of_prefix_append_cons (d :: left) hc hp')
        rw [List.cons_append, replace_cons new hnot, replace_cons new hp,
          ih left.length (by simp) rfl, List.cons_append]

/-- Every character of the result was there before or comes from the replacement. -/
theorem mem_replaceFrom {old new : Text} {skip : ℕ} {text : Text} {c : Char}
    (h : c ∈ replaceFrom old new skip text) : c ∈ text ∨ c ∈ new := by
  induction text generalizing skip with
  | nil => cases skip <;> exact nomatch h
  | cons d rest ih =>
    cases skip with
    | succ skip => exact (ih h).imp_left (List.mem_cons_of_mem d)
    | zero =>
      rw [replaceFrom] at h
      split at h
      · rcases List.mem_append.mp h with h | h
        · exact .inr h
        · exact (ih h).imp_left (List.mem_cons_of_mem d)
      · rcases List.mem_cons.mp h with rfl | h
        · exact .inl List.mem_cons_self
        · exact (ih h).imp_left (List.mem_cons_of_mem d)

/-- Characters that neither side of the replacement mentions are all kept. -/
theorem count_replace {old : Text} (hold : old ≠ []) {new : Text} {c : Char} (hc : c ∉ old)
    (hnew : c ∉ new) (text : Text) : (replace old new text).count c = text.count c := by
  induction hn : text.length using Nat.strong_induction_on generalizing text with
  | _ n ih =>
    subst hn
    cases text with
    | nil => rfl
    | cons d rest =>
      by_cases hp : old <+: d :: rest
      · obtain ⟨tail, htail⟩ := hp
        have hlength : tail.length < (d :: rest).length := by
          have := List.length_pos_iff.mpr hold
          rw [← htail, List.length_append]
          omega
        rw [← htail, replace_prefix hold, List.count_append, List.count_append,
          List.count_eq_zero_of_not_mem hc, List.count_eq_zero_of_not_mem hnew,
          ih tail.length hlength tail rfl]
      · rw [replace_cons new hp, List.count_cons, List.count_cons,
          ih rest.length (by simp) rest rfl]

end Text

end ProcessorFuzz.Library
