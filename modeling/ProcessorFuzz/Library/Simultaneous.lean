import ProcessorFuzz.Library.Substitution

/-!
# Filling in all names at once

A scan from left to right cuts a text into names and other characters, and all names are filled in
at once. In a text of tokens between separators this is the same as filling in one name after the
other, if it is the same in every token.
-/

namespace ProcessorFuzz.Library.Text

section Pieces

variable (nameAt : Text → Option Text)

/-- The names and the other characters of a text, where `nameAt` tells which name a text begins with,
with the number of characters that the last name still covers. -/
def piecesFrom : ℕ → Text → List (Char ⊕ Text)
  | _, [] => []
  | skip + 1, _ :: rest => piecesFrom skip rest
  | 0, c :: rest =>
    match nameAt (c :: rest) with
    | none => .inl c :: piecesFrom 0 rest
    | some name => .inr name :: piecesFrom (name.length - 1) rest

def pieces (text : Text) : List (Char ⊕ Text) := piecesFrom nameAt 0 text

/-- The names that occur in a text. -/
def names (text : Text) : List Text := (pieces nameAt text).filterMap Sum.getRight?

/-- The text with all names replaced at once. -/
def fillNames (value : Text → Text) (text : Text) : Text :=
  (pieces nameAt text).flatMap (Sum.elim (fun c ↦ [c]) value)

/-- No name contains the character, and what follows it does not matter for a name before it. -/
structure Breaks (c : Char) : Prop where
  append : ∀ left right, nameAt (left ++ c :: right) = nameAt left

/-- A name that is found lies at the beginning of the text. -/
def Found : Prop := ∀ text name, nameAt text = some name → name ≠ [] ∧ name <+: text

variable {nameAt} {c : Char} {text name : Text} {value : Text → Text}

theorem Found.nil (h : Found nameAt) : nameAt [] = none := by
  cases hname : nameAt [] with
  | none => rfl
  | some name =>
    obtain ⟨hne, hbegins⟩ := h [] name hname
    exact absurd (List.prefix_nil.mp hbegins) hne

theorem piecesFrom_of_none {rest : Text} (h : nameAt (c :: rest) = none) :
    piecesFrom nameAt 0 (c :: rest) = .inl c :: piecesFrom nameAt 0 rest := by
  rw [piecesFrom, h]

theorem piecesFrom_of_some {rest : Text} (h : nameAt (c :: rest) = some name) :
    piecesFrom nameAt 0 (c :: rest) = .inr name :: piecesFrom nameAt (name.length - 1) rest := by
  rw [piecesFrom, h]

theorem piecesFrom_append_cons (h : Found nameAt) (hc : Breaks nameAt c) (left right : Text)
    {skip : ℕ} (hskip : skip ≤ left.length) :
    piecesFrom nameAt skip (left ++ c :: right) =
      piecesFrom nameAt skip left ++ .inl c :: pieces nameAt right := by
  induction left generalizing skip with
  | nil =>
    obtain rfl := Nat.le_zero.mp hskip
    exact piecesFrom_of_none ((hc.append [] right).trans h.nil)
  | cons d left ih =>
    cases skip with
    | succ skip => exact ih (Nat.le_of_succ_le_succ hskip)
    | zero =>
      have hname : nameAt (d :: (left ++ c :: right)) = nameAt (d :: left) :=
        hc.append (d :: left) right
      cases hfound : nameAt (d :: left) with
      | none =>
        rw [List.cons_append, piecesFrom_of_none (hname.trans hfound), piecesFrom_of_none hfound,
          ih (Nat.zero_le _), List.cons_append]
      | some name =>
        have hlength : name.length ≤ left.length + 1 := (h _ name hfound).2.length_le
        rw [List.cons_append, piecesFrom_of_some (hname.trans hfound), piecesFrom_of_some hfound,
          ih (by omega), List.cons_append]

/-- Both sides of a separator are cut separately. -/
theorem pieces_append_cons (h : Found nameAt) (hc : Breaks nameAt c) (left right : Text) :
    pieces nameAt (left ++ c :: right) =
      pieces nameAt left ++ .inl c :: pieces nameAt right :=
  piecesFrom_append_cons h hc left right (Nat.zero_le _)

theorem names_append_cons (h : Found nameAt) (hc : Breaks nameAt c) (left right : Text) :
    names nameAt (left ++ c :: right) = names nameAt left ++ names nameAt right := by
  rw [names, pieces_append_cons h hc, List.filterMap_append]
  rfl

theorem fillNames_append_cons (h : Found nameAt) (hc : Breaks nameAt c) (left right : Text) :
    fillNames nameAt value (left ++ c :: right) =
      fillNames nameAt value left ++ c :: fillNames nameAt value right := by
  rw [fillNames, pieces_append_cons h hc, List.flatMap_append]
  rfl

theorem piecesFrom_length (nameAt : Text → Option Text) (text : Text) :
    piecesFrom nameAt text.length text = [] := by
  induction text with
  | nil => rfl
  | cons c rest ih => exact ih

theorem pieces_of_name (h : Found nameAt) (hname : nameAt name = some name) :
    pieces nameAt name = [.inr name] := by
  cases name with
  | nil => exact nomatch h.nil.symm.trans hname
  | cons c rest =>
    rw [pieces, piecesFrom_of_some hname]
    exact congrArg _ (piecesFrom_length nameAt rest)

theorem pieces_of_forall_suffix (h : ∀ suffix, suffix <:+ text → nameAt suffix = none) :
    pieces nameAt text = text.map .inl := by
  unfold pieces
  induction text with
  | nil => rfl
  | cons c rest ih =>
    rw [piecesFrom_of_none (h _ (List.suffix_refl _))]
    exact congrArg _ (ih fun suffix hsuffix ↦ h suffix (hsuffix.trans (List.suffix_cons c rest)))

theorem fillNames_of_forall_suffix (h : ∀ suffix, suffix <:+ text → nameAt suffix = none) :
    fillNames nameAt value text = text := by
  rw [fillNames, pieces_of_forall_suffix h, List.flatMap_map]
  exact List.flatMap_singleton' text

theorem names_of_forall_suffix (h : ∀ suffix, suffix <:+ text → nameAt suffix = none) :
    names nameAt text = [] := by
  rw [names, pieces_of_forall_suffix h, List.filterMap_map]
  exact List.filterMap_eq_nil_iff.mpr fun _ _ ↦ rfl

theorem fillNames_of_name (h : Found nameAt) (hname : nameAt name = some name) :
    fillNames nameAt value name = value name := by
  rw [fillNames, pieces_of_name h hname]
  exact List.append_nil _

theorem names_of_name (h : Found nameAt) (hname : nameAt name = some name) :
    names nameAt name = [name] := by
  rw [names, pieces_of_name h hname]
  rfl

end Pieces

/-- A text that consists of tokens with a property, and separators between them. -/
inductive Tokens (isSep : Char → Bool) (P : Text → Prop) : Text → Prop
  | token {text : Text} (h : P text) : Tokens isSep P text
  | sep {left right : Text} {c : Char} (hleft : P left) (hc : isSep c = true)
      (hright : Tokens isSep P right) : Tokens isSep P (left ++ c :: right)

namespace Tokens

variable {isSep : Char → Bool} {P Q : Text → Prop} {text left right : Text} {c : Char}

theorem mono (h : Tokens isSep P text) (hPQ : ∀ token, P token → Q token) :
    Tokens isSep Q text := by
  induction h with
  | token h => exact .token (hPQ _ h)
  | sep hleft hc _ ih => exact .sep (hPQ _ hleft) hc ih

theorem of_splitOnPPrepend {acc : Text}
    (h : ∀ token ∈ List.splitOnPPrepend isSep text acc, P token) :
    Tokens isSep P (acc.reverse ++ text) := by
  induction text generalizing acc with
  | nil =>
    rw [List.append_nil]
    exact .token (h _ (List.mem_singleton_self _))
  | cons c rest ih =>
    rw [List.splitOnPPrepend] at h
    split at h
    · next hc =>
      obtain ⟨hfirst, hrest⟩ := List.forall_mem_cons.mp h
      exact .sep hfirst hc (ih hrest)
    · have hcons : acc.reverse ++ c :: rest = (c :: acc).reverse ++ rest := by simp
      rw [hcons]
      exact ih h

/-- The tokens of a given text are found by splitting it. -/
theorem of_splitOnP (h : ∀ token ∈ text.splitOnP isSep, P token) : Tokens isSep P text :=
  of_splitOnPPrepend h

/-- A text in which a pattern without separators is replaced keeps its separators. -/
theorem replace {old new : Text} (h : Tokens isSep P text) (hold : old ≠ [])
    (hsep : ∀ c, isSep c = true → c ∉ old)
    (htoken : ∀ token, P token → Q (Text.replace old new token)) :
    Tokens isSep Q (Text.replace old new text) := by
  induction h with
  | token h => exact .token (htoken _ h)
  | sep hleft hc _ ih =>
    rw [replace_append_cons hold new (hsep _ hc)]
    exact .sep (htoken _ hleft) hc ih

/-- A pattern without separators occurs in a token or not at all. -/
theorem not_isInfix {pattern : Text} (h : Tokens isSep P text)
    (hsep : ∀ c, isSep c = true → c ∉ pattern)
    (htoken : ∀ token, P token → ¬pattern <:+: token) : ¬pattern <:+: text := by
  induction h with
  | token h => exact htoken _ h
  | sep hleft hc _ ih =>
    rw [infix_append_cons_iff (hsep _ hc), not_or]
    exact ⟨htoken _ hleft, ih⟩

section Filling

variable {nameAt : Text → Option Text} {entries : List (Text × Text)} {value : Text → Text}

theorem subst (h : Tokens isSep P text) (hsep : ∀ c, isSep c = true → Separates c entries)
    (htoken : ∀ token, P token → Q (Text.subst entries token)) :
    Tokens isSep Q (Text.subst entries text) := by
  induction h with
  | token h => exact .token (htoken _ h)
  | sep hleft hc _ ih =>
    rw [subst_append_cons (hsep _ hc)]
    exact .sep (htoken _ hleft) hc ih

/-- One name after the other or all at once: the result is the same if it is the same in every
token. -/
theorem subst_eq_fillNames (h : Tokens isSep P text)
    (hsep : ∀ c, isSep c = true → Separates c entries) (hfound : Found nameAt)
    (hbreaks : ∀ c, isSep c = true → Breaks nameAt c)
    (htoken : ∀ token, P token → Text.subst entries token = fillNames nameAt value token) :
    Text.subst entries text = fillNames nameAt value text := by
  induction h with
  | token h => exact htoken _ h
  | sep hleft hc _ ih =>
    rw [subst_append_cons (hsep _ hc), fillNames_append_cons hfound (hbreaks _ hc),
      htoken _ hleft, ih]

theorem forall_names {R : Text → Prop} (h : Tokens isSep P text) (hfound : Found nameAt)
    (hbreaks : ∀ c, isSep c = true → Breaks nameAt c)
    (htoken : ∀ token, P token → ∀ name ∈ names nameAt token, R name) :
    ∀ name ∈ names nameAt text, R name := by
  induction h with
  | token h => exact htoken _ h
  | sep hleft hc _ ih =>
    rw [names_append_cons hfound (hbreaks _ hc), List.forall_mem_append]
    exact ⟨htoken _ hleft, ih⟩

end Filling

end Tokens

end ProcessorFuzz.Library.Text
