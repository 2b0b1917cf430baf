import ProcessorFuzz.Library.Text

/-!
# Substituting names

A template is filled in by replacing its names one after the other. Between characters that no name
contains the tokens are filled in separately. A token becomes the value of the name that it is, if
no other name is found in it and no name in the value, whatever the order of the names.
-/

namespace ProcessorFuzz.Library.Text

/-- The text with every name replaced by its value, one name after the other. -/
def subst (entries : List (Text × Text)) (text : Text) : Text :=
  entries.foldl (fun text entry ↦ replace entry.1 entry.2 text) text

/-- A character that no name contains. -/
def Separates (c : Char) (entries : List (Text × Text)) : Prop :=
  ∀ entry ∈ entries, entry.1 ≠ [] ∧ c ∉ entry.1

/-- No name is found in the text. -/
def Unnamed (entries : List (Text × Text)) (text : Text) : Prop :=
  ∀ entry ∈ entries, ¬ entry.1 <:+: text

variable {entries : List (Text × Text)} {text name value : Text} {c : Char}

theorem subst_cons (entry : Text × Text) (entries : List (Text × Text)) (text : Text) :
    subst (entry :: entries) text = subst entries (replace entry.1 entry.2 text) := rfl

/-- Both sides of a separator are filled in. -/
theorem subst_append_cons (h : Separates c entries) (left right : Text) :
    subst entries (left ++ c :: right) = subst entries left ++ c :: subst entries right := by
  induction entries generalizing left right with
  | nil => rfl
  | cons entry entries ih =>
    obtain ⟨⟨hne, hc⟩, hentries⟩ := List.forall_mem_cons.mp h
    calc
      subst (entry :: entries) (left ++ c :: right)
          = subst entries (replace entry.1 entry.2 left ++ c :: replace entry.1 entry.2 right) := by
        rw [subst_cons, replace_append_cons hne entry.2 hc]
      _ = subst (entry :: entries) left ++ c :: subst (entry :: entries) right :=
        ih hentries _ _

theorem subst_of_unnamed (h : Unnamed entries text) : subst entries text = text := by
  induction entries with
  | nil => rfl
  | cons entry entries ih =>
    obtain ⟨hentry, hentries⟩ := List.forall_mem_cons.mp h
    rw [subst_cons, replace_of_not_isInfix entry.2 hentry, ih hentries]

@[simp]
theorem subst_nil (entries : List (Text × Text)) : subst entries [] = [] := by
  induction entries with
  | nil => rfl
  | cons entry entries ih => rw [subst_cons, replace_nil, ih]

/-- A name becomes its value. -/
theorem subst_of_mem (hname : name ≠ []) (hmem : (name, value) ∈ entries)
    (hvalue : Unnamed entries value)
    (hother : ∀ entry ∈ entries, entry.1 <:+: name → entry = (name, value)) :
    subst entries name = value := by
  induction entries with
  | nil => exact nomatch hmem
  | cons entry entries ih =>
    obtain ⟨-, hvalue⟩ := List.forall_mem_cons.mp hvalue
    obtain ⟨hentry, hother⟩ := List.forall_mem_cons.mp hother
    by_cases heq : entry = (name, value)
    · have hreplace : replace name value name = value := by
        simpa using replace_prefix hname value []
      rw [subst_cons, heq, hreplace, subst_of_unnamed hvalue]
    · have hmem : (name, value) ∈ entries := List.mem_of_ne_of_mem (Ne.symm heq) hmem
      rw [subst_cons, replace_of_not_isInfix entry.2 fun hwithin ↦ heq (hentry hwithin)]
      exact ih hmem hvalue hother

/-- Every character of the filled in text was there before or comes from a value. -/
theorem mem_subst {d : Char} (h : d ∈ subst entries text) :
    d ∈ text ∨ ∃ entry ∈ entries, d ∈ entry.2 := by
  induction entries generalizing text with
  | nil => exact .inl h
  | cons entry entries ih =>
    rcases ih h with h | ⟨other, hother, h⟩
    · rcases mem_replaceFrom h with h | h
      · exact .inl h
      · exact .inr ⟨entry, List.mem_cons_self, h⟩
    · exact .inr ⟨other, List.mem_cons_of_mem entry hother, h⟩

/-- An entry whose name has a character that neither the text nor a value has is never used. -/
theorem subst_filter {mark : Char} {p : Text × Text → Bool} (htext : mark ∉ text)
    (hvalues : ∀ entry ∈ entries, mark ∉ entry.2)
    (hnames : ∀ entry ∈ entries, p entry = false → mark ∈ entry.1) :
    subst entries text = subst (entries.filter p) text := by
  induction entries generalizing text with
  | nil => rfl
  | cons entry entries ih =>
    obtain ⟨hvalue, hvalues⟩ := List.forall_mem_cons.mp hvalues
    obtain ⟨hname, hnames⟩ := List.forall_mem_cons.mp hnames
    rw [subst_cons, List.filter_cons]
    split
    · have hreplace : mark ∉ replace entry.1 entry.2 text := by
        intro hmem
        rcases mem_replaceFrom hmem with hmem | hmem
        · exact htext hmem
        · exact hvalue hmem
      rw [ih hreplace hvalues hnames, subst_cons]
    · next hp =>
      have hmark := hname (eq_false_of_ne_true hp)
      rw [replace_of_not_isInfix entry.2 (not_infix_of_not_mem hmark htext)]
      exact ih htext hvalues hnames

end ProcessorFuzz.Library.Text
