import ProcessorFuzz.Library.Text

/-!
# Backtracking regular expressions with named groups

The fragment of Python's `re` in which a repetition ranges over a character class. `match` runs the
backtracking search of `re.match`: greedy repetitions try the longest run first, lazy ones the
shortest, and a group records the text it consumed.

`Parses` is the declarative reading of an expression: which text it consumes, in front of which
rest, with which groups. The matcher is sound for it, so that a statement about every match is
proved from the shape of the expression and never from the order of the search.
-/

namespace ProcessorFuzz.Library

/-- A regular expression whose groups are named by `κ`. -/
inductive Regex (κ : Type)
  | empty
  | char (cls : Char → Bool)
  | rep (least : ℕ) (greedy : Bool) (cls : Char → Bool)
  | endOfLine
  | group (name : κ) (body : Regex κ)
  | seq (first second : Regex κ)

namespace Regex

variable {κ α : Type}

/-- The groups recorded so far, in the order in which they were closed. -/
abbrev Groups (κ : Type) := List (κ × Text)

/-- A literal string. -/
def text (literal : Text) : Regex κ :=
  literal.foldr (fun c rest ↦ seq (char (· == c)) rest) empty

def concat (parts : List (Regex κ)) : Regex κ := parts.foldr seq empty

/-- `.`: every character but the line break. -/
def dot (c : Char) : Bool := c != '\n'

def digit (c : Char) : Bool := c.isDigit

/-- Match a run of the class in front of the continuation, longest or shortest run first. -/
def repRun (cls : Char → Bool) (greedy : Bool) : ℕ → Text → (Text → Option α) → Option α
  | least, [], k => if least = 0 then k [] else none
  | least, c :: rest, k =>
    let stop := if least = 0 then k (c :: rest) else none
    let go := if cls c then repRun cls greedy (least - 1) rest k else none
    if greedy then go.or stop else stop.or go

/-- The search, with the continuation that has to match the rest of the line. -/
def run : Regex κ → Text → Groups κ → (Text → Groups κ → Option α) → Option α
  | empty, input, groups, k => k input groups
  | char _, [], _, _ => none
  | char cls, c :: rest, groups, k => if cls c then k rest groups else none
  | rep least greedy cls, input, groups, k =>
    repRun cls greedy least input fun rest ↦ k rest groups
  | endOfLine, input, groups, k => if input = [] ∨ input = ['\n'] then k input groups else none
  | group name body, input, groups, k =>
    run body input groups fun rest groups' ↦
      k rest (groups' ++ [(name, input.take (input.length - rest.length))])
  | seq first second, input, groups, k =>
    run first input groups fun rest groups' ↦ run second rest groups' k

/-- `re.match`: a match at the start of the line, with its groups. -/
def match? (regex : Regex κ) (line : Text) : Option (Groups κ) :=
  regex.run line [] fun _ groups ↦ some groups

/-- `re.search`: the first match anywhere in the line. -/
def search? (regex : Regex κ) : Text → Option (Groups κ)
  | [] => regex.match? []
  | c :: line => (regex.match? (c :: line)).or (search? regex line)

/-- The expression consumes `input` in front of `rest` and records `groups`. -/
inductive Parses : Regex κ → Text → Text → Groups κ → Prop
  | empty {rest : Text} : Parses empty [] rest []
  | char {cls : Char → Bool} {c : Char} {rest : Text} (h : cls c = true) :
    Parses (char cls) [c] rest []
  | rep {least : ℕ} {greedy : Bool} {cls : Char → Bool} {input rest : Text}
    (hclass : ∀ c ∈ input, cls c = true) (hleast : least ≤ input.length) :
    Parses (rep least greedy cls) input rest []
  | endOfLine {rest : Text} (h : rest = [] ∨ rest = ['\n']) : Parses endOfLine [] rest []
  | group {name : κ} {body : Regex κ} {input rest : Text} {groups : Groups κ}
    (h : Parses body input rest groups) :
    Parses (group name body) input rest (groups ++ [(name, input)])
  | seq {first second : Regex κ} {input input' rest : Text} {groups groups' : Groups κ}
    (hfirst : Parses first input (input' ++ rest) groups)
    (hsecond : Parses second input' rest groups') :
    Parses (seq first second) (input ++ input') rest (groups ++ groups')

theorem repRun_sound {cls : Char → Bool} {greedy : Bool} {least : ℕ} {input : Text}
    {k : Text → Option α} {result : α} (h : repRun cls greedy least input k = some result) :
    ∃ consumed rest, input = consumed ++ rest ∧ (∀ c ∈ consumed, cls c = true) ∧
      least ≤ consumed.length ∧ k rest = some result := by
  induction input generalizing least with
  | nil =>
    by_cases hleast : least = 0
    · exact ⟨[], [], rfl, by simp, by simp [hleast], by simpa [repRun, hleast] using h⟩
    · simp [repRun, hleast] at h
  | cons c input ih =>
    rw [repRun] at h
    have hcases : (if least = 0 then k (c :: input) else none) = some result ∨
        (if cls c then repRun cls greedy (least - 1) input k else none) = some result := by
      cases greedy with
      | true =>
        simp only [if_true] at h
        rcases Option.or_eq_some_iff.mp h with hgo | ⟨-, hstop⟩
        · exact .inr hgo
        · exact .inl hstop
      | false =>
        simp only [Bool.false_eq_true, if_false] at h
        rcases Option.or_eq_some_iff.mp h with hstop | ⟨-, hgo⟩
        · exact .inl hstop
        · exact .inr hgo
    rcases hcases with hstop | hgo
    · split at hstop
      · rename_i hleast
        exact ⟨[], c :: input, rfl, by simp, by simp [hleast], hstop⟩
      · cases hstop
    · split at hgo
      · rename_i hclass
        obtain ⟨consumed, rest, rfl, hall, hlen, hk⟩ := ih hgo
        refine ⟨c :: consumed, rest, rfl, ?_, by simp; omega, hk⟩
        intro d hd
        rcases List.mem_cons.mp hd with rfl | hd
        · exact hclass
        · exact hall d hd
      · cases hgo

/-- Whatever the search finds is a parse of a prefix of the line. -/
theorem run_sound {regex : Regex κ} {input : Text} {groups : Groups κ}
    {k : Text → Groups κ → Option α} {result : α} (h : regex.run input groups k = some result) :
    ∃ consumed rest new, input = consumed ++ rest ∧ Parses regex consumed rest new ∧
      k rest (groups ++ new) = some result := by
  induction regex generalizing input groups k with
  | empty => exact ⟨[], input, [], rfl, .empty, by simpa [run] using h⟩
  | char cls =>
    cases input with
    | nil => simp [run] at h
    | cons c rest =>
      by_cases hclass : cls c = true
      · exact ⟨[c], rest, [], rfl, .char hclass, by simpa [run, hclass] using h⟩
      · simp [run, hclass] at h
  | rep least greedy cls =>
    obtain ⟨consumed, rest, rfl, hall, hlen, hk⟩ := repRun_sound h
    exact ⟨consumed, rest, [], rfl, .rep hall hlen, by simpa using hk⟩
  | endOfLine =>
    by_cases hend : input = [] ∨ input = ['\n']
    · exact ⟨[], input, [], rfl, .endOfLine hend, by simpa [run, hend] using h⟩
    · simp [run, hend] at h
  | group name body ih =>
    obtain ⟨consumed, rest, new, rfl, hparse, hk⟩ := ih h
    refine ⟨consumed, rest, new ++ [(name, consumed)], rfl, .group hparse, ?_⟩
    simpa using hk
  | seq first second ihFirst ihSecond =>
    obtain ⟨consumed, middle, new, rfl, hfirst, hk⟩ := ihFirst h
    obtain ⟨consumed', rest, new', rfl, hsecond, hk'⟩ := ihSecond hk
    refine ⟨consumed ++ consumed', rest, new ++ new', by simp, .seq hfirst hsecond, ?_⟩
    simpa using hk'

theorem match?_sound {regex : Regex κ} {line : Text} {groups : Groups κ}
    (h : regex.match? line = some groups) :
    ∃ consumed rest, line = consumed ++ rest ∧ Parses regex consumed rest groups := by
  obtain ⟨consumed, rest, new, hline, hparse, hk⟩ := run_sound h
  obtain rfl : new = groups := by simpa using hk
  exact ⟨consumed, rest, hline, hparse⟩

@[simp]
theorem parses_empty_iff {input rest : Text} {groups : Groups κ} :
    Parses empty input rest groups ↔ input = [] ∧ groups = [] := by
  constructor
  · rintro ⟨⟩
    exact ⟨rfl, rfl⟩
  · rintro ⟨rfl, rfl⟩
    exact .empty

@[simp]
theorem parses_char_iff {cls : Char → Bool} {input rest : Text} {groups : Groups κ} :
    Parses (char cls) input rest groups ↔ (∃ c, cls c = true ∧ input = [c]) ∧ groups = [] := by
  constructor
  · rintro ⟨⟩
    exact ⟨⟨_, ‹_›, rfl⟩, rfl⟩
  · rintro ⟨⟨c, hc, rfl⟩, rfl⟩
    exact .char hc

@[simp]
theorem parses_rep_iff {least : ℕ} {greedy : Bool} {cls : Char → Bool} {input rest : Text}
    {groups : Groups κ} :
    Parses (rep least greedy cls) input rest groups ↔
      (∀ c ∈ input, cls c = true) ∧ least ≤ input.length ∧ groups = [] := by
  constructor
  · rintro ⟨⟩
    exact ⟨‹_›, ‹_›, rfl⟩
  · rintro ⟨hall, hlen, rfl⟩
    exact .rep hall hlen

@[simp]
theorem parses_endOfLine_iff {input rest : Text} {groups : Groups κ} :
    Parses endOfLine input rest groups ↔
      (rest = [] ∨ rest = ['\n']) ∧ input = [] ∧ groups = [] := by
  constructor
  · rintro ⟨⟩
    exact ⟨‹_›, rfl, rfl⟩
  · rintro ⟨h, rfl, rfl⟩
    exact .endOfLine h

theorem parses_group_iff {name : κ} {body : Regex κ} {input rest : Text} {groups : Groups κ} :
    Parses (group name body) input rest groups ↔
      ∃ inner, Parses body input rest inner ∧ groups = inner ++ [(name, input)] := by
  constructor
  · rintro ⟨⟩
    exact ⟨_, ‹_›, rfl⟩
  · rintro ⟨inner, h, rfl⟩
    exact .group h

theorem parses_seq_iff {first second : Regex κ} {input rest : Text} {groups : Groups κ} :
    Parses (seq first second) input rest groups ↔
      ∃ left right new new', Parses first left (right ++ rest) new ∧ Parses second right rest new' ∧
        input = left ++ right ∧ groups = new ++ new' := by
  constructor
  · rintro ⟨⟩
    exact ⟨_, _, _, _, ‹_›, ‹_›, rfl, rfl⟩
  · rintro ⟨left, right, new, new', hfirst, hsecond, rfl, rfl⟩
    exact .seq hfirst hsecond

@[simp]
theorem parses_text_iff {literal input rest : Text} {groups : Groups κ} :
    Parses (text literal) input rest groups ↔ input = literal ∧ groups = [] := by
  induction literal generalizing input groups with
  | nil => simp [text]
  | cons c literal ih =>
    have hcons : (text (c :: literal) : Regex κ) = seq (char (· == c)) (text literal) := rfl
    rw [hcons, parses_seq_iff]
    constructor
    · rintro ⟨left, right, new, new', hchar, htext, rfl, rfl⟩
      obtain ⟨⟨d, hd, rfl⟩, rfl⟩ := parses_char_iff.mp hchar
      obtain ⟨rfl, rfl⟩ := ih.mp htext
      simp_all
    · rintro ⟨rfl, rfl⟩
      exact ⟨[c], literal, [], [], parses_char_iff.mpr ⟨⟨c, by simp, rfl⟩, rfl⟩,
        ih.mpr ⟨rfl, rfl⟩, rfl, rfl⟩

/-- A group around one repetition, the shape of every field of a line format. -/
theorem parses_field_iff {name : κ} {least : ℕ} {greedy : Bool} {cls : Char → Bool}
    {input rest : Text} {groups : Groups κ} :
    Parses (group name (rep least greedy cls)) input rest groups ↔
      (∀ c ∈ input, cls c = true) ∧ least ≤ input.length ∧ groups = [(name, input)] := by
  rw [parses_group_iff]
  constructor
  · rintro ⟨inner, h, rfl⟩
    obtain ⟨hall, hlen, rfl⟩ := parses_rep_iff.mp h
    exact ⟨hall, hlen, rfl⟩
  · rintro ⟨hall, hlen, rfl⟩
    exact ⟨[], parses_rep_iff.mpr ⟨hall, hlen, rfl⟩, rfl⟩

theorem parses_concat_cons_iff {first : Regex κ} {parts : List (Regex κ)} {input rest : Text}
    {groups : Groups κ} :
    Parses (concat (first :: parts)) input rest groups ↔
      ∃ left right new new', Parses first left (right ++ rest) new ∧
        Parses (concat parts) right rest new' ∧ input = left ++ right ∧ groups = new ++ new' :=
  parses_seq_iff

@[simp]
theorem parses_concat_nil_iff {input rest : Text} {groups : Groups κ} :
    Parses (concat []) input rest groups ↔ input = [] ∧ groups = [] :=
  parses_empty_iff

end Regex

end ProcessorFuzz.Library
