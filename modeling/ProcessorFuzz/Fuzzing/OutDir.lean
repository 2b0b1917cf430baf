import ProcessorFuzz.Library.Files
import ProcessorFuzz.Mutation.CorpusSharing

/-!
# The output directory

The names of the files that the fuzzer writes, relative to `out`. A name says which iteration or
which number a file belongs to, and what it is for: files of different iterations have different
names, and so have files for different purposes.
-/

namespace ProcessorFuzz.Fuzzing

open Library Mutation

/-- The files that an iteration makes for itself: the test, the trace of Spike and that of the RTL
simulation. -/
inductive OwnKind
  | test
  | isa
  | rtl

/-- How the name of such a file begins. -/
def OwnKind.text : OwnKind → Text
  | test => "tests/.input_".toList
  | isa => "trace/isa_".toList
  | rtl => "trace/rtl_".toList

def ownFile (kind : OwnKind) (it : ℕ) (rest : Text) : Text := kind.text ++ (Text.dec it ++ rest)

/-- `'tests/.input_{}{}'.format(it, name_suffix)` with an extension. -/
def testFile (it : ℕ) (suffix extension : Text) : Text := ownFile .test it (suffix ++ extension)

/-- `'trace/isa_{}'.format(it)` with an extension. -/
def isaTrace (it : ℕ) (extension : Text) : Text := ownFile .isa it extension

/-- `'trace/rtl_{}.log'.format(it)` -/
def rtlTrace (it : ℕ) : Text := ownFile .rtl it ".log".toList

/-- `'corpus/id_{}.si'.format(num)` -/
def corpusFile (num : ℕ) : Text := "corpus/".toList ++ siName num

/-- The directories of the tests that are kept for a report. -/
inductive ReportDir
  | mismatch
  | illegal

def ReportDir.text : ReportDir → Text
  | mismatch => "mismatch".toList
  | illegal => "illegal".toList

/-- `out + '/{kind}/id_{num}.{extension}'` for a directory of reports. -/
def reportFile (dir : ReportDir) (kind : Text) (num : ℕ) (extension : Text) : Text :=
  dir.text ++ ("/".toList ++ kind ++ "/id_".toList ++ Text.dec num ++ extension)

/-- What stands behind a number in a name. -/
def EndsNumber (rest : Text) : Prop := ∀ c ∈ rest.head?, c.isDigit = false

theorem endsNumber_iff {rest : Text} :
    EndsNumber rest ↔ rest.head?.all (fun c ↦ !c.isDigit) = true := by
  cases rest with
  | nil => simp [EndsNumber]
  | cons c rest => simp [EndsNumber]

instance (rest : Text) : Decidable (EndsNumber rest) := decidable_of_iff' _ endsNumber_iff

theorem takeWhile_isDigit_dec (n : ℕ) {rest : Text} (hrest : EndsNumber rest) :
    (Text.dec n ++ rest).takeWhile Char.isDigit = Text.dec n := by
  rw [List.takeWhile_append_of_pos fun c hc ↦ Text.isDigit_of_mem_dec hc]
  cases rest with
  | nil => rw [List.takeWhile_nil, List.append_nil]
  | cons c rest =>
    have hc : c.isDigit = false := hrest c rfl
    rw [List.takeWhile_cons_of_neg (by simp [hc]), List.append_nil]

/-- The number in a name and what stands behind it can be read off the name. -/
theorem dec_append_inj {n m : ℕ} {rest rest' : Text} (hrest : EndsNumber rest)
    (hrest' : EndsNumber rest') (h : Text.dec n ++ rest = Text.dec m ++ rest') :
    n = m ∧ rest = rest' := by
  have hnumber : Text.dec n = Text.dec m := by
    rw [← takeWhile_isDigit_dec n hrest, h, takeWhile_isDigit_dec m hrest']
  exact ⟨Text.dec_injective hnumber, List.append_cancel_left (hnumber ▸ h)⟩

theorem EndsNumber.append {rest : Text} (h : EndsNumber rest) (hne : rest ≠ []) (more : Text) :
    EndsNumber (rest ++ more) := by
  cases rest with
  | nil => exact absurd rfl hne
  | cons c rest => exact h

/-- The first character behind the directory. -/
def OwnKind.mark : OwnKind → Char
  | test => '.'
  | isa => 'i'
  | rtl => 'r'

theorem OwnKind.getElem?_text (kind : OwnKind) (rest : Text) :
    (kind.text ++ rest)[6]? = some kind.mark := by
  cases kind <;> exact List.getElem?_append_left (by decide)

theorem OwnKind.mark_injective : Function.Injective mark := by
  intro kind kind' h
  cases kind <;> cases kind' <;> first | rfl | exact absurd h (by decide)

theorem ownFile_inj {kind kind' : OwnKind} {it it' : ℕ} {rest rest' : Text}
    (hrest : EndsNumber rest) (hrest' : EndsNumber rest')
    (h : ownFile kind it rest = ownFile kind' it' rest') :
    kind = kind' ∧ it = it' ∧ rest = rest' := by
  have hmark : some kind.mark = some kind'.mark := by
    rw [← kind.getElem?_text (Text.dec it ++ rest), ← kind'.getElem?_text (Text.dec it' ++ rest')]
    exact congrArg (·[6]?) h
  obtain rfl := OwnKind.mark_injective (Option.some.inj hmark)
  exact ⟨rfl, dec_append_inj hrest hrest' (List.append_cancel_left h)⟩

/-- The file belongs to an iteration. -/
def OwnedBy (it : ℕ) (path : Text) : Prop :=
  ∃ kind rest, EndsNumber rest ∧ path = ownFile kind it rest

/-- A file has one owner. -/
theorem OwnedBy.unique {it it' : ℕ} {path : Text} (h : OwnedBy it path) (h' : OwnedBy it' path) :
    it = it' := by
  obtain ⟨kind, rest, hrest, rfl⟩ := h
  obtain ⟨kind', rest', hrest', heq⟩ := h'
  exact (ownFile_inj hrest hrest' heq).2.1

/-- A pattern that begins like the name of a file finds files of the same iteration only. -/
theorem owned_of_matches {kind kind' : OwnKind} {it it' : ℕ} {rest rest' : Text}
    (hrest : EndsNumber rest) (hne : rest ≠ []) (hrest' : EndsNumber rest')
    (h : FileSystem.Matches (ownFile kind it rest) (ownFile kind' it' rest')) :
    kind = kind' ∧ it = it' ∧ rest <+: rest' := by
  obtain ⟨more, heq⟩ := h.1
  have hfile : ownFile kind it (rest ++ more) = ownFile kind' it' rest' := by
    rw [← heq, ownFile, ownFile, List.append_assoc, List.append_assoc]
  obtain ⟨hkind, hit, hrest⟩ := ownFile_inj (hrest.append hne more) hrest' hfile
  exact ⟨hkind, hit, more, hrest⟩

theorem head?_ownFile (kind : OwnKind) (it : ℕ) (rest : Text) :
    (ownFile kind it rest).head? = some 't' := by
  cases kind <;> rfl

/-- The files of the iterations are in directories that begin with another letter than the others. -/
theorem not_ownedBy_of_head? {path : Text} (h : path.head? ≠ some 't') (it : ℕ) :
    ¬ OwnedBy it path := by
  rintro ⟨kind, rest, -, rfl⟩
  exact h (head?_ownFile kind it rest)

theorem head?_corpusFile (num : ℕ) : (corpusFile num).head? = some 'c' := rfl

theorem head?_reportFile (dir : ReportDir) (kind : Text) (num : ℕ) (extension : Text) :
    (reportFile dir kind num extension).head? ∈ [some 'm', some 'i'] := by
  cases dir
  · exact List.mem_cons_self
  · exact List.mem_cons_of_mem _ List.mem_cons_self

theorem siName_injective : Function.Injective siName := by
  intro i j h
  have htail : Text.dec i ++ ".si".toList = Text.dec j ++ ".si".toList := by
    unfold siName at h
    rw [List.append_assoc, List.append_assoc] at h
    exact List.append_cancel_left h
  exact (dec_append_inj (by decide) (by decide) htail).1

theorem corpusFile_injective : Function.Injective corpusFile := by
  intro i j h
  exact siName_injective (List.append_cancel_left h)

end ProcessorFuzz.Fuzzing
