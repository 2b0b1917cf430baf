import ProcessorFuzz.Library.Dict
import ProcessorFuzz.Library.Reading

/-!
# The tile info reader

The information file of a tile has one line for each key, the values of the key on indented lines
below it, and an empty line between two keys. The reader takes the last character off every line, as
if each had a line break.
-/

namespace ProcessorFuzz.Execution

open Library

/-- `name_map`. -/
abbrev NameMap := Dict Text (List Text)

/-- Two blanks. -/
def indent : Text := "  ".toList

/-- The two loops, as one over the lines; in the inner one, `key` is the key whose values are read.
A failure is the text of the exception. -/
def readNames (inputName : Text) : Option Text → NameMap → List Text → Except Text NameMap
  | _, nameMap, [] => .ok nameMap
  | none, nameMap, line :: lines =>
    if line.take 2 ≠ indent then
      let key := Text.slice line 0 (-1)
      readNames inputName (some key) (nameMap.set key []) lines
    else readNames inputName none nameMap lines
  | some key, nameMap, valLine :: lines =>
    if valLine.take 2 ≠ indent then
      if valLine ≠ ['\n'] then
        .error ("Name file ".toList ++ inputName ++
          " must contain new line between entries".toList)
      else readNames inputName none nameMap lines
    else
      let values := nameMap.getD key [] ++ [Text.slice valLine 2 (-1)]
      readNames inputName (some key) (nameMap.set key values) lines

/-- `tileSrcReader`, with the contents of the file if it exists. -/
def tileSrcReader (inputName : Text) (file : Option Text) : Except Text NameMap :=
  match file with
  | none => .error ("No file exists: ".toList ++ inputName)
  | some contents => readNames inputName none Dict.empty (Text.readlines contents)

/-- The lines of an entry. -/
def entryLines (entry : Text × List Text) : List Text :=
  entry.1 :: entry.2.map fun value ↦ indent ++ value

/-- The lines of a map: an empty line stands between two entries. -/
def infoLines (entries : List (Text × List Text)) : List Text :=
  (entries.dropLast.flatMap fun entry ↦ entryLines entry ++ [[]]) ++
    (entries.getLast?.map entryLines).getD []

/-- How a file ends: without a line break, with one, or with an empty line. -/
inductive Ending
  | unbroken
  | lineBreak
  | emptyLine
  deriving DecidableEq, Repr

def infoText (ending : Ending) (nameMap : NameMap) : Text :=
  let text := (infoLines nameMap.entries).flatMap fun line ↦ line ++ ['\n']
  match ending with
  | .unbroken => text.dropLast
  | .lineBreak => text
  | .emptyLine => text ++ ['\n']

/-- The keys and values that the format can hold. -/
structure Legible (entry : Text × List Text) : Prop where
  key_ne_nil : entry.1 ≠ []
  key_not_indented : entry.1.take 2 ≠ indent
  key_line : Text.IsLineText entry.1
  value_line : ∀ value ∈ entry.2, Text.IsLineText value

/-- The last value of the last key is empty. -/
def EndsEmpty (nameMap : NameMap) : Prop :=
  ∃ entry, nameMap.entries.getLast? = some entry ∧ entry.2.getLast? = some []

variable {inputName : Text}

/-- A line with its line break. -/
def broken (line : Text) : Text := line ++ ['\n']

/-- The slice of a value's line. -/
theorem slice_indent (text : Text) : Text.slice (indent ++ text) 2 (-1) = text.dropLast := by
  refine (Text.slice_neg_one (indent ++ text) 2).trans ?_
  cases text with
  | nil => rfl
  | cons c text =>
    rw [List.dropLast_append_of_ne_nil (List.cons_ne_nil c text)]
    rfl

theorem slice_key (text : Text) : Text.slice text 0 (-1) = text.dropLast :=
  Text.slice_neg_one text 0

/-- A value is appended to those of its key. -/
theorem readNames_value (text : Text) (key : Text) (nameMap : NameMap) (before : List Text)
    (rest : List Text) :
    readNames inputName (some key) (nameMap.set key before) ((indent ++ text) :: rest) =
      readNames inputName (some key) (nameMap.set key (before ++ [text.dropLast])) rest := by
  have hindent : (indent ++ text).take 2 = indent := rfl
  rw [readNames, if_neg (not_not.mpr hindent), slice_indent, Dict.getD, Dict.get?_set_self,
    Option.getD_some]
  dsimp only
  rw [Dict.set_set]

/-- Complete lines of values. -/
theorem readNames_values (values : List Text) (key : Text) (nameMap : NameMap) (before : List Text)
    (rest : List Text) :
    readNames inputName (some key) (nameMap.set key before)
      ((values.map fun value ↦ indent ++ value).map broken ++ rest) =
      readNames inputName (some key) (nameMap.set key (before ++ values)) rest := by
  induction values generalizing before with
  | nil => rw [List.append_nil]; rfl
  | cons value values ih =>
    have hline : broken (indent ++ value) = indent ++ broken value := List.append_assoc _ _ _
    have hvalue : (broken value).dropLast = value := List.dropLast_concat
    rw [List.map_cons, List.map_cons, List.cons_append, hline, readNames_value, hvalue, ih,
      List.append_assoc, List.singleton_append]

/-- The line of a key. -/
theorem readNames_key {text : Text} (h : text.take 2 ≠ indent) (nameMap : NameMap)
    (rest : List Text) :
    readNames inputName none nameMap (text :: rest) =
      readNames inputName (some text.dropLast) (nameMap.set text.dropLast []) rest := by
  rw [readNames, if_pos h, slice_key]

theorem take_broken {text : Text} (h : text.take 2 ≠ indent) : (broken text).take 2 ≠ indent := by
  match text with
  | [] => exact nofun
  | [c] =>
    intro heq
    have hbreak := (List.cons.inj (List.cons.inj heq).2).1
    exact absurd hbreak (by decide)
  | c :: d :: text => exact h

/-- Complete lines of an entry. -/
theorem readNames_entry {entry : Text × List Text} (h : Legible entry) (nameMap : NameMap)
    (rest : List Text) :
    readNames inputName none nameMap ((entryLines entry).map broken ++ rest) =
      readNames inputName (some entry.1) (nameMap.set entry.1 entry.2) rest := by
  have hkey : (broken entry.1).dropLast = entry.1 := List.dropLast_concat
  rw [entryLines, List.map_cons, List.cons_append, readNames_key (take_broken h.key_not_indented),
    hkey, readNames_values, List.nil_append]

/-- The empty line behind an entry. -/
theorem readNames_emptyLine (key : Text) (nameMap : NameMap) (rest : List Text) :
    readNames inputName (some key) nameMap (['\n'] :: rest) =
      readNames inputName none nameMap rest := by
  rw [readNames, if_pos (by decide), if_neg (by decide)]

/-- Entries with an empty line behind each of them. -/
theorem readNames_entries {entries : List (Text × List Text)} (h : ∀ entry ∈ entries, Legible entry)
    (nameMap : NameMap) (rest : List Text) :
    readNames inputName none nameMap
      ((entries.flatMap fun entry ↦ entryLines entry ++ [[]]).map broken ++ rest) =
      readNames inputName none (nameMap.update entries) rest := by
  induction entries generalizing nameMap with
  | nil => rfl
  | cons entry entries ih =>
    rw [List.flatMap_cons, List.map_append, List.map_append, List.append_assoc, List.append_assoc,
      readNames_entry (h entry List.mem_cons_self)]
    change readNames inputName (some entry.1) _
      (['\n'] :: ((entries.flatMap fun entry ↦ entryLines entry ++ [[]]).map broken ++ rest)) = _
    rw [readNames_emptyLine, ih fun e he ↦ h e (List.mem_cons_of_mem entry he)]
    rfl

/-- The reader gives back the map that the file was made from. -/
def RoundTrips (inputName : Text) (ending : Ending) (nameMap : NameMap) : Prop :=
  tileSrcReader inputName (some (infoText ending nameMap)) = .ok nameMap

/-- The end of the file that an ending leaves of the last entry's lines. -/
theorem infoLines_concat (entries : List (Text × List Text)) (entry : Text × List Text) :
    infoLines (entries ++ [entry]) =
      (entries.flatMap fun entry ↦ entryLines entry ++ [[]]) ++ entryLines entry := by
  rw [infoLines, List.dropLast_concat, List.getLast?_concat]
  rfl

theorem Legible.isLineText {entry : Text × List Text} (h : Legible entry) :
    ∀ line ∈ entryLines entry, Text.IsLineText line := by
  intro line hline
  rcases List.mem_cons.mp hline with rfl | hline
  · exact h.key_line
  · obtain ⟨value, hvalue, rfl⟩ := List.mem_map.mp hline
    exact Text.IsLineText.append (by decide) (h.value_line value hvalue)

theorem isLineText_entries {entries : List (Text × List Text)}
    (h : ∀ entry ∈ entries, Legible entry) :
    ∀ line ∈ entries.flatMap fun entry ↦ entryLines entry ++ [[]], Text.IsLineText line := by
  intro line hline
  obtain ⟨entry, hentry, hline⟩ := List.mem_flatMap.mp hline
  rcases List.mem_append.mp hline with hline | hline
  · exact (h entry hentry).isLineText line hline
  · rw [List.mem_singleton.mp hline]
    exact Text.isLineText_nil

theorem update_entries (nameMap : NameMap) : Dict.empty.update nameMap.entries = nameMap := by
  apply Dict.ext
  rw [Dict.entries_update_of_nodup (by exact nameMap.nodup)]
  rfl

section Last

variable {entries : List (Text × List Text)} {entry : Text × List Text} {nameMap : NameMap}

/-- The entries before the last one are read, and then the lines of the last one. -/
theorem tileSrcReader_eq (hentries : nameMap.entries = entries ++ [entry])
    (h : ∀ e ∈ nameMap.entries, Legible e) (text : Text) :
    tileSrcReader inputName (some (((entries.flatMap fun entry ↦ entryLines entry ++ [[]]).flatMap
      broken) ++ text)) =
      readNames inputName none (Dict.empty.update entries) (Text.readlines text) := by
  have hlegible : ∀ e ∈ entries, Legible e := fun e he ↦ h e (by simp [hentries, he])
  rw [tileSrcReader]
  unfold broken
  rw [Text.readlines_flatMap_append (isLineText_entries hlegible)]
  exact readNames_entries hlegible _ _

/-- Storing the last entry completes the map. -/
theorem set_last (hentries : nameMap.entries = entries ++ [entry]) :
    (Dict.empty.update entries).set entry.1 entry.2 = nameMap := by
  rw [← update_entries nameMap, hentries, Dict.update_append]
  rfl

/-- Only the key and the values of the last entry complete the map. -/
theorem set_eq_iff (hentries : nameMap.entries = entries ++ [entry]) (key : Text)
    (values : List Text) :
    (Dict.empty.update entries).set key values = nameMap ↔ key = entry.1 ∧ values = entry.2 := by
  constructor
  · intro heq
    have hnodup := nameMap.nodup
    rw [hentries, List.map_append, List.map_singleton, List.nodup_append_comm,
      List.singleton_append, List.nodup_cons] at hnodup
    have hlast : nameMap.get? entry.1 = some entry.2 :=
      Dict.get?_eq_some_iff.mpr (by simp [hentries])
    rw [← heq, Dict.get?_set] at hlast
    split at hlast
    · next hkey => exact ⟨hkey.symm, Option.some.inj hlast⟩
    · have hnone : (Dict.empty.update entries : NameMap).get? entry.1 = none := by
        rw [Dict.get?_update_of_not_mem _ hnodup.1]
        rfl
      rw [hnone] at hlast
      cases hlast
  · rintro ⟨rfl, rfl⟩
    exact set_last hentries

/-- The text is that of the lines before the last entry and of the lines of the last entry. -/
theorem infoText_concat (hentries : nameMap.entries = entries ++ [entry]) :
    (infoLines nameMap.entries).flatMap broken =
      ((entries.flatMap fun entry ↦ entryLines entry ++ [[]]).flatMap broken) ++
        (entryLines entry).flatMap broken := by
  rw [hentries, infoLines_concat, List.flatMap_append]

theorem roundTrips_lineBreak (hentries : nameMap.entries = entries ++ [entry])
    (h : ∀ e ∈ nameMap.entries, Legible e) : RoundTrips inputName .lineBreak nameMap := by
  have hentry : Legible entry := h entry (by simp [hentries])
  have htext : infoText .lineBreak nameMap = _ := infoText_concat hentries
  have hlines := Text.readlines_flatMap hentry.isLineText
  have hread := @readNames_entry inputName _ hentry (Dict.empty.update entries) []
  rw [List.append_nil] at hread
  rw [RoundTrips, htext, tileSrcReader_eq hentries h]
  unfold broken at hread ⊢
  rw [hlines, hread, readNames, set_last hentries]

theorem roundTrips_emptyLine (hentries : nameMap.entries = entries ++ [entry])
    (h : ∀ e ∈ nameMap.entries, Legible e) : RoundTrips inputName .emptyLine nameMap := by
  have hentry : Legible entry := h entry (by simp [hentries])
  have htext : infoText .emptyLine nameMap = _ ++ ['\n'] :=
    congrArg (· ++ ['\n']) (infoText_concat hentries)
  have hlines := Text.readlines_flatMap_append hentry.isLineText ['\n']
  have hread := @readNames_entry inputName _ hentry (Dict.empty.update entries) [['\n']]
  rw [RoundTrips, htext, List.append_assoc, tileSrcReader_eq hentries h]
  unfold broken at hread ⊢
  rw [hlines, show Text.readlines ['\n'] = [['\n']] from rfl, hread, readNames_emptyLine, readNames,
    set_last hentries]

theorem dropLast_eq_self_iff {text : Text} : text.dropLast = text ↔ text = [] := by
  constructor
  · intro heq
    have hlength := congrArg List.length heq
    rw [List.length_dropLast] at hlength
    exact List.eq_nil_of_length_eq_zero (by omega)
  · rintro rfl
    rfl

/-- Without the last line break, the last key or value loses its last character. -/
theorem roundTrips_unbroken_iff (hentries : nameMap.entries = entries ++ [entry])
    (h : ∀ e ∈ nameMap.entries, Legible e) :
    RoundTrips inputName .unbroken nameMap ↔ entry.2.getLast? = some [] := by
  obtain ⟨key, values⟩ := entry
  have hentry : Legible (key, values) := h (key, values) (by simp [hentries])
  have htext : infoText .unbroken nameMap = List.dropLast _ :=
    congrArg List.dropLast (infoText_concat hentries)
  rw [RoundTrips, htext]
  rcases List.eq_nil_or_concat' values with rfl | ⟨before, value, rfl⟩
  · have hlast : (((entries.flatMap fun entry ↦ entryLines entry ++ [[]]).flatMap broken) ++
        (entryLines (key, [])).flatMap broken).dropLast =
          ((entries.flatMap fun entry ↦ entryLines entry ++ [[]]).flatMap broken) ++ key := by
      change (_ ++ (key ++ ['\n'] ++ [])).dropLast = _
      rw [List.append_nil, ← List.append_assoc, List.dropLast_concat]
    rw [hlast, tileSrcReader_eq hentries h,
      Text.readlines_of_isLineText hentry.key_ne_nil hentry.key_line,
      readNames_key hentry.key_not_indented, readNames, Except.ok.injEq, set_eq_iff hentries,
      dropLast_eq_self_iff]
    exact iff_of_false (fun hkey ↦ hentry.key_ne_nil hkey.1) nofun
  · have hbefore : Legible (key, before) := ⟨hentry.key_ne_nil, hentry.key_not_indented,
      hentry.key_line, fun v hv ↦ hentry.value_line v (by simp [hv])⟩
    have hvalue : Text.IsLineText (indent ++ value) :=
      Text.IsLineText.append (by decide) (hentry.value_line value (by simp))
    have hlast : (((entries.flatMap fun entry ↦ entryLines entry ++ [[]]).flatMap broken) ++
        (entryLines (key, before ++ [value])).flatMap broken).dropLast =
          ((entries.flatMap fun entry ↦ entryLines entry ++ [[]]).flatMap broken) ++
            ((entryLines (key, before)).flatMap broken ++ (indent ++ value)) := by
      have hlines : entryLines (key, before ++ [value]) =
          entryLines (key, before) ++ [indent ++ value] := by
        rw [entryLines, List.map_append]
        rfl
      rw [hlines, List.flatMap_append, List.flatMap_singleton, broken, ← List.append_assoc,
        ← List.append_assoc, List.dropLast_concat, List.append_assoc]
    have hread := @readNames_entry inputName _ hbefore (Dict.empty.update entries)
      [indent ++ value]
    have hreadlines := Text.readlines_flatMap_append hbefore.isLineText (indent ++ value)
    rw [Text.readlines_of_isLineText (by exact nofun) hvalue] at hreadlines
    rw [hlast, tileSrcReader_eq hentries h]
    unfold broken at hread ⊢
    rw [hreadlines, hread, readNames_value, readNames, Except.ok.injEq, set_eq_iff hentries,
      List.append_cancel_left_eq, List.cons.injEq, dropLast_eq_self_iff, List.getLast?_concat]
    simp

end Last

/-- The reader inverts the format if and only if the text ends with a line break, unless it belongs
to no key, or the last value of the last key is empty. -/
theorem roundTrips_iff (ending : Ending) {nameMap : NameMap}
    (h : ∀ entry ∈ nameMap.entries, Legible entry) :
    RoundTrips inputName ending nameMap ↔
      match ending with
      | .unbroken => nameMap.entries = [] ∨ EndsEmpty nameMap
      | .lineBreak => True
      | .emptyLine => nameMap.entries ≠ [] := by
  rcases List.eq_nil_or_concat' nameMap.entries with hnil | ⟨entries, entry, hentries⟩
  · obtain rfl : nameMap = Dict.empty := Dict.ext hnil
    cases ending with
    | unbroken => exact iff_of_true rfl (.inl hnil)
    | lineBreak => exact iff_of_true rfl trivial
    | emptyLine =>
      -- The empty line is read as an empty key.
      refine iff_of_false (fun heq ↦ ?_) (not_not.mpr hnil)
      have hread : Except.ok (Dict.empty.set [] []) = (Except.ok Dict.empty : Except Text NameMap) :=
        heq
      exact nomatch congrArg Dict.entries (Except.ok.inj hread)
  · have hne : nameMap.entries ≠ [] := by simp [hentries]
    cases ending with
    | unbroken =>
      have hends : EndsEmpty nameMap ↔ entry.2.getLast? = some [] := by
        rw [EndsEmpty, hentries, List.getLast?_concat]
        simp
      exact (roundTrips_unbroken_iff hentries h).trans (hends.symm.trans (or_iff_right hne).symm)
    | lineBreak => exact iff_of_true (roundTrips_lineBreak hentries h) trivial
    | emptyLine => exact iff_of_true (roundTrips_emptyLine hentries h) hne

/-- One key with one value. -/
def oneValue : NameMap := Dict.ofList [("top".toList, ["clock".toList])]

theorem not_roundTrips_oneValue : ¬RoundTrips [] .unbroken oneValue := by
  have hread : tileSrcReader [] (some (infoText .unbroken oneValue)) =
      .ok (Dict.ofList [("top".toList, ["cloc".toList])]) := by decide
  rw [RoundTrips, hread]
  decide

theorem roundTrips_iff_oneValue :
    RoundTrips [] .emptyLine oneValue ↔ oneValue.entries ≠ [] :=
  roundTrips_iff .emptyLine fun entry hentry ↦ by
    obtain rfl := List.mem_singleton.mp hentry
    exact ⟨by decide, by decide, by decide, by decide⟩

end ProcessorFuzz.Execution
