import ProcessorFuzz.Mutation.MakeNop
import ProcessorFuzz.Mutation.ResetLabels
import ProcessorFuzz.Mutation.SimInputRoundTrip

/-!
# Deleting the `nop` words

`delete_nop` leaves out the words that `make_nop` has replaced. The words that are left are copied
and renumbered, each with its interrupt values. The copies are new objects, and the objects of the
test that was given stay as they are.
-/

namespace ProcessorFuzz.Mutation

open Library Library.Stateful RvMutator

/-- The word objects. A reference to a word is its position. -/
abbrev Objects := List Word

namespace Objects

def deref (objs : Objects) (ref : ℕ) : Except PyError Word :=
  match objs[ref]? with
  | none => .error (.nameError "word")
  | some w => .ok w

/-- The first loop of `reset_labels`, which changes the objects. -/
def relabel (part : Part) :
    ℕ → Dict ℤ ℤ → List ℕ → Objects → Except PyError (Objects × Dict ℤ ℤ)
  | _, labelMap, [], objs => .ok (objs, labelMap)
  | n, labelMap, ref :: refs, objs => do
    let w ← objs.deref ref
    let (word, tup) ← w.resetLabel n part
    let labelMap := match tup with
      | none => labelMap
      | some (old, new) => labelMap.set old new
    relabel part (n + 1) labelMap refs (objs.set ref word)

/-- The second loop of `reset_labels`. -/
def repop (part : Part) (labelMap : Dict ℤ ℤ) (maxLabel : ℤ) :
    List ℕ → Objects → Draws → Except PyError (Objects × Draws)
  | [], objs, draws => .ok (objs, draws)
  | ref :: refs, objs, draws => do
    let w ← objs.deref ref
    let (word, draws) ← w.repopLabel labelMap maxLabel part draws
    repop part labelMap maxLabel refs (objs.set ref word) draws

/-- A round of `delete_nop`: the copies are new objects. -/
def deleteWords (part : Part) (target : List ℕ) (objs : Objects) (draws : Draws) :
    Except PyError (List ℕ × Objects × Draws) := do
  let words ← target.mapM objs.deref
  let copies := words.filter fun word ↦ word.insts ≠ ["nop".toList]
  let tmps := List.range' objs.length copies.length
  let (objs, labelMap) ← relabel part 0 Dict.empty tmps (objs ++ copies)
  let (objs, draws) ← repop part labelMap tmps.length tmps objs draws
  return (tmps, objs, draws)

/-- The three rounds of `delete_nop` on the objects of a test. -/
def deleteNop (refs : Part → List ℕ) (objs : Objects) (draws : Draws) :
    Except PyError ((Part → List ℕ) × Objects × Draws) := do
  let (prefixRefs, objs, draws) ← deleteWords .prefixPart (refs .prefixPart) objs draws
  let (mainRefs, objs, draws) ← deleteWords .mainPart (refs .mainPart) objs draws
  let (suffixRefs, objs, draws) ← deleteWords .suffixPart (refs .suffixPart) objs draws
  let newRefs : Part → List ℕ
    | .prefixPart => prefixRefs
    | .mainPart => mainRefs
    | .suffixPart => suffixRefs
  return (newRefs, objs, draws)

variable {part : Part} {pre : Objects} {words : List GenWord}

theorem deref_append_cons (pre rest : Objects) (w : Word) :
    deref (pre ++ w :: rest) pre.length = .ok w := by
  rw [deref, List.getElem?_append_right le_rfl, Nat.sub_self, List.getElem?_cons_zero]

/-- An assignment to the object behind `pre`. -/
theorem set_append_cons (pre rest : Objects) (w w' : Word) :
    (pre ++ w :: rest).set pre.length w' = (pre ++ [w']) ++ rest := by
  rw [List.set_append_right _ _ le_rfl, Nat.sub_self, List.set_cons_zero, List.append_assoc,
    List.singleton_append]

theorem length_relabel {words' : List GenWord} {labelMap labelMap' : Dict ℤ ℤ} {n : ℕ}
    (h : Mutation.relabel part n labelMap words = .ok (words', labelMap')) :
    words'.length = words.length := by
  induction words generalizing n labelMap words' labelMap' with
  | nil =>
    obtain ⟨rfl, -⟩ := Prod.mk.inj (Except.ok.inj h)
    rfl
  | cons w words ih =>
    obtain ⟨_, -, h⟩ := bind_eq_ok.mp h
    obtain ⟨_, hrest, h⟩ := bind_eq_ok.mp h
    obtain ⟨rfl, -⟩ := Prod.mk.inj (Except.ok.inj h)
    rw [List.length_cons, List.length_cons, ih hrest]

/-- The objects behind `pre` are relabelled as a list of words is. -/
theorem relabel_eq {words' : List GenWord} {labelMap labelMap' : Dict ℤ ℤ} {n : ℕ}
    (h : Mutation.relabel part n labelMap words = .ok (words', labelMap')) :
    relabel part n labelMap (List.range' pre.length words.length)
      (pre ++ words.map GenWord.toWord) = .ok (pre ++ words'.map GenWord.toWord, labelMap') := by
  induction words generalizing pre n labelMap words' labelMap' with
  | nil =>
    obtain ⟨rfl, rfl⟩ := Prod.mk.inj (Except.ok.inj h)
    rfl
  | cons w words ih =>
    obtain ⟨⟨word, tup⟩, hreset, h⟩ := bind_eq_ok.mp h
    obtain ⟨⟨rest, labelMap₁⟩, hrest, h⟩ := bind_eq_ok.mp h
    obtain ⟨rfl, rfl⟩ := Prod.mk.inj (Except.ok.inj h)
    have hset := set_append_cons pre (words.map GenWord.toWord) w.toWord word
    have hlength : (pre ++ [word]).length = pre.length + 1 := List.length_append
    have htail := @ih (pre ++ [word]) _ _ _ _ hrest
    rw [hlength] at htail
    rw [List.length_cons, List.range'_succ, List.map_cons, relabel, deref_append_cons, ok_bind,
      hreset, ok_bind]
    dsimp only
    rw [hset]
    refine htail.trans ?_
    rw [List.map_cons, List.append_assoc, List.singleton_append]

theorem repop_eq {words' : List GenWord} {labelMap : Dict ℤ ℤ} {maxLabel : ℤ}
    {draws draws' : Draws} (h : (words.mapM fun w ↦ do
      let word ← w.toWord.repopLabel labelMap maxLabel part
      return { w with toWord := word } : Stateful Draws (List GenWord)) draws =
        .ok (words', draws')) :
    repop part labelMap maxLabel (List.range' pre.length words.length)
      (pre ++ words.map GenWord.toWord) draws =
        .ok (pre ++ words'.map GenWord.toWord, draws') := by
  induction words generalizing pre words' draws draws' with
  | nil =>
    obtain ⟨rfl, rfl⟩ := Prod.mk.inj (Except.ok.inj h)
    rfl
  | cons w words ih =>
    rw [List.mapM_cons] at h
    obtain ⟨⟨w', draws₁⟩, hfirst, h⟩ := bind_eq_ok.mp h
    obtain ⟨⟨rest, draws₂⟩, hrest, h⟩ := bind_eq_ok.mp h
    obtain ⟨rfl, rfl⟩ := Prod.mk.inj (Except.ok.inj h)
    obtain ⟨⟨word, draws₃⟩, hrepop, hfirst⟩ := bind_eq_ok.mp hfirst
    obtain ⟨rfl, rfl⟩ := Prod.mk.inj (Except.ok.inj hfirst)
    have hset := set_append_cons pre (words.map GenWord.toWord) w.toWord word
    have hlength : (pre ++ [word]).length = pre.length + 1 := List.length_append
    have htail := @ih (pre ++ [word]) _ _ _ hrest
    rw [hlength] at htail
    rw [List.length_cons, List.range'_succ, List.map_cons, repop, deref_append_cons, ok_bind,
      hrepop, ok_bind]
    dsimp only
    rw [hset, htail, List.map_cons, List.append_assoc, List.singleton_append]

/-- The new objects are the words of `delete_nop`, and the old ones stay. -/
theorem deleteWords_eq {target : List ℕ} {objs : Objects} {words words' : List Word}
    {draws draws' : Draws} (htarget : target.mapM objs.deref = .ok words)
    (h : RvMutator.deleteWords part words draws = .ok (words', draws')) :
    deleteWords part target objs draws =
      .ok (List.range' objs.length words'.length, objs ++ words', draws') := by
  obtain ⟨⟨new, draws₁⟩, hreset, h⟩ := bind_eq_ok.mp h
  obtain ⟨rfl, rfl⟩ := Prod.mk.inj (Except.ok.inj h)
  obtain ⟨⟨⟨words₁, labelMap⟩, draws₂⟩, hlift, hrepop⟩ := bind_eq_ok.mp hreset
  obtain ⟨⟨words₂, labelMap₂⟩, hrelabel, hlift⟩ := bind_eq_ok.mp hlift
  obtain ⟨heq, rfl⟩ := Prod.mk.inj (Except.ok.inj hlift)
  obtain ⟨rfl, rfl⟩ := Prod.mk.inj heq
  have hcopies : ∀ copies : List Word, (copies.map Word.toGen).map GenWord.toWord = copies := by
    intro copies
    rw [List.map_map]
    exact List.map_id copies
  have hlength₁ := length_relabel hrelabel
  have hlength₂ := ((Ensures.mapM (C := fun _ _ ↦ True) (I := fun _ ↦ True)
    (fun _ _ _ _ ↦ Ensures.trivial.mono fun _ _ _ ↦ ⟨True.intro, True.intro⟩)
      True.intro).of_eq_ok _ hrepop).1.length_eq
  have hfirst := @relabel_eq part objs _ _ _ _ _ hrelabel
  have hsecond := @repop_eq part objs _ _ _ _ _ _ hrepop
  rw [hcopies, List.length_map] at hfirst
  rw [List.length_map] at hlength₁
  dsimp only at hlength₂ hsecond
  rw [deleteWords, htarget, ok_bind]
  dsimp only
  rw [hfirst, ok_bind]
  dsimp only
  rw [List.length_range', ← hlength₁, hsecond, List.length_map, ← hlength₂]
  rfl

end Objects

def survivors (words : List Word) : List Word := words.filter fun w ↦ w.insts ≠ ["nop".toList]

/-- The words of a part, renumbered in their order. -/
structure RenumberedPart (part : Part) (words words' : List Word) : Prop where
  length_eq : words'.length = words.length
  word : ∀ (i : ℕ) (w w' : Word), words[i]? = some w → words'[i]? = some w' →
    Renumbered part (words.map Word.label) i w w'

section Words

variable {part : Part} {words words' : List Word}

/-- Different labels that fit in their columns. -/
theorem length_le_of_labels (hnodup : (words.map Word.label).Nodup)
    (h : ∀ w ∈ words, InForm part w) : words.length ≤ 100000 := by
  have hsubset : words.map Word.label ⊆ (List.range 100000).map Int.ofNat := by
    intro label hlabel
    obtain ⟨w, hw, rfl⟩ := List.mem_map.mp hlabel
    obtain ⟨n, hn⟩ := Int.eq_ofNat_of_zero_le (h w hw).label_nonneg
    have hlt := (h w hw).label_lt
    exact List.mem_map.mpr ⟨n, List.mem_range.mpr (by omega), hn.symm⟩
  have hlength := (List.subperm_of_subset hnodup hsubset).length_le
  rwa [List.length_map, List.length_map, List.length_range] at hlength

theorem exists_deleteWords (h : ∀ w ∈ words, InForm part w)
    (hnodup : (words.map Word.label).Nodup) (draws : Draws) :
    ∃ words' draws', RvMutator.deleteWords part words draws = .ok (words', draws') ∧
      RenumberedPart part (survivors words) words' := by
  have hlabelled : ∀ w ∈ (survivors words).map Word.toGen, Labelled part w.toWord := by
    intro w hw
    obtain ⟨w₀, hw₀, rfl⟩ := List.mem_map.mp hw
    exact (h w₀ (List.mem_of_mem_filter hw₀)).labelled
  have hlabels : ((survivors words).map Word.toGen).map (fun w ↦ w.label) =
      (survivors words).map Word.label := by
    rw [List.map_map]
    rfl
  have hnodup' : ((survivors words).map Word.label).Nodup :=
    hnodup.sublist (List.filter_sublist.map Word.label)
  have hlength : ((survivors words).map Word.toGen).length ≤ 100000 := by
    rw [List.length_map]
    exact length_le_of_labels hnodup' fun w hw ↦ h w (List.mem_of_mem_filter hw)
  obtain ⟨new, draws', hreset, hlength', hword⟩ :=
    resetLabels_renumbers hlabelled (by rwa [hlabels]) hlength draws
  refine ⟨new.map GenWord.toWord, draws', ?_, ?_, fun i w w' hw hw' ↦ ?_⟩
  · exact bind_eq_ok.mpr ⟨(new, draws'), hreset, rfl⟩
  · rw [List.length_map, hlength', List.length_map]
  · rw [List.getElem?_map] at hw'
    obtain ⟨g', hg', rfl⟩ := Option.map_eq_some_iff.mp hw'
    have hg : ((survivors words).map Word.toGen)[i]? = some w.toGen := by
      rw [List.getElem?_map, hw]
      rfl
    have hrenumbered := (hword i w.toGen g' hg hg').2
    rw [hlabels] at hrenumbered
    exact hrenumbered

/-- The words keep their numbers of lines. -/
theorem RenumberedPart.lengths_eq (h : RenumberedPart part words words') :
    (words'.map fun w ↦ w.retInsts.length) = words.map fun w ↦ w.retInsts.length := by
  apply List.ext_getElem
  · rw [List.length_map, List.length_map, h.length_eq]
  · intro i hi' hi
    rw [List.length_map] at hi hi'
    have hword := h.word i words[i] words'[i] (List.getElem?_eq_getElem hi)
      (List.getElem?_eq_getElem hi')
    have htexts := hword.texts.length_eq
    rw [Word.texts, Word.texts, List.length_map, List.length_map] at htexts
    rw [List.getElem_map, List.getElem_map, htexts]

end Words

section Ints

variable {ints : List ℤ} {words words' : List Word}

/-- The interrupt values of the words that are left. -/
def survivingInts (ints : List ℤ) (words : List Word) : List (List ℤ) :=
  ((words.zip (wordInts ints words)).filter fun entry ↦ entry.1.insts ≠ ["nop".toList]).map Prod.snd

theorem wordInts_congr
    (h : (words'.map fun w ↦ w.retInsts.length) = words.map fun w ↦ w.retInsts.length) :
    wordInts ints words' = wordInts ints words := by
  induction words generalizing ints words' with
  | nil =>
    obtain rfl := List.map_eq_nil_iff.mp h
    rfl
  | cons w words ih =>
    cases words' with
    | nil => exact nomatch h
    | cons w' words' =>
      obtain ⟨hw, hwords⟩ := List.cons.inj h
      dsimp only at hw
      rw [wordInts, wordInts, hw, ih hwords]

theorem survivingInts_cons (ints : List ℤ) (w : Word) (words : List Word) :
    survivingInts ints (w :: words) =
      (if w.insts ≠ ["nop".toList] then [ints.take w.retInsts.length] else []) ++
        survivingInts (ints.drop w.retInsts.length) words := by
  rw [survivingInts, wordInts, List.zip_cons_cons]
  by_cases hnop : w.insts = ["nop".toList]
  · rw [List.filter_cons_of_neg (by simpa using hnop), if_neg (by simpa using hnop)]
    rfl
  · rw [List.filter_cons_of_pos (by simpa using hnop), if_pos hnop]
    rfl

theorem deleteInts_eq (h : ∀ w ∈ words, w.retInsts.length = w.insts.length) (k : ℕ) :
    deleteInts ints k words = (survivingInts (ints.drop k) words).flatten := by
  induction words generalizing k with
  | nil => rfl
  | cons w words ih =>
    obtain ⟨hw, hwords⟩ := List.forall_mem_cons.mp h
    rw [deleteInts, ih hwords, survivingInts_cons, List.drop_drop, hw, List.flatten_append]
    congr 1
    by_cases hnop : w.insts = ["nop".toList]
    · rw [if_neg (by simpa using hnop), if_neg (by simpa using hnop)]
      rfl
    · rw [if_pos hnop, if_pos hnop]
      exact (List.append_nil _).symm

theorem forall₂_survivingInts (h : (words.flatMap Word.retInsts).length ≤ ints.length) :
    List.Forall₂ (fun vals w ↦ vals.length = w.retInsts.length) (survivingInts ints words)
      (survivors words) := by
  induction words generalizing ints with
  | nil => exact .nil
  | cons w words ih =>
    rw [List.flatMap_cons, List.length_append] at h
    have hrest := @ih (ints.drop w.retInsts.length) (by rw [List.length_drop]; omega)
    rw [survivingInts_cons, survivors]
    by_cases hnop : w.insts = ["nop".toList]
    · rw [if_neg (by simpa using hnop), List.filter_cons_of_neg (by simpa using hnop)]
      exact hrest
    · rw [if_pos hnop, List.filter_cons_of_pos (by simpa using hnop)]
      refine .cons ?_ hrest
      rw [List.length_take]
      omega

end Ints

/-- `y` is what is left of `x`. -/
structure Compacted (x y : SimInput) : Prop where
  words : ∀ part, RenumberedPart part (survivors (x.partWords part)) (y.partWords part)
  length_ints : y.ints.length = (y.words.flatMap Word.retInsts).length
  ints : wordInts y.ints y.words = survivingInts x.ints x.words
  template : y.template = x.template
  dataSeed : y.dataSeed = x.dataSeed

section Test

variable {m : RvMutator} {x : SimInput} {data : List ℤ}

theorem deref_append {objs new : Objects} {refs : List ℕ} {words : List Word}
    (h : refs.mapM objs.deref = .ok words) : refs.mapM (objs ++ new).deref = .ok words := by
  induction refs generalizing words with
  | nil => exact h
  | cons ref refs ih =>
    rw [List.mapM_cons] at h ⊢
    obtain ⟨w, hw, h⟩ := bind_eq_ok.mp h
    obtain ⟨rest, hrest, h⟩ := bind_eq_ok.mp h
    have hderef : (objs ++ new).deref ref = .ok w := by
      unfold Objects.deref at hw ⊢
      cases hget : objs[ref]? with
      | none =>
        rw [hget] at hw
        exact nomatch hw
      | some w' =>
        rw [List.getElem?_append_left (List.getElem?_eq_some_iff.mp hget).1, hget]
        rwa [hget] at hw
    rw [hderef, ih hrest]
    exact h

theorem mapM_deref_range' (objs new : Objects) :
    (List.range' objs.length new.length).mapM (objs ++ new).deref = .ok new := by
  induction new generalizing objs with
  | nil => rfl
  | cons w new ih =>
    have hrest := ih (objs ++ [w])
    rw [List.length_append, List.append_assoc] at hrest
    rw [List.length_cons, List.range'_succ, List.mapM_cons, Objects.deref_append_cons, ok_bind]
    exact congrArg (· >>= _) hrest

/-- What `delete_nop` does to the objects of a test. -/
theorem Objects.deleteNop_eq {y : SimInput} {draws draws' : Draws}
    (h : m.deleteNop x draws = .ok ((y, data), draws')) {objs : Objects} {refs : Part → List ℕ}
    (hrefs : ∀ part, (refs part).mapM objs.deref = .ok (x.partWords part)) :
    ∃ newRefs objs', objs.deleteNop refs draws = .ok (newRefs, objs', draws') ∧ objs <+: objs' ∧
      ∀ part, (newRefs part).mapM objs'.deref = .ok (y.partWords part) := by
  obtain ⟨⟨prefixWords, draws₁⟩, hbegins, h⟩ := bind_eq_ok.mp h
  obtain ⟨⟨words, draws₂⟩, hwords, h⟩ := bind_eq_ok.mp h
  obtain ⟨⟨suffixWords, draws₃⟩, hsuffix, h⟩ := bind_eq_ok.mp h
  have hbegins' := Objects.deleteWords_eq (hrefs .prefixPart) hbegins
  have hwords' := Objects.deleteWords_eq
    (@deref_append objs prefixWords _ _ (hrefs .mainPart)) hwords
  have hsuffix' := Objects.deleteWords_eq
    (@deref_append _ words _ _ (@deref_append objs prefixWords _ _ (hrefs .suffixPart))) hsuffix
  dsimp only at h
  split at h
  · exact nomatch h
  · obtain ⟨heq, rfl⟩ := Prod.mk.inj (Except.ok.inj h)
    obtain ⟨rfl, -⟩ := Prod.mk.inj heq
    refine ⟨_, _, bind_eq_ok.mpr ⟨_, hbegins', bind_eq_ok.mpr ⟨_, hwords',
      bind_eq_ok.mpr ⟨_, hsuffix', rfl⟩⟩⟩, ?_, fun part ↦ ?_⟩
    · rw [List.append_assoc, List.append_assoc]
      exact List.prefix_append objs _
    · cases part with
      | prefixPart => exact deref_append (deref_append (mapM_deref_range' objs prefixWords))
      | mainPart => exact deref_append (mapM_deref_range' (objs ++ prefixWords) words)
      | suffixPart => exact mapM_deref_range' (objs ++ prefixWords ++ words) suffixWords

/-- Whatever is drawn, `delete_nop` leaves out the `nop` words and nothing else, renumbers the words
that are left and keeps their interrupt values; the objects of the given test stay as they are. -/
theorem deleteNop_compacts (hwords : ∀ part, ∀ w ∈ x.partWords part, InForm part w)
    (hlabels : ∀ part, ((x.partWords part).map Word.label).Nodup)
    (hints : x.ints.length = (x.words.flatMap Word.retInsts).length)
    (hdata : m.randomData.get? x.dataSeed = some data) (draws : Draws) :
    ∃ y draws', m.deleteNop x draws = .ok ((y, data), draws') ∧ Compacted x y ∧
      ∀ (objs : Objects) (refs : Part → List ℕ),
        (∀ part, (refs part).mapM objs.deref = .ok (x.partWords part)) →
          ∃ newRefs objs', objs.deleteNop refs draws = .ok (newRefs, objs', draws') ∧
            objs <+: objs' ∧ ∀ part, (newRefs part).mapM objs'.deref = .ok (y.partWords part) := by
  obtain ⟨prefixWords, draws₁, hbegins, hprefixPart⟩ :=
    exists_deleteWords (hwords .prefixPart) (hlabels .prefixPart) draws
  obtain ⟨words, draws₂, hmain, hmainPart⟩ :=
    exists_deleteWords (hwords .mainPart) (hlabels .mainPart) draws₁
  obtain ⟨suffixWords, draws₃, hsuffix, hsuffixPart⟩ :=
    exists_deleteWords (hwords .suffixPart) (hlabels .suffixPart) draws₂
  have hrun : m.deleteNop x draws = .ok ((SimInput.new prefixWords words suffixWords
      (deleteInts x.ints 0 x.words) x.dataSeed x.template, data), draws₃) := by
    refine bind_eq_ok.mpr ⟨_, hbegins, bind_eq_ok.mpr ⟨_, hmain, bind_eq_ok.mpr ⟨_, hsuffix, ?_⟩⟩⟩
    dsimp only
    rw [hdata]
    rfl
  have hlengths := hmainPart.lengths_eq
  have hdelete : deleteInts x.ints 0 x.words = (survivingInts x.ints x.words).flatten :=
    deleteInts_eq (fun w hw ↦ (hwords .mainPart w hw).made.length_eq) 0
  have hforall := forall₂_survivingInts hints.symm.le
  refine ⟨_, draws₃, hrun, ⟨fun part ↦ ?_, ?_, ?_, rfl, rfl⟩, fun objs refs hrefs ↦
    Objects.deleteNop_eq hrun hrefs⟩
  · cases part with
    | prefixPart => exact hprefixPart
    | mainPart => exact hmainPart
    | suffixPart => exact hsuffixPart
  · calc
      (deleteInts x.ints 0 x.words).length = (survivingInts x.ints x.words).flatten.length := by
        rw [hdelete]
      _ = ((survivors x.words).flatMap Word.retInsts).length := length_flatten_of_forall₂ hforall
      _ = (words.flatMap Word.retInsts).length := by
        rw [List.length_flatMap, List.length_flatMap]
        exact congrArg List.sum hlengths.symm
  · calc
      wordInts (deleteInts x.ints 0 x.words) words
          = wordInts (survivingInts x.ints x.words).flatten words := by rw [hdelete]
      _ = wordInts (survivingInts x.ints x.words).flatten (survivors x.words) :=
        wordInts_congr hlengths
      _ = survivingInts x.ints x.words := wordInts_flatten hforall

end Test

/-- A word that was replaced, a word that jumped to it, and the jump back. -/
def cutLoop : SimInput :=
  SimInput.new [] [nopWord .mainPart 0, jumpWord 1 0, jumpWord 2 1] [] [0, 3, 0] 0 0

theorem inForm_nopWord (part : Part) {label : ℕ} (h : label < 100000) :
    InForm part (nopWord part label) := by
  have hlabel : (0 : ℤ) ≤ label := Int.natCast_nonneg label
  have hlt : (label : ℤ) < 100000 := by omega
  have htexts : (nopWord part label).texts = [Text.ljust 42 "nop".toList] :=
    texts_of_showLines hlabel hlt rfl
  refine ⟨made_nopWord label, hlabel, hlt, ?_⟩
  rw [htexts]
  refine List.forall_mem_singleton.mpr (.inl ?_)
  cases part <;> decide

theorem deleteNop_compacts_cutLoop :
    ∃ y draws', shiftedMutator.deleteNop cutLoop (fun _ ↦ 0) = .ok ((y, [7]), draws') ∧
      Compacted cutLoop y ∧ ∀ (objs : Objects) (refs : Part → List ℕ),
        (∀ part, (refs part).mapM objs.deref = .ok (cutLoop.partWords part)) →
          ∃ newRefs objs', objs.deleteNop refs (fun _ ↦ 0) = .ok (newRefs, objs', draws') ∧
            objs <+: objs' ∧ ∀ part, (newRefs part).mapM objs'.deref = .ok (y.partWords part) := by
  have hwords : ∀ part, ∀ w ∈ cutLoop.partWords part, InForm part w := by
    intro part
    cases part with
    | prefixPart => exact nofun
    | mainPart =>
      exact List.forall_mem_cons.mpr ⟨@inForm_nopWord .mainPart 0 (by decide),
        List.forall_mem_cons.mpr ⟨inForm_jumpWord (by decide) 0,
          List.forall_mem_singleton.mpr (inForm_jumpWord (by decide) 1)⟩⟩
    | suffixPart => exact nofun
  refine deleteNop_compacts hwords (fun part ↦ ?_) rfl rfl fun _ ↦ 0
  cases part <;> decide

end ProcessorFuzz.Mutation
