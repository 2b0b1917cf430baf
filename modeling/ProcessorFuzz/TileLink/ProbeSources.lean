import ProcessorFuzz.TileLink.Definitions
import ProcessorFuzz.TileLink.FreeList

/-!
# Probe sources

A probe needs a source of the B channel. `retrieveBlock` takes one when there is one and reserves
the probe otherwise; the acknowledgement of a source runs the continuation registered for it,
releases the source and issues the next reserved probe. Continuations may request further probes
while the acknowledged source is neither free nor registered.
-/

namespace ProcessorFuzz.TileLink

open Library

/-- The arguments of `retrieveBlock`. -/
structure Probe (κ : Type) where
  msg : BOpcode := .probeBlock
  callback : κ
  param : ℕ
  size : ℕ
  addr : ℕ
  mask : ℕ
  deriving DecidableEq

variable {κ W : Type}

def Probe.message (p : Probe κ) (bSrc : ℕ) : BMessage where
  opcode := p.msg
  param := p.param
  size := p.size
  source := bSrc
  address := p.addr
  mask := p.mask

/-- The probe bookkeeping of the adapter, with the outcomes of `random` still in store. -/
structure Probes (κ : Type) where
  bSrcs : FreeList (Probe κ)
  bCallback : SrcToCallback κ
  bQueue : List BMessage
  draws : Draws

namespace Probes

def new (srcs : List ℕ) (h : srcs.Nodup) (draws : Draws) : Probes κ where
  bSrcs := FreeList.new "b_srcs" srcs h
  bCallback := SrcToCallback.new "b_callback" srcs
  bQueue := []
  draws := draws

def retrieveBlockCb (p : Probe κ) (s : Probes κ) : Except PyError (Probes κ) := do
  let (bSrc, bSrcs, draws) ← s.bSrcs.get s.draws
  let bCallback ← s.bCallback.set bSrc p.callback
  return ⟨bSrcs, bCallback, s.bQueue ++ [p.message bSrc], draws⟩

def retrieveBlock (p : Probe κ) (s : Probes κ) : Except PyError (Probes κ) :=
  if !s.bSrcs.empty then retrieveBlockCb p s
  else .ok { s with bSrcs := s.bSrcs.reserve p }

/-- `b_callback.call(source)` up to the call itself, which the caller makes. -/
def callSource (source : ℕ) (s : Probes κ) : Except PyError (Option κ × Probes κ) := do
  let (callback, bCallback) ← s.bCallback.call source
  return (callback, { s with bCallback := bCallback })

/-- `b_srcs.release(source)`, which issues the next reserved probe. -/
def releaseSource (source : ℕ) (s : Probes κ) : Except PyError (Probes κ) := do
  let (event, bSrcs) ← s.bSrcs.release source
  match event with
  | none => return { s with bSrcs := bSrcs }
  | some p => retrieveBlockCb p { s with bSrcs := bSrcs }

/-- The continuation registered for a source. -/
def registered (s : Probes κ) (src : ℕ) : Option κ := s.bCallback.registered src

/-- A probe is issued under a source. -/
def issue (s : Probes κ) (src : ℕ) (p : Probe κ) : Probes κ where
  bSrcs := s.bSrcs.remove src
  bCallback := { s.bCallback with cMap := s.bCallback.cMap.set src (some p.callback) }
  bQueue := s.bQueue ++ [p.message src]
  draws := s.draws.rest

/-- A probe waits for a source. -/
def wait (s : Probes κ) (p : Probe κ) : Probes κ := { s with bSrcs := s.bSrcs.reserve p }

/-- A source becomes free and the next waiting probe is taken out of the queue. -/
def restore (s : Probes κ) (src : ℕ) (hinit : src ∈ s.bSrcs.initList)
    (hbusy : src ∉ s.bSrcs.freeList) : Probes κ :=
  { s with bSrcs := s.bSrcs.restore src hinit hbusy }

/-- The callback of a source is taken out to be run. -/
def unregister (s : Probes κ) (src : ℕ) : Probes κ :=
  { s with bCallback := { s.bCallback with cMap := s.bCallback.cMap.set src none } }

@[simp]
theorem registered_issue (s : Probes κ) (src src' : ℕ) (p : Probe κ) :
    (s.issue src p).registered src' = if src' = src then some p.callback else s.registered src' := by
  unfold registered SrcToCallback.registered issue
  rw [Dict.get?_set]
  split <;> rfl

@[simp]
theorem registered_unregister (s : Probes κ) (src src' : ℕ) :
    (s.unregister src).registered src' = if src' = src then none else s.registered src' := by
  unfold registered SrcToCallback.registered unregister
  rw [Dict.get?_set]
  split <;> rfl

/-- `call` returns the registered continuation and clears its entry. -/
theorem callSource_cases {s : Probes κ} {src : ℕ} {r : Option κ × Probes κ}
    (h : callSource src s = .ok r) :
    (s.registered src = none ∧ r = (none, s)) ∨
      ∃ callback, s.registered src = some callback ∧ r = (some callback, s.unregister src) := by
  unfold callSource SrcToCallback.call at h
  unfold registered SrcToCallback.registered
  obtain ⟨called, hcall, hr⟩ := bind_eq_ok.mp h
  obtain rfl := Except.ok.inj hr
  split at hcall
  · cases hcall
  · next hget =>
    obtain rfl := Except.ok.inj hcall
    exact Or.inl ⟨by rw [hget]; rfl, rfl⟩
  · next callback hget =>
    obtain rfl := Except.ok.inj hcall
    exact Or.inr ⟨callback, by rw [hget]; rfl, rfl⟩

theorem callSource_of_registered {s : Probes κ} {src : ℕ} {callback : κ}
    (h : s.registered src = some callback) :
    callSource src s = .ok (some callback, s.unregister src) := by
  have hget : s.bCallback.cMap.get? src = some (some callback) := Option.join_eq_some_iff.mp h
  unfold callSource
  rw [SrcToCallback.call_eq_ok hget]
  rfl

/-- A source can be released only while it is in use. -/
theorem mem_of_releaseSource_eq_ok {s s' : Probes κ} {src : ℕ} (h : s.releaseSource src = .ok s') :
    src ∈ s.bSrcs.initList ∧ src ∉ s.bSrcs.freeList := by
  unfold releaseSource at h
  obtain ⟨r, hrelease, -⟩ := bind_eq_ok.mp h
  obtain ⟨hinit, hbusy, -⟩ := FreeList.release_eq_ok_iff.mp hrelease
  exact ⟨hinit, hbusy⟩

/-- Each source is known to the callback map, and it has a continuation exactly when it is neither
free nor the source in limbo, whose acknowledgement is being served. -/
structure Matched (limbo : Option ℕ) (s : Probes κ) : Prop where
  srcs_eq : s.bCallback.srcs = s.bSrcs.initList
  known : ∀ src ∈ s.bSrcs.initList, src ∈ s.bCallback.cMap.keys
  registered_iff : ∀ src, (s.registered src).isSome ↔
    src ∈ s.bSrcs.initList ∧ src ∉ s.bSrcs.freeList ∧ limbo ≠ some src
  limbo_mem : ∀ src, limbo = some src → src ∈ s.bSrcs.initList ∧ src ∉ s.bSrcs.freeList

/-- `Matched`, and probes wait only while no source is free. -/
structure Consistent (limbo : Option ℕ) (s : Probes κ) : Prop extends Matched limbo s where
  waiting : s.bSrcs.eventQueue ≠ [] → s.bSrcs.freeList = []

section Effects

variable {limbo : Option ℕ} {s : Probes κ} {src : ℕ} {p : Probe κ}

theorem Matched.get?_of_free (h : Matched limbo s) (hsrc : src ∈ s.bSrcs.freeList) :
    s.bCallback.cMap.get? src = some none := by
  have hinit : src ∈ s.bSrcs.initList := s.bSrcs.freeList_subset hsrc
  have hnone : ¬(s.registered src).isSome := fun hsome ↦
    ((h.registered_iff src).mp hsome).2.1 hsrc
  have hkey : (s.bCallback.cMap.get? src).isSome := Dict.isSome_get?_iff.mpr (h.known src hinit)
  unfold registered SrcToCallback.registered at hnone
  cases hget : s.bCallback.cMap.get? src with
  | none => simp [hget] at hkey
  | some value =>
    cases value with
    | none => rfl
    | some callback => simp [hget] at hnone

/-- With a source free, `retrieveBlock_cb` issues the probe under one of the free sources. -/
theorem Matched.retrieveBlockCb_eq_ok (h : Matched limbo s) (hfree : s.bSrcs.freeList ≠ [])
    (p : Probe κ) :
    ∃ src ∈ s.bSrcs.freeList, retrieveBlockCb p s = .ok (s.issue src p) := by
  obtain ⟨src, hsrc, hget⟩ := FreeList.exists_get_eq_ok hfree s.draws
  have hknown : src ∈ s.bCallback.srcs := h.srcs_eq ▸ s.bSrcs.freeList_subset hsrc
  have hset := SrcToCallback.set_eq_ok hknown (h.get?_of_free hsrc) p.callback
  refine ⟨src, hsrc, ?_⟩
  unfold retrieveBlockCb
  rw [hget, ok_bind]
  dsimp only
  rw [hset]
  rfl

theorem Matched.retrieveBlock_eq_ok (h : Matched limbo s) (hfree : s.bSrcs.freeList ≠ [])
    (p : Probe κ) : ∃ src ∈ s.bSrcs.freeList, s.retrieveBlock p = .ok (s.issue src p) := by
  obtain ⟨src, hsrc, hissue⟩ := h.retrieveBlockCb_eq_ok hfree p
  refine ⟨src, hsrc, ?_⟩
  unfold retrieveBlock
  rw [FreeList.empty_eq_false.mpr hfree]
  exact hissue

theorem retrieveBlock_eq_wait (hfree : s.bSrcs.freeList = []) (p : Probe κ) :
    s.retrieveBlock p = .ok (s.wait p) := by
  unfold retrieveBlock
  rw [FreeList.empty_eq_true.mpr hfree]
  rfl

theorem Matched.issue (h : Matched limbo s) (hsrc : src ∈ s.bSrcs.freeList) :
    Matched limbo (s.issue src p) where
  srcs_eq := h.srcs_eq
  known src' hsrc' := Dict.mem_keys_set.mpr (Or.inr (h.known src' hsrc'))
  registered_iff src' := by
    have hinit : src ∈ s.bSrcs.initList := s.bSrcs.freeList_subset hsrc
    have hlimbo : limbo ≠ some src := fun hlimbo ↦ (h.limbo_mem src hlimbo).2 hsrc
    rw [registered_issue]
    change _ ↔ src' ∈ s.bSrcs.initList ∧ src' ∉ (s.bSrcs.remove src).freeList ∧ _
    rw [FreeList.mem_freeList_remove]
    by_cases hsame : src' = src
    · subst hsame
      simpa [hinit] using hlimbo
    · simpa [hsame] using h.registered_iff src'
  limbo_mem src' hlimbo := by
    refine ⟨(h.limbo_mem src' hlimbo).1, fun hmem ↦ (h.limbo_mem src' hlimbo).2 ?_⟩
    exact (FreeList.mem_freeList_remove.mp hmem).2

theorem Consistent.issue (h : Consistent limbo s) (hsrc : src ∈ s.bSrcs.freeList) :
    Consistent limbo (s.issue src p) where
  toMatched := h.toMatched.issue hsrc
  waiting hevents := by
    have hnil : s.bSrcs.freeList = [] := h.waiting hevents
    exact absurd hsrc (by simp [hnil])

theorem Consistent.wait (h : Consistent limbo s) (hfree : s.bSrcs.freeList = [])
    (p : Probe κ) : Consistent limbo (s.wait p) where
  srcs_eq := h.srcs_eq
  known := h.known
  registered_iff := h.registered_iff
  limbo_mem := h.limbo_mem
  waiting _ := hfree

/-- Consistency does not depend on the queue of sent probes or on `random`. -/
theorem Consistent.frame (h : Consistent limbo s) {s' : Probes κ} (hsrcs : s'.bSrcs = s.bSrcs)
    (hcallback : s'.bCallback = s.bCallback) : Consistent limbo s' := by
  obtain ⟨bSrcs, bCallback, bQueue, draws⟩ := s'
  obtain rfl : bSrcs = s.bSrcs := hsrcs
  obtain rfl : bCallback = s.bCallback := hcallback
  exact ⟨⟨h.srcs_eq, h.known, h.registered_iff, h.limbo_mem⟩, h.waiting⟩

theorem Consistent.unregister (h : Consistent none s) (hinit : src ∈ s.bSrcs.initList)
    (hbusy : src ∉ s.bSrcs.freeList) : Consistent (some src) (s.unregister src) where
  srcs_eq := h.srcs_eq
  known src' hsrc' := Dict.mem_keys_set.mpr (Or.inr (h.known src' hsrc'))
  registered_iff src' := by
    rw [registered_unregister]
    change _ ↔ src' ∈ s.bSrcs.initList ∧ src' ∉ s.bSrcs.freeList ∧ _
    by_cases hsame : src' = src
    · simp [hsame]
    · have hlimbo : some src ≠ some src' := fun heq ↦ hsame (Option.some.inj heq).symm
      simpa [hsame, hlimbo] using h.registered_iff src'
  limbo_mem src' hlimbo := by
    obtain rfl := Option.some.inj hlimbo
    exact ⟨hinit, hbusy⟩
  waiting := h.waiting

theorem Consistent.callSource_eq_ok (h : Consistent none s) (hinit : src ∈ s.bSrcs.initList)
    (hbusy : src ∉ s.bSrcs.freeList) :
    ∃ callback, s.registered src = some callback ∧
      callSource src s = .ok (some callback, s.unregister src) := by
  have hsome : (s.registered src).isSome :=
    (h.registered_iff src).mpr ⟨hinit, hbusy, nofun⟩
  obtain ⟨callback, hcallback⟩ := Option.isSome_iff_exists.mp hsome
  exact ⟨callback, hcallback, callSource_of_registered hcallback⟩

theorem Matched.restore (h : Matched (some src) s) (hinit : src ∈ s.bSrcs.initList)
    (hbusy : src ∉ s.bSrcs.freeList) :
    Matched none (s.restore src hinit hbusy) where
  srcs_eq := h.srcs_eq
  known := h.known
  registered_iff src' := by
    have hiff := h.registered_iff src'
    change (s.registered src').isSome ↔
      src' ∈ s.bSrcs.initList ∧ src' ∉ (s.bSrcs.restore src hinit hbusy).freeList ∧ _
    rw [FreeList.mem_freeList_restore, hiff]
    simp [eq_comm]
  limbo_mem := nofun

/-- Releasing without a waiting probe makes the source free. -/
theorem Consistent.restore (h : Consistent (some src) s) (hevents : s.bSrcs.eventQueue = [])
    (hinit : src ∈ s.bSrcs.initList) (hbusy : src ∉ s.bSrcs.freeList) :
    Consistent none (s.restore src hinit hbusy) where
  toMatched := h.toMatched.restore hinit hbusy
  waiting hwaiting := by
    have hnil : (s.restore src hinit hbusy).bSrcs.eventQueue = [] := congrArg List.tail hevents
    exact absurd hnil hwaiting

/-- Releasing with a waiting probe issues that probe under the released source. -/
theorem Consistent.reissue (h : Consistent (some src) s) {rest : List (Probe κ)}
    (hevents : s.bSrcs.eventQueue = p :: rest) (hinit : src ∈ s.bSrcs.initList)
    (hbusy : src ∉ s.bSrcs.freeList) :
    retrieveBlockCb p (s.restore src hinit hbusy) =
        .ok ((s.restore src hinit hbusy).issue src p) ∧
      Consistent none ((s.restore src hinit hbusy).issue src p) := by
  have hnil : s.bSrcs.freeList = [] := h.waiting (by simp [hevents])
  have hfree : (s.restore src hinit hbusy).bSrcs.freeList = [src] := by
    change s.bSrcs.freeList ++ [src] = [src]
    rw [hnil, List.nil_append]
  have hmatched := h.toMatched.restore hinit hbusy
  obtain ⟨src', hsrc', hok⟩ := hmatched.retrieveBlockCb_eq_ok (by simp [hfree]) p
  obtain rfl : src' = src := by simpa [hfree] using hsrc'
  refine ⟨hok, hmatched.issue hsrc', fun _ ↦ ?_⟩
  change (s.restore src' hinit hbusy).bSrcs.freeList.erase src' = []
  simp [hfree]

/-- A request pushes its probe exactly when a source is free. -/
theorem Consistent.retrieveBlock_cases (h : Consistent limbo s) {s' : Probes κ}
    (hretrieve : s.retrieveBlock p = .ok s') :
    (s.bSrcs.freeList ≠ [] ∧ ∃ src ∈ s.bSrcs.freeList, s' = s.issue src p) ∨
      (s.bSrcs.freeList = [] ∧ s' = s.wait p) := by
  by_cases hfree : s.bSrcs.freeList = []
  · rw [retrieveBlock_eq_wait hfree] at hretrieve
    exact Or.inr ⟨hfree, (Except.ok.inj hretrieve).symm⟩
  · obtain ⟨src, hsrc, hissue⟩ := h.retrieveBlock_eq_ok hfree p
    rw [hissue] at hretrieve
    exact Or.inl ⟨hfree, src, hsrc, (Except.ok.inj hretrieve).symm⟩

/-- A release pushes the first waiting probe. -/
theorem Consistent.bQueue_releaseSource (h : Consistent (some src) s) {s' : Probes κ}
    (hrelease : s.releaseSource src = .ok s') :
    s'.bQueue = s.bQueue ++ (s.bSrcs.eventQueue.head?.map (·.message src)).toList := by
  obtain ⟨hinit, hbusy⟩ := h.limbo_mem src rfl
  have heq : s.bSrcs.release src =
      .ok (s.bSrcs.eventQueue.head?, s.bSrcs.restore src hinit hbusy) :=
    FreeList.release_eq_ok_iff.mpr ⟨hinit, hbusy, rfl⟩
  unfold releaseSource at hrelease
  rw [heq, ok_bind] at hrelease
  cases hevents : s.bSrcs.eventQueue with
  | nil =>
    rw [hevents] at hrelease
    obtain rfl := Except.ok.inj hrelease
    simp
  | cons p rest =>
    rw [hevents] at hrelease
    have hissue := (h.reissue hevents hinit hbusy).1
    obtain rfl := Except.ok.inj (hissue.symm.trans hrelease)
    rfl

/-- A request succeeds in every consistent state and leaves it consistent. -/
theorem Consistent.retrieveBlock (h : Consistent limbo s) (p : Probe κ) :
    ∃ s', s.retrieveBlock p = .ok s' ∧ Consistent limbo s' := by
  by_cases hfree : s.bSrcs.freeList = []
  · exact ⟨_, retrieveBlock_eq_wait hfree p, h.wait hfree p⟩
  · obtain ⟨src, hsrc, hissue⟩ := h.retrieveBlock_eq_ok hfree p
    exact ⟨_, hissue, h.issue hsrc⟩

theorem Consistent.of_requests {ps : List (Probe κ)} (h : Consistent limbo s) {s' : Probes κ}
    (hfold : ps.foldlM (fun probes p ↦ probes.retrieveBlock p) s = .ok s') :
    Consistent limbo s' := by
  refine foldlM_invariant (fun s p s₁ hs hretrieve ↦ ?_) h hfold
  obtain ⟨s₁', hretrieve', hs₁⟩ := hs.retrieveBlock p
  rw [hretrieve] at hretrieve'
  exact Except.ok.inj hretrieve' ▸ hs₁

theorem Consistent.releaseSource (h : Consistent (some src) s) :
    ∃ s', s.releaseSource src = .ok s' ∧ Consistent none s' := by
  obtain ⟨hinit, hbusy⟩ := h.limbo_mem src rfl
  have heq : s.bSrcs.release src =
      .ok (s.bSrcs.eventQueue.head?, s.bSrcs.restore src hinit hbusy) :=
    FreeList.release_eq_ok_iff.mpr ⟨hinit, hbusy, rfl⟩
  unfold Probes.releaseSource
  rw [heq, ok_bind]
  cases hevents : s.bSrcs.eventQueue with
  | nil => exact ⟨_, rfl, h.restore hevents hinit hbusy⟩
  | cons p rest =>
    obtain ⟨hok, hconsistent⟩ := h.reissue hevents hinit hbusy
    exact ⟨_, hok, hconsistent⟩

/-- An acknowledgement whose continuation makes at most one request pushes the first probe among
the waiting ones and that request. -/
theorem Consistent.bQueue_acknowledge (h : Consistent none s) (hinit : src ∈ s.bSrcs.initList)
    (hbusy : src ∉ s.bSrcs.freeList) {ps : List (Probe κ)} (hps : ps.length ≤ 1)
    {s₁ s₂ : Probes κ}
    (hfold : ps.foldlM (fun probes p ↦ probes.retrieveBlock p) (s.unregister src) = .ok s₁)
    (hrelease : s₁.releaseSource src = .ok s₂) :
    ∃ src', s₂.bQueue =
      s.bQueue ++ ((s.bSrcs.eventQueue ++ ps).head?.map (·.message src')).toList := by
  have hlimbo := h.unregister hinit hbusy
  match ps with
  | [] =>
    obtain rfl := Except.ok.inj hfold
    refine ⟨src, ?_⟩
    rw [hlimbo.bQueue_releaseSource hrelease, List.append_nil]
    rfl
  | [p] =>
    rw [List.foldlM_cons] at hfold
    obtain ⟨s₁', hretrieve, hs₁⟩ := bind_eq_ok.mp hfold
    obtain rfl := Except.ok.inj hs₁
    obtain ⟨hfree, src', hsrc', rfl⟩ | ⟨hfree, rfl⟩ := hlimbo.retrieveBlock_cases hretrieve
    · have hevents : s.bSrcs.eventQueue = [] :=
        not_not.mp fun hevents ↦ hfree (h.waiting hevents)
      refine ⟨src', ?_⟩
      rw [(hlimbo.issue hsrc').bQueue_releaseSource hrelease, hevents]
      change s.bQueue ++ [p.message src'] ++
        (s.bSrcs.eventQueue.head?.map (·.message src)).toList = _
      rw [hevents]
      simp
    · refine ⟨src, ?_⟩
      rw [(hlimbo.wait hfree p).bQueue_releaseSource hrelease]
      rfl
  | _ :: _ :: _ => simp at hps

end Effects

/-- The continuations that have not run yet: the registered ones and those of waiting probes. -/
def pending (s : Probes κ) : List κ :=
  s.bSrcs.initList.filterMap s.registered ++ s.bSrcs.eventQueue.map Probe.callback

/-- Registering a callback under one more source adds it to the registered ones. -/
theorem perm_filterMap_register {l : List ℕ} (hl : l.Nodup) {src : ℕ} (hsrc : src ∈ l)
    {f f' : ℕ → Option κ} {callback : κ} (hf : f src = none)
    (hf' : ∀ src', f' src' = if src' = src then some callback else f src') :
    (l.filterMap f').Perm (callback :: l.filterMap f) := by
  induction l with
  | nil => exact nomatch hsrc
  | cons head rest ih =>
    rw [List.nodup_cons] at hl
    by_cases hhead : head = src
    · subst hhead
      have hrest : rest.filterMap f' = rest.filterMap f := by
        refine List.filterMap_congr fun src' hsrc' ↦ ?_
        have hne : src' ≠ head := fun heq ↦ hl.1 (heq ▸ hsrc')
        rw [hf', if_neg hne]
      have hself : f' head = some callback := by rw [hf', if_pos rfl]
      rw [List.filterMap_cons_some hself, List.filterMap_cons_none hf, hrest]
    · have hmem : src ∈ rest := (List.mem_cons.mp hsrc).resolve_left fun heq ↦ hhead heq.symm
      have hperm := ih hl.2 hmem
      have hsame : f' head = f head := by rw [hf', if_neg hhead]
      cases hcase : f head with
      | none => simpa [List.filterMap_cons, hsame, hcase] using hperm
      | some other =>
        simp only [List.filterMap_cons, hsame, hcase]
        exact (hperm.cons other).trans (List.Perm.swap callback other _)

section Pending

variable {limbo : Option ℕ} {s s' : Probes κ} {src : ℕ} {p : Probe κ}

theorem Matched.registered_eq_none (h : Matched limbo s) (hsrc : src ∈ s.bSrcs.freeList) :
    s.registered src = none := by
  rw [← Option.not_isSome_iff_eq_none, h.registered_iff]
  exact fun hbusy ↦ hbusy.2.1 hsrc

theorem pending_frame (hsrcs : s'.bSrcs = s.bSrcs) (hcallback : s'.bCallback = s.bCallback) :
    s'.pending = s.pending := by
  unfold pending registered
  rw [hsrcs, hcallback]

theorem Matched.perm_pending_issue (h : Matched limbo s) (hsrc : src ∈ s.bSrcs.freeList) :
    (s.issue src p).pending.Perm (p.callback :: s.pending) := by
  have hinit : src ∈ s.bSrcs.initList := s.bSrcs.freeList_subset hsrc
  exact (perm_filterMap_register s.bSrcs.nodup_initList hinit (h.registered_eq_none hsrc)
    (s.registered_issue src · p)).append_right _

theorem pending_wait : (s.wait p).pending = s.pending ++ [p.callback] := by
  unfold pending
  change _ ++ (s.bSrcs.eventQueue ++ [p]).map Probe.callback = _
  rw [List.map_append, ← List.append_assoc]
  rfl

theorem perm_pending_wait : (s.wait p).pending.Perm (p.callback :: s.pending) := by
  rw [pending_wait]
  exact List.perm_append_singleton _ _

theorem Consistent.perm_pending_retrieveBlock (h : Consistent limbo s)
    (hretrieve : s.retrieveBlock p = .ok s') : s'.pending.Perm (p.callback :: s.pending) := by
  obtain ⟨-, src, hsrc, rfl⟩ | ⟨-, rfl⟩ := h.retrieveBlock_cases hretrieve
  · exact h.perm_pending_issue hsrc
  · exact perm_pending_wait

/-- The continuation of an acknowledged source is no longer pending. -/
theorem perm_pending_unregister (hinit : src ∈ s.bSrcs.initList) {callback : κ}
    (hregistered : s.registered src = some callback) :
    s.pending.Perm (callback :: (s.unregister src).pending) := by
  refine (perm_filterMap_register s.bSrcs.nodup_initList hinit (f := (s.unregister src).registered)
    (by simp) fun src' ↦ ?_).append_right _
  rw [registered_unregister]
  split
  · next heq => rw [heq, hregistered]
  · rfl

/-- A release moves at most one continuation, from the waiting to the registered ones. -/
theorem Consistent.perm_pending_releaseSource (h : Consistent (some src) s)
    (hrelease : s.releaseSource src = .ok s') : s'.pending.Perm s.pending := by
  obtain ⟨hinit, hbusy⟩ := h.limbo_mem src rfl
  have heq : s.bSrcs.release src =
      .ok (s.bSrcs.eventQueue.head?, s.bSrcs.restore src hinit hbusy) :=
    FreeList.release_eq_ok_iff.mpr ⟨hinit, hbusy, rfl⟩
  unfold Probes.releaseSource at hrelease
  rw [heq, ok_bind] at hrelease
  cases hevents : s.bSrcs.eventQueue with
  | nil =>
    rw [hevents] at hrelease
    obtain rfl := Except.ok.inj hrelease
    change (s.bSrcs.initList.filterMap s.registered ++
      s.bSrcs.eventQueue.tail.map Probe.callback).Perm _
    rw [hevents]
    unfold pending
    rw [hevents]
    rfl
  | cons p rest =>
    rw [hevents] at hrelease
    have hissue := (h.reissue hevents hinit hbusy).1
    obtain rfl := Except.ok.inj (hissue.symm.trans hrelease)
    have hfree : src ∈ (s.restore src hinit hbusy).bSrcs.freeList := by
      change src ∈ s.bSrcs.freeList ++ [src]
      simp
    refine ((h.toMatched.restore hinit hbusy).perm_pending_issue hfree).trans ?_
    unfold pending
    change (p.callback :: (s.bSrcs.initList.filterMap s.registered ++
      s.bSrcs.eventQueue.tail.map Probe.callback)).Perm _
    rw [hevents]
    exact List.perm_middle.symm

/-- With a single source the continuations run in the order of the requests: a new one is the last
to run. -/
theorem Consistent.pending_retrieveBlock (h : Consistent limbo s) {only : ℕ}
    (hinit : s.bSrcs.initList = [only]) (hretrieve : s.retrieveBlock p = .ok s') :
    s'.pending = s.pending ++ [p.callback] := by
  obtain ⟨hfree, src, hsrc, rfl⟩ | ⟨-, rfl⟩ := h.retrieveBlock_cases hretrieve
  · have hevents : s.bSrcs.eventQueue = [] := not_not.mp fun hevents ↦ hfree (h.waiting hevents)
    have hmem : src ∈ s.bSrcs.initList := s.bSrcs.freeList_subset hsrc
    rw [hinit, List.mem_singleton] at hmem
    have hnone : s.registered only = none := hmem ▸ h.registered_eq_none hsrc
    have hsome : (s.issue src p).registered only = some p.callback := by
      rw [registered_issue, if_pos hmem.symm]
    unfold pending
    change (s.bSrcs.initList.filterMap _) ++ s.bSrcs.eventQueue.map Probe.callback = _
    rw [hinit, hevents, List.filterMap_cons_some hsome, List.filterMap_cons_none hnone]
    rfl
  · exact pending_wait

/-- The registered continuation is the first to run. -/
theorem pending_unregister {callback : κ} (hinit : s.bSrcs.initList = [src])
    (hregistered : s.registered src = some callback) :
    s.pending = callback :: (s.unregister src).pending := by
  unfold pending
  change _ = callback :: ((s.bSrcs.initList.filterMap _) ++ _)
  rw [hinit, List.filterMap_cons_some hregistered, List.filterMap_cons_none (by simp)]
  rfl

theorem Consistent.pending_releaseSource (h : Consistent (some src) s)
    (hsingle : s.bSrcs.initList = [src]) (hrelease : s.releaseSource src = .ok s') :
    s'.pending = s.pending := by
  obtain ⟨hinit, hbusy⟩ := h.limbo_mem src rfl
  have hnone : s.registered src = none := by
    rw [← Option.not_isSome_iff_eq_none, h.registered_iff]
    exact fun hlimbo ↦ hlimbo.2.2 rfl
  have heq : s.bSrcs.release src =
      .ok (s.bSrcs.eventQueue.head?, s.bSrcs.restore src hinit hbusy) :=
    FreeList.release_eq_ok_iff.mpr ⟨hinit, hbusy, rfl⟩
  unfold Probes.releaseSource at hrelease
  rw [heq, ok_bind] at hrelease
  cases hevents : s.bSrcs.eventQueue with
  | nil =>
    rw [hevents] at hrelease
    obtain rfl := Except.ok.inj hrelease
    unfold pending
    change (s.bSrcs.initList.filterMap s.registered ++
      s.bSrcs.eventQueue.tail.map Probe.callback) = _
    rw [hevents]
    rfl
  | cons p rest =>
    rw [hevents] at hrelease
    have hissue := (h.reissue hevents hinit hbusy).1
    obtain rfl := Except.ok.inj (hissue.symm.trans hrelease)
    have hsome : ((s.restore src hinit hbusy).issue src p).registered src =
        some p.callback := by
      rw [registered_issue, if_pos rfl]
    unfold pending
    change (s.bSrcs.initList.filterMap _) ++ s.bSrcs.eventQueue.tail.map Probe.callback = _
    rw [hsingle, hevents, List.filterMap_cons_some hsome, List.filterMap_cons_none hnone]
    rfl

/-- With a single source something is pending exactly while that source is in use. -/
theorem Consistent.pending_ne_nil_iff (h : Consistent none s)
    (hinit : s.bSrcs.initList = [src]) : s.pending ≠ [] ↔ s.bSrcs.freeList = [] := by
  have hfree : s.bSrcs.freeList = [] ↔ src ∉ s.bSrcs.freeList := by
    refine ⟨fun hnil ↦ by simp [hnil], fun hbusy ↦ ?_⟩
    refine List.eq_nil_iff_forall_not_mem.mpr fun src' hsrc' ↦ hbusy ?_
    have hmem : src' ∈ s.bSrcs.initList := s.bSrcs.freeList_subset hsrc'
    rw [hinit, List.mem_singleton] at hmem
    exact hmem ▸ hsrc'
  have hregistered : (s.registered src).isSome ↔ src ∉ s.bSrcs.freeList := by
    rw [h.registered_iff, hinit]
    simp
  have hwaiting : s.bSrcs.eventQueue ≠ [] → src ∉ s.bSrcs.freeList := fun hevents ↦ by
    rw [h.waiting hevents]
    exact List.not_mem_nil
  rw [hfree, ← hregistered] at *
  unfold pending
  rw [hinit]
  cases hsrc : s.registered src with
  | none => simpa [hsrc] using hwaiting
  | some callback => simp [hsrc]

end Pending

theorem get?_new (srcs : List ℕ) (h : srcs.Nodup) (draws : Draws) (src : ℕ) :
    (new srcs h draws : Probes κ).bCallback.cMap.get? src =
      if src ∈ srcs then some none else none :=
  Dict.get?_ofList_const srcs none src

theorem consistent_new (srcs : List ℕ) (h : srcs.Nodup) (draws : Draws) :
    Consistent none (new srcs h draws : Probes κ) where
  srcs_eq := rfl
  known src hsrc := by
    have hmem : src ∈ srcs := hsrc
    rw [← Dict.isSome_get?_iff, get?_new, if_pos hmem]
    rfl
  registered_iff src := by
    have hnone : (new srcs h draws : Probes κ).registered src = none := by
      unfold registered SrcToCallback.registered
      rw [get?_new]
      split <;> rfl
    rw [hnone]
    exact ⟨nofun, fun hsrc ↦ absurd hsrc.1 hsrc.2.1⟩
  limbo_mem := nofun
  waiting hevents := absurd rfl hevents

end Probes

/-- The bookkeeping together with the state `world` that continuations act on. The last three
fields are history: the requests in the order they were made, the probes that left `b_queue`, and
the continuations that were run, each with the source that was acknowledged. -/
structure ProbeSystem (κ W : Type) where
  probes : Probes κ
  world : W
  requests : List (Probe κ)
  delivered : List BMessage
  ran : List (ℕ × κ)

inductive ProbeEvent (κ W : Type)
  | retrieve (p : Probe κ)
  | acknowledge (source : ℕ)
  | deliver
  | other (world : W) (draws : Draws)

namespace ProbeSystem

def start (srcs : List ℕ) (h : srcs.Nodup) (draws : Draws) (world : W) : ProbeSystem κ W where
  probes := Probes.new srcs h draws
  world := world
  requests := []
  delivered := []
  ran := []

def request (p : Probe κ) (s : ProbeSystem κ W) : Except PyError (ProbeSystem κ W) := do
  let probes ← s.probes.retrieveBlock p
  return { s with probes := probes, requests := s.requests ++ [p] }

/-- What a continuation does: it changes the world and requests some probes. -/
abbrev Body (κ W : Type) := κ → W → W × List (Probe κ)

variable (body : Body κ W)

def runCallback (source : ℕ) (callback : κ) (s : ProbeSystem κ W) :
    Except PyError (ProbeSystem κ W) :=
  (body callback s.world).2.foldlM (fun s p ↦ s.request p)
    { s with world := (body callback s.world).1, ran := s.ran ++ [(source, callback)] }

def runCalled (source : ℕ) : Option κ → ProbeSystem κ W → Except PyError (ProbeSystem κ W)
  | none, s => .ok s
  | some callback, s => s.runCallback body source callback

def acknowledge (source : ℕ) (s : ProbeSystem κ W) : Except PyError (ProbeSystem κ W) := do
  let (callback, probes) ← s.probes.callSource source
  let s ← runCalled body source callback { s with probes := probes }
  let probes ← s.probes.releaseSource source
  return { s with probes := probes }

def step (s : ProbeSystem κ W) : ProbeEvent κ W → Except PyError (ProbeSystem κ W)
  | .retrieve p => s.request p
  | .acknowledge source => s.acknowledge body source
  | .deliver => .ok { s with
      probes := { s.probes with bQueue := s.probes.bQueue.tail }
      delivered := s.delivered ++ s.probes.bQueue.head?.toList }
  | .other world draws => .ok { s with
      world := world
      probes := { s.probes with draws := draws } }

def run (s : ProbeSystem κ W) (events : List (ProbeEvent κ W)) :
    Except PyError (ProbeSystem κ W) :=
  events.foldlM (fun s event ↦ s.step body event) s

/-- Only an outstanding source is acknowledged. -/
def Enabled (s : ProbeSystem κ W) : ProbeEvent κ W → Prop
  | .acknowledge source =>
    source ∈ s.probes.bSrcs.initList ∧ source ∉ s.probes.bSrcs.freeList
  | _ => True

instance (s : ProbeSystem κ W) (event : ProbeEvent κ W) : Decidable (s.Enabled event) :=
  match event with
  | .acknowledge source => inferInstanceAs
      (Decidable (source ∈ s.probes.bSrcs.initList ∧ source ∉ s.probes.bSrcs.freeList))
  | .retrieve _ | .deliver | .other _ _ => isTrue trivial

/-- Every event is enabled in the state in which it happens. -/
def Legal (s : ProbeSystem κ W) : List (ProbeEvent κ W) → Prop
  | [] => True
  | event :: events => s.Enabled event ∧
    match s.step body event with
    | .ok s' => Legal s' events
    | .error _ => True

instance decidableLegal (s : ProbeSystem κ W) :
    (events : List (ProbeEvent κ W)) → Decidable (s.Legal body events)
  | [] => isTrue trivial
  | event :: events =>
    have : Decidable (match s.step body event with
        | .ok s' => Legal body s' events
        | .error _ => True) :=
      match s.step body event with
      | .ok s' => decidableLegal s' events
      | .error _ => isTrue trivial
    inferInstanceAs (Decidable (_ ∧ _))

/-- The sources that a run acknowledges. -/
def acknowledged (events : List (ProbeEvent κ W)) : List ℕ :=
  events.filterMap fun
    | .acknowledge source => some source
    | _ => none

/-- `issued` lists the issued probes with their sources. The requests are the issued probes
followed by the waiting ones; the probes sent are the issued ones in order; and on each source the
registered continuations have run in order, up to the one that is still registered. -/
structure Accounted (s : ProbeSystem κ W) (issued : List (ℕ × Probe κ)) : Prop where
  requests_eq : s.requests = issued.map Prod.snd ++ s.probes.bSrcs.eventQueue
  sent_eq : s.delivered ++ s.probes.bQueue = issued.map fun entry ↦ entry.2.message entry.1
  callbacks_eq : ∀ src, (issued.filter (·.1 = src)).map (·.2.callback) =
    (s.ran.filter (·.1 = src)).map Prod.snd ++ (s.probes.registered src).toList

/-- The invariant; `limbo` is the source whose acknowledgement is being served. -/
structure Inv (srcs : List ℕ) (limbo : Option ℕ) (s : ProbeSystem κ W) : Prop where
  initList_eq : s.probes.bSrcs.initList = srcs
  consistent : s.probes.Consistent limbo
  accounted : ∃ issued, s.Accounted issued

variable {srcs : List ℕ} {limbo : Option ℕ} {s : ProbeSystem κ W}

theorem inv_start (h : srcs.Nodup) (draws : Draws) (world : W) :
    Inv srcs none (start srcs h draws world : ProbeSystem κ W) where
  initList_eq := rfl
  consistent := Probes.consistent_new srcs h draws
  accounted := by
    refine ⟨[], rfl, rfl, fun src ↦ ?_⟩
    have hnone : (Probes.new srcs h draws : Probes κ).registered src = none := by
      unfold Probes.registered SrcToCallback.registered
      rw [Probes.get?_new]
      split <;> rfl
    change [] = [] ++ ((Probes.new srcs h draws : Probes κ).registered src).toList
    rw [hnone]
    rfl

/-- Issuing one more probe under a source without a continuation keeps the accounts. -/
theorem Accounted.issue {issued : List (ℕ × Probe κ)} (h : s.Accounted issued) {src : ℕ}
    {p : Probe κ} (hregistered : s.probes.registered src = none) {probes : Probes κ}
    (hqueue : probes.bQueue = s.probes.bQueue ++ [p.message src])
    (hmap : ∀ src', probes.registered src' =
      if src' = src then some p.callback else s.probes.registered src')
    {requests : List (Probe κ)}
    (hrequests : requests = issued.map Prod.snd ++ p :: probes.bSrcs.eventQueue) :
    Accounted { s with probes := probes, requests := requests } (issued ++ [(src, p)]) where
  requests_eq := by
    change requests = _
    simp [hrequests]
  sent_eq := by
    change s.delivered ++ probes.bQueue = _
    rw [hqueue, ← List.append_assoc, h.sent_eq]
    simp
  callbacks_eq src' := by
    have hold := h.callbacks_eq src'
    change _ = (s.ran.filter (·.1 = src')).map Prod.snd ++ (probes.registered src').toList
    rw [hmap, List.filter_append, List.map_append, hold]
    by_cases hsame : src' = src
    · subst hsame
      simp [hregistered]
    · simp [hsame, Ne.symm hsame]

theorem request_eq_ok {p : Probe κ} {probes : Probes κ}
    (h : s.probes.retrieveBlock p = .ok probes) :
    s.request p = .ok { s with probes := probes, requests := s.requests ++ [p] } := by
  unfold ProbeSystem.request
  rw [h]
  rfl

/-- A request is issued when a source is free and waits otherwise. -/
theorem Inv.request (h : Inv srcs limbo s) (p : Probe κ) :
    ∃ s', s.request p = .ok s' ∧ Inv srcs limbo s' ∧ s'.ran = s.ran := by
  obtain ⟨issued, haccounted⟩ := h.accounted
  by_cases hfree : s.probes.bSrcs.freeList = []
  · refine ⟨_, request_eq_ok (Probes.retrieveBlock_eq_wait hfree p), ?_, rfl⟩
    have hrequests : s.requests ++ [p] =
        issued.map Prod.snd ++ (s.probes.bSrcs.eventQueue ++ [p]) := by
      rw [haccounted.requests_eq, List.append_assoc]
    exact ⟨h.initList_eq, h.consistent.wait hfree p, issued,
      hrequests, haccounted.sent_eq, haccounted.callbacks_eq⟩
  · have hevents : s.probes.bSrcs.eventQueue = [] :=
      not_not.mp fun hevents ↦ hfree (h.consistent.waiting hevents)
    obtain ⟨src, hsrc, hissue⟩ := h.consistent.retrieveBlock_eq_ok hfree p
    have hregistered : s.probes.registered src = none := by
      have hiff := h.consistent.registered_iff src
      rw [← Option.not_isSome_iff_eq_none, hiff]
      exact fun hbusy ↦ hbusy.2.1 hsrc
    have hrequests : s.requests ++ [p] =
        issued.map Prod.snd ++ p :: s.probes.bSrcs.eventQueue := by
      rw [haccounted.requests_eq, hevents]
      simp
    refine ⟨_, request_eq_ok hissue, ?_, rfl⟩
    exact ⟨h.initList_eq, h.consistent.issue hsrc, issued ++ [(src, p)],
      haccounted.issue hregistered rfl (s.probes.registered_issue src · p) hrequests⟩

theorem Inv.requests (ps : List (Probe κ)) (h : Inv srcs limbo s) :
    ∃ s', ps.foldlM (fun s p ↦ s.request p) s = .ok s' ∧ Inv srcs limbo s' ∧ s'.ran = s.ran := by
  induction ps generalizing s with
  | nil => exact ⟨s, rfl, h, rfl⟩
  | cons p ps ih =>
    obtain ⟨s₁, hstep, h₁, hran₁⟩ := h.request p
    obtain ⟨s₂, hrun, h₂, hran₂⟩ := ih h₁
    refine ⟨s₂, ?_, h₂, hran₂.trans hran₁⟩
    rw [List.foldlM_cons, hstep]
    exact hrun

/-- Taking the continuation of an outstanding source out and running it puts it into the history
of that source, whatever it requests. -/
theorem Inv.runCallback (h : Inv srcs none s) {src : ℕ} {callback : κ}
    (hinit : src ∈ s.probes.bSrcs.initList) (hbusy : src ∉ s.probes.bSrcs.freeList)
    (hregistered : s.probes.registered src = some callback) :
    ∃ s', runCallback body src callback { s with probes := s.probes.unregister src } = .ok s' ∧
      Inv srcs (some src) s' ∧ s'.ran = s.ran ++ [(src, callback)] := by
  obtain ⟨issued, haccounted⟩ := h.accounted
  unfold ProbeSystem.runCallback
  apply Inv.requests
  refine ⟨h.initList_eq, h.consistent.unregister hinit hbusy, issued, haccounted.requests_eq,
    haccounted.sent_eq, fun src' ↦ ?_⟩
  change _ = ((s.ran ++ [(src, callback)]).filter (·.1 = src')).map Prod.snd ++
    ((s.probes.unregister src).registered src').toList
  rw [haccounted.callbacks_eq, Probes.registered_unregister]
  by_cases hsame : src' = src
  · subst hsame
    simp [hregistered]
  · simp [hsame, Ne.symm hsame]

theorem Inv.release {src : ℕ} (h : Inv srcs (some src) s) :
    ∃ probes, s.probes.releaseSource src = .ok probes ∧
      Inv srcs none { s with probes := probes } := by
  obtain ⟨issued, haccounted⟩ := h.accounted
  obtain ⟨hinit, hbusy⟩ := h.consistent.limbo_mem src rfl
  have hrelease : s.probes.bSrcs.release src =
      .ok (s.probes.bSrcs.eventQueue.head?, s.probes.bSrcs.restore src hinit hbusy) :=
    FreeList.release_eq_ok_iff.mpr ⟨hinit, hbusy, rfl⟩
  unfold Probes.releaseSource
  rw [hrelease, ok_bind]
  cases hevents : s.probes.bSrcs.eventQueue with
  | nil =>
    refine ⟨_, rfl, h.initList_eq, h.consistent.restore hevents hinit hbusy, issued, ?_⟩
    refine ⟨?_, haccounted.sent_eq, haccounted.callbacks_eq⟩
    change s.requests = issued.map Prod.snd ++ s.probes.bSrcs.eventQueue.tail
    rw [haccounted.requests_eq, hevents]
    rfl
  | cons p rest =>
    obtain ⟨hok, hconsistent⟩ := h.consistent.reissue hevents hinit hbusy
    refine ⟨_, hok, h.initList_eq, hconsistent, issued ++ [(src, p)], ?_⟩
    have hregistered : s.probes.registered src = none := by
      have hiff := h.consistent.registered_iff src
      rw [← Option.not_isSome_iff_eq_none, hiff]
      exact fun hlimbo ↦ hlimbo.2.2 rfl
    have hmap := fun src' ↦ (s.probes.restore src hinit hbusy).registered_issue src src' p
    refine haccounted.issue hregistered rfl hmap ?_
    change s.requests = issued.map Prod.snd ++ p :: s.probes.bSrcs.eventQueue.tail
    rw [haccounted.requests_eq, hevents]
    rfl

/-- What one event preserves; an acknowledgement also runs exactly the continuation of its own
source. -/
theorem Inv.step (h : Inv srcs none s) {event : ProbeEvent κ W} (henabled : s.Enabled event) :
    ∃ s', s.step body event = .ok s' ∧ Inv srcs none s' ∧
      s'.ran.map Prod.fst = s.ran.map Prod.fst ++ acknowledged [event] := by
  cases event with
  | retrieve p =>
    obtain ⟨s', hrequest, h', hran⟩ := h.request p
    exact ⟨s', hrequest, h', by simp [hran, acknowledged]⟩
  | acknowledge source =>
    obtain ⟨hinit, hbusy⟩ := henabled
    obtain ⟨callback, hregistered, hcall⟩ := h.consistent.callSource_eq_ok hinit hbusy
    obtain ⟨s₁, hrun, h₁, hran⟩ := h.runCallback body hinit hbusy hregistered
    obtain ⟨probes, hrelease, h₂⟩ := h₁.release
    refine ⟨{ s₁ with probes := probes }, ?_, h₂, by simp [hran, acknowledged]⟩
    change s.acknowledge body source = _
    unfold ProbeSystem.acknowledge
    rw [hcall, ok_bind]
    dsimp only [runCalled]
    rw [hrun, ok_bind, hrelease]
    rfl
  | deliver =>
    obtain ⟨issued, haccounted⟩ := h.accounted
    refine ⟨_, rfl, ⟨h.initList_eq, h.consistent.frame rfl rfl, issued,
      haccounted.requests_eq, ?_, haccounted.callbacks_eq⟩, by simp [acknowledged]⟩
    rw [← haccounted.sent_eq]
    cases s.probes.bQueue <;> simp
  | other world draws =>
    obtain ⟨issued, haccounted⟩ := h.accounted
    exact ⟨_, rfl, ⟨h.initList_eq, h.consistent.frame rfl rfl, issued, haccounted.requests_eq,
      haccounted.sent_eq, haccounted.callbacks_eq⟩, by simp [acknowledged]⟩

theorem Inv.run {events : List (ProbeEvent κ W)} (h : Inv srcs none s)
    (hlegal : s.Legal body events) :
    ∃ s', s.run body events = .ok s' ∧ Inv srcs none s' ∧
      s'.ran.map Prod.fst = s.ran.map Prod.fst ++ acknowledged events := by
  induction events generalizing s with
  | nil => exact ⟨s, rfl, h, by simp [acknowledged]⟩
  | cons event events ih =>
    obtain ⟨s₁, hstep, h₁, hran₁⟩ := h.step body hlegal.1
    have hrest := hlegal.2
    rw [hstep] at hrest
    obtain ⟨s₂, hrun, h₂, hran₂⟩ := ih h₁ hrest
    refine ⟨s₂, ?_, h₂, ?_⟩
    · unfold ProbeSystem.run
      rw [List.foldlM_cons, hstep]
      exact hrun
    · rw [hran₂, hran₁, List.append_assoc]
      simp only [acknowledged, ← List.filterMap_append, List.singleton_append]

/-- The bookkeeping between two events. -/
structure Bookkeeping (srcs : List ℕ) (events : List (ProbeEvent κ W)) (s : ProbeSystem κ W) :
    Prop where
  registered_iff : ∀ src ∈ srcs,
    (s.probes.registered src).isSome ↔ src ∉ s.probes.bSrcs.freeList
  waiting : s.probes.bSrcs.eventQueue ≠ [] → s.probes.bSrcs.freeList = []
  accounted : ∃ issued, s.Accounted issued
  ran_sources : s.ran.map Prod.fst = acknowledged events
  idle : srcs ≠ [] → (∀ src ∈ srcs, src ∈ s.probes.bSrcs.freeList) →
    (s.requests.map Probe.callback).Perm (s.ran.map Prod.snd) ∧
      s.requests.length = (s.delivered ++ s.probes.bQueue).length

theorem count_filter_fst {α : Type} [DecidableEq α] (l : List (ℕ × α)) (src : ℕ) (a : α) :
    ((l.filter (·.1 = src)).map Prod.snd).count a = l.count (src, a) := by
  induction l with
  | nil => rfl
  | cons entry rest ih =>
    obtain ⟨src', a'⟩ := entry
    by_cases hsame : src' = src
    · subst hsame
      simp [List.count_cons, ih]
    · simp [ih, hsame]

/-- With every source free nothing waits and nothing is registered, so each request has been sent
and its continuation has run. -/
theorem Inv.idle (h : Inv srcs none s) (hne : srcs ≠ [])
    (hidle : ∀ src ∈ srcs, src ∈ s.probes.bSrcs.freeList) :
    (s.requests.map Probe.callback).Perm (s.ran.map Prod.snd) ∧
      s.requests.length = (s.delivered ++ s.probes.bQueue).length := by
  classical
  obtain ⟨issued, haccounted⟩ := h.accounted
  have hevents : s.probes.bSrcs.eventQueue = [] := by
    by_contra hevents
    obtain ⟨src, hsrc⟩ := List.exists_mem_of_ne_nil srcs hne
    have hfree := hidle src hsrc
    rw [h.consistent.waiting hevents] at hfree
    exact nomatch hfree
  have hrequests : s.requests = issued.map Prod.snd := by
    rw [haccounted.requests_eq, hevents, List.append_nil]
  have hregistered (src : ℕ) : s.probes.registered src = none := by
    rw [← Option.not_isSome_iff_eq_none, h.consistent.registered_iff]
    rintro ⟨hinit, hbusy, -⟩
    exact hbusy (hidle src (h.initList_eq ▸ hinit))
  have hperm : (issued.map fun entry ↦ (entry.1, entry.2.callback)).Perm s.ran := by
    refine List.perm_iff_count.mpr fun entry ↦ ?_
    have hsource := haccounted.callbacks_eq entry.1
    rw [hregistered, Option.toList_none, List.append_nil] at hsource
    calc (issued.map fun entry ↦ (entry.1, entry.2.callback)).count entry
        = ((issued.filter (·.1 = entry.1)).map (·.2.callback)).count entry.2 := by
          rw [← count_filter_fst, List.filter_map, List.map_map]
          rfl
      _ = s.ran.count entry := by rw [hsource, count_filter_fst]
  constructor
  · have hsnd := hperm.map Prod.snd
    rw [List.map_map] at hsnd
    rw [hrequests, List.map_map]
    exact hsnd
  · rw [hrequests, haccounted.sent_eq, List.length_map, List.length_map]

/-- Whatever the events and the outcomes of `random`, no assertion fails in a legal run and the
bookkeeping is exact after it. -/
theorem run_bookkeeping (srcs : List ℕ) (hnodup : srcs.Nodup) (draws : Draws) (world : W)
    (events : List (ProbeEvent κ W)) (hlegal : (start srcs hnodup draws world).Legal body events) :
    ∃ s, (start srcs hnodup draws world).run body events = .ok s ∧ s.Bookkeeping srcs events := by
  obtain ⟨s, hrun, hinv, hran⟩ := (inv_start hnodup draws world).run body hlegal
  refine ⟨s, hrun, fun src hsrc ↦ ?_, hinv.consistent.waiting, hinv.accounted, hran, hinv.idle⟩
  rw [hinv.consistent.registered_iff, hinv.initList_eq]
  simp [hsrc]

def countdownProbe (n : ℕ) : Probe ℕ where
  callback := n
  param := toN
  size := 6
  addr := 64 * n
  mask := 255

/-- A continuation that probes `n` further blocks, one after the other. -/
def countdown : Body ℕ Unit
  | 0, _ => ((), [])
  | n + 1, _ => ((), [countdownProbe n])

theorem run_bookkeeping_countdown :
    ∃ s, (start [0, 1] (by decide) (fun _ ↦ 0) ()).run countdown
        [.retrieve (countdownProbe 2), .retrieve (countdownProbe 0), .retrieve (countdownProbe 1),
          .deliver, .acknowledge 1, .acknowledge 0, .acknowledge 0] = .ok s ∧
      s.Bookkeeping [0, 1]
        [.retrieve (countdownProbe 2), .retrieve (countdownProbe 0), .retrieve (countdownProbe 1),
          .deliver, .acknowledge 1, .acknowledge 0, .acknowledge 0] :=
  run_bookkeeping countdown [0, 1] (by decide) (fun _ ↦ 0) () _ (by decide)

end ProbeSystem

end ProcessorFuzz.TileLink
