import Mathlib.Data.Nat.Bitwise
import Mathlib.Dynamics.PeriodicPts.Lemmas
import Mathlib.Tactic.Ring

/-!
# The user pages of the test environment

At boot, the test environment of virtual memory links the physical pages behind the kernel image
into a free list, in the order of a shift register, and every first fault on a user page takes the
page at the head. The register visits 63 values and the list has 127 nodes.
-/

namespace ProcessorFuzz.Template

open Function

def maxTestPages : ℕ := 127

def pgShift : ℕ := 12

def pgSize : ℕ := 1 <<< pgShift

def dramBase : ℕ := 0x80000000

def ptePpnShift : ℕ := 10

def pteV : ℕ := 0x001
def pteR : ℕ := 0x002
def pteW : ℕ := 0x004
def pteX : ℕ := 0x008
def pteU : ℕ := 0x010
def pteA : ℕ := 0x040
def pteD : ℕ := 0x080

def causeStorePageFault : ℕ := 0xf

/-- `LFSR_NEXT`. -/
def lfsrNext (x : ℕ) : ℕ := ((x ^^^ x >>> 1) &&& 1) <<< 5 ||| x >>> 1

def lfsr63 (x : ℕ) : ℕ :=
  let bit := (x ^^^ x >>> 1) &&& 1
  x >>> 1 ||| bit <<< 62

/-- `freelist_t`. A pointer into `freelist_nodes` is an index. -/
structure FreelistNode where
  addr : ℕ
  next : Option ℕ
  deriving DecidableEq, Repr

/-- The variables of the environment. The page table and the mapping are indexed by the user
page. -/
structure Vm where
  freelistNodes : List FreelistNode
  freelistHead : Option ℕ
  freelistTail : Option ℕ
  userLlpt : ℕ → ℕ
  userMapping : ℕ → FreelistNode

/-- The first value of the register. -/
def seed (entropy : UInt64) : ℕ := 1 + entropy.toNat % maxTestPages

/-- The address that a value of the register stands for. -/
def pageAddr (random : ℕ) : ℕ := dramBase + (maxTestPages + random) * pgSize

/-- The first `n` iterations of the loop of `vm_boot`, with the value of `random` after them. -/
def freelistLoop (random n : ℕ) : List FreelistNode × ℕ :=
  (List.range n).foldl
    (fun (nodes, random) i ↦ (nodes ++ [⟨pageAddr random, some (i + 1)⟩], lfsrNext random))
    ([], random)

/-- The free list that `vm_boot` leaves; the other variables are zero. -/
def vmBoot (entropy : UInt64) : Vm where
  freelistNodes := (freelistLoop (seed entropy) maxTestPages).1.modify (maxTestPages - 1)
    fun node ↦ { node with next := none }
  freelistHead := some 0
  freelistTail := some (maxTestPages - 1)
  userLlpt := fun _ ↦ 0
  userMapping := fun _ ↦ ⟨0, none⟩

/-- A page fault. `draw` is the value of the local variable `random`, which is read before it is
written. -/
structure Fault where
  addr : ℕ
  cause : ℕ
  draw : ℕ
  deriving DecidableEq, Repr

def Fault.page (fault : Fault) : ℕ := fault.addr / pgSize

/-- A fault on a page that has an entry sets its accessed or its dirty bit. -/
def setFlags (fault : Fault) (s : Vm) : Option Vm :=
  let pte := s.userLlpt fault.page
  if pte &&& pteA = 0 then
    some { s with userLlpt := update s.userLlpt fault.page (pte ||| pteA) }
  else if pte &&& pteD = 0 ∧ fault.cause = causeStorePageFault then
    some { s with userLlpt := update s.userLlpt fault.page (pte ||| pteD) }
  else none

/-- The entry for a new page; its flags are fuzzed. -/
def newPte (node : FreelistNode) (draw : ℕ) : ℕ :=
  let random := lfsr63 draw % 10
  if random = 0 then
    node.addr >>> pgShift <<< ptePpnShift ||| pteV ||| pteU ||| pteR ||| pteW ||| pteX
  else node.addr >>> pgShift <<< ptePpnShift ||| (random >>> 16 &&& 0xff)

/-- The kernel copies the contents of the page through the entry. The entry of a fuzzed page is not
valid, and then the first store faults as well. -/
def copyPage (fault : Fault) (s : Vm) : Option Vm :=
  if s.userLlpt fault.page &&& pteV = 0 then
    setFlags { fault with cause := causeStorePageFault } s
  else some s

/-- A fault on a page without an entry takes the head of the free list. The new entry has both its
flags while the page is copied. -/
def takePage (fault : Fault) (s : Vm) : Option Vm := do
  let head ← s.freelistHead
  let node ← s.freelistNodes[head]?
  if (s.userMapping fault.page).addr = 0 then
    let entry := newPte node fault.draw
    let copied ← copyPage fault { s with
      freelistHead := node.next
      freelistTail := if node.next = s.freelistTail then none else s.freelistTail
      userMapping := update s.userMapping fault.page node
      userLlpt := update s.userLlpt fault.page (entry ||| pteA ||| pteD) }
    some { copied with userLlpt := update copied.userLlpt fault.page entry }
  else none

/-- `handle_fault`; a failed assertion gives no result. The contents of the pages are left out. -/
def handleFault (fault : Fault) (s : Vm) : Option Vm :=
  if pgSize ≤ fault.addr ∧ fault.addr < maxTestPages * pgSize then
    if s.userLlpt fault.page ≠ 0 then setFlags fault s else takePage fault s
  else none

/-- The faults are handled one after another. -/
def run (entropy : UInt64) (faults : List Fault) : Option Vm :=
  faults.foldlM (fun s fault ↦ handleFault fault s) (vmBoot entropy)

/-- The physical page that an entry points to. -/
def Vm.physical (s : Vm) (page : ℕ) : ℕ := s.userLlpt page >>> ptePpnShift <<< pgShift

section Period

variable {α : Type} {f : α → α} {x : α} {n : ℕ}

/-- The first `n` values of the sequence that starts at `x` are different. -/
def DistinctFrom (f : α → α) (x : α) (n : ℕ) : Prop :=
  ∀ i j, i < j → j < n → f^[i] x ≠ f^[j] x

/-- On a cycle, the values are different for one period. -/
theorem distinctFrom_iff (hx : x ∈ periodicPts f) :
    DistinctFrom f x n ↔ n ≤ minimalPeriod f x := by
  constructor
  · intro h
    by_contra hlt
    exact h 0 (minimalPeriod f x) (minimalPeriod_pos_of_mem_periodicPts hx) (not_le.mp hlt)
      iterate_minimalPeriod.symm
  · intro hn i j hij hj heq
    have hlt : j < minimalPeriod f x := hj.trans_le hn
    exact hij.ne ((iterate_eq_iterate_iff_of_lt_minimalPeriod (hij.trans hlt) hlt).mp heq)

/-- A start outside of the cycle gives one more value. -/
theorem distinctFrom_iff_of_notMem (hx : x ∉ periodicPts f) (hfx : f x ∈ periodicPts f) :
    DistinctFrom f x n ↔ n ≤ minimalPeriod f (f x) + 1 := by
  have htail : DistinctFrom f x n ↔ DistinctFrom f (f x) (n - 1) := by
    constructor
    · intro h i j hij hj
      exact h (i + 1) (j + 1) (by omega) (by omega)
    · intro h i j hij hj heq
      obtain ⟨l, rfl⟩ : ∃ l, j = l + 1 := Nat.exists_eq_add_one.mpr (by omega)
      rcases Nat.eq_zero_or_pos i with rfl | hpos
      · exact hx ⟨l + 1, Nat.succ_pos l, heq.symm⟩
      · obtain ⟨k, rfl⟩ : ∃ k, i = k + 1 := Nat.exists_eq_add_one.mpr hpos
        exact h k l (by omega) (by omega) heq
  rw [htail, distinctFrom_iff hfx]
  omega

end Period

/-- Every value below 64 lies on the cycle of 1. -/
theorem exists_iterate_lfsrNext {x : ℕ} (hpos : 0 < x) (hx : x < 64) :
    ∃ n, lfsrNext^[n] 1 = x := by
  have hcycle : ∀ x < 64, 0 < x → x ∈ (List.range 63).map fun n ↦ lfsrNext^[n] 1 := by
    decide
  obtain ⟨n, -, hn⟩ := List.mem_map.mp (hcycle x hx hpos)
  exact ⟨n, hn⟩

theorem isPeriodicPt_lfsrNext_one : IsPeriodicPt lfsrNext 63 1 := by
  change lfsrNext^[63] 1 = 1
  decide +kernel

theorem minimalPeriod_lfsrNext_one : minimalPeriod lfsrNext 1 = 63 := by
  have hne : ∀ n < 63, 0 < n → lfsrNext^[n] 1 ≠ 1 := by decide
  have hpos : 0 < minimalPeriod lfsrNext 1 := isPeriodicPt_lfsrNext_one.minimalPeriod_pos (by decide)
  refine le_antisymm (isPeriodicPt_lfsrNext_one.minimalPeriod_le (by decide)) ?_
  by_contra hlt
  exact hne _ (not_le.mp hlt) hpos iterate_minimalPeriod

theorem mem_periodicPts_lfsrNext {x : ℕ} (hpos : 0 < x) (hx : x < 64) :
    x ∈ periodicPts lfsrNext := by
  obtain ⟨n, rfl⟩ := exists_iterate_lfsrNext hpos hx
  exact mk_mem_periodicPts (by decide) (isPeriodicPt_lfsrNext_one.apply_iterate n)

theorem minimalPeriod_lfsrNext {x : ℕ} (hpos : 0 < x) (hx : x < 64) :
    minimalPeriod lfsrNext x = 63 := by
  obtain ⟨n, rfl⟩ := exists_iterate_lfsrNext hpos hx
  have hone : 1 ∈ periodicPts lfsrNext := mem_periodicPts_lfsrNext (by decide) (by decide)
  rw [minimalPeriod_apply_iterate hone, minimalPeriod_lfsrNext_one]

/-- The register stays below 64 after one step, and it never becomes zero. -/
theorem lfsrNext_range {x : ℕ} (hpos : 0 < x) (hx : x ≤ maxTestPages) :
    0 < lfsrNext x ∧ lfsrNext x < 64 := by
  have hall : ∀ x < 128, 0 < x → 0 < lfsrNext x ∧ lfsrNext x < 64 := by decide
  exact hall x (Nat.lt_succ_of_le hx) hpos

theorem iterate_lfsrNext_range {x : ℕ} (hpos : 0 < x) (hx : x ≤ maxTestPages) (n : ℕ) :
    0 < lfsrNext^[n] x ∧ lfsrNext^[n] x ≤ maxTestPages := by
  induction n with
  | zero => exact ⟨hpos, hx⟩
  | succ n ih =>
    obtain ⟨hpos', hlt⟩ := lfsrNext_range ih.1 ih.2
    rw [iterate_succ_apply']
    exact ⟨hpos', hlt.le.trans (by decide)⟩

/-- The number of different values from a seed on. -/
def distinctPages (entropy : UInt64) : ℕ := if seed entropy < 64 then 63 else 64

theorem seed_range (entropy : UInt64) : 0 < seed entropy ∧ seed entropy ≤ maxTestPages := by
  have hmod : entropy.toNat % maxTestPages < maxTestPages := Nat.mod_lt _ (by decide)
  unfold seed
  omega

theorem distinctFrom_seed_iff (entropy : UInt64) (n : ℕ) :
    DistinctFrom lfsrNext (seed entropy) n ↔ n ≤ distinctPages entropy := by
  obtain ⟨hpos, hle⟩ := seed_range entropy
  unfold distinctPages
  split
  · next hlt =>
    rw [distinctFrom_iff (mem_periodicPts_lfsrNext hpos hlt), minimalPeriod_lfsrNext hpos hlt]
  · next hge =>
    obtain ⟨hpos', hlt'⟩ := lfsrNext_range hpos hle
    have hnot : seed entropy ∉ periodicPts lfsrNext := by
      rintro ⟨m, hm, hperiodic⟩
      obtain ⟨k, rfl⟩ : ∃ k, m = k + 1 := Nat.exists_eq_add_one.mpr hm
      obtain ⟨hk, hk'⟩ := iterate_lfsrNext_range hpos hle k
      have hlt := (lfsrNext_range hk hk').2
      rw [← iterate_succ_apply' lfsrNext, hperiodic.eq] at hlt
      exact hge hlt
    rw [distinctFrom_iff_of_notMem hnot (mem_periodicPts_lfsrNext hpos' hlt'),
      minimalPeriod_lfsrNext hpos' hlt']

theorem freelistLoop_succ (random n : ℕ) :
    freelistLoop random (n + 1) =
      ((freelistLoop random n).1 ++ [⟨pageAddr (freelistLoop random n).2, some (n + 1)⟩],
        lfsrNext (freelistLoop random n).2) := by
  unfold freelistLoop
  rw [List.range_succ, List.foldl_concat]

theorem freelistLoop_eq (random n : ℕ) :
    freelistLoop random n =
      ((List.range n).map fun i ↦ ⟨pageAddr (lfsrNext^[i] random), some (i + 1)⟩,
        lfsrNext^[n] random) := by
  induction n with
  | zero => rfl
  | succ n ih =>
    rw [freelistLoop_succ, ih, List.range_succ, List.map_append, iterate_succ_apply']
    rfl

/-- Node `i` has the address of the register after `i` steps and points to node `i + 1`. -/
theorem getElem?_freelistNodes (entropy : UInt64) {i : ℕ} (hi : i < maxTestPages) :
    (vmBoot entropy).freelistNodes[i]? = some ⟨pageAddr (lfsrNext^[i] (seed entropy)),
      if i + 1 < maxTestPages then some (i + 1) else none⟩ := by
  unfold vmBoot
  dsimp only
  rw [freelistLoop_eq, List.getElem?_modify, List.getElem?_map, List.getElem?_range hi]
  have hlast : maxTestPages - 1 = i ↔ ¬i + 1 < maxTestPages := by omega
  by_cases h : i + 1 < maxTestPages
  · simp [h, hlast]
  · simp [h, hlast]

/-- Faults on different user pages. -/
structure UserFaults (faults : List Fault) : Prop where
  valid : ∀ fault ∈ faults, pgSize ≤ fault.addr ∧ fault.addr < maxTestPages * pgSize
  nodup : (faults.map Fault.page).Nodup

theorem page_range {fault : Fault}
    (h : pgSize ≤ fault.addr ∧ fault.addr < maxTestPages * pgSize) :
    fault.page ≠ 0 ∧ fault.page < maxTestPages := by
  have hpos : 0 < pgSize := by decide
  exact ⟨(Nat.div_pos h.1 hpos).ne', Nat.div_lt_of_lt_mul (Nat.mul_comm _ _ ▸ h.2)⟩

/-- There are fewer user pages than nodes. -/
theorem UserFaults.length_lt {faults : List Fault} (h : UserFaults faults) :
    faults.length < maxTestPages := by
  have hsub : faults.map Fault.page ⊆ (List.range maxTestPages).erase 0 := by
    intro page hpage
    obtain ⟨fault, hfault, rfl⟩ := List.mem_map.mp hpage
    obtain ⟨hne, hlt⟩ := page_range (h.valid fault hfault)
    exact (List.mem_erase_of_ne hne).mpr (List.mem_range.mpr hlt)
  have hlen := (h.nodup.subperm hsub).length_le
  rw [List.length_map, List.length_erase_of_mem (by decide), List.length_range] at hlen
  exact Nat.lt_of_le_of_lt hlen (by decide)

/-- The entry points to the page of the node, whatever its flags. -/
theorem newPte_physical (random draw : ℕ) (next : Option ℕ) :
    newPte ⟨pageAddr random, next⟩ draw >>> ptePpnShift <<< pgShift = pageAddr random := by
  have hpage : pageAddr random >>> pgShift <<< pgShift = pageAddr random := by
    have haddr : pageAddr random = (0x80000 + maxTestPages + random) * 2 ^ 12 := by
      change 0x80000 * 2 ^ 12 + (maxTestPages + random) * 2 ^ 12 = _
      ring
    rw [haddr, pgShift, Nat.shiftRight_eq_div_pow, Nat.mul_div_cancel _ (Nat.two_pow_pos 12),
      Nat.shiftLeft_eq]
  have hflags {flags : ℕ} (h : flags < 2 ^ ptePpnShift) :
      (pageAddr random >>> pgShift <<< ptePpnShift ||| flags) >>> ptePpnShift <<< pgShift =
        pageAddr random := by
    rw [Nat.shiftRight_or_distrib, Nat.shiftLeft_shiftRight, Nat.shiftRight_eq_div_pow flags,
      Nat.div_eq_of_lt h, Nat.or_zero, hpage]
  unfold newPte
  dsimp only
  split
  · rw [Nat.or_assoc, Nat.or_assoc, Nat.or_assoc, Nat.or_assoc]
    exact hflags (by decide)
  · exact hflags (Nat.and_le_right.trans_lt (by decide))

theorem newPte_valid_iff (node : FreelistNode) (draw : ℕ) :
    (newPte node draw ||| pteA ||| pteD) &&& pteV = 0 ↔ lfsr63 draw % 10 ≠ 0 := by
  have hbit (entry : ℕ) : entry &&& pteV = 0 ↔ entry.testBit 0 = false := by
    rw [pteV, Nat.and_one_is_mod, Nat.testBit_zero]
    grind
  rw [hbit, newPte]
  split
  · next hzero => simp [hzero, pteV, pteA, pteD]
  · next hne =>
    -- The flags are bits of a number below 10 that has been shifted by 16.
    have hflags : (lfsr63 draw % 10).testBit 16 = false :=
      Nat.testBit_lt_two_pow ((Nat.mod_lt _ (by decide)).trans (by decide))
    have hshift : ptePpnShift ≠ 0 := by decide
    simp [hne, hflags, hshift, pteA, pteD]

/-- The handler fails at a store through an entry that has both flags. -/
theorem setFlags_eq_none {fault : Fault} {s : Vm} (hA : s.userLlpt fault.page &&& pteA ≠ 0)
    (hD : s.userLlpt fault.page &&& pteD ≠ 0) : setFlags fault s = none := by
  unfold setFlags
  rw [if_neg hA, if_neg fun h ↦ hD h.1]

theorem and_flags_ne_zero (entry : ℕ) :
    (entry ||| pteA ||| pteD) &&& pteA ≠ 0 ∧ (entry ||| pteA ||| pteD) &&& pteD ≠ 0 := by
  have hA : pteA.testBit 6 = true := by decide
  have hD : pteD.testBit 7 = true := by decide
  have hne {x : ℕ} (i : ℕ) (h : x.testBit i = true) : x ≠ 0 := by
    rintro rfl
    rw [Nat.zero_testBit] at h
    cases h
  constructor
  · exact hne 6 (by simp [hA])
  · exact hne 7 (by simp [hD])

/-- The copy succeeds through a valid entry only. -/
theorem copyPage_eq (fault : Fault) (s : Vm) (node : FreelistNode)
    (h : s.userLlpt fault.page = newPte node fault.draw ||| pteA ||| pteD) :
    copyPage fault s = if lfsr63 fault.draw % 10 = 0 then some s else none := by
  obtain ⟨hA, hD⟩ := and_flags_ne_zero (newPte node fault.draw)
  unfold copyPage
  rw [h]
  by_cases hdraw : lfsr63 fault.draw % 10 = 0
  · rw [if_pos hdraw, if_neg ((newPte_valid_iff node fault.draw).not.mpr (not_not.mpr hdraw))]
  · rw [if_neg hdraw, if_pos ((newPte_valid_iff node fault.draw).mpr hdraw)]
    apply setFlags_eq_none
    · change s.userLlpt fault.page &&& pteA ≠ 0
      rwa [h]
    · change s.userLlpt fault.page &&& pteD ≠ 0
      rwa [h]

/-- The state after the first faults: each has taken the next node, and the other user pages have
no entry. -/
structure Served (entropy : UInt64) (faults : List Fault) (s : Vm) : Prop where
  freelistNodes : s.freelistNodes = (vmBoot entropy).freelistNodes
  freelistHead : s.freelistHead =
    if faults.length < maxTestPages then some faults.length else none
  physical : ∀ i fault, faults[i]? = some fault →
    s.physical fault.page = pageAddr (lfsrNext^[i] (seed entropy))
  fresh : ∀ page, page ∉ faults.map Fault.page →
    s.userLlpt page = 0 ∧ (s.userMapping page).addr = 0

theorem served_vmBoot (entropy : UInt64) : Served entropy [] (vmBoot entropy) :=
  ⟨rfl, rfl, nofun, fun _ _ ↦ ⟨rfl, rfl⟩⟩

/-- The state after the fault on `page` has taken `node`. -/
def Vm.taken (s : Vm) (page : ℕ) (node : FreelistNode) (draw : ℕ) : Vm where
  freelistNodes := s.freelistNodes
  freelistHead := node.next
  freelistTail := if node.next = s.freelistTail then none else s.freelistTail
  userLlpt := update s.userLlpt page (newPte node draw)
  userMapping := update s.userMapping page node

/-- A fault on a page without an entry takes the next node, unless the copy fails. -/
theorem Served.handleFault_eq {entropy : UInt64} {faults : List Fault} {s : Vm}
    (h : Served entropy faults s) {fault : Fault}
    (hvalid : pgSize ≤ fault.addr ∧ fault.addr < maxTestPages * pgSize)
    (hpage : fault.page ∉ faults.map Fault.page) (hlt : faults.length < maxTestPages) :
    handleFault fault s = if lfsr63 fault.draw % 10 = 0 then
      some (s.taken fault.page ⟨pageAddr (lfsrNext^[faults.length] (seed entropy)),
        if faults.length + 1 < maxTestPages then some (faults.length + 1) else none⟩ fault.draw)
    else none := by
  obtain ⟨hllpt, hmapping⟩ := h.fresh fault.page hpage
  have hhead : s.freelistHead = some faults.length := by
    rw [h.freelistHead, if_pos hlt]
  have hnode := getElem?_freelistNodes entropy hlt
  rw [← h.freelistNodes] at hnode
  rw [Template.handleFault, if_pos hvalid, if_neg (not_not.mpr hllpt), takePage, hhead,
    Option.bind_eq_bind, Option.bind_some, hnode, Option.bind_eq_bind, Option.bind_some,
    if_pos hmapping]
  dsimp only
  rw [copyPage_eq fault _ _ (update_self _ _ _)]
  by_cases hdraw : lfsr63 fault.draw % 10 = 0
  · rw [if_pos hdraw, if_pos hdraw, Option.bind_eq_bind, Option.bind_some, update_idem]
    rfl
  · rw [if_neg hdraw, if_neg hdraw]
    rfl

theorem Served.taken {entropy : UInt64} {faults : List Fault} {s : Vm}
    (h : Served entropy faults s) {fault : Fault} (hpage : fault.page ∉ faults.map Fault.page) :
    Served entropy (faults ++ [fault])
      (s.taken fault.page ⟨pageAddr (lfsrNext^[faults.length] (seed entropy)),
        if faults.length + 1 < maxTestPages then some (faults.length + 1) else none⟩
        fault.draw) := by
  refine ⟨h.freelistNodes, ?_, ?_, ?_⟩
  · rw [List.length_append, List.length_singleton]
    rfl
  · intro i fault' hfault'
    change update s.userLlpt fault.page _ fault'.page >>> ptePpnShift <<< pgShift = _
    rcases Nat.lt_or_ge i faults.length with hi | hi
    · rw [List.getElem?_append_left hi] at hfault'
      have hne : fault'.page ≠ fault.page := by
        intro heq
        exact hpage (heq ▸ List.mem_map_of_mem (List.mem_of_getElem? hfault'))
      rw [update_of_ne hne]
      exact h.physical i fault' hfault'
    · rw [List.getElem?_append_right hi] at hfault'
      obtain ⟨hzero, heq⟩ := List.getElem?_eq_some_iff.mp hfault'
      rw [List.getElem_singleton] at heq
      have hindex : i = faults.length := by
        rw [List.length_singleton] at hzero
        omega
      rw [← heq, update_self, newPte_physical, hindex]
  · intro page hnot
    rw [List.map_append, List.mem_append, not_or, List.map_singleton, List.mem_singleton] at hnot
    obtain ⟨hfresh, hmap⟩ := h.fresh page hnot.1
    constructor
    · exact (update_of_ne hnot.2 _ _).trans hfresh
    · exact (congrArg FreelistNode.addr (update_of_ne hnot.2 _ _)).trans hmap

theorem UserFaults.of_append {faults rest : List Fault} (h : UserFaults (faults ++ rest)) :
    UserFaults faults where
  valid := fun fault hfault ↦ h.valid fault (List.mem_append_left _ hfault)
  nodup := (List.map_append ▸ h.nodup).of_append_left

/-- The pages of all faults are copied. -/
def Copied (faults : List Fault) : Prop := ∀ fault ∈ faults, lfsr63 fault.draw % 10 = 0

theorem copied_concat {faults : List Fault} {fault : Fault} :
    Copied (faults ++ [fault]) ↔ Copied faults ∧ lfsr63 fault.draw % 10 = 0 := by
  unfold Copied
  rw [List.forall_mem_append, List.forall_mem_singleton]

/-- A sequence of faults on different user pages is served exactly if all the copies succeed. -/
theorem UserFaults.run_cases (entropy : UInt64) {faults : List Fault} (h : UserFaults faults) :
    (Copied faults ∧ ∃ s, run entropy faults = some s ∧ Served entropy faults s) ∨
      (¬Copied faults ∧ run entropy faults = none) := by
  induction faults using List.reverseRecOn with
  | nil => exact .inl ⟨nofun, vmBoot entropy, rfl, served_vmBoot entropy⟩
  | append_singleton faults fault ih =>
    have hvalid := h.valid fault (List.mem_append_right _ (List.mem_singleton_self fault))
    have hnodup := h.nodup
    rw [List.map_append, List.map_singleton, List.nodup_append_comm, List.singleton_append,
      List.nodup_cons] at hnodup
    have hrun : run entropy (faults ++ [fault]) =
        (run entropy faults).bind (handleFault fault) := by
      unfold run
      rw [List.foldlM_append]
      congr 1
      funext s
      rw [List.foldlM_cons]
      exact bind_pure _
    rw [copied_concat, hrun]
    obtain ⟨hcopied, s, hs, hserved⟩ | ⟨hnot, hnone⟩ := ih h.of_append
    · rw [hs, Option.bind_some, hserved.handleFault_eq hvalid hnodup.1 h.of_append.length_lt]
      by_cases hdraw : lfsr63 fault.draw % 10 = 0
      · rw [if_pos hdraw]
        exact .inl ⟨⟨hcopied, hdraw⟩, _, rfl, hserved.taken hnodup.1⟩
      · rw [if_neg hdraw]
        exact .inr ⟨fun hboth ↦ hdraw hboth.2, rfl⟩
    · rw [hnone]
      exact .inr ⟨fun hboth ↦ hnot hboth.1, rfl⟩

/-- The pages behind the kernel image, as many as there are nodes. -/
def Reserved (addr : ℕ) : Prop :=
  pageAddr 1 ≤ addr ∧ addr ≤ pageAddr maxTestPages

/-- The faults are served with different reserved pages. -/
def HandsOutOnce (entropy : UInt64) (faults : List Fault) : Prop :=
  ∃ s, run entropy faults = some s ∧ (∀ fault ∈ faults, Reserved (s.physical fault.page)) ∧
    faults.Pairwise fun fault fault' ↦ s.physical fault.page ≠ s.physical fault'.page

theorem pageAddr_injective : Injective pageAddr := by
  intro x y h
  have hpos : 0 < pgSize := by decide
  have hmul := Nat.eq_of_mul_eq_mul_right hpos (Nat.add_left_cancel h)
  exact Nat.add_left_cancel hmul

theorem pageAddr_mono : Monotone pageAddr := by
  intro x y h
  unfold pageAddr
  gcongr

/-- The pages are different as long as the register has not come around. -/
theorem Served.handsOutOnce_iff {entropy : UInt64} {faults : List Fault} {s : Vm}
    (h : Served entropy faults s) (hrun : run entropy faults = some s) :
    HandsOutOnce entropy faults ↔ faults.length ≤ distinctPages entropy := by
  have hpage (i : ℕ) (hi : i < faults.length) :
      s.physical faults[i].page = pageAddr (lfsrNext^[i] (seed entropy)) :=
    h.physical i _ (List.getElem?_eq_getElem hi)
  have hpairwise : (faults.Pairwise fun fault fault' ↦
      s.physical fault.page ≠ s.physical fault'.page) ↔
      DistinctFrom lfsrNext (seed entropy) faults.length := by
    rw [List.pairwise_iff_getElem]
    constructor
    · intro hne i j hij hj heq
      apply hne i j (hij.trans hj) hj hij
      rw [hpage, hpage, heq]
    · intro hdistinct i j hi hj hij heq
      rw [hpage, hpage] at heq
      exact hdistinct i j hij hj (pageAddr_injective heq)
  rw [← distinctFrom_seed_iff, ← hpairwise]
  constructor
  · rintro ⟨t, ht, -, hne⟩
    rw [hrun] at ht
    obtain rfl := Option.some.inj ht
    exact hne
  · intro hne
    refine ⟨s, hrun, ?_, hne⟩
    intro fault hfault
    obtain ⟨i, hi, rfl⟩ := List.getElem_of_mem hfault
    obtain ⟨hpos, hle⟩ := iterate_lfsrNext_range (seed_range entropy).1 (seed_range entropy).2 i
    rw [hpage]
    exact ⟨pageAddr_mono hpos, pageAddr_mono hle⟩

/-- Faults on the first `n` user pages. -/
def firstPages (n : ℕ) : List Fault := (List.range n).map fun i ↦ ⟨(i + 1) * pgSize, 0xd, 0⟩

/-- The faults on different user pages get different pages as long as their pages can be copied, for
one period of the register, which has 63 values, and one more if the seed is not among them. -/
theorem handsOutOnce_iff_length_le (entropy : UInt64) {faults : List Fault}
    (h : UserFaults faults) :
    HandsOutOnce entropy faults ↔ (∀ fault ∈ faults, lfsr63 fault.draw % 10 = 0) ∧
      faults.length ≤ if seed entropy < 64 then 63 else 64 := by
  obtain ⟨hcopied, s, hrun, hserved⟩ | ⟨hnot, hnone⟩ := h.run_cases entropy
  · rw [hserved.handsOutOnce_iff hrun]
    exact (and_iff_right hcopied).symm
  · constructor
    · rintro ⟨s, hrun, -⟩
      rw [hnone] at hrun
      cases hrun
    · rintro ⟨hcopied, -⟩
      exact absurd hcopied hnot

theorem handsOutOnce_iff_firstPages :
    HandsOutOnce 0 (firstPages 3) ↔ (∀ fault ∈ firstPages 3, lfsr63 fault.draw % 10 = 0) ∧
      (firstPages 3).length ≤ if seed 0 < 64 then 63 else 64 :=
  handsOutOnce_iff_length_le 0 ⟨by decide, by decide⟩

/-- The fault on the 64th user page gets the page of the first one, although every page is
copied. -/
theorem not_handsOutOnce_firstPages :
    UserFaults (firstPages 64) ∧ (∃ s, run 0 (firstPages 64) = some s) ∧
      ¬HandsOutOnce 0 (firstPages 64) := by
  have hfaults : UserFaults (firstPages 64) := ⟨by decide, by decide⟩
  have hcopied : Copied (firstPages 64) := by
    unfold Copied
    decide
  obtain ⟨-, s, hrun, hserved⟩ | ⟨hnot, -⟩ := hfaults.run_cases 0
  · refine ⟨hfaults, ⟨s, hrun⟩, ?_⟩
    rw [hserved.handsOutOnce_iff hrun]
    decide
  · exact absurd hcopied hnot

end ProcessorFuzz.Template
